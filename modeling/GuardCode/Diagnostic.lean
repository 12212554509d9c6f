import GuardCode.Drawing
import GuardCode.Failure

/-! Failures as they are reported to the author of a guard: with the guard text where it is known,
help where there is some, and a drawing that points at the place of a parse error. -/
namespace GuardCode

/-- A mark under a part of a text, by the place where it begins and its length. -/
structure Underline where
  offset : Nat
  length : Nat
  deriving DecidableEq

namespace Underline

def ofSpan (span : Span) : Underline := ⟨span.start, span.stop - span.start⟩

def span (mark : Underline) : Span := ⟨mark.offset, mark.offset + mark.length⟩

end Underline

inductive Diagnostic where
  | parse (error : ParseError) (source : String)
  | compile (error : CompileError) (source : String)
  | execution (error : ExecutionError)
  | other (failure : Failure)
  deriving DecidableEq

namespace Diagnostic

/-- The report of a failure that the given guard text has led to. -/
def ofSource (failure : Failure) (source : String) : Diagnostic :=
  match failure with
  | .parse error => parse error source
  | .compile error => compile error source
  | .execution error => execution error
  | failure => other failure

/-- The report of a failure whose guard text is not at hand. -/
def ofFailure : Failure → Diagnostic
  | .execution error => execution error
  | failure => other failure

def message : Diagnostic → String
  | parse error _ => error.message
  | compile error _ => "cannot compile guard: " ++ error.message
  | execution error => "execution failed: " ++ error.message
  | other failure => failure.message

/-- The mark that a report makes in the source. -/
def underline? : Diagnostic → Option Underline
  | parse error _ => some (.ofSpan error.span)
  | _ => none

/-- The place in the source that a report points at. -/
def span? (d : Diagnostic) : Option Span := d.underline?.map Underline.span

def source? : Diagnostic → Option String
  | parse _ source | compile _ source => some source
  | _ => none

/-- Advice on how to mend a guard. -/
def help? : Diagnostic → Option String
  | parse error _ =>
    match error.fault with
    | .unknownName _ => some "arguments are named arg0, arg1, ...; locals loc0, loc1, ..."
    | .unknownCapability _ =>
      some ("available capabilities: " ++
        String.intercalate ", " (Capability.all.map fun c => "@" ++ c.name))
    | .typeMismatch _ _ =>
      some "give literals a matching suffix (`L`, `s`, `b`) or compare like types"
    | .tooDeep _ => some "raise the limit with `CompilationOptions::max_depth`"
    | _ => none
  | _ => none

/-- The report in plain text. -/
def render (d : Diagnostic) : String :=
  let all :=
    match d with
    | parse error source =>
      ("[" ++ error.fault.code ++ "] Error: " ++ error.message) ::
        Drawing.ofSpan "<guard>" source (d.span?.getD ⟨0, 0⟩) error.message d.help?
    | compile error source => ["Compile error: " ++ error.message, "  in guard: " ++ source]
    | execution error => ["Execution error: " ++ error.message]
    | other failure => ["API error: " ++ failure.message]
  String.join (all.map (· ++ "\n"))

end Diagnostic

end GuardCode
