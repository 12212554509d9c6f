import GuardCode.Code.Listing
import GuardCode.Diagnostic
import GuardCode.Predicate

/-! The command line: `disasm`, `run` and `check` of a guard. Options take their value behind `=` or
as the next word; a next word that starts with `-` is no value. Behind `--` every word is plain. -/
namespace GuardCode.CommandLine

inductive Verb where
  | disasm | run | check
  deriving DecidableEq

def Verb.ofName? : String → Option Verb
  | "disasm" => some disasm
  | "run" => some run
  | "check" => some check
  | _ => none

/-- The options that are known before the verb. -/
def commonOptions : List String := ["branches", "max-depth"]

/-- The options that are known behind a verb. -/
def Verb.options : Verb → List String
  | disasm | check => "params" :: commonOptions
  | run => "params" :: "args" :: "max-steps" :: commonOptions

/-- Words sorted into options with their values and plain words. -/
structure Sorted where
  options : List (String × String) := []
  plain : List String := []

/-- Adds an option; none may be given twice. -/
def Sorted.addOption (s : Sorted) (name value : String) : Option Sorted :=
  if (s.options.lookup name).isSome then none
  else some { s with options := s.options ++ [(name, value)] }

def Sorted.addPlain (s : Sorted) (word : String) : Sorted := { s with plain := s.plain ++ [word] }

/-- Whether a word can be the value of the option before it. -/
def isValue (word : String) : Bool := word == "-" || !word.startsWith "-"

/-- The name of an option and, behind an equals sign, its value. -/
def splitOption (word : String) : String × Option String :=
  let body := word.toList.drop 2
  let name := String.ofList (body.takeWhile (· ≠ '='))
  match body.dropWhile (· ≠ '=') with
  | [] => (name, none)
  | _ :: value => (name, some (String.ofList value))

/-- Sorts words. Before the verb, the first plain word ends the sorting; the words behind it come
back as well. -/
def sort (known : List String) (untilPlain : Bool) :
    Sorted → List String → Option (Sorted × List String)
  | s, [] => some (s, [])
  | s, word :: words =>
    if word = "--" then
      if untilPlain then none else some (words.foldl Sorted.addPlain s, [])
    else if isValue word then
      if untilPlain then some (s.addPlain word, words)
      else sort known untilPlain (s.addPlain word) words
    else if !word.startsWith "--" then none
    else
      let (name, value?) := splitOption word
      if !known.contains name then none
      else
        match value? with
        | some value =>
          match s.addOption name value with
          | some s => sort known untilPlain s words
          | none => none
        | none =>
          match words with
          | [] => none
          | value :: rest =>
            if !isValue value then none
            else
              match s.addOption name value with
              | some s => sort known untilPlain s rest
              | none => none

def readCount? (text : String) : Option Nat :=
  (Text.readInt? 0 18446744073709551615 text.toList).map Int.toNat

def readEncoding? : String → Option Encoding
  | "auto" => some .auto
  | "short" => some .short
  | "long" => some .long
  | _ => none

/-- A command with all that it needs. -/
structure Invocation where
  verb : Verb
  guard : String
  params : String
  args : String
  maxSteps? : Option Nat
  options : Options

/-- The value of an option read as it has to be, or the default where the option is not given. -/
def valueOr {α : Type} (options : List (String × String)) (name : String)
    (read? : String → Option α) (default : α) : Option α :=
  match options.lookup name with
  | some text => read? text
  | none => some default

/-- Understands the words of a command line. What is said behind the verb wins over what is said
before it, but both must make sense. -/
def invocation? (words : List String) : Option Invocation := do
  let (before, rest) ← sort commonOptions true {} words
  let verb ← Verb.ofName? (← before.plain.head?)
  let (behind, _) ← sort verb.options false {} rest
  match behind.plain with
  | [guard] =>
    let outer : Options := {
      encoding := ← valueOr before.options "branches" readEncoding? .auto
      maxDepth := ← valueOr before.options "max-depth" readCount? Expr.defaultDepth }
    return {
      verb
      guard
      params := ← valueOr behind.options "params" some ""
      args := ← valueOr behind.options "args" some ""
      maxSteps? := ← valueOr behind.options "max-steps" (fun text => (readCount? text).map some)
        none
      options := {
        encoding := ← valueOr behind.options "branches" readEncoding? outer.encoding
        maxDepth := ← valueOr behind.options "max-depth" readCount? outer.maxDepth } }
  | _ => none

/-- What the program leaves behind: its exit status and what it has written. -/
structure Outcome where
  status : Nat
  output : String := ""
  errors : String := ""

/-- Compiles the guard of an invocation. -/
def Invocation.compile (i : Invocation) : Except Diagnostic Predicate := do
  let params ← (Signature.readParams i.params).mapError Diagnostic.ofFailure
  let p ← (Predicate.compile i.guard params {} i.options).mapError (Diagnostic.ofSource · i.guard)
  return { p with maxSteps? := i.maxSteps? }

/-- The line that a verb prints; nothing if the fuel does not suffice for a run. -/
def Invocation.answer (i : Invocation) (fuel : Nat) : Option (Except Diagnostic String) :=
  match i.compile with
  | .error d => some (.error d)
  | .ok p =>
    match i.verb with
    | .disasm => some (.ok p.code.listing)
    | .check =>
      some (.ok ("ok: " ++ toString p.code.instructions.size ++ " instructions, " ++
        toString p.code.size ++ " bytes, max stack " ++ toString p.code.maxStack))
    | .run =>
      match p.readArgs (Text.entries i.args) with
      | .error failure => some (.error (.ofFailure failure))
      | .ok args =>
        (p.run ({} : Host Unit) fuel args ()).map fun result =>
          match result.verdict with
          | .ok taken => .ok (if taken then "true" else "false")
          | .error failure => .error (.ofFailure failure)

/-- Carries out a command line. The status is 0 for an answer, 1 for a failure of the guard, its
parameters or its run, and 2 for words that make no command. -/
def outcome (words : List String) (fuel : Nat) : Option Outcome :=
  match invocation? words with
  | none => some { status := 2, errors := "usage: disasm|run|check GUARD [OPTIONS]\n" }
  | some i =>
    (i.answer fuel).map fun
      | .ok line => { status := 0, output := line ++ "\n" }
      | .error d => { status := 1, errors := d.render }

end GuardCode.CommandLine
