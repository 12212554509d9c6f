import GuardCode.Emission

/-! The frame of an if/else block. The outcome of the guard is stored as 0 or 1 in a local of the
block before the branch to the bodies:

    <guard>              jumps to storeTrue or storeFalse, or leaves 0 or 1
    br storeResult
  storeTrue:
    1
    br storeResult
  storeFalse:
    0
  storeResult:
    store and load the result
    brfalse elseBody
  ifBody:
    <then>
    br endIf
  elseBody:
    <else>
  endIf:
-/
namespace GuardCode

structure IfLabels where
  storeTrue : Label
  storeFalse : Label
  storeResult : Label
  ifBody : Label
  elseBody : Label
  endIf : Label
  deriving DecidableEq

namespace IfLabels

/-- Six labels in a row. -/
def startingAt (first : Label) : IfLabels :=
  ⟨first, first + 1, first + 2, first + 3, first + 4, first + 5⟩

def exits (labels : IfLabels) : Exits := ⟨labels.storeTrue, labels.storeFalse⟩

end IfLabels

/-- The directives of a block before, between and behind its two bodies. -/
structure IfBlock where
  labels : IfLabels
  opening : List Directive
  middle : List Directive
  closing : List Directive

namespace IfBlock

/-- The result of the guard, brought together in a local and tested. -/
def storeOutcome (labels : IfLabels) (result : Nat) : List Directive :=
  [.emit (.jump .always labels.storeResult),
    .mark labels.storeTrue, .emit (.pushInt 1), .emit (.jump .always labels.storeResult),
    .mark labels.storeFalse, .emit (.pushInt 0),
    .mark labels.storeResult, .emit (.storeLocal result),
    .emit (.loadLocal result), .emit (.jump .ifFalse labels.elseBody), .mark labels.ifBody]

/-- The block of a guard in a body that has so many labels and locals already. -/
def ofGuard (limit : Nat) (guard : Expr) (labelCount localCount : Nat) : IfBlock :=
  let labels := IfLabels.startingAt labelCount
  { labels
    opening :=
      .declare .bool :: List.replicate 6 .define ++
        Emission.guard limit guard labels.exits (labelCount + 6) ++
        storeOutcome labels localCount
    middle := [.emit (.jump .always labels.endIf), .mark labels.elseBody]
    closing := [.mark labels.endIf] }

/-- What a body of a block does to a state, and what it has to say besides. -/
abbrev Body (σ α : Type) := σ → EStateM.Result CompileError σ Unit × α

/-- Writes a block around its bodies, up to the first failure. A body that is not reached has nothing
to say. -/
def run {σ α β : Type} (perform : List Directive → EStateM CompileError σ Unit) (block : IfBlock)
    (onTrue : Body σ α) (onFalse : Body σ β) (s : σ) :
    EStateM.Result CompileError σ Unit × Option α × Option β :=
  match perform block.opening s with
  | .error e s => (.error e s, none, none)
  | .ok _ s =>
    match onTrue s with
    | (.error e s, said) => (.error e s, some said, none)
    | (.ok _ s, saidTrue) =>
      match perform block.middle s with
      | .error e s => (.error e s, some saidTrue, none)
      | .ok _ s =>
        let (result, saidFalse) := onFalse s
        match result with
        | .error e s => (.error e s, some saidTrue, some saidFalse)
        | .ok _ s => (perform block.closing s, some saidTrue, some saidFalse)

end IfBlock

/-- Writes an if/else block into an assembly. -/
def Assembly.ifElse {α β : Type} (limit : Nat) (guard : Expr) (onTrue : IfBlock.Body Assembly α)
    (onFalse : IfBlock.Body Assembly β) (a : Assembly) :
    EStateM.Result CompileError Assembly IfLabels × Option α × Option β :=
  let block := IfBlock.ofGuard limit guard a.labels.size a.locals.size
  let (result, saidTrue, saidFalse) := block.run Directive.performAll onTrue onFalse a
  match result with
  | .ok _ a => (.ok block.labels a, saidTrue, saidFalse)
  | .error e a => (.error e a, saidTrue, saidFalse)

end GuardCode
