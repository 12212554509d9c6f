import GuardCode.Directive
import GuardCode.Staging

/-! The code of a guard. A condition either jumps once its outcome is known or leaves 0 or 1 on the
stack, and each comparison is fused with the branch that its place asks for, so that a chain of
`&&` and `||` makes no intermediate truth values. -/
namespace GuardCode

/-- Where a whole condition jumps once its outcome is known early. -/
structure Exits where
  onTrue : Label
  onFalse : Label
  deriving DecidableEq

/-- What becomes of the outcome of a condition. -/
inductive Outlet where
  /-- It stays on the stack as 0 or 1. -/
  | stack
  /-- A failing condition jumps, one that holds goes on. -/
  | jumpIfFalse (label : Label)
  /-- A condition that holds jumps, a failing one goes on. -/
  | jumpIfTrue (label : Label)
  deriving DecidableEq

/-- What the code of an expression is for. -/
inductive Purpose where
  /-- Its value ends up on the stack. -/
  | value
  | condition (outlet : Outlet) (exits : Exits)
  deriving DecidableEq

namespace Emission

/-- The type on which a comparison is decided: a class on either side, else the type on the left; a
`null` on the left takes the type of the other side. -/
def comparisonType (left right : Expr) : Ty :=
  if left.isNull then right.type
  else
    match left.type, right.type with
    | .named name equality?, _ => .named name equality?
    | _, .named name equality? => .named name equality?
    | type, _ => type

/-- Turns 1 into 0 and 0 into 1. -/
def negate : List Instruction := [.pushInt 0, .compareEqual]

/-- A truth value on the stack, tested as its place asks for. -/
def test (outlet : Outlet) : List Instruction :=
  match outlet with
  | .stack => []
  | .jumpIfFalse label => [.jump .ifFalse label]
  | .jumpIfTrue label => [.jump .ifTrue label]

/-- As `test`, of the negated truth value. -/
def testNot (outlet : Outlet) : List Instruction :=
  match outlet with
  | .stack => negate
  | .jumpIfFalse label => [.jump .ifTrue label]
  | .jumpIfTrue label => [.jump .ifFalse label]

/-- The branch taken where a comparison fails. Floats that are not ordered fail every ordering. -/
def failing? (isFloat : Bool) : BinaryOp → Option BranchOp
  | .eq => some .neUn
  | .ne => some .eq
  | .gt => some (if isFloat then .leUn else .le)
  | .lt => some (if isFloat then .geUn else .ge)
  | .ge => some (if isFloat then .ltUn else .lt)
  | .le => some (if isFloat then .gtUn else .gt)
  | _ => none

/-- The branch taken where a comparison holds. -/
def holding? : BinaryOp → Option BranchOp
  | .eq => some .eq
  | .ne => some .neUn
  | .gt => some .gt
  | .lt => some .lt
  | .ge => some .ge
  | .le => some .le
  | _ => none

/-- The instructions that leave the outcome of a comparison on the stack. -/
def compared? (type : Ty) : BinaryOp → Option (List Instruction)
  | .eq => some [.compareEqual]
  | .ne => some (if type.isReference then [.greater true] else .compareEqual :: negate)
  | .gt => some [.greater false]
  | .lt => some [.less false]
  | .ge => some (.less type.isFloat :: negate)
  | .le => some (.greater type.isFloat :: negate)
  | _ => none

/-- Compares the two values on the stack. -/
def compare (op : BinaryOp) (type : Ty) (outlet : Outlet) : Draft :=
  let plain : Option (List Instruction) :=
    match outlet with
    | .stack => compared? type op
    | .jumpIfFalse label => (failing? type.isFloat op).map fun branch => [.jump branch label]
    | .jumpIfTrue label => (holding? op).map fun branch => [.jump branch label]
  let fused : Draft :=
    match plain with
    | some is => .emit is
    | none => .abort (.unsupportedOperator op)
  match op, type.equality? with
  | .eq, some method => .emit (.call method :: test outlet)
  | .ne, some method => .emit (.call method :: testNot outlet)
  | _, _ => fused

/-- One more level of nesting, of which there is room for a limited number. -/
def enter (limit : Nat) (room : Nat) (inside : Nat → Draft) : Draft :=
  match room with
  | 0 => .abort (.nestingTooDeep limit)
  | room + 1 => inside room

/-- Two conditions joined by `&&` or `||`. Where the chain around them is of the other kind, a label
behind them lets the left one skip the right one. -/
def chain (isAnd : Bool) (left right : Outlet → Draft) (outlet : Outlet) (exits : Exits) : Draft :=
  match isAnd, outlet with
  | true, .stack => left (.jumpIfFalse exits.onFalse) ++ right .stack
  | false, .stack => left (.jumpIfTrue exits.onTrue) ++ right .stack
  | true, .jumpIfFalse _ => left outlet ++ right outlet
  | false, .jumpIfTrue _ => left outlet ++ right outlet
  | false, .jumpIfFalse _ =>
    .fresh fun skip => left (.jumpIfTrue skip) ++ right outlet ++ .write [.mark skip]
  | true, .jumpIfTrue _ =>
    .fresh fun skip => left (.jumpIfFalse skip) ++ right outlet ++ .write [.mark skip]

/-- The end of a condition whose outcome is wanted as a value: each exit that is jumped to pushes
its truth value, and all paths meet. -/
def landing (exits : Exits) (join : Label) (condition : List Directive) : List Directive :=
  .emit (.jump .always join) ::
    (if Directive.targets exits.onTrue condition then
      [.mark exits.onTrue, .emit (.pushInt 1), .emit (.jump .always join)]
    else []) ++
    (if Directive.targets exits.onFalse condition then
      [.mark exits.onFalse, .emit (.pushInt 0)]
    else []) ++
    [.mark join]

/-- Gives a condition exits of its own and leaves its outcome on the stack. -/
def materialize (condition : Exits → Draft) : Draft :=
  .fresh fun onTrue => .fresh fun onFalse => .fresh fun join => fun next =>
    let written := condition ⟨onTrue, onFalse⟩ next
    written ++ landing ⟨onTrue, onFalse⟩ join written

/-- The primitive of a capability, behind its operands. -/
def primitive (c : Capability) (target? : Option Member) : Draft :=
  let refuse (fault : CallFault) : Draft :=
    .abort (.unsupportedOperation (Expr.calleeText (.capability c)) fault)
  match c, target? with
  | .add, none => .emit [.add]
  | .subtract, none => .emit [.sub]
  | .remainder, none => .emit [.rem]
  | .load, some m => .emit [.load m]
  | .store, some (.loc slot) => .emit [.storeLocal slot.index]
  | .store, some (.field f) => .emit [.storeField f]
  | .increment, some (.loc slot) => .emit (Instruction.increment slot)
  | .decrement, some (.loc slot) => .emit (Instruction.decrement slot)
  | _, some m => refuse (.targetRefused m.text)
  | _, none => refuse .targetMissing

/-- A carried reference can only stand where a capability takes a target. -/
def strayReference (c : Carried) : Draft :=
  match Staging.stage c [] >>= Staging.close with
  | .ok () => .write []
  | .error e => .abort e

/-- The reference in the last target place. -/
def target? : List ParamKind → List Expr → Option Member
  | .target :: kinds, .carried (.member m) :: es => (target? kinds es).orElse fun _ => some m
  | _ :: kinds, _ :: es => target? kinds es
  | _, _ => none

/-- A target is not evaluated; it has to be a reference that an instruction can name. -/
def takeTarget (callee : String) (place : Nat) : Expr → Draft
  | .carried c =>
    match Staging.stage c [] with
    | .ok _ => .write []
    | .error e => .abort e
  | e => .abort (.unsupportedOperation callee (.targetRequired place e.text))

/-- The code of an expression that is no condition by itself; as a condition its value is tested,
which is one level of nesting more. -/
def asValue (limit : Nat) (purpose : Purpose) (room : Nat) (code : Nat → Draft) : Draft :=
  match purpose with
  | .value => enter limit room code
  | .condition outlet _ =>
    enter limit room fun room => enter limit room code ++ .emit (test outlet)

mutual

/-- The code of an expression, nested at most `limit` deep, with room left for `room` levels. -/
def expr (limit : Nat) : Expr → Purpose → (room : Nat) → Draft
  | .binary op left right, purpose, room =>
    if op.isLogical then
      let joined (room : Nat) (outlet : Outlet) (exits : Exits) : Draft :=
        enter limit room fun room =>
          chain (op == .and)
            (fun outlet => expr limit left (.condition outlet exits) room)
            (fun outlet => expr limit right (.condition outlet exits) room)
            outlet exits
      match purpose with
      | .value => enter limit room fun room => materialize fun exits => joined room .stack exits
      | .condition outlet exits => joined room outlet exits
    else if op.isComparison then
      let outlet :=
        match purpose with
        | .value => .stack
        | .condition outlet _ => outlet
      enter limit room fun room =>
        expr limit left .value room ++ expr limit right .value room ++
          compare op (comparisonType left right) outlet
    else
      asValue limit purpose room fun room =>
        if op = .rem then
          expr limit left .value room ++ expr limit right .value room ++ .emit [.rem]
        else .abort (.unsupportedOperator op)
  | .member m, purpose, room => asValue limit purpose room fun _ => .emit [.load m]
  | .literal l, purpose, room =>
    asValue limit purpose room fun _ => .emit (Instruction.pushLiteral l)
  | .carried c, purpose, room => asValue limit purpose room fun _ => strayReference c
  | .call (.capability c) args _, purpose, room =>
    asValue limit purpose room fun room =>
      if args.length ≠ c.params.length then
        .abort (.unsupportedOperation (Expr.calleeText (.capability c))
          (.argumentCount c.params.length args.length))
      else
        operands limit (Expr.calleeText (.capability c)) 1 c.params args room ++
          primitive c (target? c.params args)
  | .call (.method m) args _, purpose, room =>
    asValue limit purpose room fun room =>
      if args.length ≠ m.arity then
        .abort (.unsupportedOperation m.name (.argumentCount m.arity args.length))
      else values limit args room ++ .emit [.call m]

/-- The code of a capability's arguments, of which the first has the given place. -/
def operands (limit : Nat) (callee : String) (place : Nat) :
    List ParamKind → List Expr → (room : Nat) → Draft
  | .value :: kinds, e :: es, room =>
    expr limit e .value room ++ operands limit callee (place + 1) kinds es room
  | .target :: kinds, e :: es, room =>
    takeTarget callee place e ++ operands limit callee (place + 1) kinds es room
  | _, _, _ => .write []

def values (limit : Nat) : List Expr → (room : Nat) → Draft
  | [], _ => .write []
  | e :: es, room => expr limit e .value room ++ values limit es room

end

/-- The code of a whole guard: it jumps to one of the exits or leaves 0 or 1 on the stack. -/
def guard (limit : Nat) (e : Expr) (exits : Exits) : Draft :=
  expr limit e (.condition .stack exits) limit

end Emission

end GuardCode
