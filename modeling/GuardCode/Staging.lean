import GuardCode.CompileError

/-! References on their way to the primitive that takes them. The last one staged is taken first. -/
namespace GuardCode.Staging

/-- Stages a carried reference on top of others. -/
def stage (carried : Carried) (staged : List Member) : Except CompileError (List Member) :=
  match carried with
  | .member m => .ok (m :: staged)
  | .foreign typeName => .error (.unsupportedOperand typeName)

/-- Nothing may be left when the staging closes. -/
def close : List Member → Except CompileError Unit
  | [] => .ok ()
  | m :: _ => .error (.danglingOperand m.text)

end GuardCode.Staging
