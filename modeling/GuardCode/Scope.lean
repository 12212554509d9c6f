import GuardCode.Text.Numeral
import GuardCode.Types

/-! The names that a guard may use. Arguments are always `argN` and locals `locN`; locals, fields and
methods may have names besides, and a given name wins over a numbered one. -/
namespace GuardCode

structure Scope where
  args : List Ty := []
  locals : List Slot := []
  /-- Named members, the latest first. -/
  names : List (String × Member) := []
  /-- Methods with their result types, the latest first. -/
  methods : List (Method × Ty) := []

namespace Scope

def ofArgs (args : List Ty) : Scope := { args }

def addLocal (scope : Scope) (slot : Slot) : Scope :=
  { scope with locals := scope.locals ++ [slot] }

def addNamedLocal (scope : Scope) (name : String) (slot : Slot) : Scope :=
  { scope.addLocal slot with names := (name, .loc slot) :: scope.names }

def addField (scope : Scope) (field : Field) : Scope :=
  { scope with names := (field.name, .field field) :: scope.names }

def addMethod (scope : Scope) (method : Method) (returns : Ty) : Scope :=
  { scope with methods := (method, returns) :: scope.methods }

/-- The number of a slot name such as `arg12`: digits without a leading zero, below 2^16. -/
def slotIndex? (kind : String) (name : String) : Option Nat := do
  let cs := name.toList
  if !kind.toList.isPrefixOf cs then none
  else
    let digits := cs.drop kind.length
    if digits.length > 1 ∧ digits.head? = some '0' then none
    else
      let index ← Text.readNat? digits
      if index < 65536 then some index else none

/-- The member that a name stands for. -/
def resolve? (scope : Scope) (name : String) : Option Member :=
  match scope.names.lookup name with
  | some member => some member
  | none =>
    match slotIndex? "arg" name with
    | some index => (scope.args[index]?).map fun type => .arg ⟨index, type⟩
    | none =>
      match slotIndex? "loc" name with
      | some index => (scope.locals.find? fun slot => slot.index == index).map .loc
      | none => none

def method? (scope : Scope) (name : String) : Option (Method × Ty) :=
  scope.methods.find? fun (method, _) => method.name == name

end Scope

end GuardCode
