import GuardCode.ExecutionError
import GuardCode.Value

/-! The host methods that code may call. They act on a world of their own, which lives as long as the
host likes. -/
namespace GuardCode

/-- What a host method does with its arguments, which come in the order of declaration. -/
abbrev HostMethod (σ : Type) := List Value → EStateM ExecutionError σ (Option Value)

/-- The registered methods by number. -/
structure Host (σ : Type) where
  methods : List (Nat × HostMethod σ) := []

namespace Host

variable {σ : Type}

/-- Registers a method under its number; an earlier one of that number is replaced. -/
def register (host : Host σ) (id : Nat) (method : HostMethod σ) : Host σ :=
  ⟨(id, method) :: host.methods.filter fun entry => entry.1 != id⟩

def find? (host : Host σ) (id : Nat) : Option (HostMethod σ) := host.methods.lookup id

def size (host : Host σ) : Nat := host.methods.length

end Host

end GuardCode
