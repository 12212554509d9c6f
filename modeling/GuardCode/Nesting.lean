import GuardCode.ParseError

/-! The limit on nested parentheses, checked on the plain text before it is parsed. Parentheses
between quotes do not count. -/
namespace GuardCode.Nesting

/-- Whether the scan stands inside quotes, and there right behind a backslash. -/
inductive Quotes where
  | outside
  | inside (quote : Char)
  | escaped (quote : Char)
  deriving DecidableEq

/-- The position of the first parenthesis that opens a level beyond the limit. -/
def tooDeep? (limit : Nat) : List Char → (position depth : Nat) → Quotes → Option Nat
  | [], _, _, _ => none
  | c :: cs, position, depth, quotes =>
    let next := position + c.utf8Size
    match quotes with
    | .escaped quote => tooDeep? limit cs next depth (.inside quote)
    | .inside quote =>
      if c = '\\' then tooDeep? limit cs next depth (.escaped quote)
      else if c = quote then tooDeep? limit cs next depth .outside
      else tooDeep? limit cs next depth (.inside quote)
    | .outside =>
      if c = '"' ∨ c = '\'' then tooDeep? limit cs next depth (.inside c)
      else if c = '(' then
        if limit < depth + 1 then some position else tooDeep? limit cs next (depth + 1) .outside
      else if c = ')' then tooDeep? limit cs next (depth - 1) .outside
      else tooDeep? limit cs next depth .outside

def check (limit : Nat) (source : List Char) : Except ParseError Unit :=
  match tooDeep? limit source 0 0 .outside with
  | some position => .error ⟨.tooDeep limit, ⟨position, position + 1⟩⟩
  | none => .ok ()

end GuardCode.Nesting
