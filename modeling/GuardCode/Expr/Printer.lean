import GuardCode.Expr.Basic

/-! Expressions as guard text. Members print under their slot names, and parentheses stand exactly
where the precedence of the operators asks for them. -/
namespace GuardCode.Expr

/-- Whether an operand of an operator needs parentheses. Operators associate to the left, so on the
right an equal precedence needs them too. -/
def needsParens (parent : BinaryOp) (onRight : Bool) : Expr → Bool
  | binary op _ _ =>
    op.precedence < parent.precedence || (onRight && op.precedence == parent.precedence)
  | _ => false

def parenthesized (parens : Bool) (text : String) : String :=
  if parens then "(" ++ text ++ ")" else text

def calleeText : Callee → String
  | .capability c => "@" ++ c.name
  | .method m => m.name

mutual

def text : Expr → String
  | binary op left right =>
    parenthesized (left.needsParens op false) left.text ++ " " ++ op.symbol ++ " " ++
      parenthesized (right.needsParens op true) right.text
  | member m => m.text
  | literal l => l.text
  | carried c => c.text
  | call callee args _ => calleeText callee ++ "(" ++ String.intercalate ", " (texts args) ++ ")"

def texts : List Expr → List String
  | [] => []
  | e :: es => e.text :: texts es

end

end GuardCode.Expr
