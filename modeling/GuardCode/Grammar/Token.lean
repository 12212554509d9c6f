/-! The tokens of guard text. Each scanner gives what is left of the input after the token, or
nothing where the input does not start with one. A word, a number or a name never ends in the
middle of name characters. -/
namespace GuardCode.Token

def isNameStart (c : Char) : Bool := c.isAlpha || c == '_'
def isNameChar (c : Char) : Bool := c.isAlphanum || c == '_'

/-- The blanks that may stand between tokens. -/
def isSpace (c : Char) : Bool := c == ' ' || c == '\t' || c == '\r' || c == '\n'

/-- Takes fixed text away. -/
def word : List Char → List Char → Option (List Char)
  | [], cs => some cs
  | w :: ws, c :: cs => if w = c then word ws cs else none
  | _ :: _, [] => none

/-- Succeeds where no name character follows. -/
def boundary : List Char → Option (List Char)
  | [] => some []
  | c :: cs => if isNameChar c then none else some (c :: cs)

/-- Takes one of the given characters away if it is there. -/
def skipOne (options : List Char) : List Char → List Char
  | [] => []
  | c :: cs => if options.contains c then cs else c :: cs

/-- One digit or more. -/
def digits : List Char → Option (List Char)
  | [] => none
  | c :: cs => if c.isDigit then some (cs.dropWhile Char.isDigit) else none

def name : List Char → Option (List Char)
  | [] => none
  | c :: cs => if isNameStart c then some (cs.dropWhile isNameChar) else none

def null (cs : List Char) : Option (List Char) :=
  (word "null".toList cs).bind boundary

def boolean (cs : List Char) : Option (List Char) :=
  (word "true".toList cs <|> word "false".toList cs).bind boundary

/-- Digits after an optional minus, and an optional type suffix. -/
def integer (cs : List Char) : Option (List Char) := do
  let rest ← digits (skipOne ['-'] cs)
  boundary (skipOne ['L', 's', 'b'] rest)

/-- A power of ten. -/
def exponent : List Char → Option (List Char)
  | [] => none
  | c :: cs => if c = 'e' ∨ c = 'E' then digits (skipOne ['+', '-'] cs) else none

/-- A point with digits and an optional power of ten after it. -/
def fraction : List Char → Option (List Char)
  | '.' :: cs => (digits cs).map fun rest => (exponent rest).getD rest
  | _ => none

/-- Digits with a fraction or a power of ten, after an optional minus, and an optional `f`. -/
def float (cs : List Char) : Option (List Char) := do
  let whole ← digits (skipOne ['-'] cs)
  let rest ← fraction whole <|> exponent whole
  boundary (skipOne ['f'] rest)

/-- The characters that may follow a backslash. -/
def isEscapable (c : Char) : Bool :=
  c == '"' || c == '\\' || c == '\'' || c == 'n' || c == 't' || c == 'r' || c == '0'

/-- One character or escape between quotes of the given kind. -/
def quotedUnit (quote : Char) : List Char → Option (List Char)
  | [] => none
  | '\\' :: c :: cs => if isEscapable c then some cs else none
  | c :: cs => if c = quote ∨ c = '\\' then none else some cs

/-- As many characters and escapes as there are between quotes of the given kind. -/
def quotedUnits (quote : Char) : List Char → List Char
  | [] => []
  | '\\' :: c :: cs => if isEscapable c then quotedUnits quote cs else '\\' :: c :: cs
  | c :: cs => if c = quote ∨ c = '\\' then c :: cs else quotedUnits quote cs

def character : List Char → Option (List Char)
  | '\'' :: cs => (quotedUnit '\'' cs).bind (word ['\''])
  | _ => none

def string : List Char → Option (List Char)
  | '"' :: cs => word ['"'] (quotedUnits '"' cs)
  | _ => none

end GuardCode.Token
