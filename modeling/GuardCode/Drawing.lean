import GuardCode.Grammar.Span
import GuardCode.Text.Blank
import GuardCode.Text.Width

/-! Drawings of a text with one span of it labelled. A span inside a line is underlined, and an arm
leads from its middle to the message:

       ╭─[ <guard>:1:9 ]
       │
     1 │ arg0 == x
       │         ┬
       │         ╰── unknown name
    ───╯

A span over several lines has a bar along it in the margin; the lines between its first and its
last are left out. The bounds of the span are taken as counts of characters. -/
namespace GuardCode.Drawing

/-- The characters that end a line. -/
def endsLine (c : Char) : Bool :=
  let n := c.toNat
  (0x0A ≤ n && n ≤ 0x0D) || n == 0x85 || n == 0x2028 || n == 0x2029

/-- A text cut into lines, each with its end; a carriage return and the line feed behind it are one
end, and behind the last end there is no line. -/
def cut : List Char → List (List Char)
  | [] => []
  | '\r' :: '\n' :: cs => ['\r', '\n'] :: cut cs
  | c :: cs =>
    if endsLine c then [c] :: cut cs
    else
      match cut cs with
      | [] => [[c]]
      | first :: others => (c :: first) :: others

/-- A line of a text: its number and the position of its first character, both counted from zero,
and its characters. -/
structure Line where
  number : Nat
  start : Nat
  chars : List Char
  deriving DecidableEq

/-- The position behind a line. -/
def Line.stop (l : Line) : Nat := l.start + l.chars.length

def number : (next start : Nat) → List (List Char) → List Line
  | _, _, [] => []
  | next, start, chars :: others =>
    ⟨next, start, chars⟩ :: number (next + 1) (start + chars.length) others

/-- The lines of a text. An empty text has one line, which is empty. -/
def lines (text : List Char) : List Line :=
  if text.isEmpty then [⟨0, 0, []⟩] else number 0 0 (cut text)

/-- The line in which a position lies. The end of the text lies in its last line; beyond it there is
none. -/
def lineAt? (position : Nat) : List Line → Option Line
  | [] => none
  | [last] => if position ≤ last.stop then some last else none
  | first :: others => if position < first.stop then some first else lineAt? position others

/-- The first and the last line of a span. -/
def spanned? (span : Span) (ls : List Line) : Option (Line × Line) := do
  let first ← lineAt? span.start ls
  let last ← if span.stop ≤ span.start then some first else lineAt? (span.stop - 1) ls
  return (first, last)

/-- What is seen of a line: all but the blanks at its end. -/
def Line.visible (l : Line) : List Char := Text.trimEnd l.chars

/-- How wide a character is drawn: a tab reaches up to the next multiple of four. -/
def cellWidth (column : Nat) (c : Char) : Nat :=
  if c = '\t' then 4 - column % 4 else if Text.isBlank c then 1 else Text.columns c

/-- The width of a column of a line. -/
def Line.cellWidth (l : Line) (column : Nat) : Nat :=
  match l.visible[column]? with
  | some c => Drawing.cellWidth column c
  | none => 1

/-- A line as it is drawn, with every blank as spaces. -/
def Line.text (l : Line) : String :=
  String.ofList (l.visible.zipIdx.flatMap fun (c, column) =>
    if Text.isBlank c then List.replicate (Drawing.cellWidth column c) ' ' else [c])

/-- Marks under the first columns of a line. Each has a filling besides, for where the character
above it is wider. -/
def Line.marks (l : Line) (count : Nat) (mark : Nat → Char × Char) : String :=
  String.ofList ((List.range count).flatMap fun column =>
    let (first, filling) := mark column
    match l.cellWidth column with
    | 0 => []
    | more + 1 => first :: List.replicate more filling)

/-- The underline of columns `start` to `stop`, with the root of the arm at `root`. -/
def underline (l : Line) (start stop root : Nat) : String :=
  l.marks (stop + 2) fun column =>
    if column = root then (if start ≤ column ∧ column < stop then ('┬', '─') else ('│', ' '))
    else if start ≤ column ∧ column < stop then ('─', '─')
    else (' ', ' ')

/-- The arm that leads from the underline to the message. -/
def arm (l : Line) (stop root : Nat) : String :=
  l.marks (stop + 2) fun column =>
    if column < root then (' ', ' ') else if column = root then ('╰', '─') else ('─', '─')

/-- The left margin, as wide as the greatest line number asks for. -/
structure Margin where
  digits : Nat

namespace Margin

/-- The margin of drawings up to a line. -/
def upTo (last : Line) : Margin := ⟨(toString (last.number + 1)).length⟩

def repeated (m : Margin) (c : Char) : String := String.ofList (List.replicate (m.digits + 2) c)

def blank (m : Margin) : String := m.repeated ' ' ++ "│ "

def numbered (m : Margin) (l : Line) : String :=
  let digits := toString (l.number + 1)
  String.ofList (List.replicate (m.digits + 1 - digits.length) ' ') ++ digits ++ " │ "

end Margin

/-- The labelled span of one line. -/
def inline (m : Margin) (l : Line) (span : Span) (message : String) : List String :=
  let start := span.start - l.start
  let stop := span.stop - l.start
  let root := (start + stop) / 2
  [ m.numbered l ++ l.text,
    m.blank ++ underline l start stop root,
    m.blank ++ arm l stop root ++ " " ++ message ]

/-- The labelled span of several lines. -/
def multiline (m : Margin) (first last : Line) (message : String) : List String :=
  let count := last.chars.length + 2
  [m.numbered first ++ "╭─▶ " ++ first.text] ++
  (if first.number + 1 < last.number then [m.repeated ' ' ++ "┆ ┆   "] else []) ++
  [ m.numbered last ++ "├─▶ " ++ last.text,
    m.blank ++ "│   " ++ last.marks count fun _ => (' ', ' '),
    m.blank ++ "╰───" ++ last.marks count (fun _ => ('─', '─')) ++ " " ++ message ]

/-- What stands between the margin and the help. The bar of a span of several lines still shows
where the span begins right behind the first line of the text. -/
def helpIndent (ls : List Line) (first last : Line) (span : Span) : String :=
  if first.number = last.number then ""
  else if (ls.head?.map Line.stop) = some span.start then "│   "
  else "    "

/-- The lines of a drawing. A span that does not lie in the text is not drawn. -/
def ofSpan (name source : String) (span : Span) (message : String) (help? : Option String) :
    List String :=
  let ls := lines source.toList
  match spanned? span ls with
  | none => []
  | some (first, last) =>
    let m := Margin.upTo last
    let indent := helpIndent ls first last span
    [ m.repeated ' ' ++ "╭─[ " ++ name ++ ":" ++ toString (first.number + 1) ++ ":" ++
        toString (span.start - first.start + 1) ++ " ]",
      m.repeated ' ' ++ "│" ] ++
    (if first.number = last.number then inline m first span message
    else multiline m first last message) ++
    (match help? with
      | some help => [m.blank ++ indent, m.blank ++ indent ++ "Help: " ++ help]
      | none => []) ++
    [m.repeated '─' ++ "╯"]

end GuardCode.Drawing
