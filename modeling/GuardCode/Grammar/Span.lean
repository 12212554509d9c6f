/-! Byte ranges of a source text. Positions count the bytes of the UTF-8 form. -/
namespace GuardCode

/-- The bytes that characters take up. -/
def byteLength : List Char → Nat
  | [] => 0
  | c :: cs => c.utf8Size + byteLength cs

def dropBytes : Nat → List Char → List Char
  | _, [] => []
  | n, c :: cs => if n = 0 then c :: cs else dropBytes (n - c.utf8Size) cs

def takeBytes : Nat → List Char → List Char
  | _, [] => []
  | n, c :: cs => if n = 0 then [] else c :: takeBytes (n - c.utf8Size) cs

structure Span where
  start : Nat
  stop : Nat
  deriving DecidableEq

namespace Span

/-- From the start of one span to the end of another. -/
def combine (a b : Span) : Span := ⟨a.start, b.stop⟩

/-- The characters of a source inside a span. -/
def slice (span : Span) (source : List Char) : String :=
  String.ofList (takeBytes (span.stop - span.start) (dropBytes span.start source))

end Span

end GuardCode
