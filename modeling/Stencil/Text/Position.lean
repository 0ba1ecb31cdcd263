import Stencil.Text.Scan

/-!
# Positions in a text

Offsets count bytes of UTF-8 from the start of a text, spans are pairs of
offsets, and a position is a line and a column: lines count from one, columns
count characters from zero.

`LineIndex` holds the offsets at which the lines of a text start and finds the
line of an offset by binary search.

Offsets, lines and columns are natural numbers without a bound. Templates are taken
to be shorter than 2^32 bytes, so each of them fits into the 32 bits that a location
has for it.
-/

set_option autoImplicit false

namespace Stencil.Text

/-- The bytes from `start` up to `stop`. -/
structure Span where
  start : Nat
  stop : Nat
deriving DecidableEq

/-- A line, counted from one, and a column, counted in characters from zero. -/
structure Position where
  line : Nat
  column : Nat
deriving DecidableEq

/-- The region of a named or nameless text. -/
structure Location where
  source : Option String
  start : Position
  stop : Position
deriving DecidableEq

/-- A location as it stands in a message: the place where it starts. -/
def Location.text (l : Location) : String :=
  match l.source with
  | some name => name ++ ":" ++ toString l.start.line ++ ":" ++ toString l.start.column
  | none => "line " ++ toString l.start.line ++ ", column " ++ toString l.start.column

/-- The same region of a text of another name. -/
def Location.rename (l : Location) (name : String) : Location := { l with source := some name }

/-- A text with the offsets at which its lines start. -/
structure LineIndex where
  chars : List Char
  starts : Array Nat

/-- The offsets after each line feed, for a text that starts at `offset`. -/
def offsetsAfterLineFeeds (offset : Nat) : List Char → List Nat
  | [] => []
  | c :: cs =>
    let next := offset + c.utf8Size
    if c = '\n' then next :: offsetsAfterLineFeeds next cs else offsetsAfterLineFeeds next cs

/-- The index of a text. -/
def LineIndex.ofChars (cs : List Char) : LineIndex :=
  ⟨cs, (0 :: offsetsAfterLineFeeds 0 cs).toArray⟩

/-- The last index from `lo` up to but not including `hi` whose entry is at most
`offset`, by halving. -/
def lastAtMost (starts : Array Nat) (offset : Nat) : Nat → Nat → Nat → Nat
  | 0, lo, _ => lo
  | fuel + 1, lo, hi =>
    if lo + 1 < hi then
      let mid := (lo + hi) / 2
      if starts.getD mid 0 ≤ offset then lastAtMost starts offset fuel mid hi
      else lastAtMost starts offset fuel lo mid
    else lo

/-- The text from a byte offset on; nothing when the offset is past the end or
inside a character. -/
def dropBytes? : Nat → List Char → Option (List Char)
  | 0, cs => some cs
  | _ + 1, [] => none
  | n + 1, c :: cs => if c.utf8Size ≤ n + 1 then dropBytes? (n + 1 - c.utf8Size) cs else none

/-- The number of characters in the first `bytes` bytes; nothing when these end
past the text or inside a character. -/
def countBytes? : Nat → List Char → Option Nat
  | 0, _ => some 0
  | _ + 1, [] => none
  | n + 1, c :: cs =>
    if c.utf8Size ≤ n + 1 then (countBytes? (n + 1 - c.utf8Size) cs).map (· + 1) else none

/-- The text of a span, when both its ends lie between characters. -/
def slice? (cs : List Char) (s : Span) : Option (List Char) :=
  if s.stop < s.start then none
  else
    match dropBytes? s.start cs with
    | none => none
    | some rest => (countBytes? (s.stop - s.start) rest).map fun n => rest.take n

/-- The position of an offset. Past the end it is that of the end; inside a
character the column is zero. -/
def LineIndex.position (index : LineIndex) (offset : Nat) : Position :=
  let offset := min offset (size index.chars)
  let line := lastAtMost index.starts offset index.starts.size 0 index.starts.size
  let start := index.starts.getD line 0
  let column :=
    match dropBytes? start index.chars with
    | none => 0
    | some rest => (countBytes? (offset - start) rest).getD 0
  ⟨line + 1, column⟩

/-- The location of a span in a text of the given name. -/
def LineIndex.locate (index : LineIndex) (source : Option String) (s : Span) : Location :=
  ⟨source, index.position s.start, index.position s.stop⟩

end Stencil.Text
