/-!
# Blank characters

The characters a template treats as white space, and the cuts that remove them
from the two ends of a text.

Two classes occur. `isBlank` is the `White_Space` property of Unicode; it
separates the words of a tag and is what a strip marker removes. `isPad` is the
space and the tab alone; it is what a standalone tag removes from its own line.
-/

set_option autoImplicit false

namespace Stencil.Text

/-- The `White_Space` property of Unicode. -/
def isBlank (c : Char) : Bool :=
  let n := c.toNat
  (9 ≤ n && n ≤ 13) || n == 0x20 || n == 0x85 || n == 0xA0 || n == 0x1680 ||
    (0x2000 ≤ n && n ≤ 0x200A) || n == 0x2028 || n == 0x2029 || n == 0x202F ||
    n == 0x205F || n == 0x3000

/-- The two characters that may pad a line around a standalone tag. -/
def isPad (c : Char) : Bool := c == ' ' || c == '\t'

/-- The text without the longest run of `p` characters at its end. -/
def dropEndWhile (p : Char → Bool) (cs : List Char) : List Char :=
  (cs.reverse.dropWhile p).reverse

/-- The longest run of `p` characters at the end of the text. -/
def takeEndWhile (p : Char → Bool) (cs : List Char) : List Char :=
  (cs.reverse.takeWhile p).reverse

/-- The text without its leading blanks. -/
def trimStart (cs : List Char) : List Char := cs.dropWhile isBlank

/-- The text without its trailing blanks. -/
def trimEnd (cs : List Char) : List Char := dropEndWhile isBlank cs

/-- The leading blanks of a text. -/
def leadingBlanks (cs : List Char) : List Char := cs.takeWhile isBlank

/-- The trailing blanks of a text. -/
def trailingBlanks (cs : List Char) : List Char := takeEndWhile isBlank cs

/-- The two end cuts share a text between them: nothing is lost. -/
theorem dropEndWhile_append_takeEndWhile (p : Char → Bool) (cs : List Char) :
    dropEndWhile p cs ++ takeEndWhile p cs = cs := by
  unfold dropEndWhile takeEndWhile
  rw [← List.reverse_append, List.takeWhile_append_dropWhile, List.reverse_reverse]

/-- What the end cut takes consists of `p` characters. -/
theorem all_takeEndWhile (p : Char → Bool) (cs : List Char) :
    (takeEndWhile p cs).all p = true := by
  unfold takeEndWhile
  rw [List.all_reverse]
  exact List.all_takeWhile

/-- Padding is blank. -/
theorem isBlank_of_isPad {c : Char} (h : isPad c = true) : isBlank c = true := by
  simp only [isPad, Bool.or_eq_true, beq_iff_eq] at h
  rcases h with rfl | rfl <;> rfl

end Stencil.Text
