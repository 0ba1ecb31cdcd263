/-!
# Searching and measuring texts

Operations on lists of characters shared by the reader of templates and the
writer of output: where a pattern first occurs, how many bytes a text takes in
UTF-8, how a pair of characters is contracted to one, how a text falls into
lines.
-/

set_option autoImplicit false

namespace Stencil.Text

/-- The number of bytes of a text in UTF-8. -/
def size : List Char → Nat
  | [] => 0
  | c :: cs => c.utf8Size + size cs

@[simp] theorem size_nil : size [] = 0 := rfl

@[simp] theorem size_cons (c : Char) (cs : List Char) : size (c :: cs) = c.utf8Size + size cs := rfl

@[simp] theorem size_append (as bs : List Char) : size (as ++ bs) = size as + size bs := by
  induction as with
  | nil => simp
  | cons c cs ih => simp [ih, Nat.add_assoc]

/-- Whether `pat` stands at the start of the text. -/
def startsWith (pat : List Char) : List Char → Bool := pat.isPrefixOf

/-- Whether `pat` stands at the end of the text. -/
def endsWith (pat cs : List Char) : Bool := pat.reverse.isPrefixOf cs.reverse

/-- The text before the first occurrence of `pat`, and the text from it on. The
second part is empty when `pat` does not occur. -/
def breakOn (pat : List Char) : List Char → List Char × List Char
  | [] => ([], [])
  | c :: cs =>
    if startsWith pat (c :: cs) then ([], c :: cs)
    else
      let (before, rest) := breakOn pat cs
      (c :: before, rest)

/-- Breaking a text loses nothing of it. -/
theorem breakOn_append (pat : List Char) (cs : List Char) :
    (breakOn pat cs).1 ++ (breakOn pat cs).2 = cs := by
  induction cs with
  | nil => rfl
  | cons c cs ih =>
    unfold breakOn
    split
    · rfl
    · simp [ih]

/-- Every non-overlapping occurrence of `a` followed by `b`, read from the left,
becomes the single character `by_`. -/
def contract (a b by_ : Char) : List Char → List Char
  | c :: d :: cs =>
    if c = a ∧ d = b then by_ :: contract a b by_ cs else c :: contract a b by_ (d :: cs)
  | cs => cs

/-- Whether `a` followed by `b` occurs in the text. -/
def hasPair (a b : Char) : List Char → Bool
  | c :: d :: cs => (c == a && d == b) || hasPair a b (d :: cs)
  | _ => false

/-- The pieces of a text between occurrences of a separating character. There
is always at least one. -/
def splitOn (sep : Char) : List Char → List (List Char)
  | [] => [[]]
  | c :: cs =>
    if c = sep then [] :: splitOn sep cs
    else
      match splitOn sep cs with
      | [] => [[c]]
      | piece :: pieces => (c :: piece) :: pieces

/-- The lines of a text: pieces between line feeds, a carriage return at the
end of a piece dropped where a line feed follows it. An empty piece after the
last line feed is no line. -/
def lines (cs : List Char) : List (List Char) :=
  go (splitOn '\n' cs)
where
  /-- Cuts the carriage return from every piece that a line feed ends. -/
  go : List (List Char) → List (List Char)
    | [] => []
    | [last] => if last.isEmpty then [] else [last]
    | piece :: pieces =>
      (if piece.getLast? = some '\r' then piece.dropLast else piece) :: go pieces

end Stencil.Text
