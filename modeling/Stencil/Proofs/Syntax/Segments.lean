import Stencil.Proofs.Syntax.Words
import Stencil.Syntax.Phrase

/-!
# Segments of paths

What the token of a segment names. A bracketed segment names the text between its brackets, in which
a backslash makes a closing bracket or a backslash after it a character like any other; this is one
pass from the left (`unescape`), though the reader makes two of them (`contract_contract`). Other
segments name themselves. Since brackets take room, a segment is shorter than its token exactly
where it is bracketed (`Segment.ofToken_eq`).
-/

set_option autoImplicit false

namespace Stencil.Syntax

open Stencil.Text

/-! ## Escapes between brackets -/

/-- A text between brackets without its escapes. -/
def unescape : List Char → List Char
  | c :: d :: cs =>
    if c = backslash ∧ (d = ']' ∨ d = backslash) then d :: unescape cs else c :: unescape (d :: cs)
  | cs => cs

theorem contract_cons_of_ne {a b by_ c : Char} (h : c ≠ a) (cs : List Char) :
    contract a b by_ (c :: cs) = c :: contract a b by_ cs := by
  cases cs with
  | nil => rfl
  | cons d cs => rw [contract, if_neg fun hpair => h hpair.1]

theorem contract_pair (a b by_ : Char) (cs : List Char) :
    contract a b by_ (a :: b :: cs) = by_ :: contract a b by_ cs := by
  rw [contract, if_pos ⟨rfl, rfl⟩]

theorem contract_cons_of_head {a b by_ d : Char} (h : d ≠ b) (cs : List Char) :
    contract a b by_ (a :: d :: cs) = a :: contract a b by_ (d :: cs) := by
  rw [contract, if_neg fun hpair => h hpair.2]

/-- Reading the escaped brackets first and the escaped backslashes then comes to the same as reading
both from the left: a bracket that is read does not make a backslash before it escape anything. -/
theorem contract_contract (cs : List Char) :
    contract backslash backslash backslash (contract backslash ']' ']' cs) = unescape cs := by
  have hbracket : ']' ≠ backslash := by decide
  fun_induction unescape cs with
  | case1 c d cs hpair ih =>
    obtain ⟨rfl, rfl | rfl⟩ := hpair
    · rw [contract_pair, contract_cons_of_ne hbracket, ih]
    · rw [contract_cons_of_head hbracket.symm]
      cases cs with
      | nil => rfl
      | cons e cs =>
        by_cases he : e = ']'
        · -- The second backslash goes with the bracket, and the first one is left for itself.
          subst he
          rw [contract_pair, contract_cons_of_head hbracket, contract_cons_of_ne hbracket, ← ih,
            contract_cons_of_ne hbracket, contract_cons_of_ne hbracket]
        · rw [contract_cons_of_head he, contract_pair, ih]
  | case2 c d cs hpair ih =>
    by_cases hc : c = backslash
    · -- A backslash before anything else escapes nothing in either reading.
      subst hc
      obtain ⟨hclose, hslash⟩ := not_or.1 fun h => hpair ⟨rfl, h⟩
      rw [contract_cons_of_head hclose, ← ih, contract_cons_of_ne hslash,
        contract_cons_of_head hslash]
    · rw [contract_cons_of_ne hc, contract_cons_of_ne hc, ih]
  | case3 cs hshort =>
    cases cs with
    | nil => rfl
    | cons c cs =>
      cases cs with
      | nil => rfl
      | cons d cs => exact absurd rfl (hshort c d cs)

theorem unescape_of_no_pair {cs : List Char} :
    (hasPair backslash ']' cs || hasPair backslash backslash cs) = false → unescape cs = cs := by
  fun_induction unescape cs with
  | case1 c d cs hpair ih =>
    intro h
    obtain ⟨rfl, rfl | rfl⟩ := hpair <;> simp [hasPair] at h
  | case2 c d cs hpair ih =>
    intro h
    simp only [hasPair, Bool.or_eq_false_iff] at h ih
    rw [ih ⟨h.1.2, h.2.2⟩]
  | case3 => exact fun _ => rfl

theorem size_unescape_le (cs : List Char) : size (unescape cs) ≤ size cs := by
  fun_induction unescape cs with
  | case1 c d cs hpair ih =>
    simp only [size_cons]
    omega
  | case2 c d cs hpair ih =>
    simp only [size_cons] at ih ⊢
    omega
  | case3 => exact Nat.le_refl _

/-! ## The segment of a token -/

namespace Token

/-- Whether the segment is written between brackets. -/
def isBracketed (t : Token) : Bool := t.text.head? == some '['

/-- What the segment names. -/
def segment (t : Token) : List Char :=
  if t.isBracketed then unescape t.text.tail.dropLast else t.text

/-- Whether the segment is one of the words that stand for a context. These are not bracketed. -/
def isScope (t : Token) : Bool := isScopeWord t.text

/-- Whether the segment climbs to the context outside. -/
def climbs (t : Token) : Bool := t.text == ['.', '.']

theorem isScope_of_climbs {t : Token} (h : t.climbs = true) : t.isScope = true := by
  rw [isScope, isScopeWord, show t.text == ['.', '.'] from h]
  rfl

theorem not_isBracketed_of_isScope {t : Token} (h : t.isScope = true) : t.isBracketed = false := by
  simp only [isScope, isScopeWord, Bool.or_eq_true, beq_iff_eq] at h
  rcases h with (h | h) | h <;> rw [isBracketed, h] <;> rfl

end Token

theorem segmentName_bracketed (inner : List Char) :
    segmentName ('[' :: inner ++ [']']) = unescape inner := by
  show (if (inner ++ [']']).getLast? = some ']' then
      let inside := (inner ++ [']']).dropLast
      if hasPair backslash ']' inside || hasPair backslash backslash inside then
        contract backslash backslash backslash (contract backslash ']' ']' inside)
      else inside
    else _) = _
  rw [if_pos (List.getLast?_concat ..), List.dropLast_concat]
  dsimp only
  split
  · exact contract_contract inner
  · rename_i hpair
    exact (unescape_of_no_pair (Bool.eq_false_iff.2 hpair)).symm

/-- The name that the reader finds for a segment, and whether it takes it for bracketed. -/
theorem Segment.ofToken_eq {t : Token} (h : t.Formed) (hname : t.kind = .name)
    (separator : Option Char) :
    Segment.ofToken separator t = ⟨separator, t.segment, t.isBracketed⟩ := by
  unfold Segment.ofToken Token.segment
  cases hbracket : t.isBracketed with
  | true =>
    obtain ⟨inner, htext⟩ := h.bracket hname (eq_of_beq hbracket)
    have hname : segmentName t.text = unescape inner := htext ▸ segmentName_bracketed inner
    have hinner : t.text.tail.dropLast = inner := by
      rw [htext]
      exact List.dropLast_concat
    -- The reader tells brackets by the length, and what is unescaped does not get longer.
    have hsize : size (unescape inner) ≠ size t.text := by
      have hle := size_unescape_le inner
      have hpos := Char.utf8Size_pos '['
      rw [htext, List.cons_append, size_cons, size_append]
      omega
    rw [if_pos rfl, hname, hinner]
    dsimp only
    rw [bne_iff_ne.2 hsize]
  | false =>
    have hname : segmentName t.text = t.text := by
      cases htext : t.text with
      | nil => rfl
      | cons c cs =>
        unfold segmentName
        split
        · rename_i heq
          cases heq
          rw [Token.isBracketed, htext] at hbracket
          cases hbracket
        · rfl
    rw [if_neg Bool.false_ne_true, hname]
    dsimp only
    rw [bne_self_eq_false]

end Stencil.Syntax
