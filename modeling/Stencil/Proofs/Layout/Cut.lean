import Stencil.Tree.Layout
import Mathlib.Data.List.DropRight

/-!
# Cuts at the two ends of a text

The layout cuts a text at its start and at its end, some of the cuts more than once and in an
order that depends on the tree. This module shows that the order does not matter: a cut at the
start and a cut at the end commute (`start_stop`), a smaller cut is absorbed by a larger one, and
the refusal of a second cut refuses nothing that the first has left over. What a content has
undergone is then a pair of cuts (`Content.IsCut`), and each cut of the layout joins one to one of
the two (`Content.IsCut.cutStart`, `Content.IsCut.cutEnd`).
-/

set_option autoImplicit false

namespace Stencil.Tree

open Stencil.Text

/-- How much is cut off one end of a text: nothing, the blanks of a tag's line, or all blanks. -/
inductive Cut where
  | nothing
  | line
  | all
deriving DecidableEq

namespace Cut

/-- The cut on one side of a tag: all blanks if the tag is marked there, else the blanks of its
line if it stands alone. -/
def of (marked alone : Bool) : Cut := if marked then all else if alone then line else nothing

/-- The cut that the layout makes on demand. -/
def ofDemand (demanded : Bool) : Cut := if demanded then all else line

/-- The larger of two cuts. -/
def join : Cut → Cut → Cut
  | all, _ | _, all => all
  | line, _ | _, line => line
  | nothing, nothing => nothing

/-- A text without what the cut takes off its start. -/
def start : Cut → List Char → List Char
  | nothing, cs => cs
  | line, cs => dropLineBreak cs
  | all, cs => trimStart cs

/-- A text without what the cut takes off its end. -/
def stop : Cut → List Char → List Char
  | nothing, cs => cs
  | line, cs => dropEndWhile isPad cs
  | all, cs => trimEnd cs

@[simp] theorem join_nothing (c : Cut) : c.join nothing = c := by cases c <;> rfl

@[simp] theorem nothing_join (c : Cut) : nothing.join c = c := by cases c <;> rfl

@[simp] theorem join_all (c : Cut) : c.join all = all := by cases c <;> rfl

@[simp] theorem start_nil (c : Cut) : c.start [] = [] := by cases c <;> rfl

@[simp] theorem stop_nil (c : Cut) : c.stop [] = [] := by cases c <;> rfl

/-- A cut of the line takes nothing that another cut has left. -/
theorem join_line_of_ne {c : Cut} (h : c ≠ nothing) : c.join line = c := by
  cases c with
  | nothing => exact absurd rfl h
  | line => rfl
  | all => rfl

@[simp] theorem of_false_false : of false false = nothing := rfl

@[simp] theorem of_true (alone : Bool) : of true alone = all := rfl

end Cut

/-! ## Cuts at opposite ends -/

/-- The text without its first character, if that is `x`. -/
def dropLeading (x : Char) : List Char → List Char
  | [] => []
  | c :: cs => if c = x then cs else c :: cs

/-- Padding is dropped first, then a carriage return and a line feed, as far as they are there. -/
theorem dropLineBreak_eq (cs : List Char) :
    dropLineBreak cs = dropLeading '\n' (dropLeading '\r' (cs.dropWhile isPad)) := by
  unfold dropLineBreak
  -- both sides look at the characters after the padding only
  cases cs.dropWhile isPad with
  | nil => rfl
  | cons c rest =>
    by_cases hc : c = '\r'
    · subst hc
      cases rest with
      | nil => rfl
      | cons d rest => simp only [dropLeading]; grind
    · simp only [dropLeading]; grind

/-- The first character is dropped from the end only if all are. -/
theorem dropEndWhile_cons (p : Char → Bool) (c : Char) (cs : List Char) :
    dropEndWhile p (c :: cs) = if p c ∧ cs.all p then [] else c :: dropEndWhile p cs := by
  induction cs using List.reverseRecOn with
  | nil => by_cases hc : p c <;> simp [dropEndWhile, hc]
  | append_singleton cs d ih =>
    by_cases hd : p d
    · have h : ∀ ds, dropEndWhile p (ds ++ [d]) = dropEndWhile p ds := fun ds => by
        simp [dropEndWhile, hd]
      rw [← List.cons_append, h, h, ih]
      simp [hd]
    · have h : ∀ ds, dropEndWhile p (ds ++ [d]) = ds ++ [d] := fun ds => by
        simp [dropEndWhile, hd]
      rw [← List.cons_append, h, h]
      simp [hd]

theorem dropEndWhile_eq_nil {p : Char → Bool} {cs : List Char} (h : cs.all p) :
    dropEndWhile p cs = [] :=
  List.rdropWhile_eq_nil_iff.2 fun _ hx => List.all_eq_true.1 h _ hx

/-- A run taken off the start and one taken off the end can be taken in either order. -/
theorem dropWhile_dropEndWhile (p q : Char → Bool) (cs : List Char) :
    (dropEndWhile p cs).dropWhile q = dropEndWhile p (cs.dropWhile q) := by
  induction cs with
  | nil => rfl
  | cons c cs ih =>
    rw [dropEndWhile_cons]
    -- either the whole text is of the kind that goes at its end, or its first character stays
    by_cases hall : p c ∧ cs.all p
    · have htail : (cs.dropWhile q).all p :=
        List.all_eq_true.2 fun x hx =>
          List.all_eq_true.1 hall.2 x ((List.dropWhile_sublist q).subset hx)
      rw [if_pos hall]
      by_cases hq : q c
      · rw [List.dropWhile_cons_of_pos hq, dropEndWhile_eq_nil htail]
        rfl
      · rw [List.dropWhile_cons_of_neg hq, dropEndWhile_eq_nil]
        · rfl
        · simpa using hall
    · rw [if_neg hall]
      by_cases hq : q c
      · rw [List.dropWhile_cons_of_pos hq, List.dropWhile_cons_of_pos hq, ih]
      · rw [List.dropWhile_cons_of_neg hq, List.dropWhile_cons_of_neg hq, dropEndWhile_cons,
          if_neg hall]

/-- Drops from opposite ends do not disturb each other, also where a text is used up by one of
them. -/
theorem dropLeading_dropEndWhile (p : Char → Bool) (x : Char) (cs : List Char) :
    dropLeading x (dropEndWhile p cs) = dropEndWhile p (dropLeading x cs) := by
  cases cs with
  | nil => rfl
  | cons c cs =>
    rw [dropEndWhile_cons]
    by_cases hc : c = x
    · subst hc
      by_cases hall : p c ∧ cs.all p
      · rw [if_pos hall]
        simp [dropLeading, dropEndWhile_eq_nil hall.2]
      · rw [if_neg hall]
        simp [dropLeading]
    · have hkept : dropLeading x (c :: cs) = c :: cs := if_neg hc
      rw [hkept, dropEndWhile_cons]
      split
      · rfl
      · exact if_neg hc

/-- So it is with the three drops that make up a line break. -/
theorem dropLineBreak_dropEndWhile (p : Char → Bool) (cs : List Char) :
    dropLineBreak (dropEndWhile p cs) = dropEndWhile p (dropLineBreak cs) := by
  rw [dropLineBreak_eq, dropLineBreak_eq, dropWhile_dropEndWhile, dropLeading_dropEndWhile,
    dropLeading_dropEndWhile]

/-- A cut at the start and a cut at the end can be made in either order. -/
theorem Cut.start_stop (c d : Cut) (cs : List Char) :
    c.start (d.stop cs) = d.stop (c.start cs) := by
  cases c with
  | nothing => rfl
  | line =>
    cases d with
    | nothing => rfl
    | line => exact dropLineBreak_dropEndWhile isPad cs
    | all => exact dropLineBreak_dropEndWhile isBlank cs
  | all =>
    cases d with
    | nothing => rfl
    | line => exact dropWhile_dropEndWhile isPad isBlank cs
    | all => exact dropWhile_dropEndWhile isBlank isBlank cs

/-! ## Cuts at the same end -/

theorem dropLeading_of_all_blank {x : Char} (hx : isBlank x) (cs : List Char) :
    trimStart (dropLeading x cs) = trimStart cs := by
  cases cs with
  | nil => rfl
  | cons c cs =>
    by_cases hc : c = x
    · subst hc
      simp [dropLeading, trimStart, hx]
    · rw [dropLeading, if_neg hc]

/-- All blanks are dropped after some of them as well as at once. -/
theorem trimStart_dropPad (cs : List Char) :
    trimStart (cs.dropWhile isPad) = trimStart cs := by
  induction cs with
  | nil => rfl
  | cons c cs ih =>
    by_cases hc : isPad c
    · rw [List.dropWhile_cons_of_pos hc, ih, trimStart, trimStart,
        List.dropWhile_cons_of_pos (isBlank_of_isPad hc)]
    · rw [List.dropWhile_cons_of_neg hc]

/-- A line break is made of blanks. -/
theorem trimStart_dropLineBreak (cs : List Char) : trimStart (dropLineBreak cs) = trimStart cs := by
  rw [dropLineBreak_eq, dropLeading_of_all_blank rfl, dropLeading_of_all_blank rfl,
    trimStart_dropPad]

/-- What begins with no blank has no line break to lose. -/
theorem dropLineBreak_of_head {cs : List Char} (h : ∀ c ∈ cs.head?, isBlank c = false) :
    dropLineBreak cs = cs := by
  cases cs with
  | nil => rfl
  | cons c cs =>
    have hc : isBlank c = false := h c rfl
    have hpad : isPad c ≠ true := fun hp => by
      rw [isBlank_of_isPad hp] at hc
      exact Bool.noConfusion hc
    have hne : ∀ x, isBlank x = true → c ≠ x := fun x hx hcx => by
      rw [hcx, hx] at hc
      exact Bool.noConfusion hc
    rw [dropLineBreak_eq, List.dropWhile_cons_of_neg hpad, dropLeading, if_neg (hne '\r' rfl),
      dropLeading, if_neg (hne '\n' rfl)]

/-- Where no blank is left at the start, no line break is either. -/
theorem dropLineBreak_trimStart (cs : List Char) :
    dropLineBreak (trimStart cs) = trimStart cs := by
  refine dropLineBreak_of_head fun c hc => ?_
  have := List.head?_dropWhile_not isBlank cs
  rw [trimStart] at hc
  rw [Option.mem_def.1 hc] at this
  simpa using this

/-- The same at the end. -/
theorem trimEnd_dropEndPad (cs : List Char) : trimEnd (dropEndWhile isPad cs) = trimEnd cs := by
  have h := trimStart_dropPad cs.reverse
  simp only [trimStart] at h
  simp only [trimEnd, dropEndWhile, List.reverse_reverse, h]

theorem dropEndPad_trimEnd (cs : List Char) : dropEndWhile isPad (trimEnd cs) = trimEnd cs := by
  refine List.rdropWhile_eq_self_iff.2 fun hne hpad => ?_
  exact List.rdropWhile_last_not isBlank cs hne (isBlank_of_isPad hpad)

namespace Cut

/-- A cut at the start leaves the end of the text. -/
theorem start_suffix (c : Cut) (cs : List Char) : c.start cs <:+ cs := by
  cases c with
  | nothing => exact List.suffix_rfl
  | line =>
    have dropLeading_suffix : ∀ x ds, dropLeading x ds <:+ ds := by
      intro x ds
      cases ds with
      | nil => exact List.suffix_rfl
      | cons d ds =>
        rw [dropLeading]
        split
        · exact List.suffix_cons d ds
        · exact List.suffix_rfl
    rw [start, dropLineBreak_eq]
    exact ((dropLeading_suffix _ _).trans (dropLeading_suffix _ _)).trans
      (List.dropWhile_suffix isPad)
  | all => exact List.dropWhile_suffix isBlank

/-- After any cut at the start, a cut of all blanks leaves what it would have left before. -/
theorem start_all_start (c : Cut) (cs : List Char) : all.start (c.start cs) = all.start cs := by
  cases c with
  | nothing => rfl
  | line => exact trimStart_dropLineBreak cs
  | all => exact List.dropWhile_idempotent isBlank cs

/-- After a cut of all blanks there is no line break to take. -/
theorem start_line_start_all (cs : List Char) : line.start (all.start cs) = all.start cs :=
  dropLineBreak_trimStart cs

/-- Two cuts at the end are the larger one. -/
theorem stop_stop (c d : Cut) (cs : List Char) : d.stop (c.stop cs) = (c.join d).stop cs := by
  cases c with
  | nothing => rw [nothing_join]; rfl
  | line =>
    cases d with
    | nothing => rfl
    | line => exact List.rdropWhile_idempotent isPad cs
    | all => exact trimEnd_dropEndPad cs
  | all =>
    cases d with
    | nothing => rfl
    | line => exact dropEndPad_trimEnd cs
    | all => exact List.rdropWhile_idempotent isBlank cs

end Cut

/-! ## Contents -/

section Contents

variable {ℓ : Type}

/-- Content as it is read: it renders as it was written, and nothing was cut off it. -/
def Content.IsFresh (c : Content ℓ) : Prop :=
  c.value = c.written ∧ c.leftStripped = false ∧ c.rightStripped = false

/-- The content renders as its text without what two cuts take off the start and the end. The
marks that refuse a second cut stand only where a cut was made, and a cut of one line at the start
has either left its mark or has nothing more to take. -/
structure Content.IsCut (c : Content ℓ) (lead trail : Cut) (text : List Char) : Prop where
  value : c.value.toList = trail.stop (lead.start text)
  written : c.written.toList = text
  right : c.rightStripped = true → lead ≠ .nothing
  left : c.leftStripped = true → trail ≠ .nothing
  settled : lead = .line →
    c.rightStripped = true ∨ Cut.line.start c.value.toList = c.value.toList

/-- A fresh content has been cut nowhere. -/
theorem Content.IsFresh.isCut {c : Content ℓ} (h : c.IsFresh) :
    c.IsCut .nothing .nothing c.written.toList where
  value := by rw [h.1]; rfl
  written := rfl
  right hr := by rw [h.2.2] at hr; exact Bool.noConfusion hr
  left hl := by rw [h.2.1] at hl; exact Bool.noConfusion hl
  settled hc := Cut.noConfusion hc

/-- Unless the cut is not demanded and another was made before, the content loses what the cut
takes, and notes whether that is something. -/
theorem Content.cutStart_eq {c : Content ℓ} {demanded : Bool}
    (h : c.rightStripped = true → demanded = true) :
    c.cutStart demanded =
      { c with
        value := String.ofList ((Cut.ofDemand demanded).start c.value.toList)
        rightStripped :=
          ((Cut.ofDemand demanded).start c.value.toList).length != c.value.toList.length } := by
  cases demanded with
  | true => rfl
  | false =>
    have hr : c.rightStripped = false := by simpa using h
    simp only [Content.cutStart, hr, Bool.not_false, Bool.and_false, Bool.false_eq_true, if_false]
    rfl

/-- The same at the end. -/
theorem Content.cutEnd_eq {c : Content ℓ} {demanded : Bool}
    (h : c.leftStripped = true → demanded = true) :
    c.cutEnd demanded =
      { c with
        value := String.ofList ((Cut.ofDemand demanded).stop c.value.toList)
        leftStripped :=
          ((Cut.ofDemand demanded).stop c.value.toList).length != c.value.toList.length } := by
  cases demanded with
  | true => rfl
  | false =>
    have hl : c.leftStripped = false := by simpa using h
    simp only [Content.cutEnd, hl, Bool.not_false, Bool.and_false, Bool.false_eq_true, if_false]
    rfl

/-- A cut at the start of what two cuts have left of a text is one cut more at its start. -/
theorem Content.IsCut.start_value {c : Content ℓ} {lead trail : Cut} {text : List Char}
    (h : c.IsCut lead trail text) {demanded : Bool}
    (hr : c.rightStripped = true → demanded = true) :
    (Cut.ofDemand demanded).start c.value.toList =
      trail.stop ((lead.join (Cut.ofDemand demanded)).start text) := by
  cases demanded with
  | true =>
    rw [h.value, Cut.start_stop]
    exact congrArg trail.stop ((Cut.start_all_start lead text).trans (by rw [Cut.ofDemand]; simp))
  | false =>
    have hright : c.rightStripped ≠ true := fun hc => Bool.noConfusion (hr hc)
    cases lead with
    | nothing => rw [h.value, Cut.start_stop]; rfl
    | line => exact ((h.settled rfl).resolve_left hright).trans h.value
    | all =>
      rw [h.value, Cut.start_stop]
      exact congrArg trail.stop (Cut.start_line_start_all text)

/-- A refused cut is one that the content has undergone already. -/
theorem Content.IsCut.cutStart {c : Content ℓ} {lead trail : Cut} {text : List Char}
    (h : c.IsCut lead trail text) (demanded : Bool) :
    (c.cutStart demanded).IsCut (lead.join (Cut.ofDemand demanded)) trail text := by
  by_cases hr : c.rightStripped = true → demanded = true
  · rw [Content.cutStart_eq hr]
    have hvalue := h.start_value hr
    refine ⟨by rw [String.toList_ofList, hvalue], h.written, fun _ => ?_, h.left, fun hline => ?_⟩
    · cases lead <;> cases demanded <;> decide
    · -- a line cut that removes nothing leaves no line break behind
      simp only [String.toList_ofList, bne_iff_ne]
      by_cases hlen : ((Cut.ofDemand demanded).start c.value.toList).length = c.value.toList.length
      · have hsame : (Cut.ofDemand demanded).start c.value.toList = c.value.toList :=
          ((Cut.ofDemand demanded).start_suffix _).eq_of_length hlen
        have hdemand : Cut.ofDemand demanded = .line := by
          cases demanded with
          | true => rw [Cut.ofDemand] at hline; simp at hline
          | false => rfl
        rw [hdemand] at hsame ⊢
        exact Or.inr (by rw [hsame, hsame])
      · exact Or.inl hlen
  · -- the mark says that a cut was made, and the one refused here is no larger
    have hstripped : c.rightStripped = true ∧ demanded = false := by simpa using hr
    obtain ⟨hstripped, rfl⟩ := hstripped
    have hsame : c.cutStart false = c := by
      simp only [Content.cutStart, hstripped, Bool.not_false, Bool.and_self, if_true]
    have hjoin : lead.join (Cut.ofDemand false) = lead := Cut.join_line_of_ne (h.right hstripped)
    rw [hsame, hjoin]
    exact h

/-- One cut more at the end joins those before, and those at the start are as they were. -/
theorem Content.IsCut.cutEnd {c : Content ℓ} {lead trail : Cut} {text : List Char}
    (h : c.IsCut lead trail text) (demanded : Bool) :
    (c.cutEnd demanded).IsCut lead (trail.join (Cut.ofDemand demanded)) text := by
  by_cases hl : c.leftStripped = true → demanded = true
  · rw [Content.cutEnd_eq hl]
    have hvalue : (Cut.ofDemand demanded).stop c.value.toList =
        (trail.join (Cut.ofDemand demanded)).stop (lead.start text) := by
      rw [h.value, Cut.stop_stop]
    refine ⟨by rw [String.toList_ofList, hvalue], h.written, h.right, fun _ => ?_, fun hline => ?_⟩
    · cases trail <;> cases demanded <;> decide
    · refine (h.settled hline).imp_right fun hsame => ?_
      rw [String.toList_ofList, Cut.start_stop, hsame]
  · have hstripped : c.leftStripped = true ∧ demanded = false := by simpa using hl
    obtain ⟨hstripped, rfl⟩ := hstripped
    have hsame : c.cutEnd false = c := by
      simp only [Content.cutEnd, hstripped, Bool.not_false, Bool.and_self, if_true]
    have hjoin : trail.join (Cut.ofDemand false) = trail := Cut.join_line_of_ne (h.left hstripped)
    rw [hsame, hjoin]
    exact h

end Contents

end Stencil.Tree
