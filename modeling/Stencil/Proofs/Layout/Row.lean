import Stencil.Proofs.Layout.Cut

/-!
# Rows of texts and tags

To its white space a template is a row: texts, and tags between them. A tag is known by what it
cuts off the text before it and the text after it, a text by the cuts at its two ends, which are
those of the tags next to it. `Row.texts` reads off what the texts of a row come to.

A tag separates: what stands before it and what stands after it can be read off apart
(`Row.texts_append_tag`), so a change to what one tag cuts shows in the texts next to it and
nowhere else.

`Row.Fits` says of contents in a row that each has undergone the cuts of the tags next to it. The
cuts of the layout at the two ends of a list of statements join those at the ends of the row
(`Row.Fits.cutHead`, `Row.Fits.cutBack`).
-/

set_option autoImplicit false

namespace Stencil.Tree

/-- A text, or a tag with what it cuts off the end of the text before it and off the start of the
text after it. -/
inductive Item where
  | text (written : List Char)
  | tag (before after : Cut)
deriving DecidableEq

/-- Texts and tags in the order of a tree. -/
abbrev Row := List Item

namespace Row

/-- The cut at the end of a text that stands before the row. After the row comes `trail`. -/
def firstCut (trail : Cut) : Row → Cut
  | [] => trail
  | .text _ :: _ => .nothing
  | .tag before _ :: _ => before

/-- The cut at the start of a text that stands after the row. Before the row comes `lead`. -/
def lastCut (lead : Cut) : Row → Cut
  | [] => lead
  | .text _ :: rest => lastCut .nothing rest
  | .tag _ after :: rest => lastCut after rest

/-- What the texts of a row come to between two cuts at its ends. -/
def texts (lead : Cut) : Row → Cut → List String
  | [], _ => []
  | .text written :: rest, trail =>
    String.ofList ((firstCut trail rest).stop (lead.start written)) :: texts .nothing rest trail
  | .tag _ after :: rest, trail => texts after rest trail

/-- The texts of a row as they were written. -/
def writtens : Row → List String
  | [] => []
  | .text written :: rest => String.ofList written :: writtens rest
  | .tag _ _ :: rest => writtens rest

theorem firstCut_append (trail : Cut) (xs ys : Row) :
    firstCut trail (xs ++ ys) = firstCut (firstCut trail ys) xs := by
  cases xs with
  | nil => rfl
  | cons x xs => cases x <;> rfl

theorem lastCut_append (lead : Cut) (xs ys : Row) :
    lastCut lead (xs ++ ys) = lastCut (lastCut lead xs) ys := by
  induction xs generalizing lead with
  | nil => rfl
  | cons x xs ih => cases x <;> exact ih _

theorem texts_append (lead trail : Cut) (xs ys : Row) :
    texts lead (xs ++ ys) trail =
      texts lead xs (firstCut trail ys) ++ texts (lastCut lead xs) ys trail := by
  induction xs generalizing lead with
  | nil => rfl
  | cons x xs ih =>
    cases x with
    | text written =>
      rw [List.cons_append, texts, texts, firstCut_append, ih, lastCut, List.cons_append]
    | tag before after => exact ih after

/-- A tag separates the texts before it from those after it. -/
theorem texts_append_tag (lead trail before after : Cut) (xs ys : Row) :
    texts lead (xs ++ .tag before after :: ys) trail =
      texts lead xs before ++ texts after ys trail :=
  texts_append lead trail xs (.tag before after :: ys)

theorem writtens_append (xs ys : Row) : writtens (xs ++ ys) = writtens xs ++ writtens ys := by
  induction xs with
  | nil => rfl
  | cons x xs ih =>
    cases x with
    | text written => exact congrArg (String.ofList written :: ·) ih
    | tag before after => exact ih

/-- A row has as many texts as were written, whatever is cut off them. -/
theorem length_texts (lead trail : Cut) (row : Row) :
    (texts lead row trail).length = row.writtens.length := by
  induction row generalizing lead with
  | nil => rfl
  | cons x row ih =>
    cases x with
    | text written => exact congrArg (· + 1) (ih _)
    | tag before after => exact ih _

/-! ## The two ends of a row -/

/-- The text at the start of a row, as the cut at its end leaves it. -/
def beginning (trail : Cut) : Row → List Char
  | [] => []
  | .text written :: rest => (firstCut trail rest).stop written
  | .tag _ _ :: _ => []

/-- The text at the end of a row, as the cut at its start leaves it. -/
def ending (lead : Cut) : Row → List Char
  | [] => []
  | .text written :: rest => if rest = [] then lead.start written else ending .nothing rest
  | .tag _ after :: rest => ending after rest

theorem ofList_cons_inj {xs ys : List Char} {rest : List String} :
    String.ofList xs :: rest = String.ofList ys :: rest ↔ xs = ys := by
  rw [List.cons_eq_cons, String.ofList_inj, and_iff_left rfl]

/-- Two cuts at the start of a row differ in what they make of the text there. -/
theorem texts_eq_iff_beginning (c d trail : Cut) (row : Row) :
    texts c row trail = texts d row trail ↔
      c.start (beginning trail row) = d.start (beginning trail row) := by
  cases row with
  | nil => exact iff_of_true rfl (by rw [beginning, Cut.start_nil, Cut.start_nil])
  | cons x row =>
    cases x with
    | text written =>
      rw [texts, texts, ofList_cons_inj, ← Cut.start_stop, ← Cut.start_stop, beginning]
    | tag before after => exact iff_of_true rfl (by rw [beginning, Cut.start_nil, Cut.start_nil])

/-- Two cuts at the end of a row differ in what they make of the text there. -/
theorem texts_eq_iff_ending (lead c d : Cut) (row : Row) :
    texts lead row c = texts lead row d ↔
      c.stop (ending lead row) = d.stop (ending lead row) := by
  induction row generalizing lead with
  | nil => exact iff_of_true rfl (by rw [ending, Cut.stop_nil, Cut.stop_nil])
  | cons x row ih =>
    cases x with
    | tag before after => exact ih after
    | text written =>
      cases row with
      | nil =>
        rw [texts, texts, texts, texts, ofList_cons_inj, ending, if_pos rfl]
        rfl
      | cons y row =>
        -- what comes after the first text decides its cut, and that is not the end of the row
        have hfirst : firstCut c (y :: row) = firstCut d (y :: row) := by cases y <;> rfl
        rw [texts, texts, hfirst, List.cons_inj_right, ih, ending, if_neg (List.cons_ne_nil y row)]

end Row

/-! ## Contents in a row -/

section Fits

variable {ℓ : Type}

/-- The contents of a row, in order, with `none` in the place of every tag. -/
abbrev Slots (ℓ : Type) := List (Option (Content ℓ))

/-- The slots with the start of the first one cut, if that is content. -/
def cutHead (demanded : Bool) : Slots ℓ → Slots ℓ
  | some c :: rest => some (c.cutStart demanded) :: rest
  | slots => slots

/-- The slots with the end of the last one cut, if that is content. -/
def cutBack (demanded : Bool) : Slots ℓ → Slots ℓ
  | [] => []
  | [some c] => [some (c.cutEnd demanded)]
  | slot :: rest => slot :: cutBack demanded rest

/-- The contents in the slots have undergone the cuts of the tags next to them, and at the two
ends of the row the cuts given. -/
inductive Row.Fits : Cut → Row → Cut → Slots ℓ → Prop where
  | nil (lead trail : Cut) : Fits lead [] trail []
  | text {lead trail : Cut} {written : List Char} {rest : Row} {c : Content ℓ} {slots : Slots ℓ} :
      c.IsCut lead (rest.firstCut trail) written → Fits .nothing rest trail slots →
        Fits lead (.text written :: rest) trail (some c :: slots)
  | tag {lead before after trail : Cut} {rest : Row} {slots : Slots ℓ} :
      Fits after rest trail slots → Fits lead (.tag before after :: rest) trail (none :: slots)

namespace Row.Fits

variable {lead trail : Cut} {row xs ys : Row} {slots is js : Slots ℓ}

/-- The contents that fit a row come to the texts of the row. -/
theorem values_eq (h : Fits lead row trail slots) :
    (slots.filterMap id).map Content.value = row.texts lead trail := by
  induction h with
  | nil => rfl
  | text hc _ ih =>
    rw [Row.texts, ← hc.value, String.ofList_toList, ← ih]
    rfl
  | tag _ ih => exact ih

/-- They were written as the row was. -/
theorem writtens_eq (h : Fits lead row trail slots) :
    (slots.filterMap id).map Content.written = row.writtens := by
  induction h with
  | nil => rfl
  | text hc _ ih =>
    rw [Row.writtens, ← hc.written, String.ofList_toList, ← ih]
    rfl
  | tag _ ih => exact ih

theorem append (hx : Fits lead xs (ys.firstCut trail) is)
    (hy : Fits (xs.lastCut lead) ys trail js) :
    Fits lead (xs ++ ys) trail (is ++ js) := by
  -- induction on the row before, with the cut at its end kept as it is
  generalize htrail : ys.firstCut trail = inner at hx
  induction hx with
  | nil => exact hy
  | @text _ _ _ rest _ _ hc _ ih =>
    refine .text ?_ (ih hy htrail)
    have hcut := Row.firstCut_append trail rest ys
    rw [htrail] at hcut
    exact hcut ▸ hc
  | tag _ ih => exact .tag (ih hy htrail)

/-- Rows that are fitted on both sides of a tag are fitted with it between them. -/
theorem append_tag {before after : Cut} (hx : Fits lead xs before is)
    (hy : Fits after ys trail js) :
    Fits lead (xs ++ .tag before after :: ys) trail (is ++ none :: js) :=
  append hx (.tag hy)

theorem cutHead (h : Fits lead row trail slots) (demanded : Bool) :
    Fits (lead.join (Cut.ofDemand demanded)) row trail (Tree.cutHead demanded slots) := by
  cases h with
  | nil => exact .nil _ _
  | text hc hrest => exact .text (hc.cutStart demanded) hrest
  | tag hrest => exact .tag hrest

theorem cutBack (h : Fits lead row trail slots) (demanded : Bool) :
    Fits lead row (trail.join (Cut.ofDemand demanded)) (Tree.cutBack demanded slots) := by
  induction h with
  | nil => exact .nil _ _
  | @text lead _ _ _ _ _ hc hrest ih =>
    cases hrest with
    | nil => exact .text (hc.cutEnd demanded) (.nil _ _)
    | text hc' hrest' => exact .text hc ih
    | tag hrest' => exact .text hc ih
  | tag hrest ih =>
    cases hrest with
    | nil => exact .tag (.nil _ _)
    | text hc' hrest' => exact .tag ih
    | tag hrest' => exact .tag ih

end Row.Fits

theorem cutBack_append_singleton (demanded : Bool) (slots : Slots ℓ) (c : Content ℓ) :
    cutBack demanded (slots ++ [some c]) = slots ++ [some (c.cutEnd demanded)] := by
  induction slots with
  | nil => rfl
  | cons slot slots ih =>
    cases slots with
    | nil => cases slot <;> rfl
    | cons slot' slots' => cases slot <;> exact congrArg (_ :: ·) ih

theorem cutBack_append_none (demanded : Bool) (slots : Slots ℓ) :
    cutBack demanded (slots ++ [none]) = slots ++ [none] := by
  induction slots with
  | nil => rfl
  | cons slot slots ih =>
    cases slots with
    | nil => cases slot <;> rfl
    | cons slot' slots' => cases slot <;> exact congrArg (_ :: ·) ih

end Fits

end Stencil.Tree
