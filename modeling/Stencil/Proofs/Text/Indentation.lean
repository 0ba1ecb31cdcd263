import Mathlib.Data.List.Basic
import Mathlib.Data.List.Induction
import Stencil.Proofs.Text.Escaping

/-!
# Indented texts

Indentation works on the lines of a text, the pieces between its line feeds: each gets the
indentation in front, an empty last one excepted (`indented`, `toList_indentLines`). An indentation
without line feeds makes no new lines and joins none (`splitOn_indentLines`). So to indent a text
that is indented already is to indent it once by both, and what was put in front of the lines can be
taken away again (`indentLines_indentLines`, `outdentLines?_indentLines`).
-/

set_option autoImplicit false

namespace Stencil.Text

/-! ## Pieces of a text -/

theorem splitOn_eq (sep : Char) (text : List Char) : splitOn sep text = text.splitOn sep := by
  induction text with
  | nil => rfl
  | cons c text ih =>
    rw [splitOn, List.splitOn_cons_eq_if_modifyHead, ih]
    by_cases hc : c = sep
    · rw [if_pos hc, if_pos (beq_iff_eq.2 hc)]
    · rw [if_neg hc, if_neg (by simpa using hc)]
      obtain ⟨piece, pieces, hpieces⟩ := List.exists_cons_of_ne_nil (List.splitOn_ne_nil sep text)
      rw [hpieces]
      rfl

/-- The pieces with the separator between them are the text. -/
theorem intercalate_splitOn (sep : Char) (text : List Char) :
    [sep].intercalate (splitOn sep text) = text := by
  rw [splitOn_eq, List.intercalate_splitOn]

theorem length_splitOn (sep : Char) (text : List Char) :
    (splitOn sep text).length = text.count sep + 1 := by
  induction text with
  | nil => rfl
  | cons c text ih =>
    rw [splitOn, List.count_cons]
    by_cases hc : c = sep
    · rw [if_pos hc, if_pos (beq_iff_eq.2 hc), List.length_cons, ih]
    · obtain ⟨piece, pieces, hpieces⟩ := List.exists_cons_of_ne_nil (splitOn_ne_nil sep text)
      rw [hpieces] at ih
      rw [if_neg hc, if_neg (by simpa using hc), hpieces]
      exact ih

theorem not_mem_of_mem_splitOn {sep : Char} {text : List Char} :
    ∀ piece ∈ splitOn sep text, sep ∉ piece := by
  induction text with
  | nil => exact List.forall_mem_singleton.2 List.not_mem_nil
  | cons c text ih =>
    rw [splitOn]
    by_cases hc : c = sep
    · rw [if_pos hc]
      exact List.forall_mem_cons.2 ⟨List.not_mem_nil, ih⟩
    · obtain ⟨piece, pieces, hpieces⟩ := List.exists_cons_of_ne_nil (splitOn_ne_nil sep text)
      rw [hpieces] at ih
      obtain ⟨hpiece, hrest⟩ := List.forall_mem_cons.1 ih
      rw [if_neg hc, hpieces]
      exact List.forall_mem_cons.2 ⟨List.not_mem_cons_of_ne_of_not_mem (Ne.symm hc) hpiece, hrest⟩

/-! ## Lines with an indentation -/

/-- The lines with the indentation in front, an empty last one left bare. -/
def indented (indent : List Char) : List (List Char) → List (List Char)
  | [] => []
  | [last] => [if last = [] then [] else indent ++ last]
  | line :: rest => (indent ++ line) :: indented indent rest

/-- The lines without the indentation in front, an empty last one left as it is; nothing where
another line does not start with it. -/
def outdented? (indent : List Char) : List (List Char) → Option (List (List Char))
  | [] => some []
  | [last] => (if last = [] then some [] else indent.isPrefixOf? last).map ([·])
  | line :: rest =>
    match indent.isPrefixOf? line, outdented? indent rest with
    | some line, some rest => some (line :: rest)
    | _, _ => none

variable {indent : List Char} {lines : List (List Char)}

theorem indented_cons (line : List Char) (h : lines ≠ []) :
    indented indent (line :: lines) = (indent ++ line) :: indented indent lines := by
  cases lines with
  | nil => exact absurd rfl h
  | cons next rest => rfl

theorem outdented?_cons {line shorter : List Char} {rest : List (List Char)} (h : lines ≠ [])
    (hline : indent.isPrefixOf? line = some shorter) (hrest : outdented? indent lines = some rest) :
    outdented? indent (line :: lines) = some (shorter :: rest) := by
  cases lines with
  | nil => exact absurd rfl h
  | cons next more => rw [outdented?, hline, hrest]; exact List.cons_ne_nil _ _

theorem indented_ne_nil (h : lines ≠ []) : indented indent lines ≠ [] := by
  induction lines, h using List.recNeNil with
  | singleton last => exact List.cons_ne_nil _ _
  | cons line lines h ih => rw [indented_cons line h]; exact List.cons_ne_nil _ _

theorem length_indented (h : lines ≠ []) : (indented indent lines).length = lines.length := by
  induction lines, h using List.recNeNil with
  | singleton last => rfl
  | cons line lines h ih => rw [indented_cons line h, List.length_cons, ih, List.length_cons]

/-- The last line is bare exactly if it was. -/
theorem getLast?_indented (h : lines ≠ []) :
    (indented indent lines).getLast? = some [] ↔ lines.getLast? = some [] := by
  induction lines, h using List.recNeNil with
  | singleton last =>
    rw [indented, List.getLast?_singleton, List.getLast?_singleton]
    split <;> simp_all
  | cons line lines h ih =>
    rw [indented_cons line h, List.getLast?_cons_of_ne_nil (indented_ne_nil h), ih,
      List.getLast?_cons_of_ne_nil h]

theorem indented_nil (lines : List (List Char)) : indented [] lines = lines := by
  rcases eq_or_ne lines [] with rfl | h
  · rfl
  induction lines, h using List.recNeNil with
  | singleton last => rw [indented, List.nil_append, ite_eq_right_iff.2 Eq.symm]
  | cons line lines h ih => rw [indented_cons line h, ih, List.nil_append]

/-- Lines that are indented already are indented by both. -/
theorem indented_indented (outer : List Char) (h : lines ≠ []) :
    indented outer (indented indent lines) = indented (outer ++ indent) lines := by
  induction lines, h using List.recNeNil with
  | singleton last =>
    simp only [indented]
    by_cases hlast : last = []
    · rw [if_pos hlast, if_pos rfl, if_pos hlast]
    · have hsome : indent ++ last ≠ [] := List.append_ne_nil_of_right_ne_nil _ hlast
      rw [if_neg hlast, if_neg hsome, if_neg hlast, List.append_assoc]
  | cons line lines h ih =>
    rw [indented_cons line h, indented_cons _ (indented_ne_nil h), ih, indented_cons line h,
      List.append_assoc]

/-- What was put in front of the lines can be taken away again. -/
theorem outdented?_indented (h : lines ≠ []) :
    outdented? indent (indented indent lines) = some lines := by
  have htaken (line : List Char) : indent.isPrefixOf? (indent ++ line) = some line :=
    List.isPrefixOf?_eq_some_iff_append_eq.2 rfl
  induction lines, h using List.recNeNil with
  | singleton last =>
    simp only [indented, outdented?]
    by_cases hlast : last = []
    · rw [if_pos hlast, if_pos rfl, hlast]
      rfl
    · have hsome : indent ++ last ≠ [] := List.append_ne_nil_of_right_ne_nil _ hlast
      rw [if_neg hlast, if_neg hsome, htaken]
      rfl
  | cons line lines h ih =>
    rw [indented_cons line h, outdented?_cons (indented_ne_nil h) (htaken line) ih]

/-- An indentation without line feeds brings none into the lines. -/
theorem not_mem_of_mem_indented (hindent : '\n' ∉ indent) (h : lines ≠ [])
    (hlines : ∀ line ∈ lines, '\n' ∉ line) :
    ∀ line ∈ indented indent lines, '\n' ∉ line := by
  have hfront {line : List Char} (hline : '\n' ∉ line) : '\n' ∉ indent ++ line := by
    rw [List.mem_append]
    exact fun hmem => hmem.elim hindent hline
  induction lines, h using List.recNeNil with
  | singleton last =>
    have hlast : '\n' ∉ last := hlines last List.mem_cons_self
    refine List.forall_mem_singleton.2 ?_
    split
    · exact List.not_mem_nil
    · exact hfront hlast
  | cons line lines h ih =>
    obtain ⟨hline, hrest⟩ := List.forall_mem_cons.1 hlines
    rw [indented_cons line h]
    exact List.forall_mem_cons.2 ⟨hfront hline, ih hrest⟩

theorem joinIndented_eq (h : lines ≠ []) :
    joinIndented indent lines = ['\n'].intercalate (indented indent lines) := by
  induction lines, h using List.recNeNil with
  | singleton last =>
    rw [joinIndented, indented, List.intercalate_singleton]
    cases last <;> rfl
  | cons line lines h ih =>
    rw [joinIndented_cons indent line h, ih, indented_cons line h,
      List.intercalate_cons_of_ne_nil (indented_ne_nil h), List.append_assoc, List.append_assoc,
      List.append_assoc, List.singleton_append]

/-! ## Texts with an indentation -/

/-- The text without the indentation in front of its lines, an empty last one excepted; nothing
where another line does not start with it. -/
def outdentLines? (indent text : String) : Option String :=
  (outdented? indent.toList (splitOn '\n' text.toList)).map fun lines =>
    String.ofList (['\n'].intercalate lines)

theorem toList_indentLines (indent text : String) :
    (indentLines indent text).toList = ['\n'].intercalate
      (indented indent.toList (splitOn '\n' text.toList)) := by
  unfold indentLines
  split
  · rename_i hempty
    rw [String.isEmpty_iff.1 hempty]
    exact (congrArg _ (indented_nil _)).trans (intercalate_splitOn '\n' text.toList) |>.symm
  · rw [String.toList_ofList, joinIndented_eq (splitOn_ne_nil '\n' text.toList)]

/-- The lines of an indented text are the indented lines. -/
theorem splitOn_indentLines {indent : String} (h : '\n' ∉ indent.toList) (text : String) :
    splitOn '\n' (indentLines indent text).toList = indented indent.toList
      (splitOn '\n' text.toList) := by
  have hsome := splitOn_ne_nil '\n' text.toList
  -- Lines without line feeds are split back into themselves, so the indentation must not bring one
  -- in.
  rw [toList_indentLines, splitOn_eq,
    List.splitOn_intercalate '\n' (not_mem_of_mem_indented h hsome not_mem_of_mem_splitOn)
      (indented_ne_nil hsome)]

theorem indentLines_indentLines {indent : String} (h : '\n' ∉ indent.toList) (outer text : String) :
    indentLines outer (indentLines indent text) = indentLines (outer ++ indent) text := by
  rw [← String.toList_inj, toList_indentLines, splitOn_indentLines h,
    indented_indented outer.toList (splitOn_ne_nil '\n' text.toList), toList_indentLines,
    String.toList_append]

theorem count_indentLines {indent : String} (h : '\n' ∉ indent.toList) (text : String) :
    (indentLines indent text).toList.count '\n' = text.toList.count '\n' := by
  -- There is one line more than there are line feeds, in both texts.
  rw [← Nat.add_right_cancel_iff, ← length_splitOn, ← length_splitOn, splitOn_indentLines h,
    length_indented (splitOn_ne_nil '\n' text.toList)]

theorem outdentLines?_indentLines {indent : String} (h : '\n' ∉ indent.toList) (text : String) :
    outdentLines? indent (indentLines indent text) = some text := by
  rw [outdentLines?, splitOn_indentLines h, outdented?_indented (splitOn_ne_nil '\n' text.toList),
    Option.map_some, intercalate_splitOn, String.ofList_toList]

/-- For every text and every indentation without line feeds: to indent by this and then by another
is to indent once by the other followed by this; there are as many line feeds as before; the last
line is empty exactly if it was; and the text comes back when the indentation is taken from the
start of every line but an empty last one. -/
theorem indentLines_nested (indent text : String) (h : '\n' ∉ indent.toList) :
    (∀ outer, indentLines outer (indentLines indent text) = indentLines (outer ++ indent) text) ∧
      (indentLines indent text).toList.count '\n' = text.toList.count '\n' ∧
      ((splitOn '\n' (indentLines indent text).toList).getLast? = some [] ↔
        (splitOn '\n' text.toList).getLast? = some []) ∧
      outdentLines? indent (indentLines indent text) = some text := by
  refine ⟨fun outer => indentLines_indentLines h outer text, count_indentLines h text, ?_,
    outdentLines?_indentLines h text⟩
  rw [splitOn_indentLines h]
  exact getLast?_indented (splitOn_ne_nil '\n' text.toList)

/-- A blank line gets the indentation, and the empty line at the end does not. -/
theorem indentLines_nested_blankLine :
    '\n' ∉ "  ".toList ∧ indentLines "> " (indentLines "  " "a\n\nb\n") = ">   a\n>   \n>   b\n" ∧
      indentLines "> " (indentLines "  " "a\n\nb\n") = indentLines ">   " "a\n\nb\n" ∧
        outdentLines? "  " (indentLines "  " "a\n\nb\n") = some "a\n\nb\n" := by
  have hindent : '\n' ∉ "  ".toList := by decide
  obtain ⟨hnested, -, -, htaken⟩ := indentLines_nested "  " "a\n\nb\n" hindent
  exact ⟨hindent, by decide, hnested "> ", htaken⟩

end Stencil.Text
