import Stencil.Text.Blank
import Stencil.Text.Entities
import Stencil.Text.Indent

/-!
# Escaped texts

A text is escaped if nothing in it could open a tag, end an attribute or start an entity of its own:
of the characters in need of an entity only `&` occurs, and only where one of the seven entities
begins. Escaped texts are closed under concatenation (`Escaped.append`), so output may be put
together from them in any way. `escape` takes the characters of a text one by one, also where it
copies a clean start (`toList_escape`), so it gives an escaped text for every text
(`escaped_escape`). Indentation keeps texts escaped (`Escaped.indentLines`), because no entity
reaches across the end of a line.
-/

set_option autoImplicit false

namespace Stencil.Text

/-- The characters in need of an entity are those that have one. -/
theorem needsEntity_eq (c : Char) : needsEntity c = (entity? c).isSome := by
  unfold needsEntity entity?
  split <;> grind

/-- No character of the text is in need of an entity. -/
def Clean (text : List Char) : Prop := ∀ c ∈ text, needsEntity c = false

instance (text : List Char) : Decidable (Clean text) :=
  List.decidableBAll (fun c => needsEntity c = false) text

/-- Of the characters in need of an entity only `&` occurs in the text, and only where an entity
begins. -/
structure Escaped (text : List Char) : Prop where
  special : ∀ c ∈ text, needsEntity c = true → c = '&'
  entities : ∀ before rest, text = before ++ '&' :: rest →
    ∃ c entity, entity? c = some entity ∧ entity.toList <+: '&' :: rest

/-! ## Clean texts -/

theorem clean_nil : Clean [] := fun _ h => absurd h List.not_mem_nil

theorem Clean.append {as bs : List Char} (ha : Clean as) (hb : Clean bs) : Clean (as ++ bs) := by
  intro c h
  rcases List.mem_append.1 h with h | h
  · exact ha c h
  · exact hb c h

/-- Padding is clean. -/
theorem clean_of_isPad {text : List Char} (h : text.all isPad = true) : Clean text := by
  intro c hc
  have hpad := List.all_eq_true.1 h c hc
  simp only [isPad, Bool.or_eq_true, beq_iff_eq] at hpad
  rcases hpad with rfl | rfl <;> rfl

theorem Clean.escaped {text : List Char} (h : Clean text) : Escaped text where
  special c hc hneeds := by
    rw [h c hc] at hneeds
    cases hneeds
  entities before rest htext := by
    have hamp : needsEntity '&' = false := h '&' (by rw [htext]; simp)
    cases hamp

/-! ## Concatenation -/

theorem escaped_nil : Escaped [] := clean_nil.escaped

theorem Escaped.append {as bs : List Char} (ha : Escaped as) (hb : Escaped bs) :
    Escaped (as ++ bs) where
  special c hc hneeds := by
    rcases List.mem_append.1 hc with hc | hc
    · exact ha.special c hc hneeds
    · exact hb.special c hc hneeds
  entities before rest htext := by
    rcases List.append_eq_append_iff.1 htext with ⟨start, -, hbs⟩ | ⟨start, has, hrest⟩
    · exact hb.entities start rest hbs
    · cases start with
      | nil => exact hb.entities [] rest hrest.symm
      | cons c start =>
        -- The `&` stands in the first text, and so does the entity that it begins.
        obtain ⟨rfl, rfl⟩ := List.cons.inj hrest
        obtain ⟨c, entity, hentity, hprefix⟩ := ha.entities before start has
        exact ⟨c, entity, hentity, hprefix.trans (List.prefix_append ('&' :: start) bs)⟩

theorem Escaped.toList_append {s t : String} (hs : Escaped s.toList) (ht : Escaped t.toList) :
    Escaped (s ++ t).toList := by
  rw [String.toList_append]
  exact hs.append ht

theorem Escaped.flatMap {f : Char → List Char} (h : ∀ c, Escaped (f c)) :
    ∀ text : List Char, Escaped (text.flatMap f)
  | [] => escaped_nil
  | c :: rest => (h c).append (Escaped.flatMap h rest)

/-! ## Entities -/

/-- An entity is one `&` and a clean name after it. -/
theorem entity_shape {c : Char} {entity : String} (h : entity? c = some entity) :
    entity.toList = '&' :: entity.toList.tail ∧ Clean entity.toList.tail := by
  unfold entity? at h
  split at h <;> cases h <;> exact ⟨rfl, by decide⟩

/-- An entity stands on one line. -/
theorem entity_on_line {c : Char} {entity : String} (h : entity? c = some entity) :
    '\n' ∉ entity.toList := by
  unfold entity? at h
  split at h <;> cases h <;> decide

theorem escaped_entity {c : Char} {entity : String} (h : entity? c = some entity) :
    Escaped entity.toList := by
  obtain ⟨hshape, hclean⟩ := entity_shape h
  refine ⟨fun x hx hneeds => ?_, fun before rest htext => ?_⟩
  · rw [hshape] at hx
    rcases List.mem_cons.1 hx with rfl | hx
    · rfl
    · rw [hclean x hx] at hneeds
      cases hneeds
  · cases before with
    | nil => exact ⟨c, entity, h, by rw [htext]; exact List.prefix_refl _⟩
    | cons x before =>
      -- Only the first character is `&`.
      rw [hshape] at htext
      exact hclean.escaped.entities before rest (List.cons.inj htext).2

theorem escaped_escapeChar (c : Char) : Escaped (escapeChar c) := by
  unfold escapeChar
  split
  next entity h => exact escaped_entity h
  next h =>
    refine Clean.escaped fun x hx => ?_
    obtain rfl := List.mem_singleton.1 hx
    rw [needsEntity_eq, h]
    rfl

theorem flatMap_escapeChar_of_clean {text : List Char} (h : Clean text) :
    text.flatMap escapeChar = text := by
  induction text with
  | nil => rfl
  | cons c text ih =>
    obtain ⟨hc, hrest⟩ := List.forall_mem_cons.1 h
    have hself : escapeChar c = [c] := by
      rw [needsEntity_eq] at hc
      rw [escapeChar, Option.not_isSome_iff_eq_none.1 (Bool.eq_false_iff.1 hc)]
    rw [List.flatMap_cons, hself, ih hrest]
    rfl

/-- Copying the clean start of a text gives what its characters are escaped to. -/
theorem toList_escape (text : String) : (escape text).toList = text.toList.flatMap escapeChar := by
  have hclean : Clean (text.toList.takeWhile fun c => !needsEntity c) := by
    intro c hc
    simpa using List.all_eq_true.1 List.all_takeWhile c hc
  calc (escape text).toList
      = text.toList.takeWhile (fun c => !needsEntity c) ++
          (text.toList.dropWhile fun c => !needsEntity c).flatMap escapeChar := by
        rw [escape, String.toList_ofList]
    _ = (text.toList.takeWhile fun c => !needsEntity c).flatMap escapeChar ++
          (text.toList.dropWhile fun c => !needsEntity c).flatMap escapeChar := by
        rw [flatMap_escapeChar_of_clean hclean]
    _ = text.toList.flatMap escapeChar := by
      rw [← List.flatMap_append, List.takeWhile_append_dropWhile]

/-- The escaped form of a text is escaped. -/
theorem escaped_escape (text : String) : Escaped (escape text).toList := by
  rw [toList_escape]
  exact Escaped.flatMap escaped_escapeChar text.toList

/-- A clean text needs no escaping. -/
theorem escape_of_clean {text : String} (h : Clean text.toList) : escape text = text := by
  rw [← String.toList_inj, toList_escape, flatMap_escapeChar_of_clean h]

/-! ## Lines -/

/-- No entity reaches across the end of a line. -/
theorem Escaped.of_lines {first rest : List Char} (h : Escaped (first ++ '\n' :: rest)) :
    Escaped first ∧ Escaped rest := by
  refine ⟨⟨fun c hc => h.special c (List.mem_append_left _ hc), fun before more hfirst => ?_⟩,
    ⟨fun c hc => h.special c (List.mem_append_right _ (List.mem_cons_of_mem _ hc)),
      fun before more hrest => ?_⟩⟩
  · obtain ⟨c, entity, hentity, hprefix⟩ :=
      h.entities before (more ++ '\n' :: rest) (by rw [hfirst]; simp)
    have hline : '\n' ∉ entity.toList := entity_on_line hentity
    have hbreak : '&' :: more ++ ['\n'] <+: '&' :: more ++ '\n' :: rest := ⟨rest, by simp⟩
    refine ⟨c, entity, hentity, ?_⟩
    -- An entity that is longer than what is left of the line contains the end of the line.
    rcases List.prefix_or_prefix_of_prefix hprefix hbreak with hshort | hlong
    · rcases List.prefix_concat_iff.1 hshort with heq | hshort
      · exact absurd (heq ▸ by simp) hline
      · exact hshort
    · exact absurd (hlong.subset (by simp)) hline
  · exact h.entities (first ++ '\n' :: before) more (by rw [hrest]; simp)

/-- A text is one line, or a first line and the rest of the text. -/
theorem splitOn_cases (sep : Char) :
    ∀ text : List Char, splitOn sep text = [text] ∨
      ∃ first rest, text = first ++ sep :: rest ∧ splitOn sep text = first :: splitOn sep rest
  | [] => .inl rfl
  | c :: text => by
    rw [splitOn]
    by_cases hc : c = sep
    · rw [if_pos hc]
      exact .inr ⟨[], text, by rw [hc]; rfl, rfl⟩
    · rw [if_neg hc]
      rcases splitOn_cases sep text with hlast | ⟨first, rest, rfl, hfirst⟩
      · rw [hlast]
        exact .inl rfl
      · rw [hfirst]
        exact .inr ⟨c :: first, rest, rfl, rfl⟩

theorem splitOn_ne_nil (sep : Char) (text : List Char) : splitOn sep text ≠ [] := by
  rcases splitOn_cases sep text with h | ⟨first, rest, -, h⟩ <;> rw [h]
      <;> exact List.cons_ne_nil _ _

theorem joinIndented_cons (indent line : List Char) {lines : List (List Char)} (h : lines ≠ []) :
    joinIndented indent (line :: lines) =
      indent ++ line ++ '\n' :: joinIndented indent lines := by
  cases lines with
  | nil => exact absurd rfl h
  | cons next more => rfl

theorem Escaped.joinIndented {indent : List Char} (hindent : Escaped indent) (text : List Char)
    (h : Escaped text) : Escaped (joinIndented indent (splitOn '\n' text)) := by
  rcases splitOn_cases '\n' text with hlast | ⟨first, rest, rfl, hfirst⟩
  · rw [hlast, Text.joinIndented]
    split
    · exact escaped_nil
    · exact hindent.append h
  · obtain ⟨hline, hrest⟩ := h.of_lines
    have hbreak : Escaped ['\n'] := Clean.escaped (by decide)
    rw [hfirst, joinIndented_cons _ _ (splitOn_ne_nil _ _), ← List.singleton_append]
    exact (hindent.append hline).append (hbreak.append (Escaped.joinIndented hindent rest hrest))
termination_by text.length

/-- A text stays escaped when its lines are indented. -/
theorem Escaped.indentLines {indent text : String} (hindent : Clean indent.toList)
    (h : Escaped text.toList) : Escaped (indentLines indent text).toList := by
  unfold Text.indentLines
  split
  · exact h
  · rw [String.toList_ofList]
    exact hindent.escaped.joinIndented text.toList h

end Stencil.Text
