import Mathlib.Data.List.Infix
import Stencil.Text.Blank
import Stencil.Proofs.Syntax.Covering
import Stencil.Proofs.Text.Escaping

/-!
# Places in a text

An offset between two characters of a text is told by the text before it: so many line feeds, and so
many characters since the last of them (`Position.after`). The index of a text finds just that
position, by its binary search over the starts of lines (`LineIndex.position_size`). Later places
have later positions (`Position.after_le_append`), and a place before the end of the text is on one
of its lines (`exists_line`).
-/

set_option autoImplicit false

namespace Stencil.Text

/-! ## Positions -/

/-- The text after the last line feed. -/
def lastLine (cs : List Char) : List Char := takeEndWhile (· != '\n') cs

/-- The position after a text that starts a template. -/
def Position.after (before : List Char) : Position :=
  ⟨before.count '\n' + 1, (lastLine before).length⟩

/-- Earlier lines come first, and on a line earlier columns. -/
instance : LE Position where
  le p q := p.line < q.line ∨ p.line = q.line ∧ p.column ≤ q.column

theorem Position.le_iff {p q : Position} :
    p ≤ q ↔ p.line < q.line ∨ p.line = q.line ∧ p.column ≤ q.column :=
  Iff.rfl

theorem not_mem_lastLine (cs : List Char) : '\n' ∉ lastLine cs := by
  intro hmem
  have hall := List.all_eq_true.1 (all_takeEndWhile (· != '\n') cs) '\n' hmem
  simp at hall

/-- Text without line feeds goes on the last line. -/
theorem lastLine_append {before text : List Char} (h : '\n' ∉ text) :
    lastLine (before ++ text) = lastLine before ++ text := by
  have hall : ∀ c ∈ text.reverse, (c != '\n') = true := by
    intro c hc
    rw [bne_iff_ne]
    rintro rfl
    exact h (List.mem_reverse.1 hc)
  rw [lastLine, lastLine, takeEndWhile, takeEndWhile, List.reverse_append,
    List.takeWhile_append_of_pos hall, List.reverse_append, List.reverse_reverse]

/-- What comes later in a text has a later position. -/
theorem Position.after_le_append (before text : List Char) :
    Position.after before ≤ Position.after (before ++ text) := by
  rw [Position.le_iff]
  simp only [Position.after, List.count_append]
  by_cases htext : '\n' ∈ text
  · have hcount := List.count_pos_iff.2 htext
    left
    omega
  · right
    rw [List.count_eq_zero_of_not_mem htext, lastLine_append htext, List.length_append]
    omega

/-- Strictly before comes an earlier line, or an earlier column of the line. -/
instance : LT Position where
  lt p q := p.line < q.line ∨ p.line = q.line ∧ p.column < q.column

theorem Position.lt_iff {p q : Position} :
    p < q ↔ p.line < q.line ∨ p.line = q.line ∧ p.column < q.column :=
  Iff.rfl

instance (p q : Position) : Decidable (p < q) :=
  inferInstanceAs (Decidable (p.line < q.line ∨ p.line = q.line ∧ p.column < q.column))

theorem Position.not_lt {p q : Position} : ¬ p < q ↔ q ≤ p := by
  rw [Position.lt_iff, Position.le_iff]
  omega

/-- After more text the position is a later one. -/
theorem Position.after_lt_append (before : List Char) {text : List Char} (h : text ≠ []) :
    Position.after before < Position.after (before ++ text) := by
  rw [Position.lt_iff]
  simp only [Position.after, List.count_append]
  by_cases htext : '\n' ∈ text
  · have hcount := List.count_pos_iff.2 htext
    left
    omega
  · have hlength := List.length_pos_iff.2 h
    right
    rw [List.count_eq_zero_of_not_mem htext, lastLine_append htext, List.length_append]
    omega

/-! ## Starts of lines -/

theorem offsetsAfterLineFeeds_append (offset : Nat) (as bs : List Char) :
    offsetsAfterLineFeeds offset (as ++ bs) =
      offsetsAfterLineFeeds offset as ++ offsetsAfterLineFeeds (offset + size as) bs := by
  induction as generalizing offset with
  | nil => rfl
  | cons c cs ih =>
    simp only [List.cons_append, offsetsAfterLineFeeds, size_cons, ← Nat.add_assoc]
    split
    · rw [ih, List.cons_append]
    · rw [ih]

theorem length_offsetsAfterLineFeeds (offset : Nat) (cs : List Char) :
    (offsetsAfterLineFeeds offset cs).length = cs.count '\n' := by
  induction cs generalizing offset with
  | nil => rfl
  | cons c cs ih =>
    simp only [offsetsAfterLineFeeds, List.count_cons, beq_iff_eq]
    split
    · rw [List.length_cons, ih]
    · rw [ih, Nat.add_zero]

/-- Every line but the first starts after a line feed. -/
theorem mem_offsetsAfterLineFeeds {offset n : Nat} {cs : List Char}
    (h : n ∈ offsetsAfterLineFeeds offset cs) :
    offset < n ∧ n ≤ offset + size cs := by
  induction cs generalizing offset with
  | nil => cases h
  | cons c cs ih =>
    have hpos := c.utf8Size_pos
    simp only [offsetsAfterLineFeeds] at h
    rw [size_cons]
    split at h
    · rcases List.mem_cons.1 h with rfl | h
      · omega
      · have := ih h
        omega
    · have := ih h
      omega

/-- The last line of a text starts where the text before it ends. -/
theorem getLast_offsetsAfterLineFeeds (before : List Char) :
    (0 :: offsetsAfterLineFeeds 0 before)[before.count '\n']? =
      some (size (dropEndWhile (· != '\n') before)) := by
  have hsplit := dropEndWhile_append_takeEndWhile (· != '\n') before
  have hnone := not_mem_lastLine before
  have hends : ∀ c ∈ (dropEndWhile (· != '\n') before).getLast?, c = '\n' := by
    intro c hc
    rw [dropEndWhile, List.getLast?_reverse] at hc
    have hfirst := List.head?_dropWhile_not (· != '\n') before.reverse
    rw [Option.mem_def.1 hc] at hfirst
    simpa using hfirst
  rw [lastLine] at hnone
  generalize dropEndWhile (· != '\n') before = head at hsplit hends ⊢
  generalize takeEndWhile (· != '\n') before = line at hsplit hnone
  subst hsplit
  -- No line starts within the last line.
  have hline : offsetsAfterLineFeeds (0 + size head) line = [] := by
    rw [← List.length_eq_zero_iff, length_offsetsAfterLineFeeds]
    exact List.count_eq_zero_of_not_mem hnone
  rw [offsetsAfterLineFeeds_append, hline, List.append_nil, List.count_append,
    List.count_eq_zero_of_not_mem hnone, Nat.add_zero]
  rcases List.eq_nil_or_concat head with rfl | ⟨front, c, rfl⟩
  · rfl
  · -- The line feed that the head ends with is the last one that counts.
    obtain rfl : c = '\n' := hends c (by simp)
    have hcount : (front ++ ['\n']).count '\n' = front.count '\n' + 1 := by simp
    rw [List.concat_eq_append, hcount, List.getElem?_cons_succ, offsetsAfterLineFeeds_append,
      List.getElem?_append_right (by rw [length_offsetsAfterLineFeeds]),
      length_offsetsAfterLineFeeds, Nat.sub_self]
    simp [offsetsAfterLineFeeds]

/-- The search by halving finds where the entries that are at most the offset end. -/
theorem lastAtMost_eq {starts : Array Nat} {offset k : Nat}
    (hbelow : ∀ i, i ≤ k → starts.getD i 0 ≤ offset)
    (habove : ∀ i, k < i → i < starts.size → offset < starts.getD i 0) (fuel : Nat) :
    ∀ lo hi, lo ≤ k → k < hi → hi ≤ starts.size → hi - lo ≤ fuel + 1 →
      lastAtMost starts offset fuel lo hi = k := by
  induction fuel with
  | zero =>
    intro lo hi hlo hhi _ hfuel
    rw [lastAtMost]
    omega
  | succ fuel ih =>
    intro lo hi hlo hhi hsize hfuel
    rw [lastAtMost]
    -- While there is an entry between the bounds, the middle one is compared and the half without
    -- `k` is dropped.
    split
    · dsimp only
      split
      · rename_i hmid
        apply ih
        · by_contra hlt
          have := habove ((lo + hi) / 2) (by omega) (by omega)
          omega
        · exact hhi
        · exact hsize
        · omega
      · rename_i hmid
        apply ih
        · exact hlo
        · by_contra hlt
          exact hmid (hbelow _ (by omega))
        · omega
        · omega
    · omega

/-- The index of a text gives each place in it the position after the text before it. -/
theorem LineIndex.position_size (before after : List Char) :
    (LineIndex.ofChars (before ++ after)).position (size before) = Position.after before := by
  have hstarts : (LineIndex.ofChars (before ++ after)).starts =
      ((0 :: offsetsAfterLineFeeds 0 before) ++ offsetsAfterLineFeeds (size before)
        after).toArray := by
    rw [LineIndex.ofChars, offsetsAfterLineFeeds_append, Nat.zero_add, List.cons_append]
  have hlength : (0 :: offsetsAfterLineFeeds 0 before).length = before.count '\n' + 1 := by
    rw [List.length_cons, length_offsetsAfterLineFeeds]
  have hlast := getLast_offsetsAfterLineFeeds before
  have hmin : min (size before) (size (before ++ after)) = size before := by
    rw [size_append]
    omega
  have hbelow : ∀ n ∈ 0 :: offsetsAfterLineFeeds 0 before, n ≤ size before := by
    intro n hn
    rcases List.mem_cons.1 hn with rfl | hn
    · exact Nat.zero_le _
    · have := mem_offsetsAfterLineFeeds hn
      omega
  have habove : ∀ n ∈ offsetsAfterLineFeeds (size before) after, size before < n :=
    fun n hn => (mem_offsetsAfterLineFeeds hn).1
  generalize 0 :: offsetsAfterLineFeeds 0 before = early at *
  generalize offsetsAfterLineFeeds (size before) after = late at *
  -- The lines that start up to the place are those of the text before it.
  have hline : lastAtMost (early ++ late).toArray (size before) (early ++ late).toArray.size 0
      (early ++ late).toArray.size = before.count '\n' := by
    apply lastAtMost_eq
    · intro i hi
      have hi' : i < early.length := by omega
      simp only [Array.getD_eq_getD_getElem?, List.getElem?_toArray, List.getElem?_append_left hi',
        List.getElem?_eq_getElem hi', Option.getD_some]
      exact hbelow _ (List.getElem_mem hi')
    · intro i hi hsize
      have hi' : early.length ≤ i := by omega
      have hlate : i - early.length < late.length := by
        rw [List.size_toArray, List.length_append] at hsize
        omega
      simp only [Array.getD_eq_getD_getElem?, List.getElem?_toArray, List.getElem?_append_right hi',
        List.getElem?_eq_getElem hlate, Option.getD_some]
      exact habove _ (List.getElem_mem hlate)
    · exact Nat.zero_le _
    · rw [List.size_toArray, List.length_append]
      omega
    · exact Nat.le_refl _
    · omega
  have hstart : (early ++ late).toArray.getD (before.count '\n') 0 =
      size (dropEndWhile (· != '\n') before) := by
    simp only [Array.getD_eq_getD_getElem?, List.getElem?_toArray,
      List.getElem?_append_left (show before.count '\n' < early.length by omega), hlast,
      Option.getD_some]
  have hsplit : dropEndWhile (· != '\n') before ++ lastLine before = before :=
    dropEndWhile_append_takeEndWhile _ before
  have hsize : size before - size (dropEndWhile (· != '\n') before) = size (lastLine before) := by
    conv => lhs; lhs; rw [← hsplit, size_append]
    omega
  have hdrop : dropBytes? (size (dropEndWhile (· != '\n') before)) (before ++ after) =
      some (lastLine before ++ after) := by
    conv => lhs; rhs; rw [← hsplit, List.append_assoc]
    exact dropBytes?_append _ _
  rw [LineIndex.position, hstarts]
  simp only [show (LineIndex.ofChars (before ++ after)).chars = before ++ after from rfl, hmin,
    hline, hstart, hdrop, hsize, countBytes?_append, Option.getD_some]
  rfl

/-! ## Boundaries -/

/-- An offset of a text lies between two characters, or at an end. -/
def Boundary (source : List Char) (offset : Nat) : Prop :=
  ∃ before, before <+: source ∧ size before = offset

theorem Boundary.zero (source : List Char) : Boundary source 0 := ⟨[], List.nil_prefix, rfl⟩

theorem Boundary.size (source : List Char) : Boundary source (size source) :=
  ⟨source, List.prefix_refl _, rfl⟩

theorem Boundary.le_size {source : List Char} {offset : Nat} (h : Boundary source offset) :
    offset ≤ Text.size source := by
  obtain ⟨before, ⟨after, rfl⟩, rfl⟩ := h
  rw [size_append]
  exact Nat.le_add_right _ _

/-- Of two boundaries the text before the earlier one starts the text before the later one. -/
theorem Boundary.le_cases {source : List Char} {start stop : Nat} (hstart : Boundary source start)
    (hstop : Boundary source stop) (h : start ≤ stop) :
    ∃ before text after, source = before ++ (text ++ after) ∧ start = Text.size before ∧
      stop = Text.size (before ++ text) := by
  obtain ⟨before, hbefore, rfl⟩ := hstart
  obtain ⟨upto, ⟨after, rfl⟩, rfl⟩ := hstop
  have hprefix : before <+: upto := by
    rcases List.prefix_or_prefix_of_prefix hbefore (List.prefix_append upto after) with hfront |
        ⟨more, rfl⟩
    · exact hfront
    · have hnone : more = [] := by
        rw [size_append] at h
        by_contra hsome
        have := lt_size_of_ne_nil hsome
        omega
      rw [hnone, List.append_nil]
  obtain ⟨text, rfl⟩ := hprefix
  exact ⟨before, text, after, List.append_assoc _ _ _, rfl, rfl⟩

/-- Positions are in the order of the places. -/
theorem LineIndex.position_le {source : List Char} {start stop : Nat}
    (hstart : Boundary source start) (hstop : Boundary source stop) (h : start ≤ stop) :
    (LineIndex.ofChars source).position start ≤ (LineIndex.ofChars source).position stop := by
  obtain ⟨before, text, after, rfl, rfl, rfl⟩ := hstart.le_cases hstop h
  rw [LineIndex.position_size before, ← List.append_assoc, LineIndex.position_size (before ++ text)]
  exact Position.after_le_append before text

/-- One position is strictly before another exactly if its place is. -/
theorem LineIndex.position_lt_iff {source : List Char} {start stop : Nat}
    (hstart : Boundary source start) (hstop : Boundary source stop) :
    (LineIndex.ofChars source).position start < (LineIndex.ofChars source).position stop ↔
      start < stop := by
  constructor
  · intro hlt
    by_contra hle
    exact Position.not_lt.2 (LineIndex.position_le hstop hstart (Nat.not_lt.1 hle)) hlt
  · intro hlt
    obtain ⟨before, text, after, rfl, rfl, rfl⟩ := hstart.le_cases hstop (Nat.le_of_lt hlt)
    rw [LineIndex.position_size before, ← List.append_assoc,
      LineIndex.position_size (before ++ text)]
    refine Position.after_lt_append before fun hnone => ?_
    rw [hnone, List.append_nil] at hlt
    exact Nat.lt_irrefl _ hlt

/-- The location of a piece of a text is told by what is before its two ends. -/
theorem LineIndex.locate_piece (name : Option String) (before text after : List Char) :
    (LineIndex.ofChars (before ++ (text ++ after))).locate name
      ⟨Text.size before, Text.size (before ++ text)⟩ =
      ⟨name, Position.after before, Position.after (before ++ text)⟩ := by
  have hstop := LineIndex.position_size (before ++ text) after
  rw [List.append_assoc] at hstop
  rw [LineIndex.locate, LineIndex.position_size before, hstop]

/-! ## Lines -/

/-- One more character on the first line takes no line away. -/
theorem exists_line_cons {c : Char} {piece : List Char} {pieces : List (List Char)} {n : Nat}
    (h : ∃ line, (lines.go (piece :: pieces))[n]? = some line) :
    ∃ line, (lines.go ((c :: piece) :: pieces))[n]? = some line := by
  cases pieces with
  | nil =>
    obtain ⟨line, hline⟩ := h
    have hn : n < (lines.go [piece]).length := (List.getElem?_eq_some_iff.1 hline).1
    have hlength : (lines.go [piece]).length ≤ 1 := by
      rw [lines.go]
      split <;> simp
    obtain rfl : n = 0 := by omega
    exact ⟨c :: piece, rfl⟩
  | cons next pieces =>
    cases n with
    | zero => exact ⟨_, rfl⟩
    | succ n => exact h

/-- A place before the end of a text is on one of its lines, which the line feeds before it
count. -/
theorem exists_line {before rest : List Char} (h : rest ≠ []) :
    ∃ line, (lines (before ++ rest))[before.count '\n']? = some line := by
  rw [lines]
  induction before with
  | nil =>
    obtain ⟨c, cs, rfl⟩ := List.exists_cons_of_ne_nil h
    obtain ⟨piece, pieces, hpieces⟩ := List.exists_cons_of_ne_nil (splitOn_ne_nil '\n' cs)
    rw [List.nil_append, splitOn, hpieces]
    split
    · exact ⟨_, rfl⟩
    · cases pieces with
      | nil => exact ⟨c :: piece, rfl⟩
      | cons next pieces => exact ⟨_, rfl⟩
  | cons c before ih =>
    obtain ⟨piece, pieces, hpieces⟩ :=
      List.exists_cons_of_ne_nil (splitOn_ne_nil '\n' (before ++ rest))
    rw [hpieces] at ih
    rw [List.cons_append, splitOn, hpieces, List.count_cons]
    by_cases hc : c = '\n'
    · rw [if_pos hc, if_pos (by simpa using hc)]
      exact ih
    · rw [if_neg hc, if_neg (by simpa using hc)]
      exact exists_line_cons ih

end Stencil.Text
