import Stencil.Syntax.Frame
import Stencil.Proofs.Syntax.Bodies

/-!
# Locations of nodes and of errors

The locations of the nodes of a tree lie within each other, as the spans do that they were found for
(`readAsWritten_arranged`). An error is located where its piece of the template is, and a frame
shows the line on which that starts, with the carets right under it (`errors_placed`).
-/

set_option autoImplicit false

namespace Stencil

open Stencil.Text
open Stencil.Tree (Arrangement Program)

/-! ## Nodes -/

/-- How the locations of nodes lie. A node without a location lies nowhere. -/
def Tree.locations : Arrangement (Option Location) where
  proper mark := ∃ l ∈ mark, l.start ≤ l.stop
  within inner outer := ∃ l ∈ inner, ∃ k ∈ outer, k.start ≤ l.start ∧ l.stop ≤ k.stop
  before first second := ∃ l ∈ first, ∃ k ∈ second, l.stop ≤ k.start

/-- Locations lie as their spans do. -/
theorem keeps_locate (source : List Char) (name : Option String) :
    (Syntax.spans source).Keeps Tree.locations fun s =>
      some ((LineIndex.ofChars source).locate name s) where
  proper := by
    rintro s ⟨hle, hstart, hstop⟩
    exact ⟨_, rfl, LineIndex.position_le hstart hstop hle⟩
  within := by
    rintro inner outer ⟨-, hstart, hstop⟩ ⟨-, hstart', hstop'⟩ ⟨hfirst, hlast⟩
    exact ⟨_, rfl, _, rfl, LineIndex.position_le hstart' hstart hfirst,
      LineIndex.position_le hstop hstop' hlast⟩
  before := by
    rintro first second ⟨-, -, hstop⟩ ⟨-, hstart, -⟩ hbefore
    exact ⟨_, rfl, _, rfl, LineIndex.position_le hstop hstart hbefore⟩

namespace Template

/-- In the tree of a template that is read with locations every node starts no later than it ends
and lies within the one around it, the statements of every program come one after the other, and the
root is located at the whole template. -/
theorem readAsWritten_arranged {options : ReadOptions} {source : String} {tree : Tree.Located}
    (htrack : options.trackLocations = true) (h : readAsWritten options source = .ok tree) :
    tree.Arranged Tree.locations ∧
      tree.mark = some ⟨options.sourceName, ⟨1, 0⟩, Position.after source.toList⟩ := by
  obtain ⟨root, hread, rfl⟩ := readAsWritten_eq_ok_iff.1 h
  obtain ⟨ts, htokens, htree⟩ := Syntax.read?_eq_ok_iff.1 hread
  obtain ⟨harranged, hmark⟩ := Syntax.arranged_of_template? (Syntax.laid_of_tokens? htokens) htree
  simp only [htrack, if_true]
  refine ⟨harranged.mapMark (keeps_locate _ _), ?_⟩
  -- The root is located as the piece of the template that is all of it.
  have hwhole := LineIndex.locate_piece options.sourceName [] source.toList []
  rw [List.nil_append, List.nil_append, List.append_nil] at hwhole
  rw [Tree.Program.mark_mapMark, hmark]
  exact congrArg some hwhole

/-- A block with a chained section over several lines, a raw block, and a partial with a data path
and a named argument. -/
theorem readAsWritten_arranged_manyLines :
    let source :=
      "\x7b\x7b#if a.b\x7d\x7d\n x \x7b\x7belse with (f @root) as |r|\x7d\x7d\n" ++
      "\x7b\x7b/if\x7d\x7d" ++
      "\x7b\x7b\x7b\x7braw\x7d\x7d\x7d\x7dt\x7b\x7b\x7b\x7b/raw\x7d\x7d\x7d\x7d" ++
      "\x7b\x7b> p @key n=(g h)\x7d\x7d"
    let options : ReadOptions := { sourceName := some "page" }
    options.trackLocations = true ∧ ∃ tree, readAsWritten options source = .ok tree ∧
      tree.body.length = 3 ∧
      tree.Arranged Tree.locations ∧ tree.mark = some ⟨some "page", ⟨1, 0⟩, ⟨3, 51⟩⟩ := by
  intro source options
  have hread : (readAsWritten options source).toOption.map
      (fun tree => (tree.body.length, tree.mark)) =
      some (3, some ⟨some "page", ⟨1, 0⟩, ⟨3, 51⟩⟩) := by decide +kernel
  cases htree : readAsWritten options source with
  | error e =>
    rw [htree] at hread
    cases hread
  | ok tree =>
    rw [htree] at hread
    obtain ⟨hlength, hmark⟩ := Prod.mk.inj (Option.some.inj hread)
    exact ⟨rfl, tree, rfl, hlength, (readAsWritten_arranged rfl htree).1, hmark⟩

end Template

/-! ## Frames -/

/-- A text shows a line by its number, with some carets under it from a column on. -/
def Shows (frame : String) (number : Nat) (line : List Char) (column : Nat) : Prop :=
  ∃ above below carets, 0 < carets ∧
    frame = above ++ "\n" ++ (Syntax.lineNumber number ++ " | " ++ String.ofList line ++ "\n") ++
      ("      | " ++ "".pushn ' ' column ++ "".pushn '^' carets ++ "\n") ++ below

/-- Whole lines after a line end a text as a line does. -/
theorem exists_append_lines (head : String) (texts : List String) :
    ∃ above, head ++ "\n" ++ String.join (texts.map (· ++ "\n")) = above ++ "\n" := by
  rcases List.eq_nil_or_concat texts with rfl | ⟨texts, text, rfl⟩
  · exact ⟨head, String.append_empty⟩
  · refine ⟨head ++ "\n" ++ String.join (texts.map (· ++ "\n")) ++ text, ?_⟩
    rw [List.concat_eq_append, List.map_append, String.join_append, List.map_singleton,
      String.join_cons, String.join_nil, String.append_empty]
    simp only [String.append_assoc]

/-- The last of the lines before and up to a line is that line. -/
theorem contextLines_eq {source line : List Char} {n first : Nat}
    (hline : (lines source)[n]? = some line) (hfirst : 1 ≤ first) (hlast : first ≤ n + 1)
    (o : Syntax.FrameOptions) (gutter : String) :
    ∃ texts : List String, Syntax.contextLines o gutter first (n + 1) source =
      String.join (texts.map (· ++ "\n")) ++
        (Syntax.lineNumber (n + 1) ++ " " ++ gutter ++ " " ++ String.ofList line ++ "\n") := by
  obtain ⟨k, rfl⟩ : ∃ k, first = k + 1 := ⟨first - 1, by omega⟩
  obtain ⟨m, rfl⟩ : ∃ m, n = k + m := ⟨n - k, by omega⟩
  let shown := ((lines source).drop k).take m
  let showLine (i : Nat) (line : List Char) : String :=
    let text := String.ofList line
    Syntax.lineNumber (k + 1 + i) ++ " " ++ gutter ++ " " ++
      (if k + 1 + i = k + m + 1 then text else o.paint .dimmed text)
  have hlength : shown.length = m := by
    have hlt := (List.getElem?_eq_some_iff.1 hline).1
    simp only [shown, List.length_take, List.length_drop]
    omega
  -- The lines that are shown are some before the line, and the line itself.
  have hshown : ((lines source).drop k).take (k + m + 1 - (k + 1) + 1) = shown ++ [line] := by
    rw [show k + m + 1 - (k + 1) = m by omega, List.take_add_one, List.getElem?_drop, hline]
    rfl
  refine ⟨shown.mapIdx showLine, ?_⟩
  rw [Syntax.contextLines, Nat.add_sub_cancel, hshown, List.mapIdx_append, String.join_append,
    List.mapIdx_singleton, String.join_cons, String.join_nil, String.append_empty, hlength]
  have hbefore : (shown.mapIdx showLine).map (· ++ "\n") = shown.mapIdx fun i line =>
      showLine i line ++ "\n" := by
    rw [List.mapIdx_eq_zipIdx_map, List.mapIdx_eq_zipIdx_map, List.map_map]
    rfl
  -- The number of the last line is the one that is not dimmed.
  have hnumber : k + 1 + (0 + m) = k + m + 1 := by omega
  rw [hbefore]
  simp only [hnumber, if_pos]
  rfl

theorem caretCount_pos (e : Syntax.Error) (source : List Char) :
    0 < Syntax.caretCount e source := by
  unfold Syntax.caretCount
  split
  · split
    · exact Nat.lt_of_lt_of_le Nat.zero_lt_one (Nat.le_max_left _ _)
    · exact Nat.zero_lt_one
  · exact Nat.zero_lt_one

/-- A frame without colours shows the line on which its error starts. -/
theorem shows_frame {o : Syntax.FrameOptions} (hcolours : o.colours = false)
    (hcontext : o.showContext = true) {e : Syntax.Error} {source : String} {line : List Char}
    {n : Nat} (hstart : e.location.start.line = n + 1)
    (hline : (lines source.toList)[n]? = some line) :
    Shows (e.frame o source) (n + 1) line e.location.start.column := by
  have hpaint : ∀ ink text, o.paint ink text = text := by
    intro ink text
    rw [Syntax.FrameOptions.paint, hcolours]
    rfl
  have hbar : " " ++ "|" ++ " " = " | " := by decide
  have hgap : "      " ++ "|" ++ " " = "      | " := by decide
  obtain ⟨texts, htexts⟩ :=
    contextLines_eq hline (Nat.le_max_left 1 (n + 1 - o.contextLines)) (by omega) o "|"
  let head :=
    "error" ++ ": " ++ e.cause.title ++ "\n" ++ "  +--> " ++ e.location.text ++ "\n" ++ "  " ++ "|"
  obtain ⟨above, habove⟩ := exists_append_lines head texts
  let notes :=
    e.related.map fun r => "  = " ++ "note" ++ ": " ++ r.message ++ " (" ++ r.location.text ++ ")\n"
  refine ⟨above, "  " ++ "|" ++ " " ++ e.cause.message ++ "\n" ++ String.join notes, _,
    caretCount_pos e source.toList, ?_⟩
  rw [← habove, ← hbar, ← hgap]
  unfold Syntax.Error.frame
  simp only [hpaint, hcontext, if_true, hstart, htexts, head, notes, String.append_assoc]

/-! ## Errors -/

namespace Template

/-- A span and a location tell the same piece of a source, which starts before the source ends. -/
structure Placed (source : String) (name : Option String) (span : Span) (location : Location) :
    Prop where
  ordered : span.start ≤ span.stop
  starts : span.start < size source.toList
  ends : span.stop ≤ size source.toList
  piece : ∃ before text after, source.toList = before ++ (text ++ after) ∧
    span = ⟨size before, size (before ++ text)⟩ ∧
    location = ⟨name, Position.after before, Position.after (before ++ text)⟩

theorem placed_of_holds {source : String} {span : Span}
    (h : (⟨0, source.toList⟩ : Syntax.Rest).Holds span) (name : Option String) :
    Placed source name span ((LineIndex.ofChars source.toList).locate name span) := by
  obtain ⟨before, text, after, hsource, hsome, rfl⟩ := h
  dsimp only at hsource
  have hpos := lt_size_of_ne_nil hsome
  rw [size_append] at hpos
  refine ⟨?_, ?_, ?_, before, text, after, hsource, ?_, ?_⟩
  · simp
  · simp [hsource]
    omega
  · simp [hsource]
  · simp
  · rw [hsource]
    simp only [Nat.zero_add]
    exact LineIndex.locate_piece name before text after

/-- A piece starts on a line of the source. -/
theorem Placed.exists_line {source : String} {name : Option String} {span : Span}
    {location : Location} (h : Placed source name span location) :
    ∃ n line, location.start.line = n + 1 ∧ (lines source.toList)[n]? = some line := by
  obtain ⟨before, text, after, hsource, rfl, rfl⟩ := h.piece
  have hsome : text ++ after ≠ [] := by
    intro hnone
    have hstarts := h.starts
    rw [hsource, hnone, List.append_nil] at hstarts
    exact Nat.lt_irrefl _ hstarts
  have hexists : ∃ line, (lines (before ++ (text ++ after)))[before.count '\n']? = some line :=
    Text.exists_line hsome
  obtain ⟨line, hline⟩ := hexists
  rw [← hsource] at hline
  exact ⟨before.count '\n', line, rfl, hline⟩

/-- Reading fails as it does before white space is settled. -/
theorem read_eq_error_iff {options : ReadOptions} {source : String} {e : Syntax.Error} :
    read options source = .error e ↔ readAsWritten options source = .error e := by
  rw [read]
  cases readAsWritten options source with
  | error f => exact Iff.rfl
  | ok tree => exact ⟨nofun, nofun⟩

/-- A fault of the scanner and one of the grammar are about pieces of the template. -/
theorem holds_of_read? {source : List Char} {f : Syntax.Fault}
    (h : Syntax.read? source = .error f) :
    (⟨0, source⟩ : Syntax.Rest).Holds f.span ∧
      ∀ r ∈ f.related, (⟨0, source⟩ : Syntax.Rest).Holds r.1 := by
  rcases Syntax.read?_eq_error_iff.1 h with htokens | ⟨ts, htokens, htree⟩
  · have hfaults := Syntax.faults_of_tokens? htokens
    refine ⟨hfaults.span, ?_⟩
    rw [hfaults.related]
    exact List.forall_mem_nil _
  · have hsound := Syntax.sound_of_template? (Syntax.laid_of_tokens? htokens) htree
    exact ⟨hsound.span, hsound.related⟩

/-- An error and all that explains it are placed in the template that cannot be read, and a frame
without colours shows the line on which the error starts. -/
theorem errors_placed {options : ReadOptions} {source : String} {e : Syntax.Error}
    (h : read options source = .error e) :
    Placed source options.sourceName e.span e.location ∧
      (∀ r ∈ e.related, Placed source options.sourceName r.span r.location) ∧
      ∃ n line, e.location.start.line = n + 1 ∧ (lines source.toList)[n]? = some line ∧
        ∀ contextLines,
          Shows (e.frame { contextLines, colours := false } source)
            (n + 1) line e.location.start.column := by
  obtain ⟨f, hread, rfl⟩ := readAsWritten_eq_error_iff.1 (read_eq_error_iff.1 h)
  obtain ⟨hspan, hrelated⟩ := holds_of_read? hread
  have hplaced := placed_of_holds hspan options.sourceName
  refine ⟨hplaced, ?_, ?_⟩
  · intro r hr
    obtain ⟨p, hp, rfl⟩ := List.mem_map.1 hr
    exact placed_of_holds (hrelated p hp) options.sourceName
  · obtain ⟨n, line, hstart, hline⟩ := hplaced.exists_line
    exact ⟨n, line, hstart, hline, fun _ => shows_frame rfl rfl hstart hline⟩

/-- A block that is closed by another name: the error is placed at the closing tag on the second
line, and what explains it at the opening tag on the first. -/
theorem errors_placed_mismatch :
    let source := "\x7b\x7b#if a\x7d\x7d\n \x7b\x7b/each\x7d\x7d"
    ∃ e, read { sourceName := some "page" } source = .error e ∧ e.span = ⟨11, 20⟩ ∧
      e.related.length = 1 ∧
      Placed source (some "page") e.span e.location ∧
      (∀ r ∈ e.related, Placed source (some "page") r.span r.location) ∧
      ∃ n line, e.location.start.line = n + 1 ∧ (lines source.toList)[n]? = some line ∧
        ∀ contextLines,
          Shows (e.frame { contextLines, colours := false } source)
            (n + 1) line e.location.start.column := by
  intro source
  have hread : ((read { sourceName := some "page" } source).map fun _ => ()).mapError
      (fun e => (e.span, e.related.length)) =
      .error (⟨11, 20⟩, 1) := by decide +kernel
  cases herror : read { sourceName := some "page" } source with
  | ok tree =>
    rw [herror] at hread
    cases hread
  | error e =>
    rw [herror] at hread
    obtain ⟨hspan, hlength⟩ := Prod.mk.inj (Except.error.inj hread)
    obtain ⟨hplaced, hrelated, hframe⟩ := errors_placed herror
    exact ⟨e, rfl, hspan, hlength, hplaced, hrelated, hframe⟩

end Template

end Stencil
