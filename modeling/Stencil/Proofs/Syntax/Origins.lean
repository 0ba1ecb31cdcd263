import Stencil.Proofs.Syntax.Following

/-!
# Where the paths of a tree come from

Every path of a tree is what some tokens in a row come to, from its first segment to where it goes
on no more (`Written.Makes`), or it stands for one token: a literal in the place of a name, or the
closing tag of a raw block (`Origin`). What a path comes to is read off its segments: how often it
climbs, its parts and its spelling (`paths_asWritten`).
-/

set_option autoImplicit false

namespace Stencil.Syntax

open Stencil.Text
open Stencil.Tree

/-- A path is what is written at some place in the tokens of a template. -/
structure Written.Makes (w : Written) (ts : List Token) (p : Path Span) : Prop where
  /-- Names and separators stand there one after the other, and nothing goes on with them. A sign
  stands before them if it is a data path. -/
  stands : w.Runs ∧ ∃ before after, ts = before ++ w.tokens ++ after ∧ Stops w.last after ∧
    (p.data = true → ∃ t, before.getLast? = some t ∧ t.kind = .at)
  /-- The path climbs as often as two points stand there outside brackets. -/
  depth : p.depth = w.segments.countP Token.climbs
  /-- The parts are the names of all segments but the words that stand for a context. -/
  parts : p.parts = (w.segments.filter fun t => !t.isScope).map fun t => String.ofList t.segment
  /-- Words that stand for a context come before the first part. -/
  orderly : w.Orderly
  /-- The spelling is that of the segments with their separators, after a sign if it is a data
  path. -/
  spelling : p.spelling = String.ofList (w.spelling p.data)
  mark : p.mark = w.first.to w.last

/-- Where a path comes from. -/
inductive Origin (ts : List Token) (p : Path Span) : Prop
  | written (w : Written) (makes : w.Makes ts p)
  | literal (t : Token) (mem : t ∈ ts) (kind : t.kind.isLiteral = true) (mark : p.mark = t.span)
  | ending (t : Token) (mem : t ∈ ts) (kind : t.kind = .endRaw) (mark : p.mark = t.span)

variable {ts : List Token}

theorem exists_before_of_on {c : Cursor} (h : c.On ts) : ∃ before, ts = before ++ c.tokens := by
  obtain ⟨before, hbefore⟩ := h
  exact ⟨before, hbefore.symm⟩

/-- What is read as a path is what is written where it is read. -/
theorem origin_of_path (hts : Proper ts) {data : Bool} {c : Cursor} {p : Path Span} {c' : Cursor}
    (hc : c.On ts) (sign : data = true → ∃ before t, ts = before ++ t :: c.tokens ∧ t.kind = .at)
    (h : path data c = .ok (p, c')) : Origin ts p ∧ c'.On ts := by
  obtain ⟨w, runs, orderly, htokens, stops, rfl⟩ := path_ok data (hc.proper hts) h
  obtain ⟨before, hbefore⟩ := exists_before_of_on hc
  have hwhole : ts = before ++ w.tokens ++ c'.tokens := by rw [hbefore, htokens, List.append_assoc]
  refine ⟨.written w ⟨⟨runs, before, c'.tokens, hwhole, stops, fun hdata => ?_⟩, rfl, rfl, orderly,
    rfl, rfl⟩, ⟨before ++ w.tokens, hwhole.symm⟩⟩
  obtain ⟨front, t, hfront, hkind⟩ := sign hdata
  have hsame : before = front ++ [t] := by
    refine List.append_cancel_right (hbefore.symm.trans ?_)
    rw [hfront, List.append_assoc]
    rfl
  exact ⟨t, by rw [hsame, List.getLast?_concat], hkind⟩

/-- Where a path comes from is a matter of where it is read. -/
theorem pathRules_origin (hts : Proper ts) : PathRules ts (Origin ts) where
  path c p c' hc h := origin_of_path hts hc (fun hdata => absurd hdata Bool.false_ne_true) h
  data c p c' hc hkind h := by
    refine origin_of_path hts hc.advance (fun _ => ?_) h
    obtain ⟨before, hbefore⟩ := exists_before_of_on hc
    refine ⟨before, c.here, ?_, hkind⟩
    rw [hbefore, c.advance_tokens (hc.proper hts) (by rw [hkind]; exact TokenKind.noConfusion)]
  literal t ht hkind _ := .literal t ht hkind rfl
  ending t ht hkind := .ending t ht hkind rfl

/-- Every path of a tree comes from the tokens of its source. -/
theorem origins_of_read? {source : List Char} {tree : Program Span} (h : read? source = .ok tree) :
    ∃ ts, tokens? source = .ok ts ∧ Proper ts ∧ ∀ q ∈ tree.pathsThroughout, Origin ts q := by
  rw [read?] at h
  split at h
  · cases h
  rename_i ts htokens
  have hts := proper_of_tokens? htokens
  have htold : tree.Every (Told (Origin ts)) := by
    refine (pathRules_origin hts).of_template? h ?_
    rintro rfl
    obtain ⟨t, hlast, -⟩ := hts.ended
    cases hlast
  refine ⟨ts, htokens, hts, fun q hq => ?_⟩
  obtain ⟨s, hs, hq⟩ := List.mem_flatMap.1 hq
  exact Program.every_iff_statements.1 htold s hs q hq

end Stencil.Syntax

namespace Stencil.Template

open Stencil.Syntax
open Stencil.Text (LineIndex Location Span)
open Stencil.Tree (Path Statement Program)

/-- Where a node of the tree of a template is located, if locations are wanted. -/
def locate (options : ReadOptions) (source : String) (span : Span) : Option Location :=
  if options.trackLocations then
    some ((LineIndex.ofChars source.toList).locate options.sourceName span)
  else none

/-- Every path of the tree of a template is one of the tree that was read, with its mark located,
and comes from the tokens of the source as that one does. -/
theorem origins_of_read {options : ReadOptions} {source : String} {tree : Tree.Located}
    (h : read options source = .ok tree) :
    ∃ ts spanned, tokens? source.toList = .ok ts ∧ Syntax.read? source.toList = .ok spanned ∧
      Proper ts ∧
      ∀ P : Path (Option Location) → Prop,
        (∀ q ∈ spanned.pathsThroughout, Origin ts q → P (q.mapMark (locate options source))) →
          tree.Every fun s => ∀ p ∈ s.pathsWithin, P p := by
  simp only [read, readAsWritten] at h
  split at h
  · cases h
  rename_i spanned hread
  cases h
  obtain ⟨ts, htokens, hts, horigins⟩ := origins_of_read? hread
  refine ⟨ts, spanned, htokens, hread, hts, fun P hP => ?_⟩
  rw [Program.every_layout fun s => by rw [Statement.pathsWithin_bare]]
  have hlisted : spanned.Every (· ∈ spanned.statements) :=
    Program.every_iff_statements.2 fun s hs => hs
  refine hlisted.mapMark fun s hs p hp => ?_
  rw [Statement.pathsWithin_mapMark] at hp
  obtain ⟨q, hq, rfl⟩ := List.mem_map.1 hp
  have hmem : q ∈ spanned.pathsThroughout := List.mem_flatMap.2 ⟨s, hs, hq⟩
  exact hP q hmem (horigins q hmem)

/-- Every path of the tree of a template is one of the tree as it was read, with spans for
locations, which may be dropped. If it was written as a path, it is made of its segments: it climbs
as often as two points stand there, its parts are the other segments, and its spelling is that of
the segments with their own separators. Conversely no path is read where a word that stands for a
context comes after a name, or where a separator is not followed by a segment. -/
theorem paths_asWritten (source : String) :
    (∀ (options : ReadOptions) (tree : Tree.Located), read options source = .ok tree →
      ∃ ts spanned, tokens? source.toList = .ok ts ∧ Syntax.read? source.toList = .ok spanned ∧
        tree.Every fun s => ∀ p ∈ s.pathsWithin,
          ∃ q ∈ spanned.pathsThroughout, Origin ts q ∧ p = q.mapMark (locate options source)) ∧
      ∀ ts, tokens? source.toList = .ok ts →
        ∀ (c : Cursor) (w : Written) (after : List Token), c.On ts →
        w.Runs → c.tokens = w.tokens ++ after → (¬ w.Orderly ∨ Dangles w.last after) → ∀ data,
          ∃ f spelled, path data c = .error f ∧ f.cause = .invalidPath spelled := by
  refine ⟨fun options tree h => ?_, fun ts htokens c w after hc runs hafter bad data => ?_⟩
  · obtain ⟨ts, spanned, htokens, hread, -, hevery⟩ := origins_of_read h
    exact ⟨ts, spanned, htokens, hread, hevery _ fun q hq horigin => ⟨q, hq, horigin, rfl⟩⟩
  · have proper := hc.proper (proper_of_tokens? htokens)
    have hinvalid : ∃ spelled stop,
        path data c = .error (invalidPath spelled c.here.start stop) := by
      rcases bad with horder | hdangles
      · exact path_invalid_of_not_orderly data proper runs hafter horder
      · exact path_invalid_of_dangles data proper runs hafter hdangles
    obtain ⟨spelled, stop, hpath⟩ := hinvalid
    exact ⟨_, _, hpath, rfl⟩

/-- A path that climbs out of a bracketed segment is as it is written, and one that climbs after a
name is invalid. -/
theorem paths_asWritten_climbing :
    (∃ tree ts spanned, read {} "\x7b\x7b../a.[..]\x7d\x7d" = .ok tree ∧
        tokens? "\x7b\x7b../a.[..]\x7d\x7d".toList = .ok ts ∧
        Syntax.read? "\x7b\x7b../a.[..]\x7d\x7d".toList = .ok spanned ∧
        tree.Every fun s => ∀ p ∈ s.pathsWithin, ∃ q ∈ spanned.pathsThroughout,
          Origin ts q ∧ p = q.mapMark (locate {} "\x7b\x7b../a.[..]\x7d\x7d")) ∧
      ∃ f spelled,
        path false ⟨⟨.openMustache, 0, openBraces⟩, ⟨.name, 2, ['a']⟩,
          [⟨.separator, 3, ['/']⟩, ⟨.name, 4, ['.', '.']⟩, ⟨.close, 6, closeBraces⟩,
            ⟨.eof, 8, []⟩]⟩ = .error f ∧
          f.cause = .invalidPath spelled := by
  constructor
  · have hread : ((read {} "\x7b\x7b../a.[..]\x7d\x7d").toOption.any fun _ => true) = true := by
      decide +kernel
    cases htree : read {} "\x7b\x7b../a.[..]\x7d\x7d" with
    | error e => rw [htree] at hread; cases hread
    | ok tree =>
      obtain ⟨ts, spanned, htokens, hspanned, hevery⟩ := (paths_asWritten _).1 {} tree htree
      exact ⟨tree, ts, spanned, rfl, htokens, hspanned, hevery⟩
  · let ts : List Token :=
      [⟨.openMustache, 0, openBraces⟩, ⟨.name, 2, ['a']⟩, ⟨.separator, 3, ['/']⟩,
        ⟨.name, 4, ['.', '.']⟩, ⟨.close, 6, closeBraces⟩, ⟨.eof, 8, []⟩]
    let w : Written := ⟨⟨.name, 2, ['a']⟩, [(⟨.separator, 3, ['/']⟩, ⟨.name, 4, ['.', '.']⟩)]⟩
    have htokens : tokens? "\x7b\x7ba/..\x7d\x7d".toList = .ok ts := by
      have hsome : (tokens? "\x7b\x7ba/..\x7d\x7d".toList).toOption = some ts := by decide +kernel
      cases heq : tokens? "\x7b\x7ba/..\x7d\x7d".toList with
      | error e => rw [heq] at hsome; cases hsome
      | ok ts' => rw [heq] at hsome; exact congrArg _ (Option.some.inj hsome)
    have runs : w.Runs := ⟨rfl, .cons rfl rfl rfl rfl (.nil _)⟩
    have disorderly : ¬ w.Orderly := by
      unfold Written.Orderly
      decide
    exact (paths_asWritten "\x7b\x7ba/..\x7d\x7d").2 ts htokens _ w
      [⟨.close, 6, closeBraces⟩, ⟨.eof, 8, []⟩] ⟨[⟨.openMustache, 0, openBraces⟩], rfl⟩ runs rfl
      (.inl disorderly) false

end Stencil.Template
