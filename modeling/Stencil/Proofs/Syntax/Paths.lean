import Stencil.Proofs.Syntax.Covering
import Stencil.Proofs.Syntax.Segments

/-!
# Paths as they are written

A path is written as a first segment and further ones, each after its separator, without blanks
(`Written`). What it comes to is a matter of its segments alone (`Written.path`). The reader of
paths reads a path as it is written to where it goes on no more, and gives what it comes to
(`path_ok`, `path_of_stops`), if no word that stands for a context comes after a name. A path that
has such a word, that ends with a separator or runs into another name is invalid
(`path_invalid_of_not_orderly`, `path_invalid_of_dangles`).
-/

set_option autoImplicit false

namespace Stencil.Syntax

open Stencil.Text
open Stencil.Tree (Path)

/-! ## Cursors on the tokens of a template -/

/-- Tokens as those of a template are: of known form, not empty but for the last one, which is the
end. -/
structure Proper (ts : List Token) : Prop where
  formed : ∀ t ∈ ts, t.Formed
  sized : ∀ t ∈ ts, t.kind ≠ .eof → t.start < t.stop
  ended : ∃ t, ts.getLast? = some t ∧ t.kind = .eof

theorem Proper.of_suffix {ts us : List Token} (h : Proper ts) (hsuffix : us <:+ ts)
    (hsome : us ≠ []) :
    Proper us where
  formed t ht := h.formed t (hsuffix.subset ht)
  sized t ht := h.sized t (hsuffix.subset ht)
  ended := by
    obtain ⟨t, hlast, hkind⟩ := h.ended
    obtain ⟨before, rfl⟩ := hsuffix
    rw [List.getLast?_append, List.getLast?_eq_some_getLast hsome] at hlast
    exact ⟨t, (List.getLast?_eq_some_getLast hsome).trans hlast, hkind⟩

theorem proper_of_tokens? {source : List Char} {ts : List Token} (h : tokens? source = .ok ts) :
    Proper ts := by
  obtain ⟨tokens, left, rfl, hcovers, -⟩ := pieces_covers (r := ⟨0, source⟩) (Nat.le_refl _) h
  refine ⟨formed_of_tokens? h, fun t ht hkind => ?_, _, List.getLast?_concat .., rfl⟩
  rcases List.mem_append.1 ht with ht | ht
  · obtain ⟨groups, -, rfl, hpasses⟩ := hcovers
    obtain ⟨p, hp, rfl⟩ := List.mem_map.1 ht
    exact Nat.lt_add_of_pos_right (lt_size_of_ne_nil (hpasses.text_ne_nil p hp))
  · rw [List.mem_singleton.1 ht] at hkind
    exact absurd rfl hkind

namespace Cursor

/-- The tokens from the cursor on. -/
def tokens (c : Cursor) : List Token := c.here :: c.rest

/-- The cursor stands in the middle of some tokens. -/
def On (ts : List Token) (c : Cursor) : Prop := c.tokens <:+ ts

variable {ts : List Token} {c : Cursor}

theorem On.proper (h : c.On ts) (hts : Proper ts) : Proper c.tokens :=
  hts.of_suffix h (List.cons_ne_nil _ _)

theorem On.here_mem (h : c.On ts) : c.here ∈ ts := h.subset List.mem_cons_self

theorem tokens_advance (c : Cursor) : c.advance.tokens <:+ c.tokens := by
  obtain ⟨prev, here, rest⟩ := c
  cases rest with
  | nil => exact List.suffix_refl _
  | cons t rest => exact List.suffix_cons _ _

theorem On.advance (h : c.On ts) : c.advance.On ts := (tokens_advance c).trans h

/-- Only at the end is there no further token. -/
theorem advance_tokens (h : Proper c.tokens) (hkind : c.kind ≠ .eof) :
    c.tokens = c.here :: c.advance.tokens := by
  obtain ⟨prev, here, rest⟩ := c
  cases rest with
  | nil =>
    obtain ⟨t, hlast, ht⟩ := h.ended
    cases hlast
    exact absurd ht hkind
  | cons t rest => rfl

end Cursor

/-! ## Runs of segments -/

/-- A path as it is written. -/
structure Written where
  first : Token
  /-- The segments after the first one, each with the separator before it. -/
  more : List (Token × Token)

/-- Separators and segments go on after a token, with nothing in between. -/
inductive GoesOn : Token → List (Token × Token) → Prop
  | nil (last : Token) : GoesOn last []
  | cons {last separator segment : Token} {more : List (Token × Token)}
    (kind : separator.kind = .separator) (start : separator.start = last.stop)
    (segmentKind : segment.kind = .name) (segmentStart : segment.start = separator.stop)
    (rest : GoesOn segment more) :
    GoesOn last ((separator, segment) :: more)

/-- The tokens of separators and segments. -/
def tokensOf (more : List (Token × Token)) : List Token := more.flatMap fun m => [m.1, m.2]

theorem tokensOf_cons (m : Token × Token) (more : List (Token × Token)) :
    tokensOf (m :: more) = m.1 :: m.2 :: tokensOf more := rfl

/-- The last of some segments, or one before them. -/
def lastOf (last : Token) : List (Token × Token) → Token
  | [] => last
  | m :: more => lastOf m.2 more

/-- What follows a token does not go on with the path that the token ends. -/
def Stops (last : Token) (after : List Token) : Prop :=
  ∀ next ∈ after.head?, next.start = last.stop → next.kind ≠ .separator ∧ next.kind ≠ .name

/-- What goes on to a stop begins with whatever goes on from the same token. -/
theorem GoesOn.prefix_of_stops {last : Token} {more whole : List (Token × Token)}
    {after rest : List Token} (h : GoesOn last more) (hwhole : GoesOn last whole)
    (stops : Stops (lastOf last whole) rest)
    (same : tokensOf more ++ after = tokensOf whole ++ rest) : more <+: whole := by
  induction h generalizing whole with
  | nil => exact List.nil_prefix
  | @cons last separator segment more kind start segmentKind segmentStart _ ih =>
    cases hwhole with
    | nil =>
      have hrest : separator ∈ rest.head? := by
        rw [show rest = separator :: (segment :: tokensOf more ++ after) from same.symm]
        rfl
      exact absurd kind (stops separator hrest start).1
    | cons _ _ _ _ hgoes =>
      simp only [tokensOf_cons, List.cons_append] at same
      obtain ⟨rfl, htail⟩ := List.cons.inj same
      obtain ⟨rfl, hrest⟩ := List.cons.inj htail
      exact List.cons_prefix_cons.2 ⟨rfl, ih hgoes stops hrest⟩

/-- What follows a token goes on with the path that the token ends, but not with a separator and a
segment. -/
def Dangles (last : Token) (after : List Token) : Prop :=
  ∃ next behind, after = next :: behind ∧ next.start = last.stop ∧
    (next.kind = .name ∨
      next.kind = .separator ∧ ∀ t ∈ behind.head?, t.kind ≠ .name ∨ t.start ≠ next.stop)

theorem tokensOf_append (more extra : List (Token × Token)) :
    tokensOf (more ++ extra) = tokensOf more ++ tokensOf extra := List.flatMap_append

theorem GoesOn.of_append {last : Token} {more extra : List (Token × Token)}
    (h : GoesOn last (more ++ extra)) :
    GoesOn (lastOf last more) extra := by
  induction more generalizing last with
  | nil => exact h
  | cons m more ih =>
    cases h with
    | cons _ _ _ _ rest => exact ih rest

namespace Written

variable (w : Written)

/-- The segments of the path. -/
def segments : List Token := w.first :: w.more.map Prod.snd

/-- The tokens of the path, a sign before it aside. -/
def tokens : List Token := w.first :: tokensOf w.more

/-- The last token of the path. -/
def last : Token := lastOf w.first w.more

/-- The path is made of names and separators without blanks. -/
structure Runs : Prop where
  first : w.first.kind = .name
  more : GoesOn w.first w.more

/-- No word that stands for a context comes after a name. -/
def Orderly : Prop :=
  w.segments.Pairwise fun before after => after.isScope = true → before.isScope = true

/-- How the path is spelled: the names of the segments with their own separators, after a sign if it
is a data path. -/
def spelling (data : Bool) : List Char :=
  (if data then ['@'] else []) ++ w.first.segment ++ w.more.flatMap fun m => m.1.text ++ m.2.segment

/-- What the path comes to: it climbs as often as it says so, and its parts are the segments that do
not stand for a context. -/
def path (data : Bool) : Path Span where
  data
  depth := w.segments.countP Token.climbs
  parts := (w.segments.filter fun t => !t.isScope).map fun t => String.ofList t.segment
  spelling := String.ofList (w.spelling data)
  mark := w.first.to w.last

end Written

/-! ## Reading segments -/

/-- The segments that the reader makes of tokens, each with the text of its separator. -/
def readSegments (ts : List (List Char × Token)) : List Segment :=
  ts.map fun s => ⟨s.1.head?, s.2.segment, s.2.isBracketed⟩

/-- What segments make of a path so far. -/
def PathSoFar.with (p : PathSoFar) (ts : List (List Char × Token)) : PathSoFar where
  depth := p.depth + (ts.map Prod.snd).countP Token.climbs
  parts :=
    p.parts ++ ((ts.map Prod.snd).filter fun t => !t.isScope).map fun t => String.ofList t.segment
  spelling := p.spelling ++ ts.flatMap fun s => s.1 ++ s.2.segment

/-- Words that stand for a context come before the names, and none comes if there are names
already. -/
def PathSoFar.Admits (p : PathSoFar) (ts : List Token) : Prop :=
  (p.parts ≠ [] → ∀ t ∈ ts, t.isScope = false) ∧
    ts.Pairwise fun before after => after.isScope = true → before.isScope = true

theorem isScopeWord_segment (t : Token) :
    (!t.isBracketed && isScopeWord t.segment) = t.isScope := by
  unfold Token.segment Token.isScope
  cases hbracket : t.isBracketed with
  | true =>
    cases hscope : isScopeWord t.text with
    | true =>
      have hnot := Token.not_isBracketed_of_isScope (t := t) hscope
      rw [hbracket] at hnot
      cases hnot
    | false => rfl
  | false => rfl

theorem PathSoFar.admits_cons_scope {p : PathSoFar} {t : Token} (h : t.isScope = true)
    (ts : List Token) (spelling : List Char) (depth : Nat) :
    p.Admits (t :: ts) ↔ p.parts = [] ∧ (⟨depth, p.parts, spelling⟩ : PathSoFar).Admits ts := by
  constructor
  · rintro ⟨hnames, horder⟩
    have hparts : p.parts = [] := by
      by_cases hparts : p.parts = []
      · exact hparts
      · rw [hnames hparts t List.mem_cons_self] at h
        cases h
    exact ⟨hparts, fun hsome => absurd hparts hsome, (List.pairwise_cons.1 horder).2⟩
  · rintro ⟨hparts, -, horder⟩
    exact ⟨fun hsome => absurd hparts hsome, List.pairwise_cons.2 ⟨fun _ _ _ => h, horder⟩⟩

theorem PathSoFar.admits_cons_name {p : PathSoFar} {t : Token} (h : t.isScope = false)
    (ts : List Token) (spelling : List Char) (name : String) :
    p.Admits (t :: ts) ↔ (⟨p.depth, p.parts ++ [name], spelling⟩ : PathSoFar).Admits ts := by
  constructor
  · rintro ⟨-, horder⟩
    obtain ⟨hlater, horder⟩ := List.pairwise_cons.1 horder
    refine ⟨fun _ later hmem => Bool.eq_false_iff.2 fun hscope => ?_, horder⟩
    rw [hlater later hmem hscope] at h
    cases h
  · rintro ⟨hnames, horder⟩
    have hlater := hnames (List.append_ne_nil_of_right_ne_nil _ (List.cons_ne_nil _ _))
    refine ⟨fun _ => List.forall_mem_cons.2 ⟨h, hlater⟩, List.pairwise_cons.2 ⟨?_, horder⟩⟩
    intro later hmem hscope
    rw [hlater later hmem] at hscope
    cases hscope

theorem PathSoFar.with_cons_scope (p : PathSoFar) {t : Token} (h : t.isScope = true)
    (separator : List Char) (ts : List (List Char × Token)) :
    (⟨if t.segment == ['.', '.'] then p.depth + 1 else p.depth, p.parts,
      p.spelling ++ separator ++ t.segment⟩ : PathSoFar).with ts =
      p.with ((separator, t) :: ts) := by
  have hsegment : t.segment = t.text := by
    rw [Token.segment, Token.not_isBracketed_of_isScope h, if_neg Bool.false_ne_true]
  have hdepth : (if t.segment == ['.', '.'] then p.depth + 1 else p.depth) =
      p.depth + if t.climbs = true then 1 else 0 := by
    rw [hsegment]
    show (if t.climbs = true then _ else _) = _
    split <;> rfl
  rw [PathSoFar.with, PathSoFar.with, hdepth]
  simp only [List.map_cons, List.countP_cons, List.filter_cons, h, Bool.not_true,
    Bool.false_eq_true, if_false, List.flatMap_cons, List.append_assoc, Nat.add_assoc, Nat.add_comm]

theorem PathSoFar.with_cons_name (p : PathSoFar) {t : Token} (h : t.isScope = false)
    (separator : List Char) (ts : List (List Char × Token)) :
    (⟨p.depth, p.parts ++ [String.ofList t.segment],
      p.spelling ++ separator ++ t.segment⟩ : PathSoFar).with ts =
      p.with ((separator, t) :: ts) := by
  have hclimbs : t.climbs = false := by
    refine Bool.eq_false_iff.2 fun hclimbs => ?_
    rw [Token.isScope_of_climbs hclimbs] at h
    cases h
  rw [PathSoFar.with, PathSoFar.with]
  simp only [List.map_cons, List.countP_cons, List.filter_cons, h, hclimbs, Bool.not_false, if_true,
    Bool.false_eq_true, if_false, Nat.add_zero, List.flatMap_cons, List.append_assoc,
    List.singleton_append]

/-- Segments are folded into what they make of a path, if they are admitted; else the fold fails. -/
theorem foldSegments_cases (ts : List (List Char × Token))
    (hts : ∀ s ∈ ts, s.1.head?.toList = s.1) :
    ∀ p : PathSoFar,
      (p.Admits (ts.map Prod.snd) ∧ foldSegments p (readSegments ts) = .ok (p.with ts)) ∨
        ¬ p.Admits (ts.map Prod.snd) ∧
          ∃ spelled, foldSegments p (readSegments ts) = .error spelled := by
  induction ts with
  | nil =>
    intro p
    refine .inl ⟨⟨fun _ _ h => absurd h List.not_mem_nil, List.Pairwise.nil⟩, ?_⟩
    simp [readSegments, foldSegments, PathSoFar.with]
  | cons s ts ih =>
    intro p
    obtain ⟨separator, t⟩ := s
    obtain ⟨hseparator, hts⟩ := List.forall_mem_cons.1 hts
    have hread : readSegments ((separator, t) :: ts) =
        ⟨separator.head?, t.segment, t.isBracketed⟩ :: readSegments ts := rfl
    rw [hread, foldSegments]
    dsimp only at hseparator ⊢
    rw [hseparator, isScopeWord_segment]
    cases hscope : t.isScope with
    | true =>
      -- Such a word may stand here as long as there is no part.
      rw [if_pos rfl, List.map_cons, ← p.with_cons_scope hscope,
        p.admits_cons_scope hscope _ (p.spelling ++ separator ++ t.segment)
          (if t.segment == ['.', '.'] then p.depth + 1 else p.depth)]
      by_cases hparts : p.parts = []
      · rw [if_pos (List.isEmpty_iff.2 hparts), and_iff_right hparts]
        exact ih hts _
      · rw [if_neg fun hempty => hparts (List.isEmpty_iff.1 hempty)]
        exact .inr ⟨fun h => hparts h.1, _, rfl⟩
    | false =>
      rw [if_neg Bool.false_ne_true, List.map_cons, ← p.with_cons_name hscope,
        p.admits_cons_name hscope _ (p.spelling ++ separator ++ t.segment)
          (String.ofList t.segment)]
      exact ih hts _

/-- Separators and the segments after them, as the reader is given them. -/
def afterFirst (more : List (Token × Token)) : List (List Char × Token) :=
  more.map fun m => (m.1.text, m.2)

/-- The two tokens of a separator and a segment, from a cursor on. -/
theorem Cursor.tokens_two {c : Cursor} (h : Proper c.tokens) (hkind : c.kind = .separator)
    (hnext : c.advance.kind = .name) :
    c.tokens = c.here :: c.advance.here :: c.advance.advance.tokens ∧
      Proper c.advance.advance.tokens := by
  have hfirst := c.advance_tokens h (by rw [hkind]; exact TokenKind.noConfusion)
  have hadvance : Proper c.advance.tokens := h.of_suffix c.tokens_advance (List.cons_ne_nil _ _)
  have hsecond := c.advance.advance_tokens hadvance (by rw [hnext]; exact TokenKind.noConfusion)
  exact ⟨by rw [hfirst, hsecond],
    hadvance.of_suffix c.advance.tokens_advance (List.cons_ne_nil _ _)⟩

/-- What is read after a segment goes on from it, to where it stops. -/
theorem moreSegments_ok {start : Nat} :
    ∀ {fuel : Nat} {last : Token} {spelled : List Char} {c : Cursor}
    {segments : List Segment} {stop : Token} {c' : Cursor}, Proper c.tokens → c.rest.length ≤ fuel →
      moreSegments start fuel last spelled c = .ok ((segments, stop), c') →
        ∃ more, GoesOn last more ∧ c.tokens = tokensOf more ++ c'.tokens ∧
          Stops (lastOf last more) c'.tokens ∧ segments = readSegments (afterFirst more) ∧
          stop = lastOf last more := by
  intro fuel
  induction fuel with
  | zero =>
    intro last spelled c segments stop c' hc hfuel h
    cases h
    -- The only token that is left is the end, which goes on with nothing.
    refine ⟨[], .nil _, rfl, ?_, rfl, rfl⟩
    rintro next ⟨⟩ -
    obtain ⟨t, hlast, hend⟩ := hc.ended
    rw [Cursor.tokens, List.eq_nil_of_length_eq_zero (Nat.le_zero.1 hfuel)] at hlast
    cases hlast
    have hkind : c.here.kind = .eof := hend
    rw [hkind]
    exact ⟨TokenKind.noConfusion, TokenKind.noConfusion⟩
  | succ fuel ih =>
    intro last spelled c segments stop c' hc hfuel h
    rw [moreSegments] at h
    dsimp only at h
    split at h
    · -- There are blanks before the next token.
      rename_i hapart
      cases h
      refine ⟨[], .nil _, rfl, ?_, rfl, rfl⟩
      rintro next ⟨⟩ hadjacent
      exact absurd hadjacent hapart
    rename_i hadjacent
    have hstart : c.here.start = last.stop := Decidable.not_not.1 hadjacent
    split at h
    · -- A separator goes on only with a name right after it.
      rename_i hseparator
      split at h
      · cases h
      rename_i hnext
      obtain ⟨hname, hclose⟩ := not_or.1 hnext
      have hname : c.advance.kind = .name := Decidable.not_not.1 hname
      have hclose : c.advance.here.start = c.here.stop := Decidable.not_not.1 hclose
      obtain ⟨htokens, hrest⟩ := c.tokens_two hc hseparator hname
      split at h
      · cases h
      rename_i segments' stop' c₁ hmore
      cases h
      have hlength : c.advance.advance.rest.length ≤ fuel := by
        have hsame := congrArg List.length htokens
        simp only [Cursor.tokens, List.length_cons] at hsame
        omega
      obtain ⟨more, hgoes, hafter, stops, rfl, rfl⟩ := ih hrest hlength hmore
      have hformed := hc.formed c.advance.here (by rw [htokens]; simp)
      refine ⟨(c.here, c.advance.here) :: more, .cons hseparator hstart hname hclose hgoes, ?_,
        stops, ?_, rfl⟩
      · rw [htokens, hafter]
        rfl
      · rw [Segment.ofToken_eq hformed hname]
        rfl
    split at h
    · cases h
    · -- Whatever stands here is neither a separator nor a name.
      rename_i hseparator hname
      cases h
      refine ⟨[], .nil _, rfl, ?_, rfl, rfl⟩
      rintro next ⟨⟩ -
      exact ⟨hseparator, hname⟩

/-- Where no segments can be read the path is invalid. -/
theorem moreSegments_error {start : Nat} :
    ∀ {fuel : Nat} {last : Token} {spelled : List Char} {c : Cursor}
    {f : Fault}, moreSegments start fuel last spelled c = .error f →
      ∃ spelled stop, f = invalidPath spelled start stop := by
  intro fuel
  induction fuel with
  | zero => intro last spelled c f h; cases h
  | succ fuel ih =>
    intro last spelled c f h
    rw [moreSegments] at h
    dsimp only at h
    split at h
    · cases h
    split at h
    · split at h
      · cases h
        exact ⟨_, _, rfl⟩
      split at h
      · rename_i f' hmore
        cases h
        exact ih hmore
      · cases h
    split at h
    · cases h
      exact ⟨_, _, rfl⟩
    · cases h

/-- Segments that go on to a stop are read. -/
theorem moreSegments_of_goesOn {start : Nat} {last : Token} {more : List (Token × Token)}
    (h : GoesOn last more) : ∀ {fuel : Nat} {spelled : List Char} {c : Cursor} {after : List Token},
      Proper c.tokens → c.rest.length ≤ fuel → c.tokens = tokensOf more ++ after →
        Stops (lastOf last more) after →
          ∃ c', moreSegments start fuel last spelled c =
              .ok ((readSegments (afterFirst more), lastOf last more), c') ∧ c'.tokens = after := by
  induction h with
  | nil last =>
    intro fuel spelled c after hc hfuel hafter stops
    obtain rfl : c.tokens = after := hafter
    -- Either blanks come first, or a token that is neither a separator nor a name.
    refine ⟨c, ?_, rfl⟩
    cases fuel with
    | zero => rfl
    | succ fuel =>
      rw [moreSegments]
      dsimp only
      split
      · rfl
      rename_i hadjacent
      have hother : c.kind ≠ .separator ∧ c.kind ≠ .name :=
        stops c.here rfl (Decidable.not_not.1 hadjacent)
      rw [if_neg hother.1, if_neg hother.2]
      rfl
  | @cons last separator segment more kind hstart segmentKind segmentStart _ ih =>
    intro fuel spelled c after hc hfuel hafter stops
    obtain ⟨rfl, htail⟩ := List.cons.inj hafter
    have hadvance := c.advance_tokens hc (by rw [Cursor.kind, kind]; exact TokenKind.noConfusion)
    have hnext : c.advance.tokens = segment :: (tokensOf more ++ after) :=
      (List.cons.inj (hadvance.symm.trans hafter)).2
    obtain ⟨hsegment, -⟩ := List.cons.inj hnext
    subst hsegment
    obtain ⟨htokens, hrest⟩ := c.tokens_two hc kind segmentKind
    have hmore : c.advance.advance.tokens = tokensOf more ++ after :=
      (List.cons.inj (List.cons.inj (htokens.symm.trans hafter)).2).2
    have hlength := congrArg List.length htokens
    simp only [Cursor.tokens, List.length_cons] at hlength
    obtain ⟨fuel, rfl⟩ : ∃ n, fuel = n + 1 := ⟨fuel - 1, by omega⟩
    obtain ⟨c', hread, hc'⟩ :=
      @ih fuel (spelled ++ c.here.text ++ c.advance.here.text) _ after hrest
        (by omega) hmore stops
    refine ⟨c', ?_, hc'⟩
    rw [moreSegments]
    dsimp only
    rw [if_neg (Decidable.not_not.2 hstart), if_pos (show c.kind = .separator from kind),
      if_neg, hread, Segment.ofToken_eq (hc.formed c.advance.here (by rw [htokens]; simp))
        segmentKind]
    · rfl
    · rintro (hname | hapart)
      · exact hname segmentKind
      · exact hapart segmentStart

/-! ## Reading paths -/

/-- A path that no segments are read of yet. -/
def PathSoFar.start (data : Bool) : PathSoFar := ⟨0, [], if data then ['@'] else []⟩

namespace Written

variable {w : Written} {after : List Token}

theorem map_afterFirst (more : List (Token × Token)) :
    (afterFirst more).map Prod.snd = more.map Prod.snd := by
  rw [afterFirst, List.map_map]
  rfl

theorem flatMap_afterFirst (more : List (Token × Token)) :
    (afterFirst more).flatMap (fun s => s.1 ++ s.2.segment) = more.flatMap fun m =>
      m.1.text ++ m.2.segment :=
  List.flatMap_map ..

theorem admits_segments (w : Written) (data : Bool) :
    (PathSoFar.start data).Admits ((([], w.first) :: afterFirst w.more).map Prod.snd) ↔
      w.Orderly := by
  rw [List.map_cons, map_afterFirst]
  exact and_iff_right fun hsome => absurd rfl hsome

/-- The segments make the path of what comes to. -/
theorem path_of_segments (w : Written) (data : Bool) {p : PathSoFar}
    (h : p = (PathSoFar.start data).with (([], w.first) :: afterFirst w.more)) :
    ({ data, depth := p.depth, parts := p.parts, spelling := String.ofList p.spelling,
       mark := w.first.to w.last } : Path Span) = w.path data := by
  subst h
  simp only [PathSoFar.with, PathSoFar.start, Written.path, Written.spelling, Written.segments,
    List.map_cons, map_afterFirst, Nat.zero_add, List.nil_append, List.append_assoc,
    List.flatMap_cons, flatMap_afterFirst]

/-- The texts of separators are single characters. -/
theorem separators_of_formed {last : Token} {more : List (Token × Token)} (h : GoesOn last more)
    (formed : ∀ t ∈ tokensOf more, t.Formed) : ∀ s ∈ afterFirst more, s.1.head?.toList = s.1 := by
  induction h with
  | nil => exact fun _ hmem => absurd hmem List.not_mem_nil
  | @cons _ separator segment more kind _ _ _ _ ih =>
    have hformed := formed separator (by simp [tokensOf_cons])
    refine List.forall_mem_cons.2 ⟨?_, ih fun t ht => formed t (by simp [tokensOf_cons, ht])⟩
    rcases hformed.separator kind with htext | htext <;> dsimp only <;> rw [htext] <;> rfl

end Written

section Reading

variable (data : Bool) {c : Cursor} (hc : Proper c.tokens)

include hc

/-- Once its segments are read a path is what they come to, or invalid if they are not in order. -/
theorem path_of_moreSegments (hkind : c.kind = .name) {more : List (Token × Token)}
    (hgoes : GoesOn c.here more) {c' : Cursor}
    (htokens : c.advance.tokens = tokensOf more ++ c'.tokens)
    (hmore : moreSegments c.here.start c.advance.rest.length c.here c.here.text c.advance =
      .ok ((readSegments (afterFirst more), lastOf c.here more), c')) :
    let w : Written := ⟨c.here, more⟩
    (w.Orderly ∧ path data c = .ok (w.path data, c')) ∨
      ¬ w.Orderly ∧ ∃ spelled, path data c =
        .error (invalidPath spelled c.here.start w.last.stop) := by
  intro w
  have hformed : ∀ t ∈ w.tokens, t.Formed := by
    intro t ht
    refine hc.formed t ?_
    rw [c.advance_tokens hc (by rw [hkind]; exact TokenKind.noConfusion), htokens]
    exact List.mem_append_left c'.tokens ht
  have hseparators : ∀ s ∈ ([], c.here) :: afterFirst more, s.1.head?.toList = s.1 :=
    List.forall_mem_cons.2 ⟨rfl, Written.separators_of_formed hgoes fun t ht =>
      hformed t (List.mem_cons_of_mem _ ht)⟩
  -- The first segment is read as if an empty separator stood before it, like the others.
  have hsegments : Segment.ofToken none c.here :: readSegments (afterFirst more) =
      readSegments (([], c.here) :: afterFirst more) := by
    rw [Segment.ofToken_eq (hformed c.here List.mem_cons_self) hkind]
    rfl
  rw [path, Cursor.expect, if_pos hkind]
  dsimp only
  rw [hmore]
  dsimp only
  rw [hsegments]
  have hfold := foldSegments_cases _ hseparators (PathSoFar.start data)
  rw [w.admits_segments data, PathSoFar.start] at hfold
  -- The fold over the segments gets to the end if they are in order, and else fails on its way.
  rcases hfold with ⟨horderly, hfold⟩ | ⟨horderly, spelled, hfold⟩
  · refine .inl ⟨horderly, ?_⟩
    rw [hfold]
    exact congrArg (fun q => Except.ok (q, c')) (w.path_of_segments data rfl)
  · refine .inr ⟨horderly, spelled, ?_⟩
    rw [hfold]
    rfl

/-- What is read as a path is written so, to where it stops, with the words that stand for a context
first. -/
theorem path_ok {p : Path Span} {c' : Cursor} (h : path data c = .ok (p, c')) :
    ∃ w : Written, w.Runs ∧ w.Orderly ∧ c.tokens = w.tokens ++ c'.tokens ∧ Stops w.last c'.tokens ∧
      p = w.path data := by
  have hkind : c.kind = .name := by
    by_cases hkind : c.kind = .name
    · exact hkind
    · rw [path, Cursor.expect, if_neg hkind] at h
      cases h
  have hadvance := c.advance_tokens hc (by rw [hkind]; exact TokenKind.noConfusion)
  have hrest : Proper c.advance.tokens := hc.of_suffix c.tokens_advance (List.cons_ne_nil _ _)
  cases hmore : moreSegments c.here.start c.advance.rest.length c.here c.here.text c.advance with
  | error f =>
    rw [path, Cursor.expect, if_pos hkind] at h
    dsimp only at h
    rw [hmore] at h
    cases h
  | ok r =>
    obtain ⟨⟨segments, last⟩, c₁⟩ := r
    obtain ⟨more, hgoes, hafter, stops, rfl, rfl⟩ := moreSegments_ok hrest (Nat.le_refl _) hmore
    rcases path_of_moreSegments data hc hkind hgoes hafter hmore with ⟨horderly, hpath⟩ |
        ⟨-, spelled, hpath⟩
    · cases h.symm.trans hpath
      refine ⟨⟨c.here, more⟩, ⟨hkind, hgoes⟩, horderly, ?_, stops, rfl⟩
      rw [hadvance, hafter]
      rfl
    · cases h.symm.trans hpath

/-- A path that is in order and stops is read. -/
theorem path_of_stops {w : Written} (runs : w.Runs) (orderly : w.Orderly) {after : List Token}
    (htokens : c.tokens = w.tokens ++ after) (stops : Stops w.last after) :
    ∃ c', path data c = .ok (w.path data, c') ∧ c'.tokens = after := by
  obtain ⟨first, more⟩ := w
  obtain ⟨rfl, htail⟩ := List.cons.inj htokens
  have hkind : c.kind = .name := runs.first
  have hadvance := c.advance_tokens hc (by rw [hkind]; exact TokenKind.noConfusion)
  have hrest : Proper c.advance.tokens := hc.of_suffix c.tokens_advance (List.cons_ne_nil _ _)
  have hafter : c.advance.tokens = tokensOf more ++ after :=
    (List.cons.inj (hadvance.symm.trans htokens)).2
  obtain ⟨c', hmore, rfl⟩ :=
    @moreSegments_of_goesOn c.here.start _ _ runs.more _ c.here.text _ _ hrest
      (Nat.le_refl _) hafter stops
  rcases path_of_moreSegments data hc hkind runs.more hafter hmore with ⟨-, hpath⟩ | ⟨hnot, -⟩
  · exact ⟨c', hpath, rfl⟩
  · exact absurd orderly hnot

/-- At a name there is a path, or an invalid one. -/
theorem path_of_name (hkind : c.kind = .name) :
    (∃ p c', path data c = .ok (p, c')) ∨
      ∃ spelled stop, path data c = .error (invalidPath spelled c.here.start stop) := by
  cases hpath : path data c with
  | ok r => exact .inl ⟨r.1, r.2, rfl⟩
  | error f =>
    refine .inr ?_
    have hrest : Proper c.advance.tokens := hc.of_suffix c.tokens_advance (List.cons_ne_nil _ _)
    cases hmore : moreSegments c.here.start c.advance.rest.length c.here c.here.text c.advance with
    | error f' =>
      obtain ⟨spelled, stop, rfl⟩ := moreSegments_error hmore
      rw [path, Cursor.expect, if_pos hkind] at hpath
      dsimp only at hpath
      rw [hmore] at hpath
      exact ⟨spelled, stop, hpath.symm⟩
    | ok r =>
      obtain ⟨⟨segments, last⟩, c₁⟩ := r
      obtain ⟨more, hgoes, hafter, -, rfl, rfl⟩ := moreSegments_ok hrest (Nat.le_refl _) hmore
      rcases path_of_moreSegments data hc hkind hgoes hafter hmore with ⟨-, hok⟩ |
          ⟨-, spelled, herror⟩
      · cases hpath.symm.trans hok
      · exact ⟨spelled, _, hpath.symm.trans herror⟩

/-- A run of segments that does not stop in order is invalid, whatever follows it. -/
theorem path_invalid {w : Written} (runs : w.Runs) {after : List Token}
    (htokens : c.tokens = w.tokens ++ after)
    (bad : ∀ (whole : Written) (rest : List Token), whole.first = w.first → w.more <+: whole.more →
      whole.Runs → whole.tokens ++ rest = w.tokens ++ after → Stops whole.last rest →
        ¬ whole.Orderly) :
    ∃ spelled stop, path data c = .error (invalidPath spelled c.here.start stop) := by
  obtain ⟨hhere, htail⟩ := List.cons.inj htokens
  have hkind : c.kind = .name := by rw [Cursor.kind, hhere]; exact runs.first
  refine (path_of_name data hc hkind).resolve_left ?_
  rintro ⟨p, c', hpath⟩
  obtain ⟨whole, hwhole, horderly, hsame, stops, -⟩ := path_ok data hc hpath
  obtain ⟨first, more⟩ := whole
  obtain ⟨hfirst, hrest⟩ := List.cons.inj (htokens.symm.trans hsame)
  subst hfirst
  refine bad ⟨w.first, more⟩ c'.tokens rfl ?_ hwhole (hsame.symm.trans htokens) stops horderly
  exact runs.more.prefix_of_stops hwhole.more stops hrest

/-- A word that stands for a context and comes after a name makes a path invalid. -/
theorem path_invalid_of_not_orderly {w : Written} (runs : w.Runs) {after : List Token}
    (htokens : c.tokens = w.tokens ++ after) (h : ¬ w.Orderly) :
    ∃ spelled stop, path data c = .error (invalidPath spelled c.here.start stop) := by
  refine path_invalid data hc runs htokens fun whole rest hfirst hmore _ _ _ horderly => h ?_
  have hsegments : w.segments <+: whole.segments := by
    rw [Written.segments, Written.segments, hfirst]
    exact List.cons_prefix_cons.2 ⟨rfl, hmore.map _⟩
  exact horderly.sublist hsegments.sublist

/-- A path that ends with a separator, or runs into another name, is invalid. -/
theorem path_invalid_of_dangles {w : Written} (runs : w.Runs) {after : List Token}
    (htokens : c.tokens = w.tokens ++ after) (h : Dangles w.last after) :
    ∃ spelled stop, path data c = .error (invalidPath spelled c.here.start stop) := by
  refine path_invalid data hc runs htokens fun whole rest hfirst hmore hruns hsame hstops _ => ?_
  obtain ⟨next, behind, rfl, hstart, hkind⟩ := h
  obtain ⟨first, more⟩ := whole
  obtain ⟨extra, rfl⟩ := hmore
  obtain rfl : first = w.first := hfirst
  have hgoes : GoesOn w.last extra := hruns.more.of_append
  have htail : tokensOf extra ++ rest = next :: behind := by
    have hall : tokensOf (w.more ++ extra) ++ rest = tokensOf w.more ++ next :: behind :=
      (List.cons.inj hsame).2
    rw [tokensOf_append, List.append_assoc] at hall
    exact List.append_cancel_left hall
  cases hgoes with
  | nil =>
    -- The path would end here, but what follows goes on with it.
    rw [Written.last, List.append_nil] at hstops
    have hnot := hstops next (by rw [show rest = next :: behind from htail]; rfl) hstart
    rcases hkind with hname | ⟨hseparator, -⟩
    · exact hnot.2 hname
    · exact hnot.1 hseparator
  | cons hseparator _ hname hsegment _ =>
    simp only [tokensOf_cons, List.cons_append] at htail
    obtain ⟨rfl, rfl⟩ := List.cons.inj htail
    rcases hkind with hother | ⟨-, hends⟩
    · rw [hseparator] at hother
      cases hother
    · rcases hends _ rfl with hother | hapart
      · exact hother hname
      · exact hapart hsegment

end Reading

end Stencil.Syntax
