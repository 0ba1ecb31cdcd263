import Stencil.Syntax.Indexed
import Stencil.Proofs.Syntax.Passing

/-!
# Runs and readers side by side

A part of a run by index mirrors a reader if it comes to what the reader does from where a cursor
stands, and does not go wrong (`Mirrors`). The state of the run stands where the cursor does
(`StandsAt`): the index is that of the token here, and the last token was looked at only if it is
here.

What is put together from parts mirrors what is put together from readers. The rules for that are
here, and with each of them what has to be known of the cursor: that there is another token, that a
span ends after it starts, that one construct more may be open.
-/

set_option autoImplicit false

namespace Stencil.Syntax

open Stencil.Text
open Stencil.Tree
open Indexed (Step State)

/-! ## States and cursors -/

/-- A state stands where a cursor does. The last token was looked at only if it is here. -/
structure StandsAt (ts : List Token) (c : Cursor) (s : State) : Prop where
  here : ts.drop s.current = c.tokens
  prev : ts[s.current - 1]? = some c.prev
  seen_le : s.seen ≤ ts.length
  last : s.seen = ts.length → c.rest = []

/-- A result of a reader, and what a part of a run comes to with so many constructs open. At the end
of the template only a block that is not closed is a fault. -/
inductive Comes {α : Type} (ts : List Token) (depth : Nat) :
    Except Fault (α × Cursor) → Except Fault α × State → Prop where
  | ok {a : α} {c : Cursor} {s : State} (hdepth : s.depth = depth) (hs : StandsAt ts c s) :
    Comes ts depth (.ok (a, c)) (.ok a, s)
  | error {f : Fault} {s : State} (hdepth : s.depth = depth)
    (hseen : s.seen = ts.length → ∃ name, f.cause = .unclosedBlock name) :
    Comes ts depth (.error f) (.error f, s)

/-- From where a cursor stands, with so many constructs open, a part of a run does not go wrong, and
comes to what a reader does. -/
def Mirrors {α : Type} (ts : List Token) (depth : Nat) (c : Cursor) (step : Step α)
    (result : Except Fault (α × Cursor)) : Prop :=
  ∀ s, StandsAt ts c s → s.depth = depth → ∃ r, step ts s = some r ∧ Comes ts depth result r

section Parts

variable {α β : Type} {ts : List Token} {depth : Nat} {c c' : Cursor}

/-- The token at the index is the one here. -/
theorem StandsAt.getElem?_current {s : State} (h : StandsAt ts c s) :
    ts[s.current]? = some c.here := by
  have hfirst := congrArg (·[0]?) h.here
  simpa [Cursor.tokens] using hfirst

/-- The index, the token here and those behind it add up to all. -/
theorem StandsAt.length {s : State} (h : StandsAt ts c s) :
    s.current + 1 + c.rest.length = ts.length := by
  have hlength := congrArg List.length h.here
  have hlt := (List.getElem?_eq_some_iff.1 h.getElem?_current).1
  simp only [List.length_drop, Cursor.tokens, List.length_cons] at hlength
  omega

/-- Looking at a token changes nothing, unless it is the last one and not here. -/
theorem StandsAt.look {s : State} {ahead : Nat} (h : StandsAt ts c s)
    (hahead : s.current + ahead + 1 ≤ ts.length)
    (hlast : s.current + ahead + 1 = ts.length → c.rest = []) :
    StandsAt ts c { s with seen := max s.seen (s.current + ahead + 1) } where
  here := h.here
  prev := h.prev
  seen_le := Nat.max_le.2 ⟨h.seen_le, hahead⟩
  last hseen := by
    dsimp only at hseen
    rcases Nat.le_total s.seen (s.current + ahead + 1) with hle | hle
    · rw [Nat.max_eq_right hle] at hseen
      exact hlast hseen
    · rw [Nat.max_eq_left hle] at hseen
      exact h.last hseen

namespace Mirrors

theorem pure (a : α) : Mirrors ts depth c (Pure.pure a : Step α) (.ok (a, c)) :=
  fun s hs hdepth => ⟨(.ok a, s), rfl, .ok hdepth hs⟩

/-- Where more tokens are to come, any fault will do. -/
theorem fail (f : Fault) (h : c.rest ≠ []) : Mirrors ts depth c (Step.fail f : Step α) (.error f) :=
  fun s hs hdepth => ⟨(.error f, s), rfl, .error hdepth fun hseen => absurd (hs.last hseen) h⟩

/-- A missing closing tag is the one fault that may be found with all tokens seen. -/
theorem fail_unclosed {f : Fault} (name : String) (h : f.cause = .unclosedBlock name) :
    Mirrors ts depth c (Step.fail f : Step α) (.error f) :=
  fun s _ hdepth => ⟨(.error f, s), rfl, .error hdepth fun _ => ⟨name, h⟩⟩

/-- The second part starts where the first left off, in the run as in the reader. -/
theorem bind {x : Step α} {k : α → Step β} {first : Reader α} {next : α → Reader β}
    (hx : Mirrors ts depth c x (first c))
    (hk : ∀ a c', first c = .ok (a, c') → Mirrors ts depth c' (k a) (next a c')) :
    Mirrors ts depth c (x >>= k) (first.bind next c) := by
  intro s hs hdepth
  obtain ⟨r, hr, hcomes⟩ := hx s hs hdepth
  show ∃ r, Step.bind x k ts s = some r ∧ _
  rw [Reader.bind, Step.bind, hr]
  generalize hfirst : first c = result at hcomes
  cases hcomes with
  | error hdepth₁ hseen => exact ⟨_, rfl, .error hdepth₁ hseen⟩
  | ok hdepth₁ hs₁ => exact hk _ _ hfirst _ hs₁ hdepth₁

/-- After a fault there is no second part. -/
theorem error_bind {x : Step α} {k : α → Step β} {f : Fault}
    (hx : Mirrors ts depth c x (.error f : Except Fault (α × Cursor))) :
    Mirrors ts depth c (x >>= k) (.error f) := by
  have hbind := @bind α β ts depth c x k (fun _ => .error f) (fun _ _ => .error f) hx
  refine hbind fun a c' h => ?_
  cases h

/-- What is made of a result takes no step of the cursor. -/
theorem map {x : Step α} {k : α → Step β} {first : Reader α} {g : α → β}
    (hx : Mirrors ts depth c x (first c))
    (hk : ∀ a c', first c = .ok (a, c') → Mirrors ts depth c' (k a) (.ok (g a, c'))) :
    Mirrors ts depth c (x >>= k) (first.map g c) :=
  @bind α β ts depth c x k first (fun a c' => .ok (g a, c')) hx hk

/-- A part that comes to a result, and then what follows. -/
theorem step {x : Step α} {k : α → Step β} {a : α} {result : Except Fault (β × Cursor)}
    (hx : Mirrors ts depth c x (.ok (a, c'))) (hk : Mirrors ts depth c' (k a) result) :
    Mirrors ts depth c (x >>= k) result := by
  intro s hs hdepth
  obtain ⟨r, hr, hcomes⟩ := hx s hs hdepth
  cases hcomes with
  | ok hdepth₁ hs₁ =>
    show ∃ r, Step.bind x k ts s = some r ∧ _
    rw [Step.bind, hr]
    exact hk _ hs₁ hdepth₁

/-- Both decide alike, so they take the same branch. -/
theorem ite {p q : Prop} [Decidable p] [Decidable q] {yes no : Step α}
    {yes' no' : Except Fault (α × Cursor)} (hpq : p ↔ q) (hyes : q → Mirrors ts depth c yes yes')
    (hno : ¬q → Mirrors ts depth c no no') :
    Mirrors ts depth c (if p then yes else no) (if q then yes' else no') := by
  by_cases hq : q
  · rw [if_pos (hpq.2 hq), if_pos hq]
    exact hyes hq
  · rw [if_neg (fun hp => hq (hpq.1 hp)), if_neg hq]
    exact hno hq

/-- A token may be looked at, but the last one only from where it is. -/
theorem look {ahead : Nat} {t : Token}
    (h : ∀ s, StandsAt ts c s → ts[s.current + ahead]? = some t ∧
      (s.current + ahead + 1 = ts.length → c.rest = [])) :
    Mirrors ts depth c (Step.peek ahead) (.ok (t, c)) := by
  intro s hs hdepth
  obtain ⟨ht, hlast⟩ := h s hs
  have hlt := (List.getElem?_eq_some_iff.1 ht).1
  refine ⟨(.ok t, { s with seen := max s.seen (s.current + ahead + 1) }), ?_,
    .ok hdepth (hs.look hlt hlast)⟩
  rw [Step.peek, ht]
  rfl

/-- The token here is there, and counts as seen. -/
theorem peek : Mirrors ts depth c (Step.peek 0) (.ok (c.here, c)) := by
  refine look fun s hs => ⟨hs.getElem?_current, fun hlast => ?_⟩
  have hlength := hs.length
  exact List.eq_nil_of_length_eq_zero (by omega)

/-- Of two more tokens to come the first may be looked at. -/
theorem peek_next (hnext : c.tokens = c.here :: c.advance.tokens) (hmore : c.advance.rest ≠ []) :
    Mirrors ts depth c (Step.peek 1) (.ok (c.advance.here, c)) := by
  refine look fun s hs => ⟨?_, fun hlast => ?_⟩
  · have htail := congrArg (·[1]?) hs.here
    rw [hnext] at htail
    simpa [Cursor.tokens] using htail
  · have hlength := hs.length
    have htokens := congrArg List.length hnext
    have hpos := List.length_pos_of_ne_nil hmore
    simp only [Cursor.tokens, List.length_cons] at htokens
    omega

/-- The token passed last is the one before the index. -/
theorem prev : Mirrors ts depth c Step.prev (.ok (c.prev, c)) := by
  intro s hs hdepth
  exact ⟨_, by rw [Step.prev, hs.prev]; rfl, .ok hdepth hs⟩

/-- A token is passed where more are to come. -/
theorem advance (hmore : c.rest ≠ []) :
    Mirrors ts depth c Step.advance (.ok (c.here, c.advance)) := by
  intro s hs hdepth
  have hlength := hs.length
  have hpos := List.length_pos_of_ne_nil hmore
  have hcurrent := hs.getElem?_current
  obtain ⟨t, rest, hrest⟩ := List.exists_cons_of_ne_nil hmore
  have hadvance : c.advance = ⟨c.here, t, rest⟩ := by rw [Cursor.advance, hrest]
  refine ⟨(.ok c.here, { s with current := s.current + 1 }), ?_,
    .ok hdepth ⟨?_, ?_, hs.seen_le, ?_⟩⟩
  · rw [Step.advance, if_pos (by omega), hcurrent]
    rfl
  · have hdrop := congrArg List.tail hs.here
    rw [List.tail_drop, Cursor.tokens, List.tail_cons, hrest] at hdrop
    rw [hadvance]
    exact hdrop
  · rw [hadvance]
    exact hcurrent
  · intro hseen
    exact absurd (hs.last hseen) hmore

theorem count : Mirrors ts depth c Step.count (.ok (ts.length, c)) :=
  fun s hs hdepth => ⟨(.ok ts.length, s), rfl, .ok hdepth hs⟩

/-- A span is made if its end does not lie before its start. -/
theorem span {start stop : Nat} (h : start ≤ stop) :
    Mirrors ts depth c (Step.span start stop) (.ok (⟨start, stop⟩, c)) := by
  rw [Step.span, if_pos h]
  exact pure _

theorem span_bind {start stop : Nat} (h : start ≤ stop) (k : Span → Step α) :
    Step.span start stop >>= k = k ⟨start, stop⟩ := by
  rw [Step.span, if_pos h]
  rfl

theorem unexpected (h : c.rest ≠ []) (expected : Option String) :
    Mirrors ts depth c (Step.unexpected expected : Step α) (.error (c.unexpected expected)) :=
  peek.step (fail _ h)

/-- A token is passed only if there is another one behind it, which is known where this is used. -/
theorem expect (h : c.rest ≠ []) (kind : TokenKind) :
    Mirrors ts depth c (Step.expect kind) (Cursor.expect kind c) :=
  peek.step (ite Iff.rfl (fun _ => advance h) fun _ => unexpected h _)

theorem expect_here {kind : TokenKind} (h : c.rest ≠ []) (hkind : c.kind = kind) :
    Mirrors ts depth c (Step.expect kind) (.ok (c.here, c.advance)) := by
  have hread : Mirrors ts depth c (Step.expect kind) (Cursor.expect kind c) := expect h kind
  rwa [Cursor.expect, if_pos hkind] at hread

/-- Where an expected token was passed, the last one was not looked at yet. -/
theorem seen_expect {kind : TokenKind} {s s' : State} {t : Token} (hs : StandsAt ts c s)
    (hmore : c.rest ≠ []) (h : Step.expect kind ts s = some (.ok t, s')) : s'.seen < ts.length := by
  have hlength := hs.length
  have hpos := List.length_pos_of_ne_nil hmore
  have hunseen : s.seen < ts.length :=
    Nat.lt_of_le_of_ne hs.seen_le fun hseen => hmore (hs.last hseen)
  have hhere : ts[s.current + 0]? = some c.here := hs.getElem?_current
  have hstep : Step.expect kind ts s =
      (if c.here.kind = kind then Step.advance else Step.unexpected (some kind.describe)) ts
        { s with seen := max s.seen (s.current + 1) } := by
    show Step.bind _ _ ts s = _
    rw [Step.bind, Step.peek, hhere]
    rfl
  rw [hstep] at h
  split at h
  · rw [Step.advance, if_pos (show s.current + 1 < ts.length by omega)] at h
    obtain ⟨t, -, heq⟩ := Option.map_eq_some_iff.1 h
    obtain ⟨-, rfl⟩ := Prod.mk.inj heq
    exact Nat.max_lt.2 ⟨hunseen, by omega⟩
  · have hfault : Mirrors ts s.depth c (Step.unexpected (some kind.describe) : Step Token) _ :=
      unexpected hmore _
    have hlooked := @StandsAt.look ts c s 0 hs (by omega) fun hlast => by omega
    obtain ⟨r, hr, hcomes⟩ := hfault _ hlooked rfl
    cases hcomes
    cases hr.symm.trans h

/-- After an expected token that is not the last one, nothing has looked at the last one yet. -/
theorem expect_bind {kind : TokenKind} {k : Token → Step β} {next : Token → Reader β}
    (h : c.rest ≠ [])
    (hk : c.kind = kind → ∀ s, StandsAt ts c.advance s → s.seen < ts.length → s.depth = depth →
      ∃ r, k c.here ts s = some r ∧ Comes ts depth (next c.here c.advance) r) :
    Mirrors ts depth c (Step.expect kind >>= k) ((Cursor.expect kind).bind next c) := by
  by_cases hkind : c.kind = kind
  · intro s hs hdepth
    obtain ⟨_, hr, hcomes⟩ := expect h kind s hs hdepth
    have hexpect : Cursor.expect kind c = .ok (c.here, c.advance) := if_pos hkind
    rw [hexpect] at hcomes
    cases hcomes with
    | ok hdepth₁ hs₁ =>
      show ∃ r, Step.bind _ _ ts s = some r ∧ _
      rw [Reader.bind, hexpect, Step.bind, hr]
      exact hk hkind _ hs₁ (seen_expect hs h hr) hdepth₁
  · refine (expect h kind).bind fun t c' hread => ?_
    rw [Cursor.expect, if_neg hkind] at hread
    cases hread

/-- Where the last token was not looked at, any fault will do. -/
theorem fail_unseen (f : Fault) {s : State} (hs : s.seen < ts.length) (hdepth : s.depth = depth) :
    ∃ r, (Step.fail f : Step α) ts s = some r ∧
      Comes ts depth (.error f : Except Fault (α × Cursor)) r :=
  ⟨(.error f, s), rfl, .error hdepth fun hseen => absurd hseen (Nat.ne_of_lt hs)⟩

/-- A construct is opened where the limit allows one more. -/
theorem nested {x : Step α} {result : Except Fault (α × Cursor)} (opened : Token)
    (hdepth : depth < maxNesting) (h : Mirrors ts (depth + 1) c x result) :
    Mirrors ts depth c (Step.nested opened x) result := by
  rintro s hs rfl
  have hinner : StandsAt ts c { s with depth := s.depth + 1 } :=
    ⟨hs.here, hs.prev, hs.seen_le, hs.last⟩
  obtain ⟨r, hr, hcomes⟩ := h _ hinner rfl
  rw [Step.nested, if_neg (Nat.not_le.2 hdepth), hr]
  cases hcomes with
  | ok hdepth₁ hs₁ =>
    exact ⟨_, rfl, .ok (Nat.sub_eq_of_eq_add hdepth₁) ⟨hs₁.here, hs₁.prev, hs₁.seen_le, hs₁.last⟩⟩
  | error hdepth₁ hseen => exact ⟨_, rfl, .error (Nat.sub_eq_of_eq_add hdepth₁) hseen⟩

/-- Where as many constructs are open as may be, none is opened. -/
theorem nested_tooDeep (x : Step α) (opened : Token) (hdepth : maxNesting ≤ depth)
    (hmore : c.rest ≠ []) :
    Mirrors ts depth c (Step.nested opened x) (.error (tooDeep opened)) := by
  rintro s hs rfl
  rw [Step.nested, if_pos hdepth]
  exact ⟨_, rfl, .error rfl fun hseen => absurd (hs.last hseen) hmore⟩

/-- Items are read as long as one is here, and every item takes a token at least. So there are
rounds enough for all of them, and for one in which there is none. -/
theorem many {more : Step Bool} {item : Step α} {more' : Cursor → Bool} {item' : Reader α}
    {I : Cursor → Prop} (hmore : ∀ c, I c → Mirrors ts depth c more (.ok (more' c, c)))
    (hitem : ∀ c, I c → more' c = true → Mirrors ts depth c item (item' c))
    (hnext : ∀ c a c', I c → more' c = true → item' c = .ok (a, c') →
      I c' ∧ c'.rest.length < c.rest.length)
    (hlast : ∀ c, I c → more' c = true → c.rest ≠ []) (hc : I c) :
    Mirrors ts depth c (Step.many more item) (Cursor.many more' item' c) := by
  -- The rounds and the fuel are generalised apart: one counts tokens of the whole, the other those
  -- that are left.
  suffices ∀ rounds fuel c, I c → c.rest.length ≤ fuel → c.rest.length < rounds →
      Mirrors ts depth c (Step.readWhile more item rounds) (Cursor.readWhile more' item' fuel c) by
    intro s hs hdepth
    refine count.step (this _ _ c hc (Nat.le_refl _) ?_) s hs hdepth
    have hlength := hs.length
    omega
  intro rounds
  induction rounds with
  | zero => exact fun fuel c _ _ h => absurd h (Nat.not_lt_zero _)
  | succ rounds ih =>
    intro fuel c hc hfuel hrounds
    refine (hmore c hc).step ?_
    cases fuel with
    | zero =>
      have hrest : c.rest = [] := List.eq_nil_of_length_eq_zero (Nat.le_zero.1 hfuel)
      have hnone : more' c = false := Bool.eq_false_iff.2 fun hmore => hlast c hc hmore hrest
      rw [hnone]
      exact pure _
    | succ fuel =>
      rw [Cursor.readWhile_succ]
      refine ite Iff.rfl (fun hsome => ?_) fun _ => pure _
      refine (hitem c hc hsome).bind fun a c₁ hread => ?_
      obtain ⟨hc₁, hshorter⟩ := hnext c a c₁ hc hsome hread
      exact (ih fuel c₁ hc₁ (by omega) (by omega)).map fun as c' _ => pure _

end Mirrors

end Parts

end Stencil.Syntax
