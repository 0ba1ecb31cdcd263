import Stencil.Proofs.Syntax.Groups
import Stencil.Proofs.Syntax.Paths
import Stencil.Proofs.Syntax.Readers
import Stencil.Proofs.Text.Places

/-!
# Passing over the tokens of a template

Which token may come next in a template is a matter of the stage that the tokens before it have led
to: outside of tags, inside one, or in a raw block (`Stage`). Which constructs are open there is a
matter of the tokens that open and close them (`stillOpen`). A cursor has both (`Cursor.At`), and a
reader is described by what it makes of them.

A reader that reads something passes over tokens (`Passed`), so what it read starts where the first
of them does and ends where the last of them does. Readers that read one thing after another, or
many of a kind, are put together from what they read singly (`Ends.bind`, `Ends.many`).
-/

set_option autoImplicit false

namespace Stencil.Syntax

open Stencil.Text

/-! ## Stages -/

/-- What the tokens up to some place have led to. -/
inductive Stage where
  | outside
  /-- Inside a tag, perhaps the one that opens a raw block. -/
  | inTag (raw : Bool)
  /-- After the opening tag of a raw block. -/
  | rawText
  /-- After the text of a raw block. -/
  | rawEnd
deriving DecidableEq

/-- The stage after a token of some kind, if one may stand there. -/
def Stage.after (stage : Stage) (kind : TokenKind) : Option Stage :=
  match stage with
  | .outside =>
    if kind = .content ∨ kind = .comment ∨ kind = .loneElse then some .outside
    else if kind.opensTag then some (.inTag (kind == .openRaw))
    else none
  | .inTag raw =>
    if kind.isWord then some (.inTag raw)
    else if raw then if kind.closesTag then some .rawText else none
    else if kind = .close ∨ kind = .closeUnescaped then some .outside
    else none
  | .rawText =>
    if kind = .content then some .rawEnd else if kind = .endRaw then some .outside else none
  | .rawEnd => if kind = .endRaw then some .outside else none

/-- Tokens of these kinds may follow from the stage on, up to the end. -/
def Stage.Leads (stage : Stage) : List TokenKind → Prop
  | [] => False
  | kind :: kinds =>
    stage = .outside ∧ kind = .eof ∧ kinds = [] ∨
      ∃ next, stage.after kind = some next ∧ next.Leads kinds

namespace Stage

variable {stage next : Stage} {kind : TokenKind} {kinds : List TokenKind}

theorem leads_cons (hafter : stage.after kind = some next) (h : next.Leads kinds) :
    stage.Leads (kind :: kinds) :=
  .inr ⟨next, hafter, h⟩

theorem after_word {raw : Bool} (h : kind.isWord = true) :
    (inTag raw).after kind = some (.inTag raw) := by
  simp [after, h]

/-- Words do not lead out of a tag, however many there are. -/
theorem leads_words {raw : Bool} {words : List TokenKind} (hwords : ∀ w ∈ words, w.isWord = true)
    (h : (inTag raw).Leads kinds) : (inTag raw).Leads (words ++ kinds) := by
  induction words with
  | nil => exact h
  | cons w words ih =>
    obtain ⟨hw, hwords⟩ := List.forall_mem_cons.1 hwords
    exact leads_cons (after_word hw) (ih hwords)

/-- Where no tag is open, any opening token leads into one, and that of a raw block into a tag
before raw text. -/
theorem after_open (hopens : kind.opensTag = true) :
    outside.after kind = some (.inTag (kind == .openRaw)) := by
  have hother : ¬(kind = .content ∨ kind = .comment ∨ kind = .loneElse) := by
    rintro (rfl | rfl | rfl) <;> cases hopens
  simp [after, hopens, hother]

/-- A group leads from outside of tags to outside of tags. -/
theorem leads_group {group : List TokenKind} (hgroup : IsGroup group) (h : outside.Leads kinds) :
    outside.Leads (group ++ kinds) := by
  cases hgroup with
  | alone hkind => exact leads_cons (if_pos hkind) h
  | @tag opening closing words hopens hraw hwords hcloses =>
    have hclose : (inTag false).after closing = some .outside := by
      rcases hcloses with rfl | rfl <;> rfl
    have hopen : (opening == .openRaw) = false := by simpa using hraw
    rw [List.cons_append, List.append_assoc]
    refine leads_cons (after_open hopens) ?_
    rw [hopen]
    exact leads_words hwords (leads_cons hclose h)
  | @raw closing words text hwords hcloses htext =>
    have hclose : (inTag true).after closing = some .rawText := by
      revert hcloses
      cases closing <;> decide
    rw [List.cons_append, List.append_assoc]
    refine leads_cons (after_open rfl) ?_
    refine leads_words hwords ?_
    rw [List.cons_append, List.append_assoc]
    refine leads_cons hclose ?_
    rcases htext with rfl | rfl
    · exact leads_cons rfl h
    · exact leads_cons rfl (leads_cons rfl h)

/-- Group by group the stages lead from outside to outside again, and there the template may end. -/
theorem leads_of_inGroups {tokens : List Token} (h : InGroups tokens) :
    outside.Leads (tokens.map Token.kind ++ [.eof]) := by
  obtain ⟨groups, rfl, hgroups⟩ := h
  induction groups with
  | nil => exact .inl ⟨rfl, rfl, rfl⟩
  | cons g groups ih =>
    obtain ⟨hg, hgroups⟩ := List.forall_mem_cons.1 hgroups
    rw [List.flatten_cons, List.map_append, List.append_assoc]
    exact leads_group hg (ih hgroups)

end Stage

/-! ## Open constructs -/

/-- Whether a token of this kind opens what may be nested only so deep. -/
def TokenKind.opensNesting : TokenKind → Bool
  | .openBlock | .openInverted | .openElse | .openPartialBlock | .openCall => true
  | _ => false

/-- The constructs that are left open when the innermost block is closed, with all the sections
chained to it. -/
def closeBlock (opened : List Token) : List Token :=
  (opened.dropWhile fun u => u.kind == .openElse).tail

/-- The constructs that are open after one more token, the innermost first. -/
def stillOpenWith (opened : List Token) (t : Token) : List Token :=
  if t.kind.opensNesting then t :: opened
  else if t.kind = .openEnd then closeBlock opened
  else if t.kind = .closeCall then opened.tail
  else opened

/-- The constructs that are open after some tokens, each as the token that opened it, the innermost
first. -/
def stillOpen (ts : List Token) : List Token := ts.foldl stillOpenWith []

/-- What is open after one more token depends on what was open before it and on the token alone. -/
theorem stillOpen_concat (ts : List Token) (t : Token) :
    stillOpen (ts ++ [t]) = stillOpenWith (stillOpen ts) t := by
  rw [stillOpen, List.foldl_append]
  rfl

/-- A token that opens a construct is the innermost one open. -/
theorem stillOpenWith_of_opens {t : Token} (opened : List Token) (h : t.kind.opensNesting = true) :
    stillOpenWith opened t = t :: opened := by
  rw [stillOpenWith, if_pos h]

/-- Whether a token of this kind neither opens nor closes what may be nested. -/
def TokenKind.keepsNesting (kind : TokenKind) : Bool :=
  !kind.opensNesting && kind != .openEnd && kind != .closeCall

/-- Other tokens than those that open and close leave what is open as it is. -/
theorem stillOpenWith_of_keeps {t : Token} (opened : List Token) (h : t.kind.keepsNesting = true) :
    stillOpenWith opened t = opened := by
  simp only [TokenKind.keepsNesting, Bool.and_eq_true, Bool.not_eq_true', bne_iff_ne] at h
  simp [stillOpenWith, h]

/-! ## Cursors at a stage -/

/-- Tokens as those of a source are: in its order, in groups, between its characters. -/
structure Laid (source : List Char) (ts : List Token) : Prop where
  proper : Proper ts
  ordered : ts.Pairwise fun first second => first.stop ≤ second.start
  adjoins : ts.IsChain Adjoins
  leads : Stage.outside.Leads (ts.map Token.kind)
  boundary : ∀ t ∈ ts, Boundary source t.start ∧ Boundary source t.stop
  last : ts.getLast? = some ⟨.eof, size source, []⟩

/-- The tokens of a template are laid out in it and come in groups. -/
theorem laid_of_tokens? {source : List Char} {ts : List Token} (h : tokens? source = .ok ts) :
    Laid source ts := by
  have hgrouped := grouped_of_tokens? h
  obtain ⟨tokens, left, hts, hcovers, hleft⟩ := pieces_covers (r := ⟨0, source⟩) (Nat.le_refl _) h
  obtain ⟨groups, hcovered⟩ := hcovers.coveredBy hleft
  rw [← hts] at hcovered
  refine ⟨proper_of_tokens? h, hcovered.ordered, hgrouped.adjoins, ?_, ?_, ?_⟩
  · obtain ⟨tokens, ending, rfl, hgroups⟩ := hgrouped.groups
    rw [List.map_append]
    exact Stage.leads_of_inGroups hgroups
  · intro t ht
    rw [hcovered.tokens] at ht
    rcases List.mem_append.1 ht with ht | ht
    · obtain ⟨p, hp, rfl⟩ := List.mem_map.1 ht
      -- The token starts behind what was scanned before it and stops with its own text.
      obtain ⟨before, after, hsplit⟩ := List.append_of_mem hp
      have hchars : before.flatMap Placed.text ++ p.gap ++
          (p.token.text ++ after.flatMap Placed.text) = source := by
        rw [← hcovered.chars, hsplit, List.flatMap_append, List.flatMap_cons, Placed.text]
        simp only [List.append_assoc]
      have hstart := hcovered.starts before p after hsplit
      refine ⟨⟨_, ⟨_, hchars⟩, hstart.symm⟩,
        before.flatMap Placed.text ++ p.gap ++ p.token.text, ?_, ?_⟩
      · rw [← hchars, ← List.append_assoc]
        exact List.prefix_append _ _
      · rw [Token.stop, hstart, size_append]
    · rw [List.mem_singleton.1 ht]
      exact ⟨.size source, .size source⟩
  · rw [hcovered.tokens, List.getLast?_concat]

namespace Cursor

/-- The cursor stands on a token of a template at a stage, with some constructs open. -/
structure At (ts : List Token) (stage : Stage) (opened : List Token) (c : Cursor) : Prop where
  before : ∃ before, ts = before ++ c.tokens ∧ stillOpen before = opened
  leads : stage.Leads (c.tokens.map Token.kind)

/-- The token passed last stands before the cursor. -/
def After (ts : List Token) (c : Cursor) : Prop := ∃ before, ts = before ++ c.prev :: c.tokens

variable {source : List Char} {ts opened : List Token} {stage next : Stage} {c : Cursor}

theorem At.on (h : c.At ts stage opened) : c.On ts := by
  obtain ⟨before, hbefore, -⟩ := h.before
  exact ⟨before, hbefore.symm⟩

theorem At.here_mem (h : c.At ts stage opened) : c.here ∈ ts := h.on.here_mem

/-- Where a token may stand that leads on, there are more tokens. -/
theorem At.tokens_eq (h : c.At ts stage opened) (hkind : c.kind ≠ .eof) :
    c.tokens = c.here :: c.advance.tokens := by
  obtain ⟨prev, here, rest⟩ := c
  rcases h.leads with ⟨-, heof, -⟩ | ⟨next, -, hleads⟩
  · exact absurd heof hkind
  · cases rest with
    | nil => exact hleads.elim
    | cons t rest => rfl

theorem advance_prev (htokens : c.tokens = c.here :: c.advance.tokens) :
    c.advance.prev = c.here := by
  obtain ⟨prev, here, rest⟩ := c
  cases rest with
  | nil => cases htokens
  | cons t rest => rfl

/-- At the end no stage comes next. -/
theorem At.kind_ne_eof (hafter : stage.after c.kind = some next) : c.kind ≠ .eof := by
  intro heof
  rw [heof] at hafter
  cases stage with
  | inTag raw => cases raw <;> cases hafter
  | _ => cases hafter

/-- Passing a token leads to the next stage. -/
theorem At.advance (h : c.At ts stage opened) (hafter : stage.after c.kind = some next) :
    c.advance.At ts next (stillOpenWith opened c.here) := by
  have htokens := h.tokens_eq (At.kind_ne_eof hafter)
  obtain ⟨before, hbefore, rfl⟩ := h.before
  have hleads := h.leads
  rw [htokens, List.map_cons] at hleads
  refine ⟨⟨before ++ [c.here], ?_, stillOpen_concat _ _⟩, ?_⟩
  · rw [hbefore, htokens, List.append_assoc]
    rfl
  · rcases hleads with ⟨-, heof, -⟩ | ⟨next', hnext, hleads⟩
    · exact absurd heof (At.kind_ne_eof hafter)
    · cases hafter.symm.trans hnext
      exact hleads

/-- Only outside of tags may the tokens end. -/
theorem At.kind_ne_eof_of_stage (h : c.At ts stage opened) (hstage : stage ≠ .outside) :
    c.kind ≠ .eof := by
  rcases h.leads with ⟨houtside, -, -⟩ | ⟨next, hafter, -⟩
  · exact absurd houtside hstage
  · exact At.kind_ne_eof hafter

/-- In a tag the end may not come next, so the token here is another one. -/
theorem At.kind_ne_eof_of_inTag {raw : Bool} (h : c.At ts (.inTag raw) opened) : c.kind ≠ .eof :=
  h.kind_ne_eof_of_stage nofun

/-- A template ends with its last token and nowhere before, so there is another token behind one
that is not the last. -/
theorem At.rest_ne_nil (h : c.At ts stage opened) (hkind : c.kind ≠ .eof) : c.rest ≠ [] := by
  intro hnone
  have hlength := congrArg List.length (h.tokens_eq hkind)
  simp only [Cursor.tokens, List.length_cons, hnone, List.length_nil] at hlength
  omega

theorem At.rest_ne_nil_of_inTag {raw : Bool} (h : c.At ts (.inTag raw) opened) : c.rest ≠ [] :=
  h.rest_ne_nil h.kind_ne_eof_of_inTag

/-- The kind after the token here is that of the next one, since there is one. -/
theorem At.nextKind_eq {raw : Bool} (h : c.At ts (.inTag raw) opened) :
    c.nextKind = c.advance.kind := by
  have hmore := h.rest_ne_nil_of_inTag
  obtain ⟨prev, here, rest⟩ := c
  cases rest with
  | nil => exact absurd rfl hmore
  | cons t rest => rfl

end Cursor

/-! ## Passing tokens -/

/-- From one cursor on the tokens to a later one, over one token at least. -/
structure Passed (ts : List Token) (c c' : Cursor) : Prop where
  kind : c.kind ≠ .eof
  here_mem : c.here ∈ ts
  after : c'.After ts
  reaches : c.here.stop ≤ c'.prev.stop
  shorter : c'.rest.length < c.rest.length

section Passing

variable {source : List Char} {ts opened : List Token} {stage : Stage} {c c₁ c' : Cursor}

theorem Token.start_le_stop (t : Token) : t.start ≤ t.stop := Nat.le_add_right _ _

/-- One token is passed, from its start to its end. -/
theorem Passed.one (h : c.At ts stage opened) (hkind : c.kind ≠ .eof) : Passed ts c c.advance := by
  have htokens := h.tokens_eq hkind
  have hprev := Cursor.advance_prev htokens
  obtain ⟨before, hbefore, -⟩ := h.before
  refine ⟨hkind, h.here_mem, ⟨before, ?_⟩, ?_, ?_⟩
  · rw [hprev, ← htokens]
    exact hbefore
  · rw [hprev]
  · have hlength := congrArg List.length htokens
    simp only [Cursor.tokens, List.length_cons] at hlength
    omega

theorem Cursor.After.prev_mem (h : c.After ts) : c.prev ∈ ts := by
  obtain ⟨before, rfl⟩ := h
  simp

/-- A token ends before the next one starts. -/
theorem Cursor.After.prev_le (h : c.After ts) (laid : Laid source ts) :
    c.prev.stop ≤ c.here.start := by
  obtain ⟨before, hbefore⟩ := h
  have hordered := laid.ordered
  rw [hbefore] at hordered
  exact (List.pairwise_cons.1 (List.pairwise_append.1 hordered).2.1).1 c.here List.mem_cons_self

/-- What ends a program stands right behind a token that is not text. -/
theorem Cursor.After.adjoins (h : c.After ts) (laid : Laid source ts)
    (hends : c.kind.endsProgram = true) (hprev : c.prev.kind ≠ .content) :
    c.here.start = c.prev.stop := by
  obtain ⟨before, hbefore⟩ := h
  have hchain := laid.adjoins
  rw [hbefore] at hchain
  exact (List.isChain_cons_cons.1 (List.isChain_append.1 hchain).2.1).1 hends hprev

/-- What was passed first lies before what was passed then. -/
theorem Passed.trans (laid : Laid source ts) (h : Passed ts c c₁) (h' : Passed ts c₁ c') :
    Passed ts c c' where
  kind := h.kind
  here_mem := h.here_mem
  after := h'.after
  reaches := by
    have hfirst := h.reaches
    have hnext := h.after.prev_le laid
    have hlast := h'.reaches
    have hhere := c₁.here.start_le_stop
    omega
  shorter := Nat.lt_trans h'.shorter h.shorter

/-- What was passed is a piece of the source. -/
theorem Passed.holds (laid : Laid source ts) (h : Passed ts c c') :
    (⟨0, source⟩ : Rest).Holds ⟨c.here.start, c'.prev.stop⟩ := by
  have hstart := (laid.boundary _ h.here_mem).1
  have hstop := (laid.boundary _ h.after.prev_mem).2
  have hlt := laid.proper.sized _ h.here_mem h.kind
  have hreaches := h.reaches
  obtain ⟨before, text, after, rfl, hbefore, htext⟩ := hstart.le_cases hstop (by omega)
  refine ⟨before, text, after, rfl, ?_, ?_⟩
  · intro hnone
    rw [(List.append_eq_nil_iff.1 hnone).1, List.append_nil] at htext
    omega
  · rw [hbefore, htext, Nat.zero_add, Nat.zero_add]

/-- The token here lies in the source, since it can be passed. -/
theorem Passed.holds_here (laid : Laid source ts) (h : c.At ts stage opened)
    (hkind : c.kind ≠ .eof) :
    (⟨0, source⟩ : Rest).Holds c.here.span := by
  have hpassed := Passed.one h hkind
  have hholds := hpassed.holds laid
  rw [Cursor.advance_prev (h.tokens_eq hkind)] at hholds
  exact hholds

end Passing

/-! ## Reading one thing after another -/

section Ends

variable {α β : Type} {Q : α → Cursor → Prop} {R : β → Cursor → Prop} {E : Fault → Prop}

/-- What ends well may go on with what ends well from there. A fault of either is a fault of
both. -/
theorem Ends.bind {first : Reader α} {next : α → Reader β} {c : Cursor} (h : Ends Q E (first c))
    (hnext : ∀ a c', Q a c' → Ends R E (next a c')) : Ends R E (first.bind next c) := by
  rw [Reader.bind]
  rcases hfirst : first c with f | ⟨a, c'⟩
  · exact h.of_error hfirst
  · exact hnext a c' (h.of_ok hfirst)

/-- What is made of a result is judged by the result and where it was read. -/
theorem Ends.map {first : Reader α} {g : α → β} {c : Cursor} (h : Ends Q E (first c))
    (hg : ∀ a c', Q a c' → R (g a) c') : Ends R E (first.map g c) := by
  rw [Reader.map]
  rcases hfirst : first c with f | ⟨a, c'⟩
  · exact h.of_error hfirst
  · exact hg a c' (h.of_ok hfirst)

/-- A result without its cursor came with one. -/
theorem Ends.of_map_ok {x : Except Fault (α × Cursor)} {a : α} (h : Ends Q E x)
    (hx : x.map Prod.fst = .ok a) :
    ∃ c, Q a c := by
  rcases x with f | ⟨b, c⟩
  · cases hx
  · cases hx
    exact ⟨c, h⟩

/-- A fault without its cursor is the fault. -/
theorem Ends.of_map_error {x : Except Fault (α × Cursor)} {f : Fault} (h : Ends Q E x)
    (hx : x.map Prod.fst = .error f) : E f := by
  rcases x with f | ⟨b, c⟩
  · cases hx
    exact h
  · cases hx

/-- What was read one after the other from one cursor to another. -/
inductive Each (Q : α → Cursor → Cursor → Prop) : Cursor → List α → Cursor → Prop where
  | nil (c : Cursor) : Each Q c [] c
  | cons {c c₁ c' : Cursor} {a : α} {as : List α} :
    Q a c c₁ → Each Q c₁ as c' → Each Q c (a :: as) c'

/-- As long as an item is here it is read, and every item takes a token at least. So the tokens to
come are enough for all of them, and none is here when reading ends. -/
theorem Ends.many {more : Cursor → Bool} {item : Reader α} {I : Cursor → Prop}
    {Q : α → Cursor → Cursor → Prop}
    (hitem : ∀ c, I c → more c = true → Ends (fun a c' => I c' ∧ Q a c c') E (item c))
    (hshorter : ∀ a c c', Q a c c' → c'.rest.length < c.rest.length)
    (hlast : ∀ c, I c → more c = true → c.rest ≠ []) {c : Cursor} (hc : I c) :
    Ends (fun as c' => (I c' ∧ more c' = false) ∧ Each Q c as c') E (Cursor.many more item c) := by
  suffices ∀ fuel c, I c → c.rest.length ≤ fuel →
      Ends (fun as c' => (I c' ∧ more c' = false) ∧ Each Q c as c') E
        (Cursor.readWhile more item fuel c) from
    this c.rest.length c hc (Nat.le_refl _)
  intro fuel
  induction fuel with
  | zero =>
    intro c hc hfuel
    have hrest : c.rest = [] := List.eq_nil_of_length_eq_zero (Nat.le_zero.1 hfuel)
    have hmore : more c = false := Bool.eq_false_iff.2 fun hmore => hlast c hc hmore hrest
    exact ⟨⟨hc, hmore⟩, .nil c⟩
  | succ fuel ih =>
    intro c hc hfuel
    rw [Cursor.readWhile_succ]
    refine .ite (fun hmore => ?_) fun hmore => ?_
    · refine (hitem c hc hmore).bind fun a c₁ h => ?_
      have hlength := hshorter _ _ _ h.2
      refine (ih c₁ h.1 (by omega)).map fun as c' hrest => ?_
      exact ⟨hrest.1, .cons h.2 hrest.2⟩
    · exact ⟨⟨hc, Bool.eq_false_iff.2 hmore⟩, .nil c⟩

namespace Each

variable {source : List Char} {ts : List Token} {P : α → Cursor → Cursor → Prop} {as : List α}
  {c c' : Cursor}

/-- A property of each item that follows from another one is that of each item. -/
theorem imp {R : α → Cursor → Cursor → Prop} (h : Each P c as c')
    (hP : ∀ a c c', P a c c' → R a c c') :
    Each R c as c' := by
  induction h with
  | nil c => exact .nil c
  | cons hfirst _ ih => exact .cons (hP _ _ _ hfirst) ih

/-- What holds of items by where they were read holds of each. -/
theorem forall_mem {R : α → Prop} (h : Each P c as c') (hP : ∀ a c c', P a c c' → R a) :
    ∀ a ∈ as, R a := by
  induction h with
  | nil c => exact fun a ha => absurd ha List.not_mem_nil
  | cons hfirst _ ih => exact List.forall_mem_cons.2 ⟨hP _ _ _ hfirst, ih⟩

/-- Nothing was read, or tokens were passed. -/
theorem passed (laid : Laid source ts)
    (h : Each (fun a c c' => Passed ts c c' ∧ P a c c') c as c') :
    as = [] ∧ c' = c ∨ as ≠ [] ∧ Passed ts c c' := by
  induction h with
  | nil c => exact .inl ⟨rfl, rfl⟩
  | cons hfirst _ ih =>
    refine .inr ⟨List.cons_ne_nil _ _, ?_⟩
    rcases ih with ⟨-, rfl⟩ | ⟨-, hrest⟩
    · exact hfirst.1
    · exact hfirst.1.trans laid hrest

end Each

end Ends

end Stencil.Syntax
