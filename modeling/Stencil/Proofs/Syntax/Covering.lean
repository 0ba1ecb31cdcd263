import Stencil.Proofs.Syntax.Fronts
import Stencil.Template

/-!
# Tokens cover their template

A token stands in its template after a gap, which may be empty. The tokens of a template fall into
groups: one token outside of tags, or the tokens of one tag, from its opening to its closing
delimiter. Inside a tag the gaps are blanks. Before a group there is no gap, or it is the one
backslash that escapes the opening braces behind it.

Gaps and tokens one after the other are the template (`Passes.chars`), so nothing of it is lost,
read twice or moved, and every token starts where the text before it ends (`Passes.start_eq`). Each
reader passes over the text that its tokens and gaps take up, and the whole is put together from
them in the order in which the readers call each other.
-/

set_option autoImplicit false

namespace Stencil.Text

/-! ## Slices -/

/-- The bytes of a text are dropped from in front of what follows it. -/
theorem dropBytes?_append (as bs : List Char) : dropBytes? (size as) (as ++ bs) = some bs := by
  induction as with
  | nil => rw [size_nil, List.nil_append, dropBytes?]
  | cons c cs ih =>
    obtain ⟨n, hn⟩ := Nat.exists_eq_succ_of_ne_zero (Nat.ne_of_gt c.utf8Size_pos)
    have hsize : size (c :: cs) = (n + size cs) + 1 := by rw [size_cons, hn]; omega
    rw [hsize, List.cons_append, dropBytes?, if_pos (by omega), hn]
    rw [show n + size cs + 1 - n.succ = size cs by omega]
    exact ih

/-- So many bytes make as many characters as the text has. -/
theorem countBytes?_append (as bs : List Char) :
    countBytes? (size as) (as ++ bs) = some as.length := by
  induction as with
  | nil => rw [size_nil, countBytes?]; rfl
  | cons c cs ih =>
    obtain ⟨n, hn⟩ := Nat.exists_eq_succ_of_ne_zero (Nat.ne_of_gt c.utf8Size_pos)
    have hsize : size (c :: cs) = (n + size cs) + 1 := by rw [size_cons, hn]; omega
    rw [hsize, List.cons_append, countBytes?, if_pos (by omega), hn]
    rw [show n + size cs + 1 - n.succ = size cs by omega, ih]
    rfl

/-- The span of a text inside another one. -/
theorem slice?_append (as bs cs : List Char) :
    slice? (as ++ (bs ++ cs)) ⟨size as, size as + size bs⟩ = some bs := by
  rw [slice?, if_neg (Nat.not_lt.2 (Nat.le_add_right _ _)), dropBytes?_append]
  dsimp only
  rw [Nat.add_sub_cancel_left, countBytes?_append, Option.map_some, List.take_left]

end Stencil.Text

namespace Stencil.Syntax

open Stencil.Text

/-! ## Tokens in their places -/

/-- A token and the text that is skipped before it. -/
structure Placed where
  gap : List Char
  token : Token

/-- The text that a token takes up with the gap before it. -/
def Placed.text (p : Placed) : List Char := p.gap ++ p.token.text

/-- Nothing is skipped before a token, or one backslash with two opening braces behind it. -/
def Placed.Free (p : Placed) : Prop :=
  p.gap = [] ∨ p.gap = [backslash] ∧ openBraces <+: p.token.text

/-- Only blanks are skipped before a token. -/
def Placed.Spaced (p : Placed) : Prop := ∀ c ∈ p.gap, isBlank c = true

/-- The tokens of a tag after its opening delimiter. -/
inductive InTag : List Placed → Prop where
  | closing {p : Placed} : p.token.kind.closesTag = true → p.Spaced → InTag [p]
  | word {p : Placed} {ps : List Placed} :
    p.token.kind.isWord = true → p.Spaced → InTag ps → InTag (p :: ps)

/-- The tokens of one tag, or a token that is alone. -/
inductive Together : List Placed → Prop where
  | alone {p : Placed} : p.token.kind.standsAlone = true → p.Free → Together [p]
  | tag {p : Placed} {ps : List Placed} :
    p.token.kind.opensTag = true → p.Free → InTag ps → Together (p :: ps)

/-! ## Passing over tokens -/

/-- From one rest of a template to a later one, over tokens that are not empty and the gaps before
them. What is taken for a word is the next word of a tag where it stands. -/
inductive Passes : Rest → List Placed → Rest → Prop where
  | nil (r : Rest) : Passes r [] r
  | cons {r left : Rest} {gap taken : List Char} {kind : TokenKind} {ps : List Placed} :
    gap ++ taken <+: r.chars → taken ≠ [] →
      (kind.isWord = true → ReadsAs kind taken ((r.skip gap).skip taken).chars) →
        Passes ((r.skip gap).skip taken) ps left →
          Passes r (⟨gap, (r.skip gap).token kind taken⟩ :: ps) left

/-- What is skipped and what is left make the rest. -/
theorem Rest.append_skip {r : Rest} {taken : List Char} (h : taken <+: r.chars) :
    taken ++ (r.skip taken).chars = r.chars :=
  List.prefix_iff_eq_append.1 h

theorem Rest.skip_skip (r : Rest) (as bs : List Char) :
    (r.skip as).skip bs = r.skip (as ++ bs) := by
  unfold skip
  rw [size_append, List.length_append, List.drop_drop, Nat.add_assoc]

namespace Passes

variable {r middle left : Rest} {ps qs : List Placed}

/-- What was passed first is followed by what was passed then. -/
theorem append (first : Passes r ps middle) (last : Passes middle qs left) :
    Passes r (ps ++ qs) left := by
  induction first with
  | nil => exact last
  | cons hfront hsome hword _ ih => exact .cons hfront hsome hword (ih last)

/-- Gaps and tokens are the text that is passed over. -/
theorem chars (h : Passes r ps left) : ps.flatMap Placed.text ++ left.chars = r.chars := by
  induction h with
  | nil => rfl
  | @cons r left gap taken kind ps hfront _ _ _ ih =>
    rw [List.flatMap_cons, List.append_assoc, ih, Rest.skip_skip]
    exact Rest.append_skip hfront

/-- The place is further on by the size of what was passed. -/
theorem at_eq (h : Passes r ps left) : left.at_ = r.at_ + size (ps.flatMap Placed.text) := by
  induction h with
  | nil => rfl
  | @cons r left gap taken kind ps _ _ _ _ ih =>
    rw [ih, List.flatMap_cons, size_append]
    simp only [Placed.text, Rest.skip, Rest.token, size_append]
    omega

/-- The text before a token and its gap ends where the token starts. -/
theorem start_eq (h : Passes r ps left) :
    ∀ {before after : List Placed} {p : Placed}, ps = before ++ p :: after →
      p.token.start = r.at_ + size (before.flatMap Placed.text ++ p.gap) := by
  induction h with
  | nil => intro before after p h; simp at h
  | @cons r left gap taken kind ps _ _ _ _ ih =>
    intro before after p h
    cases before with
    | nil =>
      obtain ⟨rfl, -⟩ := List.cons.inj h
      rfl
    | cons q before =>
      obtain ⟨rfl, hrest⟩ := List.cons.inj h
      rw [ih hrest]
      simp only [List.flatMap_cons, Placed.text, Rest.skip, Rest.token, size_append]
      omega

/-- No token is empty, so each passes something. -/
theorem text_ne_nil (h : Passes r ps left) : ∀ p ∈ ps, p.token.text ≠ [] := by
  induction h with
  | nil => exact nofun
  | cons _ hsome _ _ ih => exact List.forall_mem_cons.2 ⟨hsome, ih⟩

/-- A word that is passed over is the next word of a tag where it stands. -/
theorem readsAs (h : Passes r ps left) :
    ∀ p ∈ ps, p.token.kind.isWord = true →
      ∃ before after, r.chars = before ++ (p.token.text ++ after) ∧
      p.token.start = r.at_ + size before ∧ ReadsAs p.token.kind p.token.text after := by
  induction h with
  | nil => exact nofun
  | @cons r left gap taken kind ps hfront _ hreads _ ih =>
    have happend : (gap ++ taken) ++ ((r.skip gap).skip taken).chars = r.chars := by
      rw [Rest.skip_skip]
      exact Rest.append_skip hfront
    intro p hp hword
    rcases List.mem_cons.1 hp with rfl | hp
    · exact ⟨gap, _, by rw [← happend, List.append_assoc]; rfl, rfl, hreads hword⟩
    · obtain ⟨before, after, hchars, hstart, hread⟩ := ih p hp hword
      refine ⟨gap ++ taken ++ before, after,
        by rw [← happend, hchars, List.append_assoc _ before], ?_, hread⟩
      rw [hstart, Rest.skip_skip, Rest.skip, size_append _ before, Nat.add_assoc]

/-- What is left is shorter if a token was passed. -/
theorem length_lt (h : Passes r ps left) (hsome : ps ≠ []) :
    left.chars.length < r.chars.length := by
  cases ps with
  | nil => exact absurd rfl hsome
  | cons p ps =>
    have hlength : (p.gap ++ p.token.text ++ (ps.flatMap Placed.text ++ left.chars)).length =
        r.chars.length := by
      rw [← h.chars, List.flatMap_cons, ← List.append_assoc]
      rfl
    have hpos := List.length_pos_iff.2 (h.text_ne_nil p List.mem_cons_self)
    simp only [List.length_append] at hlength
    omega

/-- No token starts before the text that is passed over. -/
theorem le_start (h : Passes r ps left) : ∀ p ∈ ps, r.at_ ≤ p.token.start := by
  intro p hp
  obtain ⟨before, after, rfl⟩ := List.append_of_mem hp
  rw [h.start_eq rfl]
  exact Nat.le_add_right _ _

/-- No token ends after the text that is passed over. -/
theorem stop_le (h : Passes r ps left) : ∀ p ∈ ps, p.token.stop ≤ left.at_ := by
  intro p hp
  obtain ⟨before, after, rfl⟩ := List.append_of_mem hp
  rw [Token.stop, h.start_eq rfl, h.at_eq]
  simp only [List.flatMap_append, List.flatMap_cons, Placed.text, size_append]
  omega

/-- Tokens do not overlap, and stand in the order of the template. -/
theorem pairwise (h : Passes r ps left) :
    (ps.map Placed.token).Pairwise fun first second => first.stop ≤ second.start := by
  induction h with
  | nil => exact List.Pairwise.nil
  | cons _ _ _ hrest ih =>
    refine List.pairwise_cons.2 ⟨fun t ht => ?_, ih⟩
    obtain ⟨p, hp, rfl⟩ := List.mem_map.1 ht
    exact hrest.le_start p hp

end Passes

/-- Groups of tokens with nothing else between two rests of a template. -/
def Covers (r : Rest) (tokens : List Token) (left : Rest) : Prop :=
  ∃ groups : List (List Placed), (∀ group ∈ groups, Together group) ∧
    tokens = groups.flatten.map Placed.token ∧ Passes r groups.flatten left

namespace Covers

variable {r middle left : Rest} {tokens more : List Token}

theorem nil (r : Rest) : Covers r [] r := ⟨[], nofun, rfl, .nil r⟩

theorem append (first : Covers r tokens middle) (last : Covers middle more left) :
    Covers r (tokens ++ more) left := by
  obtain ⟨groups, htogether, rfl, hpasses⟩ := first
  obtain ⟨groups', htogether', rfl, hpasses'⟩ := last
  refine ⟨groups ++ groups', List.forall_mem_append.2 ⟨htogether, htogether'⟩, ?_, ?_⟩
  · rw [List.flatten_append, List.map_append]
  · rw [List.flatten_append]
    exact hpasses.append hpasses'

/-- Tokens that stand together make one group. -/
theorem one {ps : List Placed} (htogether : Together ps) (hpasses : Passes r ps left) :
    Covers r (ps.map Placed.token) left :=
  ⟨[ps], List.forall_mem_singleton.2 htogether, by simp, by simpa using hpasses⟩

theorem length_lt (h : Covers r tokens left) (hsome : tokens ≠ []) :
    left.chars.length < r.chars.length := by
  obtain ⟨groups, -, rfl, hpasses⟩ := h
  exact hpasses.length_lt fun hnone => hsome (by rw [hnone, List.map_nil])

/-- Plain text, of which no token is made when it is empty. -/
theorem content {text : List Char} (h : text <+: r.chars) :
    Covers r (contentOf r text) (r.skip text) := by
  unfold contentOf
  split
  · rename_i hnone
    rw [List.isEmpty_iff.1 hnone]
    exact nil r
  · rename_i hsome
    have htext : text ≠ [] := fun hnone => hsome (List.isEmpty_iff.2 hnone)
    have hpasses : Passes r [⟨[], r.token .content text⟩] (r.skip text) :=
      .cons h htext nofun (.nil _)
    exact one (.alone rfl (.inl rfl)) hpasses

end Covers

/-- Nothing is asked of what is no word. -/
theorem notWord {kind : TokenKind} {text rest : List Char}
    (h : kind.standsAlone = true ∨ kind.opensTag = true ∨ kind.closesTag = true) :
    kind.isWord = true → ReadsAs kind text rest := by
  intro hword
  rw [TokenKind.isWord_eq_false h] at hword
  cases hword

/-! ## Delimiters -/

section Opening

variable {r left : Rest} {gap taken more : List Char} {kind : TokenKind} {tokens : List Token}

/-- Some characters that start with opening braces stand at the front, perhaps after a backslash. -/
structure Opens (r : Rest) (gap taken : List Char) : Prop where
  free : gap = [] ∨ gap = [backslash]
  stands : gap ++ taken <+: r.chars
  braces : openBraces <+: taken

namespace Opens

/-- More of the text that follows. -/
theorem extend (h : Opens r gap taken) (hmore : more <+: (r.skip gap).chars.drop taken.length) :
    Opens r gap (taken ++ more) where
  free := h.free
  stands := by
    rw [← List.append_assoc]
    refine prefix_append_of_drop h.stands ?_
    rwa [List.length_append, ← List.drop_drop]
  braces := h.braces.trans (List.prefix_append _ _)

theorem ne_nil (h : Opens r gap taken) : taken ≠ [] := fun hnone =>
  absurd (List.prefix_nil.1 (hnone ▸ h.braces)) (by decide)

theorem placed (h : Opens r gap taken) : Placed.Free ⟨gap, (r.skip gap).token kind taken⟩ :=
  h.free.imp id fun hgap => ⟨hgap, h.braces⟩

/-- A token of its own. -/
theorem alone (h : Opens r gap taken) (hkind : kind.standsAlone = true) :
    Covers r [(r.skip gap).token kind taken] ((r.skip gap).skip taken) :=
  Covers.one (.alone hkind h.placed)
    (.cons h.stands h.ne_nil (notWord (.inl hkind)) (.nil _))

end Opens

/-- The words of a tag and its closing delimiter, each after blanks. -/
theorem inside_passes {opened : Nat} {raw : Bool} {fuel : Nat} :
    ∀ {r left : Rest} {tokens : List Token}, inside opened raw fuel r = .ok (tokens, left) →
      ∃ ps, InTag ps ∧ tokens = ps.map Placed.token ∧ Passes r ps left := by
  induction fuel with
  | zero => intro r left tokens h; cases h
  | succ fuel ih =>
    intro r left tokens h
    have hblanks := leadingBlanks_isPrefix r.chars
    have spaced : ∀ token, Placed.Spaced ⟨leadingBlanks r.chars, token⟩ := fun _ c hc =>
      isBlank_of_mem_leadingBlanks hc
    unfold inside at h
    dsimp only at h
    split at h
    · rename_i kind taken hcloses
      cases h
      obtain ⟨hsome, hfront, hkind⟩ := closer?_fronts hcloses
      exact ⟨[⟨_, _⟩], .closing hkind (spaced _), rfl,
        .cons (prefix_append_of_drop hblanks hfront) hsome
          (notWord (.inr (.inr hkind))) (.nil _)⟩
    split at h
    · cases h
    rename_i c cs hchars
    split at h
    · cases h
    split at h
    · cases h
    split at h
    · cases h
    rename_i w hword
    have hfronts := word?_fronts hword
    -- The blanks are skipped, so the word stands where none is.
    have hreads := ReadsAs.of_word? (hchars ▸ hword) (not_isBlank_of_drop hchars)
    rw [← hchars] at hreads
    split at h
    · cases h
    · rename_i tokens' left' hinside
      cases h
      obtain ⟨ps, htag, rfl, hpasses⟩ := ih hinside
      exact ⟨⟨_, _⟩ :: ps, .word (hfronts.isWord _) (spaced _) htag, rfl,
        .cons (prefix_append_of_drop hblanks hfronts.stands) hfronts.some_
          (fun _ => hreads) hpasses⟩

/-- An opening delimiter with the words and the closing delimiter of its tag. -/
theorem Opens.tag {opened fuel : Nat} {raw : Bool} (h : Opens r gap taken)
    (hkind : kind.opensTag = true)
    (hinside : inside opened raw fuel ((r.skip gap).skip taken) = .ok (tokens, left)) :
    Covers r ((r.skip gap).token kind taken :: tokens) left := by
  obtain ⟨ps, htag, rfl, hpasses⟩ := inside_passes hinside
  exact Covers.one (.tag hkind h.placed htag)
    (.cons h.stands h.ne_nil (notWord (.inr (.inl hkind))) hpasses)

/-- What is scanned, if anything, is at least one token, and no text is passed over but its
groups. -/
def Scans (r : Rest) (scanned : Except Fault Scanned) : Prop :=
  ∀ tokens left, scanned = .ok (tokens, left) → Covers r tokens left ∧ tokens ≠ []

namespace Scans

theorem error (r : Rest) (f : Fault) : Scans r (.error f) := nofun

theorem ok (h : Covers r tokens left) (hsome : tokens ≠ []) : Scans r (.ok (tokens, left)) := by
  intro tokens' left' heq
  cases heq
  exact ⟨h, hsome⟩

/-- A choice scans when both its sides do. -/
theorem ite {c : Prop} [Decidable c] {yes no : Except Fault Scanned} (hyes : c → Scans r yes)
    (hno : ¬c → Scans r no) : Scans r (if c then yes else no) := by
  split
  · exact hyes ‹c›
  · exact hno ‹¬c›

end Scans

namespace Opens

/-- A delimiter that is a piece by itself covers its own text. -/
theorem scans_alone (h : Opens r gap taken) (hkind : kind.standsAlone = true) :
    Scans r (.ok ([(r.skip gap).token kind taken], (r.skip gap).skip taken)) :=
  .ok (h.alone hkind) (List.cons_ne_nil _ _)

/-- A tag covers its delimiters, its words and the blanks between them. -/
theorem scans_tagFrom (h : Opens r gap taken) (hkind : kind.opensTag = true) :
    Scans r (tagFrom (r.skip gap) kind taken) := by
  unfold tagFrom
  dsimp only
  split
  · exact .error _ _
  · rename_i hinside
    exact .ok (h.tag hkind hinside) (List.cons_ne_nil _ _)

/-- A comment covers all up to the end of its closing delimiter. -/
theorem scans_commentFrom (h : Opens r gap taken) (long : Bool) :
    Scans r (commentFrom (r.skip gap) taken long) := by
  have comment : ∀ {text : List Char},
      text ++ closeBraces <+: (r.skip gap).chars.drop taken.length →
      Scans r (.ok ([(r.skip gap).token .comment (taken ++ text ++ closeBraces)],
        (r.skip gap).skip (taken ++ text ++ closeBraces))) := by
    intro text hfront
    rw [List.append_assoc]
    exact (h.extend hfront).scans_alone rfl
  unfold commentFrom
  dsimp only
  cases long with
  | true =>
    rw [if_pos rfl]
    split
    · exact .error _ _
    · rename_i text htext
      obtain ⟨_, rfl, hfront⟩ := longComment?_eq htext
      exact comment hfront
  | false =>
    rw [if_neg Bool.false_ne_true]
    cases hrest : (breakOn closeBraces ((r.skip gap).chars.drop taken.length)).2.isEmpty with
    | true => exact .error _ _
    | false => exact comment (breakOn_isPrefix hrest)

/-- A raw block covers its tag, its text and the tag that closes it. -/
theorem scans_rawFrom (h : Opens r gap rawBraces) : Scans r (rawFrom (r.skip gap)) := by
  unfold rawFrom
  dsimp only
  split
  · exact .error _ _
  rename_i words body hinside
  split
  · exact .error _ _
  rename_i text closing hbody
  obtain ⟨hfront, hclosing⟩ := rawBody?_fronts _ hbody
  have htext : text <+: body.chars := (List.prefix_append _ _).trans hfront
  have hend : closing <+: (body.skip text).chars := by
    rw [← Rest.append_skip htext] at hfront
    exact (List.prefix_append_right_inj text).1 hfront
  have hclose : Covers (body.skip text) [(body.skip text).token .endRaw closing]
      ((body.skip text).skip closing) :=
    Covers.one (.alone rfl (.inl rfl) : Together [⟨[], _⟩]) (.cons hend hclosing nofun (.nil _))
  exact .ok (((h.tag rfl hinside).append (Covers.content htext)).append hclose) (by simp)

/-- An `else` or a caret alone in its tag. -/
theorem scans_loneElse {cs closing : List Char} (h : Opens r gap taken)
    (hcs : cs = (r.skip gap).chars.drop taken.length) (hcloses : emptyTagEnd? cs = some closing) :
    Scans r (.ok ([(r.skip gap).token .loneElse (taken ++ closing)],
      (r.skip gap).skip (taken ++ closing))) :=
  (h.extend (hcs ▸ emptyTagEnd?_isPrefix hcloses)).scans_alone rfl

end Opens

/-- The tag at the front, perhaps after a backslash. -/
theorem scans_tag (hopens : Opens r gap openBraces) : Scans r (tag (r.skip gap)) := by
  unfold tag
  refine Scans.ite (fun hraw => ?_) fun _ => ?_
  · refine Opens.scans_rawFrom ⟨hopens.free, ?_, by decide⟩
    exact prefix_append_of_drop ((List.prefix_append _ _).trans hopens.stands)
      (startsWith_iff.1 hraw)
  extract_lets opener after
  have hopener : Opens r gap opener := by
    unfold opener
    split
    · rename_i hstrips
      exact hopens.extend (startsWith_iff.1 hstrips)
    · exact hopens
  have opened : ∀ {more}, startsWith more after = true → Opens r gap (opener ++ more) :=
    fun hfront => hopener.extend (startsWith_iff.1 hfront)
  -- The characters after the braces tell the kinds of tags apart.
  refine .ite (fun hfront => (opened hfront).scans_tagFrom rfl) fun _ => ?_
  refine .ite (fun _ => .error _ _) fun _ => ?_
  refine .ite (fun hfront => (opened hfront).scans_tagFrom rfl) fun _ => ?_
  refine .ite (fun hfront => (opened hfront).scans_tagFrom rfl) fun _ => ?_
  refine .ite (fun hfront => (opened hfront).scans_tagFrom rfl) fun _ => ?_
  refine .ite (fun hcaret => ?_) fun _ => ?_
  · split
    · rename_i closing hcloses
      have hlone := (opened hcaret).scans_loneElse
        (by rw [List.length_append, ← List.drop_drop]; rfl) hcloses
      rwa [List.append_assoc] at hlone
    · exact (opened hcaret).scans_tagFrom rfl
  refine .ite (fun hfront => (opened hfront).scans_commentFrom true) fun _ => ?_
  refine .ite (fun hfront => (opened hfront).scans_commentFrom false) fun _ => ?_
  refine .ite (fun hfront => (opened hfront).scans_tagFrom rfl) fun _ => ?_
  refine .ite (fun hfront => (opened hfront).scans_tagFrom rfl) fun _ => ?_
  split
  · exact hopener.scans_tagFrom rfl
  rename_i word hword
  have helse := hopener.extend (elseWord?_isPrefix hword)
  dsimp only
  split
  · rename_i closing hcloses
    exact helse.scans_loneElse (by rw [List.length_append, ← List.drop_drop]) hcloses
  split
  · exact .ite (fun _ => helse.scans_tagFrom rfl) fun _ => hopener.scans_tagFrom rfl
  · exact hopener.scans_tagFrom rfl

end Opening

/-! ## Templates -/

/-- Plain text before what is scanned. -/
theorem Scans.after_content {r : Rest} {text : List Char} {scanned : Except Fault Scanned}
    (htext : text <+: r.chars) : Scans (r.skip text) scanned →
      Scans r (match scanned with
        | .error f => .error f
        | .ok (tokens, left) => .ok (contentOf r text ++ tokens, left)) := by
  intro h
  split
  · exact .error _ _
  · obtain ⟨hcovers, hsome⟩ := h _ _ rfl
    exact .ok ((Covers.content htext).append hcovers) (List.append_ne_nil_of_right_ne_nil _ hsome)

/-- What starts with braces after a backslash that ends the text before them. -/
theorem opens_of_backslash {r : Rest} {before rest taken : List Char}
    (hchars : before ++ rest = r.chars) (hends : endsWith [backslash] before = true)
    (hfront : taken <+: rest) (hbraces : openBraces <+: taken) :
    before.dropLast <+: r.chars ∧ r.skip before = (r.skip before.dropLast).skip [backslash] ∧
      Opens (r.skip before.dropLast) [backslash] taken := by
  obtain ⟨text, rfl⟩ := endsWith_iff.1 hends
  rw [List.append_assoc] at hchars
  rw [List.dropLast_concat]
  have htext : text <+: r.chars := ⟨_, hchars⟩
  refine ⟨htext, (Rest.skip_skip r text _).symm, .inr rfl, ?_, hbraces⟩
  rw [List.append_cancel_left ((Rest.append_skip htext).trans hchars.symm)]
  exact (List.prefix_append_right_inj [backslash]).2 hfront

/-- The text up to the next tag, and that tag. -/
theorem scans_piece {r : Rest} (hsome : r.chars ≠ []) : Scans r (piece r) := by
  have hchars := breakOn_append openBraces r.chars
  have hbraces := prefix_breakOn openBraces r.chars
  unfold piece
  generalize breakOn openBraces r.chars = broken at hchars hbraces ⊢
  obtain ⟨before, rest⟩ := broken
  dsimp only at hchars hbraces ⊢
  have hbefore : before <+: r.chars := ⟨rest, hchars⟩
  refine .ite (fun hnone => ?_) fun hfound => ?_
  · -- The text goes on to the end.
    rw [List.isEmpty_iff.1 hnone, List.append_nil] at hchars
    refine .ok (.content hbefore) ?_
    rw [contentOf, if_neg]
    · exact List.cons_ne_nil _ _
    · exact fun hempty => hsome (hchars ▸ List.isEmpty_iff.1 hempty)
  have hopens : openBraces <+: rest := hbraces.resolve_right fun h => hfound (List.isEmpty_iff.2 h)
  refine .ite (fun hdouble => ?_) fun _ => .ite (fun hsingle => ?_) fun _ => ?_
  · -- Two backslashes: one of them is text, and the tag is a tag.
    have hends : endsWith [backslash] before = true :=
      endsWith_iff.2 (List.IsSuffix.trans ⟨[backslash], rfl⟩ (endsWith_iff.1 hdouble))
    obtain ⟨htext, hskip, hescaped⟩ := opens_of_backslash hchars hends hopens (List.prefix_refl _)
    rw [hskip]
    exact .after_content htext (scans_tag hescaped)
  · -- One backslash: it is passed over, and the braces are text up to the next tag.
    obtain ⟨htext, hskip, hescaped⟩ := opens_of_backslash hchars hsingle (verbatim_isPrefix hopens)
      (List.prefix_append _ _)
    rw [hskip]
    exact .ok ((Covers.content htext).append (hescaped.alone rfl)) (by simp)
  · have hfront : Opens (r.skip before) [] openBraces := by
      refine ⟨.inl rfl, ?_, List.prefix_refl _⟩
      rw [List.append_cancel_left ((Rest.append_skip hbefore).trans hchars.symm)]
      exact hopens
    exact .after_content hbefore (scans_tag hfront)

/-- Groups of tokens up to the end, where the last token is. -/
theorem pieces_covers {fuel : Nat} :
    ∀ {r : Rest} {ts : List Token}, r.chars.length ≤ fuel → pieces fuel r = .ok ts →
      ∃ tokens left, ts = tokens ++ [left.token .eof []] ∧ Covers r tokens left ∧
        left.chars = [] := by
  induction fuel with
  | zero =>
    intro r ts hfuel h
    cases h
    exact ⟨[], r, rfl, .nil r, List.eq_nil_of_length_eq_zero (Nat.le_zero.1 hfuel)⟩
  | succ fuel ih =>
    intro r ts hfuel h
    unfold pieces at h
    split at h
    · rename_i hnone
      cases h
      exact ⟨[], r, rfl, .nil r, List.isEmpty_iff.1 hnone⟩
    rename_i hsome
    split at h
    · cases h
    rename_i tokens middle hpiece
    split at h
    · cases h
    rename_i more hmore
    cases h
    obtain ⟨hcovers, htokens⟩ :=
      scans_piece (fun hnone => hsome (List.isEmpty_iff.2 hnone)) _ _ hpiece
    have hlength := hcovers.length_lt htokens
    obtain ⟨tokens', left, rfl, hcovers', hleft⟩ := ih (by omega) hmore
    exact ⟨tokens ++ tokens', left, (List.append_assoc _ _ _).symm, hcovers.append hcovers', hleft⟩

/-- Tokens of a source, in groups that cover it. -/
structure CoveredBy (source : List Char) (ts : List Token) (groups : List (List Placed)) :
    Prop where
  /-- Each group is one token outside of tags or one tag. -/
  together : ∀ group ∈ groups, Together group
  /-- The tokens are those of the groups, and an empty one at the end of the source. -/
  tokens : ts = groups.flatten.map Placed.token ++ [⟨.eof, size source, []⟩]
  /-- The source is the gaps and the texts of the tokens, in their order. -/
  chars : groups.flatten.flatMap Placed.text = source
  /-- No token but the last is empty. -/
  nonempty : ∀ p ∈ groups.flatten, p.token.text ≠ []
  /-- A token starts where the text before it and its gap end. -/
  starts : ∀ before p after, groups.flatten = before ++ p :: after →
    p.token.start = size (before.flatMap Placed.text ++ p.gap)
  /-- The span of a token lies in the source, between characters, and holds its text. -/
  slices : ∀ t ∈ ts, slice? source t.span = some t.text
  /-- Spans are in order and do not overlap. -/
  ordered : ts.Pairwise fun first second => first.stop ≤ second.start

/-- What covers the whole text leaves nothing but the end. -/
theorem Covers.coveredBy {source : List Char} {tokens : List Token} {left : Rest}
    (h : Covers ⟨0, source⟩ tokens left) (hleft : left.chars = []) :
    ∃ groups, CoveredBy source (tokens ++ [left.token .eof []]) groups := by
  obtain ⟨groups, htogether, rfl, hpasses⟩ := h
  have hchars : groups.flatten.flatMap Placed.text = source := by
    rw [← List.append_nil (List.flatMap _ _), ← hleft]
    exact hpasses.chars
  have hstop : left.at_ = size source := by
    rw [hpasses.at_eq, hchars]
    exact Nat.zero_add _
  have hstart : ∀ before p after, groups.flatten = before ++ p :: after →
      p.token.start = size (before.flatMap Placed.text ++ p.gap) := by
    intro before p after heq
    rw [hpasses.start_eq heq]
    exact Nat.zero_add _
  refine ⟨groups, htogether, ?_, hchars, hpasses.text_ne_nil, hstart, ?_, ?_⟩
  · rw [Rest.token, hstop]
  · -- The span of a token cuts its own text out of the source.
    intro t ht
    rcases List.mem_append.1 ht with ht | ht
    · obtain ⟨p, hp, rfl⟩ := List.mem_map.1 ht
      obtain ⟨before, after, heq⟩ := List.append_of_mem hp
      have hsource : before.flatMap Placed.text ++ p.gap ++
          (p.token.text ++ after.flatMap Placed.text) = source := by
        rw [← hchars, heq, List.flatMap_append, List.flatMap_cons, Placed.text]
        simp only [List.append_assoc]
      rw [Token.span, Token.stop, hstart before p after heq, ← hsource]
      exact slice?_append _ _ _
    · -- The end of the text has an empty span.
      obtain rfl := List.mem_singleton.1 ht
      have hend := slice?_append source [] []
      rw [List.append_nil, List.append_nil] at hend
      rw [Token.span, Token.stop, Rest.token, hstop]
      exact hend
  · refine List.pairwise_append.2 ⟨hpasses.pairwise, List.pairwise_singleton _ _, ?_⟩
    intro t ht last hlast
    obtain ⟨p, hp, rfl⟩ := List.mem_map.1 ht
    obtain rfl := List.mem_singleton.1 hlast
    exact hpasses.stop_le p hp

end Stencil.Syntax

namespace Stencil.Template

open Stencil.Syntax

/-- The tokens of a template are those of one token or one tag after the other. They stand in its
order, do not overlap, and are not empty but for the last. What is skipped between them is blanks
inside a tag, and outside of tags the single backslash that escapes the braces behind it. -/
theorem tokens_cover {sourceName : Option String} {source : String} {ts : List Token}
    (h : tokens sourceName source = .ok ts) : ∃ groups, CoveredBy source.toList ts groups := by
  unfold tokens at h
  split at h
  · cases h
  rename_i ts' hts
  cases h
  obtain ⟨tokens, left, rfl, hcovers, hleft⟩ :=
    pieces_covers (r := ⟨0, source.toList⟩) (Nat.le_refl _) hts
  exact hcovers.coveredBy hleft

/-- An escaped tag, a tag after an escaped backslash, with blanks between its words, and a raw
block. -/
theorem tokens_cover_escapes :
    let source := "a\\\x7b\x7bb\x7d\x7d\\\\\x7b\x7b#if  x ~\x7d\x7d" ++
      "\x7b\x7b\x7b\x7br\x7d\x7d\x7d\x7d\x7b\x7bc\x7d\x7d\x7b\x7b\x7b\x7b/r\x7d\x7d\x7d\x7d"
    let ts : List Token :=
      [⟨.content, 0, ['a']⟩, ⟨.content, 2, "\x7b\x7bb\x7d\x7d".toList⟩, ⟨.content, 7, [backslash]⟩,
        ⟨.openBlock, 9, openBraces ++ ['#']⟩, ⟨.name, 12, ['i', 'f']⟩, ⟨.name, 16, ['x']⟩,
        ⟨.close, 18, '~' :: closeBraces⟩, ⟨.openRaw, 21, rawBraces⟩, ⟨.name, 25, ['r']⟩,
        ⟨.closeRaw, 26, closeRawBraces⟩, ⟨.content, 30, "\x7b\x7bc\x7d\x7d".toList⟩,
        ⟨.endRaw, 35, rawBraces ++ ['/', 'r'] ++ closeRawBraces⟩, ⟨.eof, 45, []⟩]
    tokens none source = .ok ts ∧ ∃ groups, CoveredBy source.toList ts groups := by
  intro source ts
  have htokens : (tokens none source).toOption = some ts := by decide +kernel
  have h : tokens none source = .ok ts := by
    cases heq : tokens none source with
    | error e => rw [heq] at htokens; cases htokens
    | ok ts' => rw [heq] at htokens; exact congrArg _ (Option.some.inj htokens)
  exact ⟨h, tokens_cover h⟩

end Stencil.Template
