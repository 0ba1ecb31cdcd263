import Mathlib.Data.List.Chain
import Stencil.Proofs.Syntax.Covering

/-!
# Groups of tokens

The kinds of the tokens of a template come in groups (`IsGroup`): a token that stands alone; a tag
from its opening delimiter over its words to the delimiter that closes it; or a raw block from its
opening tag over its text, if it has any, to its closing tag. After the last group stands the end
(`tokens?_grouped`).

Two more facts about the scanner are read off in the same pass. Where a tag or the end stops a
program, no gap is before it unless text is (`Adjoins`). And a fault of the scanner concerns a piece
of the template that starts before its end (`Rest.Faults`).
-/

set_option autoImplicit false

namespace Stencil.Syntax

open Stencil.Text

/-! ## Results and faults -/

/-- What is read, and where reading goes on after it, have one property, and a fault has another. -/
def Ends {α γ : Type} (Q : α → γ → Prop) (E : Fault → Prop) : Except Fault (α × γ) → Prop
  | .error f => E f
  | .ok (a, c) => Q a c

namespace Ends

variable {α γ : Type} {Q R : α → γ → Prop} {E F : Fault → Prop} {x : Except Fault (α × γ)}

/-- What ends well in one sense does so in a weaker one. -/
theorem imp (h : Ends Q E x) (hQ : ∀ a c, x = .ok (a, c) → Q a c → R a c) (hE : ∀ f, E f → F f) :
    Ends R F x := by
  rcases x with f | ⟨a, c⟩
  · exact hE f h
  · exact hQ a c rfl h

/-- A choice ends well when both its sides do. -/
theorem ite {p : Prop} [Decidable p] {yes no : Except Fault (α × γ)} (hyes : p → Ends Q E yes)
    (hno : ¬p → Ends Q E no) : Ends Q E (if p then yes else no) := by
  split
  · exact hyes ‹p›
  · exact hno ‹¬p›

theorem of_ok {a : α} {c : γ} (h : Ends Q E x) (hx : x = .ok (a, c)) : Q a c := by
  subst hx
  exact h

theorem of_error {f : Fault} (h : Ends Q E x) (hx : x = .error f) : E f := by
  subst hx
  exact h

end Ends

/-! ## Groups -/

/-- The kinds of the tokens of one group. -/
inductive IsGroup : List TokenKind → Prop where
  /-- Text, a comment, or an `else` that fills its tag. -/
  | alone {kind : TokenKind} :
    kind = .content ∨ kind = .comment ∨ kind = .loneElse → IsGroup [kind]
  /-- A tag. -/
  | tag {opening closing : TokenKind} {words : List TokenKind} :
    opening.opensTag = true → opening ≠ .openRaw → (∀ w ∈ words, w.isWord = true) →
      closing = .close ∨ closing = .closeUnescaped → IsGroup (opening :: (words ++ [closing]))
  /-- A raw block. Its opening tag may be closed as any tag is. -/
  | raw {closing : TokenKind} {words text : List TokenKind} :
    (∀ w ∈ words, w.isWord = true) → closing.closesTag = true → text = [] ∨ text = [.content] →
      IsGroup (.openRaw :: (words ++ closing :: (text ++ [.endRaw])))

/-- Some tokens fall into groups. -/
def InGroups (tokens : List Token) : Prop :=
  ∃ groups : List (List Token), tokens = groups.flatten ∧ ∀ g ∈ groups, IsGroup (g.map Token.kind)

theorem InGroups.nil : InGroups [] := ⟨[], rfl, nofun⟩

theorem InGroups.one {tokens : List Token} (h : IsGroup (tokens.map Token.kind)) :
    InGroups tokens :=
  ⟨[tokens], by simp, by simpa using h⟩

/-- Groups may follow one another. -/
theorem InGroups.append {first second : List Token} (hfirst : InGroups first)
    (hsecond : InGroups second) :
    InGroups (first ++ second) := by
  obtain ⟨groups, rfl, hgroups⟩ := hfirst
  obtain ⟨groups', rfl, hgroups'⟩ := hsecond
  refine ⟨groups ++ groups', by simp, ?_⟩
  intro g hg
  rcases List.mem_append.1 hg with hg | hg
  · exact hgroups g hg
  · exact hgroups' g hg

/-- Whether a token of this kind ends the program before it. -/
def TokenKind.endsProgram : TokenKind → Bool
  | .eof | .openEnd | .loneElse | .openElse => true
  | _ => false

theorem TokenKind.endsProgram_eq_false {kind : TokenKind}
    (h : kind.isWord = true ∨ kind.closesTag = true) : kind.endsProgram = false := by
  revert h
  cases kind <;> decide

/-- What ends a program stands right behind the token before it, unless that is text. -/
def Adjoins (t u : Token) : Prop := u.kind.endsProgram = true → t.kind ≠ .content → u.start = t.stop

/-- The tokens of whole groups from one rest of a template to another. -/
structure Grouping (r : Rest) (tokens : List Token) (left : Rest) : Prop where
  groups : InGroups tokens
  some_ : tokens ≠ []
  adjoins : tokens.IsChain Adjoins
  /-- Nothing is skipped before the first token if it ends a program. -/
  first : ∀ t ∈ tokens.head?, t.kind.endsProgram = true → t.start = r.at_
  /-- Nothing is skipped after the last token. -/
  last : ∀ t ∈ tokens.getLast?, t.stop = left.at_

/-- Tokens that do not end a program adjoin whatever is before them. -/
theorem isChain_adjoins {t : Token} {ts : List Token} (h : ∀ u ∈ ts, u.kind.endsProgram = false) :
    (t :: ts).IsChain Adjoins := by
  induction ts generalizing t with
  | nil => exact .singleton t
  | cons u ts ih =>
    have hu := h u List.mem_cons_self
    refine List.isChain_cons_cons.2 ⟨?_, ih fun v hv => h v (List.mem_cons_of_mem u hv)⟩
    intro hends
    rw [hu] at hends
    cases hends

/-- A group of which the first token alone may end a program. -/
theorem Grouping.one {r left : Rest} {t : Token} {ts : List Token}
    (hgroup : IsGroup ((t :: ts).map Token.kind)) (hstart : t.start = r.at_)
    (hlast : ∀ u ∈ (t :: ts).getLast?, u.stop = left.at_)
    (hinner : ∀ u ∈ ts, u.kind.endsProgram = false) : Grouping r (t :: ts) left where
  groups := .one hgroup
  some_ := List.cons_ne_nil t ts
  adjoins := isChain_adjoins hinner
  first := by
    rintro u ⟨⟩ -
    exact hstart
  last := hlast

namespace Rest

variable {r : Rest} {taken more : List Char} {s : Span}

/-- A span is that of a piece of the rest, and starts before the end of the rest. -/
def Holds (r : Rest) (s : Span) : Prop :=
  ∃ before text after, r.chars = before ++ (text ++ after) ∧ text ++ after ≠ [] ∧
    s = ⟨r.at_ + size before, r.at_ + size (before ++ text)⟩

/-- What is before a place of the rest. -/
theorem holds_before (h : taken <+: r.chars) (hsome : taken ≠ []) :
    r.Holds ⟨r.at_, (r.skip taken).at_⟩ := by
  obtain ⟨after, hafter⟩ := h
  refine ⟨[], taken, after, hafter.symm, ?_, ?_⟩
  · simp [hsome]
  · simp [skip]

/-- One character at a place of the rest. -/
theorem holds_char {c : Char} {cs : List Char} (h : taken <+: r.chars)
    (hchars : (r.skip taken).chars = c :: cs) :
    r.Holds ⟨(r.skip taken).at_, (r.skip taken).at_ + c.utf8Size⟩ := by
  refine ⟨taken, [c], cs, ?_, by simp, ?_⟩
  · rw [← append_skip h, hchars]
    rfl
  · simp [skip, Nat.add_assoc]

/-- The whole rest. -/
theorem holds_all (h : r.chars ≠ []) : r.Holds ⟨r.at_, r.stop⟩ := by
  refine ⟨[], r.chars, [], by simp, by simpa using h, ?_⟩
  simp [stop]

/-- A piece of what is left is a piece of the whole. -/
theorem Holds.of_skip (htaken : taken <+: r.chars) (h : (r.skip taken).Holds s) : r.Holds s := by
  obtain ⟨before, text, after, hchars, hsome, rfl⟩ := h
  refine ⟨taken ++ before, text, after, ?_, hsome, ?_⟩
  · rw [← append_skip htaken, hchars, List.append_assoc]
  · simp [skip, Nat.add_assoc]

end Rest

/-- Whether the scanner fails for this cause. -/
def Cause.isLexical : Cause → Bool
  | .invalidCharacter _ | .unterminatedMustache | .unterminatedComment | .unterminatedRawBlock _
  | .unterminatedString | .invalidStripMarker | .unsupportedDecorator => true
  | _ => false

/-- A fault of the scanner, about a piece of the rest. -/
structure Rest.Faults (r : Rest) (f : Fault) : Prop where
  cause : f.cause.isLexical = true
  span : r.Holds f.span
  related : f.related = []

/-- A fault further on is one of the whole rest. -/
theorem Rest.Faults.of_skip {r : Rest} {taken : List Char} {f : Fault} (htaken : taken <+: r.chars)
    (h : (r.skip taken).Faults f) : r.Faults f :=
  ⟨h.cause, h.span.of_skip htaken, h.related⟩

theorem isLexical_wordCause (c : Char) : (wordCause c).isLexical = true := by
  unfold wordCause
  split <;> rfl

/-! ## Tags -/

/-- Four braces close no tag but that of a raw block. -/
theorem closer?_ne_closeRaw {cs taken : List Char} {kind : TokenKind}
    (h : closer? false cs = some (kind, taken)) :
    kind = .close ∨ kind = .closeUnescaped := by
  unfold closer? at h
  rw [Bool.false_and, if_neg Bool.false_ne_true] at h
  split at h
  · cases h
    exact .inr rfl
  split at h
  · cases h
    exact .inr rfl
  split at h
  · cases h
    exact .inl rfl
  split at h
  · cases h
    exact .inl rfl
  · cases h

/-- The words of a tag and the delimiter that closes it. -/
structure WordsAndClose (raw : Bool) (tokens : List Token) (left : Rest) : Prop where
  split : ∃ words closing, tokens = words ++ [closing] ∧ (∀ w ∈ words, w.kind.isWord = true) ∧
    closing.kind.closesTag = true ∧
      (raw = false → closing.kind = .close ∨ closing.kind = .closeUnescaped) ∧
      closing.stop = left.at_

/-- A word more before words and a closing token. -/
theorem WordsAndClose.cons {raw : Bool} {tokens : List Token} {left : Rest} {w : Token}
    (h : WordsAndClose raw tokens left) (hw : w.kind.isWord = true) :
    WordsAndClose raw (w :: tokens) left := by
  obtain ⟨words, closing, rfl, hwords, hclose⟩ := h.split
  exact ⟨w :: words, closing, rfl, List.forall_mem_cons.2 ⟨hw, hwords⟩, hclose⟩

/-- Inside a tag words are read up to a closing delimiter. What is wrong there starts no earlier
than the tag does. The induction is on the words; `taken` is the tag so far. -/
theorem inside_ends {r : Rest} {raw : Bool} (fuel : Nat) :
    ∀ {taken : List Char}, taken <+: r.chars → taken ≠ [] →
      Ends (WordsAndClose raw) r.Faults (inside r.at_ raw fuel (r.skip taken)) := by
  induction fuel with
  | zero =>
    intro taken htaken hsome
    exact ⟨rfl, Rest.holds_before htaken hsome, rfl⟩
  | succ fuel ih =>
    intro taken htaken hsome
    have hspaced := prefix_append_of_drop htaken (leadingBlanks_isPrefix (r.skip taken).chars)
    have hfilled : taken ++ leadingBlanks (r.skip taken).chars ≠ [] :=
      List.append_ne_nil_of_left_ne_nil hsome _
    rw [inside]
    simp only [Rest.skip_skip]
    -- Blanks go to what was passed: none of them is a token, and a fault may start behind them.
    generalize taken ++ leadingBlanks (r.skip taken).chars = passed at hspaced hfilled
    split
    · rename_i kind closing hcloses
      refine ⟨[], (r.skip passed).token kind closing, rfl, List.forall_mem_nil _,
        (closer?_fronts hcloses).2.2, ?_, ?_⟩
      · rintro rfl
        exact closer?_ne_closeRaw hcloses
      · rw [← Rest.skip_skip]
        rfl
    split
    · exact ⟨rfl, Rest.holds_before hspaced hfilled, rfl⟩
    rename_i c cs hchars
    refine .ite (fun hstrip => ?_) fun _ => .ite (fun _ => ?_) fun _ => ?_
    · subst hstrip
      exact ⟨rfl, Rest.holds_char hspaced hchars, rfl⟩
    · exact ⟨rfl, Rest.holds_before hspaced hfilled, rfl⟩
    split
    · exact ⟨isLexical_wordCause c, Rest.holds_char hspaced hchars, rfl⟩
    rename_i w hword
    have hfronts := word?_fronts hword
    -- The word is a part of the tag now, which is what the next round takes it to begin with.
    have hmore := ih (prefix_append_of_drop hspaced hfronts.stands)
      (List.append_ne_nil_of_left_ne_nil hfilled w.text)
    split
    · exact hmore.of_error ‹_›
    rename_i tokens left hread
    exact (hmore.of_ok hread).cons (hfronts.isWord _)

section Tags

variable {r : Rest} {taken : List Char} {kind : TokenKind}

/-- What is in a tag ends no program. -/
theorem WordsAndClose.endsProgram_eq_false {raw : Bool} {tokens : List Token} {left : Rest}
    (h : WordsAndClose raw tokens left) : ∀ u ∈ tokens, u.kind.endsProgram = false := by
  obtain ⟨words, closing, rfl, hwords, hclose, -⟩ := h.split
  intro u hu
  rcases List.mem_append.1 hu with hu | hu
  · exact TokenKind.endsProgram_eq_false (.inl (hwords u hu))
  · rw [List.mem_singleton.1 hu]
    exact TokenKind.endsProgram_eq_false (.inr hclose)

/-- A tag is a group: an opening token, words, and the closing token for it. -/
theorem tagFrom_ends (htaken : taken <+: r.chars) (hsome : taken ≠ [])
    (hopens : kind.opensTag = true) (hraw : kind ≠ .openRaw) :
    Ends (Grouping r) r.Faults (tagFrom r kind taken) := by
  unfold tagFrom
  dsimp only
  have hends : Ends (WordsAndClose false) r.Faults _ :=
    inside_ends ((r.skip taken).chars.length + 1) htaken hsome
  split
  · exact hends.of_error ‹_›
  rename_i tokens left hread
  have hclose := hends.of_ok hread
  have hinner := hclose.endsProgram_eq_false
  obtain ⟨words, closing, rfl, hwords, -, hkind, hstop⟩ := hclose.split
  refine Grouping.one ?_ rfl ?_ hinner
  · have hgroup : IsGroup (kind :: (words.map Token.kind ++ [closing.kind])) := by
      refine .tag hopens hraw ?_ (hkind rfl)
      simpa using hwords
    simpa [Rest.token] using hgroup
  · intro u hu
    rw [← List.cons_append, List.getLast?_concat] at hu
    cases hu
    exact hstop

/-- A token that is a group of its own. -/
theorem alone_ends (hkind : kind = .content ∨ kind = .comment ∨ kind = .loneElse) :
    Ends (Grouping r) r.Faults (.ok ([r.token kind taken], r.skip taken)) := by
  refine Grouping.one (.alone hkind) rfl ?_ nofun
  rintro u ⟨⟩
  rfl

/-- A comment is a group of one token, or a fault where it does not end. -/
theorem commentFrom_ends (hsome : r.chars ≠ []) (opener : List Char) (long : Bool) :
    Ends (Grouping r) r.Faults (commentFrom r opener long) := by
  unfold commentFrom
  dsimp only
  split
  · exact ⟨rfl, Rest.holds_all hsome, rfl⟩
  · exact alone_ends (.inr (.inl rfl))

/-- A raw block is a group of its own form. -/
theorem rawFrom_ends (htaken : rawBraces <+: r.chars) : Ends (Grouping r) r.Faults (rawFrom r) := by
  have hsome : r.chars ≠ [] := by
    intro hnone
    rw [hnone] at htaken
    exact absurd (List.prefix_nil.1 htaken) (by decide)
  unfold rawFrom
  dsimp only
  have hends : Ends (WordsAndClose true) r.Faults _ :=
    inside_ends ((r.skip rawBraces).chars.length + 1) htaken (by decide)
  split
  · exact hends.of_error ‹_›
  rename_i tokens body hread
  have hclose := hends.of_ok hread
  have hinner := hclose.endsProgram_eq_false
  obtain ⟨words, closing, rfl, hwords, hcloses, -⟩ := hclose.split
  split
  · exact ⟨rfl, Rest.holds_all hsome, rfl⟩
  rename_i text ending _
  -- Between the tags is one token of text, or none if there is no text.
  have hcontent : (if text.isEmpty then [] else [body.token .content text]).map Token.kind = [] ∨
      (if text.isEmpty then [] else [body.token .content text]).map Token.kind = [.content] := by
    split
    · exact .inl rfl
    · exact .inr rfl
  have hplain : ∀ u ∈ if text.isEmpty then [] else [body.token .content text],
      u.kind.endsProgram = false := by
    intro u hu
    split at hu
    · cases hu
    · rw [List.mem_singleton.1 hu]
      rfl
  generalize (if text.isEmpty then [] else [body.token .content text]) = content at hcontent hplain
  simp only [List.cons_append, List.append_assoc]
  refine Grouping.one ?_ rfl ?_ ?_
  · have hwordKinds : ∀ w ∈ words.map Token.kind, w.isWord = true := by simpa using hwords
    have hgroup := IsGroup.raw hwordKinds hcloses hcontent
    simpa [Rest.token] using hgroup
  · intro u hu
    simp only [← List.cons_append, ← List.append_assoc, List.getLast?_concat] at hu
    cases hu
    rfl
  · intro u hu
    -- No token of the group ends a program: the words, the text or the closing tag.
    have hparts : u ∈ words ++ [closing] ∨ u ∈ content ∨
        u = (body.skip text).token .endRaw ending := by
      simpa [or_assoc] using hu
    rcases hparts with hu | hu | rfl
    · exact hinner u hu
    · exact hplain u hu
    · rfl

/-- The characters after the opening braces tell the kinds of tags apart. None of the tags fails
before it. -/
theorem tag_ends (hbraces : openBraces <+: r.chars) : Ends (Grouping r) r.Faults (tag r) := by
  unfold tag
  refine .ite (fun hraw => ?_) fun _ => ?_
  · exact rawFrom_ends (startsWith_iff.1 hraw)
  extract_lets opener after
  -- The opener is the braces, and the sign that strips blanks if there is one.
  have hopener : opener <+: r.chars ∧ opener ≠ [] ∧ size opener = opener.length := by
    unfold opener
    split
    · rename_i hstrips
      exact ⟨prefix_append_of_drop hbraces (startsWith_iff.1 hstrips), by decide, by decide⟩
    · exact ⟨hbraces, by decide, by decide⟩
  obtain ⟨hfront, hsome, hsize⟩ := hopener
  have hchars : r.chars ≠ [] := by
    intro hnone
    rw [hnone] at hfront
    exact hsome (List.prefix_nil.1 hfront)
  have hlonger : ∀ more, opener ++ more ≠ [] :=
    fun more => List.append_ne_nil_of_left_ne_nil hsome more
  have opened : ∀ {more}, startsWith more after = true → opener ++ more <+: r.chars :=
    fun hmore => prefix_append_of_drop hfront (startsWith_iff.1 hmore)
  -- Most kinds of tags are told by one sign after the opener and go on alike.
  have tagged : ∀ {more kind}, startsWith more after = true → kind.opensTag = true →
      kind ≠ .openRaw →
      Ends (Grouping r) r.Faults (tagFrom r kind (opener ++ more)) :=
    fun hmore hopens hraw => tagFrom_ends (opened hmore) (hlonger _) hopens hraw
  have plain : Ends (Grouping r) r.Faults (tagFrom r .openMustache opener) :=
    tagFrom_ends hfront hsome rfl (by decide)
  refine .ite (fun hmore => tagged hmore rfl (by decide)) fun _ => ?_
  refine .ite (fun hdecorator => ?_) fun _ => ?_
  · -- The fault takes the opening braces and one character more.
    have hnext : ∃ c : Char, opener ++ [c] <+: r.chars ∧ c.utf8Size = 1 := by
      rcases Bool.or_eq_true_iff.1 hdecorator with hmore | hmore
      · have hlong := opened hmore
        exact ⟨'#', (List.prefix_append_right_inj opener).2 ⟨['*'], rfl⟩ |>.trans hlong, by decide⟩
      · exact ⟨'*', opened hmore, by decide⟩
    obtain ⟨c, hc, hone⟩ := hnext
    have hspan := Rest.holds_before hc (hlonger _)
    simp only [Rest.skip, size_append, hsize, size_cons, size_nil, hone, ← Nat.add_assoc] at hspan
    exact ⟨rfl, hspan, rfl⟩
  refine .ite (fun hmore => tagged hmore rfl (by decide)) fun _ => ?_
  refine .ite (fun hmore => tagged hmore rfl (by decide)) fun _ => ?_
  refine .ite (fun hmore => tagged hmore rfl (by decide)) fun _ => ?_
  refine .ite (fun hcaret => ?_) fun _ => ?_
  · split
    · exact alone_ends (.inr (.inr rfl))
    · exact tagged hcaret rfl (by decide)
  refine .ite (fun _ => commentFrom_ends hchars _ true) fun _ => ?_
  refine .ite (fun _ => commentFrom_ends hchars _ false) fun _ => ?_
  refine .ite (fun hmore => tagged hmore rfl (by decide)) fun _ => ?_
  refine .ite (fun hmore => tagged hmore rfl (by decide)) fun _ => ?_
  split
  · exact plain
  rename_i word hword
  -- An `else` may stand alone, start a tag of its own, or start the name of a mustache.
  have helse : Ends (Grouping r) r.Faults (tagFrom r .openElse _) :=
    tagFrom_ends (prefix_append_of_drop hfront (elseWord?_isPrefix hword))
      (hlonger _) rfl (by decide)
  dsimp only
  split
  · exact alone_ends (.inr (.inr rfl))
  split
  · exact .ite (fun _ => helse) fun _ => plain
  · exact plain

end Tags

/-! ## Templates -/

/-- Plain text before the tokens of whole groups. Where there is none, the groups start there. -/
theorem Grouping.after_content {r middle left : Rest} {text : List Char} {tokens : List Token}
    (h : Grouping middle tokens left)
    (hstart : text = [] → ∀ t ∈ tokens.head?, t.kind.endsProgram = true → middle.at_ = r.at_) :
    Grouping r (contentOf r text ++ tokens) left := by
  unfold contentOf
  split
  · rename_i hnone
    refine ⟨h.groups, h.some_, h.adjoins, ?_, h.last⟩
    intro t ht hends
    rw [h.first t ht hends]
    exact hstart (List.isEmpty_iff.1 hnone) t ht hends
  · obtain ⟨t, ts, htokens⟩ := List.exists_cons_of_ne_nil h.some_
    have hchain := h.adjoins
    have hlast := h.last
    rw [htokens] at hchain hlast
    have hcontent : InGroups [r.token .content text] := .one (.alone (.inl rfl))
    refine ⟨hcontent.append h.groups, by simp, ?_, ?_, ?_⟩
    · rw [htokens]
      exact List.isChain_cons_cons.2 ⟨fun _ hcontent => absurd rfl hcontent, hchain⟩
    · rintro u ⟨⟩ hends
      cases hends
    · rw [htokens]
      simpa using hlast

/-- Each piece of a template is a group or a fault. -/
theorem piece_ends {r : Rest} (hsome : r.chars ≠ []) : Ends (Grouping r) r.Faults (piece r) := by
  have hchars := breakOn_append openBraces r.chars
  have hbraces := prefix_breakOn openBraces r.chars
  unfold piece
  generalize breakOn openBraces r.chars = broken at hchars hbraces ⊢
  obtain ⟨before, rest⟩ := broken
  dsimp only at hchars hbraces ⊢
  have hbefore : before <+: r.chars := ⟨rest, hchars⟩
  refine .ite (fun hnone => ?_) fun hfound => ?_
  · -- The text goes on to the end, so it is not empty.
    rw [List.isEmpty_iff.1 hnone, List.append_nil] at hchars
    rw [contentOf, if_neg fun hempty => hsome (hchars ▸ List.isEmpty_iff.1 hempty)]
    exact alone_ends (.inl rfl)
  have hopens : openBraces <+: (r.skip before).chars := by
    rw [List.append_cancel_left ((Rest.append_skip hbefore).trans hchars.symm)]
    exact hbraces.resolve_right fun h => hfound (List.isEmpty_iff.2 h)
  have htag := tag_ends hopens
  refine .ite (fun hdouble => ?_) fun _ => .ite (fun hsingle => ?_) fun _ => ?_
  · split
    · exact (htag.of_error ‹_›).of_skip hbefore
    rename_i tokens left hread
    refine (htag.of_ok hread).after_content ?_
    -- One of the two backslashes is text.
    intro hnone
    obtain ⟨text, rfl⟩ := endsWith_iff.1 hdouble
    exact absurd hnone (by simp [List.dropLast_append_of_ne_nil])
  · refine @Grouping.after_content r (r.skip before) _ _ _ ?_ ?_
    · exact (alone_ends (.inl rfl) : Ends (Grouping (r.skip before)) _ _)
    · rintro - t ⟨⟩ hends
      cases hends
  · split
    · exact (htag.of_error ‹_›).of_skip hbefore
    rename_i tokens left hread
    refine (htag.of_ok hread).after_content ?_
    rintro rfl - - -
    rfl

/-- The tokens of the rest of a template: whole groups, and the end. -/
structure GroupedFrom (r : Rest) (ts : List Token) : Prop where
  groups : ∃ tokens ending, ts = tokens ++ [⟨.eof, ending, []⟩] ∧ InGroups tokens
  adjoins : ts.IsChain Adjoins
  first : ∀ t ∈ ts.head?, t.kind.endsProgram = true → t.start = r.at_

theorem GroupedFrom.nil (r : Rest) : GroupedFrom r [r.token .eof []] where
  groups := ⟨[], r.at_, rfl, .nil⟩
  adjoins := .singleton _
  first := by
    rintro t ⟨⟩ -
    rfl

/-- A group in front of groups. -/
theorem GroupedFrom.cons {r middle : Rest} {tokens more : List Token} (h : Grouping r tokens middle)
    (hmore : GroupedFrom middle more) : GroupedFrom r (tokens ++ more) where
  groups := by
    obtain ⟨tokens', ending, rfl, hgroups⟩ := hmore.groups
    exact ⟨tokens ++ tokens', ending, (List.append_assoc _ _ _).symm, h.groups.append hgroups⟩
  adjoins := by
    refine List.isChain_append.2 ⟨h.adjoins, hmore.adjoins, ?_⟩
    intro t ht u hu hends _
    rw [hmore.first u hu hends, h.last t ht]
  first := by
    obtain ⟨t, ts, htokens⟩ := List.exists_cons_of_ne_nil h.some_
    have hfirst := h.first
    rw [htokens] at hfirst ⊢
    exact hfirst

/-- What is passed over is taken off the front of the rest. -/
theorem Covers.eq_skip {r left : Rest} {tokens : List Token} (h : Covers r tokens left) :
    ∃ taken, taken <+: r.chars ∧ left = r.skip taken := by
  obtain ⟨groups, -, -, hpasses⟩ := h
  refine ⟨groups.flatten.flatMap Placed.text, ⟨_, hpasses.chars⟩, ?_⟩
  have hchars := hpasses.chars
  have hat := hpasses.at_eq
  obtain ⟨at_, chars⟩ := left
  dsimp only at hchars hat
  rw [Rest.skip, ← hat, ← hchars, List.drop_left]

/-- The pieces of a template fall into groups, or one of them is faulty. -/
theorem pieces_ends (fuel : Nat) : ∀ r : Rest,
    match pieces fuel r with
    | .error f => r.Faults f
    | .ok ts => r.chars.length ≤ fuel → GroupedFrom r ts := by
  induction fuel with
  | zero =>
    intro r _
    exact .nil r
  | succ fuel ih =>
    intro r
    unfold pieces
    by_cases hnone : r.chars.isEmpty = true
    · rw [if_pos hnone]
      exact fun _ => .nil r
    rw [if_neg hnone]
    have hsome : r.chars ≠ [] := fun h => hnone (List.isEmpty_iff.2 h)
    have hends := piece_ends hsome
    have hscans := scans_piece hsome
    cases hpiece : piece r with
    | error f =>
      exact hends.of_error hpiece
    | ok scanned =>
      obtain ⟨tokens, left⟩ := scanned
      obtain ⟨hcovers, htokens⟩ := hscans _ _ hpiece
      have hlength := hcovers.length_lt htokens
      -- What is left is the text after what the piece took, where faults are faults of the whole.
      obtain ⟨taken, htaken, rfl⟩ := hcovers.eq_skip
      have hmore := ih (r.skip taken)
      dsimp only
      cases hpieces : pieces fuel (r.skip taken) with
      | error f =>
        rw [hpieces] at hmore
        exact hmore.of_skip htaken
      | ok more =>
        rw [hpieces] at hmore
        exact fun hfuel => .cons (hends.of_ok hpiece) (hmore (by omega))

/-- By induction on the pieces. -/
theorem grouped_of_tokens? {source : List Char} {ts : List Token} (h : tokens? source = .ok ts) :
    GroupedFrom ⟨0, source⟩ ts := by
  have hends := pieces_ends source.length ⟨0, source⟩
  rw [tokens?] at h
  rw [h] at hends
  exact hends (Nat.le_refl _)

/-- A fault of a piece is one of the template. -/
theorem faults_of_tokens? {source : List Char} {f : Fault} (h : tokens? source = .error f) :
    (⟨0, source⟩ : Rest).Faults f := by
  have hends := pieces_ends source.length ⟨0, source⟩
  rw [tokens?] at h
  rw [h] at hends
  exact hends

end Stencil.Syntax
