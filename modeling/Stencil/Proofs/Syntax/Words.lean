import Stencil.Proofs.Syntax.Covering

/-!
# The words of a template

Every word in a tag of a template is the next word where it stands (`readsAs_of_tokens?`). Names and
separators are words, so their texts are what a word of that kind takes up: a name that starts with
a bracket ends with one, and a separator is a point or a slash (`Token.Formed`).
-/

set_option autoImplicit false

namespace Stencil.Syntax

open Stencil.Text

/-! ## Words in their places -/

/-- Every word of a template is the next word of a tag where it stands. -/
theorem readsAs_of_tokens? {source : List Char} {ts : List Token} (h : tokens? source = .ok ts) :
    ∀ t ∈ ts, t.kind.isWord = true → ∃ before after, source = before ++ (t.text ++ after) ∧
      t.start = size before ∧ ReadsAs t.kind t.text after := by
  obtain ⟨tokens, left, rfl, ⟨groups, -, rfl, hpasses⟩, -⟩ :=
    pieces_covers (r := ⟨0, source⟩) (Nat.le_refl _) h
  intro t ht hword
  rcases List.mem_append.1 ht with ht | ht
  · obtain ⟨p, hp, rfl⟩ := List.mem_map.1 ht
    obtain ⟨before, after, hchars, hstart, hreads⟩ := hpasses.readsAs p hp hword
    exact ⟨before, after, hchars, by rw [hstart, Nat.zero_add], hreads⟩
  · rw [List.mem_singleton.1 ht] at hword
    cases hword

/-! ## Names and separators -/

/-- A bracketed segment ends with its first closing bracket that no backslash precedes. -/
theorem throughUnescaped?_getLast {stop : Char} {cs : List Char} :
    ∀ {r}, throughUnescaped? stop cs = some r → ∃ inner, r.1 = inner ++ [stop] := by
  fun_induction throughUnescaped? stop cs with
  | case1 => intro r h; cases h
  | case2 =>
    intro r h
    cases h
    exact ⟨[], rfl⟩
  | case3 c hc d ds hpair ih =>
    intro r h
    obtain ⟨r', hr', rfl⟩ := Option.map_eq_some_iff.1 h
    obtain ⟨inner, hinner⟩ := ih hr'
    exact ⟨c :: d :: inner, by rw [hinner]; rfl⟩
  | case4 c hc d ds hpair ih =>
    intro r h
    obtain ⟨r', hr', rfl⟩ := Option.map_eq_some_iff.1 h
    obtain ⟨inner, hinner⟩ := ih hr'
    exact ⟨c :: inner, by rw [hinner]; rfl⟩
  | case5 => intro r h; cases h

/-- What the texts of names and separators are like. -/
structure Token.Formed (t : Token) : Prop where
  /-- A name that starts with a bracket ends with one. -/
  bracket : t.kind = .name → t.text.head? = some '[' → ∃ inner, t.text = '[' :: inner ++ [']']
  /-- A name that starts with a point is one point or two. -/
  points : t.kind = .name → t.text.head? = some '.' → t.text = ['.'] ∨ t.text = ['.', '.']
  /-- A separator is a point or a slash. -/
  separator : t.kind = .separator → t.text = ['.'] ∨ t.text = ['/']

/-- A quote starts a string. -/
theorem word?_of_quote {q : Char} (h : q = singleQuote ∨ q = doubleQuote) (cs : List Char) :
    word? (q :: cs) = (throughUnescaped? q cs).map fun r => ⟨.fixed .string, q :: r.1⟩ := by
  rcases h with rfl | rfl <;> rfl

/-- A bracket starts a segment. -/
theorem word?_of_bracket (cs : List Char) :
    word? ('[' :: cs) = (throughUnescaped? ']' cs).map fun r => ⟨.fixed .name, '[' :: r.1⟩ := rfl

theorem word?_bracket {cs : List Char} {w : Word} (h : word? ('[' :: cs) = some w) :
    ∃ inner, w.text = '[' :: inner ++ [']'] := by
  rw [word?_of_bracket] at h
  obtain ⟨r, hr, rfl⟩ := Option.map_eq_some_iff.1 h
  obtain ⟨inner, hinner⟩ := throughUnescaped?_getLast hr
  exact ⟨inner, congrArg ('[' :: ·) hinner⟩

theorem word?_point {cs : List Char} {w : Word} :
    word? ('.' :: cs) = some w → w = ⟨.dot, ['.']⟩ ∨ w = ⟨.fixed .name, ['.', '.']⟩ := by
  unfold word?
  simp only [Char.reduceEq, if_false, if_true]
  split
  · exact fun h => .inr (Option.some.inj h).symm
  · exact fun h => .inl (Option.some.inj h).symm

theorem word?_slash {cs : List Char} {w : Word} (h : word? ('/' :: cs) = some w) :
    w = ⟨.fixed .separator, ['/']⟩ := (Option.some.inj h).symm

theorem plainWord?_ne_separator {cs rest : List Char} {w : Word} (h : plainWord? cs = some w) :
    w.sort.kind rest ≠ .separator := by
  have literal : ∀ {kind : TokenKind}, kind ≠ .separator →
      (WordClass.literal kind).kind rest ≠ .separator := by
    intro kind hkind
    rw [WordClass.kind]
    split
    · exact hkind
    · exact TokenKind.noConfusion
  -- The words come in the order in which they are tried: a number, `as` with a bar, the fixed ones,
  -- and a name.
  unfold plainWord? at h
  dsimp only at h
  split at h
  · cases h
  split at h
  · cases h
    exact literal TokenKind.noConfusion
  split at h
  · split at h
    · cases h
      exact TokenKind.noConfusion
    · cases h
  split at h
  · cases h
    exact literal TokenKind.noConfusion
  split at h
  · cases h
    exact literal TokenKind.noConfusion
  split at h
  · cases h
    exact literal TokenKind.noConfusion
  · cases h
    exact TokenKind.noConfusion

/-- A word that may be a separator starts with a point or a slash. -/
theorem head_of_separator {c : Char} {cs rest : List Char} {w : Word} (h : word? (c :: cs) = some w)
    (hkind : w.sort.kind rest = .separator) : c = '.' ∨ c = '/' := by
  by_cases hpoint : c = '.'
  · exact .inl hpoint
  by_cases hslash : c = '/'
  · exact .inr hslash
  exfalso
  -- Quoted and bracketed words are of one kind each.
  have quoted : ∀ {stop : Char} {kind : TokenKind}, kind ≠ .separator →
      (throughUnescaped? stop cs).map (fun r => (⟨.fixed kind, c :: r.1⟩ : Word)) ≠ some w := by
    intro stop kind hne hmap
    obtain ⟨r, -, rfl⟩ := Option.map_eq_some_iff.1 hmap
    exact hne hkind
  unfold word? at h
  dsimp only at h
  rw [if_neg hslash, if_neg hpoint] at h
  iterate 5
    split at h
    · cases h
      exact TokenKind.noConfusion hkind
  split at h
  · exact quoted TokenKind.noConfusion h
  split at h
  · exact quoted TokenKind.noConfusion h
  · exact plainWord?_ne_separator h hkind

/-- A word is formed so. -/
theorem ReadsAs.formed {t : Token} {after : List Char} (h : ReadsAs t.kind t.text after) :
    t.Formed := by
  obtain ⟨⟨c, hc, -⟩, sort, hword, hkind⟩ := h
  obtain ⟨cs, htext⟩ := List.head?_eq_some_iff.1 hc
  rw [htext] at hword
  -- The first character of the word tells what it is.
  refine ⟨fun _ hbracket => ?_, fun _ hpoint => ?_, fun hseparator => ?_⟩
  · obtain rfl : c = '[' := Option.some.inj (hc.symm.trans hbracket)
    exact htext ▸ word?_bracket hword
  · obtain rfl : c = '.' := Option.some.inj (hc.symm.trans hpoint)
    exact htext ▸ (word?_point hword).imp (congrArg Word.text) (congrArg Word.text)
  · rcases head_of_separator hword (hkind.trans hseparator) with rfl | rfl
    · rcases word?_point hword with hpoint | hpoint
      · exact .inl (htext ▸ congrArg Word.text hpoint)
      · rw [show sort = .fixed .name from congrArg Word.sort hpoint, hseparator] at hkind
        cases hkind
    · exact .inr (htext ▸ congrArg Word.text (word?_slash hword))

/-- Every token of a template is formed so. -/
theorem formed_of_tokens? {source : List Char} {ts : List Token} (h : tokens? source = .ok ts) :
    ∀ t ∈ ts, t.Formed := by
  intro t ht
  cases hword : t.kind.isWord with
  | true =>
    obtain ⟨_, _, _, _, hreads⟩ := readsAs_of_tokens? h t ht hword
    exact hreads.formed
  | false =>
    -- Names and separators are words.
    have hother : ∀ kind : TokenKind, kind.isWord = true → t.kind ≠ kind := by
      rintro kind hkind rfl
      rw [hkind] at hword
      cases hword
    exact ⟨fun hname => absurd hname (hother _ rfl), fun hname => absurd hname (hother _ rfl),
      fun hseparator => absurd hseparator (hother _ rfl)⟩

end Stencil.Syntax
