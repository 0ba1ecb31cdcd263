import Stencil.Proofs.Layout.Bare
import Stencil.Proofs.Layout.Marks
import Stencil.Proofs.Syntax.Paths
import Stencil.Proofs.Syntax.Scanning

/-!
# Plain text

A text in which no tag opens is one token (`pieces_of_noTag`), and tokens of content are read one by
one as the statements of their texts (`readWhile_contents`). A template that starts with one
statement and goes on with content has that statement and these for its tree
(`template?_of_statement`). Content, and tags that show a value and have no strip markers, ask
nothing of what stands around them, so a tree of nothing else is laid out as it is written
(`Program.layout_of_unmarked`).
-/

set_option autoImplicit false

namespace Stencil.Tree

variable {ℓ μ : Type}

/-! ## Statements of a text -/

/-- The statements of a text: one content, or none where the text is empty. -/
def Statement.ofText (text : List Char) (mark : ℓ) : List (Statement ℓ) :=
  if text.isEmpty then [] else [.content (.ofText (String.ofList text) mark)]

theorem Statement.mapMarks_ofText (f : ℓ → μ) (text : List Char) (mark : ℓ) :
    Statement.mapMarks f (Statement.ofText text mark) = Statement.ofText text (f mark) := by
  unfold Statement.ofText
  split <;> rfl

/-- Content, or a tag that shows a value and has no strip markers. -/
def Statement.Unmarked : Statement ℓ → Prop
  | .content _ => True
  | .mustache m => m.strip = {}
  | _ => False

theorem Statement.unmarked_ofText (text : List Char) (mark : ℓ) :
    ∀ s ∈ Statement.ofText text mark, s.Unmarked := by
  unfold Statement.ofText
  split
  · exact nofun
  · intro s hs
    rw [List.mem_singleton.1 hs]
    trivial

/-- Nothing is cut for statements without markers, and nothing from them. -/
theorem settle_of_unmarked (ignoreStandalone root : Bool) {body : List (Statement ℓ)} :
    ∀ done, (∀ s ∈ body, s.Unmarked) →
      settle ignoreStandalone root done [] body = done.reverse ++ body := by
  induction body with
  | nil => exact fun done _ => (List.append_nil _).symm
  | cons s rest ih =>
    intro done hbody
    have hs : s.Unmarked := hbody s List.mem_cons_self
    have hrest : ∀ t ∈ rest, t.Unmarked := fun t ht => hbody t (List.mem_cons_of_mem _ ht)
    have hstep : settle ignoreStandalone root done [] (s :: rest) =
        settle ignoreStandalone root (s :: done) [] rest := by
      cases s with
      | content c => rfl
      | mustache m =>
        obtain ⟨expr, escaped, strip, mark⟩ := m
        obtain rfl : strip = {} := hs
        simp [settle, Statement.demand?, applyIf]
      | _ => exact absurd hs id
    rw [hstep, ih _ hrest, List.reverse_cons, List.append_assoc]
    rfl

theorem layouts_of_unmarked (ignoreStandalone : Bool) {body : List (Statement ℓ)}
    (h : ∀ s ∈ body, s.Unmarked) :
    Statement.layouts ignoreStandalone body = body := by
  induction body with
  | nil => rfl
  | cons s rest ih =>
    have hs : s.layout ignoreStandalone = s := by
      have hunmarked : s.Unmarked := h s List.mem_cons_self
      cases s with
      | block b => exact absurd hunmarked id
      | partialBlock p => exact absurd hunmarked id
      | _ => rfl
    rw [Statement.layouts, hs, ih fun t ht => h t (List.mem_cons_of_mem _ ht)]

/-- A tree of statements without markers is laid out as it is. -/
theorem Program.layout_of_unmarked (ignoreStandalone root : Bool) {p : Program ℓ}
    (h : ∀ s ∈ p.body, s.Unmarked) :
    p.layout ignoreStandalone root = p := by
  obtain ⟨body, blockParams, chained, mark⟩ := p
  rw [Program.layout, layouts_of_unmarked ignoreStandalone h,
    settle_of_unmarked ignoreStandalone root [] h]
  rfl

theorem Statement.unmarked_mapMarks {f : ℓ → μ} {body : List (Statement ℓ)}
    (h : ∀ s ∈ body, s.Unmarked) :
    ∀ s ∈ Statement.mapMarks f body, s.Unmarked := by
  rw [mapMarks_eq_map]
  refine List.forall_mem_map.2 fun s hs => ?_
  have hunmarked : s.Unmarked := h s hs
  cases s with
  | content c => trivial
  | mustache m => exact hunmarked
  | _ => exact absurd hunmarked id

end Stencil.Tree

namespace Stencil.Syntax

open Stencil.Text
open Stencil.Tree

/-! ## Texts without tags -/

/-- No tag opens in the text. -/
def NoTag (text : List Char) : Prop := ¬ openBraces <:+: text

instance (text : List Char) : Decidable (NoTag text) := inferInstanceAs (Decidable (¬ _))

/-- The text may stand after a tag: no tag opens in it, and it does not start with a brace that
would go on with those of the tag. -/
structure StandsAfterTag (text : List Char) : Prop where
  noTag : NoTag text
  noBrace : text.head? ≠ some '\x7d'

instance (text : List Char) : Decidable (StandsAfterTag text) :=
  decidable_of_iff (NoTag text ∧ text.head? ≠ some '\x7d')
    ⟨fun h => ⟨h.1, h.2⟩, fun h => ⟨h.noTag, h.noBrace⟩⟩

theorem breakOn_of_noTag {text : List Char} (h : NoTag text) :
    breakOn openBraces text = (text, []) := by
  have hnone : (breakOn openBraces text).2 = [] := by
    cases hrest : (breakOn openBraces text).2.isEmpty with
    | true => exact List.isEmpty_iff.1 hrest
    | false => exact absurd ((List.infix_append' ..).trans (breakOn_isPrefix hrest).isInfix) h
  have happend := breakOn_append openBraces text
  rw [hnone, List.append_nil] at happend
  exact Prod.ext happend hnone

/-- Where no tag opens any more, the rest is one piece. -/
theorem piece_of_breakOn {r : Rest} (h : breakOn openBraces r.chars = (r.chars, [])) :
    piece r = .ok (contentOf r r.chars, r.skip r.chars) := by
  rw [piece, h]
  rfl

/-- A text without tags is one token, or none where it is empty, before the end. -/
theorem pieces_of_noTag {r : Rest} (h : NoTag r.chars) {fuel : Nat}
    (hfuel : r.chars.length ≤ fuel) :
    pieces fuel r = .ok (contentOf r r.chars ++ [(r.skip r.chars).token .eof []]) := by
  have hend : (r.skip r.chars).chars = [] := List.drop_length
  cases hchars : r.chars with
  | nil => rw [pieces_nil hchars]; rfl
  | cons c cs =>
    rw [hchars] at hfuel
    obtain ⟨fuel, rfl⟩ : ∃ n, fuel = n + 1 := ⟨fuel - 1, by simp at hfuel; omega⟩
    rw [pieces, piece_of_breakOn (breakOn_of_noTag h), hchars]
    dsimp only [List.isEmpty_cons]
    rw [if_neg Bool.false_ne_true, ← hchars, pieces_nil hend]

/-- The tokens of a tag, and of a text without tags after it. -/
theorem tokens?_of_inside {tail : List Char} {words : List (TokenKind × List Char)}
    {tokens : List Token} {left : Rest} (hvalue : OpensValue (textOfWords words ++ tail))
    (hwords : ReadsAll tail words) (hinside : ∀ fuel, tail.length < fuel →
      inside 0 false fuel ⟨2 + size (textOfWords words), tail⟩ = .ok (tokens, left))
    (hleft : NoTag left.chars) (hlength : left.chars.length ≤ tail.length) :
    tokens? (openBraces ++ (textOfWords words ++ tail)) =
      .ok (⟨.openMustache, 0, openBraces⟩ :: (wordTokens 2 words ++
        (tokens ++ (contentOf left left.chars ++ [(left.skip left.chars).token .eof []])))) := by
  obtain ⟨fuel, hfuel, htokens⟩ := tokens?_words hvalue hwords
  have henough : left.chars.length ≤ (textOfWords words ++ tail).length + 1 := by
    rw [List.length_append]
    omega
  rw [htokens, hinside fuel hfuel]
  dsimp only [Except.bind]
  rw [pieces_of_noTag hleft henough]
  simp [Except.map]

/-- The tokens of a tag that ends after its words, and of a text without tags after it. -/
theorem tokens?_closed {text : List Char} {words : List (TokenKind × List Char)}
    (h : StandsAfterTag text) (hvalue : OpensValue (textOfWords words ++ (closeBraces ++ text)))
    (hwords : ReadsAll (closeBraces ++ text) words) :
    ∃ (close : Token) (left : Rest), close.kind = .close ∧ close.text = closeBraces ∧
      left.chars = text ∧
      tokens? (openBraces ++ (textOfWords words ++ (closeBraces ++ text))) =
        .ok (⟨.openMustache, 0, openBraces⟩ :: (wordTokens 2 words ++
          close :: (contentOf left text ++ [(left.skip text).token .eof []]))) := by
  let r : Rest := ⟨2 + size (textOfWords words), closeBraces ++ text⟩
  have hleft : (r.skip closeBraces).chars = text := skip_chars rfl
  refine ⟨r.token .close closeBraces, r.skip closeBraces, rfl, rfl, hleft, ?_⟩
  have hinside : ∀ fuel, (closeBraces ++ text).length < fuel →
      inside 0 false fuel r = .ok ([r.token .close closeBraces], r.skip closeBraces) := by
    intro fuel hfuel
    obtain ⟨fuel, rfl⟩ : ∃ n, fuel = n + 1 := ⟨fuel - 1, by omega⟩
    exact inside_close rfl h.noBrace fuel
  have htokens := tokens?_of_inside hvalue hwords hinside (hleft ▸ h.noTag)
    (by rw [hleft, List.length_append]; omega)
  rw [hleft] at htokens
  exact htokens

/-! ## Reading content -/

/-- The statements of tokens of content. -/
def contentStatements (ts : List Token) : List (Statement Span) :=
  ts.map fun t => .content (contentOfToken t)

theorem contentStatements_contentOf (r : Rest) (text : List Char) :
    contentStatements (contentOf r text) = Statement.ofText text (r.token .content text).span := by
  unfold contentOf Statement.ofText
  split <;> rfl

theorem kind_of_mem_contentOf {r : Rest} {text : List Char} :
    ∀ t ∈ contentOf r text, t.kind = .content := by
  unfold contentOf
  split
  · exact nofun
  · intro t ht
    rw [List.mem_singleton.1 ht]
    rfl

/-- Content is read as a statement at any level. -/
theorem statement_content (n : Nat) {c : Cursor} (h : c.kind = .content) :
    (Level.ofNat n).statement c = .ok (.content (contentOfToken c.here), c.advance) := by
  have reads : ∀ below, (Level.over below).statement c =
      .ok (.content (contentOfToken c.here), c.advance) := by
    intro below
    show statementOver below c = _
    unfold statementOver
    rw [h]
  cases n with
  | zero => exact reads none
  | succ n => exact reads _

theorem Cursor.tokens_advance_of_rest {c : Cursor} {ts : List Token} {t : Token}
    (h : c.rest = ts ++ [t]) :
    c.advance.tokens = ts ++ [t] := by
  obtain ⟨prev, here, rest⟩ := c
  obtain rfl : rest = ts ++ [t] := h
  cases ts <;> rfl

/-- Tokens of content up to the end are read as the statements of their texts. -/
theorem readWhile_contents {eof : Token} (heof : eof.kind = .eof) {ts : List Token} :
    ∀ {c : Cursor} {fuel : Nat}, (∀ t ∈ ts, t.kind = .content) → c.tokens = ts ++ [eof] →
      ts.length ≤ fuel → ∃ c', Cursor.readWhile (fun c => !atProgramEnd c)
        (Level.ofNat maxNesting).statement fuel c =
        .ok (contentStatements ts, c') ∧ c'.here = eof := by
  induction ts with
  | nil =>
    intro c fuel _ htokens _
    obtain ⟨rfl, -⟩ := List.cons.inj (show c.here :: c.rest = [eof] from htokens)
    refine ⟨c, ?_, rfl⟩
    have hend : atProgramEnd c = true := by rw [atProgramEnd, Cursor.kind, heof]
    cases fuel with
    | zero => rfl
    | succ fuel => rw [Cursor.readWhile, hend]; rfl
  | cons t ts ih =>
    intro c fuel hkinds htokens hfuel
    obtain ⟨rfl, hrest⟩ := List.cons.inj (show c.here :: c.rest = t :: (ts ++ [eof]) from htokens)
    have hkind : c.kind = .content := hkinds _ List.mem_cons_self
    obtain ⟨fuel, rfl⟩ : ∃ n, fuel = n + 1 := ⟨fuel - 1, by simp at hfuel; omega⟩
    obtain ⟨c', hread, hhere⟩ := ih (fun t ht => hkinds t (List.mem_cons_of_mem _ ht))
      (Cursor.tokens_advance_of_rest hrest) (Nat.le_of_succ_le_succ hfuel)
    refine ⟨c', ?_, hhere⟩
    have hmore : atProgramEnd c = false := by rw [atProgramEnd, hkind]
    rw [Cursor.readWhile, hmore, Bool.not_false, if_pos rfl, statement_content maxNesting hkind]
    dsimp only
    rw [hread]
    rfl

/-- A template of content is read as the statements of its texts. -/
theorem template?_of_contents {eof : Token} (heof : eof.kind = .eof) {ts : List Token}
    (hkinds : ∀ t ∈ ts, t.kind = .content) :
    template? (ts ++ [eof]) = .ok ⟨contentStatements ts, [], false, ⟨0, eof.stop⟩⟩ := by
  have htokens : (Cursor.ofTokens (ts ++ [eof])).tokens = ts ++ [eof] := by cases ts <;> rfl
  have hlength : (Cursor.ofTokens (ts ++ [eof])).rest.length = ts.length := by
    have hlength := congrArg List.length htokens
    simp only [Cursor.tokens, List.length_cons, List.length_append, List.length_nil] at hlength
    omega
  obtain ⟨c, hread, rfl⟩ := readWhile_contents heof hkinds htokens (Nat.le_refl _)
  rw [template?, program, Cursor.many, hlength, hread]
  dsimp only
  rw [show c.kind = .eof from heof]

/-- A template of a statement and content after it is read as the statement and those of the
texts. -/
theorem template?_of_statement {tokens ts : List Token} {eof : Token} {s : Statement Span}
    {c : Cursor} (hstart : atProgramEnd (Cursor.ofTokens tokens) = false)
    (hread : (Level.ofNat maxNesting).statement (Cursor.ofTokens tokens) = .ok (s, c))
    (htokens : c.tokens = ts ++ [eof]) (hlength : ts.length < (Cursor.ofTokens tokens).rest.length)
    (hkinds : ∀ t ∈ ts, t.kind = .content) (heof : eof.kind = .eof) :
    template? tokens = .ok ⟨s :: contentStatements ts, [], false, ⟨0, eof.stop⟩⟩ := by
  obtain ⟨n, hn⟩ : ∃ n, (Cursor.ofTokens tokens).rest.length = n + 1 :=
    ⟨(Cursor.ofTokens tokens).rest.length - 1, by omega⟩
  have hfuel : ts.length ≤ n := by omega
  obtain ⟨c', hcontents, rfl⟩ := readWhile_contents heof hkinds htokens hfuel
  rw [template?, program, Cursor.many, hn, Cursor.readWhile, hstart, Bool.not_false,
    if_pos rfl, hread]
  dsimp only
  rw [hcontents]
  dsimp only
  rw [show c'.kind = .eof from heof]

end Stencil.Syntax
