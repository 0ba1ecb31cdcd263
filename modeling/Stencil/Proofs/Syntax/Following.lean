import Stencil.Proofs.Syntax.Paths
import Stencil.Proofs.Syntax.Reading
import Stencil.Proofs.Tree.Paths

/-!
# Readers follow the tokens

Whatever the grammar reads, it reads from the tokens of a template, and it stays on them
(`Follows`). So what is true of a path by where in the tokens it is read (`PathRules`) is true of
every path of the tree, by the induction over the grammar (`PathRules.of_template?`).
-/

set_option autoImplicit false

namespace Stencil.Syntax

open Stencil.Text
open Stencil.Tree

/-! ## Readers on the tokens of a template -/

/-- From any cursor on some tokens, what a reader reads has a property, and the cursor after it is
on them again. -/
def Follows {α : Type} (ts : List Token) (reader : Reader α) (Q : α → Prop) : Prop :=
  ∀ c a c', c.On ts → reader c = .ok (a, c') → Q a ∧ c'.On ts

/-- What is true of paths by where in some tokens they are read. -/
structure PathRules (ts : List Token) (P : Path Span → Prop) : Prop where
  path : Follows ts (Syntax.path false) P
  data : ∀ (c : Cursor) (p : Path Span) (c' : Cursor), c.On ts → c.kind = .at →
    Syntax.path true c.advance = .ok (p, c') → P p ∧ c'.On ts
  /-- A literal may stand where a name does. -/
  literal : ∀ t ∈ ts, t.kind.isLiteral = true →
    ∀ spelling, P { parts := [spelling], spelling, mark := t.span }
  /-- The closing tag of a raw block is one token. -/
  ending : ∀ t ∈ ts, t.kind = .endRaw → P (Path.ofParts [String.ofList (rawEndName t.text)] t.span)

section Follows

variable {ts : List Token} {P : Path Span → Prop}

/-- A token that was passed is one of the tokens, and has the kind that was asked for. -/
theorem follows_expect (kind : TokenKind) :
    Follows ts (Cursor.expect kind) fun t => t ∈ ts ∧ t.kind = kind := by
  intro c t c' hc h
  rw [Cursor.expect] at h
  split at h
  · rename_i hkind
    cases h
    exact ⟨⟨hc.here_mem, hkind⟩, hc.advance⟩
  · cases h

/-- By induction on the rounds: an item is read from where the last one ended, which is on the
tokens again. -/
theorem Follows.many {α : Type} {item : Reader α} {Q : α → Prop} (h : Follows ts item Q)
    (more : Cursor → Bool) : Follows ts (Cursor.many more item) fun as => ∀ a ∈ as, Q a := by
  suffices ∀ fuel, Follows ts (Cursor.readWhile more item fuel) fun as => ∀ a ∈ as, Q a from
    fun c => this c.rest.length c
  intro fuel
  induction fuel with
  | zero =>
    intro c as c' hc has
    cases has
    exact ⟨fun a ha => absurd ha List.not_mem_nil, hc⟩
  | succ fuel ih =>
    intro c as c' hc has
    rw [Cursor.readWhile] at has
    split at has
    · split at has
      · cases has
      rename_i a c₁ ha
      obtain ⟨hfirst, hc₁⟩ := h _ _ _ hc ha
      split at has
      · cases has
      rename_i rest c₂ hrest
      obtain ⟨hmore, hc₂⟩ := ih _ _ _ hc₁ hrest
      cases has
      exact ⟨List.forall_mem_cons.2 ⟨hfirst, hmore⟩, hc₂⟩
    · cases has
      exact ⟨fun a ha => absurd ha List.not_mem_nil, hc⟩

/-! ## Expressions -/

/-- The paths of an expression have the property. -/
def OfPaths (P : Path Span → Prop) (e : Expr Span) : Prop := ∀ p ∈ e.paths, P p

/-- The paths of named arguments have the property. -/
def OfHashPaths (P : Path Span → Prop) (h : Option (Hash Span)) : Prop := ∀ p ∈ Hash.pathsOpt h, P p

/-- The head of an expression is one of its paths, also where a literal stands for a name. -/
theorem OfPaths.headPath {e : Expr Span} (h : OfPaths P e) : P e.headPath := by
  cases e with
  | call c =>
    obtain ⟨path, params, hash, parenthesised, mark⟩ := c
    exact h path List.mem_cons_self
  | _ => exact h _ List.mem_cons_self

/-- The paths of expressions in a row are those of each. -/
theorem forall_pathsAll {es : List (Expr Span)} (h : ∀ e ∈ es, OfPaths P e) :
    ∀ p ∈ Expr.pathsAll es, P p := by
  induction es with
  | nil => exact fun p hp => absurd hp List.not_mem_nil
  | cons e es ih =>
    obtain ⟨he, hes⟩ := List.forall_mem_cons.1 h
    exact List.forall_mem_append.2 ⟨he, ih hes⟩

/-- The paths of pairs are those of their values. -/
theorem forall_pairPaths {ps : List (Pair Span)} (h : ∀ p ∈ ps, OfPaths P p.value) :
    ∀ q ∈ Pair.pathsAll ps, P q := by
  induction ps with
  | nil => exact fun p hp => absurd hp List.not_mem_nil
  | cons p ps ih =>
    obtain ⟨key, value, mark⟩ := p
    obtain ⟨hp, hps⟩ := List.forall_mem_cons.1 h
    exact List.forall_mem_append.2 ⟨hp, ih hps⟩

/-- The parts of a call have paths with the property. -/
structure CallParts.OfPaths (P : Path Span → Prop) (parts : CallParts) : Prop where
  head : Syntax.OfPaths P parts.head
  params : ∀ e ∈ parts.params, Syntax.OfPaths P e
  hash : OfHashPaths P parts.hash

/-- The paths of a call are that of its head and those of its arguments. -/
theorem CallParts.OfPaths.call {parts : CallParts} (h : parts.OfPaths P)
    (parenthesised : Option Bool) (mark : Span) :
    Syntax.OfPaths P (.call ⟨parts.head.headPath, parts.params, parts.hash, parenthesised, mark⟩) :=
  List.forall_mem_cons.2
    ⟨h.head.headPath, List.forall_mem_append.2 ⟨forall_pathsAll h.params, h.hash⟩⟩

/-- Parts without arguments are their head alone, others are a call. -/
theorem CallParts.OfPaths.expr {parts : CallParts} (h : parts.OfPaths P) :
    Syntax.OfPaths P parts.expr := by
  unfold CallParts.expr
  split
  · exact h.head
  · exact h.call none parts.span

variable (rules : PathRules ts P)

include rules

/-- An expression is a path, a path to data, or a literal, for each of which there is a rule. -/
theorem follows_simpleExpr : Follows ts simpleExpr (OfPaths P) := by
  intro c e c' hc h
  have literal : c.kind.isLiteral = true → ∀ spelling,
      ∀ p ∈ [({ parts := [spelling], spelling, mark := c.here.span } : Path Span)], P p :=
    fun hkind spelling => List.forall_mem_singleton.2
      (rules.literal c.here hc.here_mem hkind spelling)
  simp only [simpleExpr] at h
  split at h
  · split at h
    · cases h
    rename_i p c₁ hpath
    cases h
    obtain ⟨hp, hc'⟩ := rules.path _ _ _ hc hpath
    exact ⟨List.forall_mem_singleton.2 hp, hc'⟩
  · rename_i hkind
    split at h
    · cases h
    rename_i p c₁ hpath
    cases h
    obtain ⟨hp, hc'⟩ := rules.data _ _ _ hc hkind hpath
    exact ⟨List.forall_mem_singleton.2 hp, hc'⟩
  all_goals
    rename_i hkind
    cases h
  all_goals exact ⟨literal (by rw [hkind]; rfl) _, hc.advance⟩

variable {param : Reader (Expr Span)} (hparam : Follows ts param (OfPaths P))

include hparam

omit rules in
/-- Of a pair only the value has paths. Its name is passed unread. -/
theorem follows_hash? : Follows ts (hash? param) (OfHashPaths P) := by
  intro c hash c' hc h
  have hpair : Follows ts (pair param) fun p => OfPaths P p.value := by
    intro c p c' hc hp
    simp only [pair] at hp
    split at hp
    · cases hp
    rename_i value c₁ hvalue
    cases hp
    exact hparam _ _ _ hc.advance.advance hvalue
  simp only [hash?] at h
  split at h
  · cases h
  rename_i pairs c₁ hpairs
  obtain ⟨hall, hc₁⟩ := hpair.many _ _ _ _ hc hpairs
  split at h
  · cases h
    exact ⟨fun p hp => absurd hp List.not_mem_nil, hc₁⟩
  · cases h
    exact ⟨forall_pairPaths hall, hc₁⟩

/-- Head, arguments and pairs are read one after the other, each from where the last one ended. -/
theorem follows_callParts : Follows ts (callParts param) (CallParts.OfPaths P) := by
  intro c parts c' hc h
  simp only [callParts] at h
  split at h
  · cases h
  rename_i head c₁ hhead
  obtain ⟨hhead, hc₁⟩ := follows_simpleExpr rules _ _ _ hc hhead
  split at h
  · cases h
  rename_i params c₂ hparams
  obtain ⟨hparams, hc₂⟩ := hparam.many _ _ _ _ hc₁ hparams
  split at h
  · cases h
  rename_i hash c₃ hhash
  have hnamed := follows_hash? hparam _ _ _ hc₂ hhash
  cases h
  exact ⟨⟨hhead, hparams, hnamed.1⟩, hnamed.2⟩

/-- The parentheses have no paths. -/
theorem follows_parenthesised (opened : Token) :
    Follows ts (parenthesised param opened) (OfPaths P) := by
  intro c e c' hc h
  simp only [parenthesised] at h
  split at h
  · cases h
  rename_i parts c₁ hparts
  obtain ⟨hparts, hc₁⟩ := follows_callParts rules hparam _ _ _ hc hparts
  split at h
  · cases h
  rename_i closed c₂ hclosed
  cases h
  exact ⟨hparts.call _ _, (follows_expect _ _ _ _ hc₁ hclosed).2⟩

omit rules hparam in
/-- Block parameters are no paths, so all that is left to show is that the reader stays on the
tokens. -/
theorem follows_blockParams : Follows ts blockParams fun _ => True := by
  intro c names c' hc h
  have hparam : Follows ts blockParam fun _ => True := by
    rintro c name c' hc ⟨⟩
    exact ⟨trivial, hc.advance⟩
  rw [blockParams] at h
  split at h
  · cases h
    exact ⟨trivial, hc⟩
  split at h
  · cases h
  rename_i names' c₁ hnames
  have hc₁ := (hparam.many _ _ _ _ hc.advance hnames).2
  split at h
  · cases h
  split at h
  · cases h
  rename_i closed c₂ hclosed
  cases h
  exact ⟨trivial, (follows_expect _ _ _ _ hc₁ hclosed).2⟩

/-- The paths of an opening tag are those of its call. -/
theorem follows_openTag (opened : Token) :
    Follows ts (openTag param opened) fun tag => tag.call.OfPaths P := by
  intro c tag c' hc h
  simp only [openTag] at h
  split at h
  · cases h
  rename_i call c₁ hcall
  obtain ⟨hcall, hc₁⟩ := follows_callParts rules hparam _ _ _ hc hcall
  split at h
  · cases h
  rename_i names c₂ hnames
  have hc₂ := (follows_blockParams _ _ _ hc₁ hnames).2
  split at h
  · cases h
  rename_i closed c₃ hclosed
  cases h
  exact ⟨hcall, (follows_expect _ _ _ _ hc₂ hclosed).2⟩

omit hparam in
/-- A closing tag has one path, the head of the expression in it. -/
theorem follows_closingTag (name : String) (opening : Span) :
    Follows ts (closingTag name opening) fun closing => P closing.1 := by
  intro c closing c' hc h
  simp only [closingTag] at h
  split at h
  · cases h
  split at h
  · cases h
  split at h
  · cases h
  rename_i e c₁ he
  obtain ⟨he, hc₁⟩ := follows_simpleExpr rules _ _ _ hc.advance he
  split at h
  · cases h
  rename_i closed c₂ hclosed
  split at h
  · cases h
    exact ⟨he.headPath, (follows_expect _ _ _ _ hc₁ hclosed).2⟩
  · cases h

/-! ## Statements -/

/-- The paths in the tags of a statement have the property. -/
def Told (P : Path Span → Prop) (s : Statement Span) : Prop := ∀ p ∈ s.pathsWithin, P p

omit rules hparam in
/-- The paths in the tags of a statement are those of its opening tag and that of its closing
tag. -/
theorem told_append {s : Statement Span} (hpaths : ∀ p ∈ s.paths, P p)
    (hclosing : ∀ p ∈ s.closing, P p) :
    Told P s := List.forall_mem_append.2 ⟨hpaths, hclosing⟩

omit rules hparam in
/-- Closing a block changes its markers, and no path. -/
theorem keptByClosing_told : KeptByClosing (Told P) := by
  intro strip b h
  obtain ⟨expr, program, inverse, openStrip, inverseStrip, closeStrip, close, mark⟩ := b
  exact h

omit rules hparam in
theorem every_content (t : Token) : (Statement.content (contentOfToken t)).Every (Told P) :=
  fun _ hp => absurd hp List.not_mem_nil

/-- The paths of a tag are those of its call. -/
theorem follows_mustache : Follows ts (mustache param) (Statement.Every (Told P)) := by
  intro c s c' hc h
  simp only [mustache] at h
  split at h
  · cases h
  rename_i call c₁ hcall
  obtain ⟨hcall, hc₁⟩ := follows_callParts rules hparam _ _ _ hc.advance hcall
  split at h
  · cases h
  rename_i closed c₂ hclosed
  cases h
  exact ⟨told_append hcall.expr (List.forall_mem_nil _), (follows_expect _ _ _ _ hc₁ hclosed).2⟩

/-- The parts of a partial have paths with the property. -/
structure PartialParts.OfPaths (P : Path Span → Prop) (parts : PartialParts) : Prop where
  name : Syntax.OfPaths P parts.name
  params : ∀ e ∈ parts.params, Syntax.OfPaths P e
  hash : OfHashPaths P parts.hash

omit rules hparam in
theorem PartialParts.OfPaths.all {parts : PartialParts} (h : parts.OfPaths P) :
    ∀ p ∈ parts.name.paths ++ Expr.pathsAll parts.params ++ Hash.pathsOpt parts.hash, P p :=
  List.forall_mem_append.2 ⟨List.forall_mem_append.2 ⟨h.name, forall_pathsAll h.params⟩, h.hash⟩

omit rules in
/-- The name of a partial is an expression like its arguments, so its paths are read as theirs. -/
theorem follows_partialParts : Follows ts (partialParts param) (PartialParts.OfPaths P) := by
  intro c parts c' hc h
  simp only [partialParts] at h
  split at h
  · cases h
  rename_i name c₁ hname
  obtain ⟨hname, hc₁⟩ := hparam _ _ _ hc hname
  split at h
  · cases h
  rename_i params c₂ hparams
  obtain ⟨hparams, hc₂⟩ := hparam.many _ _ _ _ hc₁ hparams
  split at h
  · cases h
  split at h
  · cases h
  rename_i hash c₃ hhash
  have hnamed := follows_hash? hparam _ _ _ hc₂ hhash
  cases h
  exact ⟨⟨hname, hparams, hnamed.1⟩, hnamed.2⟩

omit rules in
theorem follows_partialCall : Follows ts (partialCall param) (Statement.Every (Told P)) := by
  intro c s c' hc h
  simp only [partialCall] at h
  split at h
  · cases h
  rename_i parts c₁ hparts
  obtain ⟨hparts, hc₁⟩ := follows_partialParts hparam _ _ _ hc.advance hparts
  split at h
  · cases h
  rename_i closed c₂ hclosed
  cases h
  exact ⟨told_append hparts.all (List.forall_mem_nil _), (follows_expect _ _ _ _ hc₁ hclosed).2⟩

/-- The paths of a raw block are those of its call and the one in the token that ends it. -/
theorem follows_rawBlock : Follows ts (rawBlock param) (Statement.Every (Told P)) := by
  intro c s c' hc h
  simp only [rawBlock] at h
  split at h
  · cases h
  rename_i call c₁ hcall
  obtain ⟨hcall, hc₁⟩ := follows_callParts rules hparam _ _ _ hc.advance hcall
  split at h
  · cases h
  rename_i closed c₂ hclosed
  have hc₂ := (follows_expect _ _ _ _ hc₁ hclosed).2
  split at h
  · cases h
  rename_i ending c₃ hending
  -- The text between the tags is one token, if there is any.
  have hbody : (if c₂.kind = .content then ([.content (contentOfToken c₂.here)], c₂.advance)
      else ([], c₂) : List (Statement Span) × Cursor).2.On ts := by
    split
    · exact hc₂.advance
    · exact hc₂
  obtain ⟨⟨hmem, hkind⟩, hc₃⟩ := follows_expect _ _ _ _ hbody hending
  split at h
  · -- The name in the closing tag is read off that one token.
    cases h
    refine ⟨⟨told_append hcall.expr (List.forall_mem_singleton.2 (rules.ending _ hmem hkind)), ?_,
      trivial⟩, hc₃⟩
    refine Statement.allEvery_iff.2 fun s hs => ?_
    split at hs
    · rw [List.mem_singleton.1 hs]
      exact every_content _
    · exact absurd hs List.not_mem_nil
  · cases h

omit rules hparam in
/-- A program is statements, and every one of them was read on the tokens. -/
theorem follows_program {statement : Reader (Statement Span)}
    (h : Follows ts statement (Statement.Every (Told P))) (names : List String) :
    Follows ts (program statement names) (Program.Every (Told P)) := by
  intro c p c' hc hp
  simp only [program] at hp
  split at hp
  · cases hp
  rename_i body c₁ hbody
  obtain ⟨hall, hc₁⟩ := h.many _ _ _ _ hc hbody
  cases hp
  exact ⟨Statement.allEvery_iff.2 hall, hc₁⟩

end Follows

/-! ## Levels -/

section Levels

variable {ts : List Token} {P : Path Span → Prop} (rules : PathRules ts P)

/-- The readers of a level read on the tokens. -/
structure LevelFollows (ts : List Token) (P : Path Span → Prop) (level : Level) : Prop where
  param : Follows ts level.param (OfPaths P)
  statement : Follows ts level.statement (Statement.Every (Told P))
  otherwise : Follows ts level.otherwise fun section? =>
    ∀ s, section? = some s → s.program.Every (Told P)

include rules

/-- A block has the paths of its opening tag, those of its sections, and that of its closing tag. -/
theorem follows_blockAfter {level : Level} (h : LevelFollows ts P level) (opened : Token) :
    Follows ts (blockAfter level opened) (Statement.Every (Told P)) := by
  intro c s c' hc hs
  simp only [blockAfter] at hs
  split at hs
  · cases hs
  rename_i opening c₁ hopening
  obtain ⟨hopening, hc₁⟩ := follows_openTag rules h.param _ _ _ _ hc hopening
  split at hs
  · cases hs
  rename_i main c₂ hmain
  obtain ⟨hmain, hc₂⟩ := follows_program h.statement _ _ _ _ hc₁ hmain
  split at hs
  · cases hs
  rename_i section? c₃ hsection
  obtain ⟨hsection, hc₃⟩ := h.otherwise _ _ _ hc₂ hsection
  split at hs
  · cases hs
  rename_i close strip closed c₄ hclosing
  obtain ⟨hclose, hc₄⟩ := follows_closingTag rules _ _ _ _ _ hc₃ hclosing
  cases hs
  refine ⟨⟨told_append hopening.expr (List.forall_mem_singleton.2 hclose), ?_⟩, hc₄⟩
  exact every_blockOf keptByClosing_told hmain hsection strip _ opening.call.expr opening.strip
    (some close) _

/-- A partial block has the paths of its parts and of its body. The path in its closing tag is not
kept. -/
theorem follows_partialBlockAfter {level : Level} (h : LevelFollows ts P level) (opened : Token) :
    Follows ts (partialBlockAfter level opened) (Statement.Every (Told P)) := by
  intro c s c' hc hs
  simp only [partialBlockAfter] at hs
  split at hs
  · cases hs
  rename_i parts c₁ hparts
  obtain ⟨hparts, hc₁⟩ := follows_partialParts h.param _ _ _ hc hparts
  split at hs
  · cases hs
  rename_i closed c₂ hclosed
  have hc₂ := (follows_expect _ _ _ _ hc₁ hclosed).2
  split at hs
  · cases hs
  rename_i body c₃ hbody
  obtain ⟨hbody, hc₃⟩ := follows_program h.statement _ _ _ _ hc₂ hbody
  split at hs
  · cases hs
  split at hs
  · cases hs
  rename_i closing strip ending c₄ hclosing
  have hc₄ := (follows_closingTag rules _ _ _ _ _ hc₃ hclosing).2
  cases hs
  exact ⟨⟨told_append hparts.all (List.forall_mem_nil _), PartialBlock.every_iff.2 hbody⟩, hc₄⟩

/-- A chained section is a block without a closing tag of its own. -/
theorem follows_chainAfter {level : Level} (h : LevelFollows ts P level) (opened : Token) :
    Follows ts (chainAfter level opened) fun s => s.program.Every (Told P) := by
  intro c s c' hc hs
  simp only [chainAfter] at hs
  split at hs
  · cases hs
  rename_i opening c₁ hopening
  obtain ⟨hopening, hc₁⟩ := follows_openTag rules h.param _ _ _ _ hc hopening
  split at hs
  · cases hs
  rename_i main c₂ hmain
  obtain ⟨hmain, hc₂⟩ := follows_program h.statement _ _ _ _ hc₁ hmain
  split at hs
  · cases hs
  rename_i section? c₃ hsection
  have hotherwise := h.otherwise _ _ _ hc₂ hsection
  cases hs
  refine ⟨⟨⟨told_append hopening.expr (List.forall_mem_nil _), ?_⟩, trivial⟩, hotherwise.2⟩
  exact every_linkOf hmain hotherwise.1 opening.call.expr opening.strip _

variable {below : Option Level} (hbelow : ∀ level, below = some level → LevelFollows ts P level)

include hbelow

/-- What is between parentheses is read by the level below. -/
theorem follows_paramOver : Follows ts (paramOver below) (OfPaths P) := by
  intro c e c' hc h
  simp only [paramOver] at h
  split at h
  · split at h
    · cases h
    rename_i level
    exact follows_parenthesised rules (hbelow level rfl).param _ _ _ _ hc.advance h
  · exact follows_simpleExpr rules _ _ _ hc h

/-- Texts and comments have no paths. What nests is read by the level below. -/
theorem follows_statementOver : Follows ts (statementOver below) (Statement.Every (Told P)) := by
  have hparam := follows_paramOver rules hbelow
  intro c s c' hc h
  simp only [statementOver] at h
  split at h
  · cases h
    exact ⟨every_content c.here, hc.advance⟩
  · cases h
    exact ⟨fun p hp => absurd hp List.not_mem_nil, hc.advance⟩
  · exact follows_mustache rules hparam _ _ _ hc h
  · exact follows_mustache rules hparam _ _ _ hc h
  · split at h
    · cases h
    rename_i level
    exact follows_blockAfter rules (hbelow level rfl) _ _ _ _ hc.advance h
  · split at h
    · cases h
    rename_i level
    exact follows_blockAfter rules (hbelow level rfl) _ _ _ _ hc.advance h
  · exact follows_rawBlock rules hparam _ _ _ hc h
  · exact follows_partialCall hparam _ _ _ hc h
  · split at h
    · cases h
    rename_i level
    exact follows_partialBlockAfter rules (hbelow level rfl) _ _ _ _ hc.advance h
  · cases h

/-- After `else` a program is read, or a chained section by the level below, or nothing. -/
theorem follows_otherwiseOver :
    Follows ts (otherwiseOver below (statementOver below)) fun section? =>
      ∀ s, section? = some s → s.program.Every (Told P) := by
  intro c section? c' hc h
  simp only [otherwiseOver] at h
  split at h
  · split at h
    · cases h
    rename_i body c₁ hbody
    have hprogram := follows_program (follows_statementOver rules hbelow) _ _ _ _ hc.advance hbody
    cases h
    refine ⟨?_, hprogram.2⟩
    rintro s ⟨⟩
    exact hprogram.1
  · split at h
    · cases h
    rename_i level
    split at h
    · cases h
    rename_i chained c₁ hchained
    have hchain := follows_chainAfter rules (hbelow level rfl) _ _ _ _ hc.advance hchained
    cases h
    refine ⟨?_, hchain.2⟩
    rintro s ⟨⟩
    exact hchain.1
  · cases h
    refine ⟨fun s hs => ?_, hc⟩
    cases hs

omit hbelow in
/-- Every level reads on the tokens, by induction on how deep it may nest. -/
theorem levelFollows_ofNat (n : Nat) : LevelFollows ts P (Level.ofNat n) := by
  have step : ∀ {below : Option Level}, (∀ level, below = some level → LevelFollows ts P level) →
      LevelFollows ts P (Level.over below) := fun hbelow =>
    ⟨follows_paramOver rules hbelow, follows_statementOver rules hbelow,
      follows_otherwiseOver rules hbelow⟩
  induction n with
  | zero =>
    refine step fun level hlevel => ?_
    cases hlevel
  | succ n ih =>
    refine step ?_
    rintro level ⟨⟩
    exact ih

omit hbelow in
/-- Every path of the tree of some tokens has a property that paths have by where they are read. -/
theorem PathRules.of_template? {tree : Program Span} (h : template? ts = .ok tree) (hts : ts ≠ []) :
    tree.Every (Told P) := by
  have hstart : (Cursor.ofTokens ts).On ts := by
    cases ts with
    | nil => exact absurd rfl hts
    | cons t ts => exact List.suffix_refl _
  simp only [template?] at h
  split at h
  · cases h
  rename_i root c hroot
  obtain ⟨hroot, -⟩ :=
    follows_program (levelFollows_ofNat rules maxNesting).statement _ _ _ _ hstart hroot
  obtain ⟨body, blockParams, chained, mark⟩ := root
  split at h
  · cases h
    exact hroot
  · split at h <;> cases h
  · cases h
  · cases h
  · cases h

end Levels

end Stencil.Syntax
