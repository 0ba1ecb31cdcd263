import Stencil.Proofs.Tree.Every
import Stencil.Syntax.Grammar

/-!
# Properties of trees as they are read

What is true of every tree that the grammar reads, because what a reader puts together inherits it
from the parts. `Inherited` says of three properties, of statements, of programs and of sections
after an `else`, that they pass on in this way; `Inherited.of_read?` is the induction over the
grammar, made once for all of them.

The properties may depend on how deeply programs may be nested in what is read. A raw block is read
at any level and has a program, so a statement of the lowest level may still hold one program, and
the tree of a template is at two more than the number of its level.
-/

set_option autoImplicit false

namespace Stencil.Syntax

open Stencil.Text
open Stencil.Tree

/-- What a reader reads has a property. -/
def Yields {α : Type} (reader : Reader α) (P : α → Prop) : Prop :=
  ∀ c a c', reader c = .ok (a, c') → P a

theorem Yields.readWhile {α : Type} {item : Reader α} {P : α → Prop} (h : Yields item P)
    (more : Cursor → Bool) (fuel : Nat) :
    Yields (Cursor.readWhile more item fuel) fun as => ∀ a ∈ as, P a := by
  induction fuel with
  | zero =>
    intro c as c' has
    cases has
    exact fun a ha => absurd ha List.not_mem_nil
  | succ fuel ih =>
    intro c as c' has
    simp only [Cursor.readWhile] at has
    split at has
    · split at has
      · cases has
      · rename_i a c₁ ha
        split at has
        · cases has
        · rename_i as' c₂ has'
          cases has
          intro b hb
          rcases List.mem_cons.1 hb with rfl | hb
          · exact h _ _ _ ha
          · exact ih _ _ _ has' b hb
    · cases has
      exact fun a ha => absurd ha List.not_mem_nil

/-- The block of a main section and the section after an `else`, exchanged or not, in which a chain
has met the closing tag. -/
def blockOf (main : Program Span) (section? : Option ElseSection) (closeStrip : Strip)
    (inverted : Bool) (expr : Expr Span) (openStrip : Strip) (close : Option (Path Span))
    (mark : Span) : Block Span where
  expr
  program :=
    if inverted then section?.map fun s => Program.closeChain closeStrip s.program else some main
  inverse :=
    if inverted then some main else section?.map fun s => Program.closeChain closeStrip s.program
  openStrip
  inverseStrip := (section?.map ElseSection.strip).getD {}
  closeStrip
  close
  mark

/-- The block of a chained section, which has not met a closing tag. -/
def linkOf (main : Program Span) (section? : Option ElseSection) (expr : Expr Span)
    (openStrip : Strip) (mark : Span) : Block Span where
  expr
  program := some main
  inverse := section?.map ElseSection.program
  openStrip
  inverseStrip := (section?.map ElseSection.strip).getD {}
  closeStrip := {}
  close := none
  mark

/-! ## Properties of every statement -/

section Every

variable {P : Statement Span → Prop}

/-- A property of statements does not depend on the markers of a closing tag that a chain meets. -/
def KeptByClosing (P : Statement Span → Prop) : Prop :=
  ∀ strip b, P (.block b) → P (.block (Block.closeChain strip b))

mutual

/-- A chain that meets its closing tag keeps what is true of its statements. -/
theorem every_closeChain (hP : KeptByClosing P) (strip : Strip) :
    ∀ p : Program Span, p.Every P → (Program.closeChain strip p).Every P
  | ⟨body, _, chained, _⟩, h => by
    rw [Program.closeChain]
    split
    · exact allEvery_closeChain hP strip body h
    · exact h

theorem allEvery_closeChain (hP : KeptByClosing P) (strip : Strip) :
    ∀ body : List (Statement Span), Statement.AllEvery P body →
      Statement.AllEvery P (Statement.closeChain strip body)
  | [], h => h
  | .block b :: _, h => ⟨⟨hP strip b h.1.1, every_closeBlock hP strip b h.1.2⟩, h.2⟩
  | .mustache _ :: _, h | .partialCall _ :: _, h | .partialBlock _ :: _, h | .content _ :: _, h
  | .comment _ :: _, h => h

theorem every_closeBlock (hP : KeptByClosing P) (strip : Strip) :
    ∀ b : Block Span, b.Every P → (Block.closeChain strip b).Every P
  | ⟨_, _, inverse, _, _, _, _, _⟩, h => ⟨h.1, everyOpt_closeChainOpt hP strip inverse h.2⟩

theorem everyOpt_closeChainOpt (hP : KeptByClosing P) (strip : Strip) :
    ∀ p : Option (Program Span), Program.EveryOpt P p →
      Program.EveryOpt P (Program.closeChainOpt strip p)
  | none, _ => trivial
  | some p, h => every_closeChain hP strip p h

end

theorem every_blockOf (hP : KeptByClosing P) {main : Program Span} {section? : Option ElseSection}
    (hmain : main.Every P) (hsection : ∀ s, section? = some s → s.program.Every P)
    (closeStrip : Strip) (inverted : Bool) (expr : Expr Span) (openStrip : Strip)
    (close : Option (Path Span)) (mark : Span) :
    (blockOf main section? closeStrip inverted expr openStrip close mark).Every P := by
  have halternative : Program.EveryOpt P
      (section?.map fun s => Program.closeChain closeStrip s.program) := by
    cases section? with
    | none => trivial
    | some s => exact every_closeChain hP closeStrip s.program (hsection s rfl)
  cases inverted with
  | false => exact ⟨hmain, halternative⟩
  | true => exact ⟨halternative, hmain⟩

theorem every_linkOf {main : Program Span} {section? : Option ElseSection} (hmain : main.Every P)
    (hsection : ∀ s, section? = some s → s.program.Every P) (expr : Expr Span) (openStrip : Strip)
    (mark : Span) : (linkOf main section? expr openStrip mark).Every P := by
  refine ⟨hmain, ?_⟩
  cases section? with
  | none => trivial
  | some s => exact hsection s rfl

end Every

/-! ## Names and arguments -/

/-- The path that an expression stands for as the head of a call is spelled as the expression is. -/
@[simp] theorem spelling_headPath {ℓ : Type} (e : Expr ℓ) : e.headPath.spelling = e.spelling := by
  cases e <;> rfl

/-- The expression of a tag is spelled as its head is, with arguments or without. -/
theorem CallParts.spelling_expr (p : CallParts) : p.expr.spelling = p.head.spelling := by
  unfold expr
  split
  · rfl
  · exact spelling_headPath p.head

/-- A closing tag that is read repeats the name of its block. -/
theorem spelling_of_closingTag {name : String} {opening : Span} {c c' : Cursor} {close : Path Span}
    {strip : Strip} {closed : Token}
    (h : closingTag name opening c = .ok ((close, strip, closed), c')) : close.spelling = name := by
  simp only [closingTag] at h
  split at h
  · cases h
  split at h
  · cases h
  split at h
  · cases h
  split at h
  · cases h
  split at h
  · rename_i hname
    cases h
    rw [spelling_headPath, hname]
  · cases h

/-- A partial that is read has one parameter at most. -/
theorem length_params_le {param : Reader (Expr Span)} :
    Yields (partialParts param) fun parts => parts.params.length ≤ 1 := by
  intro c parts c' h
  simp only [partialParts] at h
  split at h
  · cases h
  split at h
  · cases h
  split at h
  · cases h
  · rename_i hfew
    split at h
    · cases h
    · cases h
      exact Nat.not_lt.1 hfew

/-- Properties that what is read inherits from its parts, at every number of programs that may be
nested in it. -/
structure Inherited where
  statement : Nat → Statement Span → Prop
  program : Nat → Program Span → Prop
  otherwise : Nat → ElseSection → Prop
  ofMustache : ∀ n m, statement n (.mustache m)
  ofContent : ∀ n t, statement n (.content (contentOfToken t))
  ofComment : ∀ n c, statement n (.comment c)
  ofPartialCall : ∀ {n p}, p.indent = "" → p.params.length ≤ 1 → statement n (.partialCall p)
  ofPartialBlock : ∀ {n p}, program n p.program → p.params.length ≤ 1 →
    statement (n + 1) (.partialBlock p)
  ofBlock : ∀ {n main section?}, program n main → (∀ s, section? = some s → otherwise n s) →
    ∀ closeStrip inverted {expr} openStrip {close : Path Span} mark,
      close.spelling = expr.spelling →
      statement (n + 1)
        (.block (blockOf main section? closeStrip inverted expr openStrip (some close) mark))
  ofBody : ∀ {n body}, (∀ s ∈ body, statement n s) →
    ∀ blockParams mark, program n ⟨body, blockParams, false, mark⟩
  ofElse : ∀ {n p}, program n p → ∀ strip, otherwise n ⟨strip, p⟩
  ofChain : ∀ {n main section?}, program n main → (∀ s, section? = some s → otherwise n s) →
    ∀ expr openStrip mark, otherwise (n + 1)
      ⟨openStrip, ⟨[.block (linkOf main section? expr openStrip mark)], [], true, mark⟩⟩

namespace Inherited

variable (P : Inherited) {n : Nat}

/-! ## Statements without nesting -/

/-- A program is read as a list of statements. -/
theorem yields_body {statement : Reader (Statement Span)} (h : Yields statement (P.statement n))
    (names : List String) :
    Yields (Syntax.program statement names) fun p =>
      ∃ body, p = ⟨body, names, false, p.mark⟩ ∧ ∀ s ∈ body, P.statement n s := by
  intro c p c' hp
  simp only [Syntax.program] at hp
  split at hp
  · cases hp
  · rename_i body c₁ hbody
    cases hp
    exact ⟨body, rfl, h.readWhile _ _ _ _ _ hbody⟩

theorem yields_program {statement : Reader (Statement Span)} (h : Yields statement (P.statement n))
    (names : List String) : Yields (Syntax.program statement names) (P.program n) := by
  intro c p c' hp
  obtain ⟨body, hbody, hall⟩ := P.yields_body h names _ _ _ hp
  rw [hbody]
  exact P.ofBody hall names _

theorem yields_mustache (param : Reader (Expr Span)) :
    Yields (mustache param) (P.statement n) := by
  intro c s c' hs
  simp only [mustache] at hs
  split at hs
  · cases hs
  · split at hs
    · cases hs
    · cases hs
      exact P.ofMustache n _

theorem yields_partialCall (param : Reader (Expr Span)) :
    Yields (partialCall param) (P.statement n) := by
  intro c s c' hs
  simp only [partialCall] at hs
  split at hs
  · cases hs
  · rename_i hparts
    split at hs
    · cases hs
    · cases hs
      exact P.ofPartialCall rfl (length_params_le _ _ _ hparts)

/-- The body of a raw block is one text at most. -/
theorem yields_rawBlock (param : Reader (Expr Span)) :
    Yields (rawBlock param) (P.statement (n + 1)) := by
  intro c s c' hs
  simp only [rawBlock] at hs
  split at hs
  · cases hs
  · split at hs
    · cases hs
    · rename_i call c₁ _ _ closed c₂ _
      split at hs
      · cases hs
      · rename_i ending c₃ _
        split at hs
        · rename_i hname
          cases hs
          have hnone : ∀ s, none = some s → P.otherwise n s := fun _ => nofun
          have hclose :
              (Path.ofParts [String.ofList (rawEndName ending.text)] ending.span).spelling =
              call.expr.spelling := by
            rw [CallParts.spelling_expr, ← hname]
            rfl
          refine P.ofBlock (P.ofBody ?_ [] _) hnone {} false {} _ hclose
          split
          · exact fun s hs => List.mem_singleton.1 hs ▸ P.ofContent n _
          · exact fun s hs => absurd hs List.not_mem_nil
        · cases hs

/-! ## Levels -/

/-- The readers of a level read what inherits the properties with so many programs nested in it. -/
structure Reads (n : Nat) (level : Level) : Prop where
  statement : Yields level.statement (P.statement n)
  otherwise : Yields level.otherwise fun section? => ∀ s, section? = some s → P.otherwise n s

variable {P}

theorem yields_blockAfter {level : Level} (h : P.Reads n level) (opened : Token) :
    Yields (blockAfter level opened) (P.statement (n + 1)) := by
  intro c s c' hs
  simp only [blockAfter] at hs
  split at hs
  · cases hs
  · rename_i opening c₁ _
    split at hs
    · cases hs
    · rename_i main c₂ hmain
      split at hs
      · cases hs
      · rename_i section? c₃ hsection
        split at hs
        · cases hs
        · rename_i closePath closeStrip closed c₄ hclosing
          cases hs
          have hmain' := P.yields_program h.statement _ _ _ _ hmain
          have hclose : closePath.spelling = opening.call.expr.spelling := by
            rw [CallParts.spelling_expr]
            exact spelling_of_closingTag hclosing
          exact P.ofBlock hmain' (h.otherwise _ _ _ hsection) closeStrip _ opening.strip
            (opened.to closed) hclose

theorem yields_partialBlockAfter {level : Level} (h : P.Reads n level) (opened : Token) :
    Yields (partialBlockAfter level opened) (P.statement (n + 1)) := by
  intro c s c' hs
  simp only [partialBlockAfter] at hs
  split at hs
  · cases hs
  · rename_i hparts
    split at hs
    · cases hs
    · split at hs
      · cases hs
      · rename_i body c₁ hbody
        split at hs
        · cases hs
        · split at hs
          · cases hs
          · cases hs
            exact P.ofPartialBlock (P.yields_program h.statement _ _ _ _ hbody)
              (length_params_le _ _ _ hparts)

theorem yields_chainAfter {level : Level} (h : P.Reads n level) (opened : Token) :
    Yields (chainAfter level opened) (P.otherwise (n + 1)) := by
  intro c s c' hs
  simp only [chainAfter] at hs
  split at hs
  · cases hs
  · rename_i opening c₁ _
    split at hs
    · cases hs
    · rename_i main c₂ hmain
      split at hs
      · cases hs
      · rename_i section? c₃ hsection
        cases hs
        have hmain' := P.yields_program h.statement _ _ _ _ hmain
        exact P.ofChain hmain' (h.otherwise _ _ _ hsection) opening.call.expr opening.strip _

/-- The level below, if there is one, reads what inherits the properties. -/
def ReadsBelow (P : Inherited) (n : Nat) (below : Option Level) : Prop :=
  ∀ level, below = some level → P.Reads n level

theorem yields_statementOver {below : Option Level} (h : P.ReadsBelow n below) :
    Yields (statementOver below) (P.statement (n + 1)) := by
  intro c s c' hs
  simp only [statementOver] at hs
  split at hs
  · cases hs
    exact P.ofContent _ c.here
  · cases hs
    exact P.ofComment _ _
  · exact P.yields_mustache _ _ _ _ hs
  · exact P.yields_mustache _ _ _ _ hs
  · split at hs
    · cases hs
    · rename_i level
      exact yields_blockAfter (h level rfl) _ _ _ _ hs
  · split at hs
    · cases hs
    · rename_i level
      exact yields_blockAfter (h level rfl) _ _ _ _ hs
  · exact P.yields_rawBlock _ _ _ _ hs
  · exact P.yields_partialCall _ _ _ _ hs
  · split at hs
    · cases hs
    · rename_i level
      exact yields_partialBlockAfter (h level rfl) _ _ _ _ hs
  · cases hs

theorem yields_otherwiseOver {below : Option Level} (h : P.ReadsBelow n below) :
    Yields (otherwiseOver below (statementOver below))
      fun section? => ∀ s, section? = some s → P.otherwise (n + 1) s := by
  intro c section? c' hs
  simp only [otherwiseOver] at hs
  split at hs
  · split at hs
    · cases hs
    · rename_i body c₁ hbody
      cases hs
      rintro s ⟨⟩
      exact P.ofElse (P.yields_program (yields_statementOver h) _ _ _ _ hbody) _
  · split at hs
    · cases hs
    · rename_i level
      split at hs
      · cases hs
      · rename_i chained c₁ hchained
        cases hs
        rintro s ⟨⟩
        exact yields_chainAfter (h level rfl) _ _ _ _ hchained
  · cases hs
    exact nofun

/-- Every level reads what inherits the properties, by induction on how deep it may nest. -/
theorem reads_ofNat (P : Inherited) (n : Nat) : P.Reads (n + 1) (Level.ofNat n) := by
  induction n with
  | zero =>
    have hbelow : P.ReadsBelow 0 none := nofun
    exact ⟨yields_statementOver hbelow, yields_otherwiseOver hbelow⟩
  | succ n ih =>
    have hbelow : P.ReadsBelow (n + 1) (some (Level.ofNat n)) := by
      rintro level ⟨⟩
      exact ih
    exact ⟨yields_statementOver hbelow, yields_otherwiseOver hbelow⟩

/-! ## Templates -/

theorem of_template? (P : Inherited) {tokens : List Token} {tree : Program Span}
    (h : template? tokens = .ok tree) : P.program (maxNesting + 1) tree := by
  simp only [template?] at h
  split at h
  · cases h
  · rename_i root c hroot
    -- The root is marked anew, so its statements are what counts.
    obtain ⟨body, hroot, hbody⟩ := P.yields_body (P.reads_ofNat maxNesting).statement _ _ _ _ hroot
    rw [hroot] at h
    split at h
    · cases h
      exact P.ofBody hbody [] _
    · split at h <;> cases h
    · cases h
    · cases h
    · cases h

/-- Every tree that is read has a property that is inherited. -/
theorem of_read? (P : Inherited) {text : List Char} {tree : Program Span}
    (h : read? text = .ok tree) : P.program (maxNesting + 1) tree := by
  simp only [read?] at h
  split at h
  · cases h
  · exact P.of_template? h

end Inherited

end Stencil.Syntax
