import Stencil.Proofs.Syntax.Depths
import Stencil.Proofs.Syntax.Indexing

/-!
# The count of open constructs

A part of a run is balanced if it leaves as many constructs open as it found, whether it comes to a
result or to a fault (`Step.Balanced`). What looks at tokens or passes them does not touch the
count, a construct is closed where it was opened, and balanced parts are balanced one after the
other. So every part of the grammar is balanced (`balanced_of_part`).
-/

set_option autoImplicit false

namespace Stencil.Syntax.Indexed

open Stencil.Text
open Stencil.Tree

/-- A part of a run leaves as many constructs open as it found, if it does not go wrong. -/
def Step.Balanced {α : Type} (step : Step α) : Prop :=
  ∀ ts s r s', step ts s = some (r, s') → s'.depth = s.depth

namespace Step.Balanced

variable {α β : Type}

/-- A result is given without a look at the tokens. -/
theorem pure (a : α) : (Pure.pure a : Step α).Balanced := by
  rintro ts s _ _ ⟨⟩
  rfl

/-- What goes wrong leaves no state to count in, so it is balanced for want of one. -/
theorem wrong : (Step.wrong : Step α).Balanced := by
  rintro ts s _ _ ⟨⟩

/-- A fault leaves the count as it is. It is the constructs around it that close themselves. -/
theorem fail (f : Fault) : (Step.fail f : Step α).Balanced := by
  rintro ts s _ _ ⟨⟩
  rfl

theorem count : Step.count.Balanced := by
  rintro ts s _ _ ⟨⟩
  rfl

/-- Looking at a token changes what was seen only. -/
theorem peek (ahead : Nat) : (Step.peek ahead).Balanced := by
  intro ts s r s' h
  obtain ⟨t, -, ht⟩ := Option.map_eq_some_iff.1 h
  cases ht
  rfl

theorem prev : Step.prev.Balanced := by
  intro ts s r s' h
  obtain ⟨t, -, ht⟩ := Option.map_eq_some_iff.1 h
  cases ht
  rfl

/-- Passing a token moves the cursor only. -/
theorem advance : Step.advance.Balanced := by
  intro ts s r s' h
  rw [Step.advance] at h
  split at h
  · obtain ⟨t, -, ht⟩ := Option.map_eq_some_iff.1 h
    cases ht
    rfl
  · cases h

/-- The count is as it was after the first part, and so it is after the second. -/
theorem bind {x : Step α} {k : α → Step β} (hx : x.Balanced) (hk : ∀ a, (k a).Balanced) :
    (x >>= k).Balanced := by
  intro ts s r s' h
  have hrun : Step.bind x k ts s = some (r, s') := h
  rw [Step.bind] at hrun
  split at hrun
  · cases hrun
  · rename_i f s₁ hfirst
    cases hrun
    exact hx _ _ _ _ hfirst
  · rename_i a s₁ hfirst
    rw [hk a _ _ _ _ hrun, hx _ _ _ _ hfirst]

theorem ite {p : Prop} [Decidable p] {yes no : Step α} (hyes : yes.Balanced) (hno : no.Balanced) :
    (if p then yes else no).Balanced := by
  split
  · exact hyes
  · exact hno

/-- A span is a result or a place where the run goes wrong. -/
theorem span (start stop : Nat) : (Step.span start stop).Balanced := ite (pure _) wrong

/-- The fault is placed at the token here, so there is a look at it first. -/
theorem unexpected (expected : Option String) : (Step.unexpected expected : Step α).Balanced :=
  (peek 0).bind fun _ => fail _

/-- The token of the kind is passed, any other is a fault. -/
theorem expect (kind : TokenKind) : (Step.expect kind).Balanced :=
  (peek 0).bind fun _ => ite advance (unexpected _)

/-- What was opened is closed, also where what is inside could not be read. -/
theorem nested {x : Step α} (opened : Token) (h : x.Balanced) :
    (Step.nested opened x).Balanced := by
  intro ts s r s' hrun
  rw [Step.nested] at hrun
  split at hrun
  · cases hrun
    rfl
  · obtain ⟨⟨r₁, s₁⟩, hinner, heq⟩ := Option.map_eq_some_iff.1 hrun
    cases heq
    exact Nat.sub_eq_of_eq_add (h _ _ _ _ hinner)

/-- By induction on the rounds: each is balanced, and one after the other they stay so. -/
theorem readWhile {more : Step Bool} {item : Step α} (hmore : more.Balanced) (hitem : item.Balanced)
    (fuel : Nat) :
    (Step.readWhile more item fuel).Balanced := by
  induction fuel with
  | zero => exact wrong
  | succ fuel ih =>
    refine hmore.bind fun _ => ite ?_ (pure _)
    exact hitem.bind fun a => ih.bind fun as => pure _

/-- The rounds that are granted are as many as there are tokens. How many that is does not matter to
the count. -/
theorem many {more : Step Bool} {item : Step α} (hmore : more.Balanced) (hitem : item.Balanced) :
    (Step.many more item).Balanced :=
  count.bind fun _ => readWhile hmore hitem _

end Step.Balanced

open Step.Balanced

/-! ## Expressions -/

/-- By induction on the rounds: each passes a separator and a segment, or fails at one of them. -/
theorem balanced_moreSegments (start fuel : Nat) :
    ∀ (last : Token) (spelled : List Char), (moreSegments start fuel last spelled).Balanced := by
  -- The path grows from round to round, so its end and its spelling are general.
  induction fuel with
  | zero => exact fun _ _ => wrong
  | succ fuel ih =>
    intro last spelled
    refine (peek 0).bind fun next => ite (pure _) (ite ?_ (ite ?_ (pure _)))
    · refine advance.bind fun _ => (peek 0).bind fun after => ite ?_ ?_
      · exact (span _ _).bind fun _ => fail _
      · exact advance.bind fun _ => (ih _ _).bind fun _ => pure _
    · exact (span _ _).bind fun _ => fail _

/-- A path is a segment and those after it. Whether its steps stand in order is found out when all
are read. -/
theorem balanced_path (data : Bool) : (path data).Balanced := by
  refine (expect .name).bind fun first => count.bind fun _ =>
    (balanced_moreSegments _ _ _ _).bind fun more => ?_
  refine (span _ _).bind fun mark => ?_
  split
  · exact fail _
  · exact pure _

/-- No expression of one token and no path opens a construct. -/
theorem balanced_simpleExpr : simpleExpr.Balanced := by
  refine (peek 0).bind fun here => ?_
  dsimp only
  -- After the paths come the literals, which are one token, and what is no expression.
  split
  · exact (balanced_path false).bind fun _ => pure _
  · exact advance.bind fun _ => (balanced_path true).bind fun _ => pure _
  all_goals first | exact unexpected _ | exact advance.bind fun _ => pure _

theorem balanced_atPair : atPair.Balanced :=
  (peek 0).bind fun _ => ite ((peek 1).bind fun _ => pure _) (pure _)

theorem balanced_atParam : atParam.Balanced := by
  refine (peek 0).bind fun here => ?_
  split
  · exact (peek 1).bind fun _ => pure _
  all_goals exact pure _

section Expressions

variable {param : Step (Expr Span)} (hparam : param.Balanced)

include hparam

/-- A pair is its name and the sign after it, which are passed, and an expression. -/
theorem balanced_pair : (pair param).Balanced :=
  advance.bind fun _ => advance.bind fun _ => hparam.bind fun _ => prev.bind fun _ =>
    (span _ _).bind fun _ => pure _

/-- Pairs are read as long as one is here, then the last token marks where they end. -/
theorem balanced_hash? : (hash? param).Balanced := by
  refine (peek 0).bind fun _ => (many balanced_atPair (balanced_pair hparam)).bind fun pairs =>
    ite (pure _) ?_
  exact prev.bind fun _ => (span _ _).bind fun _ => pure _

/-- A call is its head, its arguments and its pairs, read in this order. -/
theorem balanced_callParts : (callParts param).Balanced := by
  refine (peek 0).bind fun _ => balanced_simpleExpr.bind fun head => ?_
  refine (many balanced_atParam hparam).bind fun params =>
    (balanced_hash? hparam).bind fun hash => ?_
  exact prev.bind fun _ => (span _ _).bind fun _ => pure _

/-- The parentheses around a call are counted by whoever opens them, so what is between them is
balanced by itself. -/
theorem balanced_parenthesised (opened : Token) : (parenthesised param opened).Balanced :=
  (balanced_callParts hparam).bind fun _ => (expect .closeCall).bind fun _ =>
    (span _ _).bind fun _ => pure _

end Expressions

/-- Block parameters are single tokens between two bars. -/
theorem balanced_blockParams : blockParams.Balanced := by
  have hmore : atBlockParam.Balanced := (peek 0).bind fun _ => pure _
  have hitem : blockParam.Balanced := advance.bind fun _ => pure _
  refine (peek 0).bind fun _ => ite (pure _)
    (advance.bind fun _ => (many hmore hitem).bind fun names => ?_)
  exact ite (unexpected _) ((expect .closeParams).bind fun _ => pure _)

/-! ## Parts of blocks -/

/-- A program is statements, read as long as none of them ends it. -/
theorem balanced_program {statement : Step (Statement Span)} (h : statement.Balanced)
    (names : List String) :
    (program statement names).Balanced := by
  have hmore : atStatement.Balanced := by
    refine (peek 0).bind fun here => ?_
    split <;> exact pure _
  have hstop : ∀ start body, (programStop start body).Balanced := fun _ _ =>
    ite (pure _) (prev.bind fun _ => pure _)
  refine (peek 0).bind fun here => (many hmore h).bind fun body => ?_
  exact (hstop _ _).bind fun _ => (span _ _).bind fun _ => pure _

/-- An opening tag is a call, block parameters, and the token that closes the tag. -/
theorem balanced_openTag {param : Step (Expr Span)} (hparam : param.Balanced) (opened : Token) :
    (openTag param opened).Balanced := by
  refine (balanced_callParts hparam).bind fun call => balanced_blockParams.bind fun names => ?_
  exact (expect .close).bind fun _ => (span _ _).bind fun _ => pure _

/-- A closing tag fails where the template ends, where another statement stands, or where it has
another name. None of this is counted. -/
theorem balanced_closingTag (name : String) (opening : Span) :
    (closingTag name opening).Balanced := by
  refine (peek 0).bind fun opened => ite (fail _) (ite (unexpected _) ?_)
  refine advance.bind fun _ => balanced_simpleExpr.bind fun closing =>
    (expect .close).bind fun closed => ?_
  exact (span _ _).bind fun _ => ite (pure _) (fail _)

/-! ## Statements -/

section Statements

variable {param : Step (Expr Span)} (hparam : param.Balanced)

include hparam

/-- The tag is opened and closed by tokens that are no constructs. -/
theorem balanced_mustache : (mustache param).Balanced := by
  refine advance.bind fun opened => (balanced_callParts hparam).bind fun call => ?_
  exact (expect _).bind fun _ => (span _ _).bind fun _ => pure _

/-- A partial has a name, arguments and pairs, and fails at once where a second argument was
read. -/
theorem balanced_partialParts : (partialParts param).Balanced := by
  refine hparam.bind fun name => (peek 0).bind fun _ =>
    (many balanced_atParam hparam).bind fun params => ite ?_ ?_
  · exact prev.bind fun _ => (span _ _).bind fun _ => fail _
  · exact (balanced_hash? hparam).bind fun _ => pure _

/-- A partial is its parts between the two tokens of a tag. -/
theorem balanced_partialCall : (partialCall param).Balanced := by
  refine advance.bind fun opened => (balanced_partialParts hparam).bind fun parts => ?_
  exact (expect .close).bind fun _ => (span _ _).bind fun _ => pure _

/-- A raw block is not counted, and holds a text at most. -/
theorem balanced_rawBlock : (rawBlock param).Balanced := by
  have hbody : rawBody.Balanced :=
    (peek 0).bind fun _ => ite (advance.bind fun _ => pure _) (pure _)
  refine advance.bind fun opened => (balanced_callParts hparam).bind fun call =>
    (expect .closeRaw).bind fun closed => ?_
  refine (span _ _).bind fun opening => hbody.bind fun body => (expect .endRaw).bind fun ending =>
    ite ?_ (fail _)
  exact (span _ _).bind fun _ => (span _ _).bind fun _ => pure _

end Statements

/-! ## Levels -/

/-- The parts of a level are balanced. -/
structure Level.Balanced (level : Level) : Prop where
  param : level.param.Balanced
  statement : level.statement.Balanced
  otherwise : level.otherwise.Balanced

section Levels

variable {below : Level} (h : below.Balanced)

include h

/-- The block itself is counted by whoever opens it. Its tag, its sections and its closing tag are
balanced one after the other. -/
theorem balanced_block (opened : Token) : (block below opened).Balanced := by
  refine (balanced_openTag h.param _).bind fun opening =>
    (balanced_program h.statement _).bind fun main => ?_
  refine h.otherwise.bind fun section? => (balanced_closingTag _ _).bind fun closing => ?_
  exact (span _ _).bind fun _ => pure _

/-- As for a block, but without a section after `else`, where it fails instead. -/
theorem balanced_partialBlock (opened : Token) : (partialBlock below opened).Balanced := by
  refine (balanced_partialParts h.param).bind fun parts => (expect .close).bind fun closed => ?_
  refine (span _ _).bind fun opening => (balanced_program h.statement _).bind fun body =>
    (peek 0).bind fun here => ?_
  refine ite (fail _) ((balanced_closingTag _ _).bind fun closing => ?_)
  exact (span _ _).bind fun _ => pure _

/-- A chained section ends where the closing tag of the whole chain stands, which it leaves
there. -/
theorem balanced_chain (opened : Token) : (chain below opened).Balanced := by
  refine (balanced_openTag h.param _).bind fun opening =>
    (balanced_program h.statement _).bind fun main => ?_
  exact h.otherwise.bind fun _ => prev.bind fun _ => (span _ _).bind fun _ => pure _

/-- A parenthesis opens a construct around a call of the level below. -/
theorem balanced_paramOver : (paramOver below).Balanced := by
  refine (peek 0).bind fun _ => ite ((expect .openCall).bind fun opened => ?_) balanced_simpleExpr
  exact nested _ (balanced_parenthesised h.param _)

/-- Each kind of token starts a statement of its own. Blocks and partial blocks open a construct
around what the level below reads. -/
theorem balanced_statementOver : (statementOver below).Balanced := by
  have hparam := balanced_paramOver h
  refine (peek 0).bind fun here => ?_
  split
  · exact advance.bind fun _ => pure _
  · exact advance.bind fun _ => pure _
  · exact balanced_mustache hparam
  · exact balanced_mustache hparam
  · exact advance.bind fun _ => nested _ (balanced_block h _)
  · exact advance.bind fun _ => nested _ (balanced_block h _)
  · exact balanced_rawBlock hparam
  · exact balanced_partialCall hparam
  · exact advance.bind fun _ => nested _ (balanced_partialBlock h _)
  · exact unexpected _

/-- After `else` there is a program, or a chained section that opens a construct. -/
theorem balanced_otherwiseOver : (otherwiseOver below).Balanced := by
  refine (peek 0).bind fun here => ?_
  split
  · exact advance.bind fun _ => (balanced_program (balanced_statementOver h) _).bind fun _ => pure _
  · exact advance.bind fun _ => (nested _ (balanced_chain h _)).bind fun _ => pure _
  · exact pure _

omit h in
/-- Every level is balanced, by induction on how deep it may nest. -/
theorem balanced_ofNat (n : Nat) : (Level.ofNat n).Balanced := by
  induction n with
  | zero => exact ⟨wrong, wrong, wrong⟩
  | succ n ih => exact ⟨balanced_paramOver ih, balanced_statementOver ih, balanced_otherwiseOver ih⟩

end Levels

/-! ## Parts -/

/-- The functions of the grammar, each with the readers of any level in it. -/
inductive Part : {α : Type} → Step α → Prop where
  | expect (kind : TokenKind) : Part (Step.expect kind)
  | unexpected {α : Type} (expected : Option String) : Part (Step.unexpected expected : Step α)
  | nested {α : Type} {inner : Step α} (opened : Token) :
    Part inner → Part (Step.nested opened inner)
  | path (data : Bool) : Part (path data)
  | simpleExpr : Part simpleExpr
  | param (n : Nat) : Part (Level.ofNat n).param
  | params (n : Nat) : Part (Step.many atParam (Level.ofNat n).param)
  | pair (n : Nat) : Part (pair (Level.ofNat n).param)
  | hash (n : Nat) : Part (hash? (Level.ofNat n).param)
  | callParts (n : Nat) : Part (callParts (Level.ofNat n).param)
  | parenthesised (n : Nat) (opened : Token) : Part (parenthesised (Level.ofNat n).param opened)
  | blockParams : Part blockParams
  | program (n : Nat) (names : List String) : Part (program (Level.ofNat n).statement names)
  | openTag (n : Nat) (opened : Token) : Part (openTag (Level.ofNat n).param opened)
  | closingTag (name : String) (opening : Span) : Part (closingTag name opening)
  | mustache (n : Nat) : Part (mustache (Level.ofNat n).param)
  | partialParts (n : Nat) : Part (partialParts (Level.ofNat n).param)
  | partialCall (n : Nat) : Part (partialCall (Level.ofNat n).param)
  | rawBlock (n : Nat) : Part (rawBlock (Level.ofNat n).param)
  | block (n : Nat) (opened : Token) : Part (block (Level.ofNat n) opened)
  | partialBlock (n : Nat) (opened : Token) : Part (partialBlock (Level.ofNat n) opened)
  | chain (n : Nat) (opened : Token) : Part (chain (Level.ofNat n) opened)
  | statement (n : Nat) : Part (Level.ofNat n).statement
  | otherwise (n : Nat) : Part (Level.ofNat n).otherwise
  | rootOf (root : Program Span) : Part (rootOf root)
  | template : Part template

/-- What ends the root program is the end of the template or a fault. -/
theorem balanced_rootOf (root : Program Span) : (rootOf root).Balanced := by
  refine (peek 0).bind fun here => ?_
  split
  · exact pure _
  · exact advance.bind fun _ => balanced_simpleExpr.bind fun _ => fail _
  · exact fail _
  · exact fail _
  · exact unexpected _

theorem balanced_template : template.Balanced :=
  (balanced_program (balanced_ofNat _).statement _).bind fun _ => balanced_rootOf _

/-- Every part of the grammar is balanced, whatever the level of the readers in it. -/
theorem balanced_of_part {α : Type} {step : Step α} (h : Part step) : step.Balanced := by
  induction h with
  | expect kind => exact expect kind
  | unexpected expected => exact unexpected expected
  | nested opened _ ih => exact nested opened ih
  | path data => exact balanced_path data
  | simpleExpr => exact balanced_simpleExpr
  | param n => exact (balanced_ofNat n).param
  | params n => exact many balanced_atParam (balanced_ofNat n).param
  | pair n => exact balanced_pair (balanced_ofNat n).param
  | hash n => exact balanced_hash? (balanced_ofNat n).param
  | callParts n => exact balanced_callParts (balanced_ofNat n).param
  | parenthesised n opened => exact balanced_parenthesised (balanced_ofNat n).param opened
  | blockParams => exact balanced_blockParams
  | program n names => exact balanced_program (balanced_ofNat n).statement names
  | openTag n opened => exact balanced_openTag (balanced_ofNat n).param opened
  | closingTag name opening => exact balanced_closingTag name opening
  | mustache n => exact balanced_mustache (balanced_ofNat n).param
  | partialParts n => exact balanced_partialParts (balanced_ofNat n).param
  | partialCall n => exact balanced_partialCall (balanced_ofNat n).param
  | rawBlock n => exact balanced_rawBlock (balanced_ofNat n).param
  | block n opened => exact balanced_block (balanced_ofNat n) opened
  | partialBlock n opened => exact balanced_partialBlock (balanced_ofNat n) opened
  | chain n opened => exact balanced_chain (balanced_ofNat n) opened
  | statement n => exact (balanced_ofNat n).statement
  | otherwise n => exact (balanced_ofNat n).otherwise
  | rootOf root => exact balanced_rootOf root
  | template => exact balanced_template

end Stencil.Syntax.Indexed

namespace Stencil.Template

open Stencil.Syntax
open Stencil.Text (Span)
open Stencil.Tree (Program)

/-- No tree is deeper than constructs may be nested. Every part of a run leaves as many constructs
open as it found, so none is open after the whole run. And nesting is refused only at a token that
would open a construct inside as many open ones as there may be. -/
theorem nesting_limited (source : String) :
    (∀ root, read? source.toList = .ok root →
        ∃ ts, tokens? source.toList = .ok ts ∧ root.depth (opensRaw ts) ≤ maxNesting) ∧
      (∀ {α : Type} (step : Indexed.Step α), Indexed.Part step → step.Balanced) ∧
      (∀ ts, tokens? source.toList = .ok ts →
        ∃ s, Indexed.template ts {} = some (template? ts, s) ∧ s.depth = 0) ∧
      ∀ f limit, read? source.toList = .error f → f.cause = .nestingTooDeep limit →
        limit = maxNesting ∧ ∃ ts, tokens? source.toList = .ok ts ∧ TooDeep ts f := by
  refine ⟨fun root h => ?_, fun step h => Indexed.balanced_of_part h, fun ts h => ?_,
    fun f limit h hcause => ?_⟩
  · obtain ⟨ts, htokens, htree⟩ := read?_eq_ok_iff.1 h
    exact ⟨ts, htokens, depth_le_of_template? (proper_of_tokens? htokens) htree⟩
  · obtain ⟨s, hrun, hdepth, -⟩ := run_template (laid_of_tokens? h)
    exact ⟨s, hrun, hdepth⟩
  · rcases read?_eq_error_iff.1 h with htokens | ⟨ts, htokens, htree⟩
    · -- The scanner never refuses nesting.
      have hlexical := (faults_of_tokens? htokens).cause
      rw [hcause] at hlexical
      cases hlexical
    · obtain ⟨hlimit, hdeep⟩ :=
        (sound_of_template? (laid_of_tokens? htokens) htree).deep limit hcause
      exact ⟨hlimit, ts, htokens, hdeep⟩

/-- A block with a call in its tag is two constructs deep, and the raw block in it adds none. Of
sixty-five calls in each other the last one is refused. -/
theorem nesting_limited_calls :
    let shallow :=
      "\x7b\x7b#a (b)\x7d\x7d\x7b\x7b\x7b\x7br\x7d\x7d\x7d\x7d" ++
        "\x7b\x7b\x7b\x7b/r\x7d\x7d\x7d\x7d\x7b\x7b/a\x7d\x7d"
    let deep := openBraces ++ (List.replicate 65 ['a', '(']).flatten ++ closeBraces
    (∃ root ts, read? shallow.toList = .ok root ∧ tokens? shallow.toList = .ok ts ∧
        root.depth (opensRaw ts) = 2 ∧ root.depth (opensRaw ts) ≤ maxNesting) ∧
      (Indexed.Part Indexed.template ∧ Indexed.template.Balanced) ∧
      ∃ f ts s, read? deep = .error f ∧ f.cause = .nestingTooDeep 64 ∧ f.span = ⟨131, 132⟩ ∧
        tokens? deep = .ok ts ∧ Indexed.template ts {} = some (template? ts, s) ∧ s.depth = 0 ∧
          64 = maxNesting ∧ TooDeep ts f := by
  intro shallow deep
  refine ⟨?_, ⟨.template, (nesting_limited shallow).2.1 Indexed.template .template⟩, ?_⟩
  · have hdepth : ((tokens? shallow.toList).bind fun ts => (read? shallow.toList).map fun root =>
        root.depth (opensRaw ts)).toOption = some 2 := by decide +kernel
    cases hread : read? shallow.toList with
    | error f =>
      rw [hread] at hdepth
      cases htokens : tokens? shallow.toList <;> rw [htokens] at hdepth <;> cases hdepth
    | ok root =>
      obtain ⟨ts, htokens, hle⟩ := (nesting_limited shallow).1 root hread
      rw [htokens, hread] at hdepth
      exact ⟨root, ts, rfl, htokens, Option.some.inj hdepth, hle⟩
  · have hfault : (read? deep).map (fun _ => ()) = .error ⟨.nestingTooDeep 64, ⟨131, 132⟩, []⟩ := by
      decide +kernel
    have hlimited := nesting_limited (String.ofList deep)
    rw [String.toList_ofList] at hlimited
    cases hread : read? deep with
    | ok root =>
      rw [hread] at hfault
      cases hfault
    | error f =>
      rw [hread] at hfault
      cases hfault
      obtain ⟨hlimit, ts, htokens, hdeep⟩ := hlimited.2.2.2 _ 64 hread rfl
      obtain ⟨s, hrun, hzero⟩ := hlimited.2.2.1 ts htokens
      exact ⟨_, ts, s, rfl, rfl, rfl, htokens, hrun, hzero, hlimit, hdeep⟩

end Stencil.Template
