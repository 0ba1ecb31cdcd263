import Stencil.Render.Stock
import Stencil.Proofs.Render.Precedence
import Stencil.Proofs.Render.Tracking
import Stencil.Proofs.Syntax.Origins

/-!
# Scoped paths

A path is scoped by its spelling, which has lost the brackets of its segments. A path that starts
with a word that stands for a context is scoped; so is one whose first segment is a name that looks
like such a word (`Written.Mimics`), and no other (`Written.isScoped_iff`). A single name that does
not look so is a bare name, and is found as a block parameter or as a helper before the property of
the context (`FoundFirst`).
-/

set_option autoImplicit false

namespace Stencil.Tree.Path

/-- What comes next, if anything, is a sign: neither a letter nor a digit nor an underscore. -/
def SignNext (cs : List Char) : Prop := ∀ c ∈ cs.head?, (Text.isAlphanumeric c || c == '_') = false

theorem signNext_nil : SignNext [] := by
  intro c hc
  cases hc

theorem startsAtContext_this (rest : List Char) :
    startsAtContext ("this".toList ++ rest) = true ↔ SignNext rest := by
  cases rest with
  | nil => exact ⟨fun _ => signNext_nil, fun _ => rfl⟩
  | cons c rest =>
    show (!(Text.isAlphanumeric c || c == '_')) = true ↔ SignNext (c :: rest)
    simp [SignNext]

/-- A spelling starts at the current context if it starts with a point, or with the word `this` and
no letter after it. -/
theorem startsAtContext_iff {cs : List Char} :
    startsAtContext cs = true ↔
      (∃ rest, cs = '.' :: rest) ∨ ∃ rest, cs = "this".toList ++ rest ∧ SignNext rest := by
  unfold startsAtContext
  split
  · exact ⟨fun _ => .inl ⟨_, rfl⟩, fun _ => rfl⟩
  · rename_i rest
    refine (startsAtContext_this rest).trans ⟨fun h => .inr ⟨rest, rfl, h⟩, ?_⟩
    rintro (⟨rest', h⟩ | ⟨rest', h, hsign⟩)
    · cases h
    · cases h
      exact hsign
  · rename_i hpoint hthis
    refine ⟨fun h => Bool.noConfusion h, ?_⟩
    rintro (⟨rest, rfl⟩ | ⟨rest, rfl, -⟩)
    · exact absurd rfl (hpoint rest)
    · exact absurd rfl (hthis rest)

/-- What goes on with a sign starts at the current context if what is before the sign does. -/
theorem startsAtContext_append {cs rest : List Char} (hcs : cs ≠ []) (hrest : SignNext rest) :
    startsAtContext (cs ++ rest) = startsAtContext cs := by
  obtain ⟨first, more, rfl⟩ := List.exists_cons_of_ne_nil hcs
  rw [Bool.eq_iff_iff, startsAtContext_iff, startsAtContext_iff]
  constructor
  · rintro (⟨behind, h⟩ | ⟨behind, h, hsign⟩)
    · cases h
      exact .inl ⟨more, rfl⟩
    · refine .inr ?_
      rcases List.append_eq_append_iff.1 h with ⟨left, hword, hleft⟩ | ⟨left, hword, hleft⟩
      · cases left with
        | nil => exact ⟨[], by rw [hword, List.append_nil, List.append_nil], signNext_nil⟩
        | cons c left =>
          -- The sign would be a letter of the word.
          have hletters : ("this".toList.all fun c => Text.isAlphanumeric c || c == '_') =
              true := by decide
          have hletter := List.all_eq_true.1 hletters c (by
            rw [hword]
            exact List.mem_append_right _ List.mem_cons_self)
          rw [hrest c (by rw [hleft]; rfl)] at hletter
          cases hletter
      · refine ⟨left, hword, ?_⟩
        cases left with
        | nil => exact signNext_nil
        | cons c left => exact fun d hd => hsign d (by rw [hleft]; exact hd)
  · rintro (⟨behind, h⟩ | ⟨behind, h, hsign⟩)
    · exact .inl ⟨behind ++ rest, by rw [h]; rfl⟩
    · refine .inr ⟨behind ++ rest, by rw [h, List.append_assoc], ?_⟩
      cases behind with
      | nil => exact hrest
      | cons c behind => exact hsign

end Stencil.Tree.Path

namespace Stencil.Syntax

open Stencil.Tree
open Stencil.Tree.Path (SignNext startsAtContext startsAtContext_iff startsAtContext_append)

/-! ## Scoped by the first segment -/

/-- The first segment is a name, but what is spelled looks as if it started at the current
context. -/
inductive Written.Mimics (w : Written) : Prop
  /-- A name in brackets may start with a point. -/
  | point (bracketed : w.first.isBracketed = true) (rest : List Char)
    (name : w.first.segment = '.' :: rest)
  /-- In brackets the word `this` is a name. -/
  | word (bracketed : w.first.isBracketed = true) (name : w.first.segment = "this".toList)
  /-- A name may go on after this word with a sign. -/
  | sign (c : Char) (rest : List Char) (name : w.first.segment = "this".toList ++ c :: rest)
    (sign : (Text.isAlphanumeric c || c == '_') = false)
  /-- Nothing is left of empty brackets, and the path seems to start with its first separator. -/
  | empty (name : w.first.segment = []) (next : ∃ m ∈ w.more.head?, m.1.text = ['.'])

variable {w : Written}

theorem Token.startsAtContext_of_isScope {t : Token} (h : t.isScope = true) :
    startsAtContext t.segment = true := by
  rw [Token.segment, Token.not_isBracketed_of_isScope h, if_neg Bool.false_ne_true]
  simp only [Token.isScope, isScopeWord, Bool.or_eq_true, beq_iff_eq] at h
  rcases h with (h | h) | h <;> rw [h] <;> rfl

/-- A segment looks as if it stood for a context if it does, or is a name like such a word. -/
theorem Written.startsAtContext_first (formed : w.first.Formed) (kind : w.first.kind = .name)
    (some_ : w.first.segment ≠ []) :
    startsAtContext w.first.segment = true ↔ w.first.isScope = true ∨ w.Mimics := by
  constructor
  · intro h
    -- Brackets are not seen in the spelling, so a name within them may look like such a word.
    cases hbracket : w.first.isBracketed with
    | true =>
      refine .inr ?_
      rcases startsAtContext_iff.1 h with ⟨rest, hname⟩ | ⟨rest, hname, hsign⟩
      · exact .point hbracket rest hname
      · cases rest with
        | nil => exact .word hbracket (by rw [hname, List.append_nil])
        | cons c rest => exact .sign c rest hname (hsign c rfl)
    | false =>
      have htext : w.first.segment = w.first.text := by
        rw [Token.segment, hbracket, if_neg Bool.false_ne_true]
      rcases startsAtContext_iff.1 h with ⟨rest, hname⟩ | ⟨rest, hname, hsign⟩
      · -- Without brackets such a name is one point or two.
        refine .inl ?_
        rw [htext] at hname
        rcases formed.points kind (by rw [hname]; rfl) with hpoint | hpoints
        · rw [Token.isScope, hpoint]
          rfl
        · rw [Token.isScope, hpoints]
          rfl
      · cases rest with
        | nil =>
          rw [htext, List.append_nil] at hname
          refine .inl ?_
          rw [Token.isScope, hname]
          rfl
        | cons c rest => exact .inr (.sign c rest hname (hsign c rfl))
  · rintro (hscope | ⟨-, rest, hname⟩ | ⟨-, hname⟩ | ⟨c, rest, hname, hsign⟩ | ⟨hname, -⟩)
    · exact Token.startsAtContext_of_isScope hscope
    · exact startsAtContext_iff.2 (.inl ⟨rest, hname⟩)
    · exact startsAtContext_iff.2
        (.inr ⟨[], by rw [hname, List.append_nil], Tree.Path.signNext_nil⟩)
    · refine startsAtContext_iff.2 (.inr ⟨c :: rest, hname, ?_⟩)
      rintro d ⟨⟩
      exact hsign
    · exact absurd hname some_

/-- What is spelled after the first segment starts with a separator. -/
theorem Written.signNext_more (runs : w.Runs) (formed : ∀ t ∈ w.tokens, t.Formed) :
    SignNext (w.more.flatMap fun m => m.1.text ++ m.2.segment) := by
  obtain ⟨first, more⟩ := w
  cases runs.more with
  | nil => exact Tree.Path.signNext_nil
  | @cons _ separator segment more kind _ _ _ _ =>
    have hformed := formed separator (List.mem_cons_of_mem _ List.mem_cons_self)
    rintro c hc
    rcases hformed.separator kind with htext | htext
    · rw [List.flatMap_cons, htext] at hc
      cases hc
      decide
    · rw [List.flatMap_cons, htext] at hc
      cases hc
      decide

/-- Where the first segment is empty brackets, it looks like a context only for the point after
it. -/
theorem Written.mimics_iff_of_empty (hname : w.first.segment = []) :
    w.Mimics ↔ ∃ m ∈ w.more.head?, m.1.text = ['.'] := by
  refine ⟨?_, .empty hname⟩
  rintro (⟨-, rest, h⟩ | ⟨-, h⟩ | ⟨c, rest, h, -⟩ | ⟨-, next⟩)
  · cases hname.symm.trans h
  · cases hname.symm.trans h
  · cases hname.symm.trans h
  · exact next

theorem Written.startsAtContext_more (runs : w.Runs) (formed : ∀ t ∈ w.tokens, t.Formed) :
    startsAtContext (w.more.flatMap fun m => m.1.text ++ m.2.segment) = true ↔
      ∃ m ∈ w.more.head?, m.1.text = ['.'] := by
  obtain ⟨first, more⟩ := w
  cases runs.more with
  | nil =>
    refine ⟨fun h => Bool.noConfusion h, ?_⟩
    rintro ⟨m, hm, -⟩
    cases hm
  | @cons _ separator segment more kind _ _ _ _ =>
    have hformed := formed separator (List.mem_cons_of_mem _ List.mem_cons_self)
    rw [List.flatMap_cons]
    rcases hformed.separator kind with htext | htext
    · exact iff_of_true (by rw [htext]; rfl) ⟨_, rfl, htext⟩
    · refine iff_of_false (by rw [htext]; exact Bool.noConfusion) ?_
      rintro ⟨m, hm, hpoint⟩
      cases hm
      cases htext.symm.trans hpoint

/-- A path is scoped exactly if it is no data path and its first segment stands for a context or
looks so. -/
theorem Written.isScoped_iff (runs : w.Runs) (formed : ∀ t ∈ w.tokens, t.Formed) (data : Bool) :
    startsAtContext (w.spelling data) = true ↔
      data = false ∧ (w.first.isScope = true ∨ w.Mimics) := by
  cases data with
  | true => exact ⟨fun h => Bool.noConfusion h, fun h => Bool.noConfusion h.1⟩
  | false =>
    rw [and_iff_right rfl]
    show startsAtContext
      (w.first.segment ++ w.more.flatMap fun m => m.1.text ++ m.2.segment) = true ↔ _
    by_cases hname : w.first.segment = []
    · -- Nothing is spelled of the first segment, so the separator after it decides.
      have hscope : w.first.isScope ≠ true := fun h => by
        have hstarts := Token.startsAtContext_of_isScope h
        rw [hname] at hstarts
        cases hstarts
      rw [hname, List.nil_append, or_iff_right hscope, w.mimics_iff_of_empty hname]
      exact w.startsAtContext_more runs formed
    · -- The first segment decides, since a separator can only come after it.
      rw [startsAtContext_append hname (w.signNext_more runs formed)]
      exact w.startsAtContext_first (formed _ List.mem_cons_self) runs.first hname

end Stencil.Syntax

namespace Stencil.Render

open Stencil.Code (Options Compiler Frames Lookup Call Operand Form)
open Stencil.Code.Compiling (Gives gives_pure gives_bind gives_map gives_guard)
open Stencil.Text (Location)
open Stencil.Tree (Path)

/-! ## Found before the property -/

variable {options : Options} {frames : Frames} {p : Path (Option Location)} {name : String}
  {o : Operand}

/-- A tag of a bare name shows the block parameter of the name, if a program around declares it. -/
theorem shown_declared (simple : p.isSimple = true) (head : p.head? = some name)
    (h : Gives (({ options } : Compiler).shown frames (.path p)) o) {depth index : Nat}
    (declared : frames.find? name = some (depth, index)) :
    ∃ terminal, o = .lambda ⟨.blockParam depth index, terminal, p.spelling, p.mark⟩ := by
  have hpath : (Form.ofExpr (.path p)).path = p := rfl
  have hkind : (Form.ofExpr (.path p)).kind options frames = .value := by
    simp [Form.kind, hpath, simple, head, declared]
  rcases Compiler.gives_shown h with ⟨hcall, -⟩ | ⟨hambiguous, -⟩ | ⟨-, l, rfl, hl⟩
  · cases hkind.symm.trans hcall
  · cases hkind.symm.trans hambiguous
  · obtain ⟨hparts, hdepth, hdata, hscoped⟩ := Path.bare_of_isSimple simple head
    unfold Compiler.lookup at hl
    obtain ⟨⟨base, steps, kind⟩, hstart, hl⟩ := gives_bind (gives_guard hl)
    obtain rfl := gives_pure.1 hl
    unfold Compiler.start at hstart
    replace hstart := gives_guard hstart
    simp only [hpath, head, hparts, hdepth, hdata, hscoped, Option.bind_some] at hstart
    -- The search for a declared name is not skipped, because the path is bare.
    rw [show (if (!false && (0 : Nat) == 0 && !false) = true then frames.find? name else none) =
      some (depth, index) from declared] at hstart
    obtain ⟨_, -, hstart⟩ := gives_bind hstart
    obtain ⟨rfl, rfl, rfl⟩ := gives_pure.1 hstart
    exact ⟨_, rfl⟩

/-- A tag of a name that is not declared asks for the helper of the name, unless only known helpers
may be called and it is none. -/
theorem shown_undeclared (simple : p.isSimple = true) (head : p.head? = some name)
    (h : Gives (({ options } : Compiler).shown frames (.path p)) o)
    (undeclared : frames.find? name = none)
    (callable : options.knownHelpersOnly = true → options.knownHelpers.contains name = true) :
    ∃ value ids,
      o = .call ⟨p.spelling, some (.member .helpers name .helper), value, [], [], ids, p.mark⟩ ∨
      o = .ambiguous ⟨p.spelling, some (.member .helpers name .helper), value, [], [], ids,
        p.mark⟩ := by
  have hpath : (Form.ofExpr (.path p)).path = p := rfl
  have hhead : (Form.ofExpr (.path p)).head = name := Code.Form.head_ofExpr_path head
  rcases Compiler.gives_shown h with ⟨-, c, rfl, hc⟩ | ⟨-, c, rfl, hc⟩ | ⟨hvalue, -⟩
  · obtain ⟨harguments, hspelling, hloc, -, -, hhelper, -⟩ := Compiler.gives_call hc
    rw [hpath, simple, hhead] at hhelper
    -- There are no arguments to compile.
    obtain ⟨params, hparams, harguments⟩ := gives_bind harguments
    obtain ⟨hash, hhash, harguments⟩ := gives_bind harguments
    obtain rfl := gives_pure.1 hparams
    obtain rfl := gives_pure.1 hhash
    have hboth := gives_pure.1 harguments
    obtain ⟨spelling, helper, value, params, hash, ids, loc⟩ := c
    cases hboth
    cases hspelling
    cases hloc
    cases hhelper
    exact ⟨value, ids, .inl rfl⟩
  · obtain ⟨l, -, rfl⟩ := Compiler.gives_ambiguousCall hc
    rw [hhead]
    exact ⟨some l, none, .inr rfl⟩
  · -- Otherwise the name would be a property for want of a known helper.
    have hbare : ((Form.ofExpr (.path p)).parenthesised || (Form.ofExpr (.path p)).hasArguments) =
        false := rfl
    have hkind : (Form.ofExpr (.path p)).kind options frames =
        if options.knownHelpers.contains name then .call
        else if options.knownHelpersOnly then .value else .ambiguous := by
      simp only [Form.kind, hpath, hhead, hbare, simple, head, Option.any_some, undeclared,
        Option.isSome_none]
      rfl
    rw [hkind] at hvalue
    split at hvalue
    · cases hvalue
    rename_i hunknown
    split at hvalue
    · rename_i honly
      exact absurd (callable honly) hunknown
    · cases hvalue

/-- A path is one bare name, and a tag of it shows a block parameter of the name, if a program
around declares it, else what the helper gives that is registered under it, rather than the property
of the context. -/
structure FoundFirst (p : Path (Option Location)) (name : String) : Prop where
  simple : p.isSimple = true
  head : p.head? = some name
  blockParam : ∀ (options : Options) (frames : Frames) (o : Operand),
    Gives (({ options } : Compiler).shown frames (.path p)) o → ∀ depth index,
      frames.find? name = some (depth, index) → ∀ at_ : Place,
        at_.operand [] o = at_.called p (at_.scope.blockParam depth index)
  /-- If only known helpers may be called, the name has to be that of one. -/
  helper : ∀ (options : Options) (frames : Frames) (o : Operand),
    Gives (({ options } : Compiler).shown frames (.path p)) o → frames.find? name = none →
      (options.knownHelpersOnly = true → options.knownHelpers.contains name = true) →
        ∀ (at_ : Place) (f : FunctionId), at_.frame.env.helpers.get? name = some f →
          ∃ ids, at_.operand [] o = at_.apply {} f
            (at_.helperCall [] p.spelling [] [] ids p.mark {})

theorem foundFirst_of_isSimple (simple : p.isSimple = true) (head : p.head? = some name) :
    FoundFirst p name where
  simple := simple
  head := head
  blockParam options frames o h depth index declared at_ := by
    obtain ⟨terminal, rfl⟩ := shown_declared simple head h declared
    show at_.operand [] (.lambda _) = _
    rw [Place.operand, Place.lookup]
    show (Run.ofRuntime (.ok (at_.scope.blockParam depth index)) >>= _) = _
    cases at_.scope.blockParam depth index <;> rfl
  helper options frames o h undeclared callable at_ f registered := by
    obtain ⟨value, ids, rfl | rfl⟩ := shown_undeclared simple head h undeclared callable
    · refine ⟨ids, ?_⟩
      rw [Place.operand, Place.call, callee_registered registered]
      rfl
    · refine ⟨ids, ?_⟩
      rw [Place.operand, Place.ambiguous, callee_registered registered]
      rfl

end Stencil.Render

namespace Stencil.Syntax

open Stencil.Tree (Path)
open Stencil.Text (Span)

variable {w : Written} {ts : List Token} {p : Path Span}

namespace Written.Makes

theorem tokens_subset (h : w.Makes ts p) : ∀ t ∈ w.tokens, t ∈ ts := by
  obtain ⟨-, before, after, rfl, -, -⟩ := h.stands
  exact fun t ht => List.mem_append_left _ (List.mem_append_right _ ht)

theorem isScoped_iff (h : w.Makes ts p) (proper : Proper ts) :
    p.isScoped = true ↔ p.data = false ∧ (w.first.isScope = true ∨ w.Mimics) := by
  rw [Path.isScoped, h.spelling, String.toList_ofList]
  exact Written.isScoped_iff h.stands.1 (fun t ht => proper.formed t (h.tokens_subset t ht)) p.data

/-- A single name is a bare name unless it looks like a word that stands for a context. -/
theorem isSimple_iff (h : w.Makes ts p) (proper : Proper ts) (data : p.data = false)
    (single : w.more = []) (name : w.first.isScope = false) :
    p.head? = some (String.ofList w.first.segment) ∧ (p.isSimple = true ↔ ¬ w.Mimics) := by
  have hclimbs : w.first.climbs = false := by
    refine Bool.eq_false_iff.2 fun hclimbs => ?_
    rw [Token.isScope_of_climbs hclimbs] at name
    cases name
  have hsegments : w.segments = [w.first] := by rw [Written.segments, single, List.map_nil]
  have hparts : p.parts = [String.ofList w.first.segment] := by
    rw [h.parts, hsegments]
    simp [name]
  have hdepth : p.depth = 0 := by
    rw [h.depth, hsegments]
    simp [hclimbs]
  have hscoped : p.isScoped = true ↔ w.Mimics := by
    rw [h.isScoped_iff proper, name, data]
    simp
  refine ⟨by rw [Path.head?, hparts]; rfl, ?_⟩
  rw [← hscoped, Path.isSimple, hparts, hdepth, data]
  simp

end Written.Makes

end Stencil.Syntax

namespace Stencil.Template

open Stencil.Syntax
open Stencil.Render
open Stencil.Tree (Path Statement Program)

/-- A path of a template, which is one of the tree as it was read, is scoped exactly if it is no
data path and starts with a word that stands for a context, or with a name that looks so. One name
that does not look so is a bare name, and is found as a block parameter or as a helper before the
property of the context. -/
theorem paths_scoped_iff {options : ReadOptions} {source : String} {tree : Tree.Located}
    (h : read options source = .ok tree) :
    ∃ ts spanned, tokens? source.toList = .ok ts ∧ Syntax.read? source.toList = .ok spanned ∧
      tree.Every fun s => ∀ p ∈ s.pathsWithin,
        ∃ q ∈ spanned.pathsThroughout, Origin ts q ∧ p = q.mapMark (locate options source) ∧
          ∀ w : Written, w.Makes ts q →
            (p.isScoped = true ↔ p.data = false ∧ (w.first.isScope = true ∨ w.Mimics)) ∧
              (p.data = false → w.more = [] → w.first.isScope = false →
                (¬ w.Mimics → FoundFirst p (String.ofList w.first.segment)) ∧
                  (w.Mimics → p.isSimple = false)) := by
  obtain ⟨ts, spanned, htokens, hread, proper, hevery⟩ := origins_of_read h
  refine ⟨ts, spanned, htokens, hread, hevery _ fun q hq horigin =>
    ⟨q, hq, horigin, rfl, fun w hmakes => ?_⟩⟩
  refine ⟨hmakes.isScoped_iff proper, fun hdata hsingle hname => ?_⟩
  obtain ⟨hhead, hsimple⟩ := hmakes.isSimple_iff proper hdata hsingle hname
  refine ⟨fun hclear => foundFirst_of_isSimple (hsimple.2 hclear) hhead, fun hmimics => ?_⟩
  exact Bool.eq_false_iff.2 fun h => hsimple.1 h hmimics

/-! ## Names in brackets -/

/-- A template of one bracketed name. -/
def bracketedText : String := "\x7b\x7b[x y]\x7d\x7d"

/-- The bracketed name. -/
def bracketedName : Token := ⟨.name, 2, "[x y]".toList⟩

/-- The tokens of the template. -/
def bracketedTokens : List Token :=
  [⟨.openMustache, 0, openBraces⟩, bracketedName, ⟨.close, 7, closeBraces⟩, ⟨.eof, 9, []⟩]

/-- The bracketed name is the only path of the template. -/
theorem eq_bracketedName {w : Written} {p : Path Text.Span} (h : w.Makes bracketedTokens p) :
    w = ⟨bracketedName, []⟩ := by
  have hnames : ∀ t ∈ bracketedTokens, t.kind = .name → t = bracketedName := by decide
  have hseparators : ∀ t ∈ bracketedTokens, t.kind ≠ .separator := by decide
  have htokens := h.tokens_subset
  obtain ⟨first, more⟩ := w
  obtain rfl := hnames first (htokens _ List.mem_cons_self) h.stands.1.first
  cases h.stands.1.more with
  | nil => rfl
  | @cons _ separator _ _ kind _ _ _ _ =>
    exact absurd kind
      (hseparators separator (htokens _ (List.mem_cons_of_mem _ List.mem_cons_self)))

/-- The name in the brackets is found as a block parameter or as a helper. -/
theorem paths_scoped_iff_bracketed :
    ∃ tree s p, read {} bracketedText = .ok tree ∧ s ∈ tree.body ∧ p ∈ s.pathsWithin ∧
      FoundFirst p "x y" := by
  obtain ⟨tree, hread, hpaths⟩ : ∃ tree, read {} bracketedText = .ok tree ∧
      tree.body.any (fun s => s.pathsWithin.any fun p => !p.data) = true :=
    exists_ok_of_any (by decide +kernel)
  obtain ⟨s, hs, p, hp, hdata⟩ : ∃ s ∈ tree.body, ∃ p ∈ s.pathsWithin, p.data = false := by
    simpa using hpaths
  obtain ⟨us, htokens, hus⟩ : ∃ us, tokens? bracketedText.toList = .ok us ∧
      (us == bracketedTokens) = true :=
    exists_ok_of_any (by decide +kernel)
  obtain rfl := eq_of_beq hus
  obtain ⟨ts, _, hts, -, hevery⟩ := paths_scoped_iff hread
  obtain rfl : bracketedTokens = ts := Except.ok.inj (htokens.symm.trans hts)
  obtain ⟨q, -, horigin, rfl, hlaw⟩ := ((Tree.Program.every_iff.1 hevery) s hs).self p hp
  refine ⟨tree, s, _, hread, hs, hp, ?_⟩
  have hkinds : ∀ t ∈ bracketedTokens, t.kind.isLiteral = false ∧ t.kind ≠ .endRaw := by decide
  cases horigin with
  | literal t mem kind _ => rw [(hkinds t mem).1] at kind; cases kind
  | ending t mem kind _ => exact absurd kind (hkinds t mem).2
  | written w makes =>
    obtain rfl := eq_bracketedName makes
    have hclear : ¬ (⟨bracketedName, []⟩ : Written).Mimics := by
      have hsegment : bracketedName.segment = "x y".toList := by decide
      rintro (⟨-, rest, h⟩ | ⟨-, h⟩ | ⟨c, rest, h, -⟩ | ⟨h, -⟩) <;> rw [hsegment] at h <;> cases h
    exact ((hlaw _ makes).2 hdata rfl (by decide)).1 hclear

/-- A template of the word `this` in brackets. -/
def bracketedThisText : String := "\x7b\x7b[this]\x7d\x7d"

/-- The word in brackets. -/
def bracketedThis : Written := ⟨⟨.name, 2, "[this]".toList⟩, []⟩

/-- An environment with a helper of the name `this`. -/
def environmentWithThis : Environment :=
  { helpers := [("this", .custom 0)], customs := [(StockHelper.const (.string "helper")).helper] }

/-- The word `this` in brackets is a name, but the path counts as scoped; so the helper of this name
is not found, and the property is. -/
theorem bracketed_this_scoped :
    (∃ tree ts, read {} bracketedThisText = .ok tree ∧ tokens? bracketedThisText.toList = .ok ts ∧
      bracketedThis.Makes ts (bracketedThis.path false) ∧ bracketedThis.first.isScope = false ∧
      ∃ s ∈ tree.body, ∃ p ∈ s.pathsWithin,
        p = (bracketedThis.path false).mapMark (locate {} bracketedThisText) ∧
          p.isScoped = true ∧ p.isSimple = false) ∧
      (renderSource {} environmentWithThis none bracketedThisText
        (.object (.given 0) [("this", .string "property")]) []).result = .ok "property" := by
  constructor
  · obtain ⟨tree, hread, hpaths⟩ : ∃ tree, read {} bracketedThisText = .ok tree ∧
        tree.body.any (fun s => s.pathsWithin.any fun p =>
          p == (bracketedThis.path false).mapMark (locate {} bracketedThisText)) = true :=
      exists_ok_of_any (by decide +kernel)
    obtain ⟨s, hs, p, hp, rfl⟩ : ∃ s ∈ tree.body, ∃ p ∈ s.pathsWithin,
        p = (bracketedThis.path false).mapMark (locate {} bracketedThisText) := by
      simpa using hpaths
    obtain ⟨ts, htokens, hts⟩ : ∃ ts, tokens? bracketedThisText.toList = .ok ts ∧
        (ts == [⟨.openMustache, 0, openBraces⟩, bracketedThis.first, ⟨.close, 8, closeBraces⟩,
          ⟨.eof, 10, []⟩]) =
          true :=
      exists_ok_of_any (by decide +kernel)
    obtain rfl := eq_of_beq hts
    refine ⟨tree, _, hread, htokens, ?_, by decide, s, hs, _, hp, rfl, by decide, by decide⟩
    refine ⟨⟨⟨rfl, .nil _⟩, [⟨.openMustache, 0, openBraces⟩], _, rfl, ?_, nofun⟩, rfl, rfl,
      List.pairwise_singleton _ _, rfl, rfl⟩
    rintro next ⟨⟩ -
    decide
  · decide +kernel

end Stencil.Template
