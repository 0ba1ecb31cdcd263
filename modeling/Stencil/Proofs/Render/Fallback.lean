import Stencil.Proofs.Render.Tracking
import Stencil.Proofs.Render.Visits

/-!
# Bodies that stand in for a partial

A partial may be called with a body, which is the text of the call if the partial is not registered.
If it is, the body is lent to it, and the partial may call it by name. A registered partial that
does not call the body, in its own programs or in those of the partials that it calls, has no use
for it.

Yet it can tell whether there is one. The body is lent along with an empty frame of data variables,
so a data variable that is looked for from further up than the partial's own blocks is looked for
one frame less far up than without the body. Nothing else differs (`Visit.Parted`,
`runs_invokeAt_of_oblivious`): if no data variable that is looked for so far up has another value
one frame less far up, the call gives the same text or error and the same messages, whatever the
body is (`lentBody_irrelevant`). The index of an item is such a variable, and there is no index
further up (`lentBody_told`).
-/

set_option autoImplicit false

namespace Stencil.Render

open Stencil.Code (Options Chunk Instruction PartialInvocation Spec)
open Place (partialBlockName)

/-! ## An empty frame in between -/

theorem dataValue?_between (name : String) (own base : List (Table Value)) :
    dataValue? name (own ++ [] :: base) = dataValue? name (own ++ base) := by
  induction own with
  | nil => rfl
  | cons frame rest ih => simp only [List.cons_append, dataValue?, ih]

/-- In the second scope an empty frame of data variables stands before those of `base`, and the body
of the innermost partial block may be another one. -/
structure Scope.Parted (base : List (Table Value)) (s t : Scope) : Prop where
  contexts : s.contexts = t.contexts
  blockParams : s.blockParams = t.blockParams
  data : ∃ own, s.data = own ++ base ∧ t.data = own ++ [] :: base

/-- A data variable that is looked for from further up than where the frames of `base` begin has the
same value one frame less far up. -/
def Scope.Steady (base : List (Table Value)) (s : Scope) (depth : Nat) (name : String) : Prop :=
  s.data.length - base.length < depth → s.data? (depth - 1) name = s.data? depth name

namespace Scope.Parted

variable {base : List (Table Value)} {s t : Scope}

/-- Lending a body parts the scope of a partial from that which it has without one. -/
theorem lent (s : Scope) (body : PartialBody) (context : Value) :
    Parted s.data (s.forPartial context) ((s.withPartialBlock (some body)).forPartial context) :=
  ⟨rfl, rfl, [], rfl, rfl⟩

variable (h : Parted base s t)

include h

theorem context : s.context = t.context := by
  unfold Scope.context
  rw [h.contexts]

theorem contextsWith (context : Value) : s.contextsWith context = t.contextsWith context := by
  unfold Scope.contextsWith
  rw [h.context, h.contexts]

theorem data?_eq {depth : Nat} {name : String} (steady : s.Steady base depth name) :
    s.data? depth name = t.data? depth name := by
  obtain ⟨own, hs, ht⟩ := h.data
  rcases Nat.lt_or_ge own.length depth with hbeyond | hwithin
  · -- From beyond the empty frame, which counts as one.
    have hown : s.data.length - base.length = own.length := by
      rw [hs, List.length_append, Nat.add_sub_cancel]
    obtain ⟨further, rfl⟩ : ∃ further, depth = own.length + further + 1 :=
      ⟨depth - own.length - 1, by omega⟩
    have hdrop : t.data.drop (own.length + further + 1) = s.data.drop (own.length + further) := by
      rw [hs, ht, Nat.add_assoc, List.drop_length_add_append, List.drop_length_add_append]
      rfl
    rw [← steady (hown ▸ hbeyond), Scope.data?, Scope.data?, hdrop, Nat.add_sub_cancel]
  · have hdrop : ∀ outer : List (Table Value),
      (own ++ outer).drop depth = own.drop depth ++ outer := by
      intro outer
      exact List.drop_append_of_le_length hwithin
    rw [Scope.data?, Scope.data?, hs, ht, hdrop, hdrop, dataValue?_between]

theorem enter (context : Value) (values : List Value) :
    Parted base (s.enter context values) (t.enter context values) where
  contexts := h.contextsWith context
  blockParams := congrArg (values :: ·) h.blockParams
  data := h.data

theorem withData (frame : Table Value) : Parted base (s.withData frame) (t.withData frame) := by
  unfold Scope.withData
  split
  · exact h
  · obtain ⟨own, hs, ht⟩ := h.data
    exact ⟨h.contexts, h.blockParams, frame :: own, congrArg (frame :: ·) hs,
      congrArg (frame :: ·) ht⟩

theorem forPartial (context : Value) :
    Parted base (s.forPartial context) (t.forPartial context) where
  contexts := h.contextsWith context
  blockParams := rfl
  data := h.data

theorem withPartialBlock (body body' : Option PartialBody) :
    Parted base (s.withPartialBlock body) (t.withPartialBlock body') := by
  obtain ⟨own, hs, ht⟩ := h.data
  exact ⟨h.contexts, h.blockParams, [] :: own, congrArg ([] :: ·) hs, congrArg ([] :: ·) ht⟩

end Scope.Parted

/-! ## Programs that do not tell -/

/-- Two visits of one program, in scopes between whose frames an empty one makes the difference. -/
structure Visit.Parted (base : List (Table Value)) (u v : Visit) : Prop where
  spec : u.spec = v.spec
  program : u.program = v.program
  scope : u.scope.Parted base v.scope

/-- The program of a visit does not call the body of a partial block, and looks for no data variable
from so far up that an empty frame before those of `base` would give it another value. -/
structure Renderer.Oblivious (r : Renderer) (base : List (Table Value)) (u : Visit) : Prop where
  names : ∀ {c}, u.spec.program? u.program = some c →
    ∀ {i}, .partialCall i ∈ c.instructions →
      ∀ level, ((r.placeAt level u).partialName i.name).result ≠ .ok partialBlockName
  steady : ∀ {c}, u.spec.program? u.program = some c → ∀ l ∈ c.lookups, ∀ {depth name},
    l.accessor.dataVariable? = some (depth, name) → u.scope.Steady base depth name

/-- By this, a run that makes only such visits is compared with one in scopes with an empty frame
more. -/
def partedAgreement (r : Renderer) (base : List (Table Value)) : Agreement where
  visits := Visit.Parted base
  seen := r.Oblivious base
  errors := fun _ => True

section Parted

variable {r : Renderer} (looksUp : r.LooksUp fun _ => True) {base : List (Table Value)}
  {level : Nat}
  {u v : Visit}

include looksUp in
/-- The text of a partial that is not the body of a partial block, called from code with the same
options: the two find the same, and go on from there. -/
theorem runs_partialText_of_found {name : String} (hname : name ≠ partialBlockName)
    (hspec : u.spec = v.spec) {program program' : Option Nat} {context : Value}
    (next : ∀ found, (r.partialSpec u.spec.options name).result = .ok found →
      (partedAgreement r base).Runs ((r.placeAt level u).foundText name program context found)
        ((r.placeAt level v).foundText name program' context found)) :
    (partedAgreement r base).Runs ((r.placeAt level u).partialText name program context)
      ((r.placeAt level v).partialText name program' context) := by
  have hlooks : (partedAgreement r base).Runs (r.partialSpec u.spec.options name)
      (r.partialSpec v.spec.options name) := by
    obtain ⟨found, hfound, -⟩ := looksUp u.spec.options name
    rw [← hspec, hfound]
    exact Agreement.runs_ofExcept fun _ _ => trivial
  unfold Place.partialText
  rw [if_neg hname, if_neg hname]
  exact Agreement.runs_bind_result hlooks next

variable (below : ∀ u v, Visit.Parted base u v →
    (partedAgreement r base).Runs (r.invokeAt level u) (r.invokeAt level v))
  (h : Visit.Parted base u v)

include below h

theorem sections_of_oblivious (seen : r.Oblivious base u) {c : Chunk}
    (hc : u.spec.program? u.program = some c) :
    (partedAgreement r base).comparison.Sections Eq (· ∈ c.lookups) (r.placeAt level u)
      (r.placeAt level v) := by
  obtain ⟨_, _, t⟩ := v
  obtain ⟨rfl, rfl, scope⟩ := h
  exact
    { admits := (Agreement.allows_of_all (fun _ => trivial) _).toAdmits
      functions := fun _ => rfl
      level := rfl
      lookup := fun l hl =>
        resolve_congr_data u.spec.options.alike_refl scope.contexts scope.blockParams l true
          l.accessor
          (fun _ _ hdata => scope.data?_eq (seen.steady hc l hl hdata)) fun _ _ => rfl
      context := scope.context
      data := fun name => scope.data?_eq fun hbeyond => absurd hbeyond (Nat.not_lt_zero _)
      declared := fun hij => hij ▸ rfl
      nested := fun hij context args =>
        below _ _ ⟨rfl, hij, (scope.enter context args.blockParams).withData args.data⟩ }

theorem runs_foundText_of_parted (name : String) (program : Option Nat) (context : Value)
    (found : Option Spec) :
    (partedAgreement r base).Runs ((r.placeAt level u).foundText name program context found)
      ((r.placeAt level v).foundText name program context found) := by
  obtain ⟨_, _, t⟩ := v
  obtain ⟨rfl, rfl, scope⟩ := h
  unfold Place.foundText
  cases found with
  | none =>
    -- The body of the call stands in, as it does in the other scope.
    cases program with
    | none => exact (partedAgreement r base).comparison.rel_fail trivial
    | some id => exact below _ _ ⟨rfl, rfl, (scope.enter context []).withData []⟩
  | some main =>
    cases program with
    | none => exact below _ _ ⟨rfl, rfl, scope.forPartial context⟩
    | some id => exact below _ _ ⟨rfl, rfl, (scope.withPartialBlock _ _).forPartial context⟩

include looksUp

/-- The piece of an instruction of a program that does not tell. -/
theorem runs_piece_of_oblivious (seen : r.Oblivious base u) {c : Chunk}
    (hc : u.spec.program? u.program = some c) {i : Instruction} (hi : i ∈ c.instructions) :
    (partedAgreement r base).Runs ((r.placeAt level u).piece i) ((r.placeAt level v).piece i) := by
  have sections := sections_of_oblivious below h seen hc
  have hlookups : ∀ l ∈ i.lookups, l ∈ c.lookups := fun l hl => List.mem_flatMap.2 ⟨i, hi, hl⟩
  cases i with
  | partialCall p =>
    obtain ⟨hhead, hhash⟩ := List.forall_mem_append.1 hlookups
    obtain ⟨hname, hcontext⟩ := List.forall_mem_append.1 hhead
    refine Agreement.runs_bind ?_ fun text => Agreement.runs_pure _
    refine Agreement.runs_bind_result (sections.rel_partialName p.name hname) fun name hresult => ?_
    refine Agreement.runs_bind (sections.rel_operand [1] p.context hcontext) fun context => ?_
    refine Agreement.runs_bind (sections.rel_hashValues [2] 0 p.hash hhash) fun hash => ?_
    have own : name ≠ partialBlockName := by
      rintro rfl
      exact seen.names hc hi level hresult
    rw [sections.partialContext_eq]
    refine Agreement.runs_bind ?_ fun text => Agreement.runs_pure _
    exact runs_partialText_of_found looksUp own h.spec fun found _ =>
      runs_foundText_of_parted below h name p.program _ found
  | _ =>
    exact sections.rel_ownPiece (Instruction.counterpart_self fun _ _ => rfl)
      (fun _ => nofun) hlookups

end Parted

/-- Runs of one program match, whether or not an empty frame is in between, as long as no visit
tells. -/
theorem runs_invokeAt_of_oblivious {r : Renderer} (looksUp : r.LooksUp fun _ => True)
    {base : List (Table Value)} :
    ∀ (level : Nat) (u v : Visit), Visit.Parted base u v →
      (partedAgreement r base).Runs (r.invokeAt level u) (r.invokeAt level v)
  | 0, _, _, _ => (partedAgreement r base).comparison.rel_fail trivial
  | level + 1, u, v, h => by
    rw [Renderer.invokeAt_succ, Renderer.invokeAt_succ, ← h.spec, ← h.program]
    refine Agreement.runs_nested h fun seen => ?_
    refine Agreement.runs_bind_result (Agreement.runs_ofExcept fun _ _ => trivial) fun c hresult =>
      ?_
    have hc : u.spec.program? u.program = some c := Renderer.program?_of_chunk hresult
    rw [← capture_eq_textOf u.spec.buffer, ← capture_eq_textOf u.spec.buffer]
    refine (partedAgreement r base).comparison.rel_capture _ _ fun i hi => ?_
    exact runs_piece_of_oblivious looksUp (runs_invokeAt_of_oblivious looksUp level) h seen hc hi

/-! ## Calls with a body -/

/-- A call of a registered partial gives the same text or error with a body as without one, and
leaves the same messages and corresponding visits, whatever the body is, if no visit of the call
without one calls the body of a partial block or looks for a data variable from so far up that an
empty frame more would give it another value. -/
theorem lentBody_irrelevant {env : Environment} {options : Options} {level : Nat} {w : Visit}
    {call : PartialInvocation} (id : Nat) :
    let r := Renderer.cached env options
    let plain := (r.placeAt level w).piece (.partialCall { call with program := none })
    let block := (r.placeAt level w).piece (.partialCall { call with program := some id })
    (∀ name, ((r.placeAt level w).partialName call.name).result = .ok name →
      name ≠ partialBlockName ∧ env.partials.get? name ≠ none) →
    (∀ u, .entered u ∈ plain.trace → r.Oblivious w.scope.data u) →
      plain.result = block.result ∧
        List.Forall₂ (partedAgreement r w.scope.data).Events plain.trace block.trace := by
  intro r plain block named oblivious
  have looksUp : r.LooksUp fun _ => True :=
    Renderer.looksUp_cached env options fun _ _ _ _ => trivial
  have sections := (partedAgreement r w.scope.data).comparison.sections_self (fun _ => trivial)
    (r.placeAt level w)
  have runs : (partedAgreement r w.scope.data).Runs plain block := by
    refine Agreement.runs_bind ?_ fun text => Agreement.runs_pure _
    refine Agreement.runs_bind_result (sections.rel_partialName call.name fun _ _ => trivial)
      fun name hresult => ?_
    refine Agreement.runs_bind (sections.rel_operand [1] call.context fun _ _ => trivial)
      fun context => ?_
    refine Agreement.runs_bind (sections.rel_hashValues [2] 0 call.hash fun _ _ => trivial)
      fun hash => ?_
    refine Agreement.runs_bind ?_ fun text => Agreement.runs_pure _
    -- Up to here both calls do the same. Now the body of the one is in the scope of the partial.
    obtain ⟨hname, registered⟩ := named name hresult
    refine runs_partialText_of_found looksUp hname rfl fun found hfound => ?_
    cases found with
    | none => exact absurd hfound (Library.partialSpec_ne_none registered)
    | some main =>
      exact runs_invokeAt_of_oblivious looksUp level _ _ ⟨rfl, rfl, Scope.Parted.lent w.scope _ _⟩
  obtain ⟨trace, result, -⟩ := runs oblivious
  exact ⟨result, trace⟩

/-! ## The index of an item -/

/-- A partial that repeats, for each of its items, the index of the item that it is called for. -/
def indexSpec : Spec where
  stamp := { features := Code.Features.data }
  main := 0
  programs :=
    [{ instructions :=
        [.block
          { kind := .section (.lookup { accessor := .context 0, spelling := "this" }),
            name := "this"
            program := some 1, inverse := none, loc := none }] },
      { instructions :=
          [.append (.lookup { accessor := .member (.data 1) "index" .data,
                              spelling := "@../index" }) true] }]
  options := {}

/-- The built-in helpers and that partial. -/
def indexEnvironment : Environment :=
  { Environment.builtins with partials := [("p", .compiled indexSpec)] }

/-- A visit of the body of a loop, for an item of the index seven that has one item itself. -/
def seventhVisit : Visit where
  spec := { stamp := {}, main := 0, programs := [], options := {} }
  program := 0
  scope := (Scope.root (.array (.given 0) [.string "x"]) [] []).withData [("index", .int 7)]

/-- The call of that partial. -/
def indexCall : PartialInvocation where
  name := .fixed "p" (.member .partials "p" .partialName)
  context := .lookup { accessor := .context 0, spelling := "this" }
  hash := []
  indent := ""
  program := none
  loc := none

/-- The index is one frame up from the block of the partial, with a body as without one. -/
theorem lentBody_irrelevant_index :
    (((Renderer.cached indexEnvironment {}).placeAt 63 seventhVisit).piece
      (.partialCall { indexCall with program := some 1 })).result = .ok ⟨"7", true⟩ := by
  let r := Renderer.cached indexEnvironment {}
  let main : Visit :=
    ⟨indexSpec, 0, seventhVisit.scope.forPartial (.array (.given 0) [.string "x"])⟩
  let body : Visit := (r.placeAt 62 main).nestedVisit 1 (.string "x")
    { data := [("key", .int 0), ("index", .int 0), ("first", .bool true), ("last", .bool true)]
      blockParams := [.string "x", .int 0] }
  have htrace : ((r.placeAt 63 seventhVisit).piece (.partialCall indexCall)).trace =
    [.entered main, .entered body, .left, .left] := rfl
  have hmain : r.Oblivious seventhVisit.scope.data main := by
    refine ⟨fun hc i hi => ?_, fun hc l hl => ?_⟩
    · obtain rfl := Option.some.inj hc
      cases List.mem_singleton.1 hi
    · obtain rfl := Option.some.inj hc
      obtain rfl := List.mem_singleton.1 hl
      nofun
  have hbody : r.Oblivious seventhVisit.scope.data body := by
    refine ⟨fun hc i hi => ?_, fun hc l hl => ?_⟩
    · obtain rfl := Option.some.inj hc
      cases List.mem_singleton.1 hi
    · obtain rfl := Option.some.inj hc
      obtain rfl := List.mem_singleton.1 hl
      rintro depth name hvariable
      cases hvariable
      -- The block has opened one frame, and no more than that is climbed.
      exact fun hbeyond => absurd hbeyond (Nat.lt_irrefl 1)
  have oblivious :
      ∀ u, .entered u ∈ ((r.placeAt 63 seventhVisit).piece (.partialCall indexCall)).trace →
      r.Oblivious seventhVisit.scope.data u := by
    intro u hu
    rw [htrace] at hu
    rcases List.mem_cons.1 hu with hfirst | hrest
    · cases hfirst
      exact hmain
    rcases List.mem_cons.1 hrest with hsecond | hleft
    · cases hsecond
      exact hbody
    · rcases List.mem_cons.1 hleft with hend | hend
      · cases hend
      · cases List.mem_singleton.1 hend
  have named : ∀ name, ((r.placeAt 63 seventhVisit).partialName indexCall.name).result = .ok name →
      name ≠ partialBlockName ∧ indexEnvironment.partials.get? name ≠ none := by
    intro name hname
    obtain rfl : "p" = name := Except.ok.inj hname
    exact ⟨by decide, nofun⟩
  exact (lentBody_irrelevant 1 named oblivious).1.symm.trans rfl

/-- A partial that shows the index of the item that is one frame further up. -/
def outerIndexEnvironment : Environment :=
  { Environment.builtins with partials := [("p", .source "\x7b\x7b@../index\x7d\x7d")] }

/-- Calls the partial for every item. -/
def bareCallText : String := "\x7b\x7b#each a\x7d\x7d\x7b\x7b> p\x7d\x7d\x7b\x7b/each\x7d\x7d"

/-- Calls the partial with a body for every item. -/
def bodyCallText : String :=
  "\x7b\x7b#each a\x7d\x7d\x7b\x7b#> p\x7d\x7dx\x7b\x7b/p\x7d\x7d\x7b\x7b/each\x7d\x7d"

/-- There is no index further up than that of the item, but the body puts a frame in between. -/
theorem lentBody_told :
    (renderSource {} outerIndexEnvironment none bareCallText climbingContext []).result = .ok "" ∧
      (renderSource {} outerIndexEnvironment none bodyCallText climbingContext []).result =
        .ok "01" := by
  constructor
  · decide +kernel
  · decide +kernel

end Stencil.Render
