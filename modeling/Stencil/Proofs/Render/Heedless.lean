import Stencil.Proofs.Code.Erasure
import Stencil.Render.Builtin

/-!
# Helpers that heed no notes

A helper is told where its call was read and by which paths its arguments were given. It heeds no
notes if its plans are the same whether these notes are erased or not: the same values, messages and
parts of blocks, errors that are the same up to notes, and frames of data that differ in
`contextPath` at most, where one may be opened for that alone (`Helper.Heedless`). The built-in
helpers are such helpers (`Builtin.heedless`).

Everything here is relative to an `Erasure`, which says which of the two kinds of notes are erased.
-/

set_option autoImplicit false

namespace Stencil.Render

open Stencil.Code (Erasure)

variable (n : Erasure) {α β : Type}

/-! ## Ends -/

/-- Two ways to end: with related values, or with errors that are the same up to notes. -/
inductive EndsAlike (V : α → β → Prop) : Except TemplateError α → Except TemplateError β → Prop
  | ok {a : α} {b : β} (h : V a b) : EndsAlike V (.ok a) (.ok b)
  | error {e e' : TemplateError} (h : n.error e = n.error e') : EndsAlike V (.error e) (.error e')

/-! ## Frames of data -/

/-- Two frames show the same, the second with notes erased. It is there only if the first is, and
where the paths of arguments are kept the first is there only if it is. -/
structure FramesAlike (frame frame' : Table Value) : Prop where
  entries : ∀ name, n.Reads name → frame.get? name = frame'.get? name
  opened : frame.isEmpty = true → frame'.isEmpty = true
  counted : n.ids = false → frame'.isEmpty = true → frame.isEmpty = true

/-- A frame is alike to itself. -/
theorem FramesAlike.refl (frame : Table Value) : FramesAlike n frame frame where
  entries _ _ := rfl
  opened := id
  counted _ := id

/-- What a frame tells of the path of a context, if it is known. -/
def pathEntry (told : String → String) : Option String → Table Value
  | some path => [("contextPath", .string (told path))]
  | none => []

/-- An entry for the path is found under no other name. -/
theorem get?_append_pathEntry (told : String → String) (path : Option String) {name : String}
    (hname : name ≠ "contextPath") :
    ∀ frame : Table Value, Table.get? name (frame ++ pathEntry told path) = Table.get? name frame
  | [] => by
    cases path with
    | none => rfl
    | some path => exact if_neg hname.symm
  | (key, value) :: rest => by
    rw [List.cons_append, Table.get?, Table.get?, get?_append_pathEntry told path hname rest]

/-- A frame that tells the path of a context shows what it does without, where paths are erased. -/
theorem FramesAlike.path {path path' : Option String} (h : path' = if n.ids then none else path)
    (frame : Table Value) (told : String → String) :
    FramesAlike n (frame ++ pathEntry told path) (frame ++ pathEntry told path') := by
  cases hids : n.ids with
  | false =>
    rw [hids] at h
    obtain rfl : path' = path := h
    exact .refl n _
  | true =>
    rw [hids] at h
    obtain rfl : path' = none := h
    refine ⟨fun name hreads => ?_, fun hempty => ?_, fun hkept => ?_⟩
    · rw [get?_append_pathEntry told path (hreads hids),
        get?_append_pathEntry told none (hreads hids)]
    · obtain ⟨rfl, -⟩ := List.append_eq_nil_iff.1 (List.isEmpty_iff.1 hempty)
      rfl
    · rw [hids] at hkept
      cases hkept

/-! ## Calls and plans -/

/-- Two calls, the second with notes erased. -/
structure CallsAlike (c d : HelperCall) : Prop where
  name : c.name = d.name
  params : c.params = d.params
  hash : c.hash = d.hash
  ids : d.ids = if n.ids then none else c.ids
  hashIds : d.hashIds = if n.ids then none else c.hashIds
  loc : n.loc c.loc = n.loc d.loc
  this : c.this = d.this
  data : ∀ name, n.Reads name → c.data name = d.data name
  hasBody : c.hasBody = d.hasBody
  hasInverse : c.hasInverse = d.hasInverse
  bodyParams : c.bodyParams = d.bodyParams
  inverseParams : c.inverseParams = d.inverseParams
  identity : c.identity = d.identity

/-- Two plans that do the same but for erased notes, as long as what they render ends alike. -/
inductive PlansAlike : Plan → Plan → Prop
  | give (value : Value) : PlansAlike (.give value) (.give value)
  | fail {e e' : TemplateError} (h : n.error e = n.error e') : PlansAlike (.fail e) (.fail e')
  | render (part : Part) (context : Value) {data data' : Table Value} (h : FramesAlike n data data')
    (blockParams : List Value) {next next' : Except TemplateError String → Plan}
    (hnext : ∀ x y, EndsAlike n Eq x y → PlansAlike (next x) (next' y)) :
    PlansAlike (.render part context ⟨data, blockParams⟩ next)
      (.render part context ⟨data', blockParams⟩ next')
  | log (level : LogLevel) (message : String) {next next' : Plan} (h : PlansAlike next next') :
    PlansAlike (.log level message next) (.log level message next')
  | handOver (params : List Value) : PlansAlike (.handOver params) (.handOver params)

/-- The helper plans the same for a call and for that call with notes erased. -/
def Helper.Heedless (h : Helper) : Prop := ∀ c d, CallsAlike n c d → PlansAlike n (h c) (h d)

variable {n}

theorem PlansAlike.renderThen (part : Part) (context : Value) {data data' : Table Value}
    (h : FramesAlike n data data') (blockParams : List Value) {next next' : String → Plan}
    (hnext : ∀ text, PlansAlike n (next text) (next' text)) :
    PlansAlike n (.renderThen part context ⟨data, blockParams⟩ next)
      (.renderThen part context ⟨data', blockParams⟩ next') := by
  refine .render part context h blockParams fun x y hxy => ?_
  cases hxy with
  | ok htext => exact htext ▸ hnext _
  | error herror => exact .fail herror

/-- Sections that are exchanged in both plans leave them alike. -/
theorem PlansAlike.swapped {p q : Plan} (h : PlansAlike n p q) :
    PlansAlike n p.swapped q.swapped := by
  induction h with
  | give value => exact .give value
  | fail h => exact .fail h
  | render part context h blockParams _ ih => exact .render part.other context h blockParams ih
  | log level message _ ih => exact .log level message ih
  | handOver params => exact .handOver params

/-! ## Built-in helpers -/

section Builtins

variable {c d : HelperCall} (h : CallsAlike n c d)

include h

/-- Named arguments are the same in both calls. -/
theorem CallsAlike.hashValue (name : String) : c.hashValue name = d.hashValue name := by
  unfold HelperCall.hashValue
  rw [h.hash]

/-- So is the number of arguments, which decides whether there is an error. -/
theorem CallsAlike.withOnlyParam {next next' : Value → Plan}
    (hnext : ∀ v, PlansAlike n (next v) (next' v)) :
    PlansAlike n (withOnlyParam c next) (withOnlyParam d next') := by
  unfold Render.withOnlyParam
  rw [h.params, h.name]
  split
  · exact hnext _
  · exact .fail rfl

theorem CallsAlike.renderHere (part : Part) :
    PlansAlike n (renderHere c part) (renderHere d part) := by
  unfold Render.renderHere
  rw [h.this]
  exact .renderThen part d.this (.refl n _) _ fun text => .give _

/-- The path of a context is known where the paths of arguments are. -/
theorem CallsAlike.contextPath : contextPath? d = if n.ids then none else contextPath? c := by
  have hknown := h.ids
  cases hids : n.ids with
  | true =>
    rw [hids] at hknown
    unfold contextPath? HelperCall.firstId?
    rw [hknown]
    rfl
  | false =>
    have hreads : n.Reads "contextPath" := fun h => absurd (hids ▸ h) Bool.false_ne_true
    rw [hids] at hknown
    unfold contextPath? HelperCall.firstId?
    rw [hknown, h.data _ hreads]
    rfl

end Builtins

/-- This helper looks at its argument and the named one for zeros. -/
theorem ifHelper_heedless : ifHelper.Heedless n := by
  intro c d h
  refine h.withOnlyParam fun condition => ?_
  unfold conditionFails
  rw [h.hashValue]
  exact h.renderHere _

theorem unlessHelper_heedless : unlessHelper.Heedless n :=
  fun c d h => (ifHelper_heedless c d h).swapped

/-- It tells the nested program the path of its argument, if that is tracked, in a frame of its
own. -/
theorem withHelper_heedless : withHelper.Heedless n := by
  intro c d h
  refine h.withOnlyParam fun context => ?_
  split
  · exact h.renderHere .inverse
  · exact .renderThen .body context (.path n h.contextPath [] id) [context] fun _ => .give _

/-- By induction on the items: a frame differs in its path only, which is not there if paths are
erased. -/
theorem eachItem_alike {path path' : Option String} (hpath : path' = if n.ids then none else path) :
    ∀ (items : List Value) (index : Nat) (text : String),
      PlansAlike n (eachItem path index text items) (eachItem path' index text items)
  | [], _, _ => .give _
  | item :: rest, index, text =>
    .renderThen .body item (.path n hpath _ _) _ fun t =>
      eachItem_alike hpath rest (index + 1) (text ++ t)

theorem eachEntry_alike {path path' : Option String}
    (hpath : path' = if n.ids then none else path) :
    ∀ (entries : List (String × Value)) (index : Nat) (text : String),
      PlansAlike n (eachEntry path index text entries) (eachEntry path' index text entries)
  | [], _, _ => .give _
  | (_, item) :: rest, index, text =>
    .renderThen .body item (.path n hpath _ _) _ fun t =>
      eachEntry_alike hpath rest (index + 1) (text ++ t)

/-- Items and entries are rendered one after the other. -/
theorem eachHelper_heedless : eachHelper.Heedless n := by
  intro c d h
  unfold eachHelper
  rw [h.params]
  split
  · exact .fail rfl
  · exact eachItem_alike h.contextPath _ 0 ""
  · exact eachEntry_alike h.contextPath _ 0 ""
  · exact h.renderHere .inverse

/-- It looks a name up in a value, and neither is erased. -/
theorem lookupHelper_heedless : lookupHelper.Heedless n := by
  intro c d h
  unfold lookupHelper
  rw [h.params]
  split
  · split
    · exact .give _
    · exact .give _
  · exact .give _
  · exact .give _

/-- What is logged, and at which level, is found in its arguments and in data other than the
path. -/
theorem logHelper_heedless : logHelper.Heedless n := by
  intro c d h
  have hlevel : c.data "level" = d.data "level" := h.data _ fun _ => by decide
  unfold logHelper
  rw [h.hashValue, hlevel, h.params]
  exact .log _ _ (.give _)

/-- The built-in helpers heed no notes. -/
theorem Builtin.heedless : ∀ b : Builtin, b.helper.Heedless n
  | .ifHelper => ifHelper_heedless
  | .unlessHelper => unlessHelper_heedless
  | .withHelper => withHelper_heedless
  | .eachHelper => eachHelper_heedless
  | .lookupHelper => lookupHelper_heedless
  | .logHelper => logHelper_heedless

end Stencil.Render
