import Mathlib.Data.List.Forall2
import Stencil.Proofs.Layout.Blocks

/-!
# Settling a list of statements

`settle` goes through a list of statements from left to right. A tag cuts the end of the content
before it when the loop comes by the tag, and the start of the content after it one step later: in
between, the cuts are owed. The invariant of the loop (`settle_fits`) says that what is done fits
the row of the statements passed, and that the cuts owed come to the cut at the end of that row.
-/

set_option autoImplicit false

namespace Stencil.Tree

variable {ℓ : Type}

/-! ## One step -/

/-- Which tags of a statement stand alone. -/
structure Alone where
  inline : Bool
  opens : Bool
  closes : Bool

/-- Which tags of a statement with the given demand stand alone between lines that are blank, or
not, before and after it. -/
def Demand.alone (ignoreStandalone before after : Bool) (d : Demand) : Alone where
  inline := !ignoreStandalone && d.inline && before && after
  opens := !ignoreStandalone && d.opensAlone && before
  closes := !ignoreStandalone && d.closesAlone && after

/-- The bodies of a statement next to its opening and its closing tag cut for the lines of these. -/
def Alone.cutBodies (a : Alone) (s : Statement ℓ) : Statement ℓ :=
  applyIf a.closes Statement.cutBeforeClosing (applyIf a.opens Statement.cutAfterOpening s)

/-- What stands before a statement, the nearest first, cut for it. -/
def Alone.cutBefore (a : Alone) (d : Demand) (done : List (Statement ℓ)) : List (Statement ℓ) :=
  applyIf a.opens (cutNearest false)
    (applyIf a.inline (cutNearest false) (applyIf d.before (cutNearest true) done))

/-- The cuts owed to what stands after a statement. -/
def Alone.owed (a : Alone) (d : Demand) : List Bool :=
  (if d.after then [true] else []) ++ (if a.inline then [false] else []) ++
    (if a.closes then [false] else [])

/-- The cuts come to one. -/
def Cut.joinAll (lead : Cut) (cuts : List Bool) : Cut :=
  cuts.foldl (fun c demanded => c.join (Cut.ofDemand demanded)) lead

/-- The step of the loop at a statement that is no content. A partial may get an indentation. -/
theorem settle_tag {s : Statement ℓ} {d : Demand} (h : s.demand? = some d)
    (ignoreStandalone root : Bool) (done : List (Statement ℓ)) (cuts : List Bool)
    (rest : List (Statement ℓ)) :
    ∃ (shifted : Bool) (indent : String),
      settle ignoreStandalone root done cuts (s :: rest) =
        let a := d.alone ignoreStandalone (blankBefore root done) (blankAfter root rest)
        settle ignoreStandalone root
          (a.cutBodies (applyIf shifted (Statement.indented indent) s) :: a.cutBefore d done)
          (a.owed d) rest := by
  have hstep : ∀ c : Content ℓ, s = .content c → False := by
    intro c hc
    rw [hc] at h
    cases h
  let nearest := applyIf d.before (cutNearest true) done
  let inline := (d.alone ignoreStandalone (blankBefore root done) (blankAfter root rest)).inline
  refine ⟨inline && cutsPadding nearest, paddingBefore nearest, ?_⟩
  rw [settle, h]
  · rfl
  · exact hstep

theorem settle_content (ignoreStandalone root : Bool) (done : List (Statement ℓ))
    (cuts : List Bool) (c : Content ℓ) (rest : List (Statement ℓ)) :
    settle ignoreStandalone root done cuts (.content c :: rest) =
      settle ignoreStandalone root (.content (c.cutStarts cuts) :: done) [] rest :=
  rfl

theorem joinAll_owed (a : Alone) (d : Demand) :
    Cut.joinAll .nothing (a.owed d) = Cut.of d.after (a.inline || a.closes) := by
  rw [Alone.owed]
  cases d.after <;> cases a.inline <;> cases a.closes <;> rfl

/-- The cuts that are owed to content make one cut at its start. -/
theorem Content.IsCut.cutStarts {c : Content ℓ} {lead trail : Cut} {text : List Char}
    (h : c.IsCut lead trail text) (cuts : List Bool) :
    (c.cutStarts cuts).IsCut (lead.joinAll cuts) trail text := by
  induction cuts generalizing c lead with
  | nil => exact h
  | cons demanded cuts ih => exact ih (h.cutStart demanded)

/-- The cuts that a tag makes before it make one cut at the end of what is done. -/
theorem Row.Fits.cutBefore {lead : Cut} {row : Row} {done : List (Statement ℓ)}
    (h : Row.Fits lead row .nothing (Statement.slotsOf false done.reverse)) (a : Alone)
    (d : Demand) :
    Row.Fits lead row (Cut.of d.before (a.inline || a.opens))
      (Statement.slotsOf false (a.cutBefore d done).reverse) := by
  have hcut : ∀ {trail : Cut} {done : List (Statement ℓ)} (condition demanded : Bool),
      Row.Fits lead row trail (Statement.slotsOf false done.reverse) →
      Row.Fits lead row (trail.join (Cut.when condition demanded))
        (Statement.slotsOf false (applyIf condition (cutNearest demanded) done).reverse) := by
    intro trail done condition demanded h
    cases condition with
    | false =>
      rw [Cut.join_when_false]
      exact h
    | true =>
      rw [applyIf, if_pos rfl, slotsOf_cutNearest]
      exact h.cutBack demanded
  have htrail : ((Cut.nothing.join (Cut.when d.before true)).join (Cut.when a.inline false)).join
      (Cut.when a.opens false) = Cut.of d.before (a.inline || a.opens) := by
    cases d.before <;> cases a.inline <;> cases a.opens <;> rfl
  exact htrail ▸ hcut a.opens false (hcut a.inline false (hcut d.before true h))

theorem looks_cutBefore (a : Alone) (d : Demand) (done : List (Statement ℓ)) :
    Statement.looks (a.cutBefore d done) = Statement.looks done := by
  have hcut : ∀ (condition demanded : Bool) (done : List (Statement ℓ)),
      Statement.looks (applyIf condition (cutNearest demanded) done) = Statement.looks done := by
    intro condition demanded done
    cases condition with
    | false => rfl
    | true => exact looks_cutNearest demanded done
  rw [Alone.cutBefore, hcut, hcut, hcut]

/-! ## The loop -/

/-- The statement `s'` is `s` with its bodies laid out; what the loop makes of it fits the row. -/
inductive Statement.IsLaid (ignoreStandalone : Bool) : Statement ℓ → Statement ℓ → Prop where
  | content {c : Content ℓ} : c.IsFresh → IsLaid ignoreStandalone (.content c) (.content c)
  | tag {s s' : Statement ℓ} {d : Demand} : s.look = none → s'.look = none → s'.demand? = some d →
      (∀ (before after shifted : Bool) (indent : String) (lead trail : Cut),
        let a := d.alone ignoreStandalone before after
        let t := a.cutBodies (applyIf shifted (Statement.indented indent) s')
        let row := s.row ignoreStandalone none before after
        t.look = none ∧ Row.Fits lead row trail (t.slots false) ∧
          row.firstCut trail = Cut.of d.before (a.inline || a.opens) ∧
          row.lastCut lead = Cut.of d.after (a.inline || a.closes)) →
      IsLaid ignoreStandalone s s'

theorem looks_of_areLaid {ignoreStandalone : Bool} {body body' : List (Statement ℓ)}
    (h : List.Forall₂ (Statement.IsLaid ignoreStandalone) body body') :
    Statement.looks body' = Statement.looks body := by
  induction h with
  | nil => rfl
  | cons hs _ ih =>
    have hlook : ∀ {s s' : Statement ℓ}, s.IsLaid ignoreStandalone s' → s'.look = s.look := by
      intro s s' hs
      cases hs with
      | content _ => rfl
      | tag hs hs' _ _ => rw [hs, hs']
    rw [Statement.looks, Statement.looks, List.map_cons, List.map_cons, hlook hs]
    exact congrArg _ ih

/-- The invariant of the loop, from any point to its end. -/
theorem settle_fits {ignoreStandalone root : Bool} {body body' : List (Statement ℓ)}
    (h : List.Forall₂ (Statement.IsLaid ignoreStandalone) body body')
    {before done : List (Statement ℓ)} {cuts : List Bool} {row : Row}
    (hlooks : Statement.looks done = Statement.looks before)
    (hfits : Row.Fits .nothing row .nothing (Statement.slotsOf false done.reverse))
    (howed : row.lastCut .nothing = Cut.joinAll .nothing cuts) :
    Statement.looks (settle ignoreStandalone root done cuts body') =
        Statement.looks (before.reverse ++ body) ∧
      Row.Fits .nothing (row ++ Statement.rows ignoreStandalone root none before [] body) .nothing
        (Statement.slotsOf false (settle ignoreStandalone root done cuts body')) := by
  -- induction on what is left: `row` is the row of what is done, and `cuts` come to the cut that
  -- its last tag makes after it
  induction h generalizing before done cuts row with
  | nil =>
    refine ⟨?_, ?_⟩
    · rw [settle, List.append_nil, looks_reverse, looks_reverse, hlooks]
    · rw [Statement.rows, List.append_nil]
      exact hfits
  | @cons s s' rest rest' hs hrest ih =>
    have hassoc : before.reverse ++ s :: rest = (s :: before).reverse ++ rest := by
      rw [List.reverse_cons, List.append_assoc]
      rfl
    rw [hassoc, Statement.rows, ← List.append_assoc]
    cases hs with
    | @content c hfresh =>
      -- content pays the cuts that are owed to it
      have hcut := hfresh.isCut.cutStarts cuts
      rw [settle_content]
      refine ih ?_ ?_ ?_
      · rw [Statement.looks, Statement.looks, List.map_cons, List.map_cons, Statement.look,
          hcut.written]
        exact congrArg _ hlooks
      · rw [List.reverse_cons, slotsOf_append]
        refine hfits.append ?_
        rw [howed]
        exact .text hcut (.nil _ _)
      · rw [Row.lastCut_append]
        rfl
    | @tag _ _ d hlook hlook' hdemand hlaid =>
      -- a tag cuts what is done and owes new cuts; the lines around it are read as they were
      -- written
      obtain ⟨shifted, indent, hstep⟩ :=
        settle_tag hdemand ignoreStandalone root done cuts rest'
      have hbefore : blankBefore root done = blankBefore root before := blankBefore_congr hlooks
      have hafter : blankAfter root rest' = blankAfter root rest :=
        blankAfter_congr (looks_of_areLaid hrest)
      rw [hstep, hbefore, hafter, List.append_nil rest]
      obtain ⟨htag, hrow, hfirst, hlast⟩ := hlaid (blankBefore root before)
        (blankAfter root rest) shifted indent (row.lastCut .nothing) .nothing
      refine ih ?_ ?_ ?_
      · rw [Statement.looks, Statement.looks, List.map_cons, List.map_cons, hlook, htag]
        exact congrArg _ ((looks_cutBefore _ _ _).trans hlooks)
      · rw [List.reverse_cons, slotsOf_append, Statement.slotsOf, Statement.slotsOf,
          List.append_nil]
        refine Row.Fits.append ?_ hrow
        exact hfirst ▸ hfits.cutBefore _ d
      · rw [Row.lastCut_append, joinAll_owed]
        exact hlast

end Stencil.Tree
