import Stencil.Proofs.Syntax.Origins
import Stencil.Proofs.Syntax.PlainText

/-!
# Templates of one tag

A template that is one tag around a path has the path for its tree, and no other: the tree shows
what is read as a path after the opening braces (`template?_of_path`, `path_of_template?`). A head
with parameters after it is read as a call (`template?_of_parts`). Locating the tree and laying it
out change nothing else about it (`Template.read_of_read?`, `Template.read?_of_read`).
-/

set_option autoImplicit false

namespace Stencil.Tree

variable {ℓ μ : Type}

/-- Laid out or not, a body starts with the same tag if it starts with one that shows a value. -/
theorem Statement.eq_cons_of_bares {body rest : List (Statement ℓ)} {m : Mustache ℓ}
    (h : Statement.bares body = .mustache m :: rest) :
    ∃ more, body = .mustache m :: more ∧ Statement.bares more = rest := by
  cases body with
  | nil => cases h
  | cons s more =>
    obtain ⟨hs, hmore⟩ := List.cons.inj h
    cases s with
    | mustache n =>
      exact ⟨more, congrArg (fun m => Statement.mustache m :: more) (Statement.mustache.inj hs),
        hmore⟩
    | _ => cases hs

theorem Program.bares_layout (ignoreStandalone root : Bool) (p : Program ℓ) :
    Statement.bares (p.layout ignoreStandalone root).body = Statement.bares p.body := by
  have hbare := congrArg Program.body (p.bare_layout ignoreStandalone root)
  obtain ⟨body, blockParams, chained, mark⟩ := p
  exact hbare

/-- A body with other marks starts with a tag that shows a value if the body does. -/
theorem Program.body_mapMark_eq {f : ℓ → μ} {p : Program ℓ} {m : Mustache μ}
    {rest : List (Statement μ)} (h : (p.mapMark f).body = .mustache m :: rest) :
    ∃ n more, p.body = .mustache n :: more ∧ n.mapMark f = m ∧
      Statement.mapMarks f more = rest := by
  obtain ⟨body, blockParams, chained, mark⟩ := p
  have hbody : Statement.mapMarks f body = .mustache m :: rest := h
  cases body with
  | nil => cases hbody
  | cons s more =>
    obtain ⟨hs, hmore⟩ := List.cons.inj hbody
    cases s with
    | mustache n => exact ⟨n, more, rfl, Statement.mustache.inj hs, hmore⟩
    | _ => cases hs

theorem Expr.eq_path_of_mapMark {f : ℓ → μ} {e : Expr ℓ} {p : Path μ} (h : e.mapMark f = .path p) :
    ∃ q, e = .path q ∧ q.mapMark f = p := by
  cases e with
  | path q => exact ⟨q, rfl, Expr.path.inj h⟩
  | call c => cases c; cases h
  | _ => cases h

end Stencil.Tree

namespace Stencil.Syntax

open Stencil.Text
open Stencil.Tree

theorem level_statement (n : Nat) {c : Cursor} (h : c.kind = .openMustache) :
    ∃ below, (Level.ofNat n).statement c = mustache (paramOver below) c := by
  have shows : ∀ below, (Level.over below).statement c = mustache (paramOver below) c := by
    intro below
    show statementOver below c = _
    unfold statementOver
    rw [h]
  cases n with
  | zero => exact ⟨none, shows none⟩
  | succ n => exact ⟨some (Level.ofNat n), shows _⟩

section Many

variable {α : Type} {more : Cursor → Bool} {item : Reader α} {c : Cursor}

/-- Where nothing more is to be read, nothing is. -/
theorem Cursor.readWhile_of_not (h : more c = false) (fuel : Nat) :
    Cursor.readWhile more item fuel c = .ok ([], c) := by
  cases fuel with
  | zero => rfl
  | succ fuel => rw [Cursor.readWhile, h, if_neg Bool.false_ne_true]

theorem Cursor.many_of_not (h : more c = false) : c.many more item = .ok ([], c) :=
  Cursor.readWhile_of_not h c.rest.length

end Many

/-- A tag around a call is read if the closing braces follow the call. -/
theorem mustache_of_parts {param : Reader (Expr Span)} {c c' : Cursor}
    (hopen : c.kind = .openMustache) {call : CallParts}
    (hparts : callParts param c.advance = .ok (call, c')) (hclose : c'.kind = .close) :
    mustache param c =
      .ok (.mustache ⟨call.expr, c.here.text.getLast? != some '&', stripOf c.here c'.here,
        c.here.to c'.here⟩, c'.advance) := by
  have hkind : (c.here.kind == .openUnescaped) = false := by
    rw [show c.here.kind = .openMustache from hopen]
    rfl
  rw [mustache, hparts]
  dsimp only
  rw [hkind, if_neg Bool.false_ne_true, Cursor.expect, if_pos hclose]
  rfl

theorem simpleExpr_of_path {c c' : Cursor} (hname : c.kind = .name) {p : Path Span}
    (hpath : path false c = .ok (p, c')) : simpleExpr c = .ok (.path p, c') := by
  simp only [simpleExpr]
  rw [hname]
  dsimp only
  rw [hpath]

/-- A head and its parameters are all of a call that the closing braces follow. -/
theorem callParts_of_params (param : Reader (Expr Span)) {c c' c'' : Cursor} {head : Expr Span}
    (hhead : simpleExpr c = .ok (head, c')) {params : List (Expr Span)}
    (hparams : c'.many atParam param = .ok (params, c'')) (hclose : c''.kind = .close) :
    ∃ span, callParts param c = .ok (⟨head, params, none, span⟩, c'') := by
  -- The closing braces are no named argument.
  have hpair : atPair c'' = false := by rw [atPair, hclose]; rfl
  have hhash : hash? param c'' = .ok (none, c'') := by
    rw [hash?, Cursor.many_of_not hpair]
    rfl
  rw [callParts, hhead]
  dsimp only
  rw [hparams]
  dsimp only
  rw [hhash]
  exact ⟨_, rfl⟩

theorem atParam_of_close {c : Cursor} (h : c.kind = .close) : atParam c = false := by
  rw [atParam, h]
  rfl

/-- A tag around a single path shows what is read as a path in it. -/
theorem path_of_mustache {param : Reader (Expr Span)} {c c' : Cursor}
    (hname : c.advance.kind = .name) {m : Mustache Span}
    (h : mustache param c = .ok (.mustache m, c')) {p : Path Span} (hexpr : m.expr = .path p) :
    ∃ c₁, path false c.advance = .ok (p, c₁) := by
  rw [mustache] at h
  split at h
  · cases h
  rename_i call c₂ hparts
  split at h
  · cases h
  cases h
  rw [callParts] at hparts
  split at hparts
  · cases hparts
  rename_i head c₃ hsimple
  split at hparts
  · cases hparts
  split at hparts
  · cases hparts
  cases hparts
  -- The head was read where a name stands, so as a path.
  simp only [simpleExpr] at hsimple
  rw [hname] at hsimple
  dsimp only at hsimple
  split at hsimple
  · cases hsimple
  rename_i hpath
  cases hsimple
  -- A head with arguments would be a call.
  unfold CallParts.expr at hexpr
  split at hexpr
  · cases hexpr
    exact ⟨_, hpath⟩
  · cases hexpr

section Template

variable {tokens : List Token} (hopen : (Cursor.ofTokens tokens).kind = .openMustache)
  (hname : (Cursor.ofTokens tokens).advance.kind = .name) {p : Path Span}

include hopen

/-- A template of a tag around a head and its parameters, and of content after it, is read. -/
theorem template?_of_parts {c c' : Cursor} {head : Expr Span}
    (hhead : simpleExpr (Cursor.ofTokens tokens).advance = .ok (head, c))
    {params : List (Expr Span)}
    (hparams : ∀ below, c.many atParam (paramOver below) = .ok (params, c')) {close eof : Token}
    {ts : List Token} (hclose : close.kind = .close) (hkinds : ∀ t ∈ ts, t.kind = .content)
    (heof : eof.kind = .eof) (htokens : c'.tokens = close :: (ts ++ [eof]))
    (hlength : ts.length < (Cursor.ofTokens tokens).rest.length) :
    ∃ m span, template? tokens = .ok ⟨.mustache m :: contentStatements ts, [], false,
      ⟨0, eof.stop⟩⟩ ∧
      m.expr = CallParts.expr ⟨head, params, none, span⟩ ∧
        m.strip = stripOf (Cursor.ofTokens tokens).here close := by
  obtain ⟨rfl, hrest⟩ :=
    List.cons.inj (show c'.here :: c'.rest = close :: (ts ++ [eof]) from htokens)
  obtain ⟨below, hlevel⟩ := level_statement maxNesting hopen
  obtain ⟨span, hparts⟩ := callParts_of_params (paramOver below) hhead (hparams below) hclose
  have hmustache := mustache_of_parts hopen hparts hclose
  have hstart : atProgramEnd (Cursor.ofTokens tokens) = false := by rw [atProgramEnd, hopen]
  exact ⟨_, span, template?_of_statement hstart (hlevel.trans hmustache)
    (Cursor.tokens_advance_of_rest hrest)
    hlength hkinds heof, rfl, rfl⟩

include hname

theorem exists_rest_length : ∃ n, (Cursor.ofTokens tokens).rest.length = n + 1 := by
  cases hrest : (Cursor.ofTokens tokens).rest with
  | nil =>
    rw [Cursor.advance, hrest, hopen] at hname
    cases hname
  | cons t rest => exact ⟨rest.length, rfl⟩

/-- A template of a tag around a path, and of content after it, is read. -/
theorem template?_of_path {c : Cursor}
    (hpath : path false (Cursor.ofTokens tokens).advance = .ok (p, c)) {close eof : Token}
    {ts : List Token} (hclose : close.kind = .close) (hkinds : ∀ t ∈ ts, t.kind = .content)
    (heof : eof.kind = .eof) (htokens : c.tokens = close :: (ts ++ [eof]))
    (hlength : ts.length < (Cursor.ofTokens tokens).rest.length) :
    ∃ m, template? tokens = .ok ⟨.mustache m :: contentStatements ts, [], false, ⟨0, eof.stop⟩⟩ ∧
      m.expr = .path p ∧ m.strip = stripOf (Cursor.ofTokens tokens).here close := by
  have hhere : c.kind = .close := (congrArg Token.kind (List.cons.inj htokens).1).trans hclose
  obtain ⟨m, span, htree, hexpr, hstrip⟩ :=
    template?_of_parts hopen (simpleExpr_of_path hname hpath)
    (fun _ => Cursor.many_of_not (atParam_of_close hhere)) hclose hkinds heof htokens hlength
  exact ⟨m, htree, hexpr, hstrip⟩

/-- A template that starts with a tag around a single path shows what is read as a path in it. -/
theorem path_of_template? {tree : Program Span} (h : template? tokens = .ok tree)
    {m : Mustache Span} {more : List (Statement Span)} (hbody : tree.body = .mustache m :: more)
    (hexpr : m.expr = .path p) :
    ∃ c, path false (Cursor.ofTokens tokens).advance = .ok (p, c) := by
  obtain ⟨below, hlevel⟩ := level_statement maxNesting hopen
  obtain ⟨n, hn⟩ := exists_rest_length hopen hname
  have hstart : atProgramEnd (Cursor.ofTokens tokens) = false := by rw [atProgramEnd, hopen]
  rw [template?, program, Cursor.many, hn, Cursor.readWhile, hstart, Bool.not_false, if_pos rfl,
    hlevel] at h
  cases hmustache : mustache (paramOver below) (Cursor.ofTokens tokens) with
  | error f => rw [hmustache] at h; cases h
  | ok r =>
    obtain ⟨s, c⟩ := r
    rw [hmustache] at h
    dsimp only at h
    cases hmore : Cursor.readWhile (fun c => !atProgramEnd c)
      (Level.ofNat maxNesting).statement n c with
    | error f => rw [hmore] at h; cases h
    | ok r =>
      obtain ⟨rest, c'⟩ := r
      rw [hmore] at h
      dsimp only at h
      -- The first statement is the tag, whatever the rest was read from.
      have hstatement : s = .mustache m := by
        split at h
        · cases h
          exact (List.cons.inj hbody).1
        · split at h <;> cases h
        · cases h
        · cases h
        · cases h
      rw [hstatement] at hmustache
      exact path_of_mustache hname hmustache hexpr

end Template

end Stencil.Syntax

namespace Stencil.Template

open Stencil.Syntax (read?)
open Stencil.Text (Span LineIndex)
open Stencil.Tree

variable {options : ReadOptions} {source : String}

/-- Reading is reading with spans, locating them and laying out the tree. -/
theorem read_eq : read options source =
    match read? source.toList with
    | .error f => .error (f.locate (LineIndex.ofChars source.toList) options.sourceName)
    | .ok tree =>
      .ok ((tree.mapMark (locate options source)).layout options.ignoreStandalone true) := by
  rw [read, readAsWritten]
  cases read? source.toList <;> rfl

/-- The only tag of a template shows the path that was read with its span. -/
theorem read_of_read? {tree : Program Span} (h : read? source.toList = .ok tree) {m : Mustache Span}
    (hbody : tree.body = [.mustache m]) {p : Path Span} (hexpr : m.expr = .path p) :
    ∃ located n, read options source = .ok located ∧ located.body = [.mustache n] ∧
      n.expr = .path (p.mapMark (locate options source)) := by
  refine ⟨_, m.mapMark (locate options source), by rw [read_eq, h], ?_, ?_⟩
  · have hbares : Statement.bares
      ((tree.mapMark (locate options source)).layout options.ignoreStandalone true).body =
        [.mustache (m.mapMark (locate options source))] := by
      obtain ⟨body, blockParams, chained, mark⟩ := tree
      rw [Program.bares_layout]
      subst hbody
      rfl
    obtain ⟨more, hmore, hnone⟩ := Statement.eq_cons_of_bares hbares
    rw [Statement.bares_eq_map] at hnone
    rw [hmore, List.map_eq_nil_iff.1 hnone]
  · show m.expr.mapMark _ = _
    rw [hexpr]
    rfl

/-- A tree that starts with a tag was read as one that starts with it. -/
theorem read?_of_read_cons {located : Tree.Located} (h : read options source = .ok located)
    {n : Mustache (Option Text.Location)} {rest : List (Statement (Option Text.Location))}
    (hbody : located.body = .mustache n :: rest) {p : Path (Option Text.Location)}
    (hexpr : n.expr = .path p) :
    ∃ tree m more q, read? source.toList = .ok tree ∧ tree.body = .mustache m :: more ∧
      more.length = rest.length ∧
      m.expr = .path q ∧ q.mapMark (locate options source) = p := by
  rw [read_eq] at h
  cases hread : read? source.toList with
  | error f => rw [hread] at h; cases h
  | ok tree =>
    rw [hread] at h
    cases h
    have hbares :=
      Program.bares_layout options.ignoreStandalone true (tree.mapMark (locate options source))
    rw [hbody] at hbares
    obtain ⟨laid, hlaid, hrest⟩ := Statement.eq_cons_of_bares hbares.symm
    obtain ⟨m, more, hm, rfl, rfl⟩ := Program.body_mapMark_eq hlaid
    obtain ⟨q, hq, rfl⟩ := Expr.eq_path_of_mapMark hexpr
    refine ⟨tree, m, more, q, rfl, hm, ?_, hq, rfl⟩
    have hlength := congrArg List.length hrest
    rw [Statement.bares_eq_map, Statement.bares_eq_map, List.length_map, List.length_map] at hlength
    rw [← hlength, mapMarks_eq_map, List.length_map]

theorem read?_of_read {located : Tree.Located} (h : read options source = .ok located)
    {n : Mustache (Option Text.Location)} (hbody : located.body = [.mustache n])
    {p : Path (Option Text.Location)} (hexpr : n.expr = .path p) :
    ∃ tree m q, read? source.toList = .ok tree ∧ tree.body = [.mustache m] ∧ m.expr = .path q ∧
      q.mapMark (locate options source) = p := by
  obtain ⟨tree, m, more, q, hread, hm, hlength, hq, hmarks⟩ := read?_of_read_cons h hbody hexpr
  rw [List.eq_nil_of_length_eq_zero hlength] at hm
  exact ⟨tree, m, q, hread, hm, hq, hmarks⟩

/-- A tree of statements without markers is located and nothing else. -/
theorem read_of_unmarked {tree : Program Span} (h : read? source.toList = .ok tree)
    (hbody : ∀ s ∈ tree.body, s.Unmarked) :
    read options source = .ok (tree.mapMark (locate options source)) := by
  rw [read_eq, h]
  dsimp only
  rw [Program.layout_of_unmarked]
  obtain ⟨body, blockParams, chained, mark⟩ := tree
  exact Statement.unmarked_mapMarks hbody

/-- A tag without strip markers and the text after it are located and nothing else. -/
theorem read_of_mustache (options : ReadOptions) {cs text : List Char} {m : Mustache Span}
    {mark root : Span}
    (h : read? cs = .ok ⟨.mustache m :: Statement.ofText text mark, [], false, root⟩)
    (hstrip : m.strip = {}) :
    ∃ located mark', read options (String.ofList cs) = .ok located ∧
      located.body =
        .mustache (m.mapMark (locate options (String.ofList cs))) ::
          Statement.ofText text mark' := by
  rw [← String.toList_ofList (l := cs)] at h
  have hunmarked : ∀ s ∈ Statement.mustache m :: Statement.ofText text mark, s.Unmarked :=
    List.forall_mem_cons.2 ⟨hstrip, Statement.unmarked_ofText text mark⟩
  refine ⟨_, locate options (String.ofList cs) mark, read_of_unmarked h hunmarked, ?_⟩
  exact congrArg (Statement.mustache _ :: ·) (Statement.mapMarks_ofText _ text mark)

end Stencil.Template
