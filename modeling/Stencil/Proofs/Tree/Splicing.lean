import Stencil.Tree.Edit

/-!
# Edits that keep or splice

An edit takes every node apart and rebuilds it. Where the rules for expressions keep what was
rebuilt, so does the edit of an expression (`Expr.edit_of_keeps`); and an edit that has rules for
content and comments only changes the bodies of programs and nothing else: in every body, at any
depth, a content or a comment makes room for the statements that its rule gives
(`Program.edit_splicing`). Without any rule this is the identity.
-/

set_option autoImplicit false

namespace Stencil.Tree

variable {ℓ : Type}

/-! ## Bodies -/

mutual

/-- The program with every body in it changed, those further inside first; all else stays. -/
def Program.mapBodies (f : List (Statement ℓ) → List (Statement ℓ)) : Program ℓ → Program ℓ
  | ⟨body, blockParams, chained, mark⟩ =>
    ⟨f (Statement.mapBodiesAll f body), blockParams, chained, mark⟩

/-- The statement with the bodies in it changed. -/
def Statement.mapBodies (f : List (Statement ℓ) → List (Statement ℓ)) : Statement ℓ → Statement ℓ
  | .block b => .block (Block.mapBodies f b)
  | .partialBlock p => .partialBlock (PartialBlock.mapBodies f p)
  | .mustache m => .mustache m
  | .partialCall p => .partialCall p
  | .content c => .content c
  | .comment c => .comment c

/-- The block with the bodies in it changed. -/
def Block.mapBodies (f : List (Statement ℓ) → List (Statement ℓ)) : Block ℓ → Block ℓ
  | ⟨expr, program, inverse, openStrip, inverseStrip, closeStrip, close, mark⟩ =>
    ⟨expr, Program.mapBodiesOpt f program, Program.mapBodiesOpt f inverse, openStrip, inverseStrip,
      closeStrip, close, mark⟩

/-- The partial block with the bodies in it changed. -/
def PartialBlock.mapBodies (f : List (Statement ℓ) → List (Statement ℓ)) :
    PartialBlock ℓ → PartialBlock ℓ
  | ⟨name, params, hash, program, openStrip, closeStrip, mark⟩ =>
    ⟨name, params, hash, Program.mapBodies f program, openStrip, closeStrip, mark⟩

/-- The statements with the bodies in them changed. -/
def Statement.mapBodiesAll (f : List (Statement ℓ) → List (Statement ℓ)) :
    List (Statement ℓ) → List (Statement ℓ)
  | [] => []
  | s :: rest => s.mapBodies f :: Statement.mapBodiesAll f rest

/-- The program, if there is one, with the bodies in it changed. -/
def Program.mapBodiesOpt (f : List (Statement ℓ) → List (Statement ℓ)) :
    Option (Program ℓ) → Option (Program ℓ)
  | none => none
  | some p => some (Program.mapBodies f p)

end

/-- What takes the place of a statement where content and comments are replaced. -/
def Statement.splice (content : Content ℓ → List (Statement ℓ))
    (comment : Comment ℓ → List (Statement ℓ)) :
    Statement ℓ → List (Statement ℓ)
  | .content c => content c
  | .comment c => comment c
  | s => [s]

/-- The body with every content and comment replaced, in place. -/
def spliceAll (content : Content ℓ → List (Statement ℓ)) (comment : Comment ℓ → List (Statement ℓ))
    (body : List (Statement ℓ)) : List (Statement ℓ) :=
  body.flatMap (Statement.splice content comment)

/-! ## Expressions -/

/-- The rules for expressions and their parts keep what was rebuilt. -/
structure Edit.KeepsExprs (r : Edit ℓ) : Prop where
  path : ∀ p, r.path p = p
  call : ∀ source c, r.call source c = .call c
  expr : ∀ source e, r.expr source e = e
  hash : ∀ source h, r.hash source h = h

variable {r : Edit ℓ}

mutual

theorem Expr.edit_of_keeps (keeps : r.KeepsExprs) : ∀ e : Expr ℓ, e.edit r = e
  | .call c => by rw [Expr.edit, keeps.expr, keeps.call, Call.edit_of_keeps keeps c]
  | .path p => by rw [Expr.edit, keeps.expr, keeps.path]
  | .string _ _ _ | .number _ _ _ | .boolean _ _ _ | .undefined _ | .null _ => by
    rw [Expr.edit, keeps.expr]

theorem Call.edit_of_keeps (keeps : r.KeepsExprs) : ∀ c : Call ℓ, c.edit r = c
  | ⟨path, params, hash, parenthesised, mark⟩ => by
    rw [Call.edit, keeps.path, Expr.edits_of_keeps keeps params, Hash.editOpt_of_keeps keeps hash]

theorem Expr.edits_of_keeps (keeps : r.KeepsExprs) : ∀ es : List (Expr ℓ), Expr.edits r es = es
  | [] => rfl
  | e :: es => by rw [Expr.edits, Expr.edit_of_keeps keeps e, Expr.edits_of_keeps keeps es]

theorem Hash.editOpt_of_keeps (keeps : r.KeepsExprs) : ∀ h : Option (Hash ℓ), Hash.editOpt r h = h
  | none => rfl
  | some h => by rw [Hash.editOpt, Hash.edit_of_keeps keeps h]

theorem Hash.edit_of_keeps (keeps : r.KeepsExprs) : ∀ h : Hash ℓ, h.edit r = h
  | ⟨pairs, mark⟩ => by rw [Hash.edit, keeps.hash, Pair.edits_of_keeps keeps pairs]

theorem Pair.edits_of_keeps (keeps : r.KeepsExprs) : ∀ ps : List (Pair ℓ), Pair.edits r ps = ps
  | [] => rfl
  | p :: ps => by rw [Pair.edits, Pair.edit_of_keeps keeps p, Pair.edits_of_keeps keeps ps]

theorem Pair.edit_of_keeps (keeps : r.KeepsExprs) : ∀ p : Pair ℓ, p.edit r = p
  | ⟨key, value, mark⟩ => by rw [Pair.edit, Expr.edit_of_keeps keeps value]

end

theorem Mustache.edit_of_keeps (keeps : r.KeepsExprs) (m : Mustache ℓ) : m.edit r = m := by
  rw [Mustache.edit, Expr.edit_of_keeps keeps]

theorem PartialCall.edit_of_keeps (keeps : r.KeepsExprs) (p : PartialCall ℓ) : p.edit r = p := by
  rw [PartialCall.edit, Expr.edit_of_keeps keeps, Expr.edits_of_keeps keeps,
    Hash.editOpt_of_keeps keeps]

/-! ## Statements -/

/-- The edit that has rules for content and comments only. -/
def splicing (content : Content ℓ → List (Statement ℓ)) (comment : Comment ℓ → List (Statement ℓ)) :
    Edit ℓ where
  content := content
  comment := comment

theorem keepsExprs_splicing (content : Content ℓ → List (Statement ℓ))
    (comment : Comment ℓ → List (Statement ℓ)) :
    (splicing content comment).KeepsExprs :=
  ⟨fun _ => rfl, fun _ _ => rfl, fun _ _ => rfl, fun _ _ => rfl⟩

section Splicing

variable (content : Content ℓ → List (Statement ℓ)) (comment : Comment ℓ → List (Statement ℓ))

mutual

theorem Program.edit_splicing : ∀ p : Program ℓ,
    p.edit (splicing content comment) = p.mapBodies (spliceAll content comment)
  | ⟨body, blockParams, chained, mark⟩ => by
    rw [Program.edit, Program.mapBodies, Statement.edits_splicing body]

theorem Statement.edits_splicing : ∀ body : List (Statement ℓ),
    Statement.edits (splicing content comment) body =
      spliceAll content comment (Statement.mapBodiesAll (spliceAll content comment) body)
  | [] => rfl
  | s :: rest => by
    rw [Statement.edits, Statement.mapBodiesAll, spliceAll, List.flatMap_cons,
      Statement.edit_splicing s, Statement.edits_splicing rest, spliceAll]

/-- What becomes of a statement is its splice, once the bodies in it are spliced. -/
theorem Statement.edit_splicing : ∀ s : Statement ℓ,
    s.edit (splicing content comment) =
      Statement.splice content comment (s.mapBodies (spliceAll content comment))
  | .mustache m => by
    rw [Statement.edit, Mustache.edit_of_keeps (keepsExprs_splicing content comment)]
    rfl
  | .block b => by
    rw [Statement.edit, Block.edit_splicing b]
    rfl
  | .partialCall p => by
    rw [Statement.edit, PartialCall.edit_of_keeps (keepsExprs_splicing content comment)]
    rfl
  | .partialBlock p => by
    rw [Statement.edit, PartialBlock.edit_splicing p]
    rfl
  | .content c => rfl
  | .comment c => rfl

theorem Block.edit_splicing : ∀ b : Block ℓ,
    Block.edit (splicing content comment) b = Block.mapBodies (spliceAll content comment) b
  | ⟨expr, program, inverse, openStrip, inverseStrip, closeStrip, close, mark⟩ => by
    rw [Block.edit, Block.mapBodies, Expr.edit_of_keeps (keepsExprs_splicing content comment),
      Program.editSection_splicing program, Program.editSection_splicing inverse]
    -- The path of the closing tag goes through the rule for paths as well.
    exact congrArg (Block.mk expr _ _ openStrip inverseStrip closeStrip · mark) Option.map_id'

theorem PartialBlock.edit_splicing : ∀ p : PartialBlock ℓ,
    PartialBlock.edit (splicing content comment) p = PartialBlock.mapBodies
      (spliceAll content comment) p
  | ⟨name, params, hash, program, openStrip, closeStrip, mark⟩ => by
    have keeps := keepsExprs_splicing content comment
    rw [PartialBlock.edit, PartialBlock.mapBodies, Expr.edit_of_keeps keeps,
      Expr.edits_of_keeps keeps, Hash.editOpt_of_keeps keeps, Program.edit_splicing program]

theorem Program.editSection_splicing : ∀ p : Option (Program ℓ),
    Program.editSection (splicing content comment) p = Program.mapBodiesOpt
      (spliceAll content comment) p
  | none => rfl
  | some p => by
    rw [Program.editSection, Program.mapBodiesOpt, Program.edit_splicing p]
    rfl

end

end Splicing

/-! ## Trees -/

mutual

/-- Where no body changes, nothing does. -/
theorem Program.mapBodies_of_keeps {f : List (Statement ℓ) → List (Statement ℓ)}
    (h : ∀ body, f body = body) :
    ∀ p : Program ℓ, p.mapBodies f = p
  | ⟨body, blockParams, chained, mark⟩ => by
    rw [Program.mapBodies, h, Statement.mapBodiesAll_of_keeps h body]

theorem Statement.mapBodies_of_keeps {f : List (Statement ℓ) → List (Statement ℓ)}
    (h : ∀ body, f body = body) :
    ∀ s : Statement ℓ, s.mapBodies f = s
  | .block b => by rw [Statement.mapBodies, Block.mapBodies_of_keeps h b]
  | .partialBlock p => by rw [Statement.mapBodies, PartialBlock.mapBodies_of_keeps h p]
  | .mustache _ | .partialCall _ | .content _ | .comment _ => rfl

theorem Block.mapBodies_of_keeps {f : List (Statement ℓ) → List (Statement ℓ)}
    (h : ∀ body, f body = body) :
    ∀ b : Block ℓ, b.mapBodies f = b
  | ⟨expr, program, inverse, openStrip, inverseStrip, closeStrip, close, mark⟩ => by
    rw [Block.mapBodies, Program.mapBodiesOpt_of_keeps h program,
      Program.mapBodiesOpt_of_keeps h inverse]

theorem PartialBlock.mapBodies_of_keeps {f : List (Statement ℓ) → List (Statement ℓ)}
    (h : ∀ body, f body = body) :
    ∀ p : PartialBlock ℓ, p.mapBodies f = p
  | ⟨name, params, hash, program, openStrip, closeStrip, mark⟩ => by
    rw [PartialBlock.mapBodies, Program.mapBodies_of_keeps h program]

theorem Statement.mapBodiesAll_of_keeps {f : List (Statement ℓ) → List (Statement ℓ)}
    (h : ∀ body, f body = body) :
    ∀ body : List (Statement ℓ), Statement.mapBodiesAll f body = body
  | [] => rfl
  | s :: rest => by
    rw [Statement.mapBodiesAll, Statement.mapBodies_of_keeps h s,
      Statement.mapBodiesAll_of_keeps h rest]

theorem Program.mapBodiesOpt_of_keeps {f : List (Statement ℓ) → List (Statement ℓ)}
    (h : ∀ body, f body = body) :
    ∀ p : Option (Program ℓ), Program.mapBodiesOpt f p = p
  | none => rfl
  | some p => by rw [Program.mapBodiesOpt, Program.mapBodies_of_keeps h p]

end

theorem spliceAll_singletons (body : List (Statement ℓ)) :
    spliceAll (fun c => [.content c]) (fun c => [.comment c]) body = body := by
  have hsingle : Statement.splice (ℓ := ℓ) (fun c => [.content c])
      (fun c => [.comment c]) = fun s => [s] := by
    funext s
    cases s <;> rfl
  rw [spliceAll, hsingle, List.flatMap_singleton']

/-- An edit without rules gives every tree back as it is. An edit that has rules for content and
comments only gives the tree in which, in every body at any depth, each content and each comment is
replaced in its place by the statements that its rule gives for it, be they many or none, and all
else is as it was. The rules may tell nodes apart by their marks. -/
theorem Program.edit_splices (p : Program ℓ) :
    p.edit {} = p ∧
      ∀ (content : Content ℓ → List (Statement ℓ)) (comment : Comment ℓ → List (Statement ℓ)),
        p.edit { content := content, comment := comment } =
          p.mapBodies fun body => body.flatMap (Statement.splice content comment) := by
  refine ⟨?_, fun content comment => Program.edit_splicing content comment p⟩
  -- To have no rules is to splice each content and each comment by itself.
  have hspliced :
      p.edit {} = p.mapBodies (spliceAll (fun c => [.content c]) fun c => [.comment c]) :=
    Program.edit_splicing _ _ p
  rw [hspliced, Program.mapBodies_of_keeps spliceAll_singletons]

end Stencil.Tree
