import Stencil.Tree.Expr

/-!
# Programs and statements

A template is a program, a list of statements; the bodies of blocks are
programs again. Content keeps the text it was read with beside the text it
renders as, so that later decisions about a line read the line as it was
written.
-/

set_option autoImplicit false

namespace Stencil.Tree

/-- The strip markers of a tag: before it and after it. -/
structure Strip where
  before : Bool := false
  after : Bool := false
deriving DecidableEq

/-- A tag that shows a value. -/
structure Mustache (ℓ : Type) where
  expr : Expr ℓ
  escaped : Bool
  strip : Strip := {}
  mark : ℓ

/-- A tag that is replaced by another template. `indent` is the indentation of
its output. -/
structure PartialCall (ℓ : Type) where
  name : Expr ℓ
  params : List (Expr ℓ) := []
  hash : Option (Hash ℓ) := none
  indent : String := ""
  strip : Strip := {}
  mark : ℓ

/-- Text outside of tags: what it renders as, what was written, and whether
something was removed at its end (`leftStripped`) or start (`rightStripped`). -/
structure Content (ℓ : Type) where
  value : String
  written : String
  leftStripped : Bool := false
  rightStripped : Bool := false
  mark : ℓ
deriving DecidableEq

/-- A comment without its delimiters. -/
structure Comment (ℓ : Type) where
  value : String
  strip : Strip := {}
  mark : ℓ
deriving DecidableEq

/-- Content that renders as it was written. -/
def Content.ofText {ℓ : Type} (text : String) (mark : ℓ) : Content ℓ :=
  { value := text, written := text, mark }

mutual

/-- A list of statements with the block parameters they may use. A program is
chained when it stands for an `else` that goes on with a call: it then holds one
block. -/
structure Program (ℓ : Type) where
  body : List (Statement ℓ)
  blockParams : List String
  chained : Bool
  mark : ℓ

/-- A statement of a template. -/
inductive Statement (ℓ : Type) where
  | mustache (m : Mustache ℓ)
  | block (b : Block ℓ)
  | partialCall (p : PartialCall ℓ)
  | partialBlock (p : PartialBlock ℓ)
  | content (c : Content ℓ)
  | comment (c : Comment ℓ)

/-- A tag with a body, an alternative body, or both. `close` is the path that
the closing tag names; a chained block has none. -/
structure Block (ℓ : Type) where
  expr : Expr ℓ
  program : Option (Program ℓ)
  inverse : Option (Program ℓ)
  openStrip : Strip
  inverseStrip : Strip
  closeStrip : Strip
  close : Option (Path ℓ)
  mark : ℓ

/-- A partial with a body to fall back on. -/
structure PartialBlock (ℓ : Type) where
  name : Expr ℓ
  params : List (Expr ℓ)
  hash : Option (Hash ℓ)
  program : Program ℓ
  openStrip : Strip
  closeStrip : Strip
  mark : ℓ

end

variable {ℓ μ : Type}

/-- Whether a program has no statements. -/
def Program.isEmpty (p : Program ℓ) : Bool := p.body.isEmpty

namespace Statement

/-- The mark of a statement. -/
def mark : Statement ℓ → ℓ
  | .mustache m => m.mark
  | .block b => b.mark
  | .partialCall p => p.mark
  | .partialBlock p => p.mark
  | .content c => c.mark
  | .comment c => c.mark

/-- The name of a kind of statement in the interchange form of trees. -/
def typeName : Statement ℓ → String
  | .mustache _ => "MustacheStatement"
  | .block _ => "BlockStatement"
  | .partialCall _ => "PartialStatement"
  | .partialBlock _ => "PartialBlockStatement"
  | .content _ => "ContentStatement"
  | .comment _ => "CommentStatement"

/-- The content of a content statement. -/
def content? : Statement ℓ → Option (Content ℓ)
  | .content c => some c
  | _ => none

/-- The expression a statement is about: that of a mustache or block, the name
of a partial. -/
def subject? : Statement ℓ → Option (Expr ℓ)
  | .mustache m => some m.expr
  | .block b => some b.expr
  | .partialCall p => some p.name
  | .partialBlock p => some p.name
  | .content _ => none
  | .comment _ => none

end Statement

/-! ## Marks -/

/-- The content with its mark mapped. -/
def Content.mapMark (f : ℓ → μ) (c : Content ℓ) : Content μ :=
  { value := c.value, written := c.written, leftStripped := c.leftStripped,
    rightStripped := c.rightStripped, mark := f c.mark }

/-- The comment with its mark mapped. -/
def Comment.mapMark (f : ℓ → μ) (c : Comment ℓ) : Comment μ :=
  { value := c.value, strip := c.strip, mark := f c.mark }

/-- The mustache with every mark mapped. -/
def Mustache.mapMark (f : ℓ → μ) (m : Mustache ℓ) : Mustache μ :=
  { expr := m.expr.mapMark f, escaped := m.escaped, strip := m.strip, mark := f m.mark }

/-- The partial with every mark mapped. -/
def PartialCall.mapMark (f : ℓ → μ) (p : PartialCall ℓ) : PartialCall μ :=
  { name := p.name.mapMark f, params := Expr.mapMarks f p.params,
    hash := Hash.mapMarkOpt f p.hash, indent := p.indent, strip := p.strip, mark := f p.mark }

mutual

/-- The program with every mark mapped. -/
def Program.mapMark (f : ℓ → μ) : Program ℓ → Program μ
  | ⟨body, blockParams, chained, mark⟩ =>
    ⟨Statement.mapMarks f body, blockParams, chained, f mark⟩

/-- The statement with every mark mapped. -/
def Statement.mapMark (f : ℓ → μ) : Statement ℓ → Statement μ
  | .mustache m => .mustache (m.mapMark f)
  | .block b => .block (b.mapMark f)
  | .partialCall p => .partialCall (p.mapMark f)
  | .partialBlock p => .partialBlock (p.mapMark f)
  | .content c => .content (c.mapMark f)
  | .comment c => .comment (c.mapMark f)

/-- The block with every mark mapped. -/
def Block.mapMark (f : ℓ → μ) : Block ℓ → Block μ
  | ⟨expr, program, inverse, openStrip, inverseStrip, closeStrip, close, mark⟩ =>
    ⟨expr.mapMark f, Program.mapMarkOpt f program, Program.mapMarkOpt f inverse, openStrip,
      inverseStrip, closeStrip, close.map (Path.mapMark f), f mark⟩

/-- The partial block with every mark mapped. -/
def PartialBlock.mapMark (f : ℓ → μ) : PartialBlock ℓ → PartialBlock μ
  | ⟨name, params, hash, program, openStrip, closeStrip, mark⟩ =>
    ⟨name.mapMark f, Expr.mapMarks f params, Hash.mapMarkOpt f hash, program.mapMark f,
      openStrip, closeStrip, f mark⟩

/-- The statements with every mark mapped. -/
def Statement.mapMarks (f : ℓ → μ) : List (Statement ℓ) → List (Statement μ)
  | [] => []
  | s :: ss => s.mapMark f :: Statement.mapMarks f ss

/-- The program, if there is one, with every mark mapped. -/
def Program.mapMarkOpt (f : ℓ → μ) : Option (Program ℓ) → Option (Program μ)
  | none => none
  | some p => some (p.mapMark f)

end

end Stencil.Tree
