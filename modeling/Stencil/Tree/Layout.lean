import Stencil.Text.Blank
import Stencil.Tree.Program

/-!
# White space around tags

`Program.layout` applies the strip markers of tags and takes away the lines of
tags that stand alone. A tag stands alone when nothing but blanks surrounds it on
its line; a partial or comment does so as a whole, a block with its opening tag,
its `else` and its closing tag separately.

What surrounds a tag is read from the text as it was written, so no removal
changes a later decision. A strip marker removes all blanks on its side. A tag
alone removes the padding before it, and the padding after it with one line
break; it removes nothing on a side where something was removed before.

Bodies are laid out from the inside: first the bodies of the blocks in a list of
statements, then the list itself, from left to right.
-/

set_option autoImplicit false

namespace Stencil.Tree

open Stencil.Text

variable {ℓ : Type}

/-! ## Cutting content -/

/-- A text without the padding at its start and one line break after it. -/
def dropLineBreak (cs : List Char) : List Char :=
  let rest := cs.dropWhile isPad
  let rest :=
    match rest with
    | '\r' :: r => r
    | r => r
  match rest with
  | '\n' :: r => r
  | r => r

/-- The content without the blanks at its start: all of them, or those up to the
end of the line. The second cut is refused after a cut that removed
something. -/
def Content.cutStart (all : Bool) (c : Content ℓ) : Content ℓ :=
  if !all && c.rightStripped then c
  else
    let value := c.value.toList
    let kept := if all then trimStart value else dropLineBreak value
    { c with value := String.ofList kept, rightStripped := kept.length != value.length }

/-- The content without the blanks at its end: all of them, or the padding. The
second cut is refused after a cut that removed something. -/
def Content.cutEnd (all : Bool) (c : Content ℓ) : Content ℓ :=
  if !all && c.leftStripped then c
  else
    let value := c.value.toList
    let kept := if all then trimEnd value else dropEndWhile isPad value
    { c with value := String.ofList kept, leftStripped := kept.length != value.length }

/-- The statements with the start of the first one cut, if that is content. -/
def cutFirst (all : Bool) : List (Statement ℓ) → List (Statement ℓ)
  | .content c :: rest => .content (c.cutStart all) :: rest
  | statements => statements

/-- The statements, last one first, with the end of the last one cut, if that is
content. -/
def cutNearest (all : Bool) : List (Statement ℓ) → List (Statement ℓ)
  | .content c :: rest => .content (c.cutEnd all) :: rest
  | statements => statements

/-- The statements with the end of the last one cut, if that is content. -/
def cutLast (all : Bool) (body : List (Statement ℓ)) : List (Statement ℓ) :=
  (cutNearest all body.reverse).reverse

/-- Whether cutting the padding off the nearest statement removes something. -/
def cutsPadding : List (Statement ℓ) → Bool
  | .content c :: _ => !c.leftStripped && (c.cutEnd false).leftStripped
  | _ => false

/-! ## Blank surroundings -/

/-- Whether the statements before a place, the nearest one first, end their line
with blanks only. At the start of the root program nothing precedes the line. -/
def blankBefore (root : Bool) : List (Statement ℓ) → Bool
  | [] => root
  | .content c :: more =>
    let tail := trailingBlanks c.written.toList
    tail.contains '\n' ||
      (more.isEmpty && root && tail.length == c.written.toList.length)
  | _ => false

/-- Whether the statements after a place begin with blanks only up to the end of
the line. At the end of the root program nothing follows the line. -/
def blankAfter (root : Bool) : List (Statement ℓ) → Bool
  | [] => root
  | .content c :: more =>
    let head := leadingBlanks c.written.toList
    head.contains '\n' ||
      (more.isEmpty && root && head.length == c.written.toList.length)
  | _ => false

/-- Whether a body begins with blanks only up to the end of the line. -/
def Program.opensBlank (p : Program ℓ) : Bool := blankAfter false p.body

/-- Whether a body ends its last line with blanks only. -/
def Program.closesBlank (p : Program ℓ) : Bool := blankBefore false p.body.reverse

/-- The padding at the end of the statement before a place. -/
def paddingBefore : List (Statement ℓ) → String
  | .content c :: _ => String.ofList (takeEndWhile isPad c.written.toList)
  | _ => ""

/-! ## Sections of a block -/

/-- The first section after an `else`: the program itself, or that of the block
it holds when it is chained. -/
def Program.firstSection? (p : Program ℓ) : Option (Program ℓ) :=
  if p.chained then
    match p.body with
    | .block b :: _ => b.program
    | _ => none
  else some p

/-- The program with the body of its first section changed. -/
def Program.mapFirstSection (f : List (Statement ℓ) → List (Statement ℓ)) (p : Program ℓ) :
    Program ℓ :=
  if p.chained then
    match p.body with
    | .block b :: rest =>
      let program := b.program.map fun q => { q with body := f q.body }
      { p with body := .block { b with program } :: rest }
    | _ => p
  else { p with body := f p.body }

mutual

/-- The program with the body of the section changed that the walk through the
last blocks of chained programs ends in. -/
def Program.mapLastSection (f : List (Statement ℓ) → List (Statement ℓ)) :
    Program ℓ → Program ℓ
  | ⟨body, blockParams, chained, mark⟩ =>
    if chained then ⟨mapLastStatement f body, blockParams, chained, mark⟩
    else ⟨f body, blockParams, chained, mark⟩

/-- The walk goes on in the last statement, if that is a block. -/
def mapLastStatement (f : List (Statement ℓ) → List (Statement ℓ)) :
    List (Statement ℓ) → List (Statement ℓ)
  | [] => []
  | [s] => [Statement.mapLastSection f s]
  | s :: rest => s :: mapLastStatement f rest

/-- The walk goes on in a block. -/
def Statement.mapLastSection (f : List (Statement ℓ) → List (Statement ℓ)) :
    Statement ℓ → Statement ℓ
  | .block b => .block (Block.mapLastSection f b)
  | s => s

/-- The walk goes on in the main program of a block. -/
def Block.mapLastSection (f : List (Statement ℓ) → List (Statement ℓ)) : Block ℓ → Block ℓ
  | ⟨expr, program, inverse, openStrip, inverseStrip, closeStrip, close, mark⟩ =>
    ⟨expr, Program.mapLastSectionOpt f program, inverse, openStrip, inverseStrip, closeStrip,
      close, mark⟩

/-- The walk ends where there is no program. -/
def Program.mapLastSectionOpt (f : List (Statement ℓ) → List (Statement ℓ)) :
    Option (Program ℓ) → Option (Program ℓ)
  | none => none
  | some p => some (Program.mapLastSection f p)

end

/-- The program with its body changed. -/
def Program.mapBody (f : List (Statement ℓ) → List (Statement ℓ)) (p : Program ℓ) : Program ℓ :=
  { p with body := f p.body }

/-- `f x` where the condition holds, else `x`. -/
def applyIf {α : Type} (condition : Bool) (f : α → α) (x : α) : α :=
  if condition then f x else x

/-- The only body of a block after the markers of the opening and the closing
tag. -/
def Block.stripOnly (b : Block ℓ) (p : Program ℓ) : Program ℓ :=
  applyIf b.closeStrip.before (Program.mapBody (cutLast true))
    (applyIf b.openStrip.after (Program.mapBody (cutFirst true)) p)

/-- A block whose markers have been applied to its own bodies, and whose `else`
has lost its line if it stands alone. -/
def Block.stripInside (ignoreStandalone : Bool) (b : Block ℓ) : Block ℓ :=
  match b.program, b.inverse with
  | some program, some inverse =>
    let alone := !ignoreStandalone && program.closesBlank &&
      (inverse.firstSection?.map Program.opensBlank).getD false
    let program := applyIf b.openStrip.after (Program.mapBody (cutFirst true)) program
    let program := applyIf b.inverseStrip.before (Program.mapBody (cutLast true)) program
    let inverse := applyIf b.inverseStrip.after (Program.mapFirstSection (cutFirst true)) inverse
    let inverse := applyIf b.closeStrip.before (Program.mapLastSection (cutLast true)) inverse
    let program := applyIf alone (Program.mapBody (cutLast false)) program
    let inverse := applyIf alone (Program.mapFirstSection (cutFirst false)) inverse
    { b with program := some program, inverse := some inverse }
  | some program, none => { b with program := some (b.stripOnly program) }
  | none, some inverse => { b with inverse := some (b.stripOnly inverse) }
  | none, none => b

/-- A partial block whose markers have been applied to its own body. -/
def PartialBlock.stripInside (p : PartialBlock ℓ) : PartialBlock ℓ :=
  let program := applyIf p.openStrip.after (Program.mapBody (cutFirst true)) p.program
  { p with program := applyIf p.closeStrip.before (Program.mapBody (cutLast true)) program }

/-! ## Statements in a row -/

/-- What a statement asks of its neighbours: the strip markers at its outer ends,
and which of its tags may stand alone as far as its own bodies go. -/
structure Demand where
  before : Bool := false
  after : Bool := false
  opensAlone : Bool := false
  closesAlone : Bool := false
  inline : Bool := false

/-- The demand of a statement. Content makes none. -/
def Statement.demand? : Statement ℓ → Option Demand
  | .mustache m => some { before := m.strip.before, after := m.strip.after }
  | .partialCall p => some { before := p.strip.before, after := p.strip.after, inline := true }
  | .comment c => some { before := c.strip.before, after := c.strip.after, inline := true }
  | .block b =>
    let ends : Demand := { before := b.openStrip.before, after := b.closeStrip.after }
    match b.program, b.inverse with
    | some program, some inverse =>
      let first := inverse.firstSection?.getD program
      some { ends with opensAlone := program.opensBlank, closesAlone := first.closesBlank }
    | some only, none | none, some only =>
      some { ends with opensAlone := only.opensBlank, closesAlone := only.closesBlank }
    | none, none => some ends
  | .partialBlock p =>
    some { before := p.openStrip.before, after := p.closeStrip.after
           opensAlone := p.program.opensBlank, closesAlone := p.program.closesBlank }
  | .content _ => none

/-- The statement with the start of the body after its opening tag cut to the end
of the line. -/
def Statement.cutAfterOpening : Statement ℓ → Statement ℓ
  | .block b =>
    match b.program with
    | some p => .block { b with program := some (p.mapBody (cutFirst false)) }
    | none => .block { b with inverse := b.inverse.map (Program.mapBody (cutFirst false)) }
  | .partialBlock p => .partialBlock { p with program := p.program.mapBody (cutFirst false) }
  | s => s

/-- The statement with the padding cut off the end of the body before its closing
tag, as the statements around it see that body. -/
def Statement.cutBeforeClosing : Statement ℓ → Statement ℓ
  | .block b =>
    match b.inverse with
    | some p => .block { b with inverse := some (p.mapBody (cutLast false)) }
    | none => .block { b with program := b.program.map (Program.mapBody (cutLast false)) }
  | .partialBlock p => .partialBlock { p with program := p.program.mapBody (cutLast false) }
  | s => s

/-- The statement with the given indentation, if it is a partial. -/
def Statement.indented (indent : String) : Statement ℓ → Statement ℓ
  | .partialCall p => .partialCall { p with indent }
  | s => s

/-- Cuts at the start of content, in order; `true` is a cut of all blanks. -/
def Content.cutStarts (cuts : List Bool) (c : Content ℓ) : Content ℓ :=
  cuts.foldl (fun c all => c.cutStart all) c

/-- Lays out statements from left to right. `done` holds those passed, the
nearest one first; `cuts` are owed to the next statement if it is content. -/
def settle (ignoreStandalone root : Bool) (done : List (Statement ℓ)) (cuts : List Bool) :
    List (Statement ℓ) → List (Statement ℓ)
  | [] => done.reverse
  | s :: rest =>
    match s.demand? with
    | none =>
      let s :=
        match s with
        | .content c => .content (c.cutStarts cuts)
        | s => s
      settle ignoreStandalone root (s :: done) [] rest
    | some d =>
      let before := blankBefore root done
      let after := blankAfter root rest
      let inline := !ignoreStandalone && d.inline && before && after
      let opens := !ignoreStandalone && d.opensAlone && before
      let closes := !ignoreStandalone && d.closesAlone && after
      let done := applyIf d.before (cutNearest true) done
      let s := applyIf (inline && cutsPadding done) (Statement.indented (paddingBefore done)) s
      let done := applyIf inline (cutNearest false) done
      let s := applyIf opens Statement.cutAfterOpening s
      let done := applyIf opens (cutNearest false) done
      let s := applyIf closes Statement.cutBeforeClosing s
      let cuts := (if d.after then [true] else []) ++ (if inline then [false] else []) ++
        (if closes then [false] else [])
      settle ignoreStandalone root (s :: done) cuts rest

/-! ## Trees -/

mutual

/-- The program with the white space around its tags settled. At the edges of the
root program the template itself begins and ends. -/
def Program.layout (ignoreStandalone root : Bool) : Program ℓ → Program ℓ
  | ⟨body, blockParams, chained, mark⟩ =>
    ⟨settle ignoreStandalone root [] [] (Statement.layouts ignoreStandalone body), blockParams,
      chained, mark⟩

/-- The statement with its bodies laid out. -/
def Statement.layout (ignoreStandalone : Bool) : Statement ℓ → Statement ℓ
  | .block b => .block (Block.layout ignoreStandalone b)
  | .partialBlock p => .partialBlock (PartialBlock.layout ignoreStandalone p)
  | .mustache m => .mustache m
  | .partialCall p => .partialCall p
  | .content c => .content c
  | .comment c => .comment c

/-- The block with its bodies laid out and its own markers applied to them. -/
def Block.layout (ignoreStandalone : Bool) : Block ℓ → Block ℓ
  | ⟨expr, program, inverse, openStrip, inverseStrip, closeStrip, close, mark⟩ =>
    Block.stripInside ignoreStandalone
      ⟨expr, Program.layoutOpt ignoreStandalone program,
        Program.layoutOpt ignoreStandalone inverse, openStrip, inverseStrip, closeStrip, close,
        mark⟩

/-- The partial block with its body laid out and its own markers applied to it. -/
def PartialBlock.layout (ignoreStandalone : Bool) : PartialBlock ℓ → PartialBlock ℓ
  | ⟨name, params, hash, program, openStrip, closeStrip, mark⟩ =>
    PartialBlock.stripInside
      ⟨name, params, hash, Program.layout ignoreStandalone false program, openStrip, closeStrip,
        mark⟩

/-- The statements with their bodies laid out, one by one. -/
def Statement.layouts (ignoreStandalone : Bool) : List (Statement ℓ) → List (Statement ℓ)
  | [] => []
  | s :: rest => s.layout ignoreStandalone :: Statement.layouts ignoreStandalone rest

/-- The program of a section, if there is one, laid out. -/
def Program.layoutOpt (ignoreStandalone : Bool) : Option (Program ℓ) → Option (Program ℓ)
  | none => none
  | some p => some (p.layout ignoreStandalone false)

end

end Stencil.Tree
