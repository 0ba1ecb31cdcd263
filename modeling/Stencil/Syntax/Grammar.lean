import Stencil.Syntax.Phrase
import Stencil.Syntax.Tokens
import Stencil.Tree.Program

/-!
# The grammar of templates

Statements, blocks and their sections, and whole templates. The tree is marked
with the spans that its nodes were read from.

Blocks, chained sections, partial blocks and parenthesised calls may nest
`maxNesting` deep together. The readers of one level are built over those of the
level below; the lowest level has none below it and refuses to nest. The number
of levels is the only recursion of the grammar besides the lists of statements,
parameters and segments.
-/

set_option autoImplicit false

namespace Stencil.Syntax

open Stencil.Text
open Stencil.Tree

/-- How deep blocks, chained sections, partial blocks and parenthesised calls may
nest together. -/
def maxNesting : Nat := 64

/-! ## Parts of blocks -/

/-- The opening tag of a block or of a chained section. -/
structure OpenTag where
  call : CallParts
  blockParams : List String
  strip : Strip
  span : Span

/-- The section after an `else`. A chained one is a program that holds one
block. -/
structure ElseSection where
  strip : Strip
  program : Program Span

/-- The strip markers of a tag between two delimiters. -/
def stripOf (opened closed : Token) : Strip := ⟨opened.stripsBefore, closed.stripsAfter⟩

/-- Whether the cursor stands on a token that ends a program. -/
def atProgramEnd (c : Cursor) : Bool :=
  match c.kind with
  | .eof | .openEnd | .loneElse | .openElse => true
  | _ => false

/-- Reads statements up to a closing tag, an `else` or the end. -/
def program (statement : Reader (Statement Span)) (blockParams : List String) :
    Reader (Program Span) := fun c =>
  let start := c.here.start
  match c.many (fun c => !atProgramEnd c) statement with
  | .error f => .error f
  | .ok (body, c) =>
    let stop := if body.isEmpty then start else c.prev.stop
    .ok (⟨body, blockParams, false, ⟨start, stop⟩⟩, c)

/-- Reads the rest of an opening tag. -/
def openTag (param : Reader (Expr Span)) (opened : Token) : Reader OpenTag := fun c =>
  match callParts param c with
  | .error f => .error f
  | .ok (call, c) =>
    match blockParams c with
    | .error f => .error f
    | .ok (names, c) =>
      match c.expect .close with
      | .error f => .error f
      | .ok (closed, c) => .ok (⟨call, names, stripOf opened closed, opened.to closed⟩, c)

/-- Reads the closing tag of a block of the given name that was opened in the
given span: its path, its strip markers and its last token. -/
def closingTag (name : String) (opening : Span) :
    Reader (Path Span × Strip × Token) := fun c =>
  if c.kind = .eof then .error ⟨.unclosedBlock name, opening, []⟩
  else if c.kind ≠ .openEnd then .error (c.unexpected (some "a closing tag"))
  else
    let opened := c.here
    match simpleExpr c.advance with
    | .error f => .error f
    | .ok (closing, c) =>
      match c.expect .close with
      | .error f => .error f
      | .ok (closed, c) =>
        if closing.spelling = name then
          .ok ((closing.headPath, stripOf opened closed, closed), c)
        else
          .error ⟨.mismatchedBlock name closing.spelling, opened.to closed,
            [(opening, "block opened here")]⟩

mutual

/-- Gives the blocks of a chain the strip markers of the closing tag they
share. -/
def Program.closeChain (strip : Strip) : Program Span → Program Span
  | ⟨body, blockParams, chained, mark⟩ =>
    if chained then ⟨Statement.closeChain strip body, blockParams, chained, mark⟩
    else ⟨body, blockParams, chained, mark⟩

/-- The chain continues in the first statement. -/
def Statement.closeChain (strip : Strip) : List (Statement Span) → List (Statement Span)
  | .block b :: rest => .block (Block.closeChain strip b) :: rest
  | statements => statements

/-- The chain continues in the section after the `else`. -/
def Block.closeChain (strip : Strip) : Block Span → Block Span
  | ⟨expr, program, inverse, openStrip, inverseStrip, _, close, mark⟩ =>
    ⟨expr, program, Program.closeChainOpt strip inverse, openStrip, inverseStrip, strip, close,
      mark⟩

/-- The chain ends where there is no further section. -/
def Program.closeChainOpt (strip : Strip) : Option (Program Span) → Option (Program Span)
  | none => none
  | some p => some (Program.closeChain strip p)

end

/-! ## Plain statements -/

/-- The text of a comment without its delimiters and strip markers. -/
def commentText (text : List Char) : List Char :=
  let dropFront (pat cs : List Char) := if startsWith pat cs then cs.drop pat.length else cs
  let dropBack (pat cs : List Char) :=
    if endsWith pat cs then cs.take (cs.length - pat.length) else cs
  let body := dropFront ['-', '-'] (dropFront ['!'] (dropFront ['~'] (dropFront openBraces text)))
  dropBack ['-', '-'] (dropBack ['~'] (dropBack closeBraces body))

/-- The content statement of a token. -/
def contentOfToken (t : Token) : Content Span :=
  Content.ofText (String.ofList t.text) t.span

/-- Reads a tag that shows a value. -/
def mustache (param : Reader (Expr Span)) : Reader (Statement Span) := fun c =>
  let opened := c.here
  let unescaped := opened.kind == .openUnescaped
  match callParts param c.advance with
  | .error f => .error f
  | .ok (call, c) =>
    match c.expect (if unescaped then .closeUnescaped else .close) with
    | .error f => .error f
    | .ok (closed, c) =>
      .ok (.mustache { expr := call.expr
                       escaped := !unescaped && opened.text.getLast? != some '&'
                       strip := stripOf opened closed
                       mark := opened.to closed }, c)

/-- The name, the parameters and the named arguments of a partial. -/
structure PartialParts where
  name : Expr Span
  params : List (Expr Span)
  hash : Option (Hash Span)

/-- Reads the name and the arguments of a partial. -/
def partialParts (param : Reader (Expr Span)) : Reader PartialParts := fun c =>
  match param c with
  | .error f => .error f
  | .ok (name, c) =>
    let start := c.here.start
    match c.many atParam param with
    | .error f => .error f
    | .ok (params, c) =>
      if 1 < params.length then
        .error ⟨.tooManyPartialArguments params.length, ⟨start, c.prev.stop⟩, []⟩
      else
        match hash? param c with
        | .error f => .error f
        | .ok (hash, c) => .ok (⟨name, params, hash⟩, c)

/-- Reads a partial. -/
def partialCall (param : Reader (Expr Span)) : Reader (Statement Span) := fun c =>
  let opened := c.here
  match partialParts param c.advance with
  | .error f => .error f
  | .ok (parts, c) =>
    match c.expect .close with
    | .error f => .error f
    | .ok (closed, c) =>
      .ok (.partialCall { name := parts.name, params := parts.params, hash := parts.hash
                          strip := stripOf opened closed, mark := opened.to closed }, c)

/-- The name in the closing tag of a raw block: the text without the braces and
the slash. -/
def rawEndName (text : List Char) : List Char :=
  dropEnds (dropStarts text.length text)
where
  /-- Drops the opening braces and slash as often as they occur. -/
  dropStarts : Nat → List Char → List Char
    | 0, cs => cs
    | fuel + 1, cs =>
      if startsWith (rawBraces ++ ['/']) cs then dropStarts fuel (cs.drop 5) else cs
  /-- Drops the closing braces, four at a time, as often as they occur. -/
  dropEnds (cs : List Char) : List Char :=
    let braces := (takeEndWhile (· == '\x7d') cs).length
    cs.take (cs.length - braces / 4 * 4)

/-- Reads a raw block, whose body is one text. -/
def rawBlock (param : Reader (Expr Span)) : Reader (Statement Span) := fun c =>
  let opened := c.here
  match callParts param c.advance with
  | .error f => .error f
  | .ok (call, c) =>
    match c.expect .closeRaw with
    | .error f => .error f
    | .ok (closed, c) =>
      let (body, c) : List (Statement Span) × Cursor :=
        if c.kind = .content then ([.content (contentOfToken c.here)], c.advance) else ([], c)
      match c.expect .endRaw with
      | .error f => .error f
      | .ok (ending, c) =>
        let name := call.head.spelling
        let closeName := String.ofList (rawEndName ending.text)
        if closeName = name then
          .ok (.block { expr := call.expr
                        program := some ⟨body, [], false, ⟨closed.stop, ending.start⟩⟩
                        inverse := none
                        openStrip := {}, inverseStrip := {}, closeStrip := {}
                        close := some (Path.ofParts [closeName] ending.span)
                        mark := opened.to ending }, c)
        else
          .error ⟨.mismatchedBlock name closeName, ending.span,
            [(opened.to closed, "raw block opened here")]⟩

/-! ## Levels -/

/-- The readers of one level of nesting: of a parameter, of a statement, and of
the section after an `else`, if there is one. -/
structure Level where
  param : Reader (Expr Span)
  statement : Reader (Statement Span)
  otherwise : Reader (Option ElseSection)

/-- The fault of nesting past the limit, at the token that would open the
construct. -/
def tooDeep (opened : Token) : Fault := ⟨.nestingTooDeep maxNesting, opened.span, []⟩

/-- Reads a parameter: a path, a literal or a parenthesised call. -/
def paramOver (below : Option Level) : Reader (Expr Span) := fun c =>
  if c.kind = .openCall then
    match below with
    | none => .error (tooDeep c.here)
    | some level => parenthesised level.param c.here c.advance
  else simpleExpr c

/-- Reads a block whose opening delimiter was passed. An inverted block exchanges
its two sections. -/
def blockAfter (level : Level) (opened : Token) : Reader (Statement Span) := fun c =>
  match openTag level.param opened c with
  | .error f => .error f
  | .ok (opening, c) =>
    let name := opening.call.head.spelling
    match program level.statement opening.blockParams c with
    | .error f => .error f
    | .ok (main, c) =>
      match level.otherwise c with
      | .error f => .error f
      | .ok (section?, c) =>
        match closingTag name opening.span c with
        | .error f => .error f
        | .ok ((closePath, closeStrip, closed), c) =>
          let alternative := section?.map fun s => Program.closeChain closeStrip s.program
          let inverseStrip := (section?.map ElseSection.strip).getD {}
          let inverted := opened.kind == .openInverted
          .ok (.block { expr := opening.call.expr
                        program := if inverted then alternative else some main
                        inverse := if inverted then some main else alternative
                        openStrip := opening.strip
                        inverseStrip, closeStrip
                        close := some closePath
                        mark := opened.to closed }, c)

/-- Reads a partial block whose opening delimiter was passed. -/
def partialBlockAfter (level : Level) (opened : Token) : Reader (Statement Span) := fun c =>
  match partialParts level.param c with
  | .error f => .error f
  | .ok (parts, c) =>
    match c.expect .close with
    | .error f => .error f
    | .ok (closed, c) =>
      match program level.statement [] c with
      | .error f => .error f
      | .ok (body, c) =>
        if c.kind = .loneElse ∨ c.kind = .openElse then
          .error ⟨.unexpectedElse, c.here.span, []⟩
        else
          match closingTag parts.name.spelling (opened.to closed) c with
          | .error f => .error f
          | .ok ((_, closeStrip, ending), c) =>
            .ok (.partialBlock { name := parts.name, params := parts.params, hash := parts.hash
                                 program := body
                                 openStrip := stripOf opened closed
                                 closeStrip
                                 mark := opened.to ending }, c)

/-- Reads a statement. -/
def statementOver (below : Option Level) : Reader (Statement Span) := fun c =>
  let here := c.here
  match c.kind with
  | .content => .ok (.content (contentOfToken here), c.advance)
  | .comment =>
    .ok (.comment { value := String.ofList (commentText here.text), strip := stripOf here here,
                    mark := here.span }, c.advance)
  | .openMustache | .openUnescaped => mustache (paramOver below) c
  | .openBlock | .openInverted =>
    match below with
    | none => .error (tooDeep here)
    | some level => blockAfter level here c.advance
  | .openRaw => rawBlock (paramOver below) c
  | .openPartial => partialCall (paramOver below) c
  | .openPartialBlock =>
    match below with
    | none => .error (tooDeep here)
    | some level => partialBlockAfter level here c.advance
  | _ => .error (c.unexpected none)

/-- Reads a chained section whose opening delimiter was passed: a program that
holds one block, which ends where the section ends. -/
def chainAfter (level : Level) (opened : Token) : Reader ElseSection := fun c =>
  match openTag level.param opened c with
  | .error f => .error f
  | .ok (opening, c) =>
    match program level.statement opening.blockParams c with
    | .error f => .error f
    | .ok (main, c) =>
      match level.otherwise c with
      | .error f => .error f
      | .ok (section?, c) =>
        let mark : Span := ⟨opened.start, c.prev.stop⟩
        let block : Block Span :=
          { expr := opening.call.expr
            program := some main
            inverse := section?.map ElseSection.program
            openStrip := opening.strip
            inverseStrip := (section?.map ElseSection.strip).getD {}
            closeStrip := {}
            close := none
            mark }
        .ok (⟨opening.strip, ⟨[.block block], [], true, mark⟩⟩, c)

/-- Reads the section after an `else`, if there is one. -/
def otherwiseOver (below : Option Level) (statement : Reader (Statement Span)) :
    Reader (Option ElseSection) := fun c =>
  let here := c.here
  match c.kind with
  | .loneElse =>
    match program statement [] c.advance with
    | .error f => .error f
    | .ok (body, c) => .ok (some ⟨stripOf here here, body⟩, c)
  | .openElse =>
    match below with
    | none => .error (tooDeep here)
    | some level =>
      match chainAfter level here c.advance with
      | .error f => .error f
      | .ok (chained, c) => .ok (some chained, c)
  | _ => .ok (none, c)

/-- The readers of the level over another, or of the lowest level. -/
def Level.over (below : Option Level) : Level where
  param := paramOver below
  statement := statementOver below
  otherwise := otherwiseOver below (statementOver below)

/-- The readers of a level that may nest as many constructs as its number. -/
def Level.ofNat : Nat → Level
  | 0 => Level.over none
  | n + 1 => Level.over (some (Level.ofNat n))

/-! ## Templates -/

/-- The tree of a list of tokens. The root is marked with the whole template. -/
def template? (tokens : List Token) : Except Fault (Program Span) :=
  match program (Level.ofNat maxNesting).statement [] (Cursor.ofTokens tokens) with
  | .error f => .error f
  | .ok (root, c) =>
    match c.kind with
    | .eof => .ok { root with mark := ⟨0, c.here.stop⟩ }
    | .openEnd =>
      match simpleExpr c.advance with
      | .error f => .error f
      | .ok (name, _) => .error ⟨.unexpectedClose name.spelling, c.here.span, []⟩
    | .loneElse | .openElse => .error ⟨.unexpectedElse, c.here.span, []⟩
    | _ => .error (c.unexpected none)

/-- The tree of a template as it is written, marked with spans. -/
def read? (text : List Char) : Except Fault (Program Span) :=
  match tokens? text with
  | .error f => .error f
  | .ok tokens => template? tokens

end Stencil.Syntax
