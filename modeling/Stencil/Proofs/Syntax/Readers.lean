import Stencil.Proofs.Syntax.Reading
import Stencil.Template

/-!
# Readers one after another

`Reader.bind` reads one thing after another, and a fault of the first is the fault of both. Every
reader of the grammar is put together from smaller ones in this way. The equations here say so,
reader by reader, so that what is proved of all readers is proved of each from its parts and not
from the matches it is written with.
-/

set_option autoImplicit false

namespace Stencil.Syntax

open Stencil.Text
open Stencil.Tree

/-- Reads one thing after another. -/
def Reader.bind {α β : Type} (first : Reader α) (next : α → Reader β) : Reader β := fun c =>
  match first c with
  | .error f => .error f
  | .ok (a, c) => next a c

/-- Reads something and makes another thing of it. -/
def Reader.map {α β : Type} (g : α → β) (first : Reader α) : Reader β := fun c =>
  match first c with
  | .error f => .error f
  | .ok (a, c) => .ok (g a, c)

variable {α : Type} (param : Reader (Expr Span)) (level : Level) (opened : Token) (c : Cursor)

namespace Cursor

/-- One round reads an item, and the others go on from where it ended. -/
theorem readWhile_succ (more : Cursor → Bool) (item : Reader α) (fuel : Nat) :
    readWhile more item (fuel + 1) c =
      if more c then (item.bind fun a => (readWhile more item fuel).map (a :: ·)) c else .ok
        ([], c) := by
  grind [readWhile, Reader.bind, Reader.map]

end Cursor

/-! ## Expressions -/

/-- One round reads a separator and a segment that adjoin what was read, or leaves what does not. -/
theorem moreSegments_succ (start fuel : Nat) (last : Token) (spelled : List Char) :
    moreSegments start (fuel + 1) last spelled c =
      if c.here.start ≠ last.stop then .ok (([], last), c)
      else if c.kind = .separator then
        if c.advance.kind ≠ .name ∨ c.advance.here.start ≠ c.here.stop then
          .error (invalidPath (spelled ++ c.here.text) start c.here.stop)
        else
          (moreSegments start fuel c.advance.here
            (spelled ++ c.here.text ++ c.advance.here.text)).map
            (fun more => (Segment.ofToken c.here.text.head? c.advance.here :: more.1, more.2))
              c.advance.advance
      else if c.kind = .name then .error (invalidPath (spelled ++ c.here.text) start c.here.stop)
      else .ok (([], last), c) := by
  grind [moreSegments, Reader.bind, Reader.map]

/-- The path of some segments from its first to its last token, if they are in order. -/
def pathOf (data : Bool) (first last : Token) (segments : List Segment) :
    Except Fault (Path Span) :=
  match foldSegments ⟨0, [], if data then ['@'] else []⟩
    (Segment.ofToken none first :: segments) with
  | .error spelled => .error (invalidPath spelled first.start last.stop)
  | .ok p =>
    .ok { data, depth := p.depth, parts := p.parts, spelling := String.ofList p.spelling,
          mark := first.to last }

/-- A value that was computed, if it was, and the same place. -/
def Reader.lift (value : Except Fault α) : Reader α := fun c => value.map (·, c)

/-- A path is its first segment and those after it, put together. -/
theorem path_eq (data : Bool) :
    path data c = ((Cursor.expect .name).bind fun first c =>
      ((moreSegments first.start c.rest.length first first.text).bind fun more =>
        .lift (pathOf data first more.2 more.1)) c) c := by
  grind [path, pathOf, Reader.bind, Reader.lift, Except.map]

/-- The kind of the token here decides what is read. -/
theorem simpleExpr_eq :
    simpleExpr c = match c.kind with
      | .name => (path false).map .path c
      | .at => (path true).map .path c.advance
      | .string =>
        let value := String.ofList (stringValue c.here.text)
        .ok (.string value value c.here.span, c.advance)
      | .number =>
        .ok (.number (numberValue c.here.text) (String.ofList c.here.text) c.here.span, c.advance)
      | .boolean =>
        let text := String.ofList c.here.text
        .ok (.boolean (text == "true") text c.here.span, c.advance)
      | .undefined => .ok (.undefined c.here.span, c.advance)
      | .null => .ok (.null c.here.span, c.advance)
      | _ => .error (c.unexpected (some "a helper name or path")) := by
  unfold simpleExpr
  cases c.kind <;> grind [Reader.bind, Reader.map]

/-- The name and the sign of a pair were seen before, so they are passed unread. -/
theorem pair_eq :
    pair param c = (param.bind fun value c' =>
      .ok (⟨String.ofList (segmentName c.here.text), value, c.here.to c'.prev⟩, c'))
        c.advance.advance := by
  grind [pair, Reader.bind]

/-- Named arguments, if there are any. -/
def hashOf (pairs : List (Pair Span)) (mark : Span) : Option (Hash Span) :=
  if pairs.isEmpty then none else some ⟨pairs, mark⟩

theorem hash?_eq :
    hash? param c = ((Cursor.many atPair (pair param)).bind fun pairs c' =>
      .ok (hashOf pairs ⟨c.here.start, c'.prev.stop⟩, c')) c := by
  grind [hash?, hashOf, Reader.bind]

/-- Head, arguments and pairs, one after the other. -/
theorem callParts_eq :
    callParts param c = (simpleExpr.bind fun head => (Cursor.many atParam param).bind fun params =>
      (hash? param).bind fun hash c' =>
        .ok (⟨head, params, hash, ⟨c.here.start, c'.prev.stop⟩⟩, c')) c := by
  grind [callParts, Reader.bind]

theorem parenthesised_eq :
    parenthesised param opened c =
      ((callParts param).bind fun parts => (Cursor.expect .closeCall).map fun closed =>
      .call ⟨parts.head.headPath, parts.params, parts.hash, some true, opened.to closed⟩) c := by
  grind [parenthesised, Reader.bind, Reader.map]

/-- Without an opening bar there are no block parameters. With one there is a name at least. -/
theorem blockParams_eq :
    blockParams c =
      if c.kind ≠ .openParams then .ok ([], c)
      else ((Cursor.many (fun c => c.kind == .name) blockParam).bind fun names c =>
        if names.isEmpty then .error (c.unexpected (some "a block parameter name"))
        else (Cursor.expect .closeParams).map (fun _ => names) c) c.advance := by
  grind [blockParams, Reader.bind, Reader.map]

/-- The number of arguments is judged when all are read. -/
theorem partialParts_eq :
    partialParts param c = (param.bind fun name c =>
      ((Cursor.many atParam param).bind fun params c' =>
        if 1 < params.length then
          .error ⟨.tooManyPartialArguments params.length, ⟨c.here.start, c'.prev.stop⟩, []⟩
        else (hash? param).map (fun hash => ⟨name, params, hash⟩) c') c) c := by
  grind [partialParts, Reader.bind, Reader.map]

/-! ## Parts of blocks -/

/-- A program without statements is marked where it would start. -/
theorem program_eq (statement : Reader (Statement Span)) (names : List String) :
    program statement names c =
      ((Cursor.many (fun c => !atProgramEnd c) statement).bind fun body c' =>
      .ok
        (⟨body, names, false, ⟨c.here.start, if body.isEmpty then c.here.start else c'.prev.stop⟩⟩,
          c')) c := by
  grind [program, Reader.bind]

theorem openTag_eq :
    openTag param opened c = ((callParts param).bind fun call => blockParams.bind fun names =>
      (Cursor.expect .close).map fun closed =>
        ⟨call, names, stripOf opened closed, opened.to closed⟩) c := by
  grind [openTag, Reader.bind, Reader.map]

/-- A closing tag is read to its end before its name is compared. -/
theorem closingTag_eq (name : String) (opening : Span) :
    closingTag name opening c =
      if c.kind = .eof then .error ⟨.unclosedBlock name, opening, []⟩
      else if c.kind ≠ .openEnd then .error (c.unexpected (some "a closing tag"))
      else (simpleExpr.bind fun closing => (Cursor.expect .close).bind fun closed c' =>
        if closing.spelling = name then .ok ((closing.headPath, stripOf c.here closed, closed), c')
        else .error ⟨.mismatchedBlock name closing.spelling, c.here.to closed,
          [(opening, "block opened here")]⟩) c.advance := by
  grind [closingTag, Reader.bind]

/-! ## Statements -/

/-- The mustache of a call between two delimiters. -/
def mustacheOf (call : CallParts) (opened closed : Token) : Mustache Span where
  expr := call.expr
  escaped := !(opened.kind == .openUnescaped) && opened.text.getLast? != some '&'
  strip := stripOf opened closed
  mark := opened.to closed

/-- Three braces are closed by three. -/
theorem mustache_eq :
    mustache param c = ((callParts param).bind fun call =>
      (Cursor.expect (if c.here.kind == .openUnescaped then .closeUnescaped else .close)).map
        fun closed =>
        .mustache (mustacheOf call c.here closed)) c.advance := by
  grind [mustache, mustacheOf, Reader.bind, Reader.map]

theorem partialCall_eq :
    partialCall param c = ((partialParts param).bind fun parts =>
      (Cursor.expect .close).map fun closed =>
      .partialCall { name := parts.name, params := parts.params, hash := parts.hash
                     strip := stripOf c.here closed, mark := c.here.to closed }) c.advance := by
  grind [partialCall, Reader.bind, Reader.map]

/-- Reads the text of a raw block, if it has any. -/
def rawBody : Reader (List (Statement Span)) := fun c =>
  if c.kind = .content then .ok ([.content (contentOfToken c.here)], c.advance) else .ok ([], c)

/-- The raw block of a call, a body, and the delimiters around them. -/
def rawBlockOf (call : CallParts) (body : List (Statement Span)) (opened closed ending : Token) :
    Block Span where
  expr := call.expr
  program := some ⟨body, [], false, ⟨closed.stop, ending.start⟩⟩
  inverse := none
  openStrip := {}
  inverseStrip := {}
  closeStrip := {}
  close := some (Path.ofParts [String.ofList (rawEndName ending.text)] ending.span)
  mark := opened.to ending

/-- The closing tag of a raw block is one token, and its name is read off that. -/
theorem rawBlock_eq :
    rawBlock param c = ((callParts param).bind fun call =>
      (Cursor.expect .closeRaw).bind fun closed =>
      rawBody.bind fun body => (Cursor.expect .endRaw).bind fun ending c' =>
        if String.ofList (rawEndName ending.text) = call.head.spelling then
          .ok (.block (rawBlockOf call body c.here closed ending), c')
        else
          .error ⟨.mismatchedBlock call.head.spelling (String.ofList (rawEndName ending.text)),
            ending.span, [(c.here.to closed, "raw block opened here")]⟩) c.advance := by
  simp only [rawBlock, Reader.bind]
  rcases callParts param c.advance with _ | ⟨call, c⟩
  · rfl
  · grind [rawBody, rawBlockOf]

/-- A block is read part after part, then put together. -/
theorem blockAfter_eq :
    blockAfter level opened c = ((openTag level.param opened).bind fun opening =>
      (program level.statement opening.blockParams).bind fun main =>
        level.otherwise.bind fun section? =>
        (closingTag opening.call.head.spelling opening.span).map fun closing =>
          .block (blockOf main section? closing.2.1 (opened.kind == .openInverted)
            opening.call.expr opening.strip
            (some closing.1) (opened.to closing.2.2))) c := by
  simp only [blockAfter, Reader.bind, Reader.map]
  rcases openTag level.param opened c with _ | ⟨opening, c⟩
  · rfl
  · grind [blockOf]

theorem partialBlockAfter_eq :
    partialBlockAfter level opened c = ((partialParts level.param).bind fun parts =>
      (Cursor.expect .close).bind fun closed => (program level.statement []).bind fun body c =>
        if c.kind = .loneElse ∨ c.kind = .openElse then .error ⟨.unexpectedElse, c.here.span, []⟩
        else (closingTag parts.name.spelling (opened.to closed)).map (fun closing =>
          .partialBlock { name := parts.name, params := parts.params, hash := parts.hash,
                          program := body
                          openStrip := stripOf opened closed, closeStrip := closing.2.1
                          mark := opened.to closing.2.2 }) c) c := by
  simp only [partialBlockAfter, Reader.bind, Reader.map]
  rcases partialParts level.param c with _ | ⟨parts, c⟩
  · rfl
  · grind

/-- A chained section is a block that ends where the closing tag of the chain stands. -/
theorem chainAfter_eq :
    chainAfter level opened c = ((openTag level.param opened).bind fun opening =>
      (program level.statement opening.blockParams).bind fun main =>
        level.otherwise.bind fun section? c' =>
        let mark : Span := ⟨opened.start, c'.prev.stop⟩
        .ok (⟨opening.strip,
          ⟨[.block (linkOf main section? opening.call.expr opening.strip mark)], [], true, mark⟩⟩,
          c')) c := by
  simp only [chainAfter, Reader.bind]
  rcases openTag level.param opened c with _ | ⟨opening, c⟩
  · rfl
  · grind [linkOf]

/-- A lone `else` opens a program, one with a head a chained section. -/
theorem otherwiseOver_eq (below : Option Level) (statement : Reader (Statement Span)) :
    otherwiseOver below statement c = match c.kind with
      | .loneElse =>
        (program statement []).map (fun body => some ⟨stripOf c.here c.here, body⟩) c.advance
      | .openElse =>
        match below with
        | none => .error (tooDeep c.here)
        | some level => (chainAfter level c.here).map some c.advance
      | _ => .ok (none, c) := by
  unfold otherwiseOver
  cases c.kind <;> grind [Reader.bind, Reader.map]

/-- The tree of a template whose statements were read: after them comes the end, or a tag that no
block has. -/
def rootOf (root : Program Span) : Reader (Program Span) := fun c =>
  match c.kind with
  | .eof => .ok ({ root with mark := ⟨0, c.here.stop⟩ }, c)
  | .openEnd =>
    (simpleExpr.bind fun name _ => .error ⟨.unexpectedClose name.spelling, c.here.span, []⟩)
      c.advance
  | .loneElse | .openElse => .error ⟨.unexpectedElse, c.here.span, []⟩
  | _ => .error (c.unexpected none)

/-- A template is a program with nothing behind it. -/
theorem template?_eq (tokens : List Token) :
    template? tokens =
      ((program (Level.ofNat maxNesting).statement []).bind rootOf (Cursor.ofTokens tokens)).map
        Prod.fst := by
  unfold template? Reader.bind rootOf
  grind [Except.map, Reader.bind]

/-- A text is read if it has tokens and the tokens are read. -/
theorem read?_eq_ok_iff {text : List Char} {root : Program Span} :
    read? text = .ok root ↔ ∃ ts, tokens? text = .ok ts ∧ template? ts = .ok root := by
  rw [read?]
  cases tokens? text <;> simp

/-- Reading fails in the scanner or in the grammar. -/
theorem read?_eq_error_iff {text : List Char} {f : Fault} :
    read? text = .error f ↔ tokens? text = .error f ∨
      ∃ ts, tokens? text = .ok ts ∧ template? ts = .error f := by
  rw [read?]
  cases tokens? text <;> simp

end Stencil.Syntax

namespace Stencil.Template

open Stencil.Text
open Stencil.Syntax (read? Fault)

variable {options : ReadOptions} {source : String}

/-- The tree has the locations of the spans that were read, or none. -/
theorem readAsWritten_eq_ok_iff {tree : Tree.Located} :
    readAsWritten options source = .ok tree ↔ ∃ root, read? source.toList = .ok root ∧
      tree = root.mapMark fun span =>
        if options.trackLocations then some
          ((LineIndex.ofChars source.toList).locate options.sourceName span)
        else none := by
  rw [readAsWritten]
  cases read? source.toList with
  | error f => exact ⟨nofun, nofun⟩
  | ok root =>
    constructor
    · rintro ⟨⟩
      exact ⟨root, rfl, rfl⟩
    · rintro ⟨_, ⟨⟩, rfl⟩
      rfl

/-- A fault is an error at its location. -/
theorem readAsWritten_eq_error_iff {e : Syntax.Error} :
    readAsWritten options source = .error e ↔ ∃ f : Fault, read? source.toList = .error f ∧
      e = f.locate (LineIndex.ofChars source.toList) options.sourceName := by
  rw [readAsWritten]
  cases read? source.toList with
  | error f =>
    constructor
    · rintro ⟨⟩
      exact ⟨f, rfl, rfl⟩
    · rintro ⟨_, ⟨⟩, rfl⟩
      rfl
  | ok root => exact ⟨nofun, nofun⟩

end Stencil.Template
