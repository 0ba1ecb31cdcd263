import Stencil.Syntax.Error
import Stencil.Text.Scan

/-!
# Frames around errors

A syntax error as a block of text: its title and place, the line it stands on
with the lines before it, carets under the offending text, its message, and notes
on related places. Terminal colours are optional.
-/

set_option autoImplicit false

namespace Stencil.Syntax

open Stencil.Text

/-- What a frame shows. -/
structure FrameOptions where
  /-- Whether lines of the template are shown. -/
  showContext : Bool := true
  /-- The number of lines before the offending one. -/
  contextLines : Nat := 1
  colours : Bool := true

/-- The colours of a frame. -/
inductive Ink where
  | redBold | bold | cyan | cyanBold | blue | dimmed | yellowBold
deriving DecidableEq

/-- The terminal code of a colour. -/
def Ink.code : Ink → String
  | .redBold => "31;1"
  | .bold => "1"
  | .cyan => "36"
  | .cyanBold => "36;1"
  | .blue => "34"
  | .dimmed => "2"
  | .yellowBold => "93;1"

/-- A text in a colour, when colours are wanted. -/
def FrameOptions.paint (o : FrameOptions) (ink : Ink) (text : String) : String :=
  if o.colours then "\x1b[" ++ ink.code ++ "m" ++ text ++ "\x1b[0m" else text

/-- A line number, right-aligned in five columns. -/
def lineNumber (n : Nat) : String :=
  let digits := toString n
  "".pushn ' ' (5 - digits.length) ++ digits

/-- The lines of a template from `first` to `last`, as a frame shows them. -/
def contextLines (o : FrameOptions) (gutter : String) (first last : Nat) (source : List Char) :
    String :=
  let shown := ((lines source).drop (first - 1)).take (last - first + 1)
  String.join (shown.mapIdx fun i line =>
    let number := first + i
    let text := String.ofList line
    lineNumber number ++ " " ++ gutter ++ " " ++
      (if number = last then text else o.paint .dimmed text) ++ "\n")

/-- The number of carets under an error: the characters of its span when that
stays on one line, else one. -/
def caretCount (e : Error) (source : List Char) : Nat :=
  if e.location.start.line = e.location.stop.line then
    match slice? source e.span with
    | some text => max 1 text.length
    | none => 1
  else 1

/-- The frame of an error over a template. -/
def Error.frame (o : FrameOptions) (e : Error) (source : String) : String :=
  let gutter := o.paint .blue "|"
  let head :=
    o.paint .redBold "error" ++ ": " ++ o.paint .bold e.cause.title ++ "\n" ++
      "  +--> " ++ o.paint .cyan e.location.text ++ "\n" ++ "  " ++ gutter ++ "\n"
  let context :=
    if o.showContext then
      let line := e.location.start.line
      contextLines o gutter (max 1 (line - o.contextLines)) line source.toList ++
        "      " ++ gutter ++ " " ++ "".pushn ' ' e.location.start.column ++
        o.paint .yellowBold ("".pushn '^' (caretCount e source.toList)) ++ "\n"
    else ""
  let notes := e.related.map fun r =>
    "  = " ++ o.paint .cyanBold "note" ++ ": " ++ r.message ++ " (" ++ r.location.text ++ ")\n"
  head ++ context ++ "  " ++ gutter ++ " " ++ e.cause.message ++ "\n" ++ String.join notes

end Stencil.Syntax
