/-!
# HTML escaping

The seven characters that could open a tag, end an attribute or start an entity
are written as entities; all others stand for themselves. `escape` maps each
character on its own, so it distributes over concatenation.
-/

set_option autoImplicit false

namespace Stencil.Text

/-- The entity that stands for a character in HTML, for the characters that
need one. -/
def entity? (c : Char) : Option String :=
  match c.toNat with
  | 0x26 => some "&amp;"
  | 0x3C => some "&lt;"
  | 0x3E => some "&gt;"
  | 0x22 => some "&quot;"
  | 0x27 => some "&#x27;"
  | 0x60 => some "&#x60;"
  | 0x3D => some "&#x3D;"
  | _ => none

/-- Whether a character may not stand for itself in escaped text. This is a list of
its own, by which the start of a text is searched that can be copied. -/
def needsEntity (c : Char) : Bool :=
  match c.toNat with
  | 0x26 | 0x3C | 0x3E | 0x22 | 0x27 | 0x60 | 0x3D => true
  | _ => false

/-- The escaped form of one character. -/
def escapeChar (c : Char) : List Char :=
  match entity? c with
  | some e => e.toList
  | none => [c]

/-- A text with every character in need of it replaced by its entity. A clean
start is copied as it is. -/
def escape (text : String) : String :=
  let clean := text.toList.takeWhile (fun c => !needsEntity c)
  let rest := text.toList.dropWhile (fun c => !needsEntity c)
  String.ofList (clean ++ rest.flatMap escapeChar)

end Stencil.Text
