import Stencil.Table
import Stencil.Decimal.Spelling

/-!
# JSON values

The values of the interchange forms. Integers and floating point numbers are kept
apart, as a numeral with a point or an exponent is apart from one without; the
members of an object keep their order.
-/

set_option autoImplicit false

namespace Stencil

/-- A JSON value. -/
inductive Json where
  | null
  | bool (value : Bool)
  | int (value : Int)
  | float (value : Float)
  | str (value : String)
  | arr (items : List Json)
  | obj (members : List (String × Json))

namespace Json

instance : Inhabited Json := ⟨.null⟩

/-! ## Text -/

/-- The lower-case hexadecimal digits of a number, two of them. -/
def hexPair (n : Nat) : List Char := [Nat.digitChar (n / 16 % 16), Nat.digitChar (n % 16)]

/-- A character of a string literal: quotes, backslashes and control characters
are escaped. -/
def escapeChar (c : Char) : List Char :=
  match c.toNat with
  | 0x22 => ['\\', '"']
  | 0x5C => ['\\', '\\']
  | 0x08 => ['\\', 'b']
  | 0x09 => ['\\', 't']
  | 0x0A => ['\\', 'n']
  | 0x0C => ['\\', 'f']
  | 0x0D => ['\\', 'r']
  | n => if n < 0x20 then ['\\', 'u', '0', '0'] ++ hexPair n else [c]

/-- A string literal. -/
def quote (s : String) : String :=
  "\"" ++ String.ofList (s.toList.flatMap escapeChar) ++ "\""

mutual

/-- A value as compact text. A number that is not finite is written as null. -/
def text : Json → String
  | .null => "null"
  | .bool b => if b then "true" else "false"
  | .int n => String.ofList (Decimal.intText n)
  | .float x => (Decimal.json? x).getD "null"
  | .str s => quote s
  | .arr items => "[" ++ ",".intercalate (texts items) ++ "]"
  | .obj members => "\x7b" ++ ",".intercalate (memberTexts members) ++ "\x7d"

/-- Values as compact text, one by one. -/
def texts : List Json → List String
  | [] => []
  | j :: js => text j :: texts js

/-- The members of an object as compact text, one by one. -/
def memberTexts : List (String × Json) → List String
  | [] => []
  | (k, j) :: rest => (quote k ++ ":" ++ text j) :: memberTexts rest

end

/-! ## Depth -/

mutual

/-- How deep arrays and objects nest in a value. -/
def depth : Json → Nat
  | .arr items => depths items + 1
  | .obj members => memberDepths members + 1
  | _ => 0

/-- The greatest depth of some values. -/
def depths : List Json → Nat
  | [] => 0
  | j :: js => max (depth j) (depths js)

/-- The greatest depth of the members of an object. -/
def memberDepths : List (String × Json) → Nat
  | [] => 0
  | (_, j) :: rest => max (depth j) (memberDepths rest)

end

end Json

end Stencil
