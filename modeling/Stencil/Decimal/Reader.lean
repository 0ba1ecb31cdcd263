/-!
# Reading decimals

From a decimal numeral to the nearest floating point number.
-/

set_option autoImplicit false

namespace Stencil.Decimal

/-- The value of a run of decimal digits, on top of the digits before it. -/
def digitsValue (start : Nat) (cs : List Char) : Nat :=
  cs.foldl (fun n c => 10 * n + (c.toNat - '0'.toNat)) start

/-- A numeral taken apart: sign, significant digits as a number, and the power
of ten they are multiplied by. -/
structure Numeral where
  negative : Bool
  digits : Nat
  exponent : Int
deriving DecidableEq

/-- The number of digits of a numeral before its point; negative when zeros follow
the point. -/
def Numeral.size (n : Numeral) : Int := n.exponent + ((Nat.toDigits 10 n.digits).length : Int)

/-- The floating point number nearest to a numeral. Numerals from `10 ^ 310` on and
below `10 ^ -330` are past every finite one, so their power of ten is never worked
out. -/
def Numeral.toFloat (n : Numeral) : Float :=
  let magnitude :=
    if n.digits = 0 ∨ n.size < -330 then 0.0
    else if 310 < n.size then 1.0 / 0.0
    else if n.exponent < 0 then Float.ofScientific n.digits true n.exponent.natAbs
    else Float.ofScientific n.digits false n.exponent.natAbs
  if n.negative then -magnitude else magnitude

/-- A sign in front of a numeral, if there is one. -/
def splitSign : List Char → Bool × List Char
  | '-' :: cs => (true, cs)
  | '+' :: cs => (false, cs)
  | cs => (false, cs)

/-- Reads an integer: an optional sign and digits. -/
def readInt? (cs : List Char) : Option Int :=
  let (negative, ds) := splitSign cs
  if ds.isEmpty || !ds.all Char.isDigit then none
  else
    let n : Int := digitsValue 0 ds
    some (if negative then -n else n)

/-- The exponent at the end of a numeral: nothing, or `e` and an integer. -/
def readExponent? : List Char → Option Int
  | [] => some 0
  | c :: cs => if c = 'e' ∨ c = 'E' then readInt? cs else none

/-- Reads a numeral: an optional sign, digits with at most one point among
them, an optional exponent. At least one digit is needed. -/
def Numeral.read? (cs : List Char) : Option Numeral :=
  let (negative, body) := splitSign cs
  let whole := body.takeWhile Char.isDigit
  let (fraction, rest) :=
    match body.dropWhile Char.isDigit with
    | '.' :: r => (r.takeWhile Char.isDigit, r.dropWhile Char.isDigit)
    | r => ([], r)
  if whole.isEmpty && fraction.isEmpty then none
  else
    match readExponent? rest with
    | none => none
    | some e => some ⟨negative, digitsValue 0 (whole ++ fraction), e - (fraction.length : Int)⟩

/-- The number a text spells: a numeral, or one of the words for what is no
finite number. -/
def readFloat? (text : String) : Option Float :=
  let (negative, word) := splitSign text.toList
  match String.ofList (word.map Char.toLower) with
  | "nan" => some (0.0 / 0.0)
  | "inf" | "infinity" => some (if negative then -(1.0 / 0.0) else 1.0 / 0.0)
  | _ => (Numeral.read? text.toList).map Numeral.toFloat

end Stencil.Decimal
