import Stencil.Decimal.Shortest

/-!
# Spelling numbers

Three ways a floating point number is written.

* `rendered`: what a template shows. Whole numbers below `10 ^ 21` are written
  out, other numbers from `10 ^ -6` on get a point, and the rest an exponent
  with its sign.
* `exponential`: one digit before the point and always an exponent, for the
  interchange of trees.
* `json`: a number of a JSON text, which always shows a point or an exponent.
-/

set_option autoImplicit false

namespace Stencil.Decimal

/-- Digits with a decimal point after the first `point` of them; zeros fill the
gap when the point lies outside. -/
def placePoint (digits : List Char) (point : Int) : List Char :=
  if point ≤ 0 then
    '0' :: '.' :: (List.replicate (-point).toNat '0' ++ digits)
  else if (digits.length : Int) ≤ point then
    digits ++ List.replicate (point.toNat - digits.length) '0'
  else digits.take point.toNat ++ '.' :: digits.drop point.toNat

/-- The digits of a decimal. -/
def Scientific.chars (d : Scientific) : List Char := Nat.toDigits 10 d.digits

/-- The position of the point of a decimal, counted from before its digits. -/
def Scientific.point (d : Scientific) : Int := d.exponent + (d.chars.length : Int)

/-- A decimal without exponent. -/
def Scientific.positional (d : Scientific) : List Char := placePoint d.chars d.point

/-- The mantissa of a decimal written with one digit before the point. -/
def Scientific.mantissa (d : Scientific) : List Char :=
  match d.chars with
  | [] => []
  | [c] => [c]
  | c :: cs => c :: '.' :: cs

/-- The exponent that goes with `Scientific.mantissa`. -/
def Scientific.power (d : Scientific) : Int :=
  if d.digits = 0 then 0 else d.point - 1

/-- A minus sign in front of a negative number. -/
def signed (negative : Bool) (cs : List Char) : String :=
  String.ofList (if negative then '-' :: cs else cs)

/-- The text of an integer. -/
def intText (n : Int) : List Char :=
  if n < 0 then '-' :: Nat.toDigits 10 n.natAbs else Nat.toDigits 10 n.natAbs

/-- How a number is shown in rendered output. -/
def rendered (x : Float) : String :=
  match read x with
  | .nan => "NaN"
  | .infinite negative => if negative then "-Infinity" else "Infinity"
  | .finite negative m =>
    let d := m.shortest
    match m.whole? with
    | some 0 => "0"
    | some n =>
      if powUp 10 21 ≤ n then
        signed negative (d.mantissa ++ 'e' :: '+' :: intText d.power)
      else signed negative (Nat.toDigits 10 n)
    | none =>
      if d.power < -6 then signed negative (d.mantissa ++ 'e' :: intText d.power)
      else signed negative d.positional

/-- A number with one digit before the point and an exponent. A number that is
not finite has no such form. -/
def exponential? (x : Float) : Option String :=
  match read x with
  | .finite negative m =>
    let d := m.shortest
    some (signed negative (d.mantissa ++ 'e' :: intText d.power))
  | _ => none

/-- A number as JSON writes it: without exponent when the point falls at most
four zeros before and sixteen digits after the first digit. A number that is not
finite has no such form. -/
def json? (x : Float) : Option String :=
  match read x with
  | .finite negative m =>
    let d := m.shortest
    let cs :=
      if d.digits = 0 then ['0', '.', '0']
      else if (d.chars.length : Int) ≤ d.point ∧ d.point ≤ 16 then d.positional ++ ['.', '0']
      else if -5 < d.point ∧ d.point ≤ 16 then d.positional
      else d.mantissa ++ 'e' :: intText d.power
    some (signed negative cs)
  | _ => none

end Stencil.Decimal
