/-!
# Shortest decimals

A finite binary number `m · 2 ^ q` and the decimal with the fewest digits that
reads back as it.

The reals that round to the number form an interval whose ends belong to it
exactly when `m` is even. For one digit, two digits and so on the decimal grid
of that many digits is asked for the two grid points beside the number; the
first grid with a point inside the interval answers, of two such points the
nearer one, and the upper one of two equally near.
-/

set_option autoImplicit false

namespace Stencil.Decimal

/-- A decimal `digits · 10 ^ exponent`. -/
structure Scientific where
  digits : Nat
  exponent : Int
deriving DecidableEq

/-- A binary magnitude `mantissa · 2 ^ exponent`; `edge` marks the smallest
mantissa of a binade, whose lower neighbour is only half as far away. -/
structure Magnitude where
  mantissa : Nat
  exponent : Int
  edge : Bool
deriving DecidableEq

/-- What a floating point number stands for. -/
inductive Reading where
  | nan
  | infinite (negative : Bool)
  | finite (negative : Bool) (magnitude : Magnitude)
deriving DecidableEq

/-- The leading bit of the mantissas of normal numbers, which the fraction field
leaves out: `2 ^ 52`. -/
def leadingBit : Nat := 0x10000000000000

/-- The sign, exponent and mantissa fields of a number of 64 bits. -/
def readBits (bits : Nat) : Reading :=
  let negative := bits / (leadingBit * 2048) % 2 == 1
  let exponent : Nat := bits / leadingBit % 2048
  let fraction : Nat := bits % leadingBit
  if exponent = 2047 then
    if fraction = 0 then .infinite negative else .nan
  else if exponent = 0 then .finite negative ⟨fraction, -1074, false⟩
  else
    .finite negative
      ⟨leadingBit + fraction, (exponent : Int) - 1075, fraction == 0 && exponent != 1⟩

/-- The reading of a floating point number. -/
def read (x : Float) : Reading := readBits x.toBits.toNat

/-- The positive part of a power: `base ^ e` when `e` is positive, else 1. -/
def powUp (base : Nat) (e : Int) : Nat := Nat.pow base e.toNat

/-- The number of decimal digits of a positive natural number. -/
def digitCount (n : Nat) : Nat := (Nat.toDigits 10 n).length

/-- The decimal exponent of the leading digit of `num / den`. -/
def leadingExponent (num den : Nat) : Int :=
  if den ≤ num then (digitCount (num / den) : Int) - 1
  else -(digitCount ((den + num - 1) / num - 1) : Int)

/-- The interval of reals that round to a magnitude, over a common denominator:
its lower end, the number itself and its upper end. -/
structure Interval where
  low : Nat
  mid : Nat
  high : Nat
  den : Nat
  closed : Bool

/-- The interval of a magnitude, in quarters of its last binary place. -/
def Magnitude.interval (m : Magnitude) : Interval :=
  let up := powUp 2 (m.exponent - 2)
  let below := if m.edge then 1 else 2
  { low := (4 * m.mantissa - below) * up
    mid := 4 * m.mantissa * up
    high := (4 * m.mantissa + 2) * up
    den := powUp 2 (2 - m.exponent)
    closed := m.mantissa % 2 == 0 }

/-- Whether the grid point `c · 10 ^ s` rounds to the number. -/
def Interval.holds (i : Interval) (c : Nat) (s : Int) : Bool :=
  let point := c * powUp 10 s * i.den
  let scale := powUp 10 (-s)
  if i.closed then i.low * scale ≤ point && point ≤ i.high * scale
  else i.low * scale < point && point < i.high * scale

/-- The distance between two natural numbers. -/
def distance (a b : Nat) : Nat := (a - b) + (b - a)

/-- The distance of a grid point from the number, in the units of the grid. -/
def Interval.offset (i : Interval) (c : Nat) (s : Int) : Nat :=
  distance (c * powUp 10 s * i.den) (i.mid * powUp 10 (-s))

/-- The better of the two points of the grid `10 ^ s` beside the number, if one
rounds to it. -/
def Interval.onGrid? (i : Interval) (s : Int) : Option Nat :=
  let c := i.mid * powUp 10 (-s) / (i.den * powUp 10 s)
  match i.holds c s, i.holds (c + 1) s with
  | true, true => if i.offset c s < i.offset (c + 1) s then some c else some (c + 1)
  | true, false => some c
  | false, true => some (c + 1)
  | false, false => none

/-- The first grid of `n` or more digits, up to `n + fuel`, with a point that
rounds to the number. -/
def Interval.search (i : Interval) (lead : Int) : Nat → Nat → Option Scientific
  | 0, _ => none
  | fuel + 1, n =>
    let s := lead - (n : Int) + 1
    match i.onGrid? s with
    | some c => some ⟨c, s⟩
    | none => i.search lead fuel (n + 1)

/-- A decimal without zeros at the end of its digits. -/
def Scientific.strip (d : Scientific) : Scientific :=
  go d.digits d.exponent (digitCount d.digits)
where
  /-- Divides by ten while that leaves no remainder. -/
  go (digits : Nat) (exponent : Int) : Nat → Scientific
    | 0 => ⟨digits, exponent⟩
    | fuel + 1 =>
      if digits % 10 = 0 ∧ digits ≠ 0 then go (digits / 10) (exponent + 1) fuel
      else ⟨digits, exponent⟩

/-- The shortest decimal that rounds to a magnitude. Seventeen digits always
suffice for 53 bits. -/
def Magnitude.shortest (m : Magnitude) : Scientific :=
  if m.mantissa = 0 then ⟨0, 0⟩
  else
    let i := m.interval
    match i.search (leadingExponent i.mid i.den) 17 1 with
    | some d => d.strip
    | none => ⟨0, 0⟩

/-- The value of a magnitude when it is a whole number. -/
def Magnitude.whole? (m : Magnitude) : Option Nat :=
  if 0 ≤ m.exponent then some (m.mantissa * powUp 2 m.exponent)
  else if m.mantissa % powUp 2 (-m.exponent) = 0 then some (m.mantissa / powUp 2 (-m.exponent))
  else none

end Stencil.Decimal
