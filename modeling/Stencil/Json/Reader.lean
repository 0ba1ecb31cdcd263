import Stencil.Decimal.Reader
import Stencil.Json.Basic

/-!
# Reading JSON

From JSON text to a value. A numeral without point and exponent is an integer
when it fits into 64 bits and is not a negative zero; every other numeral is a
floating point number: its leading digits, as many as fit into 64 bits, times a
power of ten. A member that occurs twice keeps its last value. Texts whose arrays
and objects nest too deep are refused.

Every step takes characters off the text, so its length bounds the recursion.
-/

set_option autoImplicit false

namespace Stencil.Json

/-- The white space of JSON. -/
def isSpace (c : Char) : Bool := c == ' ' || c == '\t' || c == '\n' || c == '\r'

/-- The text without leading white space. -/
def skip (cs : List Char) : List Char := cs.dropWhile isSpace

/-- The value of a hexadecimal digit. -/
def hexDigit? (c : Char) : Option Nat :=
  if c.isDigit then some (c.toNat - '0'.toNat)
  else if 'a' ≤ c ∧ c ≤ 'f' then some (c.toNat - 'a'.toNat + 10)
  else if 'A' ≤ c ∧ c ≤ 'F' then some (c.toNat - 'A'.toNat + 10)
  else none

/-- Four hexadecimal digits at the start of a text. -/
def hexQuad? : List Char → Option (Nat × List Char)
  | a :: b :: c :: d :: rest =>
    match hexDigit? a, hexDigit? b, hexDigit? c, hexDigit? d with
    | some a, some b, some c, some d => some (((a * 16 + b) * 16 + c) * 16 + d, rest)
    | _, _, _, _ => none
  | _ => none

/-- The character after `\u`, which may take two escapes. -/
def unicodeEscape? (cs : List Char) : Option (Char × List Char) :=
  match hexQuad? cs with
  | none => none
  | some (high, rest) =>
    if 0xD800 ≤ high ∧ high < 0xDC00 then
      match rest with
      | '\\' :: 'u' :: more =>
        match hexQuad? more with
        | some (low, rest) =>
          if 0xDC00 ≤ low ∧ low < 0xE000 then
            some (Char.ofNat (0x10000 + (high - 0xD800) * 0x400 + (low - 0xDC00)), rest)
          else none
        | none => none
      | _ => none
    else if 0xDC00 ≤ high ∧ high < 0xE000 then none
    else some (Char.ofNat high, rest)

/-- The characters of a string literal after its opening quote. -/
def stringBody? : Nat → List Char → Option (List Char × List Char)
  | 0, _ => none
  | _ + 1, [] => none
  | fuel + 1, c :: cs =>
    if c = '"' then some ([], cs)
    else if c = '\\' then
      let simple (d : Char) (rest : List Char) :=
        (stringBody? fuel rest).map fun r => (d :: r.1, r.2)
      match cs with
      | '"' :: rest => simple '"' rest
      | '\\' :: rest => simple '\\' rest
      | '/' :: rest => simple '/' rest
      | 'b' :: rest => simple (Char.ofNat 0x08) rest
      | 'f' :: rest => simple (Char.ofNat 0x0C) rest
      | 'n' :: rest => simple '\n' rest
      | 'r' :: rest => simple '\r' rest
      | 't' :: rest => simple '\t' rest
      | 'u' :: rest =>
        match unicodeEscape? rest with
        | some (d, rest) => simple d rest
        | none => none
      | _ => none
    else if c.toNat < 0x20 then none
    else (stringBody? fuel cs).map fun r => (c :: r.1, r.2)

/-! ## Numerals -/

/-- The longest start of a run of digits whose value, on top of the digits before
it, fits into 64 bits: that value, and the digits that are left. -/
def digitsWithin (value : Nat) : List Char → Nat × List Char
  | [] => (value, [])
  | c :: cs =>
    let next := 10 * value + (c.toNat - '0'.toNat)
    if next < UInt64.size then digitsWithin next cs else (value, c :: cs)

/-- A number times a power of ten, by one multiplication or division when the
power is at most 308; smaller powers take a division by `10 ^ 308` each. Nothing
when the result is too large. -/
def scaled? : Nat → Float → Int → Option Float
  | 0, _, _ => none
  | fuel + 1, x, exponent =>
    if exponent.natAbs ≤ 308 then
      let power := Float.ofScientific 1 false exponent.natAbs
      if exponent < 0 then some (x / power)
      else if (x * power).isInf then none
      else some (x * power)
    else if x == 0.0 then some x
    else if 0 ≤ exponent then none
    else scaled? fuel (x / Float.ofScientific 1 false 308) (exponent + 308)

/-- The floating point number of a numeral. Of its digits those count that fit
into 64 bits. -/
def floatOf? (negative : Bool) (whole fraction : List Char) (power : Int) : Option Float :=
  let (value, dropped) := digitsWithin 0 whole
  let (value, ignored) := digitsWithin value fraction
  let exponent := power + (dropped.length : Int) - ((fraction.length - ignored.length : Nat) : Int)
  (scaled? (exponent.natAbs + 1) (Float.ofNat value) exponent).map fun x =>
    if negative then -x else x

/-- The value of a numeral. -/
def number? (cs : List Char) : Option Json :=
  let (negative, body) :=
    match cs with
    | '-' :: rest => (true, rest)
    | rest => (false, rest)
  let whole := body.takeWhile Char.isDigit
  if whole.isEmpty || (whole.head? == some '0' && whole.length != 1) then none
  else
    match body.dropWhile Char.isDigit with
    | [] =>
      let magnitude : Int := Decimal.digitsValue 0 whole
      let fits :=
        if negative then 0 < magnitude && Int64.minValue.toInt ≤ -magnitude
        else magnitude < UInt64.size
      if fits then some (.int (if negative then -magnitude else magnitude))
      else (floatOf? negative whole [] 0).map .float
    | '.' :: rest =>
      let fraction := rest.takeWhile Char.isDigit
      if fraction.isEmpty then none
      else
        match Decimal.readExponent? (rest.dropWhile Char.isDigit) with
        | some power => (floatOf? negative whole fraction power).map .float
        | none => none
    | rest =>
      match Decimal.readExponent? rest with
      | some power => (floatOf? negative whole [] power).map .float
      | none => none

/-- Whether a character may stand in a numeral. -/
def isNumeralChar (c : Char) : Bool :=
  c.isDigit || c == '-' || c == '+' || c == '.' || c == 'e' || c == 'E'

/-- The text after `word`, which must stand at its start. -/
def after? (word : String) (cs : List Char) : Option (List Char) :=
  if word.toList.isPrefixOf cs then some (cs.drop word.toList.length) else none

mutual

/-- The value at the start of a text, and the rest of the text. -/
def value? : Nat → List Char → Option (Json × List Char)
  | 0, _ => none
  | fuel + 1, cs =>
    match skip cs with
    | [] => none
    | 'n' :: rest => (after? "ull" rest).map fun r => (.null, r)
    | 't' :: rest => (after? "rue" rest).map fun r => (.bool true, r)
    | 'f' :: rest => (after? "alse" rest).map fun r => (.bool false, r)
    | '"' :: rest =>
      (stringBody? (rest.length + 1) rest).map fun r => (.str (String.ofList r.1), r.2)
    | '[' :: rest =>
      match skip rest with
      | ']' :: rest => some (.arr [], rest)
      | rest => (items? fuel rest).map fun r => (.arr r.1, r.2)
    | c :: rest =>
      if c = '\x7b' then
        match skip rest with
        | [] => none
        | d :: rest =>
          if d = '\x7d' then some (.obj [], rest)
          else (members? fuel (d :: rest)).map fun r => (.obj (Table.ofList r.1), r.2)
      else
        let numeral := (c :: rest).takeWhile isNumeralChar
        (number? numeral).map fun n => (n, (c :: rest).drop numeral.length)

/-- The items of an array up to its closing bracket. -/
def items? : Nat → List Char → Option (List Json × List Char)
  | 0, _ => none
  | fuel + 1, cs =>
    match value? fuel cs with
    | none => none
    | some (item, rest) =>
      match skip rest with
      | ',' :: rest => (items? fuel rest).map fun r => (item :: r.1, r.2)
      | ']' :: rest => some ([item], rest)
      | _ => none

/-- The members of an object up to its closing brace. -/
def members? : Nat → List Char → Option (List (String × Json) × List Char)
  | 0, _ => none
  | fuel + 1, cs =>
    match skip cs with
    | '"' :: rest =>
      match stringBody? (rest.length + 1) rest with
      | none => none
      | some (key, rest) =>
        match skip rest with
        | ':' :: rest =>
          match value? fuel rest with
          | none => none
          | some (value, rest) =>
            let entry := (String.ofList key, value)
            match skip rest with
            | [] => none
            | c :: rest =>
              if c = ',' then (members? fuel rest).map fun r => (entry :: r.1, r.2)
              else if c = '\x7d' then some ([entry], rest)
              else none
        | _ => none
    | _ => none

end

/-- How deep arrays and objects may nest in a text. -/
def maxDepth : Nat := 127

/-- The value that a whole text spells. -/
def read? (text : String) : Option Json :=
  let cs := text.toList
  match value? (cs.length + 1) cs with
  | some (value, rest) =>
    if (skip rest).isEmpty && value.depth ≤ maxDepth then some value else none
  | none => none

end Stencil.Json
