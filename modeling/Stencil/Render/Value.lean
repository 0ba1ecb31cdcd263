import Stencil.Decimal.Spelling
import Stencil.Table

/-!
# Values

What templates and helpers see. Arrays, objects and functions have an identity
beside their contents: two of them may be equal and yet not the same, and only
where a context would be the same as the one already there does a template not
enter it.
-/

set_option autoImplicit false

namespace Stencil.Render

/-- What tells arrays and objects apart that are built separately: a number given
out by whoever builds values beforehand, or, for one that is made while
rendering, how many levels of nesting were left there and the place in the
instruction that made it. At one time there is at most one invocation at each
level and one instruction that it carries out, so no two live values share an
identity by chance. -/
inductive Identity where
  | given (number : Nat)
  | made (level : Nat) (site : List Nat)
deriving DecidableEq

/-- The helpers that come with the library. -/
inductive Builtin where
  | ifHelper | unlessHelper | withHelper | eachHelper | lookupHelper | logHelper
deriving DecidableEq

/-- A function: one that comes with the library, or one of the functions of an
environment by number. -/
inductive FunctionId where
  | builtin (b : Builtin)
  | custom (number : Nat)
deriving DecidableEq

/-- A value. -/
inductive Value where
  | undefined
  | null
  | bool (value : Bool)
  | int (value : Int)
  | float (value : Float)
  | string (text : String)
  /-- A text that is shown as it is. -/
  | safe (text : String)
  | array (id : Identity) (items : List Value)
  | object (id : Identity) (entries : List (String × Value))
  | function (f : FunctionId)

namespace Value

instance : Inhabited Value := ⟨.undefined⟩

/-- The value of an integer: a whole number when it fits into 64 bits with sign, else
the nearest floating point number. -/
def ofInt (n : Int) : Value :=
  if Int64.minValue.toInt ≤ n ∧ n ≤ Int64.maxValue.toInt then .int n else .float (Float.ofInt n)

/-! ## Kinds -/

/-- Whether a value is undefined. -/
def isUndefined : Value → Bool
  | .undefined => true
  | _ => false

/-- Whether a value is undefined or null. -/
def isNullish : Value → Bool
  | .undefined | .null => true
  | _ => false

/-- Whether a value is a text that is shown as it is. -/
def isSafe : Value → Bool
  | .safe _ => true
  | _ => false

/-- The text of a text. -/
def str? : Value → Option String
  | .string s | .safe s => some s
  | _ => none

/-- The number of a number. -/
def number? : Value → Option Float
  | .int n => some (Float.ofInt n)
  | .float x => some x
  | _ => none

/-- The items of an array. -/
def items? : Value → Option (List Value)
  | .array _ items => some items
  | _ => none

/-- The entries of an object. -/
def entries? : Value → Option (Table Value)
  | .object _ entries => some entries
  | _ => none

/-! ## Truth -/

/-- Whether a value counts as true: everything but undefined, null, false, zero,
what is no number, and the empty text. -/
def isTruthy : Value → Bool
  | .undefined | .null => false
  | .bool b => b
  | .int n => n != 0
  | .float x => x != 0.0 && !x.isNaN
  | .string s | .safe s => !s.isEmpty
  | .array _ _ | .object _ _ | .function _ => true

/-- Whether there is nothing to a value: it is an empty array, or counts as false
without being zero. -/
def isEmpty : Value → Bool
  | .int 0 => false
  | .float x => if x == 0.0 then false else !(Value.float x).isTruthy
  | .array _ items => items.isEmpty
  | v => !v.isTruthy

/-! ## Properties -/

/-- The index that a property name spells: decimal digits below `2 ^ 64`, perhaps
after a plus sign. -/
def index? (name : String) : Option Nat :=
  let digits :=
    match name.toList with
    | '+' :: rest => rest
    | cs => cs
  if digits.isEmpty || !digits.all Char.isDigit then none
  else
    let n := digits.foldl (fun n c => 10 * n + (c.toNat - '0'.toNat)) 0
    if n < UInt64.size then some n else none

/-- The own property of a name: an entry of an object, an item of an array, the
length of an array or text. -/
def property? (v : Value) (name : String) : Option Value :=
  match v with
  | .object _ entries => Table.get? name entries
  | .array _ items =>
    if name = "length" then some (.int items.length)
    else (index? name).bind fun i => items[i]?
  | .string s | .safe s => if name = "length" then some (.int s.length) else none
  | _ => none

/-- The own property of a name, or undefined. -/
def property (v : Value) (name : String) : Value := (v.property? name).getD .undefined

/-- Whether there is an own property of a name. -/
def hasProperty (v : Value) (name : String) : Bool := (v.property? name).isSome

/-! ## Text -/

mutual

/-- The text a value renders as. -/
def text : Value → String
  | .undefined | .null | .function _ => ""
  | .bool b => if b then "true" else "false"
  | .int n => String.ofList (Decimal.intText n)
  | .float x => Decimal.rendered x
  | .string s | .safe s => s
  | .array _ items => ",".intercalate (texts items)
  | .object _ _ => "[object Object]"

/-- The texts of values, one by one. -/
def texts : List Value → List String
  | [] => []
  | v :: vs => text v :: texts vs

end

/-! ## Equality -/

/-- Equality of numbers, which whole numbers share with others. -/
def numbersEqual : Value → Value → Bool
  | .int m, .int n => m == n
  | a, b =>
    match a.number?, b.number? with
    | some x, some y => x == y
    | _, _ => false

mutual

/-- Equality of values: that of numbers, texts whether safe or not, the items of
arrays in order, the entries of objects in any order, and identity of
functions. -/
def equal : Value → Value → Bool
  | .undefined, .undefined => true
  | .null, .null => true
  | .bool a, .bool b => a == b
  | .int m, b => numbersEqual (.int m) b
  | .float x, b => numbersEqual (.float x) b
  | .string s, b => b.str? == some s
  | .safe s, b => b.str? == some s
  | .array _ items, .array _ others => allEqual items others
  | .object _ entries, .object _ others =>
    entries.length == others.length && entriesEqual entries others
  | .function f, .function g => f == g
  | _, _ => false

/-- Equality of lists of values. -/
def allEqual : List Value → List Value → Bool
  | [], [] => true
  | a :: as, b :: bs => equal a b && allEqual as bs
  | _, _ => false

/-- Whether every entry has an equal one of the same name in a table. -/
def entriesEqual : List (String × Value) → List (String × Value) → Bool
  | [], _ => true
  | (name, a) :: rest, others =>
    (match Table.get? name others with
      | some b => equal a b
      | none => false) && entriesEqual rest others

end

/-- Whether two values are the same context: the same array, object or function,
or equal values of another kind. -/
def same : Value → Value → Bool
  | .array i _, .array j _ => i == j
  | .object i _, .object j _ => i == j
  | .function f, .function g => f == g
  | a, b => a.equal b

end Value

end Stencil.Render
