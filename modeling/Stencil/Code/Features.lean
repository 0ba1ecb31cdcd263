/-!
# Features

The capabilities that compiled code needs from whoever renders it, as a set of
bits.
-/

set_option autoImplicit false

namespace Stencil.Code

/-- A set of capabilities. -/
structure Features where
  bits : UInt32
deriving DecidableEq

namespace Features

/-- No capability. -/
def none : Features := ⟨0⟩

/-- Data variables. -/
def data : Features := ⟨1⟩

/-- Block parameters. -/
def blockParams : Features := ⟨2⟩

/-- Contexts or data frames above the current one. -/
def depths : Features := ⟨4⟩

/-- Partials. -/
def partials : Features := ⟨8⟩

/-- Names looked for in all enclosing contexts. -/
def compat : Features := ⟨16⟩

/-- The capabilities of this library. -/
def supported : Features := ⟨31⟩

/-- The capabilities of either set. -/
def union (a b : Features) : Features := ⟨a.bits ||| b.bits⟩

/-- Whether `a` has every capability of `b`. -/
def contains (a b : Features) : Bool := a.bits &&& b.bits == b.bits

/-- The capabilities that this library does not have. -/
def unsupported (a : Features) : Features := ⟨a.bits &&& ~~~supported.bits⟩

end Features

end Stencil.Code
