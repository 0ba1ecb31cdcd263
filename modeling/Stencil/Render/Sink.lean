import Stencil.Code.Spec
import Stencil.Render.Run
import Stencil.Text.Scan

/-!
# Sinks

Where the output of a template goes, piece by piece. A sink may refuse a piece;
it then stays as it is.
-/

set_option autoImplicit false

namespace Stencil.Render

/-- A piece of output. `explicit` is false for the text of the template and true for
everything that is computed. -/
structure Append where
  text : String
  explicit : Bool
deriving DecidableEq

/-- Where output goes: what it has gathered, and how it takes a piece. -/
structure Sink (σ : Type) where
  take : σ → Append → Except RuntimeError σ

namespace Sink

/-- The sink that gathers one text. -/
def string : Sink String where
  take out a := .ok (out ++ a.text)

/-- The sink that gathers pieces, empty ones left out. The last piece is the first
of the list. -/
def fragments : Sink (List String) where
  take out a := .ok (if a.text.isEmpty then out else a.text :: out)

/-- The sink that writes into a place of limited size. It refuses a piece that does
not fit as a whole. -/
def writer (limit : Option Nat) : Sink String where
  take out a :=
    let size := out.utf8ByteSize + a.text.utf8ByteSize
    match limit with
    | some n => if n < size then .error (.io "writer full") else .ok (out ++ a.text)
    | none => .ok (out ++ a.text)

/-- The sink that records a limited number of pieces. The last piece is the first of
the list. -/
def recorder (limit : Option Nat) : Sink (List Append) where
  take out a :=
    match limit with
    | some n => if n ≤ out.length then .error (.helper "recorder" "full") else .ok (a :: out)
    | none => .ok (a :: out)

end Sink

/-- What a sink has gathered, what happened on the way, and how it ended. -/
structure Gathered (σ : Type) where
  trace : List Event
  state : σ
  result : Except TemplateError Unit

/-- The text of pieces whose last is the first of the list. -/
def joinFragments (pieces : List String) : String := String.join pieces.reverse

variable {ι σ : Type}

/-- Hands the pieces of some instructions to a sink. Unless `strict`, an instruction
that fails with a recoverable error gives no piece. -/
def gather (sink : Sink σ) (strict : Bool) (piece : ι → Run Append) : List ι → σ → Gathered σ
  | [], state => ⟨[], state, .ok ()⟩
  | i :: rest, state =>
    let taken := Run.recover strict do
      let a ← piece i
      Run.ofRuntime (sink.take state a)
    match taken with
    | ⟨trace, .error e⟩ => ⟨trace, state, .error e⟩
    | ⟨trace, .ok next⟩ =>
      let done := gather sink strict piece rest (next.getD state)
      { done with trace := trace ++ done.trace }

/-- The run that gives what a sink has gathered. -/
def Gathered.run {α : Type} (finish : σ → α) (g : Gathered σ) : Run α :=
  ⟨g.trace, g.result.map fun _ => finish g.state⟩

/-! ## Output that is captured -/

section Capture

variable {m : Type → Type} [Monad m] [Carrier m]

/-- What a sink has gathered when it was handed the pieces of some instructions.
Unless `strict`, an instruction that fails with a recoverable error gives no piece. -/
def collect (sink : Sink σ) (strict : Bool) (piece : ι → m Append) : List ι → σ → m σ
  | [], state => pure state
  | i :: rest, state => do
    let next ← Carrier.recover strict do
      let a ← piece i
      Carrier.ofRun (.ofRuntime (sink.take state a))
    collect sink strict piece rest (next.getD state)

/-- The text of some instructions, gathered in the way that code asks for. -/
def capture (kind : Code.BufferKind) (strict : Bool) (piece : ι → m Append)
    (instructions : List ι) : m String :=
  match kind with
  | .string => collect Sink.string strict piece instructions ""
  | .fragments => joinFragments <$> collect Sink.fragments strict piece instructions []

end Capture

end Stencil.Render
