import Stencil.Code.Spec

/-!
# Backends

The compiler asks a backend for every accessor it builds and hands it every
instruction it emits. The standard backend builds chains of members and joins
neighbouring texts.
-/

set_option autoImplicit false

namespace Stencil.Code

/-- The choices of a compiler that may be exchanged. -/
structure Backend where
  /-- One step from an accessor to a member of it. -/
  member : Accessor → String → LookupKind → Accessor := .member
  /-- A name looked for in all enclosing contexts. -/
  anyContext : String → Accessor := .anyContext
  buffer : BufferKind := .string
  /-- The instructions with one more. `explicit` is false for the text of the
  template only. -/
  append : List Instruction → Instruction → (explicit : Bool) → List Instruction
  stamp : Stamp := {}

/-- The instructions with one more at the end, where text that is not explicit is
joined to text before it. -/
def appendJoining (out : List Instruction) (next : Instruction) (explicit : Bool) :
    List Instruction :=
  match explicit, next, out.getLast? with
  | false, .content text, some (.content before) => out.dropLast ++ [.content (before ++ text)]
  | _, _, _ => out ++ [next]

/-- The instructions with one more at the end. -/
def appendPlain (out : List Instruction) (next : Instruction) (_explicit : Bool) :
    List Instruction :=
  out ++ [next]

/-- The backend that compilers use unless told otherwise. -/
def Backend.standard : Backend where
  append := appendJoining

/-! ## Variations -/

/-- Partials are looked up under a theme. -/
def memberThemed (base : Accessor) (name : String) (kind : LookupKind) : Accessor :=
  match kind with
  | .partialName => .member base ("themes/" ++ name) kind
  | _ => .member base name kind

/-- Properties of contexts are looked up in lower case. -/
def memberLower (base : Accessor) (name : String) (kind : LookupKind) : Accessor :=
  match kind with
  | .context => .member base (String.ofList (name.toList.map Char.toLower)) kind
  | _ => .member base name kind

/-- Helpers and partials are looked up in the current context. -/
def memberContextual (base : Accessor) (name : String) (kind : LookupKind) : Accessor :=
  match kind with
  | .partialName | .helper => .member (.context 0) name kind
  | _ => .member base name kind

/-- Helpers and partials are not looked up by name at all. -/
def memberBare (base : Accessor) (name : String) (kind : LookupKind) : Accessor :=
  match kind with
  | .partialName | .helper => base
  | _ => .member base name kind

/-- Names in all enclosing contexts are looked up in lower case. -/
def anyContextLower (name : String) : Accessor :=
  .anyContext (String.ofList (name.toList.map Char.toLower))

/-- Only the text of the template is kept. -/
def appendTextOnly (out : List Instruction) (next : Instruction) (explicit : Bool) :
    List Instruction :=
  if explicit then out else appendJoining out next explicit

end Stencil.Code
