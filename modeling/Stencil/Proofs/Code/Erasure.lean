import Stencil.Code.Backend
import Stencil.Error

/-!
# Erasures

Code bears two kinds of notes about the text that it was compiled from: where tags and paths were
read, and by which paths arguments were given. An `Erasure` says which of them are erased, from
options, code and errors. Two errors are the same up to these notes if they are with the notes
erased.
-/

set_option autoImplicit false

namespace Stencil.Code

open Stencil.Text (Location)
open Stencil.Render (RuntimeError)

/-- Which notes are erased. -/
structure Erasure where
  /-- Where in the text something was read. -/
  locs : Bool := false
  /-- By which paths the arguments of a call were given. -/
  ids : Bool := false

/-! ## What is left of code -/

namespace Erasure

variable (n : Erasure)

def loc (l : Option Location) : Option Location := if n.locs then none else l

def callIds (ids : Option CallIds) : Option CallIds := if n.ids then none else ids

/-- The options by which the notes are not taken. -/
def options (o : Options) : Options :=
  { o with trackLocations := o.trackLocations && !n.locs, trackIds := o.trackIds && !n.ids }

def lookup (l : Lookup) : Lookup := { l with loc := n.loc l.loc }

mutual

def operand : Operand → Operand
  | .literal value => .literal value
  | .lookup path => .lookup (n.lookup path)
  | .lambda path => .lambda (n.lookup path)
  | .call c => .call (call c)
  | .ambiguous c => .ambiguous (call c)

def call : Call → Call
  | ⟨name, helper, value, params, hash, ids, loc⟩ =>
    ⟨name, helper, value.map n.lookup, operands params, named hash, n.callIds ids, n.loc loc⟩

def operands : List Operand → List Operand
  | [] => []
  | o :: rest => operand o :: operands rest

def named : List (String × Operand) → List (String × Operand)
  | [] => []
  | (name, o) :: rest => (name, operand o) :: named rest

end

def blockKind : BlockKind → BlockKind
  | .helper c => .helper (n.call c)
  | .ambiguous c => .ambiguous (n.call c)
  | .section o => .section (n.operand o)

def blockCall (b : BlockCall) : BlockCall :=
  { b with kind := n.blockKind b.kind, loc := n.loc b.loc }

def partialName : PartialName → PartialName
  | .fixed name accessor => .fixed name accessor
  | .computed o => .computed (n.operand o)

def invocation (p : PartialInvocation) : PartialInvocation :=
  { p with
    name := n.partialName p.name, context := n.operand p.context, hash := n.named p.hash
    loc := n.loc p.loc }

def instruction : Instruction → Instruction
  | .content text => .content text
  | .append o escape => .append (n.operand o) escape
  | .block b => .block (n.blockCall b)
  | .partialCall p => .partialCall (n.invocation p)

def chunk (c : Chunk) : Chunk := { c with instructions := c.instructions.map n.instruction }

def spec (s : Spec) : Spec :=
  { s with programs := s.programs.map n.chunk, options := n.options s.options }

/-! ## What is left of errors -/

def compileError (e : CompileError) : CompileError := { e with loc := n.loc e.loc }

def runtimeError : RuntimeError → RuntimeError
  | .missingProperty name path loc => .missingProperty name path (n.loc loc)
  | .missingHelper name loc => .missingHelper name (n.loc loc)
  | e => e

/-- Errors of reading say where they are whatever the options are, so nothing of them is erased. -/
def error : TemplateError → TemplateError
  | .ofSyntax e => .ofSyntax e
  | .ofCompile e => .ofCompile (n.compileError e)
  | .ofRuntime e => .ofRuntime (n.runtimeError e)

@[simp] theorem isRecoverable_error (e : TemplateError) :
    (n.error e).isRecoverable = e.isRecoverable := by
  cases e with
  | ofRuntime e => cases e <;> rfl
  | _ => rfl

/-! ## Laws -/

theorem loc_none : n.loc none = none := ite_self none

theorem callIds_none : n.callIds none = none := ite_self none

/-- A lookup that bears no location stays as it is. -/
theorem lookup_of_loc {l : Lookup} (h : l.loc = none) : n.lookup l = l := by
  unfold lookup
  rw [h, n.loc_none, ← h]

theorem loc_orElse (l m : Option Location) :
    ((n.loc l).orElse fun _ => n.loc m) = n.loc (l.orElse fun _ => m) := by
  unfold loc
  split
  · rfl
  · rfl

theorem loc_loc (l : Option Location) : n.loc (n.loc l) = n.loc l := by
  unfold loc
  split
  · rfl
  · rfl

theorem runtimeError_runtimeError (e : RuntimeError) :
    n.runtimeError (n.runtimeError e) = n.runtimeError e := by
  cases e with
  | missingProperty name path loc =>
    exact congrArg (RuntimeError.missingProperty name path) (n.loc_loc loc)
  | missingHelper name loc => exact congrArg (RuntimeError.missingHelper name) (n.loc_loc loc)
  | _ => rfl

theorem error_error (e : TemplateError) : n.error (n.error e) = n.error e := by
  cases e with
  | ofSyntax e => rfl
  | ofCompile e =>
    exact congrArg (fun loc => TemplateError.ofCompile { e with loc }) (n.loc_loc e.loc)
  | ofRuntime e => exact congrArg TemplateError.ofRuntime (n.runtimeError_runtimeError e)

/-- Errors bear no notes but locations. -/
theorem error_of_locs {n : Erasure} (hlocs : n.locs = false) (e : TemplateError) :
    n.error e = e := by
  have hloc : ∀ l, n.loc l = l := by
    intro l
    rw [loc, hlocs]
    rfl
  cases e with
  | ofSyntax e => rfl
  | ofCompile e => exact congrArg (fun loc => TemplateError.ofCompile { e with loc }) (hloc e.loc)
  | ofRuntime e =>
    cases e with
    | missingProperty name path loc =>
      exact congrArg (fun loc => TemplateError.ofRuntime (.missingProperty name path loc))
        (hloc loc)
    | missingHelper name loc =>
      exact congrArg (fun loc => TemplateError.ofRuntime (.missingHelper name loc)) (hloc loc)
    | _ => rfl

theorem named_insert (name : String) (o : Operand) :
    ∀ table : Table Operand,
      n.named (table.insert name o) = Table.insert name (n.operand o) (n.named table)
  | [] => rfl
  | (key, old) :: rest => by
    rw [Table.insert, named, Table.insert]
    split
    · rfl
    · rw [named, named_insert name o rest]

theorem program?_spec (s : Spec) (id : Nat) :
    (n.spec s).program? id = (s.program? id).map n.chunk :=
  List.getElem?_map

/-! ## Data variables

Where the paths of arguments are noted, helpers let the bodies of blocks know the path of their
context: in the data variable `contextPath`, for which they may open a frame. -/

/-- The data variable of this name holds nothing of what is erased. -/
def Reads (name : String) : Prop := n.ids = true → name ≠ "contextPath"

/-- The accessor leads to no data variable that holds something of what is erased. -/
def ReadsVia : Accessor → Prop
  | .member (.data _) name _ => n.Reads name
  | .member base _ _ => ReadsVia base
  | _ => True

end Erasure

/-- The backend appends an instruction in the same way whether notes are erased or not. -/
def Backend.ReadsNoNotes (n : Erasure) (b : Backend) : Prop :=
  ∀ out i explicit,
    b.append (out.map n.instruction) (n.instruction i) explicit =
      (b.append out i explicit).map n.instruction

theorem Backend.readsNoNotes_standard (n : Erasure) : Backend.standard.ReadsNoNotes n := by
  intro out i explicit
  show appendJoining _ _ _ = (appendJoining _ _ _).map _
  -- Texts are joined to texts, and texts bear no notes.
  have hplain : out.map n.instruction ++ [n.instruction i] = (out ++ [i]).map n.instruction := by
    simp
  unfold appendJoining
  rw [List.getLast?_map]
  rcases hlast : out.getLast? with _ | last
  · cases explicit <;> cases i <;> exact hplain
  · cases explicit
    case true => cases i <;> cases last <;> exact hplain
    case false =>
      cases i with
      | content text =>
        cases last with
        | content before => simp [Erasure.instruction, List.map_dropLast]
        | _ => exact hplain
      | _ => cases last <;> exact hplain

end Stencil.Code
