import Stencil.Proofs.Decimal.Rendered
import Stencil.Proofs.Render.Precedence
import Stencil.Proofs.Render.Tracking

/-!
# Contexts that are entered again

A nested program or partial is run in a context of its own, but a context that is the same as the
current one is not entered: the current one stays on top. What `this` shows there is then the
current context and not the value that was to be entered, so all depends on whether sameness of two
values (`Value.same`) makes them look the same.

It does but for two kinds of pairs (`Muddled`): a text and a text that is shown as it is, where one
of them is escaped and the other is not; and a whole number and a floating point number that are
equal only once the whole number is rounded. For every other pair, `this` shows what the value
itself would show (`this_shows_entered`).
-/

set_option autoImplicit false

namespace Stencil.Code

open Stencil.Text (Location)
open Stencil.Tree (Path)
open Compiling (Gives gives_bind gives_guard gives_pure gives_map)

/-- A path to the current context: it has no parts, and neither climbs nor names a data variable. -/
structure IsThis (p : Path (Option Location)) : Prop where
  parts : p.parts = []
  depth : p.depth = 0
  data : p.data = false

namespace Compiler

variable {options : Options} {frames : Frames} {p : Path (Option Location)}

theorem gives_lookup_this (hthis : IsThis p) {terminal : Bool} {l : Lookup}
    (h : Gives (({ options } : Compiler).lookup frames p terminal) l) :
    l = { accessor := .context 0, spelling := p.spelling, loc := p.mark } := by
  rw [Compiler.lookup] at h
  obtain ⟨⟨base, steps, kind⟩, hstart, h⟩ := gives_bind (gives_guard h)
  obtain rfl := gives_pure.1 h
  have hrequire : (terminal && !p.parts.isEmpty) = false := by
    rw [hthis.parts]
    exact Bool.and_false _
  -- Without parts there is no name that a block parameter or one of the contexts could go by.
  rw [Compiler.start, Path.head?, hthis.parts, hthis.depth, hthis.data] at hstart
  simp only [List.head?_nil, Option.bind_none, ite_self] at hstart
  rw [if_neg (Nat.lt_irrefl 0)] at hstart
  cases gives_pure.1 hstart
  rw [hrequire]
  rfl

/-- What a tag of such a path is compiled to, with any options. -/
theorem gives_shown_this (hthis : IsThis p) {o : Operand}
    (h : Gives (({ options } : Compiler).shown frames (.path p)) o) :
    o = .lambda { accessor := .context 0, spelling := p.spelling, loc := p.mark } := by
  have hsimple : p.isSimple = false := by
    rw [Path.isSimple, hthis.parts]
    rfl
  have hkind : (Form.ofExpr (.path p)).kind options frames = .value := by
    have hpath : (Form.ofExpr (.path p)).path.isSimple = false := hsimple
    rw [Form.kind]
    simp only [hpath, Bool.false_and, Bool.not_false, if_true]
    rfl
  rw [Compiler.shown, hkind] at h
  obtain ⟨l, hl, rfl⟩ := gives_map h
  rw [gives_lookup_this hthis hl]

end Compiler

end Stencil.Code

namespace Stencil.Render

open Stencil.Text (Location)
open Stencil.Tree (Path)
open Stencil.Code (IsThis Options Frames Compiler Operand Lookup)
open Stencil.Code.Compiling (Gives)

/-! ## Values that are the same context -/

/-- Two values that are the same as contexts and yet are not shown alike: a text and one that is
shown as it is, where what is shown is escaped and the text has something to escape; and a whole
number and a floating point number that are equal after rounding but have other digits. -/
inductive Muddled (escaped : Bool) : Value → Value → Prop where
  | textSafe {t : String} (on : escaped = true) (special : Text.escape t ≠ t) :
    Muddled escaped (.string t) (.safe t)
  | safeText {t : String} (on : escaped = true) (special : Text.escape t ≠ t) :
    Muddled escaped (.safe t) (.string t)
  | wholeFloat {n : Int} {x : Float} (rounded : (Float.ofInt n == x) = true)
    (digits : (Value.int n).text ≠ (Value.float x).text) : Muddled escaped (.int n) (.float x)
  | floatWhole {n : Int} {x : Float} (rounded : (x == Float.ofInt n) = true)
    (digits : (Value.int n).text ≠ (Value.float x).text) : Muddled escaped (.float x) (.int n)

/-- What it takes for two values to be the same context. -/
theorem Value.same_cases {w v : Value} (h : w.same v = true) :
    w = v ∨ (∃ i xs ys, w = .array i xs ∧ v = .array i ys) ∨
      (∃ i es fs, w = .object i es ∧ v = .object i fs) ∨
      (∃ x y, w = .float x ∧ v = .float y ∧ (x == y) = true) ∨
      (∃ t, w = .string t ∧ v = .safe t ∨ w = .safe t ∧ v = .string t) ∨
      ∃ n x, w = .int n ∧ v = .float x ∧ (Float.ofInt n == x) = true ∨
        w = .float x ∧ v = .int n ∧ (x == Float.ofInt n) = true := by
  cases w with
  | undefined => cases v <;> first | exact .inl rfl | cases h
  | null => cases v <;> first | exact .inl rfl | cases h
  | bool a =>
    cases v with
    | bool b => exact .inl (congrArg Value.bool (eq_of_beq h))
    | _ => cases h
  -- An integer is compared with a float as a float.
  | int n =>
    cases v with
    | int m => exact .inl (congrArg Value.int (eq_of_beq h))
    | float x => exact .inr (.inr (.inr (.inr (.inr ⟨n, x, .inl ⟨rfl, rfl, h⟩⟩))))
    | _ => cases h
  | float x =>
    cases v with
    | int n => exact .inr (.inr (.inr (.inr (.inr ⟨n, x, .inr ⟨rfl, rfl, h⟩⟩))))
    | float y => exact .inr (.inr (.inr (.inl ⟨x, y, rfl, rfl, h⟩)))
    | _ => cases h
  -- Whether a text is marked as safe does not matter.
  | string t =>
    cases v with
    | string u => exact .inl (congrArg Value.string (Option.some.inj (eq_of_beq h)).symm)
    | safe u =>
      obtain rfl : u = t := Option.some.inj (eq_of_beq h)
      exact .inr (.inr (.inr (.inr (.inl ⟨u, .inl ⟨rfl, rfl⟩⟩))))
    | _ => cases h
  | safe t =>
    cases v with
    | safe u => exact .inl (congrArg Value.safe (Option.some.inj (eq_of_beq h)).symm)
    | string u =>
      obtain rfl : u = t := Option.some.inj (eq_of_beq h)
      exact .inr (.inr (.inr (.inr (.inl ⟨u, .inr ⟨rfl, rfl⟩⟩))))
    | _ => cases h
  -- From here on only the numbers that the values are identified by are compared.
  | array i xs =>
    cases v with
    | array j ys =>
      obtain rfl : i = j := eq_of_beq h
      exact .inr (.inl ⟨i, xs, ys, rfl, rfl⟩)
    | _ => cases h
  | object i es =>
    cases v with
    | object j fs =>
      obtain rfl : i = j := eq_of_beq h
      exact .inr (.inr (.inl ⟨i, es, fs, rfl, rfl⟩))
    | _ => cases h
  | function f =>
    cases v with
    | function g => exact .inl (congrArg Value.function (eq_of_beq h))
    | _ => cases h

/-- What is muddled is the same. -/
theorem Muddled.same {escaped : Bool} {w v : Value} (h : Muddled escaped w v) :
    w.same v = true := by
  cases h with
  | textSafe => exact beq_self_eq_true _
  | safeText => exact beq_self_eq_true _
  | wholeFloat rounded => exact rounded
  | floatWhole rounded => exact rounded

/-! ## What they show -/

section Shown

variable {at_ : Place} {p : Path (Option Location)} {escaped : Bool} {w v : Value}

/-- A number is shown without escaping. -/
theorem output_int (n : Int) :
    output escaped (pure (.int n)) = pure ⟨(Value.int n).text, true⟩ := by
  have hclean : Text.escape (Value.int n).text = (Value.int n).text := by
    rw [Value.text]
    exact Text.escape_of_clean (by rw [String.toList_ofList]; exact Decimal.clean_intText n)
  cases escaped with
  | false => rfl
  | true => exact congrArg (fun text => pure (Append.mk text true)) hclean

theorem output_float (x : Float) :
    output escaped (pure (.float x)) = pure ⟨(Value.float x).text, true⟩ := by
  have hclean : Text.escape (Value.float x).text = (Value.float x).text := by
    rw [Value.text]
    exact Text.escape_of_clean (Decimal.clean_rendered x)
  cases escaped with
  | false => rfl
  | true => exact congrArg (fun text => pure (Append.mk text true)) hclean

/-- Pieces that are the same have the same text. -/
theorem text_of_pure_eq {a b : Append} (h : (pure a : Run Append) = pure b) : a.text = b.text :=
  congrArg Append.text (Except.ok.inj (congrArg Run.result h))

/-- A text and one that is shown as it is are shown alike unless the text has something to
escape. -/
theorem output_string_eq_iff (t : String) :
    output escaped (pure (.string t)) = output escaped (pure (.safe t)) ↔
      ¬ (escaped = true ∧ Text.escape t ≠ t) := by
  cases escaped with
  | false => exact ⟨fun _ h => Bool.false_ne_true h.1, fun _ => rfl⟩
  | true =>
    constructor
    · intro h hspecial
      exact hspecial.2 (text_of_pure_eq h)
    · intro h
      have hsame : Text.escape t = t := by
        by_contra hspecial
        exact h ⟨rfl, hspecial⟩
      exact congrArg (fun text => pure (Append.mk text true)) hsame

/-- A whole number and a floating point number are shown alike if they have the same text. -/
theorem output_int_eq_iff (n : Int) (x : Float) :
    output escaped (pure (.int n)) = output escaped (pure (.float x)) ↔
      (Value.int n).text = (Value.float x).text := by
  rw [output_int, output_float]
  constructor
  · exact text_of_pure_eq
  · intro h
    rw [h]

/-- Two values that are the same context are shown alike exactly if they are not muddled. Arrays
have the same items if they are the same array. -/
theorem output_same_iff (h : w.same v = true)
    (identified : ∀ i xs ys, w = .array i xs → v = .array i ys → xs = ys) :
    output escaped (at_.called p w) = output escaped (at_.called p v) ↔ ¬ Muddled escaped w v := by
  rcases Value.same_cases h with rfl | ⟨i, xs, ys, rfl, rfl⟩ | ⟨i, es, fs, rfl, rfl⟩ |
      ⟨x, y, rfl, rfl, hxy⟩ |
    ⟨t, ⟨rfl, rfl⟩ | ⟨rfl, rfl⟩⟩ | ⟨n, x, ⟨rfl, rfl, hrounded⟩ | ⟨rfl, rfl, hrounded⟩⟩
  · exact ⟨fun _ => nofun, fun _ => rfl⟩
  · obtain rfl := identified i xs ys rfl rfl
    exact ⟨fun _ => nofun, fun _ => rfl⟩
  · exact ⟨fun _ => nofun, fun _ => rfl⟩
  · refine ⟨fun _ => nofun, fun _ => ?_⟩
    show output escaped (pure (.float x)) = output escaped (pure (.float y))
    rw [output_float, output_float, Value.text, Value.text, Decimal.rendered_eq_of_beq hxy]
  · show output escaped (pure (.string t)) = output escaped (pure (.safe t)) ↔ _
    rw [output_string_eq_iff]
    exact not_congr ⟨fun h => .textSafe h.1 h.2, fun | .textSafe on special => ⟨on, special⟩⟩
  · show output escaped (pure (.safe t)) = output escaped (pure (.string t)) ↔ _
    rw [eq_comm, output_string_eq_iff]
    exact not_congr ⟨fun h => .safeText h.1 h.2, fun | .safeText on special => ⟨on, special⟩⟩
  · show output escaped (pure (.int n)) = output escaped (pure (.float x)) ↔ _
    rw [output_int_eq_iff, ← not_iff_not, not_not]
    exact ⟨.wholeFloat hrounded, fun | .wholeFloat _ digits => digits⟩
  · show output escaped (pure (.float x)) = output escaped (pure (.int n)) ↔ _
    rw [eq_comm, output_int_eq_iff, ← not_iff_not, not_not]
    exact ⟨.floatWhole hrounded, fun | .floatWhole _ digits => digits⟩

end Shown

/-! ## Contexts that are entered -/

/-- A scope that is made to enter a context: that of a nested program, with any block parameters, or
that of a partial; with any data variables. -/
inductive Scope.Enters (s : Scope) (v : Value) : Scope → Prop where
  | nested (values : List Value) (data : List (List (String × Value))) (body : Option PartialBody) :
    s.Enters v { s.enter v values with data := data, partialBlock := body }
  | «partial» (data : List (List (String × Value))) (body : Option PartialBody) :
    s.Enters v { s.forPartial v with data := data, partialBlock := body }

theorem Scope.Enters.contexts {s t : Scope} {v : Value} (h : s.Enters v t) :
    t.contexts = s.contextsWith v := by
  cases h <;> rfl

/-- In a scope that is made to enter a value, `this` shows what the value itself would show, with
the same escaping, exactly if the value and the context that it is entered from are not muddled. -/
theorem this_shows_entered {options : Options} {frames : Frames} {p : Path (Option Location)}
    (hthis : IsThis p) {o : Operand}
    (compiled : Gives (({ options } : Compiler).shown frames (.path p)) o) {s : Scope} {v : Value}
    (identified : ∀ i xs ys, s.context = .array i xs → v = .array i ys → xs = ys) {at_ : Place}
    (entered : s.Enters v at_.scope) (escaped : Bool) :
    at_.piece (.append o escaped) = output escaped (at_.called p v) ↔
      ¬ Muddled escaped s.context v := by
  obtain rfl := Compiler.gives_shown_this hthis compiled
  have hcurrent : (at_.scope.contexts[0]?).getD .undefined =
      if s.context.same v then s.context else v := by
    rw [entered.contexts, Scope.contextsWith]
    split
    · rw [Scope.context, List.headD_eq_head?_getD, List.head?_eq_getElem?]
    · rfl
  have hpiece :
      at_.piece (.append (.lambda { accessor := .context 0, spelling := p.spelling, loc := p.mark })
        escaped) = output escaped (at_.called p (if s.context.same v then s.context else v)) := by
    rw [Place.piece, Place.operand, Place.lookup, Render.lookup, resolve, hcurrent]
    rfl
  rw [hpiece]
  cases hsame : s.context.same v with
  | true => exact output_same_iff hsame identified
  | false =>
    refine ⟨fun _ hmuddled => ?_, fun _ => rfl⟩
    rw [hmuddled.same] at hsame
    cases hsame

/-! ## One and one point zero -/

/-- The path `this`. -/
def thisPath : Path (Option Location) := { parts := [], spelling := "this", mark := none }

/-- A scope whose context is the whole number one. -/
def oneScope : Scope := Scope.root (.int 1) [] []

/-- The place of a nested program that is to enter the floating point number one from there. -/
def onePlace : Place where
  frame := ⟨.builtins, fun _ _ => pure none, fun _ => pure "", 0⟩
  spec := { stamp := {}, main := 0, programs := [], options := {} }
  scope := oneScope.enter (.float 1.0) []

/-- The context stays the whole number, and shows as the other would. -/
theorem this_shows_entered_one :
    oneScope.context.same (.float 1.0) = true ∧
      onePlace.piece (.append (.lambda { accessor := .context 0, spelling := "this" }) true) =
        output true (pure (.float 1.0)) := by
  have compiled : Gives (({} : Compiler).shown [] (.path thisPath))
      (.lambda { accessor := .context 0, spelling := "this" }) :=
        ⟨Code.Features.none, Code.Features.none, rfl⟩
  have hclear : ¬ Muddled true oneScope.context (.float 1.0) := by
    intro hmuddled
    cases hmuddled with
    | wholeFloat _ digits => exact digits (by decide +kernel)
  refine ⟨by decide +kernel, ?_⟩
  have identified : ∀ i xs ys, oneScope.context = .array i xs → Value.float 1.0 = .array i ys →
      xs = ys :=
    fun _ _ _ _ h => by cases h
  exact (this_shows_entered ⟨rfl, rfl, rfl⟩ compiled identified (.nested [] _ none) true).2 hclear

/-! ## A text and one that is shown as it is -/

/-- Enters one value from the other and shows where it is. -/
def enteringText : String :=
  "\x7b\x7b#with a\x7d\x7d\x7b\x7b#with @root.b\x7d\x7d\x7b\x7bthis\x7d\x7d" ++
    "\x7b\x7b/with\x7d\x7d\x7b\x7b/with\x7d\x7d"

/-- Shows the other value from the same place. -/
def showingText : String :=
  "\x7b\x7b#with a\x7d\x7d\x7b\x7b@root.b\x7d\x7d\x7b\x7b/with\x7d\x7d"

/-- The value that is entered is shown as it is, and the one that is there already is not. -/
def taggedContext : Value := .object (.given 0) [("a", .string "<b>"), ("b", .safe "<b>")]

/-- Two numbers next to each other, of which the first one is no floating point number. -/
def roundedContext : Value :=
  .object (.given 0) [("a", .int 9007199254740993), ("b", .float 9007199254740992.0)]

/-- A value that is shown as it is is escaped once it is entered from the same text, and a number
shows the digits of the one that it was entered from. -/
theorem this_shows_other :
    (renderSource {} .builtins none enteringText taggedContext []).result = .ok "&lt;b&gt;" ∧
      (renderSource {} .builtins none showingText taggedContext []).result = .ok "<b>" ∧
      (renderSource {} .builtins none enteringText roundedContext []).result =
        .ok "9007199254740993" ∧
      (renderSource {} .builtins none showingText roundedContext []).result =
        .ok "9007199254740992" := by
  refine ⟨?_, ?_, ?_, ?_⟩
  all_goals decide +kernel

end Stencil.Render
