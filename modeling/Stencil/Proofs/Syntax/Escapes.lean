import Stencil.Proofs.Syntax.Segments

/-!
# Escaping by backslashes

A backslash before a character takes its meaning away: before the bracket that would close a
segment, before the quote that would close a string. A text with backslashes before all characters
of a kind (`escaped`) holds no delimiter of that kind, so the scanner goes through it to the
delimiter after it (`throughUnescaped?_escaped`). It does so unless the text ends with a backslash:
then this one is taken for the escape of the delimiter. What the readers make of an escaped text is
the text again (`unescape_escaped`, `contract_escaped`).
-/

set_option autoImplicit false

namespace Stencil.Syntax

open Stencil.Text

/-- The text with a backslash before every special character. -/
def escaped (specials text : List Char) : List Char :=
  text.flatMap fun c => if c ∈ specials then [backslash, c] else [c]

variable {specials : List Char}

theorem escaped_append (specials as bs : List Char) :
    escaped specials (as ++ bs) = escaped specials as ++ escaped specials bs := List.flatMap_append

theorem escaped_cons_of_mem {c : Char} (h : c ∈ specials) (cs : List Char) :
    escaped specials (c :: cs) = backslash :: c :: escaped specials cs := by
  rw [escaped, List.flatMap_cons, if_pos h]
  rfl

theorem escaped_cons_of_not_mem {c : Char} (h : c ∉ specials) (cs : List Char) :
    escaped specials (c :: cs) = c :: escaped specials cs := by
  rw [escaped, List.flatMap_cons, if_neg h]
  rfl

/-- No special character starts an escaped text. -/
theorem head?_escaped_ne {stop : Char} (hstop : stop ∈ specials) (hne : stop ≠ backslash)
    {cs rest : List Char} (hrest : cs = [] → rest.head? ≠ some stop) :
    (escaped specials cs ++ rest).head? ≠ some stop := by
  cases cs with
  | nil => exact hrest rfl
  | cons c cs =>
    by_cases hc : c ∈ specials
    · rw [escaped_cons_of_mem hc]
      exact fun h => hne (Option.some.inj h).symm
    · rw [escaped_cons_of_not_mem hc]
      rintro h
      exact hc (Option.some.inj h ▸ hstop)

/-! ## Scanning to a delimiter -/

section Scanning

variable {stop c : Char} {cs : List Char}

theorem throughUnescaped?_stop (stop : Char) (cs : List Char) :
    throughUnescaped? stop (stop :: cs) = some ([stop], cs) := by
  rw [throughUnescaped?.eq_def]
  exact if_pos rfl

/-- A delimiter after a backslash is passed over. -/
theorem throughUnescaped?_pair (hne : stop ≠ backslash) (cs : List Char) :
    throughUnescaped? stop (backslash :: stop :: cs) =
      (throughUnescaped? stop cs).map fun r => (backslash :: stop :: r.1, r.2) := by
  rw [throughUnescaped?, if_neg hne.symm, if_pos ⟨rfl, rfl⟩]

/-- A character that is no delimiter, and no backslash before one, is passed over. -/
theorem throughUnescaped?_cons (hc : c ≠ stop) (hcs : c = backslash → cs.head? ≠ some stop) :
    throughUnescaped? stop (c :: cs) = (throughUnescaped? stop cs).map fun r =>
      (c :: r.1, r.2) := by
  cases cs with
  | nil =>
    rw [throughUnescaped?.eq_def]
    exact if_neg hc
  | cons d ds =>
    rw [throughUnescaped?, if_neg hc, if_neg]
    rintro ⟨hbackslash, hd⟩
    exact hcs hbackslash (congrArg some hd)

/-- An escaped text is passed over, unless it ends with a backslash and the delimiter comes next. -/
theorem throughUnescaped?_escaped_append (hstop : stop ∈ specials) (hne : stop ≠ backslash)
    {text rest : List Char} (hrest : text.getLast? = some backslash → rest.head? ≠ some stop) :
    throughUnescaped? stop (escaped specials text ++ rest) =
      (throughUnescaped? stop rest).map fun r => (escaped specials text ++ r.1, r.2) := by
  induction text with
  | nil => exact Option.map_id'.symm
  | cons c cs ih =>
    have hmore : throughUnescaped? stop (escaped specials cs ++ rest) =
        (throughUnescaped? stop rest).map fun r => (escaped specials cs ++ r.1, r.2) := by
      refine ih fun hlast => hrest ?_
      rw [List.getLast?_cons, hlast]
      rfl
    -- A backslash of the text itself does not stand before a delimiter.
    have hnext : c = backslash → (escaped specials cs ++ rest).head? ≠ some stop := by
      rintro rfl
      refine head?_escaped_ne hstop hne fun hnone => hrest ?_
      rw [hnone]
      rfl
    by_cases hc : c ∈ specials
    · rw [escaped_cons_of_mem hc]
      by_cases hdelimiter : c = stop
      · subst hdelimiter
        rw [List.cons_append, List.cons_append, throughUnescaped?_pair hne, hmore, Option.map_map]
        rfl
      · have hhead : (c :: (escaped specials cs ++ rest)).head? ≠ some stop :=
          fun h => hdelimiter (Option.some.inj h)
        rw [List.cons_append, List.cons_append, throughUnescaped?_cons hne.symm fun _ => hhead,
          throughUnescaped?_cons hdelimiter hnext, hmore, Option.map_map, Option.map_map]
        rfl
    · have hdelimiter : c ≠ stop := fun h => hc (h ▸ hstop)
      rw [escaped_cons_of_not_mem hc, List.cons_append,
        throughUnescaped?_cons hdelimiter hnext, hmore, Option.map_map]
      rfl

/-- The scanner stops at the delimiter after an escaped text that does not end with a backslash. -/
theorem throughUnescaped?_escaped (hstop : stop ∈ specials) (hne : stop ≠ backslash)
    {text : List Char} (htext : text.getLast? ≠ some backslash) (rest : List Char) :
    throughUnescaped? stop (escaped specials text ++ stop :: rest) =
      some (escaped specials text ++ [stop], rest) := by
  rw [throughUnescaped?_escaped_append hstop hne fun hlast => absurd hlast htext,
    throughUnescaped?_stop]
  rfl

/-- If the text ends with a backslash, the scanner takes the delimiter after it for an escaped
one. -/
theorem throughUnescaped?_escaped_backslash (hstop : stop ∈ specials)
    (hbackslash : backslash ∈ specials) (hne : stop ≠ backslash) {text : List Char}
    (htext : text.getLast? = some backslash) (rest : List Char) :
    throughUnescaped? stop (escaped specials text ++ stop :: rest) =
      (throughUnescaped? stop rest).map fun r => (escaped specials text ++ stop :: r.1, r.2) := by
  obtain ⟨front, rfl⟩ := List.getLast?_eq_some_iff.1 htext
  have hsplit : escaped specials (front ++ [backslash]) =
      escaped specials front ++ [backslash, backslash] := by
    rw [escaped_append, escaped_cons_of_mem hbackslash]
    rfl
  have hhead : ∀ more : List Char, (backslash :: more).head? ≠ some stop :=
    fun more h => hne (Option.some.inj h).symm
  have hrest : [backslash, backslash] ++ stop :: rest = backslash :: backslash :: stop :: rest :=
    rfl
  rw [hsplit, List.append_assoc, hrest, throughUnescaped?_escaped_append hstop hne fun _ => hhead _,
    throughUnescaped?_cons hne.symm fun _ => hhead _, throughUnescaped?_pair hne, Option.map_map,
    Option.map_map]
  congr 1
  funext r
  simp

end Scanning

/-! ## Reading escaped texts -/

theorem unescape_cons_of_ne {c : Char} (h : c ≠ backslash) (cs : List Char) :
    unescape (c :: cs) = c :: unescape cs := by
  cases cs with
  | nil => rfl
  | cons d cs => rw [unescape, if_neg fun hpair => h hpair.1]

/-- Reading a segment undoes the escaping of its name. -/
theorem unescape_escaped_append (name rest : List Char) :
    unescape (escaped [backslash, ']'] name ++ rest) = name ++ unescape rest := by
  induction name with
  | nil => rfl
  | cons c cs ih =>
    by_cases hc : c ∈ [backslash, ']']
    · have hpair : c = ']' ∨ c = backslash := by simpa [or_comm] using hc
      rw [escaped_cons_of_mem hc, List.cons_append, List.cons_append, unescape,
        if_pos ⟨rfl, hpair⟩, ih]
      rfl
    · have hne : c ≠ backslash := fun h => hc (h ▸ List.mem_cons_self)
      rw [escaped_cons_of_not_mem hc, List.cons_append, unescape_cons_of_ne hne, ih]
      rfl

/-- Reading a string undoes the escaping of its quotes. -/
theorem contract_escaped {quote : Char} (h : quote ≠ backslash) (value : List Char) :
    contract backslash quote quote (escaped [quote] value) = value := by
  induction value with
  | nil => rfl
  | cons c cs ih =>
    by_cases hc : c ∈ [quote]
    · rw [escaped_cons_of_mem hc, List.mem_singleton.1 hc, contract_pair, ih]
    · rw [escaped_cons_of_not_mem hc]
      by_cases hbackslash : c = backslash
      · -- What comes after the backslash is no quote.
        have hhead : (escaped [quote] cs ++ []).head? ≠ some quote :=
          head?_escaped_ne List.mem_cons_self h nofun
        rw [List.append_nil] at hhead
        subst hbackslash
        cases hmore : escaped [quote] cs with
        | nil =>
          rw [hmore] at ih
          rw [← ih]
          rfl
        | cons d ds =>
          rw [hmore] at ih hhead
          rw [contract_cons_of_head fun hd => hhead (congrArg some hd), ih]
      · rw [contract_cons_of_ne hbackslash, ih]

end Stencil.Syntax
