import Stencil.Proofs.Json.Literals

/-!
# Reading JSON that was written

A value is legible when the names of each object differ, its integers have 64 bits, and its floating
point numbers are read back from their numerals. A legible value is read back from its text, unless
it nests deeper than a text may (`read?_text`).

Every step of the reader takes characters off the text, so the proof follows the value that was
written, and the length of its text is a bound for the steps that are taken.
-/

set_option autoImplicit false

namespace Stencil

namespace Table

variable {α : Type}

/-- A new name is entered at the end. -/
theorem insert_of_not_mem {name : String} {t : Table α} (h : name ∉ t.names) (value : α) :
    Table.insert name value t = t ++ [(name, value)] := by
  induction t with
  | nil => rfl
  | cons e rest ih =>
    obtain ⟨hne, hrest⟩ := not_or.1 (mt List.mem_cons.2 h)
    rw [Table.insert, if_neg (Ne.symm hne), ih hrest]
    rfl

/-- Entries of names that are new, and differ, are added at the end one by one. -/
theorem foldl_insert_of_nodup {rest : List (String × α)} {t : Table α}
    (h : (Table.names (t ++ rest)).Nodup) :
    rest.foldl (fun t e => Table.insert e.1 e.2 t) t = t ++ rest := by
  induction rest generalizing t with
  | nil => exact (List.append_nil t).symm
  | cons e rest ih =>
    have hmoved : t ++ e :: rest = (t ++ [(e.1, e.2)]) ++ rest :=
      (List.append_assoc t [e] rest).symm
    have hnew : e.1 ∉ t.names := by
      rw [names, List.map_append, List.nodup_append] at h
      exact fun hmem => h.2.2 _ hmem _ List.mem_cons_self rfl
    rw [List.foldl_cons, insert_of_not_mem hnew, hmoved, ih (hmoved ▸ h)]

/-- Entered one by one, entries of different names make the table of these entries. -/
theorem ofList_of_nodup {entries : Table α} (h : entries.names.Nodup) : ofList entries = entries :=
  foldl_insert_of_nodup (t := []) h

end Table

namespace Json

mutual

/-- The names of each object in the value differ, and its numbers are read back from their
numerals. -/
def Legible : Json → Prop
  | .null | .bool _ | .str _ => True
  | .int n => Int64.minValue.toInt ≤ n ∧ n < UInt64.size
  | .float x => ReadsBack x
  | .arr items => AllLegible items
  | .obj members => (Table.names members).Nodup ∧ AllLegibleMembers members

/-- Each of the values is legible. -/
def AllLegible : List Json → Prop
  | [] => True
  | j :: js => j.Legible ∧ AllLegible js

/-- The value of each of the members is legible. -/
def AllLegibleMembers : List (String × Json) → Prop
  | [] => True
  | (_, j) :: rest => j.Legible ∧ AllLegibleMembers rest

end

/-! ## Texts -/

/-- The text of the items of an array, up to its closing bracket. -/
def itemChars (items : List Json) : List Char := (",".intercalate (texts items)).toList

/-- The text of the members of an object, up to its closing brace. -/
def memberChars (members : List (String × Json)) : List Char :=
  (",".intercalate (memberTexts members)).toList

/-- An array is its items between brackets. -/
theorem toList_text_arr (items : List Json) :
    (text (.arr items)).toList = '[' :: (itemChars items ++ [']']) := by
  simp [text, itemChars]

/-- An object is its members between braces. -/
theorem toList_text_obj (members : List (String × Json)) :
    (text (.obj members)).toList = '\x7b' :: (memberChars members ++ ['\x7d']) := by
  simp [text, memberChars]

theorem itemChars_singleton (j : Json) : itemChars [j] = j.text.toList := by
  simp [itemChars, texts]

theorem itemChars_cons_cons (j k : Json) (items : List Json) :
    itemChars (j :: k :: items) = j.text.toList ++ ',' :: itemChars (k :: items) := by
  simp [itemChars, texts]

theorem memberChars_singleton (key : String) (j : Json) :
    memberChars [(key, j)] = '"' :: afterQuote key (':' :: j.text.toList) := by
  simp [memberChars, memberTexts, ← toList_quote]

theorem memberChars_cons_cons (key : String) (j : Json) (e : String × Json)
    (members : List (String × Json)) :
    memberChars ((key, j) :: e :: members) =
      '"' :: afterQuote key (':' :: (j.text.toList ++ ',' :: memberChars (e :: members))) := by
  obtain ⟨k, v⟩ := e
  simp [memberChars, memberTexts, ← toList_quote]

/-! ## Values that are read back -/

/-- The text does not start with white space, nor with a closing bracket. -/
def Begins : List Char → Prop
  | [] => False
  | c :: _ => isSpace c = false ∧ c ≠ ']'

theorem Begins.append {cs : List Char} (h : Begins cs) (rest : List Char) :
    Begins (cs ++ rest) := by
  cases cs with
  | nil => exact h.elim
  | cons c cs => exact h

/-- A value does not begin with space, so none is skipped. -/
theorem Begins.skip_eq {cs : List Char} (h : Begins cs) : skip cs = cs := by
  cases cs with
  | nil => rfl
  | cons c cs => exact skip_cons_of_not_isSpace h.1 cs

theorem Begins.ne_nil {cs : List Char} (h : Begins cs) : cs ≠ [] := by
  rintro rfl
  exact h

/-- The value is read back from its text, whatever follows that does not go on with a numeral. -/
structure Reads (j : Json) : Prop where
  begins : Begins j.text.toList
  reads : ∀ {fuel : Nat} {rest : List Char}, EndsNumeral rest → j.text.toList.length ≤ fuel →
    value? fuel (j.text.toList ++ rest) = some (j, rest)

theorem endsNumeral_cons {c : Char} (h : isNumeralChar c = false) (rest : List Char) :
    EndsNumeral (c :: rest) := by
  rintro _ ⟨⟩
  exact h

/-- A text that begins a value has a character, so a reader that may take as many steps takes
one. -/
theorem Reads.intro {j : Json} (hbegins : Begins j.text.toList)
    (hstep : ∀ {fuel : Nat} {rest : List Char}, EndsNumeral rest →
      j.text.toList.length ≤ fuel + 1 →
        value? (fuel + 1) (j.text.toList ++ rest) = some (j, rest)) :
    Reads j := by
  refine ⟨hbegins, fun {fuel rest} hrest hfuel => ?_⟩
  have hpos := Nat.lt_of_lt_of_le (List.length_pos_iff.2 hbegins.ne_nil) hfuel
  obtain ⟨n, rfl⟩ := Nat.exists_eq_succ_of_ne_zero (Nat.ne_of_gt hpos)
  exact hstep hrest hfuel

/-- A numeral begins with one of its own characters, which is no space and closes nothing. -/
theorem begins_of_isNumeralChar {cs : List Char} (hne : cs ≠ []) (hcs : ∀ c ∈ cs, isNumeralChar c) :
    Begins cs := by
  cases cs with
  | nil => exact hne rfl
  | cons c cs =>
    have hc : isNumeralChar c := hcs c List.mem_cons_self
    exact ⟨isSpace_of_isNumeralChar hc, by rintro rfl; exact absurd hc (by decide)⟩

/-- A value that is written as a numeral is read back if the numeral is. -/
theorem reads_of_numeral {j : Json} {cs : List Char} (htext : j.text.toList = cs)
    (hread : number? cs = some j) (hcs : ∀ c ∈ cs, isNumeralChar c) : Reads j := by
  have hbegins : Begins cs := begins_of_isNumeralChar (by rintro rfl; cases hread) hcs
  refine Reads.intro (htext ▸ hbegins) fun {fuel rest} hrest _ => ?_
  rw [htext]
  exact value?_numeral fuel hread hcs hrest

theorem reads_null : Reads .null := Reads.intro ⟨rfl, by decide⟩ fun _ _ => rfl

theorem reads_bool (b : Bool) : Reads (.bool b) := by
  cases b with
  | true => exact Reads.intro ⟨rfl, by decide⟩ fun _ _ => rfl
  | false => exact Reads.intro ⟨rfl, by decide⟩ fun _ _ => rfl

/-- A string is read back up to its closing quote, whatever follows. -/
theorem reads_str (s : String) : Reads (.str s) := by
  have htext (rest : List Char) : (text (.str s)).toList ++ rest = '"' :: afterQuote s rest :=
    toList_quote s rest
  have hbegins : Begins (text (.str s)).toList := by
    rw [← List.append_nil (text (.str s)).toList, htext]
    exact ⟨rfl, by decide⟩
  refine Reads.intro hbegins fun {fuel rest} _ _ => ?_
  rw [htext, value?, skip_cons_of_not_isSpace rfl]
  show ((stringBody? _ (afterQuote s rest)).map fun r : List Char × List Char =>
    (Json.str (String.ofList r.1), r.2)) = _
  rw [stringBody?_afterQuote, Option.map_some, String.ofList_toList]

/-- The items of an array are read back up to its closing bracket. -/
theorem items?_itemChars {items : List Json} (hne : items ≠ []) (h : ∀ j ∈ items, Reads j)
    {fuel : Nat} {rest : List Char} (hfuel : (itemChars items).length < fuel) :
    items? fuel (itemChars items ++ ']' :: rest) = some (items, rest) := by
  induction items generalizing fuel with
  | nil => exact absurd rfl hne
  | cons j items ih =>
    obtain ⟨fuel, rfl⟩ := Nat.exists_eq_succ_of_ne_zero (Nat.ne_of_gt (Nat.zero_lt_of_lt hfuel))
    obtain ⟨hj, hitems⟩ := List.forall_mem_cons.1 h
    cases items with
    | nil =>
      rw [itemChars_singleton] at hfuel ⊢
      rw [items?, hj.reads (endsNumeral_cons rfl rest) (Nat.le_of_lt_succ hfuel)]
      rfl
    | cons k items =>
      rw [itemChars_cons_cons, List.length_append, List.length_cons] at hfuel
      have hmore := ih (List.cons_ne_nil k items) hitems (show _ < fuel by omega)
      rw [itemChars_cons_cons, List.append_assoc, List.cons_append, items?,
        hj.reads (endsNumeral_cons rfl _) (by omega)]
      show ((items? fuel _).map fun r : List Json × List Char => (j :: r.1, r.2)) = _
      rw [hmore]
      rfl

/-- Items begin as the first of them does. -/
theorem begins_itemChars {items : List Json} (hne : items ≠ []) (h : ∀ j ∈ items, Reads j) :
    Begins (itemChars items) := by
  obtain _ | ⟨j, _ | ⟨k, items⟩⟩ := items
  · exact absurd rfl hne
  · rw [itemChars_singleton]
    exact (h j List.mem_cons_self).begins
  · rw [itemChars_cons_cons]
    exact (h j List.mem_cons_self).begins.append _

/-- By induction on the items: each is read back before the comma or the bracket behind it. -/
theorem reads_arr {items : List Json} (h : ∀ j ∈ items, Reads j) : Reads (.arr items) := by
  have hbegins : Begins (text (.arr items)).toList := by
    rw [toList_text_arr]
    exact ⟨rfl, by decide⟩
  refine Reads.intro hbegins fun {n rest} _ hfuel => ?_
  rw [toList_text_arr, List.length_cons, List.length_append, List.length_singleton] at hfuel
  rw [toList_text_arr, List.cons_append, List.append_assoc, List.singleton_append]
  by_cases hne : items = []
  · rw [hne]
    rfl
  · have hitems := (begins_itemChars hne h).append (']' :: rest)
    simp only [value?, skip_cons_of_not_isSpace (rfl : isSpace '[' = false), hitems.skip_eq]
    split
    next heq =>
      rw [heq] at hitems
      exact absurd rfl hitems.2
    next =>
      rw [items?_itemChars hne h (by omega)]
      rfl

/-- After a member that is read back, the reader goes on with what follows it. -/
theorem members?_afterQuote {key : String} {j : Json} (hj : Reads j) {fuel : Nat} {c : Char}
    {rest : List Char} (hc : isNumeralChar c = false) (hspace : isSpace c = false)
    (hfuel : j.text.toList.length ≤ fuel) :
    members? (fuel + 1) ('"' :: afterQuote key (':' :: (j.text.toList ++ c :: rest))) =
      if c = ',' then
        (members? fuel rest).map fun r : List (String × Json) × List Char => ((key, j) :: r.1, r.2)
      else if c = '\x7d' then some ([(key, j)], rest)
      else none := by
  have hvalue := hj.reads (endsNumeral_cons hc rest) hfuel
  simp only [members?, skip_cons_of_not_isSpace (rfl : isSpace '"' = false),
    skip_cons_of_not_isSpace (rfl : isSpace ':' = false), skip_cons_of_not_isSpace hspace,
    stringBody?_afterQuote, hvalue, String.ofList_toList]

theorem afterQuote_append (key : String) (cs rest : List Char) :
    afterQuote key cs ++ rest = afterQuote key (cs ++ rest) := by
  simp [afterQuote]

/-- What follows a string is shorter than the string with it, so the fuel that is left suffices. -/
theorem length_lt_afterQuote (key : String) (cs : List Char) :
    cs.length < (afterQuote key cs).length := by
  rw [afterQuote, List.length_append, List.length_cons]
  omega

/-- The members of an object are read back up to its closing brace. -/
theorem members?_memberChars {members : List (String × Json)} (hne : members ≠ [])
    (h : ∀ m ∈ members, Reads m.2) {fuel : Nat} {rest : List Char}
    (hfuel : (memberChars members).length < fuel) :
    members? fuel (memberChars members ++ '\x7d' :: rest) = some (members, rest) := by
  induction members generalizing fuel with
  | nil => exact absurd rfl hne
  | cons m members ih =>
    obtain ⟨key, j⟩ := m
    obtain ⟨fuel, rfl⟩ := Nat.exists_eq_succ_of_ne_zero (Nat.ne_of_gt (Nat.zero_lt_of_lt hfuel))
    obtain ⟨hj, hmembers⟩ : Reads j ∧ ∀ m ∈ members, Reads m.2 := List.forall_mem_cons.1 h
    cases members with
    | nil =>
      have hlength := length_lt_afterQuote key (':' :: j.text.toList)
      rw [memberChars_singleton, List.length_cons] at hfuel
      rw [List.length_cons] at hlength
      rw [memberChars_singleton, List.cons_append, afterQuote_append, List.cons_append,
        members?_afterQuote hj rfl rfl (by omega)]
      rfl
    | cons e members =>
      have hlength :=
        length_lt_afterQuote key (':' :: (j.text.toList ++ ',' :: memberChars (e :: members)))
      rw [memberChars_cons_cons, List.length_cons] at hfuel
      rw [List.length_cons, List.length_append, List.length_cons] at hlength
      have hmore := ih (List.cons_ne_nil e members) hmembers (show _ < fuel by omega)
      rw [memberChars_cons_cons, List.cons_append, afterQuote_append, List.cons_append,
        List.append_assoc, List.cons_append, members?_afterQuote hj rfl rfl (by omega), if_pos rfl,
        hmore]
      rfl

/-- Members begin with the quote of the first name. -/
theorem exists_memberChars {members : List (String × Json)} (hne : members ≠ []) :
    ∃ cs, memberChars members = '"' :: cs := by
  obtain _ | ⟨⟨key, j⟩, _ | ⟨e, members⟩⟩ := members
  · exact absurd rfl hne
  · exact ⟨_, memberChars_singleton key j⟩
  · exact ⟨_, memberChars_cons_cons key j e members⟩

/-- A brace before a quote opens an object with members. -/
theorem value?_brace_quote (fuel : Nat) (cs : List Char) :
    value? (fuel + 1) ('\x7b' :: '"' :: cs) =
      (members? fuel ('"' :: cs)).map fun r => (.obj (Table.ofList r.1), r.2) := rfl

/-- By induction on the members, as for items. Their names differ, so the table that is made of them
has all. -/
theorem reads_obj {members : List (String × Json)} (hnames : (Table.names members).Nodup)
    (h : ∀ m ∈ members, Reads m.2) : Reads (.obj members) := by
  have hbegins : Begins (text (.obj members)).toList := by
    rw [toList_text_obj]
    exact ⟨rfl, by decide⟩
  refine Reads.intro hbegins fun {n rest} _ hfuel => ?_
  rw [toList_text_obj, List.length_cons, List.length_append, List.length_singleton] at hfuel
  rw [toList_text_obj, List.cons_append, List.append_assoc, List.singleton_append]
  by_cases hne : members = []
  · rw [hne]
    rfl
  · obtain ⟨cs, hcs⟩ := exists_memberChars hne
    rw [hcs, List.cons_append, value?_brace_quote, ← List.cons_append, ← hcs,
      members?_memberChars hne h (by omega), Option.map_some, Table.ofList_of_nodup hnames]

mutual

/-- A legible value is read back from its text. -/
theorem Legible.reads : ∀ {j : Json}, j.Legible → Reads j
  | .null, _ => reads_null
  | .bool b, _ => reads_bool b
  | .int n, h =>
    reads_of_numeral (by rw [text, String.toList_ofList]) (number?_intText h.1 h.2)
      (isNumeralChar_intText n)
  | .float x, ⟨numeral, hwritten, hread⟩ =>
    reads_of_numeral (by rw [text, hwritten, Option.getD_some]) hread (isNumeralChar_json? hwritten)
  | .str s, _ => reads_str s
  | .arr _, h => reads_arr (AllLegible.reads h)
  | .obj _, h => reads_obj h.1 (AllLegibleMembers.reads h.2)

theorem AllLegible.reads : ∀ {items : List Json}, AllLegible items → ∀ j ∈ items, Reads j
  | [], _ => nofun
  | _ :: _, h => List.forall_mem_cons.2 ⟨Legible.reads h.1, AllLegible.reads h.2⟩

theorem AllLegibleMembers.reads : ∀ {members : List (String × Json)}, AllLegibleMembers members →
    ∀ m ∈ members, Reads m.2
  | [], _ => nofun
  | (_, _) :: _, h => List.forall_mem_cons.2 ⟨Legible.reads h.1, AllLegibleMembers.reads h.2⟩

end

/-- A legible value is what its text spells, and counts if it nests no deeper than a text may. -/
theorem read?_text_eq_ite {j : Json} (h : j.Legible) :
    read? j.text = if j.depth ≤ maxDepth then some j else none := by
  have hvalue : value? (j.text.toList.length + 1) (j.text.toList ++ []) = some (j, []) :=
    h.reads.reads nofun (Nat.le_succ _)
  rw [List.append_nil] at hvalue
  rw [read?, hvalue]
  show (if (true && decide (j.depth ≤ maxDepth)) = true then some j else none) = _
  simp only [Bool.true_and, decide_eq_true_eq]

/-- A legible value is read back from its text, unless it nests deeper than a text may. -/
theorem read?_text {j : Json} (h : j.Legible) (hdepth : j.depth ≤ maxDepth) :
    read? j.text = some j := by
  rw [read?_text_eq_ite h, if_pos hdepth]

end Json

end Stencil
