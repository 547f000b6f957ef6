import CnotRouting.Proofs.WrittenNumbers

/-!
# Written JSON

A JSON value is read back from its written form, with any text after it left over that does not go
on with a number. Only the floating-point numbers in it are asked to survive by themselves: the
reader has to take the text of such a number for the number.
-/

namespace CnotRouting.Json

/-- Whether a floating-point number is finite and read back from its written form. -/
def Survives (x : Float) : Prop :=
  x.isFinite = true ∧ readNumber? (floatText x).toList = some (.float x, [])

/-- A value whose floating-point numbers survive. -/
inductive IsWritable : Json → Prop where
  | null : IsWritable .null
  | bool (b : Bool) : IsWritable (.bool b)
  | int (n : Int) : IsWritable (.int n)
  | float {x : Float} (survives : Survives x) : IsWritable (.float x)
  | str (s : String) : IsWritable (.str s)
  | arr {items : List Json} (writable : ∀ v ∈ items, IsWritable v) : IsWritable (.arr items)
  | obj {fields : List (String × Json)} (writable : ∀ field ∈ fields, IsWritable field.2) :
      IsWritable (.obj fields)

/-! ### Blanks -/

/-- A character that is not skipped as a blank. -/
def IsSolid (c : Char) : Prop := c ≠ ' ' ∧ c ≠ '\n' ∧ c ≠ '\r' ∧ c ≠ '\t'

instance (c : Char) : Decidable (IsSolid c) := inferInstanceAs (Decidable (_ ∧ _))

theorem skipBlanks_cons {c : Char} (h : IsSolid c) (cs : List Char) :
    skipBlanks (c :: cs) = c :: cs := by
  obtain ⟨space, newline, creturn, tab⟩ := h
  simp [skipBlanks, space, newline, creturn, tab]

/-! ### Strings -/

theorem hexDigit?_digitChar : ∀ d < 16, hexDigit? (Nat.digitChar d) = some d := by
  decide

theorem readHexFour?_hexFour {c : Char} (h : c.toNat < 0x10000) (rest : List Char) :
    readHexFour? (hexFour c ++ rest) = some (c.toNat, rest) := by
  have first := hexDigit?_digitChar (c.toNat / 4096) (by omega)
  have second := hexDigit?_digitChar (c.toNat / 256 % 16) (by omega)
  have third := hexDigit?_digitChar (c.toNat / 16 % 16) (by omega)
  have last := hexDigit?_digitChar (c.toNat % 16) (by omega)
  have value : ((c.toNat / 4096 * 16 + c.toNat / 256 % 16) * 16 + c.toNat / 16 % 16) * 16 +
      c.toNat % 16 = c.toNat := by omega
  simp [hexFour, readHexFour?, first, second, third, last, value]

/-- A control character is read from its four digits. -/
theorem readEscape?_control {c : Char} (h : c.toNat < 0x20) (rest : List Char) :
    readEscape? ('u' :: hexFour c ++ rest) = some (c, rest) := by
  have digits := readHexFour?_hexFour (c := c) (by omega) rest
  have plane : c.toNat < 0xD800 ∨ 0xDFFF < c.toNat := by omega
  simp [readEscape?, readCodePoint?, digits, plane]

theorem readString?_escape {budget : Nat} {read cs rest : List Char} {c : Char}
    (h : readEscape? cs = some (c, rest)) :
    readString? (budget + 1) read ('\\' :: cs) = readString? budget (c :: read) rest := by
  rw [readString?, if_neg (by decide), if_pos rfl, h]

/-- A character of a string is read from its written form in one step. -/
theorem readString?_escaped (c : Char) (budget : Nat) (read rest : List Char) :
    readString? (budget + 1) read (escaped c ++ rest) = readString? budget (c :: read) rest := by
  unfold escaped
  iterate 7
    split
    · subst c
      exact readString?_escape rfl
  split
  · rename_i control
    exact readString?_escape (readEscape?_control control rest)
  · rename_i quote backslash _ _ _ _ _ printable
    rw [List.singleton_append, readString?, if_neg quote, if_neg backslash, if_neg printable]

theorem readString?_quoted (cs : List Char) (budget : Nat) (enough : cs.length < budget)
    (read rest : List Char) :
    readString? budget read (cs.flatMap escaped ++ '"' :: rest) =
      some (String.ofList (read.reverse ++ cs), rest) := by
  induction cs generalizing budget read with
  | nil =>
    obtain ⟨budget, rfl⟩ := Nat.exists_eq_add_one.2 (Nat.zero_lt_of_lt enough)
    simp [readString?]
  | cons c cs ih =>
    obtain ⟨budget, rfl⟩ := Nat.exists_eq_add_one.2 (Nat.zero_lt_of_lt enough)
    rw [List.flatMap_cons, List.append_assoc, readString?_escaped,
      ih budget (by simpa using enough), List.reverse_cons, List.append_assoc]
    rfl

/-! ### Values -/

theorem readValue?_of_number {c : Char} {cs : List Char} (start : c = '-' ∨ c.isDigit = true)
    (budget : Nat) : readValue? (budget + 1) (c :: cs) = readNumber? (c :: cs) := by
  have solid : IsSolid c := by
    refine ⟨?_, ?_, ?_, ?_⟩ <;> (rintro rfl; revert start; decide)
  rw [readValue?, skipBlanks_cons solid]
  split
  case h_7 => rfl
  all_goals
    rename_i heq
    obtain ⟨rfl, -⟩ := List.cons.inj heq
    exact absurd start (by decide)

/-- Whether a value is read back from its written form, on a budget of its length. -/
def ReadsBack (v : Json) : Prop :=
  ∀ (budget : Nat) (rest : List Char), v.text.toList.length ≤ budget → EndsNumber rest →
    readValue? budget (v.text.toList ++ rest) = some (v, rest)

theorem readsBack_of_number {v : Json} (h : readNumber? v.text.toList = some (v, [])) :
    v.ReadsBack := by
  intro budget rest enough ends
  obtain ⟨c, tail, heq, start⟩ := exists_of_readNumber? h
  have read := readNumber?_append ends h
  rw [heq, List.length_cons] at enough
  obtain ⟨budget, rfl⟩ := Nat.exists_eq_add_one.2 (Nat.zero_lt_of_lt enough)
  rw [heq] at read ⊢
  rw [List.cons_append, readValue?_of_number start]
  exact read

theorem toList_intercalate_comma (a b : String) (l : List String) :
    (",".intercalate (a :: b :: l)).toList =
      a.toList ++ ',' :: (",".intercalate (b :: l)).toList := by
  simp [String.intercalate_cons_cons, String.append_assoc]

theorem exists_toList_intercalate (a : String) (l : List String) :
    ∃ tail, (",".intercalate (a :: l)).toList = a.toList ++ tail := by
  cases l with
  | nil => exact ⟨[], by simp⟩
  | cons b l => exact ⟨_, toList_intercalate_comma a b l⟩

theorem endsNumber_cons {c : Char} (h : c = ',' ∨ c = ']' ∨ c = '}') (cs : List Char) :
    EndsNumber (c :: cs) := by
  rintro _ ⟨⟩
  rcases h with rfl | rfl | rfl <;> decide

theorem readItems?_itemTexts {v : Json} {items : List Json} (h : ∀ u ∈ v :: items, u.ReadsBack)
    (budget : Nat) (enough : (",".intercalate (itemTexts (v :: items))).toList.length < budget)
    (rest : List Char) :
    readItems? budget ((",".intercalate (itemTexts (v :: items))).toList ++ ']' :: rest) =
      some (v :: items, rest) := by
  induction items generalizing v budget with
  | nil =>
    obtain ⟨budget, rfl⟩ := Nat.exists_eq_add_one.2 (Nat.zero_lt_of_lt enough)
    rw [itemTexts, itemTexts, String.intercalate_singleton] at enough ⊢
    have here := h v List.mem_cons_self budget (']' :: rest) (by omega)
      (endsNumber_cons (by decide) rest)
    rw [readItems?, here]
    rfl
  | cons u items ih =>
    obtain ⟨budget, rfl⟩ := Nat.exists_eq_add_one.2 (Nat.zero_lt_of_lt enough)
    obtain ⟨hv, hitems⟩ := List.forall_mem_cons.1 h
    rw [itemTexts, itemTexts, toList_intercalate_comma, ← itemTexts] at enough ⊢
    rw [List.length_append, List.length_cons] at enough
    rw [List.append_assoc, List.cons_append, readItems?,
      hv budget _ (by omega) (endsNumber_cons (by decide) _)]
    simp only [skipBlanks_cons (show IsSolid ',' by decide)]
    rw [ih hitems budget (by omega)]
    rfl

theorem toList_quoted (s : String) :
    (quoted s).toList = '"' :: s.toList.flatMap escaped ++ ['"'] := by
  rw [quoted, String.toList_ofList]

theorem length_le_flatMap_escaped (cs : List Char) : cs.length ≤ (cs.flatMap escaped).length := by
  have one : ∀ c, 1 ≤ (escaped c).length := by
    intro c
    unfold escaped
    repeat' split
    all_goals simp
  induction cs with
  | nil => exact Nat.zero_le _
  | cons c cs ih =>
    rw [List.flatMap_cons, List.length_append, List.length_cons]
    have := one c
    omega

/-- A field consists of its name, which is read as a string, a colon and its value. -/
theorem reads_field {v : Json} (hv : v.ReadsBack) (key : String) (budget : Nat)
    (enough : (quoted key ++ ":" ++ v.text).toList.length ≤ budget) {rest : List Char}
    (ends : EndsNumber rest) :
    ∃ cs afterName, (quoted key ++ ":" ++ v.text).toList ++ rest = '"' :: cs ∧
      readString? budget [] cs = some (key, ':' :: afterName) ∧
      readValue? budget afterName = some (v, rest) := by
  have length := length_le_flatMap_escaped key.toList
  simp only [String.toList_append, toList_quoted, List.length_append, List.length_cons] at enough
  have name := readString?_quoted key.toList budget (by omega) []
    (':' :: (v.text.toList ++ rest))
  rw [List.reverse_nil, List.nil_append, String.ofList_toList] at name
  exact ⟨_, _, by simp [toList_quoted], name, hv budget rest (by omega) ends⟩

theorem readFields?_fieldTexts (key : String) {v : Json} {fields : List (String × Json)}
    (hv : v.ReadsBack) (h : ∀ field ∈ fields, field.2.ReadsBack) (budget : Nat)
    (enough : (",".intercalate (fieldTexts ((key, v) :: fields))).toList.length < budget)
    (rest : List Char) :
    readFields? budget
        ((",".intercalate (fieldTexts ((key, v) :: fields))).toList ++ '}' :: rest) =
      some ((key, v) :: fields, rest) := by
  induction fields generalizing key v budget with
  | nil =>
    obtain ⟨budget, rfl⟩ := Nat.exists_eq_add_one.2 (Nat.zero_lt_of_lt enough)
    rw [fieldTexts, fieldTexts, String.intercalate_singleton] at enough ⊢
    obtain ⟨cs, afterName, layout, name, value⟩ :=
      reads_field hv key budget (Nat.le_of_lt_succ enough)
        (endsNumber_cons (c := '}') (by decide) rest)
    rw [layout, readFields?, skipBlanks_cons (by decide)]
    simp only [name, skipBlanks_cons (show IsSolid ':' by decide), value,
      skipBlanks_cons (show IsSolid '}' by decide)]
  | cons field fields ih =>
    obtain ⟨budget, rfl⟩ := Nat.exists_eq_add_one.2 (Nat.zero_lt_of_lt enough)
    obtain ⟨hfield, hfields⟩ := List.forall_mem_cons.1 h
    rw [fieldTexts, fieldTexts, toList_intercalate_comma, ← fieldTexts] at enough ⊢
    rw [List.length_append, List.length_cons] at enough
    rw [List.append_assoc, List.cons_append]
    obtain ⟨cs, afterName, layout, name, value⟩ :=
      reads_field hv key budget (by omega) (endsNumber_cons (c := ',') (by decide) _)
    rw [layout, readFields?, skipBlanks_cons (by decide)]
    simp only [name, skipBlanks_cons (show IsSolid ':' by decide), value,
      skipBlanks_cons (show IsSolid ',' by decide)]
    rw [ih field.1 hfield hfields budget (by omega)]
    rfl

theorem text_int (n : Int) : (int n).text = n.repr := by
  rw [text]
  rfl

theorem text_float {x : Float} (h : Survives x) : (float x).text = floatText x := by
  rw [text, if_pos h.1]

theorem toList_text_arr (items : List Json) :
    (arr items).text.toList = '[' :: (",".intercalate (itemTexts items)).toList ++ [']'] := by
  simp [text]

theorem toList_text_obj (fields : List (String × Json)) :
    (obj fields).text.toList = '{' :: (",".intercalate (fieldTexts fields)).toList ++ ['}'] := by
  simp [text]

/-- The written form of a value starts neither with a blank nor with a closing bracket. -/
theorem exists_of_text {v : Json} (h : v.IsWritable) :
    ∃ c tail, v.text.toList = c :: tail ∧ IsSolid c ∧ c ≠ ']' := by
  have number : ∀ {cs : List Char} {r : Json × List Char}, readNumber? cs = some r →
      ∃ c tail, cs = c :: tail ∧ IsSolid c ∧ c ≠ ']' := by
    intro cs r read
    obtain ⟨c, tail, heq, start⟩ := exists_of_readNumber? read
    refine ⟨c, tail, heq, ⟨?_, ?_, ?_, ?_⟩, ?_⟩ <;> (rintro rfl; exact absurd start (by decide))
  cases h with
  | null => exact ⟨'n', _, rfl, by decide⟩
  | bool b => cases b <;> exact ⟨_, _, rfl, by decide⟩
  | int n => exact number (text_int n ▸ readNumber?_int n)
  | float survives => exact number (text_float survives ▸ survives.2)
  | str s => exact ⟨'"', _, toList_quoted s, by decide⟩
  | arr => exact ⟨'[', _, toList_text_arr _, by decide⟩
  | obj => exact ⟨'{', _, toList_text_obj _, by decide⟩

theorem readValue?_str (s : String) {budget : Nat}
    (enough : (str s).text.toList.length ≤ budget + 1) (rest : List Char) :
    readValue? (budget + 1) ((str s).text.toList ++ rest) = some (str s, rest) := by
  have length := length_le_flatMap_escaped s.toList
  rw [text, toList_quoted] at enough ⊢
  simp only [List.length_append, List.length_cons] at enough
  have read := readString?_quoted s.toList budget (by omega) [] rest
  rw [List.reverse_nil, List.nil_append, String.ofList_toList] at read
  rw [List.append_assoc, List.cons_append, readValue?, skipBlanks_cons (by decide)]
  simp only [List.singleton_append, read, Option.map_some]

theorem readValue?_arr {items : List Json} (writable : ∀ v ∈ items, v.IsWritable)
    (readsBack : ∀ v ∈ items, v.ReadsBack) {budget : Nat}
    (enough : (arr items).text.toList.length ≤ budget + 1) (rest : List Char) :
    readValue? (budget + 1) ((arr items).text.toList ++ rest) = some (arr items, rest) := by
  rw [toList_text_arr] at enough ⊢
  simp only [List.length_append, List.length_cons] at enough
  rw [List.append_assoc, List.cons_append, readValue?, skipBlanks_cons (by decide)]
  cases items with
  | nil => rfl
  | cons v items =>
    have read := readItems?_itemTexts readsBack budget (by omega) rest
    obtain ⟨c, first, hfirst, solid, notClosing⟩ := exists_of_text (writable v List.mem_cons_self)
    obtain ⟨others, heq⟩ := exists_toList_intercalate v.text (itemTexts items)
    rw [itemTexts, heq, hfirst, List.cons_append, List.cons_append] at read ⊢
    simp only [List.singleton_append, skipBlanks_cons solid]
    split
    · rename_i closing
      exact absurd (List.cons.inj closing).1 notClosing
    · rw [read]
      rfl

theorem readValue?_obj {fields : List (String × Json)}
    (readsBack : ∀ field ∈ fields, field.2.ReadsBack) {budget : Nat}
    (enough : (obj fields).text.toList.length ≤ budget + 1) (rest : List Char) :
    readValue? (budget + 1) ((obj fields).text.toList ++ rest) = some (obj fields, rest) := by
  rw [toList_text_obj] at enough ⊢
  simp only [List.length_append, List.length_cons] at enough
  rw [List.append_assoc, List.cons_append, readValue?, skipBlanks_cons (by decide)]
  cases fields with
  | nil => rfl
  | cons field fields =>
    obtain ⟨key, v⟩ := field
    obtain ⟨hv, hfields⟩ := List.forall_mem_cons.1 readsBack
    have read := readFields?_fieldTexts key (v := v) hv hfields budget (by omega) rest
    have start : ∃ tail, (",".intercalate (fieldTexts ((key, v) :: fields))).toList =
        '"' :: tail := by
      obtain ⟨others, heq⟩ :=
        exists_toList_intercalate (quoted key ++ ":" ++ v.text) (fieldTexts fields)
      rw [fieldTexts, heq, String.toList_append, String.toList_append, toList_quoted]
      exact ⟨_, rfl⟩
    obtain ⟨tail, heq⟩ := start
    rw [heq, List.cons_append] at read ⊢
    simp only [List.singleton_append, skipBlanks_cons (show IsSolid '"' by decide)]
    split
    · rename_i closing
      exact absurd (List.cons.inj closing).1 (by decide)
    · rw [read]
      rfl

namespace IsWritable

/-- No written form is empty, so a budget of its length leaves a step. -/
theorem readsBack_of_step {v : Json} (h : v.IsWritable)
    (step : ∀ (budget : Nat) (rest : List Char), v.text.toList.length ≤ budget + 1 →
      readValue? (budget + 1) (v.text.toList ++ rest) = some (v, rest)) : v.ReadsBack := by
  intro budget rest enough _
  obtain ⟨c, tail, heq, -⟩ := exists_of_text h
  have positive : 0 < budget := by
    rw [heq, List.length_cons] at enough
    exact Nat.zero_lt_of_lt enough
  obtain ⟨budget, rfl⟩ := Nat.exists_eq_add_one.2 positive
  exact step budget rest enough

theorem readsBack {v : Json} (h : v.IsWritable) : v.ReadsBack := by
  induction h with
  | null => exact IsWritable.null.readsBack_of_step fun _ _ _ => rfl
  | bool b =>
    refine (IsWritable.bool b).readsBack_of_step fun _ _ _ => ?_
    cases b <;> rfl
  | int n => exact readsBack_of_number (text_int n ▸ readNumber?_int n)
  | float survives => exact readsBack_of_number (text_float survives ▸ survives.2)
  | str s =>
    exact (IsWritable.str s).readsBack_of_step fun _ rest enough => readValue?_str s enough rest
  | arr writable ih =>
    exact (IsWritable.arr writable).readsBack_of_step fun _ rest enough =>
      readValue?_arr writable ih enough rest
  | obj writable ih =>
    exact (IsWritable.obj writable).readsBack_of_step fun _ rest enough =>
      readValue?_obj ih enough rest

end IsWritable

/-- A value is read back from its written form. -/
theorem parse?_text {v : Json} (h : v.IsWritable) : parse? v.text = some v := by
  have read := h.readsBack (v.text.toList.length + 1) [] (Nat.le_succ _) (by simp [EndsNumber])
  rw [List.append_nil] at read
  rw [parse?, read]
  rfl

end CnotRouting.Json
