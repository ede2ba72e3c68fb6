-- SUMMARY: Writers and readers of JSON texts, and the one that writes no blanks.
import Supermemory.Json
import Supermemory.Text

/-!
# JSON texts

A library of JSON texts is known by what it promises: it reads back the values that it
writes, as long as they are not nested too deeply. Numbers are left out of the promise, as
a number is not always written as it was read. A writer without blanks, with a reader for
what it writes, keeps the promise.
-/

namespace Value

/-- There are at most `n` arrays and objects around each other, and no numbers. -/
def Shallow : Nat → Value → Prop
  | _, null | _, bool _ | _, string _ => True
  | _, number _ | 0, array _ | 0, object _ => False
  | n + 1, array items => ∀ item ∈ items, Shallow n item
  | n + 1, object fields => ∀ field ∈ fields, Shallow n field.2

end Value

/-- How deep `serde_json` reads. -/
def nestingLimit : Nat := 127

/-- A writer and a reader of JSON texts. An object that is read has the fields of its text, the repeated ones
    among them. -/
structure JsonText where
  write : Value → String
  read : String → Except String Value
  read_write : ∀ value, value.Shallow nestingLimit → read (write value) = .ok value

namespace Compact

-- ---------------------------------------------------------------------------
-- Strings
-- ---------------------------------------------------------------------------

/-- The characters that are written as a letter after a backslash. -/
def letters : List (Char × Char) :=
  [('"', '"'), ('\\', '\\'), ('\n', 'n'), ('\r', 'r'), ('\t', 't'), ('\x08', 'b'), ('\x0c', 'f')]

/-- A character as it is written between quotes. -/
def escaped (c : Char) : Text :=
  match letters.lookup c with
  | some letter => ['\\', letter]
  | none =>
    if c.toNat < 0x20 then ['\\', 'u', '0', '0', Nat.digitChar (c.toNat / 16), Nat.digitChar (c.toNat % 16)] else [c]

def quoted (text : String) : Text := '"' :: text.toList.flatMap escaped ++ ['"']

/-- The character that a letter stands for after a backslash. -/
def unescape (letter : Char) : Option Char := (letters.find? fun entry => entry.2 = letter).map (·.1)

def hexValue (c : Char) : Option Nat := (List.range 16).find? fun n => Nat.digitChar n = c

/-- The characters up to the closing quote, and what comes after it. -/
def readQuoted : Text → Option (Text × Text)
  | [] => none
  | '"' :: rest => some ([], rest)
  | '\\' :: 'u' :: '0' :: '0' :: high :: low :: rest =>
    (hexValue high).bind fun high => (hexValue low).bind fun low =>
      (readQuoted rest).map fun r => (Char.ofNat (16 * high + low) :: r.1, r.2)
  | '\\' :: letter :: rest => (unescape letter).bind fun c => (readQuoted rest).map fun r => (c :: r.1, r.2)
  | c :: rest => (readQuoted rest).map fun r => (c :: r.1, r.2)

theorem unescape_letter : ∀ entry ∈ letters, entry.2 ≠ 'u' ∧ unescape entry.2 = some entry.1 := by decide

theorem hexValue_digitChar : ∀ n < 16, hexValue (Nat.digitChar n) = some n := by decide

theorem readQuoted_escaped (c : Char) (rest : Text) :
    readQuoted (escaped c ++ rest) = (readQuoted rest).map fun r => (c :: r.1, r.2) := by
  unfold escaped
  cases hletter : letters.lookup c with
  | some letter =>
    obtain ⟨before, after, hletters, _⟩ := List.lookup_eq_some_iff.mp hletter
    have hentry : (c, letter) ∈ letters := by rw [hletters]; exact List.mem_append_right before List.mem_cons_self
    obtain ⟨hother, hback⟩ := unescape_letter (c, letter) hentry
    simp only [List.cons_append, List.nil_append]
    rw [readQuoted, hback, Option.bind_some]
    exact fun _ _ _ h => absurd h hother
  | none =>
    simp only
    split
    · -- a control character
      have hhigh := hexValue_digitChar (c.toNat / 16) (by omega)
      have hlow := hexValue_digitChar (c.toNat % 16) (by omega)
      simp only [List.cons_append, List.nil_append]
      rw [readQuoted, hhigh, hlow]
      simp only [Option.bind_some, Nat.div_add_mod, Char.ofNat_toNat]
    · have hquote : c ≠ '"' := by rintro rfl; cases hletter
      have hbackslash : c ≠ '\\' := by rintro rfl; cases hletter
      rw [List.singleton_append, readQuoted]
      · exact hquote
      · exact fun _ _ _ h => absurd h hbackslash
      · exact fun _ _ h => absurd h hbackslash

theorem readQuoted_quoted (text rest : Text) :
    readQuoted (text.flatMap escaped ++ '"' :: rest) = some (text, rest) := by
  induction text with
  | nil => rfl
  | cons c text ih =>
    rw [List.flatMap_cons, List.append_assoc, readQuoted_escaped, ih]
    rfl

-- ---------------------------------------------------------------------------
-- Values
-- ---------------------------------------------------------------------------

mutual

def writeValue : Value → Text
  | .null => ['n', 'u', 'l', 'l']
  | .bool true => ['t', 'r', 'u', 'e']
  | .bool false => ['f', 'a', 'l', 's', 'e']
  | .number text => text.toList
  | .string text => quoted text
  | .array [] => ['[', ']']
  | .array (item :: rest) => '[' :: writeValue item ++ writeItems rest
  | .object [] => ['{', '}']
  | .object ((name, value) :: rest) => '{' :: quoted name ++ ':' :: writeValue value ++ writeFields rest

/-- What comes after an item, to the end of its array. -/
def writeItems : List Value → Text
  | [] => [']']
  | item :: rest => ',' :: writeValue item ++ writeItems rest

def writeFields : List (String × Value) → Text
  | [] => ['}']
  | (name, value) :: rest => ',' :: quoted name ++ ':' :: writeValue value ++ writeFields rest

end

mutual

def readValue : Nat → Text → Option (Value × Text)
  | 0, _ => none
  | fuel + 1, cs =>
    match cs with
    | 'n' :: 'u' :: 'l' :: 'l' :: rest => some (.null, rest)
    | 't' :: 'r' :: 'u' :: 'e' :: rest => some (.bool true, rest)
    | 'f' :: 'a' :: 'l' :: 's' :: 'e' :: rest => some (.bool false, rest)
    | '"' :: rest => (readQuoted rest).map fun r => (.string (String.ofList r.1), r.2)
    | '[' :: ']' :: rest => some (.array [], rest)
    | '[' :: rest =>
      (readValue fuel rest).bind fun item => (readItems fuel item.2).map fun r => (.array (item.1 :: r.1), r.2)
    | '{' :: '}' :: rest => some (.object [], rest)
    | '{' :: rest =>
      (readField fuel rest).bind fun field => (readFields fuel field.2).map fun r => (.object (field.1 :: r.1), r.2)
    | _ => none

def readItems : Nat → Text → Option (List Value × Text)
  | 0, _ => none
  | fuel + 1, cs =>
    match cs with
    | ']' :: rest => some ([], rest)
    | ',' :: rest =>
      (readValue fuel rest).bind fun item => (readItems fuel item.2).map fun r => (item.1 :: r.1, r.2)
    | _ => none

def readField : Nat → Text → Option ((String × Value) × Text)
  | 0, _ => none
  | fuel + 1, cs =>
    match cs with
    | '"' :: rest =>
      (readQuoted rest).bind fun name =>
        match name.2 with
        | ':' :: rest => (readValue fuel rest).map fun r => ((String.ofList name.1, r.1), r.2)
        | _ => none
    | _ => none

def readFields : Nat → Text → Option (List (String × Value) × Text)
  | 0, _ => none
  | fuel + 1, cs =>
    match cs with
    | '}' :: rest => some ([], rest)
    | ',' :: rest =>
      (readField fuel rest).bind fun field => (readFields fuel field.2).map fun r => (field.1 :: r.1, r.2)
    | _ => none

end

/-- The text that a value begins with does not close an array. -/
theorem writeValue_head {n : Nat} {value : Value} (h : value.Shallow n) :
    ∃ c rest, writeValue value = c :: rest ∧ c ≠ ']' := by
  cases value with
  | null => exact ⟨_, _, rfl, by decide⟩
  | bool value => cases value <;> exact ⟨_, _, rfl, by decide⟩
  | number text => cases n <;> exact h.elim
  | string text => exact ⟨_, _, rfl, by decide⟩
  | array items => cases items <;> exact ⟨'[', _, rfl, by decide⟩
  | object fields => cases fields <;> exact ⟨'{', _, rfl, by decide⟩

/-- What is written of a value is read back, whatever comes after it. -/
def ReadsBack (value : Value) : Prop :=
  ∀ fuel rest, (writeValue value).length ≤ fuel → readValue fuel (writeValue value ++ rest) = some (value, rest)

theorem readItems_writeItems {items : List Value} (h : ∀ item ∈ items, ReadsBack item) {fuel : Nat} {rest : Text}
    (hfuel : (writeItems items).length ≤ fuel) : readItems fuel (writeItems items ++ rest) = some (items, rest) := by
  induction items generalizing fuel with
  | nil =>
    cases fuel with
    | zero => cases hfuel
    | succ fuel => rfl
  | cons item items ih =>
    obtain ⟨hitem, hitems⟩ := List.forall_mem_cons.mp h
    rw [writeItems] at hfuel ⊢
    cases fuel with
    | zero => cases hfuel
    | succ fuel =>
      simp only [List.cons_append, List.length_cons, List.length_append] at hfuel
      have hone : readValue fuel (writeValue item ++ (writeItems items ++ rest)) = some (item, writeItems items ++ rest) :=
        hitem fuel _ (by omega)
      rw [List.cons_append, List.cons_append, List.append_assoc, readItems, hone, Option.bind_some, ih hitems (by omega)]
      rfl

theorem readField_written {name : String} {value : Value} (h : ReadsBack value) {fuel : Nat} {rest : Text}
    (hfuel : (quoted name ++ ':' :: writeValue value).length ≤ fuel) :
    readField fuel (quoted name ++ ':' :: (writeValue value ++ rest)) = some ((name, value), rest) := by
  cases fuel with
  | zero => cases hfuel
  | succ fuel =>
    simp only [quoted, List.length_cons, List.length_append] at hfuel
    have hvalue : readValue fuel (writeValue value ++ rest) = some (value, rest) := h fuel rest (by omega)
    have hname : readQuoted (name.toList.flatMap escaped ++ '"' :: ':' :: (writeValue value ++ rest)) =
        some (name.toList, ':' :: (writeValue value ++ rest)) := readQuoted_quoted _ _
    simp only [quoted, List.cons_append, List.append_assoc, List.nil_append]
    rw [readField, hname, Option.bind_some]
    simp only [hvalue, Option.map_some, String.ofList_toList]

theorem readFields_writeFields {fields : List (String × Value)} (h : ∀ field ∈ fields, ReadsBack field.2) {fuel : Nat}
    {rest : Text} (hfuel : (writeFields fields).length ≤ fuel) :
    readFields fuel (writeFields fields ++ rest) = some (fields, rest) := by
  induction fields generalizing fuel with
  | nil =>
    cases fuel with
    | zero => cases hfuel
    | succ fuel => rfl
  | cons field fields ih =>
    obtain ⟨name, value⟩ := field
    obtain ⟨hfield, hfields⟩ := List.forall_mem_cons.mp h
    rw [writeFields] at hfuel ⊢
    cases fuel with
    | zero => cases hfuel
    | succ fuel =>
      simp only [List.cons_append, List.append_assoc, List.length_cons, List.length_append] at hfuel ⊢
      have hone : readField fuel (quoted name ++ ':' :: (writeValue value ++ (writeFields fields ++ rest))) =
          some ((name, value), writeFields fields ++ rest) :=
        readField_written hfield (by simp only [List.length_append, List.length_cons]; omega)
      rw [readFields, hone, Option.bind_some, ih hfields (by omega)]
      rfl

namespace ReadsBack

theorem null : ReadsBack .null
  | 0, _, h => absurd h (by decide)
  | _ + 1, _, _ => rfl

theorem bool : ∀ value, ReadsBack (.bool value)
  | true, 0, _, h | false, 0, _, h => absurd h (by decide)
  | true, _ + 1, _, _ | false, _ + 1, _, _ => rfl

theorem string (text : String) : ReadsBack (.string text) := by
  intro fuel rest hfuel
  cases fuel with
  | zero => cases hfuel
  | succ fuel =>
    have hread : readQuoted (text.toList.flatMap escaped ++ '"' :: rest) = some (text.toList, rest) :=
      readQuoted_quoted _ _
    simp only [writeValue, quoted, List.cons_append, List.append_assoc, List.nil_append]
    rw [readValue, hread, Option.map_some, String.ofList_toList]

theorem array {items : List Value} (h : ∀ item ∈ items, ReadsBack item)
    (hheads : ∀ item ∈ items, ∃ c rest, writeValue item = c :: rest ∧ c ≠ ']') : ReadsBack (.array items) := by
  intro fuel rest hfuel
  cases fuel with
  | zero => cases items <;> cases hfuel
  | succ fuel =>
    cases items with
    | nil => rfl
    | cons item items =>
      obtain ⟨hitem, hitems⟩ := List.forall_mem_cons.mp h
      obtain ⟨c, tail, hhead, hopen⟩ := hheads item List.mem_cons_self
      rw [writeValue] at hfuel ⊢
      simp only [List.cons_append, List.append_assoc, List.length_cons, List.length_append] at hfuel ⊢
      have hone : readValue fuel (writeValue item ++ (writeItems items ++ rest)) = some (item, writeItems items ++ rest) :=
        hitem fuel _ (by omega)
      have hrest : readItems fuel (writeItems items ++ rest) = some (items, rest) :=
        readItems_writeItems hitems (by omega)
      have hnonempty : ∀ after, writeValue item ++ (writeItems items ++ rest) = ']' :: after → False := by
        intro after hclosed
        rw [hhead] at hclosed
        exact hopen (List.cons.inj hclosed).1
      rw [readValue, hone, Option.bind_some, hrest]
      · rfl
      · exact hnonempty

theorem object {fields : List (String × Value)} (h : ∀ field ∈ fields, ReadsBack field.2) : ReadsBack (.object fields) := by
  intro fuel rest hfuel
  cases fuel with
  | zero => cases fields <;> cases hfuel
  | succ fuel =>
    cases fields with
    | nil => rfl
    | cons field fields =>
      obtain ⟨name, value⟩ := field
      obtain ⟨hfield, hfields⟩ := List.forall_mem_cons.mp h
      rw [writeValue] at hfuel ⊢
      simp only [List.cons_append, List.append_assoc, List.length_cons, List.length_append] at hfuel ⊢
      have hone : readField fuel (quoted name ++ ':' :: (writeValue value ++ (writeFields fields ++ rest))) =
          some ((name, value), writeFields fields ++ rest) :=
        readField_written hfield (by simp only [List.length_append, List.length_cons]; omega)
      have hrest : readFields fuel (writeFields fields ++ rest) = some (fields, rest) :=
        readFields_writeFields hfields (by omega)
      have hnonempty : ∀ after, quoted name ++ ':' :: (writeValue value ++ (writeFields fields ++ rest)) = '}' :: after →
          False := nofun
      rw [readValue, hone, Option.bind_some, hrest]
      · rfl
      · exact hnonempty

end ReadsBack

/-- Shallow values are read back, by induction on how deeply they are nested. -/
theorem readsBack_of_shallow {n : Nat} {value : Value} (h : value.Shallow n) : ReadsBack value := by
  induction n generalizing value with
  | zero =>
    cases value with
    | null => exact .null
    | bool value => exact .bool value
    | string text => exact .string text
    | number | array | object => exact h.elim
  | succ n ih =>
    cases value with
    | null => exact .null
    | bool value => exact .bool value
    | string text => exact .string text
    | number => exact h.elim
    | array items => exact .array (fun item hitem => ih (h item hitem)) fun item hitem => writeValue_head (h item hitem)
    | object fields => exact .object fun field hfield => ih (h field hfield)

end Compact

/-- Texts without blanks, as `serde_json::to_string` writes them. -/
def compactJson : JsonText where
  write value := String.ofList (Compact.writeValue value)
  read text :=
    match Compact.readValue text.toList.length text.toList with
    | some (value, []) => .ok value
    | _ => .error "expected value"
  read_write value h := by
    have hread : Compact.readValue (Compact.writeValue value).length (Compact.writeValue value) = some (value, []) := by
      simpa using Compact.readsBack_of_shallow h _ [] le_rfl
    simp only [String.toList_ofList, hread]
