-- SUMMARY: The text form of the provider credentials: assignments of quoted values, read back as they were written.
import Supermemory.Library.Loop
import Supermemory.Text
import Mathlib.Tactic.Common

/-!
# Credentials as assignments

The provider credentials are kept as a text of assignments, one a line. Values are
written between single quotes, and a quote in a value is written as `'\''`: the text
that ends a quoted string of a shell, adds a quote, and opens the next one.
-/

namespace Credentials

/-- A path as its components. -/
abbrev FilePath := List String

/-- Failure while reading, authenticating, or writing encrypted credentials. The causes that the
    operating system gives are left out. -/
inductive CredentialError where
  | createDirectory (path : FilePath)
  | read (path : FilePath)
  | malformedFrame (path : FilePath)
  | authentication (path : FilePath)
  | utf8
  | malformedAssignment (line : Text)
  | noMachineIdentity
  | invalidKey
  | encrypt
  | write (path : FilePath)
  | random
  deriving DecidableEq

/-- Values by name, in the order of the names. -/
abbrev EnvValues := Std.ExtTreeMap Text Text compare

-- ---------------------------------------------------------------------------
-- Reading and writing
-- ---------------------------------------------------------------------------

/-- The text that stands for a quote in a quoted value. -/
def escapedQuote : Text := ['\'', '\\', '\'', '\'']

/-- Whether the text starts and ends with the character. -/
def enclosedBy (q : Char) (value : Text) : Prop := value.head? = some q ∧ value.getLast? = some q

instance : Decidable (enclosedBy q value) := inferInstanceAs (Decidable (_ ∧ _))

def unquote (value : Text) : Text :=
  let value := Text.trim value
  if 2 ≤ Text.utf8Len value ∧ (enclosedBy '\'' value ∨ enclosedBy '"' value) then
    Text.replace escapedQuote ['\''] value.tail.dropLast
  else value

/-- The bytes a name consists of. They are all characters of one byte. -/
def isNameChar (c : Char) : Bool := c.isUpper || c.isDigit || c = '_'

/-- The names `parse_env` accepts. -/
def IsName (name : Text) : Prop := name ≠ [] ∧ ∀ c ∈ name, isNameChar c = true

instance : Decidable (IsName name) :=
  haveI : Decidable (∀ c ∈ name, isNameChar c = true) := List.decidableBAll _ name
  inferInstanceAs (Decidable (_ ∧ _))

/-- One turn of the loop, on a trimmed line. -/
def parseAssignment (values : EnvValues) (line : Text) : Except CredentialError EnvValues :=
  if line = [] ∨ line.head? = some '#' then .ok values
  else
    match Text.splitOnce '=' line with
    | none => .error (.malformedAssignment line)
    | some (name, value) =>
      if IsName name then .ok (values.insert name (unquote value))
      else .error (.malformedAssignment line)

def parseEnv (contents : Text) : Except CredentialError EnvValues :=
  ((Text.lines contents).map Text.trim).foldlM parseAssignment ∅

/-- The line of one value. -/
def assignment (entry : Text × Text) : Text :=
  entry.1 ++ ['=', '\''] ++ Text.replace ['\''] escapedQuote entry.2 ++ ['\'']

def serializeEnv (values : EnvValues) : Text :=
  Text.join ['\n'] (values.toList.map assignment) ++ ['\n']

-- ---------------------------------------------------------------------------
-- What is written is read back
-- ---------------------------------------------------------------------------

/-- Values that `parse_env` returns: every name is one it accepts, and no value has a line feed. -/
def Storable (values : EnvValues) : Prop :=
  ∀ name value, values[name]? = some value → IsName name ∧ '\n' ∉ value

theorem isNameChar_visible {c : Char} (h : isNameChar c = true) : Text.isWhitespace c = false := by
  have hrange : 48 ≤ c.toNat ∧ c.toNat ≤ 95 := by
    delta isNameChar Char.isUpper Char.isDigit at h
    simp only [Bool.or_eq_true, Bool.and_eq_true, decide_eq_true_eq, ge_iff_le, UInt32.le_iff_toNat_le] at h
    rcases h with (⟨hlow, hhigh⟩ | ⟨hlow, hhigh⟩) | rfl
    · exact ⟨Nat.le_trans (by decide) hlow, Nat.le_trans hhigh (by decide)⟩
    · exact ⟨hlow, Nat.le_trans hhigh (by decide)⟩
    · decide
  simp only [Text.isWhitespace, Bool.or_eq_false_iff, Bool.and_eq_false_iff, decide_eq_false_iff_not,
    beq_eq_false_iff_ne]
  omega

theorem IsName.not_mem {name : Text} (h : IsName name) {c : Char} (hc : isNameChar c = false) :
    c ∉ name := by
  intro hmem
  rw [h.2 c hmem] at hc
  cases hc

section Assignment

variable {entry : Text × Text}

theorem assignment_head? (h : IsName entry.1) : (assignment entry).head? = entry.1.head? := by
  rw [assignment, List.append_assoc, List.append_assoc, List.head?_append_of_ne_nil _ h.1]

theorem IsName.head? {name : Text} {c : Char} (h : IsName name) (hc : name.head? = some c) :
    isNameChar c = true :=
  h.2 c (List.mem_of_head? hc)

theorem assignment_getLast? (entry : Text × Text) : (assignment entry).getLast? = some '\'' := by
  rw [assignment, List.getLast?_concat]

/-- The line of a value starts with its name and ends with a quote. -/
theorem assignment_trimmed (h : IsName entry.1) : Text.Trimmed (assignment entry) := by
  constructor
  · intro d hd
    rw [assignment_head? h] at hd
    exact isNameChar_visible (h.head? hd)
  · intro d hd
    rw [assignment_getLast?] at hd
    cases hd
    rfl

theorem newline_not_mem_assignment (h : IsName entry.1) (hvalue : '\n' ∉ entry.2) :
    '\n' ∉ assignment entry := by
  have hescaped : '\n' ∉ Text.replace ['\''] escapedQuote entry.2 := by
    intro hmem
    cases Text.mem_replaceLoop hmem with
    | inl hmem => exact absurd hmem (by decide)
    | inr hmem => exact hvalue hmem
  simp [assignment, h.not_mem (c := '\n') rfl, hescaped]

/-- Quoting keeps every character of a value: white space at its ends stays between the quotes,
    and the quotes inside are replaced back one by one. -/
theorem unquote_quoted (value : Text) :
    unquote ('\'' :: (Text.replace ['\''] escapedQuote value ++ ['\''])) = value := by
  have htrim : Text.trim ('\'' :: (Text.replace ['\''] escapedQuote value ++ ['\''])) =
      '\'' :: (Text.replace ['\''] escapedQuote value ++ ['\'']) := by
    apply Text.trim_eq_self
    constructor
    · intro c hc
      cases hc
      rfl
    · intro c hc
      rw [← List.cons_append, List.getLast?_concat] at hc
      cases hc
      rfl
  have hquoted : 2 ≤ Text.utf8Len ('\'' :: (Text.replace ['\''] escapedQuote value ++ ['\''])) ∧
      (enclosedBy '\'' ('\'' :: (Text.replace ['\''] escapedQuote value ++ ['\''])) ∨
        enclosedBy '"' ('\'' :: (Text.replace ['\''] escapedQuote value ++ ['\'']))) := by
    constructor
    · have hsize : Char.utf8Size '\'' = 1 := by decide
      simp only [Text.utf8Len, List.map_cons, List.map_append, List.map_nil, List.sum_cons,
        List.sum_append, List.sum_nil, hsize]
      omega
    · exact .inl ⟨rfl, by rw [← List.cons_append, List.getLast?_concat]⟩
  rw [unquote, htrim, if_pos hquoted, List.tail_cons, List.dropLast_concat]
  exact Text.replace_replace '\'' ['\\', '\'', '\''] value

theorem parseAssignment_assignment (h : IsName entry.1) (values : EnvValues) :
    parseAssignment values (assignment entry) = .ok (values.insert entry.1 entry.2) := by
  have hread : ¬ (assignment entry = [] ∨ (assignment entry).head? = some '#') := by
    rintro (hnil | hhash)
    · have hlast := assignment_getLast? entry
      rw [hnil] at hlast
      cases hlast
    · rw [assignment_head? h] at hhash
      exact absurd (h.head? hhash) (by decide)
  have hsplit : Text.splitOnce '=' (assignment entry) =
      some (entry.1, '\'' :: (Text.replace ['\''] escapedQuote entry.2 ++ ['\''])) := by
    rw [assignment, List.append_assoc, List.append_assoc]
    exact Text.splitOnce_append (h.not_mem rfl) _
  simp only [parseAssignment, if_neg hread, hsplit, if_pos h, unquote_quoted]

end Assignment

/-- Inserting the entries of a map one by one gives the map. -/
theorem foldl_insert_toList (values : EnvValues) :
    values.toList.foldl (fun read entry => read.insert entry.1 entry.2) ∅ = values := by
  have hmany : ∀ (entries : List (Text × Text)) (read : EnvValues),
      entries.foldl (fun read entry => read.insert entry.1 entry.2) read = read.insertMany entries := by
    intro entries
    induction entries with
    | nil => exact fun read => rfl
    | cons entry entries ih =>
      intro read
      rw [List.foldl_cons, ih, ← Std.ExtTreeMap.insertMany_cons]
  rw [hmany]
  apply Std.ExtTreeMap.ext_getElem?
  intro name
  cases hvalue : values[name]? with
  | some value =>
    exact Std.ExtTreeMap.getElem?_insertMany_list_of_mem Std.ReflCmp.compare_self
      Std.ExtTreeMap.distinct_keys_toList (Std.ExtTreeMap.mem_toList_iff_getElem?_eq_some.mpr hvalue)
  | none =>
    have habsent : (values.toList.map Prod.fst).contains name = false := by
      rw [Bool.eq_false_iff]
      intro hcontains
      obtain ⟨entry, hentry, rfl⟩ := List.mem_map.mp (List.contains_iff_mem.mp hcontains)
      rw [Std.ExtTreeMap.mem_toList_iff_getElem?_eq_some.mp hentry] at hvalue
      cases hvalue
    rw [Std.ExtTreeMap.getElem?_insertMany_list_of_contains_eq_false habsent]
    exact Std.ExtTreeMap.getElem?_empty

theorem parseEnv_serializeEnv {values : EnvValues} (h : Storable values) :
    parseEnv (serializeEnv values) = .ok values := by
  have hentries : ∀ entry ∈ values.toList, IsName entry.1 ∧ '\n' ∉ entry.2 := fun entry hentry =>
    h entry.1 entry.2 (Std.ExtTreeMap.mem_toList_iff_getElem?_eq_some.mp hentry)
  have hloop : ∀ (entries : List (Text × Text)) (read : EnvValues), (∀ entry ∈ entries, IsName entry.1) →
      (entries.map assignment).foldlM parseAssignment read =
        .ok (entries.foldl (fun read entry => read.insert entry.1 entry.2) read) := by
    intro entries
    induction entries with
    | nil => exact fun read _ => rfl
    | cons entry entries ih =>
      intro read hnames
      rw [List.map_cons, List.foldlM_cons, parseAssignment_assignment (hnames entry (by simp))]
      exact ih _ fun e he => hnames e (List.mem_cons_of_mem entry he)
  by_cases hnone : values.toList = []
  · -- no value: one blank line, which is skipped
    have hempty : values = ∅ := Std.ExtTreeMap.toList_eq_nil_iff.mp hnone
    rw [parseEnv, serializeEnv, hnone, hempty]
    rfl
  · have hlines : Text.lines (serializeEnv values) = values.toList.map assignment := by
      apply Text.lines_join (by simpa using hnone)
      · intro line hline
        obtain ⟨entry, hentry, rfl⟩ := List.mem_map.mp hline
        exact newline_not_mem_assignment (hentries entry hentry).1 (hentries entry hentry).2
      · intro line hline
        obtain ⟨entry, -, rfl⟩ := List.mem_map.mp hline
        rw [assignment_getLast?]
        decide
    have htrim : (values.toList.map assignment).map Text.trim = values.toList.map assignment := by
      rw [List.map_map]
      apply List.map_congr_left
      intro entry hentry
      exact Text.trim_eq_self (assignment_trimmed (hentries entry hentry).1)
    rw [parseEnv, hlines, htrim, hloop _ _ fun entry hentry => (hentries entry hentry).1,
      foldl_insert_toList]

theorem storable_empty : Storable ∅ := by
  intro name value h
  rw [Std.ExtTreeMap.getElem?_empty] at h
  cases h

theorem Storable.insert {values : EnvValues} {name value : Text} (h : Storable values) (hname : IsName name)
    (hvalue : '\n' ∉ value) : Storable (values.insert name value) := by
  intro name' value' hentry
  rw [Std.ExtTreeMap.getElem?_insert] at hentry
  by_cases heq : compare name name' = .eq
  · rw [if_pos heq] at hentry
    cases hentry
    rw [← Std.LawfulEqCmp.eq_of_compare heq]
    exact ⟨hname, hvalue⟩
  · rw [if_neg heq] at hentry
    exact h name' value' hentry

theorem newline_not_mem_unquote {value : Text} (h : '\n' ∉ value) : '\n' ∉ unquote value := by
  have htrim : '\n' ∉ Text.trim value := fun hmem => h ((Text.trim_sublist value).subset hmem)
  unfold unquote
  simp only
  split
  · intro hmem
    cases Text.mem_replaceLoop hmem with
    | inl hmem => exact absurd hmem (by decide)
    | inr hmem => exact htrim (List.mem_of_mem_tail ((List.dropLast_sublist _).subset hmem))
  · exact htrim

theorem Storable.parseAssignment {values values' : EnvValues} {line : Text} (h : Storable values)
    (hline : '\n' ∉ line) (hparse : parseAssignment values line = .ok values') : Storable values' := by
  unfold Credentials.parseAssignment at hparse
  split at hparse
  · cases hparse
    exact h
  · cases hsplit : Text.splitOnce '=' line with
    | none =>
      rw [hsplit] at hparse
      cases hparse
    | some parts =>
      simp only [hsplit] at hparse
      by_cases hname : IsName parts.1
      · rw [if_pos hname] at hparse
        cases hparse
        exact h.insert hname (newline_not_mem_unquote fun hmem => hline (Text.mem_of_splitOnce hsplit hmem))
      · rw [if_neg hname] at hparse
        cases hparse

/-- The values of an accepted text can be stored. -/
theorem storable_of_parseEnv {contents : Text} {values : EnvValues} (h : parseEnv contents = .ok values) :
    Storable values := by
  apply Loop.invariant_of_mem _ storable_empty h
  intro line hline read read' hread hparse
  obtain ⟨full, hfull, rfl⟩ := List.mem_map.mp hline
  have hnone : '\n' ∉ Text.trim full := fun hmem =>
    Text.not_mem_lines hfull ((Text.trim_sublist full).subset hmem)
  exact hread.parseAssignment hnone hparse

end Credentials
