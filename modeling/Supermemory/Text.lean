-- SUMMARY: Text as a list of characters: white space, trimming, splitting, and UTF-16 length.
import Mathlib.Algebra.Order.Ring.Nat
import Mathlib.Data.List.DropRight
import Mathlib.Data.List.Basic

/-!
# Text

A Rust string is a sequence of Unicode scalar values, which is what Lean's `Char`
ranges over. Text whose characters matter is kept as the list of its characters.
The functions carry the names of the `str` methods they model.
-/

/-- The characters of a string. -/
abbrev Text := List Char

namespace Text

/-- `char::is_whitespace`: the Unicode property `White_Space`. -/
def isWhitespace (c : Char) : Bool :=
  let n := c.toNat
  (0x09 ≤ n && n ≤ 0x0d) || n == 0x20 || n == 0x85 || n == 0xa0 || n == 0x1680 ||
    (0x2000 ≤ n && n ≤ 0x200a) || n == 0x2028 || n == 0x2029 || n == 0x202f ||
    n == 0x205f || n == 0x3000

/-- `char::len_utf16`. -/
def lenUtf16 (c : Char) : Nat := if c.toNat < 0x10000 then 1 else 2

/-- Number of UTF-16 code units. -/
def utf16Len (t : Text) : Nat := (t.map lenUtf16).sum

/-- `str::trim`. -/
def trim (t : Text) : Text := (t.dropWhile isWhitespace).rdropWhile isWhitespace

/-- `str::split_whitespace`. -/
def splitWhitespace (t : Text) : List Text := (t.splitOnP isWhitespace).filter (· ≠ [])

/-- Removes the carriage return of a `\r\n` line ending. -/
def stripCarriageReturn (line : Text) : Text :=
  if line.getLast? = some '\r' then line.dropLast else line

/-- `str::lines`: a line ends with `\n` or `\r\n`, and the last line ending is optional. -/
def lines (t : Text) : List Text :=
  let parts := t.splitOn '\n'
  parts.dropLast.map stripCarriageReturn ++ (parts.getLast?.toList.filter (· ≠ []))

/-- `<[&str]>::join`. -/
def join (separator : Text) (parts : List Text) : Text := List.intercalate separator parts

/-- `str::contains`. -/
def contains (t pattern : Text) : Bool := t.tails.any (pattern.isPrefixOf ·)

/-- Number of UTF-8 bytes, which `str::len` returns. -/
def utf8Len (t : Text) : Nat := (t.map Char.utf8Size).sum

/-- `str::split_once` at a character. -/
def splitOnce (separator : Char) : Text → Option (Text × Text)
  | [] => none
  | c :: rest =>
    if c = separator then some ([], rest)
    else (splitOnce separator rest).map fun parts => (c :: parts.1, parts.2)

/-- The replacing loop, over the characters of the last match that are still to be skipped. -/
def replaceLoop (pattern replacement : Text) : Nat → Text → Text
  | _, [] => []
  | skip + 1, _ :: rest => replaceLoop pattern replacement skip rest
  | 0, c :: rest =>
    if pattern.isPrefixOf (c :: rest) then
      replacement ++ replaceLoop pattern replacement (pattern.length - 1) rest
    else c :: replaceLoop pattern replacement 0 rest

/-- `str::replace` of a pattern that is not empty. -/
def replace (pattern replacement t : Text) : Text := replaceLoop pattern replacement 0 t

/-- The text with all white space removed. -/
def squeeze (t : Text) : Text := t.filter (fun c => !isWhitespace c)

/-- A text without leading or trailing white space. -/
def Trimmed (t : Text) : Prop :=
  (∀ c ∈ t.head?, isWhitespace c = false) ∧ (∀ c ∈ t.getLast?, isWhitespace c = false)

/-! ## UTF-16 length -/

@[simp] theorem utf16Len_nil : utf16Len [] = 0 := rfl

@[simp] theorem utf16Len_cons (c : Char) (t : Text) : utf16Len (c :: t) = lenUtf16 c + utf16Len t := by
  simp [utf16Len]

@[simp] theorem utf16Len_append (t u : Text) : utf16Len (t ++ u) = utf16Len t + utf16Len u := by
  simp [utf16Len]

theorem lenUtf16_le (c : Char) : lenUtf16 c ≤ 2 := by
  unfold lenUtf16; split <;> omega

theorem utf16Len_le_of_sublist {t u : Text} (h : t.Sublist u) : utf16Len t ≤ utf16Len u := by
  induction h with
  | slnil => rfl
  | cons c _ ih => simp; omega
  | cons_cons c _ ih => simp; omega

/-! ## Trimming -/

theorem trim_sublist (t : Text) : (trim t).Sublist t :=
  (List.rdropWhile_prefix _ _).sublist.trans (List.dropWhile_sublist _)

theorem utf16Len_trim_le (t : Text) : utf16Len (trim t) ≤ utf16Len t :=
  utf16Len_le_of_sublist (trim_sublist t)

theorem trim_trimmed (t : Text) : Trimmed (trim t) := by
  constructor
  · intro c hc
    have hne : trim t ≠ [] := by rintro h; simp [h] at hc
    have hpre : trim t <+: t.dropWhile isWhitespace := List.rdropWhile_prefix _ _
    have hdrop : t.dropWhile isWhitespace ≠ [] := fun h => hne (List.prefix_nil.mp (h ▸ hpre))
    have hhead := List.head_dropWhile_not isWhitespace hdrop
    rw [← hpre.head hne] at hhead
    rw [List.head?_eq_some_head hne, Option.mem_some_iff] at hc
    exact hc ▸ hhead
  · intro c hc
    have hne : trim t ≠ [] := by rintro h; simp [h] at hc
    have hlast := List.rdropWhile_last_not isWhitespace _ hne
    rw [List.getLast?_eq_some_getLast hne, Option.mem_some_iff] at hc
    rw [Bool.not_eq_true] at hlast
    exact hc ▸ hlast

theorem trim_eq_self {t : Text} (h : Trimmed t) : trim t = t := by
  have hdrop : t.dropWhile isWhitespace = t := by
    cases t with
    | nil => rfl
    | cons c t => simp [h.1 c rfl]
  rw [trim, hdrop, List.rdropWhile_eq_self_iff]
  intro hne
  simp [h.2 _ (List.getLast?_eq_some_getLast hne)]

/-! ## Removing white space -/

@[simp] theorem squeeze_nil : squeeze [] = [] := rfl

@[simp] theorem squeeze_append (t u : Text) : squeeze (t ++ u) = squeeze t ++ squeeze u := by
  simp [squeeze]

theorem squeeze_eq_nil {t : Text} : squeeze t = [] ↔ ∀ c ∈ t, isWhitespace c = true := by
  simp [squeeze]

theorem squeeze_dropWhile (t : Text) : squeeze (t.dropWhile isWhitespace) = squeeze t := by
  induction t with
  | nil => rfl
  | cons c t ih =>
    cases hc : isWhitespace c with
    | true => simpa [hc, squeeze] using ih
    | false => simp [hc]

@[simp] theorem squeeze_trim (t : Text) : squeeze (trim t) = squeeze t := by
  have hreverse : ∀ u : Text, squeeze u.reverse = (squeeze u).reverse := by simp [squeeze]
  rw [trim, List.rdropWhile, hreverse, squeeze_dropWhile, hreverse, List.reverse_reverse,
    squeeze_dropWhile]

theorem trim_eq_nil {t : Text} : trim t = [] ↔ squeeze t = [] := by
  constructor
  · intro h
    rw [← squeeze_trim, h, squeeze_nil]
  · intro h
    have hws := squeeze_eq_nil.mp (squeeze_trim t ▸ h)
    cases ht : trim t with
    | nil => rfl
    | cons c u =>
      have := (trim_trimmed t).1 c (by simp [ht])
      simp [hws c (by simp [ht])] at this

theorem utf16Len_squeeze_le (t : Text) : utf16Len (squeeze t) ≤ utf16Len t :=
  utf16Len_le_of_sublist List.filter_sublist

/-! ## Words -/

theorem splitOnP_size (p : Char → Bool) (t : Text) :
    ((t.splitOnP p).map (·.length + 1)).sum = t.length + 1 := by
  induction t with
  | nil => rfl
  | cons c t ih =>
    rw [List.splitOnP_cons_eq_if_modifyHead]
    split
    · simp only [List.map_cons, List.sum_cons, ih, List.length_cons, List.length_nil]; omega
    · obtain ⟨w, ws, hws⟩ := List.exists_cons_of_ne_nil (List.splitOnP_ne_nil p t)
      simp only [hws, List.map_cons, List.sum_cons] at ih
      simp only [hws, List.modifyHead_cons, List.map_cons, List.sum_cons, List.length_cons]
      omega

/-- The words of a text and one separator after each of them fit the text and one more. -/
theorem splitWhitespace_size (t : Text) :
    ((splitWhitespace t).map (·.length + 1)).sum ≤ t.length + 1 := by
  rw [← splitOnP_size isWhitespace t, splitWhitespace]
  generalize t.splitOnP isWhitespace = parts
  induction parts with
  | nil => rfl
  | cons w parts ih =>
    rw [List.filter_cons]
    split <;> simp only [List.map_cons, List.sum_cons] <;> omega

theorem squeeze_splitOnP (t : Text) : (t.splitOnP isWhitespace).flatten = squeeze t := by
  induction t with
  | nil => rfl
  | cons c t ih =>
    rw [List.splitOnP_cons_eq_if_modifyHead]
    cases hc : isWhitespace c with
    | true => simpa [squeeze, hc] using ih
    | false =>
      obtain ⟨w, ws, hws⟩ := List.exists_cons_of_ne_nil (List.splitOnP_ne_nil isWhitespace t)
      simp only [hws, List.flatten_cons] at ih
      simpa [hws, squeeze, hc] using ih

theorem flatten_splitWhitespace (t : Text) : (splitWhitespace t).flatten = squeeze t := by
  rw [← squeeze_splitOnP, splitWhitespace]
  exact List.flatten_filter_ne_nil

theorem splitWhitespace_ne_nil {t word : Text} (h : word ∈ splitWhitespace t) : word ≠ [] := by
  simpa using (List.mem_filter.mp h).2

/-- A word holds no white space. -/
theorem squeeze_word {t word : Text} (h : word ∈ splitWhitespace t) : squeeze word = word := by
  rw [squeeze, List.filter_eq_self]
  intro c hc
  have hmem : c ∈ squeeze t := by
    rw [← flatten_splitWhitespace]
    exact List.mem_flatten.mpr ⟨word, h, hc⟩
  exact (List.mem_filter.mp hmem).2

/-! ## Parts of a text -/

theorem infix_dropWhile {v t : Text} (h : v <:+: t) (hhead : ∀ c ∈ v.head?, isWhitespace c = false) :
    v <:+: t.dropWhile isWhitespace := by
  obtain ⟨front, back, rfl⟩ := h
  cases v with
  | nil => exact List.nil_infix
  | cons c v =>
    have hkept : (c :: v ++ back).dropWhile isWhitespace = c :: v ++ back := by
      simp [hhead c rfl]
    rw [List.append_assoc, List.dropWhile_append, hkept]
    by_cases hfront : (front.dropWhile isWhitespace).isEmpty = true
    · rw [if_pos hfront]
      exact (List.prefix_append _ _).isInfix
    · rw [if_neg hfront, ← List.append_assoc]
      exact List.infix_append _ _ _

/-- A trimmed part of a text survives trimming. -/
theorem Trimmed.infix_trim {v t : Text} (h : Trimmed v) (hwithin : v <:+: t) : v <:+: trim t := by
  have hdrop : v <:+: t.dropWhile isWhitespace := infix_dropWhile hwithin h.1
  have hreverse : v.reverse <:+: (t.dropWhile isWhitespace).reverse := List.reverse_infix.mpr hdrop
  have hlast : ∀ c ∈ v.reverse.head?, isWhitespace c = false := by
    intro c hc
    exact h.2 c (by rwa [List.head?_reverse] at hc)
  have := List.reverse_infix.mpr (infix_dropWhile hreverse hlast)
  rwa [List.reverse_reverse] at this

theorem trim_within (t : Text) : trim t <:+: t :=
  (List.rdropWhile_prefix _ _).isInfix.trans (List.dropWhile_suffix _).isInfix

theorem trim_mono {u t : Text} (h : u <:+: t) : trim u <:+: trim t :=
  (trim_trimmed u).infix_trim ((trim_within u).trans h)

theorem join_append (separator : Text) {ts us : List Text} (hts : ts ≠ []) (hus : us ≠ []) :
    join separator (ts ++ us) = join separator ts ++ separator ++ join separator us := by
  induction ts with
  | nil => exact absurd rfl hts
  | cons t ts ih =>
    cases ts with
    | nil =>
      rw [List.singleton_append, join, List.intercalate_cons_of_ne_nil hus]
      simp [join]
    | cons u ts =>
      have := ih (by simp)
      simp only [join, List.cons_append, List.intercalate_cons_cons] at this ⊢
      rw [this]
      simp only [List.append_assoc]

theorem join_within (separator : Text) {ts us : List Text} (h : ts <:+: us) :
    join separator ts <:+: join separator us := by
  obtain ⟨front, back, rfl⟩ := h
  cases ts with
  | nil => exact List.nil_infix
  | cons t ts =>
    have hback : join separator (t :: ts) <+: join separator (t :: ts ++ back) := by
      cases back with
      | nil => simp
      | cons b back =>
        rw [join_append separator (by simp) (by simp), List.append_assoc]
        exact List.prefix_append _ _
    refine hback.isInfix.trans ?_
    cases front with
    | nil => exact List.infix_refl _
    | cons f front =>
      have hrest : t :: ts ++ back ≠ [] := List.cons_ne_nil _ _
      rw [List.append_assoc, join_append separator (List.cons_ne_nil f front) hrest]
      exact (List.suffix_append _ _).isInfix

/-! ## Splitting and replacing -/

theorem splitOnce_append {separator : Char} {t : Text} (h : separator ∉ t) (u : Text) :
    splitOnce separator (t ++ separator :: u) = some (t, u) := by
  induction t with
  | nil => simp [splitOnce]
  | cons c t ih =>
    have hc : c ≠ separator := fun heq => h (heq ▸ List.mem_cons_self ..)
    have ht : separator ∉ t := fun hmem => h (List.mem_cons_of_mem c hmem)
    rw [List.cons_append, splitOnce, if_neg hc, ih ht]
    rfl

theorem mem_of_splitOnce {separator c : Char} {t name value : Text}
    (h : splitOnce separator t = some (name, value)) (hc : c ∈ value) : c ∈ t := by
  induction t generalizing name value with
  | nil => cases h
  | cons d t ih =>
    rw [splitOnce] at h
    by_cases hd : d = separator
    · rw [if_pos hd] at h
      cases h
      exact List.mem_cons_of_mem d hc
    · rw [if_neg hd] at h
      obtain ⟨parts, hparts, heq⟩ := Option.map_eq_some_iff.mp h
      cases heq
      exact List.mem_cons_of_mem d (ih hparts hc)

theorem mem_replaceLoop {pattern replacement t : Text} {skip : Nat} {c : Char}
    (h : c ∈ replaceLoop pattern replacement skip t) : c ∈ replacement ∨ c ∈ t := by
  induction t generalizing skip with
  | nil => cases h
  | cons d t ih =>
    cases skip with
    | succ skip => exact (ih h).imp_right (List.mem_cons_of_mem d)
    | zero =>
      rw [replaceLoop] at h
      split at h
      · cases List.mem_append.mp h with
        | inl hreplaced => exact .inl hreplaced
        | inr hrest => exact (ih hrest).imp_right (List.mem_cons_of_mem d)
      · cases h with
        | head => exact .inr (List.mem_cons_self ..)
        | tail _ hrest => exact (ih hrest).imp_right (List.mem_cons_of_mem d)

/-- The rest of a match is skipped. -/
theorem replaceLoop_skip (pattern replacement matched t : Text) :
    replaceLoop pattern replacement matched.length (matched ++ t) =
      replaceLoop pattern replacement 0 t := by
  induction matched with
  | nil => rfl
  | cons c matched ih => exact ih

/-- Replacing single characters puts the replacements one after another. -/
theorem replace_char_cons (q : Char) (replacement : Text) (c : Char) (t : Text) :
    replace [q] replacement (c :: t) =
      (if c = q then replacement else [c]) ++ replace [q] replacement t := by
  rw [replace, replaceLoop]
  by_cases h : c = q
  · subst h
    simp [replace]
  · have hne : ¬ [q].isPrefixOf (c :: t) = true := by simp [Ne.symm h]
    rw [if_neg hne, if_neg h]
    rfl

/-- A replacement that starts with the replaced character is undone by replacing it back: no
    other character of the result starts a match, so the matches are the replacements. -/
theorem replace_replace (q : Char) (more t : Text) :
    replace (q :: more) [q] (replace [q] (q :: more) t) = t := by
  induction t with
  | nil => rfl
  | cons c t ih =>
    rw [replace_char_cons]
    by_cases h : c = q
    · subst h
      have hmatch : (c :: more).isPrefixOf (c :: (more ++ replace [c] (c :: more) t)) = true :=
        List.isPrefixOf_iff_prefix.mpr ⟨_, rfl⟩
      rw [if_pos rfl, replace, List.cons_append, replaceLoop, if_pos hmatch, List.length_cons,
        Nat.add_sub_cancel, replaceLoop_skip]
      exact congrArg (c :: ·) ih
    · have hnone : ¬ (q :: more).isPrefixOf (c :: replace [q] (q :: more) t) = true := by
        simp [Ne.symm h]
      rw [if_neg h, List.singleton_append, replace, replaceLoop, if_neg hnone]
      exact congrArg (c :: ·) ih

/-! ## Lines -/

theorem not_mem_splitOn {separator : Char} {t part : Text} (h : part ∈ t.splitOn separator) :
    separator ∉ part := by
  induction t generalizing part with
  | nil =>
    rw [List.splitOn_nil, List.mem_singleton] at h
    rw [h]
    exact List.not_mem_nil
  | cons c t ih =>
    rw [List.splitOn_cons_eq_if_modifyHead] at h
    by_cases hc : c = separator
    · rw [if_pos (beq_iff_eq.mpr hc)] at h
      cases h with
      | head => exact List.not_mem_nil
      | tail _ h => exact ih h
    · rw [if_neg (by simpa using hc)] at h
      obtain ⟨first, rest, hparts⟩ := List.exists_cons_of_ne_nil (List.splitOn_ne_nil separator t)
      rw [hparts, List.modifyHead_cons] at h
      cases h with
      | head =>
        intro hmem
        cases hmem with
        | head => exact hc rfl
        | tail _ hmem => exact ih (hparts ▸ List.mem_cons_self ..) hmem
      | tail _ h => exact ih (hparts ▸ List.mem_cons_of_mem first h)

theorem not_mem_lines {t line : Text} (h : line ∈ lines t) : '\n' ∉ line := by
  cases List.mem_append.mp h with
  | inl h =>
    obtain ⟨part, hpart, rfl⟩ := List.mem_map.mp h
    have hnone := not_mem_splitOn ((List.dropLast_sublist _).subset hpart)
    unfold stripCarriageReturn
    split
    · exact fun hmem => hnone ((List.dropLast_sublist part).subset hmem)
    · exact hnone
  | inr h =>
    have hlast := (List.mem_filter.mp h).1
    exact not_mem_splitOn (List.mem_of_getLast? (Option.mem_toList.mp hlast))

/-- Lines that end with a line feed each are read back, unless one ends with a carriage return. -/
theorem lines_join {ls : List Text} (hne : ls ≠ []) (h : ∀ line ∈ ls, '\n' ∉ line)
    (hreturn : ∀ line ∈ ls, line.getLast? ≠ some '\r') :
    lines (join ['\n'] ls ++ ['\n']) = ls := by
  have hall : join ['\n'] ls ++ ['\n'] = join ['\n'] (ls ++ [[]]) := by
    rw [join_append ['\n'] hne (List.cons_ne_nil _ _)]
    simp [join]
  have hparts : (join ['\n'] (ls ++ [[]])).splitOn '\n' = ls ++ [[]] := by
    refine List.splitOn_intercalate '\n' ?_ (by simp)
    exact List.forall_mem_append.mpr ⟨h, by simp⟩
  have hstrip : ls.map stripCarriageReturn = ls := by
    refine (List.map_congr_left fun line hline => ?_).trans (List.map_id ls)
    rw [stripCarriageReturn, if_neg (hreturn line hline)]
    rfl
  rw [lines, hall, hparts]
  simp [hstrip]

end Text
