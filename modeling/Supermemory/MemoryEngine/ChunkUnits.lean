-- SUMMARY: What the chunker packs: sentences, words and sections keep every character, and joined units have the length the code computes.
import Supermemory.MemoryEngine.Chunking

/-!
# Chunking units

The lists the packing loops run over: the sentences of a text, the words of a
sentence and the sections of a Markdown text. Each of them keeps every character
of the text that is not white space, in order, and consists of trimmed, non-blank
texts.
-/

namespace Chunking

/-- A text that `push_trimmed` pushes. -/
def Solid (t : Text) : Prop := t ≠ [] ∧ Text.Trimmed t

theorem Solid.squeeze_ne_nil {t : Text} (h : Solid t) : Text.squeeze t ≠ [] := by
  intro hs
  exact h.1 (Text.trim_eq_self h.2 ▸ Text.trim_eq_nil.mpr hs)

theorem solid_trim {t : Text} (h : Text.trim t ≠ []) : Solid (Text.trim t) :=
  ⟨h, Text.trim_trimmed t⟩

/-- The characters of a list of texts that are not white space. -/
def content (ts : List Text) : Text := Text.squeeze ts.flatten

@[simp] theorem content_nil : content [] = [] := rfl

@[simp] theorem content_cons (t : Text) (ts : List Text) :
    content (t :: ts) = Text.squeeze t ++ content ts := by
  simp [content]

@[simp] theorem content_append (ts us : List Text) : content (ts ++ us) = content ts ++ content us := by
  simp [content]

theorem content_singleton (t : Text) : content [t] = Text.squeeze t := by simp

/-! ## `push_trimmed` -/

theorem content_pushTrimmed (target : List Text) (value : Text) :
    content (pushTrimmed target value) = content target ++ Text.squeeze value := by
  unfold pushTrimmed
  split
  · rename_i h
    simp [Text.trim_eq_nil.mp h]
  · simp

theorem solid_pushTrimmed {target : List Text} {value : Text} (h : ∀ t ∈ target, Solid t) :
    ∀ t ∈ pushTrimmed target value, Solid t := by
  intro t ht
  unfold pushTrimmed at ht
  split at ht
  · exact h t ht
  · rename_i hne
    rcases List.mem_append.mp ht with ht | ht
    · exact h t ht
    · obtain rfl := List.mem_singleton.mp ht
      exact solid_trim hne

/-! ## Sentences -/

theorem splitSentencesLoop_content (text : Text) (result : List Text) (current : Text) :
    content (splitSentencesLoop text result current) =
      content result ++ Text.squeeze (current ++ text) := by
  induction text generalizing result current with
  | nil =>
    rw [splitSentencesLoop]
    split
    · rename_i h
      simp [h]
    · rw [content_pushTrimmed, List.append_nil]
  | cons c rest ih =>
    rw [splitSentencesLoop]
    split
    · rw [ih, content_pushTrimmed, List.append_assoc, ← Text.squeeze_append]
      simp only [List.nil_append, List.append_assoc, List.singleton_append]
    · rw [ih]
      simp only [List.append_assoc, List.singleton_append]

theorem content_splitSentences (text : Text) : content (splitSentences text) = Text.squeeze text :=
  splitSentencesLoop_content text [] []

theorem splitSentencesLoop_solid {text : Text} {result : List Text} {current : Text}
    (h : ∀ t ∈ result, Solid t) : ∀ t ∈ splitSentencesLoop text result current, Solid t := by
  induction text generalizing result current with
  | nil =>
    rw [splitSentencesLoop]
    split
    · exact h
    · exact solid_pushTrimmed h
  | cons c rest ih =>
    rw [splitSentencesLoop]
    split
    · exact ih (solid_pushTrimmed h)
    · exact ih h

theorem solid_splitSentences (text : Text) : ∀ t ∈ splitSentences text, Solid t :=
  splitSentencesLoop_solid (by simp)

/-! ## Words -/

theorem content_splitWhitespace (text : Text) :
    content (Text.splitWhitespace text) = Text.squeeze text := by
  rw [content, Text.flatten_splitWhitespace]
  simp [Text.squeeze]

theorem solid_splitWhitespace {text word : Text} (h : word ∈ Text.splitWhitespace text) :
    Solid word := by
  have hws : ∀ c ∈ word, Text.isWhitespace c = false := by
    have := Text.squeeze_word h
    rw [Text.squeeze, List.filter_eq_self] at this
    simpa using this
  exact ⟨Text.splitWhitespace_ne_nil h, fun c hc => hws c (List.mem_of_head? hc),
    fun c hc => hws c (List.mem_of_getLast? hc)⟩

/-! ## Markdown sections -/

theorem squeeze_join {separator : Text} (h : Text.squeeze separator = []) (parts : List Text) :
    Text.squeeze (Text.join separator parts) = content parts := by
  induction parts with
  | nil => rfl
  | cons t parts ih =>
    cases parts with
    | nil => simp [Text.join]
    | cons u parts =>
      simp only [Text.join, List.intercalate_cons_cons, Text.squeeze_append, h] at ih ⊢
      simp [ih]

theorem content_splitOn (text : Text) : content (text.splitOn '\n') = Text.squeeze text := by
  have h : Text.squeeze (Text.join ['\n'] (text.splitOn '\n')) = content (text.splitOn '\n') :=
    squeeze_join (by decide) _
  rw [← h, Text.join, List.intercalate_splitOn]

theorem markdownSectionsLoop_content (lines sections current : List Text) (fenced : Bool) :
    content (markdownSectionsLoop lines sections current fenced) =
      content sections ++ content (current ++ lines) := by
  have hclose : ∀ sections current : List Text,
      content (if current = [] then sections
        else pushTrimmed sections (Text.join ['\n'] current)) = content sections ++ content current := by
    intro sections current
    split
    · rename_i h
      simp [h]
    · rw [content_pushTrimmed, squeeze_join (by decide)]
  induction lines generalizing sections current fenced with
  | nil => rw [markdownSectionsLoop, hclose, List.append_nil]
  | cons line rest ih =>
    rw [markdownSectionsLoop]
    split
    · rw [ih]
      simp
    · split
      · rw [ih, hclose]
        simp
      · rw [ih]
        simp

theorem content_markdownSections (text : Text) :
    content (markdownSections text) = Text.squeeze text := by
  rw [markdownSections, markdownSectionsLoop_content]
  simp [content_splitOn]

/-- A text with some visible character has a section. -/
theorem markdownSections_ne_nil {text : Text} (h : Text.trim text ≠ []) :
    markdownSections text ≠ [] := by
  intro hnil
  have := content_markdownSections text
  rw [hnil, content_nil] at this
  exact h (Text.trim_eq_nil.mpr this.symm)

/-! ## Joined units -/

theorem utf16Len_join (separator : Text) (units : List Text) :
    Text.utf16Len (Text.join separator units) = joinedLen units separator := by
  induction units with
  | nil => simp [Text.join, joinedLen]
  | cons t units ih =>
    cases units with
    | nil => simp [Text.join, joinedLen]
    | cons u units =>
      simp only [Text.join, joinedLen, List.intercalate_cons_cons, Text.utf16Len_append,
        List.map_cons, List.sum_cons, List.length_cons, Nat.add_sub_cancel] at ih ⊢
      rw [ih, Nat.succ_mul]
      omega

theorem joinedLen_append_singleton (pending : List Text) (separator unit : Text) :
    joinedLen (pending ++ [unit]) separator = candidateLen pending separator unit := by
  cases pending with
  | nil => simp [joinedLen, candidateLen]
  | cons t pending =>
    simp only [joinedLen, candidateLen, List.map_append, List.map_cons, List.map_nil, List.sum_append,
      List.sum_cons, List.sum_nil, List.length_append, List.length_cons, List.length_nil,
      List.cons_append, Nat.add_sub_cancel, reduceCtorEq, if_false, Nat.add_mul]
    omega

theorem joinedLen_cons_ge (unit : Text) (units : List Text) (separator : Text) :
    joinedLen units separator ≤ joinedLen (unit :: units) separator := by
  have : (units.length - 1) * Text.utf16Len separator ≤ units.length * Text.utf16Len separator :=
    Nat.mul_le_mul_right _ (Nat.sub_le _ _)
  simp only [joinedLen, List.map_cons, List.sum_cons, List.length_cons, Nat.add_sub_cancel]
  omega

theorem joinedLen_suffix {units all : List Text} (h : units <:+ all) (separator : Text) :
    joinedLen units separator ≤ joinedLen all separator := by
  obtain ⟨front, rfl⟩ := h
  induction front with
  | nil => rfl
  | cons t front ih => exact ih.trans (joinedLen_cons_ge t _ separator)

theorem joinedLen_mem {unit : Text} {units : List Text} (h : unit ∈ units) (separator : Text) :
    Text.utf16Len unit ≤ joinedLen units separator := by
  obtain ⟨front, back, rfl⟩ := List.append_of_mem h
  refine le_trans ?_ (joinedLen_suffix ⟨front, rfl⟩ separator)
  simp only [joinedLen, List.map_cons, List.sum_cons]
  omega

theorem content_len_le (units : List Text) (separator : Text) :
    Text.utf16Len (content units) ≤ joinedLen units separator := by
  have hsum : Text.utf16Len (content units) ≤ (units.map Text.utf16Len).sum := by
    induction units with
    | nil => rfl
    | cons t units ih =>
      have := Text.utf16Len_squeeze_le t
      simp only [content_cons, Text.utf16Len_append, List.map_cons, List.sum_cons]
      omega
  exact hsum.trans (Nat.le_add_right _ _)

/-! ## Overlap -/

theorem retainOverlap_suffix (pending : List Text) (separator : Text) (limit : Nat) :
    retainOverlap pending separator limit <:+ pending := by
  induction pending with
  | nil => exact List.suffix_refl _
  | cons unit rest ih =>
    rw [retainOverlap]
    split
    · exact ih.trans (List.suffix_cons unit rest)
    · exact List.suffix_refl _

theorem retainOverlap_le (pending : List Text) (separator : Text) (limit : Nat) :
    joinedLen (retainOverlap pending separator limit) separator ≤ overlapBudget limit := by
  induction pending with
  | nil => simp [retainOverlap, joinedLen]
  | cons unit rest ih =>
    rw [retainOverlap]
    split
    · exact ih
    · omega

theorem carryOver_suffix (pending : List Text) (separator unit : Text) (limit : Nat) :
    carryOver pending separator unit limit <:+ pending := by
  unfold carryOver
  simp only
  split
  · exact List.nil_suffix
  · exact retainOverlap_suffix pending separator limit

theorem carryOver_budget (pending : List Text) (separator unit : Text) (limit : Nat) :
    joinedLen (carryOver pending separator unit limit) separator ≤ overlapBudget limit := by
  unfold carryOver
  simp only
  split
  · simp [joinedLen]
  · exact retainOverlap_le pending separator limit

/-- The unit fits behind the overlap that is carried over to it. -/
theorem carryOver_fits (pending : List Text) (separator : Text) {unit : Text} {limit : Nat}
    (h : Text.utf16Len unit ≤ limit) :
    candidateLen (carryOver pending separator unit limit) separator unit ≤ limit := by
  unfold carryOver
  simp only
  split
  · simpa [candidateLen, joinedLen] using h
  · omega

/-! ## One turn of the packing loop -/

/-- The pieces of a unit that is longer than a chunk. -/
def splitUnit (unit : Text) (limit : Nat) : List Text :=
  if (Text.splitWhitespace unit).length ≤ 1 then fixedWidth unit limit
  else chunkUnitsLoop [' '] limit (Text.splitWhitespace unit) [] []

section Turn

variable {separator unit : Text} {rest chunks pending : List Text} {limit : Nat}

theorem chunkUnitsLoop_long (hblank : ¬ Text.trim unit = []) (hlong : limit < Text.utf16Len unit) :
    chunkUnitsLoop separator limit (unit :: rest) chunks pending =
      chunkUnitsLoop separator limit rest
        (flushUnits chunks pending separator limit ++ splitUnit unit limit) [] := by
  rw [chunkUnitsLoop, if_neg hblank, if_pos hlong]
  simp only [splitUnit, dite_eq_ite]

theorem chunkUnitsLoop_full (hblank : ¬ Text.trim unit = []) (hlong : ¬ limit < Text.utf16Len unit)
    (hfull : limit < candidateLen pending separator unit) :
    chunkUnitsLoop separator limit (unit :: rest) chunks pending =
      chunkUnitsLoop separator limit rest (flushUnits chunks pending separator limit)
        (carryOver pending separator unit limit ++ [unit]) := by
  rw [chunkUnitsLoop, if_neg hblank, if_neg hlong, if_pos hfull]

theorem chunkUnitsLoop_join (hblank : ¬ Text.trim unit = []) (hlong : ¬ limit < Text.utf16Len unit)
    (hfull : ¬ limit < candidateLen pending separator unit) :
    chunkUnitsLoop separator limit (unit :: rest) chunks pending =
      chunkUnitsLoop separator limit rest chunks (pending ++ [unit]) := by
  rw [chunkUnitsLoop, if_neg hblank, if_neg hlong, if_neg hfull]

end Turn

/-! ## Flushing -/

/-- The chunk that pending units are closed into. -/
def closed (separator : Text) (pending : List Text) : Text := Text.trim (Text.join separator pending)

theorem squeeze_closed {separator : Text} (h : Text.squeeze separator = []) (pending : List Text) :
    Text.squeeze (closed separator pending) = content pending := by
  rw [closed, Text.squeeze_trim, squeeze_join h]

theorem content_ne_nil {pending : List Text} (hne : pending ≠ []) (h : ∀ u ∈ pending, Solid u) :
    content pending ≠ [] := by
  cases pending with
  | nil => exact absurd rfl hne
  | cons u rest => simp [(h u (by simp)).squeeze_ne_nil]

theorem closed_solid {separator : Text} {pending : List Text} (hsep : Text.squeeze separator = [])
    (hne : pending ≠ []) (h : ∀ u ∈ pending, Solid u) : Solid (closed separator pending) := by
  apply solid_trim
  intro hnil
  apply content_ne_nil hne h
  rw [← squeeze_closed hsep, closed, hnil, Text.squeeze_nil]

/-- Solid units joined by a separator need no trimming. -/
theorem trimmed_join (separator : Text) {pending : List Text} (h : ∀ u ∈ pending, Solid u) :
    Text.Trimmed (Text.join separator pending) := by
  constructor
  · intro c hc
    cases pending with
    | nil => simp [Text.join] at hc
    | cons u rest =>
      obtain ⟨hu, htrim, _⟩ := h u (by simp)
      apply htrim
      cases rest with
      | nil => simpa [Text.join] using hc
      | cons v rest =>
        rw [Text.join, List.intercalate_cons_cons, List.append_assoc] at hc
        rwa [List.head?_append_of_ne_nil _ hu] at hc
  · intro c hc
    induction pending with
    | nil => simp [Text.join] at hc
    | cons u rest ih =>
      cases rest with
      | nil => exact (h u (by simp)).2.2 c (by simpa [Text.join] using hc)
      | cons v rest =>
        apply ih (fun t ht => h t (List.mem_cons_of_mem _ ht))
        rw [Text.join, List.intercalate_cons_cons] at hc
        have hne : List.intercalate separator (v :: rest) ≠ [] := by
          intro hnil
          have hv := (h v (by simp)).1
          cases rest with
          | nil => exact hv (by simpa using hnil)
          | cons w rest => simp [List.intercalate_cons_cons, hv] at hnil
        rwa [List.getLast?_append_of_ne_nil _ hne] at hc

theorem utf16Len_closed (separator : Text) {pending : List Text} (h : ∀ u ∈ pending, Solid u) :
    Text.utf16Len (closed separator pending) = joinedLen pending separator := by
  rw [closed, Text.trim_eq_self (trimmed_join separator h), utf16Len_join]

theorem flushUnits_nil (chunks : List Text) (separator : Text) (limit : Nat) :
    flushUnits chunks [] separator limit = chunks := rfl

/-- Flushing either grows the previous chunk or adds a chunk of its own. -/
theorem flushUnits_cases (chunks : List Text) {pending : List Text} {separator : Text} (limit : Nat)
    (hsep : Text.squeeze separator = []) (hne : pending ≠ []) (h : ∀ u ∈ pending, Solid u) :
    (∃ front previous, chunks = front ++ [previous] ∧
      mergeable previous separator (closed separator pending) limit ∧
      flushUnits chunks pending separator limit =
        front ++ [previous ++ separator ++ closed separator pending]) ∨
    flushUnits chunks pending separator limit = chunks ++ [closed separator pending] := by
  have hclosed := (closed_solid hsep hne h).1
  rw [closed] at hclosed
  simp only [flushUnits, if_neg hne, if_neg hclosed, closed]
  rcases List.eq_nil_or_concat chunks with rfl | ⟨front, previous, rfl⟩
  · exact .inr rfl
  · simp only [List.concat_eq_append, List.getLast?_append, List.getLast?_singleton, Option.some_or,
      List.dropLast_concat]
    split
    · rename_i hm
      exact .inl ⟨front, previous, rfl, hm, rfl⟩
    · exact .inr rfl

/-! ## The entry point -/

/-- The chunks of a normalized text under a limit that was accepted. -/
def chunkNormalized (text : Text) (limit : Nat) : List Text :=
  if Text.trim text = [] then []
  else if looksLikeMarkdown text then chunkMarkdown text limit
  else chunkPlain text limit

theorem chunkText_ok {text : Text} {requestedSize : Option Int} {limit : Nat}
    (h : chunkLimit requestedSize = .ok limit) :
    chunkText text requestedSize = .ok (chunkNormalized (normalizeExtractedText text) limit) := by
  have hbind : chunkText text requestedSize = (do
      if Text.trim (normalizeExtractedText text) = [] then return []
      if looksLikeMarkdown (normalizeExtractedText text) then
        return chunkMarkdown (normalizeExtractedText text) limit
      else return chunkPlain (normalizeExtractedText text) limit) := by
    rw [chunkText, h]
    rfl
  rw [hbind, chunkNormalized]
  split
  · rfl
  · split <;> rfl

end Chunking
