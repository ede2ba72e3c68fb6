-- SUMMARY: Every chunk is a trimmed, non-blank text within the limit.
import Supermemory.MemoryEngine.ChunkUnits

/-!
# Chunks fit

Every place that makes a chunk keeps it within the limit: the packing of units, the
merge of a short chunk into the one before it, the cut by width, the packing of
Markdown sections and the heading that is repeated in front of a piece.
-/

namespace Chunking

/-- A chunk as `chunk_text` promises it. -/
def Fits (limit : Nat) (chunk : Text) : Prop := Solid chunk ∧ Text.utf16Len chunk ≤ limit

variable {limit : Nat} {chunks pending units : List Text} {separator : Text}

theorem fits_pushTrimmed {value : Text} (hchunks : ∀ c ∈ chunks, Fits limit c)
    (hvalue : Text.utf16Len value ≤ limit) : ∀ c ∈ pushTrimmed chunks value, Fits limit c := by
  intro c hc
  refine ⟨solid_pushTrimmed (fun t ht => (hchunks t ht).1) c hc, ?_⟩
  unfold pushTrimmed at hc
  split at hc
  · exact (hchunks c hc).2
  · rcases List.mem_append.mp hc with hc | hc
    · exact (hchunks c hc).2
    · obtain rfl := List.mem_singleton.mp hc
      exact (Text.utf16Len_trim_le value).trans hvalue

/-! ## Cutting by width -/

/-- A single character fits as soon as a surrogate pair does. -/
theorem fixedWidthLoop_fits (hlimit : 2 ≤ limit) {text current : Text}
    (hchunks : ∀ c ∈ chunks, Fits limit c) (hcurrent : Text.utf16Len current ≤ limit) :
    ∀ c ∈ fixedWidthLoop limit text chunks current, Fits limit c := by
  induction text generalizing chunks current with
  | nil => exact fits_pushTrimmed hchunks hcurrent
  | cons c rest ih =>
    have hc := Text.lenUtf16_le c
    rw [fixedWidthLoop]
    split
    · exact ih (fits_pushTrimmed hchunks hcurrent) (by simpa using hc.trans hlimit)
    · rename_i hfits
      refine ih hchunks ?_
      by_cases hnil : current = []
      · simpa [hnil] using hc.trans hlimit
      · simp only [Text.utf16Len_append, Text.utf16Len_cons, Text.utf16Len_nil]
        have : ¬ limit < Text.utf16Len current + Text.lenUtf16 c := fun h => hfits ⟨hnil, h⟩
        omega

theorem fixedWidth_fits (hlimit : 2 ≤ limit) (text : Text) :
    ∀ c ∈ fixedWidth text limit, Fits limit c :=
  fixedWidthLoop_fits hlimit (by simp) (by simp)

/-! ## Packing units -/

/-- A short chunk glued behind a trimmed one stays trimmed. -/
theorem solid_glue {previous chunk : Text} (hprevious : Solid previous) (hchunk : Solid chunk)
    (separator : Text) : Solid (previous ++ separator ++ chunk) := by
  refine ⟨by simp [hprevious.1], ?_, ?_⟩
  · intro c hc
    rw [List.append_assoc, List.head?_append_of_ne_nil _ hprevious.1] at hc
    exact hprevious.2.1 c hc
  · intro c hc
    rw [List.getLast?_append_of_ne_nil _ hchunk.1] at hc
    exact hchunk.2.2 c hc

theorem flushUnits_fits (hsep : Text.squeeze separator = []) (hchunks : ∀ c ∈ chunks, Fits limit c)
    (hunits : ∀ u ∈ pending, Solid u) (hpending : joinedLen pending separator ≤ limit) :
    ∀ c ∈ flushUnits chunks pending separator limit, Fits limit c := by
  by_cases hne : pending = []
  · rw [hne, flushUnits_nil]
    exact hchunks
  have hclosed : Fits limit (closed separator pending) :=
    ⟨closed_solid hsep hne hunits, (utf16Len_closed separator hunits).trans_le hpending⟩
  rcases flushUnits_cases chunks limit hsep hne hunits with
    ⟨front, previous, rfl, hmerge, heq⟩ | heq
  · intro c hc
    rw [heq] at hc
    rcases List.mem_append.mp hc with hc | hc
    · exact hchunks c (by simp [hc])
    · obtain rfl := List.mem_singleton.mp hc
      refine ⟨solid_glue (hchunks previous (by simp)).1 hclosed.1 separator, ?_⟩
      rw [Text.utf16Len_append, Text.utf16Len_append]
      exact hmerge.2
  · intro c hc
    rw [heq] at hc
    rcases List.mem_append.mp hc with hc | hc
    · exact hchunks c hc
    · obtain rfl := List.mem_singleton.mp hc
      exact hclosed

/-- The loop keeps its chunks and what is pending within the limit. The induction is along
    the loop itself: a unit that is too long runs it again over the words of the unit. -/
theorem chunkUnitsLoop_fits (hlimit : 2 ≤ limit) (hsep : Text.squeeze separator = [])
    (hunits : ∀ u ∈ units, Solid u) (hchunks : ∀ c ∈ chunks, Fits limit c)
    (hpending : ∀ u ∈ pending, Solid u) (hlen : joinedLen pending separator ≤ limit) :
    ∀ c ∈ chunkUnitsLoop separator limit units chunks pending, Fits limit c := by
  induction separator, units, chunks, pending using chunkUnitsLoop.induct limit with
  | case1 separator chunks pending =>
    rw [chunkUnitsLoop]
    exact flushUnits_fits hsep hchunks hpending hlen
  | case2 separator unit rest chunks pending hblank ih =>
    rw [chunkUnitsLoop, if_pos hblank]
    exact ih hsep (fun u hu => hunits u (by simp [hu])) hchunks hpending hlen
  | case3 separator unit rest chunks pending hblank hlong flushed pieces ihwords ih =>
    rw [chunkUnitsLoop_long hblank hlong]
    have hflushed := flushUnits_fits hsep hchunks hpending hlen
    have hpieces : ∀ c ∈ splitUnit unit limit, Fits limit c := by
      unfold splitUnit
      split
      · exact fixedWidth_fits hlimit unit
      · rename_i hwords
        exact ihwords hwords (by decide) (fun u hu => solid_splitWhitespace hu) (by simp) (by simp)
          (by simp [joinedLen])
    refine ih hsep (fun u hu => hunits u (by simp [hu])) ?_ (by simp) (by simp [joinedLen])
    intro c hc
    rcases List.mem_append.mp hc with hc | hc
    · exact hflushed c hc
    · exact hpieces c hc
  | case4 separator unit rest chunks pending hblank hlong hfull ih =>
    rw [chunkUnitsLoop_full hblank hlong hfull]
    refine ih hsep (fun u hu => hunits u (by simp [hu])) (flushUnits_fits hsep hchunks hpending hlen)
      ?_ ?_
    · intro u hu
      rcases List.mem_append.mp hu with hu | hu
      · exact hpending u ((carryOver_suffix pending separator unit limit).subset hu)
      · obtain rfl := List.mem_singleton.mp hu
        exact hunits u (by simp)
    · rw [joinedLen_append_singleton]
      exact carryOver_fits pending separator (Nat.not_lt.mp hlong)
  | case5 separator unit rest chunks pending hblank hlong hfull ih =>
    rw [chunkUnitsLoop_join hblank hlong hfull]
    refine ih hsep (fun u hu => hunits u (by simp [hu])) hchunks ?_ ?_
    · intro u hu
      rcases List.mem_append.mp hu with hu | hu
      · exact hpending u hu
      · obtain rfl := List.mem_singleton.mp hu
        exact hunits u (by simp)
    · rw [joinedLen_append_singleton]
      exact Nat.not_lt.mp hfull

theorem chunkPlain_fits (hlimit : 2 ≤ limit) (text : Text) :
    ∀ c ∈ chunkPlain text limit, Fits limit c :=
  chunkUnitsLoop_fits hlimit (by decide) (solid_splitSentences text) (by simp) (by simp)
    (by simp [joinedLen])

/-! ## Packing sections -/

theorem withHeading_fits {heading chunk : Text} (hheading : isHeading heading = true)
    (hchunk : Fits limit chunk) : Fits limit (withHeading heading limit chunk) := by
  unfold withHeading
  simp only
  split
  · rename_i hfits
    refine ⟨⟨by simp, ?_, ?_⟩, hfits.1⟩
    · -- a heading starts with `#`
      intro c hc
      rw [List.append_assoc] at hc
      cases heading with
      | nil => simp [isHeading] at hheading
      | cons hash tail =>
        obtain rfl : hash = c := by simpa using hc
        by_cases hhash : hash = '#'
        · subst hhash; decide
        · simp [isHeading, hhash] at hheading
    · intro c hc
      rw [List.getLast?_append_of_ne_nil _ hchunk.1.1] at hc
      exact hchunk.1.2.2 c hc
  · exact hchunk

theorem splitSection_fits (hlimit : 2 ≤ limit) (sect : Text) :
    ∀ c ∈ splitSection sect limit, Fits limit c := by
  have hplain := chunkPlain_fits hlimit sect
  unfold splitSection
  split
  · rename_i first later heading hsplit hheading
    rw [hsplit] at hplain
    have hhead : isHeading heading = true := (Option.filter_eq_some_iff.mp hheading).2
    intro c hc
    rcases List.mem_cons.mp hc with rfl | hc
    · exact hplain c (by simp)
    · obtain ⟨chunk, hchunk, rfl⟩ := List.mem_map.mp hc
      exact withHeading_fits hhead (hplain chunk (by simp [hchunk]))
  · exact hplain

theorem chunkMarkdownLoop_fits (hlimit : 2 ≤ limit) {sections : List Text} {current : Text}
    (hchunks : ∀ c ∈ chunks, Fits limit c) (hcurrent : Text.utf16Len current ≤ limit) :
    ∀ c ∈ chunkMarkdownLoop limit sections chunks current, Fits limit c := by
  induction sections, chunks, current using chunkMarkdownLoop.induct limit with
  | case1 chunks current =>
    rw [chunkMarkdownLoop]
    exact fits_pushTrimmed hchunks hcurrent
  | case2 sect rest chunks current hlong ih =>
    rw [chunkMarkdownLoop, if_pos hlong]
    refine ih (fun c hc => ?_) (by simp)
    rcases List.mem_append.mp hc with hc | hc
    · exact fits_pushTrimmed hchunks hcurrent c hc
    · exact splitSection_fits hlimit sect c hc
  | case3 sect rest chunks hlong ih =>
    rw [chunkMarkdownLoop, if_neg hlong, if_pos rfl]
    exact ih hchunks (Nat.not_lt.mp hlong)
  | case4 sect rest chunks current hlong hne hfull ih =>
    rw [chunkMarkdownLoop, if_neg hlong, if_neg hne, if_pos hfull]
    exact ih (fits_pushTrimmed hchunks hcurrent) (Nat.not_lt.mp hlong)
  | case5 sect rest chunks current hlong hne hfull ih =>
    rw [chunkMarkdownLoop, if_neg hlong, if_neg hne, if_neg hfull]
    refine ih hchunks ?_
    have hbreak : Text.utf16Len ['\n', '\n'] = 2 := by decide
    simp only [Text.utf16Len_append, hbreak]
    omega

theorem chunkMarkdown_fits (hlimit : 2 ≤ limit) {text : Text} (hvisible : Text.trim text ≠ []) :
    ∀ c ∈ chunkMarkdown text limit, Fits limit c := by
  unfold chunkMarkdown
  split
  · rename_i hnone
    exact absurd hnone (markdownSections_ne_nil hvisible)
  · exact chunkMarkdownLoop_fits hlimit (by simp) (by simp)

/-! ## The entry point -/

/-- The limit in force for an accepted request: the default for none, `-1` and `0`, the
    requested size otherwise. Size one is left out: a surrogate pair needs two units. -/
inductive Accepted : Option Int → Nat → Prop where
  | absent : Accepted none 1075
  | minusOne : Accepted (some (-1)) 1075
  | zero : Accepted (some 0) 1075
  | size {n : Nat} (hmin : 2 ≤ n) (hmax : n ≤ 28672) : Accepted (some n) n

theorem Accepted.chunkLimit {requestedSize : Option Int} (h : Accepted requestedSize limit) :
    chunkLimit requestedSize = .ok limit := by
  cases h with
  | absent => rfl
  | minusOne => rfl
  | zero => rfl
  | size hmin hmax =>
    have hbound : ¬ maxChunkSize < (limit : Int).toNat := by
      rw [maxChunkSize, Int.toNat_natCast]
      omega
    rw [Chunking.chunkLimit, if_neg (by omega), if_neg (by omega), if_neg hbound]
    rfl

theorem Accepted.two_le {requestedSize : Option Int} (h : Accepted requestedSize limit) :
    2 ≤ limit := by
  cases h <;> omega

/-- Chunking with an accepted size succeeds, and every chunk is non-empty, trimmed and within
    the limit, for plain text and for Markdown. -/
theorem chunkText_fits (text : Text) {requestedSize : Option Int}
    (h : Accepted requestedSize limit) :
    ∃ chunks, chunkText text requestedSize = .ok chunks ∧
      ∀ c ∈ chunks, c ≠ [] ∧ Text.Trimmed c ∧ Text.utf16Len c ≤ limit := by
  refine ⟨_, chunkText_ok h.chunkLimit, ?_⟩
  have hfits : ∀ c ∈ chunkNormalized (normalizeExtractedText text) limit, Fits limit c := by
    unfold chunkNormalized
    split
    · simp
    · rename_i hvisible
      split
      · exact chunkMarkdown_fits h.two_le hvisible
      · exact chunkPlain_fits h.two_le _
  intro c hc
  obtain ⟨⟨hne, htrimmed⟩, hlen⟩ := hfits c hc
  exact ⟨hne, htrimmed, hlen⟩

theorem chunkText_fits_two : ∃ chunks, chunkText ['a', ' ', 'b', '.'] (some 2) = .ok chunks ∧
    ∀ c ∈ chunks, c ≠ [] ∧ Text.Trimmed c ∧ Text.utf16Len c ≤ 2 :=
  chunkText_fits _ (.size (le_refl 2) (by decide))

end Chunking
