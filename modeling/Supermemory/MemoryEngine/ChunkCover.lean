-- SUMMARY: The chunks of a text cover its visible characters from left to right, with bounded overlap.
import Supermemory.Library.Cover
import Supermemory.MemoryEngine.ChunkUnits

/-!
# Chunks cover the text

The characters of a text that are not white space are covered by one span a chunk.
Packing adds spans from the left. A span that repeats the overlap starts inside the
span before it, and is never merged into the chunk before it: the unit that did not
fit behind that chunk is part of it.
-/

namespace Chunking

/-- What two neighbouring chunks may share. -/
def Repeatable (limit : Nat) (shared : Text) : Prop := Text.utf16Len shared ≤ overlapBudget limit

theorem repeatable_nil (limit : Nat) : Repeatable limit [] := Nat.zero_le _

/-- The chunks are, up to white space, the spans of a cover of `t`. -/
structure Laid (limit : Nat) (t : Text) (chunks : List Text) (spans : List Span) : Prop where
  covers : Covers (Repeatable limit) t spans
  renders : Covers.Renders (fun chunk slice => Text.squeeze chunk = slice) t chunks spans

namespace Laid

variable {limit : Nat} {t u : Text} {chunks chunks' : List Text} {spans spans' : List Span}

theorem nil (limit : Nat) : Laid limit [] [] [] := ⟨.nil, .nil⟩

theorem append (h : Laid limit t chunks spans) (h' : Laid limit u chunks' spans') :
    Laid limit (t ++ u) (chunks ++ chunks') (spans ++ spans'.map (Span.shift t.length)) :=
  ⟨h.covers.append (repeatable_nil limit) h'.covers, h.covers.renders_append h.renders h'.renders⟩

/-- A chunk that repeats nothing. -/
theorem snoc {new chunk : Text} (h : Laid limit t chunks spans) (hnew : new ≠ [])
    (hchunk : Text.squeeze chunk = new) :
    Laid limit (t ++ new) (chunks ++ [chunk]) (spans ++ [⟨t.length, t.length + new.length⟩]) :=
  ⟨h.covers.snoc_disjoint (repeatable_nil limit) hnew,
    h.covers.renders_snoc h.renders (le_refl _) (by simpa using hchunk)⟩

/-- A chunk that repeats the end of the last one, from position `k`. -/
theorem snoc_repeat {new chunk : Text} {last : Span} {k : Nat}
    (h : Laid limit t chunks (spans ++ [last])) (hnew : new ≠ []) (hstart : last.start < k)
    (hk : k ≤ t.length) (hok : Repeatable limit (t.drop k))
    (hchunk : Text.squeeze chunk = t.drop k ++ new) :
    Laid limit (t ++ new) (chunks ++ [chunk])
      (spans ++ [last] ++ [⟨k, t.length + new.length⟩]) :=
  ⟨.snoc h.covers hnew hstart hk hok, h.covers.renders_snoc h.renders hk hchunk⟩

/-- The last chunk grows. -/
theorem glue {new tail previous : Text} {last : Span}
    (h : Laid limit t (chunks ++ [previous]) (spans ++ [last])) (htail : Text.squeeze tail = new) :
    Laid limit (t ++ new) (chunks ++ [previous ++ tail])
      (spans ++ [⟨last.start, t.length + new.length⟩]) :=
  ⟨h.covers.extend new, h.covers.renders_extend h.renders fun hprevious => by
    rw [Text.squeeze_append, hprevious, htail]⟩

/-- A chunk of its own for what follows. -/
theorem push (h : Laid limit t chunks spans) (value : Text) :
    ∃ spans', Laid limit (t ++ Text.squeeze value) (pushTrimmed chunks value) spans' := by
  unfold pushTrimmed
  split
  · rename_i hblank
    rw [Text.trim_eq_nil.mp hblank, List.append_nil]
    exact ⟨spans, h⟩
  · rename_i hblank
    exact ⟨_, h.snoc (fun hnil => hblank (Text.trim_eq_nil.mpr hnil)) (Text.squeeze_trim value)⟩

end Laid

theorem fixedWidthLoop_laid {limit : Nat} {text t : Text} (current : Text) {chunks : List Text}
    {spans : List Span} (h : Laid limit t chunks spans) :
    ∃ spans', Laid limit (t ++ Text.squeeze (current ++ text))
      (fixedWidthLoop limit text chunks current) spans' := by
  induction text generalizing t chunks spans current with
  | nil =>
    rw [fixedWidthLoop, List.append_nil]
    exact h.push current
  | cons c rest ih =>
    rw [fixedWidthLoop]
    split
    · obtain ⟨spans', hpushed⟩ := h.push current
      simpa [List.append_assoc] using ih [c] hpushed
    · simpa [List.append_assoc] using ih (current ++ [c]) h

theorem fixedWidth_laid (limit : Nat) (text : Text) :
    ∃ spans, Laid limit (Text.squeeze text) (fixedWidth text limit) spans :=
  fixedWidthLoop_laid [] (Laid.nil limit)

/-! ## Packing units -/

/-- The state of the packing loop: `t` is laid out, and the pending units are the
    overlap `old`, which ends the last chunk, followed by the units `new`. -/
structure Packed (separator : Text) (limit : Nat) (t : Text) (chunks old new : List Text)
    (spans : List Span) : Prop where
  laid : Laid limit t chunks spans
  solid : ∀ u ∈ old ++ new, Solid u
  repeats : old ≠ [] → ∃ k front last, spans = front ++ [last] ∧ last.start < k ∧ k ≤ t.length ∧
    t.drop k = content old ∧ Repeatable limit (content old)
  blocked : old ≠ [] → ∃ unit later, new = unit :: later ∧ ∀ previous ∈ chunks.getLast?,
    limit < Text.utf16Len previous + Text.utf16Len separator + Text.utf16Len unit

namespace Packed

variable {separator unit t : Text} {limit : Nat} {chunks old new : List Text} {spans : List Span}

theorem start (h : Laid limit t chunks spans) (separator : Text) :
    Packed separator limit t chunks [] [] spans :=
  ⟨h, by simp, by simp, by simp⟩

theorem join (h : Packed separator limit t chunks old new spans) (hunit : Solid unit) :
    Packed separator limit t chunks old (new ++ [unit]) spans := by
  refine ⟨h.laid, ?_, h.repeats, ?_⟩
  · intro u hu
    rw [← List.append_assoc] at hu
    rcases List.mem_append.mp hu with hu | hu
    · exact h.solid u hu
    · obtain rfl := List.mem_singleton.mp hu
      exact hunit
  · intro hold
    obtain ⟨u, later, rfl, hblocked⟩ := h.blocked hold
    exact ⟨u, later ++ [unit], rfl, hblocked⟩

/-- What flushing leaves behind: a last chunk at least as long as the pending units, whose
    span has room for all of them. -/
structure Closes (separator t : Text) (chunks pending : List Text) (spans : List Span) : Prop where
  chunk : ∃ previous, chunks.getLast? = some previous ∧
    joinedLen pending separator ≤ Text.utf16Len previous
  span : ∃ front last, spans = front ++ [last] ∧ last.start + (content pending).length ≤ t.length
  tail : content pending <:+ t

/-- The overlap keeps a flushed chunk out of the chunk before it. -/
theorem not_mergeable {previous : Text} (h : Packed separator limit t chunks old new spans)
    (hlast : chunks.getLast? = some previous)
    (hmerge : mergeable previous separator (closed separator (old ++ new)) limit) : old = [] := by
  by_contra hold
  obtain ⟨unit, later, rfl, hblocked⟩ := h.blocked hold
  have hunit : Text.utf16Len unit ≤ joinedLen (old ++ unit :: later) separator :=
    joinedLen_mem (by simp) separator
  have hfits := hmerge.2
  rw [utf16Len_closed separator h.solid] at hfits
  have := hblocked previous hlast
  omega

theorem content_new_ne_nil (h : Packed separator limit t chunks old new spans)
    (hne : old ++ new ≠ []) : content new ≠ [] := by
  refine content_ne_nil ?_ fun u hu => h.solid u (by simp [hu])
  rintro rfl
  have hold : old ≠ [] := by simpa using hne
  obtain ⟨unit, later, hnew, _⟩ := h.blocked hold
  simp at hnew

theorem flush (hsep : Text.squeeze separator = [])
    (h : Packed separator limit t chunks old new spans) :
    ∃ spans', Laid limit (t ++ content new) (flushUnits chunks (old ++ new) separator limit) spans' ∧
      (old ++ new ≠ [] → Closes separator (t ++ content new)
        (flushUnits chunks (old ++ new) separator limit) (old ++ new) spans') := by
  by_cases hne : old ++ new = []
  · obtain ⟨rfl, rfl⟩ := List.append_eq_nil_iff.mp hne
    exact ⟨spans, by simpa [flushUnits_nil] using h.laid, fun hne' => absurd rfl hne'⟩
  have hnew := h.content_new_ne_nil hne
  have hclosed : Text.squeeze (closed separator (old ++ new)) = content old ++ content new := by
    rw [squeeze_closed hsep, content_append]
  have hlen := utf16Len_closed separator h.solid
  rcases flushUnits_cases chunks limit hsep hne h.solid with
    ⟨front, previous, rfl, hmerge, heq⟩ | heq
  · -- merged: nothing was repeated, and the last span grows
    obtain rfl := h.not_mergeable (by simp) hmerge
    rw [heq, List.append_assoc]
    obtain ⟨sfront, last, rfl⟩ : ∃ sfront last, spans = sfront ++ [last] := by
      rcases List.eq_nil_or_concat spans with rfl | ⟨sfront, last, rfl⟩
      · have := h.laid.renders.length_eq
        simp at this
      · exact ⟨sfront, last, List.concat_eq_append⟩
    have hbounds := h.laid.covers.bounds last (by simp)
    refine ⟨_, h.laid.glue (?_ : Text.squeeze (separator ++ closed separator ([] ++ new)) = content new), fun _ =>
      ⟨⟨previous ++ (separator ++ closed separator ([] ++ new)), by simp, ?_⟩, ⟨_, _, rfl, ?_⟩,
        List.suffix_append t _⟩⟩
    · rw [Text.squeeze_append, hsep, hclosed]
      simp
    · simp only [Text.utf16Len_append, hlen]
      omega
    · simp only [List.nil_append, List.length_append]
      omega
  · rw [heq]
    by_cases hold : old = []
    · subst hold
      refine ⟨_, h.laid.snoc hnew (by simpa using hclosed), fun _ =>
        ⟨⟨_, by simp, hlen.ge⟩, ⟨_, _, rfl, ?_⟩, List.suffix_append t _⟩⟩
      simp
    · obtain ⟨k, front, last, rfl, hstart, hk, hdrop, hok⟩ := h.repeats hold
      refine ⟨_, h.laid.snoc_repeat hnew hstart hk (hdrop ▸ hok) (hdrop ▸ hclosed),
        fun _ => ⟨⟨_, by simp, hlen.ge⟩, ⟨_, _, rfl, ?_⟩, ?_⟩⟩
      · have hlength := congrArg List.length hdrop
        rw [List.length_drop] at hlength
        simp only [content_append, List.length_append]
        omega
      · refine ⟨t.take k, ?_⟩
        rw [content_append, ← hdrop, ← List.append_assoc, List.take_append_drop]

/-- After a flush the loop carries over a proper tail of what was pending, and the unit that
    did not fit starts the new pending units. -/
theorem carry (hsep : Text.squeeze separator = [])
    (h : Packed separator limit t chunks old new spans) (hunit : Solid unit)
    (hlong : ¬ limit < Text.utf16Len unit)
    (hfull : limit < candidateLen (old ++ new) separator unit) :
    ∃ spans', Packed separator limit (t ++ content new)
      (flushUnits chunks (old ++ new) separator limit)
      (carryOver (old ++ new) separator unit limit) [unit] spans' := by
  obtain ⟨spans', hlaid, hcloses⟩ := h.flush hsep
  have hne : old ++ new ≠ [] := by
    intro hnil
    rw [hnil, candidateLen] at hfull
    simp [joinedLen] at hfull
    omega
  obtain ⟨⟨previous, hlast, hprevious⟩, ⟨front, last, rfl, hroom⟩, htail⟩ := hcloses hne
  have hsuffix := carryOver_suffix (old ++ new) separator unit limit
  have hfits := carryOver_fits (old ++ new) separator (Nat.not_lt.mp hlong)
  have hbudget := carryOver_budget (old ++ new) separator unit limit
  have hproper : carryOver (old ++ new) separator unit limit ≠ old ++ new := by
    intro heq
    rw [heq] at hfits
    omega
  refine ⟨_, hlaid, ?_, ?_, ?_⟩
  · intro u hu
    rcases List.mem_append.mp hu with hu | hu
    · exact h.solid u (hsuffix.subset hu)
    · obtain rfl := List.mem_singleton.mp hu
      exact hunit
  · intro _
    obtain ⟨dropped, hdropped⟩ := hsuffix
    have hdropped_ne : content dropped ≠ [] := by
      refine content_ne_nil ?_ fun u hu => h.solid u (hdropped ▸ List.mem_append_left _ hu)
      rintro rfl
      exact hproper hdropped
    have hcontent := congrArg content hdropped
    rw [content_append] at hcontent
    have hkept : content (carryOver (old ++ new) separator unit limit) <:+ t ++ content new :=
      (hcontent ▸ List.suffix_append _ _ : _ <:+ content (old ++ new)).trans htail
    refine ⟨_, front, last, rfl, ?_, Nat.sub_le _ _, (List.suffix_iff_eq_drop.mp hkept).symm,
      (content_len_le _ separator).trans hbudget⟩
    have hlength := congrArg List.length hcontent
    rw [List.length_append] at hlength
    have := List.length_pos_iff.mpr hdropped_ne
    have := hkept.length_le
    omega
  · intro _
    refine ⟨unit, [], rfl, fun p hp => ?_⟩
    obtain rfl : previous = p := by simpa [hlast] using hp
    have : candidateLen (old ++ new) separator unit =
        joinedLen (old ++ new) separator + Text.utf16Len separator + Text.utf16Len unit := by
      rw [candidateLen, if_neg hne, Nat.one_mul]
    omega

end Packed

/-- The packing loop lays out everything it is given. The induction is along the loop: a unit
    that is too long is laid out by itself, from its words or from pieces cut by width. -/
theorem chunkUnitsLoop_laid {separator : Text} {limit : Nat} {units chunks pending : List Text}
    {t : Text} {old new : List Text} {spans : List Span} (hsep : Text.squeeze separator = [])
    (hunits : ∀ u ∈ units, Solid u) (hpending : pending = old ++ new)
    (h : Packed separator limit t chunks old new spans) :
    ∃ spans', Laid limit (t ++ content new ++ content units)
      (chunkUnitsLoop separator limit units chunks pending) spans' := by
  induction separator, units, chunks, pending using chunkUnitsLoop.induct limit
    generalizing t old new spans with
  | case1 separator chunks pending =>
    subst hpending
    obtain ⟨spans', hlaid, _⟩ := h.flush hsep
    rw [chunkUnitsLoop, content_nil, List.append_nil]
    exact ⟨spans', hlaid⟩
  | case2 separator unit rest chunks pending hblank =>
    exact absurd hblank fun hnil =>
      (hunits unit (by simp)).squeeze_ne_nil (Text.trim_eq_nil.mp hnil)
  | case3 separator unit rest chunks pending hblank hlong flushed pieces =>
    rename_i ihwords ih
    subst hpending
    obtain ⟨spans', hlaid, _⟩ := h.flush hsep
    have hpieces : ∃ spans, Laid limit (Text.squeeze unit) (splitUnit unit limit) spans := by
      unfold splitUnit
      split
      · exact fixedWidth_laid limit unit
      · rename_i hwords
        have := ihwords hwords (by decide) (fun u hu => solid_splitWhitespace hu) rfl
          (Packed.start (Laid.nil limit) [' '])
        simpa [content_splitWhitespace] using this
    obtain ⟨spans'', hunit⟩ := hpieces
    rw [chunkUnitsLoop_long hblank hlong, content_cons, ← List.append_assoc,
      ← List.append_nil (t ++ content new ++ Text.squeeze unit)]
    exact ih hsep (fun u hu => hunits u (by simp [hu])) rfl
      (Packed.start (hlaid.append hunit) separator)
  | case4 separator unit rest chunks pending hblank hlong hfull ih =>
    subst hpending
    obtain ⟨spans', hcarried⟩ := h.carry hsep (hunits unit (by simp)) hlong hfull
    rw [chunkUnitsLoop_full hblank hlong hfull]
    simpa using ih hsep (fun u hu => hunits u (by simp [hu])) rfl hcarried
  | case5 separator unit rest chunks pending hblank hlong hfull ih =>
    subst hpending
    rw [chunkUnitsLoop_join hblank hlong hfull]
    simpa using ih hsep (fun u hu => hunits u (by simp [hu])) (List.append_assoc _ _ _)
      (h.join (hunits unit (by simp)))

theorem chunkPlain_laid (text : Text) (limit : Nat) :
    ∃ spans, Laid limit (Text.squeeze text) (chunkPlain text limit) spans := by
  have := chunkUnitsLoop_laid (by decide) (solid_splitSentences text) rfl
    (Packed.start (Laid.nil limit) [' '])
  simpa [content_splitSentences, chunkPlain, chunkUnits] using this

/-! ## Packing sections -/

/-- A later piece of an oversized section, behind the heading of that section: its span
    starts inside the section, and not at its start. -/
def Headed (sections : List Text) (limit : Nat) (chunk : Text) (s : Span) : Prop :=
  ∃ front sect back heading, sections = front ++ sect :: back ∧ limit < Text.utf16Len sect ∧
    sectionHeading sect = some heading ∧ (content front).length < s.start ∧
    s.stop ≤ (content front).length + (Text.squeeze sect).length ∧
    Text.squeeze chunk = Text.squeeze heading ++ s.slice (content sections)

/-- What a chunk of a Markdown text stands for. -/
def Stands (sections : List Text) (limit : Nat) (chunk : Text) (s : Span) : Prop :=
  Text.squeeze chunk = s.slice (content sections) ∨ Headed sections limit chunk s

/-- The sections in `front` are laid out, as the first ones of `sections`. -/
structure Sectioned (sections : List Text) (limit : Nat) (front chunks : List Text)
    (spans : List Span) : Prop where
  covers : Covers (Repeatable limit) (content front) spans
  stands : List.Forall₂ (Stands sections limit) chunks spans

namespace Sectioned

variable {sections front held rest chunks : List Text} {limit : Nat} {sect pending : Text}
  {spans : List Span}

/-- A chunk of its own for the sections that are held back. -/
theorem push (hsections : sections = front ++ held ++ rest)
    (h : Sectioned sections limit front chunks spans) (hpending : Text.squeeze pending = content held) :
    ∃ spans', Sectioned sections limit (front ++ held) (pushTrimmed chunks pending) spans' := by
  unfold pushTrimmed
  split
  · rename_i hblank
    rw [Text.trim_eq_nil] at hblank
    refine ⟨spans, ?_, h.stands⟩
    rw [content_append, ← hpending, hblank, List.append_nil]
    exact h.covers
  · rename_i hblank
    rw [Text.trim_eq_nil, hpending] at hblank
    have hcovers := h.covers.snoc_disjoint (repeatable_nil limit) hblank
    rw [← content_append] at hcovers
    refine ⟨_, hcovers, List.rel_append h.stands (.cons (.inl ?_) .nil)⟩
    rw [Text.squeeze_trim, hpending, hsections, content_append, content_append,
      Span.slice_append (by simp), Span.slice_tail _ (le_refl _)]
    simp

/-- The pieces of a section that does not fit a chunk. -/
theorem split (hsections : sections = front ++ sect :: rest) (hlong : limit < Text.utf16Len sect)
    (h : Sectioned sections limit front chunks spans) :
    ∃ spans', Sectioned sections limit (front ++ [sect]) (chunks ++ splitSection sect limit) spans' := by
  obtain ⟨inner, hplain⟩ := chunkPlain_laid sect limit
  have hcovers : Covers (Repeatable limit) (content (front ++ [sect]))
      (spans ++ inner.map (Span.shift (content front).length)) := by
    rw [content_append, content_singleton]
    exact h.covers.append (repeatable_nil limit) hplain.covers
  have hslice : ∀ s ∈ inner, (s.shift (content front).length).slice (content sections) =
      s.slice (Text.squeeze sect) := by
    intro s hs
    rw [hsections, content_append, content_cons, Span.slice_shift,
      Span.slice_append (hplain.covers.bounds s hs).2]
  have hstands : List.Forall₂ (fun chunk s => Stands sections limit chunk (s.shift (content front).length))
      (splitSection sect limit) inner := by
    have hfirst : ∀ {chunk : Text} {s : Span}, s ∈ inner →
        Text.squeeze chunk = s.slice (Text.squeeze sect) →
        Stands sections limit chunk (s.shift (content front).length) :=
      fun hs hchunk => .inl (by rw [hchunk, hslice _ hs])
    have hrenders := hplain.renders
    unfold splitSection
    split
    · rename_i first later heading hplain_eq hheading
      rw [hplain_eq] at hrenders
      obtain ⟨s, inner', hs, hrest, rfl⟩ := List.forall₂_cons_left_iff.mp hrenders
      refine .cons (hfirst (by simp) hs) (List.forall₂_map_left_iff.mpr ?_)
      refine List.forall₂_iff_zip.mpr ⟨hrest.length_eq, fun {chunk r} hmem => ?_⟩
      have hr : r ∈ inner' := (List.of_mem_zip hmem).2
      have hchunk := List.forall₂_zip hrest hmem
      unfold withHeading
      simp only
      split
      · have hpos := hplain.covers.start_pos r (by simpa using hr)
        have hbounds := hplain.covers.bounds r (by simp [hr])
        refine .inr ⟨front, sect, rest, heading, hsections, hlong, hheading, ?_, ?_, ?_⟩
        · rw [Span.shift_start]
          omega
        · rw [Span.shift_stop]
          omega
        · rw [hslice r (by simp [hr]), ← hchunk, Text.squeeze_append, Text.squeeze_append,
            (by decide : Text.squeeze ['\n', '\n'] = []), List.append_nil]
      · exact hfirst (by simp [hr]) hchunk
    · refine List.forall₂_iff_zip.mpr ⟨hrenders.length_eq, fun {chunk s} hmem => ?_⟩
      exact hfirst (List.of_mem_zip hmem).2 (List.forall₂_zip hrenders hmem)
  exact ⟨_, hcovers, List.rel_append h.stands (List.forall₂_map_right_iff.mpr hstands)⟩

end Sectioned

theorem chunkMarkdownLoop_sectioned {sections front rest chunks : List Text} (held : List Text)
    {limit : Nat} {pending : Text} {spans : List Span} (hsections : sections = front ++ held ++ rest)
    (h : Sectioned sections limit front chunks spans) (hpending : Text.squeeze pending = content held) :
    ∃ spans', Sectioned sections limit sections (chunkMarkdownLoop limit rest chunks pending) spans' := by
  induction rest, chunks, pending using chunkMarkdownLoop.induct limit
    generalizing front held spans with
  | case1 chunks pending =>
    rw [chunkMarkdownLoop]
    obtain ⟨spans', hpushed⟩ := h.push hsections hpending
    rw [List.append_nil] at hsections
    exact ⟨spans', hsections ▸ hpushed⟩
  | case2 sect rest chunks pending hlong ih =>
    rw [chunkMarkdownLoop, if_pos hlong]
    obtain ⟨spans', hpushed⟩ := h.push hsections hpending
    obtain ⟨spans'', hsplit⟩ := hpushed.split hsections hlong
    exact ih [] (by simpa using hsections) hsplit rfl
  | case3 sect rest chunks hlong ih =>
    rw [chunkMarkdownLoop, if_neg hlong, if_pos rfl]
    have hheld : content (held ++ [sect]) = Text.squeeze sect := by
      rw [content_append, ← hpending, content_singleton, Text.squeeze_nil, List.nil_append]
    exact ih (held ++ [sect]) (by simpa using hsections) h hheld.symm
  | case4 sect rest chunks pending hlong hne hfull ih =>
    rw [chunkMarkdownLoop, if_neg hlong, if_neg hne, if_pos hfull]
    obtain ⟨spans', hpushed⟩ := h.push hsections hpending
    exact ih [sect] (by simpa using hsections) hpushed (content_singleton sect).symm
  | case5 sect rest chunks pending hlong hne hfull ih =>
    rw [chunkMarkdownLoop, if_neg hlong, if_neg hne, if_neg hfull]
    have hbreak : Text.squeeze ['\n', '\n'] = [] := by decide
    refine ih (held ++ [sect]) (by simpa using hsections) h ?_
    rw [Text.squeeze_append, Text.squeeze_append, hpending, hbreak, content_append,
      content_singleton, List.append_nil]

theorem chunkMarkdown_sectioned {text : Text} (limit : Nat) (hvisible : Text.trim text ≠ []) :
    ∃ spans, Sectioned (markdownSections text) limit (markdownSections text)
      (chunkMarkdown text limit) spans := by
  unfold chunkMarkdown
  split
  · rename_i hnone
    exact absurd hnone (markdownSections_ne_nil hvisible)
  · have hstart : Sectioned (markdownSections text) limit [] [] [] := ⟨.nil, .nil⟩
    exact chunkMarkdownLoop_sectioned [] rfl hstart rfl

/-! ## The entry point -/

/-- The chunks of the normalized text `t` are spans of its visible characters: from the
    first to the last, without a gap, moving forward at both ends, with bounded overlap. -/
structure Faithful (t : Text) (limit : Nat) (chunks : List Text) (spans : List Span) : Prop where
  pieces : List.Forall₂ (fun chunk s => Text.squeeze chunk = s.slice (Text.squeeze t) ∨
    looksLikeMarkdown t = true ∧ Headed (markdownSections t) limit chunk s) chunks spans
  bounds : ∀ s ∈ spans, s.start < s.stop ∧ s.stop ≤ (Text.squeeze t).length
  first : ∀ s ∈ spans.head?, s.start = 0
  last : ∀ s ∈ spans.getLast?, s.stop = (Text.squeeze t).length
  steps : spans.IsChain fun a b => a.start < b.start ∧ a.stop < b.stop ∧ b.start ≤ a.stop ∧
    Text.utf16Len ((Span.mk b.start a.stop).slice (Text.squeeze t)) ≤ min 200 (limit / 2)
  empty : chunks = [] ↔ Text.squeeze t = []

theorem faithful_of_covers {t : Text} {limit : Nat} {chunks : List Text} {spans : List Span}
    (h : Covers (Repeatable limit) (Text.squeeze t) spans)
    (hpieces : List.Forall₂ (fun chunk s => Text.squeeze chunk = s.slice (Text.squeeze t) ∨
      looksLikeMarkdown t = true ∧ Headed (markdownSections t) limit chunk s) chunks spans) :
    Faithful t limit chunks spans where
  pieces := hpieces
  bounds := h.bounds
  first := h.head_start
  last := h.last_stop
  steps := h.chain.imp fun _ _ hab => ⟨hab.start, hab.stop, hab.gap, hab.shared⟩
  empty := by
    rw [← h.nil_iff, ← List.length_eq_zero_iff, hpieces.length_eq, List.length_eq_zero_iff]

theorem chunkNormalized_faithful (t : Text) (limit : Nat) :
    ∃ spans, Faithful t limit (chunkNormalized t limit) spans := by
  unfold chunkNormalized
  split
  · rename_i hblank
    exact ⟨[], faithful_of_covers (Text.trim_eq_nil.mp hblank ▸ .nil) .nil⟩
  · rename_i hvisible
    split
    · rename_i hmarkdown
      obtain ⟨spans, hsectioned⟩ := chunkMarkdown_sectioned limit hvisible
      refine ⟨spans, faithful_of_covers (content_markdownSections t ▸ hsectioned.covers)
        (hsectioned.stands.imp fun chunk s hstands => ?_)⟩
      rw [Stands, content_markdownSections] at hstands
      exact hstands.imp_right fun h => ⟨hmarkdown, h⟩
    · obtain ⟨spans, hlaid⟩ := chunkPlain_laid t limit
      exact ⟨spans, faithful_of_covers hlaid.covers (hlaid.renders.imp fun _ _ h => .inl h)⟩

/-- Chunking with an accepted size loses, reorders and invents nothing. Only on the Markdown
    path, and only for a later piece of an oversized section, a heading is repeated. -/
theorem chunkText_faithful (text : Text) {requestedSize : Option Int} {limit : Nat}
    (hlimit : chunkLimit requestedSize = .ok limit) :
    ∃ chunks spans, chunkText text requestedSize = .ok chunks ∧
      Faithful (normalizeExtractedText text) limit chunks spans := by
  obtain ⟨spans, h⟩ := chunkNormalized_faithful (normalizeExtractedText text) limit
  exact ⟨_, spans, chunkText_ok hlimit, h⟩

theorem chunkText_faithful_two : ∃ chunks spans,
    chunkText ['a', ' ', 'b', '.'] (some 2) = .ok chunks ∧
      Faithful (normalizeExtractedText ['a', ' ', 'b', '.']) 2 chunks spans :=
  chunkText_faithful _ rfl

end Chunking
