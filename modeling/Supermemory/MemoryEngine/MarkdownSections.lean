-- SUMMARY: Markdown sections: groups of lines headed outside any fence, and the one chunk in which a section that fits stands whole.
import Supermemory.MemoryEngine.ChunkCover

/-!
# Markdown sections

The lines of a text fall into consecutive groups, cut in front of every heading that
no code fence holds. A section is the trimmed text of a group that is not blank. The
packing loop turns runs of sections that fit into one chunk each, and a section that
is too long into the pieces of its own.
-/

namespace Chunking

-- ---------------------------------------------------------------------------
-- Groups of lines
-- ---------------------------------------------------------------------------

/-- Whether a fence is open behind the lines. Every fence line opens or closes one. -/
def fenceAfter (fenced : Bool) (lines : List Text) : Bool :=
  lines.foldl (fun fenced line => if isFence line then !fenced else fenced) fenced

@[simp] theorem fenceAfter_nil (fenced : Bool) : fenceAfter fenced [] = fenced := rfl

@[simp] theorem fenceAfter_cons (fenced : Bool) (line : Text) (lines : List Text) :
    fenceAfter fenced (line :: lines) = fenceAfter (if isFence line then !fenced else fenced) lines :=
  rfl

@[simp] theorem fenceAfter_append (fenced : Bool) (lines lines' : List Text) :
    fenceAfter fenced (lines ++ lines') = fenceAfter (fenceAfter fenced lines) lines' := by
  simp [fenceAfter]

/-- Lines without a fence line leave the fence as it is. -/
theorem fenceAfter_of_none {lines : List Text} (h : ∀ line ∈ lines, isFence line = false)
    (fenced : Bool) : fenceAfter fenced lines = fenced := by
  induction lines with
  | nil => rfl
  | cons line lines ih =>
    rw [fenceAfter_cons, h line (by simp)]
    exact ih fun l hl => h l (List.mem_cons_of_mem _ hl)

/-- Whether a fence is open behind the first lines of a text. -/
def fenceOpen (before : List Text) : Bool := fenceAfter false before

/-- A heading starts with `#`, a fence with a backtick. -/
theorem isFence_of_isHeading {line : Text} (h : isHeading line = true) : isFence line = false := by
  cases line with
  | nil => rfl
  | cons c rest =>
    by_cases hc : c = '#'
    · subst hc
      rfl
    · simp [isHeading, hc] at h

/-- The lines of a text cut into consecutive groups. Every group but possibly the first starts
    with a heading outside any fence, and no group holds a further heading outside a fence. -/
structure Sectioning (lines : List Text) (groups : List (List Text)) : Prop where
  lines : groups.flatten = lines
  nonempty : ∀ group ∈ groups, group ≠ []
  headed : ∀ before group after, groups = before ++ group :: after → before ≠ [] →
    ∃ heading rest, group = heading :: rest ∧ isHeading heading = true ∧
      fenceOpen before.flatten = false
  closed : ∀ before group after, groups = before ++ group :: after →
    ∀ front line back, group = front ++ line :: back → front ≠ [] → isHeading line = true →
      fenceOpen (before.flatten ++ front) = true

/-- The text of a group: its lines, joined and trimmed. -/
def sectionText (group : List Text) : Text := Text.trim (Text.join ['\n'] group)

/-- The texts of the groups that are not blank. -/
def sectionsOf (groups : List (List Text)) : List Text := (groups.map sectionText).filter (· ≠ [])

theorem sectionsOf_cons (group : List Text) (groups : List (List Text)) (sections : List Text) :
    sections ++ sectionsOf (group :: groups) =
      pushTrimmed sections (Text.join ['\n'] group) ++ sectionsOf groups := by
  unfold pushTrimmed sectionsOf
  rw [List.map_cons, List.filter_cons]
  by_cases h : sectionText group = []
  · simp [h, show Text.trim (Text.join ['\n'] group) = [] from h]
  · simp [show ¬ Text.trim (Text.join ['\n'] group) = [] from h, sectionText]

/-- No heading of the lines stands outside a fence. -/
def Unheaded (fenced : Bool) (lines : List Text) : Prop :=
  ∀ front line back, lines = front ++ line :: back → isHeading line = true →
    fenceAfter fenced front = true

/-- Every group starts with a heading outside any fence and holds no further one. -/
def AllHeaded (fenced : Bool) (groups : List (List Text)) : Prop :=
  ∀ before group after, groups = before ++ group :: after →
    ∃ heading rest, group = heading :: rest ∧ isHeading heading = true ∧
      fenceAfter fenced before.flatten = false ∧ Unheaded false rest

theorem unheaded_nil (fenced : Bool) : Unheaded fenced [] := by
  intro front line back h
  simp at h

theorem Unheaded.cons {fenced : Bool} {line : Text} {lines : List Text}
    (hline : isHeading line = true → fenced = true)
    (h : Unheaded (if isFence line then !fenced else fenced) lines) :
    Unheaded fenced (line :: lines) := by
  intro front heading back heq hheading
  cases front with
  | nil =>
    obtain ⟨rfl, -⟩ := List.cons.inj heq
    exact hline hheading
  | cons first front =>
    obtain ⟨rfl, hrest⟩ := List.cons.inj heq
    exact h front heading back hrest hheading

theorem allHeaded_nil (fenced : Bool) : AllHeaded fenced [] := by
  intro before group after h
  simp at h

theorem AllHeaded.cons {heading : Text} {rest : List Text} {groups : List (List Text)}
    (hheading : isHeading heading = true) (hrest : Unheaded false rest)
    (h : AllHeaded (fenceAfter false rest) groups) : AllHeaded false ((heading :: rest) :: groups) := by
  intro before group after heq
  cases before with
  | nil =>
    obtain ⟨rfl, -⟩ := List.cons.inj heq
    exact ⟨heading, rest, rfl, hheading, rfl, hrest⟩
  | cons first before =>
    obtain ⟨rfl, hgroups⟩ := List.cons.inj heq
    obtain ⟨heading', rest', hgroup, hheading', hclosed, hunheaded⟩ := h before group after hgroups
    refine ⟨heading', rest', hgroup, hheading', ?_, hunheaded⟩
    rw [List.flatten_cons, fenceAfter_append, fenceAfter_cons, isFence_of_isHeading hheading]
    exact hclosed

/-- The loop closes the open group behind some of the lines, and puts the others into groups of their own. -/
def ClosesGroup (lines sections current : List Text) (fenced : Bool) : Prop :=
  ∃ more groups, lines = more ++ groups.flatten ∧ Unheaded fenced more ∧
    AllHeaded (fenceAfter fenced more) groups ∧
    markdownSectionsLoop lines sections current fenced = sections ++ sectionsOf ((current ++ more) :: groups)

/-- The open group takes a line that does not start one. -/
theorem ClosesGroup.takes {line : Text} {rest sections current : List Text} {fenced : Bool}
    (hline : isHeading line = true → fenced = true)
    (hloop : markdownSectionsLoop (line :: rest) sections current fenced =
      markdownSectionsLoop rest sections (current ++ [line]) (if isFence line then !fenced else fenced))
    (h : ClosesGroup rest sections (current ++ [line]) (if isFence line then !fenced else fenced)) :
    ClosesGroup (line :: rest) sections current fenced := by
  obtain ⟨more, groups, hlines, hmore, hgroups, hrest⟩ := h
  refine ⟨line :: more, groups, by rw [hlines]; rfl, Unheaded.cons hline hmore, ?_, ?_⟩
  · rw [fenceAfter_cons]
    exact hgroups
  · rw [hloop, hrest, List.append_assoc, List.singleton_append]

/-- A heading outside a fence starts the next group. -/
theorem ClosesGroup.starts {line : Text} {rest sections current : List Text} (hheading : isHeading line = true)
    (hloop : markdownSectionsLoop (line :: rest) sections current false =
      markdownSectionsLoop rest (pushTrimmed sections (Text.join ['\n'] current)) [line] false)
    (h : ClosesGroup rest (pushTrimmed sections (Text.join ['\n'] current)) [line] false) :
    ClosesGroup (line :: rest) sections current false := by
  obtain ⟨more, groups, hlines, hmore, hgroups, hrest⟩ := h
  refine ⟨[], (line :: more) :: groups, by rw [hlines]; rfl, unheaded_nil _, AllHeaded.cons hheading hmore hgroups, ?_⟩
  rw [hloop, hrest, List.append_nil, sectionsOf_cons current, List.singleton_append]

theorem markdownSectionsLoop_groups (lines sections current : List Text) (fenced : Bool)
    (hcurrent : current ≠ []) : ClosesGroup lines sections current fenced := by
  induction lines generalizing sections current fenced with
  | nil =>
    refine ⟨[], [], rfl, unheaded_nil fenced, allHeaded_nil _, ?_⟩
    rw [markdownSectionsLoop, if_neg hcurrent, sectionsOf_cons, List.append_nil]
    exact (List.append_nil _).symm
  | cons line rest ih =>
    by_cases hfence : isFence line = true
    · apply ClosesGroup.takes
      · intro hheading
        rw [isFence_of_isHeading hheading] at hfence
        cases hfence
      · rw [markdownSectionsLoop, if_pos hfence, if_pos hfence]
      · exact ih sections (current ++ [line]) _ (by simp)
    · by_cases hstart : (!fenced && isHeading line) = true
      · obtain ⟨hopen, hheading⟩ := Bool.and_eq_true_iff.mp hstart
        obtain rfl : fenced = false := by simpa using hopen
        apply ClosesGroup.starts hheading
        · rw [markdownSectionsLoop, if_neg hfence, if_pos hstart, if_neg hcurrent]
        · exact ih _ [line] false (by simp)
      · apply ClosesGroup.takes
        · intro hheading
          simpa [hheading] using hstart
        · rw [markdownSectionsLoop, if_neg hfence, if_neg hstart, if_neg hfence]
        · exact ih sections (current ++ [line]) _ (by simp)

/-- The first line opens the first group, whatever it is. -/
theorem markdownSectionsLoop_first (line : Text) (rest : List Text) :
    markdownSectionsLoop (line :: rest) [] [] false =
      markdownSectionsLoop rest [] [line] (fenceAfter false [line]) := by
  rw [markdownSectionsLoop, fenceAfter_cons, fenceAfter_nil]
  by_cases hfence : isFence line = true
  · rw [if_pos hfence, if_pos hfence, List.nil_append]
  · rw [if_neg hfence, if_neg hfence, if_pos rfl]
    exact ite_self _

theorem sectioning_of_headed {line : Text} {more : List Text} {groups : List (List Text)}
    (hmore : Unheaded (fenceAfter false [line]) more)
    (hgroups : AllHeaded (fenceAfter (fenceAfter false [line]) more) groups) :
    Sectioning (line :: (more ++ groups.flatten)) ((line :: more) :: groups) where
  lines := rfl
  nonempty := by
    intro group hgroup
    cases hgroup with
    | head => simp
    | tail _ hgroup =>
      obtain ⟨before, after, hsplit⟩ := List.append_of_mem hgroup
      obtain ⟨heading, rest, rfl, -⟩ := hgroups before group after hsplit
      simp
  headed := by
    intro before group after hsplit hbefore
    cases before with
    | nil => exact absurd rfl hbefore
    | cons first before =>
      obtain ⟨rfl, hsplit'⟩ := List.cons.inj hsplit
      obtain ⟨heading, rest, hgroup, hheading, hclosed, -⟩ := hgroups before group after hsplit'
      refine ⟨heading, rest, hgroup, hheading, ?_⟩
      rw [List.flatten_cons, fenceOpen, List.cons_append, ← List.singleton_append, fenceAfter_append,
        fenceAfter_append]
      exact hclosed
  closed := by
    intro before group after hsplit front heading back hgroup hfront hheading
    cases front with
    | nil => exact absurd rfl hfront
    | cons first front =>
      cases before with
      | nil =>
        obtain ⟨rfl, -⟩ := List.cons.inj hsplit
        obtain ⟨rfl, hback⟩ := List.cons.inj hgroup
        exact hmore front heading back hback hheading
      | cons opening before =>
        obtain ⟨rfl, hsplit'⟩ := List.cons.inj hsplit
        obtain ⟨heading', rest, hrest, hheading', hclosed, hunheaded⟩ :=
          hgroups before group after hsplit'
        obtain ⟨rfl, hback⟩ := List.cons.inj (hgroup.symm.trans hrest)
        have := hunheaded front heading back hback.symm hheading
        rw [List.flatten_cons, fenceOpen, fenceAfter_append, List.cons_append, ← List.singleton_append,
          fenceAfter_append, fenceAfter_append, hclosed, fenceAfter_cons, isFence_of_isHeading hheading']
        exact this

theorem markdownSections_sectioning (text : Text) :
    ∃ groups, Sectioning (text.splitOn '\n') groups ∧ markdownSections text = sectionsOf groups := by
  obtain ⟨line, rest, hlines⟩ := List.exists_cons_of_ne_nil (List.splitOn_ne_nil '\n' text)
  obtain ⟨more, groups, hrest, hmore, hgroups, hloop⟩ :=
    markdownSectionsLoop_groups rest [] [line] (fenceAfter false [line]) (by simp)
  refine ⟨(line :: more) :: groups, ?_, ?_⟩
  · rw [hlines, hrest]
    exact sectioning_of_headed hmore hgroups
  · rw [markdownSections, hlines, markdownSectionsLoop_first, hloop]
    rfl

/-! ## Fenced blocks -/

/-- A fenced block behind the lines `before`: a fence line that opens it, the lines up to the
    next fence line, and that one unless the fence is left open. -/
structure FencedBlock (before : List Text) (opening : Text) (inner : List Text)
    (closing : Option Text) : Prop where
  outside : fenceOpen before = false
  opens : isFence opening = true
  inside : ∀ line ∈ inner, isFence line = false
  closes : ∀ line ∈ closing, isFence line = true

/-- The lines of a fenced block. -/
def blockLines (opening : Text) (inner : List Text) (closing : Option Text) : List Text :=
  opening :: (inner ++ closing.toList)

theorem split_at_line {groups : List (List Text)} {before rest : List Text} {line : Text}
    (h : groups.flatten = before ++ line :: rest) :
    ∃ front head back after, groups = front ++ (head ++ line :: back) :: after ∧
      before = front.flatten ++ head ∧ rest = back ++ after.flatten := by
  rcases List.flatten_eq_append_iff.mp h with ⟨front, groups', rfl, rfl, hrest⟩ |
    ⟨front, head, c, back, after, rfl, rfl, hrest⟩
  · obtain ⟨empty, back, after, rfl, hempty, rfl⟩ := List.flatten_eq_cons_iff.mp hrest.symm
    have hnil : empty.flatten = [] := List.flatten_eq_nil_iff.mpr hempty
    refine ⟨front ++ empty, [], back, after, ?_, ?_, rfl⟩
    · rw [List.append_assoc, List.nil_append]
    · rw [List.flatten_append, hnil, List.append_nil, List.append_nil]
  · obtain ⟨rfl, rfl⟩ := List.cons.inj hrest
    exact ⟨front, head, back, after, rfl, rfl, rfl⟩

/-- A part of a fenced block that does not reach its last line leaves the fence open. -/
theorem FencedBlock.open_inside {before inner front : List Text} {opening next : Text}
    {closing : Option Text} {back : List Text} (h : FencedBlock before opening inner closing)
    (hsplit : inner ++ closing.toList = front ++ next :: back) :
    fenceOpen (before ++ opening :: front) = true := by
  have hinner : ∀ line ∈ front, isFence line = false := by
    have hbegins : front <+: inner := by
      apply List.prefix_of_prefix_length_le (List.prefix_append front (next :: back))
        (hsplit ▸ List.prefix_append inner closing.toList)
      have hlen := congrArg List.length hsplit
      have hclosing : closing.toList.length ≤ 1 := by cases closing <;> simp
      simp only [List.length_append, List.length_cons] at hlen
      omega
    exact fun line hline => h.inside line (hbegins.subset hline)
  have houtside := h.outside
  unfold fenceOpen at houtside ⊢
  rw [fenceAfter_append, houtside, fenceAfter_cons, if_pos h.opens, fenceAfter_of_none hinner]
  rfl

/-- A fenced block of the text lies within one group. -/
theorem Sectioning.fencedBlock {lines before inner after : List Text} {groups : List (List Text)}
    {opening : Text} {closing : Option Text} (h : Sectioning lines groups)
    (hlines : lines = before ++ blockLines opening inner closing ++ after)
    (hblock : FencedBlock before opening inner closing) :
    ∃ group ∈ groups, blockLines opening inner closing <:+: group := by
  have hflat : groups.flatten = before ++ opening :: (inner ++ closing.toList ++ after) := by
    rw [h.lines, hlines, blockLines, List.append_assoc, List.cons_append]
  obtain ⟨front, head, back, later, rfl, rfl, hrest⟩ := split_at_line hflat
  refine ⟨head ++ opening :: back, by simp, ?_⟩
  rcases List.append_eq_append_iff.mp hrest with ⟨more, rfl, -⟩ | ⟨left, hleft, hlater⟩
  · exact ⟨head, more, by simp [blockLines]⟩
  · cases left with
    | nil =>
      rw [List.append_nil] at hleft
      exact ⟨head, [], by simp [blockLines, hleft]⟩
    | cons next left =>
      -- the next group would start inside the block
      exfalso
      have hopen := hblock.open_inside hleft
      cases later with
      | nil => cases hlater
      | cons group later =>
        obtain ⟨-, -, -, -, hclosed⟩ :=
          h.headed (front ++ [head ++ opening :: back]) group later (by simp) (by simp)
        rw [List.flatten_append, List.flatten_singleton, ← List.append_assoc, hopen] at hclosed
        cases hclosed

/-- The lines of a group stand together in the text of its section. -/
theorem sectionText_within {block group : List Text} (h : block <:+: group) :
    sectionText block <:+: sectionText group :=
  Text.trim_mono (Text.join_within ['\n'] h)

/-- A group with a fence line is not blank. -/
theorem sectionText_mem {group : List Text} {groups : List (List Text)} {opening : Text}
    (hgroup : group ∈ groups) (hopening : opening ∈ group) (hfence : isFence opening = true) :
    sectionText group ∈ sectionsOf groups := by
  refine List.mem_filter.mpr ⟨List.mem_map_of_mem hgroup, ?_⟩
  have hvisible : sectionText [opening] ≠ [] := by
    obtain ⟨rest, rfl⟩ := List.isPrefixOf_iff_prefix.mp hfence
    intro hblank
    have hws := Text.squeeze_eq_nil.mp (Text.trim_eq_nil.mp hblank) '`' (by simp [Text.join])
    simp [Text.isWhitespace] at hws
  obtain ⟨front, back, rfl⟩ := List.append_of_mem hopening
  have hwithin : sectionText [opening] <:+: sectionText (front ++ opening :: back) :=
    sectionText_within ⟨front, back, by rw [List.append_assoc]; rfl⟩
  have hne : sectionText (front ++ opening :: back) ≠ [] := by
    intro hblank
    rw [hblank] at hwithin
    exact hvisible (List.infix_nil.mp hwithin)
  simpa using hne

theorem solid_sectionsOf (groups : List (List Text)) : ∀ sect ∈ sectionsOf groups, Solid sect := by
  intro sect hsect
  obtain ⟨hmem, hne⟩ := List.mem_filter.mp hsect
  obtain ⟨group, -, rfl⟩ := List.mem_map.mp hmem
  have hvisible : sectionText group ≠ [] := by simpa using hne
  exact solid_trim hvisible

-- ---------------------------------------------------------------------------
-- Sections and chunks
-- ---------------------------------------------------------------------------

/-- What the packing loop turns into chunks at once: a run of sections that fit a chunk, or one
    section that does not. -/
inductive Block (limit : Nat) where
  | packed (sections : List Text) (hne : sections ≠ [])
      (hfits : ∀ sect ∈ sections, Text.utf16Len sect ≤ limit)
  | long (sect : Text) (hlong : limit < Text.utf16Len sect)

namespace Block

variable {limit : Nat}

def sections : Block limit → List Text
  | packed sections _ _ => sections
  | long sect _ => [sect]

def chunks : Block limit → List Text
  | packed sections _ _ => [Text.join ['\n', '\n'] sections]
  | long sect _ => splitSection sect limit

/-- The chunks of each section of the block, where the block's own start at the first. -/
def spans : Block limit → List Span
  | packed sections _ _ => sections.map fun _ => ⟨0, 1⟩
  | long sect _ => [⟨0, (splitSection sect limit).length⟩]

end Block

theorem join_blankLine_solid {held : List Text} (hne : held ≠ []) (h : ∀ sect ∈ held, Solid sect) :
    Solid (Text.join ['\n', '\n'] held) := by
  have hblank : Text.squeeze ['\n', '\n'] = [] := by decide
  have hclosed := closed_solid hblank hne h
  rwa [closed, Text.trim_eq_self (trimmed_join _ h)] at hclosed

theorem pushTrimmed_solid {value : Text} (h : Solid value) (target : List Text) :
    pushTrimmed target value = target ++ [value] := by
  rw [pushTrimmed, Text.trim_eq_self h.2, if_neg h.1]

section Blocks

variable {limit : Nat} {pending : Text}

/-- Closing the pending run of sections gives its block. -/
theorem pushTrimmed_block (held chunks : List Text) (hpending : pending = Text.join ['\n', '\n'] held)
    (hfits : ∀ sect ∈ held, Text.utf16Len sect ≤ limit) (hheld : ∀ sect ∈ held, Solid sect) :
    ∃ blocks : List (Block limit), blocks.flatMap Block.sections = held ∧
      pushTrimmed chunks pending = chunks ++ blocks.flatMap Block.chunks := by
  by_cases hne : held = []
  · refine ⟨[], hne.symm, ?_⟩
    rw [hpending, hne]
    exact (List.append_nil chunks).symm
  · refine ⟨[.packed held hne hfits], by simp [Block.sections], ?_⟩
    rw [hpending, pushTrimmed_solid (join_blankLine_solid hne hheld)]
    simp [Block.chunks]

/-- The loop turns the sections into blocks, from the left. The pending text is a run of sections
    `held` that fit. -/
theorem chunkMarkdownLoop_blocks (held : List Text) {rest chunks : List Text}
    (hpending : pending = Text.join ['\n', '\n'] held)
    (hfits : ∀ sect ∈ held, Text.utf16Len sect ≤ limit)
    (hheld : ∀ sect ∈ held, Solid sect) (hrest : ∀ sect ∈ rest, Solid sect) :
    ∃ blocks : List (Block limit), blocks.flatMap Block.sections = held ++ rest ∧
      chunkMarkdownLoop limit rest chunks pending = chunks ++ blocks.flatMap Block.chunks := by
  induction rest, chunks, pending using chunkMarkdownLoop.induct limit generalizing held with
  | case1 chunks pending =>
    obtain ⟨blocks, hsections, hchunks⟩ := pushTrimmed_block held chunks hpending hfits hheld
    refine ⟨blocks, by rw [hsections, List.append_nil], ?_⟩
    rw [chunkMarkdownLoop, hchunks]
  | case2 sect rest chunks pending hlong ih =>
    have hrest' : ∀ s ∈ rest, Solid s := fun s hs => hrest s (List.mem_cons_of_mem _ hs)
    obtain ⟨before, hbefore, hpushed⟩ := pushTrimmed_block held chunks hpending hfits hheld
    obtain ⟨later, hlater, hloop⟩ := ih [] rfl (by simp) (by simp) hrest'
    refine ⟨before ++ .long sect hlong :: later, ?_, ?_⟩
    · rw [List.flatMap_append, List.flatMap_cons, hbefore, hlater]
      rfl
    · rw [chunkMarkdownLoop, if_pos hlong, hloop, hpushed, List.flatMap_append, List.flatMap_cons]
      simp only [Block.chunks, List.append_assoc]
  | case3 sect rest chunks hlong ih =>
    have hsect := hrest sect (by simp)
    have hrest' : ∀ s ∈ rest, Solid s := fun s hs => hrest s (List.mem_cons_of_mem _ hs)
    have hnone : held = [] := by
      by_contra hne
      exact (join_blankLine_solid hne hheld).1 hpending.symm
    obtain ⟨blocks, hsections, hloop⟩ := ih [sect] (by simp [Text.join])
      (by simpa using hlong) (by simpa using hsect) hrest'
    refine ⟨blocks, by rw [hsections, hnone]; rfl, ?_⟩
    rw [chunkMarkdownLoop, if_neg hlong, if_pos rfl, hloop]
  | case4 sect rest chunks pending hlong hne hfull ih =>
    have hsect := hrest sect (by simp)
    have hrest' : ∀ s ∈ rest, Solid s := fun s hs => hrest s (List.mem_cons_of_mem _ hs)
    obtain ⟨before, hbefore, hpushed⟩ := pushTrimmed_block held chunks hpending hfits hheld
    obtain ⟨later, hlater, hloop⟩ := ih [sect] (by simp [Text.join])
      (by simpa using hlong) (by simpa using hsect) hrest'
    refine ⟨before ++ later, ?_, ?_⟩
    · rw [List.flatMap_append, hbefore, hlater, List.singleton_append]
    · rw [chunkMarkdownLoop, if_neg hlong, if_neg hne, if_pos hfull, hloop, hpushed,
        List.flatMap_append, List.append_assoc]
  | case5 sect rest chunks pending hlong hne hfull ih =>
    have hsect := hrest sect (by simp)
    have hrest' : ∀ s ∈ rest, Solid s := fun s hs => hrest s (List.mem_cons_of_mem _ hs)
    have hsome : held ≠ [] := by
      intro hnil
      rw [hnil] at hpending
      exact hne hpending
    have hjoined : pending ++ ['\n', '\n'] ++ sect = Text.join ['\n', '\n'] (held ++ [sect]) := by
      rw [Text.join_append _ hsome (by simp), hpending]
      simp [Text.join]
    obtain ⟨blocks, hsections, hloop⟩ := ih (held ++ [sect]) hjoined
      (List.forall_mem_append.mpr ⟨hfits, by simpa using hlong⟩)
      (List.forall_mem_append.mpr ⟨hheld, by simpa using hsect⟩) hrest'
    refine ⟨blocks, by rw [hsections, List.append_assoc, List.singleton_append], ?_⟩
    rw [chunkMarkdownLoop, if_neg hlong, if_neg hne, if_neg hfull, hloop]

end Blocks

theorem chunkMarkdown_blocks {text : Text} (limit : Nat) (hsome : markdownSections text ≠ []) :
    ∃ blocks : List (Block limit), blocks.flatMap Block.sections = markdownSections text ∧
      chunkMarkdown text limit = blocks.flatMap Block.chunks := by
  obtain ⟨groups, -, hgroups⟩ := markdownSections_sectioning text
  have hsolid : ∀ sect ∈ markdownSections text, Solid sect := hgroups ▸ solid_sectionsOf groups
  obtain ⟨blocks, hsections, hloop⟩ : ∃ blocks : List (Block limit),
      blocks.flatMap Block.sections = markdownSections text ∧
        chunkMarkdownLoop limit (markdownSections text) [] [] = blocks.flatMap Block.chunks :=
    chunkMarkdownLoop_blocks [] rfl (by simp) (by simp) hsolid
  refine ⟨blocks, hsections, ?_⟩
  unfold chunkMarkdown
  split
  · rename_i hnone
    exact absurd hnone hsome
  · exact hloop

/-! ## The chunks of each section -/

theorem splitSection_ne_nil {sect : Text} (h : Solid sect) (limit : Nat) : splitSection sect limit ≠ [] := by
  have hplain : chunkPlain sect limit ≠ [] := by
    intro hnil
    obtain ⟨spans, hlaid⟩ := chunkPlain_laid sect limit
    have hspans : spans = [] := by
      have := hlaid.renders.length_eq
      rwa [hnil, List.length_nil, eq_comm, List.length_eq_zero_iff] at this
    exact h.squeeze_ne_nil (hlaid.covers.nil_iff.mp hspans)
  unfold splitSection
  split
  · exact List.cons_ne_nil _ _
  · exact hplain

/-- A section that fits stands whole in the one chunk at `s`. The pieces of a longer one are the
    chunks at `s`. -/
def Placed (limit : Nat) (chunks : List Text) (sect : Text) (s : Span) : Prop :=
  if Text.utf16Len sect ≤ limit then ∃ chunk, s.slice chunks = [chunk] ∧ sect <:+: chunk
  else s.slice chunks = splitSection sect limit

/-- The sections are assigned to the chunks in order: no section is taken back behind an earlier
    one, and no chunk between the first and the last is left out. -/
structure Assigned (limit : Nat) (sections chunks : List Text) (spans : List Span) : Prop where
  placed : List.Forall₂ (Placed limit chunks) sections spans
  bounds : ∀ s ∈ spans, s.start < s.stop ∧ s.stop ≤ chunks.length
  first : ∀ s ∈ spans.head?, s.start = 0
  steps : spans.IsChain fun a b => a.start ≤ b.start ∧ a.stop ≤ b.stop ∧ b.start ≤ a.stop
  last : ∀ s ∈ spans.getLast?, s.stop = chunks.length

namespace Assigned

variable {limit : Nat} {sections sections' chunks chunks' : List Text} {spans spans' : List Span}

theorem placed_append {sect : Text} {s : Span} (h : Placed limit chunks sect s)
    (hs : s.stop ≤ chunks.length) (later : List Text) : Placed limit (chunks ++ later) sect s := by
  rwa [Placed, Span.slice_append hs]

theorem placed_shift {sect : Text} {s : Span} (h : Placed limit chunks sect s) (front : List Text) :
    Placed limit (front ++ chunks) sect (s.shift front.length) := by
  rwa [Placed, Span.slice_shift]

theorem append (h : Assigned limit sections chunks spans) (hne : spans ≠ [])
    (h' : Assigned limit sections' chunks' spans') (hne' : spans' ≠ []) :
    Assigned limit (sections ++ sections') (chunks ++ chunks')
      (spans ++ spans'.map (Span.shift chunks.length)) where
  placed := by
    refine List.rel_append ?_ (List.forall₂_map_right_iff.mpr (h'.placed.imp ?_))
    · refine List.forall₂_iff_zip.mpr ⟨h.placed.length_eq, fun {sect s} hmem => ?_⟩
      exact placed_append (List.forall₂_zip h.placed hmem)
        (h.bounds s (List.of_mem_zip hmem).2).2 chunks'
    · exact fun _ _ hplaced => placed_shift hplaced chunks
  bounds := by
    intro s hs
    rw [List.length_append]
    cases List.mem_append.mp hs with
    | inl hs =>
      have := h.bounds s hs
      omega
    | inr hs =>
      obtain ⟨r, hr, rfl⟩ := List.mem_map.mp hs
      have := h'.bounds r hr
      simp only [Span.shift_start, Span.shift_stop]
      omega
  first := by
    intro s hs
    rw [List.head?_append_of_ne_nil _ hne] at hs
    exact h.first s hs
  steps := by
    have hshift : (spans'.map (Span.shift chunks.length)).IsChain
        fun a b => a.start ≤ b.start ∧ a.stop ≤ b.stop ∧ b.start ≤ a.stop := by
      refine (List.isChain_map _).mpr (h'.steps.imp ?_)
      intro a b hab
      simpa only [Span.shift_start, Span.shift_stop, Nat.add_le_add_iff_right] using hab
    refine h.steps.append hshift ?_
    intro a ha b hb
    have hstop := h.last a ha
    have hstart := h.bounds a (List.mem_of_getLast? ha)
    rw [List.head?_map] at hb
    obtain ⟨r, hr, rfl⟩ := Option.mem_map.mp hb
    have hfirst := h'.first r hr
    simp only [Span.shift_start, Span.shift_stop]
    omega
  last := by
    intro s hs
    rw [List.length_append]
    rw [List.getLast?_append_of_ne_nil _ (by simpa using hne'), List.getLast?_map] at hs
    obtain ⟨r, hr, rfl⟩ := Option.mem_map.mp hs
    have := h'.last r hr
    simp only [Span.shift_stop]
    omega

end Assigned

namespace Block

variable {limit : Nat}

theorem spans_ne_nil (b : Block limit) : b.spans ≠ [] := by
  cases b with
  | packed sections hne hfits => simpa [spans] using hne
  | long sect hlong => exact List.cons_ne_nil _ _

theorem assigned (b : Block limit) (hsolid : ∀ sect ∈ b.sections, Solid sect) :
    Assigned limit b.sections b.chunks b.spans := by
  cases b with
  | packed sections hne hfits =>
    have hspan : ∀ s ∈ (packed sections hne hfits).spans, s = ⟨0, 1⟩ := by
      intro s hs
      obtain ⟨sect, -, rfl⟩ := List.mem_map.mp hs
      rfl
    refine ⟨?_, ?_, ?_, ?_, ?_⟩
    · refine List.forall₂_map_right_iff.mpr (List.forall₂_same.mpr fun sect hsect => ?_)
      rw [Placed, if_pos (hfits sect hsect)]
      refine ⟨_, rfl, ?_⟩
      obtain ⟨front, back, hsplit⟩ := List.append_of_mem hsect
      have hone : [sect] <:+: sections := ⟨front, back, by rw [List.append_assoc]; exact hsplit.symm⟩
      simpa [Text.join] using Text.join_within ['\n', '\n'] hone
    · intro s hs
      rw [hspan s hs]
      exact ⟨Nat.one_pos, Nat.le_refl 1⟩
    · intro s hs
      rw [hspan s (List.mem_of_head? hs)]
    · apply List.Pairwise.isChain
      apply List.pairwise_of_forall_mem_list
      intro a ha b hb
      rw [hspan a ha, hspan b hb]
      exact ⟨Nat.le_refl 0, Nat.le_refl 1, Nat.zero_le 1⟩
    · intro s hs
      rw [hspan s (List.mem_of_getLast? hs)]
      rfl
  | long sect hlong =>
    have hpos : 0 < (splitSection sect limit).length :=
      List.length_pos_iff.mpr (splitSection_ne_nil (hsolid sect (by simp [sections])) limit)
    refine ⟨.cons ?_ .nil, ?_, ?_, .singleton _, ?_⟩
    · rw [Placed, if_neg (Nat.not_le.mpr hlong)]
      exact List.take_length
    · intro s hs
      obtain rfl := List.mem_singleton.mp hs
      exact ⟨hpos, Nat.le_refl _⟩
    · intro s hs
      obtain rfl : Span.mk 0 (splitSection sect limit).length = s := by simpa [spans] using hs
      rfl
    · intro s hs
      obtain rfl : Span.mk 0 (splitSection sect limit).length = s := by simpa [spans] using hs
      rfl

end Block

/-- The chunks of each section of the blocks. -/
def blockSpans {limit : Nat} : List (Block limit) → List Span
  | [] => []
  | b :: blocks => b.spans ++ (blockSpans blocks).map (Span.shift b.chunks.length)

theorem blocks_assigned {limit : Nat} {blocks : List (Block limit)} (hne : blocks ≠ [])
    (hsolid : ∀ sect ∈ blocks.flatMap Block.sections, Solid sect) :
    Assigned limit (blocks.flatMap Block.sections) (blocks.flatMap Block.chunks) (blockSpans blocks) := by
  induction blocks with
  | nil => exact absurd rfl hne
  | cons b blocks ih =>
    obtain ⟨hb, hblocks⟩ := List.forall_mem_append.mp hsolid
    have hfirst := b.assigned hb
    cases blocks with
    | nil => simpa [blockSpans] using hfirst
    | cons c blocks =>
      have hspans : blockSpans (c :: blocks) ≠ [] := by
        simp [blockSpans, c.spans_ne_nil]
      exact hfirst.append b.spans_ne_nil (ih (List.cons_ne_nil _ _) hblocks) hspans

/-- The chunks to which the sections of a text are assigned. -/
theorem chunkMarkdown_assigned (text : Text) (limit : Nat) :
    ∃ spans, Assigned limit (markdownSections text) (chunkMarkdown text limit) spans := by
  by_cases hsome : markdownSections text = []
  · rw [hsome]
    exact ⟨[], .nil, by simp, by simp, .nil, by simp⟩
  · obtain ⟨groups, -, hgroups⟩ := markdownSections_sectioning text
    obtain ⟨blocks, hsections, hchunks⟩ := chunkMarkdown_blocks limit hsome
    have hsolid : ∀ sect ∈ blocks.flatMap Block.sections, Solid sect := by
      rw [hsections, hgroups]
      exact solid_sectionsOf groups
    have hne : blocks ≠ [] := by
      intro hnil
      rw [hnil] at hsections
      exact hsome hsections.symm
    rw [← hsections, hchunks]
    exact ⟨blockSpans blocks, blocks_assigned hne hsolid⟩

/-- Sections are kept whole. The lines of a text are cut in front of every heading outside any
    fence, the sections are assigned to the chunks in order, and a section that fits stands whole
    in its one chunk. So does every fenced block of the text whose section fits. -/
theorem chunkMarkdown_keeps_sections (text : Text) (limit : Nat) :
    ∃ groups spans, Sectioning (text.splitOn '\n') groups ∧
      markdownSections text = sectionsOf groups ∧
      Assigned limit (sectionsOf groups) (chunkMarkdown text limit) spans ∧
      ∀ before opening inner closing after,
        text.splitOn '\n' = before ++ blockLines opening inner closing ++ after →
        FencedBlock before opening inner closing →
        ∃ group ∈ groups, blockLines opening inner closing <:+: group ∧
          sectionText group ∈ sectionsOf groups ∧
          ∀ s, (sectionText group, s) ∈ (sectionsOf groups).zip spans →
            Text.utf16Len (sectionText group) ≤ limit →
            ∃ chunk, s.slice (chunkMarkdown text limit) = [chunk] ∧
              sectionText (blockLines opening inner closing) <:+: chunk := by
  obtain ⟨groups, hsectioning, hgroups⟩ := markdownSections_sectioning text
  obtain ⟨spans, hassigned⟩ := chunkMarkdown_assigned text limit
  rw [hgroups] at hassigned
  refine ⟨groups, spans, hsectioning, hgroups, hassigned, ?_⟩
  intro before opening inner closing after hlines hblock
  obtain ⟨group, hgroup, hwithin⟩ := hsectioning.fencedBlock hlines hblock
  have hopening : opening ∈ group := hwithin.subset (List.mem_cons_self ..)
  refine ⟨group, hgroup, hwithin, sectionText_mem hgroup hopening hblock.opens, ?_⟩
  intro s hs hfits
  have hplaced := List.forall₂_zip hassigned.placed hs
  rw [Placed, if_pos hfits] at hplaced
  obtain ⟨chunk, hchunk, hwhole⟩ := hplaced
  exact ⟨chunk, hchunk, (sectionText_within hwithin).trans hwhole⟩

end Chunking
