-- SUMMARY: Covers of a list by overlapping intervals, built from the left and closed under concatenation.
import Mathlib.Data.List.Chain
import Mathlib.Data.List.Forall2

/-!
# Covers by overlapping intervals

A cover of a list is a sequence of intervals that starts at the first element,
ends at the last one, moves strictly forward at both ends and leaves no gap. Two
neighbours may overlap, and a predicate on the repeated elements bounds by how
much. Covers are built from the left, one interval at a time: a new interval
brings new elements and repeats a tail of what is covered already.
-/

/-- The positions from `start` up to, and without, `stop`. -/
structure Span where
  start : Nat
  stop : Nat
  deriving DecidableEq, Repr

namespace Span

variable {α : Type*}

/-- The elements of `t` at the positions of `s`. -/
def slice (s : Span) (t : List α) : List α := (t.take s.stop).drop s.start

def shift (n : Nat) (s : Span) : Span := ⟨s.start + n, s.stop + n⟩

@[simp] theorem shift_start (n : Nat) (s : Span) : (s.shift n).start = s.start + n := rfl
@[simp] theorem shift_stop (n : Nat) (s : Span) : (s.shift n).stop = s.stop + n := rfl

/-- Elements behind a span do not change what it selects. -/
theorem slice_append {s : Span} {t : List α} (h : s.stop ≤ t.length) (u : List α) :
    s.slice (t ++ u) = s.slice t := by
  rw [slice, slice, List.take_append_of_le_length h]

theorem slice_shift (s : Span) (t u : List α) : (s.shift t.length).slice (t ++ u) = s.slice u := by
  have htake : (t ++ u).take (s.stop + t.length) = t ++ u.take s.stop := by
    rw [Nat.add_comm, List.take_length_add_append]
  rw [slice, slice, shift_stop, htake, shift_start, Nat.add_comm, List.drop_length_add_append]

theorem slice_tail {k : Nat} {t : List α} (u : List α) (hk : k ≤ t.length) :
    (Span.mk k (t.length + u.length)).slice (t ++ u) = t.drop k ++ u := by
  rw [slice, ← List.length_append, List.take_length, List.drop_append_of_le_length hk]

end Span

/-- `Covers ok t spans`: the spans cover `t` from left to right, and what two
    neighbouring spans share satisfies `ok`. -/
inductive Covers {α : Type*} (ok : List α → Prop) : List α → List Span → Prop where
  | nil : Covers ok [] []
  | first {new : List α} (hnew : new ≠ []) : Covers ok new [⟨0, new.length⟩]
  | snoc {t new : List α} {spans : List Span} {last : Span} {k : Nat}
      (h : Covers ok t (spans ++ [last])) (hnew : new ≠ []) (hstart : last.start < k)
      (hk : k ≤ t.length) (hok : ok (t.drop k)) :
      Covers ok (t ++ new) (spans ++ [last] ++ [⟨k, t.length + new.length⟩])

namespace Covers

variable {α : Type*} {ok : List α → Prop} {t u new : List α} {spans spans' : List Span} {s last : Span}

/-- Two neighbouring spans: both ends move forward, there is no gap, and the
    shared elements satisfy `ok`. -/
structure Linked (ok : List α → Prop) (t : List α) (a b : Span) : Prop where
  start : a.start < b.start
  stop : a.stop < b.stop
  gap : b.start ≤ a.stop
  shared : ok ((Span.mk b.start a.stop).slice t)

/-! ## What a cover says -/

theorem nil_iff (h : Covers ok t spans) : spans = [] ↔ t = [] := by
  cases h with
  | nil => simp
  | first hnew => simp [hnew]
  | snoc _ hnew => simp [hnew]

theorem bounds (h : Covers ok t spans) : ∀ s ∈ spans, s.start < s.stop ∧ s.stop ≤ t.length := by
  induction h with
  | nil => simp
  | first hnew =>
    intro s hs
    obtain rfl := List.mem_singleton.mp hs
    exact ⟨List.length_pos_iff.mpr hnew, le_refl _⟩
  | @snoc t new spans last k _ hnew _ hk _ ih =>
    intro s hs
    rw [List.length_append]
    rcases List.mem_append.mp hs with hs | hs
    · have := ih s hs
      omega
    · obtain rfl := List.mem_singleton.mp hs
      have := List.length_pos_iff.mpr hnew
      exact ⟨by simp only; omega, le_refl _⟩

theorem head_start (h : Covers ok t spans) : ∀ s ∈ spans.head?, s.start = 0 := by
  induction h with
  | nil => simp
  | first => simp
  | @snoc _ _ spans last _ _ _ _ _ _ ih =>
    intro s hs
    apply ih s
    cases spans <;> simpa using hs

theorem last_stop (h : Covers ok t spans) : ∀ s ∈ spans.getLast?, s.stop = t.length := by
  cases h <;> simp

/-- Only the first span starts at the beginning. -/
theorem start_pos (h : Covers ok t spans) : ∀ s ∈ spans.tail, 0 < s.start := by
  induction h with
  | nil => simp
  | first => simp
  | @snoc t new spans last k _ _ hstart _ _ ih =>
    intro s hs
    rw [List.tail_append_of_ne_nil (by simp)] at hs
    rcases List.mem_append.mp hs with hs | hs
    · exact ih s hs
    · obtain rfl := List.mem_singleton.mp hs
      exact Nat.zero_lt_of_lt hstart

theorem chain (h : Covers ok t spans) : spans.IsChain (Linked ok t) := by
  induction h with
  | nil => exact .nil
  | first => exact .singleton _
  | @snoc t new spans last k h hnew hstart hk hok ih =>
    have hlast : last.stop = t.length := h.last_stop last (by simp)
    have hmono : ∀ a b, a ∈ spans ++ [last] → Linked ok t a b → Linked ok (t ++ new) a b := by
      intro a b ha hab
      refine ⟨hab.start, hab.stop, hab.gap, ?_⟩
      rw [Span.slice_append (s := ⟨b.start, a.stop⟩) (h.bounds a ha).2]
      exact hab.shared
    have hprev : (spans ++ [last]).IsChain (Linked ok (t ++ new)) :=
      ih.imp_of_mem_imp fun a b ha _ hab => hmono a b ha hab
    refine hprev.append (.singleton _) ?_
    intro a ha b hb
    obtain rfl : last = a := by simpa using ha
    obtain rfl : Span.mk k (t.length + new.length) = b := by simpa using hb
    have := List.length_pos_iff.mpr hnew
    refine ⟨hstart, by simp only [hlast]; omega, by simpa [hlast] using hk, ?_⟩
    rw [Span.slice_append (by simp [hlast]), Span.slice]
    simpa [hlast] using hok

/-! ## Building covers -/

/-- A new span that repeats nothing. -/
theorem snoc_disjoint (hok : ok []) (h : Covers ok t spans) (hnew : new ≠ []) :
    Covers ok (t ++ new) (spans ++ [⟨t.length, t.length + new.length⟩]) := by
  rcases List.eq_nil_or_concat spans with rfl | ⟨spans, last, rfl⟩
  · obtain rfl := h.nil_iff.mp rfl
    simpa using Covers.first hnew
  · rw [List.concat_eq_append] at h ⊢
    have hb := h.bounds last (by simp)
    have hk : last.start < t.length := by omega
    exact .snoc h hnew hk (le_refl _) (by simpa using hok)

/-- The last span grows by elements that follow it. -/
theorem extend (h : Covers ok t (spans ++ [last])) (more : List α) :
    Covers ok (t ++ more) (spans ++ [⟨last.start, t.length + more.length⟩]) := by
  generalize hs : spans ++ [last] = all at h
  cases h with
  | nil => simp at hs
  | first hnew =>
    obtain ⟨rfl, hl⟩ := List.append_eq_singleton_iff.mp hs |>.resolve_right (by simp)
    obtain rfl : last = _ := by simpa using hl
    rw [← List.length_append]
    exact .first (by simp [hnew])
  | @snoc t new spans' last' k h hnew hstart hk hok =>
    obtain ⟨rfl, hl⟩ := List.append_inj' hs rfl
    obtain rfl : last = _ := by simpa using hl
    have hlonger : new ++ more ≠ [] := by simp [hnew]
    simpa [Nat.add_assoc] using Covers.snoc h hlonger hstart hk hok

/-- Covers of two lists concatenate. -/
theorem append (hok : ok []) (h : Covers ok t spans) (h' : Covers ok u spans') :
    Covers ok (t ++ u) (spans ++ spans'.map (Span.shift t.length)) := by
  induction h' with
  | nil => simpa using h
  | first hnew => simpa [Span.shift, Nat.add_comm] using h.snoc_disjoint hok hnew
  | @snoc u new spans' last k _ hnew hstart hk hu ih =>
    simp only [List.map_append, List.map_singleton, ← List.append_assoc] at ih ⊢
    have hstep := Covers.snoc (k := k + t.length) ih hnew
      (by simpa using hstart) (by simp; omega)
      (by rw [Nat.add_comm, List.drop_length_add_append]; exact hu)
    simpa [Span.shift, Nat.add_comm, Nat.add_left_comm, Nat.add_assoc] using hstep

/-! ## Pieces that follow a cover -/

section Pieces

variable {γ : Type*} {R : γ → List α → Prop} {pieces pieces' : List γ} {piece : γ}

/-- Each piece stands for the elements of its span. -/
def Renders (R : γ → List α → Prop) (t : List α) (pieces : List γ) (spans : List Span) : Prop :=
  List.Forall₂ (fun piece s => R piece (s.slice t)) pieces spans

/-- What follows a covered list does not change the pieces of its cover. -/
theorem renders_append_right (h : Covers ok t spans) (hr : Renders R t pieces spans) (u : List α) :
    Renders R (t ++ u) pieces spans := by
  refine List.forall₂_iff_zip.mpr ⟨hr.length_eq, fun {piece s} hmem => ?_⟩
  have hs : s ∈ spans := (List.of_mem_zip hmem).2
  rw [Span.slice_append (h.bounds s hs).2]
  exact List.forall₂_zip hr hmem

theorem renders_shift (hr : Renders R u pieces spans) (t : List α) :
    Renders R (t ++ u) pieces (spans.map (Span.shift t.length)) := by
  refine List.forall₂_map_right_iff.mpr (hr.imp fun piece s h => ?_)
  rw [Span.slice_shift]
  exact h

/-- A piece for a new span, which may repeat a tail of what is covered. -/
theorem renders_snoc {k : Nat} (h : Covers ok t spans) (hr : Renders R t pieces spans)
    (hk : k ≤ t.length) (hpiece : R piece (t.drop k ++ new)) :
    Renders R (t ++ new) (pieces ++ [piece]) (spans ++ [⟨k, t.length + new.length⟩]) := by
  refine List.rel_append (renders_append_right h hr new) (.cons ?_ .nil)
  rwa [Span.slice_tail new hk]

theorem forall₂_concat {β : Type*} {R : γ → β → Prop} {b : β} {bs : List β}
    (h : List.Forall₂ R (pieces ++ [piece]) (bs ++ [b])) : List.Forall₂ R pieces bs ∧ R piece b := by
  have hlen : pieces.length = bs.length := by simpa using h.length_eq
  have htake := List.forall₂_take pieces.length h
  have hdrop := List.forall₂_drop pieces.length h
  rw [List.take_left, hlen, List.take_left] at htake
  rw [List.drop_left, hlen, List.drop_left] at hdrop
  exact ⟨htake, by simpa using hdrop⟩

/-- The last piece grows with its span. -/
theorem renders_extend (h : Covers ok t (spans ++ [last]))
    (hr : Renders R t (pieces ++ [piece']) (spans ++ [last]))
    (hpiece : R piece' (t.drop last.start) → R piece (t.drop last.start ++ new)) :
    Renders R (t ++ new) (pieces ++ [piece]) (spans ++ [⟨last.start, t.length + new.length⟩]) := by
  have hall := renders_append_right h hr new
  have hlast : last.stop = t.length := h.last_stop last (by simp)
  obtain ⟨hfront, hpiece'⟩ := forall₂_concat hall
  have hb := h.bounds last (by simp)
  refine List.rel_append hfront (.cons ?_ .nil)
  rw [Span.slice_tail new (by omega)]
  apply hpiece
  rw [Span.slice_append hb.2, Span.slice, hlast, List.take_length] at hpiece'
  exact hpiece'

theorem renders_append (h : Covers ok t spans) (hr : Renders R t pieces spans)
    (hr' : Renders R u pieces' spans') :
    Renders R (t ++ u) (pieces ++ pieces') (spans ++ spans'.map (Span.shift t.length)) :=
  List.rel_append (renders_append_right h hr u) (renders_shift hr' t)

end Pieces

end Covers
