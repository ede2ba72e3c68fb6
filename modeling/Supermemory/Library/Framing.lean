-- SUMMARY: Records that end with a mark each: what is left of them when the end of a file is cut off.
import Mathlib.Data.List.Basic
import Mathlib.Data.List.Infix

/-!
# Marked records

A file holds records one after another, each with a mark behind it, and the mark occurs in
no record. When the end of the file is missing, some whole records are left, and maybe the
beginning of the next one. Splitting at the marks finds them again.
-/

namespace Framing

variable {β : Type*} {mark : β} {records whole rest : List (List β)} {cut part : List β}

def framed (mark : β) (records : List (List β)) : List β := records.flatMap (· ++ [mark])

@[simp] theorem framed_nil : framed mark [] = [] := rfl

@[simp] theorem framed_cons (r : List β) : framed mark (r :: records) = r ++ mark :: framed mark records := by
  simp [framed]

theorem framed_append : framed mark (whole ++ rest) = framed mark whole ++ framed mark rest :=
  List.flatMap_append

/-- What a cut leaves: whole records, and a part of the record that comes next. -/
theorem of_prefix (h : cut <+: framed mark records) : ∃ whole rest part, records = whole ++ rest ∧
    cut = framed mark whole ++ part ∧ part <+: rest.headD [] := by
  induction records generalizing cut with
  | nil => exact ⟨[], [], cut, rfl, rfl, h⟩
  | cons r records ih =>
    rw [framed_cons] at h
    cases List.prefix_or_prefix_of_prefix h (List.prefix_append r _) with
    | inl hpart => exact ⟨[], r :: records, cut, rfl, rfl, hpart⟩
    | inr hwhole =>
      obtain ⟨behind, rfl⟩ := hwhole
      cases behind with
      | nil => exact ⟨[], r :: records, r, rfl, by simp, List.prefix_rfl⟩
      | cons c behind =>
        obtain ⟨rfl, hbehind⟩ := List.cons_prefix_cons.mp ((List.prefix_append_right_inj r).mp h)
        obtain ⟨whole, rest, part, rfl, rfl, hpart⟩ := ih hbehind
        exact ⟨r :: whole, rest, part, rfl, by simp, hpart⟩

/-- Splitting at the marks finds the records, and splits what is behind them. -/
theorem splitOn_framed [BEq β] [LawfulBEq β] (h : ∀ r ∈ whole, mark ∉ r) :
    (framed mark whole ++ part).splitOn mark = whole ++ part.splitOn mark := by
  induction whole with
  | nil => rfl
  | cons r whole ih =>
    obtain ⟨hr, hwhole⟩ := List.forall_mem_cons.mp h
    rw [framed_cons, List.append_assoc, List.cons_append, List.splitOn_append_cons_self_of_not_mem hr, ih hwhole]
    rfl

end Framing
