-- SUMMARY: Which of several memories with one content a request to forget picks, and exactly when none of them stays visible.
import Supermemory.Storage.MemorySteps

/-!
# Forgetting

A request to forget a content picks the oldest row that holds it, is not forgotten and
has not expired. A profile and a search only see the latest memory of that content. The
two are the same memory unless a version that was updated long ago comes first.
-/

namespace Storage

variable {env : Env} {now : Time} {db db' : Database} {orgId containerTag content : String}
  {reason : Option String} {memoryId : String}

/-- The row holds the content in the profile, is not forgotten, and has not expired. -/
def Remembers (env : Env) (now : Time) (orgId containerTag content : String) (m : Memory) : Prop :=
  m.orgId = orgId ∧ m.containerTag = containerTag ∧ m.content = content ∧ m.isForgotten = false ∧
    Unexpired env now m

instance : DecidablePred (Remembers env now orgId containerTag content) :=
  fun _ => inferInstanceAs (Decidable (_ ∧ _))

/-- No memory of the profile with exactly that content is visible. -/
def Hides (env : Env) (now : Time) (orgId containerTag content : String) (db : Database) : Prop :=
  ∀ m ∈ db.memories, Remembers env now orgId containerTag content m → m.isLatest = false

/-- A row that would be forgotten as well comes before the latest one. -/
def StaleFirst (env : Env) (now : Time) (orgId containerTag content : String) (db : Database) : Prop :=
  ∃ earlier m later, db.memories.rows = earlier ++ m :: later ∧
    (Remembers env now orgId containerTag content m ∧ m.isLatest = true) ∧
    ∃ stale ∈ earlier, Remembers env now orgId containerTag content stale

/-- The row that is forgotten is the first one that holds the content. -/
theorem forgetMemoryFor_first
    (hok : forgetMemoryFor env now orgId none (some content) containerTag reason db = .ok (memoryId, db')) :
    ∃ earlier m later, db.memories.rows = earlier ++ m :: later ∧ m.id = memoryId ∧
      Remembers env now orgId containerTag content m ∧
      ∀ m' ∈ earlier, ¬ Remembers env now orgId containerTag content m' := by
  unfold forgetMemoryFor at hok
  split at hok
  · cases hok
  · rename_i m hfind
    cases hok
    simp only [findForgettable, List.find?_filter] at hfind
    obtain ⟨hm, earlier, later, hrows, hearlier⟩ := List.find?_eq_some_iff_append.mp hfind
    simp only [decide_eq_true_eq, Bool.not_eq_true] at hm
    obtain ⟨⟨horg, hcontainer, hforgotten, hunexpired⟩, hcontent⟩ := hm
    refine ⟨earlier, m, later, hrows, rfl, ⟨horg, hcontainer, hcontent, hforgotten, hunexpired⟩, ?_⟩
    rintro m' hm' ⟨horg', hcontainer', hcontent', hforgotten', hunexpired'⟩
    have hnot := hearlier m' hm'
    simp [horg', hcontainer', hcontent', hforgotten', hunexpired'] at hnot

/-- Forgetting a content leaves no visible memory with it if and only if no other row that would be
    forgotten as well comes before the latest one. -/
theorem forgotten_content_hidden
    (hok : forgetMemoryFor env now orgId none (some content) containerTag reason db = .ok (memoryId, db')) :
    Hides env now orgId containerTag content db' ↔ ¬ StaleFirst env now orgId containerTag content db := by
  have hwithdraws := forgetMemoryFor_withdraws hok
  obtain ⟨earlier, m, later, hrows, rfl, hm, hfirst⟩ := forgetMemoryFor_first hok
  have hmem : m ∈ db.memories := by
    rw [← Table.mem_rows, hrows]
    simp
  constructor
  · rintro hhides ⟨earlier', m', later', hrows', ⟨hm', hlatest⟩, stale, hstale, hremembers⟩
    have hmem' : m' ∈ db.memories := by
      rw [← Table.mem_rows, hrows']
      simp
    have hother : m'.id ≠ m.id := by
      intro hid
      obtain rfl := Table.eq_of_key hmem' hmem hid
      obtain ⟨hearlier, _⟩ := db.memories.earlier_unique hrows hrows'
      exact hfirst stale (hearlier ▸ hstale) hremembers
    have hkept : m' ∈ db'.memories :=
      (hwithdraws.memories m').mpr ⟨m', hmem', (if_neg (by simpa using hother)).symm⟩
    rw [hhides m' hkept hm'] at hlatest
    cases hlatest
  · intro hstale m' hm' hremembers
    obtain ⟨m₀, hm₀, rfl⟩ := (hwithdraws.memories m').mp hm'
    split at hremembers
    · cases hremembers.2.2.2.1
    · rename_i hother
      rw [if_neg hother]
      apply Bool.eq_false_iff.mpr
      intro hlatest
      apply hstale
      have hsplit : m₀ ∈ earlier ++ m :: later := hrows ▸ hm₀
      rcases List.mem_append.mp hsplit with hbefore | hafter
      · exact absurd hremembers (hfirst m₀ hbefore)
      · rcases List.mem_cons.mp hafter with rfl | hlater
        · simp at hother
        · obtain ⟨between, rest, rfl⟩ := List.append_of_mem hlater
          refine ⟨earlier ++ m :: between, m₀, rest, ?_, ⟨hremembers, hlatest⟩, m, by simp, hm⟩
          rw [hrows, List.append_assoc, List.cons_append]

/-- A memory that was updated, and whose content was then asserted again. -/
def assertedAgain : Option Database :=
  memoriesAfter [(0, .reconcile noteBatch none none
    [proposalOf "a" "Tea." [] none, proposalOf "b" "Green tea!" [⟨"a", "updates"⟩] none]),
    (0, .reconcile noteBatch none none [proposalOf "c" "Tea." [] none])]

/-- The store after the content is forgotten, and the memory that is. -/
def forgottenAt (content : String) (db : Database) : Option (String × Database) :=
  (forgetMemoryFor unaryEnv 0 "org" none (some content) "tag" none db).toOption

theorem forgottenAt_ok {content : String} {r : String × Database} (h : forgottenAt content db = some r) :
    forgetMemoryFor unaryEnv 0 "org" none (some content) "tag" none db = .ok (r.1, r.2) :=
  Loop.ok_of_mem_toOption h

theorem forgotten_content_hidden_greenTea : ∃ db memoryId db', assertedAgain = some db ∧
    forgottenAt "Green tea!" db = some (memoryId, db') ∧
    Hides unaryEnv 0 "org" "tag" "Green tea!" db' := by
  obtain ⟨db, hdb⟩ : ∃ db, assertedAgain = some db := Option.isSome_iff_exists.mp (by decide +kernel)
  have hsome : ∀ db ∈ assertedAgain, (forgottenAt "Green tea!" db).isSome = true := by decide +kernel
  obtain ⟨⟨memoryId, db'⟩, hr⟩ := Option.isSome_iff_exists.mp (hsome db hdb)
  have honce : ∀ db ∈ assertedAgain, (db.memories.rows.filter fun m => m.content = "Green tea!").length = 1 := by
    decide +kernel
  refine ⟨db, memoryId, db', hdb, hr, (forgotten_content_hidden (forgottenAt_ok hr)).mpr ?_⟩
  rintro ⟨earlier, m, later, hrows, ⟨hm, _⟩, stale, hstale, hremembers⟩
  have hlength := honce db hdb
  rw [hrows, List.filter_append, List.filter_cons_of_pos (by simpa using hm.2.2.1)] at hlength
  have hstale : stale ∈ earlier.filter fun m => m.content = "Green tea!" :=
    List.mem_filter.mpr ⟨hstale, by simpa using hremembers.2.2.1⟩
  have hpos := List.length_pos_of_mem hstale
  simp only [List.length_append, List.length_cons] at hlength
  omega

/-- The request to forget the content picks the version that was updated, and the latest one stays. -/
theorem forgotten_content_visible : ∃ db memoryId db', assertedAgain = some db ∧
    (memoryMachine unaryEnv).Reachable db ∧
    forgetMemoryFor unaryEnv 0 "org" none (some "Tea.") "tag" none db = .ok (memoryId, db') ∧
    ¬ Hides unaryEnv 0 "org" "tag" "Tea." db' := by
  obtain ⟨db, hdb⟩ : ∃ db, assertedAgain = some db := Option.isSome_iff_exists.mp (by decide +kernel)
  have hsome : ∀ db ∈ assertedAgain, (forgottenAt "Tea." db).isSome = true := by decide +kernel
  obtain ⟨⟨memoryId, db'⟩, hr⟩ := Option.isSome_iff_exists.mp (hsome db hdb)
  have hvisible : ∀ db ∈ assertedAgain, ∀ r ∈ forgottenAt "Tea." db, ∃ m ∈ r.2.memories.rows,
      Remembers unaryEnv 0 "org" "tag" "Tea." m ∧ m.isLatest = true := by
    decide +kernel
  refine ⟨db, memoryId, db', hdb, memoriesAfter_reachable hdb, forgottenAt_ok hr, fun hhides => ?_⟩
  obtain ⟨m, hm, hremembers, hlatest⟩ := hvisible db hdb _ hr
  cases (hhides m hm hremembers).symm.trans hlatest

end Storage
