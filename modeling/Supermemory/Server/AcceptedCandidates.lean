-- SUMMARY: What the provider lets through, the cache keeps and the store takes: the candidates of a response.
import Supermemory.Server.CandidateCache
import Supermemory.Server.CandidateNormalization
import Supermemory.Storage.Constraints
import Supermemory.Storage.LocalIdentity

/-!
# Accepted candidates

The checks of a response are made by the provider, and the store has checks and constraints
of its own. The candidates that the provider lets through are few, and they have distinct
names and distinct contents. None of the checks of the store refuses them, now or after they
were cached. What is left to fail is the document, the random source, and the version of a
memory that comes after one of the largest.
-/

namespace Server

open Storage

variable {env : Env} {raw : RawMemoryCandidate} {raws : List RawMemoryCandidate} {candidate : MemoryCandidate}
  {candidates normalized result : List MemoryCandidate} {temporaryIds seen : List String}

-- ---------------------------------------------------------------------------
-- Parents
-- ---------------------------------------------------------------------------

theorem parentRelations_distinct (seen : List String) (parents : List RawParentRelation) :
    (∀ p ∈ parentRelations seen parents, p.memoryId ∉ seen) ∧ ((parentRelations seen parents).map (·.memoryId)).Nodup := by
  induction parents generalizing seen with
  | nil => exact ⟨fun _ hp => absurd hp List.not_mem_nil, List.nodup_nil⟩
  | cons parent rest ih =>
    rw [parentRelations]
    split
    · exact ih seen
    · rename_i memoryId _
      split
      · rename_i hnew
        obtain ⟨hfresh, hdistinct⟩ := ih (memoryId :: seen)
        constructor
        · intro p hp
          cases List.mem_cons.mp hp with
          | inl heq => exact heq ▸ hnew.2.2
          | inr hrest => exact fun hseen => hfresh p hrest (List.mem_cons_of_mem _ hseen)
        · refine List.nodup_cons.mpr ⟨fun hmem => ?_, hdistinct⟩
          obtain ⟨p, hp, hid⟩ := List.mem_map.mp hmem
          exact hfresh p hp (hid ▸ List.mem_cons_self)
      · exact ih seen

theorem normalizeCandidate_parents (h : normalizeCandidate raw = .ok candidate) :
    candidate.parentRelations.length ≤ maxParents ∧ (candidate.parentRelations.map (·.memoryId)).Nodup := by
  unfold normalizeCandidate at h
  simp only at h
  split at h
  · cases h
  · cases h
    constructor
    · exact List.length_take_le _ _
    · exact (parentRelations_distinct [] raw.parentRelations).2.sublist ((List.take_sublist _ _).map _)

-- ---------------------------------------------------------------------------
-- The loop
-- ---------------------------------------------------------------------------

/-- What the loop keeps of the rest of a response, after some names and contents. -/
structure Kept (env : Env) (temporaryIds seen : List String) (raws : List RawMemoryCandidate)
    (candidates : List MemoryCandidate) : Prop where
  ordered : ∃ kept, kept.Sublist raws ∧ NormalForms kept candidates
  named : (candidates.map (·.tmpId)).Nodup
  unused : ∀ candidate ∈ candidates, candidate.tmpId ∉ temporaryIds
  distinct : (candidates.map fun candidate => normalizedMemory env candidate.memory).Nodup
  unseen : ∀ candidate ∈ candidates, normalizedMemory env candidate.memory ∉ seen

namespace Kept

theorem nil (env : Env) (temporaryIds seen : List String) (raws : List RawMemoryCandidate) :
    Kept env temporaryIds seen raws [] :=
  ⟨⟨[], List.nil_sublist _, .nil⟩, List.nodup_nil, fun _ h => absurd h List.not_mem_nil, List.nodup_nil,
    fun _ h => absurd h List.not_mem_nil⟩

/-- A candidate that is dropped. -/
theorem drop {name : String} (h : Kept env (name :: temporaryIds) seen raws candidates) :
    Kept env temporaryIds seen (raw :: raws) candidates := by
  obtain ⟨kept, hsublist, hforms⟩ := h.ordered
  refine ⟨⟨kept, hsublist.cons raw, hforms⟩, h.named, ?_, h.distinct, h.unseen⟩
  exact fun c hc hmem => h.unused c hc (List.mem_cons_of_mem _ hmem)

/-- A candidate that is kept, under a new name and with a new content. -/
theorem keep (hraw : normalizeCandidate raw = .ok candidate) (hname : candidate.tmpId ∉ temporaryIds)
    (hcontent : normalizedMemory env candidate.memory ∉ seen)
    (h : Kept env (candidate.tmpId :: temporaryIds) (normalizedMemory env candidate.memory :: seen) raws candidates) :
    Kept env temporaryIds seen (raw :: raws) (candidate :: candidates) := by
  obtain ⟨kept, hsublist, hforms⟩ := h.ordered
  constructor
  case ordered => exact ⟨raw :: kept, hsublist.cons_cons raw, .cons hraw hforms⟩
  case named =>
    refine List.nodup_cons.mpr ⟨fun hmem => ?_, h.named⟩
    obtain ⟨c, hc, hsame⟩ := List.mem_map.mp hmem
    exact h.unused c hc (hsame ▸ List.mem_cons_self)
  case unused =>
    exact List.forall_mem_cons.mpr ⟨hname, fun c hc hmem => h.unused c hc (List.mem_cons_of_mem _ hmem)⟩
  case distinct =>
    refine List.nodup_cons.mpr ⟨fun hmem => ?_, h.distinct⟩
    obtain ⟨c, hc, hsame⟩ := List.mem_map.mp hmem
    exact h.unseen c hc (hsame ▸ List.mem_cons_self)
  case unseen =>
    exact List.forall_mem_cons.mpr ⟨hcontent, fun c hc hmem => h.unseen c hc (List.mem_cons_of_mem _ hmem)⟩

end Kept

/-- What the loop has at its end are the candidates that it began with and the ones that it keeps. -/
theorem normalizeRest_kept (h : normalizeRest env temporaryIds seen normalized raws = .ok result)
    (hroom : normalized.length < maxCandidates) :
    ∃ kept, result = normalized ++ kept ∧ Kept env temporaryIds seen raws kept ∧ result.length ≤ maxCandidates := by
  induction raws generalizing temporaryIds seen normalized with
  | nil =>
    cases h
    exact ⟨[], (List.append_nil _).symm, .nil env temporaryIds seen [], Nat.le_of_lt hroom⟩
  | cons raw raws ih =>
    rw [normalizeRest] at h
    split at h
    · cases h
    · rename_i candidate hraw
      simp only at h
      split at h
      · cases h
      · rename_i hname
        split at h
        · obtain ⟨kept, hresult, hkept, hlength⟩ := ih h hroom
          exact ⟨kept, hresult, hkept.drop, hlength⟩
        · rename_i hcontent
          split at h
          · -- the limit is reached
            rename_i hfull
            cases h
            exact ⟨[candidate], rfl, .keep hraw hname hcontent (.nil _ _ _ raws), Nat.le_of_eq hfull⟩
          · rename_i hmore
            have hspace : (normalized ++ [candidate]).length < maxCandidates := by
              rw [List.length_append, List.length_singleton] at hmore ⊢
              omega
            obtain ⟨kept, hresult, hkept, hlength⟩ := ih h hspace
            refine ⟨candidate :: kept, ?_, .keep hraw hname hcontent hkept, hlength⟩
            rw [hresult, List.append_assoc, List.singleton_append]

/-- The candidates of a response: they are few, they are normal forms of its candidates in their order, and
    their names, their contents and the parents of each of them are distinct. -/
structure Accepted (env : Env) (raws : List RawMemoryCandidate) (candidates : List MemoryCandidate) : Prop where
  bounded : candidates.length ≤ maxCandidates
  ordered : ∃ kept, kept.Sublist raws ∧ NormalForms kept candidates
  named : (candidates.map (·.tmpId)).Nodup
  distinct : (candidates.map fun candidate => normalizedMemory env candidate.memory).Nodup
  parents : ∀ candidate ∈ candidates,
    candidate.parentRelations.length ≤ maxParents ∧ (candidate.parentRelations.map (·.memoryId)).Nodup

theorem NormalForms.parents (h : NormalForms raws candidates) : ∀ candidate ∈ candidates,
    candidate.parentRelations.length ≤ maxParents ∧ (candidate.parentRelations.map (·.memoryId)).Nodup := by
  induction h with
  | nil => exact fun _ h => absurd h List.not_mem_nil
  | cons hraw _ ih => exact List.forall_mem_cons.mpr ⟨normalizeCandidate_parents hraw, ih⟩

theorem normalizeCandidates_accepted {fromStr : Text → Except String RawExtractionObject} {response : RawExtractionResponse}
    (h : normalizeCandidates env fromStr response = .ok candidates) :
    ∃ raws, rawCandidates fromStr response = .ok raws ∧ Accepted env raws candidates := by
  unfold normalizeCandidates at h
  split at h
  · cases h
  · rename_i raws hraws
    obtain ⟨kept, hresult, hkept, hlength⟩ := normalizeRest_kept h (by decide)
    rw [List.nil_append] at hresult
    rw [← hresult] at hkept
    obtain ⟨_, _, hforms⟩ := hkept.ordered
    exact ⟨raws, hraws, hlength, hkept.ordered, hkept.named, hkept.distinct, hforms.parents⟩

-- ---------------------------------------------------------------------------
-- The store
-- ---------------------------------------------------------------------------

/-- The proposals that the worker makes of candidates and their vectors. -/
def reconciledProposals (candidates : List MemoryCandidate) (vectors : List (EmbeddingVector env)) : List MemoryProposal :=
  List.zipWith MemoryCandidate.proposal candidates vectors

theorem mem_reconciledProposals {vectors : List (EmbeddingVector env)} {p : MemoryProposal}
    (h : p ∈ reconciledProposals candidates vectors) :
    ∃ candidate ∈ candidates, ∃ vector ∈ vectors, p = candidate.proposal vector := by
  rw [reconciledProposals, ← List.map_uncurry_zip_eq_zipWith] at h
  obtain ⟨⟨candidate, vector⟩, hpair, rfl⟩ := List.mem_map.mp h
  obtain ⟨hcandidate, hvector⟩ := List.of_mem_zip hpair
  exact ⟨candidate, hcandidate, vector, hvector, rfl⟩

/-- None of the checks before the transaction refuses a candidate. -/
theorem Accepted.valid (h : Accepted env raws candidates) (vectors : List (EmbeddingVector env)) :
    validateProposals env bgeDimensions (reconciledProposals candidates vectors) = .ok () := by
  obtain ⟨_, _, hforms⟩ := h.ordered
  apply validateProposals_ok
  · intro p hp
    obtain ⟨_, _, vector, _, rfl⟩ := mem_reconciledProposals hp
    exact vector.valid
  · intro p hp
    obtain ⟨candidate, hcandidate, _, _, rfl⟩ := mem_reconciledProposals hp
    obtain ⟨hname, hcontent⟩ := hforms.written candidate hcandidate
    exact not_or.mpr ⟨hname, hcontent⟩

/-- Reconciling candidates with a store fails only because their document is missing or stale, or because of the
    random source, exactly when no new memory comes after one of the largest version. -/
theorem Accepted.excused (h : Accepted env raws candidates) (vectors : List (EmbeddingVector env)) {db : Database}
    {batch : Batch} (hdb : Constraints db) (hbge : batch.dimensions = bgeDimensions) (random : Nat → Bool) (now : Time)
    (expectedRevision : Option Nat) (completionJobId : Option String) :
    (∀ error, Enforced.reconcileMemoriesFor env random now batch expectedRevision completionJobId
        (reconciledProposals candidates vectors) db = .error error → Excused env random batch db error) ↔
      (SourceCurrent batch expectedRevision db → VersionsFit env random (storedVersions db) (Names.start env batch db)
        (reconciledProposals candidates vectors)) := by
  have hdimensions : batch.dimensions ≠ 0 := by rw [hbge]; decide
  have hvalid : validateProposals env batch.dimensions (reconciledProposals candidates vectors) = .ok () :=
    hbge ▸ h.valid vectors
  exact Enforced.reconcileMemoriesFor_excused hdb hdimensions hvalid

/-- The candidates of a response are accepted, and they are read from the cache as they were written. Reconciling
    them with any store fails only because their document is missing or stale, or because of the random source,
    exactly when no new memory comes after one of the largest version. -/
theorem accepted_by_storage {fromStr : Text → Except String RawExtractionObject} {response : RawExtractionResponse}
    (h : normalizeCandidates env fromStr response = .ok candidates) :
    (∃ raws, rawCandidates fromStr response = .ok raws ∧ Accepted env raws candidates) ∧
    (∀ json refusal describe,
      (formatsOf json refusal describe).fromStr ((formatsOf json refusal describe).toString candidates) = .ok candidates) ∧
    ∀ (db : Database) (vectors : List (EmbeddingVector env)) (batch : Batch), Constraints db → batch.dimensions = bgeDimensions →
      ∀ random now expectedRevision completionJobId,
        ((∀ error, Enforced.reconcileMemoriesFor env random now batch expectedRevision completionJobId
            (reconciledProposals candidates vectors) db = .error error → Excused env random batch db error) ↔
          (SourceCurrent batch expectedRevision db → VersionsFit env random (storedVersions db) (Names.start env batch db)
            (reconciledProposals candidates vectors))) := by
  obtain ⟨raws, hraws, haccepted⟩ := normalizeCandidates_accepted h
  refine ⟨⟨raws, hraws, haccepted⟩, fun _ _ _ => fromStr_toString candidates, ?_⟩
  intro db vectors batch hdb hbge random now expectedRevision completionJobId
  exact haccepted.excused vectors hdb hbge random now expectedRevision completionJobId

/-! ## An imported memory -/

/-- An export of a document and a memory of some version. -/
def versionExport (version : String) : List (Option String) :=
  let row (table : String) (fields : Object) : Option String :=
    some (compactJson.write (.object [("type", .string "row"), ("table", .string table), ("row", .object fields)]))
  [row "document" [("id", .string "memo"), ("org_id", .string ""), ("content_hash", .string "h"),
      ("created_at", .string "2024"), ("updated_at", .string "2024")],
    row "memory_entry" [("id", .string "mem_old"), ("org_id", .string ""), ("memory", .string "Tea"),
      ("is_latest", .bool true), ("version", .object [("$bigint", .string version)]),
      ("source_count", .object [("$bigint", .string "0")]),
      ("created_at", .string "2024"), ("updated_at", .string "2024")],
    some (compactJson.write (.object [("type", .string "complete")]))]

def compactImporter : Importer where
  fromStr line := (compactJson.read line).toOption
  toF32 _ := none
  digest _ := []

/-- The store after the import of an export into a new one. -/
def importedVersion (version : String) : Option LegacyDatabase :=
  (importLegacyExport axisEnv compactImporter 0 "" (versionExport version) firstOpened.db).toOption.map (·.2)

/-- An update of the imported memory. -/
def greenTea : RawExtractionResponse :=
  .structured (.many [rawCandidateOf "tmp_1" "Green tea" [⟨some "mem_old", some "updates"⟩]])

def memoBatch : Batch := ⟨"", "memo", "sm_project_default", bgeModelId, bgeDimensions⟩

def reconciledGreenTea (expectedRevision : Nat) (candidates : List MemoryCandidate) (db : Database) :
    Except ReconciliationError (List MemoryRecord × Database) :=
  Enforced.reconcileMemoriesFor axisEnv (fun _ => true) 0 memoBatch (some expectedRevision) none
    (reconciledProposals candidates [axis]) db

/-- A memory of a smaller version is updated, and nothing but its document or the random source prevents it. -/
theorem accepted_by_storage_green_tea : ∃ db raws candidates, importedVersion "1" = some db ∧
    normalizeCandidates axisEnv noJson greenTea = .ok candidates ∧ Accepted axisEnv raws candidates ∧
    (reconciledGreenTea 1 candidates db.toDatabase).toOption.isSome ∧
    ∀ expectedRevision error, reconciledGreenTea expectedRevision candidates db.toDatabase = .error error →
      Excused axisEnv (fun _ => true) memoBatch db.toDatabase error := by
  have himported : ∃ db ∈ importedVersion "1", Constraints db.toDatabase ∧
      ∃ candidates ∈ (normalizeCandidates axisEnv noJson greenTea).toOption,
        VersionsFit axisEnv (fun _ => true) (storedVersions db.toDatabase) (Names.start axisEnv memoBatch db.toDatabase)
          (reconciledProposals candidates [axis]) ∧
        (reconciledGreenTea 1 candidates db.toDatabase).toOption.isSome := by
    decide +kernel
  obtain ⟨db, hdb, hconstraints, candidates, hcandidates, hfit, hupdated⟩ := himported
  have hnormalized := Loop.ok_of_mem_toOption hcandidates
  obtain ⟨⟨raws, _, haccepted⟩, _, hreconciled⟩ := accepted_by_storage hnormalized
  refine ⟨db, raws, candidates, hdb, hnormalized, haccepted, hupdated, fun expectedRevision => ?_⟩
  exact (hreconciled db.toDatabase [axis] memoBatch hconstraints rfl (fun _ => true) 0 (some expectedRevision) none).mpr
    fun _ => hfit

/-- A memory of the largest version cannot be updated. -/
theorem largest_version_refused : ∃ db candidates, importedVersion "9223372036854775807" = some db ∧
    Constraints db.toDatabase ∧ normalizeCandidates axisEnv noJson greenTea = .ok candidates ∧
    reconciledGreenTea 1 candidates db.toDatabase = .error .constraint ∧
    ¬ Excused axisEnv (fun _ => true) memoBatch db.toDatabase .constraint := by
  have himported : ∃ db ∈ importedVersion "9223372036854775807", Constraints db.toDatabase ∧
      ∃ candidates ∈ (normalizeCandidates axisEnv noJson greenTea).toOption,
        reconciledGreenTea 1 candidates db.toDatabase = .error .constraint := by
    decide +kernel
  obtain ⟨db, hdb, hconstraints, candidates, hcandidates, hrefused⟩ := himported
  refine ⟨db, candidates, hdb, hconstraints, Loop.ok_of_mem_toOption hcandidates, hrefused, fun hexcused => ?_⟩
  cases hexcused

end Server
