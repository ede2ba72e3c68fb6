-- SUMMARY: What a call can do to the database: nothing, or what its transaction does when it commits.
import Supermemory.Storage.Effects
import Supermemory.Storage.System

/-!
# The effects of calls

A call is one transaction. Where it fails, where there is nothing to claim, and where
there is nothing to delete, the database stays as it was. What it does otherwise is
stated once, and what every call preserves is proved one effect at a time.
-/

namespace Storage

variable {env : Env} {now : Time} {db db' : Database}

/-- What a call returns and the database it leaves. The three calls that publish chunks have one effect. -/
inductive Call.Effect (env : Env) (now : Time) (db : Database) :
    Call → Except StorageError Answer × Database → Prop
  | failed {call : Call} {error : StorageError} : Effect env now db call (.error error, db)
  | nothing {call : Call} {answer : Answer} (hjob : answer.job = none) (hmemoryJob : answer.memoryJob = none)
      (hpublished : call.published = none) : Effect env now db call (.ok answer, db)
  | upserted {orgId : String} {input : UpsertDocument} {result : UpsertResult} {db' : Database}
      (h : upsertDocumentFor env now orgId input db = .ok (result, db')) :
      Effect env now db (.upsertDocument orgId input) (.ok (.upserted result), db')
  | claimed {job : ClaimedJob} {db' : Database} (h : Storage.claimJob now db = (some job, db')) :
      Effect env now db .claimJob (.ok (.claimed (some job)), db')
  | staged {job : ClaimedJob} {stage : DocumentState} {db' : Database}
      (h : Storage.markJobStage job stage db = .ok db') :
      Effect env now db (.markJobStage job stage) (.ok .unit, db')
  | published {call : Call} {job : ClaimedJob} {chunks : List EmbeddedChunk} {embedding : Option (String × Nat)}
      {schedule : Bool} {db' : Database} (hjob : call.job = some job)
      (hpublished : call.published = some (job, chunks.map (·.content))) (hdimensions : ∀ p ∈ embedding, p.2 ≠ 0)
      (h : publishJob env now job chunks embedding schedule db = .ok db') :
      Effect env now db call (.ok .unit, db')
  | failedJob {job : ClaimedJob} {error : String} :
      Effect env now db (.failJob job error) (.ok .unit, Storage.failJob job error db)
  | deletedEmpty {job : ClaimedJob} :
      Effect env now db (.deleteEmptyDocument job) (.ok .unit, db.deleteDocument job.documentId)
  | deleted {orgId identifier id : String} {found : Bool} :
      Effect env now db (.deleteDocument orgId identifier) (.ok (.deleted found), db.deleteDocument id)
  | claimedMemory {job : ClaimedMemoryJob} {db' : Database}
      (h : Storage.claimMemoryJob now db = .ok (some job, db')) :
      Effect env now db .claimMemoryJob (.ok (.claimedMemory (some job)), db')
  | cached {job : ClaimedMemoryJob} {result : String} :
      Effect env now db (.cacheMemoryExtraction job result)
        ((Storage.cacheMemoryExtraction job result db).1.map fun _ => .unit,
          (Storage.cacheMemoryExtraction job result db).2)
  | completedMemory {job : ClaimedMemoryJob} {db' : Database} (h : Storage.completeMemoryJob job db = .ok db') :
      Effect env now db (.completeMemoryJob job) (.ok .unit, db')
  | retried {job : ClaimedMemoryJob} {errorKind error : String} {retryDelay : Option Nat} {db' : Database}
      (h : Storage.retryMemoryJob now job errorKind error retryDelay db = .ok db') :
      Effect env now db (.retryMemoryJob job errorKind error retryDelay) (.ok .unit, db')
  | reconciled {batch : Batch} {expectedRevision : Option Nat} {completion : Option ClaimedMemoryJob}
      {proposals : List MemoryProposal} {records : List MemoryRecord} {db' : Database}
      (h : reconcileMemoriesFor env now batch expectedRevision (completion.map (·.id)) proposals db =
        .ok (records, db')) :
      Effect env now db (.reconcileMemories batch expectedRevision completion proposals)
        (.ok (.reconciled records), db')
  | forgot {orgId : String} {id content : Option String} {containerTag forgotten : String}
      {reason : Option String} {db' : Database}
      (h : forgetMemoryFor env now orgId id content containerTag reason db = .ok (forgotten, db')) :
      Effect env now db (.forgetMemory orgId id content containerTag reason) (.ok (.forgotten forgotten), db')
  | opened {orgId : String} {db' : Database} (h : Storage.openStorage env now db = .ok (orgId, db')) :
      Effect env now db .openStorage (.ok (.opened orgId), db')

namespace Call.Effect

/-- A transaction whose result is an answer and a database. -/
theorem of_commit {α : Type} {call : Call} {r : Except StorageError (α × Database)} {f : α → Answer}
    (h : ∀ a db', r = .ok (a, db') → call.Effect env now db (.ok (f a), db')) :
    call.Effect env now db (commit db (r.map fun (a, db) => (f a, db))) := by
  cases r with
  | error e => exact .failed
  | ok p => exact h p.1 p.2 rfl

/-- A transaction whose result is a database. -/
theorem of_commitUnit {call : Call} {r : Except StorageError Database}
    (h : ∀ db', r = .ok db' → call.Effect env now db (.ok .unit, db')) :
    call.Effect env now db (commit db (r.map (Answer.unit, ·))) := by
  cases r with
  | error e => exact .failed
  | ok db' => exact h db' rfl

end Call.Effect

/-- Every call has one of the effects. -/
theorem Call.effect (env : Env) (now : Time) (call : Call) (db : Database) :
    call.Effect env now db (call.run env now db) := by
  cases call with
  | upsertDocument orgId input => exact .of_commit fun _ _ h => .upserted h
  | claimJob =>
    simp only [Call.run]
    cases hclaim : Storage.claimJob now db with
    | mk job db' =>
      cases job with
      | none =>
        rw [claimJob_none hclaim]
        exact .nothing rfl rfl rfl
      | some job => exact .claimed hclaim
  | markJobStage job stage => exact .of_commitUnit fun _ h => .staged h
  | completeJob job chunks =>
    apply Effect.of_commitUnit
    intro db' h
    exact .published rfl (by simp [Call.published, Function.comp_def]) (by simp) h
  | completeEmbeddedJob job chunks modelId dimensions =>
    apply Effect.of_commitUnit
    intro db' h
    obtain ⟨hdimensions, _, hpublish⟩ := completeEmbeddedJob_publishes h
    exact .published rfl rfl (by simpa using hdimensions) hpublish
  | completeEmbeddedJobWithMemoryExtraction job chunks modelId dimensions =>
    apply Effect.of_commitUnit
    intro db' h
    obtain ⟨hdimensions, _, hpublish⟩ := completeEmbeddedJobWithMemoryExtraction_publishes h
    obtain rfl : dimensions = 768 := not_not.mp hdimensions
    exact .published rfl rfl (by simp) hpublish
  | failJob job error => exact .failedJob
  | deleteEmptyDocument job =>
    simp only [Call.run]
    rcases deleteEmptyDocument_cases job db with heq | heq
    · rw [heq]
      exact .nothing rfl rfl rfl
    · rw [heq]
      exact .deletedEmpty
  | deleteDocument orgId identifier =>
    simp only [Call.run]
    rcases deleteDocumentFor_cases db orgId identifier with heq | ⟨id, heq⟩
    · rw [heq]
      exact .nothing rfl rfl rfl
    · rw [heq]
      exact .deleted
  | claimMemoryJob =>
    apply Effect.of_commit
    intro job db' h
    cases job with
    | none =>
      rw [claimMemoryJob_none h]
      exact .nothing rfl rfl rfl
    | some job => exact .claimedMemory h
  | cacheMemoryExtraction job result => exact .cached
  | completeMemoryJob job => exact .of_commitUnit fun _ h => .completedMemory h
  | retryMemoryJob job errorKind error retryDelay => exact .of_commitUnit fun _ h => .retried h
  | reconcileMemories batch expectedRevision completion proposals => exact .of_commit fun _ _ h => .reconciled h
  | forgetMemory orgId id content containerTag reason => exact .of_commit fun _ _ h => .forgot h
  | openStorage => exact .of_commit fun _ _ h => .opened h

end Storage
