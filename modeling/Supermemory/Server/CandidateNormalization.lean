-- SUMMARY: What the provider makes of a model response, and what dropping its repetitions changes in the store.
import Supermemory.Library.Loop
import Supermemory.Server.MemoryExtractionCoordinator
import Supermemory.Storage.Deduplication

/-!
# Candidate normalization

The provider reads candidates out of a model response, normalizes each of them and keeps
the first one of each normalized content. The temporary identifier of a candidate that it
drops is lost, whereas the store keeps a name for every proposal that it reconciles.
-/

namespace Server

open Storage

variable {env : Env}

-- ---------------------------------------------------------------------------
-- Responses
-- ---------------------------------------------------------------------------

structure RawParentRelation where
  memoryId : Option String
  relation : Option String
  deriving DecidableEq

structure RawMemoryCandidate where
  tmpId : String
  memory : String
  isInferred : Bool
  addToStaticProfile : Bool
  buckets : List String
  parentRelations : List RawParentRelation
  temporalContext : Option TemporalContext
  forgetAfter : Option String
  forgetReason : Option String
  deriving DecidableEq

/-- Provider-facing tool output that is an object or an array. -/
inductive RawExtractionObject where
  | wrapped (memoriesToAddOrUpdate : List RawMemoryCandidate)
  | many (candidates : List RawMemoryCandidate)
  | one (candidate : RawMemoryCandidate)
  deriving DecidableEq

/-- Provider-facing tool output. -/
inductive RawExtractionResponse where
  | structured (object : RawExtractionObject)
  | text (content : String)
  deriving DecidableEq

/-- Failure while configuring or invoking a memory provider. -/
inductive ProviderError where
  | configuration (message : String)
  | invalidOutput (message : String)
  | request (message : String) (status : Option Nat) (transport : Bool)
  deriving DecidableEq

def RawExtractionObject.candidates : RawExtractionObject → List RawMemoryCandidate
  | wrapped candidates => candidates
  | many candidates => candidates
  | one candidate => [candidate]

/-- The text from the first opening bracket to the last one that closes its kind. -/
def extractJson (content : Text) : Option Text :=
  let object := (content.idxOf? '{').map fun start => (start, '}')
  let array := (content.idxOf? '[').map fun start => (start, ']')
  let first := match object, array with
    | some object, some array => some (if object.1 ≤ array.1 then object else array)
    | some object, none => some object
    | none, some array => some array
    | none, none => none
  first.bind fun (start, closing) =>
    (content.reverse.idxOf? closing).bind fun fromEnd =>
      let stop := content.length - fromEnd
      if start < stop then some ((content.take stop).drop start) else none

/-- `serde_json::from_str` is a parameter. What begins with a bracket is not read as a text again. -/
def rawCandidates (fromStr : Text → Except String RawExtractionObject) :
    RawExtractionResponse → Except ProviderError (List RawMemoryCandidate)
  | .structured object => .ok object.candidates
  | .text content =>
    match extractJson content.toList with
    | none => .error (.invalidOutput "structured output contained no JSON")
    | some json =>
      match fromStr json with
      | .error message => .error (.invalidOutput message)
      | .ok object => .ok object.candidates

-- ---------------------------------------------------------------------------
-- Normalization
-- ---------------------------------------------------------------------------

def maxCandidates : Nat := 100

def maxParents : Nat := 20

def relationKind : Option String → RelationKind
  | some "updates" => .updates
  | some "derives" => .derives
  | _ => .extends

/-- The first parent of each well-formed identifier that is not among those seen. -/
def parentRelations : List String → List RawParentRelation → List ParentRelation
  | _, [] => []
  | seen, parent :: rest =>
    match parent.memoryId with
    | none => parentRelations seen rest
    | some memoryId =>
      if memoryId ≠ "" ∧ ("tmp_".toList.isPrefixOf memoryId.toList ∨ "mem_".toList.isPrefixOf memoryId.toList ∨
          "doc_".toList.isPrefixOf memoryId.toList) ∧ memoryId ∉ seen then
        { memoryId, relation := relationKind parent.relation } :: parentRelations (memoryId :: seen) rest
      else parentRelations seen rest

def normalizeCandidate (candidate : RawMemoryCandidate) : Except ProviderError MemoryCandidate :=
  let tmpId := String.ofList (Text.trim candidate.tmpId.toList)
  let memory := String.ofList (Text.trim candidate.memory.toList)
  if tmpId = "" ∨ memory = "" then
    .error (.invalidOutput "memory candidates require non-empty tmpId and memory")
  else
    .ok
      { tmpId, memory
        isInferred := candidate.isInferred
        addToStaticProfile := candidate.addToStaticProfile
        buckets := candidate.buckets
        parentRelations := (parentRelations [] candidate.parentRelations).take maxParents
        temporalContext := candidate.temporalContext
        forgetAfter := candidate.forgetAfter
        forgetReason := candidate.forgetReason }

/-- The loop of `normalizeCandidates`. Its `normalized_memory` is that of the store. -/
def normalizeRest (env : Env) (temporaryIds seen : List String) (normalized : List MemoryCandidate) :
    List RawMemoryCandidate → Except ProviderError (List MemoryCandidate)
  | [] => .ok normalized
  | candidate :: rest =>
    match normalizeCandidate candidate with
    | .error e => .error e
    | .ok candidate =>
      let content := normalizedMemory env candidate.memory
      if candidate.tmpId ∈ temporaryIds then
        .error (.invalidOutput ("duplicate temporary memory id " ++ candidate.tmpId))
      else if content ∈ seen then normalizeRest env (candidate.tmpId :: temporaryIds) seen normalized rest
      else if (normalized ++ [candidate]).length = maxCandidates then .ok (normalized ++ [candidate])
      else normalizeRest env (candidate.tmpId :: temporaryIds) (content :: seen) (normalized ++ [candidate]) rest

def normalizeCandidates (env : Env) (fromStr : Text → Except String RawExtractionObject) (response : RawExtractionResponse) :
    Except ProviderError (List MemoryCandidate) :=
  match rawCandidates fromStr response with
  | .error e => .error e
  | .ok candidates => normalizeRest env [] [] [] candidates

-- ---------------------------------------------------------------------------
-- What normalization keeps
-- ---------------------------------------------------------------------------

/-- The candidates are individually valid, and these are their normal forms. -/
abbrev NormalForms (raws : List RawMemoryCandidate) (candidates : List MemoryCandidate) : Prop :=
  List.Forall₂ (fun raw candidate => normalizeCandidate raw = .ok candidate) raws candidates

/-- The proposals of candidates, whose vectors are made of their normalized contents. -/
def proposalsOf (vector : String → EmbeddingVector env) (candidates : List MemoryCandidate) : List MemoryProposal :=
  candidates.map fun candidate => candidate.proposal (vector (normalizedMemory env candidate.memory))

variable {raw : RawMemoryCandidate} {raws : List RawMemoryCandidate} {candidate : MemoryCandidate}
  {candidates normalized : List MemoryCandidate} {temporaryIds seen : List String} {vector : String → EmbeddingVector env}

/-- A candidate in normal form has a name and a content. -/
theorem normalizeCandidate_written (h : normalizeCandidate raw = .ok candidate) :
    candidate.tmpId ≠ "" ∧ Text.trim candidate.memory.toList ≠ [] := by
  unfold normalizeCandidate at h
  simp only at h
  split at h
  · cases h
  · rename_i hwritten
    rw [not_or] at hwritten
    cases h
    refine ⟨hwritten.1, fun hblank => hwritten.2 ?_⟩
    rw [String.toList_ofList, Text.trim_eq_self (Text.trim_trimmed _)] at hblank
    rw [hblank]

theorem NormalForms.written (h : NormalForms raws candidates) :
    ∀ candidate ∈ candidates, candidate.tmpId ≠ "" ∧ Text.trim candidate.memory.toList ≠ [] := by
  induction h with
  | nil => nofun
  | cons hraw _ ih => exact List.forall_mem_cons.mpr ⟨normalizeCandidate_written hraw, ih⟩

/-- What valid candidates with distinct names become is what the store counts on. -/
theorem proposalsOf_proper (hforms : NormalForms raws candidates) (hdistinct : (candidates.map (·.tmpId)).Nodup) :
    Proper env (proposalsOf vector candidates) where
  written := by
    intro p hp
    obtain ⟨candidate, hcandidate, rfl⟩ := List.mem_map.mp hp
    obtain ⟨hname, hcontent⟩ := hforms.written candidate hcandidate
    exact not_or.mpr ⟨hname, hcontent⟩
  distinct := by
    rw [proposalsOf, List.map_map]
    exact hdistinct
  admitted := by
    intro p hp parent hparent
    obtain ⟨candidate, _, rfl⟩ := List.mem_map.mp hp
    obtain ⟨relation, _, rfl⟩ := List.mem_map.mp hparent
    cases relation.relation with
    | updates => exact .inl rfl
    | «extends» => exact .inr (.inl rfl)
    | derives => exact .inr (.inr rfl)
  vectors := by
    intro p hp q hq hcontent
    obtain ⟨candidate, _, rfl⟩ := List.mem_map.mp hp
    obtain ⟨candidate', _, rfl⟩ := List.mem_map.mp hq
    exact congrArg (fun content => (vector content).values) hcontent

/-- The loop keeps the first candidate of each content, and the limit only ends it with the response. -/
theorem normalizeRest_dropRepeats (vector : String → EmbeddingVector env) (hforms : NormalForms raws candidates)
    (hdistinct : (candidates.map (·.tmpId)).Nodup) (hfresh : ∀ candidate ∈ candidates, candidate.tmpId ∉ temporaryIds)
    (hlength : normalized.length + raws.length ≤ maxCandidates) :
    ∃ kept, normalizeRest env temporaryIds seen normalized raws = .ok (normalized ++ kept) ∧
      proposalsOf vector kept = dropRepeats env seen (proposalsOf vector candidates) := by
  induction hforms generalizing temporaryIds seen normalized with
  | nil => exact ⟨[], by rw [normalizeRest, List.append_nil], rfl⟩
  | @cons raw candidate raws candidates hraw hrest ih =>
    obtain ⟨hnew, hdistinct⟩ := List.nodup_cons.mp hdistinct
    obtain ⟨hself, hfresh⟩ := List.forall_mem_cons.mp hfresh
    have hnext : ∀ c ∈ candidates, c.tmpId ∉ candidate.tmpId :: temporaryIds := by
      intro c hc hmem
      rcases List.mem_cons.mp hmem with hsame | hmem
      · exact hnew (List.mem_map.mpr ⟨c, hc, hsame⟩)
      · exact hfresh c hc hmem
    rw [List.length_cons] at hlength
    have hproposals : proposalsOf vector (candidate :: candidates) =
        candidate.proposal (vector (normalizedMemory env candidate.memory)) :: proposalsOf vector candidates := rfl
    have hcontent : (candidate.proposal (vector (normalizedMemory env candidate.memory))).content = candidate.memory := rfl
    rw [normalizeRest, hproposals, dropRepeats, hcontent]
    simp only [hraw, if_neg hself]
    by_cases hseen : normalizedMemory env candidate.memory ∈ seen
    · rw [if_pos hseen, if_pos hseen]
      exact ih hdistinct hnext (by omega)
    · rw [if_neg hseen, if_neg hseen, List.length_append, List.length_singleton]
      by_cases hfull : normalized.length + 1 = maxCandidates
      · -- nothing is left of the response
        obtain rfl : raws = [] := List.length_eq_zero_iff.mp (by omega)
        cases hrest
        exact ⟨[candidate], by rw [if_pos hfull], rfl⟩
      · rw [if_neg hfull]
        have hroom : (normalized ++ [candidate]).length + raws.length ≤ maxCandidates := by
          rw [List.length_append, List.length_singleton]
          omega
        obtain ⟨kept, hkept, hproposals⟩ := ih hdistinct hnext hroom
        refine ⟨candidate :: kept, ?_, ?_⟩
        · rw [hkept, List.append_assoc, List.singleton_append]
        · rw [← hproposals]
          rfl

-- ---------------------------------------------------------------------------
-- The effect of a response
-- ---------------------------------------------------------------------------

/-- Reconciling the candidates that normalization keeps, or all of them, fails alike or succeeds alike. It comes
    to the same memories, flags and relations if and only if every new memory has the same parents when the
    temporary identifiers of the candidates dropped before it stand for nothing. -/
theorem deduplicated_response_same_iff (vector : String → EmbeddingVector env) (now : Time) (batch : Batch)
    (expectedRevision : Option Nat) (completionJobId : Option String) {db : Database} (h : (memoryMachine env).Reachable db)
    {fromStr : Text → Except String RawExtractionObject} {response : RawExtractionResponse}
    (hraws : rawCandidates fromStr response = .ok raws) (hlength : raws.length ≤ maxCandidates)
    (hforms : NormalForms raws candidates) (hdistinct : (candidates.map (·.tmpId)).Nodup) :
    ∃ kept, normalizeCandidates env fromStr response = .ok kept ∧
      Alike (reconcileMemoriesFor env now batch expectedRevision completionJobId (proposalsOf vector candidates) db)
        (reconcileMemoriesFor env now batch expectedRevision completionJobId (proposalsOf vector kept) db) ∧
      ∀ records₁ db₁ records₂ db₂,
        reconcileMemoriesFor env now batch expectedRevision completionJobId (proposalsOf vector candidates) db =
          .ok (records₁, db₁) →
        reconcileMemoriesFor env now batch expectedRevision completionJobId (proposalsOf vector kept) db =
          .ok (records₂, db₂) →
        (SameUpToNames db db₁ db₂ ↔ LineageKept env [] [] (Names.start env batch db) (proposalsOf vector candidates)) := by
  have hproper : Proper env (proposalsOf vector candidates) := proposalsOf_proper hforms hdistinct
  have hsound := sound_of_reachable h
  have hloop : ∃ kept, normalizeRest env [] [] [] raws = .ok ([] ++ kept) ∧
      proposalsOf vector kept = dropRepeats env [] (proposalsOf vector candidates) :=
    normalizeRest_dropRepeats vector hforms hdistinct (fun _ _ => List.not_mem_nil) (by simpa using hlength)
  obtain ⟨kept, hkept, hproposals⟩ := hloop
  refine ⟨kept, ?_, ?_⟩
  · rw [normalizeCandidates, hraws]
    exact hkept
  · rw [hproposals]
    exact ⟨dropRepeats_alike hsound hproper, fun _ _ _ _ => dropRepeats_same_iff hsound hproper⟩

/-! ## A dropped name -/

def axisValues : List F32 := 0x3f800000 :: List.replicate 767 0

/-- `unaryEnv` with a unit vector of the dimension of the model. -/
def axisEnv : Env := { unaryEnv with hasUnitNorm := fun vector => vector = axisValues }

def axis : EmbeddingVector axisEnv where
  values := axisValues
  dimensions := by
    rw [axisValues, List.length_cons, List.length_replicate]
    rfl
  finite := by
    intro value hvalue
    rcases List.mem_cons.mp hvalue with rfl | hvalue
    · rfl
    · rw [List.eq_of_mem_replicate hvalue]
      rfl
  norm := by simp [axisEnv]

def axisBatch : Batch := ⟨"org", "note", "tag", bgeModelId, bgeDimensions⟩

def rawCandidateOf (tmpId memory : String) (parentRelations : List RawParentRelation) : RawMemoryCandidate :=
  { tmpId, memory, parentRelations
    isInferred := false
    addToStaticProfile := false
    buckets := []
    temporalContext := none
    forgetAfter := none
    forgetReason := none }

/-- Two candidates of one content, and a third one that updates one of them. -/
def teaResponse (parent : String) : List RawMemoryCandidate :=
  [rawCandidateOf "tmp_1" "Tea" [], rawCandidateOf "tmp_2" "tea." [],
    rawCandidateOf "tmp_3" "Green tea" [⟨some parent, some "updates"⟩]]

def teaCandidates (parent : String) : List MemoryCandidate :=
  (teaResponse parent).filterMap fun raw => (normalizeCandidate raw).toOption

def noJson : Text → Except String RawExtractionObject := fun _ => .error "expected value"

def reconciledTea (candidates : List MemoryCandidate) : Option (List MemoryRecord × Database) :=
  (reconcileMemoriesFor axisEnv 0 axisBatch none none (proposalsOf (fun _ => axis) candidates) noteStore).toOption

theorem deduplicated_response_same_iff_kept : ∃ kept records₁ db₁ records₂ db₂,
    normalizeCandidates axisEnv noJson (.structured (.many (teaResponse "tmp_1"))) = .ok kept ∧
    reconciledTea (teaCandidates "tmp_1") = some (records₁, db₁) ∧ reconciledTea kept = some (records₂, db₂) ∧
    SameUpToNames noteStore db₁ db₂ := by
  have hforms : NormalForms (teaResponse "tmp_1") (teaCandidates "tmp_1") := .cons rfl (.cons rfl (.cons rfl .nil))
  have hraws : rawCandidates noJson (.structured (.many (teaResponse "tmp_1"))) = .ok (teaResponse "tmp_1") := rfl
  have hreachable : (memoryMachine axisEnv).Reachable noteStore := .start ⟨rfl, rfl, rfl⟩
  obtain ⟨kept, hkept, hrun, hsame⟩ := deduplicated_response_same_iff (fun _ => axis) 0 axisBatch none none hreachable hraws
    (by decide) hforms (by decide +kernel)
  obtain ⟨r₁, hr₁⟩ : ∃ r, reconciledTea (teaCandidates "tmp_1") = some r := Option.isSome_iff_exists.mp (by decide +kernel)
  have hok₁ := Loop.ok_of_mem_toOption hr₁
  rcases hrun with ⟨e, hfail, _⟩ | ⟨_, r₂, _, hok₂⟩
  · rw [hok₁] at hfail
    cases hfail
  · refine ⟨kept, r₁.1, r₁.2, r₂.1, r₂.2, hkept, hr₁, ?_, (hsame _ _ _ _ hok₁ hok₂).mpr (by decide +kernel)⟩
    rw [reconciledTea, hok₂]
    rfl

/-- The update of a memory by the name of its repetition is lost. -/
theorem dropped_name_loses_update : (memoryMachine axisEnv).Reachable noteStore ∧
    NormalForms (teaResponse "tmp_2") (teaCandidates "tmp_2") ∧ ((teaCandidates "tmp_2").map (·.tmpId)).Nodup ∧
    ∃ kept records₁ db₁ records₂ db₂,
      normalizeCandidates axisEnv noJson (.structured (.many (teaResponse "tmp_2"))) = .ok kept ∧
      reconcileMemoriesFor axisEnv 0 axisBatch none none (proposalsOf (fun _ => axis) (teaCandidates "tmp_2")) noteStore =
        .ok (records₁, db₁) ∧
      reconcileMemoriesFor axisEnv 0 axisBatch none none (proposalsOf (fun _ => axis) kept) noteStore =
        .ok (records₂, db₂) ∧
      ¬ SameUpToNames noteStore db₁ db₂ := by
  have hkept : normalizeCandidates axisEnv noJson (.structured (.many (teaResponse "tmp_2"))) =
      .ok ((teaCandidates "tmp_2").eraseIdx 1) := rfl
  obtain ⟨r₁, hr₁⟩ : ∃ r, reconciledTea (teaCandidates "tmp_2") = some r := Option.isSome_iff_exists.mp (by decide +kernel)
  obtain ⟨r₂, hr₂⟩ : ∃ r, reconciledTea ((teaCandidates "tmp_2").eraseIdx 1) = some r :=
    Option.isSome_iff_exists.mp (by decide +kernel)
  have hrelated : ∀ r ∈ reconciledTea (teaCandidates "tmp_2"), ∃ relation ∈ r.2.memoryRelations.rows, True := by
    decide +kernel
  have hnone : ∀ r ∈ reconciledTea ((teaCandidates "tmp_2").eraseIdx 1), r.2.memoryRelations.rows = [] := by
    decide +kernel
  refine ⟨.start ⟨rfl, rfl, rfl⟩, .cons rfl (.cons rfl (.cons rfl .nil)), by decide +kernel, _, r₁.1, r₁.2, r₂.1, r₂.2, hkept,
    Loop.ok_of_mem_toOption hr₁, Loop.ok_of_mem_toOption hr₂, ?_⟩
  rintro ⟨rename, hrenames⟩
  obtain ⟨relation, hrelation, _⟩ := hrelated r₁ hr₁
  have hmem : relation.renamed rename ∈ r₂.2.memoryRelations.rows := (hrenames.relations _).mpr ⟨relation, hrelation, rfl⟩
  rw [hnone r₂ hr₂] at hmem
  exact List.not_mem_nil hmem

end Server
