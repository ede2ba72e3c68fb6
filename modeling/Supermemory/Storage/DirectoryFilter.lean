-- SUMMARY: What a search finds under a path that ends in a slash: the constraint keeps the order, and it leaves out the slash.
import Mathlib.Data.String.Basic
import Supermemory.Library.Loop
import Supermemory.Library.Ranking
import Supermemory.Storage.ChunkCandidates

/-!
# Directory filters

A constraint on the path is read before rows are ranked and limited, so it takes rows away and moves
none. A path that ends in a slash is compared without it, so it also admits the files beside the directory whose
name goes on after the directory's.
-/

namespace Storage

open Ranking (ThenBy)

-- ---------------------------------------------------------------------------
-- Ranking
-- ---------------------------------------------------------------------------

section Ranking

/-- The order after the score. -/
theorem earlierChunk_eq : earlierChunk = ThenBy (fun r : Chunk × Document => r.2.id)
    (ThenBy (fun r => r.1.ordinal) fun a b => a.1.stableId ≤ b.1.stableId) := rfl

instance : Std.Total fun a b : Chunk × Document => a.1.stableId ≤ b.1.stableId :=
  ⟨fun a b => le_total a.1.stableId b.1.stableId⟩

instance : IsTrans (Chunk × Document) fun a b => a.1.stableId ≤ b.1.stableId :=
  ⟨fun _ _ _ => le_trans⟩

instance : Std.Total earlierChunk := by
  rw [earlierChunk_eq]
  infer_instance

instance : IsTrans (Chunk × Document) earlierChunk := by
  rw [earlierChunk_eq]
  infer_instance

variable {σ : Type*} {orgId : String} {db : Database} {better : Chunk × Document × σ → Chunk × Document × σ → Prop}
  [DecidableRel better] {score score' : Chunk → Document → Option σ} {limit : Nat}

/-- `WHERE .. ORDER BY .. LIMIT ..` on the rows of an organization. -/
def ranked (better : Chunk × Document × σ → Chunk × Document × σ → Prop) [DecidableRel better]
    (score : Chunk → Document → Option σ) (limit : Nat) (orgId : String) (db : Database) :
    List (Chunk × Document × σ) :=
  ((scored score (doneChunks db orgId)).insertionSort better).take limit

/-- A condition on the document takes its rows away from those with a score. -/
theorem scored_filter (p : Document → Prop) [DecidablePred p]
    (hscore : ∀ c d, score' c d = if p d then score c d else none) (rows : List (Chunk × Document)) :
    scored score' rows = (scored score rows).filter fun row => p row.2.1 := by
  induction rows with
  | nil => rfl
  | cons row rows ih =>
    obtain ⟨c, d⟩ := row
    simp only [scored, List.filterMap_cons] at ih ⊢
    rw [ih, hscore c d]
    by_cases hp : p d
    · rw [if_pos hp]
      cases score c d with
      | none => rfl
      | some s => simp [hp]
    · rw [if_neg hp]
      cases score c d with
      | none => rfl
      | some s => simp [hp]

/-- Of the documents found without a condition, those are found with it that meet it. -/
theorem ranked_filter [Std.Total better] [IsTrans _ better] (p : Document → Prop) [DecidablePred p]
    (hscore : ∀ c d, score' c d = if p d then score c d else none) {d : Document} (hd : d ∈ db.documents)
    (hfound : d.id ∈ (ranked better score limit orgId db).map (·.2.1.id)) :
    d.id ∈ (ranked better score' limit orgId db).map (·.2.1.id) ↔ p d := by
  have hdocument {rank : Chunk → Document → Option σ} {row : Chunk × Document × σ}
      (hrow : row ∈ ranked better rank limit orgId db) (hid : row.2.1.id = d.id) : row.2.1 = d := by
    have hscored := List.mem_insertionSort _ |>.mp (List.mem_of_mem_take hrow)
    obtain ⟨_, hdocument, _⟩ := mem_doneChunks.mp (mem_scored hscored)
    exact Table.eq_of_key hdocument hd hid
  have hfilter : ranked better score' limit orgId db =
      (((scored score (doneChunks db orgId)).insertionSort better).filter fun row => p row.2.1).take limit := by
    rw [ranked, scored_filter p hscore, Ranking.insertionSort_filter]
  constructor
  · intro h
    obtain ⟨row, hrow, hid⟩ := List.mem_map.mp h
    have hsame := hdocument hrow hid
    rw [hfilter] at hrow
    have hkept := (List.mem_filter.mp (List.mem_of_mem_take hrow)).2
    exact hsame ▸ of_decide_eq_true hkept
  · intro hp
    obtain ⟨row, hrow, hid⟩ := List.mem_map.mp hfound
    have hsame := hdocument hrow hid
    have hmeets : p row.2.1 := hsame ▸ hp
    have hkept := Ranking.mem_take_filter (p := fun row => decide (p row.2.1)) hrow (decide_eq_true hmeets)
    exact List.mem_map.mpr ⟨row, hfilter ▸ hkept, hid⟩

end Ranking

-- ---------------------------------------------------------------------------
-- Searches
-- ---------------------------------------------------------------------------

/-- The searches that read `SearchOptions`. -/
inductive ChunkSearch (σ : Type*) where
  | semantic (query : List F32) (modelId : String) (limit : Nat) (threshold : σ)
  | chunkCandidates (query : List F32) (modelId : String) (limit : Nat) (threshold : σ)
  | chunkLexicalCandidates (query : String) (limit : Nat)

/-- What the engine computes for a row. -/
structure RowEngine (σ φ : Type*) where
  vectorDot : List (BitVec 8) → List (BitVec 8) → σ
  bm25 : List Chunk → String → Chunk → Option σ
  matchesMetadataFilter : Object → φ → Bool

section Engine

variable {σ φ : Type*} [LinearOrder σ]

/-- The documents of the results. -/
def ChunkSearch.documents (env : Env) (engine : RowEngine σ φ) (orgId : String) (options : SearchOptions φ)
    (db : Database) : ChunkSearch σ → Except StorageError (List String)
  | .semantic query modelId limit threshold =>
    (searchSemantic env engine.vectorDot engine.matchesMetadataFilter orgId query modelId limit threshold options
      db).map (·.map (·.documentId))
  | .chunkCandidates query modelId limit threshold =>
    (searchChunkCandidates env engine.vectorDot engine.matchesMetadataFilter orgId query modelId limit threshold
      options db).map (·.map (·.documentId))
  | .chunkLexicalCandidates query limit =>
    .ok ((searchChunkLexicalCandidates engine.bm25 engine.matchesMetadataFilter orgId query limit options db).map
      (·.documentId))

/-- A result of the search is of the document. -/
def ChunkSearch.Finds (env : Env) (engine : RowEngine σ φ) (orgId : String) (options : SearchOptions φ)
    (db : Database) (search : ChunkSearch σ) (documentId : String) : Prop :=
  ∃ ids, search.documents env engine orgId options db = .ok ids ∧ documentId ∈ ids

variable {env : Env} {engine : RowEngine σ φ} {orgId : String} {options : SearchOptions φ} {db : Database}

/-- `ORDER BY score DESC, document_id, ordinal, stable_id`. -/
def byScore (a b : Chunk × Document × σ) : Prop :=
  b.2.2 < a.2.2 ∨ a.2.2 = b.2.2 ∧ earlierChunk (a.1, a.2.1) (b.1, b.2.1)

/-- `ORDER BY bm25(document_chunks_fts), documents.id, document_chunks.ordinal, document_chunks.stable_id`. -/
def byRank (a b : Chunk × Document × σ) : Prop :=
  a.2.2 < b.2.2 ∨ a.2.2 = b.2.2 ∧ earlierChunk (a.1, a.2.1) (b.1, b.2.1)

instance : DecidableRel (byScore (σ := σ)) := fun _ _ => inferInstanceAs (Decidable (_ ∨ _))

instance : DecidableRel (byRank (σ := σ)) := fun _ _ => inferInstanceAs (Decidable (_ ∨ _))

/-- The order of rows with equal scores. -/
def earlierRow (a b : Chunk × Document × σ) : Prop := earlierChunk (a.1, a.2.1) (b.1, b.2.1)

omit [LinearOrder σ] in
instance : Std.Total (earlierRow (σ := σ)) :=
  ⟨fun a b => Std.Total.total (r := earlierChunk) (a.1, a.2.1) (b.1, b.2.1)⟩

omit [LinearOrder σ] in
instance : IsTrans (Chunk × Document × σ) earlierRow := ⟨fun _ _ _ => trans_of earlierChunk⟩

instance : Std.Total (byScore (σ := σ)) :=
  inferInstanceAs (Std.Total (ThenBy (fun r : Chunk × Document × σ => OrderDual.toDual r.2.2) earlierRow))

instance : IsTrans (Chunk × Document × σ) byScore :=
  inferInstanceAs (IsTrans _ (ThenBy (fun r : Chunk × Document × σ => OrderDual.toDual r.2.2) earlierRow))

instance : Std.Total (byRank (σ := σ)) :=
  inferInstanceAs (Std.Total (ThenBy (fun r : Chunk × Document × σ => r.2.2) earlierRow))

instance : IsTrans (Chunk × Document × σ) byRank :=
  inferInstanceAs (IsTrans _ (ThenBy (fun r : Chunk × Document × σ => r.2.2) earlierRow))

/-- The score of a row whose vector is of the model and close enough. -/
def similarity (engine : RowEngine σ φ) (options : SearchOptions φ) (db : Database) (query : List F32)
    (modelId : String) (threshold : σ) (c : Chunk) (d : Document) : Option σ :=
  ((db.chunkEmbeddings.find c.id).filter fun e =>
      e.modelId = modelId ∧ e.dimensions = query.length ∧ options.Allows engine.matchesMetadataFilter d ∧
        threshold ≤ engine.vectorDot e.vector (vectorBytes query)).map
    fun e => engine.vectorDot e.vector (vectorBytes query)

/-- The rank of a row that the phrase matches. -/
def textRank (engine : RowEngine σ φ) (options : SearchOptions φ) (db : Database) (query : String) (c : Chunk)
    (d : Document) : Option σ :=
  if options.Allows engine.matchesMetadataFilter d then
    engine.bm25 db.chunks.rows ("\"" ++ query.replace "\"" "\"\"" ++ "\"") c
  else none

variable {query : List F32} {modelId text : String} {limit : Nat} {threshold : σ}

theorem documents_chunkCandidates (hvalid : validateVector env query query.length = .ok ()) :
    (ChunkSearch.chunkCandidates query modelId limit threshold).documents env engine orgId options db =
      .ok ((ranked byScore (similarity engine options db query modelId threshold) limit orgId db).map (·.2.1.id)) := by
  simp only [ChunkSearch.documents, searchChunkCandidates, hvalid, Except.map, List.map_map]
  rfl

theorem documents_semantic (hvalid : validateVector env query query.length = .ok ()) :
    (ChunkSearch.semantic query modelId limit threshold).documents env engine orgId options db =
      .ok ((ranked byScore (similarity engine options db query modelId threshold) limit orgId db).map (·.2.1.id)) := by
  simp only [ChunkSearch.documents, searchSemantic, hvalid, Except.map, List.map_map]
  rfl

theorem documents_chunkLexicalCandidates :
    (ChunkSearch.chunkLexicalCandidates text limit).documents env engine orgId options db =
      .ok ((ranked byRank (textRank engine options db text) limit orgId db).map (·.2.1.id)) := by
  simp only [ChunkSearch.documents, searchChunkLexicalCandidates, List.map_map]
  rw [← List.zipIdx_map_fst 0 (ranked byRank (textRank engine options db text) limit orgId db), List.map_map]
  rfl

variable {path : String} {d : Document}

theorem allows_filepath {matchesMetadataFilter : Object → φ → Bool} :
    { options with filepath := some path }.Allows matchesMetadataFilter d ↔
      matchesFilepath path d ∧ { options with filepath := none }.Allows matchesMetadataFilter d := by
  simp only [SearchOptions.Allows, Option.mem_some_iff, forall_eq', Option.not_mem_none, false_imp_iff, implies_true,
    true_and]
  tauto

theorem similarity_filepath (c : Chunk) (d : Document) :
    similarity engine { options with filepath := some path } db query modelId threshold c d =
      if matchesFilepath path d then
        similarity engine { options with filepath := none } db query modelId threshold c d
      else none := by
  unfold similarity
  simp only [allows_filepath]
  by_cases hpath : matchesFilepath path d
  · simp only [hpath, true_and, if_true]
  · simp only [hpath, false_and, and_false, decide_false, if_false]
    cases db.chunkEmbeddings.find c.id with
    | none => rfl
    | some e => rfl

omit [LinearOrder σ] in
theorem textRank_filepath (c : Chunk) (d : Document) :
    textRank engine { options with filepath := some path } db text c d =
      if matchesFilepath path d then textRank engine { options with filepath := none } db text c d else none := by
  unfold textRank
  simp only [allows_filepath]
  by_cases hpath : matchesFilepath path d
  · simp only [hpath, true_and, if_true]
  · simp only [hpath, false_and, if_false]

/-- Of the documents that a search finds without a path, it finds those with it whose path matches. -/
theorem ChunkSearch.finds_filepath (search : ChunkSearch σ) (hd : d ∈ db.documents)
    (hfound : search.Finds env engine orgId { options with filepath := none } db d.id) :
    search.Finds env engine orgId { options with filepath := some path } db d.id ↔ matchesFilepath path d := by
  obtain ⟨ids, hids, hmem⟩ := hfound
  cases search with
  | semantic query modelId limit threshold =>
    cases hvalid : validateVector env query query.length with
    | error e => simp [ChunkSearch.documents, searchSemantic, hvalid, Except.map] at hids
    | ok =>
      rw [documents_semantic hvalid] at hids
      cases hids
      simp only [ChunkSearch.Finds, documents_semantic hvalid, Except.ok.injEq, exists_eq_left']
      exact ranked_filter (matchesFilepath path) similarity_filepath hd hmem
  | chunkCandidates query modelId limit threshold =>
    cases hvalid : validateVector env query query.length with
    | error e => simp [ChunkSearch.documents, searchChunkCandidates, hvalid, Except.map] at hids
    | ok =>
      rw [documents_chunkCandidates hvalid] at hids
      cases hids
      simp only [ChunkSearch.Finds, documents_chunkCandidates hvalid, Except.ok.injEq, exists_eq_left']
      exact ranked_filter (matchesFilepath path) similarity_filepath hd hmem
  | chunkLexicalCandidates text limit =>
    rw [documents_chunkLexicalCandidates] at hids
    cases hids
    simp only [ChunkSearch.Finds, documents_chunkLexicalCandidates, Except.ok.injEq, exists_eq_left']
    exact ranked_filter (matchesFilepath path) textRank_filepath hd hmem

-- ---------------------------------------------------------------------------
-- Directories
-- ---------------------------------------------------------------------------

/-- The file is the directory, with or without the slash, or lies in it. -/
def Within (directory filepath : String) : Prop :=
  filepath = directory ++ "/" ∨ filepath = directory ∨ (directory ++ "/").toList <+: filepath.toList

/-- The name of the file goes on after the directory's name without a slash between. -/
def Beside (directory filepath : String) : Prop :=
  ∃ c rest, c ≠ '/' ∧ filepath.toList = directory.toList ++ c :: rest

/-- The path is compared without its slash. -/
theorem matchesFilepath_directory {directory filepath : String} (hfilepath : d.filepath = some filepath) :
    matchesFilepath (directory ++ "/") d ↔ directory.toList <+: filepath.toList := by
  have hpath : (directory ++ "/").toList = directory.toList ++ ['/'] := by simp
  have hlength : (directory ++ "/").length - 1 = directory.toList.length := by
    rw [← String.length_toList, hpath, List.length_append, List.length_singleton, Nat.add_sub_cancel]
  have htake : (directory ++ "/").toList.take ((directory ++ "/").length - 1) = directory.toList := by
    rw [hlength, hpath, List.take_left]
  simp only [matchesFilepath, hfilepath, Option.mem_some_iff, exists_eq_left']
  rw [htake, hlength, hpath, List.getLast?_concat, eq_comm (b := directory.toList), ← List.prefix_iff_eq_take]
  constructor
  · intro h
    cases h with
    | inl heq =>
      rw [heq, hpath]
      exact List.prefix_append directory.toList ['/']
    | inr h => exact h.2
  · exact fun h => .inr ⟨rfl, h⟩

theorem prefix_iff_within_or_beside {directory filepath : String} :
    directory.toList <+: filepath.toList ↔ Within directory filepath ∨ Beside directory filepath := by
  have hpath : (directory ++ "/").toList = directory.toList ++ ['/'] := by simp
  constructor
  · intro h
    obtain ⟨rest, hrest⟩ := h
    cases rest with
    | nil => exact .inl (.inr (.inl (String.toList_inj.mp (by rw [← hrest, List.append_nil]))))
    | cons c rest =>
      by_cases hc : c = '/'
      · refine .inl (.inr (.inr ⟨rest, ?_⟩))
        rw [hpath, ← hrest, hc, List.append_assoc, List.singleton_append]
      · exact .inr ⟨c, rest, hc, hrest.symm⟩
  · intro h
    rcases h with (heq | heq | hbegins) | ⟨c, rest, _, heq⟩
    · rw [heq, hpath]
      exact List.prefix_append directory.toList ['/']
    · exact heq ▸ List.prefix_rfl
    · rw [hpath] at hbegins
      exact (List.prefix_append directory.toList ['/']).trans hbegins
    · rw [heq]
      exact List.prefix_append directory.toList (c :: rest)

theorem not_within_of_beside {directory filepath : String} (h : Beside directory filepath) :
    ¬ Within directory filepath := by
  obtain ⟨c, rest, hc, heq⟩ := h
  have hpath : (directory ++ "/").toList = directory.toList ++ ['/'] := by simp
  have hslash {tail : List Char} (hsame : c :: rest = '/' :: tail) : False := hc (List.cons.inj hsame).1
  intro hwithin
  rcases hwithin with hsame | hsame | ⟨tail, htail⟩
  · rw [hsame, hpath] at heq
    exact hslash (List.append_cancel_left heq).symm
  · rw [hsame] at heq
    exact absurd (List.self_eq_append_right.mp heq) (List.cons_ne_nil c rest)
  · rw [heq, hpath, List.append_assoc] at htail
    exact hslash (List.append_cancel_left htail).symm

/-- The condition on the path of a directory is right about a file exactly if the file is not beside the directory,
    and a search finds under the directory those documents it finds without that meet the condition. -/
theorem admits_within_iff {directory filepath : String} (hfilepath : d.filepath = some filepath) :
    ((matchesFilepath (directory ++ "/") d ↔ Within directory filepath) ↔ ¬ Beside directory filepath) ∧
    ∀ search : ChunkSearch σ, d ∈ db.documents →
      search.Finds env engine orgId { options with filepath := none } db d.id →
        (search.Finds env engine orgId { options with filepath := some (directory ++ "/") } db d.id ↔
          matchesFilepath (directory ++ "/") d) := by
  refine ⟨?_, fun search hd hfound => search.finds_filepath hd hfound⟩
  rw [matchesFilepath_directory hfilepath, prefix_iff_within_or_beside]
  constructor
  · intro h hbeside
    exact not_within_of_beside hbeside (h.mp (.inr hbeside))
  · intro h
    exact or_iff_left h

end Engine

/-- One document, indexed, whose file has the path. -/
def filedAt (filepath : String) : Option System :=
  afterCalls [.openStorage, .upsertDocument "" { upsertOf "a fact" with filepath := some filepath }, .claimJob,
    .completeJob ⟨"xx", "x", "a fact", 1⟩ ["a fact"]]

/-- A search that finds everything. -/
def everyRow : RowEngine Int Unit :=
  { vectorDot := fun _ _ => 1
    bm25 := fun _ _ _ => some 1
    matchesMetadataFilter := fun _ _ => true }

def anywhere : SearchOptions Unit :=
  { containerTags := [], documentId := none, filepath := none, filters := none }

def factSearch : ChunkSearch Int := .chunkLexicalCandidates "fact" 10

theorem admits_within_iff_folder : ∃ s d, filedAt "folder/x" = some s ∧ d ∈ s.db.documents ∧
    d.filepath = some "folder/x" ∧
    factSearch.Finds unaryEnv everyRow "" { anywhere with filepath := some ("folder" ++ "/") } s.db d.id := by
  have hrun : ∃ s ∈ filedAt "folder/x", ∃ d ∈ s.db.documents.rows, d.filepath = some "folder/x" ∧
      ∃ ids ∈ (factSearch.documents unaryEnv everyRow "" anywhere s.db).toOption, d.id ∈ ids := by
    decide +kernel
  obtain ⟨s, hs, d, hd, hfilepath, ids, hids, hmem⟩ := hrun
  have hfound : factSearch.Finds unaryEnv everyRow "" anywhere s.db d.id :=
    ⟨ids, Loop.ok_of_mem_toOption hids, hmem⟩
  have hwithin : Within "folder" "folder/x" := .inr (.inr ⟨['x'], by decide⟩)
  obtain ⟨hcondition, hsearch⟩ :=
    @admits_within_iff Int Unit _ unaryEnv everyRow "" anywhere s.db d "folder" "folder/x" hfilepath
  have hadmits := (hcondition.mpr fun hbeside => not_within_of_beside hbeside hwithin).mpr hwithin
  exact ⟨s, d, hs, hd, hfilepath, (hsearch factSearch hd hfound).mpr hadmits⟩

/-- The path of a directory finds a file of another directory whose name begins with its name. -/
theorem sibling_found : ∃ s d, (machine unaryEnv).Reachable s ∧ d ∈ s.db.documents ∧
    d.filepath = some "folderish/x" ∧
    matchesFilepath ("folder" ++ "/") d ∧
    factSearch.Finds unaryEnv everyRow "" { anywhere with filepath := some ("folder" ++ "/") } s.db d.id ∧
    ¬ Within "folder" "folderish/x" := by
  have hrun : ∃ s ∈ filedAt "folderish/x", ∃ d ∈ s.db.documents.rows, d.filepath = some "folderish/x" ∧
      ∃ ids ∈ (factSearch.documents unaryEnv everyRow ""
        { anywhere with filepath := some ("folder" ++ "/") } s.db).toOption, d.id ∈ ids := by
    decide +kernel
  obtain ⟨s, hs, d, hd, hfilepath, ids, hids, hmem⟩ := hrun
  refine ⟨s, d, afterCalls_reachable hs, hd, hfilepath, ?_, ⟨ids, Loop.ok_of_mem_toOption hids, hmem⟩, ?_⟩
  · exact (matchesFilepath_directory hfilepath).mpr ⟨"ish/x".toList, by decide⟩
  exact not_within_of_beside ⟨'i', "sh/x".toList, by decide, by decide⟩

end Storage
