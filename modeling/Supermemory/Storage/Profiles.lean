-- SUMMARY: The profile queries: which memories of a container they return, and exactly when the profile of a bucket misses one.
import Mathlib.Data.Prod.Lex
import Supermemory.Library.Ranking
import Supermemory.Storage.LocalIdentity
import Supermemory.Storage.Memories

/-!
# Profiles

The static profile ranks the static memories of a container by their sources and their age, the
dynamic one the others by their age. Each query is cut at 300 rows, and what is left of it
without duplicates at 100 memories. The profile of a bucket is chosen from the two.
-/

namespace Storage

open OrderDual (toDual)
open Ranking (First ThenBy)

-- ---------------------------------------------------------------------------
-- Queries
-- ---------------------------------------------------------------------------

/-- The order in which a query meets the rows that its `ORDER BY` does not tell apart. -/
structure ScanOrder where
  scan : List Memory → List Memory
  perm : ∀ rows, (scan rows).Perm rows

/-- The rows in the order of their insertion. -/
def rowOrder : ScanOrder := ⟨id, List.Perm.refl⟩

/-- The conditions of both profile queries. -/
def InProfile (env : Env) (now : Time) (orgId containerTag : String) (m : Memory) : Prop :=
  m.orgId = orgId ∧ m.containerTag = containerTag ∧ m.isLatest = true ∧ m.isForgotten = false ∧ Unexpired env now m

instance (env : Env) (now : Time) (orgId containerTag : String) : DecidablePred (InProfile env now orgId containerTag) :=
  fun _ => inferInstanceAs (Decidable (_ ∧ _))

def profileRows (env : Env) (now : Time) (orgId containerTag : String) (isStatic : Bool) (rows : List Memory) :
    List Memory :=
  rows.filter fun m => m.isStatic = isStatic ∧ InProfile env now orgId containerTag m

/-- `SELECT … WHERE … ORDER BY … LIMIT 300`. -/
def profileQuery {κ : Type} [LinearOrder κ] (env : Env) (now : Time) (order : ScanOrder) (orgId containerTag : String)
    (isStatic : Bool) (key : Memory → κ) (db : Database) : List Memory :=
  ((profileRows env now orgId containerTag isStatic (order.scan db.memories.rows)).insertionSort
    fun a b => key a ≤ key b).take 300

/-- `(SELECT COUNT(*) FROM memory_sources WHERE memory_id=memories.id) DESC, updated_at DESC`. -/
def staticKey (db : Database) (m : Memory) : Natᵒᵈ ×ₗ Timeᵒᵈ :=
  toLex (toDual (db.memorySources.rows.countP fun source => source.memoryId = m.id), toDual m.updatedAt)

/-- `updated_at DESC`. -/
def dynamicKey (m : Memory) : Timeᵒᵈ := toDual m.updatedAt

/-- The memories whose normalized content is not empty and not seen before. -/
def unseenMemories (env : Env) : List String → List MemoryRecord → List MemoryRecord
  | _, [] => []
  | seen, memory :: rest =>
    let normalized := normalizedMemory env memory.memory
    if normalized ≠ "" ∧ normalized ∉ seen then
      memory :: unseenMemories env (normalized :: seen) rest
    else
      unseenMemories env seen rest

def deduplicateMemories (env : Env) (memories : List MemoryRecord) (limit : Nat) (excluded : List String) :
    List MemoryRecord :=
  (unseenMemories env excluded memories).take limit

/-- Returns static profile memories in an explicit organization. -/
def staticProfileFor (env : Env) (now : Time) (order : ScanOrder) (orgId containerTag : String) (db : Database) :
    List MemoryRecord :=
  let rows := (profileQuery env now order orgId containerTag true (staticKey db) db).map readMemory
  deduplicateMemories env rows 100 []

/-- Returns dynamic profile memories in an explicit organization. -/
def dynamicProfileFor (env : Env) (now : Time) (order : ScanOrder) (orgId containerTag : String)
    (staticMemories : List MemoryRecord) (db : Database) : List MemoryRecord :=
  let rows := (profileQuery env now order orgId containerTag false dynamicKey db).map readMemory
  let excluded := staticMemories.map fun memory => normalizedMemory env memory.memory
  deduplicateMemories env rows 100 excluded

/-- The metadata lists the bucket. -/
def inBucket (bucket : String) (metadata : Object) : Bool :=
  match metadata.get "buckets" with
  | some (.array buckets) => buckets.any fun value => value.asStr = some bucket
  | _ => false

/-- Returns bucket memories in an explicit organization. -/
def bucketProfileFor (env : Env) (now : Time) (staticOrder dynamicOrder : ScanOrder)
    (orgId containerTag bucket : String) (db : Database) : List MemoryRecord :=
  let staticMemories := staticProfileFor env now staticOrder orgId containerTag db
  let dynamic := dynamicProfileFor env now dynamicOrder orgId containerTag staticMemories db
  ((staticMemories ++ dynamic).filter fun memory => inBucket bucket memory.metadata).take 100

-- ---------------------------------------------------------------------------
-- Deduplication
-- ---------------------------------------------------------------------------

variable {env : Env} {now : Time} {staticOrder dynamicOrder order : ScanOrder} {orgId containerTag bucket : String}
  {db : Database} {m m' : Memory}

def sameContent (env : Env) (m m' : Memory) : Bool :=
  normalizedMemory env m.content = normalizedMemory env m'.content

/-- A memory with a normalized content other than the given ones. -/
def fresh (env : Env) (excluded : List String) (m : Memory) : Bool :=
  normalizedMemory env m.content ≠ "" ∧ normalizedMemory env m.content ∉ excluded

theorem sameContent_comm (m m' : Memory) : sameContent env m m' = sameContent env m' m :=
  decide_eq_decide.mpr eq_comm

theorem sameContent_trans (m m' m'' : Memory) (h : sameContent env m m' = true) (h' : sameContent env m' m'' = true) :
    sameContent env m m'' = true :=
  decide_eq_true ((of_decide_eq_true h).trans (of_decide_eq_true h'))

theorem fresh_cons (seen : List String) : fresh env (normalizedMemory env m.content :: seen) m' =
    (decide (sameContent env m' m = false) && fresh env seen m') := by
  rw [Bool.eq_iff_iff]
  simp only [fresh, sameContent, List.mem_cons, not_or, Bool.and_eq_true, decide_eq_true_eq, decide_eq_false_iff_not]
  constructor
  · intro h
    exact ⟨h.2.1, h.1, h.2.2⟩
  · intro h
    exact ⟨h.2.1, h.1, h.2.2⟩

theorem fresh_congr {excluded excluded' : List String} (h : ∀ content, content ∈ excluded ↔ content ∈ excluded') :
    fresh env excluded = fresh env excluded' := by
  funext m
  simp only [fresh, h]

/-- The set of seen contents keeps the first memory of each content. -/
theorem unseenMemories_eq (seen : List String) (rows : List Memory) :
    unseenMemories env seen (rows.map readMemory) =
      ((rows.filter (fresh env seen)).eraseDupsBy (sameContent env)).map readMemory := by
  induction rows generalizing seen with
  | nil => rfl
  | cons m rows ih =>
    have hcontent : (readMemory m).memory = m.content := rfl
    rw [List.map_cons, unseenMemories, hcontent]
    by_cases hfresh : normalizedMemory env m.content ≠ "" ∧ normalizedMemory env m.content ∉ seen
    · have hkept : fresh env seen m = true := decide_eq_true hfresh
      have hrest : rows.filter (fresh env (normalizedMemory env m.content :: seen)) =
          (rows.filter (fresh env seen)).filter fun m' => decide (sameContent env m' m = false) := by
        rw [List.filter_filter]
        exact List.filter_congr fun m' _ => fresh_cons seen
      rw [if_pos hfresh, ih, hrest, List.filter_cons_of_pos hkept, List.eraseDupsBy_cons, List.map_cons]
    · have hkept : ¬ fresh env seen m = true := fun h => hfresh (of_decide_eq_true h)
      rw [if_neg hfresh, ih, List.filter_cons_of_neg hkept]

-- ---------------------------------------------------------------------------
-- Leading memories
-- ---------------------------------------------------------------------------

/-- The order of a profile query. -/
def Ahead {κ : Type} [LinearOrder κ] (order : ScanOrder) (key : Memory → κ) (db : Database) : Memory → Memory → Prop :=
  ThenBy key fun m m' => (order.scan db.memories.rows).idxOf m < (order.scan db.memories.rows).idxOf m'

instance {κ : Type} [LinearOrder κ] (order : ScanOrder) (key : Memory → κ) (db : Database) :
    DecidableRel (Ahead order key db) :=
  inferInstanceAs (DecidableRel (ThenBy _ _))

/-- Fewer than 300 rows are ahead of the memory, it is the first of its content among the fresh ones, and fewer than
    100 other contents are ahead of it. -/
def Leads (env : Env) (ahead : Memory → Memory → Prop) [DecidableRel ahead] (excluded : List String)
    (rows : List Memory) (m : Memory) : Prop :=
  m ∈ rows ∧ First ahead (fresh env excluded) (sameContent env) rows m ∧ rows.countP (ahead · m) < 300 ∧
    rows.countP (fun m' => First ahead (fresh env excluded) (sameContent env) rows m' ∧ ahead m' m) < 100

instance (ahead : Memory → Memory → Prop) [DecidableRel ahead] (excluded : List String) (rows : List Memory) :
    DecidablePred (Leads env ahead excluded rows) :=
  fun _ => inferInstanceAs (Decidable (_ ∧ _))

/-- The memories of a query that its cuts and the erasure of duplicates leave. -/
def leadingRows {κ : Type} [LinearOrder κ] (env : Env) (now : Time) (order : ScanOrder) (orgId containerTag : String)
    (isStatic : Bool) (key : Memory → κ) (excluded : List String) (db : Database) : List Memory :=
  (((profileQuery env now order orgId containerTag isStatic key db).filter (fresh env excluded)).eraseDupsBy
    (sameContent env)).take 100

section Query

variable {κ : Type} [LinearOrder κ] {key : Memory → κ} {isStatic : Bool} {excluded : List String}

theorem deduplicateMemories_query :
    deduplicateMemories env ((profileQuery env now order orgId containerTag isStatic key db).map readMemory) 100 excluded =
      (leadingRows env now order orgId containerTag isStatic key excluded db).map readMemory := by
  rw [deduplicateMemories, unseenMemories_eq, leadingRows, List.map_take]

theorem ahead_asymm (m m' : Memory) (h : Ahead order key db m m') : ¬ Ahead order key db m' m :=
  ThenBy.asymm (fun _ _ => Nat.lt_asymm) m m' h

/-- A query sorts the rows of its memories. -/
theorem mem_leadingRows : m ∈ leadingRows env now order orgId containerTag isStatic key excluded db ↔
    Leads env (Ahead order key db) excluded (profileRows env now orgId containerTag isStatic db.memories.rows) m := by
  have hscan : (order.scan db.memories.rows).Nodup :=
    (order.perm db.memories.rows).nodup_iff.mpr db.memories.rows_nodup
  have hsorted : ((profileRows env now orgId containerTag isStatic (order.scan db.memories.rows)).insertionSort
      fun a b => key a ≤ key b).Pairwise (Ahead order key db) :=
    Ranking.pairwise_insertionSort ((Ranking.pairwise_idxOf hscan).filter _)
  have hperm := (List.perm_insertionSort (fun a b => key a ≤ key b) _).trans
    ((order.perm db.memories.rows).filter fun m => m.isStatic = isStatic ∧ InProfile env now orgId containerTag m)
  exact Ranking.mem_take_eraseDupsBy_take ahead_asymm sameContent_comm sameContent_trans hsorted hperm

theorem mem_profileRows {rows : List Memory} : m ∈ profileRows env now orgId containerTag isStatic rows ↔
    m ∈ rows ∧ m.isStatic = isStatic ∧ InProfile env now orgId containerTag m := by
  rw [profileRows, List.mem_filter, decide_eq_true_eq]

theorem Leads.shown {ahead : Memory → Memory → Prop} [DecidableRel ahead]
    (h : Leads env ahead excluded (profileRows env now orgId containerTag isStatic db.memories.rows) m) :
    m ∈ db.memories ∧ InProfile env now orgId containerTag m ∧ normalizedMemory env m.content ≠ "" :=
  have hrow := mem_profileRows.mp h.1
  ⟨hrow.1, hrow.2.2, (of_decide_eq_true h.2.1.1).1⟩

theorem leadingRows_isStatic (h : m ∈ leadingRows env now order orgId containerTag isStatic key excluded db) :
    m.isStatic = isStatic := (mem_profileRows.mp (mem_leadingRows.mp h).1).2.1

theorem leadingRows_distinct : (leadingRows env now order orgId containerTag isStatic key excluded db).Pairwise
    fun m m' => normalizedMemory env m.content ≠ normalizedMemory env m'.content := by
  apply ((Ranking.pairwise_eraseDupsBy _).sublist (List.take_sublist 100 _)).imp
  intro m m' hdistinct heq
  exact of_decide_eq_false hdistinct heq.symm

end Query

-- ---------------------------------------------------------------------------
-- The profile of a bucket
-- ---------------------------------------------------------------------------

def LeadsStatic (env : Env) (now : Time) (order : ScanOrder) (orgId containerTag : String) (db : Database) (m : Memory) :
    Prop :=
  Leads env (Ahead order (staticKey db) db) [] (profileRows env now orgId containerTag true db.memories.rows) m

instance (env : Env) (now : Time) (order : ScanOrder) (orgId containerTag : String) (db : Database) :
    DecidablePred (LeadsStatic env now order orgId containerTag db) :=
  inferInstanceAs (DecidablePred (Leads _ _ _ _))

/-- The contents that a dynamic profile leaves to the static one. -/
def staticContents (env : Env) (now : Time) (order : ScanOrder) (orgId containerTag : String) (db : Database) :
    List String :=
  (db.memories.rows.filter (LeadsStatic env now order orgId containerTag db)).map fun m => normalizedMemory env m.content

def LeadsDynamic (env : Env) (now : Time) (staticOrder dynamicOrder : ScanOrder) (orgId containerTag : String)
    (db : Database) (m : Memory) : Prop :=
  Leads env (Ahead dynamicOrder dynamicKey db) (staticContents env now staticOrder orgId containerTag db)
    (profileRows env now orgId containerTag false db.memories.rows) m

instance (env : Env) (now : Time) (staticOrder dynamicOrder : ScanOrder) (orgId containerTag : String) (db : Database) :
    DecidablePred (LeadsDynamic env now staticOrder dynamicOrder orgId containerTag db) :=
  inferInstanceAs (DecidablePred (Leads _ _ _ _))

/-- A memory of the bucket that its query lets through. -/
def LeadsBucket (env : Env) (now : Time) (staticOrder dynamicOrder : ScanOrder) (orgId containerTag bucket : String)
    (db : Database) (m : Memory) : Prop :=
  (LeadsStatic env now staticOrder orgId containerTag db m ∨
    LeadsDynamic env now staticOrder dynamicOrder orgId containerTag db m) ∧ inBucket bucket m.metadata = true

instance (env : Env) (now : Time) (staticOrder dynamicOrder : ScanOrder) (orgId containerTag bucket : String)
    (db : Database) : DecidablePred (LeadsBucket env now staticOrder dynamicOrder orgId containerTag bucket db) :=
  fun _ => inferInstanceAs (Decidable (_ ∧ _))

def HasAlphanumeric (env : Env) (m : Memory) : Prop := ∃ c ∈ m.content.toList, env.isAlphanumeric c = true

/-- A memory of the container that its metadata assigns to the bucket. -/
structure InBucketProfile (env : Env) (now : Time) (orgId containerTag bucket : String) (db : Database) (m : Memory) :
    Prop where
  stored : m ∈ db.memories
  shown : InProfile env now orgId containerTag m
  tagged : inBucket bucket m.metadata = true

/-- What the profile of a bucket is to be: memories of the bucket without duplicates, the static ones first, and
    all of them where they are fewer than 100. -/
structure BucketProfile (env : Env) (now : Time) (orgId containerTag bucket : String) (db : Database)
    (profile : List MemoryRecord) : Prop where
  sound : ∀ memory ∈ profile, ∃ m, InBucketProfile env now orgId containerTag bucket db m ∧
    normalizedMemory env m.content ≠ "" ∧ memory = readMemory m
  distinct : profile.Pairwise fun memory later =>
    normalizedMemory env memory.memory ≠ normalizedMemory env later.memory
  staticFirst : profile.Pairwise fun memory later => later.isStatic = true → memory.isStatic = true
  complete : profile.length < 100 → ∀ m, InBucketProfile env now orgId containerTag bucket db m →
    HasAlphanumeric env m → ∃ memory ∈ profile, normalizedMemory env memory.memory = normalizedMemory env m.content

/-- At least 100 memories of the bucket lead, or one leads of each content in the bucket. -/
def BucketLeads (env : Env) (now : Time) (staticOrder dynamicOrder : ScanOrder) (orgId containerTag bucket : String)
    (db : Database) : Prop :=
  100 ≤ db.memories.rows.countP (LeadsBucket env now staticOrder dynamicOrder orgId containerTag bucket db) ∨
    ∀ m, InBucketProfile env now orgId containerTag bucket db m → HasAlphanumeric env m →
      ∃ m' ∈ db.memories, LeadsBucket env now staticOrder dynamicOrder orgId containerTag bucket db m' ∧
        normalizedMemory env m'.content = normalizedMemory env m.content

/-- The rows that the profile of a bucket is chosen from. -/
def bucketRows (env : Env) (now : Time) (staticOrder dynamicOrder : ScanOrder) (orgId containerTag bucket : String)
    (db : Database) : List Memory :=
  (leadingRows env now staticOrder orgId containerTag true (staticKey db) [] db ++
    leadingRows env now dynamicOrder orgId containerTag false dynamicKey
      (staticContents env now staticOrder orgId containerTag db) db).filter fun m => inBucket bucket m.metadata

theorem mem_staticContents {content : String} : content ∈ staticContents env now staticOrder orgId containerTag db ↔
    ∃ m ∈ leadingRows env now staticOrder orgId containerTag true (staticKey db) [] db,
      normalizedMemory env m.content = content := by
  rw [staticContents, List.mem_map]
  apply exists_congr
  intro m
  apply and_congr_left
  intro _
  rw [List.mem_filter, decide_eq_true_eq, mem_leadingRows]
  exact and_iff_right_of_imp fun h => h.shown.1

/-- The dynamic query is told the contents of the static memories that it returns. -/
theorem bucketProfileFor_eq : bucketProfileFor env now staticOrder dynamicOrder orgId containerTag bucket db =
    ((bucketRows env now staticOrder dynamicOrder orgId containerTag bucket db).take 100).map readMemory := by
  have hstatic : staticProfileFor env now staticOrder orgId containerTag db =
      (leadingRows env now staticOrder orgId containerTag true (staticKey db) [] db).map readMemory :=
    deduplicateMemories_query
  have hexcluded : fresh env ((staticProfileFor env now staticOrder orgId containerTag db).map
      fun memory => normalizedMemory env memory.memory) =
      fresh env (staticContents env now staticOrder orgId containerTag db) := by
    apply fresh_congr
    intro content
    rw [hstatic, List.map_map, List.mem_map, mem_staticContents]
    rfl
  have hdynamic : dynamicProfileFor env now dynamicOrder orgId containerTag
      (staticProfileFor env now staticOrder orgId containerTag db) db =
      (leadingRows env now dynamicOrder orgId containerTag false dynamicKey
        (staticContents env now staticOrder orgId containerTag db) db).map readMemory := by
    rw [dynamicProfileFor, deduplicateMemories_query, leadingRows, hexcluded]
    rfl
  rw [bucketProfileFor, hdynamic, hstatic, ← List.map_append, List.filter_map, ← List.map_take]
  rfl

theorem mem_bucketRows : m ∈ bucketRows env now staticOrder dynamicOrder orgId containerTag bucket db ↔
    LeadsBucket env now staticOrder dynamicOrder orgId containerTag bucket db m := by
  rw [bucketRows, List.mem_filter, List.mem_append, mem_leadingRows, mem_leadingRows]
  rfl

theorem bucketRows_distinct : (bucketRows env now staticOrder dynamicOrder orgId containerTag bucket db).Pairwise
    fun m m' => normalizedMemory env m.content ≠ normalizedMemory env m'.content := by
  apply List.Pairwise.filter
  apply List.pairwise_append.mpr ⟨leadingRows_distinct, leadingRows_distinct, _⟩
  intro m hm m' hm' heq
  have hfresh := (mem_leadingRows.mp hm').2.1.1
  exact (of_decide_eq_true hfresh).2 (mem_staticContents.mpr ⟨m, hm, heq⟩)

theorem bucketRows_staticFirst : (bucketRows env now staticOrder dynamicOrder orgId containerTag bucket db).Pairwise
    fun m m' => m'.isStatic = true → m.isStatic = true := by
  apply List.Pairwise.filter
  apply List.pairwise_append.mpr
  constructor
  · exact List.pairwise_of_forall_mem_list fun m hm _ _ _ => leadingRows_isStatic hm
  constructor
  · apply List.pairwise_of_forall_mem_list
    intro _ _ m' hm' hstatic
    rw [leadingRows_isStatic hm'] at hstatic
    cases hstatic
  · exact fun m hm _ _ _ => leadingRows_isStatic hm

theorem LeadsBucket.inBucketProfile (h : LeadsBucket env now staticOrder dynamicOrder orgId containerTag bucket db m) :
    InBucketProfile env now orgId containerTag bucket db m ∧ normalizedMemory env m.content ≠ "" := by
  cases h.1 with
  | inl hstatic => exact ⟨⟨hstatic.shown.1, hstatic.shown.2.1, h.2⟩, hstatic.shown.2.2⟩
  | inr hdynamic => exact ⟨⟨hdynamic.shown.1, hdynamic.shown.2.1, h.2⟩, hdynamic.shown.2.2⟩

theorem length_bucketRows : (bucketRows env now staticOrder dynamicOrder orgId containerTag bucket db).length =
    db.memories.rows.countP (LeadsBucket env now staticOrder dynamicOrder orgId containerTag bucket db) := by
  have hnodup : (bucketRows env now staticOrder dynamicOrder orgId containerTag bucket db).Nodup :=
    bucketRows_distinct.imp fun hdistinct heq => hdistinct (congrArg _ (congrArg Memory.content heq))
  rw [List.countP_eq_length_filter]
  apply List.Perm.length_eq
  apply (List.perm_ext_iff_of_nodup hnodup (db.memories.rows_nodup.filter _)).mpr
  intro m
  rw [mem_bucketRows, List.mem_filter, decide_eq_true_eq]
  exact (and_iff_right_of_imp fun h => h.inBucketProfile.1.stored).symm

/-- What holds of two rows that the profile of a bucket is chosen from holds of its memories. -/
theorem pairwise_bucketProfileFor {R : MemoryRecord → MemoryRecord → Prop}
    (h : (bucketRows env now staticOrder dynamicOrder orgId containerTag bucket db).Pairwise
      fun m m' => R (readMemory m) (readMemory m')) :
    (bucketProfileFor env now staticOrder dynamicOrder orgId containerTag bucket db).Pairwise R := by
  rw [bucketProfileFor_eq]
  exact List.pairwise_map.mpr (h.sublist (List.take_sublist 100 _))

theorem length_bucketProfileFor :
    (bucketProfileFor env now staticOrder dynamicOrder orgId containerTag bucket db).length =
      min 100 (db.memories.rows.countP (LeadsBucket env now staticOrder dynamicOrder orgId containerTag bucket db)) := by
  rw [bucketProfileFor_eq, List.length_map, List.length_take, length_bucketRows]

theorem exists_of_mem_bucketProfileFor {memory : MemoryRecord}
    (h : memory ∈ bucketProfileFor env now staticOrder dynamicOrder orgId containerTag bucket db) :
    ∃ m, LeadsBucket env now staticOrder dynamicOrder orgId containerTag bucket db m ∧ memory = readMemory m := by
  rw [bucketProfileFor_eq] at h
  cases List.mem_map.mp h with
  | intro m hm => exact ⟨m, mem_bucketRows.mp (List.mem_of_mem_take hm.1), hm.2.symm⟩

/-- Where fewer than 100 memories of the bucket lead, the last cut leaves them all. -/
theorem readMemory_mem_bucketProfileFor
    (hfew : db.memories.rows.countP (LeadsBucket env now staticOrder dynamicOrder orgId containerTag bucket db) < 100)
    (h : LeadsBucket env now staticOrder dynamicOrder orgId containerTag bucket db m) :
    readMemory m ∈ bucketProfileFor env now staticOrder dynamicOrder orgId containerTag bucket db := by
  rw [bucketProfileFor_eq, List.take_of_length_le (length_bucketRows.trans_le hfew.le)]
  exact List.mem_map_of_mem (mem_bucketRows.mpr h)

/-- The same fact twice: as a static memory without a bucket, and as a memory of the bucket `preferences`. -/
def preferenceTables : LegacyTables :=
  let row (id : String) (isStatic : Bool) (buckets : List Value) : Object :=
    [("id", .string id), ("org_id", .string ""), ("memory", .string "I prefer tea"), ("is_static", .bool isStatic),
      ("is_latest", .bool true), ("version", .number "1"), ("source_count", .number "1"),
      ("created_at", .string "2024-01-01T00:00:00Z"), ("updated_at", .string "2024-01-01T00:00:00Z"),
      ("buckets", .array buckets)]
  [("memory_entry", row "static" true []), ("memory_entry", row "tagged" false [.string "preferences"])]

end Storage
