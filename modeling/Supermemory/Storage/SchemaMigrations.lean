-- SUMMARY: The migrations of the schema: which databases an opening accepts, and what it makes of them.
import Supermemory.Library.Loop
import Supermemory.Library.Script

/-!
# Schema migrations

An opening runs the migrations that the ledger of the database lacks, in one transaction,
and compares the columns of the tables before and after. Every statement of a migration
can be undone, so that the comparison at the end also finds the tables that were not as
their version has them, where the one at the start does not look. The databases that an
opening accepts are therefore known exactly, and so is what it makes of them.
-/

namespace Storage

open Script (run step)

-- ---------------------------------------------------------------------------
-- Schemas
-- ---------------------------------------------------------------------------

/-- Tables, indexes and virtual tables share their names, triggers have their own. -/
inductive SchemaName where
  | relation (name : String)
  | trigger (name : String)
  deriving DecidableEq

inductive SchemaObject where
  | table (columns : List String)
  | index
  | virtualTable
  | trigger
  deriving DecidableEq

abbrev Objects := SchemaName → Option SchemaObject

def SchemaObject.addColumn (column : String) : SchemaObject → SchemaObject
  | .table columns => .table (columns ++ [column])
  | object => object

def Objects.empty : Objects := fun _ => none

def Objects.columns (objects : Objects) (table : String) : Option (List String) :=
  match objects (.relation table) with
  | some (.table columns) => some columns
  | _ => none

/-- What the schema of a database holds, and the versions in `schema_migrations`. -/
structure Catalog where
  objects : Objects
  versions : List Int

/-- `COALESCE(MAX(version), 0)`. -/
def Catalog.currentVersion (c : Catalog) : Int := c.versions.max?.getD 0

/-- A statement of a migration that changes the schema. -/
inductive SchemaChange where
  | createTable (name : String) (columns : List String)
  | addColumn (table column : String)
  | createIndex (name table : String) (columns : List String)
  | dropIndex (name : String)
  | createVirtualTable (name : String)
  | createTrigger (name table : String)
  deriving DecidableEq

/-- The tables of a full-text index over another table. -/
def virtualNames (name : String) : List SchemaName :=
  [name, name ++ "_data", name ++ "_idx", name ++ "_docsize", name ++ "_config"].map .relation

namespace SchemaChange

/-- When a statement succeeds. -/
def enabled (objects : Objects) : SchemaChange → Bool
  | .createTable name _ => objects (.relation name) = none
  | .addColumn table column => (objects.columns table).any (column ∉ ·)
  | .createIndex name table indexed =>
    objects (.relation name) = none ∧ (objects.columns table).any fun columns => indexed.all (· ∈ columns)
  | .dropIndex name => objects (.relation name) = some .index
  | .createVirtualTable name => (virtualNames name).all fun taken => objects taken = none
  | .createTrigger name table => objects (.trigger name) = none ∧ (objects.columns table).isSome

/-- What a statement makes of the object of a name. -/
def update (name : SchemaName) (object : Option SchemaObject) : SchemaChange → Option SchemaObject
  | .createTable table columns => if name = .relation table then some (.table columns) else object
  | .addColumn table column => if name = .relation table then object.map (·.addColumn column) else object
  | .createIndex index _ _ => if name = .relation index then some .index else object
  | .dropIndex index => if name = .relation index then none else object
  | .createVirtualTable table => if name ∈ virtualNames table then some .virtualTable else object
  | .createTrigger trigger _ => if name = .trigger trigger then some .trigger else object

/-- The names that a statement creates or drops. -/
def targets : SchemaChange → List SchemaName
  | .createTable name _ | .createIndex name _ _ | .dropIndex name => [.relation name]
  | .addColumn _ _ => []
  | .createVirtualTable name => virtualNames name
  | .createTrigger name _ => [.trigger name]

/-- The table that a statement is about, if it is not one that it creates. -/
def tables : SchemaChange → List SchemaName
  | .createTable _ _ | .dropIndex _ | .createVirtualTable _ => []
  | .addColumn table _ | .createIndex _ table _ | .createTrigger _ table => [.relation table]

end SchemaChange

-- ---------------------------------------------------------------------------
-- The migrations
-- ---------------------------------------------------------------------------

open SchemaChange in
/-- The versions with their statements. Those that change rows only are left out. -/
def migrations : List (Int × List SchemaChange) :=
  [(1, [
      createTable "organizations" ["id", "slug", "created_at"],
      createTable "documents" ["id", "org_id", "content", "content_hash", "custom_id", "status", "container_tags",
        "entity_context", "metadata", "task_type", "filepath", "filter_by_metadata", "dreaming", "created_at", "updated_at"],
      createTable "jobs" ["id", "document_id", "kind", "status", "attempts", "available_at", "last_error", "created_at",
        "updated_at"],
      createIndex "jobs_available_idx" "jobs" ["status", "available_at"],
      createIndex "documents_custom_id_idx" "documents" ["org_id", "custom_id"],
      createIndex "documents_content_hash_idx" "documents" ["org_id", "content_hash"],
      createIndex "jobs_one_active_document_idx" "jobs" ["document_id", "status"]]),
    (2, [
      createTable "document_chunks" ["id", "document_id", "ordinal", "content"],
      createVirtualTable "document_chunks_fts",
      createTrigger "document_chunks_insert" "document_chunks",
      createTrigger "document_chunks_delete" "document_chunks",
      createTrigger "document_chunks_update" "document_chunks"]),
    (3, [
      addColumn "documents" "revision",
      addColumn "jobs" "revision",
      addColumn "document_chunks" "stable_id",
      createIndex "document_chunks_stable_id_idx" "document_chunks" ["stable_id"],
      createIndex "jobs_document_revision_idx" "jobs" ["document_id", "revision"],
      createTable "chunk_embeddings" ["chunk_id", "model_id", "dimensions", "vector", "created_at"],
      createIndex "chunk_embeddings_model_idx" "chunk_embeddings" ["model_id", "dimensions"]]),
    (4, [
      createTable "memories" ["id", "org_id", "container_tag", "content", "metadata", "is_inferred", "is_static",
        "is_latest", "is_forgotten", "root_memory_id", "parent_memory_id", "version", "forget_after", "forget_reason",
        "created_at", "updated_at"],
      createTable "memory_sources" ["memory_id", "document_id", "created_at"],
      createTable "memory_relations" ["parent_id", "child_id", "relation", "created_at"],
      createTable "memory_embeddings" ["memory_id", "model_id", "dimensions", "vector", "active", "created_at"],
      createIndex "memories_active_profile_idx" "memories"
        ["org_id", "container_tag", "is_latest", "is_forgotten", "is_static", "updated_at"],
      createIndex "memory_relations_child_idx" "memory_relations" ["child_id"],
      createIndex "memory_sources_document_idx" "memory_sources" ["document_id"],
      createIndex "memory_embeddings_active_idx" "memory_embeddings" ["model_id", "dimensions", "active"]]),
    (5, [
      addColumn "organizations" "name",
      addColumn "organizations" "metadata",
      addColumn "documents" "title",
      addColumn "documents" "summary",
      addColumn "documents" "document_type",
      addColumn "documents" "source",
      addColumn "documents" "url",
      addColumn "documents" "user_id",
      addColumn "memories" "source_count",
      createTable "spaces" ["id", "org_id", "container_tag", "entity_context", "name", "description", "metadata",
        "profile_buckets", "created_at", "updated_at"],
      createTable "api_keys" ["id", "org_id", "key_hash", "name", "enabled", "expires_at", "created_at", "updated_at"],
      createIndex "api_keys_hash_idx" "api_keys" ["key_hash", "enabled"],
      createTable "legacy_imports" ["source_hash", "imported_at", "report"]]),
    (6, [addColumn "jobs" "extraction_result", addColumn "jobs" "last_error_kind"]),
    (7, [
      dropIndex "jobs_one_active_document_idx",
      createIndex "jobs_one_active_document_revision_idx" "jobs" ["document_id", "revision", "status"]]),
    (8, [
      createTable "organization_settings" ["org_id", "chunk_size", "should_llm_filter", "filter_prompt", "include_items",
        "exclude_items", "profile_buckets", "created_at", "updated_at"],
      createTable "file_blobs" ["id", "org_id", "sha256", "content_type", "filename", "byte_length", "bytes", "created_at"],
      createTable "content_sources" ["document_id", "kind", "source_url", "file_blob_id", "content_type",
        "extraction_status", "extracted_content", "extracted_metadata", "error_kind", "error_message", "created_at",
        "updated_at"],
      createTable "download_tokens" ["token_hash", "org_id", "file_blob_id", "expires_at", "consumed_at", "created_at"],
      createTable "container_tag_merge_jobs" ["id", "org_id", "source_tags", "target_tag", "status", "error_message",
        "created_at", "updated_at"],
      createTable "memory_forget_batches" ["id", "org_id", "container_tag", "query", "dry_run", "candidate_count",
        "forgotten_count", "created_at", "completed_at"],
      createIndex "file_blobs_org_created_idx" "file_blobs" ["org_id", "created_at"],
      createIndex "content_sources_extraction_idx" "content_sources" ["extraction_status", "updated_at"],
      createIndex "download_tokens_expiry_idx" "download_tokens" ["expires_at"],
      createIndex "container_tag_merge_jobs_status_idx" "container_tag_merge_jobs" ["org_id", "status", "created_at"],
      createIndex "memory_forget_batches_org_created_idx" "memory_forget_batches"
        ["org_id", "container_tag", "created_at"]]),
    (9, [
      createVirtualTable "memory_fts",
      createTrigger "memories_fts_insert" "memories",
      createTrigger "memories_fts_delete" "memories",
      createTrigger "memories_fts_update" "memories"])]

-- ---------------------------------------------------------------------------
-- Statements
-- ---------------------------------------------------------------------------

theorem Objects.columns_congr {objects others : Objects} {table : String}
    (h : objects (.relation table) = others (.relation table)) : objects.columns table = others.columns table := by
  rw [Objects.columns, Objects.columns, h]

namespace SchemaChange

variable {change : SchemaChange} {objects others : Objects} {name : SchemaName}

theorem enabled_congr (h : ∀ name ∈ change.targets ++ change.tables, objects name = others name) :
    change.enabled objects = change.enabled others := by
  cases change with
  | createTable table columns => rw [enabled, enabled, h (.relation table) (by simp [targets])]
  | addColumn table column =>
    rw [enabled, enabled, Objects.columns_congr (h (.relation table) (by simp [targets, tables]))]
  | createIndex index table indexed =>
    rw [enabled, enabled, h (.relation index) (by simp [targets]),
      Objects.columns_congr (h (.relation table) (by simp [targets, tables]))]
  | dropIndex index => rw [enabled, enabled, h (.relation index) (by simp [targets])]
  | createVirtualTable table =>
    rw [enabled, enabled, Bool.eq_iff_iff, List.all_eq_true, List.all_eq_true]
    have hnames : ∀ name ∈ virtualNames table, objects name = others name := by
      intro name hname
      exact h name (List.mem_append_left _ hname)
    constructor
    · intro hfree name hname
      rw [← hnames name hname]
      exact hfree name hname
    · intro hfree name hname
      rw [hnames name hname]
      exact hfree name hname
  | createTrigger trigger table =>
    rw [enabled, enabled, h (.trigger trigger) (by simp [targets]),
      Objects.columns_congr (h (.relation table) (by simp [targets, tables]))]

/-- What a statement that succeeds has found under a name that it creates or drops. -/
def found : SchemaChange → Option SchemaObject
  | .dropIndex _ => some .index
  | _ => none

theorem found_of_enabled (h : change.enabled objects = true) (hname : name ∈ change.targets) :
    objects name = change.found := by
  cases change with
  | createTable table columns =>
    cases List.mem_singleton.mp hname
    exact of_decide_eq_true h
  | addColumn table column => exact absurd hname List.not_mem_nil
  | createIndex index table indexed =>
    cases List.mem_singleton.mp hname
    exact (of_decide_eq_true h).1
  | dropIndex index =>
    cases List.mem_singleton.mp hname
    exact of_decide_eq_true h
  | createVirtualTable table => exact of_decide_eq_true (List.all_eq_true.mp h name hname)
  | createTrigger trigger table =>
    cases List.mem_singleton.mp hname
    exact (of_decide_eq_true h).1

/-- A statement that neither creates nor drops an object, and adds no column to it, leaves it as it is. -/
theorem update_kept (htarget : name ∉ change.targets)
    (hcolumn : ∀ table column, change = .addColumn table column → name ≠ .relation table) (object : Option SchemaObject) :
    change.update name object = object := by
  cases change with
  | createTable table columns => exact if_neg fun h => htarget (List.mem_singleton.mpr h)
  | addColumn table column => exact if_neg (hcolumn table column rfl)
  | createIndex index table indexed => exact if_neg fun h => htarget (List.mem_singleton.mpr h)
  | dropIndex index => exact if_neg fun h => htarget (List.mem_singleton.mpr h)
  | createVirtualTable table => exact if_neg htarget
  | createTrigger trigger table => exact if_neg fun h => htarget (List.mem_singleton.mpr h)

theorem update_of_not_mem (htarget : name ∉ change.targets) (htable : name ∉ change.tables)
    (object : Option SchemaObject) : change.update name object = object := by
  apply update_kept htarget
  intro table column hchange hname
  rw [hchange, hname] at htable
  exact htable (List.mem_singleton_self _)

theorem addColumn_injective (column : String) : Function.Injective (SchemaObject.addColumn column) := by
  intro a b h
  cases a <;> cases b <;> simp_all [SchemaObject.addColumn]

/-- Where a statement neither creates nor drops, it only extends. -/
theorem update_injective_of_not_mem (htarget : name ∉ change.targets) :
    Function.Injective fun object => change.update name object := by
  intro a b hab
  by_cases hcolumn : ∃ table column, change = .addColumn table column ∧ name = .relation table
  · obtain ⟨table, column, rfl, rfl⟩ := hcolumn
    simp only [update, if_true] at hab
    exact Option.map_injective (addColumn_injective column) hab
  · have hkept := update_kept htarget fun table column hchange hname => hcolumn ⟨table, column, hchange, hname⟩
    simpa only [hkept] using hab

theorem update_injective (hobjects : change.enabled objects = true) (hothers : change.enabled others = true)
    (h : change.update name (objects name) = change.update name (others name)) : objects name = others name := by
  by_cases htarget : name ∈ change.targets
  · rw [found_of_enabled hobjects htarget, found_of_enabled hothers htarget]
  · exact update_injective_of_not_mem htarget h

/-- The statements as those of a script. -/
def language : Script.Language SchemaChange SchemaName (Option SchemaObject) where
  enabled change objects := change.enabled objects
  update change name object := change.update name object
  reads change := change.targets ++ change.tables
  fixes := targets
  enabled_congr := enabled_congr
  fixes_eq hobjects hothers hname := (found_of_enabled hobjects hname).trans (found_of_enabled hothers hname).symm
  update_injective := update_injective

end SchemaChange

-- ---------------------------------------------------------------------------
-- Opening
-- ---------------------------------------------------------------------------

inductive SchemaError where
  | malformedSchema (table expected actual : String)
  | migrate
  deriving DecidableEq, Repr

/-- Compares the columns of a table, of which a missing one has none. -/
def validateColumns (objects : Objects) (table : String) (expected : List String) : Except SchemaError Unit :=
  let actual := (objects.columns table).getD []
  if actual = expected then .ok ()
  else .error (.malformedSchema table (", ".intercalate expected) (", ".intercalate actual))

/-- The tables of the current version, in the order in which they are checked. -/
def currentTables : List (String × List String) :=
  [("organizations", ["id", "slug", "created_at", "name", "metadata"]),
    ("documents", ["id", "org_id", "content", "content_hash", "custom_id", "status", "container_tags", "entity_context",
      "metadata", "task_type", "filepath", "filter_by_metadata", "dreaming", "created_at", "updated_at", "revision",
      "title", "summary", "document_type", "source", "url", "user_id"]),
    ("document_chunks", ["id", "document_id", "ordinal", "content", "stable_id"]),
    ("jobs", ["id", "document_id", "kind", "status", "attempts", "available_at", "last_error", "created_at",
      "updated_at", "revision", "extraction_result", "last_error_kind"]),
    ("chunk_embeddings", ["chunk_id", "model_id", "dimensions", "vector", "created_at"]),
    ("memories", ["id", "org_id", "container_tag", "content", "metadata", "is_inferred", "is_static", "is_latest",
      "is_forgotten", "root_memory_id", "parent_memory_id", "version", "forget_after", "forget_reason", "created_at",
      "updated_at", "source_count"]),
    ("memory_sources", ["memory_id", "document_id", "created_at"]),
    ("memory_relations", ["parent_id", "child_id", "relation", "created_at"]),
    ("memory_embeddings", ["memory_id", "model_id", "dimensions", "vector", "active", "created_at"]),
    ("spaces", ["id", "org_id", "container_tag", "entity_context", "name", "description", "metadata", "profile_buckets",
      "created_at", "updated_at"]),
    ("api_keys", ["id", "org_id", "key_hash", "name", "enabled", "expires_at", "created_at", "updated_at"]),
    ("legacy_imports", ["source_hash", "imported_at", "report"]),
    ("organization_settings", ["org_id", "chunk_size", "should_llm_filter", "filter_prompt", "include_items",
      "exclude_items", "profile_buckets", "created_at", "updated_at"]),
    ("file_blobs", ["id", "org_id", "sha256", "content_type", "filename", "byte_length", "bytes", "created_at"]),
    ("content_sources", ["document_id", "kind", "source_url", "file_blob_id", "content_type", "extraction_status",
      "extracted_content", "extracted_metadata", "error_kind", "error_message", "created_at", "updated_at"]),
    ("download_tokens", ["token_hash", "org_id", "file_blob_id", "expires_at", "consumed_at", "created_at"]),
    ("container_tag_merge_jobs", ["id", "org_id", "source_tags", "target_tag", "status", "error_message", "created_at",
      "updated_at"]),
    ("memory_forget_batches", ["id", "org_id", "container_tag", "query", "dry_run", "candidate_count",
      "forgotten_count", "created_at", "completed_at"])]

def validateTables (objects : Objects) : List (String × List String) → Except SchemaError Unit
  | [] => .ok ()
  | (table, expected) :: rest =>
    match validateColumns objects table expected with
    | .error e => .error e
    | .ok () => validateTables objects rest

def validateCurrentSchema (objects : Objects) : Except SchemaError Unit := validateTables objects currentTables

/-- The tables that an opening checks before it migrates a version. -/
def existingTables (version : Int) : List (String × List String) :=
  (if 1 ≤ version ∧ version < 5 then [("organizations", ["id", "slug", "created_at"])] else []) ++
    (if 1 ≤ version ∧ version < 3 then
      [("documents", ["id", "org_id", "content", "content_hash", "custom_id", "status", "container_tags",
        "entity_context", "metadata", "task_type", "filepath", "filter_by_metadata", "dreaming", "created_at", "updated_at"]),
      ("jobs", ["id", "document_id", "kind", "status", "attempts", "available_at", "last_error", "created_at",
        "updated_at"])] else []) ++
    if version = 2 then [("document_chunks", ["id", "document_id", "ordinal", "content"])] else []

def validateExistingVersion (objects : Objects) (version : Int) : Except SchemaError Unit :=
  validateTables objects (existingTables version)

def changes (migrations : List (Int × List SchemaChange)) : List SchemaChange := migrations.flatMap (·.2)

/-- The statements of a migration, and its row in the ledger. -/
def runMigration (c : Catalog) (migration : Int × List SchemaChange) : Except SchemaError Catalog :=
  match run SchemaChange.language migration.2 c.objects with
  | none => .error .migrate
  | some objects =>
    if migration.1 ∈ c.versions then .error .migrate else .ok ⟨objects, c.versions ++ [migration.1]⟩

/-- The migrations that an opening runs. -/
def Catalog.pending (c : Catalog) : List (Int × List SchemaChange) :=
  migrations.filter fun migration => c.currentVersion < migration.1

/-- The schema after the transaction of an opening. One that fails leaves the schema as it is. -/
def initializeSchema (c : Catalog) : Except SchemaError Catalog := do
  validateExistingVersion c.objects c.currentVersion
  let migrated ← c.pending.foldlM runMigration c
  validateCurrentSchema migrated.objects
  return migrated

-- ---------------------------------------------------------------------------
-- The schemas of the versions
-- ---------------------------------------------------------------------------

/-- The schema of a version: what the migrations up to it make of an empty database. -/
def released (version : Nat) : Objects :=
  (run SchemaChange.language (changes (migrations.take version)) Objects.empty).getD Objects.empty

theorem migrations_run :
    (run SchemaChange.language (changes migrations) Objects.empty).isSome = true := by decide +kernel

/-- The migrations after a version make the current schema of that of the version. -/
theorem released_run (version : Nat) :
    run SchemaChange.language (changes (migrations.drop version)) (released version) =
      some (released migrations.length) := by
  obtain ⟨objects, hall⟩ := Option.isSome_iff_exists.mp migrations_run
  have hlast : released migrations.length = objects := by
    rw [released, List.take_length, hall]
    rfl
  have hsplit : changes migrations = changes (migrations.take version) ++ changes (migrations.drop version) := by
    rw [changes, changes, changes, ← List.flatMap_append, List.take_append_drop]
  rw [hsplit, Script.run_append] at hall
  cases hfirst : run SchemaChange.language (changes (migrations.take version)) Objects.empty with
  | none =>
    rw [hfirst] at hall
    cases hall
  | some middle =>
    rw [hfirst] at hall
    rw [released, hfirst, hlast]
    exact hall

theorem le_currentVersion {c : Catalog} {version : Int} (h : version ∈ c.versions) : version ≤ c.currentVersion := by
  obtain ⟨last, hlast⟩ := Option.isSome_iff_exists.mp (List.isSome_max?_of_mem h)
  rw [Catalog.currentVersion, hlast]
  exact (List.max?_le_iff hlast).mp (Int.le_refl last) version h

theorem pending_eq_drop (c : Catalog) : c.pending = migrations.drop c.currentVersion.toNat := by
  have hfrom : ∀ version < 9, (migrations.filter fun migration => ((version : Nat) : Int) < migration.1) =
      migrations.drop version := by
    intro version hversion
    match version with
    | 0 | 1 | 2 | 3 | 4 | 5 | 6 | 7 | 8 => rfl
  have hpositive : ∀ migration ∈ migrations, 0 < migration.1 ∧ migration.1 ≤ 9 := by decide
  have htoNat : c.pending = migrations.filter fun migration => (c.currentVersion.toNat : Int) < migration.1 := by
    apply List.filter_congr
    intro migration hmigration
    have hversion := hpositive migration hmigration
    apply decide_eq_decide.mpr
    omega
  rw [htoNat]
  by_cases hlast : c.currentVersion.toNat < 9
  · exact hfrom _ hlast
  · rw [List.drop_eq_nil_of_le (Nat.le_of_not_lt hlast)]
    apply List.filter_eq_nil_iff.mpr
    intro migration hmigration hnewer
    have hversion := hpositive migration hmigration
    have hnewer := of_decide_eq_true hnewer
    omega

-- ---------------------------------------------------------------------------
-- Checks
-- ---------------------------------------------------------------------------

theorem columns_eq_some {objects : Objects} {table : String} {columns : List String} :
    objects.columns table = some columns ↔ objects (.relation table) = some (.table columns) := by
  rw [Objects.columns]
  cases hobject : objects (.relation table) with
  | none => simp
  | some object => cases object <;> simp

theorem validateColumns_ok (objects : Objects) (table : String) {expected : List String} (h : expected ≠ []) :
    validateColumns objects table expected = .ok () ↔ objects (.relation table) = some (.table expected) := by
  rw [← columns_eq_some, validateColumns]
  cases objects.columns table with
  | none => simp [h.symm]
  | some actual => simp

theorem validateTables_ok {objects : Objects} {tables : List (String × List String)} (h : ∀ t ∈ tables, t.2 ≠ []) :
    validateTables objects tables = .ok () ↔ ∀ t ∈ tables, objects (.relation t.1) = some (.table t.2) := by
  induction tables with
  | nil => simp [validateTables]
  | cons t rest ih =>
    have hrest := ih fun other hother => h other (List.mem_cons_of_mem t hother)
    have hfirst := validateColumns_ok objects t.1 (h t List.mem_cons_self)
    rw [List.forall_mem_cons, ← hfirst, ← hrest, validateTables]
    cases hcheck : validateColumns objects t.1 t.2 with
    | error e => simp
    | ok => simp

theorem validateTables_error {objects : Objects} {tables : List (String × List String)} {e : SchemaError}
    (hnonempty : ∀ t ∈ tables, t.2 ≠ []) (h : validateTables objects tables = .error e) :
    ∃ t ∈ tables, objects (.relation t.1) ≠ some (.table t.2) ∧ ∃ expected actual, e = .malformedSchema t.1 expected actual := by
  induction tables with
  | nil => cases h
  | cons t rest ih =>
    have hfirst := validateColumns_ok objects t.1 (hnonempty t List.mem_cons_self)
    rw [validateTables] at h
    cases hcheck : validateColumns objects t.1 t.2 with
    | error found =>
      rw [hcheck] at h
      cases h
      refine ⟨t, List.mem_cons_self, fun hobject => ?_, ?_⟩
      · rw [hfirst.mpr hobject] at hcheck
        cases hcheck
      · rw [validateColumns] at hcheck
        split at hcheck
        · cases hcheck
        · cases hcheck
          exact ⟨_, _, rfl⟩
    | ok =>
      rw [hcheck] at h
      obtain ⟨other, hother, hfound⟩ := ih (fun other hother => hnonempty other (List.mem_cons_of_mem t hother)) h
      exact ⟨other, List.mem_cons_of_mem t hother, hfound⟩

/-- The checked tables in the schema of a version. -/
theorem currentTables_released :
    ∀ t ∈ currentTables, t.2 ≠ [] ∧ released migrations.length (.relation t.1) = some (.table t.2) := by
  decide +kernel

theorem existingTables_released (version : Int) : ∀ t ∈ existingTables version,
    t.2 ≠ [] ∧ t.1 ∈ currentTables.map (·.1) ∧ released version.toNat (.relation t.1) = some (.table t.2) := by
  have hearly : ∀ version < 5, ∀ t ∈ existingTables (version : Nat),
      t.2 ≠ [] ∧ t.1 ∈ currentTables.map (·.1) ∧ released version (.relation t.1) = some (.table t.2) := by
    decide +kernel
  by_cases hversion : 1 ≤ version ∧ version < 5
  · obtain ⟨n, rfl⟩ := Int.eq_ofNat_of_zero_le (Int.le_of_lt hversion.1)
    exact hearly n (by omega)
  · have hnone : existingTables version = [] := by
      rw [existingTables, if_neg hversion, if_neg (by omega), if_neg (by omega)]
      rfl
    rw [hnone]
    exact fun t ht => absurd ht List.not_mem_nil

/-- The tables that the statements are about are checked. -/
theorem tables_checked : ∀ change ∈ changes migrations, ∀ name ∈ change.tables,
    name ∈ currentTables.map fun t => .relation t.1 := by
  decide +kernel

-- ---------------------------------------------------------------------------
-- Which databases are accepted
-- ---------------------------------------------------------------------------

/-- The names that an opening checks, creates or drops. -/
def Catalog.Subject (c : Catalog) (name : SchemaName) : Prop :=
  (name ∈ currentTables.map fun t => .relation t.1) ∨ ∃ change ∈ changes c.pending, name ∈ change.targets

/-- Under these names a database has what its version has, whatever else it holds. -/
def Catalog.AsReleased (c : Catalog) : Prop :=
  ∀ name, c.Subject name → c.objects name = released c.currentVersion.toNat name

variable {c c' : Catalog} {list : List (Int × List SchemaChange)}

theorem runMigration_ok {migration : Int × List SchemaChange} : runMigration c migration = .ok c' ↔
    ∃ objects, run SchemaChange.language migration.2 c.objects = some objects ∧ migration.1 ∉ c.versions ∧
      c' = ⟨objects, c.versions ++ [migration.1]⟩ := by
  rw [runMigration]
  cases run SchemaChange.language migration.2 c.objects with
  | none => simp
  | some objects =>
    by_cases hversion : migration.1 ∈ c.versions
    · simp [hversion]
    · simp [hversion, eq_comm]

theorem run_of_migrations (h : list.foldlM runMigration c = .ok c') :
    run SchemaChange.language (changes list) c.objects = some c'.objects ∧ c'.versions = c.versions ++ list.map (·.1) := by
  induction list generalizing c with
  | nil =>
    cases Loop.foldlM_nil_ok.mp h
    exact ⟨rfl, (List.append_nil _).symm⟩
  | cons migration rest ih =>
    obtain ⟨t, hfirst, hrest⟩ := Loop.foldlM_cons_ok.mp h
    obtain ⟨objects, hrun, -, rfl⟩ := runMigration_ok.mp hfirst
    obtain ⟨hobjects, hversions⟩ := ih hrest
    constructor
    · rw [changes, List.flatMap_cons, Script.run_append, hrun]
      exact hobjects
    · rw [hversions, List.map_cons, List.append_assoc, List.singleton_append]

theorem migrations_of_run {objects : Objects} (hrun : run SchemaChange.language (changes list) c.objects = some objects)
    (hversions : (list.map (·.1)).Nodup) (hfresh : ∀ migration ∈ list, migration.1 ∉ c.versions) :
    list.foldlM runMigration c = .ok ⟨objects, c.versions ++ list.map (·.1)⟩ := by
  induction list generalizing c with
  | nil =>
    cases hrun
    rw [List.map_nil, List.append_nil]
    rfl
  | cons migration rest ih =>
    rw [List.map_cons, List.nodup_cons] at hversions
    rw [changes, List.flatMap_cons, Script.run_append] at hrun
    cases hfirst : run SchemaChange.language migration.2 c.objects with
    | none =>
      rw [hfirst] at hrun
      cases hrun
    | some middle =>
      rw [hfirst] at hrun
      have hmigration : runMigration c migration = .ok ⟨middle, c.versions ++ [migration.1]⟩ :=
        runMigration_ok.mpr ⟨middle, hfirst, hfresh migration List.mem_cons_self, rfl⟩
      have hrest := ih (c := ⟨middle, c.versions ++ [migration.1]⟩) hrun hversions.2 (by
        intro other hother hmem
        rcases List.mem_append.mp hmem with hmem | hmem
        · exact hfresh other (List.mem_cons_of_mem migration hother) hmem
        · exact hversions.1 (List.mem_singleton.mp hmem ▸ List.mem_map_of_mem hother))
      rw [Loop.foldlM_cons_ok]
      refine ⟨_, hmigration, ?_⟩
      rw [hrest, List.map_cons, List.append_assoc, List.singleton_append]

theorem pending_fresh : (c.pending.map (·.1)).Nodup ∧ ∀ migration ∈ c.pending, migration.1 ∉ c.versions := by
  constructor
  · have hall : (migrations.map (·.1)).Nodup := by decide
    exact hall.sublist (List.Sublist.map _ (List.filter_sublist))
  · intro migration hmigration hmem
    have hnewer := of_decide_eq_true (List.mem_filter.mp hmigration).2
    exact absurd (le_currentVersion hmem) (Int.not_le.mpr hnewer)

theorem initializeSchema_ok : initializeSchema c = .ok c' ↔
    validateExistingVersion c.objects c.currentVersion = .ok () ∧ c.pending.foldlM runMigration c = .ok c' ∧
      validateCurrentSchema c'.objects = .ok () := by
  simp only [initializeSchema, Loop.bind_ok]
  constructor
  · rintro ⟨⟨⟩, hbefore, migrated, hmigrated, ⟨⟩, hafter, hresult⟩
    cases hresult
    exact ⟨hbefore, hmigrated, hafter⟩
  · rintro ⟨hbefore, hmigrated, hafter⟩
    exact ⟨(), hbefore, c', hmigrated, (), hafter, rfl⟩

theorem validateCurrentSchema_ok {objects : Objects} : validateCurrentSchema objects = .ok () ↔
    ∀ name ∈ currentTables.map fun t => SchemaName.relation t.1, objects name = released migrations.length name := by
  rw [validateCurrentSchema, validateTables_ok fun t ht => (currentTables_released t ht).1, List.forall_mem_map]
  constructor
  · intro h t ht
    rw [h t ht, (currentTables_released t ht).2]
  · intro h t ht
    rw [h t ht, (currentTables_released t ht).2]

theorem pending_released_run (c : Catalog) :
    run SchemaChange.language (changes c.pending) (released c.currentVersion.toNat) =
      some (released migrations.length) := by
  rw [pending_eq_drop]
  exact released_run _

theorem subject_of_table {change : SchemaChange} (hchange : change ∈ changes c.pending) {name : SchemaName}
    (hname : name ∈ change.tables) : c.Subject name := by
  obtain ⟨migration, hmigration, hmem⟩ := List.mem_flatMap.mp hchange
  have hall : change ∈ changes migrations := List.mem_flatMap.mpr ⟨migration, (List.mem_filter.mp hmigration).1, hmem⟩
  exact .inl (tables_checked change hall name hname)

/-- What an opening accepts was as its version has it, and becomes current. -/
theorem upgraded_of_ok (h : initializeSchema c = .ok c') :
    c.AsReleased ∧ ∀ name, c.Subject name → c'.objects name = released migrations.length name := by
  obtain ⟨-, hmigrated, hafter⟩ := initializeSchema_ok.mp h
  have hrun := (run_of_migrations hmigrated).1
  have hreleased := pending_released_run c
  have hbefore : c.AsReleased := by
    intro name hsubject
    apply Script.run_injective hrun hreleased
    rcases hsubject with hchecked | htarget
    · exact .inl (validateCurrentSchema_ok.mp hafter name hchecked)
    · exact .inr htarget
  refine ⟨hbefore, fun name hsubject => ?_⟩
  exact Script.run_agrees hrun hreleased (hbefore name hsubject)

theorem ok_of_asReleased (h : c.AsReleased) : ∃ c', initializeSchema c = .ok c' := by
  have hreleased := pending_released_run c
  have hreads : ∀ change ∈ changes c.pending, ∀ name ∈ SchemaChange.language.reads change, c.Subject name := by
    intro change hchange name hname
    rcases List.mem_append.mp hname with htarget | htable
    · exact .inr ⟨change, hchange, htarget⟩
    · exact subject_of_table hchange htable
  obtain ⟨objects, hrun⟩ := Script.run_congr hreleased hreads h
  have hmigrated := migrations_of_run hrun pending_fresh.1 pending_fresh.2
  refine ⟨_, initializeSchema_ok.mpr ⟨?_, hmigrated, ?_⟩⟩
  · rw [validateExistingVersion, validateTables_ok fun t ht => (existingTables_released _ t ht).1]
    intro t ht
    obtain ⟨-, hcurrent, hversion⟩ := existingTables_released c.currentVersion t ht
    rw [← hversion]
    obtain ⟨checked, hchecked, hname⟩ := List.mem_map.mp hcurrent
    exact h _ (.inl (List.mem_map.mpr ⟨checked, hchecked, congrArg SchemaName.relation hname⟩))
  · rw [validateCurrentSchema_ok]
    intro name hname
    exact Script.run_agrees hrun hreleased (h name (.inl hname))

/-- The other names keep what they have. -/
theorem other_objects_kept (h : initializeSchema c = .ok c') {name : SchemaName} (hname : ¬ c.Subject name) :
    c'.objects name = c.objects name := by
  obtain ⟨-, hmigrated, -⟩ := initializeSchema_ok.mp h
  apply Script.run_frame (run_of_migrations hmigrated).1
  intro change hchange object
  apply SchemaChange.update_of_not_mem
  · exact fun htarget => hname (.inr ⟨change, hchange, htarget⟩)
  · exact fun htable => hname (subject_of_table hchange htable)

theorem currentVersion_of_migrations (h : c.pending.foldlM runMigration c = .ok c') : 9 ≤ c'.currentVersion := by
  have hversions := (run_of_migrations h).2
  by_cases hlast : c.currentVersion < 9
  · apply le_currentVersion
    rw [hversions]
    have hnewest : ∃ migration ∈ migrations, migration.1 = 9 := by decide
    obtain ⟨migration, hmigration, hversion⟩ := hnewest
    have hpending : migration ∈ c.pending := List.mem_filter.mpr ⟨hmigration, decide_eq_true (hversion ▸ hlast)⟩
    exact List.mem_append_right _ (List.mem_map.mpr ⟨migration, hpending, hversion⟩)
  · have hnone : c.pending = [] := by
      rw [pending_eq_drop]
      exact List.drop_eq_nil_of_le (show 9 ≤ c.currentVersion.toNat by omega)
    rw [hnone, List.map_nil, List.append_nil] at hversions
    rw [Catalog.currentVersion, hversions]
    exact Int.not_lt.mp hlast

/-- Another opening of a database that is current finds nothing to do. -/
theorem opened_again (h : initializeSchema c = .ok c') : initializeSchema c' = .ok c' := by
  obtain ⟨-, hmigrated, hafter⟩ := initializeSchema_ok.mp h
  have hversion := currentVersion_of_migrations hmigrated
  have hnone : c'.pending = [] := by
    rw [pending_eq_drop]
    exact List.drop_eq_nil_of_le (show 9 ≤ c'.currentVersion.toNat by omega)
  apply initializeSchema_ok.mpr
  refine ⟨?_, ?_, hafter⟩
  · rw [validateExistingVersion, existingTables, if_neg (by omega), if_neg (by omega), if_neg (by omega)]
    rfl
  · rw [hnone]
    rfl

/-- The table that an error names is not as the version of the database has it. -/
theorem malformedSchema_named {table expected actual : String}
    (h : initializeSchema c = .error (.malformedSchema table expected actual)) :
    c.objects (.relation table) ≠ released c.currentVersion.toNat (.relation table) := by
  simp only [initializeSchema, Loop.bind_error] at h
  rcases h with hbefore | ⟨⟨⟩, -, hmigrate | ⟨c', hmigrated, hafter | ⟨⟨⟩, -, hreturn⟩⟩⟩
  · obtain ⟨t, ht, hdiffers, expected, actual, hnamed⟩ :=
      validateTables_error (fun t ht => (existingTables_released _ t ht).1) hbefore
    cases hnamed
    rw [(existingTables_released _ t ht).2.2]
    exact hdiffers
  · obtain ⟨migration, t, hmigration⟩ := Loop.foldlM_error hmigrate
    rw [runMigration] at hmigration
    split at hmigration
    · cases hmigration
    · split at hmigration <;> cases hmigration
  · obtain ⟨t, ht, hdiffers, expected, actual, hnamed⟩ :=
      validateTables_error (fun t ht => (currentTables_released t ht).1) hafter
    cases hnamed
    intro hbefore
    apply hdiffers
    rw [Script.run_agrees (run_of_migrations hmigrated).1 (pending_released_run c) hbefore]
    exact (currentTables_released t ht).2
  · cases hreturn

end Storage
