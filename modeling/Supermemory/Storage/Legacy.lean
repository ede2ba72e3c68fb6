-- SUMMARY: The import of a legacy export: reading its lines, and the transaction that takes over its rows.
import Supermemory.Library.Loop
import Supermemory.Storage.DocumentJobs

/-!
# The legacy import

An export is a file of JSON lines, and each row in it names its table. The import goes
through the tables in the order of their foreign keys, in one transaction. A row that is
stored already is ignored. A row that names a missing organization, document or memory
fails the whole import.
-/

namespace Storage

-- ---------------------------------------------------------------------------
-- Fields
-- ---------------------------------------------------------------------------

/-- What the import takes from outside: the parser of JSON texts, the conversion of numbers, and the
    hash of keys. -/
structure Importer where
  fromStr : String → Option Value
  /-- The `f32` next to a number. -/
  toF32 : String → Option F32
  digest : String → List (BitVec 8)

/-- A storage error, or one of those that only the import returns. -/
inductive ImportError where
  | storage (error : StorageError)
  | readLegacyExport
  | malformedLegacyExport (line : Nat)
  | invalidLegacyRow (line : Nat)
  | incompleteLegacyExport
  | missingLegacyField (name : String)
  | invalidLegacyField (name : String)
  | deserializeSearchData
  deriving DecidableEq, Repr

/-- `Value::get`. -/
def valueGet : Value → String → Option Value
  | .object fields, key => Object.get fields key
  | _, _ => none

/-- `i64::from_str`. -/
def parseI64 (text : String) : Option Int :=
  let (sign, digits) : Int × List Char :=
    match text.toList with
    | '-' :: digits => (-1, digits)
    | '+' :: digits => (1, digits)
    | digits => (1, digits)
  let value := sign * (digits.foldl (fun value c => 10 * value + (c.toNat - '0'.toNat)) 0 : Nat)
  if digits ≠ [] ∧ digits.all Char.isDigit ∧ -2 ^ 63 ≤ value ∧ value < 2 ^ 63 then some value else none

/-- `Value::as_i64`. -/
def asI64 : Value → Option Int
  | .number text => parseI64 text
  | _ => none

def valueField (row : Object) (key : String) : Option Value :=
  (Object.get row key).filter fun value => value ≠ .null

def optionalField (row : Object) (key : String) : Option String := (valueField row key).bind Value.asStr

def field (row : Object) (key : String) : Except ImportError String :=
  match optionalField row key with
  | none => .error (.missingLegacyField key)
  | some text => .ok text

def integerField (row : Object) (key : String) : Except ImportError Int :=
  let parsed := (valueField row key).bind fun value =>
    (asI64 value).or (((valueGet value "$bigint").bind Value.asStr).bind parseI64)
  match parsed with
  | none => .error (.missingLegacyField key)
  | some value => .ok value

def boolField (row : Object) (key : String) : Bool :=
  match valueField row key with
  | some (.bool value) => value
  | _ => false

def objectField (importer : Importer) (row : Object) (key : String) : Except ImportError Object :=
  match valueField row key with
  | none => .ok []
  | some (.object fields) => .ok fields
  | some (.string text) =>
    match importer.fromStr text with
    | some (.object fields) => .ok fields
    | _ => .error .deserializeSearchData
  | some _ => .error (.invalidLegacyField key)

/-- A field that is kept as JSON. -/
def jsonField (row : Object) (key : String) (default : Value) : Value := (valueField row key).getD default

def copyOptionalMetadata (row : Object) (key : String) (metadata : Object) : Object :=
  match valueField row key with
  | none => metadata
  | some value => Object.insert metadata key value

/-- The numbers of a vector, in any of the three ways they are written. -/
def vectorItems (importer : Importer) (key : String) : Value → Except ImportError (List Value)
  | .array items => .ok items
  | .string text =>
    match importer.fromStr text with
    | some (.array items) => .ok items
    | _ => .error .deserializeSearchData
  | value =>
    match valueGet value "$vector" with
    | some (.array items) => .ok items
    | _ => .error (.invalidLegacyField key)

def vectorField (importer : Importer) (row : Object) (key : String) :
    Except ImportError (Option (List F32)) :=
  match valueField row key with
  | none => .ok none
  | some value => do
    let items ← vectorItems importer key value
    let vector ← items.mapM fun
      | .number text =>
        match (importer.toF32 text).filter (isFinite ·) with
        | some value => .ok value
        | none => .error (.invalidLegacyField key)
      | _ => .error (.invalidLegacyField key)
    return some vector

def compatibleDocumentStatus : Option String → DocumentState
  | some "unknown" => .unknown
  | some "queued" => .queued
  | some "extracting" => .extracting
  | some "chunking" => .chunking
  | some "embedding" => .embedding
  | some "indexing" => .indexing
  | some "failed" => .failed
  | _ => .done

def compatibleRelation : String → String
  | "updates" => "updates"
  | "derives" => "derives"
  | _ => "extends"

-- ---------------------------------------------------------------------------
-- Reading an export
-- ---------------------------------------------------------------------------

/-- The rows of an export, in order, each with the name of its table. -/
abbrev LegacyTables := List (String × Object)

def tableRows (tables : LegacyTables) (table : String) : List Object :=
  (tables.filter fun row => row.1 = table).map (·.2)

/-- Reads the lines from line `number` on. A line that is no text cannot be read. -/
def readLines (importer : Importer) :
    Nat → List (Option String) → LegacyTables × Bool → Except ImportError (LegacyTables × Bool)
  | _, [], read => .ok read
  | _, none :: _, _ => .error .readLegacyExport
  | number, some line :: rest, (tables, complete) =>
    match importer.fromStr line with
    | none => .error (.malformedLegacyExport number)
    | some value =>
      match (valueGet value "type").bind Value.asStr with
      | some "row" =>
        match (valueGet value "table").bind Value.asStr, valueGet value "row" with
        | none, _ => .error (.missingLegacyField "table")
        | some table, some (.object row) =>
          readLines importer (number + 1) rest (tables ++ [(table, row)], complete)
        | some _, _ => .error (.invalidLegacyRow number)
      | some "complete" => readLines importer (number + 1) rest (tables, true)
      | some "manifest" | some "table" => readLines importer (number + 1) rest (tables, complete)
      | _ => .error (.invalidLegacyRow number)

-- ---------------------------------------------------------------------------
-- Rows
-- ---------------------------------------------------------------------------

structure Space where
  id : String
  orgId : String
  containerTag : String
  entityContext : Option String
  name : Option String
  description : Option String
  metadata : Value
  profileBuckets : Value
  createdAt : String
  updatedAt : String
  deriving DecidableEq

structure ApiKey where
  id : String
  orgId : Option String
  keyHash : List (BitVec 8)
  name : Option String
  enabled : Bool
  expiresAt : Option String
  createdAt : String
  updatedAt : Option String
  deriving DecidableEq

/-- The whole database, with the tables that only the import writes. -/
structure LegacyDatabase extends Database where
  spaces : Table Space Space.id
  apiKeys : Table ApiKey ApiKey.id
  deriving DecidableEq

/-- Counts from an idempotent import. -/
structure LegacyImportReport where
  organizations : Nat
  spaces : Nat
  documents : Nat
  chunks : Nat
  memories : Nat
  relations : Nat
  sources : Nat
  apiKeys : Nat
  deriving DecidableEq

/-- An import under way. -/
structure Import where
  db : LegacyDatabase
  report : LegacyImportReport
  /-- The containers of the spaces, the newest first. -/
  spaces : List (String × String)
  /-- Memories and their parents. -/
  pendingParents : List (String × String)
  deriving DecidableEq

namespace Database

def hasOrganization (db : Database) (id : String) : Prop := ∃ o ∈ db.organizations.rows, o.id = id

def hasMemory (db : Database) (id : String) : Prop := ∃ m ∈ db.memories.rows, m.id = id

def hasDocument (db : Database) (id : String) : Prop := ∃ d ∈ db.documents.rows, d.id = id

instance (db : Database) (id : String) : Decidable (db.hasOrganization id) :=
  inferInstanceAs (Decidable (∃ o ∈ _, _))

instance (db : Database) (id : String) : Decidable (db.hasMemory id) :=
  inferInstanceAs (Decidable (∃ m ∈ _, _))

instance (db : Database) (id : String) : Decidable (db.hasDocument id) :=
  inferInstanceAs (Decidable (∃ d ∈ _, _))

end Database

-- ---------------------------------------------------------------------------
-- Organizations
-- ---------------------------------------------------------------------------

/-- `slug || '-rs-' || substr(id, 1, 6)`. -/
def markedSlug (o : Organization) : String := o.slug ++ "-rs-" ++ String.ofList (o.id.toList.take 6)

/-- The organization has to give up its slug to an imported one: it is the local organization, and it
    has no documents. -/
def Yields (db : Database) (localOrgId id slug : String) (o : Organization) : Prop :=
  o.slug = slug ∧ o.id ≠ id ∧ o.id = localOrgId ∧ ∀ d ∈ db.documents.rows, d.orgId ≠ o.id

instance (db : Database) (localOrgId id slug : String) : DecidablePred (Yields db localOrgId id slug) :=
  fun _ => inferInstanceAs (Decidable (_ ∧ _))

/-- Marks the slug of the organization that yields. No two organizations have the same slug. -/
def renameOrganization (localOrgId id slug : String) (db : LegacyDatabase) : Except ImportError LegacyDatabase :=
  if ∃ o ∈ db.organizations.rows, Yields db.toDatabase localOrgId id slug o ∧
      ∃ p ∈ db.organizations.rows, p.id ≠ o.id ∧ p.slug = markedSlug o then .error (.storage .write)
  else
    .ok { db with
      organizations := db.organizations.update (Yields db.toDatabase localOrgId id slug)
        (fun o => { o with slug := markedSlug o }) }

/-- `INSERT OR IGNORE INTO organizations`. -/
def insertOrganization (db : LegacyDatabase) (o : Organization) : Option LegacyDatabase :=
  if ∃ p ∈ db.organizations.rows, p.slug = o.slug then none
  else (db.organizations.insert o).map fun organizations => { db with organizations }

def importOrganization (localOrgId : String) (s : Import) (row : Object) : Except ImportError Import := do
  let id ← field row "id"
  let slug ← field row "slug"
  let db ← renameOrganization localOrgId id slug s.db
  let _createdAt ← field row "created_at"
  match insertOrganization db { id, slug } with
  | none => return { s with db }
  | some db => return { s with db, report.organizations := s.report.organizations + 1 }

-- ---------------------------------------------------------------------------
-- Spaces and documents
-- ---------------------------------------------------------------------------

/-- `INSERT OR IGNORE INTO spaces`. -/
def insertSpace (db : LegacyDatabase) (space : Space) : Except ImportError (Option LegacyDatabase) :=
  if ∃ p ∈ db.spaces.rows, p.orgId = space.orgId ∧ p.containerTag = space.containerTag then .ok none
  else
    match db.spaces.insert space with
    | none => .ok none
    | some spaces =>
      if db.hasOrganization space.orgId then .ok (some { db with spaces }) else .error (.storage .write)

def importSpace (s : Import) (row : Object) : Except ImportError Import := do
  let id ← field row "id"
  let containerTag ← field row "container_tag"
  let s := { s with spaces := (id, containerTag) :: s.spaces }
  let space : Space :=
    { id
      orgId := ← field row "org_id"
      containerTag
      entityContext := optionalField row "entity_context"
      name := optionalField row "name"
      description := optionalField row "description"
      metadata := jsonField row "metadata" (.object [])
      profileBuckets := jsonField row "profile_buckets" (.array [])
      createdAt := ← field row "created_at"
      updatedAt := ← field row "updated_at" }
  match ← insertSpace s.db space with
  | none => return s
  | some db => return { s with db, report.spaces := s.report.spaces + 1 }

/-- `INSERT OR IGNORE INTO documents`. -/
def insertDocument (db : LegacyDatabase) (d : Document) : Except ImportError (Option LegacyDatabase) :=
  match db.documents.insert d with
  | none => .ok none
  | some documents =>
    if db.hasOrganization d.orgId then .ok (some { db with documents }) else .error (.storage .write)

/-- The tags of a document. The column holds any JSON, and the tags of an array are its texts. -/
def tagsOf : Value → List String
  | .array items => items.filterMap Value.asStr
  | _ => []

def importDocument (importer : Importer) (s : Import) (row : Object) : Except ImportError Import := do
  let metadata ← objectField importer row "metadata"
  let metadata := copyOptionalMetadata row "title" metadata
  let metadata := copyOptionalMetadata row "summary" metadata
  let metadata := copyOptionalMetadata row "type" metadata
  let document : Document :=
    { id := ← field row "id"
      orgId := ← field row "org_id"
      content := (optionalField row "content").getD ""
      contentHash := ← field row "content_hash"
      customId := optionalField row "custom_id"
      status := compatibleDocumentStatus (optionalField row "status")
      containerTags := tagsOf (jsonField row "container_tags" (.array [.string "sm_project_default"]))
      entityContext := none
      metadata
      taskType := if optionalField row "task_type" = some "superrag" then "superrag" else "memory"
      filepath := optionalField row "filepath"
      filterByMetadata := []
      dreaming := "dynamic"
      revision := 1 }
  let _createdAt ← field row "created_at"
  let _updatedAt ← field row "updated_at"
  match ← insertDocument s.db document with
  | none => return s
  | some db => return { s with db, report.documents := s.report.documents + 1 }

-- ---------------------------------------------------------------------------
-- Chunks
-- ---------------------------------------------------------------------------

/-- `INSERT OR IGNORE INTO document_chunks`, with the identifier of the row. -/
def insertChunkOrIgnore (db : LegacyDatabase) (documentId : String) (position : Int) (content stableId : String) :
    Except ImportError (Option (Nat × LegacyDatabase)) :=
  if position < 0 then .ok none
  else
    match insertChunk db.toDatabase documentId position.toNat content stableId with
    | .error _ => .ok none
    | .ok (id, inserted) =>
      if db.hasDocument documentId then .ok (some (id, { db with toDatabase := inserted }))
      else .error (.storage .write)

def importChunk (importer : Importer) (s : Import) (row : Object) : Except ImportError Import := do
  let documentId ← field row "document_id"
  let position ← integerField row "position"
  let content ← field row "content"
  let stableId ← field row "id"
  match ← insertChunkOrIgnore s.db documentId position content stableId with
  | none => return s
  | some (chunkId, db) =>
    let s := { s with db, report.chunks := s.report.chunks + 1 }
    match ← vectorField importer row "embedding" with
    | none => return s
    | some vector =>
      match insertChunkEmbedding db.toDatabase chunkId ((optionalField row "embedding_model").getD "legacy")
        vector.length vector with
      | .error e => .error (.storage e)
      | .ok embedded => return { s with db.toDatabase := embedded }

-- ---------------------------------------------------------------------------
-- Memories
-- ---------------------------------------------------------------------------

/-- `INSERT OR IGNORE INTO memories`. -/
def insertMemoryOrIgnore (db : LegacyDatabase) (m : Memory) : Except ImportError (Option LegacyDatabase) :=
  match db.memories.insert m with
  | none => .ok none
  | some memories =>
    if db.hasOrganization m.orgId then .ok (some { db with memories }) else .error (.storage .write)

/-- `INSERT OR IGNORE INTO memory_embeddings`. A vector has at least one dimension. -/
def insertMemoryEmbeddingOrIgnore (db : LegacyDatabase) (embedding : MemoryEmbedding) : LegacyDatabase :=
  if embedding.dimensions = 0 then db
  else { db with memoryEmbeddings := (db.memoryEmbeddings.insert embedding).getD db.memoryEmbeddings }

/-- The times of a memory are texts, and its row keeps the instants that they stand for. -/
def instantOf (env : Env) (now : Time) (text : String) : Time := (env.datetime now text).getD 0

/-- Keeps the parent of a memory for the end of the loop. -/
def rememberParent (row : Object) (id : String) (s : Import) : Import :=
  match optionalField row "parent_memory_id" with
  | none => s
  | some parent => { s with pendingParents := s.pendingParents ++ [(id, parent)] }

/-- Inserts the vector of a memory, whether the memory is a new one or not. -/
def importMemoryVector (importer : Importer) (row : Object) (id : String) (s : Import) : Except ImportError Import := do
  match ← vectorField importer row "memory_embedding" with
  | none => return s
  | some vector =>
    return { s with
      db := insertMemoryEmbeddingOrIgnore s.db
        { memoryId := id
          modelId := (optionalField row "memory_embedding_model").getD "legacy"
          dimensions := vector.length
          vector := vectorBytes vector
          active := boolField row "is_latest" && !boolField row "is_forgotten" } }

def importMemory (env : Env) (importer : Importer) (now : Time) (s : Import) (row : Object) :
    Except ImportError Import := do
  let id ← field row "id"
  let containerTag := ((optionalField row "space_id").bind fun space => s.spaces.lookup space).getD
    "sm_project_default"
  let metadata ← objectField importer row "metadata"
  let metadata := Object.insert metadata "buckets" ((valueField row "buckets").getD (.array []))
  let memory : Memory :=
    { id
      orgId := ← field row "org_id"
      containerTag
      content := ← field row "memory"
      metadata
      isInferred := boolField row "is_inference"
      isStatic := boolField row "is_static"
      isLatest := boolField row "is_latest"
      isForgotten := boolField row "is_forgotten"
      rootMemoryId := optionalField row "root_memory_id"
      parentMemoryId := none
      version := (max (← integerField row "version") 1).toNat
      forgetAfter := optionalField row "forget_after"
      forgetReason := optionalField row "forget_reason"
      createdAt := instantOf env now (← field row "created_at")
      updatedAt := instantOf env now (← field row "updated_at") }
  let _sourceCount ← integerField row "source_count"
  match ← insertMemoryOrIgnore s.db memory with
  | none => importMemoryVector importer row id (rememberParent row id s)
  | some db =>
    let s := { s with db, report.memories := s.report.memories + 1 }
    importMemoryVector importer row id (rememberParent row id s)

/-- Sets the parent of a memory, if it is stored. -/
def setParent (db : LegacyDatabase) (id parent : String) : LegacyDatabase :=
  if db.hasMemory parent then
    { db with memories := db.memories.update (fun m => m.id = id) (fun m => { m with parentMemoryId := some parent }) }
  else db

/-- `INSERT OR IGNORE INTO memory_relations`, between memories that are stored. -/
def importRelation (s : Import) (row : Object) : Except ImportError Import := do
  let relation := compatibleRelation (← field row "relation")
  let parentId ← field row "from_id"
  let childId ← field row "to_id"
  if s.db.hasMemory parentId ∧ s.db.hasMemory childId then
    match s.db.memoryRelations.insert { parentId, childId, relation } with
    | none => return s
    | some memoryRelations =>
      return { s with db.memoryRelations := memoryRelations, report.relations := s.report.relations + 1 }
  else return s

/-- `INSERT OR IGNORE INTO memory_sources`, between a memory and a document that are stored. -/
def importSource (s : Import) (row : Object) : Except ImportError Import := do
  let memoryId ← field row "memory_entry_id"
  let documentId ← field row "document_id"
  let _createdAt ← field row "added_at"
  if s.db.hasMemory memoryId ∧ s.db.hasDocument documentId then
    match s.db.memorySources.insert { memoryId, documentId } with
    | none => return s
    | some memorySources =>
      return { s with db.memorySources := memorySources, report.sources := s.report.sources + 1 }
  else return s

-- ---------------------------------------------------------------------------
-- Keys
-- ---------------------------------------------------------------------------

/-- The organization of each member, the last one that is named. -/
def memberOrganization (tables : LegacyTables) (user : String) : Option String :=
  ((tableRows tables "member").reverse.filterMap fun row =>
    (optionalField row "user_id").bind fun user =>
      (optionalField row "organization_id").map fun organization => (user, organization)).lookup user

/-- `INSERT OR IGNORE INTO api_keys`. -/
def insertApiKey (db : LegacyDatabase) (key : ApiKey) : Except ImportError (Option LegacyDatabase) :=
  match db.apiKeys.insert key with
  | none => .ok none
  | some apiKeys =>
    if ∀ organization ∈ key.orgId, db.hasOrganization organization then .ok (some { db with apiKeys })
    else .error (.storage .write)

def importApiKey (importer : Importer) (tables : LegacyTables) (s : Import) (row : Object) :
    Except ImportError Import :=
  match optionalField row "key" with
  | none => .ok s
  | some key => do
    let imported := (tableRows tables "organization").filterMap fun row => optionalField row "id"
    let organization := ((optionalField row "reference_id").bind (memberOrganization tables)).filter
      fun organization => organization ∈ imported
    let apiKey : ApiKey :=
      { id := ← field row "id"
        orgId := organization
        keyHash := importer.digest key
        name := optionalField row "name"
        enabled := boolField row "enabled"
        expiresAt := optionalField row "expires_at"
        createdAt := ← field row "created_at"
        updatedAt := optionalField row "updated_at" }
    match ← insertApiKey s.db apiKey with
    | none => return s
    | some db => return { s with db, report.apiKeys := s.report.apiKeys + 1 }

-- ---------------------------------------------------------------------------
-- The import
-- ---------------------------------------------------------------------------

/-- The transaction of the import, by a `Storage` with a given local organization. -/
def importLegacyTables (env : Env) (importer : Importer) (now : Time) (localOrgId : String)
    (tables : LegacyTables) (db : LegacyDatabase) : Except ImportError (LegacyImportReport × LegacyDatabase) := do
  let s : Import := { db, report := ⟨0, 0, 0, 0, 0, 0, 0, 0⟩, spaces := [], pendingParents := [] }
  let s ← (tableRows tables "organization").foldlM (importOrganization localOrgId) s
  let s ← (tableRows tables "space").foldlM importSpace s
  let s ← (tableRows tables "document").foldlM (importDocument importer) s
  let s ← (tableRows tables "chunk").foldlM (importChunk importer) s
  let s ← (tableRows tables "memory_entry").foldlM (importMemory env importer now) s
  let s := { s with db := s.pendingParents.foldl (fun db pending => setParent db pending.1 pending.2) s.db }
  let s ← (tableRows tables "memory_relations").foldlM importRelation s
  let s ← (tableRows tables "memory_document_source").foldlM importSource s
  let s ← (tableRows tables "apikey").foldlM (importApiKey importer tables) s
  return (s.report, s.db)

/-- Imports the lines of an export. -/
def importLegacyExport (env : Env) (importer : Importer) (now : Time) (localOrgId : String)
    (lines : List (Option String)) (db : LegacyDatabase) :
    Except ImportError (LegacyImportReport × LegacyDatabase) := do
  let (tables, complete) ← readLines importer 1 lines ([], false)
  if complete then importLegacyTables env importer now localOrgId tables db else .error .incompleteLegacyExport

end Storage
