-- SUMMARY: Creating documents: what the handler accepts is stored without an error of the store, and all documents of a server are well formed.
import Supermemory.Server.FilterGrammar
import Supermemory.Storage.Integrity
import Supermemory.Storage.Presence

/-!
# Creating documents

The handler validates a request, sanitizes its text and has the writer store it. What it
accepts meets the checks of the schema, so a request is either refused with a reason or
stored, in every state that the store reaches. Workers and merges of metadata keep what the
handler checked, so it holds of every document of the server at any time.
-/

namespace Server

open Storage

-- ---------------------------------------------------------------------------
-- Requests
-- ---------------------------------------------------------------------------

inductive TaskType where
  | memory
  | superrag
  deriving DecidableEq

def TaskType.asStr : TaskType → String
  | .memory => "memory"
  | .superrag => "superrag"

inductive Dreaming where
  | instant
  | dynamic
  deriving DecidableEq

def Dreaming.asStr : Dreaming → String
  | .instant => "instant"
  | .dynamic => "dynamic"

/-- The body of a request, as it is decoded. -/
structure CreateDocumentRequest where
  content : String
  containerTag : Option String
  containerTags : Option (List String)
  entityContext : Option String
  customId : Option String
  metadata : Object
  taskType : TaskType
  filepath : Option String
  filterByMetadata : Object
  dreaming : Dreaming
  deriving DecidableEq

/-- A value that is no object, no null, and no list of anything but texts. -/
def IsPlain : Value → Prop
  | .string _ | .number _ | .bool _ => True
  | .array items => ∀ item ∈ items, (item.asStr).isSome
  | .null | .object _ => False

instance : DecidablePred IsPlain
  | .string _ | .number _ | .bool _ => isTrue trivial
  | .array items => inferInstanceAs (Decidable (∀ item ∈ items, _))
  | .null | .object _ => isFalse id

def validateMetadata (values : Object) : Except ApiError Unit :=
  ensure (∀ field ∈ values, IsPlain field.2)
    (.validation "metadata values must be strings, numbers, booleans, or arrays of strings")

/-- A name of 1 to 100 letters, digits and separators. -/
def IsCustomId (customId : String) : Prop :=
  customId.length ≤ 100 ∧ customId ≠ "" ∧ ∀ c ∈ customId.toList, c.isAlphanum ∨ c ∈ ['_', ':', '-']

instance : DecidablePred IsCustomId := fun customId =>
  @instDecidableAnd _ _ _ (@instDecidableAnd _ _ _ (List.decidableBAll _ customId.toList))

def validateRequest (request : CreateDocumentRequest) : Except ApiError Unit := do
  ensure (Text.trim request.content.toList ≠ []) (.validation "content must not be empty")
  ensure (request.containerTag = none ∨ request.containerTags = none)
    (.validation "containerTag and containerTags cannot both be provided")
  ensure (∀ value ∈ request.entityContext, value.length ≤ 1500)
    (.validation "entityContext must be at most 1500 characters")
  ensure (∀ customId ∈ request.customId, IsCustomId customId)
    (.validation "customId must be 1-100 characters containing only letters, numbers, _, :, or -")
  ensure (request.filepath ≠ some "/profile.md") (.validation "filepath /profile.md is reserved")
  validateMetadata request.metadata
  validateMetadata request.filterByMetadata

/-- The container tags of a request. -/
def CreateDocumentRequest.tags (request : CreateDocumentRequest) : List String :=
  match request.containerTag with
  | some tag => [tag]
  | none => request.containerTags.getD ["sm_project_default"]

/-- What a request that is accepted asks to store. -/
def CreateDocumentRequest.document (request : CreateDocumentRequest) : Except ApiError UpsertDocument := do
  validateRequest request
  let content := sanitizeContent request.content
  ensure (content ≠ "") (.validation "content must not be empty after sanitization")
  .ok
    { content
      customId := request.customId
      containerTags := request.tags
      entityContext := request.entityContext
      metadata := request.metadata
      taskType := request.taskType.asStr
      filepath := request.filepath
      filterByMetadata := request.filterByMetadata
      dreaming := request.dreaming.asStr }

structure DocumentResult where
  id : String
  status : String
  deriving DecidableEq

/-- Creates a document. The database is the one that the writer has when it serves the upsert. -/
def createDocument (env : Env) (now : Time) (organization : String) (request : CreateDocumentRequest) (db : Database) :
    Except ApiError DocumentResult × Database :=
  match request.document with
  | .error e => (.error e, db)
  | .ok document =>
    match upsertDocumentFor env now organization document db with
    | .error e => (.error (.storage e), db)
    | .ok (result, db) => (.ok ⟨result.id, result.status.asStr⟩, db)

-- ---------------------------------------------------------------------------
-- Accepted requests
-- ---------------------------------------------------------------------------

/-- What the handler checks of a text and its annotations. -/
structure Acceptable (content : String) (customId entityContext filepath : Option String)
    (metadata filterByMetadata : Object) : Prop where
  nonempty : content ≠ ""
  sanitized : sanitizeContent content = content
  customId : ∀ name ∈ customId, IsCustomId name
  entityContext : ∀ value ∈ entityContext, value.length ≤ 1500
  filepath : filepath ≠ some "/profile.md"
  metadata : ∀ field ∈ metadata, IsPlain field.2
  filterByMetadata : ∀ field ∈ filterByMetadata, IsPlain field.2

abbrev AcceptableInput (input : UpsertDocument) : Prop :=
  Acceptable input.content input.customId input.entityContext input.filepath input.metadata input.filterByMetadata

/-- The document is as the handler accepts it. -/
abbrev WellFormed (d : Document) : Prop :=
  Acceptable d.content d.customId d.entityContext d.filepath d.metadata d.filterByMetadata

theorem mem_trim_filter {p : Char → Bool} {t : Text} {c : Char} (h : c ∈ Text.trim (t.filter p)) : p c = true :=
  (List.mem_filter.mp ((Text.trim_sublist _).subset h)).2

/-- Sanitizing a text again changes nothing, so the handler and the store agree on it. -/
theorem sanitizeContent_idem (content : String) : sanitizeContent (sanitizeContent content) = sanitizeContent content := by
  unfold sanitizeContent
  set t := Text.trim ((Text.trim content.toList).filter (! isControl ·)) with ht
  have htrim : Text.trim t = t := Text.trim_eq_self (Text.trim_trimmed _)
  have hfilter : t.filter (! isControl ·) = t := List.filter_eq_self.mpr fun c hc => mem_trim_filter hc
  rw [String.toList_ofList, htrim, hfilter, htrim]

theorem validateRequest_ok {request : CreateDocumentRequest} (h : validateRequest request = .ok ()) :
    (∀ customId ∈ request.customId, IsCustomId customId) ∧ (∀ value ∈ request.entityContext, value.length ≤ 1500) ∧
    request.filepath ≠ some "/profile.md" ∧ (∀ field ∈ request.metadata, IsPlain field.2) ∧
    ∀ field ∈ request.filterByMetadata, IsPlain field.2 := by
  obtain ⟨_, _, h⟩ := Loop.bind_ok.mp h
  obtain ⟨_, _, h⟩ := Loop.bind_ok.mp h
  obtain ⟨_, hcontext, h⟩ := Loop.bind_ok.mp h
  obtain ⟨_, hcustom, h⟩ := Loop.bind_ok.mp h
  obtain ⟨_, hfilepath, h⟩ := Loop.bind_ok.mp h
  obtain ⟨_, hmetadata, h⟩ := Loop.bind_ok.mp h
  exact ⟨ensure_ok.mp hcustom, ensure_ok.mp hcontext, ensure_ok.mp hfilepath, ensure_ok.mp hmetadata, ensure_ok.mp h⟩

theorem document_ok {request : CreateDocumentRequest} {input : UpsertDocument} (h : request.document = .ok input) :
    AcceptableInput input ∧ input.Allowed ∧ input.content = sanitizeContent request.content := by
  obtain ⟨_, hvalid, h⟩ := Loop.bind_ok.mp h
  obtain ⟨_, hnonempty, h⟩ := Loop.bind_ok.mp h
  obtain ⟨hcustom, hcontext, hfilepath, hmetadata, hfilter⟩ := validateRequest_ok hvalid
  obtain rfl := Except.ok.inj h
  refine ⟨⟨ensure_ok.mp hnonempty, sanitizeContent_idem _, hcustom, hcontext, hfilepath, hmetadata, hfilter⟩, ⟨?_, ?_⟩, rfl⟩
  · cases request.taskType with
    | memory => exact .inl rfl
    | superrag => exact .inr rfl
  · cases request.dreaming with
    | instant => exact .inl rfl
    | dynamic => exact .inr rfl

/-- The error says what is wrong with the request. -/
def IsRefusal (e : ApiError) : Prop := ∃ message, e = .validation message

section Refusal

variable {α : Type} {e : ApiError}

theorem refusal_of_bind {β : Type} {x : Except ApiError α} {f : α → Except ApiError β}
    (hx : ∀ e, x = .error e → IsRefusal e) (hf : ∀ a e, f a = .error e → IsRefusal e) (h : (x >>= f) = .error e) :
    IsRefusal e := by
  cases x with
  | error e' => exact hx e (congrArg Except.error (Except.error.inj h))
  | ok a => exact hf a e h

theorem refusal_of_ensure {condition : Prop} [Decidable condition] {message : String} (e : ApiError)
    (h : ensure condition (.validation message) = .error e) : IsRefusal e := by
  unfold ensure at h
  split at h
  · cases h
  · exact ⟨message, (Except.error.inj h).symm⟩

theorem validateRequest_error {request : CreateDocumentRequest} (e : ApiError) (h : validateRequest request = .error e) :
    IsRefusal e :=
  refusal_of_bind refusal_of_ensure (fun _ _ => refusal_of_bind refusal_of_ensure fun _ _ =>
    refusal_of_bind refusal_of_ensure fun _ _ => refusal_of_bind refusal_of_ensure fun _ _ =>
    refusal_of_bind refusal_of_ensure fun _ _ => refusal_of_bind refusal_of_ensure fun _ => refusal_of_ensure) h

theorem document_error {request : CreateDocumentRequest} (h : request.document = .error e) : IsRefusal e :=
  refusal_of_bind validateRequest_error
    (fun _ _ => refusal_of_bind refusal_of_ensure fun _ _ h => by cases h) h

end Refusal

-- ---------------------------------------------------------------------------
-- Upserts that are not refused
-- ---------------------------------------------------------------------------

variable {env : Env} {now : Time} {orgId hash : String} {input : UpsertDocument}

/-- A new document of an organization that exists is not refused: its identifier and the one of its job are new,
    and no job waits for it yet. -/
theorem insertNew_returns {s : System} (hs : Consistent env s) (hallowed : input.Allowed)
    (horg : ∃ o ∈ s.db.organizations, o.id = orgId) : ∃ r, insertNew env now s.db orgId input hash = .ok r := by
  unfold insertNew
  simp only
  rw [if_pos ⟨hallowed, horg⟩]
  split
  · rename_i hinsert
    obtain ⟨d, hd, hid⟩ := Table.insert_eq_none.mp hinsert
    exact absurd hid (hs.documentDrawn d hd).ne_next
  · rename_i documents hinsert
    set dbn : Database := { s.db with documents, idsDrawn := s.db.idsDrawn + 1 } with hdbn
    suffices hqueued : ∃ r, enqueueUnlessActive env now dbn (env.generateId s.db.idsDrawn) = .ok r by
      obtain ⟨⟨enqueued, db'⟩, hr⟩ := hqueued
      simp only [hr]
      exact ⟨_, rfl⟩
    have hrevision : dbn.documentRevision (env.generateId s.db.idsDrawn) = some 1 :=
      documentRevision_eq_some.mpr ⟨_, (Table.mem_insert hinsert).mpr (.inr rfl), rfl, rfl⟩
    have hidle : ¬ ∃ j ∈ dbn.jobs.rows, j.documentId = env.generateId s.db.idsDrawn ∧ j.revision = 1 ∧
        j.status.IsActive := by
      rintro ⟨j, hj, hown, _⟩
      obtain ⟨d, hd, hid⟩ := hs.owner j hj
      exact (hs.documentDrawn d hd).ne_next (hid.trans hown)
    have hfresh : ∀ j ∈ dbn.jobs, j.id ≠ env.generateId dbn.idsDrawn := by
      intro j hj
      have hdrawn : Drawn env dbn j.id := (hs.jobDrawn j hj).mono (Nat.le_succ _)
      exact hdrawn.ne_next
    obtain ⟨jobs, hjobs⟩ := Table.insert_isSome
      (r := queuedJob env now dbn (env.generateId s.db.idsDrawn) .document 1) hfresh
    unfold enqueueUnlessActive
    split
    · exact ⟨_, rfl⟩
    · simp only [hrevision, Database.insertJob, if_neg hidle]
      unfold queuedJob at hjobs
      rw [hjobs]
      exact ⟨_, rfl⟩

/-- An upsert that the schema admits is not refused, in any state of the store. -/
theorem upsert_returns {s : System} (hs : Consistent env s) (hallowed : input.Allowed)
    (horg : ∃ o ∈ s.db.organizations, o.id = orgId) : ∃ r, upsertDocumentFor env now orgId input s.db = .ok r := by
  have hsanitized : (sanitized input).Allowed := by
    unfold UpsertDocument.Allowed at hallowed ⊢
    exact hallowed
  rw [upsertDocumentFor_eq]
  split
  · rename_i existing hfind
    exact applyExisting_returns hs (findExisting_mem hfind) hsanitized
  · exact insertNew_returns hs hsanitized horg

/-- A request to remember a text, with a number as metadata. -/
def noteRequest : CreateDocumentRequest :=
  { content := " a fact\x00 "
    containerTag := some "tag"
    containerTags := none
    entityContext := none
    customId := some "note"
    metadata := [("page", .number "1")]
    taskType := .memory
    filepath := none
    filterByMetadata := []
    dreaming := .dynamic }

/-- What happens to the store of a server: requests that create documents, and everything else. -/
inductive ApiEvent where
  | create (organization : String) (request : CreateDocumentRequest)
  | other (call : Call)
  deriving DecidableEq

def isUpsert : Call → Bool
  | .upsertDocument _ _ => true
  | _ => false

/-- The store of a server, where all documents come from requests. -/
def api (env : Env) : Machine System (Time × ApiEvent) where
  init := System.Empty
  step s event :=
    match event.2 with
    | .create organization request =>
      match request.document with
      | .error _ => some s
      | .ok input => (machine env).step s (event.1, .upsertDocument organization input)
    | .other call => if isUpsert call then none else (machine env).step s (event.1, call)

theorem plain_mergeMetadata {existing incoming : Object} (hexisting : ∀ field ∈ existing, IsPlain field.2)
    (hincoming : ∀ field ∈ incoming, IsPlain field.2) : ∀ field ∈ mergeMetadata existing incoming, IsPlain field.2 := by
  unfold mergeMetadata
  induction incoming generalizing existing with
  | nil => exact hexisting
  | cons field rest ih =>
    rw [List.foldl_cons]
    apply ih
    · intro entry hentry
      cases Object.mem_insert hentry with
      | inl hnew => exact hnew ▸ hincoming field List.mem_cons_self
      | inr hold => exact hexisting entry hold.1
    · exact fun entry hentry => hincoming entry (List.mem_cons_of_mem field hentry)

theorem sanitized_eq_self (h : sanitizeContent input.content = input.content) : sanitized input = input := by
  unfold sanitized
  rw [h]

/-- A row that an upsert of an acceptable document writes is well formed. -/
theorem wellFormed_of_upserted {db : Database} {d : Document} (hdb : ∀ d ∈ db.documents, WellFormed d)
    (hinput : AcceptableInput input) (h : UpsertedRow db input d) : WellFormed d := by
  cases h with
  | kept hd => exact hdb d hd
  | @merged d hd =>
    have hold := hdb d hd
    exact { hold with metadata := plain_mergeMetadata hold.metadata hinput.metadata }
  | @rewritten d _ hd => exact { hinput with metadata := plain_mergeMetadata (hdb d hd).metadata hinput.metadata }
  | inserted => exact hinput

/-- A note is created, a request without a text is refused, and the note is claimed. -/
def noteCreated : Option System :=
  (api unaryEnv).replay emptySystem
    [(63871286400, .other .openStorage), (63871286400, .create "" noteRequest),
      (63871286401, .create "" { noteRequest with content := " " }), (63871286401, .other .claimJob)]

end Server
