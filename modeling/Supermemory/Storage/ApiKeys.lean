-- SUMMARY: The keys that an import brings: which of them authenticate, and that nothing changes or removes one.
import Supermemory.Storage.LocalIdentity

/-!
# API keys

The hash of a key authenticates while the key is enabled and has not expired. Keys
are written by an import only, and it ignores a key whose identifier is stored already.
-/

namespace Storage

variable {env : Env} {importer : Importer} {now : Time}

/-- `expires_at IS NULL OR datetime(expires_at) > CURRENT_TIMESTAMP`. -/
def ApiKey.Unexpired (env : Env) (now : Time) (key : ApiKey) : Prop := ∀ value ∈ key.expiresAt, isFuture env now value

instance (env : Env) (now : Time) : DecidablePred (ApiKey.Unexpired env now) := fun key =>
  match h : key.expiresAt with
  | none => isTrue (by simp [ApiKey.Unexpired, h])
  | some value => decidable_of_iff (isFuture env now value) (by simp [ApiKey.Unexpired, h])

/-- `enabled=1`, and the key has not expired. -/
def ApiKey.Active (env : Env) (now : Time) (key : ApiKey) : Prop := key.enabled = true ∧ key.Unexpired env now

instance (env : Env) (now : Time) : DecidablePred (ApiKey.Active env now) := fun _ => inferInstanceAs (Decidable (_ ∧ _))

/-- The hash of a key, with the organization of the key. -/
abbrev ApiKeyIdentity := List (BitVec 8) × Option String

/-- The keys that `api_key_identities` selects. -/
def activeKeys (env : Env) (now : Time) (db : LegacyDatabase) : List ApiKey :=
  db.apiKeys.rows.filter fun key => key.Active env now

/-- Returns active imported API-key hashes with organization identity. -/
def apiKeyIdentities (env : Env) (now : Time) (db : LegacyDatabase) : Except StorageError (List ApiKeyIdentity) :=
  (activeKeys env now db).mapM fun key =>
    if key.keyHash.length = 32 then .ok (key.keyHash, key.orgId) else .error .read

theorem mem_activeKeys {db : LegacyDatabase} {key : ApiKey} :
    key ∈ activeKeys env now db ↔ key ∈ db.apiKeys ∧ key.Active env now := by
  unfold activeKeys
  rw [List.mem_filter, decide_eq_true_iff]
  exact Iff.rfl

/-- The identities are those of the active keys, in their order. -/
theorem apiKeyIdentities_ok {db : LegacyDatabase} {identities : List ApiKeyIdentity}
    (h : apiKeyIdentities env now db = .ok identities) :
    identities = (activeKeys env now db).map fun key => (key.keyHash, key.orgId) := by
  unfold apiKeyIdentities at h
  generalize activeKeys env now db = keys at h
  induction keys generalizing identities with
  | nil =>
    cases h
    rfl
  | cons key rest ih =>
    rw [List.mapM_cons] at h
    obtain ⟨identity, hfirst, h⟩ := Loop.bind_ok.mp h
    obtain ⟨others, hrest, h⟩ := Loop.bind_ok.mp h
    cases h
    rw [ih hrest]
    split at hfirst
    · cases hfirst
      rfl
    · cases hfirst

-- ---------------------------------------------------------------------------
-- Keys are kept
-- ---------------------------------------------------------------------------

/-- Every key is kept. -/
def KeepsKeys (db db' : LegacyDatabase) : Prop := ∀ key ∈ db.apiKeys, key ∈ db'.apiKeys

theorem KeepsKeys.refl (db : LegacyDatabase) : KeepsKeys db db := fun _ => id

theorem KeepsKeys.trans (db db' db'' : LegacyDatabase) (h : KeepsKeys db db') (h' : KeepsKeys db' db'') :
    KeepsKeys db db'' := fun key hkey => h' key (h key hkey)

theorem KeepsKeys.of_eq {db db' : LegacyDatabase} (h : db'.apiKeys = db.apiKeys) : KeepsKeys db db' :=
  fun _ hkey => h.symm ▸ hkey

theorem importApiKey_keeps {tables : LegacyTables} {s s' : Import} {row : Object}
    (h : importApiKey importer tables s row = .ok s') : KeepsKeys s.db s'.db := by
  unfold importApiKey at h
  split at h
  · cases h
    exact .refl s.db
  · simp only [Loop.bind_ok] at h
    obtain ⟨_, _, _, _, inserted, hinsert, h⟩ := h
    split at h
    · cases h
      exact .refl s.db
    · cases h
      obtain ⟨_, htable, rfl⟩ := insertApiKey_some hinsert
      exact fun key hkey => (Table.mem_insert htable).mpr (.inl hkey)

theorem importLegacyTables_keeps {localOrgId : String} {tables : LegacyTables} {report : LegacyImportReport}
    {db db' : LegacyDatabase} (h : importLegacyTables env importer now localOrgId tables db = .ok (report, db')) :
    KeepsKeys db db' := by
  obtain ⟨s₁, s₂, s₃, s₄, s₅, s₆, s₇, s₈, horganizations, hspaces, hdocuments, hchunks, hmemories, hrelations, hsources,
    hkeys, _, rfl, _⟩ := importLegacyTables_ok h
  obtain ⟨memories, hparents⟩ := setParents_db s₅.pendingParents s₅.db
  rw [hparents] at hrelations
  generalize hlinked : ({ s₅ with db := { s₅.db with memories } } : Import) = t at hrelations
  have ht : t.db.apiKeys = s₅.db.apiKeys := by rw [← hlinked]
  -- only the last loop writes keys
  have h₁ : s₁.db.apiKeys = db.apiKeys :=
    loop_keeps (·.apiKeys) (fun _ _ _ h => by obtain ⟨_, hdb⟩ := importOrganization_db h; rw [hdb]) horganizations
  have h₂ : s₂.db.apiKeys = s₁.db.apiKeys :=
    loop_keeps (·.apiKeys) (fun _ _ _ h => by obtain ⟨_, hdb⟩ := importSpace_db h; rw [hdb]) hspaces
  have h₃ : s₃.db.apiKeys = s₂.db.apiKeys :=
    loop_keeps (·.apiKeys) (fun _ _ _ h => by obtain ⟨_, hdb⟩ := importDocument_db h; rw [hdb]) hdocuments
  have h₄ : s₄.db.apiKeys = s₃.db.apiKeys :=
    loop_keeps (·.apiKeys) (fun _ _ _ h => by obtain ⟨_, _, hdb⟩ := importChunk_db h; rw [hdb]) hchunks
  have h₅ : s₅.db.apiKeys = s₄.db.apiKeys :=
    loop_keeps (·.apiKeys) (fun _ _ _ h => by obtain ⟨_, _, hdb⟩ := importMemory_db h; rw [hdb]) hmemories
  have h₆ : s₆.db.apiKeys = t.db.apiKeys :=
    loop_keeps (·.apiKeys) (fun _ _ _ h => by obtain ⟨_, hdb⟩ := importRelation_db h; rw [hdb]) hrelations
  have h₇ : s₇.db.apiKeys = s₆.db.apiKeys :=
    loop_keeps (·.apiKeys) (fun _ _ _ h => by obtain ⟨_, hdb⟩ := importSource_db h; rw [hdb]) hsources
  have h₈ : KeepsKeys s₇.db s₈.db := loop_relates .refl .trans (fun _ _ _ => importApiKey_keeps) hkeys
  have hkept : s₇.db.apiKeys = db.apiKeys :=
    h₇.trans (h₆.trans (ht.trans (h₅.trans (h₄.trans (h₃.trans (h₂.trans h₁))))))
  exact .trans _ _ _ (.of_eq hkept) h₈

/-- No call and no import takes a key away, or changes which organization is the local one. -/
theorem openings_keep {s s' : Opened} {event : Time × OpenedEvent} (hstep : (openings env importer).step s event = some s') :
    s'.localOrgId = s.localOrgId ∧ KeepsKeys s.db s'.db := by
  obtain ⟨now, call | ⟨localOrgId, lines⟩⟩ := event
  · cases hstep
    exact ⟨rfl, .of_eq rfl⟩
  · simp only [openings] at hstep
    split at hstep
    · cases hstep
    · rename_i report db himport
      cases hstep
      simp only [importLegacyExport, Loop.bind_ok] at himport
      obtain ⟨⟨tables, complete⟩, _, himport⟩ := himport
      split at himport
      · exact ⟨rfl, importLegacyTables_keeps himport⟩
      · cases himport

end Storage
