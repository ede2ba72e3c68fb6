-- SUMMARY: The authentication of requests by the keys that were loaded at the start, and when it is sound at a later time.
import Supermemory.Storage.ApiKeys

/-!
# Authentication

The server loads the keys when it starts, and compares the bearer token of every request
with them. A request without a token or a cookie that comes from the same machine is taken
for one of the local organization.
-/

namespace Server

open Storage

variable {env : Env} {importer : Importer} {digest : String → List (BitVec 8)} {apiKey : Option String} {now : Time}

-- ---------------------------------------------------------------------------
-- Headers
-- ---------------------------------------------------------------------------

/-- `HeaderValue`: no control characters but the tab. -/
structure HeaderValue where
  bytes : List (BitVec 8)
  valid : ∀ b ∈ bytes, 32 ≤ b.toNat ∧ b.toNat ≠ 127 ∨ b.toNat = 9

def isVisibleAscii (b : BitVec 8) : Bool := (32 ≤ b.toNat && b.toNat < 127) || b.toNat = 9

/-- `HeaderValue::to_str`. -/
def HeaderValue.toStr (value : HeaderValue) : Option String :=
  if value.bytes.all isVisibleAscii then some (String.ofList (value.bytes.map fun b => Char.ofNat b.toNat)) else none

/-- The headers of a request, each with its name in lower case. -/
abbrev HeaderMap := List (String × HeaderValue)

/-- `HeaderMap::get`: the first value. -/
def HeaderMap.get (headers : HeaderMap) (name : String) : Option HeaderValue := headers.lookup name

def HeaderMap.containsKey (headers : HeaderMap) (name : String) : Bool := (headers.get name).isSome

/-- `str::strip_prefix`. -/
def stripPrefix (text pattern : String) : Option String := (text.toList.dropPrefix? pattern.toList).map String.ofList

/-- The bytes of a text. -/
def utf8 (text : String) : List (BitVec 8) := (text.toList.flatMap String.utf8EncodeChar).map UInt8.toBitVec

theorem utf8_injective : Function.Injective utf8 := by
  intro t u h
  have hbytes : t.toList.flatMap String.utf8EncodeChar = u.toList.flatMap String.utf8EncodeChar :=
    List.map_injective_iff.mpr (fun _ _ => UInt8.toBitVec_inj.mp) h
  have hencoded : t.toList.utf8Encode = u.toList.utf8Encode := congrArg List.toByteArray hbytes
  rw [← String.toByteArray_ofList, ← String.toByteArray_ofList, String.toByteArray_inj] at hencoded
  rwa [String.ofList_toList, String.ofList_toList] at hencoded

/-- A character below 128 is one byte. -/
theorem utf8_ascii {bytes : List (BitVec 8)} (h : ∀ b ∈ bytes, isVisibleAscii b) :
    utf8 (String.ofList (bytes.map fun b => Char.ofNat b.toNat)) = bytes := by
  unfold utf8
  rw [String.toList_ofList]
  induction bytes with
  | nil => rfl
  | cons b rest ih =>
    have hb : b.toNat < 127 := by
      have hvisible := h b List.mem_cons_self
      simp only [isVisibleAscii, Bool.or_eq_true, Bool.and_eq_true, decide_eq_true_eq] at hvisible
      omega
    have hvalid : b.toNat.isValidChar := .inl (by omega)
    have hval : (Char.ofNat b.toNat).val.toNat = b.toNat := by
      rw [Char.ofNat, dif_pos hvalid]
      rfl
    have hsize : (Char.ofNat b.toNat).utf8Size = 1 := by
      rw [Char.utf8Size_eq_one_iff, UInt32.le_iff_toNat_le, hval]
      exact Nat.le_of_lt hb
    have hbyte : (Char.ofNat b.toNat).val.toUInt8.toBitVec = b := by
      apply BitVec.eq_of_toNat_eq
      change (Char.ofNat b.toNat).val.toNat % 2 ^ 8 = b.toNat
      rw [hval, Nat.mod_eq_of_lt b.isLt]
    rw [List.map_cons, List.flatMap_cons, String.utf8EncodeChar_eq_singleton hsize, List.map_append,
      ih fun b' hb' => h b' (List.mem_cons_of_mem b hb')]
    exact congrArg (· :: rest) hbyte

theorem utf8_toStr {value : HeaderValue} {text : String} (h : value.toStr = some text) : value.bytes = utf8 text := by
  unfold HeaderValue.toStr at h
  split at h
  · rename_i hall
    cases h
    exact (utf8_ascii (List.all_eq_true.mp hall)).symm
  · cases h

theorem stripPrefix_ok {text pattern rest : String} (h : stripPrefix text pattern = some rest) : text = pattern ++ rest := by
  unfold stripPrefix at h
  obtain ⟨l, hl, rfl⟩ := Option.map_eq_some_iff.mp h
  obtain ⟨p, htext, hp⟩ := List.dropPrefix?_eq_some_iff.mp hl
  rw [← String.toList_inj, htext, eq_of_beq hp]
  simp

-- ---------------------------------------------------------------------------
-- The middleware
-- ---------------------------------------------------------------------------

inductive IpAddr where
  | v4 (address : BitVec 32)
  | v6 (address : BitVec 128)
  deriving DecidableEq

/-- `IpAddr::is_loopback`: `127.0.0.0/8`, or `::1`. -/
def IpAddr.isLoopback : IpAddr → Bool
  | .v4 address => address.toNat / 2 ^ 24 = 127
  | .v6 address => address = 1

/-- What the runtime reads from the storage when the process starts. -/
structure ServerRuntime where
  localOrgId : String
  apiKeyIdentities : List ApiKeyIdentity

/-- `ServerRuntime::with_limits`: keys that cannot be loaded are left out. -/
def ServerRuntime.withLimits (env : Env) (now : Time) (storage : Opened) : ServerRuntime where
  localOrgId := storage.localOrgId
  apiKeyIdentities := ((Storage.apiKeyIdentities env now storage.db).toOption).getD []

/-- What the router shares with the middleware. -/
structure AppState where
  apiKeys : List (List (BitVec 8) × String)
  localOrgId : String

/-- `router_with_runtime_health`: the configured key comes after the others. -/
def routerWithRuntimeHealth (digest : String → List (BitVec 8)) (apiKey : Option String) (runtime : ServerRuntime) :
    AppState where
  apiKeys :=
    runtime.apiKeyIdentities.map (fun identity => (identity.1, identity.2.getD runtime.localOrgId)) ++
      apiKey.toList.map fun key => (digest key, runtime.localOrgId)
  localOrgId := runtime.localOrgId

/-- A valid Bearer API key is required. -/
structure AuthError where
  deriving DecidableEq

/-- The bearer token of a request. -/
def suppliedKey (headers : HeaderMap) : Option String :=
  ((headers.get "authorization").bind HeaderValue.toStr).bind (stripPrefix · "Bearer ")

/-- The organization that a request is let through as. -/
def authenticate (digest : String → List (BitVec 8)) (state : AppState) (peer : IpAddr) (headers : HeaderMap) :
    Except AuthError String :=
  let supplied := suppliedKey headers
  let organization := supplied.bind fun key =>
    (state.apiKeys.find? fun expected => digest key = expected.1).map (·.2)
  let hasSessionMaterial := headers.containsKey "cookie"
  let organization := organization.or
    (if supplied.isNone && !hasSessionMaterial && peer.isLoopback then some state.localOrgId else none)
  match organization with
  | some organization => .ok organization
  | none => .error ⟨⟩

theorem suppliedKey_ok {headers : HeaderMap} {k : String} (h : suppliedKey headers = some k) :
    ∃ value, headers.get "authorization" = some value ∧ value.bytes = utf8 ("Bearer " ++ k) := by
  obtain ⟨text, hvalue, hbegins⟩ := Option.bind_eq_some_iff.mp h
  obtain ⟨value, hget, htext⟩ := Option.bind_eq_some_iff.mp hvalue
  refine ⟨value, hget, ?_⟩
  rw [utf8_toStr htext, stripPrefix_ok hbegins]

theorem bearer_injective {k k' : String} (h : utf8 ("Bearer " ++ k) = utf8 ("Bearer " ++ k')) : k = k' := by
  have htexts : ("Bearer " ++ k).toList = ("Bearer " ++ k').toList := congrArg String.toList (utf8_injective h)
  rw [String.toList_append, String.toList_append] at htexts
  exact String.toList_inj.mp (List.append_cancel_left htexts)

-- ---------------------------------------------------------------------------
-- The server
-- ---------------------------------------------------------------------------

/-- A server that runs. -/
structure Serving where
  storage : Opened
  state : AppState
  /-- The storage when the server started. -/
  origin : Opened
  started : Time

inductive ServingEvent where
  | storage (event : OpenedEvent)
  | request (peer : IpAddr) (headers : HeaderMap)

/-- A server on a storage that was opened, with the key it was configured with. -/
def servers (env : Env) (importer : Importer) (apiKey : Option String) : Machine Serving (Time × ServingEvent) where
  init s := (openings env importer).Reachable s.storage ∧ s.origin = s.storage ∧
    s.state = routerWithRuntimeHealth importer.digest apiKey (.withLimits env s.started s.storage)
  step s event :=
    match event.2 with
    | .storage change => ((openings env importer).step s.storage (event.1, change)).map fun storage => { s with storage }
    | .request _ _ => some s

/-- The keys that were loaded at the start. -/
def loadedKeys (env : Env) (s : Serving) : List ApiKey :=
  match apiKeyIdentities env s.started s.origin.db with
  | .error _ => []
  | .ok _ => activeKeys env s.started s.origin.db

/-- The first key that was loaded with the hash of a token. -/
def firstLoaded (env : Env) (digest : String → List (BitVec 8)) (s : Serving) (k : String) : Option ApiKey :=
  (loadedKeys env s).find? fun key => digest k = key.keyHash

theorem mem_loadedKeys {s : Serving} {key : ApiKey} (h : key ∈ loadedKeys env s) :
    key ∈ s.origin.db.apiKeys ∧ key.Active env s.started := by
  unfold loadedKeys at h
  split at h
  · cases h
  · exact mem_activeKeys.mp h

/-- What the server has loaded stays as it was, and so does the storage it was loaded from. -/
structure Started (env : Env) (digest : String → List (BitVec 8)) (apiKey : Option String) (s : Serving) : Prop where
  state : s.state = routerWithRuntimeHealth digest apiKey (.withLimits env s.started s.origin)
  local_eq : s.storage.localOrgId = s.origin.localOrgId
  keys : KeepsKeys s.origin.db s.storage.db

theorem started_of_init {s : Serving} (h : (servers env importer apiKey).init s) : Started env importer.digest apiKey s := by
  obtain ⟨_, horigin, hstate⟩ := h
  exact ⟨horigin ▸ hstate, by rw [horigin], horigin ▸ .refl _⟩

theorem Started.step {s s' : Serving} {event : Time × ServingEvent} (h : Started env digest apiKey s)
    (hstep : (servers env importer apiKey).step s event = some s') : Started env digest apiKey s' := by
  obtain ⟨now, change | ⟨peer, headers⟩⟩ := event
  · obtain ⟨storage, hstorage, rfl⟩ := Option.map_eq_some_iff.mp hstep
    obtain ⟨hlocal, hkeys⟩ := openings_keep hstorage
    exact ⟨h.state, hlocal.trans h.local_eq, .trans _ _ _ h.keys hkeys⟩
  · cases hstep
    exact h

/-- What holds at the start of a server holds in all its runs. -/
theorem started {s : Serving} (h : (servers env importer apiKey).Reachable s) : Started env importer.digest apiKey s :=
  h.invariant (fun _ => started_of_init) (fun _ _ _ _ h hstep => h.step hstep)

namespace Started

variable {s : Serving}

theorem localOrgId (h : Started env digest apiKey s) : s.state.localOrgId = s.storage.localOrgId := by
  rw [h.state, h.local_eq]
  rfl

theorem apiKeys (h : Started env digest apiKey s) :
    s.state.apiKeys = (loadedKeys env s).map (fun key => (key.keyHash, key.orgId.getD s.storage.localOrgId)) ++
      apiKey.toList.map fun key => (digest key, s.storage.localOrgId) := by
  rw [h.state, h.local_eq]
  unfold routerWithRuntimeHealth ServerRuntime.withLimits loadedKeys
  cases hloaded : apiKeyIdentities env s.started s.origin.db with
  | error e => rfl
  | ok identities =>
    rw [apiKeyIdentities_ok hloaded]
    simp [Except.toOption]

/-- A token is looked up among the loaded keys first, and then it is compared with the configured key. -/
theorem lookup_eq (h : Started env digest apiKey s) (k : String) :
    (s.state.apiKeys.find? fun expected => digest k = expected.1).map (·.2) =
      match firstLoaded env digest s k with
      | some key => some (key.orgId.getD s.storage.localOrgId)
      | none => if ∃ c ∈ apiKey, digest k = digest c then some s.storage.localOrgId else none := by
  rw [h.apiKeys, List.find?_append, List.find?_map]
  unfold firstLoaded
  change ((((loadedKeys env s).find? fun key => digest k = key.keyHash).map _).or _).map _ = _
  cases (loadedKeys env s).find? fun key => digest k = key.keyHash with
  | some key => rfl
  | none =>
    cases apiKey with
    | none => simp
    | some c => by_cases hhash : digest k = digest c <;> simp [hhash]

theorem authenticate_ok (h : Started env digest apiKey s) {peer : IpAddr} {headers : HeaderMap} {o : String} :
    authenticate digest s.state peer headers = .ok o ↔
      (∃ k, suppliedKey headers = some k ∧
        ((∃ key, firstLoaded env digest s k = some key ∧ o = key.orgId.getD s.storage.localOrgId) ∨
          firstLoaded env digest s k = none ∧ (∃ c ∈ apiKey, digest k = digest c) ∧ o = s.storage.localOrgId)) ∨
      suppliedKey headers = none ∧ headers.containsKey "cookie" = false ∧ peer.isLoopback = true ∧
        o = s.storage.localOrgId := by
  unfold authenticate
  simp only [h.lookup_eq, h.localOrgId]
  cases hsupplied : suppliedKey headers with
  | none => cases headers.containsKey "cookie" <;> cases peer.isLoopback <;> simp [eq_comm (a := o)]
  | some k =>
    rw [Option.bind_some]
    cases hloaded : firstLoaded env digest s k with
    | some key => simp [hloaded, eq_comm (a := o)]
    | none =>
      by_cases hconfigured : ∃ c ∈ apiKey, digest k = digest c
      · rw [if_pos hconfigured]
        simpa [hloaded, eq_comm (a := o)] using fun _ => hconfigured
      · rw [if_neg hconfigured]
        have hnone (c : String) (hc : apiKey = some c) : digest k ≠ digest c := fun hhash =>
          hconfigured ⟨c, hc, hhash⟩
        simpa [hloaded] using fun c hc hhash => absurd hhash (hnone c hc)

end Started

-- ---------------------------------------------------------------------------
-- Soundness
-- ---------------------------------------------------------------------------

/-- The key opens the organization: it is the configured key, or a stored key of the organization that is enabled
    and has not expired. -/
def Opens (env : Env) (digest : String → List (BitVec 8)) (apiKey : Option String) (s : Opened) (now : Time)
    (k o : String) : Prop :=
  o = s.localOrgId ∧ (∃ c ∈ apiKey, digest k = digest c) ∨
    ∃ key ∈ s.db.apiKeys, key.orgId.getD s.localOrgId = o ∧ key.keyHash = digest k ∧ key.Active env now

/-- The `Authorization` header is `Bearer` with the key. -/
def Bears (headers : HeaderMap) (k : String) : Prop :=
  ∃ value, headers.get "authorization" = some value ∧ value.bytes = utf8 ("Bearer " ++ k)

/-- The request bears a key that opens the organization, or it carries no credentials, comes from the same machine,
    and the organization is the local one. -/
def Entitled (env : Env) (digest : String → List (BitVec 8)) (apiKey : Option String) (s : Opened) (now : Time)
    (peer : IpAddr) (headers : HeaderMap) (o : String) : Prop :=
  (∃ k, Bears headers k ∧ Opens env digest apiKey s now k o) ∨
    headers.containsKey "authorization" = false ∧ headers.containsKey "cookie" = false ∧ peer.isLoopback = true ∧
      o = s.localOrgId

/-- The first key that was loaded with the hash of the bearer token has not expired since, or another key has the same
    hash and the same organization. -/
def KeyCurrent (env : Env) (digest : String → List (BitVec 8)) (apiKey : Option String) (s : Serving) (now : Time)
    (headers : HeaderMap) : Prop :=
  ∀ k ∈ suppliedKey headers, ∀ key ∈ firstLoaded env digest s k, key.Unexpired env now ∨
    (key.orgId.getD s.storage.localOrgId = s.storage.localOrgId ∧ ∃ c ∈ apiKey, digest k = digest c) ∨
    ∃ twin ∈ s.storage.db.apiKeys, twin.id ≠ key.id ∧ twin.keyHash = key.keyHash ∧
      twin.orgId.getD s.storage.localOrgId = key.orgId.getD s.storage.localOrgId ∧ twin.Active env now

/-- An `Authorization` header that is not read as a bearer token does not come from the same machine without a cookie,
    unless its bytes are those of a key of the local organization. -/
def CredentialsRead (env : Env) (digest : String → List (BitVec 8)) (apiKey : Option String) (s : Opened) (now : Time)
    (peer : IpAddr) (headers : HeaderMap) : Prop :=
  suppliedKey headers = none → headers.containsKey "authorization" = true → headers.containsKey "cookie" = false →
    peer.isLoopback = true → ∃ k, Bears headers k ∧ Opens env digest apiKey s now k s.localOrgId

theorem bears_supplied {headers : HeaderMap} {k k' : String} (h : suppliedKey headers = some k) (h' : Bears headers k') :
    k' = k := by
  obtain ⟨value, hget, hbytes⟩ := suppliedKey_ok h
  obtain ⟨value', hget', hbytes'⟩ := h'
  cases hget.symm.trans hget'
  exact bearer_injective (hbytes'.symm.trans hbytes)

/-- The token of a loaded key opens the organization of the key at a later time exactly when the key has not expired,
    or another key stands in for it. -/
theorem Started.opens_iff {s : Serving} (h : Started env digest apiKey s) {k : String} {key : ApiKey}
    (hfirst : firstLoaded env digest s k = some key) :
    Opens env digest apiKey s.storage now k (key.orgId.getD s.storage.localOrgId) ↔ key.Unexpired env now ∨
      (key.orgId.getD s.storage.localOrgId = s.storage.localOrgId ∧ ∃ c ∈ apiKey, digest k = digest c) ∨
      ∃ twin ∈ s.storage.db.apiKeys, twin.id ≠ key.id ∧ twin.keyHash = key.keyHash ∧
        twin.orgId.getD s.storage.localOrgId = key.orgId.getD s.storage.localOrgId ∧ twin.Active env now := by
  have hhash : digest k = key.keyHash := by simpa using List.find?_some hfirst
  obtain ⟨hstored, henabled, _⟩ := mem_loadedKeys (List.mem_of_find?_eq_some hfirst)
  have hkept : key ∈ s.storage.db.apiKeys := h.keys key hstored
  constructor
  · rintro (hconfigured | ⟨other, hother, horg, hsame, hactive⟩)
    · exact .inr (.inl hconfigured)
    · by_cases hid : other.id = key.id
      · obtain rfl := Table.eq_of_key hother hkept hid
        exact .inl hactive.2
      · exact .inr (.inr ⟨other, hother, hid, hsame.trans hhash, horg, hactive⟩)
  · rintro (hunexpired | hconfigured | ⟨twin, htwin, _, hsame, horg, hactive⟩)
    · exact .inr ⟨key, hkept, rfl, hhash.symm, henabled, hunexpired⟩
    · exact .inl hconfigured
    · exact .inr ⟨twin, htwin, horg, hsame.trans hhash.symm, hactive⟩

/-- In every run of the server, a request is let through only as an organization it is entitled to, exactly when the
    key that matches its token has not expired since the start, and no unread credentials come from the same machine. -/
theorem authentication_sound {s : Serving} (h : (servers env importer apiKey).Reachable s) (now : Time) (peer : IpAddr)
    (headers : HeaderMap) :
    (∀ o, authenticate importer.digest s.state peer headers = .ok o →
      Entitled env importer.digest apiKey s.storage now peer headers o) ↔
    KeyCurrent env importer.digest apiKey s now headers ∧
      CredentialsRead env importer.digest apiKey s.storage now peer headers := by
  have hs := started h
  constructor
  · intro hsound
    constructor
    · intro k hk key hkey
      have hthrough : authenticate importer.digest s.state peer headers = .ok (key.orgId.getD s.storage.localOrgId) :=
        hs.authenticate_ok.mpr (.inl ⟨k, hk, .inl ⟨key, hkey, rfl⟩⟩)
      rcases hsound _ hthrough with ⟨k', hbears, hopens⟩ | ⟨hnone, _⟩
      · obtain rfl := bears_supplied hk hbears
        exact (hs.opens_iff hkey).mp hopens
      · obtain ⟨value, hget, _⟩ := suppliedKey_ok hk
        simp [HeaderMap.containsKey, hget] at hnone
    · intro hnone hcarried hcookie hpeer
      have hthrough := hs.authenticate_ok.mpr (.inr ⟨hnone, hcookie, hpeer, rfl⟩)
      rcases hsound _ hthrough with hentitled | ⟨habsent, _⟩
      · exact hentitled
      · exact absurd (hcarried.symm.trans habsent) (by decide)
  · rintro ⟨hcurrent, hread⟩ o hthrough
    rcases hs.authenticate_ok.mp hthrough with ⟨k, hk, hmatch⟩ | ⟨hnone, hcookie, hpeer, rfl⟩
    · refine .inl ⟨k, suppliedKey_ok hk, ?_⟩
      rcases hmatch with ⟨key, hkey, rfl⟩ | ⟨_, hconfigured, rfl⟩
      · exact (hs.opens_iff hkey).mpr (hcurrent k hk key hkey)
      · exact .inl ⟨rfl, hconfigured⟩
    · by_cases hcarried : headers.containsKey "authorization" = true
      · exact .inl (hread hnone hcarried hcookie hpeer)
      · exact .inr ⟨eq_false_of_ne_true hcarried, hcookie, hpeer, rfl⟩

-- a key that expires while the server runs

/-- A parser of two lines: the row of a key that expires, and the end of an export. The hash is the one of the key. -/
def keyLines : Importer where
  fromStr line :=
    if line = "\x7b\"type\":\"row\",\"table\":\"apikey\",\"row\":\x7b\"id\":\"k1\",\"key\":\"abc\",\"enabled\":true,\"expires_at\":\"2024-01-01T00:00:00Z\",\"created_at\":\"2023\"\x7d\x7d" then
      some (.object [("type", .string "row"), ("table", .string "apikey"),
        ("row", .object [("id", .string "k1"), ("key", .string "abc"), ("enabled", .bool true),
          ("expires_at", .string "2024-01-01T00:00:00Z"), ("created_at", .string "2023")])])
    else if line = "\x7b\"type\":\"complete\"\x7d" then some (.object [("type", .string "complete")])
    else none
  toF32 _ := none
  digest key :=
    if key = "abc" then
      [0xba, 0x78, 0x16, 0xbf, 0x8f, 0x01, 0xcf, 0xea, 0x41, 0x41, 0x40, 0xde, 0x5d, 0xae, 0x22, 0x23,
        0xb0, 0x03, 0x61, 0xa3, 0x96, 0x17, 0x7a, 0x9c, 0xb4, 0x10, 0xff, 0x61, 0xf2, 0x00, 0x15, 0xad]
    else []

def keyLineExport : List (Option String) :=
  [some "\x7b\"type\":\"row\",\"table\":\"apikey\",\"row\":\x7b\"id\":\"k1\",\"key\":\"abc\",\"enabled\":true,\"expires_at\":\"2024-01-01T00:00:00Z\",\"created_at\":\"2023\"\x7d\x7d",
    some "\x7b\"type\":\"complete\"\x7d"]

/-- The storage that has imported the key. -/
def importedKey : Opened where
  db := { firstOpened.db with
    apiKeys := ⟨[{ id := "k1", orgId := none, keyHash := keyLines.digest "abc", name := none, enabled := true
                   expiresAt := some "2024-01-01T00:00:00Z", createdAt := "2023", updatedAt := none }], by simp⟩ }
  localOrgId := ""

/-- A server that started before the key expires, without a configured key. -/
def servingKey : Serving where
  storage := importedKey
  state := routerWithRuntimeHealth keyLines.digest none (.withLimits unaryEnv 0 importedKey)
  origin := importedKey
  started := 0

theorem servingKey_reachable : (servers unaryEnv keyLines none).Reachable servingKey := by
  have himported : (openings unaryEnv keyLines).replay firstOpened [(0, .importLegacyExport "" keyLineExport)] =
      some importedKey := by decide +kernel
  have hopened : (openings unaryEnv keyLines).Reachable firstOpened := .start firstOpened_init
  exact .start ⟨hopened.replay himported, rfl, rfl⟩

/-- A request whose only header is `Authorization: Bearer abc`. -/
def bearerHeaders : HeaderMap := [("authorization", ⟨utf8 "Bearer abc", by decide +kernel⟩)]

/-- A request whose only header is `Authorization: Basic dXNlcjpwYXNz`. -/
def basicHeaders : HeaderMap := [("authorization", ⟨utf8 "Basic dXNlcjpwYXNz", by decide +kernel⟩)]

/-- Before it expires, the key lets a request from another machine through. -/
theorem authentication_sound_unexpired :
    authenticate keyLines.digest servingKey.state (.v4 0x0a000001) bearerHeaders = .ok "" ∧
    Entitled unaryEnv keyLines.digest none importedKey 0 (.v4 0x0a000001) bearerHeaders "" := by
  have hthrough : authenticate keyLines.digest servingKey.state (.v4 0x0a000001) bearerHeaders = .ok "" := by
    decide +kernel
  refine ⟨hthrough, (authentication_sound servingKey_reachable 0 (.v4 0x0a000001) bearerHeaders).mpr ⟨?_, ?_⟩ "" hthrough⟩
  · intro k hk key hkey
    obtain rfl : "abc" = k := Option.some.inj ((by decide +kernel : suppliedKey bearerHeaders = some "abc").symm.trans hk)
    have hunexpired : ∀ key ∈ firstLoaded unaryEnv keyLines.digest servingKey "abc", key.Unexpired unaryEnv 0 := by
      decide +kernel
    exact .inl (hunexpired key hkey)
  · intro hnone
    exact absurd hnone (by decide +kernel)

/-- The key still lets a request from another machine through when it has expired, and a request with another kind of
    credentials is taken for one without credentials. -/
theorem authentication_outdated : (servers unaryEnv keyLines none).Reachable servingKey ∧
    authenticate keyLines.digest servingKey.state (.v4 0x0a000001) bearerHeaders = .ok "" ∧
    ¬ Entitled unaryEnv keyLines.digest none importedKey 63871286400 (.v4 0x0a000001) bearerHeaders "" ∧
    authenticate keyLines.digest servingKey.state (.v4 0x7f000001) basicHeaders = .ok "" ∧
    ¬ Entitled unaryEnv keyLines.digest none importedKey 0 (.v4 0x7f000001) basicHeaders "" := by
  refine ⟨servingKey_reachable, by decide +kernel, ?_, by decide +kernel, ?_⟩
  · rintro (⟨k, _, ⟨_, c, hc, _⟩ | ⟨key, hkey, _, _, hactive⟩⟩ | ⟨hnone, _⟩)
    · cases hc
    · have hexpired : ∀ key ∈ importedKey.db.apiKeys.rows, ¬ key.Active unaryEnv 63871286400 := by decide +kernel
      exact hexpired key hkey hactive
    · exact absurd hnone (by decide +kernel)
  · rintro (⟨k, ⟨value, hget, hbytes⟩, _⟩ | ⟨hnone, _⟩)
    · cases hget
      have htexts : "Basic dXNlcjpwYXNz".toList = ("Bearer " ++ k).toList := congrArg String.toList (utf8_injective hbytes)
      rw [String.toList_append] at htexts
      have hsecond := congrArg (·[1]?) htexts
      rw [List.getElem?_append_left (by decide +kernel)] at hsecond
      exact absurd hsecond (by decide +kernel)
    · exact absurd hnone (by decide +kernel)

end Server
