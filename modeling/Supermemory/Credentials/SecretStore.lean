-- SUMMARY: The encrypted store of the provider credentials: frames, machine identities, and that an import is read back.
import Supermemory.Credentials.EnvDocument

/-!
# The secret store

The credentials of the provider are kept in an encrypted file whose key is derived
from an identity of the machine. The store of an earlier version is imported by
decrypting it and encrypting its values anew. The operating system and the
cryptography are parameters.
-/

namespace Credentials

abbrev Bytes := List UInt8

abbrev Key := Vector UInt8 32

abbrev Nonce := Vector UInt8 12

abbrev Tag := Vector UInt8 16

/-- The files of the machine. -/
abbrev Files := FilePath → Option Bytes

/-- Calls of the operating system that may fail. -/
inductive Operation where
  | read (path : FilePath)
  | createDirectory (path : FilePath)
  | open (path : FilePath)
  | write (path : FilePath)
  | rename (source target : FilePath)
  deriving DecidableEq

/-- The machine, and the functions of the cryptography libraries. -/
structure Host where
  fails : Operation → Bool
  /-- Number of bytes that a failing write leaves in its file. -/
  torn : Nat
  /-- Output of `ioreg`, when it runs and succeeds. -/
  ioreg : Option Text
  /-- Output of `hostname`, when it runs and succeeds. -/
  hostname : Option Text
  os : Text
  /-- What the operating system's random generator fills a nonce with. -/
  random : Option Nonce
  sha256 : Bytes → Key
  /-- `pbkdf2_hmac` with SHA-256: password, salt and rounds. -/
  pbkdf2 : Key → Bytes → Nat → Key
  /-- `encrypt_in_place_detached` of AES-256-GCM without associated data. -/
  encrypt : Key → Nonce → Bytes → Option (Bytes × Tag)
  /-- `decrypt_in_place_detached`: nonce, ciphertext and tag. -/
  decrypt : Key → Bytes → Bytes → Bytes → Option Bytes

/-- What was encrypted is decrypted with the same key, nonce and tag. -/
def Host.Authentic (host : Host) : Prop :=
  ∀ key nonce plaintext ciphertext tag, host.encrypt key nonce plaintext = some (ciphertext, tag) →
    host.decrypt key nonce.toList ciphertext tag.toList = some plaintext

-- ---------------------------------------------------------------------------
-- Text as bytes
-- ---------------------------------------------------------------------------

/-- `str::as_bytes`. -/
def asBytes (t : Text) : Bytes := t.flatMap String.utf8EncodeChar

/-- `String::from_utf8`. -/
def fromUtf8 (bytes : Bytes) : Option Text := bytes.toByteArray.utf8Decode?.map Array.toList

theorem fromUtf8_asBytes (t : Text) : fromUtf8 (asBytes t) = some t := by
  have hencode : (asBytes t).toByteArray = t.utf8Encode := rfl
  rw [fromUtf8, hencode, List.utf8Decode?_utf8Encode]
  rfl

-- ---------------------------------------------------------------------------
-- Machine identities
-- ---------------------------------------------------------------------------

def pushUnique (values : List Text) (value : Text) : List Text :=
  if value ≠ [] ∧ value ∉ values then values ++ [value] else values

/-- `str::strip_prefix`. -/
def stripPrefix (t pattern : Text) : Option Text := t.dropPrefix? pattern

/-- `str::strip_suffix` of a character. -/
def stripSuffix (t : Text) (c : Char) : Option Text := if t.getLast? = some c then some t.dropLast else none

def platformUuid (output : Text) : Option Text :=
  (Text.lines output).findSome? fun line => do
    let value ← stripPrefix (Text.trim line) "\"IOPlatformUUID\" = \"".toList
    stripSuffix value '"'

section Machine

variable (host : Host) (files : Files) (dataDir : FilePath)

def read (path : FilePath) : Option Bytes := if host.fails (.read path) then none else files path

/-- `std::fs::read_to_string`. -/
def readToString (path : FilePath) : Option Text := (read host files path).bind fromUtf8

/-- The first of the files that holds an identity. -/
def systemIds : List FilePath → List Text → List Text
  | [], ids => ids
  | path :: rest, ids =>
    match readToString host files path with
    | some value =>
      let ids := pushUnique ids (Text.trim value)
      if ids ≠ [] then ids else systemIds rest ids
    | none => systemIds rest ids

def platformIds (ids : List Text) : List Text :=
  if ids = [] then
    match host.ioreg.bind platformUuid with
    | some uuid => pushUnique ids uuid
    | none => ids
  else ids

def machineKeyIds (ids : List Text) : List Text :=
  if ids = [] then
    match readToString host files (dataDir ++ ["machine-key"]) with
    | some value => pushUnique ids (Text.trim value)
    | none => ids
  else ids

def fallbackIds (ids : List Text) : List Text :=
  if ids = [] then
    let hostname := match host.hostname with
      | some output => Text.trim output
      | none => "unknown".toList
    pushUnique ids ("fallback:".toList ++ hostname ++ ":".toList ++ host.os)
  else ids

def systemIdPaths : List FilePath := [["/", "etc", "machine-id"], ["/", "var", "lib", "dbus", "machine-id"]]

def machineIds : List Text :=
  let ids := systemIds host files systemIdPaths []
  fallbackIds host (machineKeyIds host files dataDir (platformIds host ids))

variable {host files dataDir}

theorem systemIds_congr {files' : Files} {paths : List FilePath} (h : ∀ path ∈ paths, files' path = files path)
    (ids : List Text) : systemIds host files' paths ids = systemIds host files paths ids := by
  induction paths generalizing ids with
  | nil => rfl
  | cons path paths ih =>
    have hpath : readToString host files' path = readToString host files path := by
      rw [readToString, readToString, read, read, h path (List.mem_cons_self ..)]
    have hrest : ∀ p ∈ paths, files' p = files p := fun p hp => h p (List.mem_cons_of_mem path hp)
    simp only [systemIds, hpath, ih hrest]

/-- The identities are read from the files that hold one. -/
theorem machineIds_congr {files' : Files}
    (h : ∀ path, path.getLast? = some "machine-id" ∨ path.getLast? = some "machine-key" →
      files' path = files path) : machineIds host files' dataDir = machineIds host files dataDir := by
  have hsystem : ∀ path ∈ systemIdPaths, files' path = files path := by
    intro path hpath
    apply h
    cases hpath with
    | head => exact .inl rfl
    | tail _ hpath =>
      rw [List.mem_singleton.mp hpath]
      exact .inl rfl
  have hkey : readToString host files' (dataDir ++ ["machine-key"]) =
      readToString host files (dataDir ++ ["machine-key"]) := by
    rw [readToString, readToString, read, read, h _ (.inr List.getLast?_concat)]
  simp only [machineIds, machineKeyIds, systemIds_congr hsystem, hkey]

end Machine

-- ---------------------------------------------------------------------------
-- Frames
-- ---------------------------------------------------------------------------

def magic : Vector UInt8 4 := #v[0x53, 0x4d, 0x45, 0x31]

def context : Bytes := asBytes "supermemory-model-keys-v1".toList

def buildSecret : Key := #v[
  0x4f, 0x73, 0x8a, 0xe1, 0x1c, 0xb9, 0x44, 0x2d, 0x96, 0xc7, 0x05, 0xfb, 0x88, 0x12, 0xa4, 0x6e,
  0xd0, 0x37, 0x91, 0x5b, 0x4a, 0xfe, 0x2c, 0x70, 0xa3, 0x18, 0xc5, 0x8d, 0x6b, 0x29, 0xe4, 0x77]

def deriveKey (host : Host) (machineId : Text) (context : Bytes) : Key :=
  let machineHash := host.sha256 (asBytes machineId)
  let mixed := Vector.zipWith (· ^^^ ·) buildSecret machineHash
  host.pbkdf2 mixed context 100000

/-- A frame: the magic bytes, the nonce, the tag and the ciphertext. -/
def frame (magic : Vector UInt8 4) (nonce : Nonce) (tag : Tag) (ciphertext : Bytes) : Bytes :=
  magic.toList ++ nonce.toList ++ tag.toList ++ ciphertext

/-- `Path::file_stem` of a file name: the part in front of the last dot, when there is one. -/
def fileStem (name : String) : String :=
  let stem := ((name.toList.reverse.dropWhile (· ≠ '.')).drop 1).reverse
  if stem = [] then name else String.ofList stem

/-- `Path::with_extension`. -/
def withExtension (path : FilePath) (extension : String) : FilePath :=
  match path.getLast? with
  | some name => path.dropLast ++ [fileStem name ++ "." ++ extension]
  | none => path

section Frames

variable (host : Host) (files : Files) (path dataDir : FilePath)

/-- A key has the size the cipher asks for, so `InvalidKey` is not returned. -/
def decryptFrame (magic : Vector UInt8 4) (context : Bytes) : Except CredentialError Bytes :=
  match read host files path with
  | none => .error (.read path)
  | some frame =>
    if frame.length < 32 ∨ frame.take 4 ≠ magic.toList then .error (.malformedFrame path)
    else
      let nonce := (frame.take 16).drop 4
      let tag := (frame.take 32).drop 16
      match (machineIds host files dataDir).findSome? fun machineId =>
          host.decrypt (deriveKey host machineId context) nonce (frame.drop 32) tag with
      | some plaintext => .ok plaintext
      | none => .error (.authentication path)

def decryptFile : Except CredentialError EnvValues := do
  let plaintext ← decryptFrame host files path dataDir magic context
  match fromUtf8 plaintext with
  | none => .error .utf8
  | some plaintext => parseEnv plaintext

/-- The frame is written to a temporary file, which then takes the place of the store. -/
def encryptFile (values : EnvValues) : Except CredentialError Unit × Files :=
  match (machineIds host files dataDir).head? with
  | none => (.error .noMachineIdentity, files)
  | some machineId =>
    let key := deriveKey host machineId context
    match host.random with
    | none => (.error .random, files)
    | some nonce =>
      match host.encrypt key nonce (asBytes (serializeEnv values)) with
      | none => (.error .encrypt, files)
      | some (ciphertext, tag) =>
        let bytes := frame magic nonce tag ciphertext
        let temporary := withExtension path "enc.tmp"
        if host.fails (.open temporary) then (.error (.write temporary), files)
        else if host.fails (.write temporary) then
          (.error (.write temporary), Function.update files temporary (some (bytes.take host.torn)))
        else
          let files := Function.update files temporary (some bytes)
          if host.fails (.rename temporary path) then (.error (.write path), files)
          else (.ok (), Function.update (Function.update files temporary none) path (some bytes))

end Frames

section Frames

variable {host : Host} {files files' : Files} {path dataDir : FilePath}

/-- A frame is taken apart into what it was put together from. -/
theorem decryptFrame_frame {m : Vector UInt8 4} {context ciphertext plaintext : Bytes} {nonce : Nonce}
    {tag : Tag} {machineId : Text} (hread : read host files path = some (frame m nonce tag ciphertext))
    (hid : (machineIds host files dataDir).head? = some machineId)
    (hdecrypt : host.decrypt (deriveKey host machineId context) nonce.toList ciphertext tag.toList =
      some plaintext) :
    decryptFrame host files path dataDir m context = .ok plaintext := by
  have hm : m.toList.length = 4 := m.length_toList
  have hn : nonce.toList.length = 12 := nonce.length_toList
  have ht : tag.toList.length = 16 := tag.length_toList
  have hhead : (m.toList ++ nonce.toList).length = 16 := by rw [List.length_append, hm, hn]
  have hfront : (m.toList ++ nonce.toList ++ tag.toList).length = 32 := by
    rw [List.length_append, hhead, ht]
  have hvalid : ¬ ((frame m nonce tag ciphertext).length < 32 ∨
      (frame m nonce tag ciphertext).take 4 ≠ m.toList) := by
    rintro (hshort | hmagic)
    · rw [frame, List.length_append, hfront] at hshort
      omega
    · apply hmagic
      rw [frame, List.append_assoc, List.append_assoc, List.take_left' hm]
  have hnonce : ((frame m nonce tag ciphertext).take 16).drop 4 = nonce.toList := by
    rw [frame, List.append_assoc, List.take_left' hhead, List.drop_left' hm]
  have htag : ((frame m nonce tag ciphertext).take 32).drop 16 = tag.toList := by
    rw [frame, List.take_left' hfront, List.drop_left' hhead]
  have hbody : (frame m nonce tag ciphertext).drop 32 = ciphertext := List.drop_left' hfront
  obtain ⟨rest, hids⟩ : ∃ rest, machineIds host files dataDir = machineId :: rest :=
    List.head?_eq_some_iff.mp hid
  simp only [decryptFrame, hread, if_neg hvalid, hnonce, htag, hbody, hids, List.findSome?_cons, hdecrypt]

/-- A store that was written: the frame of the values under the first identity, and no temporary file. -/
structure Written (host : Host) (files : Files) (path dataDir : FilePath) (values : EnvValues)
    (files' : Files) : Prop where
  store : ∃ machineId nonce ciphertext tag, (machineIds host files dataDir).head? = some machineId ∧
    host.encrypt (deriveKey host machineId context) nonce (asBytes (serializeEnv values)) =
      some (ciphertext, tag) ∧ files' path = some (frame magic nonce tag ciphertext)
  others : ∀ other, other ≠ path → other ≠ withExtension path "enc.tmp" → files' other = files other

theorem encryptFile_written {values : EnvValues}
    (h : encryptFile host files path dataDir values = (.ok (), files')) :
    Written host files path dataDir values files' := by
  unfold encryptFile at h
  cases hid : (machineIds host files dataDir).head? with
  | none => simp [hid] at h
  | some machineId =>
    cases hrandom : host.random with
    | none => simp [hid, hrandom] at h
    | some nonce =>
      cases hencrypt : host.encrypt (deriveKey host machineId context) nonce (asBytes (serializeEnv values)) with
      | none => simp [hid, hrandom, hencrypt] at h
      | some sealed =>
        simp only [hid, hrandom, hencrypt] at h
        by_cases hopen : host.fails (.open (withExtension path "enc.tmp")) = true
        · simp [hopen] at h
        by_cases hwrite : host.fails (.write (withExtension path "enc.tmp")) = true
        · simp [hopen, hwrite] at h
        by_cases hrename : host.fails (.rename (withExtension path "enc.tmp") path) = true
        · simp [hopen, hwrite, hrename] at h
        rw [if_neg hopen, if_neg hwrite, if_neg hrename] at h
        obtain ⟨-, rfl⟩ := Prod.mk.inj h
        constructor
        · exact ⟨machineId, nonce, sealed.1, sealed.2, hid, hencrypt, Function.update_self ..⟩
        · intro other hpath htemporary
          rw [Function.update_of_ne hpath, Function.update_of_ne htemporary,
            Function.update_of_ne htemporary]

end Frames

/-- The store of a data directory. -/
def storePath (dataDir : FilePath) : FilePath := dataDir ++ ["env.enc"]

def loadOrImport (host : Host) (dataDir legacyDataDir : FilePath) (files : Files) :
    Except CredentialError EnvValues × Files :=
  let current := storePath dataDir
  if (files current).isSome then (decryptFile host files current dataDir, files)
  else
    let legacy := storePath legacyDataDir
    if (files legacy).isNone then (.ok ∅, files)
    else
      match decryptFile host files legacy legacyDataDir with
      | .error e => (.error e, files)
      | .ok values =>
        if host.fails (.createDirectory dataDir) then (.error (.createDirectory dataDir), files)
        else
          match encryptFile host files current dataDir values with
          | (.error e, files) => (.error e, files)
          | (.ok (), files) => (.ok values, files)

-- ---------------------------------------------------------------------------
-- An import is read back
-- ---------------------------------------------------------------------------

section Import

variable {host : Host} {files files' : Files} {dataDir legacyDataDir : FilePath} {values : EnvValues}

theorem withExtension_storePath (dataDir : FilePath) :
    withExtension (storePath dataDir) "enc.tmp" = dataDir ++ ["env.enc.tmp"] := by
  have hstem : fileStem "env.enc" = "env" := by decide
  simp only [withExtension, storePath, List.getLast?_concat, List.dropLast_concat, hstem]
  rfl

/-- Writing a store does not touch the files that hold the identities. -/
theorem Written.machineIds (h : Written host files (storePath dataDir) dataDir values files') :
    machineIds host files' dataDir = Credentials.machineIds host files dataDir := by
  apply machineIds_congr
  intro path hpath
  have hne : ∀ name, path.getLast? ≠ some name → path ≠ dataDir ++ [name] := by
    intro name hname heq
    exact hname (by rw [heq, List.getLast?_concat])
  have hname : path.getLast? ≠ some "env.enc" ∧ path.getLast? ≠ some "env.enc.tmp" := by
    rcases hpath with hpath | hpath <;> rw [hpath] <;> decide
  apply h.others path (hne _ hname.1)
  rw [withExtension_storePath]
  exact hne _ hname.2

/-- The values of a store that was written are read back. -/
theorem Written.decryptFile (hauthentic : host.Authentic)
    (h : Written host files (storePath dataDir) dataDir values files') (hstorable : Storable values)
    (hread : host.fails (.read (storePath dataDir)) = false) :
    decryptFile host files' (storePath dataDir) dataDir = .ok values := by
  obtain ⟨machineId, nonce, ciphertext, tag, hid, hencrypt, hstore⟩ := h.store
  have hframe : read host files' (storePath dataDir) = some (frame magic nonce tag ciphertext) := by
    rw [read, hread, hstore]
    rfl
  have hplain := decryptFrame_frame hframe (h.machineIds ▸ hid) (hauthentic _ _ _ _ _ hencrypt)
  simp only [Credentials.decryptFile, hplain, bind, Except.bind, fromUtf8_asBytes]
  exact parseEnv_serializeEnv hstorable

theorem storable_of_decryptFile {path : FilePath} (h : decryptFile host files path dataDir = .ok values) :
    Storable values := by
  obtain ⟨plaintext, -, hparse⟩ := Loop.bind_ok.mp h
  cases htext : fromUtf8 plaintext with
  | none =>
    rw [htext] at hparse
    cases hparse
  | some text =>
    rw [htext] at hparse
    exact storable_of_parseEnv hparse

/-- How loading ends without an error. -/
theorem loadOrImport_cases (h : loadOrImport host dataDir legacyDataDir files = (.ok values, files')) :
    (files' = files ∧ (files (storePath dataDir)).isSome ∧
      decryptFile host files (storePath dataDir) dataDir = .ok values) ∨
    (files' = files ∧ files (storePath dataDir) = none ∧ values = ∅ ∧
      files (storePath legacyDataDir) = none) ∨
    (files (storePath dataDir) = none ∧
      decryptFile host files (storePath legacyDataDir) legacyDataDir = .ok values ∧
      Written host files (storePath dataDir) dataDir values files') := by
  unfold loadOrImport at h
  simp only at h
  by_cases hcurrent : (files (storePath dataDir)).isSome = true
  · rw [if_pos hcurrent] at h
    obtain ⟨hload, rfl⟩ := Prod.mk.inj h
    exact .inl ⟨rfl, hcurrent, hload⟩
  · have hnone : files (storePath dataDir) = none := Option.not_isSome_iff_eq_none.mp hcurrent
    rw [if_neg hcurrent] at h
    by_cases hlegacy : (files (storePath legacyDataDir)).isNone = true
    · rw [if_pos hlegacy] at h
      obtain ⟨hload, rfl⟩ := Prod.mk.inj h
      cases hload
      exact .inr (.inl ⟨rfl, hnone, rfl, Option.isNone_iff_eq_none.mp hlegacy⟩)
    · rw [if_neg hlegacy] at h
      cases hdecrypt : decryptFile host files (storePath legacyDataDir) legacyDataDir with
      | error e => simp [hdecrypt] at h
      | ok imported =>
        simp only [hdecrypt] at h
        by_cases hdirectory : host.fails (.createDirectory dataDir) = true
        · simp [hdirectory] at h
        rw [if_neg hdirectory] at h
        cases hencrypt : encryptFile host files (storePath dataDir) dataDir imported with
        | mk result written =>
          cases result with
          | error e => simp [hencrypt] at h
          | ok _ =>
            simp only [hencrypt] at h
            obtain ⟨hload, rfl⟩ := Prod.mk.inj h
            cases hload
            exact .inr (.inr ⟨hnone, rfl, encryptFile_written hencrypt⟩)

theorem loadOrImport_of_store {store : Bytes} (hstore : files (storePath dataDir) = some store) :
    loadOrImport host dataDir legacyDataDir files =
      (decryptFile host files (storePath dataDir) dataDir, files) := by
  simp only [loadOrImport, hstore, Option.isSome_some, if_true]

/-- Credentials survive re-encoding. What is written from values with accepted names and without
    line feeds is read back as these values, and so is what is written from the values of any
    accepted text. The store that loading leaves behind holds the values it returned, and loading
    again returns them. -/
theorem credentials_survive (hauthentic : host.Authentic) :
    (∀ values, Storable values → parseEnv (serializeEnv values) = .ok values) ∧
    (∀ contents values, parseEnv contents = .ok values →
      parseEnv (serializeEnv values) = .ok values) ∧
    ∀ dataDir legacyDataDir files files' values,
      host.fails (.read (storePath dataDir)) = false →
      loadOrImport host dataDir legacyDataDir files = (.ok values, files') →
      ((files' (storePath dataDir)).isSome →
        decryptFile host files' (storePath dataDir) dataDir = .ok values) ∧
      loadOrImport host dataDir legacyDataDir files' = (.ok values, files') := by
  refine ⟨fun values => parseEnv_serializeEnv, ?_, ?_⟩
  · intro contents values h
    exact parseEnv_serializeEnv (storable_of_parseEnv h)
  · intro dataDir legacyDataDir files files' values hread h
    rcases loadOrImport_cases h with ⟨rfl, -, hload⟩ | ⟨rfl, hnone, -, -⟩ | ⟨-, hlegacy, hwritten⟩
    · exact ⟨fun _ => hload, h⟩
    · refine ⟨fun hsome => ?_, h⟩
      rw [hnone] at hsome
      cases hsome
    · have hdecrypt := hwritten.decryptFile hauthentic (storable_of_decryptFile hlegacy) hread
      obtain ⟨machineId, nonce, ciphertext, tag, -, -, hstore⟩ := hwritten.store
      refine ⟨fun _ => hdecrypt, ?_⟩
      rw [loadOrImport_of_store hstore, hdecrypt]

end Import

/-- The start of a key. -/
def plainTag (key : Key) : Tag := key.take 16

/-- A machine without an identity of its own, whose cipher leaves the text as it is and takes the
    start of the key as the tag. -/
def plainHost : Host where
  fails _ := false
  torn := 0
  ioreg := none
  hostname := none
  os := "linux".toList
  random := some (Vector.replicate 12 7)
  sha256 _ := Vector.replicate 32 1
  pbkdf2 password _ _ := password
  encrypt key _ plaintext := some (plaintext, plainTag key)
  decrypt key _ ciphertext tag := if tag = (plainTag key).toList then some ciphertext else none

theorem plainHost_authentic : plainHost.Authentic := by
  intro key nonce plaintext ciphertext tag h
  obtain ⟨rfl, rfl⟩ := Prod.mk.inj (Option.some.inj h)
  exact if_pos rfl

/-- One value with quotes, a backslash, an equals sign, a hash and white space around it. -/
def quotedValues : EnvValues :=
  (∅ : EnvValues).insert "OPENAI_API_KEY".toList " # it's = '\\'' ".toList

/-- A machine with nothing but the store of the earlier version, which holds `quotedValues`. -/
def legacyFiles : Files :=
  (encryptFile plainHost (fun _ => none) (storePath ["legacy"]) ["legacy"] quotedValues).2

theorem storable_quotedValues : Storable quotedValues := by
  have hname : IsName "OPENAI_API_KEY".toList := by decide +kernel
  have hvalue : '\n' ∉ " # it's = '\\'' ".toList := by decide +kernel
  exact Storable.insert storable_empty hname hvalue

theorem credentials_survive_import : ∃ files',
    loadOrImport plainHost ["current"] ["legacy"] legacyFiles = (.ok quotedValues, files') ∧
      decryptFile plainHost files' (storePath ["current"]) ["current"] = .ok quotedValues ∧
      loadOrImport plainHost ["current"] ["legacy"] files' = (.ok quotedValues, files') := by
  have hlegacy : encryptFile plainHost (fun _ => none) (storePath ["legacy"]) ["legacy"] quotedValues =
      (.ok (), legacyFiles) := rfl
  have hdecrypt : decryptFile plainHost legacyFiles (storePath ["legacy"]) ["legacy"] = .ok quotedValues :=
    (encryptFile_written hlegacy).decryptFile plainHost_authentic storable_quotedValues rfl
  have hload : loadOrImport plainHost ["current"] ["legacy"] legacyFiles =
      (.ok quotedValues,
        (encryptFile plainHost legacyFiles (storePath ["current"]) ["current"] quotedValues).2) := by
    have hnone : legacyFiles (storePath ["current"]) = none :=
      (encryptFile_written hlegacy).others _ (by decide) (by decide)
    obtain ⟨machineId, nonce, ciphertext, tag, -, -, hstore⟩ := (encryptFile_written hlegacy).store
    simp only [loadOrImport, hnone, hstore, hdecrypt]
    rfl
  have hall := (credentials_survive plainHost_authentic).2.2 _ _ _ _ _ rfl hload
  exact ⟨_, hload, hall.1 rfl, hall.2⟩

end Credentials
