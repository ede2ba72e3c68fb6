-- SUMMARY: The queue of document jobs: claims take the oldest job, and a waiting job is passed over only by those ahead of it.
import Supermemory.Library.Queue
import Supermemory.Storage.JobSteps
import Supermemory.Storage.Recovery
import Supermemory.Storage.Statements

/-!
# The order of claims

The table of jobs is a queue: rows are inserted at its end, in the order of their creation,
and no statement moves one. A claim takes the first available row. While the database stays
open, no row comes back into the queue of documents, so a document job that waits is passed
over once by each job that was queued ahead of it at most.
-/

namespace Storage

variable {env : Env} {now clock : Time} {mine : String → Prop} {db db' : Database}

-- ---------------------------------------------------------------------------
-- Places
-- ---------------------------------------------------------------------------

/-- What no statement changes of a job row. -/
structure Ticket where
  id : String
  documentId : String
  kind : JobKind
  revision : Nat
  createdAt : Time

def Job.ticket (j : Job) : Ticket := ⟨j.id, j.documentId, j.kind, j.revision, j.createdAt⟩

def Database.tickets (db : Database) : List Ticket := db.jobs.rows.map Job.ticket

/-- A ticket that is drawn now. -/
def Fresh (env : Env) (now : Time) (db : Database) (ticket : Ticket) : Prop :=
  ticket.createdAt = now ∧ ¬ Drawn env db ticket.id

/-- The jobs keep their places, and new ones stand behind them. The documents are new, or not of an earlier revision. -/
structure KeepsPlaces (env : Env) (now : Time) (db db' : Database) : Prop where
  idsDrawn : db.idsDrawn ≤ db'.idsDrawn
  tickets : Queue.Appends (Fresh env now db) db.tickets db'.tickets
  documents : ∀ d' ∈ db'.documents, ¬ Drawn env db d'.id ∨ ∃ d ∈ db.documents, d.id = d'.id ∧ d.revision ≤ d'.revision

namespace KeepsPlaces

theorem of_sublist (hdrawn : db.idsDrawn ≤ db'.idsDrawn) (hjobs : db'.jobs.rows.Sublist db.jobs.rows)
    (hdocuments : ∀ d ∈ db'.documents, d ∈ db.documents) : KeepsPlaces env now db db' :=
  ⟨hdrawn, .of_sublist (hjobs.map _), fun d hd => .inr ⟨d, hdocuments d hd, rfl, Nat.le_refl _⟩⟩

theorem of_eq (hdrawn : db.idsDrawn ≤ db'.idsDrawn) (hjobs : db'.jobs = db.jobs)
    (hdocuments : db'.documents = db.documents) : KeepsPlaces env now db db' := by
  apply of_sublist hdrawn
  · rw [hjobs]
  · intro d hd
    exact hdocuments ▸ hd

theorem trans {db'' : Database} (h : KeepsPlaces env now db db') (h' : KeepsPlaces env now db' db'') :
    KeepsPlaces env now db db'' where
  idsDrawn := h.idsDrawn.trans h'.idsDrawn
  tickets := h.tickets.trans h'.tickets fun _ hfresh => ⟨hfresh.1, fun hdrawn => hfresh.2 (hdrawn.mono h.idsDrawn)⟩
  documents := by
    intro d'' hd''
    cases h'.documents d'' hd'' with
    | inl hnew => exact .inl fun hdrawn => hnew (hdrawn.mono h.idsDrawn)
    | inr hold =>
      obtain ⟨d', hd', hid', hrevision'⟩ := hold
      rw [← hid']
      cases h.documents d' hd' with
      | inl hnew => exact .inl hnew
      | inr hold =>
        obtain ⟨d, hd, hid, hrevision⟩ := hold
        exact .inr ⟨d, hd, hid, hrevision.trans hrevision'⟩

end KeepsPlaces

/-- No statement moves a job. -/
theorem Statement.keepsPlaces (h : Statement env now mine db db') : KeepsPlaces env now db db' := by
  cases h with
  | insertJob _ _ hinsert =>
    obtain ⟨_, jobs, hrows, rfl⟩ := insertJob_ok hinsert
    refine ⟨Nat.le_succ _, ?_, fun d hd => .inr ⟨d, hd, rfl, Nat.le_refl _⟩⟩
    dsimp only [Database.tickets]
    rw [Table.insert_rows hrows, List.map_append]
    exact .concat ⟨rfl, not_drawn (Nat.le_refl _)⟩
  | @updateJobs p _ f hf hbecomes =>
    refine ⟨Nat.le_refl _, ?_, fun d hd => .inr ⟨d, hd, rfl, Nat.le_refl _⟩⟩
    have hsame : ({ db with jobs := db.jobs.update p f hf } : Database).tickets = db.tickets := by
      dsimp only [Database.tickets, Table.update]
      rw [List.map_map]
      apply List.map_congr_left
      intro j hj
      simp only [Function.comp]
      split
      · rename_i hguard
        have hjob := (hbecomes j hj hguard).2
        obtain ⟨hid, hdocument, hkind, hrevision⟩ := hjob.same
        unfold Job.ticket
        rw [hid, hdocument, hkind, hrevision, hjob.createdAt]
      · rfl
    rw [hsame]
    exact .refl _
  | @insertDocument d documents hid _ _ _ hinsert =>
    refine ⟨Nat.le_succ _, .refl _, fun d' hd' => ?_⟩
    cases (Table.mem_insert hinsert).mp hd' with
    | inl hold => exact .inr ⟨d', hold, rfl, Nat.le_refl _⟩
    | inr hnew =>
      rw [hnew, hid]
      exact .inl (not_drawn (Nat.le_refl _))
  | @updateDocuments p _ f hf hbecomes =>
    refine ⟨Nat.le_refl _, .refl _, fun d' hd' => ?_⟩
    have hmem : d' ∈ db.documents.update p f hf := hd'
    obtain ⟨d, hd, hid, rfl⟩ := Table.of_mem_update hmem
    refine .inr ⟨d, hd, hid, ?_⟩
    split
    · rename_i hguard
      exact (hbecomes d hd hguard).2.revision
    · exact Nat.le_refl _
  | deleteDocument =>
    exact .of_sublist (Nat.le_refl _) List.filter_sublist fun d hd => (Table.mem_delete.mp hd).1
  | insertChunk _ _ hchunk =>
    have hsame := (insertChunk_ok hchunk).1
    exact .of_eq hsame.idsDrawn hsame.jobs hsame.documents
  | insertChunkEmbedding _ _ hembed =>
    obtain ⟨_, rfl⟩ := insertChunkEmbedding_ok hembed
    exact .of_eq (Nat.le_refl _) rfl rfl
  | insertMemoryEmbedding _ _ hembed =>
    obtain ⟨_, rfl, _⟩ := insertMemoryEmbedding_ok hembed
    exact .of_eq (Nat.le_refl _) rfl rfl
  | addRelation =>
    unfold Storage.addRelation
    split
    · exact .of_eq (Nat.le_refl _) rfl rfl
    · exact .of_eq (Nat.le_refl _) rfl rfl
  | drawId | insertMemory => exact .of_eq (Nat.le_succ _) rfl rfl
  | insertOrganization | deleteChunks | updateMemories | insertSource | deactivateVectors =>
    exact .of_eq (Nat.le_refl _) rfl rfl

theorem Statements.keepsPlaces (h : Statements env now mine db db') : KeepsPlaces env now db db' :=
  h.invariant (fun _ _ hkeeps hstatement => hkeeps.trans hstatement.keepsPlaces) (.of_eq (Nat.le_refl _) rfl rfl)

-- ---------------------------------------------------------------------------
-- Creation
-- ---------------------------------------------------------------------------

/-- The jobs stand in the order of their creation, and none is from the future. -/
structure InOrder (clock : Time) (db : Database) : Prop where
  sorted : db.tickets.Pairwise fun a b => a.createdAt ≤ b.createdAt
  past : ∀ ticket ∈ db.tickets, ticket.createdAt ≤ clock

theorem InOrder.keepsPlaces (h : InOrder clock db) (hclock : clock ≤ now) (hkeeps : KeepsPlaces env now db db') :
    InOrder now db' where
  sorted := by
    refine hkeeps.tickets.pairwise h.sorted ?_ ?_
    · intro a ha b hb
      rw [hb.1]
      exact (h.past a ha).trans hclock
    · intro a b ha hb
      rw [ha.1, hb.1]
  past := by
    intro ticket hticket
    cases hkeeps.tickets.mem hticket with
    | inl hold => exact (h.past ticket hold).trans hclock
    | inr hnew => exact hnew.1.le

/-- One job stands before another one. -/
def Precedes (db : Database) (first second : String) : Prop := [first, second].Sublist (db.tickets.map Ticket.id)

instance (db : Database) (first second : String) : Decidable (Precedes db first second) :=
  inferInstanceAs (Decidable (List.Sublist _ _))

theorem tickets_id (db : Database) : db.tickets.map Ticket.id = db.jobs.rows.map Job.id := List.map_map

/-- A claim takes the first available job. -/
theorem nextJob_first {kind : JobKind} {j k : Job} {d : Document} (h : InOrder clock db)
    (hnext : nextJob db now kind = some (k, d)) (hj : j ∈ availableJobs db now kind) (hother : j ≠ k) :
    Precedes db k.id j.id := by
  have hsorted : (availableJobs db now kind).Pairwise fun a b => a.createdAt ≤ b.createdAt :=
    (List.pairwise_map.mp h.sorted).sublist List.filter_sublist
  have hfirst : (availableJobs db now kind).head? = some k := by
    rw [← Queue.argmin_ordered hsorted]
    unfold nextJob at hnext
    cases hmin : (availableJobs db now kind).argmin Job.createdAt with
    | none =>
      rw [hmin] at hnext
      cases hnext
    | some job =>
      rw [hmin] at hnext
      obtain ⟨_, _, hpair⟩ := Option.map_eq_some_iff.mp hnext
      exact congrArg some (congrArg Prod.fst hpair)
  obtain ⟨rest, hrest⟩ := List.head?_eq_some_iff.mp hfirst
  have hlater : j ∈ rest := by
    rw [hrest] at hj
    exact (List.mem_cons.mp hj).resolve_left hother
  have hpair : [k, j].Sublist (availableJobs db now kind) := by
    rw [hrest]
    exact (List.singleton_sublist.mpr hlater).cons_cons k
  unfold Precedes
  rw [tickets_id]
  exact (hpair.trans List.filter_sublist).map Job.id

-- ---------------------------------------------------------------------------
-- The queue of documents
-- ---------------------------------------------------------------------------

/-- The document jobs that are queued ahead of a job. -/
def ahead (db : Database) (id : String) : List String :=
  (db.jobs.rows.filter fun k => k.kind = .document ∧ k.status = .queued ∧ Precedes db k.id id).map Job.id

theorem mem_ahead {id other : String} : other ∈ ahead db id ↔
    ∃ k ∈ db.jobs, k.id = other ∧ k.kind = .document ∧ k.status = .queued ∧ Precedes db k.id id := by
  simp only [ahead, List.mem_map, List.mem_filter, decide_eq_true_eq]
  constructor
  · rintro ⟨k, ⟨hk, hahead⟩, hid⟩
    exact ⟨k, hk, hid, hahead⟩
  · rintro ⟨k, hk, hid, hahead⟩
    exact ⟨k, ⟨hk, hahead⟩, hid⟩

theorem ahead_nodup (db : Database) (id : String) : (ahead db id).Nodup :=
  db.jobs.nodup.sublist (List.filter_sublist.map Job.id)

variable {s : System} {call : Call} {id : String}

/-- While the database stays open, no document job comes back into the queue. -/
theorem queued_before (hs : Consistent env s) (hissued : call.Issued s) (hopen : call ≠ .openStorage) {j : Job}
    (hj : j ∈ (call.run env now s.db).2.jobs) (hkind : j.kind = .document) (hqueued : j.status = .queued)
    (hdrawn : Drawn env s.db j.id) :
    (∃ i ∈ s.db.jobs, i.id = j.id ∧ i.kind = .document ∧ i.status = .queued) ∧
      handedBy (call.run env now s.db).1 ≠ some (.document, j.id) := by
  cases call.movesRows env now s.db j hj with
  | inl hnew => exact absurd hdrawn hnew.1
  | inr hold =>
    obtain ⟨i, hi, hij, hikind, hmoves⟩ := hold
    cases hmoves with
    | claimed _ _ hstatus => exact absurd (hqueued.symm.trans hstatus) DocumentState.noConfusion
    | kept hhanded _ hstays =>
      rw [hikind, hij, hkind] at hhanded
      refine ⟨⟨i, hi, hij, hikind.trans hkind, ?_⟩, hhanded⟩
      cases hstays hqueued with
      | inl hstays => exact hstays
      | inr hrequeues =>
        cases call with
        | retryMemoryJob job errorKind error retryDelay =>
          have hmemory := (hs.memoryHandleRow job (hissued.2 job rfl) i hi hrequeues.1.symm).1
          exact absurd (hmemory.symm.trans (hikind.trans hkind)) JobKind.noConfusion
        | openStorage => exact absurd rfl hopen
        | _ => exact hrequeues.elim

/-- While the database stays open, nobody joins those ahead of a job, and who is claimed leaves them. -/
theorem ahead_step (hs : Consistent env s) (hissued : call.Issued s) (hopen : call ≠ .openStorage)
    (hid : Drawn env s.db id) {other : String} (hother : other ∈ ahead (call.run env now s.db).2 id) :
    other ∈ ahead s.db id ∧ handedBy (call.run env now s.db).1 ≠ some (.document, other) := by
  obtain ⟨k, hk, rfl, hkind, hqueued, hprecedes⟩ := mem_ahead.mp hother
  have hplaces : KeepsPlaces env now s.db (call.run env now s.db).2 := (call.statements hs hissued).keepsPlaces
  have hids : Queue.Appends (fun id => ¬ Drawn env s.db id) (s.db.tickets.map Ticket.id)
      ((call.run env now s.db).2.tickets.map Ticket.id) := hplaces.tickets.map fun _ hfresh => hfresh.2
  have hprecedes : Precedes s.db k.id id := hids.precedes (not_not.mpr hid) hprecedes
  have hdrawn : Drawn env s.db k.id := by
    have hmem : k.id ∈ s.db.tickets.map Ticket.id := hprecedes.subset List.mem_cons_self
    rw [tickets_id] at hmem
    obtain ⟨i, hi, hik⟩ := List.mem_map.mp hmem
    exact hik ▸ hs.jobDrawn i hi
  obtain ⟨⟨i, hi, hik, hbefore⟩, hhanded⟩ := queued_before hs hissued hopen hk hkind hqueued hdrawn
  exact ⟨mem_ahead.mpr ⟨i, hi, hik, hbefore.1, hbefore.2, hik ▸ hprecedes⟩, hhanded⟩

-- ---------------------------------------------------------------------------
-- Runs
-- ---------------------------------------------------------------------------

/-- The store, and the time of its last call. -/
structure Clocked where
  clock : Time
  store : System

/-- The store under a clock that never goes back. -/
def clocked (env : Env) : Machine Clocked (Time × Call) where
  init s := s.store.Empty
  step s event := if s.clock ≤ event.1 then ((machine env).step s.store event).map (⟨event.1, ·⟩) else none

theorem clocked_step {s s' : Clocked} {event : Time × Call} :
    (clocked env).step s event = some s' ↔ s.clock ≤ event.1 ∧ event.2.Issued s.store ∧
      s' = ⟨event.1, s.store.after event.2 (event.2.run env event.1 s.store.db)⟩ := by
  simp only [clocked]
  split
  · rename_i hclock
    simp only [Option.map_eq_some_iff, machine_step]
    constructor
    · rintro ⟨_, ⟨hissued, rfl⟩, rfl⟩
      exact ⟨hclock, hissued, rfl⟩
    · rintro ⟨_, hissued, rfl⟩
      exact ⟨_, ⟨hissued, rfl⟩, rfl⟩
  · rename_i hclock
    exact ⟨nofun, fun h => absurd h.1 hclock⟩

theorem machine_of_clocked {s : Clocked} (h : (clocked env).Reachable s) : (machine env).Reachable s.store := by
  refine h.simulate (N := machine env) (f := Clocked.store) (fun _ h => h) ?_
  intro s event s' hstep
  obtain ⟨_, hissued, rfl⟩ := clocked_step.mp hstep
  exact .inr ⟨event, machine_step.mpr ⟨hissued, rfl⟩⟩

theorem inOrder_of_reachable {s : Clocked} (h : (clocked env).Reachable s) : InOrder s.clock s.store.db := by
  apply h.invariant (I := fun s => InOrder s.clock s.store.db)
  · rintro ⟨clock, _⟩ ⟨organizations, rfl⟩
    exact ⟨.nil, fun _ hticket => absurd hticket List.not_mem_nil⟩
  · intro s event s' hs hinorder hstep
    obtain ⟨hclock, hissued, rfl⟩ := clocked_step.mp hstep
    dsimp only
    rw [System.after_db]
    exact hinorder.keepsPlaces hclock
      (event.2.statements (consistent_of_reachable (machine_of_clocked hs)) hissued).keepsPlaces

/-- A claim passes over an available document job. -/
def Overtakes (env : Env) (id : String) (s : Clocked) (event : Time × Call) : Prop :=
  event.2 = .claimJob ∧ (∃ j ∈ availableJobs s.store.db event.1 .document, j.id = id) ∧
    handedBy (event.2.run env event.1 s.store.db).1 ≠ some (.document, id)

instance (s : Clocked) (event : Time × Call) : Decidable (Overtakes env id s event) :=
  inferInstanceAs (Decidable (_ ∧ _))

/-- It hands out a job that was queued ahead. -/
theorem Overtakes.handed {s : Clocked} {event : Time × Call} (hs : InOrder clock s.store.db)
    (h : Overtakes env id s event) : ∃ other ∈ ahead s.store.db id,
      handedBy (event.2.run env event.1 s.store.db).1 = some (.document, other) := by
  obtain ⟨now, call⟩ := event
  obtain ⟨rfl, ⟨j, hj, rfl⟩, hother⟩ := h
  dsimp only at hj hother ⊢
  obtain ⟨hmem, hguard⟩ := List.mem_filter.mp hj
  have hguard := of_decide_eq_true hguard
  obtain ⟨d, hd, hrevision⟩ := Option.map_eq_some_iff.mp hguard.2.2.1.symm
  have hwaits : Waits s.store.db j d :=
    ⟨hmem, hguard.2.1, ⟨d.status, Table.find_mem hd⟩, Table.find_key hd, hrevision⟩
  obtain ⟨k, e, hnext⟩ := hwaits.next hguard.2.2.2
  rw [hguard.1] at hnext
  obtain ⟨hk, _, _, hkind, hqueued, _⟩ := nextJob_some hnext
  have hhanded : handedBy (Call.run env now .claimJob s.store.db).1 = some (.document, k.id) := by
    simp only [Call.run, claimJob, hnext]
    rfl
  rw [hhanded] at hother ⊢
  have hne : j ≠ k := fun hsame => hother (by rw [hsame])
  exact ⟨k.id, mem_ahead.mpr ⟨k, hk, rfl, hkind, hqueued, nextJob_first hs hnext hj hne⟩, rfl⟩

/-- A state of a run in which the job was stored at some time. -/
def SeenJob (env : Env) (id : String) (s : Clocked) : Prop := (clocked env).Reachable s ∧ Drawn env s.store.db id

/-- Those ahead of a job after a step were ahead of it before. -/
theorem SeenJob.step {s s' : Clocked} {event : Time × Call} (h : SeenJob env id s) (hopen : event.2 ≠ .openStorage)
    (hstep : (clocked env).step s event = some s') :
    SeenJob env id s' ∧ ∀ other ∈ ahead s'.store.db id, other ∈ ahead s.store.db id ∧
      handedBy (event.2.run env event.1 s.store.db).1 ≠ some (.document, other) := by
  obtain ⟨hs, hid⟩ := h
  obtain ⟨_, hissued, hs'⟩ := clocked_step.mp hstep
  have hdb : s'.store.db = (event.2.run env event.1 s.store.db).2 := by rw [hs', System.after_db]
  unfold SeenJob
  rw [hdb]
  refine ⟨⟨hs.step hstep, hid.mono (Call.idsDrawn_le env event.1 event.2 s.store.db)⟩, fun other hother => ?_⟩
  exact ahead_step (consistent_of_reachable (machine_of_clocked hs)) hissued hopen hid hother

/-- Documents are indexed in the order in which they were queued. While the database stays open, a document job
    is passed over at most once by each job that was queued ahead of it, and by no other one, whatever else is
    stored, published, deleted or retried in the meantime. -/
theorem first_come_first_served {s : Clocked} (hs : (clocked env).Reachable s) {j : Job} (hj : j ∈ s.store.db.jobs)
    (events : List (Time × Call)) (hopen : ∀ event ∈ events, event.2 ≠ .openStorage) :
    (clocked env).occurrences (Overtakes env j.id) s events ≤ (ahead s.store.db j.id).length ∧
    ∀ t event other, (clocked env).replay s events = some t → Overtakes env j.id t event →
      handedBy (event.2.run env event.1 t.store.db).1 = some (.document, other) → other ∈ ahead s.store.db j.id := by
  have hknown : SeenJob env j.id s := ⟨hs, (consistent_of_reachable (machine_of_clocked hs)).jobDrawn j hj⟩
  constructor
  · apply Machine.occurrences_le_rank (I := SeenJob env j.id) (fun s => (ahead s.store.db j.id).length)
      (fun s event s' hs hopen hstep => ?_) (fun s event s' hs hopen hstep hovertakes => ?_) hknown hopen
    · obtain ⟨hs', hahead⟩ := hs.step hopen hstep
      exact ⟨hs', (List.subperm_of_subset (ahead_nodup _ _) fun other hother => (hahead other hother).1).length_le⟩
    · obtain ⟨_, hahead⟩ := hs.step hopen hstep
      obtain ⟨k, hk, hhanded⟩ := hovertakes.handed (inOrder_of_reachable hs.1)
      -- The job that is handed out was ahead, and is not any more.
      have hgone : k ∉ ahead s'.store.db j.id := fun hk => (hahead k hk).2 hhanded
      have hsubset : k :: ahead s'.store.db j.id ⊆ ahead s.store.db j.id :=
        List.cons_subset.mpr ⟨hk, fun other hother => (hahead other hother).1⟩
      exact (List.subperm_of_subset (List.nodup_cons.mpr ⟨hgone, ahead_nodup _ _⟩) hsubset).length_le
  · intro t event other hreplay hovertakes hhanded
    have hkept : SeenJob env j.id t ∧ ahead t.store.db j.id ⊆ ahead s.store.db j.id := by
      refine Machine.replay_keeps (I := fun u => SeenJob env j.id u ∧ ahead u.store.db j.id ⊆ ahead s.store.db j.id)
        (fun u event u' hu hopen hstep => ?_) ⟨hknown, fun _ hother => hother⟩ hopen hreplay
      obtain ⟨hu', hahead⟩ := hu.1.step hopen hstep
      exact ⟨hu', fun other hother => hu.2 (hahead other hother).1⟩
    obtain ⟨k, hk, hhanded'⟩ := hovertakes.handed (inOrder_of_reachable hkept.1.1)
    obtain rfl : other = k := congrArg Prod.snd (Option.some_inj.mp (hhanded.symm.trans hhanded'))
    exact hkept.2 hk

/-- A text under the custom identifier of its own. -/
def noteOf (content : String) : Call := .upsertDocument "" { upsertOf content with customId := some content }

/-- Three notes are stored at one time, and claimed. -/
def threeNotes : Option Clocked :=
  (clocked unaryEnv).replay ⟨63871286400, emptySystem⟩
    ([.openStorage, noteOf "a", noteOf "b", noteOf "c"].map (63871286400, ·))

theorem first_come_first_served_threeNotes : ∃ s ∈ threeNotes, ∃ j ∈ s.store.db.jobs, (ahead s.store.db j.id).length = 2 ∧
    (clocked unaryEnv).occurrences (Overtakes unaryEnv j.id) s
      [(63871286400, .claimJob), (63871286401, noteOf "d"), (63871286402, .claimJob), (63871286403, .claimJob),
        (63871286404, .claimJob)] = 2 := by
  have hrun : ∃ s ∈ threeNotes, ∃ j ∈ s.store.db.jobs.rows, (ahead s.store.db j.id).length = 2 ∧
      2 ≤ (clocked unaryEnv).occurrences (Overtakes unaryEnv j.id) s
        [(63871286400, .claimJob), (63871286401, noteOf "d"), (63871286402, .claimJob), (63871286403, .claimJob),
          (63871286404, .claimJob)] := by
    decide +kernel
  obtain ⟨s, hs, j, hj, hahead, hmany⟩ := hrun
  have hstart : (clocked unaryEnv).Reachable ⟨63871286400, emptySystem⟩ := .start ⟨∅, rfl⟩
  have hfew := (first_come_first_served (hstart.replay hs) hj
    [(63871286400, .claimJob), (63871286401, noteOf "d"), (63871286402, .claimJob), (63871286403, .claimJob),
      (63871286404, .claimJob)] (by decide)).1
  rw [hahead] at hfew
  exact ⟨s, hs, j, hj, hahead, Nat.le_antisymm hfew hmany⟩

end Storage
