-- SUMMARY: The writer task: however requests interleave, it is the store under one call after the other, and callers read what they wrote.
import Supermemory.Library.Actor
import Supermemory.Storage.Integrity
import Supermemory.Storage.Presence

/-!
# The writer

One task owns the connection that writes. Handlers and workers send it operations through a
bounded queue and wait for the reply. The writer is an actor over the database, and its
callers use a job only after it was claimed for one of them. So its database is one that the
store reaches, and what holds for every run of the store holds while the server runs.
-/

namespace Server

open Storage

variable {env : Env}

/-- What the writer is asked to do: an operation of the store, or to look a document up. -/
inductive Operation where
  | run (call : Call)
  | findDocument (orgId id : String)
  deriving DecidableEq

/-- What the writer replies. -/
inductive Outcome where
  | ran (result : Except StorageError Answer)
  | found (document : Option Document)
  deriving DecidableEq

/-- Runs an operation on the connection of the writer. -/
def Operation.execute (env : Env) (now : Time) (operation : Operation) (db : Database) : Outcome × Database :=
  match operation with
  | .run call =>
    let (result, db) := call.run env now db
    (.ran result, db)
  | .findDocument orgId id => (.found (findDocumentFor orgId id db), db)

/-- The capacity that `ServerRuntime::with_limits` gives the queue of the writer. -/
def writerCapacity : Nat := 128

abbrev Writer := Actor Database Time Operation Outcome

namespace Writer

/-- Some caller was given the job. -/
def HasJob (s : Writer) (job : ClaimedJob) : Prop :=
  ∃ r ∈ s.returned, r.answer = some (.ran (.ok (.claimed (some job))))

/-- Some caller was given the memory job. -/
def HasMemoryJob (s : Writer) (job : ClaimedMemoryJob) : Prop :=
  ∃ r ∈ s.returned, r.answer = some (.ran (.ok (.claimedMemory (some job))))

/-- Callers ask for work on a job when one of them was given it. -/
def Allows (s : Writer) : Actor.Event Time Operation → Prop
  | .call (.run call) => (∀ job ∈ call.job, s.HasJob job) ∧ ∀ job ∈ call.memoryJob, s.HasMemoryJob job
  | _ => True

instance (s : Writer) (job : ClaimedJob) : Decidable (s.HasJob job) := inferInstanceAs (Decidable (∃ r ∈ s.returned, _))

instance (s : Writer) (job : ClaimedMemoryJob) : Decidable (s.HasMemoryJob job) :=
  inferInstanceAs (Decidable (∃ r ∈ s.returned, _))

instance (s : Writer) (event : Actor.Event Time Operation) : Decidable (s.Allows event) :=
  match event with
  | .call (.run call) =>
    inferInstanceAs (Decidable ((∀ job ∈ call.job, s.HasJob job) ∧ ∀ job ∈ call.memoryJob, s.HasMemoryJob job))
  | .call (.findDocument _ _) => isTrue trivial
  | .accept _ | .serve _ | .reply _ | .refuse _ | .leave _ | .stop => isTrue trivial

end Writer

/-- A database that the store reaches. -/
def IsStore (env : Env) (db : Database) : Prop := ∃ t, (machine env).Reachable t ∧ t.db = db

/-- The writers of servers that are started on some store. -/
def writers (env : Env) : Machine Writer (Actor.Event Time Operation) :=
  (Actor.machine (Operation.execute env) writerCapacity (IsStore env)).restrict Writer.Allows

-- ---------------------------------------------------------------------------
-- Refinement
-- ---------------------------------------------------------------------------

/-- A state of the store that explains the writer: it has the writer's database, every handle that a
    request was answered with, and every handle that a waiting request takes. -/
structure Represents (s : Writer) (t : System) : Prop where
  db : t.db = s.state
  jobs : ∀ e ∈ s.history, ∀ job, e.answer = .ran (.ok (.claimed (some job))) → job ∈ t.jobs
  memoryJobs : ∀ e ∈ s.history, ∀ job, e.answer = .ran (.ok (.claimedMemory (some job))) → job ∈ t.memoryJobs
  issued : ∀ c ∈ s.waiting ++ s.queue, ∀ call, c.2 = .run call → call.Issued t

section Represents

variable {s s' : Writer} {t t' : System}

/-- Nothing is served, and no request is new. -/
theorem Represents.quiet (h : Represents s t) (hstate : s'.state = s.state) (hhistory : s'.history = s.history)
    (hrequests : ∀ c ∈ s'.waiting ++ s'.queue, c ∈ s.waiting ++ s.queue) : Represents s' t where
  db := h.db.trans hstate.symm
  jobs := hhistory.symm ▸ h.jobs
  memoryJobs := hhistory.symm ▸ h.memoryJobs
  issued c hc := h.issued c (hrequests c hc)

/-- A handle that a caller was given is one that a request was answered with. -/
theorem returned_answered {first : Database} {r : Actor.Return Outcome} {outcome : Outcome}
    (h : Actor.Linearized (Operation.execute env) writerCapacity first s) (hr : r ∈ s.returned)
    (hanswer : r.answer = some outcome) : ∃ e ∈ s.history, e.answer = outcome := by
  obtain ⟨earlier, e, later, hhistory, _, hentry, _⟩ := (h.returned r hr).answered outcome hanswer
  refine ⟨e, ?_, hentry⟩
  rw [hhistory]
  exact List.mem_append_right _ List.mem_cons_self

theorem Represents.allowed {first : Database} {call : Call} (h : Represents s t)
    (hlinear : Actor.Linearized (Operation.execute env) writerCapacity first s) (hallows : s.Allows (.call (.run call))) :
    call.Issued t := by
  obtain ⟨hjob, hmemoryJob⟩ := hallows
  constructor
  · intro job hmem
    obtain ⟨r, hr, hanswer⟩ := hjob job hmem
    obtain ⟨e, he, hentry⟩ := returned_answered hlinear hr hanswer
    exact h.jobs e he job hentry
  · intro job hmem
    obtain ⟨r, hr, hanswer⟩ := hmemoryJob job hmem
    obtain ⟨e, he, hentry⟩ := returned_answered hlinear hr hanswer
    exact h.memoryJobs e he job hentry

theorem issued_after {call call' : Call} {r : Except StorageError Answer × Database} (h : call.Issued t) :
    call.Issued (t.after call' r) :=
  ⟨fun job hjob => System.mem_after_jobs (h.1 job hjob), fun job hjob => System.mem_after_memoryJobs (h.2 job hjob)⟩

theorem mem_after_claimed {call : Call} {r : Except StorageError Answer × Database} {job : ClaimedJob}
    (h : r.1 = .ok (.claimed (some job))) : job ∈ (t.after call r).jobs := by
  obtain ⟨result, db⟩ := r
  obtain rfl : result = _ := h
  exact List.mem_cons_self

theorem mem_after_claimedMemory {call : Call} {r : Except StorageError Answer × Database} {job : ClaimedMemoryJob}
    (h : r.1 = .ok (.claimedMemory (some job))) : job ∈ (t.after call r).memoryJobs := by
  obtain ⟨result, db⟩ := r
  obtain rfl : result = _ := h
  exact List.mem_cons_self

/-- The request at the head of the queue is one call of the store, or none. -/
theorem Represents.serve {caller : Nat} {operation : Operation} {rest : List (Nat × Operation)} {time : Time}
    (h : Represents s t) (hqueue : s.queue = (caller, operation) :: rest)
    (hstate : s'.state = (operation.execute env time s.state).2)
    (hhistory : s'.history = s.history ++ [⟨caller, operation, time, (operation.execute env time s.state).1⟩])
    (hrequests : s'.waiting ++ s'.queue = s.waiting ++ rest) :
    ∃ t', Represents s' t' ∧ (t' = t ∨ ∃ event, (machine env).step t event = some t') := by
  have hsub : ∀ c ∈ s'.waiting ++ s'.queue, c ∈ s.waiting ++ s.queue := by
    intro c hc
    rw [hrequests] at hc
    rw [hqueue]
    exact (List.mem_append.mp hc).elim (List.mem_append_left _) fun hrest =>
      List.mem_append_right _ (List.mem_cons_of_mem _ hrest)
  cases operation with
  | findDocument orgId id =>
    refine ⟨t, ⟨h.db.trans hstate.symm, ?_, ?_, fun c hc => h.issued c (hsub c hc)⟩, .inl rfl⟩
    · intro e he job hanswer
      rw [hhistory] at he
      cases List.mem_append.mp he with
      | inl hold => exact h.jobs e hold job hanswer
      | inr hnew =>
        rw [List.mem_singleton.mp hnew] at hanswer
        cases hanswer
    · intro e he job hanswer
      rw [hhistory] at he
      cases List.mem_append.mp he with
      | inl hold => exact h.memoryJobs e hold job hanswer
      | inr hnew =>
        rw [List.mem_singleton.mp hnew] at hanswer
        cases hanswer
  | run call =>
    have hmem : (caller, Operation.run call) ∈ s.waiting ++ s.queue := by
      rw [hqueue]
      exact List.mem_append_right _ List.mem_cons_self
    have hissued : call.Issued t := h.issued _ hmem call rfl
    have hrun : (Operation.run call).execute env time s.state =
        (.ran (call.run env time t.db).1, (call.run env time t.db).2) := by
      rw [h.db]
      rfl
    rw [hrun] at hstate hhistory
    refine ⟨t.after call (call.run env time t.db), ?_, .inr ⟨(time, call), machine_step.mpr ⟨hissued, rfl⟩⟩⟩
    constructor
    case db => exact (System.after_db t call _).trans hstate.symm
    case jobs =>
      intro e he job hanswer
      rw [hhistory] at he
      cases List.mem_append.mp he with
      | inl hold => exact System.mem_after_jobs (h.jobs e hold job hanswer)
      | inr hnew =>
        rw [List.mem_singleton.mp hnew] at hanswer
        exact mem_after_claimed (Outcome.ran.inj hanswer)
    case memoryJobs =>
      intro e he job hanswer
      rw [hhistory] at he
      cases List.mem_append.mp he with
      | inl hold => exact System.mem_after_memoryJobs (h.memoryJobs e hold job hanswer)
      | inr hnew =>
        rw [List.mem_singleton.mp hnew] at hanswer
        exact mem_after_claimedMemory (Outcome.ran.inj hanswer)
    case issued => exact fun c hc call' hcall => issued_after (h.issued c (hsub c hc) call' hcall)

theorem Represents.start {first : Database} (h : t.db = first) : Represents (Actor.start first) t where
  db := h
  jobs _ he := absurd he List.not_mem_nil
  memoryJobs _ he := absurd he List.not_mem_nil
  issued _ hc := absurd hc List.not_mem_nil

/-- Every step of the writer is one step of the store, or none. -/
theorem Represents.step {first : Database} {e : Actor.Event Time Operation} (h : Represents s t)
    (hlinear : Actor.Linearized (Operation.execute env) writerCapacity first s) (hallows : s.Allows e)
    (hstep : Actor.step (Operation.execute env) writerCapacity s e = some s') :
    ∃ t', Represents s' t' ∧ (t' = t ∨ ∃ event, (machine env).step t event = some t') := by
  cases e with
  | call operation =>
    obtain rfl : _ = s' := Option.some_inj.mp hstep
    refine ⟨t, ⟨h.db, h.jobs, h.memoryJobs, fun c hc call hcall => ?_⟩, .inl rfl⟩
    have hcases : c ∈ s.waiting ++ s.queue ∨ c = (s.calls.length, operation) := by grind
    cases hcases with
    | inl hold => exact h.issued c hold call hcall
    | inr hnew =>
      obtain rfl : operation = .run call := (congrArg Prod.snd hnew).symm.trans hcall
      exact h.allowed hlinear hallows
  | accept caller =>
    simp only [Actor.step] at hstep
    split at hstep
    · rename_i operation hlookup
      split at hstep
      · cases hstep
        refine ⟨t, h.quiet rfl rfl fun c hc => ?_, .inl rfl⟩
        have hmem := Actor.mem_of_lookup hlookup
        grind [Actor.without]
      · cases hstep
    · cases hstep
  | serve time =>
    simp only [Actor.step] at hstep
    split at hstep
    · rename_i caller operation rest hqueue
      split at hstep
      · cases hstep
        exact h.serve hqueue rfl rfl rfl
      · cases hstep
    · cases hstep
  | reply caller =>
    simp only [Actor.step] at hstep
    split at hstep
    · cases hstep
      exact ⟨t, h.quiet rfl rfl fun _ hc => hc, .inl rfl⟩
    · cases hstep
  | refuse caller =>
    simp only [Actor.step] at hstep
    split at hstep
    · cases hstep
      refine ⟨t, h.quiet rfl rfl fun c hc => ?_, .inl rfl⟩
      grind [Actor.without]
    · cases hstep
  | leave caller =>
    simp only [Actor.step] at hstep
    split at hstep
    · cases hstep
      refine ⟨t, h.quiet rfl rfl fun c hc => ?_, .inl rfl⟩
      grind [Actor.without]
    · cases hstep
  | stop =>
    obtain rfl : _ = s' := Option.some_inj.mp hstep
    refine ⟨t, h.quiet rfl rfl fun c hc => ?_, .inl rfl⟩
    grind

/-- Every writer is linearized, over a store that it represents. -/
theorem represented_of_reachable (h : (writers env).Reachable s) :
    (∃ first, IsStore env first ∧ Actor.Linearized (Operation.execute env) writerCapacity first s) ∧
      ∃ t, (machine env).Reachable t ∧ Represents s t := by
  apply h.invariant (I := fun s =>
    (∃ first, IsStore env first ∧ Actor.Linearized (Operation.execute env) writerCapacity first s) ∧
      ∃ t, (machine env).Reachable t ∧ Represents s t)
  · rintro s ⟨first, hfirst, rfl⟩
    obtain ⟨t, ht, hdb⟩ := hfirst
    exact ⟨⟨first, ⟨t, ht, hdb⟩, Actor.Linearized.start⟩, t, ht, Represents.start hdb⟩
  · rintro s e s' _ ⟨⟨first, hfirst, hlinear⟩, t, ht, hrepresents⟩ hstep
    obtain ⟨hallows, hstep⟩ := Machine.restrict_step.mp hstep
    obtain ⟨t', hrepresents', hmoves⟩ := hrepresents.step hlinear hallows hstep
    refine ⟨⟨first, hfirst, hlinear.step hstep⟩, t', ?_, hrepresents'⟩
    cases hmoves with
    | inl hsame => exact hsame ▸ ht
    | inr hmoves =>
      obtain ⟨event, hevent⟩ := hmoves
      exact ht.step hevent

/-- A run of the writer is a run of the store, from every state that represents the writer. -/
theorem Represents.run (hs : (writers env).Reachable s) (h : Represents s t) (hrun : (writers env).Run s s') :
    ∃ t', Represents s' t' ∧ (machine env).Run t t' := by
  induction hrun with
  | refl => exact ⟨t, h, .refl⟩
  | @step u u' e hrun hstep ih =>
    obtain ⟨t', hrepresents, hstore⟩ := ih
    obtain ⟨⟨first, _, hlinear⟩, _⟩ := represented_of_reachable (hs.run hrun)
    obtain ⟨hallows, hstep⟩ := Machine.restrict_step.mp hstep
    obtain ⟨t'', hrepresents', hmoves⟩ := hrepresents.step hlinear hallows hstep
    refine ⟨t'', hrepresents', ?_⟩
    cases hmoves with
    | inl hsame => exact hsame ▸ hstore
    | inr hmoves =>
      obtain ⟨event, hevent⟩ := hmoves
      exact hstore.step hevent

/-- However handlers and workers interleave, whether they go away, and when the writer stops: the writer
    serves them one after the other, each is told once and what its request was answered, and the runs of
    the writer are runs of the store. -/
theorem writer_refines_store (h : (writers env).Reachable s) (hrun : (writers env).Run s s') :
    (∃ first, IsStore env first ∧ Actor.Linearized (Operation.execute env) writerCapacity first s') ∧
    (∃ t t', (machine env).Reachable t ∧ Represents s t ∧ Represents s' t' ∧ (machine env).Run t t') ∧
    Integrity s'.state := by
  obtain ⟨_, t, ht, hrepresents⟩ := represented_of_reachable h
  obtain ⟨t', hrepresents', hstore⟩ := hrepresents.run h hrun
  refine ⟨(represented_of_reachable (h.run hrun)).1, ⟨t, t', ht, hrepresents, hrepresents', hstore⟩, ?_⟩
  rw [← hrepresents'.db]
  exact integrity_of_reachable (ht.run hstore)

end Represents

/-- A writer on a new store after some events. -/
def writerAfter (events : List (Actor.Event Time Operation)) : Option Writer :=
  (afterCalls [.openStorage]).bind fun t => (writers unaryEnv).replay (Actor.start t.db) events

theorem writerAfter_run {events : List (Actor.Event Time Operation)} {s : Writer} (h : writerAfter events = some s) :
    ∃ t, afterCalls [.openStorage] = some t ∧ (writers unaryEnv).Reachable (Actor.start t.db) ∧
      (writers unaryEnv).Run (Actor.start t.db) s := by
  obtain ⟨t, ht, hreplay⟩ := Option.bind_eq_some_iff.mp h
  exact ⟨t, ht, .start ⟨t.db, ⟨t, afterCalls_reachable ht, rfl⟩, rfl⟩, .replay .refl hreplay⟩

/-- One caller stores a note, and when it was answered another one looks it up. A third one goes away. -/
def noteRead : List (Actor.Event Time Operation) :=
  [.call (.run (.upsertDocument "" (upsertOf "a fact"))), .call (.run .claimJob), .accept 0, .leave 1, .serve 63871286400,
    .reply 0, .call (.findDocument "" "x"), .accept 2, .serve 63871286401, .reply 2]

theorem writer_refines_store_noteRead : ∃ s t t', writerAfter noteRead = some s ∧ s.returned.length = 2 ∧
    (machine unaryEnv).Run t t' ∧ Represents s t' ∧ Integrity s.state := by
  have hnote : ∃ s ∈ writerAfter noteRead, s.returned.length = 2 := by decide +kernel
  obtain ⟨s, hs, hreturned⟩ := hnote
  obtain ⟨_, _, hstart, hrun⟩ := writerAfter_run hs
  obtain ⟨_, ⟨t, t', _, _, hrepresents, hstore⟩, hintegrity⟩ := writer_refines_store hstart hrun
  exact ⟨s, t, t', hs, hreturned, hstore, hrepresents, hintegrity⟩

-- ---------------------------------------------------------------------------
-- Reading what was written
-- ---------------------------------------------------------------------------

/-- The operation deletes neither this document nor one that it names in the organization. -/
def Operation.Spares (orgId id : String) : Operation → Prop
  | .run call => call.Spares orgId id
  | .findDocument _ _ => True

/-- What is stored stays stored under an operation that spares it. -/
theorem stored_execute {orgId id : String} {text : Option String} {operation : Operation} {now : Time} {db : Database}
    (h : DocumentStored orgId id text db) (hspares : operation.Spares orgId id)
    (hkeeps : text.isSome → ∀ input, operation ≠ .run (.upsertDocument orgId input)) :
    DocumentStored orgId id text (operation.execute env now db).2 := by
  cases operation with
  | run call =>
    apply h.call hspares
    intro htext input hcall
    exact hkeeps htext input (congrArg Operation.run hcall)
  | findDocument => exact h

/-- The reply to an upsert is there to be read. -/
theorem upserted_stored {orgId : String} {input : UpsertDocument} {result : UpsertResult} {now : Time} {db : Database}
    (h : ((Operation.run (.upsertDocument orgId input)).execute env now db).1 = .ran (.ok (.upserted result))) :
    UpsertStored orgId (sanitized input) result ((Operation.run (.upsertDocument orgId input)).execute env now db).2 := by
  simp only [Operation.execute, Call.run] at h ⊢
  cases hr : upsertDocumentFor env now orgId input db with
  | error e =>
    rw [hr] at h
    cases h
  | ok r =>
    obtain ⟨result', db'⟩ := r
    rw [hr] at h
    cases h
    exact upsert_stores hr

theorem stored_between {orgId id : String} {text : Option String} {db db' : Database}
    {between : List (Actor.Entry Time Operation Outcome)} {outcomes : List Outcome}
    (hbetween : Actor.serial (Operation.execute env) db (between.map fun e => (e.time, e.request)) = (outcomes, db'))
    (h : DocumentStored orgId id text db) (hspares : ∀ e ∈ between, e.request.Spares orgId id)
    (hkeeps : text.isSome → ∀ e ∈ between, ∀ input, e.request ≠ .run (.upsertDocument orgId input)) :
    DocumentStored orgId id text db' := by
  refine Actor.serial_invariant hbetween h fun input hinput db h => ?_
  obtain ⟨e, he, rfl⟩ := List.mem_map.mp hinput
  exact stored_execute h (hspares e he) fun htext => hkeeps htext e he

theorem found_of_stored {orgId id : String} {text : Option String} {now : Time} {db : Database}
    (h : DocumentStored orgId id text db) :
    ∃ d, ((Operation.findDocument orgId id).execute env now db).1 = .found (some d) ∧ d.id = id ∧ d.orgId = orgId ∧
      ∀ content ∈ text, d.content = content := by
  obtain ⟨d, hd, rfl, rfl, htext⟩ := h
  exact ⟨d, congrArg Outcome.found (findDocumentFor_id hd), rfl, rfl, htext⟩

/-- A client reads what it wrote. Once an upsert was answered with an identifier, a lookup of it that is made
    afterwards finds the document, unless a deletion was served in between. If the upsert queued the document,
    it has the text of the upsert, unless another upsert of the organization was served in between. -/
theorem read_your_writes {s : Writer} {r : Actor.Return Outcome} {e : Actor.Entry Time Operation Outcome}
    {orgId : String} {input : UpsertDocument} {result : UpsertResult} (h : (writers env).Reachable s)
    (hr : r ∈ s.returned) (hrequest : s.calls[r.caller]? = some (.run (.upsertDocument orgId input)))
    (hanswer : r.answer = some (.ran (.ok (.upserted result)))) (he : e ∈ s.history)
    (hlookup : e.request = .findDocument orgId result.id) (hcame : r.calls ≤ e.caller) :
    ∃ earlier upsert between later, s.history = earlier ++ upsert :: (between ++ e :: later) ∧
      upsert.caller = r.caller ∧ ((∀ e' ∈ between, e'.request.Spares orgId result.id) →
        ∃ d, e.answer = .found (some d) ∧ d.id = result.id ∧ d.orgId = orgId ∧
          (result.enqueued = true → (∀ e' ∈ between, ∀ input', e'.request ≠ .run (.upsertDocument orgId input')) →
            d.content = sanitizeContent input.content)) := by
  obtain ⟨⟨first, _, hlinear⟩, _⟩ := represented_of_reachable h
  obtain ⟨earlier, upsert, rest, hhistory, hcaller, hreply, hrest⟩ := hlinear.realTime hr hanswer he hcame
  obtain ⟨between, later, rfl⟩ := List.append_of_mem hrest
  refine ⟨earlier, upsert, between, later, hhistory, hcaller, fun hspares => ?_⟩
  have hupsert : upsert.request = .run (.upsertDocument orgId input) := by
    have hmem : upsert ∈ s.history := by
      rw [hhistory]
      exact List.mem_append_right _ List.mem_cons_self
    have hcalled := hlinear.requested upsert hmem
    rw [hcaller, hrequest] at hcalled
    exact (Option.some_inj.mp hcalled).symm
  have hserial := hlinear.serial
  rw [hhistory] at hserial
  obtain ⟨before, _, hupserted, hserial⟩ := Actor.serial_split hserial
  obtain ⟨after, hbetween, hfound, _⟩ := Actor.serial_split hserial
  rw [hreply, hupsert] at hupserted
  rw [hupsert] at hbetween
  rw [hlookup] at hfound
  have hstored := upserted_stored hupserted.symm
  by_cases hkeeps : result.enqueued = true ∧ ∀ e' ∈ between, ∀ input', e'.request ≠ .run (.upsertDocument orgId input')
  · obtain ⟨henqueued, hkeeps⟩ := hkeeps
    rw [UpsertStored, if_pos henqueued] at hstored
    obtain ⟨d, hd, hid, horg, htext⟩ := found_of_stored (stored_between hbetween hstored hspares fun _ => hkeeps)
    exact ⟨d, hfound.trans hd, hid, horg, fun _ _ => htext _ rfl⟩
  · have hstored := stored_between hbetween hstored.someText hspares fun h => absurd h Bool.false_ne_true
    obtain ⟨d, hd, hid, horg, _⟩ := found_of_stored hstored
    exact ⟨d, hfound.trans hd, hid, horg, fun henqueued h => absurd ⟨henqueued, h⟩ hkeeps⟩

theorem read_your_writes_noteRead : ∃ s ∈ writerAfter noteRead, ∃ e ∈ s.history, ∃ d,
    e.answer = .found (some d) ∧ d.id = "x" ∧ d.content = "a fact" := by
  have hnote : ∃ s ∈ writerAfter noteRead, s.history.length = 2 ∧ ∃ r ∈ s.returned, ∃ e ∈ s.history,
      s.calls[r.caller]? = some (.run (.upsertDocument "" (upsertOf "a fact"))) ∧
      r.answer = some (.ran (.ok (.upserted ⟨"x", .queued, true⟩))) ∧ e.request = .findDocument "" "x" ∧
      r.calls ≤ e.caller := by
    decide +kernel
  obtain ⟨s, hs, hlength, r, hr, e, he, hrequest, hanswer, hlookup, hcame⟩ := hnote
  obtain ⟨_, _, hstart, hrun⟩ := writerAfter_run hs
  obtain ⟨earlier, upsert, between, later, hhistory, _, hread⟩ :=
    read_your_writes (hstart.run hrun) hr hrequest hanswer he hlookup hcame
  have hnone : between = [] := by
    rw [hhistory] at hlength
    simp only [List.length_append, List.length_cons] at hlength
    exact List.length_eq_zero_iff.mp (by omega)
  rw [hnone] at hread
  have hsanitized : sanitizeContent "a fact" = "a fact" := by decide +kernel
  obtain ⟨d, hd, hid, _, hcontent⟩ := hread fun _ h => absurd h List.not_mem_nil
  exact ⟨s, hs, e, he, d, hd, hid, (hcontent rfl fun _ h => absurd h List.not_mem_nil).trans hsanitized⟩

end Server
