-- SUMMARY: The pool of read connections: no connection is shared, and reads go to the writer only in place of a connection that is not there.
import Mathlib.Data.List.Nodup
import Supermemory.Library.Actor

/-!
# The readers

Searches read on connections of a pool. An operation takes a permit first and then the
connection that was returned last. It gives the connection back before the permit, and a
connection on which an operation panicked is not given back at all. An operation that
finds no connection is sent to the writer and keeps its permit until the writer replies.
-/

namespace Server

/-- The connections that `ServerRuntime::with_limits` tries to open. -/
def searchConnections : Nat := 5

/-- The pool. Connections and operations are numbered as they come. -/
structure Readers where
  permits : Nat
  /-- The idle connections, the one that was returned last first. -/
  connections : List Nat
  operations : Nat
  /-- The operations that wait for a permit. -/
  waiting : List Nat
  /-- The operations that run on a connection. -/
  reading : List (Nat × Nat)
  /-- The operations that the writer was asked to run. -/
  writing : List Nat
  /-- The operations that are done with their connection and still have their permit. -/
  ending : List Nat
  /-- The connections on which an operation panicked. -/
  lost : List Nat
  deriving DecidableEq

namespace Readers

inductive Event where
  | execute
  /-- A waiting operation gets a permit, and a connection if there is one. -/
  | start (operation : Nat)
  /-- An operation returns its connection. -/
  | finish (operation : Nat)
  | panic (operation : Nat)
  /-- The permit of a blocking task is dropped with the task. -/
  | release (operation : Nat)
  /-- The writer replies, or has stopped. -/
  | reply (operation : Nat)
  /-- The caller goes away. What runs on a connection runs on. -/
  | cancel (operation : Nat)
  deriving DecidableEq

/-- The pool with the connections that could be opened. There is one permit at least. -/
def ofConnections (count : Nat) : Readers :=
  { permits := max count 1, connections := List.range count, operations := 0, waiting := [], reading := [], writing := [],
    ending := [], lost := [] }

def step (s : Readers) : Event → Option Readers
  | .execute => some { s with operations := s.operations + 1, waiting := s.waiting ++ [s.operations] }
  | .start operation =>
    if operation ∈ s.waiting ∧ 0 < s.permits then
      let s := { s with permits := s.permits - 1, waiting := s.waiting.erase operation }
      match s.connections with
      | connection :: rest => some { s with connections := rest, reading := (operation, connection) :: s.reading }
      | [] => some { s with writing := operation :: s.writing }
    else none
  | .finish operation =>
    match s.reading.lookup operation with
    | some connection =>
      some { s with
        connections := connection :: s.connections
        reading := s.reading.erase (operation, connection)
        ending := operation :: s.ending }
    | none => none
  | .panic operation =>
    match s.reading.lookup operation with
    | some connection =>
      some { s with
        lost := connection :: s.lost
        reading := s.reading.erase (operation, connection)
        ending := operation :: s.ending }
    | none => none
  | .release operation =>
    if operation ∈ s.ending then
      some { s with permits := s.permits + 1, ending := s.ending.erase operation }
    else none
  | .reply operation =>
    if operation ∈ s.writing then
      some { s with permits := s.permits + 1, writing := s.writing.erase operation }
    else none
  | .cancel operation =>
    if operation ∈ s.waiting then some { s with waiting := s.waiting.erase operation }
    else if operation ∈ s.writing then
      some { s with permits := s.permits + 1, writing := s.writing.erase operation }
    else some s

end Readers

/-- The pools of servers that could open some of the connections. -/
def readers : Machine Readers Readers.Event where
  init s := ∃ count ≤ searchConnections, s = .ofConnections count
  step := Readers.step

namespace Readers

variable {s s' : Readers} {count : Nat}

/-- Where a connection is: idle, in use, or lost. -/
def places (s : Readers) (connection : Nat) : Nat :=
  s.connections.count connection + (s.reading.map (·.2)).count connection + s.lost.count connection

/-- Every connection is in one place, and every permit too. -/
structure Balanced (count : Nat) (s : Readers) : Prop where
  permits : s.permits + s.reading.length + s.writing.length + s.ending.length = max count 1
  connections : s.connections.length + s.reading.length + s.lost.length = count
  place : ∀ connection, s.places connection = if connection < count then 1 else 0
  writing : s.writing.length + count ≤ s.lost.length + max count 1

theorem Balanced.start : Balanced count (ofConnections count) where
  permits := by simp [ofConnections]
  connections := by simp [ofConnections]
  place connection := by simp [ofConnections, places, List.count_range]
  writing := by
    simp only [ofConnections, List.length_nil]
    omega

/-- A connection that is given back or lost is not in use any more. -/
theorem count_reading_erase {reading : List (Nat × Nat)} {operation connection a : Nat}
    (h : (operation, connection) ∈ reading) :
    (reading.map (·.2)).count a =
      ((reading.erase (operation, connection)).map (·.2)).count a + if connection = a then 1 else 0 := by
  have hperm := ((List.perm_cons_erase h).map (·.2)).count_eq a
  simpa [List.count_cons] using hperm

theorem Balanced.step {e : Event} (h : Balanced count s) (hstep : s.step e = some s') : Balanced count s' := by
  obtain ⟨hpermits, hconnections, hplace, hwriting⟩ := h
  cases e with
  | execute =>
    cases hstep
    exact ⟨hpermits, hconnections, hplace, hwriting⟩
  | start operation =>
    simp only [Readers.step] at hstep
    split at hstep
    · rename_i hwaits
      split at hstep
      · rename_i connection rest heq
        cases hstep
        constructor <;> grind [places]
      · rename_i heq
        cases hstep
        constructor <;> grind [places]
    · cases hstep
  | finish operation =>
    simp only [Readers.step] at hstep
    split at hstep
    · rename_i connection hlookup
      have hmem := Actor.mem_of_lookup hlookup
      have hcount := fun a => count_reading_erase (a := a) hmem
      cases hstep
      constructor <;> grind [places]
    · cases hstep
  | panic operation =>
    simp only [Readers.step] at hstep
    split at hstep
    · rename_i connection hlookup
      have hmem := Actor.mem_of_lookup hlookup
      have hcount := fun a => count_reading_erase (a := a) hmem
      cases hstep
      constructor <;> grind [places]
    · cases hstep
  | release operation =>
    simp only [Readers.step] at hstep
    split at hstep
    · cases hstep
      constructor <;> grind [places]
    · cases hstep
  | reply operation =>
    simp only [Readers.step] at hstep
    split at hstep
    · cases hstep
      constructor <;> grind [places]
    · cases hstep
  | cancel operation =>
    simp only [Readers.step] at hstep
    split at hstep
    · cases hstep
      exact ⟨hpermits, hconnections, hplace, hwriting⟩
    · split at hstep
      · cases hstep
        constructor <;> grind [places]
      · cases hstep
        exact ⟨hpermits, hconnections, hplace, hwriting⟩

theorem balanced_of_reachable (h : readers.Reachable s) : ∃ count ≤ searchConnections, Balanced count s := by
  apply h.invariant (I := fun s => ∃ count ≤ searchConnections, Balanced count s)
  · rintro s ⟨count, hcount, rfl⟩
    exact ⟨count, hcount, .start⟩
  · rintro s e s' _ ⟨count, hcount, hs⟩ hstep
    exact ⟨count, hcount, hs.step hstep⟩

theorem Balanced.place_le (h : Balanced count s) (connection : Nat) : s.places connection ≤ 1 := by
  rw [h.place connection]
  split
  · exact Nat.le_refl 1
  · exact Nat.zero_le 1

theorem Balanced.reading_nodup (h : Balanced count s) : (s.reading.map (·.2)).Nodup := by
  rw [List.nodup_iff_count_le_one]
  intro connection
  have hplace := h.place_le connection
  unfold places at hplace
  omega

theorem Balanced.reading_exclusive (h : Balanced count s) {r : Nat × Nat} (hr : r ∈ s.reading) :
    r.2 ∉ s.connections ∧ r.2 ∉ s.lost := by
  have hplace := h.place_le r.2
  have hreads : 0 < (s.reading.map (·.2)).count r.2 := List.count_pos_iff.mpr (List.mem_map_of_mem hr)
  unfold places at hplace
  constructor
  · intro hidle
    have hidle := List.count_pos_iff.mpr hidle
    omega
  · intro hlost
    have hlost := List.count_pos_iff.mpr hlost
    omega

/-- Nothing leaks: when nothing runs, all permits are back, and all connections but the lost ones. -/
theorem Balanced.quiet (h : Balanced count s) (hreading : s.reading = []) (hwriting : s.writing = [])
    (hending : s.ending = []) : s.permits = max count 1 ∧ ∀ c < count, c ∈ s.connections ∨ c ∈ s.lost := by
  obtain ⟨hpermits, _, hplace, _⟩ := h
  rw [hreading, hwriting, hending] at hpermits
  refine ⟨hpermits, fun c hc => ?_⟩
  have hone := hplace c
  rw [if_pos hc, places, hreading] at hone
  simp only [List.map_nil, List.count_nil, Nat.add_zero] at hone
  by_cases hidle : c ∈ s.connections
  · exact .inl hidle
  · rw [List.count_eq_zero.mpr hidle, Nat.zero_add] at hone
    exact .inr (List.count_pos_iff.mp (hone ▸ Nat.one_pos))

/-- Two reads run at once, one of them panics, and a third one takes the connection of the other. -/
def panicked : Option Readers :=
  readers.replay (ofConnections 2)
    [.execute, .execute, .start 0, .start 1, .panic 1, .release 1, .execute, .finish 0, .start 2]

end Readers

end Server
