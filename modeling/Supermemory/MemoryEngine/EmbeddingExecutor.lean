-- SUMMARY: The embedding executor: microbatches of one call, the two bounded queues, and the batching loop of the scheduler.
import Mathlib.Data.List.SplitLengths
import Supermemory.Library.Machine
import Supermemory.Text

/-!
# The embedding executor

`embed_owned` prepares its texts, cuts them into microbatches, and submits one of them
after the other to the query queue or to the bulk queue. One scheduler takes requests
from the two queues, merges what fits into one batch for the model, and hands the
vectors back by counting off what belongs to each request.

Every point at which a task may be suspended is a step of its own: a send to a bounded
queue, a reply, a turn of the scheduler's loop, and the inference. The handle of the
executor stays alive, so that the queues are never closed.
-/

namespace Embedding

def maxUtf16Units : Nat := 8000

/-- The characters of a text as long as their units fit, after some units. -/
def takeUtf16 (maximum units : Nat) : Text → Text
  | [] => []
  | c :: rest =>
    let next := units + Text.lenUtf16 c
    if maximum < next then [] else c :: takeUtf16 maximum next rest

def truncateUtf16 (value : Text) (maximum : Nat) : Text :=
  if Text.utf16Len value ≤ maximum then value else takeUtf16 maximum 0 value

/-- Tokenized input. The encoding itself is a function of the text. -/
structure PreparedEmbeddingInput where
  text : Text
  tokenCount : Nat
  deriving DecidableEq

/-- A text with its embedding. -/
structure EmbeddedText (V : Type*) where
  text : Text
  vector : V
  deriving DecidableEq

/-- A tokenizer and an inference session. What an inference returns may differ from one attempt to
    the next, but a batch that succeeds has one vector for each input, in order, and each vector
    depends on its own input only. An error of the model is known by its text. -/
structure EmbeddingModel (V : Type*) where
  tokenize : Text → Except String Nat
  vector : Text → V
  embedPrepared : Nat → List PreparedEmbeddingInput → Except String (List V)
  inOrder : ∀ attempt values vectors, embedPrepared attempt values = .ok vectors →
    vectors = values.map fun value => vector value.text

inductive EmbeddingExecutorError where
  | closed
  | tooManyTokens (maximum actual : Nat)
  | batchFailed (message : String)
  | embedding (error : String)
  deriving DecidableEq

def EmbeddingExecutorError.toString : EmbeddingExecutorError → String
  | closed => "embedding executor has stopped"
  | tooManyTokens maximum actual =>
    "embedding request has " ++ Nat.repr actual ++ " estimated tokens; maximum is " ++ Nat.repr maximum
  | batchFailed message => "embedding batch failed: " ++ message
  | embedding error => "embedding inference failed: " ++ error

/-- The limits of an executor. A channel without capacity is refused. -/
structure Limits where
  queueCapacity : Nat
  maxItems : Nat
  maxPaddedTokens : Nat
  capacity_pos : 0 < queueCapacity

variable {V : Type*}

def EmbeddingModel.prepare (model : EmbeddingModel V) (value : Text) :
    Except EmbeddingExecutorError PreparedEmbeddingInput :=
  let text := truncateUtf16 value maxUtf16Units
  match model.tokenize text with
  | .ok tokenCount => .ok { text, tokenCount }
  | .error error => .error (.embedding error)

-- ---------------------------------------------------------------------------
-- Microbatches
-- ---------------------------------------------------------------------------

/-- The state of the loop of `microbatch_lengths`. An encoding has at most 512 tokens, and fewer than
    2 ^ 55 prepared inputs fit in memory, so that no product of the two wraps around. -/
structure Microbatching where
  batches : List Nat := []
  items : Nat := 0
  longest : Nat := 1

/-- One turn of the loop. -/
def Microbatching.next (maxItems maxPaddedTokens : Nat) (m : Microbatching) (tokens : Nat) :
    Except EmbeddingExecutorError Microbatching :=
  if maxPaddedTokens < tokens then .error (.tooManyTokens maxPaddedTokens tokens)
  else
    let nextItems := m.items + 1
    let nextLongest := max m.longest tokens
    if 0 < m.items ∧ (maxItems < nextItems ∨ maxPaddedTokens < nextItems * nextLongest) then
      .ok { batches := m.batches ++ [m.items], items := 1, longest := max 1 tokens }
    else .ok { m with items := nextItems, longest := nextLongest }

def Microbatching.run (maxItems maxPaddedTokens : Nat) (m : Microbatching) :
    List Nat → Except EmbeddingExecutorError Microbatching
  | [] => .ok m
  | tokens :: rest => do
    let m ← m.next maxItems maxPaddedTokens tokens
    run maxItems maxPaddedTokens m rest

/-- The batches of a loop that ends here. -/
def Microbatching.finish (m : Microbatching) : List Nat :=
  if 0 < m.items then m.batches ++ [m.items] else m.batches

/-- Ordered, length-aware bounded microbatch sizes. -/
def microbatchLengths (lengths : List Nat) (maxItems maxPaddedTokens : Nat) :
    Except EmbeddingExecutorError (List Nat) :=
  (Microbatching.run maxItems maxPaddedTokens {} lengths).map (·.finish)

-- ---------------------------------------------------------------------------
-- Calls and requests
-- ---------------------------------------------------------------------------

/-- Scheduling class for embedding work. -/
inductive EmbeddingPriority where
  | query
  | document
  | memory
  | warmup
  deriving DecidableEq

/-- A submitted microbatch, known by its reply channel. The priority of the caller is not part of
    the source's request: it is what chose the queue. -/
structure Request where
  reply : Nat
  priority : EmbeddingPriority
  values : List PreparedEmbeddingInput
  deriving DecidableEq

/-- `unwrap_or(1)` of the maximum. -/
def Request.maxItemTokens (r : Request) : Nat :=
  ((r.values.map (·.tokenCount)).max?).getD 1

/-- Where a call of `embed_owned` is. -/
inductive Progress (V : Type*) where
  | submitting (output : List (EmbeddedText V)) (piece : List PreparedEmbeddingInput)
      (pieces : List (List PreparedEmbeddingInput))
  | awaiting (output : List (EmbeddedText V)) (reply : Nat) (pieces : List (List PreparedEmbeddingInput))
  | returned (result : Except EmbeddingExecutorError (List (EmbeddedText V)))
  | dropped

structure EmbedCall (V : Type*) where
  priority : EmbeddingPriority
  values : List Text
  progress : Progress V

/-- Goes on with the pieces that are left. -/
def Progress.proceed (output : List (EmbeddedText V)) : List (List PreparedEmbeddingInput) → Progress V
  | [] => returned (.ok output)
  | piece :: pieces => submitting output piece pieces

/-- `embed_owned` up to its first send. -/
def Progress.start (model : EmbeddingModel V) (limits : Limits) (values : List Text) : Progress V :=
  match values.mapM model.prepare with
  | .error error => returned (.error error)
  | .ok prepared =>
    match microbatchLengths (prepared.map (·.tokenCount)) limits.maxItems limits.maxPaddedTokens with
    | .error error => returned (.error error)
    | .ok counts => proceed [] (counts.splitLengths prepared)

-- ---------------------------------------------------------------------------
-- The scheduler
-- ---------------------------------------------------------------------------

/-- Requests with the class of the queue that each of them was received from. -/
abbrev Requests := List (EmbeddingPriority × Request)

/-- Where the loop of the scheduler is. -/
inductive Phase where
  | selecting
  | waiting
  | merging (priority : EmbeddingPriority) (requests : Requests) (items longest : Nat)
  | inferring (priority : EmbeddingPriority) (requests : Requests)
  deriving DecidableEq

/-- The requests that the scheduler holds. -/
def Phase.requests : Phase → Requests
  | .selecting | .waiting => []
  | .merging _ requests _ _ | .inferring _ requests => requests

/-- A batch that was handed to the model, and whether bulk work was waiting at the start of its
    iteration. -/
structure Batch where
  priority : EmbeddingPriority
  requests : Requests
  bulkWaiting : Bool
  deriving DecidableEq

def Batch.values (b : Batch) : List PreparedEmbeddingInput := b.requests.flatMap (·.2.values)

/-- What is sent to a reply channel. -/
abbrev Reply (V : Type*) := Except EmbeddingExecutorError (List (EmbeddedText V))

structure Executor (V : Type*) where
  calls : List (EmbedCall V) := []
  query : List Request := []
  bulk : List Request := []
  deferred : Option (EmbeddingPriority × Request) := none
  /-- The source saturates it at the largest `usize`, and only compares it with 4. -/
  queryBurst : Nat := 0
  phase : Phase := .selecting
  answers : List (Request × Reply V) := []
  /-- Every request that was submitted. -/
  submitted : List Request := []
  /-- Every batch that was handed to the model. -/
  batches : List Batch := []
  /-- Bulk work was waiting at the start of this iteration. -/
  bulkWaiting : Bool := false

namespace Executor

/-- `query.try_recv()`. -/
def receiveQuery (s : Executor V) : Option ((EmbeddingPriority × Request) × Executor V) :=
  match s.query with
  | [] => none
  | request :: rest => some ((.query, request), { s with query := rest })

/-- `bulk.try_recv()`. -/
def receiveBulk (s : Executor V) : Option ((EmbeddingPriority × Request) × Executor V) :=
  match s.bulk with
  | [] => none
  | request :: rest => some ((.document, request), { s with bulk := rest })

/-- The request that an iteration starts with, when there is one. -/
def nextRequest (s : Executor V) : Option ((EmbeddingPriority × Request) × Executor V) :=
  match s.deferred with
  | some request => some (request, { s with deferred := none })
  | none => (if 4 ≤ s.queryBurst then s.receiveBulk else none) <|> s.receiveQuery <|> s.receiveBulk

/-- Starts a batch with a request. -/
def start (received : (EmbeddingPriority × Request) × Executor V) : Executor V :=
  let (priority, request) := received.1
  { received.2 with
    queryBurst := if priority = .query then received.2.queryBurst + 1 else 0
    phase := .merging priority [(priority, request)] request.values.length request.maxItemTokens }

/-- The top of the loop. -/
def select (s : Executor V) : Executor V :=
  let s := { s with bulkWaiting := !s.bulk.isEmpty }
  match s.nextRequest with
  | some received => start received
  | none => { s with phase := .waiting }

/-- Hands the batch to the model. -/
def execute (priority : EmbeddingPriority) (requests : Requests) (s : Executor V) : Executor V :=
  { s with
    phase := .inferring priority requests
    batches := s.batches ++ [{ priority, requests, bulkWaiting := s.bulkWaiting }] }

/-- One turn of the merge loop. Queries are never merged with bulk work. -/
def merge (limits : Limits) (priority : EmbeddingPriority) (requests : Requests) (items longest : Nat)
    (s : Executor V) : Executor V :=
  if items < limits.maxItems then
    match if priority = .query then s.receiveQuery else s.receiveBulk with
    | none => s.execute priority requests
    | some (next, s) =>
      let items := items + next.2.values.length
      let longest := max longest next.2.maxItemTokens
      if limits.maxItems < items ∨ limits.maxPaddedTokens < items * longest then
        { s with deferred := some next }.execute priority requests
      else { s with phase := .merging priority (requests ++ [next]) items longest }
  else s.execute priority requests

/-- How an inference ends: the model returns, or its blocking task panics. -/
inductive Inference where
  | completed (attempt : Nat)
  | panicked

/-- Counts off the values and the vectors of each request. -/
def distribute : Requests → List PreparedEmbeddingInput → List V → List (Request × Reply V)
  | [], _, _ => []
  | (_, request) :: requests, values, vectors =>
    let count := request.values.length
    (request, .ok (List.zipWith (fun input vector => { text := input.text, vector })
      (values.take count) (vectors.take count))) ::
        distribute requests (values.drop count) (vectors.drop count)

/-- The same error for each request of the batch. -/
def failBatch (requests : Requests) (error : EmbeddingExecutorError) : List (Request × Reply V) :=
  requests.map fun request => (request.2, .error (.batchFailed error.toString))

/-- The replies to the requests of a batch. -/
def replies (model : EmbeddingModel V) (requests : Requests) : Inference → List (Request × Reply V)
  | .completed attempt =>
    let values := requests.flatMap (·.2.values)
    match model.embedPrepared attempt values with
    | .ok vectors => distribute requests values vectors
    | .error error => failBatch requests (.embedding error)
  | .panicked => failBatch requests .closed

-- ---------------------------------------------------------------------------
-- The machine
-- ---------------------------------------------------------------------------

/-- Replaces the progress of a call. -/
def setProgress (s : Executor V) (i : Nat) (c : EmbedCall V) (progress : Progress V) : Executor V :=
  { s with calls := s.calls.set i { c with progress } }

/-- Sends a request to the queue of its priority. -/
def send (request : Request) (s : Executor V) : Executor V :=
  let s := { s with submitted := s.submitted ++ [request] }
  if request.priority = .query then { s with query := s.query ++ [request] }
  else { s with bulk := s.bulk ++ [request] }

/-- The queue of a priority has room. -/
def HasRoom (limits : Limits) (priority : EmbeddingPriority) (s : Executor V) : Prop :=
  (if priority = .query then s.query else s.bulk).length < limits.queueCapacity

instance (limits : Limits) (priority : EmbeddingPriority) (s : Executor V) :
    Decidable (s.HasRoom limits priority) :=
  inferInstanceAs (Decidable (_ < _))

/-- The reply that was sent to a reply channel. -/
def answer (s : Executor V) (reply : Nat) : Option (Reply V) :=
  (s.answers.find? fun answer => answer.1.reply = reply).map (·.2)

inductive Event where
  /-- Calls `embed_owned`. -/
  | call (priority : EmbeddingPriority) (values : List Text)
  /-- A call sends its next piece. -/
  | submit (i : Nat)
  /-- A call gets the reply that it awaits. -/
  | receive (i : Nat)
  /-- The future of a call is dropped. -/
  | drop (i : Nat)
  /-- The scheduler is at the top of its loop. -/
  | select
  /-- `select!` gets a request. -/
  | wake
  | merge
  | infer (inference : Inference)

/-- Where a call goes on with the reply to its request. -/
def resume (output : List (EmbeddedText V)) (pieces : List (List PreparedEmbeddingInput)) :
    Reply V → Progress V
  | .ok embedded => .proceed (output ++ embedded) pieces
  | .error error => .returned (.error error)

/-- One step of a caller or of the scheduler. -/
def step (model : EmbeddingModel V) (limits : Limits) (s : Executor V) : Event → Option (Executor V)
  | .call priority values =>
    some { s with calls := s.calls ++ [{ priority, values, progress := .start model limits values }] }
  | .submit i => do
    let c ← s.calls[i]?
    match c.progress with
    | .submitting output piece pieces =>
      if s.HasRoom limits c.priority then
        let reply := s.submitted.length
        some ((s.setProgress i c (.awaiting output reply pieces)).send
          { reply, priority := c.priority, values := piece })
      else none
    | _ => none
  | .receive i => do
    let c ← s.calls[i]?
    match c.progress with
    | .awaiting output reply pieces => do
      let answer ← s.answer reply
      some (s.setProgress i c (resume output pieces answer))
    | _ => none
  | .drop i => do
    let c ← s.calls[i]?
    match c.progress with
    | .submitting .. | .awaiting .. => some (s.setProgress i c .dropped)
    | _ => none
  | .select => if s.phase = .selecting then some s.select else none
  | .wake => do
    if s.phase = .waiting then
      let received ← s.receiveQuery <|> s.receiveBulk
      some (start received)
    else none
  | .merge =>
    match s.phase with
    | .merging priority requests items longest => some (s.merge limits priority requests items longest)
    | _ => none
  | .infer inference =>
    match s.phase with
    | .inferring _ requests =>
      some { s with phase := .selecting, answers := s.answers ++ replies model requests inference }
    | _ => none

end Executor

/-- An executor and its callers. -/
def executors (model : EmbeddingModel V) (limits : Limits) : Machine (Executor V) Executor.Event where
  init s := s = {}
  step s event := s.step model limits event

end Embedding
