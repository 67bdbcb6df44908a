import Mathlib.Data.List.Basic
import Mathlib.Tactic
import Ally.Text
import Ally.Interaction

/-!
# Conversation history in MongoDB

The operations of the history store as programs over the driver's calls, and the server:
an update with `$push` and `$slice` is atomic, an upsert that found no document inserts
one in a later step, and the unique index lets one document of a conversation exist.
A client that no longer waits for a reply leaves its request with the server.
-/

namespace Ally.Chat

open Interaction

inductive Role
  | user
  | assistant
  deriving DecidableEq, Repr

structure ChatMessage where
  role : Role
  content : String
  deriving DecidableEq, Repr

inductive HistoryError
  | unavailable (message : String)
  | input (message : String)
  deriving DecidableEq, Repr

structure HistorySettings where
  max_messages : ℕ
  message_max_bytes : ℕ
  max_messages_bounds : 2 ≤ max_messages ∧ max_messages ≤ 1000
  message_max_bytes_bounds : 1024 ≤ message_max_bytes ∧ message_max_bytes ≤ 262144
  complete_pairs : max_messages % 2 = 0
  bounded_retention : max_messages * message_max_bytes ≤ 8 * 1024 * 1024

/-- The settings of an empty environment. -/
def defaultSettings : HistorySettings where
  max_messages := 20
  message_max_bytes := 65536
  max_messages_bounds := by decide
  message_max_bytes_bounds := by decide
  complete_pairs := by decide
  bounded_retention := by decide

/-- The unique key of the collection. -/
structure Conversation where
  tenant_id : String
  conversation_id : String
  deriving DecidableEq, Repr

def validIdentity (value : String) : Bool :=
  !Text.blank value && decide (value.length ≤ 128) && value.toList.all fun c => 32 ≤ c.toNat

def validateIdentity (query : Conversation) : Except HistoryError Unit :=
  if validIdentity query.tenant_id && validIdentity query.conversation_id then .ok ()
  else .error (.input "Invalid conversation identity")

section store

variable (settings : HistorySettings)

def historyLimit (value : Option ℤ) (pair : Bool) : Except HistoryError ℕ :=
  let limit := value.getD settings.max_messages
  if limit < 1 ∨ 1000 < limit then .error (.input "Invalid history message limit")
  else if pair ∧
      (limit < 2 ∨ limit % 2 ≠ 0 ∨ 8 * 1024 * 1024 < limit * settings.message_max_bytes) then
    .error (.input "Exchange retention requires a bounded number of complete pairs")
  else .ok limit.toNat

def validateContent (value : String) : Except HistoryError Unit :=
  if settings.message_max_bytes < value.length ∨
      settings.message_max_bytes < value.utf8ByteSize then
    .error (.input "History message exceeds its content budget")
  else .ok ()

/-- What a client asks of the store's lock and of the server. -/
inductive Effect
  | enter
  | updateOne (query : Conversation) (each : List ChatMessage) (slice : ℕ) (upsert : Bool)
  | findOne (query : Conversation) (slice : ℕ)
  | deleteOne (query : Conversation)
  deriving DecidableEq

inductive Entry
  | entered
  | closed
  | exhausted
  | mongo
  deriving DecidableEq

/-- A `PyMongoError`. -/
inductive MongoError
  | duplicateKey
  | other
  deriving DecidableEq

structure UpdateResult where
  acknowledged : Bool
  matched_count : ℕ
  deriving DecidableEq

@[reducible] def Answer : Effect → Type
  | .enter => Entry
  | .updateOne .. => Except MongoError UpdateResult
  | .findOne .. => Except MongoError (Option (List ChatMessage))
  | .deleteOne .. => Except MongoError Unit

inductive Exn
  | mongo (e : MongoError)
  | history (e : HistoryError)
  deriving DecidableEq

abbrev Store := Action Effect Answer Exn

def unavailable {α : Type} (message : String) : Store α :=
  throw (.history (.unavailable message))

def checked {α : Type} (x : Except HistoryError α) : Store α :=
  fromExcept (x.mapError .history)

def entered {α : Type} (body : Store α) : Entry → Store α
  | .closed => unavailable "History store is closed"
  | .exhausted => unavailable "History capacity is exhausted"
  | .mongo => throw (.mongo .other)
  | .entered => body

/-- `MongoHistoryStore._operation` around the body of its `with`. -/
def operation {α : Type} (body : Store α) : Store α :=
  tryCatch (do
    let entry ← act Effect.enter
    entered body entry)
  fun e => match e with
    | .mongo _ => unavailable "History operation was not confirmed"
    | .history e => throw (.history e)

def updateOne (query : Conversation) (each : List ChatMessage) (slice : ℕ) (upsert : Bool) :
    Store UpdateResult :=
  call (.updateOne query each slice upsert) fun r => r.mapError .mongo

def updateWinner (query : Conversation) (messages : List ChatMessage) (limit : ℕ) :
    Store UpdateResult := do
  let result ← updateOne query messages limit false
  if !result.acknowledged || result.matched_count != 1 then
    unavailable "Concurrent history creation was not confirmed"
  else pure result

/-- `MongoHistoryStore._append`. -/
def append (query : Conversation) (messages : List ChatMessage) (limit : ℕ) : Store Unit :=
  if 8 * 1024 * 1024 < limit * settings.message_max_bytes then
    throw (.history (.input "History retention exceeds its content budget"))
  else operation do
    let result ← tryCatch (updateOne query messages limit true) fun e => match e with
      | .mongo .duplicateKey => updateWinner query messages limit
      | e => throw e
    if !result.acknowledged then unavailable "History write acknowledgement is required"
    else pure ()

/-- The two messages of an exchange. -/
def pair (user assistant : String) : List ChatMessage :=
  [⟨.user, user⟩, ⟨.assistant, assistant⟩]

def appendExchange (query : Conversation) (user assistant : String) (max_messages : Option ℤ) :
    Store Unit := do
  checked (validateIdentity query)
  checked (validateContent settings user)
  checked (validateContent settings assistant)
  let limit ← checked (historyLimit settings max_messages true)
  append settings query (pair user assistant) limit

/-- `MongoHistoryStore._messages`: what is stored must meet the content budget. -/
def storedMessages (document : Option (List ChatMessage)) :
    Except HistoryError (List ChatMessage) :=
  let raw := document.getD []
  if raw.all fun m => (validateContent settings m.content).toOption.isSome then .ok raw
  else .error (.unavailable "Stored history exceeds its content contract")

def getHistory (query : Conversation) (max_messages : Option ℤ) : Store (List ChatMessage) := do
  checked (validateIdentity query)
  let limit ← checked (historyLimit settings max_messages false)
  let document ← operation (call (.findOne query limit) fun r => r.mapError .mongo)
  checked (storedMessages settings document)

def clearHistory (query : Conversation) : Store Unit := do
  checked (validateIdentity query)
  operation (call (.deleteOne query) fun r => r.mapError .mongo)

/-! ### Sessions and the server -/

/-- What a session calls. -/
inductive Call
  | appendExchange (query : Conversation) (user assistant : String) (max_messages : Option ℤ)
  | getHistory (query : Conversation) (max_messages : Option ℤ)
  | clearHistory (query : Conversation)
  deriving DecidableEq

/-- What a call returns: nothing, or the messages read. -/
abbrev Returned := Option (List ChatMessage)

abbrev Remaining := Program Effect Answer (Except Exn Returned)

def Call.program : Call → Remaining
  | .appendExchange query user assistant max_messages => ExceptT.run do
      Chat.appendExchange settings query user assistant max_messages
      pure none
  | .getHistory query max_messages => ExceptT.run do
      let messages ← Chat.getHistory settings query max_messages
      pure (some messages)
  | .clearHistory query => ExceptT.run do
      Chat.clearHistory query
      pure none

structure Session where
  call : Call
  program : Remaining
  awaiting : Option ℕ

inductive Phase (e : Effect)
  | pending
  | inserting
  | replied (r : Answer e)

structure Request where
  session : ℕ
  effect : Effect
  phase : Phase effect

/-- What the server did to the collection, for the statements only. -/
inductive Event
  | pushed (query : Conversation) (session : ℕ)
  | deleted (query : Conversation)
  deriving DecidableEq

structure State where
  sessions : List Session
  requests : List Request
  documents : Conversation → Option (List ChatMessage)
  events : List Event

def State.initial : State := ⟨[], [], fun _ => none, []⟩

/-- The last `n` elements, as `$slice: -n` keeps them. -/
def lastN {α : Type*} (n : ℕ) (l : List α) : List α := l.drop (l.length - n)

inductive Step
  | start (call : Call)
  | enter (session : ℕ) (entry : Entry)
  | send (session : ℕ)
  | serve (request : ℕ)
  | find (request : ℕ)
  | reply (session : ℕ)
  | giveUp (session : ℕ)
  deriving DecidableEq

/-- The answer of the driver when it stops waiting. -/
def timedOut : (e : Effect) → Answer e
  | .enter => .mongo
  | .updateOne .. => .error .other
  | .findOne .. => .error .other
  | .deleteOne .. => .error .other

def State.addSession (s : State) (session : Session) : State :=
  { s with sessions := s.sessions ++ [session] }

def State.setSession (s : State) (i : ℕ) (session : Session) : State :=
  { s with sessions := s.sessions.set i session }

def State.addRequest (s : State) (request : Request) : State :=
  { s with requests := s.requests ++ [request] }

def State.setPhase (s : State) (rid i : ℕ) (e : Effect) (phase : Phase e) : State :=
  { s with requests := s.requests.set rid ⟨i, e, phase⟩ }

/-- `$push` with `$each` and `$slice`, on the document or on a new one. -/
def State.push (s : State) (query : Conversation) (each : List ChatMessage) (slice i : ℕ) :
    State :=
  { s with
    documents := Function.update s.documents query
      (some (lastN slice ((s.documents query).getD [] ++ each)))
    events := s.events ++ [.pushed query i] }

def State.delete (s : State) (query : Conversation) : State :=
  { s with
    documents := Function.update s.documents query none
    events := s.events ++ [.deleted query] }

/-- One server step of the update that session `i` requested. -/
def State.serveUpdate (s : State) (rid i : ℕ) (query : Conversation) (each : List ChatMessage)
    (slice : ℕ) (upsert : Bool) : Phase (.updateOne query each slice upsert) → Option State :=
  let setPhase (s : State) (phase : Phase (.updateOne query each slice upsert)) :=
    some (s.setPhase rid i _ phase)
  let pushed := s.push query each slice i
  fun
  | .pending =>
      if (s.documents query).isSome then setPhase pushed (.replied (.ok ⟨true, 1⟩))
      else if upsert then setPhase s .inserting
      else setPhase s (.replied (.ok ⟨true, 0⟩))
  | .inserting =>
      if (s.documents query).isSome then setPhase s (.replied (.error .duplicateKey))
      else setPhase pushed (.replied (.ok ⟨true, 0⟩))
  | .replied _ => none

/-- One server step of a request. -/
def State.serve (s : State) (rid i : ℕ) : (e : Effect) → Phase e → Option State
  | .updateOne query each slice upsert, phase =>
      s.serveUpdate rid i query each slice upsert phase
  | .findOne query slice, .pending =>
      some (s.setPhase rid i (.findOne query slice)
        (.replied (.ok ((s.documents query).map (lastN slice)))))
  | .deleteOne query, .pending =>
      some ((s.delete query).setPhase rid i (.deleteOne query) (.replied (.ok ())))
  | _, _ => none

/-- A step of a session or of the server. -/
def step (s : State) : Step → Option State
  | .start call => some (s.addSession ⟨call, call.program settings, none⟩)
  | .enter i entry =>
      match s.sessions[i]? with
      | some ⟨call, .ask .enter next, none⟩ => some (s.setSession i ⟨call, next entry, none⟩)
      | _ => none
  | .send i =>
      match s.sessions[i]? with
      | some ⟨call, .ask e next, none⟩ =>
          if e = .enter then none
          else
            some ((s.setSession i ⟨call, .ask e next, some s.requests.length⟩).addRequest
              ⟨i, e, .pending⟩)
      | _ => none
  | .serve rid =>
      match s.requests[rid]? with
      | some ⟨i, e, phase⟩ => s.serve rid i e phase
      | none => none
  | .find rid =>
      match s.requests[rid]? with
      | some ⟨i, e, .inserting⟩ => some (s.setPhase rid i e .pending)
      | _ => none
  | .reply i =>
      match s.sessions[i]? with
      | some ⟨call, .ask e next, some rid⟩ =>
          match s.requests[rid]? with
          | some ⟨_, e', .replied r⟩ =>
              if h : e' = e then some (s.setSession i ⟨call, next (h ▸ r), none⟩) else none
          | _ => none
      | _ => none
  | .giveUp i =>
      match s.sessions[i]? with
      | some ⟨call, .ask e next, some _⟩ =>
          some (s.setSession i ⟨call, next (timedOut e), none⟩)
      | _ => none

end store

end Ally.Chat
