import Ally.Machine
import Mathlib.Data.List.AList

/-!
# The PC agent bridge

`PCAgentBridge` as a machine whose steps are the code between two awaits. A
`register`, `handle_result` or `send_command` coroutine suspended at an await is
part of the state, and so is every connection object a coroutine may still
hold. The trace records what a caller, a socket or the agent can observe.
-/

namespace Ally.PCAgentBridge

/-- A decoded JSON value; numbers are kept as text, nothing here computes with them. -/
inductive Json
  | null
  | bool (value : Bool)
  | number (literal : String)
  | string (value : String)
  | array (items : List Json)
  | object (fields : List (String × Json))

abbrev Message := List (String × Json)

abbrev Dict (β : Type) := AList fun _ : String => β

inductive BridgeError
  | pcAgentError (message : String)
  | valueError (message : String)
  | cancelled
  deriving DecidableEq, Repr

structure PairedDevice where
  tenantId : String
  credentialId : String
  deviceId : String
  deriving DecidableEq, Repr

/-- The fields of a `_Connection` that nothing changes. -/
structure Session where
  websocket : ℕ
  capabilities : List (String × Bool)
  device : Option PairedDevice

/-- `_Connection`. Sockets, connections and calls are named by the identity of
their object; `sendLock` is the call that holds the lock. -/
structure Connection extends Session where
  pending : Dict ℕ
  sendLock : Option ℕ

inductive Future
  | pending
  | result (message : Message)
  | exception (error : BridgeError)
  | cancelled

def Future.done : Future → Bool
  | .pending => false
  | _ => true

/-- The arguments of `send_command`; a timeout that is not finite is `none`. -/
structure Command where
  tenantId : String
  capability : String
  action : String
  params : Message
  timeout : Option ℚ

/-- The command frame without `expires_at`, which is read from the clock. -/
structure Frame where
  requestId : String
  capability : String
  action : String
  params : Message

/-- The await a `send_command` is suspended at. -/
inductive Phase
  | locking
  | checking
  | sending
  | waiting
  deriving DecidableEq, Repr

structure Call where
  command : Command
  requestId : String
  connection : ℕ
  phase : Phase

def Call.frame (k : Call) : Frame where
  requestId := k.requestId
  capability := k.command.capability
  action := k.command.action
  params := k.command.params

inductive CallState
  | fresh
  | inFlight (call : Call)
  | ended

/-- A message whose `handle_result` awaits the device check. -/
structure Reception where
  tenantId : String
  message : Message
  requestId : String
  connection : ℕ
  call : ℕ

inductive Handling
  | fresh
  | checking (reception : Reception)
  | ended

structure Registration where
  tenantId : String
  websocket : ℕ
  capabilities : Json
  device : Option PairedDevice

inductive Registering
  | fresh
  | checking (registration : Registration)
  | ended

/-- One observable event. `current` is the connection registered for the tenant
at that moment. -/
inductive Entry
  | registered (connection : ℕ) (tenantId : String) (session : Session)
  | refused (registration : ℕ) (error : BridgeError)
  | called (call : ℕ) (command : Command) (requestId : String) (connection : ℕ)
  | frame (call : ℕ) (websocket : ℕ) (frame : Frame) (connection : ℕ) (current : Option ℕ)
  | given (handler : ℕ) (tenantId : String) (message : Message) (websocket : ℕ)
      (current : Option ℕ)
  | checked (handler : ℕ)
  | resolved (handler : ℕ) (call : ℕ)
  | ended (call : ℕ) (outcome : Except BridgeError Message)

structure Config where
  maxPendingCommands : ℕ
  positive : 0 < maxPendingCommands
  checkDevice : Bool

structure Bridge where
  closing : Bool
  registry : Dict ℕ
  connections : ℕ → Option Connection
  futures : ℕ → Future
  calls : ℕ → CallState
  handling : ℕ → Handling
  registering : ℕ → Registering
  issued : List String
  log : List Entry

def Bridge.initial : Bridge where
  closing := false
  registry := ∅
  connections _ := none
  futures _ := .pending
  calls _ := .fresh
  handling _ := .fresh
  registering _ := .fresh
  issued := []
  log := []

namespace Bridge

/-- `self._connections.get(tenant_id)` with the object it names. -/
def connection? (tenantId : String) (b : Bridge) : Option (ℕ × Connection) :=
  (b.registry.lookup tenantId).bind fun c => (b.connections c).map fun conn => (c, conn)

def pendingOf (b : Bridge) (c : ℕ) : List ℕ :=
  match b.connections c with
  | some conn => conn.pending.entries.map Sigma.snd
  | none => []

/-- `future.set_exception(error)` on every pending future of the connections
`cs` that is not done. -/
def failPending (error : BridgeError) (cs : List ℕ) (b : Bridge) : Bridge :=
  { b with
    futures := fun i =>
      if (b.futures i).done = false ∧ ∃ c ∈ cs, i ∈ b.pendingOf c then .exception error
      else b.futures i }

def modifyConnection (c : ℕ) (f : Connection → Connection) (b : Bridge) : Bridge :=
  { b with connections := Function.update b.connections c ((b.connections c).map f) }

/-- `self._connections[tenant_id] = _Connection(…)`. -/
def connect (c : ℕ) (tenantId : String) (session : Session) (b : Bridge) : Bridge :=
  { b with
    registry := b.registry.insert tenantId c
    connections := Function.update b.connections c (some ⟨session, ∅, none⟩) }

def setFuture (i : ℕ) (future : Future) (b : Bridge) : Bridge :=
  { b with futures := Function.update b.futures i future }

def setCall (i : ℕ) (state : CallState) (b : Bridge) : Bridge :=
  { b with calls := Function.update b.calls i state }

def setHandling (h : ℕ) (state : Handling) (b : Bridge) : Bridge :=
  { b with handling := Function.update b.handling h state }

def setRegistering (r : ℕ) (state : Registering) (b : Bridge) : Bridge :=
  { b with registering := Function.update b.registering r state }

def record (entry : Entry) (b : Bridge) : Bridge := { b with log := b.log ++ [entry] }

end Bridge

/-! ### `register`, `unregister` and `close` -/

def capabilityNames : List String :=
  ["open_apps", "file_rw", "shell_exec", "mouse_keyboard_control"]

def parseCapability : String × Json → Option (String × Bool)
  | (key, .bool value) => if key ∈ capabilityNames then some (key, value) else none
  | _ => none

/-- The validation of the reported capabilities. -/
def parseCapabilities : Json → Option (List (String × Bool))
  | .object fields => fields.mapM parseCapability
  | _ => none

def Bridge.refuse (r : ℕ) (error : BridgeError) (b : Bridge) : Bridge :=
  (b.setRegistering r .ended).record (.refused r error)

def shuttingDown : BridgeError := .pcAgentError "PC agent bridge is shutting down"

/-- The part of `register` after the device check. The connection it creates is
named by its task. The old socket is closed after this, which no other
coroutine of the bridge can see. -/
def Bridge.install (r : ℕ) (a : Registration) (b : Bridge) : Bridge :=
  if b.closing then b.refuse r shuttingDown
  else
    match parseCapabilities a.capabilities with
    | none => b.refuse r (.valueError "Invalid PC agent capabilities")
    | some capabilities =>
        let b := b.failPending (.pcAgentError "Replaced by a new PC agent connection")
          (b.registry.lookup a.tenantId).toList
        let session : Session := ⟨a.websocket, capabilities, a.device⟩
        ((b.setRegistering r .ended).connect r a.tenantId session).record
          (.registered r a.tenantId session)

def register (cfg : Config) (r : ℕ) (a : Registration) (b : Bridge) : Option Bridge :=
  match b.registering r with
  | .fresh =>
      if b.closing then some (b.refuse r shuttingDown)
      else if cfg.checkDevice then
        if a.device.map PairedDevice.tenantId = some a.tenantId then
          some (b.setRegistering r (.checking a))
        else some (b.refuse r (.valueError "A paired device binding is required"))
      else some (b.install r a)
  | _ => none

/-- How an awaited device check ends: it returns, it raises an `Exception`, or
its task is cancelled. -/
inductive CheckOutcome
  | passed
  | failed
  | cancelled
  deriving DecidableEq, Repr

def registerChecked (r : ℕ) (outcome : CheckOutcome) (b : Bridge) : Option Bridge :=
  match b.registering r with
  | .checking a =>
      match outcome with
      | .passed => some (b.install r a)
      | .failed => some (b.refuse r (.pcAgentError "Paired device verification failed"))
      | .cancelled => some (b.refuse r .cancelled)
  | _ => none

def unregister (tenantId : String) (websocket : ℕ) (b : Bridge) : Bridge :=
  match b.connection? tenantId with
  | none => b
  | some (c, conn) =>
      if conn.websocket = websocket then
        { b.failPending (.pcAgentError "PC agent disconnected") [c] with
          registry := b.registry.erase tenantId }
      else b

def close (b : Bridge) : Bridge :=
  if b.closing then b
  else
    { b.failPending shuttingDown (b.registry.entries.map Sigma.snd) with
      closing := true
      registry := ∅ }

/-! ### `handle_result` -/

/-- `connection.pending.pop(request_id, None)`. -/
def Connection.popPending (requestId : String) (conn : Connection) : Connection :=
  { conn with pending := conn.pending.erase requestId }

/-- `connection.pending.pop(request_id, None)` and `future.set_result(message)`. -/
def Bridge.resolve (h : ℕ) (p : Reception) (b : Bridge) : Bridge :=
  ((b.modifyConnection p.connection (Connection.popPending p.requestId)).setFuture p.call
    (.result p.message)).record (.resolved h p.call)

/-- The reception of a message that some pending future is waiting for. -/
def Bridge.reception? (tenantId : String) (message : Message) (websocket : ℕ) (b : Bridge) :
    Option (Reception × Connection) :=
  match b.connection? tenantId, message.lookup "request_id" with
  | some (c, conn), some (.string requestId) =>
      if conn.websocket = websocket then
        match conn.pending.lookup requestId with
        | some i =>
            if (b.futures i).done then none else some (⟨tenantId, message, requestId, c, i⟩, conn)
        | none => none
      else none
  | _, _ => none

def handleResult (cfg : Config) (h : ℕ) (tenantId : String) (message : Message) (websocket : ℕ)
    (b : Bridge) : Option Bridge :=
  match b.handling h with
  | .fresh =>
      let given := (b.setHandling h .ended).record
        (.given h tenantId message websocket (b.registry.lookup tenantId))
      match b.reception? tenantId message websocket with
      | none => some given
      | some (p, conn) =>
          if cfg.checkDevice && conn.device.isSome then
            some (given.setHandling h (.checking p))
          else some (given.resolve h p)
  | _ => none

/-- The part of `handle_result` after a device check that passed. -/
def Bridge.acceptResult (h : ℕ) (p : Reception) (b : Bridge) : Bridge :=
  let b := (b.setHandling h .ended).record (.checked h)
  if (b.futures p.call).done then b
  else if b.registry.lookup p.tenantId = some p.connection then b.resolve h p
  else b.setFuture p.call
    (.exception (.pcAgentError "PC agent connection changed before result"))

def resultChecked (h : ℕ) (outcome : CheckOutcome) (b : Bridge) : Option Bridge :=
  match b.handling h with
  | .checking p =>
      match outcome with
      | .passed => some (b.acceptResult h p)
      | .failed =>
          let b := b.setHandling h .ended
          some (if (b.futures p.call).done then b
            else b.setFuture p.call
              (.exception (.pcAgentError "Paired device verification failed")))
      | .cancelled => some (b.setHandling h .ended)
  | _ => none

/-! ### `send_command` -/

/-- `f"{timeout:.0f}"`: the nearest integer, a tie going to the even one. -/
def formatSeconds (timeout : ℚ) : String :=
  let n := ⌊timeout⌋
  if timeout - n < 1 / 2 ∨ (timeout - n = 1 / 2 ∧ n % 2 = 0) then toString n
  else toString (n + 1)

/-- What an await inside the `try` block raises: the deadline or another
`TimeoutError`, a `PCAgentError`, another `Exception`, or a cancellation. -/
inductive Failure
  | timeout
  | pcAgentError (message : String)
  | exception
  | cancelled
  deriving DecidableEq, Repr

/-- The `except` clauses. -/
def Failure.error (command : Command) : Failure → BridgeError
  | .timeout => .pcAgentError
      ("The PC agent did not respond within " ++ formatSeconds (command.timeout.getD 0) ++ "s.")
  | .pcAgentError message => .pcAgentError message
  | .exception => .pcAgentError "Failed to communicate with the PC agent."
  | .cancelled => .cancelled

/-- A deadline or a cancellation can end any await. -/
def Failure.isInterrupt : Failure → Bool
  | .timeout => true
  | .cancelled => true
  | _ => false

/-- What `send_command` makes of the message its future was resolved with. -/
def resultDetails (result : Message) : Except BridgeError Message :=
  match result.lookup "success" with
  | some (.bool true) =>
      match (result.lookup "details").getD (.object []) with
      | .object details => .ok details
      | _ => .error (.pcAgentError "The PC agent returned an invalid result.")
  | _ => .error (.pcAgentError
      "The PC agent declined or failed, or was interrupted. Effects may be partial; inspect the device before retrying.")

def Bridge.reject (i : ℕ) (message : String) (b : Bridge) : Bridge :=
  (b.setCall i .ended).record (.ended i (.error (.pcAgentError message)))

def Connection.addPending (requestId : String) (i : ℕ) (conn : Connection) : Connection :=
  { conn with pending := conn.pending.insert requestId i }

/-- `send_command` up to the wait for the lock. `uuid.uuid4()` gives a request
id that no earlier call was given. -/
def sendCommand (cfg : Config) (i : ℕ) (command : Command) (requestId : String) (b : Bridge) :
    Option Bridge :=
  match b.calls i with
  | .fresh =>
      if b.closing then some (b.reject i "PC agent bridge is shutting down")
      else if ¬ ∃ timeout ∈ command.timeout, 0 < timeout then
        some ((b.setCall i .ended).record
          (.ended i (.error (.valueError "timeout must be finite and positive"))))
      else
        match b.connection? command.tenantId with
        | none => some (b.reject i ("No PC agent is currently connected. Start the local agent " ++
            "on your machine and try again."))
        | some (c, conn) =>
            if conn.capabilities.lookup command.capability ≠ some true then
              some (b.reject i ("The connected PC agent has '" ++ command.capability ++
                "' disabled locally. Enable it in the agent's config to allow this action."))
            else if cfg.maxPendingCommands ≤ conn.pending.entries.length then
              some (b.reject i "The PC agent has too many pending commands. Try again later.")
            else if requestId ∈ b.issued then none
            else
              let b := (b.modifyConnection c (Connection.addPending requestId i)).setFuture i
                .pending
              let b := { b with issued := requestId :: b.issued }
              some ((b.setCall i (.inFlight ⟨command, requestId, c, .locking⟩)).record
                (.called i command requestId c))
  | _ => none

/-- `connection.send_lock.release()` when the call leaves the `async with` block. -/
def Connection.releaseLock (i : ℕ) (conn : Connection) : Connection :=
  { conn with sendLock := if conn.sendLock = some i then none else conn.sendLock }

/-- The `finally` clause and what the caller gets. -/
def Bridge.exit (i : ℕ) (k : Call) (outcome : Except BridgeError Message) (b : Bridge) : Bridge :=
  let b := b.modifyConnection k.connection fun conn =>
    (conn.popPending k.requestId).releaseLock i
  let b := if (b.futures i).done then b else b.setFuture i .cancelled
  (b.setCall i .ended).record (.ended i outcome)

def Bridge.setPhase (i : ℕ) (k : Call) (phase : Phase) (b : Bridge) : Bridge :=
  b.setCall i (.inFlight { k with phase })

/-- From the currency check to the await of `send_json`. -/
def Bridge.deliver (i : ℕ) (k : Call) (conn : Connection) (b : Bridge) : Bridge :=
  if b.registry.lookup k.command.tenantId = some k.connection then
    (b.setPhase i k .sending).record
      (.frame i conn.websocket k.frame k.connection (b.registry.lookup k.command.tenantId))
  else b.exit i k
    (.error (.pcAgentError "PC agent connection changed before command delivery"))

/-- The call `i` when it is suspended at `phase`, with its connection. -/
def Bridge.suspended? (i : ℕ) (phase : Phase) (b : Bridge) : Option (Call × Connection) :=
  match b.calls i with
  | .inFlight k =>
      if k.phase = phase then (b.connections k.connection).map fun conn => (k, conn) else none
  | _ => none

def Connection.takeLock (i : ℕ) (conn : Connection) : Connection :=
  { conn with sendLock := some i }

def acquire (cfg : Config) (i : ℕ) (b : Bridge) : Option Bridge :=
  (b.suspended? i .locking).bind fun (k, conn) =>
    if conn.sendLock = none then
      let b := b.modifyConnection k.connection (Connection.takeLock i)
      if cfg.checkDevice && conn.device.isSome then some (b.setPhase i k .checking)
      else some (b.deliver i k conn)
    else none

def deviceChecked (i : ℕ) (b : Bridge) : Option Bridge :=
  (b.suspended? i .checking).map fun (k, conn) => b.deliver i k conn

def sent (i : ℕ) (b : Bridge) : Option Bridge :=
  (b.suspended? i .sending).map fun (k, _) =>
    (b.modifyConnection k.connection (Connection.releaseLock i)).setPhase i k .waiting

/-- A deadline or a cancellation that falls into the wait for the result cancels
the future at once; the call itself resumes later. -/
def interrupt (i : ℕ) (b : Bridge) : Option Bridge :=
  (b.suspended? i .waiting).bind fun _ =>
    if (b.futures i).done then none else some (b.setFuture i .cancelled)

/-- The call resumes with its completed future. -/
def wake (i : ℕ) (b : Bridge) : Option Bridge :=
  (b.suspended? i .waiting).bind fun (k, _) =>
    match b.futures i with
    | .pending => none
    | .result message => some (b.exit i k (resultDetails message))
    | .exception error => some (b.exit i k (.error error))
    | .cancelled => some (b.exit i k (.error .cancelled))

/-- An await of the call raises. The lock and a completed future only raise on a
deadline or a cancellation. -/
def fail (i : ℕ) (failure : Failure) (b : Bridge) : Option Bridge :=
  match b.calls i with
  | .inFlight k =>
      if (k.phase = .locking → failure.isInterrupt) ∧
          (k.phase = .waiting → failure.isInterrupt ∧ (b.futures i).done) then
        some (b.exit i k (.error (failure.error k.command)))
      else none
  | _ => none

inductive Event
  | register (task : ℕ) (registration : Registration)
  | registerChecked (task : ℕ) (outcome : CheckOutcome)
  | unregister (tenantId : String) (websocket : ℕ)
  | close
  | handleResult (handler : ℕ) (tenantId : String) (message : Message) (websocket : ℕ)
  | resultChecked (handler : ℕ) (outcome : CheckOutcome)
  | sendCommand (call : ℕ) (command : Command) (requestId : String)
  | acquire (call : ℕ)
  | deviceChecked (call : ℕ)
  | sent (call : ℕ)
  | interrupt (call : ℕ)
  | wake (call : ℕ)
  | fail (call : ℕ) (failure : Failure)

def step (cfg : Config) (b : Bridge) : Event → Option Bridge
  | .register r a => register cfg r a b
  | .registerChecked r outcome => registerChecked r outcome b
  | .unregister tenantId websocket => some (unregister tenantId websocket b)
  | .close => some (close b)
  | .handleResult h tenantId message websocket => handleResult cfg h tenantId message websocket b
  | .resultChecked h outcome => resultChecked h outcome b
  | .sendCommand i command requestId => sendCommand cfg i command requestId b
  | .acquire i => acquire cfg i b
  | .deviceChecked i => deviceChecked i b
  | .sent i => sent i b
  | .interrupt i => interrupt i b
  | .wake i => wake i b
  | .fail i failure => fail i failure b

abbrev run (cfg : Config) (es : List Event) : Option Bridge :=
  Machine.run (step cfg) .initial es

end Ally.PCAgentBridge
