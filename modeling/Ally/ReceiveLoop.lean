import Ally.ShellAudit
import Ally.Wire

/-!
# The receive loop of the companion

`run`: it connects, answers the commands of the server one after the other, and connects
again when the connection is lost. The main result says which frames it survives.
-/

namespace Ally.Companion

open Interaction
open PCAgentBridge (Json Message DecodeError Decoder dumps)

variable {F : Type}

/-! ### What the loop asks for -/

structure DeviceCredentials where
  serverUrl : String
  deviceId : String
  apiKey : String

inductive RunExn
  | connectionClosed
  | invalidHandshake
  | raised (exn : LocalExn)
  deriving DecidableEq, Repr

/-- `isinstance(exc, Exception)`. -/
def RunExn.isException : RunExn → Bool
  | .raised exn => exn.isException
  | _ => true

/-- `isinstance(exc, (ConnectionClosed, InvalidHandshake, OSError))`. -/
def RunExn.reconnects : RunExn → Bool
  | .raised exn => exn.isOSError
  | _ => true

/-- The next round of `async for raw_message in ws`. -/
inductive Received
  | frame (raw : String)
  /-- The connection was closed in the regular way, which ends the loop. -/
  | ended
  | closed

inductive RunEffect
  | loadCredentials
  | connect (apiKey : String)
  | receive
  /-- What an action asks of the machine. -/
  | machine (effect : Effect)
  /-- Whether `ws.wait_closed()` is done when the action is. -/
  | disconnected
  /-- `ws.send`, which raises nothing but `ConnectionClosed`. -/
  | send (message : Message)
  | close (code : ℕ) (reason : String)
  /-- The end of the `async with` block, which closes the connection. -/
  | leave
  | sleep (seconds : ℕ)
  /-- The loop goes on for longer than the model follows it, or the interpreter shuts down. -/
  | beyond

@[reducible] def RunEffect.Answer (F : Type) : RunEffect → Type
  | .loadCredentials => Result DeviceCredentials
  | .connect _ => Except RunExn Unit
  | .receive => Received
  | .machine effect => effect.Answer F
  | .disconnected | .send _ => Bool
  | .close .. | .leave | .sleep _ => Unit
  | .beyond => Empty

abbrev RunTrace (F : Type) := Trace (RunEffect.Answer F)

abbrev RunAction (F : Type) := Interaction.Action RunEffect (RunEffect.Answer F) RunExn

/-! ### Frames -/

def maxResultBytes : ℕ := 65536

def resultMessage (requestId : String) (details : Details) : Message :=
  [("type", .string "result"), ("request_id", .string requestId), ("success", .bool true),
    ("details", .object details)]

def failureMessage (requestId : String) : Message :=
  [("type", .string "result"), ("request_id", .string requestId), ("success", .bool false),
    ("error", .string ("Action declined, failed or interrupted. Effects may be partial; " ++
      "inspect the device before retrying."))]

def handshakeMessage (credentials : DeviceCredentials) (capabilities : Details) : Message :=
  [("type", .string "handshake"), ("device_id", .string credentials.deviceId),
    ("capabilities", .object capabilities)]

/-- `_encode_result`; the message stands for its text. -/
def encodeResult {D : Type} (fl : Json.Floats D) (requestId : String) (details : Details) :
    Result Message :=
  match dumps fl (.object (resultMessage requestId details)) with
  | none => .error (.valueError "Exceeds the limit for integer string conversion")
  | some text =>
      if maxResultBytes < (String.ofList text).utf8ByteSize then
        .error (.valueError "Action result exceeds transport size limit")
      else .ok (resultMessage requestId details)

/-- `message.get("type") == "command"`. -/
def isCommand (message : Message) : Bool :=
  match message.lookup "type" with
  | some (.string text) => text = "command"
  | _ => false

/-- The `request_id` of a message, if it is one the loop accepts. -/
def requestId? (message : Message) : Option String :=
  match message.lookup "request_id" with
  | some (.string id) => if 1 ≤ id.length ∧ id.length ≤ 64 then some id else none
  | _ => none

/-- `message["expires_at"]`, of type `int` or `float`. -/
def expiresAt? (message : Message) : Option Json :=
  match message.lookup "expires_at" with
  | some (.number literal) => some (.number literal)
  | _ => none

def decodeExn : DecodeError → RunExn
  | .valueError => .raised (.valueError "Not JSON")
  | .recursionError => .raised (.other "RecursionError")

/-! ### The loop -/

/-- What `run` is started with, and how long the model follows it. -/
structure Process (F D : Type) where
  host : Host
  agent : LocalAgent F
  floats : Json.Floats D
  decode : Decoder
  fuel : ℕ

section Clock

variable [PyFloat F] {D : Type} (process : Process F D)

/-- The model does not follow the loop any further. -/
def stop {α : Type} : RunAction F α := call .beyond fun e : Empty => nomatch e

/-- `execution.result()`; a `BaseException` of the thread stops the event loop. -/
def executionResult : Result Details → RunAction F Details
  | .ok details => return details
  | .error exn => if exn.isException then throw (.raised exn) else stop

/-- `_run_with_disconnect`. -/
def runWithDisconnect (action params expiresAt : Json) : RunAction F (Option Details) := do
  let execution ← ExceptT.lift ((handleCommand process.host process.fuel process.agent
    action params (some expiresAt)).run.within .machine fun _ answer => answer)
  if ← call .disconnected .ok then return none
  else return some (← executionResult execution)

def sendMessage (message : Message) : RunAction F Unit :=
  call (.send message) fun sent => if sent then .ok () else .error .connectionClosed

/-- The `try` block of the loop; whether the loop goes on. -/
def performCommand (requestId : String) (message : Message) : RunAction F Bool := do
  match expiresAt? message with
  | none => throw (.raised (.valueError "Command expiration is required"))
  | some expiresAt =>
      let action := (message.lookup "action").getD .null
      let params := (message.lookup "params").getD (.object [])
      match ← runWithDisconnect process action params expiresAt with
      | none => return false
      | some details =>
          let result ← fromExcept
            ((encodeResult process.floats requestId details).mapError .raised)
          sendMessage result
          return true

/-- A command with an accepted identity; whether the loop goes on. -/
def answerCommand (requestId : String) (message : Message) : RunAction F Bool :=
  tryCatch (performCommand process requestId message) fun exn =>
    if exn.isException then do
      sendMessage (failureMessage requestId)
      return true
    else throw exn

/-- The body of the loop; whether the loop goes on. -/
def onFrame (raw : String) : RunAction F Bool := do
  match ← fromExcept ((process.decode raw).mapError decodeExn) with
  | .object message =>
      if !isCommand message then return true
      else match requestId? message with
        | none => do
            call (.close 1003 "Invalid command identity") .ok
            return false
        | some requestId => answerCommand process requestId message
  | _ => throw (.raised (.other "AttributeError"))

/-- `async for raw_message in ws`. -/
def receiveLoop : ℕ → RunAction F Unit
  | 0 => stop
  | fuel + 1 => do
      match ← call .receive .ok with
      | .ended => return ()
      | .closed => throw .connectionClosed
      | .frame raw => if ← onFrame process raw then receiveLoop fuel else return ()

/-- One connection; the variable is `backoff`. -/
def connection : Stateful RunEffect (RunEffect.Answer F) ℕ RunExn Unit := do
  let credentials ← .lift (call .loadCredentials (·.mapError .raised))
  .lift (call (.connect credentials.apiKey) id)
  .finally' (do
    .lift (sendMessage (handshakeMessage credentials process.agent.capabilities))
    .assign fun _ => 1
    .lift (receiveLoop process process.fuel)) (.lift (call .leave .ok))

/-- The `while` loop of `run`. -/
def runLoop : ℕ → Stateful RunEffect (RunEffect.Answer F) ℕ RunExn Unit
  | 0 => .lift stop
  | fuel + 1 => do
      tryCatch (connection process) fun exn =>
        if exn.reconnects then do
          let backoff ← .read
          .lift (call (.sleep backoff) .ok)
          .assign fun backoff => min (backoff * 2) 60
        else throw exn
      runLoop fuel

/-- `run`. -/
def run : Program RunEffect (RunEffect.Answer F) (Except RunExn Unit × ℕ) :=
  (runLoop process process.fuel).start 1

end Clock

/-! ### What a log of the loop shows -/

namespace ReceiveLoop

section Logs

variable (decode : Decoder)

/-- The frame an event brings. -/
def frame? : (Σ e, RunEffect.Answer F e) → Option String
  | ⟨.receive, .frame raw⟩ => some raw
  | _ => none

/-- The request that a result frame is about. -/
def resultId (message : Message) : Option String :=
  match message.lookup "type", message.lookup "request_id" with
  | some (.string "result"), some (.string id) => some id
  | _, _ => none

/-- The request whose result an event puts on the wire. -/
def answered : (Σ e, RunEffect.Answer F e) → Option String
  | ⟨.send message, true⟩ => resultId message
  | _ => none

/-- The event at which the companion finds the connection closed. -/
def lost : (Σ e, RunEffect.Answer F e) → Bool
  | ⟨.send _, false⟩ => true
  | ⟨.disconnected, true⟩ => true
  | _ => false

/-- The frame is a JSON object. -/
def isObject (raw : String) : Bool :=
  match decode raw with
  | .ok (.object _) => true
  | _ => false

/-- The request that a frame wants to be answered: that of a command with a valid identity. -/
def expected (raw : String) : Option String :=
  match decode raw with
  | .ok (.object message) => if isCommand message then requestId? message else none
  | _ => none

/-- What happens before the next frame is read. -/
def turn (t : RunTrace F) : RunTrace F := t.takeWhile fun x => (frame? x).isNone

/-- What happened after a frame answers it: one result frame with its identity if it is a
command that has a valid one, else none; or the connection was closed before. -/
def Answered (raw : String) (t : RunTrace F) : Prop :=
  t.filterMap answered = (expected decode raw).toList ∨
    t.filterMap answered = [] ∧ ∃ x ∈ t, lost x = true

/-- Every frame was answered before the next one was read. -/
def AnsweredInTurn : RunTrace F → Prop
  | [] => True
  | x :: t => (∀ raw, frame? x = some raw → Answered decode raw (turn t)) ∧ AnsweredInTurn t

/-- Every frame that was read is a JSON object. -/
def AllObjects (t : RunTrace F) : Prop :=
  ∀ x ∈ t, ∀ raw, frame? x = some raw → isObject decode raw = true

/-- The last thing before the connection was left is a frame. -/
def EndsWithFrame (t : RunTrace F) : Prop :=
  ∃ pre raw, t = pre ++ [⟨.receive, .frame raw⟩, ⟨.leave, ()⟩]

end Logs

/-! ### Turns -/

section Turns

variable {decode : Decoder} {t u : RunTrace F} {raw : String}

/-- The event brings no frame. -/
def NoFrame (x : Σ e, RunEffect.Answer F e) : Prop := frame? x = none

/-- The event brings no frame and answers none. -/
structure Idle (x : Σ e, RunEffect.Answer F e) : Prop where
  noFrame : NoFrame x
  silent : answered x = none

theorem turn_of_noFrame (hu : ∀ x ∈ u, NoFrame x) : turn u = u :=
  List.takeWhile_eq_self_iff.mpr fun x hx => by rw [hu x hx]; rfl

/-- What follows is in the last turn. -/
theorem turn_append (t : RunTrace F) (hu : ∀ x ∈ u, NoFrame x) :
    turn (t ++ u) = turn t ∨ turn (t ++ u) = turn t ++ u := by
  unfold turn
  rw [List.takeWhile_append]
  split_ifs with h
  · right
    rw [← turn, turn_of_noFrame hu, List.takeWhile_eq_self_iff.mpr]
    exact List.takeWhile_eq_self_iff.mp ((List.takeWhile_prefix _).eq_of_length h)
  · exact .inl rfl

theorem turn_append_frame (t u : RunTrace F) (raw : String) :
    turn (t ++ ⟨.receive, .frame raw⟩ :: u) = turn t := by
  unfold turn
  rw [List.takeWhile_append]
  split_ifs with h
  · rw [List.takeWhile_cons_of_neg (by simp [frame?]), List.append_nil]
    exact ((List.takeWhile_prefix _).eq_of_length h).symm
  · rfl

theorem answers_of_idle (hu : ∀ x ∈ u, Idle x) : u.filterMap answered = [] :=
  List.filterMap_eq_nil_iff.mpr fun x hx => (hu x hx).silent

theorem Answered.append_idle (h : Answered decode raw t) (hu : ∀ x ∈ u, Idle x) :
    Answered decode raw (t ++ u) := by
  have hsame : (t ++ u).filterMap answered = t.filterMap answered := by
    rw [List.filterMap_append, answers_of_idle hu, List.append_nil]
  unfold Answered
  rw [hsame]
  refine h.imp id fun ⟨hnone, x, hx, hlost⟩ => ⟨hnone, x, List.mem_append_left u hx, hlost⟩

theorem answeredInTurn_of_noFrame (hu : ∀ x ∈ u, NoFrame x) : AnsweredInTurn decode u := by
  induction u with
  | nil => trivial
  | cons x u ih =>
      refine ⟨fun raw hx => ?_, ih fun y hy => hu y (List.mem_cons_of_mem x hy)⟩
      rw [hu x List.mem_cons_self] at hx
      cases hx

theorem AnsweredInTurn.append_idle (h : AnsweredInTurn decode t) (hu : ∀ x ∈ u, Idle x) :
    AnsweredInTurn decode (t ++ u) := by
  have hnone : ∀ x ∈ u, NoFrame x := fun x hx => (hu x hx).noFrame
  induction t with
  | nil => exact answeredInTurn_of_noFrame hnone
  | cons x t ih =>
      refine ⟨fun raw hx => ?_, ih h.2⟩
      rcases turn_append t hnone with hturn | hturn
      · change Answered decode raw (turn (t ++ u))
        rw [hturn]
        exact h.1 raw hx
      · change Answered decode raw (turn (t ++ u))
        rw [hturn]
        exact (h.1 raw hx).append_idle hu

/-- One more frame, with all of its turn. -/
theorem AnsweredInTurn.append_turn (h : AnsweredInTurn decode t) (hu : ∀ x ∈ u, NoFrame x)
    (hanswered : Answered decode raw u) :
    AnsweredInTurn decode (t ++ ⟨.receive, .frame raw⟩ :: u) := by
  induction t with
  | nil =>
      refine ⟨fun raw' hraw => ?_, answeredInTurn_of_noFrame hu⟩
      cases hraw
      rw [turn_of_noFrame hu]
      exact hanswered
  | cons x t ih =>
      refine ⟨fun raw' hraw => ?_, ih h.2⟩
      change Answered decode raw' (turn (t ++ _ :: u))
      rw [turn_append_frame]
      exact h.1 raw' hraw

theorem AllObjects.append (h : AllObjects decode t) (hu : ∀ x ∈ u, NoFrame x) :
    AllObjects decode (t ++ u) := by
  intro x hx raw hraw
  rcases List.mem_append.mp hx with hx | hx
  · exact h x hx raw hraw
  · rw [hu x hx] at hraw
    cases hraw

theorem AllObjects.append_frame (h : AllObjects decode t) (hraw : isObject decode raw = true)
    (hu : ∀ x ∈ u, NoFrame x) : AllObjects decode (t ++ ⟨.receive, .frame raw⟩ :: u) := by
  have hframe : AllObjects decode (t ++ [⟨.receive, .frame raw⟩]) := by
    intro x hx raw' hraw'
    rcases List.mem_append.mp hx with hx | hx
    · exact h x hx raw' hraw'
    · cases List.mem_singleton.mp hx
      cases hraw'
      exact hraw
  have hall := hframe.append hu
  rwa [List.append_assoc] at hall

/-- Every frame so far was a JSON object and was answered. -/
structure Clean (decode : Decoder) (t : RunTrace F) : Prop where
  answeredInTurn : AnsweredInTurn decode t
  allObjects : AllObjects decode t

theorem Clean.append_idle (h : Clean decode t) (hu : ∀ x ∈ u, Idle x) : Clean decode (t ++ u) :=
  ⟨h.1.append_idle hu, h.2.append fun x hx => (hu x hx).noFrame⟩

theorem Clean.concat (h : Clean decode t) {x : Σ e, RunEffect.Answer F e} (hx : Idle x) :
    Clean decode (t ++ [x]) :=
  h.append_idle fun _ hy => List.mem_singleton.mp hy ▸ hx

/-- A log that ends with something else. -/
theorem not_endsWithFrame {t : RunTrace F} {x : Σ e, RunEffect.Answer F e}
    (hx : x.1 ≠ .leave) : ¬ EndsWithFrame (t ++ [x]) := by
  rintro ⟨pre, raw, h⟩
  have hlast := congrArg List.getLast? h
  simp at hlast
  exact hx (by rw [hlast])

end Turns

/-! ### What one frame leads to -/

section Safety

variable [PyFloat F] {D : Type} (process : Process F D)

/-- The next frame is read when those before it are dealt with. -/
def Guard (decode : Decoder) (t : RunTrace F) (e : RunEffect) : Prop :=
  e = .receive → Clean decode t

/-- What was added to the log since `past`. -/
def Since (past : RunTrace F) (P : RunTrace F → Prop) (t : RunTrace F) : Prop :=
  ∃ u, t = past ++ u ∧ P u

omit [PyFloat F] in
theorem safe_within {α : Type} (p : Program Effect (Effect.Answer F) α) (past : RunTrace F) :
    Safe (Guard process.decode) (p.within .machine fun _ answer => answer)
      (fun t _ => Since past (fun u => ∀ x ∈ u, Idle x) t) past := by
  have honly : Only (fun e => ∃ effect, e = RunEffect.machine effect)
      (p.within .machine fun _ answer => answer : Program RunEffect (RunEffect.Answer F) α) :=
    only_within (fun effect => ⟨effect, rfl⟩) _ p
  refine (honly.safe (D := Since past fun u => ∀ x ∈ u, Idle x) ?_ ?_ ?_).mono fun t a h => h.1
  · rintro t ⟨e, r⟩ ⟨effect, rfl⟩ ⟨u, rfl, hu⟩
    refine ⟨u ++ [⟨.machine effect, r⟩], List.append_assoc _ _ _, fun x hx => ?_⟩
    rcases List.mem_append.mp hx with hx | hx
    · exact hu x hx
    · cases List.mem_singleton.mp hx
      exact ⟨rfl, rfl⟩
  · rintro t e - ⟨effect, rfl⟩ heq
    cases heq
  · exact ⟨[], (List.append_nil past).symm, fun x hx => absurd hx List.not_mem_nil⟩

theorem safe_runWithDisconnect (action params expiresAt : Json) (past : RunTrace F) :
    Safe (Guard process.decode) (runWithDisconnect process action params expiresAt).run
      (fun t r => Since past (fun u => (∀ x ∈ u, Idle x) ∧ match r with
        | .ok none => ∃ x ∈ u, lost x = true
        | .ok (some _) => True
        | .error exn => exn.isException = true) t) past := by
  unfold runWithDisconnect
  generalize (handleCommand process.host process.fuel process.agent action params
    (some expiresAt)).run = execution
  refine (safe_run_bind ..).mpr ((safe_lift ..).mpr ((safe_within process execution past).mono ?_))
  rintro t result ⟨u, rfl, hu⟩
  refine (safe_run_bind ..).mpr ⟨nofun, fun closed => ?_⟩
  have hidle : ∀ x ∈ u ++ [⟨.disconnected, closed⟩], Idle x := by
    intro x hx
    rcases List.mem_append.mp hx with hx | hx
    · exact hu x hx
    · cases List.mem_singleton.mp hx
      exact ⟨rfl, by cases closed <;> rfl⟩
  cases closed with
  | true => exact ⟨_, List.append_assoc _ _ _, hidle, ⟨.disconnected, true⟩, by simp, rfl⟩
  | false =>
      refine (safe_run_bind ..).mpr ?_
      cases result with
      | ok details => exact ⟨_, List.append_assoc _ _ _, hidle, trivial⟩
      | error exn =>
          unfold executionResult
          dsimp only
          split_ifs with hexn
          · exact ⟨_, List.append_assoc _ _ _, hidle, hexn⟩
          · exact ⟨nofun, nofun⟩

omit [PyFloat F] in
theorem encodeResult_cases (requestId : String) (details : Details) :
    encodeResult process.floats requestId details = .ok (resultMessage requestId details) ∨
      ∃ message, encodeResult process.floats requestId details = .error (.valueError message) := by
  unfold encodeResult
  split
  · exact .inr ⟨_, rfl⟩
  · split_ifs
    · exact .inr ⟨_, rfl⟩
    · exact .inl rfl

/-- The request has its one result frame, or the connection was closed. -/
def AnswerOf (requestId : String) (u : RunTrace F) : Prop :=
  u.filterMap answered = [requestId] ∨ u.filterMap answered = [] ∧ ∃ x ∈ u, lost x = true

omit [PyFloat F] in
/-- A result frame after a log in which nothing was answered. -/
theorem safe_sendMessage {message : Message} {requestId : String}
    (hid : resultId message = some requestId) {past u : RunTrace F} (hu : ∀ x ∈ u, Idle x) :
    Safe (Guard process.decode) (sendMessage message).run
      (fun t r => Since past (fun v => (∀ x ∈ v, NoFrame x) ∧ match r with
        | .ok _ => v.filterMap answered = [requestId]
        | .error exn => exn = .connectionClosed ∧ (∀ x ∈ v, Idle x) ∧ ∃ x ∈ v, lost x = true) t)
      (past ++ u) := by
  refine (safe_call ..).mpr ⟨nofun, fun sent => ?_⟩
  refine ⟨u ++ [⟨.send message, sent⟩], List.append_assoc _ _ _, ?_⟩
  have hframe : ∀ x ∈ u ++ [⟨.send message, sent⟩], NoFrame x := by
    intro x hx
    rcases List.mem_append.mp hx with hx | hx
    · exact (hu x hx).noFrame
    · cases List.mem_singleton.mp hx
      rfl
  refine ⟨hframe, ?_⟩
  cases sent with
  | true =>
      change (u ++ [_]).filterMap answered = [requestId]
      rw [List.filterMap_append, answers_of_idle hu]
      simp [answered, hid]
  | false =>
      refine ⟨rfl, fun x hx => ⟨hframe x hx, ?_⟩, ⟨.send message, false⟩, by simp, rfl⟩
      rcases List.mem_append.mp hx with hx | hx
      · exact (hu x hx).silent
      · cases List.mem_singleton.mp hx
        rfl

theorem safe_performCommand (requestId : String) (message : Message) (past : RunTrace F) :
    Safe (Guard process.decode) (performCommand process requestId message).run
      (fun t r => Since past (fun u => (∀ x ∈ u, NoFrame x) ∧ match r with
        | .ok _ => AnswerOf requestId u
        | .error exn => exn.isException = true ∧ ∀ x ∈ u, Idle x) t) past := by
  unfold performCommand
  cases expiresAt? message with
  | none =>
      have hnil : ∀ x ∈ ([] : RunTrace F), Idle x := fun x hx => absurd hx List.not_mem_nil
      exact ⟨[], (List.append_nil past).symm, fun x hx => (hnil x hx).noFrame, rfl, hnil⟩
  | some expiresAt =>
      refine (safe_run_bind ..).mpr ((safe_runWithDisconnect process _ _ expiresAt past).mono ?_)
      rintro t execution ⟨u, rfl, hu, hexecution⟩
      have hframe : ∀ x ∈ u, NoFrame x := fun x hx => (hu x hx).noFrame
      cases execution with
      | error exn => exact ⟨u, rfl, hframe, hexecution, hu⟩
      | ok details? =>
          cases details? with
          | none => exact ⟨u, rfl, hframe, .inr ⟨answers_of_idle hu, hexecution⟩⟩
          | some details =>
              rcases encodeResult_cases process requestId details with hencoded | ⟨text, hencoded⟩
              · dsimp only
                rw [hencoded]
                refine (safe_run_bind ..).mpr ((safe_run_bind ..).mpr ?_)
                refine (safe_sendMessage process (show resultId _ = some requestId from rfl) hu).mono ?_
                rintro t (exn | _) ⟨v, rfl, hv, hsent⟩
                · exact ⟨v, rfl, hv, by rw [hsent.1]; rfl, hsent.2.1⟩
                · exact ⟨v, rfl, hv, .inl hsent⟩
              · dsimp only
                rw [hencoded]
                exact ⟨u, rfl, hframe, rfl, hu⟩

theorem safe_answerCommand (requestId : String) (message : Message) (past : RunTrace F) :
    Safe (Guard process.decode) (answerCommand process requestId message).run
      (fun t r => Since past (fun u => (∀ x ∈ u, NoFrame x) ∧ AnswerOf requestId u ∧
        ∀ exn, r = .error exn → exn.reconnects = true) t) past := by
  refine (safe_run_tryCatch ..).mpr ((safe_performCommand process requestId message past).mono ?_)
  rintro t r ⟨u, rfl, hu, hr⟩
  cases r with
  | ok _ => exact ⟨u, rfl, hu, hr, nofun⟩
  | error exn =>
      dsimp only
      rw [if_pos hr.1]
      refine (safe_run_bind ..).mpr ?_
      refine (safe_sendMessage process (show resultId _ = some requestId from rfl) hr.2).mono ?_
      rintro t (exn | _) ⟨v, rfl, hv, hsent⟩
      · refine ⟨v, rfl, hv, .inr ⟨answers_of_idle hsent.2.1, hsent.2.2⟩, fun _ heq => ?_⟩
        cases heq
        rw [hsent.1]
        rfl
      · exact ⟨v, rfl, hv, .inl hsent, nofun⟩

/-- What holds once the loop has dealt with a frame: it is answered, and unless it is a JSON
object the loop is left with an exception that ends `run`. -/
def Handled (decode : Decoder) (raw : String) {α : Type} (r : Except RunExn α)
    (u : RunTrace F) : Prop :=
  (∀ x ∈ u, NoFrame x) ∧ Answered decode raw u ∧
    if isObject decode raw then ∀ exn, r = .error exn → exn.reconnects = true
    else u = [] ∧ ∃ exn, r = .error exn ∧ exn.reconnects = false

omit [PyFloat F] in
theorem handled_of_not_object {decode : Decoder} {raw : String}
    (hobject : isObject decode raw = false) {exn : RunExn} (hexn : exn.reconnects = false)
    {α : Type} : Handled decode raw (.error exn : Except RunExn α) ([] : RunTrace F) := by
  have hexpected : expected decode raw = none := by
    unfold isObject at hobject
    unfold expected
    split at hobject
    · cases hobject
    · rfl
  refine ⟨fun x hx => absurd hx List.not_mem_nil, .inl (by rw [hexpected]; rfl), ?_⟩
  rw [hobject]
  exact ⟨rfl, exn, rfl, hexn⟩

omit [PyFloat F] in
theorem handled_of_object {decode : Decoder} {raw : String} {message : Message}
    (hdecode : decode raw = .ok (.object message)) {u : RunTrace F} (hu : ∀ x ∈ u, NoFrame x)
    (hanswered : Answered decode raw u) {α : Type} {r : Except RunExn α}
    (hr : ∀ exn, r = .error exn → exn.reconnects = true) : Handled decode raw r u := by
  refine ⟨hu, hanswered, ?_⟩
  rw [show isObject decode raw = true by simp [isObject, hdecode]]
  exact hr

theorem safe_onFrame (raw : String) (past : RunTrace F) :
    Safe (Guard process.decode) (onFrame process raw).run
      (fun t r => Since past (Handled process.decode raw r) t) past := by
  have hsame : past = past ++ [] := (List.append_nil past).symm
  have hnil : ∀ x ∈ ([] : RunTrace F), NoFrame x := fun x hx => absurd hx List.not_mem_nil
  unfold onFrame
  cases hdecode : process.decode raw with
  | error e =>
      refine ⟨[], hsame, handled_of_not_object (by simp [isObject, hdecode]) ?_⟩
      cases e with
      | valueError => rfl
      | recursionError => rfl
  | ok value =>
      cases value with
      | object message =>
          have hexpected : expected process.decode raw =
              if isCommand message then requestId? message else none := by
            simp [expected, hdecode]
          change Safe _ (ExceptT.run (if !isCommand message then pure true else _)) _ _
          split_ifs with hcommand
          · refine ⟨[], hsame, handled_of_object hdecode hnil (.inl ?_) nofun⟩
            rw [hexpected, if_neg (by simpa using hcommand)]
            rfl
          · rw [if_pos (by simpa using hcommand)] at hexpected
            cases hid : requestId? message with
            | none =>
                refine (safe_run_bind ..).mpr ⟨nofun, fun closed => ?_⟩
                refine ⟨[⟨.close 1003 "Invalid command identity", closed⟩], rfl,
                  handled_of_object hdecode (fun x hx => ?_) (.inl ?_) nofun⟩
                · cases List.mem_singleton.mp hx
                  rfl
                · rw [hexpected, hid]
                  rfl
            | some requestId =>
                refine (safe_answerCommand process requestId message past).mono ?_
                rintro t r ⟨u, rfl, hu, hanswer, hr⟩
                refine ⟨u, rfl, handled_of_object hdecode hu ?_ hr⟩
                unfold Answered
                rw [hexpected, hid]
                exact hanswer
      | _ => exact ⟨[], hsame, handled_of_not_object (by simp [isObject, hdecode]) rfl⟩

/-! ### Whole runs -/

/-- What holds when the loop is left: every frame is dealt with, and an exception that ends
`run` came right after a frame that is no JSON object. -/
def LoopEnd (decode : Decoder) (t : RunTrace F) (r : Except RunExn Unit) : Prop :=
  Clean decode t ∧ (∀ exn, r = .error exn → exn.reconnects = true) ∨
    AnsweredInTurn decode t ∧
      (∃ pre raw, t = pre ++ [⟨.receive, .frame raw⟩] ∧ isObject decode raw = false) ∧
      ∃ exn, r = .error exn ∧ exn.reconnects = false

theorem safe_receiveLoop (fuel : ℕ) (past : RunTrace F)
    (hpast : Clean process.decode past) :
    Safe (Guard process.decode) (receiveLoop process fuel).run (LoopEnd process.decode) past := by
  induction fuel generalizing past with
  | zero => exact ⟨nofun, nofun⟩
  | succ fuel ih =>
      refine (safe_run_bind ..).mpr ⟨fun _ => hpast, fun received => ?_⟩
      have hlast (h : NoFrame ⟨.receive, received⟩) (r : Except RunExn Unit)
          (hr : ∀ exn, r = .error exn → exn.reconnects = true) :
          LoopEnd process.decode (past ++ [⟨.receive, received⟩]) r := by
        have hidle : ∀ x ∈ [(⟨.receive, received⟩ : Σ e, RunEffect.Answer F e)], Idle x :=
          fun x hx => by
            cases List.mem_singleton.mp hx
            exact ⟨h, rfl⟩
        exact .inl ⟨hpast.append_idle hidle, hr⟩
      cases received with
      | ended => exact hlast rfl _ nofun
      | closed => exact hlast rfl _ fun _ heq => by cases heq; rfl
      | frame raw =>
          refine (safe_run_bind ..).mpr ((safe_onFrame process raw _).mono ?_)
          rintro t r ⟨u, rfl, hu, hturn, hr⟩
          rw [List.append_assoc, List.singleton_append]
          have hanswered := hpast.answeredInTurn.append_turn hu hturn
          split_ifs at hr with hobject
          · have hclean : Clean process.decode (past ++ ⟨.receive, .frame raw⟩ :: u) :=
              ⟨hanswered, hpast.allObjects.append_frame hobject hu⟩
            cases r with
            | error exn => exact .inl ⟨hclean, fun _ heq => hr _ (by cases heq; rfl)⟩
            | ok more =>
                cases more with
                | true => exact ih _ hclean
                | false => exact .inl ⟨hclean, nofun⟩
          · obtain ⟨rfl, exn, rfl, hexn⟩ := hr
            exact .inr ⟨hanswered, ⟨past, raw, rfl, by simpa using hobject⟩, exn, rfl, hexn⟩

/-- What holds when the connection is left. -/
def ConnectionEnd (decode : Decoder) (t : RunTrace F) (r : Except RunExn Unit) : Prop :=
  Clean decode t ∧ (∀ exn, r = .error exn → exn.reconnects = true ∨ ¬ EndsWithFrame t) ∨
    AnsweredInTurn decode t ∧ ¬ AllObjects decode t ∧ EndsWithFrame t ∧
      ∃ exn, r = .error exn ∧ exn.reconnects = false

omit [PyFloat F] in
theorem LoopEnd.leave {decode : Decoder} {t : RunTrace F} {r : Except RunExn Unit}
    (h : LoopEnd decode t r) : ConnectionEnd decode (t ++ [⟨.leave, ()⟩]) r := by
  have hidle : ∀ x ∈ [(⟨.leave, ()⟩ : Σ e, RunEffect.Answer F e)], Idle x := fun x hx => by
    cases List.mem_singleton.mp hx
    exact ⟨rfl, rfl⟩
  rcases h with ⟨hclean, hr⟩ | ⟨hanswered, ⟨pre, raw, rfl, hraw⟩, hr⟩
  · exact .inl ⟨hclean.append_idle hidle, fun exn hexn => .inl (hr exn hexn)⟩
  · refine .inr ⟨hanswered.append_idle hidle, fun hall => ?_,
      ⟨pre, raw, List.append_assoc _ _ _⟩, hr⟩
    have hobject := hall ⟨.receive, .frame raw⟩ (by simp) raw rfl
    rw [hraw] at hobject
    cases hobject

theorem safe_connection (backoff : ℕ) {past : RunTrace F} (hpast : Clean process.decode past) :
    Safe (Guard process.decode) ((connection process).start backoff)
      (fun t r => ConnectionEnd process.decode t r.1) past := by
  refine (Stateful.safe_start_bind ..).mpr ((Stateful.safe_lift ..).mpr ⟨nofun, fun loaded => ?_⟩)
  have hloaded := hpast.concat (x := ⟨.loadCredentials, loaded⟩) ⟨rfl, rfl⟩
  cases loaded with
  | error exn => exact .inl ⟨hloaded, fun _ _ => .inr (not_endsWithFrame nofun)⟩
  | ok credentials =>
      refine (Stateful.safe_start_bind ..).mpr ((Stateful.safe_lift ..).mpr ⟨nofun, fun up => ?_⟩)
      have hup := hloaded.concat (x := ⟨.connect credentials.apiKey, up⟩) ⟨rfl, rfl⟩
      cases up with
      | error exn => exact .inl ⟨hup, fun _ _ => .inr (not_endsWithFrame nofun)⟩
      | ok _ =>
          refine (Stateful.safe_finally ..).mpr ?_
          refine (Stateful.safe_start_bind ..).mpr ((Stateful.safe_lift ..).mpr ?_)
          refine ⟨nofun, fun sent => ?_⟩
          have hsent := hup.concat (x := ⟨.send (handshakeMessage credentials
            process.agent.capabilities), sent⟩) ⟨rfl, by cases sent <;> rfl⟩
          cases sent with
          | false =>
              refine (Stateful.safe_lift ..).mpr ⟨nofun, fun left => ?_⟩
              exact .inl ⟨hsent.concat ⟨rfl, rfl⟩, fun _ heq => by cases heq; exact .inl rfl⟩
          | true =>
              refine (Stateful.safe_start_assign_bind ..).mpr ((Stateful.safe_lift ..).mpr ?_)
              refine (safe_receiveLoop process process.fuel _ hsent).mono fun t r hend => ?_
              exact (Stateful.safe_lift ..).mpr ⟨nofun, fun left => hend.leave⟩

/-- Every frame was answered in its turn, and the run was ended by a frame only if one was no
JSON object. -/
def RunEnd (decode : Decoder) (t : RunTrace F) : Prop :=
  AnsweredInTurn decode t ∧ (¬ EndsWithFrame t ↔ AllObjects decode t)

theorem safe_runLoop (fuel backoff : ℕ) {past : RunTrace F} (hpast : Clean process.decode past) :
    Safe (Guard process.decode) ((runLoop process fuel).start backoff)
      (fun t _ => RunEnd process.decode t) past := by
  induction fuel generalizing past backoff with
  | zero => exact ⟨nofun, nofun⟩
  | succ fuel ih =>
      refine (Stateful.safe_start_bind ..).mpr ((Stateful.safe_start_tryCatch ..).mpr ?_)
      refine (safe_connection process backoff hpast).mono ?_
      rintro t ⟨r, backoff'⟩ hend
      cases r with
      | ok _ =>
          rcases hend with ⟨hclean, -⟩ | ⟨-, -, -, _, hexn, -⟩
          · exact ih backoff' hclean
          · cases hexn
      | error exn =>
          change Safe _ (Stateful.start (ite (exn.reconnects = true) _ _) backoff') _ t
          split_ifs with hexn
          · have hclean : Clean process.decode t := by
              rcases hend with ⟨hclean, -⟩ | ⟨-, -, -, _, heq, hends⟩
              · exact hclean
              · cases heq
                rw [hexn] at hends
                cases hends
            refine (Stateful.safe_start_read_bind ..).mpr ?_
            refine (Stateful.safe_start_bind ..).mpr ((Stateful.safe_lift ..).mpr ⟨nofun, fun woken => ?_⟩)
            exact ih _ (hclean.concat ⟨rfl, rfl⟩)
          · rcases hend with ⟨hclean, hr⟩ | ⟨hanswered, hobjects, hframe, -⟩
            · have hframe := (hr exn rfl).resolve_left hexn
              exact ⟨hclean.answeredInTurn, iff_of_true hframe hclean.allObjects⟩
            · exact ⟨hanswered, iff_of_false (not_not_intro hframe) hobjects⟩

end Safety

/-! ### Two runs -/

def noFloats : Json.Floats Empty := ⟨nofun, fun _ => none, nofun, nofun⟩

def loopProcess : Process ℚ Empty where
  host := windowsHost
  agent := shellAgent
  floats := noFloats
  decode := PCAgentBridge.loads noFloats
  fuel := 4

/-- The server sends these frames and closes the connection; the second time the credentials
cannot be read. -/
def serverAnswer (frames : List String) (past : RunTrace ℚ) :
    (e : RunEffect) → Option (RunEffect.Answer ℚ e)
  | .loadCredentials =>
      if past = [] then some (.ok ⟨"wss://h/ws/pc-agent", "d", "k"⟩)
      else some (.error (.valueError "Invalid credentials"))
  | .connect _ => some (.ok ())
  | .receive => some ((frames[(past.filterMap frame?).length]?).elim .closed .frame)
  | .disconnected => some false
  | .send _ => some true
  | .close .. | .leave | .sleep _ => some ()
  | _ => none

/-- An unknown action, which is answered by a failure, and a frame that is no command. -/
def survivedFrames : List String :=
  ["\x7b\"type\": \"command\", \"request_id\": \"r1\", \"action\": \"dance\", \"expires_at\": 5\x7d",
    "\x7b\x7d"]

end ReceiveLoop

end Ally.Companion
