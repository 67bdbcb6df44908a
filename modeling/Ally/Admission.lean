import Ally.Machine
import Ally.OrderedDict

/-!
# Admission limiters

`WebSocketSecurity._allow_attempt` and `PairingAdmission.admit`: a limit on the attempts of
a host in a minute, on the hosts tracked, and on the attempts in flight. Both keep a table
of deques that they prune when they touch it.
-/

namespace Ally.Admission

/-- The bounds of `SecuritySettings` that the limiters read. -/
structure AdmissionSettings where
  auth_attempts_per_minute : ℕ
  max_auth_clients : ℕ
  max_auth_inflight : ℕ
  attempts_pos : 1 ≤ auth_attempts_per_minute
  clients_pos : 1 ≤ max_auth_clients
  inflight_pos : 1 ≤ max_auth_inflight

/-- `OrderedDict[str, deque[float]]`. -/
abbrev Attempts := OrderedDict String (List ℚ)

/-- The attempt is a minute old. -/
def stale (now t : ℚ) : Bool := decide (t ≤ now - 60)

/-- `while attempts and attempts[0] <= now - 60: attempts.popleft()`. -/
def prune (now : ℚ) (attempts : List ℚ) : List ℚ := attempts.dropWhile (stale now)

/-- The entries at the front whose last attempt is stale are evicted; `none` is the
`IndexError` of an empty deque. -/
def evict (now : ℚ) : Attempts → Option Attempts
  | [] => some []
  | (host, attempts) :: rest =>
      attempts.getLast?.bind fun last =>
        if stale now last then evict now rest else some ((host, attempts) :: rest)

/-- The entry of the host, made when it is missing; `none` when the table is full. -/
def track (settings : AdmissionSettings) (host : String) (table : Attempts) : Option Attempts :=
  if host ∈ table.keys then some table
  else if settings.max_auth_clients ≤ table.length then none
  else some (table.set host [])

def attemptsOf (host : String) (table : Attempts) : List ℚ := (table.get? host).getD []

/-- `attempts.append(now)` and `move_to_end(host)`. -/
def record (host : String) (now : ℚ) (table : Attempts) : Attempts :=
  (table.modify host (· ++ [now])).moveToEnd host

/-- `WebSocketSecurity._allow_attempt`. -/
def allowAttempt (settings : AdmissionSettings) (host : String) (now : ℚ) (table : Attempts) :
    Option (Attempts × Bool) :=
  (evict now table).map fun table =>
    match track settings host table with
    | none => (table, false)
    | some table =>
        let table := table.modify host (prune now)
        if settings.auth_attempts_per_minute ≤ (attemptsOf host table).length then (table, false)
        else (record host now table, true)

/-- What `authenticate` reads and writes of `WebSocketSecurity`. -/
structure WebSocketSecurity where
  attempts : Attempts
  auth_inflight : ℤ

/-- The entry of `WebSocketSecurity.authenticate`, with the answer of `_allow_attempt` and
whether the caller goes on to `_authenticate`. -/
def WebSocketSecurity.authenticate (settings : AdmissionSettings) (host : String) (now : ℚ)
    (s : WebSocketSecurity) : Option (WebSocketSecurity × Bool × Bool) :=
  (allowAttempt settings host now s.attempts).map fun (attempts, allowed) =>
    if allowed = false ∨ (settings.max_auth_inflight : ℤ) ≤ s.auth_inflight then
      ({ s with attempts }, allowed, false)
    else (⟨attempts, s.auth_inflight + 1⟩, allowed, true)

structure PairingAdmission where
  attempts : Attempts
  inflight : ℤ

/-- The entry of `PairingAdmission.admit`, and whether the caller is admitted. -/
def PairingAdmission.admitHost (settings : AdmissionSettings) (host : String) (now : ℚ)
    (s : PairingAdmission) : Option (PairingAdmission × Bool) :=
  (evict now s.attempts).map fun table =>
    match track settings host table with
    | none => ({ s with attempts := table }, false)
    | some table =>
        let table := table.modify host (prune now)
        if settings.auth_attempts_per_minute ≤ (attemptsOf host table).length ∨
            (settings.max_auth_inflight : ℤ) ≤ s.inflight then
          -- an entry made for this caller goes again
          let table := if (attemptsOf host table).isEmpty then table.delete host else table
          ({ s with attempts := table }, false)
        else (⟨record host now table, s.inflight + 1⟩, true)

/-! ### The reference -/

variable {ι : Type}

inductive Event (ι : Type)
  | enter (i : ι) (host : String) (now : ℚ)
  /-- An admitted caller leaves, in whichever way. -/
  | leave (i : ι)

/-- Everything that was admitted, and the callers that are inside. -/
structure Window (ι : Type) where
  admitted : List (String × ℚ)
  inside : List ι
  clock : ℚ
  deriving DecidableEq

namespace Window

def initial (clock : ℚ) : Window ι := ⟨[], [], clock⟩

/-- The admitted attempts of the last minute. -/
def live (now : ℚ) (admitted : List (String × ℚ)) : List (String × ℚ) :=
  admitted.filter fun a => !stale now a.2

def liveOf (host : String) (now : ℚ) (admitted : List (String × ℚ)) : List (String × ℚ) :=
  (live now admitted).filter fun a => a.1 = host

/-- The hosts with an attempt in the last minute. -/
def liveHosts (now : ℚ) (admitted : List (String × ℚ)) : List String :=
  ((live now admitted).map Prod.fst).dedup

/-- The naive sliding window. -/
def allows (settings : AdmissionSettings) (host : String) (now : ℚ)
    (admitted : List (String × ℚ)) : Bool :=
  decide ((liveOf host now admitted).length < settings.auth_attempts_per_minute) &&
    (decide (liveOf host now admitted ≠ []) ||
      decide ((liveHosts now admitted).length < settings.max_auth_clients))

def attempt (i : ι) (host : String) (now : ℚ) (allowed entered : Bool) (w : Window ι) :
    Window ι where
  admitted := if allowed then w.admitted ++ [(host, now)] else w.admitted
  inside := if entered then i :: w.inside else w.inside
  clock := now

/-- A socket has its attempt counted before the callers in flight are. -/
def authenticate (settings : AdmissionSettings) (i : ι) (host : String) (now : ℚ) (w : Window ι) :
    Window ι × Bool × Bool :=
  let allowed := allows settings host now w.admitted
  let entered := allowed && decide (w.inside.length < settings.max_auth_inflight)
  (w.attempt i host now allowed entered, allowed, entered)

def admitHost (settings : AdmissionSettings) (i : ι) (host : String) (now : ℚ) (w : Window ι) :
    Window ι × Bool :=
  let admitted := allows settings host now w.admitted &&
    decide (w.inside.length < settings.max_auth_inflight)
  (w.attempt i host now admitted admitted, admitted)

end Window

/-! ### Sequences of calls -/

/-- One event, and the answers given so far. -/
def drive {σ β : Type} (enter : ι → String → ℚ → σ → Option (σ × β)) (leave : ι → σ → Option σ) :
    σ × List β → Event ι → Option (σ × List β)
  | (s, answers), .enter i host now =>
      (enter i host now s).map fun (s, answer) => (s, answers ++ [answer])
  | (s, answers), .leave i => (leave i s).map fun s => (s, answers)

/-- The clock does not go back, and a caller is inside once. -/
def Window.enters {β : Type} [DecidableEq ι] (answer : Window ι → Window ι × β) (i : ι) (now : ℚ)
    (w : Window ι) : Option (Window ι × β) :=
  if w.clock ≤ now ∧ i ∉ w.inside then some (answer w) else none

def Window.leaves [DecidableEq ι] (i : ι) (w : Window ι) : Option (Window ι) :=
  if i ∈ w.inside then some { w with inside := w.inside.erase i } else none

variable [DecidableEq ι] (settings : AdmissionSettings)

def Window.socketStep : Window ι × List (Bool × Bool) → Event ι →
    Option (Window ι × List (Bool × Bool)) :=
  drive (fun i host now => Window.enters (Window.authenticate settings i host now) i now)
    Window.leaves

def Window.pairingStep : Window ι × List Bool → Event ι → Option (Window ι × List Bool) :=
  drive (fun i host now => Window.enters (Window.admitHost settings i host now) i now) Window.leaves

omit [DecidableEq ι]

def WebSocketSecurity.step : WebSocketSecurity × List (Bool × Bool) → Event ι →
    Option (WebSocketSecurity × List (Bool × Bool)) :=
  drive (fun _ host now => WebSocketSecurity.authenticate settings host now)
    fun _ s => some { s with auth_inflight := s.auth_inflight - 1 }

def PairingAdmission.step : PairingAdmission × List Bool → Event ι →
    Option (PairingAdmission × List Bool) :=
  drive (fun _ host now => PairingAdmission.admitHost settings host now)
    fun _ s => some { s with inflight := s.inflight - 1 }

end Ally.Admission
