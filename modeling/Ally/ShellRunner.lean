import Ally.ActionPolicy

/-!
# Bounded shell commands

`run_shell` and what it calls. Every loop follows `fuel` rounds; a run that would need
more of them has no result in the model. Closing the handles at the end is left out.
-/

namespace Ally.Companion

open Interaction
open PCAgentBridge (Json)
open Text (blank)

variable {F : Type}

def maxCommandChars : ℕ := 8192
def tailBytes : ℕ := 4000
def maxOutputBytesLimit : ℕ := 1024 * 1024
def maxProcesses : ℕ := 16
def cleanupSeconds : ℤ := 2

/-! ### Kernel calls -/

def kernel (c : KernelCall) : LocalAction F c.Answer := call (.kernel c) id

/-- `_check`. -/
def check (ok : Bool) : LocalAction F Unit := do
  if ok then return ()
  else throw (.osError (some (← kernel .lastError)))

/-- `_own`. -/
def own (handle : Option ℕ) : LocalAction F ℕ := do
  check handle.isSome
  return handle.getD 0

/-- `_pipe`. -/
def pipe : LocalAction F (ℕ × ℕ) := do
  let (ok, read, write) ← kernel .createPipe
  check ok
  let reader ← own read
  let writer ← own write
  check (← kernel (.setHandleInformation reader))
  return (reader, writer)

/-- `_attributes`. -/
def attributes (inherited : List ℕ) (job : ℕ) : LocalAction F Unit := do
  let size ← kernel .attributeListSize
  if size = 0 ∨ 65536 < size then throw (.osError none)
  else do
    check (← kernel .initializeAttributeList)
    check (← kernel (.updateHandleList inherited))
    check (← kernel (.updateJobList job))

/-! ### Output -/

/-- `_Tail`. -/
structure Tail where
  data : List UInt8
  observed : ℕ

def Tail.append (tail : Tail) (data : List UInt8) : Tail where
  data := (tail.data ++ data).rtake tailBytes
  observed := tail.observed + data.length

/-- The variables of `run_shell` that outlive an exception. -/
structure Shell where
  stdout : Tail
  stderr : Tail
  outcome : Outcome
  started : Bool
  cleanup : Bool
  returncode : Option ℕ
  errorCode : Option ℤ

def Shell.new : Shell := ⟨⟨[], 0⟩, ⟨[], 0⟩, .startupFailed, false, true, none, none⟩

def Shell.observed (s : Shell) : ℕ := s.stdout.observed + s.stderr.observed

inductive Stream
  | stdout
  | stderr
  deriving DecidableEq, Repr

def Shell.append (s : Shell) (stream : Stream) (data : List UInt8) : Shell :=
  match stream with
  | .stdout => { s with stdout := s.stdout.append data }
  | .stderr => { s with stderr := s.stderr.append data }

abbrev ShellAction (F : Type) := Stateful Effect (Effect.Answer F) Shell LocalExn

open Stateful (assign finally' lift read)

/-- The rounds of `_drain`; `count` bytes have been read so far. -/
def drainRounds (handle : ℕ) (stream : Stream) (allowance : ℕ) : ℕ → ℕ → ShellAction F ℕ
  | 0, count => return count
  | rounds + 1, count => do
      if allowance ≤ count then return count
      else
        let (ok, available) ← lift (kernel (.peekNamedPipe handle))
        if ← lift (do if ok then return false else return (← kernel .lastError) = 109) then
          return count
        else
          lift (check ok)
          if available = 0 then return count
          else
            let size := min 8192 (min available (allowance - count))
            let (ok, data) ← lift (kernel (.readFile handle size))
            lift (check ok)
            assign (·.append stream (data.take size))
            drainRounds handle stream allowance rounds (count + data.length)

/-- `_drain`. -/
def drain (handle : ℕ) (stream : Stream) (allowance : ℕ) : ShellAction F ℕ :=
  drainRounds handle stream allowance 4 0

/-- The loop over the two streams. -/
def drainBoth (stdoutRead stderrRead maxOutputBytes : ℕ) : ShellAction F ℕ := do
  let before ← read
  let first ← drain stdoutRead .stdout (maxOutputBytes + 1 - before.observed)
  let between ← read
  let second ← drain stderrRead .stderr (maxOutputBytes + 1 - between.observed)
  return first + second

/-! ### Termination -/

/-- One member of the job; whether all were inspected, and the handles to wait for. -/
def inspectMember (job : ℕ) (seen : Bool × List ℕ) (pid : ℕ) : LocalAction F (Bool × List ℕ) := do
  match ← kernel (.openProcess pid) with
  | none => return (seen.1 && (← kernel .lastError) = 87, seen.2)
  | some handle =>
      let (ok, member) ← kernel (.isProcessInJob handle job)
      if !ok then return (false, seen.2)
      else if member then return (seen.1, seen.2 ++ [handle])
      else return seen

def allGone : List ℕ → LocalAction F Bool
  | [] => return true
  | handle :: handles => do
      if (← kernel (.waitForSingleObject handle)) = 0 then allGone handles else return false

section Clock

variable [PyFloat F]

def awaitEmptyJob (job process : ℕ) (inspected : Bool) (handles : List ℕ) (deadline : F) :
    ℕ → LocalAction F Bool
  | 0 => beyond
  | fuel + 1 => do
      if (← call .monotonic id) < deadline then
        let (ok, active) ← kernel (.queryJobAccounting job)
        if !ok then return false
        else if ← (do if active = 0 then allGone (process :: handles) else return false) then
          return inspected
        else
          call .sleep id
          awaitEmptyJob job process inspected handles deadline fuel
      else return false

/-- `_terminate_and_confirm`. -/
def terminateAndConfirm (fuel job process : ℕ) : LocalAction F Bool := do
  let (listed, members) ← kernel (.queryJobMembers job)
  let (inspected, handles) ←
    (if listed then members.take maxProcesses else []).foldlM (inspectMember job) (listed, [])
  if !(← kernel (.terminateJobObject job)) then return false
  else
    let deadline := (← call .monotonic id) + ((cleanupSeconds : ℤ) : F)
    awaitEmptyJob job process inspected handles deadline fuel

/-! ### The command -/

/-- `cancel.is_set() or time.monotonic() >= end`. -/
def stopped (stop : F) : LocalAction F Bool := do
  if ← call .cancelIsSet id then return true
  else return decide (stop ≤ (← call .monotonic id))

def stoppedOutcome : LocalAction F Outcome := do
  return if ← call .cancelIsSet id then .cancelled else .timedOut

/-- The polling loop. -/
def poll (process stdoutRead stderrRead maxOutputBytes : ℕ) (stop : F) : ℕ → ShellAction F Unit
  | 0 => lift beyond
  | fuel + 1 => do
      if ← lift (call .cancelIsSet id) then assign ({ · with outcome := .cancelled })
      else if stop ≤ (← lift (call .monotonic id)) then assign ({ · with outcome := .timedOut })
      else
        let _ ← drainBoth stdoutRead stderrRead maxOutputBytes
        if maxOutputBytes < (← read).observed then assign ({ · with outcome := .outputLimit })
        else
          let state ← lift (kernel (.waitForSingleObject process))
          if state = 0 then
            let (ok, code) ← lift (kernel (.getExitCodeProcess process))
            lift (check ok)
            assign ({ · with outcome := .exited, returncode := some code })
          else
            lift (check (state = 258))
            lift (call .cancelWait id)
            poll process stdoutRead stderrRead maxOutputBytes stop fuel

/-- The loop that drains what the pipes still hold after all writers have ended. -/
def drainResidual (stdoutRead stderrRead maxOutputBytes : ℕ) : ℕ → ShellAction F Unit
  | 0 => lift beyond
  | fuel + 1 => do
      let count ← drainBoth stdoutRead stderrRead maxOutputBytes
      let s ← read
      if maxOutputBytes < s.observed then
        if s.outcome = .exited then assign ({ · with outcome := .outputLimit })
        else return ()
      else if count = 0 then return ()
      else drainResidual stdoutRead stderrRead maxOutputBytes fuel

/-- What is set up before the process. -/
structure Setup where
  job : ℕ
  stdoutRead : ℕ
  stderrRead : ℕ
  executable : String

def setUp : LocalAction F Setup := do
  kernel .load
  let job ← own (← kernel .createJobObject)
  check (← kernel (.setInformationJobObject job))
  let (stdoutRead, stdoutWrite) ← pipe
  let (stderrRead, stderrWrite) ← pipe
  let stdin ← own (← kernel .createFile)
  attributes [stdin, stdoutWrite, stderrWrite] job
  let (length, directory) ← kernel .getSystemDirectory
  check (0 < length && length < 32768)
  return ⟨job, stdoutRead, stderrRead, directory ++ "\\cmd.exe"⟩

/-- The `try` around the running process, without its `finally`. -/
def follow (fuel process thread maxOutputBytes : ℕ) (setup : Setup) (stop : F) :
    ShellAction F Unit := do
  if ← lift (stopped stop) then
    let outcome ← lift stoppedOutcome
    assign ({ · with outcome })
  else
    lift (check ((← lift (kernel (.resumeThread thread))) ≠ 0xFFFFFFFF))
    assign ({ · with started := true })
    poll process setup.stdoutRead setup.stderrRead maxOutputBytes stop fuel

/-- From `CreateProcessW` on. -/
def startProcess (fuel maxOutputBytes : ℕ) (command : String) (cwd : Option String)
    (setup : Setup) (stop : F) : ShellAction F Unit := do
  let (ok, process, thread) ← lift (kernel (.createProcess setup.executable
    ("\"" ++ setup.executable ++ "\" /d /s /c \"" ++ command ++ "\"") cwd))
  lift (check ok)
  -- Only explicit observation can confirm termination.
  assign ({ · with cleanup := false })
  let process ← lift (own process)
  let thread ← lift (own thread)
  finally' (follow fuel process thread maxOutputBytes setup stop) (do
    let cleanup ← lift (terminateAndConfirm fuel setup.job process)
    assign ({ · with cleanup }))
  drainResidual setup.stdoutRead setup.stderrRead maxOutputBytes fuel

def execute (fuel maxOutputBytes : ℕ) (command : String) (cwd : Option String) (stop : F) :
    ShellAction F Unit :=
  tryCatch (do
    let setup ← lift setUp
    if ← lift (stopped stop) then
      let outcome ← lift stoppedOutcome
      assign ({ · with outcome })
    else startProcess fuel maxOutputBytes command cwd setup stop) fun exn =>
    if exn.isOSError then
      assign fun s => { s with
        outcome := if s.started then .runtimeError else .startupFailed
        errorCode := exn.errno }
    else throw exn

/-- `ShellResult(outcome)`. -/
def ShellResult.early (outcome : Outcome) : ShellResult :=
  ⟨outcome, none, "", "", 0, 0, false, false, true, 0, none⟩

def Shell.result (host : Host) (s : Shell) (durationMs : ℤ) : ShellResult where
  outcome := s.outcome
  returncode := s.returncode
  stdout := host.decode s.stdout.data
  stderr := host.decode s.stderr.data
  stdoutBytesObserved := s.stdout.observed
  stderrBytesObserved := s.stderr.observed
  truncated := tailBytes < s.stdout.observed || tailBytes < s.stderr.observed ||
    s.outcome = .outputLimit
  started := s.started
  cleanupConfirmed := s.cleanup
  durationMs := durationMs
  errorCode := s.errorCode

/-- The checks of the arguments; the timeout as a float and the directory to start in. -/
def checkShellArguments (host : Host) (command : String) (cwd timeout : Json)
    (deadline : Option F) (maxOutputBytes : ℕ) : Result (F × Option String) := do
  refuse "Invalid bounded shell command"
    (blank command || maxCommandChars < command.length || command.toList.contains '\x00')
  let seconds ← match (number? timeout : Option (Number F)) with
    | none => .error (.valueError "Invalid shell timeout")
    | some n => do
        let finite ← n.isFinite
        refuse "Invalid shell timeout" (!finite || !n.within 0 120)
        n.toFloat
  refuse "Invalid shell output limit"
    (maxOutputBytes < 1 || maxOutputBytesLimit < maxOutputBytes)
  refuse "Invalid shell deadline" (deadline.any fun d => !PyFloat.isFinite d)
  match cwd with
  | .null => return (seconds, none)
  | .string path => do
      refuse "Shell working directory must be absolute" !host.isAbsolute path
      return (seconds, some path)
  | _ => .error (.valueError "Shell working directory must be absolute")

/-- `min(began + timeout, deadline)`. -/
def endOf (began seconds : F) : Option F → F
  | none => began + seconds
  | some d => if d < began + seconds then d else began + seconds

def runShell (host : Host) (fuel : ℕ) (command : String) (cwd timeout : Json)
    (deadline : Option F) (maxOutputBytes : ℕ) : LocalAction F ShellResult := do
  let (seconds, directory) ←
    fromExcept (checkShellArguments host command cwd timeout deadline maxOutputBytes)
  let began ← call .monotonic id
  let stop := endOf began seconds deadline
  if ← call .cancelIsSet id then return ShellResult.early .cancelled
  else if stop ≤ began then return ShellResult.early .timedOut
  else if !host.nt then return ShellResult.early .startupFailed
  else
    let (done, s) ← ExceptT.lift
      ((execute fuel maxOutputBytes command directory stop).start Shell.new)
    let _ ← fromExcept done
    let now ← call .monotonic id
    return s.result host (PyFloat.truncate ((now - began) * ((1000 : ℤ) : F)))

end Clock

/-! ### What the runner asks for -/

/-- The effects of a shell command. -/
def shellEffect : Effect → Bool
  | .kernel _ | .cancelIsSet | .cancelWait | .monotonic | .sleep | .beyond => true
  | _ => false

def kernelEffect : Effect → Bool
  | .kernel _ => true
  | _ => false

theorem shellEffect_of_kernel {e : Effect} (h : kernelEffect e) : shellEffect e := by
  unfold kernelEffect at h
  split at h
  · rfl
  · cases h

/-- The effects that neither open a pipe nor read from one. -/
def quietEffect : Effect → Bool
  | .kernel .createPipe | .kernel (.readFile ..) => false
  | e => shellEffect e

theorem shellEffect_of_quiet {e : Effect} (h : quietEffect e) : shellEffect e := by
  unfold quietEffect at h
  split at h
  · cases h
  · cases h
  · exact h

section Effects

/-- `p` asks for nothing but kernel calls and the clock. -/
abbrev ShellOnly {α : Type} (p : LocalAction F α) : Prop := Only (fun e => shellEffect e) p.run

/-- `p` leaves the pipes alone. -/
abbrev Quiet {α : Type} (p : LocalAction F α) : Prop := Only (fun e => quietEffect e) p.run

theorem Quiet.shellOnly {α : Type} {p : LocalAction F α} (h : Quiet p) : ShellOnly p :=
  h.mono fun _ => shellEffect_of_quiet

theorem shellOnly_kernel (c : KernelCall) : ShellOnly (kernel c : LocalAction F c.Answer) :=
  only_call _ rfl

theorem quiet_kernel (c : KernelCall) (h : quietEffect (.kernel c)) :
    Quiet (kernel c : LocalAction F c.Answer) :=
  only_call _ h

theorem only_check {P : Effect → Prop} (ok : Bool) (h : P (.kernel .lastError)) :
    Only P (check ok : LocalAction F Unit).run := by
  unfold check
  cases ok with
  | true => exact only_run_pure ()
  | false => exact only_run_bind (only_call _ h) fun _ => only_run_throw _

theorem quiet_check (ok : Bool) : Quiet (check ok : LocalAction F Unit) := only_check ok rfl

theorem quiet_own (handle : Option ℕ) : Quiet (own handle : LocalAction F ℕ) :=
  only_run_bind (quiet_check _) fun _ => only_run_pure _

theorem shellOnly_pipe : ShellOnly (pipe : LocalAction F (ℕ × ℕ)) := by
  refine only_run_bind (shellOnly_kernel _) fun ⟨ok, reading, writing⟩ => ?_
  refine only_run_bind (quiet_check _).shellOnly fun _ => ?_
  refine only_run_bind (quiet_own _).shellOnly fun reader => ?_
  refine only_run_bind (quiet_own _).shellOnly fun writer => ?_
  refine only_run_bind (shellOnly_kernel _) fun inheritable => ?_
  exact only_run_bind (quiet_check _).shellOnly fun _ => only_run_pure _

theorem quiet_attributes (inherited : List ℕ) (job : ℕ) :
    Quiet (attributes inherited job : LocalAction F Unit) := by
  refine only_run_bind (quiet_kernel _ rfl) fun size => ?_
  by_cases hsize : size = 0 ∨ 65536 < size
  · rw [if_pos hsize]
    exact only_run_throw _
  · rw [if_neg hsize]
    refine only_run_bind (quiet_kernel _ rfl) fun _ => ?_
    refine only_run_bind (quiet_check _) fun _ => ?_
    refine only_run_bind (quiet_kernel _ rfl) fun _ => ?_
    refine only_run_bind (quiet_check _) fun _ => ?_
    exact only_run_bind (quiet_kernel _ rfl) fun _ => quiet_check _

theorem shellOnly_setUp : ShellOnly (setUp : LocalAction F Setup) := by
  refine only_run_bind (shellOnly_kernel _) fun _ => ?_
  refine only_run_bind (shellOnly_kernel _) fun _ => ?_
  refine only_run_bind (quiet_own _).shellOnly fun job => ?_
  refine only_run_bind (shellOnly_kernel _) fun _ => ?_
  refine only_run_bind (quiet_check _).shellOnly fun _ => ?_
  refine only_run_bind shellOnly_pipe fun ⟨stdoutRead, stdoutWrite⟩ => ?_
  refine only_run_bind shellOnly_pipe fun ⟨stderrRead, stderrWrite⟩ => ?_
  refine only_run_bind (shellOnly_kernel _) fun _ => ?_
  refine only_run_bind (quiet_own _).shellOnly fun stdin => ?_
  refine only_run_bind (quiet_attributes _ _).shellOnly fun _ => ?_
  refine only_run_bind (shellOnly_kernel _) fun ⟨length, directory⟩ => ?_
  exact only_run_bind (quiet_check _).shellOnly fun _ => only_run_pure _

theorem kernelOnly_drainRounds (handle : ℕ) (stream : Stream) (allowance rounds count : ℕ) :
    (drainRounds handle stream allowance rounds count : ShellAction F ℕ).Only
      (fun e => kernelEffect e) := by
  induction rounds generalizing count with
  | zero => exact Stateful.only_pure _
  | succ rounds ih =>
      unfold drainRounds
      by_cases hcount : allowance ≤ count
      · rw [if_pos hcount]
        exact Stateful.only_pure _
      rw [if_neg hcount]
      refine Stateful.only_bind (Stateful.only_lift (only_call _ rfl)) fun ⟨ok, available⟩ => ?_
      refine Stateful.only_bind (Stateful.only_lift ?_) fun broken => ?_
      · cases ok with
        | true => exact only_run_pure _
        | false => exact only_run_bind (only_call _ rfl) fun _ => only_run_pure _
      cases broken with
      | true => exact Stateful.only_pure _
      | false =>
          refine Stateful.only_bind (Stateful.only_lift (only_check _ rfl)) fun _ => ?_
          by_cases havailable : available = 0
          · rw [if_pos havailable]
            exact Stateful.only_pure _
          rw [if_neg havailable]
          refine Stateful.only_bind (Stateful.only_lift (only_call _ rfl)) fun ⟨ok, data⟩ => ?_
          refine Stateful.only_bind (Stateful.only_lift (only_check _ rfl)) fun _ => ?_
          exact Stateful.only_bind (Stateful.only_assign _) fun _ => ih _

theorem kernelOnly_drainBoth (stdoutRead stderrRead maxOutputBytes : ℕ) :
    (drainBoth stdoutRead stderrRead maxOutputBytes : ShellAction F ℕ).Only
      (fun e => kernelEffect e) := by
  refine Stateful.only_bind Stateful.only_read fun before => ?_
  refine Stateful.only_bind (kernelOnly_drainRounds ..) fun first => ?_
  refine Stateful.only_bind Stateful.only_read fun between => ?_
  exact Stateful.only_bind (kernelOnly_drainRounds ..) fun second => Stateful.only_pure _

theorem quiet_beyond {α : Type} : Quiet (beyond : LocalAction F α) :=
  only_call _ rfl

theorem shellOnly_drainResidual (stdoutRead stderrRead maxOutputBytes fuel : ℕ) :
    (drainResidual stdoutRead stderrRead maxOutputBytes fuel : ShellAction F Unit).Only
      (fun e => shellEffect e) := by
  induction fuel with
  | zero => exact Stateful.only_lift quiet_beyond.shellOnly
  | succ fuel ih =>
      refine Stateful.only_bind ((kernelOnly_drainBoth ..).mono fun _ => shellEffect_of_kernel) fun count => ?_
      refine Stateful.only_bind Stateful.only_read fun s => ?_
      split_ifs
      · exact Stateful.only_assign _
      · exact Stateful.only_pure _
      · exact Stateful.only_pure _
      · exact ih

theorem quiet_allGone (handles : List ℕ) : Quiet (allGone handles : LocalAction F Bool) := by
  induction handles with
  | nil => exact only_run_pure _
  | cons handle handles ih =>
      refine only_run_bind (quiet_kernel _ rfl) fun state => ?_
      split_ifs
      · exact ih
      · exact only_run_pure _

theorem quiet_inspectMember (job : ℕ) (seen : Bool × List ℕ) (pid : ℕ) :
    Quiet (inspectMember job seen pid : LocalAction F (Bool × List ℕ)) := by
  refine only_run_bind (quiet_kernel _ rfl) fun handle => ?_
  cases handle with
  | none => exact only_run_bind (quiet_kernel _ rfl) fun _ => only_run_pure _
  | some handle =>
      refine only_run_bind (quiet_kernel _ rfl) fun ⟨ok, member⟩ => ?_
      cases ok with
      | false => exact only_run_pure _
      | true =>
          cases member with
          | true => exact only_run_pure _
          | false => exact only_run_pure _

theorem quiet_inspectMembers (job : ℕ) (pids : List ℕ) (seen : Bool × List ℕ) :
    Quiet (pids.foldlM (inspectMember job) seen : LocalAction F (Bool × List ℕ)) := by
  induction pids generalizing seen with
  | nil => exact only_run_pure _
  | cons pid pids ih => exact only_run_bind (quiet_inspectMember ..) fun seen => ih seen

section Clock

variable [PyFloat F]

omit [PyFloat F] in
theorem quiet_monotonic : Quiet (call .monotonic id : LocalAction F F) :=
  only_call _ rfl

omit [PyFloat F] in
theorem quiet_cancelIsSet : Quiet (call .cancelIsSet id : LocalAction F Bool) :=
  only_call _ rfl

theorem quiet_awaitEmptyJob (job process : ℕ) (inspected : Bool) (handles : List ℕ)
    (deadline : F) (fuel : ℕ) :
    Quiet (awaitEmptyJob job process inspected handles deadline fuel) := by
  induction fuel with
  | zero => exact quiet_beyond
  | succ fuel ih =>
      refine only_run_bind quiet_monotonic fun now => ?_
      split_ifs with hnow
      · refine only_run_bind (quiet_kernel _ rfl) fun ⟨ok, active⟩ => ?_
        cases ok with
        | false => exact only_run_pure _
        | true =>
            refine only_run_bind ?_ fun gone => ?_
            · split_ifs
              · exact quiet_allGone _
              · exact only_run_pure _
            cases gone with
            | true => exact only_run_pure _
            | false => exact only_run_bind (only_call _ rfl) fun _ => ih
      · exact only_run_pure _

theorem quiet_terminateAndConfirm (fuel job process : ℕ) :
    Quiet (terminateAndConfirm fuel job process : LocalAction F Bool) := by
  refine only_run_bind (quiet_kernel _ rfl) fun ⟨listed, members⟩ => ?_
  refine only_run_bind (quiet_inspectMembers ..) fun ⟨inspected, handles⟩ => ?_
  refine only_run_bind (quiet_kernel _ rfl) fun terminated => ?_
  cases terminated with
  | false => exact only_run_pure _
  | true => exact only_run_bind quiet_monotonic fun now => quiet_awaitEmptyJob ..

theorem quiet_stopped (stop : F) : Quiet (stopped stop) := by
  refine only_run_bind quiet_cancelIsSet fun cancelled => ?_
  cases cancelled with
  | true => exact only_run_pure _
  | false => exact only_run_bind quiet_monotonic fun _ => only_run_pure _

omit [PyFloat F] in
theorem quiet_stoppedOutcome : Quiet (stoppedOutcome : LocalAction F Outcome) :=
  only_run_bind quiet_cancelIsSet fun _ => only_run_pure _

theorem shellOnly_poll (process stdoutRead stderrRead maxOutputBytes : ℕ) (stop : F) (fuel : ℕ) :
    (poll process stdoutRead stderrRead maxOutputBytes stop fuel).Only
      (fun e => shellEffect e) := by
  induction fuel with
  | zero => exact Stateful.only_lift quiet_beyond.shellOnly
  | succ fuel ih =>
      refine Stateful.only_bind (Stateful.only_lift quiet_cancelIsSet.shellOnly) fun cancelled => ?_
      cases cancelled with
      | true => exact Stateful.only_assign _
      | false =>
          refine Stateful.only_bind (Stateful.only_lift quiet_monotonic.shellOnly) fun now => ?_
          split_ifs
          · exact Stateful.only_assign _
          refine Stateful.only_bind ((kernelOnly_drainBoth ..).mono fun _ => shellEffect_of_kernel) fun _ => ?_
          refine Stateful.only_bind Stateful.only_read fun s => ?_
          split_ifs
          · exact Stateful.only_assign _
          refine Stateful.only_bind (Stateful.only_lift (shellOnly_kernel _)) fun state => ?_
          split_ifs
          · refine Stateful.only_bind (Stateful.only_lift (shellOnly_kernel _)) fun ⟨ok, code⟩ => ?_
            exact Stateful.only_bind (Stateful.only_lift (quiet_check _).shellOnly) fun _ =>
              Stateful.only_assign _
          · refine Stateful.only_bind (Stateful.only_lift (quiet_check _).shellOnly) fun _ => ?_
            exact Stateful.only_bind (Stateful.only_lift (only_call _ rfl)) fun _ => ih

theorem shellOnly_follow (fuel process thread maxOutputBytes : ℕ) (setup : Setup) (stop : F) :
    (follow fuel process thread maxOutputBytes setup stop).Only (fun e => shellEffect e) := by
  refine Stateful.only_bind (Stateful.only_lift (quiet_stopped _).shellOnly) fun ended => ?_
  cases ended with
  | true =>
      exact Stateful.only_bind (Stateful.only_lift quiet_stoppedOutcome.shellOnly) fun _ =>
        Stateful.only_assign _
  | false =>
      refine Stateful.only_bind (Stateful.only_lift (shellOnly_kernel _)) fun resumed => ?_
      refine Stateful.only_bind (Stateful.only_lift (quiet_check _).shellOnly) fun _ => ?_
      exact Stateful.only_bind (Stateful.only_assign _) fun _ => shellOnly_poll ..

theorem shellOnly_startProcess (fuel maxOutputBytes : ℕ) (command : String)
    (cwd : Option String) (setup : Setup) (stop : F) :
    (startProcess fuel maxOutputBytes command cwd setup stop).Only (fun e => shellEffect e) := by
  refine Stateful.only_bind (Stateful.only_lift (shellOnly_kernel _))
    fun ⟨ok, process, thread⟩ => ?_
  refine Stateful.only_bind (Stateful.only_lift (quiet_check _).shellOnly) fun _ => ?_
  refine Stateful.only_bind (Stateful.only_assign _) fun _ => ?_
  refine Stateful.only_bind (Stateful.only_lift (quiet_own _).shellOnly) fun process => ?_
  refine Stateful.only_bind (Stateful.only_lift (quiet_own _).shellOnly) fun thread => ?_
  refine Stateful.only_bind (Stateful.only_finally (shellOnly_follow ..) ?_) fun _ =>
    shellOnly_drainResidual ..
  exact Stateful.only_bind (Stateful.only_lift (quiet_terminateAndConfirm ..).shellOnly) fun _ =>
    Stateful.only_assign _

theorem shellOnly_execute (fuel maxOutputBytes : ℕ) (command : String) (cwd : Option String)
    (stop : F) : (execute fuel maxOutputBytes command cwd stop).Only (fun e => shellEffect e) := by
  refine Stateful.only_tryCatch ?_ fun exn => ?_
  · refine Stateful.only_bind (Stateful.only_lift shellOnly_setUp) fun setup => ?_
    refine Stateful.only_bind (Stateful.only_lift (quiet_stopped _).shellOnly) fun ended => ?_
    cases ended with
    | true =>
        exact Stateful.only_bind (Stateful.only_lift quiet_stoppedOutcome.shellOnly) fun _ =>
          Stateful.only_assign _
    | false => exact shellOnly_startProcess ..
  · split_ifs
    · exact Stateful.only_assign _
    · exact Stateful.only_throw _

/-- A shell command asks for nothing but kernel calls and the clock. -/
theorem shellOnly_runShell (host : Host) (fuel : ℕ) (command : String) (cwd timeout : Json)
    (deadline : Option F) (maxOutputBytes : ℕ) :
    ShellOnly (runShell host fuel command cwd timeout deadline maxOutputBytes) := by
  refine only_run_bind (only_fromExcept _) fun ⟨seconds, directory⟩ => ?_
  refine only_run_bind quiet_monotonic.shellOnly fun began => ?_
  refine only_run_bind quiet_cancelIsSet.shellOnly fun cancelled => ?_
  split_ifs
  · exact only_run_pure _
  · exact only_run_pure _
  · exact only_run_pure _
  · refine only_run_bind (only_bind ((shellOnly_execute ..).start Shell.new) fun _ => .done _)
      fun ⟨done, s⟩ => ?_
    refine only_run_bind (only_fromExcept _) fun _ => ?_
    exact only_run_bind quiet_monotonic.shellOnly fun _ => only_run_pure _

end Clock

end Effects

end Ally.Companion
