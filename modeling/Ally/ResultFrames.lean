import Ally.JsonSize
import Ally.ReceiveLoop
import Ally.ShellOutput
import Ally.Urls

/-!
# Result frames

The sizes of the results of the actions that report texts of the machine, and of the frames
they are sent in.
-/

namespace Ally.Companion

open Interaction
open Json (Within EntriesWithin textBytes encodeString within_bool within_dict within_int
  within_null within_string within_strings entriesWithin_cons entriesWithin_nil textBytes_escaped)
open PCAgentBridge (Json dumps numberValue valueFields valueItems)
open Stateful (assign finally' lift read)

variable {F D : Type}

/-! ### Numbers -/

theorem intOfLiteral_natRepr (n : ℕ) : intOfLiteral (Nat.repr n) = some (n : ℤ) := int?_jsonOfNat n

theorem intOfLiteral_intRepr (n : ℤ) : intOfLiteral (Int.repr n) = some n := by
  cases n with
  | ofNat m => exact intOfLiteral_natRepr m
  | negSucc m =>
      have htext : (Int.repr (.negSucc m)).toList = '-' :: Nat.toDigits 10 (m + 1) := by
        simp [Int.repr, Nat.repr]
      unfold intOfLiteral
      rw [htext]
      change (natOfDigits (Nat.toDigits 10 (m + 1)) >>= _).map _ = _
      rw [natOfDigits_toDigits]
      rfl

theorem within_jsonOfNat {fl : Json.Floats D} {n k : ℕ} (hk : 0 < k) (h : n < 10 ^ k)
    (hk' : k ≤ Json.maxStrDigits) : Within fl ((jsonOfNat n).value fl) (k + 1) := by
  change Within fl (numberValue fl (Nat.repr n)) (k + 1)
  rw [numberValue, intOfLiteral_natRepr]
  exact within_int ((Nat.length_toDigits_le_iff (by omega) hk).mpr h) hk'

theorem within_jsonOfInt {fl : Json.Floats D} {n : ℤ} {k : ℕ}
    (hk : 0 < k) (h : n.natAbs < 10 ^ k) (hk' : k ≤ Json.maxStrDigits) :
    Within fl ((jsonOfInt n).value fl) (k + 1) := by
  change Within fl (numberValue fl (Int.repr n)) (k + 1)
  rw [numberValue, intOfLiteral_intRepr]
  exact within_int ((Nat.length_toDigits_le_iff (by omega) hk).mpr h) hk'

/-! ### What the platform documents -/

/-- The error number, if there is one, has 32 bits. -/
def SmallErrno (exn : LocalExn) : Prop := ∀ code, exn.errno = some code → code.natAbs < 2 ^ 32

/-- Error numbers and exit codes have 32 bits, an identity made by `uuid4` has 36 characters,
and the clock reads what a clock reads. -/
def PlatformAnswer (clock : F → Prop) : (e : Effect) → e.Answer F → Prop
  | .kernel .lastError, .ok code => code.natAbs < 2 ^ 32
  | .kernel (.getExitCodeProcess _), .ok answer => answer.2 < 2 ^ 32
  | .kernel _, .error exn => SmallErrno exn
  | .cancelIsSet, .error exn => SmallErrno exn
  | .cancelWait, .error exn => SmallErrno exn
  | .sleep, .error exn => SmallErrno exn
  | .monotonic, .error exn => SmallErrno exn
  | .monotonic, .ok now => clock now
  | .uuid4, .ok text => text.length = 36
  | _, _ => True

/-- With documented answers, `p` raises no error number of more than 32 bits. -/
abbrev Calm (clock : F → Prop) {α : Type} (V : α → Prop) (p : LocalAction F α) : Prop :=
  Ends (PlatformAnswer clock) p.run (Post V SmallErrno)

section Calm

variable {clock : F → Prop}

theorem platformAnswer_kernel_error {c : KernelCall} {exn : LocalExn}
    (h : PlatformAnswer clock (.kernel c) (.error exn)) : SmallErrno exn := by
  cases c with
  | _ => exact h

theorem calm_kernel (c : KernelCall) :
    Calm clock (fun answer => PlatformAnswer clock (.kernel c) (.ok answer)) (kernel c) := by
  refine ends_call _ _ fun answer h => ?_
  cases answer with
  | ok _ => exact h
  | error exn => exact platformAnswer_kernel_error h

theorem Calm.mono {α : Type} {V W : α → Prop} {p : LocalAction F α} (h : Calm clock V p)
    (hV : ∀ a, V a → W a) : Calm clock W p := by
  refine Ends.mono h fun r hr => ?_
  cases r with
  | ok a => exact hV a hr
  | error exn => exact hr

theorem Calm.trivial {α : Type} {V : α → Prop} {p : LocalAction F α} (h : Calm clock V p) :
    Calm clock (fun _ => True) p :=
  h.mono fun _ _ => True.intro

theorem calm_check (ok : Bool) : Calm clock (fun _ => True) (check ok : LocalAction F Unit) := by
  unfold check
  cases ok with
  | true => exact True.intro
  | false =>
      refine ends_run_bind (calm_kernel .lastError) fun code hcode => ends_run_throw ?_
      intro code' heq
      obtain rfl : code = code' := Option.some.inj heq
      exact hcode

theorem calm_own (handle : Option ℕ) :
    Calm clock (fun _ => True) (own handle : LocalAction F ℕ) :=
  ends_run_bind (calm_check _) fun _ _ => ends_run_pure True.intro

theorem calm_pipe : Calm clock (fun _ => True) (pipe : LocalAction F (ℕ × ℕ)) := by
  refine ends_run_bind (calm_kernel _) fun ⟨ok, reading, writing⟩ _ => ?_
  refine ends_run_bind (calm_check _) fun _ _ => ?_
  refine ends_run_bind (calm_own _) fun reader _ => ?_
  refine ends_run_bind (calm_own _) fun writer _ => ?_
  refine ends_run_bind (calm_kernel _) fun inheritable _ => ?_
  exact ends_run_bind (calm_check _) fun _ _ => ends_run_pure True.intro

theorem calm_attributes (inherited : List ℕ) (job : ℕ) :
    Calm clock (fun _ => True) (attributes inherited job : LocalAction F Unit) := by
  refine ends_run_bind (calm_kernel _) fun size _ => ?_
  by_cases hsize : size = 0 ∨ 65536 < size
  · rw [if_pos hsize]
    exact ends_run_throw nofun
  · rw [if_neg hsize]
    refine ends_run_bind (calm_kernel _) fun _ _ => ?_
    refine ends_run_bind (calm_check _) fun _ _ => ?_
    refine ends_run_bind (calm_kernel _) fun _ _ => ?_
    refine ends_run_bind (calm_check _) fun _ _ => ?_
    exact ends_run_bind (calm_kernel _) fun _ _ => calm_check _

theorem calm_setUp : Calm clock (fun _ => True) (setUp : LocalAction F Setup) := by
  refine ends_run_bind (calm_kernel _) fun _ _ => ?_
  refine ends_run_bind (calm_kernel _) fun _ _ => ?_
  refine ends_run_bind (calm_own _) fun job _ => ?_
  refine ends_run_bind (calm_kernel _) fun _ _ => ?_
  refine ends_run_bind (calm_check _) fun _ _ => ?_
  refine ends_run_bind calm_pipe fun ⟨stdoutRead, stdoutWrite⟩ _ => ?_
  refine ends_run_bind calm_pipe fun ⟨stderrRead, stderrWrite⟩ _ => ?_
  refine ends_run_bind (calm_kernel _) fun _ _ => ?_
  refine ends_run_bind (calm_own _) fun stdin _ => ?_
  refine ends_run_bind (calm_attributes _ _) fun _ _ => ?_
  refine ends_run_bind (calm_kernel _) fun ⟨length, directory⟩ _ => ?_
  exact ends_run_bind (calm_check _) fun _ _ => ends_run_pure True.intro

theorem calm_cancelIsSet :
    Calm clock (fun _ => True) (call .cancelIsSet id : LocalAction F Bool) := by
  refine ends_call _ _ fun answer h => ?_
  cases answer with
  | ok _ => exact True.intro
  | error exn => exact h

theorem calm_monotonic : Calm clock clock (call .monotonic id : LocalAction F F) := by
  refine ends_call _ _ fun answer h => ?_
  cases answer with
  | ok _ => exact h
  | error exn => exact h

theorem calm_allGone (handles : List ℕ) :
    Calm clock (fun _ => True) (allGone handles : LocalAction F Bool) := by
  induction handles with
  | nil => exact True.intro
  | cons handle handles ih =>
      refine ends_run_bind (calm_kernel _) fun state _ => ?_
      exact ends_run_ite ih (ends_run_pure True.intro)

theorem calm_inspectMember (job : ℕ) (seen : Bool × List ℕ) (pid : ℕ) :
    Calm clock (fun _ => True) (inspectMember job seen pid : LocalAction F (Bool × List ℕ)) := by
  refine ends_run_bind (calm_kernel _) fun handle _ => ?_
  cases handle with
  | none => exact ends_run_bind (calm_kernel _) fun _ _ => ends_run_pure True.intro
  | some handle =>
      refine ends_run_bind (calm_kernel _) fun ⟨ok, member⟩ _ => ?_
      refine ends_run_ite (ends_run_pure True.intro) ?_
      exact ends_run_ite (ends_run_pure True.intro) (ends_run_pure True.intro)

theorem calm_inspectMembers (job : ℕ) (pids : List ℕ) (seen : Bool × List ℕ) :
    Calm clock (fun _ => True)
      (pids.foldlM (inspectMember job) seen : LocalAction F (Bool × List ℕ)) := by
  induction pids generalizing seen with
  | nil => exact True.intro
  | cons pid pids ih =>
      rw [List.foldlM_cons]
      exact ends_run_bind (calm_inspectMember job seen pid) fun seen _ => ih seen

variable [PyFloat F]

theorem calm_awaitEmptyJob (job process : ℕ) (inspected : Bool) (handles : List ℕ)
    (deadline : F) (fuel : ℕ) :
    Calm clock (fun _ => True) (awaitEmptyJob job process inspected handles deadline fuel) := by
  induction fuel with
  | zero => exact nofun
  | succ fuel ih =>
      refine ends_run_bind calm_monotonic fun now _ => ?_
      refine ends_run_ite ?_ (ends_run_pure True.intro)
      refine ends_run_bind (calm_kernel _) fun ⟨ok, active⟩ _ => ?_
      refine ends_run_ite (ends_run_pure True.intro) ?_
      refine ends_run_bind (V := fun _ => True) ?_ fun gone _ => ?_
      · exact ends_run_ite (calm_allGone _) (ends_run_pure True.intro)
      refine ends_run_ite (ends_run_pure True.intro) ?_
      refine ends_run_bind (V := fun _ => True) (ends_call _ _ fun answer h => ?_) fun _ _ => ih
      cases answer with
      | ok _ => exact True.intro
      | error exn => exact h

theorem calm_terminateAndConfirm (fuel job process : ℕ) :
    Calm clock (fun _ => True) (terminateAndConfirm fuel job process : LocalAction F Bool) := by
  refine ends_run_bind (calm_kernel _) fun ⟨listed, members⟩ _ => ?_
  refine ends_run_bind (calm_inspectMembers ..) fun ⟨inspected, handles⟩ _ => ?_
  refine ends_run_bind (calm_kernel _) fun terminated _ => ?_
  refine ends_run_ite (ends_run_pure True.intro) ?_
  exact ends_run_bind calm_monotonic fun now _ => calm_awaitEmptyJob ..

theorem calm_stopped (stop : F) : Calm clock (fun _ => True) (stopped stop) := by
  refine ends_run_bind calm_cancelIsSet fun cancelled _ => ?_
  refine ends_run_ite (ends_run_pure True.intro) ?_
  exact ends_run_bind calm_monotonic fun _ _ => ends_run_pure True.intro

omit [PyFloat F] in
theorem calm_stoppedOutcome :
    Calm clock (fun _ => True) (stoppedOutcome : LocalAction F Outcome) :=
  ends_run_bind calm_cancelIsSet fun _ _ => ends_run_pure True.intro

end Calm

/-! ### What a shell command reports -/

/-- What bounds the report. -/
structure Modest (s : Shell) : Prop where
  stdout : s.stdout.data.length ≤ tailBytes
  stderr : s.stderr.data.length ≤ tailBytes
  returncode : ∀ code, s.returncode = some code → code < 2 ^ 32
  errorCode : ∀ code, s.errorCode = some code → code.natAbs < 2 ^ 32

theorem length_rtake_le {α : Type} (n : ℕ) (l : List α) : (l.rtake n).length ≤ n := by
  rw [List.rtake_eq_reverse_take_reverse, List.length_reverse]
  exact List.length_take_le ..

theorem Modest.append {s : Shell} (h : Modest s) (stream : Stream) (data : List UInt8) :
    Modest (s.append stream data) := by
  have htail (tail : Tail) : (tail.append data).data.length ≤ tailBytes := by
    simp only [Tail.append]
    exact length_rtake_le _ _
  unfold Shell.append
  cases stream with
  | stdout => exact ⟨htail s.stdout, h.stderr, h.returncode, h.errorCode⟩
  | stderr => exact ⟨h.stdout, htail s.stderr, h.returncode, h.errorCode⟩

theorem modest_new : Modest Shell.new := ⟨Nat.zero_le _, Nat.zero_le _, nofun, nofun⟩

/-- With documented answers the variables stay within their bounds. -/
abbrev Bounded (clock : F → Prop) {α : Type} (p : ShellAction F α) : Prop :=
  p.Returns (PlatformAnswer clock) Modest (fun _ => True) SmallErrno

section Bounded

variable {clock : F → Prop}

theorem Calm.bounded {α : Type} {V : α → Prop} {p : LocalAction F α} (h : Calm clock V p) :
    Bounded clock (lift p) :=
  Stateful.returns_lift h.trivial

theorem bounded_pure {α : Type} (a : α) : Bounded clock (pure a : ShellAction F α) :=
  Stateful.returns_pure True.intro

theorem bounded_read : Bounded clock (read : ShellAction F Shell) :=
  ⟨fun _ hs => ⟨hs, True.intro⟩⟩

theorem bounded_outcome (outcome : Outcome) :
    Bounded clock (assign ({ · with outcome }) : ShellAction F Unit) :=
  Stateful.returns_assign fun _ hs => ⟨hs.1, hs.2, hs.3, hs.4⟩

theorem bounded_drainRounds (handle : ℕ) (stream : Stream) (allowance rounds count : ℕ) :
    Bounded clock (drainRounds handle stream allowance rounds count : ShellAction F ℕ) := by
  induction rounds generalizing count with
  | zero => exact bounded_pure _
  | succ rounds ih =>
      unfold drainRounds
      by_cases hcount : allowance ≤ count
      · rw [if_pos hcount]
        exact bounded_pure _
      rw [if_neg hcount]
      refine Stateful.returns_bind (calm_kernel _).bounded fun peeked _ => ?_
      obtain ⟨ok, available⟩ := peeked
      refine Stateful.returns_bind (V := fun _ => True) (Stateful.returns_lift ?_) fun broken _ => ?_
      · cases ok with
        | true => exact ends_run_pure True.intro
        | false => exact ends_run_bind (calm_kernel _) fun _ _ => ends_run_pure True.intro
      refine Stateful.returns_ite (bounded_pure _) ?_
      refine Stateful.returns_bind (calm_check _).bounded fun _ _ => ?_
      refine Stateful.returns_ite (bounded_pure _) ?_
      refine Stateful.returns_bind (calm_kernel _).bounded fun read _ => ?_
      obtain ⟨ok, data⟩ := read
      refine Stateful.returns_bind (calm_check _).bounded fun _ _ => ?_
      refine Stateful.returns_bind (Stateful.returns_assign fun s hs => ?_) fun _ _ => ih _
      exact hs.append stream _

theorem bounded_drainBoth (stdoutRead stderrRead maxOutputBytes : ℕ) :
    Bounded clock (drainBoth stdoutRead stderrRead maxOutputBytes : ShellAction F ℕ) := by
  refine Stateful.returns_bind bounded_read fun before _ => ?_
  refine Stateful.returns_bind (bounded_drainRounds ..) fun first _ => ?_
  refine Stateful.returns_bind bounded_read fun between _ => ?_
  exact Stateful.returns_bind (bounded_drainRounds ..) fun second _ => bounded_pure _

theorem bounded_drainResidual (stdoutRead stderrRead maxOutputBytes fuel : ℕ) :
    Bounded clock
      (drainResidual stdoutRead stderrRead maxOutputBytes fuel : ShellAction F Unit) := by
  induction fuel with
  | zero => exact Stateful.returns_lift nofun
  | succ fuel ih =>
      refine Stateful.returns_bind (bounded_drainBoth ..) fun count _ => ?_
      refine Stateful.returns_bind bounded_read fun s _ => ?_
      refine Stateful.returns_ite ?_ (Stateful.returns_ite (bounded_pure _) ih)
      exact Stateful.returns_ite (bounded_outcome _) (bounded_pure _)

variable [PyFloat F]

theorem bounded_poll (process stdoutRead stderrRead maxOutputBytes : ℕ) (stop : F) (fuel : ℕ) :
    Bounded clock (poll process stdoutRead stderrRead maxOutputBytes stop fuel) := by
  induction fuel with
  | zero => exact Stateful.returns_lift nofun
  | succ fuel ih =>
      refine Stateful.returns_bind calm_cancelIsSet.bounded fun cancelled _ => ?_
      refine Stateful.returns_ite (bounded_outcome _) ?_
      refine Stateful.returns_bind calm_monotonic.bounded fun now _ => ?_
      refine Stateful.returns_ite (bounded_outcome _) ?_
      refine Stateful.returns_bind (bounded_drainBoth ..) fun _ _ => ?_
      refine Stateful.returns_bind bounded_read fun s _ => ?_
      refine Stateful.returns_ite (bounded_outcome _) ?_
      refine Stateful.returns_bind (calm_kernel _).bounded fun state _ => ?_
      refine Stateful.returns_ite ?_ ?_
      · refine Stateful.returns_bind (Stateful.returns_lift (calm_kernel _)) fun ⟨ok, code⟩ hcode => ?_
        refine Stateful.returns_bind (calm_check _).bounded fun _ _ => ?_
        refine Stateful.returns_assign fun s hs => ⟨hs.1, hs.2, ?_, hs.4⟩
        rintro code' heq
        obtain rfl : code = code' := Option.some.inj heq
        exact hcode
      · refine Stateful.returns_bind (calm_check _).bounded fun _ _ => ?_
        refine Stateful.returns_bind (V := fun _ => True) (Stateful.returns_lift ?_) fun _ _ => ih
        refine ends_call _ _ fun answer h => ?_
        cases answer with
        | ok _ => exact True.intro
        | error exn => exact h

theorem bounded_follow (fuel process thread maxOutputBytes : ℕ) (setup : Setup) (stop : F) :
    Bounded clock (follow fuel process thread maxOutputBytes setup stop) := by
  refine Stateful.returns_bind (calm_stopped stop).bounded fun halted _ => ?_
  refine Stateful.returns_ite ?_ ?_
  · exact Stateful.returns_bind calm_stoppedOutcome.bounded fun _ _ => bounded_outcome _
  · refine Stateful.returns_bind (calm_kernel _).bounded fun resumed _ => ?_
    refine Stateful.returns_bind (calm_check _).bounded fun _ _ => ?_
    refine Stateful.returns_bind (V := fun _ => True) (Stateful.returns_assign fun s hs => ?_)
      fun _ _ => bounded_poll ..
    exact ⟨hs.1, hs.2, hs.3, hs.4⟩

theorem bounded_startProcess (fuel maxOutputBytes : ℕ) (command : String) (cwd : Option String)
    (setup : Setup) (stop : F) :
    Bounded clock (startProcess fuel maxOutputBytes command cwd setup stop) := by
  refine Stateful.returns_bind (calm_kernel _).bounded fun ⟨ok, process, thread⟩ _ => ?_
  refine Stateful.returns_bind (calm_check _).bounded fun _ _ => ?_
  refine Stateful.returns_bind (V := fun _ => True) (Stateful.returns_assign fun s hs => ?_)
    fun _ _ => ?_
  · exact ⟨hs.1, hs.2, hs.3, hs.4⟩
  refine Stateful.returns_bind (calm_own _).bounded fun process _ => ?_
  refine Stateful.returns_bind (calm_own _).bounded fun thread _ => ?_
  refine Stateful.returns_bind (V := fun _ => True) (Stateful.returns_finally (bounded_follow ..) ?_)
    fun _ _ => bounded_drainResidual ..
  refine Stateful.returns_bind (calm_terminateAndConfirm fuel setup.job process).bounded fun cleanup _ => ?_
  exact Stateful.returns_assign fun s hs => ⟨hs.1, hs.2, hs.3, hs.4⟩

theorem bounded_execute (fuel maxOutputBytes : ℕ) (command : String) (cwd : Option String)
    (stop : F) : Bounded clock (execute fuel maxOutputBytes command cwd stop) := by
  refine Stateful.returns_tryCatch ?_ fun exn hexn => ?_
  · refine Stateful.returns_bind calm_setUp.bounded fun setup _ => ?_
    refine Stateful.returns_bind (calm_stopped stop).bounded fun halted _ => ?_
    refine Stateful.returns_ite ?_ (bounded_startProcess ..)
    exact Stateful.returns_bind calm_stoppedOutcome.bounded fun _ _ => bounded_outcome _
  · refine Stateful.returns_ite ?_ (Stateful.returns_throw hexn)
    exact Stateful.returns_assign fun s hs => ⟨hs.1, hs.2, hs.3, hexn⟩

end Bounded

section Results

variable [PyFloat F] {clock : F → Prop} {host : Host}

theorem length_decode (bytes : List UInt8) : (Urls.decode bytes).length ≤ bytes.length := by
  have hloop : ∀ fuel (bytes : List UInt8), (Urls.decodeLoop fuel bytes).length ≤ fuel := by
    intro fuel
    induction fuel with
    | zero => exact fun _ => le_rfl
    | succ fuel ih =>
        intro bytes
        cases bytes with
        | nil => exact Nat.zero_le _
        | cons b bytes =>
            unfold Urls.decodeLoop
            split
            · exact Nat.succ_le_succ (ih _)
            · exact Nat.succ_le_succ (ih _)
  exact hloop _ bytes

/-- No more digits stand before the point of a float. -/
def floatDigits : ℕ := 310

/-- What bounds a result. -/
structure ModestResult (result : ShellResult) : Prop where
  stdout : result.stdout.toList.length ≤ tailBytes
  stderr : result.stderr.toList.length ≤ tailBytes
  returncode : ∀ code, result.returncode = some code → code < 2 ^ 32
  errorCode : ∀ code, result.errorCode = some code → code.natAbs < 2 ^ 32
  duration : result.durationMs.natAbs < 10 ^ floatDigits

theorem modestResult_early (outcome : Outcome) : ModestResult (ShellResult.early outcome) :=
  ⟨Nat.zero_le _, Nat.zero_le _, nofun, nofun, Nat.pow_pos (n := floatDigits) (by omega : 0 < 10)⟩

theorem modestResult_shell
    (hdecode : ∀ bytes, host.decode bytes = String.ofList (Urls.decode bytes)) {s : Shell}
    (hs : Modest s) {durationMs : ℤ} (hduration : durationMs.natAbs < 10 ^ floatDigits) :
    ModestResult (s.result host durationMs) := by
  have htext {data : List UInt8} (h : data.length ≤ tailBytes) :
      (host.decode data).toList.length ≤ tailBytes := by
    rw [hdecode, String.toList_ofList]
    exact (length_decode data).trans h
  exact ⟨htext hs.stdout, htext hs.stderr, hs.returncode, hs.errorCode, hduration⟩

theorem modest_runShell (fuel : ℕ) (command : String) (cwd timeout : Json)
    (deadline : Option F) (limit : ℕ)
    (hdecode : ∀ bytes, host.decode bytes = String.ofList (Urls.decode bytes))
    (hclock : ∀ a b, clock a → clock b →
      (PyFloat.truncate ((a - b) * ((1000 : ℤ) : F))).natAbs < 10 ^ floatDigits) :
    Ends (PlatformAnswer clock) (runShell host fuel command cwd timeout deadline limit).run
      (Post ModestResult fun _ => True) := by
  have hweak {α : Type} {V : α → Prop} {p : LocalAction F α} (h : Calm clock V p) :
      Ends (PlatformAnswer clock) p.run (Post V fun _ => True) := Ends.mono h fun r hr => by
    cases r with
    | ok a => exact hr
    | error exn => trivial
  unfold runShell
  refine ends_run_bind (V := fun _ => True) ?_ fun ⟨seconds, directory⟩ _ => ?_
  · cases checkShellArguments host command cwd timeout deadline limit with
    | ok _ => exact True.intro
    | error _ => exact True.intro
  refine ends_run_bind (hweak calm_monotonic) fun began hbegan => ?_
  refine ends_run_bind (hweak calm_cancelIsSet) fun cancelled _ => ?_
  refine ends_run_ite (ends_run_pure (modestResult_early _)) ?_
  refine ends_run_ite (ends_run_pure (modestResult_early _)) ?_
  refine ends_run_ite (ends_run_pure (modestResult_early _)) ?_
  refine ends_run_bind (V := fun r => Modest r.2) (ends_run_lift ?_) fun ⟨done, s⟩ hs => ?_
  · exact ((bounded_execute ..).start _ modest_new).mono fun _ h => h.1
  refine ends_run_bind (V := fun _ => True) ?_ fun _ _ => ?_
  · cases done with
    | ok _ => exact True.intro
    | error _ => exact True.intro
  refine ends_run_bind (hweak calm_monotonic) fun now hnow => ?_
  exact ends_run_pure (modestResult_shell hdecode hs (hclock _ _ hnow hbegan))

end Results

/-! ### Frames -/

section Frames

variable {fl : Json.Floats D}

/-- The frame of a result is encoded, and it is no longer than the transport allows. -/
def Fits (fl : Json.Floats D) (requestId : String) (details : Details) : Prop :=
  ∃ text, dumps fl (.object (resultMessage requestId details)) = some text ∧
    (String.ofList text).utf8ByteSize ≤ maxResultBytes ∧
    encodeResult fl requestId details = .ok (resultMessage requestId details)

theorem within_text {fl : Json.Floats D} {s : String} {n : ℕ} (h : s.toList.length ≤ n) :
    Within fl ((Json.string s).value fl) (6 * n + 2) :=
  within_string ((textBytes_escaped _).trans (Nat.mul_le_mul_left 6 h))

theorem within_jsonStrings (names : List String) :
    Within fl ((jsonStrings names).value fl)
      (6 * (names.map String.length).sum + 4 * names.length + 2) := by
  have hitems : ∀ names : List String, valueItems fl (names.map .string) =
      (names.map String.toList).map .string := by
    intro names
    induction names with
    | nil => rfl
    | cons name names ih => exact congrArg _ ih
  change Within fl (.list (valueItems fl (names.map .string))) _
  rw [hitems]
  refine (within_strings _).mono (le_of_eq ?_)
  rw [List.map_map, List.length_map]
  rfl

/-- What the envelope adds. -/
theorem fits_of_within {requestId : String} {details : Details} {n : ℕ}
    (hid : requestId.length ≤ 64) (h : Within fl ((Json.object details).value fl) n)
    (hn : n ≤ 65080) : Fits fl requestId details := by
  have hmessage : Within fl ((Json.object (resultMessage requestId details)).value fl) (456 + n) := by
    have hdetails := entriesWithin_cons "details".toList (k := 9) (by decide) h
      (entriesWithin_nil fl)
    have hsuccess := entriesWithin_cons "success".toList (k := 9) (by decide)
      (within_bool true) hdetails
    have hrequest := entriesWithin_cons "request_id".toList (k := 12) (by decide)
      (within_text hid) hsuccess
    have htype : Within fl (.string "result".toList) 8 := within_string (n := 6) (by decide)
    exact (within_dict "type".toList (k := 6) (by decide) htype hrequest).mono (by omega)
  obtain ⟨text, htext, hbytes⟩ := hmessage
  have hsize : (String.ofList text).utf8ByteSize ≤ maxResultBytes := by
    rw [Json.utf8ByteSize_ofList]
    unfold maxResultBytes
    omega
  have hdumps : dumps fl (.object (resultMessage requestId details)) = some text := htext
  refine ⟨text, hdumps, hsize, ?_⟩
  unfold encodeResult
  rw [hdumps]
  exact if_neg (by omega)

end Frames

/-! ### The results of the actions -/

section Details

variable {fl : Json.Floats D}

theorem within_optionalNat {n : Option ℕ} (h : ∀ m, n = some m → m < 10 ^ 10) :
    Within fl ((optionalNat n).value fl) 11 := by
  cases n with
  | none => exact within_null.mono (by omega)
  | some m => exact within_jsonOfNat (by omega) (h m rfl) (by decide)

theorem length_outcome (outcome : Outcome) : outcome.text.toList.length ≤ 14 := by
  cases outcome with
  | _ => decide

/-- The report of a shell command. -/
theorem within_commandDetails {audit : ExecutionAudit} {result : ShellResult} {recorded : Bool}
    (hid : audit.executionId.length = 36) (h : ModestResult result)
    (hobserved : result.stdoutBytesObserved + result.stderrBytesObserved < 10 ^ 10) :
    Within fl ((Json.object (commandDetails audit result recorded)).value fl) 50000 := by
  have hrecorded := entriesWithin_cons "audit_recorded".toList (k := 16)
    (by decide) (within_bool recorded) (entriesWithin_nil fl)
  have heffect : (if result.started then "not_verified" else "not_started").toList.length ≤ 12 := by
    split_ifs <;> decide
  have heffect := entriesWithin_cons "effect_outcome".toList (k := 16) (by decide)
    (within_text heffect) hrecorded
  have hexecution := entriesWithin_cons "execution_id".toList (k := 14) (by decide)
    (within_text hid.le) heffect
  have herror : Within fl (((result.errorCode.map jsonOfInt).getD .null).value fl) 11 := by
    cases hcode : result.errorCode with
    | none => exact within_null.mono (by omega)
    | some code =>
        have hcode := h.errorCode code hcode
        exact within_jsonOfInt (by omega) (by omega) (by decide)
  have herror := entriesWithin_cons "error_code".toList (k := 12) (by decide) herror
    hexecution
  have hduration := entriesWithin_cons "duration_ms".toList (k := 13) (by decide)
    (within_jsonOfInt (by decide) h.duration (by decide)) herror
  have hcleanup := entriesWithin_cons "cleanup_confirmed".toList (k := 19) (by decide)
    (within_bool result.cleanupConfirmed) hduration
  have hstarted := entriesWithin_cons "started".toList (k := 9) (by decide)
    (within_bool result.started) hcleanup
  have htruncated := entriesWithin_cons "truncated".toList (k := 11) (by decide)
    (within_bool result.truncated) hstarted
  have hobservedErr := entriesWithin_cons "stderr_bytes_observed".toList (k := 23)
    (by decide) (within_jsonOfNat (n := result.stderrBytesObserved) (k := 10) (by omega) (by omega)
      (by decide)) htruncated
  have hobservedOut := entriesWithin_cons "stdout_bytes_observed".toList (k := 23)
    (by decide) (within_jsonOfNat (n := result.stdoutBytesObserved) (k := 10) (by omega) (by omega)
      (by decide)) hobservedErr
  have hstderr := entriesWithin_cons "stderr".toList (k := 8) (by decide)
    (within_text h.stderr) hobservedOut
  have hstdout := entriesWithin_cons "stdout".toList (k := 8) (by decide)
    (within_text h.stdout) hstderr
  have hreturncode := entriesWithin_cons "returncode".toList (k := 12) (by decide)
    (within_optionalNat fun code hcode => (h.returncode code hcode).trans (by decide)) hstdout
  refine (within_dict "outcome".toList (k := 9) (by decide)
    (within_text (length_outcome result.outcome)) hreturncode).mono ?_
  unfold floatDigits tailBytes
  omega

/-- `_bounded_names` keeps so many names, and so many characters. -/
theorem boundedNames_bounds (names : List String) {entries characters : ℕ}
    (he : entries ≤ maxListEntries) (hc : characters ≤ maxListChars) :
    entries + (boundedNames names entries characters).1.length ≤ maxListEntries ∧
      characters + ((boundedNames names entries characters).1.map String.length).sum ≤
        maxListChars := by
  induction names generalizing entries characters with
  | nil => exact ⟨he, hc⟩
  | cons name names ih =>
      unfold boundedNames
      split_ifs with hfull
      · exact ⟨he, hc⟩
      · rw [not_or, Nat.not_le, Nat.not_lt] at hfull
        have hentries : entries + 1 ≤ maxListEntries := hfull.1
        have hrest := ih hentries hfull.2
        dsimp only
        rw [List.length_cons, List.map_cons, List.sum_cons]
        omega

/-- The names that were kept, in any order. -/
theorem within_boundedNames {names kept : List String}
    (hkept : kept.Perm (boundedNames names 0 0).1) :
    Within fl ((jsonStrings kept).value fl) 49954 := by
  have hbounds := boundedNames_bounds names (Nat.zero_le maxListEntries) (Nat.zero_le maxListChars)
  refine (within_jsonStrings kept).mono ?_
  rw [(hkept.map String.length).sum_eq, hkept.length_eq]
  unfold maxListEntries maxListChars at hbounds
  omega

/-- The JSON text of the path in a result is no longer than this. -/
def PathWithin (details : Details) (n : ℕ) : Prop :=
  ∀ path, details.lookup "path" = some (.string path) → textBytes (encodeString path.toList) ≤ n

theorem within_path {rest : Details} {path : String} {n m : ℕ}
    (hpath : PathWithin (("path", .string path) :: rest) n)
    (hrest : EntriesWithin fl (valueFields fl rest) m) :
    Within fl ((Json.object (("path", .string path) :: rest)).value fl) (6 + n + m + 4) := by
  have hvalue : Within fl ((Json.string path).value fl) n :=
    ⟨encodeString path.toList, Json.joinChunks_singleton.mpr rfl, hpath path rfl⟩
  exact within_dict "path".toList (k := 6) (by decide) hvalue hrest

/-- A file as it is reported. -/
structure FileReport (details : Details) : Prop where
  parts : ∃ path content truncated, details =
    [("path", .string path), ("content", .string content), ("truncated", .bool truncated)] ∧
    content.toList.length ≤ maxFileChars

theorem FileReport.within {details : Details} (h : FileReport details)
    (hpath : PathWithin details 8192) : Within fl ((Json.object details).value fl) 60000 := by
  obtain ⟨path, content, truncated, rfl, hcontent⟩ := h.parts
  have htruncated := entriesWithin_cons "truncated".toList (k := 11)
    (by decide) (within_bool truncated) (entriesWithin_nil fl)
  have hcontent := entriesWithin_cons "content".toList (k := 9) (by decide)
    (within_text hcontent) htruncated
  refine (within_path hpath hcontent).mono ?_
  unfold maxFileChars
  omega

/-- A list of names as it is reported, under `key`. -/
theorem within_names (fl : Json.Floats D) (key : String) {names kept : List String}
    (truncated : Bool) (hkey : textBytes (encodeString key.toList) ≤ 9)
    (hkept : kept.Perm (boundedNames names 0 0).1) :
    EntriesWithin fl (valueFields fl [(key, jsonStrings kept), ("truncated", .bool truncated)])
      49987 := by
  have htruncated := entriesWithin_cons "truncated".toList (k := 11)
    (by decide) (within_bool truncated) (entriesWithin_nil fl)
  exact entriesWithin_cons _ hkey (within_boundedNames hkept) htruncated

end Details

/-! ### The frames of the four actions -/

section Actions

variable [PyFloat F] {S : (e : Effect) → e.Answer F → Prop} (host : Host) (agent : LocalAgent F)

omit [PyFloat F] in
/-- Whatever comes first, what holds at the end of the rest holds at the end. -/
theorem ends_after {α β : Type} {p : LocalAction F α} {f : α → LocalAction F β} {V : β → Prop}
    (h : ∀ a, Ends S (f a).run (Post V fun _ => True)) :
    Ends S (p >>= f).run (Post V fun _ => True) := by
  refine ends_run_bind (V := fun _ => True) ((ends_trivial p.run).mono fun r _ => ?_)
    fun a _ => h a
  cases r with
  | ok _ => exact True.intro
  | error _ => exact True.intro

theorem ends_readFile (params : Json) :
    Ends S (readFile host agent params).run (Post FileReport fun _ => True) := by
  refine ends_after fun _ => ends_after fun raw => ends_after fun path => ?_
  refine ends_after fun _ => ends_after fun content => ends_run_pure ⟨_, _, _, rfl, ?_⟩
  rw [String.toList_ofList]
  exact List.length_take_le ..

/-- The names as they are reported. -/
def NamesReport (front : Details → Prop) (key : String) (details : Details) : Prop :=
  ∃ before names kept truncated, front before ∧ kept.Perm (boundedNames names 0 0).1 ∧
    details = before ++ [(key, jsonStrings kept), ("truncated", .bool truncated)]

theorem ends_listDirectory (params : Json) :
    Ends S (listDirectory host agent params).run
      (Post (NamesReport (fun before => ∃ path, before = [("path", .string path)]) "entries")
        fun _ => True) := by
  refine ends_after fun _ => ends_after fun raw => ends_after fun path => ends_after fun names => ?_
  exact ends_run_pure ⟨[("path", .string (host.pathText path))], names, _, _, ⟨_, rfl⟩,
    List.mergeSort_perm .., rfl⟩

theorem ends_listWindows (params : Json) :
    Ends S (listWindows host agent params).run
      (Post (NamesReport (· = []) "windows") fun _ => True) := by
  refine ends_after fun _ => ends_after fun _ => ends_after fun titles => ?_
  exact ends_run_pure ⟨[], titles.filter (· ≠ ""), _, _, rfl, List.Perm.refl _, rfl⟩

/-- A report of a shell command within its bounds. -/
def ShellReport (details : Details) : Prop :=
  ∃ audit result recorded, details = commandDetails audit result recorded ∧
    audit.executionId.length = 36 ∧ ModestResult result ∧
    result.stdoutBytesObserved + result.stderrBytesObserved < 10 ^ 10

variable {host} {clock : F → Prop}

theorem observed_runShell (fuel : ℕ) (command : String) (cwd timeout : Json)
    (deadline : Option F) :
    Ends S (runShell host fuel command cwd timeout deadline maxOutputBytesLimit).run
      (Post (fun result => result.stdoutBytesObserved + result.stderrBytesObserved < 10 ^ 10)
        fun _ => True) := by
  refine (ends_iff ..).mpr fun t r hrun _ => ?_
  have hsafe := safe_runShell host fuel command cwd timeout deadline maxOutputBytesLimit
  obtain ⟨hconsumed, hresult⟩ := runs_of_wp hsafe.wp hrun
  cases r with
  | error exn => exact True.intro
  | ok result =>
      change _ < _
      rcases hresult result rfl with hrefused | hreported
      · rw [hrefused.early]
        exact Nat.pow_pos (by omega)
      · rw [hreported.total]
        unfold maxOutputBytesLimit at hconsumed
        omega

theorem ends_runCommand (fuel : ℕ) (params : Json)
    (hdecode : ∀ bytes, host.decode bytes = String.ofList (Urls.decode bytes))
    (hclock : ∀ a b, clock a → clock b →
      (PyFloat.truncate ((a - b) * ((1000 : ℤ) : F))).natAbs < 10 ^ floatDigits) :
    Ends (PlatformAnswer clock) (runCommand host fuel agent params).run
      (Post ShellReport fun _ => True) := by
  refine ends_after fun _ => ends_after fun command => ?_
  refine ends_run_ite (ends_run_throw True.intro) ?_
  refine ends_after fun command => ends_after fun cwd => ends_after fun timeout => ?_
  refine ends_run_bind (V := fun audit => audit.executionId.length = 36) ?_ fun audit hid => ?_
  · refine ends_run_bind (V := fun text => text.length = 36) (ends_call _ _ fun answer h => ?_)
      fun text h => ends_run_pure h
    cases answer with
    | ok text => exact h
    | error exn => exact True.intro
  refine ends_after fun _ => ?_
  refine ends_run_bind (V := fun r => ∀ result, r = .ok result → ModestResult result ∧
    result.stdoutBytesObserved + result.stderrBytesObserved < 10 ^ 10) (ends_run_lift ?_)
    fun result hresult => ?_
  · refine ((modest_runShell fuel command _ _ agent.deadline maxOutputBytesLimit hdecode
      hclock).and (observed_runShell fuel command _ _ agent.deadline)).mono fun r hr => ?_
    rintro result rfl
    exact hr
  cases result with
  | error exn => exact ends_after fun _ => ends_run_throw True.intro
  | ok result =>
      obtain ⟨hmodest, hobserved⟩ := hresult result rfl
      exact ends_after fun recorded =>
        ends_run_pure ⟨audit, result, recorded, rfl, hid, hmodest, hobserved⟩

end Actions

/-- The result of a completed action is never too large to be sent. The time between two
readings of the clock is a float. -/
theorem result_frames_fit [PyFloat F] (fl : Json.Floats D) (host : Host)
    (hdecode : ∀ bytes, host.decode bytes = String.ofList (Urls.decode bytes))
    (clock : F → Prop) (hclock : ∀ a b, clock a → clock b →
      (PyFloat.truncate ((a - b) * ((1000 : ℤ) : F))).natAbs < 10 ^ floatDigits)
    (fuel : ℕ) (agent : LocalAgent F) (params : Json) (t : LocalTrace F) (details : Details)
    (requestId : String) (hid : requestId.length ≤ 64) :
    (Runs (runCommand host fuel agent params).run t (.ok details) →
      (∀ x ∈ t, PlatformAnswer clock x.1 x.2) → Fits fl requestId details) ∧
    (Runs (readFile host agent params).run t (.ok details) → PathWithin details 8192 →
      Fits fl requestId details) ∧
    (Runs (listDirectory host agent params).run t (.ok details) → PathWithin details 8192 →
      Fits fl requestId details) ∧
    (Runs (listWindows host agent params).run t (.ok details) → Fits fl requestId details) := by
  refine ⟨fun hrun hplatform => ?_, fun hrun hpath => ?_, fun hrun hpath => ?_, fun hrun => ?_⟩
  · obtain ⟨audit, result, recorded, rfl, hexecution, hmodest, hobserved⟩ :=
      (ends_iff ..).mp (ends_runCommand agent fuel params hdecode hclock) t _ hrun hplatform
    exact fits_of_within hid (within_commandDetails hexecution hmodest hobserved) (by omega)
  · have hreport : FileReport details :=
      (ends_iff ..).mp (ends_readFile (S := fun _ _ => True) host agent params) t _ hrun
        fun _ _ => True.intro
    exact fits_of_within hid (hreport.within hpath) (by omega)
  · obtain ⟨_, names, kept, truncated, ⟨path, rfl⟩, hkept, rfl⟩ :=
      (ends_iff ..).mp (ends_listDirectory (S := fun _ _ => True) host agent params) t _ hrun
        fun _ _ => True.intro
    have hentries := within_names fl "entries" truncated (by decide) hkept
    exact fits_of_within hid (within_path hpath hentries) (by omega)
  · obtain ⟨_, names, kept, truncated, rfl, hkept, rfl⟩ :=
      (ends_iff ..).mp (ends_listWindows (S := fun _ _ => True) host agent params) t _ hrun
        fun _ _ => True.intro
    have htruncated := entriesWithin_cons "truncated".toList (k := 11)
      (by decide) (within_bool truncated) (entriesWithin_nil fl)
    exact fits_of_within hid (within_dict "windows".toList (k := 9) (by decide)
      (within_boundedNames hkept) htruncated) (by omega)

/-- A machine with the decoder of the language, an agent that may list windows, and titles that
are worst for the frame. -/
def decodingHost : Host :=
  { windowsHost with decode := fun bytes => String.ofList (Urls.decode bytes) }

def windowAgent : LocalAgent ℚ := { shellAgent with capabilities := [("open_apps", .bool true)] }

def titleMachine (_ : LocalTrace ℚ) : (e : Effect) → Option (Effect.Answer ℚ e)
  | .cancelIsSet => some (.ok false)
  | .monotonic => some (.ok 10)
  | .approve .. => some (.ok (.bool true))
  | .importPygetwindow => some (.ok ())
  | .allWindowTitles => some (.ok ["\x01\x02", "", "Notepad"])
  | _ => none

def titleRun : Program Effect (Effect.Answer ℚ) (Result Details) :=
  (listWindows decodingHost windowAgent (.object [])).run

theorem result_frames_fit_titles :
    ∃ t details, Runs titleRun t (.ok details) ∧ Fits ReceiveLoop.noFloats "r1" details := by
  have hended : ((playUntil titleMachine titleRun []).2.getRight?.any fun r => r.isOk) = true := by
    decide +kernel
  obtain ⟨r, hr, hok⟩ := (Option.any_eq_true _ _).mp hended
  have hrun := runs_playUntil titleMachine titleRun [] (Sum.getRight?_eq_some_iff.mp hr)
  cases r with
  | error exn => cases hok
  | ok details =>
      have hclock : ∀ a b : ℚ, a = 10 → b = 10 →
          (PyFloat.truncate ((a - b) * ((1000 : ℤ) : ℚ))).natAbs < 10 ^ floatDigits := by
        rintro a b rfl rfl
        have hzero : (PyFloat.truncate (((10 : ℚ) - 10) * ((1000 : ℤ) : ℚ))) = 0 := by decide +kernel
        rw [hzero]
        exact Nat.pow_pos (by omega)
      exact ⟨_, details, hrun, (result_frames_fit ReceiveLoop.noFloats decodingHost (fun _ => rfl)
        (· = 10) hclock 1 windowAgent (.object []) _ details "r1" (by decide)).2.2.2 hrun⟩

end Ally.Companion
