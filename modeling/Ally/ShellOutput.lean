import Ally.ShellAudit

/-!
# Shell output accounting

What a command may read from its pipes, what is kept of it, and what an exit says about the
pipes.
-/

namespace Ally.Companion

open Interaction
open PCAgentBridge (Json)
open Stateful (Maintains assign lift)

variable {F : Type}

/-! ### What a trace shows of the pipes -/

/-- The bytes that were read, where they came from one of the handles. -/
def bytesRead (source : ℕ → Bool) : LocalEvent F → List UInt8
  | ⟨.kernel (.readFile handle size), .ok (true, data)⟩ =>
      if source handle then data.take size else []
  | _ => []

/-- The bytes consumed through a handle. -/
def output (handle : ℕ) (t : LocalTrace F) : List UInt8 := t.flatMap (bytesRead (· == handle))

/-- How many bytes were consumed. -/
def consumed (t : LocalTrace F) : ℕ := (t.flatMap (bytesRead fun _ => true)).length

def readEnd? : LocalEvent F → Option ℕ
  | ⟨.kernel .createPipe, .ok (true, reading, _)⟩ => reading
  | _ => none

/-- The ends that were opened for reading, in order. -/
def readEnds (t : LocalTrace F) : List ℕ := t.filterMap readEnd?

def Stream.position : Stream → ℕ
  | .stdout => 0
  | .stderr => 1

/-- The bytes consumed from a stream: the first pipe is that of `stdout`. -/
def streamOutput (stream : Stream) (t : LocalTrace F) : List UInt8 :=
  ((readEnds t)[stream.position]?).elim [] (output · t)

/-- A pipe that reports available bytes yields at least one. -/
def Yields (t : LocalTrace F) : Prop :=
  ∀ handle size data, (⟨.kernel (.readFile handle size), .ok (true, data)⟩ : LocalEvent F) ∈ t →
    data ≠ []

/-- The pipe was looked at and held nothing. -/
inductive FoundEmpty (handle : ℕ) : LocalTrace F → Prop
  | empty : FoundEmpty handle [⟨.kernel (.peekNamedPipe handle), .ok (true, 0)⟩]
  | broken (available : ℕ) : FoundEmpty handle
      [⟨.kernel (.peekNamedPipe handle), .ok (false, available)⟩, ⟨.kernel .lastError, .ok 109⟩]

/-- An event that neither opens a pipe nor reads from one. -/
structure Silent (x : LocalEvent F) : Prop where
  bytes : ∀ source, bytesRead source x = []
  ends : readEnd? x = none

theorem silent_of_quiet {x : LocalEvent F} (h : quietEffect x.1) : Silent x := by
  obtain ⟨e, r⟩ := x
  cases e with
  | kernel c =>
      cases c <;> first | exact ⟨fun _ => rfl, rfl⟩ | exact nomatch h
  | _ => exact ⟨fun _ => rfl, rfl⟩

theorem silent_readFailed (handle size : ℕ) {answer : Result (Bool × List UInt8)}
    (h : ∀ data, answer ≠ .ok (true, data)) :
    Silent (⟨.kernel (.readFile handle size), answer⟩ : LocalEvent F) := by
  refine ⟨fun source => ?_, rfl⟩
  rcases answer with exn | ⟨_ | _, data⟩
  · rfl
  · rfl
  · exact absurd rfl (h data)

theorem flatMap_bytesRead_of_silent {t : LocalTrace F} (h : ∀ x ∈ t, Silent x)
    (source : ℕ → Bool) : t.flatMap (bytesRead source) = [] :=
  List.flatMap_eq_nil_iff.mpr fun x hx => (h x hx).bytes source

theorem readEnds_of_silent {t : LocalTrace F} (h : ∀ x ∈ t, Silent x) : readEnds t = [] :=
  List.filterMap_eq_nil_iff.mpr fun x hx => (h x hx).ends

theorem FoundEmpty.silent {handle : ℕ} {t : LocalTrace F} (h : FoundEmpty handle t) :
    ∀ x ∈ t, Silent x := by
  cases h with
  | empty =>
      intro x hx
      rw [List.mem_singleton.mp hx]
      exact silent_of_quiet rfl
  | broken available =>
      intro x hx
      rcases List.mem_pair.mp hx with rfl | rfl
      · exact silent_of_quiet rfl
      · exact silent_of_quiet rfl

theorem output_append (handle : ℕ) (t t' : LocalTrace F) :
    output handle (t ++ t') = output handle t ++ output handle t' := List.flatMap_append ..

theorem consumed_append (t t' : LocalTrace F) :
    consumed (t ++ t') = consumed t + consumed t' := by
  unfold consumed
  rw [List.flatMap_append, List.length_append]

theorem readEnds_append (t t' : LocalTrace F) :
    readEnds (t ++ t') = readEnds t ++ readEnds t' := List.filterMap_append ..

theorem consumed_mono {t t' : LocalTrace F} (h : t <+: t') : consumed t ≤ consumed t' := by
  obtain ⟨rest, rfl⟩ := h
  rw [consumed_append]
  omega

/-! ### The tails -/

/-- The tail of a stream from which these bytes were consumed. -/
def Tail.of (bytes : List UInt8) : Tail := ⟨bytes.rtake tailBytes, bytes.length⟩

theorem Tail.data_of (bytes : List UInt8) :
    (Tail.of bytes).data = bytes.rtake tailBytes := by
  simp only [Tail.of]

theorem rtake_rtake_append {α : Type} (n : ℕ) (a b : List α) :
    (a.rtake n ++ b).rtake n = (a ++ b).rtake n := by
  rw [List.rtake_eq_reverse_take_reverse, List.rtake_eq_reverse_take_reverse,
    List.rtake_eq_reverse_take_reverse, List.reverse_append, List.reverse_append,
    List.reverse_reverse, List.take_append, List.take_append, List.take_take]
  congr 3
  omega

theorem Tail.append_of (bytes data : List UInt8) :
    (Tail.of bytes).append data = Tail.of (bytes ++ data) := by
  unfold Tail.append Tail.of
  rw [rtake_rtake_append, List.length_append]

def Shell.tail (s : Shell) : Stream → Tail
  | .stdout => s.stdout
  | .stderr => s.stderr

theorem Shell.tail_append (s : Shell) (stream : Stream) (data : List UInt8) :
    (s.append stream data).tail stream = (s.tail stream).append data := by
  cases stream with
  | stdout => simp only [Shell.append, Shell.tail]
  | stderr => simp only [Shell.append, Shell.tail]

theorem Shell.tail_append_of_ne (s : Shell) {stream other : Stream} (h : other ≠ stream)
    (data : List UInt8) : (s.append stream data).tail other = s.tail other := by
  cases stream with
  | stdout =>
      cases other with
      | stdout => exact absurd rfl h
      | stderr => simp only [Shell.append, Shell.tail]
  | stderr =>
      cases other with
      | stdout => simp only [Shell.append, Shell.tail]
      | stderr => exact absurd rfl h

theorem Shell.observed_append (s : Shell) (stream : Stream) (data : List UInt8) :
    (s.append stream data).observed = s.observed + data.length := by
  unfold Shell.observed
  cases stream with
  | stdout =>
      simp only [Shell.append, Tail.append]
      omega
  | stderr =>
      simp only [Shell.append, Tail.append]
      omega

theorem Shell.outcome_append (s : Shell) (stream : Stream) (data : List UInt8) :
    (s.append stream data).outcome = s.outcome := by
  cases stream with
  | stdout => simp only [Shell.append]
  | stderr => simp only [Shell.append]

/-! ### One pass over a pipe -/

/-- What `_drain` may do in the rounds it has left, once it has read `count` bytes. -/
inductive Drains (handle : ℕ) (stream : Stream) (allowance : ℕ) :
    ℕ → ℕ → Shell → LocalTrace F → Result ℕ × Shell → Prop
  | stop {rounds count : ℕ} {s : Shell} (h : rounds = 0 ∨ allowance ≤ count) :
      Drains handle stream allowance rounds count s [] (.ok count, s)
  | empty {rounds count : ℕ} {s : Shell} {t : LocalTrace F} (hcount : count < allowance)
      (ht : FoundEmpty handle t) :
      Drains handle stream allowance (rounds + 1) count s t (.ok count, s)
  | fail {rounds count : ℕ} {s : Shell} {t : LocalTrace F} {exn : LocalExn}
      (ht : ∀ x ∈ t, Silent x) :
      Drains handle stream allowance (rounds + 1) count s t (.error exn, s)
  | round {rounds count available : ℕ} {s : Shell} {data : List UInt8} {t : LocalTrace F}
      {r : Result ℕ × Shell} (hcount : count < allowance) (havailable : 0 < available)
      (h : Drains handle stream allowance rounds (count + data.length)
        (s.append stream (data.take (min 8192 (min available (allowance - count))))) t r) :
      Drains handle stream allowance (rounds + 1) count s
        (⟨.kernel (.peekNamedPipe handle), .ok (true, available)⟩ ::
          ⟨.kernel (.readFile handle (min 8192 (min available (allowance - count)))),
            .ok (true, data)⟩ :: t) r

/-- A failed kernel call: the error is looked up, and nothing else happens. -/
theorem safe_check {G : LocalTrace F → Effect → Prop} {ok : Bool}
    {Q : LocalTrace F → Result Unit → Prop} {past : LocalTrace F}
    (hG : G past (.kernel .lastError)) (hok : ok = true → Q past (.ok ()))
    (herror : ∀ new exn, (∀ x ∈ new, Silent x) → ok = false → Q (past ++ new) (.error exn)) :
    Safe G (check ok).run Q past := by
  unfold check
  cases ok with
  | true => exact hok rfl
  | false =>
      refine (safe_run_bind ..).mpr ((safe_call ..).mpr ⟨hG, fun answer => ?_⟩)
      have hsilent (x : LocalEvent F) (hx : x ∈ [(⟨.kernel .lastError, answer⟩ : LocalEvent F)]) :
          Silent x := by
        rw [List.mem_singleton.mp hx]
        exact silent_of_quiet rfl
      cases answer with
      | error exn => exact herror _ exn hsilent rfl
      | ok code => exact herror _ (.osError (some code)) hsilent rfl

theorem wp_check_silent {ok : Bool} {Q : LocalTrace F → Result Unit → Prop}
    {past : LocalTrace F} (hok : ok = true → Q past (.ok ()))
    (herror : ∀ new exn, (∀ x ∈ new, Silent x) → ok = false → Q (past ++ new) (.error exn)) :
    wp (check ok).run Q past :=
  (safe_check (G := fun _ _ => True) trivial hok herror).wp

theorem wp_drainRounds (handle : ℕ) (stream : Stream) (allowance rounds count : ℕ) (s : Shell)
    (past : LocalTrace F) :
    wp ((drainRounds handle stream allowance rounds count).start s)
      (fun t r => ∃ new, t = past ++ new ∧ Drains handle stream allowance rounds count s new r)
      past := by
  induction rounds generalizing count s past with
  | zero => exact ⟨[], (List.append_nil _).symm, .stop (.inl rfl)⟩
  | succ rounds ih =>
      unfold drainRounds
      by_cases hcount : allowance ≤ count
      · rw [if_pos hcount]
        exact ⟨[], (List.append_nil _).symm, .stop (.inr hcount)⟩
      rw [if_neg hcount]
      have hcount := Nat.lt_of_not_le hcount
      -- every exception leaves the variables alone, after events that read nothing
      have hfail {new : LocalTrace F} {exn : LocalExn} (h : ∀ x ∈ new, Silent x) :
          ∃ new', past ++ new = past ++ new' ∧
            Drains handle stream allowance (rounds + 1) count s new' (.error exn, s) :=
        ⟨new, rfl, .fail h⟩
      refine (Stateful.wp_start_call_bind ..).mpr fun answer => ?_
      have hpeek : Silent (⟨.kernel (.peekNamedPipe handle), answer⟩ : LocalEvent F) :=
        silent_of_quiet rfl
      rcases answer with exn | ⟨ok, available⟩
      · exact hfail fun x hx => List.mem_singleton.mp hx ▸ hpeek
      dsimp only [id_eq]
      refine (Stateful.wp_start_lift_bind ..).mpr ?_
      cases ok with
      | false =>
          refine (wp_run_bind ..).mpr ((wp_call ..).mpr fun answer => ?_)
          rw [List.append_assoc]
          have hlast : Silent (⟨.kernel .lastError, answer⟩ : LocalEvent F) :=
            silent_of_quiet rfl
          rcases answer with exn | code
          · exact hfail fun x hx => (List.mem_pair.mp hx).elim (· ▸ hpeek) (· ▸ hlast)
          by_cases hcode : code = 109
          · subst hcode
            exact ⟨_, rfl, .empty hcount (.broken available)⟩
          · refine (wp_run_pure ..).mpr ?_
            dsimp only [id_eq]
            rw [decide_eq_false hcode]
            refine (Stateful.wp_start_lift_bind ..).mpr (wp_check_silent (fun h => absurd h Bool.false_ne_true) ?_)
            intro new exn hnew _
            rw [List.append_assoc]
            refine hfail fun x hx => ?_
            rcases List.mem_append.mp hx with hx | hx
            · exact (List.mem_pair.mp hx).elim (· ▸ hpeek) (· ▸ hlast)
            · exact hnew x hx
      | true =>
          refine (Stateful.wp_start_lift_bind ..).mpr ?_
          by_cases havailable : available = 0
          · subst havailable
            exact ⟨_, rfl, .empty hcount .empty⟩
          rw [if_neg havailable]
          refine (Stateful.wp_start_call_bind ..).mpr fun answer => ?_
          rcases answer with exn | ⟨ok, data⟩
          · rw [List.append_assoc]
            refine hfail fun x hx => (List.mem_pair.mp hx).elim (· ▸ hpeek) (· ▸ ?_)
            exact silent_readFailed _ _ (by rintro data ⟨⟩)
          refine (Stateful.wp_start_lift_bind ..).mpr (wp_check_silent (fun hok => ?_) ?_)
          · have hok : ok = true := hok
            subst hok
            refine (Stateful.wp_start_assign_bind ..).mpr (wp_mono ?_ (ih _ _ _))
            rintro t r ⟨new, rfl, hnew⟩
            rw [List.append_assoc, List.append_assoc]
            exact ⟨_, rfl, .round hcount (Nat.pos_of_ne_zero havailable) hnew⟩
          · intro new exn hnew hok
            have hok : ok = false := hok
            subst hok
            rw [List.append_assoc, List.append_assoc]
            refine hfail fun x hx => ?_
            rcases List.mem_cons.mp hx with rfl | hx
            · exact hpeek
            rcases List.mem_cons.mp hx with rfl | hx
            · exact silent_readFailed _ _ (by rintro data ⟨⟩)
            · exact hnew x hx

/-- What was read from one pipe, and where it went. -/
structure Took (handle : ℕ) (stream : Stream) (s : Shell) (t : LocalTrace F) (s' : Shell) :
    Prop where
  source : ∀ source, t.flatMap (bytesRead source) = if source handle then output handle t else []
  ends : readEnds t = []
  tail : ∀ bytes, s.tail stream = Tail.of bytes →
    s'.tail stream = Tail.of (bytes ++ output handle t)
  other : ∀ other, other ≠ stream → s'.tail other = s.tail other
  observed : s'.observed = s.observed + (output handle t).length
  outcome : s'.outcome = s.outcome

theorem Took.silent {handle : ℕ} {stream : Stream} {s : Shell} {t : LocalTrace F}
    (h : ∀ x ∈ t, Silent x) : Took handle stream s t s := by
  have hnone : output handle t = [] := flatMap_bytesRead_of_silent h _
  refine ⟨fun source => ?_, readEnds_of_silent h, fun bytes hs => ?_, fun _ _ => rfl, ?_, rfl⟩
  · rw [hnone, ite_self]
    exact flatMap_bytesRead_of_silent h source
  · rw [hnone, List.append_nil]
    exact hs
  · rw [hnone]
    rfl

theorem Took.round {handle available size : ℕ} {stream : Stream} {s s' : Shell}
    {data : List UInt8} {t : LocalTrace F}
    (h : Took handle stream (s.append stream (data.take size)) t s') :
    Took handle stream s (⟨.kernel (.peekNamedPipe handle), .ok (true, available)⟩ ::
      ⟨.kernel (.readFile handle size), .ok (true, data)⟩ :: t) s' := by
  have hbytes (source : ℕ → Bool) : List.flatMap (bytesRead source)
      ((⟨.kernel (.peekNamedPipe handle), .ok (true, available)⟩ : LocalEvent F) ::
        ⟨.kernel (.readFile handle size), .ok (true, data)⟩ :: t) =
      (if source handle then data.take size else []) ++ t.flatMap (bytesRead source) := rfl
  have hall : output handle ((⟨.kernel (.peekNamedPipe handle), .ok (true, available)⟩ :
      LocalEvent F) :: ⟨.kernel (.readFile handle size), .ok (true, data)⟩ :: t) =
      data.take size ++ output handle t := by
    refine (hbytes _).trans ?_
    rw [if_pos (beq_self_eq_true handle)]
    rfl
  refine ⟨fun source => ?_, h.ends, fun bytes hs => ?_, fun other hother => ?_, ?_, ?_⟩
  · rw [hbytes, h.source, hall]
    split_ifs
    · rfl
    · rfl
  · have htail := h.tail (bytes ++ data.take size)
      (by rw [Shell.tail_append, hs, Tail.append_of])
    rw [htail, hall, List.append_assoc]
  · rw [h.other other hother, Shell.tail_append_of_ne s hother]
  · rw [h.observed, Shell.observed_append, hall, List.length_append, Nat.add_assoc]
  · rw [h.outcome, Shell.outcome_append]

section Drains

variable {handle allowance rounds count : ℕ} {stream : Stream} {s : Shell} {t : LocalTrace F}
  {r : Result ℕ × Shell}

theorem Drains.took (h : Drains handle stream allowance rounds count s t r) :
    Took handle stream s t r.2 := by
  induction h with
  | stop h => exact .silent fun _ hx => nomatch hx
  | empty hcount ht => exact .silent ht.silent
  | fail ht => exact .silent ht
  | round hcount havailable h ih => exact ih.round

/-- No pass reads more than it was allowed. -/
theorem Drains.within (h : Drains handle stream allowance rounds count s t r) :
    r.2.observed ≤ s.observed + (allowance - count) := by
  induction h with
  | stop h => exact Nat.le_add_right ..
  | empty hcount ht => exact Nat.le_add_right ..
  | fail ht => exact Nat.le_add_right ..
  | round hcount havailable h ih =>
      rw [Shell.observed_append, List.length_take] at ih
      omega

/-- What a pass returns: no less than it had, and more only when the stream has grown. -/
theorem Drains.grows (h : Drains handle stream allowance rounds count s t r) {n : ℕ}
    (hr : r.1 = .ok n) : count ≤ n ∧ (count < n → s.observed < r.2.observed) := by
  induction h with
  | stop h =>
      cases hr
      exact ⟨le_rfl, fun h => absurd h (Nat.lt_irrefl _)⟩
  | empty hcount ht =>
      cases hr
      exact ⟨le_rfl, fun h => absurd h (Nat.lt_irrefl _)⟩
  | fail ht => cases hr
  | @round rounds count available s data t r hcount havailable h ih =>
      obtain ⟨hle, hlt⟩ := ih hr
      have hkeep := h.took.observed
      rw [Shell.observed_append, List.length_take] at hkeep hlt
      refine ⟨by omega, fun hn => ?_⟩
      -- a round that counts no byte leaves the growth to a later one
      rcases Nat.eq_zero_or_pos data.length with hdata | hdata
      · have hgrown := hlt (by omega)
        omega
      · omega

/-- A pass that counts nothing found the pipe empty. -/
theorem Drains.foundEmpty (h : Drains handle stream allowance rounds count s t r)
    (hr : r.1 = .ok count) (hrounds : 0 < rounds) (hcount : count < allowance)
    (hyields : Yields t) : FoundEmpty handle t := by
  cases h with
  | stop h => omega
  | empty _ ht => exact ht
  | fail ht => cases hr
  | round _ _ h =>
      have hdata := List.length_pos_iff.mpr
        (hyields _ _ _ (List.mem_cons_of_mem _ List.mem_cons_self))
      have hle := (h.grows hr).1
      omega

end Drains

/-! ### The account of a run -/

theorem Stream.position_inj {stream other : Stream} (h : stream.position = other.position) :
    stream = other := by
  cases stream with
  | stdout =>
      cases other with
      | stdout => rfl
      | stderr => cases h
  | stderr =>
      cases other with
      | stdout => cases h
      | stderr => rfl

/-- The variables account for every byte that was consumed. The tails are of their streams
where the pipes have different ends. -/
structure Tally (limit : ℕ) (t : LocalTrace F) (s : Shell) : Prop where
  tail : (readEnds t).Nodup → ∀ stream, s.tail stream = Tail.of (streamOutput stream t)
  total : s.observed = consumed t
  bound : consumed t ≤ limit + 1

theorem Tally.took {limit handle : ℕ} {stream : Stream} {s s' : Shell} {past t : LocalTrace F}
    (h : Tally limit past s) (hhandle : (readEnds past)[stream.position]? = some handle)
    (ht : Took handle stream s t s') (hlimit : s'.observed ≤ limit + 1) :
    Tally limit (past ++ t) s' := by
  have hends : readEnds (past ++ t) = readEnds past := by
    rw [readEnds_append, ht.ends, List.append_nil]
  have hconsumed : consumed t = (output handle t).length := by
    unfold consumed
    rw [ht.source, if_pos rfl]
  have htotal : s'.observed = consumed (past ++ t) := by
    rw [ht.observed, h.total, consumed_append, hconsumed]
  refine ⟨fun hdistinct other => ?_, htotal, htotal ▸ hlimit⟩
  rw [hends] at hdistinct
  by_cases hother : other = stream
  · subst hother
    have hbefore := h.tail hdistinct other
    unfold streamOutput at hbefore ⊢
    rw [hends, hhandle, Option.elim_some, output_append]
    rw [hhandle, Option.elim_some] at hbefore
    exact ht.tail _ hbefore
  · rw [ht.other other hother, h.tail hdistinct other]
    unfold streamOutput
    rw [hends]
    cases hposition : (readEnds past)[other.position]? with
    | none => rfl
    | some handle' =>
        have hne : handle' ≠ handle := by
          rintro rfl
          obtain ⟨hlt, _⟩ := List.getElem?_eq_some_iff.mp hposition
          exact hother (Stream.position_inj
            ((List.getElem?_inj hlt hdistinct).mp (hposition.trans hhandle.symm)))
        have hnone : output handle' t = [] := by
          refine (ht.source _).trans (if_neg ?_)
          exact fun heq => hne (beq_iff_eq.mp heq).symm
        rw [Option.elim_some, Option.elim_some, output_append, hnone, List.append_nil]

theorem Tally.silent {limit : ℕ} {s : Shell} {t : LocalTrace F} (h : Tally limit t s)
    {x : LocalEvent F} (hx : Silent x) : Tally limit (t ++ [x]) s := by
  have hone (y : LocalEvent F) (hy : y ∈ [x]) : Silent y := List.mem_singleton.mp hy ▸ hx
  have hends : readEnds (t ++ [x]) = readEnds t := by
    rw [readEnds_append, readEnds_of_silent hone, List.append_nil]
  have houtput (handle : ℕ) : output handle (t ++ [x]) = output handle t := by
    rw [output_append]
    have hnone : output handle [x] = [] := flatMap_bytesRead_of_silent hone _
    rw [hnone, List.append_nil]
  have hconsumed : consumed (t ++ [x]) = consumed t := by
    have hnone : consumed [x] = 0 :=
      congrArg List.length (flatMap_bytesRead_of_silent hone fun _ => true)
    rw [consumed_append, hnone, Nat.add_zero]
  refine ⟨fun hdistinct stream => ?_, hconsumed ▸ h.total, hconsumed ▸ h.bound⟩
  rw [hends] at hdistinct
  rw [h.tail hdistinct stream]
  unfold streamOutput
  simp only [hends, houtput]

/-- What is not a tail may change. -/
theorem Tally.assign {limit : ℕ} {t : LocalTrace F} {s s' : Shell} (h : Tally limit t s)
    (hstdout : s'.stdout = s.stdout) (hstderr : s'.stderr = s.stderr) : Tally limit t s' := by
  have hobserved : s'.observed = s.observed := by
    unfold Shell.observed
    rw [hstdout, hstderr]
  refine ⟨fun hdistinct stream => ?_, hobserved.trans h.total, h.bound⟩
  rw [← h.tail hdistinct stream]
  cases stream with
  | stdout => exact hstdout
  | stderr => exact hstderr

/-- Nothing has been read yet. -/
theorem Tally.new {t : LocalTrace F} (limit : ℕ)
    (h : ∀ source, t.flatMap (bytesRead source) = []) : Tally limit t Shell.new := by
  have hconsumed : consumed t = 0 := congrArg List.length (h _)
  refine ⟨fun _ stream => ?_, hconsumed.symm, hconsumed ▸ Nat.zero_le _⟩
  have hnone : streamOutput stream t = [] := by
    unfold streamOutput
    cases (readEnds t)[stream.position]? with
    | none => rfl
    | some handle => exact h _
  rw [hnone]
  cases stream with
  | stdout => rfl
  | stderr => rfl

/-- Both pipes are open, and the account is right. -/
structure Running (stdoutRead stderrRead limit : ℕ) (t : LocalTrace F) (s : Shell) : Prop
    extends Tally limit t s where
  ends : readEnds t = [stdoutRead, stderrRead]

theorem Running.quiet {stdoutRead stderrRead limit : ℕ} (t : LocalTrace F) (s : Shell)
    (x : LocalEvent F) (hx : quietEffect x.1) (h : Running stdoutRead stderrRead limit t s) :
    Running stdoutRead stderrRead limit (t ++ [x]) s := by
  have hsilent := silent_of_quiet hx
  refine ⟨h.toTally.silent hsilent, ?_⟩
  rw [readEnds_append, h.ends]
  exact congrArg _ (readEnds_of_silent fun y hy => List.mem_singleton.mp hy ▸ hsilent)

theorem Running.assign {stdoutRead stderrRead limit : ℕ} {t : LocalTrace F} {s s' : Shell}
    (h : Running stdoutRead stderrRead limit t s) (hstdout : s'.stdout = s.stdout)
    (hstderr : s'.stderr = s.stderr) : Running stdoutRead stderrRead limit t s' :=
  ⟨h.toTally.assign hstdout hstderr, h.ends⟩

/-- What the loop over the two streams leaves. -/
structure Pass (stdoutRead stderrRead limit : ℕ) (past : LocalTrace F) (s : Shell)
    (t : LocalTrace F) (r : Result ℕ × Shell) : Prop where
  running : Running stdoutRead stderrRead limit past s → Running stdoutRead stderrRead limit t r.2
  grows : ∀ n, r.1 = .ok n → n ≠ 0 → s.observed < r.2.observed
  outcome : r.2.outcome = s.outcome
  empty : r.1 = .ok 0 → r.2.observed ≤ limit → Yields t → ∃ out err, t = past ++ out ++ err ∧
    FoundEmpty stdoutRead out ∧ FoundEmpty stderrRead err

theorem Running.drains {stdoutRead stderrRead limit handle : ℕ} {stream : Stream} {s : Shell}
    {past t : LocalTrace F} {r : Result ℕ × Shell}
    (h : Running stdoutRead stderrRead limit past s)
    (hhandle : [stdoutRead, stderrRead][stream.position]? = some handle)
    (hdrains : Drains handle stream (limit + 1 - s.observed) 4 0 s t r) :
    Running stdoutRead stderrRead limit (past ++ t) r.2 := by
  have hwithin := hdrains.within
  have hbound := h.bound
  rw [← h.total] at hbound
  refine ⟨h.toTally.took (h.ends ▸ hhandle) hdrains.took (by omega), ?_⟩
  rw [readEnds_append, hdrains.took.ends, List.append_nil, h.ends]

theorem wp_drainBoth (stdoutRead stderrRead limit : ℕ) (s : Shell) (past : LocalTrace F) :
    wp ((drainBoth stdoutRead stderrRead limit).start s)
      (Pass stdoutRead stderrRead limit past s) past := by
  refine (Stateful.wp_start_read_bind ..).mpr ((Stateful.wp_start_bind ..).mpr
    (wp_mono ?_ (wp_drainRounds stdoutRead .stdout _ 4 0 s past)))
  rintro t ⟨first, s₁⟩ ⟨out, rfl, hout⟩
  have hgrown : s₁.observed = _ := hout.took.observed
  cases first with
  | error exn =>
      exact ⟨fun h => h.drains rfl hout, fun _ h => (nomatch h), hout.took.outcome,
        fun h => nomatch h⟩
  | ok first =>
      refine (Stateful.wp_start_read_bind ..).mpr ((Stateful.wp_start_bind ..).mpr
        (wp_mono ?_ (wp_drainRounds stderrRead .stderr _ 4 0 s₁ (past ++ out))))
      rintro t ⟨second, s₂⟩ ⟨err, rfl, herr⟩
      have hgrown₂ : s₂.observed = _ := herr.took.observed
      have houtcome : s₂.outcome = s.outcome := herr.took.outcome.trans hout.took.outcome
      have hrunning (h : Running stdoutRead stderrRead limit past s) :
          Running stdoutRead stderrRead limit (past ++ out ++ err) s₂ :=
        (h.drains rfl hout).drains rfl herr
      cases second with
      | error exn => exact ⟨hrunning, fun _ h => (nomatch h), houtcome, fun h => nomatch h⟩
      | ok second =>
          refine ⟨hrunning, fun n hn hne => ?_, houtcome, fun hn hlimit hyields => ?_⟩
          · have hn : first + second = n := Except.ok.inj hn
            have hfirst := (hout.grows rfl).2
            have hsecond := (herr.grows rfl).2
            dsimp only at hfirst hsecond hgrown hgrown₂ ⊢
            rcases Nat.eq_zero_or_pos first with h | h
            · have := hsecond (by omega)
              omega
            · have := hfirst h
              omega
          · have hn : first + second = 0 := Except.ok.inj hn
            have hlimit : s₂.observed ≤ limit := hlimit
            obtain ⟨rfl, rfl⟩ := Nat.add_eq_zero_iff.mp hn
            have hempty : FoundEmpty stdoutRead out :=
              hout.foundEmpty rfl (by decide) (by omega) fun handle size data hx =>
                hyields handle size data (List.mem_append_left _ (List.mem_append_right _ hx))
            have hnone : output stdoutRead out = [] :=
              flatMap_bytesRead_of_silent hempty.silent _
            rw [hnone, List.length_nil] at hgrown
            have hleft : 0 < limit + 1 - s₁.observed := by omega
            exact ⟨out, err, rfl, hempty, herr.foundEmpty rfl (by decide) hleft
              fun handle size data hx => hyields handle size data (List.mem_append_right _ hx)⟩

/-! ### The command -/

/-- What an effect may find: no more than the budget has been consumed. -/
abbrev Budget (limit : ℕ) (t : LocalTrace F) (_ : Effect) : Prop := consumed t ≤ limit + 1

section Running

variable {stdoutRead stderrRead limit : ℕ}

theorem maintains_quiet {α : Type} {p : LocalAction F α} (hp : Quiet p) :
    (lift p : ShellAction F α).Maintains (Budget limit) (Running stdoutRead stderrRead limit) :=
  Stateful.maintains_lift (fun _ _ _ h => h.bound) Running.quiet hp

theorem nonempty_of_kernel (e : Effect) (h : kernelEffect e) : Nonempty (Effect.Answer F e) := by
  unfold kernelEffect at h
  split at h
  · exact ⟨.error (.osError none)⟩
  · cases h

theorem safe_drainBoth (s : Shell) (past : LocalTrace F)
    (h : Running stdoutRead stderrRead limit past s) :
    Safe (Budget limit) ((drainBoth stdoutRead stderrRead limit).start s)
      (Pass stdoutRead stderrRead limit past s) past := by
  refine safe_of_wp (wp_drainBoth stdoutRead stderrRead limit s past) fun t e hstart => ?_
  -- kernel calls can always be answered, so what starts lies on a run
  obtain ⟨t', r, hrun⟩ :=
    hstart.exists_runs nonempty_of_kernel ((kernelOnly_drainBoth ..).start s)
  have hpass := (wp_iff ..).mp (wp_drainBoth stdoutRead stderrRead limit s past) _ r hrun
  have hbound := (hpass.running h).bound
  rw [← List.append_assoc] at hbound
  exact (consumed_mono (List.prefix_append ..)).trans hbound

theorem maintains_drainBoth :
    (drainBoth stdoutRead stderrRead limit : ShellAction F ℕ).Maintains (Budget limit)
      (Running stdoutRead stderrRead limit) :=
  ⟨fun s past h => (safe_drainBoth s past h).mono fun _ _ hpass => hpass.running h⟩

/-- The last look at the pipes. -/
def LastEmpty (stdoutRead stderrRead : ℕ) (t : LocalTrace F) : Prop :=
  ∃ before out err, t = before ++ out ++ err ∧ FoundEmpty stdoutRead out ∧
    FoundEmpty stderrRead err

/-- When the residual drain leaves an exit, the last look found both pipes empty. -/
theorem safe_drainResidual (fuel : ℕ) (s : Shell) (past : LocalTrace F)
    (h : Running stdoutRead stderrRead limit past s) :
    Safe (Budget limit) ((drainResidual stdoutRead stderrRead limit fuel).start s)
      (fun t r => Running stdoutRead stderrRead limit t r.2 ∧
        (r.1 = .ok () → r.2.outcome = .exited → r.2.observed ≤ limit ∧
          (Yields t → LastEmpty stdoutRead stderrRead t))) past := by
  induction fuel generalizing s past with
  | zero => exact ⟨h.bound, fun answer => nomatch answer⟩
  | succ fuel ih =>
      refine (Stateful.safe_start_bind ..).mpr ((safe_drainBoth s past h).mono ?_)
      rintro t ⟨exn | count, s'⟩ hpass
      · exact ⟨hpass.running h, fun h => nomatch h⟩
      have hrunning := hpass.running h
      refine (Stateful.safe_start_read_bind ..).mpr ?_
      by_cases hlimit : limit < s'.observed
      · rw [if_pos hlimit]
        split_ifs with hexited
        · exact ⟨hrunning.assign rfl rfl, fun _ h => nomatch h⟩
        · exact ⟨hrunning, fun _ h => absurd h hexited⟩
      rw [if_neg hlimit]
      by_cases hcount : count = 0
      · subst hcount
        rw [if_pos rfl]
        refine ⟨hrunning, fun _ _ => ⟨Nat.le_of_not_lt hlimit, fun hyields => ?_⟩⟩
        obtain ⟨out, err, ht, hout, herr⟩ := hpass.empty rfl (Nat.le_of_not_lt hlimit) hyields
        exact ⟨past, out, err, ht, hout, herr⟩
      · rw [if_neg hcount]
        exact ih s' t hrunning

/-- The residual drain ends: a round that goes on has consumed something. -/
theorem safe_drainResidual_ends (fuel : ℕ) (s : Shell) (past : LocalTrace F)
    (hfuel : limit + 1 - s.observed < fuel) :
    Safe (fun _ e => e ≠ .beyond) ((drainResidual stdoutRead stderrRead limit fuel).start s)
      (fun _ _ => True) past := by
  induction fuel generalizing s past with
  | zero => omega
  | succ fuel ih =>
      refine (Stateful.safe_start_bind ..).mpr ((safe_of_wp
        (wp_drainBoth stdoutRead stderrRead limit s past) fun t e hstart => ?_).mono ?_)
      · rintro rfl
        exact nomatch ((kernelOnly_drainBoth stdoutRead stderrRead limit).start s).starts hstart
      rintro t ⟨exn | count, s'⟩ hpass
      · trivial
      refine (Stateful.safe_start_read_bind ..).mpr ?_
      by_cases hlimit : limit < s'.observed
      · rw [if_pos hlimit]
        split_ifs
        · trivial
        · trivial
      rw [if_neg hlimit]
      by_cases hcount : count = 0
      · rw [if_pos hcount]
        trivial
      · rw [if_neg hcount]
        have hgrown : s.observed < s'.observed := hpass.grows count rfl hcount
        exact ih s' t (by omega)

end Running

section Clock

variable [PyFloat F] {stdoutRead stderrRead limit : ℕ}

theorem maintains_poll (process : ℕ) (stop : F) (fuel : ℕ) :
    (poll process stdoutRead stderrRead limit stop fuel).Maintains (Budget limit)
      (Running stdoutRead stderrRead limit) := by
  induction fuel with
  | zero => exact maintains_quiet quiet_beyond
  | succ fuel ih =>
      have hassign {f : Shell → Shell} (hstdout : ∀ s, (f s).stdout = s.stdout)
          (hstderr : ∀ s, (f s).stderr = s.stderr) : (assign f : ShellAction F Unit).Maintains
            (Budget limit) (Running stdoutRead stderrRead limit) :=
        Stateful.maintains_assign fun t s h => h.assign (hstdout s) (hstderr s)
      refine Stateful.maintains_bind (maintains_quiet quiet_cancelIsSet) fun cancelled => ?_
      refine Stateful.maintains_ite (hassign (fun _ => rfl) fun _ => rfl) ?_
      refine Stateful.maintains_bind (maintains_quiet quiet_monotonic) fun now => ?_
      refine Stateful.maintains_ite (hassign (fun _ => rfl) fun _ => rfl) ?_
      refine Stateful.maintains_bind maintains_drainBoth fun _ => ?_
      refine Stateful.maintains_bind Stateful.maintains_read fun s => ?_
      refine Stateful.maintains_ite (hassign (fun _ => rfl) fun _ => rfl) ?_
      refine Stateful.maintains_bind (maintains_quiet (quiet_kernel _ rfl)) fun state => ?_
      refine Stateful.maintains_ite ?_ ?_
      · refine Stateful.maintains_bind (maintains_quiet (quiet_kernel _ rfl)) fun ⟨ok, code⟩ => ?_
        refine Stateful.maintains_bind (maintains_quiet (quiet_check _)) fun _ => ?_
        exact hassign (fun _ => rfl) fun _ => rfl
      · refine Stateful.maintains_bind (maintains_quiet (quiet_check _)) fun _ => ?_
        exact Stateful.maintains_bind (maintains_quiet (only_call _ rfl)) fun _ => ih

theorem maintains_follow (fuel process thread : ℕ) (setup : Setup) (stop : F) :
    (follow fuel process thread limit setup stop).Maintains (Budget limit)
      (Running setup.stdoutRead setup.stderrRead limit) := by
  refine Stateful.maintains_bind (maintains_quiet (quiet_stopped _)) fun ended => ?_
  refine Stateful.maintains_ite ?_ ?_
  · refine Stateful.maintains_bind (maintains_quiet quiet_stoppedOutcome) fun outcome => ?_
    exact Stateful.maintains_assign fun t s h => h.assign rfl rfl
  · refine Stateful.maintains_bind (maintains_quiet (quiet_kernel _ rfl)) fun resumed => ?_
    refine Stateful.maintains_bind (maintains_quiet (quiet_check _)) fun _ => ?_
    refine Stateful.maintains_bind ?_ fun _ => maintains_poll ..
    exact Stateful.maintains_assign fun t s h => h.assign rfl rfl

/-- How a command ends: with a right account, and with an exit only when the pipes were empty. -/
structure Finished (limit : ℕ) (t : LocalTrace F) (r : Result Unit × Shell) : Prop where
  tally : Tally limit t r.2
  exited : r.1 = .ok () → r.2.outcome = .exited → r.2.observed ≤ limit ∧
    ∃ stdoutRead stderrRead, readEnds t = [stdoutRead, stderrRead] ∧
      (Yields t → LastEmpty stdoutRead stderrRead t)

omit [PyFloat F] in
theorem Tally.error {t : LocalTrace F} {s : Shell} (h : Tally limit t s) (exn : LocalExn) :
    Finished limit t (.error exn, s) :=
  ⟨h, fun h => nomatch h⟩

theorem safe_startProcess (fuel : ℕ) (command : String) (cwd : Option String)
    (setup : Setup) (stop : F) (s : Shell) (past : LocalTrace F)
    (h : Running setup.stdoutRead setup.stderrRead limit past s) :
    Safe (Budget limit) ((startProcess fuel limit command cwd setup stop).start s)
      (Finished limit) past := by
  refine (maintains_quiet (quiet_kernel _ rfl)).safe_bind h ?_ fun exn _ _ h => h.toTally.error exn
  intro ⟨ok, process, thread⟩ t s h
  refine (maintains_quiet (quiet_check ok)).safe_bind h ?_ fun exn _ _ h => h.toTally.error exn
  intro _ t s h
  refine (Stateful.safe_start_assign_bind ..).mpr ?_
  refine (maintains_quiet (quiet_own process)).safe_bind (h.assign rfl rfl) ?_
    fun exn _ _ h => h.toTally.error exn
  intro process t s h
  refine (maintains_quiet (quiet_own thread)).safe_bind h ?_ fun exn _ _ h => h.toTally.error exn
  intro thread t s h
  have hfollow : (follow fuel process thread limit setup stop).Maintains (Budget limit)
      (Running setup.stdoutRead setup.stderrRead limit) := maintains_follow ..
  have hfinally := Stateful.maintains_finally hfollow
    (q := do
      let cleanup ← lift (terminateAndConfirm fuel setup.job process)
      assign ({ · with cleanup }))
    (Stateful.maintains_bind (maintains_quiet (quiet_terminateAndConfirm ..)) fun cleanup =>
      Stateful.maintains_assign fun t s h => h.assign rfl rfl)
  refine hfinally.safe_bind h ?_ fun exn _ _ h => h.toTally.error exn
  intro _ t s h
  refine (safe_drainResidual fuel s t h).mono ?_
  rintro t ⟨done, s'⟩ ⟨hrunning, hexited⟩
  refine ⟨hrunning.toTally, fun hdone houtcome => ?_⟩
  obtain ⟨hlimit, hempty⟩ := hexited hdone houtcome
  exact ⟨hlimit, _, _, hrunning.ends, hempty⟩

end Clock

/-! ### Before the process -/

/-- These ends are open, and nothing has been read. -/
structure Unread (ends : List ℕ) (t : LocalTrace F) : Prop where
  bytes : ∀ source, t.flatMap (bytesRead source) = []
  ends : readEnds t = ends

theorem Unread.silent {ends : List ℕ} {t new : LocalTrace F} (h : Unread ends t)
    (hnew : ∀ x ∈ new, Silent x) : Unread ends (t ++ new) := by
  refine ⟨fun source => ?_, ?_⟩
  · rw [List.flatMap_append, h.bytes, flatMap_bytesRead_of_silent hnew]
    rfl
  · rw [readEnds_append, h.ends, readEnds_of_silent hnew, List.append_nil]

theorem Unread.quiet {ends : List ℕ} (t : LocalTrace F) (x : LocalEvent F)
    (hx : quietEffect x.1) (h : Unread ends t) : Unread ends (t ++ [x]) :=
  h.silent fun _ hy => List.mem_singleton.mp hy ▸ silent_of_quiet hx

theorem Unread.bound {ends : List ℕ} {t : LocalTrace F} (h : Unread ends t) (limit : ℕ) :
    consumed t ≤ limit + 1 := by
  have hnone : consumed t = 0 := congrArg List.length (h.bytes _)
  omega

/-- A part that leaves the pipes alone, and then the rest. -/
theorem safe_bind_of_quiet {α β : Type} {limit : ℕ} {ends : List ℕ} {p : LocalAction F α}
    (hp : Quiet p) {f : α → LocalAction F β} {Q : LocalTrace F → Result β → Prop}
    {past : LocalTrace F} (h : Unread ends past)
    (hok : ∀ a t, Unread ends t → Safe (Budget limit) (f a).run Q t)
    (herror : ∀ t exn, Unread ends t → Q t (.error exn)) :
    Safe (Budget limit) (p >>= f).run Q past := by
  refine (safe_run_bind ..).mpr ((hp.safe Unread.quiet (fun _ _ h _ => h.bound limit) h).mono ?_)
  rintro t (exn | a) ⟨ht, _⟩
  · exact herror t exn ht
  · exact hok a t ht

/-- What setting up leaves: `ends` are the ends that the value needs. -/
def Opened {α : Type} (ends : α → List ℕ) (t : LocalTrace F) : Result α → Prop
  | .ok a => Unread (ends a) t
  | .error _ => ∃ ends, Unread ends t

theorem safe_pipe {limit : ℕ} {ends : List ℕ} {past : LocalTrace F} (h : Unread ends past) :
    Safe (Budget limit) pipe.run (Opened fun a => ends ++ [a.1]) past := by
  refine (safe_run_bind ..).mpr ((safe_call ..).mpr ⟨h.bound limit, fun answer => ?_⟩)
  have hopened : Unread (ends ++ readEnds [⟨.kernel .createPipe, answer⟩])
      (past ++ [(⟨.kernel .createPipe, answer⟩ : LocalEvent F)]) := by
    refine ⟨fun source => ?_, by rw [readEnds_append, h.ends]⟩
    rw [List.flatMap_append, h.bytes]
    rfl
  have hfail {new : LocalTrace F} {exn : LocalExn} {β : Type} {needed : β → List ℕ}
      (hnew : ∀ x ∈ new, Silent x) : Opened needed
        (past ++ [(⟨.kernel .createPipe, answer⟩ : LocalEvent F)] ++ new) (.error exn) :=
    ⟨_, hopened.silent hnew⟩
  rcases answer with exn | ⟨ok, reading, writing⟩
  · exact ⟨_, hopened⟩
  refine (safe_run_bind ..).mpr (safe_check (hopened.bound limit) (fun hok => ?_)
    fun new exn hnew _ => hfail hnew)
  have hok : ok = true := hok
  subst hok
  cases reading with
  | none =>
      exact (safe_run_bind ..).mpr ((safe_run_bind ..).mpr (safe_check (hopened.bound limit)
        (fun h => nomatch h) fun new exn hnew _ => hfail hnew))
  | some reader =>
      change Unread (ends ++ [reader]) _ at hopened
      refine (safe_run_bind ..).mpr ?_
      change Safe _ (do
        let writer ← own writing
        check (← kernel (.setHandleInformation reader))
        return (reader, writer) : LocalAction F (ℕ × ℕ)).run _ _
      refine safe_bind_of_quiet (quiet_own _) hopened (fun writer t h => ?_) fun _ _ h => ⟨_, h⟩
      refine safe_bind_of_quiet (quiet_kernel _ rfl) h (fun ok t h => ?_) fun _ _ h => ⟨_, h⟩
      exact safe_bind_of_quiet (quiet_check _) h (fun _ t h => h) fun _ _ h => ⟨_, h⟩

theorem safe_setUp {limit : ℕ} {past : LocalTrace F} (h : Unread [] past) :
    Safe (Budget limit) setUp.run (Opened fun setup => [setup.stdoutRead, setup.stderrRead])
      past := by
  refine safe_bind_of_quiet (quiet_kernel _ rfl) h (fun _ t h => ?_) fun _ _ h => ⟨_, h⟩
  refine safe_bind_of_quiet (quiet_kernel _ rfl) h (fun job t h => ?_) fun _ _ h => ⟨_, h⟩
  refine safe_bind_of_quiet (quiet_own _) h (fun job t h => ?_) fun _ _ h => ⟨_, h⟩
  refine safe_bind_of_quiet (quiet_kernel _ rfl) h (fun ok t h => ?_) fun _ _ h => ⟨_, h⟩
  refine safe_bind_of_quiet (quiet_check _) h (fun _ t h => ?_) fun _ _ h => ⟨_, h⟩
  refine (safe_run_bind ..).mpr ((safe_pipe h).mono ?_)
  rintro t (exn | ⟨stdoutRead, stdoutWrite⟩) h
  · exact h
  refine (safe_run_bind ..).mpr ((safe_pipe h).mono ?_)
  rintro t (exn | ⟨stderrRead, stderrWrite⟩) h
  · exact h
  refine safe_bind_of_quiet (quiet_kernel _ rfl) h (fun stdin t h => ?_) fun _ _ h => ⟨_, h⟩
  refine safe_bind_of_quiet (quiet_own _) h (fun stdin t h => ?_) fun _ _ h => ⟨_, h⟩
  refine safe_bind_of_quiet (quiet_attributes _ _) h (fun _ t h => ?_) fun _ _ h => ⟨_, h⟩
  refine safe_bind_of_quiet (quiet_kernel _ rfl) h (fun ⟨length, directory⟩ t h => ?_)
    fun _ _ h => ⟨_, h⟩
  exact safe_bind_of_quiet (quiet_check _) h (fun _ t h => h) fun _ _ h => ⟨_, h⟩

section Clock

variable [PyFloat F]

theorem safe_execute (fuel limit : ℕ) (command : String) (cwd : Option String) (stop : F)
    {past : LocalTrace F} (h : Unread [] past) :
    Safe (Budget limit) ((execute fuel limit command cwd stop).start Shell.new) (Finished limit)
      past := by
  refine (Stateful.safe_start_tryCatch ..).mpr (Safe.mono ?_
    (?_ : Safe (Budget limit) _ (Finished limit) past))
  · rintro t ⟨exn | _, s⟩ hfinished
    · dsimp only
      split_ifs
      · refine ⟨hfinished.tally.assign rfl rfl, fun _ houtcome => ?_⟩
        change (if s.started then Outcome.runtimeError else Outcome.startupFailed) = _ at houtcome
        split_ifs at houtcome
      · exact hfinished.tally.error exn
    · exact hfinished
  · refine (Stateful.safe_start_bind ..).mpr ((Stateful.safe_lift ..).mpr
      ((safe_setUp h).mono ?_))
    rintro t (exn | setup) h
    · obtain ⟨ends, h⟩ := h
      exact (Tally.new limit h.bytes).error exn
    · have hrunning : Running setup.stdoutRead setup.stderrRead limit t Shell.new :=
        ⟨.new limit h.bytes, h.ends⟩
      refine (maintains_quiet (quiet_stopped stop)).safe_bind hrunning ?_
        fun exn _ _ h => h.toTally.error exn
      intro ended t s h
      cases ended with
      | true =>
          refine (Stateful.safe_start_bind ..).mpr ((Stateful.safe_lift ..).mpr
            ((safe_run_bind ..).mpr ((safe_call ..).mpr ⟨h.bound, fun answer => ?_⟩)))
          have htally := (Running.quiet t s ⟨.cancelIsSet, answer⟩ rfl h).toTally
          rcases answer with exn | cancelled
          · exact htally.error exn
          refine ⟨htally.assign rfl rfl, fun _ houtcome => ?_⟩
          cases cancelled with
          | true => cases houtcome
          | false => cases houtcome
      | false => exact safe_startProcess fuel command cwd setup stop s t h

/-- What a result says of the output of its run. -/
structure Reported (host : Host) (limit : ℕ) (t : LocalTrace F) (result : ShellResult) :
    Prop where
  stdout : (readEnds t).Nodup →
    result.stdout = host.decode ((streamOutput .stdout t).rtake tailBytes) ∧
      result.stdoutBytesObserved = (streamOutput .stdout t).length
  stderr : (readEnds t).Nodup →
    result.stderr = host.decode ((streamOutput .stderr t).rtake tailBytes) ∧
      result.stderrBytesObserved = (streamOutput .stderr t).length
  total : result.stdoutBytesObserved + result.stderrBytesObserved = consumed t
  /-- The clock is read once more after the pipes were found empty. -/
  exited : result.outcome = .exited → consumed t ≤ limit ∧
    ∃ before stdoutRead stderrRead now, t = before ++ [⟨.monotonic, .ok now⟩] ∧
      readEnds t = [stdoutRead, stderrRead] ∧
      (Yields t → LastEmpty stdoutRead stderrRead before)

/-- The command was refused before a pipe was opened. -/
structure Refused (t : LocalTrace F) (result : ShellResult) : Prop where
  early : result = ShellResult.early result.outcome
  outcome : result.outcome ≠ .exited
  consumed : consumed t = 0

omit [PyFloat F] in
theorem Finished.reported {limit : ℕ} {t : LocalTrace F} {s : Shell}
    (h : Finished limit t (.ok (), s)) (host : Host) (now : F) (durationMs : ℤ) :
    Reported host limit (t ++ [⟨.monotonic, .ok now⟩]) (s.result host durationMs) := by
  have htally := h.tally.silent (x := ⟨.monotonic, .ok now⟩) (silent_of_quiet rfl)
  have hends : readEnds (t ++ [(⟨.monotonic, .ok now⟩ : LocalEvent F)]) = readEnds t := by
    rw [readEnds_append]
    exact List.append_nil _
  refine ⟨fun hdistinct => ?_, fun hdistinct => ?_, htally.total, fun houtcome => ?_⟩
  · have htail : s.stdout = _ := htally.tail hdistinct .stdout
    have hdata : s.stdout.data = _ := (congrArg Tail.data htail).trans (Tail.data_of _)
    exact ⟨congrArg host.decode hdata, congrArg Tail.observed htail⟩
  · have htail : s.stderr = _ := htally.tail hdistinct .stderr
    have hdata : s.stderr.data = _ := (congrArg Tail.data htail).trans (Tail.data_of _)
    exact ⟨congrArg host.decode hdata, congrArg Tail.observed htail⟩
  · obtain ⟨hlimit, stdoutRead, stderrRead, hopened, hempty⟩ := h.exited rfl houtcome
    refine ⟨htally.total ▸ hlimit, t, stdoutRead, stderrRead, now, rfl, hends.trans hopened, ?_⟩
    exact fun hyields => hempty fun handle size data hx =>
      hyields handle size data (List.mem_append_left _ hx)

theorem safe_runShell (host : Host) (fuel : ℕ) (command : String) (cwd timeout : Json)
    (deadline : Option F) (limit : ℕ) :
    Safe (Budget limit) (runShell host fuel command cwd timeout deadline limit).run
      (fun t r => consumed t ≤ limit + 1 ∧ ∀ result, r = .ok result →
        Refused t result ∨ Reported host limit t result) [] := by
  have hnone : Unread [] ([] : LocalTrace F) := ⟨fun _ => rfl, rfl⟩
  refine (safe_run_bind ..).mpr ((safe_fromExcept ..).mpr ?_)
  cases checkShellArguments host command cwd timeout deadline limit with
  | error exn => exact ⟨Nat.zero_le _, fun _ h => nomatch h⟩
  | ok checked =>
      refine (safe_run_bind ..).mpr ((safe_call ..).mpr ⟨Nat.zero_le _, fun answer => ?_⟩)
      rcases answer with exn | began
      · exact ⟨Nat.zero_le _, fun _ h => nomatch h⟩
      refine (safe_run_bind ..).mpr ((safe_call ..).mpr ⟨Nat.zero_le _, fun answer => ?_⟩)
      rcases answer with exn | cancelled
      · exact ⟨Nat.zero_le _, fun _ h => nomatch h⟩
      have hclock : Unread [] ([⟨.monotonic, .ok began⟩, ⟨.cancelIsSet, .ok cancelled⟩] :
          LocalTrace F) := ⟨fun _ => rfl, rfl⟩
      have hearly {outcome : Outcome} (h : outcome ≠ .exited) :
          Refused ([⟨.monotonic, .ok began⟩, ⟨.cancelIsSet, .ok cancelled⟩] : LocalTrace F)
            (ShellResult.early outcome) := ⟨rfl, h, rfl⟩
      dsimp only [id_eq]
      split_ifs
      · refine ⟨Nat.zero_le _, ?_⟩
        rintro _ ⟨⟩
        exact .inl (hearly fun h => nomatch h)
      · refine ⟨Nat.zero_le _, ?_⟩
        rintro _ ⟨⟩
        exact .inl (hearly fun h => nomatch h)
      · refine ⟨Nat.zero_le _, ?_⟩
        rintro _ ⟨⟩
        exact .inl (hearly fun h => nomatch h)
      · refine (safe_run_bind ..).mpr ((safe_lift ..).mpr
          ((safe_execute fuel limit command _ _ hclock).mono ?_))
        rintro t ⟨done, s⟩ hfinished
        refine (safe_run_bind ..).mpr ((safe_fromExcept ..).mpr ?_)
        cases done with
        | error exn => exact ⟨hfinished.tally.bound, fun _ h => nomatch h⟩
        | ok _ =>
            refine (safe_run_bind ..).mpr ((safe_call ..).mpr
              ⟨hfinished.tally.bound, fun answer => ?_⟩)
            have htally := hfinished.tally.silent (x := ⟨.monotonic, answer⟩)
              (silent_of_quiet rfl)
            rcases answer with exn | now
            · exact ⟨htally.bound, fun _ h => nomatch h⟩
            refine ⟨htally.bound, ?_⟩
            rintro _ ⟨⟩
            exact .inr (hfinished.reported host now _)

/-- Whatever the pipes hold and whenever they hold it, no more than the limit and one byte is
consumed, the reported tails are the ends of what was consumed, an exit is reported only after
both pipes were found empty within the limit, and the residual drain ends. -/
theorem shell_output_accounted (host : Host) (fuel : ℕ) (command : String) (cwd timeout : Json)
    (deadline : Option F) (limit : ℕ) :
    (∀ t e, Starts (runShell host fuel command cwd timeout deadline limit).run t e →
      consumed t ≤ limit + 1) ∧
    (∀ t r, Runs (runShell host fuel command cwd timeout deadline limit).run t r →
      consumed t ≤ limit + 1 ∧ ∀ result, r = .ok result →
        Refused t result ∨ Reported host limit t result) ∧
    ∀ stdoutRead stderrRead s t, limit + 1 < fuel →
      ¬ Starts ((drainResidual stdoutRead stderrRead limit fuel : ShellAction F Unit).start s) t
        .beyond := by
  have hsafe := safe_runShell host fuel command cwd timeout deadline limit
  refine ⟨fun t e hstart => hsafe.starts hstart, fun t r hrun => runs_of_wp hsafe.wp hrun, ?_⟩
  intro stdoutRead stderrRead s t hfuel hstart
  exact (safe_drainResidual_ends fuel s [] (by omega)).starts hstart rfl

end Clock

/-- A command that writes three bytes and exits. -/
def echoMachine (past : LocalTrace ℚ) : (e : Effect) → Option (Effect.Answer ℚ e)
  | .cancelIsSet => some (.ok false)
  | .monotonic => some (.ok 10)
  | .kernel .createPipe =>
      some (.ok (true, if readEnds past = [] then some 2 else some 7, some 3))
  | .kernel (.peekNamedPipe handle) =>
      some (.ok (true, if handle = 2 ∧ consumed past = 0 then 3 else 0))
  | .kernel (.readFile ..) => some (.ok (true, [104, 105, 10]))
  | .kernel c => some (.ok (quietKernel c))
  | _ => none

def echoRun : Program Effect (Effect.Answer ℚ) (Result ShellResult) :=
  (runShell windowsHost 3 "echo hi" .null (.number "60") none 1024).run

theorem shell_output_accounted_echo :
    consumed (playUntil echoMachine echoRun []).1 = 3 ∧
      ∃ result, Runs echoRun (playUntil echoMachine echoRun []).1 (.ok result) ∧
        result.outcome = .exited ∧ Reported windowsHost 1024 (playUntil echoMachine echoRun []).1
          result := by
  refine ⟨by decide +kernel, ?_⟩
  have hexits : ((playUntil echoMachine echoRun []).2.getRight?.any fun r =>
      r.toOption.any fun result => decide (result.outcome = .exited)) = true := by decide +kernel
  obtain ⟨r, hr, hany⟩ := (Option.any_eq_true _ _).mp hexits
  obtain ⟨result, hresult, houtcome⟩ := (Option.any_eq_true _ _).mp hany
  have houtcome : result.outcome = .exited := of_decide_eq_true houtcome
  have hok : r = .ok result := by
    cases r with
    | error exn => cases hresult
    | ok d => rw [← Option.some.inj hresult]
  subst hok
  have hrun := runs_playUntil echoMachine echoRun [] (Sum.getRight?_eq_some_iff.mp hr)
  obtain ⟨_, hreported⟩ := (shell_output_accounted windowsHost 3 "echo hi" .null (.number "60")
    (none : Option ℚ) 1024).2.1 _ _ hrun
  refine ⟨result, hrun, houtcome, (hreported result rfl).resolve_left fun h => ?_⟩
  exact h.outcome houtcome

end Ally.Companion
