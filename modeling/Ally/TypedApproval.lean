import Ally.Companion
import Ally.Raising

/-!
# The typed approval

`approve_locally` over what each turn of its loop finds: the flag, the clock, the keyboard and
the line. Output to the terminal is recorded; `none` is a call that has not returned yet.
-/

namespace Ally.LocalApproval

open PCAgentBridge Companion Raising

/-- `EOFError`, `OSError` or `ValueError` while input is read. -/
inductive InputError
  | eof | os | value
  deriving DecidableEq, Repr

/-- What one turn of the loop finds. -/
structure Poll where
  /-- `cancel.is_set()`. -/
  cancelled : Bool
  /-- `time.monotonic()`. -/
  now : ℚ
  /-- `kbhit`, and what `getwch` then reads. -/
  key : Option (Except InputError Char)
  /-- `select`, and what `readline(32)` then reads. -/
  line : Option (Except InputError (List Char))

structure Terminal where
  isatty : Bool
  /-- `sys.platform == "win32" and os.name == "nt"`. -/
  win32 : Bool

inductive Output
  | text (s : String)
  /-- The JSON text of the request. -/
  | request (action : String) (params : Json) (context : Option ApprovalContext)

def word : List Char := "APPROVE".toList

def isEnter (key : Char) : Bool := key = '\r' ∨ key = '\n'

/-- The loop goes on: `not cancel.is_set() and (deadline is None or time.monotonic() < deadline)`. -/
def Poll.goesOn (deadline : Option ℚ) (poll : Poll) : Bool :=
  !poll.cancelled && deadline.all (poll.now < ·)

/-- `line.rstrip("\r\n")`. -/
def rstrip (line : List Char) : List Char := line.rdropWhile isEnter

/-- What was printed before the rest. -/
def after (s : String) (rest : List Output × Option Bool) : List Output × Option Bool :=
  (.text s :: rest.1, rest.2)

/-- The loop, with the text that is held. -/
def loop (win32 : Bool) (deadline : Option ℚ) : List Char → List Poll → List Output × Option Bool
  | _, [] => ([], none)
  | value, poll :: polls =>
      if !poll.goesOn deadline then ([], some false)
      else if win32 then
        match poll.key with
        | none => loop win32 deadline value polls
        | some (.error _) => ([], some false)
        | some (.ok key) =>
            if isEnter key then ([], some (value = word))
            else if key = '\x03' then ([], some false)
            else if key = '\x08' then
              after "\x08 \x08" (loop win32 deadline value.dropLast polls)
            else if key ∈ word ∧ value.length < 7 then
              after (String.singleton key) (loop win32 deadline (value ++ [key]) polls)
            else ([], some false)
      else
        match poll.line with
        | none => loop win32 deadline value polls
        | some (.error _) => ([], some false)
        | some (.ok line) => ([], some (rstrip line = word))

def prompt (action : String) (params : Json) : Option ApprovalContext → List Output
  | some context =>
      [.text "Ally found this web result. Check the title and URL before approving:\n",
        .request action params (some context), .text "\n",
        .text "Type APPROVE to open this result: "]
  | none =>
      [.text "Ally requests a PC action: ", .request action params none, .text "\n",
        .text "Type APPROVE to execute this action: "]

/-- `approve_locally`. -/
def approveLocally (terminal : Terminal) (action : String) (params : Json)
    (context : Option ApprovalContext) (deadline : Option ℚ) (polls : List Poll) :
    List Output × Option Bool :=
  if !terminal.isatty then ([], some false)
  else
    let (shown, result) := loop terminal.win32 deadline [] polls
    -- `finally: print(flush=True)`
    (prompt action params context ++ shown ++ (if result.isSome then [.text "\n"] else []), result)

/-! ### Typed words -/

/-- What is held after a key that the loop goes on with. -/
def edit (value : List Char) (key : Char) : Option (List Char) :=
  if key = '\x08' then some value.dropLast
  else if key ∈ word ∧ value.length < 7 then some (value ++ [key])
  else none

/-- The keys reduced by their backspaces. -/
def reduce (value : List Char) (keys : List Char) : List Char :=
  keys.foldl (fun value key => if key = '\x08' then value.dropLast else value ++ [key]) value

/-- Every key is a backspace, or a letter of the word typed while fewer than seven are held. -/
def Typed (value : List Char) (keys : List Char) : Prop :=
  ∀ pre key post, keys = pre ++ key :: post →
    key = '\x08' ∨ key ∈ word ∧ (reduce value pre).length < 7

theorem edit_eq_some_iff {value value' : List Char} {key : Char} :
    edit value key = some value' ↔
      (key = '\x08' ∨ key ∈ word ∧ value.length < 7) ∧ value' = reduce value [key] := by
  unfold edit reduce
  by_cases hback : key = '\x08'
  · simp [hback, eq_comm]
  · by_cases hletter : key ∈ word ∧ value.length < 7
    · simp [hback, hletter, eq_comm]
    · simp [hback, hletter]

theorem typed_nil (value : List Char) : Typed value [] := by
  intro pre key post h
  simp at h

theorem typed_cons {value : List Char} {key : Char} {keys : List Char} :
    Typed value (key :: keys) ↔
      (key = '\x08' ∨ key ∈ word ∧ value.length < 7) ∧ Typed (reduce value [key]) keys := by
  constructor
  · intro h
    refine ⟨h [] key keys rfl, fun pre k post heq => ?_⟩
    exact h (key :: pre) k post (by rw [heq, List.cons_append])
  · rintro ⟨hkey, hkeys⟩ pre k post heq
    cases pre with
    | nil =>
        obtain ⟨rfl, -⟩ := List.cons.inj heq
        exact hkey
    | cons c pre =>
        obtain ⟨rfl, hrest⟩ := List.cons.inj heq
        exact hkeys pre k post hrest

theorem foldlM_edit_eq_some {value value' : List Char} (keys : List Char) :
    keys.foldlM edit value = some value' ↔ Typed value keys ∧ reduce value keys = value' := by
  induction keys generalizing value with
  | nil => simp [typed_nil, reduce]
  | cons key keys ih =>
      simp only [List.foldlM_cons, Option.bind_eq_bind, Option.bind_eq_some_iff,
        edit_eq_some_iff, ih, typed_cons]
      constructor
      · rintro ⟨_, ⟨hkey, rfl⟩, hkeys, rfl⟩
        exact ⟨⟨hkey, hkeys⟩, rfl⟩
      · rintro ⟨⟨hkey, hkeys⟩, rfl⟩
        exact ⟨_, ⟨hkey, rfl⟩, hkeys, rfl⟩

/-! ### The loop -/

variable {deadline : Option ℚ} {value value' : List Char}

/-- One turn on the console: the verdict, or what is held after it. -/
def turn (deadline : Option ℚ) (value : List Char) (poll : Poll) : Except Bool (List Char) :=
  if !poll.goesOn deadline then .error false
  else
    match poll.key with
    | none => .ok value
    | some (.error _) => .error false
    | some (.ok key) =>
        if isEnter key then .error (value = word)
        else match edit value key with
          | some value' => .ok value'
          | none => .error false

theorem loop_cons (value : List Char) (poll : Poll) (polls : List Poll) :
    (loop true deadline value (poll :: polls)).2 =
      match turn deadline value poll with
      | .ok value' => (loop true deadline value' polls).2
      | .error r => some r := by
  rw [loop, turn]
  by_cases hgoes : poll.goesOn deadline
  · rcases poll.key with _ | _ | key
    · simp [hgoes]
    · simp [hgoes]
    · by_cases henter : isEnter key
      · simp [hgoes, henter]
      · simp only [hgoes, henter, edit]
        -- Ctrl-C is neither a backspace nor a letter of the word
        by_cases hinterrupt : key = '\x03'
        · subst hinterrupt
          have hletter : '\x03' ∉ word := by decide
          simp [hletter]
        · by_cases hback : key = '\x08'
          · simp [hback, after]
          · by_cases hletter : key ∈ word ∧ value.length < 7
            · simp [hinterrupt, hback, hletter, after]
            · simp [hinterrupt, hback, hletter]
  · simp [hgoes]

/-- The loop is its turns one after another. -/
theorem loop_eq_foldlM (value : List Char) (polls : List Poll) :
    (loop true deadline value polls).2 = raisedBy (polls.foldlM (turn deadline) value) := by
  induction polls generalizing value with
  | nil => rfl
  | cons poll polls ih =>
      rw [loop_cons, List.foldlM_cons]
      cases turn deadline value poll with
      | ok value' => exact ih value'
      | error r => rfl

/-- The keys that were read, where every read gave one. -/
def Reads (polls : List Poll) (keys : List Char) : Prop :=
  polls.filterMap (·.key) = keys.map Except.ok

theorem reads_nil {keys : List Char} : Reads [] keys ↔ keys = [] := by
  simp [Reads, eq_comm]

theorem reads_cons {poll : Poll} {polls : List Poll} {keys : List Char} :
    Reads (poll :: polls) keys ↔ (poll.key = none ∧ Reads polls keys) ∨
      ∃ key rest, poll.key = some (.ok key) ∧ keys = key :: rest ∧ Reads polls rest := by
  unfold Reads
  rcases hkey : poll.key with _ | e | key
  · simp [hkey]
  · rw [List.filterMap_cons_some hkey]
    cases keys with
    | nil => simp
    | cons key keys => simp
  · rw [List.filterMap_cons_some hkey]
    cases keys with
    | nil => simp
    | cons k keys => simp [eq_comm]

theorem edit_enter {key : Char} (h : isEnter key) : edit value key = none := by
  have hkey : key = '\r' ∨ key = '\n' := of_decide_eq_true h
  have hletters : '\r' ∉ word ∧ '\n' ∉ word := by decide
  rcases hkey with rfl | rfl
  · simp [edit, hletters.1]
  · simp [edit, hletters.2]

theorem turn_eq_ok_iff {poll : Poll} :
    turn deadline value poll = .ok value' ↔
      poll.goesOn deadline ∧ ((poll.key = none ∧ value = value') ∨
        ∃ key, poll.key = some (.ok key) ∧ edit value key = some value') := by
  unfold turn
  by_cases hgoes : poll.goesOn deadline
  · rcases poll.key with _ | e | key
    · simp [hgoes]
    · simp [hgoes]
    · by_cases henter : isEnter key
      · simp [hgoes, henter, edit_enter henter]
      · cases hedit : edit value key with
        | none => simp [hgoes, henter, hedit]
        | some held => simp [hgoes, henter, hedit]
  · simp [hgoes]

theorem turn_eq_approved_iff {poll : Poll} :
    turn deadline value poll = .error true ↔
      poll.goesOn deadline ∧ (∃ enter, poll.key = some (.ok enter) ∧ isEnter enter) ∧
        value = word := by
  unfold turn
  by_cases hgoes : poll.goesOn deadline
  · rcases poll.key with _ | e | key
    · simp [hgoes]
    · simp [hgoes]
    · by_cases henter : isEnter key
      · simp [hgoes, henter]
      · cases hedit : edit value key with
        | none => simp [hgoes, henter, hedit]
        | some held => simp [hgoes, henter, hedit]
  · simp [hgoes]

/-- The loop goes on after turns that go on and read keys to edit with. -/
theorem foldlM_turn_eq_ok_iff (polls : List Poll) :
    polls.foldlM (turn deadline) value = .ok value' ↔
      (∀ poll ∈ polls, poll.goesOn deadline) ∧
        ∃ keys, Reads polls keys ∧ keys.foldlM edit value = some value' := by
  induction polls generalizing value with
  | nil => simp [reads_nil, pure, Except.pure]
  | cons poll polls ih =>
      simp only [List.foldlM_cons, bind_eq_ok, turn_eq_ok_iff, ih, reads_cons,
        List.forall_mem_cons]
      constructor
      · rintro ⟨held, ⟨hgoes, (⟨hkey, rfl⟩ | ⟨key, hkey, hedit⟩)⟩, hall, keys, hreads, hkeys⟩
        · exact ⟨⟨hgoes, hall⟩, keys, .inl ⟨hkey, hreads⟩, hkeys⟩
        · refine ⟨⟨hgoes, hall⟩, key :: keys, .inr ⟨key, keys, hkey, rfl, hreads⟩, ?_⟩
          simp [hedit, hkeys]
      · rintro ⟨⟨hgoes, hall⟩, keys, (⟨hkey, hreads⟩ | ⟨key, rest, hkey, rfl, hreads⟩), hkeys⟩
        · exact ⟨value, ⟨hgoes, .inl ⟨hkey, rfl⟩⟩, hall, keys, hreads, hkeys⟩
        · obtain ⟨held, hedit, hrest⟩ : ∃ held, edit value key = some held ∧
              rest.foldlM edit held = some value' := by
            simpa [Option.bind_eq_some_iff] using hkeys
          exact ⟨held, ⟨hgoes, .inr ⟨key, hkey, hedit⟩⟩, hall, rest, hreads, hrest⟩

/-! ### The call -/

section Console

variable (action : String) (params : Json) (context : Option ApprovalContext)
  (deadline : Option ℚ)

/-- The verdict of a call that polls the console. -/
def consoleVerdict (polls : List Poll) : Option Bool :=
  (approveLocally ⟨true, true⟩ action params context deadline polls).2

theorem consoleVerdict_eq (polls : List Poll) :
    consoleVerdict action params context deadline polls =
      raisedBy (polls.foldlM (turn deadline) []) := by
  rw [← loop_eq_foldlM]
  rfl

/-- The turns up to an Enter go on, and the keys before it are typed and spell the word. -/
def Approved (polls : List Poll) : Prop :=
  ∃ pre poll post keys enter, polls = pre ++ poll :: post ∧
    (∀ p ∈ pre ++ [poll], p.goesOn deadline) ∧ Reads pre keys ∧
    poll.key = some (.ok enter) ∧ isEnter enter ∧ Typed [] keys ∧ reduce [] keys = word

/-- All turns go on, and their keys are typed. -/
def Waiting (polls : List Poll) : Prop :=
  (∀ p ∈ polls, p.goesOn deadline) ∧ ∃ keys, Reads polls keys ∧ Typed [] keys

theorem consoleVerdict_approved_iff (polls : List Poll) :
    consoleVerdict action params context deadline polls = some true ↔
      Approved deadline polls := by
  have herror : consoleVerdict action params context deadline polls = some true ↔
      polls.foldlM (turn deadline) [] = .error true := by
    rw [consoleVerdict_eq]
    cases polls.foldlM (turn deadline) [] with
    | ok held => simp [raisedBy]
    | error r => simp [raisedBy]
  rw [herror, foldlM_eq_error, Approved]
  constructor
  · rintro ⟨pre, poll, post, held, hsplit, hpre, hverdict⟩
    obtain ⟨hall, keys, hreads, hkeys⟩ := (foldlM_turn_eq_ok_iff pre).mp hpre
    obtain ⟨hgoes, ⟨enter, hkey, henter⟩, hword⟩ := turn_eq_approved_iff.mp hverdict
    obtain ⟨htyped, hreduce⟩ := (foldlM_edit_eq_some keys).mp hkeys
    refine ⟨pre, poll, post, keys, enter, hsplit, ?_, hreads, hkey, henter, htyped,
      hreduce.trans hword⟩
    exact List.forall_mem_append.mpr ⟨hall, List.forall_mem_singleton.mpr hgoes⟩
  · rintro ⟨pre, poll, post, keys, enter, hsplit, hall, hreads, hkey, henter, htyped, hword⟩
    obtain ⟨hall, hgoes⟩ := List.forall_mem_append.mp hall
    refine ⟨pre, poll, post, word, hsplit, ?_, ?_⟩
    · exact (foldlM_turn_eq_ok_iff pre).mpr
        ⟨hall, keys, hreads, (foldlM_edit_eq_some keys).mpr ⟨htyped, hword⟩⟩
    · exact turn_eq_approved_iff.mpr
        ⟨hgoes poll (List.mem_singleton_self poll), ⟨enter, hkey, henter⟩, rfl⟩

theorem consoleVerdict_waiting_iff (polls : List Poll) :
    consoleVerdict action params context deadline polls = none ↔ Waiting deadline polls := by
  have hok : consoleVerdict action params context deadline polls = none ↔
      ∃ held, polls.foldlM (turn deadline) [] = .ok held := by
    rw [consoleVerdict_eq]
    cases polls.foldlM (turn deadline) [] with
    | ok held => simp [raisedBy]
    | error r => simp [raisedBy]
  simp only [hok, foldlM_turn_eq_ok_iff, Waiting, foldlM_edit_eq_some]
  constructor
  · rintro ⟨held, hall, keys, hreads, htyped, -⟩
    exact ⟨hall, keys, hreads, htyped⟩
  · rintro ⟨hall, keys, hreads, htyped⟩
    exact ⟨_, hall, keys, hreads, htyped, rfl⟩

/-- Cancellation or the deadline ends the wait with a denial. -/
theorem consoleVerdict_of_ended {polls : List Poll}
    (h : consoleVerdict action params context deadline polls = none) {poll : Poll}
    (hended : poll.goesOn deadline = false) (rest : List Poll) :
    consoleVerdict action params context deadline (polls ++ poll :: rest) = some false := by
  rw [consoleVerdict_eq] at h ⊢
  rw [List.foldlM_append]
  cases hheld : polls.foldlM (turn deadline) [] with
  | ok held =>
      have hturn : turn deadline held poll = .error false := by simp [turn, hended]
      change raisedBy ((poll :: rest).foldlM (turn deadline) held) = some false
      rw [List.foldlM_cons, hturn]
      rfl
  | error r =>
      rw [hheld] at h
      cases h

/-- On the console the call returns `True` exactly when an Enter is read before a turn sees
cancellation or the deadline, every key before it is a backspace or a letter of the word typed
while fewer than seven are held, and these keys spell the word. It goes on waiting exactly while
the turns go on and the keys are of this kind; then cancellation or the deadline makes it
return `False`, as it does in every other run. -/
theorem approves_exactly_the_word (polls : List Poll) :
    (consoleVerdict action params context deadline polls = some true ↔
      Approved deadline polls) ∧
    (consoleVerdict action params context deadline polls = none ↔ Waiting deadline polls) ∧
    (consoleVerdict action params context deadline polls = none →
      ∀ poll : Poll, poll.goesOn deadline = false → ∀ rest,
        consoleVerdict action params context deadline (polls ++ poll :: rest) = some false) ∧
    ∀ win32 : Bool,
      approveLocally ⟨false, win32⟩ action params context deadline polls = ([], some false) :=
  ⟨consoleVerdict_approved_iff action params context deadline polls,
    consoleVerdict_waiting_iff action params context deadline polls,
    fun h _ hended rest => consoleVerdict_of_ended action params context deadline h hended rest,
    fun _ => rfl⟩

end Console

/-- A letter too many is taken back before the Enter, with a pause between. -/
def correctedWord : List Poll :=
  ("APPROA\x08VE".toList.map fun key => ⟨false, 1, some (.ok key), none⟩) ++
    [⟨false, 2, none, none⟩, ⟨false, 3, some (.ok '\r'), none⟩]

example : consoleVerdict "open_url" .null none (some 60) correctedWord = some true := by
  decide +kernel

theorem approves_exactly_the_word_correctedWord :
    Approved (some 60) correctedWord ∧
    consoleVerdict "open_url" .null none (some 60)
      (correctedWord.dropLast ++ [⟨true, 3, some (.ok '\r'), none⟩]) = some false := by
  have h := approves_exactly_the_word "open_url" .null none (some 60)
  exact ⟨(h correctedWord).1.mp (by decide +kernel),
    (h correctedWord.dropLast).2.2.1 (by decide +kernel) _ (by decide +kernel) []⟩

end Ally.LocalApproval
