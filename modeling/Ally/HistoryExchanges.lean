import Mathlib.Data.List.Nodup
import Mathlib.Tactic
import Ally.Machine
import Ally.MongoHistory

/-!
# Whole exchanges

The stored messages are the end of a concatenation of whole exchanges: an append pushes
at most once, whatever the order of requests, rejected inserts and clears, and an append
that returned has pushed.
-/

namespace Ally.Chat

open Interaction Machine

/-! ### The end of a list -/

theorem lastN_append_of_le {α : Type*} {n : ℕ} (a : List α) {b : List α} (h : n ≤ b.length) :
    lastN n (a ++ b) = lastN n b := by
  have hlen : (a ++ b).length - n = a.length + (b.length - n) := by
    rw [List.length_append]
    omega
  rw [lastN, hlen, List.drop_length_add_append]
  rfl

theorem take_append_lastN {α : Type*} (n : ℕ) (l : List α) :
    l.take (l.length - n) ++ lastN n l = l :=
  List.take_append_drop _ l

theorem lastN_append_lastN {α : Type*} (n : ℕ) (l p : List α) :
    lastN n (lastN n l ++ p) = lastN n (l ++ p) := by
  by_cases hshort : l.length ≤ n
  · have hall : lastN n l = l := by
      rw [lastN, Nat.sub_eq_zero_of_le hshort, List.drop_zero]
    rw [hall]
  · have hlen : n ≤ (lastN n l ++ p).length := by
      rw [lastN, List.length_append, List.length_drop]
      omega
    have hwhole : l.take (l.length - n) ++ (lastN n l ++ p) = l ++ p := by
      rw [← List.append_assoc, take_append_lastN]
    rw [← hwhole, lastN_append_of_le _ hlen]

theorem length_flatMap_pairs {α β : Type*} {f : α → List β} {l : List α}
    (hf : ∀ a ∈ l, (f a).length = 2) : (l.flatMap f).length = 2 * l.length := by
  induction l with
  | nil => rfl
  | cons a l ih =>
      have hl := ih fun b hb => hf b (List.mem_cons_of_mem a hb)
      rw [List.flatMap_cons, List.length_append, hl, hf a List.mem_cons_self, List.length_cons]
      omega

/-- The end of a concatenation of pairs is a concatenation of the last pairs. -/
theorem lastN_flatMap {α β : Type*} {f : α → List β} {l : List α}
    (hf : ∀ a ∈ l, (f a).length = 2) (k : ℕ) :
    lastN (2 * k) (l.flatMap f) = (lastN k l).flatMap f := by
  have hsplit : l.flatMap f = (l.take (l.length - k)).flatMap f ++ (lastN k l).flatMap f := by
    rw [← List.flatMap_append, take_append_lastN]
  have hpast : ((l.take (l.length - k)).flatMap f).length = (l.flatMap f).length - 2 * k := by
    rw [length_flatMap_pairs hf, length_flatMap_pairs fun a ha => hf a (List.mem_of_mem_take ha),
      List.length_take]
    omega
  rw [lastN, ← hpast]
  conv_lhs => rw [hsplit]
  exact List.drop_left

theorem mem_of_mem_lastN {α : Type*} {n : ℕ} {l : List α} {a : α} (h : a ∈ lastN n l) : a ∈ l :=
  List.mem_of_mem_drop h

/-! ### What a call may ask for -/

variable (settings : HistorySettings)

/-- The program raises without another request. -/
def Failed : Remaining → Prop
  | .done r => ∃ e, r = .error e
  | .ask .. => False

theorem Failed.eq_done {program : Remaining} (h : Failed program) :
    ∃ e, program = .done (.error e) := by
  cases program with
  | done r =>
      obtain ⟨e, rfl⟩ := h
      exact ⟨e, rfl⟩
  | ask e next => cases h

/-- What is left of an append that has pushed nothing so far. -/
def Appending (query : Conversation) (messages : List ChatMessage)
    (limit : Except HistoryError ℕ) : Remaining → Prop
  | .done r => ∃ e, r = .error e
  | .ask .enter next => ∀ entry, Appending query messages limit (next entry)
  | .ask (.updateOne q each slice upsert) next =>
      q = query ∧ each = messages ∧ limit = .ok slice ∧
        Appending query messages limit (next (.error .duplicateKey)) ∧
        Failed (next (.error .other)) ∧
        ∀ u, ∃ r, next (.ok u) = .done r ∧
          ∀ returned, r = .ok returned → upsert = true ∨ u.matched_count = 1
  | .ask (.findOne ..) _ => False
  | .ask (.deleteOne ..) _ => False

/-- A program that never updates a document. -/
def Quiet {α : Type} : Program Effect Answer α → Prop
  | .done _ => True
  | .ask e next => (∀ q each slice upsert, e ≠ .updateOne q each slice upsert) ∧
      ∀ r, Quiet (next r)

def Obeys : Call → Remaining → Prop
  | .appendExchange query user assistant max_messages =>
      Appending query (pair user assistant) (historyLimit settings max_messages true)
  | .getHistory .. => Quiet
  | .clearHistory .. => Quiet

theorem appending_append (query : Conversation) (messages : List ChatMessage) (limit : ℕ) :
    Appending query messages (.ok limit) (ExceptT.run (do
      append settings query messages limit
      pure none)) := by
  rw [append]
  split
  · exact ⟨_, rfl⟩
  · intro entry
    cases entry with
    | closed => exact ⟨_, rfl⟩
    | exhausted => exact ⟨_, rfl⟩
    | mongo => exact ⟨_, rfl⟩
    | entered =>
        refine ⟨rfl, rfl, rfl, ⟨rfl, rfl, rfl, ⟨_, rfl⟩, ⟨_, rfl⟩, ?_⟩, ⟨_, rfl⟩, ?_⟩
        -- the winner's document takes the exchange, or it is gone again
        · rintro ⟨acknowledged, matched⟩
          cases acknowledged with
          | false => exact ⟨_, rfl, fun r h => by cases h⟩
          | true =>
              rcases matched with _ | _ | n
              · exact ⟨_, rfl, fun r h => by cases h⟩
              · exact ⟨_, rfl, fun r h => .inr rfl⟩
              · exact ⟨_, rfl, fun r h => by cases h⟩
        · rintro ⟨acknowledged, matched⟩
          cases acknowledged with
          | false => exact ⟨_, rfl, fun r h => by cases h⟩
          | true => exact ⟨_, rfl, fun r h => .inl rfl⟩

theorem appending_appendExchange (query : Conversation) (user assistant : String)
    (max_messages : Option ℤ) :
    Appending query (pair user assistant) (historyLimit settings max_messages true)
      ((Call.appendExchange query user assistant max_messages).program settings) := by
  rw [Call.program, appendExchange]
  cases hquery : validateIdentity query with
  | error e => exact ⟨_, rfl⟩
  | ok _ =>
      cases huser : validateContent settings user with
      | error e => exact ⟨_, rfl⟩
      | ok _ =>
          cases hassistant : validateContent settings assistant with
          | error e => exact ⟨_, rfl⟩
          | ok _ =>
              cases hlimit : historyLimit settings max_messages true with
              | error e => exact ⟨_, rfl⟩
              | ok limit => exact appending_append settings query (pair user assistant) limit

theorem quiet_bind {α β : Type} {p : Program Effect Answer α}
    {f : α → Program Effect Answer β} (hp : Quiet p) (hf : ∀ a, Quiet (f a)) :
    Quiet (p.bind f) := by
  induction p with
  | done a => exact hf a
  | ask e next ih => exact ⟨hp.1, fun r => ih r (hp.2 r)⟩

theorem quiet_run_bind {α β : Type} {p : Store α} {f : α → Store β} (hp : Quiet p.run)
    (hf : ∀ a, Quiet (f a).run) : Quiet (p >>= f).run :=
  quiet_bind hp fun r => by
    cases r with
    | error e => trivial
    | ok a => exact hf a

theorem quiet_entered {α : Type} {body : Store α} (h : Quiet body.run) (entry : Entry) :
    Quiet (entered body entry).run := by
  cases entry with
  | entered => exact h
  | closed => trivial
  | exhausted => trivial
  | mongo => trivial

theorem quiet_operation {α : Type} {body : Store α} (h : Quiet body.run) :
    Quiet (operation body).run := by
  have henter : Quiet (act Effect.enter : Store Entry).run :=
    ⟨fun q each slice upsert h => (by cases h), fun r => trivial⟩
  refine quiet_bind (quiet_run_bind henter (quiet_entered h)) fun r => ?_
  rcases r with (e | e) | a
  · trivial
  · trivial
  · trivial

theorem quiet_getHistory (query : Conversation) (max_messages : Option ℤ) :
    Quiet (getHistory settings query max_messages).run := by
  refine quiet_run_bind trivial fun _ => quiet_run_bind trivial fun limit =>
    quiet_run_bind (quiet_operation ?_) fun document => trivial
  exact ⟨fun q each slice upsert h => (by cases h), fun r => trivial⟩

theorem quiet_clearHistory (query : Conversation) : Quiet (clearHistory query).run := by
  refine quiet_run_bind trivial fun _ => quiet_operation ?_
  exact ⟨fun q each slice upsert h => (by cases h), fun r => trivial⟩

/-- What the code of a call asks for, on every path. -/
theorem obeys_program (call : Call) : Obeys settings call (call.program settings) := by
  cases call with
  | appendExchange query user assistant max_messages =>
      exact appending_appendExchange settings query user assistant max_messages
  | getHistory query max_messages =>
      exact quiet_run_bind (quiet_getHistory settings query max_messages) fun _ => trivial
  | clearHistory query => exact quiet_run_bind (quiet_clearHistory query) fun _ => trivial

/-! ### Requests -/

variable {requests requests' : List Request} {i rid : ℕ}

/-- An update of the session that was not rejected: it has pushed or may still push. -/
def Live (requests : List Request) (i rid : ℕ) : Prop :=
  ∃ query each slice upsert phase,
    requests[rid]? = some (Request.mk i (.updateOne query each slice upsert) phase) ∧
      phase ≠ .replied (.error .duplicateKey)

/-- The reply says that the exchange was pushed. -/
def Pushed (upsert : Bool) (u : UpdateResult) : Prop := upsert = true ∨ u.matched_count = 1

def Landed (requests : List Request) (i : ℕ) (query : Conversation) : Prop :=
  ∃ (rid : ℕ) (each : List ChatMessage) (slice : ℕ) (upsert : Bool) (u : UpdateResult),
    requests[rid]? = some (Request.mk i (.updateOne query each slice upsert) (.replied (.ok u))) ∧
      Pushed upsert u

theorem Landed.live {query : Conversation} (h : Landed requests i query) :
    ∃ rid, Live requests i rid := by
  obtain ⟨rid, each, slice, upsert, u, hr, -⟩ := h
  exact ⟨rid, query, each, slice, upsert, _, hr, fun h => by cases h⟩

/-- Where a session stands. At most one of its updates was not rejected. -/
inductive Standing (requests : List Request) (i : ℕ) : Session → Prop
  | ready {call : Call} {program : Remaining} (hobeys : Obeys settings call program)
      (hnone : ∀ rid, ¬ Live requests i rid) : Standing requests i ⟨call, program, none⟩
  | waiting {call : Call} {e : Effect} {next : Answer e → Remaining} {rid : ℕ}
      {phase : Phase e} (hobeys : Obeys settings call (.ask e next))
      (hrequest : requests[rid]? = some (Request.mk i e phase))
      (honly : ∀ rid', Live requests i rid' → rid' = rid) :
      Standing requests i ⟨call, .ask e next, some rid⟩
  | settled {call : Call} {r : Except Exn Returned}
      (honly : ∀ rid rid', Live requests i rid → Live requests i rid' → rid = rid')
      (hpushed : ∀ query user assistant max_messages returned,
        call = .appendExchange query user assistant max_messages → r = .ok returned →
          Landed requests i query) : Standing requests i ⟨call, .done r, none⟩

variable {settings}

theorem Standing.unique {session : Session} (h : Standing settings requests i session)
    {rid rid' : ℕ} (hrid : Live requests i rid) (hrid' : Live requests i rid') : rid = rid' := by
  cases h with
  | ready _ hnone => exact absurd hrid (hnone rid)
  | waiting _ _ honly => rw [honly rid hrid, honly rid' hrid']
  | settled honly _ => exact honly rid rid' hrid hrid'

/-- An append that returned has pushed. -/
theorem Standing.landed {query : Conversation} {user assistant : String}
    {max_messages : Option ℤ} {returned : Returned} {awaiting : Option ℕ}
    (h : Standing settings requests i
      ⟨.appendExchange query user assistant max_messages, .done (.ok returned), awaiting⟩) :
    Landed requests i query := by
  cases h with
  | ready hobeys _ =>
      obtain ⟨e, he⟩ := hobeys
      cases he
  | settled _ hpushed => exact hpushed query user assistant max_messages returned rfl rfl

/-- A change of the requests that rejects no update and takes none back. -/
structure Advances (requests requests' : List Request) (i : ℕ) : Prop where
  live : ∀ rid, Live requests' i rid → Live requests i rid
  landed : ∀ query, Landed requests i query → Landed requests' i query
  effect : ∀ (rid : ℕ) e phase, requests[rid]? = some (Request.mk i e phase) →
    ∃ phase', requests'[rid]? = some (Request.mk i e phase')

theorem Standing.mono {session : Session} (h : Standing settings requests i session)
    (hadv : Advances requests requests' i) : Standing settings requests' i session := by
  cases h with
  | ready hobeys hnone => exact .ready hobeys fun rid hrid => hnone rid (hadv.live rid hrid)
  | waiting hobeys hrequest honly =>
      obtain ⟨phase', hrequest'⟩ := hadv.effect _ _ _ hrequest
      exact .waiting hobeys hrequest' fun rid hrid => honly rid (hadv.live rid hrid)
  | settled honly hpushed =>
      exact .settled (fun rid rid' hrid hrid' => honly rid rid' (hadv.live rid hrid)
        (hadv.live rid' hrid')) fun query user assistant max_messages returned hcall hr =>
          hadv.landed query (hpushed query user assistant max_messages returned hcall hr)

/-- A request that the server still works on goes to its next phase. -/
theorem getElem?_setPhase {r r' : Request} (h : requests[rid]? = some r) (rid' : ℕ) :
    (requests.set rid r')[rid']? = if rid' = rid then some r' else requests[rid']? := by
  have hlt : rid < requests.length := (List.getElem?_eq_some_iff.mp h).1
  rw [List.getElem?_set]
  by_cases heq : rid' = rid
  · rw [if_pos heq.symm, if_pos hlt, if_pos heq]
  · rw [if_neg (Ne.symm heq), if_neg heq]

theorem advances_set {j : ℕ} {e : Effect} {phase phase' : Phase e}
    (h : requests[rid]? = some (Request.mk j e phase)) (hphase : ∀ r, phase ≠ .replied r) :
    Advances requests (requests.set rid ⟨j, e, phase'⟩) i where
  live rid' hlive := by
    obtain ⟨query, each, slice, upsert, p, hr, hp⟩ := hlive
    rw [getElem?_setPhase h] at hr
    split at hr
    · next heq =>
        subst heq
        cases hr
        exact ⟨query, each, slice, upsert, phase, h, hphase _⟩
    · exact ⟨query, each, slice, upsert, p, hr, hp⟩
  landed query hlanded := by
    obtain ⟨rid', each, slice, upsert, u, hr, hu⟩ := hlanded
    refine ⟨rid', each, slice, upsert, u, ?_, hu⟩
    rw [getElem?_setPhase h, if_neg, hr]
    rintro rfl
    rw [h] at hr
    cases hr
    exact hphase _ rfl
  effect rid' e' p hr := by
    rw [getElem?_setPhase h]
    split
    · next heq =>
        subst heq
        rw [h] at hr
        cases hr
        exact ⟨phase', rfl⟩
    · exact ⟨p, hr⟩

/-- Which sessions have pushed after a request went to its next phase. -/
theorem landed_set {j : ℕ} {e : Effect} {phase phase' : Phase e} {query : Conversation}
    (h : requests[rid]? = some (Request.mk j e phase)) (hphase : ∀ r, phase ≠ .replied r) :
    Landed (requests.set rid ⟨j, e, phase'⟩) i query ↔ Landed requests i query ∨
      ∃ each slice upsert u, Request.mk j e phase' =
        Request.mk i (.updateOne query each slice upsert) (.replied (.ok u)) ∧ Pushed upsert u := by
  constructor
  · rintro ⟨rid', each, slice, upsert, u, hr, hu⟩
    rw [getElem?_setPhase h] at hr
    split at hr
    · exact .inr ⟨each, slice, upsert, u, Option.some.inj hr, hu⟩
    · exact .inl ⟨rid', each, slice, upsert, u, hr, hu⟩
  · rintro (hlanded | ⟨each, slice, upsert, u, hr, hu⟩)
    · exact (advances_set h hphase).landed query hlanded
    · exact ⟨rid, each, slice, upsert, u, by rw [getElem?_setPhase h, if_pos rfl, hr], hu⟩

theorem live_concat {r : Request}
    (h : Live (requests ++ [r]) i rid) :
    Live requests i rid ∨ rid = requests.length ∧ r.session = i := by
  obtain ⟨query, each, slice, upsert, phase, hr, hphase⟩ := h
  rw [List.getElem?_append] at hr
  split at hr
  · exact .inl ⟨query, each, slice, upsert, phase, hr, hphase⟩
  · have hzero : rid - requests.length = 0 := by
      have hlt := (List.getElem?_eq_some_iff.mp hr).1
      rw [List.length_singleton] at hlt
      omega
    rw [hzero] at hr
    exact .inr ⟨by omega, by rw [Option.some.inj hr]⟩

theorem getElem?_concat_of_some {r r' : Request}
    (h : requests[rid]? = some r) : (requests ++ [r'])[rid]? = some r := by
  rw [List.getElem?_append_left (List.getElem?_eq_some_iff.mp h).1, h]

theorem landed_concat {j : ℕ} {e : Effect} {query : Conversation} :
    Landed (requests ++ [⟨j, e, .pending⟩]) i query ↔ Landed requests i query := by
  constructor
  · rintro ⟨rid, each, slice, upsert, u, hr, hu⟩
    rw [List.getElem?_append] at hr
    split at hr
    · exact ⟨rid, each, slice, upsert, u, hr, hu⟩
    · rw [List.getElem?_singleton] at hr
      split at hr
      · cases hr
      · cases hr
  · rintro ⟨rid, each, slice, upsert, u, hr, hu⟩
    exact ⟨rid, each, slice, upsert, u, getElem?_concat_of_some hr, hu⟩

theorem advances_concat {j : ℕ} {e : Effect} (hj : i ≠ j) :
    Advances requests (requests ++ [⟨j, e, .pending⟩]) i where
  live _ hlive := (live_concat hlive).resolve_right fun h => hj h.2.symm
  landed _ := landed_concat.mpr
  effect _ _ phase hr := ⟨phase, getElem?_concat_of_some hr⟩

/-! ### What was pushed -/

/-- The sessions that pushed to a conversation, in the order of their commits: those
whose exchange a clear has removed since, and the others. -/
structure Timeline where
  cleared : List ℕ
  kept : List ℕ

def Timeline.record (query : Conversation) (t : Timeline) : Event → Timeline
  | .pushed q i => if q = query then { t with kept := t.kept ++ [i] } else t
  | .deleted q => if q = query then ⟨t.cleared ++ t.kept, []⟩ else t

def State.timeline (s : State) (query : Conversation) : Timeline :=
  s.events.foldl (Timeline.record query) ⟨[], []⟩

def Timeline.sessions (t : Timeline) : List ℕ := t.cleared ++ t.kept

def State.callOf (s : State) (i : ℕ) : Option Call := s.sessions[i]?.map (·.call)

/-- The two messages of an append. -/
def Call.exchange : Call → List ChatMessage
  | .appendExchange _ user assistant _ => pair user assistant
  | _ => []

def State.exchangeOf (s : State) (i : ℕ) : List ChatMessage :=
  (s.callOf i).elim [] Call.exchange

theorem State.timeline_concat {s s' : State} {event : Event} (h : s'.events = s.events ++ [event])
    (query : Conversation) : s'.timeline query = (s.timeline query).record query event := by
  rw [State.timeline, h, List.foldl_append]
  rfl

theorem sessions_record_pushed (t : Timeline) (query q : Conversation) (i : ℕ) :
    (t.record query (.pushed q i)).sessions =
      if q = query then t.sessions ++ [i] else t.sessions := by
  rw [Timeline.record]
  split
  · exact (List.append_assoc _ _ _).symm
  · rfl

theorem sessions_record_deleted (t : Timeline) (query q : Conversation) :
    (t.record query (.deleted q)).sessions = t.sessions := by
  rw [Timeline.record]
  split
  · exact List.append_nil _
  · rfl

/-- All appends keep the same number of messages. -/
def SameLimit (settings : HistorySettings) (limit : ℕ) : Call → Prop
  | .appendExchange _ _ _ max_messages =>
      ∀ l, historyLimit settings max_messages true = .ok l → l = limit
  | _ => True

/-- The update is the one the call of its session makes. -/
def Requested (settings : HistorySettings) (call : Option Call) (query : Conversation)
    (each : List ChatMessage) (slice : ℕ) : Prop :=
  ∃ user assistant max_messages, call = some (.appendExchange query user assistant max_messages) ∧
    each = pair user assistant ∧ historyLimit settings max_messages true = .ok slice

structure Whole (settings : HistorySettings) (limit : ℕ) (s : State) : Prop where
  limits : ∀ i call, s.callOf i = some call → SameLimit settings limit call
  standing : ∀ (i : ℕ) session, s.sessions[i]? = some session →
    Standing settings s.requests i session
  updates : ∀ (rid : ℕ) i query each slice upsert phase,
    s.requests[rid]? = some (Request.mk i (.updateOne query each slice upsert) phase) →
      Requested settings (s.callOf i) query each slice ∧ (phase = .inserting → upsert = true)
  landed : ∀ i query, i ∈ (s.timeline query).sessions ↔ Landed s.requests i query
  once : ∀ query, (s.timeline query).sessions.Nodup
  documents : ∀ query, s.documents query = if (s.timeline query).kept = [] then none
    else some (lastN limit ((s.timeline query).kept.flatMap s.exchangeOf))

variable {limit : ℕ} {s s' : State}

theorem whole_initial : Whole settings limit .initial where
  limits i call h := by simp [State.callOf, State.initial] at h
  standing i session h := by simp [State.initial] at h
  updates rid i query each slice upsert phase h := by simp [State.initial] at h
  landed i query := by
    constructor
    · intro h
      simp [State.timeline, State.initial, Timeline.sessions] at h
    · rintro ⟨rid, each, slice, upsert, u, h, -⟩
      simp [State.initial] at h
  once query := List.nodup_nil
  documents query := rfl

theorem Whole.requested_session (h : Whole settings limit s) {i rid : ℕ}
    (hlive : Live s.requests i rid) : i < s.sessions.length := by
  obtain ⟨query, each, slice, upsert, phase, hr, -⟩ := hlive
  obtain ⟨user, assistant, max_messages, hcall, -⟩ := (h.updates _ _ _ _ _ _ _ hr).1
  obtain ⟨session, hsession, -⟩ := Option.map_eq_some_iff.mp hcall
  exact (List.getElem?_eq_some_iff.mp hsession).1

/-! ### The step lemmas -/

theorem callOf_setSession {i : ℕ} {session session' : Session}
    (h : s.sessions[i]? = some session) (hcall : session'.call = session.call) (j : ℕ) :
    (s.setSession i session').callOf j = s.callOf j := by
  have hlt : i < s.sessions.length := (List.getElem?_eq_some_iff.mp h).1
  rw [State.callOf, State.callOf, State.setSession, List.getElem?_set, if_pos hlt]
  split
  · next heq =>
      subst heq
      rw [h, Option.map_some, Option.map_some, hcall]
  · rfl

theorem exchangeOf_congr (h : ∀ i, s'.callOf i = s.callOf i) : s'.exchangeOf = s.exchangeOf := by
  funext i
  rw [State.exchangeOf, State.exchangeOf, h]

/-- A step of one session that makes no request. -/
theorem Whole.setSession {i : ℕ} {session session' : Session} (h : Whole settings limit s)
    (hsession : s.sessions[i]? = some session) (hcall : session'.call = session.call)
    (hstanding : Standing settings s.requests i session') :
    Whole settings limit (s.setSession i session') where
  limits j call hj := h.limits j call (callOf_setSession hsession hcall j ▸ hj)
  standing j session'' hj := by
    rw [State.setSession, List.getElem?_set] at hj
    split at hj
    · next heq =>
        subst heq
        rw [if_pos (List.getElem?_eq_some_iff.mp hsession).1] at hj
        exact Option.some.inj hj ▸ hstanding
    · exact h.standing j session'' hj
  updates rid j query each slice upsert phase hr :=
    callOf_setSession hsession hcall j ▸ h.updates rid j query each slice upsert phase hr
  landed := h.landed
  once := h.once
  documents query := by
    rw [exchangeOf_congr (callOf_setSession hsession hcall)]
    exact h.documents query

/-- A session sends the request its program asks for. -/
theorem Whole.send {i : ℕ} {call : Call} {e : Effect} {next : Answer e → Remaining}
    (h : Whole settings limit s) (hsession : s.sessions[i]? = some ⟨call, .ask e next, none⟩) :
    Whole settings limit
      ((s.setSession i ⟨call, .ask e next, some s.requests.length⟩).addRequest
        ⟨i, e, .pending⟩) := by
  have hready := h.standing i _ hsession
  have hlt : i < s.sessions.length := (List.getElem?_eq_some_iff.mp hsession).1
  have hcalls (j : ℕ) : (s.setSession i ⟨call, .ask e next, some s.requests.length⟩).callOf j =
      s.callOf j := by
    apply callOf_setSession hsession
    rfl
  cases hready with
  | ready hobeys hnone =>
      exact {
        limits := fun j call hj => h.limits j call (hcalls j ▸ hj)
        landed := fun j query => (h.landed j query).trans landed_concat.symm
        once := h.once
        documents := fun query => exchangeOf_congr hcalls ▸ h.documents query
        standing := fun j session hj => by
          change (s.sessions.set i _)[j]? = _ at hj
          rw [List.getElem?_set, if_pos hlt] at hj
          split at hj
          · next heq =>
              subst heq
              obtain rfl := Option.some.inj hj
              have hlast : (s.requests ++ [⟨i, e, .pending⟩])[s.requests.length]? =
                  some (Request.mk i e .pending) := List.getElem?_concat_length
              refine .waiting hobeys hlast fun rid hrid => ?_
              exact ((live_concat hrid).resolve_left (hnone rid)).1
          · next hne => exact (h.standing j session hj).mono (advances_concat (Ne.symm hne))
        updates := fun rid j query each slice upsert phase hr => by
          change (s.requests ++ [_])[rid]? = _ at hr
          change Requested settings (State.callOf (s.setSession i _) j) query each slice ∧ _
          rw [hcalls j]
          rw [List.getElem?_append] at hr
          split at hr
          · exact h.updates rid j query each slice upsert phase hr
          · rw [List.getElem?_singleton] at hr
            split at hr
            · cases hr
              have hcall : s.callOf i = some call := by rw [State.callOf, hsession]; rfl
              rw [hcall]
              cases call with
              | appendExchange q user assistant max_messages =>
                  obtain ⟨rfl, rfl, hlimit, -⟩ := hobeys
                  exact ⟨⟨user, assistant, max_messages, rfl, rfl, hlimit⟩, fun h => by cases h⟩
              | getHistory => exact absurd rfl (hobeys.1 query each slice upsert)
              | clearHistory => exact absurd rfl (hobeys.1 query each slice upsert)
            · cases hr }

theorem Requested.exchange {call : Option Call} {query : Conversation} {each : List ChatMessage}
    {slice : ℕ} (h : Requested settings call query each slice) :
    each = call.elim [] Call.exchange := by
  obtain ⟨user, assistant, max_messages, rfl, rfl, -⟩ := h
  rfl

theorem Whole.slice {query : Conversation} {each : List ChatMessage} {slice i : ℕ}
    (h : Whole settings limit s) (hreq : Requested settings (s.callOf i) query each slice) :
    slice = limit := by
  obtain ⟨user, assistant, max_messages, hcall, -, hlimit⟩ := hreq
  exact h.limits i _ hcall slice hlimit

/-- The server works on a request: what is left to show is what it did to the collection. -/
theorem Whole.serve {i rid : ℕ} {e : Effect} {phase phase' : Phase e}
    (h : Whole settings limit s) (hr : s.requests[rid]? = some (Request.mk i e phase))
    (hphase : ∀ r, phase ≠ .replied r) (hsessions : s'.sessions = s.sessions)
    (hrequests : s'.requests = s.requests.set rid ⟨i, e, phase'⟩)
    (hinserting : ∀ query each slice upsert,
      Request.mk i e phase' = ⟨i, .updateOne query each slice upsert, .inserting⟩ → upsert = true)
    (hlanded : ∀ j query, j ∈ (s'.timeline query).sessions ↔ Landed s'.requests j query)
    (honce : ∀ query, (s'.timeline query).sessions.Nodup)
    (hdocuments : ∀ query, s'.documents query = if (s'.timeline query).kept = [] then none
      else some (lastN limit ((s'.timeline query).kept.flatMap s'.exchangeOf))) :
    Whole settings limit s' := by
  have hcalls (j : ℕ) : s'.callOf j = s.callOf j := by
    rw [State.callOf, State.callOf, hsessions]
  exact {
    limits := fun j call hj => h.limits j call (hcalls j ▸ hj)
    landed := hlanded
    once := honce
    documents := hdocuments
    standing := fun j session hj =>
      hrequests ▸ (h.standing j session (hsessions ▸ hj)).mono (advances_set hr hphase)
    updates := fun rid' j query each slice upsert phase'' hr' => by
      rw [hrequests, getElem?_setPhase hr] at hr'
      rw [hcalls]
      split at hr'
      · cases hr'
        exact ⟨(h.updates rid i query each slice upsert phase hr).1, fun heq =>
          hinserting query each slice upsert (heq ▸ rfl)⟩
      · exact h.updates rid' j query each slice upsert phase'' hr' }

/-- The server works on a request and leaves the collection as it is. -/
theorem Whole.setPhase {i rid : ℕ} {e : Effect} {phase phase' : Phase e}
    (h : Whole settings limit s) (hr : s.requests[rid]? = some (Request.mk i e phase))
    (hphase : ∀ r, phase ≠ .replied r)
    (hinserting : ∀ query each slice upsert,
      Request.mk i e phase' = ⟨i, .updateOne query each slice upsert, .inserting⟩ → upsert = true)
    (hpushed : ∀ query each slice upsert u,
      Request.mk i e phase' = ⟨i, .updateOne query each slice upsert, .replied (.ok u)⟩ →
        ¬ Pushed upsert u) :
    Whole settings limit (s.setPhase rid i e phase') := by
  refine h.serve hr hphase rfl rfl hinserting (fun j query => ?_) h.once h.documents
  refine (h.landed j query).trans ((landed_set hr hphase).trans (or_iff_left ?_)).symm
  rintro ⟨each, slice, upsert, u, heq, hu⟩
  obtain rfl : i = j := congrArg Request.session heq
  exact hpushed query each slice upsert u heq hu

/-- An update the server still works on is of a session that has not pushed. -/
theorem Whole.not_pushed {i rid : ℕ} {query q : Conversation} {each : List ChatMessage}
    {slice : ℕ} {upsert : Bool} {phase : Phase (.updateOne query each slice upsert)}
    (h : Whole settings limit s)
    (hr : s.requests[rid]? = some (Request.mk i (.updateOne query each slice upsert) phase))
    (hphase : ∀ r, phase ≠ .replied r) : i ∉ (s.timeline q).sessions := by
  intro hmem
  obtain ⟨rid', each', slice', upsert', u, hr', hu⟩ := (h.landed i q).mp hmem
  have hlive : Live s.requests i rid := ⟨query, each, slice, upsert, phase, hr, hphase _⟩
  have hlive' : Live s.requests i rid' :=
    ⟨q, each', slice', upsert', _, hr', fun h => by cases h⟩
  have hlt := h.requested_session hlive
  have heq := (h.standing i _ (List.getElem?_eq_getElem hlt)).unique hlive hlive'
  subst heq
  rw [hr] at hr'
  cases hr'
  exact hphase _ rfl

/-- A push of an exchange, by a request that has not pushed before. -/
theorem Whole.push {i rid : ℕ} {query : Conversation} {each : List ChatMessage} {slice : ℕ}
    {upsert : Bool} {phase : Phase (.updateOne query each slice upsert)} {u : UpdateResult}
    (h : Whole settings limit s)
    (hr : s.requests[rid]? = some (Request.mk i (.updateOne query each slice upsert) phase))
    (hphase : ∀ r, phase ≠ .replied r) (hu : Pushed upsert u) :
    Whole settings limit ((s.push query each slice i).setPhase rid i
      (.updateOne query each slice upsert) (.replied (.ok u))) := by
  have hreq := (h.updates rid i query each slice upsert phase hr).1
  have htimeline (q : Conversation) : ((s.push query each slice i).setPhase rid i
      (.updateOne query each slice upsert) (.replied (.ok u))).timeline q =
        (s.timeline q).record q (.pushed query i) := State.timeline_concat rfl q
  refine h.serve hr hphase rfl rfl (fun _ _ _ _ heq => by cases heq) (fun j q => ?_) (fun q => ?_)
    fun q => ?_
  · rw [htimeline, sessions_record_pushed]
    refine Iff.trans ?_ (landed_set hr hphase).symm
    rw [← h.landed]
    split
    · next heq =>
        subst heq
        rw [List.mem_append, List.mem_singleton]
        refine or_congr_right ⟨?_, fun ⟨_, _, _, _, heq, _⟩ => (congrArg Request.session heq).symm⟩
        rintro rfl
        exact ⟨each, slice, upsert, u, rfl, hu⟩
    · next hne =>
        refine (or_iff_left ?_).symm
        rintro ⟨_, _, _, _, heq, -⟩
        cases heq
        exact hne rfl
  · rw [htimeline, sessions_record_pushed]
    split
    · next heq =>
        subst heq
        rw [← List.concat_eq_append]
        exact (h.once query).concat (h.not_pushed hr hphase)
    · exact h.once q
  · rw [htimeline, Timeline.record]
    change Function.update s.documents query _ q = _
    by_cases heq : q = query
    · subst heq
      have hexchange : each = s.exchangeOf i := hreq.exchange
      have hstored : lastN slice ((s.documents q).getD [] ++ each) =
          lastN limit (((s.timeline q).kept ++ [i]).flatMap s.exchangeOf) := by
        rw [h.slice hreq, hexchange, List.flatMap_append, List.flatMap_singleton, h.documents q]
        split
        · next hnil => rw [hnil, Option.getD_none, List.flatMap_nil]
        · rw [Option.getD_some, lastN_append_lastN]
      rw [Function.update_self, if_pos rfl, if_neg (by simp), hstored]
      rfl
    · rw [Function.update_of_ne heq, if_neg (Ne.symm heq), h.documents q]
      rfl

theorem Whole.delete {i rid : ℕ} {query : Conversation} {phase : Phase (.deleteOne query)}
    {r : Except MongoError Unit} (h : Whole settings limit s)
    (hr : s.requests[rid]? = some (Request.mk i (.deleteOne query) phase))
    (hphase : ∀ r, phase ≠ .replied r) :
    Whole settings limit
      ((s.delete query).setPhase rid i (.deleteOne query) (.replied r)) := by
  have htimeline (q : Conversation) : ((s.delete query).setPhase rid i (.deleteOne query)
      (.replied r)).timeline q = (s.timeline q).record q (.deleted query) :=
    State.timeline_concat rfl q
  refine h.serve hr hphase rfl rfl (fun _ _ _ _ heq => by cases heq) (fun j q => ?_) (fun q => ?_)
    fun q => ?_
  · rw [htimeline, sessions_record_deleted, h.landed]
    refine ((landed_set hr hphase).trans (or_iff_left ?_)).symm
    rintro ⟨_, _, _, _, heq, -⟩
    cases heq
  · rw [htimeline, sessions_record_deleted]
    exact h.once q
  · rw [htimeline, Timeline.record]
    change Function.update s.documents query none q = _
    by_cases heq : q = query
    · subst heq
      rw [Function.update_self, if_pos rfl, if_pos rfl]
    · rw [Function.update_of_ne heq, if_neg (Ne.symm heq), h.documents q]
      rfl

/-- One server step of an update. -/
theorem Whole.serveUpdate {i rid : ℕ} {query : Conversation} {each : List ChatMessage}
    {slice : ℕ} {upsert : Bool} {phase : Phase (.updateOne query each slice upsert)}
    (h : Whole settings limit s)
    (hr : s.requests[rid]? = some (Request.mk i (.updateOne query each slice upsert) phase))
    (hs : s.serveUpdate rid i query each slice upsert phase = some s') :
    Whole settings limit s' := by
  cases phase with
  | pending =>
      have hphase : ∀ r, Phase.pending (e := .updateOne query each slice upsert) ≠ .replied r :=
        fun r h => by cases h
      rw [State.serveUpdate] at hs
      split at hs
      · obtain rfl := Option.some.inj hs
        exact h.push hr hphase (.inr rfl)
      · split at hs
        · next hupsert =>
            obtain rfl := Option.some.inj hs
            exact h.setPhase hr hphase (fun _ _ _ _ heq => by cases heq; exact hupsert)
              fun _ _ _ _ _ heq => by cases heq
        · next hupsert =>
            obtain rfl := Option.some.inj hs
            refine h.setPhase hr hphase (fun _ _ _ _ heq => by cases heq) ?_
            rintro _ _ _ _ _ heq (hu | hu)
            · cases heq
              exact hupsert hu
            · cases heq
              cases hu
  | inserting =>
      have hphase : ∀ r, Phase.inserting (e := .updateOne query each slice upsert) ≠ .replied r :=
        fun r h => by cases h
      rw [State.serveUpdate] at hs
      split at hs
      · obtain rfl := Option.some.inj hs
        exact h.setPhase hr hphase (fun _ _ _ _ heq => by cases heq)
          fun _ _ _ _ _ heq => by cases heq
      · obtain rfl := Option.some.inj hs
        exact h.push hr hphase (.inl ((h.updates _ _ _ _ _ _ _ hr).2 rfl))
  | replied r => cases hs

theorem Whole.serveRequest {i rid : ℕ} {e : Effect} {phase : Phase e} (h : Whole settings limit s)
    (hr : s.requests[rid]? = some (Request.mk i e phase))
    (hs : s.serve rid i e phase = some s') : Whole settings limit s' := by
  cases e with
  | enter => cases phase <;> cases hs
  | updateOne query each slice upsert => exact h.serveUpdate hr hs
  | findOne query slice =>
      cases phase with
      | pending =>
          obtain rfl := Option.some.inj hs
          exact h.setPhase hr (fun r h => by cases h) (fun _ _ _ _ heq => by cases heq)
            fun _ _ _ _ _ heq => by cases heq
      | inserting => cases hs
      | replied r => cases hs
  | deleteOne query =>
      cases phase with
      | pending =>
          obtain rfl := Option.some.inj hs
          exact h.delete hr fun r h => by cases h
      | inserting => cases hs
      | replied r => cases hs

/-! ### The steps of a session -/

theorem Obeys.enter {call : Call} {next : Entry → Remaining}
    (h : Obeys settings call (.ask .enter next)) (entry : Entry) :
    Obeys settings call (next entry) := by
  cases call with
  | appendExchange query user assistant max_messages => exact h entry
  | getHistory query max_messages => exact h.2 entry
  | clearHistory query => exact h.2 entry

theorem not_live_of_effect {e : Effect} {phase : Phase e}
    (hr : requests[rid]? = some (Request.mk i e phase))
    (he : ∀ query each slice upsert, e ≠ .updateOne query each slice upsert) :
    ¬ Live requests i rid := by
  rintro ⟨query, each, slice, upsert, phase', hr', -⟩
  rw [hr] at hr'
  exact he query each slice upsert (congrArg Request.effect (Option.some.inj hr'))

/-- The program of a session goes on with the server's reply or without one. -/
theorem Standing.answered {call : Call} {e : Effect} {next : Answer e → Remaining} {r : Answer e}
    (h : Standing settings requests i ⟨call, .ask e next, some rid⟩)
    (hr : requests[rid]? = some (Request.mk i e (.replied r)) ∨ r = timedOut e) :
    Standing settings requests i ⟨call, next r, none⟩ := by
  cases h with
  | waiting hobeys hrequest honly =>
      have hquiet (he : ∀ query each slice upsert, e ≠ .updateOne query each slice upsert)
          (rid' : ℕ) : ¬ Live requests i rid' := fun hlive =>
        not_live_of_effect hrequest he (honly rid' hlive ▸ hlive)
      cases call with
      | getHistory query max_messages => exact .ready (hobeys.2 r) (hquiet hobeys.1)
      | clearHistory query => exact .ready (hobeys.2 r) (hquiet hobeys.1)
      | appendExchange query user assistant max_messages =>
          cases e with
          | enter => exact .ready (hobeys r) (hquiet fun _ _ _ _ h => by cases h)
          | findOne => cases hobeys
          | deleteOne => cases hobeys
          | updateOne q each slice upsert =>
              obtain ⟨rfl, -, -, hduplicate, hother, hok⟩ := hobeys
              have hunique (rid₁ rid₂ : ℕ) (h₁ : Live requests i rid₁)
                  (h₂ : Live requests i rid₂) : rid₁ = rid₂ := by
                rw [honly rid₁ h₁, honly rid₂ h₂]
              rcases r with (- | -) | u
              · -- the rejected insert pushed nothing: the append may go on
                refine .ready hduplicate fun rid' hlive => ?_
                obtain rfl := honly rid' hlive
                obtain ⟨_, _, _, _, phase, hphase, hne⟩ := hlive
                rw [hr.resolve_right (fun h => by cases h)] at hphase
                cases hphase
                exact hne rfl
              · obtain ⟨error, herror⟩ := hother.eq_done
                rw [herror]
                exact .settled hunique fun _ _ _ _ _ _ hreturned => by cases hreturned
              · obtain ⟨result, hresult, hpushed⟩ := hok u
                rw [hresult]
                refine .settled hunique fun query _ _ _ returned hcall hreturned => ?_
                cases hcall
                exact ⟨rid, each, slice, upsert, u, hr.resolve_right (fun h => by cases h),
                  hpushed returned hreturned⟩

/-! ### Every run -/

theorem callOf_addSession (session : Session) (j : ℕ) :
    (s.addSession session).callOf j =
      if j = s.sessions.length then some session.call else s.callOf j := by
  rw [State.callOf, State.callOf, State.addSession, List.getElem?_append]
  split
  · next hlt => rw [if_neg (by omega)]
  · next hge =>
      rw [List.getElem?_singleton]
      split
      · rw [if_pos (by omega), Option.map_some]
      · rw [if_neg (by omega), List.getElem?_eq_none (by omega)]

theorem Whole.start {call : Call} (h : Whole settings limit s)
    (hlimit : SameLimit settings limit call) :
    Whole settings limit (s.addSession ⟨call, call.program settings, none⟩) where
  landed := h.landed
  once := h.once
  limits j call' hj := by
    rw [callOf_addSession] at hj
    split at hj
    · obtain rfl := Option.some.inj hj
      exact hlimit
    · exact h.limits j call' hj
  standing j session hj := by
    rw [State.addSession, List.getElem?_append] at hj
    split at hj
    · exact h.standing j session hj
    · next hnew =>
        rw [List.getElem?_singleton] at hj
        split at hj
        · obtain rfl := Option.some.inj hj
          exact .ready (obeys_program settings call) fun rid hlive =>
            hnew (h.requested_session hlive)
        · cases hj
  updates rid j query each slice upsert phase hr := by
    have hold := h.updates rid j query each slice upsert phase hr
    obtain ⟨user, assistant, max_messages, hcall, -⟩ := hold.1
    obtain ⟨session, hsession, -⟩ := Option.map_eq_some_iff.mp hcall
    have hlt : j < s.sessions.length := (List.getElem?_eq_some_iff.mp hsession).1
    rw [callOf_addSession, if_neg (by omega)]
    exact hold
  documents query := by
    have hexchange : (s.timeline query).kept.flatMap s.exchangeOf =
        (s.timeline query).kept.flatMap
          (s.addSession ⟨call, call.program settings, none⟩).exchangeOf := by
      refine List.flatMap_congr fun j hj => ?_
      obtain ⟨rid, hlive⟩ := ((h.landed j query).mp (List.mem_append_right _ hj)).live
      have hlt := h.requested_session hlive
      rw [State.exchangeOf, State.exchangeOf, callOf_addSession, if_neg (by omega)]
    exact hexchange ▸ h.documents query

/-- What every step of a session or of the server keeps. -/
theorem whole_step (step : Step) (hstart : ∀ call, step = .start call → SameLimit settings limit call)
    (h : Whole settings limit s) (hs : Chat.step settings s step = some s') :
    Whole settings limit s' := by
  cases step with
  | start call =>
      obtain rfl := Option.some.inj hs
      exact h.start (hstart call rfl)
  | enter i entry =>
      rw [Chat.step] at hs
      split at hs
      · next call next hsession =>
          obtain rfl := Option.some.inj hs
          refine h.setSession hsession rfl ?_
          cases h.standing i _ hsession with
          | ready hobeys hnone => exact .ready (hobeys.enter entry) hnone
      · cases hs
  | send i =>
      rw [Chat.step] at hs
      split at hs
      · next call e next hsession =>
          split at hs
          · cases hs
          · obtain rfl := Option.some.inj hs
            exact h.send hsession
      · cases hs
  | serve rid =>
      rw [Chat.step] at hs
      split at hs
      · next i e phase hr => exact h.serveRequest hr hs
      · cases hs
  | find rid =>
      rw [Chat.step] at hs
      split at hs
      · next i e hr =>
          obtain rfl := Option.some.inj hs
          exact h.setPhase hr (fun r h => by cases h) (fun _ _ _ _ heq => by cases heq)
            fun _ _ _ _ _ heq => by cases heq
      · cases hs
  | reply i =>
      rw [Chat.step] at hs
      split at hs
      · next call e next rid hsession =>
          split at hs
          · next j e' r hr =>
              split at hs
              · next heq =>
                  subst heq
                  obtain rfl := Option.some.inj hs
                  have hstanding := h.standing i _ hsession
                  have hj : j = i := by
                    cases hstanding with
                    | waiting _ hrequest _ =>
                        rw [hr] at hrequest
                        exact congrArg Request.session (Option.some.inj hrequest)
                  subst hj
                  exact h.setSession hsession rfl (hstanding.answered (.inl hr))
              · cases hs
          · cases hs
      · cases hs
  | giveUp i =>
      rw [Chat.step] at hs
      split at hs
      · next call e next rid hsession =>
          obtain rfl := Option.some.inj hs
          exact h.setSession hsession rfl ((h.standing i _ hsession).answered (.inr rfl))
      · cases hs

theorem historyLimit_pair {max_messages : Option ℤ} {l : ℕ}
    (h : historyLimit settings max_messages true = .ok l) : 2 ≤ l ∧ l % 2 = 0 := by
  rw [historyLimit] at h
  split at h
  · cases h
  · split at h
    · cases h
    · next hpair =>
        have hl := Except.ok.inj h
        simp only [true_and, not_or, not_lt, not_not] at hpair
        omega

/-- User, assistant, user, assistant, and so on to an assistant at the end. -/
def Alternates : List ChatMessage → Prop
  | [] => True
  | [_] => False
  | m :: m' :: rest => m.role = .user ∧ m'.role = .assistant ∧ Alternates rest

theorem alternates_flatMap {f : ℕ → List ChatMessage} {l : List ℕ}
    (hf : ∀ i ∈ l, ∃ user assistant, f i = pair user assistant) : Alternates (l.flatMap f) := by
  induction l with
  | nil => trivial
  | cons i l ih =>
      obtain ⟨user, assistant, hi⟩ := hf i List.mem_cons_self
      rw [List.flatMap_cons, hi]
      exact ⟨rfl, rfl, ih fun j hj => hf j (List.mem_cons_of_mem i hj)⟩

theorem Alternates.even {l : List ChatMessage} (h : Alternates l) : l.length % 2 = 0 := by
  induction l using Alternates.induct with
  | case1 => rfl
  | case2 m => cases h
  | case3 m m' rest ih =>
      have hrest := ih h.2.2
      rw [List.length_cons, List.length_cons]
      omega

/-- The append call of the session returned. -/
def State.Acknowledged (s : State) (i : ℕ) (query : Conversation) : Prop :=
  ∃ user assistant max_messages returned awaiting, s.sessions[i]? =
    some ⟨.appendExchange query user assistant max_messages, .done (.ok returned), awaiting⟩

theorem Whole.acknowledged {i : ℕ} {query : Conversation} (h : Whole settings limit s)
    (hack : s.Acknowledged i query) : i ∈ (s.timeline query).sessions := by
  obtain ⟨user, assistant, max_messages, returned, awaiting, hsession⟩ := hack
  exact (h.landed i query).mpr (h.standing i _ hsession).landed

theorem Whole.requested {i : ℕ} {query : Conversation} (h : Whole settings limit s)
    (hi : i ∈ (s.timeline query).sessions) :
    ∃ user assistant max_messages,
      s.callOf i = some (.appendExchange query user assistant max_messages) ∧
        historyLimit settings max_messages true = .ok limit := by
  obtain ⟨rid, each, slice, upsert, u, hr, -⟩ := (h.landed i query).mp hi
  have hreq := (h.updates _ _ _ _ _ _ _ hr).1
  have hslice := h.slice hreq
  obtain ⟨user, assistant, max_messages, hcall, -, hlimit⟩ := hreq
  exact ⟨user, assistant, max_messages, hcall, hslice ▸ hlimit⟩

theorem Whole.stored (h : Whole settings limit s) (query : Conversation) :
    (s.documents query).getD [] =
      lastN limit ((s.timeline query).kept.flatMap s.exchangeOf) := by
  rw [h.documents query]
  split
  · next hnil => rw [hnil, Option.getD_none, List.flatMap_nil, lastN, List.drop_nil]
  · rw [Option.getD_some]

theorem Whole.alternates (h : Whole settings limit s) (query : Conversation) :
    Alternates ((s.documents query).getD []) := by
  have hpair (i : ℕ) (hi : i ∈ (s.timeline query).kept) :
      ∃ user assistant, s.exchangeOf i = pair user assistant := by
    obtain ⟨user, assistant, max_messages, hcall, -⟩ := h.requested (List.mem_append_right _ hi)
    exact ⟨user, assistant, by rw [State.exchangeOf, hcall]; rfl⟩
  have hlength (i : ℕ) (hi : i ∈ (s.timeline query).kept) : (s.exchangeOf i).length = 2 := by
    obtain ⟨user, assistant, hexchange⟩ := hpair i hi
    rw [hexchange]
    rfl
  rw [h.stored query]
  cases hkept : (s.timeline query).kept with
  | nil => rw [List.flatMap_nil, lastN, List.drop_nil]; trivial
  | cons i rest =>
      have hi : i ∈ (s.timeline query).kept := by
        rw [hkept]
        exact List.mem_cons_self
      obtain ⟨user, assistant, max_messages, -, hlimit⟩ := h.requested (List.mem_append_right _ hi)
      obtain ⟨k, hk⟩ : ∃ k, limit = 2 * k := ⟨limit / 2, by have := historyLimit_pair hlimit; omega⟩
      rw [← hkept, hk, lastN_flatMap hlength]
      exact alternates_flatMap fun j hj => hpair j (mem_of_mem_lastN hj)

/-- Conversation history keeps whole exchanges, in every order of the sessions' and the
server's steps. -/
theorem history_keeps_whole_exchanges (settings : HistorySettings) (limit : ℕ)
    {steps : List Step} {s : State}
    (hlimit : ∀ call, Step.start call ∈ steps → SameLimit settings limit call)
    (hrun : run (step settings) .initial steps = some s) (query : Conversation) :
    (s.documents query).getD [] =
        lastN limit ((s.timeline query).kept.flatMap s.exchangeOf) ∧
      (s.timeline query).sessions.Nodup ∧
      (∀ i ∈ (s.timeline query).sessions, ∃ user assistant max_messages,
        s.callOf i = some (.appendExchange query user assistant max_messages)) ∧
      (∀ i, s.Acknowledged i query → i ∈ (s.timeline query).sessions) ∧
      Alternates ((s.documents query).getD []) ∧
      ((s.documents query).getD []).length % 2 = 0 := by
  have hwhole : Whole settings limit s :=
    run_invariant_along (fun s step s' h hstart hs => whole_step step hstart h hs)
      whole_initial (along_of_mem fun step hmem s call hcall => hlimit call (hcall ▸ hmem)) hrun
  refine ⟨hwhole.stored query, hwhole.once query, fun i hi => ?_,
    fun i => hwhole.acknowledged, hwhole.alternates query, (hwhole.alternates query).even⟩
  obtain ⟨user, assistant, max_messages, hcall, -⟩ := hwhole.requested hi
  exact ⟨user, assistant, max_messages, hcall⟩

/-- Two appends find no document; the second insert is rejected and updates the winner. -/
def racedAppends : List Step :=
  [.start (.appendExchange ⟨"t", "c"⟩ "hi" "hello" none),
    .start (.appendExchange ⟨"t", "c"⟩ "more?" "no" none),
    .enter 0 .entered, .enter 1 .entered, .send 0, .send 1, .serve 0, .serve 1, .serve 1, .serve 0,
    .reply 1, .reply 0, .send 0, .serve 2, .reply 0]

theorem history_keeps_whole_exchanges_racedAppends :
    ∃ s, run (step defaultSettings) .initial racedAppends = some s ∧
      s.documents ⟨"t", "c"⟩ = some (pair "more?" "no" ++ pair "hi" "hello") ∧
      (s.timeline ⟨"t", "c"⟩).sessions = [1, 0] ∧ Alternates ((s.documents ⟨"t", "c"⟩).getD []) := by
  have hrun : ((run (step defaultSettings) .initial racedAppends).map fun s =>
      (s.documents ⟨"t", "c"⟩, (s.timeline ⟨"t", "c"⟩).sessions)) =
        some (some (pair "more?" "no" ++ pair "hi" "hello"), [1, 0]) := by
    decide +kernel
  obtain ⟨s, hs, hstate⟩ := Option.map_eq_some_iff.mp hrun
  have hlimit (call : Call) (hcall : Step.start call ∈ racedAppends) :
      SameLimit defaultSettings 20 call := by
    simp only [racedAppends, List.mem_cons, Step.start.injEq, List.not_mem_nil, or_false,
      reduceCtorEq] at hcall
    rcases hcall with rfl | rfl
    · exact fun l hl => (Except.ok.inj hl).symm
    · exact fun l hl => (Except.ok.inj hl).symm
  have hwhole := history_keeps_whole_exchanges defaultSettings 20 hlimit hs ⟨"t", "c"⟩
  exact ⟨s, hs, congrArg Prod.fst hstate, congrArg Prod.snd hstate, hwhole.2.2.2.2.1⟩

end Ally.Chat
