import Ally.ChatTurn
import Ally.Generators

/-!
# The gateway to the model

`stream_chat_completion` as a generator over the stream of the router, with the consumers it has.
What the router and the circuit breaker answer is the environment's to say. The functions of the
module and the methods of `LLMGateway` are the same.
-/

namespace Ally.Gateway

open Generators Interaction
open Turn (PromptMessage Streamed)

/-- The exceptions that the gateway tells apart. -/
inductive Exn
  | gatewayError (detail : String)
  | circuitOpen
  /-- Any other `Exception`. -/
  | exception (type : String)
  | generatorExit
  | cancelled
  deriving DecidableEq

/-- What `except Exception` catches. -/
def Exn.isException : Exn → Bool
  | .gatewayError _ => true
  | .circuitOpen => true
  | .exception _ => true
  | .generatorExit => false
  | .cancelled => false

/-- `chunk.choices[0].delta.content`, which may not be there. -/
inductive Chunk
  | content (delta : Option String)
  | malformed (type : String)

/-- A stream of the router: what it has, and whether it has an `aclose`. -/
structure Upstream where
  chunks : List Chunk
  closable : Bool

structure Params where
  temperature : Option ℚ
  maxTokens : Option ℕ

inductive Effect
  | start (messages : List PromptMessage) (params : Params)
  | next
  | close

/-- What is awaited may also raise because the task is cancelled. -/
@[reducible] def Answer : Effect → Type
  | .start .. => Except Exn Upstream
  | .next => Except Exn Unit
  | .close => Except Exn Unit

abbrev Stream := Generator Effect Answer String Exn

def circuitDetail : String :=
  "The chat model is temporarily unavailable after repeated failures; " ++ "please try again shortly."

def requestDetail : String := "Chat model request failed; please try again later."

def interruptedDetail : String := "Chat model stream interrupted; please try again later."

/-- `except Exception as exc: raise LLMGatewayError(detail) from exc`. -/
def wrapped (detail : String) (e : Exn) : Exn := if e.isException then .gatewayError detail else e

def startFailure : Exn → Exn
  | .circuitOpen => .gatewayError circuitDetail
  | e => wrapped requestDetail e

/-- The loop over the stream, which ends with `StopAsyncIteration`. -/
def forward : List Chunk → Stream Unit
  | [] => attempt .next id
  | .malformed type :: _ => do
      attempt .next id
      throw (.exception type)
  | .content delta :: chunks => do
      attempt .next id
      if delta.getD "" = "" then forward chunks
      else do
        yield (delta.getD "")
        forward chunks

def closeStream (stream : Upstream) : Stream Unit :=
  if stream.closable then
    tryCatch (attempt .close id) fun e => if e.isException then pure () else throw e
  else pure ()

/-- `HAS_TORNADO_SUPPORT` is a constant of the installation. -/
def streamChatCompletion (tornado : Bool) (messages : List PromptMessage) (params : Params) :
    Stream Unit := do
  if !tornado then throw (.exception "ImportError")
  let stream ← tryCatch (attempt (.start messages params) id) fun e => throw (startFailure e)
  finallyDo (tryCatch (forward stream.chunks) fun e => throw (wrapped interruptedDetail e))
    (closeStream stream)

/-- The texts in a list of chunks. -/
def deltas (chunks : List Chunk) : List String :=
  chunks.filterMap fun
    | .content delta => if delta.getD "" = "" then none else delta
    | .malformed _ => none

/-! ### One stream -/

variable {messages : List PromptMessage} {params : Params} {chunks : List Chunk}
  {stream : Upstream} {u : Trace (Reply Answer String Exn)} {r : Except Exn Unit}

def IsNext : (Σ e, Answer e) → Prop
  | ⟨.next, _⟩ => True
  | _ => False

/-- What the loop may do with the chunks of a stream. -/
structure Forwarded (chunks : List Chunk) (u : Trace (Reply Answer String Exn))
    (r : Except Exn Unit) : Prop where
  reads : ∀ x ∈ acts u, IsNext x
  inOrder : yields u <+: deltas chunks
  whole : r = .ok () → yields u = deltas chunks ∧ (acts u).length = chunks.length + 1

theorem of_runs_attempt {γ : Type} {e : Effect} {answer : Answer e → Except Exn γ}
    {r : Except Exn γ} (h : Runs (attempt e answer : Stream γ).run u r) :
    ∃ x, u = [⟨.act e, x⟩] ∧ r = answer x :=
  of_runs_call h

/-- A read, and what follows unless it raises. -/
theorem runs_read {f : Unit → Stream Unit} (h : Runs (attempt .next id >>= f).run u r) :
    ∃ x u', u = ⟨.act .next, x⟩ :: u' ∧ (Runs (f ()).run u' r ∨ ∃ e, u' = [] ∧ r = .error e) := by
  rcases runs_bind h with ⟨u₁, u', ⟨⟩, rfl, hread, hrest⟩ | ⟨e, hread, rfl⟩
  · obtain ⟨x, rfl, -⟩ := of_runs_attempt hread
    exact ⟨x, u', rfl, .inl hrest⟩
  · obtain ⟨x, rfl, -⟩ := of_runs_attempt hread
    exact ⟨x, [], rfl, .inr ⟨e, rfl, rfl⟩⟩

theorem runs_yield {delta : String} {f : Unit → Stream Unit}
    (h : Runs (yield delta >>= f).run u r) :
    ∃ x u', u = ⟨.yield delta, x⟩ :: u' ∧ (Runs (f ()).run u' r ∨ ∃ e, u' = [] ∧ r = .error e) := by
  rcases runs_bind h with ⟨u₁, u', ⟨⟩, rfl, hyield, hrest⟩ | ⟨e, hyield, rfl⟩
  · obtain ⟨x, rfl, -⟩ := of_runs_call hyield
    exact ⟨x, u', rfl, .inl hrest⟩
  · obtain ⟨x, rfl, -⟩ := of_runs_call hyield
    exact ⟨x, [], rfl, .inr ⟨e, rfl, rfl⟩⟩

theorem deltas_content (delta : Option String) (chunks : List Chunk) :
    deltas (.content delta :: chunks) =
      if delta.getD "" = "" then deltas chunks else delta.getD "" :: deltas chunks := by
  rw [deltas, List.filterMap_cons]
  split_ifs with h
  · simp only [if_pos h]
    rfl
  · cases delta with
    | none => exact absurd rfl h
    | some d =>
        simp only [if_neg h]
        rfl

theorem Forwarded.read {x : Except Exn Unit} (hreads : ∀ y ∈ acts u, IsNext y)
    (hyields : yields u <+: deltas chunks)
    (hwhole : r = .ok () → yields u = deltas chunks ∧ (acts u).length = chunks.length) :
    Forwarded chunks (⟨.act .next, x⟩ :: u) r := by
  constructor
  · intro y hy
    rw [acts_act] at hy
    rcases List.mem_cons.mp hy with rfl | hy
    · exact trivial
    · exact hreads y hy
  · exact hyields
  · intro hr
    obtain ⟨hall, hlength⟩ := hwhole hr
    rw [yields_act, acts_act, List.length_cons, hlength]
    exact ⟨hall, rfl⟩

/-- The loop ends at a read that raises, or that gives a chunk without a delta. -/
theorem Forwarded.stopped {x : Except Exn Unit} {e : Exn} :
    Forwarded chunks [⟨.act .next, x⟩] (.error e) :=
  Forwarded.read (fun _ hy => absurd hy List.not_mem_nil) List.nil_prefix nofun

theorem forwarded (h : Runs (forward chunks).run u r) : Forwarded chunks u r := by
  induction chunks generalizing u with
  | nil =>
      obtain ⟨_, rfl, -⟩ := of_runs_attempt h
      refine ⟨fun y hy => ?_, List.prefix_rfl, fun _ => ⟨rfl, rfl⟩⟩
      obtain rfl := List.mem_singleton.mp hy
      exact trivial
  | cons chunk chunks ih =>
      cases chunk with
      | malformed type =>
          obtain ⟨x, u', rfl, hrest | ⟨e, rfl, rfl⟩⟩ := runs_read h
          · cases hrest
            exact .stopped
          · exact .stopped
      | content delta =>
          obtain ⟨x, u', rfl, hrest | ⟨e, rfl, rfl⟩⟩ := runs_read h
          · split at hrest
            · rename_i hempty
              have hdeltas := deltas_content delta chunks
              rw [if_pos hempty] at hdeltas
              obtain ⟨hreads, hyields, hwhole⟩ := ih hrest
              exact .read hreads (hdeltas ▸ hyields) (hdeltas ▸ hwhole)
            · rename_i hdelta
              have hdeltas := deltas_content delta chunks
              rw [if_neg hdelta] at hdeltas
              obtain ⟨z, u', rfl, hrest | ⟨e, rfl, rfl⟩⟩ := runs_yield hrest
              · obtain ⟨hreads, hyields, hwhole⟩ := ih hrest
                refine .read hreads ?_ fun hr => ?_
                · rw [yields_yield, hdeltas]
                  exact (List.prefix_cons_inj _).mpr hyields
                · obtain ⟨hall, hlength⟩ := hwhole hr
                  rw [yields_yield, acts_yield, hdeltas, hall]
                  exact ⟨rfl, hlength⟩
              · refine .read (fun _ hy => absurd hy List.not_mem_nil) ?_ nofun
                rw [yields_yield, hdeltas]
                exact (List.prefix_cons_inj _).mpr List.nil_prefix
          · exact .stopped

/-- What a consumer may be told: an `LLMGatewayError`, or that it is over. -/
def Told (e : Exn) : Prop := (∃ detail, e = .gatewayError detail) ∨ e.isException = false

theorem told_wrapped (detail : String) (e : Exn) : Told (wrapped detail e) := by
  unfold wrapped
  split
  · exact .inl ⟨detail, rfl⟩
  · rename_i h
    exact .inr (Bool.not_eq_true _ ▸ h)

theorem told_startFailure (e : Exn) : Told (startFailure e) := by
  cases e with
  | circuitOpen => exact .inl ⟨circuitDetail, rfl⟩
  | gatewayError detail => exact told_wrapped requestDetail _
  | exception type => exact told_wrapped requestDetail _
  | generatorExit => exact told_wrapped requestDetail _
  | cancelled => exact told_wrapped requestDetail _

/-- An opened stream is closed once, when it can be closed at all. -/
def Closes (stream : Upstream) (closes : Trace Answer) : Prop :=
  (stream.closable = true ∧ ∃ c : Except Exn Unit, closes = [⟨.close, c⟩]) ∨
    stream.closable = false ∧ closes = []

/-- What the gateway does for one call: with the router's stream, to the consumer, and in the end. -/
inductive Served (tornado : Bool) (messages : List PromptMessage) (params : Params) :
    Trace Answer → List String → Except Exn Unit → Prop
  | unavailable (h : tornado = false) :
      Served tornado messages params [] [] (.error (.exception "ImportError"))
  | refused {e e' : Exn} (h : Told e') :
      Served tornado messages params [⟨.start messages params, .error e⟩] [] (.error e')
  | opened {stream : Upstream} {reads closes : Trace Answer} {ys : List String} {r : Except Exn Unit}
      (hreads : ∀ x ∈ reads, IsNext x) (hys : ys <+: deltas stream.chunks)
      (hwhole : r = .ok () → ys = deltas stream.chunks ∧ reads.length = stream.chunks.length + 1)
      (htold : ∀ e, r = .error e → Told e) (hcloses : Closes stream closes) :
      Served tornado messages params (⟨.start messages params, .ok stream⟩ :: (reads ++ closes))
        ys r

theorem acts_append (u v : Trace (Reply Answer String Exn)) : acts (u ++ v) = acts u ++ acts v :=
  List.filterMap_append

theorem yields_append (u v : Trace (Reply Answer String Exn)) :
    yields (u ++ v) = yields u ++ yields v :=
  List.filterMap_append

theorem closes_closeStream {c : Except Exn Unit} (h : Runs (closeStream stream).run u c) :
    Closes stream (acts u) ∧ yields u = [] ∧ ∀ e, c = .error e → e.isException = false := by
  unfold closeStream at h
  split at h
  · rename_i hclosable
    rcases runs_tryCatch h with ⟨⟨⟩, hclose, rfl⟩ | ⟨u₁, u₂, e, rfl, hclose, hhandle⟩
    · obtain ⟨x, rfl, -⟩ := of_runs_attempt hclose
      exact ⟨.inl ⟨hclosable, x, rfl⟩, rfl, nofun⟩
    · obtain ⟨x, rfl, -⟩ := of_runs_attempt hclose
      split at hhandle
      · cases hhandle
        exact ⟨.inl ⟨hclosable, x, rfl⟩, rfl, nofun⟩
      · rename_i he
        cases hhandle
        refine ⟨.inl ⟨hclosable, x, rfl⟩, rfl, fun e' he' => ?_⟩
        cases he'
        exact Bool.not_eq_true _ ▸ he
  · rename_i hclosable
    cases h
    exact ⟨.inr ⟨Bool.not_eq_true _ ▸ hclosable, rfl⟩, rfl, nofun⟩

theorem started (h : Runs (tryCatch (attempt (.start messages params) id)
    fun e => throw (startFailure e) : Stream Upstream).run u (.ok stream)) :
    u = [⟨.act (.start messages params), .ok stream⟩] := by
  rcases runs_tryCatch h with ⟨s, hstart, hs⟩ | ⟨u₁, u₂, e, rfl, hstart, hthrow⟩
  · obtain ⟨x, rfl, hx⟩ := of_runs_attempt hstart
    rw [← hs] at hx
    rw [hx]
    rfl
  · cases hthrow

theorem refused {e' : Exn} (h : Runs (tryCatch (attempt (.start messages params) id)
    fun e => throw (startFailure e) : Stream Upstream).run u (.error e')) :
    ∃ e : Exn, u = [⟨.act (.start messages params), .error e⟩] ∧ e' = startFailure e := by
  rcases runs_tryCatch h with ⟨s, hstart, hs⟩ | ⟨u₁, u₂, e, rfl, hstart, hthrow⟩
  · cases hs
  · obtain ⟨x, rfl, hx⟩ := of_runs_attempt hstart
    cases hthrow
    exact ⟨e, by rw [hx]; rfl, rfl⟩

/-- The loop with its handler. -/
theorem forwarded_wrapped (h : Runs (tryCatch (forward chunks)
    fun e => throw (wrapped interruptedDetail e) : Stream Unit).run u r) :
    Forwarded chunks u r ∧ ∀ e, r = .error e → Told e := by
  rcases runs_tryCatch h with ⟨⟨⟩, hloop, rfl⟩ | ⟨u₁, u₂, e, rfl, hloop, hthrow⟩
  · exact ⟨forwarded hloop, nofun⟩
  · cases hthrow
    rw [List.append_nil]
    obtain ⟨hreads, hys, -⟩ := forwarded hloop
    refine ⟨⟨hreads, hys, nofun⟩, fun e' he' => ?_⟩
    cases he'
    exact told_wrapped _ _

theorem served {tornado : Bool}
    (h : Runs (streamChatCompletion tornado messages params).run u r) :
    Served tornado messages params (acts u) (yields u) r := by
  unfold streamChatCompletion at h
  cases tornado with
  | false =>
      cases h
      exact .unavailable rfl
  | true =>
      rcases runs_bind h with ⟨u₁, u₂, stream, rfl, hstart, hserve⟩ | ⟨e', hstart, rfl⟩
      · obtain rfl := started hstart
        obtain ⟨v, w, x, c, rfl, hbody, hclose, hr⟩ := runs_finallyDo hserve
        obtain ⟨⟨hreads, hys, hwhole⟩, htold⟩ := forwarded_wrapped hbody
        obtain ⟨hcloses, hnone, hquiet⟩ := closes_closeStream hclose
        rw [List.singleton_append, acts_act, yields_act, acts_append, yields_append, hnone,
          List.append_nil]
        rcases hr with ⟨rfl, rfl⟩ | ⟨e, rfl, rfl⟩
        · exact .opened hreads hys hwhole htold hcloses
        · refine .opened hreads hys nofun (fun e' he' => ?_) hcloses
          cases he'
          exact .inr (hquiet e rfl)
      · obtain ⟨e, rfl, rfl⟩ := refused hstart
        exact .refused (told_startFailure e)

/-! ### Nothing is yielded to a consumer that is gone -/

theorem only_attempt {γ : Type} {e : Effect} {answer : Answer e → Except Exn γ} :
    Only IsAct (attempt e answer : Stream γ).run :=
  .ask trivial fun _ => .done _

theorem obeys_forward (chunks : List Chunk) : Obeys .generatorExit (forward chunks).run := by
  induction chunks with
  | nil => exact obeys_of_only only_attempt
  | cons chunk chunks ih =>
      cases chunk with
      | malformed type =>
          exact obeys_of_only (only_run_bind only_attempt fun _ => only_run_throw _)
      | content delta =>
          refine obeys_after only_attempt fun a => ?_
          rcases a with e | ⟨⟩
          · exact .done _
          · change Obeys _ (ExceptT.run (if _ then _ else _))
            split
            · exact ih
            · exact .yield ih (.done _)

theorem only_closeStream (stream : Upstream) : Only IsAct (closeStream stream).run := by
  unfold closeStream
  refine only_run_ite (only_run_tryCatch only_attempt fun e => ?_) (only_run_pure _)
  exact only_run_ite (only_run_pure _) (only_run_throw _)

theorem obeys_streamChatCompletion (tornado : Bool) (messages : List PromptMessage)
    (params : Params) :
    Obeys .generatorExit (streamChatCompletion tornado messages params).run := by
  unfold streamChatCompletion
  cases tornado with
  | false => exact .done _
  | true =>
      have hstart : Only IsAct (tryCatch (attempt (.start messages params) id)
          fun e => throw (startFailure e) : Stream Upstream).run :=
        only_run_tryCatch only_attempt fun e => only_run_throw _
      refine obeys_after hstart fun a => ?_
      cases a with
      | error e => exact .done _
      | ok stream =>
          have hbody : Obeys .generatorExit (tryCatch (forward stream.chunks)
              fun e => throw (wrapped interruptedDetail e) : Stream Unit).run := by
            refine (obeys_forward stream.chunks).bind fun a => ?_
            rcases a with e | ⟨⟩ <;> exact .done _
          refine hbody.bind fun a => only_bind (only_closeStream stream) fun c => .done _

/-! ### Consumers -/

section Consumers

variable {F σ : Type} {S : F → Type} {tornado : Bool} {s : σ} {t : Trace (Both Answer S)}
  {body : σ → String → Program F S (Except Exn σ)} {r : Except Exn σ}

/-- `RuntimeError: async generator ignored GeneratorExit`. -/
def ignoredExit : Exn := .exception "RuntimeError"

theorem served_driven (h : Runs (drive .generatorExit ignoredExit body
    (streamChatCompletion tornado messages params).run s) t r) :
    ∃ ys r' c, Served tornado messages params (ofGenerator t) ys r' ∧
      Consumed body s ys (ofConsumer t) c ∧ r = outcome .generatorExit c r' := by
  obtain ⟨u, r', c, hruns, hgen, hconsumed, hr⟩ :=
    runs_drive (obeys_streamChatCompletion tornado messages params) h
  exact ⟨yields u, r', c, hgen ▸ served hruns, hconsumed, hr⟩

/-- Whatever a consumer does with the deltas, and wherever it raises or is cancelled: it has the
deltas in order, is told of an `LLMGatewayError` or that it is over, and a stream that was opened is
closed once, after all that is read of it. -/
theorem stream_consumed (h : Runs (drive .generatorExit ignoredExit body
    (streamChatCompletion tornado messages params).run s) t r) :
    ∃ ys r' c, Served tornado messages params (ofGenerator t) ys r' ∧
      Consumed body s ys (ofConsumer t) c ∧ r = outcome .generatorExit c r' :=
  served_driven h

/-- A consumer that is gone at the first delta. -/
def disconnected : Unit → String → Program Empty Empty.elim (Except Exn Unit) :=
  fun _ _ => .done (.error (.exception "WebSocketDisconnect"))

def abandoned : Trace (Both Answer Empty.elim) :=
  [⟨.inl (.start [] ⟨none, none⟩), .ok ⟨[.content "a", .content "b"], true⟩⟩,
    ⟨.inl .next, .ok ()⟩, ⟨.inl .close, .ok ()⟩]

theorem runs_abandoned : Runs (drive .generatorExit ignoredExit disconnected
    (streamChatCompletion true [] ⟨none, none⟩).run ()) abandoned
    (.error (.exception "WebSocketDisconnect")) := by
  refine Runs.ask (e := Sum.inl (Effect.start [] ⟨none, none⟩)) _ ?_
  refine Runs.ask (e := Sum.inl Effect.next) _ ?_
  refine Runs.ask (e := Sum.inl Effect.close) _ ?_
  exact Runs.done _

theorem stream_consumed_abandoned : ∃ ys r' c,
    Served true [] ⟨none, none⟩ (ofGenerator abandoned) ys r' ∧
      Consumed disconnected () ys (ofConsumer abandoned) c ∧
      Except.error (.exception "WebSocketDisconnect") = outcome .generatorExit c r' :=
  stream_consumed runs_abandoned

/-! ### The answer of a turn -/

/-- The body of `_stream_answer`, which keeps what it sends. -/
def sendDelta (parts : List String) (delta : String) :
    Program Turn.Effect Turn.Answer (Except Exn (List String)) :=
  Turn.send (.token delta) >>= fun _ => pure (.ok (parts ++ [delta]))

/-- The defaults of `stream_chat_completion`. -/
def chatParams : Params := ⟨some (7 / 10), some 1024⟩

/-- `_stream_answer`, which sends what it has read before it reads on. -/
def streamAnswer (tornado : Bool) (messages : List PromptMessage) :
    Program (Effect ⊕ Turn.Effect) (Both Answer Turn.Answer) (Except Exn (Option String)) := do
  let r ← drive .generatorExit ignoredExit sendDelta
    (streamChatCompletion tornado messages chatParams).run []
  match r with
  | .ok parts => pure (.ok (some (String.join parts)))
  | .error (.gatewayError detail) => do
      downstream (Turn.send (.error none detail))
      pure (.ok none)
  | .error e => pure (.error e)

theorem consumed_sendDelta {parts ys : List String} {d : Trace Turn.Answer}
    {c : Except Exn (List String)} (h : Consumed sendDelta parts ys d c) :
    c = .ok (parts ++ ys) ∧ Runs (Turn.sendTokens ys) d () := by
  induction h with
  | nil parts => exact ⟨by rw [List.append_nil], .done ()⟩
  | cons hbody hrest ih =>
      obtain ⟨rfl, hruns⟩ := ih
      cases hbody with
      | ask x hdone =>
          cases hdone
          exact ⟨by simp, .ask (e := Turn.Effect.sendJson _) x hruns⟩
  | raise hbody =>
      cases hbody with
      | ask x hdone => cases hdone

theorem ofGenerator_append {F : Type} {S : F → Type} (t u : Trace (Both Answer S)) :
    ofGenerator (t ++ u) = ofGenerator t ++ ofGenerator u :=
  List.filterMap_append

theorem ofConsumer_append {F : Type} {S : F → Type} (t u : Trace (Both Answer S)) :
    ofConsumer (t ++ u) = ofConsumer t ++ ofConsumer u :=
  List.filterMap_append

theorem runs_failed {ys : List String} {d : Trace Turn.Answer} (h : Runs (Turn.sendTokens ys) d ())
    (detail : String) : Runs (Turn.streamAnswer messages)
      (⟨.streamCompletion messages, ⟨ys, some detail⟩⟩ ::
        (d ++ [⟨.sendJson (.error none detail), ()⟩])) none := by
  refine Runs.ask (e := Turn.Effect.streamCompletion messages) _ (h.bind ?_)
  refine Runs.ask (R := Turn.Answer) (e := .sendJson (.error none detail)) () ?_
  exact .done none

theorem runs_finished {ys : List String} {d : Trace Turn.Answer}
    (h : Runs (Turn.sendTokens ys) d ()) : Runs (Turn.streamAnswer messages)
      (⟨.streamCompletion messages, ⟨ys, none⟩⟩ :: (d ++ [])) (some (String.join ys)) := by
  refine Runs.ask (e := Turn.Effect.streamCompletion messages) _ (h.bind ?_)
  exact .done _

/-- One token, sent before the stream is found to be at its end. -/
def answered : Trace (Both Answer Turn.Answer) :=
  [⟨.inl (.start [] chatParams), .ok ⟨[.content "21 days"], true⟩⟩, ⟨.inl .next, .ok ()⟩,
    ⟨.inr (.sendJson (.token "21 days")), ()⟩, ⟨.inl .next, .ok ()⟩, ⟨.inl .close, .ok ()⟩]

theorem runs_answered : Runs (streamAnswer true []) answered (.ok (some (String.join ["21 days"]))) := by
  refine Runs.ask (e := Sum.inl (Effect.start [] chatParams)) _ ?_
  refine Runs.ask (e := Sum.inl Effect.next) _ ?_
  refine Runs.ask (e := Sum.inr (Turn.Effect.sendJson (.token "21 days"))) _ ?_
  refine Runs.ask (e := Sum.inl Effect.next) _ ?_
  refine Runs.ask (e := Sum.inl Effect.close) _ ?_
  exact Runs.done _

/-- The body of `complete_chat` and of `condense_query`. -/
def collect (parts : List String) (delta : String) :
    Program Empty Empty.elim (Except Exn (List String)) :=
  pure (.ok (parts ++ [delta]))

def completeChat (tornado : Bool) (messages : List PromptMessage) (params : Params) :
    Program (Effect ⊕ Empty) (Both Answer Empty.elim) (Except Exn String) := do
  let r ← drive .generatorExit ignoredExit collect
    (streamChatCompletion tornado messages params).run []
  pure (r.map String.join)

theorem consumed_collect {parts ys : List String} {d : Trace Empty.elim}
    {c : Except Exn (List String)} (h : Consumed collect parts ys d c) : c = .ok (parts ++ ys) := by
  induction h with
  | nil parts => rw [List.append_nil]
  | cons hbody hrest ih =>
      cases hbody
      rw [ih, List.append_assoc]
      rfl
  | raise hbody => cases hbody

/-- It returns the text of the whole stream, or raises what the stream raises. -/
theorem runs_completeChat {t : Trace (Both Answer Empty.elim)} {r : Except Exn String}
    (h : Runs (completeChat tornado messages params) t r) : ∃ ys r',
      Served tornado messages params (ofGenerator t) ys r' ∧ r = r'.map fun _ => String.join ys := by
  obtain ⟨t₁, t₂, x, rfl, hdrive, hrest⟩ := runs_of_bind h
  obtain ⟨ys, r', c, hserved, hconsumed, rfl⟩ := served_driven hdrive
  obtain rfl := consumed_collect hconsumed
  cases hrest
  rw [List.append_nil]
  refine ⟨ys, r', hserved, ?_⟩
  rcases r' with e | ⟨⟩ <;> rfl

end Consumers

end Ally.Gateway
