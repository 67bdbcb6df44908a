import Ally.ChatTurn

/-!
# The protocol of a turn

What the frames of one turn look like, when the exchange is appended, and what the
citations refer to, for every outcome of the turn's dependencies.
-/

namespace Ally.Turn

open Agent (Python ToolResult)
open Chat (ChatMessage)
open Interaction

abbrev TurnTrace := Trace Answer

def sentFrame : (Σ e, Answer e) → Option Frame
  | ⟨.sendJson frame, _⟩ => some frame
  | _ => none

/-- The frames of a turn, in order. -/
def frames (t : TurnTrace) : List Frame := t.filterMap sentFrame

structure Append where
  tenantId : String
  conversationId : String
  user : String
  assistant : String

def appendedExchange : (Σ e, Answer e) → Option Append
  | ⟨.appendExchange tenantId conversationId user assistant, _⟩ =>
      some ⟨tenantId, conversationId, user, assistant⟩
  | _ => none

/-- The calls of `append_exchange`, in order. -/
def appends (t : TurnTrace) : List Append := t.filterMap appendedExchange

@[simp] theorem frames_append (t t' : TurnTrace) : frames (t ++ t') = frames t ++ frames t' :=
  List.filterMap_append

@[simp] theorem appends_append (t t' : TurnTrace) :
    appends (t ++ t') = appends t ++ appends t' :=
  List.filterMap_append

def Frame.Terminal : Frame → Prop
  | .error .. | .toolResult _ | .done _ => True
  | .sources _ | .token _ => False

/-- `error`, or `tool_result`, or `sources token* (done or error)`. -/
inductive Grammar : List Frame → Prop
  | error (code : Option String) (detail : String) : Grammar [.error code detail]
  | toolResult (result : ToolFrame) : Grammar [.toolResult result]
  | answer (summaries : List SourceSummary) (tokens : List String) {last : Frame}
      (hlast : (∃ citations, last = .done citations) ∨ ∃ code detail, last = .error code detail) :
      Grammar (.sources summaries :: tokens.map .token ++ [last])

/-- Exactly one terminal frame, and it is the last one. -/
theorem Grammar.terminal {fs : List Frame} (h : Grammar fs) :
    ∃ body last, fs = body ++ [last] ∧ last.Terminal ∧ ∀ f ∈ body, ¬ f.Terminal := by
  cases h with
  | error code detail => exact ⟨[], .error code detail, rfl, trivial, nofun⟩
  | toolResult result => exact ⟨[], .toolResult result, rfl, trivial, nofun⟩
  | @answer summaries tokens last hlast =>
      refine ⟨.sources summaries :: tokens.map .token, last, rfl, ?_, fun f hf => ?_⟩
      · rcases hlast with ⟨citations, rfl⟩ | ⟨code, detail, rfl⟩
        · trivial
        · trivial
      · rcases List.mem_cons.mp hf with rfl | htoken
        · exact id
        · obtain ⟨token, -, rfl⟩ := List.mem_map.mp htoken
          exact id

/-! ### The shapes of a turn -/

def sendEvent (frame : Frame) : Σ e, Answer e := ⟨.sendJson frame, ()⟩

def tokenEvents (tokens : List String) : TurnTrace := tokens.map fun delta => sendEvent (.token delta)

/-- Neither sends nor appends. -/
def Quiet (t : TurnTrace) : Prop := frames t = [] ∧ appends t = []

/-- The last frame of a text turn. -/
def closing (citations : List SourceSummary) : Except String Unit → Frame
  | .ok () => .done citations
  | .error _ => .error (some "history_write_unconfirmed")
    ("The response was produced, but saving this exchange could not be confirmed. " ++
      "It may already be stored; inspect conversation history before retrying.")

variable {python : Python} {principal : Principal} {conversationId userQuery : String}

variable (principal conversationId userQuery) in
def appendEvent (assistant : String) (stored : Except String Unit) : Σ e, Answer e :=
  ⟨.appendExchange principal.tenantId conversationId userQuery assistant, stored⟩

variable (python principal userQuery) in
/-- The answer that the tokens make up is complete, and it was given the sources. -/
def Complete (pre mid : TurnTrace) (summaries : List SourceSummary) (tokens : List String) :
    Prop :=
  (∃ history sources, summaries = sourceSummaries sources ∧
    ⟨.streamCompletion (buildMessages python history sources userQuery), ⟨tokens, none⟩⟩ ∈ mid) ∨
  (summaries = [] ∧ tokens = [noContextMessage] ∧
    ∃ query, ⟨.retrieve query principal.tenantId, .ok []⟩ ∈ pre)

variable (python principal conversationId userQuery) in
inductive Shape : TurnTrace → Prop
  | failed {pre : TurnTrace} (code : Option String) (detail : String) (hpre : Quiet pre) :
      Shape (pre ++ [sendEvent (.error code detail)])
  | tool {pre : TurnTrace} {state : RouteState} {result : ToolResult} (frame : ToolFrame)
      (stored : Except String Unit) (hpre : Quiet pre)
      (hstate : ⟨.routeMessage principal.tenantId userQuery principal, .ok state⟩ ∈ pre)
      (hresult : state.tool_result = some result) :
      Shape (pre ++ [appendEvent principal conversationId userQuery result.summary stored,
        sendEvent (.toolResult frame)])
  | broken {pre mid : TurnTrace} (summaries : List SourceSummary) (tokens : List String)
      (code : Option String) (detail : String) (hpre : Quiet pre) (hmid : Quiet mid) :
      Shape (pre ++ [sendEvent (.sources summaries)] ++ mid ++ tokenEvents tokens ++
        [sendEvent (.error code detail)])
  | answered {pre mid : TurnTrace} {summaries : List SourceSummary} {tokens : List String}
      (stored : Except String Unit) (hpre : Quiet pre) (hmid : Quiet mid)
      (hcomplete : Complete python principal userQuery pre mid summaries tokens) :
      Shape (pre ++ [sendEvent (.sources summaries)] ++ mid ++ tokenEvents tokens ++
        [appendEvent principal conversationId userQuery (String.join tokens) stored,
          sendEvent (closing summaries stored)])

@[simp] theorem frames_tokenEvents (tokens : List String) :
    frames (tokenEvents tokens) = tokens.map .token := by
  induction tokens with
  | nil => rfl
  | cons delta deltas ih => exact congrArg (Frame.token delta :: ·) ih

@[simp] theorem appends_tokenEvents (tokens : List String) : appends (tokenEvents tokens) = [] := by
  induction tokens with
  | nil => rfl
  | cons delta deltas ih => exact ih

/-! ### What the code does -/

theorem wp_send (frame : Frame) (Q : TurnTrace → Unit → Prop) (past : TurnTrace) :
    wp (send frame) Q past ↔ Q (past ++ [sendEvent frame]) () := by
  rw [send, wp_perform]
  exact ⟨fun h => h (), fun h _ => h⟩

theorem wp_persistExchange (assistant : String) (Q : TurnTrace → Bool → Prop)
    (past : TurnTrace) :
    wp (persistExchange principal conversationId userQuery assistant) Q past ↔
      ∀ stored, Q (past ++ [appendEvent principal conversationId userQuery assistant stored])
        stored.toBool := by
  rw [persistExchange, wp_bind, wp_perform]
  refine forall_congr' fun stored => ?_
  cases stored with
  | error e => exact wp_pure _ _ _
  | ok u => exact wp_pure _ _ _

theorem wp_completeTextTurn (assistant : String) (citations : List SourceSummary)
    (Q : TurnTrace → Unit → Prop) (past : TurnTrace) :
    wp (completeTextTurn principal conversationId userQuery assistant citations) Q past ↔
      ∀ stored, Q (past ++ [appendEvent principal conversationId userQuery assistant stored,
        sendEvent (closing citations stored)]) () := by
  rw [completeTextTurn, wp_bind, wp_persistExchange]
  refine forall_congr' fun stored => ?_
  cases stored with
  | error e => exact (wp_send _ _ _).trans (by rw [List.append_assoc]; rfl)
  | ok u => exact (wp_send _ _ _).trans (by rw [List.append_assoc]; rfl)

theorem wp_sendTokens (tokens : List String) (Q : TurnTrace → Unit → Prop) (past : TurnTrace) :
    wp (sendTokens tokens) Q past ↔ Q (past ++ tokenEvents tokens) () := by
  induction tokens generalizing past with
  | nil => rw [sendTokens, wp_pure, tokenEvents, List.map_nil, List.append_nil]
  | cons delta deltas ih =>
      rw [sendTokens, wp_bind, wp_send, ih, List.append_assoc]
      rfl

theorem quiet_nil : Quiet [] := ⟨rfl, rfl⟩

theorem Quiet.concat {pre : TurnTrace} (h : Quiet pre) (event : Σ e, Answer e)
    (hsent : sentFrame event = none) (happended : appendedExchange event = none) :
    Quiet (pre ++ [event]) := by
  constructor
  · rw [frames_append, h.1, frames, List.filterMap_cons_none hsent]
    rfl
  · rw [appends_append, h.2, appends, List.filterMap_cons_none happended]
    rfl

variable (python principal conversationId userQuery) in
/-- How a part of the turn ends when it starts after `past`. -/
def Ends (program : TurnProgram Unit) (past : TurnTrace) : Prop :=
  wp program (fun t _ => Shape python principal conversationId userQuery t) past

theorem ends_fail {pre : TurnTrace} (code : Option String) (detail : String) (hpre : Quiet pre) :
    Ends python principal conversationId userQuery (send (.error code detail)) pre :=
  (wp_send _ _ _).mpr (.failed code detail hpre)

/-- The answer to a prompt with numbered sources. -/
theorem ends_answer {pre : TurnTrace} (history : List ChatMessage) (sources : List Source)
    (hpre : Quiet pre) :
    Ends python principal conversationId userQuery (do
        let answer ← streamAnswer (buildMessages python history sources userQuery)
        completeAnswer principal conversationId userQuery (sourceSummaries sources) answer)
      (pre ++ [sendEvent (.sources (sourceSummaries sources))]) := by
  rw [Ends, wp_bind, streamAnswer, wp_bind, wp_perform]
  rintro ⟨tokens, error⟩
  rw [wp_bind, wp_sendTokens]
  have hmid : Quiet [⟨.streamCompletion (buildMessages python history sources userQuery),
      ⟨tokens, error⟩⟩] := quiet_nil.concat _ rfl rfl
  cases error with
  | some detail => exact fun _ => .broken _ tokens none detail hpre hmid
  | none =>
      rw [wp_pure, completeAnswer, wp_completeTextTurn]
      intro stored
      exact .answered stored hpre hmid (.inl ⟨history, sources, rfl, List.mem_singleton_self _⟩)

theorem ends_completeToolTurn {pre : TurnTrace} {state : RouteState} (hpre : Quiet pre)
    (hstate : ⟨.routeMessage principal.tenantId userQuery principal, .ok state⟩ ∈ pre) :
    Ends python principal conversationId userQuery
      (completeToolTurn principal conversationId userQuery state) pre := by
  rw [completeToolTurn]
  split
  · exact ends_fail _ _ hpre
  · exact ends_fail _ _ hpre
  · next result _ hresult =>
      rw [Ends, wp_bind, wp_persistExchange]
      intro stored
      rw [wp_send, List.append_assoc]
      exact .tool _ stored hpre hstate hresult

theorem ends_answerFrom {pre : TurnTrace} {query : String} (history : List ChatMessage)
    (sources : List Source) (hpre : Quiet pre)
    (hretrieved : ⟨.retrieve query principal.tenantId, .ok sources⟩ ∈ pre) :
    Ends python principal conversationId userQuery
      (answerFrom python principal conversationId userQuery history sources) pre := by
  rw [answerFrom, Ends, wp_bind, wp_send]
  split
  · next hempty =>
      obtain rfl := List.isEmpty_iff.mp hempty
      rw [wp_bind, wp_send, wp_completeTextTurn]
      intro stored
      have hcomplete : Complete python principal userQuery pre [] [] [noContextMessage] :=
        .inr ⟨rfl, rfl, query, hretrieved⟩
      have hshape : Shape python principal conversationId userQuery _ :=
        .answered stored hpre quiet_nil hcomplete
      rwa [List.append_nil, tokenEvents, List.map_singleton] at hshape
  · exact ends_answer history sources hpre

theorem ends_completeRagTurn {pre : TurnTrace} (history : List ChatMessage) (hpre : Quiet pre) :
    Ends python principal conversationId userQuery
      (completeRagTurn python principal conversationId userQuery history) pre := by
  rw [completeRagTurn, Ends, wp_bind, wp_perform]
  intro query
  rw [wp_bind, wp_perform]
  intro found
  have hquiet := (hpre.concat ⟨.condenseQuery history userQuery, query⟩ rfl rfl).concat
    ⟨.retrieve query principal.tenantId, found⟩ rfl rfl
  cases found with
  | error e => exact ends_fail _ _ hquiet
  | ok sources =>
      exact ends_answerFrom history sources hquiet
        (List.mem_append_right _ (List.mem_singleton_self _))

theorem ends_completeTurn {pre : TurnTrace} {state : RouteState} (history : List ChatMessage)
    (hpre : Quiet pre)
    (hstate : ⟨.routeMessage principal.tenantId userQuery principal, .ok state⟩ ∈ pre) :
    Ends python principal conversationId userQuery
      (completeTurn python principal conversationId userQuery history state) pre := by
  rw [completeTurn]
  split
  · exact ends_completeToolTurn hpre hstate
  · split
    · rw [completeConversationalTurn, Ends, wp_bind, wp_send]
      exact ends_answer history [] hpre
    · split
      · exact ends_fail _ _ hpre
      · exact ends_completeRagTurn history hpre

theorem wp_readHistory :
    wp (readHistory principal conversationId) (fun t _ => Quiet t) [] := by
  rw [readHistory]
  split
  · exact fun r => quiet_nil.concat _ rfl rfl
  · exact quiet_nil

variable (python principal conversationId userQuery) in
/-- Every turn has one of the four shapes. -/
theorem turn_shape : Ends python principal conversationId userQuery
    (turn python principal conversationId userQuery) [] := by
  rw [turn, Ends, wp_bind]
  refine wp_mono (fun pre history hpre => ?_) wp_readHistory
  cases history with
  | error e => exact ends_fail _ _ hpre
  | ok history =>
      dsimp only
      rw [wp_bind, wp_perform]
      intro routed
      have hquiet :=
        hpre.concat ⟨.routeMessage principal.tenantId userQuery principal, routed⟩ rfl rfl
      cases routed with
      | error e => exact ends_fail _ _ hquiet
      | ok state =>
          exact ends_completeTurn history hquiet
            (List.mem_append_right _ (List.mem_singleton_self _))

/-! ### The protocol -/

theorem closing_terminal (summaries : List SourceSummary) (stored : Except String Unit) :
    (∃ citations, closing summaries stored = .done citations) ∨
      ∃ code detail, closing summaries stored = .error code detail := by
  cases stored with
  | error e => exact .inr ⟨_, _, rfl⟩
  | ok u => exact .inl ⟨summaries, rfl⟩

/-- What a turn has sent up to the end of the answer's tokens. -/
theorem frames_answer {pre mid : TurnTrace} (hpre : Quiet pre) (hmid : Quiet mid)
    (summaries : List SourceSummary) (tokens : List String) :
    frames (pre ++ [sendEvent (.sources summaries)] ++ mid ++ tokenEvents tokens) =
      .sources summaries :: tokens.map .token := by
  simp only [frames_append, hpre.1, hmid.1, frames_tokenEvents]
  rfl

theorem appends_answer {pre mid : TurnTrace} (hpre : Quiet pre) (hmid : Quiet mid)
    (summaries : List SourceSummary) (tokens : List String) :
    appends (pre ++ [sendEvent (.sources summaries)] ++ mid ++ tokenEvents tokens) = [] := by
  simp only [appends_append, hpre.2, hmid.2, appends_tokenEvents]
  rfl

variable {t : TurnTrace}

theorem Shape.grammar (h : Shape python principal conversationId userQuery t) :
    Grammar (frames t) := by
  cases h with
  | failed code detail hpre =>
      rw [frames_append, hpre.1]
      exact .error code detail
  | tool frame stored hpre hstate hresult =>
      rw [frames_append, hpre.1]
      exact .toolResult frame
  | broken summaries tokens code detail hpre hmid =>
      rw [frames_append, frames_answer hpre hmid]
      exact .answer summaries tokens (.inr ⟨code, detail, rfl⟩)
  | @answered _ _ summaries tokens stored hpre hmid hcomplete =>
      rw [frames_append, frames_answer hpre hmid]
      exact .answer summaries tokens (closing_terminal summaries stored)

theorem Shape.appends_length (h : Shape python principal conversationId userQuery t) :
    (appends t).length ≤ 1 := by
  cases h with
  | failed code detail hpre =>
      rw [appends_append, hpre.2]
      exact Nat.zero_le 1
  | tool frame stored hpre hstate hresult =>
      rw [appends_append, hpre.2]
      exact le_rfl
  | broken summaries tokens code detail hpre hmid =>
      rw [appends_append, appends_answer hpre hmid]
      exact Nat.zero_le 1
  | answered stored hpre hmid hcomplete =>
      rw [appends_append, appends_answer hpre hmid]
      exact le_rfl

variable (principal) in
/-- The answer the tokens make up ended normally, or there was nothing to answer from. -/
def Ended (pre : TurnTrace) (tokens : List String) : Prop :=
  (∃ messages, ⟨.streamCompletion messages, ⟨tokens, none⟩⟩ ∈ pre) ∨
    tokens = [noContextMessage] ∧ ∃ query, ⟨.retrieve query principal.tenantId, .ok []⟩ ∈ pre

variable (principal conversationId userQuery) in
/-- The exchange may be appended between `pre` and `post`. -/
structure Due (pre post : TurnTrace) (a : Append) : Prop where
  identity : a.tenantId = principal.tenantId ∧ a.conversationId = conversationId ∧
    a.user = userQuery
  assistant : (frames pre = [] ∧ ∃ state result,
      ⟨.routeMessage principal.tenantId userQuery principal, .ok state⟩ ∈ pre ∧
        state.tool_result = some result ∧ a.assistant = result.summary) ∨
    ∃ summaries tokens, frames pre = .sources summaries :: tokens.map .token ∧
      a.assistant = String.join tokens ∧ Ended principal pre tokens
  terminal : ∃ last, frames post = [last] ∧ last.Terminal

theorem Shape.due {pre post : TurnTrace} {event : Σ e, Answer e} {a : Append}
    (h : Shape python principal conversationId userQuery t) (ht : t = pre ++ event :: post)
    (hevent : appendedExchange event = some a) :
    Due principal conversationId userQuery pre post a := by
  have hsome : appendedExchange event ≠ none := by
    rw [hevent]
    exact Option.some_ne_none a
  have hnone : appends t ≠ [] := by
    rw [ht, appends_append, appends, appends, List.filterMap_cons_some hevent]
    simp
  cases h with
  | failed code detail hpre =>
      refine absurd ?_ hnone
      rw [appends_append, hpre.2]
      rfl
  | broken summaries tokens code detail hpre hmid =>
      refine absurd ?_ hnone
      rw [appends_append, appends_answer hpre hmid]
      rfl
  | tool frame stored hpre hstate hresult =>
      obtain ⟨rfl, rfl, rfl⟩ := split_unique ht hpre.2 rfl hsome
      obtain rfl := Option.some.inj hevent
      exact ⟨⟨rfl, rfl, rfl⟩, .inl ⟨hpre.1, _, _, hstate, hresult, rfl⟩, _, rfl, trivial⟩
  | @answered first mid summaries tokens stored hpre hmid hcomplete =>
      obtain ⟨rfl, rfl, rfl⟩ := split_unique ht (appends_answer hpre hmid _ _) rfl hsome
      obtain rfl := Option.some.inj hevent
      refine ⟨⟨rfl, rfl, rfl⟩, .inr ⟨summaries, tokens, frames_answer hpre hmid _ _, rfl, ?_⟩,
        _, rfl, ?_⟩
      · rcases hcomplete with ⟨history, sources, -, hstream⟩ | ⟨-, htokens, query, hretrieved⟩
        · refine .inl ⟨buildMessages python history sources userQuery, ?_⟩
          exact List.mem_append_left _ (List.mem_append_right _ hstream)
        · refine .inr ⟨htokens, query, ?_⟩
          exact List.mem_append_left _ (List.mem_append_left _ (List.mem_append_left _ hretrieved))
      · cases stored with
        | error e => trivial
        | ok u => trivial

variable (python) in
/-- The `i`-th citation and the `i`-th numbered block are of the `i`-th source. -/
def Numbered (sources : List Source) (citations : List SourceSummary) : Prop :=
  citations.length = sources.length ∧ (contextLines python sources).length = sources.length ∧
    ∀ (i : ℕ) source, sources[i]? = some source →
      citations[i]? = some (summarize (i + 1) source) ∧
        (contextLines python sources)[i]? = some (contextLine python (i + 1) source)

theorem numbered_sourceSummaries (sources : List Source) :
    Numbered python sources (sourceSummaries sources) := by
  refine ⟨List.length_mapIdx, List.length_mapIdx, fun i source h => ?_⟩
  rw [sourceSummaries, contextLines, List.getElem?_mapIdx, List.getElem?_mapIdx, h]
  exact ⟨rfl, rfl⟩

theorem done_not_mem_answer (summaries : List SourceSummary) (tokens : List String)
    (citations : List SourceSummary) :
    .done citations ∉ Frame.sources summaries :: tokens.map .token := by
  intro h
  rcases List.mem_cons.mp h with h | h
  · cases h
  · obtain ⟨token, -, htoken⟩ := List.mem_map.mp h
    cases htoken

theorem Shape.done {citations : List SourceSummary}
    (h : Shape python principal conversationId userQuery t) (hdone : .done citations ∈ frames t) :
    ∃ pre assistant, t = pre ++ [appendEvent principal conversationId userQuery assistant (.ok ()),
        sendEvent (.done citations)] ∧
      (∃ rest, frames pre = .sources citations :: rest) ∧
      (citations = [] ∨ ∃ history sources streamed,
        ⟨.streamCompletion (buildMessages python history sources userQuery), streamed⟩ ∈ pre ∧
          Numbered python sources citations) := by
  cases h with
  | failed code detail hpre =>
      rw [frames_append, hpre.1] at hdone
      cases List.mem_singleton.mp hdone
  | tool frame stored hpre hstate hresult =>
      rw [frames_append, hpre.1] at hdone
      cases List.mem_singleton.mp hdone
  | broken summaries tokens code detail hpre hmid =>
      rw [frames_append, frames_answer hpre hmid] at hdone
      rcases List.mem_append.mp hdone with hbefore | hlast
      · exact absurd hbefore (done_not_mem_answer summaries tokens citations)
      · cases List.mem_singleton.mp hlast
  | @answered first mid summaries tokens stored hpre hmid hcomplete =>
      rw [frames_append, frames_answer hpre hmid] at hdone
      rcases List.mem_append.mp hdone with hbefore | hlast
      · exact absurd hbefore (done_not_mem_answer summaries tokens citations)
      have hclosing : closing summaries stored = .done citations :=
        (List.mem_singleton.mp hlast).symm
      cases stored with
      | error e => cases hclosing
      | ok u =>
          obtain rfl : summaries = citations := Frame.done.inj hclosing
          refine ⟨_, String.join tokens, rfl, ⟨_, frames_answer hpre hmid summaries tokens⟩, ?_⟩
          rcases hcomplete with ⟨history, sources, rfl, hstream⟩ | ⟨hnil, -⟩
          · refine .inr ⟨history, sources, ⟨tokens, none⟩, ?_, numbered_sourceSummaries sources⟩
            exact List.mem_append_left _ (List.mem_append_right _ hstream)
          · exact .inl hnil

/-- The protocol of one turn, for every outcome of its dependencies. -/
theorem chat_turn_protocol (python : Python) (principal : Principal)
    (conversationId userQuery : String) {t : TurnTrace}
    (h : Runs (turn python principal conversationId userQuery) t ()) :
    Grammar (frames t) ∧
      (∃ body last, frames t = body ++ [last] ∧ last.Terminal ∧ ∀ f ∈ body, ¬ f.Terminal) ∧
      (appends t).length ≤ 1 ∧
      (∀ pre event post a, t = pre ++ event :: post → appendedExchange event = some a →
        Due principal conversationId userQuery pre post a) ∧
      ∀ citations, .done citations ∈ frames t →
        ∃ pre assistant,
          t = pre ++ [appendEvent principal conversationId userQuery assistant (.ok ()),
            sendEvent (.done citations)] ∧
          (∃ rest, frames pre = .sources citations :: rest) ∧
          (citations = [] ∨ ∃ history sources streamed,
            ⟨.streamCompletion (buildMessages python history sources userQuery), streamed⟩ ∈ pre ∧
              Numbered python sources citations) := by
  have hshape : Shape python principal conversationId userQuery t :=
    runs_of_wp (turn_shape python principal conversationId userQuery) h
  exact ⟨hshape.grammar, hshape.grammar.terminal, hshape.appends_length,
    fun pre event post a ht hevent => hshape.due ht hevent, fun citations => hshape.done⟩

theorem not_blank_tenant : Text.blank "t" = false := by decide

theorem not_blank_key : Text.blank "k" = false := by decide

def readerPrincipal : Principal where
  tenantId := "t"
  credentialId := "k"
  scopes := {"chat:use", "chat:history", "documents:read"}
  tenantId_filled := not_blank_tenant
  credentialId_filled := not_blank_key
  scopes_known := by decide

def leaveSource : Source := ⟨.string "leave.pdf", .number "2", .null, "Leave is 21 days."⟩

/-- One source is found and the answer comes in two tokens. -/
def citedAnswer (_ : TurnTrace) : (e : Effect) → Answer e
  | .getHistory .. => .ok []
  | .routeMessage .. => .ok ⟨"rag", .null, .null, none, none⟩
  | .condenseQuery _ userQuery => userQuery
  | .retrieve .. => .ok [leaveSource]
  | .streamCompletion _ => ⟨["21 days", " [1]"], none⟩
  | .appendExchange .. => .ok ()
  | .sendJson _ => ()

theorem chat_turn_protocol_citedAnswer :
    ∃ t, (∃ pre assistant, t = pre ++
        [appendEvent readerPrincipal "c" "How much leave?" assistant (.ok ()),
          sendEvent (.done (sourceSummaries [leaveSource]))]) ∧
      frames t = [.sources (sourceSummaries [leaveSource]), .token "21 days", .token " [1]",
        .done (sourceSummaries [leaveSource])] := by
  have hframes : frames (play citedAnswer
      (turn ⟨⟨fun _ => true, id⟩, fun _ => "2"⟩ readerPrincipal "c" "How much leave?") []).1 =
        [.sources (sourceSummaries [leaveSource]), .token "21 days", .token " [1]",
          .done (sourceSummaries [leaveSource])] := rfl
  obtain ⟨-, -, -, -, hdone⟩ := chat_turn_protocol ⟨⟨fun _ => true, id⟩, fun _ => "2"⟩
    readerPrincipal "c" "How much leave?" (runs_play citedAnswer _ [])
  obtain ⟨pre, assistant, ht, -⟩ := hdone (sourceSummaries [leaveSource]) (by simp [hframes])
  exact ⟨_, ⟨pre, assistant, ht⟩, hframes⟩

end Ally.Turn
