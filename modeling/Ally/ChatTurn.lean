import Ally.AgentGraph
import Ally.MongoHistory

/-!
# Chat turns

`ChatUseCase.run` and the prompt of a turn. The dependencies of a turn and its session are
the environment of the program; a stream answers with the tokens it yields and, when it
fails, with the detail of the gateway's error.
-/

namespace Ally.Turn

open Agent (Python ToolResult)
open Chat (ChatMessage Role)
open Interaction
open PCAgentBridge (Json Message)

/-! ### The prompt -/

/-- What a turn reads of a retrieved chunk. -/
structure Source where
  filename : Json
  page_number : Json
  score : Json
  text : String

structure PromptMessage where
  role : String
  content : String
  deriving DecidableEq

def systemPrompt : String :=
  "You are a helpful assistant answering questions using ONLY the " ++
  "numbered sources provided with each question. Follow these rules " ++
  "strictly:\n" ++
  "1. Answer only using information present in the sources below.\n" ++
  "2. Every claim based on document sources must be followed by a citation marker like " ++
  "[1] or [2] referencing the source number it came from; local PC policy facts in rule 5 " ++
  "do not need citations when no sources are supplied.\n" ++
  "3. If the sources do not contain enough information to answer, say " ++
  "so plainly instead of guessing or using outside knowledge.\n" ++
  "4. Keep answers concise and directly responsive to the question.\n" ++
  "5. For local PC access questions, you may answer from this application rule even " ++
  "without document sources: file reads/listings are limited to folders configured in " ++
  "local_agent/config.json under allowed_folders, and require file_rw to be enabled. " ++
  "You do not know the configured paths unless provided. Ask for a path inside an " ++
  "allowed folder to list its files."

def noContextMessage : String :=
  "I couldn't find anything in the indexed documents relevant to that " ++
  "question. Could you rephrase it, or ask about something covered in " ++
  "the uploaded documents?"

def contextLine (python : Python) (index : ℕ) (source : Source) : String :=
  "[" ++ toString index ++ "] (" ++ python.str source.filename ++ ", page " ++
    python.str source.page_number ++ "): " ++ source.text

def contextLines (python : Python) (sources : List Source) : List String :=
  sources.mapIdx fun i source => contextLine python (i + 1) source

def buildContextBlock (python : Python) (sources : List Source) : String :=
  "\n\n".intercalate (contextLines python sources)

def historyMessage (m : ChatMessage) : PromptMessage :=
  ⟨match m.role with
    | .user => "user"
    | .assistant => "assistant", m.content⟩

def buildMessages (python : Python) (history : List ChatMessage) (sources : List Source)
    (userQuery : String) : List PromptMessage :=
  let userContent :=
    if sources.isEmpty then "Question: " ++ userQuery
    else "Sources:\n" ++ buildContextBlock python sources ++ "\n\nQuestion: " ++ userQuery
  ⟨"system", systemPrompt⟩ :: history.map historyMessage ++ [⟨"user", userContent⟩]

/-! ### Frames and dependencies -/

structure SourceSummary where
  index : ℕ
  filename : Json
  page_number : Json
  score : Json
  text : String

def summarize (index : ℕ) (source : Source) : SourceSummary :=
  ⟨index, source.filename, source.page_number, source.score,
    String.ofList (source.text.toList.take 400)⟩

def sourceSummaries (sources : List Source) : List SourceSummary :=
  sources.mapIdx fun i source => summarize (i + 1) source

structure ToolFrame where
  tool : Json
  action : Json
  success : Bool
  summary : String
  details : Message
  history_status : String

inductive Frame
  | error (code : Option String) (detail : String)
  | toolResult (result : ToolFrame)
  | sources (sources : List SourceSummary)
  | token (content : String)
  | done (citations : List SourceSummary)

/-- The final state of the agent graph, as far as a turn reads it. -/
structure RouteState where
  route : String
  toolName : Json
  action : Json
  tool_error : Option String
  tool_result : Option ToolResult

/-- The tokens a stream yields, and the detail of an `LLMGatewayError` after them. -/
structure Streamed where
  tokens : List String
  error : Option String

inductive Effect
  | getHistory (tenantId conversationId : String)
  | routeMessage (tenantId userQuery : String) (principal : Principal)
  | condenseQuery (history : List ChatMessage) (userQuery : String)
  | retrieve (query tenantId : String)
  | streamCompletion (messages : List PromptMessage)
  | appendExchange (tenantId conversationId user assistant : String)
  | sendJson (frame : Frame)

/-- An exception of a dependency is known by its type's name only. -/
@[reducible] def Answer : Effect → Type
  | .getHistory .. => Except String (List ChatMessage)
  | .routeMessage .. => Except String RouteState
  | .condenseQuery .. => String
  | .retrieve .. => Except String (List Source)
  | .streamCompletion .. => Streamed
  | .appendExchange .. => Except String Unit
  | .sendJson .. => Unit

abbrev TurnProgram := Program Effect Answer

def send (frame : Frame) : TurnProgram Unit := perform (Effect.sendJson frame)

section turn

variable (python : Python) (principal : Principal) (conversationId userQuery : String)

def persistExchange (assistant : String) : TurnProgram Bool := do
  let stored ← perform (Effect.appendExchange principal.tenantId conversationId userQuery assistant)
  match stored with
  | .error _ => pure false
  | .ok () => pure true

def completeTextTurn (assistant : String) (citations : List SourceSummary) :
    TurnProgram Unit := do
  let saved ← persistExchange principal conversationId userQuery assistant
  if saved then send (.done citations)
  else send (.error (some "history_write_unconfirmed")
    ("The response was produced, but saving this exchange could not be confirmed. " ++
      "It may already be stored; inspect conversation history before retrying."))

/-- The loop over the stream. -/
def sendTokens : List String → TurnProgram Unit
  | [] => pure ()
  | delta :: deltas => do
      send (.token delta)
      sendTokens deltas

def streamAnswer (messages : List PromptMessage) : TurnProgram (Option String) := do
  let streamed ← perform (Effect.streamCompletion messages)
  sendTokens streamed.tokens
  match streamed.error with
  | some detail => do
      send (.error none detail)
      pure none
  | none => pure (some (String.join streamed.tokens))

/-- What follows the answer of the stream. -/
def completeAnswer (citations : List SourceSummary) : Option String → TurnProgram Unit
  | none => pure ()
  | some answer => completeTextTurn principal conversationId userQuery answer citations

def unsavedNotice : String :=
  " Conversation saving is unconfirmed. The action may already have run; " ++
    "do not repeat it to repair chat history."

/-- An empty `tool_error` counts as none. -/
def RouteState.failure (state : RouteState) : Option String := state.tool_error.filter (· ≠ "")

def completeToolTurn (state : RouteState) : TurnProgram Unit :=
  match state.failure, state.tool_result with
  | some toolError, _ => send (.error none toolError)
  | none, none => send (.error none "The requested action did not return a result.")
  | none, some result => do
      let saved ← persistExchange principal conversationId userQuery result.summary
      send (.toolResult {
        tool := state.toolName
        action := state.action
        success := result.success
        summary := if saved then result.summary else result.summary ++ unsavedNotice
        details := result.details
        history_status := if saved then "stored" else "unconfirmed" })

def completeConversationalTurn (history : List ChatMessage) : TurnProgram Unit := do
  send (.sources [])
  let answer ← streamAnswer (buildMessages python history [] userQuery)
  completeAnswer principal conversationId userQuery [] answer

/-- The turn of a retrieval that returned. -/
def answerFrom (history : List ChatMessage) (sources : List Source) : TurnProgram Unit := do
  send (.sources (sourceSummaries sources))
  if sources.isEmpty then do
    send (.token noContextMessage)
    completeTextTurn principal conversationId userQuery noContextMessage []
  else do
    let answer ← streamAnswer (buildMessages python history sources userQuery)
    completeAnswer principal conversationId userQuery (sourceSummaries sources) answer

def completeRagTurn (history : List ChatMessage) : TurnProgram Unit := do
  let retrievalQuery ← perform (Effect.condenseQuery history userQuery)
  let found ← perform (Effect.retrieve retrievalQuery principal.tenantId)
  match found with
  | .error _ => send (.error none "Search is temporarily unavailable.")
  | .ok sources => answerFrom python principal conversationId userQuery history sources

def completeTurn (history : List ChatMessage) (state : RouteState) : TurnProgram Unit :=
  if state.route = "tool" then completeToolTurn principal conversationId userQuery state
  else if state.route = "conversational" then
    completeConversationalTurn python principal conversationId userQuery history
  else if "documents:read" ∉ principal.scopes then
    send (.error none "Document retrieval is not permitted.")
  else completeRagTurn python principal conversationId userQuery history

def readHistory : TurnProgram (Except String (List ChatMessage)) :=
  if "chat:history" ∈ principal.scopes then
    perform (Effect.getHistory principal.tenantId conversationId)
  else pure (.ok [])

/-- The body of the loop of `ChatUseCase.run`, for one message. -/
def turn : TurnProgram Unit := do
  let history ← readHistory principal conversationId
  match history with
  | .error _ => send (.error none "Chat history is temporarily unavailable.")
  | .ok history => do
      let routed ← perform (Effect.routeMessage principal.tenantId userQuery principal)
      match routed with
      | .error _ => send (.error none "Could not process that message.")
      | .ok state => completeTurn python principal conversationId userQuery history state

/-- The loop over the messages a session receives. -/
def run : List String → TurnProgram Unit
  | [] => pure ()
  | userQuery :: queries => do
      turn python principal conversationId userQuery
      run queries

end turn

end Ally.Turn
