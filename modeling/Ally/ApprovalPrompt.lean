import Ally.JsonAscii
import Ally.ReceiveLoop

/-!
# The approval prompt

What `approve_locally` writes before it waits: one request, whatever characters the backend and the
web put into it.
-/

namespace Ally.LocalApproval

open Json Companion

variable {F : Type} (fl : Floats F)

/-- The `request` that is shown; an empty context is left out. -/
def request (action : List Char) (params : Value F) (context : List (List Char × Value F)) :
    Value F :=
  .dict ([("action".toList, .string action), ("params".toList, params)] ++
    if context = [] then [] else [("approval_context".toList, .dict context)])

/-- The lines around the JSON text, and the unfinished one. -/
def around (page : Bool) (dump : List Char) : List Char :=
  if page then
    "Ally found this web result. Check the title and URL before approving:\n".toList ++ dump ++
      "\nType APPROVE to open this result: ".toList
  else
    "Ally requests a PC action: ".toList ++ dump ++
      "\nType APPROVE to execute this action: ".toList

/-- What is on the terminal when the word is waited for, or the `ValueError` of `json.dumps`. -/
def shown (action : List Char) (params : Value F) (context : List (List Char × Value F)) :
    Option (List Char) :=
  (dumpAscii fl (request action params context)).map (around (!context.isEmpty))

section

variable {fl} {action action' : List Char} {params params' : Value F}
  {context context' : List (List Char × Value F)}

theorem request_regular (hparams : params.Regular) (hcontext : (Value.dict context).Regular) :
    (request action params context).Regular := by
  have hkeys : ["action".toList, "params".toList, "approval_context".toList].Nodup := by decide
  unfold request
  split_ifs
  · exact ⟨hkeys.sublist (List.sublist_append_left _ [_]), trivial, hparams, trivial⟩
  · exact ⟨hkeys, trivial, hparams, hcontext, trivial⟩

theorem request_injective (h : request action params context = request action' params' context') :
    action = action' ∧ params = params' ∧ context = context' := by
  unfold request at h
  split_ifs at h with hc hc' hc' <;> simp_all

/-- The sixth character tells the two texts apart. -/
theorem around_injective {page page' : Bool} {dump dump' : List Char}
    (h : around page dump = around page' dump') : dump = dump' := by
  have hsixth := congrArg (fun text : List Char => text[5]?) h
  cases page <;> cases page'
  · exact List.append_cancel_left (List.append_cancel_right h)
  · cases hsixth
  · cases hsixth
  · exact List.append_cancel_left (List.append_cancel_right h)

theorem isPrintable_around {page : Bool} {dump : List Char} (h : ∀ c ∈ dump, isPrintable c = true) :
    (∀ c ∈ around page dump, c = '\n' ∨ isPrintable c = true) ∧
      (around page dump).count '\n' = if page then 2 else 1 := by
  have hcount : dump.count '\n' = 0 := List.count_eq_zero.mpr fun hmem => by
    cases h _ hmem
  have hfixed : ∀ s : List Char, s.all (fun c => c = '\n' || isPrintable c) = true →
      ∀ c ∈ s, c = '\n' ∨ isPrintable c = true := by
    intro s hs c hc
    have hc := List.all_eq_true.mp hs c hc
    rwa [Bool.or_eq_true, decide_eq_true_eq] at hc
  have hmem : ∀ front back : List Char, front.all (fun c => c = '\n' || isPrintable c) = true →
      back.all (fun c => c = '\n' || isPrintable c) = true → ∀ c ∈ front ++ dump ++ back,
      c = '\n' ∨ isPrintable c = true := by
    intro front back hfront hback c hc
    rw [List.mem_append, List.mem_append] at hc
    rcases hc with (hc | hc) | hc
    · exact hfixed front hfront c hc
    · exact .inr (h c hc)
    · exact hfixed back hback c hc
  cases page
  · refine ⟨hmem _ _ rfl rfl, ?_⟩
    rw [around, if_neg (by decide), List.count_append, List.count_append, hcount]
    rfl
  · refine ⟨hmem _ _ rfl rfl, ?_⟩
    rw [around, if_pos rfl, List.count_append, List.count_append, hcount]
    rfl

end

/-- The user is asked about one request: nothing in it moves the cursor or starts another line, and
no other action, arguments or page is shown the same way. -/
theorem shown_names_request {action action' : List Char} {params params' : Value F}
    {context context' : List (List Char × Value F)} {text : List Char}
    (hparams : params.Regular) (hparams' : params'.Regular)
    (hcontext : (Value.dict context).Regular) (hcontext' : (Value.dict context').Regular)
    (h : shown fl action params context = some text)
    (h' : shown fl action' params' context' = some text) :
    action = action' ∧ params = params' ∧ context = context' ∧
      (∀ c ∈ text, c = '\n' ∨ isPrintable c = true) ∧
        text.count '\n' = if context = [] then 1 else 2 := by
  obtain ⟨dump, hdump, rfl⟩ := Option.map_eq_some_iff.mp h
  obtain ⟨dump', hdump', hsame⟩ := Option.map_eq_some_iff.mp h'
  rw [around_injective hsame] at hdump'
  obtain ⟨haction, hparams, hcontext⟩ := request_injective (dumpAscii_injective fl
    (request_regular hparams hcontext) (request_regular hparams' hcontext') hdump hdump')
  obtain ⟨hprint, hlines⟩ := @isPrintable_around (!context.isEmpty) dump
    fun c hc => isPrintable_dumpAscii fl hdump hc
  refine ⟨haction, hparams, hcontext, hprint, hlines.trans ?_⟩
  cases context <;> rfl

/-- A path whose end would be written from right to left. -/
def reversedPath : Value Empty := .dict [("path".toList, .string "C:\\a\u202Etxt.exe\n".toList)]

def reversedPrompt : List Char :=
  ("Ally requests a PC action: \x7b\"action\": \"read_file\", \"params\": \x7b\"path\": " ++
    "\"C:\\\\a\\u202etxt.exe\\n\"\x7d\x7d\nType APPROVE to execute this action: ").toList

theorem shown_names_request_reversed :
    "read_file".toList = "read_file".toList ∧ reversedPath = reversedPath ∧
      ([] : List (List Char × Value Empty)) = [] ∧
      (∀ c ∈ reversedPrompt, c = '\n' ∨ isPrintable c = true) ∧
        reversedPrompt.count '\n' = if ([] : List (List Char × Value Empty)) = [] then 1 else 2 := by
  have hparams : reversedPath.Regular := ⟨List.nodup_singleton _, trivial, trivial⟩
  have hshown : shown ReceiveLoop.noFloats "read_file".toList reversedPath [] =
      some reversedPrompt := by decide +kernel
  exact shown_names_request ReceiveLoop.noFloats hparams hparams ⟨List.nodup_nil, trivial⟩
    ⟨List.nodup_nil, trivial⟩ hshown hshown

end Ally.LocalApproval
