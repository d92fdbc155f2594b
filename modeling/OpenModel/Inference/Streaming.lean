import OpenModel.Inference.Completion
import OpenModel.Inference.Receipt

/-!
# Streamed and buffered responses

`generate` keeps the last output of the core and returns its text; `generate_stream` cuts
each text behind the length of the previous one and yields what is new. `sse_generator`
turns the chunks into frames and collects, in an accumulator of its own, the text that the
receipt is for.

When every text extends the one before, the pieces add up to the last text, so the client
of a stream gets what the client of a response gets. Only a core that ends without any
output is different: `generate` raises, `generate_stream` just ends.

## Main results

- `Call.Streams.iterate`: the pieces that were yielded make up the last text
- `CoreRun.lastOutput_eq`: the two loops end with the same output, or the same exception
- `ChatRequest.sseGenerator_eq`: the frames are those of the events of the chunks
- `ChatRequest.faithful_iff`: streamed and buffered responses agree unless there is no output
-/

namespace OpenModel.Inference

-- ════════════════════════════════════════════════════════════════════════
-- Exceptions
-- ════════════════════════════════════════════════════════════════════════

/-- What the handlers of the API tell apart. -/
inductive ExceptionKind
  | runtimeError
  | valueError
  | other
  deriving DecidableEq, Repr

structure Raised where
  typeName : String
  kind : ExceptionKind
  message : String
  deriving DecidableEq, Repr

def runtimeError (message : String) : Raised := ⟨"RuntimeError", .runtimeError, message⟩

namespace Raised

/-- `_is_engine_dead_error`. -/
def isEngineDeadError (e : Raised) : Bool := mentions e.typeName "enginedead"

/-- The `except` clause of `generate` and `generate_stream`. -/
def surfaced (e : Raised) : Raised :=
  if e.isEngineDeadError then
    runtimeError "engine core died — request failed, retry on another worker"
  else e

end Raised

-- ════════════════════════════════════════════════════════════════════════
-- The engine
-- ════════════════════════════════════════════════════════════════════════

/-- How the core's generator ends. -/
inductive CoreEnd
  | ended
  /-- no output for `_GEN_STALL_TIMEOUT` -/
  | stalled
  | raised (e : Raised)
  deriving DecidableEq, Repr

/-- `_iter_outputs`, behind the last output. -/
def CoreEnd.exception : CoreEnd → Option Raised
  | ended => none
  | stalled => some (runtimeError "engine stalled — no output; request failed, retry on another worker")
  | raised e => some e

/-- An output, and whether the engine is RUNNING when it comes. -/
structure Arrival where
  running : Bool
  output : RequestOutput
  deriving DecidableEq, Repr

/-- What one call meets: whether the engine is available, the outputs and their end. -/
structure CoreRun where
  available : Bool
  arrivals : List Arrival
  how : CoreEnd
  deriving DecidableEq, Repr

/-- The chunks that `generate_stream` yields, and the exception that it raises then. -/
structure ChunkStream where
  chunks : List StreamChunk
  raised : Option Raised
  deriving DecidableEq, Repr

def notAvailable : Raised := runtimeError "Engine not available — GPU yielded to mining"

def pausedDuringGeneration : Raised :=
  runtimeError "Engine paused during generation — request aborted"

def noOutput : Raised := runtimeError "vLLM returned no output"

/-- The loop of `generate`, from the value of `final_output`. -/
def lastOutput (finalOutput : Option RequestOutput) :
    List Arrival → CoreEnd → Except Raised (Option RequestOutput)
  | [], how =>
    match how.exception with
    | none => .ok finalOutput
    | some e => .error e
  | arrival :: arrivals, how =>
    if arrival.running then lastOutput (some arrival.output) arrivals how
    else .error pausedDuringGeneration

/-- The loop of `generate_stream`. -/
def Call.iterate (c : Call) : List Arrival → CoreEnd → Call × Option Raised
  | [], how => (c, how.exception)
  | arrival :: arrivals, how =>
    if arrival.running then (c.receive arrival.output).iterate arrivals how
    else (c, some pausedDuringGeneration)

namespace CoreRun

def generate (run : CoreRun) : Except Raised GenerateResult :=
  if run.available = false then .error notAvailable
  else
    match lastOutput none run.arrivals run.how with
    | .error e => .error e.surfaced
    | .ok none => .error noOutput.surfaced
    | .ok (some out) => .ok out.result

def generateStream (run : CoreRun) : ChunkStream :=
  if run.available = false then ⟨[], some notAvailable⟩
  else
    match Call.iterate {} run.arrivals run.how with
    | (c, some e) => ⟨c.chunks, some e.surfaced⟩
    | (c, none) => ⟨c.finish.chunks, none⟩

/-- Each text extends the previous one. -/
def Cumulative (run : CoreRun) : Prop :=
  (run.arrivals.map fun arrival => arrival.output.text).IsChain (· <+: ·)

instance (run : CoreRun) : Decidable run.Cumulative :=
  inferInstanceAs (Decidable (List.IsChain _ _))

/-- The engine stays RUNNING and the outputs end. -/
structure Clean (run : CoreRun) : Prop where
  available : run.available = true
  running : ∀ arrival ∈ run.arrivals, arrival.running = true
  ended : run.how = .ended

end CoreRun

-- ════════════════════════════════════════════════════════════════════════
-- The API
-- ════════════════════════════════════════════════════════════════════════

structure Usage where
  promptTokens : Nat
  completionTokens : Nat
  totalTokens : Nat
  cachedTokens : Nat
  deriving DecidableEq, Repr

def GenerateResult.usage (r : GenerateResult) : Usage :=
  ⟨r.promptTokens, r.completionTokens, r.promptTokens + r.completionTokens, r.cachedTokens⟩

def StreamChunk.usage (chunk : StreamChunk) : Usage :=
  ⟨chunk.promptTokens, chunk.completionTokens, chunk.promptTokens + chunk.completionTokens,
    chunk.cachedTokens⟩

/-- The object of a frame; its only choice has index 0, and `content` is the delta's. -/
structure ChatChunk where
  id : String
  object : String := "chat.completion.chunk"
  created : Int
  model : String
  content : Option (List Char)
  finishReason : Option String
  usage : Option Usage
  deriving DecidableEq, Repr

inductive Frame
  | chunk (data : ChatChunk)
  | omReceipt (rcpt : JsonValue)
  | error (message type : String)
  | done

/-- What the handler has of the request when it answers. -/
structure ChatRequest where
  model : String
  /-- `_rid` -/
  requestId : String
  /-- `_req_sha` -/
  requestSha256 : String
  wantReceipt : Bool
  completionId : String
  created : Int
  deriving DecidableEq, Repr

/-- What receipts are made with, and the time at which one is. -/
structure Attestor (ed : Ed25519) where
  signer : ReceiptSigner ed
  /-- `hashlib.sha256(·).hexdigest()` -/
  sha256Hex : List UInt8 → String
  ts : Int

/-- The accumulators of `sse_generator`. -/
structure SseState where
  genParts : List (List Char) := []
  finalUsage : Option (Nat × Nat × Nat) := none
  deriving DecidableEq, Repr

/-- A chunk passes the accumulators. -/
def SseState.take (s : SseState) (chunk : StreamChunk) : SseState :=
  if chunk.finishReason.isSome then
    { s with finalUsage := some (chunk.promptTokens, chunk.completionTokens, chunk.cachedTokens) }
  else if chunk.textDelta ≠ [] then { s with genParts := s.genParts ++ [chunk.textDelta] }
  else s

inductive HttpError
  | http (status : Nat) (detail : String)
  | unhandled (e : Raised)
  deriving DecidableEq, Repr

/-- `_is_context_length_error`. -/
def isContextLengthError (e : Raised) : Bool :=
  mentions e.message "context length" || mentions e.message "longer than the maximum" ||
    mentions e.message "maximum model length" || mentions e.message "max_model_len" ||
    (mentions e.message "prompt" && mentions e.message "too long")

/-- A response that is not streamed, with the receipt of its header. -/
structure CompletionResponse where
  model : String
  content : List Char
  finishReason : String
  usage : Usage
  receipt : JsonValue

namespace ChatRequest

variable {ed : Ed25519}

/-- `build_receipt`, for a text. -/
def receipt (req : ChatRequest) (att : Attestor ed) (text : List Char)
    (promptTokens completionTokens cachedTokens : Nat) : JsonValue :=
  att.signer.buildReceipt req.requestId req.model req.requestSha256
    (att.sha256Hex (encodeUtf8 text)) promptTokens completionTokens cachedTokens att.ts

/-- The data of a chunk's frame. -/
def data (req : ChatRequest) (chunk : StreamChunk) : ChatChunk :=
  match chunk.finishReason with
  | some reason =>
    { id := req.completionId, created := req.created, model := req.model, content := none,
      finishReason := some reason, usage := some chunk.usage }
  | none =>
    { id := req.completionId, created := req.created, model := req.model,
      content := some chunk.textDelta, finishReason := none, usage := none }

/-- The frames of `sse_generator`; another exception leaves the generator. -/
def sseGenerator (req : ChatRequest) (att : Attestor ed) (stream : ChunkStream) : List Frame :=
  let s : SseState := stream.chunks.foldl SseState.take {}
  (stream.chunks.map fun chunk => Frame.chunk (req.data chunk)) ++
    match stream.raised with
    | none =>
      (match req.wantReceipt, s.finalUsage with
      | true, some (promptTokens, completionTokens, cachedTokens) =>
        [.omReceipt
          (req.receipt att s.genParts.flatten promptTokens completionTokens cachedTokens)]
      | _, _ => []) ++ [.done]
    | some e => if e.kind = .other then [] else [.error e.message "server_error", .done]

/-- The response that is not streamed. -/
def chatCompletion (req : ChatRequest) (att : Attestor ed) (run : CoreRun) :
    Except HttpError CompletionResponse :=
  match run.generate with
  | .ok result =>
    .ok
      { model := req.model
        content := result.text
        finishReason := result.finishReason
        usage := result.usage
        receipt := req.receipt att result.text result.promptTokens result.completionTokens
          result.cachedTokens }
  | .error e =>
    match e.kind with
    | .runtimeError => .error (.http 503 e.message)
    | .valueError =>
      if isContextLengthError e then .error (.http 400 ("context length exceeded: " ++ e.message))
      else .error (.unhandled e)
    | .other => .error (.unhandled e)

end ChatRequest

-- ════════════════════════════════════════════════════════════════════════
-- What a client sees
-- ════════════════════════════════════════════════════════════════════════

namespace Frame

def content : Frame → List Char
  | chunk data => data.content.getD []
  | _ => []

/-- The finish reason and the usage of a frame with usage. -/
def final : Frame → Option (Option String × Usage)
  | chunk data => data.usage.map fun usage => (data.finishReason, usage)
  | _ => none

def isChunk : Frame → Bool
  | chunk _ => true
  | _ => false

end Frame

/-- The concatenated content deltas. -/
def delivered (frames : List Frame) : List Char := frames.flatMap Frame.content

def finalFrames (frames : List Frame) : List (Option String × Usage) := frames.filterMap Frame.final

variable {ed : Ed25519}

/-- The receipt is for the text, and its counts are those of the usage. -/
structure Attests (att : Attestor ed) (rcpt : JsonValue) (text : List Char) (usage : Usage) :
    Prop where
  response : strMember rcpt "response_sha256" = some (att.sha256Hex (encodeUtf8 text))
  prompt : intMember rcpt "prompt_tokens" = some usage.promptTokens
  completion : intMember rcpt "completion_tokens" = some usage.completionTokens
  cached : intMember rcpt "cached_tokens" = some usage.cachedTokens

namespace ChatRequest

/-- The frames of the request's stream. -/
def frames (req : ChatRequest) (att : Attestor ed) (run : CoreRun) : List Frame :=
  req.sseGenerator att run.generateStream

/-- The stream delivers what `generate` returns and what a response would hold, and ends with
the receipt, if it was requested, and one `[DONE]`. -/
structure Agrees (req : ChatRequest) (att : Attestor ed) (run : CoreRun)
    (result : GenerateResult) : Prop where
  returned : run.generate = .ok result
  response : ∃ response, req.chatCompletion att run = .ok response ∧
    response.content = result.text ∧ response.finishReason = result.finishReason ∧
      response.usage = result.usage
  content : delivered (req.frames att run) = result.text
  final : finalFrames (req.frames att run) = [(some result.finishReason, result.usage)]
  ends : ∃ chunks, (∀ frame ∈ chunks, frame.isChunk = true) ∧
    if req.wantReceipt then
      ∃ rcpt, req.frames att run = chunks ++ [.omReceipt rcpt, .done] ∧
        ∀ final ∈ finalFrames (req.frames att run),
          Attests att rcpt (delivered (req.frames att run)) final.2
    else req.frames att run = chunks ++ [.done]

/-- The stream ends with an error frame and one `[DONE]`, without a receipt. -/
def Fails (req : ChatRequest) (att : Attestor ed) (run : CoreRun) (e : Raised) : Prop :=
  ∃ chunks, (∀ frame ∈ chunks, frame.isChunk = true) ∧
    req.frames att run = chunks ++ [.error e.message "server_error", .done]

/-- Streamed and buffered responses agree for an engine that stays RUNNING, and a
`RuntimeError` or a `ValueError` fails the stream. -/
def Faithful (req : ChatRequest) (att : Attestor ed) (run : CoreRun) : Prop :=
  (run.Clean → ∃ result, req.Agrees att run result) ∧
    ∀ e, run.generateStream.raised = some e → e.kind ≠ .other → req.Fails att run e

end ChatRequest

-- ════════════════════════════════════════════════════════════════════════
-- The two loops of the engine
-- ════════════════════════════════════════════════════════════════════════

/-- What has been yielded makes up the last text, piece by piece. -/
structure Call.Streams (c : Call) : Prop where
  deltas : ∀ chunk ∈ c.chunks, chunk.finishReason = none ∧ chunk.textDelta ≠ []
  text : (c.chunks.map StreamChunk.textDelta).flatten = c.prevText
  last : ∀ out ∈ c.finalOutput, out.text = c.prevText

namespace Call

variable {c : Call} {out : RequestOutput} {arrivals : List Arrival} {how : CoreEnd}

theorem Streams.init : Call.Streams {} where
  deltas := by simp
  text := rfl
  last := by simp

/-- **One output**: the new piece goes from the old text to the new one. -/
theorem Streams.receive (h : c.Streams) (hextends : c.prevText <+: out.text) :
    (c.receive out).Streams := by
  obtain ⟨delta, hout⟩ := hextends
  have hdrop : out.text.drop c.prevText.length = delta := by
    rw [← hout, List.drop_left]
  refine ⟨?_, ?_, ?_⟩
  · intro chunk hchunk
    simp only [Call.receive, hdrop] at hchunk
    rcases List.mem_append.mp hchunk with hchunk | hchunk
    · exact h.deltas chunk hchunk
    · split_ifs at hchunk with hempty
      · simp at hchunk
      · obtain rfl := List.mem_singleton.mp hchunk
        exact ⟨rfl, hempty⟩
  · simp only [Call.receive, hdrop, List.map_append, List.flatten_append, h.text]
    split_ifs with hempty
    · simpa [hempty] using hout
    · simpa using hout
  · intro out' hout'
    obtain rfl := Option.some.inj hout'
    rfl

/-- **The whole loop**, wherever it stops. -/
theorem Streams.iterate (h : c.Streams)
    (hcum : (c.prevText :: arrivals.map fun a => a.output.text).IsChain (· <+: ·)) :
    (c.iterate arrivals how).1.Streams := by
  induction arrivals generalizing c with
  | nil => exact h
  | cons arrival arrivals ih =>
    rw [List.map_cons, List.isChain_cons_cons] at hcum
    rw [Call.iterate]
    split
    · exact ih (h.receive hcum.1) hcum.2
    · exact h

/-- An engine that stays RUNNING lets every output pass. -/
theorem iterate_of_running (h : ∀ arrival ∈ arrivals, arrival.running = true) :
    c.iterate arrivals how =
      ((arrivals.map Arrival.output).foldl Call.receive c, how.exception) := by
  induction arrivals generalizing c with
  | nil => rfl
  | cons arrival arrivals ih =>
    rw [Call.iterate, if_pos (h arrival (by simp))]
    exact ih fun a ha => h a (by simp [ha])

theorem running_of_iterate {c' : Call} (h : c.iterate arrivals how = (c', none)) :
    (∀ arrival ∈ arrivals, arrival.running = true) ∧ how = .ended := by
  induction arrivals generalizing c with
  | nil =>
    refine ⟨by simp, ?_⟩
    cases how with
    | ended => rfl
    | stalled => simp [Call.iterate, CoreEnd.exception] at h
    | raised e => simp [Call.iterate, CoreEnd.exception] at h
  | cons arrival arrivals ih =>
    rw [Call.iterate] at h
    split at h
    · next hrunning =>
      obtain ⟨hall, hended⟩ := ih h
      exact ⟨by simpa [hrunning] using hall, hended⟩
    · simp at h

/-- The last output is the last one that was received. -/
theorem finalOutput_foldl_receive (outs : List RequestOutput) :
    (outs.foldl Call.receive c).finalOutput = outs.getLast?.or c.finalOutput := by
  induction outs generalizing c with
  | nil => rfl
  | cons out outs ih =>
    rw [List.foldl_cons, ih, List.getLast?_cons]
    cases outs.getLast? <;> rfl

end Call

/-- **The two loops** end with the same output, or the same exception. -/
theorem CoreRun.lastOutput_eq (c : Call) (arrivals : List Arrival) (how : CoreEnd) :
    lastOutput c.finalOutput arrivals how =
      match c.iterate arrivals how with
      | (c', none) => .ok c'.finalOutput
      | (_, some e) => .error e := by
  induction arrivals generalizing c with
  | nil =>
    rw [lastOutput, Call.iterate]
    cases how.exception <;> rfl
  | cons arrival arrivals ih =>
    rw [lastOutput, Call.iterate]
    split
    · exact ih (c.receive arrival.output)
    · rfl

namespace CoreRun

variable {run : CoreRun}

/-- The call of a clean run when the outputs end. -/
def received (run : CoreRun) : Call := (run.arrivals.map Arrival.output).foldl Call.receive {}

theorem iterate_of_clean (h : run.Clean) :
    Call.iterate {} run.arrivals run.how = (run.received, none) := by
  rw [Call.iterate_of_running h.running, h.ended]
  rfl

theorem received_streams (h : run.Clean) (hcum : run.Cumulative) : run.received.Streams := by
  have hchain : ([] :: run.arrivals.map fun a => a.output.text).IsChain (· <+: ·) := by
    cases harrivals : run.arrivals with
    | nil => simp
    | cons arrival arrivals =>
      rw [CoreRun.Cumulative, harrivals] at hcum
      rw [List.map_cons, List.isChain_cons_cons]
      exact ⟨List.nil_prefix, hcum⟩
  have hstreams : (Call.iterate {} run.arrivals run.how).1.Streams :=
    Call.Streams.init.iterate hchain
  rwa [iterate_of_clean h] at hstreams

theorem received_finalOutput (run : CoreRun) :
    run.received.finalOutput = (run.arrivals.map Arrival.output).getLast? := by
  rw [received, Call.finalOutput_foldl_receive, Option.or_none]

theorem generateStream_of_clean (h : run.Clean) :
    run.generateStream = ⟨run.received.finish.chunks, none⟩ := by
  simp [generateStream, h.available, iterate_of_clean h]

theorem generate_of_clean (h : run.Clean) :
    run.generate =
      match run.received.finalOutput with
      | none => .error noOutput
      | some out => .ok out.result := by
  have hloop : lastOutput none run.arrivals run.how = .ok run.received.finalOutput := by
    have heq := lastOutput_eq {} run.arrivals run.how
    rwa [iterate_of_clean h] at heq
  rw [generate, if_neg (by simp [h.available]), hloop]
  cases run.received.finalOutput with
  | none => rfl
  | some out => rfl

/-- Every other run raises. -/
theorem raised_eq_none_iff : run.generateStream.raised = none ↔ run.Clean := by
  constructor
  · intro h
    rw [generateStream] at h
    split at h
    · simp at h
    · next havail =>
      split at h
      · simp at h
      · next c hiter =>
        obtain ⟨hrunning, hended⟩ := Call.running_of_iterate hiter
        exact ⟨by simpa using havail, hrunning, hended⟩
  · intro h
    rw [generateStream_of_clean h]

end CoreRun

-- ════════════════════════════════════════════════════════════════════════
-- The frames
-- ════════════════════════════════════════════════════════════════════════

/-- The accumulator of the receipt collects the pieces. -/
theorem SseState.foldl_take {chunks : List StreamChunk} (s : SseState)
    (h : ∀ chunk ∈ chunks, chunk.finishReason = none ∧ chunk.textDelta ≠ []) :
    chunks.foldl SseState.take s =
      { s with genParts := s.genParts ++ chunks.map StreamChunk.textDelta } := by
  induction chunks generalizing s with
  | nil => simp
  | cons chunk chunks ih =>
    obtain ⟨hreason, hdelta⟩ := h chunk (by simp)
    have htake : s.take chunk = { s with genParts := s.genParts ++ [chunk.textDelta] } := by
      simp [SseState.take, hreason, hdelta]
    rw [List.foldl_cons, htake, ih _ fun c hc => h c (by simp [hc])]
    simp

theorem delivered_append (frames frames' : List Frame) :
    delivered (frames ++ frames') = delivered frames ++ delivered frames' :=
  List.flatMap_append

theorem finalFrames_append (frames frames' : List Frame) :
    finalFrames (frames ++ frames') = finalFrames frames ++ finalFrames frames' :=
  List.filterMap_append

namespace ChatRequest

variable {req : ChatRequest} {att : Attestor ed} {run : CoreRun} {chunks : List StreamChunk}

theorem isChunk_of_mem : ∀ frame ∈ chunks.map fun chunk => Frame.chunk (req.data chunk),
    frame.isChunk = true := by
  intro frame hframe
  obtain ⟨chunk, -, rfl⟩ := List.mem_map.mp hframe
  rfl

/-- The frames of the pieces carry the pieces and no usage. -/
theorem delivered_map_data (req : ChatRequest) (h : ∀ chunk ∈ chunks, chunk.finishReason = none) :
    delivered (chunks.map fun chunk => Frame.chunk (req.data chunk)) =
        (chunks.map StreamChunk.textDelta).flatten ∧
      finalFrames (chunks.map fun chunk => Frame.chunk (req.data chunk)) = [] := by
  induction chunks with
  | nil => exact ⟨rfl, rfl⟩
  | cons chunk chunks ih =>
    have hreason : chunk.finishReason = none := h chunk (by simp)
    obtain ⟨hdelivered, hfinal⟩ := ih fun c hc => h c (by simp [hc])
    have hcontent : (Frame.chunk (req.data chunk)).content = chunk.textDelta := by
      simp [data, hreason, Frame.content]
    have hnone : (Frame.chunk (req.data chunk)).final = none := by
      simp [data, hreason, Frame.final]
    rw [delivered] at hdelivered
    rw [finalFrames] at hfinal
    constructor
    · rw [delivered, List.map_cons, List.flatMap_cons, hdelivered, hcontent]
      simp
    · rw [finalFrames, List.map_cons, List.filterMap_cons_none hnone, hfinal]

/-- The frames of a clean run with a last output. -/
theorem frames_of_clean (req : ChatRequest) (att : Attestor ed) (h : run.Clean) (hcum : run.Cumulative) {out : RequestOutput}
    (hout : run.received.finalOutput = some out) :
    req.frames att run =
      (run.received.chunks.map fun chunk => Frame.chunk (req.data chunk)) ++
        Frame.chunk (req.data out.finalChunk) ::
          ((if req.wantReceipt then
            [.omReceipt (req.receipt att out.text out.promptTokens out.completionTokens
              out.cachedTokens)]
          else []) ++ [.done]) := by
  have hstreams := CoreRun.received_streams h hcum
  have htext : run.received.prevText = out.text := (hstreams.last out hout).symm
  have hchunks : run.received.finish.chunks = run.received.chunks ++ [out.finalChunk] := by
    simp [Call.finish, hout]
  have hstate : (run.received.chunks ++ [out.finalChunk]).foldl SseState.take {} =
      { genParts := run.received.chunks.map StreamChunk.textDelta,
        finalUsage := some (out.promptTokens, out.completionTokens, out.cachedTokens) } := by
    rw [List.foldl_append, SseState.foldl_take _ hstreams.deltas]
    rfl
  rw [frames, sseGenerator, CoreRun.generateStream_of_clean h]
  simp only [hchunks, hstate, hstreams.text, htext, List.map_append, List.append_assoc]
  cases req.wantReceipt with
  | false => rfl
  | true => rfl

theorem agrees_of_finalOutput (h : run.Clean) (hcum : run.Cumulative) {out : RequestOutput}
    (hout : run.received.finalOutput = some out) : req.Agrees att run out.result := by
  have hstreams := CoreRun.received_streams h hcum
  have hreturned : run.generate = .ok out.result := by
    rw [CoreRun.generate_of_clean h, hout]
  obtain ⟨hpieces, hnone⟩ :=
    delivered_map_data req fun chunk hc => (hstreams.deltas chunk hc).1
  have hframes := frames_of_clean req att h hcum hout
  have hcontent : delivered (req.frames att run) = out.result.text := by
    rw [hframes, delivered_append, hpieces, hstreams.text, ← hstreams.last out hout]
    cases req.wantReceipt with
    | false => exact List.append_nil _
    | true => exact List.append_nil _
  have hfinal : finalFrames (req.frames att run) =
      [(some out.result.finishReason, out.result.usage)] := by
    rw [hframes, finalFrames_append, hnone]
    cases req.wantReceipt with
    | false => rfl
    | true => rfl
  refine ⟨hreturned, ?_, hcontent, hfinal, ?_⟩
  · rw [chatCompletion, hreturned]
    exact ⟨_, rfl, rfl, rfl, rfl⟩
  · refine ⟨(run.received.chunks.map fun chunk => Frame.chunk (req.data chunk)) ++
      [Frame.chunk (req.data out.finalChunk)], ?_, ?_⟩
    · intro frame hframe
      rcases List.mem_append.mp hframe with hframe | hframe
      · exact isChunk_of_mem frame hframe
      · obtain rfl := List.mem_singleton.mp hframe
        rfl
    · split_ifs with hwant
      · refine ⟨req.receipt att out.text out.promptTokens out.completionTokens out.cachedTokens,
          ?_, ?_⟩
        · rw [hframes, if_pos hwant]
          simp
        · intro final hmem
          rw [hfinal, List.mem_singleton] at hmem
          rw [hmem, hcontent]
          exact ⟨rfl, rfl, rfl, rfl⟩
      · rw [hframes, if_neg hwant]
        simp

/-- **Failure**: what the stream has sent is followed by the error and `[DONE]`. -/
theorem fails_of_raised {e : Raised} (he : run.generateStream.raised = some e)
    (hkind : e.kind ≠ .other) : req.Fails att run e := by
  refine ⟨run.generateStream.chunks.map fun chunk => Frame.chunk (req.data chunk),
    isChunk_of_mem, ?_⟩
  simp only [frames, sseGenerator, he, if_neg hkind]

/-- **Exact condition**: streamed and buffered responses agree, and the receipt attests what was
delivered, unless the outputs of a clean run end before there is one. -/
theorem faithful_iff (req : ChatRequest) (att : Attestor ed) {run : CoreRun}
    (hcum : run.Cumulative) : req.Faithful att run ↔ ¬ (run.Clean ∧ run.arrivals = []) := by
  constructor
  · rintro hfaithful ⟨hclean, hnil⟩
    obtain ⟨result, hagrees⟩ := hfaithful.1 hclean
    have hreturned := hagrees.returned
    rw [CoreRun.generate_of_clean hclean, CoreRun.received_finalOutput, hnil] at hreturned
    simp at hreturned
  · intro hnot
    refine ⟨fun hclean => ?_, fun e he hkind => fails_of_raised he hkind⟩
    have hne : run.arrivals.map Arrival.output ≠ [] := by
      simpa using fun hnil => hnot ⟨hclean, hnil⟩
    obtain ⟨out, hout⟩ := Option.isSome_iff_exists.mp (List.getLast?_isSome.mpr hne)
    rw [← CoreRun.received_finalOutput] at hout
    exact ⟨out.result, agrees_of_finalOutput hclean hcum hout⟩

/-- The event's frame; `message` is what the exception says. -/
def frameOf (req : ChatRequest) (att : Attestor ed) (message : String) : SseEvent → Frame
  | .delta content => .chunk (req.data { textDelta := content })
  | .final reason promptTokens completionTokens cachedTokens =>
    .chunk (req.data
      { textDelta := [], finishReason := some reason, promptTokens, completionTokens, cachedTokens })
  | .omReceipt body =>
    .omReceipt (req.receipt att body.text body.promptTokens body.completionTokens body.cachedTokens)
  | .error => .error message "server_error"
  | .done => .done

end ChatRequest

def ChunkStream.how (stream : ChunkStream) : StreamEnd :=
  match stream.raised with
  | none => .ended
  | some e => if e.kind = .other then .dropped else .raised

/-- The accumulators hold the pieces and the usage of the last final chunk. -/
theorem SseState.foldl_take_eq (chunks : List StreamChunk) (s : SseState) :
    (chunks.foldl SseState.take s).genParts.flatten =
        s.genParts.flatten ++ ((chunks.filter fun chunk => chunk.finishReason.isNone).map
          StreamChunk.textDelta).flatten ∧
      (chunks.foldl SseState.take s).finalUsage =
        (((chunks.filter fun chunk => chunk.finishReason.isSome).getLast?).map fun chunk =>
          (chunk.promptTokens, chunk.completionTokens, chunk.cachedTokens)).or s.finalUsage := by
  induction chunks generalizing s with
  | nil => simp
  | cons chunk chunks ih =>
    obtain ⟨hparts, husage⟩ := ih (s.take chunk)
    rw [List.foldl_cons, hparts, husage]
    cases hreason : chunk.finishReason with
    | none =>
      by_cases hdelta : chunk.textDelta = []
      · simp [SseState.take, hreason, hdelta]
      · simp [SseState.take, hreason, hdelta]
    | some reason =>
      refine ⟨by simp [SseState.take, hreason], ?_⟩
      have hlast : ((chunk :: chunks).filter fun chunk => chunk.finishReason.isSome).getLast? =
          ((chunks.filter fun chunk => chunk.finishReason.isSome).getLast?).or (some chunk) := by
        rw [List.filter_cons_of_pos (by simp [hreason]), List.getLast?_cons]
        cases (chunks.filter fun chunk => chunk.finishReason.isSome).getLast? <;> rfl
      rw [hlast]
      cases (chunks.filter fun chunk => chunk.finishReason.isSome).getLast? <;>
        simp [SseState.take, hreason]

namespace ChatRequest

variable {req : ChatRequest} {att : Attestor ed}

/-- **Events**: the frames are those of the events that the chunks give. -/
theorem sseGenerator_eq (stream : ChunkStream) :
    req.sseGenerator att stream =
      (Inference.sseGenerator req.wantReceipt stream.chunks stream.how).map
        (req.frameOf att ((stream.raised.map Raised.message).getD "")) := by
  have hdata : (fun chunk => Frame.chunk (req.data chunk)) =
      req.frameOf att ((stream.raised.map Raised.message).getD "") ∘ StreamChunk.event := by
    funext chunk
    cases hreason : chunk.finishReason with
    | none => simp [frameOf, StreamChunk.event, data, hreason]
    | some reason => simp [frameOf, StreamChunk.event, data, hreason, StreamChunk.usage]
  obtain ⟨hparts, husage⟩ := SseState.foldl_take_eq stream.chunks {}
  simp only [sseGenerator, Inference.sseGenerator, List.map_append, List.map_map, ← hdata,
    hparts, husage, ChunkStream.how]
  congr 1
  cases hraised : stream.raised with
  | none =>
    cases hwant : req.wantReceipt with
    | false => rfl
    | true =>
      simp only [streamReceipt]
      cases (stream.chunks.filter fun chunk => chunk.finishReason.isSome).getLast? with
      | none => rfl
      | some chunk => rfl
  | some e =>
    by_cases hkind : e.kind = .other
    · simp [hkind]
    · simp [hkind, frameOf]

/-- A request that wants its receipt. -/
def sample : ChatRequest := ⟨"m", "r", "00", true, "chatcmpl-0", 0⟩

/-- Its digest is that of `hi`. -/
def hiAttestor : Attestor default where
  signer := ⟨([7] : List UInt8)⟩
  sha256Hex _ := "8f434346648f6b96df89dda901c5176b10a6d83961dd3c1ac88b59b2dc327aa4"
  ts := 0

theorem faithful_twoOutputs :
    let run : CoreRun :=
      { available := true
        arrivals := [⟨true, { text := ['h'], promptTokens := 3, completionTokens := 1 }⟩,
          ⟨true, { text := ['h', 'i'], promptTokens := 3, completionTokens := 2 }⟩]
        how := .ended }
    run.Cumulative ∧ run.Clean ∧ sample.Faithful hiAttestor run := by
  intro run
  have hcum : run.Cumulative := by decide
  have hne : run.arrivals ≠ [] := by decide
  exact ⟨hcum, ⟨rfl, by decide, rfl⟩, (faithful_iff sample hiAttestor hcum).mpr fun h => hne h.2⟩

/-- The core ends without an output: a response is an error, a stream just `[DONE]`. -/
theorem noOutput_not_faithful :
    let run : CoreRun := { available := true, arrivals := [], how := .ended }
    run.Cumulative ∧ ¬ sample.Faithful hiAttestor run ∧ run.generate = .error noOutput ∧
      sample.frames hiAttestor run = [.done] := by
  intro run
  have hreturned : run.generate = .error noOutput := by decide
  refine ⟨by decide, fun h => ?_, hreturned, rfl⟩
  obtain ⟨result, hagrees⟩ := h.1 ⟨rfl, by decide, rfl⟩
  have hresult := hagrees.returned
  rw [hreturned] at hresult
  simp at hresult

end ChatRequest

end OpenModel.Inference
