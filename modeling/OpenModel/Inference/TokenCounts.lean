import OpenModel.Inference.Streaming

/-!
# Token counts

The counts that are reported come from the last output of the core: the lengths of two lists that
may be missing, and `num_cached_tokens`, whatever it is. `_extract_cached_tokens` takes a negative
number and what `int()` refuses for 0, and cuts the rest to the length of the prompt, unless that
is 0. `generate` and `generate_stream` have a copy each of what is around it; the API copies the
counts into the usage and into the receipt.

An exception of `int()` that is no `TypeError` or `ValueError` fails the request. Everything else
is what the engine does on outputs that have their counts already.

## Main results

- `VllmRun.generate_eq`, `VllmRun.generateStream_eq`: the engine on outputs with their counts
- `ChatRequest.coherent_iff`: what is reported is coherent unless the prompt of the last output is
  empty and its cached tokens are not
-/

namespace OpenModel.Inference

/-- `except (TypeError, ValueError)`. -/
def Raised.isConversionError (e : Raised) : Bool :=
  e.kind = .valueError || e.typeName = "TypeError"

/-- An output of the core. A list that is missing or `None` is `none`. -/
structure VllmOutput where
  text : List Char
  promptTokenIds : Option (List Nat)
  tokenIds : Option (List Nat)
  /-- what `int()` makes of it, unless it is missing or `None` -/
  numCachedTokens : Option (Except Raised Int)
  finishReason : Option String := none

namespace VllmOutput

def promptTokens (out : VllmOutput) : Nat := (out.promptTokenIds.getD []).length

def completionTokens (out : VllmOutput) : Nat := (out.tokenIds.getD []).length

def extractCachedTokens (out : VllmOutput) (promptTokens : Nat) : Except Raised Int :=
  match out.numCachedTokens with
  | none => .ok 0
  | some (.error e) => if e.isConversionError then .ok 0 else .error e
  | some (.ok n) =>
    if n < 0 then .ok 0
    else if promptTokens ≠ 0 ∧ n > promptTokens then .ok promptTokens
    else .ok n

/-- The output with its counts. -/
def counted (out : VllmOutput) : RequestOutput where
  text := out.text
  promptTokens := out.promptTokens
  completionTokens := out.completionTokens
  numCachedTokens := out.numCachedTokens.bind Except.toOption
  finishReason := out.finishReason

/-- What `generate` makes of the last output. -/
def result (out : VllmOutput) : Except Raised GenerateResult := do
  let cachedTokens ← out.extractCachedTokens out.promptTokens
  return {
    text := out.text
    promptTokens := out.promptTokens
    completionTokens := out.completionTokens
    finishReason := out.counted.reportedReason
    cachedTokens := cachedTokens.toNat }

/-- What `generate_stream` makes of the last output. -/
def finalChunk (out : VllmOutput) : Except Raised StreamChunk := do
  let cachedTokens ← out.extractCachedTokens out.promptTokens
  return {
    textDelta := []
    finishReason := some out.counted.reportedReason
    promptTokens := out.promptTokens
    completionTokens := out.completionTokens
    cachedTokens := cachedTokens.toNat }

/-- `int()` raises what is not caught. -/
def Refuses (out : VllmOutput) (e : Raised) : Prop :=
  out.numCachedTokens = some (.error e) ∧ e.isConversionError = false

/-- There are no prompt tokens but cached ones. -/
def Overcounts (out : VllmOutput) : Prop :=
  out.promptTokens = 0 ∧ ∃ n > 0, out.numCachedTokens = some (.ok n)

variable {out : VllmOutput} {e : Raised}

theorem extractCachedTokens_of_refuses (h : out.Refuses e) (promptTokens : Nat) :
    out.extractCachedTokens promptTokens = .error e := by
  simp [extractCachedTokens, h.1, h.2]

/-- Otherwise the number is that of the output with its counts. -/
theorem extractCachedTokens_of_not_refuses (h : ∀ e, ¬ out.Refuses e) :
    out.extractCachedTokens out.promptTokens = .ok (out.counted.cachedTokens : Int) := by
  unfold extractCachedTokens RequestOutput.cachedTokens Inference.extractCachedTokens counted
  cases hn : out.numCachedTokens with
  | none => rfl
  | some r =>
    cases r with
    | error e =>
      have hcaught : e.isConversionError = true := by
        by_contra hcaught
        exact h e ⟨hn, by simpa using hcaught⟩
      simp [hcaught, Except.toOption]
    | ok n =>
      simp only [Option.bind_some, Except.toOption]
      split_ifs
      · rfl
      · rfl
      · rw [Int.toNat_of_nonneg (by omega)]

theorem result_of_refuses (h : out.Refuses e) : out.result = .error e := by
  rw [result, extractCachedTokens_of_refuses h]
  rfl

theorem result_of_not_refuses (h : ∀ e, ¬ out.Refuses e) : out.result = .ok out.counted.result := by
  rw [result, extractCachedTokens_of_not_refuses h]
  rfl

theorem finalChunk_of_refuses (h : out.Refuses e) : out.finalChunk = .error e := by
  rw [finalChunk, extractCachedTokens_of_refuses h]
  rfl

theorem finalChunk_of_not_refuses (h : ∀ e, ¬ out.Refuses e) :
    out.finalChunk = .ok out.counted.finalChunk := by
  rw [finalChunk, extractCachedTokens_of_not_refuses h]
  rfl

/-- **The bound**: more tokens are cached than the prompt has only where there is no prompt. -/
theorem cachedTokens_le_iff : out.counted.cachedTokens ≤ out.promptTokens ↔ ¬ out.Overcounts := by
  unfold RequestOutput.cachedTokens Inference.extractCachedTokens counted Overcounts
  cases hn : out.numCachedTokens with
  | none => simp
  | some r =>
    cases r with
    | error e => simp [Except.toOption]
    | ok n =>
      simp only [Option.bind_some, Except.toOption]
      split_ifs <;> simp <;> omega

end VllmOutput

/-! ### The two copies in the engine -/

/-- An output, and whether the engine is RUNNING when it comes. -/
structure VllmArrival where
  running : Bool
  output : VllmOutput

/-- What one call meets. -/
structure VllmRun where
  available : Bool
  arrivals : List VllmArrival
  how : CoreEnd

/-- The variables of `generate_stream`. -/
structure VllmCall where
  finalOutput : Option VllmOutput := none
  prevText : List Char := []
  chunks : List StreamChunk := []

/-- The loop of `generate`, from the value of `final_output`. -/
def VllmRun.lastOutput (finalOutput : Option VllmOutput) :
    List VllmArrival → CoreEnd → Except Raised (Option VllmOutput)
  | [], how =>
    match how.exception with
    | none => .ok finalOutput
    | some e => .error e
  | arrival :: arrivals, how =>
    if arrival.running then lastOutput (some arrival.output) arrivals how
    else .error pausedDuringGeneration

namespace VllmCall

/-- An output passes the state check. -/
def receive (c : VllmCall) (out : VllmOutput) : VllmCall :=
  let delta := out.text.drop c.prevText.length
  { finalOutput := some out
    prevText := out.text
    chunks := c.chunks ++ if delta = [] then [] else [{ textDelta := delta }] }

/-- The loop of `generate_stream`. -/
def iterate (c : VllmCall) : List VllmArrival → CoreEnd → VllmCall × Option Raised
  | [], how => (c, how.exception)
  | arrival :: arrivals, how =>
    if arrival.running then (c.receive arrival.output).iterate arrivals how
    else (c, some pausedDuringGeneration)

end VllmCall

namespace VllmRun

def generate (run : VllmRun) : Except Raised GenerateResult :=
  if run.available = false then .error notAvailable
  else
    match lastOutput none run.arrivals run.how with
    | .error e => .error e.surfaced
    | .ok none => .error noOutput.surfaced
    | .ok (some out) => out.result.mapError Raised.surfaced

def generateStream (run : VllmRun) : ChunkStream :=
  if run.available = false then ⟨[], some notAvailable⟩
  else
    match VllmCall.iterate {} run.arrivals run.how with
    | (c, some e) => ⟨c.chunks, some e.surfaced⟩
    | (c, none) =>
      match c.finalOutput with
      | none => ⟨c.chunks, none⟩
      | some out =>
        match out.finalChunk with
        | .ok chunk => ⟨c.chunks ++ [chunk], none⟩
        | .error e => ⟨c.chunks, some e.surfaced⟩

end VllmRun

def VllmArrival.counted (arrival : VllmArrival) : Arrival :=
  ⟨arrival.running, arrival.output.counted⟩

/-- The call on outputs with their counts. -/
def VllmCall.counted (c : VllmCall) : Call where
  finalOutput := c.finalOutput.map VllmOutput.counted
  prevText := c.prevText
  chunks := c.chunks

theorem VllmCall.counted_iterate (c : VllmCall) (arrivals : List VllmArrival) (how : CoreEnd) :
    c.counted.iterate (arrivals.map VllmArrival.counted) how =
      ((c.iterate arrivals how).1.counted, (c.iterate arrivals how).2) := by
  induction arrivals generalizing c with
  | nil => rfl
  | cons arrival arrivals ih =>
    rw [List.map_cons, Call.iterate, VllmCall.iterate]
    by_cases hrunning : arrival.running = true
    · rw [if_pos hrunning, if_pos (show arrival.counted.running = true from hrunning)]
      exact ih (c.receive arrival.output)
    · rw [if_neg hrunning, if_neg (show ¬ arrival.counted.running = true from hrunning)]

/-- The two loops end with the same output, or the same exception. -/
theorem VllmRun.lastOutput_eq (c : VllmCall) (arrivals : List VllmArrival) (how : CoreEnd) :
    lastOutput c.finalOutput arrivals how =
      match c.iterate arrivals how with
      | (c', none) => .ok c'.finalOutput
      | (_, some e) => .error e := by
  induction arrivals generalizing c with
  | nil =>
    rw [lastOutput, VllmCall.iterate]
    cases how.exception <;> rfl
  | cons arrival arrivals ih =>
    rw [lastOutput, VllmCall.iterate]
    split
    · exact ih (c.receive arrival.output)
    · rfl

namespace VllmRun

/-- The run on outputs with their counts. -/
def counted (run : VllmRun) : CoreRun where
  available := run.available
  arrivals := run.arrivals.map VllmArrival.counted
  how := run.how

/-- The engine stays RUNNING, the outputs end, and this one is the last. -/
structure Ends (run : VllmRun) (out : VllmOutput) : Prop where
  clean : run.counted.Clean
  last : (run.arrivals.map VllmArrival.output).getLast? = some out

variable {run : VllmRun} {out : VllmOutput} {e : Raised}

theorem finalOutput_iterate {c c' : VllmCall} {arrivals : List VllmArrival} {how : CoreEnd}
    (h : c.iterate arrivals how = (c', none)) :
    c'.finalOutput = (arrivals.map VllmArrival.output).getLast?.or c.finalOutput := by
  induction arrivals generalizing c with
  | nil =>
    obtain ⟨rfl, -⟩ := Prod.mk.inj h
    rfl
  | cons arrival arrivals ih =>
    rw [VllmCall.iterate] at h
    split at h
    · rw [ih h, List.map_cons, List.getLast?_cons]
      cases (arrivals.map VllmArrival.output).getLast? <;> rfl
    · cases h

/-- The loop of the run on outputs with their counts. -/
theorem counted_loop (run : VllmRun) :
    Call.iterate {} run.counted.arrivals run.counted.how =
      ((VllmCall.iterate {} run.arrivals run.how).1.counted,
        (VllmCall.iterate {} run.arrivals run.how).2) :=
  VllmCall.counted_iterate {} run.arrivals run.how

/-- A run whose loop ends is clean, and the last output is the last one that came. -/
theorem clean_of_iterate (havail : run.available = true) {c : VllmCall}
    (h : VllmCall.iterate {} run.arrivals run.how = (c, none)) :
    run.counted.Clean ∧ c.counted = run.counted.received ∧
      c.finalOutput = (run.arrivals.map VllmArrival.output).getLast? := by
  have hcounted := run.counted_loop
  rw [h] at hcounted
  obtain ⟨hrunning, hended⟩ := Call.running_of_iterate hcounted
  have hclean : run.counted.Clean := ⟨havail, hrunning, hended⟩
  rw [CoreRun.iterate_of_clean hclean] at hcounted
  refine ⟨hclean, (Prod.mk.inj hcounted).1.symm, ?_⟩
  rw [finalOutput_iterate h, Option.or_none]

theorem iterate_of_ends (h : run.Ends out) :
    ∃ c, VllmCall.iterate {} run.arrivals run.how = (c, none) ∧ c.finalOutput = some out ∧
      c.chunks = run.counted.received.chunks := by
  have hcounted := run.counted_loop
  rw [CoreRun.iterate_of_clean h.clean] at hcounted
  cases hiter : VllmCall.iterate {} run.arrivals run.how with
  | mk c raised =>
    rw [hiter] at hcounted
    obtain ⟨-, rfl⟩ := Prod.mk.inj hcounted
    obtain ⟨-, hreceived, hlast⟩ := clean_of_iterate h.clean.available hiter
    exact ⟨c, rfl, hlast.trans h.last, by rw [← hreceived]; rfl⟩

/-- The loop raises, or the run is over with the last output there was. -/
theorem iterate_cases (havail : run.available = true) :
    (∃ c e, VllmCall.iterate {} run.arrivals run.how = (c, some e)) ∨
      ∃ c, VllmCall.iterate {} run.arrivals run.how = (c, none) ∧
        ∀ out, c.finalOutput = some out → run.Ends out := by
  cases hiter : VllmCall.iterate {} run.arrivals run.how with
  | mk c raised =>
    cases raised with
    | some e => exact .inl ⟨c, e, rfl⟩
    | none =>
      obtain ⟨hclean, -, hlast⟩ := clean_of_iterate havail hiter
      exact .inr ⟨c, rfl, fun out hfinal => ⟨hclean, by rw [← hlast, hfinal]⟩⟩

/-- **The engine on outputs with their counts** is what the engine is, unless the number of the
last output raises. -/
theorem generateStream_eq (h : ∀ out e, run.Ends out → ¬ out.Refuses e) :
    run.generateStream = run.counted.generateStream := by
  unfold generateStream CoreRun.generateStream
  rw [run.counted_loop]
  by_cases havail : run.available = true
  · rw [if_neg (by simp [havail]), if_neg (by simp [counted, havail])]
    obtain ⟨c, e, hiter⟩ | ⟨c, hiter, hends⟩ := iterate_cases havail
    · rw [hiter]
      rfl
    · rw [hiter]
      cases hfinal : c.finalOutput with
      | none => simp [VllmCall.counted, Call.finish, hfinal]
      | some out =>
        simp [VllmCall.counted, Call.finish, hfinal,
          VllmOutput.finalChunk_of_not_refuses fun e => h out e (hends out hfinal)]
  · rw [if_pos (by simpa using havail), if_pos (by simpa [counted] using havail)]

theorem generateStream_of_refuses (hends : run.Ends out) (h : out.Refuses e) :
    run.generateStream = ⟨run.counted.received.chunks, some e.surfaced⟩ := by
  obtain ⟨c, hiter, hfinal, hchunks⟩ := iterate_of_ends hends
  have havail : run.available = true := hends.clean.available
  simp [generateStream, havail, hiter, hfinal, VllmOutput.finalChunk_of_refuses h, hchunks]

theorem generate_eq (h : ∀ out e, run.Ends out → ¬ out.Refuses e) :
    run.generate = run.counted.generate := by
  have hloop := lastOutput_eq {} run.arrivals run.how
  have hcounted := CoreRun.lastOutput_eq {} run.counted.arrivals run.counted.how
  rw [run.counted_loop] at hcounted
  unfold generate CoreRun.generate
  rw [show lastOutput none _ _ = _ from hloop, show Inference.lastOutput none _ _ = _ from hcounted]
  by_cases havail : run.available = true
  · rw [if_neg (by simp [havail]), if_neg (by simp [counted, havail])]
    obtain ⟨c, e, hiter⟩ | ⟨c, hiter, hends⟩ := iterate_cases havail
    · rw [hiter]
    · rw [hiter]
      cases hfinal : c.finalOutput with
      | none => simp [VllmCall.counted, hfinal]
      | some out =>
        simp [VllmCall.counted, hfinal, Except.mapError,
          VllmOutput.result_of_not_refuses fun e => h out e (hends out hfinal)]
  · rw [if_pos (by simpa using havail), if_pos (by simpa [counted] using havail)]

theorem generate_of_refuses (hends : run.Ends out) (h : out.Refuses e) :
    run.generate = .error e.surfaced := by
  obtain ⟨c, hiter, hfinal, -⟩ := iterate_of_ends hends
  have hloop := lastOutput_eq {} run.arrivals run.how
  have havail : run.available = true := hends.clean.available
  rw [hiter] at hloop
  rw [generate, if_neg (by simp [havail]), show lastOutput none _ _ = _ from hloop]
  simp [hfinal, VllmOutput.result_of_refuses h, Except.mapError]

end VllmRun

/-! ### What the API reports -/

/-- The chunks with usage. -/
def ChunkStream.finals (stream : ChunkStream) : List StreamChunk :=
  stream.chunks.filter fun chunk => chunk.finishReason.isSome

/-- The text of the other chunks. -/
def ChunkStream.pieces (stream : ChunkStream) : List Char :=
  ((stream.chunks.filter fun chunk => chunk.finishReason.isNone).map StreamChunk.textDelta).flatten

/-- The pieces have no usage. -/
theorem Call.plain_iterate {c : Call} {arrivals : List Arrival} {how : CoreEnd}
    (h : ∀ chunk ∈ c.chunks, chunk.finishReason = none) :
    ∀ chunk ∈ (c.iterate arrivals how).1.chunks, chunk.finishReason = none := by
  induction arrivals generalizing c with
  | nil => exact h
  | cons arrival arrivals ih =>
    rw [Call.iterate]
    split
    · refine ih fun chunk hchunk => ?_
      rcases List.mem_append.mp hchunk with hchunk | hchunk
      · exact h chunk hchunk
      · split_ifs at hchunk
        · cases hchunk
        · rw [List.mem_singleton.mp hchunk]
    · exact h

theorem filter_plain {chunks : List StreamChunk} (h : ∀ chunk ∈ chunks, chunk.finishReason = none) :
    (chunks.filter fun chunk => chunk.finishReason.isSome) = [] := by
  rw [List.filter_eq_nil_iff]
  intro chunk hchunk
  simp [h chunk hchunk]

namespace CoreRun

variable {run : CoreRun}

theorem plain_loop (run : CoreRun) :
    ∀ chunk ∈ (Call.iterate {} run.arrivals run.how).1.chunks, chunk.finishReason = none :=
  Call.plain_iterate (by simp)

theorem filter_received (h : run.Clean) :
    (run.received.chunks.filter fun chunk => chunk.finishReason.isSome) = [] := by
  have hplain := run.plain_loop
  rw [iterate_of_clean h] at hplain
  exact filter_plain hplain

theorem finals_of_clean (h : run.Clean) :
    run.generateStream.finals =
      (run.arrivals.map Arrival.output).getLast?.toList.map RequestOutput.finalChunk := by
  rw [generateStream_of_clean h, ChunkStream.finals, Call.finish, received_finalOutput]
  cases (run.arrivals.map Arrival.output).getLast? with
  | none => exact filter_received h
  | some out => simp [filter_received h, RequestOutput.finalChunk]

/-- Only a clean run returns a result. -/
theorem clean_of_generate {result : GenerateResult} (h : run.generate = .ok result) :
    run.Clean := by
  have hloop := lastOutput_eq {} run.arrivals run.how
  rw [generate, show lastOutput none _ _ = _ from hloop] at h
  split_ifs at h with havail
  cases hiter : Call.iterate {} run.arrivals run.how with
  | mk c raised =>
    rw [hiter] at h
    cases raised with
    | some e => cases h
    | none =>
      obtain ⟨hrunning, hended⟩ := Call.running_of_iterate hiter
      exact ⟨by simpa using havail, hrunning, hended⟩

theorem finals_of_not_clean (h : ¬ run.Clean) : run.generateStream.finals = [] := by
  have hplain := run.plain_loop
  have hraised : run.generateStream.raised ≠ none := mt raised_eq_none_iff.mp h
  rw [generateStream] at hraised ⊢
  split_ifs at hraised ⊢
  · rfl
  · cases hiter : Call.iterate {} run.arrivals run.how with
    | mk c raised =>
      rw [hiter] at hraised hplain
      cases raised with
      | none => exact absurd rfl hraised
      | some e => exact filter_plain hplain

end CoreRun

namespace ChatRequest

variable {ed : Ed25519} {att : Attestor ed} {req : ChatRequest} {stream : ChunkStream}

/-- What follows the chunks: no text and no usage, and a receipt only with the usage of the last
final chunk. -/
theorem exists_tail (req : ChatRequest) (att : Attestor ed) (stream : ChunkStream) :
    ∃ tail, req.sseGenerator att stream =
        (stream.chunks.map fun chunk => Frame.chunk (req.data chunk)) ++ tail ∧
      (∀ frame ∈ tail, frame.content = [] ∧ frame.final = none) ∧
      ∀ rcpt, Frame.omReceipt rcpt ∈ tail → stream.raised = none ∧
        ∃ chunk, stream.finals.getLast? = some chunk ∧
          rcpt = req.receipt att stream.pieces chunk.promptTokens chunk.completionTokens
            chunk.cachedTokens := by
  obtain ⟨hparts, husage⟩ := SseState.foldl_take_eq stream.chunks {}
  refine ⟨_, rfl, ?_⟩
  cases hraised : stream.raised with
  | some e =>
    dsimp only
    split_ifs <;> simp [Frame.content, Frame.final]
  | none =>
    simp only [husage, hparts]
    cases hlast : stream.finals.getLast? with
    | none =>
      rw [ChunkStream.finals] at hlast
      rw [hlast]
      cases req.wantReceipt <;> simp [Frame.content, Frame.final]
    | some chunk =>
      rw [ChunkStream.finals] at hlast
      rw [hlast]
      cases req.wantReceipt <;> simp [Frame.content, Frame.final, ChunkStream.pieces]

theorem finalFrames_map_data (req : ChatRequest) (chunks : List StreamChunk) :
    finalFrames (chunks.map fun chunk => Frame.chunk (req.data chunk)) =
      (chunks.filter fun chunk => chunk.finishReason.isSome).map fun chunk =>
        (chunk.finishReason, chunk.usage) := by
  induction chunks with
  | nil => rfl
  | cons chunk chunks ih =>
    rw [finalFrames] at ih
    rw [List.map_cons, finalFrames, List.filterMap_cons, ih]
    cases hreason : chunk.finishReason with
    | none => simp [data, Frame.final, hreason]
    | some reason => simp [data, Frame.final, hreason]

theorem delivered_map (req : ChatRequest) (chunks : List StreamChunk) :
    delivered (chunks.map fun chunk => Frame.chunk (req.data chunk)) =
      ((chunks.filter fun chunk => chunk.finishReason.isNone).map
        StreamChunk.textDelta).flatten := by
  induction chunks with
  | nil => rfl
  | cons chunk chunks ih =>
    rw [delivered] at ih
    rw [List.map_cons, delivered, List.flatMap_cons, ih]
    cases hreason : chunk.finishReason with
    | none => simp [data, Frame.content, hreason]
    | some reason => simp [data, Frame.content, hreason]

theorem finalFrames_sseGenerator (req : ChatRequest) (att : Attestor ed) (stream : ChunkStream) :
    finalFrames (req.sseGenerator att stream) =
      stream.finals.map fun chunk => (chunk.finishReason, chunk.usage) := by
  obtain ⟨tail, hframes, htail, -⟩ := req.exists_tail att stream
  have hnone : finalFrames tail = [] :=
    List.filterMap_eq_nil_iff.mpr fun frame hframe => (htail frame hframe).2
  rw [hframes, finalFrames_append, finalFrames_map_data, hnone, List.append_nil, ChunkStream.finals]

theorem delivered_sseGenerator (req : ChatRequest) (att : Attestor ed) (stream : ChunkStream) :
    delivered (req.sseGenerator att stream) = stream.pieces := by
  obtain ⟨tail, hframes, htail, -⟩ := req.exists_tail att stream
  have hnone : delivered tail = [] :=
    List.flatMap_eq_nil_iff.mpr fun frame hframe => (htail frame hframe).1
  rw [hframes, delivered_append, delivered_map, hnone, List.append_nil, ChunkStream.pieces]

/-- A receipt of a stream is for what the stream delivers and for its last usage. -/
theorem attests_of_mem (att : Attestor ed) {rcpt : JsonValue}
    (h : Frame.omReceipt rcpt ∈ req.sseGenerator att stream) :
    ∃ chunk, stream.finals.getLast? = some chunk ∧
      Attests att rcpt (delivered (req.sseGenerator att stream)) chunk.usage := by
  obtain ⟨tail, hframes, -, hreceipt⟩ := req.exists_tail att stream
  rw [hframes] at h
  rcases List.mem_append.mp h with h | h
  · obtain ⟨chunk, -, hchunk⟩ := List.mem_map.mp h
    cases hchunk
  · obtain ⟨-, chunk, hlast, rfl⟩ := hreceipt rcpt h
    rw [delivered_sseGenerator]
    exact ⟨chunk, hlast, rfl, rfl, rfl, rfl⟩

/-- What the API makes of the value or the exception of `generate`. -/
def respond (req : ChatRequest) (att : Attestor ed) (returned : Except Raised GenerateResult) :
    Except HttpError CompletionResponse :=
  match returned with
  | .ok result =>
    .ok
      { model := req.model
        content := result.text
        finishReason := result.finishReason
        usage := result.usage
        receipt := req.receipt att result.text result.promptTokens result.completionTokens
          result.cachedTokens }
  | .error e =>
    match e.kind with
    | .runtimeError => .error (.http 503 e.message)
    | .valueError =>
      if isContextLengthError e then .error (.http 400 ("context length exceeded: " ++ e.message))
      else .error (.unhandled e)
    | .other => .error (.unhandled e)

theorem chatCompletion_eq (req : ChatRequest) (att : Attestor ed) (run : CoreRun) :
    req.chatCompletion att run = req.respond att run.generate := rfl

theorem respond_eq_ok {returned : Except Raised GenerateResult} {response : CompletionResponse}
    (h : req.respond att returned = .ok response) :
    ∃ result, returned = .ok result ∧ response.usage = result.usage ∧
      Attests att response.receipt response.content response.usage := by
  cases returned with
  | ok result =>
    cases h
    exact ⟨result, rfl, rfl, rfl, rfl, rfl, rfl⟩
  | error e =>
    unfold respond at h
    cases hkind : e.kind <;> simp only [hkind] at h
    case valueError => split_ifs at h
    all_goals cases h

end ChatRequest

/-- No more tokens are cached than there are in the prompt, and the total is the sum. -/
structure Usage.Coherent (usage : Usage) : Prop where
  cached : usage.cachedTokens ≤ usage.promptTokens
  total : usage.totalTokens = usage.promptTokens + usage.completionTokens

namespace ChatRequest

variable {ed : Ed25519}

/-- What is reported, on either path, is coherent, and the receipt has the counts of the usage. -/
structure Coherent (req : ChatRequest) (att : Attestor ed) (run : VllmRun) : Prop where
  response : ∀ response, req.respond att run.generate = .ok response →
    response.usage.Coherent ∧ Attests att response.receipt response.content response.usage
  stream : ∀ final ∈ finalFrames (req.sseGenerator att run.generateStream), final.2.Coherent
  receipt : ∀ rcpt, Frame.omReceipt rcpt ∈ req.sseGenerator att run.generateStream →
    ∃ final, finalFrames (req.sseGenerator att run.generateStream) = [final] ∧
      Attests att rcpt (delivered (req.sseGenerator att run.generateStream)) final.2

/-- Both paths report. -/
def Reports (req : ChatRequest) (att : Attestor ed) (run : VllmRun) : Prop :=
  (∃ response, req.respond att run.generate = .ok response) ∧
    finalFrames (req.sseGenerator att run.generateStream) ≠ []

/-- Neither path reports. -/
def Silent (req : ChatRequest) (att : Attestor ed) (run : VllmRun) : Prop :=
  (∀ response, req.respond att run.generate ≠ .ok response) ∧
    finalFrames (req.sseGenerator att run.generateStream) = []

end ChatRequest

namespace VllmRun

variable {run : VllmRun} {out : VllmOutput}

theorem Ends.eq {out' : VllmOutput} (h : run.Ends out) (h' : run.Ends out') : out = out' :=
  Option.some.inj (h.last.symm.trans h'.last)

theorem Ends.counted_last (h : run.Ends out) :
    (run.counted.arrivals.map Arrival.output).getLast? = some out.counted := by
  have hmap : run.counted.arrivals.map Arrival.output =
      (run.arrivals.map VllmArrival.output).map VllmOutput.counted := by
    simp [counted, VllmArrival.counted]
  rw [hmap, List.getLast?_map, h.last, Option.map_some]

/-- What both paths make of the last output. -/
theorem reported_of_ends (hends : run.Ends out) (h : ∀ e, ¬ out.Refuses e) :
    run.generate = .ok out.counted.result ∧
      run.generateStream.finals = [out.counted.finalChunk] := by
  have hnot : ∀ out e, run.Ends out → ¬ out.Refuses e := fun out' e hends' =>
    hends.eq hends' ▸ h e
  rw [generate_eq hnot, generateStream_eq hnot, CoreRun.generate_of_clean hends.clean,
    CoreRun.finals_of_clean hends.clean, CoreRun.received_finalOutput, hends.counted_last]
  exact ⟨rfl, rfl⟩

/-- Otherwise there is no result and no usage. -/
theorem silent_of_not_ends (h : ∀ out, run.Ends out → ∃ e, out.Refuses e) :
    (∀ result, run.generate ≠ .ok result) ∧ run.generateStream.finals = [] := by
  by_cases hends : ∃ out, run.Ends out
  · obtain ⟨out, hends⟩ := hends
    obtain ⟨e, he⟩ := h out hends
    rw [generate_of_refuses hends he, generateStream_of_refuses hends he]
    exact ⟨nofun, CoreRun.filter_received hends.clean⟩
  · have hnot : ∀ out e, run.Ends out → ¬ out.Refuses e := fun out e hout =>
      absurd ⟨out, hout⟩ hends
    rw [generate_eq hnot, generateStream_eq hnot]
    by_cases hclean : run.counted.Clean
    · have hlast : (run.counted.arrivals.map Arrival.output).getLast? = none := by
        by_contra hsome
        obtain ⟨arrival, harrival⟩ : ∃ arrival, run.arrivals.getLast? = some arrival := by
          rw [← Option.isSome_iff_exists, List.getLast?_isSome]
          rintro hnil
          exact hsome (by simp [counted, hnil])
        exact hends ⟨arrival.output, hclean, by simp [List.getLast?_map, harrival]⟩
      rw [CoreRun.generate_of_clean hclean, CoreRun.finals_of_clean hclean,
        CoreRun.received_finalOutput, hlast]
      exact ⟨nofun, rfl⟩
    · exact ⟨fun result hresult => hclean (CoreRun.clean_of_generate hresult),
        CoreRun.finals_of_not_clean hclean⟩

end VllmRun

theorem VllmOutput.Overcounts.not_refuses {out : VllmOutput} (h : out.Overcounts) (e : Raised) :
    ¬ out.Refuses e := by
  obtain ⟨-, n, -, hn⟩ := h
  rintro ⟨he, -⟩
  rw [hn] at he
  cases he

namespace ChatRequest

variable {ed : Ed25519}

variable {run : VllmRun} {out : VllmOutput}

/-- A reported usage is that of the last output. -/
theorem coherent_of_ends (req : ChatRequest) (att : Attestor ed) (hends : run.Ends out)
    (hnot : ∀ e, ¬ out.Refuses e) (husage : out.counted.result.usage.Coherent) :
    req.Coherent att run := by
  have hframes := req.finalFrames_sseGenerator att run.generateStream
  obtain ⟨hresult, hfinals⟩ := VllmRun.reported_of_ends hends hnot
  rw [hfinals, List.map_singleton] at hframes
  refine ⟨fun response hresponse => ?_, fun final hfinal => ?_, fun rcpt hrcpt => ?_⟩
  · obtain ⟨result, heq, hsame, hattests⟩ := respond_eq_ok hresponse
    rw [hresult] at heq
    obtain rfl := Except.ok.inj heq
    exact ⟨hsame ▸ husage, hattests⟩
  · rw [hframes, List.mem_singleton] at hfinal
    rw [hfinal]
    exact husage
  · obtain ⟨chunk, hlast, hattests⟩ := attests_of_mem att hrcpt
    rw [hfinals] at hlast
    obtain rfl := Option.some.inj hlast
    exact ⟨_, hframes, hattests⟩

theorem reports_of_ends (req : ChatRequest) (att : Attestor ed) (hends : run.Ends out)
    (hnot : ∀ e, ¬ out.Refuses e) : req.Reports att run := by
  obtain ⟨hresult, hfinals⟩ := VllmRun.reported_of_ends hends hnot
  refine ⟨⟨_, by rw [hresult]; rfl⟩, ?_⟩
  rw [finalFrames_sseGenerator, hfinals]
  simp

theorem silent_of_not_ends (req : ChatRequest) (att : Attestor ed)
    (h : ∀ out, run.Ends out → ∃ e, out.Refuses e) : req.Silent att run := by
  obtain ⟨hresult, hfinals⟩ := VllmRun.silent_of_not_ends h
  refine ⟨fun response hresponse => ?_, by rw [finalFrames_sseGenerator, hfinals]; rfl⟩
  obtain ⟨result, heq, -⟩ := respond_eq_ok hresponse
  exact hresult result heq

/-- What is not reported is coherent. -/
theorem coherent_of_silent {req : ChatRequest} {att : Attestor ed} (h : req.Silent att run) :
    req.Coherent att run := by
  refine ⟨fun response hresponse => absurd hresponse (h.1 response), fun final hfinal => ?_,
    fun rcpt hrcpt => ?_⟩
  · rw [h.2] at hfinal
    cases hfinal
  · obtain ⟨chunk, hlast, -⟩ := attests_of_mem att hrcpt
    have hfinals := h.2
    rw [finalFrames_sseGenerator, List.map_eq_nil_iff] at hfinals
    rw [hfinals] at hlast
    cases hlast

/-- **Coherent counts**: what is reported is coherent exactly if the last output does not have
cached tokens without a prompt; and both paths report it unless `int()` raises what is not
caught. -/
theorem coherent_iff (req : ChatRequest) (att : Attestor ed) (run : VllmRun) :
    (req.Coherent att run ↔ ∀ out, run.Ends out → ¬ out.Overcounts) ∧
      ((∃ out, run.Ends out ∧ ∀ e, ¬ out.Refuses e) → req.Reports att run) ∧
      ((∀ out, run.Ends out → ∃ e, out.Refuses e) → req.Silent att run) := by
  refine ⟨⟨fun h out hends hover => ?_, fun h => ?_⟩, ?_, req.silent_of_not_ends att⟩
  · obtain ⟨hresult, -⟩ := VllmRun.reported_of_ends hends hover.not_refuses
    have hcoherent := (h.response _ (by rw [hresult]; rfl)).1.cached
    exact VllmOutput.cachedTokens_le_iff.mp hcoherent hover
  · by_cases hreported : ∃ out, run.Ends out ∧ ∀ e, ¬ out.Refuses e
    · obtain ⟨out, hends, hnot⟩ := hreported
      have husage : out.counted.result.usage.Coherent :=
        ⟨VllmOutput.cachedTokens_le_iff.mpr (h out hends), rfl⟩
      exact req.coherent_of_ends att hends hnot husage
    · refine coherent_of_silent (req.silent_of_not_ends att fun out hends => ?_)
      by_contra hnot
      exact hreported ⟨out, hends, fun e he => hnot ⟨e, he⟩⟩
  · rintro ⟨out, hends, hnot⟩
    exact req.reports_of_ends att hends hnot

/-- An output without its prompt, of whose tokens five are cached. -/
def withoutPrompt : VllmRun where
  available := true
  arrivals := [⟨true,
    { text := ['h', 'i']
      promptTokenIds := none
      tokenIds := some [7]
      numCachedTokens := some (.ok 5) }⟩]
  how := .ended

/-- Five cached tokens of none are reported, on both paths. -/
theorem withoutPrompt_not_coherent :
    ¬ sample.Coherent hiAttestor withoutPrompt ∧
      withoutPrompt.generate.map GenerateResult.usage = .ok ⟨0, 1, 1, 5⟩ ∧
      withoutPrompt.generateStream.finals.map StreamChunk.usage = [⟨0, 1, 1, 5⟩] := by
  refine ⟨fun h => ?_, rfl, by decide⟩
  have hcoherent := (h.response _ rfl).1.cached
  exact absurd hcoherent (by decide)

end ChatRequest

end OpenModel.Inference
