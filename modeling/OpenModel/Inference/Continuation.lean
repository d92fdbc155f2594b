import OpenModel.Inference.Conversation
import OpenModel.Inference.SseWire

/-!
# A stream that goes on on another worker

When a stream breaks, by a mining pause or a crash, the request is sent to another worker with the
text that was delivered so far, `om_continuation`. It is appended verbatim to the prompt, so that
the engine goes on exactly where the stream broke.

What the model writes is taken to depend on the text in front of it alone, so that it goes on with
the same text wherever it is interrupted. Then the texts of all workers, as far as they arrived,
make up a part of what one worker would have delivered: nothing is repeated, left out or torn,
however often and at whatever byte the streams break.

## Main results

- `Attempt.text_written`: what arrives of one stream is a part of what the core wrote
- `Attempt.text_of_final`: with the final frame, it is the last output
- `Relayed.seamless`: the texts of all workers
-/

namespace OpenModel.Inference

-- ════════════════════════════════════════════════════════════════════════
-- One stream
-- ════════════════════════════════════════════════════════════════════════

/-- A request on some worker, and the bytes of its stream that arrived. -/
structure Attempt (ed : Ed25519) where
  req : ChatRequest
  att : Attestor ed
  run : CoreRun
  bytes : List UInt8
  arrived : bytes <+: encodeUtf8 (wire (req.frames att run))

namespace Attempt

variable {ed : Ed25519} {a : Attempt ed}

/-- The stream breaks behind so many bytes. -/
def cut (req : ChatRequest) (att : Attestor ed) (run : CoreRun) (n : Nat) : Attempt ed where
  req := req
  att := att
  run := run
  bytes := (encodeUtf8 (wire (req.frames att run))).take n
  arrived := List.take_prefix _ _

/-- The whole stream arrives. -/
def whole (req : ChatRequest) (att : Attestor ed) (run : CoreRun) : Attempt ed where
  req := req
  att := att
  run := run
  bytes := encodeUtf8 (wire (req.frames att run))
  arrived := List.prefix_refl _

def received (a : Attempt ed) : List Frame := Inference.received a.bytes

/-- The text that was delivered. -/
def text (a : Attempt ed) : List Char := delivered a.received

/-- The frame with the finish reason has arrived. -/
def SawFinal (a : Attempt ed) : Prop := finalFrames a.received ≠ []

theorem prefix_frames (a : Attempt ed) : a.received <+: a.req.frames a.att a.run :=
  prefix_received a.arrived

theorem received_cut (req : ChatRequest) (att : Attestor ed) (run : CoreRun) (n : Nat) :
    (cut req att run n).received = readFrames ((wire (req.frames att run)).take n) := by
  show Inference.received ((encodeUtf8 (wire (req.frames att run))).take n) = _
  rw [encodeUtf8_take fun c hc => wire_ascii hc, Inference.received, decodeUtf8_encodeUtf8]
  rfl

theorem received_whole (req : ChatRequest) (att : Attestor ed) (run : CoreRun) :
    (whole req att run).received = req.frames att run :=
  received_wire _

end Attempt

section Frames

variable {frames frames' : List Frame}

theorem prefix_delivered (h : frames <+: frames') : delivered frames <+: delivered frames' := by
  obtain ⟨later, rfl⟩ := h
  rw [delivered_append]
  exact List.prefix_append _ _

end Frames

namespace CoreRun

variable {run : CoreRun}

/-- The call when the iteration ends, in whatever way. -/
def last (run : CoreRun) : Call := (Call.iterate {} run.arrivals run.how).1

theorem last_streams (hcum : run.Cumulative) : run.last.Streams := by
  refine Call.Streams.init.iterate ?_
  cases harrivals : run.arrivals with
  | nil => exact List.IsChain.singleton _
  | cons arrival arrivals =>
    have hchain := hcum
    rw [Cumulative, harrivals] at hchain
    exact List.isChain_cons_cons.mpr ⟨List.nil_prefix, hchain⟩

/-- The text that was cut into pieces is one of the core's. -/
theorem prevText_iterate (c : Call) (arrivals : List Arrival) (how : CoreEnd) :
    (c.iterate arrivals how).1.prevText = c.prevText ∨
      ∃ arrival ∈ arrivals, (c.iterate arrivals how).1.prevText = arrival.output.text := by
  induction arrivals generalizing c with
  | nil => exact .inl rfl
  | cons arrival arrivals ih =>
    rw [Call.iterate]
    split
    · obtain hsame | ⟨later, hlater, htext⟩ := ih (c.receive arrival.output)
      · exact .inr ⟨arrival, List.mem_cons_self, hsame⟩
      · exact .inr ⟨later, List.mem_cons_of_mem _ hlater, htext⟩
    · exact .inl rfl

end CoreRun

namespace ChatRequest

variable {ed : Ed25519} {att : Attestor ed} {req : ChatRequest} {run : CoreRun}

/-- The frames behind the chunks deliver nothing and have no usage. -/
theorem exists_sseGenerator (req : ChatRequest) (att : Attestor ed) (stream : ChunkStream) :
    ∃ tail, req.sseGenerator att stream =
        (stream.chunks.map fun chunk => Frame.chunk (req.data chunk)) ++ tail ∧
      delivered tail = [] ∧ finalFrames tail = [] := by
  refine ⟨_, rfl, ?_⟩
  cases stream.raised with
  | none =>
    cases req.wantReceipt with
    | false => exact ⟨rfl, rfl⟩
    | true =>
      cases (stream.chunks.foldl SseState.take {}).finalUsage with
      | none => exact ⟨rfl, rfl⟩
      | some usage => exact ⟨rfl, rfl⟩
  | some e =>
    by_cases hkind : e.kind = .other
    · simp only [if_pos hkind]
      exact ⟨rfl, rfl⟩
    · simp only [if_neg hkind]
      exact ⟨rfl, rfl⟩

/-- **The stream of a broken run** delivers the pieces and no usage. -/
theorem frames_of_raised {e : Raised} (hcum : run.Cumulative)
    (he : run.generateStream.raised = some e) :
    (delivered (req.frames att run) = [] ∨ delivered (req.frames att run) = run.last.prevText) ∧
      finalFrames (req.frames att run) = [] := by
  obtain ⟨tail, hframes, hdelivered, hfinal⟩ := exists_sseGenerator req att run.generateStream
  rw [frames, hframes, delivered_append, finalFrames_append, hdelivered, hfinal,
    List.append_nil, List.append_nil]
  have hstreams := CoreRun.last_streams hcum
  rw [CoreRun.generateStream] at he ⊢
  split_ifs at he ⊢ with havailable
  · exact ⟨.inl rfl, rfl⟩
  · rw [CoreRun.last] at hstreams ⊢
    cases hiterate : Call.iterate {} run.arrivals run.how with
    | mk c raised =>
      rw [hiterate] at he hstreams
      cases raised with
      | none => exact absurd he.symm (Option.some_ne_none e)
      | some raised =>
        obtain ⟨hpieces, hnone⟩ :=
          delivered_map_data req fun chunk hc => (hstreams.deltas chunk hc).1
        exact ⟨.inr (hpieces.trans hstreams.text), hnone⟩

/-- A run with a final frame is clean, and the frame is that of its last output. -/
theorem clean_of_finalFrames (hcum : run.Cumulative)
    (hfinal : finalFrames (req.frames att run) ≠ []) :
    run.Clean ∧ ∃ out, run.received.finalOutput = some out := by
  cases hraised : run.generateStream.raised with
  | some e => exact absurd (frames_of_raised hcum hraised).2 hfinal
  | none =>
    have hclean := CoreRun.raised_eq_none_iff.mp hraised
    refine ⟨hclean, Option.isSome_iff_exists.mp (Option.isSome_iff_ne_none.mpr fun hnone => ?_)⟩
    obtain ⟨tail, hframes, -, htail⟩ := exists_sseGenerator req att run.generateStream
    have hchunks : run.generateStream.chunks = run.received.chunks := by
      rw [CoreRun.generateStream_of_clean hclean, Call.finish, hnone]
    have hstreams := CoreRun.received_streams hclean hcum
    refine hfinal ?_
    rw [frames, hframes, finalFrames_append, htail, List.append_nil, hchunks]
    exact (delivered_map_data req fun chunk hc => (hstreams.deltas chunk hc).1).2

/-- **The text of a stream** is one of the texts of the core. -/
theorem delivered_frames (hcum : run.Cumulative) :
    delivered (req.frames att run) = [] ∨
      ∃ arrival ∈ run.arrivals, delivered (req.frames att run) = arrival.output.text := by
  cases hraised : run.generateStream.raised with
  | some e =>
    have hends : delivered (req.frames att run) = [] ∨
        delivered (req.frames att run) = run.last.prevText := (frames_of_raised hcum hraised).1
    obtain hnil | hlast := hends
    · exact .inl hnil
    · obtain hinit | ⟨arrival, harrival, htext⟩ :=
        CoreRun.prevText_iterate {} run.arrivals run.how
      · exact .inl (hlast.trans hinit)
      · exact .inr ⟨arrival, harrival, hlast.trans htext⟩
  | none =>
    have hclean := CoreRun.raised_eq_none_iff.mp hraised
    cases hout : run.received.finalOutput with
    | none =>
      left
      have hnil : run.arrivals = [] := by
        rw [CoreRun.received_finalOutput, List.getLast?_eq_none_iff] at hout
        exact List.map_eq_nil_iff.mp hout
      obtain ⟨tail, hframes, htail, -⟩ := exists_sseGenerator req att run.generateStream
      have hchunks : run.generateStream.chunks = [] := by
        rw [CoreRun.generateStream_of_clean hclean, Call.finish, hout, CoreRun.received, hnil]
        rfl
      rw [frames, hframes, delivered_append, htail, hchunks]
      rfl
    | some out =>
      right
      have hmem : out ∈ run.arrivals.map Arrival.output := by
        rw [CoreRun.received_finalOutput] at hout
        exact List.mem_of_getLast? hout
      obtain ⟨arrival, harrival, rfl⟩ := List.mem_map.mp hmem
      exact ⟨arrival, harrival, (agrees_of_finalOutput hclean hcum hout).content⟩

end ChatRequest

-- ════════════════════════════════════════════════════════════════════════
-- The prompt
-- ════════════════════════════════════════════════════════════════════════

/-- `prompt += request.om_continuation`, if there is one. -/
def continued (prompt : List Char) (omContinuation : Option (List Char)) : List Char :=
  match omContinuation.filter fun text => text ≠ [] with
  | some text => prompt ++ text
  | none => prompt

/-- The prompt of `chat_completions`. -/
def chatPrompt (messages : List ChatMessage) (omContinuation : Option (List Char)) : List Char :=
  continued ("\n".intercalate (messages.map fun m => m.role ++ ": " ++ m.content)).toList
    omContinuation

theorem continued_some (prompt text : List Char) :
    continued prompt (some text) = prompt ++ text := by
  rw [continued]
  cases text with
  | nil => exact (List.append_nil _).symm
  | cons c text => rfl

theorem chatPrompt_some (messages : List ChatMessage) (text : List Char) :
    chatPrompt messages (some text) = chatPrompt messages none ++ text :=
  continued_some _ _

-- ════════════════════════════════════════════════════════════════════════
-- The model
-- ════════════════════════════════════════════════════════════════════════

/-- What a model writes behind a text. -/
structure Sequel where
  after : List Char → List Char
  /-- it goes on with the same text when some of it is already there -/
  continues : ∀ {text written rest}, after text = written ++ rest → after (text ++ written) = rest

/-- The model that writes one text. -/
def Sequel.script (whole : List Char) : Sequel where
  after text := if text <+: whole then whole.drop text.length else []
  continues {text written rest} h := by
    by_cases hbegins : text <+: whole
    · rw [if_pos hbegins] at h
      have hwhole : (text ++ written) ++ rest = whole := by
        rw [List.append_assoc, ← h]
        exact List.prefix_iff_eq_append.mp hbegins
      rw [if_pos ⟨rest, hwhole⟩, ← hwhole, List.drop_left]
    · rw [if_neg hbegins] at h
      obtain ⟨rfl, rfl⟩ := List.append_eq_nil_iff.mp h.symm
      rw [List.append_nil, if_neg hbegins]

/-- The core writes what the model writes behind the prompt, as far as it gets. -/
structure Follows (model : Sequel) (prompt : List Char) (run : CoreRun) : Prop where
  cumulative : run.Cumulative
  written : ∀ arrival ∈ run.arrivals, arrival.output.text <+: model.after prompt
  /-- it stops where the model does -/
  stopped : ∀ arrival ∈ run.arrivals, arrival.output.finishReason = some "stop" →
    arrival.output.text = model.after prompt

variable {ed : Ed25519} {model : Sequel} {prompt text : List Char} {messages : List ChatMessage}
  {attempts : List (Attempt ed)} {a : Attempt ed}

namespace Attempt

/-- What arrives is a part of what the model writes. -/
theorem text_written (h : Follows model prompt a.run) : a.text <+: model.after prompt := by
  refine (prefix_delivered a.prefix_frames).trans ?_
  obtain hnil | ⟨arrival, harrival, htext⟩ : delivered (a.req.frames a.att a.run) = [] ∨
      ∃ arrival ∈ a.run.arrivals, delivered (a.req.frames a.att a.run) = arrival.output.text :=
    ChatRequest.delivered_frames h.cumulative
  · rw [hnil]
    exact List.nil_prefix
  · rw [htext]
    exact h.written arrival harrival

/-- **The final frame** comes behind all of the text. -/
theorem text_of_final (hcum : a.run.Cumulative) (h : a.SawFinal) :
    ∃ out, a.run.received.finalOutput = some out ∧ a.text = out.text := by
  obtain ⟨later, hlater⟩ := a.prefix_frames
  have hfinal : finalFrames (a.req.frames a.att a.run) ≠ [] := by
    rw [← hlater, finalFrames_append]
    exact fun hnil => h (List.append_eq_nil_iff.mp hnil).1
  obtain ⟨hclean, out, hout⟩ := ChatRequest.clean_of_finalFrames hcum hfinal
  refine ⟨out, hout, ?_⟩
  have hstreams := CoreRun.received_streams hclean hcum
  obtain ⟨hpieces, hnone⟩ :=
    ChatRequest.delivered_map_data a.req fun chunk hc => (hstreams.deltas chunk hc).1
  have hframes := ChatRequest.frames_of_clean a.req a.att hclean hcum hout
  have hall : delivered (a.req.frames a.att a.run) = out.text :=
    (ChatRequest.agrees_of_finalOutput hclean hcum hout).content
  -- what has arrived reaches behind the pieces, as there is a final frame in it
  have hpiecesPrefix : (a.run.received.chunks.map fun chunk => Frame.chunk (a.req.data chunk)) <+:
      a.received := by
    refine (List.prefix_or_prefix_of_prefix ⟨_, hframes.symm⟩ a.prefix_frames).resolve_right ?_
    rintro ⟨missing, hmissing⟩
    rw [← hmissing, finalFrames_append] at hnone
    exact h (List.append_eq_nil_iff.mp hnone).1
  have hle : a.text.length ≤ out.text.length := by
    have hlength := (prefix_delivered a.prefix_frames).length_le
    rwa [hall] at hlength
  have hge : out.text <+: a.text := by
    have htext := prefix_delivered hpiecesPrefix
    rwa [hpieces, hstreams.text, ← hstreams.last out hout] at htext
  exact (hge.eq_of_length_le hle).symm

end Attempt

-- ════════════════════════════════════════════════════════════════════════
-- Worker after worker
-- ════════════════════════════════════════════════════════════════════════

/-- The request goes from worker to worker, each with the text that all before it delivered. -/
inductive Relayed (model : Sequel) (messages : List ChatMessage) :
    List (Attempt ed) → List Char → Prop
  | nil : Relayed model messages [] []
  | snoc {attempts : List (Attempt ed)} {text : List Char} {a : Attempt ed}
      (relayed : Relayed model messages attempts text)
      (follows : Follows model (chatPrompt messages (some text)) a.run) :
      Relayed model messages (attempts ++ [a]) (text ++ a.text)

/-- The worker has sent its final frame, and its core has stopped by itself. -/
def Attempt.Completed (a : Attempt ed) : Prop :=
  a.SawFinal ∧ ∀ out ∈ a.run.received.finalOutput, out.finishReason = some "stop"

theorem Attempt.text_of_completed (h : Follows model prompt a.run) (hdone : a.Completed) :
    a.text = model.after prompt := by
  obtain ⟨out, hout, htext⟩ := Attempt.text_of_final h.cumulative hdone.1
  have hmem : out ∈ a.run.arrivals.map Arrival.output := by
    rw [CoreRun.received_finalOutput] at hout
    exact List.mem_of_getLast? hout
  obtain ⟨arrival, harrival, rfl⟩ := List.mem_map.mp hmem
  exact htext.trans (h.stopped arrival harrival (hdone.2 _ hout))

namespace Relayed

/-- What is still to be written is what the model writes behind the text so far. -/
theorem text_append (h : Relayed model messages attempts text) :
    text ++ model.after (chatPrompt messages (some text)) =
      model.after (chatPrompt messages none) := by
  induction h with
  | nil => rw [chatPrompt_some, List.append_nil, List.nil_append]
  | snoc relayed follows ih =>
    obtain ⟨rest, hrest⟩ := Attempt.text_written follows
    have hafter := model.continues hrest.symm
    rw [chatPrompt_some, List.append_assoc, ← chatPrompt_some] at hafter
    rw [hafter, List.append_assoc, hrest, ih]

/-- **No repetition and no gap**: the texts of all workers make up a part of what one worker
would have written, and all of it once a worker has completed. -/
theorem seamless (h : Relayed model messages attempts text) :
    text <+: model.after (chatPrompt messages none) ∧
      ∀ a ∈ attempts.getLast?, a.Completed → text = model.after (chatPrompt messages none) := by
  refine ⟨⟨_, h.text_append⟩, fun a ha hdone => ?_⟩
  cases h with
  | nil => exact absurd ha.symm (Option.some_ne_none a)
  | @snoc attempts text last relayed follows =>
    rw [List.getLast?_concat, Option.mem_some_iff] at ha
    subst ha
    rw [Attempt.text_of_completed follows hdone, relayed.text_append]

end Relayed

/-- The core writes so much of `hi there`, and is paused. -/
def brokenRun : CoreRun where
  available := true
  arrivals := [⟨true, { text := "h".toList, promptTokens := 3, completionTokens := 1 }⟩,
    ⟨true, { text := "hi ".toList, promptTokens := 3, completionTokens := 2 }⟩,
    ⟨false, { text := "hi the".toList, promptTokens := 3, completionTokens := 3 }⟩]
  how := .ended

/-- Another core writes the rest behind `h`. -/
def secondRun : CoreRun where
  available := true
  arrivals := [⟨true, { text := "i ".toList, promptTokens := 4, completionTokens := 1 }⟩,
    ⟨true, ⟨"i there".toList, 4, 2, none, some "stop"⟩⟩]
  how := .ended

def hi : List ChatMessage := [⟨"user", "hi"⟩]

def hiModel : Sequel := .script (chatPrompt hi none ++ "hi there".toList)

/-- The first stream breaks within its second frame. -/
def firstAttempt : Attempt default := .cut ChatRequest.sample ChatRequest.hiAttestor brokenRun 300

def secondAttempt : Attempt default := .whole ChatRequest.sample ChatRequest.hiAttestor secondRun

theorem firstAttempt_text : firstAttempt.text = "h".toList := by
  rw [Attempt.text, firstAttempt, Attempt.received_cut]
  decide +kernel

theorem completed_secondAttempt : secondAttempt.Completed := by
  constructor
  · rw [Attempt.SawFinal, secondAttempt, Attempt.received_whole]
    decide +kernel
  · decide

namespace Relayed

theorem seamless_secondAttempt :
    Relayed hiModel hi [firstAttempt, secondAttempt] (firstAttempt.text ++ secondAttempt.text) ∧
      firstAttempt.text = "h".toList ∧
      firstAttempt.text ++ secondAttempt.text = "hi there".toList := by
  have hfirst : Follows hiModel (chatPrompt hi (some [])) brokenRun :=
    ⟨by decide, by decide +kernel, by decide +kernel⟩
  have hsecond : Follows hiModel (chatPrompt hi (some firstAttempt.text)) secondRun := by
    rw [firstAttempt_text]
    exact ⟨by decide, by decide +kernel, by decide +kernel⟩
  have hone : Relayed hiModel hi [firstAttempt] firstAttempt.text := by
    simpa only [List.nil_append] using Relayed.snoc .nil hfirst
  have hrelayed : Relayed hiModel hi [firstAttempt, secondAttempt]
      (firstAttempt.text ++ secondAttempt.text) := .snoc hone hsecond
  refine ⟨hrelayed, firstAttempt_text, ?_⟩
  rw [hrelayed.seamless.2 secondAttempt rfl completed_secondAttempt]
  decide +kernel

end Relayed

end OpenModel.Inference
