import OpenModel.Inference.Streaming
import OpenModel.Lib.EventStream
import OpenModel.Lib.JsonTree

/-!
# The frames of a stream on the wire

`sse_generator` yields texts: `data: `, the JSON text of the frame, and an empty line. The reader
is the gateway, or any client of the API. It reads events, and in an event the members of an
object by their names.

All of it is ASCII, whatever is in the model's output, so that a part of the bytes is a part of
the text. A reader whose stream is cut off, at any byte, has a part of the frames.

## Main results

- `readFrame_payload`: a frame comes back from its text
- `readEvent_omReceipt`: so does the receipt of its event
- `wire_ascii`: a byte is a character
- `received_wire`: the frames of a stream come back
- `received_take`: of a part of it, those that lie within it do
-/

namespace OpenModel.Inference

open EventStream (event readEvents)
open Json (Tree spaced Printable)

-- ════════════════════════════════════════════════════════════════════════
-- Texts
-- ════════════════════════════════════════════════════════════════════════

def Usage.toTree (u : Usage) : Tree :=
  .obj [("prompt_tokens", .int u.promptTokens), ("completion_tokens", .int u.completionTokens),
    ("total_tokens", .int u.totalTokens),
    ("prompt_tokens_details", .obj [("cached_tokens", .int u.cachedTokens)])]

def ChatChunk.toTree (d : ChatChunk) : Tree :=
  .obj ([("id", .str d.id), ("object", .str d.object), ("created", .int d.created),
    ("model", .str d.model),
    ("choices", .arr [.obj [("index", .int 0),
      ("delta", .obj
        (match d.content with
        | some content => [("content", .str (String.ofList content))]
        | none => [])),
      ("finish_reason",
        match d.finishReason with
        | some reason => .str reason
        | none => .null)]])] ++
    match d.usage with
    | some usage => [("usage", usage.toTree)]
    | none => [])

namespace Frame

/-- The object of a frame, but for `[DONE]`. -/
def toTree : Frame → Option Tree
  | chunk data => some data.toTree
  | omReceipt rcpt => some (.obj [("om_receipt", .ofValue rcpt)])
  | error message type =>
    some (.obj [("error", .obj [("message", .str message), ("type", .str type)])])
  | done => none

/-- What is behind `data: `. -/
def payload (frame : Frame) : List Char :=
  match frame.toTree with
  | some tree => tree.text spaced
  | none => "[DONE]".toList

end Frame

/-- The text of a stream. -/
def wire (frames : List Frame) : List Char := frames.flatMap fun frame => event frame.payload

-- ════════════════════════════════════════════════════════════════════════
-- The reader
-- ════════════════════════════════════════════════════════════════════════

def readUsage (tree : Tree) : Option Usage := do
  let promptTokens ← (tree.member "prompt_tokens").bind Tree.asNat
  let completionTokens ← (tree.member "completion_tokens").bind Tree.asNat
  let totalTokens ← (tree.member "total_tokens").bind Tree.asNat
  let details ← tree.member "prompt_tokens_details"
  let cachedTokens ← (details.member "cached_tokens").bind Tree.asNat
  return { promptTokens, completionTokens, totalTokens, cachedTokens }

def readChunk (tree : Tree) : Option ChatChunk := do
  let id ← (tree.member "id").bind Tree.asString
  let object ← (tree.member "object").bind Tree.asString
  let created ← (tree.member "created").bind Tree.asInt
  let model ← (tree.member "model").bind Tree.asString
  let choice ← (tree.member "choices").bind Tree.head
  let delta ← choice.member "delta"
  return {
    id, object, created, model
    content := ((delta.member "content").bind Tree.asString).map String.toList
    finishReason := (choice.member "finish_reason").bind Tree.asString
    usage := (tree.member "usage").bind readUsage }

def readFrame (data : List Char) : Option Frame :=
  if data = "[DONE]".toList then some .done
  else do
    let tree ← Tree.parse data
    match tree.member "error" with
    | some error =>
      let message ← (error.member "message").bind Tree.asString
      let type ← (error.member "type").bind Tree.asString
      return .error message type
    | none =>
      match tree.member "om_receipt" with
      | some rcpt => (Tree.toValue rcpt).map .omReceipt
      | none => (readChunk tree).map .chunk

/-- The frames of a text, as far as it goes. -/
def readFrames (text : List Char) : List Frame := (readEvents text).filterMap readFrame

/-- The frames of the bytes that have arrived. -/
def received (bytes : List UInt8) : List Frame := ((decodeUtf8 bytes).map readFrames).getD []

-- ════════════════════════════════════════════════════════════════════════
-- Round trips
-- ════════════════════════════════════════════════════════════════════════

theorem readUsage_toTree (u : Usage) : readUsage u.toTree = some u := by
  simp [readUsage, Usage.toTree, Tree.member, Tree.asNat, List.lookup_cons]

theorem readChunk_toTree (d : ChatChunk) : readChunk d.toTree = some d := by
  obtain ⟨id, object, created, model, content, finishReason, usage⟩ := d
  cases content <;> cases finishReason <;> cases usage <;>
    simp [readChunk, ChatChunk.toTree, Tree.member, Tree.asString, Tree.asInt, Tree.head,
      readUsage_toTree, List.lookup_cons]

namespace Frame

variable {frame : Frame} {c : Char}

/-- The text of an object is none of the end. -/
theorem text_ne_done {tree : Tree} (h : frame.toTree = some tree) :
    tree.text spaced ≠ "[DONE]".toList := by
  have hobj : ∃ members, tree = .obj members := by
    cases frame with
    | chunk data => exact ⟨_, (Option.some.inj h).symm⟩
    | omReceipt rcpt => exact ⟨_, (Option.some.inj h).symm⟩
    | error message type => exact ⟨_, (Option.some.inj h).symm⟩
    | done => cases h
  obtain ⟨members, rfl⟩ := hobj
  intro heq
  cases (List.cons.inj heq).1

theorem readFrame_of_toTree {tree : Tree} (h : frame.toTree = some tree) :
    readFrame (tree.text spaced) = some frame := by
  rw [readFrame, if_neg (text_ne_done h), Tree.parse_text]
  cases frame with
  | chunk data =>
    obtain rfl := Option.some.inj h
    have herror : data.toTree.member "error" = none := by
      cases husage : data.usage <;> simp [ChatChunk.toTree, Tree.member, List.lookup_cons, husage]
    have hreceipt : data.toTree.member "om_receipt" = none := by
      cases husage : data.usage <;> simp [ChatChunk.toTree, Tree.member, List.lookup_cons, husage]
    simp [herror, hreceipt, readChunk_toTree]
  | omReceipt rcpt =>
    obtain rfl := Option.some.inj h
    simp [Tree.member, List.lookup_cons, Tree.toValue_ofValue]
  | error message type =>
    obtain rfl := Option.some.inj h
    simp [Tree.member, List.lookup_cons, Tree.asString]
  | done => cases h

/-- **One frame** comes back from its text. -/
theorem readFrame_payload (frame : Frame) : readFrame frame.payload = some frame := by
  unfold payload
  cases h : frame.toTree with
  | some tree => exact readFrame_of_toTree h
  | none =>
    cases frame with
    | done => rfl
    | _ => cases h

theorem printable_of_mem_payload (hc : c ∈ frame.payload) : Printable c := by
  unfold payload at hc
  cases h : frame.toTree with
  | some tree =>
    rw [h] at hc
    refine Tree.printable_of_mem_text (fun c hc => ?_) tree hc
    rw [List.mem_singleton.mp hc]
    decide
  | none =>
    rw [h] at hc
    have hdone : ∀ c ∈ "[DONE]".toList, Printable c := List.forall_iff_forall_mem.mp (by decide)
    exact hdone c hc

theorem newline_not_mem_payload (frame : Frame) : '\n' ∉ frame.payload := fun hc =>
  absurd (printable_of_mem_payload hc) (by decide)

/-- The event of a receipt. -/
theorem event_omReceipt (rcpt : JsonValue) :
    event (omReceipt rcpt).payload = receiptEvent rcpt := by
  have htext : (omReceipt rcpt).payload = (Tree.ofValue (.obj [("om_receipt", rcpt)])).text spaced :=
    rfl
  rw [event, receiptEvent, htext, Tree.text_ofValue]

/-- **Receipts on the wire**: the reader of receipts finds in the event of a stream the receipt
that was put into the frame. -/
theorem readEvent_omReceipt (rcpt : JsonValue) :
    readEvent (event (omReceipt rcpt).payload) = some rcpt := by
  rw [event_omReceipt]
  exact readEvent_receiptEvent rcpt

end Frame

section Wire

variable {frames : List Frame} {text : List Char}

theorem wire_eq (frames : List Frame) : wire frames = (frames.map Frame.payload).flatMap event := by
  rw [wire, List.flatMap_map]

theorem newline_not_mem (frames : List Frame) :
    ∀ data ∈ frames.map Frame.payload, '\n' ∉ data := by
  intro data hdata
  obtain ⟨frame, -, rfl⟩ := List.mem_map.mp hdata
  exact frame.newline_not_mem_payload

/-- What is printable or a line feed is one byte. -/
theorem wire_ascii {c : Char} (hc : c ∈ wire frames) : c.toNat < 128 := by
  have hprintable {c : Char} (h : Printable c) : c.toNat < 128 :=
    lt_of_le_of_lt (UInt32.le_iff_toNat_le.mp h.2) (by decide)
  obtain ⟨frame, -, hc⟩ := List.mem_flatMap.mp hc
  rcases List.mem_append.mp hc with hc | hc
  · rcases List.mem_append.mp hc with hc | hc
    · have hdata : ∀ c ∈ "data: ".toList, c.toNat < 128 :=
        List.forall_iff_forall_mem.mp (by decide)
      exact hdata c hc
    · exact hprintable (Frame.printable_of_mem_payload hc)
  · have hend : ∀ c ∈ "\n\n".toList, c.toNat < 128 := List.forall_iff_forall_mem.mp (by decide)
    exact hend c hc

/-- A character is one byte. -/
theorem exists_utf8EncodeChar {c : Char} (h : c.toNat < 128) :
    ∃ b, String.utf8EncodeChar c = [b] := by
  refine List.length_eq_one_iff.mp ?_
  rw [String.length_utf8EncodeChar, Char.utf8Size_eq_one_iff]
  exact UInt32.le_iff_toNat_le.mpr (Nat.le_of_lt_succ h)

/-- A part of the bytes is a part of the text. -/
theorem encodeUtf8_take (h : ∀ c ∈ text, c.toNat < 128) (n : Nat) :
    (encodeUtf8 text).take n = encodeUtf8 (text.take n) := by
  induction text generalizing n with
  | nil => simp [encodeUtf8]
  | cons c text ih =>
    obtain ⟨b, hb⟩ := exists_utf8EncodeChar (h c List.mem_cons_self)
    cases n with
    | zero => rfl
    | succ n =>
      have htail := ih (fun c hc => h c (List.mem_cons_of_mem _ hc)) n
      simp only [encodeUtf8] at htail
      simp [encodeUtf8, hb, htail]

theorem length_encodeUtf8 (h : ∀ c ∈ text, c.toNat < 128) :
    (encodeUtf8 text).length = text.length := by
  induction text with
  | nil => simp [encodeUtf8]
  | cons c text ih =>
    obtain ⟨b, hb⟩ := exists_utf8EncodeChar (h c List.mem_cons_self)
    have htail := ih fun c hc => h c (List.mem_cons_of_mem _ hc)
    simp only [encodeUtf8] at htail
    simp [encodeUtf8, hb, htail]

theorem filterMap_readFrame (frames : List Frame) :
    (frames.map Frame.payload).filterMap readFrame = frames := by
  rw [List.filterMap_map]
  have hread : readFrame ∘ Frame.payload = some := funext Frame.readFrame_payload
  rw [hread, List.filterMap_some]

/-- **Round trip**: the frames come back from their text. -/
theorem readFrames_wire (frames : List Frame) : readFrames (wire frames) = frames := by
  rw [readFrames, wire_eq, EventStream.readEvents_flatMap_event (newline_not_mem frames),
    filterMap_readFrame]

/-- **Cut off**: a part of the text gives a part of the frames. -/
theorem readFrames_of_prefix (h : text <+: wire frames) : readFrames text <+: frames := by
  rw [wire_eq] at h
  obtain ⟨later, hlater⟩ := EventStream.readEvents_of_prefix (newline_not_mem frames) h
  refine ⟨later.filterMap readFrame, ?_⟩
  rw [readFrames, ← List.filterMap_append, hlater, filterMap_readFrame]

/-- Frames that have arrived are read, whatever is behind them. -/
theorem prefix_readFrames (h : wire frames <+: text) : frames <+: readFrames text := by
  rw [wire_eq] at h
  obtain ⟨later, hlater⟩ := EventStream.prefix_readEvents (newline_not_mem frames) h
  refine ⟨later.filterMap readFrame, ?_⟩
  rw [readFrames, ← hlater, List.filterMap_append, filterMap_readFrame]

/-- **Round trip** of the bytes. -/
theorem received_wire (frames : List Frame) : received (encodeUtf8 (wire frames)) = frames := by
  rw [received, decodeUtf8_encodeUtf8]
  exact readFrames_wire frames

/-- **Cut off** at any byte: what has arrived is a part of the frames. -/
theorem prefix_received {bytes : List UInt8} (h : bytes <+: encodeUtf8 (wire frames)) :
    received bytes <+: frames := by
  rw [List.prefix_iff_eq_take, encodeUtf8_take fun c hc => wire_ascii hc] at h
  rw [h, received, decodeUtf8_encodeUtf8]
  exact readFrames_of_prefix (List.take_prefix _ _)

/-- **Cut off** behind `n` bytes: the frames that lie within them have arrived, and nothing else. -/
theorem received_take (frames : List Frame) (n : Nat) :
    received ((encodeUtf8 (wire frames)).take n) <+: frames ∧
      ∀ k, (encodeUtf8 (wire (frames.take k))).length ≤ n →
        frames.take k <+: received ((encodeUtf8 (wire frames)).take n) := by
  refine ⟨prefix_received (List.take_prefix _ _), fun k hlength => ?_⟩
  rw [length_encodeUtf8 fun c hc => wire_ascii hc] at hlength
  rw [encodeUtf8_take fun c hc => wire_ascii hc, received, decodeUtf8_encodeUtf8]
  refine prefix_readFrames (List.prefix_take_iff.mpr ⟨?_, hlength⟩)
  refine ⟨wire (frames.drop k), ?_⟩
  rw [wire, wire, ← List.flatMap_append, List.take_append_drop, wire]

end Wire

end OpenModel.Inference
