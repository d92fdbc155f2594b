import OpenModel.Lib.Json

/-!
# Receipts

For a served request the worker signs what it was asked, what it produced and the token counts
that it reports. What it signs is a text built by hand: the nine fields in a fixed order, each
string written by `json.dumps`, with no lengths in front of them. The text is the compact JSON
text of an object, so its bytes determine the fields.

The receipt itself reaches the gateway as JSON: compact and in Base64 in the header
`X-OM-Receipt` of a response, with the default separators in an event of a stream. From either
the reader rebuilds the bytes that were signed.

## Main results

- `canonicalPayload_injective`: the bytes determine the nine fields
- `readHeader_receiptHeader`, `readEvent_receiptEvent`: the receipt comes back from the wire
- `signed_buildReceipt`: a receipt is signed over its own fields
- `receipts_binding_checkable`: a reader has the bytes that were signed
-/

namespace OpenModel.Inference

open Json (decimal quote dumps compact spaced loads)

-- ════════════════════════════════════════════════════════════════════════
-- The signed text
-- ════════════════════════════════════════════════════════════════════════

/-- `.encode("utf-8")` -/
def encodeUtf8 (text : List Char) : List UInt8 := text.flatMap String.utf8EncodeChar

/-- `.decode("utf-8")` -/
def decodeUtf8 (bytes : List UInt8) : Option (List Char) :=
  bytes.toByteArray.utf8Decode?.map Array.toList

theorem decodeUtf8_encodeUtf8 (text : List Char) : decodeUtf8 (encodeUtf8 text) = some text := by
  have hbytes : (encodeUtf8 text).toByteArray = text.utf8Encode := rfl
  rw [decodeUtf8, hbytes, List.utf8Decode?_utf8Encode]
  rfl

/-- The arguments of `canonical_payload`. -/
structure ReceiptFields where
  requestId : String
  model : String
  requestSha256 : String
  responseSha256 : String
  promptTokens : Int
  completionTokens : Int
  cachedTokens : Int
  ts : Int
  pubkey : String
deriving DecidableEq, Repr

def canonicalPayload (f : ReceiptFields) : List UInt8 :=
  encodeUtf8 <|
    "\x7b".toList ++
    "\"cached_tokens\":".toList ++ decimal f.cachedTokens ++ ",".toList ++
    "\"completion_tokens\":".toList ++ decimal f.completionTokens ++ ",".toList ++
    "\"model\":".toList ++ quote f.model ++ ",".toList ++
    "\"prompt_tokens\":".toList ++ decimal f.promptTokens ++ ",".toList ++
    "\"pubkey\":".toList ++ quote f.pubkey ++ ",".toList ++
    "\"request_id\":".toList ++ quote f.requestId ++ ",".toList ++
    "\"request_sha256\":".toList ++ quote f.requestSha256 ++ ",".toList ++
    "\"response_sha256\":".toList ++ quote f.responseSha256 ++ ",".toList ++
    "\"ts\":".toList ++ decimal f.ts ++ ",".toList ++
    "\"v\":1".toList ++
    "\x7d".toList

/-- The object that the text is of. -/
def ReceiptFields.toJson (f : ReceiptFields) : JsonValue :=
  .obj [("cached_tokens", .int f.cachedTokens), ("completion_tokens", .int f.completionTokens),
    ("model", .str f.model), ("prompt_tokens", .int f.promptTokens), ("pubkey", .str f.pubkey),
    ("request_id", .str f.requestId), ("request_sha256", .str f.requestSha256),
    ("response_sha256", .str f.responseSha256), ("ts", .int f.ts), ("v", .int 1)]

theorem ReceiptFields.toJson_injective : Function.Injective ReceiptFields.toJson := by
  intro f f' h
  cases f
  cases f'
  simp only [toJson, JsonValue.obj.injEq, List.cons.injEq, Prod.mk.injEq, JsonValue.int.injEq,
    JsonValue.str.injEq, true_and, and_true] at h
  simp [h]

/-- No name of the object has an escape. -/
theorem quote_of_mem : ∀ name ∈ ["cached_tokens", "completion_tokens", "model", "prompt_tokens",
    "pubkey", "request_id", "request_sha256", "response_sha256", "ts", "v"],
    quote name = '"' :: name.toList ++ ['"'] := by
  decide

/-- **The text**: the template is the compact text of an object. -/
theorem canonicalPayload_eq (f : ReceiptFields) :
    canonicalPayload f = encodeUtf8 (dumps compact f.toJson) := by
  have hone : decimal 1 = ['1'] := rfl
  refine congrArg encodeUtf8 ?_
  simp [ReceiptFields.toJson, dumps, Json.dumpMembers, compact, quote_of_mem, hone]

/-- **Binding**: the bytes determine the nine fields. -/
theorem canonicalPayload_injective : Function.Injective canonicalPayload := by
  intro f f' h
  rw [canonicalPayload_eq, canonicalPayload_eq] at h
  have htext := congrArg decodeUtf8 h
  rw [decodeUtf8_encodeUtf8, decodeUtf8_encodeUtf8] at htext
  exact ReceiptFields.toJson_injective (Json.dumps_injective compact (Option.some.inj htext))

-- ════════════════════════════════════════════════════════════════════════
-- Signing
-- ════════════════════════════════════════════════════════════════════════

/-- Ed25519 as it is documented: raw keys and signatures, and what a key signs verifies. -/
structure Ed25519 where
  PrivateKey : Type
  publicKey : PrivateKey → List UInt8
  sign : PrivateKey → List UInt8 → List UInt8
  verify : (publicKey signature payload : List UInt8) → Bool
  verify_sign : ∀ key payload, verify (publicKey key) (sign key payload) payload = true

/-- A key is its own public key, and the signature repeats the payload. -/
instance : Inhabited Ed25519 where
  default :=
    { PrivateKey := List UInt8
      publicKey := id
      sign := fun key payload => key ++ payload
      verify := fun publicKey signature payload => signature == publicKey ++ payload
      verify_sign := by simp }

structure ReceiptSigner (ed : Ed25519) where
  key : ed.PrivateKey

/-- `.hex()` -/
def hex (bytes : List UInt8) : String := String.ofList (Base16.encode bytes)

/-- `bytes.fromhex` -/
def fromHex (s : String) : Option (List UInt8) := Base16.decode s.toList

theorem fromHex_hex (bytes : List UInt8) : fromHex (hex bytes) = some bytes := by
  rw [fromHex, hex, String.toList_ofList, Base16.decode_encode]

namespace ReceiptSigner

variable {ed : Ed25519} (s : ReceiptSigner ed)

def pubkeyHex : String := hex (ed.publicKey s.key)

def sign (payload : List UInt8) : String := hex (ed.sign s.key payload)

/-- The receipt of the signer that `get_signer` gives, at the time `ts`. -/
def buildReceipt (requestId model requestSha256 responseSha256 : String)
    (promptTokens completionTokens cachedTokens ts : Int) : JsonValue :=
  let payload := canonicalPayload
    { requestId, model, requestSha256, responseSha256, promptTokens, completionTokens,
      cachedTokens, ts, pubkey := s.pubkeyHex }
  .obj [("v", .int 1), ("request_id", .str requestId), ("model", .str model),
    ("request_sha256", .str requestSha256), ("response_sha256", .str responseSha256),
    ("prompt_tokens", .int promptTokens), ("completion_tokens", .int completionTokens),
    ("cached_tokens", .int cachedTokens), ("ts", .int ts), ("pubkey", .str s.pubkeyHex),
    ("sig", .str (s.sign payload))]

end ReceiptSigner

-- ════════════════════════════════════════════════════════════════════════
-- The wire
-- ════════════════════════════════════════════════════════════════════════

/-- The value of `X-OM-Receipt`. -/
def receiptHeader (rcpt : JsonValue) : List Char :=
  Base64.encode (encodeUtf8 (dumps compact rcpt))

/-- The event of a stream. -/
def receiptEvent (rcpt : JsonValue) : List Char :=
  "data: ".toList ++ dumps spaced (.obj [("om_receipt", rcpt)]) ++ "\n\n".toList

/-- `json.loads(base64.b64decode(header))` -/
def readHeader (header : List Char) : Option JsonValue := do
  loads (← decodeUtf8 (← Base64.decode header))

/-- `rcpt[name]`: of several members of one name, the last. -/
def member (rcpt : JsonValue) (name : String) : Option JsonValue :=
  match rcpt with
  | .obj members => members.reverse.lookup name
  | _ => none

/-- The receipt of an event, from its first line. -/
def readEvent (event : List Char) : Option JsonValue := do
  let line := event.takeWhile (· ≠ '\n')
  if "data: ".toList.isPrefixOf line then
    member (← loads (line.drop 6)) "om_receipt"
  else none

theorem readHeader_receiptHeader (rcpt : JsonValue) :
    readHeader (receiptHeader rcpt) = some rcpt := by
  rw [readHeader, receiptHeader, Base64.decode_encode]
  show (decodeUtf8 (encodeUtf8 (dumps compact rcpt))).bind loads = some rcpt
  rw [decodeUtf8_encodeUtf8]
  exact Json.loads_dumps compact rcpt

theorem takeWhile_newline {line : List Char} (h : ∀ c ∈ line, c ≠ '\n') :
    (line ++ "\n\n".toList).takeWhile (· ≠ '\n') = line := by
  have hline : ∀ c ∈ line, decide (c ≠ '\n') = true := fun c hc => decide_eq_true (h c hc)
  rw [List.takeWhile_append_of_pos hline]
  exact List.append_nil line

/-- The text of an event has no line break. -/
theorem takeWhile_receiptEvent (rcpt : JsonValue) :
    (receiptEvent rcpt).takeWhile (· ≠ '\n') =
      "data: ".toList ++ dumps spaced (.obj [("om_receipt", rcpt)]) := by
  apply takeWhile_newline
  intro c hc
  rcases List.mem_append.mp hc with hc | hc
  · have hdata : ∀ c ∈ "data: ".toList, c ≠ '\n' := by simp
    exact hdata c hc
  · have hpad : ∀ c ∈ spaced.text, Json.Printable c := by
      intro c hc
      rw [List.mem_singleton.mp hc]
      decide
    rintro rfl
    exact absurd (Json.printable_of_mem_dumps hpad _ hc) (by decide)

theorem readEvent_receiptEvent (rcpt : JsonValue) : readEvent (receiptEvent rcpt) = some rcpt := by
  have hprefix (text : List Char) : "data: ".toList.isPrefixOf ("data: ".toList ++ text) = true :=
    List.isPrefixOf_iff_prefix.mpr (List.prefix_append _ _)
  rw [readEvent]
  simp only [takeWhile_receiptEvent, hprefix, if_true]
  show (loads (dumps spaced _)).bind _ = some rcpt
  rw [Json.loads_dumps]
  rfl

-- ════════════════════════════════════════════════════════════════════════
-- The reader
-- ════════════════════════════════════════════════════════════════════════

def strMember (rcpt : JsonValue) (name : String) : Option String :=
  match member rcpt name with
  | some (.str s) => some s
  | _ => none

def intMember (rcpt : JsonValue) (name : String) : Option Int :=
  match member rcpt name with
  | some (.int n) => some n
  | _ => none

/-- The arguments of `canonical_payload`, from a receipt. -/
def receiptFields (rcpt : JsonValue) : Option ReceiptFields := do
  return {
    requestId := ← strMember rcpt "request_id"
    model := ← strMember rcpt "model"
    requestSha256 := ← strMember rcpt "request_sha256"
    responseSha256 := ← strMember rcpt "response_sha256"
    promptTokens := ← intMember rcpt "prompt_tokens"
    completionTokens := ← intMember rcpt "completion_tokens"
    cachedTokens := ← intMember rcpt "cached_tokens"
    ts := ← intMember rcpt "ts"
    pubkey := ← strMember rcpt "pubkey" }

/-- The public key, the signature and the rebuilt payload of a receipt, as they are checked. -/
def verifies (ed : Ed25519) (rcpt : JsonValue) : Option Bool := do
  let fields ← receiptFields rcpt
  let signature ← fromHex (← strMember rcpt "sig")
  return ed.verify (← fromHex fields.pubkey) signature (canonicalPayload fields)

/-- A reader of `rcpt` rebuilds `payload` from its fields, and the signature is over it. -/
structure ReceiptSigner.Signed {ed : Ed25519} (s : ReceiptSigner ed) (payload : List UInt8)
    (rcpt : JsonValue) : Prop where
  rebuilt : (receiptFields rcpt).map canonicalPayload = some payload
  sig : strMember rcpt "sig" = some (s.sign payload)
  verifies : verifies ed rcpt = some true

section

variable {ed : Ed25519} (s : ReceiptSigner ed)
  (requestId model requestSha256 responseSha256 : String)
  (promptTokens completionTokens cachedTokens ts : Int)

/-- The receipt is signed over its own fields. -/
theorem signed_buildReceipt :
    s.Signed
      (canonicalPayload { requestId, model, requestSha256, responseSha256, promptTokens,
                          completionTokens, cachedTokens, ts, pubkey := s.pubkeyHex })
      (s.buildReceipt requestId model requestSha256 responseSha256 promptTokens completionTokens
        cachedTokens ts) := by
  set rcpt := s.buildReceipt requestId model requestSha256 responseSha256 promptTokens
    completionTokens cachedTokens ts
  set fields : ReceiptFields :=
    { requestId, model, requestSha256, responseSha256, promptTokens, completionTokens,
      cachedTokens, ts, pubkey := s.pubkeyHex }
  have hread : receiptFields rcpt = some fields := rfl
  have hsig : strMember rcpt "sig" = some (s.sign (canonicalPayload fields)) := rfl
  have hsignature : fromHex (s.sign (canonicalPayload fields)) =
      some (ed.sign s.key (canonicalPayload fields)) :=
    fromHex_hex _
  have hpubkey : fromHex fields.pubkey = some (ed.publicKey s.key) := fromHex_hex _
  refine ⟨congrArg (Option.map canonicalPayload) hread, hsig, ?_⟩
  simp only [verifies, hread, hsig, hsignature, hpubkey, Option.bind_eq_bind, Option.bind_some,
    ed.verify_sign]
  rfl

end

/-- **Receipts**: the bytes determine the nine fields; of every receipt, a reader of the header
and a reader of the event have the bytes that were signed. -/
theorem receipts_binding_checkable :
    Function.Injective canonicalPayload ∧
    ∀ (ed : Ed25519) (s : ReceiptSigner ed)
      (requestId model requestSha256 responseSha256 : String)
      (promptTokens completionTokens cachedTokens ts : Int),
      let payload := canonicalPayload
        { requestId, model, requestSha256, responseSha256, promptTokens, completionTokens,
          cachedTokens, ts, pubkey := s.pubkeyHex }
      let rcpt := s.buildReceipt requestId model requestSha256 responseSha256 promptTokens
        completionTokens cachedTokens ts
      (∃ read, readHeader (receiptHeader rcpt) = some read ∧ s.Signed payload read) ∧
        ∃ read, readEvent (receiptEvent rcpt) = some read ∧ s.Signed payload read := by
  refine ⟨canonicalPayload_injective, ?_⟩
  intro ed s requestId model requestSha256 responseSha256 promptTokens completionTokens
    cachedTokens ts payload rcpt
  have hsigned : s.Signed payload rcpt :=
    signed_buildReceipt s requestId model requestSha256 responseSha256 promptTokens
      completionTokens cachedTokens ts
  exact ⟨⟨rcpt, readHeader_receiptHeader rcpt, hsigned⟩,
    ⟨rcpt, readEvent_receiptEvent rcpt, hsigned⟩⟩

end OpenModel.Inference
