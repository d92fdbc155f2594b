import OpenModel.FocBridge.DownloadModel
import OpenModel.Inference.Receipt
import OpenModel.Lib.Space

/-!
# Three bearer gates

The scheduler, the inference API and the bridge each compare the header `Authorization` with
`Bearer ` and their token. They see the bytes of the header in different ways: Go compares them
with the token in UTF-8, Starlette and Node have decoded them as Latin-1.

Go's gate takes the prefix off if it is there and then the blanks at the ends. Python's
`hmac.compare_digest` raises when it is given a character that is not ASCII.

## Main results

- `sameLanguage_iff`: the headers and tokens on which all three are exact
-/

namespace OpenModel

open Inference (encodeUtf8)
open Space (trimSpace isBlankByte)

/-- What comes of a request at a gate. -/
inductive GateOutcome
  | proceeds
  | responds (status : Nat)
  /-- an exception that becomes a 500 -/
  | raises
  deriving DecidableEq, Repr

/-- `"Bearer "` -/
def bearer : List Char := "Bearer ".toList

/-- `strings.TrimPrefix` -/
def trimPrefix (s pre : List UInt8) : List UInt8 := if pre <+: s then s.drop pre.length else s

/-- The text of header bytes in Latin-1. -/
def decodeLatin1 (bytes : List UInt8) : List Char := bytes.map fun b => Char.ofNat b.toNat

/-- `str.isascii` -/
def isAscii (s : List Char) : Bool := s.all fun c => c.toNat < 128

/-- `hmac.compare_digest` of two texts; `none` is a `TypeError`. -/
def compareDigest (a b : List Char) : Option Bool :=
  if isAscii a ∧ isAscii b then some (a == b) else none

/-- `requireToken` of the scheduler's health server. -/
def Scheduler.requireToken (token : List Char) (authorization : Option (List UInt8)) :
    GateOutcome :=
  if token ≠ [] then
    let got := trimSpace (trimPrefix (authorization.getD []) (encodeUtf8 bearer))
    if got ≠ encodeUtf8 token then .responds 401 else .proceeds
  else .proceeds

/-- `_require_auth` of the inference API. -/
def Inference.requireAuth (apiToken : List Char) (authorization : Option (List UInt8)) :
    GateOutcome :=
  if apiToken = [] then .proceeds
  else
    match compareDigest (decodeLatin1 (authorization.getD [])) (bearer ++ apiToken) with
    | none => .raises
    | some same => if same then .proceeds else .responds 401

/-- `requireAuth` of the bridge. -/
def FocBridge.requireAuth (authToken : List Char) (authorization : Option (List UInt8)) :
    GateOutcome :=
  if authToken = [] then .proceeds
  else if decodeLatin1 (authorization.getD []) ≠ bearer ++ authToken then .responds 401
  else .proceeds

section

variable (token : List Char) (authorization : Option (List UInt8))

/-- The header is `Bearer ` and the token, in UTF-8. -/
def Authorized : Prop := authorization = some (encodeUtf8 (bearer ++ token))

instance : Decidable (Authorized token authorization) := inferInstanceAs (Decidable (_ = _))

/-- Whoever has the token gets through, anyone else is answered 401. -/
def Exact (outcome : GateOutcome) : Prop :=
  outcome = if Authorized token authorization then .proceeds else .responds 401

instance (outcome : GateOutcome) : Decidable (Exact token authorization outcome) :=
  inferInstanceAs (Decidable (_ = _))

/-- All three gates are exact. -/
structure SameLanguage : Prop where
  scheduler : Exact token authorization (Scheduler.requireToken token authorization)
  inference : Exact token authorization (Inference.requireAuth token authorization)
  bridge : Exact token authorization (FocBridge.requireAuth token authorization)

/-- A token in UTF-8 with blanks around it. -/
def Padded (bytes : List UInt8) : Prop :=
  ∃ l r, (∀ b ∈ l, isBlankByte b) ∧ (∀ b ∈ r, isBlankByte b) ∧ bytes = l ++ encodeUtf8 token ++ r

/-- Only ASCII characters. When the header is right, the token has no blanks at its ends; when it
is not, it is not the token alone either, or in more blanks. -/
structure Unambiguous : Prop where
  token_ascii : ∀ c ∈ token, c.toNat < 128
  header_ascii : ∀ b ∈ authorization.getD [], b < 128
  trimmed : Authorized token authorization → trimSpace (encodeUtf8 token) = encodeUtf8 token
  other : ¬ Authorized token authorization →
    trimSpace (encodeUtf8 token) = encodeUtf8 token →
      ¬ Padded token (trimPrefix (authorization.getD []) (encodeUtf8 bearer))

end

variable {token text : List Char} {bytes : List UInt8} {authorization : Option (List UInt8)}

-- ════════════════════════════════════════════════════════════════════════
-- ASCII
-- ════════════════════════════════════════════════════════════════════════

theorem isAscii_iff {s : List Char} : isAscii s = true ↔ ∀ c ∈ s, c.toNat < 128 := by
  simp [isAscii]

theorem ascii_bearer : ∀ c ∈ bearer, c.toNat < 128 := isAscii_iff.mp (by decide)

theorem encodeUtf8_append (s t : List Char) : encodeUtf8 (s ++ t) = encodeUtf8 s ++ encodeUtf8 t :=
  List.flatMap_append

theorem utf8EncodeChar_of_ascii {c : Char} (h : c.toNat < 128) :
    String.utf8EncodeChar c = [c.toNat.toUInt8] := by
  have hle : c.val.toNat ≤ 127 := Nat.le_of_lt_succ h
  unfold String.utf8EncodeChar
  exact if_pos hle

/-- A byte in Latin-1. -/
theorem toNat_ofNat_toNat (b : UInt8) : (Char.ofNat b.toNat).toNat = b.toNat := by
  have hlt := b.toNat_lt
  rw [Char.ofNat, dif_pos (Or.inl (by omega))]
  rfl

theorem toUInt8_lt {n : Nat} (h : n < 128) : n.toUInt8 < 128 := by
  rw [UInt8.lt_iff_toNat_lt]
  show n % 256 < 128
  omega

theorem ascii_encodeUtf8 (h : ∀ c ∈ text, c.toNat < 128) : ∀ b ∈ encodeUtf8 text, b < 128 := by
  intro b hb
  obtain ⟨c, hc, hb⟩ := List.mem_flatMap.mp hb
  rw [utf8EncodeChar_of_ascii (h c hc), List.mem_singleton] at hb
  rw [hb]
  exact toUInt8_lt (h c hc)

/-- In ASCII the two encodings are one. -/
theorem decodeLatin1_encodeUtf8 (h : ∀ c ∈ text, c.toNat < 128) :
    decodeLatin1 (encodeUtf8 text) = text := by
  induction text with
  | nil => rfl
  | cons c text ih =>
    have hc := h c List.mem_cons_self
    have hmod : c.toNat.toUInt8.toNat = c.toNat := by
      show c.toNat % 256 = c.toNat
      omega
    rw [encodeUtf8, List.flatMap_cons, utf8EncodeChar_of_ascii hc, decodeLatin1, List.map_append]
    have hrest := ih fun d hd => h d (List.mem_cons_of_mem c hd)
    rw [encodeUtf8, decodeLatin1] at hrest
    rw [hrest, List.map_singleton, hmod, Char.ofNat_toNat]
    rfl

theorem encodeUtf8_decodeLatin1 (h : ∀ b ∈ bytes, b < 128) :
    encodeUtf8 (decodeLatin1 bytes) = bytes := by
  induction bytes with
  | nil => rfl
  | cons b bytes ih =>
    have hb := toNat_ofNat_toNat b
    have hlt : b.toNat < 128 := h b List.mem_cons_self
    have hrest := ih fun d hd => h d (List.mem_cons_of_mem b hd)
    rw [encodeUtf8, decodeLatin1] at hrest
    rw [encodeUtf8, decodeLatin1, List.map_cons, List.flatMap_cons, hrest,
      utf8EncodeChar_of_ascii (by omega), hb]
    simp

theorem ascii_decodeLatin1 :
    (∀ c ∈ decodeLatin1 bytes, c.toNat < 128) ↔ ∀ b ∈ bytes, b < 128 := by
  simp only [decodeLatin1, List.forall_mem_map]
  refine forall₂_congr fun b _ => ?_
  rw [toNat_ofNat_toNat]
  rfl

/-- A right header, as Starlette and Node see it. -/
theorem decodeLatin1_eq_iff (htoken : ∀ c ∈ token, c.toNat < 128)
    (hheader : ∀ b ∈ authorization.getD [], b < 128) :
    decodeLatin1 (authorization.getD []) = bearer ++ token ↔ Authorized token authorization := by
  have hascii : ∀ c ∈ bearer ++ token, c.toNat < 128 :=
    List.forall_mem_append.mpr ⟨ascii_bearer, htoken⟩
  constructor
  · intro h
    have hbytes := encodeUtf8_decodeLatin1 hheader
    rw [h] at hbytes
    cases authorization with
    | none =>
      rw [encodeUtf8_append] at hbytes
      cases hbytes
    | some bytes => exact congrArg some hbytes.symm
  · rintro rfl
    exact decodeLatin1_encodeUtf8 hascii

-- ════════════════════════════════════════════════════════════════════════
-- The gates
-- ════════════════════════════════════════════════════════════════════════

theorem trimPrefix_append (pre s : List UInt8) : trimPrefix (pre ++ s) pre = s := by
  rw [trimPrefix, if_pos (List.prefix_append pre s), List.drop_left]

theorem mem_of_mem_trimPrefix {s pre : List UInt8} {b : UInt8} (h : b ∈ trimPrefix s pre) :
    b ∈ s := by
  unfold trimPrefix at h
  split_ifs at h
  · exact List.mem_of_mem_drop h
  · exact h

/-- `hmac.compare_digest` wants ASCII. -/
theorem Inference.exact_requireAuth_iff (hne : token ≠ []) :
    Exact token authorization (Inference.requireAuth token authorization) ↔
      (∀ c ∈ token, c.toNat < 128) ∧ ∀ b ∈ authorization.getD [], b < 128 := by
  by_cases hascii : (∀ c ∈ token, c.toNat < 128) ∧ ∀ b ∈ authorization.getD [], b < 128
  · refine iff_of_true ?_ hascii
    have hboth : isAscii (decodeLatin1 (authorization.getD [])) ∧ isAscii (bearer ++ token) :=
      ⟨isAscii_iff.mpr (ascii_decodeLatin1.mpr hascii.2),
        isAscii_iff.mpr (List.forall_mem_append.mpr ⟨ascii_bearer, hascii.1⟩)⟩
    have hiff := decodeLatin1_eq_iff hascii.1 hascii.2
    rw [Exact, Inference.requireAuth, if_neg hne, compareDigest, if_pos hboth]
    by_cases hauth : Authorized token authorization
    · simp [hauth, hiff.mpr hauth]
    · simp [hauth, mt hiff.mp hauth]
  · refine iff_of_false ?_ hascii
    have hboth :
        ¬ (isAscii (decodeLatin1 (authorization.getD [])) ∧ isAscii (bearer ++ token)) := by
      rintro ⟨hheader, htoken⟩
      exact hascii ⟨(List.forall_mem_append.mp (isAscii_iff.mp htoken)).2,
        ascii_decodeLatin1.mp (isAscii_iff.mp hheader)⟩
    rw [Exact, Inference.requireAuth, if_neg hne, compareDigest, if_neg hboth]
    dsimp only
    split_ifs
    · nofun
    · nofun

/-- In ASCII the bridge is exact. -/
theorem FocBridge.exact_requireAuth (hne : token ≠ []) (htoken : ∀ c ∈ token, c.toNat < 128)
    (hheader : ∀ b ∈ authorization.getD [], b < 128) :
    Exact token authorization (FocBridge.requireAuth token authorization) := by
  have hiff := decodeLatin1_eq_iff htoken hheader
  rw [Exact, FocBridge.requireAuth, if_neg hne]
  by_cases hauth : Authorized token authorization
  · rw [if_neg (not_not.mpr (hiff.mpr hauth)), if_pos hauth]
  · rw [if_pos (mt hiff.mp hauth), if_neg hauth]

/-- The gate of the bridge stands in front of its other checks. -/
theorem FocBridge.requireAuth_iff_accept {app : App} {inFlight : List Location}
    {req : DownloadRequest} (h : req.authorization.toList = decodeLatin1 (authorization.getD [])) :
    FocBridge.requireAuth app.authToken.toList authorization = .responds 401 ↔
      app.accept inFlight req = .error 401 := by
  have hempty : app.authToken.toList = [] ↔ app.authToken = "" := String.toList_eq_nil_iff
  have hsame : req.authorization.toList = bearer ++ app.authToken.toList ↔
      req.authorization = "Bearer " ++ app.authToken := by
    rw [← String.toList_inj, String.toList_append]
    rfl
  rw [FocBridge.requireAuth, ← h, App.accept]
  by_cases hbad : app.authToken ≠ "" ∧ req.authorization ≠ "Bearer " ++ app.authToken
  · rw [if_neg (mt hempty.mp hbad.1), if_pos (mt hsame.mp hbad.2), if_pos hbad]
    exact iff_of_true rfl rfl
  · have hopen : app.authToken.toList = [] ∨
        ¬ req.authorization.toList ≠ bearer ++ app.authToken.toList := by
      rw [hempty, not_not, hsame]
      tauto
    rw [if_neg hbad]
    refine iff_of_false ?_ ?_
    · obtain hnil | hright := hopen
      · rw [if_pos hnil]
        nofun
      · rw [if_neg hright]
        split_ifs
        · nofun
        · nofun
    · intro heq
      split_ifs at heq
      · cases heq
      · cases heq
      · cases heq
      · cases heq
      · split at heq
        · cases heq
        · split_ifs at heq
          cases heq
      · split at heq
        · cases heq
        · split_ifs at heq
          cases heq

/-- What the scheduler lets through. -/
theorem Scheduler.exact_requireToken_iff (hne : token ≠ []) :
    Exact token authorization (Scheduler.requireToken token authorization) ↔
      (trimSpace (trimPrefix (authorization.getD []) (encodeUtf8 bearer)) = encodeUtf8 token ↔
        Authorized token authorization) := by
  rw [Exact, Scheduler.requireToken, if_pos hne]
  dsimp only
  by_cases hgot : trimSpace (trimPrefix (authorization.getD []) (encodeUtf8 bearer)) =
      encodeUtf8 token
  · rw [if_neg (not_not.mpr hgot)]
    by_cases hauth : Authorized token authorization
    · simp [hgot, hauth]
    · simp [hgot, hauth]
  · rw [if_pos hgot]
    by_cases hauth : Authorized token authorization
    · simp [hgot, hauth]
    · simp [hgot, hauth]

/-- In ASCII, what is trimmed to the token is a token with blanks around it. -/
theorem trimSpace_eq_iff_padded (hbytes : ∀ b ∈ bytes, b < 128)
    (htoken : trimSpace (encodeUtf8 token) = encodeUtf8 token)
    (hascii : ∀ c ∈ token, c.toNat < 128) :
    trimSpace bytes = encodeUtf8 token ↔ Padded token bytes := by
  rw [Space.trimSpace_of_ascii (ascii_encodeUtf8 hascii)] at htoken
  rw [Space.trimSpace_of_ascii hbytes, Space.trim_eq_iff htoken]
  rfl

theorem trimSpace_ne_of_untrimmed (hbytes : ∀ b ∈ bytes, b < 128)
    (htoken : trimSpace (encodeUtf8 token) ≠ encodeUtf8 token) :
    trimSpace bytes ≠ encodeUtf8 token := by
  intro heq
  refine htoken ?_
  have hascii : ∀ b ∈ encodeUtf8 token, b < 128 := by
    rw [← heq, Space.trimSpace_of_ascii hbytes]
    exact fun b hb => hbytes b (Space.mem_of_mem_trim hb)
  rw [Space.trimSpace_of_ascii hascii, ← heq, Space.trimSpace_of_ascii hbytes, Space.trim_trim]

/-- **One language**: the three gates are exact if and only if token and header are ASCII and
the blanks and the missing prefix that the scheduler forgives make no difference. -/
theorem sameLanguage_iff (hne : token ≠ []) :
    SameLanguage token authorization ↔ Unambiguous token authorization := by
  have hgo := @Scheduler.exact_requireToken_iff token authorization hne
  have hpython := @Inference.exact_requireAuth_iff token authorization hne
  constructor
  · rintro ⟨hscheduler, hinference, -⟩
    obtain ⟨htoken, hheader⟩ := hpython.mp hinference
    have hexact := hgo.mp hscheduler
    have hgot : ∀ b ∈ trimPrefix (authorization.getD []) (encodeUtf8 bearer), b < 128 :=
      fun b hb => hheader b (mem_of_mem_trimPrefix hb)
    refine ⟨htoken, hheader, fun hauth => ?_, fun hauth htrimmed hpadded => ?_⟩
    · by_contra htrimmed
      exact trimSpace_ne_of_untrimmed hgot htrimmed (hexact.mpr hauth)
    · exact hauth (hexact.mp ((trimSpace_eq_iff_padded hgot htrimmed htoken).mpr hpadded))
  · rintro ⟨htoken, hheader, htrimmed, hother⟩
    have hgot : ∀ b ∈ trimPrefix (authorization.getD []) (encodeUtf8 bearer), b < 128 :=
      fun b hb => hheader b (mem_of_mem_trimPrefix hb)
    refine ⟨hgo.mpr ⟨fun heq => ?_, fun hauth => ?_⟩, hpython.mpr ⟨htoken, hheader⟩,
      FocBridge.exact_requireAuth hne htoken hheader⟩
    · by_contra hauth
      by_cases htrim : trimSpace (encodeUtf8 token) = encodeUtf8 token
      · exact hother hauth htrim ((trimSpace_eq_iff_padded hgot htrim htoken).mp heq)
      · exact trimSpace_ne_of_untrimmed hgot htrim heq
    · have hbytes : authorization.getD [] = encodeUtf8 bearer ++ encodeUtf8 token := by
        rw [show authorization = _ from hauth, Option.getD_some, encodeUtf8_append]
      rw [hbytes, trimPrefix_append]
      exact htrimmed hauth

theorem sameLanguage_rightHeader :
    SameLanguage "wtok".toList (some (encodeUtf8 "Bearer wtok".toList)) := by
  have hbytes : (encodeUtf8 "Bearer wtok".toList).all (fun b => b < 128) = true := by decide
  refine (sameLanguage_iff (by decide)).mpr
    ⟨isAscii_iff.mp (by decide), by simpa using hbytes, fun _ => ?_, ?_⟩
  · decide +kernel
  · exact fun hauth => absurd rfl hauth

/-- The scheduler is content with the token alone, and the inference API breaks on a letter with
an accent. -/
theorem bareToken_not_sameLanguage :
    ¬ SameLanguage "wtok".toList (some (encodeUtf8 "wtok".toList)) ∧
      ¬ SameLanguage "wtok".toList (some (encodeUtf8 "Bearer é".toList)) := by
  refine ⟨fun h => absurd h.scheduler ?_, fun h => absurd h.inference ?_⟩
  · decide +kernel
  · decide +kernel

end OpenModel
