import OpenModel.Inference.PickEngine

/-!
# Conversations and their engine

`_engine_session_key` names a conversation by its first two messages. A conversation that
begins with one message has only one at its first request, so its name changes once.

## Main results

- `Conversation.keepsEngine_iff`: which conversations keep their key, and their engine with it
-/

namespace OpenModel.Inference

structure ChatMessage where
  role : String
  content : String
  deriving DecidableEq, Repr

/-- The text of the messages that name a conversation. -/
def conversationPrefix (messages : List ChatMessage) : String :=
  "\n".intercalate ((messages.take 2).map fun m => m.role ++ ":" ++ m.content)

/-- The beginning of `hashlib.sha256(text.encode("utf-8")).hexdigest()`; `digest` is the rest. -/
def shortDigest (digest : String → String) (text : String) : String :=
  String.ofList ((digest text).toList.take 32)

/-- `_engine_session_key`; `sessionId` is the header. -/
def engineSessionKey (digest : String → String) (sessionId : Option String)
    (messages : List ChatMessage) (prompt : Option String) : Option String :=
  match sessionId.filter fun sid => sid ≠ "" with
  | some sid => some ("h:" ++ sid)
  | none =>
    if messages ≠ [] then some ("m:" ++ shortDigest digest (conversationPrefix messages))
    else
      match prompt.filter fun text => text ≠ "" with
      | some text => some ("m:" ++ shortDigest digest ("p:" ++ text))
      | none => none

/-- A conversation: what was sent first, and each answer with what was sent behind it. -/
structure Conversation where
  first : List ChatMessage
  turns : List (ChatMessage × List ChatMessage)
  first_ne : first ≠ []

namespace Conversation

/-- The message lists of the requests. -/
def requests (conv : Conversation) : List (List ChatMessage) :=
  conv.turns.scanl (fun messages turn => messages ++ turn.1 :: turn.2) conv.first

/-- The key of a request without the header. -/
def key (digest : String → String) (messages : List ChatMessage) : Option String :=
  engineSessionKey digest none messages none

/-- All requests have one key, and go to one engine while it takes them. -/
structure KeepsEngine (digest : String → String) (conv : Conversation) : Prop where
  sameKey : ∀ r ∈ conv.requests, ∀ r' ∈ conv.requests, key digest r = key digest r'
  /-- from any request on, as long as each call of the session finds its pin live -/
  routed : ∀ (s t : PickState) c choice cs session, ∀ r ∈ conv.requests,
    key digest r = some session → c.sessionKey = key digest r →
    s.pickEngine c = some (choice, t) → cs.Pairwise (fun c d => c.now ≤ d.now) →
    PickState.StaysLive session choice.engine (c.now + sessionTtl) cs →
    ∀ p ∈ cs.zip (t.choices cs), ∀ r' ∈ conv.requests, p.1.sessionKey = key digest r' →
      p.2 = some (.honoured choice.engine)

/-- The conversation begins with two messages, or has one request, or the digests of its two
prefixes coincide. -/
def Settled (digest : String → String) (conv : Conversation) : Prop :=
  conv.turns = [] ∨ 2 ≤ conv.first.length ∨
    ∃ question answer further rest, conv.first = [question] ∧
      conv.turns = (answer, further) :: rest ∧
      shortDigest digest (question.role ++ ":" ++ question.content) =
        shortDigest digest (question.role ++ ":" ++ question.content ++ "\n" ++
          (answer.role ++ ":" ++ answer.content))

variable {digest : String → String} {conv : Conversation} {messages r r' : List ChatMessage}

theorem key_of_ne_nil (h : messages ≠ []) :
    key digest messages = some ("m:" ++ shortDigest digest (conversationPrefix messages)) := by
  rw [key, engineSessionKey]
  exact if_pos h

/-- The name depends on two messages. -/
theorem key_congr (h : messages ≠ []) (htake : messages.take 2 = r.take 2) :
    key digest messages = key digest r := by
  have hr : r ≠ [] := by
    rintro rfl
    exact h (by simpa using htake)
  rw [key_of_ne_nil h, key_of_ne_nil hr, conversationPrefix, conversationPrefix, htake]

/-- A request is the first one, or goes on behind the first answer. -/
theorem mem_scanl {turns : List (ChatMessage × List ChatMessage)}
    (h : r ∈ turns.scanl (fun messages turn => messages ++ turn.1 :: turn.2) messages) :
    messages <+: r := by
  induction turns generalizing messages with
  | nil =>
    rw [List.mem_singleton.mp h]
  | cons turn turns ih =>
    rw [List.scanl_cons] at h
    rcases List.mem_cons.mp h with rfl | h
    · exact List.prefix_refl _
    · exact (List.prefix_append _ _).trans (ih h)

theorem mem_requests_cases (h : r ∈ conv.requests) :
    r = conv.first ∨ ∃ answer further rest, conv.turns = (answer, further) :: rest ∧
      conv.first ++ [answer] <+: r := by
  unfold requests at h
  cases hturns : conv.turns with
  | nil =>
    rw [hturns] at h
    exact .inl (List.mem_singleton.mp h)
  | cons turn rest =>
    rw [hturns, List.scanl_cons] at h
    rcases List.mem_cons.mp h with rfl | h
    · exact .inl rfl
    · refine .inr ⟨turn.1, turn.2, rest, rfl, List.IsPrefix.trans ?_ (mem_scanl h)⟩
      exact ⟨turn.2, by simp⟩

theorem first_mem : conv.first ∈ conv.requests := by
  unfold requests
  cases conv.turns with
  | nil => exact List.mem_singleton_self _
  | cons turn rest =>
    rw [List.scanl_cons]
    exact List.mem_cons_self

theorem requests_ne_nil (h : r ∈ conv.requests) : r ≠ [] := by
  obtain rfl | ⟨answer, further, rest, -, hle⟩ := mem_requests_cases h
  · exact conv.first_ne
  · rintro rfl
    exact absurd (List.prefix_nil.mp hle) (by simp)

/-- **Names**: the conversation keeps its key if and only if its first two messages are there
from the start, or do not matter. -/
theorem sameKey_iff : (∀ r ∈ conv.requests, ∀ r' ∈ conv.requests, key digest r = key digest r') ↔
    conv.Settled digest := by
  constructor
  · intro hsame
    cases hturns : conv.turns with
    | nil => exact .inl hturns
    | cons turn rest =>
      obtain ⟨question, more, hfirst⟩ := List.exists_cons_of_ne_nil conv.first_ne
      cases more with
      | cons second more =>
        refine .inr (.inl ?_)
        rw [hfirst]
        exact Nat.le_add_left 2 more.length
      | nil =>
        refine .inr (.inr ⟨question, turn.1, turn.2, rest, hfirst, hturns, ?_⟩)
        have hsecond : question :: turn.1 :: turn.2 ∈ conv.requests := by
          unfold requests
          rw [hturns, hfirst, List.scanl_cons]
          exact List.mem_cons_of_mem _ (by cases rest <;> simp)
        have heq := hsame _ first_mem _ hsecond
        rw [hfirst, key_of_ne_nil (List.cons_ne_nil _ _), key_of_ne_nil (List.cons_ne_nil _ _),
          Option.some.injEq] at heq
        exact (String.append_right_inj _).mp heq
  · intro hsettled
    suffices hfirst : ∀ r ∈ conv.requests, key digest r = key digest conv.first from
      fun r hr r' hr' => (hfirst r hr).trans (hfirst r' hr').symm
    intro r hr
    obtain rfl | ⟨answer, further, rest, hturns, hle⟩ := mem_requests_cases hr
    · rfl
    obtain hnil | htwo | ⟨question, answer', further', rest', hone, hturns', hdigest⟩ := hsettled
    · cases hnil.symm.trans hturns
    · refine key_congr (requests_ne_nil hr) ?_
      obtain ⟨rest', rfl⟩ := (List.prefix_append conv.first [answer]).trans hle
      exact List.take_append_of_le_length htwo
    · obtain ⟨rfl, rfl⟩ : answer' = answer ∧ further' = further := by
        cases hturns'.symm.trans hturns
        exact ⟨rfl, rfl⟩
      have htake : r.take 2 = [question, answer'] := by
        rw [hone] at hle
        obtain ⟨behind, rfl⟩ := hle
        rfl
      rw [key_congr (r := [question, answer']) (requests_ne_nil hr) htake, hone,
        key_of_ne_nil (List.cons_ne_nil _ _), key_of_ne_nil (List.cons_ne_nil _ _)]
      exact congrArg (fun text => some ("m:" ++ text)) hdigest.symm

/-- A key names a session. -/
theorem session_of_key {c : PickCall} {session : String} (hkey : key digest r = some session)
    (hne : r ≠ []) (hc : c.sessionKey = key digest r) : c.session = some session := by
  have hsession : session ≠ "" := by
    rintro rfl
    rw [key_of_ne_nil hne, Option.some.injEq] at hkey
    have hlen := congrArg (fun s : String => s.toList.length) hkey
    simp at hlen
  rw [PickCall.session, hc, hkey]
  exact if_pos (decide_eq_true hsession)

/-- **Conversations**: which ones keep their key and their engine. -/
theorem keepsEngine_iff (digest : String → String) (conv : Conversation) :
    conv.KeepsEngine digest ↔ conv.Settled digest := by
  refine ⟨fun h => sameKey_iff.mp h.sameKey, fun h => ⟨sameKey_iff.mpr h, ?_⟩⟩
  intro s t c choice cs session r hr hkey hc hpick hclock hlive p hp r' hr' hp'
  have hpin := PickState.get?_of_pick (session_of_key hkey (requests_ne_nil hr) hc) hpick
  have hkey' : key digest r' = some session := (sameKey_iff.mpr h r' hr' r hr).trans hkey
  exact PickState.honoured_of_staysLive hclock (.inl hpin) hlive p hp
    (session_of_key hkey' (requests_ne_nil hr') hp')

/-- The first 32 digits are those of SHA-256. -/
def greetingDigest (text : String) : String :=
  if text = "user:hi" then "823631717fa117455ac8d16e2d380b9b38840f26ba22f0c13d6e41751afb1f88"
  else "c4270863385b86e2876865d3416e35c59116c778e0062db6aba31b4e5d712f13"

/-- The usual conversation, from one question on. -/
def greeting : Conversation where
  first := [⟨"user", "hi"⟩]
  turns := [(⟨"assistant", "hello"⟩, [⟨"user", "how are you?"⟩])]
  first_ne := List.cons_ne_nil _ _

theorem greeting_not_keepsEngine : ¬ greeting.KeepsEngine greetingDigest := by
  intro h
  have hsame := h.sameKey _ first_mem
    [⟨"user", "hi"⟩, ⟨"assistant", "hello"⟩, ⟨"user", "how are you?"⟩] (by decide)
  exact absurd hsame (by decide +kernel)

end Conversation

end OpenModel.Inference
