import OpenModel.Inference.NamedWeights

/-!
# What a request reports

`generate` and `generate_stream` report a completed generation when the core's generator ends:
the last output becomes the result, or the final chunk with the usage, for which the API issues
the receipt. The state of the engine is looked at only when an output arrives, and every finish
reason but one is reported as "stop". So an aborted generation is reported as complete when its
generator just ends.

An observer notes, for each request, whether the engine has left RUNNING since its admission.
In the runs of `honestCore` a generator ends only after an output that was finished by stop or
length, and delivers nothing to a request whose engine went away and came back; there every
report is of a complete generation.

## Main results

- `billed_of_mem_sseGenerator`: usage and receipts come from a final chunk
- `Completion.agrees_of_reach`: a request reports when the engine model serves it
- `Completion.complete_of_reach`: what is reported is complete
- `Completion.abortedThenEnded_not_complete`: an aborted generation is reported as complete
-/

namespace OpenModel.Inference

-- ════════════════════════════════════════════════════════════════════════
-- Outputs and reports
-- ════════════════════════════════════════════════════════════════════════

/-- An output of the core for one request. The tokens are the lengths of its lists. -/
structure RequestOutput where
  text : List Char
  promptTokens : Nat
  completionTokens : Nat
  numCachedTokens : Option Int := none
  finishReason : Option String := none
  deriving DecidableEq, Repr

structure GenerateResult where
  text : List Char
  promptTokens : Nat
  completionTokens : Nat
  finishReason : String
  cachedTokens : Nat
  deriving DecidableEq, Repr

structure StreamChunk where
  textDelta : List Char
  finishReason : Option String := none
  promptTokens : Nat := 0
  completionTokens : Nat := 0
  cachedTokens : Nat := 0
  deriving DecidableEq, Repr

/-- `word in str(reason).lower()`, for a word of ASCII letters. -/
def mentions (reason word : String) : Bool := word.toList <:+: reason.toList.map Char.toLower

def extractCachedTokens (numCachedTokens : Option Int) (promptTokens : Nat) : Nat :=
  match numCachedTokens with
  | none => 0
  | some n =>
    if n < 0 then 0
    else if promptTokens ≠ 0 ∧ n > promptTokens then promptTokens
    else n.toNat

namespace RequestOutput

/-- vLLM's finish reason in OpenAI format. -/
def reportedReason (out : RequestOutput) : String :=
  match out.finishReason with
  | some reason => if mentions reason "length" then "length" else "stop"
  | none => "stop"

def cachedTokens (out : RequestOutput) : Nat :=
  extractCachedTokens out.numCachedTokens out.promptTokens

/-- What `generate` makes of the last output. -/
def result (out : RequestOutput) : GenerateResult where
  text := out.text
  promptTokens := out.promptTokens
  completionTokens := out.completionTokens
  finishReason := out.reportedReason
  cachedTokens := out.cachedTokens

/-- What `generate_stream` makes of the last output. -/
def finalChunk (out : RequestOutput) : StreamChunk where
  textDelta := []
  finishReason := some out.reportedReason
  promptTokens := out.promptTokens
  completionTokens := out.completionTokens
  cachedTokens := out.cachedTokens

/-- The core finished the request, by a stop or at the length limit. -/
def finished (out : RequestOutput) : Bool :=
  out.finishReason.any fun reason => mentions reason "stop" || mentions reason "length"

end RequestOutput

/-- One call of `generate` or `generate_stream`: the last output that passed the state check,
the chunks that the stream has yielded and the result that the call has returned. Then what an
observer notes: whether the engine has left RUNNING since the admission, and whether it had
when the last output arrived. -/
structure Call where
  finalOutput : Option RequestOutput := none
  prevText : List Char := []
  chunks : List StreamChunk := []
  result : Option GenerateResult := none
  left : Bool := false
  leftBefore : Bool := false
  deriving DecidableEq, Repr

namespace Call

/-- An output passes the state check. -/
def receive (c : Call) (out : RequestOutput) : Call :=
  let delta := out.text.drop c.prevText.length
  { c with
    finalOutput := some out
    prevText := out.text
    chunks := c.chunks ++ if delta = [] then [] else [{ textDelta := delta }]
    leftBefore := c.left }

/-- The outputs have ended. -/
def finish (c : Call) : Call :=
  match c.finalOutput with
  | none => c
  | some out => { c with result := some out.result, chunks := c.chunks ++ [out.finalChunk] }

/-- The call has returned a result, or has yielded a final chunk. -/
def Reports (c : Call) : Prop := c.result.isSome ∨ ∃ chunk ∈ c.chunks, chunk.finishReason.isSome

/-- The engine was RUNNING from the admission to the last output, which the core finished. -/
def Complete (c : Call) : Prop := c.leftBefore = false ∧ ∃ out ∈ c.finalOutput, out.finished

/-- Nothing was delivered late, and what has been reported was finished. -/
structure Honest (c : Call) : Prop where
  ontime : c.leftBefore = false
  finished : c.Reports → ∃ out ∈ c.finalOutput, out.finished

@[simp] theorem receive_reports {c : Call} {out : RequestOutput} :
    (c.receive out).Reports ↔ c.Reports := by
  simp only [Reports, receive]
  split_ifs <;> simp

theorem finish_reports {c : Call} : c.finish.Reports ↔ c.Reports ∨ c.finalOutput.isSome := by
  cases hfinal : c.finalOutput with
  | none => simp [finish, hfinal]
  | some out => simp [finish, hfinal, Reports]

@[simp] theorem finish_leftBefore {c : Call} : c.finish.leftBefore = c.leftBefore := by
  unfold finish
  split <;> rfl

@[simp] theorem finish_finalOutput {c : Call} : c.finish.finalOutput = c.finalOutput := by
  unfold finish
  split <;> rfl

/-- The engine is seen not to be RUNNING. -/
def leave (c : Call) : Call := { c with left := true }

@[simp] theorem leave_reports {c : Call} : c.leave.Reports ↔ c.Reports := Iff.rfl

end Call

-- ════════════════════════════════════════════════════════════════════════
-- What the API issues
-- ════════════════════════════════════════════════════════════════════════

/-- What the engine contributes to `build_receipt`. -/
structure ReceiptBody where
  text : List Char
  promptTokens : Nat
  completionTokens : Nat
  cachedTokens : Nat
  deriving DecidableEq, Repr

/-- How the iteration of the stream ended, if it did. -/
inductive StreamEnd
  | iterating
  | ended
  /-- a `RuntimeError` or a `ValueError` -/
  | raised
  /-- the client went away, or another exception -/
  | dropped
  deriving DecidableEq, Repr

inductive SseEvent
  | delta (content : List Char)
  /-- finish reason and usage -/
  | final (finishReason : String) (promptTokens completionTokens cachedTokens : Nat)
  | omReceipt (receipt : ReceiptBody)
  | error
  | done
  deriving DecidableEq, Repr

/-- Usage or a receipt. -/
def SseEvent.bills : SseEvent → Bool
  | final _ _ _ _ | omReceipt _ => true
  | _ => false

def StreamChunk.event (chunk : StreamChunk) : SseEvent :=
  match chunk.finishReason with
  | some reason => .final reason chunk.promptTokens chunk.completionTokens chunk.cachedTokens
  | none => .delta chunk.textDelta

/-- The receipt for a stream that has ended, once its usage is known. -/
def streamReceipt (chunks : List StreamChunk) : Option ReceiptBody :=
  let parts := chunks.filter fun chunk => chunk.finishReason.isNone
  let finalUsage := (chunks.filter fun chunk => chunk.finishReason.isSome).getLast?
  finalUsage.map fun chunk =>
    ⟨(parts.map StreamChunk.textDelta).flatten, chunk.promptTokens, chunk.completionTokens,
      chunk.cachedTokens⟩

/-- The events of `sse_generator` for the chunks that it has received. -/
def sseGenerator (wantReceipt : Bool) (chunks : List StreamChunk) (how : StreamEnd) :
    List SseEvent :=
  chunks.map StreamChunk.event ++
    match how with
    | .ended =>
      (if wantReceipt then (streamReceipt chunks).toList.map .omReceipt else []) ++ [.done]
    | .raised => [.error, .done]
    | .iterating | .dropped => []

/-- The receipt in the header of a response that is not streamed, with the usage beside it. -/
def completionReceipt (result : Option GenerateResult) : Option ReceiptBody :=
  result.map fun r => ⟨r.text, r.promptTokens, r.completionTokens, r.cachedTokens⟩

theorem mem_of_streamReceipt {chunks : List StreamChunk} (h : (streamReceipt chunks).isSome) :
    ∃ chunk ∈ chunks, chunk.finishReason.isSome := by
  rw [streamReceipt, Option.isSome_map] at h
  obtain ⟨chunk, hlast⟩ := Option.isSome_iff_exists.mp h
  have hmem := List.mem_filter.mp (List.mem_of_getLast? hlast)
  exact ⟨chunk, hmem.1, hmem.2⟩

/-- Usage and receipts come from a final chunk. -/
theorem billed_of_mem_sseGenerator {wantReceipt : Bool} {chunks : List StreamChunk}
    {how : StreamEnd} {event : SseEvent} (h : event ∈ sseGenerator wantReceipt chunks how)
    (hbills : event.bills) : ∃ chunk ∈ chunks, chunk.finishReason.isSome := by
  rcases List.mem_append.mp h with h | h
  · obtain ⟨chunk, hchunk, rfl⟩ := List.mem_map.mp h
    refine ⟨chunk, hchunk, ?_⟩
    cases hreason : chunk.finishReason with
    | none => simp [StreamChunk.event, hreason, SseEvent.bills] at hbills
    | some reason => rfl
  · cases how with
    | iterating | dropped => cases h
    | raised =>
      obtain rfl | rfl : event = .error ∨ event = .done := by simpa using h
      · cases hbills
      · cases hbills
    | ended =>
      rcases List.mem_append.mp h with h | h
      · split_ifs at h
        · obtain ⟨receipt, hreceipt, -⟩ := List.mem_map.mp h
          exact mem_of_streamReceipt (Option.isSome_of_mem (Option.mem_toList.mp hreceipt))
        · cases h
      · obtain rfl := List.mem_singleton.mp h
        cases hbills

/-- Usage or a receipt is issued, in the response or in some event of the stream. -/
def Call.Billed (c : Call) : Prop :=
  (completionReceipt c.result).isSome ∨
    ∃ wantReceipt how, ∃ event ∈ sseGenerator wantReceipt c.chunks how, event.bills

theorem Call.reports_of_billed {c : Call} (h : c.Billed) : c.Reports := by
  obtain h | ⟨wantReceipt, how, event, hevent, hbills⟩ := h
  · exact .inl (by simpa [completionReceipt] using h)
  · exact .inr (billed_of_mem_sseGenerator hevent hbills)

-- ════════════════════════════════════════════════════════════════════════
-- One thread
-- ════════════════════════════════════════════════════════════════════════

/-- Iterating the outputs of the core. -/
def Pc.iterates : Pc → Bool
  | generating _ _ => true
  | _ => false

theorem Pc.not_isFinished_of_iterates {pc : Pc} (h : pc.iterates) : pc.isFinished = false := by
  cases pc with
  | finished result => cases h
  | _ => rfl

/-- A call stands where its thread does. -/
def Call.Agrees (c : Call) : Option Pc → Prop
  | none | some .created => c.finalOutput = none ∧ ¬ c.Reports
  | some (.generating _ hasOutput) => c.finalOutput.isSome = hasOutput ∧ ¬ c.Reports
  | some (.finished result) => c.Reports ↔ ∃ weights, result = .served weights
  | some _ => ¬ c.Reports

namespace VLLMEngine

variable {e : VLLMEngine} {k : Nat} {op : Op} {pc : Pc} {o : Outcome} {slice : Slice}

/-- A request begins to iterate; no other coroutine does. -/
theorem enter_generating :
    (e.enter op).pc.servedBy = none ∨ ∃ weights, (e.enter op).pc = .generating weights false := by
  cases op with
  | switchModel new =>
    simp only [enter, switchEnter]
    split_ifs <;> exact .inl rfl
  | generate requested =>
    simp only [enter, beginGenerate]
    split
    · exact .inr ⟨_, rfl⟩
    · exact .inl rfl
  | _ => exact .inl rfl

/-- Outputs and the end of the outputs come to a thread that iterates them. -/
theorem iterates_of_outcome (ho : o = .output ∨ o = .ended) (h : e.runPc k op pc o = some slice) :
    pc.iterates := by
  cases pc with
  | generating weights hasOutput => rfl
  | destroy t phase => obtain rfl | rfl := ho <;> cases phase <;> cases h
  | _ => obtain rfl | rfl := ho <;> cases h

end VLLMEngine

namespace Call

variable {c : Call} {e : VLLMEngine} {k : Nat} {op : Op} {pc : Pc} {o : Outcome} {slice : Slice}

/-- A thread that serves nothing reports nothing. -/
theorem agrees_of_servedBy (hpc : pc ≠ .created) (hserved : pc.servedBy = none)
    (h : ¬ c.Reports) : c.Agrees (some pc) := by
  cases pc with
  | created => exact absurd rfl hpc
  | generating weights hasOutput => cases hserved
  | finished result =>
    refine iff_of_false h ?_
    rintro ⟨weights, rfl⟩
    cases hserved
  | _ => exact h

theorem Agrees.not_reports (h : c.Agrees (some pc)) (hpc : pc.isFinished = false) :
    ¬ c.Reports := by
  cases pc with
  | finished result => cases hpc
  | generating weights hasOutput => exact h.2
  | created => exact h.2
  | _ => exact h

theorem Agrees.leave {pc : Option Pc} (h : c.Agrees pc) : c.leave.Agrees pc := h

/-- The first stretch of a coroutine. -/
theorem Agrees.enter (h : c.Agrees (some .created)) : c.Agrees (some (e.enter op).pc) := by
  have henter : (e.enter op).pc.servedBy = none ∨
      ∃ weights, (e.enter op).pc = .generating weights false := VLLMEngine.enter_generating
  obtain hserved | ⟨weights, hpc⟩ := henter
  · exact agrees_of_servedBy VLLMEngine.enter_ne_created hserved h.2
  · rw [hpc]
    exact ⟨by rw [h.1]; rfl, h.2⟩

/-- An output arrives. -/
theorem Agrees.output {out : RequestOutput} (h : c.Agrees (some pc))
    (hslice : e.runPc k op pc .output = some slice) :
    (if slice.pc.iterates then c.receive out else c).Agrees (some slice.pc) := by
  cases pc with
  | generating weights hasOutput =>
    simp only [VLLMEngine.runPc, VLLMEngine.generateStep] at hslice
    split_ifs at hslice <;> cases hslice
    · exact ⟨rfl, mt receive_reports.mp h.2⟩
    · exact h.2
    · exact agrees_of_servedBy Pc.noConfusion rfl h.2
  | _ => cases VLLMEngine.iterates_of_outcome (.inl rfl) hslice

/-- The outputs have ended. -/
theorem Agrees.finish (h : c.Agrees (some pc)) (hslice : e.runPc k op pc .ended = some slice) :
    c.finish.Agrees (some slice.pc) := by
  cases pc with
  | generating weights hasOutput =>
    cases hslice
    show c.finish.Reports ↔ _
    rw [finish_reports, h.1]
    cases hasOutput with
    | false => simpa using h.2
    | true => simp
  | _ => cases VLLMEngine.iterates_of_outcome (.inr rfl) hslice

/-- Anything else. -/
theorem Agrees.other (h : c.Agrees (some pc)) (ho : o ≠ .output ∧ o ≠ .ended)
    (hslice : e.runPc k op pc o = some slice) : c.Agrees (some slice.pc) := by
  have hcreated : slice.pc ≠ .created := VLLMEngine.runPc_ne_created hslice
  cases hserved : slice.pc.servedBy with
  | none =>
    refine agrees_of_servedBy hcreated hserved (h.not_reports ?_)
    cases pc with
    | finished result => cases o <;> cases hslice
    | _ => rfl
  | some weights =>
    by_cases hpc : pc = .created
    · subst hpc
      cases o <;> cases hslice
      exact h.enter
    · have hbefore := VLLMEngine.runPc_servedBy hpc hslice hserved
      cases pc with
      | generating weights' hasOutput =>
        cases o with
        | output => exact absurd rfl ho.1
        | ended => exact absurd rfl ho.2
        | failed | stalled | coreDead =>
          cases hslice
          cases hserved
        | _ => cases hslice
      | finished result => cases o <;> cases hslice
      | _ => cases hbefore

end Call

-- ════════════════════════════════════════════════════════════════════════
-- Calls on one engine
-- ════════════════════════════════════════════════════════════════════════

/-- An engine with the calls of its threads. -/
structure Completion where
  sys : EngineSys
  calls : Nat → Call := fun _ => {}

inductive CompletionLabel
  | engine (l : Label)
  /-- thread `k` receives an output -/
  | output (k : Nat) (out : RequestOutput)
  deriving DecidableEq, Repr

namespace CompletionLabel

/-- The step of the engine. An output comes with its contents only. -/
def toEngine : CompletionLabel → Option Label
  | engine (.run _ .output) => none
  | engine l => some l
  | output k _ => some (.run k .output)

/-- What a step makes of the call of thread `k`, which then stands at `pc`. -/
def follow (l : CompletionLabel) (k : Nat) (pc : Option Pc) (c : Call) : Call :=
  match l with
  | output j out => if j = k ∧ pc.any Pc.iterates then c.receive out else c
  | engine (.run j .ended) => if j = k then c.finish else c
  | engine _ => c

end CompletionLabel

namespace Completion

variable {s t : Completion} {k : Nat} {l : CompletionLabel}

/-- The observer looks at the engine after each step. -/
def observe (sys : EngineSys) (k : Nat) (c : Call) : Call :=
  if sys.engine.state ≠ .running ∧ (sys.pcAt k).any Pc.serves then c.leave else c

def step (s : Completion) (l : CompletionLabel) : Option Completion :=
  (l.toEngine.bind s.sys.step).map fun sys =>
    { sys, calls := fun k => observe sys k (l.follow k (sys.pcAt k) (s.calls k)) }

/-- A new engine without calls. -/
def init (s : Completion) : Prop := s.sys.init ∧ s.calls = fun _ => {}

def system : Transition.System Completion CompletionLabel := ⟨init, step⟩

/-- The outputs of a request end only behind one that the core finished, by a stop or at the
length limit, and none comes to a request in RUNNING whose engine was away. -/
def honestCore (s : Completion) : CompletionLabel → Bool
  | .output k _ => s.sys.engine.state != .running || !(s.calls k).left
  | .engine (.run k .ended) => (s.calls k).finalOutput.all RequestOutput.finished
  | .engine _ => true

theorem observe_eq (sys : EngineSys) (k : Nat) (c : Call) :
    observe sys k c = c ∨ observe sys k c = c.leave := by
  unfold observe
  split_ifs
  · exact .inr rfl
  · exact .inl rfl

theorem step_eq_some : s.step l = some t ↔ ∃ l', l.toEngine = some l' ∧
    s.sys.step l' = some t.sys ∧
    t.calls = fun k => observe t.sys k (l.follow k (t.sys.pcAt k) (s.calls k)) := by
  obtain ⟨sys, calls⟩ := t
  simp only [step, Option.map_eq_some_iff, Option.bind_eq_some_iff, Completion.mk.injEq]
  constructor
  · rintro ⟨sys', ⟨l', hl, hstep⟩, rfl, rfl⟩
    exact ⟨l', hl, hstep, rfl⟩
  · rintro ⟨l', hl, hstep, rfl⟩
    exact ⟨sys, ⟨l', hl, hstep⟩, rfl, rfl⟩

/-- Every call stands where its thread does. -/
def Agreeing (s : Completion) : Prop := ∀ k, (s.calls k).Agrees (s.sys.pcAt k)

end Completion

namespace CompletionLabel

variable {l : CompletionLabel} {k j : Nat} {o : Outcome} {pc : Option Pc} {c : Call}

theorem toEngine_engine {l l' : Label} (hl : (engine l).toEngine = some l') :
    l = l' ∧ ∀ k, l' ≠ .run k .output := by
  cases l with
  | run j o =>
    cases o <;> cases hl <;> refine ⟨rfl, fun k h => ?_⟩ <;> cases h
  | _ =>
    cases hl
    exact ⟨rfl, fun k h => by cases h⟩

theorem follow_engine {l : Label} (h : l ≠ .run k .ended) : (engine l).follow k pc c = c := by
  cases l with
  | run j o =>
    cases o with
    | ended =>
      refine if_neg ?_
      rintro rfl
      exact h rfl
    | _ => rfl
  | _ => rfl

/-- The step of another thread. -/
theorem follow_of_ne {l' : Label} (hl : l.toEngine = some l') (h : ∀ o, l' ≠ .run k o) :
    l.follow k pc c = c := by
  cases l with
  | output j out =>
    cases hl
    refine if_neg fun hj => h .output ?_
    rw [hj.1]
  | engine l =>
    obtain ⟨rfl, -⟩ := toEngine_engine hl
    exact follow_engine (h .ended)

/-- The step of thread `k` itself. -/
theorem agrees_follow {e : VLLMEngine} {op : Op} {pc : Pc} {slice : Slice}
    (hl : l.toEngine = some (.run k o)) (h : c.Agrees (some pc))
    (hslice : e.runPc k op pc o = some slice) :
    (l.follow k (some slice.pc) c).Agrees (some slice.pc) := by
  cases l with
  | output j out =>
    cases hl
    simpa [follow] using h.output hslice
  | engine l =>
    obtain ⟨rfl, hout⟩ := toEngine_engine hl
    by_cases ho : o = .ended
    · subst ho
      simpa [follow] using h.finish hslice
    · rw [follow_engine (by simpa using ho)]
      exact h.other ⟨fun h => hout k (by rw [h]), ho⟩ hslice

end CompletionLabel

namespace Completion

variable {s t : Completion} {k : Nat} {l : CompletionLabel}

theorem agrees_spawn {sys : EngineSys} {op : Op} {c : Call} (h : c.Agrees (sys.pcAt k)) :
    c.Agrees ((sys.spawn op).pcAt k) := by
  rw [EngineSys.pcAt_spawn]
  split_ifs with hk
  · rw [hk, EngineSys.pcAt_length] at h
    exact h
  · exact h

/-- Another thread suspends. -/
theorem agrees_settle {sys : EngineSys} {j : Nat} {th : Thread} {slice : Slice} {c : Call}
    (hth : sys.threads[j]? = some th) (hk : k ≠ j) (h : c.Agrees (sys.pcAt k)) :
    c.Agrees ((sys.settle j th slice).pcAt k) := by
  rw [EngineSys.pcAt_settle hth, if_neg hk]
  split_ifs with hspawn
  · rw [hspawn.2, EngineSys.pcAt_length] at h
    exact h
  · exact h

theorem Agreeing.step (h : s.Agreeing) (hstep : s.step l = some t) : t.Agreeing := by
  obtain ⟨l', hl, hsys, hcalls⟩ := step_eq_some.mp hstep
  intro k
  have hfollow : (l.follow k (t.sys.pcAt k) (s.calls k)).Agrees (t.sys.pcAt k) := by
    obtain ⟨op, -, rfl, htsys⟩ | ⟨op, -, rfl, -⟩ | ⟨j, o, rfl, hrun⟩ := EngineSys.step_cases hsys
    · rw [CompletionLabel.follow_of_ne hl fun o => Label.noConfusion, htsys]
      exact agrees_spawn (h k)
    · obtain ⟨slice, hth, hslice, htsys⟩ := EngineSys.thread_of_call hsys
      rw [CompletionLabel.follow_of_ne hl fun o => Label.noConfusion, htsys]
      have hspawned : (s.calls k).Agrees ((s.sys.spawn op).pcAt k) := agrees_spawn (h k)
      by_cases hk : k = s.sys.threads.length
      · subst hk
        rw [EngineSys.pcAt_of_threads hth] at hspawned
        rw [EngineSys.Ownership.settle_self hth]
        cases hslice
        exact hspawned.enter
      · exact agrees_settle hth hk hspawned
    · obtain ⟨th, slice, hth, hslice, htsys⟩ := EngineSys.runThread_eq_some.mp hrun
      rw [← htsys]
      by_cases hk : k = j
      · subst hk
        rw [EngineSys.Ownership.settle_self hth]
        have hat := h k
        rw [EngineSys.pcAt_of_threads hth] at hat
        exact CompletionLabel.agrees_follow hl hat hslice
      · rw [CompletionLabel.follow_of_ne hl fun o heq => hk (Label.run.inj heq).1.symm]
        exact agrees_settle hth hk (h k)
  simp only [hcalls]
  rcases observe_eq t.sys k (l.follow k (t.sys.pcAt k) (s.calls k)) with heq | heq
  · rw [heq]
    exact hfollow
  · rw [heq]
    exact hfollow.leave

/-- A request reports when the engine serves it. -/
theorem agrees_of_reach {ok : Completion → CompletionLabel → Prop} (h : system.Reach ok s) :
    s.Agreeing := by
  refine h.invariant (fun s hs => ?_) fun s l t h _ hstep => h.step hstep
  intro k
  have hat : s.sys.pcAt k = none := by
    obtain hsys | ⟨modelPath, hsys⟩ := hs.1 <;> simp [hsys, EngineSys.pcAt]
  rw [hat, hs.2]
  exact ⟨rfl, by simp [Call.Reports]⟩

/-- An output arrives at a thread that iterates in RUNNING. -/
theorem running_of_output {sys sys' : EngineSys} (hstep : sys.step (.run k .output) = some sys')
    (hiter : (sys'.pcAt k).any Pc.iterates) :
    sys.engine.state = .running ∧ ∃ pc, sys.pcAt k = some pc ∧ pc.iterates := by
  obtain ⟨th, slice, hth, hslice, rfl⟩ :=
    EngineSys.runThread_eq_some.mp (EngineSys.runThread_of_run hstep)
  rw [EngineSys.Ownership.settle_self hth] at hiter
  have hpc := VLLMEngine.iterates_of_outcome (.inl rfl) hslice
  refine ⟨?_, th.pc, EngineSys.pcAt_of_threads hth, hpc⟩
  cases hth' : th.pc with
  | generating weights hasOutput =>
    rw [hth'] at hslice
    simp only [VLLMEngine.runPc, VLLMEngine.generateStep] at hslice
    split_ifs at hslice with hs hcore
    · exact hs
    · cases hslice
      cases hiter
    · cases hslice
      cases hiter
  | _ => rw [hth'] at hpc; cases hpc

theorem honest_follow (hagree : s.Agreeing) (h : (s.calls k).Honest) (hok : s.honestCore l)
    (hstep : s.step l = some t) : (l.follow k (t.sys.pcAt k) (s.calls k)).Honest := by
  obtain ⟨l', hl, hsys, -⟩ := step_eq_some.mp hstep
  cases l with
  | output j out =>
    cases hl
    simp only [CompletionLabel.follow]
    split_ifs with hj
    · obtain ⟨rfl, hiter⟩ := hj
      obtain ⟨hrunning, pc, hpc, hpc'⟩ := running_of_output hsys hiter
      have hagree := hagree j
      rw [hpc] at hagree
      have hnot : ¬ (s.calls j).Reports := hagree.not_reports (Pc.not_isFinished_of_iterates hpc')
      refine ⟨?_, fun hr => absurd (Call.receive_reports.mp hr) hnot⟩
      show (s.calls j).left = false
      simpa [honestCore, hrunning] using hok
    · exact h
  | engine l =>
    by_cases hended : l = .run k .ended
    · subst hended
      simp only [CompletionLabel.follow, if_true]
      refine ⟨by rw [Call.finish_leftBefore]; exact h.ontime, fun hr => ?_⟩
      rw [Call.finish_finalOutput]
      rcases Call.finish_reports.mp hr with hr | hsome
      · exact h.finished hr
      · obtain ⟨out, hout⟩ := Option.isSome_iff_exists.mp hsome
        refine ⟨out, hout, ?_⟩
        simpa [honestCore, hout] using hok
    · rw [CompletionLabel.follow_engine hended]
      exact h

/-- Nothing is delivered late, and what has been reported was finished. -/
theorem honest_of_reach (h : system.Reach (honestCore · ·) s) : ∀ k, (s.calls k).Honest := by
  refine h.invariant_of (I := fun s => ∀ k, (s.calls k).Honest) (fun _ => agrees_of_reach)
    (fun s hs k => ?_) fun s l t hagree h hok hstep k => ?_
  · rw [hs.2]
    exact ⟨rfl, by simp [Call.Reports]⟩
  · obtain ⟨l', -, -, hcalls⟩ := step_eq_some.mp hstep
    have hfollow := honest_follow (k := k) hagree (h k) hok hstep
    simp only [hcalls]
    rcases observe_eq t.sys k (l.follow k (t.sys.pcAt k) (s.calls k)) with heq | heq
    · rw [heq]
      exact hfollow
    · rw [heq]
      exact ⟨hfollow.ontime, hfollow.finished⟩

/-- **Complete generations**: what a request reports, and what is billed for it, is complete. -/
theorem complete_of_reach (h : system.Reach (honestCore · ·) s) (k : Nat) :
    ((s.calls k).Reports → (s.calls k).Complete) ∧
    ((s.calls k).Billed → (s.calls k).Complete) := by
  have hhonest := honest_of_reach h k
  have hreports (hr : (s.calls k).Reports) : (s.calls k).Complete :=
    ⟨hhonest.ontime, hhonest.finished hr⟩
  exact ⟨hreports, fun hb => hreports (Call.reports_of_billed hb)⟩

/-- A request is admitted after a start. -/
def admitted : List CompletionLabel :=
  [.engine (.call (.start "m")), .engine (.run 0 .go), .engine (.run 0 (.created [7])),
    .engine (.run 0 .go), .engine (.call (.generate "m"))]

theorem complete_stopped :
    ∃ s, system.Reach (honestCore · ·) s ∧ (s.calls 1).Reports ∧ (s.calls 1).Complete := by
  let out : RequestOutput :=
    { text := ['h', 'i'], promptTokens := 3, completionTokens := 1, finishReason := some "stop" }
  have hfinal : (system.execGuarded (honestCore · ·) { sys := {} }
      (admitted ++ [.output 1 out, .engine (.run 1 .ended)])).any
        (fun s => (s.calls 1).result.isSome) = true := by
    decide +kernel
  obtain ⟨s, hrun, hs⟩ := (Option.any_eq_true _ _).mp hfinal
  have hreports : (s.calls 1).Reports := .inl hs
  have hreach : system.Reach (honestCore · ·) s := .execGuarded (.init ⟨.inl rfl, rfl⟩) hrun
  exact ⟨s, hreach, hreports, (complete_of_reach hreach 1).1 hreports⟩

/-- An immediate pause comes after the first output; the aborted generator just ends, and the
request is reported as complete. -/
theorem abortedThenEnded_not_complete :
    ¬ ∀ s, system.Reach Transition.System.anyStep s → ∀ k,
      (s.calls k).Reports → (s.calls k).Complete := by
  intro h
  let out : RequestOutput := { text := ['h', 'i'], promptTokens := 3, completionTokens := 1 }
  have hfinal : (system.exec { sys := {} }
      (admitted ++ [.output 1 out, .engine (.call (.pause .immediate)), .engine (.run 2 .go),
        .engine (.run 2 .go), .engine (.run 1 .ended)])).any (fun s =>
        (s.calls 1).result.any (fun r => r.finishReason = "stop") ∧ (s.calls 1).left ∧
          (s.calls 1).finalOutput = some out) = true := by
    decide +kernel
  obtain ⟨s, hrun, hs⟩ := (Option.any_eq_true _ _).mp hfinal
  obtain ⟨hresult, -, hout⟩ := of_decide_eq_true hs
  have hreports : (s.calls 1).Reports := .inl (Option.isSome_of_any hresult)
  obtain ⟨-, out', hout', hfinished⟩ :=
    h s (Transition.System.reach_of_exec ⟨.inl rfl, rfl⟩ hrun) 1 hreports
  rw [hout] at hout'
  cases hout'
  exact absurd hfinished (by decide)

end Completion

end OpenModel.Inference
