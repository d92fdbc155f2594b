import Mathlib.Algebra.GroupWithZero.Nat
import OpenModel.FocBridge.SizeCap
import OpenModel.Lib.Progress

/-!
# The secondary provider

One download where nothing fails but the primary provider, and the secondary one serves every
piece. `fetchPart` goes over to it when the request throws or the status is not ok. A body that
breaks off is met only in the pipeline, and ends the download.

## Main results

- `delivers_iff`: the download succeeds, and holds nothing but the pieces, if and only if no body
  of the primary provider breaks off
-/

namespace OpenModel.FocBridge

/-- What the primary provider does for a part. -/
inductive PrimaryPart
  | throws
  | refuses (status : Nat)
  /-- the body fails behind these chunks -/
  | breaks (chunks : List Bytes)
  | serves (chunks : List Bytes)
  deriving DecidableEq, Repr

/-- The two providers, part by part. The secondary one serves the piece. -/
structure Providers where
  primary : Nat → PrimaryPart
  secondary : Nat → List Bytes
  refused : ∀ part status, primary part = .refuses status → okStatus status = false
  served : ∀ part chunks, primary part = .serves chunks →
    chunks.flatten = (secondary part).flatten

namespace Providers

/-- What is sent of a body. -/
def chunks (p : Providers) (part : Nat) : Bool → List Bytes
  | true => p.secondary part
  | false =>
    match p.primary part with
    | .breaks chunks | .serves chunks => chunks
    | _ => []

/-- The body ends behind what is sent. -/
def complete (p : Providers) (part : Nat) : Bool → Bool
  | true => true
  | false =>
    match p.primary part with
    | .serves _ => true
    | _ => false

/-- The pieces of the first parts in their order. -/
def content (p : Providers) (parts : Nat) : Bytes :=
  (List.range parts).flatMap fun part => (p.secondary part).flatten

/-- The providers can do so, and nothing else fails. -/
def plays (p : Providers) (h : Handler) : BridgeEvent → Bool
  | .go | .opened | .flush _ => true
  | .streamError => false
  | .fails _ =>
    match h.pc with
    | .fetching part false => p.primary part = .throws
    | .streaming part false => p.primary part = .breaks h.body
    | _ => false
  | .answers status =>
    match h.pc with
    | .fetching part false =>
      match p.primary part with
      | .throws => false
      | .refuses status' => status = status'
      | _ => okStatus status
    | .fetching _ true => okStatus status
    | _ => false
  | .chunk bytes =>
    match h.pc with
    | .streaming part fromSecondary => (h.body ++ [bytes]) <+: p.chunks part fromSecondary
    | _ => false
  | .bodyEnds =>
    match h.pc with
    | .streaming part fromSecondary =>
      p.complete part fromSecondary && h.body = p.chunks part fromSecondary
    | _ => false

variable {p : Providers}

theorem content_succ {parts : Nat} :
    p.content (parts + 1) = p.content parts ++ (p.secondary parts).flatten := by
  simp [content, List.range_succ]

theorem content_le {m n : Nat} (h : m ≤ n) : (p.content m).length ≤ (p.content n).length := by
  induction h with
  | refl => exact le_rfl
  | step _ ih =>
    rw [content_succ, List.length_append]
    omega

theorem chunks_flatten {part : Nat} {fromSecondary : Bool} (h : p.complete part fromSecondary) :
    (p.chunks part fromSecondary).flatten = (p.secondary part).flatten := by
  cases fromSecondary with
  | true => rfl
  | false =>
    cases hprimary : p.primary part with
    | serves body =>
      simp only [chunks, hprimary]
      exact p.served part body hprimary
    | _ => simp [complete, hprimary] at h

end Providers

/-- The download under these providers. -/
def scriptedSystem (digest : Bytes → String) (app : App) (p : Providers) :
    Transition.System (Handler × Disk) BridgeEvent where
  init s := ∃ req outPath, app.accept [] req = .ok outPath ∧ s.1 = req.handler outPath
  step s ev := if p.plays s.1 ev then s.1.step digest app s.2 ev else none

section Scripted

variable {digest : Bytes → String} {app : App} {p : Providers} {h h' : Handler}
  {disk disk' : Disk} {ev : BridgeEvent} {s t : Handler × Disk}

theorem scripted_step_iff :
    (scriptedSystem digest app p).step s ev = some t ↔
      p.plays s.1 ev ∧ s.1.step digest app s.2 ev = some t := by
  simp only [scriptedSystem, Option.ite_none_right_eq_some]

/-- A 200 behind a file that holds the content, with its digest. -/
def Delivered (digest : Bytes → String) (content : Bytes) (s : Handler × Disk) : Prop :=
  ∃ number, s.1.pc = .responded (.downloaded s.1.outPath content.length s.1.pieceCids.length
      (digest content) s.1.sha256.isSome) ∧
    s.2.file s.1.outPath = some (number, content)

/-- The download comes to a 200 with the content, whatever the order of the steps. -/
def Delivers (digest : Bytes → String) (app : App) (p : Providers) (s : Handler × Disk) : Prop :=
  ∃ n, (scriptedSystem digest app p).Within (fun _ => True) (fun _ _ => False)
    (Delivered digest (p.content s.1.pieceCids.length)) n s

-- ════════════════════════════════════════════════════════════════════════
-- A body breaks off
-- ════════════════════════════════════════════════════════════════════════

/-- The download does not get beyond a part. -/
structure StopsAt (part : Nat) (h : Handler) : Prop where
  tracks : h.Tracks
  bodies : h.bodies.length ≤ part
  fetching : h.pc ≠ .fetching part true
  streaming : h.pc ≠ .streaming part true

theorem StopsAt.step {part : Nat} {chunks : List Bytes} (hs : StopsAt part h)
    (hbreaks : p.primary part = .breaks chunks) (hplays : p.plays h ev)
    (hstep : h.step digest app disk ev = some (h', disk')) : StopsAt part h' := by
  have htracks := hs.tracks.step hstep
  cases Handler.stepped_of_step hstep with
  | creates => exact ⟨htracks, hs.bodies, nofun, nofun⟩
  | @retries k ev hpc hev =>
    refine ⟨htracks, hs.bodies, fun heq => ?_, nofun⟩
    cases heq
    obtain ⟨message, rfl⟩ | ⟨status, hok, rfl⟩ := hev
    · simp [Providers.plays, hpc, hbreaks] at hplays
    · simp [Providers.plays, hpc, hbreaks, hok] at hplays
  | streams hpc =>
    refine ⟨htracks, hs.bodies, nofun, fun heq => ?_⟩
    cases heq
    exact hs.fetching hpc
  | refused | throws | finishes | unlinks | keeps =>
    exact ⟨htracks, hs.bodies, nofun, nofun⟩
  | taps hpc => exact ⟨htracks, hs.bodies, hs.fetching, hs.streaming⟩
  | @endsPart k fromSecondary hpc =>
    obtain ⟨hlen, -⟩ := hs.tracks.part k (by rw [hpc]; rfl)
    have hk : k < part := by
      refine lt_of_le_of_ne (hlen ▸ hs.bodies) ?_
      rintro rfl
      cases fromSecondary with
      | true => exact hs.streaming hpc
      | false => simp [Providers.plays, hpc, Providers.complete, hbreaks] at hplays
    have hbodies : (h.bodies ++ [h.body]).length ≤ part := by
      rw [List.length_append, hlen]
      exact hk
    unfold Handler.endPart at htracks ⊢
    dsimp only at htracks ⊢
    split_ifs at htracks ⊢
    · exact ⟨htracks, hbodies, nofun, nofun⟩
    · exact ⟨htracks, hbodies, nofun, nofun⟩
    · exact ⟨htracks, hbodies, nofun, nofun⟩
  | verifies hpc =>
    unfold Handler.verify at htracks ⊢
    split_ifs at htracks ⊢
    · exact ⟨htracks, hs.bodies, nofun, nofun⟩
    · exact ⟨htracks, hs.bodies, nofun, nofun⟩
  | opens | flushes | errs => exact ⟨htracks, hs.bodies, hs.fetching, hs.streaming⟩

theorem pieceCids_of_reach (hreach : ((scriptedSystem digest app p).startingAt s).Reach
    Transition.System.anyStep t) : t.1.pieceCids = s.1.pieceCids := by
  refine hreach.invariant (I := fun t => t.1.pieceCids = s.1.pieceCids) (fun u hu => ?_)
    fun u ev v hu _ hstep => ?_
  · rw [show u = s from hu]
  · exact (Handler.request_of_step (scripted_step_iff.mp hstep).2).2.1.trans hu

/-- **A broken body** of the primary provider ends the download. -/
theorem not_delivers_of_breaks {req : DownloadRequest} {outPath : Location} {part : Nat}
    {chunks : List Bytes} (haccept : app.accept [] req = .ok outPath)
    (hpart : part < req.pieceCids.length) (hbreaks : p.primary part = .breaks chunks) :
    ¬ Delivers digest app p (req.handler outPath, disk) := by
  rintro ⟨n, hwithin⟩
  obtain ⟨u, hreach, number, hpc, -⟩ := hwithin.exists_reach
  have hstops : StopsAt part u.1 := by
    refine hreach.invariant (I := fun s => StopsAt part s.1) (fun s hs => ?_)
      fun s ev t hs _ hstep => ?_
    · rw [show s = _ from hs]
      exact ⟨Handler.tracks_new (accept_pieceCids haccept), Nat.zero_le _, nofun, nofun⟩
    · obtain ⟨hplays, hrun⟩ := scripted_step_iff.mp hstep
      exact hs.step hbreaks hplays hrun
  have hall := hstops.tracks.complete (by rw [hpc]; rfl)
  rw [pieceCids_of_reach hreach] at hall
  have := hstops.bodies
  change u.1.bodies.length = req.pieceCids.length at hall
  omega

-- ════════════════════════════════════════════════════════════════════════
-- No body breaks off
-- ════════════════════════════════════════════════════════════════════════

/-- What the chunks weigh, sent and written. -/
def weight (chunks : List Bytes) : Nat := (chunks.map fun bytes => bytes.length + 1).sum

/-- What a number of parts weigh, from one on. -/
def Providers.weightFrom (p : Providers) (part : Nat) : Nat → Nat
  | 0 => 0
  | parts + 1 => weight (p.chunks part false) + weight (p.secondary part) + 4 +
      p.weightFrom (part + 1) parts

/-- What the handler still has to do. -/
def Providers.pcWeight (p : Providers) (parts : Nat) (body : List Bytes) : BridgePc → Nat
  | .mkdir => p.weightFrom 0 parts + 4
  | .fetching part false => p.weightFrom part (parts - part) + 3
  | .fetching part true => weight (p.secondary part) + p.weightFrom (part + 1) (parts - (part + 1)) + 5
  | .streaming part fromSecondary => weight ((p.chunks part fromSecondary).drop body.length) +
      p.weightFrom (part + 1) (parts - (part + 1)) + 4
  | .finishing => 2
  | .stat | .unlinking _ => 1
  | .responded _ => 0

def StreamPhase.weight : StreamPhase → Nat
  | notCreated | opening => 1
  | _ => 0

/-- The steps that are left. -/
def Providers.stepsLeft (p : Providers) (h : Handler) : Nat :=
  p.pcWeight h.pieceCids.length h.body h.pc + h.phase.weight + h.queued.length

theorem weightFrom_sub {part parts : Nat} (h : part < parts) :
    p.weightFrom part (parts - part) = weight (p.chunks part false) + weight (p.secondary part) +
      4 + p.weightFrom (part + 1) (parts - (part + 1)) := by
  rw [show parts - part = parts - (part + 1) + 1 by omega]
  rfl

/-- The next chunk, and what is left behind it. -/
theorem drop_of_prefix {body chunks : List Bytes} {bytes : Bytes}
    (h : body ++ [bytes] <+: chunks) :
    weight (chunks.drop body.length) =
      bytes.length + 1 + weight (chunks.drop (body ++ [bytes]).length) := by
  obtain ⟨rest, rfl⟩ := h
  rw [List.drop_left, List.append_assoc, List.drop_left]
  simp [weight]

/-- A provider that answers ok sends the whole piece. -/
theorem complete_of_answers {part status : Nat} {fromSecondary : Bool}
    (hpc : h.pc = .fetching part fromSecondary) (hok : okStatus status)
    (hplays : p.plays h (.answers status)) (hbreaks : ∀ chunks, p.primary part ≠ .breaks chunks) :
    p.complete part fromSecondary := by
  cases fromSecondary with
  | true => rfl
  | false =>
    cases hprimary : p.primary part with
    | throws => simp [Providers.plays, hpc, hprimary] at hplays
    | refuses status' =>
      simp only [Providers.plays, hpc, hprimary, decide_eq_true_eq] at hplays
      rw [hplays, p.refused part status' hprimary] at hok
      cases hok
    | breaks chunks => exact absurd hprimary (hbreaks chunks)
    | serves chunks => simp [Providers.complete, hprimary]

/-- Nothing throws but the primary provider, which is asked again at the other one. -/
theorem not_plays_fails {message : String}
    (hpc : h.pc = .mkdir ∨ (∃ part, h.pc = .fetching part true) ∨
      (∃ part fromSecondary, h.pc = .streaming part fromSecondary) ∨ h.pc = .stat)
    (hbreaks : ∀ part chunks, h.pc.part = some part → p.primary part ≠ .breaks chunks) :
    ¬ p.plays h (.fails message) := by
  intro hplays
  rcases hpc with hpc | ⟨part, hpc⟩ | ⟨part, fromSecondary, hpc⟩ | hpc
  · simp [Providers.plays, hpc] at hplays
  · simp [Providers.plays, hpc] at hplays
  · cases fromSecondary with
    | true => simp [Providers.plays, hpc] at hplays
    | false =>
      simp only [Providers.plays, hpc, decide_eq_true_eq] at hplays
      exact hbreaks part h.body (by rw [hpc]; rfl) hplays
  · simp [Providers.plays, hpc] at hplays

/-- The download is on its way, and holds pieces only. -/
structure OnWay (digest : Bytes → String) (p : Providers) (h : Handler) (disk : Disk) : Prop where
  tracks : h.Tracks
  streams : h.Streams digest
  atPath : h.AtPath disk
  content : h.bodies.flatten.flatten = p.content h.bodies.length
  body : ∀ part fromSecondary, h.pc = .streaming part fromSecondary →
    h.body <+: p.chunks part fromSecondary ∧ p.complete part fromSecondary
  alive : h.pc.between ∨ h.pc.part.isSome
  drain : h.needDrain → h.queued ≠ []
  opens : h.phase = .notCreated → h.pc = .mkdir
  healthy : h.phase ≠ .errored
  closed : ∀ number, h.phase = .closed number → h.pc.finished
  file : h.pc.finished → ∃ number, disk.file h.outPath = some (number, h.hashed)
  response : ∀ path size parts sha256 verified,
    h.pc = .responded (.downloaded path size parts sha256 verified) →
      path = h.outPath ∧ parts = h.pieceCids.length ∧ verified = h.sha256.isSome ∧
      sha256 = digest h.hashed ∧ size = h.hashed.length

theorem onWay_new {req : DownloadRequest} {outPath : Location}
    (haccept : app.accept [] req = .ok outPath) : OnWay digest p (req.handler outPath) disk where
  tracks := Handler.tracks_new (accept_pieceCids haccept)
  streams := Handler.streams_new
  atPath _ _ hphase := by rcases hphase with hphase | hphase <;> cases hphase
  content := rfl
  body := nofun
  alive := .inl rfl
  drain := nofun
  opens _ := rfl
  healthy := nofun
  closed := nofun
  file := nofun
  response := nofun

/-- What was hashed is what the bodies hold. -/
theorem OnWay.hashed_eq (ho : OnWay digest p h disk) :
    h.hashed = p.content h.bodies.length ++ h.body.flatten := by
  rw [ho.tracks.received, List.flatten_append, ho.content]

theorem OnWay.hashed_of_complete (ho : OnWay digest p h disk) (hpc : h.pc.complete) :
    h.hashed = p.content h.pieceCids.length := by
  have hbetween : h.pc.between := by
    cases heq : h.pc with
    | mkdir | fetching => rfl
    | streaming | unlinking =>
      rw [heq] at hpc
      cases hpc
    | finishing | stat => rfl
    | responded =>
      rw [heq] at hpc
      exact hpc
  rw [ho.hashed_eq, ho.tracks.between hbetween, ho.tracks.complete hpc, List.flatten_nil,
    List.append_nil]

theorem OnWay.open_of_not_finished (ho : OnWay digest p h disk) (hpc : h.pc.finished = false)
    (number : Nat) : h.phase ≠ .closed number := by
  intro hphase
  rw [ho.closed number hphase] at hpc
  cases hpc

theorem OnWay.created (ho : OnWay digest p h disk) (hpc : h.pc ≠ .mkdir) :
    h.phase ≠ .notCreated :=
  mt ho.opens hpc

theorem OnWay.not_finished (ho : OnWay digest p h disk)
    (hphase : ∀ number, h.phase ≠ .closed number) : ¬ h.pc.finished := by
  intro hfinished
  obtain ⟨number, hclosed⟩ := ho.tracks.finished hfinished
  exact hphase number hclosed

theorem OnWay.not_unlinking {response : BridgeResponse} (ho : OnWay digest p h disk) :
    h.pc ≠ .unlinking response := by
  intro hpc
  obtain halive | halive := ho.alive
  · rw [hpc] at halive
    cases halive
  · rw [hpc] at halive
    cases halive

/-- The body of a part begins. -/
theorem OnWay.streamPart {part : Nat} {fromSecondary : Bool} (ho : OnWay digest p h disk)
    (hpc : h.pc = .fetching part fromSecondary) (hserved : p.complete part fromSecondary)
    (htracks : Handler.Tracks { h with pc := .streaming part fromSecondary, listening := true })
    (hstreams : Handler.Streams digest
      { h with pc := .streaming part fromSecondary, listening := true })
    (hpath : Handler.AtPath { h with pc := .streaming part fromSecondary, listening := true } disk) :
    OnWay digest p { h with pc := .streaming part fromSecondary, listening := true } disk ∧
      p.stepsLeft { h with pc := .streaming part fromSecondary, listening := true } <
        p.stepsLeft h := by
  have hbody : h.body = [] := ho.tracks.between (by rw [hpc]; rfl)
  have hlt : part < h.pieceCids.length := (ho.tracks.part part (by rw [hpc]; rfl)).2
  have hopen := ho.open_of_not_finished (by rw [hpc]; rfl)
  have hcreated := ho.created (by rw [hpc]; nofun)
  refine ⟨⟨htracks, hstreams, hpath, ho.content, ?_, .inr rfl, ho.drain,
    fun hphase => absurd hphase hcreated, ho.healthy,
    fun number hphase => absurd hphase (hopen number), nofun, nofun⟩, ?_⟩
  · rintro part' fromSecondary' ⟨⟩
    refine ⟨?_, hserved⟩
    show h.body <+: _
    rw [hbody]
    exact List.nil_prefix
  · have hweight := weightFrom_sub (p := p) hlt
    rw [Providers.stepsLeft, Providers.stepsLeft, hpc]
    simp only [hbody]
    cases fromSecondary with
    | false =>
      simp only [Providers.pcWeight, List.length_nil, List.drop_zero]
      omega
    | true =>
      simp only [Providers.pcWeight, List.length_nil, List.drop_zero, Providers.chunks]
      omega

/-- A chunk of the body arrives. -/
theorem OnWay.tap {part : Nat} {fromSecondary : Bool} {bytes : Bytes}
    (ho : OnWay digest p h disk) (hpc : h.pc = .streaming part fromSecondary)
    (hsent : h.body ++ [bytes] <+: p.chunks part fromSecondary)
    (htracks : (h.tap bytes).Tracks) (hstreams : (h.tap bytes).Streams digest)
    (hpath : (h.tap bytes).AtPath disk) :
    OnWay digest p (h.tap bytes) disk ∧ p.stepsLeft (h.tap bytes) < p.stepsLeft h := by
  have hpc' : (h.tap bytes).pc = .streaming part fromSecondary := hpc
  refine ⟨⟨htracks, hstreams, hpath, ho.content, ?_, ho.alive, fun hdrain => ?_,
    ho.opens, ho.healthy, ho.closed, fun hfinished => ?_, fun _ _ _ _ _ hresponse => ?_⟩, ?_⟩
  · intro part' fromSecondary' hpart
    cases hpc.symm.trans hpart
    exact ⟨hsent, (ho.body part fromSecondary hpc).2⟩
  · rintro hnil
    have hlong := of_decide_eq_true hdrain
    rw [show h.queued ++ bytes = [] from hnil] at hlong
    exact absurd hlong (by decide)
  · rw [hpc'] at hfinished
    cases hfinished
  · cases hpc.symm.trans hresponse
  · have hdrop := drop_of_prefix hsent
    rw [Providers.stepsLeft, Providers.stepsLeft, hpc, hpc']
    simp only [Providers.pcWeight, Handler.tap, List.length_append] at hdrop ⊢
    omega

/-- A part ends. -/
theorem OnWay.endPart {part : Nat} {fromSecondary : Bool} (ho : OnWay digest p h disk)
    (hcap : (p.content h.pieceCids.length).length ≤ app.maxTotalBytes)
    (hpc : h.pc = .streaming part fromSecondary) (hbody : h.body = p.chunks part fromSecondary)
    (htracks : (h.endPart app part).Tracks) (hstreams : (h.endPart app part).Streams digest)
    (hpath : (h.endPart app part).AtPath disk) :
    OnWay digest p (h.endPart app part) disk ∧
      p.stepsLeft (h.endPart app part) < p.stepsLeft h := by
  obtain ⟨hlen, hlt⟩ := ho.tracks.part part (by rw [hpc]; rfl)
  have hpiece : h.body.flatten = (p.secondary part).flatten := by
    rw [hbody]
    exact Providers.chunks_flatten (ho.body part fromSecondary hpc).2
  have hcontent : (h.bodies ++ [h.body]).flatten.flatten =
      p.content (h.bodies ++ [h.body]).length := by
    rw [List.length_append, List.length_singleton, Providers.content_succ, ← ho.content, hlen,
      ← hpiece]
    simp
  have hwritten : ¬ app.maxTotalBytes < h.written.length := by
    have hhashed : h.hashed = h.written ++ h.queued := ho.streams.hashed
    have hsize : h.hashed = p.content (part + 1) := by
      rw [ho.hashed_eq, hlen, hpiece, Providers.content_succ]
    have hle := Providers.content_le (p := p) (show part + 1 ≤ h.pieceCids.length from hlt)
    rw [← hsize, hhashed, List.length_append] at hle
    omega
  have hopen := ho.open_of_not_finished (by rw [hpc]; rfl)
  have hcreated := ho.created (by rw [hpc]; nofun)
  have hleft : p.stepsLeft h = p.weightFrom (part + 1) (h.pieceCids.length - (part + 1)) + 4 +
      h.phase.weight + h.queued.length := by
    rw [Providers.stepsLeft, hpc, Providers.pcWeight, hbody, List.drop_length]
    simp [weight]
  rw [hleft]
  unfold Handler.endPart at htracks hstreams hpath ⊢
  dsimp only at htracks hstreams hpath ⊢
  rw [if_neg hwritten] at htracks hstreams hpath ⊢
  split_ifs at htracks hstreams hpath ⊢ with hmore
  · refine ⟨⟨htracks, hstreams, hpath, hcontent, nofun, .inl rfl, ho.drain,
      fun hphase => absurd hphase hcreated, ho.healthy,
      fun number hphase => absurd hphase (hopen number), nofun, nofun⟩, ?_⟩
    show p.weightFrom (part + 1) (h.pieceCids.length - (part + 1)) + 3 + h.phase.weight +
      h.queued.length < _
    omega
  · refine ⟨⟨htracks, hstreams, hpath, hcontent, nofun, .inl rfl, ho.drain,
      fun hphase => absurd hphase hcreated, ho.healthy,
      fun number hphase => absurd hphase (hopen number), nofun, nofun⟩, ?_⟩
    show 2 + h.phase.weight + h.queued.length < _
    omega

/-- The digest is that of the content. -/
theorem OnWay.verify {number : Nat} {content : Bytes} (ho : OnWay digest p h disk)
    (hsha : ∀ expected, h.sha256 = some expected →
      digest (p.content h.pieceCids.length) = lower expected)
    (hpc : h.pc = .stat) (hfile : disk.file h.outPath = some (number, content))
    (htracks : (h.verify digest content.length).Tracks)
    (hstreams : (h.verify digest content.length).Streams digest)
    (hpath : (h.verify digest content.length).AtPath disk) :
    OnWay digest p (h.verify digest content.length) disk ∧
      p.stepsLeft (h.verify digest content.length) < p.stepsLeft h := by
  have hhashed := ho.hashed_of_complete (by rw [hpc]; rfl)
  have hbehind : ∃ number, disk.file h.outPath = some (number, h.hashed) :=
    ho.file (by rw [hpc]; rfl)
  have hcontent : content = h.hashed := by
    obtain ⟨number', hfile'⟩ := hbehind
    exact (Prod.mk.inj (Option.some.inj (hfile.symm.trans hfile'))).2
  have hmatch : ¬ h.sha256.any fun s => digest h.hashed ≠ lower s := by
    rw [Option.any_eq_true]
    rintro ⟨expected, hexpected, hne⟩
    exact of_decide_eq_true hne (hhashed ▸ hsha expected hexpected)
  have hleft : p.stepsLeft h = 1 + h.phase.weight + h.queued.length := by
    rw [Providers.stepsLeft, hpc]
    rfl
  rw [hleft]
  unfold Handler.verify at htracks hstreams hpath ⊢
  rw [if_neg hmatch] at htracks hstreams hpath ⊢
  refine ⟨⟨htracks, hstreams, hpath, ho.content, nofun, .inl rfl, ho.drain,
    fun hphase => absurd hphase (ho.created (by rw [hpc]; nofun)), ho.healthy, fun _ _ => rfl,
    fun _ => hbehind, ?_⟩, ?_⟩
  · rintro path size parts sha256 verified ⟨⟩
    exact ⟨rfl, rfl, rfl, rfl, by rw [hcontent]⟩
  · show 0 + h.phase.weight + h.queued.length < _
    omega

/-- **Step**: the download stays on its way and comes closer to its end. -/
theorem OnWay.step (ho : OnWay digest p h disk)
    (hbreaks : ∀ part chunks, part < h.pieceCids.length → p.primary part ≠ .breaks chunks)
    (hcap : (p.content h.pieceCids.length).length ≤ app.maxTotalBytes)
    (hsha : ∀ expected, h.sha256 = some expected →
      digest (p.content h.pieceCids.length) = lower expected)
    (hplays : p.plays h ev) (hstep : h.step digest app disk ev = some (h', disk')) :
    OnWay digest p h' disk' ∧ p.stepsLeft h' < p.stepsLeft h := by
  have htracks := ho.tracks.step hstep
  have hstreams := ho.streams.step hstep
  have hpath := ho.atPath.step ho.tracks hstep
  have hserves (part : Nat) (chunks : List Bytes) (hpc : h.pc.part = some part) :
      p.primary part ≠ .breaks chunks :=
    hbreaks part chunks (ho.tracks.part part hpc).2
  cases Handler.stepped_of_step hstep with
  | creates hpc =>
    refine ⟨⟨htracks, hstreams, hpath, ho.content, nofun, .inl rfl, ho.drain, nofun, nofun, nofun,
      nofun, nofun⟩, ?_⟩
    rw [Providers.stepsLeft, Providers.stepsLeft, hpc, (ho.tracks.created hpc).2]
    simp only [Providers.pcWeight, StreamPhase.weight, Nat.sub_zero]
    omega
  | @retries part ev hpc hev =>
    have hopen := ho.open_of_not_finished (by rw [hpc]; rfl)
    have hcreated := ho.created (by rw [hpc]; nofun)
    refine ⟨⟨htracks, hstreams, hpath, ho.content, nofun, .inr rfl, ho.drain,
      fun hphase => absurd hphase hcreated, ho.healthy,
      fun number hphase => absurd hphase (hopen number), nofun, nofun⟩, ?_⟩
    have hweight := weightFrom_sub (p := p) (ho.tracks.part part (by rw [hpc]; rfl)).2
    rw [Providers.stepsLeft, Providers.stepsLeft, hpc]
    simp only [Providers.pcWeight]
    omega
  | @streams part status fromSecondary hpc hok =>
    have hserved := complete_of_answers hpc hok hplays
      fun chunks => hserves part chunks (by rw [hpc]; rfl)
    exact ho.streamPart hpc hserved htracks hstreams hpath
  | refused hpc hok => simp [Providers.plays, hpc, hok] at hplays
  | throws hpc => exact absurd hplays (not_plays_fails hpc hserves)
  | @taps part fromSecondary bytes hpc htakes =>
    have hsent : h.body ++ [bytes] <+: p.chunks part fromSecondary := by
      simpa [Providers.plays, hpc] using hplays
    exact ho.tap hpc hsent htracks hstreams hpath
  | @endsPart part fromSecondary hpc htakes =>
    have hbody : h.body = p.chunks part fromSecondary := by
      simp only [Providers.plays, hpc, Bool.and_eq_true, decide_eq_true_eq] at hplays
      exact hplays.2
    exact ho.endPart hcap hpc hbody htracks hstreams hpath
  | @finishes number hpc hphase hqueued =>
    have hwritten : h.hashed = h.written := by
      rw [show h.hashed = h.written ++ h.queued from ho.streams.hashed, hqueued, List.append_nil]
    refine ⟨⟨htracks, hstreams, hpath, ho.content, nofun, .inl rfl, ho.drain, nofun, nofun,
      fun _ _ => rfl, fun _ => ⟨number, ?_⟩, nofun⟩, ?_⟩
    · show _ = some (number, h.hashed)
      rw [hwritten]
      exact hpath rfl number (.inr rfl)
    · rw [Providers.stepsLeft, Providers.stepsLeft, hpc, hphase]
      simp [Providers.pcWeight, StreamPhase.weight]
  | verifies hpc hfile => exact ho.verify hsha hpc hfile htracks hstreams hpath
  | unlinks hpc | keeps hpc => exact (ho.not_unlinking hpc).elim
  | opens hphase =>
    have hopening := ho.not_finished (by rw [hphase]; nofun)
    refine ⟨⟨htracks, hstreams, hpath, ho.content, ho.body, ho.alive, ho.drain, nofun, nofun, nofun,
      fun hfinished => absurd hfinished hopening, ho.response⟩, ?_⟩
    rw [Providers.stepsLeft, Providers.stepsLeft, hphase]
    simp [StreamPhase.weight]
  | @flushes number count hphase hcount hqueued =>
    have hopened := ho.not_finished (by rw [hphase]; nofun)
    refine ⟨⟨htracks, hstreams, hpath, ho.content, ho.body, ho.alive, fun hdrain => ?_,
      ho.opens, ho.healthy, ho.closed, fun hfinished => absurd hfinished hopened, ho.response⟩, ?_⟩
    · simp only [Handler.flush, Bool.and_eq_true, Bool.not_eq_true', List.isEmpty_eq_false_iff]
        at hdrain
      exact hdrain.2
    · have hlen : 0 < h.queued.length := List.length_pos_iff.mpr hqueued
      simp only [Providers.stepsLeft, Handler.flush, List.length_drop]
      omega
  | errs => cases hplays

/-- The stream goes on until nothing is queued. -/
theorem OnWay.stream_enabled (app : App) (ho : OnWay digest p h disk) (hpc : h.pc ≠ .mkdir)
    (hfinished : h.pc.finished = false) :
    (h.queued = [] ∧ ∃ number, h.phase = .opened number) ∨
      ∃ ev, p.plays h ev ∧ (h.step digest app disk ev).isSome := by
  cases hphase : h.phase with
  | notCreated => exact absurd (ho.opens hphase) hpc
  | opening => exact .inr ⟨.opened, rfl, by simp [Handler.step, hphase]⟩
  | opened number =>
    by_cases hqueued : h.queued = []
    · exact .inl ⟨hqueued, number, rfl⟩
    · exact .inr ⟨.flush 1, rfl, by simp [Handler.step, hphase, hqueued]⟩
  | closed number => exact absurd hphase (ho.open_of_not_finished hfinished number)
  | errored => exact absurd hphase ho.healthy

/-- A provider that is asked does something. -/
theorem fetch_enabled (digest : Bytes → String) (app : App) (disk : Disk) {part : Nat}
    {fromSecondary : Bool} (hpc : h.pc = .fetching part fromSecondary)
    (hbreaks : ∀ chunks, p.primary part ≠ .breaks chunks) :
    ∃ ev, p.plays h ev ∧ (h.step digest app disk ev).isSome := by
  cases fromSecondary with
  | true =>
    exact ⟨.answers 200, by simp [Providers.plays, hpc, okStatus], by simp [Handler.step, hpc]⟩
  | false =>
    cases hprimary : p.primary part with
    | throws =>
      exact ⟨.fails "", by simp [Providers.plays, hpc, hprimary], by simp [Handler.step, hpc]⟩
    | refuses status =>
      exact ⟨.answers status, by simp [Providers.plays, hpc, hprimary],
        by simp [Handler.step, hpc]⟩
    | breaks chunks => exact absurd hprimary (hbreaks chunks)
    | serves chunks =>
      exact ⟨.answers 200, by simp [Providers.plays, hpc, hprimary, okStatus],
        by simp [Handler.step, hpc]⟩

/-- The body goes on, or the stream does when it has to be waited for. -/
theorem OnWay.body_enabled (app : App) {part : Nat} {fromSecondary : Bool}
    (ho : OnWay digest p h disk) (hpc : h.pc = .streaming part fromSecondary) :
    ∃ ev, p.plays h ev ∧ (h.step digest app disk ev).isSome := by
  obtain ⟨⟨rest, hrest⟩, hserved⟩ := ho.body part fromSecondary hpc
  cases hdrain : h.needDrain with
  | true =>
    obtain ⟨hqueued, -⟩ | henabled := ho.stream_enabled app (by rw [hpc]; nofun)
      (by rw [hpc]; rfl)
    · exact absurd hqueued (ho.drain hdrain)
    · exact henabled
  | false =>
    have htakes : h.takes := by
      simp [Handler.takes, hdrain, ho.healthy]
    cases rest with
    | nil =>
      refine ⟨.bodyEnds, ?_, by simp [Handler.step, hpc, htakes]⟩
      simp [Providers.plays, hpc, hserved, ← hrest]
    | cons bytes rest =>
      refine ⟨.chunk bytes, ?_, by simp [Handler.step, hpc, htakes]⟩
      simp [Providers.plays, hpc, ← hrest]

/-- A provider or the stream can move until the response. -/
theorem OnWay.enabled (app : App) (ho : OnWay digest p h disk)
    (hbreaks : ∀ part chunks, part < h.pieceCids.length → p.primary part ≠ .breaks chunks)
    (hpos : 0 < p.stepsLeft h) : ∃ ev, p.plays h ev ∧ (h.step digest app disk ev).isSome := by
  cases hpc : h.pc with
  | mkdir => exact ⟨.go, rfl, by simp [Handler.step, Handler.go, hpc]⟩
  | fetching part fromSecondary =>
    have hlt := (ho.tracks.part part (by rw [hpc]; rfl)).2
    exact fetch_enabled digest app disk hpc fun chunks => hbreaks part chunks hlt
  | streaming part fromSecondary => exact ho.body_enabled app hpc
  | finishing =>
    obtain ⟨hqueued, number, hphase⟩ | henabled :=
      ho.stream_enabled app (by simp [hpc]) (by rw [hpc]; rfl)
    · exact ⟨.go, rfl, by simp [Handler.step, Handler.go, hpc, hphase, hqueued]⟩
    · exact henabled
  | stat =>
    obtain ⟨number, hfile⟩ := ho.file (by rw [hpc]; rfl)
    exact ⟨.go, rfl, by simp [Handler.step, Handler.go, hpc, hfile]⟩
  | unlinking => exact (ho.not_unlinking hpc).elim
  | responded response =>
    have hfinished : h.pc.finished := by
      rcases ho.alive with halive | halive
      · rw [hpc] at halive ⊢
        cases response with
        | downloaded => rfl
        | mismatch | failed => cases halive
      · rw [hpc] at halive
        cases halive
    obtain ⟨number, hclosed⟩ := ho.tracks.finished hfinished
    rw [Providers.stepsLeft, hpc, hclosed, (ho.tracks.closed number hclosed).1] at hpos
    exact absurd hpos (by simp [Providers.pcWeight, StreamPhase.weight])

theorem OnWay.delivered (ho : OnWay digest p h disk) (hzero : p.stepsLeft h = 0) :
    Delivered digest (p.content h.pieceCids.length) (h, disk) := by
  have hpcWeight : p.pcWeight h.pieceCids.length h.body h.pc = 0 := by
    rw [Providers.stepsLeft] at hzero
    omega
  cases hpc : h.pc with
  | responded response =>
    cases response with
    | downloaded path size parts sha256 verified =>
      obtain ⟨rfl, rfl, rfl, rfl, rfl⟩ := ho.response _ _ _ _ _ hpc
      have hhashed := ho.hashed_of_complete (by rw [hpc]; rfl)
      obtain ⟨number, hfile⟩ := ho.file (by rw [hpc]; rfl)
      rw [← hhashed]
      exact ⟨number, hpc, hfile⟩
    | mismatch | failed =>
      rcases ho.alive with halive | halive
      · rw [hpc] at halive
        cases halive
      · rw [hpc] at halive
        cases halive
  | fetching part fromSecondary =>
    rw [hpc] at hpcWeight
    cases fromSecondary <;> simp [Providers.pcWeight] at hpcWeight
  | _ =>
    rw [hpc] at hpcWeight
    simp [Providers.pcWeight] at hpcWeight

/-- **Fallback**: the download comes to a 200 with the pieces and nothing else if and only if no
body of the primary provider breaks off. -/
theorem delivers_iff {req : DownloadRequest} {outPath : Location}
    (haccept : app.accept [] req = .ok outPath)
    (hcap : (p.content req.pieceCids.length).length ≤ app.maxTotalBytes)
    (hsha : ∀ expected, req.sha256 = some expected →
      digest (p.content req.pieceCids.length) = lower expected) :
    Delivers digest app p (req.handler outPath, disk) ↔
      ∀ part chunks, part < req.pieceCids.length → p.primary part ≠ .breaks chunks := by
  constructor
  · intro hdelivers part chunks hpart hbreaks
    exact not_delivers_of_breaks haccept hpart hbreaks hdelivers
  · intro hbreaks
    have hrequest (s : Handler × Disk) (ev : BridgeEvent) (t : Handler × Disk)
        (hs : OnWay digest p s.1 s.2 ∧ s.1.pieceCids = req.pieceCids ∧ s.1.sha256 = req.sha256)
        (hstep : (scriptedSystem digest app p).step s ev = some t) :
        (OnWay digest p t.1 t.2 ∧ t.1.pieceCids = req.pieceCids ∧ t.1.sha256 = req.sha256) ∧
          p.stepsLeft t.1 < p.stepsLeft s.1 := by
      obtain ⟨hplays, hrun⟩ := scripted_step_iff.mp hstep
      obtain ⟨ho, hcids, hrequested⟩ := hs
      obtain ⟨ht, hlt⟩ := ho.step (by rwa [hcids]) (by rwa [hcids]) (by rwa [hcids, hrequested])
        hplays hrun
      obtain ⟨-, hcids', hrequested'⟩ := Handler.request_of_step hrun
      exact ⟨⟨ht, hcids'.trans hcids, hrequested'.trans hrequested⟩, hlt⟩
    refine ⟨p.stepsLeft (req.handler outPath), Transition.System.within_of_measure
      (I := fun s => OnWay digest p s.1 s.2 ∧ s.1.pieceCids = req.pieceCids ∧
        s.1.sha256 = req.sha256) (μ := fun s => p.stepsLeft s.1) (fun _ _ _ _ hfalse => hfalse.elim)
      ?_ ?_ ?_
      ⟨onWay_new haccept, rfl, rfl⟩ le_rfl⟩
    · rintro s ⟨ho, hcids, -⟩ hpos
      obtain ⟨ev, hplays, henabled⟩ := ho.enabled app (by rwa [hcids]) hpos
      obtain ⟨t, hrun⟩ := Option.isSome_iff_exists.mp henabled
      exact ⟨ev, t, trivial, scripted_step_iff.mpr ⟨hplays, hrun⟩⟩
    · exact fun s ev t hs _ _ hstep => hrequest s ev t hs hstep
    · rintro s ⟨ho, hcids, -⟩ hzero
      have hdelivered := ho.delivered hzero
      rwa [hcids] at hdelivered

/-- The primary provider refuses the first part and cannot be reached for the second one. -/
def secondaryOnly : Providers where
  primary part := if part = 0 then .refuses 404 else .throws
  secondary part := if part = 0 then [[1]] else [[2]]
  refused part status h := by
    split_ifs at h
    cases h
    rfl
  served part chunks h := by
    split_ifs at h

def splitRequest : DownloadRequest where
  pieceCids := ["baga1", "baga2"]
  destPath := "weights"
  sha256 := some "A12871FEE210FB8619291EAEA194581CBD2531E4B23759D225F6806923F63222"

theorem delivers_secondaryOnly :
    Delivers Bridge.weightsDigest Bridge.modelsApp secondaryOnly
      (splitRequest.handler ["models", "weights"], Bridge.empty.disk) := by
  refine (delivers_iff (by decide +kernel) (by decide +kernel) ?_).mpr ?_
  · rintro expected ⟨⟩
    decide +kernel
  · intro part chunks _ hbreaks
    simp only [secondaryOnly] at hbreaks
    split_ifs at hbreaks

/-- The body of the first part breaks off behind a byte. -/
def brokenBody : Providers where
  primary part := if part = 0 then .breaks [[1]] else .throws
  secondary part := if part = 0 then [[1]] else [[2]]
  refused part status h := by
    split_ifs at h
  served part chunks h := by
    split_ifs at h

theorem brokenBody_not_delivers :
    ¬ Delivers Bridge.weightsDigest Bridge.modelsApp brokenBody
      (splitRequest.handler ["models", "weights"], Bridge.empty.disk) := by
  have hbreaks : brokenBody.primary 0 = .breaks [[1]] := rfl
  exact not_delivers_of_breaks (by decide +kernel) (by decide) hbreaks

end Scripted

end OpenModel.FocBridge
