import OpenModel.FocBridge.Bridge

/-!
# The size cap

One download, whatever the providers send. The handler looks at the size only when a part has
ended, and then at what the stream has written by that time. What is queued does not count.

## Main results

- `capped_of_reach`: where the parts keep to the cap and the last one leaves nothing behind that
  exceeds it, neither the file nor a 200 does
- `exceeds_of_flush`, `oversized_of_endPart`: what happens where they do not
-/

namespace OpenModel.FocBridge

/-- No more than the cap and one of the chunks. -/
def WithinChunk (cap : Nat) (chunks : List Bytes) (size : Nat) : Prop :=
  size ≤ cap ∨ ∃ chunk ∈ chunks, size ≤ cap + chunk.length

instance {cap size : Nat} {chunks : List Bytes} : Decidable (WithinChunk cap chunks size) :=
  inferInstanceAs (Decidable (_ ∨ _))

theorem WithinChunk.mono {cap size size' : Nat} {chunks chunks' : List Bytes}
    (h : WithinChunk cap chunks size) (hsize : size' ≤ size) (hchunks : chunks ⊆ chunks') :
    WithinChunk cap chunks' size' :=
  h.imp hsize.trans fun ⟨chunk, hmem, hle⟩ => ⟨chunk, hchunks hmem, hsize.trans hle⟩

namespace Handler

variable {digest : Bytes → String} {app : App} {h h' : Handler} {disk disk' : Disk}
  {ev : BridgeEvent}

/-- The chunks that were received. -/
def chunks (h : Handler) : List Bytes := h.bodies.flatten ++ h.body

/-- What the stream was handed. -/
def handed (h : Handler) : Bytes := h.written ++ h.queued

/-- The size of the file stays under the cap. -/
structure Capped (app : App) (h : Handler) : Prop where
  written : WithinChunk app.maxTotalBytes h.chunks h.written.length
  downloaded : ∀ path size parts sha256 verified,
    h.pc = .responded (.downloaded path size parts sha256 verified) → size ≤ app.maxTotalBytes

/-- What was handed over keeps to the cap. -/
structure Bounded (app : App) (h : Handler) : Prop where
  handed : WithinChunk app.maxTotalBytes h.chunks h.handed.length
  complete : h.pc.complete → h.handed.length ≤ app.maxTotalBytes
  downloaded : ∀ path size parts sha256 verified,
    h.pc = .responded (.downloaded path size parts sha256 verified) → size ≤ app.maxTotalBytes

/-- A chunk takes no more over the cap than the largest one has bytes, and no part ends as the
last one with too much of it queued. -/
def keepsToCap (app : App) (h : Handler) : BridgeEvent → Bool
  | .chunk bytes =>
    WithinChunk app.maxTotalBytes (h.chunks ++ [bytes]) (h.handed.length + bytes.length)
  | .bodyEnds =>
    decide (h.bodies.length + 1 = h.pieceCids.length → h.written.length ≤ app.maxTotalBytes →
      h.handed.length ≤ app.maxTotalBytes)
  | _ => true

theorem Bounded.capped (hb : h.Bounded app) : h.Capped app :=
  ⟨hb.handed.mono (by simp [Handler.handed]) (List.Subset.refl _), hb.downloaded⟩

theorem chunks_tap {bytes : Bytes} : (h.tap bytes).chunks = h.chunks ++ [bytes] := by
  simp [chunks, tap]

theorem handed_tap {bytes : Bytes} : (h.tap bytes).handed = h.handed ++ bytes := by
  simp [handed, tap]

theorem handed_flush {count : Nat} : (h.flush count).handed = h.handed := by
  simp [handed, flush]

theorem chunks_endPart {part : Nat} : (h.endPart app part).chunks = h.chunks := by
  unfold endPart
  dsimp only
  split_ifs <;> simp [chunks, failed]

theorem handed_endPart {part : Nat} : (h.endPart app part).handed = h.handed := by
  unfold endPart
  dsimp only
  split_ifs <;> rfl

/-- All parts have ended within the cap. -/
theorem complete_endPart {part : Nat} (hpc : ((h.endPart app part).pc).complete) :
    h.pieceCids.length ≤ part + 1 ∧ h.written.length ≤ app.maxTotalBytes := by
  unfold endPart at hpc
  dsimp only at hpc
  split_ifs at hpc with hcap hmore
  · cases hpc
  · cases hpc
  · exact ⟨not_lt.mp hmore, not_lt.mp hcap⟩

theorem Bounded.endPart {part : Nat} {fromSecondary : Bool} (hb : h.Bounded app) (ht : h.Tracks)
    (hpc : h.pc = .streaming part fromSecondary) (hkeeps : h.keepsToCap app .bodyEnds) :
    (h.endPart app part).Bounded app := by
  obtain ⟨hlen, hlt⟩ := ht.part part (by rw [hpc]; rfl)
  refine ⟨?_, fun hcomplete => ?_, fun path size parts sha256 verified hresponded => ?_⟩
  · rw [chunks_endPart, handed_endPart]
    exact hb.handed
  · obtain ⟨hlast, hwritten⟩ := complete_endPart hcomplete
    rw [handed_endPart]
    exact of_decide_eq_true hkeeps (by omega) hwritten
  · unfold Handler.endPart at hresponded
    dsimp only at hresponded
    split_ifs at hresponded
    all_goals cases hresponded

/-- The digest is compared. -/
theorem Bounded.verify {number : Nat} {content : Bytes} (hb : h.Bounded app) (ht : h.Tracks)
    (hp : h.AtPath disk) (hpc : h.pc = .stat)
    (hfile : disk.file h.outPath = some (number, content)) :
    (h.verify digest content.length).Bounded app := by
  have hcomplete : h.handed.length ≤ app.maxTotalBytes := hb.complete (by rw [hpc]; rfl)
  have hsize : content.length ≤ app.maxTotalBytes := by
    obtain ⟨number', hphase⟩ := ht.finished (by rw [hpc]; rfl)
    have hwritten := hp (answered_eq_false hpc nofun) number' (.inr hphase)
    obtain ⟨-, rfl⟩ := Prod.mk.inj (Option.some.inj (hfile.symm.trans hwritten))
    refine le_trans ?_ hcomplete
    simp [Handler.handed]
  unfold Handler.verify
  split_ifs
  · exact ⟨hb.handed, nofun, nofun⟩
  · refine ⟨hb.handed, fun _ => hcomplete, ?_⟩
    rintro path size parts sha256 verified ⟨⟩
    exact hsize

/-- What moves only the place of the handler keeps what it was handed. -/
theorem Bounded.moves {pc : BridgePc} {phase : StreamPhase} {listening : Bool}
    (hb : h.Bounded app) (hpc : pc.complete → h.pc.complete)
    (hresponse : ∀ path size parts sha256 verified,
      pc ≠ .responded (.downloaded path size parts sha256 verified)) :
    Bounded app { h with pc, phase, listening } :=
  ⟨hb.handed, fun hcomplete => hb.complete (hpc hcomplete),
    fun path size parts sha256 verified heq =>
      absurd heq (hresponse path size parts sha256 verified)⟩

theorem Bounded.step (hb : h.Bounded app) (ht : h.Tracks) (hp : h.AtPath disk)
    (hkeeps : h.keepsToCap app ev) (hstep : h.step digest app disk ev = some (h', disk')) :
    h'.Bounded app := by
  cases stepped_of_step hstep with
  | creates | retries | streams | refused | throws => exact hb.moves nofun nofun
  | taps hpc =>
    have hcomplete : ¬ h.pc.complete := by
      rw [hpc]
      nofun
    refine ⟨?_, fun hc => absurd hc hcomplete, ?_⟩
    · rw [chunks_tap, handed_tap, List.length_append]
      exact of_decide_eq_true hkeeps
    · exact hb.downloaded
  | endsPart hpc => exact hb.endPart ht hpc hkeeps
  | finishes hpc => exact hb.moves (fun _ => by rw [hpc]; rfl) nofun
  | verifies hpc hfile => exact hb.verify ht hp hpc hfile
  | unlinks hpc | keeps hpc =>
    have hstatus := ht.unlinking _ hpc
    refine hb.moves (fun hc => ?_) ?_
    · unfold BridgePc.complete at hc
      split at hc
      · next heq => cases heq
      · next heq => cases heq
      · next heq =>
        cases heq
        exact absurd rfl hstatus
      · cases hc
    · rintro path size parts sha256 verified ⟨⟩
      exact hstatus rfl
  | opens | errs => exact ⟨hb.handed, hb.complete, hb.downloaded⟩
  | flushes =>
    refine ⟨?_, fun hc => ?_, hb.downloaded⟩
    · rw [handed_flush]
      exact hb.handed
    · rw [handed_flush]
      exact hb.complete hc

end Handler

/-- A request was accepted, and no other download goes on. -/
def downloadSystem (digest : Bytes → String) (app : App) :
    Transition.System (Handler × Disk) BridgeEvent where
  init s := ∃ req outPath, app.accept [] req = .ok outPath ∧ s.1 = req.handler outPath
  step s ev := s.1.step digest app s.2 ev

section Runs

variable {digest : Bytes → String} {app : App} {s : Handler × Disk}

theorem tracks_of_reach {ok : Handler × Disk → BridgeEvent → Prop}
    (hreach : (downloadSystem digest app).Reach ok s) : s.1.Tracks ∧ s.1.AtPath s.2 := by
  refine hreach.invariant (I := fun s => s.1.Tracks ∧ s.1.AtPath s.2) (fun s hs => ?_)
    fun s ev t hs _ hstep => ?_
  · obtain ⟨req, outPath, haccept, heq⟩ := hs
    rw [heq]
    refine ⟨Handler.tracks_new (accept_pieceCids haccept), fun _ number hphase => ?_⟩
    rcases hphase with hphase | hphase <;> cases hphase
  · exact ⟨hs.1.step hstep, hs.2.step hs.1 hstep⟩

/-- **Size cap**: what the file holds and what a 200 stands for. -/
theorem capped_of_reach
    (hreach : (downloadSystem digest app).Reach (fun s ev => s.1.keepsToCap app ev) s) :
    s.1.Capped app := by
  suffices hb : s.1.Bounded app from hb.capped
  refine hreach.invariant_of (I := fun s => s.1.Bounded app)
    (J := fun s => s.1.Tracks ∧ s.1.AtPath s.2) (fun s hs => tracks_of_reach hs) (fun s hs => ?_)
    fun s ev t hs hb hkeeps hstep => hb.step hs.1 hs.2 hkeeps hstep
  obtain ⟨req, outPath, -, heq⟩ := hs
  rw [heq]
  exact ⟨.inl (Nat.zero_le _), nofun, nofun⟩

/-- The bodies keep to the cap, in two chunks and in one. -/
def smallParts : List BridgeEvent :=
  [.go, .opened, .answers 200, .chunk [1, 2], .flush 2, .chunk [3], .bodyEnds, .answers 200,
    .flush 1, .chunk [4], .bodyEnds, .flush 1, .go, .go]

def twoParts : DownloadRequest where
  pieceCids := ["baga1", "baga2"]
  destPath := "weights"
  sha256 := none

def smallCapApp : App where
  modelsDir := ["models"]
  maxTotalBytes := 4

def twoPartsStart : Handler × Disk :=
  (twoParts.handler ["models", "weights"], Bridge.empty.disk)

theorem init_twoParts : (downloadSystem Bridge.weightsDigest smallCapApp).init twoPartsStart :=
  ⟨twoParts, ["models", "weights"], by decide +kernel, rfl⟩

theorem capped_smallParts : ∃ s,
    (downloadSystem Bridge.weightsDigest smallCapApp).execGuarded (fun s ev => s.1.keepsToCap smallCapApp ev)
      twoPartsStart smallParts = some s ∧
    s.1.answered ∧ s.1.Capped smallCapApp := by
  have hrun : ((downloadSystem Bridge.weightsDigest smallCapApp).execGuarded
      (fun s ev => s.1.keepsToCap smallCapApp ev) twoPartsStart smallParts).any
        fun s => s.1.answered := by
    decide +kernel
  obtain ⟨s, hs, hanswered⟩ := (Option.any_eq_true _ _).mp hrun
  exact ⟨s, hs, hanswered, capped_of_reach (.execGuarded (.init init_twoParts) hs)⟩

/-- The last part ends before the file is open. -/
def smallChunks : List BridgeEvent :=
  [.go, .answers 200, .chunk [1, 2], .bodyEnds, .answers 200, .chunk [3, 4], .chunk [5, 6],
    .chunk [7, 8], .bodyEnds, .opened, .flush 8, .go, .go]

theorem smallChunks_not_capped : ∃ s,
    (downloadSystem Bridge.weightsDigest smallCapApp).exec twoPartsStart smallChunks = some s ∧
    ¬ WithinChunk smallCapApp.maxTotalBytes s.1.chunks s.1.written.length ∧
    ¬ s.1.Capped smallCapApp := by
  have hrun : ((downloadSystem Bridge.weightsDigest smallCapApp).exec twoPartsStart smallChunks).any
      fun s => decide (¬ WithinChunk smallCapApp.maxTotalBytes s.1.chunks s.1.written.length) &&
        decide (s.1.pc = .responded (.downloaded ["models", "weights"] 8 2 (Bridge.weightsDigest []) false)) := by
    decide +kernel
  obtain ⟨s, hs, hsize⟩ := (Option.any_eq_true _ _).mp hrun
  obtain ⟨hwritten, hpc⟩ := Bool.and_eq_true_iff.mp hsize
  refine ⟨s, hs, of_decide_eq_true hwritten, fun h => ?_⟩
  have := h.downloaded _ _ _ _ _ (of_decide_eq_true hpc)
  exact absurd this (by decide)

variable {h : Handler} {disk : Disk} {number : Nat}

/-- What was handed over is written. -/
theorem exceeds_of_flush (hphase : h.phase = .opened number) (hqueued : h.queued ≠ [])
    (hhanded : ¬ WithinChunk app.maxTotalBytes h.chunks h.handed.length) :
    ∃ t, (downloadSystem digest app).step (h, disk) (.flush h.queued.length) = some t ∧
      ¬ t.1.Capped app := by
  have hcount : 0 < h.queued.length := List.length_pos_iff.mpr hqueued
  refine ⟨(h.flush h.queued.length, disk.writeAt h.outPath number h.written.length
    (h.queued.take h.queued.length)), ?_, fun hc => hhanded ?_⟩
  · show h.step digest app disk (.flush h.queued.length) = _
    simp only [Handler.step, hphase]
    exact if_pos ⟨hcount, hqueued⟩
  · have hwritten : (h.flush h.queued.length).written = h.handed := by
      simp [Handler.flush, Handler.handed]
    rw [← hwritten]
    exact hc.written

/-- What is queued when the last part ends is not looked at. -/
theorem oversized_of_endPart {part : Nat} {fromSecondary : Bool} (hp : h.AtPath disk)
    (hpc : h.pc = .streaming part fromSecondary) (htakes : h.takes)
    (hlast : part + 1 = h.pieceCids.length) (hsha : h.sha256 = none)
    (hphase : h.phase = .opened number) (hwritten : h.written.length ≤ app.maxTotalBytes)
    (hhanded : app.maxTotalBytes < h.handed.length) :
    ∃ t, (downloadSystem digest app).exec (h, disk) [.bodyEnds, .flush h.queued.length, .go, .go] =
      some t ∧ ¬ t.1.Capped app := by
  have hqueued : h.queued ≠ [] := by
    intro hnil
    rw [Handler.handed, hnil, List.append_nil] at hhanded
    exact absurd hhanded (not_lt.mpr hwritten)
  have hcount : 0 < h.queued.length := List.length_pos_iff.mpr hqueued
  have hfile : disk.file h.outPath = some (number, h.written) :=
    hp (Handler.answered_eq_false hpc nofun) number (.inl hphase)
  have hends : h.step digest app disk .bodyEnds = some (h.endPart app part, disk) := by
    simp only [Handler.step, hpc, htakes, if_true]
  -- the stream writes the rest, finishes and is asked for its size
  have hend : h.endPart app part =
      { h with bodies := h.bodies ++ [h.body], body := [], pc := .finishing } := by
    unfold Handler.endPart
    dsimp only
    rw [if_neg (not_lt.mpr hwritten), if_neg (by omega)]
  have hrest : (downloadSystem digest app).exec (h.endPart app part, disk)
      [.flush h.queued.length, .go, .go] = some
        ({ h.endPart app part with
          pc := .responded (.downloaded h.outPath h.handed.length h.pieceCids.length
            (digest h.hashed) false)
          phase := .closed number, queued := [], written := h.handed, needDrain := false },
        disk.writeAt h.outPath number h.written.length h.queued) := by
    have hcontent : (disk.writeAt h.outPath number h.written.length h.queued).file h.outPath =
        some (number, h.handed) := Disk.writeAt_append hfile
    rw [hend]
    simp [Transition.System.exec, downloadSystem, Handler.step, hphase, hcount, hqueued,
      Handler.flush, Handler.go, hcontent, Handler.verify, hsha, Handler.handed]
  refine ⟨_, Option.bind_eq_some_iff.mpr ⟨_, hends, hrest⟩, fun hc => ?_⟩
  exact absurd (hc.downloaded _ _ _ _ _ rfl) (not_le.mpr hhanded)

end Runs

end OpenModel.FocBridge
