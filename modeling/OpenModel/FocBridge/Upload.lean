import OpenModel.FocBridge.Bridge
import OpenModel.Lib.SplitFiles

/-!
# A model uploaded and downloaded

`upload.js` packs a model, splits the archive with `split` into files that a storage provider takes,
and uploads them in the order of their sorted names. The bridge fetches the pieces of a list of CIDs
and writes one behind the other. Nothing but the names says in which order the parts come.

The network has pieces by their CID; a piece that was uploaded is what its CID stands for. The
providers of a download may refuse and fail as before, but a body that ends is the piece.

## Main results

- `parts_uploaded`: whatever the order of the directory, the parts are uploaded in that of the archive
- `accept_uploaded`: the bridge takes the parts of an archive within its cap
- `Bridge.restores_of_step`: the answer to the download of what was uploaded
-/

namespace OpenModel.FocBridge

-- ════════════════════════════════════════════════════════════════════════
-- Upload
-- ════════════════════════════════════════════════════════════════════════

def maxPartSize : Nat := 900 * 1024 * 1024

/-- The file names of `split` with the prefix `part_`, as the code units that `sort` compares. -/
def partName (k : Nat) : List Nat :=
  "part_".toList.map Char.toNat ++ (SplitFiles.suffix 26 k).map ('a'.toNat + ·)

/-- The split directory, with its files in the order in which they are written. -/
def splitDir (tar : Bytes) : List (List Nat × Bytes) :=
  if maxPartSize < tar.length then
    let partSizeMB := maxPartSize / (1024 * 1024)
    SplitFiles.files partName (SplitFiles.pieces (partSizeMB * (1024 * 1024)) tar)
  else [("part_aa".toList.map Char.toNat, tar)]

/-- The results of the uploads, with the CID of `synapse.storage.upload`; `entries` is what
`readdirSync` lists. -/
def upload (pieceCid : Bytes → String) (entries : List (List Nat × Bytes)) :
    List (List Nat × String) :=
  (entries.mergeSort fun e e' => e.1 ≤ e'.1).map fun (part, data) => (part, pieceCid data)

/-- The contents of the parts. -/
def parts (tar : Bytes) : List Bytes := (splitDir tar).map Prod.snd

section Parts

variable {tar : Bytes} {entries : List (List Nat × Bytes)}

theorem strictMono_partName : StrictMono partName := by
  intro j k h
  refine List.append_left_lt (List.map_lt (fun d d' hd => ?_) (SplitFiles.strictMono_suffix 26 h))
  exact Nat.add_lt_add_left hd _

/-- The only file of a small archive has the name of the first one. -/
theorem splitDir_eq_files : splitDir tar = SplitFiles.files partName (parts tar) := by
  have hfirst : partName 0 = "part_aa".toList.map Char.toNat := by decide
  unfold parts splitDir
  split_ifs
  · dsimp only
    rw [SplitFiles.map_snd_files]
  · rw [← hfirst]
    rfl

/-- **Order**: the names sort the parts. -/
theorem parts_uploaded (pieceCid : Bytes → String) (hentries : entries.Perm (splitDir tar)) :
    (upload pieceCid entries).map Prod.snd = (parts tar).map pieceCid := by
  rw [splitDir_eq_files] at hentries
  rw [upload, SplitFiles.mergeSort_eq_of_perm strictMono_partName hentries, List.map_map]
  have hsnd : (parts tar).map pieceCid =
      ((SplitFiles.files partName (parts tar)).map Prod.snd).map pieceCid := by
    rw [SplitFiles.map_snd_files]
  rw [hsnd, List.map_map]
  rfl

theorem flatten_parts (tar : Bytes) : (parts tar).flatten = tar := by
  unfold parts splitDir
  split_ifs
  · dsimp only
    rw [SplitFiles.map_snd_files, SplitFiles.flatten_pieces (by decide)]
  · exact List.flatten_singleton

theorem length_parts_mul (tar : Bytes) :
    (parts tar).length * maxPartSize < tar.length + maxPartSize ∨ (parts tar).length = 1 := by
  unfold parts splitDir
  split_ifs
  · dsimp only
    rw [SplitFiles.map_snd_files]
    exact .inl (SplitFiles.length_pieces_mul (by decide))
  · exact .inr rfl

theorem parts_ne_nil : parts tar ≠ [] := by
  intro hnil
  have htar := flatten_parts tar
  rw [hnil] at htar
  obtain rfl : [] = tar := htar
  exact List.cons_ne_nil _ _ hnil

end Parts

/-- **Accepted**: the bridge takes as many parts as an archive of 200 GiB has. -/
theorem accept_uploaded {app : App} {req : DownloadRequest} {tar : Bytes}
    {pieceCid : Bytes → String} (hparts : 228 ≤ app.maxParts)
    (htar : tar.length ≤ 200 * 1024 * 1024 * 1024)
    (hvalid : ∀ part ∈ parts tar, isValidCid (pieceCid part))
    (hauth : app.authToken = "" ∨ req.authorization = "Bearer " ++ app.authToken)
    (hcids : req.pieceCids = (parts tar).map pieceCid) (hdest : req.destPath = "")
    (hsha : ∀ expected ∈ req.sha256, isDigest expected) :
    app.accept [] req = .ok (app.modelsDir ++ ["foc-model-download.tar.gz"]) := by
  have hcount : (parts tar).length ≤ 228 := by
    obtain hmul | hone := length_parts_mul tar
    · unfold maxPartSize at hmul
      omega
    · omega
  unfold App.accept
  rw [if_neg, if_neg, if_neg, if_neg, if_neg, if_pos hdest]
  · exact if_neg List.not_mem_nil
  · simpa [hcids] using hvalid
  · rw [hcids, List.length_map]
    omega
  · rw [hcids, List.map_eq_nil_iff]
    exact parts_ne_nil
  · simpa [Option.any_eq_true] using hsha
  · rintro ⟨htoken, hbearer⟩
    exact hauth.elim htoken hbearer

-- ════════════════════════════════════════════════════════════════════════
-- The download of what was uploaded
-- ════════════════════════════════════════════════════════════════════════

namespace Handler

variable {digest : Bytes → String} {app : App} {h h' : Handler} {disk disk' : Disk}
  {ev : BridgeEvent} {network : String → Option Bytes} {tar : Bytes}

/-- The bodies that have ended are the pieces. -/
def Served (network : String → Option Bytes) (h : Handler) : Prop :=
  h.bodies.map (fun body => some body.flatten) =
    (h.pieceCids.take h.bodies.length).map network

/-- The body that ends is the piece. -/
def served (network : String → Option Bytes) (h : Handler) : BridgeEvent → Bool
  | .bodyEnds =>
    match h.pc with
    | .streaming part _ => h.pieceCids[part]?.bind network == some h.body.flatten
    | _ => true
  | _ => true

theorem Served.endPart {part : Nat} {fromSecondary : Bool} (hs : h.Served network) (ht : h.Tracks)
    (hpc : h.pc = .streaming part fromSecondary) (hserved : h.served network .bodyEnds) :
    (h.bodies ++ [h.body]).map (fun body => some body.flatten) =
      (h.pieceCids.take (part + 1)).map network := by
  obtain ⟨hpart, hlt⟩ := ht.part part (by rw [hpc]; rfl)
  have hpiece : network h.pieceCids[part] = some h.body.flatten := by
    simpa [served, hpc, hlt] using hserved
  rw [Served, hpart] at hs
  rw [List.map_append, hs, List.take_succ_eq_append_getElem hlt, List.map_append, List.map_singleton,
    List.map_singleton, hpiece]

theorem Served.step (hs : h.Served network) (ht : h.Tracks) (hserved : h.served network ev)
    (hstep : h.step digest app disk ev = some (h', disk')) : h'.Served network := by
  cases stepped_of_step hstep with
  | @endsPart part fromSecondary hpc htakes =>
    have hbodies := hs.endPart ht hpc hserved
    have hlength : (h.bodies ++ [h.body]).length = part + 1 := by
      rw [List.length_append, (ht.part part (by rw [hpc]; rfl)).1]
      rfl
    rw [← hlength] at hbodies
    unfold Handler.endPart
    dsimp only
    split_ifs
    · exact hbodies
    · exact hbodies
    · exact hbodies
  | verifies =>
    unfold verify
    split_ifs
    · exact hs
    · exact hs
  | _ => exact hs

/-- The CIDs are those of the parts. -/
def Fetches (network : String → Option Bytes) (tar : Bytes) (h : Handler) : Prop :=
  h.pieceCids.map network = (parts tar).map some

/-- What has ended is a beginning of the archive's parts. -/
theorem Served.bodies_eq (hs : h.Served network) (hf : h.Fetches network tar) :
    h.bodies.map List.flatten = (parts tar).take h.bodies.length := by
  rw [Served, List.map_take, hf, ← List.map_take] at hs
  exact List.map_injective_iff.mpr (Option.some_injective _) (by rw [List.map_map]; exact hs)

theorem Served.content_eq (hs : h.Served network) (hf : h.Fetches network tar)
    (hcomplete : h.bodies.length = h.pieceCids.length) : h.bodies.flatten.flatten = tar := by
  have hlength : h.pieceCids.length = (parts tar).length := by
    simpa using congrArg List.length hf
  rw [List.flatten_flatten, hs.bodies_eq hf, hcomplete, hlength, List.take_length, flatten_parts]

/-- **The size** of what has arrived when a part ends is within that of the archive. -/
theorem Served.length_written_le {part : Nat} {fromSecondary : Bool} (hs : h.Served network)
    (hf : h.Fetches network tar) (ht : h.Tracks) (hstreams : h.Streams digest)
    (hpc : h.pc = .streaming part fromSecondary) (hserved : h.served network .bodyEnds) :
    h.written.length ≤ tar.length := by
  have hbodies := hs.endPart ht hpc hserved
  rw [List.map_take, hf, ← List.map_take] at hbodies
  have hparts : (h.bodies ++ [h.body]).map List.flatten = (parts tar).take (part + 1) :=
    List.map_injective_iff.mpr (Option.some_injective _) (by rw [List.map_map]; exact hbodies)
  have hhashed : h.hashed = ((parts tar).take (part + 1)).flatten := by
    rw [ht.received, ← hparts, ← List.flatten_flatten, List.flatten_concat]
  have hle : h.written.length ≤ h.hashed.length := by
    rw [show h.hashed = h.written ++ h.queued from hstreams.hashed, List.length_append]
    exact Nat.le_add_right _ _
  have htar : (((parts tar).take (part + 1)).flatten ++
      ((parts tar).drop (part + 1)).flatten).length = tar.length := by
    rw [← List.flatten_append, List.take_append_drop, flatten_parts]
  rw [hhashed] at hle
  rw [List.length_append] at htar
  omega

/-- The digest was not found to be wrong. -/
def Unrefuted (h : Handler) : Prop :=
  ∀ error expected computed, h.pc ≠ .unlinking (.mismatch error expected computed) ∧
    h.pc ≠ .responded (.mismatch error expected computed)

theorem Unrefuted.step (hu : h.Unrefuted) (hs : h.Served network) (hf : h.Fetches network tar)
    (ht : h.Tracks) (hsha : ∀ expected ∈ h.sha256, lower expected = digest tar)
    (hstep : h.step digest app disk ev = some (h', disk')) : h'.Unrefuted := by
  intro error expected computed
  cases stepped_of_step hstep with
  | creates | retries | streams | finishes => exact ⟨BridgePc.noConfusion, BridgePc.noConfusion⟩
  | refused | throws => exact ⟨by simp [failed], BridgePc.noConfusion⟩
  | taps hpc => exact ⟨by simp [tap, hpc], by simp [tap, hpc]⟩
  | endsPart =>
    unfold Handler.endPart
    dsimp only
    split_ifs
    · exact ⟨by simp [failed], BridgePc.noConfusion⟩
    · exact ⟨BridgePc.noConfusion, BridgePc.noConfusion⟩
    · exact ⟨BridgePc.noConfusion, BridgePc.noConfusion⟩
  | verifies hpc =>
    have hhashed : h.hashed = tar := by
      rw [ht.received, ht.between (by rw [hpc]; rfl), List.append_nil]
      exact hs.content_eq hf (ht.complete (by rw [hpc]; rfl))
    have hmatches : ¬ h.sha256.any fun s => digest h.hashed ≠ lower s := by
      intro hany
      obtain ⟨expected, hexpected, hne⟩ := (Option.any_eq_true _ _).mp hany
      refine of_decide_eq_true hne ?_
      rw [hhashed, hsha expected hexpected]
    unfold verify
    rw [if_neg hmatches]
    exact ⟨BridgePc.noConfusion, by simp⟩
  | @unlinks response hpc | @keeps response _ hpc =>
    refine ⟨BridgePc.noConfusion, fun heq => ?_⟩
    obtain rfl : response = .mismatch error expected computed := BridgePc.responded.inj heq
    exact (hu error expected computed).1 hpc
  | opens | flushes | errs => exact hu error expected computed

end Handler

namespace Bridge

variable {digest : Bytes → String} {app : App} {s t : Bridge} {l : BridgeLabel}
  {h h' : Handler} {k : Nat} {network : String → Option Bytes} {tar : Bytes}

/-- A body that ends is the piece of its CID. -/
def serves (network : String → Option Bytes) (s : Bridge) : BridgeLabel → Bool
  | .run k ev => s.handlers[k]?.all fun h => h.served network ev
  | .request _ => true

/-- The environment of a download: files are opened before the response and removed when the
handler does so, and the network has what was stored. -/
def Stores (network : String → Option Bytes) (s : Bridge) (l : BridgeLabel) : Prop :=
  s.removes l ∧ s.punctual l ∧ s.serves network l

instance : Decidable (s.Stores network l) := inferInstanceAs (Decidable (_ ∧ _))

/-- What holds of every handler. -/
def Serves (digest : Bytes → String) (network : String → Option Bytes) (s : Bridge) : Prop :=
  ∀ (k : Nat) (h : Handler), s.handlers[k]? = some h → h.Served network ∧
    ∀ tar, h.Fetches network tar → (∀ expected ∈ h.sha256, lower expected = digest tar) →
      h.Unrefuted

theorem Serves.step (hs : s.Serves digest network) (hsound : s.Sound digest)
    (hserves : s.serves network l) (hstep : s.step digest app l = some t) :
    t.Serves digest network := by
  obtain ⟨req, status, -, -, rfl⟩ | ⟨req, outPath, -, haccept, rfl⟩ |
    ⟨k, ev, h, h', disk, rfl, hk, hrun, rfl⟩ := step_cases hstep
  · exact hs
  · intro j x hj
    obtain hj | ⟨-, rfl⟩ := handlers_append hj
    · exact hs j x hj
    · exact ⟨rfl, fun _ _ _ _ _ _ => ⟨BridgePc.noConfusion, BridgePc.noConfusion⟩⟩
  · intro j x hj
    obtain ⟨-, rfl⟩ | ⟨-, hj⟩ := handlers_set hj
    · obtain ⟨hserved, hunrefuted⟩ := hs k h hk
      have htracks := hsound.tracks k h hk
      obtain ⟨-, hcids, hsha⟩ := Handler.request_of_step hrun
      have hev : h.served network ev := by simpa [serves, hk] using hserves
      refine ⟨hserved.step htracks hev hrun, fun tar hf hmatches => ?_⟩
      rw [Handler.Fetches, hcids] at hf
      rw [hsha] at hmatches
      exact (hunrefuted tar hf hmatches).step hserved hf htracks hmatches hrun
    · exact hs j x hj

theorem serves_of_reach (hreach : (system digest app).Reach (Stores network) s) :
    s.Serves digest network := by
  refine hreach.invariant_of (J := Sound digest) (fun s hs => sound_of_reach hs) (fun s hs => ?_)
    fun s l t hs hi hok hstep => hi.step hs hok.2.2 hstep
  intro k h hk
  simp [hs.2.1] at hk

/-- A handler keeps what its request asked for. -/
theorem request_of_step (hk : s.handlers[k]? = some h) (hstep : s.step digest app l = some t)
    (hk' : t.handlers[k]? = some h') :
    h'.outPath = h.outPath ∧ h'.pieceCids = h.pieceCids ∧ h'.sha256 = h.sha256 := by
  have hsame (hk' : s.handlers[k]? = some h') :
      h'.outPath = h.outPath ∧ h'.pieceCids = h.pieceCids ∧ h'.sha256 = h.sha256 := by
    obtain rfl := Option.some.inj (hk.symm.trans hk')
    exact ⟨rfl, rfl, rfl⟩
  obtain ⟨req, status, -, -, rfl⟩ | ⟨req, outPath, -, -, rfl⟩ |
    ⟨j, ev, x, x', disk, rfl, hj, hrun, rfl⟩ := step_cases hstep
  · exact hsame hk'
  · rw [List.getElem?_append_left (List.getElem?_eq_some_iff.mp hk).1] at hk'
    exact hsame hk'
  · obtain ⟨rfl, rfl⟩ | ⟨-, hk'⟩ := handlers_set hk'
    · obtain rfl := Option.some.inj (hk.symm.trans hj)
      exact Handler.request_of_step hrun
    · exact hsame hk'

theorem fetches_uploaded {pieceCid : Bytes → String} {entries : List (List Nat × Bytes)}
    (hstored : ∀ part ∈ parts tar, network (pieceCid part) = some part)
    (hentries : entries.Perm (splitDir tar))
    (hcids : h.pieceCids = (upload pieceCid entries).map Prod.snd) : h.Fetches network tar := by
  rw [Handler.Fetches, hcids, parts_uploaded pieceCid hentries, List.map_map]
  exact List.map_congr_left hstored

/-- What an answer to the download of an archive means. -/
def Restores (digest : Bytes → String) (tar : Bytes) (disk : Disk) (h : Handler) :
    BridgeResponse → Prop
  | .downloaded path size parts sha256 verified =>
    path = h.outPath ∧ (∃ number, disk.file path = some (number, tar)) ∧ size = tar.length ∧
      parts = (FocBridge.parts tar).length ∧ sha256 = digest tar ∧ verified = h.sha256.isSome
  | .mismatch _ _ _ => False
  | .failed _ => disk.file h.outPath = none

/-- **Round trip**: what was uploaded is downloaded or nothing is, its digest is never found to be
wrong, and no part is refused for the size of an archive within the cap. -/
theorem restores_of_step {pieceCid : Bytes → String} {entries : List (List Nat × Bytes)}
    (hstored : ∀ part ∈ parts tar, network (pieceCid part) = some part)
    (hentries : entries.Perm (splitDir tar))
    (hreach : (system digest app).Reach (Stores network) s) (hactive : s.Active k h)
    (hcids : h.pieceCids = (upload pieceCid entries).map Prod.snd)
    (hsha : ∀ expected ∈ h.sha256, lower expected = digest tar) (hok : s.Stores network l)
    (hstep : s.step digest app l = some t) (hk : t.handlers[k]? = some h') :
    (∀ response, h'.pc = .responded response → Restores digest tar t.disk h' response) ∧
      (l = .run k .bodyEnds → tar.length ≤ app.maxTotalBytes →
        h'.pc.part.isSome ∨ h'.pc = .finishing) := by
  have hf := fetches_uploaded hstored hentries hcids
  have hsound := sound_of_reach hreach
  have hserves := serves_of_reach hreach
  have howned : s.Owned := owned_of_reach (hreach.mono fun _ _ hok => ⟨hok.1, hok.2.1⟩)
  have hout := outcome_of_step hsound howned hok.1 hok.2.1 hstep
  have hserves' := hserves.step hsound hok.2.2 hstep
  obtain ⟨-, hcids', hsha'⟩ := request_of_step hactive.1 hstep hk
  have hf' : h'.Fetches network tar := by
    rwa [Handler.Fetches, hcids']
  rw [← hsha'] at hsha
  refine ⟨fun response hpc => ?_, fun hl htar => ?_⟩
  · cases response with
    | downloaded path size parts sha256 verified =>
      obtain ⟨hpath, hparts, hcomplete, number, content, hfile, hcontent, hsize, hdigest,
        hverified⟩ := hout.downloaded k h h' _ _ _ _ _ hactive hk hpc
      obtain rfl : content = tar := hcontent.trans ((hserves' k h' hk).1.content_eq hf' hcomplete)
      have hlength := congrArg List.length hf'
      rw [List.length_map, List.length_map] at hlength
      refine ⟨hpath, ⟨number, hfile⟩, hsize, hparts.trans hlength, hdigest, ?_⟩
      rw [Bool.eq_iff_iff, hverified, Option.isSome_iff_exists]
      exact exists_congr fun expected =>
        ⟨And.left, fun hexpected => ⟨hexpected, (hsha expected hexpected).symm⟩⟩
    | mismatch error expected computed =>
      exact ((hserves' k h' hk).2 tar hf' hsha error expected computed).2 hpc
    | failed error => exact hout.cleaned k h h' _ hactive hk hpc BridgeResponse.status_failed
  · subst hl
    obtain ⟨x, disk, hrun, rfl⟩ := run_of_step hactive.1 hstep
    obtain rfl : x = h' := Option.some.inj ((handlers_set_self hactive.1).symm.trans hk)
    have hserved : h.served network .bodyEnds := by
      simpa [serves, hactive.1] using hok.2.2
    cases Handler.stepped_of_step hrun with
    | retries hpc hev =>
      obtain ⟨message, hev⟩ | ⟨status, -, hev⟩ := hev
      · cases hev
      · cases hev
    | endsPart hpc htakes =>
      have hle := (hserves k h hactive.1).1.length_written_le hf (hsound.tracks k h hactive.1)
        (hsound.streams k h hactive.1) hpc hserved
      unfold Handler.endPart
      dsimp only
      rw [if_neg (not_lt.mpr (hle.trans htar))]
      split_ifs
      · exact .inl rfl
      · exact .inr rfl

/-- The CID of the weights, and what the network has for it. -/
def weightsCid (_ : Bytes) : String := "baga1"

def weightsNetwork (cid : String) : Option Bytes := if cid = "baga1" then some [1, 2] else none

/-- The second request for the uploaded weights is answered. -/
theorem restores_secondTry : ∃ s t h h' response,
    (system weightsDigest modelsApp).Reach (Stores weightsNetwork) s ∧ s.Active 1 h ∧
    s.step weightsDigest modelsApp (.run 1 .go) = some t ∧ t.handlers[1]? = some h' ∧
    h'.pc = .responded response ∧ Restores weightsDigest [1, 2] t.disk h' response := by
  have hrun : ((system weightsDigest modelsApp).execGuarded (Stores weightsNetwork) empty
      secondTry.dropLast).any (fun s => s.handlers[1]?.any (fun h => !h.answered &&
        h.pieceCids == ["baga1"] && h.sha256 == weightsRequest.sha256) &&
        decide (s.Stores weightsNetwork (.run 1 .go)) &&
        (s.step weightsDigest modelsApp (.run 1 .go)).any fun t =>
          t.handlers[1]?.any Handler.answered) = true := by
    decide +kernel
  obtain ⟨s, hs, hstate⟩ := (Option.any_eq_true _ _).mp hrun
  obtain ⟨hstate, hnext⟩ := Bool.and_eq_true_iff.mp hstate
  obtain ⟨hactive, hok⟩ := Bool.and_eq_true_iff.mp hstate
  obtain ⟨h, hk, hrequest⟩ := (Option.any_eq_true _ _).mp hactive
  obtain ⟨hrequest, hsha⟩ := Bool.and_eq_true_iff.mp hrequest
  obtain ⟨hopen, hcids⟩ := Bool.and_eq_true_iff.mp hrequest
  obtain ⟨t, ht, hdone⟩ := (Option.any_eq_true _ _).mp hnext
  obtain ⟨h', hk', hanswered⟩ := (Option.any_eq_true _ _).mp hdone
  obtain ⟨response, hresponse⟩ : ∃ response, h'.pc = .responded response := by
    unfold Handler.answered at hanswered
    split at hanswered
    · next response hpc => exact ⟨response, hpc⟩
    · cases hanswered
  have hstored : ∀ part ∈ parts [1, 2], weightsNetwork (weightsCid part) = some part := by
    decide
  have hentries : (splitDir [1, 2]).Perm (splitDir [1, 2]) := List.Perm.refl _
  have hreach : (system weightsDigest modelsApp).Reach (Stores weightsNetwork) s :=
    .execGuarded (.init init_empty) hs
  have hactive : s.Active 1 h := ⟨hk, by simpa using hopen⟩
  refine ⟨s, t, h, h', response, hreach, hactive, ht, hk', hresponse, ?_⟩
  refine (restores_of_step hstored hentries hreach hactive ?_ ?_ (of_decide_eq_true hok) ht hk').1
    response hresponse
  · rw [eq_of_beq hcids]
    decide +kernel
  · rw [eq_of_beq hsha]
    decide +kernel

end Bridge

end OpenModel.FocBridge
