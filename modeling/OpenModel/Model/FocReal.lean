import OpenModel.FocBridge.DownloadModel
import OpenModel.Lib.Transition
import OpenModel.Model.Manager
import Mathlib

/-!
# Weights from FOC

`RealFOCClient.download_weights` has the bridge download the pieces of a model into a temporary
file on the shared volume, extracts that file into a staging directory, and moves the directory
to its destination. A model can be pinned: its registry entry then has the SHA-256 of the file,
which the client hands to the bridge.

Client and bridge are two processes. The client can give up at any time while the bridge goes
on, removals can leave things behind, and an extraction can stop half-way.

## Main results

- `RealFOCClient.checksum_of_pinned`: the manifest of a pinned model has its digest
- `WeightsDownload.pinned_of_reach`: what a download installs was extracted from a file with the
  pinned digest, and a download that installs nothing leaves nothing new at the destination
-/

namespace OpenModel.Model

open FocBridge

theorem lower_lower (s : String) : lower (lower s) = lower s := by
  simp [lower, Function.comp_def]

theorem lower_eq_empty {s : String} : lower s = "" ↔ s = "" := by
  simp [lower, String.ofList_eq_empty_iff]

-- ════════════════════════════════════════════════════════════════════════
-- The registry
-- ════════════════════════════════════════════════════════════════════════

/-- One piece CID or a list of them. -/
inductive PieceCids
  | one (cid : String)
  | list (cids : List String)
  deriving DecidableEq, Repr

def PieceCids.toList : PieceCids → List String
  | one cid => [cid]
  | list cids => cids

/-- A value of `piece_cid_registry`. -/
inductive RegistryEntry
  | bare (cids : PieceCids)
  | dict (cids : Option PieceCids) (sha256 : Option String)
  deriving DecidableEq, Repr

namespace RegistryEntry

def cids : RegistryEntry → List String
  | bare cids => cids.toList
  | dict cids _ => (cids.map PieceCids.toList).getD []

/-- The pinned digest; an empty string pins nothing. -/
def sha256 : RegistryEntry → Option String
  | bare _ => none
  | dict _ sha256 => (sha256.filter (· ≠ "")).map lower

end RegistryEntry

structure RealFOCClient where
  registry : String → Option (List String)
  sha256 : String → Option String

namespace RealFOCClient

/-- The normalised registry. -/
def new (pieceCidRegistry : String → Option RegistryEntry) : RealFOCClient where
  registry modelId := (pieceCidRegistry modelId).map RegistryEntry.cids
  sha256 modelId := (pieceCidRegistry modelId).bind RegistryEntry.sha256

def resolveModel (client : RealFOCClient) (modelId : String) : Option ModelManifest :=
  let cids := (client.registry modelId).getD []
  if cids = [] then none
  else some ⟨modelId, (client.sha256 modelId).getD "", ",".intercalate cids⟩

/-- **Pins**: the manifest of a pinned model has its digest. -/
theorem checksum_of_pinned {pieceCidRegistry : String → Option RegistryEntry} {modelId sha256 : String}
    {cids : Option PieceCids} {manifest : ModelManifest}
    (hentry : pieceCidRegistry modelId = some (.dict cids (some sha256))) (hsha : sha256 ≠ "")
    (h : (new pieceCidRegistry).resolveModel modelId = some manifest) :
    manifest.checksumSha256 = lower sha256 := by
  obtain ⟨-, h⟩ := Option.ite_none_left_eq_some.mp h
  cases h
  have hpin : (RegistryEntry.dict cids (some sha256)).sha256 = some (lower sha256) := by
    simp [RegistryEntry.sha256, Option.filter, hsha]
  simp [new, hentry, hpin]

end RealFOCClient

-- ════════════════════════════════════════════════════════════════════════
-- One download
-- ════════════════════════════════════════════════════════════════════════

/-- `s.replace('/', '-')` -/
def dashSlashes (s : String) : String :=
  String.ofList (s.toList.map fun c => if c = '/' then '-' else c)

/-- `s.split(",")` -/
def splitCommas (s : String) : List String := (s.toList.splitOn ',').map String.ofList

/-- `p.parent` -/
def parentPath (p : PurePath) : PurePath where
  absolute := p.absolute
  parts := p.parts.dropLast
  parts_ne c hc := p.parts_ne c (List.mem_of_mem_dropLast hc)

/-- One call of `download_weights`: the bridge and what it is busy with, SHA-256, what the
members of a tarball unpack to, the client's working directory, and the arguments. -/
structure DownloadJob where
  app : App
  inFlight : List Location
  digest : Bytes → String
  members : Bytes → List (Location × Bytes)
  cwd : Location
  manifest : ModelManifest
  dest : PurePath

namespace DownloadJob

def tmpPath (job : DownloadJob) : PurePath :=
  ((parentPath job.dest).join (PurePath.parse ".tmp")).join
    (PurePath.parse ("foc-model-" ++ dashSlashes job.manifest.modelId ++ ".tar.gz"))

def extractTmp (job : DownloadJob) : PurePath :=
  (parentPath job.dest).join (PurePath.parse (job.dest.parts.getLastD "" ++ ".extracting"))

/-- The temporary file, as the client finds it. -/
def tmp (job : DownloadJob) : Location := pathResolve job.cwd job.tmpPath

def staging (job : DownloadJob) : Location := pathResolve job.cwd job.extractTmp

def destination (job : DownloadJob) : Location := pathResolve job.cwd job.dest

/-- The payload; the client authenticates with nothing. -/
def request (job : DownloadJob) : DownloadRequest where
  pieceCids := splitCommas job.manifest.sourceUri
  destPath := job.tmpPath.toStr
  sha256 := if job.manifest.checksumSha256 = "" then none else some job.manifest.checksumSha256

/-- What the bridge makes of the request. -/
def accepted (job : DownloadJob) : Except Nat Location := job.app.accept job.inFlight job.request

/-- Nobody but the bridge writes the temporary file. -/
def SoleWriter (job : DownloadJob) (before : Files) : Prop :=
  (∀ outPath, job.accepted = .ok outPath → outPath = job.tmp) ∨ before job.tmp = none

/-- The temporary file and the staging directory. -/
def Temporary (job : DownloadJob) (l : Location) : Prop :=
  l = job.tmp ∨ job.accepted = .ok l ∨ job.staging <+: l

/-- What is at the destination was there before. -/
def NoNewContent (job : DownloadJob) (before files : Files) : Prop :=
  ∀ l, job.destination <+: l → ¬ job.Temporary l →
    ∀ content, files l = some content → before l = some content

end DownloadJob

/-- `shutil.rmtree(d, ignore_errors=True)`, with what it could not remove. -/
def rmtree (files : Files) (d : Location) (kept : Location → Bool) : Files :=
  fun l => if d <+: l ∧ kept l = false then none else files l

/-- Extract members below `d`. -/
def extractAll (files : Files) (d : Location) (members : List (Location × Bytes)) : Files :=
  members.foldl (fun files m => files.write (d ++ m.1) m.2) files

/-- `src.rename(dst)` of a directory. -/
def renameDir (files : Files) (src dst : Location) : Files :=
  fun l =>
    if dst <+: l then files (src ++ l.drop dst.length)
    else if src <+: l then none
    else files l

/-- Where `download_weights` is. -/
inductive ClientPc
  /-- creating the directories, before the `try` -/
  | mkdirs
  /-- waiting for the response -/
  | awaiting
  /-- emptying the staging directory -/
  | prepare
  | extract
  /-- removing the old destination -/
  | swap
  | rename
  /-- `_cleanup_partial` -/
  | cleanup
  /-- the `finally` -/
  | unlinkTmp (returns : Bool)
  | returned
  | raised
  deriving DecidableEq, Repr

inductive ClientEvent
  | go
  /-- the operation raises an `Exception` -/
  | fails
  | cancelled
  /-- a tree is removed, but for what is kept -/
  | removes (kept : Location → Bool)
  /-- the extraction raises after so many members -/
  | extractsSome (count : Nat)

/-- What the client sees of the bridge. -/
inductive BridgeState
  | idle
  | refused (status : Nat)
  | handling (d : Download)
  deriving DecidableEq, Repr

/-- The status of the response, and the `success` of its body. -/
def BridgeState.response : BridgeState → Option (Nat × Bool)
  | idle => none
  | refused status => some (status, false)
  | handling d =>
    match d.pc with
    | .responded status => some (status, status == 200)
    | _ => none

/-- A download in progress, with the bytes that the client has opened as a tarball. -/
structure WeightsDownload where
  files : Files
  client : ClientPc := .mkdirs
  bridge : BridgeState := .idle
  extracted : Option Bytes := none

inductive DownloadEvent
  | client (ev : ClientEvent)
  /-- the bridge gets the request -/
  | receive
  /-- it refuses the body before the handler runs -/
  | refuse (status : Nat)
  | bridge (ev : HandlerEvent)

namespace WeightsDownload

variable {s t : WeightsDownload} {job : DownloadJob} {before : Files}

def clientStep (job : DownloadJob) (s : WeightsDownload) : ClientEvent → Option WeightsDownload
  | .go =>
    match s.client with
    | .mkdirs => some { s with client := .awaiting }
    | .awaiting =>
      s.bridge.response.map fun (status, success) =>
        { s with
          client := if 200 ≤ status ∧ status ≤ 299 ∧ success then .prepare else .cleanup }
    | .extract =>
      (s.files job.tmp).map fun tarball =>
        { s with
          client := .swap
          extracted := some tarball
          files := extractAll s.files job.staging (job.members tarball) }
    | .rename =>
      some { s with
        client := .unlinkTmp true, files := renameDir s.files job.staging job.destination }
    | .unlinkTmp returns =>
      some { s with
        client := if returns then .returned else .raised, files := s.files.unlink job.tmp }
    | _ => none
  | .fails =>
    match s.client with
    | .mkdirs => some { s with client := .raised }
    | .awaiting | .extract | .rename => some { s with client := .cleanup }
    | .unlinkTmp returns => some { s with client := if returns then .returned else .raised }
    | _ => none
  | .cancelled =>
    match s.client with
    | .awaiting => some { s with client := .unlinkTmp false }
    | _ => none
  | .removes kept =>
    match s.client with
    | .prepare => some { s with client := .extract, files := rmtree s.files job.staging kept }
    | .swap => some { s with client := .rename, files := rmtree s.files job.destination kept }
    | .cleanup =>
      some { s with
        client := .unlinkTmp false
        files := rmtree (rmtree s.files job.staging kept) job.destination kept }
    | _ => none
  | .extractsSome count =>
    match s.client with
    | .extract =>
      (s.files job.tmp).map fun tarball =>
        { s with
          client := .cleanup
          extracted := some tarball
          files := extractAll s.files job.staging ((job.members tarball).take count) }
    | _ => none

/-- The bridge gets the request, perhaps when the client has given up. -/
def receive (job : DownloadJob) : BridgeState :=
  match job.accepted with
  | .error status => .refused status
  | .ok outPath =>
    .handling { pieceCids := job.request.pieceCids, outPath, sha256 := job.request.sha256 }

def step (job : DownloadJob) (s : WeightsDownload) : DownloadEvent → Option WeightsDownload
  | .client ev => s.clientStep job ev
  | .receive =>
    if s.bridge = .idle ∧ s.client ≠ .mkdirs then some { s with bridge := receive job } else none
  | .refuse status =>
    if s.bridge = .idle ∧ s.client ≠ .mkdirs ∧ 400 ≤ status then
      some { s with bridge := .refused status }
    else none
  | .bridge ev =>
    match s.bridge with
    | .handling d =>
      (d.step job.digest job.app s.files ev).map fun (d, files) =>
        { s with bridge := .handling d, files }
    | _ => none

/-- The downloads of this job, from these files on the volume. -/
def system (job : DownloadJob) (before : Files) :
    Transition.System WeightsDownload DownloadEvent :=
  ⟨(· = { files := before }), step job⟩

end WeightsDownload

-- ════════════════════════════════════════════════════════════════════════
-- What the operations leave alone
-- ════════════════════════════════════════════════════════════════════════

section Files

variable {files : Files} {d l : Location} {content : Bytes}

theorem rmtree_eq_some {kept : Location → Bool} (h : rmtree files d kept l = some content) :
    files l = some content := by
  unfold rmtree at h
  split_ifs at h
  exact h

theorem rmtree_eq_none {kept : Location → Bool} (h : files l = none) :
    rmtree files d kept l = none := by
  unfold rmtree
  split_ifs
  · rfl
  · exact h

/-- **Frame**: an extraction stays below its directory. -/
theorem extractAll_of_not_prefix {members : List (Location × Bytes)} (h : ¬ d <+: l) :
    extractAll files d members l = files l := by
  induction members generalizing files with
  | nil => rfl
  | cons m ms ih =>
    show extractAll (files.write (d ++ m.1) m.2) d ms l = files l
    rw [ih]
    refine Files.write_of_ne ?_
    rintro rfl
    exact h (List.prefix_append d m.1)

end Files

theorem DownloadJob.NoNewContent.mono {job : DownloadJob} {before files files' : Files}
    (h : job.NoNewContent before files)
    (hfiles : ∀ l, ¬ job.Temporary l → ∀ content, files' l = some content → files l = some content) :
    job.NoNewContent before files' :=
  fun l hl htmp content hc => h l hl htmp content (hfiles l htmp content hc)

namespace ClientPc

/-- The tarball has not been opened. -/
def beforeRead : ClientPc → Bool
  | mkdirs | awaiting | prepare | extract => true
  | _ => false

/-- The bridge has reported a success. -/
def accepted : ClientPc → Bool
  | prepare | extract => true
  | _ => false

theorem beforeRead_of_accepted {pc : ClientPc} (h : pc.accepted) : pc.beforeRead := by
  cases pc <;> first | rfl | cases h

/-- The tarball was extracted to its end. -/
def hasRead : ClientPc → Bool
  | swap | rename | unlinkTmp true | returned => true
  | _ => false

/-- The weights are in place. -/
def installed : ClientPc → Bool
  | unlinkTmp true | returned => true
  | _ => false

theorem hasRead_of_installed {pc : ClientPc} (h : pc.installed) : pc.hasRead := by
  cases pc with
  | unlinkTmp returns =>
    cases returns with
    | true => rfl
    | false => cases h
  | returned => rfl
  | _ => cases h

end ClientPc

namespace WeightsDownload

variable {s t : WeightsDownload} {job : DownloadJob} {before : Files}

/-- Until the client opens the tarball, what is at its path is what the bridge has hashed. -/
structure Untouched (job : DownloadJob) (before : Files) (bridge : BridgeState) (files : Files) :
    Prop where
  idle : bridge = .idle → files = before
  streams : ∀ d, bridge = .handling d → d.Streams job.digest files
  sole : ∀ d, bridge = .handling d → d.outPath ≠ job.tmp → files job.tmp = none

structure Sound (job : DownloadJob) (before : Files) (s : WeightsDownload) : Prop where
  handled : ∀ d, s.bridge = .handling d →
    job.accepted = .ok d.outPath ∧ d.sha256 = job.request.sha256
  untouched : s.client.beforeRead → Untouched job before s.bridge s.files
  done : s.client.accepted → ∃ d, s.bridge = .handling d ∧ d.pc = .responded 200
  read : s.client.hasRead → ∃ tarball, s.extracted = some tarball ∧
    ∀ pin ∈ job.request.sha256, job.digest tarball = lower pin
  nothingNew : s.client.installed = false → job.NoNewContent before s.files

/-- The tarball that the client opens has the digest that it asked for. -/
theorem Sound.digest_eq (h : s.Sound job before) (hclient : s.client = .extract) {tarball : Bytes}
    (htmp : s.files job.tmp = some tarball) :
    ∀ pin ∈ job.request.sha256, job.digest tarball = lower pin := by
  have huntouched := h.untouched (by rw [hclient]; rfl)
  obtain ⟨d, hd, hpc⟩ := h.done (by rw [hclient]; rfl)
  have hstreams := huntouched.streams d hd
  have hpath : d.outPath = job.tmp := by
    by_contra hne
    rw [huntouched.sole d hd hne] at htmp
    cases htmp
  have hwritten : tarball = d.written :=
    hstreams.file (by rw [hpc]; rfl) tarball (by rw [hpath]; exact htmp)
  have hqueued : d.queued = [] := hstreams.queued (by rw [hpc]; rfl)
  have hhashed : d.hashed = tarball := by
    rw [hstreams.hashed, hqueued, List.append_nil, hwritten]
  intro pin hpin
  rw [← hhashed]
  exact hstreams.verified hpc pin (by rw [(h.handled d hd).2]; exact hpin)

/-- The client goes on to `pc`, and at most removes files. -/
theorem Sound.goesOn {pc : ClientPc} {files : Files} (h : s.Sound job before)
    (hbefore : pc.beforeRead → s.client.beforeRead ∧ files = s.files)
    (hdone : pc.accepted → ∃ d, s.bridge = .handling d ∧ d.pc = .responded 200)
    (hread : pc.hasRead → s.client.hasRead)
    (hinstalled : pc.installed = false → s.client.installed = false)
    (hfiles : ∀ l content, files l = some content → s.files l = some content) :
    Sound job before { s with client := pc, files } := by
  refine ⟨h.handled, fun hp => ?_, hdone, fun hp => h.read (hread hp), fun hp => ?_⟩
  · obtain ⟨hclient, rfl⟩ := hbefore hp
    exact h.untouched hclient
  · exact (h.nothingNew (hinstalled hp)).mono fun l _ content hc => hfiles l content hc

/-- It gives up. -/
theorem Sound.givesUp {pc : ClientPc} {files : Files} (h : s.Sound job before)
    (hpc : pc.beforeRead = false ∧ pc.hasRead = false) (hclient : s.client.installed = false)
    (hfiles : ∀ l content, files l = some content → s.files l = some content) :
    Sound job before { s with client := pc, files } := by
  refine h.goesOn (fun hp => ?_) (fun hp => ?_) (fun hp => ?_) (fun _ => hclient) hfiles
  · simp [hpc.1] at hp
  · cases pc <;> simp_all [ClientPc.accepted, ClientPc.beforeRead]
  · simp [hpc.2] at hp

/-- It looks at the response. -/
theorem Sound.respond {status : Nat} {success : Bool} (h : s.Sound job before)
    (hclient : s.client = .awaiting) (hresponse : s.bridge.response = some (status, success)) :
    Sound job before
      { s with
        client := if 200 ≤ status ∧ status ≤ 299 ∧ success then .prepare else .cleanup } := by
  split_ifs with hok
  · refine h.goesOn (fun _ => ⟨by rw [hclient]; rfl, rfl⟩) (fun _ => ?_) nofun
      (fun _ => by rw [hclient]; rfl) fun _ _ hc => hc
    obtain ⟨-, -, rfl⟩ := hok
    unfold BridgeState.response at hresponse
    split at hresponse
    · cases hresponse
    · cases hresponse
    · next d hd =>
      split at hresponse
      · next status' hpc =>
        obtain ⟨rfl, hsuccess⟩ := Prod.mk.inj (Option.some.inj hresponse)
        exact ⟨d, hd, by rw [hpc, beq_iff_eq.mp hsuccess]⟩
      · cases hresponse
  · exact h.givesUp ⟨rfl, rfl⟩ (by rw [hclient]; rfl) fun _ _ hc => hc

/-- It opens the tarball and extracts some members. -/
theorem Sound.extracts {tarball : Bytes} {members : List (Location × Bytes)} {pc : ClientPc}
    (h : s.Sound job before) (hclient : s.client = .extract)
    (hpc : pc.beforeRead = false ∧ pc.accepted = false)
    (htmp : s.files job.tmp = some tarball) :
    Sound job before
      { s with
        client := pc
        extracted := some tarball
        files := extractAll s.files job.staging members } := by
  refine ⟨h.handled, fun hp => ?_, fun hp => ?_, fun _ => ⟨tarball, rfl, h.digest_eq hclient htmp⟩,
    fun _ => ?_⟩
  · simp [hpc.1] at hp
  · simp [hpc.2] at hp
  · refine (h.nothingNew (by rw [hclient]; rfl)).mono fun l hl content hc => ?_
    have hsame : extractAll s.files job.staging members l = s.files l :=
      extractAll_of_not_prefix fun hpre => hl (.inr (.inr hpre))
    exact hsame.symm.trans hc

/-- It empties the staging directory. -/
theorem Sound.empties {kept : Location → Bool} (h : s.Sound job before)
    (hclient : s.client = .prepare) :
    Sound job before { s with client := .extract, files := rmtree s.files job.staging kept } := by
  have huntouched := h.untouched (by rw [hclient]; rfl)
  have hdone := h.done (by rw [hclient]; rfl)
  refine ⟨h.handled, fun _ => ⟨fun hidle => ?_, fun d hd => ?_, fun d hd hne => ?_⟩, fun _ => hdone,
    nofun, fun _ => ?_⟩
  · obtain ⟨d, hd, -⟩ := hdone
    cases hd.symm.trans hidle
  · exact (huntouched.streams d hd).mono fun content hc => rmtree_eq_some hc
  · exact rmtree_eq_none (huntouched.sole d hd hne)
  · exact (h.nothingNew (by rw [hclient]; rfl)).mono fun l _ content hc => rmtree_eq_some hc

/-- The `finally`. -/
theorem Sound.unlinks {returns : Bool} {files : Files} (h : s.Sound job before)
    (hclient : s.client = .unlinkTmp returns)
    (hfiles : ∀ l content, files l = some content → s.files l = some content) :
    Sound job before { s with client := if returns then .returned else .raised, files } := by
  cases returns with
  | true =>
    exact h.goesOn nofun nofun (fun _ => by rw [hclient]; rfl) nofun hfiles
  | false => exact h.givesUp ⟨rfl, rfl⟩ (by rw [hclient]; rfl) hfiles

theorem Sound.go (h : s.Sound job before) (hstep : s.clientStep job .go = some t) :
    t.Sound job before := by
  simp only [clientStep] at hstep
  split at hstep
  · next hclient =>
    cases hstep
    exact h.goesOn (fun _ => ⟨by rw [hclient]; rfl, rfl⟩) nofun nofun
      (fun _ => by rw [hclient]; rfl) fun _ _ hc => hc
  · next hclient =>
    obtain ⟨⟨status, success⟩, hresponse, rfl⟩ := Option.map_eq_some_iff.mp hstep
    exact h.respond hclient hresponse
  · next hclient =>
    obtain ⟨tarball, htmp, rfl⟩ := Option.map_eq_some_iff.mp hstep
    exact h.extracts hclient ⟨rfl, rfl⟩ htmp
  · next hclient =>
    cases hstep
    exact ⟨h.handled, nofun, nofun, fun _ => h.read (by rw [hclient]; rfl), nofun⟩
  · next returns hclient =>
    cases hstep
    exact h.unlinks hclient fun _ _ hc => Files.unlink_eq_some hc
  · cases hstep

theorem Sound.fails (h : s.Sound job before) (hstep : s.clientStep job .fails = some t) :
    t.Sound job before := by
  simp only [clientStep] at hstep
  split at hstep
  · next hclient =>
    cases hstep
    exact h.givesUp ⟨rfl, rfl⟩ (by rw [hclient]; rfl) fun _ _ hc => hc
  · next hclient =>
    cases hstep
    exact h.givesUp ⟨rfl, rfl⟩ (by rw [hclient]; rfl) fun _ _ hc => hc
  · next hclient =>
    cases hstep
    exact h.givesUp ⟨rfl, rfl⟩ (by rw [hclient]; rfl) fun _ _ hc => hc
  · next hclient =>
    cases hstep
    exact h.givesUp ⟨rfl, rfl⟩ (by rw [hclient]; rfl) fun _ _ hc => hc
  · next returns hclient =>
    cases hstep
    exact h.unlinks hclient fun _ _ hc => hc
  · cases hstep

/-- **Client**: its steps keep the invariant. -/
theorem Sound.client {ev : ClientEvent} (h : s.Sound job before)
    (hstep : s.clientStep job ev = some t) : t.Sound job before := by
  cases ev with
  | go => exact h.go hstep
  | fails => exact h.fails hstep
  | cancelled =>
    simp only [clientStep] at hstep
    split at hstep
    · next hclient =>
      cases hstep
      exact h.givesUp ⟨rfl, rfl⟩ (by rw [hclient]; rfl) fun _ _ hc => hc
    · cases hstep
  | removes kept =>
    simp only [clientStep] at hstep
    split at hstep
    · next hclient =>
      cases hstep
      exact h.empties hclient
    · next hclient =>
      cases hstep
      exact h.goesOn nofun nofun (fun _ => by rw [hclient]; rfl) (fun _ => by rw [hclient]; rfl)
        fun _ _ hc => rmtree_eq_some hc
    · next hclient =>
      cases hstep
      exact h.givesUp ⟨rfl, rfl⟩ (by rw [hclient]; rfl)
        fun _ _ hc => rmtree_eq_some (rmtree_eq_some hc)
    · cases hstep
  | extractsSome count =>
    simp only [clientStep] at hstep
    split at hstep
    · next hclient =>
      obtain ⟨tarball, htmp, rfl⟩ := Option.map_eq_some_iff.mp hstep
      exact h.extracts hclient ⟨rfl, rfl⟩ htmp
    · cases hstep

/-- The bridge gets the request. -/
theorem Sound.receives (hsole : job.SoleWriter before) (h : s.Sound job before)
    (hidle : s.bridge = .idle) : Sound job before { s with bridge := receive job } := by
  have hnew {d : Download} (hd : receive job = .handling d) : job.accepted = .ok d.outPath ∧
      d = { pieceCids := job.request.pieceCids, outPath := d.outPath,
            sha256 := job.request.sha256 } := by
    unfold receive at hd
    split at hd
    · cases hd
    · next outPath hok =>
      cases hd
      exact ⟨hok, rfl⟩
  refine ⟨fun d hd => ?_, fun hp => ⟨fun hi => ?_, fun d hd => ?_, fun d hd hne => ?_⟩, fun hp => ?_,
    h.read, h.nothingNew⟩
  · obtain ⟨hok, heq⟩ := hnew hd
    exact ⟨hok, by rw [heq]⟩
  · change receive job = .idle at hi
    unfold receive at hi
    split at hi <;> cases hi
  · rw [(hnew hd).2]
    exact ⟨rfl, nofun, fun _ => rfl, nofun, nofun, nofun⟩
  · rcases hsole with hsole | hnone
    · exact absurd (hsole d.outPath (hnew hd).1) hne
    · rw [← (h.untouched hp).idle hidle] at hnone
      exact hnone
  · obtain ⟨d, hd, -⟩ := h.done hp
    cases hidle.symm.trans hd

/-- The bridge refuses the body. -/
theorem Sound.refuses {status : Nat} (h : s.Sound job before) (hidle : s.bridge = .idle) :
    Sound job before { s with bridge := .refused status } := by
  refine ⟨nofun, fun hp => ⟨nofun, nofun, nofun⟩, fun hp => ?_, h.read, h.nothingNew⟩
  obtain ⟨d, hd, -⟩ := h.done hp
  cases hidle.symm.trans hd

/-- **Bridge**: the steps of its handler keep the invariant. -/
theorem Sound.bridge {d d' : Download} {files : Files} {ev : HandlerEvent} (h : s.Sound job before)
    (hd : s.bridge = .handling d)
    (hstep : d.step job.digest job.app s.files ev = some (d', files)) :
    Sound job before { s with bridge := .handling d', files } := by
  obtain ⟨hpath, hsha⟩ := Download.request_of_step hstep
  obtain ⟨haccepted, hrequest⟩ := h.handled d hd
  refine ⟨?_, fun hp => ⟨nofun, ?_, ?_⟩, fun hp => ?_, h.read, fun hp => ?_⟩
  · rintro _ ⟨⟩
    rw [hpath, hsha]
    exact ⟨haccepted, hrequest⟩
  · rintro _ ⟨⟩
    exact ((h.untouched hp).streams d hd).step hstep
  · rintro _ ⟨⟩ hne
    rw [hpath] at hne
    exact (Download.files_of_step (Ne.symm hne) hstep).trans ((h.untouched hp).sole d hd hne)
  · obtain ⟨d₀, hd₀, hpc⟩ := h.done hp
    obtain rfl : d = d₀ := BridgeState.handling.inj (hd.symm.trans hd₀)
    have hbefore : s.client.beforeRead := ClientPc.beforeRead_of_accepted hp
    have hqueued := ((h.untouched hbefore).streams d hd).queued (by rw [hpc]; rfl)
    rw [Download.step_responded hpc hqueued] at hstep
    cases hstep
  · refine (h.nothingNew hp).mono fun l hl content hc => ?_
    have hne : l ≠ d.outPath := by
      rintro rfl
      exact hl (.inr (.inl haccepted))
    exact (Download.files_of_step hne hstep).symm.trans hc

theorem Sound.step {ev : DownloadEvent} (hsole : job.SoleWriter before) (h : s.Sound job before)
    (hstep : s.step job ev = some t) : t.Sound job before := by
  cases ev with
  | client ev => exact h.client hstep
  | receive =>
    obtain ⟨⟨hidle, -⟩, hs⟩ := Option.ite_none_right_eq_some.mp hstep
    cases hs
    exact h.receives hsole hidle
  | refuse status =>
    obtain ⟨⟨hidle, -⟩, hs⟩ := Option.ite_none_right_eq_some.mp hstep
    cases hs
    exact h.refuses hidle
  | bridge ev =>
    simp only [WeightsDownload.step] at hstep
    split at hstep
    · next d hd =>
      obtain ⟨⟨d', files⟩, hd', rfl⟩ := Option.map_eq_some_iff.mp hstep
      exact h.bridge hd hd'
    · cases hstep

theorem sound_of_reach (hsole : job.SoleWriter before)
    (h : (system job before).Reach Transition.System.anyStep s) : s.Sound job before := by
  refine h.invariant ?_ fun s ev t hs _ hstep => hs.step hsole hstep
  rintro s rfl
  exact ⟨nofun, fun _ => ⟨fun _ => rfl, nofun, nofun⟩, nofun, nofun, fun _ _ _ _ _ hc => hc⟩

/-- **Pinned weights**: what a download of a pinned model installs was extracted from a tarball
with the pinned digest. Without it, nothing new is at the destination. -/
theorem pinned_of_reach {pieceCidRegistry : String → Option RegistryEntry}
    {modelId sha256 : String} {cids : Option PieceCids}
    (hentry : pieceCidRegistry modelId = some (.dict cids (some sha256))) (hsha : sha256 ≠ "")
    (hmanifest : (RealFOCClient.new pieceCidRegistry).resolveModel modelId = some job.manifest)
    (hsole : job.SoleWriter before)
    (h : (system job before).Reach Transition.System.anyStep s) :
    if s.client.installed then
      ∃ tarball, s.extracted = some tarball ∧ job.digest tarball = lower sha256
    else job.NoNewContent before s.files := by
  have hsound := sound_of_reach hsole h
  split_ifs with hinstalled
  · obtain ⟨tarball, hextracted, hdigest⟩ := hsound.read (ClientPc.hasRead_of_installed hinstalled)
    have hchecksum := RealFOCClient.checksum_of_pinned hentry hsha hmanifest
    have hpin : job.request.sha256 = some (lower sha256) := by
      simp only [DownloadJob.request, hchecksum]
      rw [if_neg (mt lower_eq_empty.mp hsha)]
    refine ⟨tarball, hextracted, ?_⟩
    rw [hdigest _ hpin, lower_lower]
  · exact hsound.nothingNew (by simpa using hinstalled)

/-- A tarball with one member, `config.json`. -/
def tarball : Bytes :=
  [31, 139, 8, 0, 0, 0, 0, 0, 2, 3, 237, 205, 65, 10, 130, 96, 20, 4, 224, 119, 148, 78, 32, 191,
   98, 122, 30, 9, 10, 91, 40, 168, 173, 162, 187, 247, 104, 37, 237, 11, 162, 239, 219, 204, 48,
   155, 57, 205, 211, 121, 188, 84, 215, 117, 158, 226, 83, 74, 234, 218, 246, 149, 233, 61, 83,
   179, 235, 185, 215, 165, 244, 199, 56, 148, 248, 130, 219, 186, 13, 75, 222, 199, 127, 186, 63,
   2, 0, 0, 0, 0, 0, 0, 0, 0, 128, 31, 244, 4, 119, 145, 163, 140, 0, 40, 0, 0]

def tarballDigest : String := "CAD6135CEF9B697E003CBA7760818E08AF85AEC642CF550D3B6273B0AD0D5EBE"

def pinnedJob : DownloadJob where
  app := { modelsDir := ["models"] }
  inFlight := []
  digest content := if content = tarball then lower tarballDigest else ""
  members _ := [(["config.json"], [123, 125])]
  cwd := []
  manifest := ⟨"org/m", lower tarballDigest, "cid1,cid2"⟩
  dest := PurePath.parse "/models/org--m"

/-- The primary provider lacks the first piece; the tarball comes in two pieces, written late. -/
def installRun : List DownloadEvent :=
  [.client .go, .receive, .bridge .go, .bridge (.answers false), .bridge (.answers true),
    .bridge (.chunk (tarball.take 60)), .bridge (.flush 40), .bridge .bodyEnds,
    .bridge (.answers true), .bridge (.chunk (tarball.drop 60)), .bridge .bodyEnds,
    .bridge (.flush 100), .bridge .go, .bridge .go, .client .go,
    .client (.removes fun _ => false), .client .go, .client (.removes fun _ => false), .client .go,
    .client .go]

theorem pinned_installRun :
    ∃ s, (system pinnedJob fun _ => none).Reach Transition.System.anyStep s ∧
      s.client = .returned ∧ ∃ content, s.extracted = some content ∧
        pinnedJob.digest content = lower tarballDigest := by
  have hfinal : ((system pinnedJob fun _ => none).exec { files := fun _ => none } installRun).any
      (fun s => s.client = .returned) = true := by
    decide +kernel
  obtain ⟨s, hrun, hs⟩ := (Option.any_eq_true _ _).mp hfinal
  have hreturned : s.client = .returned := of_decide_eq_true hs
  have hreach : (system pinnedJob fun _ => none).Reach Transition.System.anyStep s :=
    Transition.System.reach_of_exec rfl hrun
  have hmanifest : (RealFOCClient.new fun _ => some (.dict (some (.list ["cid1", "cid2"]))
      (some tarballDigest))).resolveModel "org/m" = some pinnedJob.manifest := by
    decide +kernel
  have hpinned := pinned_of_reach rfl (by decide) hmanifest (.inr rfl) hreach
  rw [hreturned] at hpinned
  exact ⟨s, hreach, hreturned, hpinned⟩

end WeightsDownload

end OpenModel.Model
