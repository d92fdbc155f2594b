import OpenModel.Inference.Receipt
import OpenModel.Lib.Transition

/-!
# The receipt key

`get_signer` loads the key of the worker from its file, or generates one and stores it. A key
path that cannot be used is no reason to fail: on an `OSError` the signer gets an ephemeral key.
Opening the file for writing empties it, and the key is written when the file is closed; the
process can die in between. Bytes that are not a whole key raise a `ValueError`, which nobody
catches.

Any number of processes run one after the other, each with any number of calls. What the
operating system refuses is a choice of the run. Kept beside what the program keeps: the key
that is stored, whether an operation of this process has failed, and whether a call has raised.

## Main results

- `KeyRun.Inv.step`: what a step keeps as long as no key is left half written
- `KeyRun.survives_of_reach`: then every call returns, and a stored key stays
- `KeyRun.broken_of_reach`: what is half written breaks every later call
-/

namespace OpenModel.Inference

/-- Raw private keys as they are documented: 32 bytes, each of which is a key. -/
structure RawEd25519 extends Ed25519 where
  fromPrivateBytes : List UInt8 → Option PrivateKey
  privateBytes : PrivateKey → List UInt8
  fromPrivateBytes_isSome : ∀ b, (fromPrivateBytes b).isSome ↔ b.length = 32
  fromPrivateBytes_eq_some : ∀ b key, fromPrivateBytes b = some key ↔ privateBytes key = b

theorem RawEd25519.length_privateBytes (ed : RawEd25519) (key : ed.PrivateKey) :
    (ed.privateBytes key).length = 32 := by
  refine (ed.fromPrivateBytes_isSome _).mp ?_
  rw [(ed.fromPrivateBytes_eq_some _ key).mpr rfl]
  rfl

/-- The signer, and whether its key is that of the file. -/
structure HeldSigner (ed : RawEd25519) extends ReceiptSigner ed.toEd25519 where
  persistent : Bool

/-- Where the call of `get_signer` is that runs. -/
inductive SignerPc (ed : RawEd25519)
  | idle
  /-- asking whether the file exists -/
  | lookup
  | read
  | generate
  | makedirs (key : ed.PrivateKey)
  | opening (key : ed.PrivateKey)
  /-- so many bytes of the key are in the file -/
  | writing (key : ed.PrivateKey) (count : Nat)

/-- The file at the key path, the process and its call. -/
structure KeyRun (ed : RawEd25519) where
  file : Option (List UInt8) := none
  signer : Option (HeldSigner ed) := none
  pc : SignerPc ed := .idle
  stored : Option (List UInt8) := none
  failed : Bool := false
  raised : Bool := false

inductive KeyLabel (ed : RawEd25519)
  /-- a process that starts finds these bytes at the path -/
  | found (bytes : List UInt8)
  /-- `get_signer` is called, or its operation succeeds -/
  | go
  | generated (key : ed.PrivateKey)
  /-- the file takes so many bytes -/
  | write (count : Nat)
  /-- the operation fails; the key is the one that is generated then -/
  | osError (key : ed.PrivateKey)
  | crash

namespace KeyRun

variable {ed : RawEd25519}

/-- `_signer` is set and the call returns it. -/
def answer (s : KeyRun ed) (key : ed.PrivateKey) (persistent : Bool) : KeyRun ed :=
  { s with pc := .idle, signer := some { key, persistent } }

/-- The `except`. -/
def ephemeral (s : KeyRun ed) (key : ed.PrivateKey) : KeyRun ed :=
  { s.answer key false with failed := true }

/-- `from_private_bytes` of what is in the file. -/
def load (s : KeyRun ed) (bytes : List UInt8) : KeyRun ed :=
  match ed.fromPrivateBytes bytes with
  | some key => s.answer key true
  | none => { s with pc := .idle, raised := true }

/-- The file has taken some bytes. -/
def written (s : KeyRun ed) (key : ed.PrivateKey) (count : Nat) : KeyRun ed :=
  let bytes := (ed.privateBytes key).take count
  { s with
    pc := .writing key count
    file := some bytes
    stored := if bytes.length = 32 then some bytes else s.stored }

def step (s : KeyRun ed) : KeyLabel ed → Option (KeyRun ed)
  | .found bytes =>
    match s.pc, s.signer with
    | .idle, none =>
      some { s with
        file := some bytes
        stored := if bytes.length = 32 then some bytes else none }
    | _, _ => none
  | .go =>
    match s.pc with
    | .idle => if s.signer.isSome then some s else some { s with pc := .lookup }
    | .lookup => some { s with pc := if s.file.isSome then .read else .generate }
    | .read => s.file.map s.load
    | .generate => none
    | .makedirs key => some { s with pc := .opening key }
    | .opening key => some (s.written key 0)
    | .writing key count => if 32 ≤ count then some (s.answer key true) else none
  | .generated key =>
    match s.pc with
    | .generate => some { s with pc := .makedirs key }
    | _ => none
  | .write count =>
    match s.pc with
    | .writing key done =>
      if done < 32 ∧ 0 < count then some (s.written key (done + count)) else none
    | _ => none
  | .osError key =>
    match s.pc with
    | .idle | .generate => none
    -- `os.path.exists` is false then
    | .lookup => some { s with pc := .generate, failed := true }
    | .read | .makedirs _ | .opening _ | .writing _ _ => some (s.ephemeral key)
  | .crash => some { s with pc := .idle, signer := none, failed := false }

/-- The processes, from an empty path on. -/
def system (ed : RawEd25519) : Transition.System (KeyRun ed) (KeyLabel ed) where
  init s := s = {}
  step := step

/-- No call has raised; what is stored is in the file, and it is what a persistent signer has;
a signer is persistent unless an operation has failed. -/
structure Survives (s : KeyRun ed) : Prop where
  returns : s.raised = false
  kept : ∀ bytes, s.stored = some bytes → s.file = some bytes
  persistent : ∀ g, s.signer = some g → g.persistent → s.stored = some (ed.privateBytes g.key)
  ephemeral : ∀ g, s.signer = some g → s.failed = false → g.persistent

/-- Nothing but a whole key is found, no key is left half written, and `os.path.exists` does not
fail where a file is. -/
def Careful (s : KeyRun ed) : KeyLabel ed → Prop
  | .found bytes => bytes.length = 32
  | .crash => ∀ key count, s.pc = .writing key count → 32 ≤ count
  | .osError _ => (∀ key count, s.pc = .writing key count → 32 ≤ count) ∧
      (s.pc = .lookup → s.file = none)
  | _ => True

variable {s t : KeyRun ed} {l : KeyLabel ed}

/-- The file by where the call is. -/
def FileAt (s : KeyRun ed) : Prop :=
  match s.pc with
  | .idle | .lookup | .read => s.file = s.stored
  | .generate | .makedirs _ | .opening _ => s.file = none ∧ s.stored = none
  | .writing key count => s.file = some ((ed.privateBytes key).take count) ∧
      s.stored = if 32 ≤ count then s.file else none

/-- The invariant of careful runs. -/
structure Inv (s : KeyRun ed) : Prop where
  returns : s.raised = false
  file : s.FileAt
  whole : ∀ bytes, s.stored = some bytes → bytes.length = 32
  signer : ∀ g, s.signer = some g → s.pc = .idle ∧
    (g.persistent → s.stored = some (ed.privateBytes g.key)) ∧ (s.failed = false → g.persistent)

/-- What a step does: a call that ends has a signer, and what is stored stays. -/
structure Outcome (s : KeyRun ed) (l : KeyLabel ed) (t : KeyRun ed) : Prop where
  answered : s.pc ≠ .idle → t.pc = .idle → l ≠ .crash → t.signer ≠ none
  kept : ∀ bytes, s.stored = some bytes → (∀ b, l ≠ .found b) →
    t.stored = some bytes ∧ t.file = some bytes

/-- Where no key is half written, the file holds what is stored. -/
theorem FileAt.file_eq (h : s.FileAt)
    (hwhole : ∀ key count, s.pc = .writing key count → 32 ≤ count) : s.file = s.stored := by
  unfold FileAt at h
  split at h
  · exact h
  · exact h
  · exact h
  · rw [h.1, h.2]
  · rw [h.1, h.2]
  · rw [h.1, h.2]
  · rename_i key count hpc
    rw [h.2, if_pos (hwhole key count hpc)]

/-- No signer while a call runs. -/
theorem Inv.signer_eq_none (h : s.Inv) (hpc : s.pc ≠ .idle) : s.signer = none := by
  cases hsigner : s.signer with
  | none => rfl
  | some g => exact absurd (h.signer g hsigner).1 hpc

theorem Inv.survives (h : s.Inv) : s.Survives where
  returns := h.returns
  kept bytes hstored := by
    rw [← hstored]
    refine h.file.file_eq fun key count hpc => ?_
    have hfile := h.file
    simp only [FileAt, hpc] at hfile
    by_contra hcount
    rw [hfile.2, if_neg hcount] at hstored
    cases hstored
  persistent g hg := (h.signer g hg).2.1
  ephemeral g hg := (h.signer g hg).2.2

/-- A whole file loads. -/
theorem load_eq {bytes : List UInt8} (hlength : bytes.length = 32) :
    ∃ key, ed.privateBytes key = bytes ∧ s.load bytes = s.answer key true := by
  obtain ⟨key, hkey⟩ := Option.isSome_iff_exists.mp ((ed.fromPrivateBytes_isSome bytes).mpr hlength)
  exact ⟨key, (ed.fromPrivateBytes_eq_some bytes key).mp hkey, by rw [load, hkey]⟩

/-- The call that loads or stores the key returns a persistent signer. -/
theorem Inv.answer {key : ed.PrivateKey} (h : s.Inv) (hfile : s.file = s.stored)
    (hstored : s.stored = some (ed.privateBytes key)) : (s.answer key true).Inv where
  returns := h.returns
  file := hfile
  whole := h.whole
  signer := by
    rintro _ ⟨⟩
    exact ⟨rfl, fun _ => hstored, fun _ => rfl⟩

/-- The call whose operation fails returns an ephemeral signer. -/
theorem Inv.ephemeral (h : s.Inv) (hfile : s.file = s.stored) (key : ed.PrivateKey) :
    (s.ephemeral key).Inv where
  returns := h.returns
  file := hfile
  whole := h.whole
  signer := by
    rintro _ ⟨⟩
    exact ⟨rfl, nofun, nofun⟩

/-- The call goes on to another place. -/
theorem Inv.move (h : s.Inv) (hsigner : s.signer = none) {pc : SignerPc ed} {failed : Bool}
    (hfile : FileAt { s with pc, failed }) : Inv { s with pc, failed } where
  returns := h.returns
  file := hfile
  whole := h.whole
  signer g hg := by
    rw [show s.signer = some g from hg] at hsigner
    cases hsigner

/-- The file takes bytes, and holds the key when it has taken all of them. -/
theorem Inv.written {key : ed.PrivateKey} (h : s.Inv) (hsigner : s.signer = none)
    (hstored : s.stored = none) (count : Nat) : (s.written key count).Inv := by
  have hlength : ((ed.privateBytes key).take count).length = 32 ↔ 32 ≤ count := by
    rw [List.length_take, ed.length_privateBytes]
    omega
  refine ⟨h.returns, ⟨rfl, ?_⟩, fun bytes hbytes => ?_, fun g hg => ?_⟩
  · simp only [KeyRun.written, hlength, hstored]
  · simp only [KeyRun.written, hstored] at hbytes
    split_ifs at hbytes with hwhole
    cases hbytes
    exact hwhole
  · rw [show s.signer = some g from hg] at hsigner
    cases hsigner

/-- What a step does, by where the call is. -/
inductive Stepped (s : KeyRun ed) : KeyLabel ed → KeyRun ed → Prop
  | found {bytes : List UInt8} (hpc : s.pc = .idle) (hsigner : s.signer = none) :
    Stepped s (.found bytes)
      { s with file := some bytes, stored := if bytes.length = 32 then some bytes else none }
  | returns (hpc : s.pc = .idle) : Stepped s .go s
  | calls (hpc : s.pc = .idle) (hsigner : s.signer = none) : Stepped s .go { s with pc := .lookup }
  | looksUp (hpc : s.pc = .lookup) :
    Stepped s .go { s with pc := if s.file.isSome then .read else .generate }
  | reads {bytes : List UInt8} (hpc : s.pc = .read) (hfile : s.file = some bytes) :
    Stepped s .go (s.load bytes)
  | makesDirs {key : ed.PrivateKey} (hpc : s.pc = .makedirs key) :
    Stepped s .go { s with pc := .opening key }
  | opens {key : ed.PrivateKey} (hpc : s.pc = .opening key) : Stepped s .go (s.written key 0)
  | closes {key : ed.PrivateKey} {count : Nat} (hpc : s.pc = .writing key count)
    (hcount : 32 ≤ count) : Stepped s .go (s.answer key true)
  | generates {key : ed.PrivateKey} (hpc : s.pc = .generate) :
    Stepped s (.generated key) { s with pc := .makedirs key }
  | writes {key : ed.PrivateKey} {done count : Nat} (hpc : s.pc = .writing key done)
    (hdone : done < 32) : Stepped s (.write count) (s.written key (done + count))
  | lookupFails {key : ed.PrivateKey} (hpc : s.pc = .lookup) :
    Stepped s (.osError key) { s with pc := .generate, failed := true }
  | fails {key : ed.PrivateKey} (hpc : s.pc ≠ .idle) : Stepped s (.osError key) (s.ephemeral key)
  | dies : Stepped s .crash { s with pc := .idle, signer := none, failed := false }

theorem stepped_of_step (hst : s.step l = some t) : Stepped s l t := by
  cases l with
  | found bytes =>
    simp only [KeyRun.step] at hst
    split at hst
    · next hpc hsigner =>
      cases hst
      exact .found hpc hsigner
    · cases hst
  | go =>
    simp only [KeyRun.step] at hst
    cases hpc : s.pc <;> simp only [hpc] at hst
    case idle =>
      split_ifs at hst with hsigner <;> cases hst
      · exact .returns hpc
      · exact .calls hpc (by simpa using hsigner)
    case lookup =>
      cases hst
      exact .looksUp hpc
    case read =>
      obtain ⟨bytes, hfile, rfl⟩ := Option.map_eq_some_iff.mp hst
      exact .reads hpc hfile
    case generate => cases hst
    case makedirs key =>
      cases hst
      exact .makesDirs hpc
    case opening key =>
      cases hst
      exact .opens hpc
    case writing key count =>
      split_ifs at hst with hcount
      cases hst
      exact .closes hpc hcount
  | generated key =>
    simp only [KeyRun.step] at hst
    cases hpc : s.pc <;> simp only [hpc] at hst <;> cases hst
    exact .generates hpc
  | write count =>
    simp only [KeyRun.step] at hst
    cases hpc : s.pc <;> simp only [hpc] at hst
    case writing key done =>
      split_ifs at hst with hcount
      cases hst
      exact .writes hpc hcount.1
    all_goals cases hst
  | osError key =>
    simp only [KeyRun.step] at hst
    cases hpc : s.pc <;> simp only [hpc] at hst <;> cases hst
    case lookup.refl => exact .lookupFails hpc
    all_goals exact .fails (by rw [hpc]; nofun)
  | crash =>
    cases hst
    exact .dies

/-- What a step keeps as long as no key is left half written. -/
theorem Inv.step (h : s.Inv) (hok : Careful s l) (hst : s.step l = some t) : t.Inv := by
  have hfile := h.file
  cases stepped_of_step hst with
  | @found bytes hpc hsigner =>
    have hlength : bytes.length = 32 := hok
    rw [if_pos hlength]
    refine ⟨h.returns, by simp only [FileAt, hpc], ?_, fun g hg => ?_⟩
    · rintro _ ⟨⟩
      exact hlength
    · rw [show s.signer = some g from hg] at hsigner
      cases hsigner
  | returns => exact h
  | calls hpc hsigner =>
    simp only [FileAt, hpc] at hfile
    exact h.move hsigner hfile
  | looksUp hpc =>
    simp only [FileAt, hpc] at hfile
    refine h.move (h.signer_eq_none (by rw [hpc]; nofun)) ?_
    cases hbytes : s.file with
    | none => simp [FileAt, ← hfile, hbytes]
    | some bytes => simp [FileAt, ← hfile, hbytes]
  | reads hpc hbytes =>
    simp only [FileAt, hpc] at hfile
    obtain ⟨key, hkey, hload⟩ := load_eq (s := s) (h.whole _ (hfile ▸ hbytes))
    rw [hload]
    exact h.answer hfile (by rw [← hfile, hbytes, hkey])
  | makesDirs hpc =>
    simp only [FileAt, hpc] at hfile
    exact h.move (h.signer_eq_none (by rw [hpc]; nofun)) hfile
  | opens hpc =>
    simp only [FileAt, hpc] at hfile
    exact h.written (h.signer_eq_none (by rw [hpc]; nofun)) hfile.2 0
  | @closes key count hpc hcount =>
    simp only [FileAt, hpc, if_pos hcount] at hfile
    have hwhole : (ed.privateBytes key).take count = ed.privateBytes key :=
      List.take_of_length_le (by rw [ed.length_privateBytes]; exact hcount)
    exact h.answer hfile.2.symm (by rw [hfile.2, hfile.1, hwhole])
  | generates hpc =>
    simp only [FileAt, hpc] at hfile
    exact h.move (h.signer_eq_none (by rw [hpc]; nofun)) hfile
  | writes hpc hdone =>
    simp only [FileAt, hpc, if_neg (Nat.not_le.mpr hdone)] at hfile
    exact h.written (h.signer_eq_none (by rw [hpc]; nofun)) hfile.2 _
  | lookupFails hpc =>
    have hnone := hok.2 hpc
    simp only [FileAt, hpc] at hfile
    exact h.move (h.signer_eq_none (by rw [hpc]; nofun)) ⟨hnone, hfile ▸ hnone⟩
  | fails => exact h.ephemeral (hfile.file_eq hok.1) _
  | dies => exact ⟨h.returns, hfile.file_eq hok, h.whole, fun g hg => by cases hg⟩

/-- A call that ends without raising has a signer. -/
theorem answered_of_step (hst : s.step l = some t) (hpc : s.pc ≠ .idle) (hidle : t.pc = .idle)
    (hcrash : l ≠ .crash) : t.raised = true ∨ t.signer ≠ none := by
  cases stepped_of_step hst with
  | found hs | returns hs | calls hs => exact absurd hs hpc
  | looksUp =>
    dsimp only at hidle
    split_ifs at hidle
  | reads =>
    unfold load
    split
    · exact .inr nofun
    · exact .inl rfl
  | makesDirs | opens | generates | writes | lookupFails => cases hidle
  | closes | fails => exact .inr nofun
  | dies => exact absurd rfl hcrash

/-- Only a file that holds no whole key is written to. -/
theorem Inv.stored_of_step (h : s.Inv) (hst : s.step l = some t) {bytes : List UInt8}
    (hstored : s.stored = some bytes) (hfound : ∀ b, l ≠ .found b) : t.stored = some bytes := by
  have hfile := h.file
  cases stepped_of_step hst with
  | found => exact absurd rfl (hfound _)
  | reads =>
    unfold load
    split
    · exact hstored
    · exact hstored
  | opens hpc =>
    simp only [FileAt, hpc] at hfile
    rw [hfile.2] at hstored
    cases hstored
  | writes hpc hdone =>
    simp only [FileAt, hpc, if_neg (Nat.not_le.mpr hdone)] at hfile
    rw [hfile.2] at hstored
    cases hstored
  | returns | calls | looksUp | makesDirs | closes | generates | lookupFails | fails | dies =>
    exact hstored

theorem Inv.outcome (h : s.Inv) (hok : Careful s l) (hst : s.step l = some t) : Outcome s l t where
  answered hpc hidle hcrash :=
    (answered_of_step hst hpc hidle hcrash).resolve_left (by simp [(h.step hok hst).returns])
  kept bytes hstored hfound :=
    have hkept := h.stored_of_step hst hstored hfound
    ⟨hkept, (h.step hok hst).survives.kept bytes hkept⟩

theorem inv_of_reach (h : (system ed).Reach Careful s) : s.Inv := by
  refine h.invariant ?_ fun s l t hs hok hst => hs.step hok hst
  rintro s rfl
  exact ⟨rfl, rfl, nofun, nofun⟩

/-- **The key survives**: as long as no process leaves a key half written, every call of
`get_signer` ends with a signer, that of the stored key unless an operation has failed, and what
is stored stays in the file. -/
theorem survives_of_reach (h : (system ed).Reach Careful s) :
    s.Survives ∧ ∀ l t, Careful s l → s.step l = some t → Outcome s l t :=
  ⟨(inv_of_reach h).survives, fun _ _ hok hst => (inv_of_reach h).outcome hok hst⟩

end KeyRun

/-- A key is its own bytes, and the signature repeats the payload. -/
instance : Inhabited RawEd25519 where
  default :=
    { PrivateKey := { bytes : List UInt8 // bytes.length = 32 }
      publicKey := Subtype.val
      sign := fun key payload => key.1 ++ payload
      verify := fun publicKey signature payload => signature == publicKey ++ payload
      verify_sign := by simp
      fromPrivateBytes := fun bytes => if h : bytes.length = 32 then some ⟨bytes, h⟩ else none
      privateBytes := Subtype.val
      fromPrivateBytes_isSome := by
        intro bytes
        split_ifs with h <;> simp [h]
      fromPrivateBytes_eq_some := by
        intro bytes key
        split_ifs with h
        · simp [Subtype.ext_iff, eq_comm]
        · simp only [false_iff]
          rintro rfl
          exact h key.2 }

namespace KeyRun

variable {ed : RawEd25519} {s t : KeyRun ed} {l : KeyLabel ed}

def sampleKey : (default : RawEd25519).PrivateKey := ⟨List.replicate 32 7, rfl⟩

/-- The key is written in two parts, the process dies, and the next one loads the key. -/
theorem survives_restart :
    ∃ s : KeyRun default, s.Survives ∧ s.stored = some (List.replicate 32 7) ∧
      s.signer = some ⟨⟨sampleKey⟩, true⟩ := by
  have hstore : (system default).exec {}
      [.go, .go, .generated sampleKey, .go, .go, .write 10, .write 30, .go] =
        some { file := some (List.replicate 32 7), signer := some ⟨⟨sampleKey⟩, true⟩,
               stored := some (List.replicate 32 7) } := rfl
  have hinit : (system default).Reach Careful {} := .init rfl
  have hstored := hinit.exec (Transition.System.execOk_of_forall (by simp [Careful])) hstore
  have hcrash := hstored.step (show Careful _ .crash from fun _ _ h => by cases h) rfl
  have hreach := hcrash.exec (Transition.System.execOk_of_forall (by simp [Careful]))
    (show (system default).exec _ [.go, .go, .go] = some _ from rfl)
  exact ⟨_, (survives_of_reach hreach).1, rfl, rfl⟩

/-- Nothing refuses, and nobody touches the file. -/
def Undisturbed (_ : KeyRun ed) : KeyLabel ed → Prop
  | .found _ | .osError _ => False
  | _ => True

/-- A file without a whole key, and no signer. -/
structure Broken (bytes : List UInt8) (s : KeyRun ed) : Prop where
  file : s.file = some bytes
  signer : s.signer = none
  pc : s.pc = .idle ∨ s.pc = .lookup ∨ s.pc = .read

/-- Reading such a file raises. -/
theorem Broken.read {bytes : List UInt8} (h : Broken bytes s) (hlength : bytes.length ≠ 32)
    (hpc : s.pc = .read) : s.step .go = some { s with pc := .idle, raised := true } := by
  have hnone : ed.fromPrivateBytes bytes = none := by
    rw [← Option.not_isSome_iff_eq_none, ed.fromPrivateBytes_isSome]
    exact hlength
  simp only [KeyRun.step, hpc, h.file, Option.map_some, load, hnone]

theorem Broken.step {bytes : List UInt8} (h : Broken bytes s) (hlength : bytes.length ≠ 32)
    (hok : Undisturbed s l) (hst : s.step l = some t) : Broken bytes t := by
  obtain ⟨hfile, hsigner, hpc⟩ := h
  cases stepped_of_step hst with
  | found | lookupFails | fails => exact hok.elim
  | returns => exact ⟨hfile, hsigner, hpc⟩
  | calls => exact ⟨hfile, hsigner, .inr (.inl rfl)⟩
  | looksUp => exact ⟨hfile, hsigner, .inr (.inr (by simp [hfile]))⟩
  | reads hread =>
    rw [Broken.read ⟨hfile, hsigner, hpc⟩ hlength hread] at hst
    rw [← Option.some.inj hst]
    exact ⟨hfile, hsigner, .inl rfl⟩
  | makesDirs hs | opens hs | closes hs | generates hs | writes hs => simp [hs] at hpc
  | dies => exact ⟨hfile, rfl, .inl rfl⟩

/-- **What is half written breaks every later call**: no process gets a signer, and the bytes
stay. -/
theorem broken_of_reach {bytes : List UInt8} (h : Broken bytes s) (hlength : bytes.length ≠ 32)
    (hreach : ((system ed).startingAt s).Reach Undisturbed t) : Broken bytes t := by
  refine hreach.invariant ?_ fun s l t hs hok hst => hs.step hlength hok hst
  rintro _ rfl
  exact h

/-- The process dies after the file is emptied; the next one raises. -/
theorem emptied_not_survives :
    ¬ ∀ (ed : RawEd25519) (s : KeyRun ed), (system ed).Reach Undisturbed s → s.Survives := by
  intro hall
  have hraise : (system default).exec {}
      [.go, .go, .generated sampleKey, .go, .go, .crash, .go, .go, .go] =
        some { file := some [], raised := true } := rfl
  have hinit : (system default).Reach Undisturbed {} := .init rfl
  have hreach := hinit.exec (Transition.System.execOk_of_forall (by simp [Undisturbed])) hraise
  exact absurd (hall _ _ hreach).returns nofun

end KeyRun

end OpenModel.Inference
