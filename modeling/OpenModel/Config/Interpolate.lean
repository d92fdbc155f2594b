import Mathlib.Data.List.TakeWhile
import OpenModel.Lib.Search

/-!
# Two interpolations of one configuration

Both services replace `${NAME}` in the text of the configuration before they parse it. The
scheduler looks for the first `${` and the first `}` behind it, replaces what stands there,
whatever the name is, and begins again with the result. The inference service goes over the text
once and replaces what its regular expression matches, a name of word characters. Both look for
characters of ASCII only, so a text is a list of characters here, also where the scheduler has
bytes.

The two are in step as long as every round of the scheduler replaces the next match. They are no
longer when a `${` is left in the text, comes with a value or is put together from both, and has a
`}` or a match behind it. Then the scheduler loses text that the inference service keeps, or the
inference service keeps a reference, which the scheduler never does.

## Main results

- `Scheduler.interpolateRound_eq`, `Scheduler.interpolateRound_eq_none_iff`: what a round does
- `Inference.tokens_source`: the matches and what is between them make up the text
- `sameText_iff`: the texts are the same exactly if the two are in step
-/

namespace OpenModel

open Search (index)

/-- The environment block; of several entries of one name the first counts. -/
abbrev Environ := List (List Char × List Char)

namespace Scheduler

/-- `os.Getenv` -/
def getenv (env : Environ) (name : List Char) : List Char :=
  if name = [] then [] else (env.lookup name).getD []

/-- The loop of `interpolateEnvVars`, once; `none` is the `break`. -/
def interpolateRound (env : Environ) (result : List Char) : Option (List Char) := do
  let start ← index ['$', '{'] result
  let length ← index ['}'] (result.drop start)
  let stop := length + start
  let envVar := (result.take stop).drop (start + 2)
  return result.take start ++ getenv env envVar ++ result.drop (stop + 1)

/-- The text if the loop breaks within so many rounds. -/
def interpolateEnvVars (env : Environ) : Nat → List Char → Option (List Char)
  | 0, _ => none
  | fuel + 1, result =>
    match interpolateRound env result with
    | none => some result
    | some next => interpolateEnvVars env fuel next

end Scheduler

/-- What `\w` matches. Of the characters beyond ASCII only that it is decided. -/
structure WordClass where
  isWord : Char → Bool
  ascii : ∀ c, c.toNat < 128 → isWord c = (c.isAlphanum || c = '_')

/-- A character, or a match with its name. -/
inductive Token
  | char (c : Char)
  | reference (name : List Char)
  deriving DecidableEq, Repr

namespace Inference

/-- The name, where `\$\{(\w+)\}` matches at the start of the text. -/
def matchReference (w : WordClass) : List Char → Option (List Char)
  | '$' :: '{' :: s =>
    let name := s.takeWhile w.isWord
    if name ≠ [] ∧ (s.dropWhile w.isWord).head? = some '}' then some name else none
  | _ => none

/-- The matches from left to right, each behind the one before; so many characters belong to a
match already. -/
def tokensFrom (w : WordClass) : Nat → List Char → List Token
  | _, [] => []
  | skip + 1, _ :: s => tokensFrom w skip s
  | 0, c :: s =>
    match matchReference w (c :: s) with
    | some name => .reference name :: tokensFrom w (name.length + 2) s
    | none => .char c :: tokensFrom w 0 s

def tokens (w : WordClass) (content : List Char) : List Token := tokensFrom w 0 content

/-- `os.environ.get(var_name, "")` -/
def environGet (env : Environ) (name : List Char) : List Char := (env.lookup name).getD []

/-- What `re.sub` puts in the place of a match. -/
def replacer (env : Environ) : Token → List Char
  | .char c => [c]
  | .reference name => environGet env name

/-- `_interpolate_env_vars` -/
def interpolateEnvVars (w : WordClass) (env : Environ) (content : List Char) : List Char :=
  (tokens w content).flatMap (replacer env)

end Inference

-- ════════════════════════════════════════════════════════════════════════
-- Reading a text
-- ════════════════════════════════════════════════════════════════════════

/-- What has been read of a text. -/
inductive Reading
  | plain
  /-- the last character is a `$` -/
  | dollar
  /-- there is a `${`, and no `}` behind it -/
  | opened
  | closed
  deriving DecidableEq, Repr

namespace Reading

def read : Reading → Char → Reading
  | plain, c => if c = '$' then dollar else plain
  | dollar, c => if c = '{' then opened else if c = '$' then dollar else plain
  | opened, c => if c = '}' then closed else opened
  | closed, _ => closed

/-- There is no `${`. -/
def quiet : Reading → Bool
  | plain | dollar => true
  | opened | closed => false

variable {r : Reading} {c : Char} {s : List Char}

theorem read_dollar (h : r.quiet) : r.read '$' = dollar := by
  cases r with
  | plain => rfl
  | dollar => rfl
  | opened => cases h
  | closed => cases h

@[simp] theorem foldl_read_closed (s : List Char) : s.foldl read closed = closed := by
  induction s with
  | nil => rfl
  | cons c s ih => exact ih

theorem foldl_read_opened (s : List Char) :
    s.foldl read opened = if '}' ∈ s then closed else opened := by
  induction s with
  | nil => rfl
  | cons c s ih =>
    rw [List.foldl_cons]
    by_cases hc : c = '}'
    · subst hc
      simp [read]
    · rw [show opened.read c = opened from if_neg hc, ih]
      simp [Ne.symm hc]

/-- Only a `}` closes. -/
theorem foldl_read_ne_closed (hr : r ≠ closed) (hs : '}' ∉ s) : s.foldl read r ≠ closed := by
  induction s generalizing r with
  | nil => exact hr
  | cons c s ih =>
    refine ih ?_ fun h => hs (List.mem_cons_of_mem c h)
    have hc : c ≠ '}' := fun h => hs (h ▸ List.mem_cons_self)
    cases r with
    | plain => rw [read]; split_ifs <;> nofun
    | dollar => rw [read]; split_ifs <;> nofun
    | opened => rw [read, if_neg hc]; nofun
    | closed => exact absurd rfl hr

end Reading

open Reading

def reading (s : List Char) : Reading := s.foldl read plain

variable {a b n s t p : List Char} {env : Environ}

theorem reading_append (s t : List Char) : reading (s ++ t) = t.foldl read (reading s) :=
  List.foldl_append

theorem reading_concat (s : List Char) (c : Char) : reading (s ++ [c]) = (reading s).read c :=
  reading_append s [c]

theorem reading_ne_closed_of_append (h : reading (s ++ t) ≠ closed) : reading s ≠ closed := by
  intro hs
  rw [reading_append, hs, foldl_read_closed] at h
  exact h rfl

theorem suffix_concat (word s : List Char) (c d : Char) :
    word ++ [d] <:+ s ++ [c] ↔ c = d ∧ word <:+ s := by
  rw [List.suffix_concat_iff]
  constructor
  · rintro (h | ⟨t, h, ht⟩)
    · simp at h
    · obtain ⟨rfl, h⟩ := List.append_inj' h rfl
      exact ⟨by simpa using h.symm, ht⟩
  · rintro ⟨rfl, h⟩
    exact .inr ⟨word, rfl, h⟩

/-- A text without `${`, and one that ends in a `$` beside. -/
theorem reading_cases (s : List Char) :
    ((reading s).quiet ↔ ¬ ['$', '{'] <:+: s) ∧
      (reading s = dollar ↔ ¬ ['$', '{'] <:+: s ∧ ['$'] <:+ s) := by
  induction s using List.reverseRecOn with
  | nil => simp [reading, quiet]
  | append_singleton s c ih =>
    obtain ⟨hquiet, hdollar⟩ := ih
    have hopen : ['$', '{'] <:+ s ++ [c] ↔ c = '{' ∧ ['$'] <:+ s := suffix_concat ['$'] s c '{'
    have hlast : ['$'] <:+ s ++ [c] ↔ c = '$' := by
      rw [List.singleton_suffix_append_singleton_iff, eq_comm]
    rw [reading_concat, List.infix_concat_iff, hopen, hlast]
    cases hr : reading s with
    | plain =>
      have hno : ¬ ['$', '{'] <:+: s := hquiet.mp (by rw [hr]; rfl)
      have hsuffix : ¬ ['$'] <:+ s := fun h => by simpa [hr] using hdollar.mpr ⟨hno, h⟩
      by_cases hc : c = '$' <;> simp [Reading.read, hno, hsuffix, hc, quiet]
    | dollar =>
      obtain ⟨hno, hsuffix⟩ := hdollar.mp hr
      by_cases hbrace : c = '{'
      · simp [Reading.read, hsuffix, hbrace, quiet]
      · by_cases hc : c = '$' <;> simp [Reading.read, hno, hbrace, hc, quiet]
    | opened =>
      have hyes : ['$', '{'] <:+: s := by simpa [hr, quiet] using hquiet
      by_cases hc : c = '}' <;> simp [Reading.read, hyes, hc, quiet]
    | closed =>
      have hyes : ['$', '{'] <:+: s := by simpa [hr, quiet] using hquiet
      simp [Reading.read, hyes, quiet]

theorem quiet_reading_iff : (reading s).quiet ↔ ¬ ['$', '{'] <:+: s := (reading_cases s).1

theorem reading_of_quiet (ha : (reading a).quiet) (b : List Char) :
    reading (a ++ '$' :: '{' :: b) = if '}' ∈ b then closed else opened := by
  rw [reading_append, List.foldl_cons, read_dollar ha, List.foldl_cons]
  exact foldl_read_opened b

theorem reading_eq_opened (hs : reading s ≠ closed) (h : ¬ (reading s).quiet) :
    reading s = opened := by
  cases hr : reading s with
  | plain => exact absurd (by rw [hr]; rfl) h
  | dollar => exact absurd (by rw [hr]; rfl) h
  | opened => rfl
  | closed => exact absurd hr hs

/-- The first `${`. -/
theorem exists_of_not_quiet (h : ¬ (reading s).quiet) :
    ∃ a b, s = a ++ '$' :: '{' :: b ∧ (reading a).quiet := by
  rw [quiet_reading_iff, not_not] at h
  cases hstart : index ['$', '{'] s with
  | none => exact absurd h (Search.index_eq_none_iff.mp hstart)
  | some start =>
    obtain ⟨a, b, hs, -, hfirst⟩ := (Search.index_eq_some_iff (by simp)).mp hstart
    exact ⟨a, b, hs, quiet_reading_iff.mpr fun ha => hfirst (ha.trans (List.infix_append' [] a _))⟩

/-- A text with a `${` and no `}` behind the first one. -/
theorem exists_of_opened (h : reading s = opened) :
    ∃ a b, s = a ++ '$' :: '{' :: b ∧ (reading a).quiet ∧ '}' ∉ b := by
  obtain ⟨a, b, rfl, ha⟩ := exists_of_not_quiet (by rw [h]; nofun)
  refine ⟨a, b, rfl, ha, fun hb => ?_⟩
  rw [reading_of_quiet ha, if_pos hb] at h
  cases h

/-- A text with a reference: what is in front of the first `${`, the name and what is behind. -/
theorem exists_of_closed (h : reading s = closed) :
    ∃ a n b, s = a ++ '$' :: '{' :: (n ++ '}' :: b) ∧ (reading a).quiet ∧ '}' ∉ n := by
  obtain ⟨a, b, rfl, ha⟩ := exists_of_not_quiet (by rw [h]; nofun)
  rw [reading_of_quiet ha] at h
  split_ifs at h with hb
  obtain ⟨n, b', rfl, hn⟩ := List.eq_append_cons_of_mem hb
  exact ⟨a, n, b', rfl, ha, hn⟩

-- ════════════════════════════════════════════════════════════════════════
-- The loop of the scheduler
-- ════════════════════════════════════════════════════════════════════════

namespace Scheduler

/-- Where the first reference begins. -/
theorem index_opening (ha : (reading a).quiet) (b : List Char) :
    index ['$', '{'] (a ++ '$' :: '{' :: b) = some a.length := by
  refine Search.index_append (by simp) fun h => ?_
  have hdollar : (reading (a ++ ['$'])).quiet := by
    rw [reading_concat, read_dollar ha]
    rfl
  exact quiet_reading_iff.mp hdollar h

/-- Where it ends. -/
theorem index_closing (hn : '}' ∉ n) (b : List Char) :
    index ['}'] ('$' :: '{' :: (n ++ '}' :: b)) = some (n.length + 2) :=
  Search.index_singleton (a := '$' :: '{' :: n) (by simpa using hn)

/-- Its name. -/
theorem take_drop_name (a n b : List Char) :
    ((a ++ '$' :: '{' :: (n ++ '}' :: b)).take (n.length + 2 + a.length)).drop (a.length + 2) =
      n := by
  have htake : (a ++ '$' :: '{' :: (n ++ '}' :: b)).take (n.length + 2 + a.length) =
      a ++ ['$', '{'] ++ n := by
    rw [show a ++ '$' :: '{' :: (n ++ '}' :: b) = (a ++ ['$', '{'] ++ n) ++ '}' :: b by simp]
    exact List.take_left' (by simp; omega)
  rw [htake]
  exact List.drop_left' (by simp)

/-- **A round** replaces the first reference. -/
theorem interpolateRound_eq (env : Environ) (ha : (reading a).quiet) (hn : '}' ∉ n)
    (b : List Char) :
    interpolateRound env (a ++ '$' :: '{' :: (n ++ '}' :: b)) = some (a ++ getenv env n ++ b) := by
  have hdrop : (a ++ '$' :: '{' :: (n ++ '}' :: b)).drop (n.length + 2 + a.length + 1) = b := by
    rw [show a ++ '$' :: '{' :: (n ++ '}' :: b) = (a ++ '$' :: '{' :: (n ++ ['}'])) ++ b by simp]
    exact List.drop_left' (by simp; omega)
  simp only [interpolateRound, index_opening ha, Option.bind_eq_bind, Option.bind_some,
    List.drop_left, index_closing hn, take_drop_name, hdrop, List.take_left]
  rfl

/-- **The break**: there is no reference. -/
theorem interpolateRound_eq_none (env : Environ) (h : reading s ≠ closed) :
    interpolateRound env s = none := by
  rw [interpolateRound, Option.bind_eq_bind, Option.bind_eq_none_iff]
  intro start hstart
  obtain ⟨a, b, rfl, rfl, hfirst⟩ := (Search.index_eq_some_iff (by simp)).mp hstart
  have ha : (reading a).quiet :=
    quiet_reading_iff.mpr fun ha => hfirst (ha.trans (List.infix_append' [] a _))
  have hb : '}' ∉ b := by
    rw [List.cons_append, List.cons_append, List.nil_append, reading_of_quiet ha] at h
    intro hb
    exact h (if_pos hb)
  rw [List.drop_left, Search.index_singleton_eq_none (by simpa using hb)]
  rfl

theorem interpolateRound_eq_none_iff : interpolateRound env s = none ↔ reading s ≠ closed := by
  refine ⟨fun h hclosed => ?_, interpolateRound_eq_none env⟩
  obtain ⟨a, n, b, rfl, ha, hn⟩ := exists_of_closed hclosed
  rw [interpolateRound_eq env ha hn] at h
  cases h

theorem interpolateEnvVars_of_round {fuel : Nat} (h : interpolateRound env s = some t) :
    interpolateEnvVars env (fuel + 1) s = interpolateEnvVars env fuel t := by
  rw [interpolateEnvVars, h]

theorem interpolateEnvVars_of_break {fuel : Nat} (h : interpolateRound env s = none) :
    interpolateEnvVars env (fuel + 1) s = some s := by
  rw [interpolateEnvVars, h]

/-- No reference is left. -/
theorem reading_of_interpolateEnvVars {fuel : Nat} (h : interpolateEnvVars env fuel s = some t) :
    reading t ≠ closed := by
  induction fuel generalizing s with
  | zero => cases h
  | succ fuel ih =>
    cases hround : interpolateRound env s with
    | none =>
      rw [interpolateEnvVars_of_break hround] at h
      obtain rfl := Option.some.inj h
      exact interpolateRound_eq_none_iff.mp hround
    | some next =>
      rw [interpolateEnvVars_of_round hround] at h
      exact ih h

/-- The text does not depend on the rounds that are allowed. -/
theorem interpolateEnvVars_unique {fuel fuel' : Nat} {t' : List Char}
    (h : interpolateEnvVars env fuel s = some t) (h' : interpolateEnvVars env fuel' s = some t') :
    t = t' := by
  induction fuel generalizing s fuel' with
  | zero => cases h
  | succ fuel ih =>
    cases fuel' with
    | zero => cases h'
    | succ fuel' =>
      cases hround : interpolateRound env s with
      | none =>
        rw [interpolateEnvVars_of_break hround] at h h'
        exact Option.some.inj (h.symm.trans h')
      | some next =>
        rw [interpolateEnvVars_of_round hround] at h h'
        exact ih h h'

end Scheduler

-- ════════════════════════════════════════════════════════════════════════
-- The pass of the inference service
-- ════════════════════════════════════════════════════════════════════════

/-- What stands in the text. -/
def Token.source : Token → List Char
  | .char c => [c]
  | .reference name => '$' :: '{' :: (name ++ ['}'])

/-- A name consists of word characters. -/
def Token.Named (w : WordClass) : Token → Prop
  | .char _ => True
  | .reference name => name ≠ [] ∧ ∀ c ∈ name, w.isWord c

namespace Inference

variable {w : WordClass}

theorem matchReference_eq_some {name : List Char} (h : matchReference w s = some name) :
    (name ≠ [] ∧ ∀ c ∈ name, w.isWord c) ∧ ∃ rest, s = '$' :: '{' :: (name ++ '}' :: rest) := by
  unfold matchReference at h
  split at h
  · dsimp only at h
    split_ifs at h with hmatch
    obtain ⟨hne, hbrace⟩ := hmatch
    obtain rfl := Option.some.inj h
    obtain ⟨rest, hrest⟩ := List.head?_eq_some_iff.mp hbrace
    refine ⟨⟨hne, fun c hc => List.mem_takeWhile_imp hc⟩, rest, ?_⟩
    rw [← hrest, List.takeWhile_append_dropWhile]
  · cases h

theorem tokensFrom_eq (skip : Nat) (s : List Char) :
    tokensFrom w skip s = tokens w (s.drop skip) := by
  induction s generalizing skip with
  | nil => cases skip <;> rfl
  | cons c s ih =>
    cases skip with
    | zero => rfl
    | succ skip => exact ih skip

/-- A text is what its tokens stand for, and names are words. -/
theorem tokens_source (s : List Char) :
    (tokens w s).flatMap Token.source = s ∧ ∀ t ∈ tokens w s, t.Named w := by
  induction hlength : s.length using Nat.strong_induction_on generalizing s with
  | _ length ih =>
    cases s with
    | nil => exact ⟨rfl, nofun⟩
    | cons c s =>
      cases hmatch : matchReference w (c :: s) with
      | none =>
        have hcons : tokens w (c :: s) = .char c :: tokens w s := by
          rw [tokens, tokensFrom, hmatch]
          rfl
        obtain ⟨hsource, hnamed⟩ := ih s.length (by rw [← hlength]; exact Nat.lt_succ_self _) s rfl
        rw [hcons, List.flatMap_cons, hsource]
        exact ⟨rfl, List.forall_mem_cons.mpr ⟨trivial, hnamed⟩⟩
      | some name =>
        obtain ⟨hname, rest, hs⟩ := matchReference_eq_some hmatch
        obtain ⟨rfl, rfl⟩ := List.cons.inj hs
        have hdrop : ('{' :: (name ++ '}' :: rest)).drop (name.length + 2) = rest := by
          rw [show '{' :: (name ++ '}' :: rest) = ('{' :: (name ++ ['}'])) ++ rest by simp]
          exact List.drop_left' (by simp)
        have hcons : tokens w ('$' :: '{' :: (name ++ '}' :: rest)) =
            .reference name :: tokens w rest := by
          rw [tokens, tokensFrom, hmatch]
          exact congrArg (Token.reference name :: ·) (by rw [tokensFrom_eq, hdrop])
        obtain ⟨hsource, hnamed⟩ := ih rest.length (by rw [← hlength]; simp; omega) rest rfl
        rw [hcons, List.flatMap_cons, hsource]
        exact ⟨by simp [Token.source], List.forall_mem_cons.mpr ⟨hname, hnamed⟩⟩

end Inference

-- ════════════════════════════════════════════════════════════════════════
-- In step
-- ════════════════════════════════════════════════════════════════════════

/-- Reading a text with the values in the place of the matches. A match behind a `${` is closed by
its own `}`, as far as the scheduler is concerned. -/
def readTokens (env : Environ) : Reading → List Token → Reading
  | r, [] => r
  | r, .char c :: ts => readTokens env (r.read c) ts
  | r, .reference name :: ts =>
    if r.quiet then readTokens env ((Inference.environGet env name).foldl read r) ts else closed

/-- Neither a match nor a `}` comes behind a `${`, be it of the text, of a value or made of both. -/
def InStep (w : WordClass) (env : Environ) (content : List Char) : Prop :=
  readTokens env plain (Inference.tokens w content) ≠ closed

instance (w : WordClass) (env : Environ) (content : List Char) :
    Decidable (InStep w env content) :=
  inferInstanceAs (Decidable (_ ≠ _))

/-- Both services go on with the same text. -/
def SameText (w : WordClass) (env : Environ) (content : List Char) : Prop :=
  ∃ fuel, Scheduler.interpolateEnvVars env fuel content =
    some (Inference.interpolateEnvVars w env content)

/-- No set variable has a `$` in its name. -/
def PlainNames (env : Environ) : Prop := ∀ entry ∈ env, '$' ∉ entry.1

section InStep

variable {w : WordClass} {c : Char} {ts : List Token} {r : Reading}

theorem WordClass.not_isWord_brace (w : WordClass) : w.isWord '}' = false :=
  w.ascii '}' (by decide)

/-- A name has no `}`, and both look it up in the same way. -/
theorem Token.Named.name {name : List Char} (h : (Token.reference name).Named w) (env : Environ) :
    '}' ∉ name ∧ Scheduler.getenv env name = Inference.environGet env name := by
  refine ⟨fun hbrace => ?_, by rw [Scheduler.getenv, if_neg h.1, Inference.environGet]⟩
  have hword := h.2 _ hbrace
  rw [w.not_isWord_brace] at hword
  cases hword

theorem source_reference (p name : List Char) (ts : List Token) :
    p ++ (Token.reference name :: ts).flatMap Token.source =
      p ++ '$' :: '{' :: (name ++ '}' :: ts.flatMap Token.source) := by
  simp [Token.source]

/-- **In step**: every round of the scheduler replaces the next match. -/
theorem exists_fuel_of_inStep (hnamed : ∀ t ∈ ts, t.Named w)
    (h : readTokens env (reading p) ts ≠ closed) :
    ∃ fuel, Scheduler.interpolateEnvVars env fuel (p ++ ts.flatMap Token.source) =
      some (p ++ ts.flatMap (Inference.replacer env)) := by
  induction ts generalizing p with
  | nil =>
    exact ⟨1, Scheduler.interpolateEnvVars_of_break (by
      rw [List.flatMap_nil, List.append_nil]
      exact Scheduler.interpolateRound_eq_none env h)⟩
  | cons t ts ih =>
    obtain ⟨ht, hts⟩ := List.forall_mem_cons.mp hnamed
    cases t with
    | char c =>
      obtain ⟨fuel, hfuel⟩ := ih hts (p := p ++ [c]) (by rwa [reading_concat])
      exact ⟨fuel, by simpa [Token.source, Inference.replacer] using hfuel⟩
    | reference name =>
      rw [readTokens] at h
      split_ifs at h with hquiet
      · obtain ⟨hname, hvalue⟩ := ht.name env
        obtain ⟨fuel, hfuel⟩ := ih hts (p := p ++ Inference.environGet env name)
          (by rwa [reading_append])
        have hround := Scheduler.interpolateRound_eq env hquiet hname (ts.flatMap Token.source)
        refine ⟨fuel + 1, ?_⟩
        rw [source_reference, Scheduler.interpolateEnvVars_of_round hround, hvalue, hfuel,
          List.flatMap_cons, Inference.replacer, List.append_assoc]
      · exact absurd rfl h

/-- No variable is named like what is behind a `${` that is left. -/
theorem getenv_of_plainNames (henv : PlainNames env) {name : List Char} (hname : '$' ∈ name) :
    Scheduler.getenv env name = [] := by
  have hlookup : env.lookup name = none := by
    rw [List.lookup_eq_none_iff]
    intro entry hentry
    have hne : name ≠ entry.1 := fun h => henv entry hentry (h ▸ hname)
    simpa using hne
  rw [Scheduler.getenv, hlookup]
  split_ifs <;> rfl

/-- The `}` of a match behind a `${` that is left closes that one. -/
theorem interpolateRound_of_opened (henv : PlainNames env) (hp : reading p = opened)
    {name : List Char} (hname : '}' ∉ name) (b : List Char) :
    ∃ a, a.length < p.length ∧ (reading a).quiet ∧
      Scheduler.interpolateRound env (p ++ '$' :: '{' :: (name ++ '}' :: b)) = some (a ++ b) := by
  obtain ⟨a, n, rfl, ha, hn⟩ := exists_of_opened hp
  refine ⟨a, by simp, ha, ?_⟩
  have hbrace : '}' ∉ n ++ '$' :: '{' :: name := by simpa [hname] using hn
  have hround := Scheduler.interpolateRound_eq env ha hbrace b
  rw [getenv_of_plainNames henv (by simp), List.append_nil] at hround
  simpa using hround

/-- Where the values have no `}`, the loop ends, and a round that is out of step only loses text. -/
theorem exists_length_le (henv : PlainNames env) (hnamed : ∀ t ∈ ts, t.Named w)
    (hp : reading p ≠ closed) (hts : '}' ∉ ts.flatMap (Inference.replacer env)) :
    ∃ fuel t, Scheduler.interpolateEnvVars env fuel (p ++ ts.flatMap Token.source) = some t ∧
      t.length ≤ (p ++ ts.flatMap (Inference.replacer env)).length := by
  induction ts generalizing p with
  | nil =>
    refine ⟨1, p, ?_, by simp⟩
    rw [List.flatMap_nil, List.append_nil]
    exact Scheduler.interpolateEnvVars_of_break (Scheduler.interpolateRound_eq_none env hp)
  | cons t ts ih =>
    obtain ⟨ht, hrest⟩ := List.forall_mem_cons.mp hnamed
    rw [List.flatMap_cons, List.mem_append, not_or] at hts
    cases t with
    | char c =>
      have hc : '}' ∉ [c] := hts.1
      have hpc : reading (p ++ [c]) ≠ closed := by
        rw [reading_append]
        exact foldl_read_ne_closed hp hc
      simpa [Token.source, Inference.replacer] using ih hrest hpc hts.2
    | reference name =>
      obtain ⟨hname, hvalue⟩ := ht.name env
      by_cases hquiet : (reading p).quiet
      · have hround := Scheduler.interpolateRound_eq env hquiet hname (ts.flatMap Token.source)
        have hpv : reading (p ++ Inference.environGet env name) ≠ closed := by
          rw [reading_append]
          exact foldl_read_ne_closed hp hts.1
        obtain ⟨fuel, t, hfuel, hle⟩ := ih hrest hpv hts.2
        refine ⟨fuel + 1, t, ?_, by simpa [Inference.replacer] using hle⟩
        rw [source_reference, Scheduler.interpolateEnvVars_of_round hround, hvalue, hfuel]
      · have hopened := reading_eq_opened hp hquiet
        obtain ⟨a, hlt, ha, hround⟩ :=
          interpolateRound_of_opened henv hopened hname (ts.flatMap Token.source)
        obtain ⟨fuel, t, hfuel, hle⟩ := ih hrest (p := a) (fun h => by rw [h] at ha; cases ha) hts.2
        refine ⟨fuel + 1, t, ?_, ?_⟩
        · rw [source_reference, Scheduler.interpolateEnvVars_of_round hround, hfuel]
        · simp only [List.flatMap_cons, List.length_append] at hle ⊢
          omega

/-- **Out of step** the texts differ: what is left of a reference is never left by the scheduler,
and what it takes for part of a name is lost. -/
theorem ne_of_not_inStep (henv : PlainNames env) (hnamed : ∀ t ∈ ts, t.Named w)
    (hp : reading p ≠ closed) (h : readTokens env (reading p) ts = closed) (fuel : Nat) :
    Scheduler.interpolateEnvVars env fuel (p ++ ts.flatMap Token.source) ≠
      some (p ++ ts.flatMap (Inference.replacer env)) := by
  intro heq
  have hleft := Scheduler.reading_of_interpolateEnvVars heq
  induction ts generalizing p fuel with
  | nil => exact hp h
  | cons t ts ih =>
    obtain ⟨ht, hrest⟩ := List.forall_mem_cons.mp hnamed
    rw [List.flatMap_cons, ← List.append_assoc] at hleft
    cases t with
    | char c =>
      refine ih hrest (p := p ++ [c]) (reading_ne_closed_of_append hleft) ?_ fuel ?_ hleft
      · rwa [reading_concat]
      · simpa [Token.source, Inference.replacer] using heq
    | reference name =>
      obtain ⟨hname, hvalue⟩ := ht.name env
      rw [source_reference, List.flatMap_cons, Inference.replacer] at heq
      cases fuel with
      | zero => cases heq
      | succ fuel =>
        by_cases hquiet : (reading p).quiet
        · have hround := Scheduler.interpolateRound_eq env hquiet hname (ts.flatMap Token.source)
          rw [Scheduler.interpolateEnvVars_of_round hround, hvalue, ← List.append_assoc] at heq
          refine ih hrest (reading_ne_closed_of_append hleft) ?_ fuel heq hleft
          rwa [readTokens, if_pos hquiet, ← reading_append] at h
        · have hopened := reading_eq_opened hp hquiet
          obtain ⟨a, hlt, ha, hround⟩ :=
            interpolateRound_of_opened henv hopened hname (ts.flatMap Token.source)
          rw [Scheduler.interpolateEnvVars_of_round hround] at heq
          have hopen : '}' ∉ ts.flatMap (Inference.replacer env) := by
            intro hbrace
            rw [List.append_assoc, reading_append, hopened, foldl_read_opened] at hleft
            exact hleft (if_pos (List.mem_append_right _ hbrace))
          obtain ⟨fuel', t, hfuel, hle⟩ := exists_length_le henv hrest (p := a)
            (fun h => by rw [h] at ha; cases ha) hopen
          obtain rfl := Scheduler.interpolateEnvVars_unique hfuel heq
          simp only [List.length_append] at hle
          omega

end InStep

/-- **Exact condition**: texts in step are the same for both services, and where no set variable
has a `$` in its name no others are. -/
theorem sameText_iff (w : WordClass) (env : Environ) (content : List Char) :
    (InStep w env content → SameText w env content) ∧
      (PlainNames env → (SameText w env content ↔ InStep w env content)) := by
  obtain ⟨hsource, hnamed⟩ := Inference.tokens_source (w := w) content
  have hsame : InStep w env content → SameText w env content := fun h => by
    obtain ⟨fuel, hfuel⟩ := exists_fuel_of_inStep (p := []) hnamed h
    rw [List.nil_append, hsource] at hfuel
    exact ⟨fuel, hfuel⟩
  refine ⟨hsame, fun henv => ⟨?_, hsame⟩⟩
  rintro ⟨fuel, hfuel⟩ hclosed
  refine ne_of_not_inStep (p := []) henv hnamed nofun hclosed fuel ?_
  rw [List.nil_append, hsource]
  exact hfuel

/-- The word characters of ASCII. -/
instance : Inhabited WordClass where
  default := ⟨fun c => c.isAlphanum || c = '_', fun _ _ => rfl⟩

example : InStep default [("LOTUS_API_TOKEN".toList, "abc$1".toList)]
    "api_token: ${LOTUS_API_TOKEN} # $".toList := by decide

/-- The scheduler replaces a reference that comes with a value. -/
theorem nestedReference_not_sameText :
    ¬ ∀ (w : WordClass) (env : Environ) (content : List Char), SameText w env content := by
  intro hall
  have hscheduler :
      Scheduler.interpolateEnvVars [(['A'], "${B}".toList)] 3 "${A}".toList = some [] := by
    decide
  have hinference : Inference.interpolateEnvVars default [(['A'], "${B}".toList)] "${A}".toList =
      "${B}".toList := by
    decide
  obtain ⟨fuel, hfuel⟩ := hall default [(['A'], "${B}".toList)] "${A}".toList
  rw [hinference] at hfuel
  have heq := Scheduler.interpolateEnvVars_unique hscheduler hfuel
  exact absurd heq (by decide)

end OpenModel
