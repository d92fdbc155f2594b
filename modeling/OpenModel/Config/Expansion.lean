import Mathlib.Data.Multiset.DershowitzManna
import Mathlib.Tactic.Abel
import OpenModel.Config.Interpolate
import OpenModel.Lib.Transition

/-!
# Whether the interpolation ends

A value may bring the `$` of another reference, so the loop of the scheduler need not end. To say
when it does, every character is traced: what a value brings comes from the reference that it
replaces, and from those that the `$` of this reference comes from.

A round uses up the `$` of its reference. Those that it brings have come from one reference more;
as long as this is bounded the multiset of what is left to each `$` falls. Traces consist of the
names of set variables, so they are bounded if no variable occurs too often in one.

## Main results

- `Scheduler.tracedRound_eq`: what a round does to the traces
- `terminates_iff`: the loop ends exactly if there is a bound on how often a reference comes from
  references to one variable
- `terminates_of_ranked`: it ends if all references in values are to variables of a lower rank
-/

namespace OpenModel

open Search (index)
open Reading

/-- Each character with the references that it comes from, the last one first. -/
abbrev Traced := List (Char × List (List Char))

namespace Traced

def text (s : Traced) : List Char := s.map Prod.fst

/-- The content itself comes from no reference. -/
def ofText (content : List Char) : Traced := content.map fun c => (c, [])

/-- What a value brings. -/
def ofValue (value : List Char) (trace : List (List Char)) : Traced := value.map fun c => (c, trace)

@[simp] theorem text_append (s t : Traced) : text (s ++ t) = s.text ++ t.text := List.map_append

@[simp] theorem text_cons (e : Char × List (List Char)) (s : Traced) :
    text (e :: s) = e.1 :: s.text := rfl

@[simp] theorem text_ofText (content : List Char) : (ofText content).text = content := by
  simp [text, ofText, Function.comp_def]

@[simp] theorem text_ofValue (value : List Char) (trace : List (List Char)) :
    (ofValue value trace).text = value := by
  simp [text, ofValue, Function.comp_def]

theorem length_text (s : Traced) : s.text.length = s.length := List.length_map _

end Traced

namespace Scheduler

/-- `interpolateRound` with traces. -/
def tracedRound (env : Environ) (result : Traced) : Option Traced := do
  let start ← index ['$', '{'] result.text
  let length ← index ['}'] (result.text.drop start)
  let stop := length + start
  let envVar := (result.text.take stop).drop (start + 2)
  let trace ← (result.drop start).head?.map Prod.snd
  return result.take start ++ Traced.ofValue (getenv env envVar) (envVar :: trace) ++
    result.drop (stop + 1)

variable {env : Environ} {s t a n b : Traced} {trace : List (List Char)}

/-- The first reference of `s`: what is in front of it, the trace of its `$`, its name and what is
behind. -/
def FirstReference (s a : Traced) (trace : List (List Char)) (n b : Traced) : Prop :=
  (reading a.text).quiet ∧ '}' ∉ n.text ∧
    ∃ x y, s = a ++ ('$', trace) :: ('{', x) :: (n ++ ('}', y) :: b)

theorem FirstReference.text_eq (h : FirstReference s a trace n b) :
    s.text = a.text ++ '$' :: '{' :: (n.text ++ '}' :: b.text) := by
  obtain ⟨-, -, x, y, rfl⟩ := h
  simp

/-- **A round** of a traced text. -/
theorem tracedRound_eq (env : Environ) (h : FirstReference s a trace n b) :
    tracedRound env s =
      some (a ++ Traced.ofValue (getenv env n.text) (n.text :: trace) ++ b) := by
  have htext := h.text_eq
  obtain ⟨ha, hn, x, y, rfl⟩ := h
  have hdrop : (a ++ ('$', trace) :: ('{', x) :: (n ++ ('}', y) :: b)).drop
      (n.text.length + 2 + a.text.length + 1) = b := by
    rw [show a ++ ('$', trace) :: ('{', x) :: (n ++ ('}', y) :: b) =
      (a ++ ('$', trace) :: ('{', x) :: (n ++ [('}', y)])) ++ b by simp]
    exact List.drop_left' (by simp [Traced.length_text]; omega)
  simp only [tracedRound, htext, index_opening ha, Option.bind_eq_bind, Option.bind_some,
    List.drop_left, index_closing hn, take_drop_name, hdrop]
  simp [Traced.length_text]

theorem exists_firstReference (h : reading s.text = closed) :
    ∃ a trace n b, FirstReference s a trace n b := by
  obtain ⟨a, n, b, hs, ha, hn⟩ := exists_of_closed h
  obtain ⟨a', c', rfl, rfl, hc⟩ := List.map_eq_append_iff.mp hs
  obtain ⟨⟨_, trace⟩, c₁, rfl, rfl, hc₁⟩ := List.map_eq_cons_iff.mp hc
  obtain ⟨⟨_, x⟩, c₂, rfl, rfl, hc₂⟩ := List.map_eq_cons_iff.mp hc₁
  obtain ⟨n', c₃, rfl, rfl, hc₃⟩ := List.map_eq_append_iff.mp hc₂
  obtain ⟨⟨_, y⟩, b', rfl, rfl, rfl⟩ := List.map_eq_cons_iff.mp hc₃
  exact ⟨a', trace, n', b', ha, hn, x, y, rfl⟩

theorem tracedRound_eq_none (env : Environ) (h : reading s.text ≠ closed) :
    tracedRound env s = none := by
  have hround := interpolateRound_eq_none env h
  rw [interpolateRound, Option.bind_eq_bind, Option.bind_eq_none_iff] at hround
  rw [tracedRound, Option.bind_eq_bind, Option.bind_eq_none_iff]
  intro start hstart
  have hstop := hround start hstart
  cases hlength : index ['}'] (s.text.drop start) with
  | none => rfl
  | some length =>
    rw [hlength] at hstop
    cases hstop

/-- The text of a traced text goes the way of the loop. -/
theorem text_tracedRound (env : Environ) (s : Traced) :
    (tracedRound env s).map Traced.text = interpolateRound env s.text := by
  by_cases h : reading s.text = closed
  · obtain ⟨a, trace, n, b, hfirst⟩ := exists_firstReference h
    rw [tracedRound_eq env hfirst, hfirst.text_eq, interpolateRound_eq env hfirst.1 hfirst.2.1]
    simp
  · rw [tracedRound_eq_none env h, interpolateRound_eq_none env h]
    rfl

/-- What a round does, where there is one. -/
theorem exists_of_tracedRound (h : tracedRound env s = some t) :
    ∃ a trace n b, FirstReference s a trace n b ∧
      t = a ++ Traced.ofValue (getenv env n.text) (n.text :: trace) ++ b := by
  have hclosed : reading s.text = closed := by
    by_contra hclosed
    rw [tracedRound_eq_none env hclosed] at h
    cases h
  obtain ⟨a, trace, n, b, hfirst⟩ := exists_firstReference hclosed
  rw [tracedRound_eq env hfirst] at h
  exact ⟨a, trace, n, b, hfirst, (Option.some.inj h).symm⟩

/-- The rounds of the loop, with traces. -/
def expansion (env : Environ) (content : List Char) : Transition.System Traced Unit where
  init s := s = Traced.ofText content
  step s _ := tracedRound env s

/-- The loop breaks. -/
def Terminates (env : Environ) (content : List Char) : Prop :=
  ∃ fuel t, interpolateEnvVars env fuel content = some t

/-- The first reference comes from at most `d` references to one variable. -/
def NestedAtMost (d : Nat) (s : Traced) : Prop :=
  ∀ a trace n b, FirstReference s a trace n b → ∀ name, trace.count name ≤ d

-- ════════════════════════════════════════════════════════════════════════
-- Bounded nesting ends
-- ════════════════════════════════════════════════════════════════════════

/-- For each `$` how many references it may still come from, if `depth` is the bound. -/
def dollars (depth : Nat) (s : Traced) : Multiset Nat :=
  ((s.filter fun e => e.1 = '$').map fun e => depth - e.2.length : List Nat)

theorem dollars_append (depth : Nat) (s t : Traced) :
    dollars depth (s ++ t) = dollars depth s + dollars depth t := by
  simp [dollars]

theorem mem_dollars_ofValue {depth left : Nat} {value : List Char}
    (h : left ∈ dollars depth (Traced.ofValue value trace)) : left = depth - trace.length := by
  obtain ⟨e, he, rfl⟩ := List.mem_map.mp (Multiset.mem_coe.mp h)
  obtain ⟨c, -, rfl⟩ := List.mem_map.mp (List.mem_filter.mp he).1
  rfl

theorem FirstReference.dollars_eq (h : FirstReference s a trace n b) (depth : Nat) :
    dollars depth s = dollars depth a + dollars depth b +
      ({depth - trace.length} + dollars depth n) := by
  obtain ⟨-, -, x, y, rfl⟩ := h
  have hcons : ∀ (c : Char) (z : List (List Char)) (u : Traced), c ≠ '$' →
      dollars depth ((c, z) :: u) = dollars depth u := by
    intro c z u hc
    simp [dollars, hc]
  have hdollar : ∀ u : Traced,
      dollars depth (('$', trace) :: u) = {depth - trace.length} + dollars depth u := by
    intro u
    simp [dollars]
  rw [dollars_append, hdollar, hcons _ _ _ (by decide), dollars_append, hcons _ _ _ (by decide)]
  abel

/-- **A round** uses up a `$`, and what it brings may come from fewer references. -/
theorem dollars_lt {depth : Nat} (h : FirstReference s a trace n b) (hlength : trace.length < depth)
    (value : List Char) (name : List Char) :
    (dollars depth (a ++ Traced.ofValue value (name :: trace) ++ b)).IsDershowitzMannaLT
      (dollars depth s) := by
  refine ⟨dollars depth a + dollars depth b, dollars depth (Traced.ofValue value (name :: trace)),
    {depth - trace.length} + dollars depth n, by simp, ?_, h.dollars_eq depth, fun left hleft => ?_⟩
  · rw [dollars_append, dollars_append]
    abel
  · refine ⟨depth - trace.length, by simp, ?_⟩
    rw [mem_dollars_ofValue hleft, List.length_cons]
    omega

/-- A list of names of which none occurs too often. -/
theorem length_le_of_count {α : Type*} [BEq α] [LawfulBEq α] {names l : List α} {d : Nat}
    (hnames : l ⊆ names) (hcount : ∀ x, l.count x ≤ d) : l.length ≤ names.length * d := by
  induction names generalizing l with
  | nil =>
    rw [List.subset_nil.mp hnames]
    exact Nat.zero_le _
  | cons x names ih =>
    have hrest : (l.filter fun y => !(y == x)).length ≤ names.length * d := by
      refine ih (fun y hy => ?_) fun y => ?_
      · obtain ⟨hmem, hne⟩ := List.mem_filter.mp hy
        exact (List.mem_cons.mp (hnames hmem)).resolve_left (by simpa using hne)
      · exact (List.filter_sublist.count_le y).trans (hcount y)
    have hlength : l.length = l.count x + (l.filter fun y => !(y == x)).length := by
      rw [List.count, ← List.countP_eq_length_filter]
      simpa using List.length_eq_countP_add_countP (· == x) (l := l)
    rw [List.length_cons, Nat.succ_mul]
    have hx := hcount x
    omega

/-- A variable that brings anything is set. -/
theorem mem_names_of_getenv {name : List Char} (h : getenv env name ≠ []) :
    name ∈ env.map Prod.fst := by
  unfold getenv at h
  split_ifs at h with hempty
  · exact absurd rfl h
  · cases hlookup : env.lookup name with
    | none => simp [hlookup] at h
    | some value =>
      obtain ⟨front, back, rfl, -⟩ := List.lookup_eq_some_iff.mp hlookup
      simp

theorem FirstReference.subset (h : FirstReference s a trace n b) :
    a ⊆ s ∧ ('$', trace) ∈ s ∧ b ⊆ s := by
  obtain ⟨-, -, x, y, rfl⟩ := h
  refine ⟨List.subset_append_left _ _, by simp, fun e he => ?_⟩
  simp [he]

/-- What a round leaves is from before, or has the reference in front of its trace. -/
theorem mem_of_tracedRound (h : tracedRound env s = some t) {e : Char × List (List Char)}
    (he : e ∈ t) :
    e ∈ s ∨ ∃ a trace n b, FirstReference s a trace n b ∧ e.2 = n.text :: trace ∧
      n.text ∈ env.map Prod.fst := by
  obtain ⟨a, trace, n, b, hfirst, rfl⟩ := exists_of_tracedRound h
  obtain ⟨ha, -, hb⟩ := hfirst.subset
  simp only [List.mem_append] at he
  obtain (he | he) | he := he
  · exact .inl (ha he)
  · obtain ⟨c, hc, rfl⟩ := List.mem_map.mp he
    refine .inr ⟨a, trace, n, b, hfirst, rfl, mem_names_of_getenv ?_⟩
    exact List.ne_nil_of_mem hc
  · exact .inl (hb he)

variable {content : List Char}

/-- Traces consist of the names of set variables. -/
theorem traces_of_reach (h : (expansion env content).Reach Transition.System.anyStep s) :
    ∀ e ∈ s, e.2 ⊆ env.map Prod.fst := by
  refine h.invariant (I := fun s => ∀ e ∈ s, e.2 ⊆ env.map Prod.fst) ?_
    fun s _ t hs _ hst e he => ?_
  · rintro _ rfl e he
    obtain ⟨c, -, rfl⟩ := List.mem_map.mp he
    exact List.nil_subset _
  · obtain he | ⟨a, trace, n, b, hfirst, heq, hname⟩ := mem_of_tracedRound hst he
    · exact hs e he
    · rw [heq]
      exact List.cons_subset.mpr ⟨hname, hs _ hfirst.subset.2.1⟩

/-- **Bounded nesting ends**: the multiset of what is left to each `$` falls. -/
theorem terminates_of_nestedAtMost {d : Nat}
    (h : ∀ s, (expansion env content).Reach Transition.System.anyStep s → NestedAtMost d s) :
    Terminates env content := by
  have hall : ∀ left s, dollars (env.length * d + 1) s = left →
      (expansion env content).Reach Transition.System.anyStep s →
        ∃ fuel t, interpolateEnvVars env fuel s.text = some t := by
    have hwf : WellFounded (Multiset.IsDershowitzMannaLT (α := Nat)) :=
      Multiset.wellFounded_isDershowitzMannaLT
    intro left
    induction left using hwf.induction with
    | _ left ih =>
      rintro s rfl hs
      have hround := text_tracedRound env s
      cases hst : tracedRound env s with
      | none =>
        rw [hst] at hround
        exact ⟨1, s.text, interpolateEnvVars_of_break hround.symm⟩
      | some t =>
        rw [hst] at hround
        obtain ⟨a, trace, n, b, hfirst, rfl⟩ := exists_of_tracedRound hst
        have hnames := traces_of_reach hs _ hfirst.subset.2.1
        have hlength := length_le_of_count hnames (h s hs a trace n b hfirst)
        rw [List.length_map] at hlength
        have hlt := dollars_lt hfirst (Nat.lt_succ_of_le hlength) (getenv env n.text) n.text
        obtain ⟨fuel, u, hfuel⟩ := ih _ hlt _ rfl (.step (l := ()) hs trivial hst)
        exact ⟨fuel + 1, u, by rwa [interpolateEnvVars_of_round hround.symm]⟩
  obtain ⟨fuel, t, hfuel⟩ := hall _ _ rfl (.init rfl)
  exact ⟨fuel, t, by simpa using hfuel⟩

/-- A loop that breaks after so many rounds nests no deeper. -/
theorem nestedAtMost_of_terminates {fuel : Nat} {u : List Char}
    (h : interpolateEnvVars env fuel content = some u)
    (hs : (expansion env content).Reach Transition.System.anyStep s) : NestedAtMost fuel s := by
  have hinv : ∃ m, interpolateEnvVars env m s.text = some u ∧ ∀ e ∈ s, e.2.length + m ≤ fuel := by
    refine hs.invariant (I := fun s => ∃ m, interpolateEnvVars env m s.text = some u ∧
      ∀ e ∈ s, e.2.length + m ≤ fuel) ?_ fun s _ t hs _ hst => ?_
    · rintro _ rfl
      refine ⟨fuel, by simpa using h, fun e he => ?_⟩
      obtain ⟨c, -, rfl⟩ := List.mem_map.mp he
      simp
    · obtain ⟨m, hm, hlength⟩ := hs
      have hround := text_tracedRound env s
      rw [show tracedRound env s = some t from hst] at hround
      cases m with
      | zero => cases hm
      | succ m =>
        rw [interpolateEnvVars_of_round hround.symm] at hm
        refine ⟨m, hm, fun e he => ?_⟩
        obtain he | ⟨a, trace, n, b, hfirst, heq, -⟩ := mem_of_tracedRound hst he
        · have hle := hlength e he
          omega
        · have hle : trace.length + (m + 1) ≤ fuel := hlength _ hfirst.subset.2.1
          rw [heq, List.length_cons]
          omega
  obtain ⟨m, -, hlength⟩ := hinv
  intro a trace n b hfirst name
  have hle : trace.length + m ≤ fuel := hlength _ hfirst.subset.2.1
  exact List.count_le_length.trans (by omega)

/-- **Exact condition**: the loop ends exactly if there is a bound on how often the reference of a
round comes from references to one variable. -/
theorem terminates_iff (env : Environ) (content : List Char) :
    Terminates env content ↔
      ∃ d, ∀ s, (expansion env content).Reach Transition.System.anyStep s → NestedAtMost d s :=
  ⟨fun ⟨fuel, _, h⟩ => ⟨fuel, fun _ hs => nestedAtMost_of_terminates h hs⟩,
    fun ⟨_, h⟩ => terminates_of_nestedAtMost h⟩

/-- A round that changes nothing is made for ever. -/
theorem not_terminates_of_round_eq (h : interpolateRound env content = some content) :
    ¬ Terminates env content := by
  rintro ⟨fuel, t, hfuel⟩
  induction fuel with
  | zero => cases hfuel
  | succ fuel ih =>
    rw [interpolateEnvVars_of_round h] at hfuel
    exact ih hfuel

/-- A variable whose value is a reference to itself. -/
theorem selfReference_not_terminates :
    ¬ ∀ (env : Environ) (content : List Char), Terminates env content := by
  intro hall
  have hround : interpolateRound [(['A'], "${A}".toList)] "${A}".toList = some "${A}".toList := by
    decide
  exact not_terminates_of_round_eq hround (hall _ _)

-- ════════════════════════════════════════════════════════════════════════
-- Ranked values
-- ════════════════════════════════════════════════════════════════════════

section Ranked

variable {rank : List Char → Nat} {name : List Char} {e : Char × List (List Char)}

/-- What follows a `$` that comes from `name` is a reference to a variable of a lower rank. -/
def Lower (rank : List Char → Nat) (name rest : List Char) : Prop :=
  ∃ n b, rest = '{' :: (n ++ '}' :: b) ∧ '}' ∉ n ∧ rank n < rank name

theorem Lower.append {rest : List Char} (h : Lower rank name rest) (c : List Char) :
    Lower rank name (rest ++ c) := by
  obtain ⟨n, b, rfl, hn, hlt⟩ := h
  exact ⟨n, b ++ c, by simp, hn, hlt⟩

theorem Lower.lt {n b : List Char} (h : Lower rank name ('{' :: (n ++ '}' :: b))) (hn : '}' ∉ n) :
    rank n < rank name := by
  obtain ⟨n', b', heq, hn', hlt⟩ := h
  have hrest : n ++ '}' :: b = n' ++ '}' :: b' := (List.cons.inj heq).2
  have hindex : n.length = n'.length := by
    have hend := Search.index_singleton (b := b) hn
    rw [hrest, Search.index_singleton hn'] at hend
    exact (Option.some.inj hend).symm
  rwa [(List.append_inj hrest hindex).1]

/-- The references of a value are complete, and to variables of a lower rank. -/
def Ranked (env : Environ) (rank : List Char → Nat) : Prop :=
  ∀ name a b, getenv env name = a ++ '$' :: b → Lower rank name b

/-- The same of a traced text. -/
def RankedText (rank : List Char → Nat) : Traced → Prop
  | [] => True
  | e :: s => (e.1 = '$' → ∀ name ∈ e.2.head?, Lower rank name (Traced.text s)) ∧ RankedText rank s

theorem RankedText.of_append (h : RankedText rank (s ++ t)) : RankedText rank t := by
  induction s with
  | nil => exact h
  | cons e s ih => exact ih h.2

/-- A `$` in front of the first reference comes from the content. -/
theorem RankedText.untraced (h : RankedText rank (a ++ ('$', trace) :: t))
    (ha : (reading a.text).quiet) : ∀ e ∈ a, e.1 = '$' → e.2 = [] := by
  induction a with
  | nil => exact nofun
  | cons e a ih =>
    have hquiet : ¬ ['$', '{'] <:+: e.1 :: Traced.text a := quiet_reading_iff.mp ha
    refine List.forall_mem_cons.mpr ⟨fun hdollar => ?_, ih h.2 ?_⟩
    · cases htrace : e.2 with
      | nil => rfl
      | cons name older =>
        obtain ⟨n, b, heq, -⟩ := h.1 hdollar name (by rw [htrace]; rfl)
        cases a with
        | nil => cases heq
        | cons e' a =>
          obtain ⟨hbrace, -⟩ := List.cons.inj heq
          refine absurd ?_ hquiet
          rw [hdollar, Traced.text_cons, hbrace]
          exact ⟨[], Traced.text a, rfl⟩
    · exact quiet_reading_iff.mpr fun hinfix => hquiet (List.infix_cons hinfix)

theorem RankedText.append (ha : ∀ e ∈ a, e.1 = '$' → e.2 = []) (h : RankedText rank t) :
    RankedText rank (a ++ t) := by
  induction a with
  | nil => exact h
  | cons e a ih =>
    obtain ⟨he, ha⟩ := List.forall_mem_cons.mp ha
    refine ⟨fun hdollar name hname => ?_, ih ha⟩
    rw [he hdollar] at hname
    cases hname

theorem RankedText.ofValue (henv : Ranked env rank) (h : RankedText rank t)
    (trace : List (List Char)) :
    RankedText rank (Traced.ofValue (getenv env name) (name :: trace) ++ t) := by
  have hvalue : ∀ front value, getenv env name = front ++ value →
      RankedText rank (Traced.ofValue value (name :: trace) ++ t) := by
    intro front value heq
    induction value generalizing front with
    | nil => exact h
    | cons c value ih =>
      refine ⟨fun hdollar n hn => ?_, ih (front ++ [c]) (by simpa using heq)⟩
      obtain rfl : c = '$' := hdollar
      obtain rfl := Option.some.inj hn
      have hlower := (henv _ front value heq).append t.text
      rwa [← Traced.text_ofValue value (name :: trace), ← Traced.text_append] at hlower
  exact hvalue [] _ rfl

/-- Traces go up in rank. -/
def Rising (rank : List Char → Nat) (s : Traced) : Prop :=
  ∀ e ∈ s, e.2.Pairwise fun newer older => rank newer < rank older

theorem FirstReference.rising (h : FirstReference s a trace n b) (hranked : RankedText rank s)
    (hrising : Rising rank s) : (n.text :: trace).Pairwise fun x y => rank x < rank y := by
  have htrace := hrising _ h.subset.2.1
  obtain ⟨-, hn, x, y, rfl⟩ := h
  refine List.pairwise_cons.mpr ⟨fun older holder => ?_, htrace⟩
  cases trace with
  | nil => cases holder
  | cons name trace =>
    have hlower : Lower rank name ('{' :: (n.text ++ '}' :: b.text)) := by
      simpa using hranked.of_append.1 rfl name rfl
    have hlt := hlower.lt hn
    obtain rfl | hmem := List.mem_cons.mp holder
    · exact hlt
    · exact hlt.trans ((List.pairwise_cons.mp htrace).1 older hmem)

/-- What a round keeps where values are ranked. -/
theorem ranked_tracedRound (henv : Ranked env rank) (h : tracedRound env s = some t)
    (hranked : RankedText rank s) (hrising : Rising rank s) :
    RankedText rank t ∧ Rising rank t := by
  obtain ⟨a, trace, n, b, hfirst, rfl⟩ := exists_of_tracedRound h
  have hnew := hfirst.rising hranked hrising
  obtain ⟨ha, -, hb⟩ := hfirst.subset
  constructor
  · obtain ⟨hquiet, -, x, y, rfl⟩ := hfirst
    rw [List.append_assoc]
    refine RankedText.append (hranked.untraced hquiet) (RankedText.ofValue henv ?_ trace)
    exact (hranked.of_append.2.2.of_append).2
  · intro e he
    simp only [List.mem_append] at he
    obtain (he | he) | he := he
    · exact hrising e (ha he)
    · obtain ⟨c, -, rfl⟩ := List.mem_map.mp he
      exact hnew
    · exact hrising e (hb he)

/-- **Ranked values end**: no variable comes twice in a trace. -/
theorem terminates_of_ranked (rank : List Char → Nat) (henv : Ranked env rank)
    (content : List Char) : Terminates env content := by
  refine terminates_of_nestedAtMost (d := 1) fun s hs => ?_
  have hkept : RankedText rank s ∧ Rising rank s := by
    refine hs.invariant (I := fun s => RankedText rank s ∧ Rising rank s) ?_
      fun s _ t hs _ hst => ranked_tracedRound henv hst hs.1 hs.2
    rintro _ rfl
    have htrace : ∀ e ∈ Traced.ofText content, e.2 = [] := fun e he => by
      obtain ⟨c, -, rfl⟩ := List.mem_map.mp he
      rfl
    constructor
    · rw [← List.append_nil (Traced.ofText content)]
      exact RankedText.append (fun e he _ => htrace e he) trivial
    · intro e he
      rw [htrace e he]
      exact List.Pairwise.nil
  intro a trace n b hfirst name
  have htrace := hkept.2 _ hfirst.subset.2.1
  refine List.nodup_iff_count_le_one.mp (htrace.imp fun hlt heq => ?_) name
  rw [heq] at hlt
  exact lt_irrefl _ hlt

/-- Values without a `$` bring no references. -/
theorem terminates_of_no_dollar (henv : ∀ name, '$' ∉ getenv env name) (content : List Char) :
    Terminates env content :=
  terminates_of_ranked (fun _ => 0) (fun name a b heq => absurd (by simp [heq]) (henv name)) content

end Ranked

end Scheduler

end OpenModel
