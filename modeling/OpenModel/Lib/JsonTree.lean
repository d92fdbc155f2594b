import OpenModel.Lib.Json

/-!
# JSON texts with arrays

The same texts for values that also are null or arrays. An array is written like an object
without keys, and what is read back from a text is what was written.

## Main results

- `Tree.parse_text`: a value comes back from its text
- `Tree.text_ofValue`: without arrays the texts are those of `dumps`
- `Tree.printable_of_mem_text`: a text is printable
-/

namespace Json

inductive Tree
  | null
  | int (n : Int)
  | str (s : String)
  | arr (items : List Tree)
  | obj (members : List (String × Tree))

namespace Tree

mutual

def text (pad : Padding) : Tree → List Char
  | .null => ['n', 'u', 'l', 'l']
  | .int n => decimal n
  | .str s => quote s
  | .arr items => '[' :: textItems pad items ++ [']']
  | .obj members => '\x7b' :: textMembers pad members ++ ['\x7d']

def textItems (pad : Padding) : List Tree → List Char
  | [] => []
  | item :: items =>
    text pad item ++
      match items with
      | [] => []
      | _ => ',' :: pad.text ++ textItems pad items

def textMembers (pad : Padding) : List (String × Tree) → List Char
  | [] => []
  | (key, value) :: members =>
    quote key ++ ':' :: pad.text ++ text pad value ++
      match members with
      | [] => []
      | _ => ',' :: pad.text ++ textMembers pad members

end

mutual

/-- A value, with the blanks in front of it; `fuel` bounds the nesting and the items. -/
def read : Nat → List Char → Option (Tree × List Char)
  | 0, _ => none
  | fuel + 1, s =>
    match skipBlanks s with
    | 'n' :: 'u' :: 'l' :: 'l' :: rest => some (.null, rest)
    | '"' :: rest => (readString rest).map fun (s, rest) => (.str s, rest)
    | '[' :: rest =>
      match skipBlanks rest with
      | ']' :: rest => some (.arr [], rest)
      | rest => (readItems fuel rest).map fun (items, rest) => (.arr items, rest)
    | '\x7b' :: rest =>
      match skipBlanks rest with
      | '\x7d' :: rest => some (.obj [], rest)
      | rest => (readMembers fuel rest).map fun (members, rest) => (.obj members, rest)
    | s => (readInt s).map fun (n, rest) => (.int n, rest)

/-- The items of an array, up to the closing bracket. -/
def readItems : Nat → List Char → Option (List Tree × List Char)
  | 0, _ => none
  | fuel + 1, s => do
    let (item, rest) ← read fuel s
    match skipBlanks rest with
    | ']' :: rest => return ([item], rest)
    | ',' :: rest => do
      let (items, rest) ← readItems fuel rest
      return (item :: items, rest)
    | _ => none

/-- The members of an object, from a key to the closing brace. -/
def readMembers : Nat → List Char → Option (List (String × Tree) × List Char)
  | 0, _ => none
  | fuel + 1, s =>
    match s with
    | '"' :: rest => do
      let (key, rest) ← readString rest
      match skipBlanks rest with
      | ':' :: rest => do
        let (value, rest) ← read fuel rest
        match skipBlanks rest with
        | '\x7d' :: rest => return ([(key, value)], rest)
        | ',' :: rest => do
          let (members, rest) ← readMembers fuel (skipBlanks rest)
          return ((key, value) :: members, rest)
        | _ => none
      | _ => none
    | _ => none

end

/-- `json.loads` -/
def parse (s : List Char) : Option Tree :=
  (read (s.length + 1) s).bind fun (value, rest) => if skipBlanks rest = [] then some value else none

-- ════════════════════════════════════════════════════════════════════════
-- Values
-- ════════════════════════════════════════════════════════════════════════

theorem read_int {n : Int} {fuel : Nat} {ws rest : List Char}
    (hws : ∀ c ∈ ws, isBlank c = true) (hrest : Delimited rest) :
    read (fuel + 1) (ws ++ (decimal n ++ rest)) = some (.int n, rest) := by
  obtain ⟨c, cs, hdecimal, hc⟩ := head_decimal n
  have hread := readInt_decimal (n := n) hrest
  have hplain : isBlank c = false ∧ c ≠ 'n' ∧ c ≠ '"' ∧ c ≠ '[' ∧ c ≠ '\x7b' := by
    rcases hc with rfl | hdigit
    · decide
    · refine ⟨?_, ?_, ?_, ?_, ?_⟩
      · by_contra hblank
        simp only [isBlank, Bool.not_eq_false, Bool.or_eq_true, beq_iff_eq] at hblank
        rcases hblank with ((rfl | rfl) | rfl) | rfl <;> cases hdigit
      all_goals
        rintro rfl
        cases hdigit
  rw [hdecimal] at hread ⊢
  rw [read, skipBlanks_append hws (by simpa using hplain.1)]
  split
  · next heq => exact absurd (List.cons.inj heq).1 hplain.2.1
  · next heq => exact absurd (List.cons.inj heq).1 hplain.2.2.1
  · next heq => exact absurd (List.cons.inj heq).1 hplain.2.2.2.1
  · next heq => exact absurd (List.cons.inj heq).1 hplain.2.2.2.2
  · rw [hread]
    rfl

theorem read_str {s : String} {fuel : Nat} {ws rest : List Char}
    (hws : ∀ c ∈ ws, isBlank c = true) :
    read (fuel + 1) (ws ++ (quote s ++ rest)) = some (.str s, rest) := by
  obtain ⟨tail, htext, hread⟩ := readString_quote s rest
  rw [htext, read, skipBlanks_append hws (by simp [isBlank])]
  simp [hread]

/-- A text does not end an array, and has no blank in front. -/
theorem head_text (pad : Padding) (value : Tree) :
    ∃ c cs, text pad value = c :: cs ∧ isBlank c = false ∧ c ≠ ']' := by
  cases value with
  | null => exact ⟨'n', _, rfl, by decide, by decide⟩
  | int n =>
    obtain ⟨c, cs, hdecimal, hc⟩ := head_decimal n
    refine ⟨c, cs, hdecimal, ?_, ?_⟩
    · rcases hc with rfl | hdigit
      · rfl
      · by_contra hblank
        simp only [isBlank, Bool.not_eq_false, Bool.or_eq_true, beq_iff_eq] at hblank
        rcases hblank with ((rfl | rfl) | rfl) | rfl <;> cases hdigit
    · rintro rfl
      rcases hc with hc | hc <;> cases hc
  | str s => exact ⟨'"', _, rfl, by decide, by decide⟩
  | arr items => exact ⟨'[', _, rfl, by decide, by decide⟩
  | obj members => exact ⟨'\x7b', _, rfl, by decide, by decide⟩

/-- What follows an item or a member, in front of a closing bracket. -/
def tailText (pad : Padding) (rest : List Char) : List Char :=
  if rest = [] then [] else ',' :: pad.text ++ rest

theorem textItems_ne_nil (pad : Padding) (item : Tree) (items : List Tree) :
    textItems pad (item :: items) ≠ [] := by
  obtain ⟨c, cs, htext, -⟩ := head_text pad item
  simp [textItems, htext]

theorem textMembers_ne_nil (pad : Padding) (m : String × Tree) (ms : List (String × Tree)) :
    textMembers pad (m :: ms) ≠ [] := by
  simp [textMembers, quote]

theorem tailText_append (pad : Padding) {text : List Char} (hne : text ≠ []) (rest : List Char) :
    tailText pad text ++ rest = ',' :: (pad.text ++ (text ++ rest)) := by
  simp [tailText, hne]

theorem textItems_cons (pad : Padding) (item : Tree) (items : List Tree) :
    textItems pad (item :: items) = text pad item ++ tailText pad (textItems pad items) := by
  cases items with
  | nil => rfl
  | cons next items =>
    rw [tailText, if_neg (textItems_ne_nil pad next items), textItems]
    exact List.cons_ne_nil _ _

theorem textMembers_cons (pad : Padding) (key : String) (value : Tree)
    (members : List (String × Tree)) :
    textMembers pad ((key, value) :: members) =
      quote key ++ ':' :: pad.text ++ text pad value ++ tailText pad (textMembers pad members) := by
  cases members with
  | nil => rfl
  | cons next members =>
    rw [tailText, if_neg (textMembers_ne_nil pad next members), textMembers]
    exact List.cons_ne_nil _ _

theorem delimited_tailText (pad : Padding) (text : List Char) {close : Char} {rest : List Char}
    (hclose : close = ']' ∨ close = '\x7d') : Delimited (tailText pad text ++ close :: rest) := by
  unfold tailText
  split_ifs
  · rintro c ⟨⟩
    rcases hclose with rfl | rfl <;> decide
  · rintro c ⟨⟩
    decide

mutual

theorem read_text (pad : Padding) : ∀ (value : Tree) {fuel : Nat} {ws rest : List Char},
    (∀ c ∈ ws, isBlank c = true) → (text pad value).length ≤ fuel → Delimited rest →
    read fuel (ws ++ (text pad value ++ rest)) = some (value, rest)
  | .null, fuel, ws, rest, hws, hfuel, hrest => by
    cases fuel with
    | zero => simp [text] at hfuel
    | succ fuel =>
      rw [read, text, skipBlanks_append hws (by simp [isBlank])]
      rfl
  | .int n, fuel, ws, rest, hws, hfuel, hrest => by
    obtain ⟨c, cs, hdecimal, -⟩ := head_decimal n
    cases fuel with
    | zero => simp [text, hdecimal] at hfuel
    | succ fuel => exact read_int hws hrest
  | .str s, fuel, ws, rest, hws, hfuel, hrest => by
    cases fuel with
    | zero => simp [text, quote] at hfuel
    | succ fuel => exact read_str hws
  | .arr items, fuel, ws, rest, hws, hfuel, hrest => by
    cases fuel with
    | zero => simp [text] at hfuel
    | succ fuel =>
      have htext : text pad (.arr items) ++ rest =
          '[' :: (textItems pad items ++ ']' :: rest) := by
        simp [text]
      rw [htext, read, skipBlanks_append hws (by simp [isBlank])]
      cases items with
      | nil => rfl
      | cons item items =>
        have hitems : readItems fuel ([] ++ (textItems pad (item :: items) ++ ']' :: rest)) =
            some (item :: items, rest) := by
          refine readItems_textItems pad (item :: items) (by simp) (by simp) ?_
          simp only [text, List.length_cons, List.length_append] at hfuel
          omega
        rw [List.nil_append] at hitems
        obtain ⟨c, cs, hhead, hblank, hne⟩ := head_text pad item
        obtain ⟨tail, hcons⟩ : ∃ tail, textItems pad (item :: items) ++ ']' :: rest = c :: tail := by
          rw [textItems_cons, hhead]
          exact ⟨_, rfl⟩
        simp only
        rw [hcons] at hitems ⊢
        rw [skipBlanks_cons hblank]
        split
        · next heq => exact absurd (List.cons.inj heq).1 hne
        · rw [hitems]
          rfl
  | .obj members, fuel, ws, rest, hws, hfuel, hrest => by
    cases fuel with
    | zero => simp [text] at hfuel
    | succ fuel =>
      have htext : text pad (.obj members) ++ rest =
          '\x7b' :: (textMembers pad members ++ '\x7d' :: rest) := by
        simp [text]
      rw [htext, read, skipBlanks_append hws (by simp [isBlank])]
      cases members with
      | nil => rfl
      | cons m ms =>
        have hmembers : readMembers fuel (textMembers pad (m :: ms) ++ '\x7d' :: rest) =
            some (m :: ms, rest) := by
          refine readMembers_textMembers pad (m :: ms) (by simp) ?_
          simp only [text, List.length_cons, List.length_append] at hfuel
          omega
        obtain ⟨tail, hquote⟩ : ∃ tail, textMembers pad (m :: ms) ++ '\x7d' :: rest = '"' :: tail :=
          ⟨_, rfl⟩
        simp only
        rw [hquote] at hmembers ⊢
        rw [skipBlanks_cons (by decide)]
        show (readMembers fuel ('"' :: tail)).map _ = _
        rw [hmembers]
        rfl

theorem readItems_textItems (pad : Padding) : ∀ (items : List Tree) {fuel : Nat}
    {ws rest : List Char}, items ≠ [] → (∀ c ∈ ws, isBlank c = true) →
    (textItems pad items).length < fuel →
    readItems fuel (ws ++ (textItems pad items ++ ']' :: rest)) = some (items, rest)
  | [], _, _, _, hne, _, _ => absurd rfl hne
  | item :: items, 0, _, _, _, _, hfuel => absurd hfuel (Nat.not_lt_zero _)
  | item :: items, fuel + 1, ws, rest, _, hws, hfuel => by
    rw [textItems_cons, List.length_append] at hfuel
    have hitem : read fuel (ws ++ (text pad item ++ (tailText pad (textItems pad items) ++
        ']' :: rest))) = some (item, tailText pad (textItems pad items) ++ ']' :: rest) :=
      read_text pad item hws (by omega) (delimited_tailText pad _ (.inl rfl))
    rw [textItems_cons, List.append_assoc, readItems, hitem]
    cases items with
    | nil => rfl
    | cons next items =>
      have hne := textItems_ne_nil pad next items
      simp only [tailText, if_neg hne, List.length_append, List.length_cons] at hfuel
      have hitems : readItems fuel (pad.text ++ (textItems pad (next :: items) ++ ']' :: rest)) =
          some (next :: items, rest) :=
        readItems_textItems pad (next :: items) (by simp) pad.blank (by omega)
      simp only [Option.bind_eq_bind, Option.bind_some, tailText_append pad hne,
        skipBlanks_cons (show isBlank ',' = false by decide), hitems]
      rfl

theorem readMembers_textMembers (pad : Padding) : ∀ (members : List (String × Tree)) {fuel : Nat}
    {rest : List Char}, members ≠ [] → (textMembers pad members).length ≤ fuel →
    readMembers fuel (textMembers pad members ++ '\x7d' :: rest) = some (members, rest)
  | [], _, _, hne, _ => absurd rfl hne
  | (key, value) :: members, 0, _, _, hfuel => by
    simp [textMembers, quote] at hfuel
  | (key, value) :: members, fuel + 1, rest, _, hfuel => by
    rw [textMembers_cons] at hfuel
    simp only [List.length_append, List.length_cons] at hfuel
    have hvalue : read fuel (pad.text ++ (text pad value ++
        (tailText pad (textMembers pad members) ++ '\x7d' :: rest))) =
          some (value, tailText pad (textMembers pad members) ++ '\x7d' :: rest) :=
      read_text pad value pad.blank (by omega) (delimited_tailText pad _ (.inr rfl))
    obtain ⟨tail, htext, hread⟩ := readString_quote key (':' :: (pad.text ++ (text pad value ++
      (tailText pad (textMembers pad members) ++ '\x7d' :: rest))))
    have hwhole : textMembers pad ((key, value) :: members) ++ '\x7d' :: rest = '"' :: tail := by
      rw [← htext, textMembers_cons]
      simp
    rw [hwhole, readMembers]
    simp only [hread, Option.bind_eq_bind, Option.bind_some,
      skipBlanks_cons (show isBlank ':' = false by decide), hvalue]
    cases members with
    | nil => rfl
    | cons m ms =>
      have hne := textMembers_ne_nil pad m ms
      simp only [tailText, if_neg hne, List.length_append, List.length_cons] at hfuel
      have hmembers : readMembers fuel (textMembers pad (m :: ms) ++ '\x7d' :: rest) =
          some (m :: ms, rest) :=
        readMembers_textMembers pad (m :: ms) (by simp) (by omega)
      rw [tailText_append pad hne, skipBlanks_cons (by decide)]
      simp only
      rw [skipBlanks_append pad.blank (by rintro c ⟨⟩; decide), hmembers]
      rfl

end

/-- **Round trip**: a value comes back from its text. -/
theorem parse_text (pad : Padding) (value : Tree) : parse (text pad value) = some value := by
  have hread : read ((text pad value).length + 1) ([] ++ (text pad value ++ [])) =
      some (value, []) :=
    read_text pad value (by simp) (Nat.le_succ _) (by simp [Delimited])
  rw [List.nil_append, List.append_nil] at hread
  rw [parse, hread]
  rfl

-- ════════════════════════════════════════════════════════════════════════
-- Printable texts
-- ════════════════════════════════════════════════════════════════════════

theorem printable_of_mem_tailText {pad : Padding} (hpad : ∀ c ∈ pad.text, Printable c)
    {text : List Char} (htext : ∀ c ∈ text, Printable c) {c : Char} (hc : c ∈ tailText pad text) :
    Printable c := by
  unfold tailText at hc
  split_ifs at hc
  · cases hc
  · rcases List.mem_append.mp hc with hc | hc
    · rcases List.mem_cons.mp hc with rfl | hc
      · decide
      · exact hpad c hc
    · exact htext c hc

/-- Between two brackets. -/
theorem printable_of_mem_between {text : List Char} (htext : ∀ c ∈ text, Printable c)
    {opening closing c : Char} (ho : Printable opening) (hcl : Printable closing)
    (hc : c ∈ opening :: text ++ [closing]) : Printable c := by
  rcases List.mem_append.mp hc with hc | hc
  · rcases List.mem_cons.mp hc with rfl | hc
    · exact ho
    · exact htext c hc
  · rw [List.mem_singleton.mp hc]
    exact hcl

mutual

/-- **Printable texts**: a text is printable, if its padding is. -/
theorem printable_of_mem_text {pad : Padding} (hpad : ∀ c ∈ pad.text, Printable c) :
    ∀ (value : Tree) {c : Char}, c ∈ text pad value → Printable c
  | .null, c, hc => by
    have hletters : ∀ c ∈ ['n', 'u', 'l', 'l'], Printable c :=
      List.forall_iff_forall_mem.mp (by decide)
    exact hletters c hc
  | .int _, _, hc => printable_of_mem_decimal hc
  | .str _, _, hc => printable_of_mem_quote hc
  | .arr items, _, hc =>
    printable_of_mem_between (fun _ => printable_of_mem_textItems hpad items) (by decide)
      (by decide) hc
  | .obj members, _, hc =>
    printable_of_mem_between (fun _ => printable_of_mem_textMembers hpad members) (by decide)
      (by decide) hc

theorem printable_of_mem_textItems {pad : Padding} (hpad : ∀ c ∈ pad.text, Printable c) :
    ∀ (items : List Tree) {c : Char}, c ∈ textItems pad items → Printable c
  | [], _, hc => by cases hc
  | item :: items, c, hc => by
    rw [textItems_cons] at hc
    rcases List.mem_append.mp hc with hc | hc
    · exact printable_of_mem_text hpad item hc
    · exact printable_of_mem_tailText hpad (fun _ => printable_of_mem_textItems hpad items) hc

theorem printable_of_mem_textMembers {pad : Padding} (hpad : ∀ c ∈ pad.text, Printable c) :
    ∀ (members : List (String × Tree)) {c : Char}, c ∈ textMembers pad members → Printable c
  | [], _, hc => by cases hc
  | (key, value) :: members, c, hc => by
    rw [textMembers_cons] at hc
    simp only [List.mem_append] at hc
    rcases hc with ((hc | hc) | hc) | hc
    · exact printable_of_mem_quote hc
    · rcases List.mem_cons.mp hc with rfl | hc
      · decide
      · exact hpad c hc
    · exact printable_of_mem_text hpad value hc
    · exact printable_of_mem_tailText hpad (fun _ => printable_of_mem_textMembers hpad members) hc

end

-- ════════════════════════════════════════════════════════════════════════
-- Values without arrays
-- ════════════════════════════════════════════════════════════════════════

mutual

def ofValue : JsonValue → Tree
  | .int n => .int n
  | .str s => .str s
  | .obj members => .obj (ofMembers members)

def ofMembers : List (String × JsonValue) → List (String × Tree)
  | [] => []
  | (key, value) :: members => (key, ofValue value) :: ofMembers members

end

mutual

def toValue : Tree → Option JsonValue
  | .null | .arr _ => none
  | .int n => some (.int n)
  | .str s => some (.str s)
  | .obj members => (toMembers members).map .obj

def toMembers : List (String × Tree) → Option (List (String × JsonValue))
  | [] => some []
  | (key, value) :: members => do
    let value ← toValue value
    let members ← toMembers members
    return (key, value) :: members

end

mutual

theorem toValue_ofValue : ∀ value : JsonValue, toValue (ofValue value) = some value
  | .int _ => rfl
  | .str _ => rfl
  | .obj members => by simp [ofValue, toValue, toMembers_ofMembers members]

theorem toMembers_ofMembers : ∀ members : List (String × JsonValue),
    toMembers (ofMembers members) = some members
  | [] => rfl
  | (key, value) :: members => by
    simp [ofMembers, toMembers, toValue_ofValue value, toMembers_ofMembers members]

end

mutual

/-- Without arrays the texts are those of `dumps`. -/
theorem text_ofValue (pad : Padding) : ∀ value : JsonValue, text pad (ofValue value) = dumps pad value
  | .int _ => rfl
  | .str _ => rfl
  | .obj members => by
    simp [ofValue, text, dumps, textMembers_ofMembers pad members]

theorem textMembers_ofMembers (pad : Padding) : ∀ members : List (String × JsonValue),
    textMembers pad (ofMembers members) = dumpMembers pad members
  | [] => rfl
  | [(key, value)] => by
    simp [ofMembers, textMembers, dumpMembers, text_ofValue pad value]
  | (key, value) :: (name, next) :: members => by
    have hne : textMembers pad (ofMembers ((name, next) :: members)) ≠ [] :=
      textMembers_ne_nil pad _ _
    show textMembers pad ((key, ofValue value) :: ofMembers ((name, next) :: members)) =
      quote key ++ ':' :: pad.text ++ dumps pad value ++
        (',' :: pad.text ++ dumpMembers pad ((name, next) :: members))
    rw [textMembers_cons, tailText, if_neg hne, text_ofValue pad value,
      textMembers_ofMembers pad ((name, next) :: members)]

end

-- ════════════════════════════════════════════════════════════════════════
-- Members
-- ════════════════════════════════════════════════════════════════════════

/-- `value[name]`: of several members of one name, the last. -/
def member (name : String) : Tree → Option Tree
  | .obj members => members.reverse.lookup name
  | _ => none

def asString : Tree → Option String
  | .str s => some s
  | _ => none

def asInt : Tree → Option Int
  | .int n => some n
  | _ => none

def asNat : Tree → Option Nat
  | .int (.ofNat n) => some n
  | _ => none

/-- The first item of an array. -/
def head : Tree → Option Tree
  | .arr (item :: _) => some item
  | _ => none

end Tree

end Json
