import OpenModel.Lib.Lines

/-!
# Event streams

The text of a stream of events, as a browser's `EventSource` reads it. An event is the values of
its `data` fields up to an empty line; other fields and comments are passed over, and what follows
the last empty line is no event. Lines end with a line feed.

An event that is written in one `data` field comes back if it has no line feed. A reader that has
received a part of the text has received a part of the events: what is cut off is never taken for
an event.

## Main results

- `readEvents_append`: more text is more events
- `readEvents_flatMap_event`: the events come back from their text
- `readEvents_of_prefix`: a part of the text gives a part of the events
-/

namespace EventStream

open Lines (completeLines linesFrom unfinished)

/-- The text of an event with one `data` field. -/
def event (data : List Char) : List Char := "data: ".toList ++ data ++ "\n\n".toList

/-- The value of a line that is a `data` field. -/
def dataField (line : List Char) : Option (List Char) :=
  if "data:".toList.isPrefixOf line then
    let value := (line.drop 5).dropLast
    some (if value.head? = some ' ' then value.drop 1 else value)
  else none

/-- The events of some lines; `data` are the values of the event that is being read. -/
def dispatch (data : List (List Char)) : List (List Char) → List (List Char)
  | [] => []
  | line :: lines =>
    if line = ['\n'] then
      (if data = [] then [] else [['\n'].intercalate data]) ++ dispatch [] lines
    else
      match dataField line with
      | some value => dispatch (data ++ [value]) lines
      | none => dispatch data lines

/-- The values that are being read behind some lines. -/
def pending (data : List (List Char)) : List (List Char) → List (List Char)
  | [] => data
  | line :: lines =>
    if line = ['\n'] then pending [] lines
    else
      match dataField line with
      | some value => pending (data ++ [value]) lines
      | none => pending data lines

def readEvents (text : List Char) : List (List Char) := dispatch [] (completeLines '\n' text)

variable {data : List Char} {events : List (List Char)} {text rest : List Char}

theorem dispatch_append (values lines more : List (List Char)) :
    dispatch values (lines ++ more) =
      dispatch values lines ++ dispatch (pending values lines) more := by
  induction lines generalizing values with
  | nil => rfl
  | cons line lines ih =>
    rw [List.cons_append, dispatch, dispatch, pending]
    split_ifs
    · rw [ih, List.append_assoc]
    · rw [ih, List.append_assoc]
    · split
      · exact ih _
      · exact ih _

/-- **More text** is more events. -/
theorem readEvents_append (text more : List Char) : ∃ later,
    readEvents (text ++ more) = readEvents text ++ later := by
  unfold readEvents
  rw [Lines.completeLines_append, dispatch_append]
  exact ⟨_, rfl⟩

/-- The line of an event's only field. -/
theorem dataField_line (data : List Char) :
    dataField ("data: ".toList ++ data ++ ['\n']) = some data := by
  have hvalue : (("data: ".toList ++ data ++ ['\n']).drop 5).dropLast = ' ' :: data :=
    List.dropLast_concat
  unfold dataField
  rw [if_pos (by simp), hvalue]
  rfl

/-- **One event** in front of a text. -/
theorem readEvents_event_append (h : '\n' ∉ data) (text : List Char) :
    readEvents (event data ++ text) = data :: readEvents text := by
  have hbody : '\n' ∉ "data: ".toList ++ data := by
    simp [h]
  have hlines : event data ++ text =
      ("data: ".toList ++ data) ++ ['\n'] ++ ([] ++ ['\n'] ++ text) := by
    simp [event]
  have hne : "data: ".toList ++ data ++ ['\n'] ≠ ['\n'] := by
    simp
  unfold readEvents
  rw [hlines, Lines.completeLines_line_append hbody,
    Lines.completeLines_line_append List.not_mem_nil, dispatch, if_neg hne, dataField_line]
  simp [dispatch, List.intercalate]

/-- **Round trip**: events without line feeds come back from their text. -/
theorem readEvents_flatMap_event (h : ∀ data ∈ events, '\n' ∉ data) :
    readEvents (events.flatMap event) = events := by
  induction events with
  | nil => rfl
  | cons data events ih =>
    rw [List.flatMap_cons, readEvents_event_append (h data List.mem_cons_self),
      ih fun d hd => h d (List.mem_cons_of_mem _ hd)]

/-- **Cut off**: a part of the text gives a part of the events. -/
theorem readEvents_of_prefix (h : ∀ data ∈ events, '\n' ∉ data)
    (hbegins : text <+: events.flatMap event) : readEvents text <+: events := by
  obtain ⟨more, hmore⟩ := hbegins
  obtain ⟨later, hlater⟩ := readEvents_append text more
  rw [hmore, readEvents_flatMap_event h] at hlater
  exact ⟨later, hlater.symm⟩

/-- What was received as a whole was read. -/
theorem prefix_readEvents (h : ∀ data ∈ events, '\n' ∉ data)
    (hbegins : events.flatMap event <+: text) : events <+: readEvents text := by
  obtain ⟨more, rfl⟩ := hbegins
  obtain ⟨later, hlater⟩ := readEvents_append (events.flatMap event) more
  rw [readEvents_flatMap_event h] at hlater
  exact ⟨later, hlater.symm⟩

end EventStream
