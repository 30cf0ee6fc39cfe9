import Mathlib.Algebra.BigOperators.Group.List.Basic
import Mathlib.Algebra.Ring.Nat
import Mathlib.Data.List.TakeWhile
/-!
# Server-Sent Events

An event stream is read line by line. Fields collect an event and a blank line
dispatches it. We read bytes, before any character decoding.
-/

namespace Sse

abbrev Text := List UInt8

/-! ## Lines -/

/-- `\n` and `\r` end a line, `\r\n` ends one line. -/
def IsBreak (c : UInt8) : Prop := c = 10 ∨ c = 13

instance instDecidableIsBreak (c : UInt8) : Decidable (IsBreak c) := inferInstanceAs (Decidable (_ ∨ _))

/-- The lines ended in a text, `cur` read of the first one. `cr` says that the
text follows a `\r`. -/
def lines : Bool → Text → Text → List Text
  | _, _, [] => []
  | cr, cur, c :: s =>
    if c = 10 then if cr then lines false [] s else cur :: lines false [] s
    else if c = 13 then cur :: lines true [] s
    else lines false (cur ++ [c]) s

def OneLine (s : Text) : Prop := ∀ c ∈ s, ¬ IsBreak c

instance instDecidableOneLine (s : Text) : Decidable (OneLine s) := List.decidableBAll (¬ IsBreak ·) s

theorem lines_break (cr : Bool) (cur s rest : Text) :
    lines cr cur (s ++ 10 :: rest) = lines cr cur (s ++ [10]) ++ lines false [] rest := by
  induction s generalizing cr cur with
  | nil => cases cr <;> simp [lines]
  | cons c s ih =>
    simp only [List.cons_append, lines]
    split
    · split <;> simp [ih]
    · split <;> simp [ih]

theorem lines_oneLine {s : Text} (h : OneLine s) (cur rest : Text) :
    lines false cur (s ++ rest) = lines false (cur ++ s) rest := by
  induction s generalizing cur with
  | nil => simp
  | cons c s ih =>
    have hc := h c (by simp)
    obtain ⟨h10, h13⟩ := not_or.1 hc
    rw [List.cons_append, lines, if_neg h10, if_neg h13, ih fun x hx => h x (by simp [hx])]
    simp

/-- Lines hold no more bytes than the text they are read from. -/
theorem sum_lines_le (cr : Bool) (cur s : Text) :
    ((lines cr cur s).map List.length).sum ≤ cur.length + (s.filter (¬ IsBreak ·)).length := by
  induction s generalizing cr cur with
  | nil => simp [lines]
  | cons c s ih =>
    unfold lines
    split
    · rename_i hc
      have hrest := ih false []
      rw [List.filter_cons_of_neg (by simp [IsBreak, hc])]
      cases cr with
      | false =>
        simp only [Bool.false_eq_true, if_false, List.map_cons, List.sum_cons, List.length_nil] at hrest ⊢
        omega
      | true =>
        simp only [if_true, List.length_nil] at hrest ⊢
        omega
    · split
      · rename_i _ hc
        have hrest := ih true []
        rw [List.filter_cons_of_neg (by simp [IsBreak, hc])]
        simp only [List.map_cons, List.sum_cons, List.length_nil] at hrest ⊢
        omega
      · rename_i h10 h13
        have hrest := ih false (cur ++ [c])
        rw [List.filter_cons_of_pos (by simp [IsBreak, h10, h13])]
        simp only [List.length_append, List.length_cons, List.length_nil] at hrest ⊢
        omega

/-! ## Fields -/

structure Event where
  type : Text
  data : Text
  lastEventId : Text
  deriving DecidableEq

/-- The buffers: `data` has a `\n` after each line. -/
structure Buffers where
  data : Text
  type : Text
  lastEventId : Text

/-- `message` -/
def message : Text := [109, 101, 115, 115, 97, 103, 101]

/-- `data` -/
def dataName : Text := [100, 97, 116, 97]

/-- `id` -/
def idName : Text := [105, 100]

/-- `event` -/
def eventName : Text := [101, 118, 101, 110, 116]

/-- What a blank line dispatches: nothing without data. -/
def Buffers.dispatch (b : Buffers) : List Event :=
  if b.data = [] then [] else [⟨if b.type = [] then message else b.type, b.data.dropLast, b.lastEventId⟩]

/-- A line before its first colon. -/
def fieldName (line : Text) : Text := line.takeWhile (· ≠ 58)

/-- And after it, without one leading space. -/
def fieldValue (line : Text) : Text :=
  match line.dropWhile (· ≠ 58) with
  | 58 :: 32 :: v => v
  | _ :: v => v
  | [] => []

/-- A field sets a buffer. Other names, and comments, whose name is empty, do nothing. -/
def Buffers.field (b : Buffers) (line : Text) : Buffers :=
  if fieldName line = dataName then { b with data := b.data ++ fieldValue line ++ [10] }
  else if fieldName line = idName then
    if 0 ∈ fieldValue line then b else { b with lastEventId := fieldValue line }
  else if fieldName line = eventName then { b with type := fieldValue line }
  else b

def Buffers.line (b : Buffers) (line : Text) : Buffers :=
  if line = [] then { b with data := [], type := [] } else b.field line

/-- The events dispatched by some lines. -/
def Buffers.events : Buffers → List Text → List Event
  | _, [] => []
  | b, l :: ls => (if l = [] then b.dispatch else []) ++ (b.line l).events ls

def Buffers.empty : Buffers := ⟨[], [], []⟩

/-- The events of a stream so far. -/
def parse (text : Text) : List Event := Buffers.empty.events (lines false [] text)

theorem events_append (b : Buffers) (ls ls' : List Text) :
    b.events (ls ++ ls') = b.events ls ++ (ls.foldl Buffers.line b).events ls' := by
  induction ls generalizing b with
  | nil => rfl
  | cons l ls ih => simp [Buffers.events, ih]

/-! ## How much data the events hold -/

/-- The bytes of data in some events. -/
def size (evs : List Event) : Nat := (evs.map fun e => e.data.length).sum

@[simp] theorem size_nil : size [] = 0 := rfl

@[simp] theorem size_append (evs evs' : List Event) : size (evs ++ evs') = size evs + size evs' := by
  simp [size]

theorem size_dispatch (b : Buffers) : size b.dispatch = b.data.length - 1 := by
  unfold Buffers.dispatch
  split
  · simp [*]
  · simp [size]

theorem length_fieldValue (line : Text) : (fieldName line).length + (fieldValue line).length ≤ line.length := by
  have hlen : (line.takeWhile (· ≠ 58)).length + (line.dropWhile (· ≠ 58)).length = line.length := by
    rw [← List.length_append, List.takeWhile_append_dropWhile]
  unfold fieldName fieldValue
  split
  · rename_i h
    rw [h] at hlen
    simp only [List.length_cons] at hlen
    omega
  · rename_i h
    rw [h] at hlen
    simp only [List.length_cons] at hlen
    omega
  · simp only [List.length_nil] at hlen ⊢
    omega

/-- A line adds no more data than it is long. -/
theorem length_field_le (b : Buffers) (line : Text) : (b.field line).data.length ≤ b.data.length + line.length := by
  have hv := length_fieldValue line
  unfold Buffers.field
  split
  · rename_i h
    rw [h] at hv
    simp only [dataName, List.length_append, List.length_cons, List.length_nil] at hv ⊢
    omega
  · split
    · split <;> simp
    · split <;> simp

theorem field_data_ne_nil {b : Buffers} (h : b.data ≠ []) (line : Text) : (b.field line).data ≠ [] := by
  unfold Buffers.field
  split
  · simp
  · split
    · split <;> exact h
    · split <;> exact h

theorem size_events_le (b : Buffers) (ls : List Text) :
    size (b.events ls) ≤ b.data.length + (ls.map List.length).sum := by
  induction ls generalizing b with
  | nil => simp [Buffers.events]
  | cons l ls ih =>
    have hrest := ih (b.line l)
    rw [Buffers.events, size_append, List.map_cons, List.sum_cons]
    by_cases hl : l = []
    · rw [Buffers.line, if_pos hl] at hrest ⊢
      rw [if_pos hl, size_dispatch]
      simp only [List.length_nil] at hrest
      omega
    · have hf := length_field_le b l
      rw [Buffers.line, if_neg hl] at hrest ⊢
      rw [if_neg hl, size_nil]
      omega

/-- The `\n` after the last line of data is not part of it. -/
theorem size_events_lt {b : Buffers} (hb : b.data ≠ []) {ls : List Text} (h : [] ∈ ls) :
    size (b.events ls) < b.data.length + (ls.map List.length).sum := by
  induction ls generalizing b with
  | nil => simp at h
  | cons l ls ih =>
    rw [Buffers.events, size_append, List.map_cons, List.sum_cons]
    by_cases hl : l = []
    · have hrest := size_events_le (b.line l) ls
      have hpos := List.length_pos_iff.2 hb
      rw [Buffers.line, if_pos hl] at hrest ⊢
      rw [if_pos hl, size_dispatch]
      simp only [List.length_nil] at hrest
      omega
    · have hmem : [] ∈ ls := (List.mem_cons.1 h).resolve_left (Ne.symm hl)
      have hrest := ih (b := b.line l) (by rw [Buffers.line, if_neg hl]; exact field_data_ne_nil hb l) hmem
      have hf := length_field_le b l
      rw [Buffers.line, if_neg hl] at hrest ⊢
      rw [if_neg hl, size_nil]
      omega

/-! ## Records -/

/-- `<name>: <value>` -/
def field (name value : Text) : Text := name ++ 58 :: 32 :: value

theorem ne_colon {name : Text} (h : 58 ∉ name) : ∀ c ∈ name, decide (c ≠ 58) = true := by
  intro c hc
  have hne : c ≠ 58 := ne_of_mem_of_not_mem hc h
  simpa using hne

theorem fieldName_field {name : Text} (h : 58 ∉ name) (v : Text) : fieldName (field name v) = name := by
  rw [fieldName, field, List.takeWhile_append_of_pos (ne_colon h), List.takeWhile_cons_of_neg (by simp),
    List.append_nil]

theorem fieldValue_field {name : Text} (h : 58 ∉ name) (v : Text) : fieldValue (field name v) = v := by
  rw [fieldValue, field, List.dropWhile_append_of_pos (ne_colon h), List.dropWhile_cons_of_neg (by simp)]
  rfl

theorem oneLine_field {name v : Text} (hn : OneLine name) (hv : OneLine v) : OneLine (field name v) := by
  intro c hc
  rcases List.mem_append.1 hc with hc | hc
  · exact hn c hc
  · rcases List.mem_cons.1 hc with rfl | hc
    · decide
    · rcases List.mem_cons.1 hc with rfl | hc
      · decide
      · exact hv c hc

theorem oneLine_idName : OneLine idName := by decide

theorem oneLine_dataName : OneLine dataName := by decide

theorem line_id (b : Buffers) {id : Text} (h : 0 ∉ id) : b.line (field idName id) = { b with lastEventId := id } := by
  rw [Buffers.line, if_neg (by simp [field]), Buffers.field, fieldName_field (by decide), fieldValue_field (by decide),
    if_neg (by decide), if_pos rfl, if_neg h]

theorem line_data (b : Buffers) (v : Text) : b.line (field dataName v) = { b with data := b.data ++ v ++ [10] } := by
  rw [Buffers.line, if_neg (by simp [field]), Buffers.field, fieldName_field (by decide), fieldValue_field (by decide),
    if_pos rfl]

def record (id data : Text) : Text := field idName id ++ 10 :: (field dataName data ++ [10, 10])

/-- An id that a stream can carry. -/
def IsId (id : Text) : Prop := OneLine id ∧ 0 ∉ id

/-- Buffers after a blank line. -/
def Buffers.Blank (b : Buffers) : Prop := b.data = [] ∧ b.type = []

theorem lines_line {s : Text} (h : OneLine s) (rest : Text) : lines false [] (s ++ 10 :: rest) = s :: lines false [] rest := by
  rw [lines_oneLine h, lines, if_pos rfl]
  rfl

/-- A text that ends in two line breaks ends in a blank line. -/
theorem lines_blank (cr : Bool) (cur s : Text) :
    lines cr cur (s ++ [10, 10]) = lines cr cur (s ++ [10]) ++ [[]] := lines_break cr cur s [10]

theorem blank_after (b : Buffers) (ls : List Text) : ((ls ++ [[]]).foldl Buffers.line b).Blank := by
  rw [List.foldl_concat, Buffers.line, if_pos rfl]
  exact ⟨rfl, rfl⟩

/-- The lines of a record, and of what follows. -/
theorem lines_record {id : Text} (hid : OneLine id) (data rest : Text) :
    lines false [] (record id data ++ rest) =
      field idName id :: (lines false [] (field dataName data ++ [10, 10]) ++ lines false [] rest) := by
  have hbreak : field dataName data ++ [10, 10] ++ rest = (field dataName data ++ [10]) ++ 10 :: rest := by simp
  have hblank : (field dataName data ++ [10]) ++ [10] = field dataName data ++ [10, 10] := by simp
  rw [record, List.append_assoc, List.cons_append, lines_line (oneLine_field oneLine_idName hid), hbreak, lines_break,
    hblank]

/-- A record whose data is one line is one event. -/
theorem events_record {id data : Text} (hid : IsId id) (hdata : OneLine data) {b : Buffers} (hb : b.Blank) :
    b.events (field idName id :: lines false [] (field dataName data ++ [10, 10])) = [⟨message, data, id⟩] := by
  have hlines : lines false [] (field dataName data ++ [10, 10]) = [field dataName data, []] := by
    rw [lines_line (oneLine_field oneLine_dataName hdata)]
    rfl
  rw [hlines]
  simp only [Buffers.events, line_id b hid.2, line_data, hb.1, hb.2]
  simp [field, Buffers.dispatch]

theorem exists_first_break {s : Text} (h : ¬ OneLine s) :
    ∃ first c rest, s = first ++ c :: rest ∧ OneLine first ∧ IsBreak c := by
  induction s with
  | nil => exact absurd (by simp [OneLine]) h
  | cons c s ih =>
    by_cases hc : IsBreak c
    · exact ⟨[], c, s, rfl, by simp [OneLine], hc⟩
    · have hs : ¬ OneLine s := by
        intro hs
        exact h (List.forall_mem_cons.2 ⟨hc, hs⟩)
      obtain ⟨first, b, rest, rfl, hfirst, hb⟩ := ih hs
      exact ⟨c :: first, b, rest, rfl, List.forall_mem_cons.2 ⟨hc, hfirst⟩, hb⟩

theorem lines_cons_break {c : UInt8} (hc : IsBreak c) (cur s : Text) :
    ∃ cr, lines false cur (c :: s) = cur :: lines cr [] s := by
  rcases hc with rfl | rfl
  · exact ⟨false, rfl⟩
  · exact ⟨true, rfl⟩

/-- A record whose data breaks a line loses some of it. -/
theorem size_record_lt {id data : Text} (hid : IsId id) (hdata : ¬ OneLine data) (b : Buffers) (hb : b.Blank) :
    size (b.events (field idName id :: lines false [] (field dataName data ++ [10, 10]))) < data.length := by
  obtain ⟨first, c, s, rfl, hfirst, hc⟩ := exists_first_break hdata
  obtain ⟨cr, hlines⟩ := lines_cons_break hc (field dataName first) (s ++ [10, 10])
  have hsplit : lines false [] (field dataName (first ++ c :: s) ++ [10, 10]) =
      field dataName first :: lines cr [] (s ++ [10, 10]) := by
    rw [← hlines, ← List.nil_append (field dataName first), ← lines_oneLine (oneLine_field oneLine_dataName hfirst)]
    simp [field]
  -- the first line is in the buffer, and a blank line comes
  have hblank : [] ∈ lines cr [] (s ++ [10, 10]) := by simp [lines_blank]
  have hlt := size_events_lt (b := ⟨first ++ [10], [], id⟩) (by simp) hblank
  have hsum := sum_lines_le cr [] (s ++ [10, 10])
  have hs := List.length_filter_le (¬ IsBreak ·) s
  rw [hsplit]
  simp only [Buffers.events, line_id b hid.2, line_data, hb.1, hb.2]
  simp only [field, List.append_eq_nil_iff, reduceCtorEq, and_false, if_false, List.nil_append]
  simp [IsBreak] at hsum hlt hs ⊢
  omega

/-! ## Streams -/

/-- Records of ids and data. -/
def records (rs : List (Text × Text)) : Text := rs.flatMap fun r => record r.1 r.2

theorem blank_record (b : Buffers) (id data : Text) :
    ((field idName id :: lines false [] (field dataName data ++ [10, 10])).foldl Buffers.line b).Blank := by
  rw [lines_blank, ← List.cons_append]
  exact blank_after b _

theorem events_records_cons {id : Text} (hid : OneLine id) (data : Text) (rs : List (Text × Text)) (b : Buffers) :
    ∃ b' : Buffers, b'.Blank ∧ b.events (lines false [] (records ((id, data) :: rs))) =
      b.events (field idName id :: lines false [] (field dataName data ++ [10, 10])) ++
        b'.events (lines false [] (records rs)) := by
  refine ⟨_, blank_record b id data, ?_⟩
  rw [records, List.flatMap_cons, lines_record hid, ← List.cons_append, events_append]
  rfl

/-- Data of one line each comes through, one event a record. -/
theorem events_records {rs : List (Text × Text)} (hid : ∀ r ∈ rs, IsId r.1) (hdata : ∀ r ∈ rs, OneLine r.2)
    {b : Buffers} (hb : b.Blank) :
    b.events (lines false [] (records rs)) = rs.map fun r => ⟨message, r.2, r.1⟩ := by
  induction rs generalizing b with
  | nil => rfl
  | cons r rs ih =>
    obtain ⟨hid, hids⟩ := List.forall_mem_cons.1 hid
    obtain ⟨hdata, hdatas⟩ := List.forall_mem_cons.1 hdata
    obtain ⟨b', hb', he⟩ := events_records_cons hid.1 r.2 rs b
    rw [he, events_record hid hdata hb, ih hids hdatas hb']
    rfl

theorem size_records {rs : List (Text × Text)} (hid : ∀ r ∈ rs, IsId r.1) {b : Buffers} (hb : b.Blank) :
    size (b.events (lines false [] (records rs))) ≤ (rs.map fun r => r.2.length).sum ∧
      (size (b.events (lines false [] (records rs))) = (rs.map fun r => r.2.length).sum →
        ∀ r ∈ rs, OneLine r.2) := by
  induction rs generalizing b with
  | nil => simp [records, lines, Buffers.events]
  | cons r rs ih =>
    obtain ⟨hid, hids⟩ := List.forall_mem_cons.1 hid
    obtain ⟨b', hb', he⟩ := events_records_cons hid.1 r.2 rs b
    obtain ⟨hle, heq⟩ := ih hids hb'
    rw [he, size_append, List.map_cons, List.sum_cons]
    by_cases hdata : OneLine r.2
    · have hone : size [(⟨message, r.2, r.1⟩ : Event)] = r.2.length := by simp [size]
      rw [events_record hid hdata hb, hone]
      exact ⟨by omega, fun h => List.forall_mem_cons.2 ⟨hdata, heq (by omega)⟩⟩
    · have hlt := size_record_lt hid hdata b hb
      exact ⟨by omega, fun h => absurd h (by omega)⟩

end Sse
