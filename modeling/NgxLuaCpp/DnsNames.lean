import NgxLuaCpp.Dns
import NgxLuaCpp.Lib.DnsWire
import NgxLuaCpp.Lib.LuaPattern
/-!
# Names in queries

`encode_name` writes any length below 256 before a label. `decode_name` takes
a length of 192 or more for a compression pointer.
-/

namespace NgxLuaCpp.Dns
open DnsWire

/-! ## Building a query -/

/-- `string.char` of one number, which raises an error above 255. -/
def stringChar (n : Nat) : Option UInt8 := if n < 256 then some (UInt8.ofNat n) else none

/-- A `.` separates labels. -/
def isDot (c : UInt8) : Bool := c == 46

/-- `([^.]+)%.`. -/
def labelPattern : List (LuaPattern.Item UInt8) := [.many fun c => !isDot c, .one isDot]

/-- The name as the loop of `encode_name` sees it, with a dot at its end. -/
def withDot (name : Bytes) : Bytes := if name.getLast? = some 46 then name else name ++ txt "."

def encodeLabel (captures : List Bytes) : Option Bytes := do
  let label := captures.headD []
  let len ← stringChar label.length
  return len :: label

/-- `encode_name`: each label after its length, then the root; none is the error raised for a
length above 255. -/
def encodeName (name : Bytes) : Option Bytes := do
  let out ← (LuaPattern.gmatch labelPattern (withDot name)).mapM encodeLabel
  return out.flatten ++ [0]

/-- `M.build_query`; `none` is an error raised. -/
def buildQuery (name : Bytes) (qtype : Option Nat) : Option Bytes := do
  let qtype := qtype.getD 1
  let header : Bytes := [0x12, 0x34, 0x01, 0x00, 0x00, 0x01, 0x00, 0x00, 0x00, 0x00, 0x00, 0x00]
  let q ← encodeName name
  let qt := [b16 (qtype >>> 8), b16 qtype, 0x00, 0x01]
  return header ++ q ++ qt

/-! ## The loop of `decode_name` -/

theorem byte_append (pre : Bytes) (c : UInt8) (rest : Bytes) : byte (pre ++ c :: rest) (pre.length + 1) = some c := by
  rw [byte, Nat.add_sub_cancel, List.getElem?_append_right (Nat.le_refl _), Nat.sub_self, List.getElem?_cons_zero]

theorem pointer_iff : ∀ n < 256, UInt8.ofNat n &&& 0xc0 = 0xc0 ↔ 192 ≤ n := by decide +kernel

theorem length_ne_zero : ∀ n < 256, UInt8.ofNat n = 0 ↔ n = 0 := by decide +kernel

theorem decodeLabels_of_none {msg : Bytes} {offset : Nat} (h : byte msg offset = none) (acc : List Bytes) :
    decodeLabels msg offset acc = none := by
  rw [decodeLabels]
  split
  · rfl
  · simp_all

/-- A pass of the loop on a byte that is there. -/
theorem decodeLabels_of_some {msg : Bytes} {offset : Nat} {len : UInt8} (h : byte msg offset = some len)
    (acc : List Bytes) :
    decodeLabels msg offset acc = if len = 0 then some (acc, offset + 1)
      else if len &&& 0xc0 = 0xc0 then some (acc, offset + 2)
      else decodeLabels msg (offset + 1 + len.toNat) (acc ++ [sub msg (offset + 1) (offset + len.toNat)]) := by
  rw [decodeLabels]
  split
  · simp_all
  · rename_i len' h'
    obtain rfl : len = len' := by simpa [h] using h'
    rfl

theorem decodeLabels_root (pre rest : Bytes) (acc : List Bytes) :
    decodeLabels (pre ++ 0 :: rest) (pre.length + 1) acc = some (acc, pre.length + 2) := by
  rw [decodeLabels_of_some (byte_append pre 0 rest), if_pos rfl]

theorem decodeLabels_pointer (pre : Bytes) {c : UInt8} (hc : c &&& 0xc0 = 0xc0) (rest : Bytes) (acc : List Bytes) :
    decodeLabels (pre ++ c :: rest) (pre.length + 1) acc = some (acc, pre.length + 3) := by
  have hne : c ≠ 0 := by
    rintro rfl
    exact absurd hc (by decide)
  rw [decodeLabels_of_some (byte_append pre c rest), if_neg hne, if_pos hc]

/-- A label shorter than 192 is taken, whatever is before and after it. -/
theorem decodeLabels_label (pre : Bytes) {l : Bytes} (h0 : 0 < l.length) (h1 : l.length < 192) (rest : Bytes)
    (acc : List Bytes) :
    decodeLabels (pre ++ (label l ++ rest)) (pre.length + 1) acc
      = decodeLabels (pre ++ (label l ++ rest)) (pre.length + (label l).length + 1) (acc ++ [l]) := by
  have hnat : (UInt8.ofNat l.length).toNat = l.length := by
    rw [UInt8.toNat_ofNat', Nat.mod_eq_of_lt (by omega)]
  have hsub : sub (pre ++ (label l ++ rest)) (pre.length + 1 + 1) (pre.length + 1 + l.length) = l := by
    have hdrop : (pre ++ (label l ++ rest)).drop (pre.length + 1) = l ++ rest := by
      rw [List.drop_append, List.drop_eq_nil_of_le (by omega), Nat.add_sub_cancel_left]
      rfl
    rw [sub, Nat.add_sub_cancel, hdrop, List.take_append_of_le_length (by omega), List.take_of_length_le (by omega)]
  have hbyte : byte (pre ++ (label l ++ rest)) (pre.length + 1) = some (UInt8.ofNat l.length) := byte_append pre _ _
  rw [decodeLabels_of_some hbyte, if_neg (by rw [length_ne_zero _ (by omega)]; omega),
    if_neg (by rw [pointer_iff _ (by omega)]; omega), hnat, hsub, length_label]
  congr 1
  omega

/-- The loop of `decode_name` reads back labels below 192 bytes. -/
theorem decodeLabels_labels {ls : List Bytes} (hls : ∀ l ∈ ls, 0 < l.length ∧ l.length < 192) (pre rest : Bytes)
    (acc : List Bytes) :
    decodeLabels (pre ++ (labels ls ++ rest)) (pre.length + 1) acc
      = decodeLabels (pre ++ (labels ls ++ rest)) (pre.length + (labels ls).length + 1) (acc ++ ls) := by
  induction ls generalizing pre acc with
  | nil => simp
  | cons l ls ih =>
    have hl := hls l (by simp)
    have e : labels (l :: ls) ++ rest = label l ++ (labels ls ++ rest) := by
      rw [labels_cons, label, List.cons_append, List.cons_append, List.append_assoc]
    have ih := ih (fun x hx => hls x (by simp [hx])) (pre ++ label l) (acc ++ [l])
    rw [List.append_assoc, List.length_append] at ih
    rw [e, decodeLabels_label pre hl.1 hl.2, ih, labels_cons, length_label, List.append_assoc, List.singleton_append]
    congr 1
    simp only [List.length_cons, List.length_append]
    omega

/-! ## What `encode_name` writes -/

/-- A name of these labels, with or without its trailing dot. -/
def nameOf (ls : List Bytes) (trailing : Bool) : Bytes :=
  (txt ".").intercalate ls ++ if trailing then txt "." else []

theorem txt_dot : txt "." = [46] := by decide

theorem intercalate_dot {ls : List Bytes} (h : ls ≠ []) : (txt ".").intercalate ls ++ txt "." = ls.flatMap (· ++ [46]) := by
  rw [txt_dot]
  induction ls with
  | nil => exact absurd rfl h
  | cons l ls ih =>
    cases ls with
    | nil => simp
    | cons l' ls =>
      rw [List.flatMap_cons, ← ih (by simp)]
      simp [List.intercalate, List.intersperse]

theorem getLast?_intercalate {ls : List Bytes} (hne : ls ≠ []) (hls : ∀ l ∈ ls, l ≠ [] ∧ 46 ∉ l) :
    ((txt ".").intercalate ls).getLast? ≠ some 46 := by
  obtain ⟨init, l, rfl⟩ := (List.eq_nil_or_concat' ls).resolve_left hne
  obtain ⟨hl, hdot⟩ := hls l (by simp)
  have e := intercalate_dot hne
  rw [List.flatMap_append, List.flatMap_singleton, ← List.append_assoc, txt_dot] at e
  rw [txt_dot, List.append_cancel_right e, List.getLast?_append_of_ne_nil _ hl]
  exact fun h => hdot (List.mem_of_getLast? h)

theorem withDot_nameOf {ls : List Bytes} (hne : ls ≠ []) (hls : ∀ l ∈ ls, l ≠ [] ∧ 46 ∉ l) (trailing : Bool) :
    withDot (nameOf ls trailing) = ls.flatMap (· ++ [46]) := by
  cases trailing with
  | false =>
    have e : nameOf ls false = (txt ".").intercalate ls := List.append_nil _
    rw [e, withDot, if_neg (getLast?_intercalate hne hls), intercalate_dot hne]
  | true =>
    have e : nameOf ls true = (txt ".").intercalate ls ++ txt "." := rfl
    rw [e, withDot, if_pos (by simp [txt_dot]), intercalate_dot hne]

theorem gmatch_nameOf {ls : List Bytes} (hne : ls ≠ []) (hls : ∀ l ∈ ls, l ≠ [] ∧ 46 ∉ l) (trailing : Bool) :
    LuaPattern.gmatch labelPattern (withDot (nameOf ls trailing)) = ls.map fun l => [l] := by
  rw [withDot_nameOf hne hls, labelPattern]
  apply LuaPattern.gmatch_delimited
  · intro c hc
    simp [hc]
  · rfl
  · exact fun l hl => (hls l hl).1
  · intro l hl c hc
    have : c ≠ 46 := fun e => (hls l hl).2 (e ▸ hc)
    simpa [isDot] using this

/-- The labels are encoded if none is longer than 255 bytes. -/
theorem mapM_encodeLabel (ls : List Bytes) :
    (ls.map fun l => [l]).mapM encodeLabel = if ∀ l ∈ ls, l.length < 256 then some (ls.map label) else none := by
  induction ls with
  | nil => rfl
  | cons l ls ih =>
    have hl : encodeLabel [l] = if l.length < 256 then some (label l) else none := by
      rw [encodeLabel, List.headD_cons, stringChar]
      by_cases h : l.length < 256
      · rw [if_pos h, if_pos h]
        rfl
      · rw [if_neg h, if_neg h]
        rfl
    have hcons : (∀ x ∈ l :: ls, x.length < 256) ↔ l.length < 256 ∧ ∀ x ∈ ls, x.length < 256 := List.forall_mem_cons
    rw [List.map_cons, List.mapM_cons, ih, hl]
    by_cases h : l.length < 256
    · by_cases h' : ∀ l ∈ ls, l.length < 256
      · rw [if_pos h, if_pos h', if_pos (hcons.2 ⟨h, h'⟩)]
        rfl
      · rw [if_pos h, if_neg h', if_neg (fun hall => h' (hcons.1 hall).2)]
        rfl
    · rw [if_neg h, if_neg (fun hall => h (hcons.1 hall).1)]
      rfl

theorem encodeName_nameOf {ls : List Bytes} (hne : ls ≠ []) (hls : ∀ l ∈ ls, l ≠ [] ∧ 46 ∉ l) (trailing : Bool) :
    encodeName (nameOf ls trailing) = if ∀ l ∈ ls, l.length < 256 then some (labels ls ++ [0]) else none := by
  rw [encodeName, gmatch_nameOf hne hls, mapM_encodeLabel]
  split
  · simp [labels, List.flatMap_def]
  · rfl

/-! ## The round trip -/

/-- If `build_query` raises no error, `decode_name` reads the name back and
stops where the type and class stand. -/
def RoundTrips (name : Bytes) (qtype : UInt16) : Prop :=
  ∀ query, buildQuery name (some qtype.toNat) = some query →
    ∃ offset, decodeName query 13 = some (withDot name, offset) ∧ query.drop (offset - 1) = be16 qtype ++ [0, 1]

def queryHeader : Bytes := [0x12, 0x34, 0x01, 0x00, 0x00, 0x01, 0x00, 0x00, 0x00, 0x00, 0x00, 0x00]

theorem b16_eq (n : Nat) : b16 n = UInt8.ofNat n := by
  rw [b16, show 0xff = 2 ^ 8 - 1 from rfl, Nat.and_two_pow_sub_one_eq_mod]
  exact UInt8.ofNat_mod_size

theorem buildQuery_nameOf {ls : List Bytes} (hne : ls ≠ []) (hls : ∀ l ∈ ls, l ≠ [] ∧ 46 ∉ l) (trailing : Bool)
    (qtype : UInt16) :
    buildQuery (nameOf ls trailing) (some qtype.toNat) = if ∀ l ∈ ls, l.length < 256 then
      some (queryHeader ++ (labels ls ++ 0 :: (be16 qtype ++ [0, 1]))) else none := by
  rw [buildQuery, encodeName_nameOf hne hls, Option.getD_some, b16_eq, b16_eq, Nat.shiftRight_eq_div_pow]
  split
  · simp [queryHeader, be16]
  · rfl

/-- Labels below 192 bytes are read back. -/
theorem decodeName_short {ls : List Bytes} (hne : ls ≠ []) (hls : ∀ l ∈ ls, 0 < l.length ∧ l.length < 192)
    (rest : Bytes) :
    decodeName (queryHeader ++ (labels ls ++ 0 :: rest)) 13
      = some (ls.flatMap (· ++ [46]), 14 + (labels ls).length) := by
  have h := decodeLabels_labels hls queryHeader (0 :: rest) []
  have hroot := decodeLabels_root (queryHeader ++ labels ls) rest ls
  rw [List.append_assoc, List.length_append] at hroot
  rw [decodeName, show 13 = queryHeader.length + 1 from rfl, h, List.nil_append, hroot]
  simp only [Option.bind_eq_bind, Option.bind_some, if_neg hne, intercalate_dot hne]
  rw [show queryHeader.length = 12 from rfl]
  congr 2
  omega

/-- At a length of 192 or more the name ends. -/
theorem decodeName_long {ls : List Bytes} (hls : ∀ l ∈ ls, 0 < l.length ∧ l.length < 192) {l : Bytes}
    (h192 : 192 ≤ l.length) (h256 : l.length < 256) (rest : Bytes) {r : Bytes × Nat}
    (hr : decodeName (queryHeader ++ (labels ls ++ (label l ++ rest))) 13 = some r) : r.1 = ls.flatMap (· ++ [46]) := by
  have h := decodeLabels_labels hls queryHeader (label l ++ rest) []
  have hptr := decodeLabels_pointer (queryHeader ++ labels ls) ((pointer_iff _ h256).2 h192) (l ++ rest) ls
  rw [List.append_assoc, List.length_append] at hptr
  rw [decodeName, show 13 = queryHeader.length + 1 from rfl, h, List.nil_append] at hr
  change (decodeLabels (queryHeader ++ (labels ls ++ UInt8.ofNat l.length :: (l ++ rest))) _ _).bind _ = _ at hr
  rw [hptr, Option.bind_some] at hr
  by_cases hne : ls = []
  · simp [hne] at hr
  · simp only [if_neg hne, intercalate_dot hne, Option.some.injEq] at hr
    rw [← hr]

theorem exists_first {ls : List Bytes} (h : ¬ ∀ l ∈ ls, l.length < 192) :
    ∃ short l rest, ls = short ++ l :: rest ∧ (∀ x ∈ short, x.length < 192) ∧ 192 ≤ l.length := by
  induction ls with
  | nil => simp at h
  | cons a ls ih =>
    by_cases ha : a.length < 192
    · obtain ⟨short, l, rest, rfl, hs, hl⟩ := ih (fun hall => h (by simp [ha] at hall ⊢; exact hall))
      refine ⟨a :: short, l, rest, rfl, ?_, hl⟩
      simpa [ha] using hs
    · exact ⟨[], a, ls, rfl, by simp, Nat.le_of_not_lt ha⟩

/-- A name comes back from its query exactly when its labels are all below 192
bytes; one above 255 is an error instead. -/
theorem query_name_round_trip_iff (ls : List Bytes) (hne : ls ≠ []) (hls : ∀ l ∈ ls, l ≠ [] ∧ 46 ∉ l) (trailing : Bool)
    (qtype : UInt16) :
    RoundTrips (nameOf ls trailing) qtype ↔ (∃ l ∈ ls, 255 < l.length) ∨ ∀ l ∈ ls, l.length < 192 := by
  have hpos : ∀ l ∈ ls, 0 < l.length := fun l hl => List.length_pos_iff.2 (hls l hl).1
  rw [RoundTrips, buildQuery_nameOf hne hls, withDot_nameOf hne hls]
  by_cases hbig : ∀ l ∈ ls, l.length < 256
  · have hno : ¬ ∃ l ∈ ls, 255 < l.length := by
      rintro ⟨l, hl, h⟩
      exact absurd (hbig l hl) (by omega)
    rw [if_pos hbig, or_iff_right hno]
    constructor
    · intro h
      by_contra hlong
      obtain ⟨offset, hd, -⟩ := h _ rfl
      obtain ⟨short, l, rest, rfl, hs, hl⟩ := exists_first hlong
      rw [labels_append, List.append_assoc] at hd
      have e := decodeName_long (fun x hx => ⟨hpos x (by simp [hx]), hs x hx⟩) hl (hbig l (by simp)) _ (r := _)
        (by simpa [labels_cons, label] using hd)
      have := congrArg List.length e
      simp at this
    · intro hshort query e
      obtain rfl := Option.some.inj e
      refine ⟨_, decodeName_short hne (fun l hl => ⟨hpos l hl, hshort l hl⟩) _, ?_⟩
      have hlen : 14 + (labels ls).length - 1 = (queryHeader ++ (labels ls ++ [0])).length := by
        rw [List.length_append, List.length_append, show queryHeader.length = 12 from rfl, List.length_singleton]
        omega
      rw [hlen]
      simp
  · rw [if_neg hbig]
    refine iff_of_true (by simp) (.inl ?_)
    push Not at hbig
    obtain ⟨l, hl, h⟩ := hbig
    exact ⟨l, hl, by omega⟩

theorem www_round_trips : RoundTrips (nameOf [txt "www", txt "example"] true) 28 :=
  (query_name_round_trip_iff [txt "www", txt "example"] (by decide) (by decide) true 28).2 (.inr (by decide))

/-- A label of 192 bytes is written and not read back. -/
theorem long_label_lost : ¬ RoundTrips (List.replicate 192 97) 1 := by
  intro h
  obtain ⟨offset, hd, -⟩ := h (queryHeader ++ 0xc0 :: (List.replicate 192 97 ++ [0, 0, 1, 0, 1])) (by decide +kernel)
  have hnone : decodeName (queryHeader ++ 0xc0 :: (List.replicate 192 97 ++ [0, 0, 1, 0, 1])) 13 = none := by
    decide +kernel
  rw [hnone] at hd
  simp at hd

end NgxLuaCpp.Dns
