import NgxLuaCpp.DnsResponse
import NgxLuaCpp.Lib.LuaTable
/-!
# What a response is read as

`parse_response` reads bytes past the end of a message as `nil`. It raises no error on any
message; an address is what four bytes of data spell unless the message ends within them.
-/

namespace NgxLuaCpp.Dns

/-! ## Lua -/

/-- The errors that a library function raises. -/
inductive LuaError where
  /-- of a `bit` function, whose arguments are numbers -/
  | badArgument
  /-- of `table.concat`, at an index -/
  | invalidValue (i : Nat)
  deriving DecidableEq

/-- Nothing where a loop takes more passes than it is given. -/
abbrev Lua := ExceptT LuaError Option

/-- `s:byte(i)` as a number. -/
def byteNumber (s : Bytes) (i : Nat) : Option Nat := (byte s i).map UInt8.toNat

/-- The argument check of the `bit` library, which raises on nil. -/
def checkNumber : Option Nat → Lua Nat
  | some n => return n
  | none => throw .badArgument

namespace Bit

def lshift (x : Option Nat) (n : Nat) : Lua Nat := return (← checkNumber x) <<< n

def bor (x y : Option Nat) : Lua Nat := return (← checkNumber x) ||| (← checkNumber y)

def band (x y : Option Nat) : Lua Nat := return (← checkNumber x) &&& (← checkNumber y)

end Bit

/-- `bit.bor(bit.lshift(hi or 0, 8), lo or 0)` -/
def join (hi lo : Option Nat) : Lua Nat := do Bit.bor (some (← Bit.lshift (hi <|> some 0) 8)) (lo <|> some 0)

/-- `table.concat(t, ".")` -/
def concatDots (len : LuaTable.Length UInt8) (t : List (Option UInt8)) : Lua Bytes :=
  match LuaTable.concat len (fun b => decimal b.toNat) t (txt ".") with
  | .ok ip => return ip
  | .error i => throw (.invalidValue i)

/-- The loop over the question's name, for so many passes. -/
def skipLoop (msg : Bytes) : Nat → Nat → Lua (Option Nat)
  | 0, _ => ExceptT.mk none
  | passes + 1, off =>
    match byteNumber msg off with
    | none => return none
    | some len =>
      if len = 0 then return some (off + 1)
      else do
        if (← Bit.band (some len) (some 0xc0)) = 0xc0 then return some (off + 2)
        else skipLoop msg passes (off + 1 + len)

/-- `M.parse_response`, for some `#t` of tables with holes. -/
def luaParseResponse (len : LuaTable.Length UInt8) (passes : Nat) (msg : Bytes) : Lua (Nat × Option Bytes) :=
  if msg.length < 13 then return (0, none)
  else do
    let ancount ← join (byteNumber msg 7) (byteNumber msg 8)
    match ← skipLoop msg passes 13 with
    | none => return (ancount, none)
    | some off =>
      let off := off + 4
      if ancount ≥ 1 ∧ byteNumber msg off = some 0xc0 ∧ byteNumber msg (off + 1) = some 0x0c then
        let rtype ← join (byteNumber msg (off + 2)) (byteNumber msg (off + 3))
        let rdlen ← join (byteNumber msg (off + 10)) (byteNumber msg (off + 11))
        if rtype = 1 ∧ rdlen = 4 then
          let ip ← concatDots len (LuaTable.construct [byte msg (off + 12), byte msg (off + 13), byte msg (off + 14)]
            (byte msg (off + 15)).toList)
          return (ancount, some ip)
        else return (ancount, none)
      else return (ancount, none)

/-! ## No error is raised -/

theorem join_eq (msg : Bytes) (i : Nat) : join (byteNumber msg i) (byteNumber msg (i + 1)) = pure (word msg i) := by
  unfold join byteNumber word
  cases byte msg i with
  | none =>
    cases byte msg (i + 1) with
    | none => rfl
    | some lo => rfl
  | some hi =>
    cases byte msg (i + 1) with
    | none => rfl
    | some lo => rfl

theorem toNat_map_eq {x : Option UInt8} {b : UInt8} : x.map UInt8.toNat = some b.toNat ↔ x = some b := by
  rw [← Option.map_some, Option.map_inj_right fun _ _ => UInt8.toNat_inj.1]

/-- Every pass moves on, so as many passes as there are bytes are enough. -/
theorem skipLoop_eq {msg : Bytes} {passes off : Nat} (hpasses : 0 < passes) (h : msg.length + 1 < off + passes) :
    skipLoop msg passes off = pure (skipName msg off) := by
  induction passes generalizing off with
  | zero => exact absurd rfl (Nat.ne_of_gt hpasses)
  | succ passes ih =>
    unfold skipLoop byteNumber
    cases hbyte : byte msg off with
    | none =>
      rw [skipName_of_none hbyte]
      rfl
    | some len =>
      have hlt := lt_of_byte hbyte
      have hzero : len.toNat = 0 ↔ len = 0 := UInt8.toNat_inj (b := 0)
      have hmask : len.toNat &&& 0xc0 = 0xc0 ↔ len &&& 0xc0 = 0xc0 := by
        rw [← UInt8.toNat_inj, UInt8.toNat_and]
        rfl
      have hband : Bit.band (some len.toNat) (some 0xc0) = pure (len.toNat &&& 0xc0) := rfl
      rw [skipName_of_some hbyte, Option.map_some]
      dsimp only
      rw [hband, pure_bind]
      simp only [hzero, hmask]
      split
      · rfl
      · next hne =>
        split
        · rfl
        · have hpos : 0 < len.toNat := Nat.pos_of_ne_zero (mt hzero.1 hne)
          exact ih (by omega) (by omega)

/-- The entries of the constructor: the bytes that are there, and `nil` after them. -/
theorem construct_octets (msg : Bytes) (i : Nat) :
    ∃ k, LuaTable.construct [byte msg (i + 1), byte msg (i + 2), byte msg (i + 3)] (byte msg (i + 4)).toList =
      ((msg.drop i).take 4).map some ++ List.replicate k none := by
  have hbyte : ∀ j, byte msg (i + (j + 1)) = (msg.drop i)[j]? := fun j => List.getElem?_drop.symm
  unfold LuaTable.construct
  rw [hbyte 0, hbyte 1, hbyte 2, hbyte 3]
  match msg.drop i with
  | [] => exact ⟨3, rfl⟩
  | [_] => exact ⟨2, rfl⟩
  | [_, _] => exact ⟨1, rfl⟩
  | [_, _, _] => exact ⟨0, rfl⟩
  | _ :: _ :: _ :: _ :: _ => exact ⟨0, rfl⟩

/-- On every message, with passes enough, `parse_response` returns. -/
theorem luaParseResponse_eq (len : LuaTable.Length UInt8) {passes : Nat} {msg : Bytes} (h : msg.length ≤ passes) :
    luaParseResponse len passes msg = pure (parseResponse msg) := by
  have hc0 : ∀ i, byteNumber msg i = some 0xc0 ↔ byte msg i = some 0xc0 := fun _ => toNat_map_eq (b := 0xc0)
  have h0c : ∀ i, byteNumber msg i = some 0x0c ↔ byte msg i = some 0x0c := fun _ => toNat_map_eq (b := 0x0c)
  unfold luaParseResponse parseResponse
  split
  · rfl
  · rw [join_eq, pure_bind, skipLoop_eq (by omega) (by omega), pure_bind]
    dsimp only
    cases hskip : skipName msg 13 with
    | none => rfl
    | some off =>
      dsimp only
      simp only [hc0, h0c]
      split
      · rw [join_eq, pure_bind, join_eq, pure_bind]
        split
        · obtain ⟨k, hoctets⟩ := construct_octets msg (off + 4 + 11)
          rw [hoctets, concatDots, LuaTable.concat_eq]
          rfl
        · rfl
      · rfl

/-! ## What is accepted -/

/-- What the loop over a name skips: labels, of any length below 192, up to the root or a
pointer. -/
inductive SkippedName : Bytes → Prop where
  | root : SkippedName [0]
  | pointer {len x : UInt8} (hptr : len &&& 0xc0 = 0xc0) : SkippedName [len, x]
  | label {len : UInt8} {text rest : Bytes} (h0 : len ≠ 0) (hptr : len &&& 0xc0 ≠ 0xc0)
    (htext : text.length = len.toNat) (hrest : SkippedName rest) : SkippedName (len :: text ++ rest)

theorem SkippedName.length_pos {name : Bytes} (h : SkippedName name) : 0 < name.length := by
  cases h with
  | root | pointer => exact Nat.succ_pos _
  | label => exact Nat.succ_pos _

/-- Wherever it stands, a name is skipped to its end. -/
theorem skipName_append {name : Bytes} (h : SkippedName name) (pre post : Bytes) :
    skipName (pre ++ name ++ post) (pre.length + 1) = some (pre.length + name.length + 1) := by
  induction h generalizing pre with
  | root =>
    rw [List.append_assoc, List.singleton_append, skipName_of_some (byte_append pre 0 post), if_pos rfl]
    rfl
  | @pointer len x hptr =>
    have hne : len ≠ 0 := by
      rintro rfl
      exact absurd hptr (by decide)
    rw [List.append_assoc, List.cons_append, skipName_of_some (byte_append pre len _), if_neg hne, if_pos hptr]
    rfl
  | @label len text rest h0 hptr htext hrest ih =>
    have hmsg : pre ++ (len :: text ++ rest) ++ post = pre ++ len :: text ++ rest ++ post := by
      simp only [List.append_assoc]
    have hoff : pre.length + 1 + 1 + len.toNat = (pre ++ len :: text).length + 1 := by
      rw [List.length_append, List.length_cons, htext]
      omega
    have hih := ih (pre ++ len :: text)
    rw [← hmsg] at hih
    rw [List.append_assoc, List.cons_append, List.cons_append] at hih ⊢
    rw [skipName_of_some (byte_append pre len _), if_neg h0, if_neg hptr, hoff, hih, List.length_append,
      List.length_cons, List.length_cons, List.length_append]
    congr 1
    omega

theorem drop_of_byte {msg : Bytes} {off : Nat} {b : UInt8} (h : byte msg (off + 1) = some b) :
    msg.drop off = b :: msg.drop (off + 1) := by
  obtain ⟨hlt, hget⟩ := List.getElem?_eq_some_iff.1 h
  rw [← hget]
  exact List.drop_eq_getElem_cons hlt

/-- Where the loop ends within the message, it has skipped a name. -/
theorem exists_skippedName {msg : Bytes} {off off' : Nat} (hoff : 0 < off) (h : skipName msg off = some off')
    (hle : off' ≤ msg.length + 1) :
    ∃ name post, SkippedName name ∧ msg.drop (off - 1) = name ++ post ∧ off' = off + name.length := by
  induction off using skipName.induct msg with
  | case1 off hbyte =>
    rw [skipName_of_none hbyte] at h
    cases h
  | case2 off hbyte =>
    obtain ⟨off, rfl⟩ := Nat.exists_eq_add_one.2 hoff
    rw [skipName_of_some hbyte, if_pos rfl] at h
    obtain rfl := Option.some.inj h
    exact ⟨[0], msg.drop (off + 1), .root, drop_of_byte hbyte, rfl⟩
  | case3 off len hbyte h0 hptr =>
    obtain ⟨off, rfl⟩ := Nat.exists_eq_add_one.2 hoff
    rw [skipName_of_some hbyte, if_neg h0, if_pos hptr] at h
    obtain rfl := Option.some.inj h
    have hlt : off + 1 < msg.length := by omega
    refine ⟨[len, msg[off + 1]], msg.drop (off + 2), .pointer hptr, ?_, rfl⟩
    rw [Nat.add_sub_cancel, drop_of_byte hbyte, List.drop_eq_getElem_cons hlt]
    rfl
  | case4 off len hbyte h0 hptr ih =>
    obtain ⟨off, rfl⟩ := Nat.exists_eq_add_one.2 hoff
    rw [skipName_of_some hbyte, if_neg h0, if_neg hptr] at h
    obtain ⟨name, post, hname, hdrop, rfl⟩ := ih (by omega) h
    have hpos := hname.length_pos
    have hlength := congrArg List.length hdrop
    rw [List.length_drop, List.length_append] at hlength
    have htext : ((msg.drop (off + 1)).take len.toNat).length = len.toNat := by
      rw [List.length_take, List.length_drop]
      omega
    refine ⟨len :: (msg.drop (off + 1)).take len.toNat ++ name, post, .label h0 hptr htext hname, ?_, ?_⟩
    · have hrest : (msg.drop (off + 1)).drop len.toNat = name ++ post := by
        rw [List.drop_drop, ← hdrop]
        congr 1
        omega
      rw [Nat.add_sub_cancel, drop_of_byte hbyte, List.append_assoc, ← hrest, List.cons_append, List.take_append_drop]
    · rw [List.length_append, List.length_cons, htext]
      omega

/-! ## What is returned -/

/-- A header that counts an answer, a question, and a type A record with four bytes of
data, up to the data. -/
def AnswersA (msg data : Bytes) : Prop :=
  ∃ hdr name question record, msg = hdr ++ name ++ question ++ (record ++ data) ∧
    hdr.length = 12 ∧ 1 ≤ word hdr 7 ∧ SkippedName name ∧ question.length = 4 ∧
    record.length = 12 ∧ byte record 1 = some 0xc0 ∧ byte record 2 = some 0x0c ∧ word record 3 = 1 ∧ word record 11 = 4

/-- What a returned address says. -/
def Exact (msg : Bytes) (r : Nat × Option Bytes) : Prop :=
  ∀ ip, r.2 = some ip → ∃ a b c d post, AnswersA msg (a :: b :: c :: d :: post) ∧
    ip = (txt ".").intercalate ([a, b, c, d].map fun o => decimal o.toNat)

/-- The message ends within the data of its first answer. -/
def CutShort (msg : Bytes) : Prop := ∃ data, AnswersA msg data ∧ data.length < 4

theorem byte_record {record : Bytes} (data : Bytes) {i : Nat} (h0 : 0 < i) (hi : i ≤ record.length) :
    byte (record ++ data) i = byte record i := List.getElem?_append_left (by omega)

theorem word_record {record : Bytes} (data : Bytes) {i : Nat} (h0 : 0 < i) (hi : i < record.length) :
    word (record ++ data) i = word record i := by
  unfold word
  rw [byte_record data h0 hi.le, byte_record data (Nat.succ_pos i) hi]

theorem AnswersA.parse {msg data : Bytes} (h : AnswersA msg data) :
    (parseResponse msg).2 = some ((txt ".").intercalate ((data.take 4).map fun o => decimal o.toNat)) := by
  obtain ⟨hdr, name, question, record, rfl, hhdr, hcount, hname, hq, hrecord, hc0, h0c, htype, hlen⟩ := h
  have hskip := skipName_append hname hdr (question ++ (record ++ data))
  rw [hhdr, ← List.append_assoc] at hskip
  rw [parseResponse_past hhdr hq _ (by rw [hhdr]; exact hskip), byte_record _ (by omega) (by omega),
    byte_record _ (by omega) (by omega), word_record _ (by omega) (by omega), word_record _ (by omega) (by omega),
    if_pos ⟨hcount, hc0, h0c⟩, if_pos ⟨htype, hlen⟩, List.drop_left' hrecord]

theorem AnswersA.data_eq {msg data : Bytes} (h : AnswersA msg data) :
    ∃ off, skipName msg 13 = some off ∧ data = msg.drop (off + 15) := by
  obtain ⟨hdr, name, question, record, rfl, hhdr, -, hname, hq, hrecord, -⟩ := h
  have hskip := skipName_append hname hdr (question ++ (record ++ data))
  rw [hhdr, ← List.append_assoc] at hskip
  refine ⟨_, hskip, ?_⟩
  rw [← List.append_assoc, List.drop_left']
  simp only [List.length_append, hhdr, hq, hrecord]

theorem AnswersA.unique {msg data data' : Bytes} (h : AnswersA msg data) (h' : AnswersA msg data') : data = data' := by
  obtain ⟨off, hskip, rfl⟩ := h.data_eq
  obtain ⟨off', hskip', rfl⟩ := h'.data_eq
  rw [hskip] at hskip'
  rw [Option.some.inj hskip']

/-- The offset the question ends at, where an address is returned. -/
theorem exists_skip {msg ip : Bytes} (h : (parseResponse msg).2 = some ip) :
    ∃ off, skipName msg 13 = some off ∧ off + 3 < msg.length := by
  unfold parseResponse at h
  split at h
  · cases h
  · dsimp only at h
    split at h
    · cases h
    · next off hskip =>
      refine ⟨off, hskip, ?_⟩
      split at h
      · next hpointer => exact lt_of_byte hpointer.2.1
      · cases h

theorem length_of_word {s : Bytes} (h : word s 11 = 4) : 12 ≤ s.length := by
  by_contra hlt
  have hnone : byte s 12 = none := List.getElem?_eq_none (by omega)
  unfold word at h
  rw [hnone, Nat.shiftLeft_eq] at h
  change _ ||| 0 = 4 at h
  rw [Nat.or_zero] at h
  omega

/-- An address comes from an answer record of a message that is there. -/
theorem answersA_of_parse {msg ip : Bytes} (h : (parseResponse msg).2 = some ip) :
    ∃ data, AnswersA msg data := by
  obtain ⟨off, hskip, hoff⟩ := exists_skip h
  obtain ⟨name, post, hname, hdrop, rfl⟩ := exists_skippedName (by omega) hskip (by omega)
  have hlength := congrArg List.length hdrop
  rw [List.length_drop, List.length_append] at hlength
  have hmsg : msg = msg.take 12 ++ name ++ post.take 4 ++ post.drop 4 := by
    rw [List.append_assoc, List.take_append_drop, List.append_assoc, ← hdrop, List.take_append_drop]
  have hhdr : (msg.take 12).length = 12 := by
    rw [List.length_take]
    omega
  have hq : (post.take 4).length = 4 := by
    rw [List.length_take]
    omega
  rw [hmsg, parseResponse_past hhdr hq _ (by rw [← hmsg, hskip, hhdr]; congr 1; omega)] at h
  split at h
  · next hpointer =>
    split at h
    · next hrecord =>
      have hlen := length_of_word hrecord.2
      have htake : ((post.drop 4).take 12).length = 12 := by
        rw [List.length_take]
        omega
      rw [← List.take_append_drop 12 (post.drop 4)] at hpointer hrecord
      rw [byte_record _ (by omega) (by omega), byte_record _ (by omega) (by omega)] at hpointer
      rw [word_record _ (by omega) (by omega), word_record _ (by omega) (by omega)] at hrecord
      refine ⟨(post.drop 4).drop 12, msg.take 12, name, post.take 4, (post.drop 4).take 12, ?_, hhdr, hpointer.1, hname,
        hq, htake, hpointer.2.1, hpointer.2.2, hrecord.1, hrecord.2⟩
      rw [List.take_append_drop, ← hmsg]
    · cases h
  · cases h

theorem exact_parse_iff (msg : Bytes) : Exact msg (parseResponse msg) ↔ ¬ CutShort msg := by
  constructor
  · rintro h ⟨data, hdata, hshort⟩
    obtain ⟨a, b, c, d, post, hfour, -⟩ := h _ hdata.parse
    rw [hdata.unique hfour] at hshort
    exact absurd hshort (Nat.not_lt.2 (Nat.le_add_left 4 post.length))
  · intro h ip hip
    obtain ⟨data, hdata⟩ := answersA_of_parse hip
    have hfour : 4 ≤ data.length := by
      by_contra hlt
      exact h ⟨data, hdata, Nat.not_le.1 hlt⟩
    rw [hdata.parse] at hip
    obtain rfl := Option.some.inj hip
    match data, hfour with
    | a :: b :: c :: d :: post, _ => exact ⟨a, b, c, d, post, hdata, rfl⟩

/-- `parse_response` returns on every message and raises no error; the address it returns is
that of the first answer unless the message ends within its data. -/
theorem parse_response_exact_iff (len : LuaTable.Length UInt8) (msg : Bytes) :
    ∃ r, (∀ passes, msg.length ≤ passes → (luaParseResponse len passes msg).run = some (.ok r)) ∧
      (Exact msg r ↔ ¬ CutShort msg) :=
  ⟨parseResponse msg, fun _ h => luaParseResponse_eq len h, exact_parse_iff msg⟩

/-- A response that ends after two bytes of its four. -/
def twoOctets : Bytes :=
  [0x12, 0x34, 0x81, 0x80, 0, 1, 0, 1, 0, 0, 0, 0] ++ [0] ++ [0, 1, 0, 1] ++
    ([0xc0, 0x0c, 0, 1, 0, 1, 0, 0, 0, 60, 0, 4] ++ [1, 2])

theorem twoOctets_spelled :
    (luaParseResponse .first twoOctets.length twoOctets).run = some (.ok (1, some (txt "1.2"))) ∧
      ¬ Exact twoOctets (1, some (txt "1.2")) := by
  refine ⟨by decide +kernel, fun h => ?_⟩
  have hdata : AnswersA twoOctets [1, 2] :=
    ⟨_, _, _, _, rfl, rfl, by decide, .root, rfl, rfl, rfl, rfl, by decide, by decide⟩
  obtain ⟨a, b, c, d, post, hfour, -⟩ := h _ rfl
  cases hdata.unique hfour

end NgxLuaCpp.Dns
