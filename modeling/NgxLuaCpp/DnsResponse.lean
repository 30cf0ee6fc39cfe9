import NgxLuaCpp.DnsNames
/-!
# Hand-built responses

`build_a_response` copies all that follows the query's header and counts it as
one question; `parse_response` reads what it built.
-/

namespace NgxLuaCpp.Dns
open DnsWire

/-! ## Reading a response -/

/-- The loop of `parse_response` over the question's name. -/
def skipName (msg : Bytes) (off : Nat) : Option Nat :=
  match _h : byte msg off with
  | none => none
  | some len =>
    if len = 0 then some (off + 1)
    else if len &&& 0xc0 = 0xc0 then some (off + 2)
    else skipName msg (off + 1 + len.toNat)
termination_by msg.length + 1 - off
decreasing_by
  have := lt_of_byte _h
  omega

/-- `M.parse_response`: the answer count, and the first address if it is found. -/
def parseResponse (msg : Bytes) : Nat × Option Bytes :=
  if msg.length < 13 then (0, none)
  else
    let ancount := word msg 7
    match skipName msg 13 with
    | none => (ancount, none)
    | some off =>
      let off := off + 4
      if ancount ≥ 1 ∧ byte msg off = some 0xc0 ∧ byte msg (off + 1) = some 0x0c then
        let rtype := word msg (off + 2)
        let rdlen := word msg (off + 10)
        if rtype = 1 ∧ rdlen = 4 then
          let octets := (msg.drop (off + 11)).take 4
          (ancount, some ((txt ".").intercalate (octets.map fun b => decimal b.toNat)))
        else (ancount, none)
      else (ancount, none)

theorem skipName_of_none {msg : Bytes} {off : Nat} (h : byte msg off = none) : skipName msg off = none := by
  rw [skipName]
  split
  · rfl
  · simp_all

theorem skipName_of_some {msg : Bytes} {off : Nat} {len : UInt8} (h : byte msg off = some len) :
    skipName msg off = if len = 0 then some (off + 1) else if len &&& 0xc0 = 0xc0 then some (off + 2)
      else skipName msg (off + 1 + len.toNat) := by
  rw [skipName]
  split
  · simp_all
  · rename_i len' h'
    obtain rfl : len = len' := by simpa [h] using h'
    rfl

/-- Both loops over a name stop at the same place. -/
theorem skipName_eq (msg : Bytes) (off : Nat) (acc : List Bytes) :
    skipName msg off = (decodeLabels msg off acc).map Prod.snd := by
  induction off, acc using decodeLabels.induct msg with
  | case1 off acc h => rw [skipName_of_none h, decodeLabels_of_none h, Option.map_none]
  | case2 off acc h => rw [skipName_of_some h, decodeLabels_of_some h, if_pos rfl, if_pos rfl, Option.map_some]
  | case3 off acc len h h0 hptr =>
    rw [skipName_of_some h, decodeLabels_of_some h, if_neg h0, if_neg h0, if_pos hptr, if_pos hptr, Option.map_some]
  | case4 off acc len h h0 hptr ih =>
    rw [skipName_of_some h, decodeLabels_of_some h, if_neg h0, if_neg h0, if_neg hptr, if_neg hptr, ih]

/-! ## Reading what follows the question -/

theorem byte_past (pre rest : Bytes) {i : Nat} (hi : 0 < i) : byte (pre ++ rest) (pre.length + i) = byte rest i := by
  rw [byte, byte, List.getElem?_append_right (by omega)]
  congr 1
  omega

theorem word_past (pre rest : Bytes) {i : Nat} (hi : 0 < i) : word (pre ++ rest) (pre.length + i) = word rest i := by
  rw [word, word, byte_past pre rest hi, Nat.add_assoc, byte_past pre rest (Nat.succ_pos i)]

theorem skipName_question {hdr : Bytes} (hh : hdr.length = 12) {q : Question} (hq : q.name.Valid []) (rest : Bytes) :
    skipName (hdr ++ q.bytes ++ rest) 13 = some (hdr.length + q.name.bytes.length + 1) := by
  have hshort : ∀ l ∈ q.name.labels, 0 < l.length ∧ l.length < 192 := by
    intro l hl
    have := hq.1 l hl
    exact ⟨this.1, Nat.lt_trans this.2 (by decide)⟩
  have hmsg : hdr ++ q.bytes ++ rest
      = hdr ++ (labels q.name.labels ++ 0 :: (be16 q.qtype ++ be16 q.qclass ++ rest)) := by
    rw [Question.bytes, hq.bytes_nil]
    simp
  have hroot := decodeLabels_root (hdr ++ labels q.name.labels) (be16 q.qtype ++ be16 q.qclass ++ rest) q.name.labels
  rw [List.append_assoc, List.length_append] at hroot
  rw [hmsg, skipName_eq _ _ [], show 13 = hdr.length + 1 by rw [hh], decodeLabels_labels hshort, List.nil_append, hroot,
    Option.map_some, hq.bytes_nil, List.length_append, List.length_singleton]
  rfl

/-- What `parse_response` makes of a message, by what follows its question. -/
theorem parseResponse_past {hdr name question : Bytes} (hh : hdr.length = 12) (hq : question.length = 4) (rest : Bytes)
    (hskip : skipName (hdr ++ name ++ question ++ rest) 13 = some (hdr.length + name.length + 1)) :
    parseResponse (hdr ++ name ++ question ++ rest) =
      if word hdr 7 ≥ 1 ∧ byte rest 1 = some 0xc0 ∧ byte rest 2 = some 0x0c then
        if word rest 3 = 1 ∧ word rest 11 = 4 then
          (word hdr 7, some ((txt ".").intercalate (((rest.drop 12).take 4).map fun b => decimal b.toNat)))
        else (word hdr 7, none)
      else (word hdr 7, none) := by
  have hword : word (hdr ++ name ++ question ++ rest) 7 = word hdr 7 := by
    rw [List.append_assoc, List.append_assoc, word, word, byte, byte, byte, byte, List.getElem?_append_left (by omega),
      List.getElem?_append_left (by omega)]
  have hoff : ∀ i, hdr.length + name.length + 1 + 4 + i = (hdr ++ name ++ question).length + (1 + i) := by
    intro i
    rw [List.length_append, List.length_append, hq]
    omega
  have hlen : 13 ≤ (hdr ++ name ++ question ++ rest).length := by
    rw [List.length_append, List.length_append, List.length_append]
    omega
  rw [parseResponse, if_neg (Nat.not_lt.2 hlen), hword, hskip]
  simp only
  rw [hoff 1, hoff 2, hoff 10, hoff 11, ← Nat.add_zero (hdr.length + name.length + 1 + 4), hoff 0,
    byte_past _ _ (by omega), byte_past _ _ (by omega), word_past _ _ (by omega), word_past _ _ (by omega),
    List.drop_append]
  rw [List.drop_eq_nil_of_le (by omega), Nat.add_sub_cancel_left, List.nil_append]

theorem parseResponse_question {hdr : Bytes} (hh : hdr.length = 12) {q : Question} (hq : q.name.Valid [])
    (rest : Bytes) :
    parseResponse (hdr ++ q.bytes ++ rest) =
      if word hdr 7 ≥ 1 ∧ byte rest 1 = some 0xc0 ∧ byte rest 2 = some 0x0c then
        if word rest 3 = 1 ∧ word rest 11 = 4 then
          (word hdr 7, some ((txt ".").intercalate (((rest.drop 12).take 4).map fun b => decimal b.toNat)))
        else (word hdr 7, none)
      else (word hdr 7, none) := by
  have hbytes : hdr ++ q.bytes ++ rest = hdr ++ q.name.bytes ++ (be16 q.qtype ++ be16 q.qclass) ++ rest := by
    rw [Question.bytes]
    simp only [List.append_assoc]
  have hskip := skipName_question hh hq rest
  rw [hbytes] at hskip ⊢
  apply parseResponse_past hh _ rest hskip
  rw [List.length_append, length_be16, length_be16]

/-! ## Building a response -/

def flagsAndCounts : Bytes := [0x81, 0x80, 0x00, 0x01, 0x00, 0x01, 0x00, 0x00, 0x00, 0x00]

/-- The answer record for octets `o`. -/
def answer (o : List Nat) : Record := ⟨⟨[], some 12⟩, 1, 1, 60, o.map UInt8.ofNat⟩

theorem answer_bytes {o : List Nat} (ho : o.length = 4) :
    (answer o).bytes = [0xc0, 0x0c, 0, 1, 0, 1, 0, 0, 0, 60, 0, 4] ++ o.map UInt8.ofNat := by
  have hname : (⟨[], some 12⟩ : Name).bytes = [0xc0, 0x0c] := by decide
  have hone : be16 1 = [0, 1] := by decide
  have httl : be32 60 = [0, 0, 0, 60] := by decide
  have hlen : be16 (UInt16.ofNat 4) = [0, 4] := by decide
  simp only [Record.bytes, Record.tail, answer, List.length_map, ho, hname, hone, httl, hlen]
  rfl

theorem buildAResponse_eq {ip : Bytes} {o : List Nat} (hip : matchIp ip = some o) (ho : o.length = 4)
    (query qname : Bytes) (qtype qclass : Nat) :
    buildAResponse query qname qtype qclass ip
      = some (sub query 1 2 ++ flagsAndCounts ++ query.drop 12 ++ (answer o).bytes) := by
  rw [buildAResponse, hip, answer_bytes ho]
  rfl

/-- The addresses of the table are spelled as `parse_response` spells them. -/
theorem overrides_spelled : ∀ o ∈ overrides, ∃ l ∈ matchIp o.2, l.length = 4 ∧ (∀ n ∈ l, n < 256) ∧
    (txt ".").intercalate (l.map decimal) = o.2 := by decide +kernel

/-! ## When the response is right -/

/-- A response is a message whose first answer is the address `ip`, and
`parse_response` finds it. -/
structure AnswersWith (ip response : Bytes) : Prop where
  wellFormed : ∃ m : Message, m.Valid ∧ m.bytes = response ∧
    ∃ a rest o, m.answers = a :: rest ∧ matchIp ip = some o ∧ a.rtype = 1 ∧ a.rclass = 1 ∧ a.rdata = o.map UInt8.ofNat
  parsed : parseResponse response = (1, some ip)

theorem sub_id {query : Bytes} (h : 12 < query.length) : ∃ x y, sub query 1 2 = [x, y] := by
  match query, h with
  | x :: y :: _, _ => exact ⟨x, y, rfl⟩

theorem labels_of_decodeName {query : Bytes} (hlen : 12 < query.length) {q : Question} (hq : q.name.Valid [])
    (hrest : query.drop 12 = q.bytes) {r : Bytes × Nat} (hr : decodeName query 13 = some r) : q.name.labels ≠ [] := by
  intro hnil
  have hquery : query = query.take 12 ++ 0 :: (be16 q.qtype ++ be16 q.qclass) := by
    conv_lhs => rw [← List.take_append_drop 12 query, hrest, Question.bytes, hq.bytes_nil, hnil]
    rfl
  have htake : (query.take 12).length = 12 := by
    rw [List.length_take]
    omega
  have hroot := decodeLabels_root (query.take 12) (be16 q.qtype ++ be16 q.qclass) []
  rw [← hquery, htake] at hroot
  rw [decodeName, hroot] at hr
  simp at hr

/-- Only one question after the header is answered well. -/
theorem question_of_answersWith {query ip : Bytes} (hlen : 12 < query.length) {o : List Nat} (hip : matchIp ip = some o)
    (ho : o.length = 4)
    (h : AnswersWith ip (sub query 1 2 ++ flagsAndCounts ++ query.drop 12 ++ (answer o).bytes)) :
    ∃ q : Question, q.name.Valid [] ∧ query.drop 12 = q.bytes := by
  obtain ⟨⟨m, hm, hbytes, a, rest, o', hanswers, hip', -, -, hdata⟩, hparse⟩ := h
  obtain ⟨x, y, hid⟩ := sub_id hlen
  have hbytes' : m.header ++ (m.questions.flatMap Question.bytes ++ m.records.flatMap Record.bytes)
      = [x, y] ++ flagsAndCounts ++ (query.drop 12 ++ (answer o).bytes) := by
    rw [← List.append_assoc, ← List.append_assoc, ← hid]
    exact hbytes
  obtain ⟨hheader, hbody⟩ := List.append_inj hbytes' rfl
  obtain ⟨q, a', hsingle⟩ := m.single_of_header hm hheader
  rw [hsingle] at hm
  obtain ⟨hq, ha, -⟩ := Message.valid_single.1 hm
  obtain ⟨rfl, -⟩ : a' = a ∧ [] = rest := by
    rw [hsingle] at hanswers
    exact List.cons.inj hanswers
  have hqa : q.bytes ++ a'.bytes = query.drop 12 ++ (answer o).bytes := by
    rw [← hbody, hsingle]
    simp [Message.single, Message.records]
  rw [List.append_assoc, ← hqa, ← List.append_assoc,
    parseResponse_question (by simp [hid, flagsAndCounts]) hq] at hparse
  have hhead : byte a'.bytes 1 = some 0xc0 := by
    by_contra hne
    rw [if_neg (fun hc => hne hc.2.1)] at hparse
    simp at hparse
  obtain ⟨b, tail, hname⟩ := List.exists_cons_of_ne_nil a'.name.bytes_ne_nil
  obtain rfl : b = 0xc0 := by
    rw [Record.bytes, hname] at hhead
    simpa [byte] using hhead
  have hsize : a'.bytes.length = (answer o).bytes.length := by
    have h2 := ha.of_head (by decide) hname
    rw [hip, Option.some.injEq] at hip'
    rw [Record.bytes, List.length_append, h2, Record.length_tail, hdata, List.length_map, ← hip', ho, answer_bytes ho,
      List.length_append, List.length_map, ho]
    rfl
  exact ⟨q, hq, (List.append_inj' hqa hsize).1.symm⟩

/-- The response to a query of a question and nothing more answers that question. -/
theorem answersWith_of_question {query ip : Bytes} (hlen : 12 < query.length) {o : List Nat} (hip : matchIp ip = some o)
    (ho : o.length = 4) (hoct : ∀ n ∈ o, n < 256) (hspell : (txt ".").intercalate (o.map decimal) = ip) {q : Question}
    (hq : q.name.Valid []) (hne : q.name.labels ≠ []) (hrest : query.drop 12 = q.bytes) :
    AnswersWith ip (sub query 1 2 ++ flagsAndCounts ++ query.drop 12 ++ (answer o).bytes) := by
  obtain ⟨x, y, hid⟩ := sub_id hlen
  obtain ⟨id, hbe⟩ := be16_surjective x y
  rw [hrest, hid]
  constructor
  · refine ⟨Message.single id 0x8180 q (answer o), Message.valid_single.2 ⟨hq, ?_, ?_⟩, ?_, ?_⟩
    · obtain ⟨l, ls, hls⟩ := List.exists_cons_of_ne_nil hne
      constructor
      · simp [answer]
      · rintro n ⟨⟩
        simp [hls, labelOffsets]
    · simp [answer, ho]
    · rw [Message.bytes_single, hbe, show be16 0x8180 = [0x81, 0x80] by decide]
      simp [flagsAndCounts]
    · exact ⟨answer o, [], o, rfl, hip, rfl, rfl, rfl⟩
  · have hword : word ([x, y] ++ flagsAndCounts) 7 = 1 := by simp [word, byte, flagsAndCounts]
    have hoctets : (((answer o).bytes.drop 12).take 4).map (fun b => decimal b.toNat) = o.map decimal := by
      rw [answer_bytes ho]
      change ((o.map UInt8.ofNat).take 4).map _ = _
      rw [List.take_of_length_le (by simp [ho]), List.map_map]
      apply List.map_congr_left
      intro n hn
      rw [Function.comp_apply, UInt8.toNat_ofNat', Nat.mod_eq_of_lt (hoct n hn)]
    rw [parseResponse_question rfl hq, hoctets, hspell, hword, answer_bytes ho, if_pos ⟨le_rfl, rfl, rfl⟩, if_pos]
    simp [word, byte]

/-- A query for an overridden name is answered well exactly when it is one
question, its name uncompressed, and ends there. -/
theorem override_response_iff (query qname : Bytes) (qend : Nat) (ip : Bytes)
    (hname : decodeName query 13 = some (qname, qend)) (hip : overrides.lookup qname = some ip) :
    (∃ response, buildAResponse query qname (word query qend) (word query (qend + 2)) ip = some response ∧
      AnswersWith ip response) ↔ ∃ q : Question, q.name.Valid [] ∧ query.drop 12 = q.bytes := by
  obtain ⟨o, hmatch, ho, hoct, hspell⟩ := overrides_spelled (qname, ip) (mem_of_lookup hip)
  have hlen := length_of_decodeName hname
  rw [buildAResponse_eq (Option.mem_def.1 hmatch) ho]
  constructor
  · rintro ⟨response, e, h⟩
    obtain rfl := Option.some.inj e
    exact question_of_answersWith hlen (Option.mem_def.1 hmatch) ho h
  · rintro ⟨q, hq, hrest⟩
    exact ⟨_, rfl, answersWith_of_question hlen (Option.mem_def.1 hmatch) ho hoct hspell hq
      (labels_of_decodeName hlen hq hrest hname) hrest⟩

/-- A query for `demo.test.`, type A, and what may follow it. -/
def demoQuery (additional : Bytes) : Bytes :=
  [0x12, 0x34, 0x01, 0x00, 0x00, 0x01, 0x00, 0x00, 0x00, 0x00, 0x00, if additional = [] then 0 else 1] ++
    [0x04, 0x64, 0x65, 0x6d, 0x6f, 0x04, 0x74, 0x65, 0x73, 0x74, 0x00, 0x00, 0x01, 0x00, 0x01] ++ additional

theorem demo_query_answered :
    ∃ response, buildAResponse (demoQuery []) (txt "demo.test.") 1 1 (txt "127.0.0.1") = some response ∧
      AnswersWith (txt "127.0.0.1") response := by
  refine (override_response_iff (demoQuery []) (txt "demo.test.") 24 (txt "127.0.0.1") (by decide +kernel) (by decide)).2
    ⟨⟨⟨[txt "demo", txt "test"], none⟩, 1, 1⟩, ⟨by decide, by simp⟩, by decide⟩

/-- With an EDNS record after its question, the record is taken for the answer. -/
theorem edns_query_misanswered :
    decodeName (demoQuery [0, 0, 41, 16, 0, 0, 0, 0, 0, 0, 0]) 13 = some (txt "demo.test.", 24) ∧
    overrides.lookup (txt "demo.test.") = some (txt "127.0.0.1") ∧
    ¬ ∃ response, buildAResponse (demoQuery [0, 0, 41, 16, 0, 0, 0, 0, 0, 0, 0]) (txt "demo.test.") 1 1
        (txt "127.0.0.1") = some response ∧ AnswersWith (txt "127.0.0.1") response := by
  refine ⟨by decide +kernel, by decide, ?_⟩
  rintro ⟨response, hr, -, hparse⟩
  have hnone : (buildAResponse (demoQuery [0, 0, 41, 16, 0, 0, 0, 0, 0, 0, 0]) (txt "demo.test.") 1 1
      (txt "127.0.0.1")).map parseResponse = some (1, none) := by decide +kernel
  rw [hr, Option.map_some, hparse] at hnone
  simp at hnone

end NgxLuaCpp.Dns
