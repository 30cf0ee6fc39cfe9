import Mathlib.Data.List.Basic
/-!
# DNS messages

The wire format. A name is a list of labels that ends with the root, or with a
pointer to the rest of an earlier name.
-/

namespace DnsWire

abbrev Label := List UInt8

/-- A label, its length before it. -/
def label (l : Label) : List UInt8 := UInt8.ofNat l.length :: l

def labels (ls : List Label) : List UInt8 := ls.flatMap label

def ValidLabel (l : Label) : Prop := 0 < l.length ∧ l.length < 64

instance decidableValidLabel (l : Label) : Decidable (ValidLabel l) := inferInstanceAs (Decidable (_ ∧ _))

def be16 (n : UInt16) : List UInt8 := [UInt8.ofNat (n.toNat / 256), UInt8.ofNat n.toNat]

def be32 (n : UInt32) : List UInt8 :=
  [UInt8.ofNat (n.toNat / 16777216), UInt8.ofNat (n.toNat / 65536), UInt8.ofNat (n.toNat / 256), UInt8.ofNat n.toNat]

structure Name where
  labels : List Label
  /-- the offset of the labels it goes on with -/
  pointer : Option Nat

def Name.ending (n : Name) : List UInt8 :=
  match n.pointer with
  | none => [0]
  | some o => [UInt8.ofNat (0xc0 + o / 256), UInt8.ofNat o]

def Name.bytes (n : Name) : List UInt8 := DnsWire.labels n.labels ++ n.ending

/-- The offsets of labels that start at `pos`. -/
def labelOffsets (pos : Nat) : List Label → List Nat
  | [] => []
  | l :: ls => pos :: labelOffsets (pos + 1 + l.length) ls

/-- A pointer is to labels of a name before. -/
def Name.Valid (known : List Nat) (n : Name) : Prop :=
  (∀ l ∈ n.labels, ValidLabel l) ∧ ∀ o ∈ n.pointer, o ∈ known ∧ o < 16384

structure Question where
  name : Name
  qtype : UInt16
  qclass : UInt16

def Question.bytes (q : Question) : List UInt8 := q.name.bytes ++ be16 q.qtype ++ be16 q.qclass

structure Record where
  name : Name
  rtype : UInt16
  rclass : UInt16
  ttl : UInt32
  rdata : List UInt8

/-- What follows a record's name. -/
def Record.tail (r : Record) : List UInt8 :=
  be16 r.rtype ++ be16 r.rclass ++ be32 r.ttl ++ be16 (UInt16.ofNat r.rdata.length) ++ r.rdata

def Record.bytes (r : Record) : List UInt8 := r.name.bytes ++ r.tail

structure Message where
  id : UInt16
  flags : UInt16
  questions : List Question
  answers : List Record
  authority : List Record
  additional : List Record

def Message.records (m : Message) : List Record := m.answers ++ m.authority ++ m.additional

def Message.header (m : Message) : List UInt8 :=
  be16 m.id ++ be16 m.flags ++ be16 (UInt16.ofNat m.questions.length) ++ be16 (UInt16.ofNat m.answers.length) ++
    be16 (UInt16.ofNat m.authority.length) ++ be16 (UInt16.ofNat m.additional.length)

def Message.bytes (m : Message) : List UInt8 :=
  m.header ++ m.questions.flatMap Question.bytes ++ m.records.flatMap Record.bytes

/-- The names of questions and records that start at `pos`, with their offsets. -/
def questionNames (pos : Nat) : List Question → List (Nat × Name)
  | [] => []
  | q :: qs => (pos, q.name) :: questionNames (pos + q.bytes.length) qs

def recordNames (pos : Nat) : List Record → List (Nat × Name)
  | [] => []
  | r :: rs => (pos, r.name) :: recordNames (pos + r.bytes.length) rs

def Message.names (m : Message) : List (Nat × Name) :=
  questionNames 12 m.questions ++ recordNames (12 + (m.questions.flatMap Question.bytes).length) m.records

/-- Each name points to labels of those before it. -/
def ValidNames (known : List Nat) : List (Nat × Name) → Prop
  | [] => True
  | (pos, n) :: rest => n.Valid known ∧ ValidNames (known ++ labelOffsets pos n.labels) rest

structure Message.Valid (m : Message) : Prop where
  questions : m.questions.length < 65536
  answers : m.answers.length < 65536
  authority : m.authority.length < 65536
  additional : m.additional.length < 65536
  rdata : ∀ r ∈ m.records, r.rdata.length < 65536
  names : ValidNames [] m.names

/-! ## Sizes -/

theorem length_label (l : Label) : (label l).length = l.length + 1 := rfl

@[simp] theorem labels_nil : labels [] = [] := rfl

theorem labels_cons (l : Label) (ls : List Label) : labels (l :: ls) = UInt8.ofNat l.length :: (l ++ labels ls) := rfl

theorem labels_append (ls ls' : List Label) : labels (ls ++ ls') = labels ls ++ labels ls' := List.flatMap_append

theorem length_be16 (n : UInt16) : (be16 n).length = 2 := rfl

theorem Record.length_tail (r : Record) : r.tail.length = 10 + r.rdata.length := by
  simp only [Record.tail, be16, be32, List.length_append, List.length_cons, List.length_nil]

theorem be16_injective {m n : UInt16} (h : be16 m = be16 n) : m = n := by
  simp only [be16, List.cons.injEq, and_true] at h
  have hm := m.toNat_lt
  have hn := n.toNat_lt
  have h₁ := congrArg UInt8.toNat h.1
  have h₂ := congrArg UInt8.toNat h.2
  simp only [UInt8.toNat_ofNat'] at h₁ h₂
  apply UInt16.toNat_inj.1
  omega

/-- A count field below its bound says how many there are. -/
theorem count_eq {n k : Nat} (hn : n < 65536) (hk : k < 65536) (h : be16 (UInt16.ofNat n) = be16 (UInt16.ofNat k)) :
    n = k := by
  have e := congrArg UInt16.toNat (be16_injective h)
  rwa [UInt16.toNat_ofNat', UInt16.toNat_ofNat', Nat.mod_eq_of_lt hn, Nat.mod_eq_of_lt hk] at e

theorem be16_surjective (x y : UInt8) : ∃ n, be16 n = [x, y] := by
  have hx := x.toNat_lt
  have hy := y.toNat_lt
  refine ⟨UInt16.ofNat (x.toNat * 256 + y.toNat), ?_⟩
  rw [be16, UInt16.toNat_ofNat', Nat.mod_eq_of_lt (by omega)]
  congr 1
  · apply UInt8.toNat_inj.1
    rw [UInt8.toNat_ofNat']
    omega
  · congr 1
    apply UInt8.toNat_inj.1
    rw [UInt8.toNat_ofNat']
    omega

/-! ## Names -/

/-- The first name of a message has nothing to point to. -/
theorem Name.Valid.pointer_nil {n : Name} (h : n.Valid []) : n.pointer = none := by
  cases hp : n.pointer with
  | none => rfl
  | some o => simpa using (h.2 o hp).1

theorem Name.Valid.bytes_nil {n : Name} (h : n.Valid []) : n.bytes = DnsWire.labels n.labels ++ [0] := by
  rw [Name.bytes, Name.ending, h.pointer_nil]

theorem Name.bytes_ne_nil (n : Name) : n.bytes ≠ [] := by
  rw [Name.bytes, Name.ending]
  split <;> simp

/-- Only a pointer starts with a byte from 192 on. -/
theorem Name.Valid.of_head {n : Name} {known : List Nat} (h : n.Valid known) {b : UInt8} (hb : 192 ≤ b.toNat)
    {rest : List UInt8} (e : n.bytes = b :: rest) : n.bytes.length = 2 := by
  rw [Name.bytes] at e ⊢
  cases hl : n.labels with
  | nil =>
    rw [hl, labels_nil, List.nil_append, Name.ending] at e
    rw [labels_nil, List.nil_append, Name.ending]
    cases hp : n.pointer with
    | none =>
      rw [hp] at e
      obtain ⟨rfl, -⟩ := List.cons.inj e
      exact absurd hb (by decide)
    | some o => rfl
  | cons l ls =>
    rw [hl, labels_cons] at e
    obtain ⟨rfl, -⟩ := List.cons.inj e
    have := (h.1 l (by simp [hl])).2
    rw [UInt8.toNat_ofNat'] at hb
    omega

/-! ## Messages of one question and one answer -/

/-- A message of one question and one answer. -/
def Message.single (id flags : UInt16) (q : Question) (a : Record) : Message := ⟨id, flags, [q], [a], [], []⟩

/-- The counts say when there is one of each. -/
theorem Message.single_of_header {m : Message} (h : m.Valid) {x y : UInt8}
    (e : m.header = [x, y, 0x81, 0x80, 0, 1, 0, 1, 0, 0, 0, 0]) :
    ∃ q a, m = Message.single m.id m.flags q a := by
  simp only [Message.header, be16, List.cons_append, List.nil_append, List.cons.injEq, and_true] at e
  obtain ⟨-, -, -, -, hq₁, hq₂, ha₁, ha₂, hu₁, hu₂, hd₁, hd₂⟩ := e
  have hq : m.questions.length = 1 := by
    apply count_eq h.questions (by decide)
    rw [be16, hq₁, hq₂]
    rfl
  have ha : m.answers.length = 1 := by
    apply count_eq h.answers (by decide)
    rw [be16, ha₁, ha₂]
    rfl
  have hu : m.authority.length = 0 := by
    apply count_eq h.authority (by decide)
    rw [be16, hu₁, hu₂]
    rfl
  have hd : m.additional.length = 0 := by
    apply count_eq h.additional (by decide)
    rw [be16, hd₁, hd₂]
    rfl
  obtain ⟨q, hq⟩ := List.length_eq_one_iff.1 hq
  obtain ⟨a, ha⟩ := List.length_eq_one_iff.1 ha
  refine ⟨q, a, ?_⟩
  rw [Message.single, ← hq, ← ha]
  calc m = ⟨m.id, m.flags, m.questions, m.answers, m.authority, m.additional⟩ := rfl
    _ = _ := by rw [List.length_eq_zero_iff.1 hu, List.length_eq_zero_iff.1 hd]

theorem Message.bytes_single (id flags : UInt16) (q : Question) (a : Record) :
    (Message.single id flags q a).bytes
      = be16 id ++ be16 flags ++ [0, 1, 0, 1, 0, 0, 0, 0] ++ (q.bytes ++ a.bytes) := by
  simp [Message.single, Message.bytes, Message.header, Message.records, be16]

theorem Message.valid_single {id flags : UInt16} {q : Question} {a : Record} :
    (Message.single id flags q a).Valid ↔
      q.name.Valid [] ∧ a.name.Valid (labelOffsets 12 q.name.labels) ∧ a.rdata.length < 65536 := by
  constructor
  · intro h
    have hn := h.names
    exact ⟨hn.1, hn.2.1, h.rdata a (by simp [Message.single, Message.records])⟩
  · rintro ⟨hq, ha, hr⟩
    refine ⟨by simp [Message.single], by simp [Message.single], by simp [Message.single], by simp [Message.single], ?_, ?_⟩
    · simpa [Message.single, Message.records] using hr
    · exact ⟨hq, ha, trivial⟩

end DnsWire
