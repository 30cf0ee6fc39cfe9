import Mathlib.Algebra.Order.BigOperators.Group.List
import NgxLuaCpp.EventBus
import NgxLuaCpp.Lib.Sse
/-!
# The event stream

`/api/stream` polls a topic and writes each event as an `id:` and a `data:`
line. We read its text back as a browser does.
-/
open Window

namespace NgxLuaCpp

variable {τ : Type}

/-! ## Numbers -/

/-- `n / d`, ties to even. -/
def roundDiv (n d : Nat) : Nat :=
  let q := n / d
  let r := 2 * (n % d)
  if r < d then q else if d < r then q + 1 else q + q % 2

/-- The digits of `q` without trailing zeros, with a point after the first one, and an exponent. -/
def exponential (q k : Nat) : Bytes :=
  let ds := ((decimal q).reverse.dropWhile (· == digit 0)).reverse
  ds.take 1 ++ (if ds.length ≤ 1 then [] else txt ".") ++ ds.drop 1 ++ txt "e+" ++ decimal k

/-- `%.14g` from `10^14` on: `n` in 14 digits. -/
def scientific (n : Nat) : Bytes :=
  let k := (decimal n).length - 1
  let q := roundDiv n (10 ^ (k - 13))
  if q < 100000000000000 then exponential q k else exponential (q / 10) (k + 1)

/-- A whole number, as Lua's `..` writes it. -/
def tostring (n : Nat) : Bytes := if n < 100000000000000 then decimal n else scientific n

/-! ## The handler -/

/-- The text of one event in the stream. -/
def writeEvent (e : BusEvent τ) : Bytes := txt "id: " ++ tostring e.id ++ txt "\ndata: " ++ e.payload ++ txt "\n\n"

/-- The text written after the calls `ops` on the bus. -/
def apiStream (topic : Bytes) (ops : List (BusOp τ)) : Bytes :=
  txt "retry: 2000\n\n" ++ (Feed.run topic ops).polls.flatMap fun evs => evs.flatMap writeEvent

example : tostring 42 = txt "42" ∧ tostring 123456789012345678 = txt "1.2345678901235e+17" := by decide +kernel

/-! ## What is asked of it -/

/-- The events published on `topic` between consecutive polls, as the bus
numbers them from `n` on. `since` was published since the last poll. -/
def batches (topic : Bytes) : Nat → List (BusEvent τ) → List (BusOp τ) → List (List (BusEvent τ))
  | _, _, [] => []
  | n, since, .pub t ts p :: ops => batches topic (dblSucc n) (if topic = t then since ++ [⟨n, ts, p⟩] else since) ops
  | n, since, .poll :: ops => since :: batches topic n [] ops

/-- The events a reader of the stream should see by the last poll. -/
def published (topic : Bytes) (ops : List (BusOp τ)) : List (BusEvent τ) := (batches topic 1 [] ops).flatten

/-- And those the bus still had for it. -/
def delivered (topic : Bytes) (ops : List (BusOp τ)) : List (BusEvent τ) := (Feed.run topic ops).polls.flatten

/-- An event unchanged. -/
def sseEvent (e : BusEvent τ) : Sse.Event := ⟨txt "message", e.payload, decimal e.id⟩

/-- The id is written in digits, and the payload is one line. -/
def Fits (e : BusEvent τ) : Prop := e.id < 100000000000000 ∧ Sse.OneLine e.payload

/-! ## Ids as text -/

theorem mem_exponential {c : UInt8} {q k : Nat} (h : c ∈ exponential q k) :
    48 ≤ c.toNat ∧ c.toNat < 58 ∨ c = 46 ∨ c = 101 ∨ c = 43 := by
  have hds : ∀ c ∈ ((decimal q).reverse.dropWhile (· == digit 0)).reverse, c ∈ decimal q := by
    intro c hc
    exact List.mem_reverse.1 ((List.dropWhile_sublist _).subset (List.mem_reverse.1 hc))
  unfold exponential at h
  simp only [List.mem_append] at h
  rcases h with (((h | h) | h) | h) | h
  · exact .inl (mem_decimal (hds c (List.mem_of_mem_take h)))
  · split at h
    · simp at h
    · exact .inr (.inl (by simpa [txt] using h))
  · exact .inl (mem_decimal (hds c (List.mem_of_mem_drop h)))
  · exact .inr (.inr (by simpa [txt] using h))
  · exact .inl (mem_decimal h)

theorem mem_tostring {c : UInt8} {n : Nat} (h : c ∈ tostring n) :
    48 ≤ c.toNat ∧ c.toNat < 58 ∨ c = 46 ∨ c = 101 ∨ c = 43 := by
  unfold tostring scientific at h
  split at h
  · exact .inl (mem_decimal h)
  · simp only at h
    split at h
    · exact mem_exponential h
    · exact mem_exponential h

theorem isId_tostring (n : Nat) : Sse.IsId (tostring n) := by
  constructor
  · rintro c hc (rfl | rfl)
    · exact absurd (mem_tostring hc) (by decide)
    · exact absurd (mem_tostring hc) (by decide)
  · intro hc
    exact absurd (mem_tostring hc) (by decide)

/-- In scientific form a number is not its digits. -/
theorem tostring_eq_decimal {n : Nat} : tostring n = decimal n ↔ n < 100000000000000 := by
  constructor
  · intro h
    by_contra hn
    have he : (101 : UInt8) ∈ tostring n := by
      rw [tostring, if_neg hn, scientific]
      split <;> simp [exponential, txt]
    rw [h] at he
    exact notMem_decimal (by decide) he
  · intro hn
    rw [tostring, if_pos hn]

/-! ## What the polls return -/

/-- `since` was published since the last poll. Where the counter no longer
counts, an id may not be past the cursor. -/
structure Tracks (topic : Bytes) (f : Feed τ) (n : Nat) (since : List (BusEvent τ)) : Prop where
  next : f.bus.nextId = n
  le : n ≤ 2 ^ 53
  cursor : n < 2 ^ 53 → f.cursor < n
  queue : ∃ seen, f.bus.queue topic = (seen ++ since).rtake 512 ∧ ∀ e ∈ seen, e.id ≤ f.cursor
  ids : ∀ e ∈ since, e.id ≤ n ∧ (e.id < 2 ^ 53 → f.cursor < e.id ∧ e.id < n)
  sorted : since.Pairwise fun a b => a.id ≤ b.id

/-- A poll returns some of the last 512 events, and all of them while ids are new. -/
def Returns (evs since : List (BusEvent τ)) : Prop :=
  evs.Sublist (since.rtake 512) ∧ ((∀ e ∈ since, e.id < 2 ^ 53) → evs = since.rtake 512)

theorem tracks_new (topic : Bytes) : Tracks topic (Feed.new : Feed τ) 1 [] where
  next := rfl
  le := by omega
  cursor := by simp [Feed.new]
  queue := ⟨[], by simp [Feed.new, EventBus.queue, EventBus.new], by simp⟩
  ids := by simp
  sorted := .nil

theorem le_dblSucc (n : Nat) : n ≤ dblSucc n := by
  unfold dblSucc
  split <;> omega

theorem dblSucc_le {n : Nat} (h : n ≤ 2 ^ 53) : dblSucc n ≤ 2 ^ 53 := by
  unfold dblSucc
  split <;> omega

theorem lt_dblSucc {n : Nat} (h : n < 2 ^ 53) : n < dblSucc n := by
  rw [dblSucc, if_pos h]
  exact Nat.lt_succ_self n

/-- A publication comes to what was published since the last poll. -/
theorem tracks_pub {topic : Bytes} {f : Feed τ} {n : Nat} {since : List (BusEvent τ)} (h : Tracks topic f n since)
    (t : Bytes) (ts : τ) (p : Bytes) :
    Tracks topic (f.step topic (.pub t ts p)) (dblSucc n) (if topic = t then since ++ [⟨n, ts, p⟩] else since) := by
  obtain ⟨seen, hq, hseen⟩ := h.queue
  have hnext : (f.bus.pub t ts p).nextId = dblSucc n := by rw [EventBus.pub, h.next]
  have hids : ∀ e ∈ since, e.id ≤ dblSucc n ∧ (e.id < 2 ^ 53 → f.cursor < e.id ∧ e.id < dblSucc n) := by
    intro e he
    obtain ⟨hle, hlt⟩ := h.ids e he
    refine ⟨hle.trans (le_dblSucc n), fun hid => ⟨(hlt hid).1, (hlt hid).2.trans_le (le_dblSucc n)⟩⟩
  have hcursor : dblSucc n < 2 ^ 53 → f.cursor < dblSucc n := by
    intro hn
    exact (h.cursor ((le_dblSucc n).trans_lt hn)).trans_le (le_dblSucc n)
  by_cases ht : topic = t
  · rw [if_pos ht]
    refine ⟨hnext, dblSucc_le h.le, hcursor, ⟨seen, ?_, hseen⟩, ?_, ?_⟩
    · simp only [Feed.step, EventBus.queue_pub, if_pos ht, hq, h.next, push_rtake, List.append_assoc]
    · intro e he
      rcases List.mem_append.1 he with he | he
      · exact hids e he
      · rw [List.mem_singleton.1 he]
        exact ⟨le_dblSucc n, fun hn => ⟨h.cursor hn, lt_dblSucc hn⟩⟩
    · refine List.pairwise_append.2 ⟨h.sorted, by simp, ?_⟩
      intro a ha b hb
      rw [List.mem_singleton.1 hb]
      exact (h.ids a ha).1
  · rw [if_neg ht]
    refine ⟨hnext, dblSucc_le h.le, hcursor, ⟨seen, ?_, hseen⟩, hids, h.sorted⟩
    simp only [Feed.step, EventBus.queue_pub, if_neg ht, hq]

/-- What a poll returns of the events published since the last one. -/
def fresh (cursor : Nat) (since : List (BusEvent τ)) : List (BusEvent τ) :=
  (since.rtake 512).filter fun e => decide (cursor < e.id)

theorem Tracks.poll_eq {topic : Bytes} {f : Feed τ} {n : Nat} {since : List (BusEvent τ)} (h : Tracks topic f n since) :
    f.bus.poll topic f.cursor =
      (fresh f.cursor since, ((fresh f.cursor since).getLast?.map BusEvent.id).getD f.cursor) := by
  obtain ⟨seen, hq, hseen⟩ := h.queue
  have hold : ∀ e ∈ seen, decide (f.cursor < e.id) = false := by
    intro e he
    simpa using hseen e he
  rw [EventBus.poll_eq, hq, filter_rtake_old 512 _ hold, fresh]

theorem Tracks.returns {topic : Bytes} {f : Feed τ} {n : Nat} {since : List (BusEvent τ)} (h : Tracks topic f n since) :
    Returns (f.bus.poll topic f.cursor).1 since := by
  have hpoll : (f.bus.poll topic f.cursor).1 = fresh f.cursor since := by rw [h.poll_eq]
  rw [hpoll, fresh]
  refine ⟨List.filter_sublist, ?_⟩
  intro hsmall
  rw [List.filter_eq_self]
  intro e he
  have hmem := (rtake_sublist 512 since).subset he
  simpa using ((h.ids e hmem).2 (hsmall e hmem)).1

/-- After a poll nothing published is past the cursor. -/
theorem Tracks.poll_cursor {topic : Bytes} {f : Feed τ} {n : Nat} {since : List (BusEvent τ)}
    (h : Tracks topic f n since) {c : Nat} (hc : (f.bus.poll topic f.cursor).2 = c) :
    f.cursor ≤ c ∧ (∀ e ∈ since, e.id ≤ c) ∧ (n < 2 ^ 53 → c < n) := by
  rw [h.poll_eq] at hc
  rcases List.eq_nil_or_concat' since with rfl | ⟨since, x, rfl⟩
  · obtain rfl : f.cursor = c := by simpa [fresh] using hc
    exact ⟨le_refl _, by simp, h.cursor⟩
  · have hle : ∀ e ∈ since ++ [x], e.id ≤ x.id := by
      intro e he
      rcases List.mem_append.1 he with he | he
      · exact (List.pairwise_append.1 h.sorted).2.2 e he x (by simp)
      · rw [List.mem_singleton.1 he]
    have hlast : (since ++ [x]).rtake 512 = since.rtake 511 ++ [x] := by
      rw [show 512 = 511 + 1 from rfl, List.rtake_concat_succ]
    obtain ⟨hx, hnew⟩ := h.ids x (by simp)
    by_cases hpast : f.cursor < x.id
    · -- the last event is returned
      obtain rfl : x.id = c := by simpa [fresh, hlast, List.filter_append, hpast] using hc
      refine ⟨hpast.le, hle, fun hn => (hnew (hx.trans_lt hn)).2⟩
    · have hnone : fresh f.cursor (since ++ [x]) = [] := by
        rw [fresh, List.filter_eq_nil_iff]
        intro e he
        have := hle e ((rtake_sublist 512 _).subset he)
        simpa using by omega
      rw [hnone] at hc
      obtain rfl : f.cursor = c := hc
      refine ⟨le_refl _, fun e he => (hle e he).trans (Nat.le_of_not_lt hpast), h.cursor⟩

theorem tracks_poll {topic : Bytes} {f : Feed τ} {n : Nat} {since : List (BusEvent τ)} (h : Tracks topic f n since) :
    Tracks topic (f.step topic .poll) n [] := by
  obtain ⟨seen, hq, hseen⟩ := h.queue
  obtain ⟨hle, hsince, hlt⟩ := h.poll_cursor rfl
  refine ⟨h.next, h.le, hlt, ⟨seen ++ since, ?_, ?_⟩, by simp, .nil⟩
  · rw [List.append_nil]
    exact hq
  · intro e he
    rcases List.mem_append.1 he with he | he
    · exact (hseen e he).trans hle
    · exact hsince e he

theorem tracks_run {topic : Bytes} (ops : List (BusOp τ)) {f : Feed τ} {n : Nat} {since : List (BusEvent τ)}
    (h : Tracks topic f n since) :
    ∃ evs, (ops.foldl (Feed.step topic) f).polls = f.polls ++ evs ∧
      List.Forall₂ Returns evs (batches topic n since ops) := by
  induction ops generalizing f n since with
  | nil => exact ⟨[], by simp, .nil⟩
  | cons op ops ih =>
    cases op with
    | pub t ts p => exact ih (tracks_pub h t ts p)
    | poll =>
      obtain ⟨evs, hevs, hall⟩ := ih (tracks_poll h)
      refine ⟨_ :: evs, ?_, .cons h.returns hall⟩
      rw [List.foldl_cons, hevs]
      simp [Feed.step]

theorem polls_return (topic : Bytes) (ops : List (BusOp τ)) :
    List.Forall₂ Returns (Feed.run topic ops).polls (batches topic 1 [] ops) := by
  obtain ⟨evs, hevs, hall⟩ := tracks_run ops (tracks_new topic)
  rw [Feed.run, hevs]
  exact hall

theorem flatten_returns {evs bs : List (List (BusEvent τ))} (h : List.Forall₂ Returns evs bs) :
    evs.flatten.Sublist bs.flatten ∧ (evs.flatten.length = bs.flatten.length → ∀ s ∈ bs, s.length ≤ 512) := by
  induction h with
  | nil => simp
  | @cons r s evs bs hr _ ih =>
    obtain ⟨hsub, hlen⟩ := ih
    have hrs := hr.1.trans (rtake_sublist 512 s)
    refine ⟨hrs.append hsub, ?_⟩
    intro heq
    rw [List.flatten_cons, List.flatten_cons, List.length_append, List.length_append] at heq
    have hle := hr.1.length_le
    rw [length_rtake] at hle
    have hle' := hsub.length_le
    exact List.forall_mem_cons.2 ⟨by omega, hlen (by omega)⟩

theorem eq_of_returns {evs bs : List (List (BusEvent τ))} (h : List.Forall₂ Returns evs bs)
    (hlen : ∀ s ∈ bs, s.length ≤ 512) (hid : ∀ s ∈ bs, ∀ e ∈ s, e.id < 2 ^ 53) : evs = bs := by
  induction h with
  | nil => rfl
  | cons hr _ ih =>
    obtain ⟨hlen, hlens⟩ := List.forall_mem_cons.1 hlen
    obtain ⟨hid, hids⟩ := List.forall_mem_cons.1 hid
    rw [ih hlens hids, hr.2 hid, rtake_eq_self hlen]

/-! ## Reading the stream -/

theorem writeEvent_eq : (writeEvent : BusEvent τ → Bytes) = fun e => Sse.record (tostring e.id) e.payload := by
  funext e
  simp [writeEvent, Sse.record, Sse.field, Sse.idName, Sse.dataName, txt]

/-- The records of some events. -/
def records (evs : List (BusEvent τ)) : List (Bytes × Bytes) := evs.map fun e => (tostring e.id, e.payload)

/-- What is read of some events. -/
def reads (evs : List (BusEvent τ)) : List Sse.Event :=
  Sse.Buffers.empty.events (Sse.lines false [] (Sse.records (records evs)))

/-- The line `retry: 2000` dispatches nothing. -/
theorem parse_apiStream (topic : Bytes) (ops : List (BusOp τ)) :
    Sse.parse (apiStream topic ops) = reads (delivered topic ops) := by
  have hrecords : (Feed.run topic ops).polls.flatMap (fun evs => evs.flatMap writeEvent) =
      Sse.records (records (delivered topic ops)) := by
    rw [Sse.records, records, delivered, List.flatMap_map, ← List.flatMap_id, List.flatMap_assoc, writeEvent_eq]
    rfl
  have hretry : txt "retry: 2000\n\n" = Sse.field (txt "retry") (txt "2000") ++ [10, 10] := by decide
  rw [apiStream, hretry, hrecords, List.append_assoc, Sse.parse]
  change Sse.Buffers.empty.events (Sse.lines false [] (_ ++ 10 :: 10 :: _)) = _
  rw [Sse.lines_line (by decide)]
  rfl

theorem isId_records (evs : List (BusEvent τ)) : ∀ r ∈ records evs, Sse.IsId r.1 := by
  intro r hr
  obtain ⟨e, -, rfl⟩ := List.mem_map.1 hr
  exact isId_tostring e.id

theorem reads_oneLine {evs : List (BusEvent τ)} (h : ∀ e ∈ evs, Sse.OneLine e.payload) :
    reads evs = evs.map fun e => ⟨txt "message", e.payload, tostring e.id⟩ := by
  rw [reads, Sse.events_records (isId_records evs) _ ⟨rfl, rfl⟩, records, List.map_map]
  · rfl
  · intro r hr
    obtain ⟨e, he, rfl⟩ := List.mem_map.1 hr
    exact h e he

/-- Bytes of payload in some events. -/
def payloads (evs : List (BusEvent τ)) : Nat := (evs.map fun e => e.payload.length).sum

/-- No bytes are lost only where every payload is one line. -/
theorem oneLine_of_reads {evs : List (BusEvent τ)} (h : payloads evs ≤ Sse.size (reads evs)) :
    ∀ e ∈ evs, Sse.OneLine e.payload := by
  obtain ⟨hle, heq⟩ := Sse.size_records (isId_records evs) (b := .empty) ⟨rfl, rfl⟩
  have hsum : ((records evs).map fun r => r.2.length).sum = payloads evs := by
    rw [records, List.map_map]
    rfl
  intro e he
  rw [hsum] at hle heq
  exact heq (le_antisymm hle h) _ (List.mem_map_of_mem he)

theorem size_sseEvents (evs : List (BusEvent τ)) : Sse.size (evs.map sseEvent) = payloads evs := by
  rw [Sse.size, List.map_map]
  rfl

theorem reads_iff {evs : List (BusEvent τ)} : reads evs = evs.map sseEvent ↔ ∀ e ∈ evs, Fits e := by
  constructor
  · intro h
    have hone : ∀ e ∈ evs, Sse.OneLine e.payload := by
      apply oneLine_of_reads
      rw [h, size_sseEvents]
    rw [reads_oneLine hone, List.map_inj_left] at h
    intro e he
    exact ⟨tostring_eq_decimal.1 (congrArg Sse.Event.lastEventId (h e he)), hone e he⟩
  · intro h
    rw [reads_oneLine fun e he => (h e he).2]
    apply List.map_congr_left
    intro e he
    rw [sseEvent, tostring_eq_decimal.2 (h e he).1]

/-- The stream reads as what the bus delivered, where each delivered event fits,
and as all that was published, where besides no more than 512 events came between polls. -/
theorem stream_read_iff (topic : Bytes) (ops : List (BusOp τ)) :
    (Sse.parse (apiStream topic ops) = (delivered topic ops).map sseEvent ↔ ∀ e ∈ delivered topic ops, Fits e) ∧
    (Sse.parse (apiStream topic ops) = (published topic ops).map sseEvent ↔
      (∀ s ∈ batches topic 1 [] ops, s.length ≤ 512) ∧ ∀ e ∈ published topic ops, Fits e) := by
  rw [parse_apiStream]
  refine ⟨reads_iff, ?_, ?_⟩
  · intro h
    obtain ⟨hsub, hlen⟩ := flatten_returns (polls_return topic ops)
    have hpayloads : payloads (delivered topic ops) ≤ payloads (published topic ops) :=
      (hsub.map fun e => e.payload.length).sum_le_sum (by simp)
    have hone : ∀ e ∈ delivered topic ops, Sse.OneLine e.payload := by
      apply oneLine_of_reads
      rw [h, size_sseEvents]
      exact hpayloads
    have hcount : (delivered topic ops).length = (published topic ops).length := by
      rw [reads_oneLine hone] at h
      simpa using congrArg List.length h
    have heq : delivered topic ops = published topic ops := hsub.eq_of_length hcount
    refine ⟨hlen hcount, ?_⟩
    rw [← heq] at h ⊢
    exact reads_iff.1 h
  · rintro ⟨hlen, hfits⟩
    have heq : delivered topic ops = published topic ops := by
      rw [delivered, published, eq_of_returns (polls_return topic ops) hlen]
      intro s hs e he
      have := (hfits e (List.mem_flatten.2 ⟨s, hs, he⟩)).1
      omega
    rw [heq]
    exact reads_iff.2 hfits

/-- One datagram that reads as two events. -/
theorem datagram_splits :
    let ops : List (BusOp Nat) := [.pub (txt "syslog") 5 (txt "up\n\nid: 9\ndata: down|10.0.0.1:514"), .poll]
    Sse.parse (apiStream (txt "syslog") ops) =
      [⟨txt "message", txt "up", txt "1"⟩, ⟨txt "message", txt "down|10.0.0.1:514", txt "9"⟩] ∧
      Sse.parse (apiStream (txt "syslog") ops) ≠ (published (txt "syslog") ops).map sseEvent := by
  decide +kernel

end NgxLuaCpp
