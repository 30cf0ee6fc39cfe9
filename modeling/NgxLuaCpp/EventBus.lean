import NgxLuaCpp.Base
import NgxLuaCpp.Lib.SortedMap
import NgxLuaCpp.Lib.Window
/-!
# The event bus

`event_bus_t`: one bounded queue per topic, ids drawn from one counter shared
by all topics, and consumers that poll a topic with a cursor. Timestamps are
only stored, so their type is left open.
-/
open Window

namespace NgxLuaCpp

variable {τ : Type}

/-! ## The bus -/

/-- `x++` on a `double` counting up from 1: from `2^53` on, `x + 1` rounds back to `x`. -/
def dblSucc (x : Nat) : Nat := if x < 2 ^ 53 then x + 1 else x

/-- `bus_event_t`: `(id, ts_ms, payload)`. -/
structure BusEvent (τ : Type) where
  id : Nat
  ts : τ
  payload : Bytes
  deriving DecidableEq

/-- `event_bus_t`: the next id, and the events kept for each topic. -/
structure EventBus (τ : Type) where
  nextId : Nat
  topics : SortedMap Bytes (List (BusEvent τ))

namespace EventBus

/-- A bus as constructed, with ids from 1 on. -/
def new : EventBus τ := ⟨1, .empty⟩

/-- The queue `topics[topic]`. -/
def queue (b : EventBus τ) (topic : Bytes) : List (BusEvent τ) := (b.topics.find? topic).getD []

/-- `pub`: the event gets the next id and ends the queue of its topic, which keeps the last 512.
-/
def pub (b : EventBus τ) (topic : Bytes) (ts : τ) (payload : Bytes) : EventBus τ :=
  ⟨dblSucc b.nextId, b.topics.insert topic (push 512 (b.queue topic) ⟨b.nextId, ts, payload⟩)⟩

/-- One iteration of the loop in `poll`, over `(out, next)`. -/
def pollStep (lastId : Nat) (acc : List (BusEvent τ) × Nat) (e : BusEvent τ) : List (BusEvent τ) × Nat :=
  if e.id > lastId then (acc.1 ++ [e], e.id) else acc

/-- `poll`: the events of the topic past `last_id`, and the id of the last of them. -/
def poll (b : EventBus τ) (topic : Bytes) (lastId : Nat) : List (BusEvent τ) × Nat :=
  match b.topics.find? topic with
  | none => ([], lastId)
  | some q => q.foldl (pollStep lastId) ([], lastId)

theorem queue_pub (b : EventBus τ) (topic t : Bytes) (ts : τ) (p : Bytes) :
    (b.pub t ts p).queue topic =
      if topic = t then push 512 (b.queue topic) ⟨b.nextId, ts, p⟩ else b.queue topic := by
  simp only [queue, pub, SortedMap.find?_insert]
  split
  · rename_i h; subst h; rfl
  · rfl

/-- The loop of `poll` filters by the cursor. -/
theorem foldl_pollStep (c : Nat) (q out : List (BusEvent τ)) (next : Nat) :
    q.foldl (pollStep c) (out, next) = (out ++ q.filter (fun e => decide (c < e.id)),
      ((q.filter fun e => decide (c < e.id)).getLast?.map BusEvent.id).getD next) := by
  induction q generalizing out next with
  | nil => simp
  | cons e q ih =>
    rw [List.foldl_cons, pollStep]
    split
    · rename_i h
      have h : c < e.id := h
      rw [ih]
      simp only [h, decide_true, List.filter_cons_of_pos, List.append_assoc, List.singleton_append,
        List.getLast?_cons, Prod.mk.injEq, true_and]
      cases (q.filter fun e => decide (c < e.id)).getLast? <;> rfl
    · rename_i h
      have h : ¬c < e.id := h
      rw [ih]
      simp [h]

/-- A poll returns what is queued past the cursor, and the last id it returns. -/
theorem poll_eq (b : EventBus τ) (topic : Bytes) (c : Nat) :
    b.poll topic c = ((b.queue topic).filter (fun e => decide (c < e.id)),
      (((b.queue topic).filter fun e => decide (c < e.id)).getLast?.map BusEvent.id).getD c) := by
  simp only [poll, queue]
  cases b.topics.find? topic with
  | none => simp
  | some q => simp [foldl_pollStep]

end EventBus

/-! ## A consumer among publishers -/

/-- One call on the bus: any thread's `pub`, or the consumer's `events(topic, cursor)`. -/
inductive BusOp (τ : Type) where
  | pub (topic : Bytes) (ts : τ) (payload : Bytes)
  | poll

/-- The bus, the consumer's cursor, and what its polls returned. -/
structure Feed (τ : Type) where
  bus : EventBus τ
  cursor : Nat
  polls : List (List (BusEvent τ))

namespace Feed

def new : Feed τ := ⟨.new, 0, []⟩

/-- One call; a poll of the consumer moves its cursor. -/
def step (topic : Bytes) (f : Feed τ) : BusOp τ → Feed τ
  | .pub t ts p => { f with bus := f.bus.pub t ts p }
  | .poll =>
    let r := f.bus.poll topic f.cursor
    { f with cursor := r.2, polls := f.polls ++ [r.1] }

/-- The bus and the consumer of `topic` after these calls. -/
def run (topic : Bytes) (ops : List (BusOp τ)) : Feed τ := ops.foldl (step topic) new

end Feed

def BusOp.isPub : BusOp τ → Bool
  | .pub .. => true
  | .poll => false

/-- The calls that concern `topic`: its publications, and the polls. -/
def BusOp.concerns (topic : Bytes) : BusOp τ → Bool
  | .pub t _ _ => decide (t = topic)
  | .poll => true

/-- The events published on `topic` between consecutive polls, one list per
poll. `n` is the id of the next publication on any topic; `since` was
published since the last poll. -/
def sincePolls (topic : Bytes) : Nat → List (BusEvent τ) → List (BusOp τ) → List (List (BusEvent τ))
  | _, _, [] => []
  | n, since, .pub t ts p :: ops => sincePolls topic (n + 1) (if topic = t then since ++ [⟨n, ts, p⟩] else since) ops
  | n, since, .poll :: ops => since :: sincePolls topic n [] ops

/-! ## The invariant -/

/-- `since` was published since the last poll and `n` is the next id. The
queue may also hold events the cursor is already past. -/
structure Following (topic : Bytes) (f : Feed τ) (n : Nat) (since : List (BusEvent τ)) : Prop where
  next : f.bus.nextId = n
  cursor_lt : f.cursor < n
  queue : ∃ seen, f.bus.queue topic = (seen ++ since).rtake 512 ∧ ∀ e ∈ seen, e.id ≤ f.cursor
  fresh : ∀ e ∈ since, f.cursor < e.id ∧ e.id < n
  sorted : (since.map BusEvent.id).Pairwise (· < ·)
  delivered : ∀ e ∈ f.polls.flatten, e.id ≤ f.cursor
  delivered_sorted : (f.polls.flatten.map BusEvent.id).Pairwise (· < ·)

theorem following_new (topic : Bytes) : Following topic (Feed.new : Feed τ) 1 [] where
  next := rfl
  cursor_lt := by simp [Feed.new]
  queue := ⟨[], by simp [Feed.new, EventBus.queue, EventBus.new], by simp⟩
  fresh := by simp
  sorted := by simp
  delivered := by simp [Feed.new]
  delivered_sorted := by simp [Feed.new]

/-- A publication comes to the end of what the consumer has yet to poll. -/
theorem following_pub {topic : Bytes} {f : Feed τ} {n : Nat} {since : List (BusEvent τ)} (h : Following topic f n since)
    (hn : n < 2 ^ 53) (t : Bytes) (ts : τ) (p : Bytes) :
    Following topic (f.step topic (.pub t ts p)) (n + 1) (if topic = t then since ++ [⟨n, ts, p⟩] else since) := by
  obtain ⟨seen, hq, hseen⟩ := h.queue
  have hnext : (f.bus.pub t ts p).nextId = n + 1 := by
    simp only [EventBus.pub, dblSucc, h.next, if_pos hn]
  by_cases ht : topic = t
  · rw [if_pos ht]
    refine ⟨hnext, Nat.lt_succ_of_lt h.cursor_lt, ⟨seen, ?_, hseen⟩, ?_, ?_, h.delivered, h.delivered_sorted⟩
    · simp only [Feed.step, EventBus.queue_pub, if_pos ht, hq, h.next, push_rtake, List.append_assoc]
    · intro e he
      rcases List.mem_append.1 he with he | he
      · exact ⟨(h.fresh e he).1, Nat.lt_succ_of_lt (h.fresh e he).2⟩
      · rw [List.mem_singleton.1 he]
        exact ⟨h.cursor_lt, Nat.lt_succ_self n⟩
    · rw [List.map_append]
      refine List.pairwise_append.2 ⟨h.sorted, by simp, ?_⟩
      intro a ha b hb
      obtain ⟨e, he, rfl⟩ := List.mem_map.1 ha
      simp only [List.map_cons, List.map_nil, List.mem_singleton] at hb
      exact hb ▸ (h.fresh e he).2
  · -- a publication on another topic only takes an id
    rw [if_neg ht]
    refine ⟨hnext, Nat.lt_succ_of_lt h.cursor_lt, ⟨seen, ?_, hseen⟩, ?_, h.sorted, h.delivered, h.delivered_sorted⟩
    · simp only [Feed.step, EventBus.queue_pub, if_neg ht, hq]
    · intro e he
      exact ⟨(h.fresh e he).1, Nat.lt_succ_of_lt (h.fresh e he).2⟩

/-- A poll returns the last 512 events published since the previous one. -/
theorem Following.poll_eq {topic : Bytes} {f : Feed τ} {n : Nat} {since : List (BusEvent τ)}
    (h : Following topic f n since) :
    f.bus.poll topic f.cursor =
      (since.rtake 512, ((since.rtake 512).getLast?.map BusEvent.id).getD f.cursor) := by
  obtain ⟨seen, hq, hseen⟩ := h.queue
  have hf : (f.bus.queue topic).filter (fun e => decide (f.cursor < e.id)) = since.rtake 512 := by
    rw [hq]
    apply filter_rtake_append
    · intro e he
      simpa using hseen e he
    · intro e he
      simpa using (h.fresh e he).1
  rw [EventBus.poll_eq, hf]

theorem getLast_rtake (n : Nat) {l : List (BusEvent τ)} (hn : 0 < n) : (l.rtake n).getLast? = l.getLast? := by
  rw [List.rtake, List.getLast?_drop]
  split
  · rename_i h
    have : l = [] := List.eq_nil_of_length_eq_zero (by omega)
    simp [this]
  · rfl

/-- No event is past the cursor the poll returns. -/
theorem le_getLast {l : List (BusEvent τ)} (hs : (l.map BusEvent.id).Pairwise (· < ·)) (c : Nat) :
    ∀ e ∈ l, e.id ≤ (l.getLast?.map BusEvent.id).getD c := by
  intro e he
  obtain ⟨l', x, rfl⟩ := List.eq_nil_or_concat' l |>.resolve_left (List.ne_nil_of_mem he)
  simp only [List.getLast?_append, List.getLast?_singleton, Option.some_or, Option.map_some, Option.getD_some]
  rw [List.map_append, List.pairwise_append] at hs
  rcases List.mem_append.1 he with he | he
  · exact (hs.2.2 _ (List.mem_map_of_mem he) x.id (by simp)).le
  · rw [List.mem_singleton.1 he]

/-- A poll takes all that is left to poll. -/
theorem following_poll {topic : Bytes} {f : Feed τ} {n : Nat} {since : List (BusEvent τ)}
    (h : Following topic f n since) : Following topic (f.step topic .poll) n [] := by
  obtain ⟨seen, hq, hseen⟩ := h.queue
  have hsub := Window.rtake_sublist 512 since
  have hle := le_getLast h.sorted f.cursor
  have hcur : f.cursor ≤ (since.getLast?.map BusEvent.id).getD f.cursor := by
    cases hl : since.getLast? with
    | none => rfl
    | some e => exact (h.fresh e (List.mem_of_getLast? hl)).1.le
  have hlt : (since.getLast?.map BusEvent.id).getD f.cursor < n := by
    cases hl : since.getLast? with
    | none => exact h.cursor_lt
    | some e => exact (h.fresh e (List.mem_of_getLast? hl)).2
  simp only [Feed.step, h.poll_eq, getLast_rtake 512 (by omega)]
  -- what was published since the last poll is now behind the cursor
  refine ⟨h.next, hlt, ⟨seen ++ since, by simpa using hq, ?_⟩, by simp, by simp, ?_, ?_⟩
  · intro e he
    rcases List.mem_append.1 he with he | he
    · exact (hseen e he).trans hcur
    · exact hle e he
  · intro e he
    simp only [List.flatten_append, List.flatten_singleton, List.mem_append] at he
    rcases he with he | he
    · exact (h.delivered e he).trans hcur
    · exact hle e (hsub.subset he)
  · simp only [List.flatten_append, List.flatten_singleton, List.map_append]
    refine List.pairwise_append.2 ⟨h.delivered_sorted, h.sorted.sublist (hsub.map _), ?_⟩
    intro a ha b hb
    obtain ⟨x, hx, rfl⟩ := List.mem_map.1 ha
    obtain ⟨y, hy, rfl⟩ := List.mem_map.1 hb
    exact (h.delivered x hx).trans_lt (h.fresh y (hsub.subset hy)).1

/-! ## Runs -/

/-- Over a run, the polls follow the publications. -/
theorem following_run {topic : Bytes} (ops : List (BusOp τ)) {f : Feed τ} {n : Nat} {since : List (BusEvent τ)}
    (h : Following topic f n since) (hn : n + ops.countP BusOp.isPub ≤ 2 ^ 53) :
    (ops.foldl (Feed.step topic) f).polls = f.polls ++ (sincePolls topic n since ops).map (·.rtake 512) ∧
      ((ops.foldl (Feed.step topic) f).polls.flatten.map BusEvent.id).Pairwise (· < ·) := by
  induction ops generalizing f n since with
  | nil => exact ⟨by simp [sincePolls], h.delivered_sorted⟩
  | cons op ops ih =>
    rw [List.foldl_cons]
    cases op with
    | pub t ts p =>
      rw [List.countP_cons_of_pos rfl] at hn
      exact ih (following_pub h (by omega) t ts p) (by omega)
    | poll =>
      rw [List.countP_cons_of_neg (by simp [BusOp.isPub])] at hn
      have hp := ih (following_poll h) hn
      simp only [Feed.step, h.poll_eq] at hp ⊢
      exact ⟨by simp [hp.1, sincePolls], hp.2⟩

/-- The events of `topic` and their order do not depend on other topics. -/
theorem sincePolls_concerns (topic : Bytes) (ops : List (BusOp τ)) (n m : Nat) (since since' : List (BusEvent τ))
    (h : since.map (fun e => (e.ts, e.payload)) = since'.map fun e => (e.ts, e.payload)) :
    (sincePolls topic n since ops).map (·.map fun e => (e.ts, e.payload)) =
      (sincePolls topic m since' (ops.filter (BusOp.concerns topic))).map (·.map fun e => (e.ts, e.payload)) := by
  induction ops generalizing n m since since' with
  | nil => rfl
  | cons op ops ih =>
    cases op with
    | pub t ts p =>
      by_cases ht : t = topic
      · subst ht
        rw [List.filter_cons_of_pos (by simp [BusOp.concerns])]
        simp only [sincePolls, if_true]
        exact ih _ _ _ _ (by simp [h])
      · rw [List.filter_cons_of_neg (by simp [BusOp.concerns, ht])]
        simp only [sincePolls, if_neg (Ne.symm ht)]
        exact ih _ _ _ _ h
    | poll =>
      rw [List.filter_cons_of_pos rfl]
      simp only [sincePolls, List.map_cons, h, List.cons.injEq, true_and]
      exact ih _ _ _ _ rfl

/-- In any order of publications and polls, each poll returns the last 512 of
the events published on its topic since the previous poll, in order. Nothing
is delivered twice, nothing is lost while at most 512 events are published
between polls, and only ids depend on the other topics. -/
theorem polls_exact (topic : Bytes) (ops : List (BusOp τ)) (h : ops.countP BusOp.isPub < 2 ^ 53) :
    (Feed.run topic ops).polls = (sincePolls topic 1 [] ops).map (·.rtake 512) ∧
    ((Feed.run topic ops).polls.flatten.map BusEvent.id).Pairwise (· < ·) ∧
    ((∀ s ∈ sincePolls topic 1 [] ops, s.length ≤ 512) → (Feed.run topic ops).polls = sincePolls topic 1 [] ops) ∧
    (Feed.run topic ops).polls.map (·.map fun e => (e.ts, e.payload)) =
      (Feed.run topic (ops.filter (BusOp.concerns topic))).polls.map (·.map fun e => (e.ts, e.payload)) := by
  have hc : (ops.filter (BusOp.concerns topic)).countP BusOp.isPub ≤ ops.countP BusOp.isPub :=
    List.filter_sublist.countP_le
  obtain ⟨hp, hs⟩ := following_run ops (following_new topic) (by omega)
  obtain ⟨hp', -⟩ := following_run (ops.filter (BusOp.concerns topic)) (following_new topic) (by omega)
  refine ⟨hp, hs, fun hk => ?_, ?_⟩
  · rw [Feed.run, hp, List.map_congr_left fun s hmem => rtake_eq_self (hk s hmem)]
    simp [Feed.new]
  · have he := congrArg (List.map (List.rtake · 512)) (sincePolls_concerns topic ops 1 1 [] [] rfl)
    rw [Feed.run, Feed.run, hp, hp']
    simpa [Feed.new, Function.comp_def, map_rtake] using he

/-- Two polls of `jobs` with a `udp` publication between them. -/
def jobsAndUdp : List (BusOp Nat) :=
  [.pub (txt "jobs") 5 (txt "a"), .poll, .pub (txt "udp") 6 (txt "x"), .pub (txt "jobs") 7 (txt "b"),
    .pub (txt "jobs") 8 (txt "c"), .poll, .poll]

theorem polls_jobsAndUdp : (Feed.run (txt "jobs") jobsAndUdp).polls =
    [[⟨1, 5, txt "a"⟩], [⟨3, 7, txt "b"⟩, ⟨4, 8, txt "c"⟩], []] := by
  rw [(polls_exact (txt "jobs") jobsAndUdp (by decide)).1]
  decide

end NgxLuaCpp
