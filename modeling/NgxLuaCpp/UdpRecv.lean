import NgxLuaCpp.UdpListener
/-!
# Receiving datagrams

Any number of callers of `udp_recv` share a port's queue with its listener
thread. A call with timeout 0 polls the queue; any other waits for a datagram
on the worker pool. We account for every datagram the listener accepted.
-/

namespace NgxLuaCpp
open Trace

/-! ## The calls -/

/-- `udp_packet_result_t`. -/
structure UdpPacketResult where
  ok : Bool
  payload : Bytes
  fromHost : Bytes
  fromPort : Nat
  err : Bytes

/-- What `udp_recv` returns of a packet. -/
def Packet.result (p : Packet) : UdpPacketResult := ⟨true, p.payload, p.fromHost, p.fromPort, []⟩

/-- The last block of either path, under the listener's mutex. -/
def UdpListener.take (l : UdpListener) : UdpListener × UdpPacketResult :=
  match l.recv with
  | (l, some front) => (l, front.result)
  | (l, none) => (l, ⟨false, [], [], 0, txt "timeout"⟩)

/-- Where a caller is: outside a call, or holding the listener and about to
poll, about to lock it on the pool, or in `wait_for`. -/
inductive Receiver where
  | idle | polling | pooled | waiting
  deriving DecidableEq

/-- A port with its callers, and what their calls returned, the first one first. -/
structure UdpPort (C : Type) where
  listener : UdpListener
  listening : Bool
  stopped : Bool
  receivers : C → Receiver
  results : List (C × UdpPacketResult)

/-- What can happen next: a datagram arrives, a caller goes on, or all listeners are stopped. -/
inductive RecvEvent (C : Type) where
  /-- A pass of the listener thread. -/
  | arrive (received : Option (Bytes × SockAddr)) (named : Bool)
  /-- A caller of `udp_recv` looks up the listener. -/
  | call (c : C) (timeoutMs : Nat)
  /-- It polls. -/
  | poll (c : C)
  /-- Its task locks the listener. -/
  | lock (c : C)
  /-- Its task wakes up in `wait_for`. -/
  | wake (c : C) (timedOut : Bool)
  /-- `stop_impl` stops the listeners and forgets them. -/
  | stop

namespace UdpPort
variable {C : Type} [DecidableEq C]

/-- A port that is listened to, with nobody in a call. -/
def new : UdpPort C := ⟨.new, true, false, fun _ => .idle, []⟩

def returns (s : UdpPort C) (c : C) (r : UdpPacketResult) : UdpPort C :=
  { s with receivers := Function.update s.receivers c .idle, results := s.results ++ [(c, r)] }

def take (s : UdpPort C) (c : C) : UdpPort C :=
  { s with listener := s.listener.take.1 }.returns c s.listener.take.2

/-- A step; an event that cannot happen in a state does nothing. -/
def step (port : Nat) (s : UdpPort C) : RecvEvent C → UdpPort C
  | .arrive received named => { s with listener := s.listener.run received named }
  | .call c timeoutMs =>
    if s.receivers c ≠ .idle then s
    else if !s.listening then s.returns c ⟨false, [], [], 0, txt "not listening on port " ++ decimal port⟩
    else { s with receivers := Function.update s.receivers c (if timeoutMs = 0 then .polling else .pooled) }
  | .poll c => if s.receivers c = .polling then s.take c else s
  | .lock c =>
    if s.receivers c = .pooled then
      -- `wait_for` first checks its predicate
      if s.listener.queue = [] ∧ s.stopped = false then
        { s with receivers := Function.update s.receivers c .waiting }
      else s.take c
    else s
  | .wake c timedOut =>
    if s.receivers c = .waiting then
      if s.listener.queue = [] ∧ s.stopped = false ∧ timedOut = false then s
      else s.take c
    else s
  | .stop => { s with stopped := true, listening := false }

/-- The port after these events. -/
def run (port : Nat) (evs : List (RecvEvent C)) : UdpPort C := evs.foldl (step port) new

theorem run_concat (port : Nat) (evs : List (RecvEvent C)) (ev : RecvEvent C) :
    run port (evs ++ [ev]) = (run port evs).step port ev := List.foldl_concat ..

end UdpPort

/-! ## What becomes of a datagram -/

variable {C : Type}

/-- The datagram the listener accepts. -/
def RecvEvent.packet : RecvEvent C → Option Packet
  | .arrive (some (buf, src)) true => some ⟨buf, src.host, number src.serv⟩
  | _ => none

/-- The datagrams accepted in a run, in order. -/
def accepted (evs : List (RecvEvent C)) : List Packet := evs.filterMap RecvEvent.packet

/-- What became of a datagram: still queued, returned to a caller, or dropped by the bounded
queue. -/
inductive Fate (C : Type) where
  | queued
  | delivered (c : C)
  | dropped

def Fate.ifQueued : Packet × Fate C → Option Packet
  | (p, .queued) => some p
  | _ => none

/-- What a call returned for a delivered datagram. -/
def Fate.ifDelivered : Packet × Fate C → Option (C × UdpPacketResult)
  | (p, .delivered c) => some (c, p.result)
  | _ => none

variable [DecidableEq C]

/-- At some moment of the run a datagram arrived when the queue held 4096, of
which the `i`-th datagram accepted was the oldest. -/
def Overflows (port : Nat) (evs : List (RecvEvent C)) (i : Nat) : Prop :=
  Sometime (fun pre ev => ev.packet.isSome ∧ (UdpPort.run port pre).listener.queue.length = 4096 ∧
    (UdpPort.run port pre).listener.queue = (accepted pre).drop i) evs

/-- Every accepted datagram has one fate. The queued ones are the queue, in
order of arrival; the delivered ones are what the calls returned, in order of
arrival; and the dropped ones are those that were the oldest of 4097. -/
structure Accounted (port : Nat) (evs : List (RecvEvent C)) (fates : List (Fate C)) : Prop where
  each : fates.length = (accepted evs).length
  queued : (UdpPort.run port evs).listener.queue = ((accepted evs).zip fates).filterMap Fate.ifQueued
  bounded : (UdpPort.run port evs).listener.queue.length ≤ 4096
  delivered : (UdpPort.run port evs).results.filter (fun r => r.2.ok)
    = ((accepted evs).zip fates).filterMap Fate.ifDelivered
  dropped : ∀ i, fates[i]? = some .dropped ↔ Overflows port evs i

/-! ## The invariant -/

/-- `done` are the fates of the datagrams that left the queue. As they leave it
at the front, what is queued are all later ones. -/
structure Tally (port : Nat) (evs : List (RecvEvent C)) (done : List (Fate C)) : Prop where
  le : done.length ≤ (accepted evs).length
  settled : ∀ f ∈ done, f ≠ .queued
  queue : (UdpPort.run port evs).listener.queue = (accepted evs).drop done.length
  bounded : (UdpPort.run port evs).listener.queue.length ≤ 4096
  delivered : (UdpPort.run port evs).results.filter (fun r => r.2.ok)
    = ((accepted evs).zip done).filterMap Fate.ifDelivered
  dropped : ∀ i, done[i]? = some .dropped ↔ Overflows port evs i

theorem zip_append_right {α β : Type} {l : List α} {done : List β} (h : done.length ≤ l.length) (rest : List β) :
    l.zip (done ++ rest) = l.zip done ++ (l.drop done.length).zip rest := by
  induction done generalizing l with
  | nil => simp
  | cons b done ih =>
    cases l with
    | nil => simp at h
    | cons a l => simp [ih (by simpa using h)]

theorem zip_append_left {α β : Type} {l : List α} {done : List β} (h : done.length ≤ l.length) (l' : List α) :
    (l ++ l').zip done = l.zip done := by
  induction done generalizing l with
  | nil => simp
  | cons b done ih =>
    cases l with
    | nil => simp at h
    | cons a l => simp [ih (by simpa using h)]

theorem overflows_concat (port : Nat) (evs : List (RecvEvent C)) (ev : RecvEvent C) (i : Nat) :
    Overflows port (evs ++ [ev]) i ↔ Overflows port evs i ∨
      ev.packet.isSome ∧ (UdpPort.run port evs).listener.queue.length = 4096 ∧
        (UdpPort.run port evs).listener.queue = (accepted evs).drop i :=
  sometime_concat

omit [DecidableEq C] in
theorem accepted_concat (evs : List (RecvEvent C)) (ev : RecvEvent C) :
    accepted (evs ++ [ev]) = accepted evs ++ ev.packet.toList := by
  rw [accepted, List.filterMap_append, accepted]
  cases h : ev.packet <;> simp [h]

omit [DecidableEq C] in
/-- The listener's queue after a pass of its thread. -/
theorem run_queue (l : UdpListener) (received : Option (Bytes × SockAddr)) (named : Bool) :
    (l.run received named).queue = match (RecvEvent.arrive received named : RecvEvent C).packet with
      | none => l.queue
      | some p => Window.push 4096 l.queue p := by
  rcases received with _ | ⟨buf, src⟩
  · rfl
  · cases named <;> rfl

/-- A step that accepts nothing and takes nothing. -/
theorem Tally.unchanged {port : Nat} {evs : List (RecvEvent C)} {done : List (Fate C)} (h : Tally port evs done)
    {ev : RecvEvent C} (hev : ev.packet = none)
    (hq : ((UdpPort.run port evs).step port ev).listener.queue = (UdpPort.run port evs).listener.queue)
    (hr : ((UdpPort.run port evs).step port ev).results.filter (fun r => r.2.ok)
      = (UdpPort.run port evs).results.filter (fun r => r.2.ok)) : Tally port (evs ++ [ev]) done := by
  have ha : accepted (evs ++ [ev]) = accepted evs := by rw [accepted_concat, hev, Option.toList_none, List.append_nil]
  refine ⟨?_, h.settled, ?_, ?_, ?_, ?_⟩
  · rw [ha]
    exact h.le
  · rw [UdpPort.run_concat, hq, ha, h.queue]
  · rw [UdpPort.run_concat, hq]
    exact h.bounded
  · rw [UdpPort.run_concat, hr, ha, h.delivered]
  · intro i
    rw [overflows_concat, hev, h.dropped]
    simp

/-- A call takes the oldest datagram, if there is one. -/
theorem Tally.take {port : Nat} {evs : List (RecvEvent C)} {done : List (Fate C)} (h : Tally port evs done)
    {ev : RecvEvent C} (hev : ev.packet = none) {c : C}
    (hs : (UdpPort.run port evs).step port ev = (UdpPort.run port evs).take c) :
    ∃ done', Tally port (evs ++ [ev]) done' := by
  cases hq : (UdpPort.run port evs).listener.queue with
  | nil =>
    refine ⟨done, h.unchanged hev ?_ ?_⟩
    · rw [hs]
      simp [UdpPort.take, UdpPort.returns, UdpListener.take, UdpListener.recv, hq]
    · rw [hs]
      simp [UdpPort.take, UdpPort.returns, UdpListener.take, UdpListener.recv, hq]
  | cons p rest =>
    have ha : accepted (evs ++ [ev]) = accepted evs := by rw [accepted_concat, hev, Option.toList_none, List.append_nil]
    have hdrop : (accepted evs).drop done.length = p :: rest := by rw [← h.queue, hq]
    have hlt : done.length < (accepted evs).length := by
      have := congrArg List.length hdrop
      rw [List.length_drop, List.length_cons] at this
      omega
    have hrest : (accepted evs).drop (done.length + 1) = rest := by rw [← List.drop_drop, hdrop]; rfl
    have htake : (UdpPort.run port evs).listener.take
        = ({ (UdpPort.run port evs).listener with queue := rest }, p.result) := by
      rw [UdpListener.take, UdpListener.recv, hq]
    refine ⟨done ++ [.delivered c], ?_, ?_, ?_, ?_, ?_, ?_⟩
    · rw [ha, List.length_append]
      exact hlt
    · intro f hf
      rcases List.mem_append.1 hf with hf | hf
      · exact h.settled f hf
      · simp [List.mem_singleton.1 hf]
    · rw [UdpPort.run_concat, hs, ha, List.length_append, List.length_singleton, hrest, UdpPort.take, htake]
      rfl
    · rw [UdpPort.run_concat, hs, UdpPort.take, htake]
      have := h.bounded
      rw [hq, List.length_cons] at this
      exact Nat.le_of_succ_le this
    · rw [UdpPort.run_concat, hs, ha, zip_append_right hlt.le, List.filterMap_append, ← h.delivered, hdrop,
        UdpPort.take, htake]
      simp [UdpPort.returns, List.filter_append, Packet.result, Fate.ifDelivered]
    · intro i
      rw [overflows_concat, hev, ← h.dropped, List.getElem?_append]
      split
      · simp
      · -- past the fates there is only the new one
        rename_i hi
        rw [List.getElem?_eq_none (Nat.le_of_not_lt hi)]
        cases i - done.length <;> simp

/-- A datagram arrives; when the queue is full the oldest one is dropped. -/
theorem Tally.arrive {port : Nat} {evs : List (RecvEvent C)} {done : List (Fate C)} (h : Tally port evs done)
    {received : Option (Bytes × SockAddr)} {named : Bool} {p : Packet}
    (hp : (RecvEvent.arrive received named : RecvEvent C).packet = some p) :
    ∃ done', Tally port (evs ++ [.arrive received named]) done' := by
  have ha : accepted (evs ++ [.arrive received named]) = accepted evs ++ [p] := by
    rw [accepted_concat, hp, Option.toList_some]
  have hq : (UdpPort.run port (evs ++ [.arrive received named])).listener.queue
      = Window.push 4096 (UdpPort.run port evs).listener.queue p := by
    rw [UdpPort.run_concat, UdpPort.step, run_queue (C := C), hp]
  have hres : (UdpPort.run port (evs ++ [.arrive received named])).results = (UdpPort.run port evs).results := by
    rw [UdpPort.run_concat]
    rfl
  have hlen : (UdpPort.run port evs).listener.queue.length = (accepted evs).length - done.length := by
    rw [h.queue, List.length_drop]
  have hle := h.le
  have hbound := h.bounded
  by_cases hfull : (UdpPort.run port evs).listener.queue.length = 4096
  · have hpush : Window.push 4096 (UdpPort.run port evs).listener.queue p
        = (accepted evs ++ [p]).drop (done.length + 1) := by
      rw [Window.push, if_pos (by simp [hfull]), h.queue, ← List.drop_append_of_le_length hle, List.tail_drop]
    refine ⟨done ++ [.dropped], ?_, ?_, ?_, ?_, ?_, ?_⟩
    · simp [ha, hle]
    · intro f hf
      rcases List.mem_append.1 hf with hf | hf
      · exact h.settled f hf
      · simp [List.mem_singleton.1 hf]
    · rw [hq, hpush, ha, List.length_append, List.length_singleton]
    · rw [hq, hpush, List.length_drop, List.length_append, List.length_singleton]
      omega
    · rw [hres, h.delivered, ha, zip_append_right (by simp; omega), List.filterMap_append, zip_append_left hle]
      cases ((accepted evs ++ [p]).drop done.length) <;> simp [Fate.ifDelivered]
    · intro i
      rw [overflows_concat, hp, ← h.dropped]
      by_cases hi : i = done.length
      · subst hi
        exact iff_of_true (by simp) (.inr ⟨rfl, hfull, h.queue⟩)
      · have hother : (UdpPort.run port evs).listener.queue ≠ (accepted evs).drop i := by
          intro e
          have := congrArg List.length e
          rw [List.length_drop] at this
          omega
        rw [List.getElem?_append]
        split
        · simp [hother]
        · rename_i hlt
          rw [List.getElem?_eq_none (Nat.le_of_not_lt hlt), List.getElem?_eq_none]
          · simp [hother]
          · rw [List.length_singleton]
            omega
  · have hpush : Window.push 4096 (UdpPort.run port evs).listener.queue p
        = (UdpPort.run port evs).listener.queue ++ [p] := by
      rw [Window.push, if_neg (by simp; omega)]
    refine ⟨done, ?_, h.settled, ?_, ?_, ?_, ?_⟩
    · rw [ha, List.length_append]
      omega
    · rw [hq, hpush, ha, h.queue, List.drop_append_of_le_length hle]
    · rw [hq, hpush, List.length_append, List.length_singleton]
      omega
    · rw [hres, h.delivered, ha, zip_append_left hle]
    · intro i
      rw [overflows_concat, h.dropped]
      simp [hfull]

/-- Every event leaves each datagram with one fate. -/
theorem Tally.step {port : Nat} {evs : List (RecvEvent C)} {done : List (Fate C)} (h : Tally port evs done)
    (ev : RecvEvent C) : ∃ done', Tally port (evs ++ [ev]) done' := by
  cases ev with
  | arrive received named =>
    cases hp : (RecvEvent.arrive received named : RecvEvent C).packet with
    | none =>
      refine ⟨done, h.unchanged hp ?_ rfl⟩
      rw [UdpPort.step, run_queue (C := C), hp]
    | some p => exact h.arrive hp
  | call c timeoutMs =>
    refine ⟨done, h.unchanged rfl ?_ ?_⟩
    · simp only [UdpPort.step]
      split_ifs <;> rfl
    · -- a call that finds no listener returns no datagram
      simp only [UdpPort.step]
      split_ifs <;> simp [UdpPort.returns]
  | poll c =>
    by_cases hc : (UdpPort.run port evs).receivers c = .polling
    · exact h.take (c := c) rfl (if_pos hc)
    · have hs : (UdpPort.run port evs).step port (.poll c) = UdpPort.run port evs := if_neg hc
      exact ⟨done, h.unchanged rfl (by rw [hs]) (by rw [hs])⟩
  | lock c =>
    by_cases hc : (UdpPort.run port evs).receivers c = .pooled
    · by_cases hw : (UdpPort.run port evs).listener.queue = [] ∧ (UdpPort.run port evs).stopped = false
      · refine ⟨done, h.unchanged rfl ?_ ?_⟩
        · simp only [UdpPort.step, if_pos hc, if_pos hw]
        · simp only [UdpPort.step, if_pos hc, if_pos hw]
      · exact h.take (c := c) rfl ((if_pos hc).trans (if_neg hw))
    · have hs : (UdpPort.run port evs).step port (.lock c) = UdpPort.run port evs := if_neg hc
      exact ⟨done, h.unchanged rfl (by rw [hs]) (by rw [hs])⟩
  | wake c timedOut =>
    by_cases hc : (UdpPort.run port evs).receivers c = .waiting
    · by_cases hw : (UdpPort.run port evs).listener.queue = [] ∧ (UdpPort.run port evs).stopped = false ∧
          timedOut = false
      · have hs : (UdpPort.run port evs).step port (.wake c timedOut) = UdpPort.run port evs :=
          (if_pos hc).trans (if_pos hw)
        exact ⟨done, h.unchanged rfl (by rw [hs]) (by rw [hs])⟩
      · exact h.take (c := c) rfl ((if_pos hc).trans (if_neg hw))
    · have hs : (UdpPort.run port evs).step port (.wake c timedOut) = UdpPort.run port evs := if_neg hc
      exact ⟨done, h.unchanged rfl (by rw [hs]) (by rw [hs])⟩
  | stop => exact ⟨done, h.unchanged rfl rfl rfl⟩

theorem tally (port : Nat) (evs : List (RecvEvent C)) : ∃ done, Tally port evs done := by
  induction evs using List.reverseRecOn with
  | nil =>
    refine ⟨[], le_rfl, ?_, rfl, ?_, rfl, ?_⟩
    · simp
    · exact Nat.zero_le _
    · simp [Overflows, Sometime]
  | append_singleton evs ev ih =>
    obtain ⟨done, h⟩ := ih
    exact h.step ev

/-! ## Every run -/

omit [DecidableEq C] in
theorem queued_replicate (ps : List Packet) :
    (ps.zip (List.replicate ps.length (.queued : Fate C))).filterMap Fate.ifQueued = ps := by
  induction ps with
  | nil => rfl
  | cons p ps ih => simpa [List.replicate_succ, Fate.ifQueued] using ih

omit [DecidableEq C] in
theorem delivered_replicate (ps : List Packet) (n : Nat) :
    (ps.zip (List.replicate n (.queued : Fate C))).filterMap Fate.ifDelivered = [] := by
  rw [List.filterMap_eq_nil_iff]
  rintro ⟨p, f⟩ hmem
  rw [List.eq_of_mem_replicate (List.of_mem_zip hmem).2]
  rfl

omit [DecidableEq C] in
theorem queued_settled {done : List (Fate C)} (h : ∀ f ∈ done, f ≠ .queued) (ps : List Packet) :
    (ps.zip done).filterMap Fate.ifQueued = [] := by
  rw [List.filterMap_eq_nil_iff]
  rintro ⟨p, f⟩ hmem
  have hf := h f (List.of_mem_zip hmem).2
  cases f with
  | queued => exact absurd rfl hf
  | delivered c => rfl
  | dropped => rfl

/-- Whatever arrives and whoever receives, in whatever order, every datagram the
listener accepted is accounted for. -/
theorem datagrams_accounted (port : Nat) (evs : List (RecvEvent C)) :
    ∃ fates : List (Fate C), Accounted port evs fates := by
  obtain ⟨done, h⟩ := tally port evs
  have hle := h.le
  refine ⟨done ++ List.replicate ((accepted evs).drop done.length).length .queued, ?_, ?_, h.bounded, ?_, ?_⟩
  · rw [List.length_append, List.length_replicate, List.length_drop]
    omega
  · rw [zip_append_right hle, List.filterMap_append, queued_settled h.settled, queued_replicate, List.nil_append, h.queue]
  · rw [zip_append_right hle, List.filterMap_append, delivered_replicate, List.append_nil, h.delivered]
  · intro i
    rw [← h.dropped, List.getElem?_append]
    split
    · rfl
    · rename_i hi
      rw [List.getElem?_eq_none (Nat.le_of_not_lt hi), List.getElem?_replicate]
      split <;> simp

end NgxLuaCpp
