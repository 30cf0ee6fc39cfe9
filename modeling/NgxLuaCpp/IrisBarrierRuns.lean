import NgxLuaCpp.IrisBarrier
import NgxLuaCpp.Lib.Trace
/-!
# Runs of a barrier

`complete` empties `handles` while nobody runs, and hands out what it has collected
while others arrive again. We show that every step of a calm run keeps the invariant.
-/
open Monitor Trace

namespace NgxLuaCpp.IrisBarrier

namespace Barrier
variable {κ : Type} {s s' : Barrier κ} {coroutines : List κ} {i : Nat} {pc q : Pc κ}

/-- The one call in `complete` is the only one that weighs. -/
theorem weight_alone {f : Pc κ → Nat} {calls : List (Pc κ)} (hsingle : weight Pc.completes calls ≤ 1)
    (hi : calls[i]? = some pc) (hpc : pc.completes = 1) (hle : ∀ d, f d ≤ Pc.completes d) : weight f calls = f pc := by
  have hf : weight f (calls.set i .ended) + f pc = weight f calls + f .ended := weight_moved hi
  have hcompletes : weight Pc.completes (calls.set i .ended) + pc.completes = weight Pc.completes calls + 0 :=
    weight_moved hi
  have hothers := weight_le hle (calls.set i .ended)
  have hended : f .ended ≤ 0 := hle .ended
  omega

theorem early_le (pc : Pc κ) : pc.early ≤ pc.completes :=
  (Nat.le_add_left _ _).trans (early_le_completes pc)

theorem copying_le_completes (pc : Pc κ) : pc.copying ≤ pc.completes := (copying_le_early pc).trans (early_le pc)

section Completes
variable (h : Inv coroutines s) (hi : s.calls[i]? = some pc)
include h hi

/-- `complete` goes on: `handles` is not empty yet, or it hands out what it has collected. -/
theorem Inv.completes (hpc : pc.completes = 1) (hq : q.exchanging = 0) (hcalls : s'.calls = s.calls.set i q)
    (hsame : s'.running = s.running ∧ s'.left = s.left ∧ s'.handles.length = s.handles.length)
    (hkeeps : ↑s'.dispatched + q.carries + s'.held + s'.due = ↑s.dispatched + pc.carries + s.held + s.due)
    (hmax : s'.maxAwaitCount + pc.leaving + s.releaseAwaitCount =
      s.maxAwaitCount + q.leaving + s'.releaseAwaitCount)
    (hreleased : q.leaving + s'.releaseAwaitCount ≤ pc.leaving + s.releaseAwaitCount)
    (hshrunk : s'.maxAwaitCount = s.maxAwaitCount ∨
      s'.maxAwaitCount ≤ s.maxAwaitCount ∧ ∀ c, weight (Pc.compares c) s.calls = 0)
    (hnobody : pc.nobody = 0 ∧ q.nobody = 0) (hcompares : ∀ c, pc.compares c = 0 ∧ q.compares c = 0)
    (hcommits : pc.exchanging + pc.early = 1 ∧ s'.commitCount = 0 ∨
      pc.exchanging + pc.early = 0 ∧ q.early = 0 ∧ s'.commitCount = s.commitCount ∧
        s'.maxAwaitCount = s.maxAwaitCount)
    (hgathers : q.early = 0 → s'.Gathers)
    (hstage : q.completes = 1 ∧ Stage s' q ∨ q.completes = 0) : Inv coroutines s' := by
  have m := moved hi q
  rw [← hcalls] at m
  obtain ⟨hrunning, hleft, hlength⟩ := hsame
  have hcompletes := m.completes
  have hsingle : weight Pc.completes s'.calls ≤ 1 := by
    have hsingle := h.single
    have hq' : q.completes ≤ 1 := by
      rcases hstage with ⟨hone, -⟩ | hzero <;> omega
    omega
  have hearly : weight Pc.early s.calls = pc.early := weight_alone h.single hi hpc early_le
  have hexchanging : weight Pc.exchanging s.calls = pc.exchanging :=
    weight_alone h.single hi hpc fun d => (Nat.le_add_right _ _).trans (early_le_completes d)
  have hearly' : weight Pc.early s'.calls = q.early := by
    have hmoved := m.early
    omega
  have hexchanging' : weight Pc.exchanging s'.calls = 0 := by
    have hmoved := m.exchanging
    omega
  have hqEarly := early_le_completes q
  have hqCompletes : q.completes ≤ 1 := by
    rcases hstage with ⟨hone, -⟩ | hzero <;> omega
  have hcompareSame : ∀ c, weight (Pc.compares c) s'.calls = weight (Pc.compares c) s.calls := by
    intro c
    have hmoved := m.compares c
    have hzero := hcompares c
    omega
  have htrigger := h.trigger
  have hwoken := h.woken
  refine ⟨?_, ?_, ?_, hlength.trans h.length, hsingle, ?_, fun c hc => ?_, ?_, ?_,
    fun hnone => hgathers (hearly' ▸ hnone), ?_⟩
  · have hmoved := m.carries
    rw [hrunning, hleft, ← h.inventory]
    apply add_right_cancel (b := pc.carries)
    calc ↑s.running + ↑s'.dispatched + weight Pc.carries s'.calls + s'.held + s'.due + ↑s.left + pc.carries
        = ↑s.running + ↑s'.dispatched + (weight Pc.carries s'.calls + pc.carries) + s'.held + s'.due + ↑s.left := by
          abel
      _ = ↑s.running + weight Pc.carries s.calls + (↑s'.dispatched + q.carries + s'.held + s'.due) + ↑s.left := by
        rw [hmoved]
        abel
      _ = ↑s.running + ↑s.dispatched + weight Pc.carries s.calls + s.held + s.due + ↑s.left + pc.carries := by
        rw [hkeeps]
        abel
  · have hmoved := m.leaving
    have hshrinks := h.shrinks
    rw [hleft]
    omega
  · have hmoved := m.leaving
    have hleaves := h.leaves
    rw [hleft]
    omega
  · have hmoved := m.nobody
    have hpositive := h.positive
    omega
  · rw [hcompareSame]
    rcases hshrunk with heq | ⟨-, hnone⟩
    · exact h.bounds c (heq ▸ hc)
    · exact hnone c
  · rw [hcompareSame, hexchanging', hearly']
    rcases hcommits with ⟨hone, -⟩ | ⟨hnone, hlate, -, hmax'⟩
    · rcases hshrunk with heq | ⟨-, hnone⟩
      · rw [heq]
        omega
      · rw [hnone]
        omega
    · rw [hmax']
      omega
  · rw [hcompareSame, hexchanging']
    rcases hcommits with ⟨hone, hzero⟩ | ⟨hnone, -, hsame, hmax'⟩
    · rcases hshrunk with heq | ⟨-, hnone⟩
      · rw [heq]
        omega
      · rw [hnone]
        omega
    · rw [hsame, hmax']
      omega
  · rcases hstage with ⟨hone, hstage⟩ | hzero
    · exact stage_moved hi hcalls hsingle hone hstage
    · apply stage_of_early
      omega

end Completes

theorem Inv.due_of_not_copying (h : Inv coroutines s) (hi : s.calls[i]? = some pc) (hpc : pc.completes = 1)
    (hcopying : pc.copying = 0) : s.due = 0 :=
  due_eq ((weight_alone h.single hi hpc copying_le_completes).trans hcopying)

/-- So after a step of the call in `complete`. -/
theorem Inv.due_moved (h : Inv coroutines s) (s' : Barrier κ) (hi : s.calls[i]? = some pc) (hpc : pc.completes = 1)
    (hcalls : s'.calls = s.calls.set i q) (hq : q.copying = 0) : s'.due = 0 := by
  apply due_eq
  have hcopying : weight Pc.copying (s.calls.set i q) + pc.copying = weight Pc.copying s.calls + q.copying :=
    weight_moved hi
  have halone : weight Pc.copying s.calls = pc.copying := weight_alone h.single hi hpc copying_le_completes
  rw [hcalls]
  omega

theorem Quiet.moved (h : s.Quiet) (hi : s.calls[i]? = some pc) (hpc : pc.active = 0)
    (hcalls : s'.calls = s.calls.set i q) (hq : q.active = 0) (hrunning : s'.running = s.running) (hdispatched : s'.dispatched = s.dispatched)
    (hcommits : s'.commitCount = s.commitCount) : s'.Quiet := by
  refine ⟨hrunning.trans h.running, hdispatched.trans h.dispatched, ?_, hcommits.trans h.commits⟩
  have hactive : weight Pc.active (s.calls.set i q) + pc.active = weight Pc.active s.calls + q.active := weight_moved hi
  have hnone := h.active
  rw [hcalls]
  omega

/-- The last to arrive finds everyone there. -/
theorem Inv.all_here (h : Inv coroutines s) (hi : s.calls[i]? = some .exchange) :
    s.running = [] ∧ s.dispatched = [] ∧ weight Pc.active s.calls = 0 ∧ weight Pc.carries s.calls = 0 ∧ s.due = 0 ∧
      s.held.card + s.releaseAwaitCount = s.maxAwaitCount ∧ ∀ j, s.maxAwaitCount ≤ j → s.filled j = 0 := by
  have hearly : weight Pc.early s.calls = 0 := weight_alone h.single hi rfl early_le
  have hexchanging := le_weight (f := Pc.exchanging) hi
  simp only [Pc.exchanging] at hexchanging
  have htrigger := h.trigger
  have hgathers := h.gathers hearly
  obtain ⟨hrunning, hdispatched, hactive, hheld, -, hcarries⟩ := h.full hgathers (h.woken.2 (by omega)).2
  refine ⟨hrunning, hdispatched, hactive, Multiset.card_eq_zero.1 hcarries, h.due_of_not_copying hi rfl rfl, hheld,
    fun j hj => ?_⟩
  have hslots := hgathers.slots
  have hwriting := writing_le s.calls
  have hindices := hgathers.indices j
  rw [if_neg (by omega)] at hindices
  omega

theorem Inv.exchange (h : Inv coroutines s) (hi : s.calls[i]? = some .exchange) :
    Inv coroutines ({ s with commitCount := 0 }.goto i .resetSlot) := by
  obtain ⟨hrunning, hdispatched, hactive, -, hdue, hheld, hfilled⟩ := h.all_here hi
  have hmoved : weight Pc.active (s.calls.set i (.resetSlot : Pc κ)) + 0 = weight Pc.active s.calls + 0 :=
    weight_moved hi
  have hdue' := h.due_moved ({ s with commitCount := 0 }.goto i .resetSlot) hi rfl rfl rfl
  refine h.completes hi rfl rfl rfl ⟨rfl, rfl, rfl⟩ ?_ rfl le_rfl (.inl rfl) ⟨rfl, rfl⟩ (fun _ => ⟨rfl, rfl⟩)
    (.inl ⟨rfl, rfl⟩) (fun hnone => by cases hnone) (.inl ⟨rfl, ⟨hrunning, hdispatched, ?_, rfl⟩, hheld, hfilled⟩)
  · rw [hdue, hdue']
    rfl
  · show weight Pc.active (s.calls.set i _) = 0
    omega

theorem Inv.resetSlot (h : Inv coroutines s) (hi : s.calls[i]? = some .resetSlot) :
    Inv coroutines ({ s with slotCount := 0 }.goto i .loadMax) := by
  obtain ⟨hquiet, hheld, hfilled⟩ := h.stage _ (List.mem_of_getElem? hi)
  have hdue := h.due_of_not_copying hi rfl rfl
  have hdue' := h.due_moved ({ s with slotCount := 0 }.goto i .loadMax) hi rfl rfl rfl
  refine h.completes hi rfl rfl rfl ⟨rfl, rfl, rfl⟩ ?_ rfl le_rfl (.inl rfl) ⟨rfl, rfl⟩ (fun _ => ⟨rfl, rfl⟩)
    (.inl ⟨rfl, hquiet.commits⟩) (fun hnone => by cases hnone)
    (.inl ⟨rfl, hquiet.moved hi rfl rfl rfl rfl rfl rfl, rfl, hheld, hfilled⟩)
  rw [hdue, hdue']
  rfl

theorem Inv.loadMax (h : Inv coroutines s) (hi : s.calls[i]? = some .loadMax) :
    Inv coroutines (s.goto i (.exchangeRelease s.maxAwaitCount)) := by
  obtain ⟨hquiet, hslots, hheld, hfilled⟩ := h.stage _ (List.mem_of_getElem? hi)
  have hdue := h.due_of_not_copying hi rfl rfl
  have hdue' := h.due_moved (s.goto i (.exchangeRelease s.maxAwaitCount)) hi rfl rfl rfl
  refine h.completes hi rfl rfl rfl ⟨rfl, rfl, rfl⟩ ?_ rfl le_rfl (.inl rfl) ⟨rfl, rfl⟩ (fun _ => ⟨rfl, rfl⟩)
    (.inl ⟨rfl, hquiet.commits⟩) (fun hnone => by cases hnone)
    (.inl ⟨rfl, hquiet.moved hi rfl rfl rfl rfl rfl rfl, hslots, rfl, hheld, hfilled⟩)
  rw [hdue, hdue']
  rfl

theorem Inv.exchangeRelease {last : Nat} (h : Inv coroutines s) (hi : s.calls[i]? = some (.exchangeRelease last)) :
    Inv coroutines ({ s with releaseAwaitCount := 0 }.goto i (.storeMax last s.releaseAwaitCount)) := by
  obtain ⟨hquiet, hslots, hlast, hheld, hfilled⟩ := h.stage _ (List.mem_of_getElem? hi)
  have hdue := h.due_of_not_copying hi rfl rfl
  have hdue' := h.due_moved ({ s with releaseAwaitCount := 0 }.goto i (.storeMax last s.releaseAwaitCount)) hi
    rfl rfl rfl
  refine h.completes hi rfl rfl rfl ⟨rfl, rfl, rfl⟩ ?_ rfl ?_ (.inl rfl) ⟨rfl, rfl⟩ (fun _ => ⟨rfl, rfl⟩)
    (.inl ⟨rfl, hquiet.commits⟩) (fun hnone => by cases hnone)
    (.inl ⟨rfl, hquiet.moved hi rfl rfl rfl rfl rfl rfl, hslots, hlast, rfl, hheld, hfilled⟩)
  · rw [hdue, hdue']
    rfl
  · show s.releaseAwaitCount + 0 ≤ 0 + s.releaseAwaitCount
    omega

/-- The calls that have left are expected no more. -/
theorem Inv.storeMax {last released : Nat} (h : Inv coroutines s) (hi : s.calls[i]? = some (.storeMax last released))
    (hcalm : released ≠ 0 → ∀ d ∈ s.calls, d.comparing = 0) :
    Inv coroutines ({ s with maxAwaitCount := last - released }.goto i (.clear last)) := by
  obtain ⟨hquiet, hslots, hlast, hrelease, hheld, hfilled⟩ := h.stage _ (List.mem_of_getElem? hi)
  have hdue := h.due_of_not_copying hi rfl rfl
  have hdue' := h.due_moved ({ s with maxAwaitCount := last - released }.goto i (.clear last)) hi rfl rfl rfl
  have hmax : last - released = s.maxAwaitCount ∨
      last - released ≤ s.maxAwaitCount ∧ ∀ c, weight (Pc.compares c) s.calls = 0 := by
    rcases eq_or_ne released 0 with rfl | hreleased
    · exact .inl hlast
    · refine .inr ⟨by omega, fun c => weight_eq_zero fun d hd => ?_⟩
      cases d with
      | compare count => cases hcalm hreleased _ hd
      | _ => rfl
  have hleaves := h.leaves
  have hshrinks := h.shrinks
  have hlength := h.length
  refine h.completes hi rfl rfl rfl ⟨rfl, rfl, rfl⟩ ?_ ?_ ?_ hmax ⟨rfl, rfl⟩ (fun _ => ⟨rfl, rfl⟩)
    (.inl ⟨rfl, hquiet.commits⟩) (fun hnone => by cases hnone)
    (.inl ⟨rfl, hquiet.moved hi rfl rfl rfl rfl rfl rfl, hslots, hrelease, ?_, ?_, hfilled⟩)
  · rw [hdue, hdue']
    rfl
  · show last - released + released + s.releaseAwaitCount = s.maxAwaitCount + 0 + s.releaseAwaitCount
    omega
  · show 0 + s.releaseAwaitCount ≤ released + s.releaseAwaitCount
    omega
  · show s.held.card = last - released
    omega
  · show last ≤ s.handles.length
    omega

theorem Inv.clear {last : Nat} (h : Inv coroutines s) (hi : s.calls[i]? = some (.clear last)) :
    Inv coroutines ({ s with snapshot := [] }.goto i (.copy last 0)) := by
  obtain ⟨hquiet, hslots, hrelease, hheld, hlast, hfilled⟩ := h.stage _ (List.mem_of_getElem? hi)
  have hdue := h.due_of_not_copying hi rfl rfl
  have hdue' : ({ s with snapshot := [] }.goto i (.copy last 0)).due = 0 := by
    rw [due]
    split <;> rfl
  refine h.completes hi rfl rfl rfl ⟨rfl, rfl, rfl⟩ ?_ rfl le_rfl (.inl rfl) ⟨rfl, rfl⟩ (fun _ => ⟨rfl, rfl⟩)
    (.inl ⟨rfl, hquiet.commits⟩) (fun hnone => by cases hnone)
    (.inl ⟨rfl, hquiet.moved hi rfl rfl rfl rfl rfl rfl, hslots, hrelease, hheld, hlast, fun j hj => hfilled j ?_⟩)
  · rw [hdue, hdue']
    rfl
  · exact hj.resolve_right (Nat.not_lt_zero j)

theorem due_of_copying (hi : s.calls[i]? = some pc) (hpc : pc.copying = 1) : s.due = s.snapshot := by
  have hle := le_weight (f := Pc.copying) hi
  exact if_neg (by omega)

/-- An entry of `handles` is collected. -/
theorem Inv.copy {last k : Nat} {handle : Option κ} (h : Inv coroutines s) (hi : s.calls[i]? = some (.copy last k))
    (hk : s.handles[k]? = some handle)
    (hs' : { s with
      snapshot := s.snapshot ++ handle.toList
      handles := s.handles.set k none }.goto i (.copy last (k + 1)) = s') : Inv coroutines s' := by
  obtain ⟨hquiet, hslots, hrelease, hheld, hlast, hfilled⟩ := h.stage _ (List.mem_of_getElem? hi)
  have hhandles : s'.handles = s.handles.set k none := hs' ▸ rfl
  have hsnapshot : s'.snapshot = s.snapshot ++ handle.toList := hs' ▸ rfl
  have hcalls : s'.calls = s.calls.set i (.copy last (k + 1)) := hs' ▸ rfl
  have hheld' := held_moved s' hk hhandles
  have hfilled' := filled_moved s' hk hhandles
  have hdue := due_of_copying hi rfl
  have hself : s'.calls[i]? = some (.copy last (k + 1)) := hcalls ▸ (getElem?_moved hi).2 (.inl ⟨rfl, rfl⟩)
  have hdue' := due_of_copying hself rfl
  simp only [Option.toList_none, Multiset.coe_nil, add_zero] at hheld'
  have hcard := congrArg Multiset.card hheld'
  rw [Multiset.card_add, Multiset.coe_card] at hcard
  have hlength : s'.handles.length = s.handles.length := by rw [hhandles, List.length_set]
  have hquiet' : s'.Quiet := by
    subst hs'
    exact hquiet.moved hi rfl rfl rfl rfl rfl rfl
  have hstage : Stage s' (.copy last (k + 1)) := by
    refine ⟨hquiet', hs' ▸ hslots, hs' ▸ hrelease, ?_, hlast.trans_eq hlength.symm, fun j hj => ?_⟩
    · have hmax : s'.maxAwaitCount = s.maxAwaitCount := hs' ▸ rfl
      rw [hmax, hsnapshot, List.length_append]
      omega
    · rw [hfilled']
      split
      · rfl
      · exact hfilled j (by omega)
  have hkeeps : s'.held + s'.due = s.held + s.due := by
    rw [hdue, hdue', hsnapshot, ← hheld', ← Multiset.coe_add]
    abel
  subst hs'
  refine h.completes hi rfl rfl rfl ⟨rfl, rfl, hlength⟩ ?_ rfl le_rfl (.inl rfl) ⟨rfl, rfl⟩ (fun _ => ⟨rfl, rfl⟩)
    (.inl ⟨rfl, hquiet.commits⟩) (fun hnone => by cases hnone) (.inl ⟨rfl, hstage⟩)
  rw [add_assoc, hkeeps, ← add_assoc]
  rfl

/-- All have been collected. -/
theorem Inv.collected {last k : Nat} (h : Inv coroutines s) (hi : s.calls[i]? = some (.copy last k)) (hk : last ≤ k) :
    Inv coroutines (s.goto i (.dispatch s.snapshot)) := by
  obtain ⟨hquiet, hslots, hrelease, hheld, hlast, hfilled⟩ := h.stage _ (List.mem_of_getElem? hi)
  have hempty : ∀ j, s.filled j = 0 := fun j => hfilled j (by omega)
  have hnone := held_eq_zero hempty
  have hactive : weight Pc.active (s.calls.set i (.dispatch s.snapshot)) + 0 = weight Pc.active s.calls + 0 :=
    weight_moved hi
  obtain ⟨howing, hwrites⟩ := none_of_active (hactive.trans hquiet.active)
  have hwriting := writing_le (s.calls.set i (.dispatch s.snapshot))
  have hcommits := hquiet.commits
  have hnobody := hquiet.active
  have hdue := due_of_copying hi rfl
  have hdue' := h.due_moved (s.goto i (.dispatch s.snapshot)) hi rfl rfl rfl
  refine h.completes hi rfl rfl rfl ⟨rfl, rfl, rfl⟩ ?_ rfl le_rfl (.inl rfl) ⟨rfl, rfl⟩ (fun _ => ⟨rfl, rfl⟩)
    (.inl ⟨rfl, hquiet.commits⟩) (fun _ => ⟨?_, ?_, fun j => ?_⟩) (.inl ⟨rfl, trivial⟩)
  · rw [hdue, hdue']
    simp only [Pc.carries]
    show ↑s.dispatched + ↑s.snapshot + s.held + 0 = ↑s.dispatched + 0 + s.held + ↑s.snapshot
    abel
  · show s.commitCount + weight Pc.owing (s.calls.set i _) = s.held.card + s.releaseAwaitCount
    rw [hnone, howing, hcommits, hrelease]
    rfl
  · show s.slotCount = s.held.card + weight Pc.writing (s.calls.set i _)
    rw [hnone, Multiset.card_zero]
    omega
  · have hzero := hwrites j
    have hempty := hempty j
    show weight (Pc.writesAt j) (s.calls.set i _) + s.filled j = if j < s.slotCount then 1 else 0
    rw [if_neg (by omega)]
    omega

/-- `complete` hands out what it has collected, while others may arrive. -/
theorem Inv.handsOut (h : Inv coroutines s) (hi : s.calls[i]? = some pc) (hpc : pc.completes = 1)
    (hout : pc.HandsOut) (hq : q.HandsOut) (hcalls : s'.calls = s.calls.set i q)
    (hsame : s'.running = s.running ∧ s'.left = s.left ∧ s'.handles = s.handles ∧ s'.slotCount = s.slotCount ∧
      s'.commitCount = s.commitCount ∧ s'.maxAwaitCount = s.maxAwaitCount ∧
      s'.releaseAwaitCount = s.releaseAwaitCount)
    (hkeeps : (↑s'.dispatched : Multiset κ) + q.carries = ↑s.dispatched + pc.carries) : Inv coroutines s' := by
  have m := moved hi q
  rw [← hcalls] at m
  obtain ⟨hrunning, hleft, hhandles, hslots, hcommits, hmax, hrelease⟩ := hsame
  obtain ⟨hcopying, hexchanging, hearly, hleaving, hnobody, howing, hwriting, hwritesAt, hcompares⟩ := hout.nothing
  obtain ⟨hcopying', hexchanging', hearly', hleaving', hnobody', howing', hwriting', hwritesAt', hcompares'⟩ :=
    hq.nothing
  have hheld : s'.held = s.held := by rw [held, held, hhandles]
  have hgathers := h.gathers ((weight_alone h.single hi hpc early_le).trans hearly)
  refine h.completes hi hpc hexchanging' hcalls ⟨hrunning, hleft, congrArg _ hhandles⟩ ?_ ?_ ?_ (.inl hmax)
    ⟨hnobody, hnobody'⟩ (fun c => ⟨hcompares c, hcompares' c⟩) (.inr ⟨by omega, hearly', hcommits, hmax⟩)
    (fun _ => ⟨?_, ?_, fun j => ?_⟩) ?_
  · rw [hkeeps, hheld, h.due_of_not_copying hi hpc hcopying, h.due_moved s' hi hpc hcalls hcopying']
  · rw [hmax, hrelease, hleaving, hleaving']
  · rw [hrelease, hleaving, hleaving']
  · have hmoved := m.owing
    have hcounted := hgathers.counted
    rw [hcommits, hheld, hrelease]
    omega
  · have hmoved := m.writing
    have hslots' := hgathers.slots
    rw [hslots, hheld]
    omega
  · have hmoved := m.writesAt j
    have hindices := hgathers.indices j
    have hzero := hwritesAt j
    have hzero' := hwritesAt' j
    have hfilled : s'.filled j = s.filled j := by rw [filled, filled, hhandles]
    rw [hslots, hfilled]
    omega
  · cases q with
    | dispatch next => exact .inl ⟨rfl, trivial⟩
    | clearLast => exact .inl ⟨rfl, trivial⟩
    | ended => exact .inr rfl
    | _ => cases hq

theorem Inv.dispatch {handle : κ} {next : List κ} (h : Inv coroutines s)
    (hi : s.calls[i]? = some (.dispatch (handle :: next))) :
    Inv coroutines ({ s with dispatched := s.dispatched ++ [handle] }.goto i (.dispatch next)) := by
  refine h.handsOut (q := .dispatch next) hi rfl trivial trivial rfl ⟨rfl, rfl, rfl, rfl, rfl, rfl, rfl⟩ ?_
  show (↑(s.dispatched ++ [handle]) : Multiset κ) + ↑next = ↑s.dispatched + ↑(handle :: next)
  rw [Multiset.coe_add, Multiset.coe_add, List.append_assoc]
  rfl

theorem Inv.clearLast (h : Inv coroutines s) (hi : s.calls[i]? = some .clearLast) :
    Inv coroutines ({ s with snapshot := [] }.goto i .ended) :=
  h.handsOut (q := .ended) hi rfl trivial trivial rfl ⟨rfl, rfl, rfl, rfl, rfl, rfl, rfl⟩ rfl

/-! ## What an invariant state is like -/

theorem writing_le_carries (calls : List (Pc κ)) : weight Pc.writing calls ≤ (weight Pc.carries calls).card := by
  induction calls with
  | nil => exact Nat.le_refl _
  | cons pc calls ih =>
    have hpc : pc.writing ≤ pc.carries.card := by cases pc <;> simp [Pc.writing, Pc.carries]
    simp only [weight, List.map_cons, List.sum_cons, Multiset.card_add] at ih ⊢
    omega

/-- `index < max_await_count` -/
theorem Inv.index_lt (h : Inv coroutines s) {handle : κ} {index : Nat} (hmem : .write handle index ∈ s.calls) :
    index < s.maxAwaitCount := by
  obtain ⟨i, hi⟩ := List.mem_iff_getElem?.1 hmem
  have hactive := le_weight (f := Pc.active) hi
  simp only [Pc.active] at hactive
  have hgathers := h.gathers (h.early_eq (.inr (.inr (by omega))))
  have hwrites := le_weight (f := Pc.writesAt index) hi
  simp only [Pc.writesAt, if_true] at hwrites
  have hindices := hgathers.indices index
  have hslots := hgathers.slots
  have hle := h.arrived_le
  have hwriting := writing_le_carries s.calls
  split at hindices <;> omega

/-- When no call goes on and nobody runs, nobody waits. -/
theorem Inv.none_waits (h : Inv coroutines s) (hcalls : ∀ pc ∈ s.calls, pc = .ended) (hrunning : s.running = [])
    (hdispatched : s.dispatched = []) : s.left.Perm coroutines := by
  have hzero : ∀ {M : Type} [AddCommMonoid M] (f : Pc κ → M), f .ended = 0 → weight f s.calls = 0 := by
    intro M _ f hf
    apply weight_eq_zero
    intro pc hpc
    rw [hcalls pc hpc, hf]
  have hgathers := h.gathers (hzero Pc.early rfl)
  have hcounted := hgathers.counted
  have hcarries := hzero (Pc.carries (κ := κ)) rfl
  have hdue : s.due = 0 := due_eq (hzero Pc.copying rfl)
  have htotal := h.total
  have hshrinks := h.shrinks
  have hwoken := h.woken
  rw [hzero Pc.owing rfl] at hcounted
  rw [hrunning, hdispatched, hcarries, hdue] at htotal
  rw [hzero Pc.leaving rfl] at hshrinks
  rw [hzero (Pc.compares s.maxAwaitCount) rfl, hzero Pc.exchanging rfl] at hwoken
  simp only [List.length_nil, Multiset.card_zero] at htotal
  -- all that are expected have been counted, so that none is
  have hheld : s.held = 0 := by
    apply Multiset.card_eq_zero.1
    omega
  have hinventory := h.inventory
  rw [hrunning, hdispatched, hcarries, hheld, hdue] at hinventory
  apply Multiset.coe_eq_coe.1
  rw [← hinventory]
  simp

/-! ## Runs -/

/-- A call begins, or a coroutine goes on. -/
theorem Inv.starts (h : Inv coroutines s) (made : List (Pc κ)) (hsome : s.running ≠ [] ∨ s.dispatched ≠ [])
    (hcalls : s'.calls = s.calls ++ made)
    (hmade : ∀ d ∈ made, (∃ handle, d = .slot handle) ∨ ∃ count, d = .release count ∧ 0 < count)
    (hsame : s'.handles = s.handles ∧ s'.slotCount = s.slotCount ∧ s'.commitCount = s.commitCount ∧
      s'.maxAwaitCount = s.maxAwaitCount ∧ s'.releaseAwaitCount = s.releaseAwaitCount ∧ s'.snapshot = s.snapshot)
    (hkeeps : (↑s'.running : Multiset κ) + ↑s'.dispatched + weight Pc.carries made + ↑s'.left =
      ↑s.running + ↑s.dispatched + ↑s.left)
    (hleft : s'.left.length = s.left.length + weight Pc.leaving made) : Inv coroutines s' := by
  obtain ⟨hhandles, hslots, hcommits, hmax, hrelease, hsnapshot⟩ := hsame
  have hearly := h.early_eq (hsome.imp_right .inl)
  have hadd : ∀ {M : Type} [AddCommMonoid M] (f : Pc κ → M), weight f s'.calls = weight f s.calls + weight f made := by
    intro M _ f
    rw [hcalls, weight, List.map_append, List.sum_append]
    rfl
  have hkeep : ∀ f : Pc κ → Nat, (∀ handle, f (.slot handle) = 0) →
      (∀ count, 0 < count → f (.release count) = 0) → weight f s'.calls = weight f s.calls := by
    intro f hslot hrelease
    rw [hadd, Nat.add_eq_left]
    apply weight_eq_zero
    intro d hd
    rcases hmade d hd with ⟨handle, rfl⟩ | ⟨count, rfl, hpos⟩
    · exact hslot handle
    · exact hrelease count hpos
  have hearly' := hkeep Pc.early (fun _ => rfl) fun _ _ => rfl
  have hcopying := hkeep Pc.copying (fun _ => rfl) fun _ _ => rfl
  have hexchanging := hkeep Pc.exchanging (fun _ => rfl) fun _ _ => rfl
  have hcompares := fun c => hkeep (Pc.compares c) (fun _ => rfl) fun _ _ => rfl
  have hheld : s'.held = s.held := by rw [held, held, hhandles]
  have hdue : s'.due = s.due := by rw [due, due, hcopying, hsnapshot]
  have hleaving := hadd Pc.leaving
  refine ⟨?_, ?_, ?_, (congrArg _ hhandles).trans h.length, ?_, ?_, fun c hc => ?_, ?_, ?_,
    fun _ => ⟨?_, ?_, fun j => ?_⟩, stage_of_early (hearly'.trans hearly)⟩
  · rw [hheld, hdue, hadd, ← h.inventory]
    calc ↑s'.running + ↑s'.dispatched + (weight Pc.carries s.calls + weight Pc.carries made) + s.held + s.due + ↑s'.left
        = ↑s'.running + ↑s'.dispatched + weight Pc.carries made + ↑s'.left +
          (weight Pc.carries s.calls + s.held + s.due) := by abel
      _ = ↑s.running + ↑s.dispatched + weight Pc.carries s.calls + s.held + s.due + ↑s.left := by
        rw [hkeeps]
        abel
  · have hshrinks := h.shrinks
    rw [hmax, hrelease]
    omega
  · have hleaves := h.leaves
    rw [hrelease]
    omega
  · rw [hkeep Pc.completes (fun _ => rfl) fun _ _ => rfl]
    exact h.single
  · refine (hkeep Pc.nobody (fun _ => rfl) fun count hpos => ?_).trans h.positive
    cases count with
    | zero => cases hpos
    | succ count => rfl
  · rw [hmax] at hc
    exact (hcompares c).trans (h.bounds c hc)
  · rw [hmax, hcompares, hexchanging, hearly']
    exact h.trigger
  · rw [hmax, hcommits, hcompares, hexchanging]
    exact h.woken
  · rw [hcommits, hheld, hrelease, hkeep Pc.owing (fun _ => rfl) fun _ _ => rfl]
    exact (h.gathers hearly).counted
  · rw [hslots, hheld, hkeep Pc.writing (fun _ => rfl) fun _ _ => rfl]
    exact (h.gathers hearly).slots
  · have hfilled : s'.filled j = s.filled j := by rw [filled, filled, hhandles]
    rw [hslots, hfilled, hkeep (Pc.writesAt j) (fun _ => rfl) fun _ _ => rfl]
    exact (h.gathers hearly).indices j

/-- At first all coroutines run. -/
theorem inv_new (coroutines : List κ) : Inv coroutines (new coroutines) := by
  have hfilled : ∀ j, (new coroutines).filled j = 0 := by
    intro j
    rw [filled]
    split
    · next handle hj =>
      have hin : some handle ∈ List.replicate coroutines.length (none : Option κ) := List.mem_of_getElem? hj
      cases List.eq_of_mem_replicate hin
    · rfl
  have hheld := held_eq_zero hfilled
  refine ⟨?_, rfl, le_rfl, List.length_replicate, Nat.zero_le 1, rfl, fun _ _ => rfl, Nat.zero_le 1, ?_,
    fun _ => ⟨?_, ?_, fun j => ?_⟩, fun pc hpc => by cases hpc⟩
  · rw [hheld]
    show (↑coroutines : Multiset κ) + ↑([] : List κ) + 0 + 0 + 0 + ↑([] : List κ) = ↑coroutines
    simp
  · show 0 < coroutines.length ∧ 0 = coroutines.length ↔ 0 = 1
    omega
  · rw [hheld]
    rfl
  · rw [hheld]
    rfl
  · rw [hfilled]
    rfl

/-- A calm step of a call keeps the invariant. -/
theorem Inv.stepCall (h : Inv coroutines s) (hi : s.calls[i]? = some pc) (hcalm : s.CalmCall pc)
    (hstep : s.stepCall i pc = some s') : Inv coroutines s' := by
  cases pc with
  | slot handle =>
    cases hstep
    exact h.slot hi
  | write handle index =>
    rw [Barrier.stepCall] at hstep
    split at hstep
    · next hindex =>
      cases hstep
      exact h.write hi hindex
    · cases hstep
  | commit =>
    cases hstep
    exact h.counts hi (.inl ⟨rfl, rfl⟩)
  | release count =>
    cases hstep
    exact h.release hi
  | commitRelease count =>
    cases hstep
    exact h.counts hi (.inr rfl)
  | compare count =>
    cases hstep
    exact h.compare hi hcalm
  | exchange =>
    cases hstep
    exact h.exchange hi
  | resetSlot =>
    cases hstep
    exact h.resetSlot hi
  | loadMax =>
    cases hstep
    exact h.loadMax hi
  | exchangeRelease last =>
    cases hstep
    exact h.exchangeRelease hi
  | storeMax last released =>
    cases hstep
    exact h.storeMax hi hcalm
  | clear last =>
    cases hstep
    exact h.clear hi
  | copy last k =>
    rw [Barrier.stepCall] at hstep
    split at hstep
    · split at hstep
      · next handle hk =>
        cases hstep
        exact h.copy hi hk rfl
      · cases hstep
    · next hk =>
      cases hstep
      exact h.collected hi (Nat.le_of_not_lt hk)
  | dispatch next =>
    cases next with
    | nil =>
      cases hstep
      exact h.handsOut (q := .clearLast) hi rfl trivial trivial rfl ⟨rfl, rfl, rfl, rfl, rfl, rfl, rfl⟩ rfl
    | cons handle next =>
      cases hstep
      exact h.dispatch hi
  | clearLast =>
    cases hstep
    exact h.clearLast hi
  | ended => cases hstep

variable [DecidableEq κ]

theorem erase_add {handle : κ} {list : List κ} (h : handle ∈ list) :
    (↑(list.erase handle) : Multiset κ) + {handle} = ↑list := by
  rw [add_comm, Multiset.singleton_add, ← Multiset.coe_erase]
  exact Multiset.cons_erase h

/-- What one action does. -/
theorem Inv.act {a : Action κ} (h : Inv coroutines s) (hcalm : s.Calm a) (hact : s.act a = some s') :
    Inv coroutines s' := by
  cases a with
  | await handle =>
    rw [Barrier.act] at hact
    split at hact
    · next hmem =>
      cases hact
      refine h.starts [.slot handle] (.inl (List.ne_nil_of_mem hmem)) rfl ?_ ⟨rfl, rfl, rfl, rfl, rfl, rfl⟩ ?_ rfl
      · rintro d hd
        exact .inl ⟨handle, List.mem_singleton.1 hd⟩
      · have hback := erase_add hmem
        show (↑(s.running.erase handle) : Multiset κ) + ↑s.dispatched + ({handle} + 0) + ↑s.left =
          ↑s.running + ↑s.dispatched + ↑s.left
        rw [← hback]
        abel
    · cases hact
  | release leaving =>
    rw [Barrier.act] at hact
    split at hact
    · next hleaving =>
      obtain ⟨hne, hnodup, hsub⟩ := hleaving
      cases hact
      have hrunning : s.running ≠ [] := by
        intro hnil
        rw [hnil] at hsub
        exact hne (List.subset_nil.1 hsub)
      refine h.starts [.release leaving.length] (.inl hrunning) rfl ?_ ⟨rfl, rfl, rfl, rfl, rfl, rfl⟩ ?_ ?_
      · rintro d hd
        exact .inr ⟨leaving.length, List.mem_singleton.1 hd, List.length_pos_of_ne_nil hne⟩
      · have hle : (↑leaving : Multiset κ) ≤ ↑s.running := hnodup.subperm hsub
        have hback : (↑(s.running.diff leaving) : Multiset κ) + ↑leaving = ↑s.running := by
          rw [← Multiset.coe_sub]
          exact Multiset.sub_add_cancel hle
        show (↑(s.running.diff leaving) : Multiset κ) + ↑s.dispatched + (0 + 0) + ↑(s.left ++ leaving) =
          ↑s.running + ↑s.dispatched + ↑s.left
        rw [← hback, ← Multiset.coe_add]
        abel
      · exact List.length_append
    · cases hact
  | step i =>
    obtain ⟨pc, hi, hstep⟩ := Option.bind_eq_some_iff.1 hact
    exact h.stepCall hi (hcalm pc hi) hstep
  | resume handle =>
    rw [Barrier.act] at hact
    split at hact
    · next hmem =>
      cases hact
      refine h.starts [] (.inr (List.ne_nil_of_mem hmem)) (List.append_nil _).symm (fun _ hd => by cases hd)
        ⟨rfl, rfl, rfl, rfl, rfl, rfl⟩ ?_ rfl
      have hback := erase_add hmem
      show (↑(s.running ++ [handle]) : Multiset κ) + ↑(s.dispatched.erase handle) + 0 + ↑s.left =
        ↑s.running + ↑s.dispatched + ↑s.left
      rw [← hback, ← Multiset.coe_add]
      show (↑s.running : Multiset κ) + {handle} + ↑(s.dispatched.erase handle) + 0 + ↑s.left =
        ↑s.running + (↑(s.dispatched.erase handle) + {handle}) + ↑s.left
      abel
    · cases hact

theorem run_concat (coroutines : List κ) (acts : List (Action κ)) (a : Action κ) :
    run coroutines (acts ++ [a]) = (run coroutines acts).step a := List.foldl_concat ..

theorem inv_run {acts : List (Action κ)} (hcalm : Each (fun pre a => (run coroutines pre).Calm a) acts) :
    Inv coroutines (run coroutines acts) := by
  induction acts using List.reverseRecOn with
  | nil => exact inv_new coroutines
  | append_singleton acts a ih =>
    obtain ⟨hcalm, hlast⟩ := each_concat.1 hcalm
    rw [run_concat, step]
    cases hact : (run coroutines acts).act a with
    | none => exact ih hcalm
    | some s' => exact (ih hcalm).act hlast hact

/-! ## What the barrier does -/

/-- What a barrier is for. -/
structure Meets (coroutines : List κ) (s : Barrier κ) : Prop where
  /-- Every coroutine is in one place. -/
  inventory : ↑s.running + ↑s.dispatched + weight Pc.carries s.calls + s.held + s.due + ↑s.left =
    (coroutines : Multiset κ)
  /-- what `await_suspend` asserts of its index -/
  index_lt : ∀ handle index, .write handle index ∈ s.calls → index < s.maxAwaitCount
  /-- what `release` asserts -/
  release_le : s.releaseAwaitCount ≤ s.maxAwaitCount
  /-- What `complete` asserts. It begins when everyone has arrived or left. -/
  complete : .exchange ∈ s.calls → s.commitCount = s.maxAwaitCount ∧ s.held + ↑s.left = (coroutines : Multiset κ)
  /-- When no call goes on and nobody runs, nobody waits. -/
  none_waits : (∀ pc ∈ s.calls, pc = .ended) → s.running = [] → s.dispatched = [] → s.left.Perm coroutines

/-- In a calm run the coroutines go on together: none is lost, none is resumed twice, and
none waits for ever. -/
theorem barrier_meets (coroutines : List κ) (acts : List (Action κ))
    (hcalm : Each (fun pre a => (run coroutines pre).Calm a) acts) : Meets coroutines (run coroutines acts) := by
  have h := inv_run hcalm
  have hle := h.arrived_le
  refine ⟨h.inventory, fun handle index => h.index_lt, by omega, fun hexchange => ?_, h.none_waits⟩
  obtain ⟨i, hi⟩ := List.mem_iff_getElem?.1 hexchange
  obtain ⟨hrunning, hdispatched, -, hcarries, hdue, -, -⟩ := h.all_here hi
  have hexchanging := le_weight (f := Pc.exchanging) hi
  simp only [Pc.exchanging] at hexchanging
  have htrigger := h.trigger
  refine ⟨(h.woken.2 (by omega)).2, ?_⟩
  have hinventory := h.inventory
  rw [hrunning, hdispatched, hcarries, hdue] at hinventory
  simpa using hinventory

/-- Three coroutines, of which one leaves; the others meet, and leave. -/
def twoMeet : List (Action Nat) :=
  [.await 1, .step 0, .release [2], .step 1, .await 3, .step 2, .step 2, .step 0, .step 0, .step 0, .step 1, .step 1,
    .step 2, .step 2] ++ List.replicate 13 (.step 2) ++ [.resume 1, .step 2, .resume 3, .release [3, 1]] ++
    List.replicate 15 (.step 3)

theorem two_meet : Meets [1, 2, 3] (run [1, 2, 3] twoMeet) := barrier_meets _ _ (by decide +kernel)

end Barrier

end NgxLuaCpp.IrisBarrier
