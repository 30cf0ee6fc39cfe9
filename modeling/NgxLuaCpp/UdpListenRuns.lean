import NgxLuaCpp.UdpListen
import NgxLuaCpp.Lib.Trace
/-!
# Runs of `udp_listen` and `stop`

While no `bind` is refused, a call's socket is its own until it is closed, once. A refused
one leaves `sock` in the listener that its branch has closed, for the destructor to close
again.
-/

namespace NgxLuaCpp.UdpListen
open Descriptors

/-! ## A refused `bind` -/

/-- The half-built listeners before `bind`. -/
def Half (s : State) : Prop :=
  (∀ l, s.place = .opening l → l.stop = false) ∧ ∀ l, s.place = .binding l → l.stop = false ∧ l.sock.isSome = true

theorem half_new : Half .new := by
  unfold Half State.new
  exact ⟨nofun, nofun⟩

/-- A half-built listener is not stopped, and has its socket from `bind` on. -/
theorem half_step {s s' : State} {e : Event} (h : Half s) (hs : Step s e s') : Half s' := by
  obtain ⟨hopening, hbinding⟩ := h
  cases hs with
  | otherOpen | otherClose | rejected => exact ⟨hopening, hbinding⟩
  | entered _ hplace =>
    rcases hplace with rfl | ⟨error, -, rfl⟩
    · refine ⟨fun l hl => ?_, nofun⟩
      obtain rfl := Place.opening.inj hl
      rfl
    · exact ⟨nofun, nofun⟩
  | @socket l fd hplace =>
    refine ⟨nofun, fun l' hl => ?_⟩
    obtain rfl := Place.binding.inj hl
    exact ⟨hopening l hplace, rfl⟩
  | noSocket | bound | refused | close | leave | store | stop | stopNext | clear =>
    exact ⟨nofun, nofun⟩

/-- The listener of the call `n`, with a socket its destructor will close. -/
def Open (n : Nat) (l : Listener) : Prop := l.call = n ∧ l.stop = false ∧ l.sock.isSome = true

/-- The call `n` has closed twice, or will have when it returns. -/
def Twice (n : Nat) (s : State) : Prop :=
  2 ≤ (s.table.closesBy (.call n)).length ∨
    (∃ l error, s.place = .leaving l error ∧ Open n l ∧ 1 ≤ (s.table.closesBy (.call n)).length) ∨
    ∃ l, s.place = .refused l ∧ Open n l

theorem stopListen_unopened {t : Table Owner} {l : Listener} (h : l.sock = none) : (stopListen t l).1 = t := by
  unfold stopListen
  split
  · rfl
  · rw [h]

theorem stopListen_stopped {t : Table Owner} {l : Listener} (h : l.stop = true) : stopListen t l = (t, l) := by
  unfold stopListen
  rw [if_pos h]

theorem stopListen_running {t : Table Owner} {l : Listener} {fd : Nat} (hstop : l.stop = false)
    (hsock : l.sock = some fd) : stopListen t l = (t.close (.call l.call) fd, ⟨l.call, l.port, none, true⟩) := by
  unfold stopListen
  rw [if_neg (by simp [hstop]), hsock]

theorem stopListen_closes (table : Table Owner) (l : Listener) : table.closes <+: (stopListen table l).1.closes := by
  unfold stopListen
  split
  · exact List.prefix_rfl
  · split
    · exact List.prefix_append _ _
    · exact List.prefix_rfl

theorem foldl_stopListen_closes (ls : List Listener) (table : Table Owner) :
    table.closes <+: (ls.foldl (fun table l => (stopListen table l).1) table).closes := by
  induction ls generalizing table with
  | nil => exact List.prefix_rfl
  | cons l ls ih => exact (stopListen_closes table l).trans (ih _)

theorem Step.closes {s s' : State} {e : Event} (hs : Step s e s') : s.table.closes <+: s'.table.closes := by
  cases hs with
  | otherClose | close => exact List.prefix_append _ _
  | leave => exact stopListen_closes _ _
  | stopNext => exact stopListen_closes _ _
  | clear => exact foldl_stopListen_closes _ _
  | _ => exact List.prefix_rfl

theorem Twice.same_place {n : Nat} {s s' : State} (h : Twice n s) (hplace : s'.place = s.place)
    (hle : (s.table.closesBy (.call n)).length ≤ (s'.table.closesBy (.call n)).length) : Twice n s' := by
  unfold Twice at h ⊢
  rw [hplace]
  rcases h with h | ⟨l, error, hl, hopen, h⟩ | h
  · exact .inl (h.trans hle)
  · exact .inr (.inl ⟨l, error, hl, hopen, h.trans hle⟩)
  · exact .inr (.inr h)

/-- Elsewhere the two closes are done. -/
theorem Twice.moved {n : Nat} {s s' : State} (h : Twice n s)
    (hle : (s.table.closesBy (.call n)).length ≤ (s'.table.closesBy (.call n)).length)
    (hleaving : ∀ l error, s.place ≠ .leaving l error) (hrefused : ∀ l, s.place ≠ .refused l) : Twice n s' := by
  rcases h with h | ⟨l, error, hl, -⟩ | ⟨l, hl, -⟩
  · exact .inl (h.trans hle)
  · exact absurd hl (hleaving l error)
  · exact absurd hl (hrefused l)

theorem twice_step {n : Nat} {s s' : State} {e : Event} (h : Twice n s) (hs : Step s e s') : Twice n s' := by
  have hle := Table.length_closesBy_le hs.closes (.call n)
  cases hs with
  | otherOpen | otherClose | rejected => exact h.same_place rfl hle
  | close hplace hsock =>
    rcases h with h | ⟨l, error, hl, -⟩ | ⟨l, hl, hopen⟩
    · exact .inl (h.trans hle)
    · rw [hplace] at hl
      cases hl
    · rw [hplace] at hl
      obtain rfl := Place.refused.inj hl
      refine .inr (.inl ⟨_, _, rfl, hopen, ?_⟩)
      rw [← hopen.1, Table.closesBy_close_self, List.length_append]
      exact Nat.le_add_left 1 _
  | leave hplace =>
    rcases h with h | ⟨l, error, hl, hopen, h⟩ | ⟨l, hl, -⟩
    · exact .inl (h.trans hle)
    · rw [hplace] at hl
      obtain ⟨rfl, -⟩ := Place.leaving.inj hl
      obtain ⟨rfl, hstop, hsock⟩ := hopen
      obtain ⟨fd, hfd⟩ := Option.isSome_iff_exists.1 hsock
      left
      unfold State.returned
      dsimp only
      rw [stopListen_running hstop hfd, Table.closesBy_close_self, List.length_append]
      exact Nat.add_le_add_right h 1
    · rw [hplace] at hl
      cases hl
  | entered hplace | socket hplace | noSocket hplace | bound hplace | refused hplace | store hplace | stop hplace
  | stopNext hplace | clear hplace =>
    exact h.moved hle (fun l error hl => nomatch hplace.symm.trans hl) fun l hl => nomatch hplace.symm.trans hl

/-! ## Without a refused `bind` -/

/-- The descriptors of the calls and of the other threads. -/
structure Accounted (t : Table Owner) (held : List Nat) (calls : Nat) : Prop where
  fresh : ∀ n, calls ≤ n → t.Untouched (.call n)
  others : ∀ fd ∈ held, t.owner fd = some .other
  nodup : held.Nodup
  closes : ∀ n, t.closesBy (.call n) = [] ∨ t.closesBy (.call n) = [some (.call n)]

section
variable {t t' : Table Owner} {held : List Nat} {calls n fd : Nat}

theorem Accounted.other (h : Accounted t held calls) (ht : t.Fair .other t') {held' : List Nat}
    (hheld : ∀ fd ∈ held', t'.owner fd = some .other) (hnodup : held'.Nodup) : Accounted t' held' calls := by
  refine ⟨fun n hn => (h.fresh n hn).fair ht (call_ne_other _), hheld, hnodup, fun n => ?_⟩
  rw [ht.closesBy_eq (call_ne_other n)]
  exact h.closes n

theorem Accounted.otherOpen (h : Accounted t held calls) (hfree : t.owner fd = none) :
    Accounted (t.opened fd .other) (fd :: held) calls := by
  have hnot : fd ∉ held := by
    intro hmem
    rw [h.others fd hmem] at hfree
    cases hfree
  refine h.other (.opened hfree) (fun fd' hfd' => ?_) (List.nodup_cons.2 ⟨hnot, h.nodup⟩)
  unfold Table.opened
  dsimp only
  rcases List.mem_cons.1 hfd' with rfl | hfd'
  · rw [Function.update_self]
  · rw [Function.update_of_ne fun heq : fd' = fd => hnot (heq ▸ hfd'), h.others fd' hfd']

theorem Accounted.otherClose (h : Accounted t held calls) (hheld : fd ∈ held) :
    Accounted (t.close .other fd) (held.erase fd) calls := by
  refine h.other (.close (h.others fd hheld)) (fun fd' hfd' => ?_) (h.nodup.erase fd)
  obtain ⟨hne, hfd'⟩ := h.nodup.mem_erase_iff.1 hfd'
  unfold Table.close
  dsimp only
  rw [Function.update_of_ne hne, h.others fd' hfd']

/-- What the call `n` does with its own socket. -/
theorem Accounted.call (h : Accounted t held calls) (hn : n < calls) (ht : t.Fair (.call n) t')
    (hcloses : t'.closesBy (.call n) = [] ∨ t'.closesBy (.call n) = [some (.call n)]) : Accounted t' held calls := by
  refine ⟨fun m hm => ?_, fun fd hfd => (ht.owner_iff (call_ne_other n).symm fd).2 (h.others fd hfd), h.nodup,
    fun m => ?_⟩
  · exact (h.fresh m hm).fair ht fun heq => absurd (Owner.call.inj heq) (Nat.ne_of_gt (hn.trans_le hm))
  · by_cases hm : m = n
    · rwa [hm]
    · rw [ht.closesBy_eq fun heq => hm (Owner.call.inj heq)]
      exact h.closes m

theorem Accounted.below (h : Accounted t held calls) (hholds : t.Holds (.call n) fd) : n < calls := by
  by_contra hn
  exact (h.fresh n (Nat.le_of_not_lt hn)).owner fd hholds.owner_self

end

/-! ### Listeners and returns -/

/-- A listener of the map: running with its socket open, or stopped. -/
def Stored (t : Table Owner) (l : Listener) : Prop :=
  (l.stop = false ∧ ∃ fd, l.sock = some fd ∧ t.Holds (.call l.call) fd) ∨ (l.stop = true ∧ t.Done (.call l.call))

structure Returned (t : Table Owner) (ls : List Listener) (r : Return) : Prop where
  failed : r.error ≠ [] → r.after = r.before ∧ r.opened = false ∧ t.Untouched (.call r.call)
  succeeded : r.error = [] → ∃ fd, r.after = insertListener ⟨r.call, r.port, some fd, false⟩ r.before ∧
    ((⟨r.call, r.port, some fd, false⟩ ∈ ls ∧ t.Holds (.call r.call) fd) ∨
      (⟨r.call, r.port, some fd, false⟩ ∉ ls ∧ t.Done (.call r.call)))

section
variable {t t' : Table Owner} {l : Listener} {ls ls' : List Listener} {r : Return} {o : Owner}

theorem Stored.fair (h : Stored t l) (ht : t.Fair o t') (hne : .call l.call ≠ o) : Stored t' l := by
  rcases h with ⟨hstop, fd, hsock, hholds⟩ | ⟨hstop, hdone⟩
  · exact .inl ⟨hstop, fd, hsock, hholds.fair ht hne⟩
  · exact .inr ⟨hstop, hdone.fair ht hne⟩

theorem Returned.fair (h : Returned t ls r) (ht : t.Fair o t') (hne : .call r.call ≠ o) : Returned t' ls r := by
  refine ⟨fun herror => ?_, fun herror => ?_⟩
  · obtain ⟨hafter, hopened, huntouched⟩ := h.failed herror
    exact ⟨hafter, hopened, huntouched.fair ht hne⟩
  · obtain ⟨fd, hafter, ⟨hmem, hholds⟩ | ⟨hmem, hdone⟩⟩ := h.succeeded herror
    · exact ⟨fd, hafter, .inl ⟨hmem, hholds.fair ht hne⟩⟩
    · exact ⟨fd, hafter, .inr ⟨hmem, hdone.fair ht hne⟩⟩

theorem Returned.listeners (h : Returned t ls r) (hls : ∀ l, l.call = r.call → (l ∈ ls' ↔ l ∈ ls)) :
    Returned t ls' r := by
  refine ⟨h.failed, fun herror => ?_⟩
  obtain ⟨fd, hafter, hlistener⟩ := h.succeeded herror
  refine ⟨fd, hafter, ?_⟩
  rwa [hls ⟨r.call, r.port, some fd, false⟩ rfl]

/-- Once all listeners are stopped, the map may go. -/
theorem Returned.clear (h : Returned t ls r) (hstop : ∀ l ∈ ls, l.stop = true) : Returned t [] r := by
  refine ⟨h.failed, fun herror => ?_⟩
  obtain ⟨fd, hafter, ⟨hmem, -⟩ | ⟨-, hdone⟩⟩ := h.succeeded herror
  · cases hstop _ hmem
  · exact ⟨fd, hafter, .inr ⟨List.not_mem_nil, hdone⟩⟩

end

/-- A half-built listener. -/
structure New (calls : Nat) (ls entered : List Listener) (returns : List Return) (l : Listener) : Prop where
  call : l.call < calls
  stop : l.stop = false
  listeners : ∀ m ∈ ls, m.call ≠ l.call
  returns : ∀ r ∈ returns, r.call ≠ l.call
  entered : entered = ls

def Placed (t : Table Owner) (calls : Nat) (ls entered : List Listener) (returns : List Return) : Place → Prop
  | .idle => True
  | .opening l => New calls ls entered returns l ∧ l.sock = none ∧ t.Untouched (.call l.call)
  | .binding l | .starting l => New calls ls entered returns l ∧ ∃ fd, l.sock = some fd ∧ t.Holds (.call l.call) fd
  | .refused _ => False
  | .leaving l error => New calls ls entered returns l ∧ l.sock = none ∧ t.Untouched (.call l.call) ∧ error ≠ []
  | .stopping k => ∀ l ∈ ls.take k, l.stop = true

section
variable {t t' : Table Owner} {calls : Nat} {ls entered : List Listener} {returns : List Return} {p : Place}

theorem Placed.other (h : Placed t calls ls entered returns p) (ht : t.Fair .other t') :
    Placed t' calls ls entered returns p := by
  cases p with
  | idle | refused | stopping => exact h
  | opening l =>
    obtain ⟨hnew, hsock, huntouched⟩ := h
    exact ⟨hnew, hsock, huntouched.fair ht (call_ne_other _)⟩
  | binding l =>
    obtain ⟨hnew, fd, hsock, hholds⟩ := h
    exact ⟨hnew, fd, hsock, hholds.fair ht (call_ne_other _)⟩
  | starting l =>
    obtain ⟨hnew, fd, hsock, hholds⟩ := h
    exact ⟨hnew, fd, hsock, hholds.fair ht (call_ne_other _)⟩
  | leaving l error =>
    obtain ⟨hnew, hsock, huntouched, herror⟩ := h
    exact ⟨hnew, hsock, huntouched.fair ht (call_ne_other _), herror⟩

theorem New.rejected {l : Listener} (h : New calls ls entered returns l) {r : Return} (hr : r.call = calls) :
    New (calls + 1) ls entered (returns ++ [r]) l := by
  refine ⟨Nat.lt_succ_of_lt h.call, h.stop, h.listeners, fun r' hr' => ?_, h.entered⟩
  rcases List.mem_append.1 hr' with hr' | hr'
  · exact h.returns r' hr'
  · rw [List.mem_singleton.1 hr', hr]
    exact Nat.ne_of_gt h.call

theorem Placed.rejected (h : Placed t calls ls entered returns p) {r : Return} (hr : r.call = calls) :
    Placed t (calls + 1) ls entered (returns ++ [r]) p := by
  cases p with
  | idle | refused | stopping => exact h
  | opening | binding | starting | leaving => exact ⟨h.1.rejected hr, h.2⟩

end

/-- Every descriptor has its owner: another thread, a listener that runs, or the call under way.
-/
structure Inv (s : State) : Prop where
  accounted : Accounted s.table s.held s.calls
  stored : ∀ l ∈ s.udpListeners, Stored s.table l
  distinct : (s.udpListeners.map Listener.call).Nodup
  returns : ∀ r ∈ s.returns, r.call < s.calls ∧ Returned s.table s.udpListeners r
  placed : Placed s.table s.calls s.udpListeners s.entered s.returns s.place

theorem inv_new : Inv .new where
  accounted := ⟨fun _ _ => Table.untouched_empty _, nofun, List.nodup_nil, fun _ => .inl rfl⟩
  stored := nofun
  distinct := List.nodup_nil
  returns := nofun
  placed := trivial

/-! ### One step -/

section
variable {s : State}

/-- Another thread's opening or closing. -/
theorem Inv.others (h : Inv s) {t' : Table Owner} {held' : List Nat} (ht : s.table.Fair .other t')
    (haccounted : Accounted t' held' s.calls) : Inv { s with table := t', held := held' } where
  accounted := haccounted
  stored l hl := (h.stored l hl).fair ht (call_ne_other _)
  distinct := h.distinct
  returns r hr := ⟨(h.returns r hr).1, (h.returns r hr).2.fair ht (call_ne_other _)⟩
  placed := h.placed.other ht

/-- A call that returns without taking the guard, or with the port in use. -/
theorem Inv.rejected (h : Inv s) {r : Return} (hcall : r.call = s.calls) (herror : r.error ≠ [])
    (hafter : r.after = r.before) (hopened : r.opened = false) :
    Inv { s with calls := s.calls + 1, returns := s.returns ++ [r] } where
  accounted := ⟨fun n hn => h.accounted.fresh n (Nat.le_of_succ_le hn), h.accounted.others, h.accounted.nodup,
    h.accounted.closes⟩
  stored := h.stored
  distinct := h.distinct
  returns r' hr' := by
    rcases List.mem_append.1 hr' with hr' | hr'
    · exact ⟨Nat.lt_succ_of_lt (h.returns r' hr').1, (h.returns r' hr').2⟩
    · obtain rfl := List.mem_singleton.1 hr'
      refine ⟨Nat.lt_succ_of_le hcall.le, fun _ => ⟨hafter, hopened, ?_⟩, fun hnil => absurd hnil herror⟩
      exact h.accounted.fresh _ hcall.ge
  placed := h.placed.rejected hcall

theorem Stored.below {calls : Nat} {held : List Nat} {t : Table Owner} {l : Listener} (h : Stored t l)
    (hacc : Accounted t held calls) : l.call < calls := by
  by_contra hn
  have huntouched := hacc.fresh l.call (Nat.le_of_not_lt hn)
  rcases h with ⟨-, fd, -, hholds⟩ | ⟨-, hdone⟩
  · exact huntouched.owner fd hholds.owner_self
  · have hnil := hdone.closes
    rw [huntouched.closes] at hnil
    cases hnil

theorem Inv.fresh (h : Inv s) (port : Nat) :
    New (s.calls + 1) s.udpListeners s.udpListeners s.returns ⟨s.calls, port, none, false⟩ where
  call := Nat.lt_succ_self _
  stop := rfl
  listeners m hm := Nat.ne_of_lt ((h.stored m hm).below h.accounted)
  returns r hr := Nat.ne_of_lt (h.returns r hr).1
  entered := rfl

theorem Inv.entered (h : Inv s) {port : Nat} {place : Place}
    (hplace : place = .opening ⟨s.calls, port, none, false⟩ ∨
      ∃ error, error ≠ [] ∧ place = .leaving ⟨s.calls, port, none, false⟩ error) :
    Inv { s with calls := s.calls + 1, place, entered := s.udpListeners } where
  accounted := ⟨fun n hn => h.accounted.fresh n (Nat.le_of_succ_le hn), h.accounted.others, h.accounted.nodup,
    h.accounted.closes⟩
  stored := h.stored
  distinct := h.distinct
  returns r hr := ⟨Nat.lt_succ_of_lt (h.returns r hr).1, (h.returns r hr).2⟩
  placed := by
    have huntouched := h.accounted.fresh s.calls le_rfl
    rcases hplace with rfl | ⟨error, herror, rfl⟩
    · exact ⟨h.fresh port, rfl, huntouched⟩
    · exact ⟨h.fresh port, rfl, huntouched, herror⟩

/-- A step of the call `n` on its own socket, before its listener is stored. -/
theorem Inv.own (h : Inv s) {n : Nat} {t' : Table Owner} (ht : s.table.Fair (.call n) t') (hn : n < s.calls)
    (hcloses : t'.closesBy (.call n) = [] ∨ t'.closesBy (.call n) = [some (.call n)])
    (hlisteners : ∀ m ∈ s.udpListeners, m.call ≠ n) (hreturns : ∀ r ∈ s.returns, r.call ≠ n) {place : Place}
    (hplaced : Placed t' s.calls s.udpListeners s.entered s.returns place) : Inv { s with table := t', place } where
  accounted := h.accounted.call hn ht hcloses
  stored l hl := (h.stored l hl).fair ht fun heq => hlisteners l hl (Owner.call.inj heq)
  distinct := h.distinct
  returns r hr := ⟨(h.returns r hr).1, (h.returns r hr).2.fair ht fun heq => hreturns r hr (Owner.call.inj heq)⟩
  placed := hplaced

theorem Inv.socket (h : Inv s) {l : Listener} {fd : Nat} (hplace : s.place = .opening l)
    (hfree : s.table.owner fd = none) :
    Inv { s with table := s.table.opened fd (.call l.call), place := .binding { l with sock := some fd } } := by
  have hplaced := h.placed
  rw [hplace] at hplaced
  obtain ⟨hnew, -, huntouched⟩ := hplaced
  have hholds := huntouched.opened fd
  refine h.own (.opened hfree) hnew.call (.inl hholds.closes) hnew.listeners hnew.returns ⟨?_, fd, rfl, hholds⟩
  exact ⟨hnew.call, hnew.stop, hnew.listeners, hnew.returns, hnew.entered⟩

/-- A move within a call that does nothing else. -/
theorem Inv.moved (h : Inv s) {place : Place}
    (hplaced : Placed s.table s.calls s.udpListeners s.entered s.returns place) : Inv { s with place } :=
  ⟨h.accounted, h.stored, h.distinct, h.returns, hplaced⟩

/-- A return, with the listeners the call leaves. -/
theorem Inv.returned (h : Inv s) {r : Return} {ls : List Listener} (hcall : r.call < s.calls)
    (hstored : ∀ l ∈ ls, Stored s.table l) (hdistinct : (ls.map Listener.call).Nodup)
    (hls : ∀ l, l.call ≠ r.call → (l ∈ ls ↔ l ∈ s.udpListeners)) (hreturns : ∀ r' ∈ s.returns, r'.call ≠ r.call)
    (hr : Returned s.table ls r) : Inv ({ s with udpListeners := ls }.returned r) where
  accounted := h.accounted
  stored := hstored
  distinct := hdistinct
  returns r' hr' := by
    rcases List.mem_append.1 hr' with hr' | hr'
    · obtain ⟨hbelow, hreturned⟩ := h.returns r' hr'
      exact ⟨hbelow, hreturned.listeners fun l hl => hls l (hl.trans_ne (hreturns r' hr'))⟩
    · obtain rfl := List.mem_singleton.1 hr'
      exact ⟨hcall, hr⟩
  placed := trivial

theorem Inv.leave (h : Inv s) {l : Listener} {error : Bytes} (hplace : s.place = .leaving l error) :
    Inv ({ s with table := (stopListen s.table l).1 }.returned
      ⟨l.call, l.port, error, l.sock.isSome, s.entered, s.udpListeners⟩) := by
  have hplaced := h.placed
  rw [hplace] at hplaced
  obtain ⟨hnew, hsock, huntouched, herror⟩ := hplaced
  rw [stopListen_unopened hsock]
  refine h.returned hnew.call h.stored h.distinct (fun _ _ => Iff.rfl) hnew.returns ⟨fun _ => ?_, fun hnil => ?_⟩
  · exact ⟨hnew.entered.symm, by rw [hsock]; rfl, huntouched⟩
  · exact absurd hnil herror

theorem mem_insertListener {l m : Listener} {ls : List Listener} : m ∈ insertListener l ls ↔ m = l ∨ m ∈ ls :=
  List.mem_orderedInsert _

/-- The new listener goes into the map. -/
theorem Inv.store (h : Inv s) {l : Listener} (hplace : s.place = .starting l) :
    Inv ({ s with udpListeners := insertListener l s.udpListeners }.returned
      ⟨l.call, l.port, [], l.sock.isSome, s.entered, insertListener l s.udpListeners⟩) := by
  have hplaced := h.placed
  rw [hplace] at hplaced
  obtain ⟨hnew, fd, hsock, hholds⟩ := hplaced
  have hl : l = ⟨l.call, l.port, some fd, false⟩ := by
    rw [← hsock, ← hnew.stop]
  have hperm : (insertListener l s.udpListeners).Perm (l :: s.udpListeners) := List.perm_orderedInsert _ _ _
  refine h.returned hnew.call (fun m hm => ?_) ?_ (fun m hm => ?_) hnew.returns
    ⟨fun herror => absurd rfl herror, fun _ => ?_⟩
  · rcases mem_insertListener.1 hm with rfl | hm
    · exact .inl ⟨hnew.stop, fd, hsock, hholds⟩
    · exact h.stored m hm
  · rw [(hperm.map Listener.call).nodup_iff, List.map_cons, List.nodup_cons]
    refine ⟨fun hmem => ?_, h.distinct⟩
    obtain ⟨m, hm, heq⟩ := List.mem_map.1 hmem
    exact hnew.listeners m hm heq
  · rw [mem_insertListener, or_iff_right fun heq => hm (by rw [heq])]
  · refine ⟨fd, ?_, .inl ⟨?_, hholds⟩⟩
    · dsimp only
      rw [← hl, hnew.entered]
    · rw [← hl]
      exact mem_insertListener.2 (.inl rfl)

theorem mem_middle {m l : Listener} {pre post : List Listener} :
    m ∈ pre ++ l :: post ↔ m = l ∨ m ∈ pre ++ post := by
  rw [List.perm_middle.mem_iff, List.mem_cons]

/-- `stop_listen` on a running listener of the map. -/
theorem Inv.stopped (h : Inv s) {pre post : List Listener} {l : Listener} {fd k : Nat}
    (hls : s.udpListeners = pre ++ l :: post) (hpre : ∀ m ∈ pre, m.stop = true) (hk : k = pre.length)
    (hholds : s.table.Holds (.call l.call) fd) :
    Inv { s with
      table := s.table.close (.call l.call) fd
      udpListeners := pre ++ ⟨l.call, l.port, none, true⟩ :: post
      place := .stopping (k + 1) } := by
  have hfair : s.table.Fair (.call l.call) (s.table.close (.call l.call) fd) := .close hholds.owner_self
  have hdistinct := h.distinct
  have hmem : ∀ m, m.call ≠ l.call → (m ∈ pre ++ ⟨l.call, l.port, none, true⟩ :: post ↔ m ∈ s.udpListeners) := by
    intro m hm
    rw [hls, mem_middle, mem_middle, or_iff_right fun heq => hm (by rw [heq]), or_iff_right fun heq => hm (by rw [heq])]
  have hother : ∀ m ∈ pre ++ post, m.call ≠ l.call := by
    intro m hm heq
    rw [hls, (List.perm_middle.map _).nodup_iff, List.map_cons, List.nodup_cons] at hdistinct
    exact hdistinct.1 (List.mem_map.2 ⟨m, hm, heq⟩)
  refine ⟨h.accounted.call (h.accounted.below hholds) hfair (.inr hholds.close.closes), fun m hm => ?_, ?_,
    fun r hr => ?_, ?_⟩
  · by_cases hcall : m.call = l.call
    · obtain rfl := (mem_middle.1 hm).resolve_right fun hm => hother m hm hcall
      exact .inr ⟨rfl, hholds.close⟩
    · exact (h.stored m ((hmem m hcall).1 hm)).fair hfair fun heq => hcall (Owner.call.inj heq)
  · dsimp only
    rw [hls] at hdistinct
    simpa using hdistinct
  · obtain ⟨hbelow, hreturned⟩ := h.returns r hr
    refine ⟨hbelow, ?_⟩
    by_cases hcall : r.call = l.call
    · rw [← hcall] at hholds hother ⊢
      refine ⟨fun herror => ?_, fun herror => ?_⟩
      · exact absurd hholds.owner_self ((hreturned.failed herror).2.2.owner fd)
      · obtain ⟨fd', hafter, ⟨-, -⟩ | ⟨-, hdone⟩⟩ := hreturned.succeeded herror
        · refine ⟨fd', hafter, .inr ⟨fun hm => ?_, hholds.close⟩⟩
          rcases mem_middle.1 hm with heq | hm
          · cases congrArg Listener.stop heq
          · exact hother _ hm rfl
        · exact absurd hholds.owner_self (hdone.owner fd)
    · refine (hreturned.fair hfair fun heq => hcall (Owner.call.inj heq)).listeners fun m hm => ?_
      exact hmem m (hm.trans_ne hcall)
  · intro m hm
    rw [List.append_cons, List.take_left' (by rw [hk, List.length_append]; rfl)] at hm
    rcases List.mem_append.1 hm with hm | hm
    · exact hpre m hm
    · rw [List.mem_singleton.1 hm]

/-- `stop_impl` stops the next listener. -/
theorem Inv.stopNext (h : Inv s) {k : Nat} {l : Listener} (hplace : s.place = .stopping k)
    (hl : s.udpListeners[k]? = some l) :
    Inv { s with
      table := (stopListen s.table l).1
      udpListeners := s.udpListeners.set k (stopListen s.table l).2
      place := .stopping (k + 1) } := by
  have hplaced := h.placed
  rw [hplace] at hplaced
  obtain ⟨hk, hget⟩ := List.getElem?_eq_some_iff.1 hl
  rcases h.stored l (List.mem_of_getElem? hl) with ⟨hstop, fd, hsock, hholds⟩ | ⟨hstop, -⟩
  · rw [stopListen_running hstop hsock, List.set_eq_take_append_cons_drop, if_pos hk]
    refine h.stopped ?_ hplaced (by rw [List.length_take, Nat.min_eq_left hk.le]) hholds
    rw [← hget, ← List.drop_eq_getElem_cons hk, List.take_append_drop]
  · rw [stopListen_stopped hstop, ← hget, List.set_getElem_self]
    refine h.moved fun m hm => ?_
    rw [List.take_add_one, hl] at hm
    rcases List.mem_append.1 hm with hm | hm
    · exact hplaced m hm
    · rw [List.mem_singleton.1 hm, hstop]

theorem foldl_stopListen_stopped {ls : List Listener} (h : ∀ l ∈ ls, l.stop = true) (t : Table Owner) :
    ls.foldl (fun table l => (stopListen table l).1) t = t := by
  induction ls with
  | nil => rfl
  | cons l ls ih =>
    rw [List.foldl_cons, stopListen_stopped (h l List.mem_cons_self)]
    exact ih fun m hm => h m (List.mem_cons_of_mem l hm)

theorem Inv.clear (h : Inv s) {k : Nat} (hplace : s.place = .stopping k) (hk : s.udpListeners[k]? = none) :
    Inv { s with
      table := s.udpListeners.foldl (fun table l => (stopListen table l).1) s.table
      udpListeners := []
      place := .idle } := by
  have hstop := h.placed
  rw [hplace, Placed, List.take_of_length_le (List.getElem?_eq_none_iff.1 hk)] at hstop
  rw [foldl_stopListen_stopped hstop]
  exact ⟨h.accounted, nofun, List.nodup_nil, fun r hr => ⟨(h.returns r hr).1, (h.returns r hr).2.clear hstop⟩, trivial⟩

/-- Every event but a `bind` that fails keeps the invariant. -/
theorem inv_step {s' : State} {e : Event} (h : Inv s) (hs : Step s e s') (he : e ≠ .bind false) : Inv s' := by
  have hplaced := h.placed
  cases hs with
  | otherOpen hfree => exact h.others (.opened hfree) (h.accounted.otherOpen hfree)
  | otherClose hheld => exact h.others (.close (h.accounted.others _ hheld)) (h.accounted.otherClose hheld)
  | rejected herror => exact h.rejected rfl herror rfl rfl
  | entered _ hplace => exact h.entered hplace
  | socket hplace hfree => exact h.socket hplace hfree
  | noSocket hplace herror =>
    rw [hplace] at hplaced
    exact h.moved ⟨hplaced.1, hplaced.2.1, hplaced.2.2, herror⟩
  | bound hplace =>
    rw [hplace] at hplaced
    exact h.moved hplaced
  | refused => exact absurd rfl he
  | close hplace =>
    rw [hplace] at hplaced
    exact hplaced.elim
  | leave hplace => exact h.leave hplace
  | store hplace => exact h.store hplace
  | stop => exact h.moved fun _ hm => nomatch hm
  | stopNext hplace hl => exact h.stopNext hplace hl
  | clear hplace hk => exact h.clear hplace hk

theorem Inv.good (h : Inv s) : Good s where
  closes := h.accounted.closes
  failed r hr herror := by
    obtain ⟨hafter, hopened, huntouched⟩ := (h.returns r hr).2.failed herror
    refine ⟨hafter, huntouched.owner, ?_⟩
    rw [hopened, if_neg Bool.false_ne_true]
    exact huntouched.closes
  succeeded r hr herror := (h.returns r hr).2.succeeded herror

end

/-! ## Runs -/

theorem inv_run {events : List Event} {s : State} (h : run events = some s) (hbind : .bind false ∉ events) : Inv s := by
  refine Trace.invariant_foldlM (fun events s => .bind false ∉ events → Inv s) (fun _ => inv_new)
    (fun events s₁ e s₂ ih hstep hbind => ?_) events h hbind
  rw [List.mem_append, not_or, List.mem_singleton] at hbind
  exact inv_step (ih hbind.1) (step_cases hstep) (Ne.symm hbind.2)

/-- A call whose `bind` was refused closes twice by the time it has returned. -/
theorem twice_run {events : List Event} {s : State} (h : run events = some s) (hbind : .bind false ∈ events) :
    ∃ n, Twice n s := by
  refine (Trace.invariant_foldlM (fun events s => Half s ∧ (.bind false ∈ events → ∃ n, Twice n s))
    ⟨half_new, nofun⟩ (fun events s₁ e s₂ ⟨hhalf, ih⟩ hstep => ?_) events h).2 hbind
  have hs := step_cases hstep
  refine ⟨half_step hhalf hs, fun hbind => ?_⟩
  rcases List.mem_append.1 hbind with hbind | hbind
  · obtain ⟨n, hn⟩ := ih hbind
    exact ⟨n, twice_step hn hs⟩
  · obtain rfl := List.mem_singleton.1 hbind
    cases hs with
    | @refused l hplace =>
      obtain ⟨hstop, hsock⟩ := hhalf.2 l hplace
      exact ⟨l.call, .inr (.inr ⟨l, rfl, rfl, hstop, hsock⟩)⟩

theorem Twice.not_good {n : Nat} {s : State} (h : Twice n s) (hplace : s.place = .idle) : ¬ Good s := by
  intro hgood
  rcases h with h | ⟨l, error, hl, -⟩ | ⟨l, hl, -⟩
  · rcases hgood.closes n with hnil | hone
    · simp [hnil] at h
    · simp [hone] at h
  · cases hplace.symm.trans hl
  · cases hplace.symm.trans hl

/-- Sockets are closed once in the runs in which no `bind` is refused; a refused one is
closed twice by its call. -/
theorem listen_closes (events : List Event) (s : State) (h : run events = some s) :
    (.bind false ∉ events → Good s) ∧ (.bind false ∈ events → s.place = .idle → ¬ Good s) := by
  refine ⟨fun hbind => (inv_run h hbind).good, fun hbind hplace => ?_⟩
  obtain ⟨n, hn⟩ := twice_run h hbind
  exact hn.not_good hplace

/-- A call that listens, two that fail, and the stop. -/
def listening : List Event :=
  [.call 5300 true, .socket (some 7), .bind true, .store, .call 5300 true, .call 53 true, .socket none, .leave,
    .otherOpen 8, .stop, .stopNext, .otherOpen 7, .stopNext]

theorem listen_closes_listening : ∃ s, run listening = some s ∧ s.place = .idle ∧ s.returns.length = 3 ∧ Good s := by
  have hrun : (run listening).map (fun s => (s.place, s.returns.length)) = some (.idle, 3) := by decide +kernel
  obtain ⟨s, hs, hlast⟩ := Option.map_eq_some_iff.1 hrun
  obtain ⟨hplace, hlength⟩ := Prod.mk.inj hlast
  exact ⟨s, hs, hplace, hlength, (listen_closes listening s hs).1 (by decide +kernel)⟩

/-- The port is in use. Between the two closes another thread is given the number. -/
def portInUse : List Event := [.call 5300 true, .socket (some 7), .bind false, .close, .otherOpen 7, .leave]

theorem portInUse_closes_other : ∃ s, run portInUse = some s ∧
    s.table.closesBy (.call 0) = [some (.call 0), some .other] ∧ 7 ∈ s.held ∧ ¬ Good s := by
  have hrun : (run portInUse).map (fun s => (s.table.closesBy (.call 0), s.held)) =
      some ([some (.call 0), some .other], [7]) := by decide +kernel
  obtain ⟨s, hs, hlast⟩ := Option.map_eq_some_iff.1 hrun
  obtain ⟨hcloses, hheld⟩ := Prod.mk.inj hlast
  refine ⟨s, hs, hcloses, by rw [hheld]; exact List.mem_singleton_self 7, fun hgood => ?_⟩
  rcases hgood.closes 0 with hnil | hone
  · rw [hcloses] at hnil
    cases hnil
  · rw [hcloses] at hone
    cases hone

end NgxLuaCpp.UdpListen
