import NgxLuaCpp.LruCache
/-!
# What the cache keeps

A key that was set stays readable until it expires or until `max_entries`
distinct other keys were used after it. `cache_set` cuts its ttl to a day.
-/
open Recency

namespace NgxLuaCpp

variable {R : Type}

/-! ## Histories -/

/-- The key a call set or hit. -/
def CacheOp.uses : CacheOp R → CacheResult R → Option Bytes
  | .set _ key _ _, _ => some key
  | .get _ key, .get true _ _ => some key
  | .get _ _, _ => none

/-- The keys set or hit in a run, the latest first. -/
def usedKeys (ops : List (CacheOp R)) (results : List (CacheResult R)) : List Bytes :=
  ((ops.zip results).filterMap fun x => x.1.uses x.2).reverse

variable [LinearOrder R] [Zero R] [Add R] [Sub R] [NatCast R]

/-- The ttl that `cache_set` passes on. -/
def effectiveTtl (ttlMs : R) : R := clamp ttlMs 0 ((86400000 : Nat) : R)

/-- At `now` an entry set at `t₀` has not expired; a ttl of 0 is for ever. -/
def Fresh (t₀ ttlMs now : R) : Prop := effectiveTtl ttlMs = 0 ∨ now < t₀ + effectiveTtl ttlMs

/-- A call that does not set `k`, nor reads it once it expired. -/
def Spares (k : Bytes) (t₀ ttlMs : R) : CacheOp R → Prop
  | .set _ key _ _ => key ≠ k
  | .get now key => key = k → Fresh t₀ ttlMs now

/-! ## The reference run -/

namespace RefRun

theorem run_used (s : RefRun R) (ops : List (CacheOp R)) :
    (s.run ops).1.used = usedKeys ops (s.run ops).2 ++ s.used := by
  induction ops generalizing s with
  | nil => rfl
  | cons op ops ih =>
    have hstep : (s.step op).1.used = ((op.uses (s.step op).2).toList) ++ s.used := by
      cases op with
      | set now key value ttlMs => rfl
      | get now key =>
        simp only [step, CacheOp.uses]
        cases (s.cache.get now key).2.1 <;> rfl
    rw [run, ih, hstep, usedKeys, usedKeys, List.zip_cons_cons, List.filterMap_cons]
    cases op.uses (s.step op).2 <;> simp

end RefRun

namespace RefRun

theorem run_append (s : RefRun R) (ops ops' : List (CacheOp R)) :
    (s.run (ops ++ ops')).1 = ((s.run ops).1.run ops').1 := by
  induction ops generalizing s with
  | nil => rfl
  | cons op ops ih => exact ih _

end RefRun

/-- Of the entries of its key only `e` can be cached, and it is while fewer than
1024 other keys were used since. -/
structure Keeps (e : RefEntry R) (s : RefRun R) : Prop where
  ordered : OrderedBy s.used (s.cache.items.map RefEntry.key)
  only : ∀ x ∈ s.cache.items, x.key = e.key → x = e
  kept : (since s.used e.key).dedup.length < 1024 → e ∈ s.cache.items

omit [Zero R] [Add R] [Sub R] [NatCast R] [LinearOrder R] in
/-- Its own use. -/
theorem keeps_put (e : RefEntry R) {s : RefRun R} (h : OrderedBy s.used (s.cache.items.map RefEntry.key))
    (evictions : Nat) : Keeps e ⟨s.cache.put e, evictions, e.key :: s.used⟩ where
  ordered := orderedBy_put h e
  only x hx hk := by
    rw [put_items] at hx
    rcases List.mem_cons.1 hx with rfl | hx
    · rfl
    · exact absurd hk (mem_others.1 (List.mem_of_mem_take hx)).2
  kept _ := List.mem_cons_self

omit [Zero R] [Add R] [Sub R] [NatCast R] [LinearOrder R] in
/-- The use of another key. -/
theorem Keeps.put_other {e x : RefEntry R} {s : RefRun R} (h : Keeps e s) (hne : x.key ≠ e.key) (evictions : Nat) :
    Keeps e ⟨s.cache.put x, evictions, x.key :: s.used⟩ where
  ordered := orderedBy_put h.ordered x
  only y hy hk := by
    rw [put_items] at hy
    rcases List.mem_cons.1 hy with rfl | hy
    · exact absurd hk hne
    · exact h.only y (mem_others.1 (List.mem_of_mem_take hy)).1 hk
  kept hc := by
    refine mem_put h.ordered (h.kept (Nat.lt_of_le_of_lt ?_ hc)) hne hc
    rw [since_other hne]
    refine List.Nodup.length_le_of_subset (List.nodup_dedup _) ?_
    intro y hy
    exact List.mem_dedup.2 (List.mem_cons_of_mem _ (List.mem_dedup.1 hy))

/-! ## A step -/

omit [Add R] [NatCast R] in
theorem RefCache.get_absent {r : RefCache R} {key : Bytes} (h : r.find? key = none) (now : R) :
    r.get now key = (r, false, [], 0) := by
  rw [RefCache.get, h]

omit [Add R] [NatCast R] in
theorem RefCache.get_expired {r : RefCache R} {key : Bytes} {e : RefEntry R} (h : r.find? key = some e) {now : R}
    (hd : e.expire > 0 ∧ now ≥ e.expire) : r.get now key = (r.remove key, false, [], 0) := by
  rw [RefCache.get, h]
  exact if_pos hd

omit [Add R] [NatCast R] in
theorem RefCache.get_live {r : RefCache R} {key : Bytes} {e : RefEntry R} (h : r.find? key = some e) {now : R}
    (hd : ¬ (e.expire > 0 ∧ now ≥ e.expire)) :
    r.get now key = (r.put e, true, e.value, if e.expire > 0 then e.expire - now else 0) := by
  rw [RefCache.get, h]
  exact if_neg hd

omit [Sub R] in
theorem Fresh.unexpired {t₀ ttlMs now : R} (h : Fresh t₀ ttlMs now) :
    ¬ (LruCache.expiry t₀ (effectiveTtl ttlMs) > 0 ∧ now ≥ LruCache.expiry t₀ (effectiveTtl ttlMs)) := by
  unfold LruCache.expiry
  rintro ⟨hpos, hle⟩
  split at hpos
  · rename_i httl
    rw [if_pos httl] at hle
    rcases h with h | h
    · exact absurd httl (by rw [h]; exact lt_irrefl 0)
    · exact absurd hle (not_le.2 h)
  · exact absurd hpos (lt_irrefl 0)

/-- A call that spares the key keeps its entry. -/
theorem Keeps.step {e : RefEntry R} {s : RefRun R} (h : Keeps e s) {t₀ ttlMs : R}
    (hexp : e.expire = LruCache.expiry t₀ (effectiveTtl ttlMs)) {op : CacheOp R} (hop : Spares e.key t₀ ttlMs op) :
    Keeps e (s.step op).1 := by
  cases op with
  | set now key value ttl => exact h.put_other (x := ⟨key, value, _⟩) hop _
  | get now key =>
    change Keeps e ⟨(s.cache.get now key).1, s.evictions, if (s.cache.get now key).2.1 then key :: s.used else s.used⟩
    cases hx : s.cache.find? key with
    | none =>
      rw [RefCache.get_absent hx]
      exact h
    | some x =>
      obtain ⟨hmem, rfl⟩ := s.cache.find?_eq_some_iff.1 hx
      by_cases hk : x.key = e.key
      · -- a hit, and a use of the key itself
        obtain rfl := h.only x hmem hk
        have hlive := (hop rfl).unexpired
        rw [← hexp] at hlive
        rw [RefCache.get_live hx hlive]
        exact keeps_put x h.ordered _
      · by_cases hdead : x.expire > 0 ∧ now ≥ x.expire
        · rw [RefCache.get_expired hx hdead]
          refine ⟨h.ordered.sublist (List.filter_sublist.map _), ?_, ?_⟩
          · intro y hy
            exact h.only y (mem_others.1 hy).1
          · intro hc
            exact mem_others.2 ⟨h.kept hc, Ne.symm hk⟩
        · rw [RefCache.get_live hx hdead]
          exact h.put_other hk _

theorem Keeps.run {e : RefEntry R} {t₀ ttlMs : R} (hexp : e.expire = LruCache.expiry t₀ (effectiveTtl ttlMs))
    {ops : List (CacheOp R)} (hops : ∀ op ∈ ops, Spares e.key t₀ ttlMs op) {s : RefRun R} (h : Keeps e s) :
    Keeps e (s.run ops).1 := by
  induction ops generalizing s with
  | nil => exact h
  | cons op ops ih =>
    apply ih
    · intro o ho
      exact hops o (List.mem_cons_of_mem _ ho)
    · exact h.step hexp (hops op List.mem_cons_self)

/-! ## Every history -/

/-- However the cache is used, a key that was set is read back until it
expires, as long as at most `max_entries - 1` other keys are used after it. -/
theorem set_key_kept (pre post : List (CacheOp R)) (t₀ t : R) (k v : Bytes) (ttlMs : R) :
    ∃ c results, LruCache.new.run (pre ++ .set t₀ k v ttlMs :: post) = some (c, results) ∧
      ((∀ op ∈ post, Spares k t₀ ttlMs op) → Fresh t₀ ttlMs t →
        (since (usedKeys (pre ++ .set t₀ k v ttlMs :: post) results) k).dedup.length ≤ c.maxEntries - 1 →
        ∃ c' remain, c.cacheGet t k = some (c', true, v, remain)) := by
  obtain ⟨c, hc, h⟩ := refines_run (pre ++ .set t₀ k v ttlMs :: post) (refines_new (R := R))
  refine ⟨c, _, hc, ?_⟩
  intro hpost hfresh hused
  obtain ⟨cpre, -, hpre⟩ := refines_run pre (refines_new (R := R))
  have hset : Keeps ⟨k, v, LruCache.expiry t₀ (effectiveTtl ttlMs)⟩
      ((RefRun.new.run pre).1.step (.set t₀ k v ttlMs)).1 := keeps_put _ hpre.ordered _
  have hkeeps := hset.run rfl hpost
  have hrun : (RefRun.new.run (pre ++ .set t₀ k v ttlMs :: post)).1
      = (((RefRun.new.run pre).1.step (.set t₀ k v ttlMs)).1.run post).1 := RefRun.run_append _ _ _
  rw [← hrun] at hkeeps
  have hmem := hkeeps.kept (by
    rw [RefRun.run_used, show (RefRun.new : RefRun R).used = [] from rfl, List.append_nil]
    rw [h.abs.cap] at hused
    exact Nat.lt_succ_of_le hused)
  have hfind := (Recency.find?_eq_some_iff _).2 ⟨hmem, rfl⟩
  obtain ⟨c', hget, -⟩ := get_spec h.abs t k
  rw [RefCache.get_live hfind hfresh.unexpired] at hget
  exact ⟨c', _, hget⟩

/-- `a` set for a second, then `b`, then `a` read. -/
theorem second_later_kept : ∃ (c : LruCache Int) (results : List (CacheResult Int)),
    LruCache.new.run [.set 0 (txt "a") (txt "1") 1000, .set 1 (txt "b") (txt "2") 0] = some (c, results) ∧
    ∃ c' remain, c.cacheGet 999 (txt "a") = some (c', true, txt "1", remain) := by
  obtain ⟨c, results, hrun, h⟩ := set_key_kept ([] : List (CacheOp Int)) [.set 1 (txt "b") (txt "2") 0] 0 999 (txt "a")
    (txt "1") 1000
  rw [List.nil_append] at hrun h
  refine ⟨c, results, hrun, h ?_ ?_ ?_⟩
  · intro op hop
    rw [List.mem_singleton.1 hop]
    exact (by decide : txt "b" ≠ txt "a")
  · exact .inr (by decide)
  · have hends : (LruCache.new.run [.set (0 : Int) (txt "a") (txt "1") 1000, .set 1 (txt "b") (txt "2") 0]).map
        (fun r => (r.1.maxEntries, r.2)) = some (1024, [.set true, .set true]) := by decide +kernel
    rw [hrun, Option.map_some, Option.some.injEq, Prod.mk.injEq] at hends
    obtain ⟨hmax, rfl⟩ := hends
    rw [hmax]
    decide

/-- A ttl of two days has run out after a day and a half. -/
theorem two_days_cut : ∃ (c : LruCache Int) (results : List (CacheResult Int)),
    LruCache.new.run [.set 0 (txt "a") (txt "1") 172800000] = some (c, results) ∧
    (129600000 : Int) < 0 + 172800000 ∧ (c.cacheGet 129600000 (txt "a")).map (fun r => r.2.1) = some false := by
  have hends : (LruCache.new.run [.set (0 : Int) (txt "a") (txt "1") 172800000]).map
      (fun r => (r.1.cacheGet 129600000 (txt "a")).map fun g => g.2.1) = some (some false) := by decide +kernel
  obtain ⟨⟨c, results⟩, hrun, hget⟩ := Option.map_eq_some_iff.1 hends
  exact ⟨c, results, hrun, by decide, hget⟩

end NgxLuaCpp
