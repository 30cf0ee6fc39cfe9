import NgxLuaCpp.Base
import NgxLuaCpp.Lib.SortedMap
import NgxLuaCpp.Lib.Recency
/-!
# The LRU cache

`lru_cache_t` keeps a list of nodes and two maps, one of them into the list.
We translate it node by node, with `none` for undefined behaviour (an iterator
to no node, `back()` of an empty list), and show it refines one recency list.

Clock readings and ttls are `double`s: `R` is any linear order with the
operations the code applies to them.
-/
open Recency

namespace NgxLuaCpp

variable {R : Type}

/-- A node of `std::list<std::string> lru`; an iterator is the node's `id`. -/
structure LruNode where
  id : Nat
  key : Bytes
  deriving DecidableEq

/-- `lru_cache_t`; the nodes are numbered in the order they were made. -/
structure LruCache (R : Type) where
  maxEntries : Nat
  hits : Nat
  misses : Nat
  evictions : Nat
  lru : List LruNode
  nextNode : Nat
  entries : SortedMap Bytes (Bytes × R)
  iters : SortedMap Bytes Nat

namespace LruCache

/-- A cache as constructed, of 1024 entries. -/
def new : LruCache R := ⟨1024, 0, 0, 0, [], 0, .empty, .empty⟩

/-- `lru.splice(lru.begin(), lru, it)`. -/
def splice (lru : List LruNode) (it : Nat) : Option (List LruNode) := do
  let node ← lru.find? fun n => decide (n.id = it)
  some (node :: lru.filter fun n => decide (n.id ≠ it))

/-- `lru.erase(it)`. -/
def eraseNode (lru : List LruNode) (it : Nat) : Option (List LruNode) := do
  let _ ← lru.find? fun n => decide (n.id = it)
  some (lru.filter fun n => decide (n.id ≠ it))

/-- The eviction block of `set`. -/
def evict (c : LruCache R) : Option (LruCache R) := do
  let victim ← c.lru.getLast?
  some { c with
    lru := c.lru.dropLast
    entries := c.entries.erase victim.key
    iters := c.iters.erase victim.key
    evictions := c.evictions + 1 }

section Operations
variable [LinearOrder R] [Zero R] [Add R] [Sub R]

/-- `expire` in `set`; 0 is never. -/
def expiry (now ttlMs : R) : R := if ttlMs > 0 then now + ttlMs else 0

/-- `set`; none is an iterator that is not there. -/
def set (c : LruCache R) (now : R) (key value : Bytes) (ttlMs : R) : Option (LruCache R × Bool) := do
  let expire := expiry now ttlMs
  match c.entries.find? key with
  | some _ =>
    let lru ← splice c.lru (← c.iters.find? key)
    some ({ c with entries := c.entries.insert key (value, expire), lru := lru }, true)
  | none =>
    let c ← if c.entries.size ≥ c.maxEntries then c.evict else some c
    some ({ c with
      entries := c.entries.insert key (value, expire)
      lru := ⟨c.nextNode, key⟩ :: c.lru
      nextNode := c.nextNode + 1
      iters := c.iters.insert key c.nextNode }, true)

/-- `get`, with whether the key was found, its value and the time left; none is an iterator that
is not there. -/
def get (c : LruCache R) (now : R) (key : Bytes) : Option (LruCache R × Bool × Bytes × R) :=
  match c.entries.find? key with
  | none => some ({ c with misses := c.misses + 1 }, false, [], 0)
  | some (value, expire) =>
    if expire > 0 ∧ now ≥ expire then do
      let lru ← eraseNode c.lru (← c.iters.find? key)
      some ({ c with
        entries := c.entries.erase key
        lru := lru
        iters := c.iters.erase key
        misses := c.misses + 1 }, false, [], 0)
    else do
      let lru ← splice c.lru (← c.iters.find? key)
      some ({ c with lru := lru, hits := c.hits + 1 }, true, value, if expire > 0 then expire - now else 0)

/-- `ngx_lua_cpp_t::cache_set`: the ttl is clamped to a day. -/
def cacheSet [NatCast R] (c : LruCache R) (now : R) (key value : Bytes) (ttlMs : R) : Option (LruCache R × Bool) :=
  c.set now key value (clamp ttlMs 0 ((86400000 : Nat) : R))

/-- `ngx_lua_cpp_t::cache_get`. -/
def cacheGet (c : LruCache R) (now : R) (key : Bytes) : Option (LruCache R × Bool × Bytes × R) := c.get now key

end Operations

end LruCache

/-! ## The reference cache -/

/-- `expire = 0` is never, as in the code. -/
structure RefEntry (R : Type) where
  key : Bytes
  value : Bytes
  expire : R

/-- What the cache is for: the latest 1024 entries, by recency. -/
abbrev RefCache (R : Type) := Recency (RefEntry.key : RefEntry R → Bytes) 1024

namespace RefCache
variable [LinearOrder R] [Zero R] [Add R] [Sub R]

def set (r : RefCache R) (now : R) (key value : Bytes) (ttlMs : R) : RefCache R :=
  r.put ⟨key, value, LruCache.expiry now ttlMs⟩

def get (r : RefCache R) (now : R) (key : Bytes) : RefCache R × Bool × Bytes × R :=
  match r.find? key with
  | none => (r, false, [], 0)
  | some e =>
    if e.expire > 0 ∧ now ≥ e.expire then (r.remove key, false, [], 0)
    else (r.put e, true, e.value, if e.expire > 0 then e.expire - now else 0)

end RefCache

/-! ## The abstraction -/

/-- `c` holds the entries of `r`: the list its keys in order, the maps its
entries and, for each key, the node that holds it. -/
structure Abs (c : LruCache R) (r : RefCache R) : Prop where
  keys : c.lru.map LruNode.key = r.items.map RefEntry.key
  ids_nodup : (c.lru.map LruNode.id).Nodup
  ids_lt : ∀ n ∈ c.lru, n.id < c.nextNode
  entries : ∀ k v x, c.entries.find? k = some (v, x) ↔ ⟨k, v, x⟩ ∈ r.items
  iters : ∀ k i, c.iters.find? k = some i ↔ ⟨i, k⟩ ∈ c.lru
  cap : c.maxEntries = 1024

theorem abs_new : Abs (LruCache.new : LruCache R) Recency.empty where
  keys := rfl
  ids_nodup := .nil
  ids_lt := by simp [LruCache.new]
  entries := by simp [LruCache.new, Recency.empty]
  iters := by simp [LruCache.new]
  cap := rfl

theorem Abs.keys_nodup {c : LruCache R} {r : RefCache R} (h : Abs c r) : (c.lru.map LruNode.key).Nodup :=
  h.keys ▸ r.nodup

theorem Abs.find?_eq {c : LruCache R} {r : RefCache R} (h : Abs c r) (k : Bytes) :
    c.entries.find? k = (r.find? k).map fun e => (e.value, e.expire) := by
  cases hr : r.find? k with
  | some e =>
    obtain ⟨he, rfl⟩ := r.find?_eq_some_iff.1 hr
    exact (h.entries _ _ _).2 he
  | none =>
    cases hc : c.entries.find? k with
    | none => rfl
    | some vx => exact absurd (List.mem_map_of_mem ((h.entries _ _ _).1 hc)) (r.find?_eq_none_iff.1 hr)

theorem Abs.size_eq {c : LruCache R} {r : RefCache R} (h : Abs c r) : c.entries.size = r.items.length := by
  have hp : c.entries.keys.Perm (r.items.map RefEntry.key) := by
    refine SortedMap.keys_perm r.nodup fun k => ?_
    rw [h.find?_eq, Option.isSome_map, r.isSome_find?]
  rw [← SortedMap.length_keys, hp.length_eq, List.length_map]

/-! ## The list operations -/

theorem Abs.exists_node {c : LruCache R} {r : RefCache R} (h : Abs c r) {k : Bytes} {e : RefEntry R}
    (hk : r.find? k = some e) : ∃ i, c.iters.find? k = some i := by
  have hm : k ∈ c.lru.map LruNode.key := by
    rw [h.keys, ← r.isSome_find?, hk]; rfl
  obtain ⟨⟨i, k⟩, hn, rfl⟩ := List.mem_map.1 hm
  exact ⟨i, (h.iters _ _).2 hn⟩

theorem Abs.node_unique {c : LruCache R} {r : RefCache R} (h : Abs c r) {n m : LruNode} (hn : n ∈ c.lru)
    (hm : m ∈ c.lru) : n.id = m.id ↔ n.key = m.key := by
  constructor
  · intro he
    rw [List.inj_on_of_nodup_map h.ids_nodup hn hm he]
  · intro he
    rw [List.inj_on_of_nodup_map h.keys_nodup hn hm he]

theorem Abs.find_node {c : LruCache R} {r : RefCache R} (h : Abs c r) {k : Bytes} {i : Nat}
    (hi : c.iters.find? k = some i) : (c.lru.find? fun n => decide (n.id = i)) = some ⟨i, k⟩ := by
  have hmem := (h.iters k i).1 hi
  obtain ⟨n, hn⟩ : ∃ n, (c.lru.find? fun n => decide (n.id = i)) = some n := by
    rw [← Option.isSome_iff_exists, List.find?_isSome]
    exact ⟨_, hmem, by simp⟩
  have hid : n.id = i := by simpa using List.find?_some hn
  rw [hn, List.inj_on_of_nodup_map h.ids_nodup (List.mem_of_find?_eq_some hn) hmem hid]

theorem Abs.filter_node {c : LruCache R} {r : RefCache R} (h : Abs c r) {k : Bytes} {i : Nat}
    (hi : c.iters.find? k = some i) :
    (c.lru.filter fun n => decide (n.id ≠ i)) = c.lru.filter fun n => decide (n.key ≠ k) := by
  refine List.filter_congr fun n hn => ?_
  have := h.node_unique hn ((h.iters k i).1 hi)
  simpa using this

theorem Abs.splice {c : LruCache R} {r : RefCache R} (h : Abs c r) {k : Bytes} {i : Nat}
    (hi : c.iters.find? k = some i) :
    LruCache.splice c.lru i = some (⟨i, k⟩ :: c.lru.filter fun n => decide (n.key ≠ k)) := by
  rw [LruCache.splice, h.find_node hi, h.filter_node hi]; rfl

theorem Abs.eraseNode {c : LruCache R} {r : RefCache R} (h : Abs c r) {k : Bytes} {i : Nat}
    (hi : c.iters.find? k = some i) :
    LruCache.eraseNode c.lru i = some (c.lru.filter fun n => decide (n.key ≠ k)) := by
  rw [LruCache.eraseNode, h.find_node hi, h.filter_node hi]; rfl

/-- The keys of the nodes but one are those of the entries but one. -/
theorem Abs.others {c : LruCache R} {r : RefCache R} (h : Abs c r) (k : Bytes) :
    (c.lru.filter fun n => decide (n.key ≠ k)).map LruNode.key = (r.others k).map RefEntry.key := by
  have e : ∀ {α : Type} (f : α → Bytes) (l : List α),
      (l.filter fun x => decide (f x ≠ k)).map f = (l.map f).filter fun x => decide (x ≠ k) := by
    intro α f l
    rw [List.filter_map]; rfl
  rw [e LruNode.key, h.keys, ← e RefEntry.key]; rfl

/-- Refreshing a key's entry and moving its node to the front. -/
theorem Abs.refresh {c c' : LruCache R} {r : RefCache R} (h : Abs c r) {e e' : RefEntry R} {i : Nat}
    (he : r.find? e'.key = some e) (hi : c.iters.find? e'.key = some i)
    (hlru : c'.lru = ⟨i, e'.key⟩ :: c.lru.filter fun n => decide (n.key ≠ e'.key))
    (hent : ∀ k, c'.entries.find? k = if k = e'.key then some (e'.value, e'.expire) else c.entries.find? k)
    (hit : c'.iters = c.iters) (hnext : c'.nextNode = c.nextNode) (hcap : c'.maxEntries = c.maxEntries) :
    Abs c' (r.put e') := by
  have hmem := (h.iters _ _).1 hi
  have hput := put_present he
  refine ⟨?_, ?_, ?_, ?_, ?_, hcap ▸ h.cap⟩
  · rw [hlru, hput, List.map_cons, List.map_cons, h.others]
  · rw [hlru, List.map_cons, List.nodup_cons]
    refine ⟨fun hm => ?_, h.ids_nodup.sublist (List.filter_sublist.map _)⟩
    obtain ⟨n, hn, hid⟩ := List.mem_map.1 hm
    obtain ⟨hn, hk⟩ := List.mem_filter.1 hn
    exact (of_decide_eq_true hk) ((h.node_unique hn hmem).1 hid)
  · intro n hn
    rw [hlru] at hn
    rw [hnext]
    rcases List.mem_cons.1 hn with rfl | hn
    · exact h.ids_lt _ hmem
    · exact h.ids_lt _ (List.mem_filter.1 hn).1
  · intro k v x
    rw [hent, hput]
    by_cases hk : k = e'.key
    · subst hk
      have hno : (⟨e'.key, v, x⟩ : RefEntry R) ∉ r.others e'.key := fun hm => (mem_others.1 hm).2 rfl
      obtain ⟨k', v', x'⟩ := e'
      simp [hno, eq_comm]
    · have hne : (⟨k, v, x⟩ : RefEntry R) ≠ e' := by rintro rfl; exact hk rfl
      simp [hk, hne, h.entries, mem_others]
  · -- a spliced node keeps its id, so the iterators stay as they are
    intro k j
    rw [hit, hlru, h.iters]
    by_cases hk : k = e'.key
    · subst hk
      have := h.node_unique (n := ⟨j, e'.key⟩) (m := ⟨i, e'.key⟩)
      simp only [List.mem_cons, LruNode.mk.injEq, and_true, List.mem_filter, ne_eq, not_true_eq_false, decide_false,
        Bool.false_eq_true, and_false, or_false]
      exact ⟨fun hj => (this hj hmem).2 rfl, by rintro rfl; exact hmem⟩
    · simp [hk]

/-- Dropping the last node, its entry and its iterator. -/
theorem Abs.evict {c : LruCache R} {r : RefCache R} (h : Abs c r) (hne : r.items ≠ []) :
    ∃ c', c.evict = some c' ∧ Abs c' r.dropLast ∧ c'.hits = c.hits ∧ c'.misses = c.misses ∧
      c'.evictions = c.evictions + 1 := by
  obtain ⟨es, e, hes⟩ := (List.eq_nil_or_concat' r.items).resolve_left hne
  obtain ⟨ns, n, hns⟩ := (List.eq_nil_or_concat' c.lru).resolve_left (by
    rintro h0; simpa [h0, hes] using h.keys)
  -- the last node holds the key of the last entry
  have hkeys : ns.map LruNode.key = es.map RefEntry.key ∧ n.key = e.key := by
    simpa [hns, hes] using h.keys
  have hkn := h.keys_nodup
  have hin := h.ids_nodup
  have hrn := r.nodup
  rw [hns, List.map_append, List.nodup_append] at hkn hin
  rw [hes, List.map_append, List.nodup_append] at hrn
  have hev : c.evict = some { c with
      lru := c.lru.dropLast
      entries := c.entries.erase n.key
      iters := c.iters.erase n.key
      evictions := c.evictions + 1 } := by
    simp [LruCache.evict, hns]
  rw [hkeys.2] at hev
  refine ⟨_, hev, ?_, rfl, rfl, rfl⟩
  refine ⟨?_, ?_, ?_, ?_, ?_, h.cap⟩
  · rw [Recency.dropLast_items, hes, hns, List.dropLast_concat, List.dropLast_concat, hkeys.1]
  · simpa [hns] using hin.1
  · intro m hm
    exact h.ids_lt m (List.dropLast_subset _ hm)
  · intro k v x
    rw [SortedMap.find?_erase, Recency.dropLast_items, hes, List.dropLast_concat]
    by_cases hk : k = e.key
    · subst hk
      have hno : (⟨e.key, v, x⟩ : RefEntry R) ∉ es := by
        intro hm
        exact hrn.2.2 _ (List.mem_map.2 ⟨_, hm, rfl⟩) _ (by simp) rfl
      simp [hno]
    · have hne : (⟨k, v, x⟩ : RefEntry R) ≠ e := by rintro rfl; exact hk rfl
      rw [if_neg hk, h.entries, hes]
      simp [hne]
  · intro k i
    simp only [SortedMap.find?_erase, hns, List.dropLast_concat]
    by_cases hk : k = e.key
    · subst hk
      have hno : (⟨i, e.key⟩ : LruNode) ∉ ns := by
        intro hm
        exact hkn.2.2 _ (List.mem_map.2 ⟨_, hm, rfl⟩) _ (by simp) hkeys.2.symm
      simp [hno]
    · have hne : (⟨i, k⟩ : LruNode) ≠ n := by rintro rfl; exact hk hkeys.2
      rw [if_neg hk, h.iters, hns]
      simp [hne]

/-- A new key at the front of a cache with room. -/
theorem Abs.insert {c : LruCache R} {r : RefCache R} (h : Abs c r) {e : RefEntry R} (he : r.find? e.key = none)
    (hroom : r.items.length < 1024) :
    Abs { c with entries := c.entries.insert e.key (e.value, e.expire), lru := ⟨c.nextNode, e.key⟩ :: c.lru,
                 nextNode := c.nextNode + 1, iters := c.iters.insert e.key c.nextNode } (r.put e) := by
  have hput := put_room he hroom
  have hnk : e.key ∉ r.items.map RefEntry.key := r.find?_eq_none_iff.1 he
  refine ⟨?_, ?_, ?_, ?_, ?_, h.cap⟩
  · rw [hput, List.map_cons, List.map_cons, h.keys]
  · -- the new node's id is past every other
    rw [List.map_cons, List.nodup_cons]
    refine ⟨?_, h.ids_nodup⟩
    intro hm
    obtain ⟨m, hm, hid⟩ := List.mem_map.1 hm
    exact (h.ids_lt m hm).ne hid
  · intro m hm
    simp only at hm ⊢
    rcases List.mem_cons.1 hm with rfl | hm
    · exact Nat.lt_succ_self _
    · exact Nat.lt_succ_of_lt (h.ids_lt m hm)
  · intro k v x
    rw [SortedMap.find?_insert, hput]
    by_cases hk : k = e.key
    · subst hk
      have hno : (⟨e.key, v, x⟩ : RefEntry R) ∉ r.items := fun hm => hnk (List.mem_map.2 ⟨_, hm, rfl⟩)
      obtain ⟨k', v', x'⟩ := e
      simp [hno, eq_comm]
    · have hne : (⟨k, v, x⟩ : RefEntry R) ≠ e := by rintro rfl; exact hk rfl
      simp [hk, hne, h.entries]
  · intro k i
    rw [SortedMap.find?_insert]
    by_cases hk : k = e.key
    · subst hk
      have hno : (⟨i, e.key⟩ : LruNode) ∉ c.lru := fun hm => hnk (h.keys ▸ List.mem_map.2 ⟨_, hm, rfl⟩)
      simp [hno, eq_comm]
    · simp [hk, h.iters]

/-- Removing a key's entry, node and iterator. -/
theorem Abs.remove {c : LruCache R} {r : RefCache R} (h : Abs c r) (k : Bytes) (misses : Nat) :
    Abs { c with entries := c.entries.erase k, lru := c.lru.filter fun n => decide (n.key ≠ k),
                 iters := c.iters.erase k, misses := misses } (r.remove k) := by
  refine ⟨h.others k, h.ids_nodup.sublist (List.filter_sublist.map _), ?_, ?_, ?_, h.cap⟩
  · intro m hm
    exact h.ids_lt m (List.mem_filter.1 hm).1
  · intro k' v x
    rw [SortedMap.find?_erase, Recency.remove_items, mem_others]
    by_cases hk : k' = k <;> simp [hk, h.entries]
  · intro k' i
    rw [SortedMap.find?_erase]
    by_cases hk : k' = k <;> simp [hk, h.iters]

/-! ## The operations refine -/

/-- A `set` that finds the cache full and the key new. -/
def RefCache.evicts (r : RefCache R) (key : Bytes) : Prop := r.find? key = none ∧ r.items.length = 1024

instance (r : RefCache R) (key : Bytes) : Decidable (r.evicts key) :=
  inferInstanceAs (Decidable (r.find? key = none ∧ r.items.length = 1024))

variable [LinearOrder R] [Zero R]

theorem set_spec [Add R] {c : LruCache R} {r : RefCache R} (h : Abs c r) (now : R) (key value : Bytes) (ttlMs : R) :
    ∃ c', c.set now key value ttlMs = some (c', true) ∧ Abs c' (RefCache.set r now key value ttlMs) ∧
      c'.hits = c.hits ∧ c'.misses = c.misses ∧
      c'.evictions = c.evictions + if r.evicts key then 1 else 0 := by
  have hf := h.find?_eq key
  cases hr : r.find? key with
  | some e =>
    obtain ⟨i, hi⟩ := h.exists_node hr
    rw [hr] at hf
    simp only [LruCache.set, hf, Option.map_some, hi, Option.bind_eq_bind, Option.bind_some, h.splice hi]
    refine ⟨_, rfl, h.refresh hr hi rfl ?_ rfl rfl rfl, rfl, rfl, by simp [RefCache.evicts, hr]⟩
    intro k
    exact SortedMap.find?_insert _ _ _ _
  | none =>
    rw [hr] at hf
    simp only [LruCache.set, hf, Option.map_none, h.size_eq, h.cap]
    rcases Nat.lt_or_ge r.items.length 1024 with hl | hl
    · rw [if_neg (by omega)]
      exact ⟨_, rfl, h.insert (e := ⟨key, value, LruCache.expiry now ttlMs⟩) hr hl, rfl, rfl,
        by simp [RefCache.evicts, hl.ne]⟩
    · have hfull : r.items.length = 1024 := Nat.le_antisymm r.bounded hl
      obtain ⟨c₁, hev, h₁, hh, hm, he⟩ := h.evict (by rintro h0; simp [h0] at hl)
      have hr₁ : r.dropLast.find? key = none := by
        rw [Recency.find?_eq_none_iff] at hr ⊢
        exact fun hk => hr (((List.dropLast_sublist _).map _).subset hk)
      -- the code evicts and then inserts; the reference drops as it puts
      have hput : r.dropLast.put ⟨key, value, LruCache.expiry now ttlMs⟩ = RefCache.set r now key value ttlMs := by
        have e₁ := put_room (x := (⟨key, value, LruCache.expiry now ttlMs⟩ : RefEntry R)) hr₁ (by simp [hfull])
        have e₂ := put_full (x := (⟨key, value, LruCache.expiry now ttlMs⟩ : RefEntry R)) hr hfull
        exact Recency.ext (e₁.trans e₂.symm)
      rw [if_pos hl, hev]
      refine ⟨_, rfl, hput ▸ h₁.insert (e := ⟨key, value, LruCache.expiry now ttlMs⟩) hr₁ (by simp [hfull]), hh, hm, ?_⟩
      simp [he, RefCache.evicts, hr, hfull]

theorem get_spec [Sub R] {c : LruCache R} {r : RefCache R} (h : Abs c r) (now : R) (key : Bytes) :
    ∃ c', c.get now key = some (c', (RefCache.get r now key).2) ∧ Abs c' (RefCache.get r now key).1 ∧
      c'.hits + c'.misses = c.hits + c.misses + 1 ∧ c'.evictions = c.evictions := by
  have hf := h.find?_eq key
  cases hr : r.find? key with
  | none =>
    rw [hr] at hf
    simp only [LruCache.get, hf, Option.map_none, RefCache.get, hr]
    exact ⟨_, rfl, ⟨h.keys, h.ids_nodup, h.ids_lt, h.entries, h.iters, h.cap⟩, by simp only; omega, rfl⟩
  | some e =>
    obtain ⟨i, hi⟩ := h.exists_node hr
    obtain ⟨hmem, rfl⟩ := r.find?_eq_some_iff.1 hr
    rw [hr] at hf
    simp only [LruCache.get, hf, Option.map_some, RefCache.get, hr, hi, Option.bind_eq_bind, Option.bind_some]
    split
    · rw [h.eraseNode hi]
      exact ⟨_, rfl, h.remove e.key _, by simp only; omega, rfl⟩
    · rw [h.splice hi]
      refine ⟨_, rfl, h.refresh hr hi rfl (fun k => ?_) rfl rfl rfl, by simp only; omega, rfl⟩
      split
      · rename_i hk; rw [hk, hf]; rfl
      · rfl

/-! ## Runs -/

/-- A call, with the clock reading it makes. -/
inductive CacheOp (R : Type) where
  | set (now : R) (key value : Bytes) (ttlMs : R)
  | get (now : R) (key : Bytes)

/-- What a call returns. -/
inductive CacheResult (R : Type) where
  | set (ok : Bool)
  | get (found : Bool) (value : Bytes) (remain : R)
  deriving DecidableEq

def CacheOp.isGet : CacheOp R → Bool
  | .get .. => true
  | .set .. => false

/-- The reference cache, with what its calls did: how many insertions evicted,
and the keys set or hit, the latest first. -/
structure RefRun (R : Type) where
  cache : RefCache R
  evictions : Nat
  used : List Bytes

variable [Add R] [Sub R] [NatCast R]

/-- What a call does to the cache, and what it returns. -/
def LruCache.step (c : LruCache R) : CacheOp R → Option (LruCache R × CacheResult R)
  | .set now key value ttlMs => (c.cacheSet now key value ttlMs).map fun r => (r.1, .set r.2)
  | .get now key => (c.cacheGet now key).map fun r => (r.1, .get r.2.1 r.2.2.1 r.2.2.2)

def LruCache.run (c : LruCache R) : List (CacheOp R) → Option (LruCache R × List (CacheResult R))
  | [] => some (c, [])
  | op :: ops => do
    let (c, x) ← c.step op
    let (c, xs) ← c.run ops
    some (c, x :: xs)

namespace RefRun

def new : RefRun R := ⟨.empty, 0, []⟩

def step (s : RefRun R) : CacheOp R → RefRun R × CacheResult R
  | .set now key value ttlMs =>
    (⟨s.cache.set now key value (clamp ttlMs 0 ((86400000 : Nat) : R)),
      s.evictions + (if s.cache.evicts key then 1 else 0), key :: s.used⟩, .set true)
  | .get now key =>
    let r := s.cache.get now key
    (⟨r.1, s.evictions, if r.2.1 then key :: s.used else s.used⟩, .get r.2.1 r.2.2.1 r.2.2.2)

def run (s : RefRun R) : List (CacheOp R) → RefRun R × List (CacheResult R)
  | [] => (s, [])
  | op :: ops =>
    let r := s.step op
    let rs := r.1.run ops
    (rs.1, r.2 :: rs.2)

end RefRun

/-- `c` after `gets` calls of `get` stands for the reference run `s`. -/
structure Refines (c : LruCache R) (s : RefRun R) (gets : Nat) : Prop where
  abs : Abs c s.cache
  counted : c.hits + c.misses = gets
  evicted : c.evictions = s.evictions
  ordered : OrderedBy s.used (s.cache.items.map RefEntry.key)

omit [Add R] [Sub R] [NatCast R] [LinearOrder R] [Zero R] in
theorem refines_new : Refines (LruCache.new : LruCache R) RefRun.new 0 where
  abs := abs_new
  counted := rfl
  evicted := rfl
  ordered := ⟨by simp [RefRun.new, Recency.empty], by simp [RefRun.new, Recency.empty]⟩

omit [NatCast R] [Add R] in
theorem ordered_get {r : RefCache R} {used : List Bytes} (h : OrderedBy used (r.items.map RefEntry.key)) (now : R)
    (key : Bytes) :
    OrderedBy (if (r.get now key).2.1 then key :: used else used) ((r.get now key).1.items.map RefEntry.key) := by
  rw [RefCache.get]
  cases hr : r.find? key with
  | none => simpa using h
  | some e =>
    obtain ⟨-, rfl⟩ := r.find?_eq_some_iff.1 hr
    simp only
    split
    · exact h.sublist (List.filter_sublist.map _)
    · exact orderedBy_put h e

/-- A call keeps the structures and the reference cache together. -/
theorem refines_step {c : LruCache R} {s : RefRun R} {gets : Nat} (h : Refines c s gets) (op : CacheOp R) :
    ∃ c', c.step op = some (c', (s.step op).2) ∧ Refines c' (s.step op).1 (gets + if op.isGet then 1 else 0) := by
  cases op with
  | set now key value ttlMs =>
    obtain ⟨c', hc, ha, hh, hm, he⟩ := set_spec h.abs now key value (clamp ttlMs 0 ((86400000 : Nat) : R))
    refine ⟨c', ?_, ha, ?_, ?_, orderedBy_put h.ordered _⟩
    · rw [LruCache.step, LruCache.cacheSet, hc]
      rfl
    · rw [hh, hm, h.counted]
      rfl
    · rw [he, h.evicted]
      rfl
  | get now key =>
    obtain ⟨c', hc, ha, hh, he⟩ := get_spec h.abs now key
    refine ⟨c', ?_, ha, ?_, he.trans h.evicted, ordered_get h.ordered now key⟩
    · rw [LruCache.step, LruCache.cacheGet, hc]
      rfl
    · rw [hh, h.counted]
      rfl

theorem refines_run (ops : List (CacheOp R)) {c : LruCache R} {s : RefRun R} {gets : Nat} (h : Refines c s gets) :
    ∃ c', c.run ops = some (c', (s.run ops).2) ∧ Refines c' (s.run ops).1 (gets + ops.countP CacheOp.isGet) := by
  induction ops generalizing c s gets with
  | nil => exact ⟨c, rfl, h⟩
  | cons op ops ih =>
    obtain ⟨c₁, hc₁, h₁⟩ := refines_step h op
    obtain ⟨c₂, hc₂, h₂⟩ := ih h₁
    refine ⟨c₂, ?_, ?_⟩
    · rw [LruCache.run, hc₁]
      simp only [Option.bind_eq_bind, Option.bind_some, hc₂]
      rfl
    · rwa [List.countP_cons, Nat.add_comm (ops.countP _), ← Nat.add_assoc]

/-! ## Main theorem -/

/-- The list and both maps hold the same keys, each once, and each iterator is
at the one node that holds its key. -/
structure Coherent (c : LruCache R) : Prop where
  nodup : (c.lru.map LruNode.key).Nodup
  entries_keys : c.entries.keys.Perm (c.lru.map LruNode.key)
  iters_keys : c.iters.keys.Perm (c.lru.map LruNode.key)
  iters_node : ∀ k i, c.iters.find? k = some i → ⟨i, k⟩ ∈ c.lru ∧ ∀ n ∈ c.lru, n.id = i → n = ⟨i, k⟩
  bounded : c.lru.length ≤ c.maxEntries

/-- Inserting a new key into the full cache removes one key, of all keys the
one set or hit least recently, and changes no other entry. -/
def EvictsLeastRecent (c : LruCache R) (used : List Bytes) : Prop :=
  ∀ now key value ttlMs, c.entries.find? key = none → c.entries.size = c.maxEntries →
    ∃ c' victim, c.cacheSet now key value ttlMs = some (c', true) ∧ victim ∈ c.entries.keys ∧
      (∀ k ∈ c.entries.keys, k ≠ victim → age used k < age used victim) ∧
      ∀ k, k ≠ key → c'.entries.find? k = if k = victim then none else c.entries.find? k

omit [Add R] [Sub R] [NatCast R] [LinearOrder R] [Zero R] in
theorem Abs.coherent {c : LruCache R} {r : RefCache R} (h : Abs c r) : Coherent c where
  nodup := h.keys_nodup
  entries_keys := SortedMap.keys_perm h.keys_nodup fun k => by
    rw [h.keys, ← r.isSome_find?, h.find?_eq, Option.isSome_map]
  iters_keys := SortedMap.keys_perm h.keys_nodup fun k => by
    rw [Option.isSome_iff_exists, List.mem_map]
    exact ⟨fun ⟨n, hn, hk⟩ => ⟨n.id, (h.iters _ _).2 (hk ▸ hn)⟩, fun ⟨i, hi⟩ => ⟨_, (h.iters _ _).1 hi, rfl⟩⟩
  iters_node k i hi := by
    have hmem := (h.iters k i).1 hi
    exact ⟨hmem, fun n hn hid => List.inj_on_of_nodup_map h.ids_nodup hn hmem hid⟩
  bounded := by
    have := congrArg List.length h.keys
    rw [List.length_map, List.length_map] at this
    rw [this, h.cap]
    exact r.bounded

omit [Sub R] in
/-- The entry that is evicted is the one least recently used. -/
theorem Refines.evictsLeastRecent {c : LruCache R} {s : RefRun R} {gets : Nat} (h : Refines c s gets) :
    EvictsLeastRecent c s.used := by
  intro now key value ttlMs hnew hfull
  have hr : s.cache.find? key = none := by simpa [h.abs.find?_eq] using hnew
  have hlen : s.cache.items.length = 1024 := by rw [← h.abs.size_eq, hfull, h.abs.cap]
  obtain ⟨es, e, hes⟩ := (List.eq_nil_or_concat' s.cache.items).resolve_left (by rintro h0; simp [h0] at hlen)
  obtain ⟨c', hc, ha, -⟩ := set_spec h.abs now key value (clamp ttlMs 0 ((86400000 : Nat) : R))
  have hkeys : ∀ k, k ∈ c.entries.keys ↔ k ∈ s.cache.items.map RefEntry.key := fun k => by
    rw [SortedMap.mem_keys, h.abs.find?_eq, Option.isSome_map, s.cache.isSome_find?]
  refine ⟨c', e.key, hc, ?_, fun k hk hne => ?_, fun k hk => ?_⟩
  · rw [hkeys, hes]; simp
  · have ho := h.ordered.2
    rw [hkeys, hes] at hk
    rw [hes, List.map_append, List.pairwise_append] at ho
    simp only [List.map_append, List.map_cons, List.map_nil, List.mem_append, List.mem_singleton, hne, or_false] at hk
    exact ho.2.2 k hk e.key (by simp)
  · have hl : s.cache.items.getLast? = some e := by simp [hes]
    rw [ha.find?_eq, h.abs.find?_eq, RefCache.set, find?_put_full hr hlen hl hk]
    by_cases hke : k = e.key <;> simp [hke]

/-- Every run of `cache_set` and `cache_get` refines the reference run: never
undefined behaviour, the same results, consistent structures, exact counters,
and evictions of exactly the least recently used key. -/
theorem lru_refines (ops : List (CacheOp R)) :
    ∃ c, LruCache.new.run ops = some (c, (RefRun.new.run ops).2) ∧
      Abs c (RefRun.new.run ops).1.cache ∧ Coherent c ∧
      EvictsLeastRecent c (RefRun.new.run ops).1.used ∧
      c.hits + c.misses = ops.countP CacheOp.isGet ∧
      c.evictions = (RefRun.new.run ops).1.evictions := by
  obtain ⟨c, hc, h⟩ := refines_run ops refines_new
  refine ⟨c, hc, h.abs, h.abs.coherent, h.evictsLeastRecent, ?_, h.evicted⟩
  rw [h.counted, Nat.zero_add]

/-! ## Callers of the cache -/

omit [NatCast R] [Add R] in
theorem isSome_get {c : LruCache R} (h : ∃ r, Abs c r) (now : R) (key : Bytes) : (c.cacheGet now key).isSome := by
  obtain ⟨r, h⟩ := h
  obtain ⟨c', hc, -⟩ := get_spec h now key
  rw [LruCache.cacheGet, hc]
  rfl

omit [Sub R] in
theorem isSome_set {c : LruCache R} (h : ∃ r, Abs c r) (now : R) (key value : Bytes) (ttlMs : R) :
    (c.cacheSet now key value ttlMs).isSome := by
  obtain ⟨r, h⟩ := h
  obtain ⟨c', hc, -⟩ := set_spec h now key value (clamp ttlMs 0 ((86400000 : Nat) : R))
  rw [LruCache.cacheSet, hc]
  rfl

/-- A cache as its callers find it: no call on it is undefined. -/
structure LiveCache (R : Type) where
  cache : LruCache R
  sound : ∃ r, Abs cache r

namespace LiveCache

def new : LiveCache R := ⟨.new, _, abs_new⟩

omit [NatCast R] [Add R] in
theorem get_spec {c : LruCache R} {r : RefCache R} (h : Abs c r) (now : R) (key : Bytes) :
    ((c.cacheGet now key).get (isSome_get ⟨r, h⟩ now key)).2 = (r.get now key).2 ∧
      Abs ((c.cacheGet now key).get (isSome_get ⟨r, h⟩ now key)).1 (r.get now key).1 := by
  obtain ⟨c', hc, ha, -⟩ := NgxLuaCpp.get_spec h now key
  simp only [LruCache.cacheGet, hc, Option.get_some, true_and]
  exact ha

omit [Sub R] in
theorem set_spec {c : LruCache R} {r : RefCache R} (h : Abs c r) (now : R) (key value : Bytes) (ttlMs : R) :
    Abs ((c.cacheSet now key value ttlMs).get (isSome_set ⟨r, h⟩ now key value ttlMs)).1
      (r.set now key value (clamp ttlMs 0 ((86400000 : Nat) : R))) := by
  obtain ⟨c', hc, ha, -⟩ := NgxLuaCpp.set_spec h now key value (clamp ttlMs 0 ((86400000 : Nat) : R))
  simp only [LruCache.cacheSet, hc, Option.get_some]
  exact ha

def cacheGet (c : LiveCache R) (now : R) (key : Bytes) : LiveCache R × Bool × Bytes × R :=
  let got := (c.cache.cacheGet now key).get (isSome_get c.sound now key)
  (⟨got.1, c.sound.elim fun _ h => ⟨_, (get_spec h now key).2⟩⟩, got.2)

def cacheSet (c : LiveCache R) (now : R) (key value : Bytes) (ttlMs : R) : LiveCache R :=
  ⟨((c.cache.cacheSet now key value ttlMs).get (isSome_set c.sound now key value ttlMs)).1,
    c.sound.elim fun _ h => ⟨_, set_spec h now key value ttlMs⟩⟩

omit [NatCast R] [Add R] in
theorem cacheGet_spec {c : LiveCache R} {r : RefCache R} (h : Abs c.cache r) (now : R) (key : Bytes) :
    (c.cacheGet now key).2 = (r.get now key).2 ∧ Abs (c.cacheGet now key).1.cache (r.get now key).1 :=
  get_spec h now key

omit [Sub R] in
theorem cacheSet_spec {c : LiveCache R} {r : RefCache R} (h : Abs c.cache r) (now : R) (key value : Bytes) (ttlMs : R) :
    Abs (c.cacheSet now key value ttlMs).cache (r.set now key value (clamp ttlMs 0 ((86400000 : Nat) : R))) :=
  set_spec h now key value ttlMs

end LiveCache

omit [NatCast R] [Add R] in
/-- A lookup adds no entry. -/
theorem RefCache.mem_get {r : RefCache R} {now : R} {key : Bytes} {e : RefEntry R}
    (h : e ∈ (r.get now key).1.items) : e ∈ r.items := by
  unfold RefCache.get at h
  cases hr : r.find? key with
  | none => simpa only [hr] using h
  | some e' =>
    simp only [hr] at h
    split at h
    · exact (Recency.mem_others.1 h).1
    · rw [Recency.put_items] at h
      rcases List.mem_cons.1 h with rfl | h
      · exact (r.find?_eq_some_iff.1 hr).1
      · exact (Recency.mem_others.1 (List.mem_of_mem_take h)).1

omit [NatCast R] [Add R] in
/-- A hit returns the value of the entry with its key. -/
theorem RefCache.get_hit (r : RefCache R) (now : R) (key : Bytes) (h : (r.get now key).2.1 = true) :
    ∃ e ∈ r.items, e.key = key ∧ (r.get now key).2.2.1 = e.value := by
  unfold RefCache.get at h ⊢
  cases hr : r.find? key with
  | none => simp [hr] at h
  | some e =>
    obtain ⟨he, hk⟩ := r.find?_eq_some_iff.1 hr
    refine ⟨e, he, hk, ?_⟩
    simp only [hr] at h ⊢
    split at h
    · simp at h
    · rw [if_neg ‹_›]

omit [NatCast R] [Sub R] in
/-- After `set`, every other key's entries were there before. -/
theorem RefCache.mem_set {r : RefCache R} {now : R} {key value : Bytes} {ttlMs : R} {e : RefEntry R}
    (h : e ∈ (r.set now key value ttlMs).items) :
    e.key = key ∧ e.value = value ∨ e.key ≠ key ∧ e ∈ r.items := by
  rw [RefCache.set, Recency.put_items] at h
  rcases List.mem_cons.1 h with rfl | h
  · exact .inl ⟨rfl, rfl⟩
  · obtain ⟨hm, hk⟩ := Recency.mem_others.1 (List.mem_of_mem_take h)
    exact .inr ⟨hk, hm⟩

end NgxLuaCpp
