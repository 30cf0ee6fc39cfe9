import NgxLuaCpp.LruCache
import NgxLuaCpp.Lib.Trace
/-!
# The DNS service

`dns_server.lua` answers a query by hand, from the LRU cache, or from its
upstream. We show when an answer carries the ID of the query it is sent for.

Lua strings are indexed from 1, as in the source; `none` is `nil`.
-/

namespace NgxLuaCpp.Dns
open Trace

variable {R : Type}

/-! ## Wire format -/

/-- `s:byte(i)`. -/
def byte (s : Bytes) (i : Nat) : Option UInt8 := s[i - 1]?

/-- `s:sub(i, j)`. -/
def sub (s : Bytes) (i j : Nat) : Bytes := (s.drop (i - 1)).take (j + 1 - i)

/-- `bit.bor(bit.lshift(s:byte(i) or 0, 8), s:byte(i + 1) or 0)`. -/
def word (s : Bytes) (i : Nat) : Nat :=
  ((byte s i).getD 0).toNat <<< 8 ||| ((byte s (i + 1)).getD 0).toNat

theorem lt_of_byte {s : Bytes} {i : Nat} {b : UInt8} (h : byte s i = some b) : i - 1 < s.length :=
  (List.getElem?_eq_some_iff.1 h).1

/-- The loop of `decode_name`. -/
def decodeLabels (msg : Bytes) (offset : Nat) (labels : List Bytes) : Option (List Bytes × Nat) :=
  match _h : byte msg offset with
  | none => none
  | some len =>
    if len = 0 then some (labels, offset + 1)
    -- a compression pointer, which is not followed
    else if len &&& 0xc0 = 0xc0 then some (labels, offset + 2)
    else decodeLabels msg (offset + 1 + len.toNat) (labels ++ [sub msg (offset + 1) (offset + len.toNat)])
termination_by msg.length + 1 - offset
decreasing_by
  have := lt_of_byte _h
  omega

/-- `decode_name`, with the offset after the name; none where it returns nil. -/
def decodeName (msg : Bytes) (offset : Nat) : Option (Bytes × Nat) := do
  let (labels, offset) ← decodeLabels msg offset []
  if labels = [] then none
  else some ((txt ".").intercalate labels ++ txt ".", offset)

/-- `%d` in a Lua pattern. -/
def isDigit (c : UInt8) : Bool := 48 ≤ c && c ≤ 57

/-- `ip:match("^(%d+)%.(%d+)%.(%d+)%.(%d+)$")` and `tonumber` of the captures. -/
def matchIp (ip : Bytes) : Option (List Nat) :=
  let parts := ip.splitOn 46
  if parts.length = 4 ∧ ∀ p ∈ parts, p ≠ [] ∧ p.all isDigit then
    some (parts.map number)
  else none

/-- `b16`, which keeps a byte. -/
def b16 (v : Nat) : UInt8 := UInt8.ofNat (v &&& 0xff)

/-- `build_a_response`: the header, all of the query after its own header, and one answer. -/
def buildAResponse (query _qname : Bytes) (_qtype _qclass : Nat) (ip : Bytes) : Option Bytes := do
  let id := sub query 1 2
  let question := query.drop 12
  let ttl := 60
  let o ← matchIp ip
  -- `string.char` raises an error above 255; no override has such a number
  let header := id ++ [0x81, 0x80, 0x00, 0x01, 0x00, 0x01, 0x00, 0x00, 0x00, 0x00]
  let answer := [0xc0, 0x0c, 0x00, 0x01, 0x00, 0x01, b16 (ttl >>> 24), b16 (ttl >>> 16), b16 (ttl >>> 8), b16 ttl,
    0x00, 0x04] ++ o.map UInt8.ofNat
  some (header ++ question ++ answer)

/-- The names that are answered without a lookup. -/
def overrides : List (Bytes × Bytes) := [
  (txt "myapp.test.", txt "127.0.0.1"),
  (txt "demo.test.", txt "127.0.0.1"),
  (txt "gateway.test.", txt "127.0.0.1")]

/-- `CACHE_TTL_MS` -/
def cacheTtlMs : Nat := 30000

/-- The key a response is cached under: the name and the type. -/
def cacheKey (qname : Bytes) (qtype : Nat) : Bytes := txt "dns:" ++ qname ++ txt ":" ++ decimal qtype

/-! ## Handling a query -/

/-- What `udp_echo` returns, the elapsed time as Lua prints it. -/
structure UdpResult where
  ok : Bool
  response : Bytes
  elapsed : Bytes
  err : Bytes

/-- What handling a query reads besides the cache: the clock at `cache_get` and
`cache_set`, and the upstream's result, should it be asked. -/
structure Env (R : Type) where
  atGet : R
  atSet : R
  upstream : UdpResult

variable [LinearOrder R] [Zero R] [Add R] [Sub R] [NatCast R]

/-- The body of `loop` for a query: the cache it leaves, the response, and what
it publishes on topic `dns`. -/
def handleQuery (port : Nat) (cache : LiveCache R) (env : Env R) (query : Bytes) :
    LiveCache R × Option Bytes × List Bytes :=
  match decodeName query 13 with
  | none => (cache, none, [])
  | some (qname, qend) =>
    let qtype := word query qend
    let qclass := word query (qend + 2)
    let event (s : Bytes) := decimal port ++ txt "|" ++ qname ++ s
    match overrides.lookup qname with
    | some ip => (cache, buildAResponse query qname qtype qclass ip, [event (txt "|override|" ++ ip)])
    | none =>
      let key := cacheKey qname qtype
      let (cache, found, value, _) := cache.cacheGet env.atGet key
      if found then (cache, some value, [event (txt "|cache")])
      else if env.upstream.ok then
        (cache.cacheSet env.atSet key env.upstream.response ((cacheTtlMs : Nat) : R), some env.upstream.response,
          [event (txt "|forward|" ++ env.upstream.elapsed)])
      else (cache, none, [event (txt "|error|" ++ env.upstream.err)])

/-- The name and type a query asks for. -/
def question (query : Bytes) : Option (Bytes × Nat) :=
  (decodeName query 13).map fun (qname, qend) => (qname, word query qend)

/-- The 16-bit ID in a message's first two bytes. -/
def transactionId (msg : Bytes) : Bytes := sub msg 1 2

/-- The ways a query is handled. -/
inductive Path where
  | ignored | override | cache | forward | error
  deriving DecidableEq

/-- The way a query takes, by the cache it finds. -/
def path (cache : LiveCache R) (env : Env R) (query : Bytes) : Path :=
  match question query with
  | none => .ignored
  | some (qname, qtype) =>
    if (overrides.lookup qname).isSome then .override
    else if (cache.cacheGet env.atGet (cacheKey qname qtype)).2.1 then .cache
    else if env.upstream.ok then .forward
    else .error

/-! ## Cache keys -/

/-- Different questions have different cache keys. -/
theorem cacheKey_injective {q q' : Bytes × Nat} (h : cacheKey q.1 q.2 = cacheKey q'.1 q'.2) : q = q' := by
  have hcolon (n : Nat) : (58 : UInt8) ∉ decimal n := notMem_decimal (by decide)
  have h' : q.1 ++ 58 :: decimal q.2 = q'.1 ++ 58 :: decimal q'.2 := by simpa [cacheKey, txt] using h
  obtain ⟨h₁, h₂⟩ := append_cons_inj (hcolon _) (hcolon _) h'
  exact Prod.ext h₁ (decimal_injective h₂)

/-! ## What handling a query does -/

theorem length_of_decodeName {query : Bytes} {r : Bytes × Nat} (h : decodeName query 13 = some r) :
    12 < query.length := by
  unfold decodeName decodeLabels at h
  split at h
  · simp at h
  · exact lt_of_byte ‹_›

theorem mem_of_lookup {l : List (Bytes × Bytes)} {k v : Bytes} (h : l.lookup k = some v) : (k, v) ∈ l := by
  obtain ⟨l₁, l₂, rfl, -⟩ := List.lookup_eq_some_iff.1 h
  simp

/-- Every override is an address the response can hold. -/
theorem overrides_match : ∀ o ∈ overrides, ∃ l ∈ matchIp o.2, ∀ n ∈ l, n < 256 := by decide

/-- A hand-built response carries the ID of its query. -/
theorem buildAResponse_id {query : Bytes} (h : 12 < query.length) {qname ip : Bytes} {qtype qclass : Nat} {p : Bytes}
    (hp : buildAResponse query qname qtype qclass ip = some p) : transactionId p = transactionId query := by
  obtain ⟨o, -, ho⟩ := Option.bind_eq_some_iff.1 hp
  obtain rfl := Option.some.inj ho
  have hl : (sub query 1 2).length = 2 := by
    simp only [sub, List.length_take, List.length_drop]
    omega
  simp only [List.append_assoc]
  exact List.take_left' hl

/-- What a query does to the cached entries and what is sent for it, by its path. -/
inductive Effect (r : RefCache R) (query : Bytes) (upstream : UdpResult) : Path → RefCache R → Option Bytes → Prop
  | ignored : Effect r query upstream .ignored r none
  | override (p : Bytes) : transactionId p = transactionId query → Effect r query upstream .override r (some p)
  | cache (q : Bytes × Nat) (e : RefEntry R) (r' : RefCache R) : question query = some q → e ∈ r.items →
      e.key = cacheKey q.1 q.2 → (∀ x ∈ r'.items, x ∈ r.items) → Effect r query upstream .cache r' (some e.value)
  | forward (q : Bytes × Nat) (r' : RefCache R) : question query = some q → upstream.ok →
      (∀ x ∈ r'.items, x.key = cacheKey q.1 q.2 ∧ x.value = upstream.response ∨
        x.key ≠ cacheKey q.1 q.2 ∧ x ∈ r.items) →
      Effect r query upstream .forward r' (some upstream.response)
  | error (r' : RefCache R) : (∀ x ∈ r'.items, x ∈ r.items) → Effect r query upstream .error r' none

/-- What a query does to the cache and answers, by the path it takes. -/
theorem handleQuery_effect {c : LiveCache R} {r : RefCache R} (h : Abs c.cache r) (port : Nat) (env : Env R)
    (query : Bytes) :
    ∃ r', Abs (handleQuery port c env query).1.cache r' ∧
      Effect r query env.upstream (path c env query) r' (handleQuery port c env query).2.1 := by
  unfold path question handleQuery
  cases hd : decodeName query 13 with
  | none => exact ⟨r, h, .ignored⟩
  | some d =>
    obtain ⟨qname, qend⟩ := d
    have hq : question query = some (qname, word query qend) := by rw [question, hd]; rfl
    simp only [Option.map_some]
    cases ho : overrides.lookup qname with
    | some ip =>
      obtain ⟨o, hm, -⟩ := overrides_match (qname, ip) (mem_of_lookup ho)
      obtain ⟨p, hp⟩ : ∃ p, buildAResponse query qname (word query qend) (word query (qend + 2)) ip = some p := by
        simp [buildAResponse, Option.mem_def.1 hm]
      simp only [hp, Option.isSome_some, if_true]
      exact ⟨r, h, .override p (buildAResponse_id (length_of_decodeName hd) hp)⟩
    | none =>
      obtain ⟨hres, habs⟩ := LiveCache.cacheGet_spec h env.atGet (cacheKey qname (word query qend))
      generalize c.cacheGet env.atGet (cacheKey qname (word query qend)) = got at hres habs
      obtain ⟨c₁, found, value, remain⟩ := got
      simp only at hres habs ⊢
      by_cases hf : found
      · obtain ⟨e, he, hk, hv⟩ := RefCache.get_hit r env.atGet (cacheKey qname (word query qend))
          (by rw [← hres]; exact hf)
        rw [← hres] at hv
        simp only [hf, Option.isSome_none, Bool.false_eq_true, if_false, if_true]
        refine ⟨_, habs, ?_⟩
        rw [show value = e.value from hv]
        exact .cache _ e _ hq he hk fun x hx => RefCache.mem_get hx
      · by_cases hok : env.upstream.ok
        · simp only [hf, hok, Option.isSome_none, Bool.false_eq_true, if_false, if_true]
          refine ⟨_, LiveCache.cacheSet_spec habs env.atSet _ _ _, ?_⟩
          refine .forward _ _ hq hok fun x hx => ?_
          rcases RefCache.mem_set hx with hx | ⟨hk, hx⟩
          · exact .inl hx
          · exact .inr ⟨hk, RefCache.mem_get hx⟩
        · simp only [hf, hok, Option.isSome_none, Bool.false_eq_true, if_false]
          exact ⟨_, habs, .error _ fun x hx => RefCache.mem_get hx⟩

/-! ## Serving queries -/

/-- A query datagram with what handling it reads. The upstream answers with the
ID it was asked with. -/
structure Exchange (R : Type) where
  query : Bytes
  env : Env R
  echoes : env.upstream.ok → transactionId env.upstream.response = transactionId query

/-- A handled query. -/
structure Served where
  query : Bytes
  via : Path
  response : Option Bytes

/-- The cache of the server, and the queries it has served. -/
structure Service (R : Type) where
  cache : LiveCache R
  log : List Served

/-- One query comes in and is served. -/
def Service.step (port : Nat) (s : Service R) (x : Exchange R) : Service R :=
  let (cache, response, _) := handleQuery port s.cache x.env x.query
  ⟨cache, s.log ++ [⟨x.query, path s.cache x.env x.query, response⟩]⟩

/-- The service once it has handled the queries of a run, starting with an empty cache. -/
def serve (port : Nat) (run : List (Exchange R)) : Service R := run.foldl (Service.step port) ⟨.new, []⟩

/-- The ID of the latest query forwarded for a question. -/
def lastForwarded (log : List Served) (q : Bytes × Nat) : Option Bytes :=
  (log.filter fun x => decide (x.via = .forward ∧ question x.query = some q)).getLast?.map
    fun x => transactionId x.query

/-- Every response carries the ID of the query it is sent for. -/
def OwnIds (log : List Served) : Prop :=
  ∀ x ∈ log, ∀ p, x.response = some p → transactionId p = transactionId x.query

/-- Each query answered from the cache has the ID of the latest query that was
forwarded for the same name and type. -/
def HitsRepeatIds (log : List Served) : Prop :=
  Each (fun pre x => x.via = .cache → ∀ q, question x.query = some q →
    lastForwarded pre q = some (transactionId x.query)) log

theorem lastForwarded_concat (log : List Served) (x : Served) (q : Bytes × Nat) :
    lastForwarded (log ++ [x]) q
      = if x.via = .forward ∧ question x.query = some q then some (transactionId x.query) else lastForwarded log q := by
  simp only [lastForwarded, List.filter_append, List.filter_cons, List.filter_nil, decide_eq_true_eq]
  split <;> simp

/-- Each cached response carries the ID of the latest query forwarded for its key. -/
def CacheIds (r : RefCache R) (log : List Served) : Prop :=
  ∀ e ∈ r.items, ∀ q : Bytes × Nat, e.key = cacheKey q.1 q.2 → lastForwarded log q = some (transactionId e.value)

omit [LinearOrder R] [Zero R] [Add R] [Sub R] [NatCast R] in
theorem CacheIds.of_subset {r r' : RefCache R} {log : List Served} (h : CacheIds r log)
    (hr : ∀ e ∈ r'.items, e ∈ r.items) {x : Served} (hx : x.via ≠ .forward) : CacheIds r' (log ++ [x]) := by
  intro e he q hk
  rw [lastForwarded_concat, if_neg (fun hf => hx hf.1)]
  exact h e (hr e he) q hk

/-- The IDs in the cache are those last forwarded, and every answer has its own ID exactly if no
hit repeats another. -/
structure Inv (s : Service R) : Prop where
  cached : ∃ r, Abs s.cache.cache r ∧ CacheIds r s.log
  exact : OwnIds s.log ↔ HitsRepeatIds s.log

theorem ownIds_concat {log : List Served} {x : Served} :
    OwnIds (log ++ [x]) ↔ OwnIds log ∧ ∀ p, x.response = some p → transactionId p = transactionId x.query := by
  simp [OwnIds, or_imp, forall_and]

/-- A step whose response carries the query's ID, unless it came from the cache. -/
theorem exact_concat {log : List Served} (h : OwnIds log ↔ HitsRepeatIds log) {x : Served}
    (hx : (∀ p, x.response = some p → transactionId p = transactionId x.query) ↔
      (x.via = .cache → ∀ q, question x.query = some q → lastForwarded log q = some (transactionId x.query))) :
    OwnIds (log ++ [x]) ↔ HitsRepeatIds (log ++ [x]) := by
  rw [ownIds_concat, HitsRepeatIds, each_concat, h, hx, HitsRepeatIds]

/-- A query served keeps the invariant. -/
theorem inv_step (port : Nat) {s : Service R} (h : Inv s) (x : Exchange R) : Inv (s.step port x) := by
  obtain ⟨⟨r, habs, hids⟩, hex⟩ := h
  obtain ⟨r', habs', he⟩ := handleQuery_effect habs port x.env x.query
  have hres := x.echoes
  unfold Service.step
  generalize handleQuery port s.cache x.env x.query = out at habs' he ⊢
  generalize path s.cache x.env x.query = via at he ⊢
  obtain ⟨cache', response, published⟩ := out
  simp only at habs' he ⊢
  cases he with
  | ignored =>
    exact ⟨⟨r, habs', hids.of_subset (fun _ => id) (by simp)⟩, exact_concat hex (by simp)⟩
  | override p hp =>
    exact ⟨⟨r, habs', hids.of_subset (fun _ => id) (by simp)⟩, exact_concat hex (by simp [hp])⟩
  | cache q e _ hq hm hk hsub =>
    refine ⟨⟨r', habs', hids.of_subset hsub (by simp)⟩, exact_concat hex ?_⟩
    simp [hq, hids e hm q hk]
  | forward q _ hq hok hsub =>
    -- the new entry holds this query's ID, the others what they held
    refine ⟨⟨r', habs', fun e he q' hk => ?_⟩, exact_concat hex (by simp [hres hok])⟩
    rw [lastForwarded_concat]
    rcases hsub e he with ⟨hk', hv⟩ | ⟨hk', hm⟩
    · have hqq : q = q' := cacheKey_injective (hk'.symm.trans hk)
      rw [if_pos ⟨rfl, hqq ▸ hq⟩, hv, hres hok]
    · rw [if_neg (by rintro ⟨-, hf⟩; simp only [hq, Option.some.injEq] at hf; exact hk' (hf ▸ hk))]
      exact hids e hm q' hk
  | error _ hsub =>
    exact ⟨⟨r', habs', hids.of_subset hsub (by simp)⟩, exact_concat hex (by simp)⟩

omit [LinearOrder R] [Zero R] [Add R] [Sub R] [NatCast R] in
theorem inv_new : Inv (⟨.new, []⟩ : Service R) where
  cached := ⟨.empty, abs_new, by simp [CacheIds, Recency.empty]⟩
  exact := iff_of_true (by simp [OwnIds]) (each_nil _)

/-- In a run every response carries its own query's ID exactly when every query
answered from the cache repeats the ID of the query that filled the entry. -/
theorem ownIds_iff (port : Nat) (run : List (Exchange R)) :
    OwnIds (serve port run).log ↔ HitsRepeatIds (serve port run).log :=
  (Trace.invariant (fun _ s => Inv s) inv_new (fun _ _ x h => inv_step port h x) run).exact

/-- A message for `a.`, type A. -/
def messageFor (lo : UInt8) : Bytes :=
  [0x00, lo, 0x01, 0x00, 0x00, 0x01, 0x00, 0x00, 0x00, 0x00, 0x00, 0x00, 0x01, 0x61, 0x00, 0x00, 0x01, 0x00, 0x01]

/-- A query at time `now`, which the upstream answers. -/
def ask (lo : UInt8) (now : Int) : Exchange Int where
  query := messageFor lo
  env := { atGet := now, atSet := now, upstream := ⟨true, messageFor lo, txt "1", []⟩ }
  echoes _ := rfl

/-- Two clients ask the same within 30 seconds; the second gets the first's ID. -/
theorem second_query_gets_first_id : ¬ OwnIds (serve 53 [ask 1 1000, ask 2 2000]).log := by
  intro h
  have e : (serve 53 [ask 1 1000, ask 2 2000]).log.map (fun x => (x.query, x.response))
      = [(messageFor 1, some (messageFor 1)), (messageFor 2, some (messageFor 1))] := by decide +kernel
  obtain ⟨x, hx, hq⟩ : ∃ x ∈ (serve 53 [ask 1 1000, ask 2 2000]).log,
      (x.query, x.response) = (messageFor 2, some (messageFor 1)) := List.mem_map.1 (by rw [e]; simp)
  obtain ⟨hq, hr⟩ := Prod.mk.inj hq
  have := h x hx _ hr
  rw [hq] at this
  revert this
  decide

end NgxLuaCpp.Dns
