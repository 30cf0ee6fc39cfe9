import NgxLuaCpp.DnsNames
/-!
# Questions and cache keys

A cache key spells the name and the type of a question. We show which pairs of
questions it tells apart, and when the cache answers the question it was asked.
-/

namespace NgxLuaCpp.Dns
open DnsWire Trace

/-! ## Questions -/

/-- What a query asks, as its bytes say it: the labels of the name, and the two
numbers after it, missing bytes read as zero. -/
structure FullQuestion where
  labels : List Bytes
  qtype : Nat
  qclass : Nat
  deriving DecidableEq

/-- The question of a query the loop accepts. -/
def fullQuestion (query : Bytes) : Option FullQuestion := do
  let (ls, offset) ← decodeLabels query 13 []
  if ls = [] then none
  else some ⟨ls, word query offset, word query (offset + 2)⟩

def FullQuestion.qname (f : FullQuestion) : Bytes := (txt ".").intercalate f.labels ++ txt "."

def FullQuestion.key (f : FullQuestion) : Bytes := cacheKey f.qname f.qtype

/-- The same lengths of labels and the same class. -/
def SameShape (f g : FullQuestion) : Prop :=
  f.labels.map List.length = g.labels.map List.length ∧ f.qclass = g.qclass

theorem question_eq (query : Bytes) : question query = (fullQuestion query).map fun f => (f.qname, f.qtype) := by
  rw [question, decodeName, fullQuestion]
  cases decodeLabels query 13 [] with
  | none => rfl
  | some r =>
    obtain ⟨ls, offset⟩ := r
    simp only [Option.bind_eq_bind, Option.bind_some]
    split <;> rfl

theorem labels_ne_nil {query : Bytes} {f : FullQuestion} (h : fullQuestion query = some f) : f.labels ≠ [] := by
  obtain ⟨⟨ls, offset⟩, -, hf⟩ := Option.bind_eq_some_iff.1 h
  simp only at hf
  split at hf
  · simp at hf
  · obtain rfl := Option.some.inj hf
    assumption

/-! ## Pairs of questions -/

/-- Where the dots fall, the lengths say which of them end labels. -/
theorem labels_eq_of_dotted {ls ls' : List Bytes} (hlen : ls.map List.length = ls'.map List.length)
    (h : ls.flatMap (· ++ [46]) = ls'.flatMap (· ++ [(46 : UInt8)])) : ls = ls' := by
  induction ls generalizing ls' with
  | nil => simpa using hlen.symm
  | cons l ls ih =>
    cases ls' with
    | nil => simp at hlen
    | cons l' ls' =>
      rw [List.map_cons, List.map_cons] at hlen
      obtain ⟨hl, hlen⟩ := List.cons.inj hlen
      rw [List.flatMap_cons, List.flatMap_cons] at h
      obtain ⟨hd, ht⟩ := List.append_inj h (by simp [hl])
      rw [List.append_cancel_right hd, ih hlen ht]

theorem eq_iff_sameShape {f g : FullQuestion} (hf : f.labels ≠ []) (hg : g.labels ≠ []) (hname : f.qname = g.qname)
    (htype : f.qtype = g.qtype) : f = g ↔ SameShape f g := by
  constructor
  · rintro rfl
    exact ⟨rfl, rfl⟩
  · rintro ⟨hlen, hclass⟩
    rw [FullQuestion.qname, FullQuestion.qname, intercalate_dot hf, intercalate_dot hg] at hname
    have hlabels := labels_eq_of_dotted hlen hname
    cases f
    cases g
    simp_all

theorem key_eq_iff (f g : FullQuestion) : f.key = g.key ↔ f.qname = g.qname ∧ f.qtype = g.qtype := by
  unfold FullQuestion.key
  constructor
  · intro h
    have e : (f.qname, f.qtype) = (g.qname, g.qtype) := cacheKey_injective h
    exact Prod.mk.inj e
  · rintro ⟨hname, htype⟩
    rw [hname, htype]

/-- Two questions of one key are one question exactly when they have one shape. -/
theorem key_separates_iff {f g : FullQuestion} (hf : f.labels ≠ []) (hg : g.labels ≠ []) :
    (f.key = g.key → f = g) ↔ f.qname ≠ g.qname ∨ f.qtype ≠ g.qtype ∨ SameShape f g := by
  rw [key_eq_iff]
  by_cases hname : f.qname = g.qname
  · by_cases htype : f.qtype = g.qtype
    · simp [hname, htype, eq_iff_sameShape hf hg hname htype]
    · simp [htype]
  · simp [hname]

/-! ## Answers from the cache -/

/-- The latest query forwarded for a name and type. -/
def lastAsked (log : List Served) (q : Bytes × Nat) : Option Served :=
  (log.filter fun x => decide (x.via = .forward ∧ question x.query = some q)).getLast?

/-- Each query answered from the cache gets the response to a query forwarded
before, which asked the same question. -/
def OwnQuestions (log : List Served) : Prop :=
  Each (fun pre x => x.via = .cache → ∀ q, question x.query = some q →
    ∃ y, lastAsked pre q = some y ∧ y.response = x.response ∧ fullQuestion y.query = fullQuestion x.query) log

/-- Each query answered from the cache has the shape of the latest query that
was forwarded for the same name and type. -/
def HitsRepeatShapes (log : List Served) : Prop :=
  Each (fun pre x => x.via = .cache → ∀ q, question x.query = some q → ∀ y, lastAsked pre q = some y →
    ∀ f ∈ fullQuestion x.query, ∀ g ∈ fullQuestion y.query, SameShape g f) log

theorem lastAsked_concat (log : List Served) (x : Served) (q : Bytes × Nat) :
    lastAsked (log ++ [x]) q
      = if x.via = .forward ∧ question x.query = some q then some x else lastAsked log q := by
  simp only [lastAsked, List.filter_append, List.filter_cons, List.filter_nil, decide_eq_true_eq]
  split <;> simp

theorem question_of_lastAsked {log : List Served} {q : Bytes × Nat} {y : Served} (h : lastAsked log q = some y) :
    question y.query = some q := by
  have hm := List.mem_of_getLast? h
  exact (of_decide_eq_true (List.mem_filter.1 hm).2).2

variable {R : Type} [LinearOrder R] [Zero R] [Add R] [Sub R] [NatCast R]

/-- Each entry holds the response to the latest query forwarded for its key. -/
def CacheAsked (r : RefCache R) (log : List Served) : Prop :=
  ∀ e ∈ r.items, ∀ q : Bytes × Nat, e.key = cacheKey q.1 q.2 →
    ∃ y, lastAsked log q = some y ∧ y.response = some e.value

omit [LinearOrder R] [Zero R] [Add R] [Sub R] [NatCast R] in
theorem CacheAsked.of_subset {r r' : RefCache R} {log : List Served} (h : CacheAsked r log)
    (hr : ∀ e ∈ r'.items, e ∈ r.items) {x : Served} (hx : x.via ≠ .forward) : CacheAsked r' (log ++ [x]) := by
  intro e he q hk
  rw [lastAsked_concat, if_neg (fun hf => hx hf.1)]
  exact h e (hr e he) q hk

/-- Every answer from the cache is the response to the latest query forwarded
for its name and type. -/
def HitsAsked (log : List Served) : Prop :=
  Each (fun pre x => x.via = .cache → ∀ q, question x.query = some q →
    ∃ y, lastAsked pre q = some y ∧ y.response = x.response) log

/-- What the cache holds was received for the latest query asked under its key, and every hit
repeats such a response. -/
structure AskedInv (s : Service R) : Prop where
  cached : ∃ r, Abs s.cache.cache r ∧ CacheAsked r s.log
  hits : HitsAsked s.log

/-- A query served keeps what the cache has to do with the queries before it. -/
theorem askedInv_step (port : Nat) {s : Service R} (h : AskedInv s) (x : Exchange R) : AskedInv (s.step port x) := by
  obtain ⟨⟨r, habs, hasked⟩, hhits⟩ := h
  obtain ⟨r', habs', he⟩ := handleQuery_effect habs port x.env x.query
  unfold Service.step
  generalize handleQuery port s.cache x.env x.query = out at habs' he ⊢
  generalize path s.cache x.env x.query = via at he ⊢
  obtain ⟨cache', response, published⟩ := out
  simp only at habs' he ⊢
  cases he with
  | ignored =>
    exact ⟨⟨r, habs', hasked.of_subset (fun _ => id) (by simp)⟩, each_concat.2 ⟨hhits, by simp⟩⟩
  | override p hp =>
    exact ⟨⟨r, habs', hasked.of_subset (fun _ => id) (by simp)⟩, each_concat.2 ⟨hhits, by simp⟩⟩
  | cache q e _ hq hm hk hsub =>
    refine ⟨⟨r', habs', hasked.of_subset hsub (by simp)⟩, each_concat.2 ⟨hhits, ?_⟩⟩
    intro _ q' hq'
    obtain rfl : q = q' := Option.some.inj (hq.symm.trans hq')
    exact hasked e hm q hk
  | forward q _ hq hok hsub =>
    -- the new entry holds this query's response, the others what they held
    refine ⟨⟨r', habs', ?_⟩, each_concat.2 ⟨hhits, by simp⟩⟩
    intro e he q' hk
    rw [lastAsked_concat]
    rcases hsub e he with ⟨hk', hv⟩ | ⟨hk', hm⟩
    · have hqq : q = q' := cacheKey_injective (hk'.symm.trans hk)
      rw [if_pos ⟨rfl, hqq ▸ hq⟩]
      exact ⟨_, rfl, by rw [hv]⟩
    · rw [if_neg]
      · exact hasked e hm q' hk
      · rintro ⟨-, hf⟩
        simp only [hq, Option.some.injEq] at hf
        exact hk' (hf ▸ hk)
  | error _ hsub =>
    exact ⟨⟨r', habs', hasked.of_subset hsub (by simp)⟩, each_concat.2 ⟨hhits, by simp⟩⟩

omit [LinearOrder R] [Zero R] [Add R] [Sub R] [NatCast R] in
theorem askedInv_new : AskedInv (⟨.new, []⟩ : Service R) where
  cached := ⟨.empty, abs_new, by simp [CacheAsked, Recency.empty]⟩
  hits := each_nil _

/-- A hit and the query that filled its entry ask for the same name and type. -/
theorem asked_same_iff {x y : Bytes} {q : Bytes × Nat} (hx : question x = some q) (hy : question y = some q) :
    fullQuestion y = fullQuestion x ↔ ∀ f ∈ fullQuestion x, ∀ g ∈ fullQuestion y, SameShape g f := by
  rw [question_eq] at hx hy
  obtain ⟨f, hf, rfl⟩ := Option.map_eq_some_iff.1 hx
  obtain ⟨g, hg, hq⟩ := Option.map_eq_some_iff.1 hy
  obtain ⟨hname, htype⟩ := Prod.mk.inj hq
  rw [hf, hg, Option.some.injEq, eq_iff_sameShape (labels_ne_nil hg) (labels_ne_nil hf) hname htype]
  simp

/-- Keys tell apart questions of different names or types, and only those. The
cache answers what it was asked exactly when the queries of each key that meet
in it have one shape. -/
theorem cached_questions_iff (port : Nat) :
    (∀ query₁ query₂ : Bytes, ∀ f₁ f₂ : FullQuestion, fullQuestion query₁ = some f₁ → fullQuestion query₂ = some f₂ →
      ((f₁.key = f₂.key → f₁ = f₂) ↔ f₁.qname ≠ f₂.qname ∨ f₁.qtype ≠ f₂.qtype ∨ SameShape f₁ f₂)) ∧
    ∀ run : List (Exchange R), OwnQuestions (serve port run).log ↔ HitsRepeatShapes (serve port run).log := by
  constructor
  · intro query₁ query₂ f₁ f₂ h₁ h₂
    exact key_separates_iff (labels_ne_nil h₁) (labels_ne_nil h₂)
  · intro run
    have hhits := (Trace.invariant (fun _ s => AskedInv s) askedInv_new (fun _ _ x h => askedInv_step port h x) run).hits
    constructor
    · intro h pre x post e hx q hq y hy
      obtain ⟨y', hy', -, hsame⟩ := h pre x post e hx q hq
      obtain rfl : y' = y := Option.some.inj (hy'.symm.trans hy)
      exact (asked_same_iff hq (question_of_lastAsked hy)).1 hsame
    · intro h pre x post e hx q hq
      obtain ⟨y, hy, hresponse⟩ := hhits pre x post e hx q hq
      refine ⟨y, hy, hresponse, ?_⟩
      exact (asked_same_iff hq (question_of_lastAsked hy)).2 (h pre x post e hx q hq y hy)

/-- A query for `a.`, type A, of some class, and one that ends the name with a
pointer. -/
def classQuery (qclass : UInt8) : Bytes :=
  [0x00, 0x01, 0x01, 0x00, 0x00, 0x01, 0x00, 0x00, 0x00, 0x00, 0x00, 0x00, 0x01, 0x61, 0x00, 0x00, 0x01, 0x00, qclass]

def pointerQuery (qclass : UInt8) : Bytes :=
  [0x00, 0x02, 0x01, 0x00, 0x00, 0x01, 0x00, 0x00, 0x00, 0x00, 0x00, 0x00, 0x01, 0x61, 0xc0, 0x04, 0x00, 0x01, 0x00,
    qclass]

def classQuestion (qclass : Nat) : FullQuestion := ⟨[txt "a"], 1, qclass⟩

/-- The two ends of a name are one question, the two classes are not. -/
theorem internet_key_separates :
    (((classQuestion 1).key = (classQuestion 1).key → classQuestion 1 = classQuestion 1) ↔
      (classQuestion 1).qname ≠ (classQuestion 1).qname ∨ (classQuestion 1).qtype ≠ (classQuestion 1).qtype ∨
        SameShape (classQuestion 1) (classQuestion 1)) ∧
    (((classQuestion 1).key = (classQuestion 3).key → classQuestion 1 = classQuestion 3) ↔
      (classQuestion 1).qname ≠ (classQuestion 3).qname ∨ (classQuestion 1).qtype ≠ (classQuestion 3).qtype ∨
        SameShape (classQuestion 1) (classQuestion 3)) :=
  ⟨(cached_questions_iff (R := Int) 53).1 (classQuery 1) (pointerQuery 1) _ _ (by decide +kernel) (by decide +kernel),
    (cached_questions_iff (R := Int) 53).1 (classQuery 1) (classQuery 3) _ _ (by decide +kernel) (by decide +kernel)⟩

/-- The same name and type asked of two classes share a key. -/
theorem classes_share_key : ¬ ∀ query₁ query₂ : Bytes, ∀ f₁ f₂ : FullQuestion, fullQuestion query₁ = some f₁ →
    fullQuestion query₂ = some f₂ → f₁.key = f₂.key → f₁ = f₂ := by
  intro h
  have e := h (classQuery 1) (classQuery 3) (classQuestion 1) (classQuestion 3) (by decide +kernel) (by decide +kernel) rfl
  exact absurd (congrArg FullQuestion.qclass e) (by decide)

end NgxLuaCpp.Dns
