import Mathlib.Data.List.Basic
import Mathlib.Data.List.TakeWhile
/-!
# Lua patterns

Patterns of single characters and greedy captures, matched at the head of a
string by backtracking.
-/

namespace LuaPattern
variable {α : Type*}

/-- A class matched by one character, or captured with `+`. -/
inductive Item (α : Type*) where
  | one (p : α → Bool)
  | many (p : α → Bool)

/-- `max_expand`: the longest run of a class that lets the rest match. -/
def maxExpand (p : α → Bool) (rest : List α → Option (List (List α) × List α)) (s : List α) :
    Option (List (List α) × List α) :=
  (List.range (s.takeWhile p).length).reverse.findSome? fun i =>
    (rest (s.drop (i + 1))).map fun r => (s.take (i + 1) :: r.1, r.2)

/-- The captures, and what is left after the match. `toEnd` is a final `$`. -/
def matchHere (toEnd : Bool) : List (Item α) → List α → Option (List (List α) × List α)
  | [], s => if toEnd && !s.isEmpty then none else some ([], s)
  | .one _ :: _, [] => none
  | .one p :: items, c :: s => if p c then matchHere toEnd items s else none
  | .many p :: items, s => maxExpand p (matchHere toEnd items) s

/-- The captures of every match `string.gmatch` finds. It goes on where a match
ended, or one further after an empty one. -/
def gmatch (items : List (Item α)) (s : List α) : List (List (List α)) :=
  match matchHere false items s, s with
  | none, [] => []
  | none, _ :: s => gmatch items s
  | some (caps, _), [] => [caps]
  | some (caps, rest), _ :: s => caps :: if rest.length ≤ s.length then gmatch items rest else gmatch items s
termination_by s.length

/-- The ways to match. -/
inductive Matches (toEnd : Bool) : List (Item α) → List α → List (List α) → List α → Prop where
  | nil {s : List α} : (toEnd = true → s = []) → Matches toEnd [] s [] s
  | one {p : α → Bool} {c : α} {items : List (Item α)} {s : List α} {caps : List (List α)} {rest : List α} :
      p c = true → Matches toEnd items s caps rest → Matches toEnd (.one p :: items) (c :: s) caps rest
  | many {p : α → Bool} {run : List α} {items : List (Item α)} {s : List α} {caps : List (List α)} {rest : List α} :
      run ≠ [] → (∀ c ∈ run, p c = true) → Matches toEnd items s caps rest →
      Matches toEnd (.many p :: items) (run ++ s) (run :: caps) rest

theorem le_length_takeWhile {p : α → Bool} {run : List α} (h : ∀ c ∈ run, p c = true) (s : List α) :
    run.length ≤ ((run ++ s).takeWhile p).length := by
  rw [List.takeWhile_append_of_pos h, List.length_append]
  exact Nat.le_add_right _ _

theorem take_takeWhile {p : α → Bool} {n : Nat} {s : List α} (h : n ≤ (s.takeWhile p).length) :
    ∀ c ∈ s.take n, p c = true := by
  intro c hc
  have he : s.take n = (s.takeWhile p).take n := by
    conv_lhs => rw [← List.takeWhile_append_dropWhile (p := p) (l := s)]
    rw [List.take_append_of_le_length h]
  rw [he] at hc
  exact List.mem_takeWhile_imp (List.mem_of_mem_take hc)

/-- A match that is found is one of the ways to match. -/
theorem matchHere_sound {toEnd : Bool} {items : List (Item α)} {s : List α} {caps : List (List α)} {rest : List α}
    (h : matchHere toEnd items s = some (caps, rest)) : Matches toEnd items s caps rest := by
  induction items generalizing s caps with
  | nil =>
    rw [matchHere] at h
    split at h
    · simp at h
    · rename_i hend
      obtain ⟨rfl, rfl⟩ : [] = caps ∧ s = rest := by simpa using h
      exact .nil fun e => by simpa [e] using hend
  | cons item items ih =>
    cases item with
    | one p =>
      cases s with
      | nil => simp [matchHere] at h
      | cons c s =>
        rw [matchHere] at h
        split at h
        · exact .one ‹_› (ih h)
        · simp at h
    | many p =>
      rw [matchHere, maxExpand] at h
      obtain ⟨i, hi, hr⟩ := List.exists_of_findSome?_eq_some h
      obtain ⟨r, hm, he⟩ := Option.map_eq_some_iff.1 hr
      obtain ⟨rfl, rfl⟩ : s.take (i + 1) :: r.1 = caps ∧ r.2 = rest := by simpa using he
      have hlt : i < (s.takeWhile p).length := by simpa using hi
      have hne : s.take (i + 1) ≠ [] := by
        have hle := (List.takeWhile_prefix (l := s) p).length_le
        rw [← List.length_pos_iff, List.length_take]
        omega
      have := Matches.many hne (take_takeWhile hlt) (ih hm)
      rwa [List.take_append_drop] at this

/-- If there is a way to match, one is found. -/
theorem matchHere_complete {toEnd : Bool} {items : List (Item α)} {s : List α} {caps : List (List α)}
    {rest : List α} (h : Matches toEnd items s caps rest) : (matchHere toEnd items s).isSome := by
  induction h with
  | nil hend =>
    rw [matchHere, if_neg]
    · rfl
    · cases toEnd <;> simp_all
  | one hp _ ih =>
    rw [matchHere, if_pos hp]
    exact ih
  | @many p run items s caps rest hne hp _ ih =>
    have hpos := List.length_pos_iff.2 hne
    rw [matchHere, maxExpand, List.findSome?_isSome_iff]
    refine ⟨run.length - 1, ?_, ?_⟩
    · rw [List.mem_reverse, List.mem_range]
      exact Nat.lt_of_lt_of_le (by omega) (le_length_takeWhile hp s)
    · rw [Nat.sub_add_cancel hpos, List.drop_left, Option.isSome_map]
      exact ih

/-- Where there is one way to match, it is the one found. -/
theorem matchHere_eq {toEnd : Bool} {items : List (Item α)} {s : List α} {caps : List (List α)} {rest : List α}
    (h : Matches toEnd items s caps rest)
    (hone : ∀ caps' rest', Matches toEnd items s caps' rest' → caps' = caps ∧ rest' = rest) :
    matchHere toEnd items s = some (caps, rest) := by
  obtain ⟨⟨caps', rest'⟩, e⟩ := Option.isSome_iff_exists.1 (matchHere_complete h)
  obtain ⟨rfl, rfl⟩ := hone _ _ (matchHere_sound e)
  exact e

/-- A run of `p` up to a character that is not of `p` matches in one way. -/
theorem matchHere_delimited {p d : α → Bool} (hd : ∀ c, d c = true → p c = false) {run : List α}
    (hne : run ≠ []) (hp : ∀ c ∈ run, p c = true) {c : α} (hc : d c = true) (s : List α) :
    matchHere false [.many p, .one d] (run ++ c :: s) = some ([run], s) := by
  apply matchHere_eq
  · exact .many hne hp (.one hc (.nil (by simp)))
  · intro caps rest m
    generalize ht : run ++ c :: s = t at m
    cases m with | @many _ run' _ _ _ _ _ hp' m =>
    cases m with | @one _ c' _ s' _ _ hc' m =>
    cases m with | nil _ =>
    -- both runs are the longest one
    have h := congrArg (List.takeWhile p) ht
    rw [List.takeWhile_append_of_pos hp, List.takeWhile_append_of_pos hp', List.takeWhile_cons_of_neg (by simp [hd c hc]),
      List.takeWhile_cons_of_neg (by simp [hd c' hc']), List.append_nil, List.append_nil] at h
    obtain rfl := h
    obtain ⟨-, rfl⟩ := List.cons.inj (List.append_cancel_left ht)
    exact ⟨rfl, rfl⟩

/-- `gmatch` finds the pieces that a delimiter ends. -/
theorem gmatch_delimited {p d : α → Bool} (hd : ∀ c, d c = true → p c = false) {c : α} (hc : d c = true)
    {pieces : List (List α)} (hne : ∀ l ∈ pieces, l ≠ []) (hp : ∀ l ∈ pieces, ∀ x ∈ l, p x = true) :
    gmatch [.many p, .one d] (pieces.flatMap (· ++ [c])) = pieces.map fun l => [l] := by
  induction pieces with
  | nil => simp [gmatch, matchHere, maxExpand]
  | cons l pieces ih =>
    have hm := matchHere_delimited hd (hne l (by simp)) (hp l (by simp)) hc (pieces.flatMap (· ++ [c]))
    obtain ⟨a, l', rfl⟩ := List.exists_cons_of_ne_nil (hne l (by simp))
    have hs : ((a :: l') :: pieces).flatMap (· ++ [c]) = (a :: l') ++ c :: pieces.flatMap (· ++ [c]) := by simp
    rw [hs, gmatch.eq_def, hm]
    simp only [List.cons_append]
    rw [if_pos (by rw [List.length_append, List.length_cons]; omega), ih, List.map_cons]
    · intro l hl
      exact hne l (by simp [hl])
    · intro l hl
      exact hp l (by simp [hl])

end LuaPattern
