import Mathlib.Logic.Function.Basic
import Mathlib.Data.List.Basic
/-!
# The Lua stack

The part of Lua's C interface that moves values between a thread's stack, the
tables on it and the registry. `P` are the pointers that light userdata hold,
`α` the values the C code never looks into.
-/

namespace LuaApi
variable {P α : Type}

/-- A table maps positive integers to values; an absent value is `nil`. -/
inductive Value (P α : Type) where
  | nil
  | integer (n : Nat)
  | data (a : α)
  | pointer (p : P)
  | thread (p : P)
  | table (get : Nat → Value P α)

/-- A thread's stack, its top first, and the registry at light userdata. -/
structure State (P α : Type) where
  stack : List (Value P α)
  registry : P → Value P α

/-- `lua_error`, or a call outside its documented use. -/
inductive Error where
  | raised (message : String)
  | misuse

/-- A C function on a Lua thread. -/
abbrev Api (P α β : Type) := StateT (State P α) (Except Error) β

/-! ## Operations -/

def push (v : Value P α) : Api P α Unit := fun s => .ok ((), { s with stack := v :: s.stack })

def getTop : Api P α Nat := fun s => .ok (s.stack.length, s)

def pop (n : Nat) : Api P α Unit := fun s =>
  if n ≤ s.stack.length then .ok ((), { s with stack := s.stack.drop n }) else .error .misuse

/-- `lua_settop(L, 0)`. -/
def clear : Api P α Unit := fun s => .ok ((), { s with stack := [] })

/-- The value at a positive index. -/
def State.at? (s : State P α) (i : Nat) : Option (Value P α) := if i = 0 then none else s.stack.reverse[i - 1]?

def isNone (i : Nat) : Api P α Bool := fun s => .ok ((s.at? i).isNone, s)

/-- `lua_isnil(L, -1)`. -/
def isNilTop : Api P α Bool := fun s =>
  .ok (match s.stack with
    | .nil :: _ => true
    | _ => false, s)

/-- `lua_touserdata(L, -1)`, null but for light userdata. -/
def toPointerTop : Api P α (Option P) := fun s =>
  .ok (match s.stack with
    | .pointer p :: _ => some p
    | _ => none, s)

/-- `lua_tointeger(L, -1)`, 0 but for integers. -/
def toIntegerTop : Api P α Nat := fun s =>
  .ok (match s.stack with
    | .integer n :: _ => n
    | _ => 0, s)

/-- `lua_pushvalue` at a positive index. -/
def pushValue (i : Nat) : Api P α Unit := fun s =>
  match s.at? i with
  | some v => .ok ((), { s with stack := v :: s.stack })
  | none => .error .misuse

/-- `lua_createtable`. -/
def createTable : Api P α Unit := push (.table fun _ => .nil)

/-- `lua_rawseti(L, -2, n)`. -/
def rawSetI (n : Nat) : Api P α Unit := fun s =>
  match s.stack with
  | v :: .table t :: rest => .ok ((), { s with stack := .table (Function.update t n v) :: rest })
  | _ => .error .misuse

/-- `lua_rawgeti` of the table at a positive index. -/
def rawGetI (i n : Nat) : Api P α Unit := fun s =>
  match s.at? i with
  | some (.table t) => .ok ((), { s with stack := t n :: s.stack })
  | _ => .error .misuse

/-- `lua_rawget(L, LUA_REGISTRYINDEX)` with a light userdata key. -/
def rawGetRegistry : Api P α Unit := fun s =>
  match s.stack with
  | .pointer p :: rest => .ok ((), { s with stack := s.registry p :: rest })
  | _ => .error .misuse

/-- `lua_rawset(L, LUA_REGISTRYINDEX)` with a light userdata key. -/
def rawSetRegistry [DecidableEq P] : Api P α Unit := fun s =>
  match s.stack with
  | v :: .pointer p :: rest => .ok ((), ⟨rest, Function.update s.registry p v⟩)
  | _ => .error .misuse

/-- `luaL_error`. -/
def raise {β : Type} (message : String) : Api P α β := fun _ => .error (.raised message)

/-- `for (int i = 1; i <= n; i++) body(i)`. -/
def forTo (n : Nat) (body : Nat → Api P α Unit) : Api P α Unit :=
  match n with
  | 0 => pure ()
  | n + 1 => do
    forTo n body
    body (n + 1)

/-! ## Running them -/

theorem run_bind {β γ : Type} {m : Api P α β} {f : β → Api P α γ} {s s' : State P α} {b : β} (h : m s = .ok (b, s')) :
    (m >>= f) s = f b s' := by
  change (m s >>= fun p => f p.1 p.2) = _
  rw [h]
  rfl

theorem pushValue_run {s : State P α} {i : Nat} {v : Value P α} (h : s.at? i = some v) :
    pushValue i s = .ok ((), ⟨v :: s.stack, s.registry⟩) := by
  rw [pushValue, h]

theorem rawGetI_run {s : State P α} {i : Nat} {t : Nat → Value P α} (h : s.at? i = some (.table t)) (n : Nat) :
    rawGetI i n s = .ok ((), ⟨t n :: s.stack, s.registry⟩) := by
  rw [rawGetI, h]

theorem pop_run (top rest : List (Value P α)) (r : P → Value P α) :
    pop top.length ⟨top ++ rest, r⟩ = .ok ((), ⟨rest, r⟩) := by
  simp [pop]

/-- A loop whose body takes each state of a family to the next runs to the last. -/
theorem forTo_run (body : Nat → Api P α Unit) (s : Nat → State P α) (n : Nat)
    (h : ∀ i < n, body (i + 1) (s i) = .ok ((), s (i + 1))) : forTo n body (s 0) = .ok ((), s n) := by
  induction n with
  | zero => rfl
  | succ n ih =>
    rw [forTo, run_bind (ih fun i hi => h i (by omega))]
    exact h n (by omega)

/-- Indices count from the bottom, whatever is pushed above. -/
theorem at?_append (top bottom : List (Value P α)) (r : P → Value P α) {i : Nat} (hi : i < bottom.length) :
    (⟨top ++ bottom.reverse, r⟩ : State P α).at? (i + 1) = some (bottom[i]) := by
  simp [State.at?, List.getElem?_append_left, hi]

theorem at?_bottom (top : List (Value P α)) (v : Value P α) (r : P → Value P α) :
    (⟨top ++ [v], r⟩ : State P α).at? 1 = some v := at?_append top [v] r (Nat.zero_lt_one)

end LuaApi
