import NgxLuaCpp.Base
import NgxLuaCpp.Lib.Descriptors
import Mathlib.Data.List.Sort
/-!
# Opening and closing the sockets of listeners

`udp_listen` closes the socket of a listener that could not be bound, and so does the
listener's destructor. Calls of `udp_listen` and `stop` hold `listeners_mutex`; other
threads open and close descriptors at any time.
-/

namespace NgxLuaCpp.UdpListen
open Descriptors

/-! ## The model -/

/-- Another thread, or the call of `udp_listen` with a number. -/
inductive Owner where
  | other
  | call (n : Nat)
  deriving DecidableEq

theorem call_ne_other (n : Nat) : Owner.call n ≠ .other := nofun

/-- `udp_listener_t`, and the call that made it. -/
structure Listener where
  call : Nat
  port : Nat
  sock : Option Nat
  stop : Bool
  deriving DecidableEq

/-- Where the holder of `listeners_mutex` is, if there is one. -/
inductive Place where
  | idle
  | opening (listener : Listener)
  | binding (listener : Listener)
  | refused (listener : Listener)
  /-- before the destructors of `listener` and the guard -/
  | leaving (listener : Listener) (error : Bytes)
  | starting (listener : Listener)
  /-- in `stop_impl`, after `k` listeners -/
  | stopping (k : Nat)
  deriving DecidableEq

/-- A call that returned: `udp_listeners` as it found and as it left them. -/
structure Return where
  call : Nat
  port : Nat
  error : Bytes
  opened : Bool
  before : List Listener
  after : List Listener

/-- The descriptors with their owners, the listeners, and where the holder of the guard is. -/
structure State where
  table : Table Owner
  /-- the numbers other threads have from `open` and have not closed -/
  held : List Nat
  calls : Nat
  place : Place
  udpListeners : List Listener
  /-- `udp_listeners` when the guard was taken -/
  entered : List Listener
  returns : List Return

/-- No descriptor open, and no listener. -/
def State.new : State := ⟨Table.empty, [], 0, .idle, [], [], []⟩

/-- What can happen next: another thread opens or closes a descriptor, `udp_listen` or `stop` is
called, or the holder of the guard goes on. -/
inductive Event where
  | otherOpen (fd : Nat)
  | otherClose (fd : Nat)
  /-- `startup` is whether `WSAStartup` succeeds, where it is called -/
  | call (port : Nat) (startup : Bool)
  | socket (fd : Option Nat)
  | bind (ok : Bool)
  | close
  | leave
  | store
  | stop
  | stopNext
  deriving DecidableEq

/-- `udp_listener_t::stop_listen` -/
def stopListen (table : Table Owner) (l : Listener) : Table Owner × Listener :=
  if l.stop then (table, l)
  else match l.sock with
    | some fd => (table.close (.call l.call) fd, { l with stop := true, sock := none })
    | none => (table, { l with stop := true })

/-- `udp_listeners[port] = listener` for a new port, in the order of the map. -/
def insertListener (l : Listener) (ls : List Listener) : List Listener :=
  ls.orderedInsert (fun a b => a.port ≤ b.port) l

namespace State
variable (s : State)

def returned (r : Return) : State := { s with place := .idle, returns := s.returns ++ [r] }

/-- `udp_listen` up to the socket. -/
def call (port : Nat) (startup : Bool) : Option State :=
  let s' := { s with calls := s.calls + 1 }
  let fail error := { s' with returns := s.returns ++ [⟨s.calls, port, error, false, s.udpListeners, s.udpListeners⟩] }
  if port = 0 ∨ port > 65535 then some (fail (txt "invalid port"))
  else if s.place ≠ .idle then none -- waits for the guard
  else if s.udpListeners.any (·.port = port) then some (fail (txt "already listening on port " ++ decimal port))
  else
    let listener : Listener := ⟨s.calls, port, none, false⟩
    if startup then some { s' with place := .opening listener, entered := s.udpListeners }
    else some { s' with place := .leaving listener (txt "WSAStartup failed"), entered := s.udpListeners }

end State

/-- Nothing where an event cannot take place. -/
def step (s : State) : Event → Option State
  | .otherOpen fd =>
    if s.table.owner fd = none then some { s with table := s.table.opened fd .other, held := fd :: s.held } else none
  | .otherClose fd =>
    if fd ∈ s.held then some { s with table := s.table.close .other fd, held := s.held.erase fd } else none
  | .call port startup => s.call port startup
  | .socket fd => match s.place, fd with
    | .opening l, some fd =>
      if s.table.owner fd = none then
        some { s with table := s.table.opened fd (.call l.call), place := .binding { l with sock := some fd } }
      else none
    | .opening l, none => some { s with place := .leaving l (txt "socket() failed") }
    | _, _ => none
  | .bind ok => match s.place with
    | .binding l => some { s with place := if ok then .starting l else .refused l }
    | _ => none
  | .close => match s.place with
    | .refused l => do
      let fd ← l.sock
      some { s with
        table := s.table.close (.call l.call) fd
        place := .leaving l (txt "bind() failed on port " ++ decimal l.port ++ txt " (already in use?)") }
    | _ => none
  | .leave => match s.place with
    | .leaving l error =>
      some ({ s with table := (stopListen s.table l).1 }.returned
        ⟨l.call, l.port, error, l.sock.isSome, s.entered, s.udpListeners⟩)
    | _ => none
  | .store => match s.place with
    | .starting l =>
      let udpListeners := insertListener l s.udpListeners
      some ({ s with udpListeners }.returned ⟨l.call, l.port, [], l.sock.isSome, s.entered, udpListeners⟩)
    | _ => none
  | .stop => match s.place with
    | .idle => some { s with place := .stopping 0 }
    | _ => none
  | .stopNext => match s.place with
    | .stopping k => match s.udpListeners[k]? with
      | some l =>
        let (table, l') := stopListen s.table l
        some { s with table, udpListeners := s.udpListeners.set k l', place := .stopping (k + 1) }
      | none =>
        -- `clear` destroys the listeners
        some { s with
          table := s.udpListeners.foldl (fun table l => (stopListen table l).1) s.table
          udpListeners := []
          place := .idle }
    | _ => none

/-- The state after these events, if each of them can take place. -/
def run (events : List Event) : Option State := events.foldlM step .new

/-- What every call of `udp_listen` should come to. -/
structure Good (s : State) : Prop where
  /-- A call closes at most once, and what it opened itself. -/
  closes : ∀ n, s.table.closesBy (.call n) = [] ∨ s.table.closesBy (.call n) = [some (.call n)]
  failed : ∀ r ∈ s.returns, r.error ≠ [] → r.after = r.before ∧ (∀ fd, s.table.owner fd ≠ some (.call r.call)) ∧
    s.table.closesBy (.call r.call) = if r.opened then [some (.call r.call)] else []
  /-- The stored listener has the socket open until it is stopped, and closes it then. -/
  succeeded : ∀ r ∈ s.returns, r.error = [] → ∃ fd, r.after = insertListener ⟨r.call, r.port, some fd, false⟩ r.before ∧
    ((⟨r.call, r.port, some fd, false⟩ ∈ s.udpListeners ∧ s.table.Holds (.call r.call) fd) ∨
      (⟨r.call, r.port, some fd, false⟩ ∉ s.udpListeners ∧ s.table.Done (.call r.call)))

/-! ## Steps -/

/-- What an event can do, the guards included. -/
inductive Step (s : State) : Event → State → Prop where
  | otherOpen {fd : Nat} (hfree : s.table.owner fd = none) :
    Step s (.otherOpen fd) { s with table := s.table.opened fd .other, held := fd :: s.held }
  | otherClose {fd : Nat} (hheld : fd ∈ s.held) :
    Step s (.otherClose fd) { s with table := s.table.close .other fd, held := s.held.erase fd }
  | rejected {port : Nat} {startup : Bool} {error : Bytes} (herror : error ≠ []) :
    Step s (.call port startup)
      { s with
        calls := s.calls + 1
        returns := s.returns ++ [⟨s.calls, port, error, false, s.udpListeners, s.udpListeners⟩] }
  | entered {port : Nat} {startup : Bool} {place : Place} (hidle : s.place = .idle)
      (hplace : place = .opening ⟨s.calls, port, none, false⟩ ∨
        ∃ error, error ≠ [] ∧ place = .leaving ⟨s.calls, port, none, false⟩ error) :
    Step s (.call port startup) { s with calls := s.calls + 1, place, entered := s.udpListeners }
  | socket {l : Listener} {fd : Nat} (hplace : s.place = .opening l) (hfree : s.table.owner fd = none) :
    Step s (.socket (some fd))
      { s with table := s.table.opened fd (.call l.call), place := .binding { l with sock := some fd } }
  | noSocket {l : Listener} {error : Bytes} (hplace : s.place = .opening l) (herror : error ≠ []) :
    Step s (.socket none) { s with place := .leaving l error }
  | bound {l : Listener} (hplace : s.place = .binding l) : Step s (.bind true) { s with place := .starting l }
  | refused {l : Listener} (hplace : s.place = .binding l) : Step s (.bind false) { s with place := .refused l }
  | close {l : Listener} {fd : Nat} {error : Bytes} (hplace : s.place = .refused l) (hsock : l.sock = some fd) :
    Step s .close { s with table := s.table.close (.call l.call) fd, place := .leaving l error }
  | leave {l : Listener} {error : Bytes} (hplace : s.place = .leaving l error) :
    Step s .leave ({ s with table := (stopListen s.table l).1 }.returned
      ⟨l.call, l.port, error, l.sock.isSome, s.entered, s.udpListeners⟩)
  | store {l : Listener} (hplace : s.place = .starting l) :
    Step s .store ({ s with udpListeners := insertListener l s.udpListeners }.returned
      ⟨l.call, l.port, [], l.sock.isSome, s.entered, insertListener l s.udpListeners⟩)
  | stop (hplace : s.place = .idle) : Step s .stop { s with place := .stopping 0 }
  | stopNext {k : Nat} {l : Listener} (hplace : s.place = .stopping k) (hl : s.udpListeners[k]? = some l) :
    Step s .stopNext
      { s with
        table := (stopListen s.table l).1
        udpListeners := s.udpListeners.set k (stopListen s.table l).2
        place := .stopping (k + 1) }
  | clear {k : Nat} (hplace : s.place = .stopping k) (hk : s.udpListeners[k]? = none) :
    Step s .stopNext
      { s with
        table := s.udpListeners.foldl (fun table l => (stopListen table l).1) s.table
        udpListeners := []
        place := .idle }

/-- What `udp_listen` does up to the socket. -/
theorem call_cases {s s' : State} {port : Nat} {startup : Bool} (h : s.call port startup = some s') :
    Step s (.call port startup) s' := by
  unfold State.call at h
  dsimp only at h
  split at h
  · obtain rfl := Option.some.inj h
    apply Step.rejected
    decide +kernel
  · split at h
    · cases h
    · next hidle =>
      rw [ne_eq, not_not] at hidle
      split at h
      · obtain rfl := Option.some.inj h
        apply Step.rejected
        exact List.append_ne_nil_of_left_ne_nil (by decide +kernel) _
      · split at h
        · obtain rfl := Option.some.inj h
          exact .entered hidle (.inl rfl)
        · obtain rfl := Option.some.inj h
          exact .entered hidle (.inr ⟨_, by decide +kernel, rfl⟩)

/-- All that an event can do. -/
theorem step_cases {s s' : State} {e : Event} (h : step s e = some s') : Step s e s' := by
  unfold step at h
  cases e with
  | otherOpen fd =>
    dsimp only at h
    split at h
    · next hfree =>
      obtain rfl := Option.some.inj h
      exact .otherOpen hfree
    · cases h
  | otherClose fd =>
    dsimp only at h
    split at h
    · next hheld =>
      obtain rfl := Option.some.inj h
      exact .otherClose hheld
    · cases h
  | call port startup => exact call_cases h
  | socket fd =>
    dsimp only at h
    split at h
    · next l fd hplace =>
      split at h
      · next hfree =>
        obtain rfl := Option.some.inj h
        exact .socket hplace hfree
      · cases h
    · next l hplace =>
      obtain rfl := Option.some.inj h
      exact .noSocket hplace (by decide +kernel)
    · cases h
  | bind ok =>
    dsimp only at h
    split at h
    · next l hplace =>
      obtain rfl := Option.some.inj h
      cases ok with
      | true => exact .bound hplace
      | false => exact .refused hplace
    · cases h
  | close =>
    dsimp only at h
    split at h
    · next l hplace =>
      obtain ⟨fd, hsock, h⟩ := Option.bind_eq_some_iff.1 h
      obtain rfl := Option.some.inj h
      exact .close hplace hsock
    · cases h
  | leave =>
    dsimp only at h
    split at h
    · next l error hplace =>
      obtain rfl := Option.some.inj h
      exact .leave hplace
    · cases h
  | store =>
    dsimp only at h
    split at h
    · next l hplace =>
      obtain rfl := Option.some.inj h
      exact .store hplace
    · cases h
  | stop =>
    dsimp only at h
    split at h
    · next hplace =>
      obtain rfl := Option.some.inj h
      exact .stop hplace
    · cases h
  | stopNext =>
    dsimp only at h
    split at h
    · next k hplace =>
      split at h
      · next l hl =>
        obtain rfl := Option.some.inj h
        exact .stopNext hplace hl
      · next hk =>
        obtain rfl := Option.some.inj h
        exact .clear hplace hk
    · cases h

end NgxLuaCpp.UdpListen
