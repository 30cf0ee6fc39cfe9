import NgxLuaCpp.Dns
import NgxLuaCpp.Lib.Window
/-!
# UDP listeners and the services on them

A listener's thread queues the datagrams of its port and remembers who sent
the last one. A service loop takes the oldest, builds an answer and replies.
We model one listened port: arrivals interleave with the loop's steps in any
order, and the loop is between `udp_recv` and `udp_reply` for as long as
building the answer takes.
-/

namespace NgxLuaCpp
open Trace

/-! ## The listener -/

/-- An IPv4 `sockaddr`, as `recvfrom` fills it on an `AF_INET` socket. -/
structure SockAddr where
  a : UInt8
  b : UInt8
  c : UInt8
  d : UInt8
  port : UInt16
  deriving DecidableEq

/-- `getnameinfo`'s `host_buf` with `NI_NUMERICHOST`. -/
def SockAddr.host (s : SockAddr) : Bytes :=
  decimal s.a.toNat ++ txt "." ++ decimal s.b.toNat ++ txt "." ++ decimal s.c.toNat ++ txt "." ++ decimal s.d.toNat

/-- `getnameinfo`'s `port_buf` with `NI_NUMERICSERV`. -/
def SockAddr.serv (s : SockAddr) : Bytes := decimal s.port.toNat

/-- An entry of the queue. -/
structure Packet where
  payload : Bytes
  fromHost : Bytes
  fromPort : Nat

/-- `udp_listener_t`: the packets queued, and `sender`. -/
structure UdpListener where
  queue : List Packet
  hasSender : Bool
  sender : SockAddr

def UdpListener.new : UdpListener := ⟨[], false, ⟨0, 0, 0, 0, 0⟩⟩

/-- A pass of `udp_listener_t::run`, by what `recvfrom` received, if anything,
and whether `getnameinfo` named its source. -/
def UdpListener.run (l : UdpListener) (received : Option (Bytes × SockAddr)) (named : Bool) : UdpListener :=
  match received with
  | none => l
  | some (buf, src) =>
    if named then
      { queue := Window.push 4096 l.queue ⟨buf, src.host, number src.serv⟩, sender := src, hasSender := true }
    else l

/-- `udp_recv(port, 0)`; an empty queue is a timeout. -/
def UdpListener.recv (l : UdpListener) : UdpListener × Option Packet :=
  match l.queue with
  | [] => (l, none)
  | front :: rest => ({ l with queue := rest }, some front)

/-- The address `udp_reply` sends to, if it sends. -/
def UdpListener.replyTo (l : UdpListener) : Option SockAddr := if l.hasSender then some l.sender else none

/-! ## Services -/

/-- How a service loop builds an answer to a datagram: from its state and what
else it reads. -/
structure UdpService (σ ε : Type) where
  start : σ
  answer : σ → ε → Packet → σ × Option Bytes

/-- `udp_echo_server.start(port, mode)`. -/
def echoService (mode : Bytes) : UdpService Unit Unit where
  start := ()
  answer _ _ r :=
    let reply := if mode = txt "hello" then txt "hello-udp"
      else txt "pong [" ++ r.payload ++ txt "] lua_cpp=true from=" ++ r.fromHost ++ txt ":" ++ decimal r.fromPort
    ((), some reply)

/-- `dns_server.start(port, upstream)`. -/
def dnsService {R : Type} [LinearOrder R] [Zero R] [Add R] [Sub R] [NatCast R] (port : Nat) :
    UdpService (LiveCache R) (Dns.Env R) where
  start := .new
  answer cache env r :=
    let (cache, response, _) := Dns.handleQuery port cache env r.payload
    (cache, response)

/-- Where a service loop is: before `udp_recv`, or in `udp_reply` with the answer to a
datagram, which a thread of the pool has yet to send. -/
inductive Loop where
  | recv
  | reply (r : Packet) (answer : Bytes)

/-- A `sendto` of an answer: the datagram it answers and where it goes. It does not fail here. -/
structure Sent where
  datagram : Packet
  dest : SockAddr
  answer : Bytes

/-- A service loop on its listener, and the answers it has sent. -/
structure Server (σ : Type) where
  listener : UdpListener
  service : σ
  loop : Loop
  sent : List Sent

/-- A pass of the listener thread, or a step of the service loop. -/
inductive UdpEvent (ε : Type) where
  /-- A pass of the listener thread. -/
  | arrive (received : Option (Bytes × SockAddr)) (named : Bool)
  /-- The next step of the service loop. -/
  | loop (env : ε)

namespace Server
variable {σ ε : Type}

/-- `udp_recv` and the building of the answer. -/
def poll (svc : UdpService σ ε) (s : Server σ) (env : ε) : Server σ :=
  match s.listener.recv with
  | (l, none) => { s with listener := l }
  | (l, some r) =>
    let (st, answer) := svc.answer s.service env r
    match answer with
    | none => { s with listener := l, service := st }
    | some answer => { s with listener := l, service := st, loop := .reply r answer }

/-- The task of `udp_reply`, at the moment when it reads `sender` under the lock. -/
def reply (s : Server σ) (r : Packet) (answer : Bytes) : Server σ :=
  match s.listener.replyTo with
  | none => { s with loop := .recv }
  | some dest => { s with loop := .recv, sent := s.sent ++ [⟨r, dest, answer⟩] }

/-- A datagram is queued, or the service goes on. -/
def step (svc : UdpService σ ε) (s : Server σ) : UdpEvent ε → Server σ
  | .arrive received named => { s with listener := s.listener.run received named }
  | .loop env => match s.loop with
    | .recv => s.poll svc env
    | .reply r answer => s.reply r answer

def new (svc : UdpService σ ε) : Server σ := ⟨.new, svc.start, .recv, []⟩

/-- The service after these events. -/
def run (svc : UdpService σ ε) (evs : List (UdpEvent ε)) : Server σ := evs.foldl (step svc) (new svc)

end Server

/-! ## Who is answered -/

/-- The client a datagram came from, as the service sees it. -/
def Packet.client (r : Packet) : Bytes × Nat := (r.fromHost, r.fromPort)

/-- The name the listener gives an address. -/
def SockAddr.client (s : SockAddr) : Bytes × Nat := (s.host, number s.serv)

/-- The name tells addresses apart. -/
theorem SockAddr.client_injective {s t : SockAddr} (h : s.client = t.client) : s = t := by
  have hdot (n : Nat) : (46 : UInt8) ∉ decimal n := notMem_decimal (by decide)
  obtain ⟨hh, hp⟩ := Prod.mk.inj h
  have hport : s.port.toNat = t.port.toNat := by simpa only [SockAddr.serv, number_decimal] using hp
  have hdotted (u : SockAddr) : u.host
      = ((decimal u.a.toNat ++ 46 :: decimal u.b.toNat) ++ 46 :: decimal u.c.toNat) ++ 46 :: decimal u.d.toNat := by
    simp [SockAddr.host, txt]
  have hh : s.host = t.host := hh
  rw [hdotted, hdotted] at hh
  obtain ⟨hh, hd⟩ := append_cons_inj (hdot _) (hdot _) hh
  obtain ⟨hh, hc⟩ := append_cons_inj (hdot _) (hdot _) hh
  obtain ⟨ha, hb⟩ := append_cons_inj (hdot _) (hdot _) hh
  obtain ⟨a, b, c, d, port⟩ := s
  obtain ⟨a', b', c', d', port'⟩ := t
  simp only [SockAddr.mk.injEq]
  exact ⟨UInt8.toNat_inj.1 (decimal_injective ha), UInt8.toNat_inj.1 (decimal_injective hb),
    UInt8.toNat_inj.1 (decimal_injective hc), UInt8.toNat_inj.1 (decimal_injective hd), UInt16.toNat_inj.1 hport⟩

/-- Every answer is sent to the client whose datagram it answers. -/
def AnswersOwnClient (sent : List Sent) : Prop := ∀ x ∈ sent, x.dest.client = x.datagram.client

instance (sent : List Sent) : Decidable (AnswersOwnClient sent) :=
  inferInstanceAs (Decidable (∀ x ∈ sent, x.dest.client = x.datagram.client))

variable {σ ε : Type}

/-- The source of a datagram the listener takes. -/
def UdpEvent.source : UdpEvent ε → Option SockAddr
  | .arrive (some (_, src)) true => some src
  | _ => none

/-- The source of the last datagram taken. -/
def lastSource (evs : List (UdpEvent ε)) : Option SockAddr := (evs.filterMap UdpEvent.source).getLast?

/-- Whenever `udp_reply` reads whom to send to, the last datagram to arrive was from the client
that is answered. -/
def NotOvertaken (svc : UdpService σ ε) (evs : List (UdpEvent ε)) : Prop :=
  Each (fun pre ev => ∀ env r answer, ev = .loop env → (Server.run svc pre).loop = .reply r answer →
    (lastSource pre).map SockAddr.client = some r.client) evs

/-! ## The invariant -/

/-- What the listener remembers after a run, and that a datagram came before
any is queued or answered. -/
structure Remembers (evs : List (UdpEvent ε)) (s : Server σ) : Prop where
  sender : s.listener.replyTo = lastSource evs
  queued : s.listener.queue ≠ [] → (lastSource evs).isSome
  serving : ∀ r answer, s.loop = .reply r answer → (lastSource evs).isSome

theorem lastSource_concat (evs : List (UdpEvent ε)) (ev : UdpEvent ε) :
    lastSource (evs ++ [ev]) = ev.source.or (lastSource evs) := by
  rw [lastSource, List.filterMap_append, List.getLast?_append]
  cases h : ev.source <;> simp [h, lastSource]

/-- A poll takes at most the oldest datagram, and sends nothing. -/
theorem poll_spec (svc : UdpService σ ε) {s : Server σ} (h : s.loop = .recv) (env : ε) :
    (s.poll svc env).sent = s.sent ∧ (s.poll svc env).listener.replyTo = s.listener.replyTo ∧
      ((s.poll svc env).listener.queue ≠ [] → s.listener.queue ≠ []) ∧
      (∀ r answer, (s.poll svc env).loop = .reply r answer → s.listener.queue ≠ []) := by
  unfold Server.poll UdpListener.recv
  cases hq : s.listener.queue with
  | nil => simp [h, hq]
  | cons front rest =>
    simp only
    cases (svc.answer s.service env front).2 with
    | none => exact ⟨rfl, rfl, by simp, by simp⟩
    | some answer => exact ⟨rfl, rfl, by simp, by simp⟩

/-- A reply that has a sender to go to sends to the last one. -/
theorem reply_spec {evs : List (UdpEvent ε)} {s : Server σ} (h : Remembers evs s) {r : Packet} {answer : Bytes}
    (hl : s.loop = .reply r answer) :
    ∃ dest, lastSource evs = some dest ∧
      s.reply r answer = { s with loop := .recv, sent := s.sent ++ [⟨r, dest, answer⟩] } := by
  obtain ⟨dest, hd⟩ := Option.isSome_iff_exists.1 (h.serving r answer hl)
  refine ⟨dest, hd, ?_⟩
  rw [Server.reply, h.sender, hd]

/-- The sender kept is the source of the last datagram. -/
theorem remembers_step (svc : UdpService σ ε) {evs : List (UdpEvent ε)} {s : Server σ} (h : Remembers evs s)
    (ev : UdpEvent ε) : Remembers (evs ++ [ev]) (s.step svc ev) := by
  cases ev with
  | arrive received named =>
    unfold Server.step UdpListener.run
    rcases received with _ | ⟨buf, src⟩
    · exact ⟨by simpa [lastSource_concat, UdpEvent.source] using h.sender,
        by simpa [lastSource_concat, UdpEvent.source] using h.queued,
        by simpa [lastSource_concat, UdpEvent.source] using h.serving⟩
    · cases named with
      | true => exact ⟨by simp [lastSource_concat, UdpEvent.source, UdpListener.replyTo],
          by simp [lastSource_concat, UdpEvent.source], by simp [lastSource_concat, UdpEvent.source]⟩
      | false => exact ⟨by simpa [lastSource_concat, UdpEvent.source] using h.sender,
          by simpa [lastSource_concat, UdpEvent.source] using h.queued,
          by simpa [lastSource_concat, UdpEvent.source] using h.serving⟩
  | loop env =>
    have hlast : lastSource (evs ++ [.loop env]) = lastSource evs := by
      rw [lastSource_concat]
      rfl
    unfold Server.step
    cases hl : s.loop with
    | recv =>
      obtain ⟨-, hr, hq, hs⟩ := poll_spec svc hl env
      simp only
      exact ⟨by rw [hr, hlast, h.sender], fun hne => hlast ▸ h.queued (hq hne),
        fun r answer he => hlast ▸ h.queued (hs r answer he)⟩
    | reply r answer =>
      obtain ⟨dest, -, he⟩ := reply_spec h hl
      simp only [he]
      exact ⟨hlast ▸ h.sender, hlast ▸ h.queued, by simp⟩

/-- A step sends only when it replies, and then to the last source. -/
theorem step_sent (svc : UdpService σ ε) {evs : List (UdpEvent ε)} {s : Server σ} (h : Remembers evs s)
    (ev : UdpEvent ε) :
    AnswersOwnClient (s.step svc ev).sent ↔ AnswersOwnClient s.sent ∧
      ∀ env r answer, ev = .loop env → s.loop = .reply r answer →
        (lastSource evs).map SockAddr.client = some r.client := by
  cases ev with
  | arrive received named => simp [Server.step]
  | loop env =>
    unfold Server.step
    cases hl : s.loop with
    | recv =>
      simp only
      rw [(poll_spec svc hl env).1]
      simp
    | reply r answer =>
      -- the answer goes to whoever came last
      obtain ⟨dest, hd, he⟩ := reply_spec h hl
      simp [he, hd, AnswersOwnClient, or_imp, forall_and]

theorem Server.run_concat (svc : UdpService σ ε) (evs : List (UdpEvent ε)) (ev : UdpEvent ε) :
    Server.run svc (evs ++ [ev]) = (Server.run svc evs).step svc ev := List.foldl_concat ..

/-- On any run of any service, every answer goes to its own client exactly when
no datagram of another client is the last to arrive before it. -/
theorem own_client_iff (svc : UdpService σ ε) (evs : List (UdpEvent ε)) :
    Remembers evs (Server.run svc evs) ∧ (AnswersOwnClient (Server.run svc evs).sent ↔ NotOvertaken svc evs) := by
  induction evs using List.reverseRecOn with
  | nil =>
    refine ⟨⟨rfl, by simp [Server.run, Server.new, UdpListener.new], by simp [Server.run, Server.new]⟩, ?_⟩
    exact iff_of_true (by simp [AnswersOwnClient, Server.run, Server.new]) (each_nil _)
  | append_singleton evs ev ih =>
    obtain ⟨hr, hi⟩ := ih
    rw [Server.run_concat]
    refine ⟨remembers_step svc hr ev, ?_⟩
    rw [step_sent svc hr ev, NotOvertaken, each_concat, hi]
    rfl

/-- The echo service, in either mode, and the DNS service answer each client
with its own answers exactly in the runs where no reply is overtaken. -/
theorem services_answer_own_client_iff {R : Type} [LinearOrder R] [Zero R] [Add R] [Sub R] [NatCast R]
    (mode : Bytes) (port : Nat) :
    (∀ evs, AnswersOwnClient (Server.run (echoService mode) evs).sent ↔ NotOvertaken (echoService mode) evs) ∧
      ∀ evs : List (UdpEvent (Dns.Env R)),
        AnswersOwnClient (Server.run (dnsService port) evs).sent ↔ NotOvertaken (dnsService port) evs :=
  ⟨fun evs => (own_client_iff _ evs).2, fun evs => (own_client_iff _ evs).2⟩

def alice : SockAddr := ⟨10, 0, 0, 1, 5001⟩
def bob : SockAddr := ⟨10, 0, 0, 2, 5002⟩

/-- Two clients' datagrams arrive before the loop answers the first. -/
def overtaken {ε : Type} (env : ε) (payload : Bytes) : List (UdpEvent ε) :=
  [.arrive (some (payload, alice)) true, .loop env, .arrive (some (payload, bob)) true, .loop env]

theorem answer_sent_to_other_client :
    ¬ AnswersOwnClient (Server.run (echoService (txt "echo")) (overtaken () (txt "hi"))).sent ∧
      ¬ AnswersOwnClient (Server.run (dnsService 53)
        (overtaken (ε := Dns.Env Int) ⟨0, 0, ⟨true, Dns.messageFor 1, [], []⟩⟩ (Dns.messageFor 1))).sent := by
  constructor <;> decide +kernel

end NgxLuaCpp
