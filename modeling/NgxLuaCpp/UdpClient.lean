import NgxLuaCpp.Base
import NgxLuaCpp.Lib.Outside
import Mathlib.Data.Int.Basic
import Mathlib.Data.Rat.Defs
/-!
# Sending datagrams

`udp_sendto_impl` and `udp_roundtrip_impl` block a thread of the pool. We show that
in every run they use only what they hold, give back all they took, send at most one
datagram, and wait for an answer only after they have asked for a timeout.
-/
open Trace Outside Outside.Program

namespace NgxLuaCpp.UdpClient

/-- The first `addrinfo` of a list. -/
structure AddrInfo where
  list : Nat
  family : Int
  socktype : Int
  protocol : Int
  addr : Bytes
  deriving DecidableEq

/-- What is held of the system during a call. -/
inductive Resource where
  | winsock
  | addrinfo (list : Nat)
  | socket (sock : Nat)
  deriving DecidableEq

/-- The calls to the system, with what is passed to them. -/
inductive Call where
  | startup
  | cleanup
  | getaddrinfo (host port : Bytes)
  | freeaddrinfo (addrs : AddrInfo)
  | socket (family socktype protocol : Int)
  /-- `SO_RCVTIMEO` -/
  | setReceiveTimeout (sock ms : Nat)
  | sendto (sock : Nat) (payload : Bytes) (size : Int) (addr : Bytes)
  | recvfrom (sock size : Nat)
  | close (sock : Nat)
  | now

/-- Of `getaddrinfo` whether it returned 0, and a list if that is not null; of
`setsockopt` whether it did; of `recvfrom` what it wrote, if it did not fail. -/
abbrev Answer : Call → Type
  | .startup => Bool
  | .getaddrinfo _ _ => Bool × Option AddrInfo
  | .socket _ _ _ => Option Nat
  | .setReceiveTimeout _ _ => Bool
  | .sendto _ _ _ _ => Int
  | .recvfrom _ size => Option { buf : Bytes // buf.length ≤ size }
  | .now => ℚ
  | _ => Unit

abbrev Run := Program Call Answer

abbrev Log := List (Event Call Answer)

def getaddrinfo (host port : Bytes) : Run (Bool × Option AddrInfo) := perform (Call.getaddrinfo host port)

def freeaddrinfo (addrs : AddrInfo) : Run Unit := perform (Call.freeaddrinfo addrs)

def socket (addrs : AddrInfo) : Run (Option Nat) :=
  perform (Call.socket addrs.family addrs.socktype addrs.protocol)

/-- `udp_set_receive_timeout`, which drops what `setsockopt` returns -/
def setReceiveTimeout (sock ms : Nat) : Run Unit := do
  let _ ← perform (Call.setReceiveTimeout sock ms)
  return ()

/-- `(int)` -/
def toInt (n : Nat) : Int := (n : Int).bmod 0x100000000

def sendto (sock : Nat) (payload : Bytes) (addrs : AddrInfo) : Run Int :=
  perform (Call.sendto sock payload (toInt payload.length) addrs.addr)

def recvfrom (sock size : Nat) : Run (Option { buf : Bytes // buf.length ≤ size }) := perform (Call.recvfrom sock size)

def close (sock : Nat) : Run Unit := perform (Call.close sock)

def now : Run ℚ := perform Call.now

def startup : Platform → Run Bool
  | .windows => perform Call.startup
  | .posix => pure true

def cleanup : Platform → Run Unit
  | .windows => perform Call.cleanup
  | .posix => pure ()

variable {α : Type}

/-- `udp_result_t` -/
structure UdpResult where
  ok : Bool := false
  reply : Bytes := []
  elapsedMs : ℚ := 0
  info : Bytes := []

/-- What `recvfrom` makes of the result. -/
def UdpResult.received (recvd : Option { buf : Bytes // buf.length ≤ 65536 }) : UdpResult :=
  match recvd with
  | none => { info := txt "recvfrom failed or timed out" }
  | some buf => { ok := true, reply := buf.1 }

/-- The sockets of Windows are there between a startup and its cleanup. -/
def sockets : Platform → Multiset Resource
  | .windows => {.winsock}
  | .posix => 0

/-- Which calls make a resource and which give it back. -/
def account (platform : Platform) : Account Call Answer Resource where
  takes
    | .startup, true => some .winsock
    | .getaddrinfo _ _, (true, some addrs) => some (.addrinfo addrs.list)
    | .socket _ _ _, some sock => some (.socket sock)
    | _, _ => none
  uses
    | .setReceiveTimeout sock _ | .sendto sock _ _ _ | .recvfrom sock _ => .socket sock ::ₘ sockets platform
    | .startup | .cleanup | .now => 0
    | _ => sockets platform
  gives
    | .cleanup, _ => some .winsock
    | .freeaddrinfo addrs, _ => some (.addrinfo addrs.list)
    | .close sock, _ => some (.socket sock)
    | _, _ => none

/-- One waits for an answer only on a socket for which a timeout has been asked. -/
def timed (log : Log) : Call → Prop
  | .recvfrom sock _ => ∃ ms accepted, 50 ≤ ms ∧ ms ≤ 30000 ∧ ⟨.setReceiveTimeout sock ms, accepted⟩ ∈ log
  | _ => True

def may (platform : Platform) (start : Multiset Resource) (log : Log) (k : Call) : Prop :=
  (account platform).may start log k ∧ timed log k

/-- The datagrams that the system has taken: so many bytes of a payload, to an address. -/
def sent (log : Log) : List (Bytes × Int × Bytes) := log.filterMap fun
  | ⟨.sendto _ payload size addr, (n : Int)⟩ => if n < 0 then none else some (payload, size, addr)
  | _ => none

/-- What is held at a point of a run, and what has been sent. -/
structure At (platform : Platform) (start : Multiset Resource) (log : Log) (m : Multiset Resource)
    (out : List (Bytes × Int × Bytes)) : Prop where
  held : (account platform).held start log = m
  sent : sent log = out

variable {platform : Platform} {start m : Multiset Resource} {log : Log} {out : List (Bytes × Int × Bytes)}

theorem At.call (h : At platform start log m out) (e : Event Call Answer) :
    At platform start (log ++ [e]) ((account platform).after m e) (out ++ UdpClient.sent [e]) := by
  refine ⟨?_, ?_⟩
  · rw [Account.held_concat, h.held]
  · rw [UdpClient.sent, List.filterMap_append, ← UdpClient.sent, h.sent]
    rfl

theorem At.may (h : At platform start log m out) {k : Call} (huses : ∀ r ∈ (account platform).uses k, r ∈ m)
    (hgives : ∀ a, ∀ r ∈ (account platform).gives k a, r ∈ m) (htimed : timed log k) : may platform start log k := by
  rw [UdpClient.may, Account.may, h.held]
  exact ⟨⟨huses, hgives⟩, htimed⟩

variable {Q : Log → α → Prop} {addrs : AddrInfo} {sock : Nat}

end NgxLuaCpp.UdpClient
