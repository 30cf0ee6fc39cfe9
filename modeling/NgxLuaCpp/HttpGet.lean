import NgxLuaCpp.Fetch
import NgxLuaCpp.Lib.Outside
/-!
# One request

`http_get` on Windows asks WinHTTP, with three handles, and reads the body piece by
piece. We show that in every run it closes each handle it opened, once and after the
last use, and that its entry says what was read.
-/
open Trace Outside Outside.Program

namespace NgxLuaCpp.HttpGet
open Http

/-- The calls of WinHTTP that `http_get` makes, with what is passed to them. -/
inductive Call where
  | open
  | setTimeouts (session ms : Nat)
  | connect (session : Nat) (host : Bytes) (port : Nat)
  | openRequest (connect : Nat) (path : Bytes)
  | sendRequest (request : Nat)
  | receiveResponse (request : Nat)
  | queryHeaders (request : Nat)
  | queryDataAvailable (request : Nat)
  | readData (request want : Nat)
  | closeHandle (handle : Nat)
  | now

/-- A handle that is not null, what was asked for if the call did not fail, and of
`WinHttpReadData` what it wrote. -/
abbrev Answer : Call → Type
  | .open | .connect _ _ _ | .openRequest _ _ => Option Nat
  | .sendRequest _ | .receiveResponse _ => Bool
  | .queryHeaders _ | .queryDataAvailable _ => Option UInt32
  | .readData _ want => Option { chunk : Bytes // chunk.length ≤ want }
  | .now => ℚ
  | _ => Unit

abbrev Run := Program Call Answer

abbrev Log := List (Event Call Answer)

def winHttpOpen : Run (Option Nat) := perform Call.open

def setTimeouts (session ms : Nat) : Run Unit := perform (Call.setTimeouts session ms)

def connect (session : Nat) (host : Bytes) (port : Nat) : Run (Option Nat) := perform (Call.connect session host port)

def openRequest (connect : Nat) (path : Bytes) : Run (Option Nat) := perform (Call.openRequest connect path)

def sendRequest (request : Nat) : Run Bool := perform (Call.sendRequest request)

def receiveResponse (request : Nat) : Run Bool := perform (Call.receiveResponse request)

def queryHeaders (request : Nat) : Run (Option UInt32) := perform (Call.queryHeaders request)

def queryDataAvailable (request : Nat) : Run (Option UInt32) := perform (Call.queryDataAvailable request)

def readData (request want : Nat) : Run (Option { chunk : Bytes // chunk.length ≤ want }) :=
  perform (Call.readData request want)

def closeHandle (handle : Nat) : Run Unit := perform (Call.closeHandle handle)

def now : Run ℚ := perform Call.now

/-- The loop over the body. -/
def readBody (request maxBytes : Nat) (body : Bytes) : Run Bytes := do
  match ← queryDataAvailable request with
  | none => return body
  | some available =>
    let want := min available.toNat (maxBytes - body.length)
    if available = 0 ∨ want = 0 then return body
    else
      match ← readData request want with
      | none => return body
      | some chunk =>
        if chunk.1 = [] then return body
        else if maxBytes ≤ body.length + chunk.1.length then return body ++ chunk.1
        else readBody request maxBytes (body ++ chunk.1)
termination_by maxBytes - body.length
decreasing_by
  next hchunk hmax =>
    have hpos := List.length_pos_iff.2 hchunk
    simp only [List.length_append]
    omega

/-- `http_get` on Windows -/
def httpGet (call : Http.Call) : Run FetchEntry := do
  let request := call.url.request
  let entry : FetchEntry := { url := request.url }
  let t0 ← now
  match ← winHttpOpen with
  | none => return { entry with text := txt "WinHttpOpen failed" }
  | some hSession =>
    setTimeouts hSession call.timeoutMs
    match ← connect hSession request.host request.port with
    | none =>
      closeHandle hSession
      return { entry with text := txt "WinHttpConnect failed" }
    | some hConnect =>
      match ← openRequest hConnect request.path with
      | none =>
        closeHandle hConnect
        closeHandle hSession
        return { entry with text := txt "WinHttpOpenRequest failed" }
      | some hRequest =>
        let entry ← transfer hRequest call.maxBytes entry
        closeHandle hRequest
        closeHandle hConnect
        closeHandle hSession
        let t1 ← now
        return { entry with elapsedMs := t1 - t0 }
where
  /-- With the request open. -/
  transfer (hRequest maxBytes : Nat) (entry : FetchEntry) : Run FetchEntry := do
    let ok ← sendRequest hRequest
    let ok ← if ok then receiveResponse hRequest else pure false
    if !ok then return { entry with text := txt "WinHttpSendRequest/ReceiveResponse failed" }
    else
      let status ← queryHeaders hRequest
      let body ← readBody hRequest maxBytes []
      return { entry with
        ok := true, status := (status.map UInt32.toNat).getD 0, size := body.length, text := body.take 256 }

/-! ## The handles -/

/-- Which calls make a handle, and that `WinHttpCloseHandle` gives it back. -/
def account : Account Call Answer Nat where
  takes
    | .open, handle | .connect _ _ _, handle | .openRequest _ _, handle => handle
    | _, _ => none
  uses
    | .setTimeouts handle _ | .connect handle _ _ | .openRequest handle _ | .sendRequest handle
    | .receiveResponse handle | .queryHeaders handle | .queryDataAvailable handle | .readData handle _ => {handle}
    | _ => 0
  gives
    | .closeHandle handle, _ => some handle
    | _, _ => none

/-- What of the body has come. -/
def received (log : Log) : Bytes := log.flatMap fun
  | ⟨.readData _ _, some (chunk : { chunk : Bytes // _ })⟩ => chunk.1
  | _ => []

/-- Whether there was a response. -/
def responded (log : Log) : Bool := log.any fun
  | ⟨.receiveResponse _, (ok : Bool)⟩ => ok
  | _ => false

/-- Where a run is: what it holds, what has come. -/
structure At (start : Multiset Nat) (log : Log) (m : Multiset Nat) (body : Bytes) (response : Bool) : Prop where
  held : account.held start log = m
  received : received log = body
  responded : responded log = response

variable {α : Type} {start m : Multiset Nat} {log : Log} {body : Bytes} {response : Bool} {Q : Log → α → Prop}
  {k : Call} {handle request maxBytes : Nat}

theorem At.call (h : At start log m body response) (e : Event Call Answer) :
    At start (log ++ [e]) (account.after m e) (body ++ HttpGet.received [e]) (response || HttpGet.responded [e]) := by
  refine ⟨?_, ?_, ?_⟩
  · rw [Account.held_concat, h.held]
  · rw [HttpGet.received, List.flatMap_append, ← HttpGet.received, h.received]
    rfl
  · rw [HttpGet.responded, List.any_append, ← HttpGet.responded, h.responded]
    rfl

/-- A call that neither takes nor gives back a handle, and brings nothing of the body. -/
theorem At.same (h : At start log m body response) (e : Event Call Answer) (hafter : account.after m e = m)
    (hreceived : HttpGet.received [e] = []) (hresponded : HttpGet.responded [e] = false) :
    At start (log ++ [e]) m body response := by
  have hcall := h.call e
  rwa [hafter, hreceived, hresponded, List.append_nil, Bool.or_false] at hcall

theorem At.may (h : At start log m body response) (huses : ∀ r ∈ account.uses k, r ∈ m)
    (hgives : ∀ a, ∀ r ∈ account.gives k a, r ∈ m) : account.may start log k := by
  rw [Account.may, h.held]
  exact ⟨huses, hgives⟩

theorem At.uses (h : At start log m body response) (huses : account.uses k = {handle})
    (hgives : ∀ a, account.gives k a = none) (hmem : handle ∈ m) : account.may start log k := by
  refine h.may (fun r hr => ?_) (by simp [hgives])
  rw [huses, Multiset.mem_singleton] at hr
  exact hr ▸ hmem

theorem wp_closeHandle {f : Unit → Run α} (h : At start log (handle ::ₘ m) body response)
    (hf : At start (log ++ [⟨.closeHandle handle, ()⟩]) m body response →
      (f ()).wp (account.may start) Q (log ++ [⟨.closeHandle handle, ()⟩])) :
    (closeHandle handle >>= f).wp (account.may start) Q log := by
  refine wp_call (h.may nofun ?_) fun r => hf ?_
  · rintro a r ⟨⟩
    exact Multiset.mem_cons_self _ _
  · have hcall := h.call ⟨.closeHandle handle, r⟩
    have herase : account.after (handle ::ₘ m) ⟨.closeHandle handle, r⟩ = m := account.after_gives rfl
    rw [herase, show received [⟨.closeHandle handle, r⟩] = [] from rfl, List.append_nil,
      show responded [⟨.closeHandle handle, r⟩] = false from rfl, Bool.or_false] at hcall
    exact hcall

/-! ## The body -/

/-- Reading the body keeps to the limit. -/
theorem wp_readBody {Q : Log → Bytes → Prop} (hmem : request ∈ m) (hbody : body.length ≤ maxBytes)
    (h : At start log m body response)
    (hQ : ∀ log body, At start log m body response → body.length ≤ maxBytes → Q log body) :
    (readBody request maxBytes body).wp (account.may start) Q log := by
  induction hleft : maxBytes - body.length using Nat.strongRecOn generalizing body log with
  | ind left ih =>
    rw [readBody]
    refine wp_call (h.uses rfl (fun _ => rfl) hmem) fun available => ?_
    have hquery := h.same ⟨.queryDataAvailable request, available⟩ rfl rfl rfl
    cases available with
    | none => exact hQ _ _ hquery hbody
    | some available =>
      simp only
      split
      · exact hQ _ _ hquery hbody
      · next hwant =>
        refine wp_call (hquery.uses rfl (fun _ => rfl) hmem) fun chunk => ?_
        have hread := hquery.call ⟨.readData request (min available.toNat (maxBytes - body.length)), chunk⟩
        rw [show responded [⟨.readData request (min available.toNat (maxBytes - body.length)), chunk⟩] = false from rfl,
          Bool.or_false] at hread
        cases chunk with
        | none =>
          have hsame : At start _ m (body ++ []) response := hread
          rw [List.append_nil] at hsame
          exact hQ _ _ hsame hbody
        | some chunk =>
          have happend : At start _ m (body ++ (chunk.1 ++ [])) response := hread
          rw [List.append_nil] at happend
          have hlength : (body ++ chunk.1).length ≤ maxBytes := by
            have hle := chunk.2
            rw [List.length_append]
            omega
          simp only
          split
          · next hchunk =>
            rw [hchunk, List.append_nil] at happend
            exact hQ _ _ happend hbody
          · next hchunk =>
            split
            · exact hQ _ _ happend hlength
            · have hpos := List.length_pos_iff.2 hchunk
              refine ih _ ?_ hlength happend rfl
              rw [List.length_append]
              omega

/-! ## The request -/

/-- The texts of `error` on the ways out of `http_get`. -/
def errors : List Bytes :=
  [txt "WinHttpOpen failed", txt "WinHttpConnect failed", txt "WinHttpOpenRequest failed",
    txt "WinHttpSendRequest/ReceiveResponse failed"]

/-- What the entry says, for a body that has come after a response; without one none comes. -/
structure Fetched (call : Http.Call) (body : Bytes) (response : Bool) (entry : FetchEntry) : Prop where
  url : entry.url = call.url.request.url
  ok : entry.ok = response
  size : entry.size = body.length
  bounded : entry.size ≤ call.maxBytes
  text : response = true → entry.text = body.take 256
  failed : response = false → body = [] ∧ entry.status = 0 ∧ entry.size = 0 ∧ entry.text ∈ errors

theorem Fetched.error {call : Http.Call} {error : Bytes} (h : error ∈ errors) :
    Fetched call [] false { url := call.url.request.url, text := error } :=
  ⟨rfl, rfl, rfl, Nat.zero_le _, nofun, fun _ => ⟨rfl, rfl, rfl, h⟩⟩

/-- From the request on, the entry says what has come. -/
theorem wp_transfer {call : Http.Call} {Q : Log → FetchEntry → Prop} (hmem : request ∈ m)
    (h : At start log m [] false)
    (hQ : ∀ log body response entry, At start log m body response → Fetched call body response entry → Q log entry) :
    (httpGet.transfer request call.maxBytes { url := call.url.request.url }).wp (account.may start) Q log := by
  rw [httpGet.transfer]
  refine wp_call (h.uses rfl (fun _ => rfl) hmem) fun sent => ?_
  have hsent := h.same ⟨.sendRequest request, sent⟩ rfl rfl rfl
  have herror : Fetched call [] false
      { url := call.url.request.url, text := txt "WinHttpSendRequest/ReceiveResponse failed" } :=
    .error (by simp [errors])
  cases sent with
  | false => exact hQ _ _ _ _ hsent herror
  | true =>
    simp only [if_true]
    refine wp_call (hsent.uses rfl (fun _ => rfl) hmem) fun got => ?_
    have hgot := hsent.call ⟨.receiveResponse request, got⟩
    cases got with
    | false => exact hQ _ _ _ _ hgot herror
    | true =>
      simp only [Bool.not_true, Bool.false_eq_true, if_false]
      refine wp_call (hgot.uses rfl (fun _ => rfl) hmem) fun status => ?_
      have hstatus : At start _ m [] true := hgot.same ⟨.queryHeaders request, status⟩ rfl rfl rfl
      rw [wp_bind]
      refine wp_readBody hmem (Nat.zero_le _) hstatus fun log body hbody hle => ?_
      exact hQ _ _ _ _ hbody ⟨rfl, rfl, rfl, hle, fun _ => rfl, nofun⟩

/-- Whatever the system answers, every handle is closed and the entry says what has come. -/
theorem wp_httpGet (start : Multiset Nat) (call : Http.Call) :
    (httpGet call).wp (account.may start)
      (fun log entry => account.held start log = start ∧ Fetched call (received log) (responded log) entry) [] := by
  have hQ : ∀ {log : Log} {body : Bytes} {response : Bool} {entry : FetchEntry}, At start log start body response →
      Fetched call body response entry →
      account.held start log = start ∧ Fetched call (received log) (responded log) entry := by
    rintro log body response entry ⟨hheld, rfl, rfl⟩ hentry
    exact ⟨hheld, hentry⟩
  have hempty : At start [] start [] false := ⟨rfl, rfl, rfl⟩
  rw [httpGet]
  refine wp_call (hempty.may nofun nofun) fun t0 => ?_
  have hbegun := hempty.same ⟨.now, t0⟩ rfl rfl rfl
  refine wp_call (hbegun.may nofun nofun) fun hSession => ?_
  have hopened := hbegun.call ⟨.open, hSession⟩
  cases hSession with
  | none => exact hQ hopened (.error (by simp [errors]))
  | some hSession =>
    have hopened : At start _ (hSession ::ₘ start) [] false := hopened
    simp only
    refine wp_call (hopened.uses rfl (fun _ => rfl) (Multiset.mem_cons_self _ _)) fun r => ?_
    have htimed := hopened.same ⟨.setTimeouts hSession call.timeoutMs, r⟩ rfl rfl rfl
    refine wp_call (htimed.uses rfl (fun _ => rfl) (Multiset.mem_cons_self _ _)) fun hConnect => ?_
    have hconnected := htimed.call ⟨.connect hSession call.url.request.host call.url.request.port, hConnect⟩
    cases hConnect with
    | none => exact wp_closeHandle hconnected fun h => hQ h (.error (by simp [errors]))
    | some hConnect =>
      have hconnected : At start _ (hConnect ::ₘ hSession ::ₘ start) [] false := hconnected
      simp only
      refine wp_call (hconnected.uses rfl (fun _ => rfl) (Multiset.mem_cons_self _ _)) fun hRequest => ?_
      have hrequested := hconnected.call ⟨.openRequest hConnect call.url.request.path, hRequest⟩
      cases hRequest with
      | none =>
        refine wp_closeHandle hrequested fun h => wp_closeHandle h fun h => hQ h (.error (by simp [errors]))
      | some hRequest =>
        have hrequested : At start _ (hRequest ::ₘ hConnect ::ₘ hSession ::ₘ start) [] false := hrequested
        simp only
        rw [wp_bind]
        refine wp_transfer (Multiset.mem_cons_self _ _) hrequested fun log body response entry h hentry => ?_
        refine wp_closeHandle h fun h => wp_closeHandle h fun h => wp_closeHandle h fun h => ?_
        refine wp_call (h.may nofun nofun) fun t1 => hQ (h.same ⟨.now, t1⟩ rfl rfl rfl) ?_
        exact ⟨hentry.url, hentry.ok, hentry.size, hentry.bounded, hentry.text, hentry.failed⟩

/-- However WinHTTP answers, each handle is closed once, after its last use, and the
entry is that of what has come; it is what `fetch` takes for the request. -/
theorem http_get_meets (call : Http.Call) (start : Multiset Nat) (answer : Log → (k : Call) → Answer k) :
    Each (fun pre e => account.may start pre e.called) ((httpGet call).run answer).1 ∧
      account.held start ((httpGet call).run answer).1 = start ∧
      Fetched call (received ((httpGet call).run answer).1) (responded ((httpGet call).run answer).1)
        ((httpGet call).run answer).2 ∧
      Http.httpGet (fun call => ((httpGet call).run answer).2) call = ((httpGet call).run answer).2 := by
  obtain ⟨hmay, hheld, hfetched⟩ := sound answer (wp_httpGet start call)
  refine ⟨hmay, hheld, hfetched, ?_⟩
  rw [Http.httpGet, ← hfetched.url]

end NgxLuaCpp.HttpGet
