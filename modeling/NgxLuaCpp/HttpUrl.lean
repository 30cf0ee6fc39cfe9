import NgxLuaCpp.Base
import Mathlib.Data.List.TakeWhile
/-!
# URLs to fetch

`parse_http_url` splits at the first slash and the last colon and leaves the port to
`std::atol`, which reads what it can.
-/

namespace NgxLuaCpp.Http

/-! ## The parser -/

/-- The width of a `long`. -/
inductive DataModel where
  | llp64
  | lp64
  deriving DecidableEq

/-- `LONG_MAX` -/
def DataModel.longMax : DataModel → Int
  | .llp64 => 0x7fffffff
  | .lp64 => 0x7fffffffffffffff

/-- `isspace`, which `atol` skips. -/
def isSpace (c : UInt8) : Bool := c = 32 || 9 ≤ c && c ≤ 13

def isDigit (c : UInt8) : Bool := '0'.toUInt8 ≤ c && c ≤ '9'.toUInt8

/-- The number that `std::atol` reads: after white space and a sign, as far as there are digits. -/
def leadingNumber (s : Bytes) : Int :=
  match s.dropWhile isSpace with
  | [] => 0
  | c :: rest =>
    if c = '-'.toUInt8 then -(number (rest.takeWhile isDigit) : Int)
    else if c = '+'.toUInt8 then number (rest.takeWhile isDigit)
    else number ((c :: rest).takeWhile isDigit)

/-- What it gives for a number that no `long` holds is not defined. -/
def atol (model : DataModel) (undefined : Bytes → Int) (s : Bytes) : Int :=
  if -model.longMax - 1 ≤ leadingNumber s ∧ leadingNumber s ≤ model.longMax then leadingNumber s else undefined s

/-- `(size_t)` -/
def toSize (x : Int) : Nat := (x % 0x10000000000000000).toNat

/-- `std::string::find` of a character. -/
def find (s : Bytes) (c : UInt8) : Option Nat := s.findIdx? (· == c)

/-- `std::string::rfind` of a character. -/
def rfind (s : Bytes) (c : UInt8) : Option Nat := (s.reverse.findIdx? (· == c)).map fun i => s.length - 1 - i

/-- `http_url_t` -/
structure HttpUrl where
  host : Bytes := []
  path : Bytes := txt "/"
  port : Nat := 80
  ok : Bool := false
  error : Bytes := []

/-- `parse_http_url`; `undefined` is what `atol` gives out of its range. -/
def parseHttpUrl (model : DataModel) (undefined : Bytes → Int) (url : Bytes) : HttpUrl :=
  if ¬ txt "http://" <+: url then { error := txt "only http:// URLs are supported" }
  else
    let rest := url.drop 7
    let slash := find rest '/'.toUInt8
    let authority := match slash with
      | none => rest
      | some slash => rest.take slash
    let path := match slash with
      | none => txt "/"
      | some slash => rest.drop slash
    let result : HttpUrl := match rfind authority ':'.toUInt8 with
      | some colon =>
        { port := toSize (atol model undefined (authority.drop (colon + 1))), host := authority.take colon }
      | none => { host := authority }
    if result.host = [] ∨ result.port = 0 then { result with error := txt "invalid url: " ++ url }
    else { result with path := if path = [] then txt "/" else path, ok := true }

/-! ## Requests -/

/-- The URL that `http_get` reassembles, and the host, port and path that it is made of, before
WinHTTP reads host and path as far as a NUL. An `INTERNET_PORT` has 16 bits. -/
structure Request where
  url : Bytes
  host : Bytes
  port : Nat
  path : Bytes

def HttpUrl.request (u : HttpUrl) : Request where
  url := txt "http://" ++ u.host ++ (if u.port = 80 then [] else txt ":" ++ decimal u.port) ++ u.path
  host := u.host
  port := u.port % 0x10000
  path := u.path

/-! ## What a URL denotes -/

/-- A name or an address, which has colons in brackets only. -/
def IsHost (host : Bytes) : Prop :=
  host ≠ [] ∧ '/'.toUInt8 ∉ host ∧
    (':'.toUInt8 ∈ host → ∃ address, host = '['.toUInt8 :: (address ++ [']'.toUInt8]) ∧ ']'.toUInt8 ∉ address)

/-- Decimal digits of a port. -/
def IsPort (text : Bytes) : Prop := text.all isDigit = true ∧ 1 ≤ number text ∧ number text ≤ 65535

/-- `http://host[:port][/path]` with these parts. -/
structure Denotes (url host : Bytes) (port : Nat) (path : Bytes) : Prop where
  isHost : IsHost host
  parts : ∃ portText pathText, url = txt "http://" ++ host ++ portText ++ pathText ∧
    (portText = [] ∧ port = 80 ∨ ∃ text, portText = ':'.toUInt8 :: text ∧ IsPort text ∧ port = number text) ∧
    (pathText = [] ∧ path = txt "/" ∨ pathText = path ∧ ∃ rest, path = '/'.toUInt8 :: rest)

/-- A URL that is taken denotes what it is parsed to, and the request is for the same. -/
def Exact (url : Bytes) (u : HttpUrl) : Prop :=
  u.ok = true → Denotes url u.host u.port u.path ∧
    Denotes u.request.url u.request.host u.request.port u.request.path ∧
    u.request.host = u.host ∧ u.request.port = u.port ∧ u.request.path = u.path

/-- What is before the first slash. -/
def authority (url : Bytes) : Bytes := (url.drop 7).takeWhile (· ≠ '/'.toUInt8)

/-- A last colon in the authority is between a host and a port, unless the port reads as zero
or the host is empty. -/
def PlainPort (url : Bytes) : Prop :=
  txt "http://" <+: url → ∀ host port, authority url = host ++ ':'.toUInt8 :: port → ':'.toUInt8 ∉ port →
    host ≠ [] → leadingNumber port ≠ 0 → IsHost host ∧ IsPort port

/-! ## Splitting -/

theorem find_spec (s : Bytes) (c : UInt8) :
    (match find s c with | none => s | some i => s.take i) = s.takeWhile (· ≠ c) ∧
      (match find s c with | none => [] | some i => s.drop i) = s.dropWhile (· ≠ c) := by
  have hnot : (fun x => !decide (x ≠ c)) = fun x => x == c := by
    funext x
    simp [beq_eq_decide]
  rw [List.takeWhile_eq_take_findIdx_not, List.dropWhile_eq_drop_findIdx_not, hnot, find]
  cases h : s.findIdx? (· == c) with
  | none =>
    rw [List.findIdx?_eq_none_iff_findIdx_eq.1 h]
    simp
  | some i =>
    rw [(List.findIdx?_eq_some_iff_findIdx_eq.1 h).2]
    exact ⟨rfl, rfl⟩

theorem rfind_eq_none {s : Bytes} {c : UInt8} (h : c ∉ s) : rfind s c = none := by
  unfold rfind
  rw [List.findIdx?_eq_none_iff.2, Option.map_none]
  intro x hx
  rw [List.mem_reverse] at hx
  rw [beq_eq_false_iff_ne]
  rintro rfl
  exact h hx

theorem rfind_append {host port : Bytes} {c : UInt8} (h : c ∉ port) :
    rfind (host ++ c :: port) c = some host.length := by
  have hnone : port.reverse.findIdx? (· == c) = none := by
    rw [List.findIdx?_eq_none_iff]
    intro x hx
    rw [List.mem_reverse] at hx
    rw [beq_eq_false_iff_ne]
    rintro rfl
    exact h hx
  unfold rfind
  have hfirst : (c :: host.reverse).findIdx? (· == c) = some 0 := by simp [List.findIdx?_cons]
  rw [List.reverse_append, List.reverse_cons, List.append_assoc, List.findIdx?_append, hnone, List.singleton_append,
    hfirst]
  simp

/-- A character that occurs has a last occurrence. -/
theorem exists_last {s : Bytes} {c : UInt8} (h : c ∈ s) : ∃ host port, s = host ++ c :: port ∧ c ∉ port := by
  obtain ⟨l, r, hs, hl⟩ := List.eq_append_cons_of_mem (List.mem_reverse.2 h)
  refine ⟨r.reverse, l.reverse, ?_, by simpa using hl⟩
  rw [← List.reverse_reverse s, hs]
  simp

/-- The slash and what follows. -/
def pathText (url : Bytes) : Bytes := (url.drop 7).dropWhile (· ≠ '/'.toUInt8)

variable {model : DataModel} {undefined : Bytes → Int} {url host port path : Bytes}

theorem slash_notMem_authority (url : Bytes) : '/'.toUInt8 ∉ authority url := by
  intro h
  have := List.mem_takeWhile_imp h
  simp at this

theorem pathText_eq (url : Bytes) : pathText url = [] ∨ ∃ rest, pathText url = '/'.toUInt8 :: rest := by
  cases h : pathText url with
  | nil => exact .inl rfl
  | cons c rest =>
    have hhead := List.head?_dropWhile_not (· ≠ '/'.toUInt8) (url.drop 7)
    rw [← pathText, h] at hhead
    obtain rfl : c = '/'.toUInt8 := by simpa using hhead
    exact .inr ⟨rest, rfl⟩

theorem eq_parts (h : txt "http://" <+: url) : url = txt "http://" ++ (authority url ++ pathText url) := by
  obtain ⟨rest, rfl⟩ := h
  unfold authority pathText
  have hdrop : (txt "http://" ++ rest).drop 7 = rest := List.drop_left' (by decide)
  rw [hdrop, List.takeWhile_append_dropWhile]

/-- What the parser makes of the authority. -/
theorem parse_eq (h : txt "http://" <+: url) : parseHttpUrl model undefined url =
    let result : HttpUrl := match rfind (authority url) ':'.toUInt8 with
      | some colon =>
        { port := toSize (atol model undefined ((authority url).drop (colon + 1))), host := (authority url).take colon }
      | none => { host := authority url }
    if result.host = [] ∨ result.port = 0 then { result with error := txt "invalid url: " ++ url }
    else { result with path := if pathText url = [] then txt "/" else pathText url, ok := true } := by
  obtain ⟨hauthority, hpath⟩ := find_spec (url.drop 7) '/'.toUInt8
  unfold parseHttpUrl
  rw [if_neg (not_not.2 h)]
  dsimp only
  rw [hauthority, ← authority]
  have hslash : txt "/" ≠ [] := by decide
  cases hfind : find (url.drop 7) '/'.toUInt8 with
  | none =>
    rw [hfind] at hpath
    rw [pathText, ← hpath, if_neg hslash, if_pos rfl]
  | some slash =>
    rw [hfind] at hpath
    rw [pathText, ← hpath]

/-- Without a colon the port is 80. -/
theorem parse_noColon (h : txt "http://" <+: url) (hcolon : ':'.toUInt8 ∉ authority url)
    (hok : (parseHttpUrl model undefined url).ok = true) : authority url ≠ [] ∧
      (parseHttpUrl model undefined url).host = authority url ∧ (parseHttpUrl model undefined url).port = 80 ∧
      (parseHttpUrl model undefined url).path = if pathText url = [] then txt "/" else pathText url := by
  rw [parse_eq h, rfind_eq_none hcolon] at hok ⊢
  by_cases hempty : authority url = []
  · simp [hempty] at hok
  · simp [hempty]

/-- At its last colon the authority is split into host and port. -/
theorem parse_colon (model : DataModel) (undefined : Bytes → Int) (h : txt "http://" <+: url)
    (hparts : authority url = host ++ ':'.toUInt8 :: port)
    (hcolon : ':'.toUInt8 ∉ port) :
    ((parseHttpUrl model undefined url).ok = true ↔ host ≠ [] ∧ toSize (atol model undefined port) ≠ 0) ∧
      (parseHttpUrl model undefined url).host = host ∧
      (parseHttpUrl model undefined url).port = toSize (atol model undefined port) ∧
      ((parseHttpUrl model undefined url).ok = true →
        (parseHttpUrl model undefined url).path = if pathText url = [] then txt "/" else pathText url) := by
  have hdrop : (host ++ ':'.toUInt8 :: port).drop (host.length + 1) = port := by simp
  rw [parse_eq h, hparts, rfind_append hcolon]
  dsimp only
  rw [List.take_left, hdrop]
  by_cases hempty : host = [] ∨ toSize (atol model undefined port) = 0
  · rw [if_pos hempty]
    refine ⟨⟨(nomatch ·), fun h => ?_⟩, rfl, rfl, (nomatch ·)⟩
    rcases hempty with hhost | hport
    · exact absurd hhost h.1
    · exact absurd hport h.2
  · rw [if_neg hempty]
    rw [not_or] at hempty
    exact ⟨⟨fun _ => hempty, fun _ => rfl⟩, rfl, rfl, fun _ => rfl⟩

/-! ## Ports -/

theorem isDigit_plain (c : UInt8) : isDigit c = true → isSpace c = false ∧ c ≠ '-'.toUInt8 ∧ c ≠ '+'.toUInt8 ∧
    c ≠ '/'.toUInt8 ∧ c ≠ ':'.toUInt8 ∧ c ≠ ']'.toUInt8 := by
  revert c
  exact uint8_forall (by decide +kernel)

theorem leadingNumber_digits (h : port.all isDigit = true) : leadingNumber port = number port := by
  cases port with
  | nil => rfl
  | cons c rest =>
    rw [List.all_cons, Bool.and_eq_true] at h
    obtain ⟨hspace, hminus, hplus, -⟩ := isDigit_plain c h.1
    have htake : (c :: rest).takeWhile isDigit = c :: rest := by
      rw [List.takeWhile_eq_self_iff, List.forall_mem_cons]
      exact ⟨h.1, List.all_eq_true.1 h.2⟩
    unfold leadingNumber
    rw [List.dropWhile_cons_of_neg (by simp [hspace])]
    dsimp only
    rw [if_neg hminus, if_neg hplus, htake]

theorem toSize_atol_digits (h : IsPort port) : toSize (atol model undefined port) = number port := by
  obtain ⟨hdigits, hpos, hle⟩ := h
  have hfits : -model.longMax - 1 ≤ leadingNumber port ∧ leadingNumber port ≤ model.longMax := by
    have hmax : 65535 ≤ model.longMax := by cases model <;> decide
    rw [leadingNumber_digits hdigits]
    omega
  unfold atol toSize
  rw [if_pos hfits, leadingNumber_digits hdigits]
  omega

/-- What reads as zero is zero, and the rest may be taken for a port. -/
theorem leadingNumber_eq_zero_iff :
    leadingNumber port = 0 ↔ ∀ undefined, toSize (atol model undefined port) = 0 := by
  have hmax : 0 < model.longMax ∧ model.longMax < 0x8000000000000000 := by cases model <;> decide
  unfold atol toSize
  constructor
  · intro h undefined
    rw [h, if_pos (by omega)]
    rfl
  · intro h
    have := h fun _ => 1
    split at this
    · omega
    · simp at this

/-! ## What is taken -/

theorem split_slash {s p : Bytes} (h : '/'.toUInt8 ∉ s) (hp : p = [] ∨ ∃ rest, p = '/'.toUInt8 :: rest) :
    (s ++ p).takeWhile (· ≠ '/'.toUInt8) = s ∧ (s ++ p).dropWhile (· ≠ '/'.toUInt8) = p := by
  have hs : ∀ c ∈ s, decide (c ≠ '/'.toUInt8) = true := by
    intro c hc
    rw [decide_eq_true_iff]
    rintro rfl
    exact h hc
  rw [List.takeWhile_append_of_pos hs, List.dropWhile_append_of_pos hs]
  rcases hp with rfl | ⟨rest, rfl⟩
  · simp
  · simp

theorem IsPort.ne_nil (h : IsPort port) : port ≠ [] := by
  rintro rfl
  exact absurd h.2.1 (by decide)

/-- The parts are those at the first slash. -/
theorem Denotes.authority_eq {p : Nat} (h : Denotes url host p path) :
    (∃ portText, authority url = host ++ portText ∧
      (portText = [] ∧ p = 80 ∨ ∃ text, portText = ':'.toUInt8 :: text ∧ IsPort text ∧ p = number text)) ∧
    path = if pathText url = [] then txt "/" else pathText url := by
  obtain ⟨portText, pathText', hurl, hport, hpath⟩ := h.parts
  have hslash : '/'.toUInt8 ∉ host ++ portText := by
    rw [List.mem_append, not_or]
    refine ⟨h.isHost.2.1, ?_⟩
    rcases hport with ⟨rfl, -⟩ | ⟨text, rfl, htext, -⟩
    · exact List.not_mem_nil
    · rw [List.mem_cons, not_or]
      refine ⟨by decide, fun hmem => ?_⟩
      exact (isDigit_plain _ (List.all_eq_true.1 htext.1 _ hmem)).2.2.2.1 rfl
  have hdrop : url.drop 7 = host ++ portText ++ pathText' := by
    rw [hurl, List.append_assoc (txt "http://"), List.append_assoc (txt "http://")]
    exact List.drop_left' (by decide)
  have hpath' : pathText' = [] ∨ ∃ rest, pathText' = '/'.toUInt8 :: rest := by
    rcases hpath with ⟨rfl, -⟩ | ⟨rfl, hrest⟩
    · exact .inl rfl
    · exact .inr hrest
  obtain ⟨htake, hrest⟩ := split_slash hslash hpath'
  refine ⟨⟨portText, by rw [authority, hdrop, htake], hport⟩, ?_⟩
  rw [pathText, hdrop, hrest]
  rcases hpath with ⟨rfl, hpath⟩ | ⟨rfl, rest, hpath⟩
  · rw [if_pos rfl, hpath]
  · rw [hpath, if_neg (List.cons_ne_nil _ _)]

/-- The port of a URL is the text after the last colon. -/
theorem Denotes.isPort {p : Nat} (h : Denotes url host p path) (hparts : authority url = host ++ ':'.toUInt8 :: port) :
    IsPort port := by
  obtain ⟨⟨portText, hauthority, hport⟩, -⟩ := h.authority_eq
  have hsame : portText = ':'.toUInt8 :: port := List.append_cancel_left (hauthority.symm.trans hparts)
  rcases hport with ⟨rfl, -⟩ | ⟨text, rfl, htext, -⟩
  · cases hsame
  · rwa [← (List.cons.inj hsame).2]

/-- A host is not another host and a port. -/
theorem IsHost.ne_append {host' : Bytes} (h : IsHost host) (hport : IsPort port) :
    host ≠ host' ++ ':'.toUInt8 :: port := by
  intro heq
  obtain ⟨address, hhost, -⟩ := h.2.2 (by rw [heq]; simp)
  have hlast := congrArg List.getLast? (hhost.symm.trans heq)
  rw [← List.cons_append, List.getLast?_concat, List.getLast?_append_cons, List.getLast?_cons_of_ne_nil hport.ne_nil,
    List.getLast?_eq_some_getLast hport.ne_nil, Option.some.injEq] at hlast
  have hmem : ']'.toUInt8 ∈ port := hlast ▸ List.getLast_mem hport.ne_nil
  exact (isDigit_plain _ (List.all_eq_true.1 hport.1 _ hmem)).2.2.2.2.2 rfl

/-- A URL has its parts in one way. -/
theorem Denotes.unique {host' path' : Bytes} {p p' : Nat} (h : Denotes url host p path)
    (h' : Denotes url host' p' path') : host = host' ∧ p = p' ∧ path = path' := by
  obtain ⟨⟨portText, hauthority, hport⟩, hpath⟩ := h.authority_eq
  obtain ⟨⟨portText', hauthority', hport'⟩, hpath'⟩ := h'.authority_eq
  have hsame := hauthority.symm.trans hauthority'
  suffices host = host' ∧ p = p' from ⟨this.1, this.2, hpath.trans hpath'.symm⟩
  rcases hport with ⟨rfl, rfl⟩ | ⟨text, rfl, htext, rfl⟩
  · rcases hport' with ⟨rfl, rfl⟩ | ⟨text', rfl, htext', rfl⟩
    · simpa using hsame
    · rw [List.append_nil] at hsame
      exact absurd hsame (h.isHost.ne_append htext')
  · rcases hport' with ⟨rfl, rfl⟩ | ⟨text', rfl, htext', rfl⟩
    · rw [List.append_nil] at hsame
      exact absurd hsame.symm (h'.isHost.ne_append htext)
    · have hcolon (text : Bytes) (h : IsPort text) : ':'.toUInt8 ∉ text := fun hmem =>
        (isDigit_plain _ (List.all_eq_true.1 h.1 _ hmem)).2.2.2.2.1 rfl
      obtain ⟨hhost, htexts⟩ := append_cons_inj (hcolon text htext) (hcolon text' htext') hsame
      exact ⟨hhost, congrArg number htexts⟩

/-- The URL put together again is for the same. -/
theorem denotes_request {u : HttpUrl} (hhost : IsHost u.host) (hport : 1 ≤ u.port ∧ u.port ≤ 65535)
    (hpath : ∃ rest, u.path = '/'.toUInt8 :: rest) :
    Denotes u.request.url u.request.host u.request.port u.request.path ∧
      u.request.host = u.host ∧ u.request.port = u.port ∧ u.request.path = u.path := by
  have hmod : u.request.port = u.port := Nat.mod_eq_of_lt (Nat.lt_succ_of_le hport.2)
  refine ⟨⟨hhost, if u.port = 80 then [] else txt ":" ++ decimal u.port, u.path, rfl, ?_, .inr ⟨rfl, hpath⟩⟩,
    rfl, hmod, rfl⟩
  rw [hmod]
  split
  · next h => exact .inl ⟨rfl, h⟩
  · refine .inr ⟨decimal u.port, rfl, ⟨?_, ?_⟩, (number_decimal _).symm⟩
    · rw [List.all_eq_true]
      intro c hc
      obtain ⟨h48, h58⟩ := mem_decimal hc
      unfold isDigit
      rw [Bool.and_eq_true, decide_eq_true_iff, decide_eq_true_iff, UInt8.le_iff_toNat_le, UInt8.le_iff_toNat_le]
      exact ⟨h48, Nat.le_of_lt_succ h58⟩
    · rw [number_decimal]
      exact hport

/-- A host, and a port if there is one, denote what the URL does. -/
theorem denotes_parts {p : Nat} (hpre : txt "http://" <+: url) (hhost : IsHost host)
    (hport : authority url = host ∧ p = 80 ∨
      ∃ text, authority url = host ++ ':'.toUInt8 :: text ∧ IsPort text ∧ p = number text) :
    Denotes url host p (if pathText url = [] then txt "/" else pathText url) := by
  have hpath : pathText url = [] ∧ (if pathText url = [] then txt "/" else pathText url) = txt "/" ∨
      pathText url = (if pathText url = [] then txt "/" else pathText url) ∧
        ∃ rest, (if pathText url = [] then txt "/" else pathText url) = '/'.toUInt8 :: rest := by
    rcases pathText_eq url with h | ⟨rest, h⟩
    · exact .inl ⟨h, if_pos h⟩
    · have hne : pathText url ≠ [] := by
        rw [h]
        exact List.cons_ne_nil _ _
      rw [if_neg hne]
      exact .inr ⟨rfl, rest, h⟩
  have hurl := eq_parts hpre
  rcases hport with ⟨hauthority, hp⟩ | ⟨text, hauthority, htext, hp⟩
  · rw [hauthority, ← List.append_assoc] at hurl
    exact ⟨hhost, [], pathText url, by rwa [List.append_nil], .inl ⟨rfl, hp⟩, hpath⟩
  · rw [hauthority, ← List.append_assoc, ← List.append_assoc] at hurl
    exact ⟨hhost, ':'.toUInt8 :: text, pathText url, hurl, .inr ⟨text, rfl, htext, hp⟩, hpath⟩

theorem pathOrSlash (url : Bytes) :
    ∃ rest, (if pathText url = [] then txt "/" else pathText url) = '/'.toUInt8 :: rest := by
  rcases pathText_eq url with h | ⟨rest, h⟩
  · exact ⟨[], if_pos h⟩
  · rw [h, if_neg (List.cons_ne_nil _ _)]
    exact ⟨rest, rfl⟩

/-- What is taken for a URL denotes what it is parsed to exactly where the last colon is
before a port. -/
theorem exact_iff (model : DataModel) (url : Bytes) :
    (∀ undefined, Exact url (parseHttpUrl model undefined url)) ↔ PlainPort url := by
  constructor
  · intro h hpre host port hparts hcolon hhost hread
    obtain ⟨undefined, hne⟩ : ∃ undefined, toSize (atol model undefined port) ≠ 0 := by
      have hzero : leadingNumber port = 0 ↔ ∀ undefined, toSize (atol model undefined port) = 0 :=
        leadingNumber_eq_zero_iff
      rw [Ne, hzero, not_forall] at hread
      exact hread
    obtain ⟨hok, hhost', -⟩ := parse_colon model undefined hpre hparts hcolon
    have hdenotes := (h undefined (hok.2 ⟨hhost, hne⟩)).1
    rw [hhost'] at hdenotes
    exact ⟨hdenotes.isHost, hdenotes.isPort hparts⟩
  · intro h undefined hok
    have hpre : txt "http://" <+: url := by
      by_contra hpre
      rw [parseHttpUrl, if_pos hpre] at hok
      cases hok
    by_cases hcolon : ':'.toUInt8 ∈ authority url
    · obtain ⟨host, port, hparts, hcolon⟩ := exists_last hcolon
      obtain ⟨hiff, hhost, hport, hpath⟩ := parse_colon model undefined hpre hparts hcolon
      obtain ⟨hne, hport0⟩ := hiff.1 hok
      have hread : leadingNumber port ≠ 0 := fun h0 => hport0 (leadingNumber_eq_zero_iff.1 h0 undefined)
      obtain ⟨hisHost, hisPort⟩ := h hpre host port hparts hcolon hne hread
      rw [toSize_atol_digits hisPort] at hport
      refine ⟨?_, denotes_request ?_ ?_ ?_⟩
      · rw [hhost, hport, hpath hok]
        exact denotes_parts hpre hisHost (.inr ⟨port, hparts, hisPort, rfl⟩)
      · rwa [hhost]
      · rw [hport]
        exact hisPort.2
      · rw [hpath hok]
        exact pathOrSlash url
    · obtain ⟨hne, hhost, hport, hpath⟩ := parse_noColon hpre hcolon hok
      have hisHost : IsHost (authority url) := ⟨hne, slash_notMem_authority url, fun h => absurd h hcolon⟩
      refine ⟨?_, denotes_request ?_ ?_ ?_⟩
      · rw [hhost, hport, hpath]
        exact denotes_parts hpre hisHost (.inl ⟨rfl, rfl⟩)
      · rwa [hhost]
      · rw [hport]
        decide
      · rw [hpath]
        exact pathOrSlash url

/-- A port with letters behind it is taken for 80, and the request is for another URL. -/
theorem junk_port_taken : ¬ ∀ (model : DataModel) (undefined : Bytes → Int) (url : Bytes),
    Exact url (parseHttpUrl model undefined url) := by
  intro h
  have hhost : (parseHttpUrl .lp64 (fun _ => 0) (txt "http://example.com:80abc/")).host = txt "example.com" := by
    decide +kernel
  have hdenotes := (h .lp64 (fun _ => 0) (txt "http://example.com:80abc/") (by decide +kernel)).1
  rw [hhost] at hdenotes
  have hport : IsPort (txt "80abc") := hdenotes.isPort (by decide +kernel)
  exact absurd hport.1 (by decide)

end NgxLuaCpp.Http
