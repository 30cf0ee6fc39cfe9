import NgxLuaCpp.Base64
import NgxLuaCpp.Hmac
import NgxLuaCpp.Lib.LuaPattern
import Mathlib.Order.Defs.LinearOrder
import Mathlib.Data.Int.Cast.Defs
/-!
# Tokens

`jwt.lua` on the signatures of `Hmac` and the text of `Base64`. JSON is the
bundled cjson's: tables are read and written through two functions of which we
assume only that one undoes the other.
-/

namespace NgxLuaCpp.Jwt

/-! ## Lua values -/

/-- What Lua's arithmetic offers; `toNumber` reads a numeral. -/
class LuaNumber (N : Type) extends LinearOrder N, Add N, Sub N, IntCast N where
  toNumber : Bytes → Option N

/-- A key of a Lua table. -/
inductive LuaKey (N : Type) where
  | string (s : Bytes)
  | number (n : N)
  | boolean (b : Bool)
  deriving DecidableEq

/-- A value JSON can spell; `null` is `cjson.null`, and a table is what indexing it gives. -/
inductive LuaValue (N : Type) where
  | nil
  | null
  | boolean (b : Bool)
  | number (n : N)
  | string (s : Bytes)
  | table (get : LuaKey N → LuaValue N)

/-- What indexing a table gives. -/
abbrev LuaTable (N : Type) := LuaKey N → LuaValue N

def key {N : Type} (name : String) : LuaKey N := .string (txt name)

/-- `cjson.safe`, which returns `nil` for what it cannot encode or decode. -/
structure Cjson (N : Type) where
  encode : LuaValue N → Option Bytes
  decode : Bytes → Option (LuaValue N)

variable {N : Type} [LuaNumber N]

/-! ## Signing -/

/-- The header of every token. -/
def header : LuaTable N :=
  Function.update (Function.update (fun _ => .nil) (key "alg") (.string (txt "HS256"))) (key "typ")
    (.string (txt "JWT"))

/-- The payload with its two times. -/
def stamped (payload : Option (LuaTable N)) (now : Int) (ttlSeconds : Option N) : LuaTable N :=
  let payload := payload.getD fun _ => .nil
  let payload := Function.update payload (key "iat") (.number now)
  Function.update payload (key "exp") (.number (now + ttlSeconds.getD (3600 : Int)))

/-- `M.sign` at the time `now`; `none` is an error raised. -/
def sign (cjson : Cjson N) (now : Int) (payload : Option (LuaTable N)) (secret : Bytes) (ttlSeconds : Option N) :
    Option Bytes := do
  let payload := stamped payload now ttlSeconds
  let head ← cjson.encode (.table header)
  let h := base64urlEncode head
  let body ← cjson.encode (.table payload)
  let p := base64urlEncode body
  let signingInput := h ++ txt "." ++ p
  let mac ← hmacSha256Raw secret signingInput
  let sig := base64urlEncode mac
  return signingInput ++ txt "." ++ sig

/-! ## Verifying -/

/-- `%S`. -/
def nonSpace (c : UInt8) : Bool := !(c == 32 || 9 ≤ c && c ≤ 13)

def dot (c : UInt8) : Bool := c == '.'.toUInt8

/-- `^(%S+)%.(%S+)%.(%S+)$`. -/
def tokenPattern : List (LuaPattern.Item UInt8) := [.many nonSpace, .one dot, .many nonSpace, .one dot, .many nonSpace]

/-- What `M.verify` returns, or an error raised. -/
inductive Verified (N : Type) where
  | payload (t : LuaTable N)
  | rejected (err : Bytes)
  | raised

/-- `payload.exp and now >= payload.exp`. -/
def expired (payload : LuaTable N) (now : Int) : Option Bool :=
  match payload (key "exp") with
  | .nil | .boolean false => some false
  | .number exp => some (exp ≤ (now : N))
  | _ => none

/-- `payload.iat and now < payload.iat - 60`; a subtraction reads numerals. -/
def premature (payload : LuaTable N) (now : Int) : Option Bool :=
  match payload (key "iat") with
  | .nil | .boolean false => some false
  | .number iat => some ((now : N) < iat - ((60 : Int) : N))
  | .string s => (LuaNumber.toNumber s).map fun iat => decide ((now : N) < iat - ((60 : Int) : N))
  | _ => none

/-- The checks of `exp` and `iat`, with their errors. -/
def checkTimes (payload : LuaTable N) (now : Int) : Verified N :=
  match expired payload now with
  | none => .raised
  | some true => .rejected (txt "token expired")
  | some false =>
    match premature payload now with
    | none => .raised
    | some true => .rejected (txt "token not yet valid")
    | some false => .payload payload

/-- `M.verify` at the time `now`. -/
def verify (cjson : Cjson N) (now : Int) (token : LuaValue N) (secret : Bytes) : Verified N :=
  match token with
  | .string token =>
    match LuaPattern.matchHere true tokenPattern token with
    | some ([h, p, sig], _) =>
      match hmacSha256Raw secret (h ++ txt "." ++ p) with
      | none => .raised
      | some mac =>
        let expected := base64urlEncode mac
        if expected ≠ sig then .rejected (txt "bad signature")
        else
          let (payloadRaw, decErr) := base64urlDecode p
          if decErr ≠ [] then .rejected (txt "bad payload encoding")
          else
            match cjson.decode payloadRaw with
            | some (.table payload) => checkTimes payload now
            | _ => .rejected (txt "bad payload json")
    | _ => .rejected (txt "malformed token")
  | _ => .rejected (txt "missing token")

/-! ## The split -/

theorem txt_dot : txt "." = ['.'.toUInt8] := by decide

theorem dot_eq {c : UInt8} (h : dot c = true) : c = '.'.toUInt8 := by simpa [dot] using h

/-- The pattern splits a token at two dots. -/
theorem matches_token_iff {s rest : Bytes} {caps : List Bytes} :
    LuaPattern.Matches true tokenPattern s caps rest ↔ ∃ h p sig, caps = [h, p, sig] ∧ rest = [] ∧
      s = h ++ txt "." ++ p ++ txt "." ++ sig ∧ h ≠ [] ∧ p ≠ [] ∧ sig ≠ [] ∧
      (∀ c ∈ h ++ p ++ sig, nonSpace c = true) := by
  rw [txt_dot]
  constructor
  · intro m
    cases m with | @many _ h _ _ _ _ hh hhs m =>
    cases m with | one hd m =>
    cases m with | @many _ p _ _ _ _ hp hps m =>
    cases m with | one hd' m =>
    cases m with | @many _ sig _ _ _ _ hs hss m =>
    cases m with | nil hend =>
    obtain rfl := hend rfl
    rw [dot_eq hd, dot_eq hd']
    refine ⟨h, p, sig, rfl, rfl, by simp, hh, hp, hs, ?_⟩
    simp only [List.mem_append]
    rintro c ((hc | hc) | hc)
    · exact hhs c hc
    · exact hps c hc
    · exact hss c hc
  · rintro ⟨h, p, sig, rfl, rfl, rfl, hh, hp, hs, hns⟩
    simp only [List.mem_append] at hns
    have m : LuaPattern.Matches true tokenPattern (h ++ '.'.toUInt8 :: (p ++ '.'.toUInt8 :: (sig ++ [])))
        [h, p, sig] [] := by
      refine .many hh (fun c hc => hns c (.inl (.inl hc))) (.one rfl ?_)
      refine .many hp (fun c hc => hns c (.inl (.inr hc))) (.one rfl ?_)
      exact .many hs (fun c hc => hns c (.inr hc)) (.nil fun _ => rfl)
    simpa using m

/-- A dot in none of the three parts leaves one way to split. -/
theorem split_unique {h p sig h' p' sig' : Bytes} (hdots : '.'.toUInt8 ∉ h ++ p ++ sig)
    (e : h' ++ txt "." ++ p' ++ txt "." ++ sig' = h ++ txt "." ++ p ++ txt "." ++ sig) :
    h' = h ∧ p' = p ∧ sig' = sig := by
  rw [txt_dot] at e
  have hcount := congrArg (List.count '.'.toUInt8) e
  have hzero := List.count_eq_zero_of_not_mem hdots
  simp only [List.count_append, List.count_singleton_self] at hcount hzero
  have hdots' : '.'.toUInt8 ∉ h' ++ p' ++ sig' := by
    rw [← List.count_eq_zero, List.count_append, List.count_append]
    omega
  simp only [List.mem_append, not_or] at hdots hdots'
  obtain ⟨ehp, esig⟩ := append_cons_inj hdots'.2 hdots.2
    ((List.append_cons ..).trans (e.trans (List.append_cons ..).symm))
  obtain ⟨eh, ep⟩ := append_cons_inj hdots'.1.2 hdots.1.2
    ((List.append_cons ..).trans (ehp.trans (List.append_cons ..).symm))
  exact ⟨eh, ep, esig⟩

theorem UrlSafe.ne_dot {c : UInt8} (h : UrlSafe c) : c ≠ '.'.toUInt8 := by
  rintro rfl
  exact absurd h (by decide)

theorem UrlSafe.nonSpace {c : UInt8} (h : UrlSafe c) : nonSpace c = true := by
  have hall : ∀ n < 256, UrlSafe (UInt8.ofNat n) → Jwt.nonSpace (UInt8.ofNat n) = true := by decide +kernel
  exact uint8_forall (P := fun c => UrlSafe c → Jwt.nonSpace c = true) hall c h

theorem base64urlEncode_ne_nil {x : Bytes} (h : x ≠ []) : base64urlEncode x ≠ [] := by
  rw [← List.length_pos_iff] at h ⊢
  rw [length_base64urlEncode]
  omega

/-- The parts of a signed token are those that were joined. -/
theorem match_joined {h p sig : Bytes} (hh : h ≠ []) (hp : p ≠ []) (hs : sig ≠ []) :
    LuaPattern.matchHere true tokenPattern
        (base64urlEncode h ++ txt "." ++ base64urlEncode p ++ txt "." ++ base64urlEncode sig)
      = some ([base64urlEncode h, base64urlEncode p, base64urlEncode sig], []) := by
  have hsafe : ∀ c ∈ base64urlEncode h ++ base64urlEncode p ++ base64urlEncode sig, UrlSafe c := by
    simp only [List.mem_append]
    rintro c ((hc | hc) | hc)
    all_goals exact base64urlEncode_safe _ c hc
  apply LuaPattern.matchHere_eq
  · exact matches_token_iff.2 ⟨_, _, _, rfl, rfl, rfl, base64urlEncode_ne_nil hh, base64urlEncode_ne_nil hp,
      base64urlEncode_ne_nil hs, fun c hc => UrlSafe.nonSpace (hsafe c hc)⟩
  · intro caps' rest' m
    obtain ⟨h', p', sig', rfl, rfl, e, -⟩ := matches_token_iff.1 m
    obtain ⟨rfl, rfl, rfl⟩ := split_unique (fun hd => UrlSafe.ne_dot (hsafe _ hd) rfl) e.symm
    exact ⟨rfl, rfl⟩

/-! ## Both directions -/

theorem stamped_iat (payload : Option (LuaTable N)) (now : Int) (ttlSeconds : Option N) :
    stamped payload now ttlSeconds (key "iat") = .number (now : N) := by
  have hne : (key "iat" : LuaKey N) ≠ key "exp" := by
    intro e
    exact absurd (LuaKey.string.inj e) (by decide)
  rw [stamped, Function.update_of_ne hne, Function.update_self]

theorem stamped_exp (payload : Option (LuaTable N)) (now : Int) (ttlSeconds : Option N) :
    stamped payload now ttlSeconds (key "exp") = .number ((now : N) + ttlSeconds.getD ((3600 : Int) : N)) := by
  rw [stamped, Function.update_self]

/-- The two time checks on a payload that `sign` stamped. -/
theorem checkTimes_stamped (payload : Option (LuaTable N)) (t₀ t : Int) (ttlSeconds : Option N) :
    checkTimes (stamped payload t₀ ttlSeconds) t = .payload (stamped payload t₀ ttlSeconds) ↔
      (t₀ : N) - ((60 : Int) : N) ≤ (t : N) ∧ (t : N) < (t₀ : N) + ttlSeconds.getD ((3600 : Int) : N) := by
  rw [checkTimes, expired, stamped_exp, premature, stamped_iat]
  by_cases hexp : (t₀ : N) + ttlSeconds.getD ((3600 : Int) : N) ≤ (t : N)
  · simp [hexp]
  · by_cases hiat : (t : N) < (t₀ : N) - ((60 : Int) : N)
    · simp [hexp, hiat]
    · simp [hexp, hiat, not_lt.1 hiat, not_le.1 hexp]

theorem sign_eq {cjson : Cjson N} {payload : Option (LuaTable N)} {t₀ : Int} {ttlSeconds : Option N} {hj pj : Bytes}
    (hh : cjson.encode (.table header) = some hj)
    (hp : cjson.encode (.table (stamped payload t₀ ttlSeconds)) = some pj) (secret : Bytes) :
    sign cjson t₀ payload secret ttlSeconds = some (base64urlEncode hj ++ txt "." ++ base64urlEncode pj ++ txt "." ++
      base64urlEncode (Sha2.hmac Sha2.sha256 64 secret (base64urlEncode hj ++ txt "." ++ base64urlEncode pj))) := by
  rw [sign]
  simp only [hh, hp, (hmac_correct _ _).1, Option.bind_eq_bind, Option.bind_some, Option.pure_def]

theorem verify_joined {cjson : Cjson N} {h p : Bytes} {T : LuaTable N} (hh : h ≠ []) (hp : p ≠ [])
    (hd : cjson.decode p = some (.table T)) (secret : Bytes) (t : Int) :
    verify cjson t (.string (base64urlEncode h ++ txt "." ++ base64urlEncode p ++ txt "." ++
        base64urlEncode (Sha2.hmac Sha2.sha256 64 secret (base64urlEncode h ++ txt "." ++ base64urlEncode p)))) secret
      = checkTimes T t := by
  have hmac := hmac_correct secret (base64urlEncode h ++ txt "." ++ base64urlEncode p)
  have hs : Sha2.hmac Sha2.sha256 64 secret (base64urlEncode h ++ txt "." ++ base64urlEncode p) ≠ [] := by
    rw [← List.length_pos_iff, hmac.2.1]
    decide
  simp only [verify, match_joined hh hp hs, hmac.1, base64urlDecode_encode, hd, ne_eq, not_true_eq_false, if_false]

theorem checkTimes_payload {payload T : LuaTable N} {t : Int} (h : checkTimes payload t = .payload T) :
    payload = T := by
  unfold checkTimes at h
  split at h
  · simp at h
  · simp at h
  · split at h
    · simp at h
    · simp at h
    · simpa using h

/-- Whatever the token, a payload is returned only under its signature. -/
theorem verify_payload {cjson : Cjson N} {t : Int} {token secret : Bytes} {T : LuaTable N}
    (hv : verify cjson t (.string token) secret = .payload T) :
    ∃ h p sig, token = h ++ txt "." ++ p ++ txt "." ++ sig ∧
      sig = base64urlEncode (Sha2.hmac Sha2.sha256 64 secret (h ++ txt "." ++ p)) ∧
      ∃ raw, base64urlDecode p = (raw, []) ∧ cjson.decode raw = some (.table T) := by
  simp only [verify] at hv
  split at hv
  · rename_i h p sig rest hm
    obtain ⟨h', p', sig', hcaps, -, htoken, -⟩ := matches_token_iff.1 (LuaPattern.matchHere_sound hm)
    obtain ⟨rfl, rfl, rfl⟩ : h = h' ∧ p = p' ∧ sig = sig' := by simpa using hcaps
    rw [(hmac_correct _ _).1] at hv
    simp only at hv
    split at hv
    · simp at hv
    · rename_i hsig
      split at hv
      · simp at hv
      · rename_i hdec
        split at hv
        · rename_i payload hjson
          obtain rfl := checkTimes_payload hv
          refine ⟨h, p, sig, htoken, (not_not.1 hsig).symm, _, ?_, hjson⟩
          rw [← not_not.1 hdec]
        · simp at hv
  · simp at hv

/-- If cjson reads back what it writes, a signed token verifies under its
secret exactly from a minute before its issue until it expires. No other token
verifies than one signed with the secret, and it gives what was signed. -/
theorem jwt_correct (cjson : Cjson N) :
    (∀ Encodable : LuaValue N → Prop,
      (∀ v, Encodable v → ∃ s, s ≠ [] ∧ cjson.encode v = some s ∧ cjson.decode s = some v) →
      Encodable (.table header) →
      ∀ (payload : Option (LuaTable N)) (secret : Bytes) (ttlSeconds : Option N) (t₀ : Int),
        Encodable (.table (stamped payload t₀ ttlSeconds)) →
        ∃ token, sign cjson t₀ payload secret ttlSeconds = some token ∧
          ∀ t : Int, verify cjson t (.string token) secret = .payload (stamped payload t₀ ttlSeconds) ↔
            (t₀ : N) - ((60 : Int) : N) ≤ (t : N) ∧ (t : N) < (t₀ : N) + ttlSeconds.getD ((3600 : Int) : N)) ∧
    (∀ (t : Int) (token secret : Bytes) (T : LuaTable N), verify cjson t (.string token) secret = .payload T →
      ∃ h p sig, token = h ++ txt "." ++ p ++ txt "." ++ sig ∧
        sig = base64urlEncode (Sha2.hmac Sha2.sha256 64 secret (h ++ txt "." ++ p)) ∧
        ∃ raw, base64urlDecode p = (raw, []) ∧ cjson.decode raw = some (.table T)) := by
  refine ⟨?_, fun t token secret T => verify_payload⟩
  intro Encodable hcjson hheader payload secret ttlSeconds t₀ hpayload
  obtain ⟨hj, hjne, hjenc, -⟩ := hcjson _ hheader
  obtain ⟨pj, pjne, pjenc, pjdec⟩ := hcjson _ hpayload
  refine ⟨_, sign_eq hjenc pjenc secret, ?_⟩
  intro t
  rw [verify_joined hjne pjne pjdec, checkTimes_stamped]

/-! ## A token -/

/-- Lua's numbers on integers, with numerals in decimal. -/
instance intLuaNumber : LuaNumber Int where
  toNumber s := if s ≠ [] ∧ s.all (fun c => 48 ≤ c && c ≤ 57) then some (number s) else none

def headerText : Bytes := txt "\x7b\"alg\":\"HS256\",\"typ\":\"JWT\"\x7d"

def payloadText : Bytes := txt "\x7b\"user\":\"alice\",\"iat\":1000,\"exp\":1060\x7d"

def alice : LuaTable Int := Function.update (fun _ => .nil) (key "user") (.string (txt "alice"))

/-- cjson on the two tables of a token for `alice`, signed at 1000 for a minute. -/
def aliceCjson : Cjson Int where
  encode
    | .table get =>
      match get (key "alg") with
      | .string _ => some headerText
      | _ => some payloadText
    | _ => none
  decode s :=
    if s = headerText then some (.table header)
    else if s = payloadText then some (.table (stamped (some alice) 1000 (some 60)))
    else none

theorem alice_verifies : stamped (some alice) 1000 (some 60) (key "user") = .string (txt "alice") ∧
    ∃ token, sign aliceCjson 1000 (some alice) (txt "secret") (some 60) = some token ∧
      ∀ t : Int, verify aliceCjson t (.string token) (txt "secret") = .payload (stamped (some alice) 1000 (some 60)) ↔
        (1000 : Int) - 60 ≤ t ∧ t < 1000 + 60 := by
  refine ⟨rfl, (jwt_correct aliceCjson).1
    (fun v => v = .table header ∨ v = .table (stamped (some alice) 1000 (some 60))) ?_ (.inl rfl) (some alice)
    (txt "secret") (some 60) 1000 (.inr rfl)⟩
  rintro v (rfl | rfl)
  · exact ⟨headerText, by decide, by decide, rfl⟩
  · exact ⟨payloadText, by decide, by decide, rfl⟩

end NgxLuaCpp.Jwt
