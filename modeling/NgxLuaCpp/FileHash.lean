import NgxLuaCpp.Sha256
import NgxLuaCpp.Lib.Outside
import Mathlib.Data.Rat.Defs
/-!
# A file opened, hashed and closed

On Windows `ngx_file_open_read` makes a handle a descriptor and that a `FILE`, each
of which owns the one before. We show what `file_sha256` returns in every run, and
when it leaves something open. `fread` may deliver what it likes: a read that fails ends
the loop as the end of the file does. We follow the loop for a number of reads.
-/
open Trace Outside Outside.Program

namespace NgxLuaCpp.FileHash

/-- What is held of the system while a file is hashed. -/
inductive Resource where
  | handle (h : Nat)
  | fd (fd : Nat)
  | file (f : Nat)
  deriving DecidableEq

/-- The calls to the system, with what is passed to them. -/
inductive Call where
  | createFile (path : Bytes)
  | openOsfhandle (h : Nat)
  | closeHandle (h : Nat)
  | fdopen (fd : Nat)
  | fopen (path : Bytes)
  | fread (f : Nat)
  | fclose (f : Nat)
  | now

/-- What was opened, if the call did not fail, and what was read, nothing at the end or
on an error. -/
abbrev Answer : Call → Type
  | .createFile _ | .openOsfhandle _ | .fdopen _ | .fopen _ => Option Nat
  | .fread _ => { buf : Bytes // buf.length ≤ 65536 }
  | .now => ℚ
  | _ => Unit

abbrev Run := Program Call Answer

abbrev Log := List (Event Call Answer)

def createFile (path : Bytes) : Run (Option Nat) := perform (Call.createFile path)

def openOsfhandle (h : Nat) : Run (Option Nat) := perform (Call.openOsfhandle h)

def closeHandle (h : Nat) : Run Unit := perform (Call.closeHandle h)

def fdopen (fd : Nat) : Run (Option Nat) := perform (Call.fdopen fd)

def fopen (path : Bytes) : Run (Option Nat) := perform (Call.fopen path)

def fread (f : Nat) : Run { buf : Bytes // buf.length ≤ 65536 } := perform (Call.fread f)

def fclose (f : Nat) : Run Unit := perform (Call.fclose f)

def now : Run ℚ := perform Call.now

/-- `ngx_file_open_read` -/
def openRead (platform : Platform) (path : Bytes) : Run (Option Nat) :=
  match platform with
  | .windows => do
    match ← createFile path with
    | none => return none
    | some h =>
      match ← openOsfhandle h with
      | none =>
        closeHandle h
        return none
      | some fd => fdopen fd
  | .posix => fopen path

/-- The `fread` loop, which also counts the bytes; none when it has not ended after `reads`. -/
def hashFile (f : Nat) : Nat → Sha256Ctx → Nat → Run (Option (Sha256Ctx × Nat))
  | 0, _, _ => return none
  | reads + 1, ctx, size => do
    let buf ← fread f
    if 0 < buf.1.length then hashFile f reads (sha256Update ctx buf.1) (size + buf.1.length)
    else return some (ctx, size)

/-- `file_sha256` on the pool: the digest, the size, the time it took. -/
def fileSha256 (platform : Platform) (path : Bytes) (reads : Nat) : Run (Option (Bytes × Nat × ℚ)) := do
  let t0 ← now
  match ← openRead platform path with
  | none =>
    let t1 ← now
    return some (txt "file not found", 0, t1 - t0)
  | some f =>
    match ← hashFile f reads sha256Init 0 with
    | none => return none
    | some (ctx, size) =>
      fclose f
      let t1 ← now
      return some (sha256FinalHex ctx, size, t1 - t0)

/-- Which calls make a resource and which give it back. -/
def account : Account Call Answer Resource where
  takes
    | .createFile _, h => h.map .handle
    | .openOsfhandle _, fd => fd.map .fd
    | .fdopen _, f | .fopen _, f => f.map .file
    | _, _ => none
  uses
    | .openOsfhandle h => {.handle h}
    | .fdopen fd => {.fd fd}
    | .fread f => {.file f}
    | _ => 0
  gives
    -- what owns it from then on is given back in its place
    | .openOsfhandle h, some _ => some (.handle h)
    | .fdopen fd, some _ => some (.fd fd)
    | .closeHandle h, _ => some (.handle h)
    | .fclose f, _ => some (.file f)
    | _, _ => none

/-- The file that was opened. -/
def opened (log : Log) : Option Nat := log.findSome? fun
  | ⟨.fdopen _, (f : Option Nat)⟩ | ⟨.fopen _, (f : Option Nat)⟩ => f
  | _ => none

/-- What each read delivered. -/
def delivered (log : Log) : List Bytes := log.filterMap fun
  | ⟨.fread _, (buf : { buf : Bytes // buf.length ≤ 65536 })⟩ => some buf.1
  | _ => none

/-- The descriptors of which no `FILE` could be made. -/
def stranded (log : Log) : List Resource := log.filterMap fun
  | ⟨.fdopen fd, (none : Option Nat)⟩ => some (.fd fd)
  | _ => none

/-- Where a run is: what it holds, what it has opened and what of that it has lost, and what
it has read. -/
structure At (start : Multiset Resource) (log : Log) (m : Multiset Resource) (file : Option Nat)
    (lost : List Resource) (blocks : List Bytes) : Prop where
  held : account.held start log = m
  opened : opened log = file
  stranded : stranded log = lost
  delivered : delivered log = blocks

variable {start m : Multiset Resource} {log : Log} {file : Option Nat} {lost : List Resource} {blocks : List Bytes}
  {k : Call} {platform : Platform}

theorem At.call (h : At start log m file lost blocks) (e : Event Call Answer) :
    At start (log ++ [e]) (account.after m e) (file.or (FileHash.opened [e])) (lost ++ FileHash.stranded [e])
      (blocks ++ FileHash.delivered [e]) := by
  refine ⟨?_, ?_, ?_, ?_⟩
  · rw [Account.held_concat, h.held]
  · rw [FileHash.opened, List.findSome?_append, ← FileHash.opened, h.opened]
    rfl
  · rw [FileHash.stranded, List.filterMap_append, ← FileHash.stranded, h.stranded]
    rfl
  · rw [FileHash.delivered, List.filterMap_append, ← FileHash.delivered, h.delivered]
    rfl

theorem At.may (h : At start log m file lost blocks) (huses : ∀ r ∈ account.uses k, r ∈ m)
    (hgives : ∀ a, ∀ r ∈ account.gives k a, r ∈ m) : account.may start log k := by
  rw [Account.may, h.held]
  exact ⟨huses, hgives⟩

/-- Opening gives the file, or nothing and what the failed calls have left open. -/
theorem wp_openRead {path : Bytes} {Q : Log → Option Nat → Prop} (h : At start log start none [] [])
    (hnone : ∀ log m lost, At start log m none lost [] → m = ↑lost + start → Q log none)
    (hsome : ∀ log f, At start log (.file f ::ₘ start) (some f) [] [] → Q log (some f)) :
    (openRead platform path).wp (account.may start) Q log := by
  cases platform with
  | posix =>
    refine ⟨h.may nofun nofun, fun f => ?_⟩
    have hopened := h.call ⟨.fopen path, f⟩
    cases f with
    | none => exact hnone _ start [] hopened (zero_add start).symm
    | some f => exact hsome _ f hopened
  | windows =>
    rw [openRead]
    refine wp_call (h.may nofun nofun) fun handle => ?_
    have hcreated := h.call ⟨.createFile path, handle⟩
    cases handle with
    | none => exact hnone _ start [] hcreated (zero_add start).symm
    | some handle =>
      have hcreated : At start _ (.handle handle ::ₘ start) none [] [] := hcreated
      simp only
      refine wp_call (hcreated.may ?_ ?_) fun fd => ?_
      · exact fun r hr => Multiset.mem_singleton.1 hr ▸ Multiset.mem_cons_self _ _
      · rintro (_ | a) r ⟨⟩
        exact Multiset.mem_cons_self _ _
      have hfd := hcreated.call ⟨.openOsfhandle handle, fd⟩
      cases fd with
      | none =>
        have hfd : At start _ (.handle handle ::ₘ start) none [] [] := hfd
        refine wp_call (hfd.may nofun ?_) fun r => hnone _ start [] ?_ (zero_add start).symm
        · rintro a r ⟨⟩
          exact Multiset.mem_cons_self _ _
        · have hclosed := hfd.call ⟨.closeHandle handle, r⟩
          have herase : account.after (.handle handle ::ₘ start) ⟨.closeHandle handle, r⟩ = start :=
            account.after_gives rfl
          rw [herase] at hclosed
          exact hclosed
      | some fd =>
        have herase : account.after (.handle handle ::ₘ start) ⟨.openOsfhandle handle, some fd⟩ = .fd fd ::ₘ start :=
          account.after_gives rfl
        rw [herase] at hfd
        simp only
        refine ⟨hfd.may ?_ ?_, fun f => ?_⟩
        · exact fun r hr => Multiset.mem_singleton.1 hr ▸ Multiset.mem_cons_self _ _
        · rintro (_ | a) r ⟨⟩
          exact Multiset.mem_cons_self _ _
        · have hmade := hfd.call ⟨.fdopen fd, f⟩
          cases f with
          | none => exact hnone _ (.fd fd ::ₘ start) [.fd fd] hmade (Multiset.singleton_add _ _).symm
          | some f =>
            have herase : account.after (.fd fd ::ₘ start) ⟨.fdopen fd, some f⟩ = .file f ::ₘ start :=
              account.after_gives rfl
            rw [herase] at hmade
            exact hsome _ f hmade

/-- The loop hashes and counts what it reads, until a read delivers nothing. -/
theorem wp_hashFile {f : Nat} {Q : Log → Option (Sha256Ctx × Nat) → Prop} (reads : Nat) {ctx : Sha256Ctx}
    (h : At start log (.file f ::ₘ start) (some f) [] blocks) (hctx : ctx.Holds blocks.flatten)
    (hblocks : ∀ b ∈ blocks, b ≠ [])
    (hnone : ∀ log more, At start log (.file f ::ₘ start) (some f) [] (blocks ++ more) → more.length = reads →
      (∀ b ∈ blocks ++ more, b ≠ []) → Q log none)
    (hsome : ∀ log ctx blocks, At start log (.file f ::ₘ start) (some f) [] (blocks ++ [[]]) →
      ctx.Holds blocks.flatten → (∀ b ∈ blocks, b ≠ []) → Q log (some (ctx, blocks.flatten.length))) :
    (hashFile f reads ctx blocks.flatten.length).wp (account.may start) Q log := by
  induction reads generalizing log ctx blocks with
  | zero => exact hnone log [] (by rwa [List.append_nil]) rfl (by rwa [List.append_nil])
  | succ reads ih =>
    refine wp_call (h.may ?_ nofun) fun buf => ?_
    · exact fun r hr => Multiset.mem_singleton.1 hr ▸ Multiset.mem_cons_self _ _
    have hread : At start _ (.file f ::ₘ start) (some f) [] (blocks ++ [buf.1]) := h.call ⟨.fread f, buf⟩
    split
    · next hpos =>
      have hflat : (blocks ++ [buf.1]).flatten = blocks.flatten ++ buf.1 := by simp
      rw [← List.length_append, ← hflat]
      refine ih hread ?_ ?_ fun log more hmore hlength => ?_
      · rw [hflat]
        exact sha256Update_holds hctx buf.1
      · intro b hb
        rcases List.mem_append.1 hb with hb | hb
        · exact hblocks b hb
        · obtain rfl := List.mem_singleton.1 hb
          exact List.length_pos_iff.1 hpos
      · rw [List.append_assoc] at hmore ⊢
        exact hnone log _ hmore (by rw [List.singleton_append, List.length_cons, hlength])
    · next hnil =>
      have hempty : buf.1 = [] := List.length_eq_zero_iff.1 (Nat.eq_zero_of_not_pos hnil)
      rw [hempty] at hread
      exact hsome _ ctx blocks hread hctx hblocks

/-- What `file_sha256` returns, and leaves open. The last read delivered nothing. -/
structure Hashed (start : Multiset Resource) (log : Log) (r : Bytes × Nat × ℚ) : Prop where
  held : account.held start log = stranded log + start
  found : ∀ f, opened log = some f → ∃ blocks, delivered log = blocks ++ [[]] ∧ (∀ b ∈ blocks, b ≠ []) ∧
    r.1 = Sha2.hex (Sha2.sha256 blocks.flatten) ∧ r.2.1 = blocks.flatten.length ∧ stranded log = []
  missing : opened log = none → r.1 = txt "file not found" ∧ r.2.1 = 0

/-- The outcome within a number of reads; without one, each of them has delivered something. -/
def Outcome (start : Multiset Resource) (reads : Nat) (log : Log) : Option (Bytes × Nat × ℚ) → Prop
  | some r => Hashed start log r
  | none => (delivered log).length = reads ∧ ∀ b ∈ delivered log, b ≠ []

/-- However the system answers, `file_sha256` comes to its outcome. -/
theorem wp_fileSha256 (path : Bytes) (reads : Nat) :
    (fileSha256 platform path reads).wp (account.may start) (Outcome start reads) [] := by
  have hempty : At start [] start none [] [] := ⟨rfl, rfl, rfl, rfl⟩
  rw [fileSha256]
  refine wp_call (hempty.may nofun nofun) fun t0 => ?_
  have hbegun : At start [⟨.now, t0⟩] start none [] [] := hempty.call ⟨.now, t0⟩
  rw [wp_bind]
  refine wp_openRead hbegun (fun log m lost h hm => ?_) fun log f h => ?_
  · refine wp_call (h.may nofun nofun) fun t1 => ?_
    have hnow : At start _ m none (lost ++ []) [] := h.call ⟨.now, t1⟩
    rw [List.append_nil] at hnow
    refine ⟨?_, fun file hfile => ?_, fun _ => ⟨rfl, rfl⟩⟩
    · rw [hnow.held, hnow.stranded, hm]
    · rw [hnow.opened] at hfile
      cases hfile
  · simp only
    rw [wp_bind]
    refine wp_hashFile reads h sha256Init_holds nofun (fun log more h hlength hne => ?_) fun log ctx blocks h hctx hne => ?_
    · rw [List.nil_append] at h hne
      exact ⟨h.delivered ▸ hlength, h.delivered ▸ hne⟩
    · refine wp_call (h.may nofun ?_) fun r => ?_
      · rintro a r ⟨⟩
        exact Multiset.mem_cons_self _ _
      have hclosed := h.call ⟨.fclose f, r⟩
      have herase : account.after (.file f ::ₘ start) ⟨.fclose f, r⟩ = start := account.after_gives rfl
      rw [herase] at hclosed
      refine wp_call (hclosed.may nofun nofun) fun t1 => ?_
      have hnow : At start _ start (some f) [] (blocks ++ [[]] ++ [] ++ []) := hclosed.call ⟨.now, t1⟩
      simp only [List.append_nil] at hnow
      refine ⟨?_, fun file hfile => ⟨blocks, hnow.delivered, hne, sha256FinalHex_eq hctx, rfl, hnow.stranded⟩, ?_⟩
      · rw [hnow.held, hnow.stranded]
        exact (zero_add start).symm
      · intro hnone
        rw [hnow.opened] at hnone
        cases hnone

/-- However the system answers, `file_sha256` returns the digest and the number of the bytes
that it was delivered from the file it opened, or that there is none, and all that stays open
is a descriptor of which `_fdopen` made no `FILE`. -/
theorem file_hash_meets (platform : Platform) (path : Bytes) (reads : Nat) (start : Multiset Resource)
    (answer : Log → (k : Call) → Answer k) :
    Each (fun pre e => account.may start pre e.called) ((fileSha256 platform path reads).run answer).1 ∧
      Outcome start reads ((fileSha256 platform path reads).run answer).1
        ((fileSha256 platform path reads).run answer).2 :=
  sound answer (wp_fileSha256 path reads)

end NgxLuaCpp.FileHash
