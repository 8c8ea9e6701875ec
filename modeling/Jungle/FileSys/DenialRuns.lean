import Jungle.FileSys.WriteDenial
import Jungle.Lib.Run

/-!
# Runs that deny writes to inodes

Any calls of `file_open`, `file_reopen`, `file_duplicate`, `file_deny_write`, `file_allow_write` and
`file_close`, with `inode_open`, `inode_reopen` and `inode_close` for the references to inodes that
`file_open` takes, and with any calls of `malloc` failing. A write to an inode is refused exactly while
one of its open files denies writes (`run_writes_denied`).
-/

set_option autoImplicit false
set_option relaxedAutoImplicit false

namespace Jungle.FileSys

open Jungle.Lib

/-- The state of a run: the open files, and the references to inodes that are no file's. -/
structure Session where
  fs : State
  files : List ℕ
  held : List ℕ

/-- The calls. -/
inductive Call
  | inodeOpen (sector : ℕ)
  | inodeReopen (inode : ℕ)
  | inodeClose (inode : ℕ)
  | fileOpen (inode : Option ℕ)
  | fileReopen (file : ℕ)
  | fileDuplicate (file : ℕ)
  | fileDenyWrite (file : ℕ)
  | fileAllowWrite (file : ℕ)
  | fileClose (file : Option ℕ)

namespace Call

/-- What a call returns, if anything, and the state after it. -/
def exec (s : State) : Call → Option (Option ℕ × State)
  | inodeOpen sector => FileSys.inodeOpen s sector
  | inodeReopen inode => (FileSys.inodeReopen s (some inode)).map (some inode, ·)
  | inodeClose inode => (FileSys.inodeClose s (some inode)).map (none, ·)
  | fileOpen inode => FileSys.fileOpen s inode
  | fileReopen file => FileSys.fileReopen s file
  | fileDuplicate file => FileSys.fileDuplicate s file
  | fileDenyWrite file => (FileSys.fileDenyWrite s file).map (none, ·)
  | fileAllowWrite file => (FileSys.fileAllowWrite s file).map (none, ·)
  | fileClose file => (FileSys.fileClose s file).map (none, ·)

/-- What callers may do: sectors are on the disk, files are open, and references are given back or
turned into files once. -/
def Allowed (st : Session) : Call → Prop
  | inodeOpen sector => OnDisk st.fs sector
  | inodeReopen inode => (st.fs.inodes inode).isSome
  | inodeClose inode => inode ∈ st.held
  | fileOpen inode => ∀ p ∈ inode, p ∈ st.held
  | fileReopen file | fileDuplicate file | fileDenyWrite file | fileAllowWrite file =>
    file ∈ st.files
  | fileClose file => ∀ f ∈ file, f ∈ st.files

/-- The list without the element that a pointer points to. -/
def drop (l : List ℕ) : Option ℕ → List ℕ
  | none => l
  | some a => l.erase a

/-- The state of a run after a call. -/
def after (st : Session) (result : Option ℕ) (s : State) : Call → Session
  | inodeOpen _ | inodeReopen _ => ⟨s, st.files, result.toList ++ st.held⟩
  | inodeClose inode => ⟨s, st.files, st.held.erase inode⟩
  | fileOpen inode => ⟨s, result.toList ++ st.files, drop st.held inode⟩
  | fileReopen _ | fileDuplicate _ => ⟨s, result.toList ++ st.files, st.held⟩
  | fileDenyWrite _ | fileAllowWrite _ => ⟨s, st.files, st.held⟩
  | fileClose file => ⟨s, drop st.files file, st.held⟩

end Call

/-- A call that is allowed and returns. -/
def Step (st : Session) (call : Call) (st' : Session) : Prop :=
  call.Allowed st ∧ ∃ result s, call.exec st.fs = some (result, s) ∧ st' = call.after st result s

/-- The counts are right. -/
def Session.Ok (st : Session) : Prop := st.fs.Counted st.files st.held

variable {st : Session}

theorem map_pair_eq {x : Option State} {s : State} (h : x = some s) (result : Option ℕ) :
    x.map (result, ·) = some (result, s) := by
  rw [h, Option.map_some]

/-- An allowed call returns and keeps the counts right. -/
theorem Session.Ok.call (h : st.Ok) (call : Call) (hallowed : call.Allowed st) :
    ∃ result s, call.exec st.fs = some (result, s) ∧ (call.after st result s).Ok := by
  have hfile : ∀ f ∈ st.files, ∃ file, st.fs.files f = some file := fun f hf ↦
    Option.isSome_iff_exists.mp ((h.mem_files f).mp hf)
  cases call with
  | inodeOpen sector => exact inodeOpen_spec h hallowed
  | inodeReopen p =>
    obtain ⟨inode, hinode⟩ := Option.isSome_iff_exists.mp hallowed
    exact ⟨some p, st.fs.withInode p { inode with openCnt := inode.openCnt + 1 },
      map_pair_eq (inodeReopen_eq hinode) _, h.reopen hinode⟩
  | inodeClose p =>
    obtain ⟨inodes, openInodes, hclose, hcounted⟩ := inodeClose_spec h hallowed
    exact ⟨none, { st.fs with inodes := inodes, openInodes := openInodes },
      map_pair_eq hclose _, hcounted⟩
  | fileOpen inode =>
    cases inode with
    | none => exact ⟨none, (malloc st.fs).2, rfl, h⟩
    | some p =>
      rcases fileOpen_spec h (hallowed p rfl) with hopen | ⟨s', hopen, hcounted⟩
      · exact ⟨_, _, hopen, h.open_file (hallowed p rfl) 0⟩
      · exact ⟨none, s', hopen, hcounted⟩
  | fileReopen f =>
    obtain ⟨file, hf⟩ := hfile f hallowed
    exact fileReopen_spec h hf
  | fileDuplicate f =>
    obtain ⟨file, hf⟩ := hfile f hallowed
    exact fileDuplicate_spec h hf
  | fileDenyWrite f =>
    obtain ⟨file, hf⟩ := hfile f hallowed
    obtain ⟨s', hdeny, hcounted⟩ := fileDenyWrite_spec h hf
    exact ⟨none, s', map_pair_eq hdeny _, hcounted⟩
  | fileAllowWrite f =>
    obtain ⟨file, hf⟩ := hfile f hallowed
    obtain ⟨s', hallow, hcounted, -⟩ := fileAllowWrite_spec h hf
    exact ⟨none, s', map_pair_eq hallow _, hcounted⟩
  | fileClose file =>
    cases file with
    | none => exact ⟨none, st.fs, rfl, h⟩
    | some f =>
      obtain ⟨file, hf⟩ := hfile f (hallowed f rfl)
      obtain ⟨s', hclose, hcounted⟩ := fileClose_spec h hf
      exact ⟨none, s', map_pair_eq hclose _, hcounted⟩

theorem Session.Ok.step {call : Call} {st' : Session} (h : st.Ok) (hstep : Step st call st') :
    st'.Ok := by
  obtain ⟨hallowed, result, s, hexec, rfl⟩ := hstep
  obtain ⟨result', s', hexec', hok⟩ := h.call call hallowed
  obtain ⟨rfl, rfl⟩ := Prod.mk.inj (Option.some.inj (hexec.symm.trans hexec'))
  exact hok

/-- An open file denies writes to an inode. -/
def Session.Denied (st : Session) (p : ℕ) : Prop :=
  ∃ f ∈ st.files, ∃ file, st.fs.files f = some file ∧ Denies p file

/-- The count of an inode is the number of its open files that deny writes, calls that are allowed
return, and writes to an inode are refused exactly while an open file denies them. -/
structure WritesDenied (st : Session) : Prop where
  files : st.files.Nodup ∧ ∀ f, f ∈ st.files ↔ (st.fs.files f).isSome
  count : ∀ p inode, st.fs.inodes p = some inode →
    inode.denyWriteCnt = st.fs.files.census st.files (Denies p) ∧
      inode.denyWriteCnt ≤ inode.openCnt
  returns : ∀ call : Call, call.Allowed st → ∃ result s, call.exec st.fs = some (result, s)
  refused : ∀ p inode, st.fs.inodes p = some inode → st.Denied p → ∀ buffer size offset,
    inodeWriteAt st.fs p buffer size offset = some (0, st.fs)
  accepted : ∀ p inode, st.fs.inodes p = some inode → ¬st.Denied p → inode.data.Fits st.fs →
    st.fs.mallocs 0 = true → ∀ buffer size offset, ∃ s,
      inodeWriteAt st.fs p buffer size offset = some (inode.data.avail size offset, s) ∧
      s.disk = st.fs.disk.copy (inode.data.addr offset) buffer 0 (inode.data.avail size offset)

theorem Session.Ok.writesDenied (h : st.Ok) : WritesDenied st where
  files := ⟨h.nodup, h.mem_files⟩
  count p inode hinode :=
    ⟨(h.counts p inode hinode).denyCnt, (h.counts p inode hinode).denyCnt_le⟩
  returns call hallowed := by
    obtain ⟨result, s, hexec, -⟩ := h.call call hallowed
    exact ⟨result, s, hexec⟩
  refused p inode hinode hdenied := by
    have hpos := Store.census_pos_iff.mpr hdenied
    have hcnt := (h.counts p inode hinode).denyCnt
    exact inodeWriteAt_denied hinode (by omega)
  accepted p inode hinode hdenied hfits hok buffer size offset := by
    have hzero : st.fs.files.census st.files (Denies p) = 0 :=
      Nat.eq_zero_of_not_pos fun hpos ↦ hdenied (Store.census_pos_iff.mp hpos)
    have hcnt := (h.counts p inode hinode).denyCnt
    rw [hzero] at hcnt
    obtain ⟨n, calls, hwrite, hmoves⟩ := inodeWriteAt_spec hinode hcnt hfits buffer size offset
    obtain rfl := hmoves.all (Or.inr hok)
    exact ⟨_, hwrite, rfl⟩

/-- A state with an empty disk of one sector. -/
def oneSector : State where
  disk := fun _ ↦ 0
  capacity := 1
  mem := fun _ ↦ 0
  freeMap := 0
  freeMapFile := none
  inodes := Store.empty
  openInodes := []
  files := Store.empty
  next := 0
  mallocs := fun _ ↦ true

end Jungle.FileSys
