import Jungle.FileSys.Directory
import Jungle.FileSys.Transfers

/-!
# The entries of a directory

An entry is smaller than a sector, so that reading or writing it calls `malloc` once and moves all of it or
nothing. The loops of `lookup` and `dir_add` end at the first entry that stops them, at the end of the
directory, or where `malloc` fails (`ScanEnds`).
-/

set_option autoImplicit false
set_option relaxedAutoImplicit false

namespace Jungle.FileSys

open Jungle.Lib

variable {s : State} {data : InodeDisk} {p size offset moved : ℕ} {inode : Inode} {buffer : Bytes}

/-! ### Transfers of less than a sector -/

/-- With a bounce buffer all that there is is read, without a call of `malloc`. -/
theorem readLoop_bounced (hfits : data.Fits s) {rounds : ℕ} (hrounds : size ≤ rounds) :
    readLoop data rounds s true buffer size offset moved = some (moved + data.avail size offset,
      buffer.copy moved s.disk (data.addr offset) (data.avail size offset), s) := by
  obtain ⟨n, calls, hloop, hmoves⟩ : ∃ n calls,
      readLoop data rounds s true buffer size offset moved = some (moved + n,
        buffer.copy moved s.disk (data.addr offset) n, s.transfer s.disk calls) ∧
      Moves data (s.mallocs 0) true size offset n calls := readLoop_spec hfits hrounds
  rw [hloop, hmoves.all (Or.inl rfl), hmoves.calls.2 rfl, transfer_self]

/-- With a bounce buffer all that there is is written, without a call of `malloc`. -/
theorem writeLoop_bounced (hfits : data.Fits s) {rounds : ℕ} (hrounds : size ≤ rounds) :
    writeLoop data buffer rounds s true size offset moved = some (moved + data.avail size offset,
      s.transfer (s.disk.copy (data.addr offset) buffer moved (data.avail size offset)) 0) := by
  obtain ⟨n, calls, hloop, hmoves⟩ : ∃ n calls,
      writeLoop data buffer rounds s true size offset moved = some (moved + n,
        s.transfer (s.disk.copy (data.addr offset) buffer moved n) calls) ∧
      Moves data (s.mallocs 0) true size offset n calls := writeLoop_spec hfits hrounds
  rw [hloop, hmoves.all (Or.inl rfl), hmoves.calls.2 rfl]

theorem chunk_part (hsize : 0 < size) (hlt : size < DISK_SECTOR_SIZE)
    (hroom : offset + size ≤ data.length.toNat) :
    data.avail size offset = size ∧ 0 < chunkSize data size offset ∧
      ¬(sectorOfs offset = 0 ∧ chunkSize data size offset = DISK_SECTOR_SIZE) := by
  have havail : data.avail size offset = size := by
    unfold InodeDisk.avail
    omega
  have hle := (chunkSize_le data size offset).2
  refine ⟨havail, Nat.pos_of_ne_zero fun hzero ↦ ?_, fun hpart ↦ ?_⟩
  · have hnone := avail_of_chunkSize_eq_zero hzero
    omega
  · omega

/-- `inode_read_at` of less than a sector that the file has. -/
theorem inodeReadAt_part (hinode : s.inodes p = some inode) (hfits : inode.data.Fits s)
    (hsize : 0 < size) (hlt : size < DISK_SECTOR_SIZE)
    (hroom : offset + size ≤ inode.data.length.toNat) (buffer : Bytes) :
    inodeReadAt s p buffer size offset = if s.mallocs 0 then
        some (size, buffer.copy 0 s.disk (inode.data.addr offset) size, s.transfer s.disk 1)
      else some (0, buffer, s.transfer s.disk 1) := by
  obtain ⟨havail, hpos, hpart⟩ := chunk_part hsize hlt hroom
  obtain ⟨-, hle⟩ := chunkSize_le inode.data size offset
  have hrest := avail_chunk hle
  have hheader : inodeReadAt s p buffer size offset =
      readLoop inode.data size s false buffer size offset 0 := by
    rw [inodeReadAt, hinode, Option.bind_eq_bind, Option.bind_some]
  obtain ⟨m, rfl⟩ : ∃ m, size = m + 1 := ⟨size - 1, by omega⟩
  rw [hheader]
  cases hok : s.mallocs 0 with
  | false =>
    rw [readLoop, if_neg (Nat.ne_of_gt hpos), if_neg hpart, getBounce_false, hok]
    rfl
  | true =>
    rw [readLoop_chunk hfits hpos hpart (by rw [getBounce_false, hok])]
    have hrounds : m + 1 - chunkSize inode.data (m + 1) offset ≤ m := by omega
    have haddr : inode.data.addr (offset + chunkSize inode.data (m + 1) offset) =
        inode.data.addr offset + chunkSize inode.data (m + 1) offset := (Nat.add_assoc ..).symm
    have hcopy := Bytes.copy_copy buffer 0 s.disk (inode.data.addr offset)
      (chunkSize inode.data (m + 1) offset) (inode.data.avail
        (m + 1 - chunkSize inode.data (m + 1) offset) (offset + chunkSize inode.data (m + 1) offset))
    rw [← hrest, havail] at hcopy
    rw [readLoop_bounced (hfits.transfer s.disk 1) hrounds, haddr, Nat.zero_add, ← hrest, havail]
    rw [Nat.zero_add] at hcopy
    rw [if_pos rfl, ← hcopy]
    rfl

/-- `inode_read_at` behind the end of the file. -/
theorem inodeReadAt_end (hinode : s.inodes p = some inode) (hend : inode.data.length.toNat ≤ offset)
    (buffer : Bytes) (size : ℕ) : inodeReadAt s p buffer size offset = some (0, buffer, s) := by
  have hle := (chunkSize_le inode.data size offset).2
  have hzero : chunkSize inode.data size offset = 0 := by
    unfold InodeDisk.avail at hle
    omega
  rw [inodeReadAt, hinode, Option.bind_eq_bind, Option.bind_some]
  cases size with
  | zero => rfl
  | succ size => rw [readLoop, if_pos hzero]

/-- `inode_write_at` of less than a sector that the file has. -/
theorem inodeWriteAt_part (hinode : s.inodes p = some inode) (hdeny : inode.denyWriteCnt = 0)
    (hfits : inode.data.Fits s) (hsize : 0 < size) (hlt : size < DISK_SECTOR_SIZE)
    (hroom : offset + size ≤ inode.data.length.toNat) (buffer : Bytes) :
    inodeWriteAt s p buffer size offset = if s.mallocs 0 then
        some (size, s.transfer (s.disk.copy (inode.data.addr offset) buffer 0 size) 1)
      else some (0, s.transfer s.disk 1) := by
  obtain ⟨havail, hpos, hpart⟩ := chunk_part hsize hlt hroom
  obtain ⟨-, hle⟩ := chunkSize_le inode.data size offset
  have hrest := avail_chunk hle
  have hheader : inodeWriteAt s p buffer size offset =
      writeLoop inode.data buffer size s false size offset 0 := by
    rw [inodeWriteAt, hinode, Option.bind_eq_bind, Option.bind_some, if_neg (not_not.mpr hdeny)]
  obtain ⟨m, rfl⟩ : ∃ m, size = m + 1 := ⟨size - 1, by omega⟩
  rw [hheader]
  cases hok : s.mallocs 0 with
  | false =>
    rw [writeLoop, if_neg (Nat.ne_of_gt hpos), if_neg hpart, getBounce_false, hok]
    rfl
  | true =>
    rw [writeLoop_chunk hfits hpos hpart (by rw [getBounce_false, hok])]
    have hrounds : m + 1 - chunkSize inode.data (m + 1) offset ≤ m := by omega
    rw [writeLoop_bounced (hfits.transfer _ 1) hrounds, transfer_chunk, Nat.zero_add, ← hrest, havail]
    rfl

/-- `inode_write_at` behind the end of the file. -/
theorem inodeWriteAt_end (hinode : s.inodes p = some inode) (hend : inode.data.length.toNat ≤ offset)
    (buffer : Bytes) (size : ℕ) : inodeWriteAt s p buffer size offset = some (0, s) := by
  have hle := (chunkSize_le inode.data size offset).2
  have hzero : chunkSize inode.data size offset = 0 := by
    unfold InodeDisk.avail at hle
    omega
  rw [inodeWriteAt, hinode, Option.bind_eq_bind, Option.bind_some]
  by_cases hdeny : inode.denyWriteCnt = 0
  · rw [if_neg (not_not.mpr hdeny)]
    cases size with
    | zero => rfl
    | succ size => rw [writeLoop, if_pos hzero]
  · rw [if_pos hdeny]
    rfl

/-! ### Writing a whole file -/

/-- The calls of `malloc` for writing so many bytes from the start of a sector on. -/
def tailCalls (size : ℕ) : ℕ := if size % DISK_SECTOR_SIZE = 0 then 0 else 1

theorem tailCalls_sub (h : DISK_SECTOR_SIZE ≤ size) :
    tailCalls (size - DISK_SECTOR_SIZE) = tailCalls size := by
  rw [tailCalls, tailCalls, Nat.mod_eq_sub_mod h]

/-- From the start of a sector on, whole sectors are written without a bounce buffer, and only what is left
after them needs one. -/
theorem writeLoop_aligned (hfits : data.Fits s) {rounds : ℕ} (hrounds : size ≤ rounds)
    (hofs : sectorOfs offset = 0) (hroom : offset + size ≤ data.length.toNat) :
    ∃ n, writeLoop data buffer rounds s false size offset moved = some (moved + n,
        s.transfer (s.disk.copy (data.addr offset) buffer moved n) (tailCalls size)) ∧ n ≤ size ∧
      (n = size ↔ ∀ i < tailCalls size, s.mallocs i = true) := by
  have hleft : sectorLeft offset = DISK_SECTOR_SIZE := by rw [sectorLeft, hofs, Nat.sub_zero]
  induction rounds generalizing s size offset moved with
  | zero =>
    obtain rfl := Nat.le_zero.mp hrounds
    refine ⟨0, ?_, Nat.le_refl _, iff_of_true rfl fun i hi ↦ absurd hi (Nat.not_lt_zero i)⟩
    rw [Bytes.copy_zero]
    rfl
  | succ rounds ih =>
    rcases Nat.lt_or_ge size DISK_SECTOR_SIZE with hlt | hge
    · have hchunk : chunkSize data size offset = size := by
        simp only [chunkSize, hleft]
        split_ifs <;> omega
      rcases Nat.eq_zero_or_pos size with rfl | hpos
      · refine ⟨0, ?_, Nat.le_refl _, iff_of_true rfl fun i hi ↦ absurd hi (Nat.not_lt_zero i)⟩
        rw [writeLoop, hchunk, if_pos rfl, Bytes.copy_zero]
        rfl
      · have hcalls : tailCalls size = 1 := by
          rw [tailCalls, Nat.mod_eq_of_lt hlt, if_neg (Nat.ne_of_gt hpos)]
        have hpart : ¬(sectorOfs offset = 0 ∧ chunkSize data size offset = DISK_SECTOR_SIZE) := by
          omega
        rw [hcalls]
        cases hok : s.mallocs 0 with
        | false =>
          refine ⟨0, ?_, Nat.zero_le _, iff_of_false (Nat.ne_of_lt hpos) fun hall ↦ ?_⟩
          · rw [writeLoop, if_neg (by omega), if_neg hpart, getBounce_false, hok, Bytes.copy_zero]
            rfl
          · exact Bool.false_ne_true (hok.symm.trans (hall 0 Nat.one_pos))
        | true =>
          refine ⟨size, ?_, Nat.le_refl _, iff_of_true rfl fun i hi ↦ ?_⟩
          · rw [writeLoop_chunk hfits (by omega) hpart (by rw [getBounce_false, hok]),
              writeLoop_bounced (hfits.transfer _ 1) (by omega), transfer_chunk, hchunk, Nat.sub_self,
              InodeDisk.avail, Nat.zero_min]
            rfl
          · obtain rfl : i = 0 := Nat.lt_one_iff.mp hi
            exact hok
    · have hchunk : chunkSize data size offset = DISK_SECTOR_SIZE := by
        simp only [chunkSize, hleft]
        split_ifs <;> omega
      have hnext : sectorOfs (offset + DISK_SECTOR_SIZE) = 0 := by
        rw [sectorOfs, Nat.add_mod_right]
        exact hofs
      have hpos : 0 < DISK_SECTOR_SIZE := by decide
      obtain ⟨n, hloop, hle, hiff⟩ := ih
        (hfits.transfer (s.disk.copy (data.addr offset) buffer moved DISK_SECTOR_SIZE) 0)
        (by omega : size - DISK_SECTOR_SIZE ≤ rounds) hnext (by omega)
        (by rw [sectorLeft, hnext, Nat.sub_zero])
      rw [tailCalls_sub hge] at hloop hiff
      refine ⟨DISK_SECTOR_SIZE + n, ?_, by omega, ?_⟩
      · rw [writeLoop_sector hfits hofs hchunk, hloop, transfer_chunk, Nat.zero_add, Nat.add_assoc]
      · rw [show DISK_SECTOR_SIZE + n = size ↔ n = size - DISK_SECTOR_SIZE by omega, hiff]
        rfl

/-- `inode_write_at` of a whole file. -/
theorem inodeWriteAt_whole (hinode : s.inodes p = some inode) (hdeny : inode.denyWriteCnt = 0)
    (hfits : inode.data.Fits s) (hsize : size = inode.data.length.toNat) (buffer : Bytes) :
    ∃ n, inodeWriteAt s p buffer size 0 = some (n,
        s.transfer (s.disk.copy (inode.data.addr 0) buffer 0 n) (tailCalls size)) ∧ n ≤ size ∧
      (n = size ↔ ∀ i < tailCalls size, s.mallocs i = true) := by
  obtain ⟨n, hloop, hle, hiff⟩ : ∃ n, writeLoop inode.data buffer size s false size 0 0 = _ ∧ _ ∧ _ :=
    writeLoop_aligned hfits (Nat.le_refl size) (show sectorOfs 0 = 0 from rfl) (by omega)
  refine ⟨n, ?_, hle, hiff⟩
  rw [inodeWriteAt, hinode, Option.bind_eq_bind, Option.bind_some, if_neg (not_not.mpr hdeny), hloop,
    Nat.zero_add]

/-! ### Slots -/

/-- The number of entries of a directory. -/
def InodeDisk.slots (data : InodeDisk) : ℕ := data.length.toNat / ENTRY_SIZE

/-- The bytes from an entry of a directory on. -/
def InodeDisk.slot (data : InodeDisk) (disk : Bytes) (k : ℕ) : Bytes := fun i ↦
  disk (data.addr (k * ENTRY_SIZE) + i)

/-- The name and the sector of an entry in use. -/
def entryOf (e : Bytes) : Option (List UInt8 × ℕ) :=
  if inUse e then some (entryName e, inodeSector e) else none

/-- The entries of a directory. -/
def InodeDisk.entry (data : InodeDisk) (disk : Bytes) (k : ℕ) : Option (List UInt8 × ℕ) :=
  entryOf (data.slot disk k)

/-- An entry is its bytes. -/
theorem entry_congr {e e' : Bytes} (h : ∀ i < ENTRY_SIZE, e i = e' i) :
    inUse e = inUse e' ∧ entryName e = entryName e' ∧ inodeSector e = inodeSector e' ∧
      entryOf e = entryOf e' := by
  have hin : inUse e = inUse e' := by rw [inUse, inUse, h 19 (by decide)]
  have hname : entryName e = entryName e' := by
    unfold entryName
    congr 1
    refine List.map_congr_left fun i hi ↦ h (4 + i) ?_
    have hlt := List.mem_range.mp hi
    unfold NAME_MAX at hlt
    unfold ENTRY_SIZE
    omega
  have hsector : inodeSector e = inodeSector e' := by
    refine Bytes.load_congr fun x _ hx ↦ h x ?_
    unfold ENTRY_SIZE
    omega
  refine ⟨hin, hname, hsector, ?_⟩
  rw [entryOf, entryOf, hin, hname, hsector]

theorem slot_room {data : InodeDisk} {k : ℕ} (hk : k < data.slots) :
    k * ENTRY_SIZE + ENTRY_SIZE ≤ data.length.toNat := by
  unfold InodeDisk.slots ENTRY_SIZE at *
  omega

/-- Where a loop over the entries ends, from one on: at an entry that it finds, at the end, or at a read
for which `malloc` fails; and how often it calls `malloc`. -/
structure ScanEnds (stop : ℕ → Bool) (slots : ℕ) (mallocs : ℕ → Bool) (k j : ℕ) (found : Bool)
    (calls : ℕ) : Prop where
  ge : k ≤ j
  le : j ≤ slots
  before : ∀ i, k ≤ i → i < j → mallocs (i - k) = true ∧ stop i = false
  hit : found = true → j < slots ∧ mallocs (j - k) = true ∧ stop j = true
  short : found = false → j < slots → mallocs (j - k) = false
  calls : calls = if j < slots then j - k + 1 else j - k

theorem ScanEnds.not_before {stop : ℕ → Bool} {slots : ℕ} {mallocs : ℕ → Bool} {k j j' : ℕ}
    {found found' : Bool} {calls calls' : ℕ} (h : ScanEnds stop slots mallocs k j found calls)
    (h' : ScanEnds stop slots mallocs k j' found' calls') : ¬j < j' := by
  intro hlt
  obtain ⟨hmalloc, hstop⟩ := h'.before j h.ge hlt
  have hslots := h'.le
  cases found with
  | true => exact Bool.false_ne_true (hstop.symm.trans (h.hit rfl).2.2)
  | false => exact Bool.false_ne_true ((h.short rfl (by omega)).symm.trans hmalloc)

/-- A loop ends in one place. -/
theorem ScanEnds.unique {stop : ℕ → Bool} {slots : ℕ} {mallocs : ℕ → Bool} {k j j' : ℕ}
    {found found' : Bool} {calls calls' : ℕ} (h : ScanEnds stop slots mallocs k j found calls)
    (h' : ScanEnds stop slots mallocs k j' found' calls') :
    j = j' ∧ found = found' ∧ calls = calls' := by
  obtain rfl : j = j' :=
    Nat.le_antisymm (Nat.le_of_not_lt (h'.not_before h)) (Nat.le_of_not_lt (h.not_before h'))
  refine ⟨rfl, ?_, h.calls.trans h'.calls.symm⟩
  cases found with
  | true =>
    obtain ⟨hlt, hmalloc, -⟩ := h.hit rfl
    cases found' with
    | true => rfl
    | false => exact absurd ((h'.short rfl hlt).symm.trans hmalloc) Bool.false_ne_true
  | false =>
    cases found' with
    | true =>
      obtain ⟨hlt, hmalloc, -⟩ := h'.hit rfl
      exact absurd ((h.short rfl hlt).symm.trans hmalloc) Bool.false_ne_true
    | false => rfl

/-- With memory, a loop that has found nothing has passed all entries. -/
theorem ScanEnds.miss {stop : ℕ → Bool} {slots : ℕ} {mallocs : ℕ → Bool} {k j calls : ℕ}
    (h : ScanEnds stop slots mallocs k j false calls) (hall : ∀ i, mallocs i = true) :
    j = slots ∧ ∀ i, k ≤ i → i < slots → stop i = false := by
  obtain rfl : j = slots := by
    refine Nat.le_antisymm h.le (Nat.le_of_not_lt fun hlt ↦ ?_)
    exact Bool.false_ne_true ((h.short rfl hlt).symm.trans (hall _))
  exact ⟨rfl, fun i hge hlt ↦ (h.before i hge hlt).2⟩

/-- What a loop over the entries returns. -/
theorem scan_spec {stop : Bytes → Bool} (hstop : ∀ e e', (∀ i < ENTRY_SIZE, e i = e' i) →
      stop e = stop e') (hinode : s.inodes p = some inode) (hfits : inode.data.Fits s)
    (hwhole : inode.data.length.toNat % ENTRY_SIZE = 0) {rounds k : ℕ} (hk : k ≤ inode.data.slots)
    (hrounds : inode.data.slots < k + rounds) (e : Bytes) :
    ∃ found e' j calls, scan stop rounds s p e (k * ENTRY_SIZE) =
        some (found, e', j * ENTRY_SIZE, s.transfer s.disk calls) ∧
      ScanEnds (fun j ↦ stop (inode.data.slot s.disk j)) inode.data.slots s.mallocs k j found calls ∧
      (found = true → ∀ i < ENTRY_SIZE, e' i = inode.data.slot s.disk j i) := by
  induction rounds generalizing s k e with
  | zero => omega
  | succ rounds ih =>
    rcases Nat.lt_or_ge k inode.data.slots with hlt | hge
    · have hread := inodeReadAt_part hinode hfits (show 0 < ENTRY_SIZE by decide)
        (show ENTRY_SIZE < DISK_SECTOR_SIZE by decide) (slot_room hlt) e
      cases hok : s.mallocs 0 with
      | false =>
        rw [hok, if_neg Bool.false_ne_true] at hread
        refine ⟨false, e, k, 1, ?_, ⟨Nat.le_refl k, hk, fun i hi hi' ↦ by omega, fun h ↦ by simp at h,
          fun _ _ ↦ by rwa [Nat.sub_self], by rw [if_pos hlt, Nat.sub_self]⟩, fun h ↦ by simp at h⟩
        rw [scan, hread]
        rfl
      | true =>
        rw [hok, if_pos rfl] at hread
        set e₁ := e.copy 0 s.disk (inode.data.addr (k * ENTRY_SIZE)) ENTRY_SIZE with he₁
        have hbytes : ∀ i < ENTRY_SIZE, e₁ i = inode.data.slot s.disk k i := by
          intro i hi
          exact if_pos ⟨Nat.zero_le i, by omega⟩
        have hsame := hstop _ _ hbytes
        cases hfound : stop (inode.data.slot s.disk k) with
        | true =>
          refine ⟨true, e₁, k, 1, ?_, ⟨Nat.le_refl k, hk, fun i hi hi' ↦ by omega,
            fun _ ↦ ⟨hlt, by rwa [Nat.sub_self], hfound⟩, fun h ↦ by simp at h,
            by rw [if_pos hlt, Nat.sub_self]⟩, fun _ ↦ hbytes⟩
          rw [scan, hread, Option.bind_eq_bind, Option.bind_some]
          dsimp only
          rw [if_pos rfl, hsame, hfound]
          rfl
        | false =>
          obtain ⟨found, e', j, calls, hscan, hends, hslot⟩ := ih (s := s.transfer s.disk 1) hinode
            (hfits.transfer s.disk 1) (k := k + 1) hlt (by omega) e₁
          refine ⟨found, e', j, calls + 1, ?_, ⟨?_, hends.le, ?_, ?_, ?_, ?_⟩, hslot⟩
          · rw [scan, hread, Option.bind_eq_bind, Option.bind_some]
            dsimp only
            rw [if_pos rfl, hsame, hfound, if_neg Bool.false_ne_true, ← Nat.succ_mul, hscan,
              transfer_transfer, Nat.add_comm 1 calls]
            rfl
          · exact Nat.le_of_succ_le hends.ge
          · intro i hi hi'
            rcases Nat.eq_or_lt_of_le hi with rfl | hi
            · exact ⟨by rwa [Nat.sub_self], hfound⟩
            · have hbefore := hends.before i hi hi'
              have hidx : i - (k + 1) + 1 = i - k := by omega
              exact ⟨hidx ▸ hbefore.1, hbefore.2⟩
          · intro h
            have hj := hends.hit h
            have hge := hends.ge
            have hidx : j - (k + 1) + 1 = j - k := by omega
            exact ⟨hj.1, hidx ▸ hj.2.1, hj.2.2⟩
          · intro h hj
            have hshort := hends.short h hj
            have hge := hends.ge
            have hidx : j - (k + 1) + 1 = j - k := by omega
            exact hidx ▸ hshort
          · rw [hends.calls]
            have hge := hends.ge
            split_ifs <;> omega
    · obtain rfl : k = inode.data.slots := Nat.le_antisymm hk hge
      have hend : inode.data.length.toNat ≤ inode.data.slots * ENTRY_SIZE := by
        unfold InodeDisk.slots ENTRY_SIZE at *
        omega
      refine ⟨false, e, inode.data.slots, 0, ?_, ⟨Nat.le_refl _, Nat.le_refl _,
        fun i hi hi' ↦ by omega, fun h ↦ by simp at h, fun _ h ↦ absurd h (Nat.lt_irrefl _),
        by rw [if_neg (Nat.lt_irrefl _), Nat.sub_self]⟩, fun h ↦ by simp at h⟩
      rw [scan, inodeReadAt_end hinode hend]
      rfl

/-- Writing an entry changes that entry. -/
theorem entry_write (data : InodeDisk) (disk b : Bytes) (j k : ℕ) :
    data.entry (disk.copy (data.addr (k * ENTRY_SIZE)) b 0 ENTRY_SIZE) j =
      if j = k then entryOf b else data.entry disk j := by
  unfold InodeDisk.entry
  split_ifs with hj
  · subst hj
    refine (entry_congr fun i hi ↦ ?_).2.2.2
    have hsub : data.addr (j * ENTRY_SIZE) + i - data.addr (j * ENTRY_SIZE) = i :=
      Nat.add_sub_cancel_left ..
    rw [InodeDisk.slot, Bytes.copy_of_mem ⟨Nat.le_add_right .., Nat.add_lt_add_left hi _⟩, hsub,
      Nat.zero_add]
  · refine (entry_congr fun i hi ↦ Bytes.copy_of_not_mem fun hin ↦ hj ?_).2.2.2
    unfold InodeDisk.addr ENTRY_SIZE at *
    omega

/-- A C string: its bytes are not zero. -/
def IsCString (name : List UInt8) : Prop := 0 ∉ name

instance (name : List UInt8) : Decidable (IsCString name) := inferInstanceAs (Decidable (0 ∉ name))

/-- A name that `dir_add` accepts. -/
def IsName (name : List UInt8) : Prop := name ≠ [] ∧ name.length ≤ NAME_MAX

instance (name : List UInt8) : Decidable (IsName name) := inferInstanceAs (Decidable (_ ∧ _))

theorem takeWhile_string {name rest : List UInt8} (h : IsCString name) :
    (name ++ 0 :: rest).takeWhile (· ≠ 0) = name := by
  induction name with
  | nil => rfl
  | cons c name ih =>
    have hc : c ≠ 0 := fun hzero ↦ h (hzero ▸ List.mem_cons_self)
    rw [List.cons_append, List.takeWhile_cons_of_pos (by simpa using hc),
      ih fun hmem ↦ h (List.mem_cons_of_mem c hmem)]

/-- What `dir_add` writes is the entry of the name and the sector. -/
theorem entryOf_fillEntry {name : List UInt8} (hstring : IsCString name) (hname : IsName name)
    {sector : ℕ} (hsector : sector < 2 ^ 32) (e : Bytes) :
    entryOf (fillEntry e name sector) = some (name, sector) := by
  have hlen := hname.2
  unfold NAME_MAX at hlen
  have hmin : min name.length (NAME_MAX + 1 - 1) = name.length := Nat.min_eq_left hname.2
  have hbyte : ∀ x, 4 ≤ x → fillEntry e name sector x = if x < 4 + name.length then
      name.getD (x - 4) 0 else if x = 4 + name.length then 0 else Function.update e 19 1 x := by
    intro x hx
    rw [fillEntry, Bytes.store_of_not_mem (by omega), strlcpy, hmin]
    simp only [hx, true_and]
  have hin : inUse (fillEntry e name sector) = true := by
    rw [inUse, hbyte 19 (by decide), if_neg (by omega), if_neg (by omega), Function.update_self]
    rfl
  have hstring' : entryName (fillEntry e name sector) = name := by
    have hrange : (List.range (NAME_MAX + 1)).map (fun i ↦ fillEntry e name sector (4 + i)) =
        name ++ 0 :: (List.range (NAME_MAX - name.length)).map
          (fun i ↦ fillEntry e name sector (4 + (name.length + 1 + i))) := by
      refine List.ext_getElem ?_ fun i hi hi' ↦ ?_
      · simp only [List.length_map, List.length_range, List.length_append, List.length_cons]
        unfold NAME_MAX
        omega
      · rw [List.getElem_map, List.getElem_range, hbyte _ (Nat.le_add_right 4 i)]
        rcases Nat.lt_trichotomy i name.length with hlt | rfl | hgt
        · rw [if_pos (by omega), List.getElem_append_left hlt, Nat.add_sub_cancel_left,
            List.getD_eq_getElem?_getD, List.getElem?_eq_getElem hlt, Option.getD_some]
        · rw [if_neg (Nat.lt_irrefl _), if_pos rfl, List.getElem_append_right (Nat.le_refl _)]
          simp
        · rw [if_neg (by omega), if_neg (by omega), List.getElem_append_right (by omega)]
          obtain ⟨m, hm⟩ : ∃ m, i - name.length = m + 1 := ⟨i - name.length - 1, by omega⟩
          have him : i = name.length + 1 + m := by omega
          subst him
          have hidx : name.length + 1 + m - name.length = m + 1 := by omega
          simp only [hidx, List.getElem_cons_succ, List.getElem_map, List.getElem_range]
          rw [hbyte _ (Nat.le_add_right 4 _), if_neg (by omega), if_neg (by omega)]
    rw [entryName, hrange, takeWhile_string hstring]
  have hload : inodeSector (fillEntry e name sector) = sector := by
    rw [inodeSector, fillEntry, Bytes.load_store_self]
    exact Nat.mod_eq_of_lt hsector
  rw [entryOf, if_pos hin, hstring', hload]

/-- Clearing `in_use` makes the entry free. -/
theorem entryOf_clear (e : Bytes) : entryOf (Function.update e 19 0) = none := by
  rw [entryOf, inUse, Function.update_self]
  rfl

end Jungle.FileSys
