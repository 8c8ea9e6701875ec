import Jungle.FileSys.Basic

/-!
# What `inode_read_at` and `inode_write_at` transfer

Both loops go through the data of an inode sector by sector. They transfer the bytes at consecutive
addresses on the disk, all that were asked for up to the end of the file, or fewer if there is no
memory for the bounce buffer.
-/

set_option autoImplicit false
set_option relaxedAutoImplicit false

namespace Jungle.FileSys

open Jungle.Lib

variable {s : State} {data : InodeDisk} {buffer : Bytes} {bounce : Bool}
  {rounds size offset moved : ℕ}

/-- The data sectors of an inode are on the disk. -/
def InodeDisk.Fits (data : InodeDisk) (s : State) : Prop :=
  ∀ pos : ℕ, (pos : ℤ) < data.length → OnDisk s (data.start + pos / DISK_SECTOR_SIZE)

/-- The address on the disk of a byte of a file. -/
def InodeDisk.addr (data : InodeDisk) (pos : ℕ) : ℕ := DISK_SECTOR_SIZE * data.start + pos

/-- The number of bytes from an offset on, up to the end of the file. -/
def InodeDisk.avail (data : InodeDisk) (size offset : ℕ) : ℕ :=
  min size (data.length.toNat - offset)

/-- The state after a transfer, in which the disk has changed and `malloc` has been called. -/
def State.transfer (s : State) (disk : Bytes) (calls : ℕ) : State :=
  { s with disk := disk, mallocs := fun i ↦ s.mallocs (i + calls) }

theorem chunkSize_le (data : InodeDisk) (size offset : ℕ) :
    chunkSize data size offset ≤ sectorLeft offset ∧
      chunkSize data size offset ≤ data.avail size offset := by
  simp only [chunkSize, InodeDisk.avail]
  split_ifs <;> omega

/-- The loops stop when there is nothing left. -/
theorem avail_of_chunkSize_eq_zero (h : chunkSize data size offset = 0) :
    data.avail size offset = 0 := by
  have hleft : 0 < sectorLeft offset :=
    Nat.sub_pos_of_lt (Nat.mod_lt offset (by decide))
  simp only [chunkSize] at h
  simp only [InodeDisk.avail]
  split_ifs at h <;> omega

/-- What is left after a chunk. -/
theorem avail_chunk {chunk : ℕ} (h : chunk ≤ data.avail size offset) :
    data.avail size offset = chunk + data.avail (size - chunk) (offset + chunk) := by
  simp only [InodeDisk.avail] at *
  omega

/-- The sector of a byte of the file. -/
theorem byteToSector_eq (hfits : data.Fits s) (hoffset : (offset : ℤ) < data.length) :
    byteToSector data offset = data.start + offset / DISK_SECTOR_SIZE ∧
      OnDisk s (byteToSector data offset) := by
  have hdisk := hfits offset hoffset
  have hmod : byteToSector data offset = data.start + offset / DISK_SECTOR_SIZE := by
    rw [byteToSector, if_pos hoffset, Nat.mod_eq_of_lt (Nat.lt_trans hdisk.2 (by decide))]
  exact ⟨hmod, hmod ▸ hdisk⟩

theorem addr_eq (data : InodeDisk) (offset : ℕ) :
    DISK_SECTOR_SIZE * (data.start + offset / DISK_SECTOR_SIZE) + sectorOfs offset =
      data.addr offset := by
  simp only [InodeDisk.addr, sectorOfs, DISK_SECTOR_SIZE]
  omega

theorem lt_length_of_chunk {chunk : ℕ} (hpos : 0 < chunk)
    (h : chunk ≤ data.avail size offset) : (offset : ℤ) < data.length := by
  simp only [InodeDisk.avail] at h
  omega

@[simp] theorem transfer_transfer (s : State) (disk disk' : Bytes) (k k' : ℕ) :
    (s.transfer disk k).transfer disk' k' = s.transfer disk' (k + k') := by
  simp only [State.transfer, State.mk.injEq, true_and]
  funext i
  congr 1
  omega

@[simp] theorem transfer_self (s : State) : s.transfer s.disk 0 = s := rfl

/-- What a loop has moved at its end, with the number of its calls of `malloc`: all there is if it has
a bounce buffer or gets one, and nothing of a part of a sector otherwise. -/
structure Moves (data : InodeDisk) (ok bounce : Bool) (size offset n calls : ℕ) : Prop where
  le : n ≤ data.avail size offset
  all : bounce = true ∨ ok = true → n = data.avail size offset
  none : size < DISK_SECTOR_SIZE → bounce = false → ok = false → n = 0
  calls : calls ≤ 1 ∧ (bounce = true → calls = 0)

theorem Moves.stop (h : data.avail size offset = 0) (ok bounce : Bool) :
    Moves data ok bounce size offset 0 0 where
  le := Nat.zero_le _
  all _ := h.symm
  none _ _ _ := rfl
  calls := ⟨Nat.zero_le 1, fun _ ↦ rfl⟩

/-- There is no bounce buffer to be had. -/
theorem Moves.fail (data : InodeDisk) (size offset : ℕ) :
    Moves data false false size offset 0 1 where
  le := Nat.zero_le _
  all h := by simp at h
  none _ _ _ := rfl
  calls := ⟨Nat.le_refl 1, fun h ↦ absurd h (by decide)⟩

variable {ok : Bool} {n calls : ℕ}

/-- A whole sector, without a bounce buffer. -/
theorem Moves.sector (hchunk : DISK_SECTOR_SIZE ≤ data.avail size offset)
    (h : Moves data ok bounce (size - DISK_SECTOR_SIZE) (offset + DISK_SECTOR_SIZE) n calls) :
    Moves data ok bounce size offset (DISK_SECTOR_SIZE + n) calls := by
  have havail := avail_chunk hchunk
  refine ⟨?_, fun hok ↦ ?_, fun hsize ↦ ?_, h.calls⟩
  · have hle := h.le
    omega
  · rw [havail, h.all hok]
  · simp only [InodeDisk.avail] at hchunk
    omega

/-- A chunk by way of the bounce buffer that there is. -/
theorem Moves.part {c : ℕ} (hchunk : c ≤ data.avail size offset)
    (h : Moves data ok true (size - c) (offset + c) n calls) :
    Moves data ok true size offset (c + n) calls where
  le := by
    have hle := h.le
    have havail := avail_chunk hchunk
    omega
  all _ := by rw [avail_chunk hchunk, h.all (Or.inl rfl)]
  none _ hbounce := absurd hbounce (by decide)
  calls := h.calls

/-- With a bounce buffer `malloc` does not matter. -/
theorem Moves.bounced {ok' : Bool} (h : Moves data ok true size offset n calls) :
    Moves data ok' true size offset n calls where
  le := h.le
  all _ := h.all (Or.inl rfl)
  none _ hbounce := absurd hbounce (by decide)
  calls := h.calls

/-- A chunk by way of a bounce buffer that has just been allocated. -/
theorem Moves.allocated (h : Moves data true true size offset n calls) :
    Moves data true false size offset n (1 + calls) where
  le := h.le
  all _ := h.all (Or.inl rfl)
  none _ _ hok := absurd hok (by decide)
  calls := ⟨by rw [h.calls.2 rfl], fun hbounce ↦ absurd hbounce (by decide)⟩

/-! ### Writing -/

/-- A sector that is written back with a chunk of it replaced. -/
theorem copy_sector (disk : Bytes) {start ofs chunk : ℕ} (hchunk : ofs + chunk ≤ DISK_SECTOR_SIZE) :
    disk.copy start (Bytes.copy (Bytes.copy (fun _ ↦ 0) 0 disk start DISK_SECTOR_SIZE) ofs buffer
      moved chunk) 0 DISK_SECTOR_SIZE = disk.copy (start + ofs) buffer moved chunk := by
  funext x
  simp only [Bytes.copy, Nat.zero_add, Nat.zero_le, true_and, Nat.sub_zero]
  split_ifs with hsector hin hin' hin'
  · congr 1
    omega
  · omega
  · omega
  · congr 1
    omega
  all_goals first | rfl | omega

theorem diskWrite_eq {sector : ℕ} (h : OnDisk s sector) (offset : ℕ) :
    diskWrite s sector buffer offset = some (s.transfer
      (s.disk.copy (DISK_SECTOR_SIZE * sector) buffer offset DISK_SECTOR_SIZE) 0) :=
  if_pos h

theorem diskRead_eq {sector : ℕ} (h : OnDisk s sector) (offset : ℕ) :
    diskRead s sector buffer offset =
      some (buffer.copy offset s.disk (DISK_SECTOR_SIZE * sector) DISK_SECTOR_SIZE) :=
  if_pos h

theorem OnDisk.transfer {sector : ℕ} (h : OnDisk s sector) (disk : Bytes) (calls : ℕ) :
    OnDisk (s.transfer disk calls) sector := h

theorem InodeDisk.Fits.transfer (h : data.Fits s) (disk : Bytes) (calls : ℕ) :
    data.Fits (s.transfer disk calls) := h

/-- `getBounce` calls `malloc` if there is no bounce buffer. -/
theorem getBounce_false (s : State) :
    getBounce s false = (s.mallocs 0, s.transfer s.disk 1) := rfl

/-- A round that writes a whole sector. -/
theorem writeLoop_sector (hfits : data.Fits s) (hofs : sectorOfs offset = 0)
    (hchunk : chunkSize data size offset = DISK_SECTOR_SIZE) :
    writeLoop data buffer (rounds + 1) s bounce size offset moved = writeLoop data buffer rounds
      (s.transfer (s.disk.copy (data.addr offset) buffer moved DISK_SECTOR_SIZE) 0) bounce
      (size - DISK_SECTOR_SIZE) (offset + DISK_SECTOR_SIZE) (moved + DISK_SECTOR_SIZE) := by
  have hle := (chunkSize_le data size offset).2
  obtain ⟨hsector, hdisk⟩ := byteToSector_eq hfits
    (lt_length_of_chunk (by rw [hchunk]; decide) hle)
  have haddr := addr_eq data offset
  rw [hofs, Nat.add_zero, ← hsector] at haddr
  rw [writeLoop, hchunk, if_neg (by decide), if_pos ⟨hofs, rfl⟩, diskWrite_eq hdisk, haddr]
  rfl

/-- A round that writes a chunk by way of the bounce buffer. -/
theorem writeLoop_chunk (hfits : data.Fits s) (hpos : 0 < chunkSize data size offset)
    (hpart : ¬(sectorOfs offset = 0 ∧ chunkSize data size offset = DISK_SECTOR_SIZE))
    (hbounce : getBounce s bounce = (true, s.transfer s.disk calls)) :
    writeLoop data buffer (rounds + 1) s bounce size offset moved = writeLoop data buffer rounds
      (s.transfer (s.disk.copy (data.addr offset) buffer moved (chunkSize data size offset)) calls)
      true (size - chunkSize data size offset) (offset + chunkSize data size offset)
      (moved + chunkSize data size offset) := by
  obtain ⟨hleft, hle⟩ := chunkSize_le data size offset
  obtain ⟨hsector, hdisk⟩ := byteToSector_eq hfits (lt_length_of_chunk hpos hle)
  have haddr := addr_eq data offset
  rw [← hsector] at haddr
  have hread : 0 < sectorOfs offset ∨ chunkSize data size offset < sectorLeft offset := by
    simp only [sectorLeft, DISK_SECTOR_SIZE] at hleft hpart ⊢
    omega
  have hend : sectorOfs offset + chunkSize data size offset ≤ DISK_SECTOR_SIZE := by
    have hlt : sectorOfs offset < DISK_SECTOR_SIZE := Nat.mod_lt offset (by decide)
    simp only [sectorLeft] at hleft
    omega
  rw [writeLoop, if_neg (by omega), if_neg hpart, hbounce]
  simp only [if_true, if_pos hread, diskRead_eq (hdisk.transfer s.disk calls),
    diskWrite_eq (hdisk.transfer s.disk calls), Option.bind_eq_bind, Option.bind_some,
    transfer_transfer, Nat.add_zero]
  congr 2
  exact (copy_sector s.disk hend).trans (by rw [haddr])

/-- A chunk, and what is written after it. -/
theorem transfer_chunk (s : State) (data : InodeDisk) (buffer : Bytes) (offset moved c n k k' : ℕ) :
    (s.transfer (s.disk.copy (data.addr offset) buffer moved c) k).transfer
      ((s.transfer (s.disk.copy (data.addr offset) buffer moved c) k).disk.copy
        (data.addr (offset + c)) buffer (moved + c) n) k' =
      s.transfer (s.disk.copy (data.addr offset) buffer moved (c + n)) (k + k') := by
  have haddr : data.addr (offset + c) = data.addr offset + c := (Nat.add_assoc ..).symm
  rw [transfer_transfer, ← Bytes.copy_copy, haddr]
  rfl

/-- The loop of `inode_write_at` replaces the bytes that it writes and changes no others. -/
theorem writeLoop_spec (hfits : data.Fits s) (hrounds : size ≤ rounds) :
    ∃ n calls, writeLoop data buffer rounds s bounce size offset moved =
      some (moved + n, s.transfer (s.disk.copy (data.addr offset) buffer moved n) calls) ∧
      Moves data (s.mallocs 0) bounce size offset n calls := by
  induction rounds generalizing s bounce size offset moved with
  | zero =>
    refine ⟨0, 0, by simp [writeLoop], Moves.stop ?_ _ _⟩
    simp only [InodeDisk.avail]
    omega
  | succ rounds ih =>
    obtain ⟨-, hle⟩ := chunkSize_le data size offset
    rcases Nat.eq_zero_or_pos (chunkSize data size offset) with hzero | hpos
    · refine ⟨0, 0, ?_, Moves.stop (avail_of_chunkSize_eq_zero hzero) _ _⟩
      rw [writeLoop, hzero, if_pos rfl, Bytes.copy_zero, transfer_self, Nat.add_zero]
    by_cases hpart : sectorOfs offset = 0 ∧ chunkSize data size offset = DISK_SECTOR_SIZE
    · rw [hpart.2] at hle hpos
      obtain ⟨n, calls, hloop, hmoves⟩ := ih
        (hfits.transfer (s.disk.copy (data.addr offset) buffer moved DISK_SECTOR_SIZE) 0)
        (by omega : size - DISK_SECTOR_SIZE ≤ rounds)
      refine ⟨DISK_SECTOR_SIZE + n, calls, ?_, Moves.sector hle hmoves⟩
      rw [writeLoop_sector hfits hpart.1 hpart.2, hloop, transfer_chunk, Nat.zero_add, Nat.add_assoc]
    have hround : ∀ calls₀, getBounce s bounce = (true, s.transfer s.disk calls₀) →
        ∃ n calls, writeLoop data buffer (rounds + 1) s bounce size offset moved =
          some (moved + n, s.transfer (s.disk.copy (data.addr offset) buffer moved n)
            (calls₀ + calls)) ∧ Moves data true true size offset n calls := by
      intro calls₀ hbounce
      obtain ⟨n, calls, hloop, hmoves⟩ := ih (hfits.transfer
        (s.disk.copy (data.addr offset) buffer moved (chunkSize data size offset)) calls₀)
        (by omega : size - chunkSize data size offset ≤ rounds)
      refine ⟨chunkSize data size offset + n, calls, ?_, hmoves.bounced.part hle⟩
      rw [writeLoop_chunk hfits hpos hpart hbounce, hloop, transfer_chunk, Nat.add_assoc]
    cases bounce with
    | true =>
      obtain ⟨n, calls, hloop, hmoves⟩ := hround 0 rfl
      exact ⟨n, calls, Nat.zero_add calls ▸ hloop, hmoves.bounced⟩
    | false =>
      cases hok : s.mallocs 0 with
      | true =>
        obtain ⟨n, calls, hloop, hmoves⟩ := hround 1 (by rw [getBounce_false, hok])
        exact ⟨n, 1 + calls, hloop, hmoves.allocated⟩
      | false =>
        refine ⟨0, 1, ?_, Moves.fail data size offset⟩
        rw [writeLoop, if_neg (by omega), if_neg hpart, getBounce_false, hok, Bytes.copy_zero]
        rfl

/-- `inode_write_at` on an inode that may be written replaces the bytes that it writes. -/
theorem inodeWriteAt_spec {p : ℕ} {inode : Inode} (hinode : s.inodes p = some inode)
    (hdeny : inode.denyWriteCnt = 0) (hfits : inode.data.Fits s) (buffer : Bytes)
    (size offset : ℕ) : ∃ n calls, inodeWriteAt s p buffer size offset =
      some (n, s.transfer (s.disk.copy (inode.data.addr offset) buffer 0 n) calls) ∧
      Moves inode.data (s.mallocs 0) false size offset n calls := by
  obtain ⟨n, calls, hloop, hmoves⟩ := writeLoop_spec hfits (Nat.le_refl size)
  refine ⟨n, calls, ?_, hmoves⟩
  simp only [inodeWriteAt, hinode, Option.bind_eq_bind, Option.bind_some, hdeny, ne_eq,
    not_true_eq_false, if_false]
  rw [hloop, Nat.zero_add]

/-- `inode_write_at` refuses to write to an inode to which writes are denied. -/
theorem inodeWriteAt_denied {p : ℕ} {inode : Inode} (hinode : s.inodes p = some inode)
    (hdeny : inode.denyWriteCnt ≠ 0) (buffer : Bytes) (size offset : ℕ) :
    inodeWriteAt s p buffer size offset = some (0, s) := by
  simp only [inodeWriteAt, hinode, Option.bind_eq_bind, Option.bind_some, if_pos hdeny,
    Option.pure_def]

/-! ### Reading -/

/-- A chunk of a sector that is copied from the bounce buffer. -/
theorem copy_bounce (disk : Bytes) {start ofs chunk : ℕ} (hchunk : ofs + chunk ≤ DISK_SECTOR_SIZE) :
    buffer.copy moved (Bytes.copy (fun _ ↦ 0) 0 disk start DISK_SECTOR_SIZE) ofs chunk =
      buffer.copy moved disk (start + ofs) chunk := by
  funext x
  simp only [Bytes.copy, Nat.zero_add, Nat.zero_le, true_and, Nat.sub_zero]
  split_ifs with hin hsector
  · rw [Nat.add_assoc]
  · omega
  · rfl

/-- A round that reads a whole sector. -/
theorem readLoop_sector (hfits : data.Fits s) (hofs : sectorOfs offset = 0)
    (hchunk : chunkSize data size offset = DISK_SECTOR_SIZE) :
    readLoop data (rounds + 1) s bounce buffer size offset moved = readLoop data rounds s bounce
      (buffer.copy moved s.disk (data.addr offset) DISK_SECTOR_SIZE) (size - DISK_SECTOR_SIZE)
      (offset + DISK_SECTOR_SIZE) (moved + DISK_SECTOR_SIZE) := by
  have hle := (chunkSize_le data size offset).2
  obtain ⟨hsector, hdisk⟩ := byteToSector_eq hfits
    (lt_length_of_chunk (by rw [hchunk]; decide) hle)
  have haddr := addr_eq data offset
  rw [hofs, Nat.add_zero, ← hsector] at haddr
  rw [readLoop, hchunk, if_neg (by decide), if_pos ⟨hofs, rfl⟩, diskRead_eq hdisk, haddr]
  rfl

/-- A round that reads a chunk by way of the bounce buffer. -/
theorem readLoop_chunk (hfits : data.Fits s) (hpos : 0 < chunkSize data size offset)
    (hpart : ¬(sectorOfs offset = 0 ∧ chunkSize data size offset = DISK_SECTOR_SIZE))
    (hbounce : getBounce s bounce = (true, s.transfer s.disk calls)) :
    readLoop data (rounds + 1) s bounce buffer size offset moved = readLoop data rounds
      (s.transfer s.disk calls) true
      (buffer.copy moved s.disk (data.addr offset) (chunkSize data size offset))
      (size - chunkSize data size offset) (offset + chunkSize data size offset)
      (moved + chunkSize data size offset) := by
  obtain ⟨hleft, hle⟩ := chunkSize_le data size offset
  obtain ⟨hsector, hdisk⟩ := byteToSector_eq hfits (lt_length_of_chunk hpos hle)
  have haddr := addr_eq data offset
  rw [← hsector] at haddr
  have hend : sectorOfs offset + chunkSize data size offset ≤ DISK_SECTOR_SIZE := by
    have hlt : sectorOfs offset < DISK_SECTOR_SIZE := Nat.mod_lt offset (by decide)
    simp only [sectorLeft] at hleft
    omega
  rw [readLoop, if_neg (by omega), if_neg hpart, hbounce]
  simp only [if_true, diskRead_eq (hdisk.transfer s.disk calls), Option.bind_eq_bind,
    Option.bind_some]
  congr 1
  exact (copy_bounce s.disk hend).trans (by rw [haddr])

/-- The loop of `inode_read_at` copies the bytes that it reads. -/
theorem readLoop_spec (hfits : data.Fits s) (hrounds : size ≤ rounds) :
    ∃ n calls, readLoop data rounds s bounce buffer size offset moved =
      some (moved + n, buffer.copy moved s.disk (data.addr offset) n,
        s.transfer s.disk calls) ∧ Moves data (s.mallocs 0) bounce size offset n calls := by
  induction rounds generalizing s bounce buffer size offset moved with
  | zero =>
    refine ⟨0, 0, by simp [readLoop], Moves.stop ?_ _ _⟩
    simp only [InodeDisk.avail]
    omega
  | succ rounds ih =>
    obtain ⟨-, hle⟩ := chunkSize_le data size offset
    rcases Nat.eq_zero_or_pos (chunkSize data size offset) with hzero | hpos
    · refine ⟨0, 0, ?_, Moves.stop (avail_of_chunkSize_eq_zero hzero) _ _⟩
      rw [readLoop, hzero, if_pos rfl, Bytes.copy_zero, transfer_self, Nat.add_zero]
    have haddr : ∀ c, data.addr (offset + c) = data.addr offset + c :=
      fun c ↦ (Nat.add_assoc ..).symm
    by_cases hpart : sectorOfs offset = 0 ∧ chunkSize data size offset = DISK_SECTOR_SIZE
    · rw [hpart.2] at hle hpos
      obtain ⟨n, calls, hloop, hmoves⟩ := ih hfits (by omega : size - DISK_SECTOR_SIZE ≤ rounds)
      refine ⟨DISK_SECTOR_SIZE + n, calls, ?_, Moves.sector hle hmoves⟩
      rw [readLoop_sector hfits hpart.1 hpart.2, hloop, haddr, Bytes.copy_copy, Nat.add_assoc]
    have hround : ∀ calls₀, getBounce s bounce = (true, s.transfer s.disk calls₀) →
        ∃ n calls, readLoop data (rounds + 1) s bounce buffer size offset moved =
          some (moved + n, buffer.copy moved s.disk (data.addr offset) n,
            s.transfer s.disk (calls₀ + calls)) ∧ Moves data true true size offset n calls := by
      intro calls₀ hbounce
      obtain ⟨n, calls, hloop, hmoves⟩ := ih (hfits.transfer s.disk calls₀)
        (by omega : size - chunkSize data size offset ≤ rounds)
      refine ⟨chunkSize data size offset + n, calls, ?_, hmoves.bounced.part hle⟩
      rw [readLoop_chunk hfits hpos hpart hbounce, hloop, haddr, transfer_transfer, Nat.add_assoc,
        ← Bytes.copy_copy]
      rfl
    cases bounce with
    | true =>
      obtain ⟨n, calls, hloop, hmoves⟩ := hround 0 rfl
      exact ⟨n, calls, Nat.zero_add calls ▸ hloop, hmoves.bounced⟩
    | false =>
      cases hok : s.mallocs 0 with
      | true =>
        obtain ⟨n, calls, hloop, hmoves⟩ := hround 1 (by rw [getBounce_false, hok])
        exact ⟨n, 1 + calls, hloop, hmoves.allocated⟩
      | false =>
        refine ⟨0, 1, ?_, Moves.fail data size offset⟩
        rw [readLoop, if_neg (by omega), if_neg hpart, getBounce_false, hok, Bytes.copy_zero]
        rfl

/-- `inode_read_at` copies the bytes that it reads. -/
theorem inodeReadAt_spec {p : ℕ} {inode : Inode} (hinode : s.inodes p = some inode)
    (hfits : inode.data.Fits s) (buffer : Bytes) (size offset : ℕ) :
    ∃ n calls, inodeReadAt s p buffer size offset =
      some (n, buffer.copy 0 s.disk (inode.data.addr offset) n, s.transfer s.disk calls) ∧
      Moves inode.data (s.mallocs 0) false size offset n calls := by
  obtain ⟨n, calls, hloop, hmoves⟩ := readLoop_spec hfits (Nat.le_refl size)
  refine ⟨n, calls, ?_, hmoves⟩
  simp only [inodeReadAt, hinode, Option.bind_eq_bind, Option.bind_some]
  rw [hloop, Nat.zero_add]

end Jungle.FileSys
