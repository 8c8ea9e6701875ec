import Jungle.FileSys.Transfers

/-!
# The bytes of a file

The data of an inode as a list of bytes. `inode_write_at` puts the bytes of the buffer in place of those
from the offset on, as far as the file goes, and changes nothing else on the disk; `inode_read_at`
returns the bytes from the offset on (`read_after_writes`).
-/

set_option autoImplicit false
set_option relaxedAutoImplicit false

namespace Jungle.FileSys

open Jungle.Lib

/-- The bytes of a file. -/
def InodeDisk.contents (data : InodeDisk) (disk : Bytes) : List UInt8 :=
  (List.range data.length.toNat).map fun pos ↦ disk (data.addr pos)

/-- A call of `inode_write_at`. -/
structure Write where
  buffer : Bytes
  size : ℕ
  offset : ℕ

/-- The bytes of a file with those of a write in place of the old ones. -/
def overwrite (file : List UInt8) (w : Write) : List UInt8 := file.mapIdx fun i b ↦
  if w.offset ≤ i ∧ i < w.offset + w.size then w.buffer (i - w.offset) else b

/-- Calls of `inode_write_at` in a row: the numbers of bytes written and the state. -/
def writeAll (s : State) (p : ℕ) : List Write → Option (List ℕ × State)
  | [] => some ([], s)
  | w :: writes => do
    let (n, s) ← inodeWriteAt s p w.buffer w.size w.offset
    let (ns, s) ← writeAll s p writes
    return (n :: ns, s)

/-- The number of bytes of a transfer: `max 0 (min size (length - offset))`. -/
def transferred (data : InodeDisk) (size offset : ℕ) : ℕ :=
  (max 0 (min (size : ℤ) (data.length - offset))).toNat

/-- An address on the disk that is not one of the file. -/
def InodeDisk.Outside (data : InodeDisk) (x : ℕ) : Prop :=
  ∀ pos < data.length.toNat, x ≠ data.addr pos

variable {s s' : State} {data : InodeDisk} {p : ℕ} {inode : Inode}

theorem avail_eq_transferred (data : InodeDisk) (size offset : ℕ) :
    data.avail size offset = transferred data size offset := by
  simp only [InodeDisk.avail, transferred]
  omega

theorem contents_getElem? (disk : Bytes) {i : ℕ} (hi : i < data.length.toNat) :
    (data.contents disk)[i]? = some (disk (data.addr i)) := by
  rw [InodeDisk.contents, List.getElem?_map, List.getElem?_range hi, Option.map_some]

theorem overwrite_getElem? (file : List UInt8) (w : Write) (i : ℕ) :
    (overwrite file w)[i]? = file[i]?.map fun b ↦
      if w.offset ≤ i ∧ i < w.offset + w.size then w.buffer (i - w.offset) else b :=
  List.getElem?_mapIdx

/-- A write replaces the bytes of the file. -/
theorem contents_copy (data : InodeDisk) (disk : Bytes) (w : Write) :
    data.contents (disk.copy (data.addr w.offset) w.buffer 0
      (transferred data w.size w.offset)) = overwrite (data.contents disk) w := by
  unfold InodeDisk.contents overwrite
  refine List.ext_getElem (by simp) fun i hi _ ↦ ?_
  rw [List.length_map, List.length_range] at hi
  simp only [List.getElem_map, List.getElem_range, List.getElem_mapIdx, Bytes.copy,
    InodeDisk.addr, transferred, Nat.zero_add]
  have hsub : DISK_SECTOR_SIZE * data.start + i - (DISK_SECTOR_SIZE * data.start + w.offset) =
      i - w.offset := Nat.add_sub_add_left ..
  rw [hsub]
  congr 1
  rw [eq_iff_iff]
  omega

/-- A write changes no byte outside the file. -/
theorem copy_outside (data : InodeDisk) (disk : Bytes) (w : Write) {x : ℕ} (hx : data.Outside x) :
    disk.copy (data.addr w.offset) w.buffer 0 (transferred data w.size w.offset) x = disk x := by
  refine if_neg fun ⟨hstart, hend⟩ ↦ ?_
  refine hx (x - DISK_SECTOR_SIZE * data.start) ?_ ?_
  · simp only [InodeDisk.addr, transferred] at hstart hend
    omega
  · simp only [InodeDisk.addr] at hstart ⊢
    omega

/-- A file that can be transferred: its inode is there, its data is on the disk, and `malloc`
succeeds. -/
structure Ready (s : State) (p : ℕ) (inode : Inode) : Prop where
  found : s.inodes p = some inode
  fits : inode.data.Fits s
  mallocs : ∀ i, s.mallocs i = true

theorem Ready.transfer (h : Ready s p inode) (disk : Bytes) (calls : ℕ) :
    Ready (s.transfer disk calls) p inode :=
  ⟨h.found, h.fits.transfer disk calls, fun i ↦ h.mallocs (i + calls)⟩

theorem Ready.mallocs_eq (h : Ready s p inode) : s.mallocs = fun _ ↦ true := funext h.mallocs

/-- Calls of `malloc` that succeed leave no trace. -/
theorem Ready.transfer_eq (h : Ready s p inode) (disk : Bytes) (calls : ℕ) :
    s.transfer disk calls = { s with disk := disk } := by
  rw [State.transfer, h.mallocs_eq]

/-- What a call of `inode_write_at` does. -/
theorem Ready.write (h : Ready s p inode) (hdeny : inode.denyWriteCnt = 0) (w : Write) :
    inodeWriteAt s p w.buffer w.size w.offset = some (transferred inode.data w.size w.offset,
      { s with
        disk := s.disk.copy (inode.data.addr w.offset) w.buffer 0
          (transferred inode.data w.size w.offset) }) := by
  obtain ⟨n, calls, hwrite, hmoves⟩ := inodeWriteAt_spec h.found hdeny h.fits w.buffer w.size w.offset
  obtain rfl : n = transferred inode.data w.size w.offset :=
    (hmoves.all (Or.inr (h.mallocs 0))).trans (avail_eq_transferred ..)
  rw [hwrite, h.transfer_eq]

/-- What a call of `inode_read_at` does. -/
theorem Ready.read (h : Ready s p inode) (buffer : Bytes) (size offset : ℕ) :
    inodeReadAt s p buffer size offset = some (transferred inode.data size offset,
      buffer.copy 0 s.disk (inode.data.addr offset) (transferred inode.data size offset), s) := by
  obtain ⟨n, calls, hread, hmoves⟩ := inodeReadAt_spec h.found h.fits buffer size offset
  obtain rfl : n = transferred inode.data size offset :=
    (hmoves.all (Or.inr (h.mallocs 0))).trans (avail_eq_transferred ..)
  rw [hread, h.transfer_eq]

/-- Writes in a row change the file as they should, and nothing else. -/
theorem Ready.writeAll (h : Ready s p inode) (hdeny : inode.denyWriteCnt = 0) (writes : List Write) :
    ∃ disk, FileSys.writeAll s p writes =
        some (writes.map fun w ↦ transferred inode.data w.size w.offset, { s with disk := disk }) ∧
      inode.data.contents disk = writes.foldl overwrite (inode.data.contents s.disk) ∧
      ∀ x, inode.data.Outside x → disk x = s.disk x := by
  induction writes generalizing s with
  | nil => exact ⟨s.disk, rfl, rfl, fun _ _ ↦ rfl⟩
  | cons w writes ih =>
    have hready : Ready { s with
        disk := s.disk.copy (inode.data.addr w.offset) w.buffer 0
          (transferred inode.data w.size w.offset) } p inode := ⟨h.found, h.fits, h.mallocs⟩
    obtain ⟨disk, hwrites, hcontents, houtside⟩ := ih hready
    refine ⟨disk, ?_, ?_, fun x hx ↦ (houtside x hx).trans (copy_outside _ _ w hx)⟩
    · rw [FileSys.writeAll, h.write hdeny, Option.bind_eq_bind, Option.bind_some]
      dsimp only
      rw [hwrites]
      rfl
    · rw [hcontents, contents_copy, List.foldl_cons]

/-- A read returns the bytes of the file from the offset on. -/
theorem copy_contents {buffer disk : Bytes} {size offset i : ℕ}
    (hi : i < transferred data size offset) :
    (data.contents disk)[offset + i]? =
      some (buffer.copy 0 disk (data.addr offset) (transferred data size offset) i) := by
  have hlt : offset + i < data.length.toNat := by
    unfold transferred at hi
    omega
  have hin : 0 ≤ i ∧ i < 0 + transferred data size offset := ⟨Nat.zero_le i, by omega⟩
  rw [contents_getElem? disk hlt, Bytes.copy, if_pos hin, Nat.sub_zero, InodeDisk.addr,
    InodeDisk.addr, Nat.add_assoc]

/-- What `inode_read_at` returns: so many bytes of the file, from the offset on. -/
theorem Ready.read_contents (h : Ready s p inode) (buffer : Bytes) (size offset : ℕ) :
    ∃ buffer', inodeReadAt s p buffer size offset =
        some (transferred inode.data size offset, buffer', s) ∧
      (∀ i < transferred inode.data size offset,
        (inode.data.contents s.disk)[offset + i]? = some (buffer' i)) ∧
      ∀ i, transferred inode.data size offset ≤ i → buffer' i = buffer i := by
  refine ⟨_, h.read buffer size offset, fun i hi ↦ copy_contents hi, fun i hi ↦ if_neg fun hin ↦ ?_⟩
  omega

/-- A write returns the number of bytes that the file has from the offset on, up to the size, and
replaces these bytes only; a read returns that number and these bytes; and a read after any writes
returns the bytes of the file to which the writes have been applied in order. -/
theorem read_after_writes (h : Ready s p inode) (hdeny : inode.denyWriteCnt = 0) :
    (∀ w : Write, ∃ disk, inodeWriteAt s p w.buffer w.size w.offset =
        some (transferred inode.data w.size w.offset, { s with disk := disk }) ∧
      inode.data.contents disk = overwrite (inode.data.contents s.disk) w ∧
      ∀ x, inode.data.Outside x → disk x = s.disk x) ∧
    (∀ (buffer : Bytes) (size offset : ℕ), ∃ buffer', inodeReadAt s p buffer size offset =
        some (transferred inode.data size offset, buffer', s) ∧
      (∀ i < transferred inode.data size offset,
        (inode.data.contents s.disk)[offset + i]? = some (buffer' i)) ∧
      ∀ i, transferred inode.data size offset ≤ i → buffer' i = buffer i) ∧
    ∀ (writes : List Write) (buffer : Bytes) (size offset : ℕ), ∃ ns s' buffer',
      FileSys.writeAll s p writes = some (ns, s') ∧
      inodeReadAt s' p buffer size offset =
        some (transferred inode.data size offset, buffer', s') ∧
      ∀ i < transferred inode.data size offset,
        (writes.foldl overwrite (inode.data.contents s.disk))[offset + i]? = some (buffer' i) := by
  refine ⟨fun w ↦ ?_, h.read_contents, fun writes buffer size offset ↦ ?_⟩
  · exact ⟨_, h.write hdeny w, contents_copy .., fun x hx ↦ copy_outside _ _ w hx⟩
  · obtain ⟨disk, hwrites, hcontents, -⟩ := h.writeAll hdeny writes
    have hready : Ready { s with disk := disk } p inode := ⟨h.found, h.fits, h.mallocs⟩
    obtain ⟨buffer', hread, hbytes, -⟩ := hready.read_contents buffer size offset
    exact ⟨_, _, buffer', hwrites, hread, fun i hi ↦ hcontents ▸ hbytes i hi⟩

/-- A disk of eight sectors with an inode for the `600` bytes from its third sector on. -/
def smallDisk : State where
  disk := fun _ ↦ 0
  capacity := 8
  mem := fun _ ↦ 0
  freeMap := 0
  freeMapFile := none
  inodes := Store.empty.put 0 ⟨1, 1, false, 0, ⟨2, 600, INODE_MAGIC⟩⟩
  openInodes := [0]
  files := Store.empty
  next := 1
  mallocs := fun _ ↦ true

/-- Two writes across the border of the sectors, the second of which stops at the end of the file. -/
theorem read_after_writes_small : ∃ ns s' buffer', FileSys.writeAll smallDisk 0
    [⟨fun _ ↦ 1, 20, 500⟩, ⟨fun _ ↦ 2, 1000, 510⟩] = some (ns, s') ∧
      inodeReadAt s' 0 (fun _ ↦ 0) 12 500 = some (12, buffer', s') ∧ buffer' 9 = 1 ∧
      buffer' 10 = 2 := by
  have hready : Ready smallDisk 0 ⟨1, 1, false, 0, ⟨2, 600, INODE_MAGIC⟩⟩ := by
    refine ⟨rfl, fun pos hpos ↦ ?_, fun _ ↦ rfl⟩
    replace hpos : (pos : ℤ) < 600 := hpos
    have hsector : pos / 512 < 2 := by omega
    exact ⟨show 2 + pos / 512 < 8 by omega, show 2 + pos / 512 < 2 ^ 28 by omega⟩
  obtain ⟨ns, s', buffer', hwrites, hread, hbytes⟩ := (read_after_writes hready rfl).2.2
    [⟨fun _ ↦ 1, 20, 500⟩, ⟨fun _ ↦ 2, 1000, 510⟩] (fun _ ↦ 0) 12 500
  refine ⟨ns, s', buffer', hwrites, hread, ?_, ?_⟩
  · have hbyte := hbytes 9 (by decide)
    rw [List.foldl_cons, List.foldl_cons, List.foldl_nil, overwrite_getElem?, overwrite_getElem?,
      contents_getElem? _ (by decide), Option.map_some, if_pos (by decide), Option.map_some,
      if_neg (by decide)] at hbyte
    exact (Option.some.inj hbyte).symm
  · have hbyte := hbytes 10 (by decide)
    rw [List.foldl_cons, List.foldl_cons, List.foldl_nil, overwrite_getElem?, overwrite_getElem?,
      contents_getElem? _ (by decide), Option.map_some, Option.map_some, if_pos (by decide)] at hbyte
    exact (Option.some.inj hbyte).symm

end Jungle.FileSys
