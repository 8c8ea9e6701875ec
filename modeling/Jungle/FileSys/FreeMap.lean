import Jungle.Bitmap.Bits
import Jungle.FileSys.Contents
import Jungle.FileSys.Entries

/-!
# The free map

`free_map_allocate` sets the bits of sectors that were free, and `free_map_release` clears them. Both write
the bits to the file of the free map and to no other place on the disk; the allocation is undone where this
fails.
-/

set_option autoImplicit false
set_option relaxedAutoImplicit false

namespace Jungle.FileSys

open Jungle.Lib Jungle.Bitmap

/-- The file of the free map is open and has the data. -/
structure MapFile (s : State) (data : InodeDisk) : Prop where
  file : ∃ m file inode, s.freeMapFile = some m ∧ s.files m = some file ∧
    s.inodes file.inode = some inode ∧ inode.data = data ∧ inode.denyWriteCnt = 0
  fits : data.Fits s

/-- The state with other bits in the free map, after they have been written to the disk. -/
def State.mapped (s : State) (mem : Memory) (disk : Bytes) (calls : ℕ) : State :=
  ({ s with mem := mem } : State).transfer disk calls

/-- The disk has changed within a file only. -/
def WritesTo (data : InodeDisk) (disk disk' : Bytes) : Prop :=
  ∀ x, data.Outside x → disk' x = disk x

/-- A bit in the file of the free map. -/
def mapBit (data : InodeDisk) (disk : Bytes) (x : ℕ) : Bool :=
  (disk (data.addr (x / 8))).toNat.testBit (x % 8)

/-- The sectors that are in use are so in the file of the free map. -/
def Durable (data : InodeDisk) (disk : Bytes) (n : ℕ) (f : ℕ → Bool) : Prop :=
  ∀ x < n, f x = true → x / 8 < data.length.toNat ∧ mapBit data disk x = true

variable {s s' : State} {data : InodeDisk} {f g : ℕ → Bool} {n sector cnt : ℕ} {mem : Memory}
  {disk disk' : Bytes}

theorem writesTo_refl (data : InodeDisk) (disk : Bytes) : WritesTo data disk disk := fun _ _ ↦ rfl

theorem WritesTo.trans {disk'' : Bytes} (h : WritesTo data disk disk')
    (h' : WritesTo data disk' disk'') : WritesTo data disk disk'' :=
  fun x hx ↦ (h' x hx).trans (h x hx)

theorem MapFile.mapped (h : MapFile s data) (mem : Memory) (disk : Bytes) (calls : ℕ) :
    MapFile (s.mapped mem disk calls) data :=
  ⟨h.file, h.fits⟩

@[simp] theorem mapped_mapped (s : State) (mem mem' : Memory) (disk disk' : Bytes) (k k' : ℕ) :
    (s.mapped mem disk k).mapped mem' disk' k' = s.mapped mem' disk' (k + k') := by
  simp only [State.mapped, State.transfer, State.mk.injEq, true_and]
  funext i
  congr 1
  omega

@[simp] theorem mapped_transfer (s : State) (mem : Memory) (disk disk' : Bytes) (k k' : ℕ) :
    (s.mapped mem disk k).transfer disk' k' = s.mapped mem disk' (k + k') :=
  mapped_mapped s mem mem disk disk' k k'

theorem malloc_eq (s : State) : malloc s = (s.mallocs 0, s.mapped s.mem s.disk 1) := rfl

/-- Writing to a file changes its bytes only. -/
theorem writesTo_copy (data : InodeDisk) (disk buffer : Bytes) {offset k : ℕ}
    (hk : k ≤ data.length.toNat - offset) :
    WritesTo data disk (disk.copy (data.addr offset) buffer 0 k) := by
  refine fun x hx ↦ Bytes.copy_of_not_mem fun ⟨hle, hlt⟩ ↦ ?_
  refine hx (x - DISK_SECTOR_SIZE * data.start) ?_ ?_
  · unfold InodeDisk.addr at hle hlt
    omega
  · unfold InodeDisk.addr at hle ⊢
    omega

/-! ### The bits in the file -/

theorem bitmapBytes_testBit {b x : ℕ} (h : IsBitmap mem b n f) (hx : x < n) :
    (bitmapBytes mem b (x / 8)).toNat.testBit (x % 8) = f x := by
  have haddr : (mem (b + 8)).toNat + 8 * (x / 8 / 8) = elemAddr mem b x := by
    rw [elemAddr, elemIdx, ELEM_BITS, Nat.div_div_eq_div_mul]
  have hpow : 256 ^ (x / 8 % 8) = 2 ^ (8 * (x / 8 % 8)) := by
    rw [Nat.pow_mul]
  have hindex : 8 * (x / 8 % 8) + x % 8 = x % ELEM_BITS := by
    unfold ELEM_BITS
    omega
  have hbyte : ∀ v : ℕ, (UInt8.ofNat v).toNat = v % 2 ^ 8 := fun v ↦ rfl
  rw [← h.bit x hx, bitmapBytes, haddr, hpow, hbyte, Nat.testBit_mod_two_pow, Nat.testBit_div_two_pow,
    Nat.add_comm (x % 8), hindex, decide_eq_true (Nat.mod_lt x (by decide)), Bool.true_and]
  rfl

/-- A write from the start of the file on changes the first bits to those that are written. -/
theorem mapBit_copy (data : InodeDisk) (disk buffer : Bytes) (k x : ℕ) :
    mapBit data (disk.copy (data.addr 0) buffer 0 k) x =
      if x / 8 < k then (buffer (x / 8)).toNat.testBit (x % 8) else mapBit data disk x := by
  have haddr : data.addr (x / 8) = data.addr 0 + x / 8 := by
    unfold InodeDisk.addr
    omega
  unfold mapBit
  split_ifs with hx
  · rw [Bytes.copy_of_mem (by omega), haddr, Nat.add_sub_cancel_left, Nat.zero_add]
  · rw [Bytes.copy_of_not_mem (by omega)]

/-- What a call of `bitmap_write` writes: the first bytes of the bitmap, and all of them if it succeeds. -/
def WritesBits (data : InodeDisk) (bytes disk : Bytes) (n : ℕ) (ok : Bool) (disk' : Bytes) : Prop :=
  ∃ k, disk' = disk.copy (data.addr 0) bytes 0 k ∧ k ≤ data.length.toNat ∧ (ok = true → k = byteCnt n)

theorem WritesBits.writesTo {bytes : Bytes} {ok : Bool} (h : WritesBits data bytes disk n ok disk') :
    WritesTo data disk disk' := by
  obtain ⟨k, rfl, hk, -⟩ := h
  exact writesTo_copy _ _ _ (by omega)

theorem lt_byteCnt {x : ℕ} (hx : x < n) : x / 8 < byteCnt n := by
  unfold byteCnt elemCnt ELEM_BITS
  omega

/-- Bits that were in use before and are in the bitmap that is written are in use in the file, however much of it
is written. -/
theorem Durable.write {b : ℕ} {ok : Bool} (h : Durable data disk n f)
    (hwrites : WritesBits data (bitmapBytes mem b) disk n ok disk') (hbits : IsBitmap mem b n g)
    (hfg : ∀ x < n, f x = true → g x = true) : Durable data disk' n f := by
  obtain ⟨k, rfl, -⟩ := hwrites
  refine fun x hx hused ↦ ⟨(h x hx hused).1, ?_⟩
  rw [mapBit_copy, bitmapBytes_testBit hbits hx]
  split_ifs
  · exact hfg x hx hused
  · exact (h x hx hused).2

/-- The bits in the file of the free map are those of the bitmap. -/
def Saved (data : InodeDisk) (disk : Bytes) (n : ℕ) (f : ℕ → Bool) : Prop :=
  ∀ x < n, x / 8 < data.length.toNat ∧ mapBit data disk x = f x

theorem Saved.durable (h : Saved data disk n f) : Durable data disk n f :=
  fun x hx hused ↦ ⟨(h x hx).1, (h x hx).2.trans hused⟩

/-- All bits are in the file once they have been written. -/
theorem saved_write {b : ℕ} (hwrites : WritesBits data (bitmapBytes mem b) disk n true disk')
    (hbits : IsBitmap mem b n g) : Saved data disk' n g := by
  obtain ⟨k, rfl, hle, hall⟩ := hwrites
  obtain rfl := hall rfl
  refine fun x hx ↦ ⟨(lt_byteCnt hx).trans_le hle, ?_⟩
  rw [mapBit_copy, if_pos (lt_byteCnt hx), bitmapBytes_testBit hbits hx]

/-- Fewer sectors are in use. -/
theorem Durable.mono (h : Durable data disk n f) (hgf : ∀ x < n, g x = true → f x = true) :
    Durable data disk n g :=
  fun x hx hused ↦ h x hx (hgf x hx hused)

/-! ### Writing and changing it -/

/-- `bitmap_write` writes to the file of the free map. If that has the size of the bitmap, it writes all of it,
unless `malloc` fails. -/
theorem freeMapWrite_spec (h : MapFile s data) : ∃ ok disk calls,
    freeMapWrite s = some (ok, s.transfer disk calls) ∧
      WritesBits data (bitmapBytes s.mem s.freeMap) s.disk (bitmapSize s.mem s.freeMap) ok disk ∧
      (byteCnt (bitmapSize s.mem s.freeMap) = data.length.toNat →
        calls = tailCalls data.length.toNat ∧ (ok = true ↔ ∀ i < calls, s.mallocs i = true)) := by
  obtain ⟨m, file, inode, hm, hfile, hinode, rfl, hdeny⟩ := h.file
  have hwrite : ∀ {k disk calls}, inodeWriteAt s file.inode (bitmapBytes s.mem s.freeMap)
      (byteCnt (bitmapSize s.mem s.freeMap)) 0 = some (k, s.transfer disk calls) →
      freeMapWrite s = some (decide (k = byteCnt (bitmapSize s.mem s.freeMap)),
        s.transfer disk calls) := fun hwrite ↦ by
    simp only [freeMapWrite, hm, fileWriteAt, hfile, hwrite, Option.bind_eq_bind, Option.bind_some,
      Option.pure_def]
  by_cases hsize : byteCnt (bitmapSize s.mem s.freeMap) = inode.data.length.toNat
  · obtain ⟨k, hall, hle, hiff⟩ := inodeWriteAt_whole hinode hdeny h.fits hsize
      (bitmapBytes s.mem s.freeMap)
    refine ⟨_, _, _, hwrite hall, ⟨k, rfl, by omega, of_decide_eq_true⟩, fun _ ↦ ⟨hsize ▸ rfl, ?_⟩⟩
    rw [decide_eq_true_iff, hiff]
  · obtain ⟨k, calls, hpart, hmoves⟩ := inodeWriteAt_spec hinode hdeny h.fits
      (bitmapBytes s.mem s.freeMap) (byteCnt (bitmapSize s.mem s.freeMap)) 0
    have hle := hmoves.le
    exact ⟨_, _, _, hwrite hpart, ⟨k, rfl, by unfold InodeDisk.avail at hle; omega, of_decide_eq_true⟩,
      fun heq ↦ absurd heq hsize⟩

/-- Where it returns, `free_map_release` changes the free map and its file only. -/
theorem freeMapRelease_frame (h : MapFile s data) (hrelease : freeMapRelease s sector cnt = some s') :
    ∃ mem disk calls, s' = s.mapped mem disk calls ∧ WritesTo data s.disk disk := by
  obtain ⟨all, -, hrelease⟩ := Option.bind_eq_some_iff.mp hrelease
  cases all with
  | false => exact absurd hrelease.symm (Option.some_ne_none s')
  | true =>
    rw [if_pos rfl] at hrelease
    obtain ⟨mem, -, hrelease⟩ := Option.bind_eq_some_iff.mp hrelease
    obtain ⟨ok, disk, calls, hwrite, hwrites, -⟩ :=
      freeMapWrite_spec (s := { s with mem := mem }) ⟨h.file, h.fits⟩
    rw [hwrite] at hrelease
    exact ⟨mem, disk, calls, (Option.some.inj hrelease).symm, hwrites.writesTo⟩

/-- `free_map_release` of sectors in use clears their bits. -/
theorem freeMapRelease_spec (h : MapFile s data) (hbits : IsBitmap s.mem s.freeMap n f)
    (hrun : IsRun f n cnt true sector) : ∃ mem disk calls,
    freeMapRelease s sector cnt = some (s.mapped mem disk calls) ∧
      IsBitmap mem s.freeMap n (setRange f sector cnt false) ∧ WritesTo data s.disk disk ∧
      (Durable data s.disk n f → Durable data disk n (setRange f sector cnt false)) := by
  obtain ⟨hle, hused⟩ := hrun
  obtain ⟨result, hcontains, hiff⟩ := bitmapContains_spec hbits hle false
  obtain rfl : result = false := by
    refine Bool.eq_false_iff.mpr fun htrue ↦ ?_
    obtain ⟨i, hi, hi', hclear⟩ := hiff.mp htrue
    exact Bool.false_ne_true (hclear.symm.trans (hused i hi hi'))
  obtain ⟨mem, hset, hsets⟩ := bitmapSetMultiple_spec hbits hle false
  obtain ⟨ok, disk, calls, hwrite, hwrites, -⟩ :=
    freeMapWrite_spec (s := { s with mem := mem }) ⟨h.file, h.fits⟩
  refine ⟨mem, disk, calls, ?_, hsets.isBitmap, hwrites.writesTo, fun hdurable ↦ ?_⟩
  · simp only [freeMapRelease, bitmapAll, hcontains, hset, hwrite, Option.bind_eq_bind,
      Option.bind_some, Option.pure_def, Bool.not_false, if_true]
    rfl
  · rw [show bitmapSize mem s.freeMap = n from hsets.isBitmap.size] at hwrites
    refine (hdurable.mono fun x _ hused ↦ ?_).write hwrites hsets.isBitmap fun _ _ ↦ id
    unfold setRange at hused
    split_ifs at hused
    exact hused

/-- What a call of `free_map_allocate` does with the bits: it sets those of the first run of sectors that are
free, or leaves them as they were. If the file of the free map has the size of the bitmap, it fails only where
there is no run or `malloc` fails. -/
structure Allocates (s : State) (data : InodeDisk) (n : ℕ) (f : ℕ → Bool) (cnt : ℕ)
    (result : Option ℕ) (mem : Memory) (disk : Bytes) (calls : ℕ) : Prop where
  writes : WritesTo data s.disk disk
  fails : result = none → IsBitmap mem s.freeMap n f
  allocates : ∀ i, result = some i → IsRun f n cnt false i ∧ (∀ j < i, ¬IsRun f n cnt false j) ∧
    IsBitmap mem s.freeMap n (setRange f i cnt true)
  durable : Durable data s.disk n f →
    Durable data disk n (result.elim f fun i ↦ setRange f i cnt true)
  saved : ∀ i, result = some i → Saved data disk n (setRange f i cnt true)
  exact : byteCnt n = data.length.toNat →
    (result.isSome ↔ (∃ i, IsRun f n cnt false i) ∧ ∀ i < tailCalls (byteCnt n), s.mallocs i = true) ∧
      (result.isSome → calls = tailCalls (byteCnt n))

theorem freeMapAllocate_spec (h : MapFile s data) (hbits : IsBitmap s.mem s.freeMap n f)
    (hn : n < SIZE_MAX) (cnt : ℕ) : ∃ result mem disk calls,
    freeMapAllocate s cnt = some (result, s.mapped mem disk calls) ∧
      Allocates s data n f cnt result mem disk calls := by
  obtain ⟨m, file, inode, hm, -⟩ := h.file
  obtain ⟨i, mem, hscan, hscans, hflips, hsame⟩ :=
    bitmapScanAndFlip_spec hbits (Nat.zero_le n) cnt false
  rcases hscans with ⟨-, hrun, hfirst⟩ | ⟨rfl, hnone⟩
  · have hi : i ≠ BITMAP_ERROR := by
      have hle := hrun.1
      unfold BITMAP_ERROR
      omega
    have hsets := hflips hi
    have hfile : s.freeMapFile ≠ none := by simp [hm]
    obtain ⟨ok, disk, calls, hwrite, hwrites, hexact⟩ :=
      freeMapWrite_spec (s := { s with mem := mem }) ⟨h.file, h.fits⟩
    rw [show bitmapSize mem s.freeMap = n from hsets.isBitmap.size] at hwrites hexact
    cases ok with
    | true =>
      refine ⟨some i, mem, disk, calls, ?_, hwrites.writesTo, fun h ↦ absurd h (Option.some_ne_none i), ?_,
        fun _ ↦ (saved_write hwrites hsets.isBitmap).durable, ?_, ?_⟩
      · simp only [freeMapAllocate, hscan, Option.bind_eq_bind, Option.bind_some, if_neg hi,
          if_neg hfile, hwrite, if_true, Option.pure_def]
        rfl
      · rintro _ ⟨⟩
        exact ⟨hrun, fun j hj ↦ hfirst j (Nat.zero_le j) hj, hsets.isBitmap⟩
      · rintro _ ⟨⟩
        exact saved_write hwrites hsets.isBitmap
      · intro hsize
        obtain ⟨hcalls, hiff⟩ := hexact hsize
        rw [hsize, ← hcalls]
        exact ⟨iff_of_true rfl ⟨⟨i, hrun⟩, hiff.mp rfl⟩, fun _ ↦ rfl⟩
    | false =>
      obtain ⟨mem', hset, hsets'⟩ := bitmapSetMultiple_spec hsets.isBitmap hrun.1 false
      refine ⟨none, mem', disk, calls, ?_, hwrites.writesTo, fun _ ↦ hsets'.isBitmap.congr fun j _ ↦ ?_,
        fun i h ↦ absurd h.symm (Option.some_ne_none i),
        fun hdurable ↦ hdurable.write hwrites hsets.isBitmap fun x _ hused ↦ ?_,
        fun i h ↦ absurd h.symm (Option.some_ne_none i), fun hsize ↦ ?_⟩
      · simp only [freeMapAllocate, hscan, Option.bind_eq_bind, Option.bind_some, if_neg hi,
          if_neg hfile, hwrite, Bool.false_eq_true, if_false, Option.pure_def]
        change (bitmapSetMultiple mem s.freeMap i cnt false).bind _ = _
        rw [hset]
        rfl
      · unfold setRange
        split_ifs with hj
        · exact hrun.2 j hj.1 hj.2
        · rfl
      · unfold setRange
        split_ifs
        · rfl
        · exact hused
      · obtain ⟨hcalls, hiff⟩ := hexact hsize
        rw [hsize, ← hcalls]
        exact ⟨iff_of_false Bool.false_ne_true fun hall ↦ Bool.false_ne_true (hiff.mpr hall.2),
          fun h ↦ absurd h Bool.false_ne_true⟩
  · obtain rfl := hsame rfl
    refine ⟨none, s.mem, s.disk, 0, ?_, writesTo_refl _ _, fun _ ↦ hbits,
      fun i h ↦ absurd h.symm (Option.some_ne_none i), id,
      fun i h ↦ absurd h.symm (Option.some_ne_none i), fun _ ↦ ⟨iff_of_false Bool.false_ne_true ?_,
        fun h ↦ absurd h Bool.false_ne_true⟩⟩
    · simp only [freeMapAllocate, hscan, Option.bind_eq_bind, Option.bind_some, if_true,
        Option.pure_def]
      rfl
    · rintro ⟨⟨i, hrun⟩, -⟩
      exact hnone i (Nat.zero_le i) hrun

end Jungle.FileSys
