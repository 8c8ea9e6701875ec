import Jungle.FileSys.FreeMap
import Jungle.Lib.Ledger
import Mathlib.Data.List.Flatten

/-!
# The owners of sectors

An inode that is in use owns its sector and those of its data (`rangesOf`). The sectors of the owners are
apart and in use in the free map, and their inodes are on the disk (`Sectors`). `inode_create` makes the
sector that it is given, which has been allocated for no owner so far, and those that it allocates the
sectors of another owner.
-/

set_option autoImplicit false
set_option relaxedAutoImplicit false

namespace Jungle.FileSys

open Jungle.Lib Jungle.Bitmap

/-! ### Inodes on the disk -/

/-- The on-disk inode in a sector. -/
def diskInode (disk : Bytes) (sector : ℕ) : InodeDisk :=
  InodeDisk.ofBytes fun i ↦ disk (DISK_SECTOR_SIZE * sector + i)

/-- A sector has the same bytes. -/
def SameSector (disk disk' : Bytes) (sector : ℕ) : Prop :=
  ∀ i < DISK_SECTOR_SIZE, disk' (DISK_SECTOR_SIZE * sector + i) = disk (DISK_SECTOR_SIZE * sector + i)

variable {s s' : State} {f g : ℕ → Bool} {extra extra' : List (ℕ × ℕ)}
  {owners owners' : List (ℕ × InodeDisk)} {o o' : ℕ × InodeDisk} {disk disk' : Bytes}
  {data : InodeDisk} {x : ℕ}

theorem ofBytes_congr {b b' : Bytes} (h : ∀ i < DISK_SECTOR_SIZE, b i = b' i) :
    InodeDisk.ofBytes b = InodeDisk.ofBytes b' := by
  have hload : ∀ a, a + 4 ≤ 12 → b.load a 4 = b'.load a 4 := fun a ha ↦
    Bytes.load_congr fun x _ hx ↦ h x (by unfold DISK_SECTOR_SIZE; omega)
  rw [InodeDisk.ofBytes, InodeDisk.ofBytes, hload 0 (by decide), hload 4 (by decide),
    hload 8 (by decide)]

/-- An on-disk inode is read as it was written. -/
theorem ofBytes_toBytes (hstart : data.start < 2 ^ 32) (hmin : 0 ≤ data.length)
    (hmax : data.length ≤ intMax) (hmagic : data.magic < 2 ^ 32) :
    InodeDisk.ofBytes data.toBytes = data := by
  have hlength : int32 ((data.length % 2 ^ 32).toNat : ℕ) = data.length := by
    unfold intMax at hmax
    have hmod : ((data.length % 2 ^ 32).toNat : ℤ) = data.length := by omega
    rw [hmod]
    exact int32_of_mem (by unfold intMin; omega) (by unfold intMax; omega)
  have hlt : (data.length % 2 ^ 32).toNat < 256 ^ 4 := by omega
  rw [InodeDisk.ofBytes, InodeDisk.toBytes, Bytes.load_store_of_apart (by decide),
    Bytes.load_store_of_apart (by decide), Bytes.load_store_self,
    Bytes.load_store_of_apart (by decide), Bytes.load_store_self, Bytes.load_store_self,
    Nat.mod_eq_of_lt (show data.start < 256 ^ 4 by omega), Nat.mod_eq_of_lt hlt, hlength,
    Nat.mod_eq_of_lt (show data.magic < 256 ^ 4 by omega)]

theorem SameSector.diskInode (h : SameSector disk disk' x) : diskInode disk' x = diskInode disk x :=
  ofBytes_congr h

theorem SameSector.trans {disk'' : Bytes} (h : SameSector disk disk' x)
    (h' : SameSector disk' disk'' x) : SameSector disk disk'' x :=
  fun i hi ↦ (h' i hi).trans (h i hi)

/-- The sectors of an inode: its own, and those of its data. -/
def rangesOf (o : ℕ × InodeDisk) : List (ℕ × ℕ) :=
  [(o.1, 1), (o.2.start, bytesToSectors o.2.length)]

/-- A byte of a file is in one of its data sectors. -/
theorem sameByte (hsized : data.length ≤ DISK_SECTOR_SIZE * bytesToSectors data.length)
    (hsame : ∀ y, Covers (data.start, bytesToSectors data.length) y → SameSector disk disk' y) {pos : ℕ}
    (hpos : pos < data.length.toNat) : disk' (data.addr pos) = disk (data.addr pos) := by
  have hsector := hsame (data.start + pos / DISK_SECTOR_SIZE) (by
    unfold Covers DISK_SECTOR_SIZE at *
    dsimp only
    omega) (pos % DISK_SECTOR_SIZE) (Nat.mod_lt _ (by decide))
  have haddr : DISK_SECTOR_SIZE * (data.start + pos / DISK_SECTOR_SIZE) + pos % DISK_SECTOR_SIZE =
      data.addr pos := by
    unfold InodeDisk.addr DISK_SECTOR_SIZE
    omega
  rwa [haddr] at hsector

/-- The sectors of the owners, and some more, are in use and apart, and those in use are so in the file of the
free map. -/
structure Sectors (s : State) (f : ℕ → Bool) (extra : List (ℕ × ℕ))
    (owners : List (ℕ × InodeDisk)) : Prop where
  bits : IsBitmap s.mem s.freeMap s.capacity f
  small : s.capacity ≤ 2 ^ 28
  ledger : Ledger (fun x ↦ x < s.capacity ∧ f x = true) (extra ++ owners.flatMap rangesOf)
  stored : ∀ o ∈ owners, diskInode s.disk o.1 = o.2
  sized : ∀ o ∈ owners, 0 ≤ o.2.length ∧
    o.2.length ≤ DISK_SECTOR_SIZE * bytesToSectors o.2.length ∧ o.2.start ≤ s.capacity
  durable : ∀ map, (FREE_MAP_SECTOR, map) ∈ owners → Durable map s.disk s.capacity f

/-! ### The size of a file -/

/-- A file whose sectors fit on a disk has all its bytes in them. -/
theorem le_bytesToSectors {length : ℤ} (hmin : 0 ≤ length) (hmax : length ≤ intMax)
    (hsmall : bytesToSectors length ≤ 2 ^ 28) :
    length ≤ DISK_SECTOR_SIZE * bytesToSectors length := by
  unfold bytesToSectors at *
  unfold DISK_SECTOR_SIZE at *
  unfold intMax at hmax
  by_cases hfit : length + 511 ≤ 2147483647
  · have hint : int32 (length + ((512 : ℕ) : ℤ) - 1) = length + 511 := by
      rw [int32_of_mem (by unfold intMin; omega) (by unfold intMax; omega)]
      omega
    rw [hint, Int.tdiv_eq_ediv_of_nonneg (by omega)] at hsmall ⊢
    omega
  · have hint : int32 (length + ((512 : ℕ) : ℤ) - 1) = length + 511 - 4294967296 := by
      unfold int32 intMin
      omega
    rw [hint] at hsmall
    have hneg : (length + 511 - 4294967296).tdiv ((512 : ℕ) : ℤ) =
        -((4294967296 - 511 - length) / 512) := by
      have hflip : length + 511 - 4294967296 = -(4294967296 - 511 - length) := by omega
      rw [hflip, Int.neg_tdiv, Int.tdiv_eq_ediv_of_nonneg (by omega)]
      rfl
    rw [hneg] at hsmall
    omega

/-! ### Owners -/

theorem mem_ranges (ho : o ∈ owners) {r : ℕ × ℕ} (hr : r ∈ rangesOf o) :
    r ∈ extra ++ owners.flatMap rangesOf :=
  List.mem_append_right _ (List.mem_flatMap.mpr ⟨o, ho, hr⟩)

theorem self_mem_rangesOf (o : ℕ × InodeDisk) : (o.1, 1) ∈ rangesOf o := List.mem_cons_self

theorem data_mem_rangesOf (o : ℕ × InodeDisk) :
    (o.2.start, bytesToSectors o.2.length) ∈ rangesOf o :=
  List.mem_cons_of_mem _ List.mem_cons_self

theorem covers_self (x : ℕ) : Covers (x, 1) x := ⟨Nat.le_refl x, Nat.lt_succ_self x⟩

namespace Sectors

/-- The sectors of an owner are on the disk and in use. -/
theorem used (h : Sectors s f extra owners) (ho : o ∈ owners) {r : ℕ × ℕ} (hr : r ∈ rangesOf o)
    {x : ℕ} (hx : Covers r x) : x < s.capacity ∧ f x = true :=
  h.ledger.usable x ⟨r, mem_ranges ho hr, hx⟩

/-- The ranges of one owner are apart, and those of two owners are. -/
theorem pairwise (h : Sectors s f extra owners) : (∀ o ∈ owners, (rangesOf o).Pairwise Apart) ∧
    owners.Pairwise fun o o' ↦ ∀ r ∈ rangesOf o, ∀ r' ∈ rangesOf o', Apart r r' :=
  List.pairwise_flatMap.mp (List.pairwise_append.mp h.ledger.apart).2.1

/-- The sectors of two owners are apart. -/
theorem apart (h : Sectors s f extra owners) (ho : o ∈ owners) (ho' : o' ∈ owners) (hne : o ≠ o') :
    ∀ r ∈ rangesOf o, ∀ r' ∈ rangesOf o', Apart r r' := by
  have hsymm : Std.Symm fun o o' : ℕ × InodeDisk ↦
      ∀ r ∈ rangesOf o, ∀ r' ∈ rangesOf o', Apart r r' :=
    ⟨fun o o' hoo r hr r' hr' ↦ (hoo r' hr' r hr).symm⟩
  exact h.pairwise.2.forall ho ho' hne

/-- An owner has one on-disk inode. -/
theorem unique (h : Sectors s f extra owners) (ho : o ∈ owners) (ho' : o' ∈ owners)
    (heq : o.1 = o'.1) : o = o' := by
  by_contra hne
  refine h.apart ho ho' hne _ (self_mem_rangesOf o) _ (self_mem_rangesOf o') o.1 (covers_self _) ?_
  rw [heq]
  exact covers_self _

/-- The sector of an owner is not one of its data, nor of another's. -/
theorem not_data (h : Sectors s f extra owners) (ho : o ∈ owners) (ho' : o' ∈ owners) :
    ¬Covers (o'.2.start, bytesToSectors o'.2.length) o.1 := by
  by_cases heq : o = o'
  · subst heq
    have hpair := h.pairwise.1 o ho
    exact (List.pairwise_cons.mp hpair).1 _ List.mem_cons_self o.1 (covers_self _)
  · exact h.apart ho ho' heq _ (self_mem_rangesOf o) _ (data_mem_rangesOf o') o.1 (covers_self _)

/-- The data sectors of an owner are on the disk. -/
theorem fits (h : Sectors s f extra owners) (ho : o ∈ owners) : o.2.Fits s := by
  intro pos hpos
  have hsize := (h.sized o ho).2.1
  have hlt : pos / DISK_SECTOR_SIZE < bytesToSectors o.2.length := by
    unfold DISK_SECTOR_SIZE at *
    omega
  have hused := h.used ho (data_mem_rangesOf o) ⟨Nat.le_add_right _ _, Nat.add_lt_add_left hlt _⟩
  have hsmall := h.small
  exact ⟨hused.1, by omega⟩

/-- The sector of an owner is on the disk. -/
theorem onDisk (h : Sectors s f extra owners) (ho : o ∈ owners) : OnDisk s o.1 := by
  have hused := h.used ho (self_mem_rangesOf o) (covers_self _)
  have hsmall := h.small
  exact ⟨hused.1, by omega⟩

/-- The bytes of an owner's data are on its sectors. -/
theorem sameBytes (h : Sectors s f extra owners) (ho : o ∈ owners)
    (hsame : ∀ y, Covers (o.2.start, bytesToSectors o.2.length) y → SameSector s.disk disk y) {pos : ℕ}
    (hpos : pos < o.2.length.toNat) : disk (o.2.addr pos) = s.disk (o.2.addr pos) :=
  sameByte (h.sized o ho).2.1 hsame hpos

end Sectors

/-- Writing to a file changes its data sectors only. -/
theorem WritesTo.sector (h : WritesTo data disk disk')
    (hsized : data.length ≤ DISK_SECTOR_SIZE * bytesToSectors data.length)
    (hx : ¬Covers (data.start, bytesToSectors data.length) x) : SameSector disk disk' x := by
  intro i hi
  refine h _ fun pos hpos heq ↦ hx ?_
  unfold InodeDisk.addr DISK_SECTOR_SIZE at *
  constructor <;> dsimp only <;> omega

/-! ### Changes -/

namespace Sectors

/-- Another state in which the sectors of all owners are in use and their inodes are as they were. -/
theorem step (h : Sectors s f extra owners) (s' : State) (hcapacity : s'.capacity = s.capacity)
    (hbits : IsBitmap s'.mem s'.freeMap s.capacity g)
    (hsame : ∀ o ∈ owners, SameSector s.disk s'.disk o.1)
    (hused : ∀ x, Covered (extra ++ owners.flatMap rangesOf) x → g x = true)
    (hdurable : ∀ map, (FREE_MAP_SECTOR, map) ∈ owners → Durable map s'.disk s.capacity g) :
    Sectors s' g extra owners where
  bits := hcapacity ▸ hbits
  small := hcapacity ▸ h.small
  ledger := ⟨fun x hx ↦ ⟨hcapacity ▸ (h.ledger.usable x hx).1, hused x hx⟩, h.ledger.apart⟩
  stored o ho := (hsame o ho).diskInode.trans (h.stored o ho)
  sized := by
    rw [hcapacity]
    exact h.sized
  durable := by
    rw [hcapacity]
    exact hdurable

/-- The same ranges, divided among the owners in another way. -/
theorem divide (h : Sectors s f extra owners)
    (hperm : (extra ++ owners.flatMap rangesOf).Perm (extra' ++ owners'.flatMap rangesOf))
    (hstored : ∀ o ∈ owners', diskInode s.disk o.1 = o.2)
    (hsized : ∀ o ∈ owners', 0 ≤ o.2.length ∧
      o.2.length ≤ DISK_SECTOR_SIZE * bytesToSectors o.2.length ∧ o.2.start ≤ s.capacity)
    (hmap : ∀ map, (FREE_MAP_SECTOR, map) ∈ owners' → (FREE_MAP_SECTOR, map) ∈ owners) :
    Sectors s f extra' owners' where
  bits := h.bits
  small := h.small
  ledger := h.ledger.perm hperm
  stored := hstored
  sized := hsized
  durable map ho := h.durable map (hmap map ho)

theorem perm (h : Sectors s f extra owners) (hperm : owners.Perm owners') :
    Sectors s f extra owners' :=
  h.divide ((hperm.flatMap_right rangesOf).append_left extra)
    (fun o ho ↦ h.stored o (hperm.mem_iff.mpr ho)) (fun o ho ↦ h.sized o (hperm.mem_iff.mpr ho))
    fun _ ↦ hperm.mem_iff.mpr

/-- The sectors of an owner that is one no more. -/
theorem disown (h : Sectors s f extra (o :: owners)) : Sectors s f (rangesOf o ++ extra) owners := by
  refine h.divide ?_ (fun o' ho' ↦ h.stored o' (List.mem_cons_of_mem o ho'))
    (fun o' ho' ↦ h.sized o' (List.mem_cons_of_mem o ho')) fun _ ↦ List.mem_cons_of_mem o
  rw [List.flatMap_cons, ← List.append_assoc]
  exact List.perm_append_comm.append_right _

theorem tail {r : ℕ × ℕ} (h : Sectors s f (r :: extra) owners) : Sectors s f extra owners :=
  ⟨h.bits, h.small, h.ledger.tail, h.stored, h.sized, h.durable⟩

/-- The bits in the file of the free map are the same where other files are written. -/
theorem mapBit_eq (h : Sectors s f extra owners) {map : InodeDisk} (ho : (FREE_MAP_SECTOR, map) ∈ owners)
    (hsame : ∀ y, Covers (map.start, bytesToSectors map.length) y → SameSector s.disk disk y)
    (hx : x / 8 < map.length.toNat) : mapBit map disk x = mapBit map s.disk x := by
  rw [mapBit, h.sameBytes ho hsame hx]
  rfl

theorem sameBits (h : Sectors s f extra owners) {map : InodeDisk} (ho : (FREE_MAP_SECTOR, map) ∈ owners)
    (hsame : ∀ y, Covers (map.start, bytesToSectors map.length) y → SameSector s.disk disk y) :
    Durable map disk s.capacity f := by
  intro x hx hused
  obtain ⟨hlt, hbit⟩ := h.durable map ho x hx hused
  exact ⟨hlt, (h.mapBit_eq ho hsame hlt).trans hbit⟩

/-- A range that was free is in use. -/
theorem reserve (h : Sectors s f extra owners) (s' : State) {start cnt : ℕ}
    (hrun : IsRun f s.capacity cnt false start) (hcapacity : s'.capacity = s.capacity)
    (hbits : IsBitmap s'.mem s'.freeMap s.capacity (setRange f start cnt true))
    (hsame : ∀ o ∈ owners, SameSector s.disk s'.disk o.1)
    (hdurable : ∀ map, (FREE_MAP_SECTOR, map) ∈ owners →
      Durable map s'.disk s.capacity (setRange f start cnt true)) :
    Sectors s' (setRange f start cnt true) ((start, cnt) :: extra) owners := by
  have h' : Sectors s' (setRange f start cnt true) extra owners := by
    refine h.step s' hcapacity hbits hsame (fun x hx ↦ ?_) hdurable
    unfold setRange
    split_ifs
    · rfl
    · exact (h.ledger.usable x hx).2
  refine ⟨h'.bits, h'.small, h'.ledger.cons fun x hx ↦ ⟨⟨?_, if_pos hx⟩, fun hcovered ↦ ?_⟩,
    h'.stored, h'.sized, h'.durable⟩
  · have hle := hrun.1
    have hlt := hx.2
    dsimp only at hlt
    omega
  · exact Bool.false_ne_true ((hrun.2 x hx.1 hx.2).symm.trans (h.ledger.usable x hcovered).2)

/-- A range that is no owner's is in use no more. -/
theorem release {r : ℕ × ℕ} (h : Sectors s f (r :: extra) owners) (s' : State)
    (hcapacity : s'.capacity = s.capacity)
    (hbits : IsBitmap s'.mem s'.freeMap s.capacity (setRange f r.1 r.2 false))
    (hsame : ∀ o ∈ owners, SameSector s.disk s'.disk o.1)
    (hdurable : ∀ map, (FREE_MAP_SECTOR, map) ∈ owners →
      Durable map s'.disk s.capacity (setRange f r.1 r.2 false)) :
    Sectors s' (setRange f r.1 r.2 false) extra owners := by
  refine h.tail.step s' hcapacity hbits hsame (fun x hx ↦ ?_) hdurable
  have hapart : ¬Covers r x := fun hr ↦ by
    obtain ⟨r', hr', hx'⟩ := hx
    exact (List.pairwise_cons.mp h.ledger.apart).1 r' hr' x hr hx'
  exact (if_neg hapart).trans (h.tail.ledger.usable x hx).2

/-- A range of no owner and the sectors of the owners are apart. -/
theorem not_covers {r : ℕ × ℕ} (h : Sectors s f (r :: extra) owners) {x : ℕ}
    (hx : Covered (owners.flatMap rangesOf) x) : ¬Covers r x := by
  obtain ⟨r', hr', hx'⟩ := hx
  exact fun hr ↦ (List.pairwise_cons.mp h.ledger.apart).1 r' (List.mem_append_right _ hr') x hr hx'

/-- Writing to the file of the free map changes no inode. -/
theorem sameSector (h : Sectors s f extra owners) (ho : o ∈ owners)
    (hwrites : WritesTo o.2 s.disk disk) (ho' : o' ∈ owners) : SameSector s.disk disk o'.1 :=
  hwrites.sector (h.sized o ho).2.1 (h.not_data ho' ho)

/-- There is one file of the free map. -/
theorem durable_of {map : InodeDisk} (h : Sectors s f extra owners) (ho : (FREE_MAP_SECTOR, map) ∈ owners) {n : ℕ}
    (hdurable : Durable map disk n g) :
    ∀ map', (FREE_MAP_SECTOR, map') ∈ owners → Durable map' disk n g := by
  intro map' ho'
  obtain ⟨-, rfl⟩ := Prod.mk.inj (h.unique ho' ho rfl)
  exact hdurable

/-- A range that is in the ledger is a run of sectors in use. -/
theorem isRun {r : ℕ × ℕ} (h : Sectors s f (r :: extra) owners) (hr : r.1 ≤ s.capacity) :
    IsRun f s.capacity r.2 true r.1 := by
  have hused : ∀ x, Covers r x → x < s.capacity ∧ f x = true :=
    fun x hx ↦ h.ledger.usable x ⟨r, List.mem_cons_self, hx⟩
  refine ⟨?_, fun x hx hx' ↦ (hused x ⟨hx, hx'⟩).2⟩
  rcases Nat.eq_zero_or_pos r.2 with hzero | hpos
  · omega
  · have hlast := (hused (r.1 + r.2 - 1) ⟨by omega, by omega⟩).1
    omega

end Sectors

/-! ### `inode_create` -/

/-- Writing a sector changes that sector. -/
theorem sameSector_write (disk buffer : Bytes) {x y : ℕ} (hne : y ≠ x) (offset : ℕ) :
    SameSector disk (disk.copy (DISK_SECTOR_SIZE * x) buffer offset DISK_SECTOR_SIZE) y := by
  intro i hi
  refine Bytes.copy_of_not_mem fun hin ↦ hne ?_
  unfold DISK_SECTOR_SIZE at *
  omega

theorem diskInode_write (disk : Bytes) (x : ℕ) (data : InodeDisk) :
    diskInode (disk.copy (DISK_SECTOR_SIZE * x) data.toBytes 0 DISK_SECTOR_SIZE) x =
      InodeDisk.ofBytes data.toBytes := by
  refine ofBytes_congr fun i hi ↦ ?_
  rw [Bytes.copy_of_mem ⟨Nat.le_add_right .., Nat.add_lt_add_left hi _⟩, Nat.zero_add,
    Nat.add_sub_cancel_left]

theorem writeZeros_spec {start cnt : ℕ} (h : ∀ i < cnt, OnDisk s (start + i)) :
    ∃ disk, writeZeros s start cnt = some (s.transfer disk 0) ∧
      (∀ y, ¬Covers (start, cnt) y → SameSector s.disk disk y) ∧
      ∀ y, Covers (start, cnt) y → SameSector (fun _ ↦ 0) disk y := by
  induction cnt generalizing s start with
  | zero =>
    refine ⟨s.disk, rfl, fun _ _ _ _ ↦ rfl, fun y ⟨hle, hlt⟩ ↦ ?_⟩
    dsimp only at hle hlt
    omega
  | succ cnt ih =>
    have hfirst : OnDisk s start := h 0 (Nat.succ_pos cnt)
    let disk₁ := s.disk.copy (DISK_SECTOR_SIZE * start) (fun _ ↦ 0) 0 DISK_SECTOR_SIZE
    have hrestOn : ∀ i < cnt, OnDisk (s.transfer disk₁ 0) (start + 1 + i) := fun i hi ↦ by
      have hnext := h (i + 1) (Nat.succ_lt_succ hi)
      rwa [Nat.add_comm i 1, ← Nat.add_assoc] at hnext
    obtain ⟨disk, hrest, hsame, hzero⟩ := ih hrestOn
    refine ⟨disk, ?_, fun y hy ↦ ?_, fun y hy ↦ ?_⟩
    · rw [writeZeros, diskWrite_eq hfirst, Option.bind_eq_bind, Option.bind_some, hrest,
        transfer_transfer]
    · have hne : y ≠ start := by
        rintro rfl
        exact hy ⟨Nat.le_refl _, Nat.lt_add_of_pos_right (Nat.succ_pos cnt)⟩
      refine (sameSector_write s.disk (fun _ ↦ 0) hne 0).trans (hsame y fun hcovers ↦ hy ?_)
      obtain ⟨hle, hlt⟩ := hcovers
      dsimp only at hle hlt
      exact ⟨by dsimp only; omega, by dsimp only; omega⟩
    · obtain ⟨hle, hlt⟩ := hy
      dsimp only at hle hlt
      rcases Nat.eq_or_lt_of_le hle with rfl | hgt
      · have hwritten : SameSector (fun _ ↦ 0) disk₁ start := fun i hi ↦
          Bytes.copy_of_mem ⟨Nat.le_add_right .., Nat.add_lt_add_left hi _⟩
        exact hwritten.trans (hsame start fun hcovers ↦ Nat.not_succ_le_self start hcovers.1)
      · exact hzero y ⟨hgt, by dsimp only; omega⟩

/-- What a call of `inode_create` does for a sector that has been allocated: it makes it an inode with sectors
of its own, or fails and leaves the bits of the free map as they were. -/
structure Creates (s : State) (data : InodeDisk) (f : ℕ → Bool) (extra : List (ℕ × ℕ))
    (owners : List (ℕ × InodeDisk)) (x : ℕ) (length : ℤ) (ok : Bool) (mem : Memory) (disk : Bytes)
    (calls : ℕ) : Prop where
  same : ∀ y, Covered (owners.flatMap rangesOf) y →
    ¬Covers (data.start, bytesToSectors data.length) y → SameSector s.disk disk y
  fails : ok = false → Sectors (s.mapped mem disk calls) f ((x, 1) :: extra) owners
  creates : ok = true → ∃ start, IsRun f s.capacity (bytesToSectors length) false start ∧
    Sectors (s.mapped mem disk calls) (setRange f start (bytesToSectors length) true) extra
      ((x, ⟨start, length, INODE_MAGIC⟩) :: owners) ∧
    (∀ y, Covers (start, bytesToSectors length) y → SameSector (fun _ ↦ 0) disk y) ∧
    Saved data disk s.capacity (setRange f start (bytesToSectors length) true)
  exact : byteCnt s.capacity = data.length.toNat →
    (ok = true ↔ s.mallocs 0 = true ∧ (∃ i, IsRun f s.capacity (bytesToSectors length) false i) ∧
      ∀ i < tailCalls (byteCnt s.capacity), s.mallocs (i + 1) = true) ∧
      (ok = true → calls = 1 + tailCalls (byteCnt s.capacity))

theorem inodeCreate_spec (h : Sectors s f ((x, 1) :: extra) owners) (hmap : MapFile s data)
    (hdata : (FREE_MAP_SECTOR, data) ∈ owners) {length : ℤ} (hmin : 0 ≤ length)
    (hmax : length ≤ intMax) : ∃ ok mem disk calls,
    inodeCreate s x length = some (ok, s.mapped mem disk calls) ∧
      Creates s data f extra owners x length ok mem disk calls := by
  by_cases hmalloc : s.mallocs 0 = true
  swap
  · refine ⟨false, s.mem, s.disk, 1, ?_, fun _ _ _ _ _ ↦ rfl,
      fun _ ↦ h.step _ rfl h.bits (fun _ _ _ _ ↦ rfl) (fun x hx ↦ (h.ledger.usable x hx).2) h.durable,
      fun hok ↦ by simp at hok, fun _ ↦ ⟨iff_of_false Bool.false_ne_true fun hall ↦ hmalloc hall.1,
        fun hok ↦ by simp at hok⟩⟩
    rw [inodeCreate, if_pos hmin, malloc_eq]
    dsimp only
    rw [if_neg hmalloc]
  have hn : s.capacity < SIZE_MAX := Nat.lt_of_le_of_lt h.small (by decide)
  obtain ⟨start?, mem, disk, calls, hallocate, hwrites, hnone, hsome, hdurable, hsaved, hexact⟩ :=
    freeMapAllocate_spec (hmap.mapped s.mem s.disk 1) h.bits hn (bytesToSectors length)
  replace hwrites : WritesTo data s.disk disk := hwrites
  rw [mapped_mapped] at hallocate
  have hkept : ∀ y, ¬Covers (data.start, bytesToSectors data.length) y → SameSector s.disk disk y :=
    fun y hy ↦ hwrites.sector (h.sized _ hdata).2.1 hy
  have hinodes : ∀ o ∈ owners, SameSector s.disk disk o.1 := fun o ho ↦
    h.sameSector hdata hwrites ho
  cases start? with
  | none =>
    refine ⟨false, mem, disk, 1 + calls, ?_, fun y _ hy ↦ hkept y hy, fun _ ↦ ?_,
      fun hok ↦ by simp at hok, fun hsize ↦ ⟨iff_of_false Bool.false_ne_true fun hall ↦ ?_,
        fun hok ↦ by simp at hok⟩⟩
    · rw [inodeCreate, if_pos hmin, malloc_eq]
      dsimp only
      rw [if_pos hmalloc, hallocate]
      rfl
    · exact h.step _ rfl (hnone rfl) hinodes (fun x hx ↦ (h.ledger.usable x hx).2)
        (h.durable_of hdata (hdurable (h.durable data hdata)))
    · exact Bool.false_ne_true ((hexact hsize).1.mpr hall.2)
  | some start =>
    obtain ⟨hrun, -, hbits⟩ := hsome start rfl
    replace hrun : IsRun f s.capacity (bytesToSectors length) false start := hrun
    have h₂ : Sectors (s.mapped mem disk (1 + calls)) (setRange f start (bytesToSectors length) true)
        ((start, bytesToSectors length) :: (x, 1) :: extra) owners :=
      h.reserve _ hrun rfl hbits hinodes (h.durable_of hdata (hdurable (h.durable data hdata)))
    have hx : OnDisk (s.mapped mem disk (1 + calls)) x := by
      have hlt := (h.ledger.usable x ⟨(x, 1), List.mem_cons_self, covers_self x⟩).1
      have hsmall := h.small
      exact ⟨hlt, by omega⟩
    let d : InodeDisk := ⟨start, length, INODE_MAGIC⟩
    let disk₃ := disk.copy (DISK_SECTOR_SIZE * x) d.toBytes 0 DISK_SECTOR_SIZE
    have hstart := hrun.1
    have hsmall := h.small
    obtain ⟨disk₄, hzeros, hsame₄, hzero₄⟩ : ∃ disk₄,
        writeZeros (s.mapped mem disk₃ (1 + calls)) start (bytesToSectors length) =
          some ((s.mapped mem disk₃ (1 + calls)).transfer disk₄ 0) ∧
        (∀ y, ¬Covers (start, bytesToSectors length) y → SameSector disk₃ disk₄ y) ∧
        ∀ y, Covers (start, bytesToSectors length) y → SameSector (fun _ ↦ 0) disk₄ y :=
      writeZeros_spec fun i hi ↦
        ⟨show start + i < s.capacity by omega, show start + i < 2 ^ 28 by omega⟩
    have hothers : ∀ y, Covered (owners.flatMap rangesOf) y → SameSector disk disk₄ y := by
      intro y hy
      have hnot := h₂.not_covers hy
      have hne : y ≠ x := by
        rintro rfl
        exact h₂.tail.not_covers hy (covers_self y)
      exact (sameSector_write disk d.toBytes hne 0).trans (hsame₄ y hnot)
    refine ⟨true, mem, disk₄, 1 + calls, ?_, fun y hy hnot ↦ (hkept y hnot).trans (hothers y hy),
      fun hok ↦ by simp at hok, fun _ ↦ ⟨start, hrun, ?_, hzero₄, fun z hz ↦ ?_⟩, fun hsize ↦ ?_⟩
    · rw [inodeCreate, if_pos hmin, malloc_eq]
      dsimp only
      rw [if_pos hmalloc, hallocate, Option.bind_eq_bind, Option.bind_some]
      dsimp only
      rw [diskWrite_eq hx, Option.bind_eq_bind, Option.bind_some, mapped_transfer]
      change (writeZeros (s.mapped mem disk₃ (1 + calls)) start (bytesToSectors length)).bind _ = _
      rw [hzeros, mapped_transfer]
      rfl
    · have hstored : diskInode disk₄ x = d := by
        have hnot : ¬Covers (start, bytesToSectors length) x := fun hcovers ↦
          (List.pairwise_cons.mp h₂.ledger.apart).1 (x, 1) List.mem_cons_self x hcovers
            (covers_self x)
        rw [(hsame₄ x hnot).diskInode, diskInode_write]
        exact ofBytes_toBytes (show start < 2 ^ 32 by omega) hmin hmax (show INODE_MAGIC < 2 ^ 32 by decide)
      have hsized := le_bytesToSectors hmin hmax (by omega)
      have h₄ : Sectors (s.mapped mem disk₄ (1 + calls))
          (setRange f start (bytesToSectors length) true)
          ((start, bytesToSectors length) :: (x, 1) :: extra) owners :=
        h₂.step _ rfl h₂.bits (fun o ho ↦ hothers o.1
          ⟨(o.1, 1), List.mem_flatMap.mpr ⟨o, ho, self_mem_rangesOf o⟩, covers_self _⟩)
          (fun y hy ↦ (h₂.ledger.usable y hy).2) (h₂.durable_of hdata (h₂.sameBits hdata fun y hy ↦
            hothers y ⟨_, List.mem_flatMap.mpr ⟨_, hdata, data_mem_rangesOf _⟩, hy⟩))
      refine h₄.divide ?_ (fun o ho ↦ ?_) (fun o ho ↦ ?_) fun map ho ↦ ?_
      · rw [List.flatMap_cons]
        refine List.Perm.trans ?_ (List.perm_append_comm_assoc (rangesOf (x, d)) extra _)
        exact List.Perm.swap (x, 1) (start, bytesToSectors length) (extra ++ owners.flatMap rangesOf)
      · rcases List.mem_cons.mp ho with rfl | ho
        · exact hstored
        · exact h₄.stored o ho
      · rcases List.mem_cons.mp ho with rfl | ho
        · exact ⟨hmin, hsized, show start ≤ s.capacity by omega⟩
        · exact h₄.sized o ho
      · rcases List.mem_cons.mp ho with heq | ho
        · obtain ⟨hx₀, -⟩ := Prod.mk.inj heq
          refine absurd (covers_self x) (h.not_covers (hx₀ ▸ ?_))
          exact ⟨_, List.mem_flatMap.mpr ⟨_, hdata, self_mem_rangesOf _⟩, covers_self _⟩
        · exact ho
    · obtain ⟨hlt, hbit⟩ := hsaved start rfl z hz
      refine ⟨hlt, (h₂.mapBit_eq hdata (fun y hy ↦ ?_) hlt).trans hbit⟩
      exact hothers y ⟨_, List.mem_flatMap.mpr ⟨_, hdata, data_mem_rangesOf _⟩, hy⟩
    · obtain ⟨hiff, hcalls⟩ := hexact hsize
      rw [hcalls rfl]
      exact ⟨iff_of_true rfl ⟨hmalloc, hiff.mp rfl⟩, fun _ ↦ rfl⟩

end Jungle.FileSys
