import Jungle.FileSys.Boot
import Jungle.FileSys.Sessions

/-!
# Mounting a volume

`filesys_init` on the disk of a sound volume opens a sound volume with the same files: the free map that it reads
has all sectors that were in use.
-/

set_option autoImplicit false
set_option relaxedAutoImplicit false

namespace Jungle.FileSys

open Jungle.Lib Jungle.Bitmap

variable {map root : InodeDisk} {s s' : State} {b p n : ℕ} {f : ℕ → Bool} {mem : Memory} {buffer : Bytes}

/-! ### Reading the free map -/

theorem withElements_of_not_owns {a : ℕ} (ha : ∀ i < n, a ≠ elemAddr mem b i) :
    withElements mem b buffer (elemCnt n) a = mem a := by
  refine if_neg fun ⟨hle, hlt, hmod⟩ ↦ ?_
  have helem := ha (8 * (a - (mem (b + 8)).toNat)) (by
    unfold elemCnt ELEM_BITS at hlt
    omega)
  unfold elemAddr elemIdx ELEM_BITS at helem
  omega

/-- The bits of a bitmap whose elements have been read. -/
theorem isBitmap_withElements (h : IsBitmap mem b n f) (buffer : Bytes) :
    IsBitmap (withElements mem b buffer (elemCnt n)) b n fun i ↦
      (buffer (i / 8)).toNat.testBit (i % 8) := by
  have hsize : withElements mem b buffer (elemCnt n) b = mem b :=
    withElements_of_not_owns fun i hi ↦ (h.apart i hi).1.symm
  have hptr : withElements mem b buffer (elemCnt n) (b + 8) = mem (b + 8) :=
    withElements_of_not_owns fun i hi ↦ (h.apart i hi).2.symm
  have haddr : ∀ i, elemAddr (withElements mem b buffer (elemCnt n)) b i = elemAddr mem b i := fun i ↦ by
    rw [elemAddr, elemAddr, hptr]
  refine ⟨(congrArg BitVec.toNat hsize).trans h.size, fun i hi ↦ haddr i ▸ h.apart i hi, fun i hi ↦ ?_⟩
  have hoffset : elemAddr mem b i - (mem (b + 8)).toNat = 8 * (i / 64) := Nat.add_sub_cancel_left ..
  have hbyte : 8 * (i / 64) + i % 64 / 8 = i / 8 := by omega
  have hbit : i % 64 % 8 = i % 8 := by omega
  have hlt : elemAddr mem b i < (mem (b + 8)).toNat + 8 * elemCnt n := by
    unfold elemAddr elemIdx elemCnt ELEM_BITS
    omega
  rw [haddr, withElements, hoffset, if_pos ⟨Nat.le_add_right .., hlt, Nat.mul_mod_right ..⟩,
    BitVec.getLsbD_ofNat, decide_eq_true (elem_lt i), Bool.true_and, ELEM_BITS,
    Bytes.load_testBit _ _ (elem_lt i), hbyte, hbit]

/-- Masking the last element of a bitmap keeps its bits. -/
theorem isBitmap_lastMask (h : IsBitmap mem b n f) (hn : 0 < n) :
    IsBitmap (mem.write ((mem (b + 8)).toNat + 8 * (elemCnt n - 1))
      (mem ((mem (b + 8)).toNat + 8 * (elemCnt n - 1)) &&& lastMask n)) b n f := by
  have hlast : (mem (b + 8)).toNat + 8 * (elemCnt n - 1) = elemAddr mem b (n - 1) := by
    unfold elemAddr elemIdx elemCnt ELEM_BITS
    omega
  obtain ⟨hb, hb8⟩ := h.apart (n - 1) (by omega)
  rw [hlast]
  have haddr := elemAddr_write mem hb8.symm (mem (elemAddr mem b (n - 1)) &&& lastMask n)
  refine ⟨?_, fun i hi ↦ haddr i ▸ h.apart i hi, fun i hi ↦ ?_⟩
  · rw [bitmapSize, Memory.write_of_ne _ hb.symm]
    exact h.size
  · rw [haddr, ← h.bit i hi]
    by_cases hsame : elemAddr mem b i = elemAddr mem b (n - 1)
    · have hmask : n - 1 < ELEM_BITS * (i / ELEM_BITS + 1) := by
        unfold elemAddr elemIdx ELEM_BITS at hsame
        unfold ELEM_BITS
        omega
      rw [← hsame, Memory.write_self, BitVec.getLsbD_and, lastMask_bit hi hmask, Bool.and_true]
    · rw [Memory.write_of_ne _ hsame]

/-- `bitmap_read` reads the bits in the file of the free map, unless `malloc` fails. -/
theorem freeMapRead_spec (h : MapFile s map) (hbits : IsBitmap s.mem s.freeMap n f) (hn : 0 < n)
    (hsize : byteCnt n = map.length.toNat) : ∃ ok mem calls,
    freeMapRead s = some (ok, s.mapped mem s.disk calls) ∧
      (ok = true → IsBitmap mem s.freeMap n (mapBit map s.disk)) ∧ (s.mallocs 0 = true → ok = true) := by
  obtain ⟨m, file, inode, hm, hfile, hinode, rfl, -⟩ := h.file
  obtain ⟨k, calls, hread, hmoves⟩ := inodeReadAt_spec hinode h.fits (bitmapBytes s.mem s.freeMap)
    (byteCnt n) 0
  have hwith := isBitmap_withElements hbits
    ((bitmapBytes s.mem s.freeMap).copy 0 s.disk (inode.data.addr 0) k)
  refine ⟨decide (k = byteCnt n), _, calls, ?_, fun hok ↦ (isBitmap_lastMask hwith hn).congr fun i hi ↦ ?_,
    fun hmalloc ↦ decide_eq_true ?_⟩
  · simp only [freeMapRead, hm, fileReadAt, hfile, hread, hbits.size, hn, if_true, Option.bind_eq_bind,
      Option.bind_some, Option.pure_def]
    rfl
  · have hlt := (of_decide_eq_true hok) ▸ lt_byteCnt hi
    rw [Bytes.copy_of_mem ⟨Nat.zero_le _, by omega⟩]
    rfl
  · rw [hmoves.all (Or.inr hmalloc), InodeDisk.avail, ← hsize, Nat.sub_zero, Nat.min_self]

/-! ### Opening the free map -/

/-- No inode and no file is open. -/
structure Idle (s : State) : Prop where
  inodes : s.inodes = Store.empty
  openInodes : s.openInodes = []
  files : s.files = Store.empty

/-- The state after the file of the free map has been opened, which is the only one. -/
def State.mapOpened (s : State) (map : InodeDisk) : State := { s with
  inodes := Store.empty.put s.next ⟨FREE_MAP_SECTOR, 1, false, 0, map⟩
  openInodes := [s.next]
  files := Store.empty.put (s.next + 1) ⟨s.next, 0, false⟩
  freeMapFile := some (s.next + 1)
  next := s.next + 2
  mallocs := fun i ↦ s.mallocs (i + 2) }

theorem diskInode_read (disk : Bytes) (x : ℕ) : InodeDisk.ofBytes
    (Bytes.copy (fun _ ↦ 0) 0 disk (DISK_SECTOR_SIZE * x) DISK_SECTOR_SIZE) = diskInode disk x := by
  refine ofBytes_congr fun i hi ↦ ?_
  rw [Bytes.copy_of_mem ⟨Nat.zero_le i, by omega⟩]
  rfl

theorem openFreeMapFile_eq (h : Idle s) (hdisk : OnDisk s FREE_MAP_SECTOR) : openFreeMapFile s =
    if s.mallocs 0 = true ∧ s.mallocs 1 = true then
      some (s.mapOpened (diskInode s.disk FREE_MAP_SECTOR)) else none := by
  obtain ⟨hinodes, hopen, hfiles⟩ := h
  have hfind : FileSys.findInode s FREE_MAP_SECTOR = none := by
    rw [FileSys.findInode, hopen]
    rfl
  cases hfirst : s.mallocs 0 with
  | false =>
    rw [if_neg fun hall ↦ Bool.false_ne_true hall.1]
    simp only [openFreeMapFile, FileSys.inodeOpen, hfind, malloc, hfirst, FileSys.fileOpen, FileSys.inodeClose,
      Bool.false_eq_true, if_false, Option.bind_eq_bind, Option.bind_some, Option.map_some, if_true]
  | true =>
    have hread : OnDisk (malloc s).2 FREE_MAP_SECTOR := hdisk
    simp only [malloc] at hread
    cases hsecond : s.mallocs 1 with
    | false =>
      rw [if_neg fun hall ↦ Bool.false_ne_true hall.2]
      simp only [openFreeMapFile, FileSys.inodeOpen, hfind, malloc, hfirst, if_true, diskRead_eq hread,
        FileSys.fileOpen, Nat.zero_add, hsecond, FileSys.inodeClose, Store.put_self, Int.sub_self,
        Bool.false_eq_true, if_false, Option.bind_eq_bind, Option.bind_some, Option.map_some, Option.pure_def]
    | true =>
      rw [if_pos ⟨rfl, rfl⟩]
      simp only [openFreeMapFile, FileSys.inodeOpen, hfind, malloc, hfirst, if_true, diskRead_eq hread,
        FileSys.fileOpen, Nat.zero_add, hsecond, Option.bind_eq_bind, Option.bind_some, Option.pure_def,
        diskInode_read, if_neg (Option.some_ne_none _)]
      rw [hinodes, hopen, hfiles]
      rfl

/-- The file of the free map is the only one that is open. -/
structure MapOpen (map : InodeDisk) (s : State) (p m : ℕ) : Prop where
  inodes : s.inodes = Store.empty.put p ⟨FREE_MAP_SECTOR, 1, false, 0, map⟩
  openInodes : s.openInodes = [p]
  files : s.files = Store.empty.put m ⟨p, 0, false⟩
  mapFile : s.freeMapFile = some m
  next : p < s.next ∧ m < s.next

theorem mapOpen_opened (s : State) (map : InodeDisk) : MapOpen map (s.mapOpened map) s.next (s.next + 1) :=
  ⟨rfl, rfl, rfl, rfl, Nat.lt_add_of_pos_right (by decide), Nat.lt_succ_self _⟩

theorem MapOpen.mapFileIn {m : ℕ} (h : MapOpen map s p m) (hfits : map.Fits s) : MapFile s map :=
  ⟨⟨m, _, _, h.mapFile, (congrFun h.files m).trans (Store.put_self ..),
    (congrFun h.inodes p).trans (Store.put_self ..), rfl, rfl⟩, hfits⟩

theorem MapOpen.mapped {m : ℕ} (h : MapOpen map s p m) (mem : Memory) (disk : Bytes) (calls : ℕ) :
    MapOpen map (s.mapped mem disk calls) p m :=
  ⟨h.inodes, h.openInodes, h.files, h.mapFile, h.next⟩

/-- `free_map_open` reads the bits in the file of the free map, if it does not panic for want of memory. -/
theorem freeMapOpen_spec (h : Idle s) (hmap : diskInode s.disk FREE_MAP_SECTOR = map) (hfits : map.Fits s)
    (hdisk : OnDisk s FREE_MAP_SECTOR) (hbits : IsBitmap s.mem s.freeMap n f) (hn : 0 < n)
    (hsize : byteCnt n = map.length.toNat) :
    (∀ s', freeMapOpen s = some s' → ∃ mem calls, s' = (s.mapOpened map).mapped mem s.disk calls ∧
      IsBitmap mem s.freeMap n (mapBit map s.disk)) ∧
      ((∀ i < 3, s.mallocs i = true) → (freeMapOpen s).isSome) := by
  have hopen := openFreeMapFile_eq h hdisk
  rw [hmap] at hopen
  obtain ⟨ok, mem, calls, hread, hmem, hmemory⟩ := freeMapRead_spec (s := s.mapOpened map)
    ((mapOpen_opened s map).mapFileIn hfits) hbits hn hsize
  by_cases hall : s.mallocs 0 = true ∧ s.mallocs 1 = true
  · rw [if_pos hall] at hopen
    have hcall : freeMapOpen s = if ok then some ((s.mapOpened map).mapped mem s.disk calls) else none := by
      rw [freeMapOpen, hopen, Option.bind_eq_bind, Option.bind_some, hread]
      rfl
    refine ⟨fun s' hs' ↦ ?_, fun hmallocs ↦ ?_⟩
    · rw [hcall] at hs'
      split_ifs at hs' with hok
      exact ⟨mem, calls, (Option.some.inj hs').symm, hmem hok⟩
    · rw [hcall, if_pos (hmemory (hmallocs 2 (by decide)))]
      rfl
  · rw [if_neg hall] at hopen
    refine ⟨fun s' hs' ↦ ?_, fun hmallocs ↦ absurd ⟨hmallocs 0 (by decide), hmallocs 1 (by decide)⟩ hall⟩
    rw [freeMapOpen, hopen] at hs'
    exact absurd hs'.symm (Option.some_ne_none s')

/-- `free_map_init` makes a free map in which the sectors of the two inodes are in use. -/
theorem freeMapInit_spec {block bits : ℕ} (h : Blocks block bits s.capacity) (hcapacity : 1 < s.capacity) :
    ∃ mem, freeMapInit s (some block) (some bits) = some { s with mem := mem, freeMap := block } ∧
      IsBitmap mem block s.capacity fun x ↦ decide (x ≤ ROOT_DIR_SECTOR) := by
  obtain ⟨mem, hcreate, hbits⟩ := bitmapCreate_spec s.mem h
  refine ⟨_, ?_, (bitmapMark_spec (bitmapMark_spec hbits (Nat.zero_lt_of_lt hcapacity)) hcapacity).congr
    fun x _ ↦ ?_⟩
  · rw [freeMapInit, hcreate]
    rfl
  · unfold ROOT_DIR_SECTOR
    rw [Function.update_apply, Function.update_apply]
    split_ifs <;> simp only [decide_eq_true_eq, decide_eq_false_iff_not] <;> omega

/-! ### A volume that is mounted -/

theorem not_mem_empty {Cell : Type} {a : ℕ} {c : Cell} {P : Prop} (h : (Store.empty : Store Cell) a = some c) : P :=
  absurd h.symm (Option.some_ne_none c)

/-- The counts where the file of the free map is the only one. -/
theorem counted_single {m next : ℕ} (hp : p < next) (hm : m < next) (sector : ℕ) (data : InodeDisk) :
    Counted (unremoved (Store.empty.put p ⟨sector, 1, false, 0, data⟩))
      (Store.empty.put m ⟨p, 0, false⟩) next [m] [] where
  nodup := List.nodup_singleton m
  mem_files f := by
    rw [Store.isSome_put, List.mem_singleton]
    exact (or_iff_left Bool.false_ne_true).symm
  opener := Store.forall_put (by rw [isSome_unremoved, Store.put_self]; rfl) fun _ _ _ ↦ not_mem_empty
  heldOpen _ hq := absurd hq List.not_mem_nil
  counts := by
    rw [unremoved_put]
    change ∀ q inode, (Store.empty : Store Inode).put p ⟨sector, 1, false, 0, data⟩ q = some inode →
      CountsOk _ [m] [] q inode
    refine Store.forall_put ⟨rfl, ?_, Int.one_pos, ?_⟩ fun _ _ _ ↦ not_mem_empty
    · rw [Store.census_put_cons List.not_mem_nil, if_pos ((onInode_iff p _).mpr rfl)]
      rfl
    · rw [Store.census_put_cons List.not_mem_nil, if_neg fun hdenies ↦
        Bool.false_ne_true ((denies_iff p _).mp hdenies).2]
      rfl
  fresh a ha := by
    rw [unremoved_put, Store.put_of_ne _ (by omega), Store.put_of_ne _ (by omega)]
    exact ⟨rfl, rfl⟩

/-- A volume of which only the file of the free map is open. -/
theorem MapOpen.sound {m : ℕ} {extra : List (ℕ × ℕ)} {owners : List (ℕ × InodeDisk)} (h : MapOpen map s p m)
    (hsectors : Sectors s f extra owners) (hmap : (FREE_MAP_SECTOR, map) ∈ owners)
    (hroot : (ROOT_DIR_SECTOR, root) ∈ owners) (hsize : byteCnt s.capacity = map.length.toNat)
    (hwhole : root.length.toNat % ENTRY_SIZE = 0)
    (hnamed : ∀ x, Named root s.disk x → ROOT_DIR_SECTOR < x ∧ (x, diskInode s.disk x) ∈ owners)
    (hdistinct : ∀ j < root.slots, ∀ k < root.slots, ∀ name name' x,
      root.entry s.disk j = some (name, x) → root.entry s.disk k = some (name', x) → j = k) :
    Session.Sound map root ⟨s, [], []⟩ ⟨f, extra, owners, s.files, [m], []⟩ := by
  obtain ⟨hinodes, hopenInodes, hfiles, hmapFile, hp, hm⟩ := h
  have howner : ownerOf s.inodes = (Store.empty : Store _).put p (FREE_MAP_SECTOR, map) := by
    rw [hinodes, ownerOf_put]
    rfl
  have howners : ∀ q o, ownerOf s.inodes q = some o → q = p ∧ o = (FREE_MAP_SECTOR, map) := by
    rw [howner]
    exact Store.forall_put ⟨rfl, rfl⟩ fun _ _ _ ↦ not_mem_empty
  have hcells : ∀ f file, s.files f = some file → f = m ∧ file = ⟨p, 0, false⟩ := by
    rw [hfiles]
    exact Store.forall_put ⟨rfl, rfl⟩ fun _ _ _ ↦ not_mem_empty
  have hcounted : Counted (unremoved s.inodes) s.files s.next [m] [] := by
    rw [hinodes, hfiles]
    exact counted_single hp hm FREE_MAP_SECTOR map
  refine ⟨?_, m, hmapFile, rfl, rfl, rfl⟩
  exact {
    sectors := hsectors
    live := by
      rintro o (rfl | rfl | ⟨q, hq⟩ | ⟨hx, hdata⟩)
      · exact hmap
      · exact hroot
      · exact (howners q o hq).2 ▸ hmap
      · have hmem := (hnamed o.1 hx).2
        change o.2 = diskInode s.disk o.1 at hdata
        rwa [← hdata] at hmem
    mapSize := hsize
    whole := hwhole
    counted := hcounted
    writable := fun f file hf ↦ (hcells f file hf).2 ▸ rfl
    listed := fun q ↦ by
      dsimp only
      rw [hopenInodes, howner, Store.isSome_put, List.mem_singleton]
      exact (or_iff_left Bool.false_ne_true).symm
    nodup := by
      dsimp only
      rw [hopenInodes]
      exact List.nodup_singleton p
    single := fun q r o hq hr ↦ (howners q o hq).1.trans (howners r o hr).1.symm
    named := fun x hx ↦ (hnamed x hx).1
    distinct := hdistinct
    removed := by
      dsimp only
      rw [hinodes]
      exact Store.forall_put (fun hmark ↦ by simp at hmark) fun _ _ _ ↦ not_mem_empty
    mapFile := by
      refine ⟨m, ⟨p, 0, false⟩, hmapFile, ?_, ?_, ?_⟩
      · exact (congrFun hfiles m).trans (Store.put_self ..)
      · exact (congrFun hfiles m).trans (Store.put_self ..)
      · exact (congrFun howner p).trans (Store.put_self ..)
    users := fun f file hf hne ↦ absurd ((hcells f file hf).1 ▸ hmapFile) hne }

/-- What mounting a volume keeps: it changes nothing on the disk, and the sectors that were in use still are. -/
structure Mounts (map root : InodeDisk) (s s' : State) (b b' : Books) (mallocs : ℕ → Bool) : Prop where
  sound : Session.Sound map root ⟨s', [], []⟩ b'
  disk : s'.disk = s.disk
  capacity : s'.capacity = s.capacity
  mallocs : ∃ c, ∀ i, s'.mallocs i = mallocs (i + c)
  owners : b'.owners = b.owners
  bits : ∀ x < s.capacity, b'.bits x = mapBit map s.disk x

/-- Mounting the disk of a sound volume gives a sound volume, if there is memory. -/
theorem Volume.filesysInit {b : Books} (h : Volume map root s b) {block bits : ℕ}
    (hblocks : Blocks block bits s.capacity) (mem : Memory) (mallocs : ℕ → Bool) :
    (∀ s', FileSys.filesysInit (.boot s.disk s.capacity mem mallocs) (some block) (some bits) false = some s' →
      ∃ b', Mounts map root s s' b b' mallocs) ∧
    ((∀ i < 3, mallocs i = true) →
      (FileSys.filesysInit (.boot s.disk s.capacity mem mallocs) (some block) (some bits) false).isSome) := by
  have hone := (h.sectors.used h.rootOwner (self_mem_rangesOf _) (covers_self _)).1
  obtain ⟨mem₁, hinit, hbits⟩ := freeMapInit_spec (s := .boot s.disk s.capacity mem mallocs) hblocks hone
  let s₁ : State := { State.boot s.disk s.capacity mem mallocs with mem := mem₁, freeMap := block }
  have hcall : FileSys.filesysInit (.boot s.disk s.capacity mem mallocs) (some block) (some bits) false =
      freeMapOpen s₁ := by
    change (freeMapInit (.boot s.disk s.capacity mem mallocs) (some block) (some bits)).bind _ = _
    rw [hinit]
    rfl
  have hstored := h.sectors.stored _ h.mapOwner
  obtain ⟨hopens, hmemory⟩ := freeMapOpen_spec (s := s₁) ⟨rfl, rfl, rfl⟩ hstored
    (h.sectors.fits h.mapOwner) (h.sectors.onDisk h.mapOwner) hbits (Nat.zero_lt_of_lt hone) h.mapSize
  refine ⟨fun s' hs' ↦ ?_, fun hall ↦ hcall ▸ hmemory hall⟩
  rw [hcall] at hs'
  obtain ⟨mem', calls, rfl, hread⟩ := hopens s' hs'
  have hdurable := h.sectors.durable map h.mapOwner
  have hsectors : Sectors ((s₁.mapOpened map).mapped mem' s.disk calls) (mapBit map s.disk) b.extra b.owners :=
    h.sectors.step ((s₁.mapOpened map).mapped mem' s.disk calls) rfl hread (fun _ _ _ _ ↦ rfl)
      (fun x hx ↦ (hdurable x (h.sectors.ledger.usable x hx).1 (h.sectors.ledger.usable x hx).2).2)
      (h.sectors.durable_of h.mapOwner fun x hx hused ↦ ⟨h.mapSize ▸ lt_byteCnt hx, hused⟩)
  exact ⟨_, ((mapOpen_opened s₁ map).mapped mem' s.disk calls).sound hsectors h.mapOwner h.rootOwner h.mapSize
    h.whole (fun x hx ↦ ⟨h.named x hx, h.entryOwner hx⟩) h.distinct, rfl, rfl, ⟨calls + 2, fun _ ↦ rfl⟩, rfl, fun _ _ ↦ rfl⟩

end Jungle.FileSys
