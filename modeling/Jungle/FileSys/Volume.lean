import Jungle.FileSys.DirectoryRuns
import Jungle.FileSys.Sectors

/-!
# The invariant of a file system

The inodes of the free map and of the root directory, those that are open and those that an entry of the root
directory names are live. A volume is sound (`Volume`) if the live inodes are owners of sectors, the counts of
the open ones are right, and an inode that has been removed is named by no entry.
-/

set_option autoImplicit false
set_option relaxedAutoImplicit false

namespace Jungle.FileSys

open Jungle.Lib Jungle.Bitmap

/-! ### Inodes that are open -/

/-- The inodes, without the marks of those that have been removed. -/
def unremoved (inodes : Store Inode) : Store Inode := fun p ↦
  (inodes p).map fun inode ↦ { inode with removed := false }

/-- The sectors and the data of the open inodes. -/
def ownerOf (inodes : Store Inode) : Store (ℕ × InodeDisk) := fun p ↦
  (inodes p).map fun inode ↦ (inode.sector, inode.data)

variable {inodes : Store Inode} {inode inode' : Inode} {p q : ℕ} {o : ℕ × InodeDisk}

theorem unremoved_eq (hp : inodes p = some inode) :
    unremoved inodes p = some { inode with removed := false } := by
  rw [unremoved, hp]
  rfl

theorem unremoved_put (inodes : Store Inode) (p : ℕ) (inode : Inode) :
    unremoved (inodes.put p inode) = (unremoved inodes).put p { inode with removed := false } := by
  funext q
  rw [unremoved, Store.put_apply, Store.put_apply]
  split_ifs <;> rfl

theorem unremoved_free (inodes : Store Inode) (p : ℕ) :
    unremoved (inodes.free p) = (unremoved inodes).free p := by
  funext q
  rw [unremoved, Store.free_apply, Store.free_apply]
  split_ifs <;> rfl

theorem ownerOf_eq (hp : inodes p = some inode) :
    ownerOf inodes p = some (inode.sector, inode.data) := by
  rw [ownerOf, hp]
  rfl

theorem ownerOf_put (inodes : Store Inode) (p : ℕ) (inode : Inode) :
    ownerOf (inodes.put p inode) = (ownerOf inodes).put p (inode.sector, inode.data) := by
  funext q
  rw [ownerOf, Store.put_apply, Store.put_apply]
  split_ifs <;> rfl

theorem ownerOf_free (inodes : Store Inode) (p : ℕ) :
    ownerOf (inodes.free p) = (ownerOf inodes).free p := by
  funext q
  rw [ownerOf, Store.free_apply, Store.free_apply]
  split_ifs <;> rfl

/-- An inode that changes keeps its sectors. -/
theorem ownerOf_same (hp : inodes p = some inode) (hsector : inode'.sector = inode.sector)
    (hdata : inode'.data = inode.data) : ownerOf (inodes.put p inode') = ownerOf inodes := by
  rw [ownerOf_put, hsector, hdata, Store.put_eq_self (ownerOf_eq hp)]

theorem exists_of_ownerOf (h : ownerOf inodes p = some o) :
    ∃ inode, inodes p = some inode ∧ (inode.sector, inode.data) = o :=
  Option.map_eq_some_iff.mp h

theorem isSome_ownerOf (inodes : Store Inode) (p : ℕ) :
    (ownerOf inodes p).isSome = (inodes p).isSome :=
  Option.isSome_map ..

theorem isSome_unremoved (inodes : Store Inode) (p : ℕ) :
    (unremoved inodes p).isSome = (inodes p).isSome :=
  Option.isSome_map ..

/-! ### The invariant -/

/-- An entry of the root directory names the inode in a sector. -/
def Named (root : InodeDisk) (disk : Bytes) (x : ℕ) : Prop :=
  ∃ k < root.slots, ∃ name, root.entry disk k = some (name, x)

/-- The inode of the free map or of the root directory, or one that is open or that an entry of the root
directory names. -/
def Live (map root : InodeDisk) (s : State) (o : ℕ × InodeDisk) : Prop :=
  o = (FREE_MAP_SECTOR, map) ∨ o = (ROOT_DIR_SECTOR, root) ∨ (∃ p, ownerOf s.inodes p = some o) ∨
    Named root s.disk o.1 ∧ o.2 = diskInode s.disk o.1

/-- The bits of the free map, the sectors in use and their owners, and the open files and the references to
inodes that are held beside them. -/
structure Books where
  bits : ℕ → Bool
  extra : List (ℕ × ℕ)
  owners : List (ℕ × InodeDisk)
  cells : Store File
  files : List ℕ
  held : List ℕ

/-- A file is the free map's, or on an inode that is neither the free map's nor the root directory's. -/
def OfUser (s : State) (f : ℕ) (file : File) : Prop :=
  s.freeMapFile ≠ some f → ∀ o, ownerOf s.inodes file.inode = some o → ROOT_DIR_SECTOR < o.1

/-- A sound volume. -/
structure Volume (map root : InodeDisk) (s : State) (b : Books) : Prop where
  sectors : Sectors s b.bits b.extra b.owners
  live : ∀ o, Live map root s o → o ∈ b.owners
  mapSize : byteCnt s.capacity = map.length.toNat
  whole : root.length.toNat % ENTRY_SIZE = 0
  counted : Counted (unremoved s.inodes) b.cells s.next b.files b.held
  writable : ∀ f file, b.cells f = some file → file.denyWrite = false
  listed : ∀ p, p ∈ s.openInodes ↔ (ownerOf s.inodes p).isSome
  nodup : s.openInodes.Nodup
  single : ∀ p q o, ownerOf s.inodes p = some o → ownerOf s.inodes q = some o → p = q
  named : ∀ x, Named root s.disk x → ROOT_DIR_SECTOR < x
  distinct : ∀ j < root.slots, ∀ k < root.slots, ∀ name name' x,
    root.entry s.disk j = some (name, x) → root.entry s.disk k = some (name', x) → j = k
  removed : ∀ p inode, s.inodes p = some inode → inode.removed = true →
    ROOT_DIR_SECTOR < inode.sector ∧ ¬Named root s.disk inode.sector
  mapFile : ∃ m file, s.freeMapFile = some m ∧ s.files m = some file ∧ b.cells m = some file ∧
    ownerOf s.inodes file.inode = some (FREE_MAP_SECTOR, map)
  users : ∀ f file, b.cells f = some file → OfUser s f file

variable {map root : InodeDisk} {s s' : State} {b : Books} {f : ℕ} {file : File} {held : List ℕ}

theorem SameEntries.named {disk disk' : Bytes} (h : SameEntries root disk disk') {x : ℕ} :
    Named root disk' x ↔ Named root disk x :=
  exists_congr fun k ↦ and_congr_right fun hk ↦ exists_congr fun name ↦ by rw [h k hk]

namespace Volume

theorem mapOwner (h : Volume map root s b) : (FREE_MAP_SECTOR, map) ∈ b.owners :=
  h.live _ (Or.inl rfl)

theorem rootOwner (h : Volume map root s b) : (ROOT_DIR_SECTOR, root) ∈ b.owners :=
  h.live _ (Or.inr (Or.inl rfl))

theorem owned (h : Volume map root s b) (hp : ownerOf s.inodes p = some o) : o ∈ b.owners :=
  h.live _ (Or.inr (Or.inr (Or.inl ⟨p, hp⟩)))

/-- An entry names an owner. -/
theorem entryOwner (h : Volume map root s b) {x : ℕ} (hx : Named root s.disk x) :
    (x, diskInode s.disk x) ∈ b.owners :=
  h.live _ (Or.inr (Or.inr (Or.inr ⟨hx, rfl⟩)))

/-- Writes to an inode are not denied. -/
theorem denyWriteCnt (h : Volume map root s b) (hp : s.inodes p = some inode) :
    inode.denyWriteCnt = 0 := by
  have hcnt := (h.counted.counts p _ (unremoved_eq hp)).denyCnt
  have hzero : b.cells.census b.files (Denies p) = 0 := by
    refine Nat.eq_zero_of_not_pos fun hpos ↦ ?_
    obtain ⟨f, -, file, hf, hfile⟩ := Store.census_pos_iff.mp hpos
    exact Bool.false_ne_true ((h.writable f file hf).symm.trans ((denies_iff p file).mp hfile).2)
  rw [hzero] at hcnt
  exact hcnt

theorem lt_next (h : Volume map root s b) (hp : ownerOf s.inodes p = some o) : p < s.next := by
  obtain ⟨inode, hinode, -⟩ := exists_of_ownerOf hp
  by_contra hle
  have hfresh := (h.counted.fresh p (Nat.le_of_not_lt hle)).1
  exact Option.some_ne_none _ ((unremoved_eq hinode).symm.trans hfresh)

theorem heldOwner (h : Volume map root s b) (hp : p ∈ b.held) :
    ∃ inode, s.inodes p = some inode := by
  have hsome := h.counted.heldOpen p hp
  rw [isSome_unremoved] at hsome
  exact Option.isSome_iff_exists.mp hsome

theorem mapIn (h : Volume map root s b) : MapFile s map := by
  obtain ⟨m, file, hm, hfile, -, howner⟩ := h.mapFile
  obtain ⟨inode, hinode, heq⟩ := exists_of_ownerOf howner
  obtain ⟨-, hdata⟩ := Prod.mk.inj heq
  exact ⟨⟨m, file, inode, hm, hfile, hinode, hdata, h.denyWriteCnt hinode⟩, h.sectors.fits h.mapOwner⟩

theorem dirInode (h : Volume map root s b) (hp : ownerOf s.inodes p = some (ROOT_DIR_SECTOR, root)) :
    DirInode s p root := by
  obtain ⟨inode, hinode, heq⟩ := exists_of_ownerOf hp
  exact ⟨⟨inode, hinode, (Prod.mk.inj heq).2, h.denyWriteCnt hinode⟩, h.sectors.fits h.rootOwner,
    h.whole⟩

end Volume

/-- Where the sectors of a directory are the same, its entries are. -/
theorem Sectors.sameEntries {f : ℕ → Bool} {extra : List (ℕ × ℕ)} {owners : List (ℕ × InodeDisk)}
    (h : Sectors s f extra owners) (ho : o ∈ owners) {disk : Bytes}
    (hsame : ∀ y, Covers (o.2.start, bytesToSectors o.2.length) y → SameSector s.disk disk y) :
    SameEntries o.2 s.disk disk := by
  intro k hk
  refine (entry_congr fun i hi ↦ ?_).2.2.2
  have hroom := slot_room hk
  have haddr : o.2.addr (k * ENTRY_SIZE) + i = o.2.addr (k * ENTRY_SIZE + i) := Nat.add_assoc ..
  rw [InodeDisk.slot, InodeDisk.slot, haddr]
  exact h.sameBytes ho hsame (by omega)

/-- Writing to one owner's data changes no sector of another. -/
theorem Sectors.sameData {f : ℕ → Bool} {extra : List (ℕ × ℕ)} {owners : List (ℕ × InodeDisk)}
    {o' : ℕ × InodeDisk} (h : Sectors s f extra owners) (ho : o ∈ owners) (ho' : o' ∈ owners)
    (hne : o ≠ o') {disk : Bytes} (hwrites : WritesTo o.2 s.disk disk) {y : ℕ}
    (hy : Covers (o'.2.start, bytesToSectors o'.2.length) y) : SameSector s.disk disk y :=
  hwrites.sector (h.sized o ho).2.1 fun hy' ↦
    h.apart ho ho' hne _ (data_mem_rangesOf o) _ (data_mem_rangesOf o') y hy' hy

/-- The data sectors of the owners other than the free map and the root directory are the same. -/
def KeepsUsers (owners : List (ℕ × InodeDisk)) (disk disk' : Bytes) : Prop :=
  ∀ o ∈ owners, ROOT_DIR_SECTOR < o.1 →
    ∀ y, Covers (o.2.start, bytesToSectors o.2.length) y → SameSector disk disk' y

theorem keepsUsers_refl (owners : List (ℕ × InodeDisk)) (disk : Bytes) : KeepsUsers owners disk disk :=
  fun _ _ _ _ _ _ _ ↦ rfl

theorem KeepsUsers.trans {owners : List (ℕ × InodeDisk)} {disk disk' disk'' : Bytes}
    (h : KeepsUsers owners disk disk') (h' : KeepsUsers owners disk' disk'') :
    KeepsUsers owners disk disk'' :=
  fun o ho hne y hy ↦ (h o ho hne y hy).trans (h' o ho hne y hy)

/-- Writing to the files of the free map and of the root directory changes no other file. -/
theorem Sectors.keepsUsers {f : ℕ → Bool} {extra : List (ℕ × ℕ)} {owners : List (ℕ × InodeDisk)}
    (h : Sectors s f extra owners) (ho : o ∈ owners) (hsystem : o.1 ≤ ROOT_DIR_SECTOR) {disk : Bytes}
    (hwrites : WritesTo o.2 s.disk disk) : KeepsUsers owners s.disk disk := by
  intro o' ho' huser y hy
  refine h.sameData ho ho' ?_ hwrites hy
  rintro rfl
  exact Nat.not_lt_of_le hsystem huser

/-! ### Changes -/

namespace Volume

/-- Writing to the file of the free map changes no entry. -/
theorem mapEntries (h : Volume map root s b) {disk : Bytes} (hwrites : WritesTo map s.disk disk) :
    SameEntries root s.disk disk := by
  refine h.sectors.sameEntries h.rootOwner fun y hy ↦ h.sectors.sameData h.mapOwner h.rootOwner ?_ hwrites hy
  exact fun heq ↦ absurd (Prod.mk.inj heq).1 (by decide)

/-- Other sectors are in use, and the entries of the root directory are the same. -/
theorem mapped (h : Volume map root s b) {m : Memory} {disk : Bytes} {calls : ℕ} {bits : ℕ → Bool}
    {extra : List (ℕ × ℕ)} {owners : List (ℕ × InodeDisk)}
    (hsectors : Sectors (s.mapped m disk calls) bits extra owners)
    (howners : ∀ o, Live map root s o → o ∈ owners) (hentries : SameEntries root s.disk disk) :
    Volume map root (s.mapped m disk calls)
      { b with bits := bits, extra := extra, owners := owners } where
  sectors := hsectors
  live o ho := by
    rcases ho with rfl | rfl | hopen | ⟨hnamed, hdata⟩
    · exact howners _ (Or.inl rfl)
    · exact howners _ (Or.inr (Or.inl rfl))
    · exact howners _ (Or.inr (Or.inr (Or.inl hopen)))
    · have howner := howners (o.1, diskInode s.disk o.1)
        (Or.inr (Or.inr (Or.inr ⟨hentries.named.mp hnamed, rfl⟩)))
      have hstored := hsectors.stored _ howner
      change diskInode disk o.1 = diskInode s.disk o.1 at hstored
      replace hdata : o.2 = diskInode disk o.1 := hdata
      rw [← hstored, ← hdata] at howner
      exact howner
  mapSize := h.mapSize
  whole := h.whole
  counted := h.counted
  writable := h.writable
  listed := h.listed
  nodup := h.nodup
  single := h.single
  named x hx := h.named x (hentries.named.mp hx)
  distinct j hj k hk name name' x hjx hkx := by
    change root.entry disk j = _ at hjx
    change root.entry disk k = _ at hkx
    rw [hentries j hj] at hjx
    rw [hentries k hk] at hkx
    exact h.distinct j hj k hk name name' x hjx hkx
  removed p inode hp hremoved :=
    ⟨(h.removed p inode hp hremoved).1, fun hnamed ↦
      (h.removed p inode hp hremoved).2 (hentries.named.mp hnamed)⟩
  mapFile := h.mapFile
  users := h.users

/-- A call of `malloc`. -/
theorem transfer (h : Volume map root s b) (calls : ℕ) :
    Volume map root (s.transfer s.disk calls) b :=
  h.mapped (m := s.mem) (h.sectors.step _ rfl h.sectors.bits (fun _ _ _ _ ↦ rfl)
    (fun x hx ↦ (h.sectors.ledger.usable x hx).2) h.sectors.durable) h.live (sameEntries_refl _ _)

/-- An inode changes that keeps its sectors. -/
theorem withInode (h : Volume map root s b) (hp : s.inodes p = some inode)
    (hsector : inode'.sector = inode.sector) (hdata : inode'.data = inode.data)
    (hcounted : Counted (unremoved (s.inodes.put p inode')) b.cells s.next b.files held)
    (hremoved : inode'.removed = true →
      ROOT_DIR_SECTOR < inode.sector ∧ ¬Named root s.disk inode.sector) :
    Volume map root (s.withInode p inode') { b with held := held } := by
  have hsame : ownerOf (s.withInode p inode').inodes = ownerOf s.inodes :=
    ownerOf_same hp hsector hdata
  have hlive : ∀ o, Live map root (s.withInode p inode') o → Live map root s o := by
    intro o ho
    unfold Live at ho
    rw [hsame] at ho
    exact ho
  refine ⟨⟨h.sectors.bits, h.sectors.small, h.sectors.ledger, h.sectors.stored, h.sectors.sized,
    h.sectors.durable⟩,
    fun o ho ↦ h.live o (hlive o ho), h.mapSize, h.whole, hcounted, h.writable, ?_, h.nodup, ?_, h.named,
    h.distinct, ?_, ?_, fun f file hf ↦ ?_⟩
  · rw [hsame]
    exact h.listed
  · rw [hsame]
    exact h.single
  · refine Store.forall_put (fun hmark ↦ ?_) fun q _ inode hq ↦ h.removed q inode hq
    rw [hsector]
    exact hremoved hmark
  · rw [hsame]
    exact h.mapFile
  · unfold OfUser
    rw [hsame]
    exact h.users f file hf

/-- A sector that is not open is opened. -/
theorem newInode (h : Volume map root s b) (ho : o ∈ b.owners)
    (hnew : ∀ p, ownerOf s.inodes p ≠ some o) :
    Volume map root { s with
      inodes := s.inodes.put s.next ⟨o.1, 1, false, 0, o.2⟩
      openInodes := s.next :: s.openInodes
      next := s.next + 1 } { b with held := s.next :: b.held } := by
  have howner : ownerOf (s.inodes.put s.next ⟨o.1, 1, false, 0, o.2⟩) =
      (ownerOf s.inodes).put s.next o := ownerOf_put ..
  have hnone : ownerOf s.inodes s.next = none := by
    refine Option.eq_none_iff_forall_ne_some.mpr fun o' ho' ↦ ?_
    exact Nat.lt_irrefl _ (h.lt_next ho')
  have hfile : ∀ {file : File} {f : ℕ}, b.cells f = some file → file.inode ≠ s.next := by
    intro file f hf heq
    have hopener := h.counted.opener f file hf
    rw [isSome_unremoved, ← isSome_ownerOf, heq, hnone] at hopener
    exact Bool.false_ne_true hopener
  refine ⟨⟨h.sectors.bits, h.sectors.small, h.sectors.ledger, h.sectors.stored, h.sectors.sized,
    h.sectors.durable⟩,
    fun o' ho' ↦ ?_, h.mapSize, h.whole, ?_, h.writable, fun p ↦ ?_, ?_, fun p q o' hp hq ↦ ?_, h.named, h.distinct,
    ?_, ?_, fun f file hf hne o' ho' ↦ ?_⟩
  · rcases ho' with rfl | rfl | ⟨p, hp⟩ | hnamed
    · exact h.mapOwner
    · exact h.rootOwner
    · rw [howner, Store.put_apply] at hp
      split_ifs at hp
      · exact Option.some.inj hp ▸ ho
      · exact h.owned hp
    · exact h.live _ (Or.inr (Or.inr (Or.inr hnamed)))
  · rw [unremoved_put]
    exact h.counted.open_inode o.1 o.2
  · rw [howner, Store.isSome_put, List.mem_cons, h.listed]
  · refine List.nodup_cons.mpr ⟨fun hmem ↦ ?_, h.nodup⟩
    rw [h.listed, hnone] at hmem
    exact Bool.false_ne_true hmem
  · rw [howner, Store.put_apply] at hp hq
    split_ifs at hp hq with hp' hq' hq'
    · rw [hp', hq']
    · exact absurd (hq.trans hp.symm) (hnew q)
    · exact absurd (hp.trans hq.symm) (hnew p)
    · exact h.single p q o' hp hq
  · exact Store.forall_put (fun hmark ↦ by simp at hmark) fun q _ inode hq ↦ h.removed q inode hq
  · obtain ⟨m, file, hm, hfile', hcell, hmap⟩ := h.mapFile
    refine ⟨m, file, hm, hfile', hcell, ?_⟩
    rw [howner, Store.put_of_ne _ (hfile hcell)]
    exact hmap
  · dsimp only at ho'
    rw [howner, Store.put_of_ne _ (hfile hf)] at ho'
    exact h.users f file hf hne o' ho'

/-- An inode is closed by its last opener. -/
theorem freeInode (h : Volume map root s b)
    (hcounted : Counted (unremoved (s.inodes.free p)) b.cells s.next b.files held) :
    Volume map root { s with
      inodes := s.inodes.free p
      openInodes := s.openInodes.erase p } { b with held := held } := by
  have howner : ownerOf (s.inodes.free p) = (ownerOf s.inodes).free p := ownerOf_free ..
  have hsub : ∀ {q : ℕ} {o : ℕ × InodeDisk}, ownerOf (s.inodes.free p) q = some o →
      ownerOf s.inodes q = some o := by
    intro q o hq
    rw [howner, Store.free_apply] at hq
    split_ifs at hq
    exact hq
  refine ⟨⟨h.sectors.bits, h.sectors.small, h.sectors.ledger, h.sectors.stored, h.sectors.sized,
    h.sectors.durable⟩,
    fun o ho ↦ h.live o ?_, h.mapSize, h.whole, hcounted, h.writable, fun q ↦ ?_, h.nodup.erase p,
    fun q r o hq hr ↦ h.single q r o (hsub hq) (hsub hr), h.named, h.distinct, ?_, ?_,
    fun f file hf hne o ho ↦ h.users f file hf hne o (hsub ho)⟩
  · rcases ho with rfl | rfl | ⟨q, hq⟩ | hnamed
    · exact Or.inl rfl
    · exact Or.inr (Or.inl rfl)
    · exact Or.inr (Or.inr (Or.inl ⟨q, hsub hq⟩))
    · exact Or.inr (Or.inr (Or.inr hnamed))
  · rw [howner, Store.isSome_free, h.nodup.mem_erase_iff, h.listed]
  · exact Store.forall_free fun q _ inode hq ↦ h.removed q inode hq
  · obtain ⟨m, file, hm, hfile, hcell, hmap⟩ := h.mapFile
    refine ⟨m, file, hm, hfile, hcell, ?_⟩
    have hopener := hcounted.opener m file hcell
    rw [isSome_unremoved, Store.isSome_free] at hopener
    rw [howner, Store.free_of_ne _ hopener.1]
    exact hmap

/-- Other files are open, but the free map's is the same. -/
theorem withFiles (h : Volume map root s b) (files : Store File) (next : ℕ) {cells : Store File}
    {open' : List ℕ} (hcounted : Counted (unremoved s.inodes) cells next open' held)
    (hwritable : ∀ f file, cells f = some file → file.denyWrite = false)
    (hmap : ∀ m, s.freeMapFile = some m → files m = s.files m ∧ cells m = b.cells m)
    (husers : ∀ f file, cells f = some file → OfUser s f file) :
    Volume map root { s with files := files, next := next }
      { b with cells := cells, files := open', held := held } := by
  refine ⟨⟨h.sectors.bits, h.sectors.small, h.sectors.ledger, h.sectors.stored, h.sectors.sized,
    h.sectors.durable⟩,
    h.live, h.mapSize, h.whole, hcounted, hwritable, h.listed, h.nodup, h.single, h.named, h.distinct, h.removed,
    ?_, husers⟩
  obtain ⟨m, file, hm, hfile, hcell, howner⟩ := h.mapFile
  exact ⟨m, file, hm, (hmap m hm).1.trans hfile, (hmap m hm).2.trans hcell, howner⟩

end Volume

end Jungle.FileSys
