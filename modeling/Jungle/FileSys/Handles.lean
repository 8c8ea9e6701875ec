import Jungle.FileSys.Volume

/-!
# Opening and closing inodes

`inode_open`, `inode_reopen` and `inode_close` on a sound volume. The sectors of an inode that has been removed
are released by its last opener, and the asserts in `free_map_release` hold.
-/

set_option autoImplicit false
set_option relaxedAutoImplicit false

namespace Jungle.FileSys

open Jungle.Lib Jungle.Bitmap

variable {map root : InodeDisk} {s s' : State} {b : Books} {p : ℕ} {inode inode' : Inode}
  {o : ℕ × InodeDisk}

/-- The inodes that stay open keep their sectors, and calls of `malloc` are used up. -/
structure Evolves (s s' : State) : Prop where
  next : s.next ≤ s'.next
  same : ∀ p < s.next, ∀ o, ownerOf s'.inodes p = some o → ownerOf s.inodes p = some o
  mapFile : s'.freeMapFile = s.freeMapFile
  capacity : s'.capacity = s.capacity
  mallocs : ∃ c, ∀ i, s'.mallocs i = s.mallocs (i + c)

theorem evolves_of_eq (hnext : s'.next = s.next) (hinodes : ownerOf s'.inodes = ownerOf s.inodes)
    (hmap : s'.freeMapFile = s.freeMapFile) (hcapacity : s'.capacity = s.capacity)
    (hmallocs : ∃ c, ∀ i, s'.mallocs i = s.mallocs (i + c)) : Evolves s s' :=
  ⟨Nat.le_of_eq hnext.symm, fun p _ o hp ↦ by rwa [hinodes] at hp, hmap, hcapacity, hmallocs⟩

theorem evolves_transfer (s : State) (disk : Bytes) (calls : ℕ) :
    Evolves s (s.transfer disk calls) :=
  evolves_of_eq rfl rfl rfl rfl ⟨calls, fun _ ↦ rfl⟩

theorem evolves_mapped (s : State) (mem : Memory) (disk : Bytes) (calls : ℕ) :
    Evolves s (s.mapped mem disk calls) :=
  evolves_of_eq rfl rfl rfl rfl ⟨calls, fun _ ↦ rfl⟩

theorem Evolves.trans {s'' : State} (h : Evolves s s') (h' : Evolves s' s'') : Evolves s s'' where
  next := h.next.trans h'.next
  same p hp o ho := h.same p hp o (h'.same p (hp.trans_le h.next) o ho)
  mapFile := h'.mapFile.trans h.mapFile
  capacity := h'.capacity.trans h.capacity
  mallocs := by
    obtain ⟨c, hc⟩ := h.mallocs
    obtain ⟨c', hc'⟩ := h'.mallocs
    exact ⟨c' + c, fun i ↦ by rw [hc', hc, Nat.add_assoc]⟩

/-- Where there is memory for all calls, there still is. -/
theorem Evolves.memory (h : Evolves s s') (hall : ∀ i, s.mallocs i = true) (i : ℕ) :
    s'.mallocs i = true := by
  obtain ⟨c, hc⟩ := h.mallocs
  rw [hc, hall]

/-- Only the inodes that are open have changed. -/
structure Quiet (s s' : State) : Prop where
  evolves : Evolves s s'
  files : s'.files = s.files
  mem : s'.mem = s.mem
  disk : s'.disk = s.disk

theorem Quiet.trans {s'' : State} (h : Quiet s s') (h' : Quiet s' s'') : Quiet s s'' :=
  ⟨h.evolves.trans h'.evolves, h'.files.trans h.files, h'.mem.trans h.mem, h'.disk.trans h.disk⟩

theorem quiet_transfer (s : State) (calls : ℕ) : Quiet s (s.transfer s.disk calls) :=
  ⟨evolves_transfer s s.disk calls, rfl, rfl, rfl⟩

/-! ### `inode_open` -/

/-- What a call of `inode_open` for an owner does. -/
structure Opens (s s' : State) (o : ℕ × InodeDisk) (result : Option ℕ) : Prop where
  quiet : Quiet s s'
  survives : ∀ q o, ownerOf s.inodes q = some o → ownerOf s'.inodes q = some o
  mallocs : s'.mallocs = fun i ↦ s.mallocs (i + if (findInode s o.1).isSome then 0 else 1)
  opened : ∀ p ∈ result, ownerOf s'.inodes p = some o
  succeeds : result.isSome = ((findInode s o.1).isSome || s.mallocs 0)

theorem findInode_spec (h : Volume map root s b) (ho : o ∈ b.owners) :
    (∃ p inode, findInode s o.1 = some p ∧ s.inodes p = some inode ∧ (inode.sector, inode.data) = o) ∨
      findInode s o.1 = none ∧ ∀ p, ownerOf s.inodes p ≠ some o := by
  cases hfind : findInode s o.1 with
  | some p =>
    have hsector := List.find?_some hfind
    obtain ⟨inode, hinode, heq⟩ := Option.map_eq_some_iff.mp (beq_iff_eq.mp hsector)
    exact Or.inl ⟨p, inode, rfl, hinode, h.sectors.unique (h.owned (ownerOf_eq hinode)) ho heq⟩
  | none =>
    refine Or.inr ⟨rfl, fun p hp ↦ ?_⟩
    have hmem : p ∈ s.openInodes := (h.listed p).mpr (hp ▸ rfl)
    have hne := List.find?_eq_none.mp hfind p hmem
    obtain ⟨inode, hinode, heq⟩ := exists_of_ownerOf hp
    refine hne ?_
    rw [hinode, Option.map_some, ← heq]
    exact beq_self_eq_true _

/-- The counts after `inode_reopen`. -/
theorem Volume.reopen (h : Volume map root s b) (hp : s.inodes p = some inode) :
    Volume map root (s.withInode p { inode with openCnt := inode.openCnt + 1 })
      { b with held := p :: b.held } := by
  refine h.withInode hp rfl rfl ?_ (h.removed p inode hp)
  rw [unremoved_put]
  exact h.counted.reopen (unremoved_eq hp)

theorem evolves_withInode (hp : s.inodes p = some inode) (hsector : inode'.sector = inode.sector)
    (hdata : inode'.data = inode.data) : Evolves s (s.withInode p inode') :=
  evolves_of_eq rfl (ownerOf_same hp hsector hdata) rfl rfl ⟨0, fun _ ↦ rfl⟩

/-- `inode_open` of an owner returns a reference to its inode, unless there is no memory. -/
theorem Volume.inodeOpen (h : Volume map root s b) (ho : o ∈ b.owners) : ∃ result s',
    FileSys.inodeOpen s o.1 = some (result, s') ∧
      Volume map root s' { b with held := result.toList ++ b.held } ∧ Opens s s' o result := by
  rcases findInode_spec h ho with ⟨p, inode, hfind, hp, heq⟩ | ⟨hfind, hnew⟩
  · refine ⟨some p, s.withInode p { inode with openCnt := inode.openCnt + 1 }, ?_, h.reopen hp,
      ⟨evolves_withInode hp rfl rfl, rfl, rfl, rfl⟩, fun q o hq ↦ ?_, ?_, ?_, ?_⟩
    · simp only [FileSys.inodeOpen, hfind, inodeReopen_eq hp, Option.bind_eq_bind, Option.bind_some,
        Option.pure_def]
    · have hsame : ownerOf (s.withInode p { inode with openCnt := inode.openCnt + 1 }).inodes =
          ownerOf s.inodes := ownerOf_same hp rfl rfl
      rw [hsame]
      exact hq
    · rw [hfind]
      rfl
    · rintro _ ⟨⟩
      exact (ownerOf_eq (Store.put_self ..)).trans (congrArg some heq)
    · rw [hfind]
      rfl
  · cases hok : s.mallocs 0 with
    | false =>
      refine ⟨none, s.transfer s.disk 1, ?_, h.transfer 1, quiet_transfer s 1, fun _ _ ↦ id, ?_, ?_, ?_⟩
      · simp only [FileSys.inodeOpen, hfind, malloc, hok, Bool.false_eq_true, if_false]
        rfl
      · rw [hfind]
        rfl
      · intro p hp
        exact absurd hp (Option.not_mem_none p)
      · rw [hfind, hok]
        rfl
    | true =>
      have hdisk : OnDisk (malloc s).2 o.1 := h.sectors.onDisk ho
      have hread : InodeDisk.ofBytes (Bytes.copy (fun _ ↦ 0) 0 s.disk (DISK_SECTOR_SIZE * o.1)
          DISK_SECTOR_SIZE) = o.2 := by
        rw [← h.sectors.stored o ho]
        refine ofBytes_congr fun i hi ↦ ?_
        rw [Bytes.copy_of_mem ⟨Nat.zero_le i, by omega⟩]
        rfl
      refine ⟨some s.next, _, ?_, (h.transfer 1).newInode ho hnew,
        ⟨⟨Nat.le_succ _, ?_, rfl, rfl, 1, fun _ ↦ rfl⟩, rfl, rfl, rfl⟩, fun q o hq ↦ ?_, ?_, ?_, ?_⟩
      · simp only [malloc] at hdisk
        simp only [FileSys.inodeOpen, hfind, malloc, hok, if_true, diskRead_eq hdisk,
          Option.bind_eq_bind, Option.bind_some, Option.pure_def, hread]
        rfl
      · intro p hp o' ho'
        change ownerOf (s.inodes.put s.next _) p = _ at ho'
        rwa [ownerOf_put, Store.put_of_ne _ (Nat.ne_of_lt hp)] at ho'
      · change ownerOf (s.inodes.put s.next _) q = _
        rwa [ownerOf_put, Store.put_of_ne _ (Nat.ne_of_lt (h.lt_next hq))]
      · rw [hfind]
        rfl
      · rintro _ ⟨⟩
        exact (congrFun (ownerOf_put ..) s.next).trans (Store.put_self ..)
      · rw [hfind, hok]
        rfl

/-! ### `inode_close` -/

/-- What a call of `inode_close` does. -/
structure Closes (map : InodeDisk) (s s' : State) (b b' : Books) (p : ℕ) (inode : Inode) : Prop where
  evolves : Evolves s s'
  writes : WritesTo map s.disk s'.disk
  files : s'.files = s.files
  cells : b'.cells = b.cells
  opened : b'.files = b.files
  held : b'.held = b.held.erase p
  survives : ∀ q o, ownerOf s.inodes q = some o → (q = p → inode.openCnt ≠ 1) →
    ownerOf s'.inodes q = some o
  keeps : ¬(inode.openCnt = 1 ∧ inode.removed = true) →
    s'.mem = s.mem ∧ s'.disk = s.disk ∧ s'.mallocs = s.mallocs ∧ b' = { b with held := b.held.erase p }
  releases : inode.openCnt = 1 → inode.removed = true →
    ∀ x, Covered (rangesOf (inode.sector, inode.data)) x → b'.bits x = false

/-- The sectors of an inode that is live no more are released. -/
theorem Volume.dispose (h : Volume map root s b) (ho : o ∈ b.owners) (hdead : ¬Live map root s o)
    (hroot : ROOT_DIR_SECTOR < o.1) {mem : Memory} {disk : Bytes} (calls : ℕ) {bits : ℕ → Bool}
    (hbits : IsBitmap mem s.freeMap s.capacity bits)
    (heq : bits = setRange (setRange b.bits o.1 1 false) o.2.start (bytesToSectors o.2.length) false)
    (hwrites : WritesTo map s.disk disk)
    (hdurable : Durable map s.disk s.capacity b.bits → Durable map disk s.capacity bits) :
    Volume map root (s.mapped mem disk calls)
      { b with bits := bits, owners := b.owners.erase o } := by
  have hmapOwner : (FREE_MAP_SECTOR, map) ∈ b.owners := h.mapOwner
  have hperm : b.owners.Perm (o :: b.owners.erase o) := List.perm_cons_erase ho
  have hdisowned := (h.sectors.perm hperm).disown
  have hstep : Sectors (s.mapped mem disk calls) bits b.extra (b.owners.erase o) := by
    refine hdisowned.tail.tail.step (s.mapped mem disk calls) rfl hbits (fun o' ho' ↦
      h.sectors.sameSector hmapOwner hwrites (List.mem_of_mem_erase ho')) (fun x hx ↦ ?_)
      fun map' ho' ↦ h.sectors.durable_of hmapOwner (hdurable (h.sectors.durable map hmapOwner)) map'
        (List.mem_of_mem_erase ho')
    have hused := (hdisowned.tail.tail.ledger.usable x hx).2
    have hself : ¬Covers (o.1, 1) x := fun hcovers ↦ by
      obtain ⟨r, hr, hrx⟩ := hx
      exact (List.pairwise_cons.mp hdisowned.ledger.apart).1 r (List.mem_cons_of_mem _ hr) x hcovers hrx
    have hdata : ¬Covers (o.2.start, bytesToSectors o.2.length) x := fun hcovers ↦ by
      obtain ⟨r, hr, hrx⟩ := hx
      exact (List.pairwise_cons.mp hdisowned.tail.ledger.apart).1 r hr x hcovers hrx
    rw [heq]
    exact (if_neg hdata).trans ((if_neg hself).trans hused)
  have hne : (FREE_MAP_SECTOR, map) ≠ (ROOT_DIR_SECTOR, root) := fun heq ↦
    absurd (Prod.mk.inj heq).1 (by decide)
  refine h.mapped hstep (fun o' ho' ↦ ?_) (h.sectors.sameEntries h.rootOwner fun y hy ↦
    h.sectors.sameData hmapOwner h.rootOwner hne hwrites hy)
  refine (List.mem_erase_of_ne ?_).mpr (h.live o' ho')
  rintro rfl
  exact hdead ho'

/-- `free_map_release` for the sectors of an owner. -/
theorem Sectors.release_owner {f : ℕ → Bool} {extra : List (ℕ × ℕ)} {owners : List (ℕ × InodeDisk)}
    (h : Sectors s f extra owners) (hmap : MapFile s map) (ho : o ∈ owners) : ∃ mem disk calls,
    (∃ s₁, freeMapRelease s o.1 1 = some s₁ ∧ freeMapRelease s₁ o.2.start
      (bytesToSectors o.2.length) = some (s.mapped mem disk calls)) ∧
      IsBitmap mem s.freeMap s.capacity
        (setRange (setRange f o.1 1 false) o.2.start (bytesToSectors o.2.length) false) ∧
      WritesTo map s.disk disk ∧ (Durable map s.disk s.capacity f → Durable map disk s.capacity
        (setRange (setRange f o.1 1 false) o.2.start (bytesToSectors o.2.length) false)) := by
  have hperm : owners.Perm (o :: owners.erase o) := List.perm_cons_erase ho
  have hdisowned := (h.perm hperm).disown
  have hself := (h.used ho (self_mem_rangesOf o) (covers_self _)).1
  obtain ⟨mem, disk, calls, hfirst, hbits, hwrites, hdurable⟩ := freeMapRelease_spec hmap h.bits
    (hdisowned.isRun (Nat.le_of_lt hself))
  have hrun : IsRun (setRange f o.1 1 false) s.capacity (bytesToSectors o.2.length) true
      o.2.start := by
    obtain ⟨hle, hused⟩ := hdisowned.tail.isRun (h.sized o ho).2.2
    refine ⟨hle, fun x hx hx' ↦ (if_neg fun hcovers ↦ ?_).trans (hused x hx hx')⟩
    exact (List.pairwise_cons.mp hdisowned.ledger.apart).1 _ List.mem_cons_self x hcovers ⟨hx, hx'⟩
  obtain ⟨mem', disk', calls', hsecond, hbits', hwrites', hdurable'⟩ :=
    freeMapRelease_spec (hmap.mapped mem disk calls) hbits hrun
  rw [mapped_mapped] at hsecond
  exact ⟨mem', disk', calls + calls', ⟨_, hfirst, hsecond⟩, hbits', hwrites.trans hwrites',
    fun h ↦ hdurable' (hdurable h)⟩

/-- `inode_close` gives a reference back, and releases the sectors of an inode that has been removed if it is
the last one. -/
theorem Volume.inodeClose (h : Volume map root s b) (hheld : p ∈ b.held)
    (hp : s.inodes p = some inode) : ∃ s' b', FileSys.inodeClose s (some p) = some s' ∧
      Volume map root s' b' ∧ Closes map s s' b b' p inode := by
  have hunremoved := unremoved_eq hp
  by_cases hopen : inode.openCnt = 1
  swap
  · have hne : inode.openCnt - 1 ≠ 0 := by omega
    refine ⟨s.withInode p { inode with openCnt := inode.openCnt - 1 },
      { b with held := b.held.erase p }, ?_, h.withInode hp rfl rfl ?_ (h.removed p inode hp),
      evolves_withInode hp rfl rfl, writesTo_refl _ _, rfl, rfl, rfl, rfl, fun q o hq _ ↦ ?_,
      fun _ ↦ ⟨rfl, rfl, rfl, rfl⟩, fun h ↦ absurd h hopen⟩
    · simp only [FileSys.inodeClose, hp, Option.bind_eq_bind, Option.bind_some, if_neg hne,
        Option.pure_def]
      rfl
    · rw [unremoved_put]
      exact h.counted.close hunremoved hheld hopen
    · have hsame : ownerOf (s.withInode p { inode with openCnt := inode.openCnt - 1 }).inodes =
          ownerOf s.inodes := ownerOf_same hp rfl rfl
      rw [hsame]
      exact hq
  · have hcounted : Counted (unremoved (s.inodes.free p)) b.cells s.next b.files (b.held.erase p) := by
      rw [unremoved_free]
      exact h.counted.close_last hunremoved hheld hopen
    have hfreed := h.freeInode hcounted
    have hput : (s.inodes.put p { inode with openCnt := inode.openCnt - 1 }).free p =
        s.inodes.free p := Function.update_idem ..
    have hevolves : ∀ s' : State, s'.inodes = s.inodes.free p → s'.next = s.next →
        s'.freeMapFile = s.freeMapFile → s'.capacity = s.capacity →
        (∃ c, ∀ i, s'.mallocs i = s.mallocs (i + c)) → Evolves s s' := by
      intro s' hinodes hnext hmap hcapacity hmallocs
      refine ⟨Nat.le_of_eq hnext.symm, fun q _ o hq ↦ ?_, hmap, hcapacity, hmallocs⟩
      rw [hinodes, ownerOf_free, Store.free_apply] at hq
      split_ifs at hq
      exact hq
    have hsurvives : ∀ s' : State, s'.inodes = s.inodes.free p → ∀ q o, ownerOf s.inodes q = some o →
        (q = p → inode.openCnt ≠ 1) → ownerOf s'.inodes q = some o := by
      intro s' hinodes q o hq hlast
      rw [hinodes, ownerOf_free, Store.free_of_ne _ fun heq ↦ hlast heq hopen]
      exact hq
    cases hremoved : inode.removed with
    | false =>
      refine ⟨_, _, ?_, hfreed, hevolves _ rfl rfl rfl rfl ⟨0, fun _ ↦ rfl⟩, writesTo_refl _ _, rfl, rfl, rfl,
        rfl, hsurvives _ rfl, fun _ ↦ ⟨rfl, rfl, rfl, rfl⟩, fun _ h ↦ absurd (hremoved.symm.trans h) Bool.false_ne_true⟩
      simp only [FileSys.inodeClose, hp, Option.bind_eq_bind, Option.bind_some, hopen, hremoved,
        Int.sub_self, if_true, Bool.false_eq_true, if_false, Option.pure_def, ← hput]
    | true =>
      let o : ℕ × InodeDisk := (inode.sector, inode.data)
      have ho : o ∈ b.owners := h.owned (ownerOf_eq hp)
      obtain ⟨hsector, hunnamed⟩ := h.removed p inode hp hremoved
      let s₁ : State := { s with
        inodes := s.inodes.put p { inode with openCnt := inode.openCnt - 1 }
        openInodes := s.openInodes.erase p }
      have hmap₁ : MapFile s₁ map := by
        obtain ⟨m, file, hm, hfile, -, howner⟩ := h.mapFile
        have hsame : ownerOf s₁.inodes = ownerOf s.inodes := ownerOf_same hp rfl rfl
        rw [← hsame] at howner
        obtain ⟨inode', hp', heq⟩ := exists_of_ownerOf howner
        refine ⟨⟨m, file, inode', hm, hfile, hp', (Prod.mk.inj heq).2, ?_⟩, h.mapIn.fits⟩
        refine Store.forall_put (h.denyWriteCnt hp) (fun q _ inode hq ↦ h.denyWriteCnt hq) _ _ hp'
      have h₁ : Sectors s₁ b.bits b.extra b.owners :=
        ⟨h.sectors.bits, h.sectors.small, h.sectors.ledger, h.sectors.stored, h.sectors.sized,
          h.sectors.durable⟩
      obtain ⟨mem, disk, calls, ⟨s₂, hfirst, hsecond⟩, hbits, hwrites, hdurable⟩ :=
        h₁.release_owner hmap₁ ho
      have hdead : ¬Live map root { s with
          inodes := s.inodes.free p
          openInodes := s.openInodes.erase p } o := by
        rintro (heq | heq | ⟨q, hq⟩ | ⟨hnamed, -⟩)
        · exact absurd (Prod.mk.inj heq).1 (by unfold FREE_MAP_SECTOR ROOT_DIR_SECTOR at *; omega)
        · exact absurd (Prod.mk.inj heq).1 (Nat.ne_of_gt hsector)
        · change ownerOf (s.inodes.free p) q = _ at hq
          rw [ownerOf_free, Store.free_apply] at hq
          split_ifs at hq with hne
          exact hne (h.single q p o hq (ownerOf_eq hp))
        · exact hunnamed hnamed
      have hdisposed := hfreed.dispose ho hdead hsector calls hbits rfl hwrites hdurable
      refine ⟨_, _, ?_, hdisposed, hevolves _ rfl rfl rfl rfl ⟨calls, fun _ ↦ rfl⟩, hwrites, rfl, rfl, rfl, rfl,
        hsurvives _ rfl, fun hnot ↦ absurd ⟨hopen, hremoved⟩ hnot, fun _ _ x hx ↦ ?_⟩
      · have hclose : FileSys.inodeClose s (some p) = (freeMapRelease s₁ o.1 1).bind fun s₂ ↦
            (freeMapRelease s₂ o.2.start (bytesToSectors o.2.length)).bind fun s₃ ↦
              some { s₃ with inodes := s₃.inodes.free p } := by
          simp only [FileSys.inodeClose, hp, Option.bind_eq_bind, Option.bind_some, hopen, hremoved,
            Int.sub_self, if_true, Option.pure_def, s₁]
          rfl
        rw [hclose, hfirst, Option.bind_some, hsecond, Option.bind_some, ← hput]
        rfl
      · obtain ⟨r, hr, hrx⟩ := hx
        rcases List.mem_cons.mp hr with rfl | hr
        · change setRange (setRange b.bits o.1 1 false) _ _ false x = false
          unfold setRange
          split_ifs with hdata hself
          · rfl
          · rfl
          · exact absurd hrx hself
        · obtain rfl := List.mem_singleton.mp hr
          exact if_pos hrx

end Jungle.FileSys
