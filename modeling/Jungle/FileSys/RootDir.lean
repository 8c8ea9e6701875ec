import Jungle.FileSys.OpenFiles

/-!
# The root directory of a volume

`dir_open_root`, `dir_lookup`, `dir_add` and `dir_remove` on a sound volume. `dir_remove` marks the inode as
removed once no entry names it, and `dir_add` is called for an inode that no entry names yet.
-/

set_option autoImplicit false
set_option relaxedAutoImplicit false

namespace Jungle.FileSys

open Jungle.Lib Jungle.Bitmap

variable {map root : InodeDisk} {s s' : State} {b : Books} {p k : ℕ} {inode : Inode}
  {o : ℕ × InodeDisk} {disk : Bytes} {name : List UInt8}

/-! ### Opening and closing it -/

/-- The calls of `malloc` in `dir_open_root`. -/
def rootCalls (s : State) : ℕ := if (findInode s ROOT_DIR_SECTOR).isSome then 1 else 2

/-- What a call of `dir_open_root` does. -/
structure OpensRoot (s s' : State) (root : InodeDisk) (result : Option ℕ) : Prop where
  quiet : Quiet s s'
  opened : ∀ p ∈ result, ownerOf s'.inodes p = some (ROOT_DIR_SECTOR, root)
  succeeds : result.isSome ↔ ∀ i < rootCalls s, s.mallocs i = true
  mallocs : result.isSome → s'.mallocs = fun i ↦ s.mallocs (i + rootCalls s)

/-- Closing the root directory releases nothing. -/
theorem Volume.closeRoot (h : Volume map root s b) (hheld : p ∈ b.held)
    (hp : ownerOf s.inodes p = some (ROOT_DIR_SECTOR, root)) : ∃ s',
    FileSys.inodeClose s (some p) = some s' ∧
      Volume map root s' { b with held := b.held.erase p } ∧ Quiet s s' := by
  obtain ⟨inode, hinode, heq⟩ := exists_of_ownerOf hp
  obtain ⟨s', b', hclose, hvolume, hcloses⟩ := h.inodeClose hheld hinode
  have hkept : ¬(inode.openCnt = 1 ∧ inode.removed = true) := by
    rintro ⟨-, hremoved⟩
    have hsector := (h.removed p inode hinode hremoved).1
    rw [(Prod.mk.inj heq).1] at hsector
    exact Nat.lt_irrefl _ hsector
  obtain ⟨hmem, hdisk, -, rfl⟩ := hcloses.keeps hkept
  exact ⟨s', hclose, hvolume, hcloses.evolves, hcloses.files, hmem, hdisk⟩

/-- `dir_open_root` returns a reference to the root directory, unless there is no memory. -/
theorem Volume.dirOpenRoot (h : Volume map root s b) : ∃ result s',
    FileSys.dirOpenRoot s = some (result, s') ∧
      Volume map root s' { b with held := result.toList ++ b.held } ∧
      OpensRoot s s' root result := by
  obtain ⟨result, s₁, hopen, h₁, hopens⟩ := h.inodeOpen h.rootOwner
  replace hopen : FileSys.inodeOpen s ROOT_DIR_SECTOR = some (result, s₁) := hopen
  have hcall : FileSys.dirOpenRoot s = dirOpen s₁ result := by
    rw [FileSys.dirOpenRoot, hopen]
    rfl
  have hsucceeds : result.isSome = ((findInode s ROOT_DIR_SECTOR).isSome || s.mallocs 0) :=
    hopens.succeeds
  have hmallocs : s₁.mallocs =
      fun i ↦ s.mallocs (i + if (findInode s ROOT_DIR_SECTOR).isSome then 0 else 1) := hopens.mallocs
  have hcalls : result.isSome → (s₁.mallocs 0 = true ↔ ∀ i < rootCalls s, s.mallocs i = true) ∧
      ∀ i, s₁.mallocs (i + 1) = s.mallocs (i + rootCalls s) := by
    intro hsome
    rw [hsome] at hsucceeds
    rw [hmallocs, rootCalls]
    cases hfind : (findInode s ROOT_DIR_SECTOR).isSome with
    | true =>
      refine ⟨⟨fun hok i hi ↦ ?_, fun hall ↦ hall 0 Nat.one_pos⟩, fun i ↦ rfl⟩
      obtain rfl : i = 0 := Nat.lt_one_iff.mp hi
      exact hok
    | false =>
      rw [hfind, Bool.false_or] at hsucceeds
      refine ⟨⟨fun hok i hi ↦ ?_, fun hall ↦ hall 1 (by decide)⟩, fun i ↦ rfl⟩
      obtain rfl | rfl : i = 0 ∨ i = 1 := by
        simp only [Bool.false_eq_true, if_false] at hi
        omega
      · exact hsucceeds.symm
      · exact hok
  cases result with
  | none =>
    refine ⟨none, s₁.transfer s₁.disk 1, ?_, h₁.transfer 1, hopens.quiet.trans (quiet_transfer s₁ 1),
      fun p hp ↦ absurd hp (Option.not_mem_none p), iff_of_false Bool.false_ne_true fun hall ↦ ?_,
      fun hsome ↦ absurd hsome Bool.false_ne_true⟩
    · rw [hcall]
      rfl
    · rw [Option.isSome_none, eq_comm, Bool.or_eq_false_iff] at hsucceeds
      have hpos : 0 < rootCalls s := by
        unfold rootCalls
        split_ifs <;> decide
      exact Bool.false_ne_true (hsucceeds.2.symm.trans (hall 0 hpos))
  | some p =>
    obtain ⟨hiff, hshift⟩ := hcalls rfl
    cases hok : s₁.mallocs 0 with
    | true =>
      refine ⟨some p, s₁.transfer s₁.disk 1, ?_, h₁.transfer 1, hopens.quiet.trans (quiet_transfer s₁ 1),
        hopens.opened, iff_of_true rfl (hiff.mp hok), fun _ ↦ funext hshift⟩
      rw [hcall, dirOpen, malloc_eq, hok]
      rfl
    | false =>
      obtain ⟨s', hclose, hvolume, hquiet⟩ := (h₁.transfer 1).closeRoot List.mem_cons_self
        (hopens.opened p rfl)
      refine ⟨none, s', ?_, ?_, (hopens.quiet.trans (quiet_transfer s₁ 1)).trans hquiet,
        fun p hp ↦ absurd hp (Option.not_mem_none p), iff_of_false Bool.false_ne_true fun hall ↦ ?_,
        fun hsome ↦ absurd hsome Bool.false_ne_true⟩
      · rw [hcall, dirOpen, malloc_eq, hok]
        change (FileSys.inodeClose (s₁.transfer s₁.disk 1) (some p)).map _ = _
        rw [hclose, Option.map_some]
      · change Volume map root s' { b with held := (p :: b.held).erase p } at hvolume
        rwa [List.erase_cons_head] at hvolume
      · exact Bool.false_ne_true (hok.symm.trans (hiff.mpr hall))

/-! ### Entries -/

/-- An entry that has been found names an inode. -/
theorem named_of_found {e : Bytes} (hk : k < root.slots)
    (hname : hasName name (root.entry disk k) = true)
    (hbytes : ∀ i < ENTRY_SIZE, e i = root.slot disk k i) :
    root.entry disk k = some (name, inodeSector e) ∧ Named root disk (inodeSector e) := by
  obtain ⟨x, hentry⟩ := hasName_iff.mp hname
  have hx : inodeSector e = x := by
    rw [(entry_congr hbytes).2.2.1]
    unfold InodeDisk.entry entryOf at hentry
    split_ifs at hentry
    exact (Prod.mk.inj (Option.some.inj hentry)).2
  rw [hx]
  exact ⟨hentry, k, hk, name, hentry⟩

/-- With memory, `lookup` finds a name that an entry has. -/
theorem found_of_named {mallocs : ℕ → Bool} {x j calls : ℕ} {found : Bool}
    (hends : ScanEnds (fun j ↦ hasName name (root.entry disk j)) root.slots mallocs 0 j found calls)
    (hall : ∀ i, mallocs i = true) (hk : k < root.slots) (hentry : root.entry disk k = some (name, x)) :
    found = true := by
  cases found with
  | true => rfl
  | false =>
    have hmiss := (hends.miss hall).2 k (Nat.zero_le k) hk
    exact absurd (hmiss.symm.trans (hasName_iff.mpr ⟨x, hentry⟩)) Bool.false_ne_true

/-- What a call of `dir_lookup` does. -/
structure LooksUp (root : InodeDisk) (s s' : State) (name : List UInt8) (result : Option ℕ) : Prop where
  quiet : Quiet s s'
  survives : ∀ q o, ownerOf s.inodes q = some o → ownerOf s'.inodes q = some o
  named : ∀ q ∈ result, ∃ k < root.slots, ∃ o, root.entry s.disk k = some (name, o.1) ∧
    ownerOf s'.inodes q = some o
  found : (∀ i, s.mallocs i = true) → ∀ k < root.slots, ∀ x, root.entry s.disk k = some (name, x) →
    result.isSome

/-- `dir_lookup` returns a reference to an inode that an entry names, or nothing. -/
theorem Volume.dirLookup (h : Volume map root s b)
    (hp : ownerOf s.inodes p = some (ROOT_DIR_SECTOR, root)) (name : List UInt8) : ∃ result s',
    FileSys.dirLookup s p name = some (result, s') ∧
      Volume map root s' { b with held := result.toList ++ b.held } ∧
      LooksUp root s s' name result := by
  obtain ⟨found, j, calls, hlookup, hends, hslot⟩ := lookup_spec (h.dirInode hp) name
  cases found with
  | none =>
    refine ⟨none, s.transfer s.disk calls, ?_, h.transfer calls, quiet_transfer s calls,
      fun _ _ ↦ id, fun q hq ↦ absurd hq (Option.not_mem_none q),
      fun hall k hk x hentry ↦ found_of_named hends hall hk hentry⟩
    simp only [FileSys.dirLookup, hlookup, Option.bind_eq_bind, Option.bind_some, Option.pure_def]
  | some found =>
    obtain ⟨e, ofs⟩ := found
    obtain ⟨-, hbytes⟩ := hslot e ofs rfl
    obtain ⟨hj, -, hname⟩ := hends.hit rfl
    obtain ⟨hentry, hnamed⟩ := named_of_found hj hname hbytes
    obtain ⟨result, s', hopen, hvolume, hopens⟩ :=
      (h.transfer calls).inodeOpen (h.entryOwner hnamed)
    refine ⟨result, s', ?_, hvolume, (quiet_transfer s calls).trans hopens.quiet, hopens.survives,
      fun q hq ↦ ⟨j, hj, _, hentry, hopens.opened q hq⟩, fun hall _ _ _ _ ↦ ?_⟩
    swap
    · rw [hopens.succeeds, (evolves_transfer s s.disk calls).memory hall, Bool.or_true]
    simp only [FileSys.dirLookup, hlookup, Option.bind_eq_bind, Option.bind_some]
    exact hopen

/-- An entry is written: it is free, or names an owner that no entry names. -/
theorem Volume.writeEntry (h : Volume map root s b) {c : ℕ} {e : Option (List UInt8 × ℕ)}
    (hwrites : WritesTo root s.disk disk)
    (hentries : ∀ j < root.slots, root.entry disk j = if j = k then e else root.entry s.disk j)
    (hentry : ∀ name x, e = some (name, x) → ROOT_DIR_SECTOR < x ∧ (∃ d, (x, d) ∈ b.owners) ∧
      ¬Named root s.disk x ∧ ∀ p o, ownerOf s.inodes p = some o → o.1 ≠ x) :
    Volume map root (s.transfer disk c) b := by
  have hsame : ∀ o ∈ b.owners, SameSector s.disk disk o.1 := fun o ho ↦
    h.sectors.sameSector h.rootOwner hwrites ho
  have hnamed : ∀ x, Named root disk x → (∃ name, e = some (name, x)) ∨ Named root s.disk x := by
    rintro x ⟨j, hj, name, hjx⟩
    rw [hentries j hj] at hjx
    split_ifs at hjx
    · exact Or.inl ⟨name, hjx⟩
    · exact Or.inr ⟨j, hj, name, hjx⟩
  have hsectors : Sectors (s.transfer disk c) b.bits b.extra b.owners :=
    h.sectors.step (s.transfer disk c) rfl h.sectors.bits hsame
      (fun x hx ↦ (h.sectors.ledger.usable x hx).2)
      (h.sectors.durable_of h.mapOwner (h.sectors.sameBits h.mapOwner fun y hy ↦
        h.sectors.sameData h.rootOwner h.mapOwner (fun heq ↦ absurd (Prod.mk.inj heq).1 (by decide))
          hwrites hy))
  refine ⟨hsectors, ?_, h.mapSize, h.whole, h.counted, h.writable, h.listed, h.nodup, h.single, ?_, ?_, ?_,
    h.mapFile, h.users⟩
  · rintro o (rfl | rfl | ⟨q, hq⟩ | ⟨hx, hdata⟩)
    · exact h.mapOwner
    · exact h.rootOwner
    · exact h.owned hq
    · obtain ⟨d, hd⟩ : ∃ d, (o.1, d) ∈ b.owners := by
        rcases hnamed o.1 hx with ⟨name, heq⟩ | hx
        · exact (hentry name o.1 heq).2.1
        · exact ⟨_, h.entryOwner hx⟩
      obtain rfl : d = o.2 := (hsectors.stored _ hd).symm.trans hdata.symm
      exact hd
  · intro x hx
    rcases hnamed x hx with ⟨name, heq⟩ | hx
    · exact (hentry name x heq).1
    · exact h.named x hx
  · intro i hi j hj name name' x hix hjx
    change root.entry disk i = _ at hix
    change root.entry disk j = _ at hjx
    rw [hentries i hi] at hix
    rw [hentries j hj] at hjx
    split_ifs at hix hjx with hik hjk hjk
    · rw [hik, hjk]
    · exact absurd ⟨j, hj, name', hjx⟩ (hentry name x hix).2.2.1
    · exact absurd ⟨i, hi, name, hix⟩ (hentry name' x hjx).2.2.1
    · exact h.distinct i hi j hj name name' x hix hjx
  · intro q inode hq hremoved
    refine ⟨(h.removed q inode hq hremoved).1, fun hx ↦ ?_⟩
    rcases hnamed _ hx with ⟨name, heq⟩ | hx
    · exact (hentry name _ heq).2.2.2 q _ (ownerOf_eq hq) rfl
    · exact (h.removed q inode hq hremoved).2 hx

/-- Writing an entry changes the directory only. -/
theorem writesTo_entry (disk e : Bytes) (hk : k < root.slots) :
    WritesTo root disk (disk.copy (root.addr (k * ENTRY_SIZE)) e 0 ENTRY_SIZE) := by
  have hroom := slot_room hk
  exact writesTo_copy _ _ _ (by omega)

/-- The same files and references. -/
structure Books.Same (b b' : Books) : Prop where
  cells : b'.cells = b.cells
  files : b'.files = b.files
  held : b'.held = b.held

theorem ownerOf_put_removed {inodes : Store Inode} (hp : inodes p = some inode) :
    ownerOf (inodes.put p { inode with removed := true }) = ownerOf inodes :=
  ownerOf_same hp rfl rfl

theorem evolves_removed (hp : s.inodes p = some inode) (disk : Bytes) :
    Evolves s ((s.transfer disk 1).withInode p { inode with removed := true }) :=
  evolves_of_eq rfl (ownerOf_put_removed hp) rfl rfl ⟨1, fun _ ↦ rfl⟩

/-- What a call of `dir_remove` or `filesys_remove` does. -/
structure RemovesName (root : InodeDisk) (s s' : State) (b b' : Books) (name : List UInt8) (ok : Bool) :
    Prop where
  same : b.Same b'
  evolves : Evolves s s'
  files : s'.files = s.files
  users : KeepsUsers b.owners s.disk s'.disk
  inodes : ∀ o ∈ b.owners, diskInode s'.disk o.1 = o.2
  fails : ok = false → SameEntries root s.disk s'.disk
  removes : ok = true → ∃ k < root.slots, ∃ x, root.entry s.disk k = some (name, x) ∧
    ∀ j < root.slots, root.entry s'.disk j = if j = k then none else root.entry s.disk j
  found : (∀ i, s.mallocs i = true) → ∀ k < root.slots, ∀ x, root.entry s.disk k = some (name, x) →
    ok = true

/-- `dir_remove` clears the entry that it has found and marks its inode as removed, or changes nothing. -/
theorem Volume.dirRemove (h : Volume map root s b)
    (hp : ownerOf s.inodes p = some (ROOT_DIR_SECTOR, root)) (name : List UInt8) : ∃ ok s' b',
    FileSys.dirRemove s p name = some (ok, s') ∧ Volume map root s' b' ∧
      RemovesName root s s' b b' name ok ∧ ownerOf s'.inodes p = some (ROOT_DIR_SECTOR, root) := by
  obtain ⟨found, k, calls, hlookup, hends, hslot⟩ := lookup_spec (h.dirInode hp) name
  have hevolves := evolves_transfer s s.disk calls
  cases found with
  | none =>
    refine ⟨false, s.transfer s.disk calls, b, ?_, h.transfer calls, ⟨⟨rfl, rfl, rfl⟩, hevolves, rfl,
      keepsUsers_refl _ _, h.sectors.stored, fun _ ↦ sameEntries_refl _ _, fun hok ↦ absurd hok Bool.false_ne_true,
      fun hall k hk x hentry ↦ found_of_named hends hall hk hentry⟩, hp⟩
    simp only [FileSys.dirRemove, hlookup, Option.bind_eq_bind, Option.bind_some, Option.pure_def]
  | some found =>
    obtain ⟨e, ofs⟩ := found
    obtain ⟨rfl, hbytes⟩ := hslot e ofs rfl
    obtain ⟨hk, -, hname⟩ := hends.hit rfl
    obtain ⟨hentry, hnamed⟩ := named_of_found hk hname hbytes
    obtain ⟨result, s₂, hopen, h₂, hopens⟩ := (h.transfer calls).inodeOpen (h.entryOwner hnamed)
    replace hopen : FileSys.inodeOpen (s.transfer s.disk calls) (inodeSector e) = some (result, s₂) :=
      hopen
    have hevolves₂ := hevolves.trans hopens.quiet.evolves
    have hp₂ := hopens.survives p _ hp
    have hdisk : s₂.disk = s.disk := hopens.quiet.disk
    have hfiles : s₂.files = s.files := hopens.quiet.files
    have hsame₂ : SameEntries root s.disk s₂.disk := hdisk ▸ sameEntries_refl root s.disk
    have husers₂ : KeepsUsers b.owners s.disk s₂.disk := hdisk ▸ keepsUsers_refl b.owners s.disk
    cases result with
    | none =>
      refine ⟨false, s₂, _, ?_, h₂, ⟨⟨rfl, rfl, rfl⟩, hevolves₂, hfiles, husers₂, h₂.sectors.stored,
        fun _ ↦ hsame₂,
        fun hok ↦ absurd hok Bool.false_ne_true, fun hall _ _ _ _ ↦ ?_⟩, hp₂⟩
      · simp only [FileSys.dirRemove, hlookup, hopen, Option.bind_eq_bind, Option.bind_some,
          Option.pure_def]
      · have hsome := hopens.succeeds
        rwa [hevolves.memory hall, Bool.or_true] at hsome
    | some q =>
      have hq := hopens.opened q rfl
      have hqp : p ≠ q := by
        rintro rfl
        have hsector := (Prod.mk.inj (Option.some.inj (hp₂.symm.trans hq))).1
        exact absurd (h.named _ hnamed) (by rw [← hsector]; exact Nat.lt_irrefl _)
      obtain ⟨inode, hinode, heq⟩ := exists_of_ownerOf hq
      obtain ⟨rootInode, hrootInode, hroot⟩ := exists_of_ownerOf hp₂
      obtain ⟨-, hdata⟩ := Prod.mk.inj hroot
      have hwrite := inodeWriteAt_part hrootInode (h₂.denyWriteCnt hrootInode)
        (hdata ▸ (h₂.dirInode hp₂).fits) (show 0 < ENTRY_SIZE by decide)
        (show ENTRY_SIZE < DISK_SECTOR_SIZE by decide) (hdata ▸ slot_room hk) (Function.update e 19 0)
      rw [hdata] at hwrite
      cases hok : s₂.mallocs 0 with
      | false =>
        rw [hok, if_neg Bool.false_ne_true] at hwrite
        obtain ⟨s₃, b₃, hclose, h₃, hcloses⟩ := (h₂.transfer 1).inodeClose List.mem_cons_self hinode
        have hwrites : WritesTo map s₂.disk s₃.disk := hcloses.writes
        refine ⟨false, s₃, b₃, ?_, h₃, ⟨⟨hcloses.cells, hcloses.opened, ?_⟩,
          (hevolves₂.trans (evolves_transfer ..)).trans hcloses.evolves, hcloses.files.trans hfiles,
          husers₂.trans (h₂.sectors.keepsUsers h₂.mapOwner (Nat.zero_le _) hwrites),
          fun o ho ↦ (h₂.sectors.sameSector h₂.mapOwner hwrites ho).diskInode.trans (h₂.sectors.stored o ho),
          fun _ k hk ↦ (h₂.mapEntries hwrites k hk).trans (hsame₂ k hk),
          fun hok ↦ absurd hok Bool.false_ne_true, fun hall _ _ _ _ ↦ ?_⟩,
          hcloses.survives p _ hp₂ fun heq ↦ absurd heq hqp⟩
        · simp only [FileSys.dirRemove, hlookup, hopen, hwrite, hclose, Option.bind_eq_bind,
            Option.bind_some, Option.pure_def]
          rfl
        · rw [hcloses.held]
          exact List.erase_cons_head ..
        · exact hok.symm.trans (hevolves₂.memory hall 0)
      | true =>
        rw [hok, if_pos rfl] at hwrite
        set disk := s₂.disk.copy (root.addr (k * ENTRY_SIZE)) (Function.update e 19 0) 0 ENTRY_SIZE
          with hdisk'
        have hentries : ∀ j < root.slots, root.entry disk j =
            if j = k then none else root.entry s₂.disk j := fun j _ ↦ by
          rw [hdisk', entry_write, entryOf_clear]
        have hwritten : WritesTo root s₂.disk disk := writesTo_entry _ _ hk
        have h₃ := h₂.writeEntry (c := 1) hwritten hentries
          fun name x heq ↦ absurd heq.symm (Option.some_ne_none _)
        have hunnamed : ¬Named root disk (inodeSector e) := by
          rintro ⟨j, hj, name', hjx⟩
          rw [hentries j hj, hdisk] at hjx
          split_ifs at hjx with hjk
          exact hjk (h.distinct j hj k hk name' name _ hjx hentry)
        have hsector : inode.sector = inodeSector e := (Prod.mk.inj heq).1
        have hunmarked : unremoved (s₂.inodes.put q { inode with removed := true }) =
            unremoved s₂.inodes := by
          have hmark : unremoved s₂.inodes q = some { inode with removed := false } :=
            unremoved_eq hinode
          rw [unremoved_put]
          exact Store.put_eq_self hmark
        have h₄ : Volume map root ((s₂.transfer disk 1).withInode q { inode with removed := true })
            { b with held := q :: b.held } := h₃.withInode hinode rfl rfl (by
            change Counted (unremoved (s₂.inodes.put q { inode with removed := true })) _ _ _ _
            rw [hunmarked]
            exact h₂.counted) fun _ ↦ by
              rw [hsector]
              exact ⟨h.named _ hnamed, hunnamed⟩
        obtain ⟨s₅, b₅, hclose, h₅, hcloses⟩ := h₄.inodeClose List.mem_cons_self (Store.put_self ..)
        replace hclose : FileSys.inodeClose ((s₂.transfer disk 1).withInode q
            { inode with removed := true }) (some q) = some s₅ := hclose
        have hwrites : WritesTo map disk s₅.disk := hcloses.writes
        have hremove : inodeRemove (s₂.transfer disk 1) q =
            some ((s₂.transfer disk 1).withInode q { inode with removed := true }) := by
          simp only [inodeRemove, State.transfer, hinode, Option.bind_eq_bind, Option.bind_some,
            Option.pure_def]
          rfl
        have hsame : ownerOf ((s₂.transfer disk 1).withInode q { inode with removed := true }).inodes =
            ownerOf s₂.inodes := ownerOf_same hinode rfl rfl
        refine ⟨true, s₅, b₅, ?_, h₅, ⟨⟨hcloses.cells, hcloses.opened, ?_⟩,
          (hevolves₂.trans (evolves_removed hinode disk)).trans hcloses.evolves,
          hcloses.files.trans hfiles, ?_, fun o ho ↦ ?_, fun hok ↦ absurd hok.symm Bool.false_ne_true,
          fun _ ↦ ⟨k, hk, _, hentry, fun j hj ↦ ?_⟩, fun _ _ _ _ _ ↦ rfl⟩,
          hcloses.survives p _ ?_ fun heq ↦ absurd heq hqp⟩
        · simp only [FileSys.dirRemove, hlookup, hopen, hwrite, hremove, hclose, Option.bind_eq_bind,
            Option.bind_some, Option.pure_def, if_true]
        · rw [hcloses.held]
          exact List.erase_cons_head ..
        · exact (husers₂.trans (h₂.sectors.keepsUsers h₂.rootOwner (Nat.le_refl _) hwritten)).trans
            (h₃.sectors.keepsUsers h₃.mapOwner (Nat.zero_le _) hwrites)
        · exact (h₃.sectors.sameSector h₃.mapOwner hwrites ho).diskInode.trans (h₃.sectors.stored o ho)
        · refine (h₃.mapEntries hwrites j hj).trans ((hentries j hj).trans ?_)
          rw [hdisk]
        · rw [hsame]
          exact hp₂

end Jungle.FileSys
