import Jungle.FileSys.Entries

/-!
# Looking up and adding names

What `lookup` and `dir_add` do to the entries of a directory, for any calls of `malloc` that fail. Both loops
of `dir_add` take a read that fails for the end of the directory, so that the entry may be written although
the name is there, or over one that is in use.
-/

set_option autoImplicit false
set_option relaxedAutoImplicit false

namespace Jungle.FileSys

open Jungle.Lib

/-- The inode of a directory, whose entries are whole. -/
structure DirInode (s : State) (p : ℕ) (data : InodeDisk) : Prop where
  inode : ∃ inode, s.inodes p = some inode ∧ inode.data = data ∧ inode.denyWriteCnt = 0
  fits : data.Fits s
  whole : data.length.toNat % ENTRY_SIZE = 0

/-- The entry has the name. -/
def hasName (name : List UInt8) (entry : Option (List UInt8 × ℕ)) : Bool :=
  entry.any fun e ↦ name == e.1

variable {s : State} {data : InodeDisk} {p : ℕ} {name : List UInt8} {disk : Bytes}

theorem DirInode.transfer (h : DirInode s p data) (disk : Bytes) (calls : ℕ) :
    DirInode (s.transfer disk calls) p data :=
  ⟨h.inode, h.fits.transfer disk calls, h.whole⟩

theorem DirInode.rounds_eq (h : DirInode s p data) : rounds s p = data.slots + 1 := by
  obtain ⟨inode, hinode, rfl, -⟩ := h.inode
  rw [rounds, hinode]
  rfl

theorem hasName_entryOf (name : List UInt8) (e : Bytes) :
    (inUse e && name == entryName e) = hasName name (entryOf e) := by
  unfold hasName entryOf
  cases inUse e <;> rfl

theorem isNone_entryOf (e : Bytes) : (!inUse e) = (entryOf e).isNone := by
  unfold entryOf
  cases inUse e <;> rfl

theorem hasName_iff {entry : Option (List UInt8 × ℕ)} :
    hasName name entry = true ↔ ∃ sector, entry = some (name, sector) := by
  cases entry with
  | none => simp [hasName]
  | some e =>
    obtain ⟨name', sector⟩ := e
    rw [hasName, Option.any_some, beq_iff_eq]
    refine ⟨fun h ↦ ⟨sector, by rw [h]⟩, fun ⟨_, h⟩ ↦ ?_⟩
    exact (Prod.mk.inj (Option.some.inj h)).1.symm

/-- `lookup` finds an entry with the name, if it comes to one. -/
theorem lookup_spec (h : DirInode s p data) (name : List UInt8) :
    ∃ result j calls, lookup s p name = some (result, s.transfer s.disk calls) ∧
      ScanEnds (fun j ↦ hasName name (data.entry s.disk j)) data.slots s.mallocs 0 j result.isSome
        calls ∧
      ∀ e ofs, result = some (e, ofs) → ofs = j * ENTRY_SIZE ∧
        ∀ i < ENTRY_SIZE, e i = data.slot s.disk j i := by
  obtain ⟨inode, hinode, rfl, -⟩ := h.inode
  have hstop : ∀ e e' : Bytes, (∀ i < ENTRY_SIZE, e i = e' i) →
      (inUse e && name == entryName e) = (inUse e' && name == entryName e') := fun e e' hsame ↦ by
    rw [(entry_congr hsame).1, (entry_congr hsame).2.1]
  obtain ⟨found, e', j, calls, hscan, hends, hslot⟩ := scan_spec hstop hinode h.fits h.whole
    (Nat.zero_le _) (by omega : inode.data.slots < 0 + (inode.data.slots + 1)) fun _ ↦ 0
  simp only [hasName_entryOf, Nat.zero_mul] at hscan hends
  refine ⟨if found then some (e', j * ENTRY_SIZE) else none, j, calls, ?_, ?_, fun e ofs heq ↦ ?_⟩
  · simp only [lookup, h.rounds_eq, hasName_entryOf, hscan, Option.bind_eq_bind, Option.bind_some,
      Option.pure_def]
  · have hsome : (if found then some (e', j * ENTRY_SIZE) else none).isSome = found := by
      cases found <;> rfl
    rw [hsome]
    exact hends
  · cases found with
    | false => exact absurd heq.symm (Option.some_ne_none _)
    | true =>
      obtain ⟨rfl, rfl⟩ := Prod.mk.inj (Option.some.inj heq)
      exact ⟨rfl, hslot rfl⟩

/-- Where the entry goes that `dir_add` writes: the name has not been found, and the second loop has ended
before the end of the directory. -/
structure Places (data : InodeDisk) (s : State) (name : List UInt8) (k calls : ℕ) : Prop where
  searched : ∃ j c, ScanEnds (fun j ↦ hasName name (data.entry s.disk j)) data.slots s.mallocs 0 j
    false c ∧ ∃ found c', ScanEnds (fun j ↦ (data.entry s.disk j).isNone) data.slots
      (fun i ↦ s.mallocs (i + c)) 0 k found c' ∧ calls = c + c'
  lt : k < data.slots
  malloc : s.mallocs calls = true

/-- There is one place for the entry. -/
theorem Places.unique {k k' calls calls' : ℕ} (h : Places data s name k calls)
    (h' : Places data s name k' calls') : k = k' ∧ calls = calls' := by
  obtain ⟨j, c, hends, found, c₁, hends₁, rfl⟩ := h.searched
  obtain ⟨j', c', hends', found', c₁', hends₁', rfl⟩ := h'.searched
  obtain rfl := (hends.unique hends').2.2
  obtain ⟨rfl, -, rfl⟩ := hends₁.unique hends₁'
  exact ⟨rfl, rfl⟩

/-- `dir_add` writes one entry and returns true, or changes nothing and returns false. -/
theorem dirAdd_spec (h : DirInode s p data) (name : List UInt8) (sector : ℕ) :
    (∃ calls, dirAdd s p name sector = some (false, s.transfer s.disk calls) ∧
        (IsName name → ∀ k calls, ¬Places data s name k calls)) ∨
      ∃ k calls e, IsName name ∧ Places data s name k calls ∧ dirAdd s p name sector =
        some (true, s.transfer (s.disk.copy (data.addr (k * ENTRY_SIZE)) (fillEntry e name sector) 0
          ENTRY_SIZE) (calls + 1)) := by
  by_cases hname : IsName name
  · have hvalid : ¬(name = [] ∨ NAME_MAX < name.length) := by
      rintro (hnil | hlong)
      · exact hname.1 hnil
      · exact absurd hname.2 (Nat.not_le_of_lt hlong)
    obtain ⟨result, j, c, hlookup, hends, -⟩ := lookup_spec h name
    cases result with
    | some found =>
      refine Or.inl ⟨c, ?_, fun _ k calls hplaces ↦ ?_⟩
      · simp only [dirAdd, if_neg hvalid, hlookup, Option.bind_eq_bind, Option.bind_some,
          Option.pure_def]
      · obtain ⟨j', c', hends', -⟩ := hplaces.searched
        exact absurd (hends.unique hends').2.1 (by simp)
    | none =>
      obtain ⟨inode, hinode, rfl, hdeny⟩ := h.inode
      have hstop : ∀ e e' : Bytes, (∀ i < ENTRY_SIZE, e i = e' i) → (!inUse e) = (!inUse e') :=
        fun e e' hsame ↦ by rw [(entry_congr hsame).1]
      obtain ⟨found, e, k, c', hscan, hends', -⟩ := scan_spec (s := s.transfer s.disk c) hstop hinode
        (h.fits.transfer s.disk c) h.whole (Nat.zero_le _)
        (by omega : inode.data.slots < 0 + (inode.data.slots + 1)) fun _ ↦ 0
      rw [Nat.zero_mul, transfer_transfer] at hscan
      simp only [isNone_entryOf] at hscan hends'
      have hunique : ∀ k' calls, Places inode.data s name k' calls → k' = k ∧ calls = c + c' := by
        rintro k' _ ⟨⟨j', c₁, hends₁, found₁, c₂, hends₂, rfl⟩, -, -⟩
        obtain rfl := (hends.unique hends₁).2.2
        obtain ⟨rfl, -, rfl⟩ := hends'.unique hends₂
        exact ⟨rfl, rfl⟩
      have hadd : dirAdd s p name sector =
          (inodeWriteAt (s.transfer s.disk (c + c')) p (fillEntry e name sector) ENTRY_SIZE
            (k * ENTRY_SIZE)).bind fun r ↦ some (decide (r.1 = ENTRY_SIZE), r.2) := by
        have hrounds := (h.transfer s.disk c).rounds_eq
        simp only [dirAdd, if_neg hvalid, hlookup, hrounds, isNone_entryOf, hscan,
          Option.bind_eq_bind, Option.bind_some, Option.pure_def]
        rfl
      rcases Nat.lt_or_ge k inode.data.slots with hlt | hge
      · have hwrite := inodeWriteAt_part (s := s.transfer s.disk (c + c')) hinode hdeny
          (h.fits.transfer _ _) (show 0 < ENTRY_SIZE by decide)
          (show ENTRY_SIZE < DISK_SECTOR_SIZE by decide) (slot_room hlt) (fillEntry e name sector)
        have hcalls : (s.transfer s.disk (c + c')).mallocs 0 = s.mallocs (c + c') :=
          congrArg s.mallocs (Nat.zero_add _)
        rw [hcalls, transfer_transfer, transfer_transfer] at hwrite
        cases hmalloc : s.mallocs (c + c') with
        | true =>
          refine Or.inr ⟨k, c + c', e, hname, ⟨⟨j, c, hends, found, c', hends', rfl⟩, hlt, hmalloc⟩, ?_⟩
          rw [hadd, hwrite, hmalloc, if_pos rfl, Option.bind_some]
          rfl
        | false =>
          refine Or.inl ⟨c + c' + 1, ?_, fun _ k' calls hplaces ↦ ?_⟩
          · rw [hadd, hwrite, hmalloc, if_neg Bool.false_ne_true, Option.bind_some]
            rfl
          · obtain ⟨rfl, rfl⟩ := hunique k' calls hplaces
            exact Bool.false_ne_true (hmalloc.symm.trans hplaces.malloc)
      · refine Or.inl ⟨c + c', ?_, fun _ k' calls hplaces ↦ ?_⟩
        · have hend : inode.data.length.toNat ≤ k * ENTRY_SIZE := by
            have hwhole := h.whole
            unfold InodeDisk.slots ENTRY_SIZE at *
            omega
          rw [hadd, inodeWriteAt_end (s := s.transfer s.disk (c + c')) hinode hend, Option.bind_some]
          rfl
        · obtain ⟨rfl, -⟩ := hunique k' calls hplaces
          exact absurd hplaces.lt (Nat.not_lt_of_ge hge)
  · have hvalid : name = [] ∨ NAME_MAX < name.length := by
      by_contra hvalid
      exact hname ⟨fun hnil ↦ hvalid (Or.inl hnil), Nat.le_of_not_lt fun hlong ↦ hvalid (Or.inr hlong)⟩
    refine Or.inl ⟨0, ?_, fun h ↦ absurd h hname⟩
    rw [dirAdd, if_pos hvalid, transfer_self]

end Jungle.FileSys
