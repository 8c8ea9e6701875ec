import Jungle.Bitmap.Basic
import Mathlib.Data.Nat.Find
import Mathlib.Tactic.Ring.RingNF

/-!
# The bits of a bitmap

`IsBitmap mem b n f` says that the bitmap at `b` has the `n` bits `f`. Each function is specified by
what it does to the bits, and writes only to the elements of the bitmap.
-/

set_option autoImplicit false
set_option relaxedAutoImplicit false

namespace Jungle.Bitmap

open Jungle.Lib

variable {mem mem' : Memory} {b n idx start cnt : ℕ} {f : ℕ → Bool} {value : Bool}

/-- The bits of a bitmap in memory. -/
structure IsBitmap (mem : Memory) (b n : ℕ) (f : ℕ → Bool) : Prop where
  size : bitmapSize mem b = n
  apart : ∀ i < n, elemAddr mem b i ≠ b ∧ elemAddr mem b i ≠ b + 8
  bit : ∀ i < n, (mem (elemAddr mem b i)).getLsbD (i % ELEM_BITS) = f i

/-- The words of a bitmap. -/
def Owns (mem : Memory) (b n a : ℕ) : Prop := a = b ∨ a = b + 8 ∨ ∃ i < n, a = elemAddr mem b i

/-- Memory that agrees on the words of a bitmap holds it, too. -/
theorem IsBitmap.frame (h : IsBitmap mem b n f) (hsame : ∀ a, Owns mem b n a → mem' a = mem a) :
    IsBitmap mem' b n f ∧ ∀ a, Owns mem' b n a ↔ Owns mem b n a := by
  have hptr : ∀ i, elemAddr mem' b i = elemAddr mem b i := by
    intro i
    rw [elemAddr, elemAddr, hsame (b + 8) (Or.inr (Or.inl rfl))]
  refine ⟨⟨?_, fun i hi ↦ ?_, fun i hi ↦ ?_⟩, fun a ↦ ?_⟩
  · rw [bitmapSize, hsame b (Or.inl rfl)]
    exact h.size
  · rw [hptr]
    exact h.apart i hi
  · rw [hptr, hsame _ (Or.inr (Or.inr ⟨i, hi, rfl⟩))]
    exact h.bit i hi
  · simp only [Owns, hptr]

/-- The same bits. -/
theorem IsBitmap.congr {g : ℕ → Bool} (h : IsBitmap mem b n f) (hfg : ∀ i < n, g i = f i) :
    IsBitmap mem b n g :=
  ⟨h.size, h.apart, fun i hi ↦ (h.bit i hi).trans (hfg i hi).symm⟩

theorem bitMask_eq (i : ℕ) : bitMask i = BitVec.twoPow 64 (i % ELEM_BITS) := rfl

theorem elem_lt (i : ℕ) : i % ELEM_BITS < 64 := Nat.mod_lt i (by decide)

/-- Two bits are in different elements or in different places. -/
theorem bit_ne {i j : ℕ} (hne : i ≠ j) (helem : elemAddr mem b i = elemAddr mem b j) :
    i % ELEM_BITS ≠ j % ELEM_BITS := by
  simp only [elemAddr, elemIdx, ELEM_BITS] at helem ⊢
  omega

theorem elemAddr_write (mem : Memory) {a : ℕ} (h : b + 8 ≠ a) (w : BitVec 64) (i : ℕ) :
    elemAddr (mem.write a w) b i = elemAddr mem b i := by
  unfold elemAddr
  rw [Memory.write_of_ne mem h]

/-- Writing an element in which the bit has the value and the other bits are as they were. -/
theorem IsBitmap.write (h : IsBitmap mem b n f) (hidx : idx < n) {w : BitVec 64}
    (hbit : w.getLsbD (idx % ELEM_BITS) = value)
    (hother : ∀ k < 64, k ≠ idx % ELEM_BITS →
      w.getLsbD k = (mem (elemAddr mem b idx)).getLsbD k) :
    IsBitmap (mem.write (elemAddr mem b idx) w) b n (Function.update f idx value) := by
  obtain ⟨hb, hb8⟩ := h.apart idx hidx
  have hptr := elemAddr_write mem hb8.symm w
  refine ⟨?_, fun i hi ↦ ?_, fun i hi ↦ ?_⟩
  · rw [bitmapSize, Memory.write_of_ne _ hb.symm]
    exact h.size
  · rw [hptr]
    exact h.apart i hi
  · rw [hptr]
    by_cases hi' : i = idx
    · subst hi'
      rw [Memory.write_self, hbit, Function.update_self]
    · rw [Function.update_of_ne hi', ← h.bit i hi]
      by_cases helem : elemAddr mem b i = elemAddr mem b idx
      · rw [helem, Memory.write_self, hother _ (elem_lt i) (bit_ne hi' helem)]
      · rw [Memory.write_of_ne _ helem]

/-- The memory after bits have been set: nothing but elements of the bitmap has changed. -/
structure Sets (mem mem' : Memory) (b n : ℕ) (f : ℕ → Bool) : Prop where
  isBitmap : IsBitmap mem' b n f
  owns : ∀ a, Owns mem' b n a ↔ Owns mem b n a
  same : ∀ a, ¬Owns mem b n a → mem' a = mem a

theorem IsBitmap.sets (h : IsBitmap mem b n f) : Sets mem mem b n f :=
  ⟨h, fun _ ↦ Iff.rfl, fun _ _ ↦ rfl⟩

theorem Sets.trans {mem'' : Memory} {g : ℕ → Bool} (h : Sets mem mem' b n f)
    (h' : Sets mem' mem'' b n g) : Sets mem mem'' b n g where
  isBitmap := h'.isBitmap
  owns a := (h'.owns a).trans (h.owns a)
  same a ha := (h'.same a fun ha' ↦ ha ((h.owns a).mp ha')).trans (h.same a ha)

theorem IsBitmap.write_sets (h : IsBitmap mem b n f) (hidx : idx < n) {w : BitVec 64}
    (hbit : w.getLsbD (idx % ELEM_BITS) = value)
    (hother : ∀ k < 64, k ≠ idx % ELEM_BITS →
      w.getLsbD k = (mem (elemAddr mem b idx)).getLsbD k) :
    Sets mem (mem.write (elemAddr mem b idx) w) b n (Function.update f idx value) := by
  refine ⟨h.write hidx hbit hother, fun a ↦ ?_, fun a ha ↦ Memory.write_of_ne _ ?_ _⟩
  · simp only [Owns, elemAddr_write _ (h.apart idx hidx).2.symm w]
  · rintro rfl
    exact ha (Or.inr (Or.inr ⟨idx, hidx, rfl⟩))

/-- `bitmap_set` sets its bit. -/
theorem bitmapSet_spec (h : IsBitmap mem b n f) (hidx : idx < n) (value : Bool) :
    ∃ mem', bitmapSet mem b idx value = some mem' ∧
      Sets mem mem' b n (Function.update f idx value) := by
  rw [bitmapSet, h.size, if_pos hidx]
  cases value with
  | true =>
    refine ⟨_, rfl, h.write_sets hidx ?_ fun k hk hne ↦ ?_⟩
    · rw [bitMask_eq, BitVec.getLsbD_or, BitVec.getLsbD_twoPow]
      simp [elem_lt]
    · rw [bitMask_eq, BitVec.getLsbD_or, BitVec.getLsbD_twoPow]
      simp [hne.symm]
  | false =>
    refine ⟨_, rfl, h.write_sets hidx ?_ fun k hk hne ↦ ?_⟩
    · rw [bitMask_eq, BitVec.getLsbD_and, BitVec.getLsbD_not, BitVec.getLsbD_twoPow]
      simp [elem_lt]
    · rw [bitMask_eq, BitVec.getLsbD_and, BitVec.getLsbD_not, BitVec.getLsbD_twoPow]
      simp [hne.symm, hk]

/-- `bitmap_test` reads its bit. -/
theorem bitmapTest_eq (h : IsBitmap mem b n f) (hidx : idx < n) :
    bitmapTest mem b idx = some (f idx) := by
  rw [bitmapTest, h.size, if_pos hidx, ← h.bit idx hidx, bitMask_eq, BitVec.and_twoPow]
  have hne : BitVec.twoPow 64 (idx % ELEM_BITS) ≠ 0#64 := by
    intro heq
    have hbit := congrArg (fun w ↦ w.getLsbD (idx % ELEM_BITS)) heq
    simp [elem_lt] at hbit
  cases (mem (elemAddr mem b idx)).getLsbD (idx % ELEM_BITS) <;> simp [hne]

/-! ### Several bits -/

/-- The bits with those of a range set. -/
def setRange (f : ℕ → Bool) (start cnt : ℕ) (value : Bool) (i : ℕ) : Bool :=
  if start ≤ i ∧ i < start + cnt then value else f i

theorem setLoop_spec (h : IsBitmap mem b n f) (hcnt : start + cnt ≤ n) :
    ∃ mem', setLoop b value start cnt mem = some mem' ∧
      Sets mem mem' b n (setRange f start cnt value) := by
  induction cnt generalizing mem f start with
  | zero =>
    have hsame : ∀ i < n, setRange f start 0 value i = f i := fun i _ ↦ if_neg (by omega)
    exact ⟨mem, rfl, (h.congr hsame).sets⟩
  | succ cnt ih =>
    obtain ⟨mem₁, hset, hsets⟩ := bitmapSet_spec h (by omega : start < n) value
    obtain ⟨mem', hrest, hsets'⟩ := ih hsets.isBitmap (by omega : start + 1 + cnt ≤ n)
    refine ⟨mem', ?_, hsets.trans ⟨hsets'.isBitmap.congr fun i _ ↦ ?_, hsets'.owns, hsets'.same⟩⟩
    · simp only [setLoop, hset, hrest, Option.bind_eq_bind, Option.bind_some]
    · simp only [setRange, Function.update_apply]
      split_ifs <;> first | rfl | omega

/-- `bitmap_set_multiple` sets the bits of its range. -/
theorem bitmapSetMultiple_spec (h : IsBitmap mem b n f) (hcnt : start + cnt ≤ n) (value : Bool) :
    ∃ mem', bitmapSetMultiple mem b start cnt value = some mem' ∧
      Sets mem mem' b n (setRange f start cnt value) := by
  have hn : n < 2 ^ 64 := h.size ▸ (mem b).isLt
  rw [bitmapSetMultiple, h.size, Nat.mod_eq_of_lt (by omega), if_pos ⟨by omega, hcnt⟩]
  exact setLoop_spec h hcnt

theorem containsLoop_spec (h : IsBitmap mem b n f) (hcnt : start + cnt ≤ n) :
    ∃ result, containsLoop mem b value start cnt = some result ∧
      (result = true ↔ ∃ i, start ≤ i ∧ i < start + cnt ∧ f i = value) := by
  induction cnt generalizing start with
  | zero =>
    refine ⟨false, rfl, iff_of_false (by decide) ?_⟩
    rintro ⟨i, hle, hlt, -⟩
    omega
  | succ cnt ih =>
    simp only [containsLoop, bitmapTest_eq h (by omega : start < n), Option.bind_eq_bind,
      Option.bind_some]
    by_cases hvalue : f start = value
    · rw [if_pos hvalue]
      exact ⟨true, rfl, iff_of_true rfl ⟨start, Nat.le_refl _, by omega, hvalue⟩⟩
    · rw [if_neg hvalue]
      obtain ⟨result, hrest, hresult⟩ := ih (by omega : start + 1 + cnt ≤ n)
      refine ⟨result, hrest, hresult.trans ⟨?_, ?_⟩⟩
      · rintro ⟨i, hle, hlt, hi⟩
        exact ⟨i, by omega, by omega, hi⟩
      · rintro ⟨i, hle, hlt, hi⟩
        have hne : i ≠ start := by
          rintro rfl
          exact hvalue hi
        exact ⟨i, by omega, by omega, hi⟩

/-- `bitmap_contains` looks for the value in its range. -/
theorem bitmapContains_spec (h : IsBitmap mem b n f) (hcnt : start + cnt ≤ n) (value : Bool) :
    ∃ result, bitmapContains mem b start cnt value = some result ∧
      (result = true ↔ ∃ i, start ≤ i ∧ i < start + cnt ∧ f i = value) := by
  have hn : n < 2 ^ 64 := h.size ▸ (mem b).isLt
  rw [bitmapContains, h.size, Nat.mod_eq_of_lt (by omega), if_pos ⟨by omega, hcnt⟩]
  exact containsLoop_spec h hcnt

/-- A run of bits with the value. -/
def IsRun (f : ℕ → Bool) (n cnt : ℕ) (value : Bool) (i : ℕ) : Prop :=
  i + cnt ≤ n ∧ ∀ j, i ≤ j → j < i + cnt → f j = value

/-- What a scan from a position on returns. -/
def Scans (f : ℕ → Bool) (n start cnt : ℕ) (value : Bool) (result : ℕ) : Prop :=
  (start ≤ result ∧ IsRun f n cnt value result ∧
    ∀ i, start ≤ i → i < result → ¬IsRun f n cnt value i) ∨
  (result = BITMAP_ERROR ∧ ∀ i, start ≤ i → ¬IsRun f n cnt value i)

theorem scanLoop_spec (h : IsBitmap mem b n f) {rounds i : ℕ} (hcnt : cnt ≤ n)
    (hrounds : i + rounds = n - cnt + 1 ∨ rounds = 0 ∧ n - cnt < i) :
    ∃ result, scanLoop mem b cnt value i rounds = some result ∧ Scans f n i cnt value result := by
  induction rounds generalizing i with
  | zero =>
    refine ⟨BITMAP_ERROR, rfl, Or.inr ⟨rfl, fun j hj hrun ↦ ?_⟩⟩
    have hle := hrun.1
    omega
  | succ rounds ih =>
    have hi : i + cnt ≤ n := by omega
    have hrounds' : i + 1 + rounds = n - cnt + 1 ∨ rounds = 0 ∧ n - cnt < i + 1 := by omega
    obtain ⟨found, hcontains, hfound⟩ := bitmapContains_spec h hi (!value)
    have hrun : IsRun f n cnt value i ↔ found = false := by
      rw [← Bool.not_eq_true, hfound, IsRun]
      constructor
      · rintro ⟨-, hall⟩ ⟨j, hle, hlt, hj⟩
        rw [hall j hle hlt] at hj
        cases value <;> exact absurd hj (by decide)
      · intro hnone
        refine ⟨hi, fun j hle hlt ↦ ?_⟩
        by_contra hj
        refine hnone ⟨j, hle, hlt, ?_⟩
        cases value <;> simpa using hj
    simp only [scanLoop, hcontains, Option.bind_eq_bind, Option.bind_some]
    cases found with
    | false =>
      exact ⟨i, rfl, Or.inl ⟨Nat.le_refl _, hrun.mpr rfl, fun j hle hlt ↦ absurd hlt (by omega)⟩⟩
    | true =>
      obtain ⟨result, hloop, hscans⟩ := ih hrounds'
      have hnot : ¬IsRun f n cnt value i := mt hrun.mp (by decide)
      refine ⟨result, hloop, ?_⟩
      have hless : ∀ j, i ≤ j → (i + 1 ≤ j → ¬IsRun f n cnt value j) → ¬IsRun f n cnt value j := by
        intro j hle hrest
        by_cases hj : j = i
        · rwa [hj]
        · exact hrest (by omega)
      rcases hscans with ⟨hle, hresult, hfirst⟩ | ⟨hresult, hnone⟩
      · exact Or.inl ⟨by omega, hresult, fun j hj hlt ↦ hless j hj fun hj' ↦ hfirst j hj' hlt⟩
      · exact Or.inr ⟨hresult, fun j hj ↦ hless j hj fun hj' ↦ hnone j hj'⟩

/-- `bitmap_scan` returns the first run. -/
theorem bitmapScan_spec (h : IsBitmap mem b n f) (hstart : start ≤ n) (cnt : ℕ) (value : Bool) :
    ∃ result, bitmapScan mem b start cnt value = some result ∧
      Scans f n start cnt value result := by
  rw [bitmapScan, h.size, if_pos hstart]
  by_cases hcnt : cnt ≤ n
  · rw [if_pos hcnt]
    exact scanLoop_spec h hcnt (by omega)
  · rw [if_neg hcnt]
    exact ⟨BITMAP_ERROR, rfl, Or.inr ⟨rfl, fun i _ hrun ↦ hcnt (by have := hrun.1; omega)⟩⟩

/-- `bitmap_scan_and_flip` flips the first run. -/
theorem bitmapScanAndFlip_spec (h : IsBitmap mem b n f) (hstart : start ≤ n) (cnt : ℕ) (value : Bool) :
    ∃ result mem', bitmapScanAndFlip mem b start cnt value = some (result, mem') ∧
      Scans f n start cnt value result ∧
      (result ≠ BITMAP_ERROR → Sets mem mem' b n (setRange f result cnt (!value))) ∧
      (result = BITMAP_ERROR → mem' = mem) := by
  obtain ⟨result, hscan, hscans⟩ := bitmapScan_spec h hstart cnt value
  rw [bitmapScanAndFlip, hscan]
  by_cases hresult : result = BITMAP_ERROR
  · refine ⟨result, mem, ?_, hscans, fun hne ↦ absurd hresult hne, fun _ ↦ rfl⟩
    simp only [Option.bind_eq_bind, Option.bind_some, hresult, ne_eq, not_true_eq_false, if_false,
      Option.pure_def]
  · have hrun : IsRun f n cnt value result := by
      rcases hscans with ⟨-, hrun, -⟩ | ⟨heq, -⟩
      · exact hrun
      · exact absurd heq hresult
    obtain ⟨mem', hset, hsets⟩ := bitmapSetMultiple_spec h hrun.1 (!value)
    refine ⟨result, mem', ?_, hscans, fun _ ↦ hsets, fun heq ↦ absurd heq hresult⟩
    simp only [Option.bind_eq_bind, Option.bind_some, ne_eq, hresult, not_false_eq_true, if_true,
      hset, Option.pure_def]

/-- `bitmap_scan_and_flip` flips the first run with the value and nothing else, or returns `BITMAP_ERROR`
where there is none. -/
theorem bitmapScanAndFlip_first (h : IsBitmap mem b n f) (hn : n < SIZE_MAX) (hstart : start ≤ n)
    (cnt : ℕ) (value : Bool) :
    (∃ i mem', bitmapScanAndFlip mem b start cnt value = some (i, mem') ∧ start ≤ i ∧
        IsRun f n cnt value i ∧ (∀ j, start ≤ j → j < i → ¬IsRun f n cnt value j) ∧
        Sets mem mem' b n (setRange f i cnt (!value))) ∨
      bitmapScanAndFlip mem b start cnt value = some (BITMAP_ERROR, mem) ∧
        ∀ i, start ≤ i → ¬IsRun f n cnt value i := by
  obtain ⟨result, mem', hcall, hscans, hflips, hsame⟩ := bitmapScanAndFlip_spec h hstart cnt value
  rcases hscans with ⟨hle, hrun, hfirst⟩ | ⟨rfl, hnone⟩
  · have hne : result ≠ BITMAP_ERROR := by
      have hbound := hrun.1
      unfold BITMAP_ERROR
      omega
    exact Or.inl ⟨result, mem', hcall, hle, hrun, hfirst, hflips hne⟩
  · rw [hsame rfl] at hcall
    exact Or.inr ⟨hcall, hnone⟩

/-- A bitmap of 8 clear bits. -/
def clearBits : Memory := fun a ↦ if a = 0 then 8 else if a = 8 then 16 else 0

theorem isBitmap_clearBits : IsBitmap clearBits 0 8 fun _ ↦ false where
  size := rfl
  apart i hi := by
    have helem : elemAddr clearBits 0 i = 16 + 8 * (i / 64) := rfl
    omega
  bit i hi := by
    have helem : elemAddr clearBits 0 i = 16 := by
      have haddr : elemAddr clearBits 0 i = 16 + 8 * (i / 64) := rfl
      omega
    rw [helem]
    exact BitVec.getLsbD_zero

/-- Three bits from the second one on. -/
theorem bitmapScanAndFlip_first_clearBits :
    (∃ i mem', bitmapScanAndFlip clearBits 0 1 3 false = some (i, mem') ∧ 1 ≤ i ∧
        IsRun (fun _ ↦ false) 8 3 false i ∧
        (∀ j, 1 ≤ j → j < i → ¬IsRun (fun _ ↦ false) 8 3 false j) ∧
        Sets clearBits mem' 0 8 (setRange (fun _ ↦ false) i 3 (!false))) ∨
      bitmapScanAndFlip clearBits 0 1 3 false = some (BITMAP_ERROR, clearBits) ∧
        ∀ i, 1 ≤ i → ¬IsRun (fun _ ↦ false) 8 3 false i :=
  bitmapScanAndFlip_first isBitmap_clearBits (by decide) (by decide) 3 false

/-! ### Creation -/

/-- `bitmap_set_all` sets all bits. -/
theorem bitmapSetAll_spec (h : IsBitmap mem b n f) (value : Bool) :
    ∃ mem', bitmapSetAll mem b value = some mem' ∧ Sets mem mem' b n fun _ ↦ value := by
  obtain ⟨mem', hset, hsets⟩ := bitmapSetMultiple_spec h (Nat.zero_add n).le value
  refine ⟨mem', ?_, hsets.isBitmap.congr fun i hi ↦ ?_, hsets.owns, hsets.same⟩
  · rw [bitmapSetAll, h.size]
    exact hset
  · exact (if_pos ⟨Nat.zero_le i, by omega⟩).symm

/-- `bitmap_create_in_buf` makes a bitmap of clear bits and writes only to its buffer. -/
theorem bitmapCreateInBuf_spec (mem : Memory) {blockSize : ℕ} (hn : n < 2 ^ 64)
    (hb : b + 16 < 2 ^ 64) (hsize : bitmapBufSize n ≤ blockSize) :
    ∃ mem', bitmapCreateInBuf mem n b blockSize = some mem' ∧ IsBitmap mem' b n (fun _ ↦ false) ∧
      (∀ a, Owns mem' b n a → b ≤ a ∧ a < b + bitmapBufSize n) ∧
      ∀ a, ¬(b ≤ a ∧ a < b + bitmapBufSize n) → mem' a = mem a := by
  let mem₁ := (mem.write b (BitVec.ofNat 64 n)).write (b + 8) (BitVec.ofNat 64 (b + 16))
  have hne : b ≠ b + 8 := by omega
  have hcount : mem₁ b = BitVec.ofNat 64 n :=
    (Memory.write_of_ne _ hne _).trans (Memory.write_self ..)
  have hptr : mem₁ (b + 8) = BitVec.ofNat 64 (b + 16) := Memory.write_self ..
  have hother : ∀ a, a ≠ b → a ≠ b + 8 → mem₁ a = mem a := fun a ha ha8 ↦
    (Memory.write_of_ne _ ha8 _).trans (Memory.write_of_ne _ ha _)
  have haddr : ∀ i, elemAddr mem₁ b i = b + 16 + 8 * (i / 64) := by
    intro i
    rw [elemAddr, hptr, BitVec.toNat_ofNat, Nat.mod_eq_of_lt hb]
    rfl
  have hbuf : ∀ a, Owns mem₁ b n a →
      b ≤ a ∧ a < b + bitmapBufSize n := by
    unfold bitmapBufSize byteCnt elemCnt ELEM_BITS
    rintro a (rfl | rfl | ⟨i, hi, rfl⟩)
    · omega
    · omega
    · rw [haddr]
      omega
  have hcreated : IsBitmap mem₁ b n fun i ↦ (mem₁ (elemAddr mem₁ b i)).getLsbD (i % ELEM_BITS) := by
    refine ⟨?_, fun i _ ↦ ?_, fun i _ ↦ rfl⟩
    · rw [bitmapSize, hcount, BitVec.toNat_ofNat, Nat.mod_eq_of_lt hn]
    · rw [haddr]
      omega
  obtain ⟨mem', hset, hsets⟩ := bitmapSetAll_spec hcreated false
  refine ⟨mem', ?_, hsets.isBitmap, fun a ha ↦ hbuf a ((hsets.owns a).mp ha), fun a ha ↦ ?_⟩
  · rw [bitmapCreateInBuf, if_pos hsize]
    exact hset
  · have hbuffer : 16 ≤ bitmapBufSize n := by
      unfold bitmapBufSize
      omega
    rw [hsets.same a fun howns ↦ ha (hbuf a howns)]
    exact hother a (by omega) (by omega)

/-- The blocks that `malloc` returns for a bitmap of so many bits and for its elements. -/
structure Blocks (b bits n : ℕ) : Prop where
  size : n < 2 ^ 64
  pointer : bits < 2 ^ 64
  apart : bits + byteCnt n ≤ b ∨ b + 16 ≤ bits

/-- `bitmap_create` makes a bitmap of clear bits. -/
theorem bitmapCreate_spec (mem : Memory) {bits : ℕ} (h : Blocks b bits n) :
    ∃ mem', bitmapCreate mem (some b) (some bits) n = some (some b, mem') ∧
      IsBitmap mem' b n fun _ ↦ false := by
  let mem₁ := (mem.write b (BitVec.ofNat 64 n)).write (b + 8) (BitVec.ofNat 64 bits)
  have hcount : mem₁ b = BitVec.ofNat 64 n :=
    (Memory.write_of_ne _ (by omega) _).trans (Memory.write_self ..)
  have haddr : ∀ i, elemAddr mem₁ b i = bits + 8 * (i / 64) := by
    intro i
    rw [elemAddr, show mem₁ (b + 8) = BitVec.ofNat 64 bits from Memory.write_self .., BitVec.toNat_ofNat,
      Nat.mod_eq_of_lt h.pointer]
    rfl
  have hcreated : IsBitmap mem₁ b n fun i ↦ (mem₁ (elemAddr mem₁ b i)).getLsbD (i % ELEM_BITS) := by
    refine ⟨?_, fun i hi ↦ ?_, fun i _ ↦ rfl⟩
    · rw [bitmapSize, hcount, BitVec.toNat_ofNat, Nat.mod_eq_of_lt h.size]
    · have hapart := h.apart
      unfold byteCnt elemCnt ELEM_BITS at hapart
      rw [haddr]
      omega
  obtain ⟨mem', hset, hsets⟩ := bitmapSetAll_spec hcreated false
  refine ⟨mem', ?_, hsets.isBitmap⟩
  rw [bitmapCreate, if_pos (Or.inl (Option.some_ne_none bits))]
  exact (congrArg (Option.map (some b, ·)) hset).trans rfl

/-- `bitmap_mark` sets its bit. -/
theorem bitmapMark_spec (h : IsBitmap mem b n f) (hidx : idx < n) :
    IsBitmap (bitmapMark mem b idx) b n (Function.update f idx true) := by
  obtain ⟨mem', hset, hsets⟩ := bitmapSet_spec h hidx true
  rw [bitmapSet, h.size, if_pos hidx, if_pos rfl] at hset
  exact Option.some.inj hset ▸ hsets.isBitmap

/-- The bits of the last element that belong to a bitmap are kept by its mask. -/
theorem lastMask_bit {i : ℕ} (hi : i < n) (hlast : n - 1 < ELEM_BITS * (i / ELEM_BITS + 1)) :
    (lastMask n).getLsbD (i % ELEM_BITS) = true := by
  have hlt := elem_lt i
  unfold lastMask
  split_ifs with hrest
  · have hpow : (1#64 <<< (n % ELEM_BITS)) - 1#64 = BitVec.ofNat 64 (2 ^ (n % ELEM_BITS) - 1) := by
      have hle : n % ELEM_BITS < 64 := elem_lt n
      have hpos := Nat.two_pow_pos (n % ELEM_BITS)
      have hbound : 2 ^ (n % ELEM_BITS) < 2 ^ 64 := Nat.pow_lt_pow_right (by decide) hle
      have hone : (1#64).toNat = 1 := rfl
      apply BitVec.eq_of_toNat_eq
      rw [BitVec.toNat_sub, BitVec.toNat_shiftLeft, Nat.shiftLeft_eq, hone, Nat.one_mul,
        Nat.mod_eq_of_lt hbound, BitVec.toNat_ofNat]
      omega
    have hbelow : i % ELEM_BITS < n % ELEM_BITS := by
      unfold ELEM_BITS at *
      omega
    rw [hpow, BitVec.getLsbD_ofNat, Nat.testBit_two_pow_sub_one, decide_eq_true hlt,
      decide_eq_true hbelow]
    rfl
  · have hones : (-1#64 : BitVec 64) = BitVec.allOnes 64 := by decide
    rw [hones, BitVec.getLsbD_allOnes, decide_eq_true hlt]

end Jungle.Bitmap
