import Jungle.KernelList.Operations

/-!
# Reversing a list

The loop of `list_reverse` exchanges the two links of every interior element (`flipped`); the swaps
after it set the four links between the outer elements and the header elements. `listReverse_ring`
says that the list holds its elements in the opposite order then.
-/

set_option autoImplicit false
set_option relaxedAutoImplicit false

namespace Jungle.KernelList

open Jungle.Lib

/-- The element with its links exchanged. -/
def ListElem.flip (e : ListElem) : ListElem := ⟨e.next, e.prev⟩

/-- The cells with the links of some of them exchanged. -/
def flipped (m : Elems) (cells : List ℕ) : Elems := fun a ↦
  if a ∈ cells then (m a).map ListElem.flip else m a

variable {m m' : Elems} {F B mid nodes cells rest : List ℕ} {a b x y f z e : ℕ} {list : KList}

@[simp] theorem isSome_flipped : (flipped m cells a).isSome = (m a).isSome := by
  unfold flipped
  split_ifs
  · exact Option.isSome_map
  · rfl

theorem next_flipped (ha : a ∈ cells) : next (flipped m cells) a = prev m a := by
  rw [next, flipped, if_pos ha, Option.map_map, prev]
  rfl

theorem prev_flipped (ha : a ∈ cells) : prev (flipped m cells) a = next m a := by
  rw [prev, flipped, if_pos ha, Option.map_map, next]
  rfl

theorem flipped_of_not_mem (ha : a ∉ cells) : flipped m cells a = m a := if_neg ha

/-- Swapping the links of one more cell. -/
theorem swapPrevNext_flipped (he : e ∉ cells) (hsome : (m e).isSome) :
    swapPrevNext (flipped m cells) e e = some (flipped m (cells ++ [e])) := by
  obtain ⟨c, hc⟩ := Option.isSome_iff_exists.mp hsome
  have hcell : flipped m cells e = some c := (flipped_of_not_mem he).trans hc
  have hprev : prev (flipped m cells) e = some c.prev := by rw [prev, hcell, Option.map_some]
  have hnext : next (flipped m cells) e = some c.next := by rw [next, hcell, Option.map_some]
  have hflipped : (flipped m cells e).isSome := by rw [hcell, Option.isSome_some]
  have hwrites : putNext (putPrev (flipped m cells) e c.next) e c.prev =
      flipped m (cells ++ [e]) := by
    funext a
    by_cases hae : a = e
    · subst hae
      rw [putNext, Store.modify_self, putPrev, Store.modify_self, hcell, flipped,
        if_pos (List.mem_append_right _ List.mem_cons_self), hc]
      rfl
    · rw [putNext_of_ne hae, putPrev_of_ne hae, flipped, flipped]
      simp [hae]
  simp only [swapPrevNext, hprev, hnext, Option.bind_eq_bind, Option.bind_some, setPrev_eq hflipped,
    setNext_eq, isSome_putPrev, hflipped, hwrites]

/-- The loop of `list_reverse` exchanges the links of the elements ahead of it. -/
theorem reverse_loop {first : ℕ} {h t : ℕ} (hring : Ring m (h :: (cells ++ rest ++ [t])))
    (hnodup : (h :: (cells ++ rest ++ [t])).Nodup) (hfirst : (rest ++ [t]).head? = some first) :
    Returns (fun fuel ↦ whileLoop (reverseBody ⟨h, t⟩) fuel (flipped m cells, some first))
      (flipped m (cells ++ rest)) := by
  induction rest generalizing cells first with
  | nil =>
    obtain rfl : t = first := Option.some.inj hfirst
    refine returns_leave ?_
    rw [List.append_nil]
    exact if_pos rfl
  | cons e rest ih =>
    obtain rfl : e = first := Option.some.inj hfirst
    have het : e ≠ t ∧ e ∉ cells := by grind
    obtain ⟨second, hsecond⟩ : ∃ second, (rest ++ [t]).head? = some second := by
      cases rest <;> exact ⟨_, rfl⟩
    have hnext : next m e = some (some second) := by
      obtain ⟨tail, htail⟩ := List.head?_eq_some_iff.mp hsecond
      have hring' : Ring m ((h :: cells) ++ e :: second :: tail) := by
        rw [← htail]
        simpa using hring
      exact hring'.next_eq
    have hassoc : cells ++ e :: rest = cells ++ [e] ++ rest := List.append_cons ..
    rw [hassoc] at hring hnodup ⊢
    refine returns_continue ?_ (ih hring hnodup hsecond)
    have hprev : prev (flipped m (cells ++ [e])) e = some (some second) := by
      rw [prev_flipped (List.mem_append_right _ List.mem_cons_self), hnext]
    have hswap := swapPrevNext_flipped het.2 (isSome_of_next hnext)
    have hend : some e ≠ some (listEnd ⟨h, t⟩) := fun heq ↦ het.1 (Option.some.inj heq)
    simp only [reverseBody, if_neg hend, hswap, hprev, Option.bind_eq_bind, Option.bind_some,
      Option.pure_def]

/-- The cells after the swaps that follow the loop. -/
structure Turned (m m' : Elems) (h t f z : ℕ) (mid : List ℕ) : Prop where
  next_head : next m' h = some (some z)
  prev_head : prev m' h = some none
  next_tail : next m' t = some none
  prev_tail : prev m' t = some (some f)
  prev_first : prev m' z = some (some h)
  next_last : next m' f = some (some t)
  next_mid : ∀ a ∈ mid, a ≠ f → next m' a = prev m a
  prev_mid : ∀ a ∈ mid, a ≠ z → prev m' a = next m a

/-- The ring is reversed. -/
theorem Ring.turn {h t : ℕ} (hring : Ring m (h :: (mid ++ [t]))) (hnodup : mid.Nodup)
    (hf : mid.head? = some f) (hz : mid.getLast? = some z) (hturned : Turned m m' h t f z mid) :
    Ring m' (h :: (mid.reverse ++ [t])) := by
  have hne : mid ≠ [] := by
    rintro rfl
    exact Option.some_ne_none _ hf.symm
  have hmid : Links (after m) (before m) mid :=
    List.IsChain.infix hring.links ⟨[h], [t], by simp⟩
  have hinner : Links (after m') (before m') mid.reverse := by
    refine hmid.reverse.congr (fun w hw ↦ ?_) fun w hw ↦ ?_
    · have hwf : w ≠ f := by
        rintro rfl
        obtain ⟨rest, rfl⟩ := List.head?_eq_some_iff.mp hf
        rw [List.reverse_cons, List.dropLast_concat, List.mem_reverse] at hw
        exact (List.nodup_cons.mp hnodup).1 hw
      have hmem := List.mem_reverse.mp (List.dropLast_subset _ hw)
      rw [after_eq, before_eq, hturned.next_mid w hmem hwf]
    · have hwz : w ≠ z := by
        rintro rfl
        obtain ⟨init, rfl⟩ := List.getLast?_eq_some_iff.mp hz
        rw [List.reverse_append, List.reverse_singleton, List.singleton_append, List.tail_cons,
          List.mem_reverse] at hw
        exact List.disjoint_of_nodup_append hnodup hw (List.mem_singleton_self w)
      have hmem := List.mem_reverse.mp (List.mem_of_mem_tail hw)
      rw [after_eq, before_eq, hturned.prev_mid w hmem hwz]
  refine ⟨List.isChain_cons.mpr ⟨fun w hw ↦ ?_, List.isChain_append.mpr
    ⟨hinner, links_singleton, fun u hu v hv ↦ ?_⟩⟩, fun a ha ↦ ?_, fun a ha ↦ ?_⟩
  · rw [List.head?_append_of_ne_nil _ (List.reverse_ne_nil_iff.mpr hne), List.head?_reverse, hz] at hw
    obtain rfl := Option.some.inj hw
    rw [after_eq, before_eq, hturned.next_head, hturned.prev_first]
    exact ⟨rfl, rfl⟩
  · rw [List.getLast?_reverse, hf] at hu
    obtain rfl := Option.some.inj hu
    obtain rfl := Option.some.inj hv
    rw [after_eq, before_eq, hturned.next_last, hturned.prev_tail]
    exact ⟨rfl, rfl⟩
  · obtain rfl := Option.some.inj ha
    exact hturned.prev_head
  · rw [← List.cons_append, List.getLast?_concat] at ha
    obtain rfl := Option.some.inj ha
    exact hturned.next_tail

theorem flipped_nil (m : Elems) : flipped m [] = m := funext fun _ ↦ if_neg List.not_mem_nil

theorem next_flipped_of_not_mem (ha : a ∉ cells) : next (flipped m cells) a = next m a := by
  rw [next, flipped_of_not_mem ha, next]

theorem prev_flipped_of_not_mem (ha : a ∉ cells) : prev (flipped m cells) a = prev m a := by
  rw [prev, flipped_of_not_mem ha, prev]

/-- The writes of the swaps after the loop. -/
def turnEnds (m : Elems) (h t f z : ℕ) : Elems :=
  putNext (putPrev (putNext (putPrev m t (some f)) h (some z)) z (some h)) f (some t)

theorem turnEnds_turned {h t : ℕ} (hring : Ring m (h :: (mid ++ [t])))
    (hnodup : (h :: (mid ++ [t])).Nodup) (hf : mid.head? = some f) (hz : mid.getLast? = some z) :
    Turned m (turnEnds (flipped m mid) h t f z) h t f z mid := by
  have hfmem : f ∈ mid := List.mem_of_mem_head? hf
  have hzmem : z ∈ mid := List.mem_of_mem_getLast? hz
  have hh : (m h).isSome := hring.allocated (by simp)
  have ht : (m t).isSome := hring.allocated (by simp)
  have hfs : (m f).isSome := hring.allocated (by simp [hfmem])
  have hzs : (m z).isSome := hring.allocated (by simp [hzmem])
  have hmem : h ∉ mid ∧ t ∉ mid ∧ h ≠ t := by grind
  have hhf : h ≠ f := (ne_of_mem_of_not_mem hfmem hmem.1).symm
  have htz : t ≠ z := (ne_of_mem_of_not_mem hzmem hmem.2.1).symm
  have hhz : h ≠ z := (ne_of_mem_of_not_mem hzmem hmem.1).symm
  have htf : t ≠ f := (ne_of_mem_of_not_mem hfmem hmem.2.1).symm
  constructor
  · rw [turnEnds, next_putNext_of_ne hhf, next_putPrev, next_putNext_self (by simpa using hh)]
  · rw [turnEnds, prev_putNext, prev_putPrev_of_ne hhz, prev_putNext, prev_putPrev_of_ne hmem.2.2,
      prev_flipped_of_not_mem hmem.1]
    exact hring.first h rfl
  · rw [turnEnds, next_putNext_of_ne htf, next_putPrev, next_putNext_of_ne hmem.2.2.symm,
      next_putPrev, next_flipped_of_not_mem hmem.2.1]
    exact hring.last t (by rw [← List.cons_append, List.getLast?_concat])
  · rw [turnEnds, prev_putNext, prev_putPrev_of_ne htz, prev_putNext,
      prev_putPrev_self (by simpa using ht)]
  · rw [turnEnds, prev_putNext, prev_putPrev_self (by simpa using hzs)]
  · rw [turnEnds, next_putNext_self (by simpa using hfs)]
  · intro a ha haf
    have hah : a ≠ h := ne_of_mem_of_not_mem ha hmem.1
    rw [turnEnds, next_putNext_of_ne haf, next_putPrev, next_putNext_of_ne hah, next_putPrev,
      next_flipped ha]
  · intro a ha haz
    have hat : a ≠ t := ne_of_mem_of_not_mem ha hmem.2.1
    rw [turnEnds, prev_putNext, prev_putPrev_of_ne haz, prev_putNext, prev_putPrev_of_ne hat,
      prev_flipped ha]

theorem edits_turnEnds (m : Elems) (h t f z : ℕ) :
    Edits m (turnEnds m h t f z) [t, h, z, f] :=
  (((edits_putPrev ..).trans (edits_putNext ..)).trans (edits_putPrev ..)).trans
    (edits_putNext ..) |>.mono (by simp)

theorem edits_flipped (m : Elems) (cells : List ℕ) : Edits m (flipped m cells) cells :=
  ⟨fun _ ↦ flipped_of_not_mem, fun _ ↦ isSome_flipped⟩

/-- The swaps after the loop of `list_reverse`. -/
theorem swap_ends {h t : ℕ} (hring : Ring m (h :: (mid ++ [t])))
    (hnodup : (h :: (mid ++ [t])).Nodup) (hf : mid.head? = some f) (hz : mid.getLast? = some z) :
    (do
      let m ← swapPrevNext (flipped m mid) t h
      swapPrevNext m (← (← next m h)) (← (← prev m t))) =
      some (turnEnds (flipped m mid) h t f z) := by
  have hfmem : f ∈ mid := List.mem_of_mem_head? hf
  have hzmem : z ∈ mid := List.mem_of_mem_getLast? hz
  have hh : (m h).isSome := hring.allocated (by simp)
  have ht : (m t).isSome := hring.allocated (by simp)
  have hfs : (m f).isSome := hring.allocated (by simp [hfmem])
  have hzs : (m z).isSome := hring.allocated (by simp [hzmem])
  have hmem : h ∉ mid ∧ t ∉ mid ∧ h ≠ t := by grind
  have hring' : Ring m ([] ++ h :: (mid ++ t :: [])) := hring
  obtain ⟨hprevF, hnextZ, hprevT, -, -⟩ := hring'.range_eq hf hz
  have hnextH : next m h = some (some f) := by
    obtain ⟨rest, rfl⟩ := List.head?_eq_some_iff.mp hf
    exact hring'.next_eq
  have hprevT₁ : prev (flipped m mid) t = some (some z) := by
    rw [prev_flipped_of_not_mem hmem.2.1, hprevT]
  have hnextH₁ : next (flipped m mid) h = some (some f) := by
    rw [next_flipped_of_not_mem hmem.1, hnextH]
  have hprevT₂ : prev (putNext (putPrev (flipped m mid) t (some f)) h (some z)) t =
      some (some f) := by
    rw [prev_putNext, prev_putPrev_self (by simpa using ht)]
  have hnextH₂ : next (putNext (putPrev (flipped m mid) t (some f)) h (some z)) h =
      some (some z) := next_putNext_self (by simpa using hh)
  have hprevZ₂ : prev (putNext (putPrev (flipped m mid) t (some f)) h (some z)) z =
      some (some t) := by
    rw [prev_putNext, prev_putPrev_of_ne (ne_of_mem_of_not_mem hzmem hmem.2.1), prev_flipped hzmem,
      hnextZ]
  have hnextF₂ : next (putNext (putPrev (flipped m mid) t (some f)) h (some z)) f =
      some (some h) := by
    rw [next_putNext_of_ne (ne_of_mem_of_not_mem hfmem hmem.1), next_putPrev, next_flipped hfmem,
      hprevF]
  simp only [swapPrevNext, hprevT₁, hnextH₁, hprevT₂, hnextH₂, hprevZ₂, hnextF₂,
    Option.bind_eq_bind, Option.bind_some, setNext_eq, setPrev_eq, isSome_putNext, isSome_putPrev,
    isSome_flipped, hh, ht, hfs, hzs, turnEnds]

/-- `list_reverse` turns the list around. -/
theorem listReverse_ring (hring : Ring m (list.head :: (mid ++ [list.tail])))
    (hnodup : (list.head :: (mid ++ [list.tail])).Nodup) :
    ∃ m', Returns (fun fuel ↦ listReverse fuel m list) m' ∧
      Ring m' (list.head :: (mid.reverse ++ [list.tail])) ∧
      Edits m m' (list.head :: (mid ++ [list.tail])) := by
  cases hmid : mid with
  | nil =>
    subst hmid
    have hring' : Ring m ([] ++ list.head :: list.tail :: []) := hring
    refine ⟨m, ⟨0, fun fuel _ ↦ ?_⟩, hring, fun _ _ ↦ rfl, fun _ ↦ rfl⟩
    simp [listReverse, listEmpty, listBegin, hring'.next_eq, listEnd]
  | cons f rest =>
    obtain ⟨z, hz⟩ : ∃ z, mid.getLast? = some z :=
      ⟨_, List.getLast?_eq_some_getLast (hmid ▸ List.cons_ne_nil f rest)⟩
    have hf : mid.head? = some f := by rw [hmid, List.head?_cons]
    have hft : f ≠ list.tail := by
      rintro rfl
      have := List.mem_of_mem_head? hf
      grind
    have hbegin : listBegin m list = some (some f) := by
      rw [hmid] at hring
      have hring' : Ring m ([] ++ list.head :: f :: (rest ++ [list.tail])) := hring
      exact hring'.next_eq
    rw [← hmid]
    refine ⟨turnEnds (flipped m mid) list.head list.tail f z, ?_,
      hring.turn (List.Nodup.of_append_left hnodup.tail) hf hz (turnEnds_turned hring hnodup hf hz),
      ((edits_flipped ..).trans (edits_turnEnds ..)).mono ?_⟩
    · have hstart : (mid ++ [list.tail]).head? = some f := by
        rw [List.head?_append_of_ne_nil _ (hmid ▸ List.cons_ne_nil f rest), hf]
      have hring' : Ring m (list.head :: ([] ++ mid ++ [list.tail])) := hring
      have hloop := reverse_loop hring' hnodup hstart
      rw [flipped_nil, List.nil_append] at hloop
      obtain ⟨bound, hbound⟩ := hloop
      refine ⟨bound, fun fuel hfuel ↦ ?_⟩
      have hempty : listEmpty m list = some false := by
        simp [listEmpty, hbegin, listEnd, hft]
      simp only [listReverse, hempty, hbegin, Option.bind_eq_bind, Option.bind_some,
        hbound fuel hfuel]
      exact swap_ends hring hnodup hf hz
    · have hfmem : f ∈ mid := List.mem_of_mem_head? hf
      have hzmem : z ∈ mid := List.mem_of_mem_getLast? hz
      intro a ha
      simp only [List.mem_append, List.mem_cons, List.not_mem_nil, or_false] at ha ⊢
      clear hmid
      rcases ha with ha | rfl | rfl | rfl | rfl <;> simp only [true_or, or_true, *]

end Jungle.KernelList
