import Jungle.Lib.Links
import Jungle.Proxy.Cache
import Mathlib.Algebra.BigOperators.Group.List.Basic
import Mathlib.Algebra.Order.Ring.Int

/-!
# The cache as a list of blocks

`IsCache c entries` says that the two chains of the cache link the listed blocks both ways, that the
blocks hold the listed objects and that `total_size` is the sum of their sizes. The header of the
cache stands for the node before the first and after the last block. The sections below say what the
steps of the lookup, the eviction and the insertion do to the list.
-/

set_option autoImplicit false
set_option relaxedAutoImplicit false

namespace Jungle.Proxy

open Jungle.Lib

namespace Cache

/-- The link to the next block, the header leading to the first one. -/
def after (c : Cache) : Option ℕ → Option (Option ℕ)
  | none => some c.head
  | some a => (c.blocks a).map CacheBlock.next

/-- The link to the previous block, the header leading to the last one. -/
def before (c : Cache) : Option ℕ → Option (Option ℕ)
  | none => some c.tail
  | some a => (c.blocks a).map CacheBlock.prev

/-- The object in a block. -/
def object (c : Cache) (a : ℕ) : Option CacheObject := (c.blocks a).map CacheBlock.toCacheObject

end Cache

/-- The header, the listed blocks and the header again. -/
def ring (addresses : List ℕ) : List (Option ℕ) := none :: (addresses.map some ++ [none])

/-- The chains of the cache link the listed blocks both ways. -/
structure Linked (c : Cache) (addresses : List ℕ) : Prop where
  links : Links c.after c.before (ring addresses)
  nodup : addresses.Nodup

/-- The sum of the sizes of the listed objects. -/
def sizes (entries : List (ℕ × CacheObject)) : ℤ := (entries.map fun entry ↦ entry.2.size).sum

/-- The cache holds the listed objects. -/
structure IsCache (c : Cache) (entries : List (ℕ × CacheObject)) : Prop where
  linked : Linked c (entries.map Prod.fst)
  objects : ∀ entry ∈ entries, c.object entry.1 = some entry.2
  total : c.totalSize = sizes entries

/-- The cache links the listed objects, whatever its total size says. -/
structure Lists (c : Cache) (entries : List (ℕ × CacheObject)) : Prop where
  linked : Linked c (entries.map Prod.fst)
  objects : ∀ entry ∈ entries, c.object entry.1 = some entry.2

variable {c c' : Cache} {addresses : List ℕ} {entries : List (ℕ × CacheObject)} {t : ℕ}
  {o : CacheObject}

theorem IsCache.lists (h : IsCache c entries) : Lists c entries := ⟨h.linked, h.objects⟩

/-! ### Links -/

theorem ring_concat (u t : ℕ) : ring (addresses ++ [u, t]) =
    (none :: addresses.map some) ++ some u :: some t :: [none] := by
  simp [ring]

/-- The header leads to the first block. -/
theorem Linked.head_eq (h : Linked c addresses) : c.head = addresses.head? := by
  have hlinks := h.links
  cases addresses with
  | nil => exact Option.some.inj (links_cons_cons.mp hlinks).1.1
  | cons a addresses => exact Option.some.inj (links_cons_cons.mp hlinks).1.1

/-- The header leads to the last block. -/
theorem Linked.tail_concat (h : Linked c (addresses ++ [t])) : c.tail = some t := by
  have hlinks := h.links
  rw [ring, List.map_append, List.append_assoc, ← List.cons_append] at hlinks
  exact Option.some.inj (Links.neighbours hlinks).2

/-- The header again is the one node of the list behind it that is no block. -/
theorem nodup_ring_tail (h : addresses.Nodup) : (addresses.map some ++ [none]).Nodup := by
  rw [List.nodup_append]
  refine ⟨h.map (Option.some_injective ℕ), List.nodup_singleton none, fun w hw v hv ↦ ?_⟩
  obtain ⟨a, -, rfl⟩ := List.mem_map.mp hw
  rw [List.mem_singleton.mp hv]
  exact Option.some_ne_none a

/-- A listed block is allocated. -/
theorem Linked.isSome (h : Linked c addresses) {a : ℕ} (ha : a ∈ addresses) :
    (c.blocks a).isSome := by
  obtain ⟨front, back, rfl⟩ := List.append_of_mem ha
  have hlinks := h.links
  obtain ⟨y, rest, hy⟩ : ∃ y rest, back.map some ++ [none] = y :: rest :=
    List.exists_cons_of_ne_nil (by simp)
  have hring : ring (front ++ a :: back) = (none :: front.map some) ++ some a :: y :: rest := by
    rw [ring, List.map_append, List.append_assoc, List.map_cons, List.cons_append, hy,
      List.cons_append]
  rw [hring] at hlinks
  have hafter : (c.blocks a).map CacheBlock.next = some y := hlinks.neighbours.1
  rw [← Option.isSome_map, hafter]
  rfl

/-- The links decide which blocks are linked. -/
theorem Linked.congr (h : Linked c addresses) (hafter : ∀ w, c'.after w = c.after w)
    (hbefore : ∀ w, c'.before w = c.before w) : Linked c' addresses :=
  ⟨h.links.congr (fun w _ ↦ hafter w) fun w _ ↦ hbefore w, h.nodup⟩

/-- A list depends on the ends and the listed blocks only. -/
theorem Linked.frame (h : Linked c addresses) (hhead : c'.head = c.head) (htail : c'.tail = c.tail)
    (hblocks : ∀ a ∈ addresses, c'.blocks a = c.blocks a) : Linked c' addresses := by
  have hmem : ∀ a, some a ∈ ring addresses → a ∈ addresses := fun a ha ↦ by
    simpa [ring] using ha
  refine ⟨h.links.congr (fun w hw ↦ ?_) (fun w hw ↦ ?_), h.nodup⟩
  · cases w with
    | none => exact congrArg some hhead
    | some a =>
      simp only [Cache.after, hblocks a (hmem a (List.dropLast_subset _ hw))]
  · cases w with
    | none => exact congrArg some htail
    | some a =>
      simp only [Cache.before, hblocks a (hmem a (List.mem_of_mem_tail hw))]

/-- Linking a block in before the head. -/
theorem Linked.push (h : Linked c addresses) (ht : t ∉ addresses) (hhead : c'.head = some t)
    (hprev : c'.before (some t) = some none) (hnext : c'.after (some t) = some c.head)
    (hback : c'.before c.head = some (some t))
    (hafter : ∀ a ∈ addresses, c'.after (some a) = c.after (some a))
    (hbefore : ∀ w, w ≠ c.head → w ≠ some t → c'.before w = c.before w) :
    Linked c' (t :: addresses) := by
  refine ⟨?_, List.nodup_cons.mpr ⟨ht, h.nodup⟩⟩
  have hlinks := h.links
  have hnodup := nodup_ring_tail h.nodup
  obtain ⟨back, hsplit⟩ : ∃ back, addresses.map some ++ [none] = c.head :: back := by
    rw [h.head_eq]
    cases addresses with
    | nil => exact ⟨_, rfl⟩
    | cons a addresses => exact ⟨_, rfl⟩
  have hmiddle : ring (t :: addresses) = [] ++ none :: some t :: c.head :: back := by
    rw [ring, List.map_cons, List.cons_append, hsplit, List.nil_append]
  rw [hmiddle]
  rw [ring, hsplit] at hlinks
  refine Links.insert hlinks (congrArg some hhead) hprev hnext hback (fun w hw ↦ ?_) fun w hw ↦ ?_
  · rw [← hsplit, List.nil_append, List.dropLast_concat] at hw
    obtain ⟨a, ha, rfl⟩ := List.mem_map.mp hw
    exact hafter a ha
  · rw [hsplit, List.nodup_cons] at hnodup
    refine hbefore w (ne_of_mem_of_not_mem hw hnodup.1) fun hwt ↦ ht ?_
    have hmem : some t ∈ addresses.map some ++ [none] := by
      rw [hsplit, ← hwt]
      exact List.mem_cons_of_mem _ hw
    simpa using hmem

/-- Linking the tail out. -/
theorem Linked.dropTail {u : ℕ} (h : Linked c (addresses ++ [u, t]))
    (hnext : c'.after (some u) = some none) (htail : c'.tail = some u) (hafter : ∀ w, w ≠ some u → c'.after w = c.after w)
    (hbefore : ∀ w, w ≠ none → c'.before w = c.before w) : Linked c' (addresses ++ [u]) := by
  have hnodup := h.nodup
  rw [List.append_cons] at hnodup
  have hnodup' := (List.nodup_append.mp hnodup).1
  have hu : u ∉ addresses := fun hmem ↦
    (List.nodup_append.mp hnodup').2.2 u hmem u List.mem_cons_self rfl
  have hlinks := h.links
  rw [ring_concat] at hlinks
  refine ⟨?_, hnodup'⟩
  have hring : ring (addresses ++ [u]) = (none :: addresses.map some) ++ some u :: [none] := by
    simp [ring]
  rw [hring]
  refine Links.remove hlinks hnext (congrArg some htail) (fun w hw ↦ hafter w ?_)
    fun w hw ↦ hbefore w ?_
  · rintro rfl
    simp [hu] at hw
  · rintro rfl
    simp at hw

/-! ### Changes of one field -/

namespace Cache

/-- The cache with another link to the next block in the block at `a`. -/
def withNext (c : Cache) (a : ℕ) (next : Option ℕ) : Cache :=
  { c with blocks := c.blocks.modify a fun b ↦ { b with next := next } }

/-- The cache with another link to the previous block in the block at `a`. -/
def withPrev (c : Cache) (a : ℕ) (prev : Option ℕ) : Cache :=
  { c with blocks := c.blocks.modify a fun b ↦ { b with prev := prev } }

/-- The cache with another reference bit in the block at `a`. -/
def withBit (c : Cache) (a : ℕ) (bit : ℤ) : Cache :=
  { c with blocks := c.blocks.modify a fun b ↦ { b with referenceBit := bit } }

variable {a : ℕ} {w v : Option ℕ}

theorem setNext_eq (h : (c.object a).isSome) (v : Option ℕ) :
    c.setNext a v = some (c.withNext a v) := by
  rw [object, Option.isSome_map] at h
  simp only [setNext, updateBlock, Store.update?_eq h, Option.bind_eq_bind, Option.bind_some,
    Option.pure_def, withNext]

theorem setPrev_eq (h : (c.object a).isSome) (v : Option ℕ) :
    c.setPrev a v = some (c.withPrev a v) := by
  rw [object, Option.isSome_map] at h
  simp only [setPrev, updateBlock, Store.update?_eq h, Option.bind_eq_bind, Option.bind_some,
    Option.pure_def, withPrev]

theorem setReferenceBit_eq (h : (c.object a).isSome) (bit : ℤ) :
    c.setReferenceBit a bit = some (c.withBit a bit) := by
  rw [object, Option.isSome_map] at h
  simp only [setReferenceBit, updateBlock, Store.update?_eq h, Option.bind_eq_bind,
    Option.bind_some, Option.pure_def, withBit]

@[simp] theorem object_withNext (c : Cache) (a : ℕ) (v : Option ℕ) (x : ℕ) :
    (c.withNext a v).object x = c.object x :=
  Store.map_modify (by exact fun _ ↦ rfl) x

@[simp] theorem object_withPrev (c : Cache) (a : ℕ) (v : Option ℕ) (x : ℕ) :
    (c.withPrev a v).object x = c.object x :=
  Store.map_modify (by exact fun _ ↦ rfl) x

@[simp] theorem before_withNext (c : Cache) (a : ℕ) (v w : Option ℕ) :
    (c.withNext a v).before w = c.before w := by
  cases w with
  | none => rfl
  | some x => exact Store.map_modify (by exact fun _ ↦ rfl) x

@[simp] theorem after_withPrev (c : Cache) (a : ℕ) (v w : Option ℕ) :
    (c.withPrev a v).after w = c.after w := by
  cases w with
  | none => rfl
  | some x => exact Store.map_modify (by exact fun _ ↦ rfl) x

@[simp] theorem after_withBit (c : Cache) (a : ℕ) (bit : ℤ) (w : Option ℕ) :
    (c.withBit a bit).after w = c.after w := by
  cases w with
  | none => rfl
  | some x => exact Store.map_modify (by exact fun _ ↦ rfl) x

@[simp] theorem before_withBit (c : Cache) (a : ℕ) (bit : ℤ) (w : Option ℕ) :
    (c.withBit a bit).before w = c.before w := by
  cases w with
  | none => rfl
  | some x => exact Store.map_modify (by exact fun _ ↦ rfl) x

theorem after_withNext_self (h : (c.object a).isSome) :
    (c.withNext a v).after (some a) = some v := by
  rw [object, Option.isSome_map] at h
  exact Store.map_modify_self h fun _ ↦ rfl

theorem before_withPrev_self (h : (c.object a).isSome) :
    (c.withPrev a v).before (some a) = some v := by
  rw [object, Option.isSome_map] at h
  exact Store.map_modify_self h fun _ ↦ rfl

theorem after_withNext_of_ne (h : w ≠ some a) : (c.withNext a v).after w = c.after w := by
  cases w with
  | none => rfl
  | some x =>
    have hx : x ≠ a := fun heq ↦ h (congrArg some heq)
    simp only [after, withNext, Store.modify_of_ne _ hx]

theorem before_withPrev_of_ne (h : w ≠ some a) : (c.withPrev a v).before w = c.before w := by
  cases w with
  | none => rfl
  | some x =>
    have hx : x ≠ a := fun heq ↦ h (congrArg some heq)
    simp only [before, withPrev, Store.modify_of_ne _ hx]

theorem object_withBit_self (h : c.object a = some o) (bit : ℤ) :
    (c.withBit a bit).object a = some { o with referenceBit := bit } := by
  obtain ⟨b, hb, rfl⟩ := Option.map_eq_some_iff.mp h
  simp [object, withBit, Store.modify_self, hb]

theorem object_withBit_of_ne {x : ℕ} (h : x ≠ a) (bit : ℤ) :
    (c.withBit a bit).object x = c.object x := by
  simp only [object, withBit, Store.modify_of_ne _ h]

end Cache

/-! ### The parts of the eviction -/

open Cache

theorem Linked.object_isSome (h : Linked c addresses) {a : ℕ} (ha : a ∈ addresses) :
    (c.object a).isSome := by
  rw [object, Option.isSome_map]
  exact h.isSome ha

/-- Two caches hold the same objects and have the same total size. -/
def SameObjects (c c' : Cache) : Prop :=
  (∀ a, c'.object a = c.object a) ∧ c'.totalSize = c.totalSize

/-- The tail is taken off a list of two or more blocks. -/
theorem detachTail_eq {u : ℕ} (h : Linked c (addresses ++ [u, t])) :
    ∃ c', detachTail c t = some c' ∧ Linked c' (addresses ++ [u]) ∧ SameObjects c c' := by
  obtain ⟨b, hb⟩ := Option.isSome_iff_exists.mp (h.isSome (a := t) (by simp))
  have hprev : b.prev = some u := by
    have hlinks := h.links
    rw [ring_concat] at hlinks
    have hbefore : (c.blocks t).map CacheBlock.prev = some (some u) := hlinks.neighbours.2
    rw [hb] at hbefore
    exact Option.some.inj hbefore
  have hu : (({ c with tail := some u } : Cache).object u).isSome := h.object_isSome (by simp)
  refine ⟨({ c with tail := some u } : Cache).withNext u none, ?_,
    h.dropTail (after_withNext_self hu) rfl (fun w hw ↦ ?_) fun w hw ↦ ?_,
    fun a ↦ object_withNext _ _ _ a, rfl⟩
  · simp only [detachTail, hb, Option.bind_eq_bind, Option.bind_some, hprev]
    exact setNext_eq hu none
  · rw [after_withNext_of_ne hw]
    cases w <;> rfl
  · rw [before_withNext]
    obtain ⟨a, rfl⟩ := Option.ne_none_iff_exists'.mp hw
    rfl

/-- A block outside a nonempty list is linked in before its head. -/
theorem pushHead_eq {a : ℕ} (h : Linked c (a :: addresses)) (ht : t ∉ a :: addresses)
    (hobject : (c.object t).isSome) : ∃ c', pushHead c t = some c' ∧
      Linked c' (t :: a :: addresses) ∧ SameObjects c c' ∧ c'.tail = c.tail := by
  have hhead : c.head = some a := h.head_eq
  have hta : some t ≠ some a := fun heq ↦ ht (by simp [Option.some.inj heq])
  have ha : (c.object a).isSome := h.object_isSome List.mem_cons_self
  let linked := (c.withPrev t none).withNext t (some a)
  have hsame : ∀ x, (linked.withPrev a (some t)).object x = c.object x := fun x ↦ by
    simp only [linked, object_withPrev, object_withNext]
  refine ⟨{ linked.withPrev a (some t) with head := some t }, ?_, ?_, ⟨hsame, rfl⟩, rfl⟩
  · have hhead' : (c.withPrev t none).head = some a := hhead
    have hhead'' : linked.head = some a := hhead
    simp only [pushHead, setPrev_eq hobject, Option.bind_eq_bind, Option.bind_some, hhead']
    rw [setNext_eq (by rwa [object_withPrev]), Option.bind_some, hhead'']
    simp only
    rw [setPrev_eq (by simpa only [linked, object_withPrev, object_withNext] using ha)]
    rfl
  · have hafter : ∀ w, ({ linked.withPrev a (some t) with head := some t } : Cache).after (some w) =
        linked.after (some w) := fun w ↦ after_withPrev linked a (some t) (some w)
    have hbefore : ∀ w, ({ linked.withPrev a (some t) with head := some t } : Cache).before w =
        (linked.withPrev a (some t)).before w := fun w ↦ by cases w <;> rfl
    refine h.push ht rfl ?_ ?_ ?_ (fun x hx ↦ ?_) fun w hw hwt ↦ ?_
    · rw [hbefore, before_withPrev_of_ne hta, before_withNext, before_withPrev_self hobject]
    · rw [hafter, after_withNext_self (by rwa [object_withPrev]), hhead]
    · rw [hbefore, hhead]
      exact before_withPrev_self (by simpa only [linked, object_withPrev, object_withNext] using ha)
    · rw [hafter, after_withNext_of_ne, after_withPrev]
      exact fun heq ↦ ht (Option.some.inj heq ▸ hx)
    · rw [hbefore, before_withPrev_of_ne (hhead ▸ hw), before_withNext, before_withPrev_of_ne hwt]

/-! ### The steps on the listed objects -/

/-- An object with its reference bit changed. -/
def CacheObject.withBit (o : CacheObject) (bit : ℤ) : CacheObject := { o with referenceBit := bit }

@[simp] theorem CacheObject.withBit_url (o : CacheObject) (bit : ℤ) :
    (o.withBit bit).url = o.url := rfl

@[simp] theorem CacheObject.withBit_data (o : CacheObject) (bit : ℤ) :
    (o.withBit bit).data = o.data := rfl

@[simp] theorem CacheObject.withBit_size (o : CacheObject) (bit : ℤ) :
    (o.withBit bit).size = o.size := rfl

@[simp] theorem sizes_nil : sizes [] = 0 := rfl

@[simp] theorem sizes_cons (t : ℕ) (o : CacheObject) (entries : List (ℕ × CacheObject)) :
    sizes ((t, o) :: entries) = o.size + sizes entries := by
  simp [sizes]

@[simp] theorem sizes_concat (t : ℕ) (o : CacheObject) (entries : List (ℕ × CacheObject)) :
    sizes (entries ++ [(t, o)]) = sizes entries + o.size := by
  simp [sizes]

/-- The entries of a cache have different addresses. -/
theorem Lists.ne_of_mem (h : Lists c (entries ++ [(t, o)])) {entry : ℕ × CacheObject}
    (hentry : entry ∈ entries) : entry.1 ≠ t := by
  have hnodup := h.linked.nodup
  rw [List.map_append, List.nodup_append] at hnodup
  exact hnodup.2.2 entry.1 (List.mem_map_of_mem hentry) t List.mem_cons_self

/-- The addresses of a list of two or more entries. -/
theorem map_fst_concat (hne : entries ≠ []) (t : ℕ) (o : CacheObject) :
    ∃ front u, entries.map Prod.fst = front ++ [u] ∧
      (entries ++ [(t, o)]).map Prod.fst = front ++ [u, t] := by
  rcases List.eq_nil_or_concat entries with rfl | ⟨front, entry, rfl⟩
  · exact absurd rfl hne
  · exact ⟨front.map Prod.fst, entry.1, by simp, by simp⟩

/-- A tail with its reference bit set moves to the head of a list of two or more blocks. -/
theorem secondChance_eq (h : Lists c (entries ++ [(t, o)])) (hne : entries ≠ []) :
    ∃ c', secondChance c t = some c' ∧ Lists c' ((t, o.withBit 0) :: entries) ∧
      c'.totalSize = c.totalSize := by
  obtain ⟨front, u, hfront, haddresses⟩ := map_fst_concat hne t o
  have hobject : c.object t = some o := h.objects (t, o) (by simp)
  have hlinked : Linked (c.withBit t 0) (front ++ [u, t]) :=
    haddresses ▸ h.linked.congr (after_withBit c t 0) (before_withBit c t 0)
  obtain ⟨c₂, hdetach, hlinked₂, hobjects₂, htotal₂⟩ := detachTail_eq hlinked
  have hobject₂ : c₂.object t = some (o.withBit 0) :=
    (hobjects₂ t).trans (object_withBit_self hobject 0)
  have ht : t ∉ front ++ [u] := by
    have hnodup := hlinked.nodup
    rw [List.append_cons, List.nodup_append] at hnodup
    exact fun hmem ↦ hnodup.2.2 t hmem t List.mem_cons_self rfl
  have htail : c₂.tail ≠ none := by
    rw [hlinked₂.tail_concat]
    exact Option.some_ne_none u
  obtain ⟨a, rest, hcons⟩ := List.exists_cons_of_ne_nil (l := front ++ [u]) (by simp)
  rw [hcons] at hlinked₂ ht
  obtain ⟨c₃, hpush, hlinked₃, ⟨hobjects₃, htotal₃⟩, htail₃⟩ :=
    pushHead_eq hlinked₂ ht (by rw [hobject₂]; rfl)
  refine ⟨c₃, ?_, ⟨?_, fun entry hentry ↦ ?_⟩, htotal₃.trans htotal₂⟩
  · simp only [secondChance, setReferenceBit_eq (by rw [hobject]; rfl), Option.bind_eq_bind,
      Option.bind_some, hdetach, hpush]
    rw [if_neg (htail₃ ▸ htail)]
    rfl
  · rw [List.map_cons, hfront, hcons]
    exact hlinked₃
  · rcases List.mem_cons.mp hentry with rfl | hmem
    · exact (hobjects₃ t).trans hobject₂
    · rw [hobjects₃, hobjects₂, object_withBit_of_ne (h.ne_of_mem hmem)]
      exact h.objects entry (List.mem_append_left _ hmem)

/-- A tail leaves a list of two or more blocks and is freed. -/
theorem removeTail_eq (h : Lists c (entries ++ [(t, o)])) (hne : entries ≠ []) :
    ∃ c', removeTail c t = some c' ∧ Lists c' entries ∧
      c'.totalSize = int32 (c.totalSize - o.size) ∧ c'.blocks t = none := by
  obtain ⟨front, u, hfront, haddresses⟩ := map_fst_concat hne t o
  have hobject : c.object t = some o := h.objects (t, o) (by simp)
  have hlinked := h.linked
  rw [haddresses] at hlinked
  obtain ⟨c₁, hdetach, hlinked₁, hobjects₁, htotal₁⟩ := detachTail_eq hlinked
  obtain ⟨b, hb, hbo⟩ := Option.map_eq_some_iff.mp ((hobjects₁ t).trans hobject)
  have htail : c₁.tail ≠ none := by
    rw [hlinked₁.tail_concat]
    exact Option.some_ne_none u
  have hkeep : ∀ a ∈ front ++ [u], (c₁.blocks.free t) a = c₁.blocks a := by
    intro a ha
    have hnodup := hlinked.nodup
    rw [List.append_cons, List.nodup_append] at hnodup
    exact Store.free_of_ne _ (hnodup.2.2 a ha t List.mem_cons_self)
  have hsize : b.size = o.size := congrArg CacheObject.size hbo
  refine ⟨{ c₁ with totalSize := int32 (c.totalSize - o.size), blocks := c₁.blocks.free t }, ?_,
    ⟨?_, fun entry hentry ↦ ?_⟩, rfl, Store.free_self ..⟩
  · simp only [removeTail, hdetach, Option.bind_eq_bind, Option.bind_some, if_neg htail, hb,
      Option.pure_def, htotal₁, hsize]
  · rw [hfront]
    exact hlinked₁.frame rfl rfl hkeep
  · have hmem : entry.1 ∈ front ++ [u] := hfront ▸ List.mem_map_of_mem hentry
    refine (congrArg _ (hkeep entry.1 hmem)).trans ?_
    exact (hobjects₁ entry.1).trans (h.objects entry (List.mem_append_left _ hentry))

/-- A new object comes before the head. -/
theorem insertBlock_eq (h : IsCache c entries) {url : List Char} {data : List UInt8} {size : ℤ}
    (hnew : c.blocks t = none) (hint : int32 (c.totalSize + size) = c.totalSize + size) :
    ∃ c', insertBlock c url data size t = some c' ∧
      IsCache c' ((t, ⟨url, data, size, 1⟩) :: entries) := by
  have ht : t ∉ entries.map Prod.fst := fun hmem ↦ by
    have hsome := h.linked.isSome hmem
    rw [hnew] at hsome
    exact absurd hsome Bool.false_ne_true
  let c₁ : Cache := { c with
    blocks := c.blocks.put t ⟨⟨url, data, size, 1⟩, none, c.head⟩ }
  have hobject₁ : c₁.object t = some ⟨url, data, size, 1⟩ := by
    simp [c₁, object]
  have hobjects₁ : ∀ entry ∈ entries, c₁.object entry.1 = some entry.2 := fun entry hentry ↦ by
    have hne : entry.1 ≠ t := ne_of_mem_of_not_mem (List.mem_map_of_mem hentry) ht
    rw [← h.objects entry hentry]
    simp only [c₁, object, Store.put_of_ne _ hne]
  have hlinked₁ : Linked c₁ (entries.map Prod.fst) := h.linked.frame rfl rfl fun a ha ↦
    Store.put_of_ne _ (ne_of_mem_of_not_mem ha ht) _
  have hprev : c₁.before (some t) = some none := by simp [c₁, Cache.before]
  have hnext : c₁.after (some t) = some c.head := by simp [c₁, Cache.after]
  have htotal : c.totalSize + size = sizes ((t, ⟨url, data, size, 1⟩) :: entries) := by
    rw [sizes_cons, h.total, add_comm]
  cases hentries : entries with
  | nil =>
    rw [hentries] at hlinked₁ hobjects₁ ht htotal
    have hhead : c.head = none := hlinked₁.head_eq
    refine ⟨{ c₁ with tail := some t, head := some t, totalSize := c.totalSize + size }, ?_,
      hlinked₁.push ht rfl hprev hnext ?_ (fun _ _ ↦ rfl) (fun w hw _ ↦ ?_), ?_, htotal⟩
    · simp only [insertBlock, hhead, Option.bind_eq_bind, Option.bind_some, Option.pure_def, hint,
        c₁]
    · rw [show c₁.head = none from hhead]
      rfl
    · obtain ⟨a, rfl⟩ := Option.ne_none_iff_exists'.mp fun heq ↦ hw (heq.trans hhead.symm)
      rfl
    · exact List.forall_mem_singleton.mpr hobject₁
  | cons entry rest =>
    rw [hentries] at hlinked₁ hobjects₁ ht htotal
    have hhead : c.head = some entry.1 := hlinked₁.head_eq
    have hta : some t ≠ some entry.1 := fun heq ↦ ht (by simp [Option.some.inj heq])
    have hentry : (c₁.object entry.1).isSome := hlinked₁.object_isSome (by simp)
    let c₂ : Cache := { c₁.withPrev entry.1 (some t) with
      head := some t, totalSize := c.totalSize + size }
    have hbefore : ∀ w, c₂.before w = (c₁.withPrev entry.1 (some t)).before w := fun w ↦ by
      cases w <;> rfl
    have hafter : ∀ a, c₂.after (some a) = c₁.after (some a) := fun a ↦
      after_withPrev c₁ entry.1 (some t) (some a)
    have hobjects : ∀ a, c₂.object a = c₁.object a := object_withPrev c₁ entry.1 (some t)
    have hint' : int32 ((c₁.withPrev entry.1 (some t)).totalSize + size) = c.totalSize + size := hint
    refine ⟨c₂, ?_, hlinked₁.push ht rfl ?_ ?_ ?_ (fun a _ ↦ hafter a) (fun w hw _ ↦ ?_), ?_,
      htotal⟩
    · simp only [insertBlock, hhead, Option.bind_eq_bind, Option.pure_def]
      rw [← hhead, setPrev_eq hentry, Option.bind_some, hint']
    · rw [hbefore, before_withPrev_of_ne hta, hprev]
    · rw [hafter, hnext]
    · rw [hbefore, show c₁.head = some entry.1 from hhead]
      exact before_withPrev_self hentry
    · rw [hbefore, before_withPrev_of_ne (fun heq ↦ hw (heq.trans hhead.symm))]
    · refine List.forall_mem_cons.mpr ⟨(hobjects t).trans hobject₁, fun other hother ↦ ?_⟩
      exact (hobjects other.1).trans (hobjects₁ other hother)

/-! ### The chains -/

/-- The `next` links lead from the head through the listed blocks. -/
theorem IsCache.forward (h : IsCache c entries) :
    Segment CacheBlock.toCacheObject CacheBlock.next c.blocks c.head entries none :=
  Links.segment (fun _ ↦ rfl) h.objects h.linked.links rfl

/-- The `prev` links lead from the tail through the listed blocks in reverse. -/
theorem IsCache.backward (h : IsCache c entries) :
    Segment CacheBlock.toCacheObject CacheBlock.prev c.blocks c.tail entries.reverse none := by
  have hlinks := h.linked.links.reverse
  have hring : (ring (entries.map Prod.fst)).reverse =
      none :: ((entries.reverse.map Prod.fst).map some ++ [none]) := by
    simp [ring]
  rw [hring] at hlinks
  exact Links.segment (fun _ ↦ rfl)
    (fun entry hentry ↦ h.objects entry (List.mem_reverse.mp hentry)) hlinks rfl

end Jungle.Proxy
