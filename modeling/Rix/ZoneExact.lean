import Rix.PmmSafety

/-!
# What `pmm_add_zone` does with any zone

The page loop compares an index of 32 bits with a frame count of 64 bits, and the `memset` before
it clears as much memory behind the page array as in it. For the zones that neither of the two
concerns the free list holds the page array from its first page to its last.
-/
namespace Rix
open Rings Fuel

/-- A zone of a size gets a free list of all its pages, each once and in ascending order, and their
number; a zone of no size is refused, and nothing is changed. -/
def AddZoneExact (zoneList : Word) (s : Pmm) (z : Word) : Prop :=
  if (s.zone z).size = 0 then ∀ fuel, pmmAddZone zoneList fuel s z = some (.errInvalidArgs, s)
  else ∃ s', Settles (fun fuel => pmmAddZone zoneList fuel s z) (.noError, s') ∧
    (s'.zone z).freeCount.toNat = (s.zone z).size.toNat / 4096 ∧
    (pagesOf (s'.zone z)).length = (s.zone z).size.toNat / 4096 ∧
    Ring s'.heap (freePages z) (pagesOf (s'.zone z))

/-- `memset` clears what is at the address: the array and as much memory behind it, which goes on at
address 0 behind the last address. -/
def MemsetClears (s : Pmm) (z x : Word) : Prop :=
  (x - nextArray s).toNat < 48 * frames (s.zone z)

/-- The address lies in the 64 bytes of the `pmm_zone_t`. -/
def InZoneObject (z x : Word) : Prop := z.toNat ≤ x.toNat ∧ x.toNat < z.toNat + 64

/-- A zone object apart from a page array that can be addressed. What `memset` clears does not begin
or end inside the object. -/
structure ZoneObject (s : Pmm) (z : Word) : Prop where
  top : z.toNat + 64 ≤ 2 ^ 64
  array_top : (nextArray s).toNat + 24 * frames (s.zone z) ≤ 2 ^ 64
  apart : ∀ {x}, InZoneObject z x → ¬ InNextArray s z x
  whole : ∀ {x}, InZoneObject z x → (MemsetClears s z x ↔ MemsetClears s z z)

section

variable {zoneList : Word} {s s' : Pmm} {z : Word} {i : ℕ}

namespace ZoneObject

theorem inZoneObject_freePages (ho : ZoneObject s z) : InZoneObject z (freePages z) := by
  rw [InZoneObject, toNat_freePages ho.top]
  omega

theorem freePages_ne_null (ho : ZoneObject s z) : freePages z ≠ NULL := by
  intro h
  have htoNat := toNat_freePages ho.top
  rw [h, toNat_null] at htoNat
  omega

theorem freePages_ne_page (ho : ZoneObject s z) (hi : i < frames (s.zone z)) :
    freePages z ≠ newPage s i := by
  intro h
  apply ho.apart ho.inZoneObject_freePages
  rw [h]
  exact newPage_in ho.array_top hi

end ZoneObject

structure PagesLinked (s : Pmm) (z : Word) (links : ℕ → ListHeap → Prop) (i : ℕ) (s' : Pmm) :
    Prop where
  size : (s'.zone z).size = (s.zone z).size
  pageArray : (s'.zone z).pageArray = nextArray s
  freeCount : (s'.zone z).freeCount = BitVec.ofNat 64 i
  links : links i s'.heap

theorem exists_pagesLinked {links : ℕ → ListHeap → Prop} (hsize : (s.zone z).size > 0)
    (hlt : frames (s.zone z) < 2 ^ 32) (hstart : links 0 (zoneCleared zoneList s z).heap)
    (hstep : ∀ i H, i < frames (s.zone z) → links i H →
      links (i + 1) (listAddTail H (freePages z) (newPage s i))) :
    ∃ s', Settles (fun n => pmmAddZone zoneList n s z) (.noError, s') ∧
      PagesLinked s z links (frames (s.zone z)) s' := by
  refine settles_addPages hsize hlt ⟨?_, ?_, ?_, hstart⟩ fun i s' hi h => ?_
  · rw [zoneCleared_zone]
  · rw [zoneCleared_zone]
  · rw [zoneCleared_zone]
    rfl
  · refine ⟨_, addPagesBody_eq h.pageArray (by omega), ?_, ?_, ?_, hstep i s'.heap hi h.links⟩
    · rw [Pmm.setZone_zone]
      exact h.size
    · rw [Pmm.setZone_zone]
      exact h.pageArray
    · rw [Pmm.setZone_zone, h.freeCount, BitVec.ofNat_add]
      rfl

theorem PagesLinked.pagesOf_eq {links : ℕ → ListHeap → Prop} (h : PagesLinked s z links i s') :
    pagesOf (s'.zone z) = newPages s (frames (s.zone z)) := by
  rw [pagesOf, frames, h.size]
  refine List.map_congr_left fun i _ => ?_
  rw [pageAt, h.pageArray]
  rfl

theorem prev_freePages_zoneCleared : (zoneCleared zoneList s z).heap.prev (freePages z) =
    if (freePages z - nextArray s).toNat < 48 * frames (s.zone z) then NULL else freePages z := by
  simp only [zoneCleared, memsetZero, memsetExtent_count, listInit, Links.setPrev_prev, if_true]

theorem next_freePages_zoneCleared : (zoneCleared zoneList s z).heap.next (freePages z) =
    if (freePages z - nextArray s).toNat < 48 * frames (s.zone z) then NULL else freePages z := by
  simp only [zoneCleared, memsetZero, memsetExtent_count, listInit, Links.setPrev_next,
    Links.setNext_next, if_true]

/-- A head that `memset` spares gets the pages one behind the other. -/
theorem exists_ring (ho : ZoneObject s z) (hsize : (s.zone z).size > 0)
    (hlt : frames (s.zone z) < 2 ^ 32) (hclear : ¬ MemsetClears s z (freePages z)) :
    ∃ s', Settles (fun n => pmmAddZone zoneList n s z) (.noError, s') ∧
      PagesLinked s z (fun i H => Ring H (freePages z) (newPages s i)) (frames (s.zone z)) s' := by
  refine exists_pagesLinked hsize hlt ?_ fun i H hi hring => ?_
  · apply Ring.of_self
    · rw [next_freePages_zoneCleared]
      exact if_neg hclear
    · rw [prev_freePages_zoneCleared]
      exact if_neg hclear
  · have hhead := ho.freePages_ne_page hi
    rw [listAddTail_eq hhead, newPages_succ]
    apply hring.linkBefore
    rw [List.mem_cons, not_or]
    exact ⟨hhead.symm, newPage_not_mem ho.array_top hi⟩

/-- A head that `memset` clears gets a first page whose `prev` stays `NULL`. -/
theorem exists_null (ho : ZoneObject s z) (hsize : (s.zone z).size > 0)
    (hlt : frames (s.zone z) < 2 ^ 32) (hclear : MemsetClears s z (freePages z)) :
    ∃ s', Settles (fun n => pmmAddZone zoneList n s z) (.noError, s') ∧
      PagesLinked s z (fun i H => H.prev (if i = 0 then freePages z else newPage s 0) = NULL)
        (frames (s.zone z)) s' := by
  refine exists_pagesLinked hsize hlt ?_ fun i H hi hnull => ?_
  · rw [if_pos rfl, prev_freePages_zoneCleared]
    exact if_pos hclear
  · rw [if_neg (Nat.succ_ne_zero i)]
    have hfirst : newPage s 0 ≠ freePages z := (ho.freePages_ne_page (by omega)).symm
    simp only [listAddTail, Links.setNext_prev, Links.setPrev_prev, if_neg hfirst]
    by_cases h : i = 0
    · rw [if_pos h] at hnull
      rw [h, if_pos rfl, hnull]
    · rw [if_neg h] at hnull
      rw [if_neg, hnull]
      intro he
      exact h (newPage_inj ho.array_top (by omega) hi he).symm

theorem prev_newPage_zero {H : ListHeap} {n : ℕ} (h : Ring H (freePages z) (newPages s n)) (hn : 0 < n) :
    H.prev (newPage s 0) = freePages z := by
  obtain ⟨n, rfl⟩ := Nat.exists_eq_succ_of_ne_zero (Nat.pos_iff_ne_zero.mp hn)
  have hseg := h.seg
  rw [newPages, List.range_succ_eq_map, List.map_cons] at hseg
  exact hseg.2.1

/-- A zone is added as its size says exactly when it has no size, or else fewer than `2^32` frames and
an object that the `memset` of its page array does not reach. -/
theorem addZoneExact_iff (ho : ZoneObject s z) : AddZoneExact zoneList s z ↔
    (s.zone z).size = 0 ∨ (frames (s.zone z) < 2 ^ 32 ∧ ¬ MemsetClears s z z) := by
  unfold AddZoneExact
  by_cases hzero : (s.zone z).size = 0
  · simp only [hzero, if_true, true_or, iff_true]
    exact pmmAddZone_zero hzero
  have hsize : (s.zone z).size > 0 := (BitVec.pos_iff_ne_zero _).mpr hzero
  simp only [hzero, if_false, false_or, ← ho.whole ho.inZoneObject_freePages]
  constructor
  · rintro ⟨s', hrun, -, -, hring⟩
    have hlt : frames (s.zone z) < 2 ^ 32 := by
      by_contra hge
      exact not_settles (pmmAddZone_eq_none (by omega)) _ hrun
    refine ⟨hlt, fun hclear => ?_⟩
    obtain ⟨s'', hrun'', h⟩ := @exists_null zoneList _ _ ho hsize hlt hclear
    cases hrun.unique hrun''
    have hpos : 0 < frames (s.zone z) := by
      unfold MemsetClears at hclear
      omega
    have hnull := h.links
    rw [if_neg (by omega), prev_newPage_zero (h.pagesOf_eq ▸ hring) hpos] at hnull
    exact ho.freePages_ne_null hnull
  · rintro ⟨hlt, hclear⟩
    obtain ⟨s', hrun, h⟩ := @exists_ring zoneList _ _ ho hsize hlt hclear
    refine ⟨s', hrun, ?_, ?_, ?_⟩
    · rw [h.freeCount, BitVec.toNat_ofNat]
      exact Nat.mod_eq_of_lt (by omega)
    · rw [h.pagesOf_eq, newPages, List.length_map, List.length_range]
      rfl
    · rw [h.pagesOf_eq]
      exact h.links

end

def zoneOfSize (size : Word) : Pmm where
  heap := ⟨fun _ => 0, fun _ => 0⟩
  zone := fun _ => ⟨0, size, 0, 0⟩
  flags := fun _ => 0
  bootAllocEnd := 0x100003

theorem nextArray_zoneOfSize : (nextArray (zoneOfSize 0x2800)).toNat = 0x100008 := by decide

theorem not_memsetClears_zoneOfSize {x : Word} (hx : InZoneObject 0x900 x) :
    ¬ MemsetClears (zoneOfSize 0x2800) 0x900 x := by
  intro hclear
  obtain ⟨h1, h2⟩ := hx
  have hz : (0x900 : Word).toNat = 0x900 := rfl
  have hframes : frames ((zoneOfSize 0x2800).zone 0x900) = 2 := by decide
  rw [MemsetClears, BitVec.toNat_sub, nextArray_zoneOfSize, hframes] at hclear
  omega

theorem zoneObject_zoneOfSize : ZoneObject (zoneOfSize 0x2800) 0x900 := by
  have hz : InZoneObject 0x900 0x900 := ⟨le_rfl, by omega⟩
  refine ⟨by decide, by decide, ?_, fun hx =>
    iff_of_false (not_memsetClears_zoneOfSize hx) (not_memsetClears_zoneOfSize hz)⟩
  rintro x ⟨h1, h2⟩ ⟨h3, -⟩
  have hz : (0x900 : Word).toNat = 0x900 := rfl
  rw [nextArray_zoneOfSize] at h3
  omega

/-- Two frames and a rest. -/
theorem addZoneExact_two : AddZoneExact 0x800 (zoneOfSize 0x2800) 0x900 := by
  have hz : InZoneObject 0x900 0x900 := ⟨le_rfl, by omega⟩
  apply (addZoneExact_iff zoneObject_zoneOfSize).mpr
  exact .inr ⟨by decide, not_memsetClears_zoneOfSize hz⟩

/-- A zone of `2^32` frames is never added. -/
theorem addZone_endless : ¬ AddZoneExact 0x800 (zoneOfSize 0x100000000000) 0x900 := by
  have hzero : ¬ ((zoneOfSize 0x100000000000).zone 0x900).size = 0 := by decide
  rw [AddZoneExact, if_neg hzero]
  rintro ⟨s', hrun, -⟩
  exact not_settles (pmmAddZone_eq_none (by decide)) _ hrun

end Rix
