import Rix.BootWalk
import Rix.PageMap
import Rix.PmmPages

/-!
# Kernel pages and the kernel heap

`pmm_alloc_kpages` turns the page that `pmm_alloc_page` gave it into a kernel address, and
`kheap_init` makes one free chunk of that page.
-/
namespace Rix
open Rings Fuel

/-- `page` is the prior content of the uninitialised local. For any other count the function ends
without a return statement. -/
def pmmAllocKpages (zoneList : Word) (fuel : Nat) (s : Pmm) (count page : Word) :
    Option (Word × Pmm) :=
  -- fast path for a single page
  if count = 1 then do
    let (_, s, page) ← pmmAllocPage zoneList fuel s page
    if page = NULL then some (NULL, s)
    else do
      let pa ← vmPageToPaddr zoneList fuel s page
      let kva ← paddrToKvaddr pa
      some (kva, s)
  else none

def kpageAlloc (zoneList : Word) (fuel : Nat) (s : Pmm) (pages page : Word) : Option (Word × Pmm) :=
  pmmAllocKpages zoneList fuel s pages page

/-- The first result is `*size_return`. -/
def kpageFirstAlloc (zoneList : Word) (fuel : Nat) (s : Pmm) (page : Word) :
    Option (Word × Word × Pmm) := do
  let (ptr, s) ← kpageAlloc zoneList fuel s 1 page
  some (pageSize, ptr, s)

/-- `base`, `len` and `remaining` of `kheap`, and the `len` field of the chunk at every address.
The links of the chunks and of the head of `kheap.free_list` are those of the list heap. -/
structure Kheap where
  base : Word
  len : Word
  remaining : Word
  chunkLen : Word → Word

/-- The store to the chunk faults at the null pointer. -/
def heapCreateFreeChunk (h : Kheap) (ptr len : Word) : Option (Word × Kheap) :=
  if ptr = NULL then none
  else some (ptr, { h with chunkLen := Function.update h.chunkLen ptr len })

/-- The body of the search for the chunk that follows; the second component tells whether the
chunk has been linked. -/
def insertChunkBody (chunk nextChunk : Word) : ListHeap × Bool → Option (Flow (ListHeap × Bool))
  | (heap, linked) =>
    if chunk < nextChunk then some (.stop (listAddTail heap nextChunk chunk, true))
    else some (.next (heap, linked))

/-- `freeList` is `&kheap.free_list`. -/
def heapInsertFreeChunk (freeList : Word) (fuel : Nat) (s : Pmm) (h : Kheap) (chunk : Word) :
    Option (Pmm × Kheap) := do
  let h := { h with remaining := h.remaining + h.chunkLen chunk }
  let (heap, linked) ← listForEach Prod.fst freeList (insertChunkBody chunk) fuel (s.heap, false)
  if linked then some ({ s with heap := heap }, h)
  else some ({ s with heap := listAdd heap freeList chunk }, h)

def kheapInit (zoneList freeList : Word) (fuel : Nat) (s : Pmm) (h : Kheap) (page : Word) :
    Option (Pmm × Kheap) := do
  let (len, ptr, s) ← kpageFirstAlloc zoneList fuel s page
  -- initialize the free list
  let s := { s with heap := listInit s.heap freeList }
  -- align the buffer to a pointer
  let (len, ptr) := if ptr % 8 > 0 then (len - (roundUp ptr 8 - ptr), roundUp ptr 8) else (len, ptr)
  let h := { h with base := ptr, len := len, remaining := 0 }
  if len > 0 then do
    let (chunk, h) ← heapCreateFreeChunk h ptr len
    heapInsertFreeChunk freeList fuel s h chunk
  else some (s, h)

def FirstFree (P : Snapshot) (z p : Word) : Prop :=
  ∃ fr more, (∀ w ∈ P.zs, Ring P.s.heap (freePages w) (fr w)) ∧
    freeInOrder P.zs fr = (z, p) :: more

/-- A call of `pmm_alloc_kpages(1)` and of `kheap_init` in a snapshot report whether there is a
page. -/
structure OutOfMemoryReported (zoneList freeList : Word) (P : Snapshot) (h : Kheap) (page : Word) :
    Prop where
  none : (∀ p, ¬ P.Free p) → Settles (fun n => pmmAllocKpages zoneList n P.s 1 page) (NULL, P.s)
  some : (∃ p, P.Free p) → ∃ r s' z i,
    Settles (fun n => pmmAllocKpages zoneList n P.s 1 page) (r, s') ∧
    z ∈ P.zs ∧ i < frames (P.s.zone z) ∧
    isNonfree (P.s.flags (pageAt (P.s.zone z) (BitVec.ofNat 64 i))) = false ∧
    isNonfree (s'.flags (pageAt (P.s.zone z) (BitVec.ofNat 64 i))) = true ∧
    (((P.s.zone z).base + BitVec.ofNat 64 (4096 * i)).toNat < 2 ^ 36 →
      r = kernelAspaceBase + ((P.s.zone z).base + BitVec.ofNat 64 (4096 * i)))
  heap : ∀ s', Settles (fun n => pmmAllocKpages zoneList n P.s 1 page) (NULL, s') →
    ∃ s'' h', Settles (fun n => kheapInit zoneList freeList n P.s h page) (s'', h') ∧
      Ring s''.heap freeList [] ∧ h'.remaining = 0

def kernelAddress (z : PmmZone) (i : ℕ) : Word :=
  if 24 * i < frames z ∧ (z.base + BitVec.ofNat 64 (4096 * i)).toNat < 2 ^ 36 then
    kernelAspaceBase + (z.base + BitVec.ofNat 64 (4096 * i))
  else NULL

theorem paddrToKvaddr_entry (z : PmmZone) (i : ℕ) :
    paddrToKvaddr (if 24 * i < frames z then z.base + BitVec.ofNat 64 (4096 * i) else -1) =
      some (kernelAddress z i) := by
  unfold kernelAddress
  by_cases hlt : 24 * i < frames z
  · rw [if_pos hlt]
    by_cases hpa : (z.base + BitVec.ofNat 64 (4096 * i)).toNat < 2 ^ 36
    · rw [if_pos ⟨hlt, hpa⟩, paddrToKvaddr_of_lt hpa]
    · rw [if_neg fun h => hpa h.2, paddrToKvaddr_of_le (Nat.not_lt.mp hpa)]
  · rw [if_neg hlt, if_neg fun h => hlt h.1, paddrToKvaddr_of_le (by decide)]

theorem kernelAspaceBase_add_ne_null {pa : Word} (h : pa.toNat < 2 ^ 36) :
    kernelAspaceBase + pa ≠ NULL := by
  intro hnull
  have hnat := congrArg BitVec.toNat hnull
  rw [BitVec.toNat_add, toNat_kernelAspaceBase,
    toNat_null] at hnat
  omega

section

variable {zoneList freeList page z p : Word} {P : Snapshot} {F : Family Word} {s' : Pmm} {h : Kheap}
  {i : ℕ}

/-- The heap makes a chunk at the null pointer when it gets no page. -/
theorem not_settles_kheapInit
    (hnull : Settles (fun n => pmmAllocKpages zoneList n P.s 1 page) (NULL, s')) (r : Pmm × Kheap) :
    ¬ Settles (fun n => kheapInit zoneList freeList n P.s h page) r := by
  obtain ⟨N, hN⟩ := hnull
  refine not_settles_of_eq_none ⟨N, fun n hn => ?_⟩ r
  have hpage : pmmAllocKpages zoneList n P.s 1 page = some (NULL, s') := hN n hn
  have halloc : kpageFirstAlloc zoneList n P.s page = some (pageSize, NULL, s') := by
    rw [kpageFirstAlloc, kpageAlloc, hpage]
    rfl
  rw [kheapInit, halloc]
  rfl

/-- A page that is free is taken, and its address is found or not. -/
theorem settles_pmmAllocKpages (hi : PmmInv zoneList P.s F P.zs) {more : List (Word × Word)}
    (hlt : i < frames (P.s.zone z))
    (hfree : freeOf F P.zs = (z, pageAt (P.s.zone z) (BitVec.ofNat 64 i)) :: more) (page : Word) :
    Settles (fun n => pmmAllocKpages zoneList n P.s 1 page)
      (kernelAddress (P.s.zone z) i, P.s.take z (pageAt (P.s.zone z) (BitVec.ofNat 64 i))) := by
  obtain ⟨hz, fr, hF, hp⟩ := mem_freeOf.mp (show
    (z, pageAt (P.s.zone z) (BitVec.ofNat 64 i)) ∈ freeOf F P.zs by rw [hfree]; simp)
  have hne := ((hi.free_eq hz hF).2 _).mp hp |>.1.ne_null (hi.geometry z hz)
  have hshape := P.s.take_shape z (pageAt (P.s.zone z) (BitVec.ofNat 64 i)) z
  have hpaddr := (hi.take hz hF hp).1.pageArrays.settles_vmPageToPaddr hz
    ((frames_congr hshape).symm ▸ hlt)
  rw [frames_congr hshape, pageAt_congr hshape, (Prod.mk.inj hshape).1] at hpaddr
  have hpage := settles_pmmAllocPage hi page
  rw [hfree] at hpage
  obtain ⟨N, hN⟩ := hpage
  obtain ⟨M, hM⟩ := hpaddr
  refine ⟨max N M, fun n hn => ?_⟩
  simp only [pmmAllocKpages, if_true, hN n (le_trans (Nat.le_max_left N M) hn), Option.bind_eq_bind,
    Option.bind_some, if_neg hne, hM n (le_trans (Nat.le_max_right N M) hn), paddrToKvaddr_entry]

theorem firstFree_iff (hi : PmmInv zoneList P.s F P.zs) :
    FirstFree P z p ↔ ∃ more, freeOf F P.zs = (z, p) :: more := by
  have hrings : ∀ w ∈ P.zs, Ring P.s.heap (freePages w) (freeListOf F w) := fun w hw =>
    hi.lists.rep.ring (hi.freeListOf_eq hw)
  constructor
  · rintro ⟨fr, more, hfr, hfirst⟩
    have hsame : freeInOrder P.zs fr = freeOf F P.zs := by
      rw [freeOf_eq_freeInOrder, freeInOrder, freeInOrder]
      refine List.flatMap_congr fun w hw => ?_
      rw [(hfr w hw).unique (hrings w hw)]
    exact ⟨more, hsame ▸ hfirst⟩
  · rintro ⟨more, hfirst⟩
    exact ⟨freeListOf F, more, hrings, freeOf_eq_freeInOrder F P.zs ▸ hfirst⟩

/-- A failure is reported all the way up when, and only when, there is a free page and the first
of them has an address that the kernel finds. -/
theorem outOfMemory_reported_iff (hr : PmmReach zoneList (fun _ _ => True) P) :
    OutOfMemoryReported zoneList freeList P h page ↔
      ∃ z ∈ P.zs, ∃ i < frames (P.s.zone z),
        FirstFree P z (pageAt (P.s.zone z) (BitVec.ofNat 64 i)) ∧ 24 * i < frames (P.s.zone z) ∧
        ((P.s.zone z).base + BitVec.ofNat 64 (4096 * i)).toNat < 2 ^ 36 := by
  obtain ⟨F, hi, ho⟩ := hr.sound.inv
  constructor
  · intro hrep
    -- a call that gives no page makes the heap fault
    have hnotnull : ∀ s', ¬ Settles (fun n => pmmAllocKpages zoneList n P.s 1 page) (NULL, s') := by
      intro s' hnull
      obtain ⟨s'', h', hset, -⟩ := hrep.heap s' hnull
      exact not_settles_kheapInit hnull _ hset
    have hyes : ∃ p, P.Free p := by
      by_contra hno
      exact hnotnull P.s (hrep.none (not_exists.mp hno))
    obtain ⟨⟨z, p⟩, more, hfree⟩ := List.exists_cons_of_ne_nil ((free_iff hi).mp hyes)
    obtain ⟨hz, fr, hF, hp⟩ := mem_freeOf.mp (show (z, p) ∈ freeOf F P.zs by simp [hfree])
    dsimp only at hz hF hp
    obtain ⟨i, hlt, rfl⟩ := (((hi.free_eq hz hF).2 p).mp hp).1
    have hset := settles_pmmAllocKpages hi hlt hfree page
    refine ⟨z, hz, i, hlt, (firstFree_iff hi).mpr ⟨more, hfree⟩, ?_⟩
    by_contra hcond
    rw [kernelAddress, if_neg hcond] at hset
    exact hnotnull _ hset
  · rintro ⟨z, hz, i, hlt, hfirst, hfound, hpa⟩
    obtain ⟨more, hfree⟩ := (firstFree_iff hi).mp hfirst
    have hset := settles_pmmAllocKpages hi hlt hfree page
    obtain ⟨-, fr, hF, hp⟩ := mem_freeOf.mp (show
      (z, pageAt (P.s.zone z) (BitVec.ofNat 64 i)) ∈ freeOf F P.zs by rw [hfree]; simp)
    have hpage := ((hi.free_eq hz hF).2 _).mp hp
    have haddr : kernelAddress (P.s.zone z) i =
        kernelAspaceBase + ((P.s.zone z).base + BitVec.ofNat 64 (4096 * i)) := if_pos ⟨hfound, hpa⟩
    refine ⟨fun hno => absurd ⟨z, hz, hpage⟩ (hno _), fun _ => ?_, fun s' hnull => ?_⟩
    · refine ⟨_, _, z, i, hset, hz, hlt, hpage.2, ?_, fun _ => haddr⟩
      rw [Pmm.take_flags, if_pos rfl]
      exact isNonfree_or _
    · have := congrArg Prod.fst (hset.unique hnull)
      rw [haddr] at this
      exact absurd this (kernelAspaceBase_add_ne_null hpa)

end

theorem sample_firstFree : ∃ P, PmmReach 64 (fun _ _ => True) P ∧ P.zs = [4096] ∧
    (P.s.zone 4096).shape = (0x100000, 8192, 65536) ∧ FirstFree P 4096 65536 := by
  have hr : PmmReach 64 (fun _ _ => True) sampleStart := .init _ (by decide) rfl rfl
  obtain ⟨F, hi, ho⟩ := hr.sound.inv
  have hf := freshZone_of_offer hi ho sampleStart_offer
  obtain ⟨s', hset, hadded⟩ := settles_pmmAddZone hi.lists hi.zones sampleStart_offer.size_pos hf
  have hpages : newPages sampleStart.s (frames (sampleStart.s.zone 4096)) = [65536, 65560] := by
    decide +kernel
  have hfree : Ring s'.heap (freePages 4096) [65536, 65560] :=
    hpages ▸ hadded.lists.rep.ring (Function.update_self ..)
  have hret : (PmmCall.addZone 4096).Returns 64 sampleStart [] s' := ⟨rfl, _, hset⟩
  refine ⟨_, hr.call (c := .addZone 4096) sampleStart_offer trivial hret, rfl, ?_,
    fun _ => [65536, 65560], [(4096, 65560)], fun w hw => ?_, rfl⟩
  · simp only [Snapshot.after, hadded.zone]
    decide
  · rw [show w = 4096 from List.mem_singleton.mp hw]
    exact hfree

theorem outOfMemory_reported_iff_sample : ∃ P : Snapshot, P.zs = [4096] ∧
    OutOfMemoryReported 64 128 P ⟨0, 0, 0, fun _ => 0⟩ 0 := by
  obtain ⟨P, hr, hzs, hshape, hfirst⟩ := sample_firstFree
  have hframes := (isPage_sample hshape).1
  simp only [PmmZone.shape, Prod.mk.injEq] at hshape
  have hpage : pageAt (P.s.zone 4096) (BitVec.ofNat 64 0) = 65536 := by
    rw [pageAt, hshape.2.2]
    rfl
  have hpos : 0 < frames (P.s.zone 4096) := hframes ▸ Nat.zero_lt_two
  refine ⟨P, hzs, (outOfMemory_reported_iff hr).mpr ⟨4096, by simp [hzs], 0, hpos,
    hpage.symm ▸ hfirst, hpos, ?_⟩⟩
  rw [hshape.1]
  decide

/-- With no zone at all, the heap gets no page and makes its chunk at the null pointer. -/
theorem unreported_of_none : ¬ ∀ (zoneList freeList : Word) (P : Snapshot) (h : Kheap)
    (page : Word), PmmReach zoneList (fun _ _ => True) P →
    OutOfMemoryReported zoneList freeList P h page := by
  intro hall
  have hr : PmmReach 64 (fun _ _ => True) sampleStart := .init _ (by decide) rfl rfl
  have hno : ∀ p, ¬ sampleStart.Free p := fun p hp => by
    obtain ⟨z, hz, -⟩ := hp
    exact absurd hz List.not_mem_nil
  have hrep := hall 64 128 sampleStart ⟨0, 0, 0, fun _ => 0⟩ 0 hr
  obtain ⟨s'', h', hset, -⟩ := hrep.heap _ (hrep.none hno)
  exact not_settles_kheapInit (hrep.none hno) _ hset

end Rix
