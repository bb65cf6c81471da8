import Rix.IntrusiveList
import Rix.Memset

/-!
# The physical memory manager of `pmm.c`

The state has one map for each kind of field: the links of every `list_node_t`,
the scalar fields of the `pmm_zone_t` and the flags of the `vm_page_t` at every
address. The node is the first member of both structures, so a page and its node
have one address, as have a zone and its node. `zoneList` is the address of the
static list head.
-/
namespace Rix
open Rings Fuel

/-- `base`, `size`, `page_array` and `free_count` of a `pmm_zone_t`. -/
structure PmmZone where
  base : Word
  size : Word
  pageArray : Word
  freeCount : Word
  deriving DecidableEq, Repr

inductive PmmStatus where
  | noError
  | errInvalidArenaSize
  | errContiguousPagesNotFound
  | errInvalidArgs
  deriving DecidableEq, Repr

structure Pmm where
  heap : ListHeap
  zone : Word → PmmZone
  flags : Word → Byte
  bootAllocEnd : Word

namespace Pmm

def setZone (s : Pmm) (z : Word) (v : PmmZone) : Pmm :=
  { s with zone := fun x => if x = z then v else s.zone x }

theorem setZone_zone (s : Pmm) (z : Word) (v : PmmZone) : (s.setZone z v).zone z = v := if_pos rfl

def setFlags (s : Pmm) (p : Word) (v : Byte) : Pmm :=
  { s with flags := fun x => if x = p then v else s.flags x }

end Pmm

/-- `sizeof(vm_page_t)`: a node, the flags byte and padding. -/
def sizeofVmPage : Word := 24

theorem toNat_sizeofVmPage : sizeofVmPage.toNat = 24 := rfl

/-- `&zone->free_pages`, behind the node and four words. -/
def freePages (zone : Word) : Word := zone + 48

theorem toNat_freePages {z : Word} (htop : z.toNat + 64 ≤ 2 ^ 64) :
    (freePages z).toNat = z.toNat + 48 := by
  have h48 : (48 : Word).toNat = 48 := rfl
  rw [freePages, BitVec.toNat_add, h48]
  omega

def isNonfree (flags : Byte) : Bool := flags &&& 1 != 0

def zoneFrameCount (z : PmmZone) : Word := z.size / pageSize

def addressBelongsToZone (addr : Word) (z : PmmZone) : Bool :=
  decide (z.base ≤ addr) && decide (addr ≤ z.base + z.size - 1)

/-- `PAGE_BELONGS_TO_ZONE(pgaddr, zone)`: both ends are compared as integers. -/
def pageBelongsToZone (pgaddr : Word) (z : PmmZone) : Bool :=
  decide (z.pageArray ≤ pgaddr) && decide (pgaddr < z.pageArray + zoneFrameCount z)

def pageAt (z : PmmZone) (index : Word) : Word := z.pageArray + index * sizeofVmPage

/-- `balloc` of `balloc.c`. -/
def balloc (s : Pmm) (len : Word) : Word × Pmm :=
  let ptr := roundUp s.bootAllocEnd 8
  (ptr, { s with bootAllocEnd := ptr + roundUp len 8 })

/-- `memset(dest, 0, count)` on the nodes and page flags in the range that it writes. -/
def memsetZero (s : Pmm) (dest count : Word) : Pmm :=
  { s with
    heap := ⟨fun a => if (a - dest).toNat < memsetExtent dest count then NULL else s.heap.next a,
      fun a => if (a - dest).toNat < memsetExtent dest count then NULL else s.heap.prev a⟩
    flags := fun p => if (p - dest).toNat < memsetExtent dest count then 0 else s.flags p }

/-- `page_idx < frame_count`, the 32-bit index converted to a `size_t`. -/
def addPagesCond (frameCount : Word) (st : BitVec 32 × Pmm) : Bool :=
  decide (st.1.setWidth 64 < frameCount)

/-- Links the page at the index and steps the 32-bit index. -/
def addPagesBody (zone : Word) (st : BitVec 32 × Pmm) : Option (BitVec 32 × Pmm) :=
  let (pageIdx, s) := st
  let page := pageAt (s.zone zone) (pageIdx.setWidth 64)
  let s := { s with heap := listAddTail s.heap (freePages zone) page }
  let s := s.setZone zone { s.zone zone with freeCount := (s.zone zone).freeCount + 1 }
  some (pageIdx + 1, s)

def pmmAddZone (zoneList : Word) (fuel : Nat) (s : Pmm) (zone : Word) :
    Option (PmmStatus × Pmm) :=
  if ¬ (s.zone zone).size > 0 then some (.errInvalidArgs, s)
  else
    -- add the zone to the zone list
    let s := { s with heap := listAddTail s.heap zoneList zone }
    let s := s.setZone zone { s.zone zone with freeCount := 0 }
    let s := { s with heap := listInit s.heap (freePages zone) }
    -- allocate a page for each physical frame
    let frameCount := zoneFrameCount (s.zone zone)
    let (arr, s) := balloc s (frameCount * sizeofVmPage)
    let s := s.setZone zone { s.zone zone with pageArray := arr }
    let s := memsetZero s arr (frameCount * sizeofVmPage)
    -- add the allocated pages to the free list
    (whileLoop (addPagesCond frameCount) (addPagesBody zone) fuel (0, s)).map
      fun st => (.noError, st.2)

/-- The loop body of `pmm_alloc_page`; the second component is `*out_page`. -/
def allocPageBody (zone : Word) : Pmm × Word → Option (Flow (Pmm × Word))
  | (s, out) =>
    if (s.zone zone).freeCount > 0 then
      let (page, heap) := listRemoveHead s.heap (freePages zone)
      let s := { s with heap := heap }
      if page = NULL then some (.stop (s, out))
      else
        let s := s.setZone zone { s.zone zone with freeCount := (s.zone zone).freeCount - 1 }
        let s := s.setFlags page (s.flags page ||| 1)
        some (.stop (s, page))
    else some (.next (s, out))

/-- `out` is what `*out_page` holds before the call; the last result is what it holds after. -/
def pmmAllocPage (zoneList : Word) (fuel : Nat) (s : Pmm) (out : Word) :
    Option (PmmStatus × Pmm × Word) :=
  (listForEach (fun st => st.1.heap) zoneList allocPageBody fuel (s, out)).map
    fun st => (.noError, st.1, st.2)

/-- State of the two loops of `pmm_alloc_pages`; `done` is set by `goto done`. -/
structure AllocLoop where
  s : Pmm
  allocated : BitVec 32
  done : Bool

def allocPagesPass (zone : Word) (count : BitVec 32) (list : Word) (st : AllocLoop) :
    Option (Flow AllocLoop) :=
  if st.allocated < count ∧ (st.s.zone zone).freeCount > 0 then
    let (page, heap) := listRemoveHead st.s.heap (freePages zone)
    let s := { st.s with heap := heap }
    if page = NULL then some (.stop { st with s := s, done := true })
    else
      let s := s.setFlags page (s.flags page ||| 1)
      let s := { s with heap := listAddTail s.heap list page }
      let s := s.setZone zone { s.zone zone with freeCount := (s.zone zone).freeCount - 1 }
      some (.next { st with s := s, allocated := st.allocated + 1 })
  else some (.stop st)

def allocPagesBody (count : BitVec 32) (list : Word) (fuel : Nat) (zone : Word)
    (st : AllocLoop) : Option (Flow AllocLoop) :=
  match loop (allocPagesPass zone count list) fuel st with
  | none => none
  | some st =>
    if st.done then some (.stop st)
    -- break when the required number of pages has been allocated
    else if st.allocated = count then some (.stop st)
    else some (.next st)

/-- `page` is the prior content of the uninitialised local. The results are the status,
`*count` and the state. -/
def pmmAllocPages (zoneList : Word) (fuel : Nat) (s : Pmm) (count : BitVec 32) (list page : Word) :
    Option (PmmStatus × BitVec 32 × Pmm) :=
  -- fast path
  if count = 0 then some (.noError, count, s)
  else if count = 1 then
    match pmmAllocPage zoneList fuel s page with
    | none => none
    | some (status, s, page) =>
      if status = .noError then
        some (status, 1, { s with heap := listAddTail s.heap list page })
      else some (status, 0, s)
  else
    (listForEach (fun st => st.s.heap) zoneList (allocPagesBody count list fuel) fuel
      ⟨s, 0, false⟩).map fun st => (.noError, st.allocated, st.s)

structure RangeLoop where
  s : Pmm
  address : Word
  allocated : Word

/-- One pass of the inner loop over consecutive frames of a zone. A store through the null
list head faults, which is `none`. -/
def allocRangePass (zone count list : Word) (st : RangeLoop) : Option (Flow RangeLoop) :=
  if st.allocated < count ∧ addressBelongsToZone st.address (st.s.zone zone) then
    let index := (st.address - (st.s.zone zone).base) / pageSize
    let page := pageAt (st.s.zone zone) index
    if isNonfree (st.s.flags page) then
      -- the page is already allocated
      some (.stop st)
    else
      let s := { st.s with heap := listDelete st.s.heap page }
      let s := s.setFlags page (s.flags page ||| 1)
      if list = NULL then none
      else
        let s := { s with heap := listAddTail s.heap list page }
        let s := s.setZone zone { s.zone zone with freeCount := (s.zone zone).freeCount - 1 }
        some (.next ⟨s, st.address + pageSize, st.allocated + 1⟩)
  else some (.stop st)

def allocRangeBody (count list : Word) (fuel : Nat) (zone : Word) (st : RangeLoop) :
    Option (Flow RangeLoop) :=
  match loop (allocRangePass zone count list) fuel st with
  | none => none
  | some st => if st.allocated = count then some (.stop st) else some (.next st)

def pmmAllocRange (zoneList : Word) (fuel : Nat) (s : Pmm) (address count list : Word) :
    Option (Word × Pmm) :=
  let address := roundDown address pageSize
  if count = 0 then some (0, s)
  else
    (listForEach (fun st => st.s.heap) zoneList (allocRangeBody count list fuel) fuel
      ⟨s, address, 0⟩).map fun st => (st.allocated, st.s)

/-- The body of the search for the zone of `page` in `pmm_free_pages`; the state carries
`count`. -/
def freePageBody (page zone : Word) : Pmm × Word → Option (Flow (Pmm × Word))
  | (s, count) =>
    if pageBelongsToZone page (s.zone zone) then
      let s := s.setFlags page (s.flags page &&& ~~~1)
      let s := { s with heap := listAdd s.heap (freePages zone) page }
      let s := s.setZone zone { s.zone zone with freeCount := (s.zone zone).freeCount + 1 }
      some (.stop (s, count + 1))
    else some (.next (s, count))

def freePagesBody (zoneList head : Word) (fuel : Nat) : Pmm × Word → Option (Pmm × Word)
  | (s, count) =>
    let (page, heap) := listRemoveHead s.heap head
    let s := { s with heap := heap }
    listForEach (fun st => st.1.heap) zoneList (freePageBody page) fuel (s, count)

def pmmFreePages (zoneList : Word) (fuel : Nat) (s : Pmm) (head : Word) : Option (Word × Pmm) :=
  (whileLoop (fun st => !listIsEmpty st.1.heap head) (freePagesBody zoneList head fuel) fuel
    (s, 0)).map fun st => (st.2, st.1)

/-- `list` is the address of the local list head. -/
def pmmFreePage (zoneList : Word) (fuel : Nat) (s : Pmm) (page list : Word) :
    Option (Word × Pmm) :=
  let s := { s with heap := listInit s.heap list }
  let s := { s with heap := listAdd s.heap list page }
  pmmFreePages zoneList fuel s list

end Rix
