import Rix.Fuel
import Rix.Memory

/-!
# The boot memory map of `platform.c`

`init_boot_state` walks the tags of the multiboot2 information block and the entries
of its memory map. A load outside the readable memory has no result. No store is held
to `mem_high_zones`: what goes behind the array and is still in `bst` is written there,
and what goes behind `bst` is left out.
-/
namespace Rix
open Fuel

/-- `phys_zone_t`. -/
structure PhysZone where
  base : Word
  size : Word
  deriving DecidableEq, Repr, Inhabited

/-- `boot_state_t`. -/
structure BootState where
  memLower : BitVec 32
  memHighZones : Vector PhysZone 10
  numHighZones : Word
  deriving DecidableEq, Repr

def BootState.regions (bst : BootState) : List PhysZone :=
  bst.memHighZones.toList.take bst.numHighZones.toNat

def highmemPaddr : Word := 0x100000

/-- The members of `multiboot2_tag_type` and `multiboot2_mmap_memory_status` the code tests. -/
def multiboot2TagTypeEnd : BitVec 32 := 0
def multiboot2TagTypeMmap : BitVec 32 := 6
def multiboot2MmapMemoryAvailable : BitVec 32 := 1

def sizeofMmapEntry : Word := 24

structure MmapLoop where
  mmap : Word
  count : BitVec 32
  bst : BootState

/-- `bst.mem_high_zones[count++] = zone; bst.num_high_zones++`. -/
def pushHighZone (bst : BootState) (count : BitVec 32) (zone : PhysZone) : BootState :=
  if h : count.toNat < 10 then
    { bst with
      memHighZones := bst.memHighZones.set count.toNat zone h
      numHighZones := bst.numHighZones + 1 }
  else if count = 10 then
    -- `num_high_zones` lies where the base of an eleventh element would
    { bst with numHighZones := zone.base + 1 }
  else
    -- the store is wholly behind `bst`
    { bst with numHighZones := bst.numHighZones + 1 }

def mmapBody (m : Word → Option Byte) (st : MmapLoop) : Option MmapLoop := do
  -- save the low memory
  let addr ← load64 m st.mmap
  let bst ←
    if addr = 0 then do
      let len ← load64 m (st.mmap + 8)
      pure { st.bst with memLower := len.setWidth 32 }
    else pure st.bst
  -- add the high memory region to the available physical zones
  let type ← load32 m (st.mmap + 16)
  if type = multiboot2MmapMemoryAvailable then do
    let addr ← load64 m st.mmap
    if addr ≥ highmemPaddr then do
      let len ← load64 m (st.mmap + 8)
      pure ⟨st.mmap + sizeofMmapEntry, st.count + 1, pushHighZone bst st.count ⟨addr, len⟩⟩
    else pure ⟨st.mmap + sizeofMmapEntry, st.count, bst⟩
  else pure ⟨st.mmap + sizeofMmapEntry, st.count, bst⟩

/-- `case MULTIBOOT2_TAG_TYPE_MMAP`. -/
def mmapTag (m : Word → Option Byte) (fuel : Nat) (tag : Word) (bst : BootState) :
    Option BootState := do
  let size ← load32 m (tag + 4)
  let e := tag + size.setWidth 64
  let st ← whileLoop (fun st => decide (st.mmap < e)) (mmapBody m) fuel ⟨tag + 16, 0, bst⟩
  pure st.bst

def tagPass (m : Word → Option Byte) (fuel : Nat) (endTag : Word) :
    Word × BootState → Option (Flow (Word × BootState))
  | (tag, bst) =>
    if tag < endTag then do
      let type ← load32 m tag
      if type = multiboot2TagTypeEnd then pure (.stop (tag, bst))
      else do
        let bst ← if type = multiboot2TagTypeMmap then mmapTag m fuel tag bst else pure bst
        -- point to the next tag
        let size ← load32 m (tag + 4)
        pure (.next (tag + roundUp (size.setWidth 64) 8, bst))
    else pure (.stop (tag, bst))

/-- `mbtInfo` is the physical address the boot code left in `mbt_info`; the results are its
mapped address and `bst`. -/
def initBootState (m : Word → Option Byte) (fuel : Nat) (mbtInfo : Word) (bst : BootState) :
    Option (Word × BootState) := do
  let mbtInfo := mbtInfo + kernelVmaBase
  let totalSize ← load32 m mbtInfo
  let endTag := mbtInfo + totalSize.setWidth 64
  let (_, bst) ← loop (tagPass m fuel endTag) fuel (mbtInfo + 8, bst)
  pure (mbtInfo, bst)

end Rix
