import Rix.BootBounds
import Rix.BootWalk

/-!
# The end of the walk over the tags

The walk steps by the size that a tag gives of itself, rounded up to eight, and a tag of
size zero is its own successor.
-/
namespace Rix
open Fuel

/-- Only what the boot page tables map can be read. -/
def KernelMapped (w : Word → Option Byte) : Prop :=
  ∀ a, w a ≠ none → ∃ map ∈ mmuInitialMappings, map.Covers a

/-- A tag of its own size zero that does not end the walk. -/
def ZeroTag (w : Word → Option Byte) (endTag tag : Word) : Prop :=
  tag < endTag ∧ (∃ type, load32 w tag = some type ∧ type ≠ multiboot2TagTypeEnd) ∧
    load32 w (tag + 4) = some 0

section Walk

variable {w : Word → Option Byte} {endTag tag tag' : Word} {b b' : BootState}

theorem load32_readable {v : BitVec 32} (h : load32 w tag = some v) : w tag ≠ none := by
  intro hc
  rw [load32, hc] at h
  cases h

theorem KernelMapped.bounds (hw : KernelMapped w) {v : BitVec 32} (h : load32 w tag = some v) :
    2 ^ 32 ≤ tag.toNat ∧ tag.toNat < 2 ^ 64 - 2 ^ 30 := by
  obtain ⟨map, hmap, h1, h2⟩ := hw tag (load32_readable h)
  simp only [mmuInitialMappings, List.mem_cons, List.not_mem_nil, or_false] at hmap
  rcases hmap with rfl | rfl | rfl
  · have hbase : kernelAspaceBase.toNat = 2 ^ 64 - 2 ^ 39 := rfl
    have hsize : (64 * 1024 * 1024 * 1024 : Word).toNat = 2 ^ 36 := rfl
    simp only [hbase, hsize] at h1 h2
    omega
  · have hbase : kernelVmaBase.toNat = 2 ^ 64 - 2 ^ 31 := rfl
    have hsize : (1 * 1024 * 1024 * 1024 : Word).toNat = 2 ^ 30 := rfl
    simp only [hbase, hsize] at h1 h2
    omega
  · exact absurd h2 (Nat.not_lt.mpr (Nat.zero_le _))

/-- A pass from a tag of size zero leads back to it. -/
theorem ZeroTag.settles (hw : KernelMapped w) (h : ZeroTag w endTag tag) (b : BootState) :
    Settles (fun fuel => tagPass w fuel endTag (tag, b)) (.next (tag, b)) := by
  obtain ⟨hlt, ⟨type, htype, hend⟩, hsize⟩ := h
  have hbounds := hw.bounds htype
  have hnext : tag + roundUp ((0 : BitVec 32).setWidth 64) 8 = tag := by
    rw [show roundUp ((0 : BitVec 32).setWidth 64) 8 = 0#64 from by decide]
    exact BitVec.add_zero tag
  have hstop : ¬ tag + 16 < tag + (0 : BitVec 32).setWidth 64 := by
    rw [BitVec.lt_def, show tag + (0 : BitVec 32).setWidth 64 = tag from BitVec.add_zero tag,
      BitVec.toNat_add, show (16 : Word).toNat = 16 from rfl]
    omega
  refine ⟨1, fun fuel hfuel => ?_⟩
  obtain ⟨k, rfl⟩ := Nat.exists_eq_add_of_le' hfuel
  unfold tagPass
  simp only [if_pos hlt, htype, hsize, Option.bind_eq_bind, Option.bind_some]
  rw [if_neg hend, hnext]
  by_cases hm : type = multiboot2TagTypeMmap
  · rw [if_pos hm]
    simp only [mmapTag, hsize, Option.bind_eq_bind, Option.bind_some, whileLoop, loop,
      decide_eq_false hstop, Bool.false_eq_true, if_false]
    rfl
  · rw [if_neg hm]
    rfl

end Walk

end Rix
