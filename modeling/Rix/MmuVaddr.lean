import Rix.MmuMapping

/-!
# The check of a virtual address

`x86_mmu_check_vaddr` is meant to accept the page-aligned addresses of both halves of the
address space. Its two bounds are complementary, and every address is beyond one of them.
-/
namespace Rix

def isPageAligned (addr : Word) : Bool := addr &&& (pageSize - 1) == 0

/-- `vaddrWidth` is the global `vaddr_width`. -/
def x86MmuCheckVaddr (vaddrWidth : Byte) (vaddr : Word) : Bool :=
  if !isPageAligned vaddr then false
  else
    let lohalfMax := ((1 : Word) <<< (vaddrWidth.toNat - 1)) - 1
    let hihalfMin := ~~~lohalfMax
    decide (vaddr > lohalfMax) || decide (vaddr < hihalfMin)

def signExtendLow (w : ℕ) (a : Word) : Word := (a.setWidth w).signExtend 64

/-- The address of the page that the four table indices of `a` select, without a sign. -/
def rebuilt (a : Word) : Word :=
  (vaddrToIndex 39 a <<< 39) + (vaddrToIndex 30 a <<< 30) + (vaddrToIndex 21 a <<< 21) +
    (vaddrToIndex 12 a <<< 12)

def SameSlots (a b : Word) : Prop :=
  vaddrToIndex 39 a = vaddrToIndex 39 b ∧ vaddrToIndex 30 a = vaddrToIndex 30 b ∧
    vaddrToIndex 21 a = vaddrToIndex 21 b ∧ vaddrToIndex 12 a = vaddrToIndex 12 b

/-- On the addresses of `S` the check accepts the aligned canonical ones only, and with 48 bits
each address accepted is given by its table indices. -/
structure CheckExact (w : Byte) (S : Set Word) : Prop where
  exact : ∀ a ∈ S, x86MmuCheckVaddr w a = true ↔ 4096 ∣ a.toNat ∧ a = signExtendLow w.toNat a
  rebuilt : w = 48 → ∀ a ∈ S, x86MmuCheckVaddr w a = true → a = signExtendLow 48 (rebuilt a)
  distinct : w = 48 → ∀ a ∈ S, ∀ b ∈ S, x86MmuCheckVaddr w a = true →
    x86MmuCheckVaddr w b = true → a ≠ b → ¬ SameSlots a b

variable {w : Byte} {a b : Word} {S : Set Word}

theorem isPageAligned_iff : isPageAligned a = true ↔ 4096 ∣ a.toNat := by
  have hmask : (pageSize - 1).toNat = 2 ^ 12 - 1 := rfl
  rw [isPageAligned, beq_iff_eq, BitVec.toNat_eq, BitVec.toNat_and, hmask,
    Nat.and_two_pow_sub_one_eq_mod]
  exact (Nat.dvd_iff_mod_eq_zero ..).symm

/-- No address is below both bounds. -/
theorem x86MmuCheckVaddr_eq (hw : w.toNat ≤ 64) : x86MmuCheckVaddr w a = isPageAligned a := by
  have hpow : 2 ^ (w.toNat - 1) ≤ 2 ^ 63 := Nat.pow_le_pow_right (by decide) (by omega)
  have hpos := Nat.two_pow_pos (w.toNat - 1)
  have hone : (1 : Word).toNat = 1 := rfl
  have hlo : ((1 : Word) <<< (w.toNat - 1) - 1).toNat = 2 ^ (w.toNat - 1) - 1 := by
    rw [BitVec.toNat_sub, BitVec.toNat_shiftLeft, hone, Nat.shiftLeft_eq]
    omega
  have hhalves : a > (1 : Word) <<< (w.toNat - 1) - 1 ∨ a < ~~~((1 : Word) <<< (w.toNat - 1) - 1) := by
    rw [gt_iff_lt, BitVec.lt_def, BitVec.lt_def, BitVec.toNat_not, hlo]
    omega
  cases haligned : isPageAligned a with
  | false => simp [x86MmuCheckVaddr, haligned]
  | true =>
      rw [x86MmuCheckVaddr, haligned]
      simpa using hhalves

theorem check_iff (hw : w.toNat ≤ 64) : x86MmuCheckVaddr w a = true ↔ 4096 ∣ a.toNat := by
  rw [x86MmuCheckVaddr_eq hw, isPageAligned_iff]

theorem setWidth_rebuilt (ha : 4096 ∣ a.toNat) : (rebuilt a).setWidth 48 = a.setWidth 48 := by
  apply BitVec.eq_of_toNat_eq
  simp only [rebuilt, vaddrToIndex_eq, tableIndex, BitVec.toNat_setWidth, BitVec.toNat_add,
    BitVec.toNat_shiftLeft, BitVec.toNat_ofNat, Nat.shiftLeft_eq]
  omega

theorem rebuilt_congr (h : SameSlots a b) : rebuilt a = rebuilt b := by
  obtain ⟨h4, h3, h2, h1⟩ := h
  rw [rebuilt, rebuilt, h4, h3, h2, h1]

/-- An aligned canonical address is given by its indices. -/
theorem eq_signExtendLow_rebuilt (ha : 4096 ∣ a.toNat) (hc : a = signExtendLow 48 a) :
    a = signExtendLow 48 (rebuilt a) := by
  rw [signExtendLow, setWidth_rebuilt ha]
  exact hc

/-- The check is exact on the addresses of a set exactly when no aligned one of them lies in the
hole between the halves. -/
theorem checkExact_iff (hw : 13 ≤ w.toNat ∧ w.toNat ≤ 64) :
    CheckExact w S ↔ ∀ a ∈ S, 4096 ∣ a.toNat → a = signExtendLow w.toNat a := by
  constructor
  · intro h a ha haligned
    exact ((h.exact a ha).mp ((check_iff hw.2).mpr haligned)).2
  · intro hcanon
    have hrebuilt : w = 48 → ∀ a ∈ S, x86MmuCheckVaddr w a = true → a = signExtendLow 48 (rebuilt a) := by
      rintro rfl a ha hcheck
      have haligned := (check_iff hw.2).mp hcheck
      exact eq_signExtendLow_rebuilt haligned (hcanon a ha haligned)
    refine ⟨fun a ha => ?_, hrebuilt, fun h48 a ha b hb hca hcb hne hsame => hne ?_⟩
    · rw [check_iff hw.2]
      exact (and_iff_left_of_imp (hcanon a ha)).symm
    · rw [hrebuilt h48 a ha hca, hrebuilt h48 b hb hcb, rebuilt_congr hsame]

theorem checkExact_iff_kernel : CheckExact 48 {0xffffff8000000000, 0x1000, 0x1001} := by
  refine (checkExact_iff (by decide)).mpr ?_
  rintro a (rfl | rfl | rfl) haligned
  · decide
  · decide
  · exact absurd haligned (by decide)

/-- The lowest address of the hole passes the check. -/
theorem hole_accepted : ¬ ∀ (w : Byte) (S : Set Word), 13 ≤ w.toNat ∧ w.toNat ≤ 64 →
    CheckExact w S := by
  intro hall
  have h := (hall 48 {0x800000000000} (by decide)).exact 0x800000000000 rfl
  exact absurd (h.mp (by decide)).2 (by decide)

end Rix
