import Mathlib.Tactic

/-!
# Machine words

The 64-bit integers and addresses of the target, and the rounding macros of
`stdlib.h`.
-/
namespace Rix

abbrev Word := BitVec 64
abbrev Byte := BitVec 8

instance : LawfulBEq Word := inferInstance

abbrev NULL : Word := 0

theorem toNat_null : NULL.toNat = 0 := rfl

/-- `ROUND_UP(addr, align)`, also spelled `ALIGN`. -/
def roundUp (addr align : Word) : Word := (addr + (align - 1)) &&& ~~~(align - 1)

def roundDown (addr align : Word) : Word := addr &&& ~~~(align - 1)

def pageSize : Word := 4096

theorem toNat_pageSize : pageSize.toNat = 4096 := rfl

theorem and_not_mask (a : Word) (k : Nat) (hk : k < 64) :
    a &&& ~~~(BitVec.twoPow 64 k - 1) = (a >>> k) <<< k := by
  have hm : BitVec.twoPow 64 k - 1 = BitVec.setWidth 64 (BitVec.allOnes k) := by
    apply BitVec.eq_of_toNat_eq
    have h1 : 2 ^ k < 2 ^ 64 := Nat.pow_lt_pow_right (by omega) hk
    have h0 : 0 < 2 ^ k := Nat.two_pow_pos k
    simp [BitVec.toNat_sub, BitVec.toNat_twoPow]
    omega
  rw [hm]
  apply BitVec.eq_of_getLsbD_eq
  intro i hi
  by_cases h : i < k
  · simp [hi, h]
  · have : k + (i - k) = i := by omega
    simp [hi, h, this]

theorem toNat_and_not_mask (a : Word) (k : Nat) (hk : k < 64) :
    (a &&& ~~~(BitVec.twoPow 64 k - 1)).toNat = a.toNat / 2 ^ k * 2 ^ k := by
  rw [and_not_mask a k hk, BitVec.toNat_shiftLeft, BitVec.toNat_ushiftRight,
    Nat.shiftRight_eq_div_pow, Nat.shiftLeft_eq]
  exact Nat.mod_eq_of_lt (lt_of_le_of_lt (Nat.div_mul_le_self _ _) a.isLt)

theorem roundDown_page (a : Word) : (roundDown a pageSize).toNat = a.toNat / 4096 * 4096 :=
  toNat_and_not_mask a 12 (by decide)

theorem roundUp_page (a : Word) :
    (roundUp a pageSize).toNat = (a.toNat + 4095) % 2 ^ 64 / 4096 * 4096 := by
  have h := toNat_and_not_mask (a + 4095) 12 (by decide)
  rwa [BitVec.toNat_add] at h

theorem roundUp_eight (a : Word) : (roundUp a 8).toNat = (a.toNat + 7) % 2 ^ 64 / 8 * 8 := by
  have h := toNat_and_not_mask (a + 7) 3 (by decide)
  rwa [BitVec.toNat_add] at h

theorem toNat_add_ofNat {a : Word} {k : ℕ} (h : a.toNat + k < 2 ^ 64) :
    (a + BitVec.ofNat 64 k).toNat = a.toNat + k := by
  rw [BitVec.toNat_add, BitVec.toNat_ofNat]
  omega

theorem toNat_add_ofNat_sub (a : Word) {k : ℕ} (h : k < 2 ^ 64) :
    (a + BitVec.ofNat 64 k - a).toNat = k := by
  rw [BitVec.toNat_sub, BitVec.toNat_add, BitVec.toNat_ofNat]
  omega

theorem toNat_lt_setWidth {n : Word} {w : BitVec 32} :
    n < w.setWidth 64 ↔ n.toNat < w.toNat := by
  rw [BitVec.lt_def, BitVec.toNat_setWidth, Nat.mod_eq_of_lt (by have := w.isLt; omega)]

theorem toNat_succ_of_lt {n : Word} {w : BitVec 32} (h : n.toNat < w.toNat) :
    (n + 1).toNat = n.toNat + 1 := by
  have := w.isLt
  rw [BitVec.toNat_add]
  exact Nat.mod_eq_of_lt (by simp; omega)

end Rix
