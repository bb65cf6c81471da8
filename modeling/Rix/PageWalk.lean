import Rix.Memory

/-!
# The page walk of the architecture

Four levels of tables of 512 entries in physical memory, with leaves of 1 GiB, 2 MiB
and 4 KiB. Only presence, the page-size bit and the frame of an entry matter here.
-/
namespace Rix

/-- `x86_page_level_t`. -/
inductive PageLevel where
  | frame
  | pt
  | pd
  | pdp
  | pml4
  deriving DecidableEq, Repr

/-- Bits 47 to 63 are the same. -/
def Canonical (va : Word) : Prop := va.toNat < 2 ^ 47 ∨ 2 ^ 64 - 2 ^ 47 ≤ va.toNat

/-- The nine bits of `va` that select the entry of a table. -/
def tableIndex (va : Word) (shift : ℕ) : ℕ := va.toNat / 2 ^ shift % 512

theorem tableIndex_lt (va : Word) (shift : ℕ) : tableIndex va shift < 512 := Nat.mod_lt _ (by decide)

def Mem.entry (m : Mem) (table : Word) (i : ℕ) : Word := m.get64 (table + BitVec.ofNat 64 (8 * i))

def present (e : Word) : Bool := e.getLsbD 0

def pageSizeBit (e : Word) : Bool := e.getLsbD 7

/-- The bits of an entry or a frame above the `k` bits of the offset, up to bit 51. -/
def frameOf (k : ℕ) (e : Word) : Word := e &&& (0x000fffffffffffff &&& ~~~(BitVec.twoPow 64 k - 1))

def pageOffset (k : ℕ) (va : Word) : Word := va &&& (BitVec.twoPow 64 k - 1)

inductive Walk where
  | mapped (pa : Word)
  | notPresent (level : PageLevel)
  deriving DecidableEq, Repr

/-- The walk of `va` from the PML4 table at physical address `pml4`. -/
def Mem.walk (m : Mem) (pml4 va : Word) : Walk :=
  let pml4e := m.entry pml4 (tableIndex va 39)
  if present pml4e then
    let pdpe := m.entry (frameOf 12 pml4e) (tableIndex va 30)
    if present pdpe then
      if pageSizeBit pdpe then .mapped (frameOf 30 pdpe + pageOffset 30 va)
      else
        let pde := m.entry (frameOf 12 pdpe) (tableIndex va 21)
        if present pde then
          if pageSizeBit pde then .mapped (frameOf 21 pde + pageOffset 21 va)
          else
            let pte := m.entry (frameOf 12 pde) (tableIndex va 12)
            if present pte then .mapped (frameOf 12 pte + pageOffset 12 va)
            else .notPresent .pt
        else .notPresent .pd
    else .notPresent .pdp
  else .notPresent .pml4

variable {e va : Word} {k : ℕ}

theorem present_iff : present e = true ↔ e.toNat % 2 = 1 := by
  rw [present, BitVec.getLsbD, Nat.testBit_eq_decide_div_mod_eq, decide_eq_true_eq, pow_zero, Nat.div_one]

theorem pageSizeBit_iff : pageSizeBit e = true ↔ e.toNat / 128 % 2 = 1 := by
  rw [pageSizeBit, BitVec.getLsbD, Nat.testBit_eq_decide_div_mod_eq, decide_eq_true_eq]

theorem toNat_frameOf (hk : k < 64) : (frameOf k e).toNat = e.toNat % 2 ^ 52 / 2 ^ k * 2 ^ k := by
  rw [frameOf, ← BitVec.and_assoc, toNat_and_not_mask _ k hk, BitVec.toNat_and,
    show (0x000fffffffffffff : Word).toNat = 2 ^ 52 - 1 from rfl, Nat.and_two_pow_sub_one_eq_mod]

theorem toNat_pageOffset (hk : k < 64) : (pageOffset k va).toNat = va.toNat % 2 ^ k := by
  have hpow : 2 ^ k < 2 ^ 64 := Nat.pow_lt_pow_right (by decide) hk
  have hpos := Nat.two_pow_pos k
  have hmask : (BitVec.twoPow 64 k - 1).toNat = 2 ^ k - 1 := by
    rw [BitVec.toNat_sub, BitVec.toNat_twoPow, show (1 : Word).toNat = 1 from rfl]
    omega
  rw [pageOffset, BitVec.toNat_and, hmask, Nat.and_two_pow_sub_one_eq_mod]

theorem toNat_or_of_aligned {w : ℕ} {a b : BitVec w} (k : ℕ) (ha : a.toNat % 2 ^ k = 0)
    (hb : b.toNat < 2 ^ k) : (a ||| b).toNat = a.toNat + b.toNat := by
  have h := Nat.two_pow_add_eq_or_of_lt hb (a.toNat / 2 ^ k)
  rw [Nat.mul_div_cancel' (Nat.dvd_of_mod_eq_zero ha)] at h
  rw [BitVec.toNat_or, h]

theorem Mem.toNat_get64 (m : Mem) (a : Word) :
    (m.get64 a).toNat = (m.get32 (a + 4)).toNat * 2 ^ 32 + (m.get32 a).toNat := by
  rw [Mem.get64, BitVec.toNat_append, ← Nat.shiftLeft_add_eq_or_of_lt (m.get32 a).isLt, Nat.shiftLeft_eq]

theorem tableEntry {table : ℕ} (ht : table % 4096 = 0) (hlt : table < 2 ^ 52)
    (he : e.toNat = table + 3) :
    present e = true ∧ pageSizeBit e = false ∧ (frameOf 12 e).toNat = table := by
  refine ⟨present_iff.mpr (by omega), ?_, ?_⟩
  · rw [← Bool.not_eq_true, pageSizeBit_iff]
    omega
  · rw [toNat_frameOf (by decide), he]
    omega

theorem leafEntry {i : ℕ} (hi : i < 2 ^ 31) (he : e.toNat = i * 2 ^ 21 + 0x183) :
    present e = true ∧ pageSizeBit e = true ∧ (frameOf 21 e).toNat = i * 2 ^ 21 := by
  refine ⟨present_iff.mpr (by omega), pageSizeBit_iff.mpr (by omega), ?_⟩
  rw [toNat_frameOf (by decide), he]
  omega

theorem not_present_zero (he : e.toNat = 0) : present e = false := by
  rw [← Bool.not_eq_true, present_iff, he]
  decide

section Walk

variable {m : Mem} {pml4 va : Word} {pdp pd i : ℕ}

theorem Mem.walk_notPresent_pml4 (h4 : (m.entry pml4 (tableIndex va 39)).toNat = 0) :
    m.walk pml4 va = .notPresent .pml4 := by
  unfold Mem.walk
  simp only [not_present_zero h4, Bool.false_eq_true, if_false]

theorem Mem.walk_notPresent_pdp (hpdp : pdp % 4096 = 0) (hlt : pdp < 2 ^ 52)
    (h4 : (m.entry pml4 (tableIndex va 39)).toNat = pdp + 3)
    (h3 : ∀ a : Word, a.toNat = pdp → (m.entry a (tableIndex va 30)).toNat = 0) :
    m.walk pml4 va = .notPresent .pdp := by
  obtain ⟨hp, -, hframe⟩ := tableEntry hpdp hlt h4
  unfold Mem.walk
  simp only [hp, not_present_zero (h3 _ hframe), Bool.false_eq_true, if_true, if_false]

/-- Three levels that end in a leaf for the 2 MiB page `i`. -/
theorem Mem.walk_large (pdp pd i : ℕ) (hpdp : pdp % 4096 = 0 ∧ pdp < 2 ^ 52)
    (hpd : pd % 4096 = 0 ∧ pd < 2 ^ 52)
    (hi : i < 2 ^ 31) (h4 : (m.entry pml4 (tableIndex va 39)).toNat = pdp + 3)
    (h3 : ∀ a : Word, a.toNat = pdp → (m.entry a (tableIndex va 30)).toNat = pd + 3)
    (h2 : ∀ a : Word, a.toNat = pd → (m.entry a (tableIndex va 21)).toNat = i * 2 ^ 21 + 0x183) :
    m.walk pml4 va = .mapped (BitVec.ofNat 64 (i * 2 ^ 21 + va.toNat % 2 ^ 21)) := by
  obtain ⟨hp4, -, hframe4⟩ := tableEntry hpdp.1 hpdp.2 h4
  obtain ⟨hp3, hps3, hframe3⟩ := tableEntry hpd.1 hpd.2 (h3 _ hframe4)
  obtain ⟨hp2, hps2, hframe2⟩ := leafEntry hi (h2 _ hframe3)
  unfold Mem.walk
  simp only [hp4, hp3, hps3, hp2, hps2, Bool.false_eq_true, if_true, if_false]
  congr 1
  apply BitVec.eq_of_toNat_eq
  rw [BitVec.toNat_add, hframe2, toNat_pageOffset (by decide), BitVec.toNat_ofNat]

end Walk

end Rix
