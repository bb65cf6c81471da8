import Rix.Fuel
import Rix.Memory

/-!
# `memset` of `string.c`

Three loops share one pointer and one count: the bytes up to an aligned address, whole
words, and the rest. The loop over the words leaves the count as it is, so the last loop
writes as many bytes again as the words took.
-/
namespace Rix
open Fuel

def Mem.set8 (m : Mem) (a : Word) (b : Byte) : Mem := fun x => if x = a then b else m x

structure MemsetLoop where
  mem : Mem
  dst : Word
  left : Word

/-- `*dst++ = b`. -/
def setByte (b : Byte) (st : MemsetLoop) : Option MemsetLoop :=
  some ⟨st.mem.set8 st.dst b, st.dst + 1, st.left - 1⟩

/-- `*((size_t *)dst) = val; dst += sizeof(size_t)`. -/
def setWord (val : Word) (st : MemsetLoop) : Option MemsetLoop :=
  some ⟨st.mem.set64 st.dst val, st.dst + 8, st.left - 1⟩

/-- `for (; left > 0; left--) body`. -/
def countDown (body : MemsetLoop → Option MemsetLoop) : ℕ → MemsetLoop → Option MemsetLoop :=
  whileLoop (fun st => decide (st.left > 0)) body

/-- `(-(size_t)dest) & (sizeof(size_t) - 1)`. -/
def nabytes (dest : Word) : Word := -dest &&& (8 - 1)

/-- `val |= val << 8; val |= val << 16; val |= val << 32`. -/
def spread (val : Word) : Word :=
  let val := val ||| val <<< 8
  let val := val ||| val <<< 16
  val ||| val <<< 32

/-- The part of `memset` under `if (count > nabytes)`, with the value that the last loop uses. -/
def setAligned (c : BitVec 32) (fuel : ℕ) (st : MemsetLoop) (val : Word) :
    Option (MemsetLoop × Word) :=
  let nabytes := nabytes st.dst
  if st.left > nabytes then do
    let count := st.left - nabytes
    let val := spread val
    -- set the non-aligned bytes memory byte-wise
    let st ← countDown (setByte (c.setWidth 8)) fuel { st with left := nabytes }
    -- set the aligned bytes using dword
    let st ← countDown (setWord val) fuel { st with left := count / 8 }
    pure ({ st with left := count }, val)
  else pure (st, val)

/-- The result is `dest` and the memory. -/
def memset (m : Mem) (dest : Word) (c : BitVec 32) (count : Word) (fuel : ℕ) :
    Option (Word × Mem) := do
  let (st, val) ← setAligned c fuel ⟨m, dest, count⟩ ((c &&& 0xff).signExtend 64)
  let st ← countDown (setByte (val.setWidth 8)) fuel st
  pure (dest, st.mem)

def filled (m : Mem) (dest : Word) (n : ℕ) (b : Byte) : Mem :=
  fun x => if (x - dest).toNat < n then b else m x

section

variable {m : Mem} {dest : Word} {n : ℕ} {b : Byte}

theorem filled_zero (m : Mem) (dest : Word) (b : Byte) : filled m dest 0 b = m := rfl

theorem toNat_sub_offset (x dest : Word) (n : ℕ) : (x - (dest + BitVec.ofNat 64 n)).toNat =
    ((x - dest).toNat + (2 ^ 64 - n % 2 ^ 64)) % 2 ^ 64 := by
  rw [BitVec.toNat_sub, BitVec.toNat_sub, BitVec.toNat_add, BitVec.toNat_ofNat]
  omega

theorem filled_set8 : (filled m dest n b).set8 (dest + BitVec.ofNat 64 n) b =
    filled m dest (n + 1) b := by
  funext x
  unfold Mem.set8 filled
  have hx : x = dest + BitVec.ofNat 64 n ↔ (x - dest).toNat = n % 2 ^ 64 := by
    constructor
    · rintro rfl
      rw [BitVec.toNat_sub, BitVec.toNat_add, BitVec.toNat_ofNat]
      omega
    · intro h
      have h0 := toNat_sub_offset x dest n
      apply BitVec.eq_of_toNat_eq
      rw [BitVec.toNat_sub] at h0
      omega
  by_cases h : x = dest + BitVec.ofNat 64 n
  · rw [if_pos h, if_pos]
    have := hx.mp h
    omega
  · rw [if_neg h]
    have := (x - dest).isLt
    have hne := mt hx.mpr h
    by_cases hlt : (x - dest).toNat < n
    · rw [if_pos hlt, if_pos (by omega)]
    · rw [if_neg hlt, if_neg (by omega)]

theorem filled_set64 {val : Word} (hval : ∀ i : ℕ, i < 8 → val.extractLsb' (8 * i) 8 = b) :
    (filled m dest n b).set64 (dest + BitVec.ofNat 64 n) val = filled m dest (n + 8) b := by
  funext x
  rw [Mem.set64_apply, toNat_sub_offset]
  unfold filled
  have := (x - dest).isLt
  by_cases h : ((x - dest).toNat + (2 ^ 64 - n % 2 ^ 64)) % 2 ^ 64 < 8
  · rw [if_pos h, hval _ h]
    by_cases hlt : (x - dest).toNat < n + 8
    · rw [if_pos hlt]
    · omega
  · rw [if_neg h]
    by_cases hlt : (x - dest).toNat < n
    · rw [if_pos hlt, if_pos (by omega)]
    · rw [if_neg hlt, if_neg (by omega)]

/-- A loop whose body fills the next `w` bytes fills `w` bytes a pass. -/
theorem settles_countDown (m : Mem) (dest : Word) {body : MemsetLoop → Option MemsetLoop} {w : ℕ}
    (hbody : ∀ n left, body ⟨filled m dest n b, dest + BitVec.ofNat 64 n, left⟩ =
      some ⟨filled m dest (n + w) b, dest + BitVec.ofNat 64 (n + w), left - 1⟩) (n : ℕ)
    (left : Word) :
    Settles (fun fuel => countDown body fuel ⟨filled m dest n b, dest + BitVec.ofNat 64 n, left⟩)
      ⟨filled m dest (n + w * left.toNat) b, dest + BitVec.ofNat 64 (n + w * left.toNat), 0⟩ := by
  have key : ∀ k n left, left.toNat = k →
      WhileSettles (fun st => decide (st.left > 0)) (fun _ => body)
        ⟨filled m dest n b, dest + BitVec.ofNat 64 n, left⟩
        ⟨filled m dest (n + w * k) b, dest + BitVec.ofNat 64 (n + w * k), 0⟩ := by
    intro k
    induction k with
    | zero =>
        intro n left hk
        obtain rfl : left = 0 := BitVec.eq_of_toNat_eq hk
        exact .stop rfl
    | succ k ih =>
        intro n left hk
        have hpos : left > 0 := by
          rw [gt_iff_lt, BitVec.lt_def, hk]
          exact Nat.succ_pos k
        have hsub : (left - 1).toNat = k := by
          rw [BitVec.toNat_sub, hk, show (1 : Word).toNat = 1 from rfl]
          have := left.isLt
          omega
        refine .next (decide_eq_true hpos) (.of_forall fun _ => hbody n left) ?_
        rw [Nat.mul_succ, Nat.add_comm (w * k), ← Nat.add_assoc]
        exact ih (n + w) (left - 1) hsub
  exact (key _ n left rfl).settles

theorem setByte_filled (b : Byte) (n : ℕ) (left : Word) :
    setByte b ⟨filled m dest n b, dest + BitVec.ofNat 64 n, left⟩ =
      some ⟨filled m dest (n + 1) b, dest + BitVec.ofNat 64 (n + 1), left - 1⟩ := by
  rw [setByte, filled_set8, BitVec.ofNat_add, ← BitVec.add_assoc]
  rfl

theorem setWord_filled {val : Word} (hval : ∀ i : ℕ, i < 8 → val.extractLsb' (8 * i) 8 = b) (n : ℕ)
    (left : Word) : setWord val ⟨filled m dest n b, dest + BitVec.ofNat 64 n, left⟩ =
      some ⟨filled m dest (n + 8) b, dest + BitVec.ofNat 64 (n + 8), left - 1⟩ := by
  rw [setWord, filled_set64 hval, BitVec.ofNat_add, ← BitVec.add_assoc]
  rfl

end

theorem signExtend_and_mask (c : BitVec 32) :
    (c &&& 0xff).signExtend 64 = (c.setWidth 8).setWidth 64 := by
  apply BitVec.eq_of_getLsbD_eq
  intro j hj
  rw [BitVec.signExtend_eq_setWidth_of_msb_false (by simp [BitVec.msb_eq_getLsbD_last])]
  simp only [BitVec.getLsbD_setWidth, BitVec.getLsbD_and,
    show (0xff : BitVec 32) = BitVec.setWidth 32 (BitVec.allOnes 8) from rfl,
    BitVec.getLsbD_allOnes]
  by_cases h : j < 8
  · simp [h, hj, show j < 32 by omega]
  · simp [h]

theorem spread_byte (b : Byte) {i : ℕ} (hi : i < 8) :
    (spread (b.setWidth 64)).extractLsb' (8 * i) 8 = b := by
  apply BitVec.eq_of_getLsbD_eq
  intro j hj
  unfold spread
  simp only [BitVec.getLsbD_extractLsb', BitVec.getLsbD_or, BitVec.getLsbD_shiftLeft,
    BitVec.getLsbD_setWidth]
  interval_cases i <;> interval_cases j <;> simp

theorem setWidth_spread (b : Byte) : (spread (b.setWidth 64)).setWidth 8 = b := by
  have h := spread_byte b (i := 0) (by decide)
  apply BitVec.eq_of_getLsbD_eq
  intro j hj
  have hbit := congrArg (·.getLsbD j) h
  simpa [BitVec.getLsbD_extractLsb', hj] using hbit

/-- How many bytes the three loops write. -/
def memsetExtent (dest count : Word) : ℕ :=
  if count > nabytes dest then count.toNat + (count - nabytes dest).toNat / 8 * 8 else count.toNat

/-- Whole words at an aligned address are written twice over. -/
theorem memsetExtent_aligned {dest count : Word} (hdest : dest.toNat % 8 = 0)
    (hcount : count.toNat % 8 = 0) : memsetExtent dest count = 2 * count.toNat := by
  have h0 : nabytes dest = 0 := by
    apply BitVec.eq_of_toNat_eq
    rw [nabytes, BitVec.toNat_and, BitVec.toNat_neg, show ((8 - 1 : Word)).toNat = 2 ^ 3 - 1 from rfl,
      Nat.and_two_pow_sub_one_eq_mod, show (0 : Word).toNat = 0 from rfl]
    omega
  unfold memsetExtent
  rw [h0, show count - 0 = count from BitVec.sub_zero count]
  by_cases h : count > 0
  · rw [if_pos h]
    omega
  · rw [if_neg h]
    rw [gt_iff_lt, BitVec.lt_def, show (0 : Word).toNat = 0 from rfl] at h
    omega

section

variable (m : Mem) (dest : Word) (c : BitVec 32) (count : Word)

/-- The first two loops fill whole words behind the bytes up to the first aligned address. -/
theorem settles_setAligned (h : count > nabytes dest) :
    Settles (fun fuel => setAligned c fuel ⟨m, dest, count⟩ ((c.setWidth 8).setWidth 64))
      (⟨filled m dest ((nabytes dest).toNat + (count - nabytes dest).toNat / 8 * 8) (c.setWidth 8),
        dest + BitVec.ofNat 64 ((nabytes dest).toNat + (count - nabytes dest).toNat / 8 * 8),
        count - nabytes dest⟩, spread ((c.setWidth 8).setWidth 64)) := by
  have h1 := settles_countDown m dest (setByte_filled (c.setWidth 8)) 0 (nabytes dest)
  have h2 := (settles_countDown m dest
    (setWord_filled fun _ hi => spread_byte (c.setWidth 8) hi) (0 + 1 * (nabytes dest).toNat)
    ((count - nabytes dest) / 8)).map fun st =>
      (({ st with left := count - nabytes dest } : MemsetLoop), spread ((c.setWidth 8).setWidth 64))
  have hsum : 0 + 1 * (nabytes dest).toNat + 8 * ((count - nabytes dest) / 8).toNat =
      (nabytes dest).toNat + (count - nabytes dest).toNat / 8 * 8 := by
    rw [BitVec.toNat_udiv, show (8 : Word).toNat = 8 from rfl]
    omega
  rw [BitVec.add_zero, filled_zero] at h1
  rw [hsum] at h2
  refine (h1.bind (g := fun fuel st => (countDown (setWord (spread ((c.setWidth 8).setWidth 64))) fuel
    { st with left := (count - nabytes dest) / 8 }).map _) h2).congr fun fuel => ?_
  simp only [setAligned, if_pos h, Option.map_eq_bind]
  rfl

theorem settles_memset : Settles (fun fuel => memset m dest c count fuel)
    (dest, filled m dest (memsetExtent dest count) (c.setWidth 8)) := by
  unfold memset memsetExtent
  rw [signExtend_and_mask]
  by_cases h : count > nabytes dest
  · have hlast := (settles_countDown m dest (setByte_filled (c.setWidth 8))
      ((nabytes dest).toNat + (count - nabytes dest).toNat / 8 * 8)
      (count - nabytes dest)).map fun st => (dest, st.mem)
    have hsum : (nabytes dest).toNat + (count - nabytes dest).toNat / 8 * 8 +
        1 * (count - nabytes dest).toNat =
        count.toNat + (count - nabytes dest).toNat / 8 * 8 := by
      rw [gt_iff_lt, BitVec.lt_def] at h
      rw [BitVec.toNat_sub_of_le (BitVec.le_def.mpr (by omega))]
      omega
    rw [hsum] at hlast
    rw [if_pos h]
    refine (settles_setAligned m dest c count h).bind ?_
    refine hlast.congr fun fuel => ?_
    simp only [setWidth_spread, Option.map_eq_bind]
    rfl
  · have hlast := (settles_countDown m dest (setByte_filled (c.setWidth 8)) 0
      count).map fun st => (dest, st.mem)
    rw [BitVec.add_zero, filled_zero, Nat.zero_add, Nat.one_mul] at hlast
    have hval : ((c.setWidth 8).setWidth 64 : Word).setWidth 8 = c.setWidth 8 := by
      rw [BitVec.setWidth_setWidth_of_le _ (by decide), BitVec.setWidth_eq]
    rw [if_neg h]
    refine hlast.congr fun fuel => ?_
    simp only [setAligned, if_neg h, pure_bind, hval, Option.map_eq_bind]
    rfl

/-- What is asked of `memset`: it ends, returns `dest`, sets the bytes of the region and no
others. -/
def Fills : Prop :=
  ∃ m', Settles (fun fuel => memset m dest c count fuel) (dest, m') ∧
    (∀ x, x - dest < count → m' x = c.setWidth 8) ∧ ∀ x, ¬ x - dest < count → m' x = m x

/-- `memset` does so when no word is written after the alignment, or else when the bytes that the
last loop writes behind the region hold the value already. -/
theorem memset_fills_iff : Fills m dest c count ↔
    count.toNat < (nabytes dest).toNat + 8 ∨ ∀ x, ¬ x - dest < count →
      (x - dest).toNat < count.toNat + (count - nabytes dest).toNat / 8 * 8 →
        m x = c.setWidth 8 := by
  have hrun := settles_memset m dest c count
  have hinside : ∀ x, x - dest < count → (x - dest).toNat < memsetExtent dest count := by
    intro x hx
    rw [BitVec.lt_def] at hx
    unfold memsetExtent
    split <;> omega
  constructor
  · rintro ⟨m', hm', -, hout⟩
    obtain rfl : filled m dest (memsetExtent dest count) (c.setWidth 8) = m' :=
      congrArg Prod.snd (hrun.unique hm')
    by_cases h : count > nabytes dest
    · refine .inr fun x hx hlt => ?_
      rw [← hout x hx, filled, memsetExtent, if_pos h, if_pos hlt]
    · rw [gt_iff_lt, BitVec.lt_def] at h
      exact .inl (by omega)
  · intro hcond
    refine ⟨_, hrun, fun x hx => if_pos (hinside x hx), fun x hx => ?_⟩
    unfold filled memsetExtent
    have hge : count.toNat ≤ (x - dest).toNat := by
      rw [BitVec.lt_def] at hx
      omega
    by_cases h : count > nabytes dest
    · rw [if_pos h]
      split_ifs with hlt
      · rcases hcond with hcond | hcond
        · rw [gt_iff_lt, BitVec.lt_def] at h
          have hsub : (count - nabytes dest).toNat = count.toNat - (nabytes dest).toNat :=
            BitVec.toNat_sub_of_le (BitVec.le_def.mpr (Nat.le_of_lt h))
          omega
        · exact (hcond x hx hlt).symm
      · rfl
    · rw [if_neg h, if_neg (by omega)]

end

/-- Eight bytes at an aligned address: the next eight are set as well. -/
theorem memset_overrun : ¬ ∀ (m : Mem) (dest : Word) (c : BitVec 32) (count : Word),
    dest.toNat + count.toNat ≤ 2 ^ 64 → Fills m dest c count := by
  intro hall
  obtain ⟨m', hm', -, hout⟩ := hall (fun _ => 1) 4096 0 8 (by decide)
  obtain rfl : filled (fun _ => 1) 4096 (memsetExtent 4096 8) 0 = m' :=
    congrArg Prod.snd ((settles_memset (fun _ => 1) 4096 0 8).unique hm')
  exact absurd (hout 4104 (by decide)) (by decide)

end Rix
