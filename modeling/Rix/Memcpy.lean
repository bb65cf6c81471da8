import Rix.Memset

/-!
# `memcpy` of `string.c`

One byte after the other, upwards. A destination that begins inside the source is written before
the end of the source is read, so the bytes before it are repeated.
-/
namespace Rix
open Fuel

structure MemcpyLoop where
  mem : Mem
  dst : Word
  s : Word
  count : Word

/-- `*(dst++) = *(s++)`, and `count--`. -/
def copyByte (st : MemcpyLoop) : Option MemcpyLoop :=
  some ⟨st.mem.set8 st.dst (st.mem st.s), st.dst + 1, st.s + 1, st.count - 1⟩

/-- The result is `dest` and the memory. -/
def memcpy (m : Mem) (dest src count : Word) (fuel : ℕ) : Option (Word × Mem) :=
  (whileLoop (fun st => decide (st.count > 0)) copyByte fuel ⟨m, dest, src, count⟩).map fun st =>
    (dest, st.mem)

/-- How far the destination lies behind the source, modulo 2^64. -/
def lag (dest src : Word) : ℕ := (dest - src).toNat

/-- The memory after `n` bytes are copied upwards: the first `lag` bytes of the source, over and
over again. -/
def copied (m : Mem) (dest src : Word) (n : ℕ) : Mem := fun x =>
  if (x - dest).toNat < n then m (src + BitVec.ofNat 64 ((x - dest).toNat % lag dest src)) else m x

section

variable {m : Mem} {dest src : Word} {n : ℕ}

theorem copied_at {i : ℕ} (hi : i < n) (hn : n ≤ 2 ^ 64) :
    copied m dest src n (dest + BitVec.ofNat 64 i) =
      m (src + BitVec.ofNat 64 (i % lag dest src)) := by
  rw [copied, toNat_add_ofNat_sub dest (by omega), if_pos hi]

/-- The next byte of the source, some of which may be overwritten by now. -/
theorem copied_src (hn : n < 2 ^ 64) : copied m dest src n (src + BitVec.ofNat 64 n) =
    m (src + BitVec.ofNat 64 (n % lag dest src)) := by
  have hlag : lag dest src < 2 ^ 64 := (dest - src).isLt
  have hdist : (src + BitVec.ofNat 64 n - dest).toNat =
      (n + (2 ^ 64 - lag dest src)) % 2 ^ 64 := by
    rw [lag, BitVec.toNat_sub, BitVec.toNat_sub, BitVec.toNat_add, BitVec.toNat_ofNat]
    omega
  unfold copied
  rw [hdist]
  by_cases hpast : 0 < lag dest src ∧ lag dest src ≤ n
  · -- the byte was written `lag` passes ago
    have hmod : (n + (2 ^ 64 - lag dest src)) % 2 ^ 64 = n - lag dest src := by omega
    rw [hmod, if_pos (by omega), ← Nat.mod_eq_sub_mod hpast.2]
  · have hself : n % lag dest src = n := by
      rcases Nat.eq_zero_or_pos (lag dest src) with h0 | hpos
      · rw [h0, Nat.mod_zero]
      · exact Nat.mod_eq_of_lt (by omega)
    rw [if_neg (by omega), hself]

theorem copied_set8 (hn : n < 2 ^ 64) :
    (copied m dest src n).set8 (dest + BitVec.ofNat 64 n)
      (copied m dest src n (src + BitVec.ofNat 64 n)) = copied m dest src (n + 1) := by
  rw [copied_src hn]
  funext x
  by_cases hx : x = dest + BitVec.ofNat 64 n
  · rw [hx, Mem.set8, if_pos rfl, copied_at (Nat.lt_succ_self n) hn]
  · have hne : (x - dest).toNat ≠ n := by
      intro h
      refine hx (BitVec.eq_of_toNat_eq ?_)
      rw [BitVec.toNat_sub] at h
      rw [BitVec.toNat_add, BitVec.toNat_ofNat]
      omega
    have hiff : (x - dest).toNat < n + 1 ↔ (x - dest).toNat < n := by omega
    simp only [Mem.set8, if_neg hx, copied, hiff]

theorem copyByte_copied (hn : n < 2 ^ 64) (count : Word) :
    copyByte ⟨copied m dest src n, dest + BitVec.ofNat 64 n, src + BitVec.ofNat 64 n, count⟩ =
      some ⟨copied m dest src (n + 1), dest + BitVec.ofNat 64 (n + 1),
        src + BitVec.ofNat 64 (n + 1), count - 1⟩ := by
  rw [copyByte, copied_set8 hn, BitVec.ofNat_add, ← BitVec.add_assoc, ← BitVec.add_assoc]
  rfl

theorem whileSettles_copyByte (k : ℕ) : ∀ (n : ℕ) (count : Word), count.toNat = k → n + k < 2 ^ 64 →
    WhileSettles (fun st => decide (st.count > 0)) (fun _ => copyByte)
      ⟨copied m dest src n, dest + BitVec.ofNat 64 n, src + BitVec.ofNat 64 n, count⟩
      ⟨copied m dest src (n + k), dest + BitVec.ofNat 64 (n + k), src + BitVec.ofNat 64 (n + k), 0⟩ := by
  induction k with
  | zero =>
      intro n count hcount _
      obtain rfl : count = 0 := BitVec.eq_of_toNat_eq hcount
      exact .stop rfl
  | succ k ih =>
      intro n count hcount hn
      have hpos : count > 0 := by
        rw [gt_iff_lt, BitVec.lt_def, hcount]
        exact Nat.succ_pos k
      have hsub : (count - 1).toNat = k := by
        rw [BitVec.toNat_sub, hcount, show (1 : Word).toNat = 1 from rfl]
        omega
      refine .next (decide_eq_true hpos) (.of_forall fun _ => copyByte_copied (by omega) count) ?_
      rw [← Nat.add_assoc, Nat.add_right_comm]
      exact ih (n + 1) (count - 1) hsub (by omega)

end

section

variable (m : Mem) (dest src count : Word)

theorem settles_memcpy : Settles (fun fuel => memcpy m dest src count fuel)
    (dest, copied m dest src count.toNat) := by
  have h := (@whileSettles_copyByte m dest src count.toNat 0 count rfl
    (by have := count.isLt; omega)).settles.map fun st => (dest, st.mem)
  rwa [Nat.zero_add, BitVec.add_zero, BitVec.add_zero] at h

/-- The call ends, returns `dest`, and leaves at the destination what was at the source and
everything else as it was. -/
def Copies : Prop :=
  ∃ m', Settles (fun fuel => memcpy m dest src count fuel) (dest, m') ∧
    (∀ i < count.toNat, m' (dest + BitVec.ofNat 64 i) = m (src + BitVec.ofNat 64 i)) ∧
    ∀ x, ¬ x - dest < count → m' x = m x

/-- The bytes of a sequence repeat every `d` positions exactly when they are those of the first
`d`, over and over again. -/
theorem periodic_iff {α : Type*} (f : ℕ → α) (d n : ℕ) :
    (∀ i < n, f (i % d) = f i) ↔ ∀ i, i + d < n → f (i + d) = f i := by
  constructor
  · intro h i hi
    rw [← h (i + d) hi, Nat.add_mod_right, h i (by omega)]
  · intro h i hi
    induction i using Nat.strong_induction_on with
    | _ i ih =>
      by_cases hd : 0 < d ∧ d ≤ i
      · have hback := h (i - d) (by omega)
        rw [Nat.sub_add_cancel hd.2] at hback
        rw [hback, ← ih (i - d) (by omega) (by omega), Nat.mod_eq_sub_mod hd.2]
      · rcases Nat.eq_zero_or_pos d with rfl | hpos
        · rw [Nat.mod_zero]
        · rw [Nat.mod_eq_of_lt (by omega)]

/-- `memcpy` copies exactly when the source repeats itself every `lag` bytes: always when the two
regions do not overlap or the destination lies before the source, and otherwise for such contents
only. -/
theorem memcpy_copies_iff : Copies m dest src count ↔
    ∀ i, i + lag dest src < count.toNat →
      m (src + BitVec.ofNat 64 (i + lag dest src)) = m (src + BitVec.ofNat 64 i) := by
  have hcount := count.isLt
  rw [← periodic_iff (fun i => m (src + BitVec.ofNat 64 i))]
  constructor
  · rintro ⟨m', hm', hin, -⟩ i hi
    obtain rfl : copied m dest src count.toNat = m' :=
      congrArg Prod.snd ((settles_memcpy m dest src count).unique hm')
    rw [← hin i hi, copied_at hi (by omega)]
  · intro h
    refine ⟨_, settles_memcpy m dest src count, fun i hi => ?_, fun x hx => if_neg ?_⟩
    · rw [copied_at hi (by omega), h i hi]
    · rwa [BitVec.lt_def] at hx

end

end Rix
