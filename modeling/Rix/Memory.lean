import Rix.Word

/-!
# Byte memory

Little-endian loads from a memory that may be readable in part only, so that a load
that leaves the readable part is `none`.
-/
namespace Rix

/-- `KERNEL_VMA_BASE` of the Makefile. -/
def kernelVmaBase : Word := 0xffffffff80000000

/-- `KERNEL_ASPACE_BASE` of the Makefile. -/
def kernelAspaceBase : Word := 0xffffff8000000000

theorem toNat_kernelAspaceBase : kernelAspaceBase.toNat = 2 ^ 64 - 2 ^ 39 := rfl

abbrev Mem := Word → Byte

/-- The two bytes at `a`, least significant first. -/
def Mem.get16 (m : Mem) (a : Word) : BitVec 16 := m (a + 1) ++ m a

/-- The four bytes at `a`, least significant first. -/
def Mem.get32 (m : Mem) (a : Word) : BitVec 32 := m (a + 3) ++ m (a + 2) ++ m (a + 1) ++ m a

def Mem.get64 (m : Mem) (a : Word) : Word := m.get32 (a + 4) ++ m.get32 a

def Mem.set16 (m : Mem) (a : Word) (v : BitVec 16) : Mem :=
  fun x => if (x - a).toNat < 2 then v.extractLsb' (8 * (x - a).toNat) 8 else m x

def Mem.set32 (m : Mem) (a : Word) (v : BitVec 32) : Mem :=
  fun x => if (x - a).toNat < 4 then v.extractLsb' (8 * (x - a).toNat) 8 else m x

def Mem.set64 (m : Mem) (a v : Word) : Mem :=
  (m.set32 a (v.setWidth 32)).set32 (a + 4) ((v >>> 32).setWidth 32)

theorem set32_at (m : Mem) (a : Word) (v : BitVec 32) (i : ℕ) (hi : i < 4) :
    m.set32 a v (a + BitVec.ofNat 64 i) = v.extractLsb' (8 * i) 8 := by
  rw [Mem.set32, toNat_add_ofNat_sub a (by omega), if_pos hi]

theorem append_two_bytes (v : BitVec 16) : v.extractLsb' 8 8 ++ v.extractLsb' 0 8 = v := by
  apply BitVec.eq_of_getLsbD_eq
  intro j hj
  show (v.extractLsb' 8 8 ++ v.extractLsb' 0 8 : BitVec (8 + 8)).getLsbD j = _
  simp only [BitVec.getLsbD_append, BitVec.getLsbD_extractLsb']
  split_ifs with h
  · rw [decide_eq_true h, Bool.true_and, Nat.zero_add]
  · rw [decide_eq_true (by omega), Bool.true_and, Nat.add_sub_cancel' (by omega)]

theorem append_bytes (v : BitVec 32) :
    v.extractLsb' 24 8 ++ v.extractLsb' 16 8 ++ v.extractLsb' 8 8 ++ v.extractLsb' 0 8 = v := by
  apply BitVec.eq_of_getLsbD_eq
  intro j hj
  show ((v.extractLsb' 24 8 ++ v.extractLsb' 16 8 ++ v.extractLsb' 8 8 : BitVec (8 + 8 + 8)) ++
    v.extractLsb' 0 8 : BitVec (8 + 8 + 8 + 8)).getLsbD j = _
  simp only [BitVec.getLsbD_append, BitVec.getLsbD_extractLsb']
  split_ifs with h1 h2 h3
  · rw [decide_eq_true h1, Bool.true_and, Nat.zero_add]
  · rw [decide_eq_true h2, Bool.true_and, Nat.add_sub_cancel' (by omega)]
  · rw [decide_eq_true h3, Bool.true_and, show 16 + (j - 8 - 8) = j by omega]
  · rw [decide_eq_true (by omega), Bool.true_and, show 24 + (j - 8 - 8 - 8) = j by omega]

theorem get16_set16_self (m : Mem) (a : Word) (v : BitVec 16) : (m.set16 a v).get16 a = v := by
  have h0 : (m.set16 a v) a = v.extractLsb' 0 8 := by
    rw [Mem.set16, BitVec.sub_self]
    rfl
  have h1 : (m.set16 a v) (a + 1) = v.extractLsb' 8 8 := by
    have h : (a + 1 - a).toNat = 1 := toNat_add_ofNat_sub a (by decide)
    rw [Mem.set16, h]
    rfl
  rw [Mem.get16, h0, h1]
  exact append_two_bytes v

theorem get32_set32_self (m : Mem) (a : Word) (v : BitVec 32) : (m.set32 a v).get32 a = v := by
  have h0 := set32_at m a v 0 (by decide)
  rw [show a + BitVec.ofNat 64 0 = a from BitVec.add_zero a] at h0
  have h1 := set32_at m a v 1 (by decide)
  have h2 := set32_at m a v 2 (by decide)
  have h3 := set32_at m a v 3 (by decide)
  rw [Mem.get32, h0]
  exact (congrArg₂ _ (congrArg₂ _ (congrArg₂ _ h3 h2) h1) rfl).trans (append_bytes v)

/-- The `j` bytes at `a` and the `k` bytes at `b` are different bytes, modulo 2^64. -/
def Separate (a : Word) (j : Nat) (b : Word) (k : Nat) : Prop :=
  k ≤ (a - b).toNat ∧ j ≤ (b - a).toNat

theorem Separate.symm {a b : Word} {j k : Nat} (h : Separate a j b k) : Separate b k a j := ⟨h.2, h.1⟩

theorem Separate.field {a b : Word} {j k j' : Nat} (h : Separate a j b k) (i : Word)
    (hi : i.toNat + j' ≤ j) (hj : 0 < j') : Separate (a + i) j' b k := by
  obtain ⟨h1, h2⟩ := h
  unfold Separate
  rw [BitVec.toNat_sub] at *
  rw [BitVec.toNat_add, BitVec.toNat_sub, BitVec.toNat_add]
  omega

theorem Separate.byte {a b : Word} {j k i : Nat} (h : Separate a j b k) (hi : i < j) :
    k ≤ (a + BitVec.ofNat 64 i - b).toNat := by
  obtain ⟨h1, h2⟩ := h
  rw [BitVec.toNat_sub] at *
  rw [BitVec.toNat_add, BitVec.toNat_ofNat]
  omega

theorem Mem.get32_congr {m m' : Mem} {a : Word}
    (h : ∀ i : Nat, i < 4 → m' (a + BitVec.ofNat 64 i) = m (a + BitVec.ofNat 64 i)) :
    m'.get32 a = m.get32 a := by
  have h0 := h 0 (by decide)
  rw [show a + BitVec.ofNat 64 0 = a from BitVec.add_zero a] at h0
  unfold Mem.get32
  rw [h0]
  exact congrArg₂ _ (congrArg₂ _ (congrArg₂ _ (h 3 (by decide)) (h 2 (by decide)))
    (h 1 (by decide))) rfl

theorem Mem.get64_congr {m m' : Mem} {a : Word}
    (h : ∀ i : Nat, i < 8 → m' (a + BitVec.ofNat 64 i) = m (a + BitVec.ofNat 64 i)) :
    m'.get64 a = m.get64 a := by
  have h4 : m'.get32 (a + 4) = m.get32 (a + 4) := Mem.get32_congr fun i hi => by
    have := h (4 + i) (by omega)
    rwa [BitVec.ofNat_add, ← BitVec.add_assoc] at this
  rw [Mem.get64, Mem.get64, h4, Mem.get32_congr fun i hi => h i (Nat.lt_trans hi (by decide))]

theorem Mem.get32_set32_of_separate {m : Mem} {a b : Word} (v : BitVec 32) (h : Separate b 4 a 4) :
    (m.set32 a v).get32 b = m.get32 b :=
  Mem.get32_congr fun _ hi => if_neg (Nat.not_lt.mpr (h.byte hi))

theorem Mem.set64_apply (m : Mem) (a v x : Word) : m.set64 a v x =
    if (x - a).toNat < 8 then v.extractLsb' (8 * (x - a).toNat) 8 else m x := by
  have hsub : (x - (a + 4)).toNat = (x - a).toNat - 4 ∧ 4 ≤ (x - a).toNat ∨
      (x - (a + 4)).toNat = (x - a).toNat + 2 ^ 64 - 4 ∧ (x - a).toNat < 4 := by
    rw [BitVec.toNat_sub, BitVec.toNat_sub, BitVec.toNat_add, show (4 : Word).toNat = 4 from rfl]
    omega
  unfold Mem.set64 Mem.set32
  rcases hsub with ⟨hs, h4⟩ | ⟨hs, h4⟩
  · rw [hs]
    by_cases h8 : (x - a).toNat < 8
    · rw [if_pos (by omega), if_pos h8]
      apply BitVec.eq_of_getLsbD_eq
      intro j hj
      rw [BitVec.getLsbD_extractLsb', BitVec.getLsbD_extractLsb', BitVec.getLsbD_setWidth,
        BitVec.getLsbD_ushiftRight,
        decide_eq_true (show 8 * ((x - a).toNat - 4) + j < 32 by omega), Bool.true_and]
      congr 2
      omega
    · rw [if_neg (by omega), if_neg (by omega), if_neg h8]
  · rw [if_neg (by omega), if_pos h4, if_pos (by omega)]
    apply BitVec.eq_of_getLsbD_eq
    intro j hj
    rw [BitVec.getLsbD_extractLsb', BitVec.getLsbD_extractLsb', BitVec.getLsbD_setWidth,
      decide_eq_true (by omega : 8 * (x - a).toNat + j < 32), Bool.true_and]

theorem Mem.get64_set64_self (m : Mem) (a v : Word) : (m.set64 a v).get64 a = v := by
  have hsep : Separate a 4 (a + 4) 4 := by
    constructor
    · rw [BitVec.toNat_sub, BitVec.toNat_add, show (4 : Word).toNat = 4 from rfl]
      omega
    · rw [BitVec.toNat_sub, BitVec.toNat_add, show (4 : Word).toNat = 4 from rfl]
      omega
  unfold Mem.get64 Mem.set64
  rw [get32_set32_self, Mem.get32_set32_of_separate _ hsep, get32_set32_self]
  apply BitVec.eq_of_getLsbD_eq
  intro j hj
  show (((v >>> 32).setWidth 32 ++ v.setWidth 32 : BitVec (32 + 32))).getLsbD j = _
  rw [BitVec.getLsbD_append, BitVec.getLsbD_setWidth, BitVec.getLsbD_setWidth,
    BitVec.getLsbD_ushiftRight]
  by_cases h32 : j < 32
  · rw [if_pos h32, decide_eq_true h32, Bool.true_and]
  · rw [if_neg h32, decide_eq_true (by omega), Bool.true_and, Nat.add_sub_cancel' (by omega)]

theorem Mem.get64_set64_of_separate {m : Mem} {a b : Word} (v : Word) (h : Separate b 8 a 8) :
    (m.set64 a v).get64 b = m.get64 b :=
  Mem.get64_congr fun i hi => by rw [Mem.set64_apply, if_neg (Nat.not_lt.mpr (h.byte hi))]

/-- The string at `a`. -/
def CString (m : Mem) : Word → List Byte → Prop
  | a, [] => m a = 0
  | a, c :: s => m a = c ∧ c ≠ 0 ∧ CString m (a + 1) s

theorem CString.congr {m m' : Mem} {a : Word} {s : List Byte} (h : CString m a s)
    (hm : ∀ i ≤ s.length, m' (a + BitVec.ofNat 64 i) = m (a + BitVec.ofNat 64 i)) :
    CString m' a s := by
  have h0 : m' a = m a := BitVec.add_zero a ▸ hm 0 (Nat.zero_le _)
  induction s generalizing a with
  | nil => exact h0.trans h
  | cons c s ih =>
      obtain ⟨hc, hne, htail⟩ := h
      have hnext : ∀ i ≤ s.length, m' (a + 1 + BitVec.ofNat 64 i) = m (a + 1 + BitVec.ofNat 64 i) := by
        intro i hi
        have hi' := hm (1 + i) (by rw [List.length_cons]; omega)
        rwa [BitVec.ofNat_add, ← BitVec.add_assoc] at hi'
      exact ⟨h0.trans hc, hne, ih htail hnext (BitVec.add_zero (a + 1) ▸ hnext 0 (Nat.zero_le _))⟩

/-- The memory that is readable in `[lo, lo + n)` only. -/
def Mem.window (m : Mem) (lo n : Word) : Word → Option Byte :=
  fun a => if a - lo < n then some (m a) else none

def load32 (m : Word → Option Byte) (a : Word) : Option (BitVec 32) := do
  let b0 ← m a
  let b1 ← m (a + 1)
  let b2 ← m (a + 2)
  let b3 ← m (a + 3)
  return b3 ++ b2 ++ b1 ++ b0

def load64 (m : Word → Option Byte) (a : Word) : Option Word := do
  let lo ← load32 m a
  let hi ← load32 m (a + 4)
  return hi ++ lo

/-- The `k` bytes at `a` lie in `[lo, lo + n)`, which does not wrap. -/
structure Inside (lo n a : Word) (k : Nat) : Prop where
  top : lo.toNat + n.toNat < 2 ^ 64
  below : lo.toNat ≤ a.toNat
  above : a.toNat + k ≤ lo.toNat + n.toNat

/-- The `k` bytes at `a` can be read and are those of `m`. -/
def Readable (w : Word → Option Byte) (m : Mem) (a : Word) (k : Nat) : Prop :=
  ∀ i < k, w (a + BitVec.ofNat 64 i) = some (m (a + BitVec.ofNat 64 i))

theorem Inside.readable {m : Mem} {lo n a : Word} {k : Nat} (h : Inside lo n a k) :
    Readable (m.window lo n) m a k := by
  obtain ⟨h1, h2, h3⟩ := h
  intro i hi
  refine if_pos ?_
  rw [BitVec.lt_def, BitVec.toNat_sub, BitVec.toNat_add, BitVec.toNat_ofNat]
  omega

theorem readable_total (m : Mem) (a : Word) (k : Nat) : Readable (fun a => some (m a)) m a k :=
  fun _ _ => rfl

namespace Readable

variable {w : Word → Option Byte} {m : Mem} {a : Word} {k j : Nat}

theorem field (h : Readable w m a k) (i : Word) (hi : i.toNat + j ≤ k) : Readable w m (a + i) j := by
  intro i' hi'
  have := h (i.toNat + i') (by omega)
  rwa [BitVec.ofNat_add, BitVec.ofNat_toNat, BitVec.setWidth_eq, ← BitVec.add_assoc] at this

theorem start (h : Readable w m a k) (hj : j ≤ k) : Readable w m a j :=
  fun i hi => h i (lt_of_lt_of_le hi hj)

theorem load32 (h : Readable w m a 4) : load32 w a = some (m.get32 a) := by
  have h0 := h 0 (by decide)
  rw [show a + BitVec.ofNat 64 0 = a from BitVec.add_zero a] at h0
  exact Option.bind_eq_some_iff.mpr ⟨_, h0, Option.bind_eq_some_iff.mpr ⟨_, h 1 (by decide),
    Option.bind_eq_some_iff.mpr ⟨_, h 2 (by decide), Option.bind_eq_some_iff.mpr
      ⟨_, h 3 (by decide), rfl⟩⟩⟩⟩

theorem load64 (h : Readable w m a 8) : load64 w a = some (m.get64 a) :=
  Option.bind_eq_some_iff.mpr ⟨_, (h.start (by decide)).load32,
    Option.bind_eq_some_iff.mpr ⟨_, (h.field 4 (by decide)).load32, rfl⟩⟩

end Readable

end Rix
