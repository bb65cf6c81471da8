import Rix.SwapLoop

/-!
# Swaps of elements

In every swap mode `swap` and `vecswap` exchange elements of the array, whole, and
leave every other byte alone.
-/
namespace Rix
open Fuel Sorting

/-- Two mapped blocks of `n` bytes, the same or disjoint, neither reaching the last address. -/
structure Facing (m : Bytes) (a b : Word) (n : ℕ) : Prop where
  left : Mapped m a n
  right : Mapped m b n
  apart : Apart a.toNat b.toNat n
  topLeft : a.toNat + n < 2 ^ 64
  topRight : b.toNat + n < 2 ^ 64

section Modes

variable {arr es : Word}

theorem or_mod_eight : (arr ||| es) % 8 = 0 ↔ arr.toNat % 8 = 0 ∧ es.toNat % 8 = 0 := by
  rw [← BitVec.toNat_inj, BitVec.toNat_umod, BitVec.toNat_or, show (8 : Word).toNat = 2 ^ 3 from rfl,
    Nat.or_mod_two_pow, show (0 : Word).toNat = 0 from rfl, Nat.or_eq_zero_iff]

/-- The word loop is chosen for aligned arrays of whole words. -/
theorem swapInit_le_one : swapInit arr es ≤ 1 ↔ arr.toNat % 8 = 0 ∧ es.toNat % 8 = 0 := by
  rw [← or_mod_eight, swapInit]
  by_cases h : (arr ||| es) % 8 = 0
  · rw [if_neg (not_not.mpr h)]
    simp only [h, iff_true]
    split <;> decide
  · rw [if_pos h]
    exact iff_of_false (by decide) h

theorem swapInit_eq_zero (hes : 0 < es.toNat) :
    swapInit arr es = 0 ↔ arr.toNat % 8 = 0 ∧ es.toNat = 8 := by
  constructor
  · intro h
    obtain ⟨ha, he⟩ := swapInit_le_one.mp (le_trans (le_of_eq h) (Nat.zero_le 1))
    have hle : ¬ 8 < es := by
      intro hlt
      rw [swapInit, if_pos hlt] at h
      split at h <;> cases h
    rw [BitVec.lt_def, show (8 : Word).toNat = 8 from rfl] at hle
    exact ⟨ha, by omega⟩
  · rintro ⟨ha, he⟩
    have hor := or_mod_eight.mpr ⟨ha, by rw [he]⟩
    have hle : ¬ 8 < es := by
      rw [BitVec.lt_def, show (8 : Word).toNat = 8 from rfl]
      omega
    rw [swapInit, if_neg (not_not.mpr hor), if_neg hle]

variable {m : Bytes} {a b n : Word} {swaptype : ℕ}

/-- `swapfunc` exchanges two blocks in every mode that suits them. -/
theorem settles_swapfunc (hf : Facing m a b n.toNat)
    (hmode : swaptype ≤ 1 → a.toNat % 8 = 0 ∧ b.toNat % 8 = 0 ∧ n.toNat % 8 = 0) :
    Settles (fun fuel => swapfunc fuel m a b n swaptype) (exchanged m a b n.toNat) := by
  obtain ⟨hl, hr, hap, hta, htb⟩ := hf
  obtain ⟨m', hexchanges, hruns⟩ := Swappable.exists_runs
    ⟨hl, hr, level_of_apart hap (le_of_lt hta) (le_of_lt htb), hmode⟩
  rw [← hexchanges.unique (exchanges_exchanged hap (le_of_lt hta) (le_of_lt htb))]
  exact hruns.settles

end Modes

def ptr (arr es : Word) (i : ℕ) : Word := arr + BitVec.ofNat 64 (i * es.toNat)

/-- `n` elements of `es` bytes as an object of the language: it is not at the null pointer, its
end is an address and its size a difference of pointers. -/
structure Layout (arr es : Word) (n : ℕ) : Prop where
  pos : 0 < es.toNat
  nonnull : arr ≠ NULL
  top : arr.toNat + n * es.toNat < 2 ^ 64
  size : n * es.toNat < 2 ^ 63

def values (es : Word) : Set (List Byte) := {x | x.length = es.toNat}

/-- The `n` elements of the array are mapped and have the values `a`. -/
def Elements (m : Bytes) (arr es : Word) (n : ℕ) (a : ℕ → List Byte) : Prop :=
  ∀ i < n, loadBytes m (ptr arr es i) es.toNat = some (a i)

section Arrays

variable {arr es : Word} {n i j s : ℕ} {m : Bytes} {a : ℕ → List Byte}

theorem Layout.ptr_toNat (hl : Layout arr es n) (hi : i ≤ n) :
    (ptr arr es i).toNat = arr.toNat + i * es.toNat := by
  have := Nat.mul_le_mul_right es.toNat hi
  have := hl.top
  exact toNat_add_ofNat (by omega)

@[simp] theorem ptr_zero (arr es : Word) : ptr arr es 0 = arr := by
  rw [ptr, Nat.zero_mul]
  exact BitVec.add_zero arr

theorem ptr_add (arr es : Word) (i k : ℕ) :
    ptr arr es i + BitVec.ofNat 64 (k * es.toNat) = ptr arr es (i + k) := by
  rw [ptr, ptr, Nat.add_mul, BitVec.ofNat_add, BitVec.add_assoc]

theorem ptr_sub (arr es : Word) {i k : ℕ} (h : k ≤ i) :
    ptr arr es i - BitVec.ofNat 64 (k * es.toNat) = ptr arr es (i - k) := by
  have hsum := ptr_add arr es (i - k) k
  rw [Nat.sub_add_cancel h] at hsum
  rw [← hsum, BitVec.add_sub_cancel]

theorem ptr_sub_ptr (arr es : Word) {i k : ℕ} (h : k ≤ i) :
    ptr arr es i - ptr arr es k = BitVec.ofNat 64 ((i - k) * es.toNat) := by
  have hsum := ptr_add arr es k (i - k)
  rw [Nat.add_sub_cancel' h] at hsum
  rw [← hsum, BitVec.add_comm, BitVec.add_sub_cancel]

theorem ofNat_es (es : Word) : BitVec.ofNat 64 (1 * es.toNat) = es := by
  rw [Nat.one_mul, BitVec.ofNat_toNat, BitVec.setWidth_eq]

theorem ptr_succ (arr es : Word) (i : ℕ) : ptr arr es i + es = ptr arr es (i + 1) := by
  have := ptr_add arr es i 1
  rwa [ofNat_es] at this

theorem ptr_pred (arr es : Word) (i : ℕ) : ptr arr es (i + 1) - es = ptr arr es i := by
  rw [← ptr_succ, BitVec.add_sub_cancel]

theorem mul_es (k es : Word) : k * es = BitVec.ofNat 64 (k.toNat * es.toNat) := by
  apply BitVec.eq_of_toNat_eq
  rw [BitVec.toNat_mul, BitVec.toNat_ofNat]

theorem Layout.ptr_lt (hl : Layout arr es n) (hi : i ≤ n) (hj : j ≤ n) :
    ptr arr es i < ptr arr es j ↔ i < j := by
  rw [BitVec.lt_def, hl.ptr_toNat hi, hl.ptr_toNat hj, Nat.add_lt_add_iff_left,
    Nat.mul_lt_mul_right hl.pos]

theorem Layout.window (hl : Layout arr es n) {lo w : ℕ} (h : lo + w ≤ n) :
    Layout (ptr arr es lo) es w := by
  have hlo := hl.ptr_toNat (show lo ≤ n by omega)
  have hmul := Nat.mul_le_mul_right es.toNat h
  rw [Nat.add_mul] at hmul
  have htop := hl.top
  have hsize := hl.size
  have hpos : arr.toNat ≠ 0 := fun h => hl.nonnull (BitVec.eq_of_toNat_eq h)
  refine ⟨hl.pos, fun h => ?_, by omega, by omega⟩
  rw [h, toNat_null] at hlo
  omega

theorem ptr_ptr (arr es : Word) (lo i : ℕ) : ptr (ptr arr es lo) es i = ptr arr es (lo + i) :=
  ptr_add arr es lo i

theorem mul_mod_eight (he : es.toNat % 8 = 0) (k : ℕ) : k * es.toNat % 8 = 0 := by
  rw [Nat.mul_mod, he, Nat.mul_zero, Nat.zero_mod]

/-- The elements of an aligned array of whole words are aligned, also when it goes round. -/
theorem ptr_mod_eight (ha : arr.toNat % 8 = 0) (he : es.toNat % 8 = 0) (i : ℕ) :
    (ptr arr es i).toNat % 8 = 0 := by
  have hmul := mul_mod_eight he i
  rw [ptr, BitVec.toNat_add, BitVec.toNat_ofNat]
  omega

theorem elements_iff (hl : Layout arr es n) : Elements m arr es n a ↔
    ∀ i < n, (a i).length = es.toNat ∧
      ∀ k < es.toNat, cells m (arr.toNat + i * es.toNat + k) = (a i)[k]? := by
  refine forall₂_congr fun i hi => ?_
  rw [loadBytes_eq_some]
  refine and_congr_right fun _ => forall₂_congr fun k hk => ?_
  have hle := Nat.mul_le_mul_right es.toNat (show i + 1 ≤ n from hi)
  rw [Nat.succ_mul] at hle
  have := hl.top
  have hat : (ptr arr es i + BitVec.ofNat 64 k).toNat = arr.toNat + i * es.toNat + k := by
    rw [toNat_add_ofNat] <;> rw [hl.ptr_toNat (le_of_lt hi)]
    omega
  rw [← hat, cells_toNat]

theorem Elements.mem_values (h : Elements m arr es n a) (hi : i < n) : a i ∈ values es :=
  (loadBytes_eq_some.mp (h i hi)).1

theorem Elements.mapped (hl : Layout arr es n) (h : Elements m arr es n a) (hi : i + s ≤ n) :
    Mapped m (ptr arr es i) (s * es.toNat) := by
  intro q hq
  have hpos := hl.pos
  have hdiv : q / es.toNat < s := (Nat.div_lt_iff_lt_mul hpos).mpr hq
  have hsplit := Nat.div_add_mod q es.toNat
  have hq' : BitVec.ofNat 64 q = BitVec.ofNat 64 (q / es.toNat * es.toNat) +
      BitVec.ofNat 64 (q % es.toNat) := by
    rw [← BitVec.ofNat_add, Nat.mul_comm, hsplit]
  have hat : ptr arr es i + BitVec.ofNat 64 q =
      ptr arr es (i + q / es.toNat) + BitVec.ofNat 64 (q % es.toNat) := by
    rw [ptr, ptr, hq', Nat.add_mul, BitVec.ofNat_add, BitVec.add_assoc, BitVec.add_assoc,
      BitVec.add_assoc]
  rw [hat]
  exact mapped_of_loadBytes (h (i + q / es.toNat) (by omega)) _ (Nat.mod_lt _ hpos)

theorem Elements.facing (hl : Layout arr es n) (h : Elements m arr es n a) (hi : i + s ≤ n)
    (hj : j + s ≤ n) (hap : Apart i j s) :
    Facing m (ptr arr es i) (ptr arr es j) (s * es.toNat) := by
  have hti := Nat.mul_le_mul_right es.toNat hi
  have htj := Nat.mul_le_mul_right es.toNat hj
  have htop := hl.top
  rw [Nat.add_mul] at hti htj
  have hpi := hl.ptr_toNat (show i ≤ n by omega)
  have hpj := hl.ptr_toNat (show j ≤ n by omega)
  refine ⟨h.mapped hl hi, h.mapped hl hj, ?_, by omega, by omega⟩
  rw [hpi, hpj]
  rcases hap with rfl | hap | hap
  · exact .inl rfl
  · have := Nat.mul_le_mul_right es.toNat hap
    rw [Nat.add_mul] at this
    exact .inr (.inl (by omega))
  · have := Nat.mul_le_mul_right es.toNat hap
    rw [Nat.add_mul] at this
    exact .inr (.inr (by omega))

theorem Elements.exchanged (hl : Layout arr es n) (h : Elements m arr es n a) (hi : i + s ≤ n)
    (hj : j + s ≤ n) : Elements (exchanged m (ptr arr es i) (ptr arr es j) (s * es.toNat)) arr es n
      (exchange a i j s) := by
  have hti := Nat.mul_le_mul_right es.toNat hi
  have htj := Nat.mul_le_mul_right es.toNat hj
  have htop := hl.top
  rw [Nat.add_mul] at hti htj
  have hpi := hl.ptr_toNat (show i ≤ n by omega)
  have hpj := hl.ptr_toNat (show j ≤ n by omega)
  rw [elements_iff hl] at h ⊢
  intro p hp
  have hlt : exchange id i j s p < n := by
    unfold exchange
    simp only [id]
    split_ifs <;> omega
  rw [exchange_eq_comp]
  refine ⟨(h _ hlt).1, fun k hk => ?_⟩
  rw [cells_exchanged (by omega) (by omega), hpi, hpj, exchange_scale _ _ hk, (h _ hlt).2 k hk]
  rfl

theorem Elements.window {lo w : ℕ} (h : Elements m arr es n a) (hw : lo + w ≤ n) :
    Elements m (ptr arr es lo) es w fun k => a (lo + k) := by
  intro i hi
  rw [ptr_ptr]
  exact h (lo + i) (by omega)

/-- `m'` holds a rearrangement `a'` of the elements, and is `m` outside the array. -/
structure Rearranges (arr es : Word) (n : ℕ) (m : Bytes) (a : ℕ → List Byte) (m' : Bytes)
    (a' : ℕ → List Byte) : Prop where
  elements : Elements m' arr es n a'
  outside : ∀ x : Word, x.toNat < arr.toNat ∨ arr.toNat + n * es.toNat ≤ x.toNat → m' x = m x
  perm : (items a' n).Perm (items a n)

theorem Rearranges.refl (h : Elements m arr es n a) : Rearranges arr es n m a m a :=
  ⟨h, fun _ _ => rfl, .refl _⟩

theorem Rearranges.trans {m' m'' : Bytes} {a' a'' : ℕ → List Byte}
    (h : Rearranges arr es n m a m' a') (h' : Rearranges arr es n m' a' m'' a'') :
    Rearranges arr es n m a m'' a'' :=
  ⟨h'.elements, fun x hx => (h'.outside x hx).trans (h.outside x hx), h'.perm.trans h.perm⟩

theorem Elements.rearranges (hl : Layout arr es n) (h : Elements m arr es n a) (hi : i + s ≤ n)
    (hj : j + s ≤ n) (hap : Apart i j s) : Rearranges arr es n m a
      (Rix.exchanged m (ptr arr es i) (ptr arr es j) (s * es.toNat)) (exchange a i j s) where
  elements := h.exchanged hl hi hj
  outside x hx := by
    have hti := Nat.mul_le_mul_right es.toNat hi
    have htj := Nat.mul_le_mul_right es.toNat hj
    rw [Nat.add_mul] at hti htj
    have hpi := hl.ptr_toNat (show i ≤ n by omega)
    have hpj := hl.ptr_toNat (show j ≤ n by omega)
    exact exchanged_outside (by omega) (by omega)
  perm := items_exchange_perm hap hi hj

theorem Elements.settles_swapfunc (hl : Layout arr es n) (h : Elements m arr es n a)
    (hi : i + s ≤ n) (hj : j + s ≤ n) (hap : Apart i j s) {len : Word}
    (hlen : len.toNat = s * es.toNat) : ∃ m', Settles (fun fuel =>
        swapfunc fuel m (ptr arr es i) (ptr arr es j) len (swapInit arr es)) m' ∧
      Rearranges arr es n m a m' (exchange a i j s) := by
  have hf := h.facing hl hi hj hap
  rw [← hlen] at hf
  refine ⟨_, Rix.settles_swapfunc hf fun hmode => ?_, hlen ▸ h.rearranges hl hi hj hap⟩
  obtain ⟨ha, he⟩ := swapInit_le_one.mp hmode
  exact ⟨ptr_mod_eight ha he i, ptr_mod_eight ha he j, hlen ▸ mul_mod_eight he s⟩

theorem Elements.settles_swap (hl : Layout arr es n) (h : Elements m arr es n a) (hi : i < n)
    (hj : j < n) : ∃ m', Settles (fun fuel =>
        swap es (swapInit arr es) fuel m (ptr arr es i) (ptr arr es j)) m' ∧
      Rearranges arr es n m a m' (exchange a i j 1) := by
  have hap : Apart i j 1 := by unfold Apart; omega
  unfold swap
  by_cases h0 : swapInit arr es ≠ 0
  · simp only [if_pos h0]
    exact h.settles_swapfunc hl hi hj hap (Nat.one_mul _).symm
  · obtain ⟨ha, he⟩ := (swapInit_eq_zero hl.pos).mp (not_not.mp h0)
    have hf := h.facing hl hi hj hap
    have hr := h.rearranges hl hi hj hap
    have hpi := ptr_mod_eight ha (by rw [he]) i
    have hpj := ptr_mod_eight ha (by rw [he]) j
    rw [Nat.one_mul, he] at hf hr
    simp only [if_neg h0]
    exact ⟨_, .of_forall fun _ => exchSize_eq hf.left hf.right hf.apart hpi hpj, hr⟩

theorem Elements.settles_vecswap (hl : Layout arr es n) (h : Elements m arr es n a)
    (hi : i + s ≤ n) (hj : j + s ≤ n) (hap : Apart i j s) {len : Word}
    (hlen : len.toNat = s * es.toNat) : ∃ m', Settles (fun fuel =>
        vecswap (swapInit arr es) fuel m (ptr arr es i) (ptr arr es j) len) m' ∧
      Rearranges arr es n m a m' (exchange a i j s) := by
  unfold vecswap
  by_cases hpos : 0 < len
  · simp only [if_pos hpos]
    exact h.settles_swapfunc hl hi hj hap hlen
  · have h0 : s = 0 := by
      rw [BitVec.lt_def, hlen, show (0 : Word).toNat = 0 from rfl, Nat.not_lt, Nat.le_zero] at hpos
      exact (Nat.mul_eq_zero.mp hpos).resolve_right (Nat.pos_iff_ne_zero.mp hl.pos)
    simp only [if_neg hpos]
    rw [h0, exchange_zero]
    exact ⟨m, .of_forall fun _ => rfl, .refl h⟩

/-- `a` with the `w` cells from `lo` on replaced by `b`. -/
def splice (a : ℕ → List Byte) (lo w : ℕ) (b : ℕ → List Byte) : ℕ → List Byte :=
  fun k => if lo ≤ k ∧ k < lo + w then b (k - lo) else a k

theorem splice_inside {lo w k : ℕ} {b : ℕ → List Byte} (hk : k < w) :
    splice a lo w b (lo + k) = b k := by
  rw [splice, if_pos (by omega), Nat.add_sub_cancel_left]

theorem splice_outside {lo w k : ℕ} {b : ℕ → List Byte} (hk : k < lo ∨ lo + w ≤ k) :
    splice a lo w b k = a k := if_neg (by omega)

theorem Rearranges.window (hl : Layout arr es n) (h : Elements m arr es n a) {lo w : ℕ}
    (hw : lo + w ≤ n) {m' : Bytes} {b : ℕ → List Byte}
    (hr : Rearranges (ptr arr es lo) es w m (fun k => a (lo + k)) m' b) :
    Rearranges arr es n m a m' (splice a lo w b) := by
  have hlo := hl.ptr_toNat (show lo ≤ n by omega)
  have hmul := Nat.mul_le_mul_right es.toNat hw
  rw [Nat.add_mul] at hmul
  refine ⟨fun i hi => ?_, fun x hx => hr.outside x (by omega), ?_⟩
  · by_cases hin : lo ≤ i ∧ i < lo + w
    · have helem := hr.elements (i - lo) (by omega)
      rw [ptr_ptr, Nat.add_sub_cancel' hin.1] at helem
      rw [splice, if_pos hin]
      exact helem
    · rw [splice_outside (by omega), ← h i hi]
      -- the bytes of the element lie outside the part
      have hsame : ∀ k < es.toNat, m' (ptr arr es i + BitVec.ofNat 64 k) =
          m (ptr arr es i + BitVec.ofNat 64 k) := by
        intro k hk
        have hpi := hl.ptr_toNat (le_of_lt hi)
        have hi1 := Nat.mul_le_mul_right es.toNat (show i + 1 ≤ n from hi)
        have htop := hl.top
        rw [Nat.succ_mul] at hi1
        have hat : (ptr arr es i + BitVec.ofNat 64 k).toNat = arr.toNat + i * es.toNat + k := by
          rw [toNat_add_ofNat] <;> omega
        refine hr.outside _ ?_
        rw [hat, hlo]
        by_cases hlt : i < lo
        · have := Nat.mul_le_mul_right es.toNat (show i + 1 ≤ lo from hlt)
          rw [Nat.succ_mul] at this
          exact .inl (by omega)
        · have := Nat.mul_le_mul_right es.toNat (show lo + w ≤ i by omega)
          rw [Nat.add_mul] at this
          exact .inr (by omega)
      obtain ⟨hlen, hbytes⟩ := loadBytes_eq_some.mp (h i hi)
      rw [h i hi]
      exact loadBytes_eq_some.mpr ⟨hlen, fun k hk => (hsame k hk).trans (hbytes k hk)⟩
  · refine items_perm_of_window hw ?_ fun k _ hk => splice_outside hk
    rw [items_congr fun k hk => splice_inside hk]
    exact hr.perm

end Arrays

end Rix
