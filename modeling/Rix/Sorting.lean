import Mathlib.Tactic

/-!
# Sorting in place

Arrays as functions on cells, of which the first `n` count. Blocks of cells are
exchanged; a partition about a pivot keeps the cells equal to it at both ends until
two block exchanges gather them in the middle.
-/
namespace Sorting

variable {α : Type*} {a b : ℕ → α} {i j s t n : ℕ}

/-- Exchange of the `s` cells at `i` with the `s` cells at `j`. -/
def exchange (a : ℕ → α) (i j s : ℕ) : ℕ → α := fun k =>
  if i ≤ k ∧ k < i + s then a (j + (k - i))
  else if j ≤ k ∧ k < j + s then a (i + (k - j))
  else a k

/-- Two blocks of `s` cells that are the same or disjoint. -/
def Apart (i j s : ℕ) : Prop := i = j ∨ i + s ≤ j ∨ j + s ≤ i

theorem Apart.symm (h : Apart i j s) : Apart j i s := by
  unfold Apart at *
  omega

theorem exchange_self (a : ℕ → α) (i s : ℕ) : exchange a i i s = a := by
  funext k
  unfold exchange
  split
  · rw [Nat.add_sub_cancel' (by omega)]
  · rfl

theorem exchange_zero (a : ℕ → α) (i j : ℕ) : exchange a i j 0 = a := by
  funext k
  unfold exchange
  rw [if_neg (by omega), if_neg (by omega)]

theorem exchange_eq_comp (a : ℕ → α) (i j s : ℕ) : exchange a i j s = a ∘ exchange id i j s := by
  funext k
  unfold exchange
  simp only [Function.comp_apply, id]
  split_ifs <;> rfl

theorem exchange_involutive (h : Apart i j s) : Function.Involutive (exchange id i j s) := by
  intro k
  rcases h with rfl | h
  · simp only [exchange_self, id]
  unfold exchange
  simp only [id]
  split_ifs <;> omega

theorem exchange_of_outside {k : ℕ} (hi : k < i ∨ i + s ≤ k) (hj : k < j ∨ j + s ≤ k) :
    exchange a i j s k = a k := by
  unfold exchange
  rw [if_neg (by omega), if_neg (by omega)]

@[simp] theorem exchange_left (a : ℕ → α) (i j : ℕ) : exchange a i j 1 i = a j := by
  unfold exchange
  rw [if_pos (by omega), Nat.sub_self, Nat.add_zero]

@[simp] theorem exchange_right (a : ℕ → α) (i j : ℕ) : exchange a i j 1 j = a i := by
  unfold exchange
  by_cases h : i = j
  · rw [if_pos (by omega), h, Nat.sub_self, Nat.add_zero]
  · rw [if_neg (by omega), if_pos (by omega), Nat.sub_self, Nat.add_zero]

theorem exchange_ne {k : ℕ} (hi : k ≠ i) (hj : k ≠ j) : exchange a i j 1 k = a k :=
  exchange_of_outside (by omega) (by omega)

/-- Exchanging blocks of cells of `e` units each exchanges the units of the blocks. -/
theorem exchange_scale {β : Type*} (f : ℕ → β) (base : ℕ) {e k : ℕ} (hk : k < e) (p : ℕ) :
    exchange f (base + i * e) (base + j * e) (s * e) (base + p * e + k) =
      f (base + exchange id i j s p * e + k) := by
  have hle : ∀ q, base + q * e ≤ base + p * e + k ↔ q ≤ p := by
    intro q
    rw [Nat.add_assoc, Nat.add_le_add_iff_left]
    constructor
    · intro h
      by_contra hc
      have := Nat.mul_le_mul_right e (Nat.lt_of_not_le hc)
      rw [Nat.succ_mul] at this
      omega
    · intro h
      exact (Nat.mul_le_mul_right e h).trans (Nat.le_add_right _ _)
  have hlt : ∀ q, base + p * e + k < base + q * e + s * e ↔ p < q + s := by
    intro q
    have hend : base + q * e + s * e = base + (q + s) * e := by ring
    rw [hend, ← Nat.not_le, ← Nat.not_le, hle]
  have hsub : ∀ q r, q ≤ p → base + r * e + (base + p * e + k - (base + q * e)) =
      base + (r + (p - q)) * e + k := by
    intro q r h
    have := Nat.mul_le_mul_right e h
    rw [Nat.add_mul, Nat.sub_mul]
    omega
  unfold exchange
  simp only [hle, hlt, id]
  split_ifs with h1 h2
  · rw [hsub _ _ h1.1]
  · rw [hsub _ _ h2.1]
  · rfl

/-- The first `n` cells. -/
def items (a : ℕ → α) (n : ℕ) : List α := (List.range n).map a

@[simp] theorem length_items (a : ℕ → α) (n : ℕ) : (items a n).length = n := by
  rw [items, List.length_map, List.length_range]

theorem mem_items {x : α} : x ∈ items a n ↔ ∃ k < n, a k = x := by
  simp only [items, List.mem_map, List.mem_range]

theorem items_congr (h : ∀ k < n, a k = b k) : items a n = items b n :=
  List.map_congr_left fun k hk => h k (List.mem_range.mp hk)

theorem items_exchange_perm (h : Apart i j s) (hi : i + s ≤ n) (hj : j + s ≤ n) :
    (items (exchange a i j s) n).Perm (items a n) := by
  have hinv := exchange_involutive h
  have hlt : ∀ k, k < n → exchange id i j s k < n := by
    intro k hk
    unfold exchange
    simp only [id]
    split_ifs <;> omega
  have hperm : ((List.range n).map (exchange id i j s)).Perm (List.range n) := by
    refine (List.perm_ext_iff_of_nodup (List.nodup_range.map hinv.injective)
      List.nodup_range).mpr fun k => ?_
    rw [List.mem_map, List.mem_range]
    constructor
    · rintro ⟨k, hk, rfl⟩
      exact hlt k (List.mem_range.mp hk)
    · intro hk
      exact ⟨_, List.mem_range.mpr (hlt k hk), hinv k⟩
  rw [items, exchange_eq_comp, ← List.map_map]
  exact hperm.map a

theorem items_add (a : ℕ → α) (n m : ℕ) :
    items a (n + m) = items a n ++ items (fun k => a (n + k)) m := by
  rw [items, List.range_add, List.map_append, List.map_map]
  rfl

theorem items_perm_of_window {lo w : ℕ} (hw : lo + w ≤ n)
    (h : (items (fun k => a (lo + k)) w).Perm (items (fun k => b (lo + k)) w))
    (hout : ∀ k < n, k < lo ∨ lo + w ≤ k → a k = b k) : (items a n).Perm (items b n) := by
  obtain ⟨r, rfl⟩ := Nat.exists_eq_add_of_le hw
  rw [items_add a, items_add a, items_add b, items_add b]
  refine (List.Perm.append ?_ h).append ?_
  · rw [items_congr fun k hk => hout k (by omega) (.inl hk)]
  · rw [items_congr fun k hk => hout (lo + w + k) (by omega) (.inr (by omega))]

theorem forall_of_items_perm {p : α → Prop} (h : (items a n).Perm (items b n))
    (hb : ∀ k < n, p (b k)) {k : ℕ} (hk : k < n) : p (a k) := by
  obtain ⟨l, hl, he⟩ := mem_items.mp (h.mem_iff.mp (mem_items.mpr ⟨k, hk, rfl⟩))
  exact he ▸ hb l hl

/-- A three-way comparison of a total preorder on the values of `S`. -/
structure Comparison (S : Set α) (cmp : α → α → ℤ) : Prop where
  refl : ∀ x ∈ S, cmp x x = 0
  neg_iff : ∀ x ∈ S, ∀ y ∈ S, cmp x y < 0 ↔ 0 < cmp y x
  trans : ∀ x ∈ S, ∀ y ∈ S, ∀ z ∈ S, cmp x y ≤ 0 → cmp y z ≤ 0 → cmp x z ≤ 0

theorem Comparison.le_of_not_lt {S : Set α} {cmp : α → α → ℤ} (h : Comparison S cmp) {x y : α}
    (hx : x ∈ S) (hy : y ∈ S) (hxy : 0 ≤ cmp x y) : cmp y x ≤ 0 := by
  by_contra hc
  have := (h.neg_iff x hx y hy).mpr (by omega)
  omega

def Sorted (cmp : α → α → ℤ) (a : ℕ → α) (n : ℕ) : Prop :=
  ∀ i j, i < j → j < n → cmp (a i) (a j) ≤ 0

variable {S : Set α} {cmp : α → α → ℤ}

theorem Sorted.congr (h : Sorted cmp b n) (hab : ∀ k < n, a k = b k) : Sorted cmp a n := by
  intro i j hij hj
  rw [hab i (by omega), hab j hj]
  exact h i j hij hj

theorem Sorted.pairwise (h : Sorted cmp a n) : (items a n).Pairwise fun x y => cmp x y ≤ 0 := by
  rw [items, List.pairwise_map]
  exact List.pairwise_lt_range.imp_of_mem fun _ hj hij => h _ _ hij (List.mem_range.mp hj)

/-- Insertion from the right: the first `p + 1` cells are sorted but for the cell `l`, which goes
before all cells on its right. -/
structure Inserting (cmp : α → α → ℤ) (a : ℕ → α) (l p : ℕ) : Prop where
  le : l ≤ p
  rest : ∀ i j, i < j → j ≤ p → i ≠ l → j ≠ l → cmp (a i) (a j) ≤ 0
  right : ∀ j, l < j → j ≤ p → cmp (a l) (a j) ≤ 0

namespace Inserting

variable {l p : ℕ}

theorem start (h : Sorted cmp a p) : Inserting cmp a p p where
  le := le_rfl
  rest i j hij hj hi hl := h i j hij (by omega)
  right j hj hp := absurd hj (by omega)

theorem down (hc : Comparison S cmp) (hS : ∀ k ≤ p, a k ∈ S) (h : Inserting cmp a (l + 1) p)
    (hgt : 0 < cmp (a l) (a (l + 1))) : Inserting cmp (exchange a (l + 1) l 1) l p where
  le := Nat.le_of_succ_le h.le
  rest := by
    intro i j hij hj hi hjl
    by_cases h1 : i = l + 1
    · rw [h1, exchange_left, exchange_ne (by omega) hjl]
      exact h.rest l j (by omega) hj (by omega) (by omega)
    · by_cases h2 : j = l + 1
      · rw [h2, exchange_left, exchange_ne h1 hi]
        exact h.rest i l (by omega) (by omega) h1 (by omega)
      · rw [exchange_ne h1 hi, exchange_ne h2 hjl]
        exact h.rest i j hij hj h1 h2
  right := by
    intro j hlj hj
    rw [exchange_right]
    by_cases h1 : j = l + 1
    · rw [h1, exchange_left]
      have := h.le
      exact hc.le_of_not_lt (hS l (by omega)) (hS _ this) (le_of_lt hgt)
    · rw [exchange_ne h1 (by omega)]
      exact h.right j (by omega) hj

theorem sorted (hc : Comparison S cmp) (hS : ∀ k ≤ p, a k ∈ S) (h : Inserting cmp a l p)
    (hstop : ∀ m, l = m + 1 → cmp (a m) (a l) ≤ 0) : Sorted cmp a (p + 1) := by
  intro i j hij hj
  by_cases hi : i = l
  · exact hi ▸ h.right j (hi ▸ hij) (by omega)
  · by_cases hl : j = l
    · obtain ⟨m, rfl⟩ := Nat.exists_eq_succ_of_ne_zero (show l ≠ 0 by omega)
      have hm := hstop m rfl
      by_cases him : i = m
      · rw [hl, him]
        exact hm
      · have hle := h.le
        have him := h.rest i m (by omega) (by omega) hi (by omega)
        exact hl ▸ hc.trans _ (hS i (by omega)) _ (hS m (by omega)) _ (hS _ hle) him hm
    · exact h.rest i j hij (by omega) hi hl

end Inserting

/-- The partition under way: cells equal to the pivot, smaller ones, cells not looked at, greater
ones, and equal ones again. `c` compares a cell with the pivot. -/
structure Parted (c : α → ℤ) (a : ℕ → α) (ja jb jc jd n : ℕ) : Prop where
  hab : ja ≤ jb
  hbc : jb ≤ jc
  hcd : jc ≤ jd
  hdn : jd ≤ n
  left : ∀ k < ja, c (a k) = 0
  less : ∀ k, ja ≤ k → k < jb → c (a k) < 0
  greater : ∀ k, jc ≤ k → k < jd → 0 < c (a k)
  right : ∀ k, jd ≤ k → k < n → c (a k) = 0

namespace Parted

variable {c : α → ℤ} {ja jb jc jd n : ℕ}

theorem start (c : α → ℤ) (a : ℕ → α) (n : ℕ) : Parted c a 0 0 n n n where
  hab := le_rfl
  hbc := Nat.zero_le n
  hcd := le_rfl
  hdn := le_rfl
  left k hk := absurd hk (Nat.not_lt_zero k)
  less k _ hk := absurd hk (Nat.not_lt_zero k)
  greater k hk hn := absurd hn (by omega)
  right k hk hn := absurd hn (by omega)

theorem skipLess (h : Parted c a ja jb jc jd n) (hlt : jb < jc) (hc : c (a jb) < 0) :
    Parted c a ja (jb + 1) jc jd n := by
  obtain ⟨hab, hbc, hcd, hdn, left, less, greater, right⟩ := h
  refine ⟨by omega, hlt, hcd, hdn, left, ?_, greater, right⟩
  intro k h1 h2
  by_cases hk : k = jb
  · exact hk ▸ hc
  · exact less k h1 (by omega)

theorem parkLeft (h : Parted c a ja jb jc jd n) (hlt : jb < jc) (hc : c (a jb) = 0) :
    Parted c (exchange a ja jb 1) (ja + 1) (jb + 1) jc jd n := by
  obtain ⟨hab, hbc, hcd, hdn, left, less, greater, right⟩ := h
  refine ⟨by omega, hlt, hcd, hdn, ?_, ?_, ?_, ?_⟩
  · intro k hk
    by_cases h1 : k = ja
    · rw [h1, exchange_left]
      exact hc
    · rw [exchange_ne h1 (by omega)]
      exact left k (by omega)
  · intro k h1 h2
    by_cases hk : k = jb
    · rw [hk, exchange_right]
      exact less ja le_rfl (by omega)
    · rw [exchange_ne (by omega) hk]
      exact less k (by omega) (by omega)
  · intro k h1 h2
    rw [exchange_ne (by omega) (by omega)]
    exact greater k h1 h2
  · intro k h1 h2
    rw [exchange_ne (by omega) (by omega)]
    exact right k h1 h2

theorem skipGreater (h : Parted c a ja jb (jc + 1) jd n) (hle : jb ≤ jc) (hc : 0 < c (a jc)) :
    Parted c a ja jb jc jd n := by
  obtain ⟨hab, hbc, hcd, hdn, left, less, greater, right⟩ := h
  refine ⟨hab, hle, by omega, hdn, left, less, ?_, right⟩
  intro k h1 h2
  by_cases hk : k = jc
  · exact hk ▸ hc
  · exact greater k (by omega) h2

theorem parkRight (h : Parted c a ja jb (jc + 1) (jd + 1) n) (hle : jb ≤ jc) (hc : c (a jc) = 0) :
    Parted c (exchange a jc jd 1) ja jb jc jd n := by
  obtain ⟨hab, hbc, hcd, hdn, left, less, greater, right⟩ := h
  refine ⟨hab, hle, by omega, by omega, ?_, ?_, ?_, ?_⟩
  · intro k hk
    rw [exchange_ne (by omega) (by omega)]
    exact left k hk
  · intro k h1 h2
    rw [exchange_ne (by omega) (by omega)]
    exact less k h1 h2
  · intro k h1 h2
    by_cases hk : k = jc
    · rw [hk, exchange_left]
      exact greater jd (by omega) (by omega)
    · rw [exchange_ne hk (by omega)]
      exact greater k (by omega) (by omega)
  · intro k h1 h2
    by_cases hk : k = jd
    · rw [hk, exchange_right]
      exact hc
    · rw [exchange_ne (by omega) hk]
      exact right k (by omega) h2

theorem cross (h : Parted c a ja jb (jc + 1) jd n) (hle : jb < jc) (hb : 0 < c (a jb))
    (hc : c (a jc) < 0) : Parted c (exchange a jb jc 1) ja (jb + 1) jc jd n := by
  obtain ⟨hab, hbc, hcd, hdn, left, less, greater, right⟩ := h
  refine ⟨by omega, hle, by omega, hdn, ?_, ?_, ?_, ?_⟩
  · intro k hk
    rw [exchange_ne (by omega) (by omega)]
    exact left k hk
  · intro k h1 h2
    by_cases hk : k = jb
    · rw [hk, exchange_left]
      exact hc
    · rw [exchange_ne hk (by omega)]
      exact less k h1 (by omega)
  · intro k h1 h2
    by_cases hk : k = jc
    · rw [hk, exchange_right]
      exact hb
    · rw [exchange_ne (by omega) hk]
      exact greater k (by omega) h2
  · intro k h1 h2
    rw [exchange_ne (by omega) (by omega)]
    exact right k h1 h2

end Parted

/-- `l` cells smaller than the pivot in front, `g` greater ones at the end, equal ones between. -/
structure ThreeWay (c : α → ℤ) (a : ℕ → α) (l g n : ℕ) : Prop where
  le : l + g ≤ n
  less : ∀ k < l, c (a k) < 0
  equal : ∀ k, l ≤ k → k < n - g → c (a k) = 0
  greater : ∀ k, n - g ≤ k → k < n → 0 < c (a k)

/-- The parked cells of both ends as they stand after the two block exchanges. -/
def gather (a : ℕ → α) (ja jb jd n : ℕ) : ℕ → α :=
  exchange (exchange a 0 (jb - min ja (jb - ja)) (min ja (jb - ja)))
    jb (n - min (jd - jb) (n - jd)) (min (jd - jb) (n - jd))

/-- Exchanging the shorter of two neighbouring runs with the far end of the other one swaps the
order of the runs. -/
theorem exchange_runs {p q : α → Prop} {lo mid hi : ℕ} (hlo : lo ≤ mid) (hhi : mid ≤ hi)
    (hp : ∀ k, lo ≤ k → k < mid → p (a k)) (hq : ∀ k, mid ≤ k → k < hi → q (a k)) :
    (∀ k, lo ≤ k → k < lo + (hi - mid) → q (exchange a lo (hi - min (mid - lo) (hi - mid))
      (min (mid - lo) (hi - mid)) k)) ∧
    ∀ k, lo + (hi - mid) ≤ k → k < hi → p (exchange a lo (hi - min (mid - lo) (hi - mid))
      (min (mid - lo) (hi - mid)) k) := by
  constructor <;> intro k h1 h2 <;> unfold exchange <;> split_ifs
  · exact hq _ (by omega) (by omega)
  · omega
  · exact hq _ (by omega) (by omega)
  · omega
  · exact hp _ (by omega) (by omega)
  · exact hp _ (by omega) (by omega)

theorem Parted.gather {c : α → ℤ} {ja jb jd : ℕ} (h : Parted c a ja jb jb jd n) :
    ThreeWay c (Sorting.gather a ja jb jd n) (jb - ja) (jd - jb) n := by
  obtain ⟨hab, -, hcd, hdn, left, less, greater, right⟩ := h
  have hl := exchange_runs (p := fun x => c x = 0) (q := fun x => c x < 0) (Nat.zero_le ja) hab
    (fun k _ hk => left k hk) less
  have hr := exchange_runs (p := fun x => 0 < c x) (q := fun x => c x = 0) hcd hdn greater right
  simp only [Nat.sub_zero, Nat.zero_add] at hl
  -- the first exchange stays below `jb`, the second one above
  have hbelow : ∀ k < jb, Sorting.gather a ja jb jd n k =
      exchange a 0 (jb - min ja (jb - ja)) (min ja (jb - ja)) k := by
    intro k hk
    unfold Sorting.gather
    exact exchange_of_outside (by omega) (by omega)
  have habove : ∀ k, jb ≤ k → Sorting.gather a ja jb jd n k =
      exchange a jb (n - min (jd - jb) (n - jd)) (min (jd - jb) (n - jd)) k := by
    intro k hk
    unfold Sorting.gather exchange
    split_ifs <;> first | rfl | omega
  refine ⟨by omega, ?_, ?_, ?_⟩
  · intro k hk
    rw [hbelow k (by omega)]
    exact hl.1 k (Nat.zero_le k) hk
  · intro k h1 h2
    by_cases hk : k < jb
    · rw [hbelow k hk]
      exact hl.2 k h1 hk
    · rw [habove k (by omega)]
      exact hr.1 k (by omega) (by omega)
  · intro k h1 h2
    rw [habove k (by omega)]
    exact hr.2 k (by omega) h2

/-- An array parted three ways whose outer parts are sorted is sorted. -/
theorem ThreeWay.sorted (hc : Comparison S cmp) (hS : ∀ k < n, a k ∈ S) {v : α} (hv : v ∈ S)
    {l g : ℕ} (h : ThreeWay (fun x => cmp x v) a l g n) (hl : Sorted cmp a l)
    (hg : Sorted cmp (fun k => a (n - g + k)) g) : Sorted cmp a n := by
  obtain ⟨hle, less, equal, greater⟩ := h
  have hlow : ∀ k < n - g, cmp (a k) v ≤ 0 := by
    intro k hk
    by_cases h1 : k < l
    · exact le_of_lt (less k h1)
    · exact le_of_eq (equal k (by omega) hk)
  have hhigh : ∀ k, l ≤ k → k < n → cmp v (a k) ≤ 0 := by
    intro k h1 h2
    refine hc.le_of_not_lt (hS k h2) hv ?_
    by_cases hk : k < n - g
    · exact le_of_eq (equal k h1 hk).symm
    · exact le_of_lt (greater k (by omega) h2)
  intro i j hij hj
  by_cases h1 : j < l
  · exact hl i j hij h1
  · by_cases h2 : i < n - g
    · exact hc.trans _ (hS i (by omega)) v hv _ (hS j hj) (hlow i h2) (hhigh j (by omega) hj)
    · have := hg (i - (n - g)) (j - (n - g)) (by omega) (by omega)
      simpa only [Nat.add_sub_cancel' (show n - g ≤ i by omega),
        Nat.add_sub_cancel' (show n - g ≤ j by omega)] using this

/-- Rearranging the outer parts keeps the array parted. -/
theorem ThreeWay.rearrange {c : α → ℤ} {l g : ℕ} (h : ThreeWay c a l g n)
    (hl : (items b l).Perm (items a l))
    (hm : ∀ k, l ≤ k → k < n - g → b k = a k)
    (hg : (items (fun k => b (n - g + k)) g).Perm (items (fun k => a (n - g + k)) g)) :
    ThreeWay c b l g n := by
  obtain ⟨hle, less, equal, greater⟩ := h
  refine ⟨hle, fun k hk => forall_of_items_perm (p := fun x => c x < 0) hl less hk, ?_, ?_⟩
  · intro k h1 h2
    rw [hm k h1 h2]
    exact equal k h1 h2
  · intro k h1 h2
    have := forall_of_items_perm (p := fun x => 0 < c x) hg
      (fun k hk => greater _ (by omega) (by omega)) (show k - (n - g) < g by omega)
    simpa only [Nat.add_sub_cancel' h1] using this

/-- The pivot is among the cells, so both outer parts together leave a cell. -/
theorem ThreeWay.lt {c : α → ℤ} {l g : ℕ} (h : ThreeWay c a l g n) {v : α} (hv : v ∈ items a n)
    (hc : c v = 0) : l + g < n := by
  obtain ⟨k, hk, rfl⟩ := mem_items.mp hv
  have hl : ¬ k < l := fun hk => by have := h.less k hk; omega
  have hg : ¬ n - g ≤ k := fun h1 => by have := h.greater k h1 hk; omega
  have := h.le
  omega

theorem ThreeWay.items_eq {c : α → ℤ} {l g : ℕ} (h : ThreeWay c a l g n) :
    items a n = items a l ++ items (fun k => a (l + k)) (n - g - l) ++
      items (fun k => a (n - g + k)) g := by
  have hle := h.le
  have hmiddle : l + (n - g - l) = n - g := by omega
  have hsplit := items_add a (n - g) g
  rw [Nat.sub_add_cancel (by omega)] at hsplit
  rw [hsplit, ← hmiddle, items_add, hmiddle]

theorem ThreeWay.forall_less {c : α → ℤ} {l g : ℕ} (h : ThreeWay c a l g n) :
    ∀ x ∈ items a l, c x < 0 := by
  intro x hx
  obtain ⟨k, hk, rfl⟩ := mem_items.mp hx
  exact h.less k hk

theorem ThreeWay.forall_equal {c : α → ℤ} {l g : ℕ} (h : ThreeWay c a l g n) :
    ∀ x ∈ items (fun k => a (l + k)) (n - g - l), c x = 0 := by
  intro x hx
  obtain ⟨k, hk, rfl⟩ := mem_items.mp hx
  exact h.equal (l + k) (by omega) (by omega)

theorem ThreeWay.forall_greater {c : α → ℤ} {l g : ℕ} (h : ThreeWay c a l g n) :
    ∀ x ∈ items (fun k => a (n - g + k)) g, 0 < c x := by
  intro x hx
  obtain ⟨k, hk, rfl⟩ := mem_items.mp hx
  have hle := h.le
  exact h.greater (n - g + k) (by omega) (by omega)

theorem perm_filter_sign {c : α → ℤ} {xs ys zs l : List α} (h : (xs ++ ys ++ zs).Perm l)
    (hx : ∀ x ∈ xs, c x < 0) (hy : ∀ x ∈ ys, c x = 0) (hz : ∀ x ∈ zs, 0 < c x) :
    xs.Perm (l.filter fun x => c x < 0) ∧ zs.Perm (l.filter fun x => 0 < c x) := by
  have hless := h.filter fun x => c x < 0
  have hgreater := h.filter fun x => 0 < c x
  rw [List.filter_append, List.filter_append] at hless hgreater
  constructor
  · rwa [List.filter_eq_self.mpr fun x hm => decide_eq_true (hx x hm),
      List.filter_eq_nil_iff.mpr fun x hm => by simp [hy x hm],
      List.filter_eq_nil_iff.mpr fun x hm => by simp [le_of_lt (hz x hm)],
      List.append_nil, List.append_nil] at hless
  · rwa [List.filter_eq_nil_iff.mpr fun x hm => by simp [le_of_lt (hx x hm)],
      List.filter_eq_nil_iff.mpr fun x hm => by simp [hy x hm],
      List.filter_eq_self.mpr fun x hm => decide_eq_true (hz x hm), List.nil_append,
      List.nil_append] at hgreater

end Sorting
