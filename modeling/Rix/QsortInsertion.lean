import Rix.QsortSwap

/-!
# Pivots and short arrays

The comparisons `qsort` makes are of elements of the array, so a median is an element,
and the insertion sort of a short array sorts it.
-/
namespace Rix
open Fuel Sorting

section

variable {cmp : List Byte → List Byte → ℤ} {arr es : Word} {n i j k : ℕ} {m : Bytes}
  {a : ℕ → List Byte}

theorem Elements.compareAt (cmp : List Byte → List Byte → ℤ) (h : Elements m arr es n a)
    (hi : i < n) (hj : j < n) : compareAt cmp es m (ptr arr es i) (ptr arr es j) = some (cmp (a i) (a j)) := by
  simp only [Rix.compareAt, h i hi, h j hj, Option.bind_eq_bind, Option.bind_some]
  rfl

theorem Elements.med3 (cmp : List Byte → List Byte → ℤ) (h : Elements m arr es n a) (hi : i < n)
    (hj : j < n) (hk : k < n) :
    ∃ p < n, med3 cmp es m (ptr arr es i) (ptr arr es j) (ptr arr es k) = some (ptr arr es p) := by
  simp only [Rix.med3, h.compareAt cmp hi hj, h.compareAt cmp hj hk, h.compareAt cmp hi hk,
    Option.bind_eq_bind, Option.bind_some]
  split_ifs
  · exact ⟨j, hj, rfl⟩
  · exact ⟨k, hk, rfl⟩
  · exact ⟨i, hi, rfl⟩
  · exact ⟨j, hj, rfl⟩
  · exact ⟨k, hk, rfl⟩
  · exact ⟨i, hi, rfl⟩

/-- The arguments of the three calls of `med3` on a large array. -/
def medianProbes (es arr n : Word) : List (Word × Word × Word) :=
  let s := n / 8 * es
  let pm := arr + n / 2 * es
  let pn := arr + (n - 1) * es
  [(arr, arr + s, arr + 2 * s), (pm - s, pm, pm + s), (pn - 2 * s, pn - s, pn)]

/-- The arguments of the last call of `med3`. -/
def medianArgs (cmp : List Byte → List Byte → ℤ) (es : Word) (m : Bytes) (arr n : Word) :
    Option (Word × Word × Word) :=
  if n > 40 then do
    let s := n / 8 * es
    let pm := arr + n / 2 * es
    let pn := arr + (n - 1) * es
    let pl ← Rix.med3 cmp es m arr (arr + s) (arr + 2 * s)
    let pm ← Rix.med3 cmp es m (pm - s) pm (pm + s)
    let pn ← Rix.med3 cmp es m (pn - 2 * s) (pn - s) pn
    pure (pl, pm, pn)
  else some (arr, arr + n / 2 * es, arr + (n - 1) * es)

theorem choosePivot_eq {n : Word} : choosePivot cmp es m arr n =
    if n > 7 then (medianArgs cmp es m arr n).bind fun t => Rix.med3 cmp es m t.1 t.2.1 t.2.2
    else some (arr + n / 2 * es) := by
  unfold choosePivot medianArgs
  by_cases h7 : n > 7
  · by_cases h40 : n > 40
    · simp only [if_pos h7, if_pos h40, Option.bind_eq_bind, Option.bind_assoc]
    · simp only [if_pos h7, if_neg h40]
      rfl
  · simp only [if_neg h7]
    rfl

theorem middle_eq (arr es n : Word) : arr + n / 2 * es = ptr arr es (n.toNat / 2) := by
  rw [mul_es, BitVec.toNat_udiv]
  rfl

theorem last_eq (arr es : Word) {n : Word} (hn : 0 < n.toNat) : arr + (n - 1) * es = ptr arr es (n.toNat - 1) := by
  rw [mul_es, BitVec.toNat_sub_of_le (by rw [BitVec.le_def]; exact hn)]
  rfl

theorem medianProbes_eq (arr es : Word) {n : Word} (hn : 7 ≤ n.toNat) : medianProbes es arr n =
    [(ptr arr es 0, ptr arr es (n.toNat / 8), ptr arr es (2 * (n.toNat / 8))),
     (ptr arr es (n.toNat / 2 - n.toNat / 8), ptr arr es (n.toNat / 2),
      ptr arr es (n.toNat / 2 + n.toNat / 8)),
     (ptr arr es (n.toNat - 1 - 2 * (n.toNat / 8)), ptr arr es (n.toNat - 1 - n.toNat / 8),
      ptr arr es (n.toNat - 1))] := by
  have hs : n / 8 * es = BitVec.ofNat 64 (n.toNat / 8 * es.toNat) := by
    rw [mul_es, BitVec.toNat_udiv]
    rfl
  have hs2 : 2 * BitVec.ofNat 64 (n.toNat / 8 * es.toNat) =
      BitVec.ofNat 64 (2 * (n.toNat / 8) * es.toNat) := by
    rw [show (2 : Word) = BitVec.ofNat 64 2 from rfl, ← BitVec.ofNat_mul, Nat.mul_assoc]
  have hptr : ∀ k, arr + BitVec.ofNat 64 (k * es.toNat) = ptr arr es k := fun _ => rfl
  simp only [medianProbes, hs, hs2, middle_eq, last_eq arr es (show 0 < n.toNat by omega),
    hptr, ptr_zero, ptr_add, ptr_sub arr es (show n.toNat / 8 ≤ n.toNat / 2 by omega),
    ptr_sub arr es (show 2 * (n.toNat / 8) ≤ n.toNat - 1 by omega),
    ptr_sub arr es (show n.toNat / 8 ≤ n.toNat - 1 by omega)]

theorem Elements.medianArgs (cmp : List Byte → List Byte → ℤ) {n : Word}
    (h : Elements m arr es n.toNat a) (hn : 7 ≤ n.toNat) :
    ∃ l < n.toNat, ∃ c < n.toNat, ∃ r < n.toNat,
      medianArgs cmp es m arr n = some (ptr arr es l, ptr arr es c, ptr arr es r) := by
  unfold Rix.medianArgs
  by_cases h40 : n > 40
  · have h40' : 40 < n.toNat := BitVec.lt_def.mp h40
    have hprobes := medianProbes_eq arr es hn
    simp only [medianProbes, List.cons.injEq, Prod.mk.injEq, and_true] at hprobes
    obtain ⟨⟨-, h1, h2⟩, ⟨h3, h4, h5⟩, h6, h7, h8⟩ := hprobes
    obtain ⟨l, hl, hml⟩ := h.med3 cmp (i := 0) (j := n.toNat / 8)
      (k := 2 * (n.toNat / 8)) (by omega) (by omega) (by omega)
    obtain ⟨c, hc, hmc⟩ := h.med3 cmp (i := n.toNat / 2 - n.toNat / 8)
      (j := n.toNat / 2) (k := n.toNat / 2 + n.toNat / 8) (by omega) (by omega) (by omega)
    obtain ⟨r, hr, hmr⟩ := h.med3 cmp (i := n.toNat - 1 - 2 * (n.toNat / 8))
      (j := n.toNat - 1 - n.toNat / 8) (k := n.toNat - 1) (by omega) (by omega) (by omega)
    refine ⟨l, hl, c, hc, r, hr, ?_⟩
    rw [ptr_zero, ← h1, ← h2] at hml
    rw [← h3, ← h4, ← h5] at hmc
    rw [← h6, ← h7, ← h8] at hmr
    simp only [if_pos h40, hml, hmc, hmr, Option.bind_eq_bind, Option.bind_some]
    rfl
  · rw [if_neg h40, middle_eq, last_eq arr es (by omega)]
    exact ⟨0, by omega, n.toNat / 2, by omega, n.toNat - 1, by omega, by rw [ptr_zero]⟩

theorem Elements.choosePivot (cmp : List Byte → List Byte → ℤ) {n : Word}
    (h : Elements m arr es n.toNat a) (hn : 7 ≤ n.toNat) :
    ∃ p < n.toNat, choosePivot cmp es m arr n = some (ptr arr es p) := by
  rw [choosePivot_eq]
  by_cases h7 : n > 7
  · obtain ⟨l, hl, c, hc, r, hr, hargs⟩ := h.medianArgs cmp hn
    rw [if_pos h7, hargs]
    exact h.med3 cmp hl hc hr
  · rw [if_neg h7, middle_eq]
    exact ⟨n.toNat / 2, by omega, rfl⟩

/-- A pass of the inner loop on an element that another one stands in front of. -/
theorem Elements.sinkPass_cases (cmp : List Byte → List Byte → ℤ) (hl : Layout arr es n) {l : ℕ}
    (hln : l + 1 < n) (h : Elements m arr es n a) :
    (∃ m₁, Settles (fun fuel => sinkPass cmp es (swapInit arr es) arr fuel (ptr arr es (l + 1), m))
        (.next (ptr arr es l, m₁)) ∧ 0 < cmp (a l) (a (l + 1)) ∧
      Rearranges arr es n m a m₁ (exchange a (l + 1) l 1)) ∨
    (Settles (fun fuel => sinkPass cmp es (swapInit arr es) arr fuel (ptr arr es (l + 1), m))
        (.stop (ptr arr es (l + 1), m)) ∧ cmp (a l) (a (l + 1)) ≤ 0) := by
  have hlt : arr < ptr arr es (l + 1) := by
    have := (hl.ptr_lt (i := 0) (j := l + 1) (by omega) (by omega)).mpr (by omega)
    rwa [ptr_zero] at this
  have hcmp := h.compareAt cmp (show l < n by omega) (show l + 1 < n by omega)
  by_cases hr : 0 < cmp (a l) (a (l + 1))
  · obtain ⟨m₁, hs, hr₁⟩ := h.settles_swap hl (show l + 1 < n by omega) (show l < n by omega)
    refine .inl ⟨m₁, (hs.map fun m => Flow.next (ptr arr es l, m)).congr fun fuel => ?_, hr, hr₁⟩
    simp only [sinkPass, if_pos hlt, ptr_pred, hcmp, if_pos hr, Option.bind_eq_bind,
      Option.bind_some, Option.map_eq_bind]
    rfl
  · refine .inr ⟨.of_forall fun fuel => ?_, Int.not_lt.mp hr⟩
    simp only [sinkPass, if_pos hlt, ptr_pred, hcmp, if_neg hr, Option.bind_eq_bind,
      Option.bind_some]
    rfl

theorem sinkPass_stop {pl : Word} (h : ¬ arr < pl) :
    Settles (fun fuel => sinkPass cmp es (swapInit arr es) arr fuel (pl, m)) (.stop (pl, m)) :=
  .of_forall fun _ => if_neg h

/-- The inner loop puts one element into its place. -/
theorem exists_sink (cmp : List Byte → List Byte → ℤ) (hl : Layout arr es n) {l p : ℕ} (hp : p < n)
    (hlp : l ≤ p) (h : Elements m arr es n a) : ∃ pl m' a',
      LoopSettles (sinkPass cmp es (swapInit arr es) arr) (ptr arr es l, m) (pl, m') ∧
      Rearranges arr es n m a m' a' ∧
      (Comparison (values es) cmp → Inserting cmp a l p → Sorted cmp a' (p + 1)) := by
  induction l generalizing m a with
  | zero =>
      refine ⟨ptr arr es 0, m, a, .stop (sinkPass_stop (by rw [ptr_zero]; exact BitVec.lt_irrefl arr)),
        .refl h, fun hc hi => hi.sorted hc (fun k hk => h.mem_values (by omega)) ?_⟩
      intro k hk
      omega
  | succ l ih =>
      rcases h.sinkPass_cases cmp hl (show l + 1 < n by omega) with ⟨m₁, hpass, hr, hr₁⟩ | ⟨hpass, hr⟩
      · obtain ⟨pl, m', a', hloop, hr', hsort⟩ := ih (by omega) hr₁.elements
        exact ⟨pl, m', a', .next hpass hloop, hr₁.trans hr', fun hc hi =>
          hsort hc (hi.down hc (fun k hk => h.mem_values (by omega)) hr)⟩
      · refine ⟨ptr arr es (l + 1), m, a, .stop hpass, .refl h,
          fun hc hi => hi.sorted hc (fun k hk => h.mem_values (by omega)) ?_⟩
        intro k hk
        obtain rfl := Nat.succ.inj hk
        exact hr

theorem settles_insertBody {pm pl : Word} {m' : Bytes}
    (h : LoopSettles (sinkPass cmp es (swapInit arr es) arr) (pm, m) (pl, m')) :
    Settles (fun fuel => insertBody cmp es (swapInit arr es) arr fuel (pm, m)) (pm + es, m') :=
  (h.settles.map fun st => (pm + es, st.2)).congr fun fuel => by
    simp only [insertBody, Option.bind_eq_bind, Option.map_eq_bind]
    rfl

theorem es_add_mul (es : Word) (k : ℕ) :
    es + BitVec.ofNat 64 k * es = BitVec.ofNat 64 (k + 1) * es := by
  rw [BitVec.ofNat_add, BitVec.add_mul, BitVec.one_mul, BitVec.add_comm]

/-- With no element the outer loop only moves its pointer, which may wrap on the way. -/
theorem exists_insert_empty (cmp : List Byte → List Byte → ℤ) (k : ℕ) {pm : Word}
    (hk : pm + BitVec.ofNat 64 k * es = arr) :
    ∃ pm', WhileSettles (fun st => decide (st.1 < arr)) (insertBody cmp es (swapInit arr es) arr)
      (pm, m) (pm', m) := by
  induction k generalizing pm with
  | zero =>
      have hpm : pm = arr := by simpa using hk
      exact ⟨pm, .stop (decide_eq_false (by simp [hpm]))⟩
  | succ k ih =>
      by_cases hlt : pm < arr
      · have hnext : pm + es + BitVec.ofNat 64 k * es = arr := by
          rw [BitVec.add_assoc, es_add_mul, hk]
        obtain ⟨pm', hw⟩ := ih hnext
        have hstop : LoopSettles (sinkPass cmp es (swapInit arr es) arr) (pm, m) (pm, m) :=
          .stop (sinkPass_stop (BitVec.lt_asymm hlt))
        exact ⟨pm', .next (decide_eq_true hlt) (settles_insertBody hstop) hw⟩
      · exact ⟨pm, .stop (decide_eq_false hlt)⟩

/-- The outer loop sorts the array. -/
theorem exists_insert (cmp : List Byte → List Byte → ℤ) (hl : Layout arr es n) {p : ℕ} (hp : p ≤ n)
    (h : Elements m arr es n a) :
    ∃ pm m' a', WhileSettles (fun st => decide (st.1 < ptr arr es n))
        (insertBody cmp es (swapInit arr es) arr) (ptr arr es p, m) (pm, m') ∧
      Rearranges arr es n m a m' a' ∧
      (Comparison (values es) cmp → Sorted cmp a p → Sorted cmp a' n) := by
  induction hd : n - p generalizing p m a with
  | zero =>
      obtain rfl : p = n := by omega
      exact ⟨_, m, a, .stop (decide_eq_false (BitVec.lt_irrefl _)), .refl h, fun _ hs => hs⟩
  | succ d ih =>
      have hlt := (hl.ptr_lt (i := p) (j := n) hp le_rfl).mpr (by omega)
      obtain ⟨pl, m₁, a₁, hloop, hr₁, hs₁⟩ := exists_sink cmp hl (show p < n by omega) le_rfl h
      obtain ⟨pm, m', a', hw, hr', hs'⟩ := ih (p := p + 1) (by omega) hr₁.elements (by omega)
      have hbody := settles_insertBody hloop
      rw [ptr_succ] at hbody
      exact ⟨pm, m', a', .next (decide_eq_true hlt) hbody hw, hr₁.trans hr',
        fun hc hs => hs' hc (hs₁ hc (.start hs))⟩

/-- The insertion sort terminates, rearranges the array and sorts it. -/
theorem exists_insertionSort (cmp : List Byte → List Byte → ℤ) {n : Word} (hl : Layout arr es n.toNat)
    (h : Elements m arr es n.toNat a) : ∃ m' a',
      Settles (fun fuel => insertionSort cmp es (swapInit arr es) fuel m arr n) m' ∧
      Rearranges arr es n.toNat m a m' a' ∧ (Comparison (values es) cmp → Sorted cmp a' n.toNat) := by
  have hend : arr + n * es = ptr arr es n.toNat := by
    rw [mul_es]
    rfl
  by_cases h0 : n.toNat = 0
  · have hk : arr + es + BitVec.ofNat 64 (2 ^ 64 - 1) * es = arr := by
      rw [BitVec.add_assoc, es_add_mul]
      exact (congrArg (arr + ·) (BitVec.zero_mul)).trans (BitVec.add_zero arr)
    obtain ⟨pm, hw⟩ := exists_insert_empty cmp (m := m) _ hk
    rw [h0]
    refine ⟨m, a, (hw.settles.map Prod.snd).congr fun fuel => ?_, .refl fun i hi => by omega,
      fun _ i j _ hj => by omega⟩
    rw [insertionSort, hend, h0, ptr_zero]
  · obtain ⟨pm, m', a', hw, hr, hs⟩ := exists_insert cmp hl (p := 1) (by omega) h
    refine ⟨m', a', (hw.settles.map Prod.snd).congr fun fuel => ?_, hr,
      fun hc => hs hc fun i j hij hj => by omega⟩
    rw [insertionSort, hend, ← ptr_succ, ptr_zero]

end

end Rix
