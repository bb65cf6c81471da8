import Rix.QsortPartition

/-!
# `qsort` sorts

By induction on the number of elements: the partition leaves at least the pivot out of
both recursive calls.
-/
namespace Rix
open Fuel Sorting

section

variable {cmp : List Byte → List Byte → ℤ} {arr es : Word} {m : Bytes} {a : ℕ → List Byte}

/-- `PVINIT` keeps the value of the chosen element, in slot 0 or in a copy. -/
theorem exists_pvInit {n k : ℕ} (hl : Layout arr es n) (h : Elements m arr es n a) (hk : k < n) :
    ∃ pv m' a', Settles (fun fuel => pvInit es (swapInit arr es) fuel m arr (ptr arr es k)) (pv, m') ∧
      Rearranges arr es n m a m' a' ∧ pv.Keeps arr es (a k) a' 0 0 n := by
  by_cases h0 : swapInit arr es ≠ 0
  · obtain ⟨m', hs, hr⟩ := h.settles_swap hl (i := 0) (j := k) (by omega) hk
    rw [ptr_zero] at hs
    refine ⟨.slot arr, m', exchange a 0 k 1, (hs.map fun m => (Pivot.slot arr, m)).congr fun fuel => ?_,
      hr, rfl, exchange_left a 0 k, by omega, .inl rfl⟩
    simp only [pvInit, if_pos h0, Option.bind_eq_bind, Option.map_eq_bind]
    rfl
  · obtain ⟨ha, he⟩ := (swapInit_eq_zero hl.pos).mp (not_not.mp h0)
    have helem := h k hk
    rw [he] at helem
    obtain ⟨w, hw, hbytes⟩ := exists_load64 helem
    have halign : (ptr arr es k).toNat % 8 = 0 := by
      rw [hl.ptr_toNat (le_of_lt hk), he]
      omega
    have hroom : es.toNat ≤ arr.toNat := by
      have : arr.toNat ≠ 0 := fun h => hl.nonnull (BitVec.eq_of_toNat_eq h)
      omega
    refine ⟨.copy w, m, a, .of_forall fun fuel => ?_, .refl h, ?_, hroom⟩
    · simp only [pvInit, if_neg h0, loadSize, if_pos halign, hw, Option.bind_eq_bind, Option.bind_some]
      rfl
    · rw [he, ← hbytes]
      rfl

theorem sortParts_eq {n : Word} {st : Scan} (call : Bytes → Word → Word → Option Bytes) :
    sortParts es call arr n st =
      (if st.pb - st.pa > es then call st.mem arr ((st.pb - st.pa) / es) else some st.mem).bind
        fun m => if st.pd - st.pc > es then
          call m (arr + n * es - (st.pd - st.pc)) ((st.pd - st.pc) / es) else some m := by
  simp only [sortParts, Option.bind_eq_bind]
  split <;> rfl

/-- A recursive call on the `w` elements from `lo` on. -/
theorem exists_part (lo w : ℕ) {n : ℕ} (hl : Layout arr es n) (h : Elements m arr es n a)
    (hw : lo + w ≤ n)
    (ih : ∀ (k : Word) {p m b}, k.toNat = w → Layout p es w → Elements m p es w b →
      ∃ m' b', Settles (fun fuel => qsort cmp fuel m p k es) m' ∧ Rearranges p es w m b m' b' ∧
        (Comparison (values es) cmp → Sorted cmp b' w))
    {s : Word} (hs : s = BitVec.ofNat 64 (w * es.toNat)) :
    ∃ m' b', Settles (fun fuel => if s > es then qsort cmp fuel m (ptr arr es lo) (s / es) es
        else some m) m' ∧
      Rearranges arr es n m a m' (splice a lo w b') ∧
      (items b' w).Perm (items (fun k => a (lo + k)) w) ∧
      (Comparison (values es) cmp → Sorted cmp b' w) := by
  have helem := h.window hw
  have hsize := hl.toNat_size (show w ≤ n by omega)
  have hcond : s > es ↔ 1 < w := by
    have := hl.pos
    rw [gt_iff_lt, BitVec.lt_def, hs, hsize]
    constructor
    · intro hlt
      by_contra hc
      have := Nat.mul_le_mul_right es.toNat (show w ≤ 1 by omega)
      omega
    · intro hlt
      have := Nat.mul_le_mul_right es.toNat (show 2 ≤ w from hlt)
      omega
  by_cases hgt : s > es
  · have hcount : (s / es).toNat = w := hs ▸ hl.size_div (by omega)
    obtain ⟨m', b', hset, hr, hsort⟩ := ih (s / es) hcount (hl.window hw) helem
    simp only [if_pos hgt]
    exact ⟨m', b', hset, hr.window hl h hw, hr.perm, hsort⟩
  · simp only [if_neg hgt]
    have hr := Rearranges.refl helem
    refine ⟨m, _, .of_forall fun _ => rfl, hr.window hl h hw, hr.perm, fun _ i j hij hj => ?_⟩
    have hw1 : ¬ 1 < w := fun hlt => hgt (hcond.mpr hlt)
    omega

theorem sorted_splice {n l g : ℕ} {v : List Byte} {b₁ b₂ : ℕ → List Byte}
    (hc : Comparison (values es) cmp) (hv : v ∈ values es)
    (hmem : ∀ k < n, splice (splice a 0 l b₁) (n - g) g b₂ k ∈ values es)
    (h : ThreeWay (fun x => cmp x v) a l g n) (hp₁ : (items b₁ l).Perm (items a l))
    (hp₂ : (items b₂ g).Perm (items (fun k => a (n - g + k)) g)) (hs₁ : Sorted cmp b₁ l)
    (hs₂ : Sorted cmp b₂ g) : Sorted cmp (splice (splice a 0 l b₁) (n - g) g b₂) n := by
  have hle := h.le
  have hlow : ∀ k < l, splice (splice a 0 l b₁) (n - g) g b₂ k = b₁ k := by
    intro k hk
    have hin : splice a 0 l b₁ (0 + k) = b₁ k := splice_inside hk
    rw [Nat.zero_add] at hin
    rw [splice_outside (by omega), hin]
  have hhigh : ∀ k < g, splice (splice a 0 l b₁) (n - g) g b₂ (n - g + k) = b₂ k :=
    fun k hk => splice_inside hk
  refine (h.rearrange ?_ ?_ ?_).sorted hc hmem hv (hs₁.congr hlow) (hs₂.congr hhigh)
  · rw [items_congr hlow]
    exact hp₁
  · intro k h1 h2
    rw [splice_outside (by omega), splice_outside (by omega)]
  · rw [items_congr hhigh]
    exact hp₂

/-- What `qsort` does when the pivot is in place. -/
def sortAround (cmp : List Byte → List Byte → ℤ) (es arr n : Word) (fuel : ℕ) (r : Pivot × Bytes) :
    Option Bytes :=
  (partition cmp es (swapInit arr es) r.1 fuel r.2 arr n).bind fun st =>
    sortParts es (fun m arr n => qsort cmp fuel m arr n es) arr n st

/-- `qsort` terminates and rearranges the elements whenever the comparator finds equal values
equal, and sorts them when it is a total preorder. -/
theorem exists_qsort (cmp : List Byte → List Byte → ℤ) (hrefl : ∀ x ∈ values es, cmp x x = 0) (N : ℕ) :
    ∀ (n : Word) {arr m a}, n.toNat = N → Layout arr es N → Elements m arr es N a → ∃ m' a',
      Settles (fun fuel => qsort cmp fuel m arr n es) m' ∧ Rearranges arr es N m a m' a' ∧
      (Comparison (values es) cmp → Sorted cmp a' N) := by
  induction N using Nat.strong_induction_on with
  | _ N ih =>
    rintro n arr m a rfl hl h
    by_cases h7 : n < 7
    · obtain ⟨m', a', hs, hr, hsort⟩ := exists_insertionSort cmp hl h
      refine ⟨m', a', hs.succ fun fuel => ?_, hr, hsort⟩
      simp only [qsort, if_pos h7]
    · have hn : 7 ≤ n.toNat := Nat.le_of_not_lt fun hlt => h7 (BitVec.lt_def.mpr hlt)
      obtain ⟨k, hk, hpivot⟩ := h.choosePivot cmp hn
      obtain ⟨pv, m₁, a₁, hpv, hr₁, hkeeps⟩ := exists_pvInit hl h hk
      obtain ⟨l, g, a₂, st, hpart, hless, hgreater, hr₂, hthree⟩ :=
        exists_partition hl (by omega) (hrefl _ (h.mem_values hk)) hr₁.elements hkeeps
      have hr := hr₁.trans hr₂
      -- the pivot is in neither part
      have hmem : a k ∈ items a₂ n.toNat := hr.perm.mem_iff.mpr (mem_items.mpr ⟨k, hk, rfl⟩)
      have hlt := hthree.lt hmem (hrefl _ (h.mem_values hk))
      obtain ⟨m₃, b₁, hq₁, hw₁, hp₁, hs₁⟩ := exists_part 0 l hl hr.elements (by omega)
        (fun k => ih l (by omega) k) hless
      obtain ⟨m₄, b₂, hq₂, hw₂, hp₂, hs₂⟩ := exists_part (n.toNat - g) g hl hw₁.elements
        (by omega) (fun k => ih g (by omega) k) hgreater
      have hhigh : items (fun k => splice a₂ 0 l b₁ (n.toNat - g + k)) g =
          items (fun k => a₂ (n.toNat - g + k)) g :=
        items_congr fun k hk => splice_outside (by omega)
      simp only [Nat.zero_add] at hp₁
      rw [hhigh] at hp₂
      refine ⟨m₄, _, ?_, (hr.trans hw₁).trans hw₂,
        fun hc => sorted_splice hc (h.mem_values hk)
          (fun k hk => hw₂.elements.mem_values hk) hthree hp₁ hp₂ (hs₁ hc) (hs₂ hc)⟩
      have hend : arr + n * es - (st.pd - st.pc) = ptr arr es (n.toNat - g) :=
        hgreater ▸ end_sub_size arr es (by omega)
      have hparts : Settles (fun fuel => sortParts es (fun m arr n => qsort cmp fuel m arr n es) arr n st)
          m₄ := by
        rw [ptr_zero] at hq₁
        rw [← hend] at hq₂
        refine (hq₁.bind (g := fun fuel m => if st.pd - st.pc > es then
          qsort cmp fuel m (arr + n * es - (st.pd - st.pc)) ((st.pd - st.pc) / es) es
          else some m) hq₂).congr fun fuel => sortParts_eq _
      have hrest : Settles (fun fuel => sortAround cmp es arr n fuel (pv, m₁)) m₄ := hpart.bind hparts
      refine (hpv.bind hrest).succ fun fuel => ?_
      simp only [qsort, if_neg h7, hpivot, Option.bind_eq_bind, Option.bind_some]
      rfl

theorem Elements.after_low {n l : ℕ} {m₂ : Bytes} {s : Word} (hrefl : ∀ x ∈ values es, cmp x x = 0)
    (hl : Layout arr es n) (h : Elements m arr es n a) (hle : l ≤ n)
    (hs : s = BitVec.ofNat 64 (l * es.toNat))
    (hcall : Settles (fun fuel => if s > es then qsort cmp fuel m arr (s / es) es else some m) m₂) :
    ∃ b, Elements m₂ arr es n (splice a 0 l b) := by
  obtain ⟨m₃, b, hpart, hr, -, -⟩ := exists_part 0 l hl h (by omega)
    (fun k => exists_qsort cmp hrefl l k) hs
  rw [ptr_zero] at hpart
  obtain rfl := hcall.unique hpart
  exact ⟨b, hr.elements⟩

/-- The array at `arr` holds the elements `l`. -/
def Contents (m : Bytes) (arr es : Word) (l : List (List Byte)) : Prop :=
  ∀ i (hi : i < l.length), loadBytes m (ptr arr es i) es.toNat = some l[i]

theorem Contents.elements {l : List (List Byte)} (h : Contents m arr es l) :
    Elements m arr es l.length fun i => l.getD i [] := by
  intro i hi
  simp only [List.getD_eq_getElem?_getD, List.getElem?_eq_getElem hi, Option.getD_some]
  exact h i hi

theorem Elements.contents {n : ℕ} (h : Elements m arr es n a) : Contents m arr es (items a n) := by
  intro i hi
  rw [length_items] at hi
  simp only [items, List.getElem_map, List.getElem_range]
  exact h i hi

theorem items_getD (l : List (List Byte)) : items (fun i => l.getD i []) l.length = l := by
  apply List.ext_getElem
  · simp [items]
  · intro i h1 h2
    simp [items, List.getElem?_eq_getElem h2]

/-- `qsort` on elements of any number and size, at any alignment, with any total preorder. -/
theorem qsort_sorts {n : Word} {l : List (List Byte)} (hl : Layout arr es n.toNat)
    (hc : Comparison (values es) cmp) (hn : l.length = n.toNat) (h : Contents m arr es l) :
    ∃ m' l', Settles (fun fuel => qsort cmp fuel m arr n es) m' ∧ Contents m' arr es l' ∧
      l'.Perm l ∧ l'.Pairwise (fun x y => cmp x y ≤ 0) ∧
      ∀ x : Word, x.toNat < arr.toNat ∨ arr.toNat + n.toNat * es.toNat ≤ x.toNat → m' x = m x := by
  obtain ⟨m', a', hs, hr, hsort⟩ := exists_qsort cmp hc.refl n.toNat n rfl hl (hn ▸ h.elements)
  have hperm := hr.perm
  rw [← hn, items_getD, hn] at hperm
  exact ⟨m', items a' n.toNat, hs, hr.elements.contents, hperm, (hsort hc).pairwise, hr.outside⟩

end

/-- Nine elements of three bytes at an odd address, with ties in their first bytes. -/
def sampleArray : Bytes := fun x =>
  if x.toNat < 4097 then none
  else ([3, 0, 0, 1, 0, 1, 2, 0, 2, 1, 0, 3, 3, 0, 4, 0, 0, 5, 1, 0, 6, 2, 0, 7, 1, 0, 8] : List Byte)[
    x.toNat - 4097]?

def sampleElements : List (List Byte) :=
  [[3, 0, 0], [1, 0, 1], [2, 0, 2], [1, 0, 3], [3, 0, 4], [0, 0, 5], [1, 0, 6], [2, 0, 7], [1, 0, 8]]

def firstByte (x y : List Byte) : ℤ := (x.headD 0).toNat - (y.headD 0).toNat

theorem comparison_firstByte (S : Set (List Byte)) : Comparison S firstByte := by
  unfold firstByte
  constructor
  · intros
    omega
  · intros
    omega
  · intros
    omega

theorem qsort_sorts_sample : ∃ m' l', Settles (fun fuel => qsort firstByte fuel sampleArray 4097 9 3) m' ∧
    Contents m' 4097 3 l' ∧ l'.Perm sampleElements ∧ l'.Pairwise (fun x y => firstByte x y ≤ 0) ∧
    ∀ x : Word, x.toNat < 4097 ∨ 4097 + 9 * 3 ≤ x.toNat → m' x = sampleArray x :=
  qsort_sorts (n := 9) ⟨by decide, by decide, by decide, by decide⟩ (comparison_firstByte _) rfl
    (by unfold Contents; decide)

end Rix
