import Rix.QsortRuns

/-!
# The three parts

Behind the partition loop and both block exchanges the array holds the elements smaller than the
pivot, those equal to it and the greater ones, and the two recursive calls get the outer parts.
-/
namespace Rix
open Fuel Sorting

/-- The state of the partition when the elements `l` are parted about `v`. -/
structure PartedAbout (cmp : List Byte → List Byte → ℤ) (arr n es : Word) (v : List Byte)
    (l : List (List Byte)) (st : Scan) (less equal greater : List (List Byte)) : Prop where
  contents : Contents st.mem arr es (less ++ equal ++ greater)
  perm : (less ++ equal ++ greater).Perm l
  forall_less : ∀ x ∈ less, cmp x v < 0
  forall_equal : ∀ x ∈ equal, cmp x v = 0
  forall_greater : ∀ x ∈ greater, 0 < cmp x v
  equal_ne_nil : equal ≠ []
  size_less : (st.pb - st.pa).toNat = less.length * es.toNat
  size_greater : (st.pd - st.pc).toNat = greater.length * es.toNat
  -- `qsort(arr, s / es, es, cmp)`
  low_count : ((st.pb - st.pa) / es).toNat = less.length
  low : Contents st.mem arr es less
  low_perm : less.Perm (l.filter fun x => cmp x v < 0)
  -- `qsort(pn - s, s / es, es, cmp)`, on the memory that the first call leaves
  high_count : ((st.pd - st.pc) / es).toNat = greater.length
  high : ∀ m₂, Settles (fun fuel => if st.pb - st.pa > es then
    qsort cmp fuel st.mem arr ((st.pb - st.pa) / es) es else some st.mem) m₂ →
      Contents m₂ (arr + n * es - (st.pd - st.pc)) es greater
  high_perm : greater.Perm (l.filter fun x => 0 < cmp x v)

section

variable {cmp : List Byte → List Byte → ℤ} {arr es : Word} {m : Bytes} {a : ℕ → List Byte}

theorem Elements.high_contents {n l g : ℕ} {m₂ : Bytes} {s : Word}
    (hrefl : ∀ x ∈ values es, cmp x x = 0) (hl : Layout arr es n) (h : Elements m arr es n a)
    (hle : l + g ≤ n) (hs : s = BitVec.ofNat 64 (l * es.toNat))
    (hcall : Settles (fun fuel => if s > es then qsort cmp fuel m arr (s / es) es else some m) m₂) :
    Contents m₂ (ptr arr es (n - g)) es (items (fun k => a (n - g + k)) g) := by
  obtain ⟨b, h₂⟩ := h.after_low hrefl hl (by omega) hs hcall
  have hhigh : items (fun k => splice a 0 l b (n - g + k)) g = items (fun k => a (n - g + k)) g :=
    items_congr fun k hk => splice_outside (by omega)
  rw [← hhigh]
  exact (h₂.window (by omega)).contents

theorem Rearranges.partedAbout {n : Word} {l g : ℕ} {v : List Byte} {a₀ : ℕ → List Byte} {st : Scan}
    (hrefl : ∀ x ∈ values es, cmp x x = 0) (hl : Layout arr es n.toNat)
    (hr : Rearranges arr es n.toNat m a₀ st.mem a) (hv : v ∈ items a n.toNat) (hvv : cmp v v = 0)
    (hless : st.pb - st.pa = BitVec.ofNat 64 (l * es.toNat))
    (hgreater : st.pd - st.pc = BitVec.ofNat 64 (g * es.toNat))
    (hthree : ThreeWay (fun x => cmp x v) a l g n.toNat) :
    PartedAbout cmp arr n es v (items a₀ n.toNat) st (items a l)
      (items (fun k => a (l + k)) (n.toNat - g - l)) (items (fun k => a (n.toNat - g + k)) g) := by
  have hle := hthree.le
  have hlt := hthree.lt hv hvv
  have h := hr.elements
  have hperm := hr.perm
  rw [hthree.items_eq] at hperm
  obtain ⟨hsmaller, hlarger⟩ := perm_filter_sign (c := fun x => cmp x v) hperm hthree.forall_less
    hthree.forall_equal hthree.forall_greater
  have hlow : Elements st.mem arr es l a := fun i hi => h i (by omega)
  have hend : arr + n * es - (st.pd - st.pc) = ptr arr es (n.toNat - g) :=
    hgreater ▸ end_sub_size arr es (by omega)
  refine ⟨hthree.items_eq ▸ h.contents, hperm, hthree.forall_less, hthree.forall_equal,
    hthree.forall_greater, fun hnil => ?_, ?_, ?_, ?_, hlow.contents, hsmaller, ?_,
    fun m₂ hcall => ?_, hlarger⟩
  · have hzero := congrArg List.length hnil
    rw [length_items, List.length_nil] at hzero
    omega
  · rw [hless, hl.toNat_size (by omega), length_items]
  · rw [hgreater, hl.toNat_size (by omega), length_items]
  · rw [hless, hl.size_div (by omega), length_items]
  · rw [hgreater, hl.size_div (by omega), length_items]
  · rw [hend]
    exact h.high_contents hrefl hl hle hless hcall

/-- The partition about any element, when the comparator finds equal values equal, as a total
preorder does. -/
theorem partition_three_ways {n : Word} {l : List (List Byte)} (hl : Layout arr es n.toNat)
    (hrefl : ∀ x ∈ values es, cmp x x = 0) (h7 : 7 ≤ n.toNat) (hn : l.length = n.toNat)
    (h : Contents m arr es l) :
    (∃ k < l.length, choosePivot cmp es m arr n = some (ptr arr es k)) ∧
    ∀ k (hk : k < l.length), ∃ pv m₁ l₁ st less equal greater,
      Settles (fun fuel => pvInit es (swapInit arr es) fuel m arr (ptr arr es k)) (pv, m₁) ∧
      Contents m₁ arr es l₁ ∧ l₁.Perm l ∧
      Settles (fun fuel => partition cmp es (swapInit arr es) pv fuel m₁ arr n) st ∧
      PartedAbout cmp arr n es l[k] l₁ st less equal greater := by
  have helem : Elements m arr es n.toNat fun i => l.getD i [] := hn ▸ h.elements
  refine ⟨hn ▸ helem.choosePivot cmp h7, fun k hk => ?_⟩
  have hget : l.getD k [] = l[k] := by
    rw [List.getD_eq_getElem?_getD, List.getElem?_eq_getElem hk, Option.getD_some]
  rw [hn] at hk
  obtain ⟨pv, m₁, a₁, hpv, hr₁, hkeeps⟩ := exists_pvInit hl helem hk
  have hvv := hrefl _ (helem.mem_values hk)
  obtain ⟨p, g, a₂, st, hpart, hless, hgreater, hr₂, hthree⟩ :=
    exists_partition hl (by omega) hvv hr₁.elements hkeeps
  have hperm := hr₁.perm
  have hmem : l.getD k [] ∈ items a₂ n.toNat :=
    (hr₁.trans hr₂).perm.mem_iff.mpr (mem_items.mpr ⟨k, hk, rfl⟩)
  have hparted := hr₂.partedAbout hrefl hl hmem hvv hless hgreater hthree
  rw [← hn, items_getD, hn] at hperm
  rw [hget] at hparted
  exact ⟨pv, m₁, items a₁ n.toNat, st, _, _, _, hpv, hr₁.elements.contents, hperm, hpart, hparted⟩

end

theorem partition_three_ways_sample : ∃ pv m₁ l₁ st less equal greater,
    Settles (fun fuel => pvInit 3 (swapInit 4097 3) fuel sampleArray 4097 (ptr 4097 3 2)) (pv, m₁) ∧
    Contents m₁ 4097 3 l₁ ∧ l₁.Perm sampleElements ∧
    Settles (fun fuel => partition firstByte 3 (swapInit 4097 3) pv fuel m₁ 4097 9) st ∧
    PartedAbout firstByte 4097 9 3 [2, 0, 2] l₁ st less equal greater :=
  (partition_three_ways (l := sampleElements) (n := 9) ⟨by decide, by decide, by decide, by decide⟩
    (comparison_firstByte (values 3)).refl (by decide) rfl (by unfold Contents; decide)).2 2 (by decide)

end Rix
