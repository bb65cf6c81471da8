import Rix.QsortInsertion

/-!
# The partition of `qsort`

The four pointers run as the abstract fat partition does, whatever the comparator, as
long as it finds every element equal to itself.
-/
namespace Rix
open Fuel Sorting

/-- What a pivot of value `v` relies on while the partition moves elements: the slot is not
moved once the scan has passed it, and `pc` may stop one element in front of the array. -/
def Pivot.Keeps (arr es : Word) (pv : Pivot) (v : List Byte) (a : ℕ → List Byte)
    (ja jb jc : ℕ) : Prop :=
  match pv with
  | .slot p => p = arr ∧ a 0 = v ∧ 0 < jc ∧ (jb = 0 ∨ 0 < ja)
  | .copy w => (wordBytes w).take es.toNat = v ∧ es.toNat ≤ arr.toNat

/-- The state of the partition is that of the abstract one; `pc` and `pd` point at elements. -/
structure Scanning (cmp : List Byte → List Byte → ℤ) (arr es : Word) (n : ℕ) (pv : Pivot)
    (v : List Byte) (m₀ : Bytes) (a₀ : ℕ → List Byte) (ja jb jc jd : ℕ) (a : ℕ → List Byte)
    (st : Scan) : Prop where
  pa : st.pa = ptr arr es ja
  pb : st.pb = ptr arr es jb
  pc : st.pc = ptr arr es jc - es
  pd : st.pd = ptr arr es jd - es
  moved : Rearranges arr es n m₀ a₀ st.mem a
  parted : Parted (fun x => cmp x v) a ja jb jc jd n
  keeps : pv.Keeps arr es v a ja jb jc

section

variable {cmp : List Byte → List Byte → ℤ} {arr es : Word} {n : ℕ} {pv : Pivot} {v : List Byte}
  {m m₀ : Bytes} {a a₀ : ℕ → List Byte} {ja jb jc jd i : ℕ} {st : Scan}

theorem Elements.comparePivot (cmp : List Byte → List Byte → ℤ) (h : Elements m arr es n a)
    (hk : pv.Keeps arr es v a ja jb jc) (hi : i < n) :
    comparePivot cmp es m (ptr arr es i) pv = some (cmp (a i) v) := by
  cases pv with
  | slot p =>
      obtain ⟨rfl, hv, -, -⟩ := hk
      have h0 := h 0 (by omega)
      rw [ptr_zero, hv] at h0
      simp only [Rix.comparePivot, h i hi, h0, Option.bind_eq_bind, Option.bind_some]
      rfl
  | copy w =>
      obtain ⟨hv, -⟩ := hk
      simp only [Rix.comparePivot, h i hi, Option.bind_eq_bind, Option.bind_some, hv]
      rfl

theorem Pivot.Keeps.room (hk : pv.Keeps arr es v a ja jb jc) : 0 < jc ∨ es.toNat ≤ arr.toNat := by
  cases pv with
  | slot p => exact .inl hk.2.2.1
  | copy w => exact .inr hk.2

theorem Layout.toNat_ptr_sub_es (hl : Layout arr es n) (hi : i ≤ n)
    (hroom : 0 < i ∨ es.toNat ≤ arr.toNat) :
    (ptr arr es i - es).toNat + es.toNat = arr.toNat + i * es.toNat := by
  have hpi := hl.ptr_toNat hi
  have hle : es.toNat ≤ (ptr arr es i).toNat := by
    rw [hpi]
    rcases hroom with h | h
    · have := Nat.mul_le_mul_right es.toNat h
      omega
    · omega
  rw [BitVec.toNat_sub_of_le (BitVec.le_def.mpr hle), hpi]
  omega

theorem Scanning.le_iff (hl : Layout arr es n) (h : Scanning cmp arr es n pv v m₀ a₀ ja jb jc jd a st) :
    st.pb ≤ st.pc ↔ jb < jc := by
  have hb := h.parted.hbc
  have hc := h.parted.hcd
  have hd := h.parted.hdn
  have hpc := hl.toNat_ptr_sub_es (show jc ≤ n by omega) h.keeps.room
  have hpb := hl.ptr_toNat (show jb ≤ n by omega)
  rw [h.pb, h.pc, BitVec.le_def, hpb]
  have hpos := hl.pos
  constructor
  · intro hle
    have : (jb + 1) * es.toNat ≤ jc * es.toNat := by
      rw [Nat.succ_mul]
      omega
    exact Nat.le_of_mul_le_mul_right this hpos
  · intro hlt
    have := Nat.mul_le_mul_right es.toNat (show jb + 1 ≤ jc from hlt)
    rw [Nat.succ_mul] at this
    omega

theorem Pivot.Keeps.skip (hk : pv.Keeps arr es v a ja jb jc) (hrefl : cmp v v = 0)
    (hne : cmp (a jb) v ≠ 0) : pv.Keeps arr es v a ja (jb + 1) jc := by
  cases pv with
  | slot p =>
      obtain ⟨hp, h0, hc, h⟩ := hk
      refine ⟨hp, h0, hc, .inr (h.resolve_left ?_)⟩
      rintro rfl
      exact hne (h0 ▸ hrefl)
  | copy w => exact hk

theorem Pivot.Keeps.parkLeft (hk : pv.Keeps arr es v a ja jb jc) (hab : ja ≤ jb) :
    pv.Keeps arr es v (exchange a ja jb 1) (ja + 1) (jb + 1) jc := by
  cases pv with
  | slot p =>
      obtain ⟨hp, h0, hc, h⟩ := hk
      refine ⟨hp, ?_, hc, .inr (Nat.succ_pos ja)⟩
      rcases h with h | h
      · obtain rfl : ja = 0 := by omega
        rw [h, exchange_self, h0]
      · rw [exchange_ne (by omega) (by omega), h0]
  | copy w => exact hk

theorem Scanning.scanUp_cases (hl : Layout arr es n) (hrefl : cmp v v = 0)
    (h : Scanning cmp arr es n pv v m₀ a₀ ja jb jc jd a st) (hlt : jb < jc) :
    (∃ ja' a' st', Settles (fun fuel => scanUp cmp es (swapInit arr es) pv fuel st) (.next st') ∧
      Scanning cmp arr es n pv v m₀ a₀ ja' (jb + 1) jc jd a' st') ∨
    (Settles (fun fuel => scanUp cmp es (swapInit arr es) pv fuel st) (.stop st) ∧
      0 < cmp (a jb) v) := by
  have hle := (h.le_iff hl).mpr hlt
  have hc := h.parted.hcd
  have hn := h.parted.hdn
  have hab := h.parted.hab
  have hcmp := h.moved.elements.comparePivot cmp h.keeps (show jb < n by omega)
  rw [← h.pb] at hcmp
  rcases lt_trichotomy (cmp (a jb) v) 0 with hr | hr | hr
  · -- a smaller element stays where it is
    have hnext : Scanning cmp arr es n pv v m₀ a₀ ja (jb + 1) jc jd a { st with pb := st.pb + es } :=
      ⟨h.pa, by simp only [h.pb, ptr_succ], h.pc, h.pd, h.moved, h.parted.skipLess hlt hr,
        h.keeps.skip hrefl (ne_of_lt hr)⟩
    refine .inl ⟨ja, a, _, .of_forall fun fuel => ?_, hnext⟩
    simp only [scanUp, if_pos hle, hcmp, Option.bind_eq_bind, Option.bind_some,
      if_pos (le_of_lt hr), if_neg (ne_of_lt hr)]
    rfl
  · -- an equal element goes to the left end
    obtain ⟨m', hsettles, hswap⟩ := h.moved.elements.settles_swap hl
      (show ja < n by omega) (show jb < n by omega)
    rw [← h.pa, ← h.pb] at hsettles
    have hnext : Scanning cmp arr es n pv v m₀ a₀ (ja + 1) (jb + 1) jc jd (exchange a ja jb 1)
        { st with pa := st.pa + es, pb := st.pb + es, mem := m' } :=
      ⟨by simp only [h.pa, ptr_succ], by simp only [h.pb, ptr_succ], h.pc, h.pd,
        h.moved.trans hswap, h.parted.parkLeft hlt hr, h.keeps.parkLeft hab⟩
    refine .inl ⟨ja + 1, _, _, (hsettles.map fun m => Flow.next
      { st with pa := st.pa + es, pb := st.pb + es, mem := m }).congr fun fuel => ?_, hnext⟩
    simp only [scanUp, if_pos hle, hcmp, Option.bind_eq_bind, Option.bind_some, hr,
      le_refl, if_true, Option.map_eq_bind]
    rfl
  · refine .inr ⟨.of_forall fun fuel => ?_, hr⟩
    simp only [scanUp, if_pos hle, hcmp, Option.bind_eq_bind, Option.bind_some,
      if_neg (Int.not_le.mpr hr)]
    rfl

theorem Scanning.scanUp_done (hl : Layout arr es n)
    (h : Scanning cmp arr es n pv v m₀ a₀ ja jb jc jd a st) (hlt : ¬ jb < jc) :
    Settles (fun fuel => scanUp cmp es (swapInit arr es) pv fuel st) (.stop st) :=
  .of_forall fun _ => if_neg ((h.le_iff hl).not.mpr hlt)

theorem Scanning.exists_scanUp (hl : Layout arr es n) (hrefl : cmp v v = 0)
    (h : Scanning cmp arr es n pv v m₀ a₀ ja jb jc jd a st) : ∃ ja' jb' a' st',
      LoopSettles (scanUp cmp es (swapInit arr es) pv) st st' ∧
      Scanning cmp arr es n pv v m₀ a₀ ja' jb' jc jd a' st' ∧
      (jb' < jc → 0 < cmp (a' jb') v) ∧ jb ≤ jb' := by
  induction hd : jc - jb generalizing ja jb a st with
  | zero =>
      have hdone := h.scanUp_done hl (show ¬ jb < jc by omega)
      exact ⟨ja, jb, a, st, .stop hdone, h, fun hlt => by omega, le_rfl⟩
  | succ d ih =>
      rcases h.scanUp_cases hl hrefl (show jb < jc by omega) with ⟨ja₁, a₁, st₁, hpass, h₁⟩ | ⟨hpass, hr⟩
      · obtain ⟨ja', jb', a', st', hloop, hs, hstop, hmono⟩ := ih h₁ (by omega)
        exact ⟨ja', jb', a', st', .next hpass hloop, hs, hstop, by omega⟩
      · exact ⟨ja, jb, a, st, .stop hpass, h, fun _ => hr, le_rfl⟩

theorem Pivot.Keeps.down (hk : pv.Keeps arr es v a ja jb (jc + 1)) (hrefl : cmp v v = 0)
    (hb : 0 < cmp (a jb) v) (hle : jb ≤ jc) : pv.Keeps arr es v a ja jb jc := by
  cases pv with
  | slot p =>
      obtain ⟨hp, h0, hc, h⟩ := hk
      refine ⟨hp, h0, ?_, h⟩
      rcases Nat.eq_zero_or_pos jc with rfl | hpos
      · obtain rfl : jb = 0 := by omega
        rw [h0, hrefl] at hb
        exact absurd hb (lt_irrefl 0)
      · exact hpos
  | copy w => exact hk

theorem Pivot.Keeps.exchange (hk : pv.Keeps arr es v a ja jb jc) {i j : ℕ} (hi : 0 < i) (hj : 0 < j) :
    pv.Keeps arr es v (exchange a i j 1) ja jb jc := by
  cases pv with
  | slot p =>
      obtain ⟨hp, h0, hc, h⟩ := hk
      exact ⟨hp, by rw [exchange_ne (by omega) (by omega), h0], hc, h⟩
  | copy w => exact hk

theorem Scanning.scanDown_cases (hl : Layout arr es n) (hrefl : cmp v v = 0)
    (h : Scanning cmp arr es n pv v m₀ a₀ ja jb (jc + 1) jd a st) (hlt : jb < jc + 1)
    (hb : 0 < cmp (a jb) v) :
    (∃ jd' a' st', Settles (fun fuel => scanDown cmp es (swapInit arr es) pv fuel st) (.next st') ∧
      Scanning cmp arr es n pv v m₀ a₀ ja jb jc jd' a' st' ∧ (jb < jc → 0 < cmp (a' jb) v)) ∨
    (Settles (fun fuel => scanDown cmp es (swapInit arr es) pv fuel st) (.stop st) ∧
      cmp (a jc) v < 0) := by
  have hle := (h.le_iff hl).mpr hlt
  have hc := h.parted.hcd
  have hn := h.parted.hdn
  have hpc : st.pc = ptr arr es jc := h.pc.trans (ptr_pred arr es jc)
  have hcmp := h.moved.elements.comparePivot cmp h.keeps (show jc < n by omega)
  rw [← hpc] at hcmp
  rcases lt_trichotomy (cmp (a jc) v) 0 with hr | hr | hr
  · refine .inr ⟨.of_forall fun fuel => ?_, hr⟩
    simp only [scanDown, ge_iff_le, if_pos hle, hcmp, Option.bind_eq_bind, Option.bind_some,
      if_neg (Int.not_le.mpr hr)]
    rfl
  · -- an equal element goes to the right end
    have hne : jb ≠ jc := by
      rintro rfl
      omega
    obtain ⟨jd, rfl⟩ := Nat.exists_eq_succ_of_ne_zero (show jd ≠ 0 by omega)
    have hpd : st.pd = ptr arr es jd := h.pd.trans (ptr_pred arr es jd)
    obtain ⟨m', hsettles, hswap⟩ := h.moved.elements.settles_swap hl
      (show jc < n by omega) (show jd < n by omega)
    rw [← hpc, ← hpd] at hsettles
    have hkeeps := (h.keeps.down hrefl hb (by omega)).exchange (i := jc) (j := jd)
      (by omega) (by omega)
    have hnext : Scanning cmp arr es n pv v m₀ a₀ ja jb jc jd (exchange a jc jd 1)
        { st with pd := st.pd - es, pc := st.pc - es, mem := m' } :=
      ⟨h.pa, h.pb, by simp only [hpc], by simp only [hpd], h.moved.trans hswap,
        h.parted.parkRight (by omega) hr, hkeeps⟩
    refine .inl ⟨jd, _, _, (hsettles.map fun m => Flow.next
      { st with pd := st.pd - es, pc := st.pc - es, mem := m }).congr fun fuel => ?_, hnext, fun _ => ?_⟩
    · simp only [scanDown, ge_iff_le, if_pos hle, hcmp, Option.bind_eq_bind, Option.bind_some, hr,
        le_refl, if_true, Option.map_eq_bind]
      rfl
    · rw [exchange_ne hne (by omega)]
      exact hb
  · -- a greater element stays where it is
    have hnext : Scanning cmp arr es n pv v m₀ a₀ ja jb jc jd a { st with pc := st.pc - es } :=
      ⟨h.pa, h.pb, by simp only [hpc], h.pd, h.moved, h.parted.skipGreater (by omega) hr,
        h.keeps.down hrefl hb (by omega)⟩
    refine .inl ⟨jd, a, _, .of_forall fun fuel => ?_, hnext, fun _ => hb⟩
    simp only [scanDown, ge_iff_le, if_pos hle, hcmp, Option.bind_eq_bind, Option.bind_some,
      if_pos (le_of_lt hr), if_neg (ne_of_gt hr)]
    rfl

theorem Scanning.scanDown_done (hl : Layout arr es n)
    (h : Scanning cmp arr es n pv v m₀ a₀ ja jb jc jd a st) (hlt : ¬ jb < jc) :
    Settles (fun fuel => scanDown cmp es (swapInit arr es) pv fuel st) (.stop st) :=
  .of_forall fun _ => if_neg ((h.le_iff hl).not.mpr hlt)

theorem Scanning.exists_scanDown (hl : Layout arr es n) (hrefl : cmp v v = 0)
    (h : Scanning cmp arr es n pv v m₀ a₀ ja jb jc jd a st) (hb : jb < jc → 0 < cmp (a jb) v) :
    ∃ jc' jd' a' st', LoopSettles (scanDown cmp es (swapInit arr es) pv) st st' ∧
      Scanning cmp arr es n pv v m₀ a₀ ja jb jc' jd' a' st' ∧
      (jb < jc' → 0 < cmp (a' jb) v ∧ cmp (a' (jc' - 1)) v < 0) ∧ jc' ≤ jc := by
  induction hd : jc - jb generalizing jc jd a st with
  | zero =>
      have hdone := h.scanDown_done hl (show ¬ jb < jc by omega)
      exact ⟨jc, jd, a, st, .stop hdone, h, fun hlt => by omega, le_rfl⟩
  | succ d ih =>
      obtain ⟨jc, rfl⟩ := Nat.exists_eq_succ_of_ne_zero (show jc ≠ 0 by omega)
      have hlt : jb < jc + 1 := by omega
      rcases h.scanDown_cases hl hrefl hlt (hb hlt) with ⟨jd₁, a₁, st₁, hpass, h₁, hb₁⟩ | ⟨hpass, hr⟩
      · obtain ⟨jc', jd', a', st', hloop, hs, hstop, hmono⟩ := ih h₁ hb₁ (by omega)
        exact ⟨jc', jd', a', st', .next hpass hloop, hs, hstop, by omega⟩
      · exact ⟨jc + 1, jd, a, st, .stop hpass, h, fun _ => ⟨hb hlt, hr⟩, le_rfl⟩

theorem Pivot.Keeps.cross (hk : pv.Keeps arr es v a ja jb (jc + 1)) (hrefl : cmp v v = 0)
    (hb : 0 < cmp (a jb) v) (hlt : jb < jc) :
    pv.Keeps arr es v (Sorting.exchange a jb jc 1) ja (jb + 1) jc := by
  cases pv with
  | slot p =>
      obtain ⟨hp, h0, hc, h⟩ := hk
      have hpos : jb ≠ 0 := by
        rintro rfl
        rw [h0, hrefl] at hb
        exact absurd hb (lt_irrefl 0)
      exact ⟨hp, by rw [exchange_ne (by omega) (by omega), h0], by omega, .inr (h.resolve_left hpos)⟩
  | copy w => exact hk

theorem settles_partitionPass {st₁ st₂ : Scan}
    (hup : LoopSettles (scanUp cmp es (swapInit arr es) pv) st st₁)
    (hdown : LoopSettles (scanDown cmp es (swapInit arr es) pv) st₁ st₂) {r : Flow Scan}
    (hr : Settles (fun fuel => if st₂.pb > st₂.pc then some (Flow.stop st₂)
      else (swap es (swapInit arr es) fuel st₂.mem st₂.pb st₂.pc).map fun m =>
        Flow.next { st₂ with pb := st₂.pb + es, pc := st₂.pc - es, mem := m }) r) :
    Settles (fun fuel => partitionPass cmp es (swapInit arr es) pv fuel st) r := by
  refine (hup.settles.bind (g := fun fuel s =>
    (loop (scanDown cmp es (swapInit arr es) pv fuel) fuel s).bind fun st => if st.pb > st.pc then
        some (Flow.stop st)
      else (swap es (swapInit arr es) fuel st.mem st.pb st.pc).map fun m =>
        Flow.next { st with pb := st.pb + es, pc := st.pc - es, mem := m })
    (hdown.settles.bind hr)).congr fun fuel => ?_
  simp only [partitionPass, Option.bind_eq_bind, Option.map_eq_bind]
  rfl

theorem Scanning.partitionPass_cases (hl : Layout arr es n) (hrefl : cmp v v = 0)
    (h : Scanning cmp arr es n pv v m₀ a₀ ja jb jc jd a st) :
    (∃ ja' jb' jc' jd' a' st',
      Settles (fun fuel => partitionPass cmp es (swapInit arr es) pv fuel st) (.next st') ∧
      Scanning cmp arr es n pv v m₀ a₀ ja' jb' jc' jd' a' st' ∧ jc' - jb' < jc - jb) ∨
    ∃ ja' jb' jd' a' st',
      Settles (fun fuel => partitionPass cmp es (swapInit arr es) pv fuel st) (.stop st') ∧
      Scanning cmp arr es n pv v m₀ a₀ ja' jb' jb' jd' a' st' := by
  obtain ⟨ja₁, jb₁, a₁, st₁, hup, h₁, hgreater, hmono⟩ := h.exists_scanUp hl hrefl
  obtain ⟨jc₂, jd₂, a₂, st₂, hdown, h₂, hends, hmono₂⟩ := h₁.exists_scanDown hl hrefl hgreater
  have hbc := h₂.parted.hbc
  by_cases hlt : jb₁ < jc₂
  · obtain ⟨hb, hc⟩ := hends hlt
    have hle := (h₂.le_iff hl).mpr hlt
    obtain ⟨jc₂, rfl⟩ := Nat.exists_eq_succ_of_ne_zero (show jc₂ ≠ 0 by omega)
    rw [Nat.succ_eq_add_one, Nat.add_sub_cancel] at hc
    have hne : jb₁ ≠ jc₂ := by
      rintro rfl
      omega
    have hcd := h₂.parted.hcd
    have hdn := h₂.parted.hdn
    have hpc : st₂.pc = ptr arr es jc₂ := h₂.pc.trans (ptr_pred arr es jc₂)
    obtain ⟨m', hsettles, hswap⟩ := h₂.moved.elements.settles_swap hl
      (show jb₁ < n by omega) (show jc₂ < n by omega)
    rw [← h₂.pb, ← hpc] at hsettles
    have hnext : Scanning cmp arr es n pv v m₀ a₀ ja₁ (jb₁ + 1) jc₂ jd₂ (Sorting.exchange a₂ jb₁ jc₂ 1)
        { st₂ with pb := st₂.pb + es, pc := st₂.pc - es, mem := m' } :=
      ⟨h₂.pa, by simp only [h₂.pb, ptr_succ], by simp only [hpc], h₂.pd, h₂.moved.trans hswap,
        h₂.parted.cross (by omega) hb hc, h₂.keeps.cross hrefl hb (by omega)⟩
    refine .inl ⟨ja₁, _, _, jd₂, _, _, settles_partitionPass hup hdown ?_, hnext, by omega⟩
    have hgt : ¬ st₂.pb > st₂.pc := BitVec.not_lt.mpr hle
    simp only [if_neg hgt]
    exact hsettles.map _
  · obtain rfl : jc₂ = jb₁ := by omega
    have hgt : st₂.pb > st₂.pc := BitVec.not_le.mp fun hle => hlt ((h₂.le_iff hl).mp hle)
    refine .inr ⟨ja₁, jc₂, jd₂, a₂, st₂, settles_partitionPass hup hdown ?_, h₂⟩
    simp only [if_pos hgt]
    exact .of_forall fun _ => rfl

/-- The partition loop ends with every element looked at. -/
theorem Scanning.exists_partitionLoop (hl : Layout arr es n) (hrefl : cmp v v = 0)
    (h : Scanning cmp arr es n pv v m₀ a₀ ja jb jc jd a st) : ∃ ja' jb' jd' a' st',
      LoopSettles (partitionPass cmp es (swapInit arr es) pv) st st' ∧
      Scanning cmp arr es n pv v m₀ a₀ ja' jb' jb' jd' a' st' := by
  induction hd : jc - jb using Nat.strong_induction_on generalizing ja jb jc jd a st with
  | _ d ih =>
    rcases h.partitionPass_cases hl hrefl with ⟨ja₁, jb₁, jc₁, jd₁, a₁, st₁, hpass, h₁, hlt⟩ |
      ⟨ja', jb', jd', a', st', hpass, h'⟩
    · obtain ⟨ja', jb', jd', a', st', hloop, hs⟩ := ih _ (hd ▸ hlt) h₁ rfl
      exact ⟨ja', jb', jd', a', st', .next hpass hloop, hs⟩
    · exact ⟨ja', jb', jd', a', st', .stop hpass, h'⟩

theorem Layout.toNat_size (hl : Layout arr es n) {x : ℕ} (hx : x ≤ n) :
    (BitVec.ofNat 64 (x * es.toNat)).toNat = x * es.toNat := by
  have := Nat.mul_le_mul_right es.toNat hx
  have := hl.size
  rw [BitVec.toNat_ofNat]
  omega

theorem Layout.size_lt (hl : Layout arr es n) {x y : ℕ} (hx : x ≤ n) (hy : y ≤ n) :
    BitVec.ofNat 64 (x * es.toNat) < BitVec.ofNat 64 (y * es.toNat) ↔ x < y := by
  rw [BitVec.lt_def, hl.toNat_size hx, hl.toNat_size hy, Nat.mul_lt_mul_right hl.pos]

theorem Layout.size_div (hl : Layout arr es n) {x : ℕ} (hx : x ≤ n) :
    (BitVec.ofNat 64 (x * es.toNat) / es).toNat = x := by
  rw [BitVec.toNat_udiv, hl.toNat_size hx, Nat.mul_div_cancel _ hl.pos]

/-- Differences of pointers into the array are not negative. -/
theorem Layout.size_slt (hl : Layout arr es n) {x y : ℕ} (hx : x ≤ n) (hy : y ≤ n) :
    (BitVec.ofNat 64 (x * es.toNat)).slt (BitVec.ofNat 64 (y * es.toNat)) = true ↔ x < y := by
  have hsize := hl.size
  have hint : ∀ k ≤ n, (BitVec.ofNat 64 (k * es.toNat)).toInt = (k * es.toNat : ℕ) := by
    intro k hk
    have := Nat.mul_le_mul_right es.toNat hk
    rw [BitVec.toInt_eq_toNat_of_lt] <;> rw [hl.toNat_size hk]
    omega
  rw [BitVec.slt_eq_decide, hint x hx, hint y hy, decide_eq_true_eq, Int.ofNat_lt,
    Nat.mul_lt_mul_right hl.pos]

theorem ite_min {p : Prop} [Decidable p] {x y e : ℕ} (h : p ↔ x < y) :
    (if p then BitVec.ofNat 64 (x * e) else BitVec.ofNat 64 (y * e)) =
      BitVec.ofNat 64 (min x y * e) := by
  by_cases hlt : x < y
  · rw [if_pos (h.mpr hlt), min_eq_left (le_of_lt hlt)]
  · rw [if_neg fun hp => hlt (h.mp hp), min_eq_right (Nat.le_of_not_lt hlt)]

theorem sub_sub_sub_es (x y es : Word) : x - es - (y - es) = x - y := by
  apply BitVec.eq_of_toNat_eq
  simp only [BitVec.toNat_sub]
  omega

theorem mul_es_end (arr es n : Word) : arr + n * es = ptr arr es n.toNat := by
  rw [mul_es]
  rfl

theorem end_sub_size (arr es : Word) {n : Word} {g : ℕ} (hg : g ≤ n.toNat) :
    arr + n * es - BitVec.ofNat 64 (g * es.toNat) = ptr arr es (n.toNat - g) := by
  rw [mul_es_end]
  exact ptr_sub arr es hg

/-- `s` at the first block exchange. -/
def leftSize (arr : Word) (st : Scan) : Word :=
  if (st.pa - arr).slt (st.pb - st.pa) then st.pa - arr else st.pb - st.pa

/-- `s` at the second block exchange. -/
def rightSize (es arr n : Word) (st : Scan) : Word :=
  if st.pd - st.pc < arr + n * es - st.pd - es then st.pd - st.pc else arr + n * es - st.pd - es

theorem Scanning.leftSize_eq (hl : Layout arr es n)
    (hs : Scanning cmp arr es n pv v m a₀ ja jb jb jd a st) :
    leftSize arr st = BitVec.ofNat 64 (min ja (jb - ja) * es.toNat) := by
  have hab := hs.parted.hab
  have hbd := hs.parted.hcd
  have hdn := hs.parted.hdn
  have hleft : st.pa - arr = BitVec.ofNat 64 (ja * es.toNat) := by
    have := ptr_sub_ptr arr es (Nat.zero_le ja)
    rwa [ptr_zero, Nat.sub_zero, ← hs.pa] at this
  have hless : st.pb - st.pa = BitVec.ofNat 64 ((jb - ja) * es.toNat) := by
    rw [hs.pa, hs.pb, ptr_sub_ptr arr es hab]
  rw [leftSize, hleft, hless]
  exact ite_min (hl.size_slt (by omega) (by omega))

theorem Scanning.rightSize_eq {n : Word} (hl : Layout arr es n.toNat)
    (hs : Scanning cmp arr es n.toNat pv v m a₀ ja jb jb jd a st) :
    rightSize es arr n st = BitVec.ofNat 64 (min (jd - jb) (n.toNat - jd) * es.toNat) := by
  have hbd := hs.parted.hcd
  have hdn := hs.parted.hdn
  have hgreater : st.pd - st.pc = BitVec.ofNat 64 ((jd - jb) * es.toNat) := by
    rw [hs.pd, hs.pc, sub_sub_sub_es, ptr_sub_ptr arr es hbd]
  have hright : ptr arr es n.toNat - st.pd - es = BitVec.ofNat 64 ((n.toNat - jd) * es.toNat) := by
    rw [hs.pd, ← ptr_sub_ptr arr es hdn, BitVec.sub_sub, BitVec.sub_add_cancel]
  rw [rightSize, mul_es_end, hgreater, hright]
  exact ite_min (hl.size_lt (by omega) (by omega))

/-- The block exchanges gather the equal elements in the middle. -/
theorem Scanning.exists_gatherEqual {n : Word} (hl : Layout arr es n.toNat)
    (hs : Scanning cmp arr es n.toNat pv v m a₀ ja jb jb jd a st) : ∃ m',
      Settles (fun fuel => gatherEqual es (swapInit arr es) fuel arr n st) { st with mem := m' } ∧
      Rearranges arr es n.toNat m a₀ m' (gather a ja jb jd n.toNat) := by
  have hab := hs.parted.hab
  have hbd := hs.parted.hcd
  have hdn := hs.parted.hdn
  obtain ⟨m₂, hv₂, hr₂⟩ := hs.moved.elements.settles_vecswap hl (i := 0)
    (j := jb - min ja (jb - ja)) (s := min ja (jb - ja)) (by omega) (by omega)
    (.inr (.inl (by omega))) (hl.toNat_size (by omega))
  obtain ⟨m₃, hv₃, hr₃⟩ := hr₂.elements.settles_vecswap hl (i := jb)
    (j := n.toNat - min (jd - jb) (n.toNat - jd)) (s := min (jd - jb) (n.toNat - jd)) (by omega)
    (by omega) (.inr (.inl (by omega))) (hl.toNat_size (by omega))
  have heq : ∀ fuel, gatherEqual es (swapInit arr es) fuel arr n st =
      (vecswap (swapInit arr es) fuel st.mem arr (st.pb - leftSize arr st) (leftSize arr st)).bind fun m =>
        (vecswap (swapInit arr es) fuel m st.pb (arr + n * es - rightSize es arr n st)
          (rightSize es arr n st)).map fun m => { st with mem := m } := fun fuel => by
    simp only [gatherEqual, Option.bind_eq_bind, Option.map_eq_bind]
    rfl
  refine ⟨m₃, (hv₂.bind (g := fun fuel m => (vecswap (swapInit arr es) fuel m (ptr arr es jb)
      (ptr arr es (n.toNat - min (jd - jb) (n.toNat - jd)))
      (BitVec.ofNat 64 (min (jd - jb) (n.toNat - jd) * es.toNat))).map fun m => { st with mem := m })
    (hv₃.map _)).congr fun fuel => ?_, (hs.moved.trans hr₂).trans hr₃⟩
  rw [heq, hs.leftSize_eq hl, hs.rightSize_eq hl, mul_es_end]
  simp only [hs.pb, ptr_zero, ptr_sub arr es (show min ja (jb - ja) ≤ jb by omega),
    ptr_sub arr es (show min (jd - jb) (n.toNat - jd) ≤ n.toNat by omega)]

theorem Scanning.start (cmp : List Byte → List Byte → ℤ) {n : Word} (hn : 0 < n.toNat) (h : Elements m arr es n.toNat a)
    (hk : pv.Keeps arr es v a 0 0 n.toNat) :
    Scanning cmp arr es n.toNat pv v m a 0 0 n.toNat n.toNat a
      ⟨arr, arr, arr + (n - 1) * es, arr + (n - 1) * es, m⟩ := by
  have hlast : arr + (n - 1) * es = ptr arr es n.toNat - es := by
    obtain ⟨k, hkn⟩ := Nat.exists_eq_succ_of_ne_zero (Nat.pos_iff_ne_zero.mp hn)
    rw [mul_es, BitVec.toNat_sub_of_le (by rw [BitVec.le_def]; exact hn), hkn, Nat.succ_eq_add_one,
      ptr_pred]
    rfl
  exact ⟨(ptr_zero arr es).symm, (ptr_zero arr es).symm, hlast, hlast, .refl h, .start _ a _, hk⟩

/-- The partition leaves the smaller elements in front and the greater ones at the end, and its
pointers say how many of them there are. -/
theorem exists_partition {n : Word} (hl : Layout arr es n.toNat) (hn : 0 < n.toNat)
    (hrefl : cmp v v = 0) (h : Elements m arr es n.toNat a) (hk : pv.Keeps arr es v a 0 0 n.toNat) :
    ∃ l g a' st, Settles (fun fuel => partition cmp es (swapInit arr es) pv fuel m arr n) st ∧
      st.pb - st.pa = BitVec.ofNat 64 (l * es.toNat) ∧
      st.pd - st.pc = BitVec.ofNat 64 (g * es.toNat) ∧
      Rearranges arr es n.toNat m a st.mem a' ∧
      ThreeWay (fun x => cmp x v) a' l g n.toNat := by
  have hstart := Scanning.start cmp hn h hk
  obtain ⟨ja, jb, jd, a₁, st, hloop, hs⟩ := hstart.exists_partitionLoop hl hrefl
  obtain ⟨m', hg, hr⟩ := hs.exists_gatherEqual hl
  refine ⟨jb - ja, jd - jb, gather a₁ ja jb jd n.toNat, { st with mem := m' },
    (hloop.settles.bind (g := fun fuel => gatherEqual es (swapInit arr es) fuel arr n) hg).congr
      fun fuel => ?_, ?_, ?_, hr, hs.parted.gather⟩
  · simp only [partition]
    rfl
  · rw [hs.pa, hs.pb, ptr_sub_ptr arr es hs.parted.hab]
  · rw [hs.pd, hs.pc, sub_sub_sub_es, ptr_sub_ptr arr es hs.parted.hcd]

end

end Rix
