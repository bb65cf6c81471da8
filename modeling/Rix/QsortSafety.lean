import Rix.QsortRuns

/-!
# `qsort` with an inconsistent comparator

Every pointer that a run compares or swaps through points at an element, also when the
comparator is no order. Each site of the code is a constructor of `Touches`.
-/
namespace Rix
open Fuel Sorting

/-- The call of `qsort` on the `n` elements at `arr` compares or swaps through a pointer `p` to
`len` bytes. In the loops these are all the pointers a pass may use. -/
inductive Touches (cmp : List Byte → List Byte → ℤ) (es : Word) :
    Bytes → Word → Word → Word → Word → Prop where
  /-- `cmp(pl - es, pl)` and `swap(pl, pl - es)` of the insertion sort. -/
  | sink {m arr n pm m₁ pl m₂ p} (hn : n < 7)
      (hpm : Visits (fun fuel st => if decide (st.1 < arr + n * es) = true then
          (insertBody cmp es (swapInit arr es) arr fuel st).map Flow.next else some (.stop st))
        (arr + es, m) (pm, m₁)) (hlt : pm < arr + n * es)
      (hpl : Visits (sinkPass cmp es (swapInit arr es) arr) (pm, m₁) (pl, m₂)) (hpos : arr < pl)
      (hp : p = pl ∨ p = pl - es) : Touches cmp es m arr n p es
  /-- `cmp` in the three calls of `med3` on a large array. -/
  | probe {m arr n t p} (hn : ¬ n < 7) (h40 : n > 40) (ht : t ∈ medianProbes es arr n)
      (hp : p = t.1 ∨ p = t.2.1 ∨ p = t.2.2) : Touches cmp es m arr n p es
  /-- `cmp` in the last call of `med3`. -/
  | median {m arr n t p} (hn : ¬ n < 7) (ht : medianArgs cmp es m arr n = some t)
      (hp : p = t.1 ∨ p = t.2.1 ∨ p = t.2.2) : Touches cmp es m arr n p es
  /-- `PVINIT`, and `cmp` with the pivot in slot 0. -/
  | pivot {m arr n pm p} (hn : ¬ n < 7) (hpm : choosePivot cmp es m arr n = some pm)
      (hp : p = arr ∨ p = pm) : Touches cmp es m arr n p es
  /-- `cmp(pb, pv)` and `swap(pa, pb)`. -/
  | up {m arr n pm pv m₁ st st' p} (hn : ¬ n < 7) (hpm : choosePivot cmp es m arr n = some pm)
      (hpv : Settles (fun fuel => pvInit es (swapInit arr es) fuel m arr pm) (pv, m₁))
      (hst : Visits (partitionPass cmp es (swapInit arr es) pv)
        ⟨arr, arr, arr + (n - 1) * es, arr + (n - 1) * es, m₁⟩ st)
      (hup : Visits (scanUp cmp es (swapInit arr es) pv) st st') (hle : st'.pb ≤ st'.pc)
      (hp : p = st'.pa ∨ p = st'.pb) : Touches cmp es m arr n p es
  /-- `cmp(pc, pv)`, `swap(pc, pd)` and `swap(pb, pc)`. -/
  | down {m arr n pm pv m₁ st st' st'' p} (hn : ¬ n < 7)
      (hpm : choosePivot cmp es m arr n = some pm)
      (hpv : Settles (fun fuel => pvInit es (swapInit arr es) fuel m arr pm) (pv, m₁))
      (hst : Visits (partitionPass cmp es (swapInit arr es) pv)
        ⟨arr, arr, arr + (n - 1) * es, arr + (n - 1) * es, m₁⟩ st)
      (hup : LoopSettles (scanUp cmp es (swapInit arr es) pv) st st')
      (hdown : Visits (scanDown cmp es (swapInit arr es) pv) st' st'') (hle : st''.pb ≤ st''.pc)
      (hp : p = st''.pb ∨ p = st''.pc ∨ p = st''.pd) : Touches cmp es m arr n p es
  /-- `vecswap(arr, pb - s, s)`. -/
  | left {m arr n pm pv m₁ st p} (hn : ¬ n < 7) (hpm : choosePivot cmp es m arr n = some pm)
      (hpv : Settles (fun fuel => pvInit es (swapInit arr es) fuel m arr pm) (pv, m₁))
      (hst : LoopSettles (partitionPass cmp es (swapInit arr es) pv)
        ⟨arr, arr, arr + (n - 1) * es, arr + (n - 1) * es, m₁⟩ st)
      (hp : p = arr ∨ p = st.pb - leftSize arr st) : Touches cmp es m arr n p (leftSize arr st)
  /-- `vecswap(pb, pn - s, s)`. -/
  | right {m arr n pm pv m₁ st p} (hn : ¬ n < 7) (hpm : choosePivot cmp es m arr n = some pm)
      (hpv : Settles (fun fuel => pvInit es (swapInit arr es) fuel m arr pm) (pv, m₁))
      (hst : LoopSettles (partitionPass cmp es (swapInit arr es) pv)
        ⟨arr, arr, arr + (n - 1) * es, arr + (n - 1) * es, m₁⟩ st)
      (hp : p = st.pb ∨ p = arr + n * es - rightSize es arr n st) :
      Touches cmp es m arr n p (rightSize es arr n st)
  /-- The first recursive call. -/
  | low {m arr n pm pv m₁ st p len} (hn : ¬ n < 7) (hpm : choosePivot cmp es m arr n = some pm)
      (hpv : Settles (fun fuel => pvInit es (swapInit arr es) fuel m arr pm) (pv, m₁))
      (hst : Settles (fun fuel => partition cmp es (swapInit arr es) pv fuel m₁ arr n) st)
      (hgt : st.pb - st.pa > es)
      (hp : Touches cmp es st.mem arr ((st.pb - st.pa) / es) p len) : Touches cmp es m arr n p len
  /-- The second recursive call, on the memory that the first one leaves. -/
  | high {m arr n pm pv m₁ st m₂ p len} (hn : ¬ n < 7)
      (hpm : choosePivot cmp es m arr n = some pm)
      (hpv : Settles (fun fuel => pvInit es (swapInit arr es) fuel m arr pm) (pv, m₁))
      (hst : Settles (fun fuel => partition cmp es (swapInit arr es) pv fuel m₁ arr n) st)
      (hlow : Settles (fun fuel => if st.pb - st.pa > es then
        qsort cmp fuel st.mem arr ((st.pb - st.pa) / es) es else some st.mem) m₂)
      (hgt : st.pd - st.pc > es)
      (hp : Touches cmp es m₂ (arr + n * es - (st.pd - st.pc)) ((st.pd - st.pc) / es) p len) :
      Touches cmp es m arr n p len

/-- `p` points at whole elements of the array, `len` bytes of them. -/
def AtElements (arr es n p len : Word) : Prop :=
  ∃ i k, p = ptr arr es i ∧ len.toNat = k * es.toNat ∧ i + k ≤ n.toNat

theorem atElement {arr es n : Word} {i : ℕ} (hi : i < n.toNat) : AtElements arr es n (ptr arr es i) es :=
  ⟨i, 1, rfl, (Nat.one_mul _).symm, hi⟩

section

variable {cmp : List Byte → List Byte → ℤ} {arr es : Word} {m m₁ : Bytes} {a : ℕ → List Byte}

theorem seven_le {n : Word} (hn : ¬ n < 7) : 7 ≤ n.toNat :=
  Nat.le_of_not_lt fun hlt => hn (BitVec.lt_def.mpr hlt)

theorem Elements.sink_visits {n l : ℕ} (hl : Layout arr es n) (hln : l < n) (h : Elements m arr es n a)
    {q : Word × Bytes}
    (hq : Visits (sinkPass cmp es (swapInit arr es) arr) (ptr arr es l, m) q) :
    ∃ l' < n, q.1 = ptr arr es l' ∧ ∃ a', Elements q.2 arr es n a' := by
  refine hq.inv (fun q => ∃ l < n, q.1 = ptr arr es l ∧ ∃ a', Elements q.2 arr es n a') ?_
    ⟨l, hln, rfl, a, h⟩
  rintro ⟨pl, m⟩ r ⟨l, hln, hpl, a, h⟩ hpass
  obtain rfl : pl = ptr arr es l := hpl
  cases l with
  | zero =>
      refine absurd (sinkPass_stop ?_) hpass.not_stop
      rw [ptr_zero]
      exact BitVec.lt_irrefl arr
  | succ l =>
      rcases h.sinkPass_cases cmp hl hln with ⟨m₁, hnext, -, hr⟩ | ⟨hstop, -⟩
      · rw [hpass.next_eq hnext]
        exact ⟨l, by omega, rfl, _, hr.elements⟩
      · exact absurd hstop hpass.not_stop

theorem sink_visits_front {pm : Word} (hpm : pm < arr) {q : Word × Bytes}
    (hq : Visits (sinkPass cmp es (swapInit arr es) arr) (pm, m) q) : q.1 < arr := by
  refine hq.inv (fun q => q.1 < arr) (fun r u hr hpass => ?_) hpm
  exact absurd (sinkPass_stop (BitVec.lt_asymm hr)) hpass.not_stop

/-- The pointer of the outer loop is at an element or at the end. -/
theorem Elements.insert_visits {n : Word} (hl : Layout arr es n.toNat) (hn : 0 < n.toNat)
    (h : Elements m arr es n.toNat a) {q : Word × Bytes}
    (hq : Visits (fun fuel st => if decide (st.1 < arr + n * es) = true then
        (insertBody cmp es (swapInit arr es) arr fuel st).map Flow.next else some (.stop st))
      (arr + es, m) q) :
    ∃ p ≤ n.toNat, q.1 = ptr arr es p ∧ ∃ a', Elements q.2 arr es n.toNat a' := by
  refine hq.inv (fun q => ∃ p ≤ n.toNat, q.1 = ptr arr es p ∧ ∃ a', Elements q.2 arr es n.toNat a') ?_
    ⟨1, hn, by rw [← ptr_succ, ptr_zero], a, h⟩
  rintro ⟨pm, m⟩ r ⟨p, hp, hpm, a, h⟩ hpass
  obtain rfl : pm = ptr arr es p := hpm
  simp only [mul_es_end, hl.ptr_lt hp le_rfl, decide_eq_true_eq] at hpass
  by_cases hlt : p < n.toNat
  · obtain ⟨pl, m', a', hloop, hr, -⟩ := exists_sink cmp hl hlt le_rfl h
    have hnext := (settles_insertBody hloop).map Flow.next
    simp only [if_pos hlt] at hpass
    rw [hpass.next_eq hnext]
    exact ⟨p + 1, hlt, ptr_succ arr es p, a', hr.elements⟩
  · simp only [if_neg hlt] at hpass
    exact absurd (.of_forall fun _ => rfl) hpass.not_stop

theorem Elements.sink_atElements {n pm pl p : Word} {m₂ : Bytes} (hl : Layout arr es n.toNat)
    (h : Elements m arr es n.toNat a)
    (hpm : Visits (fun fuel st => if decide (st.1 < arr + n * es) = true then
        (insertBody cmp es (swapInit arr es) arr fuel st).map Flow.next else some (.stop st))
      (arr + es, m) (pm, m₁)) (hlt : pm < arr + n * es)
    (hpl : Visits (sinkPass cmp es (swapInit arr es) arr) (pm, m₁) (pl, m₂)) (hpos : arr < pl)
    (hp : p = pl ∨ p = pl - es) : AtElements arr es n p es := by
  by_cases h0 : n.toNat = 0
  · rw [mul_es_end, h0, ptr_zero] at hlt
    exact absurd (sink_visits_front hlt hpl) (BitVec.lt_asymm hpos)
  obtain ⟨k, hk, hpm', a', h'⟩ := h.insert_visits hl (Nat.pos_iff_ne_zero.mpr h0) hpm
  dsimp only at hpm' h'
  rw [hpm', mul_es_end, hl.ptr_lt hk le_rfl] at hlt
  rw [hpm'] at hpl
  obtain ⟨l, hln, hpl', -⟩ := h'.sink_visits hl hlt hpl
  dsimp only at hpl'
  have hl0 : 0 < l := (hl.ptr_lt (Nat.zero_le _) (le_of_lt hln)).mp (by
    rw [ptr_zero, ← hpl']
    exact hpos)
  obtain ⟨l, rfl⟩ := Nat.exists_eq_succ_of_ne_zero (Nat.pos_iff_ne_zero.mp hl0)
  rw [hpl', Nat.succ_eq_add_one, ptr_pred] at hp
  rcases hp with rfl | rfl
  · exact atElement hln
  · exact atElement (by omega)

theorem Elements.started {n : Word} (hl : Layout arr es n.toNat) (h : Elements m arr es n.toNat a)
    (hn : ¬ n < 7) {pm : Word} (hpm : Rix.choosePivot cmp es m arr n = some pm) {pv : Pivot}
    (hpv : Settles (fun fuel => pvInit es (swapInit arr es) fuel m arr pm) (pv, m₁)) :
    ∃ v ∈ values es, ∃ a₁, Rearranges arr es n.toNat m a m₁ a₁ ∧ v ∈ items a₁ n.toNat ∧
      pv.Keeps arr es v a₁ 0 0 n.toNat := by
  obtain ⟨k, hk, hchoose⟩ := h.choosePivot cmp (seven_le hn)
  obtain rfl := Option.some.inj (hpm.symm.trans hchoose)
  obtain ⟨pv', m', a₁, hset, hr, hkeeps⟩ := exists_pvInit hl h hk
  obtain ⟨rfl, rfl⟩ := Prod.mk.inj (hpv.unique hset)
  exact ⟨a k, h.mem_values hk, a₁, hr, hr.perm.mem_iff.mpr (mem_items.mpr ⟨k, hk, rfl⟩), hkeeps⟩

theorem Elements.scanning {n : Word} (hrefl : ∀ x ∈ values es, cmp x x = 0)
    (hl : Layout arr es n.toNat) (h : Elements m arr es n.toNat a) (hn : ¬ n < 7) {pm : Word}
    (hpm : Rix.choosePivot cmp es m arr n = some pm) {pv : Pivot}
    (hpv : Settles (fun fuel => pvInit es (swapInit arr es) fuel m arr pm) (pv, m₁)) :
    ∃ v a₁, cmp v v = 0 ∧ Scanning cmp arr es n.toNat pv v m₁ a₁ 0 0 n.toNat n.toNat a₁
      ⟨arr, arr, arr + (n - 1) * es, arr + (n - 1) * es, m₁⟩ := by
  obtain ⟨v, hv, a₁, hr, -, hkeeps⟩ := h.started hl hn hpm hpv
  have hpos : 0 < n.toNat := lt_of_lt_of_le (by decide) (seven_le hn)
  exact ⟨v, a₁, hrefl v hv, .start cmp hpos hr.elements hkeeps⟩

theorem Elements.partitioned {n : Word} (hrefl : ∀ x ∈ values es, cmp x x = 0)
    (hl : Layout arr es n.toNat) (h : Elements m arr es n.toNat a) (hn : ¬ n < 7) {pm : Word}
    (hpm : Rix.choosePivot cmp es m arr n = some pm) {pv : Pivot}
    (hpv : Settles (fun fuel => pvInit es (swapInit arr es) fuel m arr pm) (pv, m₁)) {st : Scan}
    (hst : LoopSettles (partitionPass cmp es (swapInit arr es) pv)
      ⟨arr, arr, arr + (n - 1) * es, arr + (n - 1) * es, m₁⟩ st) :
    ∃ v ja jb jd a₁ a', Scanning cmp arr es n.toNat pv v m₁ a₁ ja jb jb jd a' st := by
  obtain ⟨v, a₁, hv, hstart⟩ := h.scanning hrefl hl hn hpm hpv
  obtain ⟨ja, jb, jd, a', st', hloop, hs⟩ := hstart.exists_partitionLoop hl hv
  obtain rfl := hst.settles.unique hloop.settles
  exact ⟨v, ja, jb, jd, a₁, a', hs⟩

/-- What the two recursive calls get: the first elements and the last ones. -/
theorem Elements.parts {n : Word} (hrefl : ∀ x ∈ values es, cmp x x = 0) (hl : Layout arr es n.toNat)
    (h : Elements m arr es n.toNat a) (hn : ¬ n < 7) {pm : Word}
    (hpm : Rix.choosePivot cmp es m arr n = some pm) {pv : Pivot}
    (hpv : Settles (fun fuel => pvInit es (swapInit arr es) fuel m arr pm) (pv, m₁)) {st : Scan}
    (hst : Settles (fun fuel => partition cmp es (swapInit arr es) pv fuel m₁ arr n) st) :
    ∃ l g a', l + g ≤ n.toNat ∧ st.pb - st.pa = BitVec.ofNat 64 (l * es.toNat) ∧
      ((st.pb - st.pa) / es).toNat = l ∧ ((st.pd - st.pc) / es).toNat = g ∧
      arr + n * es - (st.pd - st.pc) = ptr arr es (n.toNat - g) ∧
      Elements st.mem arr es n.toNat a' := by
  obtain ⟨v, hv, a₁, hr, -, hkeeps⟩ := h.started hl hn hpm hpv
  have hpos : 0 < n.toNat := lt_of_lt_of_le (by decide) (seven_le hn)
  obtain ⟨l, g, a₂, st', hpart, hless, hgreater, hr₂, hthree⟩ :=
    exists_partition hl hpos (hrefl v hv) hr.elements hkeeps
  obtain rfl := hst.unique hpart
  have hle := hthree.le
  exact ⟨l, g, a₂, by omega, hless, hless ▸ hl.size_div (by omega), hgreater ▸ hl.size_div (by omega),
    hgreater ▸ end_sub_size arr es (by omega), hr₂.elements⟩

section Scans

variable {n : ℕ} {pv : Pivot} {v : List Byte} {a₀ : ℕ → List Byte} {st st' : Scan}

/-- The pointers of the scan are those of an abstract one. -/
def Scans (cmp : List Byte → List Byte → ℤ) (arr es : Word) (n : ℕ) (pv : Pivot) (v : List Byte)
    (m₀ : Bytes) (a₀ : ℕ → List Byte) (st : Scan) : Prop :=
  ∃ ja jb jc jd a, Scanning cmp arr es n pv v m₀ a₀ ja jb jc jd a st

/-- The same behind the scan upwards. -/
def ScansDown (cmp : List Byte → List Byte → ℤ) (arr es : Word) (n : ℕ) (pv : Pivot) (v : List Byte)
    (m₀ : Bytes) (a₀ : ℕ → List Byte) (st : Scan) : Prop :=
  ∃ ja jb jc jd a, Scanning cmp arr es n pv v m₀ a₀ ja jb jc jd a st ∧ (jb < jc → 0 < cmp (a jb) v)

theorem Scans.pass (hl : Layout arr es n) (hrefl : cmp v v = 0)
    (h : Scans cmp arr es n pv v m₁ a₀ st)
    (hv : Visits (partitionPass cmp es (swapInit arr es) pv) st st') :
    Scans cmp arr es n pv v m₁ a₀ st' := by
  refine hv.inv _ ?_ h
  rintro st u ⟨ja, jb, jc, jd, a, hs⟩ hpass
  rcases hs.partitionPass_cases hl hrefl with ⟨ja', jb', jc', jd', a', st', hnext, hs', -⟩ |
    ⟨ja', jb', jd', a', st', hstop, -⟩
  · rw [hpass.next_eq hnext]
    exact ⟨ja', jb', jc', jd', a', hs'⟩
  · exact absurd hstop hpass.not_stop

theorem Scans.up (hl : Layout arr es n) (hrefl : cmp v v = 0)
    (h : Scans cmp arr es n pv v m₁ a₀ st)
    (hv : Visits (scanUp cmp es (swapInit arr es) pv) st st') : Scans cmp arr es n pv v m₁ a₀ st' := by
  refine hv.inv _ ?_ h
  rintro st u ⟨ja, jb, jc, jd, a, hs⟩ hpass
  by_cases hlt : jb < jc
  · rcases hs.scanUp_cases hl hrefl hlt with ⟨ja', a', st', hnext, hs'⟩ | ⟨hstop, -⟩
    · rw [hpass.next_eq hnext]
      exact ⟨ja', jb + 1, jc, jd, a', hs'⟩
    · exact absurd hstop hpass.not_stop
  · exact absurd (hs.scanUp_done hl hlt) hpass.not_stop

theorem Scans.afterUp (hl : Layout arr es n) (hrefl : cmp v v = 0)
    (h : Scans cmp arr es n pv v m₁ a₀ st)
    (hup : LoopSettles (scanUp cmp es (swapInit arr es) pv) st st') :
    ScansDown cmp arr es n pv v m₁ a₀ st' := by
  obtain ⟨ja, jb, jc, jd, a, hs⟩ := h
  obtain ⟨ja', jb', a', st₁, hloop, hs', hgreater, -⟩ := hs.exists_scanUp hl hrefl
  rw [hup.settles.unique hloop.settles]
  exact ⟨ja', jb', jc, jd, a', hs', hgreater⟩

theorem ScansDown.down (hl : Layout arr es n) (hrefl : cmp v v = 0)
    (h : ScansDown cmp arr es n pv v m₁ a₀ st)
    (hv : Visits (scanDown cmp es (swapInit arr es) pv) st st') :
    ScansDown cmp arr es n pv v m₁ a₀ st' := by
  refine hv.inv _ ?_ h
  rintro st u ⟨ja, jb, jc, jd, a, hs, hb⟩ hpass
  by_cases hlt : jb < jc
  · obtain ⟨jc, rfl⟩ := Nat.exists_eq_succ_of_ne_zero (show jc ≠ 0 by omega)
    rcases hs.scanDown_cases hl hrefl hlt (hb hlt) with ⟨jd', a', st', hnext, hs', hb'⟩ | ⟨hstop, -⟩
    · rw [hpass.next_eq hnext]
      exact ⟨ja, jb, jc, jd', a', hs', hb'⟩
    · exact absurd hstop hpass.not_stop
  · exact absurd (hs.scanDown_done hl hlt) hpass.not_stop

end Scans

/-- Every pointer points at whole elements of the array. -/
theorem Touches.atElements {n p len : Word} (hrefl : ∀ x ∈ values es, cmp x x = 0)
    (ht : Touches cmp es m arr n p len) (hl : Layout arr es n.toNat)
    (h : Elements m arr es n.toNat a) : AtElements arr es n p len := by
  induction ht generalizing a with
  | sink _ hpm hlt hpl hpos hp => exact h.sink_atElements hl hpm hlt hpl hpos hp
  | @probe m arr n t p hn h40 ht hp =>
      have h40' : 40 < n.toNat := BitVec.lt_def.mp h40
      rw [medianProbes_eq arr es (by omega)] at ht
      simp only [List.mem_cons, List.not_mem_nil, or_false] at ht
      rcases ht with rfl | rfl | rfl <;> rcases hp with rfl | rfl | rfl <;> exact atElement (by omega)
  | @median m arr n t p hn ht hp =>
      obtain ⟨l, hl', c, hc, r, hr, hargs⟩ := h.medianArgs cmp (seven_le hn)
      obtain rfl := Option.some.inj (ht.symm.trans hargs)
      rcases hp with rfl | rfl | rfl
      · exact atElement hl'
      · exact atElement hc
      · exact atElement hr
  | @pivot m arr n pm p hn hpm hp =>
      have h7 := seven_le hn
      obtain ⟨k, hk, hchoose⟩ := h.choosePivot cmp h7
      obtain rfl := Option.some.inj (hpm.symm.trans hchoose)
      rcases hp with rfl | rfl
      · exact ⟨0, 1, (ptr_zero _ _).symm, (Nat.one_mul _).symm, by omega⟩
      · exact atElement hk
  | @up m arr n pm pv m₁ st st' p hn hpm hpv hst hup hle hp =>
      obtain ⟨v, a₁, hv, hstart⟩ := h.scanning hrefl hl hn hpm hpv
      obtain ⟨ja, jb, jc, jd, a', hs⟩ :=
        (Scans.pass hl hv ⟨0, 0, _, _, _, hstart⟩ hst).up hl hv hup
      have hlt := (hs.le_iff hl).mp hle
      have hab := hs.parted.hab
      have hcd := hs.parted.hcd
      have hdn := hs.parted.hdn
      rw [hs.pa, hs.pb] at hp
      rcases hp with rfl | rfl
      · exact atElement (by omega)
      · exact atElement (by omega)
  | @down m arr n pm pv m₁ st st' st'' p hn hpm hpv hst hup hdown hle hp =>
      obtain ⟨v, a₁, hv, hstart⟩ := h.scanning hrefl hl hn hpm hpv
      obtain ⟨ja, jb, jc, jd, a', hs, -⟩ := ((Scans.pass hl hv ⟨0, 0, _, _, _, hstart⟩
        hst).afterUp hl hv hup).down hl hv hdown
      have hlt := (hs.le_iff hl).mp hle
      have hcd := hs.parted.hcd
      have hdn := hs.parted.hdn
      obtain ⟨jc, rfl⟩ := Nat.exists_eq_succ_of_ne_zero (show jc ≠ 0 by omega)
      obtain ⟨jd, rfl⟩ := Nat.exists_eq_succ_of_ne_zero (show jd ≠ 0 by omega)
      rw [hs.pb, hs.pc, hs.pd, Nat.succ_eq_add_one, Nat.succ_eq_add_one, ptr_pred, ptr_pred] at hp
      rcases hp with rfl | rfl | rfl
      · exact atElement (by omega)
      · exact atElement (by omega)
      · exact atElement (by omega)
  | @left m arr n pm pv m₁ st p hn hpm hpv hst hp =>
      obtain ⟨v, ja, jb, jd, a₁, a', hs⟩ := h.partitioned hrefl hl hn hpm hpv hst
      have hab := hs.parted.hab
      have hcd := hs.parted.hcd
      have hdn := hs.parted.hdn
      have hsize := hs.leftSize_eq hl
      have hlen := hl.toNat_size (show min ja (jb - ja) ≤ n.toNat by omega)
      rw [hsize, hs.pb, ptr_sub arr es (by omega)] at hp
      rw [hsize]
      rcases hp with rfl | rfl
      · exact ⟨0, _, (ptr_zero _ _).symm, hlen, by omega⟩
      · exact ⟨_, _, rfl, hlen, by omega⟩
  | @right m arr n pm pv m₁ st p hn hpm hpv hst hp =>
      obtain ⟨v, ja, jb, jd, a₁, a', hs⟩ := h.partitioned hrefl hl hn hpm hpv hst
      have hab := hs.parted.hab
      have hcd := hs.parted.hcd
      have hdn := hs.parted.hdn
      have hsize := hs.rightSize_eq hl
      have hlen := hl.toNat_size (show min (jd - jb) (n.toNat - jd) ≤ n.toNat by omega)
      rw [hsize, hs.pb, mul_es_end, ptr_sub arr es (by omega)] at hp
      rw [hsize]
      rcases hp with rfl | rfl
      · exact ⟨_, _, rfl, hlen, by omega⟩
      · exact ⟨_, _, rfl, hlen, by omega⟩
  | @low m arr n pm pv m₁ st p len hn hpm hpv hst hgt _ ih =>
      obtain ⟨l, g, a₂, hle, -, hlow, -, -, h₂⟩ := h.parts hrefl hl hn hpm hpv hst
      have hwindow : Layout (ptr arr es 0) es l := hl.window (by omega)
      rw [ptr_zero] at hwindow
      obtain ⟨i, k, hp, hlen, hik⟩ := ih (hlow ▸ hwindow) fun i hi => h₂ i (by omega)
      exact ⟨i, k, hp, hlen, by omega⟩
  | @high m arr n pm pv m₁ st m₂ p len hn hpm hpv hst hlow hgt _ ih =>
      obtain ⟨l, g, a₂, hle, hless, -, hhigh, hend, h₂⟩ := h.parts hrefl hl hn hpm hpv hst
      -- the first call leaves the elements where the second one looks
      obtain ⟨b, h₃⟩ := h₂.after_low hrefl hl (by omega) hless hlow
      have hwindow : Layout (ptr arr es (n.toNat - g)) es g := hl.window (by omega)
      rw [hend] at ih
      have hrest := h₃.window (show n.toNat - g + g ≤ n.toNat by omega)
      rw [hhigh] at ih
      obtain ⟨i, k, hp, hlen, hik⟩ := ih hwindow hrest
      rw [ptr_ptr] at hp
      exact ⟨n.toNat - g + i, k, hp, hlen, by omega⟩

/-- `qsort` with any comparator that finds equal values equal terminates, keeps the elements whole
and uses pointers to elements only. -/
theorem qsort_safe {n : Word} {l : List (List Byte)} (hl : Layout arr es n.toNat)
    (hrefl : ∀ x ∈ values es, cmp x x = 0) (hn : l.length = n.toNat) (h : Contents m arr es l) :
    (∃ m' l', Settles (fun fuel => qsort cmp fuel m arr n es) m' ∧ Contents m' arr es l' ∧ l'.Perm l ∧
      ∀ x : Word, x.toNat < arr.toNat ∨ arr.toNat + n.toNat * es.toNat ≤ x.toNat → m' x = m x) ∧
    ∀ p len, Touches cmp es m arr n p len → AtElements arr es n p len := by
  have helem : Elements m arr es n.toNat fun i => l.getD i [] := hn ▸ h.elements
  refine ⟨?_, fun p len ht => ht.atElements hrefl hl helem⟩
  obtain ⟨m', a', hs, hr, -⟩ := exists_qsort cmp hrefl n.toNat n rfl hl helem
  have hperm := hr.perm
  rw [← hn, items_getD, hn] at hperm
  exact ⟨m', items a' n.toNat, hs, hr.elements.contents, hperm, hr.outside⟩

end

/-- Finds every two different values the first one greater. -/
def neverLess (x y : List Byte) : ℤ := if x = y then 0 else 1

theorem qsort_safe_neverLess : ∃ m' l',
    Settles (fun fuel => qsort neverLess fuel sampleArray 4097 9 3) m' ∧
    Contents m' 4097 3 l' ∧ l'.Perm sampleElements ∧
    ∀ x : Word, x.toNat < 4097 ∨ 4097 + 9 * 3 ≤ x.toNat → m' x = sampleArray x :=
  (qsort_safe (n := 9) ⟨by decide, by decide, by decide, by decide⟩ (fun _ _ => if_pos rfl) rfl
    (by unfold Contents; decide)).1

end Rix
