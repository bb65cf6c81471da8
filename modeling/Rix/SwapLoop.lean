import Rix.Qsort

/-!
# The loops of `swapfunc`

In every mode a loop of `swapfunc` exchanges two blocks from their front on, a word or a byte in
a pass, and its counter comes down to 0 in whole steps.
-/
namespace Rix
open Fuel Sorting

def swapExch (swaptype : ℕ) : Bytes → Word → Word → Option Bytes :=
  if swaptype ≤ 1 then exchSize else exch8

def swapStep (swaptype : ℕ) : Word := if swaptype ≤ 1 then 8 else 1

/-- The states in which the loop of `swapfunc` tests its counter. -/
def SwapVisits (swaptype : ℕ) : Swapping → Swapping → Prop :=
  Visits fun _ st => if decide (0 < st.n) = true then
    (swapPass (swapExch swaptype) (swapStep swaptype) st).map Flow.next else some (.stop st)

/-- A call of `swapfunc` makes `m'` of `m`. Its counter never wraps and the word loop stays at
aligned addresses. -/
structure SwapRuns (swaptype : ℕ) (m m' : Bytes) (a b n : Word) : Prop where
  settles : Settles (fun fuel => swapfunc fuel m a b n swaptype) m'
  counter : ∀ st, SwapVisits swaptype ⟨a, b, n, m⟩ st → 0 < st.n → swapStep swaptype ≤ st.n
  zero : ∃ st, SwapVisits swaptype ⟨a, b, n, m⟩ st ∧ st.n = 0 ∧ st.mem = m'
  aligned : swaptype ≤ 1 → ∀ st, SwapVisits swaptype ⟨a, b, n, m⟩ st →
    st.a.toNat % 8 = 0 ∧ st.b.toNat % 8 = 0

/-- What a call of `swapfunc` relies on: two blocks of `n` bytes, the same or disjoint, and whole
words of them in the word loop. -/
structure Swappable (swaptype : ℕ) (m : Bytes) (a b n : Word) : Prop where
  left : Mapped m a n.toNat
  right : Mapped m b n.toNat
  level : Level a b n.toNat
  words : swaptype ≤ 1 → a.toNat % 8 = 0 ∧ b.toNat % 8 = 0 ∧ n.toNat % 8 = 0

/-- The loop after `i` passes. -/
structure Swapped (swaptype : ℕ) (m : Bytes) (a b n : Word) (i : ℕ) (st : Swapping) : Prop where
  a_eq : st.a = a + BitVec.ofNat 64 (i * (swapStep swaptype).toNat)
  b_eq : st.b = b + BitVec.ofNat 64 (i * (swapStep swaptype).toNat)
  count : st.n.toNat + i * (swapStep swaptype).toNat = n.toNat
  mem : Exchanges m st.mem a b (i * (swapStep swaptype).toNat)

section

variable {swaptype : ℕ} {m m' : Bytes} {a b n : Word} {i : ℕ} {st : Swapping}

theorem swapfunc_eq (fuel : ℕ) (m : Bytes) (a b n : Word) (swaptype : ℕ) :
    swapfunc fuel m a b n swaptype =
      swapLoop (swapExch swaptype) (swapStep swaptype) fuel m a b n := by
  unfold swapfunc swapExch swapStep
  split <;> rfl

theorem swapStep_of_le (h : swaptype ≤ 1) : (swapStep swaptype).toNat = 8 := by
  rw [swapStep, if_pos h]
  rfl

theorem swapStep_of_not_le (h : ¬ swaptype ≤ 1) : (swapStep swaptype).toNat = 1 := by
  rw [swapStep, if_neg h]
  rfl

theorem swapStep_pos (swaptype : ℕ) : 0 < (swapStep swaptype).toNat := by
  by_cases h : swaptype ≤ 1
  · rw [swapStep_of_le h]
    decide
  · rw [swapStep_of_not_le h]
    decide

/-- One exchange, of aligned words or of bytes. -/
theorem exists_swapExch (ha : Mapped m a (swapStep swaptype).toNat)
    (hb : Mapped m b (swapStep swaptype).toNat)
    (halign : swaptype ≤ 1 → a.toNat % 8 = 0 ∧ b.toNat % 8 = 0) :
    ∃ m', swapExch swaptype m a b = some m' ∧ Exchanges m m' a b (swapStep swaptype).toNat := by
  by_cases h : swaptype ≤ 1
  · obtain ⟨ha8, hb8⟩ := halign h
    have hap : Apart a.toNat b.toNat 8 := by
      unfold Apart
      omega
    rw [swapStep_of_le h] at ha hb ⊢
    rw [swapExch, if_pos h]
    exact ⟨_, exchSize_eq ha hb hap ha8 hb8, exchanges_exchanged hap (by omega) (by omega)⟩
  · have hap : Apart a.toNat b.toNat 1 := by
      unfold Apart
      omega
    rw [swapStep_of_not_le h] at ha hb ⊢
    rw [swapExch, if_neg h]
    exact ⟨_, exch8_eq ha hb, exchanges_exchanged hap a.isLt b.isLt⟩

theorem Swappable.symm (h : Swappable swaptype m a b n) : Swappable swaptype m b a n :=
  ⟨h.right, h.left, h.level.symm, fun ht => ⟨(h.words ht).2.1, (h.words ht).1, (h.words ht).2.2⟩⟩

namespace Swapped

theorem start (swaptype : ℕ) (m : Bytes) (a b n : Word) : Swapped swaptype m a b n 0 ⟨a, b, n, m⟩ := by
  refine ⟨?_, ?_, ?_, ?_⟩ <;> simp only [Nat.zero_mul]
  · exact (BitVec.add_zero a).symm
  · exact (BitVec.add_zero b).symm
  · rfl
  · exact .zero m a b

theorem aligned (hs : Swappable swaptype m a b n) (h : Swapped swaptype m a b n i st)
    (ht : swaptype ≤ 1) : st.a.toNat % 8 = 0 ∧ st.b.toNat % 8 = 0 := by
  obtain ⟨ha, hb, -⟩ := hs.words ht
  rw [h.a_eq, h.b_eq, swapStep_of_le ht, BitVec.toNat_add, BitVec.toNat_add, BitVec.toNat_ofNat]
  omega

theorem step_le (hs : Swappable swaptype m a b n) (h : Swapped swaptype m a b n i st)
    (hpos : 0 < st.n) : (swapStep swaptype).toNat ≤ st.n.toNat := by
  have hcount := h.count
  have hpos' : 0 < st.n.toNat := BitVec.lt_def.mp hpos
  by_cases ht : swaptype ≤ 1
  · have hn := (hs.words ht).2.2
    rw [swapStep_of_le ht] at hcount ⊢
    omega
  · rw [swapStep_of_not_le ht]
    exact hpos'

theorem mapped (hs : Swappable swaptype m a b n) (h : Swapped swaptype m a b n i st) {k : ℕ}
    (hk : k ≤ st.n.toNat) :
    Mapped st.mem (a + BitVec.ofNat 64 (i * (swapStep swaptype).toNat)) k := by
  intro l hl
  have hcount := h.count
  rw [BitVec.add_assoc, ← BitVec.ofNat_add,
    h.mem.rest n.isLt.le hs.level (Nat.le_add_right _ l) (by omega)]
  exact hs.left _ (by omega)

theorem symm (h : Swapped swaptype m a b n i st) :
    Swapped swaptype m b a n i ⟨st.b, st.a, st.n, st.mem⟩ :=
  ⟨h.b_eq, h.a_eq, h.count, h.mem.symm⟩

theorem next (hs : Swappable swaptype m a b n) (h : Swapped swaptype m a b n i st)
    (hpos : 0 < st.n) : ∃ st', swapPass (swapExch swaptype) (swapStep swaptype) st = some st' ∧
      Swapped swaptype m a b n (i + 1) st' ∧ st'.n.toNat < st.n.toNat := by
  have hle := h.step_le hs hpos
  have hstep := swapStep_pos swaptype
  have hcount := h.count
  have hmul : (i + 1) * (swapStep swaptype).toNat =
      i * (swapStep swaptype).toNat + (swapStep swaptype).toNat := Nat.succ_mul _ _
  have hsub : (st.n - swapStep swaptype).toNat = st.n.toNat - (swapStep swaptype).toNat :=
    BitVec.toNat_sub_of_le (BitVec.le_def.mpr hle)
  have hadd : ∀ p : Word, p + BitVec.ofNat 64 (i * (swapStep swaptype).toNat) + swapStep swaptype =
      p + BitVec.ofNat 64 ((i + 1) * (swapStep swaptype).toNat) := fun p => by
    rw [hmul, BitVec.ofNat_add, BitVec.ofNat_toNat, BitVec.setWidth_eq, BitVec.add_assoc]
  have hleft := h.mapped hs hle
  have hright := h.symm.mapped hs.symm hle
  rw [← h.a_eq] at hleft
  rw [← h.b_eq] at hright
  obtain ⟨m', hexch, hmem⟩ := exists_swapExch hleft hright (h.aligned hs)
  rw [h.a_eq, h.b_eq] at hmem
  have hlevel : Level a b (i * (swapStep swaptype).toNat + (swapStep swaptype).toNat) :=
    fun k hk l hl => hs.level k (by omega) l (by omega)
  have hlt := n.isLt
  refine ⟨_, by rw [swapPass, hexch, Option.map_some], ⟨?_, ?_, ?_, ?_⟩, ?_⟩
  · rw [h.a_eq, hadd]
  · rw [h.b_eq, hadd]
  · rw [hsub, hmul]
    omega
  · rw [hmul]
    exact h.mem.append (by omega) hlevel hmem
  · rw [hsub]
    omega

theorem visits_next (hs : Swappable swaptype m a b n) (h : Swapped swaptype m a b n i st)
    (hpos : 0 < st.n) : ∃ st', (∀ {s}, SwapVisits swaptype s st → SwapVisits swaptype s st') ∧
      Swapped swaptype m a b n (i + 1) st' ∧ st'.n.toNat < st.n.toNat := by
  obtain ⟨st', hpass, h', hlt⟩ := h.next hs hpos
  refine ⟨st', fun hv => hv.next (.of_forall fun _ => ?_), h', hlt⟩
  simp only [decide_eq_true hpos, if_true, hpass, Option.map_some]

theorem exists_end (hs : Swappable swaptype m a b n) (h : Swapped swaptype m a b n i st) {s : Swapping}
    (hv : SwapVisits swaptype s st) :
    ∃ j st', SwapVisits swaptype s st' ∧ Swapped swaptype m a b n j st' ∧ st'.n = 0 := by
  induction hc : st.n.toNat using Nat.strong_induction_on generalizing i st with
  | _ c ih =>
    by_cases hpos : 0 < st.n
    · obtain ⟨st', hvisits, h', hlt⟩ := h.visits_next hs hpos
      exact ih _ (hc ▸ hlt) h' (hvisits hv) rfl
    · exact ⟨i, st, hv, h, BitVec.eq_of_toNat_eq (Nat.eq_zero_of_not_pos fun h => hpos (BitVec.lt_def.mpr h))⟩

theorem of_visits (hs : Swappable swaptype m a b n) (hv : SwapVisits swaptype ⟨a, b, n, m⟩ st) :
    ∃ i, Swapped swaptype m a b n i st := by
  refine hv.inv (fun st => ∃ i, Swapped swaptype m a b n i st) ?_ ⟨0, start swaptype m a b n⟩
  rintro st u ⟨i, h⟩ hpass
  by_cases hpos : 0 < st.n
  · obtain ⟨st', hnext, h', -⟩ := h.next hs hpos
    simp only [decide_eq_true hpos, if_true, hnext, Option.map_some] at hpass
    rw [hpass.next_eq (.of_forall fun _ => rfl)]
    exact ⟨i + 1, h'⟩
  · simp only [decide_eq_false hpos, Bool.false_eq_true, if_false] at hpass
    exact absurd (.of_forall fun _ => rfl) hpass.not_stop

end Swapped

/-- `swapfunc` exchanges two blocks in every mode that suits them. -/
theorem Swappable.exists_runs (hs : Swappable swaptype m a b n) :
    ∃ m', Exchanges m m' a b n.toNat ∧ SwapRuns swaptype m m' a b n := by
  obtain ⟨i, st, hv, h, hzero⟩ := (Swapped.start swaptype m a b n).exists_end hs .start
  have hall : i * (swapStep swaptype).toNat = n.toNat := by
    have hcount := h.count
    have hnone : st.n.toNat = 0 := congrArg BitVec.toNat hzero
    omega
  have hend : LoopSettles (fun (_ : ℕ) (st : Swapping) => if decide (0 < st.n) = true then
      (swapPass (swapExch swaptype) (swapStep swaptype) st).map Flow.next else some (.stop st)) st st :=
    .stop (.of_forall fun _ => if_neg (by rw [hzero]; decide))
  refine ⟨st.mem, hall ▸ h.mem, ⟨?_, fun st hv hpos => ?_, ⟨st, hv, hzero, rfl⟩, fun ht st hv => ?_⟩⟩
  · refine ((hv.loopSettles hend).settles.map Swapping.mem).congr fun fuel => ?_
    rw [swapfunc_eq]
    rfl
  · obtain ⟨i, h⟩ := Swapped.of_visits hs hv
    exact BitVec.le_def.mpr (h.step_le hs hpos)
  · obtain ⟨i, h⟩ := Swapped.of_visits hs hv
    exact h.aligned hs ht

end

end Rix
