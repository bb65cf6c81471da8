import Rix.QsortSwap

/-!
# The swap modes agree

For an array at any address, with elements of any size, `swap` and `vecswap` have one effect in the
mode that `SWAPINIT` selects and in every mode that makes smaller steps.
-/
namespace Rix
open Fuel Sorting

section

variable {arr es len : Word} {m : Bytes} {n i j s mode : ℕ}

theorem level_ptr (hn : n * es.toNat ≤ 2 ^ 64) (hi : i + s ≤ n) (hj : j + s ≤ n)
    (hap : Apart i j s) : Level (ptr arr es i) (ptr arr es j) (s * es.toNat) := by
  intro k hk l hl e
  have hti := Nat.mul_le_mul_right es.toNat hi
  have htj := Nat.mul_le_mul_right es.toNat hj
  rw [Nat.add_mul] at hti htj
  rw [ptr, ptr, BitVec.add_assoc, BitVec.add_assoc, ← BitVec.ofNat_add, ← BitVec.ofNat_add] at e
  have heq := add_ofNat_inj (by omega) (by omega) e
  rcases hap with rfl | hap | hap
  · omega
  · have := Nat.mul_le_mul_right es.toNat hap
    rw [Nat.add_mul] at this
    omega
  · have := Nat.mul_le_mul_right es.toNat hap
    rw [Nat.add_mul] at this
    omega

/-- `swapfunc` may be called on blocks of elements in the mode of the array and in finer ones. -/
theorem swappable_ptr (hn : n * es.toNat ≤ 2 ^ 64) (hi : i + s ≤ n) (hj : j + s ≤ n)
    (hap : Apart i j s) (hlen : len.toNat = s * es.toNat) (hmi : Mapped m (ptr arr es i) len.toNat)
    (hmj : Mapped m (ptr arr es j) len.toNat) (hmode : swapInit arr es ≤ mode) :
    Swappable mode m (ptr arr es i) (ptr arr es j) len := by
  refine ⟨hmi, hmj, hlen ▸ level_ptr hn hi hj hap, fun h => ?_⟩
  obtain ⟨ha, he⟩ := swapInit_le_one.mp (le_trans hmode h)
  exact ⟨ptr_mod_eight ha he i, ptr_mod_eight ha he j, hlen ▸ mul_mod_eight he s⟩

/-- All modes make the memory that the byte loop makes. -/
theorem exists_swapRuns (hn : n * es.toNat ≤ 2 ^ 64) (hi : i + s ≤ n) (hj : j + s ≤ n)
    (hap : Apart i j s) (hlen : len.toNat = s * es.toNat) (hmi : Mapped m (ptr arr es i) len.toNat)
    (hmj : Mapped m (ptr arr es j) len.toNat) :
    ∃ m', Exchanges m m' (ptr arr es i) (ptr arr es j) len.toNat ∧
      ∀ mode, swapInit arr es ≤ mode → SwapRuns mode m m' (ptr arr es i) (ptr arr es j) len := by
  obtain ⟨m', hexchanges, -⟩ :=
    (swappable_ptr hn hi hj hap hlen hmi hmj (le_refl (swapInit arr es))).exists_runs
  refine ⟨m', hexchanges, fun mode hmode => ?_⟩
  obtain ⟨m₂, hexchanges₂, hruns⟩ :=
    (swappable_ptr hn hi hj hap hlen hmi hmj hmode).exists_runs
  rwa [hexchanges.unique hexchanges₂]

theorem swap_zero {m' : Bytes} (hes : 0 < es.toNat) (h0 : swapInit arr es ≤ 0)
    (hmi : Mapped m (ptr arr es i) es.toNat) (hmj : Mapped m (ptr arr es j) es.toNat)
    (hexchanges : Exchanges m m' (ptr arr es i) (ptr arr es j) es.toNat) :
    (∀ fuel, swap es 0 fuel m (ptr arr es i) (ptr arr es j) = some m') ∧
    (ptr arr es i).toNat % 8 = 0 ∧ (ptr arr es j).toNat % 8 = 0 := by
  obtain ⟨ha, he⟩ := (swapInit_eq_zero hes).mp (Nat.le_zero.mp h0)
  have hpi := ptr_mod_eight ha (by rw [he]) i
  have hpj := ptr_mod_eight ha (by rw [he]) j
  rw [he] at hmi hmj hexchanges
  obtain ⟨m₂, hexch, hexchanges₂⟩ := @exists_swapExch 0 m _ _ hmi hmj fun _ => ⟨hpi, hpj⟩
  rw [hexchanges.unique hexchanges₂]
  exact ⟨fun _ => hexch, hpi, hpj⟩

/-- The array is at any address and fits into the address space, where it may go round. -/
theorem swap_modes_agree (hes : 0 < es.toNat) (hn : n * es.toNat ≤ 2 ^ 64) :
    (∀ i < n, ∀ j < n, Mapped m (ptr arr es i) es.toNat → Mapped m (ptr arr es j) es.toNat →
      ∃ m', Exchanges m m' (ptr arr es i) (ptr arr es j) es.toNat ∧
        ∀ mode, swapInit arr es ≤ mode →
          Settles (fun fuel => swap es mode fuel m (ptr arr es i) (ptr arr es j)) m' ∧
          (mode = 0 → (ptr arr es i).toNat % 8 = 0 ∧ (ptr arr es j).toNat % 8 = 0) ∧
          (mode ≠ 0 → SwapRuns mode m m' (ptr arr es i) (ptr arr es j) es)) ∧
    ∀ i j s (len : Word), i + s ≤ n → j + s ≤ n → (i + s ≤ j ∨ j + s ≤ i) →
      len.toNat = s * es.toNat → Mapped m (ptr arr es i) len.toNat →
      Mapped m (ptr arr es j) len.toNat →
      ∃ m', Exchanges m m' (ptr arr es i) (ptr arr es j) len.toNat ∧
        ∀ mode, swapInit arr es ≤ mode →
          Settles (fun fuel => vecswap mode fuel m (ptr arr es i) (ptr arr es j) len) m' ∧
          SwapRuns mode m m' (ptr arr es i) (ptr arr es j) len := by
  constructor
  · intro i hi j hj hmi hmj
    have hap : Apart i j 1 := by unfold Apart; omega
    obtain ⟨m', hexchanges, hruns⟩ := exists_swapRuns hn hi hj hap (Nat.one_mul _).symm hmi hmj
    refine ⟨m', hexchanges, fun mode hmode => ?_⟩
    by_cases h0 : mode = 0
    · subst h0
      obtain ⟨hswap, halign⟩ := swap_zero hes hmode hmi hmj hexchanges
      exact ⟨.of_forall hswap, fun _ => halign, fun h => absurd rfl h⟩
    · refine ⟨(hruns mode hmode).settles.congr fun fuel => ?_, fun h => absurd h h0,
        fun _ => hruns mode hmode⟩
      rw [swap, if_pos h0]
  · intro i j s len hi hj hap hlen hmi hmj
    obtain ⟨m', hexchanges, hruns⟩ := exists_swapRuns hn hi hj (.inr hap) hlen hmi hmj
    refine ⟨m', hexchanges, fun mode hmode => ⟨?_, hruns mode hmode⟩⟩
    by_cases hpos : 0 < len
    · refine (hruns mode hmode).settles.congr fun fuel => ?_
      rw [vecswap, if_pos hpos]
    · have h0 : len.toNat = 0 := Nat.eq_zero_of_not_pos fun h => hpos (BitVec.lt_def.mpr h)
      rw [h0] at hexchanges
      rw [hexchanges.unique (.zero m _ _)]
      exact .of_forall fun fuel => by rw [vecswap, if_neg hpos]; rfl

end

/-- A memory of which every byte is mapped. -/
def lowBytes : Bytes := fun x => some (x.setWidth 8)

theorem swap_modes_agree_sample :
    (∃ m', Exchanges lowBytes m' (ptr 4096 16 1) (ptr 4096 16 3) 16 ∧
      Settles (fun fuel => swap 16 1 fuel lowBytes (ptr 4096 16 1) (ptr 4096 16 3)) m' ∧
      Settles (fun fuel => swap 16 2 fuel lowBytes (ptr 4096 16 1) (ptr 4096 16 3)) m') ∧
    ∃ m', Exchanges lowBytes m' (ptr 4096 16 0) (ptr 4096 16 2) 32 ∧
      Settles (fun fuel => vecswap 1 fuel lowBytes (ptr 4096 16 0) (ptr 4096 16 2) 32) m' ∧
      Settles (fun fuel => vecswap 2 fuel lowBytes (ptr 4096 16 0) (ptr 4096 16 2) 32) m' := by
  obtain ⟨hswap, hvecswap⟩ := @swap_modes_agree 4096 16 lowBytes 4 (by decide) (by decide)
  obtain ⟨m₁, hexchanges₁, hmodes₁⟩ := hswap 1 (by decide) 3 (by decide) (fun _ _ => rfl) fun _ _ => rfl
  obtain ⟨m₂, hexchanges₂, hmodes₂⟩ := hvecswap 0 2 2 32 (by decide) (by decide) (by decide) rfl
    (fun _ _ => rfl) fun _ _ => rfl
  exact ⟨⟨m₁, hexchanges₁, (hmodes₁ 1 (by decide)).1, (hmodes₁ 2 (by decide)).1⟩,
    ⟨m₂, hexchanges₂, (hmodes₂ 1 (by decide)).1, (hmodes₂ 2 (by decide)).1⟩⟩

end Rix
