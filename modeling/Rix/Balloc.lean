import Rix.Coupling
import Rix.PmmZones

/-!
# `balloc.c`

The boot allocator hands out the memory behind the image. Its blocks, and with them the page
arrays that `pmm_add_zone` gets from it, lie one behind the other as long as the end of the
memory it has handed out is an address.
-/
namespace Rix
open Fuel

/-- `ALIGN(n, 8)` of a number that need not fit a word. -/
def alignEight (n : ℕ) : ℕ := (n + 7) / 8 * 8

structure BootBlock where
  start : Word
  len : ℕ
  deriving DecidableEq, Repr

def BootBlock.Contains (b : BootBlock) (x : ℕ) : Prop := b.start.toNat ≤ x ∧ x < b.start.toNat + b.len

inductive BootCall where
  | balloc (len : Word)
  | addZone (zone : Word)
  deriving DecidableEq, Repr

/-- A call, on the state and the blocks there are. The block of a zone is its page array. -/
def BootCall.exec (zoneList : Word) (fuel : ℕ) :
    Pmm × List BootBlock → BootCall → Option (Pmm × List BootBlock)
  | (s, blocks), .balloc len =>
    let (ptr, s) := Rix.balloc s len
    some (s, blocks ++ [⟨ptr, len.toNat⟩])
  | (s, blocks), .addZone zone =>
    (pmmAddZone zoneList fuel s zone).map fun r => (r.2,
      if (s.zone zone).size > 0 then blocks ++ [⟨(r.2.zone zone).pageArray, 24 * frames (s.zone zone)⟩]
      else blocks)

def runBoot (zoneList : Word) (fuel : ℕ) (calls : List BootCall) (st : Pmm × List BootBlock) :
    Option (Pmm × List BootBlock) :=
  calls.foldlM (BootCall.exec zoneList fuel) st

/-- The end of the memory handed out, in exact arithmetic. -/
def endAfter (zone : Word → PmmZone) : ℕ → List BootCall → ℕ
  | e, [] => e
  | e, .balloc len :: calls => endAfter zone (alignEight e + alignEight len.toNat) calls
  | e, .addZone z :: calls =>
    endAfter zone (if (zone z).size > 0 then alignEight e + alignEight (24 * frames (zone z)) else e) calls

theorem le_alignEight (n : ℕ) : n ≤ alignEight n := by
  unfold alignEight
  omega

theorem alignEight_mod (n : ℕ) : alignEight n % 8 = 0 := by
  unfold alignEight
  omega

theorem toNat_roundUp {x : Word} (h : alignEight x.toNat < 2 ^ 64) :
    (roundUp x 8).toNat = alignEight x.toNat := by
  rw [roundUp_eight]
  unfold alignEight at *
  omega

theorem balloc_spec {s : Pmm} {len : Word}
    (h : alignEight s.bootAllocEnd.toNat + alignEight len.toNat < 2 ^ 64) :
    (balloc s len).1.toNat = alignEight s.bootAllocEnd.toNat ∧
    (balloc s len).2.bootAllocEnd.toNat = alignEight s.bootAllocEnd.toNat + alignEight len.toNat := by
  have hptr := toNat_roundUp (x := s.bootAllocEnd) (by omega)
  refine ⟨hptr, ?_⟩
  show (roundUp s.bootAllocEnd 8 + roundUp len 8).toNat = _
  rw [BitVec.toNat_add, hptr, toNat_roundUp (by omega)]
  exact Nat.mod_eq_of_lt h

theorem le_endAfter (zone : Word → PmmZone) (calls : List BootCall) (e : ℕ) :
    e ≤ endAfter zone e calls := by
  induction calls generalizing e with
  | nil => exact le_rfl
  | cons call calls ih =>
      have halign := le_alignEight e
      cases call with
      | balloc len => exact le_trans (by omega) (ih _)
      | addZone z =>
          refine le_trans ?_ (ih _)
          split_ifs
          · omega
          · exact le_rfl

/-- The fields that the page loop of `pmm_add_zone` does not change, since the array is there. -/
structure ArrayTaken (s : Pmm) (z : Word) (s' : Pmm) : Prop where
  others : ∀ w ≠ z, s'.zone w = s.zone w
  size : (s'.zone z).size = (s.zone z).size
  pageArray : (s'.zone z).pageArray = nextArray s
  bootAllocEnd : s'.bootAllocEnd = (balloc s (zoneFrameCount (s.zone z) * sizeofVmPage)).2.bootAllocEnd

theorem ArrayTaken.addPage {s s' : Pmm} {z : Word} (h : ArrayTaken s z s') {i : BitVec 32}
    {st : BitVec 32 × Pmm} (hbody : addPagesBody z (i, s') = some st) : ArrayTaken s z st.2 := by
  cases Option.some.inj hbody
  refine ⟨fun w hw => ?_, ?_, ?_, h.bootAllocEnd⟩
  · exact (if_neg hw).trans (h.others w hw)
  · dsimp only
    rw [Pmm.setZone_zone]
    exact h.size
  · dsimp only
    rw [Pmm.setZone_zone]
    exact h.pageArray

theorem arrayTaken {zoneList : Word} {fuel : ℕ} {s : Pmm} {z : Word} {r : PmmStatus × Pmm}
    (hsize : (s.zone z).size > 0) (h : pmmAddZone zoneList fuel s z = some r) : ArrayTaken s z r.2 := by
  rw [pmmAddZone_eq hsize] at h
  obtain ⟨st, hloop, rfl⟩ := Option.map_eq_some_iff.mp h
  refine Keeps.loop (P := fun st : BitVec 32 × Pmm => ArrayTaken s z st.2) ?_ fuel
    (0, zoneCleared zoneList s z) ?_ st hloop
  · rintro ⟨i, s'⟩ h flow hflow
    dsimp only at hflow
    split_ifs at hflow
    · obtain ⟨st, hbody, rfl⟩ := Option.map_eq_some_iff.mp hflow
      exact h.addPage hbody
    · cases hflow
      exact h
  · refine ⟨fun w hw => if_neg hw, ?_, ?_, rfl⟩
    · rw [zoneCleared_zone]
    · rw [zoneCleared_zone]

/-- The state after the calls `calls`: the blocks lie one behind the other between the end before
the first call and the end now, and so do the page arrays that the zones have. -/
structure BootInv (s₀ : Pmm) (calls : List BootCall) (st : Pmm × List BootBlock) : Prop where
  start_le : s₀.bootAllocEnd.toNat ≤ st.1.bootAllocEnd.toNat
  size : ∀ z, (st.1.zone z).size = (s₀.zone z).size
  block : ∀ b ∈ st.2, b.start.toNat % 8 = 0 ∧ s₀.bootAllocEnd.toNat ≤ b.start.toNat ∧
    b.start.toNat + b.len ≤ st.1.bootAllocEnd.toNat
  ordered : st.2.Pairwise fun b b' => b.start.toNat + b.len ≤ b'.start.toNat
  array : ∀ z, .addZone z ∈ calls → 0 < frames (s₀.zone z) →
    (st.1.zone z).pageArray.toNat + 24 * frames (s₀.zone z) ≤ st.1.bootAllocEnd.toNat
  arrays : ∀ z w, .addZone z ∈ calls → .addZone w ∈ calls → z ≠ w → 0 < frames (s₀.zone z) →
    0 < frames (s₀.zone w) → ArraysDisjoint (st.1.zone z) (st.1.zone w)

section

variable {zoneList : Word} {s₀ : Pmm} {done calls : List BootCall} {st st' : Pmm × List BootBlock}

theorem mem_addZone_snoc {z : Word} {len : Word} (h : BootCall.addZone z ∈ done ++ [.balloc len]) :
    .addZone z ∈ done := by
  simpa using h

theorem BootInv.push {s : Pmm} {blocks : List BootBlock} (h : BootInv s₀ done (s, blocks)) {s' : Pmm}
    {b : BootBlock} (hstart : b.start.toNat = alignEight s.bootAllocEnd.toNat)
    (hend : s'.bootAllocEnd.toNat = alignEight s.bootAllocEnd.toNat + alignEight b.len) :
    s.bootAllocEnd.toNat ≤ s'.bootAllocEnd.toNat ∧
    (∀ c ∈ blocks ++ [b], c.start.toNat % 8 = 0 ∧ s₀.bootAllocEnd.toNat ≤ c.start.toNat ∧
      c.start.toNat + c.len ≤ s'.bootAllocEnd.toNat) ∧
    (blocks ++ [b]).Pairwise fun b b' => b.start.toNat + b.len ≤ b'.start.toNat := by
  have hle := le_alignEight s.bootAllocEnd.toNat
  have hlen := le_alignEight b.len
  have hs := h.start_le
  dsimp only at hs
  refine ⟨by omega, fun c hc => ?_, ?_⟩
  · rcases List.mem_append.mp hc with hc | hc
    · obtain ⟨h8, hge, htop⟩ := h.block c hc
      dsimp only at htop
      exact ⟨h8, hge, by omega⟩
    · rw [List.mem_singleton.mp hc, hstart]
      exact ⟨alignEight_mod _, by omega, by omega⟩
  · refine List.pairwise_append.mpr ⟨h.ordered, List.pairwise_singleton _ _, fun c hc d hd => ?_⟩
    rw [List.mem_singleton.mp hd, hstart]
    have htop := (h.block c hc).2.2
    dsimp only at htop
    omega

theorem BootInv.balloc {s : Pmm} {blocks : List BootBlock} (h : BootInv s₀ done (s, blocks))
    {len : Word} (hend : alignEight s.bootAllocEnd.toNat + alignEight len.toNat < 2 ^ 64) :
    BootInv s₀ (done ++ [.balloc len])
      ((Rix.balloc s len).2, blocks ++ [⟨(Rix.balloc s len).1, len.toNat⟩]) := by
  obtain ⟨hptr, hnew⟩ := balloc_spec hend
  obtain ⟨hle, hblock, hordered⟩ := h.push (b := ⟨(Rix.balloc s len).1, len.toNat⟩) hptr hnew
  refine ⟨le_trans h.start_le hle, h.size, hblock, hordered, fun z hz hpos => ?_, fun z w hz hw => ?_⟩
  · exact le_trans (h.array z (mem_addZone_snoc hz) hpos) hle
  · exact h.arrays z w (mem_addZone_snoc hz) (mem_addZone_snoc hw)

theorem ArrayTaken.toNat {s s' : Pmm} {z : Word} (ht : ArrayTaken s z s')
    (h : alignEight s.bootAllocEnd.toNat + alignEight (24 * frames (s.zone z)) < 2 ^ 64) :
    (s'.zone z).pageArray.toNat = alignEight s.bootAllocEnd.toNat ∧
    s'.bootAllocEnd.toNat = alignEight s.bootAllocEnd.toNat + alignEight (24 * frames (s.zone z)) := by
  rw [← count_toNat] at h ⊢
  obtain ⟨hptr, hnew⟩ := balloc_spec h
  rw [ht.pageArray, ht.bootAllocEnd]
  exact ⟨hptr, hnew⟩

theorem BootInv.addZone {s s' : Pmm} {blocks : List BootBlock} (h : BootInv s₀ done (s, blocks)) {z : Word}
    (ht : ArrayTaken s z s')
    (hend : alignEight s.bootAllocEnd.toNat + alignEight (24 * frames (s₀.zone z)) < 2 ^ 64) :
    BootInv s₀ (done ++ [.addZone z])
      (s', blocks ++ [⟨(s'.zone z).pageArray, 24 * frames (s.zone z)⟩]) := by
  have hframes : ∀ w, frames (s.zone w) = frames (s₀.zone w) := fun w => by
    rw [frames, frames, h.size w]
  obtain ⟨harray, hnew⟩ := ht.toNat (hframes z ▸ hend)
  obtain ⟨hle, hblock, hordered⟩ := h.push (b := ⟨(s'.zone z).pageArray, 24 * frames (s.zone z)⟩)
    harray hnew
  have hlen := le_alignEight (24 * frames (s.zone z))
  have halign := le_alignEight s.bootAllocEnd.toNat
  have hmem : ∀ {w}, BootCall.addZone w ∈ done ++ [.addZone z] → w ≠ z → .addZone w ∈ done := by
    intro w hw hne
    rcases List.mem_append.mp hw with hw | hw
    · exact hw
    · cases List.mem_singleton.mp hw
      exact absurd rfl hne
  -- the arrays there are end below the new one
  have hbelow : ∀ w, .addZone w ∈ done → w ≠ z → 0 < frames (s₀.zone w) →
      (s'.zone w).pageArray.toNat + 24 * frames (s'.zone w) ≤ (s'.zone z).pageArray.toNat := by
    intro w hw hne hpos
    have htop := h.array w hw hpos
    dsimp only at htop
    rw [ht.others w hne, hframes, harray]
    omega
  refine ⟨le_trans h.start_le hle, fun w => ?_, hblock, hordered, fun w hw hpos => ?_,
    fun v w hv hw hvw hvpos hwpos => ?_⟩
  · by_cases hwz : w = z
    · rw [hwz]
      exact ht.size.trans (h.size z)
    · dsimp only
      rw [ht.others w hwz]
      exact h.size w
  · by_cases hwz : w = z
    · rw [hwz, harray, ← hframes, hnew]
      omega
    · dsimp only
      rw [ht.others w hwz]
      exact le_trans (h.array w (hmem hw hwz) hpos) hle
  · by_cases hvz : v = z
    · subst hvz
      exact .inr (hbelow w (hmem hw hvw.symm) hvw.symm hwpos)
    · by_cases hwz : w = z
      · subst hwz
        exact .inl (hbelow v (hmem hv hvw) hvw hvpos)
      · dsimp only
        rw [ht.others v hvz, ht.others w hwz]
        exact h.arrays v w (hmem hv hvz) (hmem hw hwz) hvw hvpos hwpos

theorem BootInv.addZone_zero {s : Pmm} {blocks : List BootBlock} (h : BootInv s₀ done (s, blocks))
    {z : Word} (hsize : (s₀.zone z).size = 0) : BootInv s₀ (done ++ [.addZone z]) (s, blocks) := by
  have hframes : ¬ 0 < frames (s₀.zone z) := by
    rw [frames, hsize]
    decide
  have hmem : ∀ {w}, BootCall.addZone w ∈ done ++ [.addZone z] → 0 < frames (s₀.zone w) →
      .addZone w ∈ done := by
    intro w hw hpos
    rcases List.mem_append.mp hw with hw | hw
    · exact hw
    · cases List.mem_singleton.mp hw
      exact absurd hpos hframes
  exact { h with
    array := fun w hw hpos => h.array w (hmem hw hpos) hpos
    arrays := fun v w hv hw hvw hvpos hwpos =>
      h.arrays v w (hmem hv hvpos) (hmem hw hwpos) hvw hvpos hwpos }

/-- One call whose end is an address: the end moves up, to where the exact arithmetic has it. -/
theorem BootInv.exec {call : BootCall} {fuel : ℕ} (h : BootInv s₀ done st)
    (hend : endAfter s₀.zone st.1.bootAllocEnd.toNat (call :: calls) < 2 ^ 64)
    (hrun : call.exec zoneList fuel st = some st') :
    BootInv s₀ (done ++ [call]) st' ∧ st.1.bootAllocEnd.toNat ≤ st'.1.bootAllocEnd.toNat ∧
    endAfter s₀.zone st'.1.bootAllocEnd.toNat calls =
      endAfter s₀.zone st.1.bootAllocEnd.toNat (call :: calls) := by
  obtain ⟨s, blocks⟩ := st
  have halign := le_alignEight s.bootAllocEnd.toNat
  cases call with
  | balloc len =>
      have hlt : alignEight s.bootAllocEnd.toNat + alignEight len.toNat < 2 ^ 64 :=
        lt_of_le_of_lt (le_endAfter _ _ _) hend
      have hnew := (balloc_spec hlt).2
      have hup : s.bootAllocEnd.toNat ≤ (Rix.balloc s len).2.bootAllocEnd.toNat := by omega
      cases Option.some.inj hrun
      exact ⟨h.balloc hlt, hup, congrArg (fun e => endAfter s₀.zone e calls) hnew⟩
  | addZone z =>
      obtain ⟨r, hadd, rfl⟩ := Option.map_eq_some_iff.mp hrun
      have hsize := h.size z
      dsimp only at hsize
      rw [endAfter] at hend ⊢
      rw [hsize]
      split_ifs at hend ⊢ with hpos
      · have hlt := lt_of_le_of_lt (le_endAfter _ _ _) hend
        have hframes : frames (s.zone z) = frames (s₀.zone z) := by rw [frames, frames, hsize]
        have ht := arrayTaken (hsize ▸ hpos) hadd
        have hnew := (ht.toNat (hframes ▸ hlt)).2
        rw [hframes] at hnew
        have hup : s.bootAllocEnd.toNat ≤ r.2.bootAllocEnd.toNat := by omega
        exact ⟨h.addZone ht hlt, hup, congrArg (fun e => endAfter s₀.zone e calls) hnew⟩
      · have hzero : (s₀.zone z).size = 0 := BitVec.le_zero_iff.mp (BitVec.not_lt.mp hpos)
        rw [pmmAddZone_zero (hsize.trans hzero)] at hadd
        cases Option.some.inj hadd
        exact ⟨h.addZone_zero hzero, le_rfl, rfl⟩

/-- A run whose end is an address, with some more calls to come. -/
theorem BootInv.run {fuel : ℕ} {rest : List BootCall} (h : BootInv s₀ done st)
    (hend : endAfter s₀.zone st.1.bootAllocEnd.toNat (calls ++ rest) < 2 ^ 64)
    (hrun : runBoot zoneList fuel calls st = some st') : BootInv s₀ (done ++ calls) st' ∧
      endAfter s₀.zone st'.1.bootAllocEnd.toNat rest < 2 ^ 64 := by
  induction calls generalizing done st with
  | nil =>
      cases Option.some.inj hrun
      rw [List.append_nil]
      exact ⟨h, hend⟩
  | cons call calls ih =>
      rw [runBoot, List.foldlM_cons] at hrun
      obtain ⟨st₁, hcall, hcalls⟩ := Option.bind_eq_some_iff.mp hrun
      obtain ⟨h₁, -, heq⟩ := h.exec hend hcall
      rw [List.append_cons]
      exact ih h₁ (heq ▸ hend) hcalls

theorem BootInv.start (s : Pmm) : BootInv s [] (s, []) where
  start_le := le_rfl
  size _ := rfl
  block _ h := absurd h List.not_mem_nil
  ordered := .nil
  array _ h := absurd h List.not_mem_nil
  arrays _ _ h := absurd h List.not_mem_nil

end

/-- What `balloc` hands out over any calls whose end is an address: aligned blocks between `__end`
and `boot_alloc_end` that are apart from each other, while `boot_alloc_end` only moves up, and
so page arrays of which no two zones share a descriptor. -/
theorem boot_blocks_apart {zoneList : Word} {fuel : ℕ} {s : Pmm} {calls : List BootCall}
    {r : Pmm × List BootBlock} (hend : endAfter s.zone s.bootAllocEnd.toNat calls < 2 ^ 64)
    (hrun : runBoot zoneList fuel calls (s, []) = some r) :
    (∀ b ∈ r.2, b.start.toNat % 8 = 0 ∧ s.bootAllocEnd.toNat ≤ b.start.toNat ∧
      b.start.toNat + b.len ≤ r.1.bootAllocEnd.toNat) ∧
    r.2.Pairwise (fun b b' => ∀ x, ¬ (b.Contains x ∧ b'.Contains x)) ∧
    (∀ before call after r₁ r₂, calls = before ++ call :: after →
      runBoot zoneList fuel before (s, []) = some r₁ → call.exec zoneList fuel r₁ = some r₂ →
      r₁.1.bootAllocEnd ≤ r₂.1.bootAllocEnd) ∧
    ∀ z w, z ≠ w → .addZone z ∈ calls → .addZone w ∈ calls →
      ∀ p, ¬ (IsPage (r.1.zone z) p ∧ IsPage (r.1.zone w) p) := by
  have hall : endAfter s.zone s.bootAllocEnd.toNat (calls ++ []) < 2 ^ 64 := by
    rwa [List.append_nil]
  obtain ⟨h, -⟩ := (BootInv.start s).run hall hrun
  rw [List.nil_append] at h
  refine ⟨h.block, h.ordered.imp fun hle x hx => ?_, ?_, ?_⟩
  · obtain ⟨⟨-, h1⟩, ⟨h2, -⟩⟩ := hx
    omega
  · rintro before call after r₁ r₂ rfl hbefore hcall
    obtain ⟨h₁, hend₁⟩ := (BootInv.start s).run hend hbefore
    exact BitVec.le_def.mpr (h₁.exec hend₁ hcall).2.1
  · rintro z w hne hz hw p ⟨hpz, hpw⟩
    have hframes : ∀ v, frames (r.1.zone v) = frames (s.zone v) := fun v => by
      rw [frames, frames, h.size v]
    have htop : ∀ v, .addZone v ∈ calls → IsPage (r.1.zone v) p → 0 < frames (s.zone v) ∧
        (r.1.zone v).pageArray.toNat + 24 * frames (r.1.zone v) ≤ 2 ^ 64 := by
      rintro v hv ⟨i, hi, -⟩
      rw [hframes] at hi ⊢
      have hpos : 0 < frames (s.zone v) := by omega
      have htop := h.array v hv hpos
      have hlt := r.1.bootAllocEnd.isLt
      exact ⟨hpos, by omega⟩
    obtain ⟨hzpos, hztop⟩ := htop z hz hpz
    obtain ⟨hwpos, hwtop⟩ := htop w hw hpw
    have h1 := hpz.bounds hztop
    have h2 := hpw.bounds hwtop
    rcases h.arrays z w hz hw hne hzpos hwpos with hd | hd <;> omega

theorem exists_runBoot_balloc (zoneList : Word) (fuel : ℕ) (lens : List Word) (st : Pmm × List BootBlock) :
    ∃ r, runBoot zoneList fuel (lens.map .balloc) st = some r := by
  induction lens generalizing st with
  | nil => exact ⟨st, rfl⟩
  | cons len lens ih => exact ih _

def samplePmm : Pmm where
  heap := ⟨fun _ => 0, fun _ => 0⟩
  zone := fun _ => ⟨0, 0x1000, 0, 0⟩
  flags := fun _ => 0
  bootAllocEnd := 0x100003

/-- Two small blocks around the array of a zone. -/
theorem boot_blocks_apart_sample : ∃ r, runBoot 0x800 4 [.balloc 5, .addZone 0x900, .balloc 0]
      (samplePmm, []) = some r ∧
    (∀ b ∈ r.2, b.start.toNat % 8 = 0 ∧ 0x100003 ≤ b.start.toNat ∧
      b.start.toNat + b.len ≤ r.1.bootAllocEnd.toNat) ∧
    r.2.Pairwise (fun b b' => ∀ x, ¬ (b.Contains x ∧ b'.Contains x)) := by
  refine ⟨_, rfl, ?_⟩
  have hend : endAfter samplePmm.zone samplePmm.bootAllocEnd.toNat
      [.balloc 5, .addZone 0x900, .balloc 0] < 2 ^ 64 := by decide
  have h := boot_blocks_apart hend (rfl : runBoot 0x800 4 _ _ = some _)
  exact ⟨h.1, h.2.1⟩

end Rix
