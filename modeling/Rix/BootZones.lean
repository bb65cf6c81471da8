import Rix.BootState
import Rix.PmmRuns

/-!
# The zones of the boot memory map

`pmm_zone_init` makes a zone of every high region. It rounds the base up and the
size down, each on its own, so the end of a zone passes the end of its region when
the two remainders do not fill a page.
-/
namespace Rix
open Rings Fuel

def phyZone (phyZones : Word) (i : Nat) : Word := phyZones + BitVec.ofNat 64 (64 * i)

def zoneInitBody (zoneList phyZones : Word) (bst : BootState) (fuel : Nat) :
    BitVec 32 × Pmm → Option (BitVec 32 × Pmm)
  | (i, s) =>
    if h : i.toNat < 10 then
      let z := phyZone phyZones i.toNat
      let s := s.setZone z
        { s.zone z with base := roundUp (bst.memHighZones[i.toNat]).base pageSize }
      let s := s.setZone z
        { s.zone z with size := roundDown (bst.memHighZones[i.toNat]).size pageSize }
      (pmmAddZone zoneList fuel s z).map fun r => (i + 1, r.2)
    else none

def pmmZoneInit (zoneList phyZones : Word) (fuel : Nat) (bst : BootState) (s : Pmm) : Option Pmm :=
  (whileLoop (fun st => decide (st.1.setWidth 64 < bst.numHighZones))
    (zoneInitBody zoneList phyZones bst fuel) fuel (0, s)).map Prod.snd

namespace PhysZone

def Contains (r : PhysZone) (x : Nat) : Prop :=
  r.base.toNat ≤ x ∧ x < r.base.toNat + r.size.toNat

def Holds (r : PhysZone) (f : Nat) : Prop :=
  f % 4096 = 0 ∧ ∀ x, f ≤ x → x < f + 4096 → r.Contains x

/-- The remainders fill a page, or there is none at the base. -/
def Fits (r : PhysZone) : Prop :=
  r.size.toNat < 4096 ∨ r.size.toNat < 2 ^ 44 ∧
    (r.base.toNat % 4096 = 0 ∨ 4096 ≤ r.base.toNat % 4096 + r.size.toNat % 4096)

/-- The base and size that `pmm_zone_init` gives the zone of the region. -/
def rounded (r : PhysZone) (z : PmmZone) : PmmZone :=
  { z with base := roundUp r.base pageSize, size := roundDown r.size pageSize }

def frames (r : PhysZone) : Nat := r.size.toNat / 4096

end PhysZone

def Managed (z : PmmZone) (f : Nat) : Prop := ∃ i < frames z, f = z.base.toNat + 4096 * i

section

variable {r q : PhysZone} {z : PmmZone} {f : Nat}

theorem PhysZone.holds_iff : r.Holds f ↔
    f % 4096 = 0 ∧ r.base.toNat ≤ f ∧ f + 4096 ≤ r.base.toNat + r.size.toNat := by
  constructor
  · rintro ⟨hf, h⟩
    have h1 := (h f le_rfl (by omega)).1
    have h2 := (h (f + 4095) (by omega) (by omega)).2
    omega
  · rintro ⟨hf, h1, h2⟩
    exact ⟨hf, fun x hx hx' => ⟨by omega, by omega⟩⟩

theorem frames_rounded (hz : z.size = roundDown r.size pageSize) : frames z = r.frames := by
  rw [frames, PhysZone.frames, hz, roundDown_page]
  omega

theorem managed_iff (hz : z.base = roundUp r.base pageSize ∧ z.size = roundDown r.size pageSize)
    (hw : r.base.toNat + r.size.toNat ≤ 2 ^ 64) (hr : 0 < r.frames) :
    Managed z f ↔ f % 4096 = 0 ∧ r.base.toNat ≤ f ∧
      f < (r.base.toNat + 4095) / 4096 * 4096 + 4096 * r.frames := by
  have hbase : z.base.toNat = (r.base.toNat + 4095) / 4096 * 4096 := by
    rw [PhysZone.frames] at hr
    rw [hz.1, roundUp_page]
    omega
  rw [Managed, frames_rounded hz.2, hbase]
  constructor
  · rintro ⟨i, hi, rfl⟩
    omega
  · rintro ⟨hf, h1, h2⟩
    exact ⟨(f - (r.base.toNat + 4095) / 4096 * 4096) / 4096, by omega, by omega⟩

theorem managed_iff_holds (hz : z.base = roundUp r.base pageSize ∧ z.size = roundDown r.size pageSize)
    (hw : r.base.toNat + r.size.toNat ≤ 2 ^ 64) (hr : 0 < r.frames) (hfit : r.Fits) :
    Managed z f ↔ r.Holds f := by
  rw [managed_iff hz hw hr, PhysZone.holds_iff]
  simp only [PhysZone.frames] at hr ⊢
  rcases hfit with h | ⟨-, h | h⟩ <;> omega

/-- The last frame of a zone whose region does not fit lies in no region. -/
theorem exists_overrun (hz : z.base = roundUp r.base pageSize ∧ z.size = roundDown r.size pageSize)
    (hw : r.base.toNat + r.size.toNat ≤ 2 ^ 64) (hlt : r.size.toNat < 2 ^ 44) (hfit : ¬ r.Fits) :
    ∃ f, Managed z f ∧ ¬ r.Holds f ∧
      ∀ q : PhysZone, (∀ x, ¬ (r.Contains x ∧ q.Contains x)) → ¬ q.Holds f := by
  simp only [PhysZone.Fits, not_or, not_and, not_lt, not_le] at hfit
  obtain ⟨hsize, hrem⟩ := hfit
  obtain ⟨hb, hfill⟩ := hrem hlt
  refine ⟨r.base.toNat / 4096 * 4096 + r.size.toNat / 4096 * 4096, ?_, ?_, fun q hdisj hq => ?_⟩
  · rw [managed_iff hz hw (by rw [PhysZone.frames]; omega), PhysZone.frames]
    omega
  · rw [PhysZone.holds_iff]
    omega
  · -- the last byte of the region lies in the frame
    refine hdisj (r.base.toNat + r.size.toNat - 1) ⟨⟨by omega, by omega⟩, ?_⟩
    exact hq.2 _ (by omega) (by omega)

end

/-- What the linker and the static initialisers promise: the zone list is empty, and it and
the zone objects are distinct objects of the image, below the boot allocator's memory. -/
structure ImageLayout (zoneList phyZones : Word) (s : Pmm) : Prop where
  list_ne : zoneList ≠ NULL
  empty : s.heap.next zoneList = zoneList ∧ s.heap.prev zoneList = zoneList
  zones_pos : 0 < phyZones.toNat
  zones_top : phyZones.toNat + 640 ≤ s.bootAllocEnd.toNat
  list_top : zoneList.toNat < s.bootAllocEnd.toNat
  list_out : zoneList.toNat < phyZones.toNat ∨ phyZones.toNat + 640 ≤ zoneList.toNat

/-- The page arrays of zones with `n` frames in all fit above the boot allocator's end, and the
memory that is cleared behind them. -/
def Room (s : Pmm) (n : Nat) : Prop := s.bootAllocEnd.toNat + 7 + 48 * n < 2 ^ 64

/-- The zones of the first `i` regions have been made. -/
structure ZonesBuilt (zoneList phyZones : Word) (regions : List PhysZone) (s₀ : Pmm) (i : Nat)
    (P : Snapshot) : Prop where
  sound : P.Sound zoneList
  held : P.held = []
  zones : ∀ z, z ∈ P.zs ↔ ∃ j < i, ∃ r, regions[j]? = some r ∧ 0 < r.frames ∧
    z = phyZone phyZones j
  fields : ∀ j < i, ∀ r, regions[j]? = some r → 0 < r.frames →
    (P.s.zone (phyZone phyZones j)).base = roundUp r.base pageSize ∧
    (P.s.zone (phyZone phyZones j)).size = roundDown r.size pageSize
  arrays : ∀ z ∈ P.zs, s₀.bootAllocEnd.toNat ≤ (P.s.zone z).pageArray.toNat ∧
    (P.s.zone z).pageArray.toNat + 24 * frames (P.s.zone z) ≤ (nextArray P.s).toNat
  next_ge : s₀.bootAllocEnd.toNat ≤ (nextArray P.s).toNat
  next_le : (nextArray P.s).toNat ≤
    s₀.bootAllocEnd.toNat + 7 + 24 * ((regions.take i).map PhysZone.frames).sum

section

variable {zoneList phyZones : Word} {regions : List PhysZone} {s₀ : Pmm} {i j : Nat} {P : Snapshot}
  {r : PhysZone}

theorem ImageLayout.phyZone_toNat (hl : ImageLayout zoneList phyZones s₀) (hi : i < 10) :
    (phyZone phyZones i).toNat = phyZones.toNat + 64 * i ∧
    (freePages (phyZone phyZones i)).toNat = phyZones.toNat + 64 * i + 48 := by
  have h1 := hl.zones_top
  have h2 := s₀.bootAllocEnd.isLt
  have hz : (phyZone phyZones i).toNat = phyZones.toNat + 64 * i := by
    rw [phyZone, toNat_add_ofNat (by omega)]
  refine ⟨hz, ?_⟩
  rw [toNat_freePages, hz]
  omega

/-- The nodes of the allocator are objects of the image or pages of its arrays. -/
theorem ZonesBuilt.owned (hb : ZonesBuilt zoneList phyZones regions s₀ i P) {x : Word}
    (hx : P.Owned zoneList x) :
    x = zoneList ∨ (∃ j < i, x = phyZone phyZones j ∨ x = freePages (phyZone phyZones j)) ∨
    s₀.bootAllocEnd.toNat ≤ x.toNat ∧ x.toNat < (nextArray P.s).toNat := by
  obtain ⟨F, hi, -⟩ := hb.sound.inv
  rcases hx with hx | ⟨z, hz, rfl⟩ | ⟨z, hz, hpage, -⟩
  · rcases List.mem_cons.mp hx with rfl | hx
    · exact .inl rfl
    · obtain ⟨j, hj, -, -, -, rfl⟩ := (hb.zones x).mp hx
      exact .inr (.inl ⟨j, hj, .inl rfl⟩)
  · obtain ⟨j, hj, -, -, -, rfl⟩ := (hb.zones z).mp hz
    exact .inr (.inl ⟨j, hj, .inr rfl⟩)
  · have h1 := hpage.bounds (hi.geometry z hz).array_top
    have h2 := hb.arrays z hz
    exact .inr (.inr ⟨by omega, by omega⟩)

theorem ZonesBuilt.not_owned (hb : ZonesBuilt zoneList phyZones regions s₀ i P)
    (hl : ImageLayout zoneList phyZones s₀) (hi : i < 10) :
    ¬ P.Owned zoneList (phyZone phyZones i) ∧ ¬ P.Owned zoneList (freePages (phyZone phyZones i)) := by
  obtain ⟨h1, h2⟩ := hl.phyZone_toNat hi
  have h3 := hl.zones_top
  have hout : ∀ {x : Word} (k : Nat), k = 0 ∨ k = 48 →
      x.toNat = phyZones.toNat + 64 * i + k → ¬ P.Owned zoneList x := by
    intro x k hk hx ho
    rcases hb.owned ho with rfl | ⟨j, hj, h | h⟩ | h
    · have := hl.list_out
      omega
    · have := (hl.phyZone_toNat (lt_trans hj hi)).1
      rw [h] at hx
      omega
    · have := (hl.phyZone_toNat (lt_trans hj hi)).2
      rw [h] at hx
      omega
    · omega
  exact ⟨hout 0 (.inl rfl) h1, hout 48 (.inr rfl) h2⟩

theorem ZonesBuilt.setZone (hb : ZonesBuilt zoneList phyZones regions s₀ i P)
    (hl : ImageLayout zoneList phyZones s₀) (hi : i < 10) (v : PmmZone) :
    ZonesBuilt zoneList phyZones regions s₀ i
      ⟨P.s.setZone (phyZone phyZones i) v, P.zs, P.held⟩ := by
  have hzone : ∀ {w}, w ≠ phyZone phyZones i →
      (P.s.setZone (phyZone phyZones i) v).zone w = P.s.zone w := fun hw => if_neg hw
  have hne : ∀ z ∈ P.zs, z ≠ phyZone phyZones i := by
    rintro z hz rfl
    exact (hb.not_owned hl hi).1 (.inl (List.mem_cons_of_mem _ hz))
  refine ⟨hb.sound.caller ⟨fun x _ => .refl _ _, fun z hz => hzone (hne z hz), fun _ _ _ _ => rfl⟩,
    hb.held, hb.zones, fun j hj r hr hpos => ?_, fun z hz => ?_, hb.next_ge, hb.next_le⟩
  · simp only [hzone (hne _ ((hb.zones _).mpr ⟨j, hj, r, hr, hpos, rfl⟩))]
    exact hb.fields j hj r hr hpos
  · simp only [hzone (hne z hz)]
    exact hb.arrays z hz

theorem sum_take_succ (hr : regions[i]? = some r) :
    ((regions.take (i + 1)).map PhysZone.frames).sum =
      ((regions.take i).map PhysZone.frames).sum + r.frames := by
  rw [List.take_add_one, hr]
  simp

theorem sum_take_le (regions : List PhysZone) (i : Nat) :
    ((regions.take i).map PhysZone.frames).sum ≤ (regions.map PhysZone.frames).sum := by
  have h := List.sum_take_add_sum_drop (regions.map PhysZone.frames) i
  rw [← List.map_take] at h
  omega

/-- The zone object of the next region is one that `pmm_add_zone` accepts. -/
theorem ZonesBuilt.offer (hb : ZonesBuilt zoneList phyZones regions s₀ i P)
    (hl : ImageLayout zoneList phyZones s₀) (hroom : Room s₀ (regions.map PhysZone.frames).sum)
    (hi : i < 10) (hr : regions[i]? = some r) (hw : r.base.toNat + r.size.toNat ≤ 2 ^ 64)
    (hlt : r.size.toNat < 2 ^ 44) (hpos : 0 < r.frames)
    (hz : (P.s.zone (phyZone phyZones i)).base = roundUp r.base pageSize ∧
      (P.s.zone (phyZone phyZones i)).size = roundDown r.size pageSize) :
    P.ZoneOffer zoneList (phyZone phyZones i) := by
  obtain ⟨F, hinv, -⟩ := hb.sound.inv
  obtain ⟨h1, h2⟩ := hl.phyZone_toNat hi
  have hframes := frames_rounded hz.2
  have hzp := hl.zones_pos
  have hzt := hl.zones_top
  have hge := hb.next_ge
  have htop : (nextArray P.s).toNat + 48 * r.frames < 2 ^ 64 := by
    have h3 := hb.next_le
    have h4 := sum_take_succ hr
    have h5 := sum_take_le regions (i + 1)
    rw [Room] at hroom
    omega
  have hbelow : ∀ {x : Word}, x.toNat < (nextArray P.s).toNat →
      ¬ InCleared P.s (phyZone phyZones i) x := fun h hin => by
    have := hin.1
    omega
  have hpage : ∀ w ∈ P.zs, ∀ x, IsPage (P.s.zone w) x → s₀.bootAllocEnd.toNat ≤ x.toNat := by
    intro w hw x hx
    have h3 := hx.bounds (hinv.geometry w hw).array_top
    have h4 := hb.arrays w hw
    omega
  refine ⟨⟨(hb.not_owned hl hi).1, fun e => ?_⟩, ⟨(hb.not_owned hl hi).2, fun e => ?_⟩, by omega,
    by rw [hframes]; omega, fun x hx => hbelow ?_, ?_, ⟨?_, by rw [hframes]; exact hpos, ?_,
    fun w hw => .inl ?_, fun w hw => ⟨fun hp => ?_, fun hp => ?_⟩⟩⟩
  · rw [e] at h1
    simp at h1
    omega
  · rw [e] at h2
    simp at h2
  · rcases hx with hx | rfl | rfl
    · rcases hb.owned hx with rfl | ⟨j, hj, rfl | rfl⟩ | h
      · have := hl.list_top
        omega
      · have := hl.phyZone_toNat (lt_trans hj hi)
        omega
      · have := hl.phyZone_toNat (lt_trans hj hi)
        omega
      · exact h.2
    · omega
    · omega
  · rw [hframes, PhysZone.frames]
    omega
  · rw [hframes, hz.2, roundDown_page, PhysZone.frames]
    omega
  · rw [PhysZone.frames] at hpos
    rw [hz.1, hz.2, roundDown_page, roundUp_page]
    omega
  · exact (hb.arrays w hw).2
  · have := hpage w hw _ hp
    omega
  · have := hpage w hw _ hp
    omega

theorem nextArray_advance {s s' : Pmm} {n : Nat} {count : Word} (hcount : count.toNat = 24 * n)
    (htop : (nextArray s).toNat + 24 * n < 2 ^ 64)
    (hend : s'.bootAllocEnd = nextArray s + roundUp count 8) :
    (nextArray s').toNat = (nextArray s).toNat + 24 * n := by
  have h8 : (nextArray s).toNat % 8 = 0 := by
    rw [nextArray, roundUp_eight]
    omega
  have hlen : (roundUp count 8).toNat = 24 * n := by
    rw [roundUp_eight, hcount]
    omega
  rw [nextArray, roundUp_eight, hend, BitVec.toNat_add, hlen]
  omega

theorem ZonesBuilt.skip (hb : ZonesBuilt zoneList phyZones regions s₀ i P)
    (hr : regions[i]? = some r) (h0 : r.frames = 0) :
    ZonesBuilt zoneList phyZones regions s₀ (i + 1) P := by
  -- a region with a frame among the first `i + 1` is among the first `i`
  have hbelow : ∀ {j q}, j < i + 1 → regions[j]? = some q → 0 < q.frames → j < i := by
    intro j q hj hq hqpos
    rcases Nat.lt_succ_iff_lt_or_eq.mp hj with hj | rfl
    · exact hj
    · rw [hr, Option.some.injEq] at hq
      rw [← hq, h0] at hqpos
      exact absurd hqpos (Nat.lt_irrefl 0)
  refine ⟨hb.sound, hb.held, fun w => ?_, fun j hj q hq hqpos =>
    hb.fields j (hbelow hj hq hqpos) q hq hqpos, hb.arrays, hb.next_ge, ?_⟩
  · rw [hb.zones w]
    constructor
    · rintro ⟨j, hj, h⟩
      exact ⟨j, by omega, h⟩
    · rintro ⟨j, hj, q, hq, hqpos, rfl⟩
      exact ⟨j, hbelow hj hq hqpos, q, hq, hqpos, rfl⟩
  · have h := hb.next_le
    rw [sum_take_succ hr]
    omega

theorem ZonesBuilt.nextArray_added (hb : ZonesBuilt zoneList phyZones regions s₀ i P)
    (hroom : Room s₀ (regions.map PhysZone.frames).sum) (hr : regions[i]? = some r)
    (hframes : frames (P.s.zone (phyZone phyZones i)) = r.frames) {s' : Pmm}
    (hend : s'.bootAllocEnd = nextArray P.s +
      roundUp (zoneFrameCount (P.s.zone (phyZone phyZones i)) * sizeofVmPage) 8) :
    (nextArray s').toNat = (nextArray P.s).toNat + 24 * r.frames := by
  refine nextArray_advance ?_ ?_ hend
  · rw [count_toNat, hframes]
  · have h1 := hb.next_le
    have h2 := sum_take_le regions (i + 1)
    have h3 := sum_take_succ hr
    rw [Room] at hroom
    omega

theorem ZonesBuilt.added (hb : ZonesBuilt zoneList phyZones regions s₀ i P)
    (hl : ImageLayout zoneList phyZones s₀) (hroom : Room s₀ (regions.map PhysZone.frames).sum)
    (hi : i < 10) (hr : regions[i]? = some r) (hw : r.base.toNat + r.size.toNat ≤ 2 ^ 64)
    (hlt : r.size.toNat < 2 ^ 44) (hpos : 0 < r.frames)
    (hz : (P.s.zone (phyZone phyZones i)).base = roundUp r.base pageSize ∧
      (P.s.zone (phyZone phyZones i)).size = roundDown r.size pageSize) :
    ∃ s', Settles (fun n => pmmAddZone zoneList n P.s (phyZone phyZones i)) (.noError, s') ∧
      ZonesBuilt zoneList phyZones regions s₀ (i + 1) ⟨s', P.zs ++ [phyZone phyZones i], P.held⟩ := by
  have hoffer := hb.offer hl hroom hi hr hw hlt hpos hz
  have hframes := frames_rounded hz.2
  obtain ⟨s', hset, hs', hnew, hold, hend⟩ := hb.sound.addZone hoffer
  have hnext := hb.nextArray_added hroom hr hframes hend
  have hge := hb.next_ge
  have hne : ∀ w ∈ P.zs, w ≠ phyZone phyZones i := by
    rintro w hw rfl
    exact (hb.not_owned hl hi).1 (.inl (List.mem_cons_of_mem _ hw))
  refine ⟨s', hset, hs', hb.held, fun w => ?_, fun j hj q hq hqpos => ?_, fun w hw => ?_, ?_, ?_⟩
  · rw [List.mem_append, List.mem_singleton, hb.zones w]
    constructor
    · rintro (⟨j, hj, h⟩ | rfl)
      · exact ⟨j, by omega, h⟩
      · exact ⟨i, by omega, r, hr, hpos, rfl⟩
    · rintro ⟨j, hj, q, hq, hqpos, rfl⟩
      rcases Nat.lt_succ_iff_lt_or_eq.mp hj with hj | rfl
      · exact .inl ⟨j, hj, q, hq, hqpos, rfl⟩
      · exact .inr rfl
  · rcases Nat.lt_succ_iff_lt_or_eq.mp hj with hj | rfl
    · have hmem : phyZone phyZones j ∈ P.zs := (hb.zones _).mpr ⟨j, hj, q, hq, hqpos, rfl⟩
      simp only [hold _ (hne _ hmem)]
      exact hb.fields j hj q hq hqpos
    · rw [hr, Option.some.injEq] at hq
      subst hq
      simp only [hnew, addedZone]
      exact hz
  · rcases List.mem_append.mp hw with hw | hw
    · have h := hb.arrays w hw
      simp only [hold w (hne w hw)]
      omega
    · rw [List.mem_singleton.mp hw]
      simp only [hnew]
      rw [show frames (addedZone P.s (phyZone phyZones i)) = _ from hframes]
      exact ⟨hge, hnext.ge⟩
  · simp only
    omega
  · have h := hb.next_le
    rw [sum_take_succ hr]
    simp only
    omega

theorem ZonesBuilt.free_setZone (hb : ZonesBuilt zoneList phyZones regions s₀ i P)
    (hl : ImageLayout zoneList phyZones s₀) (hi : i < 10) (hfree : ∀ p, ¬ P.Busy p) (v : PmmZone)
    (p : Word) : ¬ Snapshot.Busy ⟨P.s.setZone (phyZone phyZones i) v, P.zs, P.held⟩ p := by
  rintro ⟨w, hw, hp, hflag⟩
  have hne : w ≠ phyZone phyZones i := by
    rintro rfl
    exact (hb.not_owned hl hi).1 (.inl (List.mem_cons_of_mem _ hw))
  rw [show (P.s.setZone (phyZone phyZones i) v).zone w = P.s.zone w from if_neg hne] at hp
  exact hfree p ⟨w, hw, hp, hflag⟩

/-- The zone of one more region; its pages are free. -/
theorem ZonesBuilt.step (hb : ZonesBuilt zoneList phyZones regions s₀ i P)
    (hl : ImageLayout zoneList phyZones s₀) (hroom : Room s₀ (regions.map PhysZone.frames).sum)
    (hi : i < 10) (hr : regions[i]? = some r) (hw : r.base.toNat + r.size.toNat ≤ 2 ^ 64)
    (hlt : r.size.toNat < 2 ^ 44) (hfree : ∀ p, ¬ P.Busy p) :
    ∃ status P', Settles (fun n => pmmAddZone zoneList n
        (P.s.setZone (phyZone phyZones i) (r.rounded (P.s.zone (phyZone phyZones i))))
        (phyZone phyZones i)) (status, P'.s) ∧
      ZonesBuilt zoneList phyZones regions s₀ (i + 1) P' ∧ ∀ p, ¬ P'.Busy p := by
  let z := phyZone phyZones i
  let P₁ : Snapshot := ⟨P.s.setZone z (r.rounded (P.s.zone z)), P.zs, P.held⟩
  have hb₁ : ZonesBuilt zoneList phyZones regions s₀ i P₁ := hb.setZone hl hi _
  have hfree₁ : ∀ p, ¬ P₁.Busy p := hb.free_setZone hl hi hfree _
  have hz₁ : P₁.s.zone z = r.rounded (P.s.zone z) := if_pos rfl
  rcases Nat.eq_zero_or_pos r.frames with h0 | hpos
  · have hsize : (P₁.s.zone z).size = 0 := by
      rw [hz₁]
      apply BitVec.eq_of_toNat_eq
      rw [PhysZone.rounded, roundDown_page, ← PhysZone.frames, h0]
      rfl
    exact ⟨_, P₁, .of_forall fun n => pmmAddZone_zero hsize n, hb₁.skip hr h0, hfree₁⟩
  · have hfields : (P₁.s.zone z).base = roundUp r.base pageSize ∧
        (P₁.s.zone z).size = roundDown r.size pageSize := by
      rw [hz₁]
      exact ⟨rfl, rfl⟩
    have hoffer : (PmmCall.addZone z).Admissible zoneList P₁ :=
      hb₁.offer hl hroom hi hr hw hlt hpos hfields
    obtain ⟨s', hset, hadded⟩ := hb₁.added hl hroom hi hr hw hlt hpos hfields
    have hreply : (PmmCall.addZone z).Returns zoneList P₁ [] s' := ⟨rfl, _, hset⟩
    have he := hb₁.sound.effect hoffer hreply
    refine ⟨_, _, hset, hadded, fun p hp => ?_⟩
    rcases ((he.busy p).mp hp).1 with hp | hp
    · exact hfree₁ p hp
    · exact absurd hp List.not_mem_nil

theorem setZone_setZone (s : Pmm) (z : Word) (v w : PmmZone) :
    (s.setZone z v).setZone z w = s.setZone z w := by
  simp only [Pmm.setZone]
  congr 1
  funext x
  split <;> rfl

theorem zoneInitBody_eq {bst : BootState} {idx : BitVec 32} (hidx : idx.toNat = i) (hi : i < 10)
    (hr : bst.regions[i]? = some r) (fuel : Nat) (s : Pmm) :
    zoneInitBody zoneList phyZones bst fuel (idx, s) =
      (pmmAddZone zoneList fuel (s.setZone (phyZone phyZones i)
        (r.rounded (s.zone (phyZone phyZones i)))) (phyZone phyZones i)).map
          fun res => (idx + 1, res.2) := by
  have hr' : bst.memHighZones[i] = r := by
    rw [BootState.regions, List.getElem?_take] at hr
    split at hr
    · simpa [hi] using hr
    · cases hr
  subst hidx
  rw [zoneInitBody, dif_pos hi]
  simp only [hr', setZone_setZone]
  congr 2
  simp [Pmm.setZone, PhysZone.rounded]

theorem ImageLayout.built (hl : ImageLayout zoneList phyZones s₀)
    (hroom : Room s₀ (regions.map PhysZone.frames).sum) :
    ZonesBuilt zoneList phyZones regions s₀ 0 ⟨s₀, [], []⟩ := by
  have hnext : s₀.bootAllocEnd.toNat ≤ (nextArray s₀).toNat ∧
      (nextArray s₀).toNat ≤ s₀.bootAllocEnd.toNat + 7 := by
    rw [Room] at hroom
    rw [nextArray, roundUp_eight]
    omega
  refine ⟨⟨pmmInv_init hl.list_ne hl.empty.1 hl.empty.2, fun p hp => absurd hp List.not_mem_nil,
    List.nodup_nil⟩, rfl, fun z => ?_, fun j hj => absurd hj (Nat.not_lt_zero j),
    fun z hz => absurd hz List.not_mem_nil, hnext.1, by simpa using hnext.2⟩
  refine iff_of_false List.not_mem_nil ?_
  rintro ⟨j, hj, -⟩
  exact absurd hj (Nat.not_lt_zero j)

variable {bst : BootState}

theorem BootState.length_regions (hnum : bst.numHighZones.toNat ≤ 10) :
    bst.regions.length = bst.numHighZones.toNat := by
  rw [regions, List.length_take, Vector.length_toList]
  omega

theorem idx_cond {idx : BitVec 32} :
    decide (idx.setWidth 64 < bst.numHighZones) = true ↔ idx.toNat < bst.numHighZones.toNat := by
  have := idx.isLt
  rw [decide_eq_true_eq, BitVec.lt_def, BitVec.toNat_setWidth]
  omega

/-- `pmm_zone_init` makes the zones of all regions below 16 TiB, with all pages free. -/
theorem exists_zonesBuilt (hl : ImageLayout zoneList phyZones s₀)
    (hnum : bst.numHighZones.toNat ≤ 10)
    (hw : ∀ r ∈ bst.regions, r.base.toNat + r.size.toNat ≤ 2 ^ 64)
    (hlt : ∀ r ∈ bst.regions, r.size.toNat < 2 ^ 44)
    (hroom : Room s₀ (bst.regions.map PhysZone.frames).sum) :
    ∃ P, Settles (fun n => pmmZoneInit zoneList phyZones n bst s₀) P.s ∧
      ZonesBuilt zoneList phyZones bst.regions s₀ bst.regions.length P ∧ ∀ p, ¬ P.Busy p := by
  have hlen := BootState.length_regions hnum
  obtain ⟨⟨idx, s'⟩, hloop, ⟨P, rfl, hidx, hb, hfree⟩, hend⟩ := exists_while
    (fun st => decide (st.1.setWidth 64 < bst.numHighZones))
    (fun n => zoneInitBody zoneList phyZones bst n)
    (fun st => ∃ P : Snapshot, P.s = st.2 ∧ st.1.toNat ≤ bst.regions.length ∧
      ZonesBuilt zoneList phyZones bst.regions s₀ st.1.toNat P ∧ ∀ p, ¬ P.Busy p)
    (fun st => bst.regions.length - st.1.toNat)
    (by
      rintro ⟨idx, s'⟩ ⟨P, rfl, hidx, hb, hfree⟩ hcond
      simp only at hidx hb
      have hi : idx.toNat < bst.regions.length := hlen ▸ idx_cond.mp hcond
      have hr := List.getElem?_eq_getElem hi
      have hmem := List.getElem_mem hi
      obtain ⟨status, P', hset, hb', hfree'⟩ :=
        hb.step hl hroom (by omega) hr (hw _ hmem) (hlt _ hmem) hfree
      have hsucc : (idx + 1).toNat = idx.toNat + 1 := by
        rw [BitVec.toNat_add, show (1 : BitVec 32).toNat = 1 from rfl]
        omega
      refine ⟨(idx + 1, P'.s), ?_, ⟨P', rfl, by simp only; omega, by rw [hsucc]; exact hb', hfree'⟩,
        by simp only; omega⟩
      exact (hset.map fun res => (idx + 1, res.2)).congr fun n =>
        zoneInitBody_eq rfl (by omega) hr n P.s)
    (s := (0, s₀)) ⟨⟨s₀, [], []⟩, rfl, Nat.zero_le _, hl.built hroom, fun p ⟨_, hz, _⟩ =>
      absurd hz List.not_mem_nil⟩
  have hall : idx.toNat = bst.regions.length := by
    have h : ¬ idx.toNat < bst.numHighZones.toNat := fun hlt => by
      simp [idx_cond.mpr hlt] at hend
    simp only at hidx
    omega
  exact ⟨P, hloop.settles.map Prod.snd, hall ▸ hb, hfree⟩

theorem settles_pmmZoneInit (hl : ImageLayout zoneList phyZones s₀)
    (hnum : bst.numHighZones.toNat ≤ 10)
    (hw : ∀ r ∈ bst.regions, r.base.toNat + r.size.toNat ≤ 2 ^ 64)
    (hlt : ∀ r ∈ bst.regions, r.size.toNat < 2 ^ 44)
    (hroom : Room s₀ (bst.regions.map PhysZone.frames).sum) :
    ∃ P, Settles (fun n => pmmZoneInit zoneList phyZones n bst s₀) P.s ∧
      ZonesBuilt zoneList phyZones bst.regions s₀ bst.regions.length P := by
  obtain ⟨P, hset, hb, -⟩ := exists_zonesBuilt hl hnum hw hlt hroom
  exact ⟨P, hset, hb⟩

/-- A region of 16 TiB or more makes a zone that is never done. -/
theorem pmmZoneInit_eq_none (hnum : bst.numHighZones.toNat ≤ 10) (hr : r ∈ bst.regions)
    (hge : 2 ^ 44 ≤ r.size.toNat) (fuel : Nat) (s : Pmm) :
    pmmZoneInit zoneList phyZones fuel bst s = none := by
  have hlen := BootState.length_regions hnum
  obtain ⟨j, hj, hrj⟩ := List.getElem_of_mem hr
  rw [pmmZoneInit, whileLoop, loop_eq_none _ (fun st => st.1.toNat ≤ j) ?_ fuel (Nat.zero_le j)]
  · rfl
  rintro ⟨idx, s⟩ hidx
  simp only at hidx
  have hi : idx.toNat < bst.regions.length := by omega
  have hri := List.getElem?_eq_getElem hi
  rw [if_pos (idx_cond.mpr (hlen ▸ hi)), zoneInitBody_eq rfl (by omega) hri]
  have hsucc : (idx + 1).toNat = idx.toNat + 1 := by
    rw [BitVec.toNat_add, show (1 : BitVec 32).toNat = 1 from rfl]
    omega
  rcases Nat.lt_or_eq_of_le hidx with hlt | heq
  · cases hadd : pmmAddZone zoneList fuel (s.setZone (phyZone phyZones idx.toNat)
        ((bst.regions[idx.toNat]).rounded (s.zone (phyZone phyZones idx.toNat))))
        (phyZone phyZones idx.toNat) with
    | none => exact .inl rfl
    | some res => exact .inr ⟨_, rfl, by simp only; omega⟩
  · left
    rw [pmmAddZone_eq_none]
    · rfl
    · have hget : bst.regions[idx.toNat] = r := by simp only [heq, hrj]
      rw [frames_rounded (r := r) (by rw [hget]; simp [Pmm.setZone, PhysZone.rounded]),
        PhysZone.frames]
      omega

/-- The zones manage exactly the frames that lie wholly inside a region, each once. -/
structure ManagesExactly (bst : BootState) (s' : Pmm) (zs : List Word) : Prop where
  exact : ∀ f, (∃ z ∈ zs, Managed (s'.zone z) f) ↔ ∃ r ∈ bst.regions, r.Holds f
  single : ∀ z ∈ zs, ∀ w ∈ zs, ∀ f, Managed (s'.zone z) f → Managed (s'.zone w) f → z = w

def DisjointRegions (bst : BootState) : Prop :=
  bst.regions.Pairwise fun r q => ∀ x, ¬ (r.Contains x ∧ q.Contains x)

theorem DisjointRegions.index (hd : DisjointRegions bst) {q : PhysZone}
    (hr : bst.regions[i]? = some r) (hq : bst.regions[j]? = some q) {x : Nat} (hx : r.Contains x)
    (hx' : q.Contains x) : i = j := by
  obtain ⟨hi, rfl⟩ := List.getElem?_eq_some_iff.mp hr
  obtain ⟨hj, rfl⟩ := List.getElem?_eq_some_iff.mp hq
  rw [DisjointRegions, List.pairwise_iff_getElem] at hd
  rcases Nat.lt_trichotomy i j with h | h | h
  · exact absurd ⟨hx, hx'⟩ (hd i j hi hj h x)
  · exact h
  · exact absurd ⟨hx', hx⟩ (hd j i hj hi h x)

/-- The zones that were made manage the right frames exactly when every region fits. -/
theorem ZonesBuilt.managesExactly_iff
    (hb : ZonesBuilt zoneList phyZones bst.regions s₀ bst.regions.length P)
    (hw : ∀ r ∈ bst.regions, r.base.toNat + r.size.toNat ≤ 2 ^ 64)
    (hlt : ∀ r ∈ bst.regions, r.size.toNat < 2 ^ 44) (hd : DisjointRegions bst) :
    ManagesExactly bst P.s P.zs ↔ ∀ r ∈ bst.regions, r.Fits := by
  have hzone : ∀ {j} {r : PhysZone}, bst.regions[j]? = some r → 0 < r.frames →
      phyZone phyZones j ∈ P.zs := fun hr hpos =>
    (hb.zones _).mpr ⟨_, (List.getElem?_eq_some_iff.mp hr).1, _, hr, hpos, rfl⟩
  have hfields : ∀ {j} {r : PhysZone}, bst.regions[j]? = some r → 0 < r.frames →
      (P.s.zone (phyZone phyZones j)).base = roundUp r.base pageSize ∧
      (P.s.zone (phyZone phyZones j)).size = roundDown r.size pageSize := fun hr hpos =>
    hb.fields _ (List.getElem?_eq_some_iff.mp hr).1 _ hr hpos
  constructor
  · intro hm r hr
    by_contra hfit
    obtain ⟨j, hj⟩ := List.getElem?_of_mem hr
    have hpos : 0 < r.frames := by
      simp only [PhysZone.Fits, not_or, not_lt] at hfit
      rw [PhysZone.frames]
      omega
    obtain ⟨f, hf, hout, hother⟩ := exists_overrun (hfields hj hpos) (hw r hr) (hlt r hr) hfit
    obtain ⟨q, hq, hqf⟩ := (hm.exact f).mp ⟨_, hzone hj hpos, hf⟩
    obtain ⟨k, hk⟩ := List.getElem?_of_mem hq
    refine hother q (fun x ⟨hx, hx'⟩ => ?_) hqf
    obtain rfl := hd.index hj hk hx hx'
    rw [hj, Option.some.injEq] at hk
    exact hout (hk ▸ hqf)
  · intro hfit
    refine ⟨fun f => ⟨?_, ?_⟩, fun z hz w hw' f hf hf' => ?_⟩
    · rintro ⟨z, hz, hf⟩
      obtain ⟨j, -, r, hr, hpos, rfl⟩ := (hb.zones z).mp hz
      have hmem := List.mem_of_getElem? hr
      exact ⟨r, hmem, (managed_iff_holds (hfields hr hpos) (hw r hmem) hpos (hfit r hmem)).mp hf⟩
    · rintro ⟨r, hmem, hf⟩
      obtain ⟨j, hr⟩ := List.getElem?_of_mem hmem
      have hpos : 0 < r.frames := by
        have := PhysZone.holds_iff.mp hf
        rw [PhysZone.frames]
        omega
      exact ⟨_, hzone hr hpos,
        (managed_iff_holds (hfields hr hpos) (hw r hmem) hpos (hfit r hmem)).mpr hf⟩
    · obtain ⟨j, -, r, hr, hpos, rfl⟩ := (hb.zones z).mp hz
      obtain ⟨k, -, q, hq, hqpos, rfl⟩ := (hb.zones w).mp hw'
      have hmem := List.mem_of_getElem? hr
      have hqmem := List.mem_of_getElem? hq
      rw [managed_iff_holds (hfields hr hpos) (hw r hmem) hpos (hfit r hmem)] at hf
      rw [managed_iff_holds (hfields hq hqpos) (hw q hqmem) hqpos (hfit q hqmem)] at hf'
      rw [hd.index hr hq (hf.2 f le_rfl (by omega)) (hf'.2 f le_rfl (by omega))]

/-- `pmm_zone_init` returns with zones that manage exactly the frames wholly inside the regions,
none in two zones, if and only if every region fits. -/
theorem pmmZoneInit_exact_iff (hl : ImageLayout zoneList phyZones s₀)
    (hnum : bst.numHighZones.toNat ≤ 10)
    (hw : ∀ r ∈ bst.regions, r.base.toNat + r.size.toNat ≤ 2 ^ 64) (hd : DisjointRegions bst)
    (hroom : (∀ r ∈ bst.regions, r.size.toNat < 2 ^ 44) →
      Room s₀ (bst.regions.map PhysZone.frames).sum) :
    (∃ s' zs, Settles (fun n => pmmZoneInit zoneList phyZones n bst s₀) s' ∧
      Ring s'.heap zoneList zs ∧ ManagesExactly bst s' zs) ↔ ∀ r ∈ bst.regions, r.Fits := by
  by_cases hlt : ∀ r ∈ bst.regions, r.size.toNat < 2 ^ 44
  · obtain ⟨P, hset, hb⟩ := settles_pmmZoneInit hl hnum hw hlt (hroom hlt)
    obtain ⟨F, hi, -⟩ := hb.sound.inv
    rw [← hb.managesExactly_iff hw hlt hd]
    constructor
    · rintro ⟨s', zs, hset', hring, hm⟩
      obtain rfl := hset.unique hset'
      obtain rfl := hi.ring.unique hring
      exact hm
    · exact fun hm => ⟨P.s, P.zs, hset, hi.ring, hm⟩
  · push Not at hlt
    obtain ⟨r, hr, hge⟩ := hlt
    refine iff_of_false ?_ fun hfit => ?_
    · rintro ⟨s', zs, hset, -⟩
      exact not_settles (fun n => pmmZoneInit_eq_none hnum hr hge n s₀) s' hset
    · have := hfit r hr
      rw [PhysZone.Fits] at this
      omega

end

def oneRegion (r : PhysZone) : BootState := ⟨0, Vector.replicate 10 r, 1⟩

theorem regions_oneRegion (r : PhysZone) : (oneRegion r).regions = [r] := rfl

def sampleImage : Pmm := ⟨⟨id, id⟩, fun _ => ⟨0, 0, 0, 0⟩, fun _ => 0, 65536⟩

theorem sampleImage_layout : ImageLayout 64 4096 sampleImage :=
  ⟨by decide, ⟨rfl, rfl⟩, by decide, by decide, by decide, .inl (by decide)⟩

theorem disjointRegions_oneRegion (r : PhysZone) : DisjointRegions (oneRegion r) := by
  rw [DisjointRegions, regions_oneRegion]
  exact List.pairwise_singleton _ _

theorem pmmZoneInit_exact_iff_aligned : ∃ s' zs,
    Settles (fun n => pmmZoneInit 64 4096 n (oneRegion ⟨0x100000, 0x2000⟩) sampleImage) s' ∧
    Ring s'.heap 64 zs ∧ ManagesExactly (oneRegion ⟨0x100000, 0x2000⟩) s' zs :=
  (pmmZoneInit_exact_iff sampleImage_layout (by decide)
    (by rw [regions_oneRegion]; simp) (disjointRegions_oneRegion _)
    (fun _ => by rw [regions_oneRegion, Room]; decide)).mpr
    (by rw [regions_oneRegion]; simp [PhysZone.Fits])

/-- A region of one page that does not start on a page boundary makes a zone with a frame that
ends outside it. -/
theorem pmmZoneInit_overrun : ¬ ∀ (zoneList phyZones : Word) (bst : BootState) (s : Pmm),
    ImageLayout zoneList phyZones s → bst.numHighZones.toNat ≤ 10 →
    (∀ r ∈ bst.regions, r.base.toNat + r.size.toNat ≤ 2 ^ 64) → DisjointRegions bst →
    Room s (bst.regions.map PhysZone.frames).sum →
    ∃ s' zs, Settles (fun n => pmmZoneInit zoneList phyZones n bst s) s' ∧
      Ring s'.heap zoneList zs ∧ ManagesExactly bst s' zs := by
  intro h
  let r : PhysZone := ⟨0x100400, 0x1000⟩
  have hnum : (oneRegion r).numHighZones.toNat ≤ 10 := by decide
  have hw : ∀ q ∈ (oneRegion r).regions, q.base.toNat + q.size.toNat ≤ 2 ^ 64 := by
    rw [regions_oneRegion]; simp [r]
  have hlt : ∀ q ∈ (oneRegion r).regions, q.size.toNat < 2 ^ 44 := by
    rw [regions_oneRegion]; simp [r]
  have hroom : Room sampleImage ((oneRegion r).regions.map PhysZone.frames).sum := by
    rw [regions_oneRegion, Room]; decide
  obtain ⟨P, hset, hb⟩ := settles_pmmZoneInit sampleImage_layout hnum hw hlt hroom
  obtain ⟨F, hi, -⟩ := hb.sound.inv
  obtain ⟨s', zs, hset', hring, hm⟩ := h 64 4096 _ sampleImage sampleImage_layout hnum hw
    (disjointRegions_oneRegion r) hroom
  obtain rfl := hset.unique hset'
  obtain rfl := hi.ring.unique hring
  have hfit := (hb.managesExactly_iff hw hlt (disjointRegions_oneRegion r)).mp hm r
    (by rw [regions_oneRegion]; exact List.mem_cons_self)
  simp [PhysZone.Fits, r] at hfit

end Rix
