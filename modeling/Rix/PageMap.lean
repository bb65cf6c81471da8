import Rix.PmmSafety

/-!
# Page descriptors and physical addresses

`vm_page_to_paddr` and `paddr_to_vm_page` search the zone list with one macro,
`PAGE_BELONGS_TO_ZONE`, which compares with the page array of a zone and takes its frame count
for its size in bytes.
-/
namespace Rix
open Rings Fuel

def pageIndexInZone (page : Word) (z : PmmZone) : Word := (page - z.pageArray) / sizeofVmPage

def paddrFromZonePage (page : Word) (z : PmmZone) : Word :=
  pageIndexInZone page z * pageSize + z.base

/-- A loop over the zones that returns at the first to which its argument belongs. -/
def searchZones (zoneList : Word) (fuel : Nat) (s : Pmm) (belongs : PmmZone → Bool)
    (found : PmmZone → Word) (missing : Word) : Option Word :=
  (listForEach (fun _ => s.heap) zoneList (fun zone ret =>
    if belongs (s.zone zone) then some (.stop (some (found (s.zone zone)))) else some (.next ret))
    fuel none).map fun ret => ret.getD missing

def vmPageToPaddr (zoneList : Word) (fuel : Nat) (s : Pmm) (page : Word) : Option Word :=
  searchZones zoneList fuel s (pageBelongsToZone page) (paddrFromZonePage page) (-1)

/-- The macro is given the physical address. -/
def paddrToVmPage (zoneList : Word) (fuel : Nat) (s : Pmm) (addr : Word) : Option Word :=
  searchZones zoneList fuel s (pageBelongsToZone addr)
    (fun z => pageAt z ((addr - z.base) / pageSize)) NULL

/-- A zone of whole frames at a page-aligned address, with a page array that does not wrap. -/
structure ZoneExtent (z : PmmZone) : Prop where
  aligned : 4096 ∣ z.base.toNat
  size_eq : z.size.toNat = 4096 * frames z
  frames_pos : 0 < frames z
  top : z.base.toNat + z.size.toNat ≤ 2 ^ 64
  array_pos : 0 < z.pageArray.toNat
  array_top : z.pageArray.toNat + 24 * frames z ≤ 2 ^ 64

def InZone (z : PmmZone) (a : Word) : Prop :=
  z.base.toNat ≤ a.toNat ∧ a.toNat < z.base.toNat + 4096 * frames z

def frameEntry (z : PmmZone) (a : Word) : Word :=
  pageAt z (BitVec.ofNat 64 ((a.toNat - z.base.toNat) / 4096))

/-- What the searches rely on: a list of zones whose page arrays are disjoint and do not wrap. -/
structure PageArrays (zoneList : Word) (s : Pmm) (zs : List Word) : Prop where
  ring : Ring s.heap zoneList zs
  top : ∀ z ∈ zs, (s.zone z).pageArray.toNat + 24 * frames (s.zone z) ≤ 2 ^ 64
  arrays : ∀ z ∈ zs, ∀ w ∈ zs, z ≠ w → ArraysDisjoint (s.zone z) (s.zone w)

theorem PmmInv.pageArrays {zoneList : Word} {s : Pmm} {F : Family Word} {zs : List Word}
    (hi : PmmInv zoneList s F zs) : PageArrays zoneList s zs where
  ring := hi.ring
  top z hz := (hi.geometry z hz).array_top
  arrays := hi.arrays

/-- A list of zones with disjoint address ranges and disjoint page arrays. -/
structure ZoneMap (zoneList : Word) (s : Pmm) (zs : List Word) : Prop where
  ring : Ring s.heap zoneList zs
  extent : ∀ z ∈ zs, ZoneExtent (s.zone z)
  ranges : ∀ z ∈ zs, ∀ w ∈ zs, z ≠ w → ∀ a, InZone (s.zone z) a → ¬ InZone (s.zone w) a
  arrays : ∀ z ∈ zs, ∀ w ∈ zs, z ≠ w → ArraysDisjoint (s.zone z) (s.zone w)

theorem ZoneMap.pageArrays {zoneList : Word} {s : Pmm} {zs : List Word}
    (h : ZoneMap zoneList s zs) : PageArrays zoneList s zs where
  ring := h.ring
  top z hz := (h.extent z hz).array_top
  arrays := h.arrays

/-- Page descriptors and physical addresses correspond. -/
structure PageMapExact (zoneList : Word) (s : Pmm) (zs : List Word) : Prop where
  paddr : ∀ z ∈ zs, ∀ i < frames (s.zone z),
    Settles (fun n => vmPageToPaddr zoneList n s (pageAt (s.zone z) (BitVec.ofNat 64 i)))
      ((s.zone z).base + BitVec.ofNat 64 (4096 * i)) ∧
    Settles (fun n => paddrToVmPage zoneList n s ((s.zone z).base + BitVec.ofNat 64 (4096 * i)))
      (pageAt (s.zone z) (BitVec.ofNat 64 i))
  page : ∀ z ∈ zs, ∀ a, InZone (s.zone z) a →
    Settles (fun n => paddrToVmPage zoneList n s a) (frameEntry (s.zone z) a) ∧
    Settles (fun n => vmPageToPaddr zoneList n s (frameEntry (s.zone z) a)) (roundDown a pageSize)
  null : ∀ a, (∀ z ∈ zs, ¬ InZone (s.zone z) a) →
    Settles (fun n => paddrToVmPage zoneList n s a) NULL
  inj : ∀ p q, (∃ z ∈ zs, IsPage (s.zone z) p) → (∃ z ∈ zs, IsPage (s.zone z) q) → ∀ pa,
    Settles (fun n => vmPageToPaddr zoneList n s p) pa →
    Settles (fun n => vmPageToPaddr zoneList n s q) pa → p = q

section Search

variable {zoneList : Word} {s : Pmm} {zs : List Word} {z w p a : Word} {i : ℕ}

theorem settles_searchZones (hr : Ring s.heap zoneList zs) (belongs : PmmZone → Bool)
    (found : PmmZone → Word) (missing : Word) :
    Settles (fun n => searchZones zoneList n s belongs found missing)
      (((zs.find? fun z => belongs (s.zone z)).map fun z => found (s.zone z)).getD missing) := by
  obtain ⟨t, ht, rfl⟩ := settles_listForEach (fun _ : Option Word => s.heap)
    (fun _ zone ret =>
      if belongs (s.zone zone) then some (.stop (some (found (s.zone zone)))) else some (.next ret))
    (fun rest ret => ret = none ∧ ∃ us, zs = us ++ rest ∧
      zs.find? (fun z => belongs (s.zone z)) = rest.find? fun z => belongs (s.zone z))
    (fun ret => ret = (zs.find? fun z => belongs (s.zone z)).map fun z => found (s.zone z))
    (by
      rintro z rest ret ⟨rfl, us, hzs, hfind⟩
      by_cases hb : belongs (s.zone z) = true
      · refine .inr ⟨some (found (s.zone z)), .of_forall fun _ => if_pos hb, ?_⟩
        simp only [hfind, List.find?_cons, hb, Option.map_some]
      · refine .inl ⟨none, .of_forall fun _ => if_neg hb, ⟨rfl, us ++ [z], by simp [hzs], ?_⟩, ?_⟩
        · simp only [hfind, List.find?_cons, Bool.not_eq_true _ ▸ hb]
        · exact (hzs ▸ hr).next_eq)
    (by
      rintro ret ⟨rfl, us, -, hfind⟩
      rw [hfind]
      rfl)
    ⟨rfl, [], rfl, rfl⟩ hr.next_head (List.nodup_cons.mp hr.nodup).1
  exact ht.map _

theorem find?_eq_of_unique {α : Type*} {l : List α} {q : α → Bool} {x : α} (hx : x ∈ l)
    (hq : q x = true) (h : ∀ y ∈ l, q y = true → y = x) : l.find? q = some x := by
  cases hf : l.find? q with
  | none => exact absurd hq (List.find?_eq_none.mp hf x hx)
  | some y => rw [h y (List.mem_of_find?_eq_some hf) (List.find?_some hf)]

theorem pageIndexInZone_pageAt {z : PmmZone} (htop : z.pageArray.toNat + 24 * frames z ≤ 2 ^ 64)
    (hi : i < frames z) : pageIndexInZone (pageAt z (BitVec.ofNat 64 i)) z = BitVec.ofNat 64 i := by
  have hlt := z.pageArray.isLt
  apply BitVec.eq_of_toNat_eq
  rw [pageIndexInZone, BitVec.toNat_udiv, BitVec.toNat_sub_of_le
    (by rw [BitVec.le_def, pageAt_toNat htop hi]; omega), pageAt_toNat htop hi, BitVec.toNat_ofNat,
    toNat_sizeofVmPage]
  omega

theorem paddrFromZonePage_pageAt {z : PmmZone} (htop : z.pageArray.toNat + 24 * frames z ≤ 2 ^ 64)
    (hi : i < frames z) : paddrFromZonePage (pageAt z (BitVec.ofNat 64 i)) z =
      z.base + BitVec.ofNat 64 (4096 * i) := by
  rw [paddrFromZonePage, pageIndexInZone_pageAt htop hi, BitVec.add_comm, Nat.mul_comm,
    BitVec.ofNat_mul]
  rfl

namespace PageArrays

theorem claimed_zone (h : PageArrays zoneList s zs) (hz : z ∈ zs) (hw : w ∈ zs)
    (hp : IsPage (s.zone z) p) (hb : pageBelongsToZone p (s.zone w) = true) : w = z := by
  by_contra hne
  have h1 := hp.bounds (h.top z hz)
  have h2 := (pageBelongsToZone_iff (h.top w hw) p).mp hb
  rcases h.arrays z hz w hw (Ne.symm hne) with h | h <;> omega

/-- A page is found while its index times 24 is below the frame count of its zone. -/
theorem settles_vmPageToPaddr (h : PageArrays zoneList s zs) (hz : z ∈ zs)
    (hi : i < frames (s.zone z)) :
    Settles (fun n => vmPageToPaddr zoneList n s (pageAt (s.zone z) (BitVec.ofNat 64 i)))
      (if 24 * i < frames (s.zone z) then (s.zone z).base + BitVec.ofNat 64 (4096 * i) else -1) := by
  have htop := h.top z hz
  have hset := settles_searchZones h.ring (pageBelongsToZone (pageAt (s.zone z) (BitVec.ofNat 64 i)))
    (paddrFromZonePage (pageAt (s.zone z) (BitVec.ofNat 64 i))) (-1)
  have hown : ∀ w ∈ zs, pageBelongsToZone (pageAt (s.zone z) (BitVec.ofNat 64 i)) (s.zone w) = true →
      w = z := fun w hw => h.claimed_zone hz hw ⟨i, hi, rfl⟩
  by_cases hlt : 24 * i < frames (s.zone z)
  · rw [find?_eq_of_unique hz ((pageBelongsToZone_pageAt htop hi).mpr hlt) hown] at hset
    rw [if_pos hlt, ← paddrFromZonePage_pageAt htop hi]
    exact hset
  · have hnone : zs.find? (fun w => pageBelongsToZone (pageAt (s.zone z) (BitVec.ofNat 64 i))
        (s.zone w)) = none := List.find?_eq_none.mpr fun w hw hb => by
      obtain rfl := hown w hw hb
      exact hlt ((pageBelongsToZone_pageAt htop hi).mp hb)
    rw [hnone] at hset
    rw [if_neg hlt]
    exact hset

/-- An address that is found is one of the few behind the start of a page array. -/
theorem exists_window (h : PageArrays zoneList s zs) {page : Word} (hpage : page ≠ NULL)
    (hset : Settles (fun n => paddrToVmPage zoneList n s a) page) :
    ∃ w ∈ zs, (s.zone w).pageArray.toNat ≤ a.toNat ∧
      a.toNat < (s.zone w).pageArray.toNat + frames (s.zone w) := by
  have hset' := settles_searchZones h.ring (pageBelongsToZone a)
    (fun z => pageAt z ((a - z.base) / pageSize)) NULL
  have heq := hset.unique hset'
  cases hf : zs.find? fun z => pageBelongsToZone a (s.zone z) with
  | none =>
      rw [hf] at heq
      exact absurd heq hpage
  | some w =>
      have hw := List.mem_of_find?_eq_some hf
      have hb : pageBelongsToZone a (s.zone w) = true :=
        List.find?_some (p := fun z => pageBelongsToZone a (s.zone z)) hf
      exact ⟨w, hw, (pageBelongsToZone_iff (h.top w hw) a).mp hb⟩

end PageArrays

namespace ZoneMap

/-- The value for a page that is not found is the address of no frame. -/
theorem base_add_ne (h : ZoneExtent (s.zone z)) (i : ℕ) :
    (-1 : Word) ≠ (s.zone z).base + BitVec.ofNat 64 (4096 * i) := by
  intro heq
  have hnat := congrArg BitVec.toNat heq
  have haligned := h.aligned
  rw [BitVec.toNat_add, BitVec.toNat_ofNat, show (-1 : Word).toNat = 2 ^ 64 - 1 from rfl] at hnat
  omega

theorem vmPageToPaddr_iff (h : ZoneMap zoneList s zs) (hz : z ∈ zs) (hi : i < frames (s.zone z)) :
    Settles (fun n => vmPageToPaddr zoneList n s (pageAt (s.zone z) (BitVec.ofNat 64 i)))
      ((s.zone z).base + BitVec.ofNat 64 (4096 * i)) ↔ 24 * i < frames (s.zone z) := by
  have hset := h.pageArrays.settles_vmPageToPaddr hz hi
  constructor
  · intro hright
    by_contra hlt
    rw [if_neg hlt] at hset
    exact base_add_ne (h.extent z hz) i (hset.unique hright)
  · intro hlt
    rwa [if_pos hlt] at hset

theorem frameEntry_ne_null (h : ZoneMap zoneList s zs) (hz : z ∈ zs) (ha : InZone (s.zone z) a) :
    frameEntry (s.zone z) a ≠ NULL := by
  intro hnull
  have hpos := (h.extent z hz).array_pos
  have hnat := congrArg BitVec.toNat hnull
  obtain ⟨h1, h2⟩ := ha
  rw [frameEntry, pageAt_toNat (h.extent z hz).array_top (by omega), toNat_null]
    at hnat
  omega

def addresses (z : PmmZone) : Finset ℕ := Finset.Ico z.base.toNat (z.base.toNat + 4096 * frames z)

def window (z : PmmZone) : Finset ℕ :=
  Finset.Ico z.pageArray.toNat (z.pageArray.toNat + frames z)

/-- There are 4096 addresses in a frame and the macro finds one for each frame, so they cannot all
be found. -/
theorem eq_nil_of_exact (h : ZoneMap zoneList s zs) (hx : PageMapExact zoneList s zs) : zs = [] := by
  have hsub : (zs.toFinset.biUnion fun z => addresses (s.zone z)) ⊆
      zs.toFinset.biUnion fun z => window (s.zone z) := by
    intro a ha
    obtain ⟨z, hz, ha⟩ := Finset.mem_biUnion.mp ha
    rw [List.mem_toFinset] at hz
    obtain ⟨h1, h2⟩ := Finset.mem_Ico.mp ha
    have htop := (h.extent z hz).top
    have hsize := (h.extent z hz).size_eq
    have hnat : (BitVec.ofNat 64 a : Word).toNat = a := by
      rw [BitVec.toNat_ofNat]
      omega
    have hin : InZone (s.zone z) (BitVec.ofNat 64 a) := by rwa [InZone, hnat, ← Finset.mem_Ico]
    obtain ⟨w, hw, hwin⟩ := h.pageArrays.exists_window (h.frameEntry_ne_null hz hin)
      (hx.page z hz _ hin).1
    rw [hnat] at hwin
    exact Finset.mem_biUnion.mpr ⟨w, List.mem_toFinset.mpr hw, Finset.mem_Ico.mpr hwin⟩
  have hcard := Finset.card_le_card hsub
  have hdisjoint : (zs.toFinset : Set Word).PairwiseDisjoint fun z => addresses (s.zone z) := by
    intro z hz w hw hne
    rw [List.coe_toFinset] at hz hw
    refine Finset.disjoint_left.mpr fun a ha ha' => ?_
    obtain ⟨h1, h2⟩ := Finset.mem_Ico.mp ha
    obtain ⟨h3, h4⟩ := Finset.mem_Ico.mp ha'
    have htop := (h.extent z hz).top
    have hsize := (h.extent z hz).size_eq
    have hnat : (BitVec.ofNat 64 a : Word).toNat = a := by
      rw [BitVec.toNat_ofNat]
      omega
    exact h.ranges z hz w hw hne (BitVec.ofNat 64 a) (by rw [InZone, hnat]; exact ⟨h1, h2⟩)
      (by rw [InZone, hnat]; exact ⟨h3, h4⟩)
  have hframes : ∀ z : PmmZone, (addresses z).card = 4096 * frames z ∧ (window z).card = frames z :=
    fun z => by rw [addresses, window, Nat.card_Ico, Nat.card_Ico]; omega
  rw [Finset.card_biUnion hdisjoint, Finset.sum_congr rfl fun z _ => (hframes (s.zone z)).1,
    ← Finset.mul_sum] at hcard
  have hle := le_trans hcard Finset.card_biUnion_le
  rw [Finset.sum_congr rfl fun z _ => (hframes (s.zone z)).2] at hle
  by_contra hne
  obtain ⟨z, hz⟩ := List.exists_mem_of_ne_nil zs hne
  have hpos : 0 < ∑ z ∈ zs.toFinset, frames (s.zone z) :=
    Finset.sum_pos' (fun _ _ => Nat.zero_le _) ⟨z, List.mem_toFinset.mpr hz, (h.extent z hz).frames_pos⟩
  omega

end ZoneMap

theorem pageMapExact_nil (hr : Ring s.heap zoneList []) : PageMapExact zoneList s [] where
  paddr _ hz := absurd hz List.not_mem_nil
  page _ hz := absurd hz List.not_mem_nil
  null a _ := settles_searchZones hr _ _ _
  inj _ _ hp := by
    obtain ⟨z, hz, -⟩ := hp
    exact absurd hz List.not_mem_nil

/-- The correspondence is exact only while there is no zone. A descriptor gives its address when,
and only when, its byte offset in the array is below the frame count of its zone. -/
theorem pageMapExact_iff (h : ZoneMap zoneList s zs) : (PageMapExact zoneList s zs ↔ zs = []) ∧
    ∀ z ∈ zs, ∀ i < frames (s.zone z),
      (Settles (fun n => vmPageToPaddr zoneList n s (pageAt (s.zone z) (BitVec.ofNat 64 i)))
        ((s.zone z).base + BitVec.ofNat 64 (4096 * i)) ↔ 24 * i < frames (s.zone z)) := by
  refine ⟨⟨h.eq_nil_of_exact, ?_⟩, fun z hz i hi => h.vmPageToPaddr_iff hz hi⟩
  rintro rfl
  exact pageMapExact_nil h.ring

end Search

theorem sample_zoneMap : ∃ s, ZoneMap 64 s [4096] := by
  obtain ⟨P, hr, hzs, hshape, -⟩ := sample_zone (fun _ _ => True) trivial
  obtain ⟨F, hi, -⟩ := hr.sound.inv
  rw [hzs] at hi
  refine ⟨P.s, hi.ring, fun z hz => ?_, fun z hz w hw hne => ?_, hi.arrays⟩
  · have hg := hi.geometry z hz
    obtain rfl := List.mem_singleton.mp hz
    simp only [PmmZone.shape, Prod.mk.injEq] at hshape
    refine ⟨?_, hg.size_eq, hg.frames_pos, hg.top, hg.array_pos, hg.array_top⟩
    rw [hshape.1]
    decide
  · exact absurd ((List.mem_singleton.mp hz).trans (List.mem_singleton.mp hw).symm) hne

theorem pageMapExact_iff_sample : ∃ s, ZoneMap 64 s [4096] ∧ ¬ PageMapExact 64 s [4096] := by
  obtain ⟨s, hs⟩ := sample_zoneMap
  exact ⟨s, hs, fun hx => absurd ((pageMapExact_iff hs).1.mp hx) (List.cons_ne_nil _ _)⟩

/-- The addresses of a zone of two frames are not found. -/
theorem addresses_not_found : ¬ ∀ (zoneList : Word) (s : Pmm) (zs : List Word),
    ZoneMap zoneList s zs → PageMapExact zoneList s zs := by
  intro hall
  obtain ⟨s, hs⟩ := sample_zoneMap
  exact absurd (hs.eq_nil_of_exact (hall 64 s [4096] hs)) (List.cons_ne_nil _ _)

end Rix
