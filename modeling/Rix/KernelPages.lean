import Rix.Entry
import Rix.Kheap

/-!
# The pages that the kernel gets

`pmm_alloc_kpages` takes a page as `pmm_alloc_page` does and returns its address in the linear map, if
`vm_page_to_paddr` finds it. Which addresses the kernel can get after boot is a matter of the loader's
map alone.
-/
namespace Rix
open Rings Fuel MmapEntry

/-- Some run without `pmm_add_zone` leaves a free page and comes to where `pmm_alloc_kpages(1)`
returns `r`, whatever its local held. -/
def Snapshot.KernelGets (zoneList : Word) (P : Snapshot) (r : Word) : Prop :=
  ∃ Q page s', PmmRun zoneList (fun c => c.newZones = []) P Q ∧ (∃ p, Q.Free p) ∧
    Settles (fun n => pmmAllocKpages zoneList n Q.s 1 page) (r, s')

theorem kernelAddress_ne_null {z : PmmZone} {i : ℕ} : kernelAddress z i ≠ NULL ↔
    24 * i < frames z ∧ (z.base + BitVec.ofNat 64 (4096 * i)).toNat < 2 ^ 36 := by
  unfold kernelAddress
  split_ifs with h
  · exact iff_of_true (kernelAspaceBase_add_ne_null h.2) h
  · exact iff_of_false (fun hne => hne rfl) h

theorem kernelAddress_congr {z w : PmmZone} (h : z.shape = w.shape) (i : ℕ) :
    kernelAddress z i = kernelAddress w i := by
  have hbase : z.base = w.base := congrArg Prod.fst h
  rw [kernelAddress, kernelAddress, frames_congr h, hbase]

section

variable {zoneList r : Word} {P Q : Snapshot}

/-- With a free page, `pmm_alloc_kpages(1)` returns the address of the first one. -/
theorem Snapshot.Sound.exists_kernelAddress (hs : P.Sound zoneList) (hfree : ∃ p, P.Free p) :
    ∃ z ∈ P.zs, ∃ i < frames (P.s.zone z), ∃ s',
      (PmmCall.allocPage 0).Returns zoneList P [pageAt (P.s.zone z) (BitVec.ofNat 64 i)] s' ∧
      ∀ page, Settles (fun n => pmmAllocKpages zoneList n P.s 1 page)
        (kernelAddress (P.s.zone z) i, s') := by
  obtain ⟨F, hi, -⟩ := hs.inv
  obtain ⟨⟨z, p⟩, more, hfirst⟩ := List.exists_cons_of_ne_nil ((free_iff hi).mp hfree)
  obtain ⟨hz, fr, hF, hp⟩ := mem_freeOf.mp (show (z, p) ∈ freeOf F P.zs by simp [hfirst])
  dsimp only at hz hF hp
  obtain ⟨i, hlt, rfl⟩ := (((hi.free_eq hz hF).2 p).mp hp).1
  have hpage := settles_pmmAllocPage hi 0
  rw [hfirst] at hpage
  exact ⟨z, hz, i, hlt, _, ⟨_, _, hpage, fun _ => rfl, fun hno => absurd hfree hno⟩,
    settles_pmmAllocKpages hi hlt hfirst⟩

/-- With no page in hand yet, the kernel gets the addresses that are found. -/
theorem Snapshot.Sound.kernelGets_iff (hs : P.Sound zoneList) (hnone : ∀ p, ¬ P.Busy p) :
    P.KernelGets zoneList r ↔ ∃ z ∈ P.zs, ∃ i < frames (P.s.zone z), r = kernelAddress (P.s.zone z) i := by
  constructor
  · rintro ⟨Q, page, s', hr, hfree, hset⟩
    obtain ⟨z, hz, i, hi, s'', -, hkernel⟩ := (hr.sound hs).exists_kernelAddress hfree
    obtain ⟨hzs, hshape⟩ := hr.zones hs fun _ hc => hc
    rw [hzs] at hz
    have h := hshape z hz
    refine ⟨z, hz, i, frames_congr h ▸ hi, ?_⟩
    rw [← kernelAddress_congr h]
    exact congrArg Prod.fst (hset.unique (hkernel page))
  · rintro ⟨z, hz, i, hi, rfl⟩
    have hpage : P.Free (pageAt (P.s.zone z) (BitVec.ofNat 64 i)) :=
      Snapshot.free_of_not_busy hz ⟨i, hi, rfl⟩ (hnone _)
    obtain ⟨Q, s', hr, hret⟩ := hs.exists_handout (fun c => c.newZones = []) rfl hpage
    have hfree : ∃ p, Q.Free p := by
      obtain ⟨status, out, -, -, hno⟩ := hret
      by_contra h
      cases hno h
    obtain ⟨w, hw, j, hj, s'', hret', hkernel⟩ := (hr.sound hs).exists_kernelAddress hfree
    -- it is the page that `pmm_alloc_page` hands out here
    have hsame : pageAt (P.s.zone z) (BitVec.ofNat 64 i) = pageAt (Q.s.zone w) (BitVec.ofNat 64 j) := by
      obtain ⟨_, _, hset, hyes, -⟩ := hret
      obtain ⟨_, _, hset', hyes', -⟩ := hret'
      have hout := List.singleton_inj.mp (hyes hfree)
      have hout' := List.singleton_inj.mp (hyes' hfree)
      rw [hout, hout']
      exact congrArg (fun r => r.2.2) (hset.unique hset')
    obtain ⟨hzs, hshape⟩ := hr.zones hs fun _ hc => hc
    have h := hshape z hz
    obtain ⟨F, hinv, -⟩ := (hr.sound hs).inv
    have hzQ : z ∈ Q.zs := hzs.symm ▸ hz
    rw [← pageAt_congr h] at hsame
    have hiQ : i < frames (Q.s.zone z) := (frames_congr h).symm ▸ hi
    obtain rfl := hinv.page_zone hzQ hw ⟨i, hiQ, rfl⟩ ⟨j, hj, hsame⟩
    obtain rfl := pageAt_inj (hinv.geometry z hzQ) hiQ hj hsame
    exact ⟨Q, 0, s'', hr, hfree, kernelAddress_congr h i ▸ hkernel 0⟩

end

def PhysZone.firstFrame (r : PhysZone) : ℕ := (r.base.toNat + 4095) / 4096 * 4096

/-- An address that the kernel finds in the zone of a region. -/
def PhysZone.Found (q : PhysZone) (r : Word) : Prop :=
  ∃ i, 24 * i < q.frames ∧ q.firstFrame + 4096 * i < 2 ^ 36 ∧
    r = kernelAspaceBase + BitVec.ofNat 64 (q.firstFrame + 4096 * i)

theorem PhysZone.firstFrame_add_lt {q : PhysZone} {i d : ℕ} (h : q.firstFrame + 4096 * i < 2 ^ 36)
    (hd : d < 4096) : q.firstFrame + 4096 * i + d < 2 ^ 36 := by
  unfold PhysZone.firstFrame at *
  generalize (q.base.toNat + 4095) / 4096 = k at *
  have hlt : k + i < 2 ^ 24 := by
    by_contra hge
    linarith
  have hle : k + i + 1 ≤ 2 ^ 24 := hlt
  linarith

section

variable {zoneList phyZones r : Word} {bst : BootState} {s₀ : Pmm} {P : Snapshot}

theorem kernelAddress_found_iff {q : PhysZone} {z : PmmZone}
    (hz : z.base = roundUp q.base pageSize ∧ z.size = roundDown q.size pageSize)
    (htop : q.base.toNat + q.size.toNat ≤ 2 ^ 64) (hq : 0 < q.frames) (hr : r ≠ NULL) :
    (∃ i < frames z, r = kernelAddress z i) ↔ q.Found r := by
  have hframes := frames_rounded hz.2
  have hat : ∀ i < q.frames, z.base + BitVec.ofNat 64 (4096 * i) =
      BitVec.ofNat 64 (q.firstFrame + 4096 * i) ∧
      (z.base + BitVec.ofNat 64 (4096 * i)).toNat = q.firstFrame + 4096 * i := by
    intro i hi
    rw [PhysZone.frames] at hi hq
    have hbase : z.base.toNat = q.firstFrame := by
      rw [hz.1, roundUp_page, PhysZone.firstFrame]
      omega
    have hsum : (z.base + BitVec.ofNat 64 (4096 * i)).toNat = q.firstFrame + 4096 * i := by
      rw [BitVec.toNat_add, BitVec.toNat_ofNat, hbase]
      unfold PhysZone.firstFrame
      omega
    refine ⟨BitVec.eq_of_toNat_eq ?_, hsum⟩
    rw [hsum, BitVec.toNat_ofNat, Nat.mod_eq_of_lt (hsum ▸ BitVec.isLt _)]
  constructor
  · rintro ⟨i, hi, rfl⟩
    obtain ⟨hfound, hlt⟩ := kernelAddress_ne_null.mp hr
    rw [hframes] at hi hfound
    refine ⟨i, hfound, (hat i hi).2 ▸ hlt, ?_⟩
    rw [kernelAddress, if_pos ⟨hframes ▸ hfound, hlt⟩, (hat i hi).1]
  · rintro ⟨i, hfound, hlt, rfl⟩
    have hi : i < q.frames := by omega
    refine ⟨i, hframes.symm ▸ hi, ?_⟩
    rw [kernelAddress, if_pos ⟨hframes.symm ▸ hfound, (hat i hi).2.symm ▸ hlt⟩, (hat i hi).1]

theorem ZonesBuilt.kernelGets_iff
    (hb : ZonesBuilt zoneList phyZones bst.regions s₀ bst.regions.length P)
    (hnone : ∀ p, ¬ P.Busy p) (htop : ∀ q ∈ bst.regions, q.base.toNat + q.size.toNat ≤ 2 ^ 64)
    (hr : r ≠ NULL) : P.KernelGets zoneList r ↔ ∃ q ∈ bst.regions, q.Found r := by
  rw [hb.sound.kernelGets_iff hnone]
  constructor
  · rintro ⟨z, hz, hget⟩
    obtain ⟨j, hj, q, hq, hpos, rfl⟩ := (hb.zones z).mp hz
    have hmem := List.mem_of_getElem? hq
    exact ⟨q, hmem, (kernelAddress_found_iff (hb.fields j hj q hq hpos) (htop q hmem) hpos hr).mp hget⟩
  · rintro ⟨q, hq, hfound⟩
    obtain ⟨j, hj, hget⟩ := List.getElem_of_mem hq
    have hq' : bst.regions[j]? = some q := by rw [List.getElem?_eq_getElem hj, hget]
    have hpos : 0 < q.frames := by
      obtain ⟨i, hi, -⟩ := hfound
      omega
    exact ⟨_, (hb.zones _).mpr ⟨j, hj, q, hq', hpos, rfl⟩,
      (kernelAddress_found_iff (hb.fields j hj q hq' hpos) (htop q hq) hpos hr).mpr hfound⟩

end

section

variable {img : BootImage} {s : Cpu} {total : ℕ} {es : List MmapEntry}

/-- From the boot loader to the kernel's pages: over all runs after `_start` and `platform_init`,
`pmm_alloc_kpages(1)` returns the addresses of the first 24th of each available region from 1 MiB on,
below 64 GiB, and no others; the boot page tables map each to its frame. The allocator's state is any
one with `ImageLayout`, such as the state that `_start` leaves. -/
theorem kernel_gets_iff (hl : img.Linked) (h : img.Loaded s total es) {zoneList phyZones : Word}
    {s₀ : Pmm} (hmap : MapAdmissible zoneList phyZones es s₀) :
    ∃ s' P, Settles (fun n => Cpu.start img n s) s' ∧
      PlatformEnds (s'.mem.virtual (s'.cr3.setWidth 64)) zoneList phyZones (s.ebx.setWidth 64) s₀ P ∧
      ∀ r ≠ NULL, (P.KernelGets zoneList r ↔ ∃ e ∈ es, e.High ∧ e.zone.Found r) ∧
        (P.KernelGets zoneList r → ∀ d < 4096, s'.mem.walk (s'.cr3.setWidth 64) (r + BitVec.ofNat 64 d) =
          .mapped (r - kernelAspaceBase + BitVec.ofNat 64 d)) := by
  obtain ⟨s', hset, -, hinput⟩ := start_bootInput hl h hmap
  obtain ⟨s'', m, hset', hcr3, hst, rfl⟩ := exists_start hl s
  obtain rfl := hset.unique hset'
  have hw : (s'.cr3.setWidth 64 : Word).toNat = img.bootPml4Table.toNat := by
    rw [hcr3]
    exact BitVec.toNat_setWidth_of_le (by decide)
  obtain ⟨P, bst', hend, hregions, hb, hnone⟩ := hinput.exists_platformInit
  have hgets : ∀ r ≠ NULL, (P.KernelGets zoneList r ↔ ∃ e ∈ es, e.High ∧ e.zone.Found r) := by
    intro r hr
    rw [hb.kernelGets_iff hnone (by rw [hregions]; exact hmap.top) hr]
    simp [hregions, highZones, and_assoc]
  refine ⟨s', P, hset, hend, fun r hr => ⟨hgets r hr, fun hget d hd => ?_⟩⟩
  obtain ⟨e, -, -, i, -, hlt, rfl⟩ := (hgets r hr).mp hget
  have hoff := PhysZone.firstFrame_add_lt hlt hd
  have hsum : kernelAspaceBase + BitVec.ofNat 64 (e.zone.firstFrame + 4096 * i) + BitVec.ofNat 64 d =
      kernelAspaceBase + BitVec.ofNat 64 (e.zone.firstFrame + 4096 * i + d) := by
    rw [BitVec.add_assoc, ← BitVec.ofNat_add]
  have hva : (kernelAspaceBase + BitVec.ofNat 64 (e.zone.firstFrame + 4096 * i + d)).toNat =
      kernelAspaceBase.toNat + (e.zone.firstFrame + 4096 * i + d) := by
    have hsmall : (BitVec.ofNat 64 (e.zone.firstFrame + 4096 * i + d)).toNat =
        e.zone.firstFrame + 4096 * i + d := BitVec.toNat_ofNat _ _ |>.trans (Nat.mod_eq_of_lt (by omega))
    rw [toNat_kernelAspaceBase_add (hsmall.trans_lt hoff), hsmall]
  rw [hsum, walk_linear hl.tables (zeroed_filled hl _) hst hw hoff hva]
  congr 1
  rw [BitVec.add_comm kernelAspaceBase, BitVec.add_sub_cancel, ← BitVec.ofNat_add]

end

/-- The kernel gets the frame at 1 MiB, but not the one behind the first 24th of the region. -/
theorem kernel_gets_iff_sample : ∃ s' P, Settles (fun n => Cpu.start sampleKernel n sampleCpu) s' ∧
    PlatformEnds (s'.mem.virtual (s'.cr3.setWidth 64)) 64 4096 65536 sampleImage P ∧
    P.KernelGets 64 (kernelAspaceBase + 0x100000) ∧ ¬ P.KernelGets 64 (kernelAspaceBase + 0x7fdf000) := by
  obtain ⟨s', P, hset, hend, hgets⟩ := kernel_gets_iff sampleKernel_linked sampleKernel_loaded
    sample_mapAdmissible
  refine ⟨s', P, hset, hend, ((hgets _ (by decide)).1).mpr ?_, fun hget => ?_⟩
  · exact ⟨⟨0x100000, 0x7ee0000, 1⟩, by decide, by decide, 0, by decide, by decide, by decide⟩
  · obtain ⟨e, he, hhigh, i, hi, hlt, heq⟩ := ((hgets _ (by decide)).1).mp hget
    simp only [sampleMap, List.mem_cons, List.not_mem_nil, or_false] at he
    rcases he with rfl | rfl | rfl
    · exact absurd hhigh (by decide)
    · have hnat := congrArg BitVec.toNat (BitVec.add_right_inj _ |>.mp heq)
      have hfirst : PhysZone.firstFrame (MmapEntry.zone ⟨0x100000, 0x7ee0000, 1⟩) = 0x100000 := rfl
      have hframes : PhysZone.frames (MmapEntry.zone ⟨0x100000, 0x7ee0000, 1⟩) = 32480 := rfl
      have hframe : (0x7fdf000 : Word).toNat = 0x7fdf000 := rfl
      rw [hframes] at hi
      rw [hfirst, hframe, BitVec.toNat_ofNat] at hnat
      omega
    · exact absurd hhigh (by decide)

end Rix
