import Rix.BootLayout
import Rix.BootZones
import Rix.VmPreheap

/-!
# From the boot loader's map to the pages handed out

`platform_init` reads the memory map and makes a zone of every high region, and from then on
pages come from these zones only. Which frames stand behind the pages that are ever handed out
is a matter of the map alone.
-/
namespace Rix
open Rings Fuel MmapEntry

/-- What `platform_init` does after the serial port and the console are set up. -/
def platformInit (m : Word → Option Byte) (zoneList phyZones : Word) (fuel : Nat) (mbtInfo : Word)
    (bst : BootState) (s : Pmm) : Option (Word × BootState × Pmm) := do
  let (mbtInfo, bst) ← initBootState m fuel mbtInfo bst
  let s ← pmmZoneInit zoneList phyZones fuel bst s
  pure (mbtInfo, bst, s)

/-- The descriptor `p` stands for the frame at `f`. -/
def Snapshot.Backs (P : Snapshot) (p : Word) (f : ℕ) : Prop :=
  ∃ z ∈ P.zs, ∃ i < frames (P.s.zone z), p = pageAt (P.s.zone z) (BitVec.ofNat 64 i) ∧
    f = (P.s.zone z).base.toNat + 4096 * i

section Backs

variable {zoneList : Word} {P Q : Snapshot} {p q : Word} {f g : ℕ}

theorem Snapshot.exists_backs : (∃ p, P.Backs p f) ↔ ∃ z ∈ P.zs, Managed (P.s.zone z) f := by
  constructor
  · rintro ⟨p, z, hz, i, hi, -, hf⟩
    exact ⟨z, hz, i, hi, hf⟩
  · rintro ⟨z, hz, i, hi, hf⟩
    exact ⟨_, z, hz, i, hi, rfl, hf⟩

theorem Snapshot.Busy.exists_backs (hb : P.Busy p) : ∃ f, P.Backs p f := by
  obtain ⟨z, hz, ⟨i, hi, hp⟩, -⟩ := hb
  exact ⟨_, z, hz, i, hi, hp, rfl⟩

theorem Snapshot.Sound.backs_frame (hs : P.Sound zoneList) (hf : P.Backs p f) (hg : P.Backs p g) :
    f = g := by
  obtain ⟨F, hi, -⟩ := hs.inv
  obtain ⟨z, hz, i, hilt, hp, rfl⟩ := hf
  obtain ⟨w, hw, j, hjlt, hp', rfl⟩ := hg
  obtain rfl := hi.page_zone hz hw ⟨i, hilt, hp⟩ ⟨j, hjlt, hp'⟩
  rw [pageAt_inj (hi.geometry z hz) hilt hjlt (hp.symm.trans hp')]

theorem PmmRun.zones {ok : PmmCall → Prop} (hr : PmmRun zoneList ok P Q) (hs : P.Sound zoneList)
    (hok : ∀ c, ok c → c.newZones = []) :
    Q.zs = P.zs ∧ ∀ z ∈ P.zs, (Q.s.zone z).shape = (P.s.zone z).shape := by
  induction hr with
  | refl => exact ⟨rfl, fun _ _ => rfl⟩
  | @call Q c got s' hr ha hc hret ih =>
      have he := (hr.sound hs).effect ha hret
      refine ⟨by simp [Snapshot.after, hok c hc, ih.1], fun z hz => ?_⟩
      exact (he.shape z (ih.1 ▸ hz)).trans (ih.2 z hz)

theorem PmmRun.backs_iff {ok : PmmCall → Prop} (hr : PmmRun zoneList ok P Q)
    (hs : P.Sound zoneList) (hok : ∀ c, ok c → c.newZones = []) :
    Q.Backs p f ↔ P.Backs p f := by
  obtain ⟨hzs, hshape⟩ := hr.zones hs hok
  rw [Snapshot.Backs, Snapshot.Backs, hzs]
  refine exists_congr fun z => and_congr_right fun hz => ?_
  have h := hshape z hz
  have hbase : (Q.s.zone z).base = (P.s.zone z).base := congrArg Prod.fst h
  simp only [frames_congr h, pageAt_congr h, hbase]

/-- Some run without `pmm_add_zone` has the page of the frame at `f` in hand. -/
def Snapshot.HandsOut (zoneList : Word) (P : Snapshot) (f : ℕ) : Prop :=
  ∃ Q p, PmmRun zoneList (fun c => c.newZones = []) P Q ∧ p ∈ Q.held ∧ Q.Backs p f

/-- With no page in hand yet, the frames that a run may hand out are those of the zones. -/
theorem Snapshot.Sound.handsOut_iff (hs : P.Sound zoneList) (hfree : ∀ p, ¬ P.Busy p) :
    P.HandsOut zoneList f ↔ ∃ z ∈ P.zs, Managed (P.s.zone z) f := by
  rw [← Snapshot.exists_backs]
  constructor
  · rintro ⟨Q, p, hr, -, hb⟩
    exact ⟨p, (hr.backs_iff hs fun _ hc => hc).mp hb⟩
  · rintro ⟨p, hb⟩
    have hpage : P.Free p := by
      obtain ⟨z, hz, i, hi, hp, -⟩ := hb
      exact Snapshot.free_of_not_busy hz ⟨i, hi, hp⟩ (hfree p)
    obtain ⟨Q, s', hr, hret⟩ := hs.exists_handout (fun c => c.newZones = []) rfl hpage
    have hr' := hr.call (c := .allocPage 0) trivial rfl hret
    refine ⟨_, p, hr', ?_, (hr'.backs_iff hs fun _ hc => hc).mpr hb⟩
    simp [Snapshot.after, PmmCall.givenBack]

end Backs

/-- Zones of regions that share no byte share no frame, whether or not the regions fit. -/
theorem managed_region_unique {r q : PhysZone} {z w : PmmZone} {f : ℕ}
    (hz : z.base = roundUp r.base pageSize ∧ z.size = roundDown r.size pageSize)
    (hw : w.base = roundUp q.base pageSize ∧ w.size = roundDown q.size pageSize)
    (htop : r.base.toNat + r.size.toNat ≤ 2 ^ 64) (htop' : q.base.toNat + q.size.toNat ≤ 2 ^ 64)
    (hr : 0 < r.frames) (hq : 0 < q.frames) (hf : Managed z f) (hf' : Managed w f) :
    ∃ x, r.Contains x ∧ q.Contains x := by
  rw [managed_iff hz htop hr] at hf
  rw [managed_iff hw htop' hq] at hf'
  simp only [PhysZone.Contains, PhysZone.frames] at *
  rcases Nat.le_total r.base.toNat q.base.toNat with h | h
  · exact ⟨q.base.toNat, ⟨h, by omega⟩, le_rfl, by omega⟩
  · exact ⟨r.base.toNat, ⟨le_rfl, by omega⟩, h, by omega⟩

section Boot

variable {zoneList phyZones : Word} {bst : BootState} {s₀ : Pmm} {P : Snapshot} {f : ℕ}

theorem ZonesBuilt.managed_unique
    (hb : ZonesBuilt zoneList phyZones bst.regions s₀ bst.regions.length P)
    (hw : ∀ r ∈ bst.regions, r.base.toNat + r.size.toNat ≤ 2 ^ 64) (hd : DisjointRegions bst)
    {z w : Word} (hz : z ∈ P.zs) (hwz : w ∈ P.zs) (hf : Managed (P.s.zone z) f)
    (hf' : Managed (P.s.zone w) f) : z = w := by
  obtain ⟨j, hj, r, hr, hpos, rfl⟩ := (hb.zones z).mp hz
  obtain ⟨k, hk, q, hq, hqpos, rfl⟩ := (hb.zones w).mp hwz
  obtain ⟨x, hx, hx'⟩ := managed_region_unique (hb.fields j hj r hr hpos)
    (hb.fields k hk q hq hqpos) (hw r (List.mem_of_getElem? hr)) (hw q (List.mem_of_getElem? hq))
    hpos hqpos hf hf'
  rw [hd.index hr hq hx hx']

theorem ZonesBuilt.backs_page
    (hb : ZonesBuilt zoneList phyZones bst.regions s₀ bst.regions.length P)
    (hw : ∀ r ∈ bst.regions, r.base.toNat + r.size.toNat ≤ 2 ^ 64) (hd : DisjointRegions bst)
    {p q : Word} (hp : P.Backs p f) (hq : P.Backs q f) : p = q := by
  obtain ⟨z, hz, i, hi, rfl, hfi⟩ := hp
  obtain ⟨w, hwz, j, hj, rfl, hfj⟩ := hq
  obtain rfl := hb.managed_unique hw hd hz hwz ⟨i, hi, hfi⟩ ⟨j, hj, hfj⟩
  rw [show i = j by omega]

end Boot

theorem MapBlock.settles {w : Word → Option Byte} {m : Mem} {mbtInfo : Word} {total : ℕ}
    {es : List MmapEntry} (h : MapBlock m (mbtInfo + kernelVmaBase) total es)
    (hread : BlockRead w m (mbtInfo + kernelVmaBase) total) (h10 : (highZones es).length ≤ 10)
    (bst : BootState) : ∃ bst', Settles (fun fuel => initBootState w fuel mbtInfo bst)
        (mbtInfo + kernelVmaBase, bst') ∧ Recorded bst es bst' := by
  obtain ⟨os, o, k, htags, hone, hk, rfl⟩ := h.tags
  have hcount : mmapCount m (mbtInfo + kernelVmaBase) o = k := by
    unfold mmapCount
    omega
  have hfit := htags.mem_fits (List.mem_filter.mp (hone ▸ List.mem_singleton_self o)).1
  rw [← hcount] at h10
  obtain ⟨bst', hb, hr⟩ := settles_mmapTag hread (o := o) (by omega) bst
  replace hr := hr h10
  rw [tagEntries, hcount] at hr
  exact ⟨bst', settles_initBootState hread le_rfl (le_trans (by decide) h.header) h.size htags
    (hone ▸ MmapTags.cons hb (.nil bst')), hr⟩

theorem Recorded.regions_eq {bst bst' : BootState} {es : List MmapEntry}
    (h : Recorded bst es bst') (hbss : bst.numHighZones = 0) (h10 : (highZones es).length ≤ 10) :
    bst'.numHighZones.toNat = (highZones es).length ∧ bst'.regions = highZones es := by
  have hnum : bst'.numHighZones.toNat = (highZones es).length := by
    rw [h.num, hbss, BitVec.toNat_add, show (0 : Word).toNat = 0 from rfl, BitVec.toNat_ofNat]
    omega
  refine ⟨hnum, ?_⟩
  rw [BootState.regions, hnum, h.zones, List.take_left']
  rfl

/-- What `pmm_zone_init` is promised: at most ten high regions, below 16 TiB each, that end below
2^64 and share no byte, and room for their pages behind the image. -/
structure MapAdmissible (zoneList phyZones : Word) (es : List MmapEntry) (s : Pmm) : Prop where
  ten : (highZones es).length ≤ 10
  layout : ImageLayout zoneList phyZones s
  top : ∀ r ∈ highZones es, r.base.toNat + r.size.toNat ≤ 2 ^ 64
  size : ∀ r ∈ highZones es, r.size.toNat < 2 ^ 44
  apart : (highZones es).Pairwise fun r q => ∀ x, ¬ (r.Contains x ∧ q.Contains x)
  room : Room s ((highZones es).map PhysZone.frames).sum

/-- The kernel can read a block with the memory map `es` where the boot loader left it. -/
structure BootInput (w : Word → Option Byte) (zoneList phyZones mbtInfo : Word)
    (es : List MmapEntry) (s : Pmm) : Prop extends MapAdmissible zoneList phyZones es s where
  block : ∃ m total, BlockRead w m (mbtInfo + kernelVmaBase) total ∧
    MapBlock m (mbtInfo + kernelVmaBase) total es

/-- `platform_init` ends in `P`: its zones are those of the zone list, and no page is in hand. -/
def PlatformEnds (w : Word → Option Byte) (zoneList phyZones mbtInfo : Word) (s : Pmm)
    (P : Snapshot) : Prop :=
  P.held = [] ∧ Ring P.s.heap zoneList P.zs ∧ ∃ bst', Settles (fun n =>
    platformInit w zoneList phyZones n mbtInfo bssState s) (mbtInfo + kernelVmaBase, bst', P.s)

section Platform

variable {w : Word → Option Byte} {zoneList phyZones mbtInfo : Word} {es : List MmapEntry} {s : Pmm}

theorem BootInput.exists_platformInit (h : BootInput w zoneList phyZones mbtInfo es s) :
    ∃ (P : Snapshot) (bst' : BootState),
      PlatformEnds w zoneList phyZones mbtInfo s P ∧ bst'.regions = highZones es ∧
      ZonesBuilt zoneList phyZones bst'.regions s bst'.regions.length P ∧ ∀ p, ¬ P.Busy p := by
  obtain ⟨m, total, hread, hblock⟩ := h.block
  obtain ⟨bst', hset, hrec⟩ := hblock.settles hread h.ten bssState
  obtain ⟨hnum, hregions⟩ := hrec.regions_eq rfl h.ten
  obtain ⟨P, hzones, hb, hfree⟩ := exists_zonesBuilt h.layout (show bst'.numHighZones.toNat ≤ 10 by
    rw [hnum]; exact h.ten)
    (by rw [hregions]; exact h.top) (by rw [hregions]; exact h.size) (by rw [hregions]; exact h.room)
  obtain ⟨F, hi, -⟩ := id hb.sound.inv
  exact ⟨P, bst', ⟨hb.held, hi.ring, bst', hset.bind (hzones.bind (.of_forall fun _ => rfl))⟩,
    hregions, hb, hfree⟩

/-- After boot the frames that runs of the allocator hand out are those wholly inside a region of
available memory from 1 MiB on, if and only if every such region fits. -/
theorem BootInput.handsOut_iff (h : BootInput w zoneList phyZones mbtInfo es s) :
    ∃ P, PlatformEnds w zoneList phyZones mbtInfo s P ∧
      ((∀ f, P.HandsOut zoneList f ↔ ∃ e ∈ es, e.High ∧ e.zone.Holds f) ↔
        ∀ e ∈ es, e.High → e.zone.Fits) := by
  obtain ⟨P, bst', hend, hregions, hb, hfree⟩ := h.exists_platformInit
  have hd : DisjointRegions bst' := by rw [DisjointRegions, hregions]; exact h.apart
  have hmem : ∀ f, (∃ r ∈ bst'.regions, r.Holds f) ↔ ∃ e ∈ es, e.High ∧ e.zone.Holds f := by
    intro f
    simp [hregions, highZones, and_assoc]
  have hall : (∀ r ∈ bst'.regions, r.Fits) ↔ ∀ e ∈ es, e.High → e.zone.Fits := by
    simp only [hregions, highZones, List.mem_map, List.mem_filter, decide_eq_true_eq,
      forall_exists_index, and_imp]
    exact ⟨fun h e he hhigh => h _ e he hhigh rfl, fun h r e he hhigh hr => hr ▸ h e he hhigh⟩
  have hmanaged := hb.managesExactly_iff (by rw [hregions]; exact h.top)
    (by rw [hregions]; exact h.size) hd
  refine ⟨P, hend, ?_⟩
  simp only [hb.sound.handsOut_iff hfree, ← hmem, ← hall, ← hmanaged]
  refine ⟨fun hf => ⟨hf, fun z hz w hw f => hb.managed_unique ?_ hd hz hw⟩, fun hm => hm.exact⟩
  rw [hregions]
  exact h.top

/-- In every run after boot the pages in hand are different pages of different frames, also when
a region does not fit. -/
theorem held_frames_distinct (h : BootInput w zoneList phyZones mbtInfo es s) :
    ∃ P, PlatformEnds w zoneList phyZones mbtInfo s P ∧
      ∀ Q, PmmRun zoneList (fun c => c.newZones = []) P Q → Q.held.Nodup ∧
        (∀ p ∈ Q.held, ∃! f, Q.Backs p f) ∧
        ∀ p ∈ Q.held, ∀ q ∈ Q.held, ∀ f, Q.Backs p f → Q.Backs q f → p = q := by
  obtain ⟨P, bst', hend, hregions, hb, -⟩ := h.exists_platformInit
  have hd : DisjointRegions bst' := by rw [DisjointRegions, hregions]; exact h.apart
  refine ⟨P, hend, fun Q hr => ?_⟩
  have hs := hr.sound hb.sound
  refine ⟨hs.nodup, fun p hp => ?_, fun p _ q _ f hpf hqf => ?_⟩
  · obtain ⟨f, hf⟩ := (hs.busy p hp).exists_backs
    exact ⟨f, hf, fun g hg => hs.backs_frame hg hf⟩
  · rw [hr.backs_iff hb.sound fun _ hc => hc] at hpf hqf
    exact hb.backs_page (by rw [hregions]; exact h.top) hd hpf hqf

end Platform

theorem sample_mapAdmissible : MapAdmissible 64 4096 sampleMap sampleImage where
  ten := by decide
  layout := sampleImage_layout
  top := by decide
  size := by decide
  apart := List.pairwise_singleton _ _
  room := by
    rw [Room]
    decide

theorem sample_bootInput :
    BootInput (sampleMemory.window (65536 + kernelVmaBase) 112) 64 4096 65536 sampleMap
      sampleImage where
  toMapAdmissible := sample_mapAdmissible
  block := ⟨sampleMemory, 112, .window sampleMemory_block.top, sampleMemory_block⟩

theorem PlatformEnds.unique {w : Word → Option Byte} {zoneList phyZones mbtInfo : Word} {s : Pmm}
    {P Q : Snapshot} (h : PlatformEnds w zoneList phyZones mbtInfo s P)
    (h' : PlatformEnds w zoneList phyZones mbtInfo s Q) : P = Q := by
  obtain ⟨hheld, hring, bst, hset⟩ := h
  obtain ⟨hheld', hring', bst', hset'⟩ := h'
  have hs : P.s = Q.s := congrArg (fun r : Word × BootState × Pmm => r.2.2) (hset.unique hset')
  have hzs : P.zs = Q.zs := hring.unique (hs ▸ hring')
  obtain ⟨s, zs, held⟩ := P
  obtain ⟨s', zs', held'⟩ := Q
  simp only at hheld hheld' hs hzs
  rw [hheld, hheld', hs, hzs]

/-- While two pages are free, two calls of `pmm_alloc_page` hand out different ones. -/
theorem Snapshot.Sound.allocTwo {zoneList : Word} {P : Snapshot} (hs : P.Sound zoneList) {p q : Word}
    (hp : P.Free p) (hq : P.Free q) (hne : p ≠ q) :
    ∃ Q p' q', PmmRun zoneList (fun c => c.newZones = []) P Q ∧ Q.held = P.held ++ [p', q'] ∧
      p' ≠ q' := by
  obtain ⟨p', s', hret, -, hfree⟩ := hs.allocPage ⟨p, hp⟩
  have hr : PmmRun zoneList (fun c => c.newZones = []) P (P.after (.allocPage 0) [p'] s') :=
    .call .refl trivial rfl hret
  have hleft : ∃ r, (P.after (.allocPage 0) [p'] s').Free r := by
    by_cases h : p = p'
    · exact ⟨q, (hfree q).mpr ⟨hq, fun e => hne (h.trans e.symm)⟩⟩
    · exact ⟨p, (hfree p).mpr ⟨hp, h⟩⟩
  obtain ⟨q', s'', hret', hq', -⟩ := (hr.sound hs).allocPage hleft
  refine ⟨_, p', q', hr.call (c := .allocPage 0) trivial rfl hret', ?_, ((hfree q').mp hq').2.symm⟩
  simp [Snapshot.after, PmmCall.givenBack]

/-- Two pages in hand, of different frames. -/
theorem held_frames_distinct_sample :
    ∃ P, PlatformEnds (sampleMemory.window (65536 + kernelVmaBase) 112) 64 4096 65536
      sampleImage P ∧ ∃ Q p q f g, PmmRun 64 (fun c => c.newZones = []) P Q ∧ Q.held = [p, q] ∧
        p ≠ q ∧ Q.Backs p f ∧ Q.Backs q g ∧ f ≠ g := by
  obtain ⟨P, hend, hrun⟩ := held_frames_distinct sample_bootInput
  obtain ⟨P', bst', hend', hregions, hb, hfree⟩ := sample_bootInput.exists_platformInit
  obtain rfl := hend.unique hend'
  have hregion : bst'.regions[0]? = some ⟨0x100000, 0x7ee0000⟩ := by
    rw [hregions]
    decide
  have hz : phyZone 4096 0 ∈ P.zs :=
    (hb.zones _).mpr ⟨0, by rw [hregions]; decide, _, hregion, by decide, rfl⟩
  have hframes : frames (P.s.zone (phyZone 4096 0)) = 0x7ee0 := by
    rw [frames, (hb.fields 0 (by rw [hregions]; decide) _ hregion (by decide)).2]
    decide
  obtain ⟨F, hi, -⟩ := id hb.sound.inv
  have hpage : ∀ i < 2, P.Free (pageAt (P.s.zone (phyZone 4096 0)) (BitVec.ofNat 64 i)) := fun i hlt =>
    Snapshot.free_of_not_busy hz ⟨i, by omega, rfl⟩ (hfree _)
  obtain ⟨Q, p, q, hr, hheld, hne⟩ := hb.sound.allocTwo (hpage 0 (by decide)) (hpage 1 (by decide))
    fun h => by
      have := pageAt_inj (hi.geometry _ hz) (by omega) (by omega) h
      omega
  rw [hend.1, List.nil_append] at hheld
  obtain ⟨-, hbacks, hdistinct⟩ := hrun Q hr
  obtain ⟨f, hf, -⟩ := hbacks p (by simp [hheld])
  obtain ⟨g, hg, -⟩ := hbacks q (by simp [hheld])
  refine ⟨P, hend, Q, p, q, f, g, hr, hheld, hne, hf, hg, ?_⟩
  rintro rfl
  exact hne (hdistinct p (by simp [hheld]) q (by simp [hheld]) f hf hg)

end Rix
