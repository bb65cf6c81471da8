import Rix.PmmPages

/-!
# What `pmm_alloc_range` does to the state

The frames that a call takes, and how far a free run is followed from one zone
into another. The loop walks the list of zones once while the address goes up.
-/
namespace Rix
open Rings Fuel

/-- The call moves the descriptors of the consecutive free frames from the address on to the tail
of the caller's list, and reports how many they are. -/
def AllocRangeExact (zoneList : Word) (P : Snapshot) (address count list : Word)
    (xs : List Word) : Prop :=
  ∃ fr plan s', Moved zoneList P list xs fr plan s' ∧ plan.length ≤ count.toNat ∧
    Consecutive P.s (roundDown address pageSize) plan ∧
    (∀ zp ∈ plan, zp.1 ∈ P.zs ∧ zp.2 ∈ fr zp.1 ∧ isNonfree (s'.flags zp.2) = true) ∧
    Settles (fun n => pmmAllocRange zoneList n P.s address count list)
      (BitVec.ofNat 64 plan.length, s')

def IndexesAt (zoneList : Word) (s : Pmm) (address count list z index : Word) : Prop :=
  count ≠ 0 ∧ ∃ st st', Visits (fun n => listForEachPass (fun st => st.s.heap) zoneList
      (allocRangeBody count list n)) (s.heap.next zoneList, ⟨s, roundDown address pageSize, 0⟩)
      (z, st) ∧ z ≠ zoneList ∧
    Visits (fun _ => allocRangePass z count list) st st' ∧
    st'.allocated < count ∧ addressBelongsToZone st'.address (st'.s.zone z) = true ∧
    index = (st'.address - (st'.s.zone z).base) / pageSize

theorem frameIndex_lt {z : PmmZone} (hg : ZoneGeometry z) {a : Word}
    (h : addressBelongsToZone a z = true) : ((a - z.base) / pageSize).toNat < frames z := by
  obtain ⟨hb, ht⟩ := (addressBelongsToZone_iff hg a).mp h
  rw [frameIndex_toNat hb]
  omega

section Calls

variable {zoneList : Word} {s : Pmm} {F : Family Word} {zs xs : List Word} {list a count z : Word}

def Underway (zoneList : Word) (s : Pmm) (F : Family Word) (zs : List Word) (list : Word)
    (xs : List Word) (a count : Word) (st : RangeLoop) : Prop :=
  ∃ plan F', Ranging zoneList s F zs list xs a count st plan F'

theorem Underway.start (hi : PmmInv zoneList s F zs) (hF : F list = some xs) :
    Underway zoneList s F zs list xs a count ⟨s, a, 0⟩ :=
  ⟨[], F, .nil hi hF, fun _ _ h => by simp at h, by simp, Nat.zero_le _, rfl⟩

theorem Underway.pass (hc : CallerHead zoneList zs list) (h0 : list ≠ NULL) (hz : z ∈ zs)
    {st u : RangeLoop} (hu : Underway zoneList s F zs list xs a count st)
    (hpass : Settles (fun _ => allocRangePass z count list st) (.next u)) :
    Underway zoneList s F zs list xs a count u := by
  obtain ⟨plan, F', hr⟩ := hu
  by_cases hcond : st.allocated < count ∧ st.s.FreeFrame st.address z
  · obtain ⟨st', F'', hpass', hr'⟩ := hr.pass hc h0 hz hcond.1 hcond.2
    rw [hpass.next_eq (.of_forall fun _ => hpass')]
    exact ⟨_, F'', hr'⟩
  · exact absurd (.of_forall fun _ => Ranging.pass_stop hcond) hpass.not_stop

theorem Underway.forEachPass (hc : CallerHead zoneList zs list) (h0 : list ≠ NULL)
    {us : List Word} {st : RangeLoop} {q : Word × RangeLoop} {vs : List Word} (hzs : zs = us ++ vs)
    (hu : Underway zoneList s F zs list xs a count st)
    (hpass : Settles (fun n => listForEachPass (fun st => st.s.heap) zoneList
      (allocRangeBody count list n) (vs.head?.getD zoneList, st)) (.next q)) :
    ∃ us' vs', zs = us' ++ vs' ∧ q.1 = vs'.head?.getD zoneList ∧
      Underway zoneList s F zs list xs a count q.2 := by
  obtain ⟨plan, F', hr⟩ := hu
  cases vs with
  | nil =>
      have hstop : Flow.next q = .stop (zoneList, st) := hpass.unique (.of_forall fun n => by
        simp [listForEachPass])
      cases hstop
  | cons z vs =>
      have hz : z ∈ zs := by simp [hzs]
      have hne : z ≠ zoneList := fun e => hr.grabbed.inv.notMem_zones (e ▸ hz)
      obtain ⟨st', hloop, ⟨ps, F'', hr'⟩, -⟩ := hr.loopSettles_passes hc h0 hz
      obtain ⟨N, hN⟩ := hloop.settles
      by_cases heq : st'.allocated = count
      · refine (hpass.not_stop (t := (z, st')) ⟨N, fun n hn => ?_⟩).elim
        simp [listForEachPass, allocRangeBody, hne, hN n hn, heq]
      · have hnext : q = (st'.s.heap.next z, st') := hpass.next_eq ⟨N, fun n hn => by
          simp [listForEachPass, allocRangeBody, hne, hN n hn, heq]⟩
        rw [hnext]
        exact ⟨us ++ [z], vs, by simp [hzs], hr'.grabbed.inv.next_zone hzs, _, F'', hr'⟩

theorem IndexesAt.lt {address index : Word} (hi : PmmInv zoneList s F zs)
    (hc : CallerHead zoneList zs list) (hF : F list = some xs)
    (hx : IndexesAt zoneList s address count list z index) :
    z ∈ zs ∧ index.toNat < frames (s.zone z) := by
  obtain ⟨-, st, st', hout, hne, hin, -, hb, rfl⟩ := hx
  have h0 : list ≠ NULL := hi.lists.notNull ⟨list, xs, hF, List.mem_cons_self⟩
  obtain ⟨us, vs, hzs, hpos, hu⟩ := hout.inv (fun q => ∃ us vs, zs = us ++ vs ∧
      q.1 = vs.head?.getD zoneList ∧
      Underway zoneList s F zs list xs (roundDown address pageSize) count q.2)
    (by
      rintro ⟨pos, st⟩ q ⟨us, vs, hzs, hpos, hu⟩ hpass
      obtain rfl : pos = _ := hpos
      exact hu.forEachPass hc h0 hzs hpass)
    ⟨[], zs, rfl, hi.ring.next_head, .start hi hF⟩
  have hz : z ∈ zs := by
    cases vs with
    | nil => exact absurd hpos hne
    | cons w vs =>
        obtain rfl : z = w := hpos
        simp [hzs]
  obtain ⟨plan, F', hr⟩ := hin.inv (fun st => Underway zoneList s F zs list xs _ count st)
    (fun _ _ hu hpass => hu.pass hc h0 hz hpass) hu
  refine ⟨hz, ?_⟩
  rw [← frames_congr (hr.grabbed.shape z)]
  exact frameIndex_lt (hr.grabbed.inv.geometry z hz) hb

end Calls

/-- `pmm_alloc_range` takes the free frames that follow the address and nothing else, and never
indexes a page array out of bounds. -/
theorem pmmAllocRange_sound {zoneList : Word} {P : Snapshot} {F : Family Word} {list : Word}
    {xs : List Word} (hi : PmmInv zoneList P.s F P.zs) (hc : CallerHead zoneList P.zs list)
    (hl : F list = some xs) (address count : Word) :
    AllocRangeExact zoneList P address count list xs ∧
    ∀ z index, IndexesAt zoneList P.s address count list z index →
      z ∈ P.zs ∧ index.toNat < frames (P.s.zone z) := by
  refine ⟨?_, fun z index hx => hx.lt hi hc hl⟩
  obtain ⟨plan, s', F', hlen, hcons, hset, hg⟩ := settles_pmmAllocRange hi hc hl address count
  refine ⟨freeListOf F, plan, s', hg.moved hc hl, hlen, hcons, fun zp hzp => ?_, hset⟩
  obtain ⟨hz, hpage, hfree⟩ := hg.free zp hzp
  refine ⟨hz, ((hi.free_eq hz (hi.freeListOf_eq hz)).2 zp.2).mpr ⟨hpage, hfree⟩, ?_⟩
  rw [hg.state]
  exact (P.s.grabAll_flags list plan zp.2).1 (List.mem_map_of_mem hzp)

theorem pmmAllocRange_sound_sample :
    ∃ P : Snapshot, AllocRangeExact 64 P 0x100000 2 128 [65560] := by
  obtain ⟨P, hr, hx, -⟩ := sample_listed
  obtain ⟨F, hi, ho⟩ := hr.sound.inv
  exact ⟨P, (pmmAllocRange_sound (hi.adjoin ho hx) hx.callerHead (Function.update_self ..)
    0x100000 2).1⟩

def ZonesDisjoint (s : Pmm) (zs : List Word) : Prop :=
  ∀ z ∈ zs, ∀ w ∈ zs, ∀ a, addressBelongsToZone a (s.zone z) = true →
    addressBelongsToZone a (s.zone w) = true → z = w

/-- The call falls short of the request only where no zone has the next frame to offer. -/
def RangeComplete (zoneList : Word) (s : Pmm) (zs : List Word) (address count list : Word) : Prop :=
  ∃ r s', Settles (fun n => pmmAllocRange zoneList n s address count list) (r, s') ∧
    (r < count → ∀ z ∈ zs, ¬ s'.FreeFrame (roundDown address pageSize + r * pageSize) z)

def frameAt (a : Word) (i : ℕ) : Word := a + BitVec.ofNat 64 (4096 * i)

/-- Where the free run from `a` on crosses from one zone into another, within the request and
before it comes back to `a`, it enters one that stands behind in the list. -/
def ZonesInOrder (s : Pmm) (zs : List Word) (a count : Word) : Prop :=
  ∀ i, i + 1 < count.toNat → i + 1 < 2 ^ 52 →
    (∀ j ≤ i + 1, ∃ v ∈ zs, s.FreeFrame (frameAt a j) v) →
    ∀ z ∈ zs, ∀ w ∈ zs, addressBelongsToZone (frameAt a i) (s.zone z) = true →
      addressBelongsToZone (frameAt a (i + 1)) (s.zone w) = true → zs.idxOf z ≤ zs.idxOf w

/-- The frames before the run comes back to its start have entries of their own. -/
theorem framePage_inj {z : PmmZone} (hg : ZoneGeometry z) {a : Word} {i j : ℕ} (hi : i < 2 ^ 52)
    (hj : j < 2 ^ 52) (hzi : addressBelongsToZone (frameAt a i) z = true)
    (hzj : addressBelongsToZone (frameAt a j) z = true)
    (h : framePage z (frameAt a i) = framePage z (frameAt a j)) : i = j := by
  obtain ⟨hbi, hti⟩ := (addressBelongsToZone_iff hg _).mp hzi
  obtain ⟨hbj, htj⟩ := (addressBelongsToZone_iff hg _).mp hzj
  rw [framePage_eq hbi, framePage_eq hbj] at h
  have hdiv := pageAt_inj hg (by omega) (by omega) h
  simp only [frameAt, BitVec.toNat_add, BitVec.toNat_ofNat] at hdiv hbi hbj hti htj
  omega

theorem frameAt_wrap (a : Word) (i : ℕ) : frameAt a (2 ^ 52 + i) = frameAt a i := by
  apply BitVec.eq_of_toNat_eq
  simp only [frameAt, BitVec.toNat_add, BitVec.toNat_ofNat]
  omega

section Runs

variable {zoneList : Word} {s s' : Pmm} {F F' : Family Word} {zs xs : List Word}
  {list a count : Word} {plan : List (Word × Word)} {st : RangeLoop}

theorem Grabbed.freeFrame_iff (hg : Grabbed zoneList s F zs list xs plan s' F') {b z : Word} :
    s'.FreeFrame b z ↔ s.FreeFrame b z ∧ framePage (s.zone z) b ∉ plan.map Prod.snd := by
  rw [Pmm.FreeFrame, Pmm.FreeFrame, addressBelongsToZone_congr (hg.shape z),
    framePage_congr (hg.shape z), and_assoc]
  refine and_congr_right fun _ => ?_
  obtain ⟨hin, hout⟩ := s.grabAll_flags list plan (framePage (s.zone z) b)
  rw [← hg.state] at hin hout
  constructor
  · intro hfree
    have hnot : framePage (s.zone z) b ∉ plan.map Prod.snd := fun hm => by
      rw [hin hm] at hfree
      cases hfree
    exact ⟨hout hnot ▸ hfree, hnot⟩
  · rintro ⟨hfree, hnot⟩
    rwa [hout hnot]

theorem Ranging.offered (hr : Ranging zoneList s F zs list xs a count st plan F') {i : ℕ}
    (hi : i < plan.length) : plan[i].1 ∈ zs ∧ s.FreeFrame (frameAt a i) plan[i].1 ∧
      plan[i].2 = framePage (s.zone plan[i].1) (frameAt a i) := by
  obtain ⟨hb, hp⟩ := hr.consecutive i plan[i] (List.getElem?_eq_getElem hi)
  obtain ⟨hz, -, hfree⟩ := hr.grabbed.free plan[i] (List.getElem_mem hi)
  rw [hp] at hfree
  exact ⟨hz, ⟨hb, hfree⟩, hp⟩

theorem Ranging.zone_eq (hd : ZonesDisjoint s zs)
    (hr : Ranging zoneList s F zs list xs a count st plan F') {i : ℕ} (hi : i < plan.length)
    {z : Word} (hz : z ∈ zs) (hb : addressBelongsToZone (frameAt a i) (s.zone z) = true) :
    plan[i].1 = z := by
  obtain ⟨hz', hfree, -⟩ := hr.offered hi
  exact hd _ hz' z hz _ hfree.1 hb

/-- The frame that the run comes to is one that it has not taken. -/
theorem Ranging.length_lt (hd : ZonesDisjoint s zs)
    (hr : Ranging zoneList s F zs list xs a count st plan F') {z : Word} (hz : z ∈ zs)
    (hfree : st.s.FreeFrame (frameAt a plan.length) z) : plan.length < 2 ^ 52 := by
  by_contra hlen
  obtain ⟨k, hk⟩ := Nat.exists_eq_add_of_le (not_lt.mp hlen)
  rw [hk, frameAt_wrap] at hfree
  obtain ⟨hbefore, hnot⟩ := hr.grabbed.freeFrame_iff.mp hfree
  have hlt : k < plan.length := by omega
  obtain rfl := hr.zone_eq hd hlt hz hbefore.1
  exact hnot (List.mem_map.mpr ⟨plan[k], List.getElem_mem hlt, (hr.offered hlt).2.2⟩)

/-- A call that keeps to the order of the zones takes the whole free run. -/
theorem Walked.stuck (hd : ZonesDisjoint s zs) (ho : ZonesInOrder s zs a count)
    (hr : Ranging zoneList s F zs list xs a count st plan F') (hw : Walked zs zs st plan)
    (hlt : plan.length < count.toNat) {z : Word} (hz : z ∈ zs) :
    ¬ st.s.FreeFrame (frameAt a plan.length) z := by
  intro hfree
  have hlen := hr.length_lt hd hz hfree
  obtain ⟨zp, hlast, hidx⟩ := hw.passed z hz (by rw [hr.address]; exact hfree)
  have hpos : 0 < plan.length := List.length_pos_of_ne_nil fun e => by simp [e] at hlast
  obtain ⟨i, hi⟩ : ∃ i, plan.length = i + 1 := ⟨plan.length - 1, by omega⟩
  have hzp : plan[i] = zp := by
    rw [List.getLast?_eq_getElem?, hi, Nat.add_sub_cancel, List.getElem?_eq_getElem (by omega),
      Option.some.injEq] at hlast
    exact hlast
  have hbefore := (hr.grabbed.freeFrame_iff.mp hfree).1
  obtain ⟨hzi, hfreei, -⟩ := hr.offered (i := i) (by omega)
  rw [hzp] at hzi hfreei
  rw [hi] at hbefore hlt hlen
  have hle := ho i hlt hlen (fun j hj => by
    rcases Nat.lt_or_ge j plan.length with hj' | hj'
    · exact ⟨_, (hr.offered hj').1, (hr.offered hj').2.1⟩
    · obtain rfl : j = i + 1 := by omega
      exact ⟨z, hz, hbefore⟩) zp.1 hzi z hz hfreei.1 hbefore.1
  omega

/-- A call that takes the whole free run keeps to the order of the zones. -/
theorem Ranging.inOrder (hi : PmmInv zoneList s F zs) (hd : ZonesDisjoint s zs)
    (hr : Ranging zoneList s F zs list xs a count st plan F')
    (horder : (plan.map fun zp => zs.idxOf zp.1).Pairwise (· ≤ ·))
    (hstuck : plan.length < count.toNat → ∀ z ∈ zs, ¬ st.s.FreeFrame (frameAt a plan.length) z) :
    ZonesInOrder s zs a count := by
  intro i hcount hlen hoffer z hz w hw hzi hwi
  rcases Nat.lt_or_ge (i + 1) plan.length with hlt | hge
  · -- the frames on either side of the crossing were both taken
    have hle := List.pairwise_iff_getElem.mp horder i (i + 1) (by rw [List.length_map]; omega)
      (by rw [List.length_map]; omega) (Nat.lt_succ_self i)
    rwa [List.getElem_map, List.getElem_map, hr.zone_eq hd _ hz hzi, hr.zone_eq hd _ hw hwi] at hle
  · -- the run stopped before the crossing, at a frame on offer
    obtain ⟨v, hv, hfree⟩ := hoffer plan.length hge
    refine absurd (hr.grabbed.freeFrame_iff.mpr ⟨hfree, fun hm => ?_⟩) (hstuck (by omega) v hv)
    obtain ⟨zp, hzp, hpage⟩ := List.mem_map.mp hm
    obtain ⟨k, hk, rfl⟩ := List.getElem_of_mem hzp
    obtain ⟨hzk, hfreek, hpk⟩ := hr.offered hk
    have hpv := isPage_framePage (hi.geometry v hv) hfree.1
    have hpz := isPage_framePage (hi.geometry _ hzk) hfreek.1
    rw [hpk] at hpage
    rw [hpage] at hpz
    obtain rfl := hi.page_zone hv hzk hpv hpz
    have := framePage_inj (hi.geometry _ hzk) (by omega) (by omega) hfreek.1 hfree.1 hpage
    omega

end Runs

section Completeness

variable {zoneList : Word} {s : Pmm} {F : Family Word} {zs xs : List Word} {list address count : Word}

/-- What the call returns, against the frame that its run has come to. -/
theorem rangeComplete_of_settles {plan : List (Word × Word)} {s' : Pmm}
    (hset : Settles (fun n => pmmAllocRange zoneList n s address count list)
      (BitVec.ofNat 64 plan.length, s')) (hlen : plan.length ≤ count.toNat) :
    RangeComplete zoneList s zs address count list ↔ (plan.length < count.toNat →
      ∀ z ∈ zs, ¬ s'.FreeFrame (frameAt (roundDown address pageSize) plan.length) z) := by
  have hnat : (BitVec.ofNat 64 plan.length).toNat = plan.length := by
    rw [BitVec.toNat_ofNat]
    exact Nat.mod_eq_of_lt (lt_of_le_of_lt hlen count.isLt)
  have hframe : BitVec.ofNat 64 plan.length * pageSize = BitVec.ofNat 64 (4096 * plan.length) := by
    rw [BitVec.mul_comm, BitVec.ofNat_mul]
    rfl
  rw [frameAt, ← hframe]
  constructor
  · rintro ⟨r, s'', hset', hstuck⟩ hlt
    obtain ⟨rfl, rfl⟩ := Prod.mk.inj (hset.unique hset')
    exact hstuck (by rwa [BitVec.lt_def, hnat])
  · intro hstuck
    exact ⟨_, s', hset, fun hlt => hstuck (by rwa [BitVec.lt_def, hnat] at hlt)⟩

theorem RangeComplete.inOrder (hi : PmmInv zoneList s F zs) (hc : CallerHead zoneList zs list)
    (hl : F list = some xs) (hd : ZonesDisjoint s zs)
    (h : RangeComplete zoneList s zs address count list) :
    ZonesInOrder s zs (roundDown address pageSize) count := by
  by_cases hcount : count = 0
  · subst hcount
    exact fun i hi => absurd hi (Nat.not_lt_zero _)
  · obtain ⟨st, plan, F', hset, hr, horder, -⟩ := exists_range hi hc hl address hcount
    exact hr.inOrder hi hd horder ((rangeComplete_of_settles hset hr.bound).mp h)

/-- `pmm_alloc_range` takes the longest free run exactly when the run meets the zones in the order
in which they were added. -/
theorem rangeComplete_iff (hi : PmmInv zoneList s F zs) (hc : CallerHead zoneList zs list)
    (hl : F list = some xs) (hd : ZonesDisjoint s zs) :
    RangeComplete zoneList s zs address count list ↔
      ZonesInOrder s zs (roundDown address pageSize) count := by
  refine ⟨fun h => h.inOrder hi hc hl hd, fun ho => ?_⟩
  by_cases hcount : count = 0
  · subst hcount
    exact ⟨0, s, .of_forall fun n => by simp [pmmAllocRange], fun hlt => absurd hlt (by decide)⟩
  · obtain ⟨st, plan, F', hset, hr, -, hwalked⟩ := exists_range hi hc hl address hcount
    rw [rangeComplete_of_settles hset hr.bound]
    intro hlt z hz
    exact (hwalked hlt).stuck hd ho hr hlt hz

end Completeness

/-- The zone list, the free lists of two zones of one frame each and a caller's list. The zone
that was added first lies above the other. -/
def downwardRows : List (Word × List Word) :=
  [(64, [4096, 8192]), (4144, [65536]), (8240, [65560]), (128, [])]

def downwardZone (z : Word) : PmmZone :=
  if z = 4096 then ⟨0x101000, 4096, 65536, 1⟩ else ⟨0x100000, 4096, 65560, 1⟩

theorem isPage_downward (z p : Word) :
    IsPage (downwardZone z) p ↔ p = (downwardZone z).pageArray := by
  have hframes : frames (downwardZone z) = 1 := by
    rw [downwardZone]
    split <;> rfl
  have hfirst : pageAt (downwardZone z) 0 = (downwardZone z).pageArray := by
    simp [pageAt]
  constructor
  · rintro ⟨i, hi, rfl⟩
    obtain rfl : i = 0 := by omega
    exact hfirst
  · rintro rfl
    exact ⟨0, by omega, hfirst.symm⟩

theorem geometry_downward (z : Word) : ZoneGeometry (downwardZone z) := by
  rw [downwardZone]
  split
  · exact ⟨by decide, by decide, by decide, by decide, by decide⟩
  · exact ⟨by decide, by decide, by decide, by decide, by decide⟩

theorem callerHead_downward : CallerHead 64 [4096, 8192] 128 := by
  simp [CallerHead, freePages]

theorem exists_downward : ∃ s, PmmInv 64 s (familyOf downwardRows) [4096, 8192] ∧
    s.zone = downwardZone ∧ s.flags = fun _ => 0 := by
  obtain ⟨H, hl⟩ := exists_lists downwardRows (by decide) (by decide)
  refine ⟨⟨H, downwardZone, fun _ => 0, 0⟩, ⟨hl, rfl, ?_, ?_, fun z _ => geometry_downward z, ?_, ?_⟩,
    rfl, rfl⟩
  · simp only [isPage_downward, List.forall_mem_cons]
    refine ⟨⟨[65536], rfl, rfl, fun p => ?_⟩, ⟨[65560], rfl, rfl, fun p => ?_⟩, by simp⟩
    · simp [downwardZone, isNonfree]
    · simp [downwardZone, isNonfree]
  · simp [freePages]
  · simp only [List.forall_mem_cons, ArraysDisjoint, downwardZone]
    simp [frames]
  · intro z hz p hp
    obtain rfl := (isPage_downward z p).mp hp
    revert z
    simp [downwardZone, freePages]

theorem zonesDisjoint_downward {s : Pmm} (hs : s.zone = downwardZone) :
    ZonesDisjoint s [4096, 8192] := by
  intro z hz w hw a hza hwa
  rw [hs, addressBelongsToZone_iff (geometry_downward _)] at hza hwa
  revert z w
  simp only [List.forall_mem_cons, downwardZone]
  simp [frames]
  omega

theorem not_zonesInOrder_downward {s : Pmm} (hz : s.zone = downwardZone)
    (hf : s.flags = fun _ => 0) :
    ¬ ZonesInOrder s [4096, 8192] (roundDown 0x100000 pageSize) 2 := by
  intro ho
  have hlow : addressBelongsToZone (frameAt (roundDown 0x100000 pageSize) 0) (s.zone 8192) = true := by
    rw [hz]
    decide
  have hhigh : addressBelongsToZone (frameAt (roundDown 0x100000 pageSize) 1) (s.zone 4096) = true := by
    rw [hz]
    decide
  have hfree : ∀ p, isNonfree (s.flags p) = false := fun p => by simp [hf, isNonfree]
  have hle := ho 0 (by decide) (by decide) (fun j hj => by
    rcases Nat.le_one_iff_eq_zero_or_eq_one.mp hj with rfl | rfl
    · exact ⟨8192, by simp, hlow, hfree _⟩
    · exact ⟨4096, by simp, hhigh, hfree _⟩) 8192 (by simp) 4096 (by simp) hlow hhigh
  exact absurd hle (by decide)

theorem rangeComplete_iff_downward : ∃ s, PmmInv 64 s (familyOf downwardRows) [4096, 8192] ∧
    ¬ RangeComplete 64 s [4096, 8192] 0x100000 2 128 := by
  obtain ⟨s, hi, hz, hf⟩ := exists_downward
  refine ⟨s, hi, fun h => not_zonesInOrder_downward hz hf ?_⟩
  exact (rangeComplete_iff hi callerHead_downward (show _ = some [] from rfl)
    (zonesDisjoint_downward hz)).mp h

/-- Two frames that touch, in zones that were added from the top down, are not taken together. -/
theorem run_not_continued : ¬ ∀ (zoneList : Word) (s : Pmm) (F : Family Word) (zs xs : List Word)
    (list address count : Word), PmmInv zoneList s F zs → CallerHead zoneList zs list →
    F list = some xs → ZonesDisjoint s zs → (∀ z ∈ zs, 4096 ∣ (s.zone z).base.toNat) →
    RangeComplete zoneList s zs address count list := by
  intro hall
  obtain ⟨s, hi, hz, hf⟩ := exists_downward
  have hl : familyOf downwardRows 128 = some [] := rfl
  have hd := zonesDisjoint_downward hz
  have haligned : ∀ z ∈ [(4096 : Word), 8192], 4096 ∣ (s.zone z).base.toNat := by
    simp [hz, downwardZone]
  exact not_zonesInOrder_downward hz hf ((hall 64 s _ _ [] 128 0x100000 2 hi callerHead_downward hl
    hd haligned).inOrder hi callerHead_downward hl hd)

end Rix
