import Rix.PmmAlloc

/-!
# Allocation of consecutive frames

`pmm_alloc_range` takes the free frames that follow an address. A zone that ends
where a later one begins hands the run over to it.
-/
namespace Rix
open Rings Fuel

/-- The entry of the page array for the frame at `address`, as `pmm_alloc_range` computes it. -/
def framePage (z : PmmZone) (address : Word) : Word := pageAt z ((address - z.base) / pageSize)

theorem addressBelongsToZone_congr {z w : PmmZone} (h : w.shape = z.shape) (a : Word) :
    addressBelongsToZone a w = addressBelongsToZone a z := by
  simp only [PmmZone.shape, Prod.mk.injEq] at h
  rw [addressBelongsToZone, addressBelongsToZone, h.1, h.2.1]

theorem framePage_congr {z w : PmmZone} (h : w.shape = z.shape) (a : Word) :
    framePage w a = framePage z a := by
  rw [framePage, framePage, pageAt_congr h]
  simp only [PmmZone.shape, Prod.mk.injEq] at h
  rw [h.1]

theorem addressBelongsToZone_iff {z : PmmZone} (hg : ZoneGeometry z) (a : Word) :
    addressBelongsToZone a z = true ↔
      z.base.toNat ≤ a.toNat ∧ a.toNat < z.base.toNat + 4096 * frames z := by
  have h1 := hg.top
  have h2 := hg.frames_pos
  have h3 := hg.size_eq
  have hone : (1 : Word).toNat = 1 := rfl
  have hlast : (z.base + z.size - 1).toNat = z.base.toNat + z.size.toNat - 1 := by
    rw [BitVec.toNat_sub, BitVec.toNat_add, hone]
    omega
  rw [addressBelongsToZone, Bool.and_eq_true, decide_eq_true_eq, decide_eq_true_eq,
    BitVec.le_def, BitVec.le_def, hlast]
  omega

theorem frameIndex_toNat {z : PmmZone} {a : Word} (h : z.base.toNat ≤ a.toNat) :
    ((a - z.base) / pageSize).toNat = (a.toNat - z.base.toNat) / 4096 := by
  have ha := a.isLt
  have hsub : (a - z.base).toNat = a.toNat - z.base.toNat := by
    rw [BitVec.toNat_sub]
    omega
  rw [BitVec.toNat_udiv, hsub, toNat_pageSize]

theorem framePage_eq {z : PmmZone} {a : Word} (h : z.base.toNat ≤ a.toNat) :
    framePage z a = pageAt z (BitVec.ofNat 64 ((a.toNat - z.base.toNat) / 4096)) := by
  have ha := a.isLt
  rw [framePage]
  congr 1
  apply BitVec.eq_of_toNat_eq
  rw [frameIndex_toNat h, BitVec.toNat_ofNat, Nat.mod_eq_of_lt (by omega)]

theorem isPage_framePage {z : PmmZone} {a : Word} (hg : ZoneGeometry z)
    (h : addressBelongsToZone a z = true) : IsPage z (framePage z a) := by
  obtain ⟨hb, ht⟩ := (addressBelongsToZone_iff hg a).mp h
  exact ⟨(a.toNat - z.base.toNat) / 4096, by omega, framePage_eq hb⟩

/-- The frame at `a` is a free one of the zone `z`. -/
def Pmm.FreeFrame (s : Pmm) (a z : Word) : Prop :=
  addressBelongsToZone a (s.zone z) = true ∧ isNonfree (s.flags (framePage (s.zone z) a)) = false

/-- The plan takes the frames that follow `a`, one after the other. -/
def Consecutive (s : Pmm) (a : Word) (plan : List (Word × Word)) : Prop :=
  ∀ i zp, plan[i]? = some zp →
    addressBelongsToZone (a + BitVec.ofNat 64 (4096 * i)) (s.zone zp.1) = true ∧
    zp.2 = framePage (s.zone zp.1) (a + BitVec.ofNat 64 (4096 * i))

section Specs

variable {zoneList : Word} {s : Pmm} {F : Family Word} {zs xs : List Word} {list a count : Word}

/-- What both loops of `pmm_alloc_range` keep. -/
structure Ranging (zoneList : Word) (s : Pmm) (F : Family Word) (zs : List Word) (list : Word)
    (xs : List Word) (a count : Word) (st : RangeLoop) (plan : List (Word × Word))
    (F' : Family Word) : Prop where
  grabbed : Grabbed zoneList s F zs list xs plan st.s F'
  consecutive : Consecutive s a plan
  address : st.address = a + BitVec.ofNat 64 (4096 * plan.length)
  bound : plan.length ≤ count.toNat
  allocated : st.allocated = BitVec.ofNat 64 plan.length

namespace Ranging

variable {st : RangeLoop} {plan : List (Word × Word)} {F' : Family Word} {z : Word}

theorem allocated_toNat (hr : Ranging zoneList s F zs list xs a count st plan F') :
    st.allocated.toNat = plan.length := by
  rw [hr.allocated, BitVec.toNat_ofNat]
  exact Nat.mod_eq_of_lt (lt_of_le_of_lt hr.bound count.isLt)

theorem pass (hc : CallerHead zoneList zs list) (h0 : list ≠ NULL)
    (hr : Ranging zoneList s F zs list xs a count st plan F') (hz : z ∈ zs)
    (hlt : st.allocated < count) (hfree : st.s.FreeFrame st.address z) :
    ∃ st' F'', allocRangePass z count list st = some (.next st') ∧
      Ranging zoneList s F zs list xs a count st'
        (plan ++ [(z, framePage (st.s.zone z) st.address)]) F'' := by
  obtain ⟨hb, hfree⟩ := hfree
  have hi := hr.grabbed.inv
  have hshape := hr.grabbed.shape z
  have hpage := isPage_framePage (hi.geometry z hz) hb
  obtain ⟨fr, hF, -, hm⟩ := hi.free z hz
  obtain ⟨F'', hg, -⟩ := hr.grabbed.concat hc hz hF ((hm _).mpr ⟨hpage, hfree⟩)
  have hlen := hr.allocated_toNat
  have hlt' : plan.length < count.toNat := hlen ▸ hlt
  refine ⟨⟨st.s.grab list (z, framePage (st.s.zone z) st.address), st.address + pageSize,
    st.allocated + 1⟩, F'', ?_, ⟨hg, ?_, ?_, ?_, ?_⟩⟩
  · rw [allocRangePass, if_pos ⟨hlt, hb⟩]
    simp only [framePage] at hfree
    simp only [hfree, if_neg h0, Bool.false_eq_true, if_false]
    rfl
  · intro i zp hzp
    rcases lt_or_ge i plan.length with hi | hi
    · rw [List.getElem?_append_left hi] at hzp
      exact hr.consecutive i zp hzp
    · rw [List.getElem?_append_right hi, List.getElem?_singleton] at hzp
      split at hzp
      · next h0 =>
        have hi' : i = plan.length := by omega
        rw [Option.some.injEq] at hzp
        rw [← hzp, hi', ← hr.address, ← addressBelongsToZone_congr hshape,
          ← framePage_congr hshape]
        exact ⟨hb, rfl⟩
      · cases hzp
  · rw [hr.address, List.length_append, List.length_singleton, Nat.mul_add, BitVec.ofNat_add,
      BitVec.add_assoc]
    rfl
  · rw [List.length_append]
    exact hlt'
  · rw [hr.allocated, List.length_append, BitVec.ofNat_add]
    rfl

theorem pass_stop (h : ¬ (st.allocated < count ∧ st.s.FreeFrame st.address z)) :
    allocRangePass z count list st = some (.stop st) := by
  by_cases hcond : st.allocated < count ∧ addressBelongsToZone st.address (st.s.zone z) = true
  · have hnonfree : isNonfree (st.s.flags (framePage (st.s.zone z) st.address)) = true := by
      by_contra hf
      exact h ⟨hcond.1, hcond.2, eq_false_of_ne_true hf⟩
    rw [framePage] at hnonfree
    rw [allocRangePass, if_pos hcond]
    simp only [hnonfree, if_true]
  · rw [allocRangePass, if_neg hcond]

/-- The frames that the inner loop takes are frames of the one zone. -/
theorem loopSettles_passes (hc : CallerHead zoneList zs list) (h0 : list ≠ NULL) (hz : z ∈ zs)
    (hr : Ranging zoneList s F zs list xs a count st plan F') :
    ∃ st', LoopSettles (fun _ => allocRangePass z count list) st st' ∧
      (∃ (ps : List Word) (F'' : Family Word), Ranging zoneList s F zs list xs a count st' (plan ++ ps.map fun p => (z, p)) F'') ∧
      ¬ (st'.allocated < count ∧ st'.s.FreeFrame st'.address z) := by
  refine exists_loopSettles (fun st => ∃ (ps : List Word) (F' : Family Word),
    Ranging zoneList s F zs list xs a count st (plan ++ ps.map fun p => (z, p)) F') _
    (fun st => count.toNat - st.allocated.toNat) ?_ ⟨[], F', by simpa using hr⟩
  rintro st ⟨ps, F', hr⟩
  by_cases hcond : st.allocated < count ∧ st.s.FreeFrame st.address z
  · obtain ⟨st', F'', hpass, hr'⟩ := hr.pass hc h0 hz hcond.1 hcond.2
    have hps : plan ++ ps.map (fun p => (z, p)) ++ [(z, framePage (st.s.zone z) st.address)] =
        plan ++ (ps ++ [framePage (st.s.zone z) st.address]).map fun p => (z, p) := by
      rw [List.map_append, List.append_assoc]
      rfl
    refine .inl ⟨st', .of_forall fun _ => hpass, ⟨_, F'', hps ▸ hr'⟩, ?_⟩
    have h1 := hr.allocated_toNat
    have h2 := hr'.allocated_toNat
    have h3 := hr'.bound
    rw [List.length_append, List.length_singleton] at h2 h3
    omega
  · exact .inr ⟨st, .of_forall fun _ => pass_stop hcond, ⟨ps, F', hr⟩, hcond⟩

end Ranging

/-- What the walk over the zones `us` leaves: the frames were taken in the order of the zones, and
a zone that has the next frame to offer comes before the zone that the run has reached. -/
structure Walked (zs us : List Word) (st : RangeLoop) (plan : List (Word × Word)) : Prop where
  order : (plan.map fun zp => zs.idxOf zp.1).Pairwise (· ≤ ·)
  within : ∀ zp ∈ plan, zp.1 ∈ us
  passed : ∀ z ∈ us, st.s.FreeFrame st.address z →
    ∃ zp, plan.getLast? = some zp ∧ zs.idxOf z < zs.idxOf zp.1

theorem idxOf_lt {us vs : List Word} {z w : Word} (hzs : zs = us ++ z :: vs) (hnd : zs.Nodup)
    (hw : w ∈ us) : zs.idxOf w < zs.idxOf z := by
  subst hzs
  have hz : z ∉ us := fun m => (List.nodup_append.mp hnd).2.2 z m z List.mem_cons_self rfl
  rw [List.idxOf_append, if_pos hw, List.idxOf_append, if_neg hz, List.idxOf_cons_self, Nat.zero_add]
  exact List.idxOf_lt_length_of_mem hw

namespace Walked

variable {st st' : RangeLoop} {plan : List (Word × Word)} {F' F'' : Family Word} {z : Word}
  {us vs ps : List Word}

theorem order_append (hw : Walked zs us st plan) (hzs : zs = us ++ z :: vs) (hnd : zs.Nodup)
    (ps : List Word) :
    ((plan ++ ps.map fun p => (z, p)).map fun zp => zs.idxOf zp.1).Pairwise (· ≤ ·) := by
  rw [List.map_append, List.map_map, List.pairwise_append]
  refine ⟨hw.order, ?_, fun i hi j hj => ?_⟩
  · rw [show ((fun zp : Word × Word => zs.idxOf zp.1) ∘ fun p => (z, p)) = fun _ => zs.idxOf z from rfl,
      List.map_const']
    exact List.pairwise_replicate.mpr (.inr le_rfl)
  · obtain ⟨zp, hzp, rfl⟩ := List.mem_map.mp hi
    obtain ⟨p, -, rfl⟩ := List.mem_map.mp hj
    exact le_of_lt (idxOf_lt hzs hnd (hw.within zp hzp))

theorem within_append (hw : Walked zs us st plan) (ps : List Word) :
    ∀ zp ∈ plan ++ ps.map (fun p => (z, p)), zp.1 ∈ us ++ [z] := by
  intro zp hzp
  rcases List.mem_append.mp hzp with hzp | hzp
  · exact List.mem_append_left _ (hw.within zp hzp)
  · obtain ⟨p, -, rfl⟩ := List.mem_map.mp hzp
    simp

/-- The walk goes on to the next zone when this one has no more to offer. -/
theorem step (hw : Walked zs us st plan) (hzs : zs = us ++ z :: vs) (hnd : zs.Nodup)
    (hr : Ranging zoneList s F zs list xs a count st plan F')
    (hr' : Ranging zoneList s F zs list xs a count st' (plan ++ ps.map fun p => (z, p)) F'')
    (hstop : ¬ st'.s.FreeFrame st'.address z) :
    Walked zs (us ++ [z]) st' (plan ++ ps.map fun p => (z, p)) := by
  refine ⟨hw.order_append hzs hnd ps, hw.within_append ps, fun w hwu hfree => ?_⟩
  rcases List.mem_append.mp hwu with hwu | hwu
  · rcases List.eq_nil_or_concat ps with rfl | ⟨ps, p, rfl⟩
    · -- nothing was taken in this zone
      rw [List.map_nil, List.append_nil] at hr' ⊢
      rw [hr'.grabbed.state, ← hr.grabbed.state, hr'.address, ← hr.address] at hfree
      exact hw.passed w hwu hfree
    · refine ⟨(z, p), ?_, idxOf_lt hzs hnd hwu⟩
      rw [List.concat_eq_append, List.map_append, ← List.append_assoc]
      exact List.getLast?_concat
  · exact absurd (List.mem_singleton.mp hwu ▸ hfree) hstop

end Walked

/-- `pmm_alloc_range` with a destination list takes consecutive free frames, in the order of the
zones, and stops short of the request only where no zone behind has the next frame to offer. -/
theorem exists_range (hi : PmmInv zoneList s F zs) (hc : CallerHead zoneList zs list)
    (hF : F list = some xs) (address : Word) {count : Word} (hcount : count ≠ 0) :
    ∃ st plan F', Settles (fun n => pmmAllocRange zoneList n s address count list)
        (BitVec.ofNat 64 plan.length, st.s) ∧
      Ranging zoneList s F zs list xs (roundDown address pageSize) count st plan F' ∧
      (plan.map fun zp => zs.idxOf zp.1).Pairwise (· ≤ ·) ∧
      (plan.length < count.toNat → Walked zs zs st plan) := by
  have h0 : list ≠ NULL := hi.lists.notNull ⟨list, xs, hF, List.mem_cons_self⟩
  have hnd : zs.Nodup := (List.nodup_cons.mp hi.ring.nodup).2
  obtain ⟨st, hst, plan, F', hr, horder, hwalked⟩ := settles_listForEach
    (fun st : RangeLoop => st.s.heap) (fun n => allocRangeBody count list n)
    (fun rest st => ∃ us plan F', zs = us ++ rest ∧
      Ranging zoneList s F zs list xs (roundDown address pageSize) count st plan F' ∧
      Walked zs us st plan)
    (fun st => ∃ plan F', Ranging zoneList s F zs list xs (roundDown address pageSize) count st plan F' ∧
      (plan.map fun zp => zs.idxOf zp.1).Pairwise (· ≤ ·) ∧
      (plan.length < count.toNat → Walked zs zs st plan))
    (by
      rintro z vs st ⟨us, plan, F', hzs, hr, hw⟩
      have hz : z ∈ zs := by simp [hzs]
      obtain ⟨st', hloop, ⟨ps, F'', hr'⟩, hstop⟩ := hr.loopSettles_passes hc h0 hz
      obtain ⟨N, hN⟩ := hloop.settles
      have hlen := hr'.allocated_toNat
      by_cases heq : st'.allocated = count
      · refine .inr ⟨st', ⟨N, fun n hn => ?_⟩, _, F'', hr', hw.order_append hzs hnd ps, fun hlt => ?_⟩
        · simp only [allocRangeBody, hN n hn, if_pos heq]
        · rw [← heq] at hlt
          omega
      · have hlt : st'.allocated < count := by
          have hbound := hr'.bound
          have hne : st'.allocated.toNat ≠ count.toNat := fun e => heq (BitVec.eq_of_toNat_eq e)
          rw [BitVec.lt_def]
          omega
        refine .inl ⟨st', ⟨N, fun n hn => ?_⟩, ⟨us ++ [z], _, F'', by simp [hzs], hr',
          hw.step hzs hnd hr hr' fun hfree => hstop ⟨hlt, hfree⟩⟩, hr'.grabbed.inv.next_zone hzs⟩
        simp only [allocRangeBody, hN n hn, if_neg heq])
    (by
      rintro st ⟨us, plan, F', hzs, hr, hw⟩
      rw [List.append_nil] at hzs
      exact ⟨plan, F', hr, hw.order, fun _ => hzs ▸ hw⟩)
    (s := ⟨s, roundDown address pageSize, 0⟩)
    ⟨[], [], F, rfl, ⟨.nil hi hF, fun _ _ h => by simp at h, by simp, Nat.zero_le _, rfl⟩,
      ⟨by simp, by simp, by simp⟩⟩
    hi.ring.next_head hi.notMem_zones
  refine ⟨st, plan, F', ?_, hr, horder, hwalked⟩
  obtain ⟨N, hN⟩ := hst
  refine ⟨N, fun n hn => ?_⟩
  simp only [pmmAllocRange, if_neg hcount, hN n hn, ← hr.allocated, Option.map_some]

theorem settles_pmmAllocRange (hi : PmmInv zoneList s F zs) (hc : CallerHead zoneList zs list)
    (hF : F list = some xs) (address count : Word) :
    ∃ plan s' F', plan.length ≤ count.toNat ∧ Consecutive s (roundDown address pageSize) plan ∧
      Settles (fun n => pmmAllocRange zoneList n s address count list)
        (BitVec.ofNat 64 plan.length, s') ∧
      Grabbed zoneList s F zs list xs plan s' F' := by
  by_cases hcount : count = 0
  · refine ⟨[], s, F, Nat.zero_le _, fun _ _ h => by simp at h, .of_forall fun n => ?_, .nil hi hF⟩
    simp [pmmAllocRange, hcount]
  obtain ⟨st, plan, F', hset, hr, -⟩ := exists_range hi hc hF address hcount
  exact ⟨plan, st.s, F', hr.bound, hr.consecutive, hset, hr.grabbed⟩

end Specs

end Rix
