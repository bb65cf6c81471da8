import Rix.PmmInvariant

/-!
# Allocation of single pages

`pmm_alloc_page` and `pmm_alloc_pages` take the first free pages in the order of
the zones. What an allocation did is a plan: the pages taken, each with its zone,
in the order they were linked to the caller's list.
-/
namespace Rix
open Rings Fuel

namespace Pmm

def grab (s : Pmm) (list : Word) (zp : Word × Word) : Pmm := (s.take zp.1 zp.2).append list zp.2

def grabAll (s : Pmm) (list : Word) (plan : List (Word × Word)) : Pmm :=
  plan.foldl (fun s zp => s.grab list zp) s

theorem grabAll_concat (s : Pmm) (list : Word) (plan : List (Word × Word)) (zp : Word × Word) :
    s.grabAll list (plan ++ [zp]) = (s.grabAll list plan).grab list zp := by
  simp [grabAll]

theorem grab_shape (s : Pmm) (list : Word) (zp : Word × Word) (w : Word) :
    ((s.grab list zp).zone w).shape = (s.zone w).shape := s.take_shape zp.1 zp.2 w

theorem grabAll_shape (s : Pmm) (list : Word) (plan : List (Word × Word)) (w : Word) :
    ((s.grabAll list plan).zone w).shape = (s.zone w).shape := by
  induction plan generalizing s with
  | nil => rfl
  | cons zp plan ih => exact (ih (s.grab list zp)).trans (s.grab_shape list zp w)

theorem grab_flags (s : Pmm) (list : Word) (zp : Word × Word) (q : Word) :
    (s.grab list zp).flags q = if q = zp.2 then s.flags zp.2 ||| 1 else s.flags q := rfl

theorem grabAll_flags (s : Pmm) (list : Word) (plan : List (Word × Word)) (q : Word) :
    (q ∈ plan.map Prod.snd → isNonfree ((s.grabAll list plan).flags q) = true) ∧
    (q ∉ plan.map Prod.snd → (s.grabAll list plan).flags q = s.flags q) := by
  induction plan using List.reverseRecOn with
  | nil => exact ⟨fun h => absurd h List.not_mem_nil, fun _ => rfl⟩
  | append_singleton plan zp ih =>
      rw [grabAll_concat, grab_flags, List.map_append, List.mem_append]
      by_cases hq : q = zp.2
      · rw [if_pos hq]
        exact ⟨fun _ => isNonfree_or _, fun h => absurd (.inr (by simp [hq])) h⟩
      · rw [if_neg hq]
        exact ⟨fun h => ih.1 (h.resolve_right (by simpa using hq)), fun h => ih.2 fun m => h (.inl m)⟩

end Pmm

/-- The free pages of the zones, in zone order, each with its zone. -/
def freeOf (F : Family Word) (zs : List Word) : List (Word × Word) :=
  zs.flatMap fun z => ((F (freePages z)).getD []).map fun p => (z, p)

theorem freeOf_append (F : Family Word) (us vs : List Word) :
    freeOf F (us ++ vs) = freeOf F us ++ freeOf F vs := List.flatMap_append

theorem mem_freeOf {F : Family Word} {zs : List Word} {zp : Word × Word} :
    zp ∈ freeOf F zs ↔ zp.1 ∈ zs ∧ ∃ fr, F (freePages zp.1) = some fr ∧ zp.2 ∈ fr := by
  obtain ⟨z, p⟩ := zp
  simp only [freeOf, List.mem_flatMap, List.mem_map, Prod.mk.injEq]
  constructor
  · rintro ⟨w, hw, q, hq, rfl, rfl⟩
    cases hF : F (freePages w) with
    | none => simp [hF] at hq
    | some fr => exact ⟨hw, fr, rfl, by simpa [hF] using hq⟩
  · rintro ⟨hz, fr, hF, hp⟩
    exact ⟨z, hz, p, by simpa [hF] using hp, rfl, rfl⟩

theorem freeOf_cons {F : Family Word} {z : Word} {fr : List Word} (hF : F (freePages z) = some fr)
    (zs : List Word) : freeOf F (z :: zs) = fr.map (fun p => (z, p)) ++ freeOf F zs := by
  simp [freeOf, hF]

/-- The pages of a plan have moved from the free lists to the tail of the caller's list,
and nothing else has changed. -/
structure Grabbed (zoneList : Word) (s : Pmm) (F : Family Word) (zs : List Word) (list : Word)
    (xs : List Word) (plan : List (Word × Word)) (s' : Pmm) (F' : Family Word) : Prop where
  start : PmmInv zoneList s F zs
  inv : PmmInv zoneList s' F' zs
  state : s' = s.grabAll list plan
  caller : F' list = some (xs ++ plan.map Prod.snd)
  rest : ∀ w ∈ zs, ∃ fr, F (freePages w) = some fr ∧
    F' (freePages w) = some (fr.filter fun p => p ∉ plan.map Prod.snd)
  other : ∀ h, h ≠ list → (∀ w ∈ zs, h ≠ freePages w) → F' h = F h
  free : ∀ zp ∈ plan, zp.1 ∈ zs ∧ IsPage (s.zone zp.1) zp.2 ∧ isNonfree (s.flags zp.2) = false
  nodup : (plan.map Prod.snd).Nodup

namespace Grabbed

variable {zoneList : Word} {s s' : Pmm} {F F' : Family Word} {zs xs : List Word} {list z p : Word}
  {plan : List (Word × Word)} {fr : List Word}

theorem nil (hi : PmmInv zoneList s F zs) (hF : F list = some xs) :
    Grabbed zoneList s F zs list xs [] s F where
  start := hi
  inv := hi
  state := rfl
  caller := by simpa using hF
  rest := fun w hw => by
    obtain ⟨fr, hfr, -⟩ := hi.free w hw
    exact ⟨fr, hfr, by simp [hfr]⟩
  other := fun _ _ _ => rfl
  free := fun _ h => absurd h List.not_mem_nil
  nodup := List.nodup_nil

theorem shape (hg : Grabbed zoneList s F zs list xs plan s' F') (w : Word) :
    (s'.zone w).shape = (s.zone w).shape := by
  rw [hg.state]
  exact s.grabAll_shape list plan w

theorem rest_concat (hg : Grabbed zoneList s F zs list xs plan s' F') (hz : z ∈ zs)
    (hF : F' (freePages z) = some fr) (hp : p ∈ fr) {w : Word} (hw : w ∈ zs) :
    ∃ fw, F (freePages w) = some fw ∧
      Function.update F' (freePages z) (some (fr.erase p)) (freePages w) =
        some (fw.filter fun q => q ∉ (plan ++ [(z, p)]).map Prod.snd) := by
  obtain ⟨fw, hFw, hFw'⟩ := hg.rest w hw
  refine ⟨fw, hFw, ?_⟩
  by_cases hwz : w = z
  · subst hwz
    have hnd : fr.Nodup := (List.nodup_cons.mp (hg.inv.lists.rep.ring hF).nodup).2
    obtain rfl := Option.some.inj (hF.symm.trans hFw')
    rw [Function.update_self, Option.some.injEq, hnd.erase_eq_filter, List.filter_filter]
    refine List.filter_congr fun q _ => ?_
    by_cases hqp : q = p <;> simp [hqp]
  · rw [Function.update_of_ne fun e => hwz (freePages_inj e), hFw', Option.some.injEq]
    refine List.filter_congr fun q hq => ?_
    by_cases hqp : q = p
    · subst hqp
      by_cases hq' : q ∈ plan.map Prod.snd
      · simp [hq']
      · -- a page of another zone is not the page that was taken
        have hqw := ((hg.inv.free_eq hw hFw').2 q).mp (List.mem_filter.mpr ⟨hq, decide_eq_true hq'⟩)
        have hpage := ((hg.inv.free_eq hz hF).2 q).mp hp
        exact absurd (hg.inv.page_zone hw hz hqw.1 hpage.1) hwz
    · simp [hqp]

theorem concat (hc : CallerHead zoneList zs list) (hg : Grabbed zoneList s F zs list xs plan s' F')
    (hz : z ∈ zs) (hF : F' (freePages z) = some fr) (hp : p ∈ fr) :
    ∃ F'', Grabbed zoneList s F zs list xs (plan ++ [(z, p)]) (s'.grab list (z, p)) F'' ∧
      F'' (freePages z) = some (fr.erase p) := by
  have hpage := ((hg.inv.free_eq hz hF).2 p).mp hp
  have hpage' := (isPage_congr (hg.shape z) p).mp hpage.1
  obtain ⟨fr₀, hF₀, hF₀'⟩ := hg.rest z hz
  rw [hF, Option.some.injEq] at hF₀'
  have hp₀ : p ∈ fr₀ ∧ p ∉ plan.map Prod.snd := by
    rw [hF₀', List.mem_filter] at hp
    exact ⟨hp.1, of_decide_eq_true hp.2⟩
  obtain ⟨hi, hun⟩ := hg.inv.take hz hF hp
  have hlist : Function.update F' (freePages z) (some (fr.erase p)) list =
      some (xs ++ plan.map Prod.snd) := by
    rw [Function.update_of_ne (hc.2 z hz)]
    exact hg.caller
  have hi' := hi.append hc hlist hun (hpage.1.ne_null (hg.inv.geometry z hz))
  refine ⟨_, ⟨hg.start, hi', ?_, ?_, ?_, ?_, ?_, ?_⟩, ?_⟩
  · rw [hg.state, ← Pmm.grabAll_concat]
  · rw [Function.update_self, List.map_append, List.append_assoc]
    rfl
  · intro w hw
    rw [Function.update_of_ne (hc.2 w hw).symm]
    exact hg.rest_concat hz hF hp hw
  · intro h hne hfree
    rw [Function.update_of_ne hne, Function.update_of_ne (hfree z hz), hg.other h hne hfree]
  · intro zp hzp
    rcases List.mem_append.mp hzp with hzp | hzp
    · exact hg.free zp hzp
    · rw [List.mem_singleton.mp hzp]
      exact ⟨hz, hpage', (((hg.start.free_eq hz hF₀).2 p).mp hp₀.1).2⟩
  · rw [List.map_append, List.nodup_append]
    refine ⟨hg.nodup, by simp, ?_⟩
    intro q hq r hr hqr
    rw [List.map_cons, List.map_nil, List.mem_singleton] at hr
    rw [hqr, hr] at hq
    exact hp₀.2 hq
  · rw [Function.update_of_ne (hc.2 z hz).symm, Function.update_self]

theorem untouched (hg : Grabbed zoneList s F zs list xs plan s' F') (hz : z ∈ zs)
    (hplan : z ∉ plan.map Prod.fst) : F' (freePages z) = F (freePages z) := by
  obtain ⟨fr, hF, hF'⟩ := hg.rest z hz
  rw [hF', hF, Option.some.injEq, List.filter_eq_self]
  intro p hp
  refine decide_eq_true fun hm => hplan ?_
  obtain ⟨zp, hzp, rfl⟩ := List.mem_map.mp hm
  obtain ⟨hzs, hpage, -⟩ := hg.free zp hzp
  have hpz := ((hg.start.free_eq hz hF).2 zp.2).mp hp
  rw [hg.start.page_zone hz hzs hpz.1 hpage]
  exact List.mem_map_of_mem hzp

end Grabbed

/-- The path of `pmm_alloc_pages` for any number of pages. -/
def allocPagesLoop (zoneList : Word) (fuel : Nat) (s : Pmm) (count : BitVec 32) (list : Word) :
    Option (PmmStatus × BitVec 32 × Pmm) :=
  (listForEach (fun st => st.s.heap) zoneList (allocPagesBody count list fuel) fuel
    ⟨s, 0, false⟩).map fun st => (.noError, st.allocated, st.s)

section Specs

variable {zoneList : Word} {s : Pmm} {F : Family Word} {zs xs : List Word} {list : Word}

theorem settles_pmmAllocPage (hi : PmmInv zoneList s F zs) (out : Word) :
    Settles (fun n => pmmAllocPage zoneList n s out)
      (match freeOf F zs with
        | [] => (.noError, s, out)
        | (z, p) :: _ => (.noError, s.take z p, p)) := by
  obtain ⟨t, ht, hpost⟩ := settles_listForEach (fun st : Pmm × Word => st.1.heap)
    (fun _ => allocPageBody)
    (fun rest st => st = (s, out) ∧ ∃ us, zs = us ++ rest ∧ freeOf F us = [])
    (fun st => st = match freeOf F zs with
      | [] => (s, out)
      | (z, p) :: _ => (s.take z p, p))
    (by
      rintro z vs st ⟨rfl, us, hzs, hus⟩
      have hz : z ∈ zs := by simp [hzs]
      obtain ⟨fr, hF, hcount, -⟩ := hi.free z hz
      have hpos := hi.freeCount_pos hz hF
      have hfree : freeOf F zs = fr.map (fun p => (z, p)) ++ freeOf F vs := by
        rw [hzs, freeOf_append, hus, freeOf_cons hF, List.nil_append]
      cases fr with
      | nil =>
          refine .inl ⟨_, .of_forall fun _ => ?_, ⟨rfl, us ++ [z], by simp [hzs], ?_⟩,
            hi.next_zone hzs⟩
          · rw [allocPageBody, if_neg fun h => hpos.mp h rfl]
          · rw [freeOf_append, hus, freeOf_cons hF]
            rfl
      | cons p fr =>
          refine .inr ⟨(s.take z p, p), .of_forall fun _ => ?_, by rw [hfree]; rfl⟩
          have hp := ((hi.free_eq hz hF).2 p).mp List.mem_cons_self
          rw [allocPageBody, if_pos (hpos.mpr (List.cons_ne_nil p fr)), hi.lists.removeHead_cons hF]
          simp only [if_neg (hp.1.ne_null (hi.geometry z hz))]
          rfl)
    (by
      rintro st ⟨rfl, us, hzs, hus⟩
      rw [List.append_nil] at hzs
      rw [hzs, hus])
    ⟨rfl, [], rfl, rfl⟩ hi.ring.next_head hi.notMem_zones
  subst hpost
  have := ht.map fun st : Pmm × Word => (PmmStatus.noError, st.1, st.2)
  split at this <;> exact this

/-- What the loops of `pmm_alloc_pages` keep while zone `z` is searched: the plan is a
prefix of the free pages and `rem` is left of the zone. -/
structure Drawing (zoneList : Word) (s : Pmm) (F : Family Word) (zs : List Word) (list : Word)
    (xs : List Word) (count : BitVec 32) (st : AllocLoop) (plan todo : List (Word × Word))
    (F' : Family Word) : Prop where
  grabbed : Grabbed zoneList s F zs list xs plan st.s F'
  split : freeOf F zs = plan ++ todo
  bound : plan.length ≤ count.toNat
  allocated : st.allocated = BitVec.ofNat 32 plan.length
  running : st.done = false

namespace Drawing

variable {count : BitVec 32} {st : AllocLoop} {plan todo : List (Word × Word)} {F' : Family Word}

theorem allocated_toNat (hd : Drawing zoneList s F zs list xs count st plan todo F') :
    st.allocated.toNat = plan.length := by
  rw [hd.allocated, BitVec.toNat_ofNat]
  exact Nat.mod_eq_of_lt (lt_of_le_of_lt hd.bound count.isLt)

theorem allocated_lt (hd : Drawing zoneList s F zs list xs count st plan todo F') :
    st.allocated < count ↔ plan.length < count.toNat := by
  rw [BitVec.lt_def, hd.allocated_toNat]

theorem allocated_eq (hd : Drawing zoneList s F zs list xs count st plan todo F') :
    st.allocated = count ↔ plan.length = count.toNat := by
  rw [← hd.allocated_toNat, BitVec.toNat_inj]

theorem pass (hc : CallerHead zoneList zs list)
    (hd : Drawing zoneList s F zs list xs count st plan todo F') {z p : Word} {rem : List Word}
    {more : List (Word × Word)} (hz : z ∈ zs) (hF : F' (freePages z) = some (p :: rem))
    (htodo : todo = (z, p) :: more) (hlt : plan.length < count.toNat) :
    ∃ st' F'', allocPagesPass z count list st = some (.next st') ∧
      Drawing zoneList s F zs list xs count st' (plan ++ [(z, p)]) more F'' ∧
      F'' (freePages z) = some rem := by
  have hi := hd.grabbed.inv
  have hpos := (hi.freeCount_pos hz hF).mpr (List.cons_ne_nil p rem)
  have hp := ((hi.free_eq hz hF).2 p).mp List.mem_cons_self
  obtain ⟨F'', hg, hF''⟩ := hd.grabbed.concat hc hz hF List.mem_cons_self
  refine ⟨⟨st.s.grab list (z, p), st.allocated + 1, st.done⟩, F'', ?_, ⟨hg, ?_, ?_, ?_, ?_⟩, ?_⟩
  · rw [allocPagesPass, if_pos ⟨hd.allocated_lt.mpr hlt, hpos⟩, hi.lists.removeHead_cons hF]
    simp only [if_neg (hp.1.ne_null (hi.geometry z hz))]
    rfl
  · rw [hd.split, htodo, List.append_assoc]
    rfl
  · rw [List.length_append]
    exact hlt
  · rw [hd.allocated, List.length_append, BitVec.ofNat_add]
    rfl
  · exact hd.running
  · rw [hF'', List.erase_cons_head]

/-- The inner loop draws from a zone until enough pages are drawn or the zone has none. -/
theorem loopSettles_passes (hc : CallerHead zoneList zs list) {z : Word} {rem : List Word}
    {more : List (Word × Word)} (hz : z ∈ zs) (hF : F' (freePages z) = some rem)
    (htodo : todo = rem.map (fun p => (z, p)) ++ more)
    (hd : Drawing zoneList s F zs list xs count st plan todo F') :
    ∃ st', LoopSettles (fun _ => allocPagesPass z count list) st st' ∧
      ∃ plan' todo' F'', Drawing zoneList s F zs list xs count st' plan' todo' F'' ∧
        (plan'.length = count.toNat ∨ todo' = more) := by
  have stop : ¬ (st.allocated < count ∧ (st.s.zone z).freeCount > 0) →
      LoopSettles (fun _ => allocPagesPass z count list) st st := fun h =>
    .stop (.of_forall fun _ => by rw [allocPagesPass, if_neg h])
  induction rem generalizing st plan todo F' with
  | nil =>
      have hpos := hd.grabbed.inv.freeCount_pos hz hF
      exact ⟨st, stop fun h => hpos.mp h.2 rfl, plan, todo, F', hd, .inr htodo⟩
  | cons p rem ih =>
      by_cases hlt : plan.length < count.toNat
      · obtain ⟨st', F'', hpass, hd', hF''⟩ := hd.pass hc hz hF htodo hlt
        obtain ⟨t, ht, hpost⟩ := ih hF'' rfl hd' fun h =>
          .stop (.of_forall fun _ => by rw [allocPagesPass, if_neg h])
        exact ⟨t, .next (.of_forall fun _ => hpass) ht, hpost⟩
      · have heq : plan.length = count.toNat := le_antisymm hd.bound (not_lt.mp hlt)
        exact ⟨st, stop fun h => hlt (hd.allocated_lt.mp h.1), plan, todo, F', hd, .inl heq⟩

theorem untouched (hi : PmmInv zoneList s F zs) {us vs : List Word} {z : Word}
    (hzs : zs = us ++ z :: vs)
    (hd : Drawing zoneList s F zs list xs count st plan (freeOf F (z :: vs)) F') :
    z ∉ plan.map Prod.fst := by
  intro hm
  obtain ⟨zp, hzp, rfl⟩ := List.mem_map.mp hm
  have hplan : plan = freeOf F us := by
    have := hd.split
    rw [hzs, freeOf_append] at this
    exact (List.append_cancel_right this).symm
  rw [hplan] at hzp
  have hnd := (List.nodup_cons.mp hi.ring.nodup).2
  rw [hzs] at hnd
  exact (List.nodup_append.mp hnd).2.2 _ (mem_freeOf.mp hzp).1 zp.1 (by simp) rfl

/-- One zone of the outer loop, which stops when the request is met. -/
theorem settles_body (hi : PmmInv zoneList s F zs) (hc : CallerHead zoneList zs list)
    {us vs : List Word} {z : Word} (hzs : zs = us ++ z :: vs)
    (hd : Drawing zoneList s F zs list xs count st plan (freeOf F (z :: vs)) F') :
    ∃ st' plan' todo' F'', Drawing zoneList s F zs list xs count st' plan' todo' F'' ∧
      Settles (fun n => allocPagesBody count list n z st)
        (if plan'.length = count.toNat then .stop st' else .next st') ∧
      (plan'.length = count.toNat ∨ todo' = freeOf F vs) := by
  have hz : z ∈ zs := by simp [hzs]
  obtain ⟨fr, hfr, -⟩ := hi.free z hz
  have hfr' := (hd.grabbed.untouched hz (hd.untouched hi hzs)).trans hfr
  obtain ⟨st', hloop, plan', todo', F'', hd', hend⟩ :=
    hd.loopSettles_passes hc hz hfr' (freeOf_cons hfr vs)
  refine ⟨st', plan', todo', F'', hd', ?_, hend⟩
  obtain ⟨N, hN⟩ := hloop.settles
  refine ⟨N, fun n hn => ?_⟩
  simp only [allocPagesBody, hN n hn, hd'.running, Bool.false_eq_true, if_false, hd'.allocated_eq]
  split <;> rfl

end Drawing

/-- The loop over the zones takes as many free pages as it can up to the request. -/
theorem settles_allocPagesLoop (hi : PmmInv zoneList s F zs) (hc : CallerHead zoneList zs list)
    (hF : F list = some xs) {count : BitVec 32} (h0 : count ≠ 0) :
    ∃ plan s' F', plan = (freeOf F zs).take count.toNat ∧
      Settles (fun n => allocPagesLoop zoneList n s count list)
        (.noError, BitVec.ofNat 32 plan.length, s') ∧
      Grabbed zoneList s F zs list xs plan s' F' := by
  have hinit : Drawing zoneList s F zs list xs count ⟨s, 0, false⟩ [] (freeOf F zs) F :=
    ⟨.nil hi hF, rfl, Nat.zero_le _, rfl, rfl⟩
  obtain ⟨t, ht, plan, todo, F', hd, hend⟩ := settles_listForEach
    (fun st : AllocLoop => st.s.heap) (fun n => allocPagesBody count list n)
    (fun rest st => ∃ us plan F', zs = us ++ rest ∧ plan.length < count.toNat ∧
      Drawing zoneList s F zs list xs count st plan (freeOf F rest) F')
    (fun st => ∃ plan todo F', Drawing zoneList s F zs list xs count st plan todo F' ∧
      (plan.length = count.toNat ∨ todo = []))
    (by
      rintro z vs st ⟨us, plan, F', hzs, hlt, hd⟩
      obtain ⟨st', plan', todo', F'', hd', hbody, hend⟩ := hd.settles_body hi hc hzs
      by_cases heq : plan'.length = count.toNat
      · rw [if_pos heq] at hbody
        exact .inr ⟨st', hbody, plan', todo', F'', hd', .inl heq⟩
      · rw [if_neg heq] at hbody
        exact .inl ⟨st', hbody, ⟨us ++ [z], plan', F'', by simp [hzs],
          lt_of_le_of_ne hd'.bound heq, hend.resolve_left heq ▸ hd'⟩,
          hd'.grabbed.inv.next_zone hzs⟩)
    (by
      rintro st ⟨us, plan, F', -, -, hd⟩
      exact ⟨plan, _, F', hd, .inr rfl⟩)
    ⟨[], [], F, rfl, Nat.pos_of_ne_zero fun h => h0 (BitVec.eq_of_toNat_eq h), hinit⟩
    hi.ring.next_head hi.notMem_zones
  have hplan : plan = (freeOf F zs).take count.toNat := by
    rcases hend with heq | rfl
    · rw [hd.split, ← heq, List.take_left]
    · rw [hd.split, List.append_nil, List.take_of_length_le hd.bound]
  refine ⟨plan, t.s, F', hplan, ?_, hd.grabbed⟩
  obtain ⟨N, hN⟩ := ht
  refine ⟨N, fun n hn => ?_⟩
  simp only [allocPagesLoop, hN n hn, ← hd.allocated, Option.map_some]

/-- `pmm_alloc_pages` takes as many free pages as it can up to the request. A request for one
page is safe only while some page is free. -/
theorem settles_pmmAllocPages (hi : PmmInv zoneList s F zs) (hc : CallerHead zoneList zs list)
    (hF : F list = some xs) (count : BitVec 32) (page : Word)
    (hone : count = 1 → freeOf F zs ≠ []) :
    ∃ plan s' F', plan = (freeOf F zs).take count.toNat ∧
      Settles (fun n => pmmAllocPages zoneList n s count list page)
        (.noError, BitVec.ofNat 32 plan.length, s') ∧
      Grabbed zoneList s F zs list xs plan s' F' := by
  by_cases h0 : count = 0
  · refine ⟨[], s, F, by simp [h0], .of_forall fun n => ?_, .nil hi hF⟩
    rw [pmmAllocPages, if_pos h0, h0]
    rfl
  by_cases h1 : count = 1
  · obtain ⟨⟨z, p⟩, more, hfree⟩ := List.exists_cons_of_ne_nil (hone h1)
    obtain ⟨hz, fr, hfr, hp⟩ := mem_freeOf.mp (show (z, p) ∈ freeOf F zs by simp [hfree])
    obtain ⟨F', hg, -⟩ := (Grabbed.nil hi hF).concat hc hz hfr hp
    refine ⟨[(z, p)], _, F', by simp [hfree, h1], ?_, hg⟩
    have hset := settles_pmmAllocPage hi page
    rw [hfree] at hset
    obtain ⟨N, hN⟩ := hset
    refine ⟨N, fun n hn => ?_⟩
    simp only [pmmAllocPages, if_neg h0, if_pos h1, hN n hn, if_true]
    rfl
  · obtain ⟨plan, s', F', hplan, hset, hg⟩ := settles_allocPagesLoop hi hc hF h0
    refine ⟨plan, s', F', hplan, hset.congr fun n => ?_, hg⟩
    rw [pmmAllocPages, if_neg h0, if_neg h1, allocPagesLoop]

end Specs

end Rix
