import Rix.PmmSafety

/-!
# What `pmm_alloc_pages` does to the state

The pages that a call moves to the caller's list, and everything that it leaves as it was.
-/
namespace Rix
open Rings Fuel

namespace Pmm

theorem grabAll_zone (s : Pmm) (list : Word) (plan : List (Word × Word)) (w : Word) :
    (s.grabAll list plan).zone w = { s.zone w with
      freeCount := (s.zone w).freeCount - BitVec.ofNat 64 (plan.countP fun zp => zp.1 = w) } := by
  induction plan using List.reverseRecOn with
  | nil =>
      show s.zone w = _
      rw [List.countP_nil, BitVec.sub_zero]
  | append_singleton plan zp ih =>
      rw [grabAll_concat, List.countP_append, List.countP_singleton]
      show ((s.grabAll list plan).take zp.1 zp.2).zone w = _
      rw [take_zone]
      by_cases hw : w = zp.1
      · rw [if_pos hw, ← hw, ih, if_pos (decide_eq_true rfl), BitVec.ofNat_add, ← BitVec.sub_sub]
        rfl
      · rw [if_neg hw, ih, if_neg (by simpa using Ne.symm hw), Nat.add_zero]

theorem grabAll_bootAllocEnd (s : Pmm) (list : Word) (plan : List (Word × Word)) :
    (s.grabAll list plan).bootAllocEnd = s.bootAllocEnd := by
  induction plan generalizing s with
  | nil => rfl
  | cons zp plan ih => exact ih (s.grab list zp)

theorem grabAll_flags_eq (s : Pmm) (list : Word) {plan : List (Word × Word)}
    (hnd : (plan.map Prod.snd).Nodup) (q : Word) : (s.grabAll list plan).flags q =
      if q ∈ plan.map Prod.snd then s.flags q ||| 1 else s.flags q := by
  induction plan using List.reverseRecOn with
  | nil => rfl
  | append_singleton plan zp ih =>
      have hmem : q ∈ (plan ++ [zp]).map Prod.snd ↔ q ∈ plan.map Prod.snd ∨ q = zp.2 := by simp
      rw [List.map_append, List.nodup_append] at hnd
      rw [grabAll_concat, grab_flags, ih hnd.1]
      by_cases hq : q = zp.2
      · have hnot : zp.2 ∉ plan.map Prod.snd := fun hm => hnd.2.2 _ hm zp.2 (by simp) rfl
        rw [if_pos hq, (s.grabAll_flags list plan zp.2).2 hnot, if_pos (hmem.mpr (.inr hq)), hq]
      · rw [if_neg hq]
        by_cases hm : q ∈ plan.map Prod.snd
        · rw [if_pos hm, if_pos (hmem.mpr (.inl hm))]
        · rw [if_neg hm, if_neg fun h => (hmem.mp h).elim hm hq]

end Pmm

section Frame

variable {zoneList : Word} {s : Pmm} {F : Family Word} {zs xs fr : List Word} {list z p x : Word}

/-- A page that moves changes the links of its two lists only. -/
theorem PmmInv.grab_frame (hi : PmmInv zoneList s F zs) (hc : CallerHead zoneList zs list)
    (hz : z ∈ zs) (hF : F (freePages z) = some fr) (hp : p ∈ fr) (hl : F list = some xs)
    (hfr : x ∉ freePages z :: fr) (hx : x ∉ list :: xs) :
    s.heap.AgreeAt (s.grab list (z, p)).heap x := by
  have hring := hi.lists.rep.ring hF
  have hpmem : p ∈ freePages z :: fr := List.mem_cons_of_mem _ hp
  have hxp : x ≠ p := fun e => hfr (e ▸ hpmem)
  obtain ⟨hi', hun⟩ := hi.take hz hF hp
  have hl' : Function.update F (freePages z) (some (fr.erase p)) list = some xs := by
    rw [Function.update_of_ne (hc.2 z hz)]
    exact hl
  have hring' := hi'.lists.rep.ring hl'
  have hlp : list ≠ p := by
    rintro rfl
    exact hun ⟨list, xs, hl', List.mem_cons_self⟩
  have htake : s.heap.AgreeAt (s.take z p).heap x := by
    rw [Pmm.take_heap, listDelete_eq (hi.lists.next_ne hF hp).1]
    have hunlink := Links.unlink_frame (L := s.heap) (a := p) (x := x)
      (fun e => hfr (e ▸ hring.prev_mem hpmem)) (fun e => hfr (e ▸ hring.next_mem hpmem))
    constructor
    · rw [Links.setPrev_next, Links.setNext_next, if_neg hxp]
      exact hunlink.1
    · rw [Links.setPrev_prev, if_neg hxp, Links.setNext_prev]
      exact hunlink.2
  refine htake.trans ?_
  show (s.take z p).heap.AgreeAt (listAddTail (s.take z p).heap list p) x
  rw [listAddTail_eq hlp]
  exact Links.linkBefore_frame hxp (fun e => hx (e ▸ List.mem_cons_self))
    fun e => hx (e ▸ hring'.prev_mem List.mem_cons_self)

/-- Any plan of distinct free pages can be carried out, and leaves the links of all other nodes. -/
theorem PmmInv.exists_grabbed (hi : PmmInv zoneList s F zs) (hc : CallerHead zoneList zs list)
    (hl : F list = some xs) {plan : List (Word × Word)}
    (hfree : ∀ zp ∈ plan, zp.1 ∈ zs ∧ IsPage (s.zone zp.1) zp.2 ∧ isNonfree (s.flags zp.2) = false)
    (hnd : (plan.map Prod.snd).Nodup) :
    ∃ F', Grabbed zoneList s F zs list xs plan (s.grabAll list plan) F' ∧
      ∀ x, x ∉ list :: xs → (∀ z ∈ zs, ∀ fr, F (freePages z) = some fr → x ∉ freePages z :: fr) →
        s.heap.AgreeAt (s.grabAll list plan).heap x := by
  induction plan using List.reverseRecOn with
  | nil => exact ⟨F, .nil hi hl, fun _ _ _ => .refl _ _⟩
  | append_singleton plan zp ih =>
      obtain ⟨z, p⟩ := zp
      rw [List.map_append, List.nodup_append] at hnd
      obtain ⟨F', hg, hframe⟩ := ih (fun zp hzp => hfree zp (List.mem_append_left _ hzp)) hnd.1
      obtain ⟨hz, hpage, hflag⟩ := hfree (z, p) (by simp)
      obtain ⟨fr, hF, hF'⟩ := hg.rest z hz
      have hnot : p ∉ plan.map Prod.snd := fun hm => hnd.2.2 _ hm p (by simp) rfl
      have hp := ((hi.free_eq hz hF).2 p).mpr ⟨hpage, hflag⟩
      have hp' : p ∈ fr.filter fun p => p ∉ plan.map Prod.snd :=
        List.mem_filter.mpr ⟨hp, decide_eq_true hnot⟩
      obtain ⟨F'', hg'', -⟩ := hg.concat hc hz hF' hp'
      refine ⟨F'', by rw [Pmm.grabAll_concat]; exact hg'', fun x hx hfr => ?_⟩
      rw [Pmm.grabAll_concat]
      refine (hframe x hx hfr).trans (hg.inv.grab_frame hc hz hF' hp' hg.caller ?_ ?_)
      · intro hm
        refine hfr z hz fr hF ?_
        rcases List.mem_cons.mp hm with rfl | hm
        · exact List.mem_cons_self
        · exact List.mem_cons_of_mem _ (List.mem_filter.mp hm).1
      · rw [List.mem_cons, List.mem_append]
        rintro (rfl | hm | hm)
        · exact hx List.mem_cons_self
        · exact hx (List.mem_cons_of_mem _ hm)
        · -- the pages moved before came from the free lists
          obtain ⟨wq, hwq, rfl⟩ := List.mem_map.mp hm
          obtain ⟨hw, hwpage, hwflag⟩ := hg.free wq hwq
          obtain ⟨fw, hFw, -⟩ := hi.free wq.1 hw
          exact hfr wq.1 hw fw hFw (List.mem_cons_of_mem _
            (((hi.free_eq hw hFw).2 wq.2).mpr ⟨hwpage, hwflag⟩))

end Frame

def freeInOrder (zs : List Word) (fr : Word → List Word) : List (Word × Word) :=
  zs.flatMap fun z => (fr z).map fun p => (z, p)

/-- The pages of `plan` have moved from the free lists `fr` to the tail of the caller's list, and
nothing else has changed. -/
structure Moved (zoneList : Word) (P : Snapshot) (list : Word) (xs : List Word)
    (fr : Word → List Word) (plan : List (Word × Word)) (s' : Pmm) : Prop where
  free : ∀ z ∈ P.zs, Ring P.s.heap (freePages z) (fr z) ∧
    ∀ p, p ∈ fr z ↔ IsPage (P.s.zone z) p ∧ isNonfree (P.s.flags p) = false
  nodup : (plan.map Prod.snd).Nodup
  caller : Ring s'.heap list (xs ++ plan.map Prod.snd)
  zones : Ring s'.heap zoneList P.zs
  rest : ∀ z ∈ P.zs, Ring s'.heap (freePages z) ((fr z).filter fun p => p ∉ plan.map Prod.snd)
  flags : ∀ p, s'.flags p = if p ∈ plan.map Prod.snd then P.s.flags p ||| 1 else P.s.flags p
  zone : ∀ z, s'.zone z = { P.s.zone z with
    freeCount := (P.s.zone z).freeCount - BitVec.ofNat 64 (plan.countP fun zp => zp.1 = z) }
  bootAllocEnd : s'.bootAllocEnd = P.s.bootAllocEnd
  frame : ∀ x, x ∉ list :: xs → (∀ z ∈ P.zs, x ∉ freePages z :: fr z) → P.s.heap.AgreeAt s'.heap x

/-- The call takes the first free pages up to the request, reports how many they are, and takes a
single page as the loop over the zones would. -/
def AllocPagesExact (zoneList : Word) (P : Snapshot) (count : BitVec 32) (list : Word)
    (xs : List Word) (page : Word) : Prop :=
  ∃ fr plan s', Moved zoneList P list xs fr plan s' ∧
    plan = (freeInOrder P.zs fr).take count.toNat ∧
    Settles (fun n => pmmAllocPages zoneList n P.s count list page)
      (.noError, BitVec.ofNat 32 (min count.toNat (freeInOrder P.zs fr).length), s') ∧
    (count = 1 → Settles (fun n => allocPagesLoop zoneList n P.s count list)
      (.noError, BitVec.ofNat 32 (min count.toNat (freeInOrder P.zs fr).length), s'))

section Calls

variable {zoneList : Word} {P : Snapshot} {F : Family Word} {list page : Word} {xs : List Word}
  {plan : List (Word × Word)} {s' : Pmm} {F' : Family Word} {count : BitVec 32}

def freeListOf (F : Family Word) (z : Word) : List Word := (F (freePages z)).getD []

theorem freeOf_eq_freeInOrder (F : Family Word) (zs : List Word) :
    freeOf F zs = freeInOrder zs (freeListOf F) := rfl

theorem PmmInv.freeListOf_eq {s : Pmm} {zs : List Word} (hi : PmmInv zoneList s F zs) {z : Word}
    (hz : z ∈ zs) : F (freePages z) = some (freeListOf F z) := by
  obtain ⟨fr, hF, -⟩ := hi.free z hz
  rw [freeListOf, hF]
  rfl

theorem Grabbed.moved (hc : CallerHead zoneList P.zs list) (hl : F list = some xs)
    (hg : Grabbed zoneList P.s F P.zs list xs plan s' F') :
    Moved zoneList P list xs (freeListOf F) plan s' where
  free z hz := ⟨hg.start.lists.rep.ring (hg.start.freeListOf_eq hz),
    (hg.start.free_eq hz (hg.start.freeListOf_eq hz)).2⟩
  nodup := hg.nodup
  caller := hg.inv.lists.rep.ring hg.caller
  zones := hg.inv.ring
  rest z hz := by
    obtain ⟨fr, hF, hF'⟩ := hg.rest z hz
    rw [freeListOf, hF]
    exact hg.inv.lists.rep.ring hF'
  flags p := by
    rw [hg.state]
    exact P.s.grabAll_flags_eq list hg.nodup p
  zone z := by rw [hg.state, Pmm.grabAll_zone]
  bootAllocEnd := by rw [hg.state, Pmm.grabAll_bootAllocEnd]
  frame x hx hfr := by
    obtain ⟨-, -, hframe⟩ := hg.start.exists_grabbed hc hl hg.free hg.nodup
    rw [hg.state]
    refine hframe x hx fun z hz fr hF => ?_
    have := hfr z hz
    rwa [freeListOf, hF] at this

theorem Moved.freeInOrder_eq_nil {fr : Word → List Word} (hm : Moved zoneList P list xs fr plan s')
    (hno : ∀ p, ¬ P.Free p) : freeInOrder P.zs fr = [] := by
  rw [freeInOrder, List.flatMap_eq_nil_iff]
  intro z hz
  rw [List.map_eq_nil_iff]
  refine List.eq_nil_iff_forall_not_mem.mpr fun p hp => hno p ⟨z, hz, ?_⟩
  exact ((hm.free z hz).2 p).mp hp

/-- A request for one page with no page free reports one page. -/
theorem not_exact_of_no_free (hi : PmmInv zoneList P.s F P.zs) (hno : ∀ p, ¬ P.Free p)
    (hone : count = 1) : ¬ AllocPagesExact zoneList P count list xs page := by
  rintro ⟨fr, plan, s', hm, -, hset, -⟩
  have hnone : freeOf F P.zs = [] := by
    by_contra hne
    exact absurd ((free_iff hi).mpr hne) (not_exists.mpr hno)
  have hpage := settles_pmmAllocPage hi page
  rw [hnone] at hpage
  have hcall : Settles (fun n => pmmAllocPages zoneList n P.s count list page)
      (.noError, 1, { P.s with heap := listAddTail P.s.heap list page }) := by
    obtain ⟨N, hN⟩ := hpage
    refine ⟨N, fun n hn => ?_⟩
    simp only [pmmAllocPages, hone, if_neg (show ¬ (1 : BitVec 32) = 0 by decide), if_true, hN n hn]
  rw [hm.freeInOrder_eq_nil hno, List.length_nil, Nat.min_zero] at hset
  have hcount : BitVec.ofNat 32 0 = 1 := congrArg (fun r => r.2.1) (hset.unique hcall)
  exact absurd hcount (by decide)

/-- `pmm_alloc_pages` is exact in every reachable state, except when one page is asked for and
none is free. -/
theorem allocPages_exact_iff (hr : PmmReach zoneList (fun _ _ => True) P)
    (hx : P.CallerList zoneList list xs) : AllocPagesExact zoneList P count list xs page ↔
      ¬ (count = 1 ∧ ∀ p, ¬ P.Free p) := by
  obtain ⟨F, hi, ho⟩ := hr.sound.inv
  constructor
  · rintro hexact ⟨hone, hno⟩
    exact not_exact_of_no_free hi hno hone hexact
  · intro hcond
    have hi' := hi.adjoin ho hx
    have hl : Function.update F list (some xs) list = some xs := Function.update_self ..
    have hone : count = 1 → freeOf (Function.update F list (some xs)) P.zs ≠ [] := fun h1 => by
      rw [← free_iff hi']
      by_contra hno
      exact hcond ⟨h1, not_exists.mp hno⟩
    obtain ⟨plan, s', F', hplan, hset, hg⟩ := settles_pmmAllocPages hi' hx.callerHead hl count page hone
    have hlen : plan.length = min count.toNat (freeInOrder P.zs
        (freeListOf (Function.update F list (some xs)))).length := by
      rw [hplan, List.length_take, freeOf_eq_freeInOrder]
    rw [hlen] at hset
    refine ⟨_, plan, s', hg.moved hx.callerHead hl, hplan, hset, fun h1 => ?_⟩
    obtain ⟨plan₁, s₁, F₁, hplan₁, hset₁, hg₁⟩ := settles_allocPagesLoop hi' hx.callerHead hl
      (show count ≠ 0 by rw [h1]; decide)
    obtain rfl : plan₁ = plan := hplan₁.trans hplan.symm
    rw [hg.state, ← hg₁.state, ← hlen]
    exact hset₁

end Calls

theorem allocPages_exact_iff_sample : ∃ P : Snapshot, AllocPagesExact 64 P 2 128 [65560] 0 := by
  obtain ⟨P, hr, hx, -⟩ := sample_listed
  exact ⟨P, (allocPages_exact_iff hr hx).mpr fun h => absurd h.1 (by decide)⟩

/-- With no zone at all, a request for one page reports the page that the local happened to
name. -/
theorem one_page_of_none : ¬ ∀ (zoneList : Word) (P : Snapshot) (count : BitVec 32) (list : Word)
    (xs : List Word) (page : Word), PmmReach zoneList (fun _ _ => True) P →
    P.CallerList zoneList list xs → AllocPagesExact zoneList P count list xs page := by
  intro hall
  have hr : PmmReach 64 (fun _ _ => True) sampleStart := .init _ (by decide) rfl rfl
  have hno : ∀ p, ¬ sampleStart.Free p := fun p hp => by
    obtain ⟨z, hz, -⟩ := hp
    exact absurd hz List.not_mem_nil
  have hx : sampleStart.CallerList 64 128 [] := by
    refine ⟨.of_self rfl rfl, fun x hx => ?_⟩
    obtain rfl := List.mem_singleton.mp hx
    refine ⟨?_, by decide⟩
    rintro (h | ⟨z, hz, -⟩ | h)
    · exact absurd (List.mem_singleton.mp h) (by decide)
    · exact absurd hz List.not_mem_nil
    · exact hno _ h
  obtain ⟨F, hi, -⟩ := hr.sound.inv
  exact not_exact_of_no_free hi hno rfl (hall 64 sampleStart 1 128 [] 0 hr hx)

end Rix
