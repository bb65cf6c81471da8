import Rix.PmmSafety

/-!
# Frames in use before the heap

`mark_pages_in_use` is to take the frames behind a range of virtual addresses out of
the allocator. It passes a null list to `pmm_alloc_range`, so a frame that is still
free faults, and it queries the first page of the range in every pass. It returns
only when there is nothing to mark, and then changes nothing.
-/
namespace Rix
open Rings Fuel

/-- The pass of the loop of `mark_pages_in_use`; `query` stands for `x86_mmu_query`. -/
def markBody (zoneList : Word) (query : Word → Option Word) (va : Word) (fuel : Nat) :
    Word × Pmm → Option (Word × Pmm)
  | (offset, s) =>
    match query va with
    | some pa => (pmmAllocRange zoneList fuel s pa 1 NULL).map fun r => (offset + pageSize, r.2)
    | none => some (offset + pageSize, s)

def markPagesInUse (zoneList : Word) (query : Word → Option Word) (fuel : Nat) (s : Pmm)
    (va len : Word) : Option Pmm :=
  let va := roundDown va pageSize
  let len := roundUp (len + (va &&& (pageSize - 1))) pageSize
  (whileLoop (fun st => decide (st.1 < len)) (markBody zoneList query va fuel) fuel (0, s)).map
    Prod.snd

/-- Addresses of the objects and linker symbols that `vm_init_preheap` names. -/
structure VmImage where
  regionList : Word
  aspaceList : Word
  kernelAspace : Word
  codeStart : Word
  kernelEnd : Word
  bootAllocStart : Word

/-- `vmm_init_preheap` of `vmm.c`. -/
def vmmInitPreheap (img : VmImage) (s : Pmm) : Pmm :=
  let s := { s with heap := listInit s.heap img.regionList }
  { s with heap := listAdd s.heap img.aspaceList img.kernelAspace }

def vmInitPreheap (zoneList : Word) (query : Word → Option Word) (img : VmImage) (fuel : Nat)
    (s : Pmm) : Option Pmm := do
  let s := vmmInitPreheap img s
  -- mark all the kernel pages in use
  let s ← markPagesInUse zoneList query fuel s img.codeStart (img.kernelEnd - img.codeStart)
  -- mark all the pages used by the boot time allocator as used
  if img.bootAllocStart ≠ s.bootAllocEnd then
    markPagesInUse zoneList query fuel s img.bootAllocStart (s.bootAllocEnd - img.bootAllocStart)
  else some s

def FrameFree (s : Pmm) (zs : List Word) (a : Word) : Prop :=
  ∃ z ∈ zs, addressBelongsToZone a (s.zone z) = true ∧
    isNonfree (s.flags (framePage (s.zone z) a)) = false

section

variable {zoneList : Word} {s : Pmm} {F : Family Word} {zs : List Word} {address z : Word}

theorem allocRangePass_free (st : RangeLoop) {count : Word} (hlt : st.allocated < count)
    (hb : addressBelongsToZone st.address (st.s.zone z) = true)
    (hfree : isNonfree (st.s.flags (framePage (st.s.zone z) st.address)) = false) :
    allocRangePass z count NULL st = none := by
  rw [framePage] at hfree
  rw [allocRangePass, if_pos ⟨hlt, hb⟩]
  simp only [hfree, Bool.false_eq_true, if_false, if_true]

theorem allocRangePass_skip {st : RangeLoop} {count list : Word}
    (h : addressBelongsToZone st.address (st.s.zone z) = true →
      isNonfree (st.s.flags (framePage (st.s.zone z) st.address)) = true) :
    allocRangePass z count list st = some (.stop st) := by
  rw [allocRangePass]
  split
  · next hcond =>
    have hfree := h hcond.2
    rw [framePage] at hfree
    simp only [hfree, if_true]
  · rfl

theorem allocRangeBody_skip (st : RangeLoop) {count : Word} (list : Word)
    (hne : st.allocated ≠ count)
    (h : addressBelongsToZone st.address (st.s.zone z) = true →
      isNonfree (st.s.flags (framePage (st.s.zone z) st.address)) = true) (n : Nat) :
    allocRangeBody count list (n + 1) z st = some (.next st) := by
  simp only [allocRangeBody, loop, allocRangePass_skip h, if_neg hne]

theorem settles_pmmAllocRange_null (hi : PmmInv zoneList s F zs)
    (hfree : ¬ FrameFree s zs (roundDown address pageSize)) :
    Settles (fun n => pmmAllocRange zoneList n s address 1 NULL) (0, s) := by
  have hskip : ∀ z ∈ zs, addressBelongsToZone (roundDown address pageSize) (s.zone z) = true →
      isNonfree (s.flags (framePage (s.zone z) (roundDown address pageSize))) = true := by
    intro z hz hb
    rw [← Bool.not_eq_false]
    exact fun h => hfree ⟨z, hz, hb, h⟩
  have hne01 : (0 : Word) ≠ 1 := by decide
  obtain ⟨t, ht, rfl⟩ := settles_listForEach (fun st : RangeLoop => st.s.heap)
    (fun n => allocRangeBody 1 NULL n)
    (fun rest st => st = ⟨s, roundDown address pageSize, 0⟩ ∧ ∃ us, zs = us ++ rest)
    (fun st => st = ⟨s, roundDown address pageSize, 0⟩)
    (by
      rintro z vs st ⟨rfl, us, hzs⟩
      refine .inl ⟨_, ⟨1, fun n hn => ?_⟩, ⟨rfl, us ++ [z], by simp [hzs]⟩, hi.next_zone hzs⟩
      obtain ⟨k, rfl⟩ := Nat.exists_eq_add_of_le' hn
      exact allocRangeBody_skip ⟨s, roundDown address pageSize, 0⟩ NULL hne01
        (hskip z (by simp [hzs])) k)
    (fun st h => h.1) (s := ⟨s, roundDown address pageSize, 0⟩) ⟨rfl, [], rfl⟩ hi.ring.next_head
    hi.notMem_zones
  exact ht.map fun st : RangeLoop => (st.allocated, st.s)

theorem pmmAllocRange_null_eq_none (hi : PmmInv zoneList s F zs)
    (hfree : FrameFree s zs (roundDown address pageSize)) (fuel : Nat) :
    pmmAllocRange zoneList fuel s address 1 NULL = none := by
  obtain ⟨z₀, hz₀, hb, hflag⟩ := hfree
  have hloop := loop_eq_none (listForEachPass (fun st : RangeLoop => st.s.heap) zoneList
    (allocRangeBody 1 NULL fuel))
    (fun pst => pst.2 = ⟨s, roundDown address pageSize, 0⟩ ∧
      ∃ us vs, zs = us ++ pst.1 :: vs ∧ z₀ ∈ pst.1 :: vs) ?_ fuel
    (s := (s.heap.next zoneList, ⟨s, roundDown address pageSize, 0⟩)) ?_
  · simp only [pmmAllocRange, if_neg (show ¬ (1 : Word) = 0 by decide), listForEach, hloop]
    rfl
  · rintro ⟨z, st⟩ ⟨rfl, us, vs, hzs, hmem⟩
    have hz : z ≠ zoneList := fun e => hi.notMem_zones (by simp [hzs, e])
    simp only [listForEachPass, if_neg hz]
    by_cases hskip : addressBelongsToZone (roundDown address pageSize) (s.zone z) = true →
        isNonfree (s.flags (framePage (s.zone z) (roundDown address pageSize))) = true
    · cases fuel with
      | zero => exact .inl rfl
      | succ n =>
          -- the zone with the free frame is still to come
          have hvs : z₀ ∈ vs := (List.mem_cons.mp hmem).resolve_left fun e => by
            simp only at e
            subst e
            exact Bool.false_ne_true (hflag.symm.trans (hskip hb))
          obtain ⟨w, ws, rfl⟩ := List.exists_cons_of_ne_nil (List.ne_nil_of_mem hvs)
          refine .inr ⟨(w, ⟨s, roundDown address pageSize, 0⟩), ?_, rfl, us ++ [z], ws, ?_, hvs⟩
          · rw [allocRangeBody_skip ⟨s, roundDown address pageSize, 0⟩ NULL
              (by decide : (0 : Word) ≠ 1) hskip]
            simp [hi.next_zone hzs]
          · simp [hzs]
    · push Not at hskip
      left
      have hpass := allocRangePass_free ⟨s, roundDown address pageSize, 0⟩
        (by decide : (0 : Word) < 1) hskip.1 (Bool.not_eq_true _ ▸ hskip.2)
      cases fuel with
      | zero => rfl
      | succ n => simp only [allocRangeBody, loop, hpass]
  · obtain ⟨w, ws, hzs⟩ := List.exists_cons_of_ne_nil (List.ne_nil_of_mem hz₀)
    refine ⟨rfl, [], ws, ?_, ?_⟩
    · simp [hi.ring.next_head, hzs]
    · simpa [hi.ring.next_head, hzs] using hz₀

variable {query : Word → Option Word} {va len : Word}

theorem roundDown_mask (va : Word) : roundDown va pageSize &&& (pageSize - 1) = 0 := by
  rw [roundDown, BitVec.and_assoc, BitVec.and_comm (~~~_), BitVec.and_not_self]
  exact BitVec.and_zero

/-- The start is rounded before its remainder is added to the length, so none is added. -/
theorem markPagesInUse_eq (fuel : Nat) :
    markPagesInUse zoneList query fuel s va len =
      (whileLoop (fun st => decide (st.1 < roundUp len pageSize))
        (markBody zoneList query (roundDown va pageSize) fuel) fuel (0, s)).map Prod.snd := by
  rw [markPagesInUse]
  simp only [roundDown_mask, show len + (0 : Word) = len from BitVec.add_zero len]

theorem settles_markPagesInUse
    (hbody : ∀ offset, Settles (fun n => markBody zoneList query (roundDown va pageSize) n
      (offset, s)) (offset + pageSize, s) ∨ roundUp len pageSize = 0) :
    Settles (fun n => markPagesInUse zoneList query n s va len) s := by
  have hmul : (roundUp len pageSize).toNat % 4096 = 0 := by
    rw [roundUp_page]
    omega
  obtain ⟨⟨offset, t⟩, hloop, ⟨rfl, -⟩, -⟩ := exists_while
    (fun st : Word × Pmm => decide (st.1 < roundUp len pageSize))
    (fun n => markBody zoneList query (roundDown va pageSize) n)
    (fun st => st.2 = s ∧ st.1.toNat % 4096 = 0)
    (fun st => (roundUp len pageSize).toNat - st.1.toNat)
    (by
      rintro ⟨offset, t⟩ ⟨rfl, hoff⟩ hcond
      rw [decide_eq_true_eq, BitVec.lt_def] at hcond
      simp only at hcond hoff
      have hlt := (roundUp len pageSize).isLt
      have hsucc : (offset + pageSize).toNat = offset.toNat + 4096 := by
        rw [BitVec.toNat_add, toNat_pageSize]
        omega
      refine ⟨_, (hbody offset).resolve_right fun h0 => ?_, ⟨rfl, by simp only; omega⟩,
        by simp only; omega⟩
      simp [h0] at hcond)
    (s := (0, s)) ⟨rfl, rfl⟩
  exact (hloop.settles.map Prod.snd).congr fun n => markPagesInUse_eq n

/-- The physical frames behind the pages that intersect `[va, va + len)`. -/
def Backing (query : Word → Option Word) (va len f : Word) : Prop :=
  ∃ k < len, ∃ pa, query (roundDown (va + k) pageSize) = some pa ∧ f = roundDown pa pageSize

def InUse (query : Word → Option Word) (va len : Word) (zs : List Word) (s : Pmm) : Prop :=
  ∀ f, Backing query va len f → ¬ FrameFree s zs f

/-- What `mark_pages_in_use` is to achieve: every managed frame behind the range is flagged and
on no free list. -/
def Marked (query : Word → Option Word) (va len : Word) (zs : List Word) (s : Pmm) : Prop :=
  ∀ f, Backing query va len f → ∀ z ∈ zs, addressBelongsToZone f (s.zone z) = true →
    isNonfree (s.flags (framePage (s.zone z) f)) = true ∧
    ∀ w ∈ zs, ∀ fr, Ring s.heap (freePages w) fr → framePage (s.zone z) f ∉ fr

theorem marked_iff_inUse (hi : PmmInv zoneList s F zs) :
    Marked query va len zs s ↔ InUse query va len zs s := by
  constructor
  · rintro hm f hf ⟨z, hz, hb, hfree⟩
    exact Bool.false_ne_true (hfree.symm.trans (hm f hf z hz hb).1)
  · intro hu f hf z hz hb
    have hflag : isNonfree (s.flags (framePage (s.zone z) f)) = true := by
      rw [← Bool.not_eq_false]
      exact fun h => hu f hf ⟨z, hz, hb, h⟩
    refine ⟨hflag, fun w hw fr hring hmem => ?_⟩
    obtain ⟨fr', hF, -, hm⟩ := hi.free w hw
    rw [hring.unique (hi.lists.rep.ring hF)] at hmem
    exact Bool.false_ne_true (((hm _).mp hmem).2.symm.trans hflag)

theorem settles_of_inUse (hi : PmmInv zoneList s F zs) (hu : InUse query va len zs s) :
    Settles (fun n => markPagesInUse zoneList query n s va len) s := by
  refine settles_markPagesInUse fun offset => ?_
  by_cases hlen : len = 0
  · exact .inr (by rw [hlen]; rfl)
  refine .inl ?_
  cases hq : query (roundDown va pageSize) with
  | none => exact .of_forall fun n => by simp only [markBody, hq]
  | some pa =>
      have hpos : (0 : Word) < len := by
        rw [BitVec.lt_def]
        exact Nat.pos_of_ne_zero fun h => hlen (BitVec.eq_of_toNat_eq h)
      have hback : Backing query va len (roundDown pa pageSize) :=
        ⟨0, hpos, pa, by rwa [show va + 0 = va from BitVec.add_zero va], rfl⟩
      have h := (settles_pmmAllocRange_null hi (hu _ hback)).map fun r => (offset + pageSize, r.2)
      exact h.congr fun n => by simp only [markBody, hq]

/-- The call leaves the state as it was, or faults. -/
theorem markPagesInUse_cases (hi : PmmInv zoneList s F zs) (query : Word → Option Word)
    (va len : Word) : Settles (fun n => markPagesInUse zoneList query n s va len) s ∨
      ∀ n, markPagesInUse zoneList query n s va len = none := by
  by_cases h0 : roundUp len pageSize = 0
  · exact .inl (settles_markPagesInUse fun _ => .inr h0)
  cases hq : query (roundDown va pageSize) with
  | none =>
      exact .inl (settles_markPagesInUse fun offset =>
        .inl (.of_forall fun n => by simp only [markBody, hq]))
  | some pa =>
      by_cases hfree : FrameFree s zs (roundDown pa pageSize)
      · refine .inr fun n => ?_
        have hcond : decide ((0 : Word) < roundUp len pageSize) = true := by
          rw [decide_eq_true_eq, BitVec.lt_def]
          exact Nat.pos_of_ne_zero fun h => h0 (BitVec.eq_of_toNat_eq h)
        rw [markPagesInUse_eq, whileLoop]
        cases n with
        | zero => rfl
        | succ n =>
            simp only [loop, hcond, if_true, markBody, hq, pmmAllocRange_null_eq_none hi hfree,
              Option.map_none]
      · exact .inl (settles_markPagesInUse fun offset => .inl
          (((settles_pmmAllocRange_null hi hfree).map fun r => (offset + pageSize, r.2)).congr
            fun n => by simp only [markBody, hq]))

/-- `mark_pages_in_use` does its work exactly when there is none to do. -/
theorem marks_iff (hi : PmmInv zoneList s F zs) (query : Word → Option Word) (va len : Word) :
    (∃ s', Settles (fun n => markPagesInUse zoneList query n s va len) s' ∧
      Marked query va len zs s') ↔ InUse query va len zs s := by
  constructor
  · rintro ⟨s', hs', hm⟩
    rcases markPagesInUse_cases hi query va len with h | h
    · obtain rfl := hs'.unique h
      exact (marked_iff_inUse hi).mp hm
    · exact absurd hs' (not_settles h s')
  · exact fun hu => ⟨s, settles_of_inUse hi hu, (marked_iff_inUse hi).mpr hu⟩

end

/-- The lists that `vmm_init_preheap` writes are empty lists and nodes of the kernel's own. -/
structure VmImage.Foreign (zoneList : Word) (P : Snapshot) (img : VmImage) : Prop where
  empty : P.s.heap.next img.aspaceList = img.aspaceList ∧
    P.s.heap.prev img.aspaceList = img.aspaceList
  distinct : img.regionList ≠ img.aspaceList ∧ img.kernelAspace ≠ img.aspaceList
  owned : ¬ P.Owned zoneList img.regionList ∧ ¬ P.Owned zoneList img.aspaceList ∧
    ¬ P.Owned zoneList img.kernelAspace

/-- The frame is behind the kernel image or the boot allocator's memory. -/
def VmImage.Uses (img : VmImage) (query : Word → Option Word) (s : Pmm) (f : Word) : Prop :=
  Backing query img.codeStart (img.kernelEnd - img.codeStart) f ∨
  Backing query img.bootAllocStart (s.bootAllocEnd - img.bootAllocStart) f

def VmImage.Page (img : VmImage) (query : Word → Option Word) (P : Snapshot) (p : Word) : Prop :=
  ∃ f, img.Uses query P.s f ∧ ∃ z ∈ P.zs, addressBelongsToZone f (P.s.zone z) = true ∧
    p = framePage (P.s.zone z) f

/-- The snapshots that calls meeting `ok` lead to. -/
inductive PmmRun (zoneList : Word) (ok : PmmCall → Prop) (P : Snapshot) : Snapshot → Prop where
  | refl : PmmRun zoneList ok P P
  | call {Q : Snapshot} {c : PmmCall} {got : List Word} {s' : Pmm} (hr : PmmRun zoneList ok P Q)
      (ha : c.Admissible zoneList Q) (hok : ok c) (hret : c.Returns zoneList Q got s') :
      PmmRun zoneList ok P (Q.after c got s')

/-- `vm_init_preheap` returns, and from then on no call hands out a page of the kernel's, as long
as no zone is added and no such page is given back. -/
def Protected (zoneList : Word) (query : Word → Option Word) (img : VmImage) (P : Snapshot) : Prop :=
  ∃ s', Settles (fun n => vmInitPreheap zoneList query img n P.s) s' ∧
    ∀ Q, PmmRun zoneList (fun c => c.newZones = [] ∧ ∀ p ∈ c.givenBack, ¬ img.Page query P p)
        ⟨s', P.zs, P.held⟩ Q →
      ∀ c : PmmCall, c.Admissible zoneList Q → ∀ got s'', c.Returns zoneList Q got s'' →
        ∀ p ∈ got, ¬ img.Page query P p

section

variable {zoneList : Word} {P Q : Snapshot} {query : Word → Option Word} {img : VmImage}

theorem PmmRun.sound {ok : PmmCall → Prop} (hr : PmmRun zoneList ok P Q) (hs : P.Sound zoneList) :
    Q.Sound zoneList := by
  induction hr with
  | refl => exact hs
  | call _ ha _ hret ih => exact ih.after (ih.effect ha hret)

theorem PmmRun.busy {ok : PmmCall → Prop} (hr : PmmRun zoneList ok P Q) (hs : P.Sound zoneList)
    {p : Word} (hok : ∀ c, ok c → p ∉ c.givenBack) (hb : P.Busy p) : Q.Busy p := by
  induction hr with
  | refl => exact hb
  | call hr ha hc hret ih =>
      exact (((hr.sound hs).effect ha hret).busy p).mpr ⟨.inl ih, fun h => hok _ hc h.1⟩

theorem Snapshot.Sound.vmmInitPreheap (hs : P.Sound zoneList) (himg : img.Foreign zoneList P) :
    Snapshot.Sound zoneList ⟨vmmInitPreheap img P.s, P.zs, P.held⟩ := by
  refine hs.caller ⟨fun x hx => ?_, fun _ _ => rfl, fun _ _ _ _ => rfl⟩
  have hxr : x ≠ img.regionList := fun e => himg.owned.1 (e ▸ hx)
  have hxa : x ≠ img.aspaceList := fun e => himg.owned.2.1 (e ▸ hx)
  have hxk : x ≠ img.kernelAspace := fun e => himg.owned.2.2 (e ▸ hx)
  simp [Links.AgreeAt, Rix.vmmInitPreheap, listAdd, listInit, hxr, hxa, hxk, himg.empty.1,
    himg.distinct.1.symm, himg.distinct.2.symm]

theorem VmImage.page_free_or_busy {p : Word} (hs : P.Sound zoneList)
    (hp : img.Page query P p) : P.Free p ∨ P.Busy p := by
  obtain ⟨F, hi, -⟩ := hs.inv
  obtain ⟨f, -, z, hz, hb, rfl⟩ := hp
  have hpage := isPage_framePage (hi.geometry z hz) hb
  cases hflag : isNonfree (P.s.flags (framePage (P.s.zone z) f)) with
  | true => exact .inr ⟨z, hz, hpage, hflag⟩
  | false => exact .inl ⟨z, hz, hpage, hflag⟩

theorem Snapshot.free_iff_not_busy {p : Word} :
    P.Free p ↔ (∃ z ∈ P.zs, IsPage (P.s.zone z) p) ∧ ¬ P.Busy p := by
  constructor
  · rintro ⟨z, hz, hp, hfree⟩
    exact ⟨⟨z, hz, hp⟩, fun hb => hb.not_free ⟨z, hz, hp, hfree⟩⟩
  · rintro ⟨⟨z, hz, hp⟩, hb⟩
    exact Snapshot.free_of_not_busy hz hp hb

theorem Snapshot.Sound.allocPage (hs : P.Sound zoneList) (hfree : ∃ p, P.Free p) :
    ∃ p s', (PmmCall.allocPage 0).Returns zoneList P [p] s' ∧ P.Free p ∧
      ∀ q, (P.after (.allocPage 0) [p] s').Free q ↔ P.Free q ∧ q ≠ p := by
  obtain ⟨p, s', hret, he⟩ := hs.exists_page hfree
  refine ⟨p, s', hret, he.fresh p List.mem_cons_self, fun q => ?_⟩
  have hpages : (∃ z ∈ (P.after (.allocPage 0) [p] s').zs, IsPage (s'.zone z) q) ↔
      ∃ z ∈ P.zs, IsPage (P.s.zone z) q := by
    simp only [Snapshot.after, PmmCall.newZones, List.append_nil]
    exact exists_congr fun z => and_congr_right fun hz => isPage_congr (he.shape z hz) q
  rw [Snapshot.free_iff_not_busy, Snapshot.free_iff_not_busy, he.busy q,
    show (P.after (.allocPage 0) [p] s').s = s' from rfl, hpages]
  simp only [PmmCall.givenBack, List.not_mem_nil, false_and, not_false_eq_true, and_true,
    List.mem_singleton]
  tauto

/-- Calls of `pmm_alloc_page` alone come to hand out any page that is free. -/
theorem Snapshot.Sound.exists_handout (ok : PmmCall → Prop) (hok : ok (.allocPage 0))
    (hs : P.Sound zoneList) {p : Word} (hp : P.Free p) :
    ∃ Q s', PmmRun zoneList ok P Q ∧ (PmmCall.allocPage 0).Returns zoneList Q [p] s' := by
  have : Finite Word := Finite.of_injective BitVec.toFin fun _ _ h => BitVec.eq_of_toFin_eq h
  suffices h : ∀ n Q, PmmRun zoneList ok P Q → Q.Free p → {q | Q.Free q}.ncard = n →
      ∃ Q s', PmmRun zoneList ok P Q ∧ (PmmCall.allocPage 0).Returns zoneList Q [p] s' from
    h _ P .refl hp rfl
  intro n
  induction n using Nat.strong_induction_on with
  | _ n ih =>
    intro Q hrun hQ hn
    obtain ⟨q, s', hret, hq, hfree⟩ := (hrun.sound hs).allocPage ⟨p, hQ⟩
    by_cases hqp : p = q
    · exact ⟨Q, s', hrun, hqp ▸ hret⟩
    · refine ih _ ?_ _ (hrun.call (c := .allocPage 0) trivial hok hret) ((hfree p).mpr ⟨hQ, hqp⟩) rfl
      rw [← hn]
      refine Set.ncard_lt_ncard ⟨fun r hr => ((hfree r).mp hr).1, fun h => ?_⟩ (Set.toFinite _)
      exact ((hfree q).mp (h hq)).2 rfl

theorem inUse_iff_busy (hi : ∃ F, PmmInv zoneList P.s F P.zs) :
    (InUse query img.codeStart (img.kernelEnd - img.codeStart) P.zs P.s ∧
      InUse query img.bootAllocStart (P.s.bootAllocEnd - img.bootAllocStart) P.zs P.s) ↔
    ∀ p, img.Page query P p → P.Busy p := by
  obtain ⟨F, hi⟩ := hi
  constructor
  · rintro ⟨h1, h2⟩ p ⟨f, hf, z, hz, hb, rfl⟩
    have hn : ¬ FrameFree P.s P.zs f := hf.elim (h1 f) (h2 f)
    refine ⟨z, hz, isPage_framePage (hi.geometry z hz) hb, ?_⟩
    rw [← Bool.not_eq_false]
    exact fun h => hn ⟨z, hz, hb, h⟩
  · intro h
    have hno : ∀ f, img.Uses query P.s f → ¬ FrameFree P.s P.zs f := by
      rintro f hf ⟨z, hz, hb, hfree⟩
      exact (h _ ⟨f, hf, z, hz, hb, rfl⟩).not_free
        ⟨z, hz, isPage_framePage (hi.geometry z hz) hb, hfree⟩
    exact ⟨fun f hf => hno f (.inl hf), fun f hf => hno f (.inr hf)⟩

theorem eq_of_settles_vmInitPreheap (hs : P.Sound zoneList) (himg : img.Foreign zoneList P)
    {s' : Pmm} (h : Settles (fun n => vmInitPreheap zoneList query img n P.s) s') :
    s' = vmmInitPreheap img P.s := by
  obtain ⟨F, hi, -⟩ := (hs.vmmInitPreheap himg).inv
  obtain ⟨N, hN⟩ := h
  rcases markPagesInUse_cases hi query img.codeStart (img.kernelEnd - img.codeStart) with
    ⟨M, hM⟩ | hnone
  · have h1 := hM _ (Nat.le_max_right N M)
    have h2 := hN _ (Nat.le_max_left N M)
    simp only at h1 h2
    rw [vmInitPreheap, h1, Option.bind_eq_bind, Option.bind_some] at h2
    split at h2
    · rcases markPagesInUse_cases hi query img.bootAllocStart
        ((vmmInitPreheap img P.s).bootAllocEnd - img.bootAllocStart) with ⟨K, hK⟩ | hnone
      · have h1 := hM _ (le_trans (Nat.le_max_right N M) (Nat.le_max_left _ K))
        have h2 := hN _ (le_trans (Nat.le_max_left N M) (Nat.le_max_left _ K))
        have h3 := hK _ (Nat.le_max_right (max N M) K)
        simp only at h1 h2 h3
        rw [vmInitPreheap, h1, Option.bind_eq_bind, Option.bind_some, if_pos ‹_›, h3] at h2
        exact (Option.some.inj h2).symm
      · rw [hnone] at h2
        cases h2
    · exact (Option.some.inj h2).symm
  · have h2 := hN N le_rfl
    simp only at h2
    rw [vmInitPreheap, hnone] at h2
    cases h2

theorem settles_vmInitPreheap (hs : P.Sound zoneList) (himg : img.Foreign zoneList P)
    (hbusy : ∀ p, img.Page query P p → P.Busy p) :
    Settles (fun n => vmInitPreheap zoneList query img n P.s) (vmmInitPreheap img P.s) := by
  obtain ⟨F, hi, -⟩ := (hs.vmmInitPreheap himg).inv
  obtain ⟨hcode, hboot⟩ := (inUse_iff_busy ⟨_, hs.inv.choose_spec.1⟩).mpr hbusy
  have h2 : Settles (fun n => if img.bootAllocStart ≠ (vmmInitPreheap img P.s).bootAllocEnd then
      markPagesInUse zoneList query n (vmmInitPreheap img P.s) img.bootAllocStart
        ((vmmInitPreheap img P.s).bootAllocEnd - img.bootAllocStart)
      else some (vmmInitPreheap img P.s)) (vmmInitPreheap img P.s) := by
    split
    · exact settles_of_inUse hi hboot
    · exact .of_forall fun _ => rfl
  exact (settles_of_inUse hi hcode).bind h2

theorem protected_iff (hs : P.Sound zoneList) (himg : img.Foreign zoneList P) :
    Protected zoneList query img P ↔ ∀ p, img.Page query P p → P.Busy p := by
  have hs₁ := hs.vmmInitPreheap himg
  constructor
  · rintro ⟨s', hset, hrun⟩ p hp
    obtain rfl := eq_of_settles_vmInitPreheap hs himg hset
    refine (VmImage.page_free_or_busy hs hp).resolve_left fun hfree => ?_
    obtain ⟨Q, s'', hQ, hret⟩ := hs₁.exists_handout
      (fun c => c.newZones = [] ∧ ∀ p ∈ c.givenBack, ¬ img.Page query P p)
      ⟨rfl, fun q hq => absurd hq List.not_mem_nil⟩ hfree
    exact hrun Q hQ (.allocPage 0) trivial [p] s'' hret p List.mem_cons_self hp
  · intro hbusy
    refine ⟨_, settles_vmInitPreheap hs himg hbusy, fun Q hQ c ha got s'' hret p hp hpage => ?_⟩
    have hb : Q.Busy p := hQ.busy hs₁ (fun c hc hm => hc.2 p hm hpage) (hbusy p hpage)
    exact hb.not_free (((hQ.sound hs₁).effect ha hret).fresh p hp)

/-- `mark_pages_in_use`, and `vm_init_preheap` with it, do their work exactly when every managed
frame behind the range is flagged before the call. -/
theorem mark_pages_iff (hr : PmmReach zoneList (fun _ _ => True) P) (query : Word → Option Word) :
    (∀ va len, (∃ s', Settles (fun n => markPagesInUse zoneList query n P.s va len) s' ∧
      Marked query va len P.zs s') ↔ InUse query va len P.zs P.s) ∧
    ∀ img : VmImage, img.Foreign zoneList P → (Protected zoneList query img P ↔
      InUse query img.codeStart (img.kernelEnd - img.codeStart) P.zs P.s ∧
      InUse query img.bootAllocStart (P.s.bootAllocEnd - img.bootAllocStart) P.zs P.s) := by
  have hs := hr.sound
  obtain ⟨F, hi, -⟩ := id hs.inv
  exact ⟨fun va len => marks_iff hi query va len, fun img himg =>
    (protected_iff hs himg).trans (inUse_iff_busy ⟨F, hi⟩).symm⟩

end

/-- The first frame of the sample zone, when it is in hand, is found marked. -/
theorem mark_pages_iff_in_use : ∃ P : Snapshot, 65536 ∈ P.held ∧
    addressBelongsToZone 0x100000 (P.s.zone 4096) = true ∧
    ∃ s', Settles (fun n => markPagesInUse 64 (fun _ => some 0x100000) n P.s 0xffffffff80100000
        0x1000) s' ∧
      Marked (fun _ => some 0x100000) 0xffffffff80100000 0x1000 P.zs s' := by
  obtain ⟨P, hr, hzs, hshape, hheld⟩ := sample_held (.inl rfl)
  obtain ⟨_, _, _, hflag⟩ := hr.sound.busy 65536 hheld
  simp only [PmmZone.shape, Prod.mk.injEq] at hshape
  obtain ⟨hbase, hsize, harray⟩ := hshape
  have hb : addressBelongsToZone 0x100000 (P.s.zone 4096) = true := by
    rw [addressBelongsToZone, hbase, hsize]
    decide
  refine ⟨P, hheld, hb, ((mark_pages_iff hr fun _ => some 0x100000).1 0xffffffff80100000 0x1000).mpr ?_⟩
  rintro f ⟨k, -, pa, hq, rfl⟩ ⟨z, hz, -, hfree⟩
  rw [hzs, List.mem_singleton] at hz
  obtain rfl := Option.some.inj hq
  have hpage : framePage (P.s.zone z) (roundDown 0x100000 pageSize) = 65536 := by
    rw [framePage, hz, hbase, pageAt, harray]
    decide
  rw [hpage] at hfree
  exact Bool.false_ne_true (hfree.symm.trans hflag)

/-- One mapped page with a free frame behind it is not marked: the call faults. -/
theorem mark_free_frame_faults : ¬ ∀ P : Snapshot, PmmReach 64 (fun _ _ => True) P →
    ∀ (query : Word → Option Word) (va len : Word), 0 < len →
      ∃ s', Settles (fun n => markPagesInUse 64 query n P.s va len) s' ∧
        Marked query va len P.zs s' := by
  intro h
  obtain ⟨P, hr, hzs, hshape, hbusy⟩ := sample_zone (fun _ _ => True) trivial
  obtain ⟨F, hi, -⟩ := hr.sound.inv
  have hmark := (marks_iff hi _ _ _).mp
    (h P hr (fun _ => some 0x100000) 0xffffffff80100000 0x1000 (by decide))
  have hpages := (isPage_sample hshape).2.2
  simp only [PmmZone.shape, Prod.mk.injEq] at hshape
  have hz : (4096 : Word) ∈ P.zs := by simp [hzs]
  have hb : addressBelongsToZone 0x100000 (P.s.zone 4096) = true := by
    rw [addressBelongsToZone, hshape.1, hshape.2.1]
    decide
  have hpage := isPage_framePage (hi.geometry 4096 hz) hb
  refine hmark 0x100000 ⟨0, by decide, 0x100000, rfl, by decide⟩ ⟨4096, hz, hb, ?_⟩
  rw [← Bool.not_eq_true]
  exact fun hflag => hbusy _ ⟨4096, hz, hpage, hflag⟩

end Rix
