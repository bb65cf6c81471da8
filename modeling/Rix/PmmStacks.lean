import Rix.RangeExact
import Rix.Simulation
import Rix.Stacks

/-!
# The allocator as a row of stacks

What callers see of the six calls is a row of stacks, one for each zone in the order in which
the zones were added. The lists, the flags and the counts are how the allocator keeps it.
-/
namespace Rix
open Rings Fuel

/-- The zones as callers know them: where they lie, and which pages each would hand out next. -/
structure ZoneStacks where
  row : Stacks.Row Word Word
  zone : Word → PmmZone

/-- A call as the stacks see it. `zone` is what the object holds once it is added. -/
inductive StackCall where
  | addZone (z : Word) (zone : PmmZone)
  | allocPage
  | allocPages (count : ℕ)
  | allocRange (address : Word) (count : ℕ)
  | freePages (pages : List Word)
  | freePage (page : Word)
  | caller

/-- The pages of the frames from `a` on that lie in the zone and on its stack. -/
def rangeIn (v : PmmZone) : ℕ → Word → List Word → List Word
  | 0, _, _ => []
  | k + 1, a, fr =>
      if addressBelongsToZone a v = true ∧ framePage v a ∈ fr then
        framePage v a :: rangeIn v k (a + pageSize) (fr.erase (framePage v a))
      else []

namespace ZoneStacks

def empty : ZoneStacks := ⟨.empty, fun _ => ⟨0, 0, 0, 0⟩⟩

/-- The pages of consecutive frames, from one zone on into the next. -/
def rangeOver (T : ZoneStacks) : List Word → ℕ → Word → List Word
  | [], _, _ => []
  | z :: zs, k, a =>
      let ps := rangeIn (T.zone z) k a (T.row.stack z)
      ps ++ T.rangeOver zs (k - ps.length) (a + BitVec.ofNat 64 (4096 * ps.length))

def handOut (T : ZoneStacks) (ps : List Word) : ZoneStacks := { T with row := T.row.remove ps }

def takeBack (T : ZoneStacks) (ps : List Word) : (List Word × Option ℕ) × ZoneStacks :=
  (([], some (ps.countP fun p => T.row.keys.any fun z => pageBelongsToZone p (T.zone z))),
    { T with row := T.row.push (fun z p => pageBelongsToZone p (T.zone z)) ps })

/-- The pages that a call hands out and the number it reports, and the stacks behind it. -/
def step (T : ZoneStacks) : StackCall → (List Word × Option ℕ) × ZoneStacks
  | .addZone z v => (([], none), ⟨T.row.add z (pagesOf v), Function.update T.zone z v⟩)
  | .allocPage =>
      let ps := T.row.items.take 1
      ((ps, none), T.handOut ps)
  | .allocPages count =>
      let ps := T.row.items.take count
      ((ps, some ps.length), T.handOut ps)
  | .allocRange address count =>
      let ps := T.rangeOver T.row.keys count (roundDown address pageSize)
      ((ps, some ps.length), T.handOut ps)
  | .freePages ps => T.takeBack ps
  | .freePage p => T.takeBack [p]
  | .caller => (([], none), T)

end ZoneStacks

def PmmCall.seen (s : Pmm) : PmmCall → StackCall
  | .addZone z => .addZone z (addedZone s z)
  | .allocPage _ => .allocPage
  | .allocPages count _ _ _ => .allocPages count.toNat
  | .allocRange address count _ _ => .allocRange address count.toNat
  | .freePages _ xs => .freePages xs
  | .freePage page _ => .freePage page
  | .caller _ => .caller

def PmmCall.Reports (zoneList : Word) (P : Snapshot) (n : Option ℕ) : PmmCall → Prop
  | .allocPages count list _ page => ∃ status k s',
      Settles (fun fuel => pmmAllocPages zoneList fuel P.s count list page) (status, k, s') ∧
      n = some k.toNat
  | .allocRange address count list _ => ∃ k s',
      Settles (fun fuel => pmmAllocRange zoneList fuel P.s address count list) (k, s') ∧
      n = some k.toNat
  | .freePages head _ => ∃ k s',
      Settles (fun fuel => pmmFreePages zoneList fuel P.s head) (k, s') ∧ n = some k.toNat
  | .freePage page list => ∃ k s',
      Settles (fun fuel => pmmFreePage zoneList fuel P.s page list) (k, s') ∧ n = some k.toNat
  | _ => n = none

/-- One call, with what the stacks see of it and what it answers. -/
def PmmStep (zoneList : Word) (P : Snapshot) (e : StackCall) (o : List Word × Option ℕ)
    (Q : Snapshot) : Prop :=
  ∃ c s', e = c.seen P.s ∧ c.Admissible zoneList P ∧ c.Returns zoneList P o.1 s' ∧
    c.Reports zoneList P o.2 ∧ Q = P.after c o.1 s'

/-- The free list of every zone is its stack. -/
structure StacksHold (zoneList : Word) (T : ZoneStacks) (P : Snapshot) : Prop where
  sound : P.Sound zoneList
  keys : T.row.keys = P.zs
  shape : ∀ z ∈ P.zs, (T.zone z).shape = (P.s.zone z).shape
  ring : ∀ z ∈ P.zs, Ring P.s.heap (freePages z) (T.row.stack z)

section

variable {zoneList : Word} {P : Snapshot} {T : ZoneStacks} {F F' : Family Word} {s s' : Pmm}
  {list z a : Word} {zs xs ps : List Word}

theorem rangeIn_eq {v : PmmZone} (ps : List Word) : ∀ {k : ℕ} {a : Word} {fr : List Word},
    fr.Nodup → ps.length ≤ k →
    (∀ i (hi : i < ps.length), addressBelongsToZone (a + BitVec.ofNat 64 (4096 * i)) v = true ∧
      ps[i] = framePage v (a + BitVec.ofNat 64 (4096 * i))) →
    ps.Nodup → (∀ p ∈ ps, p ∈ fr) →
    (ps.length < k → ¬ (addressBelongsToZone (a + BitVec.ofNat 64 (4096 * ps.length)) v = true ∧
      framePage v (a + BitVec.ofNat 64 (4096 * ps.length)) ∈ fr ∧
      framePage v (a + BitVec.ofNat 64 (4096 * ps.length)) ∉ ps)) →
    rangeIn v k a fr = ps := by
  induction ps with
  | nil =>
      intro k a fr _ _ _ _ _ hstop
      cases k with
      | zero => rfl
      | succ k =>
          refine if_neg fun h => hstop (Nat.succ_pos k) ?_
          simpa using h
  | cons p ps ih =>
      intro k a fr hfr hk hat hnd hmem hstop
      obtain ⟨k, rfl⟩ : ∃ m, k = m + 1 := ⟨k - 1, by rw [List.length_cons] at hk; omega⟩
      rw [List.length_cons] at hk hstop
      obtain ⟨hb, hp⟩ := hat 0 (Nat.succ_pos _)
      simp only [Nat.mul_zero, BitVec.add_zero, List.getElem_cons_zero] at hb hp
      have hnext : ∀ i, a + BitVec.ofNat 64 (4096 * (i + 1)) =
          a + pageSize + BitVec.ofNat 64 (4096 * i) := fun i => by
        rw [Nat.mul_add, Nat.add_comm, BitVec.ofNat_add, ← BitVec.add_assoc]
        rfl
      obtain ⟨hnot, hnd⟩ := List.nodup_cons.mp hnd
      rw [rangeIn, if_pos ⟨hb, hp ▸ hmem p List.mem_cons_self⟩, ← hp]
      congr 1
      refine ih (hfr.erase p) (by omega) (fun i hi => ?_) hnd (fun q hq => ?_) fun hlt => ?_
      · have h := hat (i + 1) (Nat.succ_lt_succ hi)
        rwa [hnext, List.getElem_cons_succ] at h
      · have hne : q ≠ p := fun e => hnot (e ▸ hq)
        exact (List.mem_erase_of_ne hne).mpr (hmem q (List.mem_cons_of_mem p hq))
      · have h := hstop (by omega)
        rw [hnext] at h
        rintro ⟨hb', hin, hout⟩
        obtain ⟨hne, hin⟩ := (hfr.mem_erase_iff).mp hin
        exact h ⟨hb', hin, fun hc => (List.mem_cons.mp hc).elim hne hout⟩

/-- What the inner loop of `pmm_alloc_range` takes in one zone. -/
theorem Ranging.rangeIn_eq {count : Word} {st st' : RangeLoop} {plan : List (Word × Word)}
    {F'' : Family Word} {v : PmmZone} {fr : List Word} (hz : z ∈ zs)
    (hv : v.shape = (s.zone z).shape) (hF : F (freePages z) = some fr)
    (hr : Ranging zoneList s F zs list xs a count st plan F')
    (hr' : Ranging zoneList s F zs list xs a count st' (plan ++ ps.map fun p => (z, p)) F'')
    (hother : ∀ zp ∈ plan, zp.1 ≠ z)
    (hstop : ¬ (st'.allocated < count ∧ st'.s.FreeFrame st'.address z)) :
    rangeIn v (count.toNat - plan.length) st.address fr = ps := by
  have hi := hr.grabbed.start
  have hfree := (hi.free_eq hz hF).2
  have hbound := hr'.bound
  have hlen := hr'.allocated_toNat
  rw [List.length_append, List.length_map] at hbound hlen
  have hmem : ∀ p ∈ ps, (z, p) ∈ plan ++ ps.map fun p => (z, p) := fun p hp =>
    List.mem_append_right _ (List.mem_map_of_mem hp)
  have hpages : (plan ++ ps.map fun p => (z, p)).map Prod.snd = plan.map Prod.snd ++ ps := by
    simp
  have haddress : ∀ i, a + BitVec.ofNat 64 (4096 * (plan.length + i)) =
      st.address + BitVec.ofNat 64 (4096 * i) := fun i => by
    rw [hr.address, Nat.mul_add, BitVec.ofNat_add, ← BitVec.add_assoc]
  have hend : st.address + BitVec.ofNat 64 (4096 * ps.length) = st'.address := by
    rw [← haddress, hr'.address, List.length_append, List.length_map]
  refine Rix.rangeIn_eq ps (List.nodup_cons.mp (hi.lists.rep.ring hF).nodup).2 (by omega)
    (fun i hi => ?_) ?_ (fun p hp => (hfree p).mpr (hr'.grabbed.free _ (hmem p hp)).2) fun hlt => ?_
  · have hat : (plan ++ ps.map fun p => (z, p))[plan.length + i]? = some (z, ps[i]) := by
      rw [List.getElem?_append_right (Nat.le_add_right _ _), Nat.add_sub_cancel_left,
        List.getElem?_map, List.getElem?_eq_getElem hi]
      rfl
    rw [addressBelongsToZone_congr hv, framePage_congr hv, ← haddress]
    exact hr'.consecutive _ _ hat
  · have hnd := hr'.grabbed.nodup
    rw [hpages] at hnd
    exact (List.nodup_append.mp hnd).2.1
  · rintro ⟨hb, hin, hout⟩
    rw [addressBelongsToZone_congr hv] at hb
    rw [framePage_congr hv] at hin hout
    rw [hend] at hb hin hout
    refine hstop ⟨?_, hr'.grabbed.freeFrame_iff.mpr ⟨⟨hb, ((hfree _).mp hin).2⟩, fun hm => ?_⟩⟩
    · rw [BitVec.lt_def, hlen]
      omega
    · rw [hpages] at hm
      refine (List.mem_append.mp hm).elim (fun hm => ?_) hout
      obtain ⟨zp, hzp, hpage⟩ := List.mem_map.mp hm
      obtain ⟨hzp', hzpage, -⟩ := hr.grabbed.free zp hzp
      rw [hpage] at hzpage
      exact hother zp hzp (hi.page_zone hzp' hz hzpage ((hfree _).mp hin).1)

theorem ZoneStacks.rangeOver_zero (T : ZoneStacks) (zs : List Word) (a : Word) :
    T.rangeOver zs 0 a = [] := by
  induction zs generalizing a with
  | nil => rfl
  | cons z zs ih => simpa [rangeOver, rangeIn] using ih _

/-- `pmm_alloc_range` takes the pages that the stacks offer on the way from zone to zone. -/
theorem settles_range (hi : PmmInv zoneList s F zs) (hc : CallerHead zoneList zs list)
    (hF : F list = some xs) (hshape : ∀ z ∈ zs, (T.zone z).shape = (s.zone z).shape)
    (hstack : ∀ z ∈ zs, F (freePages z) = some (T.row.stack z)) (address count : Word) :
    ∃ plan s' F', plan.map Prod.snd = T.rangeOver zs count.toNat (roundDown address pageSize) ∧
      plan.length ≤ count.toNat ∧
      Settles (fun n => pmmAllocRange zoneList n s address count list)
        (BitVec.ofNat 64 plan.length, s') ∧
      Grabbed zoneList s F zs list xs plan s' F' := by
  by_cases hcount : count = 0
  · refine ⟨[], s, F, ?_, Nat.zero_le _, .of_forall fun n => ?_, .nil hi hF⟩
    · rw [hcount]
      exact (T.rangeOver_zero zs _).symm
    · simp [pmmAllocRange, hcount]
  have h0 : list ≠ NULL := hi.lists.notNull ⟨list, xs, hF, List.mem_cons_self⟩
  have hnd : zs.Nodup := (List.nodup_cons.mp hi.ring.nodup).2
  obtain ⟨st, hst, plan, F', hr, hplan⟩ := settles_listForEach
    (fun st : RangeLoop => st.s.heap) (fun n => allocRangeBody count list n)
    (fun rest st => ∃ us plan F', zs = us ++ rest ∧ (∀ zp ∈ plan, zp.1 ∈ us) ∧
      Ranging zoneList s F zs list xs (roundDown address pageSize) count st plan F' ∧
      plan.map Prod.snd ++ T.rangeOver rest (count.toNat - plan.length) st.address =
        T.rangeOver zs count.toNat (roundDown address pageSize))
    (fun st => ∃ plan F', Ranging zoneList s F zs list xs (roundDown address pageSize) count st plan F' ∧
      plan.map Prod.snd = T.rangeOver zs count.toNat (roundDown address pageSize))
    (by
      rintro z vs st ⟨us, plan, F', hzs, hwithin, hr, hplan⟩
      have hz : z ∈ zs := by simp [hzs]
      have hother : ∀ zp ∈ plan, zp.1 ≠ z := fun zp hzp e => by
        rw [hzs] at hnd
        exact (List.nodup_append.mp hnd).2.2 zp.1 (hwithin zp hzp) z List.mem_cons_self e
      obtain ⟨st', hloop, ⟨ps, F'', hr'⟩, hstop⟩ := hr.loopSettles_passes hc h0 hz
      obtain ⟨N, hN⟩ := hloop.settles
      have hps := Ranging.rangeIn_eq hz (hshape z hz) (hstack z hz) hr hr' hother hstop
      have haddress : st'.address = st.address + BitVec.ofNat 64 (4096 * ps.length) := by
        rw [hr'.address, hr.address, List.length_append, List.length_map, Nat.mul_add,
          BitVec.ofNat_add, BitVec.add_assoc]
      have hnext : (plan ++ ps.map fun p => (z, p)).map Prod.snd ++
          T.rangeOver vs (count.toNat - (plan ++ ps.map fun p => (z, p)).length) st'.address =
          T.rangeOver zs count.toNat (roundDown address pageSize) := by
        rw [← hplan, ZoneStacks.rangeOver, hps, haddress, List.length_append, List.length_map,
          Nat.sub_add_eq]
        simp
      have hlen := hr'.allocated_toNat
      by_cases heq : st'.allocated = count
      · refine .inr ⟨st', ⟨N, fun n hn => ?_⟩, _, F'', hr', ?_⟩
        · simp only [allocRangeBody, hN n hn, if_pos heq]
        · rw [← hlen, heq, Nat.sub_self, ZoneStacks.rangeOver_zero, List.append_nil] at hnext
          exact hnext
      · refine .inl ⟨st', ⟨N, fun n hn => ?_⟩, ⟨us ++ [z], _, F'', by simp [hzs], fun zp hzp => ?_, hr',
          hnext⟩, hr'.grabbed.inv.next_zone hzs⟩
        · simp only [allocRangeBody, hN n hn, if_neg heq]
        · rcases List.mem_append.mp hzp with hzp | hzp
          · exact List.mem_append_left _ (hwithin zp hzp)
          · obtain ⟨p, -, rfl⟩ := List.mem_map.mp hzp
            simp)
    (by
      rintro st ⟨us, plan, F', -, -, hr, hplan⟩
      exact ⟨plan, F', hr, by simpa [ZoneStacks.rangeOver] using hplan⟩)
    (s := ⟨s, roundDown address pageSize, 0⟩)
    ⟨[], [], F, rfl, by simp, ⟨.nil hi hF, fun _ _ h => by simp at h, by simp, Nat.zero_le _, rfl⟩,
      by simp⟩
    hi.ring.next_head hi.notMem_zones
  refine ⟨plan, st.s, F', hplan, hr.bound, ?_, hr.grabbed⟩
  obtain ⟨N, hN⟩ := hst
  refine ⟨N, fun n hn => ?_⟩
  simp only [pmmAllocRange, if_neg hcount, hN n hn, ← hr.allocated, Option.map_some]

theorem StacksHold.stack (h : StacksHold zoneList T P) (hi : PmmInv zoneList P.s F P.zs)
    (hz : z ∈ P.zs) : F (freePages z) = some (T.row.stack z) := by
  obtain ⟨fr, hF, -⟩ := hi.free z hz
  rw [hF, (h.ring z hz).unique (hi.lists.rep.ring hF)]

theorem StacksHold.items (h : StacksHold zoneList T P)
    (hstack : ∀ z ∈ P.zs, F (freePages z) = some (T.row.stack z)) :
    (freeOf F P.zs).map Prod.snd = T.row.items := by
  rw [freeOf, List.map_flatMap, Stacks.Row.items, h.keys]
  refine List.flatMap_congr fun z hz => ?_
  rw [hstack z hz, Option.getD_some, List.map_map]
  exact List.map_id _

theorem Grabbed.ring_handOut {plan : List (Word × Word)}
    (hg : Grabbed zoneList s F zs list xs plan s' F') (hz : z ∈ zs)
    (hstack : F (freePages z) = some (T.row.stack z)) :
    Ring s'.heap (freePages z) ((T.handOut (plan.map Prod.snd)).row.stack z) := by
  obtain ⟨fr, hF, hF'⟩ := hg.rest z hz
  obtain rfl : T.row.stack z = fr := Option.some.inj (hstack.symm.trans hF)
  exact hg.inv.lists.rep.ring hF'

theorem Freed.ring_takeBack (hf : Freed zoneList s F zs list xs [] s' F') (hz : z ∈ zs)
    (hshape : (T.zone z).shape = (s.zone z).shape)
    (hstack : F (freePages z) = some (T.row.stack z)) :
    Ring s'.heap (freePages z) ((T.takeBack xs).2.row.stack z) := by
  obtain ⟨fr, hF, hF'⟩ := hf.back z hz
  obtain rfl : T.row.stack z = fr := Option.some.inj (hstack.symm.trans hF)
  have h := hf.inv.lists.rep.ring hF'
  simp only [← pageBelongsToZone_congr hshape] at h
  exact h

theorem StacksHold.countP_claimed (h : StacksHold zoneList T P) (ps : List Word) :
    (ps.countP fun p => T.row.keys.any fun z => pageBelongsToZone p (T.zone z)) =
      ps.countP (claimed P.s P.zs) := by
  congr 1
  funext p
  rw [h.keys, claimed]
  refine Bool.eq_iff_iff.mpr ?_
  rw [List.any_eq_true, List.any_eq_true]
  refine exists_congr fun z => and_congr_right fun hz => ?_
  rw [pageBelongsToZone_congr (h.shape z hz)]

/-- The call returns and reports what the stacks answer, and leaves their next state. -/
def Answers (zoneList : Word) (T : ZoneStacks) (P : Snapshot) (c : PmmCall) : Prop :=
  ∃ s', c.Returns zoneList P (T.step (c.seen P.s)).1.1 s' ∧
    c.Reports zoneList P (T.step (c.seen P.s)).1.2 ∧
    ∀ z ∈ P.zs ++ c.newZones, Ring s'.heap (freePages z) ((T.step (c.seen P.s)).2.row.stack z)

theorem StacksHold.answers_addZone (h : StacksHold zoneList T P) (ha : P.ZoneOffer zoneList z) :
    Answers zoneList T P (.addZone z) := by
  obtain ⟨F, hi, ho⟩ := h.sound.inv
  have hf := freshZone_of_offer hi ho ha
  obtain ⟨s', hset, hadded⟩ := settles_pmmAddZone hi.lists hi.zones ha.size_pos hf
  refine ⟨s', ⟨rfl, _, hset⟩, rfl, fun w hw => ?_⟩
  have hring : ∀ {fr}, zoneFamily zoneList P.s F P.zs z (frames (P.s.zone z)) (freePages w) = some fr →
      Ring s'.heap (freePages w) fr := fun hF => hadded.lists.rep.ring hF
  simp only [PmmCall.seen, ZoneStacks.step, Stacks.Row.add]
  rcases List.mem_append.mp hw with hw | hw
  · have hne := hi.ne_fresh hf w hw
    rw [Function.update_of_ne hne]
    refine hring ?_
    rw [zoneFamily, Function.update_of_ne fun e => hne (freePages_inj e),
      Function.update_of_ne (hi.heads w hw), h.stack hi hw]
  · obtain rfl := List.mem_singleton.mp hw
    rw [Function.update_self]
    exact hring (Function.update_self ..)

theorem StacksHold.answers_allocPage (h : StacksHold zoneList T P) (out : Word) :
    Answers zoneList T P (.allocPage out) := by
  obtain ⟨F, hi, -⟩ := h.sound.inv
  have hset := settles_pmmAllocPage hi out
  have hfree := free_iff hi
  have hitems := h.items fun z hz => h.stack hi hz
  simp only [Answers, PmmCall.seen, ZoneStacks.step, PmmCall.newZones, List.append_nil]
  cases hF : freeOf F P.zs with
  | nil =>
      rw [hF] at hset hfree hitems
      have hno : ¬ ∃ p, P.Free p := fun he => hfree.mp he rfl
      rw [← hitems]
      refine ⟨P.s, ⟨_, out, hset, fun he => absurd he hno, fun _ => rfl⟩, rfl, fun z hz => ?_⟩
      simpa [ZoneStacks.handOut, Stacks.Row.remove] using h.ring z hz
  | cons zp more =>
      obtain ⟨z, p⟩ := zp
      rw [hF] at hset hfree hitems
      have hyes : ∃ p, P.Free p := hfree.mpr (List.cons_ne_nil _ _)
      obtain ⟨hz, fr, hfr, hp⟩ := mem_freeOf.mp (show (z, p) ∈ freeOf F P.zs by simp [hF])
      rw [← hitems]
      refine ⟨P.s.take z p, ⟨_, p, hset, fun _ => rfl, fun he => absurd hyes he⟩, rfl, fun w hw => ?_⟩
      have hrep := (hi.take hz hfr hp).1.lists.rep
      simp only [ZoneStacks.handOut, Stacks.Row.remove, List.map_cons, List.take_succ_cons,
        List.take_zero, List.mem_singleton]
      have hFw := h.stack hi hw
      by_cases hwz : w = z
      · subst hwz
        obtain rfl : T.row.stack w = fr := Option.some.inj (hFw.symm.trans hfr)
        have hnd := (List.nodup_cons.mp (h.ring w hw).nodup).2
        have hring := hrep.ring (Function.update_self ..)
        have hkept : (T.row.stack w).erase p = (T.row.stack w).filter fun q => decide ¬ q = p := by
          rw [hnd.erase_eq_filter]
          refine List.filter_congr fun q _ => ?_
          rw [Bool.eq_iff_iff, bne_iff_ne, decide_eq_true_eq]
        rwa [hkept] at hring
      · have hring : Ring (P.s.take z p).heap (freePages w) (T.row.stack w) := hrep.ring
          ((Function.update_of_ne (fun e => hwz (freePages_inj e)) _ _).trans hFw)
        -- no page stands on two stacks
        have hkept : (T.row.stack w).filter (fun q => decide ¬ q = p) = T.row.stack w :=
          List.filter_eq_self.mpr fun q hq => decide_eq_true fun e : q = p =>
            hwz (hi.page_zone hw hz (((hi.free_eq hw hFw).2 q).mp hq).1
              (e ▸ (((hi.free_eq hz hfr).2 p).mp hp).1))
        rwa [hkept]

theorem StacksHold.stack_adjoin (h : StacksHold zoneList T P) (hi : PmmInv zoneList P.s F P.zs)
    (hc : CallerHead zoneList P.zs list) (v : Option (List Word)) :
    ∀ z ∈ P.zs, Function.update F list v (freePages z) = some (T.row.stack z) := fun z hz => by
  rw [Function.update_of_ne (hc.2 z hz).symm, h.stack hi hz]

theorem StacksHold.answers_allocPages (h : StacksHold zoneList T P) {count : BitVec 32} {page : Word}
    (ha : (PmmCall.allocPages count list xs page).Admissible zoneList P) :
    Answers zoneList T P (.allocPages count list xs page) := by
  obtain ⟨F, hi, ho⟩ := h.sound.inv
  obtain ⟨hx, hone⟩ := ha
  have hstack := h.stack_adjoin hi hx.callerHead (some xs)
  have hitems := h.items hstack
  have hF : Function.update F list (some xs) list = some xs := Function.update_self ..
  obtain ⟨plan, s', F', hplan, hset, hg⟩ := settles_pmmAllocPages (hi.adjoin ho hx) hx.callerHead hF
    count page fun hcount => by
      have hsome := (free_iff hi).mp (hone hcount)
      have hne : T.row.items ≠ [] := by
        rw [← h.items fun z hz => h.stack hi hz]
        simpa using hsome
      rw [← hitems] at hne
      simpa using hne
  have hpages : plan.map Prod.snd = T.row.items.take count.toNat := by
    rw [hplan, List.map_take, hitems]
  have hlen : (T.row.items.take count.toNat).length = plan.length := by
    rw [← hpages, List.length_map]
  simp only [Answers, PmmCall.seen, ZoneStacks.step, PmmCall.newZones, List.append_nil]
  refine ⟨s', ⟨hpages ▸ hg.inv.lists.rep.ring hg.caller, _, _, hset⟩, ⟨_, _, s', hset, ?_⟩,
    fun z hz => ?_⟩
  · have hle : plan.length ≤ count.toNat := by
      rw [hplan, List.length_take]
      exact Nat.min_le_left _ _
    rw [hlen, BitVec.toNat_ofNat, Nat.mod_eq_of_lt (lt_of_le_of_lt hle count.isLt)]
  · rw [← hpages]
    exact hg.ring_handOut hz (hstack z hz)

theorem StacksHold.answers_allocRange (h : StacksHold zoneList T P) {address count : Word}
    (ha : P.CallerList zoneList list xs) :
    Answers zoneList T P (.allocRange address count list xs) := by
  obtain ⟨F, hi, ho⟩ := h.sound.inv
  have hstack := h.stack_adjoin hi ha.callerHead (some xs)
  have hF : Function.update F list (some xs) list = some xs := Function.update_self ..
  obtain ⟨plan, s', F', hpages, hle, hset, hg⟩ := settles_range (hi.adjoin ho ha) ha.callerHead hF
    h.shape hstack address count
  rw [← h.keys] at hpages
  simp only [Answers, PmmCall.seen, ZoneStacks.step, PmmCall.newZones, List.append_nil]
  rw [← hpages]
  refine ⟨s', ⟨hg.inv.lists.rep.ring hg.caller, _, hset⟩, ⟨_, s', hset, ?_⟩, fun z hz => ?_⟩
  · rw [List.length_map, BitVec.toNat_ofNat, Nat.mod_eq_of_lt (lt_of_le_of_lt hle count.isLt)]
  · exact hg.ring_handOut hz (hstack z hz)

theorem toNat_countP (hlen : xs.length < 2 ^ 64) (f : Word → Bool) :
    (BitVec.ofNat 64 (xs.countP f)).toNat = xs.countP f := by
  have hle := List.countP_le_length (p := f) (l := xs)
  rw [BitVec.toNat_ofNat, Nat.mod_eq_of_lt (by omega)]

theorem StacksHold.answers_freePages (h : StacksHold zoneList T P) {head : Word}
    (ha : (PmmCall.freePages head xs).Admissible zoneList P) :
    Answers zoneList T P (.freePages head xs) := by
  obtain ⟨F, hi, ho⟩ := h.sound.inv
  obtain ⟨hx, hheld⟩ := ha
  have hstack := h.stack_adjoin hi hx.callerHead (some xs)
  have hF : Function.update F head (some xs) head = some xs := Function.update_self ..
  have hadj := hi.adjoin ho hx
  obtain ⟨s', F', hset, hf⟩ := settles_pmmFreePages hadj hx.callerHead hF fun p hp => by
    obtain ⟨z, hz, hpage, -⟩ := h.sound.busy p (hheld p hp)
    exact ⟨z, hz, hpage⟩
  simp only [Answers, PmmCall.seen, ZoneStacks.step, PmmCall.newZones, List.append_nil]
  refine ⟨s', ⟨rfl, _, hset⟩, ⟨_, s', hset, ?_⟩, fun z hz => ?_⟩
  · rw [toNat_countP (hadj.lists.length_lt hF), ← h.countP_claimed]
    rfl
  · exact hf.ring_takeBack hz (h.shape z hz) (hstack z hz)

theorem StacksHold.answers_freePage (h : StacksHold zoneList T P) {page : Word}
    (ha : (PmmCall.freePage page list).Admissible zoneList P) :
    Answers zoneList T P (.freePage page list) := by
  obtain ⟨F, hi, ho⟩ := h.sound.inv
  obtain ⟨hheld, hne, hl, h0⟩ := ha
  have hb := h.sound.busy page hheld
  have hun := fun {y} => (linked_iff_owned (x := y) hi ho).not
  have hc := callerHead_of_not_owned hl
  obtain ⟨z, hz, hpage, -⟩ := id hb
  obtain ⟨s₀, F₀, s', F', hset, ⟨hz₀, -, rfl⟩, hf⟩ := settles_pmmFreePage hi hc (hun.mpr hl) h0
    (hun.mpr (hi.not_owned_of_busy hb)) hne ⟨z, hz, hpage⟩
  simp only [Answers, PmmCall.seen, ZoneStacks.step, PmmCall.newZones, List.append_nil]
  refine ⟨s', ⟨rfl, _, hset⟩, ⟨_, s', hset, ?_⟩, fun w hw => ?_⟩
  · rw [toNat_countP (by simp), ← h.countP_claimed]
    rfl
  · exact hf.ring_takeBack hw (by rw [hz₀]; exact h.shape w hw) (h.stack_adjoin hi hc _ w hw)

theorem StacksHold.answers_caller (h : StacksHold zoneList T P) (hm : P.CallerMoves zoneList s') :
    Answers zoneList T P (.caller s') := by
  simp only [Answers, PmmCall.seen, ZoneStacks.step, PmmCall.newZones, List.append_nil]
  refine ⟨s', ⟨rfl, rfl⟩, rfl, fun z hz => (h.ring z hz).congr fun x hx => hm.heap x ?_⟩
  obtain ⟨F, hi, ho⟩ := h.sound.inv
  exact (linked_iff_owned hi ho).mp ⟨_, _, h.stack hi hz, hx⟩

theorem StacksHold.answers (h : StacksHold zoneList T P) {c : PmmCall}
    (ha : c.Admissible zoneList P) : Answers zoneList T P c := by
  cases c with
  | addZone z => exact h.answers_addZone ha
  | allocPage out => exact h.answers_allocPage out
  | allocPages count list xs page => exact h.answers_allocPages ha
  | allocRange address count list xs => exact h.answers_allocRange ha
  | freePages head xs => exact h.answers_freePages ha
  | freePage page list => exact h.answers_freePage ha
  | caller s' => exact h.answers_caller ha

theorem PmmCall.Reports.unique {c : PmmCall} {n m : Option ℕ} (h : c.Reports zoneList P n)
    (h' : c.Reports zoneList P m) : n = m := by
  cases c with
  | allocPages count list xs page =>
      obtain ⟨_, k, _, hset, rfl⟩ := h
      obtain ⟨_, k', _, hset', rfl⟩ := h'
      rw [(Prod.mk.inj (Prod.mk.inj (hset.unique hset')).2).1]
  | allocRange address count list xs =>
      obtain ⟨k, _, hset, rfl⟩ := h
      obtain ⟨k', _, hset', rfl⟩ := h'
      rw [(Prod.mk.inj (hset.unique hset')).1]
  | freePages head xs | freePage page list =>
      obtain ⟨k, _, hset, rfl⟩ := h
      obtain ⟨k', _, hset', rfl⟩ := h'
      rw [(Prod.mk.inj (hset.unique hset')).1]
  | addZone z | allocPage out | caller s' => exact h.trans h'.symm

theorem ZoneStacks.keys_step (T : ZoneStacks) (s : Pmm) (c : PmmCall) :
    (T.step (c.seen s)).2.row.keys = T.row.keys ++ c.newZones := by
  cases c with
  | addZone z => rfl
  | _ => exact (List.append_nil _).symm

theorem StacksHold.shape_step (h : StacksHold zoneList T P) {c : PmmCall} {got : List Word}
    (ha : c.Admissible zoneList P) (he : Effect zoneList P c got s') :
    ∀ z ∈ P.zs ++ c.newZones, ((T.step (c.seen P.s)).2.zone z).shape = (s'.zone z).shape := by
  intro w hw
  have hold : w ∈ P.zs → (T.zone w).shape = (s'.zone w).shape := fun hw =>
    (h.shape w hw).trans (he.shape w hw).symm
  cases c with
  | addZone z =>
      simp only [PmmCall.seen, ZoneStacks.step]
      rcases List.mem_append.mp hw with hw | hw
      · have hne : w ≠ z := fun e => ha.node.1 (.inl (List.mem_cons_of_mem _ (e ▸ hw)))
        rw [Function.update_of_ne hne]
        exact hold hw
      · obtain rfl := List.mem_singleton.mp hw
        rw [Function.update_self, he.added w List.mem_cons_self]
  | _ => exact hold (by simpa [PmmCall.newZones] using hw)

/-- The stacks name the pages that a call hands out, and hold behind it. -/
theorem StacksHold.after (h : StacksHold zoneList T P) {c : PmmCall} (ha : c.Admissible zoneList P)
    {got : List Word} (hret : c.Returns zoneList P got s') :
    (T.step (c.seen P.s)).1.1 = got ∧
      StacksHold zoneList (T.step (c.seen P.s)).2 (P.after c got s') := by
  obtain ⟨s'', hret', -, hring⟩ := h.answers ha
  obtain ⟨hgot, rfl⟩ := hret.unique hret'
  have he := h.sound.effect ha hret
  refine ⟨hgot.symm, h.sound.after he, ?_, h.shape_step ha he, hring⟩
  rw [T.keys_step, h.keys]
  rfl

/-- Every call is answered as the stacks answer it. -/
theorem simulates_stacks (zoneList : Word) :
    Simulation.Simulates (StacksHold zoneList) (PmmStep zoneList) ZoneStacks.step := by
  rintro T P e o Q h ⟨c, s', rfl, ha, hret, hrep, rfl⟩
  obtain ⟨hgot, h'⟩ := h.after ha hret
  obtain ⟨-, -, hrep', -⟩ := h.answers ha
  exact ⟨Prod.ext hgot (hrep'.unique hrep), h'⟩

theorem stacksHold_empty (hnull : zoneList ≠ NULL) (hnext : s.heap.next zoneList = zoneList)
    (hprev : s.heap.prev zoneList = zoneList) : StacksHold zoneList .empty ⟨s, [], []⟩ where
  sound := (PmmReach.init s hnull hnext hprev : PmmReach zoneList (fun _ _ => True) _).sound
  keys := rfl
  shape := fun _ hz => absurd hz List.not_mem_nil
  ring := fun _ hz => absurd hz List.not_mem_nil

theorem StacksHold.exists_step (h : StacksHold zoneList T P) {c : PmmCall}
    (ha : c.Admissible zoneList P) :
    ∃ Q, PmmStep zoneList P (c.seen P.s) (T.step (c.seen P.s)).1 Q := by
  obtain ⟨s', hret, hrep, -⟩ := h.answers ha
  exact ⟨_, c, s', rfl, ha, hret, hrep, rfl⟩

/-- In every run from an empty list of zones, all calls answer what the row of stacks answers:
the same pages in the same order and the same numbers. At every point of it the free list of each
zone is its stack, and the next admissible call returns. -/
theorem pmm_refines_stacks (hnull : zoneList ≠ NULL) (hnext : s.heap.next zoneList = zoneList)
    (hprev : s.heap.prev zoneList = zoneList) {es : List StackCall}
    {os : List (List Word × Option ℕ)}
    (hr : Simulation.Run (PmmStep zoneList) ⟨s, [], []⟩ es os P) :
    os = (Simulation.run ZoneStacks.step .empty es).1 ∧
    (∀ z ∈ P.zs, Ring P.s.heap (freePages z)
      ((Simulation.run ZoneStacks.step .empty es).2.row.stack z)) ∧
    ∀ c : PmmCall, c.Admissible zoneList P → ∃ Q, PmmStep zoneList P (c.seen P.s)
      ((Simulation.run ZoneStacks.step .empty es).2.step (c.seen P.s)).1 Q := by
  obtain ⟨hos, h⟩ := (simulates_stacks zoneList).run (stacksHold_empty hnull hnext hprev) hr
  exact ⟨hos.symm, h.ring, fun c ha => h.exists_step ha⟩

end

section

variable {zoneList : Word} {P : Snapshot} {T : ZoneStacks}

theorem Snapshot.Sound.exists_stacks (hs : P.Sound zoneList) : ∃ T, StacksHold zoneList T P := by
  obtain ⟨F, hi, -⟩ := id hs.inv
  refine ⟨⟨⟨P.zs, fun z => (F (freePages z)).getD []⟩, P.s.zone⟩, hs, rfl, fun _ _ => rfl,
    fun z hz => ?_⟩
  obtain ⟨fr, hF, -⟩ := hi.free z hz
  show Ring P.s.heap (freePages z) ((F (freePages z)).getD [])
  rw [hF]
  exact hi.lists.rep.ring hF

def Snapshot.EarlierFree (P : Snapshot) (p : Word) : Prop :=
  ∃ us w vs, P.zs = us ++ w :: vs ∧ IsPage (P.s.zone w) p ∧
    ∃ z ∈ us, ∃ q, IsPage (P.s.zone z) q ∧ P.Free q

theorem StacksHold.mem_stack (h : StacksHold zoneList T P) {z q : Word}
    (hz : z ∈ P.zs) (hq : q ∈ T.row.stack z) : IsPage (P.s.zone z) q ∧ P.Free q := by
  obtain ⟨F, hi, -⟩ := h.sound.inv
  obtain ⟨hpage, hflag⟩ := ((hi.free_eq hz (h.stack hi hz)).2 q).mp hq
  exact ⟨hpage, z, hz, hpage, hflag⟩

theorem StacksHold.stack_of_free (h : StacksHold zoneList T P) {z q : Word}
    (hz : z ∈ P.zs) (hpage : IsPage (P.s.zone z) q) (hq : P.Free q) : q ∈ T.row.stack z := by
  obtain ⟨F, hi, -⟩ := h.sound.inv
  obtain ⟨w, hw, hpage', hflag⟩ := hq
  obtain rfl := hi.page_zone hz hw hpage hpage'
  exact ((hi.free_eq hz (h.stack hi hz)).2 q).mpr ⟨hpage, hflag⟩

theorem StacksHold.items_takeBack (h : StacksHold zoneList T P) (p : Word) :
    (T.takeBack [p]).2.row.items =
      P.zs.flatMap fun z => (if pageBelongsToZone p (P.s.zone z) = true then [p] else []) ++
        T.row.stack z := by
  rw [Stacks.Row.items, show (T.takeBack [p]).2.row.keys = P.zs from h.keys]
  refine List.flatMap_congr fun z hz => ?_
  simp only [ZoneStacks.takeBack, Stacks.Row.push, List.filter_cons, List.filter_nil,
    pageBelongsToZone_congr (h.shape z hz)]
  split <;> rfl

theorem flatMap_unclaimed {zs : List Word} {p : Word}
    (hn : ∀ z ∈ zs, ¬ pageBelongsToZone p (P.s.zone z) = true) :
    (zs.flatMap fun z => (if pageBelongsToZone p (P.s.zone z) = true then [p] else []) ++
      T.row.stack z) = zs.flatMap T.row.stack :=
  List.flatMap_congr fun z hz => by rw [if_neg (hn z hz), List.nil_append]

theorem StacksHold.items_takeBack_found (h : StacksHold zoneList T P) {p w : Word} {us vs : List Word}
    (hzs : P.zs = us ++ w :: vs) (hpage : IsPage (P.s.zone w) p)
    (hw : pageBelongsToZone p (P.s.zone w) = true) :
    ∃ more, (T.takeBack [p]).2.row.items = us.flatMap T.row.stack ++ p :: more := by
  obtain ⟨F, hi, -⟩ := h.sound.inv
  have hnd := (List.nodup_cons.mp hi.ring.nodup).2
  have hne : ∀ z ∈ us, ¬ pageBelongsToZone p (P.s.zone z) = true := fun z hz hb => by
    have e := hi.claimed_zone (by simp [hzs]) (by simp [hzs, hz]) hpage hb
    rw [hzs] at hnd
    exact (List.nodup_append.mp hnd).2.2 z hz w List.mem_cons_self e
  rw [h.items_takeBack, hzs, List.flatMap_append, flatMap_unclaimed hne, List.flatMap_cons, if_pos hw]
  exact ⟨_, rfl⟩

theorem StacksHold.earlierFree_iff (h : StacksHold zoneList T P) {p w : Word} {us vs : List Word}
    (hzs : P.zs = us ++ w :: vs) (hpage : IsPage (P.s.zone w) p) :
    P.EarlierFree p ↔ us.flatMap T.row.stack ≠ [] := by
  obtain ⟨F, hi, -⟩ := h.sound.inv
  have hus : ∀ z ∈ us, z ∈ P.zs := fun z hz => by simp [hzs, hz]
  constructor
  · rintro ⟨us', w', vs', hzs', hpage', z, hz, q, hq, hfree⟩
    obtain rfl := hi.page_zone (by simp [hzs']) (by simp [hzs]) hpage' hpage
    have hnd := (List.nodup_cons.mp hi.ring.nodup).2
    rw [hzs', List.nodup_append, List.nodup_cons] at hnd
    obtain rfl : us' = us := ((List.append_cons_inj_of_notMem
      (fun hm => hnd.2.2 w' hm w' List.mem_cons_self rfl) hnd.2.1.1).mp (hzs'.symm.trans hzs)).1
    exact List.ne_nil_of_mem (List.mem_flatMap.mpr ⟨z, hz, h.stack_of_free (hus z hz) hq hfree⟩)
  · intro hsome
    obtain ⟨q, hq⟩ := List.exists_mem_of_ne_nil _ hsome
    obtain ⟨z, hz, hq⟩ := List.mem_flatMap.mp hq
    obtain ⟨hqpage, hfree⟩ := h.mem_stack (hus z hz) hq
    exact ⟨us, w, vs, hzs, hpage, z, hz, q, hqpage, hfree⟩

theorem StacksHold.notMem_items (h : StacksHold zoneList T P) {p : Word} (hb : P.Busy p)
    {zs : List Word} (hzs : ∀ z ∈ zs, z ∈ P.zs) : p ∉ zs.flatMap T.row.stack := by
  intro hp
  obtain ⟨z, hz, hp⟩ := List.mem_flatMap.mp hp
  exact hb.not_free (h.mem_stack (hzs z hz) hp).2

theorem StacksHold.take_takeBack (h : StacksHold zoneList T P) {p : Word} (hb : P.Busy p) :
    (T.takeBack [p]).2.row.items.take 1 = [p] ↔ P.Findable p ∧ ¬ P.EarlierFree p := by
  obtain ⟨F, hi, -⟩ := id h.sound.inv
  have hclaimed := hi.claimed_iff hb
  by_cases hf : P.Findable p
  · obtain ⟨w, hw, hbw⟩ := claimed_eq_true.mp (hclaimed.mpr hf)
    obtain ⟨v, hv, hpage, -⟩ := id hb
    have hpage' : IsPage (P.s.zone w) p := hi.claimed_zone hv hw hpage hbw ▸ hpage
    obtain ⟨us, vs, hzs⟩ := List.append_of_mem hw
    obtain ⟨more, hitems⟩ := h.items_takeBack_found hzs hpage' hbw
    rw [hitems, h.earlierFree_iff hzs hpage', not_not, and_iff_right hf]
    have hnot : p ∉ us.flatMap T.row.stack := h.notMem_items hb fun z hz => by simp [hzs, hz]
    cases hflat : us.flatMap T.row.stack with
    | nil => simp
    | cons q more =>
        have hqp : q ≠ p := fun e => hnot (hflat ▸ e ▸ List.mem_cons_self)
        simp [hqp]
  · have hn : ∀ z ∈ P.zs, ¬ pageBelongsToZone p (P.s.zone z) = true := fun z hz hbz =>
      hf (hclaimed.mp (claimed_eq_true.mpr ⟨z, hz, hbz⟩))
    rw [h.items_takeBack, flatMap_unclaimed hn]
    refine iff_of_false (fun htake => ?_) fun hc => hf hc.1
    have hmem : p ∈ (P.zs.flatMap T.row.stack).take 1 := htake ▸ List.mem_cons_self
    exact h.notMem_items hb (fun _ hz => hz) (List.mem_of_mem_take hmem)

/-- In every reachable state, `pmm_alloc_page` behind `pmm_free_page` gives the same page again
exactly when the page is found and no zone before its own has a free one. -/
theorem freed_page_next_iff {ok : Snapshot → PmmCall → Prop} (hr : PmmReach zoneList ok P)
    {page list out : Word} (ha : (PmmCall.freePage page list).Admissible zoneList P) {s' s'' : Pmm}
    (hret : (PmmCall.freePage page list).Returns zoneList P [] s') {got : List Word}
    (hnext : (PmmCall.allocPage out).Returns zoneList (P.after (.freePage page list) [] s') got s'') :
    got = [page] ↔ P.Findable page ∧ ¬ P.EarlierFree page := by
  obtain ⟨T, h⟩ := hr.sound.exists_stacks
  have h' := (h.after ha hret).2
  have hgot := (h'.after (c := .allocPage out) trivial hnext).1
  rw [← h.take_takeBack (hr.sound.busy page ha.1), ← hgot]
  rfl

end

/-- The zone of two frames as the object holds it once it is added. -/
def sampleAdded : PmmZone := ⟨0x100000, 8192, 65536, 2⟩

/-- Of two fresh pages the lower one is handed out first. -/
theorem pmm_refines_stacks_sample : ∃ P, Simulation.Run (PmmStep 64) sampleStart
    [.addZone 4096 sampleAdded, .allocPage] [([], none), ([65536], none)] P := by
  have hnull : (64 : Word) ≠ NULL := by decide
  obtain ⟨-, -, h₀⟩ := pmm_refines_stacks hnull rfl rfl (.nil sampleStart)
  obtain ⟨P, hadd⟩ := h₀ (.addZone 4096) sampleStart_offer
  obtain ⟨-, -, h₁⟩ := pmm_refines_stacks hnull rfl rfl (.cons hadd (.nil P))
  obtain ⟨Q, htake⟩ := h₁ (.allocPage 0) trivial
  exact ⟨Q, .cons hadd (.cons htake (.nil Q))⟩

/-- The second page of the sample zone is not found. -/
theorem freed_page_next_iff_sample : ∃ (P : Snapshot) (s' s'' : Pmm) (got : List Word),
    (PmmCall.freePage 65560 128).Returns 64 P [] s' ∧
    (PmmCall.allocPage 0).Returns 64 (P.after (.freePage 65560 128) [] s') got s'' ∧
    got ≠ [65560] := by
  obtain ⟨P, hr, hlist, hheld, hfind⟩ := sample_listed
  obtain ⟨hl, h0⟩ := hlist.foreign 128 List.mem_cons_self
  have ha : (PmmCall.freePage 65560 128).Admissible 64 P := ⟨hheld, by decide, hl, h0⟩
  obtain ⟨got, s', hret, he⟩ := hr.sound.exists_effect ha
  obtain rfl : got = [] := hret.1
  have hadmissible : ∀ Q, (PmmCall.allocPage 0).Admissible 64 Q := fun _ => trivial
  obtain ⟨got, s'', hnext, -⟩ := (hr.sound.after he).exists_effect (hadmissible _)
  exact ⟨P, s', s'', got, hret, hnext,
    fun e => hfind ((freed_page_next_iff hr ha hret hnext).mp e).1⟩

end Rix
