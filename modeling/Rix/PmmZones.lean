import Rix.PmmInvariant

/-!
# Adding a zone

`pmm_add_zone` links the zone, gets its page array from the boot allocator, clears
it, and as much memory behind it, and links every entry to the free list. The index of
the last loop has 32 bits, so the function does not return for a zone of `2^32` frames
or more.
-/
namespace Rix
open Rings Fuel

def nextArray (s : Pmm) : Word := roundUp s.bootAllocEnd 8

/-- The address lies in the page array that the zone is about to get. -/
def InNextArray (s : Pmm) (z x : Word) : Prop :=
  (nextArray s).toNat ≤ x.toNat ∧ x.toNat < (nextArray s).toNat + 24 * frames (s.zone z)

/-- The address lies in that array or in the memory behind it that `memset` clears as well. -/
def InCleared (s : Pmm) (z x : Word) : Prop :=
  (nextArray s).toNat ≤ x.toNat ∧ x.toNat < (nextArray s).toNat + 48 * frames (s.zone z)

theorem InNextArray.cleared {s : Pmm} {z x : Word} (h : InNextArray s z x) : InCleared s z x := by
  obtain ⟨h1, h2⟩ := h
  exact ⟨h1, by omega⟩

/-- A zone object in no list whose page array will take memory that no list uses. -/
structure FreshZone (s : Pmm) (F : Family Word) (z : Word) : Prop where
  node : ¬ Linked F z ∧ z ≠ NULL ∧ ¬ InCleared s z z
  head : ¬ Linked F (freePages z) ∧ freePages z ≠ NULL ∧ ¬ InCleared s z (freePages z)
  frames_lt : frames (s.zone z) < 2 ^ 32
  array_pos : 0 < (nextArray s).toNat
  cleared_top : (nextArray s).toNat + 48 * frames (s.zone z) ≤ 2 ^ 64
  array : ∀ {x}, Linked F x → ¬ InCleared s z x

/-- The state in which the last loop of `pmm_add_zone` starts. -/
def zoneCleared (zoneList : Word) (s : Pmm) (z : Word) : Pmm :=
  let frameCount := zoneFrameCount (s.zone z)
  memsetZero
    { heap := listInit (listAddTail s.heap zoneList z) (freePages z)
      zone := fun w => if w = z then { s.zone z with freeCount := 0, pageArray := nextArray s }
        else s.zone w
      flags := s.flags
      bootAllocEnd := nextArray s + roundUp (frameCount * sizeofVmPage) 8 }
    (nextArray s) (frameCount * sizeofVmPage)

theorem zoneCleared_zone (zoneList : Word) (s : Pmm) (z : Word) :
    (zoneCleared zoneList s z).zone z =
      { s.zone z with freeCount := 0, pageArray := nextArray s } := if_pos rfl

def newPage (s : Pmm) (i : Nat) : Word := nextArray s + BitVec.ofNat 64 i * sizeofVmPage

def newPages (s : Pmm) (n : Nat) : List Word := (List.range n).map (newPage s)

theorem newPages_succ (s : Pmm) (n : Nat) : newPages s (n + 1) = newPages s n ++ [newPage s n] := by
  simp [newPages, List.range_succ]

def zoneFamily (zoneList : Word) (s : Pmm) (F : Family Word) (zs : List Word) (z : Word)
    (n : Nat) : Family Word :=
  Function.update (Function.update F zoneList (some (zs ++ [z]))) (freePages z)
    (some (newPages s n))

theorem pmmAddZone_eq {zoneList : Word} {s : Pmm} {z : Word} (hsize : (s.zone z).size > 0)
    (fuel : Nat) :
    pmmAddZone zoneList fuel s z =
      (whileLoop (addPagesCond (zoneFrameCount (s.zone z))) (addPagesBody z) fuel
        (0, zoneCleared zoneList s z)).map fun st => (.noError, st.2) := by
  have hzone : ∀ (v w : PmmZone) (f : Word → PmmZone),
      (fun x => if x = z then v else if x = z then w else f x) =
        fun x => if x = z then v else f x := by
    intro v w f
    funext x
    split <;> rfl
  rw [pmmAddZone, if_neg (not_not_intro hsize)]
  simp only [balloc, Pmm.setZone, if_pos]
  rw [hzone]
  rfl

theorem pmmAddZone_zero {zoneList : Word} {s : Pmm} {z : Word} (hsize : (s.zone z).size = 0)
    (fuel : Nat) : pmmAddZone zoneList fuel s z = some (.errInvalidArgs, s) := by
  rw [pmmAddZone, hsize, if_pos (by simp)]

/-- The 32-bit index never reaches a frame count of 33 bits. -/
theorem pmmAddZone_eq_none {zoneList : Word} {s : Pmm} {z : Word}
    (hframes : 2 ^ 32 ≤ frames (s.zone z)) (fuel : Nat) :
    pmmAddZone zoneList fuel s z = none := by
  have hsize : (s.zone z).size > 0 := by
    rw [gt_iff_lt, BitVec.lt_def]
    simp only [frames] at hframes
    simp
    omega
  rw [pmmAddZone_eq hsize, whileLoop, loop_eq_none _ (fun _ => True) (fun st _ => ?_) fuel
    trivial]
  · rfl
  · have hcond : addPagesCond (zoneFrameCount (s.zone z)) st = true := by
      have hidx := st.1.isLt
      rw [addPagesCond, decide_eq_true_eq, BitVec.lt_def, zoneFrameCount_toNat,
        BitVec.toNat_setWidth]
      omega
    exact .inr ⟨_, by rw [hcond]; rfl, trivial⟩

theorem count_toNat (z : PmmZone) : (zoneFrameCount z * sizeofVmPage).toNat = 24 * frames z := by
  have hlt := z.size.isLt
  rw [BitVec.toNat_mul, zoneFrameCount_toNat, toNat_sizeofVmPage, frames]
  omega

/-- `memset` clears the new array and as much again. -/
theorem memsetExtent_count (s : Pmm) (z : Word) :
    memsetExtent (nextArray s) (zoneFrameCount (s.zone z) * sizeofVmPage) =
      48 * frames (s.zone z) := by
  rw [memsetExtent_aligned, count_toNat]
  · omega
  · rw [nextArray, roundUp_eight]
    omega
  · rw [count_toNat]
    omega

section

variable {s : Pmm} {z : Word} {i j : ℕ}
  (htop : (nextArray s).toNat + 24 * frames (s.zone z) ≤ 2 ^ 64)
include htop

theorem newPage_toNat (hi : i < frames (s.zone z)) :
    (newPage s i).toNat = (nextArray s).toNat + 24 * i :=
  @pageAt_toNat { s.zone z with pageArray := nextArray s } htop i hi

theorem newPage_in (hi : i < frames (s.zone z)) : InNextArray s z (newPage s i) := by
  rw [InNextArray, newPage_toNat htop hi]
  omega

theorem newPage_inj (hi : i < frames (s.zone z)) (hj : j < frames (s.zone z))
    (h : newPage s i = newPage s j) : i = j := by
  have := congrArg BitVec.toNat h
  rw [newPage_toNat htop hi, newPage_toNat htop hj] at this
  omega

theorem newPage_not_mem (hi : i < frames (s.zone z)) : newPage s i ∉ newPages s i := by
  intro hmem
  obtain ⟨j, hj, he⟩ := List.mem_map.mp hmem
  have hlt := List.mem_range.mp hj
  exact absurd (newPage_inj htop (lt_trans hlt hi) hi he) (Nat.ne_of_lt hlt)

end

/-- The page loop on fewer than `2^32` frames, with what it keeps page by page. -/
theorem settles_addPages {zoneList : Word} {s : Pmm} {z : Word} {P : ℕ → Pmm → Prop}
    (hsize : (s.zone z).size > 0) (hlt : frames (s.zone z) < 2 ^ 32)
    (hstart : P 0 (zoneCleared zoneList s z))
    (hstep : ∀ i s', i < frames (s.zone z) → P i s' → ∃ s'',
      addPagesBody z (BitVec.ofNat 32 i, s') = some (BitVec.ofNat 32 (i + 1), s'') ∧ P (i + 1) s'') :
    ∃ s', Settles (fun n => pmmAddZone zoneList n s z) (.noError, s') ∧ P (frames (s.zone z)) s' := by
  have hidx : ∀ {i}, i ≤ frames (s.zone z) → (BitVec.ofNat 32 i).toNat = i := fun hi => by
    rw [BitVec.toNat_ofNat]
    omega
  have hcond : ∀ {i s'}, i ≤ frames (s.zone z) →
      (addPagesCond (zoneFrameCount (s.zone z)) (BitVec.ofNat 32 i, s') = true ↔
        i < frames (s.zone z)) := fun {i s'} hi => by
    rw [addPagesCond, decide_eq_true_eq, BitVec.lt_def, zoneFrameCount_toNat,
      BitVec.toNat_setWidth, hidx hi, Nat.mod_eq_of_lt (by omega)]
  obtain ⟨⟨idx, s'⟩, hloop, ⟨i, hi, rfl, ha⟩, hend⟩ := exists_while
    (addPagesCond (zoneFrameCount (s.zone z))) (fun _ => addPagesBody z)
    (fun st => ∃ i ≤ frames (s.zone z), st.1 = BitVec.ofNat 32 i ∧ P i st.2)
    (fun st => frames (s.zone z) - st.1.toNat)
    (by
      rintro ⟨idx, s'⟩ ⟨i, hi, rfl, ha⟩ hc
      have hlt' := (hcond hi).mp hc
      obtain ⟨s'', hbody, ha'⟩ := hstep i s' hlt' ha
      refine ⟨_, .of_forall fun _ => hbody, ⟨i + 1, hlt', rfl, ha'⟩, ?_⟩
      simp only [hidx hi, hidx hlt']
      omega)
    (s := (0, zoneCleared zoneList s z)) ⟨0, Nat.zero_le _, rfl, hstart⟩
  have hall : ¬ i < frames (s.zone z) := fun h => by
    rw [(hcond hi).mpr h] at hend
    cases hend
  obtain rfl : i = frames (s.zone z) := by omega
  exact ⟨s', (hloop.settles.map fun st => (PmmStatus.noError, st.2)).congr (pmmAddZone_eq hsize), ha⟩

theorem addPagesBody_eq {s s' : Pmm} {z : Word} (harray : (s'.zone z).pageArray = nextArray s) {i : ℕ}
    (hi : i < 2 ^ 32) : addPagesBody z (BitVec.ofNat 32 i, s') = some (BitVec.ofNat 32 (i + 1),
      ({ s' with heap := listAddTail s'.heap (freePages z) (newPage s i) } : Pmm).setZone z
        { s'.zone z with freeCount := (s'.zone z).freeCount + 1 }) := by
  have hidx : (BitVec.ofNat 32 i).setWidth 64 = BitVec.ofNat 64 i := by
    apply BitVec.eq_of_toNat_eq
    simp only [BitVec.toNat_setWidth, BitVec.toNat_ofNat]
    omega
  have hpage : pageAt (s'.zone z) ((BitVec.ofNat 32 i).setWidth 64) = newPage s i := by
    rw [hidx, pageAt, newPage, harray]
  simp only [addPagesBody, hpage, BitVec.ofNat_add]
  rfl

namespace FreshZone

variable {zoneList : Word} {s : Pmm} {F : Family Word} {zs : List Word} {z x : Word}

theorem array_top (hf : FreshZone s F z) :
    (nextArray s).toNat + 24 * frames (s.zone z) ≤ 2 ^ 64 := by
  have := hf.cleared_top
  omega

theorem sub_lt_iff (hf : FreshZone s F z) (x : Word) : (x - nextArray s).toNat <
    memsetExtent (nextArray s) (zoneFrameCount (s.zone z) * sizeofVmPage) ↔ InCleared s z x := by
  have h1 := hf.cleared_top
  have h2 := hf.array_pos
  have hx := x.isLt
  rw [memsetExtent_count, BitVec.toNat_sub, InCleared]
  omega

theorem linked_zoneFamily (hz : F zoneList = some zs) {n : Nat}
    (hx : Linked (zoneFamily zoneList s F zs z n) x) :
    x = freePages z ∨ x ∈ newPages s n ∨ x = z ∨ Linked F x := by
  rcases linked_update hx with hx | hx
  · exact (List.mem_cons.mp hx).imp_right .inl
  rcases linked_update hx with hx | hx
  · rw [← List.cons_append, List.mem_append, List.mem_singleton] at hx
    exact .inr (.inr (hx.symm.imp_right fun hx => ⟨zoneList, zs, hz, hx⟩))
  · exact .inr (.inr (.inr hx))

theorem newPage_not_linked (hf : FreshZone s F z) (hz : F zoneList = some zs) {n : Nat}
    (hn : n < frames (s.zone z)) : ¬ Linked (zoneFamily zoneList s F zs z n) (newPage s n) := by
  have hin := newPage_in hf.array_top hn
  intro hx
  rcases linked_zoneFamily hz hx with hx | hx | hx | hx
  · exact hf.head.2.2 (hx ▸ hin.cleared)
  · exact newPage_not_mem hf.array_top hn hx
  · exact hf.node.2.2 (hx ▸ hin.cleared)
  · exact hf.array hx hin.cleared

theorem lists_zoneCleared (hf : FreshZone s F z) (hl : Lists s.heap F)
    (hz : F zoneList = some zs) :
    Lists (zoneCleared zoneList s z).heap (zoneFamily zoneList s F zs z 0) := by
  have hhead : zoneList ∈ zoneList :: zs := List.mem_cons_self
  have h1 := hl.addTail ⟨zoneList, zs, hz, hhead⟩ hf.node.1 hf.node.2.1
  rw [hl.rep.insertBefore_eq hz hhead, if_pos rfl] at h1
  have hun : ¬ Linked (Function.update F zoneList (some (zs ++ [z]))) (freePages z) := by
    intro hx
    rcases linked_update hx with hx | hx
    · rw [← List.cons_append, List.mem_append, List.mem_singleton] at hx
      rcases hx with hx | hx
      · exact hf.head.1 ⟨zoneList, zs, hz, hx⟩
      · simp [freePages] at hx
    · exact hf.head.1 hx
  have h2 := h1.init hun hf.head.2.1
  refine ⟨h2.rep.congr fun x hx => ?_, h2.notNull⟩
  -- no linked node lies in the memory that is cleared
  have hout : ¬ InCleared s z x := by
    rcases linked_zoneFamily (s := s) (n := 0) hz hx with hx | hx | hx | hx
    · exact hx ▸ hf.head.2.2
    · cases hx
    · exact hx ▸ hf.node.2.2
    · exact hf.array hx
  rw [← hf.sub_lt_iff] at hout
  exact ⟨if_neg hout, if_neg hout⟩

end FreshZone

/-- What `pmm_add_zone` leaves behind, with the first `n` pages linked. -/
structure ZoneAdded (zoneList : Word) (s : Pmm) (F : Family Word) (zs : List Word) (z : Word)
    (n : Nat) (s' : Pmm) : Prop where
  lists : Lists s'.heap (zoneFamily zoneList s F zs z n)
  zone : s'.zone = fun w => if w = z then
    { s.zone z with freeCount := BitVec.ofNat 64 n, pageArray := nextArray s } else s.zone w
  flags : s'.flags = (zoneCleared zoneList s z).flags
  bootAllocEnd : s'.bootAllocEnd = (zoneCleared zoneList s z).bootAllocEnd

section

variable {zoneList : Word} {s s' : Pmm} {F : Family Word} {zs : List Word} {z : Word}

theorem ZoneAdded.step (hf : FreshZone s F z) (hz : F zoneList = some zs) {n : Nat}
    (hn : n < frames (s.zone z)) (ha : ZoneAdded zoneList s F zs z n s') :
    ∃ s'', addPagesBody z (BitVec.ofNat 32 n, s') = some (BitVec.ofNat 32 (n + 1), s'') ∧
      ZoneAdded zoneList s F zs z (n + 1) s'' := by
  have hlt := hf.frames_lt
  have harray : (s'.zone z).pageArray = nextArray s := by
    rw [ha.zone]
    simp only [if_true]
  have hfam : zoneFamily zoneList s F zs z n (freePages z) = some (newPages s n) :=
    Function.update_self ..
  have hpos : newPage s n ≠ NULL := by
    intro h
    have h1 := hf.array_pos
    have h2 := newPage_toNat hf.array_top hn
    rw [h] at h2
    simp at h2
    omega
  have hl := ha.lists.addTail ⟨_, _, hfam, List.mem_cons_self⟩ (hf.newPage_not_linked hz hn) hpos
  rw [ha.lists.rep.insertBefore_eq hfam List.mem_cons_self, if_pos rfl, ← newPages_succ,
    zoneFamily, Function.update_idem] at hl
  refine ⟨_, addPagesBody_eq harray (by omega), ⟨hl, ?_, ha.flags, ha.bootAllocEnd⟩⟩
  funext w
  simp only [Pmm.setZone, ha.zone, if_true, BitVec.ofNat_add]
  split <;> rfl

/-- `pmm_add_zone` on a fresh zone of fewer than `2^32` frames. -/
theorem settles_pmmAddZone (hl : Lists s.heap F) (hz : F zoneList = some zs)
    (hsize : (s.zone z).size > 0) (hf : FreshZone s F z) :
    ∃ s', Settles (fun n => pmmAddZone zoneList n s z) (.noError, s') ∧
      ZoneAdded zoneList s F zs z (frames (s.zone z)) s' :=
  settles_addPages hsize hf.frames_lt ⟨hf.lists_zoneCleared hl hz, rfl, rfl, rfl⟩
    fun _ _ hi ha => ha.step hf hz hi

def addedZone (s : Pmm) (z : Word) : PmmZone :=
  { s.zone z with freeCount := BitVec.ofNat 64 (frames (s.zone z)), pageArray := nextArray s }

theorem mem_newPages {p : Word} :
    p ∈ newPages s (frames (s.zone z)) ↔ IsPage (addedZone s z) p := by
  simp only [newPages, List.mem_map, List.mem_range, IsPage]
  constructor
  · rintro ⟨i, hi, h⟩
    exact ⟨i, hi, h.symm⟩
  · rintro ⟨i, hi, h⟩
    exact ⟨i, hi, h.symm⟩

theorem FreshZone.inNextArray (hf : FreshZone s F z) {p : Word} (hp : IsPage (addedZone s z) p) :
    InNextArray s z p := by
  obtain ⟨i, hi, rfl⟩ := hp
  exact newPage_in hf.array_top hi

namespace ZoneAdded

variable {n : Nat} {p : Word}

theorem flags_new (ha : ZoneAdded zoneList s F zs z n s') (hf : FreshZone s F z)
    (hp : InNextArray s z p) : s'.flags p = 0 := by
  rw [ha.flags]
  exact if_pos ((hf.sub_lt_iff p).mpr hp.cleared)

theorem flags_old (ha : ZoneAdded zoneList s F zs z n s') (hf : FreshZone s F z)
    (hp : ¬ InCleared s z p) : s'.flags p = s.flags p := by
  rw [ha.flags]
  exact if_neg fun h => hp ((hf.sub_lt_iff p).mp h)

theorem zone_old (ha : ZoneAdded zoneList s F zs z n s') {w : Word} (hw : w ≠ z) :
    s'.zone w = s.zone w := by
  rw [ha.zone]
  exact if_neg hw

theorem zone_new (ha : ZoneAdded zoneList s F zs z (frames (s.zone z)) s') :
    s'.zone z = addedZone s z := by
  rw [ha.zone]
  exact if_pos rfl

end ZoneAdded

/-- A zone of whole frames, none of whose memory belongs to the zones already there. -/
structure ZoneAdmissible (s : Pmm) (zs : List Word) (z : Word) : Prop where
  size_eq : (s.zone z).size.toNat = 4096 * frames (s.zone z)
  frames_pos : 0 < frames (s.zone z)
  top : (s.zone z).base.toNat + (s.zone z).size.toNat ≤ 2 ^ 64
  cleared : ∀ w ∈ zs,
    (s.zone w).pageArray.toNat + 24 * frames (s.zone w) ≤ (nextArray s).toNat ∨
    (nextArray s).toNat + 48 * frames (s.zone z) ≤ (s.zone w).pageArray.toNat
  object : ∀ w ∈ zs, ¬ IsPage (s.zone w) z ∧ ¬ IsPage (s.zone w) (freePages z)

theorem ZoneAdmissible.disjoint (hz : ZoneAdmissible s zs z) {w : Word} (hw : w ∈ zs) :
    ArraysDisjoint (s.zone w) (addedZone s z) := by
  refine (hz.cleared w hw).imp_right fun h => ?_
  show (nextArray s).toNat + 24 * frames (s.zone z) ≤ _
  omega

/-- The pages there are lie outside the memory that is cleared. -/
theorem PmmInv.page_outside (hi : PmmInv zoneList s F zs) (hz : ZoneAdmissible s zs z) {w p : Word}
    (hw : w ∈ zs) (hp : IsPage (s.zone w) p) : ¬ InCleared s z p := by
  intro hin
  have h1 := hp.bounds (hi.geometry w hw).array_top
  have h2 := hz.cleared w hw
  simp only [frames, InCleared] at h1 h2 hin
  omega

theorem PmmInv.ne_fresh (hi : PmmInv zoneList s F zs) (hf : FreshZone s F z) : ∀ w ∈ zs, w ≠ z := by
  rintro w hw rfl
  exact hf.node.1 ⟨zoneList, zs, hi.zones, List.mem_cons_of_mem _ hw⟩

theorem PmmInv.free_old (hi : PmmInv zoneList s F zs) (hf : FreshZone s F z)
    (hz : ZoneAdmissible s zs z) (ha : ZoneAdded zoneList s F zs z (frames (s.zone z)) s') {w : Word}
    (hw : w ∈ zs) : ∃ fr, zoneFamily zoneList s F zs z (frames (s.zone z)) (freePages w) = some fr ∧
      (s'.zone w).freeCount = BitVec.ofNat 64 fr.length ∧
      ∀ p, p ∈ fr ↔ IsPage (s'.zone w) p ∧ isNonfree (s'.flags p) = false := by
  obtain ⟨fr, hF, hcount, hm⟩ := hi.free w hw
  have hne := hi.ne_fresh hf w hw
  refine ⟨fr, ?_, ?_, fun p => ?_⟩
  · rw [zoneFamily, Function.update_of_ne fun e => hne (freePages_inj e),
      Function.update_of_ne (hi.heads w hw), hF]
  · rw [ha.zone_old hne, hcount]
  · rw [ha.zone_old hne, hm p]
    exact and_congr_right fun hp => by rw [ha.flags_old hf (hi.page_outside hz hw hp)]

theorem ZoneAdded.free_new (hf : FreshZone s F z)
    (ha : ZoneAdded zoneList s F zs z (frames (s.zone z)) s') :
    ∃ fr, zoneFamily zoneList s F zs z (frames (s.zone z)) (freePages z) = some fr ∧
      (s'.zone z).freeCount = BitVec.ofNat 64 fr.length ∧
      ∀ p, p ∈ fr ↔ IsPage (s'.zone z) p ∧ isNonfree (s'.flags p) = false := by
  refine ⟨newPages s (frames (s.zone z)), Function.update_self .., ?_, fun p => ?_⟩
  · rw [ha.zone_new, newPages, List.length_map, List.length_range]
    rfl
  · rw [ha.zone_new, mem_newPages]
    refine ⟨fun hp => ⟨hp, ?_⟩, And.left⟩
    rw [ha.flags_new hf (hf.inNextArray hp)]
    rfl

theorem PmmInv.addZone (hi : PmmInv zoneList s F zs) (hf : FreshZone s F z)
    (hz : ZoneAdmissible s zs z) (ha : ZoneAdded zoneList s F zs z (frames (s.zone z)) s') :
    PmmInv zoneList s' (zoneFamily zoneList s F zs z (frames (s.zone z))) (zs ++ [z]) := by
  have hlinked : ∀ x ∈ zoneList :: zs, Linked F x := fun x hx => ⟨zoneList, zs, hi.zones, hx⟩
  have hne := hi.ne_fresh hf
  have hfp : ∀ w ∈ zs, Linked F (freePages w) := fun w hw => by
    obtain ⟨fr, hF, -⟩ := hi.free w hw
    exact ⟨_, fr, hF, List.mem_cons_self⟩
  have hhead : freePages z ≠ zoneList := fun h =>
    hf.head.1 (h ▸ hlinked zoneList List.mem_cons_self)
  have hgeom : ZoneGeometry (addedZone s z) :=
    ⟨hz.size_eq, hz.frames_pos, hz.top, hf.array_pos, hf.array_top⟩
  have hcases : ∀ {P : Word → Prop}, (∀ w ∈ zs, P w) → P z → ∀ w ∈ zs ++ [z], P w := fun hold hnew =>
    List.forall_mem_append.mpr ⟨hold, List.forall_mem_singleton.mpr hnew⟩
  refine ⟨ha.lists, ?_, hcases (fun w hw => hi.free_old hf hz ha hw) (ha.free_new hf),
    hcases hi.heads hhead, hcases (fun w hw => ?_) ?_,
    hcases (fun w hw => hcases (fun v hv hvw => ?_) fun _ => ?_)
      (hcases (fun w hw _ => ?_) fun h => absurd rfl h), hcases (fun w hw p hp => ?_) fun p hp => ?_⟩
  · rw [zoneFamily, Function.update_of_ne hhead.symm, Function.update_self]
  · rw [ha.zone_old (hne w hw)]
    exact hi.geometry w hw
  · rw [ha.zone_new]
    exact hgeom
  · rw [ha.zone_old (hne w hw), ha.zone_old (hne v hv)]
    exact hi.arrays w hw v hv hvw
  · rw [ha.zone_old (hne w hw), ha.zone_new]
    exact hz.disjoint hw
  · rw [ha.zone_old (hne w hw), ha.zone_new]
    exact (hz.disjoint hw).symm
  · rw [ha.zone_old (hne w hw)] at hp
    obtain ⟨h1, h2⟩ := hi.nodes w hw p hp
    refine ⟨?_, hcases h2 fun e => (hz.object w hw).2 (e ▸ hp)⟩
    rw [← List.cons_append, List.mem_append, List.mem_singleton]
    rintro (h | h)
    · exact h1 h
    · exact (hz.object w hw).1 (h ▸ hp)
  · rw [ha.zone_new] at hp
    have hin := (hf.inNextArray hp).cleared
    refine ⟨?_, hcases (fun w hw e => hf.array (hfp w hw) (e ▸ hin)) fun e => hf.head.2.2 (e ▸ hin)⟩
    rw [← List.cons_append, List.mem_append, List.mem_singleton]
    rintro (h | h)
    · exact hf.array (hlinked p h) hin
    · exact hf.node.2.2 (h ▸ hin)

end

end Rix
