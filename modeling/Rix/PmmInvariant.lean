import Rix.Pmm

/-!
# The zone invariant of the physical memory manager

The invariant ties the flag of every page, the free list of its zone and the
counter together, and keeps the zones apart. The allocator moves a page in four
ways only: it takes a free page off its list, links a page to a caller's list,
unlinks it from there, and releases it to its zone. Each keeps the invariant.
-/
namespace Rix
open Rings Fuel

theorem isNonfree_or (b : Byte) : isNonfree (b ||| 1) = true := by
  have h : (b ||| 1) &&& 1 = (1 : Byte) := by
    ext i hi
    simp only [BitVec.getElem_and, BitVec.getElem_or]
    cases b[i] <;> simp
  rw [isNonfree, h]
  rfl

theorem isNonfree_and_not (b : Byte) : isNonfree (b &&& ~~~1) = false := by
  have h : b &&& ~~~1 &&& 1 = (0 : Byte) := by
    rw [BitVec.and_assoc]
    exact BitVec.and_zero
  rw [isNonfree, h]
  rfl

def frames (z : PmmZone) : Nat := z.size.toNat / 4096

theorem zoneFrameCount_toNat (z : PmmZone) : (zoneFrameCount z).toNat = frames z := by
  rw [zoneFrameCount, BitVec.toNat_udiv]
  rfl

def IsPage (z : PmmZone) (p : Word) : Prop := ∃ i, i < frames z ∧ p = pageAt z (BitVec.ofNat 64 i)

/-- What `pmm_add_zone` is promised about the memory of a zone and keeps true. -/
structure ZoneGeometry (z : PmmZone) : Prop where
  size_eq : z.size.toNat = 4096 * frames z
  frames_pos : 0 < frames z
  top : z.base.toNat + z.size.toNat ≤ 2 ^ 64
  array_pos : 0 < z.pageArray.toNat
  array_top : z.pageArray.toNat + 24 * frames z ≤ 2 ^ 64

def ArraysDisjoint (z w : PmmZone) : Prop :=
  z.pageArray.toNat + 24 * frames z ≤ w.pageArray.toNat ∨
  w.pageArray.toNat + 24 * frames w ≤ z.pageArray.toNat

/-- The fields of a zone that no allocation changes. -/
def PmmZone.shape (z : PmmZone) : Word × Word × Word := (z.base, z.size, z.pageArray)

theorem frames_congr {z w : PmmZone} (h : w.shape = z.shape) : frames w = frames z := by
  simp only [PmmZone.shape, Prod.mk.injEq] at h
  rw [frames, frames, h.2.1]

theorem pageAt_congr {z w : PmmZone} (h : w.shape = z.shape) (i : Word) :
    pageAt w i = pageAt z i := by
  simp only [PmmZone.shape, Prod.mk.injEq] at h
  rw [pageAt, pageAt, h.2.2]

theorem isPage_congr {z w : PmmZone} (h : w.shape = z.shape) (p : Word) :
    IsPage w p ↔ IsPage z p := by
  simp only [IsPage, frames_congr h, pageAt_congr h]

theorem ZoneGeometry.congr {z w : PmmZone} (hg : ZoneGeometry z) (h : w.shape = z.shape) :
    ZoneGeometry w := by
  have hf := frames_congr h
  simp only [PmmZone.shape, Prod.mk.injEq] at h
  obtain ⟨hb, hs, ha⟩ := h
  exact ⟨by rw [hs, hf]; exact hg.size_eq, by rw [hf]; exact hg.frames_pos,
    by rw [hb, hs]; exact hg.top, by rw [ha]; exact hg.array_pos,
    by rw [ha, hf]; exact hg.array_top⟩

theorem pageAt_toNat {z : PmmZone} (htop : z.pageArray.toNat + 24 * frames z ≤ 2 ^ 64) {i : Nat}
    (hi : i < frames z) : (pageAt z (BitVec.ofNat 64 i)).toNat = z.pageArray.toNat + 24 * i := by
  simp only [pageAt, BitVec.toNat_add, BitVec.toNat_mul, BitVec.toNat_ofNat, toNat_sizeofVmPage]
  omega

theorem IsPage.bounds {z : PmmZone} {p : Word}
    (htop : z.pageArray.toNat + 24 * frames z ≤ 2 ^ 64) (hp : IsPage z p) :
    z.pageArray.toNat ≤ p.toNat ∧ p.toNat + 24 ≤ z.pageArray.toNat + 24 * frames z := by
  obtain ⟨i, hi, rfl⟩ := hp
  rw [pageAt_toNat htop hi]
  omega

theorem IsPage.ne_null {z : PmmZone} {p : Word} (hg : ZoneGeometry z) (hp : IsPage z p) :
    p ≠ NULL := by
  rintro rfl
  have h1 := (hp.bounds hg.array_top).1
  have h2 := hg.array_pos
  simp at h1
  omega

theorem pageAt_inj {z : PmmZone} (hg : ZoneGeometry z) {i j : Nat} (hi : i < frames z)
    (hj : j < frames z) (h : pageAt z (BitVec.ofNat 64 i) = pageAt z (BitVec.ofNat 64 j)) :
    i = j := by
  have := congrArg BitVec.toNat h
  rw [pageAt_toNat hg.array_top hi, pageAt_toNat hg.array_top hj] at this
  omega

theorem freePages_inj {z w : Word} (h : freePages z = freePages w) : z = w := by
  simpa [freePages] using h

/-- The heap represents the zone list, the free list of every zone and the lists of the
callers; a zone's free list holds its unflagged pages and its counter is the length. -/
structure PmmInv (zoneList : Word) (s : Pmm) (F : Family Word) (zs : List Word) : Prop where
  lists : Lists s.heap F
  zones : F zoneList = some zs
  free : ∀ z ∈ zs, ∃ fr, F (freePages z) = some fr ∧
    (s.zone z).freeCount = BitVec.ofNat 64 fr.length ∧
    ∀ p, p ∈ fr ↔ IsPage (s.zone z) p ∧ isNonfree (s.flags p) = false
  heads : ∀ z ∈ zs, freePages z ≠ zoneList
  geometry : ∀ z ∈ zs, ZoneGeometry (s.zone z)
  arrays : ∀ z ∈ zs, ∀ w ∈ zs, z ≠ w → ArraysDisjoint (s.zone z) (s.zone w)
  nodes : ∀ z ∈ zs, ∀ p, IsPage (s.zone z) p → p ∉ zoneList :: zs ∧ ∀ w ∈ zs, p ≠ freePages w

/-- A list head that is not the allocator's. -/
def CallerHead (zoneList : Word) (zs : List Word) (list : Word) : Prop :=
  list ≠ zoneList ∧ ∀ z ∈ zs, list ≠ freePages z

namespace Pmm

def take (s : Pmm) (z p : Word) : Pmm :=
  (({ s with heap := listDelete s.heap p } : Pmm).setZone z
    { s.zone z with freeCount := (s.zone z).freeCount - 1 }).setFlags p (s.flags p ||| 1)

def append (s : Pmm) (list p : Word) : Pmm := { s with heap := listAddTail s.heap list p }

def detach (s : Pmm) (p : Word) : Pmm := { s with heap := listDelete s.heap p }

def release (s : Pmm) (z p : Word) : Pmm :=
  (({ s with heap := listAdd s.heap (freePages z) p } : Pmm).setZone z
    { s.zone z with freeCount := (s.zone z).freeCount + 1 }).setFlags p (s.flags p &&& ~~~1)

@[simp] theorem take_heap (s : Pmm) (z p : Word) : (s.take z p).heap = listDelete s.heap p := rfl

theorem take_zone (s : Pmm) (z p w : Word) : (s.take z p).zone w =
    if w = z then { s.zone z with freeCount := (s.zone z).freeCount - 1 } else s.zone w := rfl

theorem take_flags (s : Pmm) (z p q : Word) : (s.take z p).flags q =
    if q = p then s.flags p ||| 1 else s.flags q := rfl

theorem release_zone (s : Pmm) (z p w : Word) : (s.release z p).zone w =
    if w = z then { s.zone z with freeCount := (s.zone z).freeCount + 1 } else s.zone w := rfl

theorem release_flags (s : Pmm) (z p q : Word) : (s.release z p).flags q =
    if q = p then s.flags p &&& ~~~1 else s.flags q := rfl

theorem take_shape (s : Pmm) (z p w : Word) :
    ((s.take z p).zone w).shape = (s.zone w).shape := by
  rw [take_zone]
  split
  · next h => rw [h]; rfl
  · rfl

theorem release_shape (s : Pmm) (z p w : Word) :
    ((s.release z p).zone w).shape = (s.zone w).shape := by
  rw [release_zone]
  split
  · next h => rw [h]; rfl
  · rfl

end Pmm

namespace PmmInv

variable {zoneList : Word} {s : Pmm} {F : Family Word} {zs : List Word} {z p list : Word}
  {fr xs : List Word}

theorem page_zone (hi : PmmInv zoneList s F zs) {w : Word} (hz : z ∈ zs) (hw : w ∈ zs)
    (hp : IsPage (s.zone z) p) (hp' : IsPage (s.zone w) p) : z = w := by
  by_contra hne
  have h1 := hp.bounds (hi.geometry z hz).array_top
  have h2 := hp'.bounds (hi.geometry w hw).array_top
  rcases hi.arrays z hz w hw hne with h | h <;> omega

theorem ring (hi : PmmInv zoneList s F zs) : Ring s.heap zoneList zs :=
  hi.lists.rep.ring hi.zones

theorem notMem_zones (hi : PmmInv zoneList s F zs) : zoneList ∉ zs :=
  (List.nodup_cons.mp hi.ring.nodup).1

theorem next_zone (hi : PmmInv zoneList s F zs) {us vs : List Word} (hz : zs = us ++ z :: vs) :
    s.heap.next z = vs.head?.getD zoneList := by
  subst hz
  exact hi.ring.next_eq

theorem free_eq (hi : PmmInv zoneList s F zs) (hz : z ∈ zs) (hF : F (freePages z) = some fr) :
    (s.zone z).freeCount = BitVec.ofNat 64 fr.length ∧
    ∀ p, p ∈ fr ↔ IsPage (s.zone z) p ∧ isNonfree (s.flags p) = false := by
  obtain ⟨fr', hF', h⟩ := hi.free z hz
  rw [hF, Option.some.injEq] at hF'
  exact hF' ▸ h

theorem freeCount_pos (hi : PmmInv zoneList s F zs) (hz : z ∈ zs)
    (hF : F (freePages z) = some fr) : (s.zone z).freeCount > 0 ↔ fr ≠ [] := by
  have hlt := hi.lists.length_lt hF
  rw [(hi.free_eq hz hF).1, gt_iff_lt, BitVec.lt_def, BitVec.toNat_ofNat, Nat.mod_eq_of_lt hlt]
  exact List.length_pos_iff

/-- Steps that keep the zone list and the shape of its zones. -/
theorem update (hi : PmmInv zoneList s F zs) {s' : Pmm} {F' : Family Word}
    (hl : Lists s'.heap F') (hz : F' zoneList = some zs)
    (hshape : ∀ w ∈ zs, (s'.zone w).shape = (s.zone w).shape)
    (hfree : ∀ z ∈ zs, ∃ fr, F' (freePages z) = some fr ∧
      (s'.zone z).freeCount = BitVec.ofNat 64 fr.length ∧
      ∀ p, p ∈ fr ↔ IsPage (s.zone z) p ∧ isNonfree (s'.flags p) = false) :
    PmmInv zoneList s' F' zs where
  lists := hl
  zones := hz
  free := fun z hz => by simpa only [isPage_congr (hshape z hz)] using hfree z hz
  heads := hi.heads
  geometry := fun z hz => (hi.geometry z hz).congr (hshape z hz)
  arrays := by
    intro z hz w hw hne
    have h := hi.arrays z hz w hw hne
    have hz' := hshape z hz
    have hw' := hshape w hw
    rw [ArraysDisjoint, frames_congr hz', frames_congr hw']
    simp only [PmmZone.shape, Prod.mk.injEq] at hz' hw'
    rw [hz'.2.2, hw'.2.2]
    exact h
  nodes := fun z hz => by simpa only [isPage_congr (hshape z hz)] using hi.nodes z hz

/-- The free list of a zone changes, and the flags of its own pages. -/
theorem update_zone (hi : PmmInv zoneList s F zs) (hz : z ∈ zs) {s' : Pmm} {fr' : List Word}
    (hl : Lists s'.heap (Function.update F (freePages z) (some fr')))
    (hshape : ∀ w, (s'.zone w).shape = (s.zone w).shape)
    (hcount : (s'.zone z).freeCount = BitVec.ofNat 64 fr'.length)
    (hfree : ∀ p, p ∈ fr' ↔ IsPage (s.zone z) p ∧ isNonfree (s'.flags p) = false)
    (hzone : ∀ w, w ≠ z → s'.zone w = s.zone w)
    (hflags : ∀ q, ¬ IsPage (s.zone z) q → s'.flags q = s.flags q) :
    PmmInv zoneList s' (Function.update F (freePages z) (some fr')) zs := by
  refine hi.update hl ?_ (fun w _ => hshape w) fun w hw => ?_
  · rw [Function.update_of_ne (hi.heads z hz).symm]
    exact hi.zones
  · by_cases hwz : w = z
    · subst hwz
      exact ⟨fr', Function.update_self .., hcount, hfree⟩
    · obtain ⟨fr, hF, hc, hm⟩ := hi.free w hw
      refine ⟨fr, ?_, by rw [hzone w hwz]; exact hc, fun q => ?_⟩
      · rw [Function.update_of_ne fun e => hwz (freePages_inj e)]
        exact hF
      · rw [hm q]
        refine and_congr_right fun hq => ?_
        rw [hflags q fun hq' => hwz (hi.page_zone hw hz hq hq')]

/-- A caller's list changes. -/
theorem update_caller (hi : PmmInv zoneList s F zs) (hc : CallerHead zoneList zs list) {s' : Pmm}
    {v : Option (List Word)} (hl : Lists s'.heap (Function.update F list v))
    (hzone : s'.zone = s.zone) (hflags : s'.flags = s.flags) :
    PmmInv zoneList s' (Function.update F list v) zs := by
  refine hi.update hl ?_ (fun w _ => by rw [hzone]) fun z hz => ?_
  · rw [Function.update_of_ne hc.1.symm]
    exact hi.zones
  · rw [Function.update_of_ne (hc.2 z hz).symm, hzone, hflags]
    exact hi.free z hz

theorem take (hi : PmmInv zoneList s F zs) (hz : z ∈ zs) (hF : F (freePages z) = some fr)
    (hp : p ∈ fr) :
    PmmInv zoneList (s.take z p) (Function.update F (freePages z) (some (fr.erase p))) zs ∧
    ¬ Linked (Function.update F (freePages z) (some (fr.erase p))) p := by
  obtain ⟨hcount, hfree⟩ := hi.free_eq hz hF
  have hnd := (List.nodup_cons.mp (hi.lists.rep.ring hF).nodup).2
  obtain ⟨hl, hun⟩ := hi.lists.delete hF hp
  rw [hi.lists.rep.erase_eq hF hp] at hl hun
  refine ⟨hi.update_zone hz hl (s.take_shape z p) ?_ ?_ ?_ ?_, hun⟩
  · have hpos := List.length_pos_of_mem hp
    rw [Pmm.take_zone, if_pos rfl]
    simp only [hcount, List.length_erase_of_mem hp]
    obtain ⟨n, hn⟩ := Nat.exists_eq_add_of_lt hpos
    rw [hn, Nat.zero_add, Nat.add_sub_cancel, BitVec.ofNat_add]
    exact BitVec.add_sub_cancel _ _
  · intro q
    rw [hnd.mem_erase_iff, hfree q, Pmm.take_flags]
    by_cases hqp : q = p
    · rw [if_pos hqp, isNonfree_or]
      simp [hqp]
    · simp [hqp]
  · exact fun w hw => by rw [Pmm.take_zone, if_neg hw]
  · intro q hq
    rw [Pmm.take_flags, if_neg]
    rintro rfl
    exact hq ((hfree q).mp hp).1

theorem append (hi : PmmInv zoneList s F zs) (hc : CallerHead zoneList zs list)
    (hF : F list = some xs) (hn : ¬ Linked F p) (h0 : p ≠ NULL) :
    PmmInv zoneList (s.append list p) (Function.update F list (some (xs ++ [p]))) zs := by
  have hlist : list ∈ list :: xs := List.mem_cons_self
  have hl := hi.lists.addTail ⟨list, xs, hF, hlist⟩ hn h0
  rw [hi.lists.rep.insertBefore_eq hF hlist, if_pos rfl] at hl
  exact hi.update_caller hc hl rfl rfl

theorem detach (hi : PmmInv zoneList s F zs) (hc : CallerHead zoneList zs list)
    (hF : F list = some (p :: xs)) :
    PmmInv zoneList (s.detach p) (Function.update F list (some xs)) zs ∧
    ¬ Linked (Function.update F list (some xs)) p := by
  obtain ⟨hl, hun⟩ := hi.lists.delete hF List.mem_cons_self
  rw [hi.lists.rep.erase_eq hF List.mem_cons_self, List.erase_cons_head] at hl hun
  exact ⟨hi.update_caller hc hl rfl rfl, hun⟩

theorem release (hi : PmmInv zoneList s F zs) (hz : z ∈ zs) (hF : F (freePages z) = some fr)
    (hp : IsPage (s.zone z) p) (hn : ¬ Linked F p) :
    PmmInv zoneList (s.release z p) (Function.update F (freePages z) (some (p :: fr))) zs := by
  obtain ⟨hcount, hfree⟩ := hi.free_eq hz hF
  have hhead : freePages z ∈ freePages z :: fr := List.mem_cons_self
  have hl := hi.lists.add ⟨freePages z, fr, hF, hhead⟩ hn (hp.ne_null (hi.geometry z hz))
  rw [hi.lists.rep.insertAfter_eq hF hhead, if_pos rfl] at hl
  refine hi.update_zone hz hl (s.release_shape z p) ?_ ?_ ?_ ?_
  · rw [Pmm.release_zone, if_pos rfl]
    simp only [hcount, List.length_cons, BitVec.ofNat_add]
    rfl
  · intro q
    rw [List.mem_cons, hfree q, Pmm.release_flags]
    by_cases hqp : q = p
    · rw [if_pos hqp, isNonfree_and_not]
      simp [hqp, hp]
    · simp [hqp]
  · exact fun w hw => by rw [Pmm.release_zone, if_neg hw]
  · intro q hq
    rw [Pmm.release_flags, if_neg]
    rintro rfl
    exact hq hp

end PmmInv

end Rix
