import Rix.PmmRange
import Rix.PmmFree
import Rix.PmmZones

/-!
# Runs of the physical memory manager

A run is any sequence of the six calls of `pmm.h` and of moves of the callers, who
may write everything the allocator does not own: their lists, pages handed out to
them, zone objects not added yet. A snapshot adds to the state the zones in the
order they were added and the pages handed out and not given back.
-/
namespace Rix
open Rings Fuel

structure Snapshot where
  s : Pmm
  zs : List Word
  held : List Word

/-- A call with its arguments; `xs` is what the caller's list holds, `page` and `out` what the
out parameter holds before the call. -/
inductive PmmCall where
  | addZone (zone : Word)
  | allocPage (out : Word)
  | allocPages (count : BitVec 32) (list : Word) (xs : List Word) (page : Word)
  | allocRange (address count list : Word) (xs : List Word)
  | freePages (head : Word) (xs : List Word)
  | freePage (page list : Word)
  | caller (s' : Pmm)

namespace Snapshot

def Free (P : Snapshot) (p : Word) : Prop :=
  ∃ z ∈ P.zs, IsPage (P.s.zone z) p ∧ isNonfree (P.s.flags p) = false

def Busy (P : Snapshot) (p : Word) : Prop :=
  ∃ z ∈ P.zs, IsPage (P.s.zone z) p ∧ isNonfree (P.s.flags p) = true

/-- The nodes whose links the allocator relies on. -/
def Owned (zoneList : Word) (P : Snapshot) (x : Word) : Prop :=
  x ∈ zoneList :: P.zs ∨ (∃ z ∈ P.zs, x = freePages z) ∨ P.Free x

/-- A circular list of the caller's. -/
structure CallerList (zoneList : Word) (P : Snapshot) (list : Word) (xs : List Word) : Prop where
  ring : Ring P.s.heap list xs
  foreign : ∀ x ∈ list :: xs, ¬ P.Owned zoneList x ∧ x ≠ NULL

/-- A zone object that is in no list, with a size of whole frames, and whose page array takes
memory that nothing else uses, nor the memory behind it that is cleared with it. -/
structure ZoneOffer (zoneList : Word) (P : Snapshot) (z : Word) : Prop where
  node : ¬ P.Owned zoneList z ∧ z ≠ NULL
  head : ¬ P.Owned zoneList (freePages z) ∧ freePages z ≠ NULL
  array_pos : 0 < (nextArray P.s).toNat
  cleared_top : (nextArray P.s).toNat + 48 * frames (P.s.zone z) ≤ 2 ^ 64
  array : ∀ x, P.Owned zoneList x ∨ x = z ∨ x = freePages z → ¬ InCleared P.s z x
  frames_lt : frames (P.s.zone z) < 2 ^ 32
  admissible : ZoneAdmissible P.s P.zs z

/-- What a caller may do to the state. -/
structure CallerMoves (zoneList : Word) (P : Snapshot) (s' : Pmm) : Prop where
  heap : ∀ x, P.Owned zoneList x → P.s.heap.AgreeAt s'.heap x
  zone : ∀ z ∈ P.zs, s'.zone z = P.s.zone z
  flags : ∀ z ∈ P.zs, ∀ p, IsPage (P.s.zone z) p → s'.flags p = P.s.flags p

end Snapshot

namespace PmmCall

/-- The conditions a caller keeps. -/
def Admissible (zoneList : Word) (P : Snapshot) : PmmCall → Prop
  | .addZone z => P.ZoneOffer zoneList z
  | .allocPage _ => True
  | .allocPages count list xs _ => P.CallerList zoneList list xs ∧ (count = 1 → ∃ p, P.Free p)
  | .allocRange _ _ list xs => P.CallerList zoneList list xs
  | .freePages head xs => P.CallerList zoneList head xs ∧ ∀ p ∈ xs, p ∈ P.held
  | .freePage page list =>
      page ∈ P.held ∧ page ≠ list ∧ ¬ P.Owned zoneList list ∧ list ≠ NULL
  | .caller s' => P.CallerMoves zoneList s'

def newZones : PmmCall → List Word
  | .addZone z => [z]
  | _ => []

def givenBack : PmmCall → List Word
  | .freePages _ xs => xs
  | .freePage page _ => [page]
  | _ => []

/-- The call returns with state `s'` and hands out the pages of `got`: the out parameter of
`pmm_alloc_page` when some page is free, the new tail of the list otherwise. -/
def Returns (zoneList : Word) (P : Snapshot) (got : List Word) (s' : Pmm) : PmmCall → Prop
  | .addZone z => got = [] ∧ ∃ status, Settles (fun n => pmmAddZone zoneList n P.s z) (status, s')
  | .allocPage out => ∃ status out',
      Settles (fun n => pmmAllocPage zoneList n P.s out) (status, s', out') ∧
      ((∃ p, P.Free p) → got = [out']) ∧ ((¬ ∃ p, P.Free p) → got = [])
  | .allocPages count list xs page => Ring s'.heap list (xs ++ got) ∧ ∃ status count',
      Settles (fun n => pmmAllocPages zoneList n P.s count list page) (status, count', s')
  | .allocRange address count list xs => Ring s'.heap list (xs ++ got) ∧ ∃ allocated,
      Settles (fun n => pmmAllocRange zoneList n P.s address count list) (allocated, s')
  | .freePages head _ => got = [] ∧ ∃ count,
      Settles (fun n => pmmFreePages zoneList n P.s head) (count, s')
  | .freePage page list => got = [] ∧ ∃ count,
      Settles (fun n => pmmFreePage zoneList n P.s page list) (count, s')
  | .caller s'' => got = [] ∧ s' = s''

end PmmCall

def Snapshot.after (P : Snapshot) (c : PmmCall) (got : List Word) (s' : Pmm) : Snapshot :=
  ⟨s', P.zs ++ c.newZones, (P.held ++ got).filter fun p => p ∉ c.givenBack⟩

/-- The snapshots of all runs whose calls meet `ok`, besides what every caller keeps. -/
inductive PmmReach (zoneList : Word) (ok : Snapshot → PmmCall → Prop) : Snapshot → Prop where
  | init (s : Pmm) (hnull : zoneList ≠ NULL)
      (hnext : s.heap.next zoneList = zoneList) (hprev : s.heap.prev zoneList = zoneList) :
      PmmReach zoneList ok ⟨s, [], []⟩
  | call {P : Snapshot} {c : PmmCall} {got : List Word} {s' : Pmm} (hr : PmmReach zoneList ok P)
      (ha : c.Admissible zoneList P) (hok : ok P c) (hret : c.Returns zoneList P got s') :
      PmmReach zoneList ok (P.after c got s')

/-- A family that holds the lists of the allocator and no others. -/
def OwnFamily (zoneList : Word) (zs : List Word) (F : Family Word) : Prop :=
  ∀ h xs, F h = some xs → h = zoneList ∨ ∃ z ∈ zs, h = freePages z

/-- The invariant of the runs. -/
structure Snapshot.Sound (zoneList : Word) (P : Snapshot) : Prop where
  inv : ∃ F, PmmInv zoneList P.s F P.zs ∧ OwnFamily zoneList P.zs F
  busy : ∀ p ∈ P.held, P.Busy p
  nodup : P.held.Nodup

section

variable {zoneList : Word} {P : Snapshot} {F : Family Word} {list x : Word} {xs : List Word}

theorem linked_iff_owned (hi : PmmInv zoneList P.s F P.zs) (ho : OwnFamily zoneList P.zs F) :
    Linked F x ↔ P.Owned zoneList x := by
  constructor
  · rintro ⟨h, ys, hF, hx⟩
    rcases ho h ys hF with rfl | ⟨z, hz, rfl⟩
    · rw [hi.zones, Option.some.injEq] at hF
      exact .inl (hF ▸ hx)
    · rcases List.mem_cons.mp hx with rfl | hx
      · exact .inr (.inl ⟨z, hz, rfl⟩)
      · exact .inr (.inr ⟨z, hz, ((hi.free_eq hz hF).2 x).mp hx⟩)
  · rintro (hx | ⟨z, hz, rfl⟩ | ⟨z, hz, hp⟩)
    · exact ⟨zoneList, P.zs, hi.zones, hx⟩
    · obtain ⟨fr, hF, -⟩ := hi.free z hz
      exact ⟨_, fr, hF, List.mem_cons_self⟩
    · obtain ⟨fr, hF, -, hm⟩ := hi.free z hz
      exact ⟨_, fr, hF, List.mem_cons_of_mem _ ((hm x).mpr hp)⟩

theorem callerHead_of_not_owned (hl : ¬ P.Owned zoneList list) :
    CallerHead zoneList P.zs list :=
  ⟨fun e => hl (.inl (by simp [e])), fun z hz e => hl (.inr (.inl ⟨z, hz, e⟩))⟩

theorem Snapshot.CallerList.callerHead (hx : P.CallerList zoneList list xs) :
    CallerHead zoneList P.zs list :=
  callerHead_of_not_owned (hx.foreign list List.mem_cons_self).1

/-- The caller's list joins the lists of the allocator for a call. -/
theorem PmmInv.adjoin (hi : PmmInv zoneList P.s F P.zs) (ho : OwnFamily zoneList P.zs F)
    (hx : P.CallerList zoneList list xs) :
    PmmInv zoneList P.s (Function.update F list (some xs)) P.zs := by
  have hun : ∀ y ∈ list :: xs, ¬ Linked F y := fun y hy hl =>
    (hx.foreign y hy).1 ((linked_iff_owned hi ho).mp hl)
  refine hi.update_caller hx.callerHead ⟨?_, fun hy => ?_⟩ rfl rfl
  · exact hi.lists.rep.set hx.ring (fun y hy => .inr (hun y hy)) fun _ _ _ _ _ _ => .refl _ _
  · rcases linked_update hy with hy | hy
    · exact (hx.foreign _ hy).2
    · exact hi.lists.notNull hy

/-- The caller's list is left out again. -/
theorem PmmInv.retire {s' : Pmm} {zs : List Word} (hi : PmmInv zoneList s' F zs)
    (hc : CallerHead zoneList zs list) :
    PmmInv zoneList s' (Function.update F list none) zs := by
  refine hi.update_caller hc ⟨hi.lists.rep.drop list, ?_⟩ rfl rfl
  rintro y ⟨h, ys, hF, hy⟩
  by_cases hh : h = list
  · rw [hh, Function.update_self] at hF
    cases hF
  · rw [Function.update_of_ne hh] at hF
    exact hi.lists.notNull ⟨h, ys, hF, hy⟩

theorem OwnFamily.retire {F' : Family Word} {v : Option (List Word)}
    (ho : OwnFamily zoneList P.zs F)
    (hother : ∀ h, h ≠ list → (∀ z ∈ P.zs, h ≠ freePages z) → F' h = Function.update F list v h) :
    OwnFamily zoneList P.zs (Function.update F' list none) := by
  intro h ys hF
  by_cases hh : h = list
  · rw [hh, Function.update_self] at hF
    cases hF
  · by_cases hfp : ∀ z ∈ P.zs, h ≠ freePages z
    · rw [Function.update_of_ne hh, hother h hh hfp, Function.update_of_ne hh] at hF
      exact ho h ys hF
    · push Not at hfp
      exact .inr hfp

theorem PmmInv.not_owned_of_busy (hi : PmmInv zoneList P.s F P.zs) (hb : P.Busy x) :
    ¬ P.Owned zoneList x := by
  obtain ⟨z, hz, hpage, hflag⟩ := hb
  obtain ⟨h1, h2⟩ := hi.nodes z hz x hpage
  rintro (hx | ⟨w, hw, e⟩ | ⟨w, -, -, hfree⟩)
  · exact h1 hx
  · exact h2 w hw e
  · exact Bool.false_ne_true (hfree.symm.trans hflag)

/-- The effect of a call on the lists and on the flags. -/
structure Effect (zoneList : Word) (P : Snapshot) (c : PmmCall) (got : List Word) (s' : Pmm) :
    Prop where
  inv : ∃ F, PmmInv zoneList s' F (P.zs ++ c.newZones) ∧ OwnFamily zoneList (P.zs ++ c.newZones) F
  busy : ∀ p, (P.after c got s').Busy p ↔
    (P.Busy p ∨ p ∈ got) ∧ ¬ (p ∈ c.givenBack ∧ claimed P.s P.zs p = true)
  fresh : ∀ p ∈ got, P.Free p
  nodup : got.Nodup
  shape : ∀ z ∈ P.zs, (s'.zone z).shape = (P.s.zone z).shape
  added : ∀ z ∈ c.newZones, s'.zone z = addedZone P.s z

theorem effect_of_shape {c : PmmCall} {got : List Word} {s' : Pmm} {F' : Family Word}
    (hnew : c.newZones = []) (hshape : ∀ z ∈ P.zs, (s'.zone z).shape = (P.s.zone z).shape)
    (hi : PmmInv zoneList s' F' P.zs) (ho : OwnFamily zoneList P.zs F')
    (hbusy : ∀ p, (∃ z ∈ P.zs, IsPage (P.s.zone z) p ∧ isNonfree (s'.flags p) = true) ↔
      (P.Busy p ∨ p ∈ got) ∧ ¬ (p ∈ c.givenBack ∧ claimed P.s P.zs p = true))
    (hfresh : ∀ p ∈ got, P.Free p) (hnd : got.Nodup) : Effect zoneList P c got s' where
  inv := ⟨F', by rwa [hnew, List.append_nil], by rwa [hnew, List.append_nil]⟩
  busy := fun p => by
    rw [← hbusy p]
    simp only [Snapshot.Busy, Snapshot.after, hnew, List.append_nil]
    refine exists_congr fun z => and_congr_right fun hz => ?_
    rw [isPage_congr (hshape z hz)]
  fresh := hfresh
  nodup := hnd
  shape := hshape
  added := fun z hz => by simp [hnew] at hz

theorem effect_of_grabbed {c : PmmCall} {plan : List (Word × Word)} {s' : Pmm} {F' : Family Word}
    (hnew : c.newZones = []) (hback : c.givenBack = []) (ho : OwnFamily zoneList P.zs F)
    (hx : P.CallerList zoneList list xs)
    (hg : Grabbed zoneList P.s (Function.update F list (some xs)) P.zs list xs plan s' F') :
    Effect zoneList P c (plan.map Prod.snd) s' := by
  have hfree : ∀ p ∈ plan.map Prod.snd, P.Free p := by
    intro p hp
    obtain ⟨zp, hzp, rfl⟩ := List.mem_map.mp hp
    exact ⟨zp.1, hg.free zp hzp⟩
  have hflags := P.s.grabAll_flags list plan
  rw [← hg.state] at hflags
  refine effect_of_shape hnew (fun z _ => hg.shape z) (hg.inv.retire hx.callerHead)
    (ho.retire hg.other) (fun p => ?_) hfree hg.nodup
  simp only [hback, List.not_mem_nil, false_and, not_false_eq_true, and_true]
  by_cases hp : p ∈ plan.map Prod.snd
  · obtain ⟨z, hz, hpage, -⟩ := hfree p hp
    exact iff_of_true ⟨z, hz, hpage, (hflags p).1 hp⟩ (.inr hp)
  · rw [(hflags p).2 hp]
    exact ⟨.inl, fun h => h.resolve_right hp⟩

theorem effect_of_freed {c : PmmCall} {s₀ s' : Pmm} {F₀ F' : Family Word} (hnew : c.newZones = [])
    (hback : c.givenBack = xs) (hc : CallerHead zoneList P.zs list) (hz₀ : s₀.zone = P.s.zone)
    (hf₀ : s₀.flags = P.s.flags) (ho : OwnFamily zoneList P.zs F)
    (hF₀ : F₀ = Function.update F list (some xs))
    (hf : Freed zoneList s₀ F₀ P.zs list xs [] s' F') : Effect zoneList P c [] s' := by
  have hcl : ∀ p, claimed s₀ P.zs p = claimed P.s P.zs p := fun p => by rw [claimed, hz₀, claimed]
  subst hF₀
  refine effect_of_shape hnew (fun z _ => by rw [hf.shape z, hz₀]) (hf.inv.retire hc)
    (ho.retire hf.other) (fun p => ?_) (fun p hp => absurd hp List.not_mem_nil) List.nodup_nil
  simp only [hback, List.not_mem_nil, or_false]
  by_cases hp : p ∈ xs ∧ claimed P.s P.zs p = true
  · refine iff_of_false ?_ fun h => h.2 hp
    rintro ⟨z, hz, hpage, hflag⟩
    -- a page that a zone claims is on its free list, where no page is flagged
    obtain ⟨w, hw, hb⟩ := claimed_eq_true.mp ((hcl p).trans hp.2)
    obtain ⟨fr, -, hF'⟩ := hf.back w hw
    have hmem : p ∈ (xs.filter fun p => pageBelongsToZone p (s₀.zone w)).reverse ++ fr :=
      List.mem_append_left _ (List.mem_reverse.mpr (List.mem_filter.mpr ⟨hp.1, hb⟩))
    exact Bool.false_ne_true ((((hf.inv.free_eq hw hF').2 p).mp hmem).2.symm.trans hflag)
  · have hflags : s'.flags p = P.s.flags p := by
      rw [hf.flags p fun hm => ?_, hf₀]
      rw [hcl, ← Bool.not_eq_true]
      exact fun h => hp ⟨hm, h⟩
    rw [hflags]
    exact ⟨fun h => ⟨h, hp⟩, And.left⟩

theorem effect_addZone {z : Word} {s' : Pmm} (hi : PmmInv zoneList P.s F P.zs)
    (ho : OwnFamily zoneList P.zs F) (hz : P.ZoneOffer zoneList z) (hf : FreshZone P.s F z)
    (ha : ZoneAdded zoneList P.s F P.zs z (frames (P.s.zone z)) s') :
    Effect zoneList P (.addZone z) [] s' := by
  have hi' := hi.addZone hf hz.admissible ha
  have hne := hi.ne_fresh hf
  refine ⟨⟨_, hi', ?_⟩, fun p => ?_, fun p hp => absurd hp List.not_mem_nil, List.nodup_nil,
    fun w hw => by rw [ha.zone_old (hne w hw)],
    fun w hw => by rw [List.mem_singleton.mp hw]; exact ha.zone_new⟩
  · intro h ys hF
    simp only [PmmCall.newZones, List.mem_append, List.mem_singleton]
    by_cases hh : h = freePages z
    · exact .inr ⟨z, .inr rfl, hh⟩
    · by_cases hh' : h = zoneList
      · exact .inl hh'
      · rw [zoneFamily, Function.update_of_ne hh, Function.update_of_ne hh'] at hF
        rcases ho h ys hF with e | ⟨w, hw, e⟩
        · exact .inl e
        · exact .inr ⟨w, .inl hw, e⟩
  · simp only [PmmCall.givenBack, List.not_mem_nil, false_and, not_false_eq_true, and_true, or_false,
      Snapshot.Busy, Snapshot.after, PmmCall.newZones, List.mem_append, List.mem_singleton]
    constructor
    · rintro ⟨w, hw | rfl, hpage, hflag⟩
      · rw [ha.zone_old (hne w hw)] at hpage
        refine ⟨w, hw, hpage, ?_⟩
        rwa [← ha.flags_old hf (hi.page_outside hz.admissible hw hpage)]
      · rw [ha.zone_new] at hpage
        rw [ha.flags_new hf (hf.inNextArray hpage)] at hflag
        cases hflag
    · rintro ⟨w, hw, hpage, hflag⟩
      refine ⟨w, .inl hw, by rwa [ha.zone_old (hne w hw)], ?_⟩
      rwa [ha.flags_old hf (hi.page_outside hz.admissible hw hpage)]

theorem freshZone_of_offer {z : Word} (hi : PmmInv zoneList P.s F P.zs)
    (ho : OwnFamily zoneList P.zs F) (hz : P.ZoneOffer zoneList z) : FreshZone P.s F z := by
  have hl := fun {y} => linked_iff_owned (x := y) hi ho
  exact ⟨⟨fun h => hz.node.1 (hl.mp h), hz.node.2, hz.array z (.inr (.inl rfl))⟩,
    ⟨fun h => hz.head.1 (hl.mp h), hz.head.2, hz.array _ (.inr (.inr rfl))⟩, hz.frames_lt,
    hz.array_pos, hz.cleared_top, fun h => hz.array _ (.inl (hl.mp h))⟩

theorem Snapshot.ZoneOffer.size_pos {z : Word} (hz : P.ZoneOffer zoneList z) :
    (P.s.zone z).size > 0 := by
  have h1 := hz.admissible.size_eq
  have h2 := hz.admissible.frames_pos
  rw [gt_iff_lt, BitVec.lt_def, h1]
  simp
  omega

theorem free_iff (hi : PmmInv zoneList P.s F P.zs) :
    (∃ p, P.Free p) ↔ freeOf F P.zs ≠ [] := by
  rw [List.ne_nil_iff_exists_cons]
  constructor
  · rintro ⟨p, z, hz, hp⟩
    obtain ⟨fr, hF, -, hm⟩ := hi.free z hz
    have hmem : (z, p) ∈ freeOf F P.zs := mem_freeOf.mpr ⟨hz, fr, hF, (hm p).mpr hp⟩
    exact List.exists_cons_of_ne_nil (List.ne_nil_of_mem hmem)
  · rintro ⟨⟨z, p⟩, more, h⟩
    obtain ⟨hz, fr, hF, hp⟩ := mem_freeOf.mp (show (z, p) ∈ freeOf F P.zs by simp [h])
    exact ⟨p, z, hz, ((hi.free_eq hz hF).2 p).mp hp⟩

theorem exists_allocPage (hi : PmmInv zoneList P.s F P.zs) (ho : OwnFamily zoneList P.zs F)
    (out : Word) : ∃ got s', (PmmCall.allocPage out).Returns zoneList P got s' ∧
      Effect zoneList P (.allocPage out) got s' := by
  have hset := settles_pmmAllocPage hi out
  have hfree := free_iff hi
  cases hF : freeOf F P.zs with
  | nil =>
      rw [hF] at hset hfree
      have hno : ¬ ∃ p, P.Free p := fun h => hfree.mp h rfl
      refine ⟨[], P.s, ⟨_, out, hset, fun h => absurd h hno, fun _ => rfl⟩,
        effect_of_shape rfl (fun _ _ => rfl) hi ho (fun p => ?_)
          (fun p hp => absurd hp List.not_mem_nil) List.nodup_nil⟩
      simp only [PmmCall.givenBack, List.not_mem_nil, false_and, not_false_eq_true, and_true,
        or_false]
      rfl
  | cons zp more =>
      obtain ⟨z, p⟩ := zp
      rw [hF] at hset hfree
      have hyes : ∃ p, P.Free p := hfree.mpr (List.cons_ne_nil _ _)
      obtain ⟨hz, fr, hfr, hp⟩ := mem_freeOf.mp (show (z, p) ∈ freeOf F P.zs by simp [hF])
      have hpage := ((hi.free_eq hz hfr).2 p).mp hp
      refine ⟨[p], P.s.take z p, ⟨_, p, hset, fun _ => rfl, fun h => absurd hyes h⟩,
        effect_of_shape rfl (fun w _ => P.s.take_shape z p w) (hi.take hz hfr hp).1 ?_
          (fun q => ?_) (fun q hq => ?_) (List.nodup_singleton p)⟩
      · intro h ys hF'
        by_cases hh : h = freePages z
        · exact .inr ⟨z, hz, hh⟩
        · rw [Function.update_of_ne hh] at hF'
          exact ho h ys hF'
      · simp only [PmmCall.givenBack, List.not_mem_nil, false_and, not_false_eq_true, and_true,
          List.mem_singleton, Pmm.take_flags]
        by_cases hq : q = p
        · rw [if_pos hq]
          exact iff_of_true ⟨z, hz, hq ▸ hpage.1, isNonfree_or _⟩ (.inr hq)
        · rw [if_neg hq]
          exact ⟨.inl, fun h => h.resolve_right hq⟩
      · rw [List.mem_singleton.mp hq]
        exact ⟨z, hz, hpage⟩

theorem effect_caller {s' : Pmm} (hi : PmmInv zoneList P.s F P.zs) (ho : OwnFamily zoneList P.zs F)
    (hm : P.CallerMoves zoneList s') : Effect zoneList P (.caller s') [] s' := by
  have hzone : ∀ z ∈ P.zs, (s'.zone z).shape = (P.s.zone z).shape := fun z hz => by rw [hm.zone z hz]
  have hi' : PmmInv zoneList s' F P.zs := by
    refine hi.update ⟨hi.lists.rep.congr fun x hx => ?_, hi.lists.notNull⟩ hi.zones hzone fun z hz => ?_
    · exact hm.heap x ((linked_iff_owned hi ho).mp hx)
    · obtain ⟨fr, hF, hcount, hfree⟩ := hi.free z hz
      refine ⟨fr, hF, by rw [hm.zone z hz, hcount], fun p => (hfree p).trans ?_⟩
      exact and_congr_right fun hp => by rw [hm.flags z hz p hp]
  refine effect_of_shape rfl hzone hi' ho (fun p => ?_) (fun p hp => absurd hp List.not_mem_nil)
    List.nodup_nil
  simp only [PmmCall.givenBack, List.not_mem_nil, false_and, not_false_eq_true, and_true, or_false]
  refine exists_congr fun z => and_congr_right fun hz => and_congr_right fun hp => ?_
  rw [hm.flags z hz p hp]

/-- Every admissible call returns. -/
theorem Snapshot.Sound.exists_effect (hs : P.Sound zoneList) {c : PmmCall}
    (ha : c.Admissible zoneList P) :
    ∃ got s', c.Returns zoneList P got s' ∧ Effect zoneList P c got s' := by
  obtain ⟨F, hi, ho⟩ := hs.inv
  cases c with
  | addZone z =>
      have hf := freshZone_of_offer hi ho ha
      obtain ⟨s', hset, hadded⟩ := settles_pmmAddZone hi.lists hi.zones ha.size_pos hf
      exact ⟨[], s', ⟨rfl, _, hset⟩, effect_addZone hi ho ha hf hadded⟩
  | allocPage out => exact exists_allocPage hi ho out
  | allocPages count list xs page =>
      obtain ⟨hx, hone⟩ := ha
      have hF : Function.update F list (some xs) list = some xs := Function.update_self ..
      have hfree : freeOf (Function.update F list (some xs)) P.zs = freeOf F P.zs := by
        simp only [freeOf]
        refine List.flatMap_congr fun z hz => ?_
        rw [Function.update_of_ne (hx.callerHead.2 z hz).symm]
      obtain ⟨plan, s', F', -, hset, hg⟩ := settles_pmmAllocPages (hi.adjoin ho hx) hx.callerHead hF
        count page fun h => by rw [hfree]; exact (free_iff hi).mp (hone h)
      exact ⟨_, s', ⟨hg.inv.lists.rep.ring hg.caller, _, _, hset⟩,
        effect_of_grabbed rfl rfl ho hx hg⟩
  | allocRange address count list xs =>
      have hF : Function.update F list (some xs) list = some xs := Function.update_self ..
      obtain ⟨plan, s', F', -, -, hset, hg⟩ := settles_pmmAllocRange (hi.adjoin ho ha)
        ha.callerHead hF address count
      exact ⟨_, s', ⟨hg.inv.lists.rep.ring hg.caller, _, hset⟩,
        effect_of_grabbed rfl rfl ho ha hg⟩
  | freePages head xs =>
      obtain ⟨hx, hheld⟩ := ha
      have hF : Function.update F head (some xs) head = some xs := Function.update_self ..
      obtain ⟨s', F', hset, hf⟩ := settles_pmmFreePages (hi.adjoin ho hx) hx.callerHead hF
        fun p hp => by
          obtain ⟨z, hz, hpage, -⟩ := hs.busy p (hheld p hp)
          exact ⟨z, hz, hpage⟩
      exact ⟨[], s', ⟨rfl, _, hset⟩, effect_of_freed rfl rfl hx.callerHead rfl rfl ho rfl hf⟩
  | freePage page list =>
      obtain ⟨hheld, hne, hl, h0⟩ := ha
      have hb := hs.busy page hheld
      have hun := fun {y} => (linked_iff_owned (x := y) hi ho).not
      obtain ⟨z, hz, hpage, -⟩ := id hb
      obtain ⟨s₀, F₀, s', F', hset, ⟨hz₀, hf₀, hF₀⟩, hf⟩ := settles_pmmFreePage hi
        (callerHead_of_not_owned hl) (hun.mpr hl) h0 (hun.mpr (hi.not_owned_of_busy hb)) hne
        ⟨z, hz, hpage⟩
      exact ⟨[], s', ⟨rfl, _, hset⟩,
        effect_of_freed rfl rfl (callerHead_of_not_owned hl) hz₀ hf₀ ho hF₀ hf⟩
  | caller s' => exact ⟨[], s', ⟨rfl, rfl⟩, effect_caller hi ho ha⟩

theorem PmmCall.Returns.unique {c : PmmCall} {got got' : List Word} {s s' : Pmm}
    (h : c.Returns zoneList P got s) (h' : c.Returns zoneList P got' s') :
    got = got' ∧ s = s' := by
  cases c with
  | addZone z =>
      obtain ⟨rfl, _, hs⟩ := h
      obtain ⟨rfl, _, hs'⟩ := h'
      exact ⟨rfl, (Prod.mk.inj (hs.unique hs')).2⟩
  | allocPage out =>
      obtain ⟨_, o, hs, hyes, hno⟩ := h
      obtain ⟨_, o', hs', hyes', hno'⟩ := h'
      obtain ⟨rfl, rfl⟩ := Prod.mk.inj (Prod.mk.inj (hs.unique hs')).2
      by_cases hf : ∃ p, P.Free p
      · exact ⟨(hyes hf).trans (hyes' hf).symm, rfl⟩
      · exact ⟨(hno hf).trans (hno' hf).symm, rfl⟩
  | allocPages count list xs page =>
      obtain ⟨hr, _, _, hs⟩ := h
      obtain ⟨hr', _, _, hs'⟩ := h'
      obtain rfl := (Prod.mk.inj (Prod.mk.inj (hs.unique hs')).2).2
      exact ⟨List.append_cancel_left (hr.unique hr'), rfl⟩
  | allocRange address count list xs =>
      obtain ⟨hr, _, hs⟩ := h
      obtain ⟨hr', _, hs'⟩ := h'
      obtain rfl := (Prod.mk.inj (hs.unique hs')).2
      exact ⟨List.append_cancel_left (hr.unique hr'), rfl⟩
  | freePages head xs | freePage page list =>
      obtain ⟨rfl, _, hs⟩ := h
      obtain ⟨rfl, _, hs'⟩ := h'
      exact ⟨rfl, (Prod.mk.inj (hs.unique hs')).2⟩
  | caller s'' =>
      obtain ⟨rfl, rfl⟩ := h
      obtain ⟨rfl, rfl⟩ := h'
      exact ⟨rfl, rfl⟩

theorem Snapshot.Sound.effect (hs : P.Sound zoneList) {c : PmmCall}
    (ha : c.Admissible zoneList P) {got : List Word} {s' : Pmm}
    (hr : c.Returns zoneList P got s') : Effect zoneList P c got s' := by
  obtain ⟨got', s'', hr', he⟩ := hs.exists_effect ha
  obtain ⟨rfl, rfl⟩ := hr.unique hr'
  exact he

theorem Snapshot.Busy.not_free {p : Word} (hb : P.Busy p) : ¬ P.Free p := by
  rintro ⟨w, -, -, hfree⟩
  obtain ⟨z, -, -, hflag⟩ := hb
  exact Bool.false_ne_true (hfree.symm.trans hflag)

/-- A call keeps the invariant. -/
theorem Snapshot.Sound.after (hs : P.Sound zoneList) {c : PmmCall} {got : List Word} {s' : Pmm}
    (he : Effect zoneList P c got s') : (P.after c got s').Sound zoneList where
  inv := he.inv
  busy := fun p hp => by
    obtain ⟨hp, hback⟩ := List.mem_filter.mp hp
    have hmem := List.mem_append.mp hp
    exact (he.busy p).mpr ⟨hmem.imp_left (hs.busy p), fun h => of_decide_eq_true hback h.1⟩
  nodup := by
    refine (List.nodup_append.mpr ⟨hs.nodup, he.nodup, fun p hp q hq e => ?_⟩).filter _
    exact (hs.busy p hp).not_free (e ▸ he.fresh q hq)

theorem pmmInv_init {s : Pmm} (hnull : zoneList ≠ NULL)
    (hnext : s.heap.next zoneList = zoneList) (hprev : s.heap.prev zoneList = zoneList) :
    ∃ F, PmmInv zoneList s F [] ∧ OwnFamily zoneList [] F := by
  let F : Family Word := Function.update (fun _ => none) zoneList (some [])
  have hone : ∀ {h ys}, F h = some ys → h = zoneList ∧ ys = [] := by
    intro h ys hF
    by_cases hh : h = zoneList
    · exact ⟨hh, by simpa [F, hh] using hF.symm⟩
    · simp [F, hh] at hF
  refine ⟨F, ⟨⟨⟨fun hF => ?_, ?_⟩, ?_⟩, Function.update_self .., ?_, ?_, ?_, ?_, ?_⟩,
    fun h ys hF => .inl (hone hF).1⟩
  · obtain ⟨rfl, rfl⟩ := hone hF
    exact .of_self hnext hprev
  · intro h k xs ys x hF hG _ _
    rw [(hone hF).1, (hone hG).1]
  · rintro x ⟨h, ys, hF, hx⟩
    obtain ⟨rfl, rfl⟩ := hone hF
    exact List.mem_singleton.mp hx ▸ hnull
  all_goals exact fun z hz => absurd hz List.not_mem_nil

theorem PmmReach.sound {ok : Snapshot → PmmCall → Prop} (hr : PmmReach zoneList ok P) :
    P.Sound zoneList := by
  induction hr with
  | init s hnull hnext hprev =>
      exact ⟨pmmInv_init hnull hnext hprev, fun p hp => absurd hp List.not_mem_nil,
        List.nodup_nil⟩
  | call _ ha _ hret ih => exact ih.after (ih.effect ha hret)

theorem Snapshot.Sound.caller (hs : P.Sound zoneList) {s' : Pmm}
    (hm : P.CallerMoves zoneList s') : Snapshot.Sound zoneList ⟨s', P.zs, P.held⟩ := by
  have hret : (PmmCall.caller s').Returns zoneList P [] s' := ⟨rfl, rfl⟩
  have h := hs.after (hs.effect (c := .caller s') hm hret)
  simpa [Snapshot.after, PmmCall.newZones, PmmCall.givenBack] using h

/-- A zone that is offered is added, with the next array of the boot allocator. -/
theorem Snapshot.Sound.addZone (hs : P.Sound zoneList) {z : Word} (hz : P.ZoneOffer zoneList z) :
    ∃ s', Settles (fun n => pmmAddZone zoneList n P.s z) (.noError, s') ∧
      Snapshot.Sound zoneList ⟨s', P.zs ++ [z], P.held⟩ ∧
      s'.zone z = addedZone P.s z ∧ (∀ w, w ≠ z → s'.zone w = P.s.zone w) ∧
      s'.bootAllocEnd = nextArray P.s + roundUp (zoneFrameCount (P.s.zone z) * sizeofVmPage) 8 := by
  obtain ⟨F, hi, ho⟩ := id hs.inv
  have hf := freshZone_of_offer hi ho hz
  obtain ⟨s', hset, ha⟩ := settles_pmmAddZone hi.lists hi.zones hz.size_pos hf
  have h := hs.after (effect_addZone hi ho hz hf ha)
  refine ⟨s', hset, ?_, ha.zone_new, fun w hw => ha.zone_old hw, ha.bootAllocEnd⟩
  simpa [Snapshot.after, PmmCall.newZones, PmmCall.givenBack] using h

end

end Rix
