import Rix.PmmRuns

/-!
# Safety of the physical memory manager over all runs

In every snapshot of a run the free list of each zone holds its unflagged pages and
no page is handed out twice. Giving pages back restores them exactly when the bound
of `PAGE_BELONGS_TO_ZONE`, which counts frames where it should count bytes, still
reaches them; runs that only give back such pages lose none.
-/
namespace Rix
open Rings Fuel

instance (z : PmmZone) (p : Word) : Decidable (IsPage z p) :=
  inferInstanceAs (Decidable (∃ i, i < frames z ∧ p = pageAt z (BitVec.ofNat 64 i)))

/-- What holds of a zone and its free list. -/
structure ZoneSound (P : Snapshot) (z : Word) (fr : List Word) : Prop where
  ring : Ring P.s.heap (freePages z) fr
  count : (P.s.zone z).freeCount.toNat = fr.length
  pages : ∀ p, p ∈ fr ↔ IsPage (P.s.zone z) p ∧ isNonfree (P.s.flags p) = false
  own : ∀ w ∈ P.zs, w ≠ z → ∀ p ∈ fr, ¬ IsPage (P.s.zone w) p

section

variable {zoneList : Word} {P : Snapshot}

theorem Snapshot.Sound.zoneSound (hs : P.Sound zoneList) {z : Word} (hz : z ∈ P.zs) :
    ∃ fr, ZoneSound P z fr := by
  obtain ⟨F, hi, -⟩ := hs.inv
  obtain ⟨fr, hF, hcount, hm⟩ := hi.free z hz
  refine ⟨fr, hi.lists.rep.ring hF, ?_, hm, fun w hw hne p hp hpw => ?_⟩
  · rw [hcount, BitVec.toNat_ofNat, Nat.mod_eq_of_lt (hi.lists.length_lt hF)]
  · exact hne (hi.page_zone hw hz hpw ((hm p).mp hp).1)

def sampleStart : Snapshot :=
  ⟨⟨⟨id, id⟩, fun _ => ⟨0x100000, 8192, 0, 0⟩, fun _ => 0, 65536⟩, [], []⟩

theorem sampleStart_offer : sampleStart.ZoneOffer 64 4096 := by
  have howned : ∀ x, sampleStart.Owned 64 x ↔ x = 64 := by
    intro x
    simp [Snapshot.Owned, sampleStart, Snapshot.Free]
  refine ⟨?_, ?_, by decide, by decide, fun x hx => ?_, by decide, by decide, by decide, by decide,
    ?_, ?_⟩
  · rw [howned]; decide
  · rw [howned]; decide
  · rw [howned] at hx
    rcases hx with rfl | rfl | rfl <;> simp only [InCleared] <;> decide
  all_goals exact fun w hw => absurd hw List.not_mem_nil

theorem isPage_sample {z : PmmZone} (hz : z.shape = (0x100000, 8192, 65536)) :
    frames z = 2 ∧ pageAt z 1 = 65560 ∧ ∀ p, IsPage z p ↔ p = 65536 ∨ p = 65560 := by
  simp only [PmmZone.shape, Prod.mk.injEq] at hz
  have hf : frames z = 2 := by rw [frames, hz.2.1]; rfl
  refine ⟨hf, by rw [pageAt, hz.2.2]; rfl, fun p => ?_⟩
  simp only [IsPage, hf, pageAt, hz.2.2]
  constructor
  · rintro ⟨i, hi, rfl⟩
    interval_cases i
    · exact .inl (by decide)
    · exact .inr (by decide)
  · rintro (rfl | rfl)
    · exact ⟨0, by decide, by decide⟩
    · exact ⟨1, by decide, by decide⟩

theorem sample_zone (ok : Snapshot → PmmCall → Prop) (hok : ok sampleStart (.addZone 4096)) :
    ∃ P, PmmReach 64 ok P ∧ P.zs = [4096] ∧ (P.s.zone 4096).shape = (0x100000, 8192, 65536) ∧
      ∀ p, ¬ P.Busy p := by
  have hr : PmmReach 64 ok sampleStart := .init _ (by decide) rfl rfl
  obtain ⟨got, s', hret, he⟩ := hr.sound.exists_effect (c := .addZone 4096) sampleStart_offer
  have hgot : got = [] := hret.1
  refine ⟨_, hr.call (c := .addZone 4096) sampleStart_offer hok hret, rfl, ?_, fun p hp => ?_⟩
  · simp only [Snapshot.after]
    rw [he.added 4096 List.mem_cons_self]
    decide
  · rcases ((he.busy p).mp hp).1 with ⟨z, hz, -⟩ | hp
    · exact absurd hz List.not_mem_nil
    · rw [hgot] at hp
      exact absurd hp List.not_mem_nil

/-- The allocator invariant over whole runs. In every snapshot the zone list is circular and
each zone is sound, pages handed out are flagged and on no free list, and an admissible call
returns and hands out free pages only, none of them twice and none that is handed out. -/
theorem allocator_sound {ok : Snapshot → PmmCall → Prop} (hr : PmmReach zoneList ok P) :
    Ring P.s.heap zoneList P.zs ∧
    (∀ z ∈ P.zs, ∃ fr, ZoneSound P z fr) ∧
    (∀ p ∈ P.held, P.Busy p ∧ ∀ z ∈ P.zs, ∀ fr, Ring P.s.heap (freePages z) fr → p ∉ fr) ∧
    ∀ c : PmmCall, c.Admissible zoneList P →
      (∃ got s', c.Returns zoneList P got s') ∧
      ∀ got s', c.Returns zoneList P got s' → got.Nodup ∧ ∀ p ∈ got, P.Free p ∧ p ∉ P.held := by
  have hs := hr.sound
  obtain ⟨F, hi, -⟩ := id hs.inv
  refine ⟨hi.ring, fun z hz => hs.zoneSound hz, fun p hp => ⟨hs.busy p hp, ?_⟩, fun c ha => ?_⟩
  · intro z hz fr hring hm
    obtain ⟨fr', hfr⟩ := hs.zoneSound hz
    rw [hring.unique hfr.ring] at hm
    exact (hs.busy p hp).not_free ⟨z, hz, (hfr.pages p).mp hm⟩
  · obtain ⟨got, s', hret, he⟩ := hs.exists_effect ha
    refine ⟨⟨got, s', hret⟩, fun got' s'' hret' => ?_⟩
    obtain ⟨rfl, rfl⟩ := hret.unique hret'
    exact ⟨he.nodup, fun p hp => ⟨he.fresh p hp, fun hh => (hs.busy p hh).not_free (he.fresh p hp)⟩⟩

theorem allocator_sound_sample : ∃ (P : Snapshot) (fr : List Word), P.zs = [4096] ∧
    ZoneSound P 4096 fr := by
  obtain ⟨P, hr, hzs, -⟩ := sample_zone (fun _ _ => True) trivial
  obtain ⟨fr, hfr⟩ := (allocator_sound hr).2.1 4096 (by simp [hzs])
  exact ⟨P, fr, hzs, hfr⟩

/-- The page's byte offset in its array is below the number of frames of its zone. -/
def Snapshot.Findable (P : Snapshot) (p : Word) : Prop :=
  ∀ z ∈ P.zs, ∀ i < frames (P.s.zone z),
    p = pageAt (P.s.zone z) (BitVec.ofNat 64 i) → 24 * i < frames (P.s.zone z)

/-- Every page of `xs` is free again, on the list of its zone, and all are counted. -/
structure Restored (P : Snapshot) (xs : List Word) (count : Word) (s' : Pmm) : Prop where
  count : count.toNat = xs.length
  clear : ∀ p ∈ xs, isNonfree (s'.flags p) = false
  back : ∀ p ∈ xs, ∀ z ∈ P.zs, IsPage (P.s.zone z) p →
    ∃ fr, Ring s'.heap (freePages z) fr ∧ p ∈ fr
  counts : ∀ z ∈ P.zs, (s'.zone z).freeCount.toNat =
    (P.s.zone z).freeCount.toNat + xs.countP fun p => IsPage (P.s.zone z) p

theorem PmmInv.claimed_iff {F : Family Word} (hi : PmmInv zoneList P.s F P.zs) {p : Word}
    (hb : P.Busy p) : claimed P.s P.zs p = true ↔ P.Findable p := by
  obtain ⟨z, hz, hpage, -⟩ := hb
  rw [claimed_eq_true]
  constructor
  · rintro ⟨w, hw, hbw⟩ v hv i hlt rfl
    have hpv : IsPage (P.s.zone v) _ := ⟨i, hlt, rfl⟩
    obtain rfl := hi.claimed_zone hv hw hpv hbw
    exact (pageBelongsToZone_pageAt (hi.geometry w hw).array_top hlt).mp hbw
  · intro hf
    obtain ⟨i, hlt, rfl⟩ := hpage
    exact ⟨z, hz, (pageBelongsToZone_pageAt (hi.geometry z hz).array_top hlt).mpr (hf z hz i hlt rfl)⟩

/-- A call that gives pages back restores them exactly when it finds the zone of each. -/
theorem Freed.restored_iff {s₀ s' : Pmm} {F₀ F' : Family Word} {head : Word} {xs : List Word}
    {F : Family Word} (hi : PmmInv zoneList P.s F P.zs) (hz₀ : s₀.zone = P.s.zone)
    (hbusy : ∀ p ∈ xs, P.Busy p) (hlen : xs.length < 2 ^ 64)
    (hf : Freed zoneList s₀ F₀ P.zs head xs [] s' F') :
    Restored P xs (BitVec.ofNat 64 (xs.countP (claimed P.s P.zs))) s' ↔
      ∀ p ∈ xs, P.Findable p := by
  have hle := List.countP_le_length (p := claimed P.s P.zs) (l := xs)
  have hcount : (BitVec.ofNat 64 (xs.countP (claimed P.s P.zs))).toNat =
      xs.countP (claimed P.s P.zs) := by
    rw [BitVec.toNat_ofNat, Nat.mod_eq_of_lt (by omega)]
  have hall : xs.countP (claimed P.s P.zs) = xs.length ↔ ∀ p ∈ xs, P.Findable p := by
    rw [List.countP_eq_length]
    exact forall₂_congr fun p hp => hi.claimed_iff (hbusy p hp)
  refine ⟨fun hr => hall.mp (hcount ▸ hr.count), fun hfind => ?_⟩
  have hcl : ∀ p ∈ xs, ∀ z ∈ P.zs, IsPage (P.s.zone z) p →
      pageBelongsToZone p (P.s.zone z) = true := by
    intro p hp z hz hpage
    obtain ⟨w, hw, hb⟩ := claimed_eq_true.mp ((hi.claimed_iff (hbusy p hp)).mpr (hfind p hp))
    obtain rfl := hi.claimed_zone hz hw hpage hb
    exact hb
  have hmem : ∀ p ∈ xs, ∀ z ∈ P.zs, IsPage (P.s.zone z) p →
      ∃ fr, F' (freePages z) = some fr ∧ p ∈ fr := by
    intro p hp z hz hpage
    obtain ⟨fr, -, hF'⟩ := hf.back z hz
    refine ⟨_, hF', List.mem_append_left _ (List.mem_reverse.mpr (List.mem_filter.mpr ⟨hp, ?_⟩))⟩
    rw [hz₀]
    exact hcl p hp z hz hpage
  refine ⟨hcount.trans (hall.mpr hfind), fun p hp => ?_, fun p hp z hz hpage => ?_, fun z hz => ?_⟩
  · obtain ⟨z, hz, hpage, -⟩ := hbusy p hp
    obtain ⟨fr, hF', hm⟩ := hmem p hp z hz hpage
    exact (((hf.inv.free_eq hz hF').2 p).mp hm).2
  · obtain ⟨fr, hF', hm⟩ := hmem p hp z hz hpage
    exact ⟨fr, hf.inv.lists.rep.ring hF', hm⟩
  · obtain ⟨fr, hF, hF'⟩ := hf.back z hz
    have h1 := hf.start.lists.length_lt hF
    have h2 := hf.inv.lists.length_lt hF'
    rw [(hf.inv.free_eq hz hF').1, BitVec.toNat_ofNat, Nat.mod_eq_of_lt h2, List.length_append,
      List.length_reverse, ← List.countP_eq_length_filter, ← hz₀, (hf.start.free_eq hz hF).1,
      BitVec.toNat_ofNat, Nat.mod_eq_of_lt h1, Nat.add_comm, hz₀]
    congr 1
    refine List.countP_congr fun p hp => ?_
    rw [decide_eq_true_eq]
    refine ⟨fun hb => ?_, hcl p hp z hz⟩
    obtain ⟨w, hw, hpage, -⟩ := hbusy p hp
    obtain rfl := hi.claimed_zone hw hz hpage hb
    exact hpage

def pagesOf (z : PmmZone) : List Word :=
  (List.range (frames z)).map fun i => pageAt z (BitVec.ofNat 64 i)

theorem mem_pagesOf {z : PmmZone} {p : Word} : p ∈ pagesOf z ↔ IsPage z p := by
  simp only [pagesOf, List.mem_map, List.mem_range, IsPage, eq_comm]

theorem nodup_pagesOf {z : PmmZone} (hg : ZoneGeometry z) : (pagesOf z).Nodup :=
  List.nodup_range.map_on fun _ hi _ hj h =>
    pageAt_inj hg (List.mem_range.mp hi) (List.mem_range.mp hj) h

def Snapshot.pages (P : Snapshot) : List Word := P.zs.flatMap fun z => pagesOf (P.s.zone z)

theorem PmmInv.nodup_pages {F : Family Word} (hi : PmmInv zoneList P.s F P.zs) :
    P.pages.Nodup := by
  refine List.nodup_flatMap.mpr ⟨fun z hz => nodup_pagesOf (hi.geometry z hz), ?_⟩
  refine (List.nodup_cons.mp hi.ring.nodup).2.imp_of_mem fun {z w} hz hw hne => ?_
  intro p hp hp'
  exact hne (hi.page_zone hz hw (mem_pagesOf.mp hp) (mem_pagesOf.mp hp'))

/-- Every flagged page is held by a caller: no page has been lost. -/
def Snapshot.Exact (P : Snapshot) : Prop := ∀ p, P.Busy p → p ∈ P.held

def findableFrees (P : Snapshot) (c : PmmCall) : Prop := ∀ p ∈ c.givenBack, P.Findable p

theorem Snapshot.Exact.after {c : PmmCall} {got : List Word} {s' : Pmm} (hs : P.Sound zoneList)
    (hx : P.Exact) (ha : c.Admissible zoneList P) (hok : findableFrees P c)
    (he : Effect zoneList P c got s') : (P.after c got s').Exact := by
  obtain ⟨F, hi, -⟩ := hs.inv
  have hheld : ∀ p ∈ c.givenBack, p ∈ P.held := by
    cases c with
    | freePages head xs => exact ha.2
    | freePage page list => exact fun p hp => List.mem_singleton.mp hp ▸ ha.1
    | _ => exact fun p hp => absurd hp List.not_mem_nil
  intro p hp
  obtain ⟨hmem, hback⟩ := (he.busy p).mp hp
  refine List.mem_filter.mpr ⟨List.mem_append.mpr (hmem.imp_left (hx p)), decide_eq_true ?_⟩
  exact fun h => hback ⟨h, (hi.claimed_iff (hs.busy p (hheld p h))).mpr (hok p h)⟩

theorem PmmReach.exact (hr : PmmReach zoneList findableFrees P) : P.Exact := by
  induction hr with
  | init s hnull hnext hprev => exact fun p ⟨z, hz, _⟩ => absurd hz List.not_mem_nil
  | call hr ha hok hret ih => exact ih.after hr.sound ha hok (hr.sound.effect ha hret)

/-- Free pages and held pages are all the pages there are. -/
theorem Snapshot.Sound.conservation (hs : P.Sound zoneList) (hx : P.Exact) :
    (P.zs.map fun z => (P.s.zone z).freeCount.toNat).sum + P.held.length =
      (P.zs.map fun z => frames (P.s.zone z)).sum := by
  obtain ⟨F, hi, -⟩ := id hs.inv
  let free : Word → Bool := fun p => !isNonfree (P.s.flags p)
  have hlen : P.pages.length = (P.zs.map fun z => frames (P.s.zone z)).sum := by
    rw [Snapshot.pages, List.length_flatMap]
    simp only [pagesOf, List.length_map, List.length_range]
  have hfree : P.pages.countP free = (P.zs.map fun z => (P.s.zone z).freeCount.toNat).sum := by
    rw [Snapshot.pages, List.countP_flatMap]
    congr 1
    refine List.map_congr_left fun z hz => ?_
    obtain ⟨fr, hfr⟩ := hs.zoneSound hz
    have hperm : ((pagesOf (P.s.zone z)).filter free).Perm fr := by
      rw [List.perm_ext_iff_of_nodup ((nodup_pagesOf (hi.geometry z hz)).filter _)
        (List.nodup_cons.mp hfr.ring.nodup).2]
      intro p
      rw [List.mem_filter, mem_pagesOf, hfr.pages p]
      simp [free]
    rw [Function.comp_apply, List.countP_eq_length_filter, hperm.length_eq, hfr.count]
  have hheld : P.pages.countP (fun p => !free p) = P.held.length := by
    have hperm : (P.pages.filter fun p => !free p).Perm P.held := by
      rw [List.perm_ext_iff_of_nodup (hi.nodup_pages.filter _) hs.nodup]
      intro p
      have hb : p ∈ P.held ↔ P.Busy p := ⟨hs.busy p, hx p⟩
      simp only [hb, List.mem_filter, Snapshot.pages, List.mem_flatMap, mem_pagesOf, free,
        Bool.not_not, Snapshot.Busy]
      tauto
    rw [List.countP_eq_length_filter, hperm.length_eq]
  have hsplit := List.length_eq_countP_add_countP free (l := P.pages)
  simp only [Bool.not_eq_true, Bool.decide_eq_false] at hsplit
  rw [← hlen, hsplit, hfree, hheld]

theorem Snapshot.Sound.freePages_restored (hs : P.Sound zoneList) {head : Word} {xs : List Word}
    (hx : P.CallerList zoneList head xs) (hheld : ∀ p ∈ xs, p ∈ P.held) :
    ∃ count s', Settles (fun n => pmmFreePages zoneList n P.s head) (count, s') ∧
      (Ring s'.heap head [] ∧ Restored P xs count s' ↔ ∀ p ∈ xs, P.Findable p) := by
  obtain ⟨F, hi, ho⟩ := id hs.inv
  have hF : Function.update F head (some xs) head = some xs := Function.update_self ..
  have hadj := hi.adjoin ho hx
  obtain ⟨s', F', hset, hf⟩ := settles_pmmFreePages hadj hx.callerHead hF fun p hp => by
    obtain ⟨z, hz, hpage, -⟩ := hs.busy p (hheld p hp)
    exact ⟨z, hz, hpage⟩
  refine ⟨_, s', hset, ?_⟩
  rw [hf.restored_iff hi rfl (fun p hp => hs.busy p (hheld p hp)) (hadj.lists.length_lt hF)]
  exact and_iff_right (hf.inv.lists.rep.ring hf.caller)

theorem Snapshot.Sound.freePage_restored (hs : P.Sound zoneList) {page list : Word}
    (ha : (PmmCall.freePage page list).Admissible zoneList P) :
    ∃ count s', Settles (fun n => pmmFreePage zoneList n P.s page list) (count, s') ∧
      (Restored P [page] count s' ↔ P.Findable page) := by
  obtain ⟨F, hi, ho⟩ := id hs.inv
  obtain ⟨hheld, hne, hl, h0⟩ := ha
  have hb := hs.busy page hheld
  have hun := fun {y} => (linked_iff_owned (x := y) hi ho).not
  obtain ⟨z, hz, hpage, -⟩ := id hb
  obtain ⟨s₀, F₀, s', F', hset, ⟨hz₀, -, -⟩, hf⟩ := settles_pmmFreePage hi
    (callerHead_of_not_owned hl) (hun.mpr hl) h0 (hun.mpr (hi.not_owned_of_busy hb)) hne
    ⟨z, hz, hpage⟩
  refine ⟨_, s', hset, ?_⟩
  rw [hf.restored_iff hi hz₀ (fun p hp => List.mem_singleton.mp hp ▸ hb) (by simp)]
  exact List.forall_mem_singleton

theorem Snapshot.Sound.exists_page (hs : P.Sound zoneList) (hfree : ∃ p, P.Free p) :
    ∃ p s', (PmmCall.allocPage 0).Returns zoneList P [p] s' ∧
      Effect zoneList P (.allocPage 0) [p] s' := by
  obtain ⟨got, s', hret, he⟩ := hs.exists_effect (c := .allocPage 0) trivial
  obtain ⟨_, p, -, hyes, -⟩ := id hret
  obtain rfl := hyes hfree
  exact ⟨p, s', hret, he⟩

theorem PmmReach.allocPage {ok : Snapshot → PmmCall → Prop} (hr : PmmReach zoneList ok P)
    (hfree : ∃ p, P.Free p) (hok : ok P (.allocPage 0)) :
    ∃ P' p, PmmReach zoneList ok P' ∧ P.Free p ∧ P'.zs = P.zs ∧ P'.held = P.held ++ [p] ∧
      (∀ z ∈ P.zs, (P'.s.zone z).shape = (P.s.zone z).shape) ∧
      ∀ q, P'.Busy q ↔ P.Busy q ∨ q = p := by
  obtain ⟨p, s', hret, he⟩ := hr.sound.exists_page hfree
  refine ⟨_, p, hr.call (c := .allocPage 0) trivial hok hret, he.fresh p List.mem_cons_self, ?_, ?_,
    he.shape, fun q => ?_⟩
  · simp [Snapshot.after, PmmCall.newZones]
  · simp [Snapshot.after, PmmCall.givenBack]
  · simpa [PmmCall.givenBack] using he.busy q

theorem Snapshot.free_of_not_busy {z p : Word} (hz : z ∈ P.zs) (hp : IsPage (P.s.zone z) p)
    (hb : ¬ P.Busy p) : P.Free p :=
  ⟨z, hz, hp, by rw [← Bool.not_eq_true]; exact fun h => hb ⟨z, hz, hp, h⟩⟩

theorem sample_held {page : Word} (hpage : page = 65536 ∨ page = 65560) :
    ∃ P, PmmReach 64 (fun _ _ => True) P ∧ P.zs = [4096] ∧
      (P.s.zone 4096).shape = (0x100000, 8192, 65536) ∧ page ∈ P.held := by
  obtain ⟨P₁, hr₁, hzs₁, hshape₁, hbusy₁⟩ := sample_zone (fun _ _ => True) trivial
  have hz₁ : (4096 : Word) ∈ P₁.zs := by simp [hzs₁]
  have hpages₁ := (isPage_sample hshape₁).2.2
  obtain ⟨P₂, p, hr₂, hp, hzs₂, hheld₂, hshape₂, hbusy₂⟩ := hr₁.allocPage
    ⟨page, Snapshot.free_of_not_busy hz₁ ((hpages₁ _).mpr hpage) (hbusy₁ _)⟩ trivial
  have hshape₂' := (hshape₂ 4096 hz₁).trans hshape₁
  have hbusy₂' : ∀ q, P₂.Busy q ↔ q = p := fun q => by simp [hbusy₂, hbusy₁]
  rw [hzs₁] at hzs₂
  have hz₂ : (4096 : Word) ∈ P₂.zs := by simp [hzs₂]
  have hpages₂ := (isPage_sample hshape₂').2.2
  -- a free page is one of the two
  have htwo : ∀ {P : Snapshot} {q}, P.zs = [4096] →
      (∀ p, IsPage (P.s.zone 4096) p ↔ p = 65536 ∨ p = 65560) → P.Free q →
      q = 65536 ∨ q = 65560 := by
    rintro P q hzs hpages ⟨z, hz, hq, -⟩
    rw [hzs, List.mem_singleton] at hz
    exact (hpages q).mp (hz ▸ hq)
  by_cases hp' : p = page
  · exact ⟨P₂, hr₂, hzs₂, hshape₂', by simp [hheld₂, hp']⟩
  have hfree : ∃ q, P₂.Free q := ⟨page, Snapshot.free_of_not_busy hz₂
    ((hpages₂ _).mpr hpage) fun h => hp' ((hbusy₂' _).mp h).symm⟩
  obtain ⟨P₃, q, hr₃, hq, hzs₃, hheld₃, hshape₃, -⟩ := hr₂.allocPage hfree trivial
  have hq' : q = page := by
    have hne : q ≠ p := fun e => ((hbusy₂' q).mpr e).not_free hq
    rcases htwo hzs₁ hpages₁ hp with rfl | rfl
    · rcases htwo hzs₂ hpages₂ hq with rfl | rfl
      · exact absurd rfl hne
      · exact (hpage.resolve_left fun e => hp' e.symm).symm
    · rcases htwo hzs₂ hpages₂ hq with rfl | rfl
      · exact (hpage.resolve_right fun e => hp' e.symm).symm
      · exact absurd rfl hne
  exact ⟨P₃, hr₃, hzs₃.trans hzs₂, (hshape₃ 4096 hz₂).trans hshape₂', by simp [hheld₃, hq']⟩

theorem sample_not_owned {P : Snapshot} (hzs : P.zs = [4096])
    (hshape : (P.s.zone 4096).shape = (0x100000, 8192, 65536)) : ¬ P.Owned 64 128 := by
  rintro (h | ⟨z, hz, h⟩ | ⟨z, hz, h, -⟩)
  · rw [hzs] at h
    exact absurd h (by decide)
  · rw [hzs, List.mem_singleton] at hz
    rw [hz] at h
    exact absurd h (by decide)
  · rw [hzs, List.mem_singleton] at hz
    rw [hz, (isPage_sample hshape).2.2] at h
    exact absurd h (by decide)

theorem PmmReach.link {ok : Snapshot → PmmCall → Prop} (hr : PmmReach zoneList ok P)
    {list p : Word} (hp : p ∈ P.held) (hne : p ≠ list) (hp0 : p ≠ NULL)
    (hl : ¬ P.Owned zoneList list) (h0 : list ≠ NULL)
    (hok : ∀ s', ok P (.caller s')) :
    ∃ P', PmmReach zoneList ok P' ∧ P'.CallerList zoneList list [p] ∧ P'.held = P.held ∧
      P'.zs = P.zs ∧ P'.s.zone = P.s.zone := by
  obtain ⟨F, hi, -⟩ := hr.sound.inv
  have hpo := hi.not_owned_of_busy (hr.sound.busy p hp)
  have hinit : Ring (listInit P.s.heap list) list [] :=
    .of_self (by simp [listInit]) (by simp [listInit])
  have hring := hinit.linkBefore (n := p) (by simpa using hne)
  rw [← listAddTail_eq hne.symm, List.nil_append] at hring
  let s' : Pmm := { P.s with heap := listAddTail (listInit P.s.heap list) list p }
  have hmoves : (PmmCall.caller s').Admissible zoneList P := by
    refine ⟨fun x hx => ?_, fun _ _ => rfl, fun _ _ _ _ => rfl⟩
    have hxl : x ≠ list := fun e => hl (e ▸ hx)
    have hxp : x ≠ p := fun e => hpo (e ▸ hx)
    simp [s', Links.AgreeAt, listAddTail, listInit, hxl, hxp]
  have howned : ∀ y, (P.after (.caller s') [] s').Owned zoneList y ↔ P.Owned zoneList y := fun y => by
    simp [s', Snapshot.Owned, Snapshot.after, PmmCall.newZones, Snapshot.Free]
  refine ⟨_, hr.call hmoves (hok s') ⟨rfl, rfl⟩, ⟨hring, fun x hx => ?_⟩, ?_, ?_, rfl⟩
  · rw [howned]
    rcases List.mem_cons.mp hx with rfl | hx
    · exact ⟨hl, h0⟩
    · rw [List.mem_singleton.mp hx]
      exact ⟨hpo, hp0⟩
  · simp [Snapshot.after, PmmCall.givenBack]
  · simp [Snapshot.after, PmmCall.newZones]

theorem sample_listed : ∃ P, PmmReach 64 (fun _ _ => True) P ∧ P.CallerList 64 128 [65560] ∧
    65560 ∈ P.held ∧ ¬ P.Findable 65560 := by
  obtain ⟨P, hr, hzs, hshape, hheld⟩ := sample_held (.inr rfl)
  obtain ⟨hframes, hsecond, -⟩ := isPage_sample hshape
  obtain ⟨P', hr', hlist, hheld', hzs', hzone'⟩ := hr.link hheld (by decide) (by decide)
    (sample_not_owned hzs hshape) (by decide) fun _ => trivial
  refine ⟨P', hr', hlist, hheld' ▸ hheld, fun hf => ?_⟩
  have := hf 4096 (by simp [hzs', hzs]) 1 (by rw [hzone', hframes]; decide)
    (by rw [hzone']; exact hsecond.symm)
  rw [hzone', hframes] at this
  omega

/-- Giving back pages that are handed out restores all of them exactly when each is findable,
and a run that gives back findable pages only never loses one. -/
theorem free_restores_iff (hr : PmmReach zoneList (fun _ _ => True) P) :
    (∀ head xs, P.CallerList zoneList head xs → (∀ p ∈ xs, p ∈ P.held) →
      ∃ count s', Settles (fun n => pmmFreePages zoneList n P.s head) (count, s') ∧
        (Ring s'.heap head [] ∧ Restored P xs count s' ↔ ∀ p ∈ xs, P.Findable p)) ∧
    (∀ page list, (PmmCall.freePage page list).Admissible zoneList P →
      ∃ count s', Settles (fun n => pmmFreePage zoneList n P.s page list) (count, s') ∧
        (Restored P [page] count s' ↔ P.Findable page)) ∧
    (PmmReach zoneList findableFrees P →
      (P.zs.map fun z => (P.s.zone z).freeCount.toNat).sum + P.held.length =
        (P.zs.map fun z => frames (P.s.zone z)).sum) :=
  ⟨fun _ _ hx hheld => hr.sound.freePages_restored hx hheld,
    fun _ _ ha => hr.sound.freePage_restored ha, fun hr' => hr.sound.conservation hr'.exact⟩

/-- The first page of a zone of two frames is back when it is given back. -/
theorem free_restores_iff_sample : ∃ (P : Snapshot) (count : Word) (s' : Pmm), 65536 ∈ P.held ∧
    Settles (fun n => pmmFreePage 64 n P.s 65536 128) (count, s') ∧ Restored P [65536] count s' := by
  obtain ⟨P, hr, hzs, hshape, hheld⟩ := sample_held (.inl rfl)
  obtain ⟨hframes, hsecond, -⟩ := isPage_sample hshape
  have ha : (PmmCall.freePage 65536 128).Admissible 64 P :=
    ⟨hheld, by decide, sample_not_owned hzs hshape, by decide⟩
  obtain ⟨count, s', hset, hiff⟩ := (free_restores_iff hr).2.1 65536 128 ha
  refine ⟨P, count, s', hheld, hset, hiff.mpr fun z hz i hi hpage => ?_⟩
  rw [hzs, List.mem_singleton] at hz
  subst hz
  rw [hframes] at hi ⊢
  interval_cases i
  · decide
  · exact absurd (hpage.trans hsecond) (by decide)

/-- The second page of a zone of two frames is lost when it is given back. -/
theorem second_page_lost : ¬ ∀ P, PmmReach 64 (fun _ _ => True) P →
    ∀ head xs, P.CallerList 64 head xs → (∀ p ∈ xs, p ∈ P.held) →
      ∃ count s', Settles (fun n => pmmFreePages 64 n P.s head) (count, s') ∧
        Ring s'.heap head [] ∧ Restored P xs count s' := by
  intro h
  obtain ⟨P, hr, hlist, hheld, hlost⟩ := sample_listed
  have hall : ∀ p ∈ [(65560 : Word)], p ∈ P.held := fun p hp => List.mem_singleton.mp hp ▸ hheld
  obtain ⟨count, s', hset, hres⟩ := h P hr 128 [65560] hlist hall
  obtain ⟨count', s'', hset', hiff⟩ := hr.sound.freePages_restored hlist hall
  obtain ⟨rfl, rfl⟩ := Prod.mk.inj (hset.unique hset')
  exact hlost (hiff.mp hres 65560 List.mem_cons_self)

end

end Rix
