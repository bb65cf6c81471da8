import Rix.PmmInvariant

/-!
# Freeing pages

`pmm_free_pages` detaches every page of a list and gives it back to the zone whose
page array holds it, as far as `PAGE_BELONGS_TO_ZONE` finds that zone. The macro
adds the number of frames to an address, so it finds a page only when its byte
offset in the array is below the number of frames.
-/
namespace Rix
open Rings Fuel

theorem pageBelongsToZone_congr {z w : PmmZone} (h : w.shape = z.shape) (p : Word) :
    pageBelongsToZone p w = pageBelongsToZone p z := by
  simp only [PmmZone.shape, Prod.mk.injEq] at h
  rw [pageBelongsToZone, pageBelongsToZone, zoneFrameCount, zoneFrameCount, h.2.1, h.2.2]

theorem pageBelongsToZone_iff {z : PmmZone} (htop : z.pageArray.toNat + 24 * frames z ≤ 2 ^ 64)
    (p : Word) : pageBelongsToZone p z = true ↔
      z.pageArray.toNat ≤ p.toNat ∧ p.toNat < z.pageArray.toNat + frames z := by
  have hpos := z.pageArray.isLt
  have hsum : (z.pageArray + zoneFrameCount z).toNat = z.pageArray.toNat + frames z := by
    rw [BitVec.toNat_add, zoneFrameCount_toNat]
    omega
  rw [pageBelongsToZone, Bool.and_eq_true, decide_eq_true_eq, decide_eq_true_eq, BitVec.le_def,
    BitVec.lt_def, hsum]

/-- The macro finds the page at an index when its byte offset is below the frame count. -/
theorem pageBelongsToZone_pageAt {z : PmmZone}
    (htop : z.pageArray.toNat + 24 * frames z ≤ 2 ^ 64) {i : Nat} (hi : i < frames z) :
    pageBelongsToZone (pageAt z (BitVec.ofNat 64 i)) z = true ↔ 24 * i < frames z := by
  rw [pageBelongsToZone_iff htop, pageAt_toNat htop hi]
  omega

/-- Some zone of the list claims the page. -/
def claimed (s : Pmm) (zs : List Word) (p : Word) : Bool :=
  zs.any fun z => pageBelongsToZone p (s.zone z)

theorem claimed_eq_true {s : Pmm} {zs : List Word} {p : Word} :
    claimed s zs p = true ↔ ∃ z ∈ zs, pageBelongsToZone p (s.zone z) = true := List.any_eq_true

section

variable {zoneList : Word} {s : Pmm} {F : Family Word} {zs : List Word} {head z w p : Word}

theorem PmmInv.claimed_zone (hi : PmmInv zoneList s F zs) (hz : z ∈ zs) (hw : w ∈ zs)
    (hp : IsPage (s.zone z) p) (hb : pageBelongsToZone p (s.zone w) = true) : w = z := by
  by_contra hne
  have h1 := hp.bounds (hi.geometry z hz).array_top
  have h2 := (pageBelongsToZone_iff (hi.geometry w hw).array_top p).mp hb
  rcases hi.arrays z hz w hw (Ne.symm hne) with h | h <;> omega

/-- The search gives the page to the zone that claims it, or leaves it. -/
theorem settles_freePageBody (hi : PmmInv zoneList s F zs) (page count : Word) :
    ∃ r, Settles (fun n => listForEach (fun st : Pmm × Word => st.1.heap) zoneList
        (freePageBody page) n (s, count)) r ∧
      ((∃ z ∈ zs, pageBelongsToZone page (s.zone z) = true ∧
        r = (s.release z page, count + 1)) ∨ claimed s zs page = false ∧ r = (s, count)) := by
  refine settles_listForEach (fun st : Pmm × Word => st.1.heap)
    (fun _ => freePageBody page)
    (fun rest st => st = (s, count) ∧
      ∃ us, zs = us ++ rest ∧ claimed s us page = false) _ ?_ ?_ ⟨rfl, [], rfl, rfl⟩
    hi.ring.next_head hi.notMem_zones
  · rintro z vs st ⟨rfl, us, hzs, hus⟩
    have hz : z ∈ zs := by simp [hzs]
    cases hb : pageBelongsToZone page (s.zone z) with
    | true =>
        refine .inr ⟨(s.release z page, count + 1), .of_forall fun _ => ?_,
          .inl ⟨z, hz, hb, rfl⟩⟩
        simp only [freePageBody, hb, if_true]
        rfl
    | false =>
        refine .inl ⟨(s, count), .of_forall fun _ => ?_, ⟨rfl, us ++ [z], by simp [hzs], ?_⟩,
          hi.next_zone hzs⟩
        · simp only [freePageBody, hb, Bool.false_eq_true, if_false]
        · simp only [claimed, List.any_append, List.any_cons, List.any_nil, hb, Bool.or_false]
          exact hus
  · rintro st ⟨rfl, us, hzs, hus⟩
    rw [List.append_nil] at hzs
    exact .inr ⟨hzs ▸ hus, rfl⟩

/-- The pages of `done` have left the caller's list, and those that a zone claims are at the
head of its free list again. -/
structure Freed (zoneList : Word) (s : Pmm) (F : Family Word) (zs : List Word) (head : Word)
    (done rest : List Word) (s' : Pmm) (F' : Family Word) : Prop where
  start : PmmInv zoneList s F zs
  inv : PmmInv zoneList s' F' zs
  caller : F' head = some rest
  back : ∀ z ∈ zs, ∃ fr, F (freePages z) = some fr ∧ F' (freePages z) =
    some ((done.filter fun p => pageBelongsToZone p (s.zone z)).reverse ++ fr)
  other : ∀ h, h ≠ head → (∀ z ∈ zs, h ≠ freePages z) → F' h = F h
  flags : ∀ p, (p ∈ done → claimed s zs p = false) → s'.flags p = s.flags p
  shape : ∀ w, (s'.zone w).shape = (s.zone w).shape

namespace Freed

variable {done rest : List Word} {s' : Pmm} {F' : Family Word}

theorem nil (hi : PmmInv zoneList s F zs) (hF : F head = some rest) :
    Freed zoneList s F zs head [] rest s F where
  start := hi
  inv := hi
  caller := hF
  back := fun z hz => by
    obtain ⟨fr, hfr, -⟩ := hi.free z hz
    exact ⟨fr, hfr, hfr⟩
  other := fun _ _ _ => rfl
  flags := fun _ _ => rfl
  shape := fun _ => rfl

theorem claimed_eq (hf : Freed zoneList s F zs head done rest s' F') (p : Word) :
    claimed s' zs p = claimed s zs p := by
  simp only [claimed, pageBelongsToZone_congr (hf.shape _)]

theorem leave (hc : CallerHead zoneList zs head)
    (hf : Freed zoneList s F zs head done (p :: rest) s' F') (hp : claimed s zs p = false) :
    ∃ F'', Freed zoneList s F zs head (done ++ [p]) rest (s'.detach p) F'' ∧ ¬ Linked F'' p := by
  obtain ⟨hi, hun⟩ := hf.inv.detach hc hf.caller
  refine ⟨_, ⟨hf.start, hi, Function.update_self .., fun z hz => ?_, fun h hne hfree => ?_,
    fun q hq => ?_, hf.shape⟩, hun⟩
  · obtain ⟨fr, hF, hF'⟩ := hf.back z hz
    have hpz : ¬ pageBelongsToZone p (s.zone z) = true := fun h =>
      Bool.false_ne_true (hp.symm.trans (claimed_eq_true.mpr ⟨z, hz, h⟩))
    refine ⟨fr, hF, ?_⟩
    rw [Function.update_of_ne (hc.2 z hz).symm, hF', List.filter_append,
      List.filter_cons, if_neg hpz, List.filter_nil, List.append_nil]
  · rw [Function.update_of_ne hne, hf.other h hne hfree]
  · exact hf.flags q fun hd => hq (List.mem_append_left _ hd)

theorem give (hc : CallerHead zoneList zs head)
    (hf : Freed zoneList s F zs head done (p :: rest) s' F') (hz : z ∈ zs)
    (hpage : IsPage (s.zone z) p) (hb : pageBelongsToZone p (s.zone z) = true) :
    ∃ F'', Freed zoneList s F zs head (done ++ [p]) rest ((s'.detach p).release z p) F'' := by
  obtain ⟨hi, hun⟩ := hf.inv.detach hc hf.caller
  obtain ⟨fr, hF, hF'⟩ := hf.back z hz
  have hF'' : Function.update F' head (some rest) (freePages z) =
      some ((done.filter fun p => pageBelongsToZone p (s.zone z)).reverse ++ fr) := by
    rw [Function.update_of_ne (hc.2 z hz).symm, hF']
  have hpage' : IsPage ((s'.detach p).zone z) p := (isPage_congr (hf.shape z) p).mpr hpage
  refine ⟨_, hf.start, hi.release hz hF'' hpage' hun, ?_, fun w hw => ?_,
    fun h hne hfree => ?_, fun q hq => ?_, fun w => ?_⟩
  · rw [Function.update_of_ne (hc.2 z hz), Function.update_self]
  · by_cases hwz : w = z
    · subst hwz
      refine ⟨fr, hF, ?_⟩
      rw [Function.update_self, List.filter_append, List.filter_cons, if_pos hb,
        List.reverse_append]
      rfl
    · obtain ⟨fw, hFw, hFw'⟩ := hf.back w hw
      have hpw : ¬ pageBelongsToZone p (s.zone w) = true := fun h =>
        hwz (hf.start.claimed_zone hz hw hpage h)
      refine ⟨fw, hFw, ?_⟩
      rw [Function.update_of_ne fun e => hwz (freePages_inj e),
        Function.update_of_ne (hc.2 w hw).symm, hFw', List.filter_append,
        List.filter_cons, if_neg hpw, List.filter_nil, List.append_nil]
  · rw [Function.update_of_ne (hfree z hz), Function.update_of_ne hne, hf.other h hne hfree]
  · have hqp : q ≠ p := by
      rintro rfl
      have := hq (List.mem_append_right done List.mem_cons_self)
      exact Bool.false_ne_true (this.symm.trans (claimed_eq_true.mpr ⟨z, hz, hb⟩))
    rw [Pmm.release_flags, if_neg hqp]
    exact hf.flags q fun hd => hq (List.mem_append_left _ hd)
  · exact (Pmm.release_shape _ z p w).trans (hf.shape w)

theorem settles_body (hc : CallerHead zoneList zs head)
    (hf : Freed zoneList s F zs head done (p :: rest) s' F')
    (hp : ∃ z ∈ zs, IsPage (s.zone z) p) (count : Word) :
    ∃ s'' F'', Settles (fun n => freePagesBody zoneList head n (s', count))
        (s'', count + BitVec.ofNat 64 ([p].countP (claimed s zs))) ∧
      Freed zoneList s F zs head (done ++ [p]) rest s'' F'' := by
  obtain ⟨r, hr, hcase⟩ := settles_freePageBody (hf.inv.detach hc hf.caller).1 p count
  have hbody : Settles (fun n => freePagesBody zoneList head n (s', count)) r :=
    hr.congr fun n => by rw [freePagesBody, hf.inv.lists.removeHead_cons hf.caller]; rfl
  have hcl : claimed (s'.detach p) zs p = claimed s zs p := hf.claimed_eq p
  rcases hcase with ⟨z, hz, hb, rfl⟩ | ⟨hn, rfl⟩
  · have hb' : pageBelongsToZone p (s.zone z) = true :=
      (pageBelongsToZone_congr (hf.shape z) p).symm.trans hb
    obtain ⟨w, hw, hpage⟩ := hp
    obtain rfl := hf.start.claimed_zone hw hz hpage hb'
    obtain ⟨F'', hf''⟩ := hf.give hc hz hpage hb'
    refine ⟨_, F'', ?_, hf''⟩
    rw [List.countP_singleton, if_pos (claimed_eq_true.mpr ⟨z, hz, hb'⟩)]
    exact hbody
  · obtain ⟨F'', hf'', -⟩ := hf.leave hc (hcl.symm.trans hn)
    refine ⟨_, F'', ?_, hf''⟩
    rw [List.countP_singleton, if_neg (by rw [← hcl, hn]; exact Bool.false_ne_true)]
    simpa using hbody

theorem whileSettles (hc : CallerHead zoneList zs head)
    (hf : Freed zoneList s F zs head done rest s' F')
    (hpages : ∀ p ∈ rest, ∃ z ∈ zs, IsPage (s.zone z) p) (count : Word) :
    ∃ s'' F'', WhileSettles (fun st : Pmm × Word => !listIsEmpty st.1.heap head)
        (fun n => freePagesBody zoneList head n) (s', count)
        (s'', count + BitVec.ofNat 64 (rest.countP (claimed s zs))) ∧
      Freed zoneList s F zs head (done ++ rest) [] s'' F'' := by
  have hempty := hf.inv.lists.isEmpty_eq hf.caller
  induction rest generalizing done s' F' count with
  | nil =>
      refine ⟨s', F', ?_, by rwa [List.append_nil]⟩
      rw [List.countP_nil, BitVec.add_zero]
      exact .stop (by simp [hempty])
  | cons p rest ih =>
      obtain ⟨s₁, F₁, hbody, hf₁⟩ := hf.settles_body hc (hpages p List.mem_cons_self) count
      obtain ⟨s₂, F₂, hloop, hf₂⟩ := ih hf₁
        (fun q hq => hpages q (List.mem_cons_of_mem p hq)) _
        (hf₁.inv.lists.isEmpty_eq hf₁.caller)
      refine ⟨s₂, F₂, ?_, by simpa using hf₂⟩
      have hsplit : (p :: rest).countP (claimed s zs) =
          [p].countP (claimed s zs) + rest.countP (claimed s zs) := by
        rw [← List.countP_append, List.singleton_append]
      rw [hsplit, BitVec.ofNat_add, ← BitVec.add_assoc]
      exact .next (by simp [hempty]) hbody hloop

end Freed

/-- `pmm_free_pages` empties the list and counts the pages that a zone claims. -/
theorem settles_pmmFreePages (hi : PmmInv zoneList s F zs) (hc : CallerHead zoneList zs head)
    {xs : List Word} (hF : F head = some xs) (hpages : ∀ p ∈ xs, ∃ z ∈ zs, IsPage (s.zone z) p) :
    ∃ s' F', Settles (fun n => pmmFreePages zoneList n s head)
        (BitVec.ofNat 64 (xs.countP (claimed s zs)), s') ∧
      Freed zoneList s F zs head xs [] s' F' := by
  obtain ⟨s', F', hloop, hf⟩ := (Freed.nil hi hF).whileSettles hc hpages 0
  refine ⟨s', F', ?_, hf⟩
  rw [show (0 : Word) + BitVec.ofNat 64 (xs.countP (claimed s zs)) =
    BitVec.ofNat 64 (xs.countP (claimed s zs)) from BitVec.zero_add _] at hloop
  exact hloop.settles.map fun st => (st.2, st.1)

/-- `pmm_free_page` frees the page through a list of its own. -/
theorem settles_pmmFreePage (hi : PmmInv zoneList s F zs) (hc : CallerHead zoneList zs head)
    (hn : ¬ Linked F head) (h0 : head ≠ NULL) (hp : ¬ Linked F p) (hph : p ≠ head)
    (hpage : ∃ z ∈ zs, IsPage (s.zone z) p) :
    ∃ s₀ F₀ s' F', Settles (fun n => pmmFreePage zoneList n s p head)
        (BitVec.ofNat 64 ([p].countP (claimed s zs)), s') ∧
      (s₀.zone = s.zone ∧ s₀.flags = s.flags ∧ F₀ = Function.update F head (some [p])) ∧
      Freed zoneList s₀ F₀ zs head [p] [] s' F' := by
  let s₁ : Pmm := { s with heap := listInit s.heap head }
  let s₂ : Pmm := { s₁ with heap := listAdd s₁.heap head p }
  have hinit : PmmInv zoneList s₁ (Function.update F head (some [])) zs :=
    hi.update_caller hc (hi.lists.init hn h0) rfl rfl
  have hun : ¬ Linked (Function.update F head (some [])) p := fun hl => by
    rcases linked_update hl with hl | hl
    · exact hph (List.mem_singleton.mp hl)
    · exact hp hl
  obtain ⟨z, hz, hpz⟩ := hpage
  have hF : Function.update F head (some []) head = some [] := Function.update_self ..
  have hadd := hinit.lists.add ⟨head, [], hF, List.mem_cons_self⟩ hun
    (hpz.ne_null (hi.geometry z hz))
  rw [hinit.lists.rep.insertAfter_eq hF List.mem_cons_self, if_pos rfl,
    Function.update_idem] at hadd
  have hi₀ : PmmInv zoneList s₂ (Function.update F head (some [p])) zs :=
    hi.update_caller hc hadd rfl rfl
  obtain ⟨s', F', hs', hf⟩ := settles_pmmFreePages hi₀ hc (Function.update_self ..)
    (fun q hq => by rw [List.mem_singleton.mp hq]; exact ⟨z, hz, hpz⟩)
  exact ⟨s₂, _, s', F', hs', ⟨rfl, rfl, rfl⟩, hf⟩

end

end Rix
