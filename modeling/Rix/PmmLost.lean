import Rix.VmPreheap

/-!
# Pages that are lost

`pmm_free_pages` looks for the zone of a page by `PAGE_BELONGS_TO_ZONE`. A page that the bound
does not reach keeps its flag and goes on no list: nobody holds it and no call hands it out again.
-/
namespace Rix

/-- Flagged, and in nobody's hand. -/
def Snapshot.Lost (P : Snapshot) (p : Word) : Prop := P.Busy p ∧ p ∉ P.held

def Snapshot.lost (P : Snapshot) : List Word :=
  P.pages.filter fun p => isNonfree (P.s.flags p) && decide (p ∉ P.held)

/-- Some call of some run hands the page out. -/
def Snapshot.ComesBack (zoneList : Word) (P : Snapshot) (p : Word) : Prop :=
  ∃ Q c got s', PmmRun zoneList (fun _ => True) P Q ∧ PmmCall.Admissible zoneList Q c ∧
    PmmCall.Returns zoneList Q got s' c ∧ p ∈ got

section

variable {zoneList : Word} {P Q : Snapshot} {c : PmmCall} {got : List Word} {s' : Pmm} {p : Word}

theorem Snapshot.mem_lost : p ∈ P.lost ↔ P.Lost p := by
  simp only [Snapshot.lost, Snapshot.pages, List.mem_filter, List.mem_flatMap, mem_pagesOf,
    Bool.and_eq_true, decide_eq_true_eq, Snapshot.Lost, Snapshot.Busy]
  constructor
  · rintro ⟨⟨z, hz, hp⟩, hflag, hheld⟩
    exact ⟨⟨z, hz, hp, hflag⟩, hheld⟩
  · rintro ⟨⟨z, hz, hp, hflag⟩, hheld⟩
    exact ⟨⟨z, hz, hp⟩, hflag, hheld⟩

theorem PmmCall.Admissible.mem_held (ha : c.Admissible zoneList P) (hp : p ∈ c.givenBack) :
    p ∈ P.held := by
  cases c with
  | freePages head xs => exact ha.2 p hp
  | freePage page list => exact List.mem_singleton.mp hp ▸ ha.1
  | _ => exact absurd hp List.not_mem_nil

/-- A call loses the pages that it is given back and does not find. -/
theorem Snapshot.Sound.lost_after (hs : P.Sound zoneList) (ha : c.Admissible zoneList P)
    (he : Effect zoneList P c got s') :
    (P.after c got s').Lost p ↔ P.Lost p ∨ p ∈ c.givenBack ∧ ¬ P.Findable p := by
  obtain ⟨F, hi, -⟩ := hs.inv
  have hclaimed : p ∈ c.givenBack → (claimed P.s P.zs p = true ↔ P.Findable p) := fun h =>
    hi.claimed_iff (hs.busy p (ha.mem_held h))
  have hheld : p ∈ (P.after c got s').held ↔ (p ∈ P.held ∨ p ∈ got) ∧ p ∉ c.givenBack := by
    rw [Snapshot.after, List.mem_filter, List.mem_append, decide_eq_true_eq]
  rw [Snapshot.Lost, he.busy p, hheld]
  constructor
  · rintro ⟨⟨hbusy, hback⟩, hout⟩
    by_cases hgiven : p ∈ c.givenBack
    · exact .inr ⟨hgiven, fun hf => hback ⟨hgiven, (hclaimed hgiven).mpr hf⟩⟩
    · have hnone : ¬ (p ∈ P.held ∨ p ∈ got) := fun h => hout ⟨h, hgiven⟩
      exact .inl ⟨hbusy.resolve_right fun h => hnone (.inr h), fun h => hnone (.inl h)⟩
  · rintro (⟨hbusy, hout⟩ | ⟨hgiven, hf⟩)
    · have hgiven : p ∉ c.givenBack := fun h => hout (ha.mem_held h)
      refine ⟨⟨.inl hbusy, fun h => hgiven h.1⟩, fun h => ?_⟩
      exact hbusy.not_free (he.fresh p (h.1.resolve_left hout))
    · exact ⟨⟨.inl (hs.busy p (ha.mem_held hgiven)), fun h => hf ((hclaimed hgiven).mp h.2)⟩,
        fun h => h.2 hgiven⟩

theorem PmmRun.lost {ok : PmmCall → Prop} (hr : PmmRun zoneList ok P Q) (hs : P.Sound zoneList)
    (hp : P.Lost p) : Q.Lost p := by
  induction hr with
  | refl => exact hp
  | call hr ha _ hret ih =>
      have hs' := hr.sound hs
      exact (hs'.lost_after ha (hs'.effect ha hret)).mpr (.inl ih)

theorem Snapshot.Lost.not_comesBack (hp : P.Lost p) (hs : P.Sound zoneList) :
    ¬ P.ComesBack zoneList p := by
  rintro ⟨Q, c, got, s', hr, ha, hret, hgot⟩
  have hs' := hr.sound hs
  exact (hr.lost hs hp).1.not_free ((hs'.effect ha hret).fresh p hgot)

theorem Effect.free_again (he : Effect zoneList P c got s') (hs : P.Sound zoneList)
    (ha : c.Admissible zoneList P) (hp : p ∈ c.givenBack) (hf : P.Findable p) :
    (P.after c got s').Free p := by
  obtain ⟨F, hi, -⟩ := hs.inv
  have hb := hs.busy p (ha.mem_held hp)
  have hidle : ¬ (P.after c got s').Busy p := fun h =>
    ((he.busy p).mp h).2 ⟨hp, (hi.claimed_iff hb).mpr hf⟩
  obtain ⟨z, hz, hpage, -⟩ := hb
  exact Snapshot.free_of_not_busy (List.mem_append_left _ hz)
    ((isPage_congr (he.shape z hz) p).mpr hpage) hidle

/-- A page that is given back is handed out again by some run exactly when
`PAGE_BELONGS_TO_ZONE` finds it: whatever calls follow, the others never are. -/
theorem given_back_again_iff {ok : Snapshot → PmmCall → Prop} (hr : PmmReach zoneList ok P)
    (ha : c.Admissible zoneList P) (hret : c.Returns zoneList P got s') (hp : p ∈ c.givenBack) :
    (P.after c got s').ComesBack zoneList p ↔ P.Findable p := by
  have hs := hr.sound
  have he := hs.effect ha hret
  have hs' := hs.after he
  constructor
  · intro hback
    by_contra hf
    exact ((hs.lost_after ha he).mpr (.inr ⟨hp, hf⟩)).not_comesBack hs' hback
  · intro hf
    obtain ⟨Q, s'', hrun, hret'⟩ := hs'.exists_handout (fun _ => True) trivial
      (he.free_again hs ha hp hf)
    exact ⟨Q, .allocPage 0, [p], s'', hrun, trivial, hret', List.mem_cons_self⟩

/-- The lost pages, counted as if someone held them. -/
theorem Snapshot.Sound.hold_lost (hs : P.Sound zoneList) :
    Snapshot.Sound zoneList ⟨P.s, P.zs, P.held ++ P.lost⟩ where
  inv := hs.inv
  busy := fun p hp => by
    rcases List.mem_append.mp hp with hp | hp
    · exact hs.busy p hp
    · exact (Snapshot.mem_lost.mp hp).1
  nodup := by
    obtain ⟨F, hi, -⟩ := hs.inv
    refine List.nodup_append.mpr ⟨hs.nodup, hi.nodup_pages.filter _, fun p hp q hq e => ?_⟩
    exact (Snapshot.mem_lost.mp hq).2 (e ▸ hp)

/-- In every run the free pages, the pages in hand and the lost ones are all the frames there are,
and no call brings a lost one back. -/
theorem frames_accounted {ok : Snapshot → PmmCall → Prop} (hr : PmmReach zoneList ok P) :
    (P.zs.map fun z => (P.s.zone z).freeCount.toNat).sum + P.held.length + P.lost.length =
      (P.zs.map fun z => frames (P.s.zone z)).sum ∧
    ∀ Q, PmmRun zoneList (fun _ => True) P Q → P.lost ⊆ Q.lost := by
  have hs := hr.sound
  refine ⟨?_, fun Q hrun p hp => Snapshot.mem_lost.mpr (hrun.lost hs (Snapshot.mem_lost.mp hp))⟩
  have hexact : Snapshot.Exact ⟨P.s, P.zs, P.held ++ P.lost⟩ := by
    intro p hp
    by_cases hheld : p ∈ P.held
    · exact List.mem_append_left _ hheld
    · exact List.mem_append_right _ (Snapshot.mem_lost.mpr ⟨hp, hheld⟩)
  have h := hs.hold_lost.conservation hexact
  rwa [List.length_append, ← Nat.add_assoc] at h

end

/-- The second page of a zone of two is lost when it is given back. -/
theorem given_back_again_iff_sample : ∃ (P : Snapshot) (s' : Pmm),
    (PmmCall.freePages 128 [65560]).Returns 64 P [] s' ∧
    ¬ (P.after (.freePages 128 [65560]) [] s').ComesBack 64 65560 := by
  obtain ⟨P, hr, hlist, hheld, hfind⟩ := sample_listed
  have ha : (PmmCall.freePages 128 [65560]).Admissible 64 P :=
    ⟨hlist, fun p hp => List.mem_singleton.mp hp ▸ hheld⟩
  obtain ⟨got, s', hret, -⟩ := hr.sound.exists_effect ha
  obtain rfl : got = [] := hret.1
  exact ⟨P, s', hret,
    fun h => hfind ((given_back_again_iff hr ha hret List.mem_cons_self).mp h)⟩

/-- The same page stays on the account of the lost ones. -/
theorem frames_accounted_sample : ∃ P : Snapshot, 65560 ∈ P.lost ∧
    (P.zs.map fun z => (P.s.zone z).freeCount.toNat).sum + P.held.length + P.lost.length =
      (P.zs.map fun z => frames (P.s.zone z)).sum ∧
    ∀ Q, PmmRun 64 (fun _ => True) P Q → 65560 ∈ Q.lost := by
  obtain ⟨P, hr, hlist, hheld, hfind⟩ := sample_listed
  have ha : (PmmCall.freePages 128 [65560]).Admissible 64 P :=
    ⟨hlist, fun p hp => List.mem_singleton.mp hp ▸ hheld⟩
  obtain ⟨got, s', hret, he⟩ := hr.sound.exists_effect ha
  have hlost := (hr.sound.lost_after ha he).mpr (.inr ⟨List.mem_cons_self, hfind⟩)
  obtain ⟨hsum, hmore⟩ := frames_accounted (hr.call ha trivial hret)
  exact ⟨_, Snapshot.mem_lost.mpr hlost, hsum,
    fun Q hrun => hmore Q hrun (Snapshot.mem_lost.mpr hlost)⟩

end Rix
