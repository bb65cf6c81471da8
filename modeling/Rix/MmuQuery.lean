import Rix.MmuMapping
import Rix.BootWalk
import Rix.VmPreheap

/-!
# What the map of boot answers to `x86_mmu_query`

The walk of `mmu.c` keeps the flags of an entry in the address of the next table. Behind an
entry of the boot map it reads three bytes too far, and takes bit 24 of an entry for its bit P.
No table of the kernel image lies that high, so the query knows no address at all, and
`vm_init_preheap`, which asks it for the kernel's own pages, takes none of them.
-/
namespace Rix
open Rings Fuel

/-- The locals of `x86_mmu_query`: where they are, and what the stack held there. -/
structure QueryLocals where
  retEntry : Word
  retFlags : Word
  retLvl : Word
  held : Mapping
  ne_null : retEntry ≠ NULL ∧ retFlags ≠ NULL ∧ retLvl ≠ NULL

def sampleLocals : QueryLocals := ⟨8, 16, 24, ⟨0, 0, .pml4⟩, by decide, by decide, by decide⟩

/-- What the out pointers `paddr` and `flags` point to. -/
structure QueryOut where
  paddr : Word
  flags : BitVec 32

def x86MmuQuery (m : Word → Option Byte) (cr3 : Word) (l : QueryLocals) (vaddr flags : Word)
    (out : QueryOut) : Option (MmuStatus × QueryOut) :=
  (x86MmuGetMapping m vaddr (x86P2kv cr3) l.retEntry l.retFlags l.retLvl l.held).map
    fun (status, ret) =>
      if status ≠ .noError then (status, out)
      else
        let out := { out with paddr := ret.lastValidEntry }
        -- the caller may pass no place for the flags
        (.noError, if flags ≠ NULL then { out with flags := ret.outFlags.setWidth 32 } else out)

/-- `query` is what `mark_pages_in_use` learns from the call, which passes a null `flags`. -/
def AnswersAs (m : Word → Option Byte) (cr3 : Word) (l : QueryLocals)
    (query : Word → Option Word) : Prop :=
  ∀ va out, ∃ r, x86MmuQuery m cr3 l va NULL out = some r ∧
    query va = if r.1 = .noError then some r.2.paddr else none

/-- The image is loaded at 1 MiB; its tables end below 16 MiB. -/
def BootTables.Low (t : BootTables) : Prop :=
  ∀ x ∈ t.extents, x.1 + x.2 ≤ 2 ^ 24

instance (t : BootTables) : Decidable t.Low :=
  inferInstanceAs (Decidable (∀ x ∈ t.extents, x.1 + x.2 ≤ 2 ^ 24))

section Query

variable {m : Mem} {cr3 va flags : Word} {l : QueryLocals} {out : QueryOut}

theorem x86MmuQuery_eq (halign : cr3.toNat % 4096 = 0) (hlt : cr3.toNat < 2 ^ 36) :
    x86MmuQuery m.linear cr3 l va flags out =
      (displacedWalk m cr3 va).map fun (status, ret) =>
        if status ≠ .noError then (status, out)
        else (.noError, if flags ≠ NULL then ⟨ret.lastValidEntry, ret.outFlags.setWidth 32⟩
          else ⟨ret.lastValidEntry, out.flags⟩) := by
  rw [x86MmuQuery, x86MmuGetMapping_eq halign hlt l.ne_null.1 l.ne_null.2.1 l.ne_null.2.2]

theorem x86MmuQuery_of_notPresent (halign : cr3.toNat % 4096 = 0) (hlt : cr3.toNat < 2 ^ 36)
    {ret : Mapping} (h : displacedWalk m cr3 va = some (.errEntryNotPresent, ret)) :
    x86MmuQuery m.linear cr3 l va flags out = some (.errEntryNotPresent, out) := by
  rw [x86MmuQuery_eq halign hlt, h]
  rfl

/-- Three bytes into an entry its bit 24 is the low bit. -/
theorem present_get64_add_three (m : Mem) (a : Word) :
    present (m.get64 (a + 3)) = (m.get64 a).getLsbD 24 := by
  simp only [present, Mem.get64, Mem.get32, BitVec.getLsbD_append]
  rfl

theorem present_get64_of_lt {a : Word} (h : (m.get64 a).toNat < 2 ^ 24) :
    present (m.get64 (a + 3)) = false := by
  rw [present_get64_add_three]
  exact Nat.testBit_lt_two_pow h

theorem displaced_add_three {e table : Word} {shift : ℕ} (he : e = table + 3)
    (hlt : table.toNat < 2 ^ 32) :
    m.displaced e va shift =
      some (m.get64 (table + BitVec.ofNat 64 (8 * tableIndex va shift) + 3)) := by
  have hidx := tableIndex_lt va shift
  have hat : e + BitVec.ofNat 64 (8 * tableIndex va shift) =
      table + BitVec.ofNat 64 (8 * tableIndex va shift) + 3 := by
    rw [he, BitVec.add_assoc, BitVec.add_comm 3, ← BitVec.add_assoc]
  have hnat : (table + BitVec.ofNat 64 (8 * tableIndex va shift) + 3).toNat =
      table.toNat + 8 * tableIndex va shift + 3 := by
    rw [BitVec.add_assoc, show (3 : Word) = BitVec.ofNat 64 3 from rfl, ← BitVec.ofNat_add,
      toNat_add_ofNat (by omega)]
    omega
  rw [Mem.displaced, hat, load64_linear (by omega)]

end Query

section Boot

variable {t : BootTables} {m m' : Mem} {cr3 : Word}

/-- Below 16 MiB the map of boot ends every walk of `mmu.c` at its second table. -/
theorem displacedWalk_boot (ht : t.Placed) (hlow : t.Low) (hz : t.Zeroed m)
    (h : Stored m m' t.stores) (hcr3 : cr3.toNat = t.bootPml4Table.toNat) (va : Word) :
    ∃ ret, displacedWalk m' cr3 va = some (.errEntryNotPresent, ret) := by
  by_cases hp : present (m'.pml4e cr3 va) = true
  · -- only the last entry is present: it leads to `boot_pdp_high_table`
    have hentry := entry_bootPml4Table ht hz h hcr3 (tableIndex_lt va 39)
    have hbelow := ht.pdpHigh.below
    have hidx := tableIndex_lt va 30
    let table : Word := t.bootPdpHighTable.setWidth 64
    have htable : table.toNat = t.bootPdpHighTable.toNat := BitVec.toNat_setWidth_of_le (by decide)
    have he : m'.pml4e cr3 va = table + 3 := by
      rw [present_iff, Mem.pml4e, hentry] at hp
      apply BitVec.eq_of_toNat_eq
      have h3 : (table + 3).toNat = table.toNat + 3 := toNat_add_ofNat (k := 3) (by omega)
      rw [h3, htable, Mem.pml4e, hentry, if_pos]
      by_contra hne
      rw [if_neg hne] at hp
      exact absurd hp (by decide)
    have hentry30 := entry_bootPdpHighTable ht hz h htable hidx
    have harray := hlow (t.bootPdeArray.toNat, 64 * 4096) (by simp [BootTables.extents])
    have hpd := hlow (t.bootPdTable.toNat, 4096) (by simp [BootTables.extents])
    have hnot : present (m'.get64 (table + BitVec.ofNat 64 (8 * tableIndex va 30) + 3)) = false := by
      refine present_get64_of_lt ?_
      show (m'.entry table (tableIndex va 30)).toNat < 2 ^ 24
      rw [hentry30]
      simp only at harray hpd
      split
      · omega
      · split <;> omega
    rw [displacedWalk, if_pos hp, displaced_add_three he (by omega), Option.bind_some, hnot,
      if_neg (by decide)]
    exact ⟨_, rfl⟩
  · rw [displacedWalk, if_neg hp]
    exact ⟨_, rfl⟩

theorem x86MmuQuery_boot (ht : t.Placed) (hlow : t.Low) (hz : t.Zeroed m)
    (h : Stored m m' t.stores) (hcr3 : cr3.toNat = t.bootPml4Table.toNat) (l : QueryLocals)
    (va flags : Word) (out : QueryOut) :
    x86MmuQuery m'.linear cr3 l va flags out = some (.errEntryNotPresent, out) := by
  obtain ⟨ret, hret⟩ := displacedWalk_boot ht hlow hz h hcr3 va
  have hbelow := ht.pml4.below
  exact x86MmuQuery_of_notPresent (by rw [hcr3]; exact ht.pml4.aligned) (by omega) hret

end Boot

theorem toNat_cr3 {s : Cpu} {a : BitVec 32} (h : s.cr3 = a) :
    (s.cr3.setWidth 64 : Word).toNat = a.toNat := by
  rw [h]
  exact BitVec.toNat_setWidth_of_le (by decide)

/-- After boot `x86_mmu_query` reports every address as not present and stores nothing, those of
the 64 GiB and of the kernel's code that the processor maps included. -/
theorem boot_query_fails (t : BootTables) (ht : t.Placed) (hlow : t.Low) (s : Cpu)
    (hz : t.Zeroed s.mem) :
    ∃ s', Settles (fun fuel => (Cpu.setupPaging t fuel s).map (Cpu.unmapLower t)) s' ∧
      (∀ off < 2 ^ 36, ∀ va : Word, va.toNat = kernelAspaceBase.toNat + off →
        s'.mem.walk (s'.cr3.setWidth 64) va = .mapped (BitVec.ofNat 64 off)) ∧
      (∀ off < 2 ^ 30, ∀ va : Word, va.toNat = kernelVmaBase.toNat + off →
        s'.mem.walk (s'.cr3.setWidth 64) va = .mapped (BitVec.ofNat 64 off)) ∧
      ∀ l va flags out, x86MmuQuery s'.mem.linear (s'.cr3.setWidth 64) l va flags out =
        some (.errEntryNotPresent, out) := by
  obtain ⟨s', hrun, hcr3, h⟩ := exists_boot ht s
  have hw := toNat_cr3 hcr3
  exact ⟨s', hrun, fun _ hoff _ hva => walk_linear ht hz h hw hoff hva,
    fun _ hoff _ hva => walk_code ht hz h hw hoff hva, x86MmuQuery_boot ht hlow hz h hw⟩

/-- Tables in five runs of pages from 64 KiB on. -/
theorem boot_query_fails_sample : ∃ s', Settles (fun fuel =>
      (Cpu.setupPaging ⟨0x10000, 0x11000, 0x12000, 0x13000, 0x14000⟩ fuel
        ⟨0, 0, 0, 0, 0, fun _ => 0⟩).map
        (Cpu.unmapLower ⟨0x10000, 0x11000, 0x12000, 0x13000, 0x14000⟩)) s' ∧
    s'.mem.walk (s'.cr3.setWidth 64) 0xffffffff80100000 = .mapped 0x100000 ∧
    x86MmuQuery s'.mem.linear (s'.cr3.setWidth 64) sampleLocals 0xffffffff80100000 NULL ⟨7, 9⟩ =
      some (.errEntryNotPresent, ⟨7, 9⟩) := by
  obtain ⟨s', hrun, -, hcode, hquery⟩ := boot_query_fails
    ⟨0x10000, 0x11000, 0x12000, 0x13000, 0x14000⟩ ⟨by decide, by decide, by decide⟩ (by decide)
    ⟨0, 0, 0, 0, 0, fun _ => 0⟩ fun _ _ _ _ _ => rfl
  exact ⟨s', hrun, hcode 0x100000 (by decide) _ rfl, hquery _ _ _ _⟩

theorem no_page_of_query_none {query : Word → Option Word} (hq : ∀ va, query va = none)
    (img : VmImage) (P : Snapshot) (p : Word) : ¬ img.Page query P p := by
  rintro ⟨f, ⟨_, _, pa, h, _⟩ | ⟨_, _, pa, h, _⟩, _⟩
  all_goals
    rw [hq] at h
    cases h

/-- With the map of boot `vm_init_preheap` takes no page: in every state of the allocator it only
links `vmm_init_preheap`'s lists, and `pmm_alloc_page` comes to hand out each page that was free,
whatever lies in its frame. -/
theorem vm_init_preheap_takes_nothing (t : BootTables) (ht : t.Placed) (hlow : t.Low) (s : Cpu)
    (hz : t.Zeroed s.mem) (l : QueryLocals) :
    ∃ s' query, Settles (fun fuel => (Cpu.setupPaging t fuel s).map (Cpu.unmapLower t)) s' ∧
      AnswersAs s'.mem.linear (s'.cr3.setWidth 64) l query ∧
      ∀ {zoneList : Word} {P : Snapshot}, PmmReach zoneList (fun _ _ => True) P →
        ∀ img : VmImage, img.Foreign zoneList P →
          Settles (fun n => vmInitPreheap zoneList query img n P.s) (vmmInitPreheap img P.s) ∧
          ∀ p, P.Free p → ∃ Q s'',
            PmmRun zoneList (· = .allocPage 0) ⟨vmmInitPreheap img P.s, P.zs, P.held⟩ Q ∧
            (PmmCall.allocPage 0).Returns zoneList Q [p] s'' := by
  obtain ⟨s', hrun, hcr3, h⟩ := exists_boot ht s
  have hquery := x86MmuQuery_boot ht hlow hz h (toNat_cr3 hcr3) l
  refine ⟨s', fun _ => none, hrun, fun va out => ⟨_, hquery va NULL out, rfl⟩,
    fun hr img himg => ⟨?_, fun p hp => ?_⟩⟩
  · exact settles_vmInitPreheap hr.sound himg fun p hp =>
      absurd hp (no_page_of_query_none (fun _ => rfl) img _ p)
  · exact (hr.sound.vmmInitPreheap himg).exists_handout (· = .allocPage 0) rfl hp

def sampleVm : VmImage := ⟨8, 16, 24, 0xffffffff80100000, 0xffffffff80101000, 0⟩

theorem sample_vm : ∃ P, PmmReach 64 (fun _ _ => True) P ∧ P.zs = [4096] ∧
    (P.s.zone 4096).shape = (0x100000, 8192, 65536) ∧ (∀ p, ¬ P.Busy p) ∧ sampleVm.Foreign 64 P := by
  obtain ⟨P, hr, hzs, hshape, hbusy⟩ := sample_zone (fun _ _ => True) trivial
  have howned : ∀ x : Word, x = 8 ∨ x = 16 ∨ x = 24 → ¬ P.Owned 64 x := by
    have hpages := (isPage_sample hshape).2.2
    rintro x hx (h | ⟨z, hz, h⟩ | ⟨z, hz, h, -⟩)
    · rw [hzs] at h
      rcases hx with rfl | rfl | rfl <;> exact absurd h (by decide)
    · rw [hzs, List.mem_singleton] at hz
      subst hz
      rcases hx with rfl | rfl | rfl <;> exact absurd h (by decide)
    · rw [hzs, List.mem_singleton] at hz
      subst hz
      rw [hpages] at h
      rcases hx with rfl | rfl | rfl <;> exact absurd h (by decide)
  have hmove : P.CallerMoves 64 { P.s with heap := listInit P.s.heap 16 } := by
    refine ⟨fun x hx => ?_, fun _ _ => rfl, fun _ _ _ _ => rfl⟩
    have hne : x ≠ (16 : Word) := fun e => howned 16 (.inr (.inl rfl)) (e ▸ hx)
    exact ⟨if_neg hne, if_neg hne⟩
  have hret : (PmmCall.caller { P.s with heap := listInit P.s.heap 16 }).Returns 64 P []
    { P.s with heap := listInit P.s.heap 16 } := ⟨rfl, rfl⟩
  refine ⟨_, hr.call (c := .caller _) hmove trivial hret, by simp [Snapshot.after, PmmCall.newZones, hzs], hshape,
    ?_, ⟨?_, by decide, ?_⟩⟩
  · rintro p ⟨z, hz, hp⟩
    exact hbusy p ⟨z, by simpa [Snapshot.after, PmmCall.newZones] using hz, hp⟩
  · simp [sampleVm, Snapshot.after, listInit]
  · simp only [sampleVm, Snapshot.Owned, Snapshot.Free, Snapshot.after, PmmCall.newZones,
      List.append_nil]
    exact ⟨howned 8 (.inl rfl), howned 16 (.inr (.inl rfl)), howned 24 (.inr (.inr rfl))⟩

/-- The frame at 1 MiB, where the image is loaded, is handed out after `vm_init_preheap`. -/
theorem vm_init_preheap_takes_nothing_sample : ∃ (P Q : Snapshot) (s'' : Pmm),
    framePage (P.s.zone 4096) 0x100000 = 65536 ∧
    PmmRun 64 (· = .allocPage 0) ⟨vmmInitPreheap sampleVm P.s, P.zs, P.held⟩ Q ∧
    (PmmCall.allocPage 0).Returns 64 Q [65536] s'' := by
  obtain ⟨P, hr, hzs, hshape, hbusy, himg⟩ := sample_vm
  obtain ⟨s', query, -, -, h⟩ := vm_init_preheap_takes_nothing
    ⟨0x10000, 0x11000, 0x12000, 0x13000, 0x14000⟩ ⟨by decide, by decide, by decide⟩ (by decide)
    ⟨0, 0, 0, 0, 0, fun _ => 0⟩ (fun _ _ _ _ _ => rfl) sampleLocals
  have hpage := ((isPage_sample hshape).2.2 65536).mpr (.inl rfl)
  obtain ⟨Q, s'', hrun, hret⟩ := (h hr sampleVm himg).2 65536
    (Snapshot.free_of_not_busy (by simp [hzs]) hpage (hbusy _))
  refine ⟨P, Q, s'', ?_, hrun, hret⟩
  simp only [PmmZone.shape, Prod.mk.injEq] at hshape
  rw [framePage, hshape.1, pageAt, hshape.2.2]
  decide

end Rix
