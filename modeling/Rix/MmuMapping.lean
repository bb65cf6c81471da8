import Rix.BootPaging
import Rix.PageWalk

/-!
# The page walk of `mmu.c`

`x86_mmu_get_mapping` reads every table through the linear map. It makes a pointer of an
entry by adding `KERNEL_ASPACE_BASE`, and leaves the flags of the entry in it.
-/
namespace Rix

/-- Physical memory as it is read through the linear map of 64 GiB. -/
def Mem.linear (m : Mem) : Word → Option Byte := fun a =>
  if (a - kernelAspaceBase).toNat < 2 ^ 36 then some (m (a - kernelAspaceBase)) else none

def x86P2kv (x : Word) : Word := x + kernelAspaceBase

def x86Kv2p (x : Word) : Word := x - kernelAspaceBase

def x86PmlShift : ℕ := 39
def x86PdpShift : ℕ := 30
def x86PdShift : ℕ := 21
def x86PtShift : ℕ := 12

def vaddrToIndex (shift : ℕ) (vaddr : Word) : Word := (vaddr >>> shift) &&& 0x1ff

def hasBit (entry : Word) (bit : BitVec 32) : Bool := entry &&& bit.setWidth 64 ≠ 0

def x86PageEntryFlagsMask : Word := 0x0000000000000fff
def x864kbPageFrame : Word := 0x000ffffffffff000
def x862mbPageFrame : Word := 0x000fffffffe00000
def x864kbPageOffsetMask : Word := 0xfff
def x862mbPageOffsetMask : Word := 0x1fffff

def x86GetPfnFromPde (pde : Word) : Word := pde &&& x862mbPageFrame

def x86GetPfnFromPte (pte : Word) : Word := pte &&& x864kbPageFrame

/-- The entry that `vaddr` selects in `table`, as a kernel address. -/
def x86GetEntry (shift : ℕ) (m : Word → Option Byte) (vaddr table : Word) : Option Word :=
  (load64 m (table + 8 * vaddrToIndex shift vaddr)).map x86P2kv

def x86GetPml4eFromPml4t := x86GetEntry x86PmlShift
def x86GetPdpeFromPdpt := x86GetEntry x86PdpShift
def x86GetPdeFromPdt := x86GetEntry x86PdShift
def x86GetPteFromPt := x86GetEntry x86PtShift

/-- `x86_mmu_status_t`. -/
inductive MmuStatus where
  | noError
  | errEntryNotPresent
  | errOutOfMemory
  | errInvalidArgs
  deriving DecidableEq, Repr

/-- What the three out pointers point to. -/
structure Mapping where
  lastValidEntry : Word
  outFlags : Word
  outLvl : PageLevel
  deriving DecidableEq, Repr

/-- `out` is the prior content behind the three pointers. -/
def x86MmuGetMapping (m : Word → Option Byte) (vaddr pml4 lastValidEntry outFlags outLvl : Word)
    (out : Mapping) : Option (MmuStatus × Mapping) := do
  let pml4e ← x86GetPml4eFromPml4t m vaddr pml4
  if lastValidEntry = NULL ∨ outFlags = NULL ∨ outLvl = NULL then some (.errInvalidArgs, out)
  -- check if pml4 table entry present
  else if !hasBit pml4e x86PageBitP then some (.errEntryNotPresent, ⟨pml4, 0, .pml4⟩)
  else do
    let pdpe ← x86GetPdpeFromPdpt m vaddr pml4e
    if !hasBit pdpe x86PageBitP then some (.errEntryNotPresent, ⟨pml4e, 0, .pdp⟩)
    else do
      let pde ← x86GetPdeFromPdt m vaddr pdpe
      if !hasBit pde x86PageBitP then some (.errEntryNotPresent, ⟨pdpe, 0, .pd⟩)
      -- 2 MiB huge pages
      else if hasBit pde x86PageBitPs then
        some (.noError, ⟨x86GetPfnFromPde (x86Kv2p pde) + (vaddr &&& x862mbPageOffsetMask), 0, .frame⟩)
      -- 4 KiB pages
      else do
        let pte ← x86GetPteFromPt m vaddr pde
        if !hasBit pte x86PageBitP then some (.errEntryNotPresent, ⟨pde, 0, .pt⟩)
        else some (.noError, ⟨x86GetPfnFromPte (x86Kv2p pte) + (vaddr &&& x864kbPageOffsetMask),
          pte &&& x86PageEntryFlagsMask, .frame⟩)

def Mem.pml4e (m : Mem) (pml4 va : Word) : Word := m.entry pml4 (tableIndex va 39)

def Mem.pdpe (m : Mem) (pml4 va : Word) : Word :=
  m.entry (frameOf 12 (m.pml4e pml4 va)) (tableIndex va 30)

def Mem.pde (m : Mem) (pml4 va : Word) : Word :=
  m.entry (frameOf 12 (m.pdpe pml4 va)) (tableIndex va 21)

/-- A table for the entry `e` in the linear map, apart from the tables above it. -/
def TableBelow (e : Word) (above : List Word) : Prop :=
  (frameOf 12 e).toNat < 2 ^ 36 ∧ frameOf 12 e ∉ above

/-- The tables that the walk of `va` meets form a tree with leaves of 2 MiB and 4 KiB. -/
structure TableTree (m : Mem) (pml4 va : Word) : Prop where
  pdpt : present (m.pml4e pml4 va) = true → TableBelow (m.pml4e pml4 va) [pml4]
  pdt : present (m.pml4e pml4 va) = true → present (m.pdpe pml4 va) = true →
    pageSizeBit (m.pdpe pml4 va) = false ∧
    TableBelow (m.pdpe pml4 va) [frameOf 12 (m.pml4e pml4 va), pml4]
  pt : present (m.pml4e pml4 va) = true → present (m.pdpe pml4 va) = true →
    present (m.pde pml4 va) = true → pageSizeBit (m.pde pml4 va) = false →
    TableBelow (m.pde pml4 va)
      [frameOf 12 (m.pdpe pml4 va), frameOf 12 (m.pml4e pml4 va), pml4]

/-- The result says where the architecture's walk ends. -/
def Reports (w : Walk) (r : MmuStatus × Mapping) : Prop :=
  match w with
  | .mapped pa => r.1 = .noError ∧ r.2.lastValidEntry = pa
  | .notPresent level => r.1 = .errEntryNotPresent ∧ r.2.outLvl = level

/-- `pml4` is the physical address of the table; the call gets its kernel address. -/
def MappingExact (m : Mem) (pml4 va : Word) : Prop :=
  ∀ lastValidEntry outFlags outLvl : Word, lastValidEntry ≠ NULL → outFlags ≠ NULL →
    outLvl ≠ NULL → ∀ out, ∃ r,
      x86MmuGetMapping m.linear va (x86P2kv pml4) lastValidEntry outFlags outLvl out = some r ∧
      Reports (m.walk pml4 va) r

section Loads

variable {m : Mem} {va table e : Word} {shift : ℕ}

theorem vaddrToIndex_eq (shift : ℕ) (va : Word) :
    vaddrToIndex shift va = BitVec.ofNat 64 (tableIndex va shift) := by
  apply BitVec.eq_of_toNat_eq
  have hlt := tableIndex_lt va shift
  rw [vaddrToIndex, BitVec.toNat_and, BitVec.toNat_ushiftRight, Nat.shiftRight_eq_div_pow,
    show (0x1ff : Word).toNat = 2 ^ 9 - 1 from rfl, Nat.and_two_pow_sub_one_eq_mod,
    BitVec.toNat_ofNat, Nat.mod_eq_of_lt (Nat.lt_trans hlt (by decide))]
  rfl

theorem eight_mul_vaddrToIndex (shift : ℕ) (va : Word) :
    8 * vaddrToIndex shift va = BitVec.ofNat 64 (8 * tableIndex va shift) := by
  rw [vaddrToIndex_eq, BitVec.ofNat_mul]
  rfl

theorem x86P2kv_add (a b : Word) : x86P2kv a + b = x86P2kv (a + b) := by
  rw [x86P2kv, x86P2kv, BitVec.add_assoc, BitVec.add_comm kernelAspaceBase, ← BitVec.add_assoc]

theorem Mem.linear_x86P2kv (m : Mem) (a : Word) :
    m.linear (x86P2kv a) = if a.toNat < 2 ^ 36 then some (m a) else none := by
  rw [Mem.linear, x86P2kv, BitVec.add_sub_cancel]

theorem load64_linear {a : Word} (h : a.toNat + 8 ≤ 2 ^ 36) :
    load64 m.linear (x86P2kv a) = some (m.get64 a) := by
  have hread : Readable m.linear (fun x => m (x - kernelAspaceBase)) (x86P2kv a) 8 := by
    intro i hi
    have hnat : (a + BitVec.ofNat 64 i).toNat = a.toNat + i := toNat_add_ofNat (by omega)
    rw [x86P2kv_add, Mem.linear_x86P2kv, if_pos (by omega)]
    simp only [x86P2kv, BitVec.add_sub_cancel]
  have hbytes : Mem.get64 (fun x => m (x - kernelAspaceBase)) (x86P2kv a) = m.get64 a := by
    simp only [Mem.get64, Mem.get32, x86P2kv_add]
    simp only [x86P2kv, BitVec.add_sub_cancel]
  rw [hread.load64, hbytes]

theorem present_of_load64 {w : Word → Option Byte} {a v : Word} (h : load64 w a = some v) :
    ∃ b, w a = some b ∧ present v = b.getLsbD 0 := by
  simp only [load64, load32, Option.bind_eq_bind, Option.bind_eq_some_iff, Option.pure_def,
    Option.some.injEq] at h
  obtain ⟨_, ⟨b0, hb0, _, -, _, -, _, -, rfl⟩, _, -, rfl⟩ := h
  refine ⟨b0, hb0, ?_⟩
  simp only [present, BitVec.getLsbD_append]
  rfl

/-- Bit 0 of an entry survives the step to its kernel address. -/
theorem hasBit_present (e : Word) : hasBit (x86P2kv e) x86PageBitP = present e := by
  have hand : (x86P2kv e &&& BitVec.setWidth 64 x86PageBitP).toNat = e.toNat % 2 := by
    rw [BitVec.toNat_and, show (BitVec.setWidth 64 x86PageBitP).toNat = 2 ^ 1 - 1 from rfl,
      Nat.and_two_pow_sub_one_eq_mod, x86P2kv, BitVec.toNat_add,
      toNat_kernelAspaceBase]
    omega
  rw [Bool.eq_iff_iff, present_iff, hasBit, decide_eq_true_eq, Ne, ← BitVec.toNat_inj, hand]
  simp

theorem x86GetEntry_eq (h : table.toNat % 4096 = 0) (hlt : table.toNat < 2 ^ 36) :
    x86GetEntry shift m.linear va (x86P2kv table) =
      some (x86P2kv (m.entry table (tableIndex va shift))) := by
  have hidx := tableIndex_lt va shift
  have hnat : (table + BitVec.ofNat 64 (8 * tableIndex va shift)).toNat =
      table.toNat + 8 * tableIndex va shift := toNat_add_ofNat (by omega)
  rw [x86GetEntry, eight_mul_vaddrToIndex, x86P2kv_add, load64_linear (by omega)]
  rfl

end Loads

/-- The word that the call reads behind the entry `e`: at the address that the flags of `e` have
moved. -/
def Mem.displaced (m : Mem) (e va : Word) (shift : ℕ) : Option Word :=
  load64 m.linear (x86P2kv (e + BitVec.ofNat 64 (8 * tableIndex va shift)))

section Walks

variable {m : Mem} {pml4 va e : Word}

theorem hasBit_pageSizeBit (e : Word) : hasBit (x86P2kv e) x86PageBitPs = pageSizeBit e := by
  have hbit : (x86P2kv e).toNat / 128 % 2 = e.toNat / 128 % 2 := by
    rw [x86P2kv, BitVec.toNat_add, toNat_kernelAspaceBase]
    omega
  rw [Bool.eq_iff_iff, pageSizeBit_iff, ← hbit, ← pageSizeBit_iff, hasBit, decide_eq_true_eq,
    show BitVec.setWidth 64 x86PageBitPs = BitVec.twoPow 64 7 from rfl, BitVec.and_twoPow, pageSizeBit]
  by_cases h : (x86P2kv e).getLsbD 7 = true
  · rw [if_pos h]
    exact iff_of_true (by decide) h
  · rw [if_neg h]
    exact iff_of_false (fun hne => hne rfl) h

theorem x86GetEntry_displaced (shift : ℕ) (e : Word) :
    x86GetEntry shift m.linear va (x86P2kv e) = (m.displaced e va shift).map x86P2kv := by
  rw [x86GetEntry, eight_mul_vaddrToIndex, x86P2kv_add, Mem.displaced]

/-- What the call computes, in terms of the words that it reads. -/
def displacedWalk (m : Mem) (pml4 va : Word) : Option (MmuStatus × Mapping) :=
  if present (m.pml4e pml4 va) then
    (m.displaced (m.pml4e pml4 va) va 30).bind fun pdpe =>
      if present pdpe then
        (m.displaced pdpe va 21).bind fun pde =>
          if present pde then
            if pageSizeBit pde then
              some (.noError, ⟨frameOf 21 pde + pageOffset 21 va, 0, .frame⟩)
            else
              (m.displaced pde va 12).bind fun pte =>
                if present pte then
                  some (.noError, ⟨frameOf 12 pte + pageOffset 12 va,
                    x86P2kv pte &&& x86PageEntryFlagsMask, .frame⟩)
                else some (.errEntryNotPresent, ⟨x86P2kv pde, 0, .pt⟩)
          else some (.errEntryNotPresent, ⟨x86P2kv pdpe, 0, .pd⟩)
      else some (.errEntryNotPresent, ⟨x86P2kv (m.pml4e pml4 va), 0, .pdp⟩)
  else some (.errEntryNotPresent, ⟨x86P2kv pml4, 0, .pml4⟩)

theorem x86GetPml4eFromPml4t_eq (halign : pml4.toNat % 4096 = 0) (hlt : pml4.toNat < 2 ^ 36) :
    x86GetPml4eFromPml4t m.linear va (x86P2kv pml4) = some (x86P2kv (m.pml4e pml4 va)) :=
  x86GetEntry_eq halign hlt

theorem ite_present {α : Type*} (e : Word) (a b : α) :
    (if !hasBit (x86P2kv e) x86PageBitP then a else b) = if present e then b else a := by
  rw [hasBit_present]
  cases present e <;> rfl

theorem x86MmuGetMapping_eq (halign : pml4.toNat % 4096 = 0) (hlt : pml4.toNat < 2 ^ 36)
    {lastValidEntry outFlags outLvl : Word} (h1 : lastValidEntry ≠ NULL) (h2 : outFlags ≠ NULL)
    (h3 : outLvl ≠ NULL) (out : Mapping) :
    x86MmuGetMapping m.linear va (x86P2kv pml4) lastValidEntry outFlags outLvl out =
      displacedWalk m pml4 va := by
  unfold x86MmuGetMapping displacedWalk
  rw [x86GetPml4eFromPml4t_eq halign hlt, Option.bind_eq_bind, Option.bind_some,
    if_neg fun hnull => hnull.elim h1 fun hnull => hnull.elim h2 h3, ite_present,
    x86GetPdpeFromPdpt, x86GetEntry_displaced, Option.bind_map]
  refine if_congr Iff.rfl (congrArg _ (funext fun pdpe => ?_)) rfl
  rw [Function.comp_apply, ite_present, x86GetPdeFromPdt, x86GetEntry_displaced,
    Option.bind_map]
  refine if_congr Iff.rfl (congrArg _ (funext fun pde => ?_)) rfl
  rw [Function.comp_apply, ite_present, hasBit_pageSizeBit, x86GetPteFromPt, x86GetEntry_displaced,
    Option.bind_map]
  refine if_congr Iff.rfl (if_congr Iff.rfl ?_ (congrArg _ (funext fun pte => ?_))) rfl
  · rw [x86Kv2p, x86P2kv, BitVec.add_sub_cancel]
    rfl
  · rw [Function.comp_apply, ite_present, x86Kv2p, x86P2kv, BitVec.add_sub_cancel]
    rfl

theorem mappingExact_of_notPresent (halign : pml4.toNat % 4096 = 0) (hlt : pml4.toNat < 2 ^ 36)
    (h : present (m.pml4e pml4 va) = false) : MappingExact m pml4 va := by
  intro lastValidEntry outFlags outLvl h1 h2 h3 out
  have hne : ¬ present (m.pml4e pml4 va) = true := by rw [h]; decide
  have hwalk : m.walk pml4 va = .notPresent .pml4 := if_neg hne
  rw [x86MmuGetMapping_eq halign hlt h1 h2 h3, displacedWalk, if_neg hne, hwalk]
  exact ⟨_, rfl, rfl, rfl⟩

/-- Where the PML4 entry is present, the call stops at the next level when the low bit of the byte
at the moved address is clear, and only then. -/
theorem outLvl_pdp_iff (h : present (m.pml4e pml4 va) = true) {r : MmuStatus × Mapping}
    (hr : displacedWalk m pml4 va = some r) : r.2.outLvl = .pdp ↔
      (m (m.pml4e pml4 va + BitVec.ofNat 64 (8 * tableIndex va 30))).getLsbD 0 = false := by
  rw [displacedWalk, if_pos h] at hr
  obtain ⟨pdpe, hpdpe, hr⟩ := Option.bind_eq_some_iff.mp hr
  obtain ⟨b, hb, hbit⟩ := present_of_load64 hpdpe
  have hbyte : m (m.pml4e pml4 va + BitVec.ofNat 64 (8 * tableIndex va 30)) = b := by
    rw [Mem.linear_x86P2kv] at hb
    split at hb
    · exact Option.some_inj.mp hb
    · cases hb
  rw [hbyte, ← hbit]
  by_cases hp : present pdpe = true
  · -- below this level no result names it
    rw [if_pos hp] at hr
    refine iff_of_false (fun hlvl => ?_) (by rw [hp]; decide)
    obtain ⟨pde, -, hr⟩ := Option.bind_eq_some_iff.mp hr
    split at hr
    · split at hr
      · obtain rfl := Option.some_inj.mp hr
        cases hlvl
      · obtain ⟨pte, -, hr⟩ := Option.bind_eq_some_iff.mp hr
        split at hr
        all_goals
          obtain rfl := Option.some_inj.mp hr
          cases hlvl
    · obtain rfl := Option.some_inj.mp hr
      cases hlvl
  · rw [if_neg hp] at hr
    obtain rfl := Option.some_inj.mp hr
    exact iff_of_true rfl (eq_false_of_ne_true hp)

end Walks

section Trees

variable {pml4 va e table other v : Word} {m : Mem} {i j : ℕ}

theorem separate_entries (h : table.toNat % 4096 = 0) (h' : other.toNat % 4096 = 0)
    (hne : table ≠ other) (hi : i < 512) (hj : j < 512) :
    Separate (table + BitVec.ofNat 64 (8 * i)) 8 (other + BitVec.ofNat 64 (8 * j)) 8 := by
  have hne' : table.toNat ≠ other.toNat := fun e => hne (BitVec.eq_of_toNat_eq e)
  have h1 := table.isLt
  have h2 := other.isLt
  unfold Separate
  rw [BitVec.toNat_sub, BitVec.toNat_sub, BitVec.toNat_add, BitVec.toNat_add, BitVec.toNat_ofNat,
    BitVec.toNat_ofNat]
  omega

theorem Mem.entry_set64_self (m : Mem) (table v : Word) (i : ℕ) :
    (m.set64 (table + BitVec.ofNat 64 (8 * i)) v).entry table i = v :=
  Mem.get64_set64_self m _ v

theorem Mem.entry_set64_of_ne (m : Mem) (v : Word) (h : table.toNat % 4096 = 0)
    (h' : other.toNat % 4096 = 0) (hne : table ≠ other) (hi : i < 512) (hj : j < 512) :
    (m.set64 (other + BitVec.ofNat 64 (8 * j)) v).entry table i = m.entry table i :=
  Mem.get64_set64_of_separate v (separate_entries h h' hne hi hj)

theorem toNat_frameOf_mod (e : Word) : (frameOf 12 e).toNat % 4096 = 0 := by
  rw [toNat_frameOf (by decide)]
  exact Nat.mul_mod_left _ _

def pml4Only (pml4 va e : Word) : Mem :=
  Mem.set64 (fun _ => 0) (pml4 + BitVec.ofNat 64 (8 * tableIndex va 39)) e

theorem pml4e_pml4Only (pml4 va e : Word) : (pml4Only pml4 va e).pml4e pml4 va = e :=
  Mem.entry_set64_self _ _ _ _

theorem entry_pml4Only (va e : Word) (halign : pml4.toNat % 4096 = 0) (h : table.toNat % 4096 = 0)
    (hne : table ≠ pml4) (hi : i < 512) : (pml4Only pml4 va e).entry table i = 0 := by
  have hzero : Mem.entry (fun _ => 0) table i = 0 := by
    unfold Mem.entry Mem.get64 Mem.get32
    beta_reduce
    decide
  rw [pml4Only, Mem.entry_set64_of_ne _ _ h halign hne hi (tableIndex_lt va 39), hzero]

def pdpeToo (pml4 va e v : Word) : Mem :=
  (pml4Only pml4 va e).set64 (frameOf 12 e + BitVec.ofNat 64 (8 * tableIndex va 30)) v

theorem pml4e_pdpeToo (halign : pml4.toNat % 4096 = 0) (hne : frameOf 12 e ≠ pml4) (va v : Word) :
    (pdpeToo pml4 va e v).pml4e pml4 va = e :=
  (Mem.entry_set64_of_ne _ _ halign (toNat_frameOf_mod e) hne.symm (tableIndex_lt va 39)
    (tableIndex_lt va 30)).trans (pml4e_pml4Only pml4 va e)

theorem pdpe_pdpeToo (halign : pml4.toNat % 4096 = 0) (hne : frameOf 12 e ≠ pml4) (va v : Word) :
    (pdpeToo pml4 va e v).pdpe pml4 va = v := by
  rw [Mem.pdpe, pml4e_pdpeToo halign hne]
  exact Mem.entry_set64_self _ _ _ _

theorem pde_pdpeToo (va : Word) (halign : pml4.toNat % 4096 = 0) (hne : frameOf 12 e ≠ pml4)
    (hv : frameOf 12 v ∉ [frameOf 12 e, pml4]) : (pdpeToo pml4 va e v).pde pml4 va = 0 := by
  simp only [List.mem_cons, List.not_mem_nil, or_false, not_or] at hv
  rw [Mem.pde, pdpe_pdpeToo halign hne]
  exact (Mem.entry_set64_of_ne _ _ (toNat_frameOf_mod v) (toNat_frameOf_mod e) hv.1
    (tableIndex_lt va 21) (tableIndex_lt va 30)).trans
    (entry_pml4Only va e halign (toNat_frameOf_mod v) hv.2 (tableIndex_lt va 21))

theorem exists_tableEntry (a b : Word) : ∃ v : Word, present v = true ∧ pageSizeBit v = false ∧
    TableBelow v [a, b] ∧ ∀ k, 0 < k → k < 8 → v.getLsbD (8 * k) = false := by
  have hspare : ∃ v ∈ [(0x1 : Word), 0x1001, 0x2001], frameOf 12 v ∉ [a, b] := by
    by_contra hno
    push Not at hno
    have h0 := hno 0x1 (by decide)
    have h1 := hno 0x1001 (by decide)
    have h2 := hno 0x2001 (by decide)
    rw [show frameOf 12 (0x1 : Word) = 0 from rfl] at h0
    rw [show frameOf 12 (0x1001 : Word) = 0x1000 from rfl] at h1
    rw [show frameOf 12 (0x2001 : Word) = 0x2000 from rfl] at h2
    simp only [List.mem_cons, List.not_mem_nil, or_false] at h0 h1 h2
    -- three pages are not among two
    rcases h0 with rfl | rfl <;> rcases h1 with h1 | h1 <;> rcases h2 with h2 | h2 <;>
      first
        | exact absurd h1 (by decide)
        | exact absurd h2 (by decide)
        | exact absurd (h1.trans h2.symm) (by decide)
  obtain ⟨v, hv, hne⟩ := hspare
  refine ⟨v, ?_⟩
  simp only [List.mem_cons, List.not_mem_nil, or_false] at hv
  rcases hv with rfl | rfl | rfl
  all_goals
    refine ⟨by decide, by decide, ⟨by decide, hne⟩, fun k h0 h8 => ?_⟩
    interval_cases k <;> rfl

/-- The byte to which the flags lead keeps its low bit when the walk's next entry is stored. -/
theorem low_bit_pdpeToo (hp : present e = true) (hv : ∀ k, 0 < k → k < 8 → v.getLsbD (8 * k) = false)
    (h : (pml4Only pml4 va e (e + BitVec.ofNat 64 (8 * j))).getLsbD 0 = false)
    (hj : j = tableIndex va 30) :
    (pdpeToo pml4 va e v (e + BitVec.ofNat 64 (8 * j))).getLsbD 0 = false := by
  subst hj
  have hodd := present_iff.mp hp
  have hframe := toNat_frameOf_mod e
  have hoff : (e + BitVec.ofNat 64 (8 * tableIndex va 30) -
      (frameOf 12 e + BitVec.ofNat 64 (8 * tableIndex va 30))).toNat = (e - frameOf 12 e).toNat := by
    rw [BitVec.toNat_sub, BitVec.toNat_sub, BitVec.toNat_add, BitVec.toNat_add]
    omega
  rw [pdpeToo, Mem.set64_apply]
  split
  · next hlt =>
    have hpos : 0 < (e - frameOf 12 e).toNat := by
      rw [BitVec.toNat_sub]
      omega
    rw [BitVec.getLsbD_extractLsb']
    simpa using hv _ (hoff ▸ hpos) hlt
  · exact h

theorem walk_pml4Only (halign : pml4.toNat % 4096 = 0) (hne : frameOf 12 e ≠ pml4)
    (hp : present e = true) : (pml4Only pml4 va e).walk pml4 va = .notPresent .pdp := by
  have hpml4e := pml4e_pml4Only pml4 va e
  have hpdpe := entry_pml4Only va e halign (toNat_frameOf_mod e) hne
    (tableIndex_lt va 30)
  have hzero : present 0 = false := rfl
  rw [Mem.pml4e] at hpml4e
  unfold Mem.walk
  simp only [hpml4e, hp, hpdpe, hzero, Bool.false_eq_true, if_true, if_false]

theorem walk_pdpeToo (halign : pml4.toNat % 4096 = 0) (hne : frameOf 12 e ≠ pml4)
    (hp : present e = true) (hv : present v = true ∧ pageSizeBit v = false)
    (hbelow : frameOf 12 v ∉ [frameOf 12 e, pml4]) :
    (pdpeToo pml4 va e v).walk pml4 va = .notPresent .pd := by
  have hpml4e := pml4e_pdpeToo halign hne va v
  have hpdpe := pdpe_pdpeToo halign hne va v
  have hpde := pde_pdpeToo va halign hne hbelow
  rw [Mem.pde, hpdpe] at hpde
  rw [Mem.pdpe, hpml4e] at hpdpe
  have hzero : present 0 = false := rfl
  rw [Mem.pml4e] at hpml4e
  unfold Mem.walk
  simp only [hpml4e, hp, hpdpe, hv.1, hv.2, hpde, hzero, Bool.false_eq_true, if_true,
    if_false]

/-- Below a present PML4 entry some tables lead the call astray. -/
theorem exists_not_exact (va : Word) (halign : pml4.toNat % 4096 = 0) (hlt : pml4.toNat < 2 ^ 36)
    (hp : present e = true) (hbelow : TableBelow e [pml4]) :
    ∃ m : Mem, m.pml4e pml4 va = e ∧ TableTree m pml4 va ∧ ¬ MappingExact m pml4 va := by
  have hne : frameOf 12 e ≠ pml4 := by simpa using hbelow.2
  obtain ⟨v, hv, hps, hvbelow, hbits⟩ := exists_tableEntry (frameOf 12 e) pml4
  by_contra hno
  push Not at hno
  have hm := pml4e_pml4Only pml4 va e
  have hm' := pml4e_pdpeToo halign hne va v
  have hpdpe : (pml4Only pml4 va e).pdpe pml4 va = 0 := by
    rw [Mem.pdpe, hm]
    exact entry_pml4Only va e halign (toNat_frameOf_mod e) hne (tableIndex_lt va 30)
  have hpdpe' := pdpe_pdpeToo halign hne va v
  have hpde' := pde_pdpeToo va halign hne hvbelow.2
  have hzero : present 0 ≠ true := by decide
  -- the empty table
  obtain ⟨r, hcall, hrep⟩ := hno _ hm ⟨fun _ => hm.symm ▸ hbelow, fun _ h => absurd (hpdpe ▸ h) hzero,
    fun _ h => absurd (hpdpe ▸ h) hzero⟩ 1 1 1 (by decide) (by decide) (by decide) ⟨0, 0, .pt⟩
  rw [walk_pml4Only halign hne hp] at hrep
  rw [x86MmuGetMapping_eq halign hlt (by decide) (by decide) (by decide)] at hcall
  have hclear := (outLvl_pdp_iff (hm.symm ▸ hp) hcall).mp hrep.2
  rw [hm] at hclear
  -- the same with one entry that is present
  obtain ⟨r', hcall', hrep'⟩ := hno _ hm' ⟨fun _ => hm'.symm ▸ hbelow,
    fun _ _ => by rw [hpdpe', hm']; exact ⟨hps, hvbelow⟩, fun _ _ h => absurd (hpde' ▸ h) hzero⟩
    1 1 1 (by decide) (by decide) (by decide) ⟨0, 0, .pt⟩
  rw [walk_pdpeToo halign hne hp ⟨hv, hps⟩ hvbelow.2] at hrep'
  have hclear' := low_bit_pdpeToo (v := v) hp hbits hclear rfl
  rw [x86MmuGetMapping_eq halign hlt (by decide) (by decide) (by decide)] at hcall'
  have hlvl := (outLvl_pdp_iff (hm'.symm ▸ hp) hcall').mpr (by rw [hm']; exact hclear')
  exact absurd (hrep'.2.symm.trans hlvl) (by decide)

/-- Whatever the tables below hold, the call agrees with the architecture's walk when, and only
when, the PML4 entry is not present. -/
theorem getMapping_exact_iff (halign : pml4.toNat % 4096 = 0) (hlt : pml4.toNat < 2 ^ 36)
    (hbelow : present e = true → TableBelow e [pml4]) :
    (∀ m : Mem, m.pml4e pml4 va = e → TableTree m pml4 va → MappingExact m pml4 va) ↔
      present e = false := by
  constructor
  · intro hall
    by_contra hp
    rw [Bool.not_eq_false] at hp
    obtain ⟨m, hm, htree, hnot⟩ := exists_not_exact va halign hlt hp (hbelow hp)
    exact hnot (hall m hm htree)
  · rintro hp m rfl -
    exact mappingExact_of_notPresent halign hlt hp

end Trees

theorem getMapping_exact_iff_sample : ¬ ∀ m : Mem, m.pml4e 0x1000 0 = 0x2003 →
    TableTree m 0x1000 0 → MappingExact m 0x1000 0 := fun hall =>
  absurd ((getMapping_exact_iff (by decide) (by decide) fun _ => ⟨by decide, by decide⟩).mp hall)
    (by decide)

def sampleTables : Mem :=
  (((Mem.set64 (fun _ => 0) 0x1000 0x2003).set64 0x2000 0x3003).set64 0x3000 0x183)

theorem sampleTables_walk : sampleTables.walk 0x1000 0 = .mapped 0 := by decide +kernel

theorem sampleTables_tree : TableTree sampleTables 0x1000 0 := by
  have h4 : sampleTables.pml4e 0x1000 0 = 0x2003 := by decide +kernel
  have h3 : sampleTables.pdpe 0x1000 0 = 0x3003 := by decide +kernel
  have h2 : sampleTables.pde 0x1000 0 = 0x183 := by decide +kernel
  refine ⟨fun _ => ?_, fun _ _ => ?_, fun _ _ _ h => ?_⟩
  · rw [h4]
    exact ⟨by decide, by decide⟩
  · rw [h3, h4]
    exact ⟨by decide, by decide, by decide⟩
  · rw [h2] at h
    exact absurd h (by decide)

/-- The flags of the PML4 entry lead the call three bytes into the next table. -/
theorem flags_left_in_pointer : ¬ ∀ (m : Mem) (pml4 va : Word), pml4.toNat % 4096 = 0 →
    pml4.toNat < 2 ^ 36 → Canonical va → TableTree m pml4 va → MappingExact m pml4 va := by
  intro hall
  obtain ⟨r, hcall, hrep⟩ := hall sampleTables 0x1000 0 (by decide) (by decide)
    (.inl (by decide)) sampleTables_tree 1 1 1 (by decide) (by decide) (by decide) ⟨0, 0, .pt⟩
  rw [sampleTables_walk] at hrep
  have hnot : x86MmuGetMapping sampleTables.linear 0 (x86P2kv 0x1000) 1 1 1 ⟨0, 0, .pt⟩ =
      some (.errEntryNotPresent, ⟨x86P2kv 0x2003, 0, .pdp⟩) := by decide +kernel
  obtain rfl := Option.some_inj.mp (hcall.symm.trans hnot)
  exact absurd hrep.1 (by decide)

end Rix
