import Rix.Fuel
import Rix.PageWalk

/-!
# The boot page tables

`start.S` fills the tables with 32-bit registers and stores, before paging is on and so
at physical addresses. `platform.c` describes the same address map in a table of its own.
-/
namespace Rix
open Fuel

/-- The physical addresses of the tables. -/
structure BootTables where
  bootPml4Table : BitVec 32
  bootPdpTable : BitVec 32
  bootPdpHighTable : BitVec 32
  bootPdTable : BitVec 32
  bootPdeArray : BitVec 32

def x86PageBitP : BitVec 32 := 0x0001
def x86PageBitRw : BitVec 32 := 0x0002
def x86PageBitPs : BitVec 32 := 0x0080
def x86PageBitG : BitVec 32 := 0x0100

def x86BootPdePsFlags : BitVec 32 := x86PageBitG ||| x86PageBitPs ||| x86PageBitRw ||| x86PageBitP
def x86BootPdeFlags : BitVec 32 := x86PageBitRw ||| x86PageBitP

/-- `NUM_PT_ENTRIES * 8`, the immediate 4096. -/
def tableBytes : BitVec 32 := 4096

structure Cpu where
  eax : BitVec 32
  ebx : BitVec 32
  ecx : BitVec 32
  esi : BitVec 32
  cr3 : BitVec 32
  mem : Mem

namespace Cpu

def movl (s : Cpu) (a value : BitVec 32) : Cpu := { s with mem := s.mem.set32 (a.setWidth 64) value }

/-- `loop` back to the start of `body`. -/
def loopPass (body : Cpu → Cpu) (s : Cpu) : Option (Flow Cpu) :=
  let s := body s
  let s := { s with ecx := s.ecx - 1 }
  if s.ecx ≠ 0 then some (.next s) else some (.stop s)

/-- `.Lfill_boot_pd_table`. -/
def fillBootPdTable (s : Cpu) : Cpu :=
  let s := { s with ebx := s.eax }
  let s := { s with ebx := s.ebx <<< 21 }
  let s := { s with ebx := s.ebx ||| x86BootPdePsFlags }
  let s := s.movl s.esi s.ebx
  let s := { s with esi := s.esi + 8 }
  { s with eax := s.eax + 1 }

/-- `.Lfill_boot_pde_array`. -/
def fillBootPdeArray (s : Cpu) : Cpu :=
  let s := { s with ebx := s.eax }
  let s := { s with ebx := s.ebx <<< 21 }
  let s := { s with ebx := s.ebx ||| x86BootPdePsFlags }
  let s := s.movl s.esi s.ebx
  let s := { s with ebx := s.eax }
  let s := { s with ebx := s.ebx >>> 11 }
  let s := s.movl (s.esi + 4) s.ebx
  let s := { s with esi := s.esi + 8 }
  { s with eax := s.eax + 1 }

/-- `.Lfill_boot_pdp_high_table`. -/
def fillBootPdpHighTable (s : Cpu) : Cpu :=
  let s := s.movl s.esi s.eax
  let s := { s with esi := s.esi + 8 }
  { s with eax := s.eax + tableBytes }

/-- `.Lsetup_paging` up to the switch to 64-bit code. -/
def setupPaging (t : BootTables) (fuel : ℕ) (s : Cpu) : Option Cpu := do
  let s := { s with eax := t.bootPml4Table }
  let s := { s with cr3 := s.eax }
  let s := { s with eax := t.bootPdpTable }
  let s := { s with eax := s.eax ||| x86BootPdeFlags }
  let s := s.movl t.bootPml4Table s.eax
  let s := { s with eax := t.bootPdTable }
  let s := { s with eax := s.eax ||| x86BootPdeFlags }
  let s := s.movl t.bootPdpTable s.eax
  -- map the higher -512 GiB
  let s := { s with eax := t.bootPdpHighTable }
  let s := { s with eax := s.eax ||| x86BootPdeFlags }
  let s := s.movl (t.bootPml4Table + 8 * 511) s.eax
  -- map the lower 1 GiB to higher -2 GiB
  let s := { s with eax := t.bootPdTable }
  let s := { s with eax := s.eax ||| x86BootPdeFlags }
  let s := s.movl (t.bootPdpHighTable + 8 * 510) s.eax
  let s := { s with esi := t.bootPdTable, ecx := 512, eax := 0 }
  let s ← loop (loopPass fillBootPdTable) fuel s
  let s := { s with esi := t.bootPdeArray, ecx := 32768, eax := 0 }
  let s ← loop (loopPass fillBootPdeArray) fuel s
  let s := { s with esi := t.bootPdpHighTable, ecx := 64, eax := t.bootPdeArray }
  let s := { s with eax := s.eax ||| x86BootPdeFlags }
  loop (loopPass fillBootPdpHighTable) fuel s

/-- `_start64` unmaps the lower 1 GiB: `mov %rax, boot_pml4_table`. The store through the link
address is taken at the physical one, since the tables lie below 1 GiB. -/
def unmapLower (t : BootTables) (s : Cpu) : Cpu :=
  { s with mem := s.mem.set64 (t.bootPml4Table.setWidth 64) 0 }

end Cpu

def membase : Word := 0

/-- `mmu_initial_mapping_t`. -/
structure MmuInitialMapping where
  phys : Word
  virt : Word
  size : Word
  deriving DecidableEq, Repr

def mmuInitialMappings : List MmuInitialMapping :=
  [⟨membase, kernelAspaceBase, 64 * 1024 * 1024 * 1024⟩,
    ⟨membase, kernelVmaBase, 1 * 1024 * 1024 * 1024⟩,
    ⟨0, 0, 0⟩]

/-- The loop of `paddr_to_kvaddr` over the mappings from `map` on; it has no result when it runs
past the end. -/
def findMapping (pa : Word) : List MmuInitialMapping → Option Word
  | [] => none
  | map :: rest =>
    if map.size > 0 then
      if pa ≥ map.phys ∧ pa ≤ map.phys + map.size - 1 then some (map.virt + (pa - map.phys))
      else findMapping pa rest
    else some NULL

def paddrToKvaddr (pa : Word) : Option Word := findMapping pa mmuInitialMappings

def Mem.dword (m : Mem) (p : ℕ) : BitVec 32 := m.get32 (BitVec.ofNat 64 p)

/-- `m'` is `m` with the aligned stores of `w`. -/
def Stored (m m' : Mem) (w : ℕ → Option (BitVec 32)) : Prop :=
  ∀ p, p % 4 = 0 → p < 2 ^ 40 → m'.dword p = (w p).getD (m.dword p)

theorem get32_set32_of_ne (m : Mem) (v : BitVec 32) {a b : Word} (ha : a.toNat % 4 = 0)
    (hb : b.toNat % 4 = 0) (hne : b ≠ a) : (m.set32 a v).get32 b = m.get32 b := by
  have hne' : a.toNat ≠ b.toNat := fun h => hne (BitVec.eq_of_toNat_eq h.symm)
  refine Mem.get32_set32_of_separate v ?_
  unfold Separate
  rw [BitVec.toNat_sub, BitVec.toNat_sub]
  omega

namespace Stored

variable {m m' m'' : Mem} {w w' : ℕ → Option (BitVec 32)}

theorem refl (m : Mem) : Stored m m fun _ => none := fun _ _ _ => rfl

theorem trans (h : Stored m m' w) (h' : Stored m' m'' w') : Stored m m'' fun p => (w' p).or (w p) := by
  intro p hp hlt
  rw [h' p hp hlt, h p hp hlt]
  show _ = ((w' p).or (w p)).getD (m.dword p)
  cases w' p <;> cases w p <;> rfl

theorem congr (h : Stored m m' w) (hw : ∀ p, p % 4 = 0 → p < 2 ^ 40 → w p = w' p) : Stored m m' w' := by
  intro p hp hlt
  rw [h p hp hlt, hw p hp hlt]

end Stored

def single (a : ℕ) (v : BitVec 32) : ℕ → Option (BitVec 32) := fun p => if p = a then some v else none

theorem stored_set32 (m : Mem) (v : BitVec 32) {a : Word} (ha : a.toNat % 4 = 0) :
    Stored m (m.set32 a v) (single a.toNat v) := by
  intro p hp hlt
  unfold single Mem.dword
  by_cases h : p = a.toNat
  · rw [if_pos h, h, BitVec.ofNat_toNat, BitVec.setWidth_eq, get32_set32_self]
    rfl
  · rw [if_neg h, get32_set32_of_ne m v ha]
    · rfl
    · rw [BitVec.toNat_ofNat]
      omega
    · intro hc
      have := congrArg BitVec.toNat hc
      rw [BitVec.toNat_ofNat] at this
      omega

theorem stored_at (m : Mem) {a : BitVec 32} (v : BitVec 32) (ha : a.toNat % 4 = 0) :
    Stored m (m.set32 (a.setWidth 64) v) (single a.toNat v) := by
  have hw : (a.setWidth 64).toNat = a.toNat := BitVec.toNat_setWidth_of_le (by decide)
  have := stored_set32 m v (a := a.setWidth 64) (by rw [hw]; exact ha)
  rwa [hw] at this

theorem stored_movl (s : Cpu) {a : BitVec 32} (v : BitVec 32) (ha : a.toNat % 4 = 0) :
    Stored s.mem (s.movl a v).mem (single a.toNat v) :=
  stored_at s.mem v ha

/-- Stores of the low halves of the first `k` entries of a table. -/
def lowFill (base k : ℕ) (lo : ℕ → BitVec 32) : ℕ → Option (BitVec 32) := fun p =>
  if base ≤ p ∧ p < base + 8 * k ∧ (p - base) % 8 = 0 then some (lo ((p - base) / 8)) else none

/-- Stores of both halves of the first `k` entries of a table. -/
def fill (base k : ℕ) (lo hi : ℕ → BitVec 32) : ℕ → Option (BitVec 32) := fun p =>
  if base ≤ p ∧ p < base + 8 * k then
    some (if (p - base) % 8 = 0 then lo ((p - base) / 8) else hi ((p - base) / 8))
  else none

theorem lowFill_succ (base k : ℕ) (lo : ℕ → BitVec 32) (p : ℕ) :
    (single (base + 8 * k) (lo k) p).or (lowFill base k lo p) = lowFill base (k + 1) lo p := by
  unfold single lowFill
  by_cases h : p = base + 8 * k
  · rw [if_pos h, Option.some_or, if_pos (by omega), show (p - base) / 8 = k by omega]
  · rw [if_neg h, Option.none_or]
    by_cases h' : base ≤ p ∧ p < base + 8 * k ∧ (p - base) % 8 = 0
    · rw [if_pos h', if_pos (by omega)]
    · rw [if_neg h', if_neg (by omega)]

theorem fill_succ {base k : ℕ} (lo hi : ℕ → BitVec 32) (hb : base % 4 = 0) {p : ℕ} (hp : p % 4 = 0) :
    (single (base + 8 * k + 4) (hi k) p).or ((single (base + 8 * k) (lo k) p).or (fill base k lo hi p)) =
      fill base (k + 1) lo hi p := by
  unfold single fill
  by_cases h4 : p = base + 8 * k + 4
  · rw [if_pos h4, Option.some_or, if_pos (by omega), if_neg (by omega),
      show (p - base) / 8 = k by omega]
  · rw [if_neg h4, Option.none_or]
    by_cases h : p = base + 8 * k
    · rw [if_pos h, Option.some_or, if_pos (by omega), if_pos (by omega),
        show (p - base) / 8 = k by omega]
    · rw [if_neg h, Option.none_or]
      by_cases h' : base ≤ p ∧ p < base + 8 * k
      · rw [if_pos h', if_pos (show base ≤ p ∧ p < base + 8 * (k + 1) by omega)]
      · rw [if_neg h', if_neg (by omega)]

/-- `loop` runs its body `ecx` times. -/
theorem exists_loopPass (body : Cpu → Cpu) (inv : ℕ → Cpu → Prop) {s : Cpu} {k : ℕ}
    (hpos : 0 < k) (hk : s.ecx.toNat = k) (hecx : ∀ s, (body s).ecx = s.ecx)
    (hcount : ∀ i s c, inv i s → inv i { s with ecx := c })
    (hstep : ∀ i s, i < k → inv i s → inv (i + 1) (body s)) (hs : inv 0 s) :
    ∃ s', Settles (fun fuel => loop (Cpu.loopPass body) fuel s) s' ∧ inv k s' := by
  have hloop : ∃ s', LoopSettles (fun _ => Cpu.loopPass body) s s' ∧ inv k s' := exists_loopSettles
    (fun s => ∃ i < k, s.ecx.toNat = k - i ∧ inv i s) (inv k) (fun s => s.ecx.toNat)
    (by
      rintro s ⟨i, hi, hc, hinv⟩
      have hnext := hcount (i + 1) _ (s.ecx - 1) (hstep i s hi hinv)
      have hsub : (s.ecx - 1).toNat = k - (i + 1) := by
        have h1 : (1 : BitVec 32).toNat = 1 := rfl
        rw [BitVec.toNat_sub_of_le (by rw [BitVec.le_def, h1]; omega), h1]
        omega
      by_cases hlast : i + 1 = k
      · right
        have h0 : s.ecx - 1 = 0 := BitVec.eq_of_toNat_eq (by rw [hsub, hlast, Nat.sub_self]; rfl)
        refine ⟨_, .of_forall fun _ => ?_, hlast ▸ hnext⟩
        simp only [Cpu.loopPass, hecx, h0, ne_eq, not_true, if_false]
      · left
        have h0 : s.ecx - 1 ≠ 0 := by
          intro h
          rw [h, show (0 : BitVec 32).toNat = 0 from rfl] at hsub
          omega
        refine ⟨_, .of_forall fun _ => ?_, ⟨i + 1, by omega, hsub, hnext⟩, ?_⟩
        · simp only [Cpu.loopPass, hecx, h0, ne_eq, not_false_iff, if_true]
        · simp only [hsub, hc]
          omega)
    ⟨0, hpos, hk, hs⟩
  obtain ⟨s', hl, hinv⟩ := hloop
  exact ⟨s', hl.settles, hinv⟩

/-- A page-aligned table of `pages` pages that ends below 4 GiB. -/
structure TableAt (a : BitVec 32) (pages : ℕ) : Prop where
  aligned : a.toNat % 4096 = 0
  below : a.toNat + 4096 * pages ≤ 2 ^ 32

theorem TableAt.toNat_add {a : BitVec 32} {pages i : ℕ} (h : TableAt a pages) (hi : i < 4096 * pages) :
    (a + BitVec.ofNat 32 i).toNat = a.toNat + i := by
  have := h.below
  rw [BitVec.toNat_add, BitVec.toNat_ofNat]
  omega

theorem add_ofNat_succ (a : BitVec 32) (d i : ℕ) :
    a + BitVec.ofNat 32 (d * i) + BitVec.ofNat 32 d = a + BitVec.ofNat 32 (d * (i + 1)) := by
  rw [BitVec.add_assoc, ← BitVec.ofNat_add, Nat.mul_succ]

/-- The low half of the entry that maps the 2 MiB page `i`. -/
def pdeLow (i : ℕ) : BitVec 32 := (BitVec.ofNat 32 i <<< 21) ||| x86BootPdePsFlags

def pdeHigh (i : ℕ) : BitVec 32 := BitVec.ofNat 32 i >>> 11

/-- The low half of the entry of `boot_pdp_high_table` for the page `i` of `boot_pde_array`. -/
def pdpeLow (t : BootTables) (i : ℕ) : BitVec 32 :=
  (t.bootPdeArray ||| x86BootPdeFlags) + BitVec.ofNat 32 (4096 * i)

section Fill

variable {s : Cpu} {a : BitVec 32}

theorem exists_fillBootPdTable (ha : TableAt a 1) (hs : s.esi = a ∧ s.ecx = 512 ∧ s.eax = 0) :
    ∃ s', Settles (fun fuel => loop (Cpu.loopPass Cpu.fillBootPdTable) fuel s) s' ∧
      s'.cr3 = s.cr3 ∧ Stored s.mem s'.mem (lowFill a.toNat 512 pdeLow) := by
  obtain ⟨hesi, hecx, heax⟩ := hs
  obtain ⟨s', hl, -, -, hcr3, hmem⟩ := exists_loopPass Cpu.fillBootPdTable (k := 512) (s := s)
    (fun i s' => s'.eax = BitVec.ofNat 32 i ∧ s'.esi = a + BitVec.ofNat 32 (8 * i) ∧
      s'.cr3 = s.cr3 ∧ Stored s.mem s'.mem (lowFill a.toNat i pdeLow))
    (by decide) (by rw [hecx]; rfl) (fun _ => rfl) (fun _ _ _ h => h)
    (by
      rintro i s' hi ⟨heax, hesi, hcr3, hmem⟩
      have hat : s'.esi.toNat = a.toNat + 8 * i := by
        rw [hesi]
        exact ha.toNat_add (by omega)
      have halign := ha.aligned
      refine ⟨?_, ?_, hcr3, ?_⟩
      · show s'.eax + 1 = _
        rw [heax, BitVec.ofNat_add]
        rfl
      · show s'.esi + 8 = _
        rw [hesi]
        exact add_ofNat_succ a 8 i
      · refine (hmem.trans (stored_movl s' ((s'.eax <<< 21) ||| x86BootPdePsFlags)
          (a := s'.esi) (by omega))).congr fun p _ _ => ?_
        rw [heax, hat]
        exact lowFill_succ a.toNat i pdeLow p)
    ⟨heax, by rw [hesi]; exact (BitVec.add_zero a).symm, rfl,
      (Stored.refl s.mem).congr fun p _ _ => (if_neg (by omega)).symm⟩
  exact ⟨s', hl, hcr3, hmem⟩

theorem exists_fillBootPdeArray (ha : TableAt a 64) (hs : s.esi = a ∧ s.ecx = 32768 ∧ s.eax = 0) :
    ∃ s', Settles (fun fuel => loop (Cpu.loopPass Cpu.fillBootPdeArray) fuel s) s' ∧
      s'.cr3 = s.cr3 ∧ Stored s.mem s'.mem (fill a.toNat 32768 pdeLow pdeHigh) := by
  obtain ⟨hesi, hecx, heax⟩ := hs
  obtain ⟨s', hl, -, -, hcr3, hmem⟩ := exists_loopPass Cpu.fillBootPdeArray (k := 32768) (s := s)
    (fun i s' => s'.eax = BitVec.ofNat 32 i ∧ s'.esi = a + BitVec.ofNat 32 (8 * i) ∧
      s'.cr3 = s.cr3 ∧ Stored s.mem s'.mem (fill a.toNat i pdeLow pdeHigh))
    (by decide) (by rw [hecx]; rfl) (fun _ => rfl) (fun _ _ _ h => h)
    (by
      rintro i s' hi ⟨heax, hesi, hcr3, hmem⟩
      have halign := ha.aligned
      have hat : s'.esi.toNat = a.toNat + 8 * i := by
        rw [hesi]
        exact ha.toNat_add (by omega)
      have hat4 : (s'.esi + 4).toNat = a.toNat + 8 * i + 4 := by
        have := ha.toNat_add (i := 8 * i + 4) (by omega)
        rw [hesi, BitVec.add_assoc]
        rwa [BitVec.ofNat_add] at this
      refine ⟨?_, ?_, hcr3, ?_⟩
      · show s'.eax + 1 = _
        rw [heax, BitVec.ofNat_add]
        rfl
      · show s'.esi + 8 = _
        rw [hesi]
        exact add_ofNat_succ a 8 i
      · refine ((hmem.trans (stored_movl s' ((s'.eax <<< 21) ||| x86BootPdePsFlags) (a := s'.esi)
          (by omega))).trans (stored_movl (s'.movl s'.esi ((s'.eax <<< 21) ||| x86BootPdePsFlags))
            (s'.eax >>> 11) (a := s'.esi + 4) (by omega))).congr fun p hp _ => ?_
        rw [heax, hat, hat4]
        exact fill_succ pdeLow pdeHigh (by omega) hp)
    ⟨heax, by rw [hesi]; exact (BitVec.add_zero a).symm, rfl,
      (Stored.refl s.mem).congr fun p _ _ => (if_neg (by omega)).symm⟩
  exact ⟨s', hl, hcr3, hmem⟩

theorem fillBootPdpHighTable_ecx (s : Cpu) : (Cpu.fillBootPdpHighTable s).ecx = s.ecx := by
  cases s
  rfl

theorem fillBootPdpHighTable_cr3 (s : Cpu) : (Cpu.fillBootPdpHighTable s).cr3 = s.cr3 := by
  cases s
  rfl

theorem exists_fillBootPdpHighTable {t : BootTables} (ha : TableAt a 1) (hs : s.esi = a ∧ s.ecx = 64 ∧
      s.eax = t.bootPdeArray ||| x86BootPdeFlags) :
    ∃ s', Settles (fun fuel => loop (Cpu.loopPass Cpu.fillBootPdpHighTable) fuel s) s' ∧
      s'.cr3 = s.cr3 ∧ Stored s.mem s'.mem (lowFill a.toNat 64 (pdpeLow t)) := by
  obtain ⟨hesi, hecx, heax⟩ := hs
  obtain ⟨s', hl, -, -, hcr3, hmem⟩ := exists_loopPass Cpu.fillBootPdpHighTable (k := 64) (s := s)
    (fun i s' => s'.eax = pdpeLow t i ∧ s'.esi = a + BitVec.ofNat 32 (8 * i) ∧
      s'.cr3 = s.cr3 ∧ Stored s.mem s'.mem (lowFill a.toNat i (pdpeLow t)))
    (by decide) (by rw [hecx]; rfl) fillBootPdpHighTable_ecx (fun _ _ _ h => h)
    (by
      rintro i s' hi ⟨heax, hesi, hcr3, hmem⟩
      have hat : s'.esi.toNat = a.toNat + 8 * i := by
        rw [hesi]
        exact ha.toNat_add (by omega)
      have halign := ha.aligned
      refine ⟨?_, ?_, (fillBootPdpHighTable_cr3 s').trans hcr3, ?_⟩
      · show s'.eax + tableBytes = _
        rw [heax]
        exact add_ofNat_succ _ 4096 i
      · show s'.esi + 8 = _
        rw [hesi]
        exact add_ofNat_succ a 8 i
      · refine (hmem.trans (stored_movl s' s'.eax (a := s'.esi) (by omega))).congr fun p _ _ => ?_
        rw [heax, hat]
        exact lowFill_succ a.toNat i (pdpeLow t) p)
    ⟨by rw [heax]; exact (BitVec.add_zero _).symm, by rw [hesi]; exact (BitVec.add_zero a).symm, rfl,
      (Stored.refl s.mem).congr fun p _ _ => (if_neg (by omega)).symm⟩
  exact ⟨s', hl, hcr3, hmem⟩

end Fill

end Rix
