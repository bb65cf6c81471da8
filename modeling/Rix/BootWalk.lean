import Rix.BootPaging

/-!
# The map built at boot is the map that C describes

The stores of `start.S` are read back as entries, and the entries as walks.
-/
namespace Rix
open Fuel

namespace BootTables

def extents (t : BootTables) : List (ℕ × ℕ) :=
  [(t.bootPml4Table.toNat, 4096), (t.bootPdpTable.toNat, 4096), (t.bootPdpHighTable.toNat, 4096),
    (t.bootPdTable.toNat, 4096), (t.bootPdeArray.toNat, 64 * 4096)]

/-- The tables are page-aligned, below 4 GiB, and do not overlap. -/
structure Placed (t : BootTables) : Prop where
  aligned : ∀ x ∈ t.extents, x.1 % 4096 = 0
  below : ∀ x ∈ t.extents, x.1 + x.2 ≤ 2 ^ 32
  disjoint : t.extents.Pairwise fun x y => x.1 + x.2 ≤ y.1 ∨ y.1 + y.2 ≤ x.1

/-- The tables are in `.bss`. -/
def Zeroed (t : BootTables) (m : Mem) : Prop :=
  ∀ x ∈ t.extents, ∀ p, x.1 ≤ p → p < x.1 + x.2 → m (BitVec.ofNat 64 p) = 0

/-- The stores of `start.S`, the last one first. -/
def stores (t : BootTables) : ℕ → Option (BitVec 32) := fun p =>
  (single (t.bootPml4Table.toNat + 4) 0 p).or <|
  (single t.bootPml4Table.toNat 0 p).or <|
  (lowFill t.bootPdpHighTable.toNat 64 (pdpeLow t) p).or <|
  (fill t.bootPdeArray.toNat 32768 pdeLow pdeHigh p).or <|
  (lowFill t.bootPdTable.toNat 512 pdeLow p).or <|
  (single (t.bootPdpHighTable.toNat + 4080) (t.bootPdTable ||| x86BootPdeFlags) p).or <|
  (single (t.bootPml4Table.toNat + 4088) (t.bootPdpHighTable ||| x86BootPdeFlags) p).or <|
  (single t.bootPdpTable.toNat (t.bootPdTable ||| x86BootPdeFlags) p).or
    (single t.bootPml4Table.toNat (t.bootPdpTable ||| x86BootPdeFlags) p)

end BootTables

section Run

variable {t : BootTables}

theorem BootTables.Placed.tableAt (ht : t.Placed) {a : BitVec 32} {pages : ℕ}
    (h : (a.toNat, 4096 * pages) ∈ t.extents) : TableAt a pages :=
  ⟨ht.aligned _ h, ht.below _ h⟩

theorem BootTables.Placed.pml4 (ht : t.Placed) : TableAt t.bootPml4Table 1 :=
  ht.tableAt (by simp [BootTables.extents])

theorem BootTables.Placed.pdp (ht : t.Placed) : TableAt t.bootPdpTable 1 :=
  ht.tableAt (by simp [BootTables.extents])

theorem BootTables.Placed.pdpHigh (ht : t.Placed) : TableAt t.bootPdpHighTable 1 :=
  ht.tableAt (by simp [BootTables.extents])

theorem BootTables.Placed.pd (ht : t.Placed) : TableAt t.bootPdTable 1 :=
  ht.tableAt (by simp [BootTables.extents])

theorem BootTables.Placed.pdeArray (ht : t.Placed) : TableAt t.bootPdeArray 64 :=
  ht.tableAt (by simp [BootTables.extents])

theorem exists_fillLoops (ht : t.Placed) {s : Cpu}
    (hs : s.esi = t.bootPdTable ∧ s.ecx = 512 ∧ s.eax = 0) :
    ∃ s', Settles (fun fuel =>
        (loop (Cpu.loopPass Cpu.fillBootPdTable) fuel s).bind fun s =>
        (loop (Cpu.loopPass Cpu.fillBootPdeArray) fuel
          { s with esi := t.bootPdeArray, ecx := 32768, eax := 0 }).bind fun s =>
        loop (Cpu.loopPass Cpu.fillBootPdpHighTable) fuel
          { s with esi := t.bootPdpHighTable, ecx := 64, eax := t.bootPdeArray ||| x86BootPdeFlags }) s' ∧
      s'.cr3 = s.cr3 ∧ Stored s.mem s'.mem fun p =>
        (lowFill t.bootPdpHighTable.toNat 64 (pdpeLow t) p).or
          ((fill t.bootPdeArray.toNat 32768 pdeLow pdeHigh p).or
            (lowFill t.bootPdTable.toNat 512 pdeLow p)) := by
  obtain ⟨s1, hl1, hc1, hm1⟩ := exists_fillBootPdTable ht.pd hs
  obtain ⟨s2, hl2, hc2, hm2⟩ := exists_fillBootPdeArray ht.pdeArray
    (s := { s1 with esi := t.bootPdeArray, ecx := 32768, eax := 0 }) ⟨rfl, rfl, rfl⟩
  obtain ⟨s3, hl3, hc3, hm3⟩ := exists_fillBootPdpHighTable ht.pdpHigh (t := t)
    (s := { s2 with esi := t.bootPdpHighTable, ecx := 64, eax := t.bootPdeArray ||| x86BootPdeFlags })
    ⟨rfl, rfl, rfl⟩
  exact ⟨s3, hl1.bind (hl2.bind hl3), hc3.trans (hc2.trans hc1), (hm1.trans hm2).trans hm3⟩

/-- The boot code settles, and its stores are `stores`. -/
theorem exists_boot (ht : t.Placed) (s : Cpu) :
    ∃ s', Settles (fun fuel => (Cpu.setupPaging t fuel s).map (Cpu.unmapLower t)) s' ∧
      s'.cr3 = t.bootPml4Table ∧ Stored s.mem s'.mem t.stores := by
  have hpml4 := ht.pml4.aligned
  have hpdp := ht.pdp.aligned
  have hhigh := ht.pdpHigh.aligned
  have hlast : (t.bootPml4Table + 8 * 511).toNat = t.bootPml4Table.toNat + 4088 :=
    ht.pml4.toNat_add (i := 4088) (by decide)
  have hcode : (t.bootPdpHighTable + 8 * 510).toNat = t.bootPdpHighTable.toNat + 4080 :=
    ht.pdpHigh.toNat_add (i := 4080) (by decide)
  have h1 := stored_at s.mem (t.bootPdpTable ||| x86BootPdeFlags) (a := t.bootPml4Table) (by omega)
  have h2 := h1.trans (stored_at _ (t.bootPdTable ||| x86BootPdeFlags) (a := t.bootPdpTable) (by omega))
  have h3 := h2.trans (stored_at _ (t.bootPdpHighTable ||| x86BootPdeFlags)
    (a := t.bootPml4Table + 8 * 511) (by omega))
  have h4 := h3.trans (stored_at _ (t.bootPdTable ||| x86BootPdeFlags)
    (a := t.bootPdpHighTable + 8 * 510) (by omega))
  obtain ⟨s', hl, hcr3, hm⟩ := exists_fillLoops ht (s := Cpu.mk 0 s.ebx 512 t.bootPdTable
    t.bootPml4Table _) ⟨rfl, rfl, rfl⟩
  have h5 := h4.trans hm
  have hclear : (t.bootPml4Table.setWidth 64 : Word).toNat = t.bootPml4Table.toNat :=
    BitVec.toNat_setWidth_of_le (by decide)
  have hclear4 : (t.bootPml4Table.setWidth 64 + 4 : Word).toNat = t.bootPml4Table.toNat + 4 := by
    rw [BitVec.toNat_add, hclear, show (4 : Word).toNat = 4 from rfl]
    omega
  have h6 := h5.trans (stored_set32 s'.mem 0 (a := t.bootPml4Table.setWidth 64) (by omega))
  have h7 := h6.trans (stored_set32 _ 0 (a := t.bootPml4Table.setWidth 64 + 4) (by omega))
  refine ⟨_, hl.map (Cpu.unmapLower t), hcr3, h7.congr fun p _ _ => ?_⟩
  rw [hlast, hcode, hclear, hclear4]
  simp only [BootTables.stores, Option.or_assoc]

end Run

theorem single_of_ne {a p : ℕ} (v : BitVec 32) (h : p ≠ a) : single a v p = none := if_neg h

theorem single_self (a : ℕ) (v : BitVec 32) : single a v a = some v := if_pos rfl

theorem lowFill_of_outside {base k p : ℕ} (lo : ℕ → BitVec 32) (h : p < base ∨ base + 8 * k ≤ p) :
    lowFill base k lo p = none := if_neg (by omega)

theorem lowFill_low {base k i : ℕ} (lo : ℕ → BitVec 32) (hi : i < k) :
    lowFill base k lo (base + 8 * i) = some (lo i) := by
  unfold lowFill
  rw [if_pos (by omega), show (base + 8 * i - base) / 8 = i by omega]

theorem lowFill_high (base k i : ℕ) (lo : ℕ → BitVec 32) :
    lowFill base k lo (base + 8 * i + 4) = none := if_neg (by omega)

theorem fill_of_outside {base k p : ℕ} (lo hi : ℕ → BitVec 32) (h : p < base ∨ base + 8 * k ≤ p) :
    fill base k lo hi p = none := if_neg (by omega)

theorem fill_low {base k i : ℕ} (lo hi : ℕ → BitVec 32) (h : i < k) :
    fill base k lo hi (base + 8 * i) = some (lo i) := by
  unfold fill
  rw [if_pos (by omega), if_pos (by omega), show (base + 8 * i - base) / 8 = i by omega]

theorem fill_high {base k i : ℕ} (lo hi : ℕ → BitVec 32) (h : i < k) :
    fill base k lo hi (base + 8 * i + 4) = some (hi i) := by
  unfold fill
  rw [if_pos (by omega), if_neg (by omega), show (base + 8 * i + 4 - base) / 8 = i by omega]

theorem Mem.toNat_entry (m : Mem) (table : Word) (i : ℕ) : (m.entry table i).toNat =
    (m.dword (table.toNat + 8 * i + 4)).toNat * 2 ^ 32 + (m.dword (table.toNat + 8 * i)).toNat := by
  have h0 : table + BitVec.ofNat 64 (8 * i) = BitVec.ofNat 64 (table.toNat + 8 * i) := by
    rw [BitVec.ofNat_add, BitVec.ofNat_toNat, BitVec.setWidth_eq]
  have h4 : table + BitVec.ofNat 64 (8 * i) + 4 = BitVec.ofNat 64 (table.toNat + 8 * i + 4) := by
    rw [h0, BitVec.ofNat_add _ 4]
    rfl
  rw [Mem.entry, Mem.toNat_get64, h4, h0]
  rfl

theorem Mem.toNat_entry_low {m : Mem} {table : Word} {i : ℕ}
    (h : m.dword (table.toNat + 8 * i + 4) = 0) :
    (m.entry table i).toNat = (m.dword (table.toNat + 8 * i)).toNat := by
  rw [Mem.toNat_entry, h, show (0 : BitVec 32).toNat = 0 from rfl, Nat.zero_mul, Nat.zero_add]

section Entries

variable {t : BootTables} {m m' : Mem}

theorem BootTables.Zeroed.dword (hz : t.Zeroed m) {x : ℕ × ℕ} (hx : x ∈ t.extents) {p : ℕ}
    (hp : x.1 ≤ p) (hlt : p + 4 ≤ x.1 + x.2) : m.dword p = 0 := by
  have hbyte : ∀ i : ℕ, i < 4 → m (BitVec.ofNat 64 p + BitVec.ofNat 64 i) = 0 := fun i hi => by
    rw [← BitVec.ofNat_add]
    exact hz x hx (p + i) (by omega) (by omega)
  have h0 := hbyte 0 (by decide)
  rw [show BitVec.ofNat 64 p + BitVec.ofNat 64 0 = BitVec.ofNat 64 p from BitVec.add_zero _] at h0
  unfold Mem.dword Mem.get32
  rw [h0]
  exact congrArg₂ _ (congrArg₂ _ (congrArg₂ _ (hbyte 3 (by decide)) (hbyte 2 (by decide)))
    (hbyte 1 (by decide))) rfl

/-- `disjoint`, pair by pair, for the tables that hold entries of the final map. -/
theorem BootTables.Placed.apart (ht : t.Placed) :
    ((t.bootPml4Table.toNat + 4096 ≤ t.bootPdpTable.toNat ∨
        t.bootPdpTable.toNat + 4096 ≤ t.bootPml4Table.toNat) ∧
      (t.bootPml4Table.toNat + 4096 ≤ t.bootPdpHighTable.toNat ∨
        t.bootPdpHighTable.toNat + 4096 ≤ t.bootPml4Table.toNat) ∧
      (t.bootPml4Table.toNat + 4096 ≤ t.bootPdTable.toNat ∨
        t.bootPdTable.toNat + 4096 ≤ t.bootPml4Table.toNat) ∧
      (t.bootPml4Table.toNat + 4096 ≤ t.bootPdeArray.toNat ∨
        t.bootPdeArray.toNat + 262144 ≤ t.bootPml4Table.toNat)) ∧
    ((t.bootPdpTable.toNat + 4096 ≤ t.bootPdpHighTable.toNat ∨
        t.bootPdpHighTable.toNat + 4096 ≤ t.bootPdpTable.toNat) ∧
      (t.bootPdpTable.toNat + 4096 ≤ t.bootPdTable.toNat ∨
        t.bootPdTable.toNat + 4096 ≤ t.bootPdpTable.toNat) ∧
      (t.bootPdpTable.toNat + 4096 ≤ t.bootPdeArray.toNat ∨
        t.bootPdeArray.toNat + 262144 ≤ t.bootPdpTable.toNat)) ∧
    ((t.bootPdpHighTable.toNat + 4096 ≤ t.bootPdTable.toNat ∨
        t.bootPdTable.toNat + 4096 ≤ t.bootPdpHighTable.toNat) ∧
      (t.bootPdpHighTable.toNat + 4096 ≤ t.bootPdeArray.toNat ∨
        t.bootPdeArray.toNat + 262144 ≤ t.bootPdpHighTable.toNat)) ∧
    (t.bootPdTable.toNat + 4096 ≤ t.bootPdeArray.toNat ∨
      t.bootPdeArray.toNat + 262144 ≤ t.bootPdTable.toNat) := by
  simpa [BootTables.extents, List.pairwise_cons] using ht.disjoint

theorem dword_zero (ht : t.Placed) (hz : t.Zeroed m) (h : Stored m m' t.stores) {x : ℕ × ℕ}
    (hx : x ∈ t.extents) {p : ℕ} (hle : x.1 ≤ p) (hlt : p + 4 ≤ x.1 + x.2) (hp : p % 4 = 0)
    (hw : t.stores p = none) : m'.dword p = 0 := by
  have := ht.below x hx
  rw [h p hp (by omega), hw]
  exact hz.dword hx hle hlt

theorem dword_stored (h : Stored m m' t.stores) {p : ℕ} (hlt : p < 2 ^ 40) (hp : p % 4 = 0)
    {v : BitVec 32} (hw : t.stores p = some v) : m'.dword p = v := by
  rw [h p hp hlt, hw]
  rfl

theorem toNat_or_flags {a : BitVec 32} (ha : a.toNat % 4096 = 0) :
    (a ||| x86BootPdeFlags).toNat = a.toNat + 3 :=
  toNat_or_of_aligned 12 ha (by decide)

theorem toNat_pdeLow (i : ℕ) : (pdeLow i).toNat = i * 2 ^ 21 % 2 ^ 32 + 0x183 := by
  have hshift : (BitVec.ofNat 32 i <<< 21).toNat = i * 2 ^ 21 % 2 ^ 32 := by
    rw [BitVec.toNat_shiftLeft, BitVec.toNat_ofNat, Nat.shiftLeft_eq]
    omega
  rw [pdeLow, toNat_or_of_aligned 21 (by omega) (by decide), hshift]
  rfl

theorem toNat_pdeHigh {i : ℕ} (hi : i < 2 ^ 32) : (pdeHigh i).toNat = i / 2 ^ 11 := by
  rw [pdeHigh, BitVec.toNat_ushiftRight, BitVec.toNat_ofNat, Nat.mod_eq_of_lt hi,
    Nat.shiftRight_eq_div_pow]

theorem toNat_pdpeLow (ht : t.Placed) {i : ℕ} (hi : i < 64) :
    (pdpeLow t i).toNat = t.bootPdeArray.toNat + 4096 * i + 3 := by
  have := ht.pdeArray.below
  have := ht.pdeArray.aligned
  rw [pdpeLow, BitVec.toNat_add, toNat_or_flags ht.pdeArray.aligned, BitVec.toNat_ofNat]
  omega

variable (ht : t.Placed) (hz : t.Zeroed m) (h : Stored m m' t.stores)
include ht hz h

theorem dword_bootPml4Table {o : ℕ} (ho : o % 4 = 0) (hlt : o < 4096) (hne : o ≠ 4088) :
    m'.dword (t.bootPml4Table.toNat + o) = 0 := by
  obtain ⟨⟨h1, h2, h3, h4⟩, -, -, -⟩ := ht.apart
  have halign := ht.pml4.aligned
  by_cases h0 : o = 0 ∨ o = 4
  · have := ht.pml4.below
    refine dword_stored h (by omega) (by omega) ?_
    unfold BootTables.stores
    rcases h0 with rfl | rfl
    · rw [single_of_ne _ (by omega), Nat.add_zero, single_self]
      rfl
    · rw [single_self]
      rfl
  · refine dword_zero ht hz h (x := (t.bootPml4Table.toNat, 4096)) (by simp [BootTables.extents])
      (by simp) (by simp; omega) (by omega) ?_
    unfold BootTables.stores
    simp (disch := omega) only [single_of_ne, lowFill_of_outside, fill_of_outside, Option.none_or]

theorem entry_bootPml4Table {a : Word} (ha : a.toNat = t.bootPml4Table.toNat) {i : ℕ} (hi : i < 512) :
    (m'.entry a i).toNat = if i = 511 then t.bootPdpHighTable.toNat + 3 else 0 := by
  obtain ⟨⟨h1, h2, h3, h4⟩, -, -, -⟩ := ht.apart
  have hbelow := ht.pml4.below
  have halign := ht.pml4.aligned
  have hhigh : m'.dword (t.bootPml4Table.toNat + 8 * i + 4) = 0 := by
    rw [Nat.add_assoc]
    exact dword_bootPml4Table ht hz h (by omega) (by omega) (by omega)
  rw [Mem.toNat_entry_low (by rw [ha, hhigh]), ha]
  by_cases hlast : i = 511
  · rw [if_pos hlast]
    have hlow : m'.dword (t.bootPml4Table.toNat + 8 * i) = t.bootPdpHighTable ||| x86BootPdeFlags := by
      rw [show 8 * i = 4088 by omega]
      refine dword_stored h (by omega) (by omega) ?_
      unfold BootTables.stores
      simp (disch := omega) only [single_of_ne, single_self, lowFill_of_outside, fill_of_outside,
        Option.none_or, Option.some_or]
    rw [hlow, toNat_or_flags ht.pdpHigh.aligned]
  · rw [if_neg hlast, dword_bootPml4Table ht hz h (by omega) (by omega) (by omega)]
    rfl

theorem dword_bootPdpHighTable_high {i : ℕ} (hi : i < 512) :
    m'.dword (t.bootPdpHighTable.toNat + 8 * i + 4) = 0 := by
  obtain ⟨⟨-, h1, -, -⟩, ⟨h2, -, -⟩, ⟨h3, h4⟩, -⟩ := ht.apart
  have halign := ht.pdpHigh.aligned
  have hpml4 := ht.pml4.aligned
  refine dword_zero ht hz h (x := (t.bootPdpHighTable.toNat, 4096)) (by simp [BootTables.extents])
    (by simp; omega) (by simp; omega) (by omega) ?_
  unfold BootTables.stores
  simp (disch := omega) only [single_of_ne, lowFill_high, lowFill_of_outside, fill_of_outside,
    Option.none_or]

theorem entry_bootPdpHighTable {a : Word} (ha : a.toNat = t.bootPdpHighTable.toNat) {i : ℕ}
    (hi : i < 512) : (m'.entry a i).toNat = if i < 64 then t.bootPdeArray.toNat + 4096 * i + 3
      else if i = 510 then t.bootPdTable.toNat + 3 else 0 := by
  obtain ⟨⟨-, h1, -, -⟩, ⟨h2, -, -⟩, ⟨h3, h4⟩, -⟩ := ht.apart
  have hbelow := ht.pdpHigh.below
  have halign := ht.pdpHigh.aligned
  rw [Mem.toNat_entry_low (by rw [ha, dword_bootPdpHighTable_high ht hz h hi]), ha]
  by_cases hlow : i < 64
  · have hd : m'.dword (t.bootPdpHighTable.toNat + 8 * i) = pdpeLow t i := by
      refine dword_stored h (by omega) (by omega) ?_
      unfold BootTables.stores
      simp (disch := omega) only [single_of_ne, lowFill_low, Option.none_or, Option.some_or]
    rw [if_pos hlow, hd, toNat_pdpeLow ht hlow]
  · rw [if_neg hlow]
    by_cases hcode : i = 510
    · have hd : m'.dword (t.bootPdpHighTable.toNat + 8 * i) = t.bootPdTable ||| x86BootPdeFlags := by
        rw [show 8 * i = 4080 by omega]
        refine dword_stored h (by omega) (by omega) ?_
        unfold BootTables.stores
        simp (disch := omega) only [single_of_ne, single_self, lowFill_of_outside, fill_of_outside,
          Option.none_or, Option.some_or]
      rw [if_pos hcode, hd, toNat_or_flags ht.pd.aligned]
    · have hd : m'.dword (t.bootPdpHighTable.toNat + 8 * i) = 0 := by
        refine dword_zero ht hz h (x := (t.bootPdpHighTable.toNat, 4096))
          (by simp [BootTables.extents]) (by simp) (by simp; omega) (by omega) ?_
        unfold BootTables.stores
        simp (disch := omega) only [single_of_ne, lowFill_of_outside, fill_of_outside, Option.none_or]
      rw [if_neg hcode, hd]
      rfl

theorem entry_bootPdTable {a : Word} (ha : a.toNat = t.bootPdTable.toNat) {i : ℕ} (hi : i < 512) :
    (m'.entry a i).toNat = i * 2 ^ 21 + 0x183 := by
  obtain ⟨⟨-, -, h1, -⟩, ⟨-, h2, -⟩, ⟨h3, -⟩, h4⟩ := ht.apart
  have hbelow := ht.pd.below
  have halign := ht.pd.aligned
  have hlow : m'.dword (t.bootPdTable.toNat + 8 * i) = pdeLow i := by
    refine dword_stored h (by omega) (by omega) ?_
    unfold BootTables.stores
    simp (disch := omega) only [single_of_ne, lowFill_of_outside, fill_of_outside, lowFill_low,
      Option.none_or, Option.some_or]
  have hhigh : m'.dword (t.bootPdTable.toNat + 8 * i + 4) = 0 := by
    refine dword_zero ht hz h (x := (t.bootPdTable.toNat, 4096)) (by simp [BootTables.extents])
      (by simp; omega) (by simp; omega) (by omega) ?_
    unfold BootTables.stores
    rw [lowFill_high]
    simp (disch := omega) only [single_of_ne, lowFill_of_outside, fill_of_outside, Option.none_or]
  rw [Mem.toNat_entry_low (by rw [ha, hhigh]), ha, hlow, toNat_pdeLow]
  omega

omit hz in
theorem entry_bootPdeArray {a : Word} {i j : ℕ} (ha : a.toNat = t.bootPdeArray.toNat + 4096 * i)
    (hi : i < 64) (hj : j < 512) : (m'.entry a j).toNat = (512 * i + j) * 2 ^ 21 + 0x183 := by
  obtain ⟨⟨-, -, -, h1⟩, ⟨-, -, h2⟩, ⟨-, h3⟩, h4⟩ := ht.apart
  have hbelow := ht.pdeArray.below
  have halign := ht.pdeArray.aligned
  have hat : a.toNat + 8 * j = t.bootPdeArray.toNat + 8 * (512 * i + j) := by omega
  have hlow : m'.dword (t.bootPdeArray.toNat + 8 * (512 * i + j)) = pdeLow (512 * i + j) := by
    refine dword_stored h (by omega) (by omega) ?_
    unfold BootTables.stores
    rw [fill_low _ _ (by omega)]
    simp (disch := omega) only [single_of_ne, lowFill_of_outside, Option.none_or, Option.some_or]
  have hhigh : m'.dword (t.bootPdeArray.toNat + 8 * (512 * i + j) + 4) = pdeHigh (512 * i + j) := by
    refine dword_stored h (by omega) (by omega) ?_
    unfold BootTables.stores
    rw [fill_high _ _ (by omega)]
    simp (disch := omega) only [single_of_ne, lowFill_of_outside, Option.none_or, Option.some_or]
  rw [Mem.toNat_entry, hat, hlow, hhigh, toNat_pdeLow, toNat_pdeHigh (by omega)]
  omega

end Entries

section Walks

variable {t : BootTables} {m m' : Mem} {cr3 va : Word}
variable (ht : t.Placed) (hz : t.Zeroed m) (h : Stored m m' t.stores)
  (hcr3 : cr3.toNat = t.bootPml4Table.toNat)
include ht hz h hcr3

theorem walk_linear {off : ℕ} (hoff : off < 2 ^ 36) (hva : va.toNat = kernelAspaceBase.toNat + off) :
    m'.walk cr3 va = .mapped (BitVec.ofNat 64 off) := by
  have hbase : kernelAspaceBase.toNat = 2 ^ 64 - 2 ^ 39 := rfl
  have hhigh := ht.pdpHigh.below
  have harray := ht.pdeArray.below
  have halign := ht.pdeArray.aligned
  have h39 : tableIndex va 39 = 511 := by unfold tableIndex; omega
  have h30 : tableIndex va 30 = off / 2 ^ 30 := by unfold tableIndex; omega
  have h21 : tableIndex va 21 = off / 2 ^ 21 % 512 := by unfold tableIndex; omega
  rw [Mem.walk_large t.bootPdpHighTable.toNat (t.bootPdeArray.toNat + 4096 * (off / 2 ^ 30))
    (off / 2 ^ 21)
    ⟨ht.pdpHigh.aligned, by omega⟩ ⟨by omega, by omega⟩ (by omega)]
  · rw [show off / 2 ^ 21 * 2 ^ 21 + va.toNat % 2 ^ 21 = off by omega]
  · rw [h39, entry_bootPml4Table ht hz h hcr3 (by decide), if_pos rfl]
  · intro a ha
    rw [h30, entry_bootPdpHighTable ht hz h ha (by omega), if_pos (by omega)]
  · intro a ha
    rw [h21, entry_bootPdeArray ht h ha (by omega) (by omega)]
    omega

theorem walk_code {off : ℕ} (hoff : off < 2 ^ 30) (hva : va.toNat = kernelVmaBase.toNat + off) :
    m'.walk cr3 va = .mapped (BitVec.ofNat 64 off) := by
  have hbase : kernelVmaBase.toNat = 2 ^ 64 - 2 ^ 31 := rfl
  have hhigh := ht.pdpHigh.below
  have hpd := ht.pd.below
  have h39 : tableIndex va 39 = 511 := by unfold tableIndex; omega
  have h30 : tableIndex va 30 = 510 := by unfold tableIndex; omega
  have h21 : tableIndex va 21 = off / 2 ^ 21 := by unfold tableIndex; omega
  rw [Mem.walk_large t.bootPdpHighTable.toNat t.bootPdTable.toNat (off / 2 ^ 21)
    ⟨ht.pdpHigh.aligned, by omega⟩ ⟨ht.pd.aligned, by omega⟩ (by omega)]
  · rw [show off / 2 ^ 21 * 2 ^ 21 + va.toNat % 2 ^ 21 = off by omega]
  · rw [h39, entry_bootPml4Table ht hz h hcr3 (by decide), if_pos rfl]
  · intro a ha
    rw [h30, entry_bootPdpHighTable ht hz h ha (by decide), if_neg (by decide), if_pos rfl]
  · intro a ha
    rw [h21, entry_bootPdTable ht hz h ha (by omega)]

/-- A canonical address that is in neither range meets an entry that is not present. -/
theorem walk_elsewhere (hva : Canonical va)
    (hlinear : ¬ (kernelAspaceBase.toNat ≤ va.toNat ∧ va.toNat < kernelAspaceBase.toNat + 2 ^ 36))
    (hcode : ¬ (kernelVmaBase.toNat ≤ va.toNat ∧ va.toNat < kernelVmaBase.toNat + 2 ^ 30)) :
    ∃ level, m'.walk cr3 va = .notPresent level := by
  have hbase : kernelAspaceBase.toNat = 2 ^ 64 - 2 ^ 39 := rfl
  have hcbase : kernelVmaBase.toNat = 2 ^ 64 - 2 ^ 31 := rfl
  have hhigh := ht.pdpHigh.below
  have hlt := va.isLt
  by_cases h39 : tableIndex va 39 = 511
  · refine ⟨_, Mem.walk_notPresent_pdp ht.pdpHigh.aligned (by omega) ?_ fun a ha => ?_⟩
    · rw [h39, entry_bootPml4Table ht hz h hcr3 (by decide), if_pos rfl]
    · have hi := tableIndex_lt va 30
      have htop : 2 ^ 64 - 2 ^ 39 ≤ va.toNat := by
        unfold tableIndex at h39
        unfold Canonical at hva
        omega
      have h64 : ¬ tableIndex va 30 < 64 := by unfold tableIndex; omega
      have h510 : tableIndex va 30 ≠ 510 := by unfold tableIndex; omega
      rw [entry_bootPdpHighTable ht hz h ha hi, if_neg h64, if_neg h510]
  · refine ⟨_, Mem.walk_notPresent_pml4 ?_⟩
    rw [entry_bootPml4Table ht hz h hcr3 (tableIndex_lt va 39), if_neg h39]

end Walks

def MmuInitialMapping.Covers (map : MmuInitialMapping) (va : Word) : Prop :=
  map.virt.toNat ≤ va.toNat ∧ va.toNat < map.virt.toNat + map.size.toNat

theorem paddrToKvaddr_of_lt {pa : Word} (h : pa.toNat < 2 ^ 36) :
    paddrToKvaddr pa = some (kernelAspaceBase + pa) := by
  have hle : pa ≤ membase + 64 * 1024 * 1024 * 1024 - 1 := by
    rw [BitVec.le_def, show (membase + 64 * 1024 * 1024 * 1024 - 1).toNat = 2 ^ 36 - 1 from rfl]
    omega
  unfold paddrToKvaddr mmuInitialMappings findMapping
  rw [if_pos (by decide), if_pos ⟨BitVec.le_def.mpr (Nat.zero_le _), hle⟩]
  exact congrArg (fun x => some (kernelAspaceBase + x)) (BitVec.sub_zero pa)

theorem paddrToKvaddr_of_le {pa : Word} (h : 2 ^ 36 ≤ pa.toNat) : paddrToKvaddr pa = some NULL := by
  have h64 : ¬ pa ≤ membase + 64 * 1024 * 1024 * 1024 - 1 := by
    rw [BitVec.le_def, show (membase + 64 * 1024 * 1024 * 1024 - 1).toNat = 2 ^ 36 - 1 from rfl]
    omega
  have h1 : ¬ pa ≤ membase + 1 * 1024 * 1024 * 1024 - 1 := by
    rw [BitVec.le_def, show (membase + 1 * 1024 * 1024 * 1024 - 1).toNat = 2 ^ 30 - 1 from rfl]
    omega
  unfold paddrToKvaddr mmuInitialMappings findMapping
  rw [if_pos (by decide), if_neg fun hc => h64 hc.2]
  unfold findMapping
  rw [if_pos (by decide), if_neg fun hc => h1 hc.2]
  unfold findMapping
  rw [if_neg (by decide)]

theorem toNat_kernelAspaceBase_add {pa : Word} (h : pa.toNat < 2 ^ 36) :
    (kernelAspaceBase + pa).toNat = kernelAspaceBase.toNat + pa.toNat := by
  have hbase : kernelAspaceBase.toNat = 2 ^ 64 - 2 ^ 39 := rfl
  rw [BitVec.toNat_add]
  omega

/-- After boot the tables say what `mmu_initial_mappings` and `paddr_to_kvaddr` say. -/
theorem boot_map_described (t : BootTables) (ht : t.Placed) (s : Cpu) (hz : t.Zeroed s.mem) :
    ∃ s', Settles (fun fuel => (Cpu.setupPaging t fuel s).map (Cpu.unmapLower t)) s' ∧
      (∀ pa, ∃ va, paddrToKvaddr pa = some va ∧ (va ≠ NULL ↔ pa.toNat < 2 ^ 36) ∧
        (va ≠ NULL → s'.mem.walk (s'.cr3.setWidth 64) va = .mapped pa)) ∧
      (∀ map ∈ mmuInitialMappings, ∀ off < map.size,
        s'.mem.walk (s'.cr3.setWidth 64) (map.virt + off) = .mapped (map.phys + off)) ∧
      (∀ va pa, Canonical va → s'.mem.walk (s'.cr3.setWidth 64) va = .mapped pa →
        2 ^ 63 ≤ va.toNat ∧ ∃ map ∈ mmuInitialMappings, map.Covers va) := by
  obtain ⟨s', hrun, hcr3, h⟩ := exists_boot ht s
  have hw : (s'.cr3.setWidth 64).toNat = t.bootPml4Table.toNat := by
    rw [hcr3]
    exact BitVec.toNat_setWidth_of_le (by decide)
  have hbase : kernelAspaceBase.toNat = 2 ^ 64 - 2 ^ 39 := rfl
  have hcbase : kernelVmaBase.toNat = 2 ^ 64 - 2 ^ 31 := rfl
  refine ⟨s', hrun, fun pa => ?_, fun map hmap off hoff => ?_, fun va pa hva hwalk => ?_⟩
  · by_cases hpa : pa.toNat < 2 ^ 36
    · have hat := toNat_kernelAspaceBase_add hpa
      have hne : kernelAspaceBase + pa ≠ NULL := by
        intro hc
        rw [hc, toNat_null] at hat
        omega
      refine ⟨_, paddrToKvaddr_of_lt hpa, iff_of_true hne hpa, fun _ => ?_⟩
      rw [walk_linear ht hz h hw hpa hat, BitVec.ofNat_toNat, BitVec.setWidth_eq]
    · exact ⟨NULL, paddrToKvaddr_of_le (by omega), iff_of_false (fun hc => hc rfl) hpa,
        fun hc => absurd rfl hc⟩
  · have hlt := hoff
    rw [BitVec.lt_def] at hlt
    simp only [mmuInitialMappings, List.mem_cons, List.not_mem_nil, or_false] at hmap
    rcases hmap with rfl | rfl | rfl
    · have hsize : off.toNat < 2 ^ 36 := hlt
      show s'.mem.walk _ (kernelAspaceBase + off) = .mapped (0#64 + off)
      rw [walk_linear ht hz h hw hsize (toNat_kernelAspaceBase_add hsize), BitVec.ofNat_toNat,
        BitVec.setWidth_eq, BitVec.zero_add]
    · have hsize : off.toNat < 2 ^ 30 := hlt
      have hat : (kernelVmaBase + off).toNat = kernelVmaBase.toNat + off.toNat := by
        rw [BitVec.toNat_add]
        omega
      show s'.mem.walk _ (kernelVmaBase + off) = .mapped (0#64 + off)
      rw [walk_code ht hz h hw hsize hat, BitVec.ofNat_toNat, BitVec.setWidth_eq, BitVec.zero_add]
    · exact absurd hlt (Nat.not_lt_zero _)
  · by_cases hlinear : kernelAspaceBase.toNat ≤ va.toNat ∧ va.toNat < kernelAspaceBase.toNat + 2 ^ 36
    · exact ⟨by omega, ⟨membase, kernelAspaceBase, 64 * 1024 * 1024 * 1024⟩,
        List.mem_cons_self, hlinear⟩
    · by_cases hcode : kernelVmaBase.toNat ≤ va.toNat ∧ va.toNat < kernelVmaBase.toNat + 2 ^ 30
      · exact ⟨by omega, ⟨membase, kernelVmaBase, 1 * 1024 * 1024 * 1024⟩,
          List.mem_cons_of_mem _ List.mem_cons_self, hcode⟩
      · obtain ⟨level, hnot⟩ := walk_elsewhere ht hz h hw hva hlinear hcode
        rw [hnot] at hwalk
        cases hwalk

/-- Tables in five runs of pages from 64 KiB on. -/
theorem boot_map_described_sample : ∃ s', Settles (fun fuel =>
      (Cpu.setupPaging ⟨0x10000, 0x11000, 0x12000, 0x13000, 0x14000⟩ fuel
        ⟨0, 0, 0, 0, 0, fun _ => 0⟩).map
        (Cpu.unmapLower ⟨0x10000, 0x11000, 0x12000, 0x13000, 0x14000⟩)) s' ∧
    s'.mem.walk (s'.cr3.setWidth 64) 0xffffff8012345678 = .mapped 0x12345678 ∧
    s'.mem.walk (s'.cr3.setWidth 64) 0xffffffff80123456 = .mapped 0x123456 := by
  obtain ⟨s', hrun, -, hmap, -⟩ := boot_map_described ⟨0x10000, 0x11000, 0x12000, 0x13000, 0x14000⟩
    ⟨by decide, by decide, by decide⟩ ⟨0, 0, 0, 0, 0, fun _ => 0⟩ fun _ _ _ _ _ => rfl
  exact ⟨s', hrun, hmap _ List.mem_cons_self 0x12345678 (by decide),
    hmap _ (List.mem_cons_of_mem _ List.mem_cons_self) 0x123456 (by decide)⟩

end Rix
