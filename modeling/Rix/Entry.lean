import Rix.BootWalk
import Rix.Memset
import Rix.Platform

/-!
# From the boot loader to `platform_init`

`_start` keeps the pointer of the boot loader in `mbt_info`, clears `.bss` and fills the page
tables there. The C code then reads the pointer and the information block through these tables.
-/
namespace Rix
open Rings Fuel MmapEntry

/-- `rep stosb` with the direction flag clear: `ecx` bytes from `edi` on become `al`. -/
def repStosb (al : Byte) : ℕ → BitVec 32 → Mem → Mem
  | 0, _, m => m
  | ecx + 1, edi, m => repStosb al ecx (edi + 1) (m.set8 (edi.setWidth 64) al)

/-- The physical addresses of what `start.S` names. -/
structure BootImage extends BootTables where
  mbtInfo : BitVec 32
  bssStart : BitVec 32
  bssEnd : BitVec 32

namespace Cpu

/-- `.Lclear_bss`. -/
def clearBss (img : BootImage) (s : Cpu) : Cpu :=
  let edi := img.bssStart
  let s := { s with ecx := img.bssEnd }
  let s := { s with ecx := s.ecx - edi }
  let s := { s with eax := 0 }
  { s with mem := repStosb (s.eax.setWidth 8) s.ecx.toNat edi s.mem, ecx := 0 }

/-- `_start` and `_start64`, up to the C code; the boot loader leaves its block at `ebx`. -/
def start (img : BootImage) (fuel : ℕ) (s : Cpu) : Option Cpu :=
  let s := s.movl img.mbtInfo s.ebx
  let s := s.clearBss img
  (s.setupPaging img.toBootTables fuel).map (unmapLower img.toBootTables)

end Cpu

/-- Physical memory as it is read through the tables at `cr3`. -/
def Mem.virtual (m : Mem) (cr3 : Word) : Word → Option Byte := fun va =>
  match m.walk cr3 va with
  | .mapped pa => some (m pa)
  | .notPresent _ => none

/-- Physical memory seen from `KERNEL_VMA_BASE`. -/
def Mem.image (m : Mem) : Mem := fun va => m (va - kernelVmaBase)

/-- The tables are in `.bss`, and `mbt_info`, which is in `.data`, is not. -/
structure BootImage.Linked (img : BootImage) : Prop where
  tables : img.toBootTables.Placed
  within : ∀ x ∈ img.extents, img.bssStart.toNat ≤ x.1 ∧ x.1 + x.2 ≤ img.bssEnd.toNat
  pointer : img.mbtInfo.toNat + 8 ≤ img.bssStart.toNat
  below : img.mbtInfo.toNat + 8 ≤ 2 ^ 30

/-- The block of `total` bytes at `ebx` lies below 1 GiB and apart from what `_start` writes. The
upper half of `mbt_info` is as the image initialises it. -/
structure BootImage.Loaded (img : BootImage) (s : Cpu) (total : ℕ) (es : List MmapEntry) :
    Prop where
  block : MapBlock s.mem.image (s.ebx.setWidth 64 + kernelVmaBase) total es
  below : s.ebx.toNat + total ≤ 2 ^ 30
  bss : s.ebx.toNat + total ≤ img.bssStart.toNat ∨ img.bssEnd.toNat ≤ s.ebx.toNat
  pointer : s.ebx.toNat + total ≤ img.mbtInfo.toNat ∨ img.mbtInfo.toNat + 4 ≤ s.ebx.toNat
  upper : s.mem.get32 (img.mbtInfo.setWidth 64 + 4) = 0

theorem repStosb_eq (al : Byte) (m : Mem) (ecx : ℕ) {edi : BitVec 32}
    (h : edi.toNat + ecx ≤ 2 ^ 32) : repStosb al ecx edi m = filled m (edi.setWidth 64) ecx al := by
  suffices h : ∀ n k, n + k = ecx →
      repStosb al k (edi + BitVec.ofNat 32 n) (filled m (edi.setWidth 64) n al) =
        filled m (edi.setWidth 64) ecx al by
    have h0 := h 0 ecx (Nat.zero_add ecx)
    rwa [filled_zero, show edi + BitVec.ofNat 32 0 = edi from BitVec.add_zero edi] at h0
  intro n k
  induction k generalizing n with
  | zero =>
      rintro rfl
      rfl
  | succ k ih =>
      intro hk
      have hat : ((edi + BitVec.ofNat 32 n).setWidth 64 : Word) =
          edi.setWidth 64 + BitVec.ofNat 64 n := by
        apply BitVec.eq_of_toNat_eq
        rw [BitVec.toNat_setWidth, toNat_add_ofNat, BitVec.toNat_setWidth, BitVec.toNat_add,
          BitVec.toNat_ofNat]
        · omega
        · rw [BitVec.toNat_setWidth]
          omega
      have hnext : edi + BitVec.ofNat 32 n + 1 = edi + BitVec.ofNat 32 (n + 1) := by
        rw [BitVec.ofNat_add, ← BitVec.add_assoc]
        rfl
      rw [repStosb, hat, filled_set8, hnext]
      exact ih (n + 1) (by omega)

theorem get32_byte (m : Mem) (a : Word) {i : ℕ} (hi : i < 4) :
    m (a + BitVec.ofNat 64 i) = (m.get32 a).extractLsb' (8 * i) 8 := by
  apply BitVec.eq_of_getLsbD_eq
  intro j hj
  rw [BitVec.getLsbD_extractLsb', decide_eq_true hj, Bool.true_and]
  show _ = (m (a + 3) ++ m (a + 2) ++ m (a + 1) ++ m a : BitVec (8 + 8 + 8 + 8)).getLsbD _
  simp only [BitVec.getLsbD_append]
  interval_cases i
  · rw [if_pos (by omega), Nat.mul_zero, Nat.zero_add]
    exact congrArg (fun x => (m x).getLsbD j) (BitVec.add_zero a)
  · rw [if_neg (by omega), if_pos (by omega), show 8 * 1 + j - 8 = j by omega]
    rfl
  · rw [if_neg (by omega), if_neg (by omega), if_pos (by omega), show 8 * 2 + j - 8 - 8 = j by omega]
    rfl
  · rw [if_neg (by omega), if_neg (by omega), if_neg (by omega),
      show 8 * 3 + j - 8 - 8 - 8 = j by omega]
    rfl

theorem Mem.dword_byte {m m' : Mem} {p i : ℕ} (h : m'.dword p = m.dword p) (hi : i < 4) :
    m' (BitVec.ofNat 64 (p + i)) = m (BitVec.ofNat 64 (p + i)) := by
  rw [BitVec.ofNat_add, get32_byte m' _ hi, get32_byte m _ hi]
  exact congrArg _ h

theorem BootTables.stores_outside {t : BootTables} {p : ℕ} (hp : p % 4 = 0) (ht : t.Placed)
    (h : ∀ x ∈ t.extents, p < x.1 ∨ x.1 + x.2 ≤ p) : t.stores p = none := by
  simp only [BootTables.extents, List.mem_cons, List.not_mem_nil, or_false, forall_eq_or_imp,
    forall_eq] at h
  have := ht.pml4.aligned
  unfold BootTables.stores
  simp (disch := omega) only [single_of_ne, lowFill_of_outside, fill_of_outside, Option.none_or]

theorem Stored.byte {t : BootTables} {m m' : Mem} (ht : t.Placed) (h : Stored m m' t.stores)
    {a : Word} (ha : a.toNat < 2 ^ 32) (hout : ∀ x ∈ t.extents, a.toNat < x.1 ∨ x.1 + x.2 ≤ a.toNat) :
    m' a = m a := by
  have halign := ht.aligned
  have hsize : ∀ x ∈ t.extents, x.2 % 4 = 0 := by simp [BootTables.extents]
  have hnone : t.stores (a.toNat / 4 * 4) = none := by
    refine BootTables.stores_outside (by omega) ht fun x hx => ?_
    have := halign x hx
    have := hsize x hx
    have := hout x hx
    omega
  have hdword := h (a.toNat / 4 * 4) (by omega) (by omega)
  rw [hnone, Option.getD_none] at hdword
  have hbyte := Mem.dword_byte (i := a.toNat % 4) hdword (by omega)
  rwa [show a.toNat / 4 * 4 + a.toNat % 4 = a.toNat by omega, BitVec.ofNat_toNat,
    BitVec.setWidth_eq] at hbyte

section Congr

variable {m m' : Mem} {info : Word} {total o : ℕ} {os : List ℕ} {es : List MmapEntry}

theorem Tags.header (h : Tags m info total o os) {o' : ℕ} (ho : o' ∈ os) : o' + 8 ≤ total := by
  induction h with
  | total => cases ho
  | endTag => cases ho
  | tag _ h8 hfit _ ih =>
      rcases List.mem_cons.mp ho with rfl | ho
      · omega
      · exact ih ho

variable (hm : ∀ i < total, m' (info + BitVec.ofNat 64 i) = m (info + BitVec.ofNat 64 i))
include hm

theorem get32_block {o : ℕ} (h : o + 4 ≤ total) :
    m'.get32 (info + BitVec.ofNat 64 o) = m.get32 (info + BitVec.ofNat 64 o) :=
  Mem.get32_congr fun i hi => by
    rw [BitVec.add_assoc, ← BitVec.ofNat_add]
    exact hm _ (by omega)

theorem tagSize_congr (h : o + 8 ≤ total) : tagSize m' info o = tagSize m info o := by
  have h4 := get32_block hm (o := o + 4) (by omega)
  rw [BitVec.ofNat_add, ← BitVec.add_assoc] at h4
  exact congrArg BitVec.toNat h4

theorem mmapEntry_congr (h : o + 24 ≤ total) :
    m'.mmapEntry (info + BitVec.ofNat 64 o) = m.mmapEntry (info + BitVec.ofNat 64 o) := by
  have h64 : ∀ d, d + 8 ≤ 24 → m'.get64 (info + BitVec.ofNat 64 o + BitVec.ofNat 64 d) =
      m.get64 (info + BitVec.ofNat 64 o + BitVec.ofNat 64 d) := fun d hd => Mem.get64_congr fun i hi => by
    rw [BitVec.add_assoc, BitVec.add_assoc, ← BitVec.ofNat_add, ← BitVec.ofNat_add]
    exact hm _ (by omega)
  have h0 := h64 0 (by decide)
  rw [show info + BitVec.ofNat 64 o + BitVec.ofNat 64 0 = info + BitVec.ofNat 64 o from
    BitVec.add_zero _] at h0
  have h16 := get32_block hm (o := o + 16) (by omega)
  rw [BitVec.ofNat_add, ← BitVec.add_assoc] at h16
  simp only [Mem.mmapEntry, MmapEntry.mk.injEq]
  exact ⟨h0, h64 8 (by decide), h16⟩

theorem MapBlock.congr (h : MapBlock m info total es) : MapBlock m' info total es := by
  obtain ⟨hsize, hheader, htop, os, o, k, htags, hone, hk, rfl⟩ := h
  have ho : o ∈ os := (List.mem_filter.mp (hone ▸ List.mem_singleton_self o)).1
  have hfit := htags.mem_fits ho
  have h0 := get32_block hm (o := 0) (by omega)
  rw [show info + BitVec.ofNat 64 0 = info from BitVec.add_zero info] at h0
  refine ⟨by rw [h0, hsize], hheader, htop, os, o, k, htags.congr fun x _ hx _ => hm x hx, ?_, ?_, ?_⟩
  · rw [← hone]
    refine List.filter_congr fun o' ho' => ?_
    have := htags.header ho'
    rw [tagType, get32_block hm (by omega)]
    rfl
  · rw [tagSize_congr hm (htags.header ho), hk]
  · refine List.map_congr_left fun i hi => ?_
    rw [List.mem_range] at hi
    exact (mmapEntry_congr hm (by omega)).symm

end Congr

section Start

variable {img : BootImage} {s : Cpu} {total : ℕ} {es : List MmapEntry}

/-- What memory holds after `_start`: the tables filled into a cleared `.bss`, the pointer, and
otherwise what was there. -/
theorem exists_start (hl : img.Linked) (s : Cpu) : ∃ s' m, Settles (fun n => Cpu.start img n s) s' ∧
    s'.cr3 = img.bootPml4Table ∧ Stored m s'.mem img.toBootTables.stores ∧
    m = filled (s.mem.set32 (img.mbtInfo.setWidth 64) s.ebx) (img.bssStart.setWidth 64)
      (img.bssEnd.toNat - img.bssStart.toNat) 0 := by
  have hpml4 := hl.within (img.bootPml4Table.toNat, 4096) (by simp [BootTables.extents])
  simp only at hpml4
  have hend := img.bssEnd.isLt
  obtain ⟨s', hset, hcr3, hst⟩ := exists_boot hl.tables ((s.movl img.mbtInfo s.ebx).clearBss img)
  refine ⟨s', _, hset, hcr3, hst, ?_⟩
  have hsub : (img.bssEnd - img.bssStart).toNat = img.bssEnd.toNat - img.bssStart.toNat :=
    BitVec.toNat_sub_of_le (by rw [BitVec.le_def]; omega)
  simp only [Cpu.clearBss, Cpu.movl, hsub]
  exact repStosb_eq _ _ _ (by omega)

theorem toNat_sub_setWidth {a : Word} {b : BitVec 32} (h : b.toNat ≤ a.toNat) :
    (a - b.setWidth 64).toNat = a.toNat - b.toNat := by
  have hb : (b.setWidth 64 : Word).toNat = b.toNat := BitVec.toNat_setWidth_of_le (by decide)
  rw [BitVec.toNat_sub_of_le (by rw [BitVec.le_def, hb]; exact h), hb]

theorem filled_outside {m : Mem} {a : Word} {b : BitVec 32} {n : ℕ} {v : Byte}
    (h : a.toNat < b.toNat ∨ b.toNat + n ≤ a.toNat) (hn : b.toNat + n < 2 ^ 32) :
    filled m (b.setWidth 64) n v a = m a := by
  have hb : (b.setWidth 64 : Word).toNat = b.toNat := BitVec.toNat_setWidth_of_le (by decide)
  refine if_neg ?_
  rw [BitVec.toNat_sub, hb]
  have := a.isLt
  omega

theorem BootImage.Linked.bss_le (hl : img.Linked) : img.bssStart.toNat ≤ img.bssEnd.toNat := by
  have h := hl.within (img.bootPml4Table.toNat, 4096) (by simp [BootTables.extents])
  simp only at h
  omega

/-- `_start` finds its tables zeroed, whatever memory held. -/
theorem zeroed_filled (hl : img.Linked) (m : Mem) : img.Zeroed
    (filled m (img.bssStart.setWidth 64) (img.bssEnd.toNat - img.bssStart.toNat) 0) := by
  intro x hx p hle hlt
  have hin := hl.within x hx
  have hbelow := hl.tables.below x hx
  have hp : (BitVec.ofNat 64 p).toNat = p := by
    rw [BitVec.toNat_ofNat]
    omega
  refine if_pos ?_
  rw [toNat_sub_setWidth (by omega), hp]
  omega

theorem start_byte (hl : img.Linked) {m m' : Mem} {ebx : BitVec 32}
    (h : Stored (filled (m.set32 (img.mbtInfo.setWidth 64) ebx) (img.bssStart.setWidth 64)
      (img.bssEnd.toNat - img.bssStart.toNat) 0) m' img.toBootTables.stores) {a : Word}
    (ha : a.toNat < 2 ^ 32) (hbss : a.toNat < img.bssStart.toNat ∨ img.bssEnd.toNat ≤ a.toNat) :
    m' a = m.set32 (img.mbtInfo.setWidth 64) ebx a := by
  have hle := hl.bss_le
  have hend := img.bssEnd.isLt
  rw [h.byte hl.tables ha fun x hx => by have := hl.within x hx; omega]
  exact filled_outside (by omega) (by omega)

theorem virtual_image {t : BootTables} {m m' : Mem} {cr3 : Word} (ht : t.Placed) (hz : t.Zeroed m)
    (h : Stored m m' t.stores) (hcr3 : cr3.toNat = t.bootPml4Table.toNat) {va : Word} {off : ℕ}
    (hoff : off < 2 ^ 30) (hva : va.toNat = kernelVmaBase.toNat + off) :
    m'.virtual cr3 va = some (m'.image va) := by
  have hbase : kernelVmaBase.toNat = 2 ^ 64 - 2 ^ 31 := rfl
  have hat : va - kernelVmaBase = BitVec.ofNat 64 off := by
    apply BitVec.eq_of_toNat_eq
    rw [BitVec.toNat_sub_of_le (by rw [BitVec.le_def]; omega), BitVec.toNat_ofNat]
    omega
  rw [Mem.virtual, walk_code ht hz h hcr3 hoff hva, Mem.image, hat]

theorem toNat_add_kernelVmaBase {a : BitVec 32} {i : ℕ} (h : a.toNat + i < 2 ^ 31) :
    ((a.setWidth 64 : Word) + kernelVmaBase + BitVec.ofNat 64 i).toNat =
      kernelVmaBase.toNat + (a.toNat + i) := by
  have ha : (a.setWidth 64 : Word).toNat = a.toNat := BitVec.toNat_setWidth_of_le (by decide)
  have hbase : kernelVmaBase.toNat = 2 ^ 64 - 2 ^ 31 := rfl
  rw [BitVec.toNat_add, BitVec.toNat_add, ha, BitVec.toNat_ofNat]
  omega

theorem image_add (a b : Word) : a + kernelVmaBase + b - kernelVmaBase = a + b := by
  rw [BitVec.add_assoc, BitVec.add_comm kernelVmaBase, ← BitVec.add_assoc, BitVec.add_sub_cancel]

theorem Mem.image_get64 (m : Mem) (a : Word) : m.image.get64 (a + kernelVmaBase) = m.get64 a := by
  simp only [Mem.get64, Mem.get32, Mem.image, BitVec.add_assoc _ (4 : Word), image_add,
    BitVec.add_sub_cancel]

theorem get64_set32 {m : Mem} {a : Word} (v : BitVec 32) (h : m.get32 (a + 4) = 0) :
    (m.set32 a v).get64 a = v.setWidth 64 := by
  have hsep : Separate (a + 4) 4 a 4 := by
    constructor
    · rw [BitVec.toNat_sub, BitVec.toNat_add, show (4 : Word).toNat = 4 from rfl]
      omega
    · rw [BitVec.toNat_sub, BitVec.toNat_add, show (4 : Word).toNat = 4 from rfl]
      omega
  rw [Mem.get64, Mem.get32_set32_of_separate v hsep, get32_set32_self, h]
  apply BitVec.eq_of_toNat_eq
  rw [BitVec.toNat_append, BitVec.toNat_setWidth_of_le (by decide)]
  simp

/-- After `_start` the C code reads `mbt_info` and the whole information block as the boot loader
left them, whatever else memory held. -/
theorem start_bootInput (hl : img.Linked) (h : img.Loaded s total es) {zoneList phyZones : Word}
    {s₀ : Pmm} (hmap : MapAdmissible zoneList phyZones es s₀) :
    ∃ s', Settles (fun n => Cpu.start img n s) s' ∧
      load64 (s'.mem.virtual (s'.cr3.setWidth 64)) (img.mbtInfo.setWidth 64 + kernelVmaBase) =
        some (s.ebx.setWidth 64) ∧
      BootInput (s'.mem.virtual (s'.cr3.setWidth 64)) zoneList phyZones (s.ebx.setWidth 64) es s₀ := by
  obtain ⟨s', m, hset, hcr3, hst, rfl⟩ := exists_start hl s
  have hw : (s'.cr3.setWidth 64 : Word).toNat = img.bootPml4Table.toNat := by
    rw [hcr3]
    exact BitVec.toNat_setWidth_of_le (by decide)
  have hread : ∀ {a : BitVec 32} {i}, a.toNat + i < 2 ^ 30 →
      s'.mem.virtual (s'.cr3.setWidth 64) (a.setWidth 64 + kernelVmaBase + BitVec.ofNat 64 i) =
        some (s'.mem.image (a.setWidth 64 + kernelVmaBase + BitVec.ofNat 64 i)) := fun hai =>
    virtual_image hl.tables (zeroed_filled hl _) hst hw hai (toNat_add_kernelVmaBase (by omega))
  have hat : ∀ {a : BitVec 32} {i}, a.toNat + i < 2 ^ 30 →
      ((a.setWidth 64 : Word) + BitVec.ofNat 64 i).toNat = a.toNat + i := fun {a i} hai => by
    have ha : (a.setWidth 64 : Word).toNat = a.toNat := BitVec.toNat_setWidth_of_le (by decide)
    rw [toNat_add_ofNat (by omega), ha]
  have hbelow := h.below
  have hmbt := hl.below
  refine ⟨s', hset, ?_, ⟨hmap, s'.mem.image, total, ⟨?_, fun i hi => hread (by omega)⟩, ?_⟩⟩
  · have hpointer : Readable (s'.mem.virtual (s'.cr3.setWidth 64)) s'.mem.image
        (img.mbtInfo.setWidth 64 + kernelVmaBase) 8 := fun i hi => hread (by omega)
    rw [hpointer.load64, ← get64_set32 s.ebx h.upper]
    refine congrArg some ?_
    rw [Mem.image_get64]
    refine Mem.get64_congr fun i hi => ?_
    have hai := hat (a := img.mbtInfo) (i := i) (by omega)
    have := hl.pointer
    exact start_byte hl hst (by omega) (.inl (by omega))
  · have h0 := toNat_add_kernelVmaBase (a := s.ebx) (i := 0) (by omega)
    have hbase : kernelVmaBase.toNat = 2 ^ 64 - 2 ^ 31 := rfl
    rw [show s.ebx.setWidth 64 + kernelVmaBase + BitVec.ofNat 64 0 =
      s.ebx.setWidth 64 + kernelVmaBase from BitVec.add_zero _] at h0
    omega
  · refine h.block.congr fun i hi => ?_
    have hai := hat (a := s.ebx) (i := i) (by omega)
    have hbss := h.bss
    have hptr := h.pointer
    rw [Mem.image, Mem.image, image_add, start_byte hl hst (by omega) (by omega)]
    refine if_neg ?_
    have hm : (img.mbtInfo.setWidth 64 : Word).toNat = img.mbtInfo.toNat :=
      BitVec.toNat_setWidth_of_le (by decide)
    rw [BitVec.toNat_sub, hai, hm]
    omega

/-- From the boot loader to the allocator: `_start` and `platform_init` end, and from then on the
frames that runs of the allocator hand out are those wholly inside a region of the loader's map that
is available and from 1 MiB on, if and only if every such region fits. The allocator's state is any
one with `ImageLayout`, such as the state that `_start` leaves. -/
theorem boot_hands_out_iff (hl : img.Linked) (h : img.Loaded s total es) {zoneList phyZones : Word}
    {s₀ : Pmm} (hmap : MapAdmissible zoneList phyZones es s₀) :
    ∃ s' P, Settles (fun n => Cpu.start img n s) s' ∧
      load64 (s'.mem.virtual (s'.cr3.setWidth 64)) (img.mbtInfo.setWidth 64 + kernelVmaBase) =
        some (s.ebx.setWidth 64) ∧
      PlatformEnds (s'.mem.virtual (s'.cr3.setWidth 64)) zoneList phyZones (s.ebx.setWidth 64) s₀ P ∧
      ((∀ f, P.HandsOut zoneList f ↔ ∃ e ∈ es, e.High ∧ e.zone.Holds f) ↔
        ∀ e ∈ es, e.High → e.zone.Fits) := by
  obtain ⟨s', hset, hpointer, hinput⟩ := start_bootInput hl h hmap
  obtain ⟨P, hend, hiff⟩ := hinput.handsOut_iff
  exact ⟨s', P, hset, hpointer, hend, hiff⟩

end Start

/-- An image at 1 MiB with its tables from 0x110000 on. -/
def sampleKernel : BootImage :=
  ⟨⟨0x110000, 0x111000, 0x112000, 0x113000, 0x114000⟩, 0x10f000, 0x110000, 0x155000⟩

def sampleCpu : Cpu := ⟨0, 65536, 0, 0, 0, fun a => sampleMemory (a + kernelVmaBase)⟩

theorem sampleCpu_outside (a : Word) (h : 65536 + 112 ≤ a.toNat) : sampleCpu.mem a = 0 := by
  have hat : (a + kernelVmaBase - (65536 + kernelVmaBase)).toNat = a.toNat - 65536 := by
    rw [BitVec.add_comm 65536, ← BitVec.sub_sub, BitVec.add_sub_cancel, BitVec.toNat_sub_of_le]
    · rfl
    · rw [BitVec.le_def, show (65536 : Word).toNat = 65536 from rfl]
      omega
  have hlen : sampleBlock.length = 112 := rfl
  simp only [sampleCpu, sampleMemory, hat, List.getD_eq_getElem?_getD]
  rw [List.getElem?_eq_none (by omega), Option.getD_none]

theorem sampleKernel_pointer : (sampleKernel.mbtInfo.setWidth 64 + 4 : Word) = 0x10f004 := by decide

theorem sampleCpu_upper : sampleCpu.mem.get32 0x10f004 = 0 := by
  rw [Mem.get32, sampleCpu_outside 0x10f004 (by decide),
    sampleCpu_outside (0x10f004 + 1) (by decide), sampleCpu_outside (0x10f004 + 2) (by decide),
    sampleCpu_outside (0x10f004 + 3) (by decide)]
  rfl

theorem sampleKernel_linked : sampleKernel.Linked :=
  ⟨⟨by decide, by decide, by decide⟩, by decide, by decide, by decide⟩

theorem sampleKernel_loaded : sampleKernel.Loaded sampleCpu 112 sampleMap where
  block := by
    have hmem : sampleCpu.mem.image = sampleMemory := by
      funext va
      simp only [Mem.image, sampleCpu, BitVec.sub_add_cancel]
    rw [hmem]
    exact sampleMemory_block
  below := by decide
  bss := .inl (by decide)
  pointer := .inl (by decide)
  upper := by
    rw [sampleKernel_pointer]
    exact sampleCpu_upper

/-- The frame of the PML4 table is handed out, that behind the available region is not. -/
theorem boot_hands_out_iff_sample : ∃ s' P, Settles (fun n => Cpu.start sampleKernel n sampleCpu) s' ∧
    PlatformEnds (s'.mem.virtual (s'.cr3.setWidth 64)) 64 4096 65536 sampleImage P ∧
    P.HandsOut 64 0x110000 ∧ ¬ P.HandsOut 64 0x7fe0000 := by
  obtain ⟨s', P, hset, -, hend, hiff⟩ := boot_hands_out_iff sampleKernel_linked sampleKernel_loaded
    sample_mapAdmissible
  have hexact := hiff.mpr (by
    simp only [sampleMap, PhysZone.Fits]
    decide)
  refine ⟨s', P, hset, hend, (hexact _).mpr ?_, fun hout => ?_⟩
  · exact ⟨⟨0x100000, 0x7ee0000, 1⟩, by decide, by decide, PhysZone.holds_iff.mpr (by decide)⟩
  · obtain ⟨e, he, hhigh, hf⟩ := (hexact _).mp hout
    rw [PhysZone.holds_iff] at hf
    revert e
    decide

end Rix
