import Rix.BootState

/-!
# Parsing the boot memory map

What a well-formed multiboot2 information block says, and that `init_boot_state`
leaves exactly that in `bst` without a load outside the block.
-/
namespace Rix
open Fuel

/-- The fields of `multiboot2_mmap_entry_t` the code reads. -/
structure MmapEntry where
  addr : Word
  len : Word
  type : BitVec 32
  deriving DecidableEq, Repr

def Mem.mmapEntry (m : Mem) (a : Word) : MmapEntry := ⟨m.get64 a, m.get64 (a + 8), m.get32 (a + 16)⟩

namespace MmapEntry

/-- Available memory from `HIGHMEM_PADDR` on. -/
def High (e : MmapEntry) : Prop := e.type = multiboot2MmapMemoryAvailable ∧ highmemPaddr ≤ e.addr

instance (e : MmapEntry) : Decidable e.High := inferInstanceAs (Decidable (_ ∧ _))

def zone (e : MmapEntry) : PhysZone := ⟨e.addr, e.len⟩

def highZones (es : List MmapEntry) : List PhysZone := (es.filter (·.High)).map zone

/-- The length of the last entry at address zero, cut to 32 bits. -/
def lowLength (es : List MmapEntry) (unset : BitVec 32) : BitVec 32 :=
  (((es.filter (·.addr = 0)).getLast?).map (·.len.setWidth 32)).getD unset

variable {es : List MmapEntry} {e : MmapEntry}

theorem highZones_concat (h : e.High) : highZones (es ++ [e]) = highZones es ++ [e.zone] := by
  simp [highZones, List.filter_append, h]

theorem highZones_concat_of_not (h : ¬ e.High) : highZones (es ++ [e]) = highZones es := by
  simp [highZones, List.filter_append, h]

theorem lowLength_concat (u : BitVec 32) :
    lowLength (es ++ [e]) u = if e.addr = 0 then e.len.setWidth 32 else lowLength es u := by
  unfold lowLength
  rw [List.filter_append]
  by_cases h : e.addr = 0
  · rw [List.filter_cons_of_pos (by simpa using h), List.filter_nil, List.getLast?_concat, if_pos h]
    rfl
  · rw [List.filter_cons_of_neg (by simpa using h), List.filter_nil, List.append_nil, if_neg h]

end MmapEntry
open MmapEntry

/-- `bst'` is `bst` after the entries `es` of a memory map. -/
structure Recorded (bst : BootState) (es : List MmapEntry) (bst' : BootState) : Prop where
  num : bst'.numHighZones = bst.numHighZones + BitVec.ofNat 64 (highZones es).length
  zones : bst'.memHighZones.toList =
    highZones es ++ bst.memHighZones.toList.drop (highZones es).length
  low : bst'.memLower = lowLength es bst.memLower

section Entries

variable {w : Word → Option Byte} {m : Mem} {a : Word} {bst b : BootState} {es : List MmapEntry}
  {e : MmapEntry} {count : BitVec 32}

theorem Recorded.nil (bst : BootState) : Recorded bst [] bst :=
  ⟨(BitVec.add_zero _).symm, rfl, rfl⟩

/-- `if (!mmap->addr) bst.mem_lower = mmap->len`. -/
def saveLow (bst : BootState) (e : MmapEntry) : BootState :=
  if e.addr = 0 then { bst with memLower := e.len.setWidth 32 } else bst

theorem Recorded.saveLow (h : Recorded bst es b) (he : ¬ e.High) :
    Recorded bst (es ++ [e]) (saveLow b e) := by
  unfold Rix.saveLow
  constructor
  · rw [highZones_concat_of_not he]
    split <;> exact h.num
  · rw [highZones_concat_of_not he]
    split <;> exact h.zones
  · rw [lowLength_concat]
    split
    · rfl
    · exact h.low

theorem MmapEntry.High.addr_ne (he : e.High) : e.addr ≠ 0 := by
  intro h
  have := he.2
  rw [h] at this
  exact absurd this (by decide)

theorem Recorded.push (h : Recorded bst es b) (he : e.High) (hc : count.toNat = (highZones es).length)
    (hlt : count.toNat < 10) :
    Recorded bst (es ++ [e]) (pushHighZone (Rix.saveLow b e) count e.zone) := by
  rw [show Rix.saveLow b e = b from if_neg he.addr_ne, pushHighZone, dif_pos hlt]
  refine ⟨?_, ?_, ?_⟩
  · rw [highZones_concat he, List.length_append, List.length_singleton]
    simp only [h.num]
    rw [BitVec.add_assoc]
    congr 1
    exact (BitVec.ofNat_add _ _).symm
  · rw [hc] at hlt
    have hin : (highZones es).length < bst.memHighZones.toList.length := by simpa using hlt
    have hdrop : bst.memHighZones.toList.drop (highZones es).length =
        bst.memHighZones.toList[(highZones es).length] ::
          bst.memHighZones.toList.drop ((highZones es).length + 1) :=
      List.drop_eq_getElem_cons hin
    rw [highZones_concat he, List.length_append, List.length_singleton]
    simp only [Vector.toList_set, hc, h.zones]
    rw [hdrop, List.set_append_right _ _ (le_refl _), Nat.sub_self, List.set_cons_zero,
      List.append_assoc, List.singleton_append]
  · rw [lowLength_concat, if_neg he.addr_ne]
    exact h.low

/-- The loop after a pass at the entry `e`. -/
def MmapLoop.entry (st : MmapLoop) (e : MmapEntry) : MmapLoop :=
  if e.High then
    ⟨st.mmap + sizeofMmapEntry, st.count + 1, pushHighZone (saveLow st.bst e) st.count e.zone⟩
  else ⟨st.mmap + sizeofMmapEntry, st.count, saveLow st.bst e⟩

theorem mmapBody_eq {st : MmapLoop} (ha : Readable w m st.mmap 24) :
    mmapBody w st = some (st.entry (m.mmapEntry st.mmap)) := by
  obtain ⟨a, count, b⟩ := st
  simp only at ha
  have haddr := (ha.start (j := 8) (by decide)).load64
  have hlen := (ha.field (j := 8) 8 (by decide)).load64
  have htype := (ha.field (j := 4) 16 (by decide)).load32
  have hlow : (if m.get64 a = 0 then some { b with memLower := (m.get64 (a + 8)).setWidth 32 }
      else some b) = some (saveLow b (m.mmapEntry a)) := (apply_ite some _ _ _).symm
  have hbody : mmapBody w ⟨a, count, b⟩ =
      (if m.get64 a = 0 then some { b with memLower := (m.get64 (a + 8)).setWidth 32 }
        else some b).bind fun b₁ =>
      if m.get32 (a + 16) = multiboot2MmapMemoryAvailable then
        if highmemPaddr ≤ m.get64 a then
          some ⟨a + sizeofMmapEntry, count + 1, pushHighZone b₁ count ⟨m.get64 a, m.get64 (a + 8)⟩⟩
        else some ⟨a + sizeofMmapEntry, count, b₁⟩
      else some ⟨a + sizeofMmapEntry, count, b₁⟩ := by
    unfold mmapBody
    simp only [haddr, hlen, htype, Option.bind_eq_bind, Option.bind_some]
    split <;> rfl
  rw [hbody, hlow, Option.bind_some, MmapLoop.entry]
  by_cases ht : m.get32 (a + 16) = multiboot2MmapMemoryAvailable
  · by_cases hh : highmemPaddr ≤ m.get64 a
    · rw [if_pos ht, if_pos hh, if_pos (show (m.mmapEntry a).High from ⟨ht, hh⟩)]
      rfl
    · rw [if_pos ht, if_neg hh, if_neg (show ¬ (m.mmapEntry a).High from fun h => hh h.2)]
  · rw [if_neg ht, if_neg (show ¬ (m.mmapEntry a).High from fun h => ht h.1)]

end Entries

def tagType (m : Mem) (info : Word) (o : Nat) : BitVec 32 := m.get32 (info + BitVec.ofNat 64 o)

def tagSize (m : Mem) (info : Word) (o : Nat) : Nat :=
  (m.get32 (info + BitVec.ofNat 64 o + 4)).toNat

/-- The tags from offset `o` on, at the offsets of the list: end to end, padded to eight bytes,
and closed by the end of the block or by an END tag. -/
inductive Tags (m : Mem) (info : Word) (total : Nat) : Nat → List Nat → Prop where
  | total {o : Nat} (h : total ≤ o) (hw : info.toNat + o < 2 ^ 64) : Tags m info total o []
  | endTag {o : Nat} (h : o + 8 ≤ total) (ht : tagType m info o = multiboot2TagTypeEnd) :
      Tags m info total o []
  | tag {o : Nat} {os : List Nat} (ht : tagType m info o ≠ multiboot2TagTypeEnd)
      (h8 : 8 ≤ tagSize m info o) (h : o + tagSize m info o ≤ total)
      (hs : Tags m info total (o + (tagSize m info o + 7) / 8 * 8) os) :
      Tags m info total o (o :: os)

def mmapEntries (m : Mem) (info : Word) (o k : Nat) : List MmapEntry :=
  (List.range k).map fun i => m.mmapEntry (info + BitVec.ofNat 64 (o + 16 + 24 * i))

/-- A well-formed information block with one memory map, `es`. -/
structure MapBlock (m : Mem) (info : Word) (total : Nat) (es : List MmapEntry) : Prop where
  size : (m.get32 info).toNat = total
  header : 8 ≤ total
  top : info.toNat + total < 2 ^ 64
  tags : ∃ os o k, Tags m info total 8 os ∧
    os.filter (fun o => tagType m info o = multiboot2TagTypeMmap) = [o] ∧
    tagSize m info o = 16 + 24 * k ∧ es = mmapEntries m info o k

/-- How many 24-byte records the loop reads in the tag at offset `o`. -/
def mmapCount (m : Mem) (info : Word) (o : Nat) : Nat := (tagSize m info o - 16 + 23) / 24

def tagEntries (m : Mem) (info : Word) (o : Nat) : List MmapEntry :=
  mmapEntries m info o (mmapCount m info o)

/-- The first `limit` bytes from `info` on do not wrap and can be read. -/
structure BlockRead (w : Word → Option Byte) (m : Mem) (info : Word) (limit : Nat) : Prop where
  top : info.toNat + limit < 2 ^ 64
  reads : Readable w m info limit

section Block

variable {w : Word → Option Byte} {m : Mem} {info n : Word} {total limit o k i : Nat} {os : List Nat}
  {b b₀ : BootState}

theorem BlockRead.window (h : info.toNat + total < 2 ^ 64) :
    BlockRead (m.window info (BitVec.ofNat 64 total)) m info total := by
  have hn : (BitVec.ofNat 64 total).toNat = total := by
    rw [BitVec.toNat_ofNat]
    omega
  exact ⟨h, Inside.readable ⟨by omega, le_rfl, by omega⟩⟩

theorem BlockRead.at (hr : BlockRead w m info limit) {j : Nat} (h : o + j ≤ limit) :
    Readable w m (info + BitVec.ofNat 64 o) j := by
  have := hr.top
  refine hr.reads.field _ ?_
  rw [BitVec.toNat_ofNat]
  omega

theorem BlockRead.loadType (hr : BlockRead w m info limit) (h : o + 4 ≤ limit) :
    load32 w (info + BitVec.ofNat 64 o) = some (tagType m info o) := (hr.at h).load32

theorem BlockRead.loadSize (hr : BlockRead w m info limit) (h : o + 8 ≤ limit) :
    load32 w (info + BitVec.ofNat 64 o + 4) = some (m.get32 (info + BitVec.ofNat 64 o + 4)) :=
  ((hr.at h).field 4 (by decide)).load32

theorem mmapEntries_succ (i : Nat) : mmapEntries m info o (i + 1) =
    mmapEntries m info o i ++ [m.mmapEntry (info + BitVec.ofNat 64 (o + 16 + 24 * i))] := by
  rw [mmapEntries, List.range_succ, List.map_append]
  rfl

theorem length_highZones_le (m : Mem) (info : Word) (o : Nat) {i : Nat} (h : i ≤ k) :
    (highZones (mmapEntries m info o i)).length ≤ (highZones (mmapEntries m info o k)).length := by
  have hs := ((List.range_sublist.mpr h).map
    fun i => m.mmapEntry (info + BitVec.ofNat 64 (o + 16 + 24 * i))).filter (·.High)
  exact (hs.map zone).length_le

theorem length_highZones_mmapEntries (m : Mem) (info : Word) (o i : Nat) :
    (highZones (mmapEntries m info o i)).length ≤ i := by
  rw [highZones, List.length_map]
  refine le_trans (List.length_filter_le _ _) (le_of_eq ?_)
  rw [mmapEntries, List.length_map, List.length_range]

/-- The loop over the entries of the tag at offset `o` has dealt with the first `i`. -/
structure MmapAt (m : Mem) (info : Word) (o : Nat) (b₀ : BootState) (i : Nat) (st : MmapLoop) :
    Prop where
  mmap : st.mmap = info + BitVec.ofNat 64 (o + 16 + 24 * i)
  count : st.count.toNat = (highZones (mmapEntries m info o i)).length
  recorded : (highZones (mmapEntries m info o i)).length ≤ 10 →
    Recorded b₀ (mmapEntries m info o i) st.bst

theorem MmapAt.start (m : Mem) (info : Word) (o : Nat) (b₀ : BootState) :
    MmapAt m info o b₀ 0 ⟨info + BitVec.ofNat 64 o + 16, 0, b₀⟩ := by
  refine ⟨?_, rfl, fun _ => .nil b₀⟩
  rw [BitVec.add_assoc, Nat.mul_zero, Nat.add_zero, BitVec.ofNat_add]
  rfl

theorem MmapAt.lt_iff {st : MmapLoop} (h : MmapAt m info o b₀ i st)
    (htop : info.toNat + (o + 16 + 24 * mmapCount m info o) < 2 ^ 64)
    (hi : i ≤ mmapCount m info o) :
    st.mmap < info + BitVec.ofNat 64 o + (m.get32 (info + BitVec.ofNat 64 o + 4)).setWidth 64 ↔
      i < mmapCount m info o := by
  have hat := toNat_add_ofNat (a := info) (k := o + 16 + 24 * i) (by omega)
  have ho := toNat_add_ofNat (a := info) (k := o) (by omega)
  have hsize : (m.get32 (info + BitVec.ofNat 64 o + 4)).toNat = tagSize m info o := rfl
  have hend : (info + BitVec.ofNat 64 o +
      (m.get32 (info + BitVec.ofNat 64 o + 4)).setWidth 64).toNat =
        (info.toNat + o + tagSize m info o) := by
    rw [BitVec.toNat_add, ho, BitVec.toNat_setWidth, hsize]
    have hlt : tagSize m info o ≤ 16 + 24 * mmapCount m info o := by
      unfold mmapCount
      omega
    omega
  rw [BitVec.lt_def, h.mmap, hat, hend]
  unfold mmapCount
  omega

theorem MmapAt.entry {st : MmapLoop} (h : MmapAt m info o b₀ i st) (hi : i < mmapCount m info o) :
    MmapAt m info o b₀ (i + 1) (st.entry (m.mmapEntry st.mmap)) := by
  have hsize := (m.get32 (info + BitVec.ofNat 64 o + 4)).isLt
  have hlen := length_highZones_mmapEntries m info o i
  have hcount := h.count
  have hrec := h.recorded
  have hmmap : st.mmap + sizeofMmapEntry = info + BitVec.ofNat 64 (o + 16 + 24 * (i + 1)) := by
    rw [h.mmap, BitVec.add_assoc, show sizeofMmapEntry = BitVec.ofNat 64 24 from rfl,
      ← BitVec.ofNat_add]
    rfl
  have hentry : m.mmapEntry st.mmap =
      m.mmapEntry (info + BitVec.ofNat 64 (o + 16 + 24 * i)) := congrArg m.mmapEntry h.mmap
  unfold mmapCount tagSize at hi
  unfold MmapLoop.entry
  by_cases he : (m.mmapEntry st.mmap).High
  · rw [if_pos he]
    rw [hentry] at he ⊢
    refine ⟨hmmap, ?_, fun h10 => ?_⟩
    · rw [mmapEntries_succ, highZones_concat he, List.length_append, List.length_singleton,
        BitVec.toNat_add, hcount, show (1 : BitVec 32).toNat = 1 from rfl]
      omega
    · rw [mmapEntries_succ] at h10 ⊢
      rw [highZones_concat he, List.length_append, List.length_singleton] at h10
      exact (hrec (by omega)).push he hcount (by omega)
  · rw [if_neg he]
    rw [hentry] at he ⊢
    refine ⟨hmmap, ?_, fun h10 => ?_⟩
    · rw [mmapEntries_succ, highZones_concat_of_not he, hcount]
    · rw [mmapEntries_succ] at h10 ⊢
      rw [highZones_concat_of_not he] at h10
      exact (hrec h10).saveLow he

theorem MmapAt.step {st : MmapLoop} (h : MmapAt m info o b₀ i st)
    (ha : Readable w m (info + BitVec.ofNat 64 (o + 16 + 24 * i)) 24)
    (hi : i < mmapCount m info o) :
    ∃ st', mmapBody w st = some st' ∧ MmapAt m info o b₀ (i + 1) st' :=
  ⟨_, mmapBody_eq (h.mmap ▸ ha), h.entry hi⟩

/-- The loop over the entries comes to its end, and records every entry of a memory map that has
no eleventh high one. -/
theorem settles_mmapTag (hr : BlockRead w m info limit)
    (hfit : o + 16 + 24 * mmapCount m info o ≤ limit) (b : BootState) :
    ∃ b', Settles (fun fuel => mmapTag w fuel (info + BitVec.ofNat 64 o) b) b' ∧
      ((highZones (tagEntries m info o)).length ≤ 10 → Recorded b (tagEntries m info o) b') := by
  have htop := hr.top
  have hread := hr.loadSize (o := o) (by omega)
  have hcond : ∀ {i st}, MmapAt m info o b i st → i ≤ mmapCount m info o → _ := fun h hi =>
    h.lt_iff (by omega) hi
  obtain ⟨st, hl, ⟨i, hi, hat⟩, hc⟩ := exists_while
    (fun st => decide (st.mmap < info + BitVec.ofNat 64 o +
      (m.get32 (info + BitVec.ofNat 64 o + 4)).setWidth 64)) (fun _ => mmapBody w)
    (fun st => ∃ i ≤ mmapCount m info o, MmapAt m info o b i st)
    (fun st => info.toNat + (o + 16 + 24 * mmapCount m info o) - st.mmap.toNat)
    (by
      rintro st ⟨i, hi, hat⟩ hc
      have hlt := (hcond hat hi).mp (of_decide_eq_true hc)
      obtain ⟨st', hb, hat'⟩ := hat.step (hr.at (by omega)) hlt
      refine ⟨st', .of_forall fun _ => hb, ⟨i + 1, hlt, hat'⟩, ?_⟩
      have h1 := toNat_add_ofNat (a := info) (k := o + 16 + 24 * i) (by omega)
      have h2 := toNat_add_ofNat (a := info) (k := o + 16 + 24 * (i + 1)) (by omega)
      rw [hat.mmap, hat'.mmap, h1, h2]
      omega)
    ⟨0, Nat.zero_le _, .start m info o b⟩
  obtain rfl : i = mmapCount m info o := by
    have := mt (hcond hat hi).mpr (of_decide_eq_false hc)
    omega
  refine ⟨st.bst, ?_, hat.recorded⟩
  refine (hl.settles.map MmapLoop.bst).congr fun fuel => ?_
  rw [mmapTag, hread, Option.map_eq_bind]
  rfl

/-- What the memory-map tags at the offsets of a list do to `bst`, one after another. -/
inductive MmapTags (w : Word → Option Byte) (info : Word) : List Nat → BootState → BootState → Prop
    where
  | nil (b : BootState) : MmapTags w info [] b b
  | cons {o : Nat} {os : List Nat} {b b₁ b₂ : BootState}
      (h : Settles (fun fuel => mmapTag w fuel (info + BitVec.ofNat 64 o) b) b₁)
      (hs : MmapTags w info os b₁ b₂) : MmapTags w info (o :: os) b b₂

/-- The end of the block, by either end condition. -/
theorem tagPass_end (hr : BlockRead w m info limit) (hn : n.toNat = total) (hle : total ≤ limit)
    (h : total ≤ o ∧ info.toNat + o < 2 ^ 64 ∨
      o + 8 ≤ total ∧ tagType m info o = multiboot2TagTypeEnd) (fuel : Nat) :
    tagPass w fuel (info + n) (info + BitVec.ofNat 64 o, b) =
      some (.stop (info + BitVec.ofNat 64 o, b)) := by
  have htop := hr.top
  have hend : (info + n).toNat = info.toNat + total := by
    rw [BitVec.toNat_add, hn]
    omega
  unfold tagPass
  rcases h with ⟨h, hw⟩ | ⟨h, ht⟩
  · have hge : ¬ info + BitVec.ofNat 64 o < info + n := by
      rw [BitVec.lt_def, hend, toNat_add_ofNat hw]
      omega
    exact if_neg hge
  · have hlt : info + BitVec.ofNat 64 o < info + n := by
      rw [BitVec.lt_def, hend, toNat_add_ofNat (by omega)]
      omega
    have hread := hr.loadType (o := o) (by omega)
    simp only [if_pos hlt, hread, Option.bind_eq_bind, Option.bind_some]
    exact if_pos ht

theorem roundUp_tagSize (m : Mem) (info : Word) (o : Nat) : info + BitVec.ofNat 64 o +
    roundUp ((m.get32 (info + BitVec.ofNat 64 o + 4)).setWidth 64) 8 =
      info + BitVec.ofNat 64 (o + (tagSize m info o + 7) / 8 * 8) := by
  have hr : roundUp ((m.get32 (info + BitVec.ofNat 64 o + 4)).setWidth 64) 8 =
      BitVec.ofNat 64 ((tagSize m info o + 7) / 8 * 8) := by
    apply BitVec.eq_of_toNat_eq
    have hlt := (m.get32 (info + BitVec.ofNat 64 o + 4)).isLt
    rw [roundUp_eight, BitVec.toNat_ofNat, BitVec.toNat_setWidth]
    unfold tagSize
    omega
  rw [hr, BitVec.add_assoc, ← BitVec.ofNat_add]

theorem settles_tagPass (hr : BlockRead w m info limit) (hn : n.toNat = total) (hle : total ≤ limit)
    (ht : tagType m info o ≠ multiboot2TagTypeEnd) (h8 : 8 ≤ tagSize m info o)
    (hfit : o + tagSize m info o ≤ total) {b' : BootState}
    (hb : if tagType m info o = multiboot2TagTypeMmap then
        Settles (fun fuel => mmapTag w fuel (info + BitVec.ofNat 64 o) b) b'
      else b' = b) :
    Settles (fun fuel => tagPass w fuel (info + n) (info + BitVec.ofNat 64 o, b))
      (.next (info + BitVec.ofNat 64 (o + (tagSize m info o + 7) / 8 * 8), b')) := by
  have htop := hr.top
  have hend : (info + n).toNat = info.toNat + total := by
    rw [BitVec.toNat_add, hn]
    omega
  have hlt : info + BitVec.ofNat 64 o < info + n := by
    rw [BitVec.lt_def, hend, toNat_add_ofNat (by omega)]
    omega
  have htype := hr.loadType (o := o) (by omega)
  have hsize := hr.loadSize (o := o) (by omega)
  have hbst : Settles (fun fuel => if tagType m info o = multiboot2TagTypeMmap then
      mmapTag w fuel (info + BitVec.ofNat 64 o) b else some b) b' := by
    split at hb
    · rename_i h
      simpa only [if_pos h] using hb
    · rename_i h
      exact .of_forall fun _ => by rw [if_neg h, hb]
  refine (hbst.map fun b' => Flow.next (info + BitVec.ofNat 64
    (o + (tagSize m info o + 7) / 8 * 8), b')).congr fun fuel => ?_
  unfold tagPass
  simp only [if_pos hlt, htype, hsize, Option.bind_eq_bind, Option.bind_some, Option.map_eq_bind]
  rw [if_neg ht, roundUp_tagSize]
  split <;> rfl

theorem settles_tagPass_mmap (hr : BlockRead w m info limit) (hn : n.toNat = total)
    (hle : total ≤ limit) (hm : tagType m info o = multiboot2TagTypeMmap)
    (h8 : 8 ≤ tagSize m info o) (hfit : o + tagSize m info o ≤ total) {b' : BootState}
    (hb : Settles (fun fuel => mmapTag w fuel (info + BitVec.ofNat 64 o) b) b') :
    Settles (fun fuel => tagPass w fuel (info + n) (info + BitVec.ofNat 64 o, b))
      (.next (info + BitVec.ofNat 64 (o + (tagSize m info o + 7) / 8 * 8), b')) :=
  settles_tagPass hr hn hle (by rw [hm]; decide) h8 hfit (by rwa [if_pos hm])

theorem settles_tagPass_of_ne (hr : BlockRead w m info limit) (hn : n.toNat = total)
    (hle : total ≤ limit) (ht : tagType m info o ≠ multiboot2TagTypeEnd)
    (h8 : 8 ≤ tagSize m info o) (hfit : o + tagSize m info o ≤ total)
    (hm : tagType m info o ≠ multiboot2TagTypeMmap) (b : BootState) :
    Settles (fun fuel => tagPass w fuel (info + n) (info + BitVec.ofNat 64 o, b))
      (.next (info + BitVec.ofNat 64 (o + (tagSize m info o + 7) / 8 * 8), b)) :=
  settles_tagPass hr hn hle ht h8 hfit (by rw [if_neg hm])

/-- The loop over the tags does what the memory-map tags among them do. -/
theorem Tags.loopSettles (hr : BlockRead w m info limit) (hn : n.toNat = total) (hle : total ≤ limit)
    (h : Tags m info total o os) {b b' : BootState}
    (hb : MmapTags w info (os.filter fun o => tagType m info o = multiboot2TagTypeMmap) b b') :
    ∃ tag, LoopSettles (fun fuel => tagPass w fuel (info + n))
      (info + BitVec.ofNat 64 o, b) (tag, b') := by
  induction h generalizing b with
  | total h hw =>
      cases hb
      exact ⟨_, .stop (.of_forall (tagPass_end hr hn hle (.inl ⟨h, hw⟩)))⟩
  | endTag h ht =>
      cases hb
      exact ⟨_, .stop (.of_forall (tagPass_end hr hn hle (.inr ⟨h, ht⟩)))⟩
  | @tag o os ht h8 hfit hs ih =>
      by_cases hm : tagType m info o = multiboot2TagTypeMmap
      · rw [List.filter_cons_of_pos (by simpa using hm)] at hb
        cases hb with
        | cons h1 hb =>
            obtain ⟨tag, hl⟩ := ih hb
            exact ⟨tag, .next (settles_tagPass_mmap hr hn hle hm h8 hfit h1) hl⟩
      · rw [List.filter_cons_of_neg (by simpa using hm)] at hb
        obtain ⟨tag, hl⟩ := ih hb
        exact ⟨tag, .next (settles_tagPass_of_ne hr hn hle ht h8 hfit hm _) hl⟩

theorem Tags.mem_fits (h : Tags m info total o os) {o' : Nat} (ho : o' ∈ os) :
    o' + tagSize m info o' ≤ total := by
  induction h with
  | total => cases ho
  | endTag => cases ho
  | tag _ _ hfit _ ih =>
      rcases List.mem_cons.mp ho with rfl | ho
      · exact hfit
      · exact ih ho

theorem Tags.mem_ge (h : Tags m info total o os) {o' : Nat} (ho : o' ∈ os) : o ≤ o' := by
  induction h with
  | total => cases ho
  | endTag => cases ho
  | tag _ h8 _ _ ih =>
      rcases List.mem_cons.mp ho with rfl | ho
      · exact le_rfl
      · have := ih ho
        omega

/-- The tags are those of a memory with the same bytes outside their contents. -/
theorem Tags.congr {m' : Mem} (h : Tags m info total o os)
    (hs : ∀ x, o ≤ x → x < total → (∀ o' ∈ os, x < o' + 16 ∨ o' + tagSize m info o' ≤ x) →
      m' (info + BitVec.ofNat 64 x) = m (info + BitVec.ofNat 64 x)) : Tags m' info total o os := by
  have hbyte : ∀ x i, m' (info + BitVec.ofNat 64 (x + i)) = m (info + BitVec.ofNat 64 (x + i)) →
      m' (info + BitVec.ofNat 64 x + BitVec.ofNat 64 i) =
        m (info + BitVec.ofNat 64 x + BitVec.ofNat 64 i) := fun x i h => by
    rwa [BitVec.add_assoc, ← BitVec.ofNat_add]
  induction h with
  | total h hw => exact .total h hw
  | @endTag o h ht =>
      refine .endTag h (Eq.trans ?_ ht)
      exact Mem.get32_congr fun i hi => hbyte o i (hs _ (by omega) (by omega) fun o' ho' => by cases ho')
  | @tag o os ht h8 hfit htags ih =>
      have hhead : ∀ i < 8, m' (info + BitVec.ofNat 64 (o + i)) = m (info + BitVec.ofNat 64 (o + i)) := by
        refine fun i hi => hs _ (by omega) (by omega) fun o' ho' => .inl ?_
        rcases List.mem_cons.mp ho' with rfl | ho'
        · omega
        · have := htags.mem_ge ho'
          omega
      have htype : tagType m' info o = tagType m info o :=
        Mem.get32_congr fun i hi => hbyte o i (hhead i (by omega))
      have hsize : tagSize m' info o = tagSize m info o := by
        refine congrArg BitVec.toNat (Mem.get32_congr fun i hi => ?_)
        have := hhead (4 + i) (by omega)
        rwa [← Nat.add_assoc, BitVec.ofNat_add, BitVec.ofNat_add, ← BitVec.add_assoc,
          ← BitVec.add_assoc] at this
      refine .tag (by rwa [htype]) (by rwa [hsize]) (by rwa [hsize]) ?_
      rw [hsize]
      refine ih fun x hx hlt hout => hs x (by omega) hlt fun o' ho' => ?_
      rcases List.mem_cons.mp ho' with rfl | ho'
      · exact .inr (by omega)
      · exact hout o' ho'

/-- What `init_boot_state` does when its memory-map tags take `bst` to `b`. -/
theorem settles_initBootState {mbtInfo : Word} {bst : BootState}
    (hr : BlockRead w m (mbtInfo + kernelVmaBase) limit) (hle : total ≤ limit) (hheader : 4 ≤ limit)
    (hsize : (m.get32 (mbtInfo + kernelVmaBase)).toNat = total)
    (h : Tags m (mbtInfo + kernelVmaBase) total 8 os)
    (hb : MmapTags w (mbtInfo + kernelVmaBase)
      (os.filter fun o => tagType m (mbtInfo + kernelVmaBase) o = multiboot2TagTypeMmap) bst b) :
    Settles (fun fuel => initBootState w fuel mbtInfo bst) (mbtInfo + kernelVmaBase, b) := by
  have hn : ((m.get32 (mbtInfo + kernelVmaBase)).setWidth 64 : Word).toNat = total := by
    rw [BitVec.toNat_setWidth_of_le (by decide), hsize]
  have hread := (hr.reads.start (j := 4) hheader).load32
  obtain ⟨tag, hl⟩ := h.loopSettles hr hn hle hb
  refine (hl.settles.map fun r => (mbtInfo + kernelVmaBase, r.2)).congr fun fuel => ?_
  unfold initBootState
  simp only [hread, Option.bind_eq_bind, Option.bind_some, Option.map_eq_bind]
  rfl

end Block

/-- `init_boot_state` on a well-formed block, with a memory that is readable in the block only:
it terminates and leaves exactly the high regions of the map and the length of low memory. -/
theorem initBootState_parses {m : Mem} {mbtInfo : Word} {total : Nat} {es : List MmapEntry}
    {bst : BootState} (h : MapBlock m (mbtInfo + kernelVmaBase) total es)
    (hbss : bst.numHighZones = 0) (h10 : (highZones es).length ≤ 10) :
    ∃ bst', Settles (fun fuel => initBootState
        (m.window (mbtInfo + kernelVmaBase) (BitVec.ofNat 64 total)) fuel mbtInfo bst)
        (mbtInfo + kernelVmaBase, bst') ∧
      bst'.numHighZones.toNat = (highZones es).length ∧ bst'.regions = highZones es ∧
      bst'.memLower = lowLength es bst.memLower := by
  obtain ⟨hsize, hheader, htop, os, o, k, htags, hone, hk, rfl⟩ := h
  have hread := BlockRead.window (m := m) htop
  have hcount : mmapCount m (mbtInfo + kernelVmaBase) o = k := by
    unfold mmapCount
    omega
  have ho : o ∈ os := (List.mem_filter.mp (hone ▸ List.mem_singleton_self o)).1
  have hfit := htags.mem_fits ho
  rw [← hcount] at h10
  obtain ⟨bst', hb, hr⟩ := settles_mmapTag hread (o := o) (by omega) bst
  replace hr := hr h10
  rw [tagEntries, hcount] at hr
  have hnum : bst'.numHighZones.toNat =
      (highZones (mmapEntries m (mbtInfo + kernelVmaBase) o k)).length := by
    rw [hcount] at h10
    rw [hr.num, hbss, BitVec.toNat_add, show (0 : Word).toNat = 0 from rfl, BitVec.toNat_ofNat]
    omega
  refine ⟨bst', ?_, hnum, ?_, hr.low⟩
  · exact settles_initBootState hread le_rfl (le_trans (by decide) hheader) hsize htags
      (hone ▸ MmapTags.cons hb (.nil bst'))
  · rw [BootState.regions, hnum, hr.zones, List.take_left']
    rfl

/-- A block with a tag of type 4 and a map of low memory, high memory and a reserved region, closed
by its total size. -/
def sampleBlock : List Byte :=
  [112, 0, 0, 0, 0, 0, 0, 0] ++
  [4, 0, 0, 0, 12, 0, 0, 0, 0, 0, 0, 0, 0, 0, 0, 0] ++
  [6, 0, 0, 0, 88, 0, 0, 0, 24, 0, 0, 0, 0, 0, 0, 0] ++
  [0, 0, 0, 0, 0, 0, 0, 0, 0, 0xfc, 9, 0, 0, 0, 0, 0, 1, 0, 0, 0, 0, 0, 0, 0] ++
  [0, 0, 0x10, 0, 0, 0, 0, 0, 0, 0, 0xee, 7, 0, 0, 0, 0, 1, 0, 0, 0, 0, 0, 0, 0] ++
  [0, 0, 0xfe, 7, 0, 0, 0, 0, 0, 0, 2, 0, 0, 0, 0, 0, 2, 0, 0, 0, 0, 0, 0, 0]

/-- The block at physical address 65536, as the kernel sees it. -/
def sampleMemory : Mem := fun a => sampleBlock.getD (a - (65536 + kernelVmaBase)).toNat 0

def sampleMap : List MmapEntry :=
  [⟨0, 0x9fc00, 1⟩, ⟨0x100000, 0x7ee0000, 1⟩, ⟨0x7fe0000, 0x20000, 2⟩]

theorem sampleMemory_block : MapBlock sampleMemory (65536 + kernelVmaBase) 112 sampleMap where
  size := rfl
  header := by decide
  top := by decide
  tags := ⟨[8, 24], 24, 3, .tag (by decide) (by decide) (by decide)
    (.tag (by decide) (by decide) (by decide) (.total (by decide) (by decide))), by decide,
    by decide, by decide⟩

theorem initBootState_parses_sample : ∃ bst', Settles (fun fuel => initBootState
      (sampleMemory.window (65536 + kernelVmaBase) 112) fuel 65536
      ⟨0, Vector.replicate 10 ⟨0, 0⟩, 0⟩) (65536 + kernelVmaBase, bst') ∧
    bst'.numHighZones.toNat = 1 ∧ bst'.regions = [⟨0x100000, 0x7ee0000⟩] ∧
    bst'.memLower = 0x9fc00 :=
  initBootState_parses sampleMemory_block rfl (by decide)

end Rix
