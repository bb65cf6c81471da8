import Rix.BootLayout

/-!
# A memory map written out

Every list of entries is described by a block with one memory map, with 24 bytes for
each.
-/
namespace Rix
open MmapEntry

theorem Mem.get64_of_bytes {m : Mem} {a v : Word}
    (h : ∀ i < 8, m (a + BitVec.ofNat 64 i) = v.extractLsb' (8 * i) 8) : m.get64 a = v := by
  have hset : m.get64 a = (m.set64 a v).get64 a := Mem.get64_congr fun i hi => by
    rw [h i hi, Mem.set64_apply, toNat_add_ofNat_sub a (by omega), if_pos hi]
  exact hset.trans (Mem.get64_set64_self m a v)

theorem Mem.get32_eq_low (m : Mem) (a : Word) : m.get32 a = (m.get64 a).setWidth 32 :=
  BitVec.setWidth_append_eq_right.symm

theorem Mem.get32_eq_high (m : Mem) (a : Word) : m.get32 (a + 4) = (m.get64 a).extractLsb' 32 32 :=
  BitVec.extractLsb'_append_eq_left.symm

def wordMemory (base : Word) (f : ℕ → Word) : Mem := fun a =>
  (f ((a - base).toNat / 8)).extractLsb' (8 * ((a - base).toNat % 8)) 8

theorem wordMemory_byte (base : Word) (f : ℕ → Word) {o i : ℕ} (ho : o % 8 = 0) (hlt : o + 8 ≤ 2 ^ 64)
    (hi : i < 8) : wordMemory base f (base + BitVec.ofNat 64 o + BitVec.ofNat 64 i) =
      (f (o / 8)).extractLsb' (8 * i) 8 := by
  rw [BitVec.add_assoc, ← BitVec.ofNat_add, wordMemory, toNat_add_ofNat_sub base (by omega),
    show (o + i) / 8 = o / 8 by omega, show (o + i) % 8 = i by omega]

theorem get64_wordMemory (base : Word) (f : ℕ → Word) {o : ℕ} (ho : o % 8 = 0) (hlt : o + 8 ≤ 2 ^ 64) :
    (wordMemory base f).get64 (base + BitVec.ofNat 64 o) = f (o / 8) :=
  Mem.get64_of_bytes fun _ hi => wordMemory_byte base f ho hlt hi

/-- The words of a block with the one memory map `es`. -/
def mapWord (es : List MmapEntry) : ℕ → Word
  | 0 => BitVec.ofNat 64 (24 + 24 * es.length)
  | 1 => BitVec.ofNat 32 (16 + 24 * es.length) ++ multiboot2TagTypeMmap
  | 2 => 24
  | k + 3 => match es[k / 3]? with
    | none => 0
    | some e => if k % 3 = 0 then e.addr else if k % 3 = 1 then e.len else e.type.setWidth 64

section Block

variable {info : Word} {es : List MmapEntry}

theorem mapWord_entry {i : ℕ} (hi : i < es.length) : mapWord es (3 + 3 * i) = es[i].addr ∧
    mapWord es (3 + 3 * i + 1) = es[i].len ∧ mapWord es (3 + 3 * i + 2) = es[i].type.setWidth 64 := by
  have hget : es[i]? = some es[i] := List.getElem?_eq_getElem hi
  refine ⟨?_, ?_, ?_⟩
  · rw [show 3 + 3 * i = 3 * i + 3 by omega, mapWord, show 3 * i / 3 = i by omega, hget]
    exact if_pos (by omega)
  · rw [show 3 + 3 * i + 1 = 3 * i + 1 + 3 by omega, mapWord, show (3 * i + 1) / 3 = i by omega, hget]
    exact (if_neg (by omega)).trans (if_pos (by omega))
  · rw [show 3 + 3 * i + 2 = 3 * i + 2 + 3 by omega, mapWord, show (3 * i + 2) / 3 = i by omega, hget]
    exact (if_neg (by omega)).trans (if_neg (by omega))

theorem mmapEntry_wordMemory {i : ℕ} (hi : i < es.length) (hlen : 24 + 24 * es.length < 2 ^ 32) :
    (wordMemory info (mapWord es)).mmapEntry (info + BitVec.ofNat 64 (8 + 16 + 24 * i)) = es[i] := by
  obtain ⟨haddr, hlen', htype⟩ := mapWord_entry hi
  have hword : ∀ d < 3, (wordMemory info (mapWord es)).get64
      (info + BitVec.ofNat 64 (8 + 16 + 24 * i) + BitVec.ofNat 64 (8 * d)) =
        mapWord es (3 + 3 * i + d) := fun d hd => by
    rw [BitVec.add_assoc, ← BitVec.ofNat_add, get64_wordMemory info _ (by omega) (by omega),
      show (8 + 16 + 24 * i + 8 * d) / 8 = 3 + 3 * i + d by omega]
  have h0 := (hword 0 (by decide)).trans haddr
  have h1 := (hword 1 (by decide)).trans hlen'
  have h2 := (hword 2 (by decide)).trans htype
  rw [Nat.mul_zero, BitVec.add_zero] at h0
  rw [Mem.mmapEntry, h0]
  have htype' : (wordMemory info (mapWord es)).get32
      (info + BitVec.ofNat 64 (8 + 16 + 24 * i) + 16) = es[i].type := by
    rw [Mem.get32_eq_low]
    refine (congrArg (BitVec.setWidth 32) h2).trans ?_
    rw [BitVec.setWidth_setWidth_of_le _ (by decide), BitVec.setWidth_eq]
  rw [htype']
  exact congrArg (fun len => (⟨es[i].addr, len, es[i].type⟩ : MmapEntry)) h1

theorem get64_header {k : ℕ} (hk : k < 3) :
    (wordMemory info (mapWord es)).get64 (info + BitVec.ofNat 64 (8 * k)) = mapWord es k := by
  rw [get64_wordMemory info _ (by omega) (by omega), Nat.mul_div_cancel_left k (by decide)]

theorem totalSize_wordMemory (hlen : 24 + 24 * es.length < 2 ^ 32) :
    ((wordMemory info (mapWord es)).get32 info).toNat = 24 + 24 * es.length := by
  have h0 := @get64_header info es 0 (by decide)
  rw [Nat.mul_zero, BitVec.add_zero] at h0
  rw [Mem.get32_eq_low, h0, mapWord, BitVec.toNat_setWidth, BitVec.toNat_ofNat]
  omega

theorem tagType_wordMemory :
    tagType (wordMemory info (mapWord es)) info 8 = multiboot2TagTypeMmap := by
  rw [tagType, Mem.get32_eq_low, get64_header (k := 1) (by decide), mapWord]
  exact BitVec.setWidth_append_eq_right

theorem tagSize_wordMemory (hlen : 24 + 24 * es.length < 2 ^ 32) :
    tagSize (wordMemory info (mapWord es)) info 8 = 16 + 24 * es.length := by
  rw [tagSize, Mem.get32_eq_high, get64_header (k := 1) (by decide), mapWord,
    BitVec.extractLsb'_append_eq_left, BitVec.toNat_ofNat]
  omega

theorem tagEntrySize_wordMemory : tagEntrySize (wordMemory info (mapWord es)) info 8 = 24 := by
  rw [tagEntrySize, Mem.get32_eq_low, BitVec.add_assoc]
  exact congrArg (fun v : Word => (v.setWidth 32).toNat) (get64_header (k := 2) (by decide))

theorem mmapTags_wordMemory : mmapTags (wordMemory info (mapWord es)) info [8] = [8] :=
  List.filter_cons_of_pos (by simpa using tagType_wordMemory)

theorem infoBlock_wordMemory (hlen : 24 + 24 * es.length < 2 ^ 32)
    (htop : info.toNat + (24 + 24 * es.length + 24) < 2 ^ 64) :
    InfoBlock (fun a => some (wordMemory info (mapWord es) a)) (wordMemory info (mapWord es)) info
      (24 + 24 * es.length) [8] := by
  have htag := @tagSize_wordMemory info es hlen
  refine ⟨totalSize_wordMemory hlen, ?_, ⟨htop, readable_total _ _ _⟩⟩
  refine .tag (by rw [tagType_wordMemory]; decide) (by omega) (by omega) (.total ?_ ?_)
  · omega
  · omega

theorem describes_wordMemory (hlen : 24 + 24 * es.length < 2 ^ 32) :
    Describes (wordMemory info (mapWord es)) info [8] es := by
  have htag := @tagSize_wordMemory info es hlen
  refine ⟨fun o ho => ?_, fun o ho => ?_, ?_⟩
  · rw [mmapTags_wordMemory, List.mem_singleton] at ho
    rw [ho, tagEntrySize_wordMemory]
    decide
  · rw [mmapTags_wordMemory, List.mem_singleton] at ho
    exact ⟨es.length, by rw [ho, htag, tagEntrySize_wordMemory]⟩
  · rw [mmapTags_wordMemory, List.flatMap_singleton, describedEntries, htag, tagEntrySize_wordMemory]
    refine List.ext_getElem ?_ fun i _ hi => ?_
    · rw [List.length_map, List.length_range]
      omega
    · rw [List.getElem_map, List.getElem_range]
      exact mmapEntry_wordMemory hi hlen

end Block

/-- Every map that fits a block can be written as one tag. -/
theorem singleMap_wordMemory {mbtInfo : Word} {es : List MmapEntry}
    (hlen : 24 + 24 * es.length < 2 ^ 32)
    (htop : (mbtInfo + kernelVmaBase).toNat + (24 + 24 * es.length + 24) < 2 ^ 64) :
    SingleMap (fun a => some (wordMemory (mbtInfo + kernelVmaBase) (mapWord es) a))
      (wordMemory (mbtInfo + kernelVmaBase) (mapWord es)) mbtInfo es :=
  ⟨_, [8], 8, infoBlock_wordMemory hlen htop, describes_wordMemory hlen, mmapTags_wordMemory,
    tagEntrySize_wordMemory⟩

end Rix
