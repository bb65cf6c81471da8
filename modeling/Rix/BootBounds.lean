import Rix.BootMap
import Rix.BootZones

/-!
# Blocks with any number of memory maps

Every memory map starts to fill `mem_high_zones` from index zero, and `num_high_zones`
counts over all of them. The loop reads records of 24 bytes whatever `entry_size` says.
-/
namespace Rix
open Fuel MmapEntry

/-- A well-formed information block with the tags at the offsets `os`, and memory that can be
read up to one record behind it. -/
structure InfoBlock (w : Word → Option Byte) (m : Mem) (info : Word) (total : ℕ) (os : List ℕ) :
    Prop where
  size : (m.get32 info).toNat = total
  tags : Tags m info total 8 os
  read : BlockRead w m info (total + 24)

def mmapTags (m : Mem) (info : Word) (os : List ℕ) : List ℕ :=
  os.filter fun o => tagType m info o = multiboot2TagTypeMmap

def blockEntries (m : Mem) (info : Word) (os : List ℕ) : List (List MmapEntry) :=
  (mmapTags m info os).map (tagEntries m info)

/-- The array after memory maps have been stored to it one after another. -/
def overlay (zones : List PhysZone) : List (List MmapEntry) → List PhysZone
  | [] => zones
  | es :: ess => overlay (highZones es ++ zones.drop (highZones es).length) ess

structure RecordedAll (bst : BootState) (ess : List (List MmapEntry)) (bst' : BootState) : Prop where
  num : bst'.numHighZones = bst.numHighZones + BitVec.ofNat 64 (highZones ess.flatten).length
  zones : bst'.memHighZones.toList = overlay bst.memHighZones.toList ess
  low : bst'.memLower = lowLength ess.flatten bst.memLower

theorem highZones_append (es es' : List MmapEntry) :
    highZones (es ++ es') = highZones es ++ highZones es' := by
  simp [highZones, List.filter_append]

theorem lowLength_append (es es' : List MmapEntry) (u : BitVec 32) :
    lowLength (es ++ es') u = lowLength es' (lowLength es u) := by
  unfold lowLength
  rw [List.filter_append, List.getLast?_append]
  cases (es'.filter (·.addr = 0)).getLast? <;> rfl

theorem RecordedAll.cons {bst b b' : BootState} {es : List MmapEntry} {ess : List (List MmapEntry)}
    (h : Recorded bst es b) (hs : RecordedAll b ess b') : RecordedAll bst (es :: ess) b' := by
  constructor
  · rw [hs.num, h.num, List.flatten_cons, highZones_append, List.length_append, BitVec.ofNat_add,
      BitVec.add_assoc]
  · rw [hs.zones, h.zones, overlay]
  · rw [hs.low, h.low, List.flatten_cons, lowLength_append]

section Maps

variable {w : Word → Option Byte} {m : Mem} {info n : Word} {total limit o : ℕ} {os : List ℕ}
  {b : BootState}

theorem mmapCount_fits (h8 : 8 ≤ tagSize m info o) (hfit : o + tagSize m info o ≤ total) :
    o + 16 + 24 * mmapCount m info o ≤ total + 24 := by
  unfold mmapCount
  omega

theorem Tags.mem_size (h : Tags m info total o os) {o' : ℕ} (ho : o' ∈ os) :
    8 ≤ tagSize m info o' := by
  induction h with
  | total => cases ho
  | endTag => cases ho
  | tag _ h8 _ _ ih =>
      rcases List.mem_cons.mp ho with rfl | ho
      · exact h8
      · exact ih ho

/-- The loops over the entries come to their ends, and memory maps of at most ten high records each
are recorded. -/
theorem exists_mmapTags (hr : BlockRead w m info (total + 24)) (os : List ℕ)
    (hfit : ∀ o ∈ os, 8 ≤ tagSize m info o ∧ o + tagSize m info o ≤ total) (b : BootState) :
    ∃ b', MmapTags w info os b b' ∧
      ((∀ o ∈ os, (highZones (tagEntries m info o)).length ≤ 10) →
        RecordedAll b (os.map (tagEntries m info)) b') := by
  induction os generalizing b with
  | nil => exact ⟨b, .nil b, fun _ => ⟨(BitVec.add_zero _).symm, rfl, rfl⟩⟩
  | cons o os ih =>
      obtain ⟨h8, hle⟩ := hfit o List.mem_cons_self
      obtain ⟨b₁, hb, hrec⟩ := settles_mmapTag hr (mmapCount_fits h8 hle) b
      obtain ⟨b', hbs, hrecs⟩ := ih (fun o' ho => hfit o' (List.mem_cons_of_mem _ ho)) b₁
      exact ⟨b', .cons hb hbs, fun h10 => .cons (hrec (h10 o List.mem_cons_self))
        (hrecs fun o' ho => h10 o' (List.mem_cons_of_mem _ ho))⟩

/-- `init_boot_state` returns on every well-formed block. -/
theorem InfoBlock.exists_run {mbtInfo : Word}
    (h : InfoBlock w m (mbtInfo + kernelVmaBase) total os) (bst : BootState) :
    ∃ bst', Settles (fun fuel => initBootState w fuel mbtInfo bst) (mbtInfo + kernelVmaBase, bst') ∧
      ((∀ o ∈ mmapTags m (mbtInfo + kernelVmaBase) os,
          (highZones (tagEntries m (mbtInfo + kernelVmaBase) o)).length ≤ 10) →
        RecordedAll bst (blockEntries m (mbtInfo + kernelVmaBase) os) bst') := by
  obtain ⟨bst', hb, hrec⟩ := exists_mmapTags h.read (mmapTags m (mbtInfo + kernelVmaBase) os)
    (fun o ho => ⟨h.tags.mem_size (List.mem_filter.mp ho).1, h.tags.mem_fits (List.mem_filter.mp ho).1⟩)
    bst
  exact ⟨bst', settles_initBootState h.read (Nat.le_add_right _ _) (by omega) h.size h.tags hb, hrec⟩

end Maps

def mmapPass (w : Word → Option Byte) (e : Word) (st : MmapLoop) : Option (Flow MmapLoop) :=
  if decide (st.mmap < e) then (mmapBody w st).map Flow.next else some (.stop st)

/-- `(multiboot2_mmap_entry_t *)((uintptr_t)tag + tag->size)` for the tag at offset `o`. -/
def mmapEnd (m : Mem) (info : Word) (o : ℕ) : Word :=
  info + BitVec.ofNat 64 o + (m.get32 (info + BitVec.ofNat 64 o + 4)).setWidth 64

section Passes

variable {w : Word → Option Byte} {m : Mem} {info n : Word} {total limit o i : ℕ} {os : List ℕ}
  {b b₀ : BootState}

theorem MmapAt.visits (hr : BlockRead w m info limit)
    (hfit : o + 16 + 24 * mmapCount m info o ≤ limit) (b : BootState) (hi : i ≤ mmapCount m info o) :
    ∃ st, Visits (fun _ => mmapPass w (mmapEnd m info o)) ⟨info + BitVec.ofNat 64 o + 16, 0, b⟩ st ∧
      MmapAt m info o b i st := by
  have htop := hr.top
  induction i with
  | zero => exact ⟨_, .start, .start m info o b⟩
  | succ i ih =>
      obtain ⟨st, hv, hat⟩ := ih (by omega)
      obtain ⟨st', hb, hat'⟩ := hat.step (hr.at (by omega)) hi
      have hlt : st.mmap < mmapEnd m info o := (hat.lt_iff (by omega) (by omega)).mpr hi
      refine ⟨st', .next hv (.of_forall fun _ => ?_), hat'⟩
      rw [mmapPass, if_pos (decide_eq_true hlt), hb]
      rfl

/-- An eleventh high record is met after ten. -/
theorem exists_eleventh {k : ℕ} (h : 10 < (highZones (mmapEntries m info o k)).length) :
    ∃ i < k, (highZones (mmapEntries m info o i)).length = 10 ∧
      (m.mmapEntry (info + BitVec.ofNat 64 (o + 16 + 24 * i))).High := by
  induction k with
  | zero => exact absurd (show 10 < 0 from h) (by decide)
  | succ k ih =>
      by_cases hk : 10 < (highZones (mmapEntries m info o k)).length
      · obtain ⟨i, hi, h'⟩ := ih hk
        exact ⟨i, by omega, h'⟩
      · rw [mmapEntries_succ] at h
        by_cases he : (m.mmapEntry (info + BitVec.ofNat 64 (o + 16 + 24 * k))).High
        · rw [highZones_concat he, List.length_append, List.length_singleton] at h
          exact ⟨k, Nat.lt_succ_self k, by omega, he⟩
        · rw [highZones_concat_of_not he] at h
          exact absurd h hk

theorem exists_tagPass (hr : BlockRead w m info (total + 24)) (hn : n.toNat = total)
    (ht : tagType m info o ≠ multiboot2TagTypeEnd) (h8 : 8 ≤ tagSize m info o)
    (hfit : o + tagSize m info o ≤ total) (b : BootState) :
    ∃ b', Settles (fun fuel => tagPass w fuel (info + n) (info + BitVec.ofNat 64 o, b))
      (.next (info + BitVec.ofNat 64 (o + (tagSize m info o + 7) / 8 * 8), b')) := by
  by_cases hm : tagType m info o = multiboot2TagTypeMmap
  · obtain ⟨b', hb, -⟩ := settles_mmapTag hr (mmapCount_fits h8 hfit) b
    exact ⟨b', settles_tagPass_mmap hr hn (Nat.le_add_right _ _) hm h8 hfit hb⟩
  · exact ⟨b, settles_tagPass_of_ne hr hn (Nat.le_add_right _ _) ht h8 hfit hm b⟩

theorem Tags.visits (hr : BlockRead w m info (total + 24)) (hn : n.toNat = total)
    (h : Tags m info total o os) (b : BootState) {o' : ℕ} (ho : o' ∈ os) :
    ∃ b', Visits (fun fuel => tagPass w fuel (info + n)) (info + BitVec.ofNat 64 o, b)
      (info + BitVec.ofNat 64 o', b') := by
  induction h generalizing b with
  | total => cases ho
  | endTag => cases ho
  | @tag o os ht h8 hfit hs ih =>
      rcases List.mem_cons.mp ho with rfl | ho
      · exact ⟨b, .start⟩
      · obtain ⟨b₁, hpass⟩ := exists_tagPass hr hn ht h8 hfit b
        obtain ⟨b', hv⟩ := ih b₁ ho
        exact ⟨b', hv.head hpass⟩

theorem Tags.lt_end (hr : BlockRead w m info (total + 24)) (hn : n.toNat = total)
    (h8 : 8 ≤ tagSize m info o) (hfit : o + tagSize m info o ≤ total) :
    info + BitVec.ofNat 64 o < info + n := by
  have htop := hr.top
  rw [BitVec.lt_def, toNat_add_ofNat (by omega), BitVec.toNat_add, hn]
  omega

theorem not_lt_end (hr : BlockRead w m info (total + 24)) (hn : n.toNat = total) (h : total ≤ o)
    (hw : info.toNat + o < 2 ^ 64) : ¬ info + BitVec.ofNat 64 o < info + n := by
  have htop := hr.top
  rw [BitVec.lt_def, toNat_add_ofNat hw, BitVec.toNat_add, hn]
  omega

end Passes

/-- `init_boot_state` stores to `bst.mem_high_zones[idx]`: the loop over the tags makes a pass at a
memory map, and the loop over its entries one at an available entry of high memory. -/
structure StoresAt (w : Word → Option Byte) (mbtInfo : Word) (bst : BootState) (idx : ℕ) : Prop where
  store : ∃ totalSize tag b size st addr,
    load32 w (mbtInfo + kernelVmaBase) = some totalSize ∧
    Visits (fun fuel => tagPass w fuel (mbtInfo + kernelVmaBase + totalSize.setWidth 64))
      (mbtInfo + kernelVmaBase + 8, bst) (tag, b) ∧
    tag < mbtInfo + kernelVmaBase + totalSize.setWidth 64 ∧
    load32 w tag = some multiboot2TagTypeMmap ∧ load32 w (tag + 4) = some size ∧
    Visits (fun _ => mmapPass w (tag + size.setWidth 64)) ⟨tag + 16, 0, b⟩ st ∧
    st.mmap < tag + size.setWidth 64 ∧
    load32 w (st.mmap + 16) = some multiboot2MmapMemoryAvailable ∧
    load64 w st.mmap = some addr ∧ addr ≥ highmemPaddr ∧ idx = st.count.toNat

/-- `pmm_zone_init` reads `bst.mem_high_zones[i]` and writes `phy_zones[i]`. -/
def AccessesAt (zoneList phyZones : Word) (bst : BootState) (s : Pmm) (i : BitVec 32) : Prop :=
  ∃ s', Visits (fun fuel st => if decide (st.1.setWidth 64 < bst.numHighZones) then
      (zoneInitBody zoneList phyZones bst fuel st).map Flow.next else some (.stop st))
    (0, s) (i, s') ∧ i.setWidth 64 < bst.numHighZones

structure AccessesInside (w : Word → Option Byte) (mbtInfo : Word) (bst : BootState) : Prop where
  stores : ∀ idx, StoresAt w mbtInfo bst idx → idx < 10
  zones : ∃ bst', Settles (fun fuel => initBootState w fuel mbtInfo bst)
      (mbtInfo + kernelVmaBase, bst') ∧ bst'.numHighZones.toNat ≤ 10 ∧
    ∀ zoneList phyZones s i, AccessesAt zoneList phyZones bst' s i → i.toNat < 10

section Accesses

variable {w : Word → Option Byte} {m : Mem} {info n mbtInfo : Word} {total limit o i idx : ℕ}
  {os : List ℕ} {b b₀ bst : BootState}

theorem settles_const {α : Type*} {r : Option α} {a : α} (h : Settles (fun _ => r) a) : r = some a := by
  obtain ⟨N, hN⟩ := h
  exact hN N le_rfl

theorem MmapAt.next (hr : BlockRead w m info limit)
    (hfit : o + 16 + 24 * mmapCount m info o ≤ limit) {st st' : MmapLoop}
    (hat : MmapAt m info o b i st) (hi : i ≤ mmapCount m info o)
    (hpass : mmapPass w (mmapEnd m info o) st = some (.next st')) :
    i + 1 ≤ mmapCount m info o ∧ MmapAt m info o b (i + 1) st' := by
  have htop := hr.top
  have hlt : st.mmap < mmapEnd m info o := by
    by_contra hc
    rw [mmapPass, decide_eq_false hc, if_neg Bool.false_ne_true] at hpass
    cases hpass
  have hi' : i < mmapCount m info o := (hat.lt_iff (by omega) hi).mp hlt
  obtain ⟨st'', hb, hat'⟩ := hat.step (hr.at (by omega)) hi'
  rw [mmapPass, if_pos (decide_eq_true hlt), hb, Option.map_some, Option.some.injEq,
    Flow.next.injEq] at hpass
  exact ⟨hi', hpass ▸ hat'⟩

theorem MmapAt.of_visits (hr : BlockRead w m info limit)
    (hfit : o + 16 + 24 * mmapCount m info o ≤ limit) {st : MmapLoop}
    (hv : Visits (fun _ => mmapPass w (mmapEnd m info o)) ⟨info + BitVec.ofNat 64 o + 16, 0, b⟩ st) :
    ∃ i ≤ mmapCount m info o, MmapAt m info o b i st := by
  refine hv.inv (fun st => ∃ i ≤ mmapCount m info o, MmapAt m info o b i st) ?_
    ⟨0, Nat.zero_le _, .start m info o b⟩
  rintro st st' ⟨i, hi, hat⟩ hb
  exact ⟨i + 1, hat.next hr hfit hi (settles_const hb)⟩

/-- A tag that the loop over the tags comes by is a tag of the block, or its end. -/
theorem Tags.of_visits (hr : BlockRead w m info (total + 24)) (hn : n.toNat = total)
    (h : Tags m info total o os) {st : Word × BootState}
    (hv : Visits (fun fuel => tagPass w fuel (info + n)) (info + BitVec.ofNat 64 o, b) st) :
    ∃ o' os', Tags m info total o' os' ∧ st.1 = info + BitVec.ofNat 64 o' ∧ ∀ x ∈ os', x ∈ os := by
  refine hv.inv (fun st => ∃ o' os', Tags m info total o' os' ∧ st.1 = info + BitVec.ofNat 64 o' ∧
    ∀ x ∈ os', x ∈ os) ?_ ⟨o, os, h, rfl, fun _ hx => hx⟩
  rintro ⟨tag, b⟩ ⟨tag', b'⟩ ⟨o', os', ht, rfl, hsub⟩ hpass
  cases ht with
  | total h hw =>
      obtain ⟨N, hN⟩ := hpass
      have := (tagPass_end hr hn (Nat.le_add_right _ _) (.inl ⟨h, hw⟩) N).symm.trans (hN N le_rfl)
      cases this
  | endTag h ht =>
      obtain ⟨N, hN⟩ := hpass
      have := (tagPass_end hr hn (Nat.le_add_right _ _) (.inr ⟨h, ht⟩) N).symm.trans (hN N le_rfl)
      cases this
  | @tag o' os'' hne h8 hfit hs =>
      obtain ⟨b₁, hnext⟩ := exists_tagPass hr hn hne h8 hfit b
      have hsame := hpass.next_eq hnext
      rw [Prod.mk.injEq] at hsame
      exact ⟨_, os'', hs, hsame.1, fun x hx => hsub x (List.mem_cons_of_mem _ hx)⟩

/-- A store goes behind the high records that the memory map has before it. -/
theorem InfoBlock.storesAt (h : InfoBlock w m (mbtInfo + kernelVmaBase) total os)
    (hs : StoresAt w mbtInfo bst idx) : ∃ o ∈ mmapTags m (mbtInfo + kernelVmaBase) os,
      idx < (highZones (tagEntries m (mbtInfo + kernelVmaBase) o)).length := by
  obtain ⟨size, tag, b, tsize, st, addr, hsize, hvt, hlt, htype, htsize, hvm, hmlt, hav, haddr,
    hhigh, rfl⟩ := hs.store
  have hr := h.read
  have htop := hr.top
  have hread := (hr.reads.start (j := 4) (by omega)).load32
  obtain rfl : _ = size := Option.some.inj (hread.symm.trans hsize)
  have hn : ((m.get32 (mbtInfo + kernelVmaBase)).setWidth 64 : Word).toNat = total := by
    rw [BitVec.toNat_setWidth_of_le (by decide), h.size]
  obtain ⟨o, os', ht, rfl, hsub⟩ := h.tags.of_visits hr hn hvt
  cases ht with
  | total hle hw => exact absurd hlt (not_lt_end hr hn hle hw)
  | endTag hfit hend =>
      have := (hr.loadType (o := o) (by omega)).symm.trans htype
      rw [hend] at this
      exact absurd this (by decide)
  | tag hne h8 hfit hs' =>
      have hm : tagType m (mbtInfo + kernelVmaBase) o = multiboot2TagTypeMmap :=
        Option.some.inj ((hr.loadType (by omega)).symm.trans htype)
      have hcount := mmapCount_fits h8 hfit
      obtain rfl : _ = tsize := Option.some.inj ((hr.loadSize (by omega)).symm.trans htsize)
      obtain ⟨i, hi, hat⟩ := MmapAt.of_visits hr hcount hvm
      have hi' : i < mmapCount m (mbtInfo + kernelVmaBase) o := (hat.lt_iff (by omega) hi).mp hmlt
      have hin := hr.at (o := o + 16 + 24 * i) (j := 24) (by omega)
      rw [hat.mmap] at hav haddr
      have he : (m.mmapEntry (mbtInfo + kernelVmaBase + BitVec.ofNat 64 (o + 16 + 24 * i))).High := by
        refine ⟨Option.some.inj (((hin.field (j := 4) 16 (by decide)).load32).symm.trans hav), ?_⟩
        rw [show (m.mmapEntry _).addr = addr from
          Option.some.inj ((hin.start (j := 8) (by decide)).load64.symm.trans haddr)]
        exact hhigh
      refine ⟨o, List.mem_filter.mpr ⟨hsub o List.mem_cons_self, by simpa using hm⟩, ?_⟩
      rw [hat.count]
      refine lt_of_lt_of_le ?_ (length_highZones_le m _ o hi')
      rw [mmapEntries_succ, highZones_concat he, List.length_append, List.length_singleton]
      exact Nat.lt_succ_self _

/-- The eleventh high record of a memory map goes behind the array. -/
theorem InfoBlock.storesAt_ten (h : InfoBlock w m (mbtInfo + kernelVmaBase) total os)
    (ho : o ∈ mmapTags m (mbtInfo + kernelVmaBase) os)
    (h10 : 10 < (highZones (tagEntries m (mbtInfo + kernelVmaBase) o)).length) :
    StoresAt w mbtInfo bst 10 := by
  have hr := h.read
  have htop := hr.top
  have hn : ((m.get32 (mbtInfo + kernelVmaBase)).setWidth 64 : Word).toNat = total := by
    rw [BitVec.toNat_setWidth_of_le (by decide), h.size]
  obtain ⟨ho, hmap⟩ := List.mem_filter.mp ho
  have hm : tagType m (mbtInfo + kernelVmaBase) o = multiboot2TagTypeMmap := by simpa using hmap
  have h8 := h.tags.mem_size ho
  have hfit := h.tags.mem_fits ho
  have hcount := mmapCount_fits h8 hfit
  obtain ⟨b, hv⟩ := h.tags.visits hr hn bst ho
  have htype : load32 w (mbtInfo + kernelVmaBase + BitVec.ofNat 64 o) = some multiboot2TagTypeMmap :=
    (hr.loadType (by omega)).trans (congrArg some hm)
  obtain ⟨i, hi, hten, he⟩ := exists_eleventh h10
  obtain ⟨st, hvm, hat⟩ := MmapAt.visits hr hcount b (le_of_lt hi)
  have hin := hr.at (o := o + 16 + 24 * i) (j := 24) (by omega)
  rw [← hat.mmap] at hin he
  exact ⟨_, _, b, _, st, _, (hr.reads.start (j := 4) (by omega)).load32, hv,
    Tags.lt_end hr hn h8 hfit, htype,
    hr.loadSize (by omega), hvm,
    (hat.lt_iff (by omega) (le_of_lt hi)).mpr hi,
    ((hin.field (j := 4) 16 (by decide)).load32).trans (congrArg some he.1),
    (hin.start (j := 8) (by decide)).load64, he.2, by rw [hat.count, hten]⟩

end Accesses

section Bounds

variable {w : Word → Option Byte} {m : Mem} {info mbtInfo : Word} {total o : ℕ} {os : List ℕ}
  {bst : BootState}

theorem Tags.length_entries (h : Tags m info total o os) :
    (blockEntries m info os).flatten.length ≤ total - o := by
  induction h with
  | total => exact Nat.zero_le _
  | endTag => exact Nat.zero_le _
  | @tag o os _ h8 hfit _ ih =>
      unfold blockEntries mmapTags at ih ⊢
      by_cases hm : tagType m info o = multiboot2TagTypeMmap
      · rw [List.filter_cons_of_pos (by simpa using hm), List.map_cons, List.flatten_cons,
          List.length_append]
        have hlen : (tagEntries m info o).length = mmapCount m info o := by
          simp [tagEntries, mmapEntries]
        have hcount : mmapCount m info o ≤ tagSize m info o := by
          unfold mmapCount
          omega
        omega
      · rw [List.filter_cons_of_neg (by simpa using hm)]
        omega

theorem length_highZones_le_length (es : List MmapEntry) : (highZones es).length ≤ es.length := by
  rw [highZones, List.length_map]
  exact List.length_filter_le _ _

theorem length_tagEntries_le (ho : o ∈ mmapTags m info os) : (highZones (tagEntries m info o)).length ≤
    (highZones (blockEntries m info os).flatten).length := by
  have hs := (List.sublist_flatten_of_mem (List.mem_map_of_mem (f := tagEntries m info) ho)).filter
    fun e => decide e.High
  exact (hs.map zone).length_le

theorem InfoBlock.numHighZones {bst' : BootState}
    (h : InfoBlock w m info total os) (hbss : bst.numHighZones = 0)
    (hrec : RecordedAll bst (blockEntries m info os) bst') :
    bst'.numHighZones.toNat = (highZones (blockEntries m info os).flatten).length := by
  have h1 := h.tags.length_entries
  have h2 := length_highZones_le_length (blockEntries m info os).flatten
  have h3 := h.read.top
  rw [hrec.num, hbss, BitVec.toNat_add, show (0 : Word).toNat = 0 from rfl, BitVec.toNat_ofNat]
  omega

/-- The arrays are accessed inside their ten elements when, and only when, the memory maps have
at most ten high records in all. -/
theorem accessesInside_iff (h : InfoBlock w m (mbtInfo + kernelVmaBase) total os)
    (hbss : bst.numHighZones = 0) : AccessesInside w mbtInfo bst ↔
      (highZones (blockEntries m (mbtInfo + kernelVmaBase) os).flatten).length ≤ 10 := by
  constructor
  · rintro ⟨hstores, bst', hrun, hnum, -⟩
    have h10 : ∀ o ∈ mmapTags m (mbtInfo + kernelVmaBase) os,
        (highZones (tagEntries m (mbtInfo + kernelVmaBase) o)).length ≤ 10 := by
      intro o ho
      by_contra hc
      exact absurd (hstores 10 (h.storesAt_ten ho (Nat.lt_of_not_le hc))) (lt_irrefl 10)
    obtain ⟨bst₁, hrun₁, hrec⟩ := h.exists_run bst
    obtain rfl : bst₁ = bst' := congrArg Prod.snd (hrun₁.unique hrun)
    rwa [h.numHighZones hbss (hrec h10)] at hnum
  · intro h10
    obtain ⟨bst', hrun, hrec⟩ := h.exists_run bst
    replace hrec := hrec fun o ho => le_trans (length_tagEntries_le ho) h10
    have hnum : bst'.numHighZones.toNat ≤ 10 := by rwa [h.numHighZones hbss hrec]
    refine ⟨fun idx hs => ?_, bst', hrun, hnum, ?_⟩
    · obtain ⟨o, ho, hlt⟩ := h.storesAt hs
      exact lt_of_lt_of_le hlt (le_trans (length_tagEntries_le ho) h10)
    · rintro zoneList phyZones s i ⟨s', -, hlt⟩
      rw [BitVec.lt_def, BitVec.toNat_setWidth] at hlt
      have := i.isLt
      omega

end Bounds

theorem sampleMemory_infoBlock :
    InfoBlock (fun a => some (sampleMemory a)) sampleMemory (65536 + kernelVmaBase) 112 [8, 24] :=
  ⟨by decide +kernel, .tag (by decide +kernel) (by decide +kernel) (by decide +kernel)
    (.tag (by decide +kernel) (by decide +kernel) (by decide +kernel)
      (.total (by decide +kernel) (by decide +kernel))), ⟨by decide +kernel, readable_total _ _ _⟩⟩

theorem accessesInside_iff_sample : AccessesInside (fun a => some (sampleMemory a)) 65536
    ⟨0, Vector.replicate 10 ⟨0, 0⟩, 0⟩ :=
  (accessesInside_iff sampleMemory_infoBlock rfl).mpr (by decide +kernel)

/-- One memory map of eleven available regions at 1 MiB, 288 bytes in all. -/
def elevenRegions : List Byte :=
  [0x20, 1, 0, 0, 0, 0, 0, 0] ++ [6, 0, 0, 0, 0x18, 1, 0, 0, 24, 0, 0, 0, 0, 0, 0, 0] ++
  (List.replicate 11 [0, 0, 0x10, 0, 0, 0, 0, 0, 0, 0x10, 0, 0, 0, 0, 0, 0, 1, 0, 0, 0, 0, 0, 0, 0]).flatten

def elevenMemory : Mem := fun a => elevenRegions.getD (a - (65536 + kernelVmaBase)).toNat 0

theorem elevenMemory_block :
    InfoBlock (fun a => some (elevenMemory a)) elevenMemory (65536 + kernelVmaBase) 288 [8] :=
  ⟨by decide +kernel, .tag (by decide +kernel) (by decide +kernel) (by decide +kernel)
    (.total (by decide +kernel) (by decide +kernel)), ⟨by decide +kernel, readable_total _ _ _⟩⟩

/-- The eleventh region is stored behind the array. -/
theorem eleventh_region_outside : ¬ ∀ (w : Word → Option Byte) (m : Mem) (mbtInfo : Word) (total : ℕ)
    (os : List ℕ) (bst : BootState), InfoBlock w m (mbtInfo + kernelVmaBase) total os →
    bst.numHighZones = 0 → AccessesInside w mbtInfo bst := by
  intro hall
  have hinside := hall _ _ 65536 _ _ ⟨0, Vector.replicate 10 ⟨0, 0⟩, 0⟩ elevenMemory_block rfl
  have hmap : 8 ∈ mmapTags elevenMemory (65536 + kernelVmaBase) [8] := by decide +kernel
  have hinside10 := hinside.stores 10 (elevenMemory_block.storesAt_ten hmap (by decide +kernel))
  exact absurd hinside10 (by decide)

end Rix
