import Rix.BootBounds

/-!
# One memory map in several layouts

The format carries the size of an entry and may hold the map in several tags. The loop
knows neither: it steps by 24 bytes, and begins each tag at the start of the array.
-/
namespace Rix
open Fuel MmapEntry

def tagEntrySize (m : Mem) (info : Word) (o : ℕ) : ℕ :=
  (m.get32 (info + BitVec.ofNat 64 o + 8)).toNat

def describedEntries (m : Mem) (info : Word) (o : ℕ) : List MmapEntry :=
  (List.range ((tagSize m info o - 16) / tagEntrySize m info o)).map fun i =>
    m.mmapEntry (info + BitVec.ofNat 64 (o + 16 + tagEntrySize m info o * i))

/-- The memory maps among the tags are well formed and describe the entries `es`. -/
structure Describes (m : Mem) (info : Word) (os : List ℕ) (es : List MmapEntry) : Prop where
  stride : ∀ o ∈ mmapTags m info os, 24 ≤ tagEntrySize m info o ∧ tagEntrySize m info o % 8 = 0
  whole : ∀ o ∈ mmapTags m info os, ∃ k, tagSize m info o = 16 + tagEntrySize m info o * k
  entries : (mmapTags m info os).flatMap (describedEntries m info) = es

def bssState : BootState := ⟨0, Vector.replicate 10 ⟨0, 0⟩, 0⟩

/-- `init_boot_state` leaves the same state for both blocks. -/
def SameState (w₁ : Word → Option Byte) (mbtInfo₁ : Word) (w₂ : Word → Option Byte)
    (mbtInfo₂ : Word) : Prop :=
  ∃ b₁ b₂, Settles (fun fuel => initBootState w₁ fuel mbtInfo₁ bssState)
      (mbtInfo₁ + kernelVmaBase, b₁) ∧
    Settles (fun fuel => initBootState w₂ fuel mbtInfo₂ bssState) (mbtInfo₂ + kernelVmaBase, b₂) ∧
    b₂.numHighZones = b₁.numHighZones ∧ b₂.regions = b₁.regions ∧ b₂.memLower = b₁.memLower

def highTags (m : Mem) (info : Word) (os : List ℕ) : List ℕ :=
  (mmapTags m info os).filter fun o => highZones (describedEntries m info o) ≠ []

/-- The memory maps that have entries declare 24 bytes for them. -/
def EntriesOf24 (m : Mem) (info : Word) (os : List ℕ) : Prop :=
  ∀ o ∈ mmapTags m info os, 16 < tagSize m info o → tagEntrySize m info o = 24

/-- A block that describes the entries `es` in one memory map, with 24 bytes for each. -/
structure SingleMap (w : Word → Option Byte) (m : Mem) (mbtInfo : Word) (es : List MmapEntry) :
    Prop where
  block : ∃ total os o, InfoBlock w m (mbtInfo + kernelVmaBase) total os ∧
    Describes m (mbtInfo + kernelVmaBase) os es ∧
    mmapTags m (mbtInfo + kernelVmaBase) os = [o] ∧
    tagEntrySize m (mbtInfo + kernelVmaBase) o = 24

section Overlay

variable {zones : List PhysZone} {ess : List (List MmapEntry)} {p : ℕ}

theorem overlay_of_nil (h : ∀ es ∈ ess, highZones es = []) : overlay zones ess = zones := by
  induction ess generalizing zones with
  | nil => rfl
  | cons es ess ih =>
      rw [overlay, h es List.mem_cons_self, List.length_nil, List.drop_zero, List.nil_append]
      exact ih fun es' hes => h es' (List.mem_cons_of_mem _ hes)

theorem highZones_flatten_of_nil (h : ∀ es ∈ ess, highZones es = []) :
    highZones ess.flatten = [] := by
  induction ess with
  | nil => rfl
  | cons es ess ih =>
      rw [List.flatten_cons, highZones_append, h es List.mem_cons_self, List.nil_append]
      exact ih fun es' hes => h es' (List.mem_cons_of_mem _ hes)

/-- Maps of which one has high records at most are stored like one map. -/
theorem overlay_single (h : (ess.filter fun es => highZones es ≠ []).length ≤ 1) :
    overlay zones ess =
      highZones ess.flatten ++ zones.drop (highZones ess.flatten).length := by
  induction ess generalizing zones with
  | nil => rfl
  | cons es ess ih =>
      rw [overlay, List.flatten_cons, highZones_append]
      by_cases hes : highZones es = []
      · rw [List.filter_cons_of_neg (by simpa using hes)] at h
        rw [hes, List.length_nil, List.drop_zero, List.nil_append, List.nil_append]
        exact ih h
      · rw [List.filter_cons_of_pos (by simpa using hes), List.length_cons] at h
        have hnil : ∀ es' ∈ ess, highZones es' = [] := by
          intro es' hes'
          by_contra hc
          have hmem : es' ∈ ess.filter fun es => highZones es ≠ [] :=
            List.mem_filter.mpr ⟨hes', by simpa using hc⟩
          have := List.length_pos_of_mem hmem
          omega
        rw [overlay_of_nil hnil, highZones_flatten_of_nil hnil, List.append_nil]

/-- Behind the longest map the array is as it was. -/
theorem drop_overlay (h : ∀ es ∈ ess, (highZones es).length ≤ p) :
    (overlay zones ess).drop p = zones.drop p := by
  induction ess generalizing zones with
  | nil => rfl
  | cons es ess ih =>
      have hle := h es List.mem_cons_self
      rw [overlay, ih fun es' hes => h es' (List.mem_cons_of_mem _ hes), List.drop_append,
        List.drop_of_length_le hle, List.nil_append, List.drop_drop]
      congr 1
      omega

theorem length_flatten_of_mem {es : List MmapEntry} (h : es ∈ ess) :
    (highZones es).length ≤ (highZones ess.flatten).length := by
  have hs := (List.sublist_flatten_of_mem h).filter fun e => decide e.High
  exact (hs.map zone).length_le

theorem length_lt_of_two (h : 2 ≤ (ess.filter fun es => highZones es ≠ []).length)
    {es : List MmapEntry} (hes : es ∈ ess) :
    (highZones es).length < (highZones ess.flatten).length := by
  induction ess with
  | nil => cases hes
  | cons es₀ ess ih =>
      rw [List.flatten_cons, highZones_append, List.length_append]
      by_cases h0 : highZones es₀ = []
      · rw [List.filter_cons_of_neg (by simpa using h0)] at h
        rcases List.mem_cons.mp hes with rfl | hes
        · obtain ⟨es', hes'⟩ := List.exists_mem_of_length_pos
            (show 0 < (ess.filter fun es => highZones es ≠ []).length by omega)
          obtain ⟨hmem, hne⟩ := List.mem_filter.mp hes'
          have hpos := List.length_pos_iff.mpr (show highZones es' ≠ [] by simpa using hne)
          have := length_flatten_of_mem hmem
          rw [h0, List.length_nil]
          omega
        · rw [h0, List.length_nil, Nat.zero_add]
          exact ih h hes
      · rw [List.filter_cons_of_pos (by simpa using h0), List.length_cons] at h
        have hpos := List.length_pos_iff.mpr h0
        rcases List.mem_cons.mp hes with rfl | hes
        · obtain ⟨es', hes'⟩ := List.exists_mem_of_length_pos
            (show 0 < (ess.filter fun es => highZones es ≠ []).length by omega)
          obtain ⟨hmem, hne⟩ := List.mem_filter.mp hes'
          have hpos' := List.length_pos_iff.mpr (show highZones es' ≠ [] by simpa using hne)
          have := length_flatten_of_mem hmem
          omega
        · have := length_flatten_of_mem hes
          omega

end Overlay

section Layouts

variable {w : Word → Option Byte} {m : Mem} {info : Word} {total o : ℕ} {os : List ℕ}
  {es : List MmapEntry} {b : BootState}

/-- With entries of 24 bytes the loop reads the entries that are described. -/
theorem tagEntries_eq (h24 : 16 < tagSize m info o → tagEntrySize m info o = 24) {k : ℕ}
    (hk : tagSize m info o = 16 + tagEntrySize m info o * k) :
    tagEntries m info o = describedEntries m info o := by
  by_cases h : 16 < tagSize m info o
  · rw [h24 h] at hk
    have h1 : mmapCount m info o = k := by
      unfold mmapCount
      omega
    have h2 : (tagSize m info o - 16) / 24 = k := by omega
    rw [tagEntries, h1, describedEntries, h24 h, h2, mmapEntries]
  · have h0 : tagSize m info o - 16 = 0 := by omega
    rw [tagEntries, mmapCount, describedEntries, h0, Nat.zero_div, show (0 + 23) / 24 = 0 by decide,
      mmapEntries, List.range_zero, List.map_nil, List.map_nil]

theorem Describes.map_eq (hd : Describes m info os es) (h24 : EntriesOf24 m info os) :
    blockEntries m info os = (mmapTags m info os).map (describedEntries m info) :=
  List.map_congr_left fun o ho => by
    obtain ⟨k, hk⟩ := hd.whole o ho
    exact tagEntries_eq (h24 o ho) hk

theorem Describes.flatten_eq (hd : Describes m info os es) (h24 : EntriesOf24 m info os) :
    (blockEntries m info os).flatten = es := by
  rw [hd.map_eq h24, ← List.flatMap_def, hd.entries]

theorem length_highTags (hd : Describes m info os es) (h24 : EntriesOf24 m info os) :
    (highTags m info os).length =
      ((blockEntries m info os).filter fun es => highZones es ≠ []).length := by
  rw [hd.map_eq h24, highTags]
  induction mmapTags m info os with
  | nil => rfl
  | cons o os ih =>
      rw [List.map_cons]
      by_cases ho : highZones (describedEntries m info o) = []
      · rw [List.filter_cons_of_neg (by simpa using ho), List.filter_cons_of_neg (by simpa using ho), ih]
      · rw [List.filter_cons_of_pos (by simpa using ho), List.filter_cons_of_pos (by simpa using ho),
          List.length_cons, List.length_cons, ih]

theorem InfoBlock.run_bss {mbtInfo : Word}
    (h : InfoBlock w m (mbtInfo + kernelVmaBase) total os)
    (h10 : (highZones (blockEntries m (mbtInfo + kernelVmaBase) os).flatten).length ≤ 10) :
    ∃ b, Settles (fun fuel => initBootState w fuel mbtInfo bssState) (mbtInfo + kernelVmaBase, b) ∧
      RecordedAll bssState (blockEntries m (mbtInfo + kernelVmaBase) os) b := by
  obtain ⟨b, hrun, hrec⟩ := h.exists_run bssState
  exact ⟨b, hrun, hrec fun o ho => le_trans (length_tagEntries_le ho) h10⟩

theorem InfoBlock.regions_single (h : InfoBlock w m info total os)
    (hrec : RecordedAll bssState (blockEntries m info os) b)
    (h1 : ((blockEntries m info os).filter fun es => highZones es ≠ []).length ≤ 1) :
    b.regions = highZones (blockEntries m info os).flatten := by
  rw [BootState.regions, h.numHighZones rfl hrec, hrec.zones, overlay_single h1, List.take_left']
  rfl

/-- The last region when two maps have high records: nothing was stored there. -/
theorem InfoBlock.regions_split (h : InfoBlock w m info total os)
    (hrec : RecordedAll bssState (blockEntries m info os) b)
    (h2 : 2 ≤ ((blockEntries m info os).filter fun es => highZones es ≠ []).length)
    {l : ℕ} (hl : (highZones (blockEntries m info os).flatten).length = l + 1) :
    ∀ z, b.regions[l]? = some z → z = ⟨0, 0⟩ := by
  intro z hz
  have hdrop : (overlay bssState.memHighZones.toList (blockEntries m info os)).drop l =
      bssState.memHighZones.toList.drop l := drop_overlay fun es hes => by
    have := length_lt_of_two h2 hes
    omega
  rw [BootState.regions, h.numHighZones rfl hrec, hrec.zones, List.getElem?_take_of_lt (by omega)] at hz
  have hget : (bssState.memHighZones.toList.drop l)[0]? = some z := by
    rw [← hdrop, List.getElem?_drop, Nat.add_zero, hz]
  rw [List.getElem?_drop] at hget
  have hmem := List.mem_of_getElem? hget
  simpa [bssState] using hmem

theorem base_of_mem_highZones {z : PhysZone} (h : z ∈ highZones es) : highmemPaddr ≤ z.base := by
  obtain ⟨e, he, rfl⟩ := List.mem_map.mp h
  have := (List.mem_filter.mp he).2
  exact (of_decide_eq_true this).2

theorem InfoBlock.filter_le_one (h : InfoBlock w m info total os)
    (hrec : RecordedAll bssState (blockEntries m info os) b)
    (hregions : b.regions = highZones (blockEntries m info os).flatten) :
    ((blockEntries m info os).filter fun es => highZones es ≠ []).length ≤ 1 := by
  by_contra hc
  obtain ⟨es, hes⟩ := List.exists_mem_of_length_pos
    (show 0 < ((blockEntries m info os).filter fun es => highZones es ≠ []).length by omega)
  have hlt := length_lt_of_two (Nat.lt_of_not_le hc) (List.mem_filter.mp hes).1
  obtain ⟨l, hl⟩ : ∃ l, (highZones (blockEntries m info os).flatten).length = l + 1 :=
    ⟨_, (Nat.succ_pred_eq_of_pos (Nat.zero_lt_of_lt hlt)).symm⟩
  have hlast : l < (highZones (blockEntries m info os).flatten).length := by omega
  have hget : b.regions[l]? = some (highZones (blockEntries m info os).flatten)[l] := by
    rw [hregions, List.getElem?_eq_getElem]
  have hbase := base_of_mem_highZones (List.getElem_mem hlast)
  rw [h.regions_split hrec (Nat.lt_of_not_le hc) hl _ hget] at hbase
  exact absurd hbase (by decide)

end Layouts

/-- What the entries `es` leave when they are in one memory map, with 24 bytes for each. -/
theorem SingleMap.exists_run {w : Word → Option Byte} {m : Mem} {mbtInfo : Word}
    {es : List MmapEntry} (h : SingleMap w m mbtInfo es) (h10 : (highZones es).length ≤ 10) :
    ∃ b, Settles (fun fuel => initBootState w fuel mbtInfo bssState) (mbtInfo + kernelVmaBase, b) ∧
      b.numHighZones.toNat = (highZones es).length ∧ b.regions = highZones es ∧
      b.memLower = lowLength es 0 := by
  obtain ⟨total, os, o, hblock, hd, hone, h24⟩ := h.block
  have hall : EntriesOf24 m (mbtInfo + kernelVmaBase) os := fun o' ho _ => by
    rw [hone, List.mem_singleton] at ho
    rw [ho, h24]
  have hes := hd.flatten_eq hall
  obtain ⟨b, hrun, hrec⟩ := hblock.run_bss (by rwa [hes])
  have hsingle : ((blockEntries m (mbtInfo + kernelVmaBase) os).filter
      fun es => highZones es ≠ []).length ≤ 1 := by
    rw [blockEntries, hone]
    exact List.length_filter_le _ _
  refine ⟨b, hrun, ?_, ?_, ?_⟩
  · rw [hblock.numHighZones rfl hrec, hes]
  · rw [hblock.regions_single hrec hsingle, hes]
  · rw [hrec.low, hes]
    rfl

/-- Entries of 24 bytes leave the state that they leave in one memory map when, and only when, no
two maps have high regions. -/
theorem sameState_iff {w₁ w : Word → Option Byte} {m₁ m : Mem} {mbtInfo₁ mbtInfo : Word}
    {total : ℕ} {os : List ℕ} {es : List MmapEntry} (h₁ : SingleMap w₁ m₁ mbtInfo₁ es)
    (h : InfoBlock w m (mbtInfo + kernelVmaBase) total os)
    (hd : Describes m (mbtInfo + kernelVmaBase) os es)
    (h24 : EntriesOf24 m (mbtInfo + kernelVmaBase) os) (h10 : (highZones es).length ≤ 10) :
    SameState w₁ mbtInfo₁ w mbtInfo ↔ (highTags m (mbtInfo + kernelVmaBase) os).length ≤ 1 := by
  have hes := hd.flatten_eq h24
  obtain ⟨b₁, hrun₁, hnum₁, hregions₁, hlow₁⟩ := h₁.exists_run h10
  obtain ⟨b, hrun, hrec⟩ := h.run_bss (by rwa [hes])
  rw [length_highTags hd h24]
  constructor
  · rintro ⟨b₁', b', hrun₁', hrun', -, hregions, -⟩
    obtain rfl : b₁ = b₁' := congrArg Prod.snd (hrun₁.unique hrun₁')
    obtain rfl : b = b' := congrArg Prod.snd (hrun.unique hrun')
    exact h.filter_le_one hrec (by rw [hregions, hregions₁, hes])
  · intro hsingle
    refine ⟨b₁, b, hrun₁, hrun, ?_, ?_, ?_⟩
    · apply BitVec.eq_of_toNat_eq
      rw [hnum₁, h.numHighZones rfl hrec, hes]
    · rw [hregions₁, h.regions_single hrec hsingle, hes]
    · rw [hlow₁, hrec.low, hes]
      rfl

end Rix
