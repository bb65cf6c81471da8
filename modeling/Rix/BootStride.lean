import Rix.BootBlock

/-!
# Entries of more than 24 bytes

A memory map says itself how many bytes its entries have. The loop takes 24, and for
every layout with more there are entries that it reads otherwise than they are described.
-/
namespace Rix
open Fuel MmapEntry

def EntryByte (m : Mem) (info : Word) (os : List ℕ) (x : ℕ) : Prop :=
  ∃ o ∈ mmapTags m info os, o + 16 ≤ x ∧ x < o + tagSize m info o

instance (m : Mem) (info : Word) (os : List ℕ) (x : ℕ) : Decidable (EntryByte m info os x) :=
  inferInstanceAs (Decidable (∃ o ∈ mmapTags m info os, o + 16 ≤ x ∧ x < o + tagSize m info o))

/-- `m'` is `m` with other bytes in the entries of the memory maps. -/
def SameLayout (m m' : Mem) (info : Word) (os : List ℕ) : Prop :=
  ∀ a, ¬ EntryByte m info os (a - info).toNat → m' a = m a

def strideEntries (m : Mem) (info : Word) (o s n : ℕ) : List MmapEntry :=
  (List.range n).map fun i => m.mmapEntry (info + BitVec.ofNat 64 (o + 16 + s * i))

theorem strideEntries_split (m : Mem) (info : Word) (o s : ℕ) {j n : ℕ} (hj : j < n) : ∃ as bs,
    strideEntries m info o s n =
        as ++ m.mmapEntry (info + BitVec.ofNat 64 (o + 16 + s * j)) :: bs ∧
      ∀ e ∈ bs, ∃ i, j < i ∧ i < n ∧ e = m.mmapEntry (info + BitVec.ofNat 64 (o + 16 + s * i)) := by
  have hlen : j < (strideEntries m info o s n).length := by
    rwa [strideEntries, List.length_map, List.length_range]
  have hget : ∀ i (hi : i < (strideEntries m info o s n).length),
      (strideEntries m info o s n)[i] = m.mmapEntry (info + BitVec.ofNat 64 (o + 16 + s * i)) :=
    fun i hi => by simp only [strideEntries, List.getElem_map, List.getElem_range]
  have hsplit := List.take_append_drop j (strideEntries m info o s n)
  rw [List.drop_eq_getElem_cons hlen, hget j hlen] at hsplit
  refine ⟨_, _, hsplit.symm, fun e he => ?_⟩
  obtain ⟨i, hi, rfl⟩ := List.mem_drop_iff_getElem.mp he
  refine ⟨j + 1 + i, by omega, ?_, hget _ _⟩
  rw [strideEntries, List.length_map, List.length_range] at hi
  omega

/-- The entries at the steps `s` start inside the entries of their memory maps. -/
def StartInside (m : Mem) (info : Word) (os : List ℕ) (s n : ℕ → ℕ) : Prop :=
  ∀ o ∈ mmapTags m info os, s o % 8 = 0 ∧ ∀ i < n o, 16 + s o * i < tagSize m info o

theorem StartInside.aligned {m : Mem} {info : Word} {os : List ℕ} {s n : ℕ → ℕ} {o : ℕ}
    (hs : StartInside m info os s n) (ho : o ∈ mmapTags m info os) (i : ℕ) : s o * i % 8 = 0 := by
  rw [Nat.mul_mod, (hs o ho).1, Nat.zero_mul, Nat.zero_mod]

/-- The last entry at address zero counts. -/
theorem lowLength_of_last {as bs : List MmapEntry} {e : MmapEntry} (he : e.addr = 0)
    (hbs : ∀ e' ∈ bs, e'.addr ≠ 0) (u : BitVec 32) :
    lowLength (as ++ e :: bs) u = e.len.setWidth 32 := by
  have hnil : bs.filter (fun e => e.addr = 0) = [] :=
    List.filter_eq_nil_iff.mpr fun e' he' => by simpa using hbs e' he'
  rw [lowLength, List.filter_append, List.filter_cons_of_pos (by simpa using he), hnil,
    List.getLast?_concat]
  rfl

theorem lowLength_flatMap {m : Mem} {info : Word} {maps : List ℕ} {o j : ℕ} {s n : ℕ → ℕ}
    (hnodup : maps.Nodup) (ho : o ∈ maps) (hj : j < n o)
    (hzero : (m.mmapEntry (info + BitVec.ofNat 64 (o + 16 + s o * j))).addr = 0)
    (hlast : ∀ i, j < i → i < n o →
      (m.mmapEntry (info + BitVec.ofNat 64 (o + 16 + s o * i))).addr ≠ 0)
    (hothers : ∀ o' ∈ maps, o' ≠ o → ∀ i < n o',
      (m.mmapEntry (info + BitVec.ofNat 64 (o' + 16 + s o' * i))).addr ≠ 0) (u : BitVec 32) :
    lowLength (maps.flatMap fun o => strideEntries m info o (s o) (n o)) u =
      (m.mmapEntry (info + BitVec.ofNat 64 (o + 16 + s o * j))).len.setWidth 32 := by
  obtain ⟨pre, post, rfl⟩ := List.append_of_mem ho
  obtain ⟨as, bs, hsplit, hbs⟩ := strideEntries_split m info o (s o) hj
  have hflat : ((pre ++ o :: post).flatMap fun o => strideEntries m info o (s o) (n o)) =
      ((pre.flatMap fun o => strideEntries m info o (s o) (n o)) ++ as) ++
        m.mmapEntry (info + BitVec.ofNat 64 (o + 16 + s o * j)) ::
          (bs ++ post.flatMap fun o => strideEntries m info o (s o) (n o)) := by
    rw [List.flatMap_append, List.flatMap_cons, hsplit]
    simp only [List.append_assoc, List.cons_append]
  rw [hflat]
  refine lowLength_of_last hzero (fun e he => ?_) u
  rcases List.mem_append.mp he with he | he
  · obtain ⟨i, hji, hi, rfl⟩ := hbs e he
    exact hlast i hji hi
  · obtain ⟨o', ho', he⟩ := List.mem_flatMap.mp he
    obtain ⟨i, hi, rfl⟩ := List.mem_map.mp he
    have hne : o' ≠ o := by
      rintro rfl
      exact (List.nodup_cons.mp (List.nodup_append.mp hnodup).2.1).1 ho'
    exact hothers o' (List.mem_append_right _ (List.mem_cons_of_mem _ ho')) hne i (List.mem_range.mp hi)

section Layout

variable {m m' : Mem} {info : Word} {total o o' x : ℕ} {os : List ℕ} {es : List MmapEntry}

theorem Tags.mod_eight (h : Tags m info total o os) (h8 : o % 8 = 0) (ho : o' ∈ os) : o' % 8 = 0 := by
  induction h with
  | total => cases ho
  | endTag => cases ho
  | tag _ _ _ _ ih =>
      rcases List.mem_cons.mp ho with rfl | ho
      · exact h8
      · exact ih (by omega) ho

theorem Tags.sorted (h : Tags m info total o os) :
    os.Pairwise fun o₁ o₂ => o₁ + tagSize m info o₁ ≤ o₂ := by
  induction h with
  | total => exact .nil
  | endTag => exact .nil
  | tag _ _ _ hs ih =>
      refine .cons (fun o₂ ho₂ => ?_) ih
      have := hs.mem_ge ho₂
      omega

theorem Tags.nodup (h : Tags m info total o os) : os.Nodup :=
  h.sorted.imp_of_mem fun ho _ hle => by
    have := h.mem_size ho
    omega

theorem Tags.apart (h : Tags m info total o os) {o₁ o₂ : ℕ} (h₁ : o₁ ∈ os) (h₂ : o₂ ∈ os)
    (hne : o₁ ≠ o₂) : o₁ + tagSize m info o₁ ≤ o₂ ∨ o₂ + tagSize m info o₂ ≤ o₁ := by
  have hsymm : Std.Symm fun o₁ o₂ =>
      o₁ + tagSize m info o₁ ≤ o₂ ∨ o₂ + tagSize m info o₂ ≤ o₁ := ⟨fun _ _ => Or.symm⟩
  have hor : os.Pairwise fun o₁ o₂ => o₁ + tagSize m info o₁ ≤ o₂ ∨ o₂ + tagSize m info o₂ ≤ o₁ :=
    h.sorted.imp Or.inl
  exact hor.forall h₁ h₂ hne

theorem Tags.not_entryByte (h : Tags m info total o os) (ho : o' ∈ os) (h1 : o' ≤ x)
    (h16 : x < o' + 16) (hsize : x < o' + tagSize m info o') : ¬ EntryByte m info os x := by
  rintro ⟨o₂, ho₂, h2, h3⟩
  have hmem := (List.mem_filter.mp ho₂).1
  by_cases heq : o' = o₂
  · omega
  · rcases h.apart ho hmem heq with h4 | h4
    · omega
    · omega

theorem SameLayout.get32 (hs : SameLayout m m' info os) (hx : x + 4 ≤ 2 ^ 64)
    (h : ∀ i < 4, ¬ EntryByte m info os (x + i)) :
    m'.get32 (info + BitVec.ofNat 64 x) = m.get32 (info + BitVec.ofNat 64 x) :=
  Mem.get32_congr fun i hi => hs _ (by
    rw [BitVec.add_assoc, ← BitVec.ofNat_add, toNat_add_ofNat_sub info (by omega)]
    exact h i hi)

theorem Describes.size (hd : Describes m info os es) (ho : o ∈ mmapTags m info os) :
    16 ≤ tagSize m info o ∧ tagSize m info o % 8 = 0 := by
  obtain ⟨-, hmod⟩ := hd.stride o ho
  obtain ⟨k, hk⟩ := hd.whole o ho
  have := Nat.mul_mod (tagEntrySize m info o) k 8
  rw [hmod, Nat.zero_mul, Nat.zero_mod] at this
  omega

section Same

variable {w : Word → Option Byte} (h : InfoBlock w m info total os) (hs : SameLayout m m' info os)
include h hs

theorem SameLayout.tagType_eq (ho : o ∈ os) : tagType m' info o = tagType m info o := by
  have h8 := h.tags.mem_size ho
  have hfit := h.tags.mem_fits ho
  have htop := h.read.top
  exact hs.get32 (by omega) fun i hi => h.tags.not_entryByte ho (by omega) (by omega) (by omega)

theorem SameLayout.tagSize_eq (ho : o ∈ os) : tagSize m' info o = tagSize m info o := by
  have h8 := h.tags.mem_size ho
  have hfit := h.tags.mem_fits ho
  have htop := h.read.top
  have heq := hs.get32 (x := o + 4) (by omega)
    fun i hi => h.tags.not_entryByte ho (by omega) (by omega) (by omega)
  rw [BitVec.ofNat_add, ← BitVec.add_assoc] at heq
  exact congrArg BitVec.toNat heq

theorem SameLayout.mmapTags_eq : mmapTags m' info os = mmapTags m info os :=
  List.filter_congr fun o ho => by rw [hs.tagType_eq h ho]

theorem SameLayout.tagEntrySize_eq (ho : o ∈ os) (h16 : 16 ≤ tagSize m info o) :
    tagEntrySize m' info o = tagEntrySize m info o := by
  have hfit := h.tags.mem_fits ho
  have htop := h.read.top
  have heq := hs.get32 (x := o + 8) (by omega)
    fun i hi => h.tags.not_entryByte ho (by omega) (by omega) (by omega)
  rw [BitVec.ofNat_add, ← BitVec.add_assoc] at heq
  exact congrArg BitVec.toNat heq

theorem SameLayout.tagEntries_eq (ho : o ∈ os) :
    tagEntries m' info o = strideEntries m' info o 24 (mmapCount m info o) := by
  rw [tagEntries, mmapCount, hs.tagSize_eq h ho]
  rfl

theorem SameLayout.describedEntries_eq (hd : Describes m info os es) (ho : o ∈ mmapTags m info os) :
    describedEntries m' info o = strideEntries m' info o (tagEntrySize m info o)
      ((tagSize m info o - 16) / tagEntrySize m info o) := by
  have hmem := (List.mem_filter.mp ho).1
  rw [describedEntries, hs.tagSize_eq h hmem, hs.tagEntrySize_eq h hmem (hd.size ho).1]
  rfl

theorem SameLayout.entriesOf24 (hd : Describes m info os es) (h24 : EntriesOf24 m info os) :
    EntriesOf24 m' info os := by
  intro o ho hsize
  rw [hs.mmapTags_eq h] at ho
  have hmem := (List.mem_filter.mp ho).1
  rw [hs.tagSize_eq h hmem] at hsize
  rw [hs.tagEntrySize_eq h hmem (hd.size ho).1]
  exact h24 o ho hsize

end Same

end Layout

/-- `m` with the words `f` in the entries of the memory maps. -/
def fillEntries (m : Mem) (info : Word) (os : List ℕ) (f : ℕ → Word) : Mem := fun a =>
  if EntryByte m info os (a - info).toNat then wordMemory info f a else m a

/-- Entries neither low nor high, but the first of the tag at offset `o`, which is low and followed
by a zero word. -/
def clashWord (o : ℕ) (low : Word) (k : ℕ) : Word :=
  if k = o / 8 + 2 ∨ k = o / 8 + 5 then 0 else if k = o / 8 + 3 then low else 2

section Fill

variable {w : Word → Option Byte} {m : Mem} {info : Word} {total o o' d : ℕ} {os : List ℕ}
  {es : List MmapEntry} {f : ℕ → Word}

theorem sameLayout_fillEntries (m : Mem) (info : Word) (os : List ℕ) (f : ℕ → Word) :
    SameLayout m (fillEntries m info os f) info os := fun _ ha => if_neg ha

section

variable (h : InfoBlock w m info total os) (hd : Describes m info os es)
include h

theorem InfoBlock.fill (f : ℕ → Word) :
    InfoBlock (fun a => (w a).map fun _ => fillEntries m info os f a) (fillEntries m info os f) info
      total os := by
  have htop := h.read.top
  have hout : ∀ x, x < 2 ^ 64 → ¬ EntryByte m info os x →
      fillEntries m info os f (info + BitVec.ofNat 64 x) = m (info + BitVec.ofNat 64 x) :=
    fun x hx hne => sameLayout_fillEntries m info os f _ (by rwa [toNat_add_ofNat_sub info hx])
  refine ⟨?_, ?_, htop, fun i hi => ?_⟩
  · have heq : (fillEntries m info os f).get32 info = m.get32 info := Mem.get32_congr fun i hi =>
      hout i (by omega) fun ⟨o, ho, h1, h2⟩ => by
        have := h.tags.mem_ge (List.mem_filter.mp ho).1
        omega
    rw [heq, h.size]
  · exact h.tags.congr fun x hx hlt hno => hout x (by omega) fun ⟨o, ho, h1, h2⟩ => by
      rcases hno o (List.mem_filter.mp ho).1 with h3 | h3
      · omega
      · omega
  · rw [h.read.reads i hi]
    rfl

include hd

theorem InfoBlock.get64_fill (f : ℕ → Word) (ho : o ∈ mmapTags m info os) (h8 : d % 8 = 0)
    (hlt : 16 + d < tagSize m info o) :
    (fillEntries m info os f).get64 (info + BitVec.ofNat 64 (o + 16 + d)) = f ((o + 16 + d) / 8) := by
  have hmem := (List.mem_filter.mp ho).1
  have hmod := h.tags.mod_eight (by decide) hmem
  have hfit := h.tags.mem_fits hmem
  have htop := h.read.top
  have hsize := hd.size ho
  refine Mem.get64_of_bytes fun i hi => ?_
  have hfill : fillEntries m info os f (info + BitVec.ofNat 64 (o + 16 + d) + BitVec.ofNat 64 i) =
      wordMemory info f (info + BitVec.ofNat 64 (o + 16 + d) + BitVec.ofNat 64 i) := if_pos (by
    rw [BitVec.add_assoc, ← BitVec.ofNat_add, toNat_add_ofNat_sub info (by omega)]
    exact ⟨o, ho, by omega, by omega⟩)
  exact hfill.trans (wordMemory_byte info f (by omega) (by omega) hi)

/-- The only low ones among the entries: the first, and the one that is read behind its 24 bytes. -/
theorem InfoBlock.addr_clash {low : Word} (hlow : low ≠ 0) (ho : o ∈ mmapTags m info os)
    (hsize : 48 ≤ tagSize m info o) (ho' : o' ∈ mmapTags m info os) (h8 : d % 8 = 0)
    (hlt : 16 + d < tagSize m info o') :
    ((fillEntries m info os (clashWord o low)).mmapEntry
      (info + BitVec.ofNat 64 (o' + 16 + d))).addr = 0 ↔ o' = o ∧ (d = 0 ∨ d = 24) := by
  have hmem := (List.mem_filter.mp ho).1
  have hmem' := (List.mem_filter.mp ho').1
  have hmod := h.tags.mod_eight (by decide) hmem
  have hmod' := h.tags.mod_eight (by decide) hmem'
  rw [show (Mem.mmapEntry _ _).addr = _ from h.get64_fill hd (clashWord o low) ho' h8 hlt, clashWord]
  constructor
  · intro hzero
    have hidx : (o' + 16 + d) / 8 = o / 8 + 2 ∨ (o' + 16 + d) / 8 = o / 8 + 5 := by
      by_contra hc
      rw [if_neg hc] at hzero
      split at hzero
      · exact hlow hzero
      · exact absurd hzero (by decide)
    have heq : o' = o := by
      by_contra hne
      rcases h.tags.apart hmem' hmem hne with h1 | h1
      · omega
      · omega
    exact ⟨heq, by omega⟩
  · rintro ⟨rfl, rfl | rfl⟩
    · exact if_pos (.inl (by omega))
    · exact if_pos (.inr (by omega))

theorem InfoBlock.not_high_clash {low : Word} (hlow : low = 2 ∨ low = 3)
    (ho' : o' ∈ mmapTags m info os) (h8 : d % 8 = 0) (hlt : 16 + d < tagSize m info o') :
    ¬ ((fillEntries m info os (clashWord o low)).mmapEntry
      (info + BitVec.ofNat 64 (o' + 16 + d))).High := by
  rintro ⟨-, haddr⟩
  rw [show (Mem.mmapEntry _ _).addr = _ from h.get64_fill hd (clashWord o low) ho' h8 hlt, clashWord]
    at haddr
  split at haddr
  · exact absurd haddr (by decide)
  · split at haddr
    · rcases hlow with rfl | rfl
      · exact absurd haddr (by decide)
      · exact absurd haddr (by decide)
    · exact absurd haddr (by decide)

theorem InfoBlock.highZones_clash {low : Word} (hlow : low = 2 ∨ low = 3) {s n : ℕ → ℕ}
    (hs : StartInside m info os s n) (ho' : o' ∈ mmapTags m info os) :
    highZones (strideEntries (fillEntries m info os (clashWord o low)) info o' (s o') (n o')) = [] := by
  rw [highZones, List.map_eq_nil_iff, List.filter_eq_nil_iff]
  intro e he
  obtain ⟨i, hi, rfl⟩ := List.mem_map.mp he
  have hin := (hs o' ho').2 i (List.mem_range.mp hi)
  simpa using h.not_high_clash hd hlow ho' (hs.aligned ho' i) hin

theorem InfoBlock.highZones_flatMap_clash {low : Word} (hlow : low = 2 ∨ low = 3) {s n : ℕ → ℕ}
    (hs : StartInside m info os s n) :
    highZones ((mmapTags m info os).flatMap fun o' =>
      strideEntries (fillEntries m info os (clashWord o low)) info o' (s o') (n o')) = [] := by
  rw [List.flatMap_def]
  refine highZones_flatten_of_nil fun es' hes => ?_
  obtain ⟨o', ho', rfl⟩ := List.mem_map.mp hes
  have hnil := h.highZones_clash (o := o) hd hlow hs ho'
  exact hnil

/-- Steps `s` take the entry `j` of the tag at offset `o` for the last low one. -/
theorem InfoBlock.lowLength_clash {low : Word} (hlow : low = 2 ∨ low = 3)
    (ho : o ∈ mmapTags m info os) (hsize : 48 ≤ tagSize m info o) {s n : ℕ → ℕ}
    (hs : StartInside m info os s n) {j : ℕ} (hj : j < n o) (hzero : s o * j = 0 ∨ s o * j = 24)
    (hlast : ∀ i, j < i → 24 < s o * i) (u : BitVec 32) :
    lowLength ((mmapTags m info os).flatMap fun o' =>
        strideEntries (fillEntries m info os (clashWord o low)) info o' (s o') (n o')) u =
      ((fillEntries m info os (clashWord o low)).get64
        (info + BitVec.ofNat 64 (o + 16 + s o * j) + 8)).setWidth 32 := by
  have hlow0 : low ≠ 0 := by
    rcases hlow with rfl | rfl
    · decide
    · decide
  have haddr : ∀ o' ∈ mmapTags m info os, ∀ i < n o',
      ((fillEntries m info os (clashWord o low)).mmapEntry
        (info + BitVec.ofNat 64 (o' + 16 + s o' * i))).addr = 0 ↔
          o' = o ∧ (s o' * i = 0 ∨ s o' * i = 24) := by
    intro o' ho' i hi
    exact h.addr_clash hd hlow0 ho hsize ho' (hs.aligned ho' i) ((hs o' ho').2 i hi)
  refine (lowLength_flatMap (h.tags.nodup.filter _) ho hj ((haddr o ho j hj).mpr ⟨rfl, hzero⟩) ?_ ?_
    u).trans rfl
  · intro i hji hi h0
    have := hlast i hji
    rcases ((haddr o ho i hi).mp h0).2 with h1 | h1
    · omega
    · omega
  · exact fun o' ho' hne i hi h0 => hne ((haddr o' ho' i hi).mp h0).1

end

/-- The low word of the first entry is the one word that tells two fillings apart. -/
theorem get64_clash_congr (m : Mem) (info : Word) (os : List ℕ) {x : ℕ} (h8 : x % 8 = 0)
    (hx : x + 8 ≤ 2 ^ 64) (hne : x / 8 ≠ o / 8 + 3) (low low' : Word) :
    (fillEntries m info os (clashWord o low)).get64 (info + BitVec.ofNat 64 x) =
      (fillEntries m info os (clashWord o low')).get64 (info + BitVec.ofNat 64 x) := by
  refine Mem.get64_congr fun i hi => ?_
  unfold fillEntries
  rw [wordMemory_byte info _ h8 hx hi, wordMemory_byte info _ h8 hx hi, clashWord, if_neg hne, clashWord,
    if_neg hne]

theorem exists_low (m : Mem) (info : Word) (os : List ℕ) (h8 : o % 8 = 0) (ho : o + 56 ≤ 2 ^ 64) :
    ∃ low : Word, (low = 2 ∨ low = 3) ∧ ((fillEntries m info os (clashWord o low)).get64
      (info + BitVec.ofNat 64 (o + 48))).setWidth 32 ≠ low.setWidth 32 := by
  by_cases h2 : ((fillEntries m info os (clashWord o 2)).get64
      (info + BitVec.ofNat 64 (o + 48))).setWidth 32 = (2 : Word).setWidth 32
  · refine ⟨3, .inr rfl, ?_⟩
    rw [get64_clash_congr m info os (by omega) (by omega) (by omega) 3 2, h2]
    decide
  · exact ⟨2, .inl rfl, h2⟩

theorem startInside_read (m : Mem) (info : Word) (os : List ℕ) :
    StartInside m info os (fun _ => 24) (mmapCount m info) := fun o _ => by
  refine ⟨show 24 % 8 = 0 by decide, fun i hi => ?_⟩
  show 16 + 24 * i < tagSize m info o
  unfold mmapCount at hi
  omega

theorem Describes.startInside (hd : Describes m info os es) :
    StartInside m info os (tagEntrySize m info)
      (fun o => (tagSize m info o - 16) / tagEntrySize m info o) := fun o ho => by
  obtain ⟨h24, hmod⟩ := hd.stride o ho
  refine ⟨hmod, fun i hi => ?_⟩
  change i < (tagSize m info o - 16) / tagEntrySize m info o at hi
  have h1 := Nat.mul_div_le (tagSize m info o - 16) (tagEntrySize m info o)
  have h2 := Nat.mul_le_mul_left (tagEntrySize m info o) (Nat.succ_le_of_lt hi)
  rw [Nat.mul_succ] at h2
  omega

theorem Tags.length_described (h : Tags m info total o os)
    (hs : ∀ o ∈ mmapTags m info os, 24 ≤ tagEntrySize m info o ∧ 16 ≤ tagSize m info o) :
    16 * (mmapTags m info os).length +
      24 * ((mmapTags m info os).flatMap (describedEntries m info)).length ≤ total - o := by
  induction h with
  | total => exact Nat.zero_le _
  | endTag => exact Nat.zero_le _
  | @tag o os _ h8 hfit _ ih =>
      unfold mmapTags at ih hs ⊢
      by_cases hm : tagType m info o = multiboot2TagTypeMmap
      · rw [List.filter_cons_of_pos (by simpa using hm)] at hs ⊢
        have hle := ih fun o' ho' => hs o' (List.mem_cons_of_mem _ ho')
        obtain ⟨h24, h16⟩ := hs o List.mem_cons_self
        have hlen : (describedEntries m info o).length =
            (tagSize m info o - 16) / tagEntrySize m info o := by
          rw [describedEntries, List.length_map, List.length_range]
        have h1 := Nat.mul_div_le (tagSize m info o - 16) (tagEntrySize m info o)
        have h2 := Nat.mul_le_mul_right ((tagSize m info o - 16) / tagEntrySize m info o) h24
        rw [List.flatMap_cons, List.length_append, List.length_cons, hlen]
        omega
      · rw [List.filter_cons_of_neg (by simpa using hm)] at hs ⊢
        have hle := ih hs
        omega

theorem SameLayout.describes {m' : Mem} (h : InfoBlock w m info total os)
    (hs : SameLayout m m' info os) (hd : Describes m info os es) :
    Describes m' info os ((mmapTags m' info os).flatMap (describedEntries m' info)) := by
  refine ⟨fun o ho => ?_, fun o ho => ?_, rfl⟩
  · rw [hs.mmapTags_eq h] at ho
    rw [hs.tagEntrySize_eq h (List.mem_filter.mp ho).1 (hd.size ho).1]
    exact hd.stride o ho
  · rw [hs.mmapTags_eq h] at ho
    rw [hs.tagEntrySize_eq h (List.mem_filter.mp ho).1 (hd.size ho).1,
      hs.tagSize_eq h (List.mem_filter.mp ho).1]
    exact hd.whole o ho

theorem Describes.larger (hd : Describes m info os es) (ho : o ∈ mmapTags m info os)
    (hsize : 16 < tagSize m info o) (h24 : tagEntrySize m info o ≠ 24) :
    24 < tagEntrySize m info o ∧ 48 ≤ tagSize m info o := by
  obtain ⟨hle, hmod⟩ := hd.stride o ho
  obtain ⟨k, hk⟩ := hd.whole o ho
  have hk0 : 0 < k := Nat.pos_of_ne_zero fun h0 => by
    rw [h0] at hk
    omega
  have hmul := Nat.le_mul_of_pos_right (tagEntrySize m info o) hk0
  exact ⟨lt_of_le_of_ne hle h24.symm, by omega⟩

section

variable {low : Word} {m' : Mem} (h : InfoBlock w m info total os) (hd : Describes m info os es)
  (hlow : low = 2 ∨ low = 3) (ho : o ∈ mmapTags m info os) (hsize : 48 ≤ tagSize m info o)
  (hm' : m' = fillEntries m info os (clashWord o low))
include h hd hlow ho hsize hm'

/-- The loop takes what lies behind the first 24 bytes for an entry, the last low one. -/
theorem InfoBlock.clash_read : highZones (blockEntries m' info os).flatten = [] ∧
    lowLength (blockEntries m' info os).flatten 0 =
      (m'.get64 (info + BitVec.ofNat 64 (o + 48))).setWidth 32 := by
  have hs : SameLayout m m' info os := hm' ▸ sameLayout_fillEntries m info os (clashWord o low)
  have hread : (blockEntries m' info os).flatten = (mmapTags m info os).flatMap fun o' =>
      strideEntries m' info o' 24 (mmapCount m info o') := by
    rw [blockEntries, hs.mmapTags_eq h, ← List.flatMap_def]
    exact List.flatMap_congr fun o' ho' => hs.tagEntries_eq h (List.mem_filter.mp ho').1
  subst hm'
  rw [hread]
  have hin := startInside_read m info os
  refine ⟨h.highZones_flatMap_clash hd hlow hin, ?_⟩
  have hcount : 1 < mmapCount m info o := by
    unfold mmapCount
    omega
  have hlast : ∀ i, 1 < i → 24 < 24 * i := fun i hi => by omega
  refine (h.lowLength_clash hd hlow ho hsize hin hcount (.inr (Nat.mul_one 24)) hlast 0).trans ?_
  rw [Nat.mul_one, BitVec.add_assoc, show (8 : Word) = BitVec.ofNat 64 8 from rfl, ← BitVec.ofNat_add]

theorem InfoBlock.clash_described (hstride : 24 < tagEntrySize m info o) :
    highTags m' info os = [] ∧
    highZones ((mmapTags m' info os).flatMap (describedEntries m' info)) = [] ∧
    lowLength ((mmapTags m' info os).flatMap (describedEntries m' info)) 0 = low.setWidth 32 := by
  have hs : SameLayout m m' info os := hm' ▸ sameLayout_fillEntries m info os (clashWord o low)
  have hdes : (mmapTags m' info os).flatMap (describedEntries m' info) =
      (mmapTags m info os).flatMap fun o' => strideEntries m' info o' (tagEntrySize m info o')
        ((tagSize m info o' - 16) / tagEntrySize m info o') := by
    rw [hs.mmapTags_eq h]
    exact List.flatMap_congr fun o' ho' => hs.describedEntries_eq h hd ho'
  subst hm'
  rw [hdes]
  have hin := hd.startInside
  refine ⟨?_, h.highZones_flatMap_clash hd hlow hin, ?_⟩
  · rw [highTags, hs.mmapTags_eq h, List.filter_eq_nil_iff]
    intro o' ho'
    have hnil := h.highZones_clash (o := o) hd hlow hin ho'
    rw [hs.describedEntries_eq h hd ho', hnil]
    decide
  · have hpos : 0 < (tagSize m info o - 16) / tagEntrySize m info o := by
      obtain ⟨k, hk⟩ := hd.whole o ho
      rw [hk, Nat.add_sub_cancel_left, Nat.mul_div_cancel_left k (by omega)]
      refine Nat.pos_of_ne_zero ?_
      rintro rfl
      omega
    have hlast : ∀ i, 0 < i → 24 < tagEntrySize m info o * i := fun i hi =>
      lt_of_lt_of_le hstride (Nat.le_mul_of_pos_right _ hi)
    refine (h.lowLength_clash hd hlow ho hsize hin hpos (.inl (Nat.mul_zero _)) hlast 0).trans ?_
    have hmod := h.tags.mod_eight (by decide) (List.mem_filter.mp ho).1
    have hword := h.get64_fill hd (clashWord o low) ho (d := 8) (by decide) (by omega)
    rw [Nat.mul_zero, BitVec.add_assoc, show (8 : Word) = BitVec.ofNat 64 8 from rfl, ← BitVec.ofNat_add,
      Nat.add_zero, hword, clashWord, if_neg (by omega), if_pos (by omega)]

end

end Fill

/-- For a layout with a larger entry there are entries, without a high one, for which the state is
not that of one memory map. -/
theorem InfoBlock.exists_clash {w : Word → Option Byte} {m : Mem} {mbtInfo : Word} {total o : ℕ}
    {os : List ℕ} {es : List MmapEntry} (h : InfoBlock w m (mbtInfo + kernelVmaBase) total os)
    (hd : Describes m (mbtInfo + kernelVmaBase) os es)
    (ho : o ∈ mmapTags m (mbtInfo + kernelVmaBase) os)
    (hsize : 16 < tagSize m (mbtInfo + kernelVmaBase) o)
    (h24 : tagEntrySize m (mbtInfo + kernelVmaBase) o ≠ 24) : ∃ w' m' es',
      InfoBlock w' m' (mbtInfo + kernelVmaBase) total os ∧
      SameLayout m m' (mbtInfo + kernelVmaBase) os ∧
      Describes m' (mbtInfo + kernelVmaBase) os es' ∧ highZones es' = [] ∧
      highTags m' (mbtInfo + kernelVmaBase) os = [] ∧
      ∃ w₁ m₁, SingleMap w₁ m₁ mbtInfo es' ∧ ¬ SameState w₁ mbtInfo w' mbtInfo := by
  have hmem := (List.mem_filter.mp ho).1
  have hmod := h.tags.mod_eight (by decide) hmem
  have hfit := h.tags.mem_fits hmem
  have htop := h.read.top
  obtain ⟨hstride, h48⟩ := hd.larger ho hsize h24
  obtain ⟨low, hlow, hclash⟩ := exists_low m (mbtInfo + kernelVmaBase) os hmod (by omega)
  have hs := sameLayout_fillEntries m (mbtInfo + kernelVmaBase) os (clashWord o low)
  have hblock := h.fill (clashWord o low)
  have hdes := hs.describes h hd
  obtain ⟨hhigh, hread⟩ := h.clash_read hd hlow ho h48 rfl
  obtain ⟨htags, hhigh', hdescribed⟩ := h.clash_described hd hlow ho h48 rfl hstride
  generalize hes : (mmapTags (fillEntries m (mbtInfo + kernelVmaBase) os (clashWord o low))
    (mbtInfo + kernelVmaBase) os).flatMap (describedEntries (fillEntries m (mbtInfo + kernelVmaBase) os
      (clashWord o low)) (mbtInfo + kernelVmaBase)) = es' at hdes hhigh' hdescribed
  have hlen : 24 + 24 * es'.length ≤ total := by
    have hle := hblock.tags.length_described fun o' ho' => ⟨(hdes.stride o' ho').1, (hdes.size ho').1⟩
    have hpos := List.length_pos_of_mem ((hs.mmapTags_eq h).symm ▸ ho)
    rw [hes] at hle
    omega
  have htotal : total < 2 ^ 32 := h.size ▸ BitVec.isLt _
  have hone := @singleMap_wordMemory mbtInfo es' (by omega) (by omega)
  refine ⟨_, _, es', hblock, hs, hdes, hhigh', htags, _, _, hone, ?_⟩
  rintro ⟨b₁, b₂, hrun₁, hrun₂, -, -, hlast⟩
  obtain ⟨b₁', hrun₁', -, -, hlow₁⟩ := hone.exists_run (by rw [hhigh']; exact Nat.zero_le _)
  obtain ⟨b₂', hrun₂', hrec₂⟩ := hblock.run_bss (by rw [hhigh]; exact Nat.zero_le _)
  obtain rfl : b₁' = b₁ := congrArg Prod.snd (hrun₁'.unique hrun₁)
  obtain rfl : b₂' = b₂ := congrArg Prod.snd (hrun₂'.unique hrun₂)
  refine hclash ?_
  rw [← hread, ← hdescribed, ← hlow₁, ← hlast, hrec₂.low]
  rfl

/-- With entries of 24 bytes the state is that of one memory map when, and only when, no two maps
have high regions; a layout with larger entries leaves another one for some of their contents. -/
theorem layouts_agree_iff {w : Word → Option Byte} {m : Mem} {mbtInfo : Word} {total : ℕ}
    {os : List ℕ} {es : List MmapEntry} (h : InfoBlock w m (mbtInfo + kernelVmaBase) total os)
    (hd : Describes m (mbtInfo + kernelVmaBase) os es) (h10 : (highZones es).length ≤ 10) :
    (EntriesOf24 m (mbtInfo + kernelVmaBase) os → ∀ w₁ m₁ mbtInfo₁, SingleMap w₁ m₁ mbtInfo₁ es →
      (SameState w₁ mbtInfo₁ w mbtInfo ↔ (highTags m (mbtInfo + kernelVmaBase) os).length ≤ 1)) ∧
    (EntriesOf24 m (mbtInfo + kernelVmaBase) os ↔
      ∀ w' m' es', InfoBlock w' m' (mbtInfo + kernelVmaBase) total os →
        SameLayout m m' (mbtInfo + kernelVmaBase) os →
        Describes m' (mbtInfo + kernelVmaBase) os es' → (highZones es').length ≤ 10 →
        (highTags m' (mbtInfo + kernelVmaBase) os).length ≤ 1 →
        ∀ w₁ m₁ mbtInfo₁, SingleMap w₁ m₁ mbtInfo₁ es' → SameState w₁ mbtInfo₁ w' mbtInfo) := by
  refine ⟨fun h24 w₁ m₁ mbtInfo₁ h₁ => sameState_iff h₁ h hd h24 h10, ?_, ?_⟩
  · intro h24 w' m' es' h' hs hd' h10' hsingle w₁ m₁ mbtInfo₁ h₁
    exact (sameState_iff h₁ h' hd' (hs.entriesOf24 h hd h24) h10').mpr hsingle
  · intro hall o ho hsize
    by_contra h24
    obtain ⟨w', m', es', h', hs, hd', hhigh, htags, w₁, m₁, h₁, hne⟩ := h.exists_clash hd ho hsize h24
    exact hne (hall w' m' es' h' hs hd' (by rw [hhigh]; exact Nat.zero_le _)
      (by rw [htags]; exact Nat.zero_le _) w₁ m₁ mbtInfo h₁)

def oneTag : List Byte :=
  [72, 0, 0, 0, 0, 0, 0, 0] ++ [6, 0, 0, 0, 64, 0, 0, 0, 24, 0, 0, 0, 0, 0, 0, 0] ++
  [0, 0, 0x10, 0, 0, 0, 0, 0, 0, 0x10, 0, 0, 0, 0, 0, 0, 1, 0, 0, 0, 0, 0, 0, 0] ++
  [0, 0, 0x20, 0, 0, 0, 0, 0, 0, 0x10, 0, 0, 0, 0, 0, 0, 1, 0, 0, 0, 0, 0, 0, 0]

def twoTags : List Byte :=
  [88, 0, 0, 0, 0, 0, 0, 0] ++ [6, 0, 0, 0, 40, 0, 0, 0, 24, 0, 0, 0, 0, 0, 0, 0] ++
  [0, 0, 0x10, 0, 0, 0, 0, 0, 0, 0x10, 0, 0, 0, 0, 0, 0, 1, 0, 0, 0, 0, 0, 0, 0] ++
  [6, 0, 0, 0, 40, 0, 0, 0, 24, 0, 0, 0, 0, 0, 0, 0] ++
  [0, 0, 0x20, 0, 0, 0, 0, 0, 0, 0x10, 0, 0, 0, 0, 0, 0, 1, 0, 0, 0, 0, 0, 0, 0]

def blockMemory (bs : List Byte) : Mem := fun a => bs.getD (a - (65536 + kernelVmaBase)).toNat 0

def twoRegions : List MmapEntry := [⟨0x100000, 0x1000, 1⟩, ⟨0x200000, 0x1000, 1⟩]

theorem oneTag_block : InfoBlock (fun a => some (blockMemory oneTag a)) (blockMemory oneTag)
    (65536 + kernelVmaBase) 72 [8] :=
  ⟨by decide +kernel, .tag (by decide +kernel) (by decide +kernel) (by decide +kernel)
    (.total (by decide +kernel) (by decide +kernel)), ⟨by decide +kernel, readable_total _ _ _⟩⟩

theorem twoTags_block : InfoBlock (fun a => some (blockMemory twoTags a)) (blockMemory twoTags)
    (65536 + kernelVmaBase) 88 [8, 48] :=
  ⟨by decide +kernel, .tag (by decide +kernel) (by decide +kernel) (by decide +kernel)
    (.tag (by decide +kernel) (by decide +kernel) (by decide +kernel)
      (.total (by decide +kernel) (by decide +kernel))), ⟨by decide +kernel, readable_total _ _ _⟩⟩

theorem oneTag_describes : Describes (blockMemory oneTag) (65536 + kernelVmaBase) [8] twoRegions where
  stride := by decide +kernel
  whole := by
    intro o ho
    obtain rfl : o = 8 := List.mem_singleton.mp (List.mem_filter.mp ho).1
    exact ⟨2, by decide +kernel⟩
  entries := by decide +kernel

theorem twoTags_describes :
    Describes (blockMemory twoTags) (65536 + kernelVmaBase) [8, 48] twoRegions where
  stride := by decide +kernel
  whole := by
    intro o ho
    rcases List.mem_pair.mp (List.mem_filter.mp ho).1 with rfl | rfl
    · exact ⟨1, by decide +kernel⟩
    · exact ⟨1, by decide +kernel⟩
  entries := by decide +kernel

/-- Low memory in one memory map and high memory in another. -/
def lowAndHigh : List Byte :=
  [88, 0, 0, 0, 0, 0, 0, 0] ++ [6, 0, 0, 0, 40, 0, 0, 0, 24, 0, 0, 0, 0, 0, 0, 0] ++
  [0, 0, 0, 0, 0, 0, 0, 0, 0, 0xfc, 9, 0, 0, 0, 0, 0, 1, 0, 0, 0, 0, 0, 0, 0] ++
  [6, 0, 0, 0, 40, 0, 0, 0, 24, 0, 0, 0, 0, 0, 0, 0] ++
  [0, 0, 0x10, 0, 0, 0, 0, 0, 0, 0, 0xee, 7, 0, 0, 0, 0, 1, 0, 0, 0, 0, 0, 0, 0]

def lowHighRegions : List MmapEntry := [⟨0, 0x9fc00, 1⟩, ⟨0x100000, 0x7ee0000, 1⟩]

theorem lowAndHigh_block : InfoBlock (fun a => some (blockMemory lowAndHigh a))
    (blockMemory lowAndHigh) (65536 + kernelVmaBase) 88 [8, 48] :=
  ⟨by decide +kernel, .tag (by decide +kernel) (by decide +kernel) (by decide +kernel)
    (.tag (by decide +kernel) (by decide +kernel) (by decide +kernel)
      (.total (by decide +kernel) (by decide +kernel))), ⟨by decide +kernel, readable_total _ _ _⟩⟩

theorem lowAndHigh_describes :
    Describes (blockMemory lowAndHigh) (65536 + kernelVmaBase) [8, 48] lowHighRegions where
  stride := by decide +kernel
  whole := by
    intro o ho
    rcases List.mem_pair.mp (List.mem_filter.mp ho).1 with rfl | rfl
    · exact ⟨1, by decide +kernel⟩
    · exact ⟨1, by decide +kernel⟩
  entries := by decide +kernel

/-- The regions leave the same state from one memory map and from two. -/
theorem layouts_agree_iff_sample :
    SameState (fun a => some (wordMemory (65536 + kernelVmaBase) (mapWord lowHighRegions) a)) 65536
      (fun a => some (blockMemory lowAndHigh a)) 65536 :=
  ((layouts_agree_iff lowAndHigh_block lowAndHigh_describes (by decide)).1 (by
      unfold EntriesOf24
      decide +kernel) _ _ _ (singleMap_wordMemory (by decide) (by decide))).mpr
    (by decide +kernel)

/-- The map that is split over two tags leaves another state. -/
theorem split_map_differs : ¬ ∀ (w₁ w₂ : Word → Option Byte) (m₁ m₂ : Mem) (mbtInfo₁ mbtInfo₂ : Word)
    (total₁ total₂ o : ℕ) (os₁ os₂ : List ℕ) (es : List MmapEntry),
    InfoBlock w₁ m₁ (mbtInfo₁ + kernelVmaBase) total₁ os₁ →
    Describes m₁ (mbtInfo₁ + kernelVmaBase) os₁ es →
    mmapTags m₁ (mbtInfo₁ + kernelVmaBase) os₁ = [o] →
    tagEntrySize m₁ (mbtInfo₁ + kernelVmaBase) o = 24 →
    InfoBlock w₂ m₂ (mbtInfo₂ + kernelVmaBase) total₂ os₂ →
    Describes m₂ (mbtInfo₂ + kernelVmaBase) os₂ es → (highZones es).length ≤ 10 →
    SameState w₁ mbtInfo₁ w₂ mbtInfo₂ := by
  intro hall
  have hone : SingleMap (fun a => some (blockMemory oneTag a)) (blockMemory oneTag) 65536 twoRegions :=
    ⟨72, [8], 8, oneTag_block, oneTag_describes, by decide +kernel, by decide +kernel⟩
  have h24 : EntriesOf24 (blockMemory twoTags) (65536 + kernelVmaBase) [8, 48] := by
    unfold EntriesOf24
    decide +kernel
  have hsame := hall _ _ _ _ 65536 65536 _ _ 8 _ _ _ oneTag_block oneTag_describes
    (by decide +kernel) (by decide +kernel) twoTags_block twoTags_describes (by decide)
  have hsingle := (sameState_iff hone twoTags_block twoTags_describes h24 (by decide)).mp hsame
  exact absurd hsingle (by decide +kernel)

end Rix
