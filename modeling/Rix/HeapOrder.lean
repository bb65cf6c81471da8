import Mathlib.Data.BitVec
import Rix.Kheap

/-!
# The order of the kernel heap's free list

`heap_insert_free_chunk` looks for the first chunk that lies above the new one. When there is
none, the chunk goes to the front of the list, where a chunk below all others belongs.
-/
namespace Rix
open Rings Fuel

/-- Where a chunk goes in a list: before the first chunk above it, or to the front. -/
def placeChunk (xs : List Word) (c : Word) : List Word :=
  match xs.find? fun y => decide (c < y) with
  | some y => insertBefore y c xs
  | none => c :: xs

def insertChunks (freeList : Word) (fuel : Nat) (s : Pmm) (h : Kheap) :
    List Word → Option (Pmm × Kheap)
  | [] => some (s, h)
  | c :: cs => (heapInsertFreeChunk freeList fuel s h c).bind fun r =>
      insertChunks freeList fuel r.1 r.2 cs

/-- After every call the free list holds each inserted chunk once, in ascending order, and
`remaining` is the sum of their lengths. -/
def FreeListOrdered (freeList : Word) (s : Pmm) (h : Kheap) (chunks : List Word) : Prop :=
  ∀ done, done <+: chunks → ∃ s' h' xs,
    Settles (fun n => insertChunks freeList n s h done) (s', h') ∧ Ring s'.heap freeList xs ∧
    xs.Perm done ∧ xs.Pairwise (· < ·) ∧ h'.remaining = (done.map h.chunkLen).sum

section Lists

variable {xs : List Word} {c : Word}

theorem placeChunk_some {us vs : List Word} {y : Word} (hus : ∀ u ∈ us, ¬ c < u) (hy : c < y) :
    placeChunk (us ++ y :: vs) c = us ++ c :: y :: vs := by
  have hfind : (us ++ y :: vs).find? (fun y => decide (c < y)) = some y := by
    rw [List.find?_append, List.find?_eq_none.mpr fun u hu => by simpa using hus u hu]
    simp [hy]
  rw [placeChunk, hfind]
  exact insertBefore_split fun hm => hus y hm hy

theorem placeChunk_none (h : ∀ y ∈ xs, ¬ c < y) : placeChunk xs c = c :: xs := by
  rw [placeChunk, List.find?_eq_none.mpr fun y hy => by simpa using h y hy]

theorem exists_first_above {y : Word} (hy : y ∈ xs) (hlt : c < y) :
    ∃ us z vs, xs = us ++ z :: vs ∧ (∀ u ∈ us, ¬ c < u) ∧ c < z := by
  have hsome : (xs.find? fun y => decide (c < y)).isSome := List.find?_isSome.mpr ⟨y, hy, by simpa using hlt⟩
  obtain ⟨z, hz⟩ := Option.isSome_iff_exists.mp hsome
  obtain ⟨hcz, us, vs, rfl, hus⟩ := List.find?_eq_some_iff_append.mp hz
  exact ⟨us, z, vs, rfl, fun u hu => by simpa using hus u hu, of_decide_eq_true hcz⟩

theorem placeChunk_perm (xs : List Word) (c : Word) : (placeChunk xs c).Perm (c :: xs) := by
  by_cases h : ∃ y ∈ xs, c < y
  · obtain ⟨y, hy, hlt⟩ := h
    obtain ⟨us, z, vs, rfl, hus, hz⟩ := exists_first_above hy hlt
    rw [placeChunk_some hus hz]
    exact List.perm_middle
  · push Not at h
    rw [placeChunk_none h]

theorem foldl_placeChunk_perm (xs cs : List Word) :
    (cs.foldl placeChunk xs).Perm (cs ++ xs) := by
  induction cs generalizing xs with
  | nil => exact .refl _
  | cons c cs ih =>
      have hplace : (cs ++ placeChunk xs c).Perm (cs ++ c :: xs) := (placeChunk_perm xs c).append_left cs
      exact (ih _).trans (hplace.trans List.perm_middle)

/-- A chunk keeps the order only where some other lies above it. -/
theorem pairwise_placeChunk (hxs : xs.Pairwise (· < ·)) (hc : c ∉ xs) (hne : xs ≠ []) :
    (placeChunk xs c).Pairwise (· < ·) ↔ ∃ y ∈ xs, c < y := by
  constructor
  · intro hp
    by_contra hno
    push Not at hno
    obtain ⟨y, ys, rfl⟩ := List.exists_cons_of_ne_nil hne
    rw [placeChunk_none hno] at hp
    exact hno y List.mem_cons_self ((List.pairwise_cons.mp hp).1 y List.mem_cons_self)
  · rintro ⟨y, hy, hlt⟩
    obtain ⟨us, z, vs, rfl, hus, hz⟩ := exists_first_above hy hlt
    rw [placeChunk_some hus hz]
    obtain ⟨hus', hvs, hcross⟩ := List.pairwise_append.mp hxs
    refine List.pairwise_append.mpr ⟨hus', List.pairwise_cons.mpr ⟨?_, hvs⟩, ?_⟩
    · intro v hv
      rcases List.mem_cons.mp hv with rfl | hv
      · exact hz
      · exact BitVec.lt_trans hz ((List.pairwise_cons.mp hvs).1 v hv)
    · intro u hu v hv
      rcases List.mem_cons.mp hv with rfl | hv
      · have hne : u ≠ v := fun e => hc (List.mem_append_left _ (e ▸ hu))
        exact BitVec.lt_of_le_ne (BitVec.not_lt.mp (hus u hu)) hne
      · exact hcross u hu v hv

end Lists

/-- The order is kept through all insertions exactly when each goes below the first chunk. -/
theorem pairwise_foldl_iff {first : Word} {rest : List Word} (hnd : (first :: rest).Nodup) :
    (∀ done, done <+: first :: rest → (done.foldl placeChunk []).Pairwise (· < ·)) ↔
      ∀ c ∈ rest, c < first := by
  induction rest using List.reverseRecOn with
  | nil =>
      have hone : ∀ done, done <+: [first] → (done.foldl placeChunk []).Pairwise (· < ·) := by
        intro done hdone
        rcases List.prefix_cons_iff.mp hdone with rfl | ⟨t, rfl, ht⟩
        · exact List.Pairwise.nil
        · obtain rfl := List.prefix_nil.mp ht
          exact List.pairwise_singleton _ _
      exact iff_of_true hone (by simp)
  | append_singleton rest c ih =>
      rw [← List.cons_append, List.nodup_append] at hnd
      have hperm := foldl_placeChunk_perm [] (first :: rest)
      rw [List.append_nil] at hperm
      have hc : c ∉ (first :: rest).foldl placeChunk [] := fun hm =>
        hnd.2.2 c (hperm.mem_iff.mp hm) c (List.mem_singleton_self c) rfl
      have hne : (first :: rest).foldl placeChunk [] ≠ [] := fun e => by
        rw [e] at hperm
        exact List.cons_ne_nil _ _ (List.nil_perm.mp hperm)
      rw [← List.cons_append, List.forall_mem_append, List.forall_mem_singleton, ← ih hnd.1]
      simp only [List.prefix_concat_iff, or_imp, forall_and, forall_eq, List.foldl_concat]
      rw [and_comm]
      refine and_congr_right fun hall => ?_
      have hbelow := (ih hnd.1).mp hall
      rw [pairwise_placeChunk (hall _ (List.prefix_refl _)) hc hne]
      constructor
      · rintro ⟨y, hy, hlt⟩
        rcases List.mem_cons.mp (hperm.mem_iff.mp hy) with rfl | hy
        · exact hlt
        · exact BitVec.lt_trans hlt (hbelow y hy)
      · intro hlt
        exact ⟨first, hperm.mem_iff.mpr List.mem_cons_self, hlt⟩

section Calls

variable {freeList c : Word} {s : Pmm} {h : Kheap} {F : Family Word} {xs chunks : List Word}

/-- The search stops at the first chunk above the new one and links it before that. -/
theorem settles_insertLoop {H : ListHeap} (hr : Ring H freeList xs) (c : Word) :
    Settles (fun n => listForEach Prod.fst freeList (insertChunkBody c) n (H, false))
      (match xs.find? fun y => decide (c < y) with
        | some y => (listAddTail H y c, true)
        | none => (H, false)) := by
  obtain ⟨t, ht, rfl⟩ := settles_listForEach (fun st : ListHeap × Bool => st.1)
    (fun _ => insertChunkBody c)
    (fun rest st => st = (H, false) ∧ ∃ us, xs = us ++ rest ∧ ∀ u ∈ us, ¬ c < u)
    (fun st => st = match xs.find? fun y => decide (c < y) with
      | some y => (listAddTail H y c, true)
      | none => (H, false))
    (by
      rintro y ys st ⟨rfl, us, rfl, hus⟩
      by_cases hy : c < y
      · refine .inr ⟨(listAddTail H y c, true), .of_forall fun _ => if_pos hy, ?_⟩
        rw [List.find?_append, List.find?_eq_none.mpr fun u hu => by simpa using hus u hu]
        simp [hy]
      · refine .inl ⟨(H, false), .of_forall fun _ => if_neg hy, ⟨rfl, us ++ [y], by simp, ?_⟩, hr.next_eq⟩
        exact List.forall_mem_append.mpr ⟨hus, List.forall_mem_singleton.mpr hy⟩)
    (by
      rintro st ⟨rfl, us, rfl, hus⟩
      rw [List.append_nil, List.find?_eq_none.mpr fun u hu => by simpa using hus u hu])
    ⟨rfl, [], rfl, by simp⟩ hr.next_head (List.nodup_cons.mp hr.nodup).1
  exact ht

/-- One call puts the chunk in its place and counts its length. -/
theorem settles_heapInsertFreeChunk (hl : Lists s.heap F) (hF : F freeList = some xs)
    (hn : ¬ Linked F c) (h0 : c ≠ NULL) (h : Kheap) :
    ∃ s', Settles (fun n => heapInsertFreeChunk freeList n s h c)
        (s', { h with remaining := h.remaining + h.chunkLen c }) ∧
      Lists s'.heap (Function.update F freeList (some (placeChunk xs c))) := by
  have hring := hl.rep.ring hF
  obtain ⟨N, hN⟩ := settles_insertLoop hring c
  cases hfind : xs.find? fun y => decide (c < y) with
  | some y =>
      rw [hfind] at hN
      have hy : y ∈ freeList :: xs := List.mem_cons_of_mem _ (List.mem_of_find?_eq_some hfind)
      have hne : freeList ≠ y := fun e =>
        (List.nodup_cons.mp hring.nodup).1 (e ▸ List.mem_of_find?_eq_some hfind)
      have hadd := hl.addTail ⟨freeList, xs, hF, hy⟩ hn h0
      rw [hl.rep.insertBefore_eq hF hy, if_neg hne] at hadd
      refine ⟨{ s with heap := listAddTail s.heap y c }, ⟨N, fun n hn => ?_⟩, ?_⟩
      · simp only [heapInsertFreeChunk, hN n hn, Option.bind_eq_bind, Option.bind_some]
        rfl
      · rw [placeChunk, hfind]
        exact hadd
  | none =>
      rw [hfind] at hN
      have hhead : freeList ∈ freeList :: xs := List.mem_cons_self
      have hadd := hl.add ⟨freeList, xs, hF, hhead⟩ hn h0
      rw [hl.rep.insertAfter_eq hF hhead, if_pos rfl] at hadd
      refine ⟨{ s with heap := listAdd s.heap freeList c }, ⟨N, fun n hn => ?_⟩, ?_⟩
      · simp only [heapInsertFreeChunk, hN n hn, Option.bind_eq_bind, Option.bind_some]
        rfl
      · rw [placeChunk, hfind]
        exact hadd

theorem settles_insertChunks (hl : Lists s.heap F) (hF : F freeList = some xs)
    (hnd : chunks.Nodup) (hc : ∀ c ∈ chunks, ¬ Linked F c ∧ c ≠ NULL) :
    ∃ s', Settles (fun n => insertChunks freeList n s h chunks)
        (s', { h with remaining := h.remaining + (chunks.map h.chunkLen).sum }) ∧
      Lists s'.heap (Function.update F freeList (some (chunks.foldl placeChunk xs))) := by
  induction chunks generalizing s h F xs with
  | nil =>
      refine ⟨s, .of_forall fun n => ?_, ?_⟩
      · simp [insertChunks]
      · rwa [List.foldl_nil, Function.update_eq_self_iff.mpr hF.symm]
  | cons c cs ih =>
      obtain ⟨hc, hcs⟩ := List.forall_mem_cons.mp hc
      obtain ⟨hccs, hnd⟩ := List.nodup_cons.mp hnd
      obtain ⟨s₁, hset, hl₁⟩ := settles_heapInsertFreeChunk hl hF hc.1 hc.2 h
      have hcs₁ : ∀ d ∈ cs, ¬ Linked (Function.update F freeList (some (placeChunk xs c))) d ∧
          d ≠ NULL := by
        refine fun d hd => ⟨fun hlink => ?_, (hcs d hd).2⟩
        have hdc : d ≠ c := fun e => hccs (e ▸ hd)
        rcases linked_update hlink with hm | hlink
        · refine (hcs d hd).1 ⟨freeList, xs, hF, ?_⟩
          rw [List.mem_cons, (placeChunk_perm xs c).mem_iff, List.mem_cons] at hm
          exact List.mem_cons.mpr (hm.imp_right (Or.resolve_left · hdc))
        · exact (hcs d hd).1 hlink
      obtain ⟨s₂, hset₂, hl₂⟩ := ih (h := { h with remaining := h.remaining + h.chunkLen c }) hl₁
        (Function.update_self ..) hnd hcs₁
      refine ⟨s₂, ?_, ?_⟩
      · have hrun := hset.bind (g := fun n r => insertChunks freeList n r.1 r.2 cs) hset₂
        rwa [List.map_cons, List.sum_cons, ← BitVec.add_assoc]
      · rwa [Function.update_idem] at hl₂

theorem freeListOrdered_iff (hl : Lists s.heap F) (hF : F freeList = some []) (h0 : h.remaining = 0)
    (hnd : chunks.Nodup) (hc : ∀ c ∈ chunks, ¬ Linked F c ∧ c ≠ NULL) :
    FreeListOrdered freeList s h chunks ↔
      ∀ done, done <+: chunks → (done.foldl placeChunk []).Pairwise (· < ·) := by
  refine forall_congr' fun done => imp_congr_right fun hdone => ?_
  obtain ⟨s', hset, hl'⟩ := settles_insertChunks (h := h) hl hF (hdone.sublist.nodup hnd)
    fun c hm => hc c (hdone.subset hm)
  have hring := hl'.rep.ring (Function.update_self ..)
  constructor
  · rintro ⟨s'', h'', xs, hset', hr, -, hsorted, -⟩
    obtain ⟨rfl, -⟩ := Prod.mk.inj (hset.unique hset')
    exact hring.unique hr ▸ hsorted
  · intro hsorted
    refine ⟨s', _, _, hset, hring, ?_, hsorted, ?_⟩
    · simpa using foldl_placeChunk_perm [] done
    · simp [h0]

end Calls

/-- The free list stays in address order exactly when every later chunk lies below the first
one. -/
theorem heap_ordered_iff {freeList : Word} {s : Pmm} {h : Kheap} {F : Family Word}
    {chunks : List Word} (hl : Lists s.heap F) (hF : F freeList = some []) (h0 : h.remaining = 0)
    (hnd : chunks.Nodup) (hc : ∀ c ∈ chunks, ¬ Linked F c ∧ c ≠ NULL) :
    FreeListOrdered freeList s h chunks ↔
      ∀ first rest, chunks = first :: rest → ∀ c ∈ rest, c < first := by
  rw [freeListOrdered_iff hl hF h0 hnd hc]
  cases chunks with
  | nil =>
      refine iff_of_true (fun done hdone => ?_) (fun _ _ e => by cases e)
      obtain rfl := List.prefix_nil.mp hdone
      exact List.Pairwise.nil
  | cons first rest =>
      rw [pairwise_foldl_iff hnd]
      constructor
      · rintro hall _ _ ⟨⟩
        exact hall
      · exact fun hall => hall first rest rfl

theorem heap_ordered_iff_downward : ∃ H, FreeListOrdered 64 ⟨H, fun _ => ⟨0, 0, 0, 0⟩, fun _ => 0, 0⟩
    ⟨0, 0, 0, fun _ => 4096⟩ [0x3000, 0x1000, 0x2000] := by
  obtain ⟨H, hl⟩ := exists_lists [(64, [])] (by decide) (by decide)
  refine ⟨H, (heap_ordered_iff hl rfl rfl (by decide) fun c hc => ⟨fun hlink => ?_, ?_⟩).mpr ?_⟩
  · obtain rfl : c = 64 := by simpa [nodesOf] using linked_familyOf hlink
    exact absurd hc (by decide)
  · rintro rfl
    exact absurd hc (by decide)
  · rintro _ _ ⟨⟩
    simp

/-- A chunk above all others goes to the front. -/
theorem higher_chunk_first : ¬ ∀ (freeList : Word) (s : Pmm) (h : Kheap) (F : Family Word)
    (chunks : List Word), Lists s.heap F → F freeList = some [] → h.remaining = 0 →
    chunks.Nodup → (∀ c ∈ chunks, ¬ Linked F c ∧ c ≠ NULL) →
    FreeListOrdered freeList s h chunks := by
  intro hall
  obtain ⟨H, hl⟩ := exists_lists [(64, [])] (by decide) (by decide)
  have hnd : [(0x1000 : Word), 0x2000].Nodup := by decide
  have hc : ∀ c ∈ [(0x1000 : Word), 0x2000], ¬ Linked (familyOf [(64, [])]) c ∧ c ≠ NULL := by
    refine fun c hc => ⟨fun hlink => ?_, ?_⟩
    · obtain rfl : c = 64 := by simpa [nodesOf] using linked_familyOf hlink
      exact absurd hc (by decide)
    · rintro rfl
      exact absurd hc (by decide)
  have hord := hall 64 ⟨H, fun _ => ⟨0, 0, 0, 0⟩, fun _ => 0, 0⟩ ⟨0, 0, 0, fun _ => 4096⟩ _
    [0x1000, 0x2000] hl rfl rfl hnd hc
  rw [freeListOrdered_iff (F := familyOf [(64, [])]) hl rfl rfl hnd hc, pairwise_foldl_iff hnd] at hord
  exact absurd (hord 0x2000 (List.mem_singleton_self _)) (by decide)

end Rix
