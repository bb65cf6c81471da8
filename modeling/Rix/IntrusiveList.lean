import Rix.Fuel
import Rix.RingFamily
import Rix.Word

/-!
# The circular list of `list.h`

Each function is its sequence of field reads and writes, in the order of the
source, on a heap with one map for each field of `list_node_t`. On a heap that
represents disjoint lists they are the updates of `Rings.Links`.
-/
namespace Rix
open Rings Fuel

/-- The `list_node_t` at every address. -/
abbrev ListHeap := Links Word

def listInit (H : ListHeap) (list : Word) : ListHeap := (H.setNext list list).setPrev list list

def listIsEmpty (H : ListHeap) (list : Word) : Bool :=
  decide (H.prev list = list) && decide (H.next list = list)

def listAdd (H : ListHeap) (head newEntry : Word) : ListHeap :=
  let H := H.setNext newEntry (H.next head)
  let H := H.setPrev newEntry head
  let H := H.setPrev (H.next head) newEntry
  H.setNext head newEntry

def listAddTail (H : ListHeap) (head newEntry : Word) : ListHeap :=
  let H := H.setPrev newEntry (H.prev head)
  let H := H.setNext newEntry head
  let H := H.setNext (H.prev head) newEntry
  H.setPrev head newEntry

def listReplace (H : ListHeap) (oldEntry newEntry : Word) : ListHeap :=
  let H := H.setNext newEntry (H.next oldEntry)
  let H := H.setPrev newEntry (H.prev oldEntry)
  let H := H.setNext (H.prev oldEntry) newEntry
  H.setPrev (H.next oldEntry) newEntry

def listDelete (H : ListHeap) (entry : Word) : ListHeap :=
  let H := H.setPrev (H.next entry) (H.prev entry)
  let H := H.setNext (H.prev entry) (H.next entry)
  (H.setNext entry NULL).setPrev entry NULL

/-- The removed node, or `NULL`. -/
def listRemoveHead (H : ListHeap) (head : Word) : Word × ListHeap :=
  if H.next head ≠ head then
    let item := H.next head
    (item, listDelete H item)
  else (NULL, H)

def listRemoveTail (H : ListHeap) (list : Word) : Word × ListHeap :=
  if H.prev list ≠ list then
    let item := H.prev list
    (item, listDelete H item)
  else (NULL, H)

def listPeekHead (H : ListHeap) (list : Word) : Word :=
  if H.next list ≠ list then H.next list else NULL

def listPeekTail (H : ListHeap) (list : Word) : Word :=
  if H.prev list ≠ list then H.prev list else NULL

section Traversal

variable {σ : Type*}

/-- One pass of `list_for_each` at `pos`; the next position is read after the body. -/
def listForEachPass (heap : σ → ListHeap) (head : Word) (body : Word → σ → Option (Flow σ)) :
    Word × σ → Option (Flow (Word × σ))
  | (pos, s) =>
    if pos = head then some (.stop (pos, s))
    else match body pos s with
      | none => none
      | some (.next s') => some (.next ((heap s').next pos, s'))
      | some (.stop s') => some (.stop (pos, s'))

/-- `list_for_each` and `list_for_each_entry`, whose node is the first member of the entry.
A body that leaves the loop (`break`, `goto` or `return`) stops the flow. -/
def listForEach (heap : σ → ListHeap) (head : Word) (body : Word → σ → Option (Flow σ))
    (fuel : Nat) (s : σ) : Option σ :=
  (loop (listForEachPass heap head body) fuel ((heap s).next head, s)).map Prod.snd

/-- A traversal of the nodes still to come, with a body that keeps the way to the next one. -/
theorem settles_listForEach (heap : σ → ListHeap) {head : Word}
    (body : Nat → Word → σ → Option (Flow σ)) (inv : List Word → σ → Prop) (post : σ → Prop)
    (hbody : ∀ z zs s, inv (z :: zs) s →
      (∃ s', Settles (fun n => body n z s) (.next s') ∧ inv zs s' ∧
        (heap s').next z = zs.head?.getD head) ∨
      ∃ t, Settles (fun n => body n z s) (.stop t) ∧ post t)
    (hend : ∀ s, inv [] s → post s) {zs : List Word} {s : σ} (hs : inv zs s)
    (hfirst : (heap s).next head = zs.head?.getD head) (hne : head ∉ zs) :
    ∃ t, Settles (fun n => listForEach heap head (body n) n s) t ∧ post t := by
  suffices h : ∃ p t, LoopSettles (fun n => listForEachPass heap head (body n))
      (zs.head?.getD head, s) (p, t) ∧ post t by
    obtain ⟨p, t, hl, ht⟩ := h
    refine ⟨t, ?_, ht⟩
    simpa only [listForEach, hfirst] using hl.settles.map Prod.snd
  clear hfirst
  induction zs generalizing s with
  | nil =>
      refine ⟨head, s, .stop (.of_forall fun n => ?_), hend s hs⟩
      simp [listForEachPass]
  | cons z zs ih =>
      have hz : z ≠ head := fun e => hne (by simp [e])
      rcases hbody z zs s hs with ⟨s', hb, hs', hn⟩ | ⟨t, hb, ht⟩
      · obtain ⟨p, t, hl, ht⟩ := ih hs' fun m => hne (List.mem_cons_of_mem z m)
        refine ⟨p, t, .next ?_ hl, ht⟩
        obtain ⟨N, hN⟩ := hb
        exact ⟨N, fun n hn' => by simp [listForEachPass, hz, hN n hn', hn]⟩
      · refine ⟨z, t, .stop ?_, ht⟩
        obtain ⟨N, hN⟩ := hb
        exact ⟨N, fun n hn' => by simp [listForEachPass, hz, hN n hn']⟩

end Traversal

/-- `list_length`; the counter is a `size_t`. -/
def listLength (H : ListHeap) (list : Word) (fuel : Nat) : Option Word :=
  listForEach (fun _ => H) list (fun _ cnt => some (.next (cnt + 1))) fuel 0

theorem listAdd_eq {H : ListHeap} {head n : Word} (hn : head ≠ n) :
    listAdd H head n = H.linkAfter head n := by
  simp [listAdd, Links.linkAfter, hn]

theorem listAddTail_eq {H : ListHeap} {head n : Word} (hn : head ≠ n) :
    listAddTail H head n = H.linkBefore head n := by
  simp only [listAddTail, Links.linkBefore, Links.linkAfter, Links.mirror, Links.setNext,
    Links.setPrev, if_neg hn]
  rfl

theorem listReplace_eq {H : ListHeap} {old n : Word} (hn : old ≠ n) (hp : H.prev old ≠ old) :
    listReplace H old n = H.substitute old n := by
  simp [listReplace, Links.substitute, hn, hp.symm]

/-- The deleted node is cleared after its neighbours are joined. -/
theorem listDelete_eq {H : ListHeap} {x : Word} (hn : H.next x ≠ x) :
    listDelete H x = ((H.unlink x).setNext x NULL).setPrev x NULL := by
  simp [listDelete, Links.unlink, hn.symm]

/-- The heap represents disjoint lists, none of whose nodes is `NULL`. -/
structure Lists (H : ListHeap) (F : Family Word) : Prop where
  rep : Represents H F
  notNull : ∀ {x}, Linked F x → x ≠ NULL

theorem linked_update {F : Family Word} {h x : Word} {ys : List Word}
    (hx : Linked (Function.update F h (some ys)) x) : x ∈ h :: ys ∨ Linked F x := by
  obtain ⟨k, zs, hz, hx⟩ := hx
  by_cases hk : k = h
  · subst hk
    rw [Function.update_self, Option.some.injEq] at hz
    exact .inl (hz ▸ hx)
  · rw [Function.update_of_ne hk] at hz
    exact .inr ⟨k, zs, hz, hx⟩

namespace Lists

variable {H : ListHeap} {F : Family Word} {h p n x : Word} {xs ys : List Word}

theorem set (hl : Lists H F) (hF : F h = some xs) {H' : ListHeap}
    (hr : Represents H' (Function.update F h (some ys)))
    (hys : ∀ x ∈ ys, x ∈ xs ∨ x ≠ NULL) : Lists H' (Function.update F h (some ys)) := by
  refine ⟨hr, fun hx => ?_⟩
  rcases linked_update hx with hx | hx
  · rcases List.mem_cons.mp hx with rfl | hx
    · exact hl.notNull ⟨_, xs, hF, List.mem_cons_self⟩
    · rcases hys _ hx with hx | hx
      · exact hl.notNull ⟨h, xs, hF, List.mem_cons_of_mem h hx⟩
      · exact hx
  · exact hl.notNull hx

theorem init (hl : Lists H F) (hn : ¬ Linked F h) (h0 : h ≠ NULL) :
    Lists (listInit H h) (Function.update F h (some [])) := by
  refine ⟨hl.rep.set (.of_self ?_ ?_) ?_ ?_, fun hx => ?_⟩
  · simp [listInit]
  · simp [listInit]
  · intro x hx
    rw [List.mem_singleton] at hx
    exact .inr (hx ▸ hn)
  · intro k zs _ hz x hx
    have hxh : x ≠ h := fun e => hn (e ▸ ⟨k, zs, hz, hx⟩)
    simp [Links.AgreeAt, listInit, hxh]
  · rcases linked_update hx with hx | hx
    · rw [List.mem_singleton] at hx
      exact hx ▸ h0
    · exact hl.notNull hx

theorem ne_of_not_linked (hp : Linked F p) (hn : ¬ Linked F n) : p ≠ n :=
  fun e => hn (e ▸ hp)

theorem add (hl : Lists H F) (hp : Linked F p) (hn : ¬ Linked F n) (h0 : n ≠ NULL) :
    Lists (listAdd H p n) (F.insertAfter p n) := by
  obtain ⟨h, xs, hF, hpx⟩ := hp
  have hr := hl.rep.linkAfter hF hpx hn
  rw [listAdd_eq (ne_of_not_linked ⟨h, xs, hF, hpx⟩ hn)]
  rw [hl.rep.insertAfter_eq hF hpx] at hr ⊢
  refine hl.set hF hr fun x hx => ?_
  by_cases hxn : x = n
  · exact .inr (hxn ▸ h0)
  · refine .inl ?_
    split at hx
    · exact (List.mem_cons.mp hx).resolve_left hxn
    · exact (mem_insertAfter hx).resolve_left hxn

theorem addTail (hl : Lists H F) (hp : Linked F p) (hn : ¬ Linked F n) (h0 : n ≠ NULL) :
    Lists (listAddTail H p n) (F.insertBefore p n) := by
  obtain ⟨h, xs, hF, hpx⟩ := hp
  have hr := hl.rep.linkBefore hF hpx hn
  rw [listAddTail_eq (ne_of_not_linked ⟨h, xs, hF, hpx⟩ hn)]
  rw [hl.rep.insertBefore_eq hF hpx] at hr ⊢
  refine hl.set hF hr fun x hx => ?_
  by_cases hxn : x = n
  · exact .inr (hxn ▸ h0)
  · refine .inl ?_
    split at hx
    · simpa [hxn] using hx
    · exact (mem_insertBefore hx).resolve_left hxn

theorem next_ne (hl : Lists H F) (hF : F h = some xs) (hx : x ∈ xs) :
    H.next x ≠ x ∧ H.prev x ≠ x := by
  obtain ⟨us, vs, rfl⟩ := List.append_of_mem hx
  have hr := (hl.rep.ring hF).rotate
  exact ⟨fun e => by simpa using hr.next_eq_head.mp e, fun e => by simpa using hr.prev_eq_head.mp e⟩

theorem replace (hl : Lists H F) (hF : F h = some xs) (hx : x ∈ xs) (hn : ¬ Linked F n)
    (h0 : n ≠ NULL) : Lists (listReplace H x n) (F.replace x n) := by
  have hxl : Linked F x := ⟨h, xs, hF, List.mem_cons_of_mem h hx⟩
  have hr := hl.rep.substitute hF hx hn
  rw [listReplace_eq (ne_of_not_linked hxl hn) (hl.next_ne hF hx).2]
  rw [hl.rep.replace_eq hF hx] at hr ⊢
  refine hl.set hF hr fun y hy => ?_
  by_cases hyn : y = n
  · exact .inr (hyn ▸ h0)
  · exact .inl ((mem_replace hy).resolve_left hyn)

theorem delete (hl : Lists H F) (hF : F h = some xs) (hx : x ∈ xs) :
    Lists (listDelete H x) (F.erase x) ∧ ¬ Linked (F.erase x) x := by
  have hun := hl.rep.not_linked_erase hF hx
  refine ⟨?_, hun⟩
  have hr : Represents (listDelete H x) (F.erase x) := by
    rw [listDelete_eq (hl.next_ne hF hx).1]
    refine (hl.rep.unlink hF hx).congr fun y hy => ?_
    have hyx : y ≠ x := fun e => hun (e ▸ hy)
    simp [Links.AgreeAt, hyx]
  rw [hl.rep.erase_eq hF hx] at hr ⊢
  exact hl.set hF hr fun y hy => .inl (List.mem_of_mem_erase hy)

theorem removeHead_nil (hl : Lists H F) (hF : F h = some []) : listRemoveHead H h = (NULL, H) := by
  rw [listRemoveHead, if_neg (by simpa using (hl.rep.ring hF).next_head)]

theorem removeHead_cons (hl : Lists H F) (hF : F h = some (x :: xs)) :
    listRemoveHead H h = (x, listDelete H x) := by
  have hr := hl.rep.ring hF
  have hn : H.next h = x := hr.next_head
  rw [listRemoveHead, if_pos (fun e => by simpa using hr.next_eq_head.mp e)]
  simp only [hn]

theorem removeTail_nil (hl : Lists H F) (hF : F h = some []) : listRemoveTail H h = (NULL, H) := by
  rw [listRemoveTail, if_neg (by simpa using (hl.rep.ring hF).prev_head)]

theorem removeTail_concat (hl : Lists H F) (hF : F h = some (xs ++ [x])) :
    listRemoveTail H h = (x, listDelete H x) := by
  have hr := hl.rep.ring hF
  have hp : H.prev h = x := by simpa using hr.prev_head
  rw [listRemoveTail, if_pos (fun e => by simpa using hr.prev_eq_head.mp e)]
  simp only [hp]

theorem isEmpty_eq (hl : Lists H F) (hF : F h = some xs) : listIsEmpty H h = xs.isEmpty := by
  have hr := hl.rep.ring hF
  rw [Bool.eq_iff_iff]
  simp [listIsEmpty, hr.next_eq_head, hr.prev_eq_head]

theorem peekHead_eq (hl : Lists H F) (hF : F h = some xs) :
    listPeekHead H h = xs.head?.getD NULL := by
  have hr := hl.rep.ring hF
  cases xs with
  | nil => simp [listPeekHead, hr.next_eq_head.mpr rfl]
  | cons x xs =>
      have hne : H.next h ≠ h := fun e => by simpa using hr.next_eq_head.mp e
      simpa [listPeekHead, hne] using hr.next_head

theorem peekTail_eq (hl : Lists H F) (hF : F h = some xs) :
    listPeekTail H h = xs.getLast?.getD NULL := by
  have hr := hl.rep.ring hF
  by_cases hx : xs = []
  · subst hx
    simp [listPeekTail, hr.prev_eq_head.mpr rfl]
  · obtain ⟨ys, y, rfl⟩ := (List.eq_nil_or_concat xs).resolve_left hx
    have hne : H.prev h ≠ h := fun e => hx (hr.prev_eq_head.mp e)
    simpa [listPeekTail, hne] using hr.prev_head

/-- Distinct 64-bit addresses are fewer than `2^64`, so the length fits a `size_t`. -/
theorem length_lt (hl : Lists H F) (hF : F h = some xs) : xs.length < 2 ^ 64 := by
  have hnd := (hl.rep.ring hF).nodup
  have hinj : ((h :: xs).map BitVec.toNat).Nodup := hnd.map fun _ _ => BitVec.eq_of_toNat_eq
  have hsub : ((h :: xs).map BitVec.toNat) ⊆ List.range (2 ^ 64) := by
    intro a ha
    obtain ⟨b, -, rfl⟩ := List.mem_map.mp ha
    exact List.mem_range.mpr b.isLt
  have := (hinj.subperm hsub).length_le
  rw [List.length_map, List.length_range, List.length_cons] at this
  omega

theorem length_settles (hl : Lists H F) (hF : F h = some xs) :
    Settles (listLength H h) (BitVec.ofNat 64 xs.length) := by
  have hr := hl.rep.ring hF
  have hnd := List.nodup_cons.mp hr.nodup
  obtain ⟨t, ht, rfl⟩ := settles_listForEach (fun _ : Word => H)
    (fun _ _ cnt => some (.next (cnt + 1)))
    (fun zs cnt => ∃ us, xs = us ++ zs ∧ cnt = BitVec.ofNat 64 us.length)
    (fun cnt => cnt = BitVec.ofNat 64 xs.length)
    (by
      rintro z zs s ⟨us, rfl, rfl⟩
      refine .inl ⟨_, .of_forall fun _ => rfl, ⟨us ++ [z], by simp, ?_⟩, hr.next_eq⟩
      simp [BitVec.ofNat_add])
    (by rintro s ⟨us, rfl, rfl⟩; simp)
    (show ∃ us, xs = us ++ xs ∧ (0 : Word) = BitVec.ofNat 64 us.length from ⟨[], rfl, rfl⟩)
    hr.next_head hnd.1
  exact ht

end Lists

def nodesOf (rows : List (Word × List Word)) : List Word := rows.flatMap fun row => row.1 :: row.2

def familyOf (rows : List (Word × List Word)) : Family Word :=
  rows.foldr (fun row F => Function.update F row.1 (some row.2)) fun _ => none

theorem linked_familyOf {rows : List (Word × List Word)} {x : Word} (h : Linked (familyOf rows) x) :
    x ∈ nodesOf rows := by
  induction rows with
  | nil =>
      obtain ⟨k, zs, hz, -⟩ := h
      cases hz
  | cons row rows ih =>
      rw [nodesOf, List.flatMap_cons, List.mem_append]
      exact (linked_update h).imp_right ih

theorem Lists.exists_fill {H : ListHeap} {F : Family Word} {head : Word} {xs ys : List Word}
    (hl : Lists H F) (hF : F head = some xs) (hnd : ys.Nodup)
    (hys : ∀ y ∈ ys, ¬ Linked F y ∧ y ≠ NULL) :
    ∃ H', Lists H' (Function.update F head (some (xs ++ ys))) := by
  induction ys generalizing H F xs with
  | nil =>
      rw [List.append_nil, Function.update_eq_self_iff.mpr hF.symm]
      exact ⟨H, hl⟩
  | cons y ys ih =>
      have hhead : head ∈ head :: xs := List.mem_cons_self
      obtain ⟨hy, hys⟩ := List.forall_mem_cons.mp hys
      have hadd := hl.addTail ⟨head, xs, hF, hhead⟩ hy.1 hy.2
      rw [hl.rep.insertBefore_eq hF hhead, if_pos rfl] at hadd
      obtain ⟨H', hl'⟩ := ih hadd (Function.update_self ..) (List.nodup_cons.mp hnd).2 fun z hz => by
        refine ⟨fun hlink => ?_, (hys z hz).2⟩
        rcases linked_update hlink with hm | hlink
        · rw [← List.cons_append, List.mem_append, List.mem_singleton] at hm
          rcases hm with hm | rfl
          · exact (hys z hz).1 ⟨head, xs, hF, hm⟩
          · exact (List.nodup_cons.mp hnd).1 hz
        · exact (hys z hz).1 hlink
      refine ⟨H', ?_⟩
      rwa [Function.update_idem, List.append_assoc] at hl'

/-- Any lists of distinct nodes can be set up. -/
theorem exists_lists (rows : List (Word × List Word)) (hnd : (nodesOf rows).Nodup)
    (h0 : NULL ∉ nodesOf rows) : ∃ H, Lists H (familyOf rows) := by
  induction rows with
  | nil =>
      refine ⟨⟨id, id⟩, ⟨fun hF => ?_, fun hF => ?_⟩, fun ⟨k, zs, hz, _⟩ => ?_⟩
      · cases hF
      · cases hF
      · cases hz
  | cons row rows ih =>
      rw [nodesOf, List.flatMap_cons, List.nodup_append] at hnd
      rw [nodesOf, List.flatMap_cons, List.mem_append, not_or] at h0
      obtain ⟨H, hl⟩ := ih hnd.2.1 h0.2
      have hun : ∀ x ∈ row.1 :: row.2, ¬ Linked (familyOf rows) x := fun x hx hlink =>
        hnd.2.2 x hx x (linked_familyOf hlink) rfl
      have hne : ∀ x ∈ row.1 :: row.2, x ≠ NULL := fun x hx e => h0.1 (e ▸ hx)
      have hinit := hl.init (hun row.1 List.mem_cons_self) (hne row.1 List.mem_cons_self)
      obtain ⟨H', hl'⟩ := hinit.exists_fill (Function.update_self ..) (List.nodup_cons.mp hnd.1).2
        fun y hy => by
          refine ⟨fun hlink => ?_, hne y (List.mem_cons_of_mem _ hy)⟩
          rcases linked_update hlink with hm | hlink
          · exact (List.nodup_cons.mp hnd.1).1 (List.mem_singleton.mp hm ▸ hy)
          · exact hun y (List.mem_cons_of_mem _ hy) hlink
      rw [Function.update_idem, List.nil_append] at hl'
      exact ⟨H', hl'⟩

end Rix
