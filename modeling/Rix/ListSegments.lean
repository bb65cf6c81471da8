import Rix.IntrusiveList
import Rix.RingSegments

/-!
# Segments of the circular list

`list_split_after`, `list_splice_after` and `list_move` of `list.h`, which move a part of a list
or all of it with a fixed number of link writes.
-/
namespace Rix
open Rings

def listSplitAfter (H : ListHeap) (list pos splitTo : Word) : ListHeap :=
  if H.next pos = list then listInit H splitTo
  else
    let H := H.setPrev splitTo (H.prev list)
    let H := H.setNext (H.prev splitTo) splitTo
    let H := H.setNext splitTo (H.next pos)
    let H := H.setPrev (H.next splitTo) splitTo
    let H := H.setNext pos list
    H.setPrev list pos

def listSpliceAfter (H : ListHeap) (spliceFrom pos : Word) : ListHeap :=
  if listIsEmpty H spliceFrom then H
  else
    let H := H.setPrev (H.next spliceFrom) pos
    let H := H.setNext (H.prev spliceFrom) (H.next pos)
    let H := H.setPrev (H.next pos) (H.prev spliceFrom)
    let H := H.setNext pos (H.next spliceFrom)
    listInit H spliceFrom

def listMove (H : ListHeap) (oldList newList : Word) : ListHeap :=
  listSpliceAfter (listInit H newList) oldList newList

section Updates

variable {H : ListHeap} {list pos splitTo spliceFrom : Word}

theorem listSplitAfter_eq (h : H.next pos ≠ list) (hl : pos ≠ H.prev list) :
    listSplitAfter H list pos splitTo = H.splitAfter list pos splitTo := by
  rw [listSplitAfter, if_neg h]
  simp [Links.splitAfter, hl]

theorem listSpliceAfter_eq (h : listIsEmpty H spliceFrom = false) (hn : H.next spliceFrom ≠ spliceFrom)
    (hp : H.prev spliceFrom ≠ spliceFrom) (hpos : pos ≠ H.prev spliceFrom) :
    listSpliceAfter H spliceFrom pos = H.spliceAfter spliceFrom pos := by
  rw [listSpliceAfter, if_neg (by rw [h]; decide)]
  simp [Links.spliceAfter, listInit, hn.symm, hp.symm, hpos]

end Updates

theorem linked_update_pair {F : Family Word} {h k x : Word} {ys zs : List Word}
    (hx : Linked (Function.update (Function.update F h (some ys)) k (some zs)) x) :
    x ∈ h :: ys ∨ x ∈ k :: zs ∨ Linked F x := by
  rcases linked_update hx with hx | hx
  · exact .inr (.inl hx)
  · exact (linked_update hx).imp_right .inr

namespace Lists

variable {H : ListHeap} {F : Family Word} {list splitTo spliceFrom k x : Word} {xs ys zs : List Word}

theorem splitAfter (hl : Lists H F) (hF : F list = some (xs ++ ys)) (hn : ¬ Linked F splitTo)
    (h0 : splitTo ≠ NULL) : Lists (listSplitAfter H list (xs.getLastD list) splitTo)
      (Function.update (Function.update F list (some xs)) splitTo (some ys)) := by
  have hr := hl.rep.ring hF
  cases ys with
  | nil =>
      rw [List.append_nil] at hF
      have hinit : listSplitAfter H list (xs.getLastD list) splitTo = listInit H splitTo :=
        if_pos hr.next_last
      have hsame : Function.update F list (some xs) = F := Function.update_eq_self_iff.mpr hF.symm
      rw [hinit, hsame]
      exact hl.init hn h0
  | cons y ys =>
      have hpos : xs.getLastD list ∈ list :: xs := List.getLastD_mem_cons ..
      have hlast : H.prev list = ys.getLastD y := by
        rw [hr.prev_head_eq]
        simp [List.getLast?_cons]
      have hlast' : ys.getLastD y ∈ y :: ys := List.getLastD_mem_cons ..
      have hnd := hr.nodup
      rw [← List.cons_append] at hnd
      rw [listSplitAfter_eq ?_ ?_]
      · refine ⟨hl.rep.splitAfter hF hn, fun hx => ?_⟩
        rcases linked_update_pair hx with hx | hx | hx
        · refine hl.notNull ⟨list, _, hF, ?_⟩
          simp only [List.mem_cons, List.mem_append] at hx ⊢
          tauto
        · rcases List.mem_cons.mp hx with rfl | hx
          · exact h0
          · exact hl.notNull ⟨list, _, hF, List.mem_cons_of_mem _ (List.mem_append_right _ hx)⟩
        · exact hl.notNull hx
      · rw [hr.next_last]
        exact fun e => (List.nodup_append.mp hnd).2.2 list List.mem_cons_self y List.mem_cons_self e.symm
      · rw [hlast]
        exact (List.nodup_append.mp hnd).2.2 _ hpos _ hlast'

theorem spliceAfter (hl : Lists H F) (hF : F list = some (xs ++ ys)) (hS : F spliceFrom = some zs)
    (hne : spliceFrom ≠ list) : Lists (listSpliceAfter H spliceFrom (xs.getLastD list))
      (Function.update (Function.update F list (some (xs ++ zs ++ ys))) spliceFrom (some [])) := by
  cases zs with
  | nil =>
      have hempty : listIsEmpty H spliceFrom = true := hl.isEmpty_eq hS
      have hsame : Function.update F list (some (xs ++ ys)) = F :=
        Function.update_eq_self_iff.mpr hF.symm
      rw [listSpliceAfter, if_pos hempty, List.append_nil, hsame,
        Function.update_eq_self_iff.mpr hS.symm]
      exact hl
  | cons z zs =>
      have hr := hl.rep.ring hS
      have hpos : xs.getLastD list ∈ list :: (xs ++ ys) := by
        have : xs.getLastD list ∈ list :: xs := List.getLastD_mem_cons ..
        simp only [List.mem_cons, List.mem_append] at this ⊢
        tauto
      have hlast : xs.getLastD list ≠ H.prev spliceFrom := fun e =>
        hl.rep.notMem_other hF hS hne hpos (e.symm ▸ hr.prev_mem List.mem_cons_self)
      rw [listSpliceAfter_eq (hl.isEmpty_eq hS) (fun e => by simpa using hr.next_eq_head.mp e)
        (fun e => by simpa using hr.prev_eq_head.mp e) hlast]
      refine ⟨hl.rep.spliceAfter hF hS hne, fun {x} hx => ?_⟩
      rcases linked_update_pair hx with hx | hx | hx
      · have hcases : x ∈ list :: (xs ++ ys) ∨ x ∈ spliceFrom :: z :: zs := by
          simp only [List.mem_cons, List.mem_append] at hx ⊢
          tauto
        exact hcases.elim (fun m => hl.notNull ⟨list, _, hF, m⟩) fun m => hl.notNull ⟨_, _, hS, m⟩
      · rw [List.mem_singleton] at hx
        exact hl.notNull ⟨spliceFrom, _, hS, hx ▸ List.mem_cons_self⟩
      · exact hl.notNull hx

theorem move (hl : Lists H F) {oldList newList : Word} (hF : F oldList = some xs)
    (hne : oldList ≠ newList) (hn : ¬ Linked (Function.update F newList none) newList)
    (h0 : newList ≠ NULL) : Lists (listMove H oldList newList)
      (Function.update (Function.update F newList (some xs)) oldList (some [])) := by
  have hdrop : Lists H (Function.update F newList none) := by
    refine ⟨hl.rep.drop newList, fun {x} hx => ?_⟩
    obtain ⟨k, zs, hk, hx⟩ := hx
    by_cases hkn : k = newList
    · rw [hkn, Function.update_self] at hk
      cases hk
    · rw [Function.update_of_ne hkn] at hk
      exact hl.notNull ⟨k, zs, hk, hx⟩
  have hinit := hdrop.init hn h0
  rw [Function.update_idem] at hinit
  have hnew : Function.update F newList (some []) newList = some ([] ++ []) := Function.update_self ..
  have hold : Function.update F newList (some []) oldList = some xs := by
    rw [Function.update_of_ne hne, hF]
  have hmove := hinit.spliceAfter hnew hold hne
  rwa [Function.update_idem, List.nil_append, List.append_nil] at hmove

theorem agree {H' : ListHeap} {F' : Family Word} (hl : Lists H F) (hl' : Lists H' F')
    (hk : F k = some zs) (hk' : F' k = some zs) (hx : x ∈ k :: zs) : H.AgreeAt H' x :=
  (hl.rep.ring hk).agree (hl'.rep.ring hk') hx

/-- Splitting behind a position and splicing the rest back restores the list. -/
theorem splitAfter_spliceAfter (hl : Lists H F) (hF : F list = some (xs ++ ys))
    (hn : ¬ Linked F splitTo) (h0 : splitTo ≠ NULL) :
    Lists (listSpliceAfter (listSplitAfter H list (xs.getLastD list) splitTo) splitTo
      (xs.getLastD list)) (Function.update F splitTo (some [])) := by
  have hne : splitTo ≠ list := fun e => hn (e ▸ ⟨list, _, hF, List.mem_cons_self⟩)
  have hprefix : Function.update (Function.update F list (some xs)) splitTo (some ys) list =
      some (xs ++ []) := by
    rw [Function.update_of_ne hne.symm, Function.update_self, List.append_nil]
  have hback := (hl.splitAfter hF hn h0).spliceAfter hprefix (Function.update_self ..) hne
  have hsame : Function.update F list (some (xs ++ ys)) = F := Function.update_eq_self_iff.mpr hF.symm
  rwa [List.append_nil, Function.update_comm hne.symm, Function.update_idem, Function.update_comm hne,
    Function.update_idem, hsame] at hback

end Lists

/-- The segment operations move exactly the segment: splitting behind the head or a member,
splicing behind the head or a member of another list, and moving a whole list; no other list is
touched, and splicing a segment back where it was split off restores the list. -/
theorem list_segments {H : ListHeap} {F : Family Word} (hl : Lists H F) :
    (∀ list pos splitTo xs, F list = some xs → pos ∈ list :: xs → ¬ Linked F splitTo → splitTo ≠ NULL →
      Lists (listSplitAfter H list pos splitTo)
        (Function.update (Function.update F list (some (upTo list pos xs))) splitTo
          (some (behind list pos xs))) ∧
      (∀ k zs, k ≠ list → F k = some zs → ∀ x ∈ k :: zs,
        H.AgreeAt (listSplitAfter H list pos splitTo) x) ∧
      Lists (listSpliceAfter (listSplitAfter H list pos splitTo) splitTo pos)
        (Function.update F splitTo (some []))) ∧
    (∀ spliceFrom list pos xs ys, F list = some xs → pos ∈ list :: xs → F spliceFrom = some ys →
      spliceFrom ≠ list →
      Lists (listSpliceAfter H spliceFrom pos)
        (Function.update (Function.update F list (some (upTo list pos xs ++ ys ++ behind list pos xs)))
          spliceFrom (some [])) ∧
      ∀ k zs, k ≠ list → k ≠ spliceFrom → F k = some zs → ∀ x ∈ k :: zs,
        H.AgreeAt (listSpliceAfter H spliceFrom pos) x) ∧
    ∀ oldList newList xs, F oldList = some xs → oldList ≠ newList →
      ¬ Linked (Function.update F newList none) newList → newList ≠ NULL →
      Lists (listMove H oldList newList)
        (Function.update (Function.update F newList (some xs)) oldList (some [])) ∧
      ∀ k zs, k ≠ oldList → k ≠ newList → F k = some zs → ∀ x ∈ k :: zs,
        H.AgreeAt (listMove H oldList newList) x := by
  refine ⟨fun list pos splitTo xs hF hpos hn h0 => ?_, fun spliceFrom list pos xs ys hF hpos hS hne => ?_,
    fun oldList newList xs hF hne hn h0 => ?_⟩
  · have hF' : F list = some (upTo list pos xs ++ behind list pos xs) := by
      rw [upTo_append_behind hpos, hF]
    have hsplit := hl.splitAfter hF' hn h0
    have hback := hl.splitAfter_spliceAfter hF' hn h0
    rw [getLastD_upTo] at hsplit hback
    refine ⟨hsplit, fun k zs hk hz x hx => hl.agree hsplit hz ?_ hx, hback⟩
    have hk' : k ≠ splitTo := by
      rintro rfl
      exact hn ⟨k, zs, hz, List.mem_cons_self⟩
    rw [Function.update_of_ne hk', Function.update_of_ne hk, hz]
  · have hF' : F list = some (upTo list pos xs ++ behind list pos xs) := by
      rw [upTo_append_behind hpos, hF]
    have hsplice := hl.spliceAfter hF' hS hne
    rw [getLastD_upTo] at hsplice
    refine ⟨hsplice, fun k zs hk hk' hz x hx => hl.agree hsplice hz ?_ hx⟩
    rw [Function.update_of_ne hk', Function.update_of_ne hk, hz]
  · have hmove := hl.move hF hne hn h0
    refine ⟨hmove, fun k zs hk hk' hz x hx => hl.agree hmove hz ?_ hx⟩
    rw [Function.update_of_ne hk, Function.update_of_ne hk', hz]

/-- A list of two is split between its nodes, or takes in the node of another list there. -/
theorem list_segments_split : ∃ H, Lists H (familyOf [(16, [32, 48]), (64, [80])]) ∧
    Lists (listSplitAfter H 16 32 96) (Function.update (Function.update
      (familyOf [(16, [32, 48]), (64, [80])]) 16 (some [32])) 96 (some [48])) ∧
    Lists (listSpliceAfter H 64 32) (Function.update (Function.update
      (familyOf [(16, [32, 48]), (64, [80])]) 16 (some [32, 80, 48])) 64 (some [])) := by
  obtain ⟨H, hl⟩ := exists_lists [(16, [32, 48]), (64, [80])] (by decide) (by decide)
  have h96 : ¬ Linked (familyOf [(16, [32, 48]), (64, [80])]) 96 := fun h =>
    absurd (linked_familyOf h) (by decide)
  obtain ⟨hsplit, hsplice, -⟩ := list_segments hl
  exact ⟨H, hl, (hsplit 16 32 96 [32, 48] rfl (by decide) h96 (by decide)).1,
    (hsplice 64 16 32 [32, 48] [80] rfl (by decide) rfl (by decide)).1⟩

end Rix
