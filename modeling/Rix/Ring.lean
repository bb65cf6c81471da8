import Mathlib.Tactic
import Mathlib.Data.List.Nodup

/-!
# Rings of links

A store of forward and backward links over an arbitrary type of nodes. A ring is
a head followed by a sequence of distinct nodes, closed by the links in both
directions. Every node of a ring may be taken for its head, so each update is
proved once, at the head, where a neighbour that coincides with it is the empty
case of the sequence.
-/
namespace Rings

variable {α : Type*}

/-- One map for each field of a doubly linked node. -/
structure Links (α : Type*) where
  next : α → α
  prev : α → α

namespace Links

variable [DecidableEq α]

def setNext (L : Links α) (a v : α) : Links α :=
  { L with next := fun x => if x = a then v else L.next x }

def setPrev (L : Links α) (a v : α) : Links α :=
  { L with prev := fun x => if x = a then v else L.prev x }

@[simp] theorem setNext_next (L : Links α) (a v x : α) :
    (L.setNext a v).next x = if x = a then v else L.next x := rfl
@[simp] theorem setNext_prev (L : Links α) (a v : α) : (L.setNext a v).prev = L.prev := rfl
@[simp] theorem setPrev_prev (L : Links α) (a v x : α) :
    (L.setPrev a v).prev x = if x = a then v else L.prev x := rfl
@[simp] theorem setPrev_next (L : Links α) (a v : α) : (L.setPrev a v).next = L.next := rfl

/-- The two stores agree on both links of `x`. -/
def AgreeAt (L L' : Links α) (x : α) : Prop := L'.next x = L.next x ∧ L'.prev x = L.prev x

omit [DecidableEq α] in
theorem AgreeAt.refl (L : Links α) (x : α) : AgreeAt L L x := ⟨rfl, rfl⟩

omit [DecidableEq α] in
theorem AgreeAt.trans {L L' L'' : Links α} {x : α} (h : AgreeAt L L' x) (h' : AgreeAt L' L'' x) :
    AgreeAt L L'' x := ⟨h'.1.trans h.1, h'.2.trans h.2⟩

/-- The same nodes read in the opposite direction. -/
def mirror (L : Links α) : Links α := ⟨L.prev, L.next⟩

/-- Links `n` between `a` and the node after it. -/
def linkAfter (L : Links α) (a n : α) : Links α :=
  (((L.setNext n (L.next a)).setPrev n a).setPrev (L.next a) n).setNext a n

/-- Links `n` between `a` and the node before it. -/
def linkBefore (L : Links α) (a n : α) : Links α := (L.mirror.linkAfter a n).mirror

/-- Joins the neighbours of `a`; the links of `a` itself stay as they were. -/
def unlink (L : Links α) (a : α) : Links α :=
  (L.setPrev (L.next a) (L.prev a)).setNext (L.prev a) (L.next a)

/-- Puts `n` between the neighbours of `a`. -/
def substitute (L : Links α) (a n : α) : Links α :=
  (((L.setNext n (L.next a)).setPrev n (L.prev a)).setNext (L.prev a) n).setPrev (L.next a) n

end Links

/-- The links lead from `a` through `xs` to `b`, forward and back. -/
def Seg (L : Links α) : α → List α → α → Prop
  | a, [], b => L.next a = b ∧ L.prev b = a
  | a, x :: xs, b => L.next a = x ∧ L.prev x = a ∧ Seg L x xs b

theorem seg_append {L : Links α} {a b y : α} {xs ys : List α} :
    Seg L a (xs ++ y :: ys) b ↔ Seg L a xs y ∧ Seg L y ys b := by
  induction xs generalizing a with
  | nil => simp only [List.nil_append, Seg, and_assoc]
  | cons x xs ih => simp only [List.cons_append, Seg, ih, and_assoc]

theorem Seg.congr {L L' : Links α} {a b : α} {xs : List α} (h : Seg L a xs b)
    (hn : ∀ x ∈ a :: xs, L'.next x = L.next x) (hp : ∀ x ∈ xs ++ [b], L'.prev x = L.prev x) :
    Seg L' a xs b := by
  induction xs generalizing a with
  | nil => exact ⟨(hn a (by simp)).trans h.1, (hp b (by simp)).trans h.2⟩
  | cons x xs ih =>
      obtain ⟨ha, hx, h⟩ := h
      refine ⟨(hn a (by simp)).trans ha, (hp x (by simp)).trans hx, ih h ?_ ?_⟩
      · exact fun y hy => hn y (List.mem_cons_of_mem a hy)
      · exact fun y hy => hp y (List.mem_cons_of_mem x hy)

theorem Seg.mirror {L : Links α} {a b : α} {xs : List α} (h : Seg L a xs b) :
    Seg L.mirror b xs.reverse a := by
  induction xs generalizing a with
  | nil => exact ⟨h.2, h.1⟩
  | cons x xs ih =>
      rw [List.reverse_cons, seg_append]
      exact ⟨ih h.2.2, h.2.1, h.1⟩

theorem Seg.unique {L : Links α} {a b : α} {xs ys : List α} (h : Seg L a xs b)
    (h' : Seg L a ys b) (hx : b ∉ xs) (hy : b ∉ ys) : xs = ys := by
  induction xs generalizing a ys with
  | nil =>
      cases ys with
      | nil => rfl
      | cons y ys => exact absurd (h.1.symm.trans h'.1) (by simpa using fun e => hy (by simp [e]))
  | cons x xs ih =>
      cases ys with
      | nil => exact absurd (h'.1.symm.trans h.1) (by simpa using fun e => hx (by simp [e]))
      | cons y ys =>
          have hxy : x = y := h.1.symm.trans h'.1
          subst hxy
          rw [ih h.2.2 h'.2.2 (fun m => hx (List.mem_cons_of_mem x m))
            (fun m => hy (List.mem_cons_of_mem x m))]

/-- A head and a sequence of distinct nodes, closed into a ring. -/
structure Ring (L : Links α) (h : α) (xs : List α) : Prop where
  nodup : (h :: xs).Nodup
  seg : Seg L h xs h

namespace Ring

variable {L L' : Links α} {h a n : α} {xs ys : List α}

theorem unique (hx : Ring L h xs) (hy : Ring L h ys) : xs = ys :=
  hx.seg.unique hy.seg (List.nodup_cons.mp hx.nodup).1 (List.nodup_cons.mp hy.nodup).1

theorem congr (hr : Ring L h xs) (hag : ∀ x ∈ h :: xs, L.AgreeAt L' x) : Ring L' h xs := by
  refine ⟨hr.nodup, hr.seg.congr (fun x hx => (hag x hx).1) (fun x hx => (hag x ?_).2)⟩
  rcases List.mem_append.mp hx with hx | hx
  · exact List.mem_cons_of_mem h hx
  · rw [List.mem_singleton.mp hx]; exact List.mem_cons_self

theorem mirror (hr : Ring L h xs) : Ring L.mirror h xs.reverse := by
  refine ⟨?_, hr.seg.mirror⟩
  have := hr.nodup
  simpa only [List.nodup_cons, List.mem_reverse, List.nodup_reverse] using this

/-- Any member may be taken for the head. -/
theorem rotate (hr : Ring L h (xs ++ a :: ys)) : Ring L a (ys ++ h :: xs) := by
  refine ⟨?_, seg_append.mpr (seg_append.mp hr.seg).symm⟩
  have hp : (h :: (xs ++ a :: ys)).Perm (a :: (ys ++ h :: xs)) := by
    rw [← List.cons_append, ← List.cons_append]
    exact List.perm_append_comm
  exact hp.nodup_iff.mp hr.nodup

theorem next_head (hr : Ring L h xs) : L.next h = xs.head?.getD h := by
  cases xs with
  | nil => exact hr.seg.1
  | cons x xs => exact hr.seg.1

theorem prev_head (hr : Ring L h xs) : L.prev h = xs.getLast?.getD h := by
  have := hr.mirror.next_head
  rwa [List.head?_reverse] at this

theorem next_eq (hr : Ring L h (xs ++ a :: ys)) : L.next a = ys.head?.getD h := by
  have := hr.rotate.next_head
  cases ys <;> simpa using this

/-- The head is linked to itself exactly when the ring has no other node. -/
theorem next_eq_head (hr : Ring L h xs) : L.next h = h ↔ xs = [] := by
  rw [hr.next_head]
  cases xs with
  | nil => simp
  | cons x xs =>
      have hne : x ≠ h := fun e => (List.nodup_cons.mp hr.nodup).1 (by simp [e])
      simpa using hne

theorem prev_eq_head (hr : Ring L h xs) : L.prev h = h ↔ xs = [] :=
  hr.mirror.next_eq_head.trans List.reverse_eq_nil_iff

theorem next_head_mem (hr : Ring L h xs) (hx : xs ≠ []) : L.next h ∈ xs := by
  rw [hr.next_head]
  cases xs with
  | nil => exact absurd rfl hx
  | cons x xs => simp

theorem next_mem (hr : Ring L h xs) (ha : a ∈ h :: xs) : L.next a ∈ h :: xs := by
  by_cases hah : a = h
  · subst hah
    by_cases hx : xs = []
    · rw [hr.next_eq_head.mpr hx]; exact ha
    · exact List.mem_cons_of_mem a (hr.next_head_mem hx)
  · obtain ⟨ys, zs, rfl⟩ := List.append_of_mem ((List.mem_cons.mp ha).resolve_left hah)
    have := hr.rotate.next_head_mem (by simp)
    simp only [List.mem_append, List.mem_cons] at this ⊢
    tauto

theorem prev_mem (hr : Ring L h xs) (ha : a ∈ h :: xs) : L.prev a ∈ h :: xs := by
  have := hr.mirror.next_mem (a := a) (by simpa using ha)
  rcases List.mem_cons.mp this with e | m
  · exact List.mem_cons.mpr (.inl e)
  · exact List.mem_cons_of_mem h (List.mem_reverse.mp m)

/-- The head and the sequence determine the links of the ring. -/
theorem agree (hr : Ring L h xs) (hr' : Ring L' h xs) (ha : a ∈ h :: xs) : L.AgreeAt L' a := by
  have head_agree : ∀ {k zs}, Ring L k zs → Ring L' k zs → L.AgreeAt L' k :=
    fun r r' => ⟨r'.next_head.trans r.next_head.symm, r'.prev_head.trans r.prev_head.symm⟩
  by_cases hah : a = h
  · exact hah ▸ head_agree hr hr'
  · obtain ⟨ys, zs, rfl⟩ := List.append_of_mem ((List.mem_cons.mp ha).resolve_left hah)
    exact head_agree hr.rotate hr'.rotate

theorem of_self (hn : L.next h = h) (hp : L.prev h = h) : Ring L h [] :=
  ⟨List.nodup_singleton h, hn, hp⟩

variable [DecidableEq α]

theorem linkAfter (hr : Ring L h xs) (hf : n ∉ h :: xs) : Ring (L.linkAfter h n) h (n :: xs) := by
  have hnh : n ≠ h := fun e => hf (by simp [e])
  have hnx : n ∉ xs := fun m => hf (List.mem_cons_of_mem h m)
  have hnd := List.nodup_cons.mp hr.nodup
  refine ⟨?_, ?_⟩
  · simp only [List.nodup_cons, List.mem_cons, not_or]
    exact ⟨⟨hnh.symm, hnd.1⟩, hnx, hnd.2⟩
  · cases xs with
    | nil =>
        obtain ⟨hn, -⟩ := hr.seg
        simp [Seg, Links.linkAfter, hn, hnh]
    | cons x xs =>
        obtain ⟨hn, -, hs⟩ := hr.seg
        have hxn : x ≠ n := fun e => hnx (by simp [e])
        have hxh : x ≠ h := fun e => hnd.1 (by simp [e])
        refine ⟨by simp [Links.linkAfter], by simp [Links.linkAfter, hn, hxn.symm], ?_⟩
        refine ⟨by simp [Links.linkAfter, hn, hnh], by simp [Links.linkAfter, hn], hs.congr ?_ ?_⟩
        · intro y hy
          have hyh : y ≠ h := fun e => hnd.1 (e ▸ hy)
          have hyn : y ≠ n := fun e => hnx (e ▸ hy)
          simp [Links.linkAfter, hyh, hyn]
        · intro y hy
          have hyx : y ≠ x := by
            rintro rfl
            rcases List.mem_append.mp hy with hy | hy
            · exact (List.nodup_cons.mp hnd.2).1 hy
            · exact hxh (List.mem_singleton.mp hy)
          have hyn : y ≠ n := by
            rintro rfl
            rcases List.mem_append.mp hy with hy | hy
            · exact hnx (List.mem_cons_of_mem x hy)
            · exact hnh (List.mem_singleton.mp hy)
          simp [Links.linkAfter, hn, hyx, hyn]

theorem linkBefore (hr : Ring L h xs) (hf : n ∉ h :: xs) :
    Ring (L.linkBefore h n) h (xs ++ [n]) := by
  have := (hr.mirror.linkAfter (n := n) (by simpa using hf)).mirror
  rwa [List.reverse_cons, List.reverse_reverse] at this

/-- The node after a deleted head takes its place. -/
theorem unlink {x : α} (hr : Ring L h (x :: xs)) : Ring (L.unlink h) x xs := by
  have hnd := List.nodup_cons.mp hr.nodup
  have hxs := List.nodup_cons.mp hnd.2
  obtain ⟨hn, -, hs⟩ := hr.seg
  refine ⟨hnd.2, ?_⟩
  -- the ring closes at its last member, which is split off
  rcases List.eq_nil_or_concat xs with rfl | ⟨ys, y, rfl⟩
  · simp [Seg, Links.unlink, hn, hs.2]
  · rw [List.concat_eq_append] at hs hxs ⊢
    obtain ⟨hs, -, hp⟩ := seg_append.mp hs
    refine seg_append.mpr ⟨hs.congr ?_ ?_, ?_, ?_⟩
    · intro z hz
      have hzy : z ≠ y := by
        rintro rfl
        rcases List.mem_cons.mp hz with rfl | hz
        · exact hxs.1 (by simp)
        · exact (List.nodup_append.mp hxs.2).2.2 z hz z (by simp) rfl
      simp [Links.unlink, hp, hzy]
    · intro z hz
      have hzx : z ≠ x := fun e => hxs.1 (e ▸ hz)
      simp [Links.unlink, hn, hzx]
    · simp [Links.unlink, hn, hp]
    · simp [Links.unlink, hn, hp]

/-- Putting a node in the place of another is linking it after the other, then deleting that. -/
theorem substitute (hr : Ring L h xs) (hx : xs ≠ []) (hf : n ∉ h :: xs) :
    Ring (L.substitute h n) n xs := by
  refine (hr.linkAfter hf).unlink.congr fun z hz => ?_
  have hnh : n ≠ h := fun e => hf (by simp [e])
  have hzh : z ≠ h := by
    rintro rfl
    rcases List.mem_cons.mp hz with rfl | hz
    · exact hnh rfl
    · exact (List.nodup_cons.mp hr.nodup).1 hz
  have hnext : L.next h ≠ h := fun e => hx (hr.next_eq_head.mp e)
  have hnn : L.next h ≠ n := fun e => hf (List.mem_cons_of_mem h (e ▸ hr.next_head_mem hx))
  constructor
  · simp only [Links.substitute, Links.unlink, Links.linkAfter, Links.setNext_next,
      Links.setPrev_next, Links.setNext_prev, Links.setPrev_prev, hzh, hnext.symm, hnh.symm, if_false,
      if_true]
  · by_cases hz : z = L.next h
    · simp [Links.substitute, Links.unlink, Links.linkAfter, hz, hnn]
    · by_cases hzn : z = n <;>
        simp [Links.substitute, Links.unlink, Links.linkAfter, hz, hzn, hnext.symm, hnh.symm, hnn.symm]

theorem linkAfter_mem (hr : Ring L h (xs ++ a :: ys)) (hf : n ∉ h :: (xs ++ a :: ys)) :
    Ring (L.linkAfter a n) h (xs ++ a :: n :: ys) := by
  have hf' : n ∉ a :: (ys ++ h :: xs) := by simp at hf ⊢; tauto
  have := hr.rotate.linkAfter hf'
  rw [← List.cons_append] at this
  exact this.rotate

theorem linkBefore_mem (hr : Ring L h (xs ++ a :: ys)) (hf : n ∉ h :: (xs ++ a :: ys)) :
    Ring (L.linkBefore a n) h (xs ++ n :: a :: ys) := by
  have hf' : n ∉ a :: (ys ++ h :: xs) := by simp at hf ⊢; tauto
  have := hr.rotate.linkBefore hf'
  rw [List.append_assoc, List.cons_append] at this
  simpa using this.rotate

theorem unlink_mem (hr : Ring L h (xs ++ a :: ys)) : Ring (L.unlink a) h (xs ++ ys) := by
  have hr' := hr.rotate
  cases ys with
  | nil => simpa using hr'.unlink
  | cons y ys => exact (Ring.unlink (by simpa using hr')).rotate

theorem substitute_mem (hr : Ring L h (xs ++ a :: ys)) (hf : n ∉ h :: (xs ++ a :: ys)) :
    Ring (L.substitute a n) h (xs ++ n :: ys) := by
  have hf' : n ∉ a :: (ys ++ h :: xs) := by simp at hf ⊢; tauto
  exact (hr.rotate.substitute (by simp) hf').rotate

end Ring

namespace Links

variable [DecidableEq α] {L : Links α} {a n x : α}

theorem linkAfter_frame (hn : x ≠ n) (ha : x ≠ a) (hx : x ≠ L.next a) :
    L.AgreeAt (L.linkAfter a n) x := by
  simp [AgreeAt, linkAfter, hn, ha, hx]

theorem linkBefore_frame (hn : x ≠ n) (ha : x ≠ a) (hx : x ≠ L.prev a) :
    L.AgreeAt (L.linkBefore a n) x :=
  (linkAfter_frame (L := L.mirror) hn ha hx).symm

theorem unlink_frame (hp : x ≠ L.prev a) (hx : x ≠ L.next a) : L.AgreeAt (L.unlink a) x := by
  simp [AgreeAt, unlink, hp, hx]

theorem substitute_frame (hn : x ≠ n) (hp : x ≠ L.prev a) (hx : x ≠ L.next a) :
    L.AgreeAt (L.substitute a n) x := by
  simp [AgreeAt, substitute, hn, hp, hx]

end Links

end Rings
