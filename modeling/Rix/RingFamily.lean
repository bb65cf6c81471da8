import Rix.Ring
import Mathlib.Data.List.Basic

/-!
# Families of disjoint rings

A store represents a family of finite sequences when every head of the family
carries a ring with its sequence and no node lies in two of them. The updates of
`Rings.Links` then act on the family as the matching operations on sequences.
-/
namespace Rings

variable {α : Type*}

/-- The sequence carried by each head, if it is one. -/
abbrev Family (α : Type*) := α → Option (List α)

/-- `x` is a head or a member of some list of the family. -/
def Linked (F : Family α) (x : α) : Prop := ∃ h xs, F h = some xs ∧ x ∈ h :: xs

structure Represents (L : Links α) (F : Family α) : Prop where
  ring : ∀ {h xs}, F h = some xs → Ring L h xs
  disjoint : ∀ {h k xs ys x}, F h = some xs → F k = some ys → x ∈ h :: xs → x ∈ k :: ys → h = k

section Sequences

variable [DecidableEq α]

/-- Puts `n` after the first occurrence of `p`. -/
def insertAfter (p n : α) : List α → List α
  | [] => []
  | x :: xs => if x = p then x :: n :: xs else x :: insertAfter p n xs

/-- Puts `n` before the first occurrence of `p`. -/
def insertBefore (p n : α) : List α → List α
  | [] => []
  | x :: xs => if x = p then n :: x :: xs else x :: insertBefore p n xs

theorem insertAfter_split {p n : α} {xs ys : List α} (h : p ∉ xs) :
    insertAfter p n (xs ++ p :: ys) = xs ++ p :: n :: ys := by
  induction xs with
  | nil => simp [insertAfter]
  | cons x xs ih =>
      have hx : x ≠ p := fun e => h (by simp [e])
      simp [insertAfter, hx, ih (fun m => h (List.mem_cons_of_mem x m))]

theorem insertBefore_split {p n : α} {xs ys : List α} (h : p ∉ xs) :
    insertBefore p n (xs ++ p :: ys) = xs ++ n :: p :: ys := by
  induction xs with
  | nil => simp [insertBefore]
  | cons x xs ih =>
      have hx : x ≠ p := fun e => h (by simp [e])
      simp [insertBefore, hx, ih (fun m => h (List.mem_cons_of_mem x m))]

theorem insertAfter_of_notMem {p n : α} {xs : List α} (h : p ∉ xs) : insertAfter p n xs = xs := by
  induction xs with
  | nil => rfl
  | cons x xs ih =>
      have hx : x ≠ p := fun e => h (by simp [e])
      simp [insertAfter, hx, ih (fun m => h (List.mem_cons_of_mem x m))]

theorem insertBefore_of_notMem {p n : α} {xs : List α} (h : p ∉ xs) :
    insertBefore p n xs = xs := by
  induction xs with
  | nil => rfl
  | cons x xs ih =>
      have hx : x ≠ p := fun e => h (by simp [e])
      simp [insertBefore, hx, ih (fun m => h (List.mem_cons_of_mem x m))]

theorem mem_insertAfter {p n x : α} {xs : List α} (h : x ∈ insertAfter p n xs) :
    x = n ∨ x ∈ xs := by
  induction xs with
  | nil => cases h
  | cons y ys ih =>
      simp only [insertAfter] at h
      split at h
      · simp at h ⊢; tauto
      · rcases List.mem_cons.mp h with rfl | h
        · simp
        · exact (ih h).imp_right (List.mem_cons_of_mem y)

theorem mem_insertBefore {p n x : α} {xs : List α} (h : x ∈ insertBefore p n xs) :
    x = n ∨ x ∈ xs := by
  induction xs with
  | nil => cases h
  | cons y ys ih =>
      simp only [insertBefore] at h
      split at h
      · simp at h ⊢; tauto
      · rcases List.mem_cons.mp h with rfl | h
        · simp
        · exact (ih h).imp_right (List.mem_cons_of_mem y)

theorem mem_replace {p n x : α} {xs : List α} (h : x ∈ xs.replace p n) : x = n ∨ x ∈ xs := by
  by_cases hp : p ∈ xs
  · obtain ⟨us, vs, rfl, hus⟩ := List.eq_append_cons_of_mem hp
    rw [List.replace_append_right hus, List.replace_cons_self] at h
    simp at h ⊢; tauto
  · rw [List.replace_of_not_mem (by simpa using hp)] at h
    exact .inr h

theorem erase_split {p : α} {xs ys : List α} (h : p ∉ xs) :
    (xs ++ p :: ys).erase p = xs ++ ys := by
  rw [List.erase_append_right _ h, List.erase_cons_head]

theorem replace_split {p n : α} {xs ys : List α} (h : p ∉ xs) :
    (xs ++ p :: ys).replace p n = xs ++ n :: ys := by
  rw [List.replace_append_right h, List.replace_cons_self]

namespace Family

/-- `n` goes after the position `p`, which may be a head. -/
def insertAfter (F : Family α) (p n : α) : Family α := fun h =>
  (F h).map fun xs => if h = p then n :: xs else Rings.insertAfter p n xs

def insertBefore (F : Family α) (p n : α) : Family α := fun h =>
  (F h).map fun xs => if h = p then xs ++ [n] else Rings.insertBefore p n xs

def erase (F : Family α) (x : α) : Family α := fun h => (F h).map (List.erase · x)

def replace (F : Family α) (x n : α) : Family α := fun h => (F h).map (List.replace · x n)

end Family

end Sequences

namespace Represents

variable {L L' : Links α} {F : Family α} {h k p n x : α} {xs ys : List α}

theorem notMem_other (hr : Represents L F) (hh : F h = some xs) (hk : F k = some ys) (hne : k ≠ h)
    (hx : x ∈ h :: xs) : x ∉ k :: ys :=
  fun m => hne (hr.disjoint hk hh m hx)

theorem congr (hr : Represents L F) (hag : ∀ x, Linked F x → L.AgreeAt L' x) :
    Represents L' F :=
  ⟨fun {h xs} hF => (hr.ring hF).congr fun x hx => hag x ⟨h, xs, hF, hx⟩, hr.disjoint⟩

section Updates

variable [DecidableEq α]

/-- The one frame rule: a list is replaced by a ring on its own and on unlinked nodes. -/
theorem set (hr : Represents L F) (hring : Ring L' h ys)
    (hown : ∀ x ∈ h :: ys, (∃ xs, F h = some xs ∧ x ∈ h :: xs) ∨ ¬ Linked F x)
    (hag : ∀ k zs, k ≠ h → F k = some zs → ∀ x ∈ k :: zs, L.AgreeAt L' x) :
    Represents L' (Function.update F h (some ys)) := by
  have hsep : ∀ {k zs x}, k ≠ h → F k = some zs → x ∈ k :: zs → x ∉ h :: ys := by
    intro k zs x hk hz hx hy
    rcases hown x hy with ⟨xs, hF, hxs⟩ | hun
    · exact hk (hr.disjoint hz hF hx hxs)
    · exact hun ⟨k, zs, hz, hx⟩
  constructor
  · intro k zs hz
    by_cases hk : k = h
    · subst hk
      rw [Function.update_self, Option.some.injEq] at hz
      exact hz ▸ hring
    · rw [Function.update_of_ne hk] at hz
      exact (hr.ring hz).congr (hag k zs hk hz)
  · intro k l zs ws x hz hw hx hx'
    by_cases hk : k = h <;> by_cases hl : l = h
    · exact hk.trans hl.symm
    · subst hk
      rw [Function.update_self, Option.some.injEq] at hz
      rw [Function.update_of_ne hl] at hw
      exact absurd (hz ▸ hx) (hsep hl hw hx')
    · subst hl
      rw [Function.update_self, Option.some.injEq] at hw
      rw [Function.update_of_ne hk] at hz
      exact absurd (hw ▸ hx') (hsep hk hz hx)
    · rw [Function.update_of_ne hk] at hz
      rw [Function.update_of_ne hl] at hw
      exact hr.disjoint hz hw hx hx'

theorem drop (hr : Represents L F) (h : α) : Represents L (Function.update F h none) := by
  have hsub : ∀ {k zs}, Function.update F h none k = some zs → F k = some zs := by
    intro k zs hz
    by_cases hk : k = h
    · subst hk; simp at hz
    · rwa [Function.update_of_ne hk] at hz
  exact ⟨fun hz => hr.ring (hsub hz), fun hz hw => hr.disjoint (hsub hz) (hsub hw)⟩

/-- An operation that moves nothing in the other lists is an update at its own. -/
theorem map_eq_update {g : α → List α → List α} (hF : F h = some xs)
    (hg : ∀ k zs, k ≠ h → F k = some zs → g k zs = zs) :
    (fun k => (F k).map (g k)) = Function.update F h (some (g h xs)) := by
  funext k
  by_cases hk : k = h
  · subst hk; simp [hF]
  · rw [Function.update_of_ne hk]
    cases hz : F k with
    | none => rfl
    | some zs => simp [hg k zs hk hz]

theorem insertAfter_eq (hr : Represents L F) (hF : F h = some xs) (hp : p ∈ h :: xs) :
    F.insertAfter p n =
      Function.update F h (some (if h = p then n :: xs else insertAfter p n xs)) := by
  refine map_eq_update hF fun k zs hk hz => ?_
  have hpz := hr.notMem_other hF hz hk hp
  rw [if_neg (fun e => hpz (by simp [e])),
    insertAfter_of_notMem (fun m => hpz (List.mem_cons_of_mem k m))]

theorem insertBefore_eq (hr : Represents L F) (hF : F h = some xs) (hp : p ∈ h :: xs) :
    F.insertBefore p n =
      Function.update F h (some (if h = p then xs ++ [n] else insertBefore p n xs)) := by
  refine map_eq_update hF fun k zs hk hz => ?_
  have hpz := hr.notMem_other hF hz hk hp
  rw [if_neg (fun e => hpz (by simp [e])),
    insertBefore_of_notMem (fun m => hpz (List.mem_cons_of_mem k m))]

theorem erase_eq (hr : Represents L F) (hF : F h = some xs) (hx : x ∈ xs) :
    F.erase x = Function.update F h (some (xs.erase x)) :=
  map_eq_update (g := fun _ zs => zs.erase x) hF fun k _ hk hz =>
    List.erase_of_not_mem fun m =>
      hr.notMem_other hF hz hk (List.mem_cons_of_mem h hx) (List.mem_cons_of_mem k m)

theorem replace_eq (hr : Represents L F) (hF : F h = some xs) (hx : x ∈ xs) :
    F.replace x n = Function.update F h (some (xs.replace x n)) :=
  map_eq_update (g := fun _ zs => zs.replace x n) hF fun k zs hk hz =>
    List.replace_of_not_mem (by
      simpa using fun m =>
        hr.notMem_other hF hz hk (List.mem_cons_of_mem h hx) (List.mem_cons_of_mem k m))

/-- A list takes in at most one unlinked node, and only its own nodes and that one change. -/
theorem set_insert (hr : Represents L F) (hF : F h = some xs) (hn : ¬ Linked F n)
    (hring : Ring L' h ys) (hys : ∀ x ∈ ys, x = n ∨ x ∈ h :: xs)
    (hag : ∀ x, x ≠ n → x ∉ h :: xs → L.AgreeAt L' x) :
    Represents L' (Function.update F h (some ys)) := by
  refine hr.set hring (fun x hx => ?_) (fun k zs hk hz x hx => hag x ?_ ?_)
  · rcases List.mem_cons.mp hx with rfl | hx
    · exact .inl ⟨xs, hF, List.mem_cons_self⟩
    · rcases hys x hx with rfl | hx
      · exact .inr hn
      · exact .inl ⟨xs, hF, hx⟩
  · rintro rfl
    exact hn ⟨k, zs, hz, hx⟩
  · exact fun m => hr.notMem_other hF hz hk m hx

theorem pushFront (hr : Represents L F) (hF : F h = some xs) (hn : ¬ Linked F n) :
    Represents (L.linkAfter h n) (Function.update F h (some (n :: xs))) := by
  have hring := hr.ring hF
  refine hr.set_insert hF hn (hring.linkAfter fun m => hn ⟨h, xs, hF, m⟩) ?_ ?_
  · intro x hx
    simp at hx ⊢; tauto
  · intro x hxn hx
    exact Links.linkAfter_frame hxn (fun e => hx (e ▸ List.mem_cons_self))
      (fun e => hx (e ▸ hring.next_mem List.mem_cons_self))

theorem pushBack (hr : Represents L F) (hF : F h = some xs) (hn : ¬ Linked F n) :
    Represents (L.linkBefore h n) (Function.update F h (some (xs ++ [n]))) := by
  have hring := hr.ring hF
  refine hr.set_insert hF hn (hring.linkBefore fun m => hn ⟨h, xs, hF, m⟩) ?_ ?_
  · intro x hx
    simp at hx ⊢; tauto
  · intro x hxn hx
    exact Links.linkBefore_frame hxn (fun e => hx (e ▸ List.mem_cons_self))
      (fun e => hx (e ▸ hring.prev_mem List.mem_cons_self))

theorem linkAfter (hr : Represents L F) (hF : F h = some xs) (hp : p ∈ h :: xs)
    (hn : ¬ Linked F n) : Represents (L.linkAfter p n) (F.insertAfter p n) := by
  rw [hr.insertAfter_eq hF hp]
  by_cases hph : h = p
  · subst hph
    rw [if_pos rfl]
    exact hr.pushFront hF hn
  · rw [if_neg hph]
    have hring := hr.ring hF
    obtain ⟨us, vs, rfl, hus⟩ :=
      List.eq_append_cons_of_mem ((List.mem_cons.mp hp).resolve_left (Ne.symm hph))
    rw [insertAfter_split hus]
    refine hr.set_insert hF hn (hring.linkAfter_mem fun m => hn ⟨h, _, hF, m⟩) ?_ ?_
    · intro x hx
      simp at hx ⊢; tauto
    · exact fun x hxn hx => Links.linkAfter_frame hxn (fun e => hx (e ▸ hp))
        (fun e => hx (e ▸ hring.next_mem hp))

theorem linkBefore (hr : Represents L F) (hF : F h = some xs) (hp : p ∈ h :: xs)
    (hn : ¬ Linked F n) : Represents (L.linkBefore p n) (F.insertBefore p n) := by
  rw [hr.insertBefore_eq hF hp]
  by_cases hph : h = p
  · subst hph
    rw [if_pos rfl]
    exact hr.pushBack hF hn
  · rw [if_neg hph]
    have hring := hr.ring hF
    obtain ⟨us, vs, rfl, hus⟩ :=
      List.eq_append_cons_of_mem ((List.mem_cons.mp hp).resolve_left (Ne.symm hph))
    rw [insertBefore_split hus]
    refine hr.set_insert hF hn (hring.linkBefore_mem fun m => hn ⟨h, _, hF, m⟩) ?_ ?_
    · intro x hx
      simp at hx ⊢; tauto
    · exact fun x hxn hx => Links.linkBefore_frame hxn (fun e => hx (e ▸ hp))
        (fun e => hx (e ▸ hring.prev_mem hp))

theorem unlink (hr : Represents L F) (hF : F h = some xs) (hx : x ∈ xs) :
    Represents (L.unlink x) (F.erase x) := by
  rw [hr.erase_eq hF hx]
  have hring := hr.ring hF
  have hxh : x ∈ h :: xs := List.mem_cons_of_mem h hx
  obtain ⟨us, vs, rfl, hus⟩ := List.eq_append_cons_of_mem hx
  rw [erase_split hus]
  refine hr.set hring.unlink_mem (fun y hy => .inl ⟨_, hF, ?_⟩) fun k zs hk hz y hy => ?_
  · simp at hy ⊢; tauto
  · have hy' : y ∉ h :: (us ++ x :: vs) := fun m => hr.notMem_other hF hz hk m hy
    exact Links.unlink_frame (fun e => hy' (e ▸ hring.prev_mem hxh))
      (fun e => hy' (e ▸ hring.next_mem hxh))

theorem substitute (hr : Represents L F) (hF : F h = some xs) (hx : x ∈ xs)
    (hn : ¬ Linked F n) : Represents (L.substitute x n) (F.replace x n) := by
  rw [hr.replace_eq hF hx]
  have hring := hr.ring hF
  have hxh : x ∈ h :: xs := List.mem_cons_of_mem h hx
  obtain ⟨us, vs, rfl, hus⟩ := List.eq_append_cons_of_mem hx
  rw [replace_split hus]
  refine hr.set_insert hF hn (hring.substitute_mem fun m => hn ⟨h, _, hF, m⟩) ?_ ?_
  · intro y hy
    simp at hy ⊢; tauto
  · exact fun y hyn hy => Links.substitute_frame hyn (fun e => hy (e ▸ hring.prev_mem hxh))
      (fun e => hy (e ▸ hring.next_mem hxh))

theorem not_linked_erase (hr : Represents L F) (hF : F h = some xs) (hx : x ∈ xs) :
    ¬ Linked (F.erase x) x := by
  rw [hr.erase_eq hF hx]
  rintro ⟨k, zs, hz, hm⟩
  have hnd := List.nodup_cons.mp (hr.ring hF).nodup
  by_cases hk : k = h
  · subst hk
    rw [Function.update_self, Option.some.injEq] at hz
    subst hz
    rcases List.mem_cons.mp hm with rfl | hm
    · exact hnd.1 hx
    · exact hnd.2.not_mem_erase hm
  · rw [Function.update_of_ne hk] at hz
    exact hr.notMem_other hF hz hk (List.mem_cons_of_mem h hx) hm

end Updates

end Represents

end Rings
