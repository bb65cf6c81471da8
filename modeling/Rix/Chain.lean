import Rix.Fuel

/-!
# Chains that end in a null link

A store of forward links over an arbitrary type of nodes. A chain follows the links through
finitely many nodes to the null link. Since the links are a function, a chain that ends at all
repeats no node.
-/
namespace Chains
open Fuel

variable {α σ : Type*} {next : α → α} {null p q x d : α} {l l' xs ys : List α}

/-- From `p` on the links lead through the nodes `l` to `null`. -/
inductive Chain (next : α → α) (null : α) : α → List α → Prop where
  | nil : Chain next null null []
  | cons {p : α} {l : List α} (hp : p ≠ null) (h : Chain next null (next p) l) :
      Chain next null p (p :: l)

namespace Chain

theorem eq_null (h : Chain next null p []) : p = null := by
  cases h
  rfl

theorem head_eq (h : Chain next null p (x :: l)) : p = x := by
  cases h
  rfl

theorem tail (h : Chain next null p (x :: l)) : Chain next null (next x) l := by
  cases h with
  | cons _ h => exact h

theorem null_not_mem (h : Chain next null p l) : null ∉ l := by
  induction h with
  | nil => exact List.not_mem_nil
  | cons hp _ ih =>
      intro hmem
      rcases List.mem_cons.mp hmem with heq | hmem
      · exact hp heq.symm
      · exact ih hmem

theorem ne_null_iff (h : Chain next null p l) : p ≠ null ↔ l ≠ [] := by
  cases h with
  | nil => exact ⟨fun hp => absurd rfl hp, fun hl => absurd rfl hl⟩
  | cons hp _ => exact ⟨fun _ => List.cons_ne_nil _ _, fun _ => hp⟩

theorem unique (h : Chain next null p l) (h' : Chain next null p l') : l = l' := by
  induction h generalizing l' with
  | nil =>
      cases h' with
      | nil => rfl
      | cons hp _ => exact absurd rfl hp
  | cons hp _ ih =>
      cases h' with
      | nil => exact absurd rfl hp
      | cons _ h' => rw [ih h']

theorem suffix (h : Chain next null p (xs ++ x :: ys)) : Chain next null x (x :: ys) := by
  induction xs generalizing p with
  | nil => exact h.head_eq ▸ h
  | cons y xs ih => exact ih h.tail

theorem nodup (h : Chain next null p l) : l.Nodup := by
  induction h with
  | nil => exact List.nodup_nil
  | @cons p l hp h ih =>
      refine List.nodup_cons.mpr ⟨fun hmem => ?_, ih⟩
      -- a second occurrence of the node would start the chain from the node once more
      obtain ⟨xs, ys, rfl⟩ := List.append_of_mem hmem
      have heq := congrArg List.length ((Chain.cons hp h).unique h.suffix)
      simp only [List.length_cons, List.length_append] at heq
      omega

theorem next_ne_of_before (h : Chain next null p (xs ++ x :: d :: ys)) (hq : q ∈ xs) : next q ≠ d := by
  rintro rfl
  obtain ⟨as, bs, rfl⟩ := List.append_of_mem hq
  have hd : Chain next null (next q) (next q :: ys) := (List.append_cons _ x _ ▸ h).suffix
  rw [List.append_assoc, List.cons_append] at h
  have heq := congrArg List.length (h.suffix.tail.unique hd)
  simp only [List.length_append, List.length_cons] at heq
  omega

theorem next_ne_of_not_mem (h : Chain next null p l) (hq : q ∈ l) (hd : d ≠ null) (hmem : d ∉ l) :
    next q ≠ d := by
  rintro rfl
  obtain ⟨as, bs, rfl⟩ := List.append_of_mem hq
  cases bs with
  | nil => exact hd h.suffix.tail.eq_null
  | cons b bs =>
      have hb : next q = b := h.suffix.tail.head_eq
      exact hmem (hb ▸ List.mem_append_right _ (.tail _ (.head _)))

/-- Links that leave the nodes of the chain alone leave the chain alone. -/
theorem congr {next' : α → α} (h : Chain next null p l) (hnext : ∀ x ∈ l, next' x = next x) :
    Chain next' null p l := by
  induction h with
  | nil => exact .nil
  | @cons p l hp h ih =>
      have htail := ih fun x hx => hnext x (.tail _ hx)
      exact .cons hp ((hnext p (.head _)).symm ▸ htail)

/-- A loop that goes along the links comes by every node of the chain, and by its end. -/
theorem loopSettles {body : ℕ → σ → Option (Flow σ)} (f : α → σ) {r : σ}
    (h : Chain next null p (xs ++ ys)) (hq : Chain next null q ys)
    (hstep : ∀ x ∈ xs, Settles (fun n => body n (f x)) (.next (f (next x))))
    (hend : LoopSettles body (f q) r) : LoopSettles body (f p) r := by
  induction xs generalizing p with
  | nil =>
      have hpq : p = q := by
        cases ys with
        | nil => exact h.eq_null.trans hq.eq_null.symm
        | cons y ys => exact h.head_eq.trans hq.head_eq.symm
      exact hpq ▸ hend
  | cons x xs ih =>
      have hp := h.head_eq
      subst hp
      exact .next (hstep p (.head _)) (ih h.tail fun y hy => hstep y (.tail _ hy))

variable [DecidableEq α]

theorem insertBehind (h : Chain next null p (p :: l)) (hx : x ≠ null) (hmem : x ∉ p :: l) :
    Chain (Function.update (Function.update next x (next p)) p x) null p (p :: x :: l) := by
  have hxp : x ≠ p := fun heq => hmem (heq ▸ .head _)
  have hp : p ∉ l := (List.nodup_cons.mp h.nodup).1
  cases h with
  | cons hp' h =>
      refine .cons hp' ?_
      rw [Function.update_self]
      refine .cons hx ?_
      rw [Function.update_of_ne hxp, Function.update_self]
      refine h.congr fun y hy => ?_
      have hyp : y ≠ p := by
        rintro rfl
        exact hp hy
      have hyx : y ≠ x := by
        rintro rfl
        exact hmem (.tail _ hy)
      rw [Function.update_of_ne hyp, Function.update_of_ne hyx]

theorem remove (h : Chain next null p (xs ++ x :: d :: ys)) :
    Chain (Function.update next x (next d)) null p (xs ++ x :: ys) := by
  induction xs generalizing p with
  | nil =>
      have hnodup := h.nodup
      cases h with
      | cons hp h =>
          refine .cons hp ?_
          rw [Function.update_self]
          refine h.tail.congr fun y hy => Function.update_of_ne ?_ _ _
          rintro rfl
          exact (List.nodup_cons.mp hnodup).1 (.tail _ hy)
  | cons y xs ih =>
      have hnodup := h.nodup
      cases h with
      | cons hp h =>
          refine .cons hp ?_
          have hne : y ≠ x := by
            rintro rfl
            exact (List.nodup_cons.mp hnodup).1 (List.mem_append_right _ (.head _))
          rw [Function.update_of_ne hne]
          exact ih h

end Chain

end Chains
