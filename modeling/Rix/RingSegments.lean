import Rix.RingFamily

/-!
# Segments of rings

The tail of a ring behind a position moves to a ring of its own, and the nodes of a ring
move into another one. In both updates every segment keeps its links but those at its ends.
-/
namespace Rings

variable {α : Type*}

namespace Links

variable [DecidableEq α]

/-- Moves the nodes behind `p` in the ring of `h` to the ring of `n`. -/
def splitAfter (L : Links α) (h p n : α) : Links α :=
  (((((L.setPrev n (L.prev h)).setNext (L.prev h) n).setNext n (L.next p)).setPrev (L.next p) n).setNext
    p h).setPrev h p

/-- Moves the nodes of the ring of `n` behind `p`. -/
def spliceAfter (L : Links α) (n p : α) : Links α :=
  (((((L.setPrev (L.next n) p).setNext (L.prev n) (L.next p)).setPrev (L.next p) (L.prev n)).setNext p
    (L.next n)).setNext n n).setPrev n n

theorem splitAfter_next (L : Links α) (h p n x : α) : (L.splitAfter h p n).next x =
    if x = p then h else if x = n then L.next p else if x = L.prev h then n else L.next x := rfl

theorem splitAfter_prev (L : Links α) (h p n x : α) : (L.splitAfter h p n).prev x =
    if x = h then p else if x = L.next p then n else if x = n then L.prev h else L.prev x := rfl

theorem spliceAfter_next (L : Links α) (n p x : α) : (L.spliceAfter n p).next x =
    if x = n then n else if x = p then L.next n else if x = L.prev n then L.next p else L.next x := rfl

theorem spliceAfter_prev (L : Links α) (n p x : α) : (L.spliceAfter n p).prev x =
    if x = n then n else if x = L.next p then L.prev n else if x = L.next n then p else L.prev x := rfl

end Links

section Positions

variable [DecidableEq α]

/-- The members up to and including the position `p`, none when `p` is the head. -/
def upTo (h p : α) (xs : List α) : List α :=
  if p = h then [] else xs.takeWhile (· ≠ p) ++ [p]

/-- The members behind the position `p`. -/
def behind (h p : α) (xs : List α) : List α :=
  if p = h then xs else (xs.dropWhile (· ≠ p)).tail

theorem upTo_append_behind {h p : α} {xs : List α} (hp : p ∈ h :: xs) :
    upTo h p xs ++ behind h p xs = xs := by
  unfold upTo behind
  by_cases hph : p = h
  · rw [if_pos hph, if_pos hph, List.nil_append]
  · rw [if_neg hph, if_neg hph]
    obtain ⟨us, vs, rfl, hus⟩ := List.eq_append_cons_of_mem ((List.mem_cons.mp hp).resolve_left hph)
    have hne : ∀ a ∈ us, decide (a ≠ p) = true := fun a ha =>
      decide_eq_true fun e => hus (e ▸ ha)
    rw [List.takeWhile_append_of_pos hne, List.dropWhile_append_of_pos hne]
    simp

theorem getLastD_upTo (h p : α) (xs : List α) : (upTo h p xs).getLastD h = p := by
  unfold upTo
  by_cases hph : p = h
  · rw [if_pos hph, List.getLastD_nil, hph]
  · rw [if_neg hph, List.getLastD_concat]

end Positions

theorem getLastD_mem_append (h : α) (xs ys : List α) : xs.getLastD h ∈ h :: (xs ++ ys) := by
  rw [← List.cons_append]
  exact List.mem_append_left ys (List.getLastD_mem_cons ..)

theorem headD_mem_append (h : α) (xs ys : List α) : ys.headD h ∈ h :: (xs ++ ys) := by
  cases ys with
  | nil => exact List.mem_cons_self
  | cons y ys => exact List.mem_cons_of_mem h (List.mem_append_right xs List.mem_cons_self)

/-- A segment leads to another node once its last link does. -/
theorem Seg.redirect {L L' : Links α} {a b b' : α} {xs : List α} (h : Seg L a xs b)
    (hnd : (a :: xs).Nodup)
    (hnext : ∀ x ∈ a :: xs, x ≠ xs.getLastD a → L'.next x = L.next x)
    (hlast : L'.next (xs.getLastD a) = b') (hprev : ∀ x ∈ xs, L'.prev x = L.prev x)
    (hback : L'.prev b' = xs.getLastD a) : Seg L' a xs b' := by
  induction xs generalizing a with
  | nil => exact ⟨hlast, hback⟩
  | cons x xs ih =>
      rw [List.getLastD_cons] at hnext hlast hback
      have hax : a ≠ xs.getLastD x := by
        intro e
        have hmem : xs.getLastD x ∈ x :: xs := List.getLastD_mem_cons ..
        exact (List.nodup_cons.mp hnd).1 (e ▸ hmem)
      exact ⟨(hnext a List.mem_cons_self hax).trans h.1, (hprev x List.mem_cons_self).trans h.2.1,
        ih h.2.2 (List.nodup_cons.mp hnd).2 (fun y hy => hnext y (List.mem_cons_of_mem a hy)) hlast
          (fun y hy => hprev y (List.mem_cons_of_mem x hy)) hback⟩

theorem Seg.front {L : Links α} {a b : α} {xs ys : List α} (h : Seg L a (xs ++ ys) b) :
    Seg L a xs (ys.headD b) := by
  cases ys with
  | nil => rwa [List.append_nil] at h
  | cons y ys => exact (seg_append.mp h).1

namespace Ring

variable {L : Links α} {h n y z : α} {xs ys zs : List α}

theorem next_last (hr : Ring L h (xs ++ ys)) : L.next (xs.getLastD h) = ys.headD h := by
  rw [List.headD_eq_head?_getD]
  rcases List.eq_nil_or_concat xs with rfl | ⟨us, a, rfl⟩
  · exact hr.next_head
  · rw [List.concat_eq_append, List.append_assoc] at hr
    rw [List.concat_eq_append, List.getLastD_concat]
    exact hr.next_eq

theorem prev_head_eq (hr : Ring L h xs) : L.prev h = xs.getLastD h := by
  rw [hr.prev_head, List.getLastD_eq_getLast?]

theorem prev_head_cons (hr : Ring L h (y :: ys)) : L.prev h = ys.getLastD y := by
  rw [hr.prev_head_eq, List.getLastD_cons]

theorem ne_headD (hr : Ring L h (xs ++ ys)) {x : α} (hx : x ∈ xs) : x ≠ ys.headD h := by
  obtain ⟨hnd, hsplit⟩ := List.nodup_cons.mp hr.nodup
  rintro rfl
  cases ys with
  | nil => exact hnd (List.mem_append_left [] hx)
  | cons y ys => exact (List.nodup_append.mp hsplit).2.2 _ hx _ List.mem_cons_self rfl

theorem ne_getLastD (hr : Ring L h (xs ++ ys)) {x : α} (hx : x ∈ ys) : x ≠ xs.getLastD h := by
  rintro rfl
  have hnd := hr.nodup
  rw [← List.cons_append] at hnd
  exact (List.nodup_append.mp hnd).2.2 _ (List.getLastD_mem_cons ..) _ hx rfl

variable [DecidableEq α]

/-- The ring up to a position and the ring of what lies behind it. -/
theorem splitAfter (hr : Ring L h (xs ++ y :: ys)) (hn : n ∉ h :: (xs ++ y :: ys)) :
    Ring (L.splitAfter h (xs.getLastD h) n) h xs ∧
    Ring (L.splitAfter h (xs.getLastD h) n) n (y :: ys) := by
  have hnext : L.next (xs.getLastD h) = y := hr.next_last
  have hprev : L.prev h = ys.getLastD y := by
    rw [hr.prev_head_eq]
    simp [List.getLast?_cons]
  obtain ⟨hnd, hsplit⟩ := List.nodup_cons.mp hr.nodup
  obtain ⟨hxs, hys, hsep⟩ := List.nodup_append.mp hsplit
  obtain ⟨hseg, hseg'⟩ := seg_append.mp hr.seg
  have hp : xs.getLastD h ∈ h :: xs := List.getLastD_mem_cons ..
  have he : ys.getLastD y ∈ y :: ys := List.getLastD_mem_cons ..
  -- the two parts and the new head are apart
  have hcross : ∀ a ∈ h :: xs, ∀ b ∈ y :: ys, a ≠ b := by
    rintro a ha b hb rfl
    rcases List.mem_cons.mp ha with rfl | ha
    · exact hnd (List.mem_append_right xs hb)
    · exact hsep a ha a hb rfl
  have hnx : ∀ a ∈ h :: xs, a ≠ n := by
    rintro a ha rfl
    exact hn (by simp only [List.mem_cons, List.mem_append] at ha ⊢; tauto)
  have hny : ∀ a ∈ y :: ys, a ≠ n := by
    rintro a ha rfl
    exact hn (by simp only [List.mem_cons, List.mem_append] at ha ⊢; tauto)
  have hh : h ∈ h :: xs := List.mem_cons_self
  have hy : y ∈ y :: ys := List.mem_cons_self
  refine ⟨⟨List.nodup_cons.mpr ⟨fun m => hnd (List.mem_append_left _ m), hxs⟩, hseg.redirect
    (List.nodup_cons.mpr ⟨fun m => hnd (List.mem_append_left _ m), hxs⟩) ?_ ?_ ?_ ?_⟩,
    ⟨List.nodup_cons.mpr ⟨fun m => hny n m rfl, hys⟩, ?_, ?_, hseg'.redirect hys ?_ ?_ ?_ ?_⟩⟩
  · intro x hx hxp
    rw [Links.splitAfter_next, if_neg hxp, if_neg (hnx x hx), hprev, if_neg (hcross x hx _ he)]
  · rw [Links.splitAfter_next, if_pos rfl]
  · intro x hx
    have hxh : x ≠ h := fun e => hnd (e ▸ List.mem_append_left _ hx)
    have hx' : x ∈ h :: xs := List.mem_cons_of_mem h hx
    rw [Links.splitAfter_prev, if_neg hxh, hnext, if_neg (hcross x hx' y hy), if_neg (hnx x hx')]
  · rw [Links.splitAfter_prev, if_pos rfl]
  · rw [Links.splitAfter_next, if_neg (hnx _ hp).symm, if_pos rfl, hnext]
  · rw [Links.splitAfter_prev, if_neg (hcross h hh y hy).symm, hnext, if_pos rfl]
  · intro x hx hxe
    rw [Links.splitAfter_next, if_neg (hcross _ hp x hx).symm, if_neg (hny x hx), hprev, if_neg hxe]
  · rw [Links.splitAfter_next, if_neg (hcross _ hp _ he).symm, if_neg (hny _ he), hprev, if_pos rfl]
  · intro x hx
    have hx' : x ∈ y :: ys := List.mem_cons_of_mem y hx
    have hxy : x ≠ y := fun e => (List.nodup_cons.mp hys).1 (e ▸ hx)
    rw [Links.splitAfter_prev, if_neg (hcross h hh x hx').symm, hnext, if_neg hxy, if_neg (hny x hx')]
  · rw [Links.splitAfter_prev, if_neg (hnx h hh).symm, hnext, if_neg (hny y hy).symm, if_pos rfl, hprev]

section Splice

variable {x : α} (hs : Ring L n (z :: zs)) (hsep : ∀ a ∈ h :: (xs ++ ys), a ∉ n :: z :: zs)

include hs hsep

theorem spliceAfter_next_outer (hx : x ∈ h :: (xs ++ ys)) (hxp : x ≠ xs.getLastD h) :
    (L.spliceAfter n (xs.getLastD h)).next x = L.next x := by
  have hxn : x ≠ n := fun e => hsep x hx (e ▸ List.mem_cons_self)
  have hxe : x ≠ zs.getLastD z := fun e =>
    hsep x hx (e ▸ List.mem_cons_of_mem n (List.getLastD_mem_cons ..))
  rw [Links.spliceAfter_next, if_neg hxn, if_neg hxp, hs.prev_head_cons, if_neg hxe]

theorem spliceAfter_prev_outer (hr : Ring L h (xs ++ ys)) (hx : x ∈ h :: (xs ++ ys))
    (hxb : x ≠ ys.headD h) : (L.spliceAfter n (xs.getLastD h)).prev x = L.prev x := by
  have hxn : x ≠ n := fun e => hsep x hx (e ▸ List.mem_cons_self)
  have hxz : x ≠ z := fun e => hsep x hx (e ▸ List.mem_cons_of_mem n List.mem_cons_self)
  rw [Links.spliceAfter_prev, if_neg hxn, hr.next_last, if_neg hxb, hs.next_head, List.head?_cons,
    Option.getD_some, if_neg hxz]

theorem spliceAfter_next_inner (hx : x ∈ z :: zs) (hxe : x ≠ zs.getLastD z) :
    (L.spliceAfter n (xs.getLastD h)).next x = L.next x := by
  have hxn : x ≠ n := fun e => (List.nodup_cons.mp hs.nodup).1 (e ▸ hx)
  have hxp : x ≠ xs.getLastD h := fun e =>
    hsep _ (getLastD_mem_append h xs ys) (e ▸ List.mem_cons_of_mem n hx)
  rw [Links.spliceAfter_next, if_neg hxn, if_neg hxp, hs.prev_head_cons, if_neg hxe]

theorem spliceAfter_prev_inner (hr : Ring L h (xs ++ ys)) (hx : x ∈ zs) :
    (L.spliceAfter n (xs.getLastD h)).prev x = L.prev x := by
  obtain ⟨hnz, hzs⟩ := List.nodup_cons.mp hs.nodup
  have hxn : x ≠ n := fun e => hnz (e ▸ List.mem_cons_of_mem z hx)
  have hxz : x ≠ z := fun e => (List.nodup_cons.mp hzs).1 (e ▸ hx)
  have hxb : x ≠ ys.headD h := fun e =>
    hsep _ (headD_mem_append h xs ys) (e ▸ List.mem_cons_of_mem n (List.mem_cons_of_mem z hx))
  rw [Links.spliceAfter_prev, if_neg hxn, hr.next_last, if_neg hxb, hs.next_head, List.head?_cons,
    Option.getD_some, if_neg hxz]

theorem spliceAfter_front (hr : Ring L h (xs ++ ys)) :
    Seg (L.spliceAfter n (xs.getLastD h)) h xs z := by
  have hp := getLastD_mem_append h xs ys
  have hz : z ∈ n :: z :: zs := List.mem_cons_of_mem n List.mem_cons_self
  have hnd : (h :: (xs ++ ys)).Nodup := hr.nodup
  rw [← List.cons_append] at hnd
  refine hr.seg.front.redirect (List.nodup_append.mp hnd).1 ?_ ?_ ?_ ?_
  · intro x hx hxp
    exact spliceAfter_next_outer hs hsep (List.mem_append_left ys hx) hxp
  · have hpn : xs.getLastD h ≠ n := fun e => hsep _ hp (e ▸ List.mem_cons_self)
    rw [Links.spliceAfter_next, if_neg hpn, if_pos rfl]
    exact hs.next_head
  · intro x hx
    exact spliceAfter_prev_outer hs hsep hr (List.mem_cons_of_mem h (List.mem_append_left ys hx))
      (hr.ne_headD hx)
  · have hzn : z ≠ n := fun e => (List.nodup_cons.mp hs.nodup).1 (e ▸ List.mem_cons_self)
    have hzb : z ≠ ys.headD h := fun e => hsep _ (headD_mem_append h xs ys) (e ▸ hz)
    rw [Links.spliceAfter_prev, if_neg hzn, hr.next_last, if_neg hzb, hs.next_head, List.head?_cons,
      Option.getD_some, if_pos rfl]

theorem spliceAfter_middle (hr : Ring L h (xs ++ ys)) :
    Seg (L.spliceAfter n (xs.getLastD h)) z zs (ys.headD h) := by
  have he : zs.getLastD z ∈ z :: zs := List.getLastD_mem_cons ..
  obtain ⟨hnz, hzs⟩ := List.nodup_cons.mp hs.nodup
  refine hs.seg.2.2.redirect hzs ?_ ?_ ?_ ?_
  · intro x hx hxe
    exact spliceAfter_next_inner hs hsep hx hxe
  · have hen : zs.getLastD z ≠ n := fun e => hnz (e ▸ he)
    have hep : zs.getLastD z ≠ xs.getLastD h := fun e =>
      hsep _ (getLastD_mem_append h xs ys) (e ▸ List.mem_cons_of_mem n he)
    rw [Links.spliceAfter_next, if_neg hen, if_neg hep, hs.prev_head_cons, if_pos rfl, hr.next_last]
  · intro x hx
    exact spliceAfter_prev_inner hs hsep hr hx
  · have hbn : ys.headD h ≠ n := fun e => hsep _ (headD_mem_append h xs ys) (e ▸ List.mem_cons_self)
    rw [Links.spliceAfter_prev, if_neg hbn, hr.next_last, if_pos rfl, hs.prev_head_cons]

end Splice

theorem spliceAfter_back (hr : Ring L h (xs ++ y :: ys)) (hs : Ring L n (z :: zs))
    (hsep : ∀ a ∈ h :: (xs ++ y :: ys), a ∉ n :: z :: zs) : Seg (L.spliceAfter n (xs.getLastD h)) y ys h := by
  have hin : ∀ {x}, x ∈ y :: ys → x ∈ h :: (xs ++ y :: ys) := fun hx =>
    List.mem_cons_of_mem h (List.mem_append_right xs hx)
  obtain ⟨hnd, hsplit⟩ := List.nodup_cons.mp hr.nodup
  refine (seg_append.mp hr.seg).2.congr ?_ ?_
  · intro x hx
    exact spliceAfter_next_outer hs hsep (hin hx) (hr.ne_getLastD hx)
  · intro x hx
    rcases List.mem_append.mp hx with hx | hx
    · refine spliceAfter_prev_outer hs hsep hr (hin (List.mem_cons_of_mem y hx)) ?_
      rintro rfl
      exact (List.nodup_cons.mp (List.nodup_append.mp hsplit).2.1).1 hx
    · obtain rfl := List.mem_singleton.mp hx
      refine spliceAfter_prev_outer hs hsep hr List.mem_cons_self ?_
      rintro rfl
      exact hnd (List.mem_append_right xs List.mem_cons_self)

/-- The nodes of another ring stand behind a position, and the other ring is empty. -/
theorem spliceAfter (hr : Ring L h (xs ++ ys)) (hs : Ring L n (z :: zs))
    (hsep : ∀ a ∈ h :: (xs ++ ys), a ∉ n :: z :: zs) :
    Ring (L.spliceAfter n (xs.getLastD h)) h (xs ++ z :: zs ++ ys) ∧
    Ring (L.spliceAfter n (xs.getLastD h)) n [] := by
  have hzs := (List.nodup_cons.mp hs.nodup).2
  have hfront := spliceAfter_front hs hsep hr
  have hmiddle := spliceAfter_middle hs hsep hr
  refine ⟨⟨?_, ?_⟩, .of_self ?_ ?_⟩
  · have hperm : (h :: (xs ++ z :: zs ++ ys)).Perm ((h :: (xs ++ ys)) ++ z :: zs) := by
      rw [List.append_assoc]
      exact ((List.perm_append_comm.append_left xs).trans
        (List.append_assoc xs ys (z :: zs) ▸ List.Perm.refl _)).cons h
    refine hperm.nodup_iff.mpr (List.nodup_append.mpr ⟨hr.nodup, hzs, fun a ha b hb e => ?_⟩)
    exact hsep a ha (e ▸ List.mem_cons_of_mem n hb)
  · rw [List.append_assoc, List.cons_append]
    refine seg_append.mpr ⟨hfront, ?_⟩
    cases ys with
    | nil => rwa [List.append_nil]
    | cons y ys => exact seg_append.mpr ⟨hmiddle, spliceAfter_back hr hs hsep⟩
  · rw [Links.spliceAfter_next, if_pos rfl]
  · rw [Links.spliceAfter_prev, if_pos rfl]

end Ring

namespace Links

variable [DecidableEq α] {L : Links α} {h p n x : α}

theorem splitAfter_frame (hh : x ≠ h) (hp : x ≠ p) (hn : x ≠ n) (hnext : x ≠ L.next p)
    (hprev : x ≠ L.prev h) : L.AgreeAt (L.splitAfter h p n) x := by
  simp [AgreeAt, splitAfter_next, splitAfter_prev, hh, hp, hn, hnext, hprev]

theorem spliceAfter_frame (hn : x ≠ n) (hp : x ≠ p) (hnext : x ≠ L.next p) (hfirst : x ≠ L.next n)
    (hlast : x ≠ L.prev n) : L.AgreeAt (L.spliceAfter n p) x := by
  simp [AgreeAt, spliceAfter_next, spliceAfter_prev, hn, hp, hnext, hfirst, hlast]

end Links

namespace Represents

variable [DecidableEq α] {L L' : Links α} {F : Family α} {h k n y z : α} {xs ys zs : List α}

/-- The frame rule for two lists: they are replaced by two rings on their own and on unlinked
nodes. -/
theorem set_pair (hr : Represents L F) (hne : h ≠ k) (hring : Ring L' h ys) (hring' : Ring L' k zs)
    (hown : ∀ x ∈ h :: ys ++ k :: zs, (∃ xs, F h = some xs ∧ x ∈ h :: xs) ∨
      (∃ xs, F k = some xs ∧ x ∈ k :: xs) ∨ ¬ Linked F x)
    (hsep : ∀ x ∈ h :: ys, x ∉ k :: zs)
    (hag : ∀ j ws, j ≠ h → j ≠ k → F j = some ws → ∀ x ∈ j :: ws, L.AgreeAt L' x) :
    Represents L' (Function.update (Function.update F h (some ys)) k (some zs)) := by
  have hother : ∀ {j ws x}, j ≠ h → j ≠ k → F j = some ws → x ∈ j :: ws → x ∉ h :: ys ++ k :: zs := by
    intro j ws x hjh hjk hj hx hm
    rcases hown x hm with ⟨xs, hF, hxs⟩ | ⟨xs, hF, hxs⟩ | hun
    · exact hjh (hr.disjoint hj hF hx hxs)
    · exact hjk (hr.disjoint hj hF hx hxs)
    · exact hun ⟨j, ws, hj, hx⟩
  -- a list of the new family is one of the two or an untouched one
  have hcases : ∀ {j ws}, Function.update (Function.update F h (some ys)) k (some zs) j = some ws →
      (j = k ∧ ws = zs) ∨ (j = h ∧ ws = ys) ∨ (j ≠ h ∧ j ≠ k ∧ F j = some ws) := by
    intro j ws hj
    by_cases hjk : j = k
    · subst hjk
      rw [Function.update_self, Option.some.injEq] at hj
      exact .inl ⟨rfl, hj.symm⟩
    · rw [Function.update_of_ne hjk] at hj
      by_cases hjh : j = h
      · subst hjh
        rw [Function.update_self, Option.some.injEq] at hj
        exact .inr (.inl ⟨rfl, hj.symm⟩)
      · rw [Function.update_of_ne hjh] at hj
        exact .inr (.inr ⟨hjh, hjk, hj⟩)
  constructor
  · intro j ws hj
    rcases hcases hj with ⟨rfl, rfl⟩ | ⟨rfl, rfl⟩ | ⟨hjh, hjk, hj⟩
    · exact hring'
    · exact hring
    · exact (hr.ring hj).congr (hag j ws hjh hjk hj)
  · intro i j vs ws x hi hj hx hx'
    rcases hcases hi with ⟨rfl, rfl⟩ | ⟨rfl, rfl⟩ | ⟨hih, hik, hi'⟩ <;>
      rcases hcases hj with ⟨rfl, rfl⟩ | ⟨rfl, rfl⟩ | ⟨hjh, hjk, hj⟩
    · rfl
    · exact absurd hx (hsep x hx')
    · exact absurd (List.mem_append_right _ hx) (hother hjh hjk hj hx')
    · exact absurd hx' (hsep x hx)
    · rfl
    · exact absurd (List.mem_append_left _ hx) (hother hjh hjk hj hx')
    · exact absurd (List.mem_append_right _ hx') (hother hih hik hi' hx)
    · exact absurd (List.mem_append_left _ hx') (hother hih hik hi' hx)
    · exact hr.disjoint hi' hj hx hx'

theorem splitAfter_agree (hr : Represents L F) (hF : F h = some (xs ++ y :: ys)) {x : α} (hxn : x ≠ n)
    (hx : x ∉ h :: (xs ++ y :: ys)) : L.AgreeAt (L.splitAfter h (xs.getLastD h) n) x := by
  have hring := hr.ring hF
  have hp : xs.getLastD h ∈ h :: (xs ++ y :: ys) := getLastD_mem_append h xs _
  exact Links.splitAfter_frame (fun e => hx (e ▸ List.mem_cons_self)) (fun e => hx (e ▸ hp)) hxn
    (fun e => hx (e ▸ hring.next_mem hp)) (fun e => hx (e ▸ hring.prev_mem List.mem_cons_self))

theorem splitAfter (hr : Represents L F) (hF : F h = some (xs ++ y :: ys)) (hn : ¬ Linked F n) :
    Represents (L.splitAfter h (xs.getLastD h) n)
      (Function.update (Function.update F h (some xs)) n (some (y :: ys))) := by
  have hnew : n ∉ h :: (xs ++ y :: ys) := fun m => hn ⟨h, _, hF, m⟩
  obtain ⟨hring, hring'⟩ := (hr.ring hF).splitAfter hnew
  have hnd := (hr.ring hF).nodup
  refine hr.set_pair (fun e => hnew (e ▸ List.mem_cons_self)) hring hring' ?_ ?_ ?_
  · intro x hx
    simp only [List.mem_append, List.mem_cons] at hx
    by_cases hxn : x = n
    · exact .inr (.inr (hxn ▸ hn))
    · refine .inl ⟨_, hF, ?_⟩
      simp only [List.mem_append, List.mem_cons]
      tauto
  · intro x hx hx'
    rcases List.mem_cons.mp hx' with rfl | hx'
    · exact hnew (by simp only [List.mem_append, List.mem_cons] at hx ⊢; tauto)
    · rw [← List.cons_append] at hnd
      exact (List.nodup_append.mp hnd).2.2 x hx x hx' rfl
  · intro j ws hjh hjn hj x hx
    exact hr.splitAfter_agree hF (fun e => hn (e ▸ ⟨j, ws, hj, hx⟩))
      fun m => hr.notMem_other hF hj hjh m hx

theorem spliceAfter_agree (hr : Represents L F) (hF : F h = some (xs ++ ys)) (hn : F n = some zs)
    {x : α} (hx : x ∉ h :: (xs ++ ys)) (hx' : x ∉ n :: zs) :
    L.AgreeAt (L.spliceAfter n (xs.getLastD h)) x := by
  have hp : xs.getLastD h ∈ h :: (xs ++ ys) := getLastD_mem_append h xs ys
  exact Links.spliceAfter_frame (fun e => hx' (e ▸ List.mem_cons_self)) (fun e => hx (e ▸ hp))
    (fun e => hx (e ▸ (hr.ring hF).next_mem hp))
    (fun e => hx' (e ▸ (hr.ring hn).next_mem List.mem_cons_self))
    (fun e => hx' (e ▸ (hr.ring hn).prev_mem List.mem_cons_self))

theorem spliceAfter (hr : Represents L F) (hF : F h = some (xs ++ ys)) (hn : F n = some (z :: zs))
    (hne : n ≠ h) : Represents (L.spliceAfter n (xs.getLastD h))
      (Function.update (Function.update F h (some (xs ++ z :: zs ++ ys))) n (some [])) := by
  have hsep : ∀ a ∈ h :: (xs ++ ys), a ∉ n :: z :: zs := fun a ha => hr.notMem_other hF hn hne ha
  obtain ⟨hring, hring'⟩ := (hr.ring hF).spliceAfter (hr.ring hn) hsep
  refine hr.set_pair hne.symm hring hring' ?_ ?_ ?_
  · intro x hx
    have hcases : x ∈ h :: (xs ++ ys) ∨ x ∈ n :: z :: zs := by
      simp only [List.mem_append, List.mem_cons, List.not_mem_nil, or_false] at hx ⊢
      tauto
    exact hcases.imp (fun m => ⟨_, hF, m⟩) fun m => .inl ⟨_, hn, m⟩
  · intro x hx hx'
    rw [List.mem_singleton] at hx'
    subst hx'
    have hnd := (hr.ring hn).nodup
    have hxh : x ∉ h :: (xs ++ ys) := fun m => hsep x m List.mem_cons_self
    simp only [List.mem_append, List.mem_cons, List.nodup_cons] at hx hnd hxh
    tauto
  · intro j ws hjh hjn hj x hx
    exact hr.spliceAfter_agree hF hn (fun m => hr.notMem_other hF hj hjh m hx)
      fun m => hr.notMem_other hn hj hjn m hx

end Represents

end Rings
