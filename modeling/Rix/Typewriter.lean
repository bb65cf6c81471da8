import Mathlib.Tactic

/-!
# Typewriters

A sheet of rows of `width` cells, numbered row by row, and a position on it that the keys move. What
a text of lines leaves on the sheet is said without the keys.
-/
namespace Typewriter

variable {α : Type*}

/-- What a key does: forward by some cells but not beyond the row, to the first column, to the next
row, back by one cell behind a blank left here, or forward by one behind a mark left here. -/
inductive Key (α : Type*) where
  | tab (n : ℕ)
  | home
  | down
  | back (blank : α)
  | mark (v : α)

structure Sheet (α : Type*) where
  pos : ℕ
  cell : ℕ → α

def Sheet.press (width : ℕ) (s : Sheet α) : Key α → Sheet α
  | .tab n => { s with pos := min (s.pos + n) (width * (s.pos / width + 1)) }
  | .home => { s with pos := width * (s.pos / width) }
  | .down => { s with pos := s.pos + width }
  | .back blank => ⟨s.pos - 1, Function.update s.cell s.pos blank⟩
  | .mark v => ⟨s.pos + 1, Function.update s.cell s.pos v⟩

def Sheet.pressAll (width : ℕ) (s : Sheet α) (ks : List (Key α)) : Sheet α :=
  ks.foldl (Sheet.press width) s

@[simp] theorem Sheet.pressAll_nil (width : ℕ) (s : Sheet α) : s.pressAll width [] = s := rfl

@[simp] theorem Sheet.pressAll_cons (width : ℕ) (s : Sheet α) (k : Key α) (ks : List (Key α)) :
    s.pressAll width (k :: ks) = (s.press width k).pressAll width ks := rfl

theorem Sheet.pressAll_append (width : ℕ) (s : Sheet α) (ks ks' : List (Key α)) :
    s.pressAll width (ks ++ ks') = (s.pressAll width ks).pressAll width ks' := List.foldl_append

/-- Each key is pressed at a position where it may be. -/
def Sheet.Takes (width : ℕ) (ok : ℕ → Key α → Prop) : Sheet α → List (Key α) → Prop
  | _, [] => True
  | s, k :: ks => ok s.pos k ∧ (s.press width k).Takes width ok ks

theorem Sheet.takes_append {width : ℕ} {ok : ℕ → Key α → Prop} {s : Sheet α} {ks ks' : List (Key α)} :
    s.Takes width ok (ks ++ ks') ↔ s.Takes width ok ks ∧ (s.pressAll width ks).Takes width ok ks' := by
  induction ks generalizing s with
  | nil => exact (iff_of_eq (true_and _)).symm
  | cons k ks ih => rw [List.cons_append, Sheet.Takes, ih, Sheet.Takes, and_assoc, Sheet.pressAll_cons]

theorem Sheet.pos_marks (width : ℕ) (s : Sheet α) (l : List α) :
    (s.pressAll width (l.map .mark)).pos = s.pos + l.length := by
  induction l generalizing s with
  | nil => rfl
  | cons v l ih =>
      rw [List.map_cons, Sheet.pressAll_cons, ih, List.length_cons]
      exact Nat.add_right_comm s.pos 1 l.length |>.trans (Nat.add_assoc _ _ _)

theorem Sheet.cell_marks_of_lt (width : ℕ) (s : Sheet α) (l : List α) {k : ℕ} (hk : k < s.pos) :
    (s.pressAll width (l.map .mark)).cell k = s.cell k := by
  induction l generalizing s with
  | nil => rfl
  | cons v l ih =>
      rw [List.map_cons, Sheet.pressAll_cons, ih _ (Nat.lt_succ_of_lt hk)]
      exact Function.update_of_ne hk.ne _ _

theorem Sheet.cell_marks_of_le (width : ℕ) (s : Sheet α) (l : List α) {k : ℕ}
    (hk : s.pos + l.length ≤ k) : (s.pressAll width (l.map .mark)).cell k = s.cell k := by
  induction l generalizing s with
  | nil => rfl
  | cons v l ih =>
      rw [List.length_cons] at hk
      have hk' : (s.press width (.mark v)).pos + l.length ≤ k := by
        change s.pos + 1 + l.length ≤ k
        omega
      rw [List.map_cons, Sheet.pressAll_cons, ih _ hk']
      exact Function.update_of_ne (by omega) _ _

theorem Sheet.cell_marks (width : ℕ) (s : Sheet α) (l : List α) {j : ℕ} (hj : j < l.length) :
    (s.pressAll width (l.map .mark)).cell (s.pos + j) = l[j] := by
  induction l generalizing s j with
  | nil => exact absurd hj (Nat.not_lt_zero j)
  | cons v l ih =>
      rw [List.map_cons, Sheet.pressAll_cons]
      cases j with
      | zero =>
          rw [Sheet.cell_marks_of_lt width _ l (Nat.lt_succ_self s.pos)]
          exact Function.update_self _ _ _
      | succ j =>
          have hnext := ih (s.press width (.mark v)) (Nat.lt_of_succ_lt_succ hj)
          rw [show s.pos + (j + 1) = s.pos + 1 + j by omega]
          exact hnext

theorem Sheet.takes_marks {width : ℕ} {ok : ℕ → Key α → Prop} {s : Sheet α} {l : List α}
    (h : ∀ p, s.pos ≤ p → p < s.pos + l.length → ∀ v, ok p (.mark v)) :
    s.Takes width ok (l.map .mark) := by
  induction l generalizing s with
  | nil => trivial
  | cons v l ih =>
      rw [List.length_cons] at h
      refine ⟨h s.pos le_rfl (by omega) v, ih fun p hp hlt => h p ?_ ?_⟩
      · exact (Nat.le_succ s.pos).trans hp
      · exact hlt.trans_eq (Nat.add_right_comm s.pos 1 l.length |>.trans (Nat.add_assoc _ _ _))

/-- The keys of a text: each line is ended by a step down and back to the first column. -/
def linesKeys (ls : List (List α)) : List (Key α) := ls.flatMap fun l => l.map .mark ++ [.down, .home]

/-- The rows a text takes: a line that fills its last row takes one more. -/
def rows (width : ℕ) (ls : List (List α)) : ℕ := (ls.map fun l => l.length / width + 1).sum

/-- The line `l` behind the lines `pre`, from the row `r` on, has the cell `k`. -/
def Covers (width r : ℕ) (pre : List (List α)) (l : List α) (k : ℕ) : Prop :=
  width * (r + rows width pre) ≤ k ∧ k < width * (r + rows width pre) + l.length

/-- What a text leaves: the lines below each other from the first column of the row `r` on. -/
structure Written (width r : ℕ) (ls : List (List α)) (s s' : Sheet α) : Prop where
  pos : s'.pos = width * (r + rows width ls)
  line : ∀ pre l post, ls = pre ++ l :: post → ∀ j (hj : j < l.length),
    s'.cell (width * (r + rows width pre) + j) = l[j]
  others : ∀ k, (∀ pre l post, ls = pre ++ l :: post → ¬ Covers width r pre l k) → s'.cell k = s.cell k

section

variable {width r : ℕ} {s : Sheet α}

theorem rows_nil : rows width ([] : List (List α)) = 0 := rfl

theorem rows_cons (l : List α) (ls : List (List α)) :
    rows width (l :: ls) = l.length / width + 1 + rows width ls := by
  rw [rows, List.map_cons, List.sum_cons, ← rows]

theorem linesKeys_cons (l : List α) (ls : List (List α)) :
    linesKeys (l :: ls) = l.map .mark ++ .down :: .home :: linesKeys ls := by
  rw [linesKeys, List.flatMap_cons, List.append_assoc, ← linesKeys]
  rfl

theorem length_lt_rows (hw : 0 < width) (l : List α) :
    width * r + l.length < width * (r + (l.length / width + 1)) := by
  have h := Nat.lt_mul_div_succ l.length hw
  rw [Nat.mul_add]
  omega

theorem pressAll_line (hw : 0 < width) (hs : s.pos = width * r) (l : List α) :
    s.pressAll width (l.map .mark ++ [.down, .home]) =
      ⟨width * (r + (l.length / width + 1)), (s.pressAll width (l.map .mark)).cell⟩ := by
  have hrow : ((s.pressAll width (l.map .mark)).pos + width) / width = r + (l.length / width + 1) := by
    rw [Sheet.pos_marks, hs, Nat.add_div_right _ hw, Nat.mul_add_div hw, Nat.add_assoc]
  rw [Sheet.pressAll_append, Sheet.pressAll_cons, Sheet.pressAll_cons, Sheet.pressAll_nil]
  exact congrArg (fun p => Sheet.mk (width * p) _) hrow

theorem written_nil (hs : s.pos = width * r) : Written width r [] s s where
  pos := hs
  line pre l post h := absurd h.symm (List.append_ne_nil_of_right_ne_nil pre (List.cons_ne_nil l post))
  others _ _ := rfl

/-- The lines behind the first one leave it alone. -/
theorem Written.cons {s' : Sheet α} {l : List α} {ls : List (List α)} (hw : 0 < width)
    (hs : s.pos = width * r)
    (h : Written width (r + (l.length / width + 1)) ls (s.pressAll width (l.map .mark ++ [.down, .home])) s') :
    Written width r (l :: ls) s s' := by
  rw [pressAll_line hw hs] at h
  have hrows : ∀ pre : List (List α),
      r + (l.length / width + 1) + rows width pre = r + rows width (l :: pre) := by
    intro pre
    rw [rows_cons, Nat.add_assoc]
  have hbelow : ∀ {k}, k < width * r + l.length → ∀ pre l' post, ls = pre ++ l' :: post →
      ¬ Covers width (r + (l.length / width + 1)) pre l' k := by
    rintro k hk pre l' post - ⟨hle, -⟩
    have hlt := length_lt_rows (r := r) hw l
    rw [Nat.mul_add] at hle
    omega
  refine ⟨(h.pos).trans (congrArg _ (hrows ls)), fun pre l' post hpre j hj => ?_, fun k hk => ?_⟩
  · cases pre with
    | nil =>
        obtain ⟨rfl, rfl⟩ := List.cons.inj hpre
        rw [rows_nil, Nat.add_zero, h.others _ (hbelow (Nat.add_lt_add_left hj _)), ← hs]
        exact Sheet.cell_marks width s l hj
    | cons l₀ pre =>
        obtain ⟨rfl, hls⟩ := List.cons.inj hpre
        rw [← hrows]
        exact h.line pre l' post hls j hj
  · have hfirst := hk [] l ls rfl
    rw [Covers, rows_nil, Nat.add_zero, ← hs] at hfirst
    rw [h.others k fun pre l' post hls hcov => hk (l :: pre) l' post (congrArg _ hls) ?_]
    · by_cases hlt : k < s.pos
      · exact Sheet.cell_marks_of_lt width s l hlt
      · exact Sheet.cell_marks_of_le width s l (by omega)
    · rwa [Covers, ← hrows]

/-- A text pressed from the first column of a row is written from there on. -/
theorem written_lines (hw : 0 < width) (hs : s.pos = width * r) (ls : List (List α)) :
    Written width r ls s (s.pressAll width (linesKeys ls)) := by
  induction ls generalizing r s with
  | nil => exact written_nil hs
  | cons l ls ih =>
      have hline : (s.pressAll width (l.map .mark ++ [.down, .home])).pos =
          width * (r + (l.length / width + 1)) := by
        rw [pressAll_line hw hs]
      have h := ih hline
      rw [← Sheet.pressAll_append, List.append_assoc] at h
      rw [linesKeys_cons]
      exact h.cons hw hs

/-- A text whose rows end with the row `n` marks no cell behind it. -/
theorem takes_lines {n : ℕ} {ok : ℕ → Key α → Prop} (hw : 0 < width) (hs : s.pos = width * r)
    {ls : List (List α)} (hrows : r + rows width ls ≤ n)
    (hmark : ∀ p < width * n, ∀ v, ok p (.mark v)) (hdown : ∀ p < width * n, ok p .down)
    (hhome : ∀ p < width * n + width, ok p .home) : s.Takes width ok (linesKeys ls) := by
  induction ls generalizing r s with
  | nil => trivial
  | cons l ls ih =>
      rw [rows_cons] at hrows
      have hlt : width * r + l.length < width * n :=
        (length_lt_rows hw l).trans_le (Nat.mul_le_mul_left width (by omega))
      have hpos := Sheet.pos_marks width s l
      rw [hs] at hpos
      have hline : (s.pressAll width (l.map .mark ++ [.down, .home])).pos =
          width * (r + (l.length / width + 1)) := by
        rw [pressAll_line hw hs]
      rw [linesKeys_cons, Sheet.takes_append]
      refine ⟨Sheet.takes_marks fun p _ hp => hmark p (by omega), hdown _ (by omega), hhome _ ?_, ?_⟩
      · change (s.pressAll width (l.map .mark)).pos + width < width * n + width
        omega
      · rw [Sheet.pressAll_append] at hline
        exact ih hline (by omega)

end

end Typewriter
