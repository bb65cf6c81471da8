import Mathlib.Tactic

/-!
# Fuel-bounded programs

A program that may loop is a function of an amount of fuel. It settles on a
result when every large enough amount gives that result, so a settled run is a
terminating one and exhausted fuel is never a value.
-/
namespace Fuel

variable {α β σ : Type*}

/-- From some amount of fuel on, every run of `f` returns `r`. -/
def Settles (f : Nat → Option α) (r : α) : Prop := ∃ n, ∀ m, n ≤ m → f m = some r

theorem Settles.of_forall {f : Nat → Option α} {r : α} (h : ∀ n, f n = some r) : Settles f r :=
  ⟨0, fun m _ => h m⟩

theorem Settles.unique {f : Nat → Option α} {r r' : α} (h : Settles f r) (h' : Settles f r') :
    r = r' := by
  obtain ⟨n, hn⟩ := h
  obtain ⟨m, hm⟩ := h'
  exact Option.some.inj ((hn _ (Nat.le_max_left n m)).symm.trans (hm _ (Nat.le_max_right n m)))

theorem Settles.bind {f : Nat → Option α} {g : Nat → α → Option β} {a : α} {b : β}
    (hf : Settles f a) (hg : Settles (fun n => g n a) b) :
    Settles (fun n => (f n).bind (g n)) b := by
  obtain ⟨n, hn⟩ := hf
  obtain ⟨m, hm⟩ := hg
  refine ⟨max n m, fun k hk => ?_⟩
  simp only [hn k (le_trans (Nat.le_max_left n m) hk), Option.bind_some]
  exact hm k (le_trans (Nat.le_max_right n m) hk)

theorem Settles.map {f : Nat → Option α} {a : α} (hf : Settles f a) (g : α → β) :
    Settles (fun n => (f n).map g) (g a) := by
  obtain ⟨n, hn⟩ := hf
  exact ⟨n, fun k hk => by simp only [hn k hk, Option.map_some]⟩

theorem Settles.congr {f g : Nat → Option α} {a : α} (hf : Settles f a) (h : ∀ n, g n = f n) :
    Settles g a := by
  obtain ⟨n, hn⟩ := hf
  exact ⟨n, fun k hk => (h k).trans (hn k hk)⟩

theorem Settles.succ {f g : Nat → Option α} {a : α} (hf : Settles f a)
    (h : ∀ n, g (n + 1) = f n) : Settles g a := by
  obtain ⟨n, hn⟩ := hf
  refine ⟨n + 1, fun k hk => ?_⟩
  cases k with
  | zero => omega
  | succ k => exact (h k).trans (hn k (by omega))

theorem not_settles_of_eq_none {f : Nat → Option α} (h : ∃ N, ∀ n, N ≤ n → f n = none) (r : α) :
    ¬ Settles f r := by
  rintro ⟨n, hn⟩
  obtain ⟨N, hN⟩ := h
  have h1 := hn _ (Nat.le_max_left n N)
  rw [hN _ (Nat.le_max_right n N)] at h1
  cases h1

theorem not_settles {f : Nat → Option α} (h : ∀ n, f n = none) (r : α) : ¬ Settles f r :=
  not_settles_of_eq_none ⟨0, fun n _ => h n⟩ r

/-- From some amount of fuel on all runs of `f` end alike: with one result, or with none. -/
def Decided (f : Nat → Option α) : Prop := ∃ r N, ∀ n, N ≤ n → f n = r

theorem Decided.bind {f : Nat → Option α} {g : Nat → α → Option β} (hf : Decided f)
    (hg : ∀ a, Decided fun n => g n a) : Decided fun n => (f n).bind (g n) := by
  obtain ⟨r, N, hN⟩ := hf
  cases r with
  | none => exact ⟨none, N, fun n hn => by simp only [hN n hn, Option.bind_none]⟩
  | some a =>
      obtain ⟨r', M, hM⟩ := hg a
      refine ⟨r', max N M, fun n hn => ?_⟩
      simp only [hN n (le_trans (Nat.le_max_left N M) hn), Option.bind_some]
      exact hM n (le_trans (Nat.le_max_right N M) hn)

/-- What one pass through a loop body asks for: another pass, or the end of the loop. -/
inductive Flow (σ : Type*) where
  | next (s : σ)
  | stop (s : σ)
  deriving DecidableEq, Repr

/-- Runs the body until it stops; one unit of fuel pays for one pass. -/
def loop (body : σ → Option (Flow σ)) : Nat → σ → Option σ
  | 0, _ => none
  | n+1, s => match body s with
    | none => none
    | some (.next s') => loop body n s'
    | some (.stop s') => some s'

/-- `while (cond s) s = body s`. -/
def whileLoop (cond : σ → Bool) (body : σ → Option σ) : Nat → σ → Option σ :=
  loop (fun s => if cond s then (body s).map Flow.next else some (.stop s))

theorem Settles.next_eq {f : Nat → Option (Flow σ)} {s t : σ} (h : Settles f (.next s))
    (h' : Settles f (.next t)) : s = t := by
  have hsame := h.unique h'
  rwa [Flow.next.injEq] at hsame

theorem Settles.not_stop {f : Nat → Option (Flow σ)} {s t : σ} (h : Settles f (.next s)) :
    ¬ Settles f (.stop t) := by
  intro h'
  cases h.unique h'

/-- The loop settles whatever its body spends, since the body draws on the same fuel. -/
def LoopSettles (body : Nat → σ → Option (Flow σ)) (s t : σ) : Prop :=
  ∃ N, ∀ n k, N ≤ n → N ≤ k → loop (body n) k s = some t

theorem LoopSettles.settles {body : Nat → σ → Option (Flow σ)} {s t : σ}
    (h : LoopSettles body s t) : Settles (fun n => loop (body n) n s) t := by
  obtain ⟨N, hN⟩ := h
  exact ⟨N, fun n hn => hN n n hn hn⟩

theorem LoopSettles.stop {body : Nat → σ → Option (Flow σ)} {s t : σ}
    (h : Settles (fun n => body n s) (.stop t)) : LoopSettles body s t := by
  obtain ⟨N, hN⟩ := h
  refine ⟨N+1, fun n k hn hk => ?_⟩
  cases k with
  | zero => omega
  | succ k => simp only [loop, hN n (by omega)]

theorem LoopSettles.next {body : Nat → σ → Option (Flow σ)} {s s' t : σ}
    (h : Settles (fun n => body n s) (.next s')) (hs : LoopSettles body s' t) :
    LoopSettles body s t := by
  obtain ⟨N, hN⟩ := h
  obtain ⟨M, hM⟩ := hs
  refine ⟨max N M + 1, fun n k hn hk => ?_⟩
  have hNn : N ≤ n := by have := Nat.le_max_left N M; omega
  have hMn : M ≤ n := by have := Nat.le_max_right N M; omega
  cases k with
  | zero => omega
  | succ k =>
      simp only [loop, hN n hNn]
      exact hM n k hMn (by have := Nat.le_max_right N M; omega)

/-- The states in which a loop that starts in `s` makes a pass. -/
inductive Visits (body : Nat → σ → Option (Flow σ)) (s : σ) : σ → Prop where
  | start : Visits body s s
  | next {t u : σ} (h : Visits body s t) (hb : Settles (fun n => body n t) (.next u)) :
      Visits body s u

theorem Visits.head {body : Nat → σ → Option (Flow σ)} {s s' t : σ}
    (hb : Settles (fun n => body n s) (.next s')) (h : Visits body s' t) : Visits body s t := by
  induction h with
  | start => exact .next .start hb
  | next _ hb' ih => exact .next ih hb'

theorem Visits.loopSettles {body : Nat → σ → Option (Flow σ)} {s t r : σ} (h : Visits body s t)
    (ht : LoopSettles body t r) : LoopSettles body s r := by
  induction h with
  | start => exact ht
  | next _ hb ih => exact ih (.next hb ht)

/-- What every pass keeps holds of every state visited. -/
theorem Visits.inv {body : Nat → σ → Option (Flow σ)} (inv : σ → Prop)
    (step : ∀ s t, inv s → Settles (fun n => body n s) (.next t) → inv t) {s t : σ} (hs : inv s)
    (h : Visits body s t) : inv t := by
  induction h with
  | start => exact hs
  | next _ hb ih => exact step _ _ ih hb

/-- A run comes by every state that is visited. -/
theorem Visits.loop_eq {body : Nat → σ → Option (Flow σ)} {s t : σ} (h : Visits body s t) :
    ∃ N j, ∀ n k, N ≤ n → loop (body n) (k + j) s = loop (body n) k t := by
  induction h with
  | start => exact ⟨0, 0, fun _ _ _ => rfl⟩
  | next _ hb ih =>
      obtain ⟨N, j, hN⟩ := ih
      obtain ⟨M, hM⟩ := hb
      refine ⟨max N M, j + 1, fun n k hn => ?_⟩
      rw [show k + (j + 1) = k + 1 + j by omega, hN n (k + 1) (le_trans (Nat.le_max_left N M) hn)]
      simp only [loop, hM n (le_trans (Nat.le_max_right N M) hn)]

/-- A loop that comes by a state where its body has no result has none. -/
theorem Visits.eq_none {body : Nat → σ → Option (Flow σ)} {s t : σ} (h : Visits body s t)
    (ht : ∃ N, ∀ n, N ≤ n → body n t = none) : ∃ N, ∀ n, N ≤ n → loop (body n) n s = none := by
  obtain ⟨N, j, hN⟩ := h.loop_eq
  obtain ⟨M, hM⟩ := ht
  refine ⟨max N M + j, fun n hn => ?_⟩
  have hNn : N ≤ n := by have := Nat.le_max_left N M; omega
  have hMn : M ≤ n := by have := Nat.le_max_right N M; omega
  have hloop := hN n (n - j) hNn
  rw [show n - j + j = n by omega] at hloop
  rw [hloop]
  cases hk : n - j with
  | zero => rfl
  | succ k => simp only [loop, hM n hMn]

def Endless (body : Nat → σ → Option (Flow σ)) (s : σ) : Prop :=
  ∃ f : Nat → σ, f 0 = s ∧ ∀ i, Settles (fun n => body n (f i)) (.next (f (i + 1)))

theorem Endless.visits {body : Nat → σ → Option (Flow σ)} {s : σ} {f : Nat → σ} (h0 : f 0 = s)
    (h : ∀ i, Settles (fun n => body n (f i)) (.next (f (i + 1)))) (i : Nat) :
    Visits body s (f i) := by
  induction i with
  | zero => exact h0 ▸ .start
  | succ i ih => exact .next ih (h i)

/-- A state that its own pass leads back to is visited for ever. -/
theorem Endless.of_visits {body : Nat → σ → Option (Flow σ)} {s t : σ} (h : Visits body s t)
    (ht : Endless body t) : Endless body s := by
  induction h with
  | start => exact ht
  | @next t u _ hb ih =>
      obtain ⟨f, h0, hf⟩ := ht
      refine ih ⟨fun | 0 => t | i + 1 => f i, rfl, fun i => ?_⟩
      cases i with
      | zero => exact (congrArg (fun v => Settles (fun n => body n t) (.next v)) h0).mpr hb
      | succ i => exact hf i

/-- Total correctness of a loop: the measure goes down at every pass that asks for another. -/
theorem exists_loopSettles {body : Nat → σ → Option (Flow σ)} (inv post : σ → Prop)
    (μ : σ → Nat)
    (step : ∀ s, inv s →
      (∃ s', Settles (fun n => body n s) (.next s') ∧ inv s' ∧ μ s' < μ s) ∨
      ∃ t, Settles (fun n => body n s) (.stop t) ∧ post t)
    {s : σ} (hs : inv s) : ∃ t, LoopSettles body s t ∧ post t := by
  induction hm : μ s using Nat.strong_induction_on generalizing s with
  | _ m ih =>
    rcases step s hs with ⟨s', hb, hs', hlt⟩ | ⟨t, hb, ht⟩
    · obtain ⟨t, hl, ht⟩ := ih (μ s') (hm ▸ hlt) hs' rfl
      exact ⟨t, .next hb hl, ht⟩
    · exact ⟨t, .stop hb, ht⟩

/-- The loop of `while`, with a body that draws on the same fuel. -/
def WhileSettles (cond : σ → Bool) (body : Nat → σ → Option σ) (s t : σ) : Prop :=
  LoopSettles (fun n s => if cond s then (body n s).map Flow.next else some (.stop s)) s t

namespace WhileSettles

variable {cond : σ → Bool} {body : Nat → σ → Option σ} {s s' t : σ}

theorem settles (h : WhileSettles cond body s t) :
    Settles (fun n => whileLoop cond (body n) n s) t := LoopSettles.settles h

theorem stop {body : Nat → σ → Option σ} (hc : cond s = false) : WhileSettles cond body s s :=
  LoopSettles.stop (.of_forall fun n => by simp only [hc, Bool.false_eq_true, if_false])

theorem next (hc : cond s = true) (hb : Settles (fun n => body n s) s')
    (hs : WhileSettles cond body s' t) : WhileSettles cond body s t :=
  LoopSettles.next (by simpa only [hc, if_true] using hb.map Flow.next) hs

end WhileSettles

/-- The rule for `while`: the invariant and the measure, for a pass under the condition. -/
theorem exists_while (cond : σ → Bool) (body : Nat → σ → Option σ) (inv : σ → Prop)
    (μ : σ → Nat)
    (step : ∀ s, inv s → cond s = true →
      ∃ s', Settles (fun n => body n s) s' ∧ inv s' ∧ μ s' < μ s)
    {s : σ} (hs : inv s) : ∃ t, WhileSettles cond body s t ∧ inv t ∧ cond t = false := by
  induction hm : μ s using Nat.strong_induction_on generalizing s with
  | _ m ih =>
    cases hc : cond s with
    | true =>
        obtain ⟨s', hb, hs', hlt⟩ := step s hs hc
        obtain ⟨t, hl, ht⟩ := ih (μ s') (hm ▸ hlt) hs' rfl
        exact ⟨t, .next hc hb hl, ht⟩
    | false => exact ⟨s, .stop hc, hs, hc⟩

/-- A loop whose body never stops on the states of an invariant never returns. -/
theorem loop_eq_none (body : σ → Option (Flow σ)) (inv : σ → Prop)
    (step : ∀ s, inv s → body s = none ∨ ∃ s', body s = some (.next s') ∧ inv s')
    (n : Nat) {s : σ} (hs : inv s) : loop body n s = none := by
  induction n generalizing s with
  | zero => rfl
  | succ n ih =>
      rcases step s hs with hb | ⟨s', hb, hs'⟩
      · simp only [loop, hb]
      · simp only [loop, hb, ih hs']

end Fuel
