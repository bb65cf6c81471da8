import Rix.Fuel

/-!
# Coupled runs

Two programs run side by side. While they go together a relation holds between their states.
They may part, and from then on each of them keeps to what they had in common when they parted.
-/
namespace Fuel

variable {ι α β γ δ ε ζ σ τ : Type*}

/-- Whenever `f` returns it leads from `P` to `Q`. -/
def Keeps (P : α → Prop) (Q : β → Prop) (f : α → Option β) : Prop :=
  ∀ a, P a → ∀ b, f a = some b → Q b

namespace Keeps

variable {P : α → Prop} {Q : β → Prop} {R : γ → Prop} {f f' : α → Option β}

theorem bind {k : β → Option γ} (hf : Keeps P Q f) (hk : Keeps Q R k) :
    Keeps P R (fun a => (f a).bind k) := by
  intro a ha c hc
  obtain ⟨b, hb, hbc⟩ := Option.bind_eq_some_iff.mp hc
  exact hk b (hf a ha b hb) c hbc

theorem pure {k : α → β} (h : ∀ a, P a → Q (k a)) : Keeps P Q (fun a => some (k a)) := by
  intro a ha b hb
  exact Option.some.inj hb ▸ h a ha

theorem ite {p : α → Prop} [DecidablePred p] (hf : Keeps P Q f) (hf' : Keeps P Q f') :
    Keeps P Q (fun a => if p a then f a else f' a) := by
  intro a ha b hb
  dsimp only at hb
  split at hb
  · exact hf a ha b hb
  · exact hf' a ha b hb

theorem settles {f : ℕ → α → Option β} (h : ∀ n, Keeps P Q (f n)) {a : α} (ha : P a) {b : β}
    (hb : Settles (fun n => f n a) b) : Q b := by
  obtain ⟨N, hN⟩ := hb
  exact h N a ha b (hN N le_rfl)

end Keeps

def Flow.Holds (P : σ → Prop) : Flow σ → Prop
  | .next s => P s
  | .stop s => P s

def Flow.Related (R : σ → τ → Prop) : Flow σ → Flow τ → Prop
  | .next s, .next t => R s t
  | .stop s, .stop t => R s t
  | _, _ => False

theorem Keeps.loop {P : σ → Prop} {body : σ → Option (Flow σ)} (h : Keeps P (Flow.Holds P) body)
    (n : ℕ) : Keeps P P (Fuel.loop body n) := by
  induction n with
  | zero =>
      intro s _ s' hs
      cases hs
  | succ n ih =>
      intro s hs s' hloop
      simp only [Fuel.loop] at hloop
      cases hb : body s with
      | none =>
          rw [hb] at hloop
          cases hloop
      | some flow =>
          have hpass := h s hs flow hb
          rw [hb] at hloop
          cases flow with
          | next t => exact ih t hpass s' hloop
          | stop t => exact Option.some.inj hloop ▸ hpass

/-- What holds behind one pass of a loop, and is kept from there, holds of the result. -/
theorem Visits.keeps {Q : σ → Prop} {body : ℕ → σ → Option (Flow σ)} {s t : σ}
    (h : Visits body s t) (hpass : ∀ n flow, body n t = some flow → Flow.Holds Q flow)
    (hkeep : ∀ n, Keeps Q (Flow.Holds Q) (body n)) :
    ∃ N, ∀ n, N ≤ n → ∀ r, Fuel.loop (body n) n s = some r → Q r := by
  obtain ⟨N, j, hN⟩ := h.loop_eq
  refine ⟨max N j, fun n hn r hrun => ?_⟩
  have hNn : N ≤ n := le_trans (Nat.le_max_left N j) hn
  have hjn : n - j + j = n := Nat.sub_add_cancel (le_trans (Nat.le_max_right N j) hn)
  have hrest : Fuel.loop (body n) (n - j) t = some r := by
    rw [← hN n (n - j) hNn, hjn, hrun]
  cases hk : n - j with
  | zero =>
      rw [hk] at hrest
      cases hrest
  | succ k =>
      rw [hk] at hrest
      simp only [Fuel.loop] at hrest
      cases hb : body n t with
      | none =>
          rw [hb] at hrest
          cases hrest
      | some flow =>
          have hholds := hpass n flow hb
          rw [hb] at hrest
          cases flow with
          | next u => exact (hkeep n).loop k u hholds r hrest
          | stop u => exact Option.some.inj hrest ▸ hholds

/-- What is known of two runs: of both while they go together, and of each alone once they have
parted, where `ι` is what they have in common. -/
structure Link (ι α β : Type*) where
  both : α → β → Prop
  left : ι → α → Prop
  right : ι → β → Prop

/-- The link between the passes of two loops. -/
def Link.flow (T : Link ι σ τ) : Link ι (Flow σ) (Flow τ) :=
  ⟨Flow.Related T.both, fun i => Flow.Holds (T.left i), fun i => Flow.Holds (T.right i)⟩

/-- A step of one run beside a step of the other. -/
structure Coupled (T : Link ι α β) (U : Link ι γ δ) (f : α → Option γ) (g : β → Option δ) :
    Prop where
  left : ∀ i, Keeps (T.left i) (U.left i) f
  right : ∀ i, Keeps (T.right i) (U.right i) g
  both : ∀ a b, T.both a b → ∀ c d, f a = some c → g b = some d →
    U.both c d ∨ ∃ i, U.left i c ∧ U.right i d

namespace Coupled

variable {T : Link ι α β} {U : Link ι γ δ} {V : Link ι ε ζ} {f f' : α → Option γ}
  {g g' : β → Option δ}

theorem bind {k : γ → Option ε} {l : δ → Option ζ} (hf : Coupled T U f g) (hk : Coupled U V k l) :
    Coupled T V (fun a => (f a).bind k) (fun b => (g b).bind l) := by
  refine ⟨fun i => (hf.left i).bind (hk.left i), fun i => (hf.right i).bind (hk.right i), ?_⟩
  intro a b hab e z he hz
  obtain ⟨c, hc, hce⟩ := Option.bind_eq_some_iff.mp he
  obtain ⟨d, hd, hdz⟩ := Option.bind_eq_some_iff.mp hz
  rcases hf.both a b hab c d hc hd with hcd | ⟨i, hci, hdi⟩
  · exact hk.both c d hcd e z hce hdz
  · exact .inr ⟨i, hk.left i c hci e hce, hk.right i d hdi z hdz⟩

theorem pure {k : α → γ} {l : β → δ} (hleft : ∀ i a, T.left i a → U.left i (k a))
    (hright : ∀ i b, T.right i b → U.right i (l b))
    (hboth : ∀ a b, T.both a b → U.both (k a) (l b)) :
    Coupled T U (fun a => some (k a)) (fun b => some (l b)) := by
  refine ⟨fun i => .pure (hleft i), fun i => .pure (hright i), ?_⟩
  intro a b hab c d hc hd
  rw [← Option.some.inj hc, ← Option.some.inj hd]
  exact .inl (hboth a b hab)

theorem ite {p : α → Prop} {q : β → Prop} [DecidablePred p] [DecidablePred q]
    (hpq : ∀ a b, T.both a b → (p a ↔ q b)) (hf : Coupled T U f g) (hf' : Coupled T U f' g') :
    Coupled T U (fun a => if p a then f a else f' a) (fun b => if q b then g b else g' b) := by
  refine ⟨fun i => (hf.left i).ite (hf'.left i), fun i => (hf.right i).ite (hf'.right i), ?_⟩
  intro a b hab c d hc hd
  by_cases hp : p a
  · rw [if_pos hp] at hc
    rw [if_pos ((hpq a b hab).mp hp)] at hd
    exact hf.both a b hab c d hc hd
  · rw [if_neg hp] at hc
    rw [if_neg (fun hq => hp ((hpq a b hab).mpr hq))] at hd
    exact hf'.both a b hab c d hc hd

/-- Two loops that part may go on for different numbers of passes. -/
theorem loop {T : Link ι σ τ} {body : σ → Option (Flow σ)} {body' : τ → Option (Flow τ)}
    (h : Coupled T T.flow body body') (n : ℕ) :
    Coupled T T (Fuel.loop body n) (Fuel.loop body' n) := by
  induction n with
  | zero =>
      refine ⟨fun i => (h.left i).loop 0, fun i => (h.right i).loop 0, ?_⟩
      intro s t _ s' t' hs
      cases hs
  | succ n ih =>
      refine ⟨fun i => (h.left i).loop (n + 1), fun i => (h.right i).loop (n + 1), ?_⟩
      intro s t hst s' t' hs ht
      simp only [Fuel.loop] at hs ht
      cases hb : body s with
      | none =>
          rw [hb] at hs
          cases hs
      | some flow =>
        cases hb' : body' t with
        | none =>
            rw [hb'] at ht
            cases ht
        | some flow' =>
            rw [hb] at hs
            rw [hb'] at ht
            rcases h.both s t hst flow flow' hb hb' with hpass | ⟨i, hleft, hright⟩
            · cases flow with
              | next s₁ =>
                cases flow' with
                | next t₁ => exact ih.both s₁ t₁ hpass s' t' hs ht
                | stop t₁ => exact hpass.elim
              | stop s₁ =>
                cases flow' with
                | next t₁ => exact hpass.elim
                | stop t₁ => exact .inl (Option.some.inj hs ▸ Option.some.inj ht ▸ hpass)
            · refine .inr ⟨i, ?_, ?_⟩
              · cases flow with
                | next s₁ => exact (h.left i).loop n s₁ hleft s' hs
                | stop s₁ => exact Option.some.inj hs ▸ hleft
              · cases flow' with
                | next t₁ => exact (h.right i).loop n t₁ hright t' ht
                | stop t₁ => exact Option.some.inj ht ▸ hright

/-- What two runs that return have reached. -/
theorem settles {f : ℕ → α → Option γ} {g : ℕ → β → Option δ} (h : ∀ n, Coupled T U (f n) (g n))
    {a : α} {b : β} (hab : T.both a b) {c : γ} {d : δ} (hc : Settles (fun n => f n a) c)
    (hd : Settles (fun n => g n b) d) : U.both c d ∨ ∃ i, U.left i c ∧ U.right i d := by
  obtain ⟨N, hN⟩ := hc
  obtain ⟨M, hM⟩ := hd
  exact (h (max N M)).both a b hab c d (hN _ (Nat.le_max_left N M)) (hM _ (Nat.le_max_right N M))

end Coupled

end Fuel
