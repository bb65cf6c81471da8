import Mathlib.Tactic

/-!
# Simulation of one machine by another

A machine takes an event from one state to another and gives an output. Over it, a machine whose
states say what the first one is for: when each of its steps matches one of the first, whole runs
give the same outputs.
-/
namespace Simulation

variable {σ τ ε ω : Type*}

/-- A run over a list of events, with the outputs of its steps. -/
inductive Run (step : σ → ε → ω → σ → Prop) : σ → List ε → List ω → σ → Prop where
  | nil (s : σ) : Run step s [] [] s
  | cons {s t u : σ} {e : ε} {es : List ε} {o : ω} {os : List ω} (h : step s e o t)
      (hs : Run step t es os u) : Run step s (e :: es) (o :: os) u

/-- The outputs of a step function over a list of events, and its last state. -/
def run (f : τ → ε → ω × τ) : τ → List ε → List ω × τ
  | t, [] => ([], t)
  | t, e :: es => ((f t e).1 :: (run f (f t e).2 es).1, (run f (f t e).2 es).2)

/-- The steps of a function under the events that meet `ok`. -/
def Does (ok : ε → Prop) (f : σ → ε → ω × σ) (s : σ) (e : ε) (o : ω) (s' : σ) : Prop :=
  ok e ∧ f s e = (o, s')

theorem Run.of_forall {ok : ε → Prop} (f : σ → ε → ω × σ) (s : σ) {es : List ε}
    (h : ∀ e ∈ es, ok e) : Run (Does ok f) s es (run f s es).1 (run f s es).2 := by
  induction es generalizing s with
  | nil => exact .nil s
  | cons e es ih =>
      exact .cons ⟨h e List.mem_cons_self, rfl⟩ (ih _ fun e' he' => h e' (List.mem_cons_of_mem e he'))

/-- Every step of the one machine is a step of the other, with the same output. -/
def Simulates (R : τ → σ → Prop) (step : σ → ε → ω → σ → Prop) (f : τ → ε → ω × τ) : Prop :=
  ∀ t s e o s', R t s → step s e o s' → (f t e).1 = o ∧ R (f t e).2 s'

/-- A simulation of steps is one of runs. -/
theorem Simulates.run {R : τ → σ → Prop} {step : σ → ε → ω → σ → Prop} {f : τ → ε → ω × τ}
    (h : Simulates R step f) {t : τ} {s s' : σ} {es : List ε} {os : List ω} (hR : R t s)
    (hr : Run step s es os s') : (Simulation.run f t es).1 = os ∧ R (Simulation.run f t es).2 s' := by
  induction hr generalizing t with
  | nil => exact ⟨rfl, hR⟩
  | cons hstep _ ih =>
      obtain ⟨ho, hR'⟩ := h _ _ _ _ _ hR hstep
      obtain ⟨hos, hR''⟩ := ih hR'
      exact ⟨congrArg₂ List.cons ho hos, hR''⟩

end Simulation
