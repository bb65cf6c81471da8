import Rix.PrintfFormat

/-!
# Formats that print nothing

The cases `'x'` and `'X'` print their letter with the flag `ALT` and nothing without it, and every
other conversion calls `putc`. The flags are not cleared between directives.
-/
namespace Rix
open Fuel

/-- The directives convert with `x` or `X` and have no `#`. -/
inductive Silent : List Byte → Prop where
  | nil : Silent []
  | directive {u r : List Byte} (hflags : ch '#' ∉ u.takeWhile isFlag)
      (hx : conversion (u.dropWhile isFlag) = ch 'x' ∨ conversion (u.dropWhile isFlag) = ch 'X')
      (hr : behindDirective (u.dropWhile isFlag) = some r) (h : Silent r) : Silent (ch '%' :: u)

theorem or_alt (f g : BitVec 32) :
    (f ||| g) &&& flagAlt = 0 ↔ f &&& flagAlt = 0 ∧ g &&& flagAlt = 0 := by
  rw [BitVec.and_or_distrib_right]
  exact BitVec.or_eq_zero_iff

theorem flagOf_alt {c : Byte} (hc : isFlag c = true) : flagOf c &&& flagAlt = 0 ↔ c ≠ ch '#' := by
  simp only [isFlag, Bool.or_eq_true, decide_eq_true_eq] at hc
  rcases hc with ((rfl | rfl) | rfl) | rfl <;> decide

theorem setFlags_alt {u : List Byte} (hu : ∀ c ∈ u, isFlag c = true) (f : BitVec 32) :
    setFlags f u &&& flagAlt = 0 ↔ f &&& flagAlt = 0 ∧ ch '#' ∉ u := by
  induction u generalizing f with
  | nil => simp [setFlags]
  | cons c u ih =>
      have htail : setFlags f (c :: u) = setFlags (f ||| flagOf c) u := rfl
      rw [htail, ih (fun d hd => hu d (List.mem_cons_of_mem c hd)), or_alt,
        flagOf_alt (hu c List.mem_cons_self), List.mem_cons, not_or, and_assoc, ne_comm]

theorem takeWhile_alt (f : BitVec 32) (u : List Byte) :
    setFlags f (u.takeWhile isFlag) &&& flagAlt = 0 ↔
      f &&& flagAlt = 0 ∧ ch '#' ∉ u.takeWhile isFlag :=
  setFlags_alt (fun _ hc => List.all_eq_true.mp List.all_takeWhile _ hc) f

theorem exists_behindDirective {u : List Byte} (h : conversion u ≠ 0) :
    ∃ r, behindDirective u = some r := by
  have htail : ∀ v : List Byte, v.headD 0 ≠ 0 → ∃ r, v.tail? = some r := by
    intro v hv
    cases v with
    | nil => exact absurd rfl hv
    | cons c v => exact ⟨v, rfl⟩
  cases u with
  | nil => exact absurd rfl h
  | cons c u =>
      simp only [conversion] at h
      simp only [behindDirective]
      split_ifs at h ⊢
      · exact htail _ h
      · exact htail _ h
      · exact ⟨_, rfl⟩
      · exact ⟨_, rfl⟩

section

variable {σ : Type} {E : PrintfEnv σ} {args : ℕ → Word} {nullText : Word}

/-- The conversion calls no `putc`. -/
def SilentConversion (st : PrintfLocals) : Prop :=
  (st.c = ch 'x' ∨ st.c = ch 'X') ∧ st.flags &&& flagAlt = 0

theorem convert_silent (E : PrintfEnv σ) (args : ℕ → Word) (nullText : Word) {st : PrintfState σ}
    (h : SilentConversion st.toPrintfLocals) :
    ∃ st', (∀ n, convert E args nullText n st = some st') ∧ st'.env = st.env ∧ st'.fmt = st.fmt ∧
      st'.flags &&& flagAlt = 0 := by
  obtain ⟨hc | hc, halt⟩ := h
  · refine ⟨st, fun n => ?_, rfl, rfl, halt⟩
    have hprint : printAlt E st = some st := if_neg (not_not_intro halt)
    rw [← hprint, convert, hc]
    rfl
  · have halt' : (st.flags ||| flagCaps) &&& flagAlt = 0 := (or_alt _ _).mpr ⟨halt, by decide⟩
    refine ⟨{ st with flags := st.flags ||| flagCaps, base := 16 }, fun n => ?_, rfl, rfl, halt'⟩
    have hprint : printAlt E { st with flags := st.flags ||| flagCaps, base := 16 } =
        some { st with flags := st.flags ||| flagCaps, base := 16 } := if_neg (not_not_intro halt')
    rw [← hprint, convert, hc]
    rfl

variable {P : σ → Prop} (hP : ∀ c s s', E.putc c s = some s' → P s')

include hP

theorem emit_marks {c : Byte} {st st' : PrintfState σ} (h : emit E c st = some st') : P st'.env := by
  obtain ⟨env, henv, rfl⟩ := Option.map_eq_some_iff.mp h
  exact hP _ _ _ henv

theorem emitCounted_marks {c : Byte} {st st' : PrintfState σ} (h : emitCounted E c st = some st') :
    P st'.env := by
  obtain ⟨env, henv, rfl⟩ := Option.map_eq_some_iff.mp h
  exact hP _ _ _ henv

theorem printAlt_marks {st st' : PrintfState σ} (halt : st.flags &&& flagAlt ≠ 0)
    (h : printAlt E st = some st') : P st'.env := by
  rw [printAlt, if_pos halt] at h
  exact emit_marks hP h

theorem convert_marks {st st' : PrintfState σ} (hst : ¬ SilentConversion st.toPrintfLocals) {n : ℕ}
    (h : convert E args nullText n st = some st') : P st'.env := by
  have halt : ∀ {c : Byte} (flags : BitVec 32), (c = ch 'x' ∨ c = ch 'X') → st.c = c →
      (st.flags ||| flags) &&& flagAlt ≠ 0 := by
    rintro c flags hx rfl h0
    exact hst ⟨hx, ((or_alt _ _).mp h0).1⟩
  unfold convert at h
  split_ifs at h with hc hs ho hd hU hu hp hX hx
  · exact emitCounted_marks hP h
  · obtain ⟨st₁, -, h₁⟩ := Option.bind_eq_some_iff.mp h
    exact emit_marks hP h₁
  · exact emit_marks hP h
  · exact emit_marks hP h
  · exact emit_marks hP h
  · exact emit_marks hP h
  · refine printAlt_marks hP ?_ h
    intro h0
    exact absurd ((or_alt _ _).mp ((or_alt _ _).mp h0).1).2 (by decide)
  · exact printAlt_marks hP (halt flagCaps (.inr rfl) hX) h
  · have hflags : st.flags ||| 0 = st.flags := BitVec.or_zero
    exact printAlt_marks hP (hflags ▸ halt 0 (.inl rfl) hx) h
  · exact emit_marks hP h

end

section

variable {σ : Type} {E : PrintfEnv σ} {fmt : Word} {l : List Byte} (args : ℕ → Word) (nullText : Word)
  (hT : E.Total)

include hT

theorem pass_silent {st : PrintfState σ} (hE : Reads fmt l E st.env) {u r : List Byte}
    (h : TextAt fmt l st.fmt (ch '%' :: u ++ [0]))
    (halt : setFlags st.flags (u.takeWhile isFlag) &&& flagAlt = 0)
    (hx : conversion (u.dropWhile isFlag) = ch 'x' ∨ conversion (u.dropWhile isFlag) = ch 'X')
    (hr : behindDirective (u.dropWhile isFlag) = some r) :
    ∃ st', Settles (fun n => printfPass E args nullText n st) (.next st') ∧ st'.env = st.env ∧
      st'.flags &&& flagAlt = 0 ∧ TextAt fmt l st'.fmt (r ++ [0]) := by
  obtain ⟨st₁, st', ⟨hc, henv, hflags, hat⟩, hconvert, -, hpass⟩ :=
    pass_directive args nullText hE hT h
  have hsilent : SilentConversion st₁.toPrintfLocals := ⟨hc ▸ hx, hflags ▸ halt⟩
  obtain ⟨st₂, hst₂, henv₂, hfmt₂, halt₂⟩ :=
    convert_silent E args nullText hsilent
  obtain rfl := hconvert.unique (.of_forall hst₂)
  rw [hr] at hat
  exact ⟨st', hpass, henv₂.trans henv, halt₂, hfmt₂ ▸ hat⟩

theorem Silent.settles {u : List Byte} (hu : Silent u) {st : PrintfState σ}
    (hE : Reads fmt l E st.env) (halt : st.flags &&& flagAlt = 0)
    (h : TextAt fmt l st.fmt (u ++ [0])) :
    ∃ st', LoopSettles (printfPass E args nullText) st st' ∧ st'.env = st.env := by
  induction hu generalizing st with
  | nil =>
      obtain ⟨st', hpass, henv⟩ := pass_nul args nullText hE h
      exact ⟨st', .stop hpass, henv⟩
  | @directive u r hflags hx hr _ ih =>
      obtain ⟨st₁, hpass, henv₁, halt₁, h₁⟩ := pass_silent args nullText hT hE h
        ((takeWhile_alt st.flags u).mpr ⟨halt, hflags⟩) hx hr
      obtain ⟨st', hloop, henv⟩ := ih (henv₁ ▸ hE) halt₁ h₁
      exact ⟨st', .next hpass hloop, henv.trans henv₁⟩

variable {P : σ → Prop} (hP : ∀ c s s', E.putc c s = some s' → P s') (h0 : (0 : Byte) ∉ l)

include hP h0

/-- Any other format calls `putc`. -/
theorem visits_marked (k : ℕ) {u : List Byte} (hk : u.length = k) {st : PrintfState σ}
    (hu : ¬ (u = [] ∨ st.flags &&& flagAlt = 0 ∧ Silent u)) (hE : Reads fmt l E st.env)
    (h : TextAt fmt l st.fmt (u ++ [0])) :
    ∃ st', Visits (printfPass E args nullText) st st' ∧ P st'.env := by
  induction k using Nat.strong_induction_on generalizing u st with
  | _ k ih =>
    cases u with
    | nil => exact absurd (.inl rfl) hu
    | cons c u =>
        rw [List.length_cons] at hk
        by_cases hc : c = ch '%'
        · subst hc
          by_cases hsilent : setFlags st.flags (u.takeWhile isFlag) &&& flagAlt = 0 ∧
            (conversion (u.dropWhile isFlag) = ch 'x' ∨ conversion (u.dropWhile isFlag) = ch 'X')
          · obtain ⟨halt, hx⟩ := hsilent
            obtain ⟨r, hr⟩ := exists_behindDirective (u := u.dropWhile isFlag)
              (by rcases hx with hx | hx <;> rw [hx] <;> decide)
            obtain ⟨st₁, hpass, henv₁, halt₁, h₁⟩ := pass_silent args nullText hT hE h halt hx hr
            obtain ⟨halt, hflags⟩ := (takeWhile_alt st.flags u).mp halt
            have hlt : r.length < k := by
              have := (behindDirective_length hr).trans (List.dropWhile_suffix _).length_le
              omega
            have hr' : ¬ (r = [] ∨ st₁.flags &&& flagAlt = 0 ∧ Silent r) := by
              rintro (rfl | ⟨-, hr'⟩)
              · exact hu (.inr ⟨halt, .directive hflags hx hr .nil⟩)
              · exact hu (.inr ⟨halt, .directive hflags hx hr hr'⟩)
            obtain ⟨st', hvisits, h'⟩ := ih r.length hlt rfl hr' (henv₁ ▸ hE) h₁
            exact ⟨st', .head hpass hvisits, h'⟩
          · obtain ⟨st₁, st', ⟨hc, -, hflags, -⟩, ⟨N, hN⟩, -, hpass⟩ :=
              pass_directive args nullText hE hT h
            refine ⟨st', .next .start hpass, convert_marks hP ?_ (hN N le_rfl)⟩
            rintro ⟨hx, halt⟩
            rw [hflags] at halt
            exact hsilent ⟨halt, hc ▸ hx⟩
        · have hc0 : c ≠ 0 := fun hzero => h0 (h.mem_text (hzero ▸ List.mem_cons_self))
          obtain ⟨st', hpass, -, hputc⟩ := pass_literal args nullText hE hT hc0 hc h
          exact ⟨st', .next .start hpass, hP _ _ _ hputc⟩

/-- A run that returns has called no `putc` exactly when its format is empty or, with `ALT` clear in
the uninitialised flags, silent. -/
theorem printf_silent_iff {env : σ} (henv : ¬ P env) (hE : Reads fmt l E env) (flags : BitVec 32) :
    ∃ N, ∀ n, N ≤ n → ∀ st, printfInternal E args nullText n env fmt flags = some st →
      (¬ P st.env ↔ l = [] ∨ flags &&& flagAlt = 0 ∧ Silent l) := by
  have hstart : TextAt fmt l (printfStart env fmt flags).fmt (l ++ [0]) := .start
  by_cases hl : l = [] ∨ flags &&& flagAlt = 0 ∧ Silent l
  · have hsettles : ∃ st', LoopSettles (printfPass E args nullText) (printfStart env fmt flags) st' ∧
        st'.env = env := by
      rcases hl with rfl | ⟨halt, hl⟩
      · have hE' : Reads fmt [] E (printfStart env fmt flags).env := hE
        obtain ⟨st', hpass, henv'⟩ := pass_nul args nullText hE' hstart
        exact ⟨st', .stop hpass, henv'⟩
      · exact hl.settles args nullText hT hE halt hstart
    obtain ⟨st', hloop, henv'⟩ := hsettles
    obtain ⟨N, hN⟩ := hloop.settles
    refine ⟨N, fun n hn st hst => iff_of_true ?_ hl⟩
    have heq : st = st' := Option.some.inj (hst.symm.trans (hN n hn))
    rwa [heq, henv']
  · obtain ⟨st', hvisits, h'⟩ := visits_marked args nullText hT hP h0 l.length rfl hl hE hstart
    have hkeep : ∀ n, Keeps (fun st : PrintfState σ => P st.env)
        (Flow.Holds fun st : PrintfState σ => P st.env) (printfPass E args nullText n) :=
      fun n => (coupled_printfPass (aloneLink_env fun c s s' _ => hP c s s') n).left ()
    obtain ⟨N, hN⟩ := hvisits.keeps (fun n flow hflow => hkeep n st' h' flow hflow) hkeep
    exact ⟨N, fun n hn st hst => iff_of_false (not_not_intro (hN n hn st hst)) hl⟩

end

end Rix
