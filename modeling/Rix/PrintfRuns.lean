import Rix.Coupling
import Rix.Printf

/-!
# Coupled runs of the formatter

What holds between the environments of two calls, or of one call alone, holds after every step of
the formatter when `putc` keeps it, whether or not the call is counted.
-/
namespace Rix
open Fuel

variable {ι σ : Type} {E E₁ E₂ : PrintfEnv σ} {L : Link ι (σ × BitVec 32) (σ × BitVec 32)}
  {args : ℕ → Word} {nullText : Word}

def PrintfState.outer (st : PrintfState σ) : σ × BitVec 32 := (st.env, st.printed)

def putcCount (E : PrintfEnv σ) (c : Byte) (d : BitVec 32) (x : σ × BitVec 32) :
    Option (σ × BitVec 32) :=
  (E.putc c x.1).map fun env => (env, x.2 + d)

theorem putcCount_eq {st : PrintfState σ} {c : Byte} {env : σ} (h : E.putc c st.env = some env)
    (d : BitVec 32) : putcCount E c d st.outer = some (env, st.printed + d) := by
  rw [putcCount, PrintfState.outer, h, Option.map_some]

/-- What two environments need so that runs over them stay linked. -/
structure EnvCoupled (L : Link ι (σ × BitVec 32) (σ × BitVec 32)) (E₁ E₂ : PrintfEnv σ) : Prop where
  fetch : ∀ x y, L.both x y → E₁.fetch x.1 = E₂.fetch y.1
  load : ∀ x y, L.both x y → E₁.load x.1 = E₂.load y.1
  putc : ∀ c d, d = 0 ∨ d = 1 → Coupled L L (putcCount E₁ c d) (putcCount E₂ c d)

/-- The locals of two runs that go together are the same. -/
def stateLink (L : Link ι (σ × BitVec 32) (σ × BitVec 32)) :
    Link ι (PrintfState σ) (PrintfState σ) where
  both a b := a.toPrintfLocals = b.toPrintfLocals ∧ L.both a.outer b.outer
  left i a := L.left i a.outer
  right i b := L.right i b.outer

theorem coupled_locals (u : PrintfLocals → PrintfLocals) :
    Coupled (stateLink L) (stateLink L)
      (fun st => some { st with toPrintfLocals := u st.toPrintfLocals })
      (fun st => some { st with toPrintfLocals := u st.toPrintfLocals }) := by
  apply Coupled.pure
  · exact fun _ _ h => h
  · exact fun _ _ h => h
  · intro a b h
    exact ⟨congrArg u h.1, h.2⟩

theorem coupled_set {k : PrintfState σ → PrintfState σ} (u : PrintfLocals → PrintfLocals)
    (hk : ∀ st, k st = { st with toPrintfLocals := u st.toPrintfLocals }) :
    Coupled (stateLink L) (stateLink L) (fun st => some (k st)) (fun st => some (k st)) := by
  simp only [hk]
  exact coupled_locals u

theorem coupled_keep : Coupled (stateLink L) (stateLink L) (fun st : PrintfState σ => some st)
    (fun st => some st) := coupled_locals fun l => l

theorem coupled_next (u : PrintfLocals → PrintfLocals) :
    Coupled (stateLink L) (stateLink L).flow
      (fun st => some (.next { st with toPrintfLocals := u st.toPrintfLocals }))
      (fun st => some (.next { st with toPrintfLocals := u st.toPrintfLocals })) := by
  apply Coupled.pure
  · exact fun _ _ h => h
  · exact fun _ _ h => h
  · intro a b h
    exact ⟨congrArg u h.1, h.2⟩

theorem coupled_stop :
    Coupled (stateLink L) (stateLink L).flow (fun st : PrintfState σ => some (.stop st))
      (fun st => some (.stop st)) := by
  apply Coupled.pure
  · exact fun _ _ h => h
  · exact fun _ _ h => h
  · exact fun _ _ h => h

theorem coupled_ite {γ : Type} {U : Link ι γ γ} {f f' g g' : PrintfState σ → Option γ}
    (p : PrintfLocals → Prop) [DecidablePred p] (hf : Coupled (stateLink L) U f g)
    (hf' : Coupled (stateLink L) U f' g') :
    Coupled (stateLink L) U (fun st => if p st.toPrintfLocals then f st else f' st)
      (fun st => if p st.toPrintfLocals then g st else g' st) := by
  apply hf.ite _ hf'
  intro a b h
  rw [h.1]

theorem coupled_comp {γ : Type} {U : Link ι γ γ} {f g : PrintfState σ → Option γ}
    (u : PrintfLocals → PrintfLocals) (hf : Coupled (stateLink L) U f g) :
    Coupled (stateLink L) U (fun st => f { st with toPrintfLocals := u st.toPrintfLocals })
      (fun st => g { st with toPrintfLocals := u st.toPrintfLocals }) :=
  (coupled_locals u).bind hf

theorem coupled_pass {f g : PrintfState σ → Option (PrintfState σ)}
    (h : Coupled (stateLink L) (stateLink L) f g) :
    Coupled (stateLink L) (stateLink L).flow (fun st => (f st).map Flow.next)
      (fun st => (g st).map Flow.next) := by
  simp only [Option.map_eq_bind]
  exact h.bind (coupled_next fun l => l)

theorem coupled_read {γ : Type} {U : Link ι γ γ} {r r' : σ → Word → Option Byte}
    (hr : ∀ x y, L.both x y → r x.1 = r' y.1) (p : PrintfLocals → Word)
    {f g : Byte → PrintfState σ → Option γ} (hf : ∀ c, Coupled (stateLink L) U (f c) (g c)) :
    Coupled (stateLink L) U (fun st => (r st.env (p st.toPrintfLocals)).bind fun c => f c st)
      (fun st => (r' st.env (p st.toPrintfLocals)).bind fun c => g c st) := by
  refine ⟨fun i a ha d hd => ?_, fun i b hb d hd => ?_, fun a b hab d e hd he => ?_⟩
  · obtain ⟨c, -, hd⟩ := Option.bind_eq_some_iff.mp hd
    exact (hf c).left i a ha d hd
  · obtain ⟨c, -, hd⟩ := Option.bind_eq_some_iff.mp hd
    exact (hf c).right i b hb d hd
  · obtain ⟨c, hc, hd⟩ := Option.bind_eq_some_iff.mp hd
    have heq : r' b.env (p b.toPrintfLocals) = some c := by
      rw [← hc, ← hab.1]
      exact (congrFun (hr _ _ hab.2) _).symm
    rw [heq, Option.bind_some] at he
    exact (hf c).both a b hab d e hd he

section

variable (h : EnvCoupled L E₁ E₂)

include h

theorem coupled_peek : Coupled (stateLink L) (stateLink L) (peek E₁) (peek E₂) := by
  unfold peek
  simp only [Option.map_eq_bind]
  exact coupled_read h.fetch PrintfLocals.fmt fun c => coupled_locals fun l => { l with c := c }

theorem coupled_take : Coupled (stateLink L) (stateLink L) (next E₁) (next E₂) := by
  unfold next
  simp only [Option.map_eq_bind]
  exact coupled_read h.fetch PrintfLocals.fmt fun c =>
    coupled_locals fun l => { l with c := c, fmt := l.fmt + 1 }

theorem coupled_putc (c : PrintfLocals → Byte) {d : BitVec 32} (hd : d = 0 ∨ d = 1) :
    Coupled (stateLink L) (stateLink L)
      (fun st => (E₁.putc (c st.toPrintfLocals) st.env).map fun env =>
        { st with env := env, printed := st.printed + d })
      (fun st => (E₂.putc (c st.toPrintfLocals) st.env).map fun env =>
        { st with env := env, printed := st.printed + d }) := by
  refine ⟨fun i a ha a' ha' => ?_, fun i b hb b' hb' => ?_, fun a b hab a' b' ha' hb' => ?_⟩
  · obtain ⟨env, henv, rfl⟩ := Option.map_eq_some_iff.mp ha'
    exact (h.putc _ d hd).left i a.outer ha _ (putcCount_eq henv d)
  · obtain ⟨env, henv, rfl⟩ := Option.map_eq_some_iff.mp hb'
    exact (h.putc _ d hd).right i b.outer hb _ (putcCount_eq henv d)
  · obtain ⟨enva, henva, rfl⟩ := Option.map_eq_some_iff.mp ha'
    obtain ⟨envb, henvb, rfl⟩ := Option.map_eq_some_iff.mp hb'
    rw [← hab.1] at henvb
    rcases (h.putc _ d hd).both a.outer b.outer hab.2 _ _ (putcCount_eq henva d)
      (putcCount_eq henvb d) with hboth | hparted
    · exact .inl ⟨hab.1, hboth⟩
    · exact .inr hparted

theorem coupled_emit (c : PrintfLocals → Byte) :
    Coupled (stateLink L) (stateLink L) (fun st => emit E₁ (c st.toPrintfLocals) st)
      (fun st => emit E₂ (c st.toPrintfLocals) st) := by
  have hzero : ∀ x : BitVec 32, x + 0 = x := BitVec.add_zero
  have hputc := coupled_putc h c (.inl rfl)
  simp only [hzero] at hputc
  exact hputc

theorem coupled_emitCounted (c : PrintfLocals → Byte) :
    Coupled (stateLink L) (stateLink L) (fun st => emitCounted E₁ (c st.toPrintfLocals) st)
      (fun st => emitCounted E₂ (c st.toPrintfLocals) st) :=
  coupled_putc h c (.inr rfl)

theorem coupled_flagsPass :
    Coupled (stateLink L) (stateLink L).flow (flagsPass E₁) (flagsPass E₂) := by
  apply (coupled_peek h).bind
  refine coupled_ite (fun l => l.c = ch '-') (coupled_next fun l =>
    { l with flags := l.flags ||| flagLeft, fmt := l.fmt + 1 }) ?_
  refine coupled_ite (fun l => l.c = ch '+') (coupled_next fun l =>
    { l with flags := l.flags ||| flagPlus, fmt := l.fmt + 1 }) ?_
  refine coupled_ite (fun l => l.c = ch ' ') (coupled_next fun l =>
    { l with flags := l.flags ||| flagSpace, fmt := l.fmt + 1 }) ?_
  exact coupled_ite (fun l => l.c = ch '#') (coupled_next fun l =>
    { l with flags := l.flags ||| flagAlt, fmt := l.fmt + 1 }) coupled_stop

theorem coupled_take_of (u : PrintfLocals → PrintfLocals) :
    Coupled (stateLink L) (stateLink L)
      (fun st => next E₁ { st with toPrintfLocals := u st.toPrintfLocals })
      (fun st => next E₂ { st with toPrintfLocals := u st.toPrintfLocals }) :=
  coupled_comp u (coupled_take h)

theorem coupled_scanZero : Coupled (stateLink L) (stateLink L) (scanZero E₁) (scanZero E₂) :=
  coupled_ite (fun l => l.c = ch '0') (coupled_take_of h fun l => { l with padc := ch '0' })
    coupled_keep

theorem coupled_scanWidth (fuel : ℕ) :
    Coupled (stateLink L) (stateLink L) (scanWidth E₁ args fuel) (scanWidth E₂ args fuel) := by
  refine coupled_ite (fun l => isdigit l.c) (Coupled.loop ?_ fuel) ?_
  · exact coupled_ite (fun l => isdigit l.c) (coupled_pass (coupled_take_of h fun l =>
      { l with width := 10 * l.width + chtod l.c })) coupled_stop
  · refine coupled_ite (fun l => l.c = ch '*') ?_ coupled_keep
    simp only [funext negateWidth_eq, Option.map_id']
    exact coupled_take_of h fun l =>
      { l with width := (args l.argp).setWidth 32, argp := l.argp + 1 }

theorem coupled_scanPoint (fuel : ℕ) :
    Coupled (stateLink L) (stateLink L) (scanPoint E₁ args fuel) (scanPoint E₂ args fuel) := by
  refine coupled_ite (fun l => isdigit l.c) ?_ ?_
  · apply coupled_comp fun l => { l with precision := 0 }
    apply Coupled.loop
    exact coupled_ite (fun l => isdigit l.c) (coupled_pass (coupled_take_of h fun l =>
      { l with precision := 10 * l.precision + chtod l.c })) coupled_stop
  · exact coupled_ite (fun l => l.c = ch '*') (coupled_take_of h fun l =>
      { l with precision := (args l.argp).setWidth 32, argp := l.argp + 1 }) coupled_keep

theorem coupled_scanPrecision (fuel : ℕ) :
    Coupled (stateLink L) (stateLink L) (scanPrecision E₁ args fuel) (scanPrecision E₂ args fuel) :=
  coupled_ite (fun l => l.c = ch '.') ((coupled_take h).bind (coupled_scanPoint h fuel))
    coupled_keep

theorem coupled_scanDouble (letter : Byte) (double : NumberType) :
    Coupled (stateLink L) (stateLink L) (scanDouble E₁ letter double)
      (scanDouble E₂ letter double) :=
  coupled_ite (fun l => l.c = letter) (coupled_take_of h fun l => { l with ntype := double })
    coupled_keep

theorem coupled_scanLength :
    Coupled (stateLink L) (stateLink L) (scanLength E₁) (scanLength E₂) := by
  refine coupled_ite (fun l => l.c = ch 'l') ?_ (coupled_ite (fun l => l.c = ch 'h') ?_ ?_)
  · exact (coupled_take_of h fun l => { l with ntype := .long }).bind (coupled_scanDouble h _ _)
  · exact (coupled_take h).bind
      (coupled_comp (fun l => { l with ntype := .short }) (coupled_scanDouble h _ _))
  · exact coupled_ite (fun l => l.c = ch 'q' ∨ l.c = ch 'L')
      (coupled_take_of h fun l => { l with ntype := .long }) coupled_keep

omit h in
theorem coupled_scanSize : Coupled (stateLink L) (stateLink L)
    (fun st : PrintfState σ => some (scanSize st)) (fun st => some (scanSize st)) := by
  refine coupled_set (fun l => if l.c = ch 'z' ∨ l.c = ch 'Z' then { l with ntype := .sizeT } else l)
    fun st => ?_
  unfold scanSize
  split <;> rfl

theorem coupled_scanDirective (fuel : ℕ) : Coupled (stateLink L) (stateLink L)
    (scanDirective E₁ args fuel) (scanDirective E₂ args fuel) := by
  have hflags := (coupled_flagsPass h).loop fuel
  have hstart := coupled_comp (fun l => { l with
    fmt := l.fmt + 1, padc := ch ' ', width := 0, precision := -1, base := 10, ntype := .none })
    hflags
  exact hstart.bind ((coupled_scanZero h).bind ((coupled_scanWidth h fuel).bind
    ((coupled_scanPrecision h fuel).bind ((coupled_scanLength h).bind coupled_scanSize))))

theorem coupled_padPass : Coupled (stateLink L) (stateLink L).flow (padPass E₁) (padPass E₂) := by
  refine coupled_ite (fun l => l.n < l.width.setWidth 64) ?_ coupled_stop
  simp only [Option.map_eq_bind]
  exact (coupled_emitCounted h fun _ => ch ' ').bind (coupled_next fun l => { l with n := l.n + 1 })

theorem coupled_measurePass :
    Coupled (stateLink L) (stateLink L).flow (measurePass E₁) (measurePass E₂) :=
  coupled_read h.load PrintfLocals.s fun b => coupled_ite
    (fun l => b ≠ 0 ∧ l.n < l.precision.setWidth 64)
    (coupled_next fun l => { l with s := l.s + 1, n := l.n + 1 }) coupled_stop

theorem coupled_copyPass : Coupled (stateLink L) (stateLink L).flow (copyPass E₁) (copyPass E₂) := by
  refine coupled_ite (fun l => l.n < l.precision.setWidth 64 ∧
    ¬ (0 < l.width ∧ l.width.setWidth 64 ≤ l.n)) ?_ coupled_stop
  apply coupled_read h.load PrintfLocals.s
  intro b
  refine coupled_ite (fun _ => b = 0) coupled_stop ?_
  simp only [Option.map_eq_bind]
  exact (coupled_emitCounted h fun _ => b).bind
    (coupled_next fun l => { l with s := l.s + 1, n := l.n + 1 })

theorem coupled_padLeft (fuel : ℕ) :
    Coupled (stateLink L) (stateLink L) (padLeft E₁ fuel) (padLeft E₂ fuel) := by
  refine coupled_ite (fun l => 0 < l.width ∧ ¬ l.ladjust) ?_ coupled_keep
  have hmeasure := coupled_comp (fun l => { l with n := 0, ssaved := l.s })
    ((coupled_measurePass h).loop fuel)
  exact hmeasure.bind (coupled_comp (fun l => { l with s := l.ssaved }) ((coupled_padPass h).loop fuel))

theorem coupled_stringField (fuel : ℕ) : Coupled (stateLink L) (stateLink L)
    (stringField E₁ args nullText fuel) (stringField E₂ args nullText fuel) := by
  have hleft := coupled_comp (fun l => { l with
    s := if args l.argp = NULL then nullText else args l.argp
    argp := l.argp + 1
    precision := if l.precision = -1 then int32Max else l.precision }) (coupled_padLeft h fuel)
  refine hleft.bind ((coupled_comp (fun l => { l with n := 0 })
    ((coupled_copyPass h).loop fuel)).bind ?_)
  exact coupled_ite (fun l => l.n < l.width.setWidth 64 ∧ l.ladjust)
    ((coupled_padPass h).loop fuel) coupled_keep

theorem coupled_printUnsigned : Coupled (stateLink L) (stateLink L) (printUnsigned E₁ args)
    (printUnsigned E₂ args) :=
  coupled_comp (fun l => { l with
    argp := l.argp + 1
    n := narrowUnsigned l.ntype (unsignedArg l.ntype (args l.argp)) })
    (coupled_emit h PrintfLocals.c)

theorem coupled_printAlt :
    Coupled (stateLink L) (stateLink L) (printAlt E₁) (printAlt E₂) :=
  coupled_ite (fun l => l.flags &&& flagAlt ≠ 0) (coupled_emit h PrintfLocals.c) coupled_keep

theorem coupled_convert (fuel : ℕ) : Coupled (stateLink L) (stateLink L)
    (convert E₁ args nullText fuel) (convert E₂ args nullText fuel) := by
  refine coupled_ite (fun l => l.c = ch 'c') ?_ (coupled_ite (fun l => l.c = ch 's') ?_
    (coupled_ite (fun l => l.c = ch 'o' ∨ l.c = ch 'O') ?_
    (coupled_ite (fun l => l.c = ch 'i' ∨ l.c = ch 'd') ?_
    (coupled_ite (fun l => l.c = ch 'U') ?_ (coupled_ite (fun l => l.c = ch 'u') ?_
    (coupled_ite (fun l => l.c = ch 'p') ?_ (coupled_ite (fun l => l.c = ch 'X') ?_
    (coupled_ite (fun l => l.c = ch 'x') (coupled_printAlt h) (coupled_emit h PrintfLocals.c)))))))))
  · exact coupled_comp (fun l => { l with c := (args l.argp).setWidth 8, argp := l.argp + 1 })
      (coupled_emitCounted h PrintfLocals.c)
  · exact (coupled_stringField h fuel).bind
      (coupled_comp (fun l => { l with base := 8 }) (coupled_printUnsigned h))
  · exact coupled_comp (fun l => { l with base := 8 }) (coupled_printUnsigned h)
  · exact coupled_comp (fun l => { l with
      base := 10
      flags := l.flags ||| flagSign
      argp := l.argp + 1
      n := narrowSigned l.ntype (signedArg l.ntype (args l.argp)) }) (coupled_printUnsigned h)
  · exact coupled_comp (fun l => { l with flags := l.flags ||| flagCaps }) (coupled_printUnsigned h)
  · exact coupled_printUnsigned h
  · exact coupled_comp (fun l => { l with
      flags := l.flags ||| flagAlt ||| flagCaps, base := 16 }) (coupled_printAlt h)
  · exact coupled_comp (fun l => { l with
      flags := l.flags ||| flagCaps, base := 16 }) (coupled_printAlt h)

theorem coupled_directive (fuel : ℕ) : Coupled (stateLink L) (stateLink L)
    (directive E₁ args nullText fuel) (directive E₂ args nullText fuel) :=
  (coupled_scanDirective h fuel).bind (coupled_convert h fuel)

theorem coupled_printfPass (fuel : ℕ) : Coupled (stateLink L) (stateLink L).flow
    (printfPass E₁ args nullText fuel) (printfPass E₂ args nullText fuel) := by
  refine (coupled_peek h).bind (coupled_ite (fun l => l.c = 0) coupled_stop ?_)
  refine coupled_ite (fun l => l.c ≠ ch '%') (coupled_pass ?_) (coupled_pass (coupled_directive h fuel))
  unfold literal
  simp only [Option.map_eq_bind]
  exact (coupled_emitCounted h PrintfLocals.c).bind (coupled_locals fun l => { l with fmt := l.fmt + 1 })

end

/-- Two runs over linked environments, as far as they go together and behind that. -/
theorem printfInternal_linked (h : EnvCoupled L E₁ E₂) {env₁ env₂ : σ} (h0 : L.both (env₁, 0) (env₂, 0))
    {n : ℕ} {fmt : Word} {flags : BitVec 32} {st₁ st₂ : PrintfState σ}
    (h₁ : printfInternal E₁ args nullText n env₁ fmt flags = some st₁)
    (h₂ : printfInternal E₂ args nullText n env₂ fmt flags = some st₂) :
    L.both st₁.outer st₂.outer ∨ ∃ i, L.left i st₁.outer ∧ L.right i st₂.outer := by
  rcases ((coupled_printfPass h n).loop n).both (printfStart env₁ fmt flags)
    (printfStart env₂ fmt flags) ⟨rfl, h0⟩ st₁ st₂ h₁ h₂ with hboth | hparted
  · exact .inl hboth.2
  · exact .inr hparted

/-- The link of a run with itself by what it keeps. -/
def aloneLink (P : σ × BitVec 32 → Prop) : Link Unit (σ × BitVec 32) (σ × BitVec 32) :=
  ⟨fun _ _ => False, fun _ => P, fun _ _ => True⟩

theorem aloneLink_coupled {P : σ × BitVec 32 → Prop}
    (h : ∀ c d, d = 0 ∨ d = 1 → Keeps P P (putcCount E c d)) : EnvCoupled (aloneLink P) E E where
  fetch _ _ hboth := hboth.elim
  load _ _ hboth := hboth.elim
  putc c d hd := ⟨fun _ => h c d hd, fun _ _ _ _ _ => trivial, fun _ _ hboth => hboth.elim⟩

/-- The link by what every call of `putc` keeps of the environment. -/
theorem aloneLink_env {Q : σ → Prop} (h : ∀ c s s', Q s → E.putc c s = some s' → Q s') :
    EnvCoupled (aloneLink fun x => Q x.1) E E := by
  refine aloneLink_coupled fun c d _ x hx y hy => ?_
  obtain ⟨env, henv, rfl⟩ := Option.map_eq_some_iff.mp hy
  exact h c x.1 env hx henv

/-- What every call of `putc` keeps, a run keeps. -/
theorem printfInternal_keeps {Q : σ → Prop} (h : ∀ c s s', Q s → E.putc c s = some s' → Q s')
    {env : σ} (h0 : Q env) {n : ℕ} {fmt : Word} {flags : BitVec 32} {st : PrintfState σ}
    (hrun : printfInternal E args nullText n env fmt flags = some st) : Q st.env :=
  (((coupled_printfPass (aloneLink_env h) n).loop n).left ()) (printfStart env fmt flags) h0 st hrun

end Rix
