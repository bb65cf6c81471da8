import Rix.PrintfRuns
import Rix.PrintfScan

/-!
# The whole format

Every conversion returns, and a run returns exactly when the format ends inside none of its
directives; otherwise it comes to a read behind the NUL.
-/
namespace Rix
open Fuel

section

variable {σ : Type} {E : PrintfEnv σ}

/-- Strings can be read everywhere and `putc` returns. -/
structure PrintfEnv.Total (E : PrintfEnv σ) : Prop where
  load : ∀ s a, ∃ b, E.load s a = some b
  putc : ∀ c s, ∃ s', E.putc c s = some s'

/-- A pass that counts `n` up to a bound of 32 bits and leaves the cursor where it is. -/
def Counts (pass : PrintfState σ → Option (Flow (PrintfState σ))) : Prop :=
  ∀ st, (∃ st', pass st = some (.next st') ∧ st'.fmt = st.fmt ∧ st'.n = st.n + 1 ∧
      st.n.toNat < 2 ^ 32) ∨
    ∃ st', pass st = some (.stop st') ∧ st'.fmt = st.fmt

theorem Counts.settles {pass : PrintfState σ → Option (Flow (PrintfState σ))} (h : Counts pass)
    (st : PrintfState σ) :
    ∃ st', Settles (fun n => loop pass n st) st' ∧ st'.fmt = st.fmt := by
  have hrun : ∃ t, LoopSettles (fun _ => pass) st t ∧ t.fmt = st.fmt := by
    refine exists_loopSettles (fun t : PrintfState σ => t.fmt = st.fmt) (fun t => t.fmt = st.fmt)
      (fun t => 2 ^ 32 - t.n.toNat) (fun t ht => ?_) rfl
    rcases h t with ⟨t', hpass, hfmt, hn, hlt⟩ | ⟨t', hpass, hfmt⟩
    · refine .inl ⟨t', .of_forall fun _ => hpass, hfmt.trans ht, ?_⟩
      have hn' : t'.n.toNat = t.n.toNat + 1 := by
        rw [hn, BitVec.toNat_add]
        exact Nat.mod_eq_of_lt (by simp; omega)
      omega
    · exact .inr ⟨t', .of_forall fun _ => hpass, hfmt.trans ht⟩
  obtain ⟨st', hloop, h'⟩ := hrun
  exact ⟨st', hloop.settles, h'⟩

theorem toNat_lt_of_lt_setWidth {n : Word} {w : BitVec 32} (h : n < w.setWidth 64) :
    n.toNat < 2 ^ 32 := by
  have hw : w.toNat < 2 ^ 32 := w.isLt
  exact (toNat_lt_setWidth.mp h).trans hw

section

variable (hE : E.Total)

include hE

theorem emit_total (c : Byte) (st : PrintfState σ) :
    ∃ st', emit E c st = some st' ∧ st'.fmt = st.fmt := by
  obtain ⟨env, henv⟩ := hE.putc c st.env
  exact ⟨{ st with env := env }, by rw [emit, henv, Option.map_some], rfl⟩

theorem emitCounted_total (c : Byte) (st : PrintfState σ) :
    ∃ st', emitCounted E c st = some st' ∧ st'.toPrintfLocals = st.toPrintfLocals := by
  obtain ⟨env, henv⟩ := hE.putc c st.env
  exact ⟨{ st with env := env, printed := st.printed + 1 },
    by rw [emitCounted, henv, Option.map_some], rfl⟩

theorem padPass_counts : Counts (padPass E) := by
  intro st
  by_cases hn : st.n < st.width.setWidth 64
  · obtain ⟨st₁, hemit, h₁⟩ := emitCounted_total hE (ch ' ') st
    have hfmt : st₁.fmt = st.fmt := congrArg PrintfLocals.fmt h₁
    refine .inl ⟨{ st₁ with n := st₁.n + 1 }, ?_, hfmt,
      congrArg (fun l : PrintfLocals => l.n + 1) h₁, toNat_lt_of_lt_setWidth hn⟩
    rw [padPass, if_pos hn, hemit, Option.map_some]
  · exact .inr ⟨st, by rw [padPass, if_neg hn], rfl⟩

theorem measurePass_counts : Counts (measurePass E) := by
  intro st
  obtain ⟨b, hb⟩ := hE.load st.env st.s
  by_cases hn : b ≠ 0 ∧ st.n < st.precision.setWidth 64
  · refine .inl ⟨{ st with s := st.s + 1, n := st.n + 1 }, ?_, rfl, rfl,
      toNat_lt_of_lt_setWidth hn.2⟩
    rw [measurePass, hb]
    exact if_pos hn
  · refine .inr ⟨st, ?_, rfl⟩
    rw [measurePass, hb]
    exact if_neg hn

theorem copyPass_counts : Counts (copyPass E) := by
  intro st
  obtain ⟨b, hb⟩ := hE.load st.env st.s
  by_cases hn : st.n < st.precision.setWidth 64 ∧ ¬ (0 < st.width ∧ st.width.setWidth 64 ≤ st.n)
  · by_cases hzero : b = 0
    · refine .inr ⟨st, ?_, rfl⟩
      rw [copyPass, if_pos hn, hb]
      exact if_pos hzero
    · obtain ⟨st₁, hemit, h₁⟩ := emitCounted_total hE b st
      have hfmt : st₁.fmt = st.fmt := congrArg PrintfLocals.fmt h₁
      refine .inl ⟨{ st₁ with s := st₁.s + 1, n := st₁.n + 1 }, ?_, hfmt,
        congrArg (fun l : PrintfLocals => l.n + 1) h₁, toNat_lt_of_lt_setWidth hn.1⟩
      rw [copyPass, if_pos hn, hb]
      exact (if_neg hzero).trans (by rw [hemit, Option.map_some])
  · exact .inr ⟨st, by rw [copyPass, if_neg hn], rfl⟩

theorem padLeft_settles (st : PrintfState σ) :
    ∃ st', Settles (fun n => padLeft E n st) st' ∧ st'.fmt = st.fmt := by
  by_cases hpad : 0 < st.width ∧ ¬ st.ladjust
  · obtain ⟨st₁, hmeasure, h₁⟩ := (measurePass_counts hE).settles { st with n := 0, ssaved := st.s }
    obtain ⟨st', hloop, h'⟩ := (padPass_counts hE).settles { st₁ with s := st₁.ssaved }
    refine ⟨st', (hmeasure.bind (g := fun n st => loop (padPass E) n { st with s := st.ssaved })
      hloop).congr fun n => ?_, h'.trans h₁⟩
    rw [padLeft, if_pos hpad]
    rfl
  · exact ⟨st, .of_forall fun n => by rw [padLeft, if_neg hpad], rfl⟩

theorem padRight_settles (st : PrintfState σ) :
    ∃ st', Settles (fun n => padRight E n st) st' ∧ st'.fmt = st.fmt := by
  by_cases hpad : st.n < st.width.setWidth 64 ∧ st.ladjust
  · obtain ⟨st', hloop, h'⟩ := (padPass_counts hE).settles st
    exact ⟨st', hloop.congr fun n => by rw [padRight, if_pos hpad], h'⟩
  · exact ⟨st, .of_forall fun n => by rw [padRight, if_neg hpad], rfl⟩

variable (args : ℕ → Word) (nullText : Word)

theorem stringField_settles (st : PrintfState σ) :
    ∃ st', Settles (fun n => stringField E args nullText n st) st' ∧ st'.fmt = st.fmt := by
  obtain ⟨st₁, hleft, h₁⟩ := padLeft_settles hE (takeString args nullText st)
  obtain ⟨st₂, hcopy, h₂⟩ := (copyPass_counts hE).settles { st₁ with n := 0 }
  obtain ⟨st', hright, h'⟩ := padRight_settles hE st₂
  exact ⟨st', hleft.bind (hcopy.bind hright), h'.trans (h₂.trans h₁)⟩

omit nullText in
theorem printUnsigned_total (st : PrintfState σ) :
    ∃ st', printUnsigned E args st = some st' ∧ st'.fmt = st.fmt := emit_total hE _ _

omit args nullText in
theorem printAlt_total (st : PrintfState σ) :
    ∃ st', printAlt E st = some st' ∧ st'.fmt = st.fmt := by
  unfold printAlt
  split
  · exact emit_total hE _ _
  · exact ⟨st, rfl, rfl⟩

theorem convert_settles (st : PrintfState σ) :
    ∃ st', Settles (fun n => convert E args nullText n st) st' ∧ st'.fmt = st.fmt := by
  by_cases hs : st.c = ch 's'
  · obtain ⟨st₁, hfield, h₁⟩ := stringField_settles hE args nullText st
    obtain ⟨st', hunsigned, h'⟩ := printUnsigned_total hE args { st₁ with base := 8 }
    refine ⟨st', (hfield.bind (g := fun _ st => printUnsigned E args { st with base := 8 })
      (.of_forall fun _ => hunsigned)).congr fun n => ?_, h'.trans h₁⟩
    rw [convert, hs, if_neg (by decide), if_pos rfl]
  · have hother : ∃ st', (∀ n, convert E args nullText n st = some st') ∧ st'.fmt = st.fmt := by
      simp only [convert, if_neg hs, forall_const]
      split_ifs
      · obtain ⟨st', hemit, h'⟩ := emitCounted_total hE ((args st.argp).setWidth 8)
          { st with c := (args st.argp).setWidth 8, argp := st.argp + 1 }
        exact ⟨st', hemit, by rw [h']⟩
      · exact printUnsigned_total hE args _
      · exact printUnsigned_total hE args _
      · exact printUnsigned_total hE args _
      · exact printUnsigned_total hE args _
      · exact printAlt_total hE _
      · exact printAlt_total hE _
      · exact printAlt_total hE _
      · exact emit_total hE _ _
    obtain ⟨st', hconvert, h'⟩ := hother
    exact ⟨st', .of_forall hconvert, h'⟩

end

end

section

variable {σ : Type} {E : PrintfEnv σ} {fmt : Word} {l : List Byte} (args : ℕ → Word) (nullText : Word)
  {st : PrintfState σ}

theorem TextAt.mem_text {a : Word} {c : Byte} {u : List Byte} (h : TextAt fmt l a (u ++ [0]))
    (hc : c ∈ u) : c ∈ l := by
  obtain ⟨p, hp, -⟩ := h
  rw [← List.append_assoc] at hp
  rw [List.append_cancel_right hp]
  exact List.mem_append_right p hc

variable (hE : Reads fmt l E st.env)

include hE

theorem pass_nul (h : TextAt fmt l st.fmt [0]) :
    ∃ st', Settles (fun n => printfPass E args nullText n st) (.stop st') ∧ st'.env = st.env := by
  obtain ⟨st₁, hpeek, h₁⟩ := peek_at (x := (st.env, st.flags)) hE st (u := []) ⟨rfl, rfl, h⟩
  obtain ⟨hc, hat⟩ := h₁.nil
  refine ⟨st₁, .of_forall fun n => ?_, hat.1⟩
  rw [printfPass, hpeek, Option.bind_some, if_pos hc]

variable (hT : E.Total)

include hT

theorem pass_literal {c : Byte} {u : List Byte} (h0 : c ≠ 0) (hc : c ≠ ch '%')
    (h : TextAt fmt l st.fmt (c :: u ++ [0])) :
    ∃ st', Settles (fun n => printfPass E args nullText n st) (.next st') ∧
      TextAt fmt l st'.fmt (u ++ [0]) ∧ E.putc c st.env = some st'.env := by
  obtain ⟨st₁, hpeek, h₁⟩ := peek_at (x := (st.env, st.flags)) hE st (u := c :: u) ⟨rfl, rfl, h⟩
  obtain ⟨rfl, henv, -, hat⟩ := h₁.cons
  obtain ⟨env, hputc⟩ := hT.putc st₁.c st.env
  have hputc₁ : E.putc st₁.c st₁.env = some env := by rw [henv, hputc]
  refine ⟨{ st₁ with env := env, printed := st₁.printed + 1, fmt := st₁.fmt + 1 },
    .of_forall fun n => ?_, hat.succ, hputc⟩
  rw [printfPass, hpeek, Option.bind_some, if_neg h0, if_pos hc, literal, emitCounted, hputc₁]
  rfl

theorem pass_directive {u : List Byte} (h : TextAt fmt l st.fmt (ch '%' :: u ++ [0])) :
    ∃ st₁ st', Scanned fmt l (st.env, setFlags st.flags (u.takeWhile isFlag)) st₁
        (conversion (u.dropWhile isFlag)) (behindDirective (u.dropWhile isFlag)) ∧
      Settles (fun n => convert E args nullText n st₁) st' ∧ st'.fmt = st₁.fmt ∧
      Settles (fun n => printfPass E args nullText n st) (.next st') := by
  obtain ⟨st₀, hpeek, h₀⟩ :=
    peek_at (x := (st.env, st.flags)) hE st (u := ch '%' :: u) ⟨rfl, rfl, h⟩
  obtain ⟨hc, hat⟩ := h₀.cons
  obtain ⟨st₁, hscan, h₁⟩ := scanDirective_settles (x := (st.env, st.flags)) hE args u hat
  obtain ⟨st', hconvert, hfmt⟩ := convert_settles hT args nullText st₁
  refine ⟨st₁, st', h₁, hconvert, hfmt, ((hscan.bind hconvert).map Flow.next).congr fun n => ?_⟩
  rw [printfPass, hpeek, Option.bind_some, hc, if_neg (by decide), if_neg (by decide)]
  rfl

omit hE in
/-- A format that is complete is read to its NUL, wherever what `putc` keeps includes the format. -/
theorem Complete.settles {Q : σ → Prop} (hQ : ∀ s, Q s → Reads fmt l E s)
    (hputc : ∀ c s s', Q s → E.putc c s = some s' → Q s') (h0 : (0 : Byte) ∉ l) {u : List Byte}
    (hu : Complete u) (hst : Q st.env) (h : TextAt fmt l st.fmt (u ++ [0])) :
    ∃ st', LoopSettles (printfPass E args nullText) st st' := by
  induction hu generalizing st with
  | nil =>
      obtain ⟨st', hpass, -⟩ := pass_nul args nullText (hQ _ hst) h
      exact ⟨st', .stop hpass⟩
  | @literal c u hc _ ih =>
      have hc0 : c ≠ 0 := fun hzero => h0 (h.mem_text (hzero ▸ List.mem_cons_self))
      obtain ⟨st₁, hpass, h₁, henv⟩ := pass_literal args nullText (hQ _ hst) hT hc0 hc h
      obtain ⟨st', hloop⟩ := ih (hputc c st.env st₁.env hst henv) h₁
      exact ⟨st', .next hpass hloop⟩
  | directive hr _ ih =>
      obtain ⟨st₁, st₂, ⟨-, henv, -, hat⟩, hconvert, hfmt, hpass⟩ :=
        pass_directive args nullText (hQ _ hst) hT h
      have hst₁ : Q st₁.env := by rwa [henv]
      have hst₂ : Q st₂.env :=
        Keeps.settles (fun n => (coupled_convert (aloneLink_env hputc) n).left ()) hst₁ hconvert
      rw [hr] at hat
      obtain ⟨st', hloop⟩ := ih hst₂ (hfmt ▸ hat)
      exact ⟨st', .next hpass hloop⟩

end

section

variable {σ : Type} {fmt : Word} {l : List Byte} (mem : σ → Mem) (putc : Byte → σ → σ)
  (args : ℕ → Word) (nullText : Word)

theorem formatEnv_total : (formatEnv fmt l mem putc).Total :=
  ⟨fun s a => ⟨mem s a, rfl⟩, fun c s => ⟨putc c s, rfl⟩⟩

variable (hlen : l.length + 1 < 2 ^ 64)

include hlen

theorem format_directive {st : PrintfState σ} {u : List Byte}
    (h : TextAt fmt l st.fmt (ch '%' :: u ++ [0])) :
    ∃ st', Settles (fun n => printfPass (formatEnv fmt l mem putc) args nullText n st)
      (.next st') ∧ TextAt fmt l st'.fmt (remains (behindDirective (u.dropWhile isFlag))) := by
  obtain ⟨st₁, st', h₁, -, hfmt, hpass⟩ := pass_directive args nullText
    (formatEnv_reads mem putc hlen st.env) (formatEnv_total mem putc) h
  exact ⟨st', hpass, hfmt ▸ h₁.2.2.2⟩

theorem pass_past {st : PrintfState σ} (h : TextAt fmt l st.fmt []) (n : ℕ) :
    printfPass (formatEnv fmt l mem putc) args nullText n st = none := by
  rw [printfPass, peek, h.fetch mem putc hlen, List.head?_nil, Option.map_none, Option.bind_none]

variable (h0 : (0 : Byte) ∉ l)

include h0

/-- Any other format is read past its NUL. -/
theorem visits_past (m : ℕ) {u : List Byte} (hm : u.length = m) (hu : ¬ Complete u)
    {st : PrintfState σ} (h : TextAt fmt l st.fmt (u ++ [0])) :
    ∃ st', Visits (printfPass (formatEnv fmt l mem putc) args nullText) st st' ∧
      TextAt fmt l st'.fmt [] := by
  induction m using Nat.strong_induction_on generalizing u st with
  | _ m ih =>
    cases u with
    | nil => exact absurd .nil hu
    | cons c u =>
        rw [List.length_cons] at hm
        by_cases hc : c = ch '%'
        · subst hc
          obtain ⟨st₁, hpass, h₁⟩ := format_directive mem putc args nullText hlen h
          cases hr : behindDirective (u.dropWhile isFlag) with
          | none =>
              rw [hr] at h₁
              exact ⟨st₁, .next .start hpass, h₁⟩
          | some r =>
              rw [hr] at h₁
              have hlt : r.length < m := by
                have := (behindDirective_length hr).trans (List.dropWhile_suffix _).length_le
                omega
              obtain ⟨st', hvisits, h'⟩ := ih r.length hlt rfl (fun hcomplete =>
                hu (.directive hr hcomplete)) h₁
              exact ⟨st', .head hpass hvisits, h'⟩
        · have hc0 : c ≠ 0 := fun hzero => h0 (h.mem_text (hzero ▸ List.mem_cons_self))
          obtain ⟨st₁, hpass, h₁, -⟩ := pass_literal args nullText
            (formatEnv_reads mem putc hlen st.env) (formatEnv_total mem putc) hc0 hc h
          obtain ⟨st', hvisits, h'⟩ := ih u.length (by omega) rfl (fun hcomplete =>
            hu (.literal hc hcomplete)) h₁
          exact ⟨st', .head hpass hvisits, h'⟩

theorem printfInternal_eq_none (hu : ¬ Complete l) (env : σ) (flags : BitVec 32) :
    ∃ N, ∀ n, N ≤ n → printfInternal (formatEnv fmt l mem putc) args nullText n env fmt flags =
      none := by
  have hstart : TextAt fmt l (printfStart env fmt flags).fmt (l ++ [0]) := .start
  obtain ⟨st', hvisits, h'⟩ := visits_past mem putc args nullText hlen h0 l.length rfl hu hstart
  exact hvisits.eq_none ⟨0, fun n _ => pass_past mem putc args nullText hlen h' n⟩

/-- A run returns without a read behind the NUL exactly when no directive is cut short. -/
theorem printf_reads_format_iff (env : σ) (flags : BitVec 32) :
    (∃ st, Settles (fun n => printfInternal (formatEnv fmt l mem putc) args nullText n env fmt
      flags) st) ↔ Complete l := by
  constructor
  · rintro ⟨st, hst⟩
    by_contra hu
    exact not_settles_of_eq_none
      (printfInternal_eq_none mem putc args nullText hlen h0 hu env flags) st hst
  · intro hu
    have hstart : TextAt fmt l (printfStart env fmt flags).fmt (l ++ [0]) := .start
    obtain ⟨st, hloop⟩ := hu.settles args nullText (formatEnv_total mem putc) (Q := fun _ => True)
      (fun s _ => formatEnv_reads mem putc hlen s) (fun _ _ _ _ _ => trivial) h0 trivial hstart
    exact ⟨st, hloop.settles⟩

end

/-- `"%5d"`, whose directive takes the `d`. -/
theorem printf_reads_width : ∃ st, Settles (fun n => printfInternal
    (formatEnv 0x1000 [ch '%', ch '5', ch 'd'] (fun (_ : Unit) _ => 0) (fun _ s => s)) (fun _ => 0) 0
    n () 0x1000 0) st :=
  (printf_reads_format_iff _ _ _ _ (by decide) (by decide) () 0).mpr (.directive rfl .nil)

/-- `"%0"`: the loop over the digits takes the NUL, which the main loop then does not see. -/
theorem printf_reads_past_nul : (0 : Byte) ∉ [ch '%', ch '0'] ∧ ¬ ∃ st, Settles (fun n =>
    printfInternal (formatEnv 0x1000 [ch '%', ch '0'] (fun (_ : Unit) _ => 0) (fun _ s => s))
      (fun _ => 0) 0 n () 0x1000 0) st := by
  refine ⟨by decide, ?_⟩
  rintro ⟨st, hst⟩
  apply not_settles_of_eq_none _ st hst
  apply printfInternal_eq_none _ _ _ _ (by decide) (by decide)
  intro hcomplete
  cases hcomplete with
  | literal hc _ => exact hc rfl
  | directive hr _ => cases hr

end Rix
