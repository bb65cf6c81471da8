import Rix.PrintfLiterals
import Rix.Vsnprintf

/-!
# Formats without strings and characters

A numeric conversion reads its argument into `n` and prints nothing of it: what a run prints for
such a format is the text itself, with the letter of each conversion in place of the number.
-/
namespace Rix
open Fuel

/-- What a conversion other than `'c'` and `'s'` prints. -/
def letterOut (flags : BitVec 32) (c : Byte) : List Byte :=
  if (c = ch 'x' ∨ c = ch 'X') ∧ flags &&& flagAlt = 0 then [] else [c]

/-- The flags behind a conversion, which the next directive starts with. -/
def flagsBehind (flags : BitVec 32) (c : Byte) : BitVec 32 :=
  if c = ch 'i' ∨ c = ch 'd' then flags ||| flagSign
  else if c = ch 'U' ∨ c = ch 'X' then flags ||| flagCaps
  else if c = ch 'p' then flags ||| flagAlt ||| flagCaps
  else flags

/-- The format is complete and no directive converts with `c` or `s`. -/
inductive Numeric : List Byte → Prop where
  | nil : Numeric []
  | literal {c : Byte} {u : List Byte} (hc : c ≠ ch '%') (h : Numeric u) : Numeric (c :: u)
  | directive {u r : List Byte} (hr : behindDirective (u.dropWhile isFlag) = some r)
      (hc : conversion (u.dropWhile isFlag) ≠ ch 'c') (hs : conversion (u.dropWhile isFlag) ≠ ch 's')
      (h : Numeric r) : Numeric (ch '%' :: u)

/-- The characters printed and how many of them are counted. -/
def shown (flags : BitVec 32) : List Byte → List Byte × ℕ
  | [] => ([], 0)
  | c :: u =>
    if c = ch '%' then
      match _h : behindDirective (u.dropWhile isFlag) with
      | none => ([], 0)
      | some r =>
          let flags := setFlags flags (u.takeWhile isFlag)
          let c := conversion (u.dropWhile isFlag)
          let rest := shown (flagsBehind flags c) r
          (letterOut flags c ++ rest.1, rest.2)
    else
      let rest := shown flags u
      (c :: rest.1, rest.2 + 1)
termination_by u => u.length
decreasing_by
  · have := (behindDirective_length _h).trans (List.dropWhile_suffix _).length_le
    rw [List.length_cons]
    omega
  · exact Nat.lt_succ_self _

theorem shown_literal (flags : BitVec 32) {c : Byte} (hc : c ≠ ch '%') (u : List Byte) :
    shown flags (c :: u) = (c :: (shown flags u).1, (shown flags u).2 + 1) := by
  rw [shown, if_neg hc]

theorem shown_directive (flags : BitVec 32) {u r : List Byte}
    (hr : behindDirective (u.dropWhile isFlag) = some r) :
    shown flags (ch '%' :: u) =
      let flags := setFlags flags (u.takeWhile isFlag)
      let c := conversion (u.dropWhile isFlag)
      (letterOut flags c ++ (shown (flagsBehind flags c) r).1, (shown (flagsBehind flags c) r).2) := by
  rw [shown, if_pos rfl]
  split
  · next h => cases h.symm.trans hr
  · next r' h =>
      obtain rfl := Option.some.inj (h.symm.trans hr)
      rfl

section

variable {m : Mem} {fmt : Word} {l : List Byte} (args : ℕ → Word) (nullText : Word)

theorem convert_numeric {st : PrintfState (List Byte)} (hc : st.c ≠ ch 'c') (hs : st.c ≠ ch 's') :
    ∃ st', (∀ n, convert (logEnv m) args nullText n st = some st') ∧ st'.fmt = st.fmt ∧
      st'.env = st.env ++ letterOut st.flags st.c ∧ st'.printed = st.printed ∧
      st'.flags = flagsBehind st.flags st.c := by
  have hletter : ¬ (st.c = ch 'x' ∨ st.c = ch 'X') → letterOut st.flags st.c = [st.c] := fun h =>
    if_neg fun hx => h hx.1
  simp only [convert, if_neg hc, if_neg hs, forall_const]
  split_ifs with ho hd hU hu hp hX hx
  · refine ⟨_, rfl, rfl, ?_, rfl, ?_⟩
    · rw [hletter (by rcases ho with ho | ho <;> rw [ho] <;> decide)]
    · rcases ho with ho | ho <;> rw [ho] <;> rfl
  · refine ⟨_, rfl, rfl, ?_, rfl, (if_pos hd).symm⟩
    rw [hletter (by rcases hd with hd | hd <;> rw [hd] <;> decide)]
    rfl
  · refine ⟨_, rfl, rfl, ?_, rfl, by rw [hU]; rfl⟩
    rw [hletter (by rw [hU]; decide)]
  · refine ⟨_, rfl, rfl, ?_, rfl, by rw [hu]; rfl⟩
    rw [hletter (by rw [hu]; decide)]
  · have halt : (st.flags ||| flagAlt ||| flagCaps) &&& flagAlt ≠ 0 := fun h0 =>
      absurd ((or_alt _ _).mp ((or_alt _ _).mp h0).1).2 (by decide)
    refine ⟨_, if_pos halt, rfl, ?_, rfl, by rw [hp]; rfl⟩
    rw [hletter (by rw [hp]; decide)]
  · by_cases halt : st.flags &&& flagAlt = 0
    · have halt' : (st.flags ||| flagCaps) &&& flagAlt = 0 := (or_alt _ _).mpr ⟨halt, by decide⟩
      refine ⟨_, if_neg (not_not_intro halt'), rfl, ?_, rfl, by rw [hX]; rfl⟩
      rw [letterOut, if_pos ⟨.inr hX, halt⟩, List.append_nil]
    · have halt' : (st.flags ||| flagCaps) &&& flagAlt ≠ 0 := fun h0 => halt ((or_alt _ _).mp h0).1
      refine ⟨_, if_pos halt', rfl, ?_, rfl, by rw [hX]; rfl⟩
      rw [letterOut, if_neg fun h => halt h.2]
  · by_cases halt : st.flags &&& flagAlt = 0
    · refine ⟨st, if_neg (not_not_intro halt), rfl, ?_, rfl, by rw [hx]; rfl⟩
      rw [letterOut, if_pos ⟨.inl hx, halt⟩, List.append_nil]
    · refine ⟨_, if_pos halt, rfl, ?_, rfl, by rw [hx]; rfl⟩
      rw [letterOut, if_neg fun h => halt h.2]
  · refine ⟨_, rfl, rfl, ?_, rfl, ?_⟩
    · rw [hletter fun h => h.elim hx hX]
    · rw [flagsBehind, if_neg hd, if_neg fun h => h.elim hU hX, if_neg hp]

def muteEnv (m : Mem) : PrintfEnv (List Byte) := { logEnv m with putc := fun _ _ => none }

/-- The scan calls no `putc`: it runs as well where every call of one fails. -/
theorem scanDirective_outer {st st' : PrintfState (List Byte)} {n : ℕ}
    (h : scanDirective (logEnv m) args n st = some st') : st'.outer = st.outer := by
  have hlink : EnvCoupled (aloneLink fun x => x = st.outer) (muteEnv m) (muteEnv m) := by
    refine aloneLink_coupled fun c d _ x _ y hy => ?_
    cases hy
  exact (coupled_scanDirective hlink n).left () st rfl st' h

theorem CString.reads_log (h : CString m fmt l) (out : List Byte) : Reads fmt l (logEnv m) out := by
  rintro a c w ⟨p, hp, rfl⟩
  exact congrArg some (h.get hp)

theorem numeric_pass (hl : CString m fmt l) {st : PrintfState (List Byte)} {u r : List Byte}
    (h : TextAt fmt l st.fmt (ch '%' :: u ++ [0]))
    (hr : behindDirective (u.dropWhile isFlag) = some r)
    (hc : conversion (u.dropWhile isFlag) ≠ ch 'c') (hs : conversion (u.dropWhile isFlag) ≠ ch 's') :
    ∃ st', Settles (fun n => printfPass (logEnv m) args nullText n st) (.next st') ∧
      TextAt fmt l st'.fmt (r ++ [0]) ∧ st'.printed = st.printed ∧
      st'.env = st.env ++ letterOut (setFlags st.flags (u.takeWhile isFlag))
        (conversion (u.dropWhile isFlag)) ∧
      st'.flags = flagsBehind (setFlags st.flags (u.takeWhile isFlag))
        (conversion (u.dropWhile isFlag)) := by
  have hE := hl.reads_log st.env
  obtain ⟨st₀, hpeek, h₀⟩ :=
    peek_at (x := (st.env, st.flags)) hE st (u := ch '%' :: u) ⟨rfl, rfl, h⟩
  obtain ⟨hpercent, hat⟩ := h₀.cons
  obtain ⟨st₁, hscan, hc₁, -, hflags₁, hat₁⟩ :=
    scanDirective_settles (x := (st.env, st.flags)) hE args u hat
  obtain ⟨N, hN⟩ := id hscan
  have houter : st₁.outer = st.outer := by
    rw [scanDirective_outer args (hN N le_rfl), ← Option.some.inj hpeek]
    rfl
  obtain ⟨henv₁, hprinted₁⟩ := Prod.mk.inj houter
  rw [← hc₁] at hc hs
  obtain ⟨st', hconvert, hfmt, henv, hprinted, hflags⟩ :=
    convert_numeric (m := m) args nullText hc hs
  rw [hr] at hat₁
  rw [henv₁, hflags₁, hc₁] at henv
  rw [hflags₁, hc₁] at hflags
  refine ⟨st', ((hscan.bind (.of_forall hconvert)).map Flow.next).congr fun n => ?_,
    hfmt ▸ hat₁, hprinted.trans hprinted₁, henv, hflags⟩
  rw [printfPass, hpeek, Option.bind_some, hpercent, if_neg (by decide), if_neg (by decide)]
  rfl

/-- The loop over a format without strings and characters. -/
theorem Numeric.settles (hl : CString m fmt l) {u : List Byte} (hu : Numeric u)
    {st : PrintfState (List Byte)} (h : TextAt fmt l st.fmt (u ++ [0])) :
    ∃ st', LoopSettles (printfPass (logEnv m) args nullText) st st' ∧
      st'.env = st.env ++ (shown st.flags u).1 ∧
      st'.printed = st.printed + BitVec.ofNat 32 (shown st.flags u).2 := by
  induction hu generalizing st with
  | nil =>
      obtain ⟨p, hp, hat⟩ := h
      have hm : m st.fmt = 0 := by rw [hat, hl.get hp]
      refine ⟨_, .stop (.of_forall (nul_pass hm)), ?_, ?_⟩
      · rw [shown, List.append_nil]
      · rw [shown]
        exact (BitVec.add_zero _).symm
  | @literal c u hc _ ih =>
      have hc0 : c ≠ 0 := fun hzero => hl.ne_zero (h.mem_text (hzero ▸ List.mem_cons_self))
      obtain ⟨p, hp, hat⟩ := id h
      have hm : m st.fmt = c := by rw [hat, hl.get hp]
      obtain ⟨st', hloop, henv, hprinted⟩ :=
        @ih { st.emitted [c] with c := c, fmt := st.fmt + 1 } h.succ
      refine ⟨st', .next (.of_forall (literal_pass hm hc0 hc)) hloop, ?_, ?_⟩
      · rw [henv, shown_literal st.flags hc]
        simp [PrintfState.emitted]
      · rw [hprinted, shown_literal st.flags hc, Nat.add_comm, BitVec.ofNat_add, ← BitVec.add_assoc]
        rfl
  | @directive u r hr hc hs _ ih =>
      obtain ⟨st₁, hpass, hat, hprinted₁, henv₁, hflags₁⟩ :=
        numeric_pass args nullText hl h hr hc hs
      obtain ⟨st', hloop, henv, hprinted⟩ := ih hat
      rw [hflags₁] at henv hprinted
      rw [shown_directive st.flags hr]
      refine ⟨st', .next hpass hloop, ?_, ?_⟩
      · rw [henv, henv₁, List.append_assoc]
      · rw [hprinted, hprinted₁]

/-- What a format without strings and characters prints is its own text, with a letter at most for
each directive: whatever the arguments are, none of their digits is printed. -/
theorem numbers_print_letters (hl : CString m fmt l) (hn : Numeric l) (flags : BitVec 32) :
    ∃ st, Settles (fun n => printfInternal (logEnv m) args nullText n [] fmt flags) st ∧
      st.env = (shown flags l).1 ∧ st.printed = BitVec.ofNat 32 (shown flags l).2 := by
  have hstart : TextAt fmt l (printfStart ([] : List Byte) fmt flags).fmt (l ++ [0]) := .start
  obtain ⟨st, hloop, henv, hprinted⟩ := hn.settles args nullText hl hstart
  exact ⟨st, hloop.settles, henv, hprinted.trans (BitVec.zero_add _)⟩

end

/-- `"%5dA"` with the argument 42 prints `"dA"`. -/
theorem numbers_print_letters_sample : ∃ st, Settles (fun n => printfInternal
    (logEnv (Mem.putText (fun _ => 0) 0x1000 [ch '%', ch '5', ch 'd', ch 'A'])) (fun _ => 42) 0 n []
      0x1000 0) st ∧ st.env = [ch 'd', ch 'A'] ∧ st.printed = 1 := by
  have hl : CString (Mem.putText (fun _ => 0) 0x1000 [ch '%', ch '5', ch 'd', ch 'A']) 0x1000
      [ch '%', ch '5', ch 'd', ch 'A'] := by
    simp only [CString]
    decide
  have hn : Numeric [ch '%', ch '5', ch 'd', ch 'A'] :=
    .directive (r := [ch 'A']) rfl (by decide) (by decide) (.literal (by decide) .nil)
  have hrest : ∀ flags, shown flags [ch 'A'] = ([ch 'A'], 1) := fun flags => by
    rw [shown_literal flags (by decide), shown]
  have hshown : shown 0 [ch '%', ch '5', ch 'd', ch 'A'] = ([ch 'd', ch 'A'], 1) := by
    rw [shown_directive 0 (r := [ch 'A']) rfl]
    simp only [hrest]
    rfl
  obtain ⟨st, hst, henv, hprinted⟩ := numbers_print_letters (fun _ => 42) 0 hl hn 0
  rw [hshown] at henv hprinted
  exact ⟨st, hst, henv, hprinted⟩

end Rix
