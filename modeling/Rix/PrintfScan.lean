import Rix.Memory
import Rix.Printf

/-!
# How far the formatter reads its format

The format is a string whose NUL is the last byte that can be read, so a run that reads on
behind it faults. Reads of strings and calls of `putc` do not.
-/
namespace Rix
open Fuel

def isFlag (c : Byte) : Bool :=
  decide (c = ch '-') || decide (c = ch '+') || decide (c = ch ' ') || decide (c = ch '#')

def behindPoint : List Byte → List Byte
  | [] => []
  | c :: u =>
    if c = ch '.' then if u.head? = some (ch '*') then u.tail else u.dropWhile isdigit else c :: u

def behindLength : List Byte → List Byte
  | [] => []
  | c :: u =>
    if c = ch 'l' ∨ c = ch 'h' then if u.head? = some c then u.tail else u
    else if c = ch 'q' ∨ c = ch 'L' then u
    else c :: u

/-- What a directive leaves of the format from its flags on, if it ends inside the format. Behind
digits the conversion character is taken as well, behind one of the other parts that part stands
for it, and a directive of a conversion character alone does not take it. -/
def behindDirective : List Byte → Option (List Byte)
  | [] => some []
  | c :: u =>
    if isdigit c then (behindLength (behindPoint (u.dropWhile isdigit))).tail?
    else if c = ch 'l' ∨ c = ch 'h' then u.tail?
    else if c = ch '.' ∨ c = ch '*' ∨ c = ch 'q' ∨ c = ch 'L' then some u
    else some (c :: u)

/-- The character that a directive is converted by; one that is cut off is converted by the NUL. -/
def conversion : List Byte → Byte
  | [] => 0
  | c :: u =>
    if isdigit c then (behindLength (behindPoint (u.dropWhile isdigit))).headD 0
    else if c = ch 'l' ∨ c = ch 'h' then u.headD 0
    else c

def flagOf (c : Byte) : BitVec 32 :=
  if c = ch '-' then flagLeft
  else if c = ch '+' then flagPlus
  else if c = ch ' ' then flagSpace
  else flagAlt

def setFlags (flags : BitVec 32) (u : List Byte) : BitVec 32 :=
  u.foldl (fun flags c => flags ||| flagOf c) flags

/-- The format ends inside none of its directives. -/
inductive Complete : List Byte → Prop where
  | nil : Complete []
  | literal {c : Byte} {u : List Byte} (hc : c ≠ ch '%') (h : Complete u) : Complete (c :: u)
  | directive {u r : List Byte} (hr : behindDirective (u.dropWhile isFlag) = some r)
      (h : Complete r) : Complete (ch '%' :: u)

theorem behindPoint_length (u : List Byte) : (behindPoint u).length ≤ u.length := by
  cases u with
  | nil => exact le_rfl
  | cons c u =>
      simp only [behindPoint]
      split_ifs
      · rw [List.length_tail, List.length_cons]
        omega
      · exact (List.dropWhile_suffix _).length_le.trans (Nat.le_succ _)
      · exact le_rfl

theorem behindLength_length (u : List Byte) : (behindLength u).length ≤ u.length := by
  cases u with
  | nil => exact le_rfl
  | cons c u =>
      simp only [behindLength]
      split_ifs
      · rw [List.length_tail, List.length_cons]
        omega
      · exact Nat.le_succ _
      · exact Nat.le_succ _
      · exact le_rfl

theorem tail?_length {u r : List Byte} (h : u.tail? = some r) : r.length ≤ u.length := by
  cases u with
  | nil => cases h
  | cons c u => exact Option.some.inj h ▸ Nat.le_succ _

theorem behindDirective_length {u r : List Byte} (h : behindDirective u = some r) :
    r.length ≤ u.length := by
  cases u with
  | nil => exact Option.some.inj h ▸ le_rfl
  | cons c u =>
      simp only [behindDirective] at h
      split_ifs at h
      · calc r.length ≤ (behindLength (behindPoint (u.dropWhile isdigit))).length := tail?_length h
          _ ≤ (behindPoint (u.dropWhile isdigit)).length := behindLength_length _
          _ ≤ (u.dropWhile isdigit).length := behindPoint_length _
          _ ≤ u.length := (List.dropWhile_suffix _).length_le
          _ ≤ (c :: u).length := Nat.le_succ _
      · exact (tail?_length h).trans (Nat.le_succ _)
      · exact Option.some.inj h ▸ Nat.le_succ _
      · exact Option.some.inj h ▸ le_rfl

section

variable {σ : Type} (fmt : Word) (l : List Byte)

def formatEnv (mem : σ → Mem) (putc : Byte → σ → σ) : PrintfEnv σ where
  fetch _ a := (l ++ [0])[(a - fmt).toNat]?
  load s a := some (mem s a)
  putc c s := some (putc c s)

/-- `w` is what can be read of the format from `a` on. -/
def TextAt (a : Word) (w : List Byte) : Prop :=
  ∃ p, l ++ [0] = p ++ w ∧ a = fmt + BitVec.ofNat 64 p.length

/-- In the environment `s` the format `l` stands at `fmt`. -/
def Reads (E : PrintfEnv σ) (s : σ) : Prop :=
  ∀ a c w, TextAt fmt l a (c :: w) → E.fetch s a = some c

/-- The cursor stands before `w`, and the environment and the flags are `x`. -/
def Cursor (x : σ × BitVec 32) (st : PrintfState σ) (w : List Byte) : Prop :=
  st.env = x.1 ∧ st.flags = x.2 ∧ TextAt fmt l st.fmt w

/-- The format from the character in hand on is `u`, and the cursor stands on that character. -/
def Peeked (x : σ × BitVec 32) (st : PrintfState σ) (u : List Byte) : Prop :=
  ∃ w, u ++ [0] = st.c :: w ∧ Cursor fmt l x st (u ++ [0])

/-- The cursor stands behind the character in hand. -/
def Taken (x : σ × BitVec 32) (st : PrintfState σ) (u : List Byte) : Prop :=
  ∃ w, u ++ [0] = st.c :: w ∧ Cursor fmt l x st w

variable {fmt l} {E : PrintfEnv σ} {x : σ × BitVec 32}

theorem TextAt.start : TextAt fmt l fmt (l ++ [0]) := ⟨[], rfl, (BitVec.add_zero fmt).symm⟩

theorem TextAt.succ {a : Word} {c : Byte} {w : List Byte} (h : TextAt fmt l a (c :: w)) :
    TextAt fmt l (a + 1) w := by
  obtain ⟨p, hp, rfl⟩ := h
  refine ⟨p ++ [c], by rw [hp, List.append_assoc, List.singleton_append], ?_⟩
  rw [List.length_append, List.length_singleton, BitVec.add_assoc, BitVec.ofNat_add]
  rfl

theorem TextAt.fetch (mem : σ → Mem) (putc : Byte → σ → σ) (hlen : l.length + 1 < 2 ^ 64) {a : Word}
    {w : List Byte} (h : TextAt fmt l a w) (s : σ) :
    (formatEnv fmt l mem putc).fetch s a = w.head? := by
  obtain ⟨p, hp, rfl⟩ := h
  have hp' : p.length ≤ l.length + 1 := by
    have hlength := congrArg List.length hp
    simp only [List.length_append, List.length_singleton] at hlength
    omega
  simp only [formatEnv]
  rw [toNat_add_ofNat_sub fmt (by omega), hp, List.getElem?_append_right le_rfl, Nat.sub_self,
    List.head?_eq_getElem?]

theorem formatEnv_reads (mem : σ → Mem) (putc : Byte → σ → σ) (hlen : l.length + 1 < 2 ^ 64) (s : σ) :
    Reads fmt l (formatEnv fmt l mem putc) s :=
  fun _ _ _ h => h.fetch mem putc hlen s

theorem Cursor.succ {st : PrintfState σ} {c : Byte} {w : List Byte} (h : Cursor fmt l x st (c :: w)) :
    Cursor fmt l x { st with fmt := st.fmt + 1 } w := ⟨h.1, h.2.1, h.2.2.succ⟩

theorem Cursor.fetch (hE : Reads fmt l E x.1) {st : PrintfState σ} {c : Byte} {w : List Byte}
    (h : Cursor fmt l x st (c :: w)) : E.fetch st.env st.fmt = some c := by
  rw [h.1]
  exact hE _ _ _ h.2.2

theorem Taken.cons {st : PrintfState σ} {c : Byte} {u : List Byte} (h : Taken fmt l x st (c :: u)) :
    st.c = c ∧ Cursor fmt l x st (u ++ [0]) := by
  obtain ⟨w, hw, hat⟩ := h
  obtain ⟨rfl, rfl⟩ := List.cons.inj hw
  exact ⟨rfl, hat⟩

theorem Taken.nil {st : PrintfState σ} (h : Taken fmt l x st []) :
    st.c = 0 ∧ Cursor fmt l x st [] := by
  obtain ⟨w, hw, hat⟩ := h
  obtain ⟨hc, rfl⟩ := List.cons.inj hw
  exact ⟨hc.symm, hat⟩

theorem Peeked.cons {st : PrintfState σ} {c : Byte} {u : List Byte}
    (h : Peeked fmt l x st (c :: u)) : st.c = c ∧ Cursor fmt l x st (c :: u ++ [0]) := by
  obtain ⟨w, hw, hat⟩ := h
  exact ⟨(List.cons.inj hw).1.symm, hat⟩

theorem Peeked.nil {st : PrintfState σ} (h : Peeked fmt l x st []) :
    st.c = 0 ∧ Cursor fmt l x st [0] := by
  obtain ⟨w, hw, hat⟩ := h
  exact ⟨(List.cons.inj hw).1.symm, hat⟩

theorem exists_append_nul (u : List Byte) : ∃ c w, u ++ [0] = c :: w := by
  cases u with
  | nil => exact ⟨0, [], rfl⟩
  | cons c u => exact ⟨c, u ++ [0], rfl⟩

section

variable (hE : Reads fmt l E x.1)

include hE

theorem peek_at (st : PrintfState σ) {u : List Byte} (h : Cursor fmt l x st (u ++ [0])) :
    ∃ st', peek E st = some st' ∧ Peeked fmt l x st' u := by
  obtain ⟨c, w, hw⟩ := exists_append_nul u
  have hat : Cursor fmt l x st (c :: w) := hw ▸ h
  refine ⟨{ st with c := c }, ?_, w, hw, h⟩
  rw [peek, hat.fetch hE, Option.map_some]

theorem next_at (st : PrintfState σ) {u : List Byte} (h : Cursor fmt l x st (u ++ [0])) :
    ∃ st', next E st = some st' ∧ Taken fmt l x st' u := by
  obtain ⟨c, w, hw⟩ := exists_append_nul u
  have hat : Cursor fmt l x st (c :: w) := hw ▸ h
  refine ⟨{ st with c := c, fmt := st.fmt + 1 }, ?_, w, hw, hat.succ⟩
  rw [next, hat.fetch hE, Option.map_some]

theorem flagsPass_flag {st : PrintfState σ} {c : Byte} {u : List Byte} (hc : isFlag c = true)
    (h : Cursor fmt l x st (c :: u ++ [0])) :
    ∃ st', flagsPass E st = some (.next st') ∧
      Cursor fmt l (x.1, x.2 ||| flagOf c) st' (u ++ [0]) := by
  obtain ⟨st₁, hpeek, h₁⟩ := peek_at hE st (u := c :: u) h
  obtain ⟨rfl, hat⟩ := h₁.cons
  simp only [isFlag, Bool.or_eq_true, decide_eq_true_eq] at hc
  simp only [flagsPass, hpeek, Option.bind_eq_bind, Option.bind_some]
  have hset : ∀ flag, flagOf st₁.c = flag → Cursor fmt l (x.1, x.2 ||| flagOf st₁.c)
      { st₁ with flags := st₁.flags ||| flag, fmt := st₁.fmt + 1 } (u ++ [0]) := by
    rintro _ rfl
    exact ⟨hat.1, congrArg (· ||| flagOf st₁.c) hat.2.1, hat.succ.2.2⟩
  split_ifs with h1 h2 h3 h4
  · exact ⟨_, rfl, hset flagLeft (by rw [h1]; rfl)⟩
  · exact ⟨_, rfl, hset flagPlus (by rw [h2]; rfl)⟩
  · exact ⟨_, rfl, hset flagSpace (by rw [h3]; rfl)⟩
  · exact ⟨_, rfl, hset flagAlt (by rw [h4]; rfl)⟩
  · tauto

theorem flagsPass_stop {st : PrintfState σ} {u : List Byte}
    (hu : ∀ c ∈ u.head?, isFlag c = false) (h : Cursor fmt l x st (u ++ [0])) :
    ∃ st', flagsPass E st = some (.stop st') ∧ Peeked fmt l x st' u := by
  obtain ⟨st₁, hpeek, h₁⟩ := peek_at hE st h
  refine ⟨st₁, ?_, h₁⟩
  have hc : isFlag st₁.c = false := by
    cases u with
    | nil => rw [h₁.nil.1]; decide
    | cons c u => rw [h₁.cons.1]; exact hu c rfl
  simp only [isFlag, Bool.or_eq_false_iff, decide_eq_false_iff_not] at hc
  obtain ⟨⟨⟨h1, h2⟩, h3⟩, h4⟩ := hc
  simp only [flagsPass, hpeek, Option.bind_eq_bind, Option.bind_some, if_neg h1, if_neg h2,
    if_neg h3, if_neg h4]

theorem flags_settles (u : List Byte) (st : PrintfState σ) (h : Cursor fmt l x st (u ++ [0])) :
    ∃ st', LoopSettles (fun _ => flagsPass E) st st' ∧
      Peeked fmt l (x.1, setFlags x.2 (u.takeWhile isFlag)) st' (u.dropWhile isFlag) := by
  induction u generalizing st x with
  | nil =>
      obtain ⟨st', hpass, h'⟩ := flagsPass_stop hE (u := []) (by simp) h
      exact ⟨st', .stop (.of_forall fun _ => hpass), h'⟩
  | cons c u ih =>
      cases hc : isFlag c with
      | true =>
          obtain ⟨st₁, hpass, h₁⟩ := flagsPass_flag hE hc h
          obtain ⟨st', hloop, h'⟩ := ih (x := (x.1, x.2 ||| flagOf c)) hE st₁ h₁
          rw [List.dropWhile_cons_of_pos hc, List.takeWhile_cons_of_pos hc]
          exact ⟨st', .next (.of_forall fun _ => hpass) hloop, h'⟩
      | false =>
          obtain ⟨st', hpass, h'⟩ := flagsPass_stop hE (u := c :: u) (by simpa using hc) h
          rw [List.dropWhile_cons_of_neg (by simp [hc]), List.takeWhile_cons_of_neg (by simp [hc])]
          exact ⟨st', .stop (.of_forall fun _ => hpass), h'⟩

/-- The loops over digits, which keep what they make of the number in a local. -/
def digitPass (E : PrintfEnv σ) (number : PrintfLocals → PrintfLocals) (st : PrintfState σ) :
    Option (Flow (PrintfState σ)) :=
  if isdigit st.c then
    (next E { st with toPrintfLocals := number st.toPrintfLocals }).map Flow.next
  else some (.stop st)

variable (number : PrintfLocals → PrintfLocals)
  (hnumber : ∀ l, (number l).fmt = l.fmt ∧ (number l).flags = l.flags)

include hnumber

theorem digitPass_digit {st : PrintfState σ} {u : List Byte} (hc : isdigit st.c = true)
    (h : Cursor fmt l x st (u ++ [0])) :
    ∃ st', digitPass E number st = some (.next st') ∧
      Taken fmt l x st' u := by
  obtain ⟨hfmt, hflags⟩ := hnumber st.toPrintfLocals
  have hat : Cursor fmt l x { st with toPrintfLocals := number st.toPrintfLocals } (u ++ [0]) :=
    ⟨h.1, hflags.trans h.2.1, hfmt.symm ▸ h.2.2⟩
  obtain ⟨st', hnext, h'⟩ := next_at hE _ hat
  refine ⟨st', ?_, h'⟩
  rw [digitPass, if_pos hc, hnext, Option.map_some]

theorem digits_settles (u : List Byte) {st : PrintfState σ} (h : Taken fmt l x st u) :
    ∃ st', LoopSettles (fun _ => digitPass E number) st st' ∧
      Taken fmt l x st' (u.dropWhile isdigit) := by
  induction u generalizing st with
  | nil =>
      refine ⟨st, .stop (.of_forall fun _ => ?_), h⟩
      rw [digitPass, h.nil.1, if_neg (by decide)]
  | cons c u ih =>
      obtain ⟨rfl, hat⟩ := h.cons
      cases hc : isdigit st.c with
      | true =>
          obtain ⟨st₁, hpass, h₁⟩ := digitPass_digit hE number hnumber hc hat
          obtain ⟨st', hloop, h'⟩ := ih h₁
          rw [List.dropWhile_cons_of_pos hc]
          exact ⟨st', .next (.of_forall fun _ => hpass) hloop, h'⟩
      | false =>
          rw [List.dropWhile_cons_of_neg (by simp [hc])]
          refine ⟨st, .stop (.of_forall fun _ => ?_), h⟩
          rw [digitPass, hc]
          rfl

end

section

variable (hE : Reads fmt l E x.1) (args : ℕ → Word)

include hE

/-- The digits of a width, of which the first may be a zero that has been taken. -/
theorem width_settles {c : Byte} {u : List Byte} (hc : isdigit c = true) {st : PrintfState σ}
    (h : Peeked fmt l x st (c :: u)) :
    ∃ st', Settles (fun n => (scanZero E st).bind
      (scanWidth E args n)) st' ∧ Taken fmt l x st' (u.dropWhile isdigit) := by
  obtain ⟨rfl, hat⟩ := h.cons
  have hdrop : (st.c :: u).dropWhile isdigit = u.dropWhile isdigit := List.dropWhile_cons_of_pos hc
  by_cases hzero : st.c = ch '0'
  · obtain ⟨st₁, hnext, h₁⟩ := next_at hE { st with padc := ch '0' }
      (u := st.c :: u) hat
    obtain ⟨st', hloop, h'⟩ := digits_settles hE
      (fun l => { l with width := 10 * l.width + chtod l.c }) (fun _ => ⟨rfl, rfl⟩) _ h₁
    refine ⟨st', hloop.settles.congr fun n => ?_, hdrop ▸ h'⟩
    rw [scanZero, if_pos hzero, hnext, Option.bind_some, scanWidth, h₁.cons.1, if_pos hc]
    rfl
  · obtain ⟨st₁, hpass, h₁⟩ := digitPass_digit hE
      (fun l => { l with width := 10 * l.width + chtod l.c }) (fun _ => ⟨rfl, rfl⟩) hc
      (u := st.c :: u) hat
    obtain ⟨st', hloop, h'⟩ := digits_settles hE
      (fun l => { l with width := 10 * l.width + chtod l.c }) (fun _ => ⟨rfl, rfl⟩) _ h₁
    refine ⟨st', (LoopSettles.next (.of_forall fun _ => hpass) hloop).settles.congr fun n => ?_,
      hdrop ▸ h'⟩
    rw [scanZero, if_neg hzero, Option.bind_some, scanWidth, if_pos hc]
    rfl

theorem point_settles (u : List Byte) {st : PrintfState σ} (h : Taken fmt l x st u) :
    ∃ st', Settles (fun n => scanPoint E args n st) st' ∧
      Taken fmt l x st' (if u.head? = some (ch '*') then u.tail else u.dropWhile isdigit) := by
  cases u with
  | nil =>
      refine ⟨st, .of_forall fun n => ?_, h⟩
      rw [scanPoint, h.nil.1, if_neg (by decide), if_neg (by decide)]
  | cons c u =>
      obtain ⟨rfl, hat⟩ := h.cons
      simp only [List.head?_cons, Option.some_inj, List.tail_cons]
      by_cases hstar : st.c = ch '*'
      · obtain ⟨st', hnext, h'⟩ := next_at hE
          { st with precision := (args st.argp).setWidth 32, argp := st.argp + 1 } hat
        rw [if_pos hstar]
        refine ⟨st', .of_forall fun n => ?_, h'⟩
        rw [scanPoint, hstar, if_neg (by decide), if_pos rfl]
        exact hnext
      · rw [if_neg hstar]
        cases hc : isdigit st.c with
        | true =>
            have h₁ : Taken fmt l x { st with precision := 0 } (st.c :: u) := h
            obtain ⟨st', hloop, h'⟩ := digits_settles hE
              (fun l => { l with precision := 10 * l.precision + chtod l.c })
              (fun _ => ⟨rfl, rfl⟩) _ h₁
            refine ⟨st', hloop.settles.congr fun n => ?_, h'⟩
            rw [scanPoint, if_pos hc]
            rfl
        | false =>
            rw [List.dropWhile_cons_of_neg (by simp [hc])]
            refine ⟨st, .of_forall fun n => ?_, h⟩
            rw [scanPoint, hc, if_neg Bool.false_ne_true, if_neg hstar]

theorem precision_settles (u : List Byte) {st : PrintfState σ} (h : Taken fmt l x st u) :
    ∃ st', Settles (fun n => scanPrecision E args n st) st' ∧
      Taken fmt l x st' (behindPoint u) := by
  cases u with
  | nil =>
      refine ⟨st, .of_forall fun n => ?_, h⟩
      rw [scanPrecision, h.nil.1, if_neg (by decide)]
  | cons c u =>
      obtain ⟨rfl, hat⟩ := h.cons
      by_cases hpoint : st.c = ch '.'
      · obtain ⟨st₁, hnext, h₁⟩ := next_at hE st hat
        obtain ⟨st', hsettles, h'⟩ := point_settles hE args u h₁
        rw [behindPoint, if_pos hpoint]
        refine ⟨st', hsettles.congr fun n => ?_, h'⟩
        rw [scanPrecision, if_pos hpoint, hnext, Option.bind_some]
      · rw [behindPoint, if_neg hpoint]
        refine ⟨st, .of_forall fun n => ?_, h⟩
        rw [scanPrecision, if_neg hpoint]

theorem double_eq (letter : Byte) (hletter : letter ≠ 0) (double : NumberType) (u : List Byte)
    {st : PrintfState σ} (h : Taken fmt l x st u) :
    ∃ st', scanDouble E letter double st = some st' ∧
      Taken fmt l x st' (if u.head? = some letter then u.tail else u) := by
  cases u with
  | nil =>
      refine ⟨st, ?_, h⟩
      rw [scanDouble, h.nil.1, if_neg (Ne.symm hletter)]
  | cons c u =>
      obtain ⟨rfl, hat⟩ := h.cons
      simp only [List.head?_cons, Option.some_inj, List.tail_cons]
      by_cases hc : st.c = letter
      · obtain ⟨st', hnext, h'⟩ := next_at hE { st with ntype := double } hat
        rw [if_pos hc]
        exact ⟨st', by rw [scanDouble, if_pos hc, hnext], h'⟩
      · rw [if_neg hc]
        exact ⟨st, by rw [scanDouble, if_neg hc], h⟩

/-- A length letter reads the format on from where the cursor stands. -/
theorem length_letter {u : List Byte} {st : PrintfState σ} (hc : st.c = ch 'l' ∨ st.c = ch 'h')
    (h : Cursor fmt l x st (u ++ [0])) :
    ∃ st', scanLength E st = some st' ∧
      Taken fmt l x st' (if u.head? = some st.c then u.tail else u) := by
  rcases hc with hc | hc
  · obtain ⟨st₁, hnext, h₁⟩ := next_at hE { st with ntype := .long } h
    obtain ⟨st', hdouble, h'⟩ := double_eq hE (ch 'l') (by decide) .longLong u h₁
    rw [hc]
    refine ⟨st', ?_, h'⟩
    rw [scanLength, if_pos hc, hnext, Option.bind_some, hdouble]
  · obtain ⟨st₁, hnext, h₁⟩ := next_at hE st h
    have hshort : Taken fmt l x { st₁ with ntype := .short } u := h₁
    obtain ⟨st', hdouble, h'⟩ := double_eq hE (ch 'h') (by decide) .char u hshort
    rw [hc]
    refine ⟨st', ?_, h'⟩
    rw [scanLength, hc, if_neg (by decide), if_pos rfl, hnext, Option.bind_some, hdouble]

theorem length_single {u : List Byte} {st : PrintfState σ} (hc : st.c = ch 'q' ∨ st.c = ch 'L')
    (h : Cursor fmt l x st (u ++ [0])) :
    ∃ st', scanLength E st = some st' ∧ Taken fmt l x st' u := by
  obtain ⟨st', hnext, h'⟩ := next_at hE { st with ntype := .long } h
  have hl : st.c ≠ ch 'l' := by rcases hc with hc | hc <;> rw [hc] <;> decide
  have hh : st.c ≠ ch 'h' := by rcases hc with hc | hc <;> rw [hc] <;> decide
  exact ⟨st', by rw [scanLength, if_neg hl, if_neg hh, if_pos hc, hnext], h'⟩

omit hE in
theorem length_none {E : PrintfEnv σ} {st : PrintfState σ} (hletter : ¬ (st.c = ch 'l' ∨ st.c = ch 'h'))
    (hsingle : ¬ (st.c = ch 'q' ∨ st.c = ch 'L')) : scanLength E st = some st := by
  rw [not_or] at hletter
  rw [scanLength, if_neg hletter.1, if_neg hletter.2, if_neg hsingle]

theorem length_eq (u : List Byte) {st : PrintfState σ} (h : Taken fmt l x st u) :
    ∃ st', scanLength E st = some st' ∧
      Taken fmt l x st' (behindLength u) := by
  cases u with
  | nil => exact ⟨st, length_none (by rw [h.nil.1]; decide) (by rw [h.nil.1]; decide), h⟩
  | cons c u =>
      obtain ⟨rfl, hat⟩ := h.cons
      rw [behindLength]
      by_cases hletter : st.c = ch 'l' ∨ st.c = ch 'h'
      · rw [if_pos hletter]
        exact length_letter hE hletter hat
      · rw [if_neg hletter]
        by_cases hsingle : st.c = ch 'q' ∨ st.c = ch 'L'
        · rw [if_pos hsingle]
          exact length_single hE hsingle hat
        · rw [if_neg hsingle]
          exact ⟨st, length_none hletter hsingle, h⟩

/-- What can be read behind a directive. -/
def remains : Option (List Byte) → List Byte
  | some r => r ++ [0]
  | none => []

variable (fmt l x) in
/-- A directive has been scanned: `c` is its conversion character, and the cursor stands before `r`. -/
def Scanned (st : PrintfState σ) (c : Byte) (r : Option (List Byte)) : Prop :=
  st.c = c ∧ Cursor fmt l x st (remains r)

omit hE in
theorem Scanned.size {st : PrintfState σ} {c : Byte} {r : Option (List Byte)}
    (h : Scanned fmt l x st c r) : Scanned fmt l x (scanSize st) c r := by
  unfold scanSize
  split
  · exact h
  · exact h

omit hE in
theorem Taken.scanned {u : List Byte} {st : PrintfState σ} (h : Taken fmt l x st u) :
    Scanned fmt l x (scanSize st) (u.headD 0) u.tail? := by
  apply Scanned.size
  cases u with
  | nil => exact h.nil
  | cons c u => exact h.cons

def scanTail (E : PrintfEnv σ) (fuel : ℕ) (st : PrintfState σ) : Option (PrintfState σ) :=
  (scanPrecision E args fuel st).bind fun st => (scanLength E st).bind fun st => some (scanSize st)

theorem tail_settles (u : List Byte) {st : PrintfState σ} (h : Taken fmt l x st u) :
    ∃ st', Settles (fun n => scanTail args E n st) st' ∧
      Scanned fmt l x st' ((behindLength (behindPoint u)).headD 0)
        (behindLength (behindPoint u)).tail? := by
  obtain ⟨st₁, hprec, h₁⟩ := precision_settles hE args u h
  obtain ⟨st₂, hlength, h₂⟩ := length_eq hE (behindPoint u) h₁
  refine ⟨scanSize st₂, hprec.bind (.of_forall fun n => ?_), h₂.scanned⟩
  rw [hlength, Option.bind_some]

/-- Behind the flags no zero and no digit: the character in hand is that of the cursor. -/
theorem tail_settles_peeked {c : Byte} {u : List Byte} {st : PrintfState σ}
    (h : Peeked fmt l x st (c :: u)) (hc : isdigit c = false) (hstar : c ≠ ch '*') :
    ∃ st', Settles (fun n => scanTail args E n st) st' ∧
      Scanned fmt l x st' (conversion (c :: u)) (behindDirective (c :: u)) := by
  obtain ⟨rfl, hat⟩ := h.cons
  rw [behindDirective, conversion, hc, if_neg Bool.false_ne_true, if_neg Bool.false_ne_true]
  by_cases hpoint : st.c = ch '.'
  · obtain ⟨st₁, hnext, h₁⟩ := next_at hE st (u := st.c :: u) hat
    rw [hpoint] at h₁ ⊢
    obtain ⟨st₂, hsettles, h₂⟩ := point_settles hE args _ h₁
    obtain ⟨st₃, hlength, h₃⟩ := length_eq hE _ h₂
    refine ⟨scanSize st₃, (hsettles.bind (g := fun _ st =>
      (scanLength E st).bind fun st => some (scanSize st))
      (.of_forall fun n => ?_)).congr fun n => ?_, h₃.scanned⟩
    · rw [hlength, Option.bind_some]
    · rw [scanTail, scanPrecision, if_pos hpoint, hnext, Option.bind_some]
  · have hprec : ∀ n, scanPrecision E args n st = some st :=
      fun n => by rw [scanPrecision, if_neg hpoint]
    by_cases hletter : st.c = ch 'l' ∨ st.c = ch 'h'
    · obtain ⟨st', hlength, h'⟩ := length_letter hE hletter
        (u := st.c :: u) hat
      rw [List.head?_cons, if_pos rfl, List.tail_cons] at h'
      rw [if_pos hletter, if_pos hletter]
      refine ⟨scanSize st', .of_forall fun n => ?_, h'.scanned⟩
      rw [scanTail, hprec, Option.bind_some, hlength, Option.bind_some]
    · rw [if_neg hletter, if_neg hletter]
      by_cases hsingle : st.c = ch 'q' ∨ st.c = ch 'L'
      · obtain ⟨st', hlength, h'⟩ := length_single hE hsingle
          (u := st.c :: u) hat
        rw [if_pos (.inr (.inr hsingle))]
        refine ⟨scanSize st', .of_forall fun n => ?_, h'.scanned⟩
        rw [scanTail, hprec, Option.bind_some, hlength, Option.bind_some]
      · rw [if_neg (by rintro (h | h | h); exacts [hpoint h, hstar h, hsingle h])]
        refine ⟨scanSize st, .of_forall fun n => ?_, Scanned.size ⟨rfl, hat⟩⟩
        rw [scanTail, hprec, Option.bind_some, length_none hletter hsingle, Option.bind_some]

theorem parts_settles (u : List Byte) {st : PrintfState σ} (h : Peeked fmt l x st u) :
    ∃ st', Settles (fun n => (scanZero E st).bind fun st =>
        (scanWidth E args n st).bind (scanTail args E n)) st' ∧
      Scanned fmt l x st' (conversion u) (behindDirective u) := by
  cases u with
  | nil =>
      obtain ⟨hc, hat⟩ := h.nil
      refine ⟨scanSize st, .of_forall fun n => ?_, Scanned.size ⟨hc, hat⟩⟩
      rw [scanZero, hc, if_neg (by decide), Option.bind_some, scanWidth, hc, if_neg (by decide),
        if_neg (by decide), Option.bind_some, scanTail, scanPrecision, hc, if_neg (by decide),
        Option.bind_some, length_none (by rw [hc]; decide) (by rw [hc]; decide), Option.bind_some]
  | cons c u =>
      cases hc : isdigit c with
      | true =>
          obtain ⟨st₁, hwidth, h₁⟩ := width_settles hE args hc h
          obtain ⟨st', htail, h'⟩ := tail_settles hE args _ h₁
          rw [behindDirective, conversion, if_pos hc, if_pos hc]
          refine ⟨st', (hwidth.bind htail).congr fun n => ?_, h'⟩
          rw [Option.bind_assoc]
      | false =>
          obtain ⟨rfl, hat⟩ := h.cons
          have hzero : scanZero E st = some st := by
            rw [scanZero, if_neg]
            intro h0
            rw [h0] at hc
            cases hc
          by_cases hstar : st.c = ch '*'
          · obtain ⟨st₁, hnext, h₁⟩ := next_at hE
              { st with width := (args st.argp).setWidth 32, argp := st.argp + 1 } (u := st.c :: u) hat
            obtain ⟨st', htail, h'⟩ := tail_settles hE args _ h₁
            rw [hstar] at h' ⊢
            refine ⟨st', htail.congr fun n => ?_, h'⟩
            rw [hzero, Option.bind_some, scanWidth, hc, if_neg Bool.false_ne_true, if_pos hstar,
              hnext, Option.map_some, negateWidth_eq, Option.bind_some]
          · obtain ⟨st', htail, h'⟩ := tail_settles_peeked hE args h hc hstar
            refine ⟨st', htail.congr fun n => ?_, h'⟩
            rw [hzero, Option.bind_some, scanWidth, hc, if_neg Bool.false_ne_true, if_neg hstar,
              Option.bind_some]

theorem scanDirective_settles (u : List Byte) {st : PrintfState σ}
    (h : Cursor fmt l x st (ch '%' :: u ++ [0])) :
    ∃ st', Settles (fun n => scanDirective E args n st) st' ∧
      Scanned fmt l (x.1, setFlags x.2 (u.takeWhile isFlag)) st' (conversion (u.dropWhile isFlag))
        (behindDirective (u.dropWhile isFlag)) := by
  obtain ⟨st₁, hflags, h₁⟩ := flags_settles hE u (startDirective st) h.succ
  obtain ⟨st', hparts, h'⟩ := parts_settles (x := (x.1, setFlags x.2 (u.takeWhile isFlag))) hE args _ h₁
  exact ⟨st', hflags.settles.bind hparts, h'⟩

end

end

end Rix
