import Rix.PrintfRuns
import Rix.PrintfString

/-!
# Formats of literals and plain directives

What a run emits for a format of literal characters, `%%`, `%c` and `%s`. Behind the character of
its argument a `%c` emits its own letter, and a `%%` and a `%s` emit a character that is not counted.
-/
namespace Rix
open Fuel

inductive FormatItem where
  | literal (c : Byte) (hc : c ≠ ch '%')
  | percent
  | char
  | string

def FormatItem.text : FormatItem → List Byte
  | .literal c _ => [c]
  | .percent => [ch '%', ch '%']
  | .char => [ch '%', ch 'c']
  | .string => [ch '%', ch 's']

def formatText (items : List FormatItem) : List Byte := items.flatMap FormatItem.text

def FormatItem.arity : FormatItem → ℕ
  | .literal _ _ => 0
  | .percent => 0
  | .char => 1
  | .string => 1

def argCount (items : List FormatItem) : ℕ := (items.map FormatItem.arity).sum

theorem formatText_cons (item : FormatItem) (items : List FormatItem) :
    formatText (item :: items) = item.text ++ formatText items := List.flatMap_cons

theorem argCount_cons (item : FormatItem) (items : List FormatItem) :
    argCount (item :: items) = item.arity + argCount items := List.sum_cons

/-- `"<null>"`. -/
def nullString : List Byte := [ch '<', ch 'n', ch 'u', ch 'l', ch 'l', ch '>']

/-- `out` is what the items ask for, with the arguments from slot `k` on. -/
inductive Renders (m : Mem) (args : ℕ → Word) : ℕ → List FormatItem → List Byte → Prop where
  | nil {k : ℕ} : Renders m args k [] []
  | literal {k : ℕ} {items : List FormatItem} {out : List Byte} {c : Byte} {hc : c ≠ ch '%'}
      (h : Renders m args k items out) : Renders m args k (.literal c hc :: items) (c :: out)
  | percent {k : ℕ} {items : List FormatItem} {out : List Byte} (h : Renders m args k items out) :
      Renders m args k (.percent :: items) (ch '%' :: out)
  | char {k : ℕ} {items : List FormatItem} {out : List Byte} (h : Renders m args (k + 1) items out) :
      Renders m args k (.char :: items) ((args k).setWidth 8 :: out)
  | null {k : ℕ} {items : List FormatItem} {out : List Byte} (hk : args k = NULL)
      (h : Renders m args (k + 1) items out) :
      Renders m args k (.string :: items) (nullString ++ out)
  | string {k : ℕ} {items : List FormatItem} {s out : List Byte} (hk : args k ≠ NULL)
      (hs : CString m (args k) s) (h : Renders m args (k + 1) items out) :
      Renders m args k (.string :: items) (s ++ out)

/-- The run emits `out`, takes one slot for every item that has an argument, and returns the number
of characters. -/
def RunExact (m : Mem) (args : ℕ → Word) (nullText fmt : Word) (flags : BitVec 32)
    (items : List FormatItem) (out : List Byte) : Prop :=
  ∃ st, Settles (fun n => printfInternal (logEnv m) args nullText n [] fmt flags) st ∧
    st.env = out ∧ st.argp = argCount items ∧ st.printed.toInt = out.length

/-- The environment and the count after the characters `out`, each of them counted. -/
def emittedOuter (x : List Byte × BitVec 32) (out : List Byte) : List Byte × BitVec 32 :=
  (x.1 ++ out, x.2 + BitVec.ofNat 32 out.length)

theorem emittedOuter_nil (x : List Byte × BitVec 32) : emittedOuter x [] = x :=
  Prod.ext (List.append_nil x.1) (BitVec.add_zero x.2)

theorem emittedOuter_cons (x : List Byte × BitVec 32) (c : Byte) (out : List Byte) :
    emittedOuter (emittedOuter x [c]) out = emittedOuter x (c :: out) := by
  simp only [emittedOuter, List.append_assoc, List.singleton_append, count_cons]

/-- At least `u` of the characters emitted are not counted. -/
def Uncounted (u : ℕ) (x : List Byte × BitVec 32) : Prop :=
  ∃ k, x.2 = BitVec.ofNat 32 k ∧ k + u ≤ x.1.length

theorem putcCount_keeps (m : Mem) (c : Byte) {d : BitVec 32} (hd : d = 0 ∨ d = 1) (u : ℕ) :
    Keeps (Uncounted u) (Uncounted u) (putcCount (logEnv m) c d) := by
  intro x hx y hy
  obtain ⟨k, hk, hle⟩ := hx
  obtain rfl := Option.some.inj hy
  have hd' : d.toNat ≤ 1 := by rcases hd with rfl | rfl <;> decide
  refine ⟨k + d.toNat, ?_, ?_⟩
  · rw [BitVec.ofNat_add, BitVec.ofNat_toNat, BitVec.setWidth_eq, ← hk]
  · rw [List.length_append, List.length_singleton]
    omega

theorem uncounted_coupled (m : Mem) (u : ℕ) :
    EnvCoupled (aloneLink (Uncounted u)) (logEnv m) (logEnv m) :=
  aloneLink_coupled fun c _ hd => putcCount_keeps m c hd u

section

variable {m : Mem} {args : ℕ → Word} {nullText : Word}

theorem literal_pass {st : PrintfState (List Byte)} {c : Byte} (hm : m st.fmt = c) (h0 : c ≠ 0)
    (hc : c ≠ ch '%') (n : ℕ) :
    printfPass (logEnv m) args nullText n st =
      some (.next { st.emitted [c] with c := c, fmt := st.fmt + 1 }) := by
  obtain rfl := hm
  exact (if_neg h0).trans (if_pos hc)

theorem nul_pass {st : PrintfState (List Byte)} (hm : m st.fmt = 0) (n : ℕ) :
    printfPass (logEnv m) args nullText n st = some (.stop { st with c := 0 }) := by
  rw [← hm]
  exact if_pos hm

/-- A directive of a conversion character alone, which the scan does not take. -/
theorem scanDirective_plain (st : PrintfState (List Byte)) {c : Byte}
    (hc : c = ch '%' ∨ c = ch 'c' ∨ c = ch 's') (hm : m (st.fmt + 1) = c) (n : ℕ) :
    scanDirective (logEnv m) args (n + 1) st = some { startDirective st with c := c } := by
  have hpeek : peek (logEnv m) (startDirective st) = some { startDirective st with c := c } := by
    rw [← hm]
    rfl
  have hpass : flagsPass (logEnv m) (startDirective st) =
      some (.stop { startDirective st with c := c }) := by
    rw [flagsPass, hpeek]
    rcases hc with rfl | rfl | rfl <;> rfl
  rw [scanDirective, loop, hpass]
  rcases hc with rfl | rfl | rfl <;> rfl

theorem percent_pass {st : PrintfState (List Byte)} (hm : m st.fmt = ch '%') (n : ℕ) :
    printfPass (logEnv m) args nullText n st =
      (directive (logEnv m) args nullText n { st with c := ch '%' }).map Flow.next := by
  rw [← hm]
  refine (if_neg ?_).trans (if_neg (not_not_intro hm))
  show m st.fmt ≠ 0
  rw [hm]
  decide

theorem directive_pass {st : PrintfState (List Byte)} {c : Byte}
    (hc : c = ch '%' ∨ c = ch 'c' ∨ c = ch 's') (hm : m st.fmt = ch '%') (hm' : m (st.fmt + 1) = c)
    (n : ℕ) :
    printfPass (logEnv m) args nullText (n + 1) st =
      (convert (logEnv m) args nullText (n + 1) { startDirective st with c := c }).map Flow.next := by
  rw [percent_pass hm, directive, scanDirective_plain { st with c := ch '%' } hc hm']
  rfl

theorem char_pass (args : ℕ → Word) (nullText : Word) {st : PrintfState (List Byte)} (hm : m st.fmt = ch '%')
    (hm' : m (st.fmt + 1) = ch 'c') :
    ∃ st', Settles (fun n => printfPass (logEnv m) args nullText n st) (.next st') ∧
      st'.fmt = st.fmt + 1 ∧ st'.argp = st.argp + 1 ∧
      st'.outer = emittedOuter st.outer [(args st.argp).setWidth 8] := by
  have hpass : ∀ n, printfPass (logEnv m) args nullText (n + 1) st =
      some (.next { (startDirective st).emitted [(args st.argp).setWidth 8] with
        c := (args st.argp).setWidth 8, argp := st.argp + 1 }) := fun n => by
    rw [directive_pass (.inr (.inl rfl)) hm hm']
    rfl
  exact ⟨_, Settles.succ (.of_forall fun _ => rfl) hpass, rfl, rfl, rfl⟩

theorem emit_uncounted (c : Byte) (u : ℕ) :
    Keeps (fun st => Uncounted u st.outer) (fun st => Uncounted (u + 1) st.outer)
      (emit (logEnv m) c) := by
  intro st hst st' hst'
  obtain ⟨k, hk, hle⟩ := hst
  obtain rfl := Option.some.inj hst'
  refine ⟨k, hk, ?_⟩
  show k + (u + 1) ≤ (st.env ++ [c]).length
  rw [List.length_append, List.length_singleton]
  have hle' : k + u ≤ st.env.length := hle
  omega

/-- A `%%` and a `%s` emit a character that is not counted. -/
theorem convert_uncounted {c : Byte} (hc : c = ch '%' ∨ c = ch 's') (n : ℕ) :
    Keeps (fun st => st.c = c ∧ Uncounted 0 st.outer) (fun st => Uncounted 1 st.outer)
      (convert (logEnv m) args nullText n) := by
  rintro st ⟨hst, hcount⟩ st' hst'
  rcases hc with rfl | rfl
  · have hconvert : convert (logEnv m) args nullText n st = emit (logEnv m) st.c st := by
      rw [convert, hst]
      rfl
    rw [hconvert] at hst'
    exact emit_uncounted _ 0 st hcount st' hst'
  · have hconvert : convert (logEnv m) args nullText n st =
        (stringField (logEnv m) args nullText n st).bind fun st =>
          printUnsigned (logEnv m) args { st with base := 8 } := by
      rw [convert, hst]
      rfl
    rw [hconvert] at hst'
    obtain ⟨st₁, hfield, hunsigned⟩ := Option.bind_eq_some_iff.mp hst'
    have hcount₁ := (coupled_stringField (uncounted_coupled m 0) n).left () st hcount st₁ hfield
    exact emit_uncounted st₁.c 0
      { st₁ with
        base := 8
        argp := st₁.argp + 1
        n := narrowUnsigned st₁.ntype (unsignedArg st₁.ntype (args st₁.argp)) } hcount₁ st' hunsigned

theorem uncounted_pass {st : PrintfState (List Byte)} {c : Byte} (hc : c = ch '%' ∨ c = ch 's')
    (hm : m st.fmt = ch '%') (hm' : m (st.fmt + 1) = c) (hcount : Uncounted 0 st.outer) (n : ℕ)
    (flow : Flow (PrintfState (List Byte)))
    (hpass : printfPass (logEnv m) args nullText n st = some flow) :
    Flow.Holds (fun st => Uncounted 1 st.outer) flow := by
  cases n with
  | zero =>
      rw [percent_pass hm] at hpass
      cases hpass
  | succ n =>
      have hc' : c = ch '%' ∨ c = ch 'c' ∨ c = ch 's' := hc.imp_right .inr
      rw [directive_pass hc' hm hm'] at hpass
      obtain ⟨st', hconvert, rfl⟩ := Option.map_eq_some_iff.mp hpass
      exact convert_uncounted hc (n + 1) { startDirective st with c := c } ⟨rfl, hcount⟩ st' hconvert

/-- The items whose pass counts what it emits. -/
def FormatItem.counted : FormatItem → Bool
  | .literal _ _ => true
  | .percent => false
  | .char => true
  | .string => false

/-- The run over literals and `%c`, of which each emits its letter behind its argument. -/
theorem visits_counted (args : ℕ → Word) (nullText : Word) {items : List FormatItem} (hitems : ∀ i ∈ items, i.counted = true)
    {rest : List Byte} (st : PrintfState (List Byte))
    (hs : CString m st.fmt (formatText items ++ rest)) :
    ∃ st' out, Visits (printfPass (logEnv m) args nullText) st st' ∧ CString m st'.fmt rest ∧
      st'.outer = emittedOuter st.outer out ∧ st'.argp = st.argp + argCount items ∧
      out.length = items.length + argCount items ∧
      (argCount items = 0 → out = formatText items) := by
  induction items generalizing st with
  | nil => exact ⟨st, [], .start, hs, (emittedOuter_nil _).symm, rfl, rfl, fun _ => rfl⟩
  | cons item items ih =>
      have hrest : ∀ i ∈ items, i.counted = true := fun i hi => hitems i (List.mem_cons_of_mem _ hi)
      rw [argCount_cons, formatText_cons, List.length_cons]
      rw [formatText_cons, List.append_assoc] at hs
      cases item with
      | literal c hc =>
          obtain ⟨hm, h0, hs⟩ := hs
          obtain ⟨st', out, hvisits, hs', houter, hargp, hlength, htext⟩ :=
            ih hrest { st.emitted [c] with c := c, fmt := st.fmt + 1 } hs
          refine ⟨st', c :: out, .head (.of_forall (literal_pass hm h0 hc)) hvisits, hs',
            houter.trans (emittedOuter_cons st.outer c out), ?_, ?_, ?_⟩
          · rw [hargp, FormatItem.arity, Nat.zero_add]
            rfl
          · rw [List.length_cons, hlength, FormatItem.arity]
            omega
          · intro hnone
            rw [FormatItem.arity, Nat.zero_add] at hnone
            rw [htext hnone]
            rfl
      | char =>
          obtain ⟨hm, -, hm', h0, hs⟩ := hs
          obtain ⟨st₁, hpass, hfmt₁, hargp₁, houter₁⟩ := char_pass args nullText hm hm'
          rw [← hfmt₁] at hm' hs
          have hliteral : ∀ n, printfPass (logEnv m) args nullText n st₁ =
              some (.next { st₁.emitted [ch 'c'] with c := ch 'c', fmt := st₁.fmt + 1 }) :=
            literal_pass hm' h0 (by decide)
          obtain ⟨st', out, hvisits, hs', houter, hargp, hlength, -⟩ :=
            ih hrest { st₁.emitted [ch 'c'] with c := ch 'c', fmt := st₁.fmt + 1 } hs
          refine ⟨st', (args st.argp).setWidth 8 :: ch 'c' :: out,
            .head hpass (.head (.of_forall hliteral) hvisits), hs', ?_, ?_, ?_, ?_⟩
          · have houter₂ : st'.outer = emittedOuter (emittedOuter st₁.outer [ch 'c']) out := houter
            rw [houter₂, houter₁, emittedOuter_cons, emittedOuter_cons]
          · rw [hargp, FormatItem.arity]
            show st₁.argp + _ = _
            omega
          · rw [List.length_cons, List.length_cons, hlength, FormatItem.arity]
            omega
          · intro hnone
            rw [FormatItem.arity] at hnone
            omega
      | percent => exact absurd (hitems _ List.mem_cons_self) (by decide)
      | string => exact absurd (hitems _ List.mem_cons_self) (by decide)

/-- A format of literals and `%c` is run to its end. -/
theorem counted_settles (args : ℕ → Word) (nullText : Word) {items : List FormatItem} (hitems : ∀ i ∈ items, i.counted = true)
    {fmt : Word} (flags : BitVec 32) (hs : CString m fmt (formatText items)) :
    ∃ st, Settles (fun n => printfInternal (logEnv m) args nullText n [] fmt flags) st ∧
      st.printed = BitVec.ofNat 32 st.env.length ∧ st.argp = argCount items ∧
      st.env.length = items.length + argCount items ∧
      (argCount items = 0 → st.env = formatText items) := by
  have hs' : CString m (printfStart ([] : List Byte) fmt flags).fmt (formatText items ++ []) := by
    rwa [List.append_nil]
  obtain ⟨st', out, hvisits, hnul, houter, hargp, hlength, htext⟩ :=
    visits_counted args nullText hitems _ hs'
  have henv : st'.env = out := congrArg Prod.fst houter
  have hprinted : st'.printed = BitVec.ofNat 32 out.length :=
    (congrArg Prod.snd houter).trans (BitVec.zero_add _)
  refine ⟨{ st' with c := 0 }, (hvisits.loopSettles (.stop (.of_forall (nul_pass hnul)))).settles,
    henv ▸ hprinted, hargp.trans (Nat.zero_add _), henv ▸ hlength, fun hnone => henv.trans (htext hnone)⟩

/-- The character behind the `%` of an item whose pass does not count what it emits. -/
theorem exists_text_of_not_counted {item : FormatItem} (h : item.counted = false) :
    ∃ c, (c = ch '%' ∨ c = ch 's') ∧ item.text = [ch '%', c] := by
  cases item with
  | literal c hc => cases h
  | percent => exact ⟨ch '%', .inl rfl, rfl⟩
  | char => cases h
  | string => exact ⟨ch 's', .inr rfl, rfl⟩

/-- Behind a `%%` or a `%s` the count is short of what is emitted. -/
theorem uncounted_run {pre : List FormatItem} (hpre : ∀ i ∈ pre, i.counted = true) {item : FormatItem}
    (hitem : item.counted = false) (post : List FormatItem) {fmt : Word} (flags : BitVec 32)
    (hs : CString m fmt (formatText (pre ++ item :: post))) {st : PrintfState (List Byte)}
    (hrun : Settles (fun n => printfInternal (logEnv m) args nullText n [] fmt flags) st) :
    Uncounted 1 st.outer := by
  obtain ⟨c, hc, htext⟩ := exists_text_of_not_counted hitem
  have hs' : CString m (printfStart ([] : List Byte) fmt flags).fmt
      (formatText pre ++ (ch '%' :: c :: formatText post)) := by
    rw [formatText, List.flatMap_append] at hs
    have hcons : (item :: post).flatMap FormatItem.text = ch '%' :: c :: formatText post := by
      rw [List.flatMap_cons, htext]
      rfl
    rwa [hcons] at hs
  obtain ⟨st', out, hvisits, ⟨hm, -, hm', -, -⟩, houter, -⟩ :=
    visits_counted args nullText hpre _ hs'
  have hcount : Uncounted 0 st'.outer := by
    rw [houter]
    exact ⟨out.length, BitVec.zero_add _, le_rfl⟩
  obtain ⟨N, hN⟩ := hvisits.keeps (Q := (stateLink (aloneLink (Uncounted 1))).left ())
    (uncounted_pass hc hm hm' hcount) fun n =>
      (coupled_printfPass (uncounted_coupled m 1) n).left ()
  obtain ⟨M, hM⟩ := hrun
  exact hN _ (Nat.le_max_left N M) st (hM _ (Nat.le_max_right N M))

end

def FormatItem.isLiteral : FormatItem → Bool
  | .literal _ _ => true
  | .percent => false
  | .char => false
  | .string => false

theorem counted_or_split (items : List FormatItem) :
    (∀ i ∈ items, i.counted = true) ∨ ∃ pre item post, items = pre ++ item :: post ∧
      (∀ i ∈ pre, i.counted = true) ∧ item.counted = false := by
  induction items with
  | nil => exact .inl (by simp)
  | cons item items ih =>
      cases hitem : item.counted with
      | false => exact .inr ⟨[], item, items, rfl, by simp, hitem⟩
      | true =>
          rcases ih with hall | ⟨pre, bad, post, rfl, hpre, hbad⟩
          · exact .inl (List.forall_mem_cons.mpr ⟨hitem, hall⟩)
          · exact .inr ⟨item :: pre, bad, post, rfl, List.forall_mem_cons.mpr ⟨hitem, hpre⟩, hbad⟩

theorem not_exact_of_uncounted {st : PrintfState (List Byte)} (h : Uncounted 1 st.outer) :
    st.printed.toInt ≠ st.env.length := by
  obtain ⟨k, hk, hle⟩ := h
  have hprinted : st.printed = BitVec.ofNat 32 k := hk
  have hle' : k + 1 ≤ st.env.length := hle
  have hmod : (BitVec.ofNat 32 k).toNat ≤ k := by
    rw [BitVec.toNat_ofNat]
    exact Nat.mod_le _ _
  have hint : (BitVec.ofNat 32 k).toInt ≤ (BitVec.ofNat 32 k).toNat := by
    rw [BitVec.toInt_eq_toNat_cond]
    split
    · exact le_rfl
    · omega
  rw [hprinted]
  omega

theorem counted_of_literal {items : List FormatItem} (h : ∀ i ∈ items, i.isLiteral = true) :
    (∀ i ∈ items, i.counted = true) ∧ argCount items = 0 := by
  induction items with
  | nil => exact ⟨by simp, rfl⟩
  | cons item items ih =>
      obtain ⟨hitem, hitems⟩ := List.forall_mem_cons.mp h
      obtain ⟨hcounted, hargs⟩ := ih hitems
      cases item with
      | literal c hc =>
          refine ⟨List.forall_mem_cons.mpr ⟨rfl, hcounted⟩, ?_⟩
          rw [argCount_cons, hargs]
          rfl
      | percent => cases hitem
      | char => cases hitem
      | string => cases hitem

theorem Renders.length_eq {m : Mem} {args : ℕ → Word} {k : ℕ} {items : List FormatItem}
    {out : List Byte} (h : Renders m args k items out) (hitems : ∀ i ∈ items, i.counted = true) :
    out.length = items.length := by
  induction h with
  | nil => rfl
  | literal _ ih =>
      rw [List.length_cons, List.length_cons, ih (List.forall_mem_cons.mp hitems).2]
  | percent _ _ => exact absurd (hitems _ List.mem_cons_self) (by decide)
  | char _ ih =>
      rw [List.length_cons, List.length_cons, ih (List.forall_mem_cons.mp hitems).2]
  | null _ _ _ => exact absurd (hitems _ List.mem_cons_self) (by decide)
  | string _ _ _ _ => exact absurd (hitems _ List.mem_cons_self) (by decide)

theorem Renders.eq_text {m : Mem} {args : ℕ → Word} {k : ℕ} {items : List FormatItem}
    {out : List Byte} (h : Renders m args k items out) (hitems : ∀ i ∈ items, i.isLiteral = true) :
    out = formatText items := by
  induction h with
  | nil => rfl
  | literal _ ih =>
      rw [formatText_cons, ih (List.forall_mem_cons.mp hitems).2]
      rfl
  | percent _ _ => exact absurd (hitems _ List.mem_cons_self) (by decide)
  | char _ _ => exact absurd (hitems _ List.mem_cons_self) (by decide)
  | null _ _ _ => exact absurd (hitems _ List.mem_cons_self) (by decide)
  | string _ _ _ _ => exact absurd (hitems _ List.mem_cons_self) (by decide)

theorem isLiteral_of_counted {items : List FormatItem} (h : ∀ i ∈ items, i.counted = true)
    (hargs : argCount items = 0) : ∀ i ∈ items, i.isLiteral = true := by
  induction items with
  | nil => simp
  | cons item items ih =>
      obtain ⟨hitem, hitems⟩ := List.forall_mem_cons.mp h
      rw [argCount_cons] at hargs
      cases item with
      | literal c hc =>
          exact List.forall_mem_cons.mpr ⟨rfl, ih hitems (by omega)⟩
      | percent => cases hitem
      | char =>
          rw [FormatItem.arity] at hargs
          omega
      | string => cases hitem

theorem toInt_ofNat_eq_iff (k : ℕ) : (BitVec.ofNat 32 k).toInt = k ↔ k < 2 ^ 31 := by
  have h := toInt_add_ofNat_iff 0 k
  have hzero : (0 : BitVec 32).toInt = 0 := rfl
  have hadd : (0 : BitVec 32) + BitVec.ofNat 32 k = BitVec.ofNat 32 k := BitVec.zero_add _
  rw [hadd, hzero, Int.zero_add] at h
  exact_mod_cast h

/-- The run is exact exactly when the format has literals only, and fewer than 2^31 of them. -/
theorem plain_format_iff (m : Mem) (args : ℕ → Word) (nullText fmt : Word) (flags : BitVec 32)
    (items : List FormatItem) (out : List Byte) (hfmt : CString m fmt (formatText items))
    (hout : Renders m args 0 items out) :
    RunExact m args nullText fmt flags items out ↔
      (∀ i ∈ items, i.isLiteral = true) ∧ items.length < 2 ^ 31 := by
  rcases counted_or_split items with hcounted | ⟨pre, item, post, rfl, hpre, hitem⟩
  · obtain ⟨st, hrun, hprinted, hargp, hlength, htext⟩ :=
      counted_settles args nullText hcounted flags hfmt
    have hlen := hout.length_eq hcounted
    constructor
    · rintro ⟨st', hrun', henv, -, hcount⟩
      obtain rfl := hrun.unique hrun'
      rw [henv] at hlength
      rw [hprinted, henv, toInt_ofNat_eq_iff] at hcount
      exact ⟨isLiteral_of_counted hcounted (by omega), by omega⟩
    · rintro ⟨hliteral, hshort⟩
      have henv : st.env = out := by
        rw [htext (counted_of_literal hliteral).2, hout.eq_text hliteral]
      refine ⟨st, hrun, henv, hargp, ?_⟩
      rw [hprinted, henv, toInt_ofNat_eq_iff]
      omega
  · refine iff_of_false ?_ ?_
    · rintro ⟨st, hrun, henv, -, hcount⟩
      rw [← henv] at hcount
      exact not_exact_of_uncounted (uncounted_run hpre hitem post flags hfmt hrun) hcount
    · rintro ⟨hliteral, -⟩
      have hcounted := (counted_of_literal hliteral).1 item (by simp)
      rw [hitem] at hcounted
      cases hcounted

/-- `"hi"`. -/
theorem plain_format_hi : RunExact (Mem.putText (fun _ => 0) 0x1000 [ch 'h', ch 'i']) (fun _ => 0) 0 0x1000 0
    [.literal (ch 'h') (by decide), .literal (ch 'i') (by decide)] [ch 'h', ch 'i'] := by
  have hfmt : CString (Mem.putText (fun _ => 0) 0x1000 [ch 'h', ch 'i']) 0x1000
      (formatText [.literal (ch 'h') (by decide), .literal (ch 'i') (by decide)]) :=
    ⟨rfl, by decide, rfl, by decide, rfl⟩
  exact (plain_format_iff _ _ _ _ _ _ _ hfmt (.literal (.literal .nil))).mpr
    ⟨by simp [FormatItem.isLiteral], by decide⟩

/-- `"%c"` of an `x` emits `xc`. -/
theorem plain_format_char : CString (Mem.putText (fun _ => 0) 0x1000 [ch '%', ch 'c']) 0x1000 (formatText [.char]) ∧
    Renders (Mem.putText (fun _ => 0) 0x1000 [ch '%', ch 'c']) (fun _ => 0x78) 0 [.char] [ch 'x'] ∧
    ¬ RunExact (Mem.putText (fun _ => 0) 0x1000 [ch '%', ch 'c']) (fun _ => 0x78) 0 0x1000 0 [.char] [ch 'x'] := by
  have hfmt : CString (Mem.putText (fun _ => 0) 0x1000 [ch '%', ch 'c']) 0x1000 (formatText [.char]) :=
    ⟨rfl, by decide, rfl, by decide, rfl⟩
  refine ⟨hfmt, .char .nil, ?_⟩
  rintro ⟨st', hrun', henv, -⟩
  obtain ⟨st, hrun, -, -, hlength, -⟩ :=
    counted_settles (fun _ => 0x78) 0 (by simp [FormatItem.counted]) 0 hfmt
  obtain rfl := hrun.unique hrun'
  rw [henv] at hlength
  exact absurd hlength (by decide)

end Rix
