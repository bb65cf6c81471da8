import Rix.Memory
import Rix.Printf

/-!
# The string conversion

What the four loops of the `'s'` case emit, and when it is the field that the width and the
precision ask for.
-/
namespace Rix
open Fuel

/-- A call whose `putc` keeps what it is given, over a memory that does not change. -/
def logEnv (m : Mem) : PrintfEnv (List Byte) where
  fetch _ a := some (m a)
  load _ a := some (m a)
  putc c out := some (out ++ [c])

def Mem.putText (m : Mem) (a : Word) (s : List Byte) : Mem := fun x => s.getD (x - a).toNat (m x)

/-- `t` with blanks up to the width `w`. -/
def padField (left : Prop) [Decidable left] (w : ℕ) (t : List Byte) : List Byte :=
  if left then t ++ List.replicate (w - t.length) (ch ' ')
  else List.replicate (w - t.length) (ch ' ') ++ t

theorem padField_length (left : Prop) [Decidable left] (w : ℕ) (t : List Byte) :
    (padField left w t).length = max w t.length := by
  unfold padField
  split
  · rw [List.length_append, List.length_replicate]
    omega
  · rw [List.length_append, List.length_replicate]
    omega

theorem padField_of_le (left : Prop) [Decidable left] {w : ℕ} {t : List Byte} (h : w ≤ t.length) :
    padField left w t = t := by
  unfold padField
  rw [Nat.sub_eq_zero_of_le h, List.replicate_zero, List.append_nil, List.nil_append, ite_self]

/-- What a precision leaves of a string; `-1` stands for none. -/
def precise (precision : BitVec 32) (s : List Byte) : List Byte :=
  if precision = -1 then s else s.take precision.toNat

/-- The characters that a width, a precision and an adjustment ask for. -/
def stringText (st : PrintfLocals) (s : List Byte) : List Byte :=
  padField st.ladjust st.width.toNat (precise st.precision s)

/-- The bound of the loops over the string. -/
def charLimit (precision : BitVec 32) : BitVec 32 := if precision = -1 then int32Max else precision

/-- What the loops emit: a width cuts the string off, and no precision is one of `INT32_MAX`. -/
def stringOutput (st : PrintfLocals) (s : List Byte) : List Byte :=
  let t := s.take (charLimit st.precision).toNat
  if st.width = 0 then t else padField st.ladjust st.width.toNat (t.take st.width.toNat)

variable {m : Mem}

def PrintfState.emitted (st : PrintfState (List Byte)) (out : List Byte) : PrintfState (List Byte) :=
  { st with env := st.env ++ out, printed := st.printed + BitVec.ofNat 32 out.length }

theorem emitted_nil (st : PrintfState (List Byte)) : st.emitted [] = st := by
  have hprinted : st.printed + BitVec.ofNat 32 0 = st.printed := BitVec.add_zero _
  rw [PrintfState.emitted, List.append_nil, List.length_nil, hprinted]

theorem count_cons (n : BitVec 32) (c : Byte) (out : List Byte) :
    n + BitVec.ofNat 32 [c].length + BitVec.ofNat 32 out.length =
      n + BitVec.ofNat 32 (c :: out).length := by
  rw [BitVec.add_assoc, ← BitVec.ofNat_add, ← List.length_append, List.singleton_append]

theorem emitted_cons (st : PrintfState (List Byte)) (c : Byte) (out : List Byte) :
    (st.emitted [c]).emitted out = st.emitted (c :: out) := by
  simp only [PrintfState.emitted, List.append_assoc, List.singleton_append, count_cons]

theorem measure_settles {s : List Byte} (st : PrintfState (List Byte)) (hs : CString m st.s s) :
    ∃ a n, LoopSettles (fun _ => measurePass (logEnv m)) st { st with s := a, n := n } ∧
      n.toNat = st.n.toNat + min s.length (st.precision.toNat - st.n.toNat) := by
  induction s generalizing st with
  | nil =>
      refine ⟨st.s, st.n, .stop (.of_forall fun _ => ?_), by rw [List.length_nil, Nat.zero_min]; rfl⟩
      have hstop : ¬ (m st.s ≠ 0 ∧ st.n < st.precision.setWidth 64) := fun h => h.1 hs
      exact if_neg hstop
  | cons c s ih =>
      obtain ⟨rfl, hc, hs⟩ := hs
      by_cases hn : st.n < st.precision.setWidth 64
      · have hlt := toNat_lt_setWidth.mp hn
        obtain ⟨a, n, hloop, hcount⟩ := ih { st with s := st.s + 1, n := st.n + 1 } hs
        have hpass : measurePass (logEnv m) st = some (.next { st with s := st.s + 1, n := st.n + 1 }) :=
          if_pos ⟨hc, hn⟩
        refine ⟨a, n, .next (.of_forall fun _ => hpass) hloop, ?_⟩
        rw [hcount, toNat_succ_of_lt hlt, List.length_cons]
        dsimp only
        omega
      · have hle := mt toNat_lt_setWidth.mpr hn
        refine ⟨st.s, st.n, .stop (.of_forall fun _ => ?_), by omega⟩
        have hstop : ¬ (m st.s ≠ 0 ∧ st.n < st.precision.setWidth 64) := fun h => hn h.2
        exact if_neg hstop

theorem pad_settles (k : ℕ) (st : PrintfState (List Byte)) (hk : st.width.toNat - st.n.toNat = k) :
    ∃ n, LoopSettles (fun _ => padPass (logEnv m)) st
      { st.emitted (List.replicate k (ch ' ')) with n := n } := by
  induction k generalizing st with
  | zero =>
      have hn : ¬ st.n < st.width.setWidth 64 := fun h => by
        have := toNat_lt_setWidth.mp h
        omega
      refine ⟨st.n, .stop (.of_forall fun _ => ?_)⟩
      rw [padPass, if_neg hn, List.replicate_zero, emitted_nil]
  | succ k ih =>
      have hlt : st.n.toNat < st.width.toNat := by omega
      have hpass : padPass (logEnv m) st = some (.next { st.emitted [ch ' '] with n := st.n + 1 }) :=
        if_pos (toNat_lt_setWidth.mpr hlt)
      have hk' : st.width.toNat - (st.n + 1).toNat = k := by
        rw [toNat_succ_of_lt hlt]
        omega
      obtain ⟨n, hloop⟩ := ih { st.emitted [ch ' '] with n := st.n + 1 } hk'
      refine ⟨n, .next (.of_forall fun _ => hpass) ?_⟩
      rw [List.replicate_succ, ← emitted_cons st (ch ' ') (List.replicate k (ch ' '))]
      exact hloop

def copyLimit (st : PrintfLocals) : ℕ :=
  if st.width = 0 then st.precision.toNat else min st.precision.toNat st.width.toNat

theorem lt_copyLimit {st : PrintfLocals} :
    st.n.toNat < copyLimit st ↔
      st.n < st.precision.setWidth 64 ∧ ¬ (0 < st.width ∧ st.width.setWidth 64 ≤ st.n) := by
  rw [toNat_lt_setWidth, ← BitVec.not_lt, toNat_lt_setWidth, BitVec.lt_def, copyLimit]
  split
  · rename_i h
    simp [h]
  · rename_i h
    have : st.width.toNat ≠ 0 := fun h0 => h (BitVec.eq_of_toNat_eq h0)
    simp
    omega

theorem copy_settles {s : List Byte} (st : PrintfState (List Byte)) (hs : CString m st.s s)
    {k : ℕ} (hk : copyLimit st.toPrintfLocals - st.n.toNat = k) :
    ∃ a n, LoopSettles (fun _ => copyPass (logEnv m)) st
        { st.emitted (s.take k) with s := a, n := n } ∧
      n.toNat = st.n.toNat + (s.take k).length := by
  induction s generalizing st k with
  | nil =>
      rw [List.take_nil, emitted_nil]
      refine ⟨st.s, st.n, .stop (.of_forall fun _ => ?_), rfl⟩
      unfold copyPass
      split
      · exact if_pos hs
      · rfl
  | cons c s ih =>
      obtain ⟨rfl, hc, hs⟩ := hs
      cases k with
      | zero =>
          have hn : ¬ st.n.toNat < copyLimit st.toPrintfLocals := by omega
          rw [List.take_zero, emitted_nil]
          refine ⟨st.s, st.n, .stop (.of_forall fun _ => ?_), rfl⟩
          rw [copyPass, if_neg (mt lt_copyLimit.mpr hn)]
      | succ k =>
          have hlt : st.n.toNat < copyLimit st.toPrintfLocals := by omega
          have hpass : copyPass (logEnv m) st =
              some (.next { st.emitted [m st.s] with s := st.s + 1, n := st.n + 1 }) :=
            (if_pos (lt_copyLimit.mp hlt)).trans (if_neg hc)
          have hn : (st.n + 1).toNat = st.n.toNat + 1 :=
            toNat_succ_of_lt (toNat_lt_setWidth.mp (lt_copyLimit.mp hlt).1)
          have hk' : copyLimit st.toPrintfLocals - (st.n + 1).toNat = k := by omega
          obtain ⟨a, n, hloop, hcount⟩ :=
            ih { st.emitted [m st.s] with s := st.s + 1, n := st.n + 1 } hs hk'
          refine ⟨a, n, .next (.of_forall fun _ => hpass) ?_, ?_⟩
          · rw [List.take_succ_cons, ← emitted_cons st (m st.s) (s.take k)]
            exact hloop
          · rw [hcount, hn, List.take_succ_cons, List.length_cons]
            omega

def leftBlanks (st : PrintfLocals) (s : List Byte) : List Byte :=
  if 0 < st.width ∧ ¬ st.ladjust then
    List.replicate (st.width.toNat - (s.take st.precision.toNat).length) (ch ' ')
  else []

/-- The blanks behind the `k` characters of the string. -/
def rightBlanks (st : PrintfLocals) (k : ℕ) : List Byte :=
  if st.ladjust then List.replicate (st.width.toNat - k) (ch ' ') else []

theorem padLeft_emits {s : List Byte} (st : PrintfState (List Byte)) (hs : CString m st.s s) :
    ∃ n x, Settles (fun k => padLeft (logEnv m) k st)
      { st.emitted (leftBlanks st.toPrintfLocals s) with n := n, ssaved := x } := by
  by_cases hpad : 0 < st.width ∧ ¬ st.ladjust
  · obtain ⟨a, n, hmeasure, hcount⟩ := measure_settles { st with n := 0, ssaved := st.s } hs
    have hn : n.toNat = (s.take st.precision.toNat).length := by
      rw [hcount, List.length_take, Nat.min_comm]
      exact Nat.zero_add _
    obtain ⟨n', hloop⟩ := pad_settles (m := m) _ { st with n := n, ssaved := st.s } rfl
    have hrun := hmeasure.settles.bind
      (g := fun k st => loop (padPass (logEnv m)) k { st with s := st.ssaved }) hloop.settles
    rw [leftBlanks, if_pos hpad, ← hn]
    exact ⟨n', st.s, hrun.congr fun k => if_pos hpad⟩
  · rw [leftBlanks, if_neg hpad, emitted_nil]
    exact ⟨st.n, st.ssaved, .of_forall fun k => if_neg hpad⟩

theorem padRight_emits (st : PrintfState (List Byte)) {k : ℕ} (hk : st.n.toNat = k) :
    ∃ n, Settles (fun j => padRight (logEnv m) j st)
      { st.emitted (rightBlanks st.toPrintfLocals k) with n := n } := by
  by_cases hpad : st.n < st.width.setWidth 64 ∧ st.ladjust
  · obtain ⟨n, hloop⟩ := pad_settles (m := m) _ st rfl
    rw [rightBlanks, if_pos hpad.2, ← hk]
    exact ⟨n, hloop.settles.congr fun j => if_pos hpad⟩
  · have hblanks : rightBlanks st.toPrintfLocals k = [] := by
      unfold rightBlanks
      split
      · rename_i hleft
        have hle : st.width.toNat ≤ k := hk ▸ Nat.le_of_not_lt fun hlt =>
          hpad ⟨toNat_lt_setWidth.mpr hlt, hleft⟩
        rw [Nat.sub_eq_zero_of_le hle, List.replicate_zero]
      · rfl
    rw [hblanks, emitted_nil]
    exact ⟨st.n, .of_forall fun j => if_neg hpad⟩

theorem stringOutput_eq (st : PrintfLocals) (s : List Byte) :
    let bounded := { st with precision := charLimit st.precision }
    stringOutput st s = leftBlanks bounded s ++ s.take (copyLimit bounded) ++
      rightBlanks bounded (s.take (copyLimit bounded)).length := by
  intro bounded
  have hladjust : bounded.ladjust ↔ st.ladjust := Iff.rfl
  by_cases hw : st.width = 0
  · have hleft : leftBlanks bounded s = [] := by
      rw [leftBlanks, if_neg]
      rintro ⟨hpos, -⟩
      exact absurd hw (((BitVec.pos_iff_ne_zero _).mp hpos))
    have hright : ∀ k, rightBlanks bounded k = [] := by
      intro k
      unfold rightBlanks
      rw [show bounded.width = 0 from hw]
      split
      · rw [show (0 : BitVec 32).toNat = 0 from rfl, Nat.zero_sub, List.replicate_zero]
      · rfl
    rw [stringOutput, if_pos hw, hleft, hright, List.nil_append, List.append_nil, copyLimit, if_pos hw]
  · have hpos : 0 < st.width := (BitVec.pos_iff_ne_zero _).mpr hw
    rw [stringOutput, if_neg hw, copyLimit, if_neg hw, List.take_take, Nat.min_comm, padField]
    by_cases hl : st.ladjust
    · rw [if_pos hl, leftBlanks, if_neg (fun h => h.2 (hladjust.mpr hl)), rightBlanks,
        if_pos (hladjust.mpr hl), List.nil_append]
    · rw [if_neg hl, leftBlanks, if_pos ⟨hpos, fun h => hl (hladjust.mp h)⟩, rightBlanks,
        if_neg (fun h => hl (hladjust.mp h)), List.append_nil]
      congr 2
      simp only [List.length_take]
      dsimp only [bounded]
      omega

theorem stringField_emits (args : ℕ → Word) (nullText : Word) {s : List Byte}
    (st : PrintfState (List Byte)) (hs : CString m (takeString args nullText st).s s) :
    ∃ st', Settles (fun k => stringField (logEnv m) args nullText k st) st' ∧
      st'.env = st.env ++ stringOutput st.toPrintfLocals s ∧
      st'.printed = st.printed + BitVec.ofNat 32 (stringOutput st.toPrintfLocals s).length := by
  set st₀ := takeString args nullText st
  have hk : copyLimit st₀.toPrintfLocals - (0 : Word).toNat = copyLimit st₀.toPrintfLocals :=
    Nat.sub_zero _
  obtain ⟨n₁, x, hleft⟩ := padLeft_emits st₀ hs
  obtain ⟨a, n₂, hcopy, hcount⟩ := copy_settles
    { st₀.emitted (leftBlanks st₀.toPrintfLocals s) with n := 0, ssaved := x } hs hk
  obtain ⟨n₃, hright⟩ := padRight_emits (m := m)
    { (st₀.emitted (leftBlanks st₀.toPrintfLocals s)).emitted
        (s.take (copyLimit st₀.toPrintfLocals)) with
      s := a, n := n₂, ssaved := x } (hcount.trans (Nat.zero_add _))
  refine ⟨_, hleft.bind (hcopy.settles.bind hright), ?_, ?_⟩
  · rw [stringOutput_eq]
    simp only [PrintfState.emitted, List.append_assoc]
    rfl
  · rw [stringOutput_eq]
    simp only [PrintfState.emitted, List.length_append, BitVec.ofNat_add, BitVec.add_assoc]
    rfl

theorem padField_take_iff (left : Prop) [Decidable left] (w : ℕ) (t : List Byte) :
    padField left w (t.take w) = padField left w t ↔ t.length ≤ w := by
  constructor
  · intro h
    have hlength := congrArg List.length h
    rw [padField_length, padField_length, List.length_take] at hlength
    omega
  · intro h
    rw [List.take_of_length_le h]

/-- A list that starts with its own shift by blanks is blank. -/
theorem all_of_shift {a : Byte} {d k : ℕ} {s : List Byte} (hd : 0 < d)
    (h : List.replicate d a ++ s.take k = s) : ∀ c ∈ s, c = a := by
  have hget : ∀ i (hi : i < s.length), s[i] = a := by
    intro i
    induction i using Nat.strong_induction_on with
    | _ i ih =>
      intro hi
      have hi' : i < (List.replicate d a ++ s.take k).length := by rwa [h]
      have heq : s[i] = (List.replicate d a ++ s.take k)[i] := by simp only [h]
      rw [heq]
      by_cases hid : i < d
      · rw [List.getElem_append_left (by rwa [List.length_replicate]), List.getElem_replicate]
      · rw [List.getElem_append_right (by rw [List.length_replicate]; omega), List.getElem_take]
        exact ih _ (by rw [List.length_replicate]; omega) _
  intro c hc
  obtain ⟨i, hi, rfl⟩ := List.mem_iff_getElem.mp hc
  exact hget i hi

/-- A string cut to `k` characters fills the width as the whole string does only if what it takes
for the rest are blanks. -/
theorem padField_cut_iff (left : Prop) [Decidable left] {w k : ℕ} {s : List Byte} (hk : k < s.length)
    (hw : s.length ≤ w) :
    padField left w (s.take k) = padField left w s ↔
      ∀ c ∈ (if left then s.drop k else s), c = ch ' ' := by
  have hlen : (s.take k).length = k := List.length_take_of_le hk.le
  unfold padField
  rw [hlen]
  split
  · have hsplit : w - k = (s.length - k) + (w - s.length) := by omega
    have hdrop : s.take k ++ List.replicate (s.length - k) (ch ' ') = s ↔
        s.drop k = List.replicate (s.length - k) (ch ' ') := by
      conv_lhs => rhs; rw [← List.take_append_drop k s]
      rw [List.append_right_inj, eq_comm]
    rw [hsplit, ← List.replicate_append_replicate, ← List.append_assoc, List.append_left_inj, hdrop,
      List.eq_replicate_iff, List.length_drop, eq_self_iff_true, true_and]
  · have hsplit : w - k = (w - s.length) + (s.length - k) := by omega
    rw [hsplit, ← List.replicate_append_replicate, List.append_assoc, List.append_right_inj]
    constructor
    · exact all_of_shift (by omega)
    · intro hblank
      have hs : s = List.replicate s.length (ch ' ') := List.eq_replicate_iff.mpr ⟨rfl, hblank⟩
      have htake : s.take k = List.replicate k (ch ' ') :=
        List.eq_replicate_iff.mpr ⟨hlen, fun c hc => hblank c (List.mem_of_mem_take hc)⟩
      rw [htake, List.replicate_append_replicate, Nat.sub_add_cancel hk.le]
      exact hs.symm

/-- The conditions on the width and, where there is no precision, on the length of the string. -/
def FieldFits (st : PrintfLocals) (s : List Byte) : Prop :=
  (st.width = 0 ∨ (precise st.precision s).length ≤ st.width.toNat) ∧
    (st.precision ≠ -1 ∨ s.length ≤ int32Max.toNat ∨
      st.width ≠ 0 ∧ ∀ c ∈ (if st.ladjust then s.drop int32Max.toNat else s), c = ch ' ')

theorem fieldFits_of_precise {st : PrintfLocals} {s : List Byte}
    (h : s.take (charLimit st.precision).toNat = precise st.precision s) :
    FieldFits st s ↔ st.width = 0 ∨ (precise st.precision s).length ≤ st.width.toNat := by
  refine and_iff_left (or_iff_not_imp_left.mpr fun hnone => .inl ?_)
  rw [not_not] at hnone
  rw [charLimit, precise, if_pos hnone, if_pos hnone] at h
  exact List.take_eq_self_iff s |>.mp h

/-- The loops only cut more than a precision does where there is none, at `INT32_MAX`. -/
theorem long_of_not_precise {st : PrintfLocals} {s : List Byte}
    (h : s.take (charLimit st.precision).toNat ≠ precise st.precision s) :
    st.precision = -1 ∧ int32Max.toNat < s.length := by
  unfold charLimit precise at h
  by_cases hnone : st.precision = -1
  · rw [if_pos hnone, if_pos hnone] at h
    exact ⟨hnone, not_le.mp fun hle => h (List.take_of_length_le hle)⟩
  · rw [if_neg hnone, if_neg hnone] at h
    exact absurd rfl h

theorem stringOutput_eq_iff (st : PrintfLocals) (s : List Byte) :
    stringOutput st s = stringText st s ↔ FieldFits st s := by
  have hzero : st.width = 0 → st.width.toNat = 0 := fun h => by rw [h]; rfl
  by_cases hprecise : s.take (charLimit st.precision).toNat = precise st.precision s
  · rw [fieldFits_of_precise hprecise, stringOutput, stringText, hprecise]
    by_cases hw : st.width = 0
    · rw [if_pos hw, hzero hw, padField_of_le _ (Nat.zero_le _)]
      exact iff_of_true rfl (.inl hw)
    · rw [if_neg hw, padField_take_iff, or_iff_right hw]
  · obtain ⟨hnone, hlong⟩ := long_of_not_precise hprecise
    have hs : precise st.precision s = s := if_pos hnone
    have hlimit : charLimit st.precision = int32Max := if_pos hnone
    rw [hs, hlimit] at hprecise
    rw [stringOutput, stringText, FieldFits, hs, hlimit]
    by_cases hw : st.width = 0
    · rw [if_pos hw, hzero hw, padField_of_le _ (Nat.zero_le _)]
      refine iff_of_false hprecise fun hfits => ?_
      rcases hfits.2 with h | h | h
      · exact h hnone
      · omega
      · exact h.1 hw
    · rw [if_neg hw, or_iff_right hw, or_iff_right (not_not_intro hnone),
        or_iff_right (Nat.not_le_of_lt hlong), and_iff_right hw]
      by_cases hle : s.length ≤ st.width.toNat
      · have htake : (s.take int32Max.toNat).take st.width.toNat = s.take int32Max.toNat := by
          apply List.take_of_length_le
          rw [List.length_take]
          omega
        rw [htake, padField_cut_iff _ hlong hle, and_iff_right hle]
      · refine iff_of_false (fun h => ?_) fun h => hle h.1
        have hlength := congrArg List.length h
        rw [padField_length, padField_length, List.length_take] at hlength
        omega

/-- The case emits the field, and counts it. -/
def FieldExact (m : Mem) (args : ℕ → Word) (nullText : Word) (st : PrintfState (List Byte))
    (s : List Byte) : Prop :=
  ∃ st', Settles (fun k => stringField (logEnv m) args nullText k st) st' ∧
    st'.env = st.env ++ stringText st.toPrintfLocals s ∧
    st'.printed.toInt = st.printed.toInt + max st.width.toNat (precise st.precision s).length

theorem toInt_add_ofNat_iff (x : BitVec 32) (k : ℕ) :
    (x + BitVec.ofNat 32 k).toInt = x.toInt + k ↔ x.toInt + k < 2 ^ 31 := by
  have hlo := BitVec.le_toInt x
  rw [BitVec.toInt_add, BitVec.toInt_ofNat', Int.add_bmod_bmod]
  constructor
  · intro h
    rw [← h]
    exact Int.bmod_lt (by decide)
  · intro h
    apply Int.bmod_eq_of_le
    · omega
    · omega

/-- The case emits the field exactly when the string fits and the count does. -/
theorem stringField_exact_iff (m : Mem) (args : ℕ → Word) (nullText : Word)
    (st : PrintfState (List Byte)) (s : List Byte) (hs : CString m (takeString args nullText st).s s) :
    FieldExact m args nullText st s ↔ FieldFits st.toPrintfLocals s ∧
      st.printed.toInt + max st.width.toNat (precise st.precision s).length < 2 ^ 31 := by
  obtain ⟨st', hrun, henv, hprinted⟩ := stringField_emits args nullText st hs
  have hexact : FieldExact m args nullText st s ↔
      stringOutput st.toPrintfLocals s = stringText st.toPrintfLocals s ∧
        st'.printed.toInt = st.printed.toInt + max st.width.toNat (precise st.precision s).length := by
    constructor
    · rintro ⟨st₁, hrun₁, henv₁, hprinted₁⟩
      obtain rfl := hrun.unique hrun₁
      exact ⟨List.append_cancel_left (henv.symm.trans henv₁), hprinted₁⟩
    · rintro ⟨hout, hprinted₁⟩
      exact ⟨st', hrun, hout ▸ henv, hprinted₁⟩
  rw [hexact, stringOutput_eq_iff]
  refine and_congr_right fun hfits => ?_
  have hlength := congrArg List.length ((stringOutput_eq_iff _ _).mpr hfits)
  rw [stringText, padField_length] at hlength
  rw [hprinted, hlength]
  exact_mod_cast toInt_add_ofNat_iff _ _

def hello : List Byte := [ch 'h', ch 'e', ch 'l', ch 'l', ch 'o']

/-- At the conversion of a directive with the width `w` and no precision. -/
def widthState (w : BitVec 32) : PrintfState (List Byte) :=
  { printfStart [] 0 0 with width := w, precision := -1 }

theorem cString_hello (w : BitVec 32) : CString (Mem.putText (fun _ => 0) 0x2000 hello)
    (takeString (fun _ => 0x2000) 0 (widthState w)).s hello := by
  have hs : (takeString (fun _ => 0x2000) 0 (widthState w)).s = 0x2000 := rfl
  rw [hs]
  exact ⟨rfl, by decide, rfl, by decide, rfl, by decide, rfl, by decide, rfl, by decide, rfl⟩

/-- A width of eight puts three blanks in front. -/
theorem stringField_exact_eight :
    FieldExact (Mem.putText (fun _ => 0) 0x2000 hello) (fun _ => 0x2000) 0 (widthState 8) hello :=
  (stringField_exact_iff _ _ _ _ _ (cString_hello 8)).mpr
    ⟨⟨.inr (by decide), .inr (.inl (by decide))⟩, by decide⟩

/-- A width of three cuts the string off. -/
theorem stringField_cut_three :
    ¬ FieldExact (Mem.putText (fun _ => 0) 0x2000 hello) (fun _ => 0x2000) 0 (widthState 3) hello := by
  rintro ⟨st₁, hrun₁, henv₁, -⟩
  obtain ⟨st', hrun, henv, -⟩ := stringField_emits (fun _ => 0x2000) 0 (widthState 3)
    (cString_hello 3)
  obtain rfl := hrun.unique hrun₁
  have hfits := (stringOutput_eq_iff _ _).mp (List.append_cancel_left (henv.symm.trans henv₁))
  rcases hfits.1 with h | h
  · exact absurd h (by decide)
  · exact absurd h (by decide)

end Rix
