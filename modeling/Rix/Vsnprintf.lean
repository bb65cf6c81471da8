import Mathlib.Data.List.GetD
import Rix.Memset
import Rix.PrintfSilent
import Rix.PrintfString

/-!
# `vsnprintf`

The callback that stores into a buffer, on the memory that the format and the arguments are read
from as well.
-/
namespace Rix
open Fuel

/-- The memory and the `pos` of a `snprintf_arg_t`, with a record of the characters handed over and
of the addresses stored to. -/
structure SnprintfArg where
  mem : Mem
  pos : Word
  out : List Byte
  stored : List Word

/-- `data[pos] = c`. -/
def SnprintfArg.store (args : SnprintfArg) (data : Word) (c : Byte) : SnprintfArg :=
  { args with
    mem := args.mem.set8 (data + args.pos) c
    stored := args.stored ++ [data + args.pos] }

def vsnprintfInternal (data size : Word) (c : Byte) (args : SnprintfArg) : SnprintfArg :=
  let args := { args with out := args.out ++ [c] }
  if args.pos < size - 1 then { args.store data c with pos := args.pos + 1 } else args

/-- The environment of the call of `__printf_internal`. -/
def snprintfEnv (data size : Word) : PrintfEnv SnprintfArg where
  fetch info a := some (info.mem a)
  load info a := some (info.mem a)
  putc c info := some (vsnprintfInternal data size c info)

def terminate (data size : Word) (info : SnprintfArg) : SnprintfArg :=
  if info.pos < size then info.store data 0 else info

/-- The result holds the count and what has been made of the buffer. -/
def vsnprintf (args : ℕ → Word) (nullText : Word) (fuel : ℕ) (m : Mem) (str size fmt : Word)
    (flags : BitVec 32) : Option (BitVec 32 × SnprintfArg) :=
  (printfInternal (snprintfEnv str size) args nullText fuel ⟨m, 0, [], []⟩ fmt flags).map fun st =>
    (st.printed, terminate str size st.env)

/-- What a buffer of `size` bytes has room for. -/
def fitting (size : Word) (e : List Byte) : List Byte := e.take (size.toNat - 1)

/-- Of a call that has handed over the characters `info.out`: it stores inside the buffer only, the
buffer holds what it has room for and a NUL, and this agrees with what a call with another size
makes of a buffer, as far as the smaller one goes. -/
structure BufferContract (args : ℕ → Word) (nullText : Word) (m : Mem) (str size fmt : Word)
    (flags : BitVec 32) (info : SnprintfArg) : Prop where
  inside : ∀ a ∈ info.stored, (a - str).toNat < size.toNat
  text : size ≠ 0 → info.mem = m.putText str (fitting size info.out ++ [0])
  agree : ∀ size' r', Settles (fun n => vsnprintf args nullText n m str size' fmt flags) r' →
    (size ≤ size' → fitting size info.out <+: fitting size' r'.2.out) ∧
      (size' ≤ size → fitting size' r'.2.out <+: fitting size info.out)

theorem putText_nil (m : Mem) (a : Word) : m.putText a [] = m := by
  funext x
  exact List.getD_nil

theorem putText_set8 (m : Mem) (a : Word) {s : List Byte} {p : Word} (hp : p.toNat = s.length)
    (c : Byte) :
    (m.putText a s).set8 (a + p) c = m.putText a (s ++ [c]) := by
  funext x
  have hx : x = a + p ↔ (x - a).toNat = s.length := by
    rw [← hp, BitVec.toNat_inj]
    constructor
    · rintro rfl
      rw [BitVec.add_comm, BitVec.add_sub_cancel]
    · intro h
      rw [← h, BitVec.add_comm, BitVec.sub_add_cancel]
  rw [Mem.set8, Mem.putText, Mem.putText]
  by_cases hcase : (x - a).toNat = s.length
  · rw [if_pos (hx.mpr hcase), hcase, List.getD_append_right _ _ _ _ le_rfl, Nat.sub_self]
    rfl
  · rw [if_neg (mt hx.mp hcase)]
    rcases lt_or_gt_of_ne hcase with hlt | hgt
    · rw [List.getD_append _ _ _ _ hlt]
    · rw [List.getD_eq_default _ _ hgt.le, List.getD_eq_default]
      rw [List.length_append, List.length_singleton]
      omega

theorem fitting_append (size : Word) (e : List Byte) (c : Byte) :
    fitting size (e ++ [c]) =
      if e.length < size.toNat - 1 then fitting size e ++ [c] else fitting size e := by
  unfold fitting
  split
  · rename_i h
    rw [List.take_of_length_le h.le, List.take_of_length_le]
    rw [List.length_append, List.length_singleton]
    omega
  · rename_i h
    rw [List.take_append_of_le_length (by omega)]

theorem fitting_length (size : Word) (e : List Byte) :
    (fitting size e).length = min (size.toNat - 1) e.length := List.length_take

/-- What holds of a buffer that is not empty after every call. -/
structure Filled (m : Mem) (str size : Word) (info : SnprintfArg) : Prop where
  pos : info.pos.toNat = (fitting size info.out).length
  mem : info.mem = m.putText str (fitting size info.out)
  inside : ∀ a ∈ info.stored, (a - str).toNat < size.toNat

variable {m : Mem} {str size : Word}

theorem toNat_sub_one (h : size ≠ 0) : (size - 1).toNat = size.toNat - 1 := by
  have hpos : size.toNat ≠ 0 := fun h0 => h (BitVec.eq_of_toNat_eq h0)
  rw [BitVec.toNat_sub]
  simp
  omega

theorem toNat_succ_of_room (h : size ≠ 0) {p : Word} (hp : p < size - 1) :
    (p + 1).toNat = p.toNat + 1 := by
  have := size.isLt
  rw [BitVec.lt_def, toNat_sub_one h] at hp
  rw [BitVec.toNat_add]
  exact Nat.mod_eq_of_lt (by simp; omega)

theorem add_sub_self (a p : Word) : a + p - a = p := by
  rw [BitVec.add_comm, BitVec.add_sub_cancel]

theorem Filled.store {info : SnprintfArg} (h : Filled m str size info) (hsize : info.pos < size)
    (c : Byte) :
    (info.store str c).mem = m.putText str (fitting size info.out ++ [c]) ∧
      ∀ a ∈ (info.store str c).stored, (a - str).toNat < size.toNat := by
  refine ⟨?_, ?_⟩
  · rw [SnprintfArg.store, h.mem, putText_set8 m str h.pos]
  · intro a ha
    rcases List.mem_append.mp ha with ha | ha
    · exact h.inside a ha
    · rw [List.mem_singleton.mp ha, add_sub_self]
      exact hsize

theorem Filled.step (hsize : size ≠ 0) {info : SnprintfArg} (h : Filled m str size info) (c : Byte) :
    Filled m str size (vsnprintfInternal str size c info) := by
  have hlt : info.pos < size - 1 ↔ info.out.length < size.toNat - 1 := by
    rw [BitVec.lt_def, toNat_sub_one hsize, h.pos, fitting_length]
    omega
  unfold vsnprintfInternal
  by_cases hroom : info.pos < size - 1
  · have hroom' := hlt.mp hroom
    have hfit : fitting size (info.out ++ [c]) = fitting size info.out ++ [c] := by
      rw [fitting_append, if_pos hroom']
    have hpos : info.pos < size := by
      rw [BitVec.lt_def, toNat_sub_one hsize] at hroom
      rw [BitVec.lt_def]
      omega
    obtain ⟨hmem, hinside⟩ := h.store hpos c
    dsimp only
    rw [if_pos hroom]
    refine ⟨?_, ?_, hinside⟩
    · have hlength : (fitting size (info.out ++ [c])).length = info.pos.toNat + 1 := by
        rw [hfit, List.length_append, List.length_singleton, h.pos]
      exact (toNat_succ_of_room hsize hroom).trans hlength.symm
    · exact hmem.trans (congrArg _ hfit.symm)
  · have hfit : fitting size (info.out ++ [c]) = fitting size info.out := by
      rw [fitting_append, if_neg (mt hlt.mpr hroom)]
    dsimp only
    rw [if_neg hroom]
    exact ⟨h.pos.trans (congrArg _ hfit.symm), h.mem.trans (congrArg _ hfit.symm), h.inside⟩

/-- What holds of a buffer of size zero: the first character is stored all the same. -/
def Overrun (info : SnprintfArg) : Prop :=
  info.out = [] ∧ info.stored = [] ∧ info.pos = 0 ∨ info.out ≠ [] ∧ info.stored ≠ []

theorem Overrun.step {info : SnprintfArg} (h : Overrun info) (c : Byte) :
    Overrun (vsnprintfInternal str 0 c info) := by
  have hout : info.out ++ [c] ≠ [] := by simp
  unfold vsnprintfInternal
  dsimp only
  split
  · refine .inr ⟨hout, ?_⟩
    simp [SnprintfArg.store]
  · rename_i hroom
    rcases h with ⟨-, -, hpos⟩ | ⟨-, hstored⟩
    · rw [hpos] at hroom
      exact absurd (by decide) hroom
    · exact .inr ⟨hout, hstored⟩

/-- What one call of `vsnprintf_internal` keeps, a call of `vsnprintf` keeps up to the terminator. -/
theorem vsnprintf_keeps {args : ℕ → Word} {nullText fmt : Word} {flags : BitVec 32} {n : ℕ}
    {r : BitVec 32 × SnprintfArg} (P : SnprintfArg → Prop)
    (step : ∀ info c, P info → P (vsnprintfInternal str size c info)) (h0 : P ⟨m, 0, [], []⟩)
    (hrun : vsnprintf args nullText n m str size fmt flags = some r) :
    ∃ info, P info ∧ r.2 = terminate str size info := by
  obtain ⟨st, hst, rfl⟩ := Option.map_eq_some_iff.mp hrun
  refine ⟨st.env, ?_, rfl⟩
  refine printfInternal_keeps (fun c info info' hinfo h => ?_) h0 hst
  obtain rfl := Option.some.inj h
  exact step info c hinfo

theorem terminate_out (info : SnprintfArg) : (terminate str size info).out = info.out := by
  unfold terminate
  split <;> rfl

theorem Filled.start : Filled m str size ⟨m, 0, [], []⟩ where
  pos := by simp [fitting]
  mem := by simp only [fitting, List.take_nil, putText_nil]
  inside := by simp

theorem vsnprintf_filled (hsize : size ≠ 0) {args : ℕ → Word} {nullText fmt : Word}
    {flags : BitVec 32} {n : ℕ} {r : BitVec 32 × SnprintfArg}
    (hrun : vsnprintf args nullText n m str size fmt flags = some r) :
    (∀ a ∈ r.2.stored, (a - str).toNat < size.toNat) ∧
      r.2.mem = m.putText str (fitting size r.2.out ++ [0]) := by
  obtain ⟨info, hfilled, hr⟩ := vsnprintf_keeps (Filled m str size)
    (fun info c h => h.step hsize c) .start hrun
  have hpos : info.pos < size := by
    have := size.isLt
    have hne : size.toNat ≠ 0 := fun h0 => hsize (BitVec.eq_of_toNat_eq h0)
    rw [BitVec.lt_def, hfilled.pos, fitting_length]
    omega
  obtain ⟨hmem, hinside⟩ := hfilled.store hpos 0
  rw [hr, terminate_out, terminate, if_pos hpos]
  exact ⟨hinside, hmem⟩

theorem vsnprintf_zero {args : ℕ → Word} {nullText fmt : Word} {flags : BitVec 32} {n : ℕ}
    {r : BitVec 32 × SnprintfArg} (hrun : vsnprintf args nullText n m str 0 fmt flags = some r) :
    r.2.stored = [] ↔ r.2.out = [] := by
  obtain ⟨info, hover, hr⟩ := vsnprintf_keeps Overrun (fun info c h => h.step c)
    (.inl ⟨rfl, rfl, rfl⟩) hrun
  have hterminate : terminate str 0 info = info := if_neg BitVec.not_lt_zero
  rw [hr, hterminate]
  rcases hover with ⟨hout, hstored, -⟩ | ⟨hout, hstored⟩
  · exact iff_of_true hstored hout
  · exact iff_of_false hstored hout

/-- Two buffers of which the smaller one has room for `k` characters: they have the same content
until it is full, and then they have the first `k` characters in common. -/
def sizeLink (k : ℕ) : Link (List Byte) (SnprintfArg × BitVec 32) (SnprintfArg × BitVec 32) where
  both x y := x.1.mem = y.1.mem ∧ x.1.pos = y.1.pos ∧ x.1.out = y.1.out ∧
    x.1.pos.toNat = x.1.out.length ∧ x.1.out.length ≤ k
  left i x := i.length = k ∧ i <+: x.1.out
  right i y := i.length = k ∧ i <+: y.1.out

theorem out_internal (c : Byte) (info : SnprintfArg) :
    (vsnprintfInternal str size c info).out = info.out ++ [c] := by
  unfold vsnprintfInternal
  dsimp only
  split <;> rfl

theorem internal_of_room (str : Word) {info : SnprintfArg} (h : info.pos < size - 1) (c : Byte) :
    (vsnprintfInternal str size c info).mem = info.mem.set8 (str + info.pos) c ∧
      (vsnprintfInternal str size c info).pos = info.pos + 1 := by
  rw [vsnprintfInternal, if_pos h]
  exact ⟨rfl, rfl⟩

theorem prefix_internal {i : List Byte} {info : SnprintfArg} (h : i <+: info.out) (c : Byte) :
    i <+: (vsnprintfInternal str size c info).out := by
  rw [out_internal]
  exact h.trans (List.prefix_append _ _)

theorem sizeLink_coupled {size' : Word} (hsize : size ≠ 0) (hle : size ≤ size') :
    EnvCoupled (sizeLink (size.toNat - 1)) (snprintfEnv str size) (snprintfEnv str size') where
  fetch x y h := by
    funext a
    exact congrArg (fun m : Mem => some (m a)) h.1
  load x y h := by
    funext a
    exact congrArg (fun m : Mem => some (m a)) h.1
  putc c d _ := by
    refine ⟨?_, ?_, ?_⟩
    · intro i x hx x' hx'
      obtain rfl := Option.some.inj hx'
      exact ⟨hx.1, prefix_internal hx.2 c⟩
    · intro i y hy y' hy'
      obtain rfl := Option.some.inj hy'
      exact ⟨hy.1, prefix_internal hy.2 c⟩
    · rintro x y ⟨hmem, hpos, hout, hlength, hk⟩ x' y' hx' hy'
      obtain rfl := Option.some.inj hx'
      obtain rfl := Option.some.inj hy'
      have hsize' : size' ≠ 0 := by
        rintro rfl
        exact hsize (BitVec.le_zero_iff.mp hle)
      rcases hk.lt_or_eq with hlt | heq
      · -- both have room
        have hroom : x.1.pos < size - 1 := by
          rw [BitVec.lt_def, toNat_sub_one hsize, hlength]
          exact hlt
        have hroom' : y.1.pos < size' - 1 := by
          rw [BitVec.le_def] at hle
          rw [BitVec.lt_def, toNat_sub_one hsize', ← hpos, hlength]
          omega
        obtain ⟨hmem₁, hpos₁⟩ := internal_of_room str hroom c
        obtain ⟨hmem₂, hpos₂⟩ := internal_of_room str hroom' c
        refine .inl ⟨?_, ?_, ?_, ?_, ?_⟩
        · rw [hmem₁, hmem₂, hmem, hpos]
        · rw [hpos₁, hpos₂, hpos]
        · rw [out_internal, out_internal, hout]
        · rw [hpos₁, toNat_succ_of_room hsize hroom, out_internal, List.length_append,
            List.length_singleton, hlength]
        · rw [out_internal, List.length_append, List.length_singleton]
          omega
      · -- the smaller one is full
        refine .inr ⟨x.1.out, ⟨heq, prefix_internal List.prefix_rfl c⟩, heq, ?_⟩
        exact prefix_internal (hout ▸ List.prefix_rfl) c

/-- What two calls with different sizes leave in the buffer. -/
theorem fitting_prefix {size' : Word} (hle : size ≤ size') {args : ℕ → Word} {nullText fmt : Word}
    {flags : BitVec 32} {r r' : BitVec 32 × SnprintfArg}
    (hrun : Settles (fun n => vsnprintf args nullText n m str size fmt flags) r)
    (hrun' : Settles (fun n => vsnprintf args nullText n m str size' fmt flags) r') :
    fitting size r.2.out <+: fitting size' r'.2.out := by
  by_cases hsize : size = 0
  · subst hsize
    exact List.nil_prefix
  · have hle' := BitVec.le_def.mp hle
    obtain ⟨N, hN⟩ := hrun
    obtain ⟨M, hM⟩ := hrun'
    obtain ⟨st, hst, rfl⟩ := Option.map_eq_some_iff.mp (hN _ (Nat.le_max_left N M))
    obtain ⟨st', hst', rfl⟩ := Option.map_eq_some_iff.mp (hM _ (Nat.le_max_right N M))
    rw [terminate_out, terminate_out]
    have h0 : (sizeLink (size.toNat - 1)).both ((⟨m, 0, [], []⟩ : SnprintfArg), (0 : BitVec 32))
        (⟨m, 0, [], []⟩, 0) := ⟨rfl, rfl, rfl, rfl, Nat.zero_le _⟩
    rcases printfInternal_linked (sizeLink_coupled hsize hle) h0 hst hst' with
      ⟨-, -, hout, -, hk⟩ | ⟨i, ⟨hi, hleft⟩, -, hright⟩
    · have hout' : st.env.out = st'.env.out := hout
      have hk' : st.env.out.length ≤ size.toNat - 1 := hk
      rw [fitting, fitting, ← hout', List.take_of_length_le hk', List.take_of_length_le (by omega)]
    · have hfit : fitting size st.env.out = i := by
        rw [fitting, ← hi]
        exact (List.prefix_iff_eq_take.mp hleft).symm
      rw [hfit, fitting, List.prefix_take_iff]
      exact ⟨hright, by omega⟩

theorem CString.ne_zero {m : Mem} {a : Word} {s : List Byte} (h : CString m a s) : (0 : Byte) ∉ s := by
  induction s generalizing a with
  | nil => exact List.not_mem_nil
  | cons c s ih =>
      obtain ⟨-, hc, hs⟩ := h
      rw [List.mem_cons, not_or]
      exact ⟨hc.symm, ih hs⟩

theorem CString.get {m : Mem} {a : Word} {s p : List Byte} {c : Byte} {w : List Byte}
    (h : CString m a s) (hp : s ++ [0] = p ++ c :: w) : m (a + BitVec.ofNat 64 p.length) = c := by
  induction s generalizing a p with
  | nil =>
      cases p with
      | nil =>
          rw [← (List.cons.inj hp).1, List.length_nil, BitVec.add_zero]
          exact h
      | cons d p => cases p <;> cases (List.cons.inj hp).2
  | cons d s ih =>
      obtain ⟨hd, -, hs⟩ := h
      cases p with
      | nil =>
          rw [← (List.cons.inj hp).1, List.length_nil, BitVec.add_zero]
          exact hd
      | cons d' p =>
          rw [← ih hs (List.cons.inj hp).2, List.length_cons, Nat.add_comm, BitVec.ofNat_add,
            BitVec.add_assoc]
          rfl

theorem CString.reads {m : Mem} {fmt : Word} {l : List Byte} (h : CString m fmt l) (str size : Word) :
    Reads fmt l (snprintfEnv str size) ⟨m, 0, [], []⟩ := by
  rintro a c w ⟨p, hp, rfl⟩
  exact congrArg some (h.get hp)

theorem snprintfEnv_total (str size : Word) : (snprintfEnv str size).Total :=
  ⟨fun info a => ⟨info.mem a, rfl⟩, fun c info => ⟨vsnprintfInternal str size c info, rfl⟩⟩

theorem Filled.reads {info : SnprintfArg} (h : Filled m str size info) {fmt : Word} {l : List Byte}
    (hl : CString m fmt l)
    (hapart : ∀ i, i ≤ l.length → size.toNat ≤ (fmt + BitVec.ofNat 64 i - str).toNat) :
    Reads fmt l (snprintfEnv str size) info := by
  rintro a c w ⟨p, hp, rfl⟩
  have hp' : p.length ≤ l.length := by
    have hlength := congrArg List.length hp
    simp only [List.length_append, List.length_cons, List.length_nil] at hlength
    omega
  have hbehind : (fitting size info.out).length ≤ (fmt + BitVec.ofNat 64 p.length - str).toNat := by
    rw [fitting_length]
    have := hapart p.length hp'
    omega
  have hmem : info.mem (fmt + BitVec.ofNat 64 p.length) = c := by
    rw [h.mem, Mem.putText, List.getD_eq_default _ _ hbehind, hl.get hp]
  exact congrArg some hmem

/-- A call returns when its format is complete and apart from its buffer. -/
theorem vsnprintf_settles (args : ℕ → Word) (nullText : Word) (hsize : size ≠ 0) {fmt : Word}
    (flags : BitVec 32) {l : List Byte} (hl : CString m fmt l) (hcomplete : Complete l)
    (hapart : ∀ i, i ≤ l.length → size.toNat ≤ (fmt + BitVec.ofNat 64 i - str).toNat) :
    ∃ r, Settles (fun n => vsnprintf args nullText n m str size fmt flags) r := by
  have hstart : TextAt fmt l (printfStart (⟨m, 0, [], []⟩ : SnprintfArg) fmt flags).fmt (l ++ [0]) :=
    .start
  have hstep : ∀ c info info', Filled m str size info →
      (snprintfEnv str size).putc c info = some info' → Filled m str size info' := by
    intro c info info' hinfo h
    obtain rfl := Option.some.inj h
    exact hinfo.step hsize c
  obtain ⟨st, hloop⟩ := hcomplete.settles args nullText (snprintfEnv_total str size)
    (fun info hinfo => hinfo.reads hl hapart) hstep hl.ne_zero .start hstart
  exact ⟨_, hloop.settles.map fun st => (st.printed, terminate str size st.env)⟩

/-- Which calls hand over no character. -/
theorem vsnprintf_out_iff {args : ℕ → Word} {nullText fmt : Word} {flags : BitVec 32} {l : List Byte}
    (hl : CString m fmt l) {r : BitVec 32 × SnprintfArg}
    (hrun : Settles (fun n => vsnprintf args nullText n m str size fmt flags) r) :
    r.2.out = [] ↔ l = [] ∨ flags &&& flagAlt = 0 ∧ Silent l := by
  have hP : ∀ c info info', (snprintfEnv str size).putc c info = some info' → info'.out ≠ [] := by
    intro c info info' h
    obtain rfl := Option.some.inj h
    rw [out_internal]
    simp
  obtain ⟨N, hN⟩ := printf_silent_iff args nullText (snprintfEnv_total str size) hP hl.ne_zero
    (not_not_intro rfl) (hl.reads str size) flags
  obtain ⟨M, hM⟩ := hrun
  obtain ⟨st, hst, rfl⟩ := Option.map_eq_some_iff.mp (hM _ (Nat.le_max_right N M))
  rw [terminate_out, ← hN _ (Nat.le_max_left N M) st hst, not_not]

/-- A call keeps to its contract exactly when the size is not zero or the format prints nothing. -/
theorem vsnprintf_contract_iff (args : ℕ → Word) (nullText : Word) (m : Mem) (str size fmt : Word)
    (flags : BitVec 32) (l : List Byte) (hl : CString m fmt l) (r : BitVec 32 × SnprintfArg)
    (hrun : Settles (fun n => vsnprintf args nullText n m str size fmt flags) r) :
    BufferContract args nullText m str size fmt flags r.2 ↔
      size ≠ 0 ∨ l = [] ∨ flags &&& flagAlt = 0 ∧ Silent l := by
  have hagree : ∀ size' r',
      Settles (fun n => vsnprintf args nullText n m str size' fmt flags) r' →
      (size ≤ size' → fitting size r.2.out <+: fitting size' r'.2.out) ∧
        (size' ≤ size → fitting size' r'.2.out <+: fitting size r.2.out) :=
    fun size' r' hrun' =>
      ⟨fun hle => fitting_prefix hle hrun hrun', fun hle => fitting_prefix hle hrun' hrun⟩
  have hout := vsnprintf_out_iff hl hrun
  obtain ⟨N, hN⟩ := hrun
  by_cases hsize : size = 0
  · subst hsize
    rw [or_iff_right (not_not_intro rfl), ← hout, ← vsnprintf_zero (hN N le_rfl)]
    constructor
    · intro h
      refine List.eq_nil_iff_forall_not_mem.mpr fun a ha => ?_
      exact absurd (h.inside a ha) (Nat.not_lt_zero _)
    · intro h
      refine ⟨?_, fun hne => absurd rfl hne, hagree⟩
      rw [h]
      exact fun a ha => absurd ha List.not_mem_nil
  · obtain ⟨hinside, htext⟩ := vsnprintf_filled hsize (hN N le_rfl)
    exact iff_of_true ⟨hinside, fun _ => htext, hagree⟩ (.inl hsize)

/-- `"a"` into two bytes. -/
theorem vsnprintf_contract_two : ∃ r, Settles (fun n => vsnprintf (fun _ => 0) 0 n
      (Mem.putText (fun _ => 0) 0x1000 [ch 'a']) 0x2000 2 0x1000 0) r ∧
    BufferContract (fun _ => 0) 0 (Mem.putText (fun _ => 0) 0x1000 [ch 'a']) 0x2000 2 0x1000 0 r.2 := by
  have hl : CString (Mem.putText (fun _ => 0) 0x1000 [ch 'a']) 0x1000 [ch 'a'] :=
    ⟨rfl, by decide, rfl⟩
  have hapart : ∀ i, i ≤ 1 →
      (2 : Word).toNat ≤ ((0x1000 : Word) + BitVec.ofNat 64 i - (0x2000 : Word)).toNat := by decide
  obtain ⟨r, hrun⟩ := vsnprintf_settles (fun _ => 0) 0 (by decide) 0 hl (.literal (by decide) .nil)
    hapart
  exact ⟨r, hrun, (vsnprintf_contract_iff _ _ _ _ _ _ _ _ hl _ hrun).mpr (.inl (by decide))⟩

/-- `"a"` into no bytes: the `a` is stored behind the buffer. -/
theorem vsnprintf_stores_outside : ∃ r, Settles (fun n => vsnprintf (fun _ => 0) 0 n
      (Mem.putText (fun _ => 0) 0x1000 [ch 'a']) 0x2000 0 0x1000 0) r ∧
    ¬ BufferContract (fun _ => 0) 0 (Mem.putText (fun _ => 0) 0x1000 [ch 'a']) 0x2000 0 0x1000 0
      r.2 := by
  have hrun := (LoopSettles.next (.of_forall fun _ => rfl) (.stop (.of_forall fun _ => rfl)) :
    LoopSettles (printfPass (snprintfEnv 0x2000 0) (fun _ => 0) 0)
      (printfStart ⟨Mem.putText (fun _ => 0) 0x1000 [ch 'a'], 0, [], []⟩ 0x1000 0) _).settles.map
    fun st => (st.printed, terminate 0x2000 0 st.env)
  refine ⟨_, hrun, fun h => ?_⟩
  exact absurd (h.inside 0x2000 List.mem_cons_self) (by decide)

end Rix
