import Rix.Isr

/-!
# The interrupt handler table of `interrupt.c`

`register_isr` stores a routine in the entry of its vector, and `x86_int_handler` of `irq.c` sends
the vectors from 0x20 to 0xff to `platform_int_handler`, which calls it. Nothing stores the
argument of a routine.
-/
namespace Rix
open Machine

def sizeofIntTableEntry : Word := 24

def intTableEntry (intTable : Word) (vector : BitVec 32) : Word :=
  intTable + vector.setWidth 64 * sizeofIntTableEntry

def registerIsr (intTable : Word) (m : Mem) (vector : BitVec 32) (callback : Word) (edge : Bool) :
    Mem :=
  let e := intTableEntry intTable vector
  let m := m.set64 e callback
  -- the bits `allocated` and `edge`
  let m := m.set32 (e + 16) (m.get32 (e + 16) ||| 1)
  m.set32 (e + 16) (if edge then m.get32 (e + 16) ||| 2 else m.get32 (e + 16) &&& ~~~2)

structure IsrCall where
  vector : BitVec 32
  callback : Word
  arg : Word
  deriving DecidableEq, Repr

/-- What a routine and the rest of the kernel do to memory. -/
inductive KernelAct where
  | registerIsr (vector : BitVec 32) (callback : Word) (edge : Bool)
  | store (a : Word) (b : Byte)

def KernelAct.exec (intTable : Word) (m : Mem) : KernelAct → Mem
  | .registerIsr vector callback edge => Rix.registerIsr intTable m vector callback edge
  | .store a b => Function.update m a b

def Mem.frameVector (m : Mem) (frame : Word) : BitVec 32 := (m.get64 (frame + 120)).setWidth 32

/-- `body` is what the routine does when it is called; the result holds the call. -/
def platformIntHandler (intTable : Word) (m : Mem) (frame : Word) (body : List KernelAct) :
    Option IsrCall × Mem :=
  let vector := m.frameVector frame
  let handler := intTableEntry intTable vector
  -- invoke the registered callback
  if m.get64 handler ≠ NULL then
    (some ⟨vector, m.get64 handler, m.get64 (handler + 8)⟩, body.foldl (KernelAct.exec intTable) m)
  else (none, m)

/-- The handlers of the two exceptions do nothing. -/
def x86IntHandler (intTable : Word) (m : Mem) (frame : Word) (body : List KernelAct) :
    Option IsrCall × Mem :=
  let vector := m.frameVector frame
  if vector = 0x0 then (none, m)
  else if vector = 0xE then (none, m)
  else if 0x20 ≤ vector ∧ vector ≤ 0xff then platformIntHandler intTable m frame body
  else (none, m)

section Fields

variable {m m' : Mem} {a e : Word}

theorem Mem.set32_of_not_inBytes (m : Mem) {x : Word} (v : BitVec 32) (h : ¬ InBytes a 4 x) :
    m.set32 a v x = m x := if_neg h

theorem separate_offsets (a : Word) {i j k l : ℕ} (h : i + k ≤ j ∨ j + l ≤ i) (hi : i + k < 2 ^ 63)
    (hj : j + l < 2 ^ 63) (hk : 0 < k) (hl : 0 < l) :
    Separate (a + BitVec.ofNat 64 i) k (a + BitVec.ofNat 64 j) l := by
  unfold Separate
  rw [BitVec.toNat_sub, BitVec.toNat_sub, BitVec.toNat_add, BitVec.toNat_add, BitVec.toNat_ofNat,
    BitVec.toNat_ofNat]
  omega

theorem Mem.get64_of_unchanged {b : Word} {k : ℕ} (h : ∀ x, ¬ InBytes b k x → m' x = m x)
    (hs : Separate a 8 b k) : m'.get64 a = m.get64 a :=
  Mem.get64_congr fun _ hi => h _ (Nat.not_lt.mpr (hs.byte hi))

theorem Mem.get64_set32_of_separate {b : Word} (v : BitVec 32) (h : Separate b 8 a 4) :
    (m.set32 a v).get64 b = m.get64 b :=
  Mem.get64_of_unchanged (fun _ hx => if_neg hx) h

theorem not_inBytes_field {x : Word} {k : ℕ} (i : ℕ) {j : ℕ} (hij : i + j ≤ k)
    (h : ¬ InBytes e k x) : ¬ InBytes (e + BitVec.ofNat 64 i) j x := by
  unfold InBytes at *
  rw [BitVec.toNat_sub] at *
  rw [BitVec.toNat_add, BitVec.toNat_ofNat]
  have := x.isLt
  omega

theorem registerIsr_of_not_inBytes (intTable : Word) (m : Mem) (vector : BitVec 32) (callback : Word)
    (edge : Bool) {x : Word} (hx : ¬ InBytes (intTableEntry intTable vector) 24 x) :
    registerIsr intTable m vector callback edge x = m x := by
  have h0 := not_inBytes_field 0 (j := 8) (by decide) hx
  have h16 : ¬ InBytes (intTableEntry intTable vector + 16) 4 x :=
    not_inBytes_field 16 (by decide) hx
  rw [BitVec.add_zero] at h0
  simp only [registerIsr]
  exact (Mem.set32_of_not_inBytes _ _ h16).trans
    ((Mem.set32_of_not_inBytes _ _ h16).trans (Mem.set64_of_not_inBytes _ _ h0))

theorem registerIsr_callback (intTable : Word) (m : Mem) (vector : BitVec 32) (callback : Word)
    (edge : Bool) : (registerIsr intTable m vector callback edge).get64
      (intTableEntry intTable vector) = callback := by
  have hs := separate_offsets (intTableEntry intTable vector) (i := 0) (j := 16) (k := 8) (l := 4)
    (by decide) (by decide) (by decide) (by decide) (by decide)
  rw [BitVec.add_zero] at hs
  simp only [registerIsr]
  exact (Mem.get64_set32_of_separate _ hs).trans
    ((Mem.get64_set32_of_separate _ hs).trans (Mem.get64_set64_self _ _ _))

theorem registerIsr_arg (intTable : Word) (m : Mem) (vector : BitVec 32) (callback : Word)
    (edge : Bool) : (registerIsr intTable m vector callback edge).get64
      (intTableEntry intTable vector + 8) = m.get64 (intTableEntry intTable vector + 8) := by
  have hs := separate_offsets (intTableEntry intTable vector) (i := 8) (j := 16) (k := 8) (l := 4)
    (by decide) (by decide) (by decide) (by decide) (by decide)
  have hs' := separate_offsets (intTableEntry intTable vector) (i := 8) (j := 0) (k := 8) (l := 8)
    (by decide) (by decide) (by decide) (by decide) (by decide)
  rw [BitVec.add_zero] at hs'
  simp only [registerIsr]
  exact (Mem.get64_set32_of_separate _ hs).trans
    ((Mem.get64_set32_of_separate _ hs).trans (Mem.get64_set64_of_separate _ hs'))

theorem intTableEntry_eq (intTable : Word) (vector : BitVec 32) :
    intTableEntry intTable vector = intTable + BitVec.ofNat 64 (24 * vector.toNat) := by
  have := vector.isLt
  rw [intTableEntry]
  congr 1
  apply BitVec.eq_of_toNat_eq
  rw [BitVec.toNat_mul, BitVec.toNat_setWidth, BitVec.toNat_ofNat,
    show sizeofIntTableEntry.toNat = 24 from rfl]
  omega

end Fields

/-- The routine of every vector, NULL where there is none. -/
abbrev Handlers := BitVec 8 → Word

/-- The table holds the routines, and NULL for each of their arguments. -/
structure TableHolds (intTable : Word) (m : Mem) (h : Handlers) : Prop where
  callback : ∀ v : BitVec 8, m.get64 (intTableEntry intTable (v.setWidth 32)) = h v
  arg : ∀ v : BitVec 8, m.get64 (intTableEntry intTable (v.setWidth 32) + 8) = NULL

def InTable (intTable x : Word) : Prop := InBytes intTable (24 * 256) x

namespace KernelAct

/-- Registrations for the vectors of the table, and stores elsewhere. -/
def Admissible (intTable : Word) : KernelAct → Prop
  | .registerIsr vector _ _ => vector.toNat < 256
  | .store a _ => ¬ InTable intTable a

/-- The last registration for a vector counts. -/
def handlers (h : Handlers) : KernelAct → Handlers
  | .registerIsr vector callback _ => Function.update h (vector.setWidth 8) callback
  | .store _ _ => h

end KernelAct

section Table

variable {intTable : Word} {m m' : Mem} {h : Handlers}

theorem TableHolds.congr (ht : TableHolds intTable m h)
    (hm : ∀ x, InTable intTable x → m' x = m x) : TableHolds intTable m' h := by
  have hfield : ∀ (v : BitVec 8) (i : ℕ), i + 8 ≤ 24 →
      m'.get64 (intTableEntry intTable (v.setWidth 32) + BitVec.ofNat 64 i) =
        m.get64 (intTableEntry intTable (v.setWidth 32) + BitVec.ofNat 64 i) := by
    intro v i hi
    have hv := v.isLt
    refine Mem.get64_congr fun j hj => hm _ ?_
    rw [intTableEntry_eq, BitVec.add_assoc, BitVec.add_assoc, ← BitVec.ofNat_add, ← BitVec.ofNat_add,
      BitVec.toNat_setWidth, InTable]
    exact inBytes_add (by omega) (by decide)
  constructor
  · intro v
    have h0 := hfield v 0 (by decide)
    rw [BitVec.add_zero] at h0
    rw [h0, ht.callback]
  · intro v
    exact (hfield v 8 (by decide)).trans (ht.arg v)

theorem get64_zero (a : Word) : Mem.get64 (fun _ => 0) a = 0 := by
  unfold Mem.get64 Mem.get32
  beta_reduce
  decide

/-- A table of zeros, as it lies in `.bss`, holds no routine. -/
theorem tableHolds_zero (hm : ∀ x, InTable intTable x → m x = 0) :
    TableHolds intTable m fun _ => NULL := by
  have hzero : TableHolds intTable (fun _ => 0) fun _ => NULL :=
    ⟨fun _ => get64_zero _, fun _ => get64_zero _⟩
  exact hzero.congr hm

theorem separate_entry {v : BitVec 8} {vector : BitVec 32} (hvector : vector.toNat < 256)
    (hne : v ≠ vector.setWidth 8) {i : ℕ} (hi : i + 8 ≤ 24) :
    Separate (intTableEntry intTable (v.setWidth 32) + BitVec.ofNat 64 i) 8
      (intTableEntry intTable vector) 24 := by
  have hv := v.isLt
  have hne' : v.toNat ≠ vector.toNat := fun heq => hne (BitVec.eq_of_toNat_eq (by
    rw [BitVec.toNat_setWidth]
    omega))
  rw [intTableEntry_eq, intTableEntry_eq, BitVec.add_assoc, ← BitVec.ofNat_add, BitVec.toNat_setWidth]
  exact separate_offsets intTable (by omega) (by omega) (by omega) (by decide) (by decide)

theorem TableHolds.registerIsr (ht : TableHolds intTable m h) {vector : BitVec 32}
    (hvector : vector.toNat < 256) (callback : Word) (edge : Bool) :
    TableHolds intTable (registerIsr intTable m vector callback edge)
      (Function.update h (vector.setWidth 8) callback) := by
  have hself : (vector.setWidth 8).setWidth 32 = vector := by
    apply BitVec.eq_of_toNat_eq
    rw [BitVec.toNat_setWidth, BitVec.toNat_setWidth]
    omega
  have hother : ∀ v : BitVec 8, v ≠ vector.setWidth 8 → ∀ i : ℕ, i + 8 ≤ 24 →
      (Rix.registerIsr intTable m vector callback edge).get64
        (intTableEntry intTable (v.setWidth 32) + BitVec.ofNat 64 i) =
      m.get64 (intTableEntry intTable (v.setWidth 32) + BitVec.ofNat 64 i) := fun v hv i hi =>
    Mem.get64_of_unchanged (fun _ hx => registerIsr_of_not_inBytes intTable m vector callback edge hx)
      (separate_entry hvector hv hi)
  constructor
  · intro v
    by_cases hv : v = vector.setWidth 8
    · rw [hv, hself, Function.update_self, registerIsr_callback]
    · have h0 := hother v hv 0 (by decide)
      rw [BitVec.add_zero] at h0
      rw [h0, ht.callback, Function.update_of_ne hv]
  · intro v
    by_cases hv : v = vector.setWidth 8
    · rw [hv, hself, registerIsr_arg, ← hself, ht.arg]
    · exact (hother v hv 8 (by decide)).trans (ht.arg v)

theorem TableHolds.exec (ht : TableHolds intTable m h) {act : KernelAct}
    (ha : act.Admissible intTable) :
    TableHolds intTable (act.exec intTable m) (act.handlers h) := by
  cases act with
  | registerIsr vector callback edge => exact ht.registerIsr ha callback edge
  | store a b =>
      refine ht.congr fun x hx => Function.update_of_ne ?_ _ _
      rintro rfl
      exact ha hx

theorem TableHolds.foldl (ht : TableHolds intTable m h) {acts : List KernelAct}
    (ha : ∀ act ∈ acts, act.Admissible intTable) :
    TableHolds intTable (acts.foldl (KernelAct.exec intTable) m)
      (acts.foldl KernelAct.handlers h) := by
  induction acts generalizing m h with
  | nil => exact ht
  | cons act acts ih =>
      exact ih (ht.exec (ha act List.mem_cons_self)) fun a h => ha a (List.mem_cons_of_mem act h)

/-- A vector from 0x20 on with a routine. -/
def Handlers.Handles (h : Handlers) (v : BitVec 8) : Prop := 0x20 ≤ v ∧ h v ≠ NULL

instance (h : Handlers) (v : BitVec 8) : Decidable (h.Handles v) :=
  inferInstanceAs (Decidable (_ ∧ _))

/-- The handler calls the routine that the table holds for the vector of the frame. -/
theorem x86IntHandler_eq (ht : TableHolds intTable m h) {frame : Word} {v : BitVec 8}
    (hframe : m.get64 (frame + 120) = v.setWidth 64) (body : List KernelAct) :
    x86IntHandler intTable m frame body =
      if h.Handles v then
        (some ⟨v.setWidth 32, h v, NULL⟩, body.foldl (KernelAct.exec intTable) m)
      else (none, m) := by
  have hvector : m.frameVector frame = v.setWidth 32 := by
    rw [Mem.frameVector, hframe, BitVec.setWidth_setWidth_of_le _ (by decide)]
  have hrange : (0x20 : BitVec 32) ≤ v.setWidth 32 ∧ (v.setWidth 32 : BitVec 32) ≤ 0xff ↔ 0x20 ≤ v := by
    bv_omega
  have hplatform : platformIntHandler intTable m frame body = if h v ≠ NULL then
      (some ⟨v.setWidth 32, h v, NULL⟩, body.foldl (KernelAct.exec intTable) m) else (none, m) := by
    simp only [platformIntHandler, hvector, ht.callback, ht.arg]
  simp only [x86IntHandler, hvector, hrange, hplatform]
  -- the two vectors with a handler of their own are below 0x20
  have hlow : ∀ {n : BitVec 8}, n < 0x20 → (v.setWidth 32 : BitVec 32) = n.setWidth 32 →
      ¬ 0x20 ≤ v := by
    intro n hn heq hle
    have hnat := congrArg BitVec.toNat heq
    rw [BitVec.toNat_setWidth, BitVec.toNat_setWidth] at hnat
    rw [BitVec.lt_def] at hn
    rw [BitVec.le_def] at hle
    have := v.isLt
    have := n.isLt
    omega
  by_cases h0 : (v.setWidth 32 : BitVec 32) = 0x0
  · rw [if_pos h0, if_neg fun hc : h.Handles v => hlow (n := 0) (by decide) h0 hc.1]
  · rw [if_neg h0]
    by_cases he : (v.setWidth 32 : BitVec 32) = 0xE
    · rw [if_pos he, if_neg fun hc : h.Handles v => hlow (n := 0xE) (by decide) he hc.1]
    · rw [if_neg he]
      by_cases hle : 0x20 ≤ v
      · rw [if_pos hle]
        exact if_congr (and_iff_right hle).symm rfl rfl
      · rw [if_neg hle, if_neg fun hc : h.Handles v => hle hc.1]

end Table

theorem registerIsr_of_not_inTable {intTable : Word} {vector : BitVec 32} (hlt : vector.toNat < 256)
    (m : Mem) (callback : Word) (edge : Bool) {x : Word} (hx : ¬ InTable intTable x) :
    registerIsr intTable m vector callback edge x = m x := by
  refine registerIsr_of_not_inBytes intTable m vector callback edge fun hin => ?_
  rw [InTable, InBytes, not_lt] at hx
  have hlt' := (x - intTable).isLt
  rw [InBytes, intTableEntry_eq, ← BitVec.sub_sub, BitVec.toNat_sub, BitVec.toNat_ofNat,
    Nat.mod_eq_of_lt (by omega : 24 * vector.toNat < 2 ^ 64),
    show 2 ^ 64 - 24 * vector.toNat + (x - intTable).toNat =
      (x - intTable).toNat - 24 * vector.toNat + 2 ^ 64 by omega, Nat.add_mod_right,
    Nat.mod_eq_of_lt (by omega)] at hin
  omega

/-- A registration keeps to the table exactly when its vector is one of the 256, which
`register_isr` does not check. -/
theorem registerIsr_inside_iff (intTable : Word) (vector : BitVec 32) :
    (∀ (m : Mem) (callback : Word) (edge : Bool) (x : Word), ¬ InTable intTable x →
      registerIsr intTable m vector callback edge x = m x) ↔ vector.toNat < 256 := by
  have hvector := vector.isLt
  constructor
  · intro h
    by_contra hge
    -- the first byte of the callback
    have hout : ¬ InTable intTable (intTableEntry intTable vector) := by
      rw [InTable, InBytes, intTableEntry_eq, toNat_add_ofNat_sub intTable (by omega)]
      omega
    have hsame := registerIsr_callback intTable (fun _ => 0) vector 1 false
    rw [@Mem.get64_congr (fun _ => 0) (registerIsr intTable (fun _ => 0) vector 1 false) _
      (fun i hi => h _ 1 false _ fun hin => ?_)] at hsame
    · exact absurd ((get64_zero _).symm.trans hsame) (by decide)
    · rw [InTable, InBytes, intTableEntry_eq, BitVec.add_assoc, ← BitVec.ofNat_add,
        toNat_add_ofNat_sub intTable (by omega)] at hin
      omega
  · exact fun hlt m callback edge x hx => registerIsr_of_not_inTable hlt m callback edge hx

end Rix
