import Rix.Isr
import Rix.Fuel

/-!
# `setup_idt`

The loop that stores the addresses of the stubs in the gates of the interrupt descriptor table.
Each address is scattered over three fields of its gate.
-/
namespace Rix
open Machine Fuel

def numIsr : ℕ := 256

/-- An interrupt gate, field by field. -/
structure IdtGate where
  /-- Bits 15:0 of the offset. -/
  offsetLow : BitVec 16
  selector : BitVec 16
  ist : Byte
  /-- The type and the present bit. -/
  type : Byte
  /-- Bits 31:16 of the offset. -/
  offsetMid : BitVec 16
  /-- Bits 63:32 of the offset. -/
  offsetHigh : BitVec 32
  reserved : BitVec 32
  deriving DecidableEq, Repr

def Mem.idtGate (m : Mem) (a : Word) : IdtGate where
  offsetLow := m.get16 a
  selector := m.get16 (a + 2)
  ist := m (a + 4)
  type := m (a + 5)
  offsetMid := m.get16 (a + 6)
  offsetHigh := m.get32 (a + 8)
  reserved := m.get32 (a + 12)

def IdtGate.offset (g : IdtGate) : Word := g.offsetHigh ++ g.offsetMid ++ g.offsetLow

def IdtGate.withOffset (g : IdtGate) (w : Word) : IdtGate :=
  { g with
    offsetLow := w.setWidth 16
    offsetMid := (w >>> 16).setWidth 16
    offsetHigh := (w >>> 32).setWidth 32 }

/-- What `lidt` loads. -/
structure Idtr where
  limit : BitVec 16
  base : Word
  deriving DecidableEq, Repr

/-- `movw %src, disp(%base)`. -/
def Machine.movw (c : Machine) (src base : Reg) (disp : Word) : Machine :=
  { c with mem := c.mem.set16 (c.reg base + disp) ((c.reg src).setWidth 16) }

/-- `movl %src, disp(%base)`. -/
def Machine.movl (c : Machine) (src base : Reg) (disp : Word) : Machine :=
  { c with mem := c.mem.set32 (c.reg base + disp) ((c.reg src).setWidth 32) }

def Machine.shr (c : Machine) (n : ℕ) (dst : Reg) : Machine := c.setReg dst (c.reg dst >>> n)

section

variable (isrEntryLen : Word)

/-- `.Lprepare_idt` up to its `loop`. -/
def prepareIdt (c : Machine) : Machine :=
  let c := c.exec (.mov .rsi .rbx)
  let c := c.movw .rbx .rdi 0
  let c := c.shr 16 .rbx
  let c := c.movw .rbx .rdi 6
  let c := c.shr 16 .rbx
  let c := c.movl .rbx .rdi 8
  let c := c.exec (.add 16 .rdi)
  c.exec (.add isrEntryLen .rsi)

/-- One pass: `loop` counts `rcx` down and goes back unless it is zero. -/
def prepareIdtPass (c : Machine) : Option (Flow Machine) :=
  let c := prepareIdt isrEntryLen c
  let c := c.setReg .rcx (c.reg .rcx - 1)
  if c.reg .rcx ≠ 0 then some (.next c) else some (.stop c)

/-- `setup_idt` on a kernel that is linked with `_isr`, `_idt` and `_idtr` at these addresses. -/
def setupIdt (isr idt idtr : Word) (fuel : ℕ) (c : Machine) : Option (Machine × Idtr) := do
  let c := c.setReg .rsi isr
  let c := c.setReg .rdi idt
  let c := c.setReg .rcx (BitVec.ofNat 64 numIsr)
  let c ← loop (prepareIdtPass isrEntryLen) fuel c
  pure (c.exec .ret, ⟨c.mem.get16 idtr, c.mem.get64 (idtr + 2)⟩)

end

def storeOffset (m : Mem) (a w : Word) : Mem :=
  ((m.set16 a (w.setWidth 16)).set16 (a + 6) ((w >>> 16).setWidth 16)).set32 (a + 8)
    ((w >>> 32).setWidth 32)

@[simp] theorem IdtGate.offset_withOffset (g : IdtGate) (w : Word) :
    (g.withOffset w).offset = w := by
  apply BitVec.eq_of_getLsbD_eq
  intro j hj
  show ((w >>> 32).setWidth 32 ++ (w >>> 16).setWidth 16 ++ w.setWidth 16 :
    BitVec (32 + 16 + 16)).getLsbD j = _
  simp only [BitVec.getLsbD_append, BitVec.getLsbD_setWidth, BitVec.getLsbD_ushiftRight]
  split_ifs with h1 h2
  · rw [decide_eq_true h1, Bool.true_and]
  · rw [decide_eq_true h2, Bool.true_and, Nat.add_sub_cancel' (by omega)]
  · rw [decide_eq_true (by omega), Bool.true_and, show 32 + (j - 16 - 16) = j by omega]

theorem toNat_sub_add (x a k : Word) :
    k.toNat ≤ (x - a).toNat ∧ (x - (a + k)).toNat = (x - a).toNat - k.toNat ∨
    (x - a).toNat < k.toNat ∧ (x - (a + k)).toNat = (x - a).toNat + 2 ^ 64 - k.toNat := by
  rw [BitVec.toNat_sub, BitVec.toNat_sub, BitVec.toNat_add]
  omega

theorem storeOffset_apply (m : Mem) (a w x : Word) {d : ℕ} (hd : (x - a).toNat = d) :
    storeOffset m a w x =
      if d < 2 then (w.setWidth 16).extractLsb' (8 * d) 8
      else if 6 ≤ d ∧ d < 8 then ((w >>> 16).setWidth 16).extractLsb' (8 * (d - 6)) 8
      else if 8 ≤ d ∧ d < 12 then ((w >>> 32).setWidth 32).extractLsb' (8 * (d - 8)) 8
      else m x := by
  have h6 := toNat_sub_add x a 6
  have h8 := toNat_sub_add x a 8
  simp only [hd, show (6 : Word).toNat = 6 from rfl, show (8 : Word).toNat = 8 from rfl] at h6 h8
  simp only [storeOffset, Mem.set16, Mem.set32, hd]
  rcases h6 with ⟨h6, ht6⟩ | ⟨h6, ht6⟩ <;> rcases h8 with ⟨h8, ht8⟩ | ⟨h8, ht8⟩ <;>
    rw [ht6, ht8] <;> split_ifs <;> first | rfl | omega

/-- The stores replace the offset of the gate and nothing else of it. -/
theorem idtGate_storeOffset (m : Mem) (a w : Word) :
    (storeOffset m a w).idtGate a = (m.idtGate a).withOffset w := by
  have hat : ∀ i : ℕ, i < 16 → _ := fun i hi =>
    storeOffset_apply m a w (a + BitVec.ofNat 64 i) (toNat_add_ofNat_sub a (by omega))
  have h0 := storeOffset_apply m a w a (d := 0) (by rw [BitVec.sub_self]; rfl)
  simp only [Mem.idtGate, IdtGate.withOffset, Mem.get16, Mem.get32, BitVec.add_assoc,
    BitVec.ofNat_eq_ofNat, BitVec.reduceAdd, h0, hat, Nat.reduceLT, Nat.reduceLeDiff, Nat.reduceMul,
    Nat.reduceSub, and_true, and_false, and_self, if_true, if_false, append_two_bytes, append_bytes]

theorem storeOffset_of_not_inBytes (m : Mem) {a x : Word} (w : Word) (h : ¬ InBytes a 16 x) :
    storeOffset m a w x = m x := by
  have hd : 16 ≤ (x - a).toNat := Nat.le_of_not_lt h
  rw [storeOffset_apply m a w x rfl, if_neg (by omega), if_neg (by omega), if_neg (by omega)]

theorem Mem.idtGate_congr {m m' : Mem} {a : Word}
    (h : ∀ i : ℕ, i < 16 → m' (a + BitVec.ofNat 64 i) = m (a + BitVec.ofNat 64 i)) :
    m'.idtGate a = m.idtGate a := by
  have h0 : m' a = m a := BitVec.add_zero a ▸ h 0 (by decide)
  simp only [Mem.idtGate, Mem.get16, Mem.get32, BitVec.add_assoc, BitVec.ofNat_eq_ofNat,
    BitVec.reduceAdd, h0, h, Nat.reduceLT]

theorem not_inBytes_gate (idt : Word) {v k i : ℕ} (hv : v < numIsr) (hk : k < numIsr) (hvk : v ≠ k)
    (hi : i < 16) : ¬ InBytes (idt + BitVec.ofNat 64 (16 * k)) 16
      (idt + BitVec.ofNat 64 (16 * v) + BitVec.ofNat 64 i) := by
  unfold numIsr at hv hk
  rw [InBytes, BitVec.toNat_sub, BitVec.toNat_add, BitVec.toNat_add, BitVec.toNat_add,
    BitVec.toNat_ofNat, BitVec.toNat_ofNat, BitVec.toNat_ofNat]
  omega

section

variable {isr idt isrEntryLen : Word} {m : Mem} {k : ℕ} {c : Machine}

theorem prepareIdt_mem (isrEntryLen : Word) (c : Machine) :
    (prepareIdt isrEntryLen c).mem = storeOffset c.mem (c.reg .rdi) (c.reg .rsi) := by
  have h : (prepareIdt isrEntryLen c).mem = ((c.mem.set16 (c.reg .rdi + 0) ((c.reg .rsi).setWidth 16)).set16
      (c.reg .rdi + 6) ((c.reg .rsi >>> 16).setWidth 16)).set32 (c.reg .rdi + 8)
        ((c.reg .rsi >>> 16 >>> 16).setWidth 32) := rfl
  rw [h, storeOffset, ← BitVec.shiftRight_add]
  congr 3
  exact BitVec.add_zero _

theorem prepareIdt_rsi (isrEntryLen : Word) (c : Machine) :
    (prepareIdt isrEntryLen c).reg .rsi = c.reg .rsi + isrEntryLen := rfl

theorem prepareIdt_rdi (isrEntryLen : Word) (c : Machine) :
    (prepareIdt isrEntryLen c).reg .rdi = c.reg .rdi + 16 := rfl

theorem prepareIdt_rcx (isrEntryLen : Word) (c : Machine) :
    (prepareIdt isrEntryLen c).reg .rcx = c.reg .rcx := rfl

/-- The state in front of pass `k`: the gates below `k` are prepared and nothing else has been
written. -/
structure IdtPrepared (isr idt isrEntryLen : Word) (m : Mem) (k : ℕ) (c : Machine) : Prop where
  rsi : c.reg .rsi = isr + BitVec.ofNat 64 k * isrEntryLen
  rdi : c.reg .rdi = idt + BitVec.ofNat 64 (16 * k)
  rcx : c.reg .rcx = BitVec.ofNat 64 (numIsr - k)
  gates : ∀ v < k, c.mem.idtGate (idt + BitVec.ofNat 64 (16 * v)) =
    (m.idtGate (idt + BitVec.ofNat 64 (16 * v))).withOffset (isr + BitVec.ofNat 64 v * isrEntryLen)
  frame : ∀ x, ¬ InBytes idt (16 * k) x → c.mem x = m x

theorem IdtPrepared.next (h : IdtPrepared isr idt isrEntryLen m k c) (hk : k < numIsr) :
    IdtPrepared isr idt isrEntryLen m (k + 1) ((prepareIdt isrEntryLen c).setReg .rcx
      ((prepareIdt isrEntryLen c).reg .rcx - 1)) where
  rsi := by
    rw [setReg_of_ne _ (by decide), prepareIdt_rsi, h.rsi, BitVec.ofNat_add, BitVec.add_mul,
      BitVec.one_mul, BitVec.add_assoc]
  rdi := by
    rw [setReg_of_ne _ (by decide), prepareIdt_rdi, h.rdi, Nat.mul_add, BitVec.ofNat_add,
      BitVec.add_assoc]
    rfl
  rcx := by
    rw [setReg_self, prepareIdt_rcx, h.rcx, show numIsr - k = numIsr - (k + 1) + 1 by omega,
      BitVec.ofNat_add]
    exact BitVec.add_sub_cancel _ _
  gates v hv := by
    rw [setReg_mem, prepareIdt_mem, h.rdi, h.rsi]
    by_cases hvk : v = k
    · rw [hvk, idtGate_storeOffset]
      congr 1
      refine Mem.idtGate_congr fun i hi => h.frame _ ?_
      unfold numIsr at hk
      rw [InBytes, BitVec.add_assoc, ← BitVec.ofNat_add, toNat_add_ofNat_sub _ (by omega)]
      omega
    · rw [← h.gates v (by omega)]
      exact Mem.idtGate_congr fun i hi =>
        storeOffset_of_not_inBytes _ _ (not_inBytes_gate idt (by omega) hk hvk hi)
  frame x hx := by
    unfold InBytes numIsr at *
    rw [setReg_mem, prepareIdt_mem, h.rdi, storeOffset_of_not_inBytes, h.frame x]
    · unfold InBytes
      omega
    · unfold InBytes
      have := toNat_sub_add x idt (BitVec.ofNat 64 (16 * k))
      rw [BitVec.toNat_ofNat] at this
      omega

theorem IdtPrepared.exists_loop (h : IdtPrepared isr idt isrEntryLen m k c) (hk : k < numIsr) :
    ∃ c', LoopSettles (fun _ => prepareIdtPass isrEntryLen) c c' ∧
      IdtPrepared isr idt isrEntryLen m numIsr c' := by
  induction hd : numIsr - k generalizing k c with
  | zero => omega
  | succ d ih =>
      have hnext := h.next hk
      by_cases hlast : k + 1 = numIsr
      · rw [hlast] at hnext
        refine ⟨_, .stop (.of_forall fun _ => if_neg ?_), hnext⟩
        rw [hnext.rcx, Nat.sub_self]
        exact fun hne => hne rfl
      · obtain ⟨c', hloop, hc'⟩ := ih hnext (by omega) (by omega)
        refine ⟨c', .next (.of_forall fun _ => if_pos ?_) hloop, hc'⟩
        rw [hnext.rcx]
        intro hzero
        have htoNat : (BitVec.ofNat 64 (numIsr - (k + 1))).toNat = 0 := hzero ▸ rfl
        rw [BitVec.toNat_ofNat] at htoNat
        unfold numIsr at *
        omega

end

/-- `setup_idt` returns, with every gate prepared. -/
theorem exists_setupIdt (isr idt idtr isrEntryLen : Word) (c : Machine) : ∃ c',
    Settles (fun fuel => setupIdt isrEntryLen isr idt idtr fuel c)
      (c'.exec .ret, ⟨c'.mem.get16 idtr, c'.mem.get64 (idtr + 2)⟩) ∧
    IdtPrepared isr idt isrEntryLen c.mem numIsr c' := by
  have hstart : IdtPrepared isr idt isrEntryLen c.mem 0 (((c.setReg .rsi isr).setReg .rdi idt).setReg
      .rcx (BitVec.ofNat 64 numIsr)) := {
    rsi := by
      rw [setReg_of_ne _ (by decide), setReg_of_ne _ (by decide), setReg_self]
      exact (BitVec.zero_mul ▸ BitVec.add_zero isr).symm
    rdi := by
      rw [setReg_of_ne _ (by decide), setReg_self]
      exact (BitVec.add_zero idt).symm
    rcx := setReg_self _ _ _
    gates := fun v hv => absurd hv (Nat.not_lt_zero v)
    frame := fun _ _ => rfl }
  obtain ⟨c', hloop, hc'⟩ := hstart.exists_loop (by decide)
  refine ⟨c', (hloop.settles.map fun c' => (c'.exec .ret,
    (⟨c'.mem.get16 idtr, c'.mem.get64 (idtr + 2)⟩ : Idtr))).congr fun fuel => ?_, hc'⟩
  rw [setupIdt, Option.map_eq_bind]
  rfl

theorem setupIdt_idtr {isr idt idtr isrEntryLen : Word} {c : Machine} {r : Machine × Idtr}
    (hrun : Settles (fun fuel => setupIdt isrEntryLen isr idt idtr fuel c) r)
    (hidtr : ∀ i < 10, ¬ InBytes idt (16 * numIsr) (idtr + BitVec.ofNat 64 i)) :
    r.2 = ⟨c.mem.get16 idtr, c.mem.get64 (idtr + 2)⟩ := by
  obtain ⟨c', hrun', hc'⟩ := exists_setupIdt isr idt idtr isrEntryLen c
  rw [hrun.unique hrun']
  have h0 : c'.mem idtr = c.mem idtr := hc'.frame _ (BitVec.add_zero idtr ▸ hidtr 0 (by decide))
  have h1 : c'.mem (idtr + 1) = c.mem (idtr + 1) := hc'.frame _ (hidtr 1 (by decide))
  have hbase : c'.mem.get64 (idtr + 2) = c.mem.get64 (idtr + 2) := by
    refine Mem.get64_congr fun i hi => hc'.frame _ ?_
    have h := hidtr (2 + i) (by omega)
    rwa [BitVec.ofNat_add, ← BitVec.add_assoc] at h
  show (⟨c'.mem.get16 idtr, c'.mem.get64 (idtr + 2)⟩ : Idtr) = _
  rw [hbase, Mem.get16, Mem.get16, h0, h1]

/-- Where the stub of a vector starts, when the stubs lie one behind the other from `_isr` on. -/
def stubEntry (isr : Word) (stubLen : ℕ → ℕ) (vector : BitVec 8) : Word :=
  isr + BitVec.ofNat 64 (∑ v ∈ Finset.range vector.toNat, stubLen v)

/-- The word that the stub of a vector leaves on the stack is the vector. -/
theorem isrStub_pushes (vector : BitVec 8) (c : Machine) :
    (c.run (isrStub vector)).mem.get64 ((c.run (isrStub vector)).reg .rsp) = vector.setWidth 64 := by
  unfold isrStub
  split_ifs
  · show ((c.pushWord (vector.setWidth 64)).mem.get64 _) = _
    exact Mem.get64_set64_self _ _ _
  · show (((c.pushWord 0).pushWord (vector.setWidth 64)).mem.get64 _) = _
    exact Mem.get64_set64_self _ _ _

def gateOf (idt : Word) (vector : BitVec 8) : Word := idt + BitVec.ofNat 64 (16 * vector.toNat)

/-- `setup_idt` returns for any place of the stubs and any registers; every gate then decodes to
its stub and keeps its other fields, and only the table has been written. With stubs of 16 bytes
the gate of a vector decodes to the stub that pushes the vector. -/
theorem setupIdt_gates (isr idt idtr isrEntryLen : Word) (c : Machine) : ∃ c' r,
    Settles (fun fuel => setupIdt isrEntryLen isr idt idtr fuel c) (c', r) ∧
    (∀ v : BitVec 8,
      (c'.mem.idtGate (gateOf idt v)).offset = isr + v.setWidth 64 * isrEntryLen ∧
      (c'.mem.idtGate (gateOf idt v)).selector = (c.mem.idtGate (gateOf idt v)).selector ∧
      (c'.mem.idtGate (gateOf idt v)).ist = (c.mem.idtGate (gateOf idt v)).ist ∧
      (c'.mem.idtGate (gateOf idt v)).type = (c.mem.idtGate (gateOf idt v)).type ∧
      (c'.mem.idtGate (gateOf idt v)).reserved = (c.mem.idtGate (gateOf idt v)).reserved) ∧
    (∀ x, ¬ InBytes idt (16 * numIsr) x → c'.mem x = c.mem x) ∧
    ∀ stubLen : ℕ → ℕ, (∀ v < numIsr, stubLen v = 16) → isrEntryLen = BitVec.ofNat 64 (stubLen 255) →
      ∀ v : BitVec 8, (c'.mem.idtGate (gateOf idt v)).offset = stubEntry isr stubLen v ∧
        ∀ d : Machine, (d.run (isrStub v)).mem.get64 ((d.run (isrStub v)).reg .rsp) = v.setWidth 64 := by
  obtain ⟨c', hrun, hc'⟩ := exists_setupIdt isr idt idtr isrEntryLen c
  have hoffset : ∀ v : BitVec 8,
      (c'.mem.idtGate (gateOf idt v)).offset = isr + v.setWidth 64 * isrEntryLen := by
    intro v
    rw [gateOf, hc'.gates v.toNat v.isLt, IdtGate.offset_withOffset, BitVec.ofNat_toNat]
  refine ⟨c'.exec .ret, _, hrun, ?_, hc'.frame, ?_⟩
  · intro v
    refine ⟨hoffset v, ?_⟩
    show (c'.mem.idtGate _).selector = _ ∧ (c'.mem.idtGate _).ist = _ ∧ (c'.mem.idtGate _).type = _ ∧
      (c'.mem.idtGate _).reserved = _
    rw [gateOf, hc'.gates v.toNat v.isLt]
    exact ⟨rfl, rfl, rfl, rfl⟩
  · intro stubLen hlen hentry v
    refine ⟨(hoffset v).trans ?_, isrStub_pushes v⟩
    have hsum : ∑ w ∈ Finset.range v.toNat, stubLen w = v.toNat * 16 := by
      rw [Finset.sum_congr rfl fun w hw => hlen w (lt_trans (Finset.mem_range.mp hw) v.isLt),
        Finset.sum_const, Finset.card_range, smul_eq_mul]
    rw [stubEntry, hsum, hentry, hlen 255 (by decide), BitVec.ofNat_mul, BitVec.ofNat_toNat]

end Rix
