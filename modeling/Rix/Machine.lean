import Rix.Memory

/-!
# The instructions of the assembly sources

General registers, memory and the few instructions that the entry code uses. The instruction
pointer is kept only by the instructions that load it.
-/
namespace Rix

inductive Reg where
  | rax | rcx | rdx | rbx | rsp | rbp | rsi | rdi
  | r8 | r9 | r10 | r11 | r12 | r13 | r14 | r15
  deriving DecidableEq, Repr

structure Machine where
  reg : Reg → Word
  rip : Word
  /-- The direction flag. -/
  df : Bool
  mem : Mem

/-- Operands are in the order of the sources: the source before the destination. -/
inductive Insn where
  | nop
  | cld
  | push (r : Reg)
  | pushImm (v : Word)
  | pop (r : Reg)
  | mov (src dst : Reg)
  /-- `movq src, (base)`. -/
  | store (src base : Reg)
  /-- `movq (base), dst`. -/
  | load (base dst : Reg)
  | add (v : Word) (dst : Reg)
  | leave
  | ret
  deriving DecidableEq, Repr

namespace Machine

def setReg (c : Machine) (r : Reg) (v : Word) : Machine := { c with reg := Function.update c.reg r v }

/-- The word is stored below the stack pointer, which then points to it. -/
def pushWord (c : Machine) (v : Word) : Machine :=
  { c with
    reg := Function.update c.reg .rsp (c.reg .rsp - 8)
    mem := c.mem.set64 (c.reg .rsp - 8) v }

@[simp] theorem setReg_self (c : Machine) (r : Reg) (v : Word) : (c.setReg r v).reg r = v := by
  simp [setReg]

theorem setReg_of_ne (c : Machine) {r r' : Reg} (h : r' ≠ r) (v : Word) :
    (c.setReg r v).reg r' = c.reg r' := by
  simp [setReg, h]

@[simp] theorem setReg_mem (c : Machine) (r : Reg) (v : Word) : (c.setReg r v).mem = c.mem := rfl

@[simp] theorem pushWord_rsp (c : Machine) (v : Word) : (c.pushWord v).reg .rsp = c.reg .rsp - 8 := by
  simp [pushWord]

theorem pushWord_of_ne (c : Machine) {r : Reg} (h : r ≠ .rsp) (v : Word) :
    (c.pushWord v).reg r = c.reg r := by
  simp [pushWord, h]

@[simp] theorem pushWord_mem (c : Machine) (v : Word) :
    (c.pushWord v).mem = c.mem.set64 (c.reg .rsp - 8) v := rfl

def exec (c : Machine) : Insn → Machine
  | .nop => c
  | .cld => { c with df := false }
  | .push r => c.pushWord (c.reg r)
  | .pushImm v => c.pushWord v
  | .pop r => (c.setReg .rsp (c.reg .rsp + 8)).setReg r (c.mem.get64 (c.reg .rsp))
  | .mov src dst => c.setReg dst (c.reg src)
  | .store src base => { c with mem := c.mem.set64 (c.reg base) (c.reg src) }
  | .load base dst => c.setReg dst (c.mem.get64 (c.reg base))
  | .add v dst => c.setReg dst (c.reg dst + v)
  | .leave => (c.setReg .rsp (c.reg .rbp + 8)).setReg .rbp (c.mem.get64 (c.reg .rbp))
  | .ret => { c.setReg .rsp (c.reg .rsp + 8) with rip := c.mem.get64 (c.reg .rsp) }

@[simp] theorem exec_store_reg (c : Machine) (src base : Reg) : (c.exec (.store src base)).reg = c.reg :=
  rfl

@[simp] theorem exec_store_mem (c : Machine) (src base : Reg) :
    (c.exec (.store src base)).mem = c.mem.set64 (c.reg base) (c.reg src) := rfl

def run (is : List Insn) (c : Machine) : Machine := is.foldl exec c

theorem run_append (is is' : List Insn) (c : Machine) : c.run (is ++ is') = (c.run is).run is' :=
  List.foldl_append

theorem run_cons (i : Insn) (is : List Insn) (c : Machine) : c.run (i :: is) = (c.exec i).run is := rfl

end Machine

/-- `x` is one of the `k` bytes from `a` on, modulo 2^64. -/
def InBytes (a : Word) (k : Nat) (x : Word) : Prop := (x - a).toNat < k

theorem inBytes_add {a : Word} {k i : Nat} (hi : i < k) (hk : k ≤ 2 ^ 64) :
    InBytes a k (a + BitVec.ofNat 64 i) := by
  rw [InBytes, toNat_add_ofNat_sub a (by omega)]
  exact hi

theorem Mem.set64_of_not_inBytes (m : Mem) {a x : Word} (v : Word) (h : ¬ InBytes a 8 x) :
    m.set64 a v x = m x := (m.set64_apply a v x).trans (if_neg h)

/-- The words `vs` lie in memory from `a` on. -/
def Words (m : Mem) : Word → List Word → Prop
  | _, [] => True
  | a, v :: vs => m.get64 a = v ∧ Words m (a + 8) vs

theorem Words.congr {m m' : Mem} {a : Word} {vs : List Word} (h : Words m a vs)
    (hm : ∀ i < 8 * vs.length, m' (a + BitVec.ofNat 64 i) = m (a + BitVec.ofNat 64 i)) :
    Words m' a vs := by
  induction vs generalizing a with
  | nil => trivial
  | cons v vs ih =>
      rw [List.length_cons] at hm
      refine ⟨?_, ih h.2 fun i hi => ?_⟩
      · rw [Mem.get64_congr fun i hi => hm i (by omega)]
        exact h.1
      · have := hm (8 + i) (by omega)
        rwa [BitVec.ofNat_add, ← BitVec.add_assoc] at this

theorem Words.set64 {m : Mem} {a b : Word} {vs : List Word} (h : Words m a vs) (v : Word)
    (hs : Separate b 8 a (8 * vs.length)) : Words (m.set64 b v) a vs :=
  h.congr fun _ hi => by rw [Mem.set64_apply, if_neg (Nat.not_lt.mpr (hs.symm.byte hi))]

theorem Words.append {m : Mem} {a : Word} {vs vs' : List Word} :
    Words m a (vs ++ vs') ↔ Words m a vs ∧ Words m (a + BitVec.ofNat 64 (8 * vs.length)) vs' := by
  induction vs generalizing a with
  | nil => exact ⟨fun h => ⟨trivial, (BitVec.add_zero a).symm ▸ h⟩,
      fun h => (BitVec.add_zero a) ▸ h.2⟩
  | cons v vs ih =>
      rw [List.cons_append, Words, ih, Words, List.length_cons, Nat.mul_succ, Nat.add_comm,
        BitVec.ofNat_add, ← BitVec.add_assoc, and_assoc]
      rfl

namespace Machine

variable {rs : List Reg} {us vs : List Word}

theorem words_pushWord {c : Machine} (h : Words c.mem (c.reg .rsp) vs)
    (hlen : 8 * (vs.length + 1) ≤ 2 ^ 64) (v : Word) :
    Words (c.pushWord v).mem ((c.pushWord v).reg .rsp) (v :: vs) := by
  rw [pushWord_rsp]
  refine ⟨Mem.get64_set64_self _ _ _, ?_⟩
  rw [BitVec.sub_add_cancel]
  refine h.set64 v ⟨?_, ?_⟩
  · rw [BitVec.toNat_sub, BitVec.toNat_sub, show (8 : Word).toNat = 8 from rfl]
    omega
  · rw [BitVec.toNat_sub, BitVec.toNat_sub, show (8 : Word).toNat = 8 from rfl]
    omega

def pushWords (c : Machine) (vs : List Word) : Machine := vs.foldl pushWord c

theorem reg_pushWords (c : Machine) (vs : List Word) : (c.pushWords vs).reg =
    Function.update c.reg .rsp (c.reg .rsp - BitVec.ofNat 64 (8 * vs.length)) := by
  induction vs generalizing c with
  | nil =>
      show c.reg = _
      rw [List.length_nil, Nat.mul_zero, BitVec.sub_zero, Function.update_eq_self]
  | cons v vs ih =>
      show ((c.pushWord v).pushWords vs).reg = _
      rw [ih]
      show Function.update (Function.update c.reg .rsp (c.reg .rsp - 8)) .rsp
        (Function.update c.reg .rsp (c.reg .rsp - 8) .rsp - _) = _
      rw [Function.update_idem, Function.update_self, List.length_cons, Nat.mul_succ, Nat.add_comm,
        BitVec.ofNat_add, BitVec.sub_sub]
      rfl

theorem pushWords_rsp (c : Machine) (vs : List Word) :
    (c.pushWords vs).reg .rsp = c.reg .rsp - BitVec.ofNat 64 (8 * vs.length) := by
  rw [reg_pushWords, Function.update_self]

theorem pushWords_of_ne (c : Machine) (vs : List Word) {r : Reg} (hr : r ≠ .rsp) :
    (c.pushWords vs).reg r = c.reg r := by
  rw [reg_pushWords, Function.update_of_ne hr]

theorem mem_pushWords (c : Machine) (vs : List Word) {x : Word} (hlen : 8 * vs.length ≤ 2 ^ 64)
    (hx : ¬ InBytes (c.reg .rsp - BitVec.ofNat 64 (8 * vs.length)) (8 * vs.length) x) :
    (c.pushWords vs).mem x = c.mem x := by
  induction vs generalizing c with
  | nil => rfl
  | cons v vs ih =>
      rw [List.length_cons] at hlen hx
      simp only [InBytes, BitVec.toNat_sub, BitVec.toNat_ofNat] at hx ih
      have h8 : (8 : Word).toNat = 8 := rfl
      have hx' : ¬ (x - (c.reg .rsp - 8)).toNat < 8 := by
        rw [BitVec.toNat_sub, BitVec.toNat_sub, h8]
        omega
      have hih := ih (c.pushWord v) (by omega) (by
        rw [pushWord_rsp, BitVec.toNat_sub, h8]
        omega)
      refine hih.trans ?_
      rw [pushWord_mem, Mem.set64_apply, if_neg hx']

/-- Words that are pushed lie at the stack pointer, the last one first. -/
theorem words_pushWords (c : Machine) (vs : List Word) (h : Words c.mem (c.reg .rsp) us)
    (hlen : 8 * (vs.length + us.length) ≤ 2 ^ 64) :
    Words (c.pushWords vs).mem ((c.pushWords vs).reg .rsp) (vs.reverse ++ us) := by
  induction vs generalizing c us with
  | nil => exact h
  | cons v vs ih =>
      rw [List.length_cons] at hlen
      have := ih _ (words_pushWord h (by omega) v) (by rw [List.length_cons]; omega)
      rw [List.reverse_cons, List.append_assoc]
      exact this

theorem run_push (hrs : Reg.rsp ∉ rs) (c : Machine) :
    c.run (rs.map .push) = c.pushWords (rs.map c.reg) := by
  induction rs generalizing c with
  | nil => rfl
  | cons r rs ih =>
      have hmap : rs.map (c.pushWord (c.reg r)).reg = rs.map c.reg := by
        refine List.map_congr_left fun r' hr' => c.pushWord_of_ne ?_ _
        rintro rfl
        exact hrs (List.mem_cons_of_mem _ hr')
      have := ih (fun hr => hrs (List.mem_cons_of_mem _ hr)) (c.pushWord (c.reg r))
      rw [hmap] at this
      exact this

/-- Pops read the words at the stack pointer in order and store nothing. -/
theorem reg_run_pop (rs : List Reg) {c : Machine} (hrs : Reg.rsp ∉ rs) (f : Reg → Word)
    (h : Words c.mem (c.reg .rsp) (rs.map f)) :
    (∀ r ∈ rs, (c.run (rs.map .pop)).reg r = f r) ∧
    (∀ r ∉ rs, r ≠ .rsp → (c.run (rs.map .pop)).reg r = c.reg r) ∧
    (c.run (rs.map .pop)).reg .rsp = c.reg .rsp + BitVec.ofNat 64 (8 * rs.length) := by
  induction rs generalizing c with
  | nil => exact ⟨fun _ hr => absurd hr List.not_mem_nil, fun _ _ _ => rfl, (BitVec.add_zero _).symm⟩
  | cons r rs ih =>
      obtain ⟨hr, hrs⟩ := not_or.mp (List.mem_cons.not.mp hrs)
      have hrsp : (c.exec (.pop r)).reg .rsp = c.reg .rsp + 8 :=
        (setReg_of_ne _ hr _).trans (setReg_self _ _ _)
      have hpop : (c.exec (.pop r)).reg r = f r := (setReg_self _ _ _).trans h.1
      have hother : ∀ r', r' ≠ r → r' ≠ .rsp → (c.exec (.pop r)).reg r' = c.reg r' := fun r' h1 h2 =>
        (setReg_of_ne _ h1 _).trans (setReg_of_ne _ h2 _)
      obtain ⟨hin, hout, htop⟩ := ih (c := c.exec (.pop r)) hrs (hrsp ▸ h.2)
      rw [List.map_cons, run_cons]
      refine ⟨fun r' hr' => ?_, fun r' hr' hne => ?_, ?_⟩
      · -- a register that is popped again has the same value
        by_cases hmem : r' ∈ rs
        · exact hin r' hmem
        · obtain rfl : r' = r := (List.mem_cons.mp hr').resolve_right hmem
          exact (hout r' hmem (Ne.symm hr)).trans hpop
      · obtain ⟨h1, h2⟩ := not_or.mp (List.mem_cons.not.mp hr')
        exact (hout r' h2 hne).trans (hother r' h1 hne)
      · rw [htop, hrsp, List.length_cons, Nat.mul_succ, Nat.add_comm (8 * _), BitVec.ofNat_add,
          ← BitVec.add_assoc]
        rfl

theorem mem_run_pop (rs : List Reg) (c : Machine) : (c.run (rs.map .pop)).mem = c.mem := by
  induction rs generalizing c with
  | nil => rfl
  | cons r rs ih => exact ih _

end Machine

end Rix
