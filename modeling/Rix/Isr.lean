import Rix.Machine

/-!
# The interrupt stubs of `exception.S`

The processor pushes its return frame, and an error code for some vectors. The stub of the vector
makes both kinds of stack alike, and `isr_common` saves the registers as
`x86_interrupt_frame_t` lays them out.
-/
namespace Rix
open Machine

def pushesErrorCode (vector : BitVec 8) : Bool := decide (vector ∈ [8, 10, 11, 12, 13, 14, 17])

/-- What the processor pushes on the stack that ends at `top`, which it takes from `rsp` or from
the task state: the return frame, and an error code for some vectors. -/
def deliver (vector : BitVec 8) (code top ss rflags cs : Word) (c : Machine) : Machine :=
  let c' := (((((c.setReg .rsp top).pushWord ss).pushWord (c.reg .rsp)).pushWord rflags).pushWord
    cs).pushWord c.rip
  if pushesErrorCode vector then c'.pushWord code else c'

/-- The stub of `_isr` for a vector, up to its jump to `isr_common`. -/
def isrStub (vector : BitVec 8) : List Insn :=
  if vector = 0x8 ∨ vector ≥ 0xA ∧ vector ≤ 0xE ∨ vector = 0x11 then
    [.nop, .nop, .pushImm (vector.setWidth 64)]
  else [.pushImm 0, .pushImm (vector.setWidth 64)]

/-- `isr_common` up to the call of the handler. -/
def isrCommonSave : List Insn :=
  [.cld, .push .r15, .push .r14, .push .r13, .push .r12, .push .r11, .push .r10, .push .r9,
    .push .r8, .push .rax, .push .rcx, .push .rdx, .push .rbx, .push .rbp, .push .rsi, .push .rdi,
    .mov .rsp .rdi]

/-- `isr_common` from the return of the handler to `iretq`. -/
def isrCommonRestore : List Insn :=
  [.pop .rdi, .pop .rsi, .pop .rbp, .pop .rbx, .pop .rdx, .pop .rcx, .pop .rax, .pop .r8, .pop .r9,
    .pop .r10, .pop .r11, .pop .r12, .pop .r13, .pop .r14, .pop .r15, .add 16 .rsp]

/-- `x86_interrupt_frame_t`. -/
structure X86InterruptFrame where
  rdi : Word
  rsi : Word
  rbp : Word
  rbx : Word
  rdx : Word
  rcx : Word
  rax : Word
  r8 : Word
  r9 : Word
  r10 : Word
  r11 : Word
  r12 : Word
  r13 : Word
  r14 : Word
  r15 : Word
  vector : Word
  errorCode : Word
  deriving DecidableEq, Repr

def Mem.interruptFrame (m : Mem) (a : Word) : X86InterruptFrame where
  rdi := m.get64 a
  rsi := m.get64 (a + 8)
  rbp := m.get64 (a + 16)
  rbx := m.get64 (a + 24)
  rdx := m.get64 (a + 32)
  rcx := m.get64 (a + 40)
  rax := m.get64 (a + 48)
  r8 := m.get64 (a + 56)
  r9 := m.get64 (a + 64)
  r10 := m.get64 (a + 72)
  r11 := m.get64 (a + 80)
  r12 := m.get64 (a + 88)
  r13 := m.get64 (a + 96)
  r14 := m.get64 (a + 104)
  r15 := m.get64 (a + 112)
  vector := m.get64 (a + 120)
  errorCode := m.get64 (a + 128)

theorem interruptFrame_of_words {m : Mem} {a : Word} {f : X86InterruptFrame}
    (h : Words m a [f.rdi, f.rsi, f.rbp, f.rbx, f.rdx, f.rcx, f.rax, f.r8, f.r9, f.r10, f.r11, f.r12,
      f.r13, f.r14, f.r15, f.vector, f.errorCode]) : m.interruptFrame a = f := by
  simp only [Words, BitVec.add_assoc, BitVec.ofNat_eq_ofNat, BitVec.reduceAdd] at h
  simp only [Mem.interruptFrame, BitVec.ofNat_eq_ofNat, h]

/-- The handler is called in state `c` and has returned in state `c'`. -/
structure SysVCall (kept : Word → Prop) (c c' : Machine) : Prop where
  callee : ∀ r ∈ [Reg.rbx, .rbp, .r12, .r13, .r14, .r15, .rsp], c'.reg r = c.reg r
  mem : ∀ x, kept x → c'.mem x = c.mem x

def isrRegs : List Reg :=
  [.rdi, .rsi, .rbp, .rbx, .rdx, .rcx, .rax, .r8, .r9, .r10, .r11, .r12, .r13, .r14, .r15]

section Entry

variable {vector : BitVec 8} {code top ss rflags cs : Word} {c : Machine}

theorem isrStub_eq (vector : BitVec 8) : isrStub vector =
    if pushesErrorCode vector then [.nop, .nop, .pushImm (vector.setWidth 64)]
    else [.pushImm 0, .pushImm (vector.setWidth 64)] := by
  have h : (vector = 0x8 ∨ vector ≥ 0xA ∧ vector ≤ 0xE ∨ vector = 0x11) ↔
      pushesErrorCode vector = true := by
    revert vector
    decide
  unfold isrStub
  by_cases hc : pushesErrorCode vector = true
  · rw [if_pos (h.mpr hc), if_pos hc]
  · rw [if_neg fun h' => hc (h.mp h'), if_neg hc]

/-- What lies on the stack when the stub jumps to `isr_common`, the last word first. -/
def isrWords (vector : BitVec 8) (code ss rflags cs : Word) (c : Machine) : List Word :=
  [vector.setWidth 64, if pushesErrorCode vector then code else 0, c.rip, cs, rflags, c.reg .rsp, ss]

/-- The processor and the stub push the same seven words for every vector. -/
theorem isrStub_entry (vector : BitVec 8) (code top ss rflags cs : Word) (c : Machine) :
    (deliver vector code top ss rflags cs c).run (isrStub vector) =
      (c.setReg .rsp top).pushWords (isrWords vector code ss rflags cs c).reverse := by
  rw [isrStub_eq, isrWords, deliver]
  by_cases hc : pushesErrorCode vector = true
  · rw [if_pos hc, if_pos hc, if_pos hc]
    rfl
  · rw [if_neg hc, if_neg hc, if_neg hc]
    rfl

def isrEntry (vector : BitVec 8) (code top ss rflags cs : Word) (c : Machine) : Machine :=
  (deliver vector code top ss rflags cs c).run (isrStub vector ++ isrCommonSave)

/-- The registers lie below the seven words, and `rdi` points to them. -/
theorem isrEntry_spec (vector : BitVec 8) (code top ss rflags cs : Word) (c : Machine) :
    (isrEntry vector code top ss rflags cs c).reg .rsp = top - 176 ∧
    (isrEntry vector code top ss rflags cs c).reg .rdi = top - 176 ∧
    Words (isrEntry vector code top ss rflags cs c).mem (top - 176)
      (isrRegs.map c.reg ++ isrWords vector code ss rflags cs c) := by
  have hstub := words_pushWords (c.setReg .rsp top) (isrWords vector code ss rflags cs c).reverse
    (show Words _ _ [] from trivial) (show 8 * (7 + 0) ≤ 2 ^ 64 by decide)
  have htop := pushWords_rsp (c.setReg .rsp top) (isrWords vector code ss rflags cs c).reverse
  have hregs : ∀ r ≠ Reg.rsp, ((c.setReg .rsp top).pushWords
      (isrWords vector code ss rflags cs c).reverse).reg r = c.reg r := fun r hr => by
    rw [pushWords_of_ne _ _ hr, setReg_of_ne _ hr]
  rw [← isrStub_entry] at hstub htop hregs
  rw [List.reverse_reverse, List.append_nil] at hstub
  rw [isrEntry, run_append]
  generalize (deliver vector code top ss rflags cs c).run (isrStub vector) = d at hstub htop hregs
  have hmap : isrRegs.reverse.map (d.exec .cld).reg = isrRegs.reverse.map c.reg :=
    List.map_congr_left fun r hr => hregs r (by
      rintro rfl
      exact absurd hr (by decide))
  have hsave : d.run isrCommonSave =
      ((d.exec .cld).pushWords (isrRegs.reverse.map c.reg)).exec (.mov .rsp .rdi) := by
    rw [← hmap, ← run_push (by decide)]
    rfl
  have hwords := words_pushWords (d.exec .cld) (isrRegs.reverse.map c.reg) hstub
    (show 8 * (15 + 7) ≤ 2 ^ 64 by decide)
  have hrsp : ((d.exec .cld).pushWords (isrRegs.reverse.map c.reg)).reg .rsp = top - 176 := by
    rw [pushWords_rsp]
    show d.reg .rsp - _ = _
    rw [htop, setReg_self, BitVec.sub_sub]
    rfl
  rw [← List.map_reverse, List.reverse_reverse, hrsp] at hwords
  rw [hsave]
  exact ⟨(setReg_of_ne _ (by decide) _).trans hrsp, (setReg_self _ _ _).trans hrsp, hwords⟩

end Entry

theorem mem_isrRegs {r : Reg} (hr : r ≠ .rsp) : r ∈ isrRegs := by
  cases r <;> first | exact absurd rfl hr | decide

/-- The registers are read back from the frame, and two more words are dropped. -/
theorem run_isrCommonRestore {c : Machine} (f : Reg → Word)
    (h : Words c.mem (c.reg .rsp) (isrRegs.map f)) :
    (∀ r ≠ Reg.rsp, (c.run isrCommonRestore).reg r = f r) ∧
    (c.run isrCommonRestore).reg .rsp = c.reg .rsp + 136 := by
  obtain ⟨hin, -, htop⟩ := reg_run_pop isrRegs (by decide) f h
  have hrun : c.run isrCommonRestore = (c.run (isrRegs.map .pop)).exec (.add 16 .rsp) := rfl
  rw [hrun]
  refine ⟨fun r hr => (setReg_of_ne _ hr _).trans (hin r (mem_isrRegs hr)), ?_⟩
  refine (setReg_self _ _ _).trans ?_
  rw [htop, BitVec.add_assoc]
  rfl

theorem sub_176 {top : Word} (i j : Word) (h : i + j = 176) : top - 176 + i = top - j := by
  rw [← h, BitVec.add_comm i j, ← BitVec.sub_sub, BitVec.sub_add_cancel]

/-- The handler finds the interrupted registers, the vector and the error code in the fields of
its frame, and `iretq` finds every register as it was and the return frame at `rsp`. -/
theorem isr_transparent (vector : BitVec 8) (code top ss rflags cs : Word) (c c' : Machine)
    (h : SysVCall (InBytes ((isrEntry vector code top ss rflags cs c).reg .rdi) 136)
      (isrEntry vector code top ss rflags cs c) c') :
    (isrEntry vector code top ss rflags cs c).mem.interruptFrame
      ((isrEntry vector code top ss rflags cs c).reg .rdi) =
      ⟨c.reg .rdi, c.reg .rsi, c.reg .rbp, c.reg .rbx, c.reg .rdx, c.reg .rcx, c.reg .rax, c.reg .r8,
        c.reg .r9, c.reg .r10, c.reg .r11, c.reg .r12, c.reg .r13, c.reg .r14, c.reg .r15,
        vector.setWidth 64, if pushesErrorCode vector then code else 0⟩ ∧
    (∀ r ≠ Reg.rsp, (c'.run isrCommonRestore).reg r = c.reg r) ∧
    (c'.run isrCommonRestore).reg .rsp = top - 40 ∧
    Words (isrEntry vector code top ss rflags cs c).mem (top - 40)
      [c.rip, cs, rflags, c.reg .rsp, ss] := by
  obtain ⟨hrsp, hrdi, hwords⟩ := isrEntry_spec vector code top ss rflags cs c
  obtain ⟨hframe, hcpu⟩ := Words.append.mp (show Words _ (top - 176) ((isrRegs.map c.reg ++
    [vector.setWidth 64, if pushesErrorCode vector then code else 0]) ++
      [c.rip, cs, rflags, c.reg .rsp, ss]) from hwords)
  rw [hrdi] at h ⊢
  have hsaved : Words c'.mem (c'.reg .rsp) (isrRegs.map c.reg) := by
    rw [h.callee .rsp (by decide), hrsp]
    exact (Words.append.mp hframe).1.congr fun i hi =>
      h.mem _ (inBytes_add (lt_of_lt_of_le hi (show 8 * 15 ≤ 136 by decide)) (by decide))
  obtain ⟨hregs, htop⟩ := run_isrCommonRestore c.reg hsaved
  refine ⟨?_, hregs, ?_, ?_⟩
  · exact interruptFrame_of_words hframe
  · rw [htop, h.callee .rsp (by decide), hrsp]
    exact sub_176 136 40 rfl
  · rw [← sub_176 136 40 rfl]
    exact hcpu

theorem sysVCall_setReg_rax (kept : Word → Prop) (c : Machine) (v : Word) :
    SysVCall kept c (c.setReg .rax v) where
  callee r hr := setReg_of_ne c (by
    rintro rfl
    exact absurd hr (by decide)) v
  mem _ _ := rfl

def sampleInterrupted : Machine where
  reg := fun
    | .rax => 1
    | .rcx => 2
    | .rdx => 3
    | .rbx => 4
    | .rsp => 0x7f00
    | .rbp => 0x7f80
    | .rsi => 5
    | .rdi => 6
    | .r8 => 7
    | .r9 => 8
    | .r10 => 9
    | .r11 => 10
    | .r12 => 11
    | .r13 => 12
    | .r14 => 13
    | .r15 => 14
  rip := 0x1000
  df := true
  mem := BitVec.setWidth 8

/-- A page fault whose handler changes `rax`. -/
theorem isr_transparent_page_fault :
    (isrEntry 14 2 0x8000 0x10 0x202 0x8 sampleInterrupted).mem.interruptFrame
        ((isrEntry 14 2 0x8000 0x10 0x202 0x8 sampleInterrupted).reg .rdi) =
      ⟨6, 5, 0x7f80, 4, 3, 2, 1, 7, 8, 9, 10, 11, 12, 13, 14, 14, 2⟩ ∧
    (∀ r ≠ Reg.rsp, (((isrEntry 14 2 0x8000 0x10 0x202 0x8 sampleInterrupted).setReg .rax 99).run
      isrCommonRestore).reg r = sampleInterrupted.reg r) ∧
    Words (isrEntry 14 2 0x8000 0x10 0x202 0x8 sampleInterrupted).mem 0x7fd8
      [0x1000, 0x8, 0x202, 0x7f00, 0x10] := by
  obtain ⟨hframe, hregs, -, hreturn⟩ := isr_transparent 14 2 0x8000 0x10 0x202 0x8 sampleInterrupted _
    (sysVCall_setReg_rax _ _ 99)
  exact ⟨hframe, hregs, hreturn⟩

end Rix
