import Rix.IntTable
import Rix.Simulation

/-!
# Interrupts while the kernel runs

A run is any sequence of computations, stores, registrations and interrupts. An interrupt goes
from the processor through the stub, `isr_common` and `x86_int_handler` into the routine, which
may itself store and register, and back with `iretq`.
-/
namespace Rix
open Machine Simulation

/-- `iretq`, of which the code and stack segments and the flags are left out. -/
def Machine.iretq (c : Machine) : Machine :=
  { c.setReg .rsp (c.mem.get64 (c.reg .rsp + 24)) with rip := c.mem.get64 (c.reg .rsp) }

/-- What the processor delivers, what the compiled handlers store in frames of their own and leave
in the registers that a call may change, and what the routine does when it is called. -/
structure Interrupt where
  vector : BitVec 8
  code : Word
  top : Word
  ss : Word
  rflags : Word
  cs : Word
  spill : List (Word × Byte)
  scratch : Reg → Word
  body : List KernelAct

def calleeKept : List Reg := [.rbx, .rbp, .r12, .r13, .r14, .r15, .rsp]

namespace Interrupt

def entry (i : Interrupt) (c : Machine) : Machine :=
  isrEntry i.vector i.code i.top i.ss i.rflags i.cs c

def spilled (i : Interrupt) (e : Machine) : Mem :=
  i.spill.foldl (fun m p => Function.update m p.1 p.2) e.mem

def returned (i : Interrupt) (e : Machine) (m : Mem) : Machine :=
  { e with reg := fun r => if r ∈ calleeKept then e.reg r else i.scratch r, mem := m }

def serveFrom (intTable : Word) (i : Interrupt) (e : Machine) : Option IsrCall × Machine :=
  let r := x86IntHandler intTable (i.spilled e) (e.reg .rdi) i.body
  (r.1, ((i.returned e r.2).run isrCommonRestore).iretq)

def serve (intTable : Word) (i : Interrupt) (c : Machine) : Option IsrCall × Machine :=
  i.serveFrom intTable (i.entry c)

def OnStack (i : Interrupt) (x : Word) : Prop := InBytes (i.top - 176) 176 x

/-- The stack is apart from the table, and nobody but the stubs stores to these words. -/
structure Admissible (intTable : Word) (i : Interrupt) : Prop where
  stack : ∀ x, i.OnStack x → ¬ InTable intTable x
  spill : ∀ p ∈ i.spill, ¬ i.OnStack p.1 ∧ ¬ InTable intTable p.1
  body : ∀ act ∈ i.body, act.Admissible intTable
  spares : ∀ a b, KernelAct.store a b ∈ i.body → ¬ i.OnStack a

end Interrupt

/-- A computation is a function of the registers and the instruction pointer. -/
inductive KernelEvent where
  | compute (f : (Reg → Word) × Word → (Reg → Word) × Word)
  | act (a : KernelAct)
  | interrupt (i : Interrupt)

namespace KernelEvent

def exec (intTable : Word) (c : Machine) : KernelEvent → Option IsrCall × Machine
  | .compute f => (none, { c with reg := (f (c.reg, c.rip)).1, rip := (f (c.reg, c.rip)).2 })
  | .act a => (none, { c with mem := a.exec intTable c.mem })
  | .interrupt i => i.serve intTable c

def Admissible (intTable : Word) : KernelEvent → Prop
  | .compute _ => True
  | .act a => a.Admissible intTable
  | .interrupt i => i.Admissible intTable

/-- What the event does to registers when no interrupt is seen. -/
def computed (r : (Reg → Word) × Word) : KernelEvent → (Reg → Word) × Word
  | .compute f => f r
  | _ => r

end KernelEvent

/-- An interrupt with a routine calls it once, with NULL; the routine may register others. -/
def Handlers.step (h : Handlers) : KernelEvent → Option IsrCall × Handlers
  | .compute _ => (none, h)
  | .act a => (none, a.handlers h)
  | .interrupt i =>
    if h.Handles i.vector then
      (some ⟨i.vector.setWidth 32, h i.vector, NULL⟩, i.body.foldl KernelAct.handlers h)
    else (none, h)

section Serve

variable {intTable : Word} {i : Interrupt} {c : Machine} {h : Handlers}

theorem foldl_apply {β : Type} {f : Mem → β → Mem} {x : Word} (l : List β)
    (h : ∀ b ∈ l, ∀ m, f m b x = m x) (m : Mem) : l.foldl f m x = m x := by
  induction l generalizing m with
  | nil => rfl
  | cons b l ih =>
      rw [List.foldl_cons, ih fun b' hb' => h b' (List.mem_cons_of_mem b hb'), h b List.mem_cons_self]

theorem KernelAct.exec_apply {act : KernelAct} (ha : act.Admissible intTable) {x : Word}
    (hx : ¬ InTable intTable x) (hs : ∀ b, act ≠ .store x b) (m : Mem) :
    act.exec intTable m x = m x := by
  cases act with
  | registerIsr vector callback edge => exact registerIsr_of_not_inTable ha m callback edge hx
  | store a b =>
      refine Function.update_of_ne ?_ _ _
      rintro rfl
      exact hs b rfl

/-- The processor and the stubs store to their 22 words only. -/
theorem mem_isrEntry (vector : BitVec 8) (code top ss rflags cs : Word) (c : Machine) {x : Word}
    (hx : ¬ InBytes (top - 176) 176 x) : (isrEntry vector code top ss rflags cs c).mem x = c.mem x := by
  have hstub := isrStub_entry vector code top ss rflags cs c
  have hrsp := pushWords_rsp (c.setReg .rsp top) (isrWords vector code ss rflags cs c).reverse
  have hmem := mem_pushWords (c.setReg .rsp top) (isrWords vector code ss rflags cs c).reverse
    (x := x) (show 8 * 7 ≤ 2 ^ 64 by decide)
  rw [← hstub, setReg_self] at hrsp
  rw [← hstub, setReg_self, setReg_mem] at hmem
  rw [isrEntry, run_append]
  generalize (deliver vector code top ss rflags cs c).run (isrStub vector) = d at hrsp hmem
  have hsave : d.run isrCommonSave =
      ((d.exec .cld).pushWords (isrRegs.reverse.map (d.exec .cld).reg)).exec (.mov .rsp .rdi) := by
    rw [← @run_push isrRegs.reverse (by decide)]
    rfl
  have htop : (d.exec .cld).reg .rsp = top - 56 := hrsp
  have hcld : (d.exec .cld).mem = d.mem := rfl
  have hmov : ∀ c : Machine, (c.exec (.mov .rsp .rdi)).mem = c.mem := fun _ => rfl
  have h56 := not_inBytes_field (e := top - 176) 120 (j := 56) (by decide) hx
  have h120 := not_inBytes_field (e := top - 176) 0 (j := 120) (by decide) hx
  rw [sub_176 (BitVec.ofNat 64 120) 56 rfl] at h56
  rw [BitVec.add_zero] at h120
  rw [hsave, hmov]
  refine (mem_pushWords _ (isrRegs.reverse.map (d.exec .cld).reg)
    (show 8 * 15 ≤ 2 ^ 64 by decide) ?_).trans ?_
  · rw [htop, BitVec.sub_sub]
    exact h120
  · rw [hcld]
    exact hmem h56

theorem Interrupt.Admissible.foldl (hi : i.Admissible intTable) (m : Mem) {x : Word}
    (hx : i.OnStack x) : i.body.foldl (KernelAct.exec intTable) m x = m x := by
  refine foldl_apply i.body (fun act hact => ?_) m
  exact KernelAct.exec_apply (hi.body act hact) (hi.stack x hx) fun b he =>
    hi.spares x b (he ▸ hact) hx

theorem iretq_isrCommonRestore {d : Machine} {vector : BitVec 8} {code top ss rflags cs : Word}
    (hrsp : d.reg .rsp = top - 176)
    (hw : Words d.mem (top - 176) (isrRegs.map c.reg ++ isrWords vector code ss rflags cs c)) :
    ((d.run isrCommonRestore).iretq).reg = c.reg ∧ ((d.run isrCommonRestore).iretq).rip = c.rip ∧
    ((d.run isrCommonRestore).iretq).mem = d.mem := by
  obtain ⟨hframe, hreturn⟩ := Words.append.mp (show Words d.mem (top - 176)
    ((isrRegs.map c.reg ++ [vector.setWidth 64, if pushesErrorCode vector then code else 0]) ++
      [c.rip, cs, rflags, c.reg .rsp, ss]) from hw)
  replace hreturn : Words d.mem (top - 40) [c.rip, cs, rflags, c.reg .rsp, ss] := by
    rw [← sub_176 136 40 rfl]
    exact hreturn
  have hsaved := (Words.append.mp hframe).1
  rw [← hrsp] at hsaved
  obtain ⟨hregs, htop⟩ := run_isrCommonRestore c.reg hsaved
  have hmem : (d.run isrCommonRestore).mem = d.mem := rfl
  rw [hrsp, sub_176 136 40 rfl] at htop
  generalize d.run isrCommonRestore = d' at hregs htop hmem
  refine ⟨funext fun r => ?_, ?_, hmem⟩
  · show (d'.setReg .rsp (d'.mem.get64 (d'.reg .rsp + 24))).reg r = c.reg r
    by_cases hr : r = .rsp
    · rw [hr, setReg_self]
      rw [hmem, htop, ← hreturn.2.2.2.1, BitVec.add_assoc, BitVec.add_assoc]
      rfl
    · exact (setReg_of_ne _ hr _).trans (hregs r hr)
  · show d'.mem.get64 (d'.reg .rsp) = c.rip
    rw [hmem, htop, hreturn.1]

/-- An interrupt calls the routine of its vector and goes back to where it came from. -/
theorem Interrupt.serve_spec (ht : TableHolds intTable c.mem h) (hi : i.Admissible intTable) :
    (i.serve intTable c).1 = (h.step (.interrupt i)).1 ∧
    (i.serve intTable c).2.reg = c.reg ∧ (i.serve intTable c).2.rip = c.rip ∧
    TableHolds intTable (i.serve intTable c).2.mem (h.step (.interrupt i)).2 := by
  obtain ⟨hrsp, hrdi, hwords⟩ := isrEntry_spec i.vector i.code i.top i.ss i.rflags i.cs c
  -- what the handler finds on the stack and in the table
  have hspill : ∀ x, i.OnStack x ∨ InTable intTable x → i.spilled (i.entry c) x = (i.entry c).mem x :=
    fun x hx => foldl_apply i.spill (fun p hp m => Function.update_of_ne (fun e => by
      obtain ⟨h1, h2⟩ := hi.spill p hp
      rw [← e] at h1 h2
      exact hx.elim h1 h2) _ _) _
  have htable : TableHolds intTable (i.spilled (i.entry c)) h := ht.congr fun x hx => by
    rw [hspill x (.inr hx)]
    exact mem_isrEntry _ _ _ _ _ _ _ fun hin => hi.stack x hin hx
  have hstack : Words (i.spilled (i.entry c)) (i.top - 176)
      (isrRegs.map c.reg ++ isrWords i.vector i.code i.ss i.rflags i.cs c) :=
    hwords.congr fun j hj => hspill _ (.inl (inBytes_add hj (by decide)))
  have hvector : (i.spilled (i.entry c)).get64 ((i.entry c).reg .rdi + 120) = i.vector.setWidth 64 := by
    have hframe := interruptFrame_of_words (f := ⟨c.reg .rdi, c.reg .rsi, c.reg .rbp, c.reg .rbx,
      c.reg .rdx, c.reg .rcx, c.reg .rax, c.reg .r8, c.reg .r9, c.reg .r10, c.reg .r11, c.reg .r12,
      c.reg .r13, c.reg .r14, c.reg .r15, i.vector.setWidth 64,
      if pushesErrorCode i.vector then i.code else 0⟩) (Words.append.mp (show Words _ (i.top - 176)
        ((isrRegs.map c.reg ++ [i.vector.setWidth 64, if pushesErrorCode i.vector then i.code else 0])
          ++ [c.rip, i.cs, i.rflags, c.reg .rsp, i.ss]) from hstack)).1
    rw [Interrupt.entry, hrdi]
    exact congrArg X86InterruptFrame.vector hframe
  have hhandler := x86IntHandler_eq htable hvector i.body
  -- what it leaves there
  generalize hr : x86IntHandler intTable (i.spilled (i.entry c)) ((i.entry c).reg .rdi) i.body = r at hhandler
  have hcall : r.1 = (h.step (.interrupt i)).1 ∧
      TableHolds intTable r.2 (h.step (.interrupt i)).2 ∧
      ∀ x, i.OnStack x → r.2 x = i.spilled (i.entry c) x := by
    rw [hhandler, Handlers.step]
    by_cases hc : h.Handles i.vector
    · rw [if_pos hc, if_pos hc]
      exact ⟨rfl, htable.foldl hi.body, fun x hx => hi.foldl _ hx⟩
    · rw [if_neg hc, if_neg hc]
      exact ⟨rfl, htable, fun _ _ => rfl⟩
  obtain ⟨hcall, htable', hkept⟩ := hcall
  have hstack' : Words r.2 (i.top - 176)
      (isrRegs.map c.reg ++ isrWords i.vector i.code i.ss i.rflags i.cs c) :=
    hstack.congr fun j hj => hkept _ (inBytes_add hj (by decide))
  have hserve : i.serve intTable c =
      (r.1, ((i.returned (i.entry c) r.2).run isrCommonRestore).iretq) := by
    rw [Interrupt.serve, Interrupt.serveFrom, hr]
  have htop : (i.returned (i.entry c) r.2).reg .rsp = i.top - 176 := hrsp
  obtain ⟨hregs, hrip, hmem⟩ := iretq_isrCommonRestore (d := i.returned (i.entry c) r.2) htop hstack'
  rw [hserve]
  refine ⟨hcall, hregs, hrip, ?_⟩
  rw [hmem]
  exact htable'

end Serve

section Runs

variable {intTable : Word} {c c' : Machine} {es : List KernelEvent} {os : List (Option IsrCall)}

def KernelStep (intTable : Word) : Machine → KernelEvent → Option IsrCall → Machine → Prop :=
  Does (KernelEvent.Admissible intTable) (KernelEvent.exec intTable)

/-- The table stands for the routines that were registered last. -/
theorem simulates_handlers (intTable : Word) :
    Simulates (fun h c => TableHolds intTable c.mem h) (KernelStep intTable) Handlers.step := by
  rintro h c e o c' ht ⟨he, hexec⟩
  obtain ⟨ho, hc'⟩ := Prod.mk.inj hexec.symm
  rw [ho, hc']
  cases e with
  | compute f => exact ⟨rfl, ht⟩
  | act a => exact ⟨rfl, ht.exec he⟩
  | interrupt i =>
      obtain ⟨hcall, -, -, htable⟩ := Interrupt.serve_spec ht he
      exact ⟨hcall.symm, htable⟩

theorem tableHolds_step (intTable : Word) (c : Machine) (e : KernelEvent) (o : Option IsrCall)
    (c' : Machine) (hc : ∃ h, TableHolds intTable c.mem h) (hstep : KernelStep intTable c e o c') :
    ∃ h, TableHolds intTable c'.mem h := by
  obtain ⟨h, ht⟩ := hc
  exact ⟨_, (simulates_handlers intTable _ _ _ _ _ ht hstep).2⟩

/-- Over every run, an interrupt of a vector from 0x20 on calls exactly the routine registered last
for it, once and with NULL; below 0x20 none is called, and by no other event. -/
theorem interrupts_refine_handlers (hz : ∀ x, InTable intTable x → c.mem x = 0)
    (hr : Run (KernelStep intTable) c es os c') :
    os = (Simulation.run Handlers.step (fun _ => NULL) es).1 ∧
    TableHolds intTable c'.mem (Simulation.run Handlers.step (fun _ => NULL) es).2 := by
  obtain ⟨hos, ht⟩ := (simulates_handlers intTable).run (tableHolds_zero hz) hr
  exact ⟨hos.symm, ht⟩

theorem computed_of_run (ht : ∃ h, TableHolds intTable c.mem h)
    (hr : Run (KernelStep intTable) c es os c') :
    (c'.reg, c'.rip) = es.foldl KernelEvent.computed (c.reg, c.rip) := by
  induction hr with
  | nil => rfl
  | @cons c d _ e es _ _ hstep _ ih =>
      rw [ih (tableHolds_step intTable _ _ _ _ ht hstep), List.foldl_cons]
      congr 1
      obtain ⟨he, hexec⟩ := hstep
      obtain rfl : (KernelEvent.exec intTable c e).2 = d := congrArg Prod.snd hexec
      cases e with
      | compute f => rfl
      | act a => rfl
      | interrupt i =>
          obtain ⟨h, ht⟩ := ht
          obtain ⟨-, hreg, hrip, -⟩ := Interrupt.serve_spec ht he
          exact Prod.ext hreg hrip

/-- Over every run, the registers are what the computations alone make of them. -/
theorem interrupts_invisible (hz : ∀ x, InTable intTable x → c.mem x = 0)
    (hr : Run (KernelStep intTable) c es os c') :
    (c'.reg, c'.rip) = es.foldl KernelEvent.computed (c.reg, c.rip) :=
  computed_of_run ⟨_, tableHolds_zero hz⟩ hr

end Runs

/-- An interrupt on the stack below 0x9000; its routine registers itself for the next vector. -/
def sampleInterrupt : Interrupt where
  vector := 33
  code := 0
  top := 0x9000
  ss := 0x10
  rflags := 0x202
  cs := 0x8
  spill := [(0x8f00, 1)]
  scratch _ := 0
  body := [.registerIsr 34 0x1234 true]

def sampleEvents : List KernelEvent :=
  [.interrupt sampleInterrupt, .act (.registerIsr 33 0x1234 true),
    .compute fun r => (Function.update r.1 .rax 7, 0x1000), .interrupt sampleInterrupt]

theorem sampleEvents_admissible : ∀ e ∈ sampleEvents, e.Admissible 0x10000 := by
  have hi : sampleInterrupt.Admissible 0x10000 := by
    refine ⟨fun x hx hin => ?_, ?_, ?_, ?_⟩
    · simp only [Interrupt.OnStack, InTable, InBytes, sampleInterrupt] at hx hin
      bv_omega
    · intro p hp
      obtain rfl := List.mem_singleton.mp hp
      unfold Interrupt.OnStack InTable InBytes
      decide
    · intro act hact
      obtain rfl := List.mem_singleton.mp hact
      exact (by decide : (34 : BitVec 32).toNat < 256)
    · intro a b hact
      cases List.mem_singleton.mp hact
  intro e he
  simp only [sampleEvents, List.mem_cons, List.not_mem_nil, or_false] at he
  rcases he with rfl | rfl | rfl | rfl
  · exact hi
  · exact (by decide : (33 : BitVec 32).toNat < 256)
  · exact trivial
  · exact hi

/-- The first of two interrupts finds no routine. -/
theorem interrupts_refine_handlers_sample : ∃ c', Run (KernelStep 0x10000)
    ⟨sampleInterrupted.reg, 0x1000, true, fun _ => 0⟩ sampleEvents
    [none, none, none, some ⟨33, 0x1234, NULL⟩] c' := by
  have hr := Run.of_forall (KernelEvent.exec 0x10000) ⟨sampleInterrupted.reg, 0x1000, true, fun _ => 0⟩
    sampleEvents_admissible
  have hos := (interrupts_refine_handlers (fun _ _ => rfl) hr).1
  rw [hos] at hr
  exact ⟨_, hr⟩

theorem interrupts_invisible_sample : ∃ c' : Machine, c'.reg .rax = 7 ∧ c'.reg .rbx = 4 ∧
    ∃ os, Run (KernelStep 0x10000) ⟨sampleInterrupted.reg, 0x1000, true, fun _ => 0⟩ sampleEvents os c' := by
  have hr := Run.of_forall (KernelEvent.exec 0x10000) ⟨sampleInterrupted.reg, 0x1000, true, fun _ => 0⟩
    sampleEvents_admissible
  have hreg := congrArg Prod.fst (interrupts_invisible (fun _ _ => rfl) hr)
  exact ⟨_, congrFun hreg .rax, congrFun hreg .rbx, _, hr⟩

end Rix
