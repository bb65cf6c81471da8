import Rix.Idt
import Rix.Interrupts

/-!
# Interrupts through the gates

The processor finds the stub of a vector by the gate that `setup_idt` has prepared, which lies in the
memory that the kernel, its routines and the interrupts themselves store to.
-/
namespace Rix
open Machine Fuel Simulation

def InGates (idt x : Word) : Prop := InBytes idt (16 * numIsr) x

/-- Where the processor goes for a vector: the gate is within the limit, and one for interrupts that is
present. -/
def Idtr.entry (r : Idtr) (m : Mem) (vector : BitVec 8) : Option Word :=
  if 16 * vector.toNat + 15 ≤ r.limit.toNat ∧ (m.idtGate (gateOf r.base vector)).type = 0x8e then
    some (m.idtGate (gateOf r.base vector)).offset
  else none

/-- The stub that starts at an address, each taking 16 bytes from `_isr` on. -/
def stubAt (isr a : Word) : Option (BitVec 8) :=
  if (a - isr).toNat < 16 * numIsr ∧ (a - isr).toNat % 16 = 0 then
    some (BitVec.ofNat 8 ((a - isr).toNat / 16))
  else none

/-- The state in which the stub `w` calls `x86_int_handler` when the processor has gone there. -/
def Interrupt.enter (i : Interrupt) (w : BitVec 8) (c : Machine) : Machine :=
  (deliver i.vector i.code i.top i.ss i.rflags i.cs c).run (isrStub w ++ isrCommonSave)

namespace KernelEvent

def through (intTable isr : Word) (r : Idtr) (c : Machine) :
    KernelEvent → Option (Option IsrCall × Machine)
  | .interrupt i => do
    let a ← r.entry c.mem i.vector
    let w ← stubAt isr a
    return i.serveFrom intTable (i.enter w c)
  | e => some (e.exec intTable c)

/-- No stack lies over the gates, and nobody stores to them. -/
def SparesGates (idt : Word) : KernelEvent → Prop
  | .compute _ => True
  | .act a => ∀ x b, a = .store x b → ¬ InGates idt x
  | .interrupt i => (∀ x, i.OnStack x → ¬ InGates idt x) ∧ (∀ p ∈ i.spill, ¬ InGates idt p.1) ∧
    ∀ x b, KernelAct.store x b ∈ i.body → ¬ InGates idt x

end KernelEvent

def GatesHold (isr : Word) (r : Idtr) (m : Mem) : Prop :=
  ∀ v : BitVec 8, r.entry m v = some (isr + v.setWidth 64 * 16)

section

variable {intTable isr idt : Word} {r : Idtr} {m m' : Mem} {c : Machine}

theorem stubAt_stub (isr : Word) (v : BitVec 8) : stubAt isr (isr + v.setWidth 64 * 16) = some v := by
  have hv := v.isLt
  have hoffset : (isr + v.setWidth 64 * 16 - isr).toNat = 16 * v.toNat := by
    rw [BitVec.add_comm isr, BitVec.add_sub_cancel, BitVec.toNat_mul, BitVec.toNat_setWidth,
      show (16 : Word).toNat = 16 from rfl]
    omega
  rw [stubAt, hoffset, if_pos ⟨by unfold numIsr; omega, by omega⟩, Nat.mul_div_cancel_left _ (by decide),
    BitVec.ofNat_toNat, BitVec.setWidth_eq]

theorem GatesHold.congr (h : GatesHold isr r m) (hm : ∀ x, InGates r.base x → m' x = m x) :
    GatesHold isr r m' := by
  intro v
  have hgate : m'.idtGate (gateOf r.base v) = m.idtGate (gateOf r.base v) := by
    refine Mem.idtGate_congr fun i hi => hm _ ?_
    have hv := v.isLt
    rw [gateOf, BitVec.add_assoc, ← BitVec.ofNat_add]
    exact inBytes_add (by unfold numIsr; omega) (by decide)
  rw [← h v, Idtr.entry, Idtr.entry, hgate]

theorem mem_x86IntHandler {frame x : Word} {body : List KernelAct}
    (hbody : body.foldl (KernelAct.exec intTable) m x = m x) :
    (x86IntHandler intTable m frame body).2 x = m x := by
  simp only [x86IntHandler, platformIntHandler]
  split_ifs
  · rfl
  · rfl
  · exact hbody
  · rfl
  · rfl

theorem Interrupt.mem_serve {i : Interrupt} (hi : i.Admissible intTable)
    (hs : (KernelEvent.interrupt i).SparesGates idt) (c : Machine) {x : Word} (hx : InGates idt x)
    (ht : ¬ InTable intTable x) : (i.serve intTable c).2.mem x = c.mem x := by
  obtain ⟨hstack, hspill, hbody⟩ := hs
  have hkeep : i.spilled (i.entry c) x = c.mem x := by
    refine (foldl_apply i.spill (fun p hp m => ?_) _).trans (mem_isrEntry _ _ _ _ _ _ c ?_)
    · exact Function.update_of_ne (fun e : x = p.1 => hspill p hp (e ▸ hx)) _ _
    · exact fun hin => hstack x hin hx
  have hacts : i.body.foldl (KernelAct.exec intTable) (i.spilled (i.entry c)) x =
      i.spilled (i.entry c) x :=
    foldl_apply i.body (fun act hact => KernelAct.exec_apply (hi.body act hact) ht fun b he =>
      hbody x b (he ▸ hact) hx) _
  have hserve : (i.serve intTable c).2.mem =
      (x86IntHandler intTable (i.spilled (i.entry c)) ((i.entry c).reg .rdi) i.body).2 := rfl
  rw [hserve, mem_x86IntHandler hacts, hkeep]

/-- Every event leaves the gates alone. -/
theorem KernelEvent.mem_exec {e : KernelEvent} (he : e.Admissible intTable) (hs : e.SparesGates idt)
    (c : Machine) {x : Word} (hx : InGates idt x) (ht : ¬ InTable intTable x) :
    (e.exec intTable c).2.mem x = c.mem x := by
  cases e with
  | compute f => rfl
  | act a => exact KernelAct.exec_apply he ht (fun b ha => hs x b ha hx) c.mem
  | interrupt i => exact i.mem_serve he hs c hx ht

/-- Through gates that hold, an interrupt enters the stub of its vector. -/
theorem GatesHold.through (h : GatesHold isr r c.mem) (intTable : Word) (e : KernelEvent) :
    e.through intTable isr r c = some (e.exec intTable c) := by
  cases e with
  | compute f => rfl
  | act a => rfl
  | interrupt i =>
      rw [KernelEvent.through, h i.vector, Option.bind_eq_bind, Option.bind_some, stubAt_stub]
      rfl

def GatedStep (intTable isr : Word) (r : Idtr) (c : Machine) (e : KernelEvent) (o : Option IsrCall)
    (c' : Machine) : Prop :=
  e.Admissible intTable ∧ e.SparesGates r.base ∧ e.through intTable isr r c = some (o, c')

/-- With gates that hold at its start, a run is one of the kernel without gates, and they hold at
its end. -/
theorem GatesHold.run (h : GatesHold isr r c.mem) (hapart : ∀ x, InGates r.base x → ¬ InTable intTable x)
    {c' : Machine} {es : List KernelEvent} {os : List (Option IsrCall)}
    (hr : Run (GatedStep intTable isr r) c es os c') :
    Run (KernelStep intTable) c es os c' ∧ GatesHold isr r c'.mem := by
  induction hr with
  | nil c => exact ⟨.nil c, h⟩
  | @cons c d _ e _ _ _ hstep _ ih =>
      obtain ⟨he, hs, hthrough⟩ := hstep
      rw [h.through] at hthrough
      have hexec := Option.some.inj hthrough
      have hmem : ∀ x, InGates r.base x → d.mem x = c.mem x := by
        intro x hx
        have hkeep := KernelEvent.mem_exec he hs c hx (hapart x hx)
        rwa [hexec] at hkeep
      obtain ⟨hrun, hend⟩ := ih (h.congr hmem)
      exact ⟨.cons ⟨he, hexec⟩ hrun, hend⟩

theorem GatesHold.exists_run (h : GatesHold isr r c.mem)
    (hapart : ∀ x, InGates r.base x → ¬ InTable intTable x) {es : List KernelEvent}
    (hes : ∀ e ∈ es, e.Admissible intTable ∧ e.SparesGates r.base) :
    ∃ os c', Run (GatedStep intTable isr r) c es os c' := by
  induction es generalizing c with
  | nil => exact ⟨[], c, .nil c⟩
  | cons e es ih =>
      obtain ⟨⟨he, hs⟩, hrest⟩ := List.forall_mem_cons.mp hes
      have hnext : GatesHold isr r (e.exec intTable c).2.mem :=
        h.congr fun x hx => KernelEvent.mem_exec he hs c hx (hapart x hx)
      obtain ⟨os, c', hrun⟩ := ih hnext hrest
      exact ⟨_, c', .cons ⟨he, hs, h.through intTable e⟩ hrun⟩

/-- What the linker and the loader leave of `_idt`, `_idtr` and `int_table`. -/
structure IdtImage (intTable idt idtr : Word) (m : Mem) : Prop where
  type : ∀ v : BitVec 8, (m.idtGate (gateOf idt v)).type = 0x8e
  limit : m.get16 idtr = 4095
  base : m.get64 (idtr + 2) = idt
  zero : ∀ x, InTable intTable x → m x = 0
  idtrApart : ∀ i < 10, ¬ InGates idt (idtr + BitVec.ofNat 64 i)
  tableApart : ∀ x, InGates idt x → ¬ InTable intTable x

variable {idtr : Word}

/-- `setup_idt` makes the gates lead to the stubs. -/
theorem IdtImage.setupIdt (h : IdtImage intTable idt idtr m) {c₀ : Machine} (hm : c₀.mem = m)
    (hset : Settles (fun fuel => setupIdt 16 isr idt idtr fuel c₀) (c, r)) :
    r.base = idt ∧ GatesHold isr r c.mem ∧ ∀ x, InTable intTable x → c.mem x = 0 := by
  obtain ⟨c', hset', hprepared⟩ := exists_setupIdt isr idt idtr 16 c₀
  have hr := setupIdt_idtr hset h.idtrApart
  rw [hm, h.limit, h.base] at hr
  obtain ⟨rfl, -⟩ := Prod.mk.inj (hset.unique hset')
  dsimp only at hr
  subst hr
  refine ⟨rfl, fun v => ?_, fun x hx => ?_⟩
  · have hv := v.isLt
    have hgate := hprepared.gates v.toNat hv
    rw [hm] at hgate
    have hentry : (c'.exec .ret).mem.idtGate (gateOf idt v) =
        (m.idtGate (gateOf idt v)).withOffset (isr + BitVec.ofNat 64 v.toNat * 16) := hgate
    rw [Idtr.entry, hentry, IdtGate.offset_withOffset, if_pos, BitVec.ofNat_toNat]
    refine ⟨?_, h.type v⟩
    change 16 * v.toNat + 15 ≤ 4095
    omega
  · refine (hprepared.frame x fun hin => h.tableApart x hin hx).trans ?_
    rw [hm, h.zero x hx]

/-- From `setup_idt` on, in every run of computations, registrations, stores and interrupts that
spares the gates, the gates lead to the stubs and no interrupt fails there, the routines that were
registered last for the vectors from 0x20 on are called, and no interrupt can be seen in the registers. -/
theorem interrupts_through_gates {c₀ c' : Machine} (himage : IdtImage intTable idt idtr c₀.mem)
    (hset : Settles (fun fuel => setupIdt 16 isr idt idtr fuel c₀) (c, r)) {es : List KernelEvent}
    {os : List (Option IsrCall)} (hr : Run (GatedStep intTable isr r) c es os c') :
    os = (Simulation.run Handlers.step (fun _ => NULL) es).1 ∧
    (c'.reg, c'.rip) = es.foldl KernelEvent.computed (c.reg, c.rip) ∧ GatesHold isr r c'.mem ∧
    ∀ e : KernelEvent, e.Admissible intTable → e.SparesGates idt →
      ∃ o c'', GatedStep intTable isr r c' e o c'' := by
  obtain ⟨rfl, hgates, hzero⟩ := himage.setupIdt rfl hset
  obtain ⟨hrun, hend⟩ := hgates.run himage.tableApart hr
  refine ⟨?_, ?_, hend, fun e he hs => ⟨_, _, he, hs, hend.through intTable e⟩⟩
  · exact ((simulates_handlers intTable).run (tableHolds_zero hzero) hrun).1.symm
  · exact computed_of_run ⟨_, tableHolds_zero hzero⟩ hrun

end

/-- `_idt` at 0x20000 and `_idtr` at 0x40000 as they are linked. -/
def sampleIdt : Mem := fun a =>
  if a = 0x40000 then 0xff else if a = 0x40001 then 0x0f else if a = 0x40004 then 0x02
  else if (a - 0x20000).toNat < 4096 ∧ (a - 0x20000).toNat % 16 = 5 then 0x8e else 0

theorem sampleIdt_image : IdtImage 0x10000 0x20000 0x40000 sampleIdt where
  type v := by
    have hv := v.isLt
    have htoNat : (gateOf 0x20000 v + 5 - 0x20000).toNat = 16 * v.toNat + 5 := by
      rw [gateOf, BitVec.add_assoc, BitVec.add_comm 0x20000, BitVec.add_sub_cancel, BitVec.toNat_add,
        BitVec.toNat_ofNat]
      change (16 * v.toNat % 2 ^ 64 + 5) % 2 ^ 64 = _
      omega
    have hne : ∀ a : Word, 4096 ≤ (a - 0x20000).toNat → gateOf 0x20000 v + 5 ≠ a := by
      rintro a ha rfl
      omega
    change sampleIdt (gateOf 0x20000 v + 5) = 0x8e
    rw [sampleIdt, if_neg (hne _ (by decide)), if_neg (hne _ (by decide)), if_neg (hne _ (by decide)),
      htoNat, if_pos (by omega)]
  limit := by decide
  base := by decide
  zero x hx := by
    unfold InTable InBytes at hx
    have hne : ∀ a : Word, 24 * 256 ≤ (a - 0x10000).toNat → x ≠ a := by
      rintro a ha rfl
      omega
    rw [sampleIdt, if_neg (hne _ (by decide)), if_neg (hne _ (by decide)), if_neg (hne _ (by decide)),
      if_neg]
    bv_omega
  idtrApart := by
    simp only [InGates, InBytes, numIsr]
    decide
  tableApart x hx ht := by
    simp only [InGates, InTable, InBytes, numIsr] at hx ht
    bv_omega

theorem sampleEvents_spare : ∀ e ∈ sampleEvents, e.SparesGates 0x20000 := by
  have hi : (KernelEvent.interrupt sampleInterrupt).SparesGates 0x20000 := by
    refine ⟨fun x hx hin => ?_, ?_, ?_⟩
    · simp only [Interrupt.OnStack, InGates, InBytes, numIsr, sampleInterrupt] at hx hin
      bv_omega
    · intro p hp
      obtain rfl := List.mem_singleton.mp hp
      unfold InGates InBytes
      decide
    · intro x b hact
      cases List.mem_singleton.mp hact
  intro e he
  simp only [sampleEvents, List.mem_cons, List.not_mem_nil, or_false] at he
  rcases he with rfl | rfl | rfl | rfl
  · exact hi
  · rintro x b ⟨⟩
  · trivial
  · exact hi

/-- The timer of `sampleEvents`, from `setup_idt` on. -/
theorem interrupts_through_gates_sample : ∃ c r c', Settles (fun fuel =>
      setupIdt 16 0x80000 0x20000 0x40000 fuel ⟨sampleInterrupted.reg, 0x1000, true, sampleIdt⟩) (c, r) ∧
    Run (GatedStep 0x10000 0x80000 r) c sampleEvents [none, none, none, some ⟨33, 0x1234, NULL⟩] c' ∧
    GatesHold 0x80000 r c'.mem := by
  obtain ⟨c, hset, -⟩ := exists_setupIdt 0x80000 0x20000 0x40000 16 ⟨sampleInterrupted.reg, 0x1000, true, sampleIdt⟩
  obtain ⟨hbase, hgates, -⟩ := sampleIdt_image.setupIdt rfl hset
  have hspares : ∀ e ∈ sampleEvents, e.Admissible 0x10000 ∧ e.SparesGates 0x20000 :=
    fun e he => ⟨sampleEvents_admissible e he, sampleEvents_spare e he⟩
  rw [← hbase] at hspares
  obtain ⟨os, c', hrun⟩ := hgates.exists_run (hbase ▸ sampleIdt_image.tableApart) hspares
  obtain ⟨hos, -, hend, -⟩ := interrupts_through_gates sampleIdt_image hset hrun
  rw [hos] at hrun
  exact ⟨_, _, c', hset, hrun, hend⟩

end Rix
