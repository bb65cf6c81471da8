import Rix.Machine

/-!
# The context switch of `cswitch.S`

`cswitch(&own, &other)` leaves the registers that a callee keeps on the stack of the thread that
calls it and resumes the other thread. The second operand of a move is its destination, so
`movq %rbp, %rsp` takes the stack pointer from the caller's frame pointer.
-/
namespace Rix
open Machine

/-- `cswitch` up to the store of the stack pointer. -/
def cswitchSave : List Insn :=
  [.push .rbp, .mov .rbp .rsp, .push .r15, .push .r14, .push .r13, .push .r12, .push .rbx,
    .push .rbp, .store .rsp .rdi]

/-- `cswitch` from the load of the other thread's stack pointer on. -/
def cswitchResume : List Insn :=
  [.load .rsi .rsp, .pop .rbp, .pop .rbx, .pop .r12, .pop .r13, .pop .r14, .pop .r15, .leave, .ret]

def cswitch : List Insn := cswitchSave ++ cswitchResume

def cswitchRegs : List Reg := [.rbp, .rbx, .r12, .r13, .r14, .r15]

/-- The bytes that the pushes of `cswitch` store to. -/
def CswitchPushed (c : Machine) (x : Word) : Prop :=
  InBytes (c.reg .rsp - 8) 8 x ∨ InBytes (c.reg .rbp - 48) 48 x

def cswitchPushes (c : Machine) : Machine :=
  ((c.pushWord (c.reg .rbp)).setReg .rsp (c.reg .rbp)).pushWords (cswitchRegs.reverse.map c.reg)

section Halves

variable {c : Machine} {sp : Word}

theorem run_cswitchSave (c : Machine) :
    c.run cswitchSave = (cswitchPushes c).exec (.store .rsp .rdi) := by
  have hrbp : (c.pushWord (c.reg .rbp)).reg .rbp = c.reg .rbp := pushWord_of_ne c (by decide) _
  have hmap : cswitchRegs.reverse.map ((c.pushWord (c.reg .rbp)).setReg .rsp (c.reg .rbp)).reg =
      cswitchRegs.reverse.map c.reg := List.map_congr_left fun r hr => by
    have hne : r ≠ .rsp := by
      rintro rfl
      exact absurd hr (by decide)
    rw [setReg_of_ne _ hne, pushWord_of_ne _ hne]
  rw [cswitchPushes, ← hmap, ← run_push (by decide)]
  nth_rewrite 2 [← hrbp]
  rfl

theorem reg_cswitchPushes (c : Machine) {r : Reg} (hr : r ≠ .rsp) :
    (cswitchPushes c).reg r = c.reg r := by
  rw [cswitchPushes, pushWords_of_ne _ _ hr, setReg_of_ne _ hr, pushWord_of_ne _ hr]

theorem rsp_cswitchPushes (c : Machine) : (cswitchPushes c).reg .rsp = c.reg .rbp - 48 := by
  rw [cswitchPushes, pushWords_rsp, setReg_self]
  rfl

theorem reg_run_cswitchSave (c : Machine) {r : Reg} (hr : r ≠ .rsp) :
    (c.run cswitchSave).reg r = c.reg r := by
  rw [run_cswitchSave, exec_store_reg, reg_cswitchPushes c hr]

theorem words_cswitchPushes (c : Machine) :
    Words (cswitchPushes c).mem (c.reg .rbp - 48) (cswitchRegs.map c.reg) := by
  have h := words_pushWords ((c.pushWord (c.reg .rbp)).setReg .rsp (c.reg .rbp))
    (cswitchRegs.reverse.map c.reg) (show Words _ _ [] from trivial)
    (show 8 * (6 + 0) ≤ 2 ^ 64 by decide)
  rw [← List.map_reverse, List.reverse_reverse, List.append_nil] at h
  rw [← rsp_cswitchPushes]
  exact h

theorem mem_cswitchPushes {x : Word} (hx : ¬ InBytes (c.reg .rbp - 48) 48 x) :
    (cswitchPushes c).mem x = c.mem.set64 (c.reg .rsp - 8) (c.reg .rbp) x := by
  rw [cswitchPushes, mem_pushWords _ (cswitchRegs.reverse.map c.reg)
    (show 8 * 6 ≤ 2 ^ 64 by decide) (by rw [setReg_self]; exact hx), setReg_mem, pushWord_mem]

theorem mem_run_cswitchResume (c : Machine) : (c.run cswitchResume).mem = c.mem := rfl

theorem run_cswitchResume (f : Reg → Word) (hsp : c.mem.get64 (c.reg .rsi) = sp)
    (hw : Words c.mem sp (cswitchRegs.map f)) :
    (∀ r ∈ [Reg.rbx, .r12, .r13, .r14, .r15], (c.run cswitchResume).reg r = f r) ∧
    (c.run cswitchResume).reg .rsp = f .rbp + 16 ∧
    (c.run cswitchResume).reg .rbp = c.mem.get64 (f .rbp) ∧
    (c.run cswitchResume).rip = c.mem.get64 (f .rbp + 8) := by
  have hload : c.exec (.load .rsi .rsp) = c.setReg .rsp sp := by rw [← hsp]; rfl
  have hpops : c.run cswitchResume =
      (((c.setReg .rsp sp).run (cswitchRegs.map .pop)).exec .leave).exec .ret := by
    have hlist : cswitchResume = .load .rsi .rsp :: (cswitchRegs.map .pop ++ [.leave, .ret]) := rfl
    rw [hlist, run_cons, run_append, run_cons, run_cons, hload]
    rfl
  have hwords : Words (c.setReg .rsp sp).mem ((c.setReg .rsp sp).reg .rsp) (cswitchRegs.map f) := by
    rwa [setReg_self, setReg_mem]
  obtain ⟨hregs, -, -⟩ := reg_run_pop cswitchRegs (by decide) f hwords
  have hmem := mem_run_pop cswitchRegs (c.setReg .rsp sp)
  rw [setReg_mem] at hmem
  rw [hpops]
  generalize (c.setReg .rsp sp).run (cswitchRegs.map .pop) = c' at hregs hmem
  have hrbp := hregs .rbp (by decide)
  refine ⟨fun r hr => ?_, ?_, ?_, ?_⟩
  · have hne : r ≠ .rsp ∧ r ≠ .rbp ∧ r ∈ cswitchRegs := by
      fin_cases hr <;> decide
    exact (setReg_of_ne _ hne.1 _).trans ((setReg_of_ne _ hne.2.1 _).trans
      ((setReg_of_ne _ hne.1 _).trans (hregs r hne.2.2)))
  · show (c'.reg .rbp + 8) + 8 = _
    rw [hrbp, BitVec.add_assoc]
    rfl
  · show c'.mem.get64 (c'.reg .rbp) = _
    rw [hrbp, hmem]
  · show c'.mem.get64 (c'.reg .rbp + 8) = _
    rw [hrbp, hmem]

end Halves

/-- A thread whose stack is `stack` calls `cswitch(&own, &other)`: the state behind the call, with
the return address where `rsp` points. -/
structure SwitchCall (stack : Word → Prop) (own other : Word) (c : Machine) : Prop where
  rdi : c.reg .rdi = own
  rsi : c.reg .rsi = other
  slot : ∀ x, InBytes (c.reg .rsp) 8 x → stack x
  pushed : ∀ x, CswitchPushed c x → stack x
  own_off : ∀ x, InBytes own 8 x → ¬ stack x

/-- `A` switches to `B` in state `a`, `B` runs without writing `A`'s stack or `a_sp` and switches
back in state `b`. -/
structure SwitchRun (stackA stackB : Word → Prop) (aSp bSp : Word) (a b : Machine) : Prop where
  callA : SwitchCall stackA aSp bSp a
  callB : SwitchCall stackB bSp aSp b
  disjoint : ∀ x, stackA x → ¬ stackB x
  aSp_off : ∀ x, InBytes aSp 8 x → ¬ stackB x ∧ ¬ InBytes bSp 8 x
  bSp_off : ∀ x, InBytes bSp 8 x → ¬ stackA x
  kept : ∀ x, stackA x ∨ InBytes aSp 8 x → b.mem x = (a.run cswitch).mem x
  /-- The words below the return address do not wrap around. -/
  room : 56 ≤ (a.reg .rsp).toNat

/-- `A` goes on in state `a'` as after a return from the call it made in state `a`. -/
structure Resumes (stackA : Word → Prop) (a a' : Machine) : Prop where
  rip : a'.rip = a.mem.get64 (a.reg .rsp)
  rsp : a'.reg .rsp = a.reg .rsp + 8
  callee : ∀ r ∈ [Reg.rbx, .rbp, .r12, .r13, .r14, .r15], a'.reg r = a.reg r
  stack : ∀ x, stackA x → (a.reg .rsp).toNat ≤ x.toNat → a'.mem x = a.mem x

section RoundTrip

variable {stackA stackB stack : Word → Prop} {aSp bSp own other : Word} {a b c : Machine} {x : Word}

theorem mem_run_cswitchSave (h : SwitchCall stack own other c) (hx : ¬ InBytes own 8 x) :
    (c.run cswitchSave).mem x = (cswitchPushes c).mem x := by
  rw [run_cswitchSave, exec_store_mem, reg_cswitchPushes c (by decide), h.rdi,
    Mem.set64_of_not_inBytes _ _ hx]

theorem mem_run_cswitchSave_of_not_pushed (h : SwitchCall stack own other c) (hx : ¬ InBytes own 8 x)
    (hp : ¬ CswitchPushed c x) : (c.run cswitchSave).mem x = c.mem x := by
  obtain ⟨h1, h2⟩ := not_or.mp hp
  rw [mem_run_cswitchSave h hx, mem_cswitchPushes h2, Mem.set64_of_not_inBytes _ _ h1]

theorem get64_own (h : SwitchCall stack own other c) :
    (c.run cswitchSave).mem.get64 own = c.reg .rbp - 48 := by
  rw [run_cswitchSave, exec_store_mem, reg_cswitchPushes c (by decide), h.rdi, rsp_cswitchPushes,
    Mem.get64_set64_self]

theorem words_run_cswitchSave (h : SwitchCall stack own other c) :
    Words (c.run cswitchSave).mem (c.reg .rbp - 48) (cswitchRegs.map c.reg) :=
  (words_cswitchPushes c).congr fun i hi => mem_run_cswitchSave h fun hb =>
    h.own_off _ hb (h.pushed _ (.inr (inBytes_add hi (by decide))))

namespace SwitchRun

/-- What `B` and its call leave of `A`'s memory. -/
theorem mem_eq (h : SwitchRun stackA stackB aSp bSp a b) (hx : stackA x ∨ InBytes aSp 8 x) :
    (b.run cswitchSave).mem x = (a.run cswitchSave).mem x := by
  have hb : ¬ stackB x ∧ ¬ InBytes bSp 8 x := hx.elim
    (fun hA => ⟨h.disjoint x hA, fun hb => h.bSp_off x hb hA⟩) (h.aSp_off x)
  rw [mem_run_cswitchSave_of_not_pushed h.callB hb.2 fun hp => hb.1 (h.callB.pushed x hp),
    h.kept x hx, cswitch, run_append, mem_run_cswitchResume]

theorem get64_eq (h : SwitchRun stackA stackB aSp bSp a b) {p : Word}
    (hp : ∀ x, InBytes p 8 x → stackA x ∨ InBytes aSp 8 x) :
    (b.run cswitchSave).mem.get64 p = (a.run cswitchSave).mem.get64 p :=
  Mem.get64_congr fun _ hi => h.mem_eq (hp _ (inBytes_add hi (by decide)))

/-- Where `A` goes on, whatever its frame pointer was. -/
theorem resume (h : SwitchRun stackA stackB aSp bSp a b) :
    (∀ r ∈ [Reg.rbx, .r12, .r13, .r14, .r15], (b.run cswitch).reg r = a.reg r) ∧
    (b.run cswitch).reg .rsp = a.reg .rbp + 16 ∧
    (b.run cswitch).reg .rbp = (b.run cswitchSave).mem.get64 (a.reg .rbp) ∧
    (b.run cswitch).rip = (b.run cswitchSave).mem.get64 (a.reg .rbp + 8) := by
  have hsp : (b.run cswitchSave).mem.get64 ((b.run cswitchSave).reg .rsi) = a.reg .rbp - 48 := by
    rw [reg_run_cswitchSave b (by decide), h.callB.rsi, h.get64_eq fun x hx => .inr hx,
      get64_own h.callA]
  have hw : Words (b.run cswitchSave).mem (a.reg .rbp - 48) (cswitchRegs.map a.reg) :=
    (words_run_cswitchSave h.callA).congr fun i hi => h.mem_eq (.inl (h.callA.pushed _
      (.inr (inBytes_add hi (by decide)))))
  rw [cswitch, run_append]
  exact run_cswitchResume a.reg hsp hw

/-- A frame pointer that points below the return address keeps the pushes below it. -/
theorem inBytes_of_pushed (hrbp : c.reg .rbp = c.reg .rsp - 8) (hx : CswitchPushed c x) :
    InBytes (c.reg .rsp - 56) 56 x := by
  unfold CswitchPushed InBytes at hx
  rw [hrbp] at hx
  simp only [InBytes, BitVec.toNat_sub, show (8 : Word).toNat = 8 from rfl,
    show (48 : Word).toNat = 48 from rfl, show (56 : Word).toNat = 56 from rfl] at hx ⊢
  omega

theorem mem_above (h : SwitchRun stackA stackB aSp bSp a b) (hframe : a.reg .rbp = a.reg .rsp - 8)
    (hx : stackA x) (hout : ¬ InBytes (a.reg .rsp - 56) 56 x) :
    (b.run cswitchSave).mem x = a.mem x := by
  rw [h.mem_eq (.inl hx), mem_run_cswitchSave_of_not_pushed h.callA
    (fun hb => h.callA.own_off x hb hx) fun hp => hout (inBytes_of_pushed hframe hp)]

theorem returnAddress (h : SwitchRun stackA stackB aSp bSp a b)
    (hframe : a.reg .rbp = a.reg .rsp - 8) :
    (b.run cswitchSave).mem.get64 (a.reg .rsp) = a.mem.get64 (a.reg .rsp) := by
  refine Mem.get64_congr fun i hi =>
    h.mem_above hframe (h.callA.slot _ (inBytes_add hi (by decide))) ?_
  simp only [InBytes, BitVec.toNat_sub, BitVec.toNat_add, BitVec.toNat_ofNat,
    show (56 : Word).toNat = 56 from rfl]
  omega

/-- The frame pointer comes from the first push. -/
theorem framePointer (h : SwitchRun stackA stackB aSp bSp a b)
    (hframe : a.reg .rbp = a.reg .rsp - 8) :
    (b.run cswitchSave).mem.get64 (a.reg .rbp) = a.reg .rbp := by
  rw [h.get64_eq fun x hx => .inl (h.callA.pushed x (.inl (hframe ▸ hx))), hframe,
    Mem.get64_congr (m := a.mem.set64 (a.reg .rsp - 8) (a.reg .rbp)) fun i hi => ?_,
    Mem.get64_set64_self, hframe]
  have hin : InBytes (a.reg .rsp - 8) 8 (a.reg .rsp - 8 + BitVec.ofNat 64 i) :=
    inBytes_add hi (by decide)
  rw [mem_run_cswitchSave h.callA fun hb => h.callA.own_off _ hb (h.callA.pushed _ (.inl hin)),
    mem_cswitchPushes]
  rw [hframe]
  simp only [InBytes, BitVec.toNat_sub, BitVec.toNat_add, BitVec.toNat_ofNat,
    show (8 : Word).toNat = 8 from rfl, show (48 : Word).toNat = 48 from rfl]
  omega

/-- The stack pointer of the thread that goes on is that of a normal return in one case only. -/
theorem rsp_eq_iff (a : Machine) :
    a.reg .rbp + 16 = a.reg .rsp + 8 ↔ a.reg .rbp = a.reg .rsp - 8 := by
  rw [← BitVec.toNat_inj, ← BitVec.toNat_inj, BitVec.toNat_add, BitVec.toNat_add, BitVec.toNat_sub,
    show (8 : Word).toNat = 8 from rfl, show (16 : Word).toNat = 16 from rfl]
  omega

end SwitchRun

/-- `A` goes on as after a return when, and only when, its frame pointer pointed to the word below
the return address. -/
theorem resumes_iff (h : SwitchRun stackA stackB aSp bSp a b) :
    Resumes stackA a (b.run cswitch) ↔ a.reg .rbp = a.reg .rsp - 8 := by
  obtain ⟨hregs, hrsp, hrbp, hrip⟩ := h.resume
  constructor
  · intro hres
    exact (SwitchRun.rsp_eq_iff a).mp (hrsp.symm.trans hres.rsp)
  · intro hframe
    refine ⟨?_, hrsp.trans ((SwitchRun.rsp_eq_iff a).mpr hframe), fun r hr => ?_, fun x hx hle => ?_⟩
    · rw [hrip, ← h.returnAddress hframe, hframe,
        show a.reg .rsp - 8 + 8 = a.reg .rsp from BitVec.sub_add_cancel _ _]
    · by_cases hr' : r = .rbp
      · subst hr'
        exact hrbp.trans (h.framePointer hframe)
      · refine hregs r ?_
        fin_cases hr <;> first | exact absurd rfl hr' | decide
    · rw [cswitch, run_append, mem_run_cswitchResume]
      refine h.mem_above hframe hx ?_
      have hroom := h.room
      have := x.isLt
      simp only [InBytes, BitVec.toNat_sub, show (56 : Word).toNat = 56 from rfl]
      omega

end RoundTrip

def sampleCall (rsp rbp own other : Word) (m : Mem) : Machine where
  reg := fun
    | .rsp => rsp
    | .rbp => rbp
    | .rdi => own
    | .rsi => other
    | .rax => rsp + 1
    | .rcx => rsp + 2
    | .rdx => rsp + 3
    | .rbx => rsp + 4
    | .r8 => rsp + 5
    | .r9 => rsp + 6
    | .r10 => rsp + 7
    | .r11 => rsp + 9
    | .r12 => rsp + 10
    | .r13 => rsp + 11
    | .r14 => rsp + 12
    | .r15 => rsp + 13
  rip := rsp + 14
  df := false
  mem := m

def StackFrom (lo hi : ℕ) (x : Word) : Prop := lo ≤ x.toNat ∧ x.toNat < hi

theorem sampleCall_switchCall {rsp rbp own other : Word} (m : Mem) {lo hi : ℕ}
    (hrsp : lo + 8 ≤ rsp.toNat ∧ rsp.toNat + 8 ≤ hi) (hrbp : lo + 48 ≤ rbp.toNat ∧ rbp.toNat ≤ hi)
    (hown : hi ≤ own.toNat ∧ own.toNat + 8 ≤ 2 ^ 64) :
    SwitchCall (StackFrom lo hi) own other (sampleCall rsp rbp own other m) where
  rdi := rfl
  rsi := rfl
  slot x hx := by
    have := x.isLt
    simp only [StackFrom, InBytes, sampleCall, BitVec.toNat_sub] at hx ⊢
    omega
  pushed x hx := by
    have := x.isLt
    simp only [StackFrom, CswitchPushed, InBytes, sampleCall, BitVec.toNat_sub,
      show (8 : Word).toNat = 8 from rfl, show (48 : Word).toNat = 48 from rfl] at hx ⊢
    omega
  own_off x hx hin := by
    simp only [StackFrom, InBytes, BitVec.toNat_sub] at hx hin
    omega

/-- Two threads with stacks from 0x1000 to 0x3000 and from 0x3000 to 0x5000 switch there and
back. -/
theorem sample_switchRun {rbp : Word} (hrbp : 0x1030 ≤ rbp.toNat ∧ rbp.toNat ≤ 0x3000) (m : Mem) :
    SwitchRun (StackFrom 0x1000 0x3000) (StackFrom 0x3000 0x5000) 0x5000 0x5008
      (sampleCall 0x2000 rbp 0x5000 0x5008 m)
      (sampleCall 0x4000 0x3ff8 0x5008 0x5000
        ((sampleCall 0x2000 rbp 0x5000 0x5008 m).run cswitch).mem) where
  callA := sampleCall_switchCall _ (by decide) hrbp (by decide)
  callB := sampleCall_switchCall _ (by decide) (by decide) (by decide)
  disjoint x hA hB := by
    unfold StackFrom at hA hB
    omega
  aSp_off x hx := by
    have := x.isLt
    simp only [StackFrom, InBytes, BitVec.toNat_sub, show (0x5000 : Word).toNat = 0x5000 from rfl,
      show (0x5008 : Word).toNat = 0x5008 from rfl] at hx ⊢
    omega
  bSp_off x hx hin := by
    simp only [StackFrom, InBytes, BitVec.toNat_sub, show (0x5008 : Word).toNat = 0x5008 from rfl]
      at hx hin
    omega
  kept _ _ := rfl
  room := show 56 ≤ (0x2000 : Word).toNat by decide

/-- The first thread comes back from the second, over memory with the low byte of its address at each
address. -/
theorem resumes_iff_sample : Resumes (StackFrom 0x1000 0x3000)
    (sampleCall 0x2000 0x1ff8 0x5000 0x5008 (BitVec.setWidth 8))
    ((sampleCall 0x4000 0x3ff8 0x5008 0x5000
      ((sampleCall 0x2000 0x1ff8 0x5000 0x5008 (BitVec.setWidth 8)).run cswitch).mem).run cswitch) :=
  (resumes_iff (sample_switchRun (by decide) _)).mpr rfl

/-- A caller whose frame pointer points into its own frame is resumed with the wrong stack
pointer. -/
theorem frame_pointer_in_frame : ¬ ∀ (stackA stackB : Word → Prop) (aSp bSp : Word) (a b : Machine),
    SwitchRun stackA stackB aSp bSp a b → Resumes stackA a (b.run cswitch) := by
  intro hall
  have hrun := sample_switchRun
    (show 0x1030 ≤ (0x2008 : Word).toNat ∧ (0x2008 : Word).toNat ≤ 0x3000 by decide) fun _ => 0
  have hrsp := (hall _ _ _ _ _ _ hrun).rsp
  rw [hrun.resume.2.1] at hrsp
  exact absurd hrsp (by decide)

end Rix
