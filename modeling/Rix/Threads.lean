import Rix.Cswitch
import Rix.Simulation

/-!
# Any number of threads under `cswitch`

Each thread has a stack and a place for its stack pointer. A thread runs its own code or calls
`cswitch` to go over to any other thread. Over it, a scheduler that keeps for every thread the
context in which it goes on: that behind the function that had called `cswitch`.
-/
namespace Rix
open Machine Simulation

/-- Where the threads keep their stacks and their stack pointers, apart from each other. -/
structure Threads (ι : Type*) where
  stack : ι → Word → Prop
  slot : ι → Word
  disjoint : ∀ i j x, i ≠ j → stack i x → ¬ stack j x
  slot_off : ∀ i j x, InBytes (slot i) 8 x → ¬ stack j x
  slots_apart : ∀ i j x, i ≠ j → InBytes (slot i) 8 x → ¬ InBytes (slot j) 8 x

/-- A call of `cswitch` by a function that keeps its frame pointer, as `-O0` compiles every one: it
points above the return address of the call, at the old frame pointer and the return address. -/
structure FramedCall (stack : Word → Prop) (own other : Word) (c : Machine) : Prop
    extends SwitchCall stack own other c where
  frame : ∀ x, InBytes (c.reg .rbp) 16 x → stack x
  above : (c.reg .rsp).toNat + 8 ≤ (c.reg .rbp).toNat
  room : 56 ≤ (c.reg .rsp).toNat
  top : (c.reg .rbp).toNat + 16 < 2 ^ 64

/-- What a thread goes on with: where, the registers that a callee keeps and the stack pointer, and
its stack from there on. -/
@[ext] structure Context where
  rip : Word
  regs : List Word
  live : Set (Word × Byte)

def keptRegs : List Reg := [.rsp, .rbp, .rbx, .r12, .r13, .r14, .r15]

def context (stack : Word → Prop) (c : Machine) : Context where
  rip := c.rip
  regs := keptRegs.map c.reg
  live := {p | stack p.1 ∧ (c.reg .rsp).toNat ≤ p.1.toNat ∧ c.mem p.1 = p.2}

/-- `leave; ret`: how the function that the code of `c` belongs to ends. -/
def epilogue (c : Machine) : Machine := (c.exec .leave).exec .ret

structure System (ι : Type*) where
  current : ι
  machine : Machine

inductive SchedEvent (ι : Type*) where
  /-- The thread runs until the machine is in the state `c`. -/
  | runs (c : Machine)
  /-- The thread `own` calls `cswitch` in the state `c` to go over to `next`. -/
  | switch (own next : ι) (c : Machine)

section Threads

variable {ι : Type*}

/-- A thread writes neither another thread's stack nor any stack pointer. -/
def Threads.Kept (T : Threads ι) (i : ι) (x : Word) : Prop :=
  (∃ j, j ≠ i ∧ T.stack j x) ∨ ∃ j, InBytes (T.slot j) 8 x

/-- The output of a switch is the context in which the next thread goes on. -/
def SchedStep (T : Threads ι) (s : System ι) (e : SchedEvent ι) (o : Option Context)
    (s' : System ι) : Prop :=
  match e with
  | .runs c => (∀ x, T.Kept s.current x → c.mem x = s.machine.mem x) ∧ o = none ∧
      s' = ⟨s.current, c⟩
  | .switch own next c => own = s.current ∧ c = s.machine ∧ next ≠ own ∧
      FramedCall (T.stack own) (T.slot own) (T.slot next) c ∧
      o = some (context (T.stack next) (c.run cswitch)) ∧ s' = ⟨next, c.run cswitch⟩

/-- The scheduler: a thread is left with the context behind the function that called `cswitch`. -/
noncomputable def schedule [DecidableEq ι] (T : Threads ι) (a : ι → Context) :
    SchedEvent ι → Option Context × (ι → Context)
  | .runs _ => (none, a)
  | .switch own next c => (some (a next), Function.update a own (context (T.stack own) (epilogue c)))

/-- The thread `j` waits as a call of `cswitch` has left it, to go on in the context `ctx`. -/
def Threads.Waits (T : Threads ι) (m : Mem) (j : ι) (ctx : Context) : Prop :=
  ∃ b other, FramedCall (T.stack j) (T.slot j) other b ∧ context (T.stack j) (epilogue b) = ctx ∧
    ∀ x, T.stack j x ∨ InBytes (T.slot j) 8 x → m x = (b.run cswitchSave).mem x

/-- All threads but the one that runs wait. -/
def Scheduled (T : Threads ι) (a : ι → Context) (s : System ι) : Prop :=
  ∀ j, j ≠ s.current → T.Waits s.machine.mem j (a j)

section Switch

variable {T : Threads ι} {i j : ι} {own other : Word} {stack : Word → Prop} {b c : Machine} {m : Mem}
  {x : Word}

theorem FramedCall.not_pushed (h : FramedCall stack own other b)
    (hx : (b.reg .rbp).toNat ≤ x.toNat) : ¬ CswitchPushed b x := by
  have h1 := h.above
  have h2 := h.room
  have := x.isLt
  simp only [CswitchPushed, InBytes, BitVec.toNat_sub, show (8 : Word).toNat = 8 from rfl,
    show (48 : Word).toNat = 48 from rfl]
  omega

/-- What lies on the stack from the frame pointer on outlives the call. -/
theorem FramedCall.mem_above (h : FramedCall stack own other b) (hs : stack x)
    (hx : (b.reg .rbp).toNat ≤ x.toNat) : (b.run cswitchSave).mem x = b.mem x :=
  mem_run_cswitchSave_of_not_pushed h.toSwitchCall (fun hin => h.own_off x hin hs) (h.not_pushed hx)

theorem FramedCall.get64_above (h : FramedCall stack own other b) {k : ℕ} (hk : k + 8 ≤ 16) :
    (b.run cswitchSave).mem.get64 (b.reg .rbp + BitVec.ofNat 64 k) =
      b.mem.get64 (b.reg .rbp + BitVec.ofNat 64 k) := by
  have htop := h.top
  refine Mem.get64_congr fun i hi => ?_
  rw [BitVec.add_assoc, ← BitVec.ofNat_add]
  refine h.mem_above (h.frame _ (inBytes_add (by omega) (by decide))) ?_
  rw [toNat_add_ofNat (by omega)]
  omega

theorem epilogue_regs (b : Machine) :
    (epilogue b).reg .rsp = b.reg .rbp + 16 ∧ (epilogue b).reg .rbp = b.mem.get64 (b.reg .rbp) ∧
      ∀ r ∈ [Reg.rbx, .r12, .r13, .r14, .r15], (epilogue b).reg r = b.reg r := by
  refine ⟨?_, rfl, fun r hr => ?_⟩
  · show b.reg .rbp + 8 + 8 = _
    rw [BitVec.add_assoc]
    rfl
  · have hne : r ≠ .rsp ∧ r ≠ .rbp := by
      fin_cases hr <;> decide
    exact (setReg_of_ne _ hne.1 _).trans ((setReg_of_ne _ hne.2 _).trans (setReg_of_ne _ hne.1 _))

theorem context_eq_epilogue {c' : Machine} (hrip : c'.rip = b.mem.get64 (b.reg .rbp + 8))
    (hrsp : c'.reg .rsp = b.reg .rbp + 16) (hrbp : c'.reg .rbp = b.mem.get64 (b.reg .rbp))
    (hregs : ∀ r ∈ [Reg.rbx, .r12, .r13, .r14, .r15], c'.reg r = b.reg r)
    (hmem : ∀ x, stack x → (b.reg .rbp + 16).toNat ≤ x.toNat → c'.mem x = b.mem x) :
    context stack c' = context stack (epilogue b) := by
  obtain ⟨hersp, herbp, heregs⟩ := epilogue_regs b
  refine Context.ext hrip (List.map_congr_left fun r hr => ?_) (Set.ext fun ⟨x, v⟩ => ?_)
  · simp only [keptRegs, List.mem_cons (b := Reg.rsp), List.mem_cons (b := Reg.rbp)] at hr
    rcases hr with rfl | rfl | hr
    · rw [hrsp, hersp]
    · rw [hrbp, herbp]
    · rw [hregs r hr, heregs r hr]
  · show (stack x ∧ (c'.reg .rsp).toNat ≤ x.toNat ∧ c'.mem x = v) ↔
      (stack x ∧ ((epilogue b).reg .rsp).toNat ≤ x.toNat ∧ b.mem x = v)
    rw [hrsp, hersp]
    exact and_congr_right fun hs => and_congr_right fun hle => by rw [hmem x hs hle]

theorem mem_switch (h : FramedCall (T.stack i) (T.slot i) other c) (hne : j ≠ i)
    (hx : T.stack j x ∨ InBytes (T.slot j) 8 x) : (c.run cswitchSave).mem x = c.mem x := by
  refine mem_run_cswitchSave_of_not_pushed h.toSwitchCall (fun hin => ?_) fun hp => ?_
  · rcases hx with hx | hx
    · exact T.slot_off i j x hin hx
    · exact T.slots_apart j i x hne hx hin
  · have hi := h.pushed x hp
    rcases hx with hx | hx
    · exact T.disjoint j i x hne hx hi
    · exact T.slot_off j i x hx hi

/-- The thread that a switch resumes goes on behind the function that had called `cswitch`. -/
theorem context_run_cswitch (h : FramedCall (T.stack i) (T.slot i) (T.slot j) c) (hne : j ≠ i)
    {ctx : Context} (hw : T.Waits c.mem j ctx) : context (T.stack j) (c.run cswitch) = ctx := by
  obtain ⟨b, other, hb, rfl, hmem⟩ := hw
  have hkept : ∀ x, T.stack j x ∨ InBytes (T.slot j) 8 x →
      (c.run cswitchSave).mem x = (b.run cswitchSave).mem x := fun x hx =>
    (mem_switch h hne hx).trans (hmem x hx)
  have hsp : (c.run cswitchSave).mem.get64 ((c.run cswitchSave).reg .rsi) = b.reg .rbp - 48 := by
    rw [reg_run_cswitchSave c (by decide), h.rsi, ← get64_own hb.toSwitchCall]
    exact Mem.get64_congr fun k hk => hkept _ (.inr (inBytes_add hk (by decide)))
  have hwords : Words (c.run cswitchSave).mem (b.reg .rbp - 48) (cswitchRegs.map b.reg) :=
    (words_run_cswitchSave hb.toSwitchCall).congr fun k hk =>
      hkept _ (.inl (hb.pushed _ (.inr (inBytes_add hk (by decide)))))
  have hget : ∀ k, k + 8 ≤ 16 → (c.run cswitchSave).mem.get64 (b.reg .rbp + BitVec.ofNat 64 k) =
      b.mem.get64 (b.reg .rbp + BitVec.ofNat 64 k) := fun k hk => by
    rw [← hb.get64_above hk]
    refine Mem.get64_congr fun d hd => hkept _ (.inl (hb.frame _ ?_))
    rw [BitVec.add_assoc, ← BitVec.ofNat_add]
    exact inBytes_add (by omega) (by decide)
  have htop := hb.top
  obtain ⟨hregs, hrsp, hrbp, hrip⟩ := run_cswitchResume b.reg hsp hwords
  rw [cswitch, run_append]
  refine context_eq_epilogue (hrip.trans (hget 8 (by decide))) hrsp (hrbp.trans ?_) hregs
    fun x hs hle => ?_
  · have h0 := hget 0 (by decide)
    rwa [show b.reg .rbp + BitVec.ofNat 64 0 = b.reg .rbp from BitVec.add_zero _] at h0
  · rw [mem_run_cswitchResume, hkept x (.inl hs)]
    refine hb.mem_above hs ?_
    rw [BitVec.toNat_add, show (16 : Word).toNat = 16 from rfl] at hle
    omega

end Switch

section Run

variable [DecidableEq ι] {T : Threads ι} {a : ι → Context} {s s' : System ι}

/-- Each step of the machine is one of the scheduler. -/
theorem simulates_schedule (T : Threads ι) :
    Simulates (Scheduled T) (SchedStep T) (schedule T) := by
  intro a s e o s' hR hstep
  cases e with
  | runs c =>
      obtain ⟨hkept, rfl, rfl⟩ := hstep
      refine ⟨rfl, fun j hj => ?_⟩
      obtain ⟨b, other, hb, hctx, hmem⟩ := hR j hj
      refine ⟨b, other, hb, hctx, fun x hx => ?_⟩
      rw [hkept x (hx.elim (fun hx => .inl ⟨j, hj, hx⟩) fun hx => .inr ⟨j, hx⟩), hmem x hx]
  | switch own next c =>
      obtain ⟨rfl, rfl, hne, hcall, rfl, rfl⟩ := hstep
      refine ⟨?_, fun j hj => ?_⟩
      · rw [context_run_cswitch hcall hne (hR next hne)]
        rfl
      · have hsave : (s.machine.run cswitch).mem = (s.machine.run cswitchSave).mem := by
          rw [cswitch, run_append, mem_run_cswitchResume]
        by_cases hown : j = s.current
        · -- the thread that called waits behind its own call
          subst hown
          refine ⟨s.machine, T.slot next, hcall, ?_, fun x _ => by rw [hsave]⟩
          show _ = Function.update a s.current _ s.current
          rw [Function.update_self]
        · obtain ⟨b, other, hb, hctx, hmem⟩ := hR j hown
          refine ⟨b, other, hb, ?_, fun x hx => ?_⟩
          · exact hctx.trans (Function.update_of_ne hown _ _).symm
          · rw [hsave, mem_switch hcall hown hx, hmem x hx]

/-- Under any schedule of any number of threads, each switch resumes a thread in the context behind
the function that had called `cswitch` when the thread was left: `cswitch` takes the place of the
`leave; ret` of its caller, which keeps a frame pointer. -/
theorem switches_run_epilogues {es : List (SchedEvent ι)} {os : List (Option Context)}
    (h : Scheduled T a s) (hr : Simulation.Run (SchedStep T) s es os s') :
    os = (Simulation.run (schedule T) a es).1 :=
  ((simulates_schedule T).run h hr).1.symm

end Run

end Threads

def sampleStack (i : Bool) : Word → Prop := if i then StackFrom 0x2000 0x3000 else StackFrom 0x1000 0x2000

def sampleSlot (i : Bool) : Word := if i then 0x3008 else 0x3000

theorem sampleStack_disjoint (i j : Bool) (x : Word) (hne : i ≠ j) (hx : sampleStack i x) :
    ¬ sampleStack j x := by
  have hapart : StackFrom 0x1000 0x2000 x → ¬ StackFrom 0x2000 0x3000 x := by
    unfold StackFrom
    omega
  cases i with
  | false => exact Bool.eq_true_of_not_eq_false hne.symm ▸ hapart hx
  | true => exact Bool.eq_false_of_not_eq_true hne.symm ▸ fun h => hapart h hx

theorem le_of_inBytes_sampleSlot {i : Bool} {x : Word} (h : InBytes (sampleSlot i) 8 x) :
    (sampleSlot i).toNat ≤ x.toNat ∧ x.toNat < (sampleSlot i).toNat + 8 := by
  have hx := x.isLt
  have hslot : (sampleSlot i).toNat = if i then 0x3008 else 0x3000 := by cases i <;> rfl
  rw [InBytes, BitVec.toNat_sub] at h
  split_ifs at hslot <;> omega

theorem sampleSlot_off (i j : Bool) (x : Word) (h : InBytes (sampleSlot i) 8 x) : ¬ sampleStack j x := by
  have hle := (le_of_inBytes_sampleSlot h).1
  have hslot : 0x3000 ≤ (sampleSlot i).toNat := by cases i <;> decide
  cases j with
  | false => exact fun hx => absurd hx.2 (by omega)
  | true => exact fun hx => absurd hx.2 (by omega)

theorem sampleSlots_apart (i j : Bool) (x : Word) (hne : i ≠ j) (hi : InBytes (sampleSlot i) 8 x) :
    ¬ InBytes (sampleSlot j) 8 x := by
  intro hj
  have hx := le_of_inBytes_sampleSlot hi
  have hx' := le_of_inBytes_sampleSlot hj
  have hslots : ∀ i j : Bool, i ≠ j → (sampleSlot i).toNat + 8 ≤ (sampleSlot j).toNat ∨
      (sampleSlot j).toNat + 8 ≤ (sampleSlot i).toNat := by decide
  have := hslots i j hne
  omega

def sampleThreads : Threads Bool where
  stack := sampleStack
  slot := sampleSlot
  disjoint := sampleStack_disjoint
  slot_off := sampleSlot_off
  slots_apart := sampleSlots_apart

theorem sampleCall_framedCall {rsp rbp own other : Word} (m : Mem) {lo hi : ℕ}
    (hrsp : lo + 8 ≤ rsp.toNat ∧ 56 ≤ rsp.toNat) (hrbp : lo + 48 ≤ rbp.toNat ∧ rbp.toNat + 16 ≤ hi)
    (habove : rsp.toNat + 8 ≤ rbp.toNat) (hown : hi ≤ own.toNat ∧ own.toNat + 8 ≤ 2 ^ 64) :
    FramedCall (StackFrom lo hi) own other (sampleCall rsp rbp own other m) where
  toSwitchCall := sampleCall_switchCall m ⟨hrsp.1, by omega⟩ ⟨hrbp.1, by omega⟩ hown
  frame x hx := by
    have := x.isLt
    simp only [StackFrom, InBytes, sampleCall, BitVec.toNat_sub] at hx ⊢
    omega
  above := habove
  room := hrsp.2
  top := by
    show rbp.toNat + 16 < 2 ^ 64
    omega

/-- The second thread waits behind its call; the first one calls. -/
def sampleWaiting : Machine := sampleCall 0x2f00 0x2f80 0x3008 0x3000 fun _ => 0

def sampleCalling : Machine :=
  sampleCall 0x1f00 0x1f80 0x3000 0x3008 (sampleWaiting.run cswitchSave).mem

theorem switches_run_epilogues_sample :
    context (StackFrom 0x2000 0x3000) (sampleCalling.run cswitch) =
      context (StackFrom 0x2000 0x3000) (epilogue sampleWaiting) := by
  have hwaits : Scheduled sampleThreads
      (fun _ => context (StackFrom 0x2000 0x3000) (epilogue sampleWaiting))
      ⟨false, sampleCalling⟩ := by
    intro j hj
    cases j with
    | false => exact absurd rfl hj
    | true =>
        refine ⟨sampleWaiting, 0x3000, ?_, rfl, fun _ _ => rfl⟩
        exact sampleCall_framedCall _ (by decide) (by decide) (by decide) (by decide)
  have hcall : FramedCall (StackFrom 0x1000 0x2000) 0x3000 0x3008 sampleCalling :=
    sampleCall_framedCall _ (by decide) (by decide) (by decide) (by decide)
  have hstep : SchedStep sampleThreads ⟨false, sampleCalling⟩ (.switch false true sampleCalling)
      (some (context (StackFrom 0x2000 0x3000) (sampleCalling.run cswitch)))
      ⟨true, sampleCalling.run cswitch⟩ := ⟨rfl, rfl, by decide, hcall, rfl, rfl⟩
  have hrun := switches_run_epilogues hwaits (.cons hstep (.nil _))
  exact Option.some.inj (List.head_eq_of_cons_eq hrun)

end Rix
