import Rix.Memory

/-!
# The spin lock of `spinlock.h`

The lock is one word of memory. Every operation is one step of the thread that calls it, and a
thread is inside from the return of `spin_lock_lock` to its `spin_lock_unlock`.
-/
namespace Rix

def spinLockInit (m : Mem) (lock : Word) : Mem := m.set64 lock 0

/-- `spin_lock_lock`: one store, which waits for nobody. -/
def spinLockLock (m : Mem) (lock : Word) : Mem := m.set64 lock 1

/-- `spin_lock_held` returns `!(*lock)`. -/
def spinLockHeld (m : Mem) (lock : Word) : Bool := decide (m.get64 lock = 0)

/-- `spin_lock_unlock`. The function has no return statement. -/
def spinLockUnlock (m : Mem) (lock : Word) : Mem := m.set64 lock 0

inductive LockOp (T : Type*) where
  | lock (t : T)
  | held (t : T)
  | unlock (t : T)
  deriving DecidableEq, Repr

structure LockState (T : Type*) where
  mem : Mem
  inside : T → Bool

namespace LockState

variable {T : Type*} [DecidableEq T] {m : Mem} {lock : Word} {s s' : LockState T} {op : LockOp T}
  {ops ops' : List (LockOp T)} {t u : T}

def initial (m : Mem) (lock : Word) : LockState T := ⟨spinLockInit m lock, fun _ => false⟩

/-- A thread asks for the lock from outside and gives it back from inside. -/
def Enabled (s : LockState T) : LockOp T → Prop
  | .lock t => s.inside t = false
  | .held _ => True
  | .unlock t => s.inside t = true

def next (lock : Word) (s : LockState T) : LockOp T → LockState T
  | .lock t => ⟨spinLockLock s.mem lock, Function.update s.inside t true⟩
  | .held _ => s
  | .unlock t => ⟨spinLockUnlock s.mem lock, Function.update s.inside t false⟩

inductive Run (m : Mem) (lock : Word) : List (LockOp T) → LockState T → Prop where
  | start : Run m lock [] (initial m lock)
  | step {ops : List (LockOp T)} {s : LockState T} {op : LockOp T} (h : Run m lock ops s)
      (he : s.Enabled op) : Run m lock (ops ++ [op]) (s.next lock op)

def Exclusive (s : LockState T) : Prop := ∀ t u, s.inside t = true → s.inside u = true → t = u

/-- `spin_lock_held` returns true exactly while some thread is inside. -/
def HeldAgrees (lock : Word) (s : LockState T) : Prop :=
  spinLockHeld s.mem lock = true ↔ ∃ t, s.inside t = true

def Throughout (m : Mem) (lock : Word) (ops : List (LockOp T)) (P : LockState T → Prop) : Prop :=
  ∀ ops' s', ops' <+: ops → Run m lock ops' s' → P s'

def Waits (s : LockState T) : LockOp T → Prop
  | .lock _ => ∀ u, s.inside u = false
  | _ => True

def WaitsThroughout (m : Mem) (lock : Word) (ops : List (LockOp T)) : Prop :=
  ∀ ops' op s', ops' ++ [op] <+: ops → Run m lock ops' s' → s'.Waits op

/-- The word tells whether somebody is inside, and at most one thread is. -/
structure Sound (lock : Word) (s : LockState T) : Prop where
  word : s.mem.get64 lock = 0 ↔ ∀ t, s.inside t = false
  one : s.Exclusive

omit [DecidableEq T] in
theorem Sound.initial (m : Mem) (lock : Word) : Sound lock (LockState.initial (T := T) m lock) where
  word := ⟨fun _ _ => rfl, fun _ => Mem.get64_set64_self m lock 0⟩
  one := fun _ _ h => Bool.noConfusion h

theorem Sound.next (h : Sound lock s) (he : s.Enabled op) (hw : s.Waits op) :
    Sound lock (s.next lock op) := by
  cases op with
  | lock t =>
      have hne : (s.mem.set64 lock 1).get64 lock ≠ 0 := by
        rw [Mem.get64_set64_self]
        decide
      refine ⟨⟨fun h0 => absurd h0 hne, fun hall => ?_⟩, fun u v hu hv => ?_⟩
      · have ht : Function.update s.inside t true t = false := hall t
        rw [Function.update_self] at ht
        cases ht
      · have hown : ∀ u, Function.update s.inside t true u = true → u = t := fun u hu => by
          by_contra hut
          rw [Function.update_of_ne hut, hw u] at hu
          cases hu
        rw [hown u hu, hown v hv]
  | held t => exact h
  | unlock t =>
      -- the thread that leaves was the only one
      have hout : ∀ u, Function.update s.inside t false u = false := fun u => by
        by_cases hut : u = t
        · rw [hut, Function.update_self]
        · rw [Function.update_of_ne hut]
          by_contra hu
          exact hut (h.one u t (Bool.eq_true_of_not_eq_false hu) he)
      exact ⟨⟨fun _ => hout, fun _ => Mem.get64_set64_self _ lock 0⟩,
        fun u v hu _ => absurd ((hout u).symm.trans hu) (by decide)⟩

theorem Run.unique (h : Run m lock ops s) (h' : Run m lock ops s') : s = s' := by
  induction h generalizing s' with
  | start =>
      generalize hops : [] = ops at h'
      cases h' with
      | start => rfl
      | step _ _ => exact absurd hops.symm (by simp)
  | @step ops s op _ _ ih =>
      generalize hops : ops ++ [op] = all at h'
      cases h' with
      | start => exact absurd hops (by simp)
      | @step ops₂ s₂ op₂ h₂ _ =>
          obtain ⟨rfl, hop⟩ := List.append_inj' hops rfl
          obtain rfl : op = op₂ := List.singleton_inj.mp hop
          rw [ih h₂]

/-- A run whose lock steps find nobody inside keeps the word in step with the threads. -/
theorem Run.sound (h : Run m lock ops s) (hw : WaitsThroughout m lock ops) : Sound lock s := by
  induction h with
  | start => exact .initial m lock
  | @step ops s op h he ih =>
      have hops : WaitsThroughout m lock ops := fun ops' op' s' hp =>
        hw ops' op' s' (hp.trans (List.prefix_append ops [op]))
      exact (ih hops).next he (hw ops op s List.prefix_rfl h)

theorem WaitsThroughout.earlier (h : WaitsThroughout m lock ops) (hp : ops' <+: ops) :
    WaitsThroughout m lock ops' := fun _ _ _ hp' => h _ _ _ (hp'.trans hp)

theorem exclusive_next (he : s.Enabled op) (h : (s.next lock op).Exclusive) : s.Waits op := by
  cases op with
  | lock t =>
      intro u
      by_contra hu
      have hut : u ≠ t := by
        rintro rfl
        exact hu he
      refine hut (h u t ?_ ?_)
      · exact (Function.update_of_ne hut _ _).trans (Bool.eq_true_of_not_eq_false hu)
      · exact Function.update_self _ _ _
  | held t => trivial
  | unlock t => trivial

theorem Run.enabled (h : Run m lock (ops ++ [op]) s) : ∃ s', Run m lock ops s' ∧ s'.Enabled op := by
  generalize hops : ops ++ [op] = all at h
  cases h with
  | start => exact absurd hops (by simp)
  | @step ops₂ s₂ op₂ h₂ he =>
      obtain ⟨rfl, hop⟩ := List.append_inj' hops rfl
      obtain rfl : op = op₂ := List.singleton_inj.mp hop
      exact ⟨s₂, h₂, he⟩

theorem Run.earlier (h : Run m lock ops s) (hp : ops' <+: ops) : ∃ s', Run m lock ops' s' := by
  induction h with
  | start =>
      obtain rfl := List.prefix_nil.mp hp
      exact ⟨_, .start⟩
  | step h he ih =>
      rcases List.prefix_concat_iff.mp hp with rfl | hp
      · exact ⟨_, .step h he⟩
      · exact ih hp

/-- Mutual exclusion is what the callers bring: it holds in a run when, and only when, every lock
step of it finds nobody inside. -/
theorem exclusive_iff (h : Run m lock ops s) :
    Throughout m lock ops Exclusive ↔ WaitsThroughout m lock ops := by
  constructor
  · intro hex ops' op s' hp hs'
    obtain ⟨s₁, hs₁⟩ := h.earlier hp
    obtain ⟨s₂, hs₂, he⟩ := hs₁.enabled
    obtain rfl := hs'.unique hs₂
    exact exclusive_next he (hex _ _ hp (.step hs' he))
  · intro hw ops' s' hp hs'
    exact (hs'.sound (hw.earlier hp)).one

omit [DecidableEq T] in
/-- While at most one thread is inside, `spin_lock_held` says the opposite of what it is asked. -/
theorem Sound.not_heldAgrees (h : Sound lock s) : ¬ s.HeldAgrees lock := by
  intro hagrees
  have hword : spinLockHeld s.mem lock = true ↔ ∀ t, s.inside t = false := by
    rw [spinLockHeld, decide_eq_true_iff, h.word]
  by_cases hin : ∃ t, s.inside t = true
  · obtain ⟨t, ht⟩ := hin
    have := hword.mp (hagrees.mpr ⟨t, ht⟩) t
    rw [ht] at this
    cases this
  · exact hin (hagrees.mp (hword.mpr fun t => eq_false_of_ne_true fun ht => hin ⟨t, ht⟩))

/-- No run has the lock's two properties. Two threads are kept apart only where no lock step finds
a thread inside, and there `spin_lock_held` is wrong in every state. -/
theorem spinLock_fails (h : Run m lock ops s) :
    ¬ Throughout m lock ops (fun s => s.Exclusive ∧ s.HeldAgrees lock) ∧
    (Throughout m lock ops Exclusive ↔ WaitsThroughout m lock ops) ∧
    (Throughout m lock ops Exclusive → Throughout m lock ops fun s => ¬ s.HeldAgrees lock) := by
  have hheld : Throughout m lock ops Exclusive → Throughout m lock ops fun s => ¬ s.HeldAgrees lock :=
    fun hex ops' s' hp hs' =>
      (hs'.sound (((exclusive_iff h).mp hex).earlier hp)).not_heldAgrees
  refine ⟨fun hall => ?_, exclusive_iff h, hheld⟩
  have hex : Throughout m lock ops Exclusive := fun ops' s' hp hs' => (hall ops' s' hp hs').1
  exact hheld hex [] _ List.nil_prefix .start (hall [] _ List.nil_prefix .start).2

theorem spinLock_fails_alone : ¬ Throughout (fun _ => 0) 4096 [.lock (), .unlock ()]
    (fun s => s.Exclusive ∧ s.HeldAgrees 4096) := by
  have hlock : Run (fun _ => 0) 4096 ([] ++ [.lock ()]) _ := .step .start rfl
  have hunlock : Run (fun _ => 0) 4096 ([.lock ()] ++ [.unlock ()]) _ := .step hlock rfl
  exact (spinLock_fails hunlock).1

/-- Two threads take the lock one after the other and both are inside. -/
theorem two_threads_inside : ¬ ∀ (T : Type) [DecidableEq T] (m : Mem) (lock : Word)
    (ops : List (LockOp T)) (s : LockState T), Run m lock ops s →
    Throughout m lock ops fun s => s.Exclusive ∧ s.HeldAgrees lock := by
  intro hall
  have hlock : Run (fun _ => 0) 4096 ([] ++ [.lock false]) _ := .step .start rfl
  have hrun : Run (fun _ => 0) 4096 ([.lock false] ++ [.lock true]) _ := .step hlock rfl
  have hex := (hall Bool _ 4096 _ _ hrun _ _ List.prefix_rfl hrun).1
  exact absurd (hex false true rfl rfl) (by decide)

end LockState

end Rix
