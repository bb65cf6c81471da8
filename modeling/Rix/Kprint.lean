import Rix.Chain
import Rix.Word

/-!
# The console registry of `kprint.c`

The registered consoles hang on `console_list` by their own `next` fields, which a console keeps
when it is taken off.
-/
namespace Rix
open Fuel Chains

/-- The fields of `console_t` that the registry reads. -/
structure Console where
  /-- `NULL` when the console has no callback. -/
  exit : Word
  next : Word
  deriving DecidableEq, Repr

structure ExitCall where
  exit : Word
  con : Word
  deriving DecidableEq, Repr

/-- `console_list`, the consoles at their addresses and the callbacks called so far. -/
structure Registry where
  consoleList : Word
  console : Word → Console
  exits : List ExitCall

namespace Registry

def next (st : Registry) (con : Word) : Word := (st.console con).next

def setNext (st : Registry) (con v : Word) : Registry :=
  { st with console := Function.update st.console con { st.console con with next := v } }

@[simp] theorem setNext_next (st : Registry) (con v : Word) :
    (st.setNext con v).next = Function.update st.next con v := by
  funext x
  simp only [next, setNext, Function.update_apply]
  split_ifs <;> rfl

@[simp] theorem setNext_exit (st : Registry) (con v c : Word) :
    ((st.setNext con v).console c).exit = (st.console c).exit := by
  simp only [setNext, Function.update_apply]
  split_ifs with h
  · rw [h]
  · rfl

end Registry

/-- One pass of the loop of `register_console`, on `con`. It stops at `newcon`, where the source
returns, or at the end of the list. -/
def registerPass (st : Registry) (newcon con : Word) : Option (Flow Word) :=
  if con ≠ NULL then
    if newcon = con then some (.stop con) else some (.next (st.next con))
  else some (.stop con)

def registerConsole (fuel : ℕ) (st : Registry) (newcon : Word) : Option Registry := do
  let con ← loop (registerPass st newcon) fuel st.consoleList
  if con ≠ NULL then pure st
  else if st.consoleList = NULL then
    let st := st.setNext newcon st.consoleList
    pure { st with consoleList := newcon }
  else
    let st := st.setNext newcon (st.next st.consoleList)
    pure (st.setNext st.consoleList newcon)

/-- One pass of the loop of `unregister_console`, on `con` and the state. -/
def unregisterPass (delcon : Word) : Word × Registry → Option (Flow (Word × Registry))
  | (con, st) =>
    if con ≠ NULL then
      if st.next con = delcon then some (.stop (con, st.setNext con (st.next delcon)))
      else some (.next (st.next con, st))
    else some (.stop (con, st))

/-- The console is taken off the list, if it is on it. -/
def unlinkConsole (fuel : ℕ) (st : Registry) (delcon : Word) : Option Registry :=
  if st.consoleList = delcon then some { st with consoleList := st.next delcon }
  else (loop (unregisterPass delcon) fuel (st.consoleList, st)).map Prod.snd

def Registry.callExit (st : Registry) (delcon : Word) : Registry :=
  if (st.console delcon).exit ≠ NULL then
    { st with exits := st.exits ++ [⟨(st.console delcon).exit, delcon⟩] }
  else st

def unregisterConsole (fuel : ℕ) (st : Registry) (delcon : Word) : Option Registry :=
  (unlinkConsole fuel st delcon).map fun st => st.callExit delcon

inductive ConsoleCall where
  | register (con : Word)
  | unregister (con : Word)
  deriving DecidableEq, Repr

namespace ConsoleCall

def con : ConsoleCall → Word
  | register con => con
  | unregister con => con

def exec (fuel : ℕ) (st : Registry) : ConsoleCall → Option Registry
  | register con => registerConsole fuel st con
  | unregister con => unregisterConsole fuel st con

/-- What the call makes of the list of the registered consoles: a new console goes behind the
first one. -/
def apply (l : List Word) : ConsoleCall → List Word
  | register con => if con ∈ l then l else l.take 1 ++ con :: l.drop 1
  | unregister con => l.erase con

end ConsoleCall

def runCalls (fuel : ℕ) (calls : List ConsoleCall) (st : Registry) : Option Registry :=
  calls.foldlM (ConsoleCall.exec fuel) st

/-- The registered consoles in the order of the list. -/
def Registry.Holds (st : Registry) (l : List Word) : Prop := Chain st.next NULL st.consoleList l

section

variable {st : Registry} {l : List Word} {c : Word}

theorem Registry.Holds.ne_null (h : st.Holds l) {x : Word} (hx : x ∈ l) : x ≠ NULL := by
  rintro rfl
  exact h.null_not_mem hx

theorem registerConsole_of_mem (h : st.Holds l) (hc : c ∈ l) :
    Settles (fun fuel => registerConsole fuel st c) st := by
  have hne := h.ne_null hc
  obtain ⟨xs, ys, rfl⟩ := List.append_of_mem hc
  have hloop : LoopSettles (fun _ => registerPass st c) st.consoleList c := by
    refine h.loopSettles id h.suffix (fun x hx => .of_forall fun _ => ?_) (.stop (.of_forall fun _ => ?_))
    · have hcx : c ≠ x := by
        rintro rfl
        exact List.disjoint_of_nodup_append h.nodup hx (.head _)
      rw [id, registerPass, if_pos (h.ne_null (List.mem_append_left _ hx)), if_neg hcx, id]
    · rw [id, registerPass, if_pos hne, if_pos rfl]
  refine hloop.settles.bind (.of_forall fun _ => ?_)
  exact if_pos hne

theorem registerConsole_of_not_mem (h : st.Holds l) (hne : c ≠ NULL) (hc : c ∉ l) : ∃ st',
    Settles (fun fuel => registerConsole fuel st c) st' ∧ st'.Holds (l.take 1 ++ c :: l.drop 1) ∧
    st'.exits = st.exits ∧ ∀ x, (st'.console x).exit = (st.console x).exit := by
  have hloop : LoopSettles (fun _ => registerPass st c) st.consoleList NULL := by
    refine Chain.loopSettles id ((List.append_nil l).symm ▸ h) .nil (fun x hx => .of_forall fun _ => ?_)
      (.stop (.of_forall fun _ => if_neg fun h => h rfl))
    have hcx : c ≠ x := by
      rintro rfl
      exact hc hx
    rw [id, registerPass, if_pos (h.ne_null hx), if_neg hcx, id]
  cases l with
  | nil =>
      refine ⟨{ st.setNext c st.consoleList with consoleList := c },
        hloop.settles.bind (.of_forall fun _ => if_pos h.eq_null), ?_, rfl, fun x => st.setNext_exit c _ x⟩
      refine .cons hne ?_
      have hnext : ({ st.setNext c st.consoleList with consoleList := c } : Registry).next c = NULL := by
        show (st.setNext c st.consoleList).next c = NULL
        rw [Registry.setNext_next, Function.update_self, h.eq_null]
      rw [hnext]
      exact .nil
  | cons x l =>
      obtain rfl := h.head_eq
      have hnull : st.consoleList ≠ NULL := h.ne_null_iff.mpr (List.cons_ne_nil _ _)
      refine ⟨(st.setNext c (st.next st.consoleList)).setNext st.consoleList c,
        hloop.settles.bind (.of_forall fun _ => if_neg hnull), ?_, rfl, fun x => ?_⟩
      · rw [Registry.Holds, Registry.setNext_next, Registry.setNext_next]
        exact h.insertBehind hne hc
      · rw [Registry.setNext_exit, Registry.setNext_exit]

theorem unlinkConsole_head {t : List Word} (h : st.Holds (c :: t)) :
    Settles (fun fuel => unlinkConsole fuel st c) { st with consoleList := st.next c } ∧
    Registry.Holds { st with consoleList := st.next c } t :=
  ⟨.of_forall fun _ => if_pos h.head_eq, h.tail⟩

theorem unregisterPass_next (h : st.Holds l) {x : Word} (hx : x ∈ l) (hnext : st.next x ≠ c) :
    unregisterPass c (x, st) = some (.next (st.next x, st)) := by
  rw [unregisterPass, if_pos (h.ne_null hx), if_neg hnext]

theorem unlinkConsole_loop (hhead : st.consoleList ≠ c) {r : Word × Registry}
    (hloop : LoopSettles (fun _ => unregisterPass c) (st.consoleList, st) r) :
    Settles (fun fuel => unlinkConsole fuel st c) r.2 :=
  (hloop.settles.map Prod.snd).congr fun _ => if_neg hhead

theorem unlinkConsole_behind {zs ys : List Word} {z : Word} (h : st.Holds (zs ++ z :: c :: ys))
    (hhead : st.consoleList ≠ c) :
    Settles (fun fuel => unlinkConsole fuel st c) (st.setNext z (st.next c)) ∧
    (st.setNext z (st.next c)).Holds (zs ++ z :: ys) := by
  have hz : z ∈ zs ++ z :: c :: ys := List.mem_append_right _ (.head _)
  have hnext : st.next z = c := h.suffix.tail.head_eq
  constructor
  · refine unlinkConsole_loop hhead (r := (z, st.setNext z (st.next c))) ?_
    refine h.loopSettles (fun x => (x, st)) h.suffix (fun x hx => .of_forall fun _ => ?_)
      (.stop (.of_forall fun _ => ?_))
    · exact unregisterPass_next h (List.mem_append_left _ hx) (h.next_ne_of_before hx)
    · rw [unregisterPass, if_pos (h.ne_null hz), if_pos hnext]
  · rw [Registry.Holds, Registry.setNext_next]
    exact h.remove

theorem unlinkConsole_absent (h : st.Holds l) (hne : c ≠ NULL) (hc : c ∉ l)
    (hhead : st.consoleList ≠ c) : Settles (fun fuel => unlinkConsole fuel st c) st := by
  refine unlinkConsole_loop hhead (r := (NULL, st)) ?_
  refine Chain.loopSettles (fun x => (x, st)) ((List.append_nil l).symm ▸ h) .nil
    (fun x hx => .of_forall fun _ => ?_) (.stop (.of_forall fun _ => if_neg fun h => h rfl))
  exact unregisterPass_next h hx (h.next_ne_of_not_mem hx hne hc)

/-- A console is taken off the list wherever it stands; one that is not on it changes nothing. -/
theorem exists_unlinkConsole (h : st.Holds l) (hne : c ≠ NULL) : ∃ st',
    Settles (fun fuel => unlinkConsole fuel st c) st' ∧ st'.Holds (l.erase c) ∧
    st'.exits = st.exits ∧ (∀ x, (st'.console x).exit = (st.console x).exit) ∧ (c ∉ l → st' = st) := by
  by_cases hhead : st.consoleList = c
  · have hl : ∃ t, l = c :: t := by
      cases l with
      | nil => exact absurd (hhead ▸ h.eq_null) hne
      | cons x t => exact ⟨t, by rw [← h.head_eq, hhead]⟩
    obtain ⟨t, rfl⟩ := hl
    obtain ⟨hrun, h'⟩ := unlinkConsole_head h
    refine ⟨_, hrun, ?_, rfl, fun _ => rfl, fun hc => absurd (.head _) hc⟩
    rwa [List.erase_cons_head]
  by_cases hc : c ∈ l
  · obtain ⟨xs, ys, rfl⟩ := List.append_of_mem hc
    -- the console in front of it
    have hxs : ∃ zs z, xs = zs ++ [z] := by
      cases xs using List.reverseRecOn with
      | nil => exact absurd h.head_eq hhead
      | append_singleton zs z => exact ⟨zs, z, rfl⟩
    obtain ⟨zs, z, rfl⟩ := hxs
    have hnot : c ∉ zs ++ [z] := fun hmem => List.disjoint_of_nodup_append h.nodup hmem (.head _)
    rw [List.append_assoc, List.singleton_append] at h
    obtain ⟨hrun, h'⟩ := unlinkConsole_behind h hhead
    refine ⟨_, hrun, ?_, rfl, fun x => st.setNext_exit z _ x, fun hout => absurd hc hout⟩
    rwa [List.erase_append_right _ hnot, List.erase_cons_head, List.append_assoc, List.singleton_append]
  · refine ⟨st, unlinkConsole_absent h hne hc hhead, ?_, rfl, fun _ => rfl, fun _ => rfl⟩
    rwa [List.erase_of_not_mem hc]

def exitCalls (st : Registry) (delcon : Word) : List ExitCall :=
  if (st.console delcon).exit ≠ NULL then [⟨(st.console delcon).exit, delcon⟩] else []

theorem Registry.callExit_eq (st : Registry) (c : Word) :
    st.callExit c = { st with exits := st.exits ++ exitCalls st c } := by
  unfold callExit exitCalls
  split_ifs
  · rfl
  · rw [List.append_nil]

/-- A call of `register_console` runs no callback. One of `unregister_console` runs that of its
console, on the list or not. -/
def ConsoleCall.exits (st : Registry) : ConsoleCall → List ExitCall
  | register _ => []
  | unregister c => exitCalls st c

/-- One call from a state whose list is a chain. -/
theorem ConsoleCall.exists_exec (h : st.Holds l) (call : ConsoleCall) (hne : call.con ≠ NULL) : ∃ st',
    Settles (fun fuel => call.exec fuel st) st' ∧ st'.Holds (call.apply l) ∧
    (∀ x, (st'.console x).exit = (st.console x).exit) ∧ st'.exits = st.exits ++ call.exits st ∧
    ∀ c, call = .unregister c → c ∉ l →
      st'.consoleList = st.consoleList ∧ st'.console = st.console := by
  cases call with
  | register c =>
      by_cases hc : c ∈ l
      · refine ⟨st, registerConsole_of_mem h hc, ?_, fun _ => rfl, (List.append_nil _).symm, ?_⟩
        · rw [ConsoleCall.apply, if_pos hc]
          exact h
        · rintro c' ⟨⟩
      · obtain ⟨st', hrun, hl, hexits, hexit⟩ := registerConsole_of_not_mem h hne hc
        refine ⟨st', hrun, ?_, hexit, hexits.trans (List.append_nil _).symm, ?_⟩
        · rw [ConsoleCall.apply, if_neg hc]
          exact hl
        · rintro c' ⟨⟩
  | unregister c =>
      obtain ⟨st', hrun, hl, hexits, hexit, hsame⟩ := exists_unlinkConsole h hne
      refine ⟨st'.callExit c, hrun.map fun st => st.callExit c, ?_⟩
      rw [Registry.callExit_eq]
      refine ⟨hl, hexit, ?_, ?_⟩
      · show st'.exits ++ exitCalls st' c = st.exits ++ exitCalls st c
        rw [hexits, exitCalls, exitCalls, hexit]
      · rintro c' ⟨⟩ hc
        rw [hsame hc]
        exact ⟨rfl, rfl⟩

end

section

variable {l : List Word} {c : Word}

theorem ConsoleCall.apply_register_of_mem (h : c ∈ l) : (register c).apply l = l := if_pos h

theorem ConsoleCall.apply_register_perm (h : c ∉ l) : ((register c).apply l).Perm (c :: l) := by
  have hperm : (l.take 1 ++ c :: l.drop 1).Perm (c :: (l.take 1 ++ l.drop 1)) := List.perm_middle
  rw [List.take_append_drop] at hperm
  rw [apply, if_neg h]
  exact hperm

theorem ConsoleCall.mem_apply (call : ConsoleCall) (hl : l.Nodup) :
    c ∈ call.apply l ↔ call = .register c ∨ c ∈ l ∧ call ≠ .unregister c := by
  cases call with
  | register d =>
      by_cases hd : d ∈ l
      · rw [apply_register_of_mem hd]
        constructor
        · intro hc
          exact .inr ⟨hc, ConsoleCall.noConfusion⟩
        · rintro (heq | ⟨hc, -⟩)
          · cases heq
            exact hd
          · exact hc
      · rw [(apply_register_perm hd).mem_iff, List.mem_cons, ConsoleCall.register.injEq, eq_comm]
        exact or_congr_right ⟨fun hc => ⟨hc, ConsoleCall.noConfusion⟩, And.left⟩
  | unregister d =>
      show c ∈ l.erase d ↔ _
      rw [hl.mem_erase_iff]
      simp only [reduceCtorEq, false_or, ne_eq, ConsoleCall.unregister.injEq, and_comm, eq_comm]

theorem ConsoleCall.nodup_apply (call : ConsoleCall) (hl : l.Nodup) : (call.apply l).Nodup := by
  cases call with
  | register d =>
      by_cases hd : d ∈ l
      · rw [apply_register_of_mem hd]
        exact hl
      · exact (apply_register_perm hd).nodup_iff.mpr (List.nodup_cons.mpr ⟨hd, hl⟩)
  | unregister d => exact hl.erase d

/-- The console has been registered and not been unregistered since. -/
def Registered (calls : List ConsoleCall) (c : Word) : Prop :=
  ∃ before after, calls = before ++ .register c :: after ∧ .unregister c ∉ after

theorem registered_cons {call : ConsoleCall} {calls : List ConsoleCall} : Registered (call :: calls) c ↔
    Registered calls c ∨ call = .register c ∧ .unregister c ∉ calls := by
  constructor
  · rintro ⟨before, after, heq, hafter⟩
    cases before with
    | nil =>
        obtain ⟨rfl, rfl⟩ := List.cons.inj heq
        exact .inr ⟨rfl, hafter⟩
    | cons x before =>
        obtain ⟨rfl, rfl⟩ := List.cons.inj heq
        exact .inl ⟨before, after, rfl, hafter⟩
  · rintro (⟨before, after, rfl, hafter⟩ | ⟨rfl, hafter⟩)
    · exact ⟨call :: before, after, rfl, hafter⟩
    · exact ⟨[], calls, rfl, hafter⟩

theorem not_registered_nil : ¬ Registered [] c := by
  rintro ⟨before, after, heq, -⟩
  exact absurd heq (by simp)

theorem mem_foldl_apply (calls : List ConsoleCall) (hl : l.Nodup) :
    c ∈ calls.foldl ConsoleCall.apply l ↔ Registered calls c ∨ c ∈ l ∧ .unregister c ∉ calls := by
  induction calls generalizing l with
  | nil => simp [not_registered_nil]
  | cons call calls ih =>
      rw [List.foldl_cons, ih (call.nodup_apply hl), call.mem_apply hl, registered_cons, List.mem_cons]
      constructor
      · rintro (hr | ⟨rfl | ⟨hc, hne⟩, hnot⟩)
        · exact .inl (.inl hr)
        · exact .inl (.inr ⟨rfl, hnot⟩)
        · exact .inr ⟨hc, fun h => h.elim (fun heq => hne heq.symm) hnot⟩
      · rintro ((hr | ⟨rfl, hnot⟩) | ⟨hc, hnot⟩)
        · exact .inl hr
        · exact .inr ⟨.inl rfl, hnot⟩
        · exact .inr ⟨.inr ⟨hc, fun heq => hnot (.inl heq.symm)⟩, fun h => hnot (.inr h)⟩

theorem foldl_apply_head (calls : List ConsoleCall) (hc : .unregister c ∉ calls) (t : List Word) :
    ∃ t', calls.foldl ConsoleCall.apply (c :: t) = c :: t' := by
  induction calls generalizing t with
  | nil => exact ⟨t, rfl⟩
  | cons call calls ih =>
      have hfirst : ∃ t₁, call.apply (c :: t) = c :: t₁ := by
        cases call with
        | register d =>
            by_cases hd : d ∈ c :: t
            · exact ⟨t, ConsoleCall.apply_register_of_mem hd⟩
            · exact ⟨d :: t, if_neg hd⟩
        | unregister d =>
            have hne : d ≠ c := by
              rintro rfl
              exact hc (.head _)
            exact ⟨t.erase d, List.erase_cons_tail (by simpa using hne.symm)⟩
      obtain ⟨t₁, h₁⟩ := hfirst
      rw [List.foldl_cons, h₁]
      exact ih (fun h => hc (.tail _ h)) t₁

end

section

variable {st : Registry} {l : List Word} {calls : List ConsoleCall}

theorem runCalls_cons {st₁ st' : Registry} {call : ConsoleCall}
    (h : Settles (fun fuel => call.exec fuel st) st₁)
    (h' : Settles (fun fuel => runCalls fuel calls st₁) st') :
    Settles (fun fuel => runCalls fuel (call :: calls) st) st' := by
  refine (h.bind (g := fun fuel st => runCalls fuel calls st) h').congr fun fuel => ?_
  rw [runCalls, List.foldlM_cons]
  rfl

/-- Any calls keep the list a chain, with the consoles the abstract list has. -/
theorem exists_runCalls (h : st.Holds l) (hcalls : ∀ call ∈ calls, call.con ≠ NULL) : ∃ st',
    Settles (fun fuel => runCalls fuel calls st) st' ∧ st'.Holds (calls.foldl ConsoleCall.apply l) ∧
    ∀ x, (st'.console x).exit = (st.console x).exit := by
  induction calls generalizing st l with
  | nil => exact ⟨st, .of_forall fun _ => rfl, h, fun _ => rfl⟩
  | cons call calls ih =>
      obtain ⟨st₁, hrun₁, h₁, hexit₁, -⟩ := ConsoleCall.exists_exec h call (hcalls call (.head _))
      obtain ⟨st', hrun', h', hexit'⟩ := ih h₁ fun x hx => hcalls x (.tail _ hx)
      exact ⟨st', runCalls_cons hrun₁ hrun', h', fun x => (hexit' x).trans (hexit₁ x)⟩

theorem holds_nil (hst : st.consoleList = NULL) : st.Holds [] := by
  rw [Registry.Holds, hst]
  exact .nil

theorem runCalls_holds (hst : st.consoleList = NULL) (hcalls : ∀ call ∈ calls, call.con ≠ NULL)
    {st₁ : Registry} (hrun : Settles (fun fuel => runCalls fuel calls st) st₁) :
    st₁.Holds (calls.foldl ConsoleCall.apply []) ∧
    ∀ x, (st₁.console x).exit = (st.console x).exit := by
  obtain ⟨st', hrun', h⟩ := exists_runCalls (holds_nil hst) hcalls
  cases hrun.unique hrun'
  exact h

/-- Any calls from the empty registry return, and leave a chain to `NULL` of exactly the
registered consoles, each once. The first console stays the first until it is unregistered. -/
theorem console_registry (hst : st.consoleList = NULL) (hcalls : ∀ call ∈ calls, call.con ≠ NULL) :
    ∃ st' l, Settles (fun fuel => runCalls fuel calls st) st' ∧
      Chain st'.next NULL st'.consoleList l ∧ l.Nodup ∧ (∀ c, c ∈ l ↔ Registered calls c) ∧
      ∀ before after st₁, calls = before ++ after →
        Settles (fun fuel => runCalls fuel before st) st₁ → st₁.consoleList ≠ NULL →
        .unregister st₁.consoleList ∉ after → st'.consoleList = st₁.consoleList := by
  obtain ⟨st', hrun, h, -⟩ := exists_runCalls (holds_nil hst) hcalls
  refine ⟨st', _, hrun, h, h.nodup, fun c => ?_, ?_⟩
  · rw [mem_foldl_apply calls List.nodup_nil]
    simp only [List.not_mem_nil, false_and, or_false]
  · rintro before after st₁ rfl hbefore hne hafter
    obtain ⟨h₂, -⟩ := runCalls_holds hst (fun x hx => hcalls x (List.mem_append_left _ hx)) hbefore
    rw [List.foldl_append] at h
    generalize before.foldl ConsoleCall.apply [] = l₁ at h h₂
    cases l₁ with
    | nil => exact absurd h₂.eq_null hne
    | cons c t =>
        obtain rfl := h₂.head_eq
        obtain ⟨t', heq⟩ := foldl_apply_head after hafter t
        rw [heq] at h
        exact h.head_eq

end

/-- Consoles at 16, 32 and 48, of which the second and the third have an exit callback; the fields
`next` are stale. -/
def sampleRegistry : Registry where
  consoleList := NULL
  console := fun x => ⟨if x = 16 then NULL else 0x900, 32⟩
  exits := []

theorem console_registry_sample : ∃ st' l,
    Settles (fun fuel => runCalls fuel [.register 16, .register 32, .unregister 16, .register 48,
      .unregister 48, .register 16] sampleRegistry) st' ∧
    Chain st'.next NULL st'.consoleList l ∧ l.Nodup ∧ (∀ c, c ∈ l ↔ Registered [.register 16,
      .register 32, .unregister 16, .register 48, .unregister 48, .register 16] c) := by
  have hcalls : ∀ call ∈ [ConsoleCall.register 16, .register 32, .unregister 16, .register 48,
      .unregister 48, .register 16], call.con ≠ NULL := by decide
  obtain ⟨st', l, hrun, h, hnodup, hmem, -⟩ := console_registry (rfl : sampleRegistry.consoleList = NULL)
    hcalls
  exact ⟨st', l, hrun, h, hnodup, hmem⟩

def exitCount (c : Word) (st : Registry) : ℕ := st.exits.countP fun e => e.con = c

/-- How often the calls add a console that is not on the list at that time. -/
def additions (c : Word) : List Word → List ConsoleCall → ℕ
  | _, [] => 0
  | l, call :: calls => (if call = .register c ∧ c ∉ l then 1 else 0) + additions c (call.apply l) calls

/-- In every run of the calls a callback only runs for a console that is unregistered and on the
list at that time, a console that is not on the list changes nothing when it is unregistered, and no
console gets more calls of its callback than it has been added. -/
structure UnregisterIdempotent (st : Registry) (calls : List ConsoleCall) : Prop where
  onList : ∀ before call after st₁ st₂, calls = before ++ call :: after →
    Settles (fun fuel => runCalls fuel before st) st₁ → Settles (fun fuel => call.exec fuel st₁) st₂ →
    ∃ new, st₂.exits = st₁.exits ++ new ∧
      ∀ e ∈ new, call = .unregister e.con ∧ ∃ l, st₁.Holds l ∧ e.con ∈ l
  absent : ∀ before c after st₁ st₂, calls = before ++ .unregister c :: after →
    Settles (fun fuel => runCalls fuel before st) st₁ →
    Settles (fun fuel => ConsoleCall.exec fuel st₁ (.unregister c)) st₂ →
    ∀ l, st₁.Holds l → c ∉ l → st₂.consoleList = st₁.consoleList ∧ st₂.console = st₁.console
  counts : ∀ before after st₁, calls = before ++ after →
    Settles (fun fuel => runCalls fuel before st) st₁ → ∀ c, exitCount c st₁ ≤ additions c [] before

section

variable {st : Registry} {l : List Word} {calls : List ConsoleCall}

/-- Every console is on the list when it is unregistered, or has no exit callback. -/
def Covered (st : Registry) (l : List Word) (calls : List ConsoleCall) : Prop :=
  ∀ before c after, calls = before ++ .unregister c :: after →
    c ∈ before.foldl ConsoleCall.apply l ∨ (st.console c).exit = NULL

theorem Covered.tail {call : ConsoleCall} {st₁ : Registry} (h : Covered st l (call :: calls))
    (hexit : ∀ x, (st₁.console x).exit = (st.console x).exit) : Covered st₁ (call.apply l) calls := by
  rintro before c after rfl
  rw [hexit]
  exact h (call :: before) c after rfl

theorem exitCalls_eq_nil {c : Word} (h : (st.console c).exit = NULL) : exitCalls st c = [] :=
  if_neg fun hne => hne h

theorem con_of_mem_exitCalls {e : ExitCall} {c : Word} (he : e ∈ exitCalls st c) : e.con = c := by
  unfold exitCalls at he
  split_ifs at he
  · rw [List.mem_singleton.mp he]
  · exact absurd he List.not_mem_nil

theorem countP_exitCalls (st : Registry) (d c : Word) :
    (exitCalls st d).countP (fun e => e.con = c) ≤ if d = c then 1 else 0 := by
  unfold exitCalls
  split_ifs <;> simp [*]

theorem exitCount_step {call : ConsoleCall} {st₁ : Registry} (c : Word) (hl : l.Nodup)
    (hcover : ∀ d, call = .unregister d → d ∈ l ∨ (st.console d).exit = NULL)
    (hexits : st₁.exits = st.exits ++ call.exits st) :
    exitCount c st₁ + (if c ∈ call.apply l then 1 else 0) ≤
      exitCount c st + (if c ∈ l then 1 else 0) + if call = .register c ∧ c ∉ l then 1 else 0 := by
  unfold exitCount
  rw [hexits, List.countP_append]
  simp only [call.mem_apply hl]
  cases call with
  | register d => by_cases hd : d = c <;> by_cases hc : c ∈ l <;> simp [ConsoleCall.exits, hd, hc]
  | unregister d =>
      have hcount := countP_exitCalls st d c
      by_cases hd : d = c
      · subst hd
        rcases hcover d rfl with hc | hnull
        · simp only [hc, reduceCtorEq, not_true, ne_eq, and_false, or_false, if_false,
            if_true] at hcount ⊢
          simp only [ConsoleCall.exits]
          omega
        · rw [ConsoleCall.exits, exitCalls_eq_nil hnull]
          simp
      · rw [if_neg hd] at hcount
        simp only [ConsoleCall.exits, reduceCtorEq, false_or, ne_eq, ConsoleCall.unregister.injEq, hd,
          not_false_eq_true, and_true, false_and, if_false]
        omega

/-- The calls of a callback are paid for by the additions of its console. -/
theorem exitCount_le (h : st.Holds l) (hcalls : ∀ call ∈ calls, call.con ≠ NULL)
    (hcover : Covered st l calls) (c : Word) : ∃ st',
      Settles (fun fuel => runCalls fuel calls st) st' ∧
      exitCount c st' + (if c ∈ calls.foldl ConsoleCall.apply l then 1 else 0) ≤
        exitCount c st + (if c ∈ l then 1 else 0) + additions c l calls := by
  induction calls generalizing st l with
  | nil => exact ⟨st, .of_forall fun _ => rfl, le_rfl⟩
  | cons call calls ih =>
      obtain ⟨st₁, hrun₁, h₁, hexit₁, hexits₁, -⟩ :=
        ConsoleCall.exists_exec h call (hcalls call (.head _))
      obtain ⟨st', hrun', hle⟩ := ih h₁ (fun x hx => hcalls x (.tail _ hx)) (hcover.tail hexit₁)
      refine ⟨st', runCalls_cons hrun₁ hrun', ?_⟩
      have hstep := exitCount_step c h.nodup (fun d hd => hcover [] d calls (hd ▸ rfl)) hexits₁
      rw [List.foldl_cons, additions]
      omega

theorem mem_foldl_iff_registered (calls : List ConsoleCall) (c : Word) :
    c ∈ calls.foldl ConsoleCall.apply [] ↔ Registered calls c := by
  rw [mem_foldl_apply calls List.nodup_nil]
  simp only [List.not_mem_nil, false_and, or_false]

theorem runCalls_step (hst : st.consoleList = NULL) {before after : List ConsoleCall}
    {call : ConsoleCall} {st₁ st₂ : Registry} (hcalls : ∀ x ∈ before ++ call :: after, x.con ≠ NULL)
    (hrun₁ : Settles (fun fuel => runCalls fuel before st) st₁)
    (hrun₂ : Settles (fun fuel => call.exec fuel st₁) st₂) :
    st₁.Holds (before.foldl ConsoleCall.apply []) ∧ st₂.exits = st₁.exits ++ call.exits st₁ ∧
    (∀ x, (st₁.console x).exit = (st.console x).exit) ∧
    ∀ c, call = .unregister c → c ∉ before.foldl ConsoleCall.apply [] →
      st₂.consoleList = st₁.consoleList ∧ st₂.console = st₁.console := by
  obtain ⟨h₁, hexit₁⟩ := runCalls_holds hst (fun x hx => hcalls x (List.mem_append_left _ hx)) hrun₁
  obtain ⟨st', hrun', -, -, hexits, habsent⟩ := ConsoleCall.exists_exec h₁ call
    (hcalls _ (List.mem_append_right _ (.head _)))
  cases hrun₂.unique hrun'
  exact ⟨h₁, hexits, hexit₁, habsent⟩

/-- Where a callback runs for a console that is not registered, the run shows it. -/
theorem UnregisterIdempotent.covered (hst : st.consoleList = NULL)
    (hcalls : ∀ call ∈ calls, call.con ≠ NULL) (h : UnregisterIdempotent st calls) {before after c}
    (heq : calls = before ++ .unregister c :: after) :
    Registered before c ∨ (st.console c).exit = NULL := by
  by_contra hnot
  obtain ⟨hreg, hexit⟩ := not_or.mp hnot
  subst heq
  obtain ⟨st₁, hrun₁, h₁, hexit₁⟩ := exists_runCalls (holds_nil hst) fun x hx =>
    hcalls x (List.mem_append_left _ hx)
  obtain ⟨st₂, hrun₂, -, -, hexits₂, -⟩ := ConsoleCall.exists_exec h₁ (.unregister c)
    (hcalls _ (List.mem_append_right _ (.head _)))
  obtain ⟨new, hnew, honly⟩ := h.onList before _ after st₁ st₂ rfl hrun₁ hrun₂
  rw [hexits₂, List.append_cancel_left_eq, ConsoleCall.exits, exitCalls, hexit₁, if_pos hexit] at hnew
  subst hnew
  obtain ⟨-, l, hl, hmem⟩ := honly _ (.head _)
  rw [hl.unique h₁] at hmem
  exact hreg ((mem_foldl_iff_registered before c).mp hmem)

/-- `unregister_console` has no effect on a console that is not registered exactly when that
console has no exit callback, since the search for it and the callback are not connected. -/
theorem unregister_idempotent_iff (hst : st.consoleList = NULL) (hexits : st.exits = [])
    (hcalls : ∀ call ∈ calls, call.con ≠ NULL) : UnregisterIdempotent st calls ↔
      ∀ before c after, calls = before ++ .unregister c :: after →
        Registered before c ∨ (st.console c).exit = NULL := by
  constructor
  · intro h before c after heq
    exact h.covered hst hcalls heq
  · intro hcover
    refine ⟨fun before call after st₁ st₂ heq hrun₁ hrun₂ => ?_,
      fun before c after st₁ st₂ heq hrun₁ hrun₂ l hl hc => ?_,
      fun before after st₁ heq hrun₁ c => ?_⟩
    · obtain ⟨h₁, hexits₂, hexit₁, -⟩ := runCalls_step hst (heq ▸ hcalls) hrun₁ hrun₂
      refine ⟨_, hexits₂, fun e he => ?_⟩
      cases call with
      | register c => exact absurd he List.not_mem_nil
      | unregister c =>
          change e ∈ exitCalls st₁ c at he
          rcases hcover before c after heq with hreg | hnull
          · refine ⟨?_, _, h₁, ?_⟩
            · rw [con_of_mem_exitCalls he]
            · rw [con_of_mem_exitCalls he]
              exact (mem_foldl_iff_registered before c).mpr hreg
          · rw [exitCalls_eq_nil ((hexit₁ c).trans hnull)] at he
            exact absurd he List.not_mem_nil
    · obtain ⟨h₁, -, -, habsent⟩ := runCalls_step hst (heq ▸ hcalls) hrun₁ hrun₂
      exact habsent c rfl (hl.unique h₁ ▸ hc)
    · subst heq
      have hcovered : Covered st [] before := by
        rintro before' d after' rfl
        rw [mem_foldl_iff_registered]
        exact hcover before' d (after' ++ after) (by rw [List.append_assoc, List.cons_append])
      obtain ⟨st', hrun, hle⟩ := exitCount_le (holds_nil hst) (fun x hx =>
        hcalls x (List.mem_append_left _ hx)) hcovered c
      cases hrun₁.unique hrun
      have hzero : exitCount c st = 0 := by rw [exitCount, hexits, List.countP_nil]
      rw [hzero, if_neg List.not_mem_nil] at hle
      omega

end

theorem sample_covered {before after : List ConsoleCall} {c : Word}
    (h : [ConsoleCall.unregister 16, .register 32, .unregister 32] = before ++ .unregister c :: after) :
    Registered before c ∨ (sampleRegistry.console c).exit = NULL := by
  match before, h with
  | [], h =>
      cases h
      exact .inr rfl
  | [_], h => cases h
  | [_, _], h =>
      cases h
      exact .inl ⟨[.unregister 16], [], rfl, List.not_mem_nil⟩
  | _ :: _ :: _ :: _, h => exact absurd h (by simp)

theorem unregister_idempotent_sample :
    UnregisterIdempotent sampleRegistry [.unregister 16, .register 32, .unregister 32] :=
  (unregister_idempotent_iff rfl rfl (by decide)).mpr fun _ _ _ h => sample_covered h

/-- A callback runs for a console that has never been registered. -/
theorem unregister_absent_exits : ¬ UnregisterIdempotent sampleRegistry [.unregister 32] := by
  intro h
  have heq : [ConsoleCall.unregister 32] = [] ++ .unregister 32 :: [] := rfl
  rcases h.covered rfl (by decide) heq with hreg | hexit
  · exact not_registered_nil hreg
  · exact absurd hexit (by decide)

end Rix
