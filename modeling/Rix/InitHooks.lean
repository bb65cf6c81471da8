import Rix.QsortRuns

/-!
# `init.c`

The table of the init hooks, its sort and the calls of `kernel_init_upto`. A hook sees
the value of `stage` and of the cursor when it is called.
-/
namespace Rix
open Fuel Sorting

/-- The fields of `init_stage_hook_t` the code reads. -/
structure InitStageHook where
  stage : BitVec 32
  priority : BitVec 32
  hook : Word
  args : Word
  deriving DecidableEq, Repr

def sizeofHook : Word := 32

def field32 (l : List Byte) (o : ℕ) : BitVec 32 :=
  l.getD (o + 3) 0 ++ l.getD (o + 2) 0 ++ l.getD (o + 1) 0 ++ l.getD o 0

def field64 (l : List Byte) (o : ℕ) : Word := field32 l (o + 4) ++ field32 l o

def initStageHook (l : List Byte) : InitStageHook :=
  ⟨field32 l 0, field32 l 4, field64 l 8, field64 l 16⟩

def hookCmp (hook1 hook2 : List Byte) : ℤ :=
  let a := initStageHook hook1
  let b := initStageHook hook2
  if a.stage = b.stage then
    if a.priority = b.priority then 0
    else if a.priority < b.priority then -1 else 1
  else if a.stage < b.stage then -1 else 1

/-- A call of a hook, with the values of `stage` and `init_hook_cur` it can see. -/
structure HookCall where
  hook : Word
  args : Word
  stage : BitVec 32
  initHookCur : Word
  deriving DecidableEq, Repr

/-- The table, the two variables of `init.c` and the calls made so far. -/
structure InitState where
  mem : Bytes
  initHookCur : Word
  stage : BitVec 32
  calls : List HookCall

/-- The state in which the hook runs and behind it, when the cursor has moved to `next`. -/
def InitState.call (st : InitState) (h : InitStageHook) (next : Word) : InitState where
  mem := st.mem
  initHookCur := next
  stage := h.stage - 1
  calls := st.calls ++ [⟨h.hook, h.args, h.stage - 1, st.initHookCur⟩]

section

variable (hooksStart hooksEnd : Word)

def initHooksInit (fuel : ℕ) (st : InitState) : Option InitState :=
  let numHooks := (hooksEnd - hooksStart).sdiv sizeofHook
  (qsort hookCmp fuel st.mem hooksStart numHooks sizeofHook).map fun m => { st with mem := m }

/-- One pass of the loop of `kernel_init_upto`, on `cur_hook` and the state. -/
def uptoPass (uptoStage : BitVec 32) : Word × InitState → Option (Flow (Word × InitState))
  | (curHook, st) =>
    if curHook < hooksEnd then do
      let stage ← load32 st.mem curHook
      if stage ≤ uptoStage then do
        let hook ← load64 st.mem (curHook + 8)
        let args ← load64 st.mem (curHook + 16)
        let st : InitState := { st with stage := stage - 1 }
        let st : InitState := { st with calls := st.calls ++ [⟨hook, args, st.stage, st.initHookCur⟩] }
        let curHook := curHook + sizeofHook
        pure (.next (curHook, { st with initHookCur := curHook }))
      else pure (.stop (curHook, st))
    else pure (.stop (curHook, st))

def kernelInitUpto (fuel : ℕ) (st : InitState) (uptoStage : BitVec 32) : Option InitState := do
  let (_, st) ← loop (uptoPass hooksEnd uptoStage) fuel (st.initHookCur, st)
  pure { st with stage := uptoStage }

/-- `init_hooks_init` and then the calls of `kernel_init_upto`. -/
def bootStages (fuel : ℕ) (upto : List (BitVec 32)) (st : InitState) : Option InitState := do
  let st ← initHooksInit hooksStart hooksEnd fuel st
  upto.foldlM (kernelInitUpto hooksEnd fuel) st

end

/-- `hook_cmp` orders by stage and then by priority. -/
theorem comparison_hookCmp (S : Set (List Byte)) : Comparison S hookCmp := by
  refine ⟨fun x _ => ?_, fun x _ y _ => ?_, fun x _ y _ z _ => ?_⟩ <;>
    simp only [hookCmp, ← BitVec.toNat_inj, BitVec.lt_def] <;> split_ifs <;> omega

theorem stage_le_of_hookCmp {x y : List Byte} (h : hookCmp x y ≤ 0) :
    (initStageHook x).stage ≤ (initStageHook y).stage := by
  simp only [hookCmp, ← BitVec.toNat_inj, BitVec.lt_def] at h
  rw [BitVec.le_def]
  split_ifs at h <;> omega

section

variable {m : Bytes} {p : Word} {l : List Byte} {k o : ℕ}

theorem load32_field (h : loadBytes m p k = some l) (ho : o + 4 ≤ k) :
    load32 m (p + BitVec.ofNat 64 o) = some (field32 l o) := by
  obtain ⟨hlen, hb⟩ := loadBytes_eq_some.mp h
  have hbyte : ∀ i < 4, m (p + BitVec.ofNat 64 o + BitVec.ofNat 64 i) = some (l.getD (o + i) 0) := by
    intro i hi
    rw [BitVec.add_assoc, ← BitVec.ofNat_add, hb (o + i) (by omega)]
    simp only [List.getD_eq_getElem?_getD, List.getElem?_eq_getElem (show o + i < l.length by omega),
      Option.getD_some]
  have h0 := hbyte 0 (by decide)
  rw [BitVec.add_zero, Nat.add_zero] at h0
  exact Option.bind_eq_some_iff.mpr ⟨_, h0, Option.bind_eq_some_iff.mpr ⟨_, hbyte 1 (by decide),
    Option.bind_eq_some_iff.mpr ⟨_, hbyte 2 (by decide),
      Option.bind_eq_some_iff.mpr ⟨_, hbyte 3 (by decide), rfl⟩⟩⟩⟩

theorem load64_field (h : loadBytes m p k = some l) (ho : o + 8 ≤ k) :
    load64 m (p + BitVec.ofNat 64 o) = some (field64 l o) := by
  have hlo := load32_field (o := o) h (by omega)
  have hhi := load32_field (o := o + 4) h (by omega)
  rw [BitVec.ofNat_add, ← BitVec.add_assoc] at hhi
  exact Option.bind_eq_some_iff.mpr ⟨_, hlo, Option.bind_eq_some_iff.mpr ⟨_, hhi, rfl⟩⟩

end

def HookCall.target (c : HookCall) : Word × Word := (c.hook, c.args)

def InitStageHook.target (h : InitStageHook) : Word × Word := (h.hook, h.args)

def hooksOf (a : ℕ → List Byte) (n : ℕ) : List InitStageHook := (items a n).map initStageHook

/-- The state of a boot on a sorted table of `n` hooks: the cursor is at hook `c`, the hooks before
it have been called in table order, each for one of the stages `asked`, and the hooks from `c` on
are above the stages `passed`. -/
structure Booted (hooksStart : Word) (n : ℕ) (a : ℕ → List Byte) (asked passed : List (BitVec 32))
    (c : ℕ) (st : InitState) : Prop where
  table : Elements st.mem hooksStart sizeofHook n a
  sorted : Sorted hookCmp a n
  le : c ≤ n
  cur : st.initHookCur = ptr hooksStart sizeofHook c
  calls : st.calls.map HookCall.target = (hooksOf a c).map InitStageHook.target
  inside : ∀ call ∈ st.calls, ∃ i ≤ n, call.initHookCur = ptr hooksStart sizeofHook i
  below : ∀ i < c, ∃ u ∈ asked, (initStageHook (a i)).stage ≤ u
  above : ∀ i, c ≤ i → i < n → ∀ u ∈ passed, u < (initStageHook (a i)).stage

section

variable {hooksStart : Word} {n c : ℕ} {a : ℕ → List Byte} {upto : List (BitVec 32)} {u : BitVec 32}
  {st : InitState}

theorem stage_mono (h : Sorted hookCmp a n) {i j : ℕ} (hij : i ≤ j) (hj : j < n) :
    (initStageHook (a i)).stage ≤ (initStageHook (a j)).stage := by
  rcases Nat.lt_or_eq_of_le hij with hlt | rfl
  · exact stage_le_of_hookCmp (h i j hlt hj)
  · exact BitVec.le_refl _

theorem hooksOf_succ (a : ℕ → List Byte) (c : ℕ) :
    hooksOf a (c + 1) = hooksOf a c ++ [initStageHook (a c)] := by
  rw [hooksOf, items, List.range_succ, List.map_append, List.map_append]
  rfl

theorem Booted.call (h : Booted hooksStart n a (upto ++ [u]) upto c st) (hlt : c < n)
    (hu : (initStageHook (a c)).stage ≤ u) : Booted hooksStart n a (upto ++ [u]) upto (c + 1)
      (st.call (initStageHook (a c)) (ptr hooksStart sizeofHook (c + 1))) where
  table := h.table
  sorted := h.sorted
  le := hlt
  cur := rfl
  calls := by
    rw [InitState.call, List.map_append, h.calls, hooksOf_succ, List.map_append]
    rfl
  inside := by
    intro x hx
    rcases List.mem_append.mp hx with hx | hx
    · exact h.inside x hx
    · rw [List.mem_singleton.mp hx]
      exact ⟨c, h.le, h.cur⟩
  below := by
    intro i hi
    by_cases hic : i < c
    · exact h.below i hic
    · obtain rfl : i = c := by omega
      exact ⟨u, List.mem_append_right _ (List.mem_singleton_self u), hu⟩
  above i hi := h.above i (by omega)

/-- The loop of `kernel_init_upto u` calls the hooks up to stage `u` that are left, and keeps what
every call of a hook keeps. -/
theorem Booted.exists_loop (hl : Layout hooksStart sizeofHook n) (inv : ℕ → InitState → Prop)
    (hinv : ∀ c st, Booted hooksStart n a (upto ++ [u]) upto c st → inv c st → c < n →
      (initStageHook (a c)).stage ≤ u →
      inv (c + 1) (st.call (initStageHook (a c)) (ptr hooksStart sizeofHook (c + 1))))
    (h : Booted hooksStart n a (upto ++ [u]) upto c st) (hc : inv c st) : ∃ c' st',
      LoopSettles (fun _ => uptoPass (ptr hooksStart sizeofHook n) u)
        (ptr hooksStart sizeofHook c, st) (ptr hooksStart sizeofHook c', st') ∧
      Booted hooksStart n a (upto ++ [u]) (upto ++ [u]) c' st' ∧ inv c' st' := by
  induction hd : n - c generalizing c st with
  | zero =>
      have hcn : c = n := by have := h.le; omega
      refine ⟨c, st, .stop (.of_forall fun _ => ?_), { h with above := fun i hi hn => by omega }, hc⟩
      rw [hcn, uptoPass, if_neg (BitVec.lt_irrefl _)]
      rfl
  | succ d ih =>
      have hlt : c < n := by omega
      have hptr := (hl.ptr_lt h.le le_rfl).mpr hlt
      have hload := h.table c hlt
      have hstage := load32_field (o := 0) hload (by decide)
      have hhook := load64_field (o := 8) hload (by decide)
      have hargs := load64_field (o := 16) hload (by decide)
      rw [BitVec.add_zero] at hstage
      by_cases hu : (initStageHook (a c)).stage ≤ u
      · obtain ⟨c', st', hloop, hb⟩ := ih (h.call hlt hu) (hinv c st h hc hlt hu) (by omega)
        refine ⟨c', st', .next (.of_forall fun _ => ?_) hloop, hb⟩
        simp only [uptoPass, if_pos hptr, hstage, Option.bind_eq_bind, Option.bind_some]
        rw [if_pos (show field32 (a c) 0 ≤ u from hu)]
        simp only [show (8 : Word) = BitVec.ofNat 64 8 from rfl,
          show (16 : Word) = BitVec.ofNat 64 16 from rfl, hhook, hargs, Option.bind_some, ptr_succ]
        rfl
      · refine ⟨c, st, .stop (.of_forall fun _ => ?_),
          { h with above := fun i hi hn u' hu' => ?_ }, hc⟩
        · simp only [uptoPass, if_pos hptr, hstage, Option.bind_eq_bind, Option.bind_some]
          rw [if_neg (show ¬ field32 (a c) 0 ≤ u from hu)]
          rfl
        · rcases List.mem_append.mp hu' with hu' | hu'
          · exact h.above i hi hn u' hu'
          · rw [List.mem_singleton.mp hu']
            exact BitVec.lt_def.mpr (Nat.lt_of_lt_of_le (BitVec.lt_def.mp (BitVec.not_le.mp hu))
              (BitVec.le_def.mp (stage_mono h.sorted hi hn)))

theorem Booted.ask (h : Booted hooksStart n a upto upto c st) (u : BitVec 32) :
    Booted hooksStart n a (upto ++ [u]) upto c st :=
  { h with
    below := fun i hi => by
      obtain ⟨u', hu', hle⟩ := h.below i hi
      exact ⟨u', List.mem_append_left _ hu', hle⟩ }

theorem Booted.exists_upto (hl : Layout hooksStart sizeofHook n) (inv : ℕ → InitState → Prop)
    (hinv : ∀ c st, Booted hooksStart n a (upto ++ [u]) upto c st → inv c st → c < n →
      (initStageHook (a c)).stage ≤ u →
      inv (c + 1) (st.call (initStageHook (a c)) (ptr hooksStart sizeofHook (c + 1))))
    (h : Booted hooksStart n a upto upto c st) (hc : inv c st) : ∃ c' st',
      Settles (fun fuel => kernelInitUpto (ptr hooksStart sizeofHook n) fuel st u)
        { st' with stage := u } ∧
      Booted hooksStart n a (upto ++ [u]) (upto ++ [u]) c' { st' with stage := u } ∧ inv c' st' := by
  obtain ⟨c', st', hloop, hb, hc'⟩ := (h.ask u).exists_loop hl inv hinv hc
  refine ⟨c', st', (hloop.settles.map fun r => { r.2 with stage := u }).congr fun fuel => ?_,
    { hb with }, hc'⟩
  simp only [kernelInitUpto, h.cur, Option.bind_eq_bind, Option.map_eq_bind]
  rfl

/-- Any number of calls, in any order of stages. -/
theorem Booted.exists_run (hl : Layout hooksStart sizeofHook n) (more : List (BitVec 32))
    (h : Booted hooksStart n a upto upto c st) : ∃ c' st',
      Settles (fun fuel => more.foldlM (kernelInitUpto (ptr hooksStart sizeofHook n) fuel) st) st' ∧
      Booted hooksStart n a (upto ++ more) (upto ++ more) c' st' := by
  induction more generalizing upto c st with
  | nil => exact ⟨c, st, .of_forall fun _ => rfl, by rwa [List.append_nil]⟩
  | cons u more ih =>
      obtain ⟨c₁, st₁, hs₁, hb₁, -⟩ := h.exists_upto (u := u) hl (fun _ _ => True)
        (fun _ _ _ _ _ _ => trivial) trivial
      obtain ⟨c', st', hs', hb'⟩ := ih hb₁
      rw [List.append_assoc, List.singleton_append] at hb'
      refine ⟨c', st', (hs₁.bind (g := fun fuel st =>
        more.foldlM (kernelInitUpto (ptr hooksStart sizeofHook n) fuel) st) hs').congr fun fuel => ?_, hb'⟩
      rw [List.foldlM_cons]
      rfl

theorem Booted.perm (h : Booted hooksStart n a upto upto c st) :
    hooksOf a c = (hooksOf a n).filter fun h => ∃ u ∈ upto, h.stage ≤ u := by
  obtain ⟨r, rfl⟩ := Nat.exists_eq_add_of_le h.le
  have hbelow : (hooksOf a c).filter (fun h => ∃ u ∈ upto, h.stage ≤ u) = hooksOf a c := by
    refine List.filter_eq_self.mpr fun x hx => decide_eq_true ?_
    obtain ⟨y, hy, rfl⟩ := List.mem_map.mp hx
    obtain ⟨i, hi, rfl⟩ := mem_items.mp hy
    exact h.below i hi
  have habove : ((items (fun k => a (c + k)) r).map initStageHook).filter
      (fun h => ∃ u ∈ upto, h.stage ≤ u) = [] := by
    refine List.filter_eq_nil_iff.mpr fun x hx hc => ?_
    obtain ⟨y, hy, rfl⟩ := List.mem_map.mp hx
    obtain ⟨i, hi, rfl⟩ := mem_items.mp hy
    obtain ⟨u, hu, hle⟩ := of_decide_eq_true hc
    exact absurd hle (BitVec.not_le.mpr (h.above (c + i) (by omega) (by omega) u hu))
  rw [show hooksOf a (c + r) = hooksOf a c ++ (items (fun k => a (c + k)) r).map initStageHook by
    rw [hooksOf, items_add, List.map_append]
    rfl, List.filter_append, hbelow, habove, List.append_nil]

end

/-- `init_hooks_init` sorts the hooks of the table. -/
theorem exists_initHooksInit {hooksStart : Word} {table : List (List Byte)} {st : InitState}
    (hl : Layout hooksStart sizeofHook table.length)
    (htable : Contents st.mem hooksStart sizeofHook table) (hcur : st.initHookCur = hooksStart)
    (hcalls : st.calls = []) : ∃ m a, Settles (fun fuel =>
        initHooksInit hooksStart (ptr hooksStart sizeofHook table.length) fuel st) { st with mem := m } ∧
      (items a table.length).Perm table ∧
      Booted hooksStart table.length a [] [] 0 { st with mem := m } := by
  set n := table.length with hn
  have hsize := hl.toNat_size (le_refl n)
  have hcount : ((ptr hooksStart sizeofHook n - hooksStart).sdiv sizeofHook).toNat = n := by
    have hdiff := ptr_sub_ptr hooksStart sizeofHook (Nat.zero_le n)
    rw [ptr_zero, Nat.sub_zero] at hdiff
    have hmsb : (BitVec.ofNat 64 (n * sizeofHook.toNat)).msb = false := by
      rw [BitVec.msb_eq_false_iff_two_mul_lt, hsize]
      have := hl.size
      omega
    rw [hdiff, BitVec.sdiv_eq, hmsb, show sizeofHook.msb = false from rfl]
    show (BitVec.ofNat 64 (n * sizeofHook.toNat) / sizeofHook).toNat = n
    rw [BitVec.toNat_udiv, hsize, Nat.mul_div_cancel _ hl.pos]
  obtain ⟨m, a, hsort, hr, hsorted⟩ := exists_qsort hookCmp
    (comparison_hookCmp (values sizeofHook)).refl n _ hcount hl htable.elements
  have hperm := hr.perm
  rw [hn, items_getD] at hperm
  refine ⟨m, a, hsort.map fun m => ({ st with mem := m } : InitState), hperm, {
    table := hr.elements
    sorted := hsorted (comparison_hookCmp _)
    le := Nat.zero_le n
    cur := by rw [ptr_zero]; exact hcur
    calls := by simp only [hcalls]; rfl
    inside := by simp only [hcalls]; exact fun _ h => absurd h List.not_mem_nil
    below := fun i hi => absurd hi (Nat.not_lt_zero i)
    above := fun i _ _ u hu => absurd hu List.not_mem_nil }⟩

/-- A whole boot: after `init_hooks_init` and any calls of `kernel_init_upto`, the calls made are
those of the hooks up to the highest stage asked for, each as often as the table has it, with its
own arguments and in the order of the stages, and the cursor has stayed in the table. -/
theorem bootStages_calls {hooksStart : Word} {table : List (List Byte)} {st : InitState}
    (hl : Layout hooksStart sizeofHook table.length)
    (htable : Contents st.mem hooksStart sizeofHook table) (hcur : st.initHookCur = hooksStart)
    (hcalls : st.calls = []) (upto : List (BitVec 32)) :
    ∃ (st' : InitState) (hooks : List InitStageHook), Settles (fun fuel =>
        bootStages hooksStart (ptr hooksStart sizeofHook table.length) fuel upto st) st' ∧
      st'.calls.map HookCall.target = hooks.map InitStageHook.target ∧
      hooks.Perm ((table.map initStageHook).filter fun h => ∃ u ∈ upto, h.stage ≤ u) ∧
      hooks.Pairwise (fun h h' => h.stage ≤ h'.stage) ∧
      ∀ p, p = st'.initHookCur ∨ (∃ call ∈ st'.calls, p = call.initHookCur) →
        hooksStart ≤ p ∧ p ≤ ptr hooksStart sizeofHook table.length := by
  have hend := hl.ptr_toNat (le_refl table.length)
  obtain ⟨m, a, hsort, hperm, hboot⟩ := exists_initHooksInit hl htable hcur hcalls
  obtain ⟨c, st', hrun, hb⟩ := hboot.exists_run hl upto
  refine ⟨st', hooksOf a c, ?_, hb.calls, ?_, ?_, ?_⟩
  · exact (hsort.bind (g := fun fuel st => upto.foldlM
      (kernelInitUpto (ptr hooksStart sizeofHook table.length) fuel) st) hrun).congr fun fuel => rfl
  · rw [List.nil_append] at hb
    rw [hb.perm]
    exact (hperm.map initStageHook).filter _
  · rw [hooksOf, items, List.map_map, List.pairwise_map]
    exact List.pairwise_lt_range.imp_of_mem fun _ hj hij => stage_mono hb.sorted (le_of_lt hij)
      (lt_of_lt_of_le (List.mem_range.mp hj) hb.le)
  · have hin : ∀ i ≤ table.length, hooksStart ≤ ptr hooksStart sizeofHook i ∧
        ptr hooksStart sizeofHook i ≤ ptr hooksStart sizeofHook table.length := by
      intro i hi
      have := Nat.mul_le_mul_right sizeofHook.toNat hi
      rw [BitVec.le_def, BitVec.le_def, hl.ptr_toNat hi, hend]
      omega
    rintro p (rfl | ⟨call, hcall, rfl⟩)
    · exact hb.cur ▸ hin c hb.le
    · obtain ⟨i, hi, hp⟩ := hb.inside call hcall
      exact hp ▸ hin i hi

def sampleHook (stage priority hook args : Byte) : List Byte :=
  [stage, 0, 0, 0, priority, 0, 0, 0, hook, 0, 0, 0, 0, 0, 0, 0, args, 0, 0, 0, 0, 0, 0, 0] ++
    [0, 0, 0, 0, 0, 0, 0, 0]

def sampleTable : List (List Byte) := [sampleHook 3 1 30 31, sampleHook 1 1 10 11, sampleHook 2 1 20 21]

def sampleBoot : InitState where
  mem := fun x => if x.toNat < 4096 then none else sampleTable.flatten[x.toNat - 4096]?
  initHookCur := 4096
  stage := 0
  calls := []

theorem sampleTable_layout : Layout 4096 sizeofHook sampleTable.length :=
  ⟨by decide, by decide, by decide, by decide⟩

theorem sampleTable_contents : Contents sampleBoot.mem 4096 sizeofHook sampleTable := by
  intro i hi
  match i, hi with
  | 0, _ => rfl
  | 1, _ => rfl
  | 2, _ => rfl

theorem bootStages_calls_sample : ∃ (st' : InitState) (hooks : List InitStageHook),
    Settles (fun fuel => bootStages 4096 (ptr 4096 sizeofHook 3) fuel [2, 1] sampleBoot) st' ∧
    st'.calls.map HookCall.target = hooks.map InitStageHook.target ∧
    hooks.Perm [⟨1, 1, 10, 11⟩, ⟨2, 1, 20, 21⟩] ∧ hooks.Pairwise (fun h h' => h.stage ≤ h'.stage) ∧
    ∀ p, p = st'.initHookCur ∨ (∃ call ∈ st'.calls, p = call.initHookCur) →
      (4096 : Word) ≤ p ∧ p ≤ ptr 4096 sizeofHook 3 := by
  obtain ⟨st', hooks, hrun, hcalls, hperm, hsorted, hcur⟩ :=
    bootStages_calls sampleTable_layout sampleTable_contents rfl rfl [2, 1]
  have hcalled : ((sampleTable.map initStageHook).filter fun h => ∃ u ∈ [2, 1], h.stage ≤ u) =
      [⟨1, 1, 10, 11⟩, ⟨2, 1, 20, 21⟩] := by
    rw [show sampleTable.map initStageHook = [⟨3, 1, 30, 31⟩, ⟨1, 1, 10, 11⟩, ⟨2, 1, 20, 21⟩] from rfl]
    simp
  exact ⟨st', hooks, hrun, hcalls, hcalled ▸ hperm, hsorted, hcur⟩

end Rix
