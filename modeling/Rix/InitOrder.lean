import Rix.InitHooks

/-!
# The order of the hooks and of the stages

`REGISTER_INIT_HOOK` promises that the hooks of one stage run from the highest priority to the
lowest, and `stage` is the last stage the boot has completed. Both are exact conditions on the
table: the hooks come in ascending order of their priorities, and a hook of `INIT_STAGE_NONE`
runs in the stage before it.
-/
namespace Rix
open Fuel Sorting

def initStageNone : BitVec 32 := 0

theorem Booted.table_eq {hooksStart : Word} {n c : ℕ} {a : ℕ → List Byte}
    {asked passed : List (BitVec 32)} {st : InitState} (h : Booted hooksStart n a asked passed c st)
    {table : List (List Byte)} (hlen : table.length = n)
    (htable : Contents st.mem hooksStart sizeofHook table) : table = items a n := by
  have hlen' : table.length = (items a n).length := by
    rw [hlen, length_items]
  apply List.ext_getElem hlen'
  intro i hi hi'
  exact Option.some.inj ((htable i hi).symm.trans (h.table.contents i hi'))

theorem length_hooksOf (a : ℕ → List Byte) (c : ℕ) : (hooksOf a c).length = c := by
  rw [hooksOf, List.length_map, length_items]

theorem take_hooksOf (a : ℕ → List Byte) {c n : ℕ} (h : c ≤ n) :
    (hooksOf a n).take c = hooksOf a c := by
  simp only [hooksOf, items, ← List.map_take, List.take_range, Nat.min_eq_left h]

/-- Of two hooks of one stage with different priorities, the one with the higher is the first. -/
def HigherFirst (h h' : InitStageHook) : Prop := h.stage = h'.stage → h'.priority ≤ h.priority

/-- `init_hooks_init` on a table of `n` hooks leaves the hooks of every stage in the order of
their priorities, from the highest on, and `kernel_init_upto` calls them in that order. -/
def PriorityOrder (hooksStart : Word) (n : ℕ) (st : InitState) : Prop :=
  ∃ (st₁ : InitState) (table : List (List Byte)),
    Settles (fun fuel => initHooksInit hooksStart (ptr hooksStart sizeofHook n) fuel st) st₁ ∧
    table.length = n ∧ Contents st₁.mem hooksStart sizeofHook table ∧
    (table.map initStageHook).Pairwise HigherFirst ∧
    ∀ upto : List (BitVec 32), ∃ (st₂ : InitState) (c : ℕ), Settles (fun fuel =>
        upto.foldlM (kernelInitUpto (ptr hooksStart sizeofHook n) fuel) st₁) st₂ ∧
      st₂.calls.map HookCall.target = ((table.map initStageHook).take c).map InitStageHook.target

theorem priority_le_of_hookCmp {x y : List Byte} (h : hookCmp x y ≤ 0)
    (hs : (initStageHook x).stage = (initStageHook y).stage) :
    (initStageHook x).priority ≤ (initStageHook y).priority := by
  rw [hookCmp, if_pos hs] at h
  rw [BitVec.le_def]
  simp only [← BitVec.toNat_inj, BitVec.lt_def] at h
  split_ifs at h <;> omega

section

variable {hooksStart : Word} {table : List (List Byte)} {st : InitState}

/-- The hooks of a stage only stand in both orders when they have one priority. -/
theorem PriorityOrder.priority_eq (hl : Layout hooksStart sizeofHook table.length)
    (htable : Contents st.mem hooksStart sizeofHook table) (hcur : st.initHookCur = hooksStart)
    (hcalls : st.calls = []) (h : PriorityOrder hooksStart table.length st) {x y : List Byte}
    (hx : x ∈ table) (hy : y ∈ table) (hs : (initStageHook x).stage = (initStageHook y).stage) :
    (initStageHook x).priority = (initStageHook y).priority := by
  obtain ⟨m, a, hsort, hperm, hboot⟩ := exists_initHooksInit hl htable hcur hcalls
  obtain ⟨st₁, sorted, hinit, hlen, hcontents, hhigher, -⟩ := h
  cases hsort.unique hinit
  obtain rfl := hboot.table_eq hlen hcontents
  have hasc : (items a table.length).Pairwise fun x y => hookCmp x y ≤ 0 := by
    rw [items, List.pairwise_map]
    exact List.pairwise_lt_range.imp_of_mem fun _ hj hij =>
      hboot.sorted _ _ hij (List.mem_range.mp hj)
  have hpair : (items a table.length).Pairwise fun x y =>
      (initStageHook x).stage = (initStageHook y).stage →
      (initStageHook x).priority = (initStageHook y).priority := by
    refine (hasc.and (List.pairwise_map.mp hhigher)).imp fun hboth hs => ?_
    exact BitVec.le_antisymm (priority_le_of_hookCmp hboth.1 hs) (hboth.2 hs)
  have hflip := hpair.imp (S := flip fun x y =>
      (initStageHook x).stage = (initStageHook y).stage →
      (initStageHook x).priority = (initStageHook y).priority) fun h hs => (h hs.symm).symm
  exact hpair.forall_of_forall_of_flip (fun _ _ _ => rfl) hflip (hperm.mem_iff.mpr hx)
    (hperm.mem_iff.mpr hy) hs

/-- The documented order of the priorities comes out exactly when the priorities of every stage
are the same, since `hook_cmp` puts the lower priority first. -/
theorem initHooksInit_priority_iff (hl : Layout hooksStart sizeofHook table.length)
    (htable : Contents st.mem hooksStart sizeofHook table) (hcur : st.initHookCur = hooksStart)
    (hcalls : st.calls = []) : PriorityOrder hooksStart table.length st ↔
      ∀ x ∈ table, ∀ y ∈ table, (initStageHook x).stage = (initStageHook y).stage →
        (initStageHook x).priority = (initStageHook y).priority := by
  constructor
  · intro h x hx y hy hs
    exact h.priority_eq hl htable hcur hcalls hx hy hs
  · intro h
    obtain ⟨m, a, hsort, hperm, hboot⟩ := exists_initHooksInit hl htable hcur hcalls
    refine ⟨_, items a table.length, hsort, hperm.length_eq, hboot.table.contents, ?_, ?_⟩
    · apply List.pairwise_map.mpr
      apply List.pairwise_of_forall_mem_list
      intro x hx y hy hs
      rw [h x (hperm.mem_iff.mp hx) y (hperm.mem_iff.mp hy) hs]
      exact BitVec.le_refl _
    · intro upto
      obtain ⟨c, st₂, hrun, hb⟩ := hboot.exists_run hl upto
      refine ⟨st₂, c, hrun, ?_⟩
      rw [hb.calls, ← take_hooksOf a hb.le]
      rfl

end

def evenTable : List (List Byte) := [sampleHook 3 1 30 31, sampleHook 1 2 10 11, sampleHook 1 2 20 21]

def unevenTable : List (List Byte) := [sampleHook 1 1 10 11, sampleHook 1 2 20 21]

def bootOf (table : List (List Byte)) : InitState where
  mem := fun x => if x.toNat < 4096 then none else table.flatten[x.toNat - 4096]?
  initHookCur := 4096
  stage := initStageNone
  calls := []

theorem evenTable_contents : Contents (bootOf evenTable).mem 4096 sizeofHook evenTable := by
  intro i hi
  match i, hi with
  | 0, _ => rfl
  | 1, _ => rfl
  | 2, _ => rfl

theorem evenTable_layout : Layout 4096 sizeofHook evenTable.length :=
  ⟨by decide, by decide, by decide, by decide⟩

theorem initHooksInit_priority_even : PriorityOrder 4096 evenTable.length (bootOf evenTable) := by
  have hpriority : ∀ x ∈ evenTable, ∀ y ∈ evenTable, (initStageHook x).stage = (initStageHook y).stage →
      (initStageHook x).priority = (initStageHook y).priority := by decide
  exact (initHooksInit_priority_iff evenTable_layout evenTable_contents rfl rfl).mpr hpriority

theorem unevenTable_contents : Contents (bootOf unevenTable).mem 4096 sizeofHook unevenTable := by
  intro i hi
  match i, hi with
  | 0, _ => rfl
  | 1, _ => rfl

theorem unevenTable_layout : Layout 4096 sizeofHook unevenTable.length :=
  ⟨by decide, by decide, by decide, by decide⟩

/-- Of two hooks of one stage the one with the lower priority is called first. -/
theorem initHooksInit_priority_uneven :
    ¬ PriorityOrder 4096 unevenTable.length (bootOf unevenTable) := by
  intro h
  have heq := h.priority_eq (x := sampleHook 1 1 10 11) (y := sampleHook 1 2 20 21) unevenTable_layout
    unevenTable_contents rfl rfl (.head _) (.tail _ (.head _)) rfl
  exact absurd heq (by decide)

/-- A hook runs when the stages before its own are completed and no later one is. -/
def Observes (call : HookCall) (h : InitStageHook) : Prop :=
  call.target = h.target ∧ call.stage ≤ h.stage ∧ (initStageNone < h.stage → call.stage ≤ h.stage - 1)

/-- Calls of `kernel_init_upto`, each of which only raises `stage`, from the value before it by
those its hooks see to the one it leaves, and calls hooks that observe their own stage. -/
def StageRises (hooksEnd : Word) (hooks : List InitStageHook) : List (BitVec 32) → InitState → Prop
  | [], _ => True
  | u :: upto, st => ∃ (st' : InitState) (new : List HookCall),
      Settles (fun fuel => kernelInitUpto hooksEnd fuel st u) st' ∧ st'.calls = st.calls ++ new ∧
      (st.stage :: (new.map HookCall.stage ++ [st'.stage])).Pairwise (· ≤ ·) ∧
      List.Forall₂ Observes st'.calls (hooks.take st'.calls.length) ∧
      StageRises hooksEnd hooks upto st'

/-- The stage of a boot on a table of `n` hooks rises, call by call. -/
def StageOrder (hooksStart : Word) (n : ℕ) (upto : List (BitVec 32)) (st : InitState) : Prop :=
  ∃ (st₁ : InitState) (table : List (List Byte)),
    Settles (fun fuel => initHooksInit hooksStart (ptr hooksStart sizeofHook n) fuel st) st₁ ∧
    table.length = n ∧ Contents st₁.mem hooksStart sizeofHook table ∧
    StageRises (ptr hooksStart sizeofHook n) (table.map initStageHook) upto st₁

/-- What `kernel_init_upto` makes of a hook: it runs with its own arguments, in the stage before
its own in the arithmetic of `unsigned int`. -/
def Made (call : HookCall) (h : InitStageHook) : Prop :=
  call.target = h.target ∧ call.stage = h.stage - 1

def MadeUpto (a : ℕ → List Byte) (c : ℕ) (st : InitState) : Prop :=
  List.Forall₂ Made st.calls (hooksOf a c)

theorem MadeUpto.call {a : ℕ → List Byte} {c : ℕ} {st : InitState} (h : MadeUpto a c st)
    (next : Word) : MadeUpto a (c + 1) (st.call (initStageHook (a c)) next) := by
  rw [MadeUpto, hooksOf_succ]
  exact List.rel_append h (.cons ⟨rfl, rfl⟩ .nil)

/-- The values of `stage` since `st₀`: they rise, up to `u` and below the hooks from `c` on. -/
def RisesTo (a : ℕ → List Byte) (n : ℕ) (u : BitVec 32) (st₀ : InitState) (c : ℕ) (st : InitState) :
    Prop :=
  ∃ new : List HookCall, st.calls = st₀.calls ++ new ∧
    (st₀.stage :: new.map HookCall.stage).Pairwise (· ≤ ·) ∧
    ∀ s ∈ st₀.stage :: new.map HookCall.stage,
      s ≤ u ∧ ∀ i, c ≤ i → i < n → s < (initStageHook (a i)).stage

theorem initStageNone_lt {x : BitVec 32} (h : x ≠ initStageNone) : initStageNone < x := by
  unfold initStageNone at h ⊢
  bv_omega

theorem sub_one_lt {x : BitVec 32} (h : x ≠ initStageNone) : x - 1 < x := by
  unfold initStageNone at h
  bv_omega

theorem le_sub_one {x y : BitVec 32} (h : x < y) : x ≤ y - 1 := by
  bv_omega

theorem RisesTo.call {hooksStart : Word} {a : ℕ → List Byte} {n c : ℕ} {u : BitVec 32}
    {asked passed : List (BitVec 32)} {st₀ st : InitState} (hb : Booted hooksStart n a asked passed c st)
    (hnone : ∀ i < n, (initStageHook (a i)).stage ≠ initStageNone) (h : RisesTo a n u st₀ c st)
    (hlt : c < n) (hu : (initStageHook (a c)).stage ≤ u) (next : Word) :
    RisesTo a n u st₀ (c + 1) (st.call (initStageHook (a c)) next) := by
  obtain ⟨new, hcalls, hpair, hbelow⟩ := h
  refine ⟨new ++ [⟨(initStageHook (a c)).hook, (initStageHook (a c)).args,
    (initStageHook (a c)).stage - 1, st.initHookCur⟩], ?_, ?_, ?_⟩
  · rw [InitState.call, hcalls, List.append_assoc]
  · rw [List.map_append, ← List.cons_append]
    refine List.pairwise_append.mpr ⟨hpair, List.pairwise_singleton _ _, fun s hs t ht => ?_⟩
    rw [List.mem_singleton.mp ht]
    exact le_sub_one ((hbelow s hs).2 c le_rfl hlt)
  · intro s hs
    rw [List.map_append, ← List.cons_append] at hs
    rcases List.mem_append.mp hs with hs | hs
    · exact ⟨(hbelow s hs).1, fun i hi => (hbelow s hs).2 i (by omega)⟩
    · rw [List.mem_singleton.mp hs]
      have hstep := BitVec.lt_def.mp (sub_one_lt (hnone c hlt))
      refine ⟨?_, fun i hi hin => ?_⟩
      · exact BitVec.le_def.mpr (le_trans (le_of_lt hstep) (BitVec.le_def.mp hu))
      · exact BitVec.lt_def.mpr (lt_of_lt_of_le hstep
          (BitVec.le_def.mp (stage_mono hb.sorted (by omega) hin)))

section

variable {hooksStart : Word} {a : ℕ → List Byte} {n c : ℕ} {st : InitState}

/-- Without a hook of `INIT_STAGE_NONE` a call in the stage before the hook's own observes it. -/
theorem Made.observes {call : HookCall} {h : InitStageHook} (hmade : Made call h)
    (hnone : h.stage ≠ initStageNone) : Observes call h := by
  refine ⟨hmade.1, ?_, fun _ => ?_⟩
  · rw [hmade.2]
    exact BitVec.le_of_lt (sub_one_lt hnone)
  · rw [hmade.2]
    exact BitVec.le_refl _

theorem MadeUpto.observes (h : MadeUpto a c st) (hc : c ≤ n)
    (hnone : ∀ i < n, (initStageHook (a i)).stage ≠ initStageNone) :
    List.Forall₂ Observes st.calls ((hooksOf a n).take st.calls.length) := by
  have hlen : st.calls.length = c := h.length_eq.trans (length_hooksOf a c)
  rw [hlen, take_hooksOf a hc]
  refine List.forall₂_iff_get.mpr ⟨h.length_eq, fun i hi hi' => ?_⟩
  apply (h.get hi hi').observes
  obtain ⟨y, hy, heq⟩ := List.mem_map.mp (List.get_mem (hooksOf a c) ⟨i, hi'⟩)
  obtain ⟨j, hj, rfl⟩ := mem_items.mp hy
  exact heq ▸ hnone j (lt_of_lt_of_le hj hc)

/-- A boot without hooks of `INIT_STAGE_NONE`, asked for stages that do not go back. -/
theorem Booted.stageRises {passed upto : List (BitVec 32)} (hl : Layout hooksStart sizeofHook n)
    (hnone : ∀ i < n, (initStageHook (a i)).stage ≠ initStageNone)
    (h : Booted hooksStart n a passed passed c st) (hmade : MadeUpto a c st)
    (hstage : st.stage = initStageNone ∨ st.stage ∈ passed)
    (hupto : (passed ++ upto).Pairwise (· ≤ ·)) :
    StageRises (ptr hooksStart sizeofHook n) (hooksOf a n) upto st := by
  induction upto generalizing passed c st with
  | nil => trivial
  | cons u upto ih =>
      have hstart : RisesTo a n u st c st := by
        refine ⟨[], (List.append_nil _).symm, List.pairwise_singleton _ _, fun s hs => ?_⟩
        rw [List.mem_singleton.mp hs]
        rcases hstage with hzero | hmem
        · rw [hzero]
          exact ⟨BitVec.le_def.mpr (Nat.zero_le _), fun i _ hi => initStageNone_lt (hnone i hi)⟩
        · refine ⟨(List.pairwise_append.mp hupto).2.2 _ hmem u (.head _), fun i hci hi => ?_⟩
          exact h.above i hci hi _ hmem
      obtain ⟨c', st', hrun, hb, hmade', new, hcalls, hpair, hbelow⟩ := h.exists_upto (u := u) hl
        (fun c st' => MadeUpto a c st' ∧ RisesTo a n u st c st')
        (fun c st' hb hinv hlt hu => ⟨hinv.1.call _, hinv.2.call hb hnone hlt hu _⟩) ⟨hmade, hstart⟩
      refine ⟨{ st' with stage := u }, new, hrun, hcalls, ?_, hmade'.observes hb.le hnone, ?_⟩
      · rw [← List.cons_append]
        refine List.pairwise_append.mpr ⟨hpair, List.pairwise_singleton _ _, fun s hs t ht => ?_⟩
        rw [List.mem_singleton.mp ht]
        exact (hbelow s hs).1
      · refine ih hb hmade' (.inr (List.mem_append_right _ (.head _))) ?_
        rwa [List.append_assoc]

/-- With a hook of `INIT_STAGE_NONE` the first call runs it at the largest stage there is. -/
theorem Booted.not_stageRises (hl : Layout hooksStart sizeofHook n)
    (h : Booted hooksStart n a [] [] 0 st) (hcalls : st.calls = []) {i : ℕ} (hi : i < n)
    (hnone : (initStageHook (a i)).stage = initStageNone) (u : BitVec 32) (upto : List (BitVec 32)) :
    ¬ StageRises (ptr hooksStart sizeofHook n) (hooksOf a n) (u :: upto) st := by
  rintro ⟨st₁, new, hrun, -, -, hobserves, -⟩
  have hfirst : (initStageHook (a 0)).stage = 0 := by
    have hle := stage_mono h.sorted (Nat.zero_le i) hi
    rw [hnone] at hle
    exact BitVec.le_zero_iff.mp hle
  obtain ⟨c, st', hrun', hb, hmade⟩ := h.exists_upto (u := u) hl (MadeUpto a)
    (fun c st' _ hmade _ _ => hmade.call _) (by rw [MadeUpto, hcalls]; exact .nil)
  cases hrun.unique hrun'
  have hpos : 0 < c := by
    by_contra hc
    have habove := hb.above 0 (by omega) (by omega) u (.head _)
    rw [hfirst] at habove
    exact BitVec.not_lt_zero habove
  have hlen : st'.calls.length = c := hmade.length_eq.trans (length_hooksOf a c)
  change List.Forall₂ Observes st'.calls ((hooksOf a n).take st'.calls.length) at hobserves
  rw [hlen, take_hooksOf a hb.le] at hobserves
  have hlt : 0 < (hooksOf a c).length := by rwa [length_hooksOf]
  have hstage := (hmade.get (by omega) hlt).2
  have hobserved := (hobserves.get (by omega) hlt).2.1
  rw [hstage] at hobserved
  have hget : (hooksOf a c).get ⟨0, hlt⟩ = initStageHook (a 0) := by
    simp [hooksOf, items]
  rw [hget, hfirst] at hobserved
  exact absurd hobserved (by decide)

end

section

variable {hooksStart : Word} {table : List (List Byte)} {st : InitState}

theorem StageOrder.ne_none (hl : Layout hooksStart sizeofHook table.length)
    (htable : Contents st.mem hooksStart sizeofHook table) (hcur : st.initHookCur = hooksStart)
    (hcalls : st.calls = []) {u : BitVec 32} {upto : List (BitVec 32)}
    (h : StageOrder hooksStart table.length (u :: upto) st) {x : List Byte} (hx : x ∈ table) :
    (initStageHook x).stage ≠ initStageNone := by
  intro hnone
  obtain ⟨m, a, hsort, hperm, hboot⟩ := exists_initHooksInit hl htable hcur hcalls
  obtain ⟨st₁, sorted, hinit, hlen, hcontents, hrises⟩ := h
  cases hsort.unique hinit
  obtain rfl := hboot.table_eq hlen hcontents
  obtain ⟨i, hi, rfl⟩ := mem_items.mp (hperm.mem_iff.mpr hx)
  exact hboot.not_stageRises hl hcalls hi hnone u upto hrises

/-- `stage` rises from call to call, and no hook observes a stage that is not completed, exactly
when the table has no hook of `INIT_STAGE_NONE`, or `kernel_init_upto` is not called at all. -/
theorem bootStages_stage_iff (hl : Layout hooksStart sizeofHook table.length)
    (htable : Contents st.mem hooksStart sizeofHook table) (hcur : st.initHookCur = hooksStart)
    (hcalls : st.calls = []) (hstage : st.stage = initStageNone) {upto : List (BitVec 32)}
    (hupto : upto.Pairwise (· ≤ ·)) : StageOrder hooksStart table.length upto st ↔
      (∀ x ∈ table, (initStageHook x).stage ≠ initStageNone) ∨ upto = [] := by
  constructor
  · intro h
    cases upto with
    | nil => exact .inr rfl
    | cons u upto => exact .inl fun x hx => h.ne_none hl htable hcur hcalls hx
  · intro h
    obtain ⟨m, a, hsort, hperm, hboot⟩ := exists_initHooksInit hl htable hcur hcalls
    refine ⟨_, items a table.length, hsort, hperm.length_eq, hboot.table.contents, ?_⟩
    rcases h with hnone | rfl
    · refine hboot.stageRises hl (fun i hi => ?_) ?_ (.inl hstage) hupto
      · exact hnone _ (hperm.mem_iff.mp (mem_items.mpr ⟨i, hi, rfl⟩))
      · rw [MadeUpto]
        exact hcalls ▸ .nil
    · trivial

end

theorem bootStages_stage_even : StageOrder 4096 evenTable.length [1, 3] (bootOf evenTable) := by
  have hnone : ∀ x ∈ evenTable, (initStageHook x).stage ≠ initStageNone := by decide
  exact (bootStages_stage_iff evenTable_layout evenTable_contents rfl rfl rfl (by decide)).mpr (.inl hnone)

def noneTable : List (List Byte) := [sampleHook 0 1 10 11]

theorem noneTable_contents : Contents (bootOf noneTable).mem 4096 sizeofHook noneTable := by
  intro i hi
  match i, hi with
  | 0, _ => rfl

theorem noneTable_layout : Layout 4096 sizeofHook noneTable.length :=
  ⟨by decide, by decide, by decide, by decide⟩

/-- The hook runs at stage `0xffffffff`. -/
theorem bootStages_stage_none : ¬ StageOrder 4096 noneTable.length [1] (bootOf noneTable) := by
  intro h
  exact h.ne_none noneTable_layout noneTable_contents rfl rfl (.head _) rfl

end Rix
