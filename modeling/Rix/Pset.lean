import Rix.IntrusiveList

/-!
# The processor sets of `processor.c`

A set has a list of its processors and a list of its threads, with a counter beside each, and every
processor and thread has a pointer to its set. The functions on processors and those on threads are
the same but for the fields they use.
-/
namespace Rix
open Rings Fuel

inductive PsetItem where
  | processor
  | thread
  deriving DecidableEq, Repr

/-- `&pset->processor_list` and `&pset->threads`. -/
def PsetItem.list : PsetItem → Word → Word
  | .processor, pset => pset + 16
  | .thread, pset => pset + 40

/-- `&processor->pset_node` and `&thread->pset_threads`. -/
def PsetItem.node : PsetItem → Word → Word
  | .processor, item => item
  | .thread, item => item + 24

def psetTasks (pset : Word) : Word := pset + 64

/-- The links of every `list_node_t`, the counters of the set at every address (`processor_count` and
`thread_count`, then `task_count`) and the field `pset` of the processor or thread at every address. -/
structure PsetState where
  heap : ListHeap
  count : PsetItem → Word → BitVec 32
  taskCount : Word → BitVec 32
  pset : PsetItem → Word → Word

namespace PsetState

def setCount (s : PsetState) (k : PsetItem) (p : Word) (n : BitVec 32) : PsetState :=
  { s with count := fun k' p' => if k' = k ∧ p' = p then n else s.count k' p' }

def setPset (s : PsetState) (k : PsetItem) (x p : Word) : PsetState :=
  { s with pset := fun k' x' => if k' = k ∧ x' = x then p else s.pset k' x' }

end PsetState

def psetInit (s : PsetState) (pset : Word) : PsetState :=
  let s := { s with heap := listInit s.heap (PsetItem.processor.list pset) }
  let s := s.setCount .processor pset 0
  let s := { s with heap := listInit s.heap (PsetItem.thread.list pset) }
  let s := s.setCount .thread pset 0
  let s := { s with heap := listInit s.heap (psetTasks pset) }
  { s with taskCount := fun p => if p = pset then 0 else s.taskCount p }

/-- What the two functions that add an item do. -/
def psetAdd (k : PsetItem) (s : PsetState) (pset item : Word) : PsetState :=
  let s := { s with heap := listAdd s.heap (k.list pset) (k.node item) }
  let s := s.setPset k item pset
  s.setCount k pset (s.count k pset + 1)

/-- What the two functions that remove an item do. The set is the one that the caller names. -/
def psetRemove (k : PsetItem) (s : PsetState) (pset item : Word) : PsetState :=
  let s := { s with heap := listDelete s.heap (k.node item) }
  let s := s.setPset k item NULL
  s.setCount k pset (s.count k pset - 1)

def psetAddProcessor (s : PsetState) (processor pset : Word) : PsetState :=
  psetAdd .processor s pset processor

def psetRemoveProcessor (s : PsetState) (processor pset : Word) : PsetState :=
  psetRemove .processor s pset processor

def psetAddThread (s : PsetState) (pset thread : Word) : PsetState := psetAdd .thread s pset thread

def psetRemoveThread (s : PsetState) (pset thread : Word) : PsetState :=
  psetRemove .thread s pset thread

inductive PsetCall where
  | init (pset : Word)
  | addProcessor (processor pset : Word)
  | removeProcessor (processor pset : Word)
  | addThread (pset thread : Word)
  | removeThread (pset thread : Word)
  deriving DecidableEq, Repr

namespace PsetCall

def exec (s : PsetState) : PsetCall → PsetState
  | .init pset => psetInit s pset
  | .addProcessor processor pset => psetAddProcessor s processor pset
  | .removeProcessor processor pset => psetRemoveProcessor s processor pset
  | .addThread pset thread => psetAddThread s pset thread
  | .removeThread pset thread => psetRemoveThread s pset thread

def set : PsetCall → Word
  | .init pset | .addProcessor _ pset | .removeProcessor _ pset => pset
  | .addThread pset _ | .removeThread pset _ => pset

end PsetCall

def runPset (s : PsetState) (calls : List PsetCall) : PsetState := calls.foldl PsetCall.exec s

inductive PsetNode where
  | list (k : PsetItem) (pset : Word)
  | tasks (pset : Word)
  | item (k : PsetItem) (x : Word)

def PsetNode.addr : PsetNode → Word
  | .list k pset => k.list pset
  | .tasks pset => psetTasks pset
  | .item k x => k.node x

def PsetNode.In (sets : Set Word) (items : PsetItem → Set Word) : PsetNode → Prop
  | .list _ pset | .tasks pset => pset ∈ sets
  | .item k x => x ∈ items k

/-- The sets, processors and threads there are. No two of their nodes have one address. -/
structure PsetObjects where
  sets : Set Word
  items : PsetItem → Set Word
  set_ne : NULL ∉ sets
  addr_ne : ∀ {n : PsetNode}, n.In sets items → n.addr ≠ NULL
  addr_inj : ∀ {n n' : PsetNode}, n.In sets items → n'.In sets items → n.addr = n'.addr → n = n'

/-- The sets in use, and what each of them holds. -/
structure Roster where
  ready : Set Word
  members : PsetItem → Word → List Word

namespace Roster

def empty : Roster := ⟨∅, fun _ _ => []⟩

def setMembers (R : Roster) (k : PsetItem) (p : Word) (xs : List Word) : Roster :=
  { R with members := fun k' p' => if k' = k ∧ p' = p then xs else R.members k' p' }

def add (R : Roster) (k : PsetItem) (p x : Word) : Roster := R.setMembers k p (x :: R.members k p)

def remove (R : Roster) (k : PsetItem) (p x : Word) : Roster :=
  R.setMembers k p ((R.members k p).erase x)

/-- The node is one of the set's heads or belongs to an item that it holds. -/
def OfSet (R : Roster) (p : Word) : PsetNode → Prop
  | .list _ q | .tasks q => q = p
  | .item k x => x ∈ R.members k p

/-- The node belongs to a set in use or to an item in a set. -/
def Uses (R : Roster) : PsetNode → Prop
  | .list _ q | .tasks q => q ∈ R.ready
  | .item k x => ∃ p, x ∈ R.members k p

end Roster

namespace PsetCall

def apply (R : Roster) : PsetCall → Roster
  | .init pset => { R with ready := insert pset R.ready }
  | .addProcessor processor pset => R.add .processor pset processor
  | .removeProcessor processor pset => R.remove .processor pset processor
  | .addThread pset thread => R.add .thread pset thread
  | .removeThread pset thread => R.remove .thread pset thread

/-- A set that is initialized holds nothing, an item that is added is in no set, and an item is removed
from the set that it is in. -/
def Admissible (O : PsetObjects) (R : Roster) : PsetCall → Prop
  | .init pset => pset ∈ O.sets ∧ ∀ k, R.members k pset = []
  | .addProcessor processor pset =>
    pset ∈ R.ready ∧ processor ∈ O.items .processor ∧ ∀ p, processor ∉ R.members .processor p
  | .removeProcessor processor pset => processor ∈ R.members .processor pset
  | .addThread pset thread =>
    pset ∈ R.ready ∧ thread ∈ O.items .thread ∧ ∀ p, thread ∉ R.members .thread p
  | .removeThread pset thread => thread ∈ R.members .thread pset

end PsetCall

def runRoster (R : Roster) (calls : List PsetCall) : Roster := calls.foldl PsetCall.apply R

def AdmissiblePset (O : PsetObjects) (R : Roster) : List PsetCall → Prop
  | [] => True
  | call :: calls => call.Admissible O R ∧ AdmissiblePset O (call.apply R) calls

structure PsetFamily (R : Roster) (F : Family Word) : Prop where
  list : ∀ k, ∀ p ∈ R.ready, F (k.list p) = some ((R.members k p).map k.node)
  tasks : ∀ p ∈ R.ready, F (psetTasks p) = some []
  linked : ∀ {x}, Linked F x → ∃ n, R.Uses n ∧ n.addr = x

/-- The lists, the counters and the pointers agree with the roster. -/
structure PsetInv (O : PsetObjects) (s : PsetState) (R : Roster) : Prop where
  lists : ∃ F, Lists s.heap F ∧ PsetFamily R F
  ready : R.ready ⊆ O.sets
  members : ∀ {k p x}, x ∈ R.members k p → p ∈ R.ready ∧ x ∈ O.items k
  count : ∀ k, ∀ p ∈ R.ready, s.count k p = BitVec.ofNat 32 (R.members k p).length
  pset : ∀ k, ∀ x ∈ O.items k, ∀ p ∈ O.sets, (x ∈ R.members k p ↔ s.pset k x = p)

abbrev PsetObjects.Has (O : PsetObjects) (n : PsetNode) : Prop := n.In O.sets O.items

section

variable {O : PsetObjects} {s : PsetState} {R : Roster} {F : Family Word} {k : PsetItem} {p q x : Word}
  {n : PsetNode}

theorem PsetItem.node_injective (k : PsetItem) : Function.Injective k.node := by
  intro x y h
  cases k with
  | processor => exact h
  | thread => exact (BitVec.add_left_inj _).mp h

namespace Roster

theorem members_setMembers (R : Roster) (k : PsetItem) (p : Word) (xs : List Word) :
    (R.setMembers k p xs).members k p = xs := if_pos ⟨rfl, rfl⟩

theorem members_setMembers_ne (R : Roster) {k k' : PsetItem} {p p' : Word} (xs : List Word)
    (h : ¬ (k' = k ∧ p' = p)) : (R.setMembers k p xs).members k' p' = R.members k' p' := if_neg h

end Roster

namespace PsetInv

theorem has (h : PsetInv O s R) (hn : R.Uses n) : O.Has n := by
  cases n with
  | list k p => exact h.ready hn
  | tasks p => exact h.ready hn
  | item k x =>
      obtain ⟨p, hx⟩ := hn
      exact (h.members hx).2

theorem has_ofSet (h : PsetInv O s R) (hp : p ∈ O.sets) (hn : R.OfSet p n) : O.Has n := by
  cases n with
  | list k q => exact hn ▸ hp
  | tasks q => exact hn ▸ hp
  | item k x => exact (h.members hn).2

theorem not_linked (h : PsetInv O s R) (hF : PsetFamily R F) (hn : O.Has n) (huse : ¬ R.Uses n) :
    ¬ Linked F n.addr := by
  intro hlink
  obtain ⟨n', huse', heq⟩ := hF.linked hlink
  exact huse (O.addr_inj (h.has huse') hn heq ▸ huse')

theorem unique (h : PsetInv O s R) (hp : x ∈ R.members k p) (hq : x ∈ R.members k q) : p = q := by
  obtain ⟨hpr, hx⟩ := h.members hp
  have h1 := (h.pset k x hx p (h.ready hpr)).mp hp
  have h2 := (h.pset k x hx q (h.ready (h.members hq).1)).mp hq
  exact h1.symm.trans h2

end PsetInv

theorem PsetInv.empty (hs : ∀ k, ∀ x ∈ O.items k, s.pset k x ∉ O.sets) : PsetInv O s .empty := by
  refine ⟨⟨fun _ => none, ⟨⟨fun hF => ?_, fun hF => ?_⟩, fun ⟨k, xs, hF, _⟩ => ?_⟩, ?_, ?_, ?_⟩, ?_, ?_, ?_, ?_⟩
  · cases hF
  · cases hF
  · cases hF
  · rintro k p ⟨⟩
  · rintro p ⟨⟩
  · rintro x ⟨k, xs, hF, -⟩
    cases hF
  · exact Set.empty_subset _
  · rintro k p x ⟨⟩
  · rintro k p ⟨⟩
  · intro k x hx p hp
    refine iff_of_false List.not_mem_nil fun heq => hs k x hx ?_
    exact heq.symm ▸ hp

/-- A set that is initialized again while it holds nothing stays as it is. -/
theorem Lists.init_or {H : ListHeap} {h : Word} (hl : Lists H F) (hn : ¬ Linked F h ∨ F h = some [])
    (h0 : h ≠ NULL) : Lists (listInit H h) (Function.update F h (some [])) := by
  rcases hn with hn | hF
  · exact hl.init hn h0
  · have hr := hl.rep.ring hF
    rw [Function.update_eq_self_iff.mpr hF.symm]
    refine ⟨hl.rep.congr fun x _ => ?_, hl.notNull⟩
    by_cases hx : x = h
    · rw [hx]
      exact ⟨(if_pos rfl).trans hr.next_head.symm, (if_pos rfl).trans hr.prev_head.symm⟩
    · exact ⟨if_neg hx, if_neg hx⟩

theorem init_or_update {F : Family Word} {a b : Word} (hb : ¬ Linked F b ∨ F b = some []) (hne : b ≠ a) :
    ¬ Linked (Function.update F a (some [])) b ∨ Function.update F a (some []) b = some [] := by
  rw [Function.update_of_ne hne]
  refine hb.imp_left fun hb hlink => ?_
  rcases linked_update hlink with hm | hlink
  · exact hne (List.mem_singleton.mp hm)
  · exact hb hlink

theorem PsetObjects.addr_ne_addr (O : PsetObjects) {n : PsetNode} (n' : PsetNode) (hn : O.Has n)
    (hn' : O.Has n') (hne : n ≠ n') : n.addr ≠ n'.addr :=
  fun heq => hne (O.addr_inj hn hn' heq)

def initFamily (F : Family Word) (p : Word) : Family Word :=
  Function.update (Function.update (Function.update F (PsetItem.processor.list p) (some []))
    (PsetItem.thread.list p) (some [])) (psetTasks p) (some [])

theorem initFamily_list (F : Family Word) (k : PsetItem) (p : Word) :
    initFamily F p (k.list p) = some [] := by
  have h1 : ∀ k : PsetItem, k.list p ≠ psetTasks p := fun k => by
    cases k <;> simp [PsetItem.list, psetTasks]
  have h2 : PsetItem.processor.list p ≠ PsetItem.thread.list p := by simp [PsetItem.list]
  rw [initFamily, Function.update_of_ne (h1 k)]
  cases k with
  | processor => rw [Function.update_of_ne h2, Function.update_self]
  | thread => rw [Function.update_self]

theorem initFamily_other (F : Family Word) {a : Word} (hlist : ∀ k : PsetItem, a ≠ k.list p)
    (htasks : a ≠ psetTasks p) : initFamily F p a = F a := by
  rw [initFamily, Function.update_of_ne htasks, Function.update_of_ne (hlist .thread),
    Function.update_of_ne (hlist .processor)]

theorem linked_initFamily (hx : Linked (initFamily F p) x) :
    (∃ n : PsetNode, (n = .tasks p ∨ ∃ k, n = .list k p) ∧ n.addr = x) ∨ Linked F x := by
  rcases linked_update hx with hx | hx
  · exact .inl ⟨.tasks p, .inl rfl, (List.mem_singleton.mp hx).symm⟩
  rcases linked_update hx with hx | hx
  · exact .inl ⟨.list .thread p, .inr ⟨_, rfl⟩, (List.mem_singleton.mp hx).symm⟩
  rcases linked_update hx with hx | hx
  · exact .inl ⟨.list .processor p, .inr ⟨_, rfl⟩, (List.mem_singleton.mp hx).symm⟩
  · exact .inr hx

namespace PsetInv

theorem lists_init (h : PsetInv O s R) (hp : p ∈ O.sets) (hempty : ∀ k, R.members k p = [])
    (hl : Lists s.heap F) (hF : PsetFamily R F) : Lists (psetInit s p).heap (initFamily F p) := by
  have hhead : ∀ {n : PsetNode}, O.Has n → (R.Uses n → F n.addr = some []) →
      ¬ Linked F n.addr ∨ F n.addr = some [] := by
    intro n hn hused
    by_cases huse : R.Uses n
    · exact .inr (hused huse)
    · exact .inl (h.not_linked hF hn huse)
  have hlist : ∀ k : PsetItem, ¬ Linked F (k.list p) ∨ F (k.list p) = some [] := fun k =>
    hhead (n := .list k p) hp fun huse => by
      rw [PsetNode.addr, hF.list k p huse, hempty, List.map_nil]
  have htasks : ¬ Linked F (psetTasks p) ∨ F (psetTasks p) = some [] :=
    hhead (n := .tasks p) hp fun huse => hF.tasks p huse
  have hne : ∀ n : PsetNode, O.Has n → n.addr ≠ NULL := fun n hn => O.addr_ne hn
  have h1 := hl.init_or (hlist .processor) (hne (.list .processor p) hp)
  have h2 := h1.init_or (init_or_update (hlist .thread) (by simp [PsetItem.list]))
    (hne (.list .thread p) hp)
  exact h2.init_or (init_or_update (init_or_update htasks (by simp [PsetItem.list, psetTasks]))
    (by simp [PsetItem.list, psetTasks])) (hne (.tasks p) hp)

theorem family_init (h : PsetInv O s R) (hp : p ∈ O.sets) (hempty : ∀ k, R.members k p = [])
    (hF : PsetFamily R F) : PsetFamily { R with ready := insert p R.ready } (initFamily F p) := by
  have hother : ∀ {n : PsetNode}, O.Has n → (∀ k, n ≠ .list k p) → n ≠ .tasks p →
      initFamily F p n.addr = F n.addr := fun hn h1 h2 =>
    initFamily_other F (fun k => O.addr_ne_addr (.list k p) hn hp (h1 k))
      (O.addr_ne_addr (.tasks p) hn hp h2)
  refine ⟨fun k q hq => ?_, fun q hq => ?_, fun hx => ?_⟩
  · by_cases hqp : q = p
    · rw [hqp, initFamily_list, hempty, List.map_nil]
    · have hready := hq.resolve_left hqp
      refine (hother (n := .list k q) (h.ready hready) (fun k' he => hqp ?_) ?_).trans (hF.list k q hready)
      · injection he
      · rintro ⟨⟩
  · by_cases hqp : q = p
    · rw [hqp]
      exact Function.update_self ..
    · have hready := hq.resolve_left hqp
      refine (hother (n := .tasks q) (h.ready hready) ?_ fun he => hqp ?_).trans (hF.tasks q hready)
      · rintro k ⟨⟩
      · injection he
  · rcases linked_initFamily hx with ⟨n, hn, heq⟩ | hx
    · refine ⟨n, ?_, heq⟩
      rcases hn with rfl | ⟨k, rfl⟩
      · exact .inl rfl
      · exact .inl rfl
    · obtain ⟨n, huse, heq⟩ := hF.linked hx
      refine ⟨n, ?_, heq⟩
      cases n with
      | list k q => exact .inr huse
      | tasks q => exact .inr huse
      | item k x => exact huse

theorem count_init (h : PsetInv O s R) (hempty : ∀ k, R.members k p = []) (k : PsetItem)
    (hq : q ∈ insert p R.ready) :
    (psetInit s p).count k q = BitVec.ofNat 32 (R.members k q).length := by
  by_cases hqp : q = p
  · rw [hqp, hempty]
    cases k <;> simp [psetInit, PsetState.setCount]
  · simpa [psetInit, PsetState.setCount, hqp] using h.count k q (hq.resolve_left hqp)

theorem init (h : PsetInv O s R) (hp : p ∈ O.sets) (hempty : ∀ k, R.members k p = []) :
    PsetInv O (psetInit s p) { R with ready := insert p R.ready } := by
  obtain ⟨F, hl, hF⟩ := h.lists
  exact ⟨⟨_, h.lists_init hp hempty hl hF, h.family_init hp hempty hF⟩,
    Set.insert_subset hp h.ready, fun hx => ⟨.inr (h.members hx).1, (h.members hx).2⟩,
    fun k _ hq => h.count_init hempty k hq, h.pset⟩

/-- The members of one kind in one set change, and with them their list. -/
theorem family_setMembers (h : PsetInv O s R) (hF : PsetFamily R F) (hp : p ∈ R.ready) {xs : List Word}
    (hkeep : ∀ y ∈ R.members k p,
      Linked (Function.update F (k.list p) (some (xs.map k.node))) (k.node y) → y ∈ xs) :
    PsetFamily (R.setMembers k p xs) (Function.update F (k.list p) (some (xs.map k.node))) := by
  have hset := h.ready hp
  refine ⟨fun k' q hq => ?_, fun q hq => ?_, fun {y} hy => ?_⟩
  · by_cases hsame : k' = k ∧ q = p
    · obtain ⟨rfl, rfl⟩ := hsame
      rw [Function.update_self, Roster.members_setMembers]
    · have hne : k'.list q ≠ k.list p := by
        refine O.addr_ne_addr (n := .list k' q) (.list k p) (h.ready hq) hset fun he => hsame ?_
        injection he with hk hq
        exact ⟨hk, hq⟩
      rw [Function.update_of_ne hne, Roster.members_setMembers_ne _ _ hsame]
      exact hF.list k' q hq
  · have hne : psetTasks q ≠ k.list p := by
      refine O.addr_ne_addr (n := .tasks q) (.list k p) (h.ready hq) hset ?_
      rintro ⟨⟩
    rw [Function.update_of_ne hne]
    exact hF.tasks q hq
  · rcases linked_update hy with hm | hlink
    · rcases List.mem_cons.mp hm with rfl | hm
      · exact ⟨.list k p, hp, rfl⟩
      · obtain ⟨z, hz, rfl⟩ := List.mem_map.mp hm
        refine ⟨.item k z, ⟨p, ?_⟩, rfl⟩
        rwa [Roster.members_setMembers]
    · obtain ⟨n, huse, rfl⟩ := hF.linked hlink
      refine ⟨n, ?_, rfl⟩
      cases n with
      | list k' q => exact huse
      | tasks q => exact huse
      | item k' z =>
          obtain ⟨q, hz⟩ := huse
          refine ⟨q, ?_⟩
          by_cases hsame : k' = k ∧ q = p
          · obtain ⟨rfl, rfl⟩ := hsame
            rw [Roster.members_setMembers]
            exact hkeep z hz hy
          · rwa [Roster.members_setMembers_ne _ _ hsame]

theorem setMembers (h : PsetInv O s R) (hF : PsetFamily R F) (hp : p ∈ R.ready) {xs : List Word}
    {s' : PsetState} (hl : Lists s'.heap (Function.update F (k.list p) (some (xs.map k.node))))
    (hkeep : ∀ y ∈ R.members k p,
      Linked (Function.update F (k.list p) (some (xs.map k.node))) (k.node y) → y ∈ xs)
    (hxs : ∀ y ∈ xs, y ∈ O.items k)
    (hcount : s'.count = (s.setCount k p (BitVec.ofNat 32 xs.length)).count)
    (hpset : ∀ k', ∀ y ∈ O.items k', ∀ q ∈ O.sets,
      (y ∈ (R.setMembers k p xs).members k' q ↔ s'.pset k' y = q)) :
    PsetInv O s' (R.setMembers k p xs) := by
  refine ⟨⟨_, hl, h.family_setMembers hF hp hkeep⟩, h.ready, fun {k' q y} hy => ?_,
    fun k' q hq => ?_, hpset⟩
  · by_cases hsame : k' = k ∧ q = p
    · obtain ⟨rfl, rfl⟩ := hsame
      rw [Roster.members_setMembers] at hy
      exact ⟨hp, hxs y hy⟩
    · rw [Roster.members_setMembers_ne _ _ hsame] at hy
      exact h.members hy
  · rw [hcount]
    by_cases hsame : k' = k ∧ q = p
    · obtain ⟨rfl, rfl⟩ := hsame
      rw [Roster.members_setMembers]
      exact if_pos ⟨rfl, rfl⟩
    · rw [Roster.members_setMembers_ne _ _ hsame]
      exact (if_neg hsame).trans (h.count k' q hq)

theorem lists_add (h : PsetInv O s R) (hl : Lists s.heap F) (hF : PsetFamily R F) (hp : p ∈ R.ready)
    (hx : x ∈ O.items k) (hout : ∀ q, x ∉ R.members k q) : Lists (psetAdd k s p x).heap
      (Function.update F (k.list p) (some ((x :: R.members k p).map k.node))) := by
  have hlist := hF.list k p hp
  have hun : ¬ Linked F (k.node x) := by
    apply h.not_linked hF (n := .item k x) hx
    rintro ⟨q, hq⟩
    exact hout q hq
  have hadd := hl.add ⟨_, _, hlist, List.mem_cons_self⟩ hun (O.addr_ne (n := .item k x) hx)
  rwa [hl.rep.insertAfter_eq hlist List.mem_cons_self, if_pos rfl] at hadd

theorem add (h : PsetInv O s R) (hp : p ∈ R.ready) (hx : x ∈ O.items k)
    (hout : ∀ q, x ∉ R.members k q) : PsetInv O (psetAdd k s p x) (R.add k p x) := by
  obtain ⟨F, hl, hF⟩ := h.lists
  refine h.setMembers hF hp (h.lists_add hl hF hp hx hout) (fun y hy _ => List.mem_cons_of_mem x hy)
    ?_ ?_ fun k' y hy q hq => ?_
  · intro y hy
    rcases List.mem_cons.mp hy with rfl | hy
    · exact hx
    · exact (h.members hy).2
  · rw [List.length_cons, BitVec.ofNat_add, ← h.count k p hp]
    rfl
  · by_cases hsame : k' = k ∧ q = p
    · obtain ⟨rfl, rfl⟩ := hsame
      rw [Roster.members_setMembers, List.mem_cons, h.pset k' y hy q hq]
      by_cases hyx : y = x
      · simp [psetAdd, PsetState.setPset, PsetState.setCount, hyx]
      · simp [psetAdd, PsetState.setPset, PsetState.setCount, hyx]
    · rw [Roster.members_setMembers_ne _ _ hsame]
      by_cases hyx : k' = k ∧ y = x
      · obtain ⟨rfl, rfl⟩ := hyx
        refine iff_of_false (hout q) fun heq => hsame ⟨rfl, ?_⟩
        exact heq.symm.trans (if_pos ⟨rfl, rfl⟩)
      · rw [h.pset k' y hy q hq]
        exact iff_of_eq (congrArg (· = q) (if_neg hyx).symm)

theorem nodup (h : PsetInv O s R) (hp : p ∈ R.ready) : (R.members k p).Nodup := by
  obtain ⟨F, hl, hF⟩ := h.lists
  exact (List.nodup_cons.mp (hl.rep.ring (hF.list k p hp)).nodup).2.of_map

theorem lists_remove (hl : Lists s.heap F) (hF : PsetFamily R F) (hp : p ∈ R.ready)
    (hx : x ∈ R.members k p) : Lists (psetRemove k s p x).heap
      (Function.update F (k.list p) (some (((R.members k p).erase x).map k.node))) ∧
    ¬ Linked (Function.update F (k.list p) (some (((R.members k p).erase x).map k.node)))
      (k.node x) := by
  have hlist := hF.list k p hp
  have hmem := List.mem_map_of_mem (f := k.node) hx
  have hdelete := hl.delete hlist hmem
  rwa [hl.rep.erase_eq hlist hmem, ← List.map_erase k.node_injective] at hdelete

theorem remove (h : PsetInv O s R) (hx : x ∈ R.members k p) :
    PsetInv O (psetRemove k s p x) (R.remove k p x) := by
  obtain ⟨F, hl, hF⟩ := h.lists
  obtain ⟨hp, hitem⟩ := h.members hx
  obtain ⟨hl', hun⟩ := lists_remove hl hF hp hx
  refine h.setMembers hF hp hl' (fun y hy hlink => ?_) ?_ ?_ fun k' y hy q hq => ?_
  · refine (List.mem_erase_of_ne fun he => hun ?_).mpr hy
    exact he ▸ hlink
  · intro y hy
    exact (h.members (List.mem_of_mem_erase hy)).2
  · have hlen := List.length_erase_add_one hx
    have hcount : s.count k p - 1 = BitVec.ofNat 32 ((R.members k p).erase x).length := by
      rw [h.count k p hp, ← hlen, BitVec.ofNat_add]
      exact BitVec.add_sub_cancel _ _
    rw [← hcount]
    rfl
  · by_cases hyx : k' = k ∧ y = x
    · obtain ⟨rfl, rfl⟩ := hyx
      refine iff_of_false (fun hm => ?_) fun heq => O.set_ne ?_
      · by_cases hqp : q = p
        · rw [hqp, Roster.members_setMembers] at hm
          exact (h.nodup hp).not_mem_erase hm
        · rw [Roster.members_setMembers_ne _ _ fun hs => hqp hs.2] at hm
          exact hqp (h.unique hm hx)
      · have hnull : (psetRemove k' s p y).pset k' y = NULL := if_pos ⟨rfl, rfl⟩
        exact (hnull.symm.trans heq) ▸ hq
    · have hpset : (psetRemove k s p x).pset k' y = s.pset k' y := if_neg hyx
      rw [hpset, ← h.pset k' y hy q hq]
      by_cases hsame : k' = k ∧ q = p
      · obtain ⟨rfl, rfl⟩ := hsame
        rw [Roster.members_setMembers]
        exact List.mem_erase_of_ne fun he => hyx ⟨rfl, he⟩
      · rw [Roster.members_setMembers_ne _ _ hsame]

/-- One call keeps the invariant. -/
theorem step (h : PsetInv O s R) {call : PsetCall} (ha : call.Admissible O R) :
    PsetInv O (call.exec s) (call.apply R) := by
  cases call with
  | init pset => exact h.init ha.1 ha.2
  | addProcessor processor pset => exact h.add ha.1 ha.2.1 ha.2.2
  | removeProcessor processor pset => exact h.remove ha
  | addThread pset thread => exact h.add ha.1 ha.2.1 ha.2.2
  | removeThread pset thread => exact h.remove ha

theorem run (h : PsetInv O s R) {calls : List PsetCall} (ha : AdmissiblePset O R calls) :
    PsetInv O (runPset s calls) (runRoster R calls) := by
  induction calls generalizing s R with
  | nil => exact h
  | cons call calls ih => exact ih (h.step ha.1) ha.2

end PsetInv

/-- The heads of a set, the nodes and pointers of its members and its counters are what they were. -/
structure SetUnchanged (R : Roster) (s s' : PsetState) (q : Word) : Prop where
  links : ∀ n, R.OfSet q n → s.heap.AgreeAt s'.heap n.addr
  count : ∀ k, s'.count k q = s.count k q
  taskCount : s'.taskCount q = s.taskCount q
  pset : ∀ k, ∀ x ∈ R.members k q, s'.pset k x = s.pset k x

namespace PsetInv

theorem addr_ne (h : PsetInv O s R) (hp : p ∈ O.sets) (hq : q ∈ O.sets) (hqp : q ≠ p) {n n' : PsetNode}
    (hn : R.OfSet q n) (hn' : R.OfSet p n') : n.addr ≠ n'.addr := by
  refine O.addr_ne_addr n' (h.has_ofSet hq hn) (h.has_ofSet hp hn') ?_
  rintro rfl
  cases n with
  | list k r => exact hqp (hn.symm.trans hn')
  | tasks r => exact hqp (hn.symm.trans hn')
  | item k x => exact hqp (h.unique hn hn')

theorem exists_ofSet {y : Word} (hy : y ∈ k.list p :: (R.members k p).map k.node) :
    ∃ n, R.OfSet p n ∧ n.addr = y := by
  rcases List.mem_cons.mp hy with rfl | hy
  · exact ⟨.list k p, rfl, rfl⟩
  · obtain ⟨x, hx, rfl⟩ := List.mem_map.mp hy
    exact ⟨.item k x, hx, rfl⟩

theorem notMem_list (h : PsetInv O s R) (hp : p ∈ O.sets) (hq : q ∈ O.sets) (hqp : q ≠ p)
    (hn : R.OfSet q n) : n.addr ∉ k.list p :: (R.members k p).map k.node := by
  intro hy
  obtain ⟨n', hn', heq⟩ := exists_ofSet hy
  exact h.addr_ne hp hq hqp hn hn' heq.symm

theorem init_unchanged (h : PsetInv O s R) (hp : p ∈ O.sets) (hq : q ∈ O.sets) (hqp : q ≠ p) :
    SetUnchanged R s (psetInit s p) q := by
  refine ⟨fun n hn => ?_, fun k => ?_, if_neg hqp, fun _ _ _ => rfl⟩
  · have h1 : ∀ k : PsetItem, n.addr ≠ k.list p := fun k =>
      have hhead : R.OfSet p (.list k p) := rfl
      h.addr_ne hp hq hqp hn hhead
    have htasks : R.OfSet p (.tasks p) := rfl
    have h2 : n.addr ≠ psetTasks p := h.addr_ne hp hq hqp hn htasks
    simp [Links.AgreeAt, psetInit, PsetState.setCount, listInit, h1, h2]
  · simp [psetInit, PsetState.setCount, hqp]

theorem add_unchanged (h : PsetInv O s R) (hp : p ∈ R.ready) (hx : x ∈ O.items k)
    (hout : ∀ q, x ∉ R.members k q) (hq : q ∈ O.sets) (hqp : q ≠ p) :
    SetUnchanged R s (psetAdd k s p x) q := by
  obtain ⟨F, hl, hF⟩ := h.lists
  have hring := hl.rep.ring (hF.list k p hp)
  have hset := h.ready hp
  have hne : ∀ n, R.OfSet q n → n.addr ≠ k.node x := fun n hn => by
    refine O.addr_ne_addr (.item k x) (h.has_ofSet hq hn) hx ?_
    rintro rfl
    exact hout q hn
  refine ⟨fun n hn => ?_, fun k' => if_neg fun hs => hqp hs.2, rfl, fun k' y hy => if_neg ?_⟩
  · have hout := h.notMem_list (k := k) hset hq hqp hn
    have hhead : k.list p ≠ k.node x := O.addr_ne_addr (n := .list k p) (.item k x) hset hx (by rintro ⟨⟩)
    change s.heap.AgreeAt (listAdd s.heap (k.list p) (k.node x)) n.addr
    rw [listAdd_eq hhead]
    exact Links.linkAfter_frame (hne n hn) (List.ne_of_not_mem_cons hout) fun he =>
      hout (he ▸ hring.next_mem List.mem_cons_self)
  · rintro ⟨rfl, rfl⟩
    exact hout q hy

theorem remove_unchanged (h : PsetInv O s R) (hx : x ∈ R.members k p) (hq : q ∈ O.sets) (hqp : q ≠ p) :
    SetUnchanged R s (psetRemove k s p x) q := by
  obtain ⟨F, hl, hF⟩ := h.lists
  obtain ⟨hp, -⟩ := h.members hx
  have hlist := hF.list k p hp
  have hring := hl.rep.ring hlist
  have hmem := List.mem_map_of_mem (f := k.node) hx
  have hlinked := List.mem_cons_of_mem (k.list p) hmem
  refine ⟨fun n hn => ?_, fun k' => if_neg fun hs => hqp hs.2, rfl, fun k' y hy => if_neg ?_⟩
  · have hout := h.notMem_list (k := k) (h.ready hp) hq hqp hn
    have hne : n.addr ≠ k.node x := fun he => hout (he ▸ hlinked)
    change s.heap.AgreeAt (listDelete s.heap (k.node x)) n.addr
    rw [listDelete_eq (hl.next_ne hlist hmem).1]
    refine (Links.unlink_frame ?_ ?_).trans ⟨if_neg hne, if_neg hne⟩
    · exact fun he => hout (he ▸ hring.prev_mem hlinked)
    · exact fun he => hout (he ▸ hring.next_mem hlinked)
  · rintro ⟨rfl, rfl⟩
    exact hqp (h.unique hy hx)

theorem unchanged (h : PsetInv O s R) {call : PsetCall} (ha : call.Admissible O R) (hq : q ∈ O.sets)
    (hqp : q ≠ call.set) : SetUnchanged R s (call.exec s) q := by
  cases call with
  | init pset => exact h.init_unchanged ha.1 hq hqp
  | addProcessor processor pset => exact h.add_unchanged ha.1 ha.2.1 ha.2.2 hq hqp
  | removeProcessor processor pset => exact h.remove_unchanged ha hq hqp
  | addThread pset thread => exact h.add_unchanged ha.1 ha.2.1 ha.2.2 hq hqp
  | removeThread pset thread => exact h.remove_unchanged ha hq hqp

end PsetInv

/-- The lists of every set in use hold its members and the counters count them, the pointers of the
items say which set they are in, no item is in two sets, and a call leaves every other set alone. -/
structure PsetsAgree (O : PsetObjects) (s : PsetState) (R : Roster) : Prop where
  list : ∀ k, ∀ p ∈ R.ready, Ring s.heap (k.list p) ((R.members k p).map k.node)
  count : ∀ k, ∀ p ∈ R.ready, (R.members k p).length < 2 ^ 32 →
    (s.count k p).toNat = (R.members k p).length
  pset : ∀ k, ∀ x ∈ O.items k, ∀ p ∈ O.sets, (x ∈ R.members k p ↔ s.pset k x = p)
  apart : ∀ {k x p q}, x ∈ R.members k p → x ∈ R.members k q → p = q
  others : ∀ {call : PsetCall}, call.Admissible O R → ∀ q ∈ O.sets, q ≠ call.set →
    SetUnchanged R s (call.exec s) q

/-- Any admissible calls keep the books of the sets, from a state in which no item is in a set. -/
theorem psets_agree (hs : ∀ k, ∀ x ∈ O.items k, s.pset k x ∉ O.sets) {calls : List PsetCall}
    (ha : AdmissiblePset O .empty calls) :
    PsetsAgree O (runPset s calls) (runRoster .empty calls) := by
  have h := (PsetInv.empty hs).run ha
  refine ⟨fun k p hp => ?_, fun k p hp hlt => ?_, h.pset, h.unique,
    fun hcall q hq hqp => h.unchanged hcall hq hqp⟩
  · obtain ⟨F, hl, hF⟩ := h.lists
    exact hl.rep.ring (hF.list k p hp)
  · rw [h.count k p hp, BitVec.toNat_ofNat]
    exact Nat.mod_eq_of_lt hlt

end

def psetNodes (sets : List Word) (items : PsetItem → List Word) : List PsetNode :=
  sets.flatMap (fun p => [.list .processor p, .list .thread p, .tasks p]) ++
    ((items .processor).map (.item .processor) ++ (items .thread).map (.item .thread))

theorem mem_psetNodes {sets : List Word} {items : PsetItem → List Word} {n : PsetNode}
    (h : n.In {p | p ∈ sets} fun k => {x | x ∈ items k}) : n ∈ psetNodes sets items := by
  simp only [psetNodes, List.mem_append, List.mem_flatMap, List.mem_map]
  cases n with
  | list k p => exact .inl ⟨p, h, by cases k <;> simp⟩
  | tasks p => exact .inl ⟨p, h, by simp⟩
  | item k x =>
      cases k with
      | processor => exact .inr (.inl ⟨x, h, rfl⟩)
      | thread => exact .inr (.inr ⟨x, h, rfl⟩)

/-- Finitely many objects whose nodes have different addresses. -/
def PsetObjects.ofLists (sets : List Word) (items : PsetItem → List Word) (hset : NULL ∉ sets)
    (hnodes : (NULL :: (psetNodes sets items).map PsetNode.addr).Nodup) : PsetObjects where
  sets := {p | p ∈ sets}
  items k := {x | x ∈ items k}
  set_ne := hset
  addr_ne hn he := (List.nodup_cons.mp hnodes).1 (he ▸ List.mem_map_of_mem (mem_psetNodes hn))
  addr_inj hn hn' he := List.inj_on_of_nodup_map (List.nodup_cons.mp hnodes).2 (mem_psetNodes hn)
    (mem_psetNodes hn') he

def samplePsets : PsetObjects := .ofLists [0x100, 0x200] (fun | .processor => [0x300] | .thread => [0x400])
  (by decide) (by decide)

/-- A processor moves from one set to the other, next to a thread. -/
theorem psets_agree_sample :
    PsetsAgree samplePsets (runPset ⟨⟨fun _ => 0, fun _ => 0⟩, fun _ _ => 7, fun _ => 7, fun _ _ => 0⟩
      [.init 0x100, .init 0x200, .addProcessor 0x300 0x100, .addThread 0x200 0x400,
        .removeProcessor 0x300 0x100, .addProcessor 0x300 0x200])
      (runRoster .empty [.init 0x100, .init 0x200, .addProcessor 0x300 0x100, .addThread 0x200 0x400,
        .removeProcessor 0x300 0x100, .addProcessor 0x300 0x200]) := by
  refine psets_agree (fun _ _ _ => samplePsets.set_ne) ?_
  simp [AdmissiblePset, PsetCall.Admissible, PsetCall.apply, Roster.add, Roster.remove,
    Roster.setMembers, Roster.empty, samplePsets, PsetObjects.ofLists]

end Rix
