import Rix.IntrusiveList

/-!
# Runs of list operations

The seven updates of `list.h` as the steps of a machine on the heap, next to the
sequence operations they stand for, on a family of disjoint sequences. A run on
the heap refines the run on the family.
-/
namespace Rix
open Rings Fuel

inductive ListOp where
  | init (list : Word)
  | add (head newEntry : Word)
  | addTail (head newEntry : Word)
  | delete (entry : Word)
  | replace (oldEntry newEntry : Word)
  | removeHead (head : Word)
  | removeTail (list : Word)
  deriving DecidableEq, Repr

namespace ListOp

/-- The call on the heap; a function that returns nothing reports `NULL`. -/
def exec (H : ListHeap) : ListOp → Word × ListHeap
  | .init list => (NULL, listInit H list)
  | .add head n => (NULL, listAdd H head n)
  | .addTail head n => (NULL, listAddTail H head n)
  | .delete x => (NULL, listDelete H x)
  | .replace x n => (NULL, listReplace H x n)
  | .removeHead head => listRemoveHead H head
  | .removeTail list => listRemoveTail H list

/-- The operation on sequences: new empty sequence, insert after, insert before, erase,
substitute, pop front, pop back. -/
def apply (F : Family Word) : ListOp → Word × Family Word
  | .init list => (NULL, Function.update F list (some []))
  | .add head n => (NULL, F.insertAfter head n)
  | .addTail head n => (NULL, F.insertBefore head n)
  | .delete x => (NULL, F.erase x)
  | .replace x n => (NULL, F.replace x n)
  | .removeHead head =>
      (((F head).bind List.head?).getD NULL, Function.update F head ((F head).map List.tail))
  | .removeTail list =>
      (((F list).bind List.getLast?).getD NULL, Function.update F list ((F list).map List.dropLast))

/-- A new node or head is in no list, a deleted or replaced node is a member of one,
and a position is a head or a member. -/
def Admissible (F : Family Word) : ListOp → Prop
  | .init list => ¬ Linked F list ∧ list ≠ NULL
  | .add head n | .addTail head n => Linked F head ∧ ¬ Linked F n ∧ n ≠ NULL
  | .delete x => ∃ h xs, F h = some xs ∧ x ∈ xs
  | .replace x n => (∃ h xs, F h = some xs ∧ x ∈ xs) ∧ ¬ Linked F n ∧ n ≠ NULL
  | .removeHead list | .removeTail list => ∃ xs, F list = some xs

def args : ListOp → List Word
  | .init list | .removeHead list | .removeTail list => [list]
  | .add head n | .addTail head n => [head, n]
  | .delete x => [x]
  | .replace x n => [x, n]

end ListOp

def runList (H : ListHeap) : List ListOp → List Word × ListHeap
  | [] => ([], H)
  | op :: ops => ((op.exec H).1 :: (runList (op.exec H).2 ops).1, (runList (op.exec H).2 ops).2)

def runFamily (F : Family Word) : List ListOp → List Word × Family Word
  | [] => ([], F)
  | op :: ops =>
      ((op.apply F).1 :: (runFamily (op.apply F).2 ops).1, (runFamily (op.apply F).2 ops).2)

def AdmissibleRun (F : Family Word) : List ListOp → Prop
  | [] => True
  | op :: ops => op.Admissible F ∧ AdmissibleRun (op.apply F).2 ops

namespace Lists

variable {H : ListHeap} {F : Family Word} {h x : Word} {xs : List Word}

theorem erase_head (hl : Lists H F) (hF : F h = some (x :: xs)) :
    F.erase x = Function.update F h (some xs) := by
  rw [hl.rep.erase_eq hF List.mem_cons_self, List.erase_cons_head]

theorem erase_last (hl : Lists H F) (hF : F h = some (xs ++ [x])) :
    F.erase x = Function.update F h (some xs) := by
  have hnd := (List.nodup_cons.mp (hl.rep.ring hF).nodup).2
  have hx : x ∉ xs := fun m => (List.nodup_append.mp hnd).2.2 x m x (by simp) rfl
  rw [hl.rep.erase_eq hF (by simp), erase_split hx, List.append_nil]

/-- One call refines its sequence operation. -/
theorem step (hl : Lists H F) {op : ListOp} (ha : op.Admissible F) :
    (op.exec H).1 = (op.apply F).1 ∧ Lists (op.exec H).2 (op.apply F).2 := by
  cases op with
  | init list => exact ⟨rfl, hl.init ha.1 ha.2⟩
  | add head n => exact ⟨rfl, hl.add ha.1 ha.2.1 ha.2.2⟩
  | addTail head n => exact ⟨rfl, hl.addTail ha.1 ha.2.1 ha.2.2⟩
  | delete x =>
      obtain ⟨h, xs, hF, hx⟩ := ha
      exact ⟨rfl, (hl.delete hF hx).1⟩
  | replace x n =>
      obtain ⟨⟨h, xs, hF, hx⟩, hn, h0⟩ := ha
      exact ⟨rfl, hl.replace hF hx hn h0⟩
  | removeHead head =>
      obtain ⟨xs, hF⟩ := ha
      cases xs with
      | nil =>
          simp only [ListOp.exec, ListOp.apply, hl.removeHead_nil hF, hF]
          refine ⟨rfl, ?_⟩
          rwa [Option.map_some, List.tail_nil, ← hF, Function.update_eq_self]
      | cons x xs =>
          simp only [ListOp.exec, ListOp.apply, hl.removeHead_cons hF, hF]
          refine ⟨rfl, ?_⟩
          rw [Option.map_some, List.tail_cons, ← hl.erase_head hF]
          exact (hl.delete hF List.mem_cons_self).1
  | removeTail list =>
      obtain ⟨xs, hF⟩ := ha
      rcases List.eq_nil_or_concat xs with rfl | ⟨ys, y, rfl⟩
      · simp only [ListOp.exec, ListOp.apply, hl.removeTail_nil hF, hF]
        refine ⟨rfl, ?_⟩
        rwa [Option.map_some, List.dropLast_nil, ← hF, Function.update_eq_self]
      · rw [List.concat_eq_append] at hF
        simp only [ListOp.exec, ListOp.apply, hl.removeTail_concat hF, hF]
        refine ⟨by simp, ?_⟩
        rw [Option.map_some, List.dropLast_concat, ← hl.erase_last hF]
        exact (hl.delete hF (by simp)).1

/-- A run refines the run on sequences, with the same results. -/
theorem run (hl : Lists H F) {ops : List ListOp} (ha : AdmissibleRun F ops) :
    (runList H ops).1 = (runFamily F ops).1 ∧ Lists (runList H ops).2 (runFamily F ops).2 := by
  induction ops generalizing H F with
  | nil => exact ⟨rfl, hl⟩
  | cons op ops ih =>
      obtain ⟨hres, hl'⟩ := hl.step ha.1
      obtain ⟨hrest, hlast⟩ := ih hl' ha.2
      exact ⟨by simp only [runList, runFamily, hres, hrest], hlast⟩

end Lists

theorem ListOp.apply_other {F : Family Word} {op : ListOp} {k : Word} {zs : List Word}
    (hk : F k = some zs) (hargs : ∀ x ∈ k :: zs, x ∉ op.args) : (op.apply F).2 k = some zs := by
  have hne : ∀ {x}, x ∈ op.args → x ≠ k := fun hx e => hargs k List.mem_cons_self (e ▸ hx)
  have hout : ∀ {x}, x ∈ op.args → x ∉ zs := fun hx m => hargs _ (List.mem_cons_of_mem k m) hx
  cases op with
  | init list =>
      have hlk : k ≠ list := (hne (by simp [args])).symm
      simpa only [apply, Function.update_of_ne hlk] using hk
  | add head n =>
      have hx : head ∈ (add head n).args := by simp [args]
      simp only [apply, Family.insertAfter, hk, Option.map_some, if_neg (hne hx).symm,
        insertAfter_of_notMem (hout hx)]
  | addTail head n =>
      have hx : head ∈ (addTail head n).args := by simp [args]
      simp only [apply, Family.insertBefore, hk, Option.map_some, if_neg (hne hx).symm,
        insertBefore_of_notMem (hout hx)]
  | delete x =>
      have hx : x ∉ zs := hout (by simp [args])
      simp only [apply, Family.erase, hk, Option.map_some, List.erase_of_not_mem hx]
  | replace x n =>
      have hx : x ∉ zs := hout (by simp [args])
      simp only [apply, Family.replace, hk, Option.map_some]
      rw [List.replace_of_not_mem (by simpa using hx)]
  | removeHead list | removeTail list =>
      have hlk : k ≠ list := (hne (by simp [args])).symm
      simpa only [apply, Function.update_of_ne hlk] using hk

theorem Lists.frame {H : ListHeap} {F : Family Word} (hl : Lists H F) {op : ListOp}
    (ha : op.Admissible F) {k : Word} {zs : List Word} (hk : F k = some zs)
    (hargs : ∀ x ∈ k :: zs, x ∉ op.args) {x : Word} (hx : x ∈ k :: zs) :
    H.AgreeAt (op.exec H).2 x :=
  (hl.rep.ring hk).agree ((hl.step ha).2.rep.ring (ListOp.apply_other hk hargs)) hx

/-- The circular list refines a family of finite sequences over every run: the results are
those of the sequence operations, the heap represents the resulting family, the observers
read it off, and a call writes no link of a list none of its arguments lies on. -/
theorem list_refines_sequences {H : ListHeap} {F : Family Word} (hl : Lists H F)
    (ops : List ListOp) (ha : AdmissibleRun F ops) :
    (runList H ops).1 = (runFamily F ops).1 ∧
    Lists (runList H ops).2 (runFamily F ops).2 ∧
    (∀ h xs, (runFamily F ops).2 h = some xs →
      (∃ n, Settles (listLength (runList H ops).2 h) n ∧ n.toNat = xs.length) ∧
      listIsEmpty (runList H ops).2 h = xs.isEmpty ∧
      listPeekHead (runList H ops).2 h = xs.head?.getD NULL ∧
      listPeekTail (runList H ops).2 h = xs.getLast?.getD NULL) ∧
    (∀ op : ListOp, op.Admissible (runFamily F ops).2 →
      ∀ k zs, (runFamily F ops).2 k = some zs → (∀ x ∈ k :: zs, x ∉ op.args) →
        ∀ x ∈ k :: zs, (runList H ops).2.AgreeAt (op.exec (runList H ops).2).2 x) ∧
    ∀ h, (runFamily F ops).2 h = some [] →
      listRemoveHead (runList H ops).2 h = (NULL, (runList H ops).2) ∧
      listRemoveTail (runList H ops).2 h = (NULL, (runList H ops).2) := by
  obtain ⟨hres, hl'⟩ := hl.run ha
  refine ⟨hres, hl', fun h xs hF => ⟨⟨_, hl'.length_settles hF, ?_⟩, hl'.isEmpty_eq hF,
    hl'.peekHead_eq hF, hl'.peekTail_eq hF⟩, fun op hop k zs hk hargs x hx =>
      hl'.frame hop hk hargs hx, fun h hF => ⟨hl'.removeHead_nil hF, hl'.removeTail_nil hF⟩⟩
  rw [BitVec.toNat_ofNat, Nat.mod_eq_of_lt (hl'.length_lt hF)]

/-- A node is added to one of two lists, and nodes are taken off both. -/
theorem list_refines_sequences_pop : ∃ H, Lists H (familyOf [(16, [32, 48]), (64, [80])]) ∧
    (runList H [.addTail 64 96, .removeHead 16, .removeTail 64, .removeTail 16]).1 =
      [NULL, 32, 96, 48] := by
  obtain ⟨H, hl⟩ := exists_lists [(16, [32, 48]), (64, [80])] (by decide) (by decide)
  have h96 : ¬ Linked (familyOf [(16, [32, 48]), (64, [80])]) 96 := fun h =>
    absurd (linked_familyOf h) (by decide)
  have h64 : Linked (familyOf [(16, [32, 48]), (64, [80])]) 64 :=
    ⟨64, [80], rfl, List.mem_cons_self⟩
  have h := (list_refines_sequences hl [.addTail 64 96, .removeHead 16, .removeTail 64, .removeTail 16]
    ⟨⟨h64, h96, by decide⟩, ⟨_, rfl⟩, ⟨_, rfl⟩, ⟨_, rfl⟩, trivial⟩).1
  exact ⟨H, hl, h⟩

end Rix
