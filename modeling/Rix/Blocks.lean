import Rix.Memory
import Rix.Sorting

/-!
# Blocks of bytes

Stores to a memory that is mapped in part, aligned accesses to a `size_t`, and the
exchange of two blocks, byte by byte or word by word.
-/
namespace Rix
open Sorting

abbrev Bytes := Word → Option Byte

def store8 (m : Bytes) (a : Word) (b : Byte) : Option Bytes :=
  (m a).map fun _ => Function.update m a (some b)

def storeBytes (m : Bytes) (a : Word) : List Byte → Option Bytes
  | [] => some m
  | b :: bs => (store8 m a b).bind fun m => storeBytes m (a + 1) bs

def loadBytes (m : Bytes) (a : Word) : ℕ → Option (List Byte)
  | 0 => some []
  | k+1 => (m a).bind fun b => (loadBytes m (a + 1) k).map (b :: ·)

def wordBytes (v : Word) : List Byte :=
  [v.extractLsb' 0 8, v.extractLsb' 8 8, v.extractLsb' 16 8, v.extractLsb' 24 8,
    v.extractLsb' 32 8, v.extractLsb' 40 8, v.extractLsb' 48 8, v.extractLsb' 56 8]

/-- `*(size_t *)a`, which must be aligned. -/
def loadSize (m : Bytes) (a : Word) : Option Word := if a.toNat % 8 = 0 then load64 m a else none

def storeSize (m : Bytes) (a v : Word) : Option Bytes :=
  if a.toNat % 8 = 0 then storeBytes m a (wordBytes v) else none

/-- `exch(*a, *b, t)` on bytes. -/
def exch8 (m : Bytes) (a b : Word) : Option Bytes := do
  let t ← m a
  let x ← m b
  let m ← store8 m a x
  store8 m b t

/-- `exch(*(size_t *)(a), *(size_t *)(b), t)`. -/
def exchSize (m : Bytes) (a b : Word) : Option Bytes := do
  let t ← loadSize m a
  let x ← loadSize m b
  let m ← storeSize m a x
  storeSize m b t

section

variable {m m' : Bytes} {a b : Word} {k : ℕ} {l : List Byte}

theorem add_one_add (a : Word) (k : ℕ) : a + 1 + BitVec.ofNat 64 k = a + BitVec.ofNat 64 (k + 1) := by
  rw [BitVec.add_assoc, Nat.add_comm k 1, BitVec.ofNat_add]
  rfl

theorem loadBytes_eq_some : loadBytes m a k = some l ↔
    l.length = k ∧ ∀ i < k, m (a + BitVec.ofNat 64 i) = l[i]? := by
  induction k generalizing a l with
  | zero =>
      simp only [loadBytes, Option.some.injEq, Nat.not_lt_zero, false_imp_iff, implies_true, and_true]
      rw [eq_comm, List.length_eq_zero_iff]
  | succ k ih =>
      simp only [loadBytes, Option.bind_eq_some_iff, Option.map_eq_some_iff, ih]
      constructor
      · rintro ⟨x, hx, xs, ⟨hlen, hxs⟩, rfl⟩
        refine ⟨by simp [hlen], fun i hi => ?_⟩
        cases i with
        | zero => rw [BitVec.add_zero, hx, List.getElem?_cons_zero]
        | succ i => rw [← add_one_add, hxs i (by omega), List.getElem?_cons_succ]
      · rintro ⟨hlen, hl⟩
        cases l with
        | nil => cases hlen
        | cons x xs =>
            refine ⟨x, by simpa using hl 0 (by omega), xs, ⟨by simpa using hlen, fun i hi => ?_⟩, rfl⟩
            rw [add_one_add, hl (i + 1) (by omega), List.getElem?_cons_succ]

theorem getLsbD_bytes (b0 b1 b2 b3 b4 b5 b6 b7 : Byte) (j : ℕ) :
    ((b7 ++ b6 ++ b5 ++ b4 : BitVec 32) ++ (b3 ++ b2 ++ b1 ++ b0 : BitVec 32) : Word).getLsbD j =
      if j < 32 then
        if j < 8 then b0.getLsbD j else if j - 8 < 8 then b1.getLsbD (j - 8)
        else if j - 8 - 8 < 8 then b2.getLsbD (j - 8 - 8) else b3.getLsbD (j - 8 - 8 - 8)
      else
        if j - 32 < 8 then b4.getLsbD (j - 32) else if j - 32 - 8 < 8 then b5.getLsbD (j - 32 - 8)
        else if j - 32 - 8 - 8 < 8 then b6.getLsbD (j - 32 - 8 - 8)
        else b7.getLsbD (j - 32 - 8 - 8 - 8) := by
  show ((b7 ++ b6 ++ b5 ++ b4 : BitVec (8 + 8 + 8 + 8)) ++
    (b3 ++ b2 ++ b1 ++ b0 : BitVec (8 + 8 + 8 + 8)) :
      BitVec (8 + 8 + 8 + 8 + (8 + 8 + 8 + 8))).getLsbD j = _
  simp only [BitVec.getLsbD_append]

theorem wordBytes_eq {v : Word} {b0 b1 b2 b3 b4 b5 b6 b7 : Byte}
    (hv : v = (b7 ++ b6 ++ b5 ++ b4 : BitVec 32) ++ (b3 ++ b2 ++ b1 ++ b0 : BitVec 32)) :
    wordBytes v = [b0, b1, b2, b3, b4, b5, b6, b7] := by
  have hbit : ∀ j, v.getLsbD j = _ := fun j => hv ▸ getLsbD_bytes b0 b1 b2 b3 b4 b5 b6 b7 j
  have hbyte : ∀ (i : ℕ) (b : Byte), (∀ j < 8, v.getLsbD (i + j) = b.getLsbD j) →
      v.extractLsb' i 8 = b := by
    intro i b hv
    apply BitVec.eq_of_getLsbD_eq
    intro j hj
    rw [BitVec.getLsbD_extractLsb', decide_eq_true hj, Bool.true_and, hv j hj]
  unfold wordBytes
  simp only [List.cons.injEq, and_true]
  refine ⟨?_, ?_, ?_, ?_, ?_, ?_, ?_, ?_⟩ <;> apply hbyte <;> intro j hj <;> rw [hbit] <;>
    split_ifs <;> first | omega | (congr 1; omega)

theorem exists_load64 (h : loadBytes m a 8 = some l) :
    ∃ v, load64 m a = some v ∧ wordBytes v = l := by
  obtain ⟨hlen, hb⟩ := loadBytes_eq_some.mp h
  obtain ⟨b0, b1, b2, b3, b4, b5, b6, b7, rfl⟩ : ∃ b0 b1 b2 b3 b4 b5 b6 b7,
      l = [b0, b1, b2, b3, b4, b5, b6, b7] := by
    match l, hlen with
    | [b0, b1, b2, b3, b4, b5, b6, b7], _ => exact ⟨b0, b1, b2, b3, b4, b5, b6, b7, rfl⟩
  have hlo : load32 m a = some (b3 ++ b2 ++ b1 ++ b0) := by
    have h0 := hb 0 (by decide)
    rw [BitVec.add_zero] at h0
    exact Option.bind_eq_some_iff.mpr ⟨_, h0, Option.bind_eq_some_iff.mpr ⟨_, hb 1 (by decide),
      Option.bind_eq_some_iff.mpr ⟨_, hb 2 (by decide),
        Option.bind_eq_some_iff.mpr ⟨_, hb 3 (by decide), rfl⟩⟩⟩⟩
  have hhi : load32 m (a + 4) = some (b7 ++ b6 ++ b5 ++ b4) := by
    have hat : ∀ i, a + 4 + BitVec.ofNat 64 i = a + BitVec.ofNat 64 (4 + i) := by
      intro i
      rw [BitVec.add_assoc, BitVec.ofNat_add]
      rfl
    exact Option.bind_eq_some_iff.mpr ⟨_, hb 4 (by decide),
      Option.bind_eq_some_iff.mpr ⟨_, (congrArg m (hat 1)).trans (hb 5 (by decide)),
        Option.bind_eq_some_iff.mpr ⟨_, (congrArg m (hat 2)).trans (hb 6 (by decide)),
          Option.bind_eq_some_iff.mpr ⟨_, (congrArg m (hat 3)).trans (hb 7 (by decide)), rfl⟩⟩⟩⟩
  exact ⟨_, Option.bind_eq_some_iff.mpr ⟨_, hlo, Option.bind_eq_some_iff.mpr ⟨_, hhi, rfl⟩⟩,
    wordBytes_eq rfl⟩

/-- The memory after the bytes `l` are written at `a`. -/
def written (m : Bytes) (a : Word) (l : List Byte) : Bytes := fun x =>
  if a.toNat ≤ x.toNat ∧ x.toNat < a.toNat + l.length then l[x.toNat - a.toNat]? else m x

def Mapped (m : Bytes) (a : Word) (n : ℕ) : Prop := ∀ i < n, (m (a + BitVec.ofNat 64 i)).isSome

theorem Mapped.exists_loadBytes (h : Mapped m a k) : ∃ l, loadBytes m a k = some l := by
  induction k generalizing a with
  | zero => exact ⟨[], rfl⟩
  | succ k ih =>
      have h0 := h 0 (by omega)
      rw [BitVec.add_zero] at h0
      obtain ⟨b, hb⟩ := Option.isSome_iff_exists.mp h0
      obtain ⟨l, hl⟩ := ih (a := a + 1) fun i hi => by
        rw [add_one_add]
        exact h (i + 1) (by omega)
      exact ⟨b :: l, by simp only [loadBytes, hb, hl, Option.bind_some, Option.map_some]⟩

theorem mapped_of_loadBytes (h : loadBytes m a k = some l) : Mapped m a k := by
  obtain ⟨hlen, hl⟩ := loadBytes_eq_some.mp h
  intro i hi
  rw [hl i hi, List.getElem?_eq_getElem (by omega)]
  rfl

theorem store8_eq {b : Byte} (h : (m a).isSome) : store8 m a b = some (written m a [b]) := by
  obtain ⟨x, hx⟩ := Option.isSome_iff_exists.mp h
  rw [store8, hx, Option.map_some]
  congr 1
  funext y
  unfold written
  by_cases hy : y = a
  · rw [hy, Function.update_self, if_pos (by simp), Nat.sub_self]
    rfl
  · rw [Function.update_of_ne hy, if_neg]
    intro h
    exact hy (BitVec.eq_of_toNat_eq (by simp at h; omega))

theorem isSome_written (h : (m b).isSome) : (written m a l b).isSome := by
  unfold written
  split
  · rw [List.getElem?_eq_getElem (by omega)]
    rfl
  · exact h

theorem storeBytes_eq (hm : Mapped m a l.length) (hw : a.toNat + l.length ≤ 2 ^ 64) :
    storeBytes m a l = some (written m a l) := by
  induction l generalizing m a with
  | nil =>
      refine congrArg some (funext fun x => ?_)
      exact (if_neg (by simp)).symm
  | cons b l ih =>
      rw [List.length_cons] at hw
      have h0 := hm 0 (Nat.zero_lt_succ _)
      rw [BitVec.add_zero] at h0
      by_cases hnil : l = []
      · rw [hnil, storeBytes, store8_eq h0, Option.bind_some, storeBytes]
      -- the byte is not the last one, so the address after it does not go round
      have hpos := List.length_pos_iff.mpr hnil
      have ha : (a + 1).toNat = a.toNat + 1 := toNat_add_ofNat (k := 1) (by omega)
      have hrest : Mapped (written m a [b]) (a + 1) l.length := by
        intro i hi
        rw [add_one_add]
        exact isSome_written (hm (i + 1) (Nat.succ_lt_succ hi))
      rw [storeBytes, store8_eq h0, Option.bind_some, ih hrest (by omega)]
      refine congrArg some (funext fun x => ?_)
      simp only [written, ha, List.length_cons, List.length_nil]
      by_cases h1 : x.toNat = a.toNat
      · rw [if_neg (by omega), if_pos (by omega), if_pos (by omega), h1, Nat.sub_self]
        rfl
      · by_cases h2 : a.toNat + 1 ≤ x.toNat ∧ x.toNat < a.toNat + 1 + l.length
        · rw [if_pos h2, if_pos (by omega),
            show x.toNat - a.toNat = x.toNat - (a.toNat + 1) + 1 by omega, List.getElem?_cons_succ]
        · rw [if_neg h2, if_neg (by omega), if_neg (by omega)]

def cells (m : Bytes) : ℕ → Option Byte := fun k => if k < 2 ^ 64 then m (BitVec.ofNat 64 k) else none

/-- The memory after the `n` bytes at `a` and the `n` bytes at `b` are exchanged. -/
def exchanged (m : Bytes) (a b : Word) (n : ℕ) : Bytes := fun x =>
  exchange (cells m) a.toNat b.toNat n x.toNat

@[simp] theorem cells_toNat (m : Bytes) (x : Word) : cells m x.toNat = m x := by
  rw [cells, if_pos x.isLt, BitVec.ofNat_toNat, BitVec.setWidth_eq]

variable {n : ℕ}

theorem cells_exchanged (ha : a.toNat + n ≤ 2 ^ 64) (hb : b.toNat + n ≤ 2 ^ 64) :
    cells (exchanged m a b n) = exchange (cells m) a.toNat b.toNat n := by
  funext k
  by_cases hk : k < 2 ^ 64
  · rw [cells, if_pos hk, exchanged, BitVec.toNat_ofNat, Nat.mod_eq_of_lt hk]
  · rw [cells, if_neg hk, exchange_of_outside (by omega) (by omega), cells, if_neg hk]

theorem exchanged_outside {x : Word} (ha : x.toNat < a.toNat ∨ a.toNat + n ≤ x.toNat)
    (hb : x.toNat < b.toNat ∨ b.toNat + n ≤ x.toNat) : exchanged m a b n x = m x := by
  rw [exchanged, exchange_of_outside ha hb, cells_toNat]

/-- Writing each block where the other one was exchanges them. -/
theorem written_written {la lb : List Byte} (ha : loadBytes m a n = some la)
    (hb : loadBytes m b n = some lb) (h : Apart a.toNat b.toNat n)
    (hwa : a.toNat + n ≤ 2 ^ 64) (hwb : b.toNat + n ≤ 2 ^ 64) :
    written (written m a lb) b la = exchanged m a b n := by
  obtain ⟨hla, ha⟩ := loadBytes_eq_some.mp ha
  obtain ⟨hlb, hb⟩ := loadBytes_eq_some.mp hb
  have hcell : ∀ (p : Word) (i : ℕ), p.toNat + i < 2 ^ 64 →
      cells m (p.toNat + i) = m (p + BitVec.ofNat 64 i) := by
    intro p i hp
    rw [← toNat_add_ofNat hp, cells_toNat]
  funext x
  unfold written exchanged exchange
  rw [hla, hlb]
  by_cases hxb : b.toNat ≤ x.toNat ∧ x.toNat < b.toNat + n
  · rw [if_pos hxb, ← ha _ (by omega), ← hcell a _ (by omega)]
    by_cases hxa : a.toNat ≤ x.toNat ∧ x.toNat < a.toNat + n
    · have hab : a.toNat = b.toNat := by
        rcases h with h | h | h <;> omega
      rw [if_pos hxa, hab]
    · rw [if_neg hxa, if_pos hxb]
  · rw [if_neg hxb]
    by_cases hxa : a.toNat ≤ x.toNat ∧ x.toNat < a.toNat + n
    · rw [if_pos hxa, if_pos hxa, ← hb _ (by omega), ← hcell b _ (by omega)]
    · rw [if_neg hxa, if_neg hxa, if_neg hxb, cells_toNat]

theorem Mapped.written (h : Mapped m b n) : Mapped (written m a l) b n :=
  fun i hi => isSome_written (h i hi)

theorem exch8_eq (ha : Mapped m a 1) (hb : Mapped m b 1) :
    exch8 m a b = some (exchanged m a b 1) := by
  obtain ⟨la, hla⟩ := ha.exists_loadBytes
  obtain ⟨lb, hlb⟩ := hb.exists_loadBytes
  rw [← written_written hla hlb (by unfold Apart; omega) a.isLt b.isLt]
  obtain ⟨x, hx, rfl⟩ : ∃ x, m a = some x ∧ [x] = la := by
    simpa [loadBytes, Option.bind_eq_some_iff] using hla
  obtain ⟨y, hy, rfl⟩ : ∃ y, m b = some y ∧ [y] = lb := by
    simpa [loadBytes, Option.bind_eq_some_iff] using hlb
  have h1 : (m a).isSome := by rw [hx]; rfl
  have h2 : (Rix.written m a [y] b).isSome := isSome_written (by rw [hy]; rfl)
  simp only [exch8, hx, hy, store8_eq h1, Option.bind_eq_bind, Option.bind_some]
  exact store8_eq h2

theorem exchSize_eq (ha : Mapped m a 8) (hb : Mapped m b 8) (h : Apart a.toNat b.toNat 8)
    (ha8 : a.toNat % 8 = 0) (hb8 : b.toNat % 8 = 0) : exchSize m a b = some (exchanged m a b 8) := by
  have hwa : a.toNat + 8 ≤ 2 ^ 64 := by omega
  have hwb : b.toNat + 8 ≤ 2 ^ 64 := by omega
  obtain ⟨la, hla⟩ := ha.exists_loadBytes
  obtain ⟨lb, hlb⟩ := hb.exists_loadBytes
  rw [← written_written hla hlb h hwa hwb]
  obtain ⟨t, ht, rfl⟩ := exists_load64 hla
  obtain ⟨x, hx, rfl⟩ := exists_load64 hlb
  simp only [exchSize, loadSize, storeSize, if_pos ha8, if_pos hb8, ht, hx, Option.bind_eq_bind,
    Option.bind_some]
  rw [storeBytes_eq ha hwa]
  exact storeBytes_eq hb.written hwb

theorem add_ofNat_inj {k l : ℕ} (hk : k < 2 ^ 64) (hl : l < 2 ^ 64)
    (h : a + BitVec.ofNat 64 k = a + BitVec.ofNat 64 l) : k = l := by
  have heq := congrArg BitVec.toNat ((BitVec.add_right_inj a).mp h)
  rwa [BitVec.toNat_ofNat, BitVec.toNat_ofNat, Nat.mod_eq_of_lt hk, Nat.mod_eq_of_lt hl] at heq

/-- Two blocks of `n` bytes that are the same or disjoint: an address in both of them has the same
place in both. -/
def Level (a b : Word) (n : ℕ) : Prop :=
  ∀ k < n, ∀ l < n, a + BitVec.ofNat 64 k = b + BitVec.ofNat 64 l → k = l

theorem Level.symm (h : Level a b n) : Level b a n := fun k hk l hl e => (h l hl k hk e.symm).symm

/-- `m'` is `m` with the `n` bytes at `a` and the `n` bytes at `b` exchanged. -/
structure Exchanges (m m' : Bytes) (a b : Word) (n : ℕ) : Prop where
  left : ∀ k < n, m' (a + BitVec.ofNat 64 k) = m (b + BitVec.ofNat 64 k)
  right : ∀ k < n, m' (b + BitVec.ofNat 64 k) = m (a + BitVec.ofNat 64 k)
  outside : ∀ x, (∀ k < n, x ≠ a + BitVec.ofNat 64 k) → (∀ k < n, x ≠ b + BitVec.ofNat 64 k) →
    m' x = m x

namespace Exchanges

variable {m₁ m₂ : Bytes} {s t : ℕ}

theorem symm (h : Exchanges m m' a b n) : Exchanges m m' b a n :=
  ⟨h.right, h.left, fun x hb ha => h.outside x ha hb⟩

theorem zero (m : Bytes) (a b : Word) : Exchanges m m a b 0 :=
  ⟨fun _ hk => absurd hk (Nat.not_lt_zero _), fun _ hk => absurd hk (Nat.not_lt_zero _),
    fun _ _ _ => rfl⟩

theorem unique (h₁ : Exchanges m m₁ a b n) (h₂ : Exchanges m m₂ a b n) : m₁ = m₂ := by
  funext x
  by_cases ha : ∃ k < n, x = a + BitVec.ofNat 64 k
  · obtain ⟨k, hk, rfl⟩ := ha
    rw [h₁.left k hk, h₂.left k hk]
  · by_cases hb : ∃ k < n, x = b + BitVec.ofNat 64 k
    · obtain ⟨k, hk, rfl⟩ := hb
      rw [h₁.right k hk, h₂.right k hk]
    · have ha' : ∀ k < n, x ≠ a + BitVec.ofNat 64 k := fun k hk e => ha ⟨k, hk, e⟩
      have hb' : ∀ k < n, x ≠ b + BitVec.ofNat 64 k := fun k hk e => hb ⟨k, hk, e⟩
      rw [h₁.outside x ha' hb', h₂.outside x ha' hb']

theorem rest (hn : n ≤ 2 ^ 64) (hlevel : Level a b n) (h : Exchanges m m' a b s) {k : ℕ} (hs : s ≤ k)
    (hk : k < n) : m' (a + BitVec.ofNat 64 k) = m (a + BitVec.ofNat 64 k) := by
  refine h.outside _ (fun l hl e => ?_) fun l hl e => ?_
  · have := add_ofNat_inj (by omega) (by omega) e
    omega
  · have := hlevel k hk l (by omega) e
    omega

theorem append_left (hn : s + t ≤ 2 ^ 64) (hlevel : Level a b (s + t)) (h : Exchanges m m₁ a b s)
    (h' : Exchanges m₁ m₂ (a + BitVec.ofNat 64 s) (b + BitVec.ofNat 64 s) t) :
    ∀ k < s + t, m₂ (a + BitVec.ofNat 64 k) = m (b + BitVec.ofNat 64 k) := by
  have hat : ∀ (p : Word) l, p + BitVec.ofNat 64 s + BitVec.ofNat 64 l = p + BitVec.ofNat 64 (s + l) :=
    fun p l => by rw [BitVec.ofNat_add, BitVec.add_assoc]
  intro k hk
  by_cases hs : k < s
  · rw [h'.outside, h.left k hs]
    · intro l hl e
      rw [hat] at e
      have := add_ofNat_inj (by omega) (by omega) e
      omega
    · intro l hl e
      rw [hat] at e
      have := hlevel k hk (s + l) (by omega) e
      omega
  · obtain ⟨l, rfl⟩ := Nat.exists_eq_add_of_le (Nat.le_of_not_lt hs)
    have hl := h'.left l (by omega)
    rw [hat, hat] at hl
    rw [hl]
    exact h.symm.rest hn hlevel.symm (Nat.le_add_right s l) hk

/-- Exchanging block after block is exchanging one longer block. -/
theorem append (hn : s + t ≤ 2 ^ 64) (hlevel : Level a b (s + t)) (h : Exchanges m m₁ a b s)
    (h' : Exchanges m₁ m₂ (a + BitVec.ofNat 64 s) (b + BitVec.ofNat 64 s) t) :
    Exchanges m m₂ a b (s + t) := by
  refine ⟨append_left hn hlevel h h', append_left hn hlevel.symm h.symm h'.symm, fun x ha hb => ?_⟩
  have hbehind : ∀ {p : Word}, (∀ k < s + t, x ≠ p + BitVec.ofNat 64 k) →
      ∀ l < t, x ≠ p + BitVec.ofNat 64 s + BitVec.ofNat 64 l := by
    intro p hp l hl e
    rw [BitVec.add_assoc, ← BitVec.ofNat_add] at e
    exact hp (s + l) (by omega) e
  rw [h'.outside x (hbehind ha) (hbehind hb)]
  exact h.outside x (fun k hk => ha k (by omega)) fun k hk => hb k (by omega)

end Exchanges

theorem level_of_apart (h : Apart a.toNat b.toNat n) (ha : a.toNat + n ≤ 2 ^ 64)
    (hb : b.toNat + n ≤ 2 ^ 64) : Level a b n := by
  intro k hk l hl e
  have heq := congrArg BitVec.toNat e
  rw [toNat_add_ofNat (by omega), toNat_add_ofNat (by omega)] at heq
  unfold Apart at h
  omega

theorem exchanges_exchanged (h : Apart a.toNat b.toNat n) (ha : a.toNat + n ≤ 2 ^ 64)
    (hb : b.toNat + n ≤ 2 ^ 64) : Exchanges m (exchanged m a b n) a b n := by
  have hcell : ∀ (p : Word) (k : ℕ), p.toNat + k < 2 ^ 64 →
      cells m (p.toNat + k) = m (p + BitVec.ofNat 64 k) := by
    intro p k hp
    rw [← toNat_add_ofNat hp, cells_toNat]
  have hout : ∀ {p x : Word}, p.toNat + n ≤ 2 ^ 64 → (∀ k < n, x ≠ p + BitVec.ofNat 64 k) →
      x.toNat < p.toNat ∨ p.toNat + n ≤ x.toNat := by
    intro p x hp hx
    by_contra hc
    refine hx (x.toNat - p.toNat) (by omega) (BitVec.eq_of_toNat_eq ?_)
    rw [toNat_add_ofNat (by omega)]
    omega
  refine ⟨fun k hk => ?_, fun k hk => ?_, fun x hxa hxb => exchanged_outside (hout ha hxa) (hout hb hxb)⟩
  · rw [exchanged, toNat_add_ofNat (by omega), exchange, if_pos (by omega), Nat.add_sub_cancel_left,
      hcell b k (by omega)]
  · rw [exchanged, toNat_add_ofNat (by omega), exchange]
    by_cases hin : a.toNat ≤ b.toNat + k ∧ b.toNat + k < a.toNat + n
    · have hab : a.toNat = b.toNat := by
        unfold Apart at h
        omega
      rw [if_pos hin, hab, Nat.add_sub_cancel_left, ← hab, hcell a k (by omega)]
    · rw [if_neg hin, if_pos (by omega), Nat.add_sub_cancel_left, hcell a k (by omega)]

end

end Rix
