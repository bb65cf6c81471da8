import Rix.Coupling
import Rix.Machine

/-!
# The text console of `console.c`

`put_char` keeps the cursor in two bytes and stores a character and its attribute in the cell that
the cursor is at before it moves.
-/
namespace Rix
open Fuel

def fb : Word := 0xb8000 + kernelVmaBase

def tabSize : Byte := 4

/-- The characters that `put_char` does not show. -/
def charTab : Byte := 0x09
def charReturn : Byte := 0x0d
def charNewline : Byte := 0x0a
def charBackspace : Byte := 0x08

/-- A call of `put_char` and where it finds the cursor. -/
structure Shown where
  c : Byte
  curX : Byte
  curY : Byte
  deriving DecidableEq, Repr

/-- The cursor, memory and the calls of `put_char` so far. -/
structure TextConsole where
  curX : Byte
  curY : Byte
  mem : Mem
  shown : List Shown

def textCell (k : ℕ) : Word := fb + BitVec.ofNat 64 (2 * k)

def videoCell (x y : Byte) : Word := fb + 2 * (y.setWidth 64 * 80 + x.setWidth 64)

def putChar (c fg bg : Byte) (_x _y : BitVec 32) (st : TextConsole) : TextConsole :=
  let attrib : Byte := (bg <<< 4) ||| (fg &&& 0xf)
  let video := videoCell st.curX st.curY
  let st := { st with shown := st.shown ++ [Shown.mk c st.curX st.curY] }
  if c = charTab then
    let st := { st with curX := st.curX + tabSize }
    if st.curX ≥ 80 then { st with curX := 0, curY := st.curY + 1 } else st
  else if c = charReturn then { st with curX := 0 }
  else if c = charNewline then { st with curY := st.curY + 1 }
  else if c = charBackspace then { st with curX := st.curX - 1, mem := st.mem.set16 video 0x20 }
  else
    let st := { st with mem := st.mem.set16 video (c.setWidth 16 ||| attrib.setWidth 16 <<< 8) }
    let st := { st with curX := st.curX + 1 }
    if st.curX = 80 then { st with curY := st.curY + 1, curX := 0 } else st

/-- One pass of the loop of `put_str`, on `str` and the console. -/
def putStrPass (forecolor backcolor : Byte) : Word × TextConsole → Option (Flow (Word × TextConsole))
  | (str, st) =>
    if st.mem str ≠ 0 then
      some (.next (str + 1, putChar (st.mem str) forecolor backcolor (st.curX.setWidth 32)
        (st.curY.setWidth 32) st))
    else some (.stop (str, st))

def putStr (fuel : ℕ) (str : Word) (forecolor backcolor : Byte) (st : TextConsole) : Option TextConsole :=
  (loop (putStrPass forecolor backcolor) fuel (str, st)).map Prod.snd

inductive Output where
  | char (c fg bg : Byte) (x y : BitVec 32)
  | str (str : Word) (forecolor backcolor : Byte)

def Output.exec (fuel : ℕ) (st : TextConsole) : Output → Option TextConsole
  | .char c fg bg x y => some (putChar c fg bg x y st)
  | .str p forecolor backcolor => putStr fuel p forecolor backcolor st

def runOutput (fuel : ℕ) (out : List Output) (st : TextConsole) : Option TextConsole :=
  out.foldlM (Output.exec fuel) st

def Shown.after (s : Shown) : Byte × Byte :=
  if s.c = charTab then if s.curX + tabSize ≥ 80 then (0, s.curY + 1) else (s.curX + tabSize, s.curY)
  else if s.c = charReturn then (0, s.curY)
  else if s.c = charNewline then (s.curX, s.curY + 1)
  else if s.c = charBackspace then (s.curX - 1, s.curY)
  else if s.curX + 1 = 80 then (0, s.curY + 1) else (s.curX + 1, s.curY)

def OnScreen (p : Byte × Byte) : Prop := p.1 < 80 ∧ p.2 < 25

instance (p : Byte × Byte) : Decidable (OnScreen p) := inferInstanceAs (Decidable (_ ∧ _))

def Shown.pos (s : Shown) : Byte × Byte := (s.curX, s.curY)

/-- The character leaves a cursor on the screen: a backspace is not in the first column, and what
ends a line is not in the last row. -/
def Shown.Fits (s : Shown) : Prop :=
  if s.c = charTab then s.curX < 76 ∨ s.curY < 24
  else if s.c = charReturn then True
  else if s.c = charNewline then s.curY < 24
  else if s.c = charBackspace then s.curX ≠ 0
  else s.curX < 79 ∨ s.curY < 24

instance (s : Shown) : Decidable s.Fits := inferInstanceAs (Decidable (ite _ _ _))

theorem Shown.onScreen_after_iff {s : Shown} (h : OnScreen s.pos) : OnScreen s.after ↔ s.Fits := by
  obtain ⟨hx, hy⟩ := h
  simp only [Shown.pos] at hx hy
  unfold Shown.after Shown.Fits OnScreen tabSize
  by_cases hreturn : s.c = charReturn
  · rw [hreturn, if_neg (by decide), if_pos rfl, if_neg (by decide), if_pos rfl]
    exact iff_of_true ⟨(by decide : (0 : Byte) < 80), hy⟩ trivial
  · rw [if_neg hreturn, if_neg hreturn]
    split_ifs <;> dsimp only <;> bv_omega

theorem putChar_cursor (c fg bg : Byte) (x y : BitVec 32) (st : TextConsole) :
    ((putChar c fg bg x y st).curX, (putChar c fg bg x y st).curY) =
      (Shown.mk c st.curX st.curY).after := by
  simp only [putChar, Shown.after]
  split_ifs <;> rfl

theorem putChar_shown (c fg bg : Byte) (x y : BitVec 32) (st : TextConsole) :
    (putChar c fg bg x y st).shown = st.shown ++ [⟨c, st.curX, st.curY⟩] := by
  simp only [putChar]
  split_ifs <;> rfl

theorem putChar_mem (c fg bg : Byte) (x y : BitVec 32) (st : TextConsole) :
    (putChar c fg bg x y st).mem = st.mem ∨
      ∃ v, (putChar c fg bg x y st).mem = st.mem.set16 (videoCell st.curX st.curY) v := by
  simp only [putChar]
  split_ifs
  · exact .inl rfl
  · exact .inl rfl
  · exact .inl rfl
  · exact .inl rfl
  · exact .inr ⟨_, rfl⟩
  · exact .inr ⟨_, rfl⟩
  · exact .inr ⟨_, rfl⟩

theorem videoCell_eq (x y : Byte) : videoCell x y = textCell (80 * y.toNat + x.toNat) := by
  unfold videoCell textCell
  congr 1
  apply BitVec.eq_of_toNat_eq
  rw [BitVec.toNat_mul, BitVec.toNat_add, BitVec.toNat_mul, BitVec.toNat_setWidth, BitVec.toNat_setWidth,
    BitVec.toNat_ofNat, show (2 : Word).toNat = 2 from rfl, show (80 : Word).toNat = 80 from rfl]
  omega

/-- Characters shown one behind the other, from one cursor to another. -/
inductive Trail : Byte × Byte → List Shown → Byte × Byte → Prop where
  | nil {p : Byte × Byte} : Trail p [] p
  | snoc {p q : Byte × Byte} {l : List Shown} (h : Trail p l q) (s : Shown) (hs : s.pos = q) :
      Trail p (l ++ [s]) s.after

/-- The cursor is on the screen all the time exactly when every character fits. -/
theorem Trail.onScreen_iff {p q : Byte × Byte} {l : List Shown} (h : Trail p l q) (hp : OnScreen p) :
    (∀ s ∈ l, OnScreen s.pos) ∧ OnScreen q ↔ ∀ s ∈ l, s.Fits := by
  induction h with
  | nil => exact iff_of_true ⟨fun _ h => absurd h List.not_mem_nil, hp⟩ fun _ h => absurd h List.not_mem_nil
  | snoc h s hs ih =>
      simp only [List.forall_mem_append, List.forall_mem_singleton]
      rw [← hs] at ih
      constructor
      · rintro ⟨⟨hl, hpos⟩, hafter⟩
        exact ⟨ih.mp ⟨hl, hpos⟩, (Shown.onScreen_after_iff hpos).mp hafter⟩
      · rintro ⟨hl, hfits⟩
        have hscreen := ih.mpr hl
        exact ⟨hscreen, (Shown.onScreen_after_iff hscreen.2).mpr hfits⟩

theorem Trail.pos_onScreen_iff {p q : Byte × Byte} {l : List Shown} (h : Trail p l q)
    (hp : OnScreen p) : (∀ s ∈ l, OnScreen s.pos) ↔ ∀ s ∈ l.dropLast, s.Fits := by
  cases h with
  | nil => exact iff_of_true (fun _ h => absurd h List.not_mem_nil) fun _ h => absurd h List.not_mem_nil
  | snoc h s hs =>
      rw [List.dropLast_concat, ← h.onScreen_iff hp, List.forall_mem_append, List.forall_mem_singleton, hs]

/-- A run only changes the console by `put_char`. -/
theorem keeps_runOutput {P : TextConsole → Prop}
    (hP : ∀ c fg bg x y st, P st → P (putChar c fg bg x y st)) (fuel : ℕ) (out : List Output) :
    Keeps P P (runOutput fuel out) := by
  have hstr : ∀ p forecolor backcolor, Keeps P P (putStr fuel p forecolor backcolor) := by
    intro p forecolor backcolor st hst st' hrun
    obtain ⟨r, hloop, rfl⟩ := Option.map_eq_some_iff.mp hrun
    refine Keeps.loop (P := fun r => P r.2) ?_ fuel (p, st) hst r hloop
    rintro ⟨str, st⟩ hst flow hpass
    simp only [putStrPass] at hpass
    split_ifs at hpass
    · have hnext := hP (st.mem str) forecolor backcolor (st.curX.setWidth 32) (st.curY.setWidth 32) st hst
      exact Option.some.inj hpass ▸ hnext
    · exact Option.some.inj hpass ▸ hst
  induction out with
  | nil => exact Keeps.pure fun _ h => h
  | cons o out ih =>
      intro st hst st' hrun
      rw [runOutput, List.foldlM_cons] at hrun
      obtain ⟨st₁, ho, hout⟩ := Option.bind_eq_some_iff.mp hrun
      refine ih st₁ ?_ st' hout
      cases o with
      | char c fg bg x y => exact Option.some.inj ho ▸ hP c fg bg x y st hst
      | str p forecolor backcolor => exact hstr p forecolor backcolor st hst st₁ ho

def InText (a : Word) : Prop := InBytes fb (2 * (80 * 25)) a

/-- What is written while the cursor is on the screen is in the text buffer. -/
def WritesInText (m : Mem) (st : TextConsole) : Prop :=
  (∀ s ∈ st.shown, OnScreen s.pos) → ∀ a, ¬ InText a → st.mem a = m a

theorem inText_of_onScreen {s : Shown} (h : OnScreen s.pos) {a : Word}
    (ha : (a - videoCell s.curX s.curY).toNat < 2) : InText a := by
  obtain ⟨hx, hy⟩ := h
  simp only [Shown.pos, BitVec.lt_def] at hx hy
  change s.curX.toNat < 80 at hx
  change s.curY.toNat < 25 at hy
  unfold InText InBytes
  rw [videoCell_eq, textCell] at ha
  rw [BitVec.toNat_sub] at *
  rw [BitVec.toNat_add, BitVec.toNat_ofNat] at ha
  omega

theorem WritesInText.putChar {m : Mem} {st : TextConsole} (h : WritesInText m st) (c fg bg : Byte)
    (x y : BitVec 32) : WritesInText m (putChar c fg bg x y st) := by
  intro hscreen a ha
  rw [putChar_shown, List.forall_mem_append, List.forall_mem_singleton] at hscreen
  have hst := h hscreen.1 a ha
  rcases putChar_mem c fg bg x y st with hmem | ⟨v, hmem⟩
  · rw [hmem, hst]
  · rw [hmem, Mem.set16, if_neg, hst]
    exact fun hlt => ha (inText_of_onScreen hscreen.2 hlt)

theorem trail_putChar {p : Byte × Byte} {st : TextConsole} (h : Trail p st.shown (st.curX, st.curY))
    (c fg bg : Byte) (x y : BitVec 32) : Trail p (putChar c fg bg x y st).shown
      ((putChar c fg bg x y st).curX, (putChar c fg bg x y st).curY) := by
  rw [putChar_shown, putChar_cursor]
  exact .snoc h ⟨c, st.curX, st.curY⟩ rfl

/-- In a run every character finds the cursor on the screen, the cell there is one of the text
buffer, and nothing but the text buffer is written. -/
structure StaysOnScreen (st st' : TextConsole) : Prop where
  cursor : ∀ s ∈ st'.shown, s.curX < 80 ∧ s.curY < 25
  cell : ∀ s ∈ st'.shown, ∃ k < 80 * 25, videoCell s.curX s.curY = textCell k
  mem : ∀ a, ¬ InText a → st'.mem a = st.mem a

/-- A run from the upper left corner stays on the screen exactly when every character but the
last fits where it finds the cursor: neither a backspace in the first column nor the end of the last
row is taken care of. -/
theorem staysOnScreen_iff {st st' : TextConsole} {out : List Output} (hx : st.curX = 0)
    (hy : st.curY = 0) (hshown : st.shown = [])
    (hrun : Settles (fun fuel => runOutput fuel out st) st') :
    StaysOnScreen st st' ↔ ∀ s ∈ st'.shown.dropLast, s.Fits := by
  have htrail : Trail (0, 0) st'.shown (st'.curX, st'.curY) := by
    refine Keeps.settles (fun n => keeps_runOutput (P := fun st => Trail (0, 0) st.shown
      (st.curX, st.curY)) (fun c fg bg x y st h => trail_putChar h c fg bg x y) n out) ?_ hrun
    rw [hx, hy, hshown]
    exact .nil
  have hwrites : WritesInText st.mem st' :=
    Keeps.settles (fun n => keeps_runOutput (fun c fg bg x y st h => h.putChar c fg bg x y) n out)
      (fun _ _ _ => rfl) hrun
  rw [← htrail.pos_onScreen_iff (by decide)]
  constructor
  · intro h
    exact h.cursor
  · intro h
    refine ⟨h, fun s hs => ⟨80 * s.curY.toNat + s.curX.toNat, ?_, videoCell_eq _ _⟩, hwrites h⟩
    obtain ⟨hsx, hsy⟩ := h s hs
    simp only [Shown.pos, BitVec.lt_def] at hsx hsy
    change s.curX.toNat < 80 at hsx
    change s.curY.toNat < 25 at hsy
    omega

def clearConsole : TextConsole := ⟨0, 0, fun _ => 0, []⟩

theorem staysOnScreen_sample : ∃ st', Settles (fun fuel => runOutput fuel [.char 0x52 15 0 0 0,
      .char charNewline 15 0 0 0, .char charTab 15 0 0 0, .char charBackspace 15 0 0 0] clearConsole) st' ∧
    StaysOnScreen clearConsole st' := by
  have hrun := Settles.of_forall fun fuel => (rfl : runOutput fuel [.char 0x52 15 0 0 0,
    .char charNewline 15 0 0 0, .char charTab 15 0 0 0, .char charBackspace 15 0 0 0] clearConsole = _)
  exact ⟨_, hrun, (staysOnScreen_iff rfl rfl rfl hrun).mpr (by decide)⟩

/-- The character behind 25 ends of lines is stored behind the text buffer. -/
theorem row_not_bounded : ∃ st', Settles (fun fuel => runOutput fuel
      (List.replicate 25 (.char charNewline 15 0 0 0) ++ [.char 0x52 15 0 0 0]) clearConsole) st' ∧
    ¬ StaysOnScreen clearConsole st' := by
  refine ⟨_, .of_forall fun _ => rfl, fun h => ?_⟩
  exact absurd (h.cursor ⟨0x52, 0, 25⟩ (by decide)) (by decide)

/-- A string that is apart from every cell `put_char` can reach is shown from its first character to
its last. -/
theorem putStr_settles {st : TextConsole} {p : Word} {s : List Byte} (forecolor backcolor : Byte)
    (h : CString st.mem p s)
    (hapart : ∀ i ≤ s.length, ∀ x y, 2 ≤ (p + BitVec.ofNat 64 i - videoCell x y).toNat) :
    Settles (fun fuel => putStr fuel p forecolor backcolor st) (s.foldl (fun st c =>
      putChar c forecolor backcolor (st.curX.setWidth 32) (st.curY.setWidth 32) st) st) := by
  suffices hloop : ∃ q, LoopSettles (fun _ => putStrPass forecolor backcolor) (p, st) (q, s.foldl
      (fun st c => putChar c forecolor backcolor (st.curX.setWidth 32) (st.curY.setWidth 32) st) st) by
    obtain ⟨q, hloop⟩ := hloop
    exact hloop.settles.map Prod.snd
  induction s generalizing st p with
  | nil => exact ⟨p, .stop (.of_forall fun _ => if_neg fun hne => hne h)⟩
  | cons c s ih =>
      obtain ⟨rfl, hne, htail⟩ := h
      have hapart' : ∀ i ≤ s.length, ∀ x y, 2 ≤ (p + 1 + BitVec.ofNat 64 i - videoCell x y).toNat := by
        intro i hi x y
        have hi' := hapart (1 + i) (by rw [List.length_cons]; omega) x y
        rwa [BitVec.ofNat_add, ← BitVec.add_assoc] at hi'
      have htail' : CString (putChar (st.mem p) forecolor backcolor (st.curX.setWidth 32)
          (st.curY.setWidth 32) st).mem (p + 1) s := by
        apply htail.congr
        intro i hi
        rcases putChar_mem (st.mem p) forecolor backcolor (st.curX.setWidth 32) (st.curY.setWidth 32) st
          with hmem | ⟨v, hmem⟩
        · rw [hmem]
        · rw [hmem, Mem.set16, if_neg (Nat.not_lt.mpr (hapart' i hi _ _))]
      obtain ⟨q, hq⟩ := ih htail' hapart'
      exact ⟨q, .next (.of_forall fun _ => if_pos hne) hq⟩

/-- The character is stored and the cursor moves right: every printable one. -/
def Shows (c : Byte) : Prop := c ≠ charTab ∧ c ≠ charReturn ∧ c ≠ charNewline ∧ c ≠ charBackspace

instance (c : Byte) : Decidable (Shows c) := inferInstanceAs (Decidable (_ ∧ _))

theorem get16_set16_textCell (m : Mem) {j k : ℕ} (v : BitVec 16) (hj : j < 80 * 25) (hk : k < 80 * 25)
    (hne : k ≠ j) : (m.set16 (textCell j) v).get16 (textCell k) = m.get16 (textCell k) := by
  have hlow : ¬ (textCell k - textCell j).toNat < 2 := by
    rw [textCell, textCell, BitVec.toNat_sub, BitVec.toNat_add, BitVec.toNat_add, BitVec.toNat_ofNat,
      BitVec.toNat_ofNat]
    omega
  have hhigh : ¬ (textCell k + 1 - textCell j).toNat < 2 := by
    rw [textCell, textCell, BitVec.toNat_sub, BitVec.toNat_add, BitVec.toNat_add, BitVec.toNat_add,
      BitVec.toNat_ofNat, BitVec.toNat_ofNat, show (1 : Word).toNat = 1 from rfl]
    omega
  have h0 : m.set16 (textCell j) v (textCell k) = m (textCell k) := if_neg hlow
  have h1 : m.set16 (textCell j) v (textCell k + 1) = m (textCell k + 1) := if_neg hhigh
  rw [Mem.get16, Mem.get16, h0, h1]

theorem low_cell (c attrib : Byte) :
    (c.setWidth 16 ||| attrib.setWidth 16 <<< 8).extractLsb' 0 8 = c := by
  apply BitVec.eq_of_getLsbD_eq
  intro j hj
  rw [BitVec.getLsbD_extractLsb', decide_eq_true hj, Bool.true_and, Nat.zero_add, BitVec.getLsbD_or,
    BitVec.getLsbD_setWidth, BitVec.getLsbD_shiftLeft, decide_eq_true hj, Bool.not_true, Bool.and_false,
    Bool.false_and, Bool.or_false, decide_eq_true (by omega), Bool.true_and]

/-- A character and a backspace: the cursor is back, the cell of the character shows a blank, and
the other cells of the screen are as they were. -/
structure BackspaceUndoes (st st' : TextConsole) : Prop where
  curX : st'.curX = st.curX
  curY : st'.curY = st.curY
  blank : st'.mem (videoCell st.curX st.curY) = 0x20
  others : ∀ k < 80 * 25, textCell k ≠ videoCell st.curX st.curY →
    st'.mem.get16 (textCell k) = st.mem.get16 (textCell k)

section

variable {c fg bg fg' bg' : Byte} {x y x' y' : BitVec 32} {st : TextConsole}

theorem putChar_shows (h : Shows c) (hx : st.curX < 79) : ∃ attrib : Byte,
    putChar c fg bg x y st = ⟨st.curX + 1, st.curY, st.mem.set16 (videoCell st.curX st.curY)
      (c.setWidth 16 ||| attrib.setWidth 16 <<< 8), st.shown ++ [⟨c, st.curX, st.curY⟩]⟩ := by
  obtain ⟨h1, h2, h3, h4⟩ := h
  have hne : st.curX + 1 ≠ 80 := by bv_omega
  refine ⟨(bg <<< 4) ||| (fg &&& 0xf), ?_⟩
  simp only [putChar]
  rw [if_neg h1, if_neg h2, if_neg h3, if_neg h4, if_neg hne]

theorem putChar_backspace : putChar charBackspace fg bg x y st =
    ⟨st.curX - 1, st.curY, st.mem.set16 (videoCell st.curX st.curY) 0x20,
      st.shown ++ [⟨charBackspace, st.curX, st.curY⟩]⟩ := rfl

theorem cells_backspace (m : Mem) (attrib : Byte) {i : ℕ} (hi : i + 1 < 80 * 25) (c : Byte) :
    ((m.set16 (textCell i) (c.setWidth 16 ||| attrib.setWidth 16 <<< 8)).set16 (textCell (i + 1)) 0x20)
      (textCell i) = c ∧
    ∀ k < 80 * 25, k ≠ i →
      ((m.set16 (textCell i) (c.setWidth 16 ||| attrib.setWidth 16 <<< 8)).set16 (textCell (i + 1))
        0x20).get16 (textCell k) = if k = i + 1 then 0x20 else m.get16 (textCell k) := by
  have hapart : ¬ (textCell i - textCell (i + 1)).toNat < 2 := by
    rw [textCell, textCell, BitVec.toNat_sub, BitVec.toNat_add, BitVec.toNat_add, BitVec.toNat_ofNat,
      BitVec.toNat_ofNat]
    omega
  refine ⟨?_, fun k hk hne => ?_⟩
  · rw [Mem.set16, if_neg hapart, Mem.set16, BitVec.sub_self]
    exact low_cell c attrib
  · by_cases hnext : k = i + 1
    · rw [hnext, if_pos rfl, get16_set16_self]
    · rw [if_neg hnext, get16_set16_textCell _ _ hi hk hnext,
        get16_set16_textCell _ _ (by omega) hk hne]

theorem textCell_inj {j k : ℕ} (hj : j < 80 * 25) (hk : k < 80 * 25) :
    textCell j = textCell k ↔ j = k := by
  refine ⟨fun h => ?_, fun h => h ▸ rfl⟩
  have htoNat := congrArg BitVec.toNat (BitVec.add_right_inj _ |>.mp h)
  rw [BitVec.toNat_ofNat, BitVec.toNat_ofNat] at htoNat
  omega

/-- The blank goes into the cell behind the character, since the cursor moves only afterwards: the
character and the backspace leave no trace exactly when it was a blank and there was one behind it. -/
theorem backspaceUndoes_iff (hc : Shows c) (hx : st.curX < 79) (hy : st.curY < 25) :
    BackspaceUndoes st (putChar charBackspace fg' bg' x' y' (putChar c fg bg x y st)) ↔
      c = 0x20 ∧ st.mem.get16 (videoCell (st.curX + 1) st.curY) = 0x20 := by
  obtain ⟨attrib, hshow⟩ := @putChar_shows c fg bg x y st hc hx
  rw [hshow, putChar_backspace]
  have hxn : st.curX.toNat < 79 := BitVec.lt_def.mp hx
  have hyn : st.curY.toNat < 25 := BitVec.lt_def.mp hy
  have hsucc : (st.curX + 1).toNat = st.curX.toNat + 1 := by bv_omega
  have hcell := videoCell_eq st.curX st.curY
  have hnext := videoCell_eq (st.curX + 1) st.curY
  rw [hsucc, ← Nat.add_assoc] at hnext
  have hi : 80 * st.curY.toNat + st.curX.toNat + 1 < 80 * 25 := by omega
  rw [hcell, hnext]
  generalize 80 * st.curY.toNat + st.curX.toNat = i at *
  obtain ⟨hchar, hothers⟩ := cells_backspace st.mem attrib hi c
  constructor
  · intro h
    have hblank := h.blank
    have hright := h.others (i + 1) hi
    rw [hcell] at hblank hright
    refine ⟨hchar.symm.trans hblank, (hright ?_).symm.trans ?_⟩
    · rw [Ne, textCell_inj hi (by omega)]
      omega
    · exact (hothers (i + 1) hi (by omega)).trans (if_pos rfl)
  · rintro ⟨rfl, hright⟩
    refine ⟨BitVec.add_sub_cancel _ _, rfl, ?_, fun k hk hne => ?_⟩
    · rw [hcell]
      exact hchar
    · rw [hcell, Ne, textCell_inj hk (by omega)] at hne
      refine (hothers k hk hne).trans ?_
      split_ifs with h
      · rw [h, hright]
      · rfl

end

/-- A memory whose cells are blanks without an attribute, and the cursor in the second row. -/
def blankConsole : TextConsole := ⟨7, 1, fun a => if a.toNat % 2 = 0 then 0x20 else 0, []⟩

theorem backspaceUndoes_blank : BackspaceUndoes blankConsole
    (putChar charBackspace 15 0 0 0 (putChar 0x20 15 0 0 0 blankConsole)) :=
  (backspaceUndoes_iff (by decide) (by decide) (by decide)).mpr ⟨rfl, by decide⟩

/-- The letter `R` is still there. -/
theorem backspace_keeps_letter : ¬ BackspaceUndoes clearConsole
    (putChar charBackspace 15 0 0 0 (putChar 0x52 15 0 0 0 clearConsole)) := by
  intro h
  exact absurd h.blank (by decide)

end Rix
