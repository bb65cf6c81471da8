import Rix.TextConsole
import Rix.Typewriter

/-!
# The console as a typewriter

The two bytes of the cursor and the text buffer are a sheet of rows of 80 cells, and each character
is a key. The sheet has 25 rows: what would be marked below them is not on it, since nothing scrolls.
-/
namespace Rix
open Fuel Typewriter

def charCell (fg bg c : Byte) : BitVec 16 :=
  c.setWidth 16 ||| ((bg <<< 4) ||| (fg &&& 0xf)).setWidth 16 <<< 8

def keyOf (fg bg c : Byte) : Key (BitVec 16) :=
  if c = charTab then .tab tabSize.toNat
  else if c = charReturn then .home
  else if c = charNewline then .down
  else if c = charBackspace then .back 0x20
  else .mark (charCell fg bg c)

/-- Cells are marked on the screen, no backspace is in the first column, and the row stays in its
byte. -/
def KeyFits (pos : ℕ) : Key (BitVec 16) → Prop
  | .tab _ => pos < 80 * 255
  | .home => True
  | .down => pos < 80 * 255
  | .back _ => pos < 80 * 25 ∧ pos % 80 ≠ 0
  | .mark _ => pos < 80 * 25

structure Displays (s : Sheet (BitVec 16)) (st : TextConsole) : Prop where
  curX : st.curX.toNat = s.pos % 80
  curY : st.curY.toNat = s.pos / 80
  cell : ∀ k < 80 * 25, st.mem.get16 (textCell k) = s.cell k

def sheetOf (st : TextConsole) : Sheet (BitVec 16) :=
  ⟨80 * st.curY.toNat + st.curX.toNat, fun k => st.mem.get16 (textCell k)⟩

theorem displays_sheetOf {st : TextConsole} (hx : st.curX < 80) : Displays (sheetOf st) st := by
  have hlt : st.curX.toNat < 80 := BitVec.lt_def.mp hx
  refine ⟨?_, ?_, fun _ _ => rfl⟩
  · change st.curX.toNat = (80 * st.curY.toNat + st.curX.toNat) % 80
    omega
  · change st.curY.toNat = (80 * st.curY.toNat + st.curX.toNat) / 80
    omega

/-- What a call leaves: the sheet, and nothing written but the text buffer. -/
structure Types (s : Sheet (BitVec 16)) (st st' : TextConsole) : Prop where
  displays : Displays s st'
  outside : ∀ a, ¬ InText a → st'.mem a = st.mem a

section

variable {s : Sheet (BitVec 16)} {st : TextConsole}

theorem Displays.videoCell_eq (h : Displays s st) : videoCell st.curX st.curY = textCell s.pos := by
  rw [Rix.videoCell_eq, h.curX, h.curY, Nat.div_add_mod]

theorem Displays.get16_set16 (h : Displays s st) (hpos : s.pos < 80 * 25) (v : BitVec 16) {k : ℕ}
    (hk : k < 80 * 25) : (st.mem.set16 (videoCell st.curX st.curY) v).get16 (textCell k) =
      Function.update s.cell s.pos v k := by
  rw [h.videoCell_eq]
  by_cases heq : k = s.pos
  · rw [heq, get16_set16_self, Function.update_self]
  · rw [get16_set16_textCell _ _ hpos hk heq, Function.update_of_ne heq, h.cell k hk]

theorem Displays.set16_outside (h : Displays s st) (hpos : s.pos < 80 * 25) (v : BitVec 16) {a : Word}
    (ha : ¬ InText a) : st.mem.set16 (videoCell st.curX st.curY) v a = st.mem a := by
  refine if_neg fun hlt => ha (inText_of_onScreen (s := ⟨0, st.curX, st.curY⟩) ?_ hlt)
  simp only [OnScreen, Shown.pos, BitVec.lt_def, h.curX, h.curY]
  exact ⟨Nat.mod_lt _ (by decide), Nat.div_lt_of_lt_mul hpos⟩

theorem Displays.moved (h : Displays s st) {x y : Byte} {pos : ℕ} (hx : x.toNat = pos % 80)
    (hy : y.toNat = pos / 80) (shown : List Shown) :
    Types ⟨pos, s.cell⟩ st ⟨x, y, st.mem, shown⟩ :=
  ⟨⟨hx, hy, h.cell⟩, fun _ _ => rfl⟩

theorem Displays.stored (h : Displays s st) (hpos : s.pos < 80 * 25) (v : BitVec 16) {x y : Byte}
    {pos : ℕ} (hx : x.toNat = pos % 80) (hy : y.toNat = pos / 80) (shown : List Shown) :
    Types ⟨pos, Function.update s.cell s.pos v⟩ st
      ⟨x, y, st.mem.set16 (videoCell st.curX st.curY) v, shown⟩ :=
  ⟨⟨hx, hy, fun _ hk => h.get16_set16 hpos v hk⟩, fun _ ha => h.set16_outside hpos v ha⟩

/-- `put_char` presses the key of its character. -/
theorem Displays.putChar (h : Displays s st) {c fg bg : Byte} (hf : KeyFits s.pos (keyOf fg bg c))
    (x y : BitVec 32) : Types (s.press 80 (keyOf fg bg c)) st (putChar c fg bg x y st) := by
  have hx := h.curX
  have hy := h.curY
  unfold keyOf at hf ⊢
  simp only [Rix.putChar]
  have hfour : tabSize.toNat = 4 := rfl
  have hsucc : ∀ b : Byte, (b + 1).toNat = (b.toNat + 1) % 2 ^ 8 := fun b => BitVec.toNat_add b 1
  split_ifs at hf ⊢ with htab hedge hreturn hnewline hback hlast
  -- the tab goes to the next row, or stays in its own
  · have hedge' : 80 ≤ (st.curX + tabSize).toNat := BitVec.le_def.mp hedge
    have hf' : s.pos < 80 * 255 := hf
    rw [BitVec.toNat_add, hfour] at hedge'
    refine h.moved ?_ ?_ _
    · change 0 = min (s.pos + tabSize.toNat) (80 * (s.pos / 80 + 1)) % 80
      omega
    · rw [hsucc]
      omega
  · have hedge' : (st.curX + tabSize).toNat < 80 := BitVec.lt_def.mp (BitVec.not_le.mp hedge)
    rw [BitVec.toNat_add, hfour] at hedge'
    refine h.moved ?_ ?_ _
    · rw [BitVec.toNat_add, hfour]
      omega
    · omega
  · refine h.moved ?_ ?_ _
    · change 0 = 80 * (s.pos / 80) % 80
      omega
    · omega
  · have hf' : s.pos < 80 * 255 := hf
    refine h.moved ?_ ?_ _
    · omega
    · rw [hsucc]
      omega
  · obtain ⟨hpos, hcol⟩ := hf
    refine h.stored hpos _ ?_ ?_ _
    · rw [BitVec.toNat_sub, show (1 : Byte).toNat = 1 from rfl]
      omega
    · omega
  · have hlast' : (st.curX + 1).toNat = 80 := congrArg BitVec.toNat hlast
    rw [hsucc] at hlast'
    have hf' : s.pos < 80 * 25 := hf
    refine h.stored hf' _ ?_ ?_ _
    · change 0 = (s.pos + 1) % 80
      omega
    · rw [hsucc]
      omega
  · have hlast' : (st.curX + 1).toNat ≠ 80 := fun h => hlast (BitVec.eq_of_toNat_eq h)
    rw [hsucc] at hlast'
    have hf' : s.pos < 80 * 25 := hf
    refine h.stored hf' _ ?_ ?_ _
    · rw [hsucc]
      omega
    · omega

theorem Types.trans {s s' : Sheet (BitVec 16)} {st st₁ st' : TextConsole} (h : Types s st st₁)
    (h' : Types s' st₁ st') : Types s' st st' :=
  ⟨h'.displays, fun a ha => (h'.outside a ha).trans (h.outside a ha)⟩

theorem Types.cString {st₀ : TextConsole} (h : Types s st₀ st) {p : Word} {t : List Byte}
    (ht : CString st₀.mem p t) (hapart : ∀ i ≤ t.length, ¬ InText (p + BitVec.ofNat 64 i)) : CString st.mem p t :=
  ht.congr fun i hi => h.outside _ (hapart i hi)

/-- `put_str` presses the keys of its string. -/
theorem Displays.putStr (h : Displays s st) {p : Word} {t : List Byte} {fg bg : Byte}
    (ht : CString st.mem p t) (hapart : ∀ i ≤ t.length, ¬ InText (p + BitVec.ofNat 64 i))
    (hf : s.Takes 80 KeyFits (t.map (keyOf fg bg))) :
    ∃ st', Settles (fun fuel => putStr fuel p fg bg st) st' ∧
      Types (s.pressAll 80 (t.map (keyOf fg bg))) st st' := by
  suffices hloop : ∃ r, LoopSettles (fun _ => putStrPass fg bg) (p, st) r ∧
      Types (s.pressAll 80 (t.map (keyOf fg bg))) st r.2 by
    obtain ⟨r, hr, htypes⟩ := hloop
    exact ⟨r.2, hr.settles.map Prod.snd, htypes⟩
  induction t generalizing s st p with
  | nil =>
      have hstop : putStrPass fg bg (p, st) = some (.stop (p, st)) := if_neg fun hne => hne ht
      exact ⟨(p, st), .stop (.of_forall fun _ => hstop), h, fun _ _ => rfl⟩
  | cons c t ih =>
      obtain ⟨hc, hne, htail⟩ := ht
      obtain ⟨hfit, hrest⟩ := hf
      have hapart' : ∀ i ≤ t.length, ¬ InText (p + 1 + BitVec.ofNat 64 i) := by
        intro i hi
        have hi' := hapart (1 + i) (by rw [List.length_cons]; omega)
        rwa [BitVec.ofNat_add, ← BitVec.add_assoc] at hi'
      have hput := h.putChar hfit (st.curX.setWidth 32) (st.curY.setWidth 32)
      obtain ⟨r, hr, htypes⟩ := ih hput.displays (hput.cString htail hapart') hapart' hrest
      have hnext : putStrPass fg bg (p, st) = some (.next (p + 1,
          Rix.putChar c fg bg (st.curX.setWidth 32) (st.curY.setWidth 32) st)) := by
        rw [putStrPass, hc]
        exact if_pos hne
      exact ⟨r, .next (.of_forall fun _ => hnext) hr, hput.trans htypes⟩

end

/-- The keys of a call, whose string is not on the screen. -/
inductive Output.Keys (m : Mem) : Output → List (Key (BitVec 16)) → Prop where
  | char (c fg bg : Byte) (x y : BitVec 32) : Keys m (.char c fg bg x y) [keyOf fg bg c]
  | str {p : Word} {t : List Byte} (ht : CString m p t)
      (hapart : ∀ i ≤ t.length, ¬ InText (p + BitVec.ofNat 64 i)) (fg bg : Byte) :
      Keys m (.str p fg bg) (t.map (keyOf fg bg))

theorem Output.Keys.exec {s : Sheet (BitVec 16)} {st : TextConsole} {o : Output}
    {ks : List (Key (BitVec 16))} (ho : o.Keys st.mem ks) (h : Displays s st)
    (hf : s.Takes 80 KeyFits ks) :
    ∃ st', Settles (fun fuel => o.exec fuel st) st' ∧ Types (s.pressAll 80 ks) st st' := by
  cases ho with
  | char c fg bg x y => exact ⟨_, .of_forall fun _ => rfl, h.putChar hf.1 x y⟩
  | str ht hapart fg bg => exact h.putStr ht hapart hf

theorem Output.Keys.after {s : Sheet (BitVec 16)} {st st' : TextConsole} (h : Types s st st')
    {o : Output} {ks : List (Key (BitVec 16))} (ho : o.Keys st.mem ks) : o.Keys st'.mem ks := by
  cases ho with
  | char c fg bg x y => exact .char c fg bg x y
  | str ht hapart fg bg => exact .str (h.cString ht hapart) hapart fg bg

/-- Calls of `put_char` and `put_str` in any order, with strings that are not on the screen, are a
typewriter under the keys of their characters, as long as every key fits. -/
theorem console_refines_typewriter {s : Sheet (BitVec 16)} {st : TextConsole} {out : List Output}
    {ks : List (List (Key (BitVec 16)))} (h : Displays s st)
    (hks : List.Forall₂ (Output.Keys st.mem) out ks) (hf : s.Takes 80 KeyFits ks.flatten) :
    ∃ st', Settles (fun fuel => runOutput fuel out st) st' ∧
      Types (s.pressAll 80 ks.flatten) st st' := by
  induction out generalizing s st ks with
  | nil =>
      cases hks
      exact ⟨st, .of_forall fun _ => rfl, h, fun _ _ => rfl⟩
  | cons o out ih =>
      obtain _ | ⟨ho, hrest⟩ := hks
      rw [List.flatten_cons, Sheet.takes_append] at hf
      obtain ⟨st₁, hexec, htypes⟩ := ho.exec h hf.1
      have hrest' := hrest.imp fun _ _ hk => hk.after htypes
      obtain ⟨st', hrun, htypes'⟩ := ih htypes.displays hrest' hf.2
      refine ⟨st', hexec.bind hrun, ?_⟩
      rw [List.flatten_cons, Sheet.pressAll_append]
      exact htypes.trans htypes'

def sampleConsole : TextConsole :=
  ⟨0, 0, fun a => [0x4f, 0x4b, charNewline, charReturn].getD (a - 0x1000).toNat 0, []⟩

theorem sampleConsole_string :
    CString sampleConsole.mem 0x1000 [0x4f, 0x4b, charNewline, charReturn] :=
  ⟨rfl, by decide, rfl, by decide, rfl, by decide, rfl, by decide, rfl⟩

theorem sampleConsole_apart : ∀ i ≤ 4, ¬ InText (0x1000 + BitVec.ofNat 64 i) := by
  simp only [InText, InBytes]
  decide

theorem console_refines_typewriter_sample : ∃ st',
    Settles (fun fuel => runOutput fuel [.char charTab 15 0 0 0, .str 0x1000 15 0] sampleConsole) st' ∧
      Types ((sheetOf sampleConsole).pressAll 80
        [.tab 4, .mark (charCell 15 0 0x4f), .mark (charCell 15 0 0x4b), .down, .home]) sampleConsole st' := by
  have hfits : (sheetOf sampleConsole).Takes 80 KeyFits
      [.tab 4, .mark (charCell 15 0 0x4f), .mark (charCell 15 0 0x4b), .down, .home] := by
    simp [Sheet.Takes, Sheet.press, KeyFits, sheetOf, sampleConsole]
  exact console_refines_typewriter (displays_sheetOf (by decide))
    (.cons (.char charTab 15 0 0 0) (.cons (.str sampleConsole_string sampleConsole_apart 15 0) .nil)) hfits

def textOf (lines : List (List Byte)) : List Byte :=
  lines.flatMap fun l => l ++ [charNewline, charReturn]

theorem keyOf_of_shows {c : Byte} (hc : Shows c) (fg bg : Byte) :
    keyOf fg bg c = .mark (charCell fg bg c) := by
  obtain ⟨h1, h2, h3, h4⟩ := hc
  rw [keyOf, if_neg h1, if_neg h2, if_neg h3, if_neg h4]

theorem map_keyOf_textOf {lines : List (List Byte)} (h : ∀ l ∈ lines, ∀ c ∈ l, Shows c) (fg bg : Byte) :
    (textOf lines).map (keyOf fg bg) = linesKeys (lines.map (List.map (charCell fg bg))) := by
  induction lines with
  | nil => rfl
  | cons l lines ih =>
      rw [List.forall_mem_cons] at h
      have hline : l.map (keyOf fg bg) = (l.map (charCell fg bg)).map .mark := by
        rw [List.map_map]
        exact List.map_congr_left fun c hc => keyOf_of_shows (h.1 c hc) fg bg
      rw [List.map_cons, linesKeys_cons, ← ih h.2, ← hline, textOf, List.flatMap_cons, List.map_append,
        List.map_append, List.append_assoc]
      rfl

/-- `put_str` of a text of lines, from the first column: when its rows end on the screen, each line
stands below the one before, a line that fills its last row leaves an empty one behind it, and the
other cells stay. -/
theorem put_str_lines {st : TextConsole} {p : Word} {lines : List (List Byte)} {fg bg : Byte}
    (hx : st.curX = 0) (hs : CString st.mem p (textOf lines))
    (hapart : ∀ i ≤ (textOf lines).length, ¬ InText (p + BitVec.ofNat 64 i))
    (hshows : ∀ l ∈ lines, ∀ c ∈ l, Shows c)
    (hrows : st.curY.toNat + rows 80 (lines.map (List.map (charCell fg bg))) ≤ 25) :
    ∃ st' s', Settles (fun fuel => putStr fuel p fg bg st) st' ∧ Types s' st st' ∧
      Written 80 st.curY.toNat (lines.map (List.map (charCell fg bg))) (sheetOf st) s' := by
  have hpos : (sheetOf st).pos = 80 * st.curY.toNat := by
    rw [sheetOf, hx]
    rfl
  have hfits : (sheetOf st).Takes 80 KeyFits ((textOf lines).map (keyOf fg bg)) := by
    rw [map_keyOf_textOf hshows]
    refine takes_lines (by decide) hpos hrows (fun p hp v => hp) (fun p hp => ?_) fun p _ => trivial
    exact hp.trans (by decide)
  obtain ⟨st', hrun, htypes⟩ := (displays_sheetOf (hx ▸ by decide)).putStr hs hapart hfits
  rw [map_keyOf_textOf hshows] at htypes
  exact ⟨st', _, hrun, htypes, written_lines (by decide) hpos _⟩

def linesConsole : TextConsole :=
  ⟨0, 3, fun a => (textOf [[0x4f, 0x4b], [0x6e, 0x6f, 0x77]]).getD (a - 0x1000).toNat 0, []⟩

theorem linesConsole_string :
    CString linesConsole.mem 0x1000 (textOf [[0x4f, 0x4b], [0x6e, 0x6f, 0x77]]) :=
  ⟨rfl, by decide, rfl, by decide, rfl, by decide, rfl, by decide, rfl, by decide, rfl, by decide, rfl,
    by decide, rfl, by decide, rfl, by decide, rfl⟩

theorem put_str_lines_sample : ∃ st' s', Settles (fun fuel => putStr fuel 0x1000 15 0 linesConsole) st' ∧
    Types s' linesConsole st' ∧ Written 80 3 [[charCell 15 0 0x4f, charCell 15 0 0x4b],
      [charCell 15 0 0x6e, charCell 15 0 0x6f, charCell 15 0 0x77]] (sheetOf linesConsole) s' := by
  have hapart : ∀ i ≤ 9, ¬ InText (0x1000 + BitVec.ofNat 64 i) := by
    simp only [InText, InBytes]
    decide
  exact put_str_lines rfl linesConsole_string hapart (by decide) (by decide)

end Rix
