import Rix.Blocks
import Rix.Fuel

/-!
# `qsort.c`

The sort as the code computes it: on pointers into a memory that is mapped in part. The
comparator sees the bytes of two elements. A loop or a call that does not end has no
result, and neither has an access to an unmapped byte or a misaligned `size_t`.
-/
namespace Rix
open Fuel

def swapInit (arr es : Word) : ℕ :=
  if (arr ||| es) % 8 ≠ 0 then 2 else if 8 < es then 1 else 0

/-- State of the loops of `swapfunc`. -/
structure Swapping where
  a : Word
  b : Word
  n : Word
  mem : Bytes

/-- One pass of a loop of `swapfunc`, over elements of `w` bytes. -/
def swapPass (exch : Bytes → Word → Word → Option Bytes) (w : Word) (st : Swapping) :
    Option Swapping :=
  (exch st.mem st.a st.b).map fun m => ⟨st.a + w, st.b + w, st.n - w, m⟩

def swapLoop (exch : Bytes → Word → Word → Option Bytes) (w : Word) (fuel : ℕ) (m : Bytes)
    (a b n : Word) : Option Bytes :=
  (whileLoop (fun st => decide (0 < st.n)) (swapPass exch w) fuel ⟨a, b, n, m⟩).map Swapping.mem

def swapfunc (fuel : ℕ) (m : Bytes) (a b n : Word) (swaptype : ℕ) : Option Bytes :=
  if swaptype ≤ 1 then swapLoop exchSize 8 fuel m a b n else swapLoop exch8 1 fuel m a b n

def swap (es : Word) (swaptype fuel : ℕ) (m : Bytes) (a b : Word) : Option Bytes :=
  if swaptype ≠ 0 then swapfunc fuel m a b es swaptype else exchSize m a b

def vecswap (swaptype fuel : ℕ) (m : Bytes) (a b n : Word) : Option Bytes :=
  if 0 < n then swapfunc fuel m a b n swaptype else pure m

section

variable (cmp : List Byte → List Byte → ℤ) (es : Word)

def compareAt (m : Bytes) (a b : Word) : Option ℤ := do
  let x ← loadBytes m a es.toNat
  let y ← loadBytes m b es.toNat
  pure (cmp x y)

def med3 (m : Bytes) (a b c : Word) : Option Word := do
  let r ← compareAt cmp es m a b
  if r < 0 then do
    let r ← compareAt cmp es m b c
    if r < 0 then pure b
    else do
      let r ← compareAt cmp es m a c
      if r < 0 then pure c else pure a
  else do
    let r ← compareAt cmp es m b c
    if r > 0 then pure b
    else do
      let r ← compareAt cmp es m a c
      if r > 0 then pure c else pure a

/-- `pv`: a pointer to an element, or to the copy `v`. -/
inductive Pivot where
  | slot (p : Word)
  | copy (v : Word)

def comparePivot (m : Bytes) (p : Word) (pv : Pivot) : Option ℤ := do
  let x ← loadBytes m p es.toNat
  let y ← match pv with
    | .slot q => loadBytes m q es.toNat
    | .copy v => pure ((wordBytes v).take es.toNat)
  pure (cmp x y)

variable (swaptype : ℕ)

def pvInit (fuel : ℕ) (m : Bytes) (arr pm : Word) : Option (Pivot × Bytes) :=
  if swaptype ≠ 0 then do
    let m ← swap es swaptype fuel m arr pm
    pure (.slot arr, m)
  else do
    let v ← loadSize m pm
    pure (.copy v, m)

/-- One pass of the inner loop of the insertion sort, on `pl`. -/
def sinkPass (arr : Word) (fuel : ℕ) : Word × Bytes → Option (Flow (Word × Bytes))
  | (pl, m) =>
    if arr < pl then do
      let r ← compareAt cmp es m (pl - es) pl
      if 0 < r then do
        let m ← swap es swaptype fuel m pl (pl - es)
        pure (.next (pl - es, m))
      else pure (.stop (pl, m))
    else pure (.stop (pl, m))

def insertBody (arr : Word) (fuel : ℕ) : Word × Bytes → Option (Word × Bytes)
  | (pm, m) => do
    let (_, m) ← loop (sinkPass cmp es swaptype arr fuel) fuel (pm, m)
    pure (pm + es, m)

def insertionSort (fuel : ℕ) (m : Bytes) (arr n : Word) : Option Bytes :=
  (whileLoop (fun st => decide (st.1 < arr + n * es)) (insertBody cmp es swaptype arr fuel) fuel
    (arr + es, m)).map Prod.snd

/-- The choice of `pm` before `PVINIT`. -/
def choosePivot (m : Bytes) (arr n : Word) : Option Word := do
  let pm := arr + n / 2 * es
  if n > 7 then do
    let pl := arr
    let pn := arr + (n - 1) * es
    let (pl, pm, pn) ←
      if n > 40 then do
        let s := n / 8 * es
        let pl ← med3 cmp es m pl (pl + s) (pl + 2 * s)
        let pm ← med3 cmp es m (pm - s) pm (pm + s)
        let pn ← med3 cmp es m (pn - 2 * s) (pn - s) pn
        pure (pl, pm, pn)
      else pure (pl, pm, pn)
    med3 cmp es m pl pm pn
  else pure pm

structure Scan where
  pa : Word
  pb : Word
  pc : Word
  pd : Word
  mem : Bytes

def scanUp (pv : Pivot) (fuel : ℕ) (st : Scan) : Option (Flow Scan) :=
  if st.pb ≤ st.pc then do
    let r ← comparePivot cmp es st.mem st.pb pv
    if r ≤ 0 then
      if r = 0 then do
        let m ← swap es swaptype fuel st.mem st.pa st.pb
        pure (.next { st with pa := st.pa + es, pb := st.pb + es, mem := m })
      else pure (.next { st with pb := st.pb + es })
    else pure (.stop st)
  else pure (.stop st)

def scanDown (pv : Pivot) (fuel : ℕ) (st : Scan) : Option (Flow Scan) :=
  if st.pc ≥ st.pb then do
    let r ← comparePivot cmp es st.mem st.pc pv
    if r ≥ 0 then
      if r = 0 then do
        let m ← swap es swaptype fuel st.mem st.pc st.pd
        pure (.next { st with pd := st.pd - es, pc := st.pc - es, mem := m })
      else pure (.next { st with pc := st.pc - es })
    else pure (.stop st)
  else pure (.stop st)

/-- One pass of `for (;;)`. -/
def partitionPass (pv : Pivot) (fuel : ℕ) (st : Scan) : Option (Flow Scan) := do
  let st ← loop (scanUp cmp es swaptype pv fuel) fuel st
  let st ← loop (scanDown cmp es swaptype pv fuel) fuel st
  if st.pb > st.pc then pure (.stop st)
  else do
    let m ← swap es swaptype fuel st.mem st.pb st.pc
    pure (.next { st with pb := st.pb + es, pc := st.pc - es, mem := m })

/-- The two calls of `vecswap` after the partition loop. The first `min` compares pointer
differences, which are signed; the subtraction of `es` makes the second one unsigned. -/
def gatherEqual (fuel : ℕ) (arr n : Word) (st : Scan) : Option Scan := do
  let pn := arr + n * es
  let s := if (st.pa - arr).slt (st.pb - st.pa) then st.pa - arr else st.pb - st.pa
  let m ← vecswap swaptype fuel st.mem arr (st.pb - s) s
  let s := if st.pd - st.pc < pn - st.pd - es then st.pd - st.pc else pn - st.pd - es
  let m ← vecswap swaptype fuel m st.pb (pn - s) s
  pure { st with mem := m }

def partition (pv : Pivot) (fuel : ℕ) (m : Bytes) (arr n : Word) : Option Scan := do
  let pc := arr + (n - 1) * es
  let st ← loop (partitionPass cmp es swaptype pv fuel) fuel ⟨arr, arr, pc, pc, m⟩
  gatherEqual es swaptype fuel arr n st

/-- The two recursive calls, on the smaller and on the greater elements. -/
def sortParts (call : Bytes → Word → Word → Option Bytes) (arr n : Word) (st : Scan) :
    Option Bytes := do
  let pn := arr + n * es
  let s := st.pb - st.pa
  let m ← if s > es then call st.mem arr (s / es) else pure st.mem
  let s := st.pd - st.pc
  if s > es then call m (pn - s) (s / es) else pure m

end

/-- The fuel bounds the depth of the recursion and every loop. -/
def qsort (cmp : List Byte → List Byte → ℤ) : ℕ → Bytes → Word → Word → Word → Option Bytes
  | 0, _, _, _, _ => none
  | fuel+1, m, arr, n, es => do
    let swaptype := swapInit arr es
    if n < 7 then insertionSort cmp es swaptype fuel m arr n
    else do
      let pm ← choosePivot cmp es m arr n
      let (pv, m) ← pvInit es swaptype fuel m arr pm
      let st ← partition cmp es swaptype pv fuel m arr n
      sortParts es (fun m arr n => qsort cmp fuel m arr n es) arr n st

end Rix
