import BinTools.CString
import Mathlib.Tactic.Common

namespace BinTools.Heap

/-!
# The block bitmap of a heap page

A page holds 256 blocks of 16 bytes and its `Bin` record one bit for each.  The
search reads the bitmap byte by byte, marking and clearing go through its
64-bit words.  The loop counters are `uint8_t` and wrap at 256; a loop that has
not ended within its rounds, or that leaves the bitmap, yields `none`.
-/

/-- The 256-bit block bitmap of one page (`uint32_t bin[8]`). -/
abbrev Bitmap := BitVec 256

/-- The bitmap seen as bytes. -/
def byteAt (bits : Bitmap) (j : Nat) : BitVec 8 :=
  (bits >>> (8 * j)).setWidth 8

/-- `*p |= v` on the 64-bit word `w` of the bitmap. -/
def orWord (bits : Bitmap) (w : Nat) (v : U64) : Bitmap :=
  bits ||| (v.setWidth 256 <<< (64 * w))

/-- `*p &= ~v` on the 64-bit word `w` of the bitmap. -/
def andNotWord (bits : Bitmap) (w : Nat) (v : U64) : Bitmap :=
  bits &&& ~~~(v.setWidth 256 <<< (64 * w))

/--
The loop of `slowest_find_consecutive_bin`; `c` counts the clear bits seen in
a row.  Every round passes one bit, so 256 rounds reach the end of the bitmap.
-/
def findLoop (bits : Bitmap) (q : Nat) :
    Nat → BitVec 8 → Nat → Nat → Nat → Option Nat
  | 0, _, _, j, _ => if j < 32 then none else some 0
  | rounds + 1, v, i, j, c =>
      if j < 32 then
        let v := if v = 0 then 1 else v
        let c := if byteAt bits j &&& v = 0 then (c + 1) % 256 else 0
        if byteAt bits j &&& v = 0 ∧ c = q then
          some ((i + 1 + j * 8 + 256 - q) % 256)
        else if i % 8 = 7 then
          findLoop bits q rounds (v <<< 1) 0 (j + 1) c
        else
          findLoop bits q rounds (v <<< 1) (i + 1) j c
      else
        some 0

/--
`slowest_find_consecutive_bin`: the first block of a run of `q` free blocks,
zero when there is none.
-/
def slowestFindConsecutiveBin (bits : Bitmap) (q : Nat) : Option Nat :=
  findLoop bits q 256 1 0 0 0

/-- The loop of `set_bin` with its word index `w` and pending step `up`. -/
def setBinLoop (s e : Nat) :
    Nat → Bitmap → Nat → U64 → Nat → Bool → Option Bitmap
  | 0, _, _, _, _, _ => none
  | rounds + 1, bits, w, v, i, up =>
      if i ≤ e then
        let v := if v = 0 then 1 else v
        let w := if up then w + 1 else w
        let up := decide (i % 64 = 63)
        if i < s then
          setBinLoop s e rounds bits w (v <<< 1) ((i + 1) % 256) up
        else if 4 ≤ w then
          none
        else if i = 255 then
          some (orWord bits w v)
        else
          setBinLoop s e rounds (orWord bits w v) w (v <<< 1) ((i + 1) % 256) up
      else
        some bits

/-- `set_bin`: mark the `q` blocks from `s` on. -/
def setBin (bits : Bitmap) (s q : Nat) : Option Bitmap :=
  setBinLoop s ((s + q + 255) % 256) 257 bits 0 1 0 false

/--
The loop of `unset_bin`.  The word pointer only moves on in rounds that also
clear a bit, and the last round is the one after the run.
-/
def unsetBinLoop (s e : Nat) :
    Nat → Bitmap → Nat → U64 → Nat → Option Bitmap
  | 0, _, _, _, _ => none
  | rounds + 1, bits, w, v, i =>
      if i ≤ e then
        let v := if v = 0 then 1 else v
        if i < s then
          unsetBinLoop s e rounds bits w (v <<< 1) ((i + 1) % 256)
        else if 4 ≤ w then
          none
        else
          unsetBinLoop s e rounds (andNotWord bits w v)
            (if i % 64 = 63 then w + 1 else w) (v <<< 1) ((i + 1) % 256)
      else
        some bits

/-- `unset_bin` with its bound `e = s + q`. -/
def unsetBin (bits : Bitmap) (s q : Nat) : Option Bitmap :=
  unsetBinLoop s ((s + q) % 256) 257 bits 0 1 0

end BinTools.Heap
