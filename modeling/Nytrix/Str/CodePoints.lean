import Nytrix.Codec.Text

/-! The code points of a byte string. -/

namespace Nytrix.Str

open Nytrix.Codec

/-- The byte at a position. -/
def load8 (s : Text) (i : Nat) : Nat := (s.getD i 0).toNat

/-- Whether the byte continues a code point. -/
def isUtf8Cont (c : Nat) : Bool := 128 ≤ c && c ≤ 191

/-- The number of bytes of the code point at a position, if it is a valid one. -/
def utf8SeqLen (s : Text) (i n : Nat) : Option Nat :=
  if n ≤ i then none
  else
    let b0 := load8 s i
    if b0 < 128 then some 1
    else if 194 ≤ b0 ∧ b0 ≤ 223 then
      if n ≤ i + 1 then none
      else if !isUtf8Cont (load8 s (i + 1)) then none
      else some 2
    else if 224 ≤ b0 ∧ b0 ≤ 239 then
      if n ≤ i + 2 then none
      else
        let b1 := load8 s (i + 1)
        if !isUtf8Cont b1 || !isUtf8Cont (load8 s (i + 2)) then none
        else if b0 = 224 ∧ b1 < 160 then none
        else if b0 = 237 ∧ 160 ≤ b1 then none
        else some 3
    else if 240 ≤ b0 ∧ b0 ≤ 244 then
      if n ≤ i + 3 then none
      else
        let b1 := load8 s (i + 1)
        let b2 := load8 s (i + 2)
        if !isUtf8Cont b1 || !isUtf8Cont b2 || !isUtf8Cont (load8 s (i + 3)) then none
        else if b0 = 240 ∧ b1 < 144 then none
        else if b0 = 244 ∧ 143 < b1 then none
        else some 4
    else none

/-- The code point of so many bytes at a position. -/
def utf8DecodeAt (s : Text) (i w : Nat) : Nat :=
  let b0 := load8 s i
  let b1 := load8 s (i + 1)
  let b2 := load8 s (i + 2)
  let b3 := load8 s (i + 3)
  match w with
  | 1 => b0
  | 2 => (b0 &&& 31) <<< 6 ||| b1 &&& 63
  | 3 => (b0 &&& 15) <<< 12 ||| (b1 &&& 63) <<< 6 ||| b2 &&& 63
  | 4 => (b0 &&& 7) <<< 18 ||| (b1 &&& 63) <<< 12 ||| (b2 &&& 63) <<< 6 ||| b3 &&& 63
  | _ => 0

theorem utf8SeqLen_pos {s : Text} {i n w : Nat} (found : utf8SeqLen s i n = some w) : 0 < w := by
  unfold utf8SeqLen at found
  grind

/-- The position behind the code point at a position, or behind its byte when it is not valid. -/
def afterPoint (s : Text) (i : Nat) : Nat :=
  match utf8SeqLen s i s.length with
  | none => i + 1
  | some w => i + w

theorem lt_afterPoint (s : Text) (i : Nat) : i < afterPoint s i := by
  unfold afterPoint
  split
  · omega
  · next found => exact Nat.lt_add_of_pos_right (utf8SeqLen_pos found)

/-- Whether the string is valid UTF-8 from a position on. -/
def utf8ValidFrom (s : Text) (i : Nat) : Bool :=
  if i < s.length then
    if (utf8SeqLen s i s.length).isSome then utf8ValidFrom s (afterPoint s i) else false
  else true
termination_by s.length - i
decreasing_by have := lt_afterPoint s i; omega

/-- Whether the string is valid UTF-8. -/
def utf8Valid (s : Text) : Bool := utf8ValidFrom s 0

/-- The number of code points from a position on, with those counted before it. -/
def utf8LenFrom (s : Text) (i count : Nat) : Nat :=
  if i < s.length then utf8LenFrom s (afterPoint s i) (count + 1) else count
termination_by s.length - i
decreasing_by have := lt_afterPoint s i; omega

/-- The number of code points, where an invalid byte counts as one. -/
def utf8Len (s : Text) : Nat := utf8LenFrom s 0 0

/-- The code point at an index, from a position that stands for the code point `pos`. -/
def ordFrom (s : Text) (idx : Int) (i pos : Nat) : Nat :=
  if i < s.length then
    if pos = idx then
      match utf8SeqLen s i s.length with
      | none => load8 s i
      | some w => utf8DecodeAt s i w
    else ordFrom s idx (afterPoint s i) (pos + 1)
  else 0
termination_by s.length - i
decreasing_by have := lt_afterPoint s i; omega

/-- The code point at an index, which counts from the end when it is negative. -/
def ordAt (s : Text) (idx : Int) : Nat :=
  let total := utf8Len s
  let idx := if idx < 0 then total + idx else idx
  if idx < 0 ∨ total ≤ idx then 0 else ordFrom s idx 0 0

/-- The code points at the indices up to a bound, in positive steps. -/
def sliceUp (s : Text) (stop step : Int) (positive : 0 < step) (i : Int) : Text :=
  if i < stop then chr (ordAt s i) ++ sliceUp s stop step positive (i + step) else []
termination_by (stop - i).toNat

/-- The code points at the indices down to a bound, in negative steps. -/
def sliceDown (s : Text) (stop step : Int) (negative : step < 0) (i : Int) : Text :=
  if stop < i then chr (ordAt s i) ++ sliceDown s stop step negative (i + step) else []
termination_by (i - stop).toNat

/-- A slice of the string by code points. -/
def utf8Slice (s : Text) (start stop step : Int) : Text :=
  let step := if step = 0 then 1 else step
  let n : Int := utf8Len s
  let start := if start < 0 then n + start else start
  let stop := if stop < 0 then n + stop else stop
  if positive : 0 < step then
    let start := if start < 0 then 0 else start
    let stop := if n < stop then n else stop
    if stop ≤ start then []
    else if step = 1 ∧ start = 0 ∧ stop = n then s
    else sliceUp s stop step positive start
  else if negative : step < 0 then
    let start := if n ≤ start then n - 1 else start
    let stop := if stop < -1 then -1 else stop
    if start ≤ stop then [] else sliceDown s stop step negative start
  else []

end Nytrix.Str
