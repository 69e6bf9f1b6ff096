import Copper.Foundation.Sampling

/-!
# Random numbers

The range functions of `rand.c`. What the calls of `cpr_rand_u32` or `cpr_rand_u64` return, one after the other, is a list; a
function that would draw past its end returns nothing. An `int32_t` or `int64_t` is its bits.
-/

namespace Copper

/-! ## Words -/

/-- A call of `cpr_rand_bytes` on a variable of `w` bits: what it returns, and the bits it leaves, given those it finds. -/
abbrev RandCall (w : Nat) := BitVec w → Bool × BitVec w

/-- `cpr_rand_u32`. -/
def randU32 (randBytes : RandCall 32) : BitVec 32 :=
  let v := 0
  (randBytes v).2

/-- `cpr_rand_u64`. -/
def randU64 (randBytes : RandCall 64) : BitVec 64 :=
  let v := 0
  (randBytes v).2

/-! ## Range math -/

/-- `cpr__lemireu32_step`: what it stores in `*out`, if it returns true. -/
def lemireu32Step (x width : BitVec 32) : Option (BitVec 32) :=
  let m := x.setWidth 64 * width.setWidth 64
  let low := m.setWidth 32
  if low ≥ width then some ((m >>> 32).setWidth 32)
  else
    let threshold := (0 - width) % width
    if low ≥ threshold then some ((m >>> 32).setWidth 32)
    else none

/-- `cpr__pow2_mask`. -/
def pow2Mask (width : BitVec 64) : BitVec 64 :=
  let mask := width - 1
  let mask := mask ||| mask >>> 1
  let mask := mask ||| mask >>> 2
  let mask := mask ||| mask >>> 4
  let mask := mask ||| mask >>> 8
  let mask := mask ||| mask >>> 16
  mask ||| mask >>> 32

/-! ## Ranges -/

/-- `cpr_randr_u32`, and the draws it leaves. -/
def randrU32 (min max : BitVec 32) (draws : List (BitVec 32)) : Option (BitVec 32 × List (BitVec 32)) :=
  let width := max - min
  if width = BitVec.allOnes 32 then (Sampling.sample some draws).map fun (x, rest) => (min + x, rest)
  else (Sampling.sample (fun x => lemireu32Step x (width + 1)) draws).map fun (out, rest) => (min + out, rest)

/-- `cpr_randr_i32`, and the draws it leaves. -/
def randrI32 (min max : BitVec 32) (draws : List (BitVec 32)) : Option (BitVec 32 × List (BitVec 32)) :=
  let int32Min := BitVec.intMin 32
  (randrU32 (min - int32Min) (max - int32Min) draws).map fun (u, rest) => (u + int32Min, rest)

/-- One step of `cpr_randr_u32`: what it returns for the draw, if it does not draw again. -/
def randrU32Step (min max x : BitVec 32) : Option (BitVec 32) := (randrU32 min max [x]).map Prod.fst

/-- One step of `cpr_randr_i32`. -/
def randrI32Step (min max x : BitVec 32) : Option (BitVec 32) := (randrI32 min max [x]).map Prod.fst

/-- The body of the loop of `cpr_randr_u64`: the number that it takes from a draw, if it does not draw again. -/
def maskedStep (mask width draw : BitVec 64) : Option (BitVec 64) :=
  let x := draw &&& mask
  if x < width then some x else none

/-- `cpr_randr_u64`, and the draws it leaves. -/
def randrU64 (min max : BitVec 64) (draws : List (BitVec 64)) : Option (BitVec 64 × List (BitVec 64)) :=
  let width := max - min
  if width = BitVec.allOnes 64 then (Sampling.sample some draws).map fun (x, rest) => (min + x, rest)
  else
    let width := width + 1
    let mask := pow2Mask width
    (Sampling.sample (maskedStep mask width) draws).map fun (x, rest) => (min + x, rest)

/-- `cpr_randr_i64`, and the draws it leaves. -/
def randrI64 (min max : BitVec 64) (draws : List (BitVec 64)) : Option (BitVec 64 × List (BitVec 64)) :=
  let int64Min := BitVec.intMin 64
  (randrU64 (min - int64Min) (max - int64Min) draws).map fun (u, rest) => (u + int64Min, rest)

/-- One step of `cpr_randr_u64`. -/
def randrU64Step (min max x : BitVec 64) : Option (BitVec 64) := (randrU64 min max [x]).map Prod.fst

/-- One step of `cpr_randr_i64`. -/
def randrI64Step (min max x : BitVec 64) : Option (BitVec 64) := (randrI64 min max [x]).map Prod.fst

end Copper
