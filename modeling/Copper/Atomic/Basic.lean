import Copper.Defs

/-!
# The atomic integers (`atomic.c`)

A value of either signedness is its bits, and a cast between types of the same width (`long` has 32 bits where the second
branch is compiled) keeps them. Every operation has three branches, chosen when the library is built. A branch is `none` where
it evaluates a signed expression whose result its type cannot hold. The four types have the same operations, so each operation
is one definition over the width, and each source function is that definition at its own width.
-/

namespace Copper

/-- `CPR_HAS_GCC_ATOMICS`, `CPR_HAS_MSVC_ATOMICS`, or neither. -/
inductive AtomicBackend where
  | gcc
  | msvc
  | mutex
  deriving DecidableEq, Repr

variable {w : Nat}

/-! ## Signed expressions -/

/-- `-x` in a signed type. -/
def signedNeg (x : BitVec w) : Option (BitVec w) := if x.negOverflow then none else some (-x)

/-- `x + y` in a type of either signedness. -/
def plus (signed : Bool) (x y : BitVec w) : Option (BitVec w) :=
  if signed && x.saddOverflow y then none else some (x + y)

/-- `x - y` in a type of either signedness. -/
def minus (signed : Bool) (x y : BitVec w) : Option (BitVec w) :=
  if signed && x.ssubOverflow y then none else some (x - y)

/-! ## Builtins and intrinsics: what they return, and the value they leave -/

/-- `__atomic_fetch_xxx`. -/
def atomicFetch (f : BitVec w → BitVec w → BitVec w) (dest value : BitVec w) : BitVec w × BitVec w := (dest, f dest value)

/-- `__atomic_compare_exchange_n`: also what it leaves in `*expected`. -/
def atomicCompareExchange (dest expected desired : BitVec w) : (Bool × BitVec w) × BitVec w :=
  if dest = expected then ((true, expected), desired) else ((false, dest), dest)

/-- `_InterlockedExchange`, `_InterlockedExchange64`. -/
def interlockedExchange (dest value : BitVec w) : BitVec w × BitVec w := (dest, value)

/-- `_InterlockedCompareExchange`, `_InterlockedCompareExchange64`. -/
def interlockedCompareExchange (dest exchange comparand : BitVec w) : BitVec w × BitVec w :=
  (dest, if dest = comparand then exchange else dest)

/-- `_InterlockedExchangeAdd`, `_InterlockedExchangeAdd64`. -/
def interlockedExchangeAdd (dest value : BitVec w) : BitVec w × BitVec w := (dest, dest + value)

/-- `_InterlockedAnd`, `_InterlockedAnd64`. -/
def interlockedAnd (dest value : BitVec w) : BitVec w × BitVec w := (dest, dest &&& value)

/-- `_InterlockedOr`, `_InterlockedOr64`. -/
def interlockedOr (dest value : BitVec w) : BitVec w × BitVec w := (dest, dest ||| value)

/-- `_InterlockedXor`, `_InterlockedXor64`. -/
def interlockedXor (dest value : BitVec w) : BitVec w × BitVec w := (dest, dest ^^^ value)

/-! ## The operations, for every width: what they return, and the value they leave -/

/-- `cpr_atomicxx_load`. -/
def atomicLoad (b : AtomicBackend) (i : BitVec w) : BitVec w × BitVec w :=
  match b with
  | .gcc => (i, i)
  | .msvc => interlockedOr i 0
  | .mutex => (i, i)

/-- `cpr_atomicxx_store`. -/
def atomicStore (b : AtomicBackend) (i value : BitVec w) : BitVec w :=
  match b with
  | .gcc => value
  | .msvc => (interlockedExchange i value).2
  | .mutex => value

/-- `cpr_atomicxx_exchange`. -/
def atomicExchange (b : AtomicBackend) (i value : BitVec w) : BitVec w × BitVec w :=
  match b with
  | .gcc => (i, value)
  | .msvc => interlockedExchange i value
  | .mutex =>
    let prev := i
    (prev, value)

/-- `cpr_atomicxx_compare_exchange`: also what it leaves in `*expected`. -/
def compareExchange (b : AtomicBackend) (i expected desired : BitVec w) : (Bool × BitVec w) × BitVec w :=
  match b with
  | .gcc => atomicCompareExchange i expected desired
  | .msvc =>
    let (prev, left) := interlockedCompareExchange i desired expected
    if prev = expected then ((true, expected), left) else ((false, prev), left)
  | .mutex =>
    let actual := i
    if actual = expected then ((true, expected), desired) else ((false, actual), i)

/-- `cpr_atomicxx_fetch_add`. -/
def fetchAdd (b : AtomicBackend) (signed : Bool) (i value : BitVec w) : Option (BitVec w × BitVec w) :=
  match b with
  | .gcc => some (atomicFetch (· + ·) i value)
  | .msvc => some (interlockedExchangeAdd i value)
  | .mutex => (plus signed i value).map fun sum => (i, sum)

/-- `cpr_atomicxx_fetch_sub`: the second branch negates in `long` or `int64_t`, whatever the type. -/
def fetchSub (b : AtomicBackend) (signed : Bool) (i value : BitVec w) : Option (BitVec w × BitVec w) :=
  match b with
  | .gcc => some (atomicFetch (· - ·) i value)
  | .msvc => (signedNeg value).map (interlockedExchangeAdd i)
  | .mutex => (minus signed i value).map fun difference => (i, difference)

/-- `cpr_atomicxx_fetch_and`. -/
def fetchAnd (b : AtomicBackend) (i value : BitVec w) : BitVec w × BitVec w :=
  match b with
  | .gcc => atomicFetch (· &&& ·) i value
  | .msvc => interlockedAnd i value
  | .mutex => (i, i &&& value)

/-- `cpr_atomicxx_fetch_or`. -/
def fetchOr (b : AtomicBackend) (i value : BitVec w) : BitVec w × BitVec w :=
  match b with
  | .gcc => atomicFetch (· ||| ·) i value
  | .msvc => interlockedOr i value
  | .mutex => (i, i ||| value)

/-- `cpr_atomicxx_fetch_xor`. -/
def fetchXor (b : AtomicBackend) (i value : BitVec w) : BitVec w × BitVec w :=
  match b with
  | .gcc => atomicFetch (· ^^^ ·) i value
  | .msvc => interlockedXor i value
  | .mutex => (i, i ^^^ value)

/-! ## `CprAtomicI32` -/

def atomici32Load (b : AtomicBackend) (i : BitVec 32) := atomicLoad b i
def atomici32Store (b : AtomicBackend) (i value : BitVec 32) := atomicStore b i value
def atomici32Exchange (b : AtomicBackend) (i value : BitVec 32) := atomicExchange b i value
def atomici32CompareExchange (b : AtomicBackend) (i expected desired : BitVec 32) := compareExchange b i expected desired
def atomici32FetchAdd (b : AtomicBackend) (i value : BitVec 32) := fetchAdd b true i value
def atomici32FetchSub (b : AtomicBackend) (i value : BitVec 32) := fetchSub b true i value
def atomici32FetchAnd (b : AtomicBackend) (i value : BitVec 32) := fetchAnd b i value
def atomici32FetchOr (b : AtomicBackend) (i value : BitVec 32) := fetchOr b i value
def atomici32FetchXor (b : AtomicBackend) (i value : BitVec 32) := fetchXor b i value

/-! ## `CprAtomicU32` -/

def atomicu32Load (b : AtomicBackend) (i : BitVec 32) := atomicLoad b i
def atomicu32Store (b : AtomicBackend) (i value : BitVec 32) := atomicStore b i value
def atomicu32Exchange (b : AtomicBackend) (i value : BitVec 32) := atomicExchange b i value
def atomicu32CompareExchange (b : AtomicBackend) (i expected desired : BitVec 32) := compareExchange b i expected desired
def atomicu32FetchAdd (b : AtomicBackend) (i value : BitVec 32) := fetchAdd b false i value
def atomicu32FetchSub (b : AtomicBackend) (i value : BitVec 32) := fetchSub b false i value
def atomicu32FetchAnd (b : AtomicBackend) (i value : BitVec 32) := fetchAnd b i value
def atomicu32FetchOr (b : AtomicBackend) (i value : BitVec 32) := fetchOr b i value
def atomicu32FetchXor (b : AtomicBackend) (i value : BitVec 32) := fetchXor b i value

/-! ## `CprAtomicI64` -/

def atomici64Load (b : AtomicBackend) (i : BitVec 64) := atomicLoad b i
def atomici64Store (b : AtomicBackend) (i value : BitVec 64) := atomicStore b i value
def atomici64Exchange (b : AtomicBackend) (i value : BitVec 64) := atomicExchange b i value
def atomici64CompareExchange (b : AtomicBackend) (i expected desired : BitVec 64) := compareExchange b i expected desired
def atomici64FetchAdd (b : AtomicBackend) (i value : BitVec 64) := fetchAdd b true i value
def atomici64FetchSub (b : AtomicBackend) (i value : BitVec 64) := fetchSub b true i value
def atomici64FetchAnd (b : AtomicBackend) (i value : BitVec 64) := fetchAnd b i value
def atomici64FetchOr (b : AtomicBackend) (i value : BitVec 64) := fetchOr b i value
def atomici64FetchXor (b : AtomicBackend) (i value : BitVec 64) := fetchXor b i value

/-! ## `CprAtomicU64` -/

def atomicu64Load (b : AtomicBackend) (i : BitVec 64) := atomicLoad b i
def atomicu64Store (b : AtomicBackend) (i value : BitVec 64) := atomicStore b i value
def atomicu64Exchange (b : AtomicBackend) (i value : BitVec 64) := atomicExchange b i value
def atomicu64CompareExchange (b : AtomicBackend) (i expected desired : BitVec 64) := compareExchange b i expected desired
def atomicu64FetchAdd (b : AtomicBackend) (i value : BitVec 64) := fetchAdd b false i value
def atomicu64FetchSub (b : AtomicBackend) (i value : BitVec 64) := fetchSub b false i value
def atomicu64FetchAnd (b : AtomicBackend) (i value : BitVec 64) := fetchAnd b i value
def atomicu64FetchOr (b : AtomicBackend) (i value : BitVec 64) := fetchOr b i value
def atomicu64FetchXor (b : AtomicBackend) (i value : BitVec 64) := fetchXor b i value

end Copper
