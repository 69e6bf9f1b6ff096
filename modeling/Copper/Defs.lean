import Mathlib.Algebra.Group.Nat.Defs

/-!
# What every module of the library shares

Names follow the source with its `cpr` prefix read as this namespace: `cpr_ringbuf_write` is `ringbufWrite`, the internal
`cpr__align_up` is `alignUp`. Here are the platform switch of `defs.h`, the codes of `result.h`, the error record of
`error.h`, and the shape of a call (`Outcome`): what it returns, the state it leaves, and what it put into the thread-local
error.
-/

namespace Copper

/-- `CPR_32BIT` or `CPR_64BIT`: the width of a pointer, and of `size_t`. -/
inductive PtrWidth where
  | w32
  | w64
  deriving DecidableEq, Repr

def PtrWidth.bits : PtrWidth → Nat
  | .w32 => 32
  | .w64 => 64

/-- Whatever the platform, a `uint32_t` fits in a `size_t`. -/
theorem PtrWidth.range_le (p : PtrWidth) : 2 ^ 32 ≤ 2 ^ p.bits := by
  cases p <;> decide

/-- The codes of `CPR_RESULT_TABLE`. -/
inductive CprResult where
  | ok
  | errOom
  | errInvalid
  | errOverflow
  | errNotFound
  | errIo
  | errExhausted
  | errAlign
  | errBusy
  | errSync
  deriving DecidableEq, Repr

/-- `cpr_err`. -/
def CprResult.err (r : CprResult) : Bool := r ≠ .ok

/-- The thread-local error record. -/
structure CprError where
  code : CprResult
  message : String
  deriving DecidableEq, Repr

/-- What a call does: the value it returns, the state it leaves, and the error its last `cpr__set_error` recorded, if it
made one. -/
structure Outcome (σ : Type) (α : Type) where
  result : α
  state : σ
  error : Option CprError := none

/-- A call that leaves through an error exit: it records the error, and leaves the state it is given. -/
def Outcome.fail {σ α : Type} (state : σ) (result : α) (code : CprResult) (message : String) : Outcome σ α where
  result := result
  state := state
  error := some ⟨code, message⟩

/-- A `(const void *data, size_t data_size)` pair: a NULL pointer with some size, or a buffer and its size. -/
inductive DataArg where
  | null (size : Nat)
  | bytes (data : List UInt8)
  deriving DecidableEq, Repr

namespace DataArg

def size : DataArg → Nat
  | null n => n
  | bytes data => data.length

/-- The bytes that can be read through the pointer. -/
def toList : DataArg → List UInt8
  | null _ => []
  | bytes data => data

/-- `!data && data_size > 0`. -/
def missing : DataArg → Bool
  | null n => 0 < n
  | bytes _ => false

/-- A pair that is not rejected has as many bytes as it says. -/
theorem length_toList {d : DataArg} (h : d.missing = false) : d.toList.length = d.size := by
  cases d with
  | null n =>
    have hn : n = 0 := by simpa [missing] using h
    simp [toList, size, hn]
  | bytes data => rfl

end DataArg

/-- A `(void *out, size_t out_size)` pair: a NULL pointer with some size, or room for that many bytes. -/
inductive OutArg where
  | null (size : Nat)
  | room (size : Nat)
  deriving DecidableEq, Repr

namespace OutArg

def size : OutArg → Nat
  | null n => n
  | room n => n

/-- `!out && out_size > 0`. -/
def missing : OutArg → Bool
  | null n => 0 < n
  | room _ => false

end OutArg

end Copper
