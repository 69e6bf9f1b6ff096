import Copper.Atomic.Basic

/-!
# The branches of the atomics agree, up to signed overflow

`AtomicOp.apply` says what an operation does: arithmetic modulo `2 ^ w`, the old value returned. The first branch does that
always, the others wherever they evaluate no signed expression whose result does not fit: the second negates the operand of a
subtraction, and the third adds and subtracts in the type itself.
-/

namespace Copper

/-- The types of atomic integers. -/
inductive AtomicType where
  | i32
  | u32
  | i64
  | u64
  deriving DecidableEq, Repr

namespace AtomicType

def bits : AtomicType → Nat
  | i32 => 32
  | u32 => 32
  | i64 => 64
  | u64 => 64

def signed : AtomicType → Bool
  | i32 => true
  | u32 => false
  | i64 => true
  | u64 => false

end AtomicType

/-- A call on an atomic of `w` bits, with its operands. -/
inductive AtomicOp (w : Nat) where
  | load
  | store (value : BitVec w)
  | exchange (value : BitVec w)
  | compareExchange (expected desired : BitVec w)
  | fetchAdd (value : BitVec w)
  | fetchSub (value : BitVec w)
  | fetchAnd (value : BitVec w)
  | fetchOr (value : BitVec w)
  | fetchXor (value : BitVec w)
  deriving DecidableEq, Repr

/-- What a call returns; a compare-exchange also leaves a value in `*expected`. -/
inductive AtomicReply (w : Nat) where
  | none
  | value (v : BitVec w)
  | swapped (ok : Bool) (expected : BitVec w)
  deriving DecidableEq, Repr

variable {w : Nat}

/-- What an operation is to return, and the value it is to leave. -/
def AtomicOp.apply (stored : BitVec w) : AtomicOp w → AtomicReply w × BitVec w
  | load => (.value stored, stored)
  | store v => (.none, v)
  | exchange v => (.value stored, v)
  | compareExchange expected desired =>
    if stored = expected then (.swapped true expected, desired) else (.swapped false stored, stored)
  | fetchAdd v => (.value stored, stored + v)
  | fetchSub v => (.value stored, stored - v)
  | fetchAnd v => (.value stored, stored &&& v)
  | fetchOr v => (.value stored, stored ||| v)
  | fetchXor v => (.value stored, stored ^^^ v)

/-- A call that returns a value. -/
def replyValue (r : BitVec w × BitVec w) : AtomicReply w × BitVec w := (.value r.1, r.2)

/-- A compare-exchange. -/
def replySwapped (r : (Bool × BitVec w) × BitVec w) : AtomicReply w × BitVec w := (.swapped r.1.1 r.1.2, r.2)

/-- The source function of a type that a call is to, applied to the stored value; `none` when it overflows. -/
def atomicCall (b : AtomicBackend) :
    (ty : AtomicType) → BitVec ty.bits → AtomicOp ty.bits → Option (AtomicReply ty.bits × BitVec ty.bits)
  | .i32, i, .load => some (replyValue (atomici32Load b i))
  | .i32, i, .store v => some (.none, atomici32Store b i v)
  | .i32, i, .exchange v => some (replyValue (atomici32Exchange b i v))
  | .i32, i, .compareExchange e d => some (replySwapped (atomici32CompareExchange b i e d))
  | .i32, i, .fetchAdd v => (atomici32FetchAdd b i v).map replyValue
  | .i32, i, .fetchSub v => (atomici32FetchSub b i v).map replyValue
  | .i32, i, .fetchAnd v => some (replyValue (atomici32FetchAnd b i v))
  | .i32, i, .fetchOr v => some (replyValue (atomici32FetchOr b i v))
  | .i32, i, .fetchXor v => some (replyValue (atomici32FetchXor b i v))
  | .u32, i, .load => some (replyValue (atomicu32Load b i))
  | .u32, i, .store v => some (.none, atomicu32Store b i v)
  | .u32, i, .exchange v => some (replyValue (atomicu32Exchange b i v))
  | .u32, i, .compareExchange e d => some (replySwapped (atomicu32CompareExchange b i e d))
  | .u32, i, .fetchAdd v => (atomicu32FetchAdd b i v).map replyValue
  | .u32, i, .fetchSub v => (atomicu32FetchSub b i v).map replyValue
  | .u32, i, .fetchAnd v => some (replyValue (atomicu32FetchAnd b i v))
  | .u32, i, .fetchOr v => some (replyValue (atomicu32FetchOr b i v))
  | .u32, i, .fetchXor v => some (replyValue (atomicu32FetchXor b i v))
  | .i64, i, .load => some (replyValue (atomici64Load b i))
  | .i64, i, .store v => some (.none, atomici64Store b i v)
  | .i64, i, .exchange v => some (replyValue (atomici64Exchange b i v))
  | .i64, i, .compareExchange e d => some (replySwapped (atomici64CompareExchange b i e d))
  | .i64, i, .fetchAdd v => (atomici64FetchAdd b i v).map replyValue
  | .i64, i, .fetchSub v => (atomici64FetchSub b i v).map replyValue
  | .i64, i, .fetchAnd v => some (replyValue (atomici64FetchAnd b i v))
  | .i64, i, .fetchOr v => some (replyValue (atomici64FetchOr b i v))
  | .i64, i, .fetchXor v => some (replyValue (atomici64FetchXor b i v))
  | .u64, i, .load => some (replyValue (atomicu64Load b i))
  | .u64, i, .store v => some (.none, atomicu64Store b i v)
  | .u64, i, .exchange v => some (replyValue (atomicu64Exchange b i v))
  | .u64, i, .compareExchange e d => some (replySwapped (atomicu64CompareExchange b i e d))
  | .u64, i, .fetchAdd v => (atomicu64FetchAdd b i v).map replyValue
  | .u64, i, .fetchSub v => (atomicu64FetchSub b i v).map replyValue
  | .u64, i, .fetchAnd v => some (replyValue (atomicu64FetchAnd b i v))
  | .u64, i, .fetchOr v => some (replyValue (atomicu64FetchOr b i v))
  | .u64, i, .fetchXor v => some (replyValue (atomicu64FetchXor b i v))

/-- The operation, whatever the type: one width, one signedness. -/
def backendApply (b : AtomicBackend) (signed : Bool) (i : BitVec w) : AtomicOp w → Option (AtomicReply w × BitVec w)
  | .load => some (replyValue (atomicLoad b i))
  | .store v => some (.none, atomicStore b i v)
  | .exchange v => some (replyValue (atomicExchange b i v))
  | .compareExchange e d => some (replySwapped (compareExchange b i e d))
  | .fetchAdd v => (fetchAdd b signed i v).map replyValue
  | .fetchSub v => (fetchSub b signed i v).map replyValue
  | .fetchAnd v => some (replyValue (fetchAnd b i v))
  | .fetchOr v => some (replyValue (fetchOr b i v))
  | .fetchXor v => some (replyValue (fetchXor b i v))

/-- The functions of the four types are the same operations. -/
theorem atomicCall_eq (b : AtomicBackend) (ty : AtomicType) (i : BitVec ty.bits) (op : AtomicOp ty.bits) :
    atomicCall b ty i op = backendApply b ty.signed i op := by
  cases ty <;> cases op <;> rfl

/-- No signed expression that the branch evaluates is out of range: a subtraction in the second branch negates its operand,
and the third adds and subtracts in the type of the value. -/
def InRange (b : AtomicBackend) (signed : Bool) (stored : BitVec w) : AtomicOp w → Prop
  | .fetchAdd v => b = .mutex → signed = true → stored.saddOverflow v = false
  | .fetchSub v =>
    (b = .msvc → v.negOverflow = false) ∧ (b = .mutex → signed = true → stored.ssubOverflow v = false)
  | _ => True

instance (b : AtomicBackend) (signed : Bool) (stored : BitVec w) (op : AtomicOp w) : Decidable (InRange b signed stored op) := by
  cases op <;> unfold InRange <;> infer_instance

/-! ## Each operation -/

/-- Every branch compares and exchanges as the operation says. -/
theorem compareExchange_eq (b : AtomicBackend) (i e d : BitVec w) :
    replySwapped (compareExchange b i e d) = AtomicOp.apply i (.compareExchange e d) := by
  rw [AtomicOp.apply]
  by_cases h : i = e
  · rw [if_pos h]
    cases b <;> simp [compareExchange, atomicCompareExchange, interlockedCompareExchange, replySwapped, h]
  · rw [if_neg h]
    cases b <;> simp [compareExchange, atomicCompareExchange, interlockedCompareExchange, replySwapped, h]

/-- A branch adds as the operation says exactly in its range. -/
theorem fetchAdd_eq_iff (b : AtomicBackend) (signed : Bool) (i v : BitVec w) :
    (fetchAdd b signed i v).map replyValue = some (AtomicOp.apply i (.fetchAdd v)) ↔ InRange b signed i (.fetchAdd v) := by
  cases b with
  | gcc => simp [fetchAdd, atomicFetch, replyValue, AtomicOp.apply, InRange]
  | msvc => simp [fetchAdd, interlockedExchangeAdd, replyValue, AtomicOp.apply, InRange]
  | mutex =>
    cases signed with
    | false => simp [fetchAdd, plus, replyValue, AtomicOp.apply, InRange]
    | true =>
      cases h : i.saddOverflow v with
      | false => simp [fetchAdd, plus, replyValue, AtomicOp.apply, InRange, h]
      | true => simp [fetchAdd, plus, InRange, h]

/-- And subtracts. -/
theorem fetchSub_eq_iff (b : AtomicBackend) (signed : Bool) (i v : BitVec w) :
    (fetchSub b signed i v).map replyValue = some (AtomicOp.apply i (.fetchSub v)) ↔ InRange b signed i (.fetchSub v) := by
  cases b with
  | gcc => simp [fetchSub, atomicFetch, replyValue, AtomicOp.apply, InRange]
  | msvc =>
    cases h : v.negOverflow with
    | false =>
      -- adding what the negation gives is subtracting
      simp [fetchSub, signedNeg, interlockedExchangeAdd, replyValue, AtomicOp.apply, InRange, h, BitVec.sub_eq_add_neg]
    | true => simp [fetchSub, signedNeg, InRange, h]
  | mutex =>
    cases signed with
    | false => simp [fetchSub, minus, replyValue, AtomicOp.apply, InRange]
    | true =>
      cases h : i.ssubOverflow v with
      | false => simp [fetchSub, minus, replyValue, AtomicOp.apply, InRange, h]
      | true => simp [fetchSub, minus, InRange, h]

/-- A branch does what the operation is to do exactly when it evaluates nothing out of range. -/
theorem backendApply_eq_iff (b : AtomicBackend) (signed : Bool) (i : BitVec w) (op : AtomicOp w) :
    backendApply b signed i op = some (op.apply i) ↔ InRange b signed i op := by
  cases op with
  | load => cases b <;> simp [backendApply, atomicLoad, interlockedOr, replyValue, AtomicOp.apply, InRange]
  | store v => cases b <;> simp [backendApply, atomicStore, interlockedExchange, AtomicOp.apply, InRange]
  | exchange v =>
    cases b <;> simp [backendApply, atomicExchange, interlockedExchange, replyValue, AtomicOp.apply, InRange]
  | compareExchange e d => simp [backendApply, compareExchange_eq, InRange]
  | fetchAdd v => exact fetchAdd_eq_iff b signed i v
  | fetchSub v => exact fetchSub_eq_iff b signed i v
  | fetchAnd v => cases b <;> simp [backendApply, fetchAnd, atomicFetch, interlockedAnd, replyValue, AtomicOp.apply, InRange]
  | fetchOr v => cases b <;> simp [backendApply, fetchOr, atomicFetch, interlockedOr, replyValue, AtomicOp.apply, InRange]
  | fetchXor v => cases b <;> simp [backendApply, fetchXor, atomicFetch, interlockedXor, replyValue, AtomicOp.apply, InRange]

/-! ## The branches agree -/

/-- For every type, stored value and operation, the branch over the compiler's builtins does what the operation is to do, and
another branch does the same, without evaluating a signed expression that is out of range, exactly when `InRange` says so. -/
theorem atomic_branches_agree_iff (b : AtomicBackend) (ty : AtomicType) (stored : BitVec ty.bits) (op : AtomicOp ty.bits) :
    atomicCall .gcc ty stored op = some (op.apply stored) ∧
      (atomicCall b ty stored op = atomicCall .gcc ty stored op ↔ InRange b ty.signed stored op) := by
  have hgcc : atomicCall .gcc ty stored op = some (op.apply stored) := by
    rw [atomicCall_eq]
    refine (backendApply_eq_iff .gcc ty.signed stored op).mpr ?_
    cases op <;> simp [InRange]
  refine ⟨hgcc, ?_⟩
  rw [hgcc, atomicCall_eq]
  exact backendApply_eq_iff b ty.signed stored op

/-- One more than the greatest `int32_t`, one less than the least `int64_t`, and an operand that `long` cannot negate. -/
theorem atomic_branches_differ :
    atomicCall .mutex .i32 (BitVec.intMax 32) (.fetchAdd 1) = none ∧
      atomicCall .gcc .i32 (BitVec.intMax 32) (.fetchAdd 1) = some (.value (BitVec.intMax 32), BitVec.intMin 32) ∧
      atomicCall .mutex .i64 (BitVec.intMin 64) (.fetchSub 1) = none ∧
      atomicCall .gcc .i64 (BitVec.intMin 64) (.fetchSub 1) = some (.value (BitVec.intMin 64), BitVec.intMax 64) ∧
      atomicCall .msvc .u32 0 (.fetchSub (BitVec.intMin 32)) = none ∧
      atomicCall .gcc .u32 0 (.fetchSub (BitVec.intMin 32)) = some (.value 0, BitVec.intMin 32) :=
  ⟨by decide, rfl, by decide, rfl, by decide, rfl⟩

end Copper
