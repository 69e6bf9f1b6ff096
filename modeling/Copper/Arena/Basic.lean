import Copper.Defs
import Copper.Foundation.Transition

/-!
# The arena

`arena.c`, function by function. Addresses, sizes and offsets are words of the platform's width `w`, and every sum and
difference wraps as `size_t` and `uintptr_t` do. A pointer is its address, and the address zero is NULL.
-/

namespace Copper

variable {w : Nat}

/-- `CprArenaAllocator`. The functions have their `user_data` bound; of `free` only its presence matters here. -/
structure ArenaAllocator (w : Nat) where
  alloc : Option (BitVec w → BitVec w)
  free : Bool

/-- `cpr_arena_alloc_default`, over the `malloc` of the C library. -/
def arenaAllocDefault (malloc : BitVec w → BitVec w) : ArenaAllocator w where
  alloc := some malloc
  free := true

/-- `CprArena`. -/
structure Arena (w : Nat) where
  buf : BitVec w
  cap : BitVec w
  offset : BitVec w
  prevOffset : BitVec w
  allocator : ArenaAllocator w

/-! ## Alignment helpers -/

/-- `cpr__align_up`. -/
def alignUp (offset alignment : BitVec w) : BitVec w := (offset + (alignment - 1)) &&& ~~~(alignment - 1)

/-- `cpr__is_pow2`. -/
def isPow2 (v : BitVec w) : Bool := v ≠ 0 ∧ v &&& (v - 1) = 0

/-! ## Initializers -/

/-- `cpr_arena_init`. -/
def arenaInit (arenaNull : Bool) (allocator : ArenaAllocator w) (capacity : BitVec w) : Outcome (Option (Arena w)) Bool :=
  match allocator.alloc with
  | none => .fail none false .errInvalid "invalid arguments"
  | some alloc =>
    if arenaNull ∨ capacity = 0 then
      .fail none false .errInvalid "invalid arguments"
    else
      let buf := alloc capacity
      if buf = 0 then
        .fail none false .errOom "out of memory"
      else
        { result := true
          state := some { buf := buf, cap := capacity, offset := 0, prevOffset := 0, allocator := allocator } }

/-- `cpr_arena_init_buf`. -/
def arenaInitBuf (arenaNull : Bool) (buf size : BitVec w) : Outcome (Option (Arena w)) Bool :=
  if arenaNull ∨ buf = 0 ∨ size = 0 then
    .fail none false .errInvalid "invalid arguments"
  else
    { result := true
      state := some { buf := buf, cap := size, offset := 0, prevOffset := 0, allocator := ⟨none, false⟩ } }

/-! ## Allocation -/

/-- `cpr_arena_alloc_aligned` after its check for NULL. -/
def Arena.allocAligned (a : Arena w) (size alignment : BitVec w) : Outcome (Arena w) (BitVec w) :=
  if !isPow2 alignment then
    .fail a 0 .errAlign "alignment must be a non-zero power of two"
  else
    let base := a.buf
    let alignedOffset := alignUp (base + a.offset) alignment - base
    if a.cap - alignedOffset < size then
      .fail a 0 .errExhausted "arena exhausted"
    else
      { result := a.buf + alignedOffset
        state := { a with prevOffset := a.offset, offset := alignedOffset + size } }

/-- `cpr_arena_alloc_aligned`. -/
def arenaAllocAligned (arena : Option (Arena w)) (size alignment : BitVec w) : Outcome (Option (Arena w)) (BitVec w) :=
  match arena with
  | none => .fail none 0 .errInvalid "invalid arguments"
  | some a =>
    let o := a.allocAligned size alignment
    { result := o.result, state := some o.state, error := o.error }

/-- `cpr_arena_alloc`; `defaultAlignment` is `CPR_DEFAULT_ALIGNMENT`, the size of `CprMaxAlign` on the platform. -/
def arenaAlloc (defaultAlignment : BitVec w) (arena : Option (Arena w)) (size : BitVec w) :
    Outcome (Option (Arena w)) (BitVec w) :=
  arenaAllocAligned arena size defaultAlignment

/-- `cpr_arena_reset`. -/
def arenaReset (arena : Option (Arena w)) : Option (Arena w) :=
  arena.map fun a => { a with offset := 0, prevOffset := 0 }

/-- `cpr_arena_rewind`. -/
def arenaRewind (arena : Option (Arena w)) : Option (Arena w) :=
  arena.map fun a => { a with offset := a.prevOffset }

/-- `cpr_arena_free`: the buffer it hands back to the allocator, if it does, and the zeroed arena. -/
def arenaFree (arena : Option (Arena w)) : Option (BitVec w) × Option (Arena w) :=
  match arena with
  | none => (none, none)
  | some a =>
    (if a.allocator.free then some a.buf else none,
      some { buf := 0, cap := 0, offset := 0, prevOffset := 0, allocator := ⟨none, false⟩ })

/-! ## Runs -/

/-- A call on an arena that has been initialised. -/
inductive ArenaOp (w : Nat) where
  | alloc (size : BitVec w)
  | allocAligned (size alignment : BitVec w)
  | rewind
  | reset
  deriving DecidableEq, Repr

/-- What the caller of an allocation was given: an address, and the size and alignment asked for. -/
structure Block where
  start : Nat
  size : Nat
  alignment : Nat
  deriving DecidableEq, Repr

/-- An arena and the history no function reads: the allocations still live, the latest first, and whether a rewind would undo
the latest (none has been undone since). -/
structure ArenaRun (w : Nat) where
  arena : Arena w
  live : List Block
  undoable : Bool

/-- The history of an allocation: a pointer that is not NULL is live. A call that fails changes nothing; one that moved the bump
pointer and returned NULL has nothing a rewind could undo. -/
def ArenaRun.granted (s : ArenaRun w) (size alignment : BitVec w) (o : Outcome (Option (Arena w)) (BitVec w)) :
    Option (ArenaRun w) :=
  o.state.map fun arena =>
    if o.result ≠ 0 then
      { arena := arena, live := ⟨o.result.toNat, size.toNat, alignment.toNat⟩ :: s.live, undoable := true }
    else
      { arena := arena, live := s.live, undoable := s.undoable && o.error.isSome }

/-- A call, and its effect on the history. -/
def arenaNext (defaultAlignment : BitVec w) (s : ArenaRun w) : ArenaOp w → Option (ArenaRun w)
  | .alloc size => s.granted size defaultAlignment (arenaAlloc defaultAlignment (some s.arena) size)
  | .allocAligned size alignment => s.granted size alignment (arenaAllocAligned (some s.arena) size alignment)
  | .rewind =>
    (arenaRewind (some s.arena)).map fun arena =>
      { arena := arena, live := if s.undoable then s.live.tail else s.live, undoable := false }
  | .reset => (arenaReset (some s.arena)).map fun arena => { arena := arena, live := [], undoable := false }

/-- An arena that an initializer has accepted, over a region that ends before the end of the address space. -/
def ArenaRun.Initial (s : ArenaRun w) : Prop :=
  ((∃ allocator capacity, (arenaInit false allocator capacity).state = some s.arena) ∨
      ∃ buf size, (arenaInitBuf false buf size).state = some s.arena) ∧
    s.arena.buf.toNat + s.arena.cap.toNat < 2 ^ w ∧ s.live = [] ∧ s.undoable = false

/-- Every sequence of calls on an arena. -/
def arenaCalls (defaultAlignment : BitVec w) : Transition.System (ArenaRun w) (ArenaOp w) :=
  .ofNext ArenaRun.Initial (arenaNext defaultAlignment)

end Copper
