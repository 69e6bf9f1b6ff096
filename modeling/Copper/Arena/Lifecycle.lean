import Copper.Arena.Soundness
import Copper.Foundation.Owned

/-!
# Many arenas over one allocator

The arenas of a program, each over a block of an allocator or over a buffer that the program lends it, initialised, used and freed in
any order. Every block of the allocator is the buffer of one arena, or was abandoned: its arena was initialised again, or freed
without a function to free it. So nothing is freed that is not allocated, and as the blocks are apart, so are the allocations of all
the arenas (`arenas_sound`).
-/

namespace Copper

open Ledger

variable {ι : Type} {w : Nat}

/-- A zeroed arena: one not yet initialised, or freed. -/
def ArenaRun.zeroed : ArenaRun w where
  arena := { buf := 0, cap := 0, offset := 0, prevOffset := 0, allocator := ⟨none, false⟩ }
  live := []
  undoable := false

/-- The addresses of a region. -/
def regionBytes (start size : BitVec w) : Set Nat := Set.Ico start.toNat (start.toNat + size.toNat)

namespace ArenaRun

variable (r : ArenaRun w)

/-- The block of the allocator that an arena is over. -/
def block : Option (BitVec w × BitVec w) :=
  if r.arena.allocator.alloc.isSome then some (r.arena.buf, r.arena.cap) else none

/-- The buffer that an arena was lent. -/
def lent : Option (BitVec w × BitVec w) :=
  if r.arena.allocator.alloc.isNone ∧ r.arena.buf ≠ 0 then some (r.arena.buf, r.arena.cap) else none

end ArenaRun

/-- The arenas, the sizes of the blocks that the allocator has given out and that no arena is over any more, and whether anything was
freed that was not allocated. -/
structure ArenasState (ι : Type) (w : Nat) where
  arenas : ι → ArenaRun w
  heap : BitVec w → Option (BitVec w)
  abandoned : BitVec w → Option (BitVec w)
  fault : Bool

/-- A call on one of the arenas. -/
inductive ArenasCall (ι : Type) (w : Nat) where
  | init (i : ι) (allocator : ArenaAllocator w) (capacity : BitVec w)
  | initBuf (i : ι) (buf size : BitVec w)
  | call (i : ι) (op : ArenaOp w)
  | free (i : ι)

namespace ArenasState

variable [DecidableEq ι] (s : ArenasState ι w)

def start : ArenasState ι w := ⟨fun _ => .zeroed, fun _ => none, fun _ => none, false⟩

def write (i : ι) (r : ArenaRun w) : ArenasState ι w := { s with arenas := Function.update s.arenas i r }

/-- An arena is given up, and its block is nobody's. -/
def clear (i : ι) : ArenasState ι w :=
  { s with
    arenas := Function.update s.arenas i .zeroed
    abandoned :=
      match (s.arenas i).block with
      | some (p, c) => Function.update s.abandoned p (some c)
      | none => s.abandoned }

/-- The arena that was written. -/
@[simp] theorem write_self (i : ι) (r : ArenaRun w) : (s.write i r).arenas i = r := Function.update_self ..

/-- The other arenas stay as they are. -/
theorem write_of_ne {i j : ι} (r : ArenaRun w) (h : j ≠ i) : (s.write i r).arenas j = s.arenas j := Function.update_of_ne h ..

/-- A cleared arena is zeroed. -/
@[simp] theorem clear_self (i : ι) : (s.clear i).arenas i = .zeroed := Function.update_self ..

/-- The other arenas stay as they are. -/
theorem clear_of_ne {i j : ι} (h : j ≠ i) : (s.clear i).arenas j = s.arenas j := Function.update_of_ne h ..

/-- A region that wraps nowhere, and has nothing of the blocks and buffers in use. -/
structure Fresh (a : Arena w) : Prop where
  range : a.limit < 2 ^ w
  heap : ∀ p c, s.heap p = some c → Disjoint (regionBytes a.buf a.cap) (regionBytes p c)
  lent : ∀ j p c, (s.arenas j).lent = some (p, c) → Disjoint (regionBytes a.buf a.cap) (regionBytes p c)

end ArenasState

/-- What the allocator and the program see to: a block or a buffer for an arena is fresh. -/
def ArenasState.Sees [DecidableEq ι] (s : ArenasState ι w) : ArenasCall ι w → Prop
  | .init i allocator capacity => ∀ a, (arenaInit false allocator capacity).state = some a → (s.clear i).Fresh a
  | .initBuf i buf size => ∀ a, (arenaInitBuf false buf size).state = some a → (s.clear i).Fresh a
  | .call _ _ => True
  | .free _ => True

/-- A call, and what the allocator has after it. -/
def arenasNext [DecidableEq ι] (defaultAlignment : BitVec w) (s : ArenasState ι w) : ArenasCall ι w → ArenasState ι w
  | .init i allocator capacity =>
    match (arenaInit false allocator capacity).state with
    | none => s
    | some a => { (s.clear i).write i ⟨a, [], false⟩ with heap := Function.update s.heap a.buf (some a.cap) }
  | .initBuf i buf size =>
    match (arenaInitBuf false buf size).state with
    | none => s
    | some a => (s.clear i).write i ⟨a, [], false⟩
  | .call i op =>
    match arenaNext defaultAlignment (s.arenas i) op with
    | none => s
    | some r => s.write i r
  | .free i =>
    match arenaFree (some (s.arenas i).arena) with
    | (some p, some a) =>
      { s.write i ⟨a, [], false⟩ with heap := Function.update s.heap p none, fault := s.fault || (s.heap p).isNone }
    | (_, some a) => (s.clear i).write i ⟨a, [], false⟩
    | (_, none) => s

/-- Every sequence of calls on the arenas. -/
def arenas (ι : Type) [DecidableEq ι] (defaultAlignment : BitVec w) : Transition.System (ArenasState ι w) (ArenasCall ι w) where
  init s := s = .start
  step s call t := s.Sees call ∧ arenasNext defaultAlignment s call = t

/-- The condition on a call of `arena_sound`, on each of the arenas. -/
def PaddingFitsEach (defaultAlignment : BitVec w) (s : ArenasState ι w) : ArenasCall ι w → Prop
  | .call i op => PaddingFits defaultAlignment (s.arenas i) op
  | _ => True

/-! ## One arena -/

/-- A zeroed arena grants nothing and stays as it is. -/
theorem allocAligned_zeroed (size alignment : BitVec w) :
    ((ArenaRun.zeroed : ArenaRun w).arena.allocAligned size alignment).result = 0 ∧
      ((ArenaRun.zeroed : ArenaRun w).arena.allocAligned size alignment).state = (ArenaRun.zeroed : ArenaRun w).arena := by
  have hoffset : alignUp (0 + 0 : BitVec w) alignment - 0 = 0 := by simp [alignUp]
  simp only [Arena.allocAligned, ArenaRun.zeroed, hoffset]
  by_cases hpow : isPow2 alignment = true
  · by_cases hsize : size = 0
    · simp [hpow, hsize]
    · have hne : size.toNat ≠ 0 := fun h => hsize (BitVec.eq_of_toNat_eq (by simpa using h))
      have hpos : ((0 : BitVec w) - 0).toNat < size.toNat := by simpa using Nat.pos_of_ne_zero hne
      rw [if_pos (BitVec.lt_def.mpr hpos)]
      simp [hpow, Outcome.fail]
  · simp [hpow, Outcome.fail]

/-- A call on a zeroed arena does nothing; an allocation returns NULL. -/
theorem arenaNext_zeroed (defaultAlignment : BitVec w) (op : ArenaOp w) :
    arenaNext defaultAlignment (.zeroed : ArenaRun w) op = some .zeroed := by
  have halloc : ∀ size alignment : BitVec w, (ArenaRun.zeroed : ArenaRun w).granted size alignment
      (arenaAllocAligned (some (ArenaRun.zeroed : ArenaRun w).arena) size alignment) = some .zeroed := by
    intro size alignment
    obtain ⟨hresult, hstate⟩ := allocAligned_zeroed size alignment
    simp only [ArenaRun.granted, arenaAllocAligned, hresult, hstate, Option.map_some]
    rfl
  cases op with
  | alloc size => exact halloc size defaultAlignment
  | allocAligned size alignment => exact halloc size alignment
  | rewind => rfl
  | reset => rfl

/-- The parts of an arena that say whose region it has. -/
structure ArenaRun.SameRegion (r r' : ArenaRun w) : Prop where
  buf : r'.arena.buf = r.arena.buf
  cap : r'.arena.cap = r.arena.cap
  allocator : r'.arena.allocator = r.arena.allocator

/-- An allocation leaves an arena its region. -/
theorem allocAligned_region (a : Arena w) (size alignment : BitVec w) :
    (a.allocAligned size alignment).state.buf = a.buf ∧ (a.allocAligned size alignment).state.cap = a.cap ∧
      (a.allocAligned size alignment).state.allocator = a.allocator := by
  simp only [Arena.allocAligned, Outcome.fail]
  split
  · exact ⟨rfl, rfl, rfl⟩
  · split <;> exact ⟨rfl, rfl, rfl⟩

/-- Allocations, rewinds and resets leave an arena its region. -/
theorem arenaNext_region {defaultAlignment : BitVec w} {r r' : ArenaRun w} {op : ArenaOp w}
    (h : arenaNext defaultAlignment r op = some r') : r.SameRegion r' := by
  have halloc : ∀ size alignment : BitVec w,
      r.granted size alignment (arenaAllocAligned (some r.arena) size alignment) = some r' → r.SameRegion r' := by
    intro size alignment h
    have hregion := allocAligned_region r.arena size alignment
    have hstate : (arenaAllocAligned (some r.arena) size alignment).state = some (r.arena.allocAligned size alignment).state := rfl
    unfold ArenaRun.granted at h
    generalize arenaAllocAligned (some r.arena) size alignment = o at h hstate
    rw [hstate, Option.map_some, Option.some.injEq] at h
    split at h
    · exact h ▸ ⟨hregion.1, hregion.2.1, hregion.2.2⟩
    · exact h ▸ ⟨hregion.1, hregion.2.1, hregion.2.2⟩
  cases op with
  | alloc size => exact halloc size defaultAlignment h
  | allocAligned size alignment => exact halloc size alignment h
  | rewind =>
    cases h
    exact ⟨rfl, rfl, rfl⟩
  | reset =>
    cases h
    exact ⟨rfl, rfl, rfl⟩

namespace ArenaRun.SameRegion

variable {r r' : ArenaRun w} (h : r.SameRegion r')

include h

/-- An arena that keeps its region keeps its block. -/
theorem block : r'.block = r.block := by rw [ArenaRun.block, ArenaRun.block, h.buf, h.cap, h.allocator]

/-- And its lent buffer. -/
theorem lent : r'.lent = r.lent := by rw [ArenaRun.lent, ArenaRun.lent, h.buf, h.cap, h.allocator]

end ArenaRun.SameRegion

/-- What an arena is between calls. -/
inductive ArenaRun.Usable (r : ArenaRun w) : Prop where
  | zeroed (hr : r = .zeroed)
  | used (hinv : r.Inv) (hcap : r.arena.cap ≠ 0) (hfree : r.arena.allocator.free = true → r.arena.allocator.alloc.isSome = true)

/-- A usable arena that has a region has one that is not empty. -/
theorem ArenaRun.Usable.cap_ne_zero {r : ArenaRun w} (h : r.Usable) (hbuf : r.arena.buf ≠ 0) : r.arena.cap ≠ 0 := by
  cases h with
  | zeroed hr => exact absurd (by rw [hr]; rfl) hbuf
  | used _ hcap _ => exact hcap

/-- `cpr_arena_init` gives a usable arena, with an allocator. -/
theorem arenaInit_usable {allocator : ArenaAllocator w} {capacity : BitVec w} {a : Arena w}
    (h : (arenaInit false allocator capacity).state = some a) (hrange : a.limit < 2 ^ w) :
    (⟨a, [], false⟩ : ArenaRun w).Usable ∧ a.allocator.alloc.isSome = true := by
  have hinit : ArenaRun.Initial (⟨a, [], false⟩ : ArenaRun w) := ⟨Or.inl ⟨allocator, capacity, h⟩, hrange, rfl, rfl⟩
  unfold arenaInit at h
  split at h
  · cases h
  · rename_i halloc
    split at h
    · cases h
    · rename_i hargs
      dsimp only at h
      split at h
      · cases h
      · cases h
        refine ⟨.used hinit.inv (fun hcap => hargs (Or.inr hcap)) fun _ => ?_, ?_⟩ <;> simp [halloc]

/-- `cpr_arena_init_buf` gives a usable arena, without one. -/
theorem arenaInitBuf_usable {buf size : BitVec w} {a : Arena w} (h : (arenaInitBuf false buf size).state = some a)
    (hrange : a.limit < 2 ^ w) : (⟨a, [], false⟩ : ArenaRun w).Usable ∧ a.allocator.alloc = none := by
  have hinit : ArenaRun.Initial (⟨a, [], false⟩ : ArenaRun w) := ⟨Or.inr ⟨buf, size, h⟩, hrange, rfl, rfl⟩
  unfold arenaInitBuf at h
  split at h
  · cases h
  · rename_i hargs
    cases h
    exact ⟨.used hinit.inv (fun hcap => hargs (Or.inr (Or.inr hcap))) fun hfree => absurd hfree Bool.false_ne_true, rfl⟩

/-- Calls that meet the condition leave an arena usable. -/
theorem ArenaRun.Usable.next {defaultAlignment : BitVec w} {r r' : ArenaRun w} {op : ArenaOp w} (h : r.Usable)
    (hnext : arenaNext defaultAlignment r op = some r') (hfits : PaddingFits defaultAlignment r op) : r'.Usable := by
  cases h with
  | zeroed hr =>
    subst hr
    rw [arenaNext_zeroed] at hnext
    exact .zeroed (Option.some.inj hnext).symm
  | used hinv hcap hfree =>
    obtain ⟨hbuf', hcap', hallocator'⟩ := arenaNext_region hnext
    have hstep : (arenaCalls defaultAlignment).step r op r' := hnext
    rcases hinv.step hstep with ⟨hinv', -⟩ | ⟨-, hno⟩
    · exact .used hinv' (by rwa [hcap']) (by rwa [hallocator'])
    · exact absurd hfits hno

/-! ## Whose block is whose -/

/-- The places of blocks. -/
inductive ArenaPlace (ι : Type) (w : Nat) where
  | arena (i : ι)
  | abandoned (p : BitVec w)
  deriving DecidableEq

/-- Which block is whose. -/
def ArenasState.blockAt (s : ArenasState ι w) : ArenaPlace ι w → Option (BitVec w × BitVec w)
  | .arena i => (s.arenas i).block
  | .abandoned p => (s.abandoned p).map fun c => (p, c)

structure ArenasInv (s : ArenasState ι w) : Prop where
  fault : s.fault = false
  usable : ∀ i, (s.arenas i).Usable
  blocks : Owned s.heap s.blockAt
  positive : ∀ p c, s.heap p = some c → c ≠ 0
  heap : ∀ p q c d, p ≠ q → s.heap p = some c → s.heap q = some d → Disjoint (regionBytes p c) (regionBytes q d)
  lent : ∀ i p q c d, (s.arenas i).lent = some (p, c) → s.heap q = some d → Disjoint (regionBytes p c) (regionBytes q d)
  apart : ∀ i j p q c d, i ≠ j → (s.arenas i).lent = some (p, c) → (s.arenas j).lent = some (q, d) →
    Disjoint (regionBytes p c) (regionBytes q d)

section

variable [DecidableEq ι] {s : ArenasState ι w}

/-- Writing an arena changes which block is its. -/
theorem blockAt_write (s : ArenasState ι w) (i : ι) (r : ArenaRun w) :
    (s.write i r).blockAt = Function.update s.blockAt (.arena i) r.block := by
  funext q
  cases q with
  | arena j => by_cases hj : j = i <;> simp [ArenasState.blockAt, ArenasState.write, hj]
  | abandoned p => simp [ArenasState.blockAt, ArenasState.write]

/-- Clearing an arena that owns no block leaves the owners of all blocks. -/
theorem blockAt_clear_of_none {i : ι} (hi : (s.arenas i).block = none) : (s.clear i).blockAt = s.blockAt := by
  funext q
  cases q with
  | arena j =>
    by_cases hj : j = i
    · simp only [ArenasState.blockAt, ArenasState.clear, hj, Function.update_self, hi]
      rfl
    · simp [ArenasState.blockAt, ArenasState.clear, hj]
  | abandoned p => simp [ArenasState.blockAt, ArenasState.clear, hi]

/-- Clearing an arena that owns a block abandons it. -/
theorem blockAt_clear_of_some {i : ι} {p c : BitVec w} (hi : (s.arenas i).block = some (p, c)) :
    (s.clear i).blockAt = Function.update (Function.update s.blockAt (.arena i) none) (.abandoned p) (some (p, c)) := by
  funext q
  cases q with
  | arena j =>
    by_cases hj : j = i
    · simp only [ArenasState.blockAt, ArenasState.clear, hj, Function.update_self]
      rw [Function.update_of_ne (by simp), Function.update_self]
      rfl
    · simp [ArenasState.blockAt, ArenasState.clear, hj]
  | abandoned q => by_cases hq : q = p <;> simp [ArenasState.blockAt, ArenasState.clear, hi, hq]

/-- A cleared arena owns no block. -/
theorem blockAt_clear_self (s : ArenasState ι w) (i : ι) : (s.clear i).blockAt (.arena i) = none := by
  simp [ArenasState.blockAt, ArenaRun.block, ArenaRun.zeroed]

/-- A region with something in it has its first address. -/
theorem regionBytes_first {p c : BitVec w} (hc : c ≠ 0) : p.toNat ∈ regionBytes p c := by
  have hpos : c.toNat ≠ 0 := fun h => hc (BitVec.eq_of_toNat_eq (by simpa using h))
  exact ⟨Nat.le_refl _, by omega⟩

omit [DecidableEq ι] in
/-- A fresh region is at an address where there is no block. -/
theorem ArenasState.Fresh.heap_none {a : Arena w} (h : s.Fresh a) (hinv : ArenasInv s) (hcap : a.cap ≠ 0) : s.heap a.buf = none := by
  cases hp : s.heap a.buf with
  | none => rfl
  | some c =>
    exact absurd (regionBytes_first (hinv.positive _ _ hp)) (Set.disjoint_left.mp (h.heap _ _ hp) (regionBytes_first hcap))

/-- A zeroed arena has no lent buffer. -/
theorem lent_zeroed : (ArenaRun.zeroed : ArenaRun w).lent = none := by simp [ArenaRun.lent, ArenaRun.zeroed]

namespace ArenasInv

variable (h : ArenasInv s)

include h

/-- An arena takes a region that is not lent, or one that is apart from all others. -/
theorem write {i : ι} {r : ArenaRun w} (hr : r.Usable) (hblocks : Owned s.heap (s.write i r).blockAt)
    (hlent : ∀ p c, r.lent = some (p, c) → (∀ q d, s.heap q = some d → Disjoint (regionBytes p c) (regionBytes q d)) ∧
      ∀ j q d, j ≠ i → (s.arenas j).lent = some (q, d) → Disjoint (regionBytes p c) (regionBytes q d)) :
    ArenasInv (s.write i r) where
  fault := h.fault
  usable j := by
    by_cases hj : j = i
    · rwa [hj, s.write_self]
    · rw [s.write_of_ne r hj]
      exact h.usable j
  blocks := hblocks
  positive := h.positive
  heap := h.heap
  lent j p q c d hj hq := by
    by_cases hji : j = i
    · rw [hji, s.write_self] at hj
      exact (hlent p c hj).1 q d hq
    · rw [s.write_of_ne r hji] at hj
      exact h.lent j p q c d hj hq
  apart j k p q c d hne hj hk := by
    by_cases hji : j = i
    · have hki : k ≠ i := fun hk => hne (hji.trans hk.symm)
      rw [hji, s.write_self] at hj
      rw [s.write_of_ne r hki] at hk
      exact (hlent p c hj).2 k q d hki hk
    · rw [s.write_of_ne r hji] at hj
      by_cases hki : k = i
      · rw [hki, s.write_self] at hk
        exact ((hlent q d hk).2 j p c hji hj).symm
      · rw [s.write_of_ne r hki] at hk
        exact h.apart j k p q c d hne hj hk

/-- An arena is given up. -/
theorem clear (i : ι) : ArenasInv (s.clear i) := by
  have hblocks : Owned s.heap (s.clear i).blockAt := by
    cases hi : (s.arenas i).block with
    | none => exact h.blocks.of_eq (blockAt_clear_of_none hi)
    | some b =>
      obtain ⟨p, c⟩ := b
      rw [blockAt_clear_of_some hi]
      refine h.blocks.move hi ?_
      cases hp : s.abandoned p with
      | none => simp [ArenasState.blockAt, hp]
      | some d =>
        have hplace := h.blocks.unique (.abandoned p) (.arena i) p d c (by simp [ArenasState.blockAt, hp]) hi
        cases hplace
  have hlent : ∀ j p c, ((s.clear i).arenas j).lent = some (p, c) → (s.arenas j).lent = some (p, c) := by
    intro j p c hj
    by_cases hji : j = i
    · rw [hji, s.clear_self, lent_zeroed] at hj
      cases hj
    · rwa [s.clear_of_ne hji] at hj
  refine ⟨h.fault, fun j => ?_, hblocks, h.positive, h.heap, fun j p q c d hj => h.lent j p q c d (hlent j p c hj),
    fun j k p q c d hne hj hk => h.apart j k p q c d hne (hlent j p c hj) (hlent k q d hk)⟩
  by_cases hji : j = i
  · exact .zeroed (by rw [hji, s.clear_self])
  · rw [s.clear_of_ne hji]
    exact h.usable j

/-- Clearing an arena keeps all others sound. -/
theorem write_cleared (i : ι) : ArenasInv ((s.clear i).write i .zeroed) := by
  refine (h.clear i).write (.zeroed rfl) ?_ fun p c hp => ?_
  · rw [blockAt_write]
    exact (h.clear i).blocks.of_eq (Owned.update_same (blockAt_clear_self s i))
  · rw [lent_zeroed] at hp
    cases hp

/-- A cleared arena over a fresh block. -/
theorem given {i : ι} {a : Arena w} (hfresh : (s.clear i).Fresh a) (hr : (⟨a, [], false⟩ : ArenaRun w).Usable)
    (halloc : a.allocator.alloc.isSome = true) (hcap : a.cap ≠ 0) :
    ArenasInv { (s.clear i).write i ⟨a, [], false⟩ with heap := Function.update s.heap a.buf (some a.cap) } := by
  have hclear := h.clear i
  have hnone : s.heap a.buf = none := hfresh.heap_none hclear hcap
  have hblock : (⟨a, [], false⟩ : ArenaRun w).block = some (a.buf, a.cap) := by rw [ArenaRun.block, if_pos halloc]
  have hlent : ∀ j p c, (((s.clear i).write i ⟨a, [], false⟩).arenas j).lent = some (p, c) → ((s.clear i).arenas j).lent = some (p, c) := by
    intro j p c hj
    by_cases hji : j = i
    · rw [hji, ArenasState.write_self, ArenaRun.lent, if_neg] at hj
      · cases hj
      · rintro ⟨hno, -⟩
        rw [Option.isNone_iff_eq_none] at hno
        rw [hno] at halloc
        cases halloc
    · rwa [(s.clear i).write_of_ne _ hji] at hj
  have hheap : ∀ p c, Function.update s.heap a.buf (some a.cap) p = some c →
      p = a.buf ∧ c = a.cap ∨ p ≠ a.buf ∧ s.heap p = some c := by
    intro p c hp
    by_cases hpa : p = a.buf
    · rw [hpa, Function.update_self] at hp
      exact Or.inl ⟨hpa, (Option.some.inj hp).symm⟩
    · rw [Function.update_of_ne hpa] at hp
      exact Or.inr ⟨hpa, hp⟩
  refine ⟨h.fault, fun j => ?_, ?_, fun p c hp => ?_, fun p q c d hne hp hq => ?_, fun j p q c d hj hq => ?_,
    fun j k p q c d hne hj hk => hclear.apart j k p q c d hne (hlent j p c hj) (hlent k q d hk)⟩
  · by_cases hji : j = i
    · rw [hji]
      exact ((s.clear i).write_self i ⟨a, [], false⟩).symm ▸ hr
    · exact ((s.clear i).write_of_ne _ hji).symm ▸ hclear.usable j
  · have hblocks : ((s.clear i).write i ⟨a, [], false⟩).blockAt =
        Function.update (s.clear i).blockAt (.arena i) (some (a.buf, a.cap)) := by rw [blockAt_write, hblock]
    change Owned _ ((s.clear i).write i ⟨a, [], false⟩).blockAt
    rw [hblocks]
    exact hclear.blocks.acquire a.cap hnone (blockAt_clear_self s i)
  · rcases hheap p c hp with ⟨-, rfl⟩ | ⟨-, hp⟩
    · exact hcap
    · exact h.positive p c hp
  · rcases hheap p c hp with ⟨rfl, rfl⟩ | ⟨-, hp⟩
    · rcases hheap q d hq with ⟨rfl, -⟩ | ⟨-, hq⟩
      · exact absurd rfl hne
      · exact hfresh.heap q d hq
    · rcases hheap q d hq with ⟨rfl, rfl⟩ | ⟨-, hq⟩
      · exact (hfresh.heap p c hp).symm
      · exact h.heap p q c d hne hp hq
  · rcases hheap q d hq with ⟨rfl, rfl⟩ | ⟨-, hq⟩
    · exact (hfresh.lent j p c (hlent j p c hj)).symm
    · exact hclear.lent j p q c d (hlent j p c hj) hq

/-- A cleared arena over a fresh buffer that it is lent. -/
theorem lend {i : ι} {a : Arena w} (hfresh : (s.clear i).Fresh a) (hr : (⟨a, [], false⟩ : ArenaRun w).Usable)
    (halloc : a.allocator.alloc = none) : ArenasInv ((s.clear i).write i ⟨a, [], false⟩) := by
  have hclear := h.clear i
  have hblock : (⟨a, [], false⟩ : ArenaRun w).block = none := by simp [ArenaRun.block, halloc]
  refine hclear.write hr ?_ fun p c hp => ?_
  · rw [blockAt_write, hblock, Owned.update_same (blockAt_clear_self s i)]
    exact hclear.blocks
  · rw [ArenaRun.lent] at hp
    split at hp
    · cases hp
      exact ⟨hfresh.heap, fun j q d _ hj => hfresh.lent j q d hj⟩
    · cases hp

/-- The block of an arena is freed. -/
theorem freed {i : ι} {p c : BitVec w} (hi : (s.arenas i).block = some (p, c)) :
    ArenasInv { s.write i .zeroed with heap := Function.update s.heap p none, fault := s.fault || (s.heap p).isNone } := by
  have hthere : s.heap p = some c := h.blocks.holds (.arena i) p c hi
  have hless : ∀ q d, Function.update s.heap p none q = some d → s.heap q = some d := by
    intro q d hq
    by_cases hqp : q = p
    · rw [hqp, Function.update_self] at hq
      cases hq
    · rwa [Function.update_of_ne hqp] at hq
  have hlent : ∀ j q d, ((s.write i .zeroed).arenas j).lent = some (q, d) → (s.arenas j).lent = some (q, d) := by
    intro j q d hj
    by_cases hji : j = i
    · rw [hji, s.write_self, lent_zeroed] at hj
      cases hj
    · rwa [s.write_of_ne _ hji] at hj
  refine ⟨?_, fun j => ?_, ?_, fun q d hq => h.positive q d (hless q d hq),
    fun q q' d d' hne hq hq' => h.heap q q' d d' hne (hless q d hq) (hless q' d' hq'),
    fun j q q' d d' hj hq => h.lent j q q' d d' (hlent j q d hj) (hless q' d' hq),
    fun j k q q' d d' hne hj hk => h.apart j k q q' d d' hne (hlent j q d hj) (hlent k q' d' hk)⟩
  · rw [h.fault, hthere]
    rfl
  · by_cases hji : j = i
    · exact .zeroed (hji ▸ s.write_self i .zeroed)
    · exact (s.write_of_ne .zeroed hji).symm ▸ h.usable j
  · have hblocks : (s.write i .zeroed).blockAt = Function.update s.blockAt (.arena i) none := by
      rw [blockAt_write]
      rfl
    change Owned _ (s.write i .zeroed).blockAt
    rw [hblocks]
    exact h.blocks.release hi

/-- A call keeps the invariant when it meets the condition. -/
theorem next {defaultAlignment : BitVec w} {call : ArenasCall ι w} (hsees : s.Sees call)
    (hfits : PaddingFitsEach defaultAlignment s call) : ArenasInv (arenasNext defaultAlignment s call) := by
  cases call with
  | init i allocator capacity =>
    simp only [arenasNext]
    split
    · exact h
    · rename_i a ha
      have hfresh := hsees a ha
      obtain ⟨hr, halloc⟩ := arenaInit_usable ha hfresh.range
      exact h.given hfresh hr halloc (hr.cap_ne_zero (arenaInit_some ha).1)
  | initBuf i buf size =>
    simp only [arenasNext]
    split
    · exact h
    · rename_i a ha
      have hfresh := hsees a ha
      obtain ⟨hr, halloc⟩ := arenaInitBuf_usable ha hfresh.range
      exact h.lend hfresh hr halloc
  | call i op =>
    simp only [arenasNext]
    split
    · exact h
    · rename_i r hr
      have hregion := arenaNext_region hr
      refine h.write ((h.usable i).next hr hfits) ?_ fun p c hp => ?_
      · rw [blockAt_write, hregion.block]
        exact h.blocks.of_eq (Owned.update_same rfl)
      · rw [hregion.lent] at hp
        exact ⟨fun q d => h.lent i p q c d hp, fun j q d hne => h.apart i j p q c d hne.symm hp⟩
  | free i =>
    simp only [arenasNext, arenaFree]
    cases hfree : (s.arenas i).arena.allocator.free with
    | false => exact h.write_cleared i
    | true =>
      have hblock : (s.arenas i).block = some ((s.arenas i).arena.buf, (s.arenas i).arena.cap) := by
        cases h.usable i with
        | zeroed hr =>
          rw [hr] at hfree
          cases hfree
        | used _ _ halloc => rw [ArenaRun.block, if_pos (halloc hfree)]
      exact h.freed hblock

end ArenasInv

omit [DecidableEq ι] in
/-- Before any call all arenas are zeroed. -/
theorem arenasInv_start : ArenasInv (.start : ArenasState ι w) where
  fault := rfl
  usable _ := .zeroed rfl
  blocks := by
    refine Owned.none.of_eq ?_
    funext q
    cases q <;> rfl
  positive := nofun
  heap := nofun
  lent i p q c d hi := by
    rw [ArenasState.start, lent_zeroed] at hi
    cases hi
  apart i j p q c d _ hi := by
    rw [ArenasState.start, lent_zeroed] at hi
    cases hi

/-- What holds between calls holds in every state that is reached. -/
theorem arenasInv_of_reachable {defaultAlignment : BitVec w}
    (h : ((arenas ι defaultAlignment).restrict (PaddingFitsEach defaultAlignment)).Reachable s) : ArenasInv s := by
  refine h.invariant ⟨?_, ?_⟩
  · rintro _ rfl
    exact arenasInv_start
  · rintro s call _ hs ⟨⟨hsees, rfl⟩, hfits⟩
    exact hs.next hsees hfits

/-! ## All the arenas -/

omit [DecidableEq ι] in
/-- What an arena has allocated is in its region, which is a block of the allocator's or a buffer that it is lent. -/
theorem ArenasInv.live (h : ArenasInv s) {i : ι} {b : Block} (hb : b ∈ (s.arenas i).live) :
    ∃ p c, b.bytes ⊆ regionBytes p c ∧ ((s.arenas i).block = some (p, c) ∨ (s.arenas i).lent = some (p, c)) := by
  cases h.usable i with
  | zeroed hr =>
    rw [hr] at hb
    cases hb
  | used hinv _ _ =>
    obtain ⟨hlo, hhi⟩ := hinv.sound.inside b hb
    refine ⟨(s.arenas i).arena.buf, (s.arenas i).arena.cap, fun x hx => ⟨Nat.le_trans hlo hx.1, Nat.lt_of_lt_of_le hx.2 hhi⟩, ?_⟩
    have hbuf : (s.arenas i).arena.buf ≠ 0 := by
      intro h0
      have hbase := hinv.valid.base
      rw [h0] at hbase
      simp at hbase
    cases halloc : (s.arenas i).arena.allocator.alloc with
    | none => exact Or.inr (by rw [ArenaRun.lent, if_pos ⟨Option.isNone_iff_eq_none.mpr halloc, hbuf⟩])
    | some f => exact Or.inl (by simp [ArenaRun.block, halloc])

omit [DecidableEq ι] in
/-- The regions of two arenas are apart. -/
theorem ArenasInv.regions_apart (h : ArenasInv s) {i j : ι} (hij : i ≠ j) {p c q d : BitVec w}
    (hi : (s.arenas i).block = some (p, c) ∨ (s.arenas i).lent = some (p, c))
    (hj : (s.arenas j).block = some (q, d) ∨ (s.arenas j).lent = some (q, d)) : Disjoint (regionBytes p c) (regionBytes q d) := by
  have hholds : ∀ {k p c}, (s.arenas k).block = some (p, c) → s.heap p = some c := fun {k p c} => h.blocks.holds (.arena k) p c
  rcases hi with hi | hi <;> rcases hj with hj | hj
  · have hpq : p ≠ q := by
      rintro rfl
      have hplace := h.blocks.unique (.arena i) (.arena j) p c d hi hj
      cases hplace
      exact hij rfl
    exact h.heap p q c d hpq (hholds hi) (hholds hj)
  · exact (h.lent j q p d c hj (hholds hi)).symm
  · exact h.lent i p q c d hi (hholds hj)
  · exact h.apart i j p q c d hij hi hj

/-- Arenas over one allocator, and over buffers that they are lent, are initialised, used and freed in any order, and the padding of
every allocation fits. Then nothing has been freed that was not allocated, and every block of the allocator is one arena's or was
abandoned; so when every arena is freed, only what was abandoned is left. What an arena has allocated is in its region, a block that
is still allocated or a buffer; and no two allocations overlap, of one arena or of two. -/
theorem arenas_sound {defaultAlignment : BitVec w}
    (h : ((arenas ι defaultAlignment).restrict (PaddingFitsEach defaultAlignment)).Reachable s) :
    s.fault = false ∧ (∀ p c, s.heap p = some c → ∃! q, s.blockAt q = some (p, c)) ∧
      ((∀ i, s.arenas i = .zeroed) → (∀ p, s.abandoned p = none) → ∀ p, s.heap p = none) ∧
      (∀ i, ∀ b ∈ (s.arenas i).live, ∃ p c, b.bytes ⊆ regionBytes p c ∧
        ((s.arenas i).block = some (p, c) ∧ s.heap p = some c ∨ (s.arenas i).lent = some (p, c))) ∧
      (∀ i, (s.arenas i).live.Pairwise fun b c => Disjoint b.bytes c.bytes) ∧
      ∀ i j, i ≠ j → ∀ b ∈ (s.arenas i).live, ∀ c ∈ (s.arenas j).live, Disjoint b.bytes c.bytes := by
  have hinv := arenasInv_of_reachable h
  refine ⟨hinv.fault, fun p c => hinv.blocks.existsUnique, fun hfreed hnone => ?_, fun i b hb => ?_, fun i => ?_,
    fun i j hij b hb c hc => ?_⟩
  · refine hinv.blocks.eq_none fun q => ?_
    cases q with
    | arena i =>
      rw [ArenasState.blockAt, hfreed]
      rfl
    | abandoned p => rw [ArenasState.blockAt, hnone, Option.map_none]
  · obtain ⟨p, c, hin, hregion⟩ := hinv.live hb
    exact ⟨p, c, hin, hregion.imp (fun hi => ⟨hi, hinv.blocks.holds (.arena i) p c hi⟩) id⟩
  · cases hinv.usable i with
    | zeroed hr =>
      rw [hr]
      exact .nil
    | used hrun _ _ => exact hrun.sound.disjoint
  · obtain ⟨p, n, hb', hi⟩ := hinv.live hb
    obtain ⟨q, m, hc', hj⟩ := hinv.live hc
    exact (hinv.regions_apart hij hi hj).mono hb' hc'

end

/-- Two arenas are initialised, the first over a block of 64 bytes at 4096 and the second over a buffer of 16 bytes at 1024, and each
allocates. -/
def twoArenas : List (ArenasCall Bool 64) :=
  [.init false (arenaAllocDefault fun _ => 4096) 64, .initBuf true 1024 16, .call false (.alloc 5), .call true (.allocAligned 4 4)]

/-- The states on the way. -/
def twoArenasAfter (n : Nat) : ArenasState Bool 64 := (twoArenas.take n).foldl (arenasNext 16) .start

theorem arenas_sound_two : (twoArenasAfter 4).heap 4096 = some 64 ∧ ((twoArenasAfter 4).arenas false).live = [⟨4096, 5, 16⟩] ∧
    ((twoArenasAfter 4).arenas true).live = [⟨1024, 4, 4⟩] ∧ (twoArenasAfter 4).fault = false ∧
    ∀ i j, i ≠ j → ∀ b ∈ ((twoArenasAfter 4).arenas i).live, ∀ c ∈ ((twoArenasAfter 4).arenas j).live, Disjoint b.bytes c.bytes := by
  have hfirst : (twoArenasAfter 0).Sees (.init false (arenaAllocDefault fun _ => 4096) 64) := by
    intro a ha
    obtain rfl : ({ buf := 4096, cap := 64, offset := 0, prevOffset := 0, allocator := _ } : Arena 64) = a := Option.some.inj ha
    refine ⟨by decide, fun p c hp => ?_, fun j p c hj => ?_⟩
    · cases hp
    · cases j <;> cases hj
  have hsecond : (twoArenasAfter 1).Sees (.initBuf true 1024 16) := by
    intro a ha
    obtain rfl : ({ buf := 1024, cap := 16, offset := 0, prevOffset := 0, allocator := _ } : Arena 64) = a := Option.some.inj ha
    refine ⟨by decide, fun p c hp => ?_, fun j p c hj => ?_⟩
    · have hblock : Function.update (fun _ => none) 4096 (some 64) p = some c := hp
      by_cases hpa : p = 4096
      · rw [hpa, Function.update_self] at hblock
        cases hblock
        rw [hpa]
        exact Set.disjoint_left.mpr fun x hx hx' => absurd (Nat.lt_of_lt_of_le hx.2 (by decide)) (Nat.not_lt.mpr hx'.1)
      · rw [Function.update_of_ne hpa] at hblock
        cases hblock
    · cases j <;> cases hj
  have hinit : ((arenas Bool (16 : BitVec 64)).restrict (PaddingFitsEach 16)).step (twoArenasAfter 0)
      (.init false (arenaAllocDefault fun _ => 4096) 64) (twoArenasAfter 1) := ⟨⟨hfirst, rfl⟩, trivial⟩
  have hlend : ((arenas Bool (16 : BitVec 64)).restrict (PaddingFitsEach 16)).step (twoArenasAfter 1) (.initBuf true 1024 16)
      (twoArenasAfter 2) := ⟨⟨hsecond, rfl⟩, trivial⟩
  have halloc : ((arenas Bool (16 : BitVec 64)).restrict (PaddingFitsEach 16)).step (twoArenasAfter 2) (.call false (.alloc 5))
      (twoArenasAfter 3) := ⟨⟨trivial, rfl⟩, fun _ => Or.inl (by decide)⟩
  have haligned : ((arenas Bool (16 : BitVec 64)).restrict (PaddingFitsEach 16)).step (twoArenasAfter 3)
      (.call true (.allocAligned 4 4)) (twoArenasAfter 4) := ⟨⟨trivial, rfl⟩, fun _ => Or.inl (by decide)⟩
  have hrun := (((Transition.System.Run.single hinit).snoc hlend).snoc halloc).snoc haligned
  obtain ⟨hfault, -, -, -, -, hapart⟩ := arenas_sound ⟨_, _, rfl, hrun⟩
  exact ⟨rfl, rfl, rfl, hfault, hapart⟩

end Copper
