import Copper.Arena.Lemmas
import Mathlib.Order.CompletePartialOrder
import Mathlib.Order.Interval.Set.Disjoint

/-!
# Which runs of an arena are sound

An allocation lands past the bump pointer, inside the region and off every live allocation, as long as the padding in front of
it does not take it past the end of the region. When it does, `cap - aligned_offset` wraps, and the call succeeds for nearly
every size. `Arena.Placed` is the exact condition on a call; a run all of whose calls meet it stays sound (`arena_sound`).
-/

namespace Copper

variable {w : Nat}

/-- The addresses of an allocation. -/
def Block.bytes (b : Block) : Set Nat := Set.Ico b.start (b.start + b.size)

/-- What an arena promises its callers: offsets in order, and live allocations inside the region, aligned, and disjoint. -/
structure ArenaRun.Sound (s : ArenaRun w) : Prop where
  ordered : s.arena.prevOffset.toNat ≤ s.arena.offset.toNat
  fits : s.arena.offset.toNat ≤ s.arena.cap.toNat
  inside : ∀ b ∈ s.live, s.arena.buf.toNat ≤ b.start ∧ b.start + b.size ≤ s.arena.buf.toNat + s.arena.cap.toNat
  aligned : ∀ b ∈ s.live, b.alignment ∣ b.start
  disjoint : s.live.Pairwise fun b c => Disjoint b.bytes c.bytes

/-- The least multiple of the alignment at or past the bump pointer is not past the end of the region, or the size is so large
that the check refuses it even so, or the multiple is the end of the address space and the offset comes round in order. -/
def Arena.Placed (a : Arena w) (size alignment : BitVec w) : Prop :=
  alignment.toNat.isPowerOfTwo →
    a.target alignment ≤ a.limit ∨ 2 ^ w + a.limit < a.target alignment + size.toNat ∨
      (a.target alignment = 2 ^ w ∧ a.top ≤ size.toNat)

/-- The condition on a call. Rewinds and resets are free. -/
def PaddingFits (defaultAlignment : BitVec w) (s : ArenaRun w) : ArenaOp w → Prop
  | .alloc size => s.arena.Placed size defaultAlignment
  | .allocAligned size alignment => s.arena.Placed size alignment
  | .rewind => True
  | .reset => True

/-- What holds of every state a run of such calls reaches: live allocations end at or before the bump pointer, and those a
rewind would leave end at or before the place it returns to. -/
structure ArenaRun.Inv (s : ArenaRun w) : Prop where
  valid : s.arena.Valid
  sound : s.Sound
  below : ∀ b ∈ s.live, b.start + b.size ≤ s.arena.top
  kept : ∀ b ∈ (if s.undoable then s.live.tail else s.live), b.start + b.size ≤ s.arena.buf.toNat + s.arena.prevOffset.toNat

/-- An allocation that starts where the others have ended is disjoint from them. -/
theorem Block.disjoint_of_le {b c : Block} (h : c.start + c.size ≤ b.start) : Disjoint b.bytes c.bytes :=
  Set.disjoint_left.mpr fun x hx hx' => by
    obtain ⟨hlo, -⟩ := hx
    obtain ⟨-, hhi⟩ := hx'
    omega

namespace ArenaRun

variable {s t : ArenaRun w} {size alignment : BitVec w}

/-- The initial states satisfy the invariant. -/
theorem Initial.inv (h : s.Initial) : s.Inv := by
  obtain ⟨hvalid, hprev⟩ := h.valid
  obtain ⟨-, -, hlive, hundo⟩ := h
  refine ⟨hvalid, ⟨?_, hvalid.offset, ?_, ?_, ?_⟩, ?_, ?_⟩
  · rw [hprev]
    simp
  · simp [hlive]
  · simp [hlive]
  · simp [hlive]
  · simp [hlive]
  · simp [hlive]

namespace Inv

variable (hs : s.Inv)

include hs

/-- A rewind keeps the invariant. -/
theorem rewind : ArenaRun.Inv
    { arena := { s.arena with offset := s.arena.prevOffset }
      live := if s.undoable then s.live.tail else s.live
      undoable := false } := by
  have hsub : ∀ b ∈ (if s.undoable then s.live.tail else s.live), b ∈ s.live := by
    intro b hb
    split at hb
    · exact List.mem_of_mem_tail hb
    · exact hb
  have hpair : (if s.undoable then s.live.tail else s.live).Pairwise fun b c => Disjoint b.bytes c.bytes := by
    split
    · exact hs.sound.disjoint.tail
    · exact hs.sound.disjoint
  have hord := hs.sound.ordered
  have hfits := hs.sound.fits
  exact ⟨⟨hs.valid.base, hs.valid.range, Nat.le_trans hord hfits⟩,
    ⟨Nat.le_refl _, Nat.le_trans hord hfits, fun b hb => hs.sound.inside b (hsub b hb),
      fun b hb => hs.sound.aligned b (hsub b hb), hpair⟩, hs.kept, hs.kept⟩

/-- A reset keeps the invariant. -/
theorem reset : ArenaRun.Inv
    { arena := { s.arena with offset := 0, prevOffset := 0 }, live := [], undoable := false } :=
  ⟨⟨hs.valid.base, hs.valid.range, by simp⟩, ⟨by simp, by simp, by simp, by simp, List.Pairwise.nil⟩, by simp, by simp⟩

/-- An allocation whose target lies in the region, and that fits there, keeps the invariant. -/
theorem grant {a : Arena w} (hpow : alignment.toNat.isPowerOfTwo)
    (hin : s.arena.target alignment + size.toNat ≤ s.arena.limit)
    (ha : s.arena.Moved a (s.arena.target alignment - s.arena.buf.toNat + size.toNat)) :
    ArenaRun.Inv
      { arena := a
        live := ⟨s.arena.target alignment, size.toNat, alignment.toNat⟩ :: s.live
        undoable := true } := by
  obtain ⟨hbuf, hcap, hprev, hoff⟩ := ha
  have htop := s.arena.top_le_target hpow
  have htopdef : s.arena.top = s.arena.buf.toNat + s.arena.offset.toNat := rfl
  have hlimit : s.arena.limit = s.arena.buf.toNat + s.arena.cap.toNat := rfl
  have hlimit' : a.limit = s.arena.limit := by rw [Arena.limit, hbuf, hcap, hlimit]
  have htop' : a.top = s.arena.target alignment + size.toNat := by
    rw [Arena.top, hbuf, hoff]
    omega
  have hfits : a.offset.toNat ≤ a.cap.toNat := by
    rw [hoff, hcap]
    omega
  refine ⟨⟨?_, ?_, hfits⟩, ⟨?_, hfits, ?_, ?_, ?_⟩, ?_, ?_⟩
  · rw [hbuf]
    exact hs.valid.base
  · rw [hlimit']
    exact hs.valid.range
  · rw [hprev, hoff]
    omega
  · have hbase : s.arena.buf.toNat ≤ s.arena.target alignment := by omega
    rw [hbuf, hcap]
    exact List.forall_mem_cons.mpr ⟨⟨hbase, hin⟩, hs.sound.inside⟩
  · exact List.forall_mem_cons.mpr ⟨Align.dvd_roundUp, hs.sound.aligned⟩
  · refine List.pairwise_cons.mpr ⟨fun c hc => Block.disjoint_of_le ?_, hs.sound.disjoint⟩
    exact Nat.le_trans (hs.below c hc) htop
  · rw [htop']
    exact List.forall_mem_cons.mpr ⟨Nat.le_refl _, fun c hc => by have := hs.below c hc; omega⟩
  · rw [hbuf, hprev]
    exact hs.below

/-- An allocation at the end of the address space returns NULL. If the offset comes round in order, the invariant is kept;
otherwise the offsets are out of order. -/
theorem wrapped {a : Arena w} (hend : s.arena.target alignment = 2 ^ w) (hsize : size.toNat ≤ s.arena.limit)
    (ha : s.arena.Moved a ((s.arena.target alignment - s.arena.buf.toNat + size.toNat) % 2 ^ w)) :
    (ArenaRun.Inv { arena := a, live := s.live, undoable := false } ∧ s.arena.top ≤ size.toNat) ∨
      (¬ ArenaRun.Sound { arena := a, live := s.live, undoable := false } ∧ ¬ s.arena.top ≤ size.toNat) := by
  obtain ⟨hbuf, hcap, hprev, hoff⟩ := ha
  have hbase := hs.valid.base
  have hlt := s.arena.buf.isLt
  have hrange := hs.valid.range
  have htopdef : s.arena.top = s.arena.buf.toNat + s.arena.offset.toNat := rfl
  have hlimit : s.arena.limit = s.arena.buf.toNat + s.arena.cap.toNat := rfl
  rw [hend] at hoff
  by_cases hround : s.arena.top ≤ size.toNat
  · -- the offset wraps round to `size - base`, between the old offset and the capacity
    rw [show 2 ^ w - s.arena.buf.toNat + size.toNat = size.toNat - s.arena.buf.toNat + 2 ^ w by omega, Nat.add_mod_right,
      Nat.mod_eq_of_lt (by omega)] at hoff
    have hfits : a.offset.toNat ≤ a.cap.toNat := by
      rw [hoff, hcap]
      omega
    have htop' : a.top = size.toNat := by
      rw [Arena.top, hbuf, hoff]
      omega
    refine Or.inl ⟨⟨⟨?_, ?_, hfits⟩, ⟨?_, hfits, ?_, hs.sound.aligned, hs.sound.disjoint⟩, fun b hb => ?_, ?_⟩, hround⟩
    · rw [hbuf]
      exact hbase
    · rw [Arena.limit, hbuf, hcap]
      exact hrange
    · rw [hprev, hoff]
      omega
    · rw [hbuf, hcap]
      exact hs.sound.inside
    · rw [htop']
      exact Nat.le_trans (hs.below b hb) hround
    · rw [hbuf, hprev]
      exact hs.below
  · refine Or.inr ⟨fun hbad => ?_, hround⟩
    have hord : a.prevOffset.toNat ≤ a.offset.toNat := hbad.ordered
    have hfits : a.offset.toNat ≤ a.cap.toNat := hbad.fits
    rw [hprev] at hord
    rw [hcap] at hfits
    rcases Nat.lt_or_ge size.toNat s.arena.buf.toNat with hsmall | hlarge
    · rw [Nat.mod_eq_of_lt (by omega)] at hoff
      omega
    · rw [show 2 ^ w - s.arena.buf.toNat + size.toNat = size.toNat - s.arena.buf.toNat + 2 ^ w by omega, Nat.add_mod_right,
        Nat.mod_eq_of_lt (by omega)] at hoff
      omega

/-- An allocation keeps the invariant when it meets the condition, and leaves an unsound state when it does not. -/
theorem granted (h : s.granted size alignment (arenaAllocAligned (some s.arena) size alignment) = some t) :
    (t.Inv ∧ s.arena.Placed size alignment) ∨ (¬ t.Sound ∧ ¬ s.arena.Placed size alignment) := by
  have hrange := hs.valid.range
  rcases hs.valid.allocAligned_cases size alignment with ⟨code, message, hfail, hfull⟩ | ⟨hpow, hfit, a, hok, hmoved⟩
  · simp only [ArenaRun.granted, arenaAllocAligned, hfail, Outcome.fail, Option.map_some, Option.some.injEq] at h
    have hsame : t = s := by
      rw [← h]
      simp
    rw [hsame]
    refine Or.inl ⟨hs, fun hpow => ?_⟩
    have hfull := hfull hpow
    unfold Arena.bound at hfull
    split at hfull <;> omega
  · simp only [ArenaRun.granted, arenaAllocAligned, hok, Option.map_some, Option.some.injEq] at h
    have htop := s.arena.top_le_target hpow
    have htopdef : s.arena.top = s.arena.buf.toNat + s.arena.offset.toNat := rfl
    have hbase := hs.valid.base
    have hmax := hs.valid.target_le hpow
    unfold Arena.bound at hfit
    rcases Nat.eq_or_lt_of_le hmax with hend | hlt
    · rw [if_pos (by omega)] at hfit
      have hnull : BitVec.ofNat w (s.arena.target alignment) = 0 := by
        apply BitVec.eq_of_toNat_eq
        rw [hend, BitVec.toNat_ofNat, Nat.mod_self]
        exact BitVec.toNat_zero.symm
      simp only [hnull, ne_eq, not_true, if_false, Option.isSome_none, Bool.and_false] at h
      subst h
      rcases hs.wrapped hend (by omega) hmoved with ⟨hinv, hround⟩ | ⟨hbad, hround⟩
      · exact Or.inl ⟨hinv, fun _ => Or.inr (Or.inr ⟨hend, hround⟩)⟩
      · refine Or.inr ⟨hbad, fun hplaced => ?_⟩
        rcases hplaced hpow with hin | hlarge | ⟨-, hround'⟩
        · omega
        · omega
        · exact hround hround'
    · have hptr : (BitVec.ofNat w (s.arena.target alignment)).toNat = s.arena.target alignment := by
        rw [BitVec.toNat_ofNat, Nat.mod_eq_of_lt hlt]
      have hne : BitVec.ofNat w (s.arena.target alignment) ≠ 0 := by
        intro h0
        rw [h0] at hptr
        simp at hptr
        omega
      rw [if_pos hne, hptr] at h
      subst h
      by_cases hin : s.arena.target alignment ≤ s.arena.limit
      · rw [if_neg (by omega)] at hfit
        rw [Nat.mod_eq_of_lt (by omega)] at hmoved
        exact Or.inl ⟨hs.grant hpow hfit hmoved, fun _ => Or.inl hin⟩
      · rw [if_pos (by omega)] at hfit
        refine Or.inr ⟨fun hbad => ?_, fun hplaced => ?_⟩
        · have hinside : s.arena.target alignment + size.toNat ≤ a.buf.toNat + a.cap.toNat :=
            (hbad.inside _ List.mem_cons_self).2
          rw [hmoved.buf, hmoved.cap] at hinside
          have hlimit : s.arena.limit = s.arena.buf.toNat + s.arena.cap.toNat := rfl
          omega
        · rcases hplaced hpow with hin' | hlarge | ⟨hend, -⟩
          · exact hin hin'
          · omega
          · omega

/-- A call keeps the invariant when it meets the condition, and leaves an unsound state when it does not. -/
theorem step {defaultAlignment : BitVec w} {op : ArenaOp w} (h : (arenaCalls defaultAlignment).step s op t) :
    (t.Inv ∧ PaddingFits defaultAlignment s op) ∨ (¬ t.Sound ∧ ¬ PaddingFits defaultAlignment s op) := by
  have hnext : arenaNext defaultAlignment s op = some t := h
  cases op with
  | alloc size => exact hs.granted hnext
  | allocAligned size alignment => exact hs.granted hnext
  | rewind =>
    cases hnext
    exact Or.inl ⟨hs.rewind, trivial⟩
  | reset =>
    cases hnext
    exact Or.inl ⟨hs.reset, trivial⟩

end Inv

end ArenaRun

/-- In every run all of whose calls meet the condition, every state reached is sound: the offsets are in order, and the pointers
returned and still live lie in the region, are aligned, and do not overlap. And the condition is exact: of the calls that may
come next, those that leave a sound state are those that meet it. -/
theorem arena_sound {defaultAlignment : BitVec w} {s : ArenaRun w}
    (h : ((arenaCalls defaultAlignment).restrict (PaddingFits defaultAlignment)).Reachable s) :
    s.Sound ∧ ∀ op t, (arenaCalls defaultAlignment).step s op t → (t.Sound ↔ PaddingFits defaultAlignment s op) := by
  have hinv : s.Inv := by
    refine h.invariant ⟨fun _ => ArenaRun.Initial.inv, fun u op v hu huv => ?_⟩
    rcases hu.step huv.1 with ⟨hv, -⟩ | ⟨-, hno⟩
    · exact hv
    · exact absurd huv.2 hno
  refine ⟨hinv.sound, fun op t ht => ?_⟩
  rcases hinv.step ht with ⟨ht', hyes⟩ | ⟨ht', hno⟩
  · exact ⟨fun _ => hyes, fun _ => ht'.sound⟩
  · exact ⟨fun hok => absurd hok ht', fun hok => absurd hok hno⟩

/-- An eight-byte buffer that starts one byte past a multiple of sixteen. -/
def smallArena : Arena 64 where
  buf := 4097
  cap := 8
  offset := 0
  prevOffset := 0
  allocator := ⟨none, false⟩

theorem smallArena_initial : (arenaCalls (16 : BitVec 64)).init ⟨smallArena, [], false⟩ :=
  ⟨Or.inr ⟨4097, 8, rfl⟩, by decide, rfl, rfl⟩

/-- Two bytes at alignment two, a rewind, and one byte at alignment four: the padding fits each time. -/
theorem arena_sound_smallArena : ∃ s : ArenaRun 64, s.live = [⟨4100, 1, 4⟩] ∧ s.arena.offset = 4 ∧ s.Sound ∧
    ∀ op t, (arenaCalls (16 : BitVec 64)).step s op t → (t.Sound ↔ PaddingFits 16 s op) := by
  have hfirst : ((arenaCalls (16 : BitVec 64)).restrict (PaddingFits 16)).step ⟨smallArena, [], false⟩
      (.allocAligned 2 2) ⟨{ smallArena with offset := 3 }, [⟨4098, 2, 2⟩], true⟩ := ⟨rfl, fun _ => Or.inl (by decide)⟩
  have hrewind : ((arenaCalls (16 : BitVec 64)).restrict (PaddingFits 16)).step
      ⟨{ smallArena with offset := 3 }, [⟨4098, 2, 2⟩], true⟩ .rewind ⟨smallArena, [], false⟩ := ⟨rfl, trivial⟩
  have hsecond : ((arenaCalls (16 : BitVec 64)).restrict (PaddingFits 16)).step ⟨smallArena, [], false⟩
      (.allocAligned 1 4) ⟨{ smallArena with offset := 4 }, [⟨4100, 1, 4⟩], true⟩ := ⟨rfl, fun _ => Or.inl (by decide)⟩
  have hrun := ((Transition.System.Run.single hfirst).snoc hrewind).snoc hsecond
  exact ⟨_, rfl, rfl, arena_sound ⟨_, _, smallArena_initial, hrun⟩⟩

/-- One byte from that buffer at the alignment of sixteen is returned at the address seven past its end. -/
theorem arena_overrun : ∃ s, (arenaCalls (16 : BitVec 64)).Reachable s ∧ s.live = [⟨4112, 1, 16⟩] ∧
    s.arena.offset = 16 ∧ s.arena.cap = 8 ∧ ¬ s.Sound := by
  have hstep : (arenaCalls (16 : BitVec 64)).step ⟨smallArena, [], false⟩ (.alloc 1) _ := rfl
  refine ⟨_, ⟨_, _, smallArena_initial, Transition.System.Run.single hstep⟩, rfl, rfl, rfl, fun hbad => ?_⟩
  exact absurd hbad.fits (by decide)

end Copper
