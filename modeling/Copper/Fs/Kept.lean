import Copper.Foundation.Separated
import Copper.Fs.Normalize

/-!
# What the buffer and the stack of `cpr_normalize_path` hold

On POSIX the buffer spells the components that are kept (`Kept`): some `..`, then names. The stack holds the position before
each name, as long as there is room, so that going back to the top of the stack drops the last of these names and every name
after it. Below them it may hold the position after the last `..`, and going back to that drops nothing (`Tracks.component`).
-/

namespace Copper.Fs

/-- A component that is neither `.` nor `..`. -/
def Ordinary (n : List UInt8) : Prop := n ≠ [] ∧ n ≠ [46] ∧ n ≠ [46, 46] ∧ (47 : UInt8) ∉ n

/-- Components with one `/` between each two of them, after a `/` if the path is absolute. -/
def spell (isAbs : Bool) (ns : List (List UInt8)) : List UInt8 := (if isAbs then [47] else []) ++ [47].intercalate ns

/-- The components that are kept, and what the stack knows of them: whether its bottom is the position after the last `..`,
and the names whose positions it holds. -/
structure Kept where
  dots : Nat := 0
  mark : Bool := false
  tracked : List (List UInt8) := []
  untracked : List (List UInt8) := []

namespace Kept

/-- The `..` that are kept. -/
def front (k : Kept) : List (List UInt8) := List.replicate k.dots [46, 46]

def comps (k : Kept) : List (List UInt8) := k.front ++ k.tracked ++ k.untracked

/-- The number of positions on the stack. -/
def depth (k : Kept) : Nat := k.mark.toNat + k.tracked.length

/-- The positions on the stack. -/
def positions (k : Kept) (isAbs : Bool) : List Nat :=
  (if k.mark then [(spell isAbs k.front).length] else []) ++
    (List.range k.tracked.length).map fun i => (spell isAbs (k.front ++ k.tracked.take i)).length

/-- What a component does to what is kept. -/
def step (isAbs : Bool) (k : Kept) (name : List UInt8) : Kept :=
  if name = [] ∨ name = [46] then k
  else if name = [46, 46] then
    if k.tracked ≠ [] then { k with tracked := k.tracked.dropLast, untracked := [] }
    else if k.mark then { k with mark := false, untracked := [] }
    else if isAbs then k
    else { k with dots := k.dots + 1, mark := true }
  else if k.depth < compEndsMax then { k with tracked := k.tracked ++ [name] }
  else { k with untracked := k.untracked ++ [name] }

/-- The cases of a component. -/
inductive Stepped (isAbs : Bool) (k : Kept) (name : List UInt8) : Kept → Prop where
  | skip (hskip : name = [] ∨ name = [46]) : Stepped isAbs k name k
  | takeBack {init : List (List UInt8)} {last : List UInt8} (hdots : name = [46, 46]) (htracked : k.tracked = init ++ [last]) :
    Stepped isAbs k name { k with tracked := init, untracked := [] }
  | unmark (hdots : name = [46, 46]) (htracked : k.tracked = []) (hmark : k.mark = true) :
    Stepped isAbs k name { k with mark := false, untracked := [] }
  | root (hdots : name = [46, 46]) (htracked : k.tracked = []) (hmark : k.mark = false) (habs : isAbs = true) :
    Stepped isAbs k name k
  | dots (hdots : name = [46, 46]) (htracked : k.tracked = []) (hmark : k.mark = false) (habs : isAbs = false) :
    Stepped isAbs k name { k with dots := k.dots + 1, mark := true }
  | track (hname : name ≠ [] ∧ name ≠ [46] ∧ name ≠ [46, 46]) (hroom : k.depth < compEndsMax) :
    Stepped isAbs k name { k with tracked := k.tracked ++ [name] }
  | overflow (hname : name ≠ [] ∧ name ≠ [46] ∧ name ≠ [46, 46]) (hroom : ¬ k.depth < compEndsMax) :
    Stepped isAbs k name { k with untracked := k.untracked ++ [name] }

/-- A step, case by case. -/
theorem stepped (isAbs : Bool) (k : Kept) (name : List UInt8) : k.Stepped isAbs name (k.step isAbs name) := by
  unfold step
  split
  · exact .skip ‹_›
  · rename_i hskip
    split
    · rename_i hdots
      split
      · rename_i htracked
        obtain ⟨init, last, hinit⟩ := (List.eq_nil_or_concat k.tracked).resolve_left htracked
        rw [List.concat_eq_append] at hinit
        have hcase : k.Stepped isAbs name { k with tracked := init, untracked := [] } := .takeBack hdots hinit
        rwa [hinit, List.dropLast_concat]
      · rename_i htracked
        have htracked := not_not.mp htracked
        split
        · exact .unmark hdots htracked ‹_›
        · rename_i hmark
          have hmark := eq_false_of_ne_true hmark
          split
          · exact .root hdots htracked hmark ‹_›
          · rename_i habs
            exact .dots hdots htracked hmark (eq_false_of_ne_true habs)
    · rename_i hdots
      have hname := not_or.mp hskip
      split
      · exact .track ⟨hname.1, hname.2, hdots⟩ ‹_›
      · exact .overflow ⟨hname.1, hname.2, hdots⟩ ‹_›

/-- Names are ordinary, and one goes untracked only when the stack is full. -/
structure Valid (isAbs : Bool) (k : Kept) : Prop where
  names : ∀ n ∈ k.tracked ++ k.untracked, Ordinary n
  depth : k.depth ≤ compEndsMax
  full : k.untracked ≠ [] → k.depth = compEndsMax
  abs : isAbs = true → k.dots = 0

end Kept

/-- The buffer and the stack of a state. -/
structure Tracks (isAbs : Bool) (k : Kept) (s : NormState) : Prop where
  text : s.text = spell isAbs k.comps
  positions : s.compEnds = k.positions isAbs

/-! ## The buffer -/

namespace NormState

/-- As much text as the cursor says. -/
theorem length_text (s : NormState) : s.text.length = s.out := by
  rw [text, List.length_map, List.length_range]

/-- A byte that is emitted is appended. -/
theorem text_emit (s : NormState) (b : UInt8) : (s.emit b).text = s.text ++ [b] := by
  unfold text emit
  dsimp only
  rw [List.range_succ, List.map_append, List.map_singleton, Function.update_self]
  congr 1
  refine List.map_congr_left fun i hi => Function.update_of_ne ?_ _ _
  exact Nat.ne_of_lt (List.mem_range.mp hi)

/-- Bytes that are copied are appended. -/
theorem text_copy (bytes : List UInt8) : ∀ s : NormState, (s.copy bytes).text = s.text ++ bytes := by
  induction bytes with
  | nil => exact fun s => (List.append_nil _).symm
  | cons b bytes ih =>
    intro s
    rw [copy, List.foldl_cons, ← copy, ih, text_emit, List.append_assoc, List.singleton_append]

/-- Copying leaves the stack. -/
theorem compEnds_copy (bytes : List UInt8) : ∀ s : NormState, (s.copy bytes).compEnds = s.compEnds := by
  induction bytes with
  | nil => exact fun s => rfl
  | cons b bytes ih =>
    intro s
    rw [copy, List.foldl_cons, ← copy, ih, emit]

/-- So does putting in a separator. -/
theorem compEnds_separate (s : NormState) (platform : Platform) : (s.separate platform).compEnds = s.compEnds := by
  unfold separate
  split <;> rfl

/-- A push leaves the text. -/
theorem text_push (s : NormState) (position : Nat) : (s.push position).text = s.text := by
  unfold push
  split <;> rfl

/-- A push leaves the cursor. -/
theorem out_push (s : NormState) (position : Nat) : (s.push position).out = s.out := by
  unfold push
  split <;> rfl

/-- A pop cuts the text. -/
theorem text_pop {s : NormState} {position : Nat} (h : position ≤ s.out) : (s.pop position).text = s.text.take position := by
  rw [text, text, ← List.map_take, List.take_range, Nat.min_eq_left h, pop]

/-- The last byte of the text is the one before the cursor. -/
theorem text_getLast? (s : NormState) : s.text.getLast? = if s.out = 0 then none else some (s.buf (s.out - 1)) := by
  rw [text, List.getLast?_map, List.getLast?_range]
  split <;> rfl

/-- The NUL is no part of the text. -/
theorem text_terminate (s : NormState) (isAbs : Bool) :
    (s.terminate isAbs).text =
      if (s.out = 0 ∨ s.out = 1 ∧ (s.buf 0 = 47 ∨ s.buf 0 = 92)) ∧ isAbs = false then s.text ++ [46] else s.text := by
  have hnul : ∀ s : NormState, ({ s with buf := Function.update s.buf s.out 0, stores := s.stores ++ [s.out] } : NormState).text
      = s.text := by
    intro s
    refine List.map_congr_left fun i hi => Function.update_of_ne ?_ _ _
    exact Nat.ne_of_lt (List.mem_range.mp hi)
  unfold terminate
  rw [hnul]
  split
  · exact text_emit s 46
  · rfl

end NormState

/-! ## The scanner -/

section

variable {platform : Platform} {p : List UInt8}

/-- Each turn of the loop gets through some of the path. -/
theorem length_rest_lt (platform : Platform) (hp : p ≠ []) : (skipSeps platform (spanName platform p).2).length < p.length := by
  unfold skipSeps spanName
  dsimp only
  cases p with
  | nil => exact absurd rfl hp
  | cons c p =>
    cases hc : fsIsSep platform c with
    | false =>
      rw [List.dropWhile_cons_of_pos (by rw [hc]; rfl)]
      exact Nat.lt_succ_of_le ((List.dropWhile_sublist _).trans (List.dropWhile_sublist _)).length_le
    | true =>
      rw [List.dropWhile_cons_of_neg (by rw [hc]; decide), List.dropWhile_cons_of_pos hc]
      exact Nat.lt_succ_of_le (List.dropWhile_sublist _).length_le

/-- What a turn of the loop takes for a component has no separator. -/
theorem isSep_of_mem_spanName {c : UInt8} (hc : c ∈ (spanName platform p).1) : fsIsSep platform c = false := by
  have hname := List.mem_takeWhile_imp hc
  rwa [Bool.not_eq_true'] at hname

/-- A call that returns true has written the result. -/
theorem state_of_result {mem : Nat → UInt8} {bufSize : Nat} {path : List UInt8}
    (h : (normalizePath platform mem (.room bufSize) (some path)).result = true) :
    minOut path ≤ bufSize ∧ (normalizePath platform mem (.room bufSize) (some path)).state = normalized platform mem path := by
  unfold normalizePath at *
  dsimp only at *
  split at h
  · cases h
  · split at h
    · cases h
    · rename_i hzero hsize
      rw [if_neg hzero, if_neg hsize]
      exact ⟨Nat.not_lt.mp hsize, rfl⟩

end

/-! ## Spelling -/

/-- No names spell the root, or nothing. -/
theorem spell_nil (isAbs : Bool) : spell isAbs [] = if isAbs then [47] else [] := by
  rw [spell, List.intercalate_nil, List.append_nil]

/-- One name more. -/
theorem spell_concat (isAbs : Bool) (ns : List (List UInt8)) (n : List UInt8) :
    spell isAbs (ns ++ [n]) = spell isAbs ns ++ (if ns = [] then [] else [47]) ++ n := by
  simp only [spell, Separated.intercalate_concat, List.append_assoc]

/-- The first names spell the beginning. -/
theorem spell_isPrefix (isAbs : Bool) (ns ms : List (List UInt8)) : spell isAbs ns <+: spell isAbs (ns ++ ms) :=
  (List.prefix_append_right_inj _).mpr (Separated.intercalate_isPrefix 47 ns ms)

/-- A spelling that ends where a name does not. -/
theorem getLast?_spell (isAbs : Bool) {ns : List (List UInt8)} (hns : ns ≠ []) (h : ∀ n ∈ ns, n ≠ [] ∧ (47 : UInt8) ∉ n) :
    ∃ c, (spell isAbs ns).getLast? = some c ∧ c ≠ 47 := by
  obtain ⟨c, hc, hne⟩ := Separated.getLast?_intercalate hns h
  refine ⟨c, ?_, hne⟩
  rw [spell, List.getLast?_append, hc]
  rfl

namespace Kept

variable {isAbs : Bool} {k : Kept}

/-- There are as many positions as the stack is deep. -/
theorem length_positions : (k.positions isAbs).length = k.depth := by
  rw [positions, List.length_append, List.length_map, List.length_range, depth]
  cases k.mark <;> rfl

/-- What is kept are names. -/
theorem Valid.comps (h : k.Valid isAbs) : ∀ n ∈ k.comps, n ≠ [] ∧ (47 : UInt8) ∉ n := by
  intro n hn
  rw [Kept.comps, List.append_assoc] at hn
  rcases List.mem_append.mp hn with hn | hn
  · rw [List.eq_of_mem_replicate hn]
    decide
  · exact ⟨(h.names n hn).1, (h.names n hn).2.2.2⟩

/-- There is room on the stack: every name is tracked. -/
theorem Valid.untracked (h : k.Valid isAbs) (hroom : k.depth < compEndsMax) : k.untracked = [] := by
  by_contra hne
  exact absurd (h.full hne) (Nat.ne_of_lt hroom)

end Kept

/-- A separator is needed just if names stand before. -/
theorem NormState.needsSep_iff {s : NormState} {isAbs : Bool} {ns : List (List UInt8)} (htext : s.text = spell isAbs ns)
    (h : ∀ n ∈ ns, n ≠ [] ∧ (47 : UInt8) ∉ n) : s.needsSep .posix = true ↔ ns ≠ [] := by
  have hlast := s.text_getLast?
  rw [htext] at hlast
  unfold needsSep
  by_cases hns : ns = []
  · rw [hns, spell_nil] at hlast
    cases isAbs <;> by_cases hout : s.out = 0 <;> simp_all [fsIsSep]
  · obtain ⟨c, hc, hne⟩ := getLast?_spell isAbs hns h
    rw [hc] at hlast
    by_cases hout : s.out = 0
    · rw [if_pos hout] at hlast
      cases hlast
    · rw [if_neg hout, Option.some.injEq] at hlast
      simp [hout, fsIsSep, ← hlast, hne, hns]

/-- A separator where one is needed, and a name, spell one more component. -/
theorem NormState.text_append {s : NormState} {isAbs : Bool} {ns : List (List UInt8)} (htext : s.text = spell isAbs ns)
    (h : ∀ n ∈ ns, n ≠ [] ∧ (47 : UInt8) ∉ n) (name : List UInt8) :
    ((s.separate .posix).copy name).text = spell isAbs (ns ++ [name]) := by
  rw [text_copy, spell_concat]
  congr 1
  unfold separate
  by_cases hns : ns = []
  · rw [if_neg (fun hn => (needsSep_iff htext h).mp hn hns), htext, if_pos hns, List.append_nil]
  · rw [if_pos ((needsSep_iff htext h).mpr hns), text_emit, htext, if_neg hns]
    rfl

/-! ## One component -/

namespace Kept

variable {isAbs : Bool} {k : Kept}

/-- The position of one more name is on top. -/
theorem positions_concat (tracked : List (List UInt8)) (name : List UInt8) (untracked : List (List UInt8)) :
    Kept.positions { k with tracked := tracked ++ [name], untracked := untracked } isAbs
      = Kept.positions { k with tracked := tracked, untracked := [] } isAbs ++ [(spell isAbs (k.front ++ tracked)).length] := by
  unfold positions
  dsimp only
  rw [List.length_append, List.length_singleton, List.range_succ, List.map_append, List.map_singleton, ← List.append_assoc,
    List.take_left]
  congr 2
  refine List.map_congr_left fun i hi => ?_
  rw [List.take_append_of_le_length (Nat.le_of_lt (List.mem_range.mp hi))]
  rfl

/-- Where nothing is tracked there is at most the mark. -/
theorem positions_of_empty (htracked : k.tracked = []) :
    k.positions isAbs = if k.mark then [(spell isAbs k.front).length] else [] := by
  rw [positions, htracked]
  exact List.append_nil _

/-- And the stack has room. -/
theorem depth_of_empty (htracked : k.tracked = []) : k.depth < compEndsMax := by
  unfold depth
  rw [htracked]
  cases k.mark <;> decide

/-- And what is kept is the front. -/
theorem Valid.comps_of_empty (h : k.Valid isAbs) (htracked : k.tracked = []) : k.comps = k.front := by
  rw [Kept.comps, htracked, h.untracked (depth_of_empty htracked), List.append_nil, List.append_nil]

/-- What a component does keeps the invariant. -/
theorem Valid.step (h : k.Valid isAbs) {name : List UInt8} (hsep : (47 : UInt8) ∉ name) : (k.step isAbs name).Valid isAbs := by
  have hcase := k.stepped isAbs name
  generalize k.step isAbs name = k' at hcase
  cases hcase with
  | skip => exact h
  | root => exact h
  | @takeBack init last hdots htracked =>
    refine ⟨fun n hn => h.names n ?_, ?_, fun hne => absurd rfl hne, h.abs⟩
    · rw [List.append_nil] at hn
      rw [htracked, List.append_assoc]
      exact List.mem_append_left _ hn
    · have hdepth := h.depth
      unfold Kept.depth at *
      rw [htracked, List.length_append] at hdepth
      exact (Nat.add_le_add_left (Nat.le_add_right _ _) _).trans hdepth
  | unmark hdots htracked hmark =>
    refine ⟨fun n hn => h.names n (List.mem_append_left _ (by simpa using hn)), ?_, fun hne => absurd rfl hne, h.abs⟩
    unfold Kept.depth
    rw [htracked]
    exact Nat.zero_le _
  | dots hdots htracked hmark habs =>
    refine ⟨h.names, ?_, fun hne => absurd (h.untracked (depth_of_empty htracked)) hne, fun hne => ?_⟩
    · unfold Kept.depth
      rw [htracked]
      exact Nat.le_of_ble_eq_true rfl
    · cases habs.symm.trans hne
  | track hname hroom =>
    refine ⟨fun n hn => ?_, ?_, fun hne => absurd (h.untracked hroom) hne, h.abs⟩
    · rw [h.untracked hroom, List.append_nil] at hn
      rcases List.mem_append.mp hn with hn | hn
      · exact h.names n (List.mem_append_left _ hn)
      · rw [List.mem_singleton.mp hn]
        exact ⟨hname.1, hname.2.1, hname.2.2, hsep⟩
    · unfold Kept.depth at *
      rw [List.length_append, List.length_singleton]
      exact hroom
  | overflow hname hroom =>
    refine ⟨fun n hn => ?_, h.depth, fun _ => Nat.le_antisymm h.depth (Nat.not_lt.mp hroom), h.abs⟩
    rw [← List.append_assoc] at hn
    rcases List.mem_append.mp hn with hn | hn
    · exact h.names n hn
    · rw [List.mem_singleton.mp hn]
      exact ⟨hname.1, hname.2.1, hname.2.2, hsep⟩

end Kept

section

variable {isAbs : Bool} {k : Kept} {s : NormState}

/-- Going back to a position on the stack. -/
theorem Tracks.pop (hs : Tracks isAbs k s) {k' : Kept} {position : Nat} (ms : List (List UInt8))
    (hcomps : k.comps = k'.comps ++ ms) (hposition : position = (spell isAbs k'.comps).length)
    (hpositions : k.positions isAbs = k'.positions isAbs ++ [position]) :
    position ≤ s.out ∧ Tracks isAbs k' (s.pop position) := by
  have hprefix : spell isAbs k'.comps <+: s.text := by
    rw [hs.text, hcomps]
    exact spell_isPrefix isAbs _ _
  have hle : position ≤ s.out := by
    rw [hposition, ← s.length_text]
    exact hprefix.length_le
  refine ⟨hle, ?_, ?_⟩
  · rw [NormState.text_pop hle, hposition]
    exact (List.prefix_iff_eq_take.mp hprefix).symm
  · rw [NormState.pop, hs.positions, hpositions, List.dropLast_concat]

/-- A position that there is room for. -/
theorem NormState.push_of_lt {s : NormState} (h : s.compEnds.length < compEndsMax) (position : Nat) :
    (s.push position).compEnds = s.compEnds ++ [position] := by
  rw [push, if_pos h]

/-- A push to a full stack is dropped. -/
theorem NormState.push_of_not_lt {s : NormState} (h : ¬ s.compEnds.length < compEndsMax) (position : Nat) : s.push position = s :=
  if_neg h

/-- A `..`, when the stack has a position to go back to. -/
theorem NormState.component_pop {s : NormState} {platform : Platform} {position : Nat}
    (hlast : s.compEnds.getLast? = some position) : s.component platform isAbs [46, 46] = s.pop position := by
  rw [component, if_neg (by decide), if_pos rfl, hlast]

/-- A `..`, when it has not. -/
theorem NormState.component_dots {s : NormState} {platform : Platform} (hlast : s.compEnds = []) :
    s.component platform isAbs [46, 46]
      = if isAbs then s
        else ((s.separate platform).copy [46, 46]).push ((s.separate platform).copy [46, 46]).out := by
  rw [component, if_neg (by decide), if_pos rfl, hlast]
  rfl

/-- A name is separated, copied and pushed. -/
theorem NormState.component_name {s : NormState} {platform : Platform} {name : List UInt8}
    (hname : name ≠ [] ∧ name ≠ [46] ∧ name ≠ [46, 46]) :
    s.component platform isAbs name = ((s.separate platform).copy name).push s.out := by
  rw [component, if_neg (not_or.mpr ⟨hname.1, hname.2.1⟩), if_neg hname.2.2]

/-- Putting in a name leaves the stack. -/
theorem NormState.compEnds_append (s : NormState) (platform : Platform) (name : List UInt8) :
    ((s.separate platform).copy name).compEnds = s.compEnds := by
  rw [compEnds_copy, compEnds_separate]

/-- The last name whose position is on the stack is taken back, and every name after it. -/
theorem Tracks.takeBack (hs : Tracks isAbs k s) {init : List (List UInt8)} {last : List UInt8}
    (htracked : k.tracked = init ++ [last]) :
    Tracks isAbs { k with tracked := init, untracked := [] } (s.component .posix isAbs [46, 46]) := by
  have hpositions := @Kept.positions_concat isAbs k init last k.untracked
  rw [← htracked] at hpositions
  have hlast : s.compEnds.getLast? = some (spell isAbs (k.front ++ init)).length := by
    rw [hs.positions, hpositions, List.getLast?_concat]
  rw [NormState.component_pop hlast]
  refine (hs.pop ([last] ++ k.untracked) ?_ ?_ hpositions).2
  · simp only [Kept.comps, Kept.front, htracked, List.append_nil, List.append_assoc]
  · simp only [Kept.comps, Kept.front, List.append_nil]

/-- Going back to the position after the last `..` drops nothing. -/
theorem Tracks.unmark (hk : k.Valid isAbs) (hs : Tracks isAbs k s) (htracked : k.tracked = []) (hmark : k.mark = true) :
    Tracks isAbs { k with mark := false, untracked := [] } (s.component .posix isAbs [46, 46]) := by
  have hcomps := hk.comps_of_empty htracked
  have hpositions : k.positions isAbs = [(spell isAbs k.front).length] := by rw [Kept.positions_of_empty htracked, if_pos hmark]
  have hlast : s.compEnds.getLast? = some (spell isAbs k.front).length := by
    rw [hs.positions, hpositions]
    rfl
  rw [NormState.component_pop hlast]
  refine (hs.pop [] ?_ ?_ ?_).2
  · rw [hcomps, List.append_nil]
    simp only [Kept.comps, htracked, List.append_nil]
    rfl
  · simp only [Kept.comps, htracked, List.append_nil]
    rfl
  · rw [hpositions]
    simp only [Kept.positions, htracked]
    rfl

/-- A `..` is kept, and the position after it is put on the stack. -/
theorem Tracks.dots (hk : k.Valid false) (hs : Tracks false k s) (htracked : k.tracked = []) (hmark : k.mark = false) :
    Tracks false { k with dots := k.dots + 1, mark := true } (s.component .posix false [46, 46]) := by
  have hcomps := hk.comps_of_empty htracked
  have hempty : s.compEnds = [] := by
    rw [hs.positions, Kept.positions_of_empty htracked, hmark]
    rfl
  have hends := (s.compEnds_append .posix [46, 46]).trans hempty
  have htext := NormState.text_append hs.text hk.comps [46, 46]
  have hfront : k.comps ++ [[46, 46]] = List.replicate (k.dots + 1) [46, 46] := by
    rw [hcomps, List.replicate_succ']
    rfl
  rw [NormState.component_dots hempty, if_neg Bool.false_ne_true]
  refine ⟨?_, ?_⟩
  · rw [NormState.text_push, htext, hfront]
    simp only [Kept.comps, htracked, hk.untracked (Kept.depth_of_empty htracked), List.append_nil]
    rfl
  · rw [NormState.push_of_lt (by rw [hends]; decide), hends, ← NormState.length_text, htext, hfront]
    simp only [Kept.positions, htracked]
    rfl

/-- A name that there is room for. -/
theorem Tracks.track (hk : k.Valid isAbs) (hs : Tracks isAbs k s) {name : List UInt8}
    (hname : name ≠ [] ∧ name ≠ [46] ∧ name ≠ [46, 46]) (hroom : k.depth < compEndsMax) :
    Tracks isAbs { k with tracked := k.tracked ++ [name] } (s.component .posix isAbs name) := by
  have htext := NormState.text_append hs.text hk.comps name
  have hends := s.compEnds_append .posix name
  have huntracked := hk.untracked hroom
  have hpositions := @Kept.positions_concat isAbs k k.tracked name k.untracked
  rw [NormState.component_name hname]
  refine ⟨?_, ?_⟩
  · rw [NormState.text_push, htext]
    simp only [Kept.comps, Kept.front, huntracked, List.append_nil, List.append_assoc]
  · rw [NormState.push_of_lt (by rwa [hends, hs.positions, Kept.length_positions]), hends, hs.positions, hpositions,
      ← NormState.length_text, hs.text]
    simp only [Kept.comps, huntracked, List.append_nil]
    rfl

/-- A name that there is none for. -/
theorem Tracks.overflow (hk : k.Valid isAbs) (hs : Tracks isAbs k s) {name : List UInt8}
    (hname : name ≠ [] ∧ name ≠ [46] ∧ name ≠ [46, 46]) (hroom : ¬ k.depth < compEndsMax) :
    Tracks isAbs { k with untracked := k.untracked ++ [name] } (s.component .posix isAbs name) := by
  have hends := s.compEnds_append .posix name
  rw [NormState.component_name hname,
    NormState.push_of_not_lt (by rwa [hends, hs.positions, Kept.length_positions])]
  refine ⟨?_, hends.trans hs.positions⟩
  rw [NormState.text_append hs.text hk.comps name]
  simp only [Kept.comps, Kept.front, List.append_assoc]

/-- The loop does to the buffer and the stack what a component does to what is kept. -/
theorem Tracks.component (hk : k.Valid isAbs) (hs : Tracks isAbs k s) (name : List UInt8) :
    Tracks isAbs (k.step isAbs name) (s.component .posix isAbs name) := by
  have hcase := k.stepped isAbs name
  generalize k.step isAbs name = k' at hcase
  cases hcase with
  | skip hskip =>
    rw [NormState.component, if_pos hskip]
    exact hs
  | takeBack hdots htracked =>
    rw [hdots]
    exact hs.takeBack htracked
  | unmark hdots htracked hmark =>
    rw [hdots]
    exact hs.unmark hk htracked hmark
  | root hdots htracked hmark habs =>
    have hempty : s.compEnds = [] := by
      rw [hs.positions, Kept.positions_of_empty htracked, hmark]
      rfl
    rw [hdots, NormState.component_dots hempty, if_pos habs]
    exact hs
  | dots hdots htracked hmark habs =>
    subst habs
    rw [hdots]
    exact hs.dots hk htracked hmark
  | track hname hroom => exact hs.track hk hname hroom
  | overflow hname hroom => exact hs.overflow hk hname hroom

end

end Copper.Fs
