import Copper.Fs.Lexical

/-!
# Where `cpr_normalize_path` writes

The size check looks at the length of the path only. While the loop runs, the cursor, the separator that the next component
may need, and what is left of the path do not together exceed that length (`within_normalizeLoop`), so that all stores are
within it. After the loop there is room for the NUL, and for the `.` of an empty result; but a path that is a lone backslash
has filled a buffer that is just large enough for it, and is taken for an empty result (`normalize_in_bounds_iff`).
-/

namespace Copper.Fs

/-! ## Stores below a limit -/

/-- Every store is below the limit, the cursor never was past it, and every slot of the stack is one of its own. -/
structure Within (limit : Nat) (s : NormState) : Prop where
  stores : ∀ i ∈ s.stores, i < limit
  cursors : ∀ i ∈ s.cursors, i ≤ limit
  slots : ∀ i ∈ s.slots, i < compEndsMax
  depth : s.compEnds.length ≤ compEndsMax

namespace NormState

/-- A byte that is emitted moves the cursor. -/
theorem out_emit (s : NormState) (b : UInt8) : (s.emit b).out = s.out + 1 := rfl

/-- A pop moves it back. -/
theorem out_pop (s : NormState) (position : Nat) : (s.pop position).out = position := rfl

/-- Bytes that are copied move it. -/
theorem out_copy (bytes : List UInt8) : ∀ s : NormState, (s.copy bytes).out = s.out + bytes.length := by
  induction bytes with
  | nil => exact fun s => rfl
  | cons b bytes ih =>
    intro s
    rw [copy, List.foldl_cons, ← copy, ih, out_emit, List.length_cons, Nat.add_right_comm, Nat.add_assoc]

/-- A separator moves it where one is needed. -/
theorem out_separate (s : NormState) (platform : Platform) : (s.separate platform).out = s.out + (s.needsSep platform).toNat := by
  unfold separate
  cases s.needsSep platform <;> rfl

end NormState

namespace Within

variable {limit : Nat} {s : NormState}

/-- A byte below the limit is stored within it. -/
theorem emit (hs : Within limit s) (h : s.out < limit) (b : UInt8) : Within limit (s.emit b) where
  stores := List.forall_mem_append.mpr ⟨hs.stores, List.forall_mem_singleton.mpr h⟩
  cursors := List.forall_mem_append.mpr ⟨hs.cursors, List.forall_mem_singleton.mpr h⟩
  slots := hs.slots
  depth := hs.depth

/-- By induction on the bytes. -/
theorem copy (bytes : List UInt8) : ∀ s, Within limit s → s.out + bytes.length ≤ limit → Within limit (s.copy bytes) := by
  induction bytes with
  | nil => exact fun s hs _ => hs
  | cons b bytes ih =>
    intro s hs h
    rw [List.length_cons] at h
    refine ih (s.emit b) (hs.emit (by omega) b) ?_
    rw [NormState.out_emit]
    omega

/-- So is a separator. -/
theorem separate (hs : Within limit s) {platform : Platform} (h : s.out + (s.needsSep platform).toNat ≤ limit) :
    Within limit (s.separate platform) := by
  unfold NormState.separate
  split
  · rename_i hsep
    rw [hsep] at h
    exact hs.emit h _
  · exact hs

/-- A separator where one is needed, and a name. -/
theorem append (hs : Within limit s) {platform : Platform} {name : List UInt8}
    (h : s.out + (s.needsSep platform).toNat + name.length ≤ limit) : Within limit ((s.separate platform).copy name) :=
  copy name _ (hs.separate (by omega)) (by rwa [NormState.out_separate])

/-- A push stays within the stack. -/
theorem push (hs : Within limit s) (position : Nat) : Within limit (s.push position) := by
  unfold NormState.push
  split
  · rename_i hroom
    refine ⟨hs.stores, hs.cursors, List.forall_mem_append.mpr ⟨hs.slots, List.forall_mem_singleton.mpr hroom⟩, ?_⟩
    rw [List.length_append, List.length_singleton]
    exact hroom
  · exact hs

/-- A pop moves the cursor back within the limit. -/
theorem pop (hs : Within limit s) {position : Nat} (h : position ≤ limit) : Within limit (s.pop position) where
  stores := hs.stores
  cursors := List.forall_mem_append.mpr ⟨hs.cursors, List.forall_mem_singleton.mpr h⟩
  slots := by
    refine List.forall_mem_append.mpr ⟨hs.slots, List.forall_mem_singleton.mpr ?_⟩
    have hdepth := hs.depth
    unfold compEndsMax at *
    omega
  depth := by
    rw [NormState.pop, List.length_dropLast]
    exact (Nat.sub_le _ _).trans hs.depth

end Within

/-! ## One component -/

section

variable {isAbs : Bool} {k : Kept} {s : NormState} {limit : Nat}

/-- No position on the stack is past the end of what is spelled. -/
theorem Kept.positions_le {position : Nat} (h : position ∈ k.positions isAbs) : position ≤ (spell isAbs k.comps).length := by
  have hle : ∀ ns ms, k.comps = ns ++ ms → (spell isAbs ns).length ≤ (spell isAbs k.comps).length := by
    intro ns ms hcomps
    rw [hcomps]
    exact (spell_isPrefix isAbs ns ms).length_le
  rcases List.mem_append.mp h with h | h
  · cases hmark : k.mark with
    | false =>
      rw [hmark] at h
      exact absurd h List.not_mem_nil
    | true =>
      rw [hmark] at h
      rw [List.mem_singleton.mp h]
      exact hle k.front _ (List.append_assoc _ _ _)
  · obtain ⟨i, -, rfl⟩ := List.mem_map.mp h
    refine hle (k.front ++ k.tracked.take i) (k.tracked.drop i ++ k.untracked) ?_
    rw [List.append_assoc, ← List.append_assoc (k.tracked.take i), List.take_append_drop, Kept.comps, List.append_assoc]

/-- Going back to the top of the stack does not move the cursor on. -/
theorem Tracks.top_le (hs : Tracks isAbs k s) {position : Nat} (h : s.compEnds.getLast? = some position) : position ≤ s.out := by
  rw [← s.length_text, hs.text]
  refine Kept.positions_le ?_
  rw [← hs.positions]
  exact List.mem_of_getLast? h

/-- A component moves the cursor on by no more than its length, and a separator. -/
theorem Within.component (hs : Within limit s) (htracks : Tracks isAbs k s) {name : List UInt8}
    (h : s.out + (s.needsSep .posix).toNat + name.length ≤ limit) :
    Within limit (s.component .posix isAbs name) ∧
      (s.component .posix isAbs name).out ≤ s.out + (s.needsSep .posix).toNat + name.length := by
  unfold NormState.component
  split
  · exact ⟨hs, by omega⟩
  · split
    · rename_i hdots
      subst hdots
      split
      · rename_i position htop
        have hle := htracks.top_le htop
        refine ⟨hs.pop (by omega), ?_⟩
        rw [NormState.out_pop]
        omega
      · split
        · exact ⟨hs, by omega⟩
        · refine ⟨(hs.append h).push _, ?_⟩
          rw [NormState.out_push, NormState.out_copy, NormState.out_separate]
    · refine ⟨(hs.append h).push _, ?_⟩
      rw [NormState.out_push, NormState.out_copy, NormState.out_separate]

end

/-! ## The loop -/

/-- A turn of the loop consumes its component, and a separator if anything is left after it. -/
theorem length_rest_add {p : List UInt8} (hrest : skipSeps .posix (spanName .posix p).2 ≠ []) :
    (spanName .posix p).1.length + 1 + (skipSeps .posix (spanName .posix p).2).length ≤ p.length := by
  have hspan : (spanName .posix p).1.length + (spanName .posix p).2.length = p.length := by
    rw [← List.length_append, spanName, List.takeWhile_append_dropWhile]
  cases hcons : (spanName .posix p).2 with
  | nil =>
    rw [hcons] at hrest
    exact absurd rfl hrest
  | cons c rest =>
    have hsep : fsIsSep .posix c = true := by
      have hnot := List.head?_dropWhile_not (fun c => !fsIsSep .posix c) p
      have hdrop : p.dropWhile (fun c => !fsIsSep .posix c) = c :: rest := hcons
      rw [hdrop, List.head?_cons] at hnot
      simpa using hnot
    rw [skipSeps, List.dropWhile_cons_of_pos hsep]
    have hle := (List.dropWhile_sublist (l := rest) (fsIsSep .posix)).length_le
    rw [hcons, List.length_cons] at hspan
    omega

section

variable {isAbs : Bool} {limit : Nat}

/-- By induction on the turns: the cursor, a separator and what is left of the path do not exceed the limit. -/
theorem within_normalizeLoop (fuel : Nat) : ∀ p k s, k.Valid isAbs → Tracks isAbs k s → Within limit s → s.out ≤ limit →
    (p ≠ [] → s.out + (s.needsSep .posix).toNat + p.length ≤ limit) →
    Within limit (normalizeLoop .posix isAbs fuel p s) ∧ (normalizeLoop .posix isAbs fuel p s).out ≤ limit := by
  induction fuel with
  | zero => exact fun _ _ _ _ _ hs hout _ => ⟨hs, hout⟩
  | succ fuel ih =>
    intro p k s hk htracks hs hout hroom
    rw [normalizeLoop]
    by_cases hp : p = []
    · rw [if_pos hp]
      exact ⟨hs, hout⟩
    · rw [if_neg hp]
      have hname : (spanName .posix p).1.length ≤ p.length := (List.takeWhile_sublist _).length_le
      have hlength := length_rest_add (p := p)
      have hsep := not_mem_spanName p
      have hroom := hroom hp
      generalize spanName .posix p = span at *
      have hfits : s.out + (s.needsSep .posix).toNat + span.1.length ≤ limit := by omega
      obtain ⟨hwithin, hmoved⟩ := hs.component htracks hfits
      refine ih _ _ _ (hk.step hsep) (htracks.component hk _) hwithin (by omega) fun hrest => ?_
      have hlength := hlength hrest
      have hone := Bool.toNat_le ((s.component .posix isAbs span.1).needsSep .posix)
      omega

end

/-- The loop stays within the length of the path. -/
theorem within_looped (mem : Nat → UInt8) (path : List UInt8) :
    Within path.length (looped mem path) ∧ (looped mem path).out ≤ path.length := by
  have hempty : ∀ limit, Within limit { buf := mem } := fun limit =>
    ⟨fun _ hi => absurd hi List.not_mem_nil, fun _ hi => absurd hi List.not_mem_nil, fun _ hi => absurd hi List.not_mem_nil,
      Nat.zero_le _⟩
  unfold looped
  cases habs : pathIsAbs .posix (some path) with
  | false =>
    simp only [Bool.false_eq_true, if_false]
    refine within_normalizeLoop _ _ _ _ valid_empty ⟨rfl, rfl⟩ (hempty _) (Nat.zero_le _) fun _ => ?_
    exact Nat.le_of_eq (Nat.zero_add _)
  | true =>
    simp only [if_true, normalizePrefix]
    cases path with
    | nil => exact absurd habs (by decide)
    | cons c path =>
      rw [pathIsAbs, decide_eq_true_eq, List.getElem?_cons_zero, Option.some.injEq] at habs
      have hskip : (skipSeps .posix (c :: path)).length ≤ path.length := by
        rw [skipSeps, List.dropWhile_cons_of_pos (by rw [habs]; rfl)]
        exact (List.dropWhile_sublist _).length_le
      have hneeds : ({ buf := mem : NormState }.emit 47).needsSep .posix = false := by
        unfold NormState.needsSep NormState.emit
        simp [fsIsSep]
      have htext : ({ buf := mem : NormState }.emit 47).text = spell true [] := NormState.text_emit _ _
      refine within_normalizeLoop _ _ _ _ valid_empty ⟨htext, rfl⟩ ((hempty _).emit (Nat.succ_pos _) 47)
        (Nat.succ_le_succ (Nat.zero_le _)) fun _ => ?_
      rw [hneeds, NormState.out_emit, List.length_cons, Bool.toNat_false]
      dsimp only
      omega

/-! ## The end of the result -/

/-- The NUL is within the buffer, and so is the `.` of an empty result if there is room for it. -/
theorem Within.terminate {isAbs : Bool} {s : NormState} {limit bufSize : Nat} (hs : Within limit s) (hout : s.out ≤ limit)
    (hlimit : limit < bufSize)
    (hroom : (s.out = 0 ∨ s.out = 1 ∧ (s.buf 0 = 47 ∨ s.buf 0 = 92)) ∧ isAbs = false → s.out + 1 < bufSize) :
    (∀ i ∈ (s.terminate isAbs).stores, i < bufSize) ∧ (∀ i ∈ (s.terminate isAbs).cursors, i < bufSize) ∧
      ∀ i ∈ (s.terminate isAbs).slots, i < compEndsMax := by
  have hstores : ∀ i ∈ s.stores, i < bufSize := fun i hi => (hs.stores i hi).trans hlimit
  have hcursors : ∀ i ∈ s.cursors, i < bufSize := fun i hi => (hs.cursors i hi).trans_lt hlimit
  have hlast : s.out < bufSize := hout.trans_lt hlimit
  unfold NormState.terminate
  split
  · rename_i hblank
    have hdot := hroom hblank
    refine ⟨?_, ?_, hs.slots⟩
    · exact List.forall_mem_append.mpr
        ⟨List.forall_mem_append.mpr ⟨hstores, List.forall_mem_singleton.mpr hlast⟩, List.forall_mem_singleton.mpr hdot⟩
    · exact List.forall_mem_append.mpr ⟨hcursors, List.forall_mem_singleton.mpr hdot⟩
  · exact ⟨List.forall_mem_append.mpr ⟨hstores, List.forall_mem_singleton.mpr hlast⟩, hcursors, hs.slots⟩

/-- Of the paths of one byte, a backslash is the one that is kept as one. -/
theorem eq_backslash_of_kept {c : UInt8} (h : (kept false [c]).comps = [[92]]) : c = 92 := by
  by_cases hsep : c = 47
  · rw [hsep] at h
    exact absurd h (by decide)
  · by_cases hdot : c = 46
    · rw [hdot] at h
      exact absurd h (by decide)
    · have hsplit : ([47].intercalate [[c]]).splitOn 47 = [[c]] := by
        refine List.splitOn_intercalate 47 (fun n hn => ?_) (List.cons_ne_nil _ _)
        rw [List.mem_singleton.mp hn, List.mem_singleton]
        exact fun h47 => hsep h47.symm
      have hnames : Separated.names 47 [c] = [[c]] := by
        rw [Separated.names, show [c].splitOn 47 = [[c]] from hsplit]
        rfl
      rw [kept, hnames] at h
      simpa [Kept.step, Kept.comps, Kept.front, hdot, Kept.depth, compEndsMax] using h

/-- On POSIX, for every path that passes the size check: every store and every position of the cursor is within the buffer,
and every slot of the stack one of its own, exactly when the path is not a lone backslash in a buffer of two bytes. -/
theorem normalize_in_bounds_iff {mem : Nat → UInt8} {bufSize : Nat} {path : List UInt8} (h : minOut path ≤ bufSize) :
    let s := (normalizePath .posix mem (.room bufSize) (some path)).state
    (∀ i ∈ s.stores, i < bufSize) ∧ (∀ i ∈ s.cursors, i < bufSize) ∧ (∀ i ∈ s.slots, i < compEndsMax) ↔
      ¬ (path = [92] ∧ bufSize = 2) := by
  intro s
  have htwo : 2 ≤ bufSize := by
    unfold minOut at h
    split at h <;> omega
  have hlength : path.length < bufSize := by
    unfold minOut at h
    split at h <;> omega
  have hstate : s = (looped mem path).terminate (pathIsAbs .posix (some path)) := by
    have hzero : bufSize ≠ 0 := by omega
    simp only [s, normalizePath, if_neg hzero, if_neg (Nat.not_lt.mpr h)]
    rfl
  rw [hstate]
  by_cases hfull : path = [92] ∧ bufSize = 2
  · refine iff_of_false (fun hin => ?_) (not_not.mpr hfull)
    obtain ⟨rfl, rfl⟩ := hfull
    have hpast : 2 ∈ ((looped mem [92]).terminate (pathIsAbs .posix (some [92]))).stores := List.mem_of_getLast? rfl
    exact Nat.lt_irrefl 2 (hin.1 2 hpast)
  · refine iff_of_true ?_ hfull
    obtain ⟨hwithin, hout⟩ := within_looped mem path
    obtain ⟨hk, htracks⟩ := tracks_looped mem path
    refine hwithin.terminate hout hlength fun hblank => ?_
    by_cases hempty : (looped mem path).out = 0
    · rw [hempty]
      exact htwo
    · have hone : (looped mem path).out = 1 := (hblank.1.resolve_left hempty).1
      have habs := hblank.2
      have hcomps := ((htracks.blank_iff hk).mp hblank).2
      rw [habs] at hk htracks hcomps
      have hnil : (kept false path).comps ≠ [] := by
        intro hnil
        rw [← NormState.length_text, htracks.text, hnil] at hempty
        exact hempty rfl
      have hslash := hcomps.resolve_left hnil
      -- A longer path has room for one more byte; a path of one byte is the lone backslash.
      rcases path with _ | ⟨c, _ | ⟨d, rest⟩⟩
      · exact absurd hslash (by decide)
      · have hc := eq_backslash_of_kept hslash
        have hsize : bufSize ≠ 2 := fun hsize => hfull ⟨by rw [hc], hsize⟩
        omega
      · rw [List.length_cons, List.length_cons] at hlength
        omega

/-- `../a//b/.` in a buffer that is just large enough. -/
theorem normalize_in_bounds_exact :
    minOut [46, 46, 47, 97, 47, 47, 98, 47, 46] ≤ 10 ∧
      ∀ i ∈ (normalizePath .posix (fun _ => 0) (.room 10) (some [46, 46, 47, 97, 47, 47, 98, 47, 46])).state.stores, i < 10 :=
  ⟨by decide, ((@normalize_in_bounds_iff (fun _ => 0) 10 [46, 46, 47, 97, 47, 47, 98, 47, 46] (by decide)).mpr (by decide)).1⟩

/-- The NUL after a lone backslash and a `.` is stored past a buffer of two bytes, which passes the size check. -/
theorem normalize_overruns :
    minOut [92] ≤ 2 ∧ (normalizePath .posix (fun _ => 0) (.room 2) (some [92])).result = true ∧
      ¬ ∀ i ∈ (normalizePath .posix (fun _ => 0) (.room 2) (some [92])).state.stores, i < 2 := by
  decide

end Copper.Fs
