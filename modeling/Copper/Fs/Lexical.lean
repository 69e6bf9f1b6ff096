import Copper.Fs.Kept

/-!
# Lexical normalisation

`reference` says what normalising a path is to give: components are kept, dropped or taken back from left to right.
`cpr_normalize_path` does that (`normalize_lexical`) while it meets no `..` that takes back a name whose position the stack
did not hold, keeps at most one `..`, and does not end with a lone backslash. A kept `..` leaves a position on the stack,
which the next `..` only takes off it, and a result of a lone backslash is taken for the root (`normalize_not_lexical`).
-/

namespace Copper.Fs

open Separated

/-! ## What is kept of a path -/

/-- What the components of a path leave. -/
def kept (isAbs : Bool) (path : List UInt8) : Kept := (names 47 path).foldl (Kept.step isAbs) {}

/-- On POSIX a name goes on up to a slash. -/
theorem posix_isName : (fun c => !fsIsSep .posix c) = fun c => decide (c ≠ 47) := by
  funext c
  rw [posix_isSep, decide_not]

/-- A name has no slash in it. -/
theorem not_mem_spanName (p : List UInt8) : (47 : UInt8) ∉ (spanName .posix p).1 := by
  intro hmem
  exact absurd (isSep_of_mem_spanName hmem) (by decide)

section

variable {isAbs : Bool}

/-- A turn of the loop, and those that follow. -/
theorem foldl_names (k : Kept) (p : List UInt8) :
    (names 47 p).foldl (Kept.step isAbs) k
      = (names 47 (skipSeps .posix (spanName .posix p).2)).foldl (Kept.step isAbs) (k.step isAbs (spanName .posix p).1) := by
  rw [names_eq, List.foldl_append, spanName, posix_isName, skipSeps, posix_isSep]
  congr 1
  by_cases hname : p.takeWhile (fun c => decide (c ≠ 47)) = []
  · rw [hname]
    rfl
  · rw [List.filter_cons_of_pos (by simpa using hname)]
    rfl

/-- The loop leaves what the components of the rest of the path leave. -/
theorem tracks_normalizeLoop (fuel : Nat) : ∀ p k s, p.length ≤ fuel → k.Valid isAbs → Tracks isAbs k s →
    ((names 47 p).foldl (Kept.step isAbs) k).Valid isAbs ∧
      Tracks isAbs ((names 47 p).foldl (Kept.step isAbs) k) (normalizeLoop .posix isAbs fuel p s) := by
  induction fuel with
  | zero =>
    intro p k s hfuel hk hs
    rw [List.eq_nil_of_length_eq_zero (Nat.le_zero.mp hfuel), names_nil]
    exact ⟨hk, hs⟩
  | succ fuel ih =>
    intro p k s hfuel hk hs
    rw [normalizeLoop]
    by_cases hp : p = []
    · rw [if_pos hp, hp, names_nil]
      exact ⟨hk, hs⟩
    · rw [if_neg hp, foldl_names]
      have hlt := length_rest_lt .posix hp
      exact ih _ _ _ (by omega) (hk.step (not_mem_spanName p)) (hs.component hk _)

/-- Nothing is kept at first. -/
theorem valid_empty : Kept.Valid isAbs {} :=
  ⟨fun _ hn => absurd hn List.not_mem_nil, Nat.zero_le _, fun hne => absurd rfl hne, fun _ => rfl⟩

end

/-- The state that the loop ends in. -/
def looped (mem : Nat → UInt8) (path : List UInt8) : NormState :=
  let isAbs := pathIsAbs .posix (some path)
  let (s, p) := if isAbs then normalizePrefix .posix { buf := mem } path else ({ buf := mem }, path)
  normalizeLoop .posix isAbs p.length p s

/-- After the loop the state is that of what is kept. -/
theorem tracks_looped (mem : Nat → UInt8) (path : List UInt8) :
    (kept (pathIsAbs .posix (some path)) path).Valid (pathIsAbs .posix (some path)) ∧
      Tracks (pathIsAbs .posix (some path)) (kept (pathIsAbs .posix (some path)) path) (looped mem path) := by
  unfold looped kept
  cases habs : pathIsAbs .posix (some path) with
  | false =>
    simp only [Bool.false_eq_true, if_false]
    exact tracks_normalizeLoop _ _ _ _ (Nat.le_refl _) valid_empty ⟨rfl, rfl⟩
  | true =>
    simp only [if_true, normalizePrefix]
    have htext : ({ buf := mem : NormState }.emit 47).text = spell true [] := by
      rw [NormState.text_emit]
      rfl
    have hloop := @tracks_normalizeLoop true (skipSeps .posix path).length (skipSeps .posix path) {} _ (Nat.le_refl _)
      valid_empty ⟨htext, rfl⟩
    rw [skipSeps, posix_isSep, names_dropWhile] at hloop
    exact hloop

/-! ## What is written -/

/-- The components of the result. A relative path of which nothing is kept gives `.`, and so is added to a lone backslash. -/
def Kept.result (isAbs : Bool) (k : Kept) : List (List UInt8) :=
  if isAbs = false ∧ k.comps = [] then [[46]] else if isAbs = false ∧ k.comps = [[92]] then [[92, 46]] else k.comps

/-- A spelling of components is read back. -/
theorem eq_of_spell_eq {isAbs : Bool} {ns ms : List (List UInt8)} (hns : ∀ n ∈ ns, n ≠ [] ∧ (47 : UInt8) ∉ n)
    (hms : ∀ n ∈ ms, n ≠ [] ∧ (47 : UInt8) ∉ n) (h : spell isAbs ns = spell isAbs ms) : ns = ms := by
  have hinter : [47].intercalate ns = [47].intercalate ms := List.append_cancel_left h
  by_cases hempty : ns = []
  · by_contra hne
    rw [hempty] at hinter
    exact intercalate_ne_nil (fun h0 => hne (hempty.trans h0.symm)) hms hinter.symm
  · have hempty' : ms ≠ [] := by
      intro h0
      rw [h0] at hinter
      exact intercalate_ne_nil hempty hns hinter
    rw [← List.splitOn_intercalate 47 (fun n hn => (hns n hn).2) hempty, hinter,
      List.splitOn_intercalate 47 (fun n hn => (hms n hn).2) hempty']

section

variable {isAbs : Bool} {k : Kept} {s : NormState}

/-- The test for an empty result. -/
theorem Tracks.blank_iff (hk : k.Valid isAbs) (hs : Tracks isAbs k s) :
    (s.out = 0 ∨ s.out = 1 ∧ (s.buf 0 = 47 ∨ s.buf 0 = 92)) ∧ isAbs = false ↔
      isAbs = false ∧ (k.comps = [] ∨ k.comps = [[92]]) := by
  rw [and_comm]
  refine and_congr_right fun habs => ?_
  have htext := hs.text
  rw [habs] at htext
  have hone : ∀ b, s.out = 1 ∧ s.buf 0 = b ↔ s.text = [b] := by
    intro b
    constructor
    · rintro ⟨hout, rfl⟩
      rw [NormState.text, hout]
      rfl
    · intro hb
      have hout : s.out = 1 := by rw [← s.length_text, hb, List.length_singleton]
      rw [NormState.text, hout] at hb
      exact ⟨hout, List.head_eq_of_cons_eq hb⟩
  have hzero : s.out = 0 ↔ k.comps = [] := by
    rw [← s.length_text, htext, List.length_eq_zero_iff]
    refine ⟨fun h => ?_, fun h => by rw [h]; rfl⟩
    have hspell : spell false k.comps = spell false [] := h
    exact eq_of_spell_eq hk.comps (fun _ hn => absurd hn List.not_mem_nil) hspell
  have hroot : ¬ (s.out = 1 ∧ s.buf 0 = 47) := by
    rw [hone, htext]
    intro h
    have hne : k.comps ≠ [] := by
      intro h0
      rw [h0] at h
      cases h
    obtain ⟨c, hc, hne⟩ := getLast?_spell false hne hk.comps
    rw [h] at hc
    cases hc
    exact hne rfl
  have hslash : s.out = 1 ∧ s.buf 0 = 92 ↔ k.comps = [[92]] := by
    rw [hone, htext]
    refine ⟨fun h => ?_, fun h => by rw [h]; rfl⟩
    have hspell : spell false k.comps = spell false [[92]] := h
    refine eq_of_spell_eq hk.comps (fun n hn => ?_) hspell
    rw [List.mem_singleton.mp hn]
    decide
  rw [and_or_left, hzero, hslash]
  exact or_congr_right (or_iff_right hroot)

/-- The result, and the NUL after it. -/
theorem Tracks.terminate (hk : k.Valid isAbs) (hs : Tracks isAbs k s) :
    (s.terminate isAbs).text = spell isAbs (k.result isAbs) ∧ (s.terminate isAbs).buf (s.terminate isAbs).out = 0 := by
  refine ⟨?_, Function.update_self _ _ _⟩
  rw [NormState.text_terminate]
  by_cases hblank : isAbs = false ∧ (k.comps = [] ∨ k.comps = [[92]])
  · rw [if_pos ((hs.blank_iff hk).mpr hblank), hs.text, Kept.result]
    obtain ⟨habs, hcomps | hcomps⟩ := hblank
    · rw [if_pos ⟨habs, hcomps⟩, hcomps, habs]
      rfl
    · rw [if_neg (by rw [hcomps]; simp), if_pos ⟨habs, hcomps⟩, hcomps, habs]
      rfl
  · rw [if_neg (fun h => hblank ((hs.blank_iff hk).mp h)), hs.text, Kept.result,
      if_neg (fun h => hblank ⟨h.1, Or.inl h.2⟩), if_neg (fun h => hblank ⟨h.1, Or.inr h.2⟩)]

end

/-- What the call leaves in the buffer. -/
theorem text_normalized (mem : Nat → UInt8) (path : List UInt8) :
    (normalized .posix mem path).text = spell (pathIsAbs .posix (some path))
        ((kept (pathIsAbs .posix (some path)) path).result (pathIsAbs .posix (some path))) ∧
      (normalized .posix mem path).buf (normalized .posix mem path).out = 0 := by
  obtain ⟨hk, hs⟩ := tracks_looped mem path
  exact hs.terminate hk

/-! ## The reference -/

/-- Components kept from left to right. A `..` is kept only while no ordinary component is, so those kept come first. -/
structure Lexical where
  dots : Nat := 0
  names : List (List UInt8) := []
  deriving DecidableEq, Repr

namespace Lexical

/-- A `..` takes back the last ordinary component if there is one; else it is kept if the path is relative. -/
def step (isAbs : Bool) (r : Lexical) (name : List UInt8) : Lexical :=
  if name = [46, 46] then
    if r.names ≠ [] then { r with names := r.names.dropLast }
    else if isAbs then r
    else { r with dots := r.dots + 1 }
  else { r with names := r.names ++ [name] }

def comps (r : Lexical) : List (List UInt8) := List.replicate r.dots [46, 46] ++ r.names

/-- Whether the stack has room for all names that are kept whenever a `..` takes one back. The position after a kept `..`
takes a slot until the next `..` takes it off, so it does after an odd number of them. -/
def fits (isAbs : Bool) : Lexical → List (List UInt8) → Bool
  | _, [] => true
  | r, n :: ns => (n ≠ [46, 46] || r.names = [] || r.names.length + r.dots % 2 ≤ compEndsMax) && fits isAbs (r.step isAbs n) ns

end Lexical

/-- The components of a path, without the empty ones and `.`. -/
def pathComponents (path : List UInt8) : List (List UInt8) := (path.splitOn 47).filter fun n => n ≠ [] ∧ n ≠ [46]

/-- What is kept of a path. -/
def lexical (path : List UInt8) : Lexical := (pathComponents path).foldl (Lexical.step (pathIsAbs .posix (some path))) {}

/-- What normalising a path is to give. -/
def reference (path : List UInt8) : List UInt8 :=
  let isAbs := pathIsAbs .posix (some path)
  if (lexical path).comps = [] then (if isAbs then [47] else [46])
  else (if isAbs then [47] else []) ++ [47].intercalate (lexical path).comps

/-- The stack has room for the names of a path whenever a `..` takes one back. -/
def StackSuffices (path : List UInt8) : Prop := Lexical.fits (pathIsAbs .posix (some path)) {} (pathComponents path) = true

instance (path : List UInt8) : Decidable (StackSuffices path) := inferInstanceAs (Decidable (_ = true))

/-- A relative path of which a single backslash is kept. -/
def LoneBackslash (path : List UInt8) : Prop := pathIsAbs .posix (some path) = false ∧ (lexical path).comps = [[92]]

instance (path : List UInt8) : Decidable (LoneBackslash path) := inferInstanceAs (Decidable (_ ∧ _))

/-- The stack has room, at most one `..` is kept, and what is kept is not a lone backslash. -/
def NormalizesWell (path : List UInt8) : Prop := StackSuffices path ∧ (lexical path).dots ≤ 1 ∧ ¬ LoneBackslash path

/-! ## What the stack makes of the reference -/

/-- While the stack has room, the same names are kept, and of the `..` every second one is lost. -/
structure Agrees (isAbs : Bool) (k : Kept) (r : Lexical) : Prop where
  dots : k.dots = (r.dots + 1) / 2
  mark : k.mark = decide (r.dots % 2 = 1)
  names : k.tracked ++ k.untracked = r.names
  abs : isAbs = true → r.dots = 0

section

variable {isAbs : Bool} {k : Kept} {r : Lexical}

/-- The mark is there after an odd number of kept `..`. -/
theorem Agrees.mark_iff (h : Agrees isAbs k r) : k.mark = true ↔ r.dots % 2 = 1 := by
  rw [h.mark, decide_eq_true_eq]

/-- No position of a name on the stack: no name is kept. -/
theorem Agrees.names_of_empty (hk : k.Valid isAbs) (h : Agrees isAbs k r) (htracked : k.tracked = []) : r.names = [] := by
  rw [← h.names, htracked, hk.untracked (Kept.depth_of_empty htracked), List.append_nil]

/-- Where the names that are kept fit the stack, it holds the positions of them all. -/
theorem Agrees.untracked (hk : k.Valid isAbs) (h : Agrees isAbs k r) (hroom : r.names.length + r.dots % 2 ≤ compEndsMax) :
    k.untracked = [] := by
  by_contra hne
  have hfull := hk.full hne
  have hlen := congrArg List.length h.names
  have hpos := List.length_pos_iff.mpr hne
  have hmark : k.mark.toNat = r.dots % 2 := by
    rw [h.mark]
    rcases Nat.mod_two_eq_zero_or_one r.dots with hd | hd <;> rw [hd] <;> rfl
  rw [List.length_append] at hlen
  unfold Kept.depth at hfull
  omega

/-- A component is kept as the reference keeps it, while the stack has room. -/
theorem Agrees.step (hk : k.Valid isAbs) (h : Agrees isAbs k r) {name : List UInt8} (hname : name ≠ []) (hdot : name ≠ [46])
    (hfits : name = [46, 46] → r.names = [] ∨ r.names.length + r.dots % 2 ≤ compEndsMax) :
    Agrees isAbs (k.step isAbs name) (r.step isAbs name) := by
  have hcase := k.stepped isAbs name
  generalize k.step isAbs name = k' at hcase
  unfold Lexical.step
  cases hcase with
  | skip hskip => exact absurd hskip (not_or.mpr ⟨hname, hdot⟩)
  | @takeBack init last hdots htracked =>
    have hnames : r.names ≠ [] := by
      rw [← h.names, htracked]
      simp
    have huntracked := h.untracked hk ((hfits hdots).resolve_left hnames)
    have hkept : r.names = init ++ [last] := by rw [← h.names, huntracked, List.append_nil, htracked]
    rw [if_pos hdots, if_pos hnames, hkept, List.dropLast_concat]
    exact ⟨h.dots, h.mark, List.append_nil init, h.abs⟩
  | unmark hdots htracked hmark =>
    have hodd := h.mark_iff.mp hmark
    have hnames := h.names_of_empty hk htracked
    have habs : ¬ isAbs = true := by
      intro habs
      rw [h.abs habs] at hodd
      cases hodd
    rw [if_pos hdots, if_neg (not_not.mpr hnames), if_neg habs]
    refine ⟨?_, ?_, ?_, fun h' => absurd h' habs⟩
    · dsimp only
      rw [h.dots]
      omega
    · exact (decide_eq_false (by dsimp only; omega)).symm
    · dsimp only
      rw [htracked, hnames]
      rfl
  | root hdots htracked hmark habs =>
    rw [if_pos hdots, if_neg (not_not.mpr (h.names_of_empty hk htracked)), if_pos habs]
    exact h
  | dots hdots htracked hmark habs =>
    have hodd : ¬ r.dots % 2 = 1 := fun hodd => Bool.false_ne_true (hmark.symm.trans (h.mark_iff.mpr hodd))
    have hrel : ¬ isAbs = true := fun h' => Bool.false_ne_true (habs.symm.trans h')
    rw [if_pos hdots, if_neg (not_not.mpr (h.names_of_empty hk htracked)), if_neg hrel]
    refine ⟨?_, ?_, h.names, fun h' => absurd h' hrel⟩
    · dsimp only
      rw [h.dots]
      omega
    · exact (decide_eq_true (by dsimp only; omega)).symm
  | track hordinary hroom =>
    rw [if_neg hordinary.2.2]
    refine ⟨h.dots, h.mark, ?_, h.abs⟩
    dsimp only
    rw [← h.names, hk.untracked hroom, List.append_nil, List.append_nil]
  | overflow hordinary hroom =>
    rw [if_neg hordinary.2.2]
    refine ⟨h.dots, h.mark, ?_, h.abs⟩
    dsimp only
    rw [← h.names, List.append_assoc]

/-- By induction on the components that are left. -/
theorem Agrees.foldl (ns : List (List UInt8)) : ∀ k r, k.Valid isAbs → Agrees isAbs k r →
    (∀ n ∈ ns, n ≠ [] ∧ n ≠ [46] ∧ (47 : UInt8) ∉ n) → Lexical.fits isAbs r ns = true →
    Agrees isAbs (ns.foldl (Kept.step isAbs) k) (ns.foldl (Lexical.step isAbs) r) := by
  induction ns with
  | nil => exact fun _ _ _ h _ _ => h
  | cons n ns ih =>
    intro k r hk h hns hfits
    obtain ⟨hne, hdot, hsep⟩ := hns n List.mem_cons_self
    rw [Lexical.fits, Bool.and_eq_true] at hfits
    refine ih _ _ (hk.step hsep) (h.step hk hne hdot fun hdots => ?_) (fun m hm => hns m (List.mem_cons_of_mem _ hm)) hfits.2
    simpa [hdots] using hfits.1

end

/-- The loop passes over `.`. -/
theorem foldl_filter_dot {isAbs : Bool} (ns : List (List UInt8)) : ∀ k : Kept,
    (ns.filter fun n => n ≠ [46]).foldl (Kept.step isAbs) k = ns.foldl (Kept.step isAbs) k := by
  induction ns with
  | nil => exact fun _ => rfl
  | cons n ns ih =>
    intro k
    by_cases hn : n = [46]
    · rw [List.filter_cons_of_neg (by simpa using hn), ih, List.foldl_cons, Kept.step, if_pos (Or.inr hn)]
    · rw [List.filter_cons_of_pos (by simpa using hn), List.foldl_cons, List.foldl_cons, ih]

/-- The components are the names but for `.`. -/
theorem pathComponents_eq (path : List UInt8) : pathComponents path = (names 47 path).filter fun n => n ≠ [46] := by
  rw [pathComponents, names, List.filter_filter]
  congr 1
  funext n
  rw [Bool.decide_and, Bool.and_comm]

/-- While the stack has room, what is kept agrees with the reference. -/
theorem agrees_kept {path : List UInt8} (h : StackSuffices path) :
    Agrees (pathIsAbs .posix (some path)) (kept (pathIsAbs .posix (some path)) path) (lexical path) := by
  have hfold := @Agrees.foldl (pathIsAbs .posix (some path)) (pathComponents path) {} {} valid_empty
    ⟨rfl, rfl, rfl, fun _ => rfl⟩ (fun n hn => ?_) h
  · rw [kept, ← foldl_filter_dot, ← pathComponents_eq]
    exact hfold
  · rw [pathComponents_eq, List.mem_filter] at hn
    exact ⟨(of_mem_names hn.1).1, of_decide_eq_true hn.2, (of_mem_names hn.1).2⟩

/-! ## The result and the reference -/

/-- The components of the reference. -/
def Lexical.result (isAbs : Bool) (r : Lexical) : List (List UInt8) := if isAbs = false ∧ r.comps = [] then [[46]] else r.comps

/-- The reference spells its result. -/
theorem reference_eq (path : List UInt8) :
    reference path = spell (pathIsAbs .posix (some path)) ((lexical path).result (pathIsAbs .posix (some path))) := by
  unfold reference
  by_cases hempty : (lexical path).comps = []
  · rw [if_pos hempty, Lexical.result, hempty]
    cases pathIsAbs .posix (some path) <;> rfl
  · have hkept : ¬ (pathIsAbs .posix (some path) = false ∧ (lexical path).comps = []) := fun h => hempty h.2
    rw [if_neg hempty, Lexical.result, if_neg hkept]
    rfl

section

variable {isAbs : Bool} {k : Kept} {r : Lexical}

/-- What comes out are names. -/
theorem Kept.Valid.result (hk : k.Valid isAbs) : ∀ n ∈ k.result isAbs, n ≠ [] ∧ (47 : UInt8) ∉ n := by
  unfold Kept.result
  split
  · intro n hn
    rw [List.mem_singleton.mp hn]
    decide
  · split
    · intro n hn
      rw [List.mem_singleton.mp hn]
      decide
    · exact hk.comps

/-- Of the `..` at the front every other one is kept. -/
theorem Agrees.comps (h : Agrees isAbs k r) : k.comps = List.replicate ((r.dots + 1) / 2) [46, 46] ++ r.names := by
  rw [Kept.comps, Kept.front, h.dots, List.append_assoc, h.names]

/-- At most one `..`: the same components are kept. -/
theorem Agrees.comps_eq (h : Agrees isAbs k r) (hdots : r.dots ≤ 1) : k.comps = r.comps := by
  rw [h.comps, Lexical.comps, show (r.dots + 1) / 2 = r.dots by omega]

/-- What the reference keeps are names. -/
theorem Agrees.valid (h : Agrees isAbs k r) (hk : k.Valid isAbs) : ∀ n ∈ r.result isAbs, n ≠ [] ∧ (47 : UInt8) ∉ n := by
  unfold Lexical.result
  split
  · intro n hn
    rw [List.mem_singleton.mp hn]
    decide
  · intro n hn
    rcases List.mem_append.mp hn with hn | hn
    · rw [List.eq_of_mem_replicate hn]
      decide
    · have hname := hk.names n (h.names ▸ hn)
      exact ⟨hname.1, hname.2.2.2⟩

/-- A kept `..` comes first. -/
theorem replicate_append_ne {d : Nat} (hd : 0 < d) (ns : List (List UInt8)) :
    List.replicate d [46, 46] ++ ns ≠ [] ∧ List.replicate d [46, 46] ++ ns ≠ [[92]] := by
  obtain ⟨d, rfl⟩ := Nat.exists_eq_succ_of_ne_zero (Nat.ne_of_gt hd)
  rw [List.replicate_succ, List.cons_append]
  exact ⟨List.cons_ne_nil _ _, fun h => absurd (List.head_eq_of_cons_eq h) (by decide)⟩

/-- The results are the same exactly when at most one `..` is kept and what is kept is not a lone backslash. -/
theorem Agrees.result_eq_iff (h : Agrees isAbs k r) :
    k.result isAbs = r.result isAbs ↔ r.dots ≤ 1 ∧ ¬ (isAbs = false ∧ r.comps = [[92]]) := by
  by_cases hdots : r.dots ≤ 1
  · rw [Kept.result, Lexical.result, h.comps_eq hdots]
    by_cases hempty : isAbs = false ∧ r.comps = []
    · rw [if_pos hempty, if_pos hempty, hempty.2]
      simp [hdots]
    · rw [if_neg hempty, if_neg hempty]
      by_cases hslash : isAbs = false ∧ r.comps = [[92]]
      · rw [if_pos hslash, hslash.2]
        simp [hslash.1]
      · rw [if_neg hslash]
        exact iff_of_true rfl ⟨hdots, hslash⟩
  · have hk := replicate_append_ne (d := (r.dots + 1) / 2) (by omega) r.names
    have hr := replicate_append_ne (d := r.dots) (by omega) r.names
    rw [Kept.result, Lexical.result, h.comps, Lexical.comps, if_neg (fun h' => hk.1 h'.2), if_neg (fun h' => hk.2 h'.2),
      if_neg (fun h' => hr.1 h'.2)]
    refine iff_of_false (fun heq => ?_) (fun h' => hdots h'.1)
    have hlen := congrArg List.length heq
    simp only [List.length_append, List.length_replicate] at hlen
    omega

end

section

variable {mem : Nat → UInt8} {bufSize : Nat} {path : List UInt8}

/-- On POSIX, what a call writes is the reference if the path normalises well. -/
theorem text_reference (h : (normalizePath .posix mem (.room bufSize) (some path)).result = true) (hwell : NormalizesWell path) :
    (normalizePath .posix mem (.room bufSize) (some path)).state.text = reference path := by
  rw [(state_of_result h).2, (text_normalized mem path).1, reference_eq, (agrees_kept hwell.1).result_eq_iff.mpr hwell.2]

/-- While the stack has room, what a call writes is the reference only if the path normalises well. -/
theorem normalizesWell_of_text (h : (normalizePath .posix mem (.room bufSize) (some path)).result = true)
    (hstack : StackSuffices path) (heq : (normalizePath .posix mem (.room bufSize) (some path)).state.text = reference path) :
    NormalizesWell path := by
  have hk := (tracks_looped mem path).1
  have hagrees := agrees_kept hstack
  rw [(state_of_result h).2, (text_normalized mem path).1, reference_eq] at heq
  exact ⟨hstack, hagrees.result_eq_iff.mp (eq_of_spell_eq hk.result (hagrees.valid hk) heq)⟩

end

/-- On POSIX, a call that returns true leaves a string in the buffer that is the reference whenever the path normalises well;
and while the stack has room, it is the reference only then. -/
theorem normalize_lexical {mem : Nat → UInt8} {bufSize : Nat} {path : List UInt8}
    (h : (normalizePath .posix mem (.room bufSize) (some path)).result = true) :
    let s := (normalizePath .posix mem (.room bufSize) (some path)).state
    s.buf s.out = 0 ∧ (NormalizesWell path → s.text = reference path) ∧
      (StackSuffices path → s.text = reference path → NormalizesWell path) := by
  intro s
  have hstate : s = normalized .posix mem path := (state_of_result h).2
  have hnul := (text_normalized mem path).2
  rw [← hstate] at hnul
  exact ⟨hnul, text_reference h, normalizesWell_of_text h⟩

/-- `a/../b//./c`. -/
theorem normalize_lexical_simple :
    (normalizePath .posix (fun _ => 0) (.room 12) (some [97, 47, 46, 46, 47, 98, 47, 47, 46, 47, 99])).state.text = [98, 47, 99] :=
  ((@normalize_lexical (fun _ => 0) 12 _ (by decide)).2.1 ⟨by decide, by decide, by decide⟩).trans (by decide)

/-- `../..` becomes `..`, and a file named by a backslash becomes one named by a backslash and a dot. -/
theorem normalize_not_lexical :
    (normalizePath .posix (fun _ => 0) (.room 4096) (some [46, 46, 47, 46, 46])).result = true ∧
      (normalizePath .posix (fun _ => 0) (.room 4096) (some [46, 46, 47, 46, 46])).state.text = [46, 46] ∧
      reference [46, 46, 47, 46, 46] = [46, 46, 47, 46, 46] ∧
      (normalizePath .posix (fun _ => 0) (.room 4096) (some [92])).state.text = [92, 46] ∧ reference [92] = [92] := by
  decide

end Copper.Fs
