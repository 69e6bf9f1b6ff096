import Copper.Fs.Kept

/-!
# What stands at the front of a normalised path

What the loop of `cpr_normalize_path` leaves after the start of an absolute path, or of a relative one at all, begins with a
single component. `Front.step` says which one, from the components of the path alone, and `Fronts` what the buffer and the stack
have to do with it: the first position on the stack is where that component begins and the second where it ends, so the
component is gone when the stack is empty, and is all there is when the stack has one position.
-/

namespace Copper.Fs

/-- Nothing; a name, with the number of positions on the stack; or, of a relative path, a `..`. -/
inductive Front where
  | nothing
  | name (n : List UInt8) (depth : Nat)
  | up
  deriving DecidableEq, Repr

namespace Front

/-- A component. A full stack takes no more positions, so that names after the last of them go when that one does. -/
def step (isAbs : Bool) (f : Front) (name : List UInt8) : Front :=
  if name = [] ∨ name = [46] then f
  else if name = [46, 46] then
    match f with
    | .nothing => if isAbs then .nothing else .up
    | .name n depth => if depth ≤ 1 then .nothing else .name n (depth - 1)
    | .up => .up
  else
    match f with
    | .nothing => .name name 1
    | .name n depth => .name n (min (depth + 1) compEndsMax)
    | .up => .up

theorem step_skip (isAbs : Bool) (f : Front) {name : List UInt8} (hskip : name = [] ∨ name = [46]) : f.step isAbs name = f :=
  if_pos hskip

theorem step_dots (isAbs : Bool) (f : Front) :
    f.step isAbs [46, 46] =
      match f with
      | .nothing => if isAbs then .nothing else .up
      | .name n depth => if depth ≤ 1 then .nothing else .name n (depth - 1)
      | .up => .up := by
  unfold step
  rw [if_neg (by decide), if_pos rfl]

theorem step_name (isAbs : Bool) (f : Front) {name : List UInt8} (hname : name ≠ [] ∧ name ≠ [46] ∧ name ≠ [46, 46]) :
    f.step isAbs name =
      match f with
      | .nothing => .name name 1
      | .name n depth => .name n (min (depth + 1) compEndsMax)
      | .up => .up := by
  unfold step
  rw [if_neg (not_or.mpr ⟨hname.1, hname.2.1⟩), if_neg hname.2.2]

end Front

/-- What the components of a path leave. -/
def frontOf (platform : Platform) (isAbs : Bool) (p : List UInt8) : Front :=
  (p.splitOnP (fsIsSep platform)).foldl (Front.step isAbs) .nothing

/-- A text, a separator if it does not end in one, and a name. -/
def glued (platform : Platform) (text name : List UInt8) : List UInt8 :=
  text ++ ((if text.getLast?.any fun c => !fsIsSep platform c then [fsSep platform] else []) ++ name)

/-- A component that is copied: no separator in it. -/
def IsName (platform : Platform) (n : List UInt8) : Prop := n ≠ [] ∧ ∀ c ∈ n, fsIsSep platform c = false

/-- The buffer and the stack, by what is at the front after `base`. -/
inductive Fronts (platform : Platform) (base : List UInt8) : Front → NormState → Prop where
  | nothing {s : NormState} (htext : s.text = base) (hends : s.compEnds = []) : Fronts platform base .nothing s
  | one {s : NormState} {n : List UInt8} (hn : IsName platform n) (htext : s.text = glued platform base n)
    (hends : s.compEnds = [base.length]) : Fronts platform base (.name n 1) s
  | more {s : NormState} {n rest : List UInt8} {ps : List Nat} (hn : IsName platform n)
    (htext : s.text = glued platform base n ++ fsSep platform :: rest)
    (hends : s.compEnds = base.length :: (glued platform base n).length :: ps)
    (hsorted : ((glued platform base n).length :: ps ++ [s.out]).Pairwise (· < ·)) (hdepth : ps.length + 2 ≤ compEndsMax) :
    Fronts platform base (.name n (ps.length + 2)) s
  | up {s : NormState} {rest : List UInt8} (hbase : base = []) (htext : s.text = [46, 46] ++ rest)
    (hends : ∀ q ∈ s.compEnds, 2 ≤ q) (hsorted : (s.compEnds ++ [s.out]).Pairwise (· ≤ ·)) : Fronts platform base .up s

/-! ## The buffer -/

namespace NormState

theorem needsSep_eq (s : NormState) (platform : Platform) :
    s.needsSep platform = s.text.getLast?.any fun c => !fsIsSep platform c := by
  unfold needsSep
  rw [text_getLast?]
  by_cases hout : s.out = 0
  · simp [hout]
  · simp [hout]

theorem text_glued (s : NormState) (platform : Platform) (name : List UInt8) :
    ((s.separate platform).copy name).text = glued platform s.text name := by
  rw [text_copy, separate, needsSep_eq, glued, ← List.append_assoc]
  congr 1
  split
  · exact text_emit s (fsSep platform)
  · exact (List.append_nil s.text).symm

/-- A component moves the cursor on. -/
theorem out_lt_append (s : NormState) (platform : Platform) {name : List UInt8} (hname : name ≠ []) :
    s.out < ((s.separate platform).copy name).out := by
  have hpos := List.length_pos_iff.mpr hname
  rw [← length_text, ← length_text, text_glued, glued, List.length_append, List.length_append]
  omega

end NormState

section

variable {platform : Platform} {base : List UInt8} {isAbs : Bool} {f : Front} {s : NormState}

/-- After a name stands a separator. -/
theorem glued_of_name {n : List UInt8} (hn : IsName platform n) (text name : List UInt8) :
    glued platform (text ++ n) name = text ++ n ++ fsSep platform :: name := by
  obtain ⟨c, hc⟩ := Option.ne_none_iff_exists'.mp fun h => hn.1 (List.getLast?_eq_none_iff.mp h)
  have hlast : (text ++ n).getLast? = some c := by
    rw [List.getLast?_append, hc]
    rfl
  have hsep := hn.2 c (List.mem_of_getLast? hc)
  rw [glued, hlast, Option.any_some, hsep]
  rfl

theorem glued_glued {n : List UInt8} (hn : IsName platform n) (text name : List UInt8) :
    glued platform (glued platform text n) name = glued platform text n ++ fsSep platform :: name := by
  have hassoc : glued platform text n
      = text ++ (if text.getLast?.any fun c => !fsIsSep platform c then [fsSep platform] else []) ++ n := (List.append_assoc ..).symm
  rw [hassoc, glued_of_name hn]

theorem exists_glued (platform : Platform) (text rest name : List UInt8) :
    ∃ rest', glued platform (text ++ rest) name = text ++ rest' :=
  ⟨_, List.append_assoc ..⟩

/-! ## Positions -/

/-- The cursor moves on, and where it was is on top of the stack. -/
theorem pairwise_concat {R : Nat → Nat → Prop} [IsTrans Nat R] {l : List Nat} {a b : Nat} (h : (l ++ [a]).Pairwise R) (hab : R a b) :
    (l ++ [a] ++ [b]).Pairwise R := by
  refine List.pairwise_append.mpr ⟨h, List.pairwise_singleton R b, ?_⟩
  intro q hq q' hq'
  rw [List.mem_singleton.mp hq']
  rcases List.mem_append.mp hq with hq | hq
  · exact IsTrans.trans q a b ((List.pairwise_append.mp h).2.2 q hq a List.mem_cons_self) hab
  · rw [List.mem_singleton.mp hq]
    exact hab

/-- The cursor moves on, and where it was is forgotten. -/
theorem pairwise_move {R : Nat → Nat → Prop} [IsTrans Nat R] {l : List Nat} {a b : Nat} (h : (l ++ [a]).Pairwise R) (hab : R a b) :
    (l ++ [b]).Pairwise R :=
  (pairwise_concat h hab).sublist ((List.sublist_append_left l [a]).append_right [b])

theorem NormState.push_cases (s : NormState) (position : Nat) :
    (s.push position).compEnds = s.compEnds ++ [position] ∨ (s.push position).compEnds = s.compEnds := by
  unfold push
  split
  · exact .inl rfl
  · exact .inr rfl

/-! ## One component -/

/-- A position on the stack of a text that starts with `..`. -/
theorem Fronts.up_push {rest : List UInt8} {position : Nat} (hbase : base = []) (htext : s.text = [46, 46] ++ rest)
    (hends : ∀ q ∈ s.compEnds, 2 ≤ q) (hsorted : (s.compEnds ++ [position]).Pairwise (· ≤ ·)) (htwo : 2 ≤ position)
    (hle : position ≤ s.out) : Fronts platform base .up (s.push position) := by
  refine .up hbase ((s.text_push position).trans htext) ?_ ?_
  · intro q hq
    rcases s.push_cases position with h | h
    · rw [h, List.mem_append, List.mem_singleton] at hq
      rcases hq with hq | rfl
      · exact hends q hq
      · exact htwo
    · rw [h] at hq
      exact hends q hq
  · rw [NormState.out_push]
    rcases s.push_cases position with h | h
    · rw [h]
      exact pairwise_concat hsorted hle
    · rw [h]
      exact pairwise_move hsorted hle

/-- A position on the stack of a text with a name at the front and a separator after it. -/
theorem Fronts.more_push {n rest : List UInt8} {ps : List Nat} {position : Nat} (hn : IsName platform n)
    (htext : s.text = glued platform base n ++ fsSep platform :: rest)
    (hends : s.compEnds = base.length :: (glued platform base n).length :: ps)
    (hsorted : ((glued platform base n).length :: ps ++ [position]).Pairwise (· < ·)) (hlt : position < s.out)
    (hdepth : ps.length + 2 ≤ compEndsMax) :
    Fronts platform base (.name n (min (ps.length + 2 + 1) compEndsMax)) (s.push position) := by
  have hlength : s.compEnds.length = ps.length + 2 := by
    rw [hends]
    rfl
  by_cases hroom : ps.length + 2 < compEndsMax
  · have hdepth' : min (ps.length + 2 + 1) compEndsMax = (ps ++ [position]).length + 2 := by
      rw [List.length_append, List.length_singleton]
      omega
    rw [hdepth']
    refine .more hn ((s.text_push position).trans htext) ?_ ?_ ?_
    · rw [NormState.push_of_lt (by rwa [hlength]), hends]
      rfl
    · rw [NormState.out_push]
      exact pairwise_concat hsorted hlt
    · rw [List.length_append, List.length_singleton]
      omega
  · -- The stack is full: the position is dropped.
    have hdepth' : min (ps.length + 2 + 1) compEndsMax = ps.length + 2 := by omega
    rw [hdepth', NormState.push_of_not_lt (by rwa [hlength])]
    exact .more hn htext hends (pairwise_move hsorted hlt) hdepth

/-- A name. -/
theorem Fronts.append (hs : Fronts platform base f s) {name : List UInt8}
    (hname : name ≠ [] ∧ name ≠ [46] ∧ name ≠ [46, 46]) (hsep : ∀ c ∈ name, fsIsSep platform c = false) :
    Fronts platform base (f.step isAbs name) (s.component platform isAbs name) := by
  have htext' := s.text_glued platform name
  have hends' := s.compEnds_append platform name
  have hout := s.out_lt_append platform hname.1
  rw [NormState.component_name hname, Front.step_name isAbs f hname]
  generalize (s.separate platform).copy name = t at htext' hends' hout
  cases hs with
  | nothing htext hends =>
    refine .one ⟨hname.1, hsep⟩ ?_ ?_
    · rw [NormState.text_push, htext', htext]
    · rw [NormState.push_of_lt (by rw [hends', hends]; decide), hends', hends, ← s.length_text, htext]
      rfl
  | @one _ n hn htext hends =>
    have hlength : s.out = (glued platform base n).length := by
      rw [← s.length_text, htext]
    have hroom : t.compEnds.length < compEndsMax := by
      rw [hends', hends]
      exact Nat.le_of_ble_eq_true rfl
    have htwo : (t.push s.out).compEnds = base.length :: (glued platform base n).length :: [] := by
      rw [NormState.push_of_lt hroom, hends', hends, hlength]
      rfl
    have hmore : (t.push s.out).text = glued platform base n ++ fsSep platform :: name := by
      rw [NormState.text_push, htext', htext, glued_glued hn]
    refine .more hn hmore htwo ?_ (by decide)
    rw [NormState.out_push, ← hlength]
    simpa using hout
  | @more _ n rest ps hn htext hends hsorted hdepth =>
    have htext'' : t.text = glued platform base n ++ fsSep platform ::
        (rest ++ ((if s.text.getLast?.any fun c => !fsIsSep platform c then [fsSep platform] else []) ++ name)) := by
      rw [htext', glued, htext]
      simp only [List.append_assoc, List.cons_append]
    exact .more_push hn htext'' (hends'.trans hends) hsorted hout hdepth
  | @up _ rest hbase htext hends hsorted =>
    have htwo : 2 ≤ s.out := by
      rw [← s.length_text, htext, List.length_append]
      exact Nat.le_add_right 2 rest.length
    obtain ⟨rest', hrest'⟩ := exists_glued platform [46, 46] rest name
    rw [htext, hrest'] at htext'
    rw [← hends'] at hends hsorted
    exact .up_push hbase htext' hends hsorted htwo (Nat.le_of_lt hout)

/-- Going back to the top of the stack keeps the text up to there. -/
theorem NormState.text_takeBack (platform : Platform) (isAbs : Bool) (ends : List Nat) {q : Nat} (hends : s.compEnds = ends ++ [q])
    (hq : q ≤ s.out) :
    (s.component platform isAbs [46, 46]).text = s.text.take q ∧ (s.component platform isAbs [46, 46]).compEnds = ends ∧
      (s.component platform isAbs [46, 46]).out = q := by
  have hlast : s.compEnds.getLast? = some q := by
    rw [hends, List.getLast?_concat]
  rw [component_pop hlast]
  refine ⟨text_pop hq, ?_, rfl⟩
  rw [pop, hends, List.dropLast_concat]

/-- A name below the one at the front is taken back. -/
theorem Fronts.more_pop (isAbs : Bool) {n rest : List UInt8} {ps : List Nat} (hn : IsName platform n)
    (htext : s.text = glued platform base n ++ fsSep platform :: rest)
    (hends : s.compEnds = base.length :: (glued platform base n).length :: ps)
    (hsorted : ((glued platform base n).length :: ps ++ [s.out]).Pairwise (· < ·)) (hdepth : ps.length + 2 ≤ compEndsMax) :
    Fronts platform base (.name n (ps.length + 1)) (s.component platform isAbs [46, 46]) := by
  have hbelow : ∀ q ∈ (glued platform base n).length :: ps, q < s.out := fun q hq =>
    (List.pairwise_append.mp hsorted).2.2 q hq s.out List.mem_cons_self
  rcases List.eq_nil_or_concat ps with rfl | ⟨init, q, rfl⟩
  · -- The second name goes, and the one at the front is all there is.
    obtain ⟨htext', hends', -⟩ := NormState.text_takeBack platform isAbs [base.length] hends
      (Nat.le_of_lt (hbelow _ List.mem_cons_self))
    refine .one hn ?_ hends'
    rw [htext', htext, List.take_left]
  · rw [List.concat_eq_append] at hends hsorted hbelow hdepth ⊢
    have hfront : (glued platform base n).length < q :=
      (List.pairwise_cons.mp (List.pairwise_append.mp hsorted).1).1 q List.mem_concat_self
    obtain ⟨htext', hends', hout⟩ := NormState.text_takeBack platform isAbs
      (base.length :: (glued platform base n).length :: init) hends
      (Nat.le_of_lt (hbelow q (List.mem_cons_of_mem _ List.mem_concat_self)))
    rw [List.length_append, List.length_singleton] at hdepth ⊢
    obtain ⟨k, hk⟩ := Nat.exists_eq_add_of_lt hfront
    have hcount : q - (glued platform base n).length = k + 1 := by omega
    rw [htext, List.take_append, List.take_of_length_le (Nat.le_of_lt hfront), hcount, List.take_succ_cons] at htext'
    refine .more hn htext' hends' ?_ (by omega)
    rw [hout]
    exact (List.pairwise_append.mp hsorted).1

/-- A `..` that is kept, on an empty stack. -/
theorem Fronts.up_dots {rest : List UInt8} (hbase : base = []) (htext : s.text = [46, 46] ++ rest) (hends : s.compEnds = []) :
    Fronts platform base .up (s.push s.out) := by
  have htwo : 2 ≤ s.out := by
    rw [← s.length_text, htext, List.length_append]
    exact Nat.le_add_right 2 rest.length
  refine .up_push hbase htext ?_ ?_ htwo (Nat.le_refl s.out)
  · rw [hends]
    simp
  · rw [hends]
    simp

/-- A `..`. -/
theorem Fronts.dots (hs : Fronts platform base f s) (hrel : isAbs = false → base = []) :
    Fronts platform base (f.step isAbs [46, 46]) (s.component platform isAbs [46, 46]) := by
  rw [Front.step_dots]
  cases hs with
  | nothing htext hends =>
    rw [NormState.component_dots hends]
    cases isAbs with
    | true => exact .nothing htext hends
    | false =>
      obtain rfl := hrel rfl
      rw [if_neg Bool.false_ne_true]
      have htext' : ((s.separate platform).copy [46, 46]).text = [46, 46] ++ [] := by
        rw [s.text_glued, htext]
        rfl
      exact .up_dots rfl htext' ((s.compEnds_append platform [46, 46]).trans hends)
  | @one _ n hn htext hends =>
    have hle : base.length ≤ s.out := by
      rw [← s.length_text, htext, glued, List.length_append]
      exact Nat.le_add_right ..
    obtain ⟨htext', hends', -⟩ := NormState.text_takeBack platform isAbs [] hends hle
    refine .nothing ?_ hends'
    rw [htext', htext, glued, List.take_left]
  | @more _ n rest ps hn htext hends hsorted hdepth => exact .more_pop isAbs hn htext hends hsorted hdepth
  | @up _ rest hbase htext hends hsorted =>
    rcases List.eq_nil_or_concat s.compEnds with hempty | ⟨init, q, hconcat⟩
    · rw [NormState.component_dots hempty]
      cases isAbs with
      | true => exact .up hbase htext hends hsorted
      | false =>
        obtain ⟨rest', hrest'⟩ := exists_glued platform [46, 46] rest [46, 46]
        rw [if_neg Bool.false_ne_true]
        rw [← htext, ← s.text_glued] at hrest'
        exact .up_dots hbase hrest' ((s.compEnds_append platform [46, 46]).trans hempty)
    · rw [List.concat_eq_append] at hconcat
      rw [hconcat] at hends hsorted
      have hq := (List.pairwise_append.mp hsorted).2.2 q List.mem_concat_self s.out List.mem_cons_self
      have htwo := hends q List.mem_concat_self
      obtain ⟨htext', hends', hout⟩ := NormState.text_takeBack platform isAbs init hconcat hq
      rw [htext, List.take_append, List.take_of_length_le htwo] at htext'
      refine .up hbase htext' ?_ ?_
      · intro q' hq'
        rw [hends'] at hq'
        exact hends q' (List.mem_append_left _ hq')
      · rw [hends', hout]
        exact (List.pairwise_append.mp hsorted).1

/-- What a component does to the front. -/
theorem Fronts.component (hs : Fronts platform base f s) (hrel : isAbs = false → base = []) {name : List UInt8}
    (hsep : ∀ c ∈ name, fsIsSep platform c = false) :
    Fronts platform base (f.step isAbs name) (s.component platform isAbs name) := by
  by_cases hskip : name = [] ∨ name = [46]
  · rw [NormState.component, if_pos hskip, Front.step_skip isAbs f hskip]
    exact hs
  · by_cases hdots : name = [46, 46]
    · rw [hdots]
      exact hs.dots hrel
    · exact hs.append ⟨(not_or.mp hskip).1, (not_or.mp hskip).2, hdots⟩ hsep

/-- A name at the front, alone or with a separator after it. -/
theorem Fronts.name_cases {n : List UInt8} {depth : Nat} (hs : Fronts platform base (.name n depth) s) :
    IsName platform n ∧
      ((depth = 1 ∧ s.text = glued platform base n) ∨
        (depth ≠ 1 ∧ ∃ rest, s.text = glued platform base n ++ fsSep platform :: rest)) := by
  cases hs with
  | one hn htext hends => exact ⟨hn, .inl ⟨rfl, htext⟩⟩
  | @more _ _ rest ps hn htext hends hsorted hdepth => exact ⟨hn, .inr ⟨by omega, rest, htext⟩⟩

theorem glued_nil (platform : Platform) (name : List UInt8) : glued platform [] name = name := rfl

end

/-! ## The loop -/

/-- The loop leaves at the front what the components of the rest of the path leave there. -/
theorem fronts_normalizeLoop {platform : Platform} {base : List UInt8} {isAbs : Bool} (hrel : isAbs = false → base = [])
    (fuel : Nat) : ∀ p f s, p.length ≤ fuel → Fronts platform base f s →
      Fronts platform base ((p.splitOnP (fsIsSep platform)).foldl (Front.step isAbs) f) (normalizeLoop platform isAbs fuel p s) := by
  induction fuel with
  | zero =>
    intro p f s hfuel hs
    rw [List.eq_nil_of_length_eq_zero (Nat.le_zero.mp hfuel), List.splitOnP_nil, List.foldl_cons, Front.step_skip isAbs f (.inl rfl)]
    exact hs
  | succ fuel ih =>
    intro p f s hfuel hs
    rw [normalizeLoop]
    by_cases hp : p = []
    · rw [if_pos hp, hp, List.splitOnP_nil, List.foldl_cons, Front.step_skip isAbs f (.inl rfl)]
      exact hs
    · rw [if_neg hp, Separated.foldl_splitOnP fun f => Front.step_skip isAbs f (.inl rfl)]
      have hlt := length_rest_lt platform hp
      refine ih _ _ _ ?_ (hs.component hrel fun c hc => isSep_of_mem_spanName hc)
      exact Nat.le_of_lt_succ (hlt.trans_le hfuel)

/-- A relative path. -/
theorem fronts_relative (platform : Platform) (mem : Nat → UInt8) (p : List UInt8) :
    Fronts platform [] (frontOf platform false p) (normalizeLoop platform false p.length p { buf := mem }) :=
  fronts_normalizeLoop (fun _ => rfl) _ _ _ _ (Nat.le_refl _) (.nothing rfl rfl)

/-- What is left of an absolute path after its start. -/
theorem fronts_absolute {platform : Platform} {s : NormState} (hends : s.compEnds = []) (p : List UInt8) :
    Fronts platform s.text (frontOf platform true p) (normalizeLoop platform true p.length p s) :=
  fronts_normalizeLoop (fun h => absurd h Bool.true_eq_false.mp) _ _ _ _ (Nat.le_refl _) (.nothing rfl hends)

end Copper.Fs
