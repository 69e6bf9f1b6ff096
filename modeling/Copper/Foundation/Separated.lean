import Mathlib.Data.List.Induction
import Mathlib.Data.List.TakeWhile

/-!
# Names between separators

A string over an alphabet with a separator `x` spells the names that stand between separators (`names`); a run of separators
counts as one. A scanner that takes a name, then the separators after it, finds them in order (`names_eq`). Names put together
with one separator between each two of them can be read back (`splitOn_intercalate` in the core library), so a string has one
such spelling, and each name adds itself and at most one separator at the end (`intercalate_concat`).
-/

namespace Separated

universe u

variable {α : Type u} [DecidableEq α]

/-- The names between separators. -/
def names (x : α) (p : List α) : List (List α) := (p.splitOn x).filter (· ≠ [])

variable {x : α} {p : List α} {ns : List (List α)}

@[simp] theorem names_nil : names x [] = [] := by
  rw [names, List.splitOn_nil]
  rfl

@[simp] theorem names_cons_self : names x (x :: p) = names x p := by
  rw [names, List.splitOn_cons_eq_if_modifyHead, if_pos (beq_self_eq_true x), List.filter_cons_of_neg (by simp), names]

/-- Leading separators do not count. -/
theorem names_dropWhile (p : List α) : names x (p.dropWhile (· = x)) = names x p := by
  induction p with
  | nil => rfl
  | cons c p ih =>
    by_cases hc : c = x
    · rw [List.dropWhile_cons_of_pos (by simpa using hc), ih, hc, names_cons_self]
    · rw [List.dropWhile_cons_of_neg (by simpa using hc)]

/-- The first name, which is empty when the string starts with a separator, and the others. -/
theorem names_eq (p : List α) :
    names x p = [p.takeWhile (· ≠ x)].filter (· ≠ []) ++ names x ((p.dropWhile (· ≠ x)).dropWhile (· = x)) := by
  have hmem : x ∉ p.takeWhile (· ≠ x) := fun h => by simpa using List.mem_takeWhile_imp h
  rw [names_dropWhile]
  cases hrest : p.dropWhile (· ≠ x) with
  | nil =>
    have hp : p = p.takeWhile (· ≠ x) := by
      have happend := List.takeWhile_append_dropWhile (p := fun c => decide (c ≠ x)) (l := p)
      rw [hrest, List.append_nil] at happend
      exact happend.symm
    have hsplit : p.splitOn x = [p.takeWhile (· ≠ x)] := by
      rw [← List.splitOn_eq_singleton hmem, ← hp]
    rw [names_nil, List.append_nil, names, hsplit]
  | cons c rest =>
    have hc : c = x := by
      have hhead := List.head?_dropWhile_not (fun c => decide (c ≠ x)) p
      rw [hrest] at hhead
      simpa using hhead
    have hp : p = p.takeWhile (· ≠ x) ++ x :: rest := by
      have happend := List.takeWhile_append_dropWhile (p := fun c => decide (c ≠ x)) (l := p)
      rw [hrest, hc] at happend
      exact happend.symm
    have hsplit : p.splitOn x = [p.takeWhile (· ≠ x)] ++ rest.splitOn x := by
      rw [List.singleton_append, ← List.splitOn_append_cons_self_of_not_mem hmem, ← hp]
    rw [hc, names_cons_self, names, names, hsplit, List.filter_append]

theorem not_mem_of_mem_splitOn (p : List α) : ∀ n ∈ p.splitOn x, x ∉ n := by
  induction p with
  | nil => simp
  | cons c p ih =>
    rw [List.splitOn_cons_eq_if_modifyHead]
    split
    · intro n hn
      rcases List.mem_cons.mp hn with rfl | hn
      · exact List.not_mem_nil
      · exact ih n hn
    · rename_i hc
      cases hsplit : p.splitOn x with
      | nil => exact absurd hsplit (List.splitOn_ne_nil x p)
      | cons m ms =>
        rw [hsplit] at ih
        intro n hn
        rw [List.modifyHead_cons] at hn
        rcases List.mem_cons.mp hn with rfl | hn
        · rw [List.mem_cons, not_or]
          exact ⟨fun heq => hc (beq_iff_eq.mpr heq.symm), ih m List.mem_cons_self⟩
        · exact ih n (List.mem_cons_of_mem _ hn)

/-- What is between separators is part of the list. -/
theorem subset_of_mem_splitOn (p : List α) : ∀ n ∈ p.splitOn x, n ⊆ p := by
  induction p with
  | nil => simp
  | cons c p ih =>
    rw [List.splitOn_cons_eq_if_modifyHead]
    split
    · intro n hn
      rcases List.mem_cons.mp hn with rfl | hn
      · exact List.nil_subset _
      · exact List.subset_cons_of_subset c (ih n hn)
    · cases hsplit : p.splitOn x with
      | nil => exact absurd hsplit (List.splitOn_ne_nil x p)
      | cons m ms =>
        rw [hsplit] at ih
        intro n hn
        rw [List.modifyHead_cons] at hn
        rcases List.mem_cons.mp hn with rfl | hn
        · exact List.cons_subset_cons c (ih m List.mem_cons_self)
        · exact List.subset_cons_of_subset c (ih n (List.mem_cons_of_mem _ hn))

/-- A name is not empty and holds no separator. -/
theorem of_mem_names {n : List α} (h : n ∈ names x p) : n ≠ [] ∧ x ∉ n := by
  obtain ⟨hn, hne⟩ := List.mem_filter.mp h
  exact ⟨of_decide_eq_true hne, not_mem_of_mem_splitOn p n hn⟩

/-! ## Scanners -/

section

omit [DecidableEq α]

universe v

variable {β : Type v} {sep : α → Bool} {f : β → List α → β}

/-- Leading separators are pieces that do not count. -/
theorem foldl_splitOnP_dropWhile (hskip : ∀ b, f b [] = b) (b : β) (xs : List α) :
    ((xs.dropWhile sep).splitOnP sep).foldl f b = (xs.splitOnP sep).foldl f b := by
  induction xs with
  | nil => rfl
  | cons x xs ih =>
    by_cases hx : sep x = true
    · rw [List.dropWhile_cons_of_pos hx, ih, List.splitOnP_cons_eq_if_modifyHead, if_pos hx, List.foldl_cons, hskip]
    · rw [List.dropWhile_cons_of_neg hx]

/-- A scanner that takes a piece and then the separators after it gets through the pieces between separators, where an empty
piece does not count. -/
theorem foldl_splitOnP (hskip : ∀ b, f b [] = b) (b : β) (xs : List α) :
    (xs.splitOnP sep).foldl f b =
      (((xs.dropWhile fun c => !sep c).dropWhile sep).splitOnP sep).foldl f (f b (xs.takeWhile fun c => !sep c)) := by
  have hpiece : ∀ c ∈ xs.takeWhile fun c => !sep c, sep c = false := by
    intro c hc
    simpa using List.mem_takeWhile_imp hc
  have happend := List.takeWhile_append_dropWhile (p := fun c => !sep c) (l := xs)
  rw [foldl_splitOnP_dropWhile hskip]
  cases hrest : xs.dropWhile fun c => !sep c with
  | nil =>
    rw [hrest, List.append_nil] at happend
    have hsplit := List.splitOnP_eq_singleton hpiece
    rw [happend] at hsplit ⊢
    rw [hsplit]
    exact (hskip _).symm
  | cons c rest =>
    have hc : sep c = true := by
      have hhead := List.head?_dropWhile_not (fun c => !sep c) xs
      rw [hrest] at hhead
      simpa using hhead
    rw [hrest] at happend
    rw [← happend, List.splitOnP_append_cons_of_forall_mem hpiece c hc, List.foldl_cons, happend,
      List.splitOnP_cons_eq_if_modifyHead, if_pos hc, List.foldl_cons, hskip]

end

/-! ## Names put together -/

omit [DecidableEq α]

theorem intercalate_concat (x : α) (ns : List (List α)) (n : List α) :
    [x].intercalate (ns ++ [n]) = [x].intercalate ns ++ (if ns = [] then [] else [x]) ++ n := by
  induction ns with
  | nil => simp
  | cons m ns ih =>
    rw [List.cons_append, List.intercalate_cons_of_ne_nil (by simp), ih, if_neg (List.cons_ne_nil m ns)]
    by_cases hns : ns = []
    · simp [hns]
    · rw [if_neg hns, List.intercalate_cons_of_ne_nil hns]
      simp only [List.append_assoc]

/-- The first names of a list are spelled at the front. -/
theorem intercalate_isPrefix (x : α) (ns : List (List α)) (ms : List (List α)) :
    [x].intercalate ns <+: [x].intercalate (ns ++ ms) := by
  induction ms using List.reverseRecOn with
  | nil => simp
  | append_singleton ms m ih =>
    rw [← List.append_assoc, intercalate_concat]
    exact ih.trans ⟨_, by rw [List.append_assoc]⟩

/-- Names that are not empty and hold no separator: the spelling does not end in one. -/
theorem getLast?_intercalate (hns : ns ≠ []) (h : ∀ n ∈ ns, n ≠ [] ∧ x ∉ n) :
    ∃ c, ([x].intercalate ns).getLast? = some c ∧ c ≠ x := by
  obtain ⟨init, n, rfl⟩ := List.eq_nil_or_concat ns |>.resolve_left hns
  obtain ⟨hne, hmem⟩ := h n (by simp)
  obtain ⟨c, hc⟩ := Option.ne_none_iff_exists'.mp fun h0 => hne (List.getLast?_eq_none_iff.mp h0)
  refine ⟨c, ?_, fun hcx => hmem (hcx ▸ List.mem_of_getLast? hc)⟩
  rw [List.concat_eq_append, intercalate_concat, List.getLast?_append, hc]
  rfl

/-- Nor does it start with one. -/
theorem head?_intercalate (hns : ns ≠ []) (h : ∀ n ∈ ns, n ≠ [] ∧ x ∉ n) :
    ∃ c, ([x].intercalate ns).head? = some c ∧ c ≠ x := by
  obtain ⟨n, rest, rfl⟩ := List.exists_cons_of_ne_nil hns
  obtain ⟨hne, hmem⟩ := h n List.mem_cons_self
  obtain ⟨c, n', rfl⟩ := List.exists_cons_of_ne_nil hne
  refine ⟨c, ?_, fun hcx => hmem (hcx ▸ List.mem_cons_self)⟩
  by_cases hrest : rest = []
  · rw [hrest, List.intercalate_singleton]
    rfl
  · rw [List.intercalate_cons_of_ne_nil hrest]
    rfl

theorem intercalate_ne_nil (hns : ns ≠ []) (h : ∀ n ∈ ns, n ≠ [] ∧ x ∉ n) : [x].intercalate ns ≠ [] := by
  obtain ⟨c, hc, -⟩ := getLast?_intercalate hns h
  intro hnil
  rw [hnil] at hc
  cases hc

end Separated
