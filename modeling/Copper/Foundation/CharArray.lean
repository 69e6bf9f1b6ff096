import Mathlib.Data.List.TakeDrop

/-!
# Text in an array

What a bounded print leaves in an array (`printInto`), and a marker over the end of a text that was cut (`markEnd`). A text is
followed by a terminator, and a cut leaves room for it. The two move cells about and never look at them, so that whatever is
attached to the cells goes along (`map_printInto`, `map_markEnd`): with the origin of each cell attached, the array tells where
its text comes from.
-/

universe u v

namespace CharArray

variable {α : Type u} {β : Type v}

/-- Print a text into an array: as much of it as there is room for before the terminator. -/
def printInto (nul : α) (buf text : List α) : List α :=
  if buf.length = 0 then buf else text.take (buf.length - 1) ++ nul :: buf.drop (min text.length (buf.length - 1) + 1)

/-- Put a marker over the end of an array, if it has room for it, and the terminator in any case. -/
def markEnd (nul : α) (buf marker : List α) : List α :=
  if buf.length = 0 then buf
  else
    let marked :=
      if marker.length + 1 ≤ buf.length then
        buf.take (buf.length - 1 - marker.length) ++ marker ++ buf.drop (buf.length - 1)
      else buf
    marked.set (buf.length - 1) nul

variable {nul : α} {buf text marker : List α}

theorem map_printInto (f : α → β) (nul : α) (buf text : List α) :
    (printInto nul buf text).map f = printInto (f nul) (buf.map f) (text.map f) := by
  unfold printInto
  rw [List.length_map, List.length_map]
  split
  · rfl
  · rw [List.map_append, List.map_cons, List.map_take, List.map_drop]

theorem map_markEnd (f : α → β) (nul : α) (buf marker : List α) :
    (markEnd nul buf marker).map f = markEnd (f nul) (buf.map f) (marker.map f) := by
  unfold markEnd
  rw [List.length_map, List.length_map]
  split
  · rfl
  · dsimp only
    rw [List.map_set]
    split
    · rw [List.map_append, List.map_append, List.map_take, List.map_drop]
    · rfl

/-- A text that fits is all there, and the rest of the array is as it was. -/
theorem printInto_whole (h : text.length < buf.length) :
    printInto nul buf text = text ++ nul :: buf.drop (text.length + 1) := by
  rw [printInto, if_neg (by omega), List.take_of_length_le (by omega), Nat.min_eq_left (by omega)]

/-- A text that does not fit takes up the array. -/
theorem printInto_cut (hpos : 0 < buf.length) (h : buf.length ≤ text.length) :
    printInto nul buf text = text.take (buf.length - 1) ++ [nul] := by
  rw [printInto, if_neg (by omega), Nat.min_eq_right (by omega), List.drop_of_length_le (by omega)]

/-- A marker over the end of a text that takes up the array. -/
theorem markEnd_concat (hroom : marker.length ≤ text.length) (c : α) :
    markEnd nul (text ++ [c]) marker = text.take (text.length - marker.length) ++ marker ++ [nul] := by
  have hlen : (text.take (text.length - marker.length) ++ marker).length = text.length := by
    rw [List.length_append, List.length_take]
    omega
  unfold markEnd
  rw [List.length_append, List.length_singleton, if_neg (by omega), Nat.add_sub_cancel]
  dsimp only
  rw [if_pos (by omega), List.take_append_of_le_length (by omega), List.drop_left,
    List.set_append_right _ _ (Nat.le_of_eq hlen), hlen, Nat.sub_self, List.set_cons_zero]

/-- A marker that there is no room for leaves the text. -/
theorem markEnd_concat_short (hroom : text.length < marker.length) (c : α) :
    markEnd nul (text ++ [c]) marker = text ++ [nul] := by
  unfold markEnd
  rw [List.length_append, List.length_singleton, if_neg (by omega), Nat.add_sub_cancel]
  dsimp only
  rw [if_neg (by omega), List.set_append_right _ _ (Nat.le_refl _), Nat.sub_self, List.set_cons_zero]

/-- The marker over the end of a text that was cut. -/
theorem markEnd_printInto_cut (hroom : marker.length < buf.length) (h : buf.length ≤ text.length) (nul' : α) :
    markEnd nul (printInto nul' buf text) marker = text.take (buf.length - 1 - marker.length) ++ marker ++ [nul] := by
  have hlen : (text.take (buf.length - 1)).length = buf.length - 1 := by
    rw [List.length_take]
    omega
  rw [printInto_cut (by omega) h, markEnd_concat (by omega), hlen, List.take_take, Nat.min_eq_left (by omega)]

/-- The first terminator comes no later than any, and what is before it is a part of what is before that. -/
theorem exists_first_terminator (p q : α → Prop) {before : List α} {c : α} (after : List α) (hbefore : ∀ a ∈ before, q a) (hc : p c) :
    ∃ text c' rest, before ++ c :: after = text ++ c' :: rest ∧ p c' ∧ ∀ a ∈ text, ¬ p a ∧ q a := by
  induction before with
  | nil => exact ⟨[], c, after, rfl, hc, fun a h => absurd h List.not_mem_nil⟩
  | cons a before ih =>
    obtain ⟨ha, hbefore⟩ := List.forall_mem_cons.mp hbefore
    by_cases hp : p a
    · exact ⟨[], a, before ++ c :: after, rfl, hp, fun a h => absurd h List.not_mem_nil⟩
    · obtain ⟨text, c', rest, heq, hc', htext⟩ := ih hbefore
      refine ⟨a :: text, c', rest, ?_, hc', List.forall_mem_cons.mpr ⟨⟨hp, ha⟩, htext⟩⟩
      rw [List.cons_append, heq, List.cons_append]

end CharArray
