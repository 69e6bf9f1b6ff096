import Mathlib.Data.List.Induction
import Mathlib.Data.List.Sort

/-!
# Journals

Calls, one after the other, each enter a list of items; the journal has the items of all of them, each with the number of its
call (`number`). The items of a call stand together in it, and the calls in order.
-/

namespace Journal

universe u

variable {α : Type u}

/-- The items of the lists, one list after the other, each with the number of its list. -/
def number (ls : List (List α)) : List (Nat × α) := ls.zipIdx.flatMap fun p => p.1.map (p.2, ·)

end Journal
