import Mathlib.Data.List.Basic

/-!
# A terminal that knows colours

What a terminal shows of a stream of bytes: each byte in the renditions that were selected since the last reset. `ESC [ n m` selects
the rendition `n`, and `0` resets; other control sequences, and the two bytes of any other escape, are not shown.
-/

namespace Terminal

/-- `ESC`. -/
def esc : UInt8 := 27

/-- Where the terminal is in an escape sequence. -/
inductive Mode where
  | ground
  | escape
  | control (params : List UInt8)
  deriving DecidableEq, Repr

structure State where
  mode : Mode
  renditions : List Nat
  deriving DecidableEq, Repr

/-- Between two sequences, with nothing selected. -/
def State.reset : State := ⟨.ground, []⟩

/-- The number that digits stand for. -/
def number (digits : List UInt8) : Nat := digits.foldl (fun n d => 10 * n + (d.toNat - 48)) 0

/-- What `ESC [ params m` selects. -/
def select (renditions : List Nat) (params : List UInt8) : List Nat :=
  (params.splitOn 59).foldl (fun rs ds => if number ds = 0 then [] else rs ++ [number ds]) renditions

/-- A byte: what is shown of it, and what it does. -/
def step (s : State) (b : UInt8) : List (List Nat × UInt8) × State :=
  match s.mode with
  | .ground => if b = esc then ([], { s with mode := .escape }) else ([(s.renditions, b)], s)
  | .escape => ([], { s with mode := if b = 91 then .control [] else .ground })
  | .control params =>
    if 48 ≤ b ∧ b < 64 then ([], { s with mode := .control (params ++ [b]) })
    else ([], ⟨.ground, if b = 109 then select s.renditions params else s.renditions⟩)

/-- What is shown of some bytes, and where they leave the terminal. -/
def display (s : State) : List UInt8 → List (List Nat × UInt8) × State
  | [] => ([], s)
  | b :: bs => ((step s b).1 ++ (display (step s b).2 bs).1, (display (step s b).2 bs).2)

theorem display_append (bs cs : List UInt8) : ∀ s : State,
    display s (bs ++ cs) = ((display s bs).1 ++ (display (display s bs).2 cs).1, (display (display s bs).2 cs).2) := by
  induction bs with
  | nil =>
    intro s
    rfl
  | cons b bs ih =>
    intro s
    rw [List.cons_append, display, ih, display, List.append_assoc]

/-- Between two sequences a text is shown as it is. -/
theorem display_text (renditions : List Nat) {text : List UInt8} (h : esc ∉ text) :
    display ⟨.ground, renditions⟩ text = (text.map fun b => (renditions, b), ⟨.ground, renditions⟩) := by
  induction text with
  | nil => rfl
  | cons b text ih =>
    have hb : b ≠ esc := fun he => h (he ▸ List.mem_cons_self)
    have htext : esc ∉ text := fun hm => h (List.mem_cons_of_mem b hm)
    have hstep : step ⟨.ground, renditions⟩ b = ([(renditions, b)], ⟨.ground, renditions⟩) := by
      rw [step, if_neg hb]
    rw [display, hstep, ih htext]
    rfl

/-- Pieces that each start and end reset are shown one after the other. -/
theorem display_flatMap {α : Type} {f : α → List UInt8} {g : α → List (List Nat × UInt8)} {xs : List α}
    (h : ∀ x ∈ xs, display .reset (f x) = (g x, .reset)) : display .reset (xs.flatMap f) = (xs.flatMap g, .reset) := by
  induction xs with
  | nil => rfl
  | cons x xs ih =>
    rw [List.flatMap_cons, display_append, h x List.mem_cons_self, ih fun y hy => h y (List.mem_cons_of_mem x hy)]
    rfl

end Terminal
