import Linewise.Value

/-!
# Frames

Each call of a function has a frame, in which it finds its variables by name.
Only the frame on top is ever looked at, so that a function cannot see the
variables of its caller. The outermost frame, that of the program itself, is
never taken away.
-/

namespace Linewise

/-- The variables of a call by name. -/
abbrev Frame := List (String × VarRef)

namespace Frame

def find? (f : Frame) (name : String) : Option VarRef :=
  f.lookup name

/-- The frame with `name` bound to a variable, in place of the one it was bound
    to. -/
def bind (f : Frame) (name : String) (r : VarRef) : Frame :=
  match f with
  | [] => [(name, r)]
  | (n, s) :: f => if n = name then (name, r) :: f else (n, s) :: Frame.bind f name r

theorem find?_bind (f : Frame) (name other : String) (r : VarRef) :
    (f.bind name r).find? other = if other = name then some r else f.find? other := by
  induction f with
  | nil =>
    simp only [bind, find?, List.lookup_cons, List.lookup_nil]
    split <;> simp_all
  | cons p f ih =>
    obtain ⟨n, s⟩ := p
    simp only [find?] at ih
    simp only [bind, find?]
    by_cases hn : n = name
    · subst hn
      simp only [if_true, List.lookup_cons]
      split <;> simp_all
    · rw [if_neg hn]
      simp only [List.lookup_cons, ih]
      split <;> simp_all

end Frame

/-- The frames of the calls that are running. -/
structure Frames where
  top : Frame
  /-- The frames of the callers, the innermost first. -/
  below : List Frame

namespace Frames

/-- The frame of the program alone. -/
def outermost : Frames where
  top := []
  below := []

/-- The number of frames. -/
def level (f : Frames) : Nat :=
  f.below.length + 1

/-- An empty frame on top. -/
def push (f : Frames) : Frames where
  top := []
  below := f.top :: f.below

/-- The frames without the one on top, unless it is the only one. -/
def pop (f : Frames) : Frames :=
  match f.below with
  | [] => f
  | top :: below => { top, below }

def find? (f : Frames) (name : String) : Option VarRef :=
  f.top.find? name

/-- The frames with `name` bound to a variable in the top one. -/
def bind (f : Frames) (name : String) (r : VarRef) : Frames :=
  { f with top := f.top.bind name r }

@[simp]
theorem pop_push (f : Frames) : f.push.pop = f := rfl

@[simp]
theorem level_push (f : Frames) : f.push.level = f.level + 1 := rfl

theorem pop_of_below {f : Frames} {top : Frame} {below : List Frame} (h : f.below = top :: below) :
    f.pop = { top, below } := by
  rw [pop, h]

theorem one_le_level (f : Frames) : 1 ≤ f.level :=
  Nat.le_add_left 1 _

theorem level_pop {f : Frames} (h : 1 < f.level) : f.pop.level + 1 = f.level := by
  obtain ⟨top, _ | ⟨next, below⟩⟩ := f
  · exact absurd h (Nat.lt_irrefl 1)
  · rfl

end Frames

end Linewise
