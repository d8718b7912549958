import Linewise.Proofs.Alike
import Linewise.Proofs.Nesting
import Linewise.Proofs.Purity
import Linewise.Proofs.Shape

/-!
# What is flattened again

A value is flattened where it becomes an argument: a variable is passed on by what it holds, and a
list by its elements. What comes out has no lists in it, but it may have variables, namely
references, and if it is flattened a second time these are passed on by what they hold. Each time
there are fewer variables on the way from what comes out (`Nests.of_mem_flatten`), so that nothing
comes back.

As long as a value is not endless, it does not matter for all this that there are more variables
by then (`Machine.Grows.flatten_eq`).
-/

namespace Linewise

/-! ## Elements of lists -/

theorem Value.var_ne_list {r : VarRef} {values : List Value} : var r ≠ list values := by
  intro h
  cases h

namespace Value.Element

variable {v : Value}

theorem of_false (h : v.Element false) : v.Element true := by
  cases v with
  | list values => exact h
  | var r => cases h
  | _ => trivial

theorem of_ne_var (h : v.Element true) (hvar : ∀ r, v ≠ .var r) : v.Element false := by
  cases v with
  | list values => exact h
  | var r => exact absurd rfl (hvar r)
  | _ => trivial

end Value.Element

namespace Memory

variable {m : Memory} {n k : Nat} {r : VarRef} {v w : Value} {values : List Value}

/-- Each of the values as arguments. -/
def flattenAll (m : Memory) (values : List Value) : List Value :=
  values.flatMap m.flatten

/-- No variables are on the way from what is neither a variable nor a list. -/
theorem nests_of_element (hv : v.Element false) : m.Nests n v := by
  refine .other (fun values heq => ?_) fun r heq => ?_
  · rw [heq] at hv
    exact hv
  · rw [heq] at hv
    cases hv

/-- What a variable comes to is what it holds, or is taken out of that. -/
theorem eq_or_mem_of_mem_contents (hw : w ∈ m.contents k r) :
    w = m.read r ∨ ∃ j, w ∈ (m.read r).flattenWith (m.contents j) := by
  cases k with
  | zero => exact absurd hw List.not_mem_nil
  | succ k =>
    rw [contents] at hw
    split at hw
    · rename_i values hread
      rw [hread]
      exact .inr ⟨k, hw⟩
    · exact .inl (List.mem_singleton.1 hw)

/-- No more variables are on the way from what comes out of a value than from the value. -/
theorem Nests.of_mem_flattenWith (h : m.Nests n v) (hw : w ∈ v.flattenWith (m.contents k)) :
    m.Nests n w := by
  induction h generalizing k w with
  | list _ ih =>
    rw [Value.flattenWith, Value.flattenAllWith_eq_flatMap, List.mem_flatMap] at hw
    obtain ⟨v, hv, hw⟩ := hw
    exact ih v hv hw
  | @var n k r hread hn ih =>
    rcases eq_or_mem_of_mem_contents hw with rfl | ⟨j, hw⟩
    · exact hread.mono (Nat.le_of_lt hn)
    · exact (ih hw).mono (Nat.le_of_lt hn)
  | @other n v hlist hvar =>
    cases v with
    | list values => exact absurd rfl (hlist values)
    | var r => exact absurd rfl (hvar r)
    | _ =>
      obtain rfl := List.mem_singleton.1 hw
      exact .other hlist hvar

/-- A variable is on the way from itself, and so there are fewer from what comes out of it. -/
theorem Nests.of_mem_flatten (h : m.Nests (n + 1) v) (hv : v.Element true)
    (hw : w ∈ m.flatten v) : m.Nests n w := by
  cases v with
  | list values => exact hv.elim
  | var r =>
    cases h with
    | var hread hn =>
      have hread := hread.mono (Nat.le_of_lt_succ hn)
      rcases eq_or_mem_of_mem_contents hw with rfl | ⟨j, hw⟩
      · exact hread
      · exact hread.of_mem_flattenWith hw
    | other _ hvar => exact absurd rfl (hvar r)
  | _ =>
    obtain rfl := List.mem_singleton.1 hw
    exact nests_of_element trivial

/-- What a value comes to has no lists in it. -/
theorem element_of_mem_flatten (hw : w ∈ m.flatten v) : w.Element true := by
  refine Value.flattenWith_element (contents_element (fun r hlist => ?_) _) v w hw
  cases hread : m.read r with
  | list values => exact absurd hread (hlist values)
  | var s => rfl
  | _ => trivial

theorem flatten_of_element (hv : v.Element false) : m.flatten v = [v] := by
  cases v with
  | list values => exact hv.elim
  | var r => cases hv
  | _ => rfl

/-- Values that are neither variables nor lists stay as they are. -/
theorem flattenAll_of_element (h : ∀ w ∈ values, w.Element false) :
    m.flattenAll values = values := by
  rw [flattenAll, List.flatMap_congr fun w hw => flatten_of_element (h w hw),
    List.flatMap_singleton']

/-- What holds of values, and of what comes out of them, holds after any number of times. -/
theorem forall_mem_iterate {P : Value → Prop} (hP : ∀ v, P v → ∀ w ∈ m.flatten v, P w)
    (h : ∀ w ∈ values, P w) (n : Nat) : ∀ w ∈ m.flattenAll^[n] values, P w := by
  induction n generalizing values with
  | zero => exact h
  | succ n ih =>
    refine ih fun w hw => ?_
    obtain ⟨v, hv, hw⟩ := List.mem_flatMap.1 hw
    exact hP v (h v hv) w hw

end Memory

/-! ## Variables that are added later -/

namespace Machine.Grows

variable {m m' : Machine} {v : Value} {r : VarRef}

theorem read_eq (h : m.Grows m') (hr : r.index < m.memory.vars.size) :
    m'.memory.read r = m.memory.read r := by
  rw [Memory.read, h.get?_eq hr, Memory.read]

theorem find?_eq (h : m.Grows m') (s : String) : m'.find? s = m.find? s := by
  obtain ⟨new, rfl⟩ := h
  rfl

theorem contents_eq (h : m.Grows m') (hm : m.memory.SelfContained) (n : Nat)
    (hr : r.index < m.memory.vars.size) : m'.memory.contents n r = m.memory.contents n r := by
  induction n generalizing r with
  | zero => rfl
  | succ n ih =>
    have hread := hm r
    rw [Memory.contents, Memory.contents, h.read_eq hr]
    split
    · rename_i values hlist
      rw [hlist] at hread
      exact Value.AllWithin.flattenAllWith_eq (fun _ hs => ih hs) hread
    · rfl

/-- A value that is not endless comes to the same arguments. -/
theorem flatten_eq (h : m.Grows m') (hm : m.memory.SelfContained) (hv : m.memory.Contains v)
    (hends : m.memory.Nests m.memory.vars.size v) : m'.memory.flatten v = m.memory.flatten v := by
  rw [Memory.flatten, hv.flattenWith_eq fun r hr => h.contents_eq hm m'.memory.vars.size hr,
    hends.flattenWith_eq h.size_le (Nat.le_refl _), Memory.flatten]

end Machine.Grows

end Linewise
