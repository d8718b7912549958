import Linewise.Function
import Mathlib.Data.List.Basic

/-!
# Binding of arguments

A function of `k` parameters that is called with `m` arguments has a slot for each parameter.
The first `m` slots are given the arguments, and the others their defaults, each its own: the
defaults are taken from slot `m` on, as many as are there one after the other
(`Function.map_some_presentDefaults`), so that none comes into a slot before or after its own
(`Function.getElem?_filled`).

The call goes through if that fills all slots and nothing is left over. Otherwise it is told
how many slots are filled: the arguments, and the defaults up to the first that is missing.
-/

namespace Linewise

namespace Function

variable {f : Function} {args : List Value} {names : List String}

/-- The default of a slot, if it has one. -/
def default? (f : Function) (slot : Nat) : Option Value :=
  f.defaults[slot]?.join

/-- What a slot is given: an argument, or else its default. -/
def given? (f : Function) (args : List Value) (slot : Nat) : Option Value :=
  args[slot]?.or (f.default? slot)

/-- The number of defaults that are there from a slot on, up to the first that is missing. -/
def presentFrom (f : Function) (slot : Nat) : Nat :=
  ((f.defaults.drop slot).takeWhile Option.isSome).length

theorem map_some_presentDefaults (count : Nat) (defaults : List (Option Value)) :
    (presentDefaults count defaults).map some = (defaults.takeWhile Option.isSome).take count := by
  induction defaults generalizing count with
  | nil => simp [presentDefaults]
  | cons d defaults ih =>
    rcases count with _ | count
    · simp [presentDefaults]
    · rcases d with _ | v
      · simp [presentDefaults]
      · simp [presentDefaults, ih]

theorem length_presentDefaults (count slot : Nat) :
    (presentDefaults count (f.defaults.drop slot)).length = min count (f.presentFrom slot) := by
  have h := congrArg List.length (map_some_presentDefaults count (f.defaults.drop slot))
  simpa [presentFrom] using h

/-- No default is taken out of its place. -/
theorem getElem?_presentDefaults {count i : Nat} {defaults : List (Option Value)}
    (hi : i < (presentDefaults count defaults).length) :
    (presentDefaults count defaults)[i]? = defaults[i]?.join := by
  obtain ⟨rest, hrest⟩ : (presentDefaults count defaults).map some <+: defaults := by
    rw [map_some_presentDefaults]
    exact (List.take_prefix _ _).trans (List.takeWhile_prefix _)
  have hget : defaults[i]? = ((presentDefaults count defaults).map some)[i]? := by
    conv_lhs => rw [← hrest]
    exact List.getElem?_append_left (by simpa using hi)
  rw [hget]
  simp [hi]

/-- There are as many defaults from a slot on as slots that have one. -/
theorem le_presentFrom_iff {slot count : Nat} :
    count ≤ f.presentFrom slot ↔ ∀ i < count, (f.default? (slot + i)).isSome := by
  simp only [presentFrom, default?, ← List.getElem?_drop]
  generalize f.defaults.drop slot = defaults
  induction defaults generalizing count with
  | nil =>
    refine ⟨fun h i hi => absurd (Nat.lt_of_lt_of_le hi h) (Nat.not_lt_zero i), fun h => ?_⟩
    refine Nat.le_of_not_lt fun hpos => ?_
    cases h 0 hpos
  | cons d defaults ih =>
    rcases count with _ | count
    · exact iff_of_true (Nat.zero_le _) nofun
    rcases d with _ | v
    · refine iff_of_false (Nat.not_succ_le_zero count) fun h => ?_
      cases h 0 (Nat.succ_pos count)
    · have hrest : (∀ i < count + 1, ((some v :: defaults)[i]?.join).isSome) ↔
          ∀ i < count, (defaults[i]?.join).isSome := by
        refine ⟨fun h i hi => h (i + 1) (Nat.succ_lt_succ hi), fun h i hi => ?_⟩
        rcases i with _ | i
        · rfl
        · exact h i (Nat.lt_of_succ_lt_succ hi)
      rw [hrest, ← ih, List.takeWhile_cons_of_pos rfl, List.length_cons, Nat.succ_le_succ_iff]

/-- The arguments, and the defaults that are taken after them. -/
def filled (f : Function) (args : List Value) (count : Nat) : List Value :=
  args ++ presentDefaults (count - args.length) (f.defaults.drop args.length)

theorem bind_fixed (h : f.arity = .fixed names) :
    f.bind args =
      if (f.filled args names.length).length = names.length then
        .ok (names.zip (f.filled args names.length))
      else .error (.wrongArity f.name (f.filled args names.length).length names.length) := by
  rw [bind, h]
  rfl

theorem length_filled (count : Nat) :
    (f.filled args count).length =
      args.length + min (count - args.length) (f.presentFrom args.length) := by
  rw [filled, List.length_append, length_presentDefaults]

/-- Every slot that is filled is given its own argument or default. -/
theorem getElem?_filled {count i : Nat} (hi : i < (f.filled args count).length) :
    (f.filled args count)[i]? = f.given? args i := by
  rw [given?]
  rcases Nat.lt_or_ge i args.length with hlt | hge
  · rw [filled, List.getElem?_append_left hlt, List.getElem?_eq_getElem hlt]
    rfl
  · obtain ⟨j, rfl⟩ := Nat.exists_eq_add_of_le hge
    rw [filled, List.length_append] at hi
    rw [filled, List.getElem?_append_right hge, List.getElem?_eq_none hge, Option.none_or,
      Nat.add_sub_cancel_left, getElem?_presentDefaults (by omega), List.getElem?_drop]
    rfl

/-- All slots are filled, and nothing is left over, just if there are not too many arguments
    and the slots after them have defaults. -/
theorem length_filled_eq_iff {count : Nat} :
    (f.filled args count).length = count ↔
      args.length ≤ count ∧ ∀ i, args.length ≤ i → i < count → (f.default? i).isSome := by
  have hslots : count - args.length ≤ f.presentFrom args.length ↔
      ∀ i, args.length ≤ i → i < count → (f.default? i).isSome := by
    rw [le_presentFrom_iff]
    constructor
    · intro h i hle hlt
      obtain ⟨j, rfl⟩ := Nat.exists_eq_add_of_le hle
      exact h j (by omega)
    · intro h j hj
      exact h _ (Nat.le_add_right _ _) (by omega)
  rw [← hslots, length_filled]
  omega

/-- Names are bound to what the slots are given. -/
theorem zip_filled (h : (f.filled args names.length).length = names.length) :
    (names.zip (f.filled args names.length)).map (Prod.map id some) =
      names.mapIdx fun i name => (name, f.given? args i) := by
  refine List.ext_getElem (by simp [h]) fun i _ hi => ?_
  have hfilled : i < (f.filled args names.length).length := by
    simpa [h] using hi
  have hgiven : some (f.filled args names.length)[i] = f.given? args i := by
    rw [← getElem?_filled hfilled, List.getElem?_eq_getElem hfilled]
  simp [hgiven]

end Function

/-- A call binds all parameters in order or none. With parameters, it goes through just if
    there are not too many arguments and every slot after them has a default, and then each
    parameter is given its own argument or default; else it is an arity fault, which counts
    the arguments and the defaults that follow them. A function without a fixed number of
    parameters takes any arguments, and numbers them. -/
theorem arguments_bound (f : Function) (args : List Value) :
    (∀ names, f.arity = .fixed names →
      ((∃ bound, f.bind args = .ok bound) ↔ args.length ≤ names.length ∧
        ∀ i, args.length ≤ i → i < names.length → (f.default? i).isSome) ∧
      (∀ bound, f.bind args = .ok bound →
        bound.map (Prod.map id some) = names.mapIdx fun i name => (name, f.given? args i)) ∧
      ∀ e, f.bind args = .error e →
        let count := if args.length < names.length then
          args.length + f.presentFrom args.length else args.length
        e.report = ⟨.arity, s!"Incorrect number of arguments for function '{f.name}'",
          s!"{count} out of {names.length} given"⟩) ∧
    (f.arity = .variadic →
      ∃ bound, f.bind args = .ok bound ∧ bound.map (·.2) = args ∧
        bound.map (·.1) = (List.range args.length).map fun i => s!"arg{i}") := by
  refine ⟨fun names hnames => ?_, fun hvariadic => ?_⟩
  · rw [Function.bind_fixed hnames]
    by_cases hlength : (f.filled args names.length).length = names.length
    · rw [if_pos hlength]
      refine ⟨iff_of_true ⟨_, rfl⟩ (Function.length_filled_eq_iff.1 hlength), ?_, nofun⟩
      rintro _ ⟨⟩
      exact Function.zip_filled hlength
    · rw [if_neg hlength]
      refine ⟨iff_of_false nofun (mt Function.length_filled_eq_iff.2 hlength), nofun, ?_⟩
      rintro _ ⟨⟩ count
      have hcount : (f.filled args names.length).length = count := by
        have hfilled := @Function.length_filled f args names.length
        simp only [count]
        split <;> omega
      rw [hcount]
      rfl
  · have hbind : f.bind args = .ok (args.mapIdx fun i v => (s!"arg{i}", v)) := by
      rw [Function.bind, hvariadic]
    refine ⟨_, hbind, ?_, ?_⟩
    · refine List.ext_getElem (by simp) fun i hi hi' => ?_
      simp
    · refine List.ext_getElem (by simp) fun i hi hi' => ?_
      simp

/-- The second parameter has a default and the third one has none, so one argument is not
    enough, but three are. -/
theorem arguments_bound_gap :
    let f : Function :=
      { name := "f", arity := .fixed ["a", "b", "c"], body := .line []
        defaults := [none, some (.integer 1), none, some (.integer 2)] }
    f.arity = .fixed ["a", "b", "c"] ∧
      (∃ e, f.bind [.nil] = .error e ∧ e.report.hint = "2 out of 3 given") ∧
      ∃ bound, f.bind [.nil, .boolean true, .nil] = .ok bound ∧
        bound.map (Prod.map id some) =
          [("a", some .nil), ("b", some (.boolean true)), ("c", some .nil)] := by
  intro f
  have hone : f.bind [.nil] = .error (.wrongArity "f" 2 3) := rfl
  obtain ⟨-, -, hreport⟩ := (arguments_bound f [.nil]).1 _ rfl
  obtain ⟨hiff, hbound, -⟩ := (arguments_bound f [.nil, .boolean true, .nil]).1 _ rfl
  obtain ⟨bound, hthree⟩ := hiff.2 ⟨Nat.le_refl 3, fun i hle hlt => absurd hle (Nat.not_le.2 hlt)⟩
  have hhint := (congrArg Report.hint (hreport _ hone)).trans
    (show _ = "2 out of 3 given" by decide)
  exact ⟨rfl, ⟨_, hone, hhint⟩, bound, hthree, hbound _ hthree⟩

end Linewise
