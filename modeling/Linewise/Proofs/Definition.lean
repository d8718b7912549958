import Linewise.Proofs.Library

/-!
# Definitions of functions

What the registry holds after any number of definitions, of which some may have failed
(`Registry.attempts`): for each name the function that was last defined under it, and the
standard library under its own names (`Registry.Records`). A function keeps its place when it is
defined anew, so that whoever holds it calls the new one from then on.

The registry of a program is always one after some definitions, and every step of the program
only adds to them (`Progress.allowed_attempts`).
-/

namespace Linewise

namespace Registry

/-- The registry after the attempt to define a function, which leaves it as it is if it
    fails. -/
def attempt (r : Registry) (F : Function) : Registry :=
  match r.define F with
  | .ok (_, r) => r
  | .error _ => r

/-- The registry after the attempts to define some functions. -/
def attempts (r : Registry) (Fs : List Function) : Registry :=
  Fs.foldl attempt r

/-- The last function called `name`. -/
def lastOf (name : String) (Fs : List Function) : Option Function :=
  (Fs.filter (·.name == name)).getLast?

variable {r r' : Registry} {F : Function} {f : FunctionRef} {name : String}

/-! ## One definition -/

theorem attempt_of_ok (h : r.define F = .ok (f, r')) : r.attempt F = r' := by
  rw [attempt, h]

/-- Only the names of the standard library cannot be defined. -/
theorem define_of_builtin (h : (Builtin.ofName? F.name).isSome) :
    r.define F = .error (.builtinRedefined F.name) :=
  if_pos h

theorem attempt_of_builtin (h : (Builtin.ofName? F.name).isSome) : r.attempt F = r := by
  rw [attempt, define_of_builtin h]

theorem exists_define (h : Builtin.ofName? F.name = none) : ∃ f r', r.define F = .ok (f, r') := by
  rw [define, h]
  cases r.defined? F.name with
  | none => exact ⟨_, _, rfl⟩
  | some f => exact ⟨_, _, rfl⟩

theorem ofName?_of_define (h : r.define F = .ok (f, r')) : Builtin.ofName? F.name = none := by
  refine Option.not_isSome_iff_eq_none.1 fun hsome => ?_
  rw [define_of_builtin hsome] at h
  cases h

/-- A name that is taken keeps its function, and a definition concerns no other name. -/
theorem defined?_of_define (h : r.define F = .ok (f, r')) (name : String) :
    r'.defined? name = if name = F.name then some f else r.defined? name := by
  rw [define, ofName?_of_define h] at h
  cases hname : r.defined? F.name with
  | some ref =>
    rw [hname] at h
    cases h
    split
    · rename_i heq
      rw [heq]
      exact hname
    · rfl
  | none =>
    rw [hname] at h
    cases h
    rw [defined?, List.lookup_cons]
    split
    · rename_i heq
      rw [if_pos (eq_of_beq heq)]
    · rename_i hne
      rw [if_neg fun heq => Bool.eq_false_iff.1 hne (beq_iff_eq.2 heq)]
      rfl

theorem find?_of_ofName? (h : Builtin.ofName? name = none) : r.find? name = r.defined? name := by
  rw [find?, h, Option.map_none, Option.or_none]

/-- Each function of the program is found under its name, and the standard library is in its
    place. -/
structure Sound (r : Registry) : Prop where
  builtin : ∀ b, r.get? (builtinRef b) = some (.ofBuiltin b)
  stored : ∀ p ∈ r.names, Builtin.ofName? p.1 = none ∧ Builtin.all.length ≤ p.2.index ∧
    ∃ F, r.get? p.2 = some F ∧ F.name = p.1

theorem sound_standard : standard.Sound where
  builtin := intact_standard.builtin
  stored := nofun

namespace Sound

variable (hr : r.Sound)

include hr

theorem stored_of_defined? (h : r.defined? name = some f) :
    Builtin.ofName? name = none ∧ Builtin.all.length ≤ f.index ∧
      ∃ F, r.get? f = some F ∧ F.name = name := by
  obtain ⟨l₁, l₂, hnames, -⟩ := List.lookup_eq_some_iff.1 h
  exact hr.stored (name, f) (hnames ▸ List.mem_append_right l₁ List.mem_cons_self)

/-- The standard library is found under its own names. -/
theorem find?_builtin (b : Builtin) : r.find? b.name = some (builtinRef b) := by
  have hdefined : r.defined? b.name = none := by
    refine Option.eq_none_iff_forall_ne_some.2 fun f hf => ?_
    have hname := (hr.stored_of_defined? hf).1
    rw [Builtin.ofName?_name] at hname
    cases hname
  rw [find?, hdefined, Builtin.ofName?_name]
  rfl

/-- What is defined is at its place. -/
theorem get?_define (h : r.define F = .ok (f, r')) : r'.get? f = some F := by
  rw [Registry.define, ofName?_of_define h] at h
  cases hname : r.defined? F.name with
  | some ref =>
    rw [hname] at h
    cases h
    obtain ⟨-, -, G, hG, -⟩ := hr.stored_of_defined? hname
    have hlt := (Array.getElem?_eq_some_iff.1 hG).1
    exact Array.getElem?_setIfInBounds_self_of_lt hlt
  | none =>
    rw [hname] at h
    cases h
    exact Array.getElem?_push_size

theorem define (h : r.define F = .ok (f, r')) : r'.Sound := by
  obtain ⟨-, hf, hnames, hother, -⟩ := define_eq_ok h
  have hself := hr.get?_define h
  have hle : Builtin.all.length ≤ f.index := by
    refine hf.elim (fun heq => heq ▸ ?_) fun hmem => (hr.stored _ hmem).2.1
    exact (Array.getElem?_eq_some_iff.1 (hr.builtin .exit)).1
  refine ⟨fun b => ?_, fun p hp => ?_⟩
  · rw [hother _ fun heq => Nat.not_lt.2 hle (heq ▸ index_builtinRef_lt b)]
    exact hr.builtin b
  rcases hnames p hp with hp | rfl
  · -- If the place is the one that was defined, it has had this name before.
    obtain ⟨hname, hplace, G, hG, hGname⟩ := hr.stored p hp
    refine ⟨hname, hplace, ?_⟩
    by_cases heq : p.2 = f
    · refine ⟨F, heq ▸ hself, ?_⟩
      rw [heq] at hG
      rcases hf with hsize | hmem
      · exact absurd (Array.getElem?_eq_some_iff.1 hG).1 (Nat.not_lt.2 (Nat.le_of_eq hsize.symm))
      · obtain ⟨-, -, G', hG', hGname'⟩ := hr.stored _ hmem
        cases hG.symm.trans hG'
        exact hGname'.symm.trans hGname
    · exact ⟨G, (hother _ heq).trans hG, hGname⟩
  · exact ⟨ofName?_of_define h, hle, F, hself, rfl⟩

theorem attempt (F : Function) : (r.attempt F).Sound := by
  rw [Registry.attempt]
  split
  · rename_i h
    exact hr.define h
  · exact hr

theorem attempts (Fs : List Function) : (r.attempts Fs).Sound := by
  induction Fs generalizing r with
  | nil => exact hr
  | cons F Fs ih => exact ih (hr.attempt F)

/-- The function that a name stands for, after a definition. -/
theorem get?_find?_define (h : r.define F = .ok (f, r')) (hname : Builtin.ofName? name = none) :
    (r'.find? name).bind r'.get? =
      if F.name = name then some F else (r.find? name).bind r.get? := by
  rw [find?_of_ofName? hname, find?_of_ofName? hname, defined?_of_define h]
  split
  case isTrue heq => rw [if_pos heq.symm, Option.bind_some, hr.get?_define h]
  case isFalse hne =>
    rw [if_neg (Ne.symm hne)]
    refine Option.bind_congr fun g hg => ?_
    obtain ⟨-, -, -, hother, -⟩ := define_eq_ok h
    -- Functions of different names are in different places.
    refine hother g fun heq => hne ?_
    have hg' : r'.defined? name = some g := by rw [defined?_of_define h, if_neg hne, hg]
    obtain ⟨-, -, G, hG, hGname⟩ := (hr.define h).stored_of_defined? hg'
    rw [heq, hr.get?_define h] at hG
    cases hG
    exact hGname.symm

end Sound

/-! ## Any number of definitions -/

theorem attempts_append (r : Registry) (Fs Gs : List Function) :
    r.attempts (Fs ++ Gs) = (r.attempts Fs).attempts Gs :=
  List.foldl_append

theorem lastOf_cons (name : String) (F : Function) (Fs : List Function) :
    lastOf name (F :: Fs) = (lastOf name Fs).or (if F.name = name then some F else none) := by
  rw [lastOf, List.filter_cons]
  split
  case isTrue heq =>
    rw [if_pos (eq_of_beq heq), List.getLast?_cons, lastOf]
    cases (Fs.filter (·.name == name)).getLast? <;> rfl
  case isFalse hne =>
    rw [if_neg fun heq => hne (beq_iff_eq.2 heq), Option.or_none]
    rfl

theorem find?_attempt (h : r.find? name = some f) (F : Function) :
    (r.attempt F).find? name = some f := by
  rw [attempt]
  split
  case h_2 => exact h
  case h_1 ref r' hdefine =>
    by_cases heq : name = F.name
    · -- The function that has the name keeps its place.
      have hname := ofName?_of_define hdefine
      have hdefined : r.defined? F.name = some f := by rw [← find?_of_ofName? hname, ← heq, h]
      rw [define, hname, hdefined] at hdefine
      cases hdefine
      rw [heq, find?_of_ofName? hname]
      exact hdefined
    · rw [find?, defined?_of_define hdefine, if_neg heq]
      exact h

/-- A name keeps its function, whatever is defined. -/
theorem find?_attempts (h : r.find? name = some f) (Fs : List Function) :
    (r.attempts Fs).find? name = some f := by
  induction Fs generalizing r with
  | nil => exact h
  | cons F Fs ih => exact ih (find?_attempt h F)

/-- A name stands for the last function that was defined under it. -/
theorem Sound.get?_find?_attempts (hr : r.Sound) (Fs : List Function)
    (hname : Builtin.ofName? name = none) :
    ((r.attempts Fs).find? name).bind (r.attempts Fs).get? =
      (lastOf name Fs).or ((r.find? name).bind r.get?) := by
  induction Fs generalizing r with
  | nil => exact (Option.none_or).symm
  | cons F Fs ih =>
    show (((r.attempt F).attempts Fs).find? name).bind ((r.attempt F).attempts Fs).get? = _
    rw [ih (hr.attempt F), lastOf_cons, Option.or_assoc]
    congr 1
    cases hbuiltin : Builtin.ofName? F.name with
    | some b =>
      have hne : F.name ≠ name := fun heq => by
        rw [heq, hname] at hbuiltin
        cases hbuiltin
      rw [attempt_of_builtin (Option.isSome_of_eq_some hbuiltin), if_neg hne, Option.none_or]
    | none =>
      obtain ⟨f, r', h⟩ := exists_define (r := r) hbuiltin
      rw [attempt_of_ok h, hr.get?_find?_define h hname]
      split <;> rfl

end Registry

/-! ## Calls -/

namespace Call

variable (evaluate : Group → Run Value)

/-- The value of a call of a function, given what it does. -/
def invoke (F : Function) (arg : Value) : Run Value := do
  let bindings ← Run.reading fun m => F.bind (m.memory.arguments arg)
  Run.held <|
    match F.body with
    | .native b => native evaluate b (bindings.map (·.2))
    | .line g => Run.withFrame bindings (Run.nested (evaluate g))
    | .block b => Run.withFrame bindings (Run.nested (runBlock evaluate b true))

theorem function_of_get? {F : Function} {f : FunctionRef} {m : Machine}
    (h : m.memory.registry.get? f = some F) (arg : Value) :
    function evaluate f arg m = invoke evaluate F arg m := by
  have hget : (get : Run Machine) m = .ok m m := rfl
  rw [function, Run.bind_of_ok hget, h]
  rfl

end Call

/-- The names of the standard library are no constants and no numbers, so they call it. -/
theorem Statement.callable?_builtin {m : Machine} (hm : m.memory.registry.Sound) (b : Builtin) :
    callable? m (.symbol b.name) = some (.function (Registry.builtinRef b)) := by
  have hname : Symbol.isName b.name = true := by cases b <;> decide
  have hconstant : Scope.constant? b.name = none := by cases b <;> decide
  have hliteral : Symbol.literal? b.name = none := by cases b <;> decide
  have hfind : m.find? b.name = some (.function (Registry.builtinRef b)) := by
    rw [Scope.find?, hconstant, hliteral, hm.find?_builtin]
    rfl
  rw [callable?, if_pos hname, hfind]
  rfl

namespace Registry

/-- What is found in a registry after some definitions, and what comes of further ones. -/
structure Records (Fs : List Function) (r : Registry) : Prop where
  /-- A function of the program is stored under its name, which is none of the standard
      library. -/
  stored : ∀ p ∈ r.names, Builtin.ofName? p.1 = none ∧ ∃ F, r.get? p.2 = some F ∧ F.name = p.1
  /-- The names of the standard library are its own. -/
  library : ∀ b : Builtin, (r.find? b.name).bind r.get? = some (.ofBuiltin b)
  /-- Any other name stands for the last function defined under it. -/
  last : ∀ name, Builtin.ofName? name = none → (r.find? name).bind r.get? = lastOf name Fs
  /-- A definition fails if the name is one of the standard library, and then changes
      nothing. -/
  failing : ∀ F, (∃ e, r.define F = .error e) ↔ (Builtin.ofName? F.name).isSome
  /-- A function keeps its place, and what is called there is the last function defined. -/
  calls : ∀ {name f}, r.find? name = some f → ∀ Gs, (r.attempts Gs).find? name = some f ∧
    (Builtin.ofName? name = none → ∀ m : Machine, m.memory.registry = r.attempts Gs →
      ∃ F, lastOf name (Fs ++ Gs) = some F ∧ ∀ evaluate arg,
        Call.apply evaluate (.function f) arg m = Call.invoke evaluate F arg m)

theorem records_attempts (Fs : List Function) : (standard.attempts Fs).Records Fs := by
  have hsound := sound_standard.attempts Fs
  have hlast : ∀ (Fs : List Function) {name : String}, Builtin.ofName? name = none →
      ((standard.attempts Fs).find? name).bind (standard.attempts Fs).get? = lastOf name Fs := by
    intro Fs name hname
    rw [sound_standard.get?_find?_attempts Fs hname, find?_of_ofName? hname]
    exact Option.or_none
  constructor
  case stored =>
    intro p hp
    obtain ⟨hname, -, hF⟩ := hsound.stored p hp
    exact ⟨hname, hF⟩
  case library =>
    intro b
    rw [hsound.find?_builtin, Option.bind_some, hsound.builtin]
  case last => exact fun name => hlast Fs
  case failing =>
    intro F
    refine ⟨fun ⟨e, he⟩ => ?_, fun h => ⟨_, define_of_builtin h⟩⟩
    by_contra hname
    obtain ⟨f, r', h⟩ :=
      exists_define (r := standard.attempts Fs) (Option.not_isSome_iff_eq_none.1 hname)
    cases he.symm.trans h
  case calls =>
    intro name f hf Gs
    have hfound := find?_attempts hf Gs
    refine ⟨hfound, fun hname m hm => ?_⟩
    obtain ⟨-, -, F, hF, -⟩ := (hsound.attempts Gs).stored_of_defined?
      ((find?_of_ofName? hname).symm.trans hfound)
    refine ⟨F, ?_, fun evaluate arg => Call.function_of_get? evaluate (hm ▸ hF) arg⟩
    rw [← hlast _ hname, attempts_append, hfound, Option.bind_some, hF]

end Registry

/-! ## Programs -/

/-- The result is a function called `name`, which has been defined and is all that has changed in
    memory, or a failure that has changed nothing there. -/
def Assignment.Defines (name : String) (m : Machine) :
    EStateM.Result Interrupt Machine Value → Prop
  | .ok v m' => ∃ names body f r, v = .function f ∧
      m.memory.registry.define (.ofBody name names body) = .ok (f, r) ∧
      m'.memory = { m.memory with registry := r }
  | .error _ m' => m'.memory = m.memory

/-- What `let` does to functions. -/
theorem Assignment.defines (target : Target) (parameters body : Group) (m : Machine) :
    Defines (functionName m.memory target) m (Assignment.define target parameters body m) := by
  have hname : (get : Run Machine) m = .ok m m := rfl
  rw [Assignment.define, Run.bind_of_ok hname]
  -- Only the last step changes the memory.
  have hdefine : ∀ names (b : Body) (m' : Machine), m'.memory = m.memory →
      Defines (functionName m.memory target) m
        ((Run.define (.ofBody (functionName m.memory target) names b) >>= fun f =>
          pure (.function f)) m') := by
    intro names b m' hm'
    cases h : m'.memory.registry.define (.ofBody (functionName m.memory target) names b) with
    | ok p =>
      rw [Run.bind_of_ok (Run.define_of_ok h)]
      rw [hm'] at h
      exact ⟨names, b, p.1, p.2, rfl, h, by rw [hm']⟩
    | error e =>
      rw [Run.bind_eq_error.2 (.inl (Run.define_of_error h))]
      exact hm'
  cases hnames : parameterNames parameters with
  | error e => exact rfl
  | ok names =>
    have hparameters : Run.ofExcept (.ok names) m = .ok names m := rfl
    rw [Run.bind_of_ok hparameters]
    split
    case isFalse => exact hdefine names _ m rfl
    case isTrue =>
      obtain ⟨cursors, source, line, hafter, -⟩ := Run.onlyTakesLines_captureBlock false m
      cases hcapture : Run.captureBlock false m with
      | error e m' =>
        rw [Run.after_of_error hcapture] at hafter
        have hblock : (Body.block <$> Run.captureBlock false) m = .error e m' :=
          Run.bind_eq_error.2 (.inl hcapture)
        rw [Run.bind_eq_error.2 (.inl hblock)]
        exact congrArg (·.memory) hafter
      | ok b m' =>
        rw [Run.after_of_ok hcapture] at hafter
        have hblock : (Body.block <$> Run.captureBlock false) m = .ok (.block b) m' :=
          Run.bind_of_ok hcapture
        rw [Run.bind_of_ok hblock]
        exact hdefine names _ m' (congrArg (·.memory) hafter)

theorem Progress.allowed_attempts :
    Allowed fun p q => ∃ Fs, q.registry = p.registry.attempts Fs where
  refl _ := ⟨[], rfl⟩
  trans := by
    rintro p q s ⟨Fs, hFs⟩ ⟨Gs, hGs⟩
    exact ⟨Fs ++ Gs, by rw [hGs, hFs, Registry.attempts_append]⟩
  ended _ := ⟨[], rfl⟩
  defined _ hdefine := ⟨[_], (Registry.attempt_of_ok hdefine).symm⟩
  written _ := ⟨[], rfl⟩

/-- A statement only adds definitions. -/
theorem evaluateLine_attempts (m : Machine) (fuel : Nat) (line : String) :
    ∃ Fs, ((Call.evaluateLine (evaluate fuel) line).after m).memory.registry =
      m.memory.registry.attempts Fs :=
  Progress.allowed_attempts.evaluateLine m fuel line

theorem attempts_of_reaches {m₀ m : Machine} (h : Interpreter.Reaches (fun _ => True) m₀ m) :
    ∃ Fs, m.memory.registry = m₀.memory.registry.attempts Fs :=
  Progress.allowed_attempts.reaches h

end Linewise
