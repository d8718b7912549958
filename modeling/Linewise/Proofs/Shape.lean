import Linewise.Proofs.Loopless

/-!
# The shape of values

Lists do not nest: whatever moves a value takes it out of its list, or out of the
variable that holds it, first. The comma and calls flatten their operands and
arguments, and assignments, parameters and the results of functions take variables for
what they hold. Only `@` makes a variable hold another one, so without it there are no
references, neither in variables nor in lists.

This is shown for all values that a program can come by: those of variables, the
arguments of calls, and those of statements and of the groups in them.

* `Value.Element`, `Value.Held`, `Value.Listed`: what an element of a list, the value of
  a variable and that of a statement are like, with references or without;
* `Inspection`: checks of values in the middle of an evaluation;
* `lists_stay_flat`: after every line, and on the way.
-/

namespace Linewise

/-! ## Values -/

namespace Value

variable (refs : Bool)

/-- The value may be an element of a list: it is no list, and no variable either unless
    there are references. -/
def Element : Value → Prop
  | list _ => False
  | var _ => refs = true
  | _ => True

/-- The value may be that of an evaluation: if it is a list, then of elements. -/
def Listed : Value → Prop
  | list values => ∀ v ∈ values, v.Element refs
  | _ => True

/-- The value may be that of a variable: it is a variable itself only if there are
    references. -/
def Held : Value → Prop
  | var _ => refs = true
  | v => v.Listed refs

instance : ∀ v : Value, Decidable (v.Element refs)
  | list _ => inferInstanceAs <| Decidable False
  | var _ => inferInstanceAs <| Decidable (refs = true)
  | number _ | boolean _ | string _ | nil | loopExit | parameters _ | function _ | block _ =>
    .isTrue trivial

instance : ∀ v : Value, Decidable (v.Listed refs)
  | list values => inferInstanceAs <| Decidable (∀ v ∈ values, v.Element refs)
  | number _ | boolean _ | string _ | nil | loopExit | parameters _ | var _ | function _
  | block _ => .isTrue trivial

instance : ∀ v : Value, Decidable (v.Held refs)
  | var _ => inferInstanceAs <| Decidable (refs = true)
  | list values => inferInstanceAs <| Decidable ((list values).Listed refs)
  | number _ | boolean _ | string _ | nil | loopExit | parameters _ | function _ | block _ =>
    .isTrue trivial

variable {refs} {v : Value}

theorem listed_of_isList (h : v.isList = false) : v.Listed refs := by
  cases v with
  | list values => cases h
  | _ => trivial

theorem Held.listed (h : v.Held refs) : v.Listed refs := by
  cases v with
  | var r => trivial
  | _ => exact h

theorem Held.element (h : v.Held refs) (hlist : ∀ values, v ≠ list values) : v.Element refs := by
  cases v with
  | list values => exact absurd rfl (hlist values)
  | var r => exact h
  | _ => trivial

theorem Element.held (h : v.Element refs) : v.Held refs := by
  cases v with
  | list values => exact h.elim
  | var r => exact h
  | _ => trivial

end Value

/-- All variables have values that they may have. -/
def Memory.Shaped (refs : Bool) (m : Memory) : Prop :=
  ∀ x ∈ m.vars, x.value.Held refs

instance (refs : Bool) (m : Memory) : Decidable (m.Shaped refs) :=
  inferInstanceAs <| Decidable (∀ x ∈ m.vars, x.value.Held refs)

/-! ## What is flattened -/

mutual

/-- A value without the lists around the others in it consists of elements. -/
theorem Value.flattenWith_element {refs : Bool} {contents : VarRef → List Value}
    (hc : ∀ r, ∀ w ∈ contents r, w.Element refs) :
    ∀ v : Value, ∀ w ∈ v.flattenWith contents, w.Element refs
  | .list values => Value.flattenAllWith_element hc values
  | .var r => hc r
  | .number _ | .boolean _ | .string _ | .nil | .loopExit | .parameters _ | .function _
  | .block _ => List.forall_mem_singleton.2 trivial

theorem Value.flattenAllWith_element {refs : Bool} {contents : VarRef → List Value}
    (hc : ∀ r, ∀ w ∈ contents r, w.Element refs) :
    ∀ values : List Value, ∀ w ∈ Value.flattenAllWith contents values, w.Element refs
  | [] => List.forall_mem_nil _
  | v :: values => fun w hw =>
    (List.mem_append.1 hw).elim (Value.flattenWith_element hc v w)
      (Value.flattenAllWith_element hc values w)

end

namespace Memory

variable {refs : Bool} {m : Memory}

theorem shaped_of_read (h : ∀ r, (m.read r).Held refs) : m.Shaped refs := by
  intro x hx
  obtain ⟨i, hi, rfl⟩ := Array.mem_iff_getElem.1 hx
  have hread := h ⟨i⟩
  rwa [read, get?, Array.getElem?_eq_getElem hi] at hread

/-- What a variable comes to among arguments may be elements of a list, even if the
    variable holds a list of variables. -/
theorem contents_element
    (h : ∀ r, (∀ values, m.read r ≠ .list values) → (m.read r).Element refs) (n : Nat)
    (r : VarRef) : ∀ w ∈ m.contents n r, w.Element refs := by
  induction n generalizing r with
  | zero => exact List.forall_mem_nil _
  | succ n ih =>
    rw [contents]
    split
    · exact Value.flattenAllWith_element ih _
    · rename_i hlist
      exact List.forall_mem_singleton.2 (h r hlist)

variable (h : ∀ r, (m.read r).Held refs) {v : Value}

include h

theorem held_held (hv : v.Listed refs) : (m.held v).Held refs := by
  cases v with
  | var r => exact h r
  | _ => exact hv

theorem flatten_element (v : Value) : ∀ w ∈ m.flatten v, w.Element refs :=
  Value.flattenWith_element (contents_element (fun r hlist => (h r).element hlist) m.vars.size) v

theorem arguments_element (hv : v.Listed refs) : ∀ w ∈ m.arguments v, w.Element refs := by
  unfold arguments
  split
  · exact hv
  · exact flatten_element h _

/-- The comma makes a list of what its operands come to among arguments, and no other
    operator makes one. -/
theorem keeps_listed : Operation.Keeps m (Value.Listed refs) where
  nil := trivial
  modulus _ hv := Value.listed_of_isList (Operation.modulus_simple hv).isList
  negate _ hv := Value.listed_of_isList (Operation.negate_simple hv).isList
  apply {op a b v} ha hb hv := by
    by_cases hop : op = .enumerate
    · subst hop
      obtain rfl := Except.ok.inj hv
      intro w hw
      exact (List.mem_append.1 hw).elim (arguments_element h ha w) (flatten_element h b w)
    · exact Value.listed_of_isList (Operation.apply_simple_of_ne hop hv).isList

end Memory

/-! ## Inspections -/

/-- Checks of what an evaluation works with. -/
structure Inspection where
  /-- Before a group is evaluated. -/
  before : Group → Machine → Bool := fun _ _ => true
  /-- Of the argument of a call, before the call. -/
  argument : Value → Machine → Bool := fun _ _ => true
  /-- Of the value of a group, after its evaluation. -/
  after : Value → Machine → Bool := fun _ _ => true

namespace Inspection

variable (i : Inspection)

/-- A call, out of fuel if the check of its argument fails. -/
def call (evaluate : Group → Run Value) (c : Callable) (arg : Value) : Run Value :=
  Run.checked (i.argument arg) (Call.apply evaluate c arg)

/-- The value of a group, out of fuel as soon as a check fails. -/
def evaluate : Nat → Group → Run Value
  | 0, _ => throw .outOfFuel
  | fuel + 1, g =>
    Run.checked (i.before g) do
      let v ← Statement.statement (evaluate fuel) (i.call (evaluate fuel)) fuel g
      Run.checked (i.after v) (return v)

theorem evaluate_uninspected (fuel : Nat) : evaluate {} fuel = Linewise.evaluate fuel := by
  induction fuel with
  | zero => rfl
  | succ fuel ih =>
    have hcall : call {} (Linewise.evaluate fuel) = Call.apply (Linewise.evaluate fuel) :=
      funext fun c => funext fun arg => Run.checked_of_forall (fun _ => rfl) _
    have hafter : ∀ v : Value, Run.checked (fun _ => true) (return v) = return v :=
      fun v => Run.checked_of_forall (fun _ => rfl) _
    funext g
    rw [evaluate, ih, hcall, Run.checked_of_forall fun _ => rfl]
    simp only [hafter, bind_pure]
    rfl

/-- The statement on a line ends, and passes all checks. -/
def Admits (fuel : Nat) (line : String) (m : Machine) : Prop :=
  ∀ m', Call.evaluateLine (i.evaluate fuel) line m ≠ .error .outOfFuel m'

instance (fuel : Nat) (line : String) (m : Machine) : Decidable (i.Admits fuel line m) :=
  match h : Call.evaluateLine (i.evaluate fuel) line m with
  | .ok _ _ => .isTrue fun _ h' => nomatch h.symm.trans h'
  | .error (.fault _) _ => .isTrue fun _ h' => nomatch h.symm.trans h'
  | .error .outOfFuel m' => .isFalse fun hadmits => hadmits m' h

/-- The machines that a program comes to from `m`, by reading lines and by statements
    that pass all checks. -/
inductive Reaches (m : Machine) : Machine → Prop
  | refl : Reaches m m
  | read {m' : Machine} : Reaches m m' → Reaches m (Interpreter.readStatement.after m')
  | statement {m' : Machine} {fuel : Nat} {line : String} :
      Reaches m m' → i.Admits fuel line m' →
      Reaches m ((Interpreter.interpret fuel line).after m')

end Inspection

/-- Without references no group is evaluated that mentions `@`, in brackets or not. -/
def mentionInspection (refs : Bool) : Inspection where
  before g _ := refs || decide (Reference.make.symbol ∉ Item.allSymbols g)

/-- Wherever a group is evaluated, the variables have values that they may have, and so
    do those that arguments are bound to, and the value of the group. -/
def shapeInspection (refs : Bool) : Inspection where
  before _ m := decide (m.memory.Shaped refs)
  argument arg m := decide (∀ v ∈ m.memory.arguments arg, v.Element refs)
  after v m := decide (v.Listed refs ∧ m.memory.Shaped refs)

/-! ## The walk -/

/-- Along this walk all values are like they may be; without references, `@` is not met
    in any expression. -/
def shapeWalk (refs : Bool) : Walk where
  twin := id
  holds m := m.memory.Holding (Value.Held refs) (fun _ => True) fun _ => True
  leads _ _ := True
  lenient := refs = false
  shape := Value.Listed refs
  slot := Value.Held refs
  symbol s := refs = true ∨ s ≠ Reference.make.symbol

namespace shapeWalk

variable {refs : Bool} {m : Machine}

theorem step {f : Machine → Machine} (hm : (shapeWalk refs).holds (f m)) :
    (shapeWalk refs).Step f m :=
  ⟨hm, trivial, rfl⟩

theorem couples {α : Type} {P : α → Machine → Prop} {x : Run α} (hx : x.OnlyTakesLines)
    (hm : (shapeWalk refs).holds m) (hP : ∀ v m, P v m) : (shapeWalk refs).Couples P x x m :=
  hx.couples rfl (fun _ _ _ _ => ⟨hm, trivial⟩) hP

theorem bracket {enter leave : Machine → Machine} (henter : (shapeWalk refs).holds (enter m))
    (hleave : ∀ m', (leave m').memory = m'.memory) :
    (shapeWalk refs).Bracket (shapeWalk refs).reach enter leave m where
  enter_holds := henter
  enter_twin := rfl
  leave_holds m' hm' _ := by
    show (leave m').memory.Holding _ _ _
    rwa [hleave]
  leave_leads _ _ _ := trivial
  leave_twin _ _ _ := rfl
  leave_result _ _ _ _ hv := hv

theorem reach (v : Value) (m : Machine) : (shapeWalk refs).reach v m :=
  .of_forall (fun _ => trivial) fun _ => trivial

theorem define {name : String} {names : List String} {body : Body}
    (hm : (shapeWalk refs).holds m) (hbody : ∀ b, body ≠ .native b) :
    (shapeWalk refs).Couples (fun f _ => (shapeWalk refs).function f)
      (Run.define (.ofBody name names body)) (Run.define (.ofBody name names body)) m :=
  Coupling.couples_define rfl hm trivial fun hdefine =>
    ⟨step (hm.define trivial hbody hdefine).1, trivial⟩

theorem lawful : (shapeWalk refs).Lawful where
  refl _ := trivial
  trans _ _ := trivial
  closed _ _ _ := reach _ _
  found _ _ _ _ := reach _ _
  defaults _ _ _ := reach _ _
  shape_of_isList := Value.listed_of_isList
  shape_empty := List.forall_mem_nil _
  shape_of_slot := Value.Held.listed
  slot_held hm hv := Memory.held_held hm.read hv
  slot_arguments hm hv w hw := (Memory.arguments_element hm.read hv w hw).held
  slot_default hm hf hv := hm.intact.eq_nil_of_default hf hv ▸ trivial
  keeps hm := Memory.keeps_listed hm.read
  refer hm hs _ := ⟨step (hm.addVariable (hs.resolve_right fun hne => hne rfl)), trivial⟩
  declare hm _ hv := ⟨step (hm.addVariable hv.2), trivial⟩
  write hm _ _ _ _ hv := step (hm.write _ trivial hv.2)
  store hm _ := step (hm.addBlock trivial)
  define hm _ hbody _ := define hm hbody
  outward _ _ hm _ := step hm
  strict _ hm := step hm
  exit hm _ := Coupling.step_exitFrame rfl (fun _ => step hm) fun _ => step hm
  load hm _ _ := step hm
  readLine hm _ := couples Run.onlyTakesLines_readLine hm fun _ _ _ _ _ _ => trivial
  capture e hm _ := couples (Run.onlyTakesLines_captureBlock e) hm fun _ _ => trivial
  advance hm _ := couples Run.onlyTakesLines_advance hm fun _ _ _ _ _ _ => trivial
  cursor hm _ _ := bracket hm fun _ => rfl
  frame hm _ hb := by
    refine bracket ?_ fun m' => ?_
    · exact Machine.enterFrame_induction (motive := (shapeWalk refs).holds) hm
        fun m' hm' b hmem => hm'.addVariable (hb b hmem).2
    · obtain ⟨frames, h⟩ := m'.leaveFrame_eq _
      rw [h]
  deeper hm _ := bracket hm fun _ => rfl

theorem ne_of_not_mentions {g : Group} (hg : Reference.make.symbol ∉ Item.allSymbols g)
    {s : String} (hs : .symbol s ∈ g) : s ≠ Reference.make.symbol := by
  rintro rfl
  rw [Item.allSymbols_eq] at hg
  exact hg (List.mem_flatMap.2 ⟨_, hs, List.mem_cons_self⟩)

theorem parts {g : Group} (hg : (mentionInspection refs).before g m = true) :
    ∀ p ∈ Statement.parts g, (shapeWalk refs).part p m := by
  intro p hp
  cases p with
  | symbol s =>
    simp only [mentionInspection, Bool.or_eq_true, decide_eq_true_eq] at hg
    exact hg.imp_right fun hg => ne_of_not_mentions hg (Statement.within_of_parts hp)
  | _ => trivial

variable {i : Inspection}
  (hbefore : ∀ {g m}, (shapeWalk refs).holds m → i.before g m = true)
  (hargument : ∀ {v m}, (shapeWalk refs).holds m → (shapeWalk refs).value v m →
    i.argument v m = true)
  (hafter : ∀ {v m}, (shapeWalk refs).holds m → (shapeWalk refs).value v m → i.after v m = true)

include hbefore hargument hafter

/-- Inspected for `@`, an evaluation agrees with one that passes all checks where values
    are like they may be. -/
theorem agree (fuel : Nat) :
    (shapeWalk refs).Agree ((mentionInspection refs).evaluate fuel) (i.evaluate fuel) := by
  induction fuel with
  | zero => exact fun g m hm _ => Coupling.couples_throw lawful.toOrdered hm .outOfFuel
  | succ fuel ih =>
    intro g m hm _
    rw [Inspection.evaluate, Inspection.evaluate]
    refine Walk.couples_checked ?_ (fun _ => hbefore hm) fun hpassed => ?_
    · cases refs with
      | true => exact .inr rfl
      | false => exact .inl rfl
    have hagree : ∀ goal : Machine → Prop, (∀ m, goal m) →
        (shapeWalk refs).LeadTo goal ((mentionInspection refs).evaluate fuel) (i.evaluate fuel) :=
      fun goal hgoal g m hm hg => (ih hm hg).weaken fun _ m _ _ hv => ⟨hv, hgoal m⟩
    have hanswer : (shapeWalk refs).Answer (fun m => 2 < g.length → (shapeWalk refs).looks m)
        ((mentionInspection refs).call ((mentionInspection refs).evaluate fuel))
        (i.call (i.evaluate fuel)) := by
      intro c v m hm _ hv
      refine Walk.couples_checked (.inr rfl) (fun _ => hargument hm hv) fun _ => ?_
      have hpermits : (shapeWalk refs).permits c m :=
        Walk.permits_of_forall (fun _ => trivial) trivial
      exact (Walk.couples_apply lawful ih hm hpermits hv).weaken fun _ _ _ _ hv =>
        ⟨hv, fun _ => trivial⟩
    have hfuel : (shapeWalk refs).Outlasts fuel fuel := .inl rfl
    have hstatement := Walk.couples_statement lawful ih
      (fun _ => ⟨hagree _ fun _ => trivial, hanswer⟩)
      (fun _ => ⟨hagree _ fun _ => trivial, lawful.gives fun _ _ _ _ => trivial⟩) hfuel hm trivial
      (parts hpassed)
    refine hstatement.bind lawful.toOrdered fun v m₁ hm₁ _ hv => ?_
    refine Walk.couples_checked (.inr rfl) (fun _ => hafter hm₁ hv) fun _ => ?_
    exact Coupling.couples_pure lawful.toOrdered hm₁ hv

theorem couples_evaluateLine (hm : (shapeWalk refs).holds m) (fuel : Nat) (line : String) :
    (shapeWalk refs).Couples (shapeWalk refs).value
      (Call.evaluateLine ((mentionInspection refs).evaluate fuel) line)
      (Call.evaluateLine (i.evaluate fuel) line) m :=
  Walk.couples_evaluateLine lawful (agree hbefore hargument hafter fuel) hm line fun _ _ => trivial

end shapeWalk

/-! ## Statements -/

section

variable {refs : Bool} {m : Machine} {fuel : Nat} {line : String}
  (hm : (shapeWalk refs).holds m)
  (h : refs = false → (mentionInspection refs).Admits fuel line m)

include hm h

/-- A statement is evaluated as if it were not inspected for `@`, if it does not mention
    it or may. -/
theorem evaluateLine_mention :
    Call.evaluateLine (evaluate fuel) line m =
        Call.evaluateLine ((mentionInspection refs).evaluate fuel) line m ∧
      (shapeWalk refs).holds ((Call.evaluateLine (evaluate fuel) line).after m) := by
  rw [← Inspection.evaluate_uninspected]
  have hcouples := shapeWalk.couples_evaluateLine (i := {}) (fun _ => rfl) (fun _ _ => rfl)
    (fun _ _ => rfl) hm fuel line
  obtain ⟨heq, hafter, -⟩ := hcouples.after rfl h
  exact ⟨heq, hafter⟩

theorem evaluateLine_shape :
    Call.evaluateLine ((shapeInspection refs).evaluate fuel) line m =
        Call.evaluateLine (evaluate fuel) line m ∧
      ∀ v m', Call.evaluateLine (evaluate fuel) line m = .ok v m' → v.Listed refs := by
  have hcouples := shapeWalk.couples_evaluateLine (i := shapeInspection refs)
    (fun hm => decide_eq_true (Memory.shaped_of_read hm.read))
    (fun hm hv => decide_eq_true (Memory.arguments_element hm.read hv.2))
    (fun hm hv => decide_eq_true ⟨hv.2, Memory.shaped_of_read hm.read⟩) hm fuel line
  have hmention := (evaluateLine_mention hm h).1
  refine ⟨(hcouples.after rfl h).1.trans hmention.symm, fun v m' hv => ?_⟩
  rw [hmention] at hv
  exact (hcouples.ok hv).2.2.2.2

theorem interpret_shape : (shapeWalk refs).holds ((Interpreter.interpret fuel line).after m) := by
  have hafter := (evaluateLine_mention hm h).2
  rcases Interpreter.after_interpret m fuel line with heq | heq <;> rw [heq]
  · exact hafter
  · generalize (Call.evaluateLine (evaluate fuel) line).after m = m' at hafter ⊢
    exact hafter

end

theorem shapeWalk.readStatement {refs : Bool} {m : Machine} (hm : (shapeWalk refs).holds m) :
    (shapeWalk refs).holds (Interpreter.readStatement.after m) := by
  obtain ⟨source, suspended, line, h⟩ := Interpreter.after_readStatement m
  rw [h]
  exact hm

/-! ## Programs -/

/-- After every line, and on the way, no list has a list as an element: neither the value
    of a variable or of a group, nor an argument. As long as no line mentions `@`, no
    variable holds a variable either, and no list contains one. -/
theorem lists_stay_flat {source : Source} {files : Files} {world : World} {strict : Bool} :
    let m₀ := { Machine.start source files world with strict }
    (∀ m, Interpreter.Reaches (fun _ => True) m₀ m → m.memory.Shaped true ∧
      ∀ fuel line,
        Call.evaluateLine ((shapeInspection true).evaluate fuel) line m =
            Call.evaluateLine (evaluate fuel) line m ∧
          ∀ v m', Call.evaluateLine (evaluate fuel) line m = .ok v m' → v.Listed true) ∧
    ∀ m, (mentionInspection false).Reaches m₀ m → m.memory.Shaped false ∧
      ∀ fuel line, (mentionInspection false).Admits fuel line m →
        Call.evaluateLine ((shapeInspection false).evaluate fuel) line m =
            Call.evaluateLine (evaluate fuel) line m ∧
          ∀ v m', Call.evaluateLine (evaluate fuel) line m = .ok v m' → v.Listed false := by
  intro m₀
  have hm₀ : ∀ refs, (shapeWalk refs).holds m₀ := fun refs =>
    Memory.holding_initial trivial fun _ => trivial
  refine ⟨fun m h => ?_, fun m h => ?_⟩
  · have hm : (shapeWalk true).holds m := by
      induction h with
      | refl => exact hm₀ true
      | read _ ih => exact shapeWalk.readStatement ih
      | statement fuel _ _ ih => exact interpret_shape ih nofun
    exact ⟨Memory.shaped_of_read hm.read, fun fuel line => evaluateLine_shape hm nofun⟩
  · have hm : (shapeWalk false).holds m := by
      induction h with
      | refl => exact hm₀ false
      | read _ ih => exact shapeWalk.readStatement ih
      | statement _ hadmits ih => exact interpret_shape ih fun _ => hadmits
    exact ⟨Memory.shaped_of_read hm.read, fun fuel line hadmits =>
      evaluateLine_shape hm fun _ => hadmits⟩

/-- A list is put together from other ones, and no `@` is mentioned. -/
theorem lists_stay_flat_comma :
    let m₀ := { Machine.start (.script []) (fun _ => .error .notFound) (mkStdGen 0) with
      strict := true }
    let m := (Interpreter.interpret 9 "let l = 1, (2, 3)").after m₀
    (mentionInspection false).Admits 9 "l, (4, l)" m ∧ m.memory.Shaped true ∧
      m.memory.Shaped false ∧
      ∀ v m', Call.evaluateLine (evaluate 9) "l, (4, l)" m = .ok v m' → v.Listed false := by
  intro m₀ m
  have hl : (mentionInspection false).Admits 9 "let l = 1, (2, 3)" m₀ := by decide +kernel
  have hlast : (mentionInspection false).Admits 9 "l, (4, l)" m := by decide +kernel
  have hreaches : Interpreter.Reaches (fun _ => True) m₀ m := .statement 9 .refl trivial
  have hplain : (mentionInspection false).Reaches m₀ m := .statement .refl hl
  have hshaped := lists_stay_flat.1 m hreaches
  have hshaped' := lists_stay_flat.2 m hplain
  clear_value m
  exact ⟨hlast, hshaped.1, hshaped'.1, (hshaped'.2 9 "l, (4, l)" hlast).2⟩

end Linewise
