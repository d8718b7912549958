import Linewise.Proofs.Body

/-!
# Other bodies for functions

What changes in the registry if a function has another body in place of a block
(`Recast`): nothing but that function (`Recast.get?_registry`), as long as it has the
block for its body. Functions that are defined are the same in both registries
(`Recast.define_registry`), and a definition with the other body gives the other registry
(`Recast.define_body`).
-/

namespace Linewise

/-- Another body for a function in place of a block. -/
structure Recast where
  ref : FunctionRef
  block : Block
  body : Body

/-- The body is this block. -/
def Body.isBlock (b : Block) : Body → Bool
  | .block b' => b' = b
  | _ => false

theorem Body.isBlock_iff {b : Block} {body : Body} : body.isBlock b = true ↔ body = .block b := by
  cases body with
  | block b' => simp [isBlock]
  | _ => simp [isBlock]

namespace Recast

variable (e : Recast) {F : Function} {r : Registry}

/-- The function with the other body, if its body is the block. -/
def function (F : Function) : Function :=
  if F.body.isBlock e.block then { F with body := e.body } else F

/-- The registry in which `e.ref` has the other body. -/
def registry (r : Registry) : Registry :=
  { r with functions := r.functions.modify e.ref.index e.function }

/-- Nothing is replaced: the other body of the block is the block again. -/
def keep : Recast where
  ref := ⟨0⟩
  block := ⟨[], none, false⟩
  body := .block ⟨[], none, false⟩

/-- The other body is the only statement of the block, or the block again. -/
inductive Renders : Recast → Prop
  | keep : Renders keep
  | line {ref : FunctionRef} {b : Block} {statement : String} {item : Item} {g : Group} :
      b.branch true = .ok [statement] → Group.ofLine (Text.trim statement) = .ok (item :: g) →
        Renders ⟨ref, b, .line (item :: g)⟩

variable {e}

theorem function_of_block (h : F.body = .block e.block) : e.function F = { F with body := e.body } :=
  if_pos (Body.isBlock_iff.2 h)

theorem function_of_ne (h : F.body ≠ .block e.block) : e.function F = F :=
  if_neg fun hb => h (Body.isBlock_iff.1 hb)

/-- What a function is called and which arguments it takes does not depend on its body. -/
theorem function_eq (e : Recast) (F : Function) :
    (e.function F).name = F.name ∧ (e.function F).bind = F.bind := by
  rw [function]
  split <;> exact ⟨rfl, rfl⟩

theorem get?_registry (f : FunctionRef) : (e.registry r).get? f =
    if e.ref.index = f.index then (r.get? f).map e.function else r.get? f :=
  Array.getElem?_modify

/-- Where a function is not the block that is replaced, it stays. -/
theorem get?_registry_of_ne {f : FunctionRef}
    (h : ∀ F, f = e.ref → r.get? f = some F → F.body ≠ .block e.block) :
    (e.registry r).get? f = r.get? f := by
  rw [get?_registry]
  split
  · rename_i hindex
    have hf : f = e.ref := congrArg FunctionRef.mk hindex.symm
    cases hF : r.get? f with
    | none => rfl
    | some F => exact congrArg some (function_of_ne (h F hf hF))
  · rfl

theorem registry_keep (r : Registry) : keep.registry r = r := by
  have hid : keep.function = id := by
    funext F
    rw [function]
    split
    · rename_i h
      exact congrArg (fun body => { F with body }) (Body.isBlock_iff.1 h).symm
    · rfl
  have hfunctions : r.functions.modify keep.ref.index id = r.functions := by
    refine Array.ext_getElem? fun j => ?_
    rw [Array.getElem?_modify, Option.map_id, id, ite_self]
  rw [registry, hid, hfunctions]

/-- A function that is defined with the other body instead of the block. -/
theorem define_body {name : String} {names : List String} {b : Block} {f : FunctionRef}
    {r' : Registry} (h : r.define (.ofBody name names (.block b)) = .ok (f, r')) (body : Body) :
    r.define (.ofBody name names body) = .ok (f, registry ⟨f, b, body⟩ r') := by
  have hbody : function ⟨f, b, body⟩ (.ofBody name names (.block b)) = .ofBody name names body :=
    function_of_block rfl
  have hname : ∀ body, (Function.ofBody name names body).name = name := fun _ => rfl
  rw [Registry.define, hname] at h ⊢
  split at h
  · cases h
  rw [if_neg ‹_›]
  cases hdefined : r.defined? name with
  | some ref =>
    rw [hdefined] at h
    cases h
    refine congrArg (fun functions => Except.ok (f, { r with functions : Registry })) ?_
    refine Array.ext_getElem? fun j => ?_
    rw [Array.getElem?_modify, Array.getElem?_setIfInBounds, Array.getElem?_setIfInBounds]
    split
    · split <;> simp [hbody]
    · rfl
  | none =>
    rw [hdefined] at h
    cases h
    refine congrArg (fun functions => Except.ok (FunctionRef.mk r.functions.size,
      { functions, names := (name, FunctionRef.mk r.functions.size) :: r.names : Registry })) ?_
    refine Array.ext_getElem? fun j => ?_
    rw [Array.getElem?_modify, Array.getElem?_push, Array.getElem?_push]
    split
    · rw [if_pos (Eq.symm ‹_›)]
      exact congrArg some hbody.symm
    · rw [if_neg fun h => absurd h.symm ‹_›]

/-- Whether the definition fails does not depend on the body. -/
theorem define_body_error {name : String} {names : List String} {body : Body} {fault : Fault}
    (h : r.define (.ofBody name names body) = .error fault) (body' : Body) :
    r.define (.ofBody name names body') = .error fault := by
  have hname : ∀ body, (Function.ofBody name names body).name = name := fun _ => rfl
  rw [Registry.define, hname] at h ⊢
  split at h
  · rw [if_pos ‹_›]
    exact h
  · split at h <;> cases h

/-- A function that is defined has the body it is given. -/
theorem define_registry (hF : F.body ≠ .block e.block) :
    (e.registry r).define F = (r.define F).map fun p => (p.1, e.registry p.2) := by
  have hkeep : e.function F = F := function_of_ne hF
  have hset : ∀ i, (r.functions.modify e.ref.index e.function).setIfInBounds i F =
      (r.functions.setIfInBounds i F).modify e.ref.index e.function := by
    intro i
    refine Array.ext_getElem? fun j => ?_
    rw [Array.getElem?_setIfInBounds, Array.getElem?_modify, Array.getElem?_modify,
      Array.getElem?_setIfInBounds, Array.size_modify]
    split
    · split <;> simp [hkeep]
    · rfl
  have hpush : (r.functions.modify e.ref.index e.function).push F =
      (r.functions.push F).modify e.ref.index e.function := by
    refine Array.ext_getElem? fun j => ?_
    rw [Array.getElem?_push, Array.getElem?_modify, Array.getElem?_modify, Array.getElem?_push,
      Array.size_modify]
    split
    · split <;> simp [hkeep]
    · rfl
  rw [Registry.define, Registry.define]
  split
  · rfl
  · have hdefined : (e.registry r).defined? F.name = r.defined? F.name := rfl
    rw [hdefined]
    cases r.defined? F.name with
    | some ref => exact congrArg (fun functions => Except.ok (ref, { r with functions })) (hset _)
    | none =>
      have hsize : (r.functions.modify e.ref.index e.function).size = r.functions.size :=
        Array.size_modify
      simp only [Registry.add, registry, hsize, hpush]
      rfl

end Recast

end Linewise
