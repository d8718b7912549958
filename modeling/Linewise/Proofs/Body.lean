import Linewise.Proofs.Call
import Linewise.Proofs.Definition

/-!
# Bodies of functions

A function of the program binds its arguments, and its body is evaluated in a frame of
its own (`Call.invoke_of_body`). Two runs in which the function has a body of its own in
each are coupled if the two bodies are (`Walk.couples_function_of_body`).
-/

namespace Linewise

/-- The value of the body of a function of the program. -/
def Body.value (evaluate : Group → Run Value) : Body → Run Value
  | .native _ => return .nil
  | .line g => evaluate g
  | .block b => Call.runBlock evaluate b true

theorem Call.invoke_of_body (evaluate : Group → Run Value) {F : Function}
    (hbody : ∀ b, F.body ≠ .native b) (arg : Value) :
    invoke evaluate F arg = (do
      let bindings ← Run.reading fun m => F.bind (m.memory.arguments arg)
      Run.held (Run.withFrame bindings (Run.nested (F.body.value evaluate)))) := by
  rw [invoke]
  generalize F.body = body at hbody ⊢
  cases body with
  | native b => exact absurd rfl (hbody b)
  | line g => rfl
  | block b => rfl

/-- A function of the program is called, whatever its body is in the second run. -/
theorem Walk.couples_function_of_body {K : Walk} (hK : K.Lawful) {ev ev' : Group → Run Value}
    {m : Machine} {f : FunctionRef} {F F' : Function} {arg : Value} (hm : K.holds m)
    (harg : K.reach arg m) (hF : m.memory.registry.get? f = some F)
    (hF' : (K.twin m).memory.registry.get? f = some F') (hbind : F'.bind = F.bind)
    (hbody : ∀ b, F.body ≠ .native b) (hbody' : ∀ b, F'.body ≠ .native b)
    (hvalue : ∀ bindings, F.bind (m.memory.arguments arg) = .ok bindings →
      K.Bracket K.reach (fun m => m.enterFrame bindings)
          (Machine.leaveFrame (m.enterFrame bindings).frames.level) m ∧
        (K.holds (m.enterFrame bindings).deeper →
          K.Couples K.value (F.body.value ev) (F'.body.value ev')
            (m.enterFrame bindings).deeper)) :
    K.Couples K.value (Call.function ev f arg) (Call.function ev' f arg) m := by
  have hcall : K.Couples K.value (Call.invoke ev F arg) (Call.invoke ev' F' arg) m := by
    rw [Call.invoke_of_body ev hbody, Call.invoke_of_body ev' hbody', hbind]
    refine (Coupling.couples_reading
      (P := fun bindings m₁ => m₁ = m ∧ F.bind (m.memory.arguments arg) = .ok bindings)
      hK.toOrdered hm (congrArg F.bind ((hK.twin_memory hm).arguments_eq (hK.closed hm) harg))
      fun bindings hb => ⟨rfl, hb⟩).bind hK.toOrdered ?_
    rintro bindings m₁ - - ⟨rfl, hb⟩
    obtain ⟨hframe, hinner⟩ := hvalue bindings hb
    exact couples_called hK hframe hinner
  exact hcall.congr (Call.function_of_get? ev hF arg) (Call.function_of_get? ev' hF' arg)

end Linewise
