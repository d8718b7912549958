import Linewise.Proofs.Watch

/-!
# The progress of a program

When a block or a call is left, the stacks are as they were. Three things that a program does are
never taken back: it ends, it defines functions, and it writes lines. They are its *progress*.

If a relation allows for each of these (`Progress.Allowed`), it relates the progress before
anything that a program does to the progress after it: a group that is evaluated, a statement, and
any number of statements.
-/

namespace Linewise

/-- What of a machine is never taken back. -/
structure Progress where
  alive : Bool
  registry : Registry
  output : Array String

def Machine.progress (m : Machine) : Progress where
  alive := m.alive
  registry := m.memory.registry
  output := m.output

namespace Progress

/-- The relation allows for each way to make progress. -/
structure Allowed (R : Progress → Progress → Prop) : Prop where
  refl : ∀ p, R p p
  trans : ∀ {p q s}, R p q → R q s → R p s
  ended : ∀ p, R p { p with alive := false }
  defined : ∀ {p : Progress} {name names body f registry}, (∀ b, body ≠ .native b) →
    p.registry.define (.ofBody name names body) = .ok (f, registry) → R p { p with registry }
  written : ∀ {p : Progress} {output}, p.output.toList <+: output.toList → R p { p with output }

end Progress

/-- Along this walk the progress of a program is as the relation says. -/
def progressWalk (R : Progress → Progress → Prop) : Walk where
  twin := id
  holds _ := True
  leads m m' := R m.progress m'.progress
  lenient := False

namespace progressWalk

variable {R : Progress → Progress → Prop} {m : Machine}

theorem step {f : Machine → Machine} (h : R m.progress (f m).progress) : (progressWalk R).Step f m :=
  ⟨trivial, h, rfl⟩

theorem bracket {enter leave : Machine → Machine} (henter : (enter m).progress = m.progress)
    (hleave : ∀ m', (leave m').progress = m'.progress) :
    (progressWalk R).Bracket (progressWalk R).reach enter leave m where
  enter_holds := trivial
  enter_twin := rfl
  leave_holds _ _ _ := trivial
  leave_leads m' _ hl := by
    show R m.progress (leave m').progress
    rw [hleave, ← henter]
    exact hl
  leave_twin _ _ _ := rfl
  leave_result _ _ _ _ hv := hv

theorem frame (bindings : List (String × Value)) :
    (progressWalk R).Bracket (progressWalk R).reach (fun m => m.enterFrame bindings)
      (Machine.leaveFrame (m.enterFrame bindings).frames.level) m := by
  refine bracket ?_ fun m' => ?_
  · obtain ⟨vars, top, h⟩ := m.enterFrame_eq bindings
    rw [h]
    rfl
  · obtain ⟨frames, h⟩ := m'.leaveFrame_eq (m.enterFrame bindings).frames.level
    rw [h]
    rfl

variable (hR : Progress.Allowed R)

include hR

theorem couples {α : Type} {P : α → Machine → Prop} {x : Run α} (hx : x.OnlyTakesLines)
    (hP : ∀ v m, P v m) : (progressWalk R).Couples P x x m :=
  hx.couples rfl (fun _ _ _ _ => ⟨trivial, hR.refl m.progress⟩) hP

theorem lawful : (progressWalk R).Lawful where
  refl _ := hR.refl _
  trans := hR.trans
  refer _ _ _ := ⟨step (hR.refl _), trivial⟩
  declare _ _ _ := ⟨step (hR.refl _), trivial⟩
  write _ _ _ _ _ _ := step (hR.refl _)
  store _ _ := step (hR.refl _)
  define _ _ hbody _ := Coupling.couples_define rfl trivial (hR.refl _) fun hdefine =>
    ⟨step (hR.defined hbody hdefine), trivial⟩
  outward _ _ _ hgrows := step (hR.written hgrows)
  strict _ _ := step (hR.refl _)
  exit _ _ := Coupling.step_exitFrame rfl (fun _ => step (hR.refl _)) fun _ => step (hR.ended _)
  load _ _ _ := step (hR.refl _)
  readLine _ _ := couples hR Run.onlyTakesLines_readLine fun _ _ _ _ _ _ => trivial
  capture e _ _ := couples hR (Run.onlyTakesLines_captureBlock e) fun _ _ => trivial
  advance _ _ := couples hR Run.onlyTakesLines_advance fun _ _ _ _ _ _ => trivial
  cursor _ _ _ := bracket rfl fun _ => rfl
  frame _ _ _ := frame _
  deeper _ _ := bracket rfl fun _ => rfl

theorem agree (fuel : Nat) : (progressWalk R).Agree (evaluate fuel) (evaluate fuel) :=
  (lawful hR).agree_evaluate
    { permits := fun _ _ _ => Walk.permits_of_forall (fun _ => trivial) trivial } (.inl rfl)

end progressWalk

namespace Progress.Allowed

variable {R : Progress → Progress → Prop} (hR : Allowed R) (m : Machine) (fuel : Nat)

include hR

theorem evaluate (g : Group) : R m.progress ((Linewise.evaluate fuel g).after m).progress :=
  ((progressWalk.agree hR fuel (m := m) trivial trivial).after rfl False.elim).2.2

theorem evaluateLine (line : String) :
    R m.progress ((Call.evaluateLine (Linewise.evaluate fuel) line).after m).progress := by
  have hcouples := Walk.couples_evaluateLine (progressWalk.lawful hR) (progressWalk.agree hR fuel)
    (m := m) trivial line fun _ _ => trivial
  exact (hcouples.after rfl False.elim).2.2

theorem interpret (line : String) :
    R m.progress ((Interpreter.interpret fuel line).after m).progress := by
  have hline := hR.evaluateLine m fuel line
  have hafter := Interpreter.after_interpret m fuel line
  generalize (Call.evaluateLine (Linewise.evaluate fuel) line).after m = m₁ at hline hafter
  rcases hafter with h | h <;> rw [h]
  · exact hline
  · exact hR.trans hline (hR.ended m₁.progress)

omit m fuel in
/-- A program makes progress with each of its statements. -/
theorem reaches {P : String → Prop} {m₀ m : Machine} (h : Interpreter.Reaches P m₀ m) :
    R m₀.progress m.progress := by
  induction h with
  | refl => exact hR.refl _
  | @read m' _ ih =>
    obtain ⟨source, suspended, line, h⟩ := Interpreter.after_readStatement m'
    rw [h]
    exact ih
  | @statement m' line fuel _ _ ih => exact hR.trans ih (hR.interpret m' fuel line)

end Progress.Allowed

end Linewise
