import Linewise.Proofs.Stack

/-!
# Evaluations without `exit`

A frame is only left by the call that has entered it, or by `exit`, and only `exit` ends a
program. So an evaluation in which `exit` is never called (`exitFree`) is at its end in
the frame in which it started, and the program is still alive (`FrameKept`).
-/

namespace Linewise

/-- To call it leaves the frame on top. -/
def Machine.exits (m : Machine) : Callable → Bool
  | .function f =>
    match (m.memory.registry.get? f).map Function.body with
    | some (.native b) => b = .exit
    | _ => false
  | .block _ => false

/-- `exit` is not called. -/
def exitFree : Watch where
  call c m := !m.exits c

/-- The stacks are kept, and so are the frames: none has been left for good. -/
structure FrameKept (m m' : Machine) : Prop extends StacksKept m m' where
  level : m'.frames.level = m.frames.level
  alive : m'.alive = m.alive

namespace FrameKept

variable {m m₁ m₂ m' : Machine}

theorem of_eq (hc : Advanced m.cursors m'.cursors) (hd : m'.depth = m.depth)
    (hf : m'.frames.level = m.frames.level) (ha : m'.alive = m.alive) : FrameKept m m' where
  cursors := hc
  depth := hd
  one_le_level := m'.frames.one_le_level
  level_le := Nat.le_of_eq hf
  level := hf
  alive := ha

theorem refl (m : Machine) : FrameKept m m :=
  of_eq (.refl _) rfl rfl rfl

theorem trans (h₁ : FrameKept m m₁) (h₂ : FrameKept m₁ m₂) : FrameKept m m₂ where
  toStacksKept := h₁.toStacksKept.trans h₂.toStacksKept
  level := h₂.level.trans h₁.level
  alive := h₂.alive.trans h₁.alive

end FrameKept

/-! ## The walk -/

/-- Along this walk no frame is left but by the call that has entered it. -/
def exitlessWalk : Walk where
  twin := id
  holds _ := True
  leads := FrameKept
  lenient := True
  native b _ := b ≠ .exit

namespace exitlessWalk

variable {m m' : Machine}

theorem step {f : Machine → Machine} (h : FrameKept m (f m)) : exitlessWalk.Step f m :=
  ⟨trivial, h, rfl⟩

theorem couples {α : Type} {P : α → Machine → Prop} {x : Run α} (hx : x.OnlyTakesLines)
    (hP : ∀ v m, P v m) : exitlessWalk.Couples P x x m := by
  refine hx.couples rfl (fun _ _ _ hc => ⟨trivial, ?_⟩) hP
  exact .of_eq hc rfl rfl rfl

theorem leaveFrame {bindings : List (String × Value)}
    (h : FrameKept (m.enterFrame bindings) m') :
    FrameKept m (m'.leaveFrame (m.enterFrame bindings).frames.level) where
  toStacksKept := stackWalk.leaveFrame h.toStacksKept
  level := by
    have hlevel := h.level
    rw [Machine.level_enterFrame] at hlevel ⊢
    have hpop := Frames.level_pop (f := m'.frames) (by have := m.frames.one_le_level; omega)
    rw [Machine.leaveFrame_of_le (Nat.le_of_eq hlevel.symm)]
    show m'.frames.pop.level = m.frames.level
    omega
  alive := by
    obtain ⟨frames, hleave⟩ := m'.leaveFrame_eq (m.enterFrame bindings).frames.level
    obtain ⟨vars, top, henter⟩ := m.enterFrame_eq bindings
    rw [hleave]
    exact h.alive.trans (by rw [henter])

theorem lawful : exitlessWalk.Lawful where
  refl := .refl
  trans := .trans
  refer _ _ _ := ⟨step (.of_eq (.refl _) rfl rfl rfl), trivial⟩
  declare _ _ _ := ⟨step (.of_eq (.refl _) rfl rfl rfl), trivial⟩
  write _ _ _ _ _ _ := step (.of_eq (.refl _) rfl rfl rfl)
  store _ _ := step (.of_eq (.refl _) rfl rfl rfl)
  define _ _ _ _ := Coupling.couples_define rfl trivial (FrameKept.refl _) fun _ =>
    ⟨step (.of_eq (.refl _) rfl rfl rfl), trivial⟩
  outward _ _ _ _ := step (.of_eq (.refl _) rfl rfl rfl)
  strict _ _ := step (.of_eq (.refl _) rfl rfl rfl)
  exit _ hexit := absurd rfl hexit
  load _ _ _ := step (.of_eq (.refl _) rfl rfl rfl)
  readLine _ _ := couples Run.onlyTakesLines_readLine fun _ _ _ _ _ _ => trivial
  capture e _ _ := couples (Run.onlyTakesLines_captureBlock e) fun _ _ => trivial
  advance _ _ := couples Run.onlyTakesLines_advance fun _ _ _ _ _ _ => trivial
  cursor _ _ _ := ⟨trivial, rfl, fun _ _ _ => trivial,
    fun _ _ hl => .of_eq (hl.cursors.tail_eq ▸ .refl _) hl.depth hl.level hl.alive,
    fun _ _ _ => rfl, fun _ _ _ _ hv => hv⟩
  frame _ _ _ := ⟨trivial, rfl, fun _ _ _ => trivial, fun _ _ hl => leaveFrame hl,
    fun _ _ _ => rfl, fun _ _ _ _ hv => hv⟩
  deeper _ _ := ⟨trivial, rfl, fun _ _ _ => trivial,
    fun _ _ hl => .of_eq hl.cursors (congrArg (· - 1) hl.depth) hl.level hl.alive,
    fun _ _ _ => rfl, fun _ _ _ _ hv => hv⟩

theorem watched : exitlessWalk.Watched exitFree where
  call _ _ := .inl trivial
  permits {c m} _ _ hc := by
    refine Walk.permits_of_native ?_ trivial
    rintro f F b rfl hF hbody rfl
    simp [exitFree, Machine.exits, hF, hbody] at hc

theorem agree (fuel : Nat) : exitlessWalk.Agree (exitFree.evaluate fuel) (evaluate fuel) :=
  lawful.agree_watched watched (.inl rfl)

/-- A step without `exit` keeps the frame, and is the step itself. -/
theorem kept {α : Type} {P : α → Machine → Prop} {x y : Run α} {v : α}
    (h : exitlessWalk.Couples P x y m) (hx : x m = .ok v m') : y m = .ok v m' ∧ FrameKept m m' :=
  have ⟨hy, _, hl, _⟩ := h.ok hx
  ⟨hy id, hl⟩

end exitlessWalk

section

variable {fuel : Nat} {g : Group} {b : Block} {line : String} {m m' : Machine} {v : Value}

theorem evaluate_of_exitFree (h : exitFree.evaluate fuel g m = .ok v m') :
    evaluate fuel g m = .ok v m' ∧ FrameKept m m' :=
  exitlessWalk.kept (exitlessWalk.agree fuel trivial trivial) h

theorem evaluateLine_of_exitFree (h : Call.evaluateLine (exitFree.evaluate fuel) line m = .ok v m') :
    Call.evaluateLine (evaluate fuel) line m = .ok v m' ∧ FrameKept m m' :=
  exitlessWalk.kept (Walk.couples_evaluateLine exitlessWalk.lawful (exitlessWalk.agree fuel)
    trivial line fun _ _ => trivial) h

theorem condition_of_exitFree {holds : Bool}
    (h : Statement.condition (exitFree.evaluate fuel) g m = .ok holds m') :
    Statement.condition (evaluate fuel) g m = .ok holds m' ∧ FrameKept m m' :=
  exitlessWalk.kept (Walk.couples_condition exitlessWalk.lawful (exitlessWalk.agree fuel)
    trivial trivial) h

theorem runBlock_of_exitFree {first : Bool}
    (h : Call.runBlock (exitFree.evaluate fuel) b first m = .ok v m') :
    Call.runBlock (evaluate fuel) b first m = .ok v m' ∧ FrameKept m m' :=
  exitlessWalk.kept (Walk.couples_runBlock exitlessWalk.lawful (exitlessWalk.agree fuel)
    trivial trivial) h

end

theorem FrameKept.of_captureBlock {elseAllowed : Bool} {b : Block} {m m' : Machine}
    (h : Run.captureBlock elseAllowed m = .ok b m') : FrameKept m m' := by
  obtain ⟨cursors, source, line, hafter, hc⟩ := Run.onlyTakesLines_captureBlock elseAllowed m
  rw [Run.after_of_ok h] at hafter
  subst hafter
  exact .of_eq hc rfl rfl rfl

end Linewise
