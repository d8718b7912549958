import Linewise.Interpreter
import Linewise.Proofs.Change
import Linewise.Proofs.Watch

/-!
# The stacks of a machine

A machine has three stacks: the frames of the functions that are running, the
cursors of the blocks, and the depth of the calls. Evaluation pushes and pops
them as it goes, and whatever happens on the way, at its end they are as before
(`StacksKept`), except that

* statements may have been taken from the innermost block (`Advanced`);
* `exit` may have left frames.

The outermost frame is never left, and calls are never nested deeper than
`Machine.maxDepth`. So a program that is between two statements is at rest
(`Machine.AtRest`): no block is running and no function.
-/

namespace Linewise

/-- What evaluation may make of the stacks of a machine. -/
structure StacksKept (m m' : Machine) : Prop where
  cursors : Advanced m.cursors m'.cursors
  depth : m'.depth = m.depth
  one_le_level : 1 ≤ m'.frames.level
  level_le : m'.frames.level ≤ m.frames.level

/-- No block is running, and no function but the program itself. -/
structure Machine.AtRest (m : Machine) : Prop where
  cursors : m.cursors = []
  depth : m.depth = 0
  level : m.frames.level = 1

namespace StacksKept

theorem of_eq {m m' : Machine} (hc : m'.cursors = m.cursors) (hd : m'.depth = m.depth)
    (hf : m'.frames = m.frames) : StacksKept m m' where
  cursors := hc ▸ .refl m.cursors
  depth := hd
  one_le_level := m'.frames.one_le_level
  level_le := Nat.le_of_eq (congrArg Frames.level hf)

theorem trans {m₁ m₂ m₃ : Machine} (h₁ : StacksKept m₁ m₂) (h₂ : StacksKept m₂ m₃) :
    StacksKept m₁ m₃ where
  cursors := h₁.cursors.trans h₂.cursors
  depth := h₂.depth.trans h₁.depth
  one_le_level := h₂.one_le_level
  level_le := Nat.le_trans h₂.level_le h₁.level_le

theorem atRest {m m' : Machine} (h : StacksKept m m') (hm : m.AtRest) : m'.AtRest where
  cursors := List.eq_nil_of_length_eq_zero (by rw [h.cursors.length_eq, hm.cursors]; rfl)
  depth := h.depth.trans hm.depth
  level := Nat.le_antisymm (hm.level ▸ h.level_le) h.one_le_level

end StacksKept

/-! ## The walk -/

/-- Along this walk the stacks are kept, and no call is too deep. -/
def stackWalk : Walk where
  twin := id
  holds m := m.depth ≤ Machine.maxDepth
  leads := StacksKept
  lenient := False

namespace stackWalk

variable {m : Machine}

theorem step {f : Machine → Machine} (hm : stackWalk.holds m) (hc : (f m).cursors = m.cursors)
    (hd : (f m).depth = m.depth) (hf : (f m).frames = m.frames) : stackWalk.Step f m where
  holds := Nat.le_trans (Nat.le_of_eq hd) hm
  leads := .of_eq hc hd hf
  twin := rfl

theorem couples {α : Type} {P : α → Machine → Prop} {x : Run α} (hx : x.OnlyTakesLines)
    (hm : stackWalk.holds m) (hP : ∀ v m, P v m) : stackWalk.Couples P x x m := by
  refine hx.couples rfl (fun _ _ _ hc => ⟨hm, ?_⟩) hP
  exact ⟨hc, rfl, Frames.one_le_level _, Nat.le_refl _⟩

theorem exitFrame (hm : stackWalk.holds m) : stackWalk.Step Machine.exitFrame m :=
  Coupling.step_exitFrame rfl
    (fun hlevel =>
      { holds := hm
        leads :=
          { cursors := .refl m.cursors
            depth := rfl
            one_le_level := Frames.one_le_level _
            level_le := Nat.le_of_succ_le (Nat.le_of_eq (Frames.level_pop hlevel)) }
        twin := rfl })
    fun _ => step hm rfl rfl rfl

theorem cursor (hm : stackWalk.holds m) (statements : List String) :
    stackWalk.Bracket stackWalk.reach (fun m => { m with cursors := statements :: m.cursors })
      (fun m => { m with cursors := m.cursors.tail }) m where
  enter_holds := hm
  enter_twin := rfl
  leave_holds _ hm' _ := hm'
  leave_leads _ _ hl := {
    cursors := hl.cursors.tail_eq ▸ .refl m.cursors
    depth := hl.depth
    one_le_level := hl.one_le_level
    level_le := hl.level_le }
  leave_twin _ _ _ := rfl
  leave_result _ _ _ _ hv := hv

theorem leaveFrame {m' : Machine} {bindings : List (String × Value)}
    (hl : StacksKept (m.enterFrame bindings) m') :
    StacksKept m (m'.leaveFrame (m.enterFrame bindings).frames.level) := by
  have hc : Advanced m.cursors m'.cursors := by simpa using hl.cursors
  have hd : m'.depth = m.depth := by simpa using hl.depth
  have hlevel := hl.level_le
  rw [Machine.level_enterFrame] at hlevel ⊢
  rcases Nat.lt_or_ge m'.frames.level (m.frames.level + 1) with hlt | hle
  · -- `exit` has left the frame already, and there is none to leave.
    rw [Machine.leaveFrame_of_lt hlt]
    exact ⟨hc, hd, hl.one_le_level, Nat.le_of_lt_succ hlt⟩
  · rw [Machine.leaveFrame_of_le hle]
    have hpop := Frames.level_pop
      (Nat.lt_of_lt_of_le (Nat.succ_lt_succ m.frames.one_le_level) hle)
    have hle' := Nat.le_trans (Nat.le_of_eq hpop) hlevel
    exact ⟨hc, hd, Frames.one_le_level _, Nat.le_of_succ_le_succ hle'⟩

theorem frame (hm : stackWalk.holds m) (bindings : List (String × Value)) :
    stackWalk.Bracket stackWalk.reach (fun m => m.enterFrame bindings)
      (Machine.leaveFrame (m.enterFrame bindings).frames.level) m where
  enter_holds := Nat.le_trans (Nat.le_of_eq Machine.depth_enterFrame) hm
  enter_twin := rfl
  leave_holds _ _ hl := Nat.le_trans (Nat.le_of_eq (leaveFrame hl).depth) hm
  leave_leads _ _ hl := leaveFrame hl
  leave_twin _ _ _ := rfl
  leave_result _ _ _ _ hv := hv

theorem deeper (hd : m.depth < Machine.maxDepth) :
    stackWalk.Bracket stackWalk.reach (fun m => { m with depth := m.depth + 1 })
      (fun m => { m with depth := m.depth - 1 }) m where
  enter_holds := hd
  enter_twin := rfl
  leave_holds m' hm' _ := Nat.le_trans (Nat.sub_le m'.depth 1) hm'
  leave_leads _ _ hl := {
    cursors := hl.cursors
    depth := congrArg (· - 1) hl.depth
    one_le_level := hl.one_le_level
    level_le := hl.level_le }
  leave_twin _ _ _ := rfl
  leave_result _ _ _ _ hv := hv

theorem lawful : stackWalk.Lawful where
  refl m := .of_eq rfl rfl rfl
  trans := StacksKept.trans
  refer hm _ _ := ⟨step hm rfl rfl rfl, trivial⟩
  declare hm _ _ := ⟨⟨hm, ⟨.refl _, rfl, Nat.le_add_left 1 _, Nat.le_refl _⟩, rfl⟩, trivial⟩
  write hm _ _ _ _ _ := step hm rfl rfl rfl
  store hm _ := step hm rfl rfl rfl
  define hm _ _ _ := Coupling.couples_define rfl hm (.of_eq rfl rfl rfl) fun _ =>
    ⟨step hm rfl rfl rfl, trivial⟩
  outward _ _ hm _ := step hm rfl rfl rfl
  strict _ hm := step hm rfl rfl rfl
  exit hm _ := exitFrame hm
  load hm _ _ := step hm rfl rfl rfl
  readLine hm _ := couples Run.onlyTakesLines_readLine hm fun _ _ _ _ _ _ => trivial
  capture e hm _ := couples (Run.onlyTakesLines_captureBlock e) hm fun _ _ => trivial
  advance hm _ := couples Run.onlyTakesLines_advance hm fun _ _ _ _ _ _ => trivial
  cursor hm _ _ := cursor hm _
  frame hm _ _ := frame hm _
  deeper _ hd := deeper hd

end stackWalk

/-! ## Evaluation -/

/-- Nothing is evaluated and nothing is called deeper than `Machine.maxDepth`. -/
def depthWatch : Watch where
  group m := decide (m.depth ≤ Machine.maxDepth)
  call _ m := decide (m.depth ≤ Machine.maxDepth)

namespace stackWalk

theorem watched : stackWalk.Watched depthWatch where
  group hm := .inr (decide_eq_true hm)
  call hm _ := .inr (decide_eq_true hm)
  permits _ _ _ := Walk.permits_of_forall (fun _ => trivial) trivial

theorem couples_evaluateLine {m : Machine} (hm : stackWalk.holds m) (fuel : Nat) (line : String) :
    stackWalk.Couples stackWalk.value (Call.evaluateLine (depthWatch.evaluate fuel) line)
      (Call.evaluateLine (evaluate fuel) line) m :=
  have hagree := lawful.agree_watched watched (.inl rfl)
  Walk.couples_evaluateLine lawful hagree hm line fun _ _ => trivial

end stackWalk

theorem evaluateLine_depthWatch {m : Machine} (hm : m.depth ≤ Machine.maxDepth) (fuel : Nat)
    (line : String) :
    Call.evaluateLine (depthWatch.evaluate fuel) line m =
      Call.evaluateLine (evaluate fuel) line m :=
  ((stackWalk.couples_evaluateLine hm fuel line).after rfl False.elim).1.symm

theorem evaluateLine_stacks {m : Machine} (hm : m.depth ≤ Machine.maxDepth) (fuel : Nat)
    (line : String) : StacksKept m ((Call.evaluateLine (evaluate fuel) line).after m) :=
  ((stackWalk.couples_evaluateLine hm fuel line).after rfl False.elim).2.2

/-! ## Programs -/

theorem Machine.AtRest.depth_le {m : Machine} (hm : m.AtRest) : m.depth ≤ Machine.maxDepth :=
  hm.depth ▸ Nat.zero_le _

theorem Machine.AtRest.kill {m : Machine} (hm : m.AtRest) : m.kill.AtRest :=
  ⟨hm.cursors, hm.depth, hm.level⟩

theorem readStatement_atRest {m : Machine} (hm : m.AtRest) :
    (Interpreter.readStatement.after m).AtRest := by
  obtain ⟨source, suspended, line, h⟩ := Interpreter.after_readStatement m
  rw [h]
  exact ⟨hm.cursors, hm.depth, hm.level⟩

theorem interpret_atRest {m : Machine} (hm : m.AtRest) (fuel : Nat) (line : String) :
    ((Interpreter.interpret fuel line).after m).AtRest := by
  have hrest := (evaluateLine_stacks hm.depth_le fuel line).atRest hm
  rcases Interpreter.after_interpret m fuel line with h | h <;> rw [h]
  · exact hrest
  · exact hrest.kill

/-- A program is at rest before each of its statements and after it. -/
theorem trace_atRest {m : Machine} (hm : m.AtRest) (fuel n : Nat) :
    ∀ s ∈ (Interpreter.trace fuel n m).1, s.before.AtRest ∧ s.after.AtRest := by
  induction n generalizing m with
  | zero => exact fun _ hs => absurd hs List.not_mem_nil
  | succ n ih =>
    have hbefore := readStatement_atRest hm
    rw [Run.after] at hbefore
    rw [Interpreter.trace]
    split
    · exact fun _ hs => absurd hs List.not_mem_nil
    · rename_i line before hread
      rw [hread] at hbefore
      have hafter := interpret_atRest hbefore fuel line
      rw [Run.after] at hafter
      split
      · rename_i result after hrun
        rw [hrun] at hafter
        intro s hs
        rcases List.mem_cons.1 hs with rfl | hs
        · exact ⟨hbefore, hafter⟩
        · split at hs
          · exact ih hafter s hs
          · exact absurd hs List.not_mem_nil
      · exact fun _ hs => absurd hs List.not_mem_nil
    · exact fun _ hs => absurd hs List.not_mem_nil
    · exact fun _ hs => absurd hs List.not_mem_nil

/-- Whatever a statement does, and whether it fails or not, it leaves the stacks
    as they were, but for the statements that it took from the innermost block and
    the frames that it left by `exit`; on the way, nothing is evaluated or called
    too deep. So a program at rest is at rest again after each statement. -/
theorem evaluation_keeps_stacks {m : Machine} (hm : m.depth ≤ Machine.maxDepth) (fuel : Nat)
    (line : String) :
    StacksKept m ((Call.evaluateLine (evaluate fuel) line).after m) ∧
      Call.evaluateLine (depthWatch.evaluate fuel) line m =
        Call.evaluateLine (evaluate fuel) line m ∧
      (m.AtRest → ((Interpreter.interpret fuel line).after m).AtRest) ∧
      (m.AtRest → ∀ n, ∀ s ∈ (Interpreter.trace fuel n m).1, s.before.AtRest ∧ s.after.AtRest) :=
  ⟨evaluateLine_stacks hm fuel line, evaluateLine_depthWatch hm fuel line,
    fun h => interpret_atRest h fuel line, fun h n => trace_atRest h fuel n⟩

theorem start_keeps_stacks :
    let m := Machine.start (.script [.ok "exit()"]) (fun _ => .error .notFound) (mkStdGen 0)
    m.depth ≤ Machine.maxDepth ∧ m.AtRest ∧
      StacksKept m ((Call.evaluateLine (evaluate 9) "let f() = exit(f())").after m) ∧
      ∀ s ∈ (Interpreter.trace 9 9 m).1, s.before.AtRest ∧ s.after.AtRest := by
  intro m
  have hdepth : m.depth ≤ Machine.maxDepth := Nat.zero_le _
  have hrest : m.AtRest := ⟨rfl, rfl, rfl⟩
  have hkept := evaluation_keeps_stacks hdepth 9
  exact ⟨hdepth, hrest, (hkept "let f() = exit(f())").1, (hkept "").2.2.2 hrest 9⟩

end Linewise
