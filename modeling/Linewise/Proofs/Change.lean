import Linewise.Interpreter
import Linewise.Proofs.Capture
import Linewise.Proofs.Coupling

/-!
# What steps change

Each step of a program changes few parts of its machine and leaves the others as
they are, whether it fails or not. Here this is stated once for every step that
does not evaluate anything, in the form of the machine that it leaves
(`Run.after`).

Of the statements of a running block, steps only ever take the next ones
(`Advanced`).
-/

namespace Linewise

/-- The machine that a step leaves, with a value or without. -/
def Run.after {α : Type} (x : Run α) (m : Machine) : Machine :=
  match x m with
  | .ok _ m' => m'
  | .error _ m' => m'

/-- What a step gives, and the machine that it leaves, unless it fails. -/
def Run.value? {α : Type} (x : Run α) (m : Machine) : Option (α × Machine) :=
  match x m with
  | .ok v m' => some (v, m')
  | .error _ _ => none

namespace Run

variable {α : Type} {x : Run α} {m m' : Machine}

theorem value?_eq_some_iff {v : α} : x.value? m = some (v, m') ↔ x m = .ok v m' := by
  rw [value?]
  cases x m <;> simp

/-- A step that gives something does not fail. -/
theorem ne_error_of_isSome (h : (x.value? m).isSome = true) (e : Interrupt) (m' : Machine) :
    x m ≠ .error e m' := by
  intro hx
  rw [value?, hx] at h
  cases h

theorem after_of_ok {v : α} (h : x m = .ok v m') : x.after m = m' := by
  rw [after, h]

theorem after_of_error {e : Interrupt} (h : x m = .error e m') : x.after m = m' := by
  rw [after, h]

theorem after_congr {y : Run α} (h : x m = y m) : x.after m = y.after m := by
  rw [after, after, h]

end Run

/-- Where the second run is the first one again, it is enough to know what is left
    of the machine. -/
theorem Coupling.couples_self {C : Coupling} (hC : C.twin = id) {α : Type}
    {P : α → Machine → Prop} {x : Run α} {m : Machine} (hm : C.holds (x.after m))
    (hl : C.leads m (x.after m)) (hP : ∀ v m', x m = .ok v m' → P v m') :
    C.Couples P x x m where
  ok h := by
    rw [hC]
    rw [Run.after_of_ok h] at hm hl
    exact ⟨fun _ => h, hm, hl, hP _ _ h⟩
  error h := by
    rw [hC]
    rw [Run.after_of_error h] at hm hl
    exact .inr ⟨fun _ => h, hm, hl⟩

/-- Two steps that are coupled without a twin do the same, unless the first one is
    interrupted and the second need not follow. -/
theorem Coupling.Couples.after {C : Coupling} (hC : C.twin = id) {α : Type}
    {Q : α → Machine → Prop} {x y : Run α} {m : Machine} (h : C.Couples Q x y m)
    (hfuel : C.lenient → ∀ m', x m ≠ .error .outOfFuel m')
    (hgone : ∀ m', ¬C.gone m' := by exact fun _ h => h)
    (hexcused : ∀ e, ¬C.excused e := by exact fun _ h => h) :
    y m = x m ∧ C.holds (y.after m) ∧ C.leads m (y.after m) := by
  cases hx : x m with
  | ok v m' =>
    obtain ⟨hy, hm, hl, -⟩ := h.ok hx
    replace hy := hy (hgone m')
    rw [hC, id, id] at hy
    rw [Run.after_of_ok hy]
    exact ⟨hy, hm, hl⟩
  | error e m' =>
    rcases h.error hx with (⟨hlenient, rfl⟩ | he) | ⟨hy, hm, hl⟩
    · exact absurd hx (hfuel hlenient m')
    · exact absurd he (hexcused e)
    · replace hy := hy (hgone m')
      rw [hC, id, id] at hy
      rw [Run.after_of_error hy]
      exact ⟨hy, hm, hl⟩

/-! ## Cursors -/

/-- The cursors after statements have been taken from the innermost block. -/
inductive Advanced : List (List String) → List (List String) → Prop
  | none : Advanced [] []
  | some {statements rest : List String} {cursors : List (List String)} :
      rest <:+ statements → Advanced (statements :: cursors) (rest :: cursors)

namespace Advanced

variable {c₁ c₂ c₃ : List (List String)}

theorem refl : ∀ cursors, Advanced cursors cursors
  | [] => none
  | _ :: _ => some (List.suffix_refl _)

theorem trans (h₁ : Advanced c₁ c₂) (h₂ : Advanced c₂ c₃) : Advanced c₁ c₃ := by
  cases h₁ with
  | none => exact h₂
  | some hs =>
    cases h₂ with
    | some hs' => exact some (hs'.trans hs)

theorem length_eq (h : Advanced c₁ c₂) : c₂.length = c₁.length := by
  cases h <;> rfl

theorem tail_eq (h : Advanced c₁ c₂) : c₂.tail = c₁.tail := by
  cases h <;> rfl

end Advanced

/-! ## Steps -/

namespace Run

variable (m : Machine)

theorem after_ofExcept {α : Type} (x : Except Fault α) : (ofExcept x).after m = m := by
  cases x <;> rfl

theorem after_readLine : ∃ source line, readLine.after m = { m with source, line } := by
  rw [after, readLine]
  cases m.source.next with
  | mk next source =>
    rcases next with _ | _ | _
    · exact ⟨source, m.line, rfl⟩
    · exact ⟨source, m.line, rfl⟩
    · exact ⟨source, m.line + 1, rfl⟩

theorem after_advance :
    ∃ cursors, advance.after m = { m with cursors } ∧ Advanced m.cursors cursors := by
  obtain ⟨scope, cursors, source, suspended, files, depth, strict, alive, line, output, world⟩ := m
  rcases cursors with _ | ⟨_ | ⟨statement, statements⟩, cursors⟩
  · exact ⟨[], rfl, .none⟩
  · exact ⟨[] :: cursors, rfl, .refl _⟩
  · exact ⟨statements :: cursors, rfl, .some (List.suffix_cons ..)⟩

/-- All that the step changes is what there is to take: statements of the innermost block, or
    lines of the source. -/
def OnlyTakesLines {α : Type} (x : Run α) : Prop :=
  ∀ m, ∃ cursors source line, x.after m = { m with cursors, source, line } ∧
    Advanced m.cursors cursors

theorem onlyTakesLines_readLine : OnlyTakesLines readLine := by
  intro m
  obtain ⟨source, line, h⟩ := after_readLine m
  exact ⟨m.cursors, source, line, h, .refl _⟩

theorem onlyTakesLines_captureBlock (elseAllowed : Bool) :
    OnlyTakesLines (captureBlock elseAllowed) := by
  intro m
  obtain ⟨scope, cursors, source, suspended, files, depth, strict, alive, line, output, world⟩ := m
  -- Without a running block the lines come from the source, and else from the
  -- innermost block, of which the last statements are left.
  rcases cursors with _ | ⟨statements, cursors⟩
  · cases source with
    | script lines =>
      exact ⟨[], _, _, after_ofExcept _ _, .none⟩
    | directory => exact ⟨[], _, _, rfl, .none⟩
  · exact ⟨_, source, line, after_ofExcept _ _, .some Capture.run_rest_suffix⟩

theorem onlyTakesLines_advance : OnlyTakesLines advance := by
  intro m
  obtain ⟨cursors, h, hc⟩ := after_advance m
  exact ⟨cursors, m.source, m.line, h, hc⟩

/-- Where the second run is the first one again, the step is coupled if nothing depends on what
    there is to take. -/
theorem OnlyTakesLines.couples {α : Type} {x : Run α} (hx : x.OnlyTakesLines) {C : Coupling}
    (hC : C.twin = id) {m : Machine}
    (h : ∀ cursors source line, Advanced m.cursors cursors →
      C.holds { m with cursors, source, line } ∧ C.leads m { m with cursors, source, line })
    {P : α → Machine → Prop} (hP : ∀ v m', P v m') : C.Couples P x x m := by
  obtain ⟨cursors, source, line, hafter, hc⟩ := hx m
  obtain ⟨hm, hl⟩ := h cursors source line hc
  exact Coupling.couples_self hC (hafter ▸ hm) (hafter ▸ hl) fun v m' _ => hP v m'

theorem define_of_ok {m : Machine} {f : Function} {r : FunctionRef} {registry : Registry}
    (h : m.memory.registry.define f = .ok (r, registry)) :
    define f m = .ok r { m with memory := { m.memory with registry } } := by
  rw [define, h]

theorem define_of_error {m : Machine} {f : Function} {e : Fault}
    (h : m.memory.registry.define f = .error e) : define f m = .error (.fault e) m := by
  rw [define, h]
  rfl

theorem after_define (f : Function) :
    ∃ registry, (define f).after m = { m with memory := { m.memory with registry } } := by
  cases h : m.memory.registry.define f with
  | ok p => exact ⟨p.2, after_of_ok (define_of_ok h)⟩
  | error e => exact ⟨m.memory.registry, after_of_error (define_of_error h)⟩

/-- What comes of a line that is written depends on the world, and changes that and what has
    been written, which only grows. -/
theorem write_eq (line : String) :
    ∃ r world output, m.output.toList <+: output.toList ∧
      ∀ m' : Machine, m'.world = m.world → m'.output = m.output →
        write line m' = ofExcept r { m' with world, output } := by
  rcases hask : m.world.sink.ask line with ⟨reason | _, sink⟩
  · refine ⟨.error (.cannotWrite reason), { m.world with sink }, m.output, List.prefix_rfl,
      fun m' hw ho => ?_⟩
    rw [write, hw, hask, ← ho]
    rfl
  · refine ⟨.ok (), { m.world with sink }, m.output.push line, ?_, fun m' hw ho => ?_⟩
    · rw [Array.toList_push]
      exact List.prefix_append _ _
    · rw [write, hw, hask, ← ho]
      rfl

theorem after_write (line : String) :
    ∃ world output, (write line).after m = { m with world, output } := by
  obtain ⟨r, world, output, -, h⟩ := write_eq m line
  refine ⟨world, output, ?_⟩
  rw [after, h m rfl rfl]
  exact after_ofExcept _ r

theorem of_write {m m' : Machine} {line : String} {u : Unit} (h : write line m = .ok u m') :
    ∃ world output, m' = { m with world, output } := by
  obtain ⟨world, output, hafter⟩ := after_write m line
  exact ⟨world, output, (after_of_ok h).symm.trans hafter⟩

end Run

section

variable {C : Coupling} {m : Machine}
  (hstep : ∀ world output, m.output.toList <+: output.toList →
    C.Step (fun m => { m with world, output }) m)
  (hworld : (C.twin m).world = m.world) (houtput : (C.twin m).output = m.output)

include hstep hworld houtput

theorem Coupling.couples_write {P : Unit → Machine → Prop} (line : String)
    (hP : ∀ m', P () m') : C.Couples P (Run.write line) (Run.write line) m := by
  obtain ⟨r, world, output, hgrows, h⟩ := Run.write_eq m line
  have hchange := hstep world output hgrows
  refine couples_of_ofExcept hchange.holds hchange.leads (h m rfl rfl) ?_ fun _ _ => hP _
  rw [h _ hworld houtput, hchange.twin]

/-- Only the world changes when a random number is drawn. -/
theorem Coupling.couples_draw {P : Value → Machine → Prop} (n : Int64)
    (hP : ∀ k m', P (.integer k) m') : C.Couples P (Run.draw n) (Run.draw n) m := by
  have hchange := hstep { m.world with draws := (m.world.draws.draw n).2 } m.output List.prefix_rfl
  refine couples_of_ok hchange.holds hchange.leads rfl ?_ (hP _ _)
  rw [← hchange.twin, ← hworld, ← houtput]
  rfl

end

/-- Only the innermost cursor changes, and only if there is a statement left. -/
theorem Coupling.couples_advance {C : Coupling} {P : Option String → Machine → Prop} {m : Machine}
    (htwin : (C.twin m).cursors = m.cursors) (hm : C.holds m) (hl : C.leads m m) (hnone : P none m)
    (hsome : ∀ {statement statements cursors}, m.cursors = (statement :: statements) :: cursors →
      C.Step (fun m => { m with cursors := statements :: cursors }) m ∧
        P (some statement) { m with cursors := statements :: cursors }) :
    C.Couples P Run.advance Run.advance m := by
  have hstay : ∀ m : Machine, (∀ statement statements cursors,
      m.cursors ≠ (statement :: statements) :: cursors) → Run.advance m = .ok none m := by
    intro m hne
    rw [Run.advance]
    split
    · rename_i heq
      exact absurd heq (hne _ _ _)
    · rfl
  have htake : ∀ {m : Machine} {statement statements cursors},
      m.cursors = (statement :: statements) :: cursors →
      Run.advance m = .ok (some statement) { m with cursors := statements :: cursors } := by
    intro m statement statements cursors heq
    rw [Run.advance, heq]
  by_cases hnext : ∃ statement statements cursors, m.cursors = (statement :: statements) :: cursors
  · obtain ⟨statement, statements, cursors, heq⟩ := hnext
    obtain ⟨hstep, hP⟩ := hsome heq
    refine Coupling.couples_of_ok hstep.holds hstep.leads (htake heq) ?_ hP
    rw [← hstep.twin]
    exact htake (htwin.trans heq)
  · have hne : ∀ statement statements cursors,
        m.cursors ≠ (statement :: statements) :: cursors :=
      fun _ _ _ heq => hnext ⟨_, _, _, heq⟩
    exact Coupling.couples_of_ok hm hl (hstay m hne) (hstay _ fun _ _ _ => htwin ▸ hne _ _ _) hnone

/-- Only the innermost cursor changes, which is the same for both runs. -/
theorem Coupling.couples_advance_of_top {C : Coupling} {P : Option String → Machine → Prop}
    {m : Machine} {statements : List String} {cursors cursors' : List (List String)}
    (hc : m.cursors = statements :: cursors) (htwin : (C.twin m).cursors = statements :: cursors')
    (hm : C.holds m) (hl : C.leads m m) (hnone : P none m)
    (hsome : ∀ {statement rest}, statements = statement :: rest →
      C.holds { m with cursors := rest :: cursors } ∧
        C.leads m { m with cursors := rest :: cursors } ∧
        { C.twin m with cursors := rest :: cursors' } =
          C.twin { m with cursors := rest :: cursors } ∧
        P (some statement) { m with cursors := rest :: cursors }) :
    C.Couples P Run.advance Run.advance m := by
  rcases statements with _ | ⟨statement, rest⟩
  · refine Coupling.couples_of_ok (v := none) hm hl ?_ ?_ hnone
    · simp only [Run.advance, hc]
    · simp only [Run.advance, htwin]
  · obtain ⟨hm', hl', htwin', hP⟩ := hsome rfl
    refine Coupling.couples_of_ok (v := some statement) hm' hl' ?_ ?_ hP
    · simp only [Run.advance, hc]
    · rw [← htwin']
      simp only [Run.advance, htwin]

/-- Only the registry changes, and only if the function may be defined. -/
theorem Coupling.couples_define {C : Coupling} {P : FunctionRef → Machine → Prop} {m : Machine}
    (htwin : (C.twin m).memory.registry = m.memory.registry) (hm : C.holds m) (hl : C.leads m m)
    {f : Function}
    (hdefine : ∀ {r registry}, m.memory.registry.define f = .ok (r, registry) →
      C.Step (fun m => { m with memory := { m.memory with registry } }) m ∧
        P r { m with memory := { m.memory with registry } }) :
    C.Couples P (Run.define f) (Run.define f) m := by
  cases h : m.memory.registry.define f with
  | ok p =>
    obtain ⟨hstep, hP⟩ := hdefine h
    refine Coupling.couples_of_ok hstep.holds hstep.leads (Run.define_of_ok h) ?_ hP
    rw [← hstep.twin]
    exact Run.define_of_ok (htwin ▸ h)
  | error e =>
    exact Coupling.couples_of_error hm hl (.fault e) (Run.define_of_error h)
      (Run.define_of_error (htwin ▸ h))

/-! ## Steps off the scope -/

/-- The step takes no notice of what is in scope, and leaves it as it is. -/
def Run.OffScope {α : Type} (x : Run α) : Prop :=
  ∀ (m : Machine) (s : Scope), (x.after m).toScope = m.toScope ∧
    x { m with toScope := s } =
      match x m with
      | .ok v m' => .ok v { m' with toScope := s }
      | .error e m' => .error e { m' with toScope := s }

namespace Run

theorem offScope_readLine : OffScope readLine := by
  intro m s
  rw [after, readLine, readLine]
  dsimp only
  rcases m.source.next with ⟨_ | _ | _, source⟩ <;> exact ⟨rfl, rfl⟩

theorem offScope_ofExcept {α : Type} (x : Except Fault α) : OffScope (ofExcept x) := by
  cases x <;> exact fun _ _ => ⟨rfl, rfl⟩

theorem offScope_captureBlock (elseAllowed : Bool) : OffScope (captureBlock elseAllowed) := by
  intro m s
  obtain ⟨scope, cursors, source, suspended, files, depth, strict, alive, line, output, world⟩ := m
  rcases cursors with _ | ⟨statements, cursors⟩
  · cases source with
    | script lines => exact offScope_ofExcept _ ⟨scope, _, _, _, _, _, _, _, _, _, _⟩ s
    | directory => exact ⟨rfl, rfl⟩
  · exact offScope_ofExcept _ ⟨scope, _, _, _, _, _, _, _, _, _, _⟩ s

theorem offScope_advance : OffScope advance := by
  intro m s
  obtain ⟨scope, cursors, source, suspended, files, depth, strict, alive, line, output, world⟩ := m
  rcases cursors with _ | ⟨_ | ⟨statement, statements⟩, cursors⟩ <;> exact ⟨rfl, rfl⟩

/-- If only what is in scope is different for the second run, the step is coupled. -/
theorem OffScope.couples {α : Type} {x : Run α} (hx : x.OffScope) {C : Coupling}
    (twin : Scope → Scope) (htwin : ∀ m, C.twin m = { m with toScope := twin m.toScope })
    {m : Machine} (hm : C.holds (x.after m)) (hl : C.leads m (x.after m))
    {P : α → Machine → Prop} (hP : ∀ v m', P v m') : C.Couples P x x m := by
  obtain ⟨hscope, hrun⟩ := hx m (twin m.toScope)
  rw [← htwin] at hrun
  cases h : x m with
  | ok v m' =>
    rw [h] at hrun
    rw [after_of_ok h] at hscope hm hl
    refine Coupling.couples_of_ok hm hl h (hrun.trans ?_) (hP v m')
    rw [htwin, hscope]
  | error e m' =>
    rw [h] at hrun
    rw [after_of_error h] at hscope hm hl
    refine Coupling.couples_of_error hm hl e h (hrun.trans ?_)
    rw [htwin, hscope]

end Run

/-! ## Statements -/

/-- The machine that reads from the innermost source with lines left. -/
def Machine.settled (m : Machine) : Machine :=
  { m with
    source := (Interpreter.withoutFinished m.source m.suspended).1
    suspended := (Interpreter.withoutFinished m.source m.suspended).2 }

namespace Interpreter

section

variable {s : Source} {suspended : List Source}

theorem withoutFinished_nil (s : Source) : withoutFinished s [] = (s, []) := by
  rw [withoutFinished]
  nofun

theorem withoutFinished_of_ne (h : s ≠ .script []) :
    withoutFinished s suspended = (s, suspended) := by
  rw [withoutFinished]
  exact fun _ _ hs _ => h hs

/-- Only the outermost source is left when it is used up. -/
theorem ne_nil_of_withoutFinished (h : (withoutFinished s suspended).2 ≠ []) :
    (withoutFinished s suspended).1 ≠ .script [] := by
  fun_induction withoutFinished s suspended with
  | case1 s suspended ih => exact ih h
  | case2 s suspended hne =>
    rintro rfl
    obtain ⟨t, suspended, rfl⟩ := List.exists_cons_of_ne_nil h
    exact hne _ _ rfl rfl

end

variable (m : Machine)

theorem settled_settled : m.settled.settled = m.settled := by
  have hstay : ∀ s suspended, let p := withoutFinished s suspended
      withoutFinished p.1 p.2 = p := by
    intro s suspended
    fun_induction withoutFinished s suspended with
    | case1 s suspended ih => exact ih
    | case2 s suspended hne =>
      show withoutFinished s suspended = (s, suspended)
      rw [withoutFinished]
      exact hne
  rw [Machine.settled, Machine.settled]
  dsimp only
  rw [hstay m.source m.suspended]

theorem readStatement_eq : readStatement m = Run.readLine m.settled := rfl

/-- Only the sources change when the line of a statement is read. -/
theorem after_readStatement : ∃ source suspended line,
    readStatement.after m = { m with source, suspended, line } := by
  obtain ⟨source, line, h⟩ := Run.after_readLine m.settled
  exact ⟨source, _, line, h⟩

/-- A statement is evaluated, and may end the program if it fails. -/
theorem after_interpret (fuel : Nat) (line : String) :
    (interpret fuel line).after m = (Call.evaluateLine (evaluate fuel) line).after m ∨
      (interpret fuel line).after m =
        ((Call.evaluateLine (evaluate fuel) line).after m).kill := by
  rw [Run.after, Run.after, interpret]
  cases Call.evaluateLine (evaluate fuel) line m with
  | ok v m' => exact .inl rfl
  | error e m' =>
    cases e with
    | fault f =>
      show afterFault m' = m' ∨ afterFault m' = m'.kill
      rw [afterFault]
      split
      · exact .inr rfl
      · exact .inl rfl
    | outOfFuel => exact .inl rfl

/-- The machines that a program comes to from `m`, by reading lines and by the
    statements on lines that satisfy `P`. A statement need not end for that: it may be
    out of fuel. -/
inductive Reaches (P : String → Prop) (m : Machine) : Machine → Prop
  | refl : Reaches P m m
  | read {m' : Machine} : Reaches P m m' → Reaches P m (readStatement.after m')
  | statement {m' : Machine} {line : String} (fuel : Nat) :
      Reaches P m m' → P line → Reaches P m ((interpret fuel line).after m')

end Interpreter

/-- The machine after the statements on some lines. -/
def Machine.afterLines (fuel : Nat) : List String → Machine → Machine
  | [], m => m
  | line :: lines, m => afterLines fuel lines ((Interpreter.interpret fuel line).after m)

theorem Interpreter.Reaches.afterLines {P : String → Prop} {m₀ m : Machine} {lines : List String}
    (h : Reaches P m₀ m) (fuel : Nat) (hlines : ∀ line ∈ lines, P line) :
    Reaches P m₀ (m.afterLines fuel lines) := by
  induction lines generalizing m with
  | nil => exact h
  | cons line lines ih =>
    rw [List.forall_mem_cons] at hlines
    exact ih (.statement fuel h hlines.1) hlines.2

/-! ## Frames -/

namespace Machine

/-- What holds in an empty frame, and still does when a variable is declared in it,
    holds once all of them are. -/
theorem enterFrame_induction {motive : Machine → Prop} {m : Machine}
    {bindings : List (String × Value)} (hpush : motive { m with frames := m.frames.push })
    (hdeclare : ∀ m, motive m → ∀ b ∈ bindings, motive (m.declare b.1 b.2).2) :
    motive (m.enterFrame bindings) :=
  List.foldlRecOn bindings _ hpush hdeclare

/-- A new frame holds new variables. -/
theorem enterFrame_eq (m : Machine) (bindings : List (String × Value)) :
    ∃ vars top, m.enterFrame bindings =
      { m with
        memory := { m.memory with vars }
        frames := { top, below := m.frames.top :: m.frames.below } } := by
  refine enterFrame_induction (motive := fun m' => ∃ vars top, m' =
    { m with
      memory := { m.memory with vars }
      frames := { top, below := m.frames.top :: m.frames.below } }) ⟨_, _, rfl⟩ ?_
  rintro _ ⟨vars, top, rfl⟩ b -
  exact ⟨_, _, rfl⟩

/-- A frame is entered in the same way in a machine that differs in nothing that
    matters for that, as long as variables are declared in it. -/
theorem enterFrame_hom_of {f : Machine → Machine} {motive : Machine → Prop} {m : Machine}
    (hpush : { f m with frames := (f m).frames.push } = f { m with frames := m.frames.push })
    (hstart : motive { m with frames := m.frames.push })
    (hdeclare : ∀ m, motive m → ∀ name v,
      ((f m).declare name v).2 = f (m.declare name v).2 ∧ motive (m.declare name v).2)
    (bindings : List (String × Value)) :
    (f m).enterFrame bindings = f (m.enterFrame bindings) := by
  rw [enterFrame, enterFrame, hpush]
  generalize { m with frames := m.frames.push } = m at hstart
  induction bindings generalizing m with
  | nil => rfl
  | cons b bindings ih =>
    obtain ⟨name, v⟩ := b
    obtain ⟨heq, hnext⟩ := hdeclare m hstart name v
    rw [List.foldl_cons, List.foldl_cons]
    dsimp only
    rw [heq]
    exact ih _ hnext

/-- A frame is entered in the same way in a machine that differs in nothing that
    matters for that. -/
theorem enterFrame_hom {f : Machine → Machine}
    (hpush : ∀ m, { f m with frames := (f m).frames.push } = f { m with frames := m.frames.push })
    (hdeclare : ∀ m name v, ((f m).declare name v).2 = f (m.declare name v).2) (m : Machine)
    (bindings : List (String × Value)) :
    (f m).enterFrame bindings = f (m.enterFrame bindings) :=
  enterFrame_hom_of (motive := fun _ => True) (hpush m) trivial
    (fun m _ name v => ⟨hdeclare m name v, trivial⟩) bindings

variable {m : Machine} {bindings : List (String × Value)} {level : Nat}

@[simp]
theorem cursors_enterFrame : (m.enterFrame bindings).cursors = m.cursors := by
  obtain ⟨vars, top, h⟩ := m.enterFrame_eq bindings
  rw [h]

@[simp]
theorem source_enterFrame : (m.enterFrame bindings).source = m.source := by
  obtain ⟨vars, top, h⟩ := m.enterFrame_eq bindings
  rw [h]

@[simp]
theorem suspended_enterFrame : (m.enterFrame bindings).suspended = m.suspended := by
  obtain ⟨vars, top, h⟩ := m.enterFrame_eq bindings
  rw [h]

@[simp]
theorem files_enterFrame : (m.enterFrame bindings).files = m.files := by
  obtain ⟨vars, top, h⟩ := m.enterFrame_eq bindings
  rw [h]

@[simp]
theorem line_enterFrame : (m.enterFrame bindings).line = m.line := by
  obtain ⟨vars, top, h⟩ := m.enterFrame_eq bindings
  rw [h]

@[simp]
theorem depth_enterFrame : (m.enterFrame bindings).depth = m.depth := by
  obtain ⟨vars, top, h⟩ := m.enterFrame_eq bindings
  rw [h]

@[simp]
theorem alive_enterFrame : (m.enterFrame bindings).alive = m.alive := by
  obtain ⟨vars, top, h⟩ := m.enterFrame_eq bindings
  rw [h]

@[simp]
theorem level_enterFrame : (m.enterFrame bindings).frames.level = m.frames.level + 1 := by
  obtain ⟨vars, top, h⟩ := m.enterFrame_eq bindings
  rw [h]
  rfl

theorem leaveFrame_of_lt (h : m.frames.level < level) : m.leaveFrame level = m :=
  if_neg (Nat.not_le.2 h)

theorem leaveFrame_of_le (h : level ≤ m.frames.level) :
    m.leaveFrame level = { m with frames := m.frames.pop } :=
  if_pos h

/-- Nothing but the frames is left. -/
theorem leaveFrame_eq (level : Nat) (m : Machine) :
    ∃ frames, m.leaveFrame level = { m with frames } := by
  rw [leaveFrame]
  split
  · exact ⟨_, rfl⟩
  · exact ⟨m.frames, rfl⟩

/-- A frame is left in the same way too. -/
theorem leaveFrame_hom {f : Machine → Machine} (hlevel : (f m).frames.level = m.frames.level)
    (hpop : level ≤ m.frames.level →
      { f m with frames := (f m).frames.pop } = f { m with frames := m.frames.pop }) :
    (f m).leaveFrame level = f (m.leaveFrame level) := by
  rcases Nat.lt_or_ge m.frames.level level with hlt | hle
  · rw [leaveFrame_of_lt hlt, leaveFrame_of_lt (hlevel ▸ hlt)]
  · rw [leaveFrame_of_le hle, leaveFrame_of_le (hlevel ▸ hle), hpop hle]

@[simp]
theorem source_leaveFrame : (m.leaveFrame level).source = m.source := by
  obtain ⟨frames, h⟩ := m.leaveFrame_eq level
  rw [h]

@[simp]
theorem suspended_leaveFrame : (m.leaveFrame level).suspended = m.suspended := by
  obtain ⟨frames, h⟩ := m.leaveFrame_eq level
  rw [h]

@[simp]
theorem files_leaveFrame : (m.leaveFrame level).files = m.files := by
  obtain ⟨frames, h⟩ := m.leaveFrame_eq level
  rw [h]

theorem exitFrame_of_le (h : m.frames.level ≤ 1) : m.exitFrame = m.kill :=
  if_pos h

theorem exitFrame_of_lt (h : 1 < m.frames.level) :
    m.exitFrame = { m with frames := m.frames.pop } :=
  if_neg (Nat.not_le.2 h)

end Machine

/-- `exit` leaves a frame or ends the program. -/
theorem Coupling.step_exitFrame {C : Coupling} {m : Machine}
    (htwin : (C.twin m).frames.level = m.frames.level)
    (hpop : 1 < m.frames.level → C.Step (fun m => { m with frames := m.frames.pop }) m)
    (hkill : m.frames.level ≤ 1 → C.Step Machine.kill m) : C.Step Machine.exitFrame m := by
  rcases Nat.lt_or_ge 1 m.frames.level with hlevel | hlevel
  · exact (hpop hlevel).congr (Machine.exitFrame_of_lt hlevel)
      (Machine.exitFrame_of_lt (htwin ▸ hlevel))
  · exact (hkill hlevel).congr (Machine.exitFrame_of_le hlevel)
      (Machine.exitFrame_of_le (htwin ▸ hlevel))

end Linewise
