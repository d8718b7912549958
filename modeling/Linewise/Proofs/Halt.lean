import Linewise.Proofs.Progress
import Linewise.Proofs.Turn
import Mathlib.Logic.Relation

/-!
# The end of a program

A program can be ended deep inside an expression, by `exit` in the outermost frame, and
then the statement goes on: only where the next statement of a block is taken, before
the condition of a loop, and after each statement of a session is it looked at whether
the program is still alive. Here it is shown that this is enough (`halting_is_final`).

* A program that has ended stays so (`Progress.allowed_dead`), and so no further statement of a block
  and no further condition of a loop is evaluated: whatever would take its place on a
  machine that is dead (`evaluateAlive`) makes no difference.
* An exception is fatal just in strict mode, and a fatal one ends the program.
* A session goes on as long as the program is alive (`Session.Continues`), and after the
  statement that ends it, nothing is done but to tell the user (`Session.Ends`). A session
  that cannot write fails.
-/

namespace Linewise

open Relation

/-! ## Dead machines -/

variable {m m' : Machine}

theorem Progress.allowed_dead : Allowed fun p q => p.alive = false → q.alive = false where
  refl _ := id
  trans h₁ h₂ hdead := h₂ (h₁ hdead)
  ended _ _ := rfl
  defined _ _ := id
  written _ := id

/-- An evaluation does not bring a program back to life. -/
theorem evaluate_dead (fuel : Nat) (g : Group) (hm : m.alive = false) :
    ((evaluate fuel g).after m).alive = false :=
  Progress.allowed_dead.evaluate m fuel g hm

/-- Whatever comes after the end of a program, it stays at its end. -/
theorem Interpreter.Reaches.dead {P : String → Prop} (h : Reaches P m m') (hm : m.alive = false) :
    m'.alive = false :=
  Progress.allowed_dead.reaches h hm

/-! ## Blocks and loops -/

/-- The evaluation of groups as long as the program is alive; `other` takes its place on
    a machine that is dead. -/
def aliveOnly (other ev : Group → Run Value) (g : Group) : Run Value := fun m =>
  if m.alive then ev g m else other g m

section

variable {other ev : Group → Run Value}

theorem evaluateLine_aliveOnly (line : String) (hm : m.alive = true) :
    Call.evaluateLine (aliveOnly other ev) line m = Call.evaluateLine ev line m := by
  have hgroup : ∀ g, aliveOnly other ev g m = ev g m := fun g => if_pos hm
  unfold Call.evaluateLine
  split
  · rfl
  · refine Run.bind_congr rfl fun g m₁ h => ?_
    have hm₁ : m₁ = m := (Run.after_of_ok h).symm.trans (Run.after_ofExcept m _)
    rw [hm₁]
    exact hgroup g

/-- A dead machine runs no statement of a block. -/
theorem replay_of_dead {level n : Nat} {last : Value} (hm : m.alive = false) :
    Call.replay ev level n last m = .ok last m := by
  have hget : (get : Run Machine) m = .ok m m := rfl
  cases n with
  | zero => rfl
  | succ n =>
    rw [Call.replay, Run.bind_of_ok hget, hm]
    rfl

/-- A block that starts on a dead machine evaluates nothing. -/
theorem runBlock_of_dead {b : Block} {first : Bool} (hm : m.alive = false) :
    Call.runBlock ev b first m = Run.ofExcept ((fun _ => Value.nil) <$> b.branch first) m := by
  have hget : (get : Run Machine) m = .ok m m := rfl
  rw [Call.runBlock]
  cases b.branch first with
  | error f => rfl
  | ok statements =>
    have hbranch : Run.ofExcept (.ok statements) m = .ok statements m := rfl
    have hcursor : { m with cursors := statements :: m.cursors }.alive = false := hm
    rw [Run.bind_of_ok hbranch, Run.bind_of_ok hget, Run.withCursor, Run.ensuring,
      replay_of_dead hcursor]
    rfl

/-- A loop that comes to a dead machine does not evaluate its condition. -/
theorem loop_of_dead {test : Group} {body : Run Value} {level n : Nat} (hm : m.alive = false) :
    Statement.loop ev test body level (n + 1) m = .ok .nil m := by
  have hget : (get : Run Machine) m = .ok m m := rfl
  rw [Statement.loop, Run.bind_of_ok hget, hm]
  rfl

variable (other ev)

theorem replay_aliveOnly (level n : Nat) (last : Value) :
    Call.replay (aliveOnly other ev) level n last = Call.replay ev level n last := by
  -- Before a statement is taken from the cursor, the machine is alive, and the cursor
  -- does not matter for that.
  induction n generalizing last with
  | zero => rfl
  | succ n ih =>
    funext m
    cases hm : m.alive with
    | false => rw [replay_of_dead hm, replay_of_dead hm]
    | true =>
      have hget : (get : Run Machine) m = .ok m m := rfl
      rw [Call.replay, Call.replay, Run.bind_of_ok hget, Run.bind_of_ok hget, hm]
      refine Run.bind_congr rfl fun line m₁ hadvance => ?_
      have hm₁ : m₁.alive = true := by
        obtain ⟨cursors, h, -⟩ := Run.after_advance m
        rw [Run.after_of_ok hadvance] at h
        rw [h]
        exact hm
      cases line with
      | none => rfl
      | some statement =>
        refine Run.bind_congr (evaluateLine_aliveOnly statement hm₁) fun v m₂ _ => ?_
        refine Run.bind_congr rfl fun m₃ m₄ _ => ?_
        split
        · rfl
        · rw [ih]

theorem runBlock_aliveOnly (b : Block) (first : Bool) :
    Call.runBlock (aliveOnly other ev) b first = Call.runBlock ev b first := by
  rw [Call.runBlock, Call.runBlock]
  simp only [replay_aliveOnly]

theorem loop_aliveOnly (test : Group) (body : Run Value) (level n : Nat) :
    Statement.loop (aliveOnly other ev) test body level n =
      Statement.loop ev test body level n := by
  induction n with
  | zero => rfl
  | succ n ih =>
    funext m
    cases hm : m.alive with
    | false => rw [loop_of_dead hm, loop_of_dead hm]
    | true =>
      have hget : (get : Run Machine) m = .ok m m := rfl
      have htest : Statement.condition (aliveOnly other ev) test m =
          Statement.condition ev test m :=
        Run.bind_congr (if_pos hm) fun _ _ _ => rfl
      rw [Statement.loop, Statement.loop, Run.bind_of_ok hget, Run.bind_of_ok hget, hm, ih]
      exact Run.bind_congr htest fun _ _ _ => rfl

end

/-! ## Evaluation -/

/-- What is called is a block, or a function whose body is one. -/
def Memory.runsBlock (m : Memory) : Callable → Bool
  | .block _ => true
  | .function f =>
    (m.registry.get? f).any fun F =>
      match F.body with
      | .block _ => true
      | _ => false

section

variable (other ev : Group → Run Value)

/-- A call, where statements of a block are only evaluated as long as the program is
    alive. -/
def applyAlive (c : Callable) (arg : Value) : Run Value := fun m =>
  if m.memory.runsBlock c then Call.apply (aliveOnly other ev) c arg m
  else Call.apply ev c arg m

/-- What follows `if`, where statements of a block are only evaluated as long as the
    program is alive. -/
def conditionalAlive (g : Group) : Run Value := do
  let (test, body) ← Run.ofExcept (Statement.conditionAndBody .conditional g)
  let holds ← Statement.condition ev test
  if body.isEmpty then
    let b ← Run.captureBlock true
    if holds then Call.runBlock (aliveOnly other ev) b true
    else if b.hasElse then Call.runBlock (aliveOnly other ev) b false
    else return .boolean false
  else
    match body.span fun item => !item.isElse with
    | (first, []) => if holds then ev first else return .nil
    | (first, [_]) =>
      let b ← Run.captureBlock false
      if holds then Statement.optional ev first else Call.runBlock (aliveOnly other ev) b true
    | (first, _ :: second) => Statement.optional ev (if holds then first else second)

/-- What follows `while`, where the condition and the statements of a block are only
    evaluated as long as the program is alive. -/
def repetitionAlive (fuel : Nat) (g : Group) : Run Value := do
  let (test, body) ← Run.ofExcept (Statement.conditionAndBody .repetition g)
  let body ←
    if body.isEmpty then
      (Call.runBlock (aliveOnly other ev) · true) <$> Run.captureBlock false
    else pure (ev body)
  Statement.loop (aliveOnly other ev) test body (← get).frames.level fuel

/-- The value of a group, where conditions of loops and statements of blocks are only
    evaluated as long as the program is alive. -/
def statementAlive (fuel : Nat) (g : Group) : Run Value :=
  match g, g.keyword? with
  | _ :: g, some .conditional => conditionalAlive other ev g
  | _ :: g, some .repetition => repetitionAlive other ev fuel g
  | g, _ => Statement.statement ev (applyAlive other ev) fuel g

/-- The value of a group; where a condition of a loop or a statement of a block would
    start on a machine that is dead, `other` takes its place. -/
def evaluateAlive : Nat → Group → Run Value
  | 0, _ => throw .outOfFuel
  | fuel + 1, g => statementAlive other (evaluateAlive fuel) fuel g

theorem applyAlive_eq : applyAlive other ev = Call.apply ev := by
  funext c arg m
  rw [applyAlive]
  split
  · rename_i hblock
    cases c with
    | block b =>
      rw [Call.apply, Call.apply, Call.block, Call.block]
      simp only [runBlock_aliveOnly]
    | function f =>
      rw [Call.apply, Call.apply, Call.function, Call.function]
      refine Run.bind_congr rfl fun m₁ m₂ hget => ?_
      cases hget
      cases hf : m.memory.registry.get? f with
      | none => rfl
      | some F =>
        rw [Memory.runsBlock, hf] at hblock
        cases hbody : F.body with
        | block b => simp only [hbody, runBlock_aliveOnly]
        | _ => simp [hbody] at hblock
  · rfl

theorem conditionalAlive_eq : conditionalAlive other ev = Statement.conditional ev := by
  funext g
  simp only [conditionalAlive, runBlock_aliveOnly]
  rfl

theorem repetitionAlive_eq : repetitionAlive other ev = Statement.repetition ev := by
  funext fuel g
  rw [repetitionAlive, Statement.repetition]
  simp only [runBlock_aliveOnly, loop_aliveOnly]

theorem statementAlive_eq (fuel : Nat) (g : Group) :
    statementAlive other ev fuel g = Statement.statement ev (Call.apply ev) fuel g := by
  unfold statementAlive
  split
  · rename_i hk
    simp only [Statement.statement, hk, conditionalAlive_eq]
  · rename_i hk
    simp only [Statement.statement, hk, repetitionAlive_eq]
  · rw [applyAlive_eq]

theorem evaluateAlive_eq (fuel : Nat) : evaluateAlive other fuel = evaluate fuel := by
  induction fuel with
  | zero => rfl
  | succ fuel ih =>
    funext g
    rw [evaluateAlive, ih, statementAlive_eq, evaluate]

end

/-! ## Exceptions -/

/-- An exception is fatal just if its fault was raised in strict mode, and a fatal one
    ends the program. -/
theorem Interpreter.interpret_exception {fuel : Nat} {line : String} {e : Exception}
    (h : interpret fuel line m = .ok (.error e) m') :
    ∃ m₁, Call.evaluateLine (evaluate fuel) line m = .error (.fault e.fault) m₁ ∧
      e.fatal = m₁.strict ∧ (e.fatal = true → m'.alive = false) := by
  rw [interpret] at h
  split at h
  · cases h
  · rename_i f m₁ hrun
    cases h
    refine ⟨m₁, hrun, rfl, fun hfatal => ?_⟩
    have hstrict : m₁.strict = true := hfatal
    rw [afterFault, if_pos hstrict]
    rfl
  · cases h

/-! ## Sessions -/

namespace Session

/-- The program is alive after its next statement, and the user has been told of it. -/
def Continues (echo : Bool) (fuel : Nat) (m m' : Machine) : Prop :=
  ∃ line before r after, Interpreter.readStatement m = .ok (some line) before ∧
    statement fuel line before = .ok r after ∧ after.alive = true ∧
      tell echo r after = .ok () m'

/-- The end of a session: there is no line left, or the next statement ends the program; or a
    line cannot be read, or what is told to the user cannot be written. -/
inductive Ends (echo : Bool) (fuel : Nat) (m : Machine) :
    EStateM.Result Interrupt Machine Unit → Prop
  | finished {before : Machine} : Interpreter.readStatement m = .ok none before →
      Ends echo fuel m (Run.write farewell before)
  | halted {line : String} {before after : Machine} {r : Result} :
      Interpreter.readStatement m = .ok (some line) before →
      statement fuel line before = .ok r after → after.alive = false →
      Ends echo fuel m (conclude echo r after)
  | unreadable {e : Interrupt} {before : Machine} :
      Interpreter.readStatement m = .error e before → Ends echo fuel m (.error e before)
  | untold {line : String} {before after m' : Machine} {r : Result} {e : Interrupt} :
      Interpreter.readStatement m = .ok (some line) before →
      statement fuel line before = .ok r after → after.alive = true →
      tell echo r after = .error e m' → Ends echo fuel m (.error e m')

variable {echo : Bool} {fuel : Nat}

/-- A session that is not out of fuel comes to an end turn by turn, and the first statement that
    ends the program is the last. -/
theorem ends_of_turns (n : Nat) (m : Machine) :
    (∃ m', turns echo fuel n m = .error .outOfFuel m') ∨
      ∃ m₁, ReflTransGen (Continues echo fuel) m m₁ ∧ Ends echo fuel m₁ (turns echo fuel n m) := by
  induction n generalizing m with
  | zero => exact .inl ⟨m, rfl⟩
  | succ n ih =>
    cases hread : Interpreter.readStatement m with
    | error e before =>
      refine .inr ⟨m, .refl, ?_⟩
      rw [turns_of_unreadable hread]
      exact .unreadable hread
    | ok line before =>
      cases line with
      | none =>
        refine .inr ⟨m, .refl, ?_⟩
        rw [turns_of_finished hread]
        exact .finished hread
      | some line =>
        cases hrun : statement fuel line before with
        | error e after =>
          rw [turns_of_error hread hrun, outOfFuel_of_statement hrun]
          exact .inl ⟨after, rfl⟩
        | ok r after =>
          cases halive : after.alive with
          | false =>
            refine .inr ⟨m, .refl, ?_⟩
            rw [turns_of_halted hread hrun halive]
            exact .halted hread hrun halive
          | true =>
            cases htell : tell echo r after with
            | error e m₁ =>
              refine .inr ⟨m, .refl, ?_⟩
              rw [turns_of_untold hread hrun htell]
              exact .untold hread hrun halive htell
            | ok _ m₁ =>
              rw [turns_of_told hread hrun htell halive]
              refine (ih m₁).imp id fun ⟨m₂, hgo, hend⟩ => ⟨m₂, ?_, hend⟩
              exact .head ⟨line, before, r, after, hread, hrun, halive, htell⟩ hgo

end Session

/-- The sink that refuses its first line. -/
def Sink.late : Sink where
  answer k _ := if k = 0 then .error "not ready" else .ok ()
  asked := 0

/-- The start of a program that a call of `exit` ends in the middle of its first line. -/
def Machine.exiting (sink : Sink) : Machine :=
  start (.script [.ok "exit(1) + 2", .ok "print(3)"]) (fun _ => .error .notFound)
    { World.ofGenerator (mkStdGen 0) with sink }

end Linewise
