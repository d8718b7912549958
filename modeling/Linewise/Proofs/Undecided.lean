import Linewise.Interpreter
import Linewise.Proofs.Unread

/-!
# Conditions that cannot be decided

The condition of `if C,` or `while C,` may fail, or come to no boolean. Then the
statement fails, and the body in the block that follows is not to be run. But the
lines of the body are still there, and what becomes of them depends on when they
are taken from the source:

* `while` takes them before it evaluates its condition, so the next statement is
  the one after the `end` (`undecided_repetition_skips_body`);
* `if` takes them only once its condition is decided. So they are left where they
  are (`undecided_conditional_leaves_body`), and are read as statements of their
  own (`undecided_if_runs_body`).
-/

namespace Linewise

/-! ## Statements that fail -/

/-- What follows `if` or `while` on a line that ends in its only comma. -/
theorem Statement.conditionAndBody_append_comma {test : Group}
    (htest : ∀ item ∈ test, item.isSymbol "," = false) (k : Keyword) :
    conditionAndBody k (test ++ [.symbol ","]) = .ok (test, []) := by
  have hspan : (test ++ [Item.symbol ","]).span (fun item => !item.isSymbol ",") =
      (test, [Item.symbol ","]) := by
    have hall : ∀ item ∈ test, (!item.isSymbol ",") = true := fun item hi => by simp [htest item hi]
    rw [List.span_eq_takeWhile_dropWhile, List.takeWhile_append_of_pos hall,
      List.dropWhile_append_of_pos hall]
    simp [Item.isSymbol, Item.symbol?]
  rw [conditionAndBody, splitAtComma, hspan]
  simp

/-- A condition that fails without taking a line does the same wherever the machine has got
    to in the source. -/
theorem Statement.condition_movedTo {test : Group} {fuel : Nat} {m m' : Machine} {f : Fault}
    (h : condition (unreadWatch.evaluate fuel) test m = .error (.fault f) m') (source : Source)
    (n : Nat) :
    condition (evaluate fuel) test (m.movedTo source n) =
        .error (.fault f) (m'.movedTo source n) ∧ m.Unread m' := by
  have hagree := unreadWalk.agree source n fuel
  have hcouples := Walk.couples_condition unreadWalk.lawful hagree
    (m := m) (g := test) trivial fun _ => trivial
  obtain (⟨-, hfuel⟩ | hexcused) | ⟨htwin, -, hunread⟩ := hcouples.error h
  · cases hfuel
  · cases hexcused
  · exact ⟨htwin id, hunread⟩

/-! ## Bodies that have been taken -/

/-- To capture a block from the source only moves on in it. -/
theorem Run.captureBlock_movedTo {elseAllowed : Bool} {m m' : Machine} {b : Block}
    (hc : m.cursors = []) (h : captureBlock elseAllowed m = .ok b m') :
    ∃ n, m' = m.movedTo m'.source n := by
  rw [captureBlock, hc] at h
  cases hs : m.source with
  | directory =>
    rw [hs] at h
    cases h
  | script lines =>
    rw [hs] at h
    dsimp only at h
    rw [ofExcept, reading] at h
    split at h
    · cases h
      exact ⟨_, by rw [Machine.movedTo, ← hc]⟩
    · cases h

/-- The next statement is read from the source, wherever the machine has got to
    otherwise. -/
theorem Interpreter.readStatement_of_source {m₁ m₂ before : Machine} {next : Option String}
    (hs : m₂.source = m₁.source) (hsuspended : m₂.suspended = m₁.suspended)
    (h : readStatement m₁ = .ok next before) : ∃ before', readStatement m₂ = .ok next before' := by
  rw [readStatement_eq, Run.readLine, Machine.settled] at h
  rw [readStatement_eq, Run.readLine, Machine.settled, hs, hsuspended]
  dsimp only at h ⊢
  generalize (withoutFinished m₁.source m₁.suspended).1.next = line at h ⊢
  rcases line with ⟨_ | _ | _, source⟩
  all_goals
    cases h
    try exact ⟨_, rfl⟩

/-! ## The two constructs -/

section

variable {line : String} {test : Group} {fuel : Nat} {m m₁ m' : Machine} {b : Block} {f : Fault}
  (htest : ∀ item ∈ test, item.isSymbol "," = false)

include htest

/-- `while` takes its body first, and then evaluates its condition. -/
theorem evaluate_repetition_of_undecided (halive : m₁.alive = true)
    (hcapture : Run.captureBlock false m = .ok b m₁)
    (hundecided : Statement.condition (evaluate (fuel + 1)) test m₁ = .error (.fault f) m') :
    evaluate (fuel + 2) (.symbol Keyword.repetition.symbol :: (test ++ [.symbol ","])) m =
      .error (.fault f) m' := by
  have hk : Group.keyword? (.symbol Keyword.repetition.symbol :: (test ++ [.symbol ","])) =
      some .repetition := Keyword.ofSymbol?_symbol .repetition
  have hloop : ∀ body level,
      Statement.loop (evaluate (fuel + 1)) test body level (fuel + 1) m₁ =
        .error (.fault f) m' := by
    intro body level
    rw [Statement.loop]
    refine Run.bind_eq_error.2 (.inr ⟨m₁, m₁, rfl, ?_⟩)
    rw [halive, Bool.not_true, if_neg Bool.false_ne_true]
    exact Run.bind_eq_error.2 (.inl hundecided)
  rw [evaluate]
  simp only [Statement.statement, hk, Statement.repetition,
    Statement.conditionAndBody_append_comma htest, bind_map_left]
  refine Run.bind_eq_error.2 (.inr ⟨_, m, rfl, ?_⟩)
  refine Run.bind_eq_error.2 (.inr ⟨b, m₁, hcapture, ?_⟩)
  exact Run.bind_eq_error.2 (.inr ⟨m₁, m₁, rfl, hloop _ _⟩)

/-- `if` evaluates its condition first, and the body stays where it is. -/
theorem undecided_conditional_leaves_body
    (hline : Group.ofLine (Text.trim line) =
      .ok (.symbol Keyword.conditional.symbol :: (test ++ [.symbol ","])))
    (hundecided : Statement.condition (evaluate fuel) test m = .error (.fault f) m') :
    Interpreter.interpret (fuel + 1) line m =
      .ok (.error (Interpreter.exception m' f)) (Interpreter.afterFault m') := by
  refine Interpreter.interpret_of_fault hline ?_
  have hk : Group.keyword? (.symbol Keyword.conditional.symbol :: (test ++ [.symbol ","])) =
      some .conditional := Keyword.ofSymbol?_symbol .conditional
  rw [evaluate]
  simp only [Statement.statement, hk, Statement.conditional,
    Statement.conditionAndBody_append_comma htest]
  refine Run.bind_eq_error.2 (.inr ⟨_, m, rfl, ?_⟩)
  exact Run.bind_eq_error.2 (.inl hundecided)

end

/-- If the condition of a `while` with a body in the lines that follow fails, or
    comes to no boolean, then the statement gives an exception. All that it has done
    is what the condition did, and the next statement is the one after the body. The
    condition itself takes no lines. -/
theorem undecided_repetition_skips_body {line : String} {test : Group} {fuel : Nat}
    {m m₁ m' : Machine} {b : Block} {f : Fault}
    (hline : Group.ofLine (Text.trim line) =
      .ok (.symbol Keyword.repetition.symbol :: (test ++ [.symbol ","])))
    (htest : ∀ item ∈ test, item.isSymbol "," = false) (hc : m.cursors = [])
    (halive : m.alive = true) (hcapture : Run.captureBlock false m = .ok b m₁)
    (hundecided : Statement.condition (unreadWatch.evaluate fuel) test m = .error (.fault f) m') :
    let after := { m' with source := m₁.source, line := m₁.line }
    Interpreter.interpret (fuel + 1) line m =
        .ok (.error (Interpreter.exception after f)) (Interpreter.afterFault after) ∧
      ∀ next before, Interpreter.readStatement m₁ = .ok next before →
        ∃ before', Interpreter.readStatement (Interpreter.afterFault after) = .ok next before' := by
  intro after
  cases fuel with
  | zero => cases hundecided
  | succ fuel =>
    -- The condition is evaluated once the body has been taken, and since it does not
    -- use the source, it does the same there.
    obtain ⟨n, hm₁⟩ := Run.captureBlock_movedTo hc hcapture
    obtain ⟨htwin, hunread⟩ := Statement.condition_movedTo hundecided m₁.source n
    have hafter : m'.movedTo m₁.source n = after := by
      have hline : m₁.line = m.line + n := congrArg Machine.line hm₁
      simp only [Machine.movedTo, after, hline, hunread.line]
    have halive₁ : m₁.alive = true := (congrArg Machine.alive hm₁).trans halive
    have hundecided₁ : Statement.condition (evaluate (fuel + 1)) test m₁ =
        .error (.fault f) after := by
      rw [hm₁, ← hafter]
      exact htwin
    refine ⟨Interpreter.interpret_of_fault hline
      (evaluate_repetition_of_undecided htest halive₁ hcapture hundecided₁), ?_⟩
    intro next before hread
    have hsuspended : after.suspended = m₁.suspended :=
      hunread.suspended.trans (congrArg Machine.suspended hm₁).symm
    have hfault : (Interpreter.afterFault after).source = m₁.source ∧
        (Interpreter.afterFault after).suspended = m₁.suspended := by
      rw [Interpreter.afterFault]
      split <;> exact ⟨rfl, hsuspended⟩
    exact Interpreter.readStatement_of_source hfault.1 hfault.2 hread

theorem undecided_repetition_skips_body_number :
    let m := Machine.start (.ofLines ["print(2)", "end", "3"]) (fun _ => .error .notFound)
      (mkStdGen 0)
    (∃ b m₁, Run.captureBlock false m = .ok b m₁) ∧
      ∃ m', Statement.condition (unreadWatch.evaluate 9) [.symbol "1"] m =
          .error (.fault .conditionNotBoolean) m' ∧
        ∃ e after before, Interpreter.interpret 10 "while 1," m = .ok (.error e) after ∧
          Interpreter.readStatement after = .ok (some "3") before := by
  intro m
  have hundecided : Statement.condition (unreadWatch.evaluate 9) [.symbol "1"] m =
      .error (.fault .conditionNotBoolean) m := rfl
  have hcapture : Run.captureBlock false m =
      .ok ⟨["print(2)"], none, false⟩ { m with source := .ofLines ["3"], line := 2 } := rfl
  have hline : Group.ofLine (Text.trim "while 1,") =
      .ok (.symbol Keyword.repetition.symbol :: ([.symbol "1"] ++ [.symbol ","])) := rfl
  have htest : ∀ item ∈ [Item.symbol "1"], item.isSymbol "," = false := by decide
  obtain ⟨hrun, hnext⟩ := undecided_repetition_skips_body hline htest rfl rfl hcapture hundecided
  obtain ⟨before, hnext⟩ := hnext (some "3") _ rfl
  exact ⟨⟨_, _, hcapture⟩, m, hundecided, _, _, before, hrun, hnext⟩

/-- The body of an `if` whose condition is a number is what the program goes on
    with. -/
theorem undecided_if_runs_body :
    let m := Machine.start (.ofLines ["exit()", "end", "3"]) (fun _ => .error .notFound)
      (mkStdGen 0)
    (∃ b m₁, Run.captureBlock true m = .ok b m₁ ∧ m₁.source = .ofLines ["3"]) ∧
      (∃ m', Statement.condition (evaluate 9) [.symbol "1"] m =
        .error (.fault .conditionNotBoolean) m') ∧
      ∃ e after before, Interpreter.interpret 10 "if 1," m = .ok (.error e) after ∧
        Interpreter.readStatement after = .ok (some "exit()") before ∧
        ∃ v m', Interpreter.interpret 10 "exit()" before = .ok (.ok v) m' ∧ m'.alive = false :=
  ⟨⟨_, _, rfl, rfl⟩, ⟨_, rfl⟩, _, _, _, rfl, rfl, _, _, rfl, rfl⟩

end Linewise
