import Linewise.Proofs.Escape
import Linewise.Proofs.Pass
import Linewise.Proofs.Within

/-!
# Leaving a loop

`break` is a value. Blocks pass it on as the value of their last statement, and the loop
around them takes it for its end, and gives nothing itself (`break_ends_loop`). What is
around the loop then goes on with the lines that come next (`Statement.GoesOn`). These are
the ones after the `end` of the loop, if nothing in the loop has taken any of them
(`unread_of_within`), but `read_string` may have (`read_string_after_break`).
-/

namespace Linewise

/-- The statement `break`. -/
inductive Breaks : Nat → Group → Machine → Value → Machine → Prop
  | intro (k : Nat) (m : Machine) : Breaks (k + 1) [.symbol "break"] m .loopExit m

/-- It leaves no frame. -/
theorem leaves_breaks : Leaves 0 Breaks where
  ne_nil := by
    rintro _ _ _ _ _ ⟨_, _⟩
    exact List.cons_ne_nil _ _
  evaluate_eq := by
    rintro _ _ _ _ _ ⟨_, _⟩ -
    rfl
  escaped := by
    rintro _ _ m _ _ ⟨_, _⟩ -
    exact {
      toStacksKept := .of_eq rfl rfl rfl
      level := rfl
      alive := rfl
      ends := .inr rfl }

/-- What is around the statement goes on after it: a block with its next statement, a loop
    with its condition, and the program with its next line. -/
structure Statement.GoesOn (fuel : Nat) (g : Group) (m m' : Machine) : Prop where
  block : ∀ {line : String} {statements : List String} {cursors : List (List String)}
    {before : Machine} {n : Nat} {last : Value}, before.cursors = (line :: statements) :: cursors →
    m = { before with cursors := statements :: cursors } →
    Group.ofLine (Text.trim line) = .ok g →
      Call.replay (evaluate fuel) m.frames.level (n + 1) last before =
        Call.replay (evaluate fuel) m.frames.level n .nil m'
  loop : ∀ {test : Group} {before : Machine} {n : Nat}, before.alive = true →
    condition (evaluate fuel) test before = .ok true m →
      loop (evaluate fuel) test (evaluate fuel g) m.frames.level (n + 1) before =
        loop (evaluate fuel) test (evaluate fuel g) m.frames.level n m'
  program : ∀ {line : String} {before : Machine} {n : Nat},
    Interpreter.readStatement before = .ok (some line) m →
    Group.ofLine (Text.trim line) = .ok g →
      Interpreter.trace fuel (n + 1) before =
        (⟨m, .ok .nil, m'⟩ :: (Interpreter.trace fuel n m').1, (Interpreter.trace fuel n m').2)

/-- A statement that gives nothing and leaves no frame ends nothing around it. -/
theorem Statement.GoesOn.of_nil {fuel : Nat} {g : Group} {m m' : Machine} (hg : g ≠ [])
    (h : evaluate fuel g m = .ok .nil m') (halive : m.alive = true) (hkept : FrameKept m m') :
    GoesOn fuel g m m' := by
  obtain ⟨item, g, rfl⟩ := List.exists_cons_of_ne_nil hg
  have hlevel : ¬m'.frames.level < m.frames.level := Nat.not_lt.2 (Nat.le_of_eq hkept.level.symm)
  refine ⟨fun {line statements cursors before n last} hcursors hm hline => ?_,
    fun hbefore htest => ?_, fun hread hline => ?_⟩
  · subst hm
    have heval := h
    rw [← Call.evaluateLine_of_ofLine (evaluate fuel) hline] at heval
    refine (Call.replay_of_line (m := before) halive hcursors heval).trans (if_neg ?_)
    simpa [Value.isLoopExit] using hlevel
  · rw [Statement.loop_of_body hbefore htest h, if_neg hlevel]
    rfl
  · have hrun := h
    rw [← Call.evaluateLine_of_ofLine (evaluate fuel) hline] at hrun
    rw [Interpreter.trace, hread]
    dsimp only
    rw [Interpreter.interpret, hrun]
    dsimp only
    rw [hkept.alive, halive]
    rfl

/-- The program is alive where a loop is left. -/
theorem Escape.alive_of_loop {stop : Nat → Group → Machine → Value → Machine → Prop}
    {drop k n : Nat} {test : Group} {b : Block} {m m' : Machine} {visits : List Visit} {v : Value}
    (h : Escape stop drop (.loop test b n) k m visits v m') : m.alive = true := by
  cases h with
  | again halive _ _ _ _ | enter halive _ _ => exact halive

section

variable {k : Nat} {g test : Group} {b : Block} {m m₁ m' : Machine} {visits : List Visit}
  {v : Value} (hg : g.keyword? = some .repetition)
  (hparts : Statement.conditionAndBody .repetition g.tail = .ok (test, []))
  (hcapture : Run.captureBlock false m = .ok b m₁)
  (h : Escape Breaks 0 (.loop test b k) k m₁ visits v m')

include hg hparts hcapture h

/-- A loop that is left gives nothing, and only what is evaluated on the way to `break`
    matters. -/
theorem evaluate_of_breaks {ev : Nat → Group → Run Value}
    (hsame : ∀ x ∈ Visit.parts k g m :: visits, x.Same ev) : ev (k + 1) g m = .ok .nil m' := by
  rw [List.forall_mem_cons] at hsame
  exact (hsame.1.repetition hg hparts hcapture).trans
    (h.run_eq leaves_breaks m₁.frames.one_le_level hsame.2)

/-- `break` ends the loop around it, and nothing else. If the body of a loop comes to it, at any
    depth of its blocks but in no loop within, then that is the last thing that is evaluated,
    and the loop gives nothing. What is around it goes on from there, with as many blocks
    running as before, and with the lines after the `end` of the loop if the evaluations in the
    loop have taken none of them. -/
theorem break_ends_loop :
    evaluate (k + 1) g m = .ok .nil m' ∧
      (∀ ev : Nat → Group → Run Value, (∀ x ∈ Visit.parts k g m :: visits, x.Same ev) →
        ev (k + 1) g m = evaluate (k + 1) g m) ∧
      Escape.Ends Breaks visits v m' ∧ m'.cursors.length = m.cursors.length ∧
      Statement.GoesOn (k + 1) g m m' ∧
      ((∀ m₂, (Construct.loop test b k).run (within m₁.cursors).evaluate k m₁ ≠
          .error .outOfFuel m₂) →
        m'.cursors = m₁.cursors ∧ m₁.Unread m') := by
  have hlevel := m₁.frames.one_le_level
  have hcaptured := FrameKept.of_captureBlock hcapture
  have hescaped := (h.escaped leaves_breaks hlevel).of_kept hcaptured
  have hkept : FrameKept m m' :=
    .of_eq hescaped.cursors hescaped.depth hescaped.level hescaped.alive
  have halive : m.alive = true := hcaptured.alive.symm.trans h.alive_of_loop
  have heval : evaluate (k + 1) g m = .ok .nil m' :=
    evaluate_of_breaks hg hparts hcapture h fun x _ => x.same_evaluate
  have hloop : (Construct.loop test b k).run evaluate k m₁ = .ok .nil m' :=
    h.run_eq leaves_breaks hlevel fun x _ => x.same_evaluate
  have hne : g ≠ [] := by
    rintro rfl
    cases hg
  exact ⟨heval, fun ev hsame => (evaluate_of_breaks hg hparts hcapture h hsame).trans heval.symm,
    h.ends, hescaped.cursors.length_eq, .of_nil hne heval halive hkept, unread_of_within hloop⟩

end

/-- From within an `if`, in the first iteration. -/
theorem break_ends_loop_if :
    let m := Machine.start (.ofLines ["if yes,", "break", "end", "2", "end", "3"])
      (fun _ => .error .notFound) (mkStdGen 0)
    let g : Group := [.symbol "while", .symbol "yes", .symbol ","]
    let b : Block := ⟨["if yes,", "break", "end", "2"], none, false⟩
    let m₁ : Machine := { m with source := .ofLines ["3"], line := 5 }
    g.keyword? = some .repetition ∧
      Statement.conditionAndBody .repetition g.tail = .ok ([.symbol "yes"], []) ∧
      Run.captureBlock false m = .ok b m₁ ∧
      ∃ visits v m', Escape Breaks 0 (.loop [.symbol "yes"] b 4) 4 m₁ visits v m' ∧
        evaluate 5 g m = .ok .nil m' ∧ m'.cursors = [] ∧ m'.source = .ofLines ["3"] := by
  intro m g b m₁
  have hg : g.keyword? = some .repetition := rfl
  have hparts : Statement.conditionAndBody .repetition g.tail = .ok ([.symbol "yes"], []) := rfl
  have hcapture : Run.captureBlock false m = .ok b m₁ := rfl
  have hbreak : Escape Breaks 0 (.branch ⟨["break"], none, true⟩ true) 3
      { m₁ with cursors := [["2"]] } _ _ _ :=
    .branch rfl (.here rfl rfl rfl (.stop (.intro 2 _)))
  have htest : Statement.condition (exitFree.evaluate 3) [.symbol "yes"]
      { m₁ with cursors := [["break", "end", "2"]] } =
      .ok true { m₁ with cursors := [["break", "end", "2"]] } := rfl
  have hif : Escape Breaks 0 (.branch b true) 4 m₁ _ _ _ :=
    .branch rfl (.here rfl rfl rfl (.conditional rfl rfl htest (.block rfl (.inl rfl)) hbreak))
  have hyes : Statement.condition (exitFree.evaluate 4) [.symbol "yes"] m₁ = .ok true m₁ := rfl
  have hwhile : Escape Breaks 0 (.loop [.symbol "yes"] b 4) 4 m₁ _ _ _ := .enter rfl hyes hif
  have hrun : (Construct.loop [.symbol "yes"] b 4).run (within m₁.cursors).evaluate 4 m₁ =
      .ok .nil m₁ := by
    refine hwhile.run_eq leaves_breaks (by decide) ?_
    simp only [List.forall_mem_cons]
    exact ⟨rfl, rfl, rfl, rfl, List.forall_mem_nil _⟩
  obtain ⟨heval, -, -, -, -, hwithin⟩ := break_ends_loop hg hparts hcapture hwhile
  obtain ⟨hcursors, hunread⟩ := hwithin fun m₂ hout => by
    rw [hrun] at hout
    cases hout
  exact ⟨hg, hparts, hcapture, _, _, _, hwhile, heval, hcursors, hunread.source⟩

/-- `read_string` takes the line after the `end`, and the program goes on with the one
    after that. -/
theorem read_string_after_break :
    let m := Machine.start (.ofLines ["read_string()", "break", "end", "let x = 1", "x"])
      (fun _ => .error .notFound) (mkStdGen 0)
    let b : Block := ⟨["read_string()", "break"], none, false⟩
    let m₁ : Machine := { m with source := .ofLines ["let x = 1", "x"], line := 3 }
    Run.captureBlock false m = .ok b m₁ ∧
      (∃ before, Interpreter.readStatement m₁ = .ok (some "let x = 1") before) ∧
      ∃ visits v m', Escape Breaks 0 (.loop [.symbol "yes"] b 9) 9 m₁ visits v m' ∧
        Interpreter.interpret 10 "while yes," m = .ok (.ok .nil) m' ∧
        ∃ before, Interpreter.readStatement m' = .ok (some "x") before := by
  intro m b m₁
  have hread : Call.evaluateLine (exitFree.evaluate 9) "read_string()"
      { m₁ with cursors := [["break"]] } =
      .ok (.string "let x = 1")
        { m₁ with cursors := [["break"]], source := .ofLines ["x"], line := 4 } := rfl
  have hbreak : Escape Breaks 0 (.branch b true) 9 m₁ _ _ _ :=
    .branch rfl (.next rfl rfl hread rfl (.here rfl rfl rfl (.stop (.intro 8 _))))
  have hyes : Statement.condition (exitFree.evaluate 9) [.symbol "yes"] m₁ = .ok true m₁ := rfl
  have hwhile : Escape Breaks 0 (.loop [.symbol "yes"] b 9) 9 m₁ _ _ _ := .enter rfl hyes hbreak
  have hcapture : Run.captureBlock false m = .ok b m₁ := rfl
  have hline : Group.ofLine (Text.trim "while yes,") =
      .ok [.symbol "while", .symbol "yes", .symbol ","] := rfl
  have heval := evaluate_of_breaks (g := [.symbol "while", .symbol "yes", .symbol ","]) rfl rfl
    hcapture hwhile fun x _ => x.same_evaluate
  rw [← Call.evaluateLine_of_ofLine (evaluate 10) hline] at heval
  refine ⟨hcapture, ⟨_, rfl⟩, _, _, _, hwhile, ?_, _, rfl⟩
  rw [Interpreter.interpret, heval]

end Linewise
