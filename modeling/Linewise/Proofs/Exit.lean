import Linewise.Proofs.Definition
import Linewise.Proofs.Escape
import Linewise.Proofs.Pass

/-!
# Leaving a call

`exit(E)` leaves the frame of the call in which it is evaluated, and nothing else says so
than that there is one frame less. The blocks and the loops around it each notice that
themselves (`Escape.run_eq`), and so does the call, which must not leave the frame once
more (`exit_leaves_call`).
-/

namespace Linewise

/-- The statement is a call of `exit`, which is the function of the standard library as long as
    that is in its place, and `exit` is not called in the argument. It gives what it is given,
    or what that holds if it is a variable. -/
inductive Exits : Nat → Group → Machine → Value → Machine → Prop
  | intro {k : Nat} {g : Group} {x : Value} {m m₁ : Machine}
      (harg : exitFree.evaluate k g m = .ok x m₁) (hregistry : m₁.memory.registry.Sound)
      (hargs : (m₁.memory.arguments x).length ≤ 1) :
      Exits (k + 1) [.symbol Builtin.exit.name, .group g] m
        (m₁.memory.held ((m₁.memory.arguments x).headD .nil)) m₁.exitFrame

section

variable {m : Machine}

/-- Without an argument, `exit` is given nothing. -/
theorem Function.bind_exit {args : List Value} (h : args.length ≤ 1) :
    (ofBuiltin .exit).bind args = .ok [("returnValue", args.headD .nil)] := by
  match args, h with
  | [], _ => rfl
  | [v], _ => rfl

theorem Call.apply_exit (ev : Group → Run Value) {x : Value} (hm : m.memory.registry.Sound)
    (hargs : (m.memory.arguments x).length ≤ 1) (hlevel : 1 < m.frames.level) :
    apply ev (.function (Registry.builtinRef .exit)) x m =
      .ok (m.memory.held ((m.memory.arguments x).headD .nil)) m.exitFrame := by
  have hbind : Run.reading (fun m => (Function.ofBuiltin .exit).bind (m.memory.arguments x)) m =
      .ok [("returnValue", (m.memory.arguments x).headD .nil)] m := by
    rw [Run.reading, Function.bind_exit hargs]
  rw [apply, function_of_get? _ (hm.builtin .exit), invoke, Run.bind_of_ok hbind,
    Machine.exitFrame_of_lt hlevel]
  have hnative : native ev .exit [(m.memory.arguments x).headD .nil] m =
      .ok ((m.memory.arguments x).headD .nil) m.exitFrame := rfl
  rw [Machine.exitFrame_of_lt hlevel] at hnative
  exact Run.bind_of_ok hnative

end

/-- It leaves one frame, where it is not the last. -/
theorem leaves_exits : Leaves 1 Exits where
  ne_nil := by
    rintro _ _ _ _ _ ⟨_, _, _⟩
    exact List.cons_ne_nil _ _
  evaluate_eq := by
    rintro _ _ m _ _ ⟨harg, hregistry, hargs⟩ hlevel
    obtain ⟨harg, hkept⟩ := evaluate_of_exitFree harg
    exact Statement.expression_call harg (Statement.callable?_builtin hregistry .exit)
      (Call.apply_exit _ hregistry hargs (hkept.level ▸ hlevel))
  escaped := by
    rintro _ _ _ _ _ (@⟨_, _, _, _, m₁, harg, _, _⟩) hlevel
    obtain ⟨-, hkept⟩ := evaluate_of_exitFree harg
    have hlevel₁ : 1 < m₁.frames.level := hkept.level ▸ hlevel
    have hpop := Frames.level_pop hlevel₁
    rw [Machine.exitFrame_of_lt hlevel₁]
    refine Escaped.of_kept hkept ?_
    exact {
      cursors := .refl _
      depth := rfl
      one_le_level := Frames.one_le_level _
      level_le := Nat.le_of_succ_le (Nat.le_of_eq hpop)
      level := hpop
      alive := rfl
      ends := .inl Nat.one_pos }

/-! ## Calls -/

namespace Run

variable {α : Type} {x : Run α} {m m' : Machine} {v : α}

theorem nested_of_ok (hdepth : m.depth < Machine.maxDepth) (h : x m.deeper = .ok v m') :
    nested x m = .ok v { m' with depth := m'.depth - 1 } := by
  rw [Machine.deeper] at h
  rw [nested, if_neg (Nat.not_le.2 hdepth), ensuring, h]

/-- The frame has been left already. -/
theorem withFrame_of_left {bindings : List (String × Value)}
    (h : x (m.enterFrame bindings) = .ok v m') (hleft : m'.frames.level = m.frames.level) :
    withFrame bindings x m = .ok v m' := by
  have hlt : m'.frames.level < m.frames.level + 1 := Nat.lt_succ_of_le (Nat.le_of_eq hleft)
  rw [withFrame, ensuring, h, Machine.level_enterFrame]
  show EStateM.Result.ok v (m'.leaveFrame (m.frames.level + 1)) = _
  rw [Machine.leaveFrame_of_lt hlt]

end Run

/-- The block that is run is taken off the cursors again, in whichever way it is left. -/
theorem Escape.cursors_of_branch {stop : Nat → Group → Machine → Value → Machine → Prop}
    {drop k : Nat} {b : Block} {first : Bool} {m m' : Machine} {visits : List Visit} {v : Value}
    (hstop : Leaves drop stop) (h : Escape stop drop (.branch b first) k m visits v m')
    (hlevel : drop < m.frames.level) : m'.cursors = m.cursors := by
  cases h with
  | branch hbranch h => exact (h.escaped hstop hlevel).cursors.tail_eq

section

variable {k : Nat} {f : FunctionRef} {F : Function} {b : Block} {arg v : Value}
  {bindings : List (String × Value)} {m m' : Machine} {visits : List Visit}

/-- A function has a frame of its own, above that of the program. -/
theorem Machine.one_lt_level_enterFrame : 1 < (m.enterFrame bindings).deeper.frames.level := by
  show 1 < (m.enterFrame bindings).frames.level
  rw [level_enterFrame]
  exact Nat.lt_succ_of_le m.frames.one_le_level

theorem Escape.level_of_exits
    (h : Escape Exits 1 (.branch b true) k (m.enterFrame bindings).deeper visits v m') :
    m'.frames.level = m.frames.level :=
  have hlevel := (h.escaped leaves_exits Machine.one_lt_level_enterFrame).level
  Nat.succ.inj (hlevel.trans Machine.level_enterFrame)

variable (hF : m.memory.registry.get? f = some F) (hbody : F.body = .block b)
  (hbind : F.bind (m.memory.arguments arg) = .ok bindings) (hdepth : m.depth < Machine.maxDepth)
  (h : Escape Exits 1 (.branch b true) k (m.enterFrame bindings).deeper visits v m')

include hF hbody hbind hdepth h

/-- A call that is left gives what `exit` was given, and only what is evaluated on the way to
    that matters. -/
theorem function_of_exits {ev : Nat → Group → Run Value} (hsame : ∀ x ∈ visits, x.Same ev) :
    Call.function (ev k) f arg m = .ok (m'.memory.held v) { m' with depth := m.depth } := by
  have hrun : Call.runBlock (ev k) b true (m.enterFrame bindings).deeper = .ok v m' :=
    h.run_eq leaves_exits Machine.one_lt_level_enterFrame hsame
  have hdeeper : m'.depth = m.depth + 1 :=
    (h.escaped leaves_exits Machine.one_lt_level_enterFrame).depth.trans
      (congrArg (· + 1) Machine.depth_enterFrame)
  have hnested := Run.nested_of_ok (Machine.depth_enterFrame.symm ▸ hdepth) hrun
  rw [hdeeper, Nat.add_sub_cancel] at hnested
  have hframe := Run.withFrame_of_left hnested h.level_of_exits
  have hreading : Run.reading (fun m => F.bind (m.memory.arguments arg)) m = .ok bindings m := by
    rw [Run.reading, hbind]
  rw [Call.function_of_get? _ hF, Call.invoke, Run.bind_of_ok hreading, hbody]
  exact Run.bind_of_ok hframe

/-- `exit` leaves exactly one call. If the body of a function comes to a call of `exit`, at any
    depth of its blocks and loops, then the call of the function gives the value of that call.
    That is the last thing that is evaluated, and there are as many frames as before the call
    then, and the same blocks are running. -/
theorem exit_leaves_call :
    Call.function (evaluate k) f arg m = .ok (m'.memory.held v) { m' with depth := m.depth } ∧
      (∀ ev : Nat → Group → Run Value, (∀ x ∈ visits, x.Same ev) →
        Call.function (ev k) f arg m = Call.function (evaluate k) f arg m) ∧
      Escape.Ends Exits visits v m' ∧ m'.frames.level = m.frames.level ∧
      m'.cursors = m.cursors := by
  have heval : Call.function (evaluate k) f arg m =
      .ok (m'.memory.held v) { m' with depth := m.depth } :=
    function_of_exits hF hbody hbind hdepth h fun x _ => x.same_evaluate
  have hcursors := h.cursors_of_branch leaves_exits Machine.one_lt_level_enterFrame
  refine ⟨heval, fun ev hsame => ?_, h.ends, h.level_of_exits,
    hcursors.trans Machine.cursors_enterFrame⟩
  exact (function_of_exits hF hbody hbind hdepth h hsame).trans heval.symm

end

/-- An `if` within a loop, with statements after both. -/
theorem exit_leaves_call_while :
    let b : Block := ⟨["while yes,", "if x = 3,", "exit(x)", "end", "2", "end", "9"], none, false⟩
    let F : Function := .ofBody "f" ["x"] (.block b)
    let f : FunctionRef := (Registry.standard.add F).1
    let m : Machine := { Machine.start (.ofLines []) (fun _ => .error .notFound) (mkStdGen 0) with
      memory := { Memory.initial with registry := (Registry.standard.add F).2 } }
    ∃ bindings visits v m', m.memory.registry.get? f = some F ∧
      F.bind (m.memory.arguments (.integer 3)) = .ok bindings ∧
      Escape Exits 1 (.branch b true) 5 (m.enterFrame bindings).deeper visits v m' ∧
      Call.function (evaluate 5) f (.integer 3) m = .ok (.integer 3) { m' with depth := 0 } := by
  intro b F f m
  have hF : m.memory.registry.get? f = some F := rfl
  have hbind : F.bind (m.memory.arguments (.integer 3)) = .ok [("x", .integer 3)] := rfl
  have hsound : m.memory.registry.Sound :=
    { builtin := fun b => by cases b <;> rfl
      stored := nofun }
  let m₁ := (m.enterFrame [("x", .integer 3)]).deeper
  have harg : exitFree.evaluate 2 [.symbol "x"] { m₁ with cursors := [[], ["2"], ["9"]] } =
      .ok (.var ⟨0⟩) { m₁ with cursors := [[], ["2"], ["9"]] } := rfl
  have hexit : Escape Exits 1 (.branch ⟨["exit(x)"], none, true⟩ true) 3
      { m₁ with cursors := [["2"], ["9"]] } _ _ _ :=
    .branch rfl (.here rfl rfl rfl (.stop (.intro harg hsound (by decide))))
  have htest : Statement.condition (exitFree.evaluate 3)
      [.symbol "x", .symbol "=", .symbol "3"]
      { m₁ with cursors := [["exit(x)", "end", "2"], ["9"]] } =
      .ok true { m₁ with cursors := [["exit(x)", "end", "2"], ["9"]] } := rfl
  have hif : Escape Exits 1 (.branch ⟨["if x = 3,", "exit(x)", "end", "2"], none, false⟩ true) 4
      { m₁ with cursors := [["9"]] } _ _ _ :=
    .branch rfl (.here rfl rfl rfl (.conditional rfl rfl htest (.block rfl (.inl rfl)) hexit))
  have hyes : Statement.condition (exitFree.evaluate 4) [.symbol "yes"]
      { m₁ with cursors := [["9"]] } = .ok true { m₁ with cursors := [["9"]] } := rfl
  have hwhile : Escape Exits 1 (.branch b true) 5 m₁ _ _ _ :=
    .branch rfl (.here rfl rfl rfl (.repetition Nat.one_pos rfl rfl rfl (.enter rfl hyes hif)))
  obtain ⟨hcall, -⟩ := exit_leaves_call hF rfl hbind (by decide) hwhile
  exact ⟨_, _, _, _, hF, hbind, hwhile, hcall⟩

end Linewise
