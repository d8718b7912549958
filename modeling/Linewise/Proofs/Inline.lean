import Linewise.Proofs.Header
import Linewise.Proofs.Sealed
import Linewise.Proofs.Splice
import Linewise.Proofs.Undecided

/-!
# Bodies on the line and in a block

The body of a function or of a loop stands on the line of its header, or in the block
that follows. In the first form its tree is stored and evaluated as it is. In the second
its text is stored, and is trimmed and read again whenever the block runs, which happens
while the block is on the stack of those that are running. If the body is a single
statement, both forms do the same.

* `Machine.Ahead`: the lines of a block come next, in the source or in a block that is
  running; capturing them leads to the machine without them (`Machine.Ahead.captureBlock`);
* `function_line_eq_block`: both definitions are of the same function, and only its body
  is another one; a call then does the same in both programs (`call_recast`);
* `loop_line_eq_block`: both loops do the same, but for the lines that have been read;
* `body_line_eq_block`: the forms agree, for functions and for loops.

A body on the line is read together with its header, so the header must not change what
the text of the body says. It does if it leaves a bar open: then the first bar of the body
is taken for one that closes (`open_bar_parts_forms`). The header of a function has no
bars, and for a loop this is a condition.
-/

namespace Linewise

/-! ## Blocks of a single statement -/

/-- The block whose only statement is the given one. -/
def Block.single (statement : String) : Block where
  statements := [Text.trim statement]
  elseAt := none
  elseAllowed := false

theorem Block.branch_single (statement : String) :
    (single statement).branch true = .ok [Text.trim statement] := rfl

namespace Capture

variable {α : Type} {statement : String}

/-- No line on its own is captured as such a block. -/
theorem step_start_ne (line : String) :
    (start false).step line ≠ .complete (.single statement) := by
  intro h
  rw [step] at h
  dsimp only at h
  split at h
  · cases h
  · cases h
  split at h
  · cases h
  split at h
  · cases h
  split at h
  · cases h
  · rw [addLine] at h
    dsimp only at h
    split at h
    · split at h <;> cases h
    · cases h

/-- A statement that is captured with the `end` after it is captured wherever the two lines
    come from. -/
theorem run_single {read : α → Except Fault String} {first last : α} {rest : List α}
    (hfirst : read first = .ok statement) (hlast : read last = .ok "end")
    (h : (Block.capture false [statement, "end"]).block = .ok (.single statement)) :
    (start false).run read (first :: last :: rest) =
      { block := .ok (.single statement), rest, read := 2 } := by
  rw [Block.capture, run] at h
  dsimp only at h
  cases hstep : (start false).step statement with
  | failed f =>
    rw [hstep] at h
    cases h
  | complete b =>
    rw [hstep] at h
    cases h
    exact absurd hstep (step_start_ne statement)
  | more c =>
    rw [hstep] at h
    dsimp only at h
    rw [run] at h
    dsimp only at h
    cases hend : c.step "end" with
    | failed f =>
      rw [hend] at h
      cases h
    | more c' =>
      rw [hend] at h
      cases h
    | complete b =>
      rw [hend] at h
      cases h
      rw [run, hfirst]
      dsimp only
      rw [hstep]
      dsimp only
      rw [run, hlast]
      dsimp only
      rw [hend]

/-- Such a statement has a tree. -/
theorem ofLine_of_single
    (h : (Block.capture false [statement, "end"]).block = .ok (.single statement)) :
    ∃ g, Group.ofLine (Text.trim statement) = .ok g := by
  rw [Block.capture, run] at h
  dsimp only at h
  cases hline : Group.ofLine (Text.trim statement) with
  | ok g => exact ⟨g, rfl⟩
  | error f =>
    rw [step] at h
    dsimp only at h
    rw [hline] at h
    cases h

end Capture

/-! ## Lines ahead -/

/-- The machine that has read some more lines. -/
def Machine.later (n : Nat) (m : Machine) : Machine :=
  { m with line := m.line + n }

/-- In the machine `m₀` the given lines come next, and then what comes next in `m`. They are
    `k` lines of the source, or none if a block is running. -/
inductive Machine.Ahead (lines : List String) (m : Machine) : Nat → Machine → Prop
  | cursor {statements : List String} {cursors : List (List String)}
      (hc : m.cursors = statements :: cursors) :
      m.Ahead lines 0 { m with cursors := (lines ++ statements) :: cursors }
  | source {rest : List ScriptLine} (hc : m.cursors = []) (hs : m.source = .script rest) :
      m.Ahead lines lines.length { m with source := .script (lines.map .ok ++ rest) }

theorem Machine.Ahead.captureBlock {statement : String} {m m₀ : Machine} {k : Nat}
    (h : m.Ahead [statement, "end"] k m₀)
    (hb : (Block.capture false [statement, "end"]).block = .ok (.single statement)) :
    Run.captureBlock false m₀ = .ok (.single statement) (m.later k) := by
  cases h with
  | @cursor statements cursors hc =>
    have hcapture : Block.capture false ([statement, "end"] ++ statements) =
        { block := .ok (.single statement), rest := statements, read := 2 } :=
      Capture.run_single rfl rfl hb
    rw [Run.captureBlock_of_cursor rfl, hcapture, ← hc]
    rfl
  | @source rest hc hs =>
    have hcapture : (Capture.start false).run (·.mapError Fault.sourceFailed)
          ([statement, "end"].map .ok ++ rest) =
        { block := .ok (.single statement), rest, read := 2 } :=
      Capture.run_single rfl rfl hb
    have hblock : Source.block false (.script ([statement, "end"].map .ok ++ rest)) =
        { result := .ok (.single statement), rest := m.source, read := 2 } := by
      rw [Source.block, hcapture, hs]
    refine (Run.captureBlock_eq_taking (m := { m with
      source := .script ([statement, "end"].map .ok ++ rest) }) hc false).trans ?_
    rw [Run.taking, hblock]
    rfl

theorem Machine.spliced_later (n : Nat) (m : Machine) : m.spliced (.later n) = m.later n := by
  have hsources : ∀ s suspended, (Splice.later n).sources s suspended = (s, suspended) := by
    intro s suspended
    induction suspended generalizing s with
    | nil => exact congrArg (·, []) (Splice.source_later n s)
    | cons t suspended ih => rw [Splice.sources, ih]
  rw [spliced, hsources]
  rfl

/-! ## Functions -/

/-- What is defined if parameters follow a name. -/
theorem Assignment.run_function {ev : Group → Run Value} {give : VarRef → Value → Run Value}
    {name : String} (hname : Symbol.isName name = true) (parameters body : Group) (m : Machine) :
    run ev give (.symbol name :: .group parameters :: .symbol "=" :: body) m =
      define (.name name) parameters body m := by
  have hhead : ∀ item ∈ [Item.symbol name, .group parameters], (!item.isSymbol "=") = true := by
    have hne : name ≠ "=" := (Symbol.IsOperand.of_isName hname).ne (by decide)
    simp [Item.isSymbol, Item.symbol?, hne]
  have hspan : (Item.symbol name :: .group parameters :: .symbol "=" :: body).span
      (fun item => !item.isSymbol "=") =
        ([.symbol name, .group parameters], .symbol "=" :: body) :=
    Part.span_append_cons hhead (by decide)
  have hreduce : Reference.reduce (resolve ev) ([.symbol name, .group parameters].map headTerm) m =
      .ok [.symbol name, .group parameters] m := by
    refine Reference.reduce_eq_self (List.forall_mem_cons.2 ⟨Symbol.ofTerm?_of_isName hname, ?_⟩) m
    exact List.forall_mem_singleton.2 rfl
  have htarget : target ev (.symbol name) m = .ok (.name name) m := by
    rw [target, if_pos hname]
    rfl
  rw [run, hspan]
  dsimp only
  rw [Run.bind_of_ok hreduce]
  dsimp only
  rw [Run.bind_of_ok htarget]

/-- The value of a definition, the function. -/
def Run.defined (F : Function) : Run Value := do
  return .function (← Run.define F)

section

variable {header name : String} {parameters : Group} {names : List String} {m m₀ : Machine}
  (hheader : Group.ofLine header =
    .ok [.symbol "let", .symbol name, .group parameters, .symbol "="])
  (hname : Symbol.isName name = true)
  (hnames : Assignment.parameterNames parameters = .ok names)

include hname hnames

theorem evaluate_function (fuel : Nat) (body : Group) (m : Machine) :
    evaluate (fuel + 1)
        (.symbol "let" :: .symbol name :: .group parameters :: .symbol "=" :: body) m =
      (do
        let body ← if body.isEmpty then Body.block <$> Run.captureBlock false else pure (.line body)
        Run.defined (.ofBody name names body)) m := by
  have hk : Group.keyword? (.symbol "let" :: .symbol name :: .group parameters ::
      .symbol "=" :: body) = some .assignment := Keyword.ofSymbol?_symbol .assignment
  rw [evaluate, Statement.statement_of_assignment hk]
  show Assignment.run _ _ (.symbol name :: .group parameters :: .symbol "=" :: body) m = _
  rw [Assignment.run_function hname, Assignment.define, hnames]
  rfl

/-- With its body on the line, the function is defined. -/
theorem evaluateLine_function_line {statement : String} {item : Item} {g : Group} (fuel : Nat)
    (hheader : Group.ofLine header =
      .ok [.symbol "let", .symbol name, .group parameters, .symbol "="])
    (hline : Group.ofLine (Text.trim statement) = .ok (item :: g)) (m : Machine) :
    Call.evaluateLine (evaluate (fuel + 1)) (header ++ " " ++ statement) m =
      Run.defined (.ofBody name names (.line (item :: g))) m := by
  have hbars : (Text.outside false header.toList).count '|' % 2 = 0 := by
    rw [List.count_eq_zero_of_not_mem (Assignment.bar_not_mem_of_header hheader hname hnames)]
  have hinline : Group.ofLine (Text.trim (header ++ " " ++ statement)) =
      .ok (.symbol "let" :: .symbol name :: .group parameters :: .symbol "=" :: item :: g) := by
    rw [Group.ofLine_trim, Group.ofLine_header (g := [.symbol "let", .symbol name,
      .group parameters]) hheader (.inl rfl) hbars, ← Group.ofLine_trim statement, hline]
    rfl
  rw [Call.evaluateLine_of_ofLine _ hinline, evaluate_function hname hnames]
  rfl

/-- With its body in the block that follows, the function is defined after that. -/
theorem evaluateLine_function_block {statement : String} {m m₀ : Machine} {k : Nat} (fuel : Nat)
    (hheader : Group.ofLine header =
      .ok [.symbol "let", .symbol name, .group parameters, .symbol "="])
    (hb : (Block.capture false [statement, "end"]).block = .ok (.single statement))
    (h : m.Ahead [statement, "end"] k m₀) :
    Call.evaluateLine (evaluate (fuel + 1)) header m₀ =
      Run.defined (.ofBody name names (.block (.single statement))) (m.later k) := by
  have hcapture : (Body.block <$> Run.captureBlock false) m₀ =
      .ok (.block (.single statement)) (m.later k) :=
    Run.bind_of_ok (h.captureBlock hb)
  rw [← Group.ofLine_trim] at hheader
  rw [Call.evaluateLine_of_ofLine _ hheader, evaluate_function hname hnames]
  show ((Body.block <$> Run.captureBlock false) >>= _) m₀ = _
  rw [Run.bind_of_ok hcapture]

end

/-! ## Loops -/

section

variable {test g : Group} {item : Item} {fuel : Nat} {m : Machine}

theorem Statement.statement_repetition (htest : ∀ item ∈ test, item.isSymbol "," = false)
    (ev : Group → Run Value) (call : Callable → Value → Run Value) :
    statement ev call fuel (.symbol "while" :: (test ++ .symbol "," :: item :: g)) =
      repeated ev fuel test (ev (item :: g)) := by
  have hk : Group.keyword? (.symbol "while" :: (test ++ .symbol "," :: item :: g)) =
      some .repetition := Keyword.ofSymbol?_symbol .repetition
  have hspan : (test ++ .symbol "," :: item :: g).span (fun item => !item.isSymbol ",") =
      (test, .symbol "," :: item :: g) :=
    Part.span_append_cons (fun item hi => by rw [htest item hi]; rfl) (by decide)
  have hparts : conditionAndBody .repetition (test ++ .symbol "," :: item :: g) =
      .ok (test, item :: g) := by
    rw [conditionAndBody, splitAtComma, hspan]
    simp
  simp only [statement, hk, repetition, hparts]
  rfl

theorem evaluate_repetition_block (htest : ∀ item ∈ test, item.isSymbol "," = false)
    {b : Block} {m₁ : Machine} (h : Run.captureBlock false m = .ok b m₁) :
    evaluate (fuel + 1) (.symbol "while" :: (test ++ [.symbol ","])) m =
      Statement.repeated (evaluate fuel) fuel test (Call.runBlock (evaluate fuel) b true) m₁ := by
  have hk : Group.keyword? (.symbol "while" :: (test ++ [.symbol ","])) =
      some .repetition := Keyword.ofSymbol?_symbol .repetition
  rw [evaluate]
  simp only [Statement.statement, hk, Statement.repetition,
    Statement.conditionAndBody_append_comma htest, bind_map_left]
  show (Run.captureBlock false >>= _) m = _
  rw [Run.bind_of_ok h]
  rfl

end

/-- A loop does not depend on how many lines have been read. -/
theorem Statement.repeated_later (fuel k : Nat) (test : Group) (b : Block) (m : Machine) :
    repeated (evaluate fuel) fuel test (Call.runBlock (evaluate fuel) b true) (m.later k) =
      Run.leaving (Machine.later k)
        (repeated (evaluate fuel) fuel test (Call.runBlock (evaluate fuel) b true) m) := by
  have hagree := spliceWalk.agree (.later k) fuel
  have hcouples : (spliceWalk (.later k)).Couples _
      (repeated (evaluate fuel) fuel test (Call.runBlock (evaluate fuel) b true))
      (repeated (evaluate fuel) fuel test (Call.runBlock (evaluate fuel) b true)) m :=
    Walk.couples_repeated spliceWalk.lawful hagree (.inl rfl) trivial trivial fun m' hm' _ =>
      Walk.couples_runBlock spliceWalk.lawful hagree hm' trivial
  have hkept : ∀ m' : Machine, ¬¬(Splice.later k).old <:+ m'.outerLines :=
    fun m' => not_not.2 (List.nil_suffix)
  rw [← Machine.spliced_later]
  cases hrun : repeated (evaluate fuel) fuel test (Call.runBlock (evaluate fuel) b true) m with
  | ok v m' =>
    refine ((hcouples.ok hrun).1 (hkept m')).trans ?_
    exact congrArg (EStateM.Result.ok v) (Machine.spliced_later k m')
  | error i m' =>
    refine ((hcouples.error_strict id (fun _ => id) hrun).1 (hkept m')).trans ?_
    exact congrArg (EStateM.Result.error i) (Machine.spliced_later k m')

/-- A body that is a block of a single statement. -/
theorem sealedWalk.couples_single {e : Recast} (he : e.Renders) {short : Prop}
    {bottom bottom' : List (List String)} {m : Machine} {statement : String} {item : Item}
    {g : Group} (hline : Group.ofLine (Text.trim statement) = .ok (item :: g)) (fuel : Nat)
    (hm : (sealedWalk e short bottom bottom').holds m) :
    (sealedWalk e short bottom bottom').Couples (sealedWalk e short bottom bottom').value
      (evaluateSealed fuel (item :: g))
      (Call.runBlock (evaluate fuel) (.single statement) true) m := by
  cases halive : m.alive with
  | true =>
    have hline' : Group.ofLine (Text.trim (Text.trim statement)) = .ok (item :: g) := by
      rw [Text.trim_trim, hline]
    refine (couples_withCursor_right hm ?_).congr rfl (Call.runBlock_single _
      (Block.branch_single statement) hline' halive)
    exact agree he fuel _ _ _ ⟨List.suffix_rfl, False.elim⟩ trivial
  | false =>
    have hends : evaluateSealed fuel (item :: g) m = .error .outOfFuel m := by
      cases fuel with
      | zero => rfl
      | succ fuel => exact if_neg (by rw [halive]; exact Bool.false_ne_true)
    exact Coupling.couples_of_lenient trivial hends

/-- A loop over a body on the line, and over the block that has the body for its only
    statement. -/
theorem sealedWalk.couples_repeated {e : Recast} (he : e.Renders) {short : Prop}
    {bottom bottom' : List (List String)} {m : Machine} {statement : String} {item : Item}
    {test g : Group} (hline : Group.ofLine (Text.trim statement) = .ok (item :: g))
    (htest : ∀ item ∈ test, item.isSymbol "," = false) (fuel : Nat)
    (hm : (sealedWalk e short bottom bottom').holds m) :
    (sealedWalk e short bottom bottom').Couples (sealedWalk e short bottom bottom').value
      (evaluateSealed (fuel + 1) (.symbol "while" :: (test ++ .symbol "," :: item :: g)))
      (Statement.repeated (evaluate fuel) fuel test
        (Call.runBlock (evaluate fuel) (.single statement) true)) m := by
  rw [evaluateSealed, Statement.statement_repetition htest]
  refine couples_alive fun _ => couples_sealed hm ?_
  exact Walk.couples_repeated lawful (agree he fuel _ _ _) (.inl rfl)
    ⟨List.suffix_rfl, fun _ => rfl⟩ trivial fun m' hm' _ => couples_single he hline fuel hm'

/-! ## Both forms -/

/-- The line is `let`, the name of a function and its parameters in brackets, and `=`. -/
def IsFunctionHeader (line name : String) (names : List String) : Prop :=
  ∃ parameters, Group.ofLine line =
      .ok [.symbol "let", .symbol name, .group parameters, .symbol "="] ∧
    Symbol.isName name = true ∧ Assignment.parameterNames parameters = .ok names

/-- The line is `while`, a condition that has no comma but in brackets, and a comma. It leaves
    no bar open. -/
def IsLoopHeader (line : String) : Prop :=
  ∃ test : Group, Group.ofLine line = .ok (.symbol "while" :: (test ++ [.symbol ","])) ∧
    (∀ item ∈ test, item.isSymbol "," = false) ∧
    (Text.outside false line.toList).count '|' % 2 = 0

section

variable {header statement : String} {item : Item} {g : Group} {m m₀ : Machine} {k : Nat}
  (hb : (Block.capture false [statement, "end"]).block = .ok (.single statement))
  (hline : Group.ofLine (Text.trim statement) = .ok (item :: g))
  (hahead : m.Ahead [statement, "end"] k m₀) (fuel : Nat)

include hb hline hahead

/-- The two definitions are of the same function, and the machines that they leave only differ
    in its body. -/
theorem function_line_eq_block {name : String} {names : List String}
    (hheader : IsFunctionHeader header name names) :
    match m.memory.registry.define (.ofBody name names (.block (.single statement))) with
    | .ok (f, registry) =>
      let m' : Machine := { m with memory := { m.memory with registry } }
      Call.evaluateLine (evaluate (fuel + 1)) header m₀ = .ok (.function f) (m'.later k) ∧
        Call.evaluateLine (evaluate (fuel + 1)) (header ++ " " ++ statement) m =
          .ok (.function f) (m'.recast ⟨f, .single statement, .line (item :: g)⟩)
    | .error fault =>
      Call.evaluateLine (evaluate (fuel + 1)) header m₀ = .error (.fault fault) (m.later k) ∧
        Call.evaluateLine (evaluate (fuel + 1)) (header ++ " " ++ statement) m =
          .error (.fault fault) m := by
  obtain ⟨parameters, hheader, hname, hnames⟩ := hheader
  rw [evaluateLine_function_block hname hnames fuel hheader hb hahead,
    evaluateLine_function_line hname hnames fuel hheader hline]
  cases hdefine : m.memory.registry.define (.ofBody name names (.block (.single statement))) with
  | ok p =>
    obtain ⟨f, registry⟩ := p
    have hbody := Recast.define_body hdefine (.line (item :: g))
    have hblock : Run.define (.ofBody name names (.block (.single statement))) (m.later k) = _ :=
      Run.define_of_ok hdefine
    refine ⟨?_, ?_⟩
    · rw [Run.defined, Run.bind_of_ok hblock]
      rfl
    · rw [Run.defined, Run.bind_of_ok (Run.define_of_ok hbody)]
      rfl
  | error fault =>
    have hbody := Recast.define_body_error hdefine (.line (item :: g))
    have hblock : Run.define (.ofBody name names (.block (.single statement))) (m.later k) = _ :=
      Run.define_of_error hdefine
    exact ⟨Run.bind_eq_error.2 (.inl hblock),
      Run.bind_eq_error.2 (.inl (Run.define_of_error hbody))⟩

/-- The two loops do the same, but for the lines that are read. -/
theorem loop_line_eq_block (hheader : IsLoopHeader header)
    (h : ∀ m', Call.evaluateLine (evaluateSealed (fuel + 1)) (header ++ " " ++ statement) m ≠
      .error .outOfFuel m') :
    Call.evaluateLine (evaluate (fuel + 1)) header m₀ =
      Run.leaving (Machine.later k)
        (Call.evaluateLine (evaluate (fuel + 1)) (header ++ " " ++ statement) m) := by
  obtain ⟨test, hheader, htest, hbars⟩ := hheader
  have hinline : Group.ofLine (Text.trim (header ++ " " ++ statement)) =
      .ok (.symbol "while" :: (test ++ .symbol "," :: item :: g)) := by
    rw [Group.ofLine_trim, Group.ofLine_header (g := .symbol "while" :: test) hheader (.inr rfl)
      hbars, ← Group.ofLine_trim statement, hline]
    exact congrArg Except.ok (by simp)
  rw [← Group.ofLine_trim] at hheader
  rw [Call.evaluateLine_of_ofLine _ hinline] at h
  rw [Call.evaluateLine_of_ofLine _ hheader, Call.evaluateLine_of_ofLine _ hinline,
    evaluate_repetition_block htest (hahead.captureBlock hb), Statement.repeated_later,
    evaluate_eq_sealed h]
  exact congrArg (Run.leaving (Machine.later k)) <| sealedWalk.eq_of_couples
    (sealedWalk.couples_repeated .keep hline htest fuel ⟨List.suffix_rfl, False.elim⟩) h

end

/-- Let a statement be captured, with the `end` after it, as the only one of a block. Then a
    body on the line does the same as that block, as long as no block is captured and the
    program goes on.

    * The two definitions are of the same function, and leave machines that only differ in
      its body. In any two such machines a call of the function does the same.
    * The two loops do the same, if the line of the loop leaves no bar open. -/
theorem body_line_eq_block {statement : String} (hne : Text.trim statement ≠ "")
    (hb : (Block.capture false [statement, "end"]).block = .ok (.single statement))
    (fuel : Nat) :
    ∃ g, Group.ofLine (Text.trim statement) = .ok g ∧
      (∀ (header name : String) (names : List String), IsFunctionHeader header name names →
        ∀ (m m₀ : Machine) (k : Nat), m.Ahead [statement, "end"] k m₀ →
        match m.memory.registry.define (.ofBody name names (.block (.single statement))) with
        | .ok (f, registry) =>
          let m' : Machine := { m with memory := { m.memory with registry } }
          Call.evaluateLine (evaluate (fuel + 1)) header m₀ = .ok (.function f) (m'.later k) ∧
            Call.evaluateLine (evaluate (fuel + 1)) (header ++ " " ++ statement) m =
              .ok (.function f) (m'.recast ⟨f, .single statement, .line g⟩)
        | .error fault =>
          Call.evaluateLine (evaluate (fuel + 1)) header m₀ = .error (.fault fault) (m.later k) ∧
            Call.evaluateLine (evaluate (fuel + 1)) (header ++ " " ++ statement) m =
              .error (.fault fault) m) ∧
      (∀ (f : FunctionRef) (arg : Value) (m : Machine), m.alive = true →
        (∀ m', Call.function (evaluateSealed fuel) f arg m ≠ .error .outOfFuel m') →
        let e : Recast := ⟨f, .single statement, .line g⟩
        Call.function (evaluate fuel) f arg (m.recast e) =
          Run.leaving (Machine.recast e) (Call.function (evaluate fuel) f arg m)) ∧
      ∀ header : String, IsLoopHeader header →
        ∀ (m m₀ : Machine) (k : Nat), m.Ahead [statement, "end"] k m₀ →
        (∀ m', Call.evaluateLine (evaluateSealed (fuel + 1)) (header ++ " " ++ statement) m ≠
          .error .outOfFuel m') →
        Call.evaluateLine (evaluate (fuel + 1)) header m₀ =
          Run.leaving (Machine.later k)
            (Call.evaluateLine (evaluate (fuel + 1)) (header ++ " " ++ statement) m) := by
  obtain ⟨g, hline⟩ := Capture.ofLine_of_single hb
  obtain ⟨item, g, rfl⟩ := Group.exists_item_of_ofLine hne hline
  have hrenders : ∀ f, Recast.Renders ⟨f, .single statement, .line (item :: g)⟩ := fun f =>
    .line (Block.branch_single statement) (by rw [Text.trim_trim, hline])
  exact ⟨_, hline,
    fun header name names hheader m m₀ k hahead =>
      function_line_eq_block hb hline hahead fuel hheader,
    fun f arg m halive h => call_recast (hrenders f) halive h,
    fun header hheader m m₀ k hahead h => loop_line_eq_block hb hline hahead fuel hheader h⟩

/-- A statement that counts, as the body of a function and of a loop. -/
theorem body_line_eq_block_count :
    let statement := "let n = n + 1"
    let m := ((Machine.start (.script []) (fun _ => .error .notFound) (mkStdGen 0)).declare
      "n" (.integer 0)).2
    let m₀ : Machine := { m with source := .ofLines [statement, "end"] }
    Text.trim statement ≠ "" ∧
      (Block.capture false [statement, "end"]).block = .ok (.single statement) ∧
      m.Ahead [statement, "end"] 2 m₀ ∧
      IsFunctionHeader "let f(n) =" "f" ["n"] ∧ IsLoopHeader "while n < 3," ∧
      ∃ g, Group.ofLine (Text.trim statement) = .ok g ∧
        (∃ m' : Machine, let e : Recast := ⟨⟨6⟩, .single statement, .line g⟩
          Call.evaluateLine (evaluate 10) "let f(n) =" m₀ = .ok (.function ⟨6⟩) (m'.later 2) ∧
          Call.evaluateLine (evaluate 10) ("let f(n) =" ++ " " ++ statement) m =
            .ok (.function ⟨6⟩) (m'.recast e) ∧
          Call.function (evaluate 9) ⟨6⟩ (.integer 4) (m'.recast e) =
            Run.leaving (Machine.recast e) (Call.function (evaluate 9) ⟨6⟩ (.integer 4) m')) ∧
        Call.evaluateLine (evaluate 10) "while n < 3," m₀ =
          Run.leaving (Machine.later 2)
            (Call.evaluateLine (evaluate 10) ("while n < 3," ++ " " ++ statement) m) := by
  intro statement m m₀
  have hne : Text.trim statement ≠ "" := by decide
  have hb : (Block.capture false [statement, "end"]).block = .ok (.single statement) := by cbv
  have hahead : m.Ahead [statement, "end"] 2 m₀ := .source rfl rfl
  have hfunction : IsFunctionHeader "let f(n) =" "f" ["n"] :=
    ⟨[.symbol "n"], by cbv, by decide, by decide⟩
  have hloop : IsLoopHeader "while n < 3," :=
    ⟨[.symbol "n", .symbol "<", .symbol "3"], by cbv, by decide, by decide⟩
  obtain ⟨g, hline, hfunctions, hcalls, hloops⟩ := body_line_eq_block hne hb 9
  let F : Function := .ofBody "f" ["n"] (.block (.single statement))
  let registry : Registry :=
    { functions := m.memory.registry.functions.push F, names := [("f", ⟨6⟩)] }
  let m' : Machine := { m with memory := { m.memory with registry } }
  have hdefine : m.memory.registry.define F = .ok (⟨6⟩, registry) := by cbv
  have hdefined := hfunctions "let f(n) =" "f" ["n"] hfunction m m₀ 2 hahead
  rw [hdefine] at hdefined
  have hcall : ((Call.function (evaluateSealed 9) ⟨6⟩ (.integer 4)).value? m').isSome = true := by
    decide +kernel
  have hrun : ((Call.evaluateLine (evaluateSealed 10)
      ("while n < 3," ++ " " ++ statement)).value? m).isSome = true := by
    decide +kernel
  exact ⟨hne, hb, hahead, hfunction, hloop, g, hline,
    ⟨m', hdefined.1, hdefined.2, hcalls ⟨6⟩ (.integer 4) m' rfl (Run.ne_error_of_isSome hcall _)⟩,
    hloops "while n < 3," hloop m m₀ 2 hahead (Run.ne_error_of_isSome hrun _)⟩

/-- A condition with a bar that is closed by a round bracket. On the line of the loop, the
    first bar of the body closes a group and does not open one. -/
theorem open_bar_parts_forms :
    let header := "while (if n < 2, n < 1 else (|2))),"
    let statement := "let n = n + |1|"
    let m := ((Machine.start (.script []) (fun _ => .error .notFound) (mkStdGen 0)).declare
      "n" (.integer 0)).2
    let m₀ : Machine := { m with source := .ofLines [statement, "end"] }
    ∃ test g : Group, Text.trim statement ≠ "" ∧
      (Block.capture false [statement, "end"]).block = .ok (.single statement) ∧
      Group.ofLine header = .ok (.symbol "while" :: (test ++ [.symbol ","])) ∧
      (∀ item ∈ test, item.isSymbol "," = false) ∧
      Group.ofLine (Text.trim statement) = .ok g ∧
      ((Statement.repeated (evaluateSealed 20) 20 test (evaluateSealed 20 g)).value? m).isSome ∧
      m.Ahead [statement, "end"] 2 m₀ ∧
      ((Call.evaluateLine (evaluate 20) header).value? m₀).isSome ∧
      Call.evaluateLine (evaluate 20) (header ++ " " ++ statement) m =
        .error (.fault (.tooManyClosing 1)) m := by
  intro header statement m m₀
  refine ⟨[.group [.symbol "if", .symbol "n", .symbol "<", .symbol "2", .symbol ",", .symbol "n",
      .symbol "<", .symbol "1", .symbol "else", .group [.symbol "|", .group [.symbol "2"]]]],
    [.symbol "let", .symbol "n", .symbol "=", .symbol "n", .symbol "+", .symbol "|",
      .group [.symbol "1"], .symbol "|"],
    by decide, by cbv, by cbv, by decide, by cbv, by decide +kernel, .source rfl rfl,
    by decide +kernel, ?_⟩
  have hline : Group.ofLine (Text.trim (header ++ " " ++ statement)) =
      .error (.tooManyClosing 1) := by cbv
  have hne : ¬(Text.trim (header ++ " " ++ statement)).isEmpty = true := by decide
  unfold Call.evaluateLine
  rw [if_neg hne, hline]
  rfl

end Linewise
