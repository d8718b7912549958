import Linewise.Proofs.Exitless

/-!
# Ways out of blocks and loops

`break` and `exit` are statements like any other, and what they leave early are the blocks
and loops around them: each of these looks at the value of a statement, and at the number
of frames, and ends there, as the construct around it then does.

* A run that comes to such a statement (`Escape`) does so through blocks, the branches of
  `if`, and loops. What comes before on the way is evaluated as a whole, without `exit`;
  what would come after is not mentioned at all.
* The evaluations on the way are listed (`Visit`), in their order, the last one being
  that of the statement that leaves (`Escape.ends`).
* The construct ends there (`Escape.run_eq`): its run is the same for every evaluation
  that does the same on the way, whatever it does elsewhere. So nothing else is
  evaluated.
-/

namespace Linewise

/-! ## Constructs -/

/-- What a run is in the middle of. -/
inductive Construct where
  | statement (g : Group)
  /-- A branch of a block, at its start. -/
  | branch (b : Block) (first : Bool)
  /-- The statements left of the innermost running block, at most `n` of them; `last` is the
      value of the statement before. -/
  | rest (n : Nat) (last : Value)
  /-- The repetition of a block, at most `n` times. -/
  | loop (test : Group) (b : Block) (n : Nat)

/-- The run of a construct, given the evaluation of groups with any amount of fuel. -/
def Construct.run (ev : Nat → Group → Run Value) (fuel : Nat) : Construct → Run Value
  | statement g => ev fuel g
  | branch b first => Call.runBlock (ev fuel) b first
  | rest n last => fun m => Call.replay (ev fuel) m.frames.level n last m
  | loop test b n => fun m =>
    Statement.loop (ev fuel) test (Call.runBlock (ev fuel) b true) m.frames.level n m

theorem Construct.run_branch (ev : Nat → Group → Run Value) (fuel : Nat) (b : Block) (first : Bool) :
    (branch b first).run ev fuel = Call.runBlock (ev fuel) b first := rfl

theorem Construct.run_rest (ev : Nat → Group → Run Value) (fuel n : Nat) (last : Value)
    (m : Machine) :
    (rest n last).run ev fuel m = Call.replay (ev fuel) m.frames.level n last m := rfl

theorem Construct.run_loop (ev : Nat → Group → Run Value) (fuel n : Nat) (test : Group) (b : Block)
    (m : Machine) :
    (loop test b n).run ev fuel m =
      Statement.loop (ev fuel) test (Call.runBlock (ev fuel) b true) m.frames.level n m := rfl

/-- What a run evaluates on its way: a statement of a block, a condition, a block as a
    whole, a group, or the parts of a statement one after the other. -/
inductive Visit where
  | line (fuel : Nat) (text : String) (m : Machine)
  | condition (fuel : Nat) (test : Group) (m : Machine)
  | block (fuel : Nat) (b : Block) (m : Machine)
  | group (fuel : Nat) (g : Group) (m : Machine)
  | parts (fuel : Nat) (g : Group) (m : Machine)

/-- There, `ev` does the same as the evaluation. -/
def Visit.Same (ev : Nat → Group → Run Value) : Visit → Prop
  | line fuel text m => Call.evaluateLine (ev fuel) text m = Call.evaluateLine (evaluate fuel) text m
  | condition fuel test m =>
    Statement.condition (ev fuel) test m = Statement.condition (evaluate fuel) test m
  | block fuel b m => Call.runBlock (ev fuel) b true m = Call.runBlock (evaluate fuel) b true m
  | group fuel g m => ev fuel g m = evaluate fuel g m
  | parts fuel g m =>
    ev (fuel + 1) g m = Statement.statement (ev fuel) (Call.apply (ev fuel)) fuel g m

theorem Visit.same_evaluate (x : Visit) : x.Same evaluate := by
  cases x <;> rfl

/-- What an `if` goes on with after its condition, and on which machine. -/
inductive Statement.Chooses : Bool → Group → Machine → Construct → Machine → Prop
  /-- The body on the line, without `else`. -/
  | line {body : Group} {m : Machine} (hbody : body ≠ [])
      (helse : ∀ item ∈ body, item.isElse = false) : Chooses true body m (.statement body) m
  /-- One of the two branches on the line. -/
  | either {holds : Bool} {first second : Group} {other : Item} {m : Machine}
      (hfirst : ∀ item ∈ first, item.isElse = false) (hother : other.isElse = true)
      (hsecond : second ≠ []) :
      Chooses holds (first ++ other :: second) m (.statement (if holds then first else second)) m
  /-- The branch on the line, where the second one is the block that follows. -/
  | before {first : Group} {other : Item} {b : Block} {m m' : Machine}
      (hfirst : ∀ item ∈ first, item.isElse = false) (hother : other.isElse = true)
      (hcapture : Run.captureBlock false m = .ok b m') :
      Chooses true (first ++ [other]) m (.statement first) m'
  /-- That block. -/
  | after {first : Group} {other : Item} {b : Block} {m m' : Machine}
      (hfirst : ∀ item ∈ first, item.isElse = false) (hother : other.isElse = true)
      (hcapture : Run.captureBlock false m = .ok b m') :
      Chooses false (first ++ [other]) m (.branch b true) m'
  /-- A branch of the block that follows. -/
  | block {holds : Bool} {b : Block} {m m' : Machine}
      (hcapture : Run.captureBlock true m = .ok b m') (helse : holds = true ∨ b.hasElse = true) :
      Chooses holds [] m (.branch b holds) m'

/-! ## Escapes -/

/-- The run of a construct comes to a statement that leaves it, with the value `v`, and is
    on the machine `m'` then. `stop` says which statements leave, and `drop` how many frames
    are left by them; a loop is only left together with its frame. -/
inductive Escape (stop : Nat → Group → Machine → Value → Machine → Prop) (drop : Nat) :
    Construct → Nat → Machine → List Visit → Value → Machine → Prop
  /-- The statement that leaves. -/
  | stop {k : Nat} {g : Group} {m : Machine} {v : Value} {m' : Machine} (h : stop k g m v m') :
      Escape stop drop (.statement g) k m [.group k g m] v m'
  /-- An `if`, by way of one of its branches. -/
  | conditional {k : Nat} {g test body : Group} {holds : Bool} {c : Construct}
      {m m₁ m₂ : Machine} {visits : List Visit} {v : Value} {m' : Machine}
      (hg : g.keyword? = some .conditional)
      (hparts : Statement.conditionAndBody .conditional g.tail = .ok (test, body))
      (htest : Statement.condition (exitFree.evaluate k) test m = .ok holds m₁)
      (hchoice : Statement.Chooses holds body m₁ c m₂) (h : Escape stop drop c k m₂ visits v m') :
      Escape stop drop (.statement g) (k + 1) m (.parts k g m :: .condition k test m :: visits)
        v m'
  /-- A `while`, by way of the block that follows. -/
  | repetition {k : Nat} {g test : Group} {b : Block} {m m₁ : Machine} {visits : List Visit}
      {v : Value} {m' : Machine} (hdrop : 0 < drop) (hg : g.keyword? = some .repetition)
      (hparts : Statement.conditionAndBody .repetition g.tail = .ok (test, []))
      (hcapture : Run.captureBlock false m = .ok b m₁)
      (h : Escape stop drop (.loop test b k) k m₁ visits v m') :
      Escape stop drop (.statement g) (k + 1) m (.parts k g m :: visits) v m'
  /-- An iteration of a loop that is completed. -/
  | again {k n : Nat} {test : Group} {b : Block} {m m₁ m₂ : Machine} {w : Value}
      {visits : List Visit} {v : Value} {m' : Machine} (halive : m.alive = true)
      (htest : Statement.condition (exitFree.evaluate k) test m = .ok true m₁)
      (hbody : Call.runBlock (exitFree.evaluate k) b true m₁ = .ok w m₂)
      (hw : w.isLoopExit = false) (h : Escape stop drop (.loop test b n) k m₂ visits v m') :
      Escape stop drop (.loop test b (n + 1)) k m
        (.condition k test m :: .block k b m₁ :: visits) v m'
  /-- The iteration that is left. -/
  | enter {k n : Nat} {test : Group} {b : Block} {m m₁ : Machine} {visits : List Visit}
      {v : Value} {m' : Machine} (halive : m.alive = true)
      (htest : Statement.condition (exitFree.evaluate k) test m = .ok true m₁)
      (h : Escape stop drop (.branch b true) k m₁ visits v m') :
      Escape stop drop (.loop test b (n + 1)) k m (.condition k test m :: visits) v m'
  /-- A block, whose cursor is gone at the end. -/
  | branch {k : Nat} {b : Block} {first : Bool} {statements : List String} {m : Machine}
      {visits : List Visit} {v : Value} {m' : Machine}
      (hbranch : b.branch first = .ok statements)
      (h : Escape stop drop (.rest statements.length .nil) k
        { m with cursors := statements :: m.cursors } visits v m') :
      Escape stop drop (.branch b first) k m visits v { m' with cursors := m'.cursors.tail }
  /-- A statement of a block that does not leave it. -/
  | next {k n : Nat} {line : String} {statements : List String} {cursors : List (List String)}
      {m m₁ : Machine} {last w : Value} {visits : List Visit} {v : Value} {m' : Machine}
      (halive : m.alive = true) (hcursors : m.cursors = (line :: statements) :: cursors)
      (hline : Call.evaluateLine (exitFree.evaluate k) line
        { m with cursors := statements :: cursors } = .ok w m₁)
      (hw : w.isLoopExit = false) (h : Escape stop drop (.rest n w) k m₁ visits v m') :
      Escape stop drop (.rest (n + 1) last) k m
        (.line k line { m with cursors := statements :: cursors } :: visits) v m'
  /-- The statement of a block that leaves it. -/
  | here {k n : Nat} {line : String} {statements : List String} {cursors : List (List String)}
      {item : Item} {g : Group} {m : Machine} {last : Value} {visits : List Visit} {v : Value}
      {m' : Machine} (halive : m.alive = true) (hcursors : m.cursors = (line :: statements) :: cursors)
      (hline : Group.ofLine (Text.trim line) = .ok (item :: g))
      (h : Escape stop drop (.statement (item :: g)) k { m with cursors := statements :: cursors }
        visits v m') :
      Escape stop drop (.rest (n + 1) last) k m visits v m'

/-- What comes of a machine from which `drop` frames are left, with the value `v`. -/
structure Escaped (drop : Nat) (m : Machine) (v : Value) (m' : Machine) : Prop
    extends StacksKept m m' where
  level : m'.frames.level + drop = m.frames.level
  alive : m'.alive = m.alive
  /-- Blocks and loops end where a frame has been left, and at `break`. -/
  ends : 0 < drop ∨ v.isLoopExit = true

/-- The statements leave `drop` frames, if there are more. -/
structure Leaves (drop : Nat) (stop : Nat → Group → Machine → Value → Machine → Prop) : Prop where
  ne_nil : ∀ {k g m v m'}, stop k g m v m' → g ≠ []
  evaluate_eq : ∀ {k g m v m'}, stop k g m v m' → drop < m.frames.level →
    evaluate k g m = .ok v m'
  escaped : ∀ {k g m v m'}, stop k g m v m' → drop < m.frames.level → Escaped drop m v m'

namespace Escape

variable {stop : Nat → Group → Machine → Value → Machine → Prop} {drop k : Nat} {c : Construct}
  {m m₁ m₂ m' : Machine} {visits : List Visit} {v : Value}

/-- The last thing that is evaluated is the statement that leaves, and nothing is done after
    it but to take blocks off the cursors. -/
def Ends (stop : Nat → Group → Machine → Value → Machine → Prop) (visits : List Visit)
    (v : Value) (m' : Machine) : Prop :=
  ∃ before k g m₁ m₂, visits = before ++ [.group k g m₁] ∧ stop k g m₁ v m₂ ∧
    m' = { m₂ with cursors := m'.cursors }

theorem Ends.cons (h : Ends stop visits v m') (x : Visit) : Ends stop (x :: visits) v m' := by
  obtain ⟨before, k, g, m₁, m₂, rfl, hstop⟩ := h
  exact ⟨x :: before, k, g, m₁, m₂, rfl, hstop⟩

theorem Ends.tail (h : Ends stop visits v m') :
    Ends stop visits v { m' with cursors := m'.cursors.tail } := by
  obtain ⟨before, k, g, m₁, m₂, hvisits, hstop, hm'⟩ := h
  refine ⟨before, k, g, m₁, m₂, hvisits, hstop, ?_⟩
  exact congrArg (fun m : Machine => { m with cursors := m'.cursors.tail }) hm'

theorem ends (h : Escape stop drop c k m visits v m') : Ends stop visits v m' := by
  induction h with
  | stop h => exact ⟨[], _, _, _, _, rfl, h, rfl⟩
  | conditional _ _ _ _ _ ih | again _ _ _ _ _ ih => exact (ih.cons _).cons _
  | repetition _ _ _ _ _ ih | enter _ _ _ ih | next _ _ _ _ _ ih => exact ih.cons _
  | branch _ _ ih => exact ih.tail
  | here _ _ _ _ ih => exact ih

end Escape

/-! ## What is left -/

theorem Statement.Chooses.kept {holds : Bool} {body : Group} {c : Construct} {m m' : Machine}
    (h : Chooses holds body m c m') : FrameKept m m' := by
  cases h with
  | line _ _ | either _ _ _ => exact .refl m
  | before _ _ hcapture | after _ _ hcapture | block hcapture _ => exact .of_captureBlock hcapture

theorem Escaped.of_kept {drop : Nat} {m m₁ m' : Machine} {v : Value} (h : FrameKept m m₁)
    (h' : Escaped drop m₁ v m') : Escaped drop m v m' where
  toStacksKept := h.toStacksKept.trans h'.toStacksKept
  level := h'.level.trans h.level
  alive := h'.alive.trans h.alive
  ends := h'.ends

namespace Escape

variable {stop : Nat → Group → Machine → Value → Machine → Prop} {drop k : Nat} {c : Construct}
  {m m₁ m₂ m' : Machine} {visits : List Visit} {v : Value}

theorem kept_of_cursors {line : String} {statements : List String} {cursors : List (List String)}
    (h : m.cursors = (line :: statements) :: cursors) :
    FrameKept m { m with cursors := statements :: cursors } :=
  .of_eq (h ▸ .some (List.suffix_cons ..)) rfl rfl rfl

/-- Whatever has been evaluated on the way, it is the statement that leaves which decides on
    the frames, and every block on the way has been taken off the cursors. -/
theorem escaped (hstop : Leaves drop stop) (h : Escape stop drop c k m visits v m')
    (hlevel : drop < m.frames.level) : Escaped drop m v m' := by
  induction h with
  | stop h => exact hstop.escaped h hlevel
  | conditional _ _ htest hchoice _ ih =>
    have hkept := (condition_of_exitFree htest).2.trans hchoice.kept
    exact (ih (hkept.level ▸ hlevel)).of_kept hkept
  | repetition _ _ _ hcapture _ ih =>
    have hkept := FrameKept.of_captureBlock hcapture
    exact (ih (hkept.level ▸ hlevel)).of_kept hkept
  | again _ htest hbody _ _ ih =>
    have hkept := (condition_of_exitFree htest).2.trans (runBlock_of_exitFree hbody).2
    exact (ih (hkept.level ▸ hlevel)).of_kept hkept
  | enter _ htest _ ih =>
    have hkept := (condition_of_exitFree htest).2
    exact (ih (hkept.level ▸ hlevel)).of_kept hkept
  | branch _ _ ih =>
    have hescaped := ih hlevel
    exact {
      cursors := hescaped.cursors.tail_eq ▸ .refl _
      depth := hescaped.depth
      one_le_level := hescaped.one_le_level
      level_le := hescaped.level_le
      level := hescaped.level
      alive := hescaped.alive
      ends := hescaped.ends }
  | next _ hcursors hline _ _ ih =>
    have hkept := (kept_of_cursors hcursors).trans (evaluateLine_of_exitFree hline).2
    exact (ih (hkept.level ▸ hlevel)).of_kept hkept
  | here _ hcursors _ _ ih => exact (ih hlevel).of_kept (kept_of_cursors hcursors)

/-! ## What is run -/

theorem ne_nil (hstop : Leaves drop stop) {g : Group}
    (h : Escape stop drop (.statement g) k m visits v m') : g ≠ [] := by
  cases h with
  | stop h => exact hstop.ne_nil h
  | conditional hg _ _ _ _ | repetition _ hg _ _ _ =>
    rintro rfl
    cases hg

end Escape

/-- A statement of a block has been evaluated. -/
theorem Call.replay_of_line {ev : Group → Run Value} {level n : Nat} {last v : Value}
    {line : String} {statements : List String} {cursors : List (List String)} {m m' : Machine}
    (halive : m.alive = true) (hcursors : m.cursors = (line :: statements) :: cursors)
    (hline : evaluateLine ev line { m with cursors := statements :: cursors } = .ok v m') :
    replay ev level (n + 1) last m =
      if m'.frames.level < level || v.isLoopExit then .ok v m' else replay ev level n v m' := by
  have hget : ∀ m : Machine, (get : Run Machine) m = .ok m m := fun _ => rfl
  have hadvance : Run.advance m = .ok (some line) { m with cursors := statements :: cursors } := by
    simp only [Run.advance, hcursors]
  rw [replay, Run.bind_of_ok (hget m), halive, Bool.not_true, if_neg Bool.false_ne_true,
    Run.bind_of_ok hadvance]
  refine (Run.bind_of_ok hline).trans ((Run.bind_of_ok (hget m')).trans ?_)
  split <;> rfl

theorem Call.runBlock_of_branch {ev : Group → Run Value} {b : Block} {first : Bool}
    {statements : List String} (h : b.branch first = .ok statements) (m : Machine) :
    runBlock ev b first m =
      Run.withCursor statements (replay ev m.frames.level statements.length .nil) m := by
  have hget : (get : Run Machine) m = .ok m m := rfl
  have hofExcept : Run.ofExcept (b.branch first) m = .ok statements m := by
    rw [h]
    rfl
  rw [runBlock, Run.bind_of_ok hofExcept, Run.bind_of_ok hget]

/-- The body of a loop has been run. -/
theorem Statement.loop_of_body {ev : Group → Run Value} {test : Group} {body : Run Value}
    {level n : Nat} {v : Value} {m m₁ m₂ : Machine} (halive : m.alive = true)
    (htest : condition ev test m = .ok true m₁) (hbody : body m₁ = .ok v m₂) :
    loop ev test body level (n + 1) m =
      if m₂.frames.level < level then .ok v m₂
      else if v.isLoopExit then .ok .nil m₂ else loop ev test body level n m₂ := by
  have hget : ∀ m : Machine, (get : Run Machine) m = .ok m m := fun _ => rfl
  rw [loop, Run.bind_of_ok (hget m), halive, Bool.not_true, if_neg Bool.false_ne_true,
    Run.bind_of_ok htest, if_pos rfl, Run.bind_of_ok hbody, Run.bind_of_ok (hget m₂)]
  split
  · rfl
  · split <;> rfl

theorem span_of_no_else {body : Group} (h : ∀ item ∈ body, item.isElse = false) :
    body.span (fun item => !item.isElse) = (body, []) := by
  have hall : ∀ item ∈ body, (!item.isElse) = true := fun item hi => by rw [h item hi]; rfl
  rw [← List.append_nil body, List.span_eq_takeWhile_dropWhile,
    List.takeWhile_append_of_pos hall, List.dropWhile_append_of_pos hall]
  rfl

theorem span_else {first second : Group} {other : Item}
    (hfirst : ∀ item ∈ first, item.isElse = false) (hother : other.isElse = true) :
    (first ++ other :: second).span (fun item => !item.isElse) = (first, other :: second) :=
  Part.span_append_cons (fun item hi => by rw [hfirst item hi]; rfl) (by rw [hother]; rfl)

theorem Statement.statement_of_conditional {g : Group} (hk : g.keyword? = some .conditional)
    (ev : Group → Run Value) (call : Callable → Value → Run Value) (fuel : Nat) :
    statement ev call fuel g = conditional ev g.tail := by
  cases g with
  | nil => cases hk
  | cons item g =>
    simp only [statement, hk]
    rfl

theorem Statement.statement_of_repetition {g : Group} (hk : g.keyword? = some .repetition)
    (ev : Group → Run Value) (call : Callable → Value → Run Value) (fuel : Nat) :
    statement ev call fuel g = repetition ev fuel g.tail := by
  cases g with
  | nil => cases hk
  | cons item g =>
    simp only [statement, hk]
    rfl

/-- A `while` takes its block, and repeats it. -/
theorem Statement.repetition_of_capture {ev : Group → Run Value} {fuel : Nat} {g test : Group}
    {b : Block} {m m₁ : Machine} (hparts : conditionAndBody .repetition g = .ok (test, []))
    (hcapture : Run.captureBlock false m = .ok b m₁) :
    repetition ev fuel g m =
      loop ev test (Call.runBlock ev b true) m₁.frames.level fuel m₁ := by
  have hget : (get : Run Machine) m₁ = .ok m₁ m₁ := rfl
  have hofExcept : Run.ofExcept (conditionAndBody .repetition g) m = .ok (test, []) m := by
    rw [hparts]
    rfl
  rw [repetition, Run.bind_of_ok hofExcept]
  dsimp only
  rw [if_pos (by rfl), bind_map_left, Run.bind_of_ok hcapture, Run.bind_of_ok hget]

theorem Visit.Same.repetition {ev : Nat → Group → Run Value} {k : Nat} {g test : Group} {b : Block}
    {m m₁ : Machine} (hsame : (parts k g m).Same ev) (hg : g.keyword? = some .repetition)
    (hparts : Statement.conditionAndBody .repetition g.tail = .ok (test, []))
    (hcapture : Run.captureBlock false m = .ok b m₁) :
    ev (k + 1) g m = (Construct.loop test b k).run ev k m₁ := by
  rw [Same, Statement.statement_of_repetition hg] at hsame
  exact hsame.trans (Statement.repetition_of_capture hparts hcapture)

/-- After its condition, an `if` goes on with what it chooses. -/
theorem Statement.conditional_of_chooses {ev : Nat → Group → Run Value} {k : Nat}
    {g test body : Group} {holds : Bool} {c : Construct} {m m₁ m₂ : Machine}
    (hparts : conditionAndBody .conditional g = .ok (test, body))
    (htest : condition (ev k) test m = .ok holds m₁) (hchoice : Chooses holds body m₁ c m₂)
    (hne : ∀ g', c = .statement g' → g' ≠ []) : conditional (ev k) g m = c.run ev k m₂ := by
  have hoptional : ∀ g', c = .statement g' → optional (ev k) g' = c.run ev k := by
    rintro g' rfl
    rw [optional, if_neg (by simpa using hne g' rfl)]
    rfl
  have hofExcept : Run.ofExcept (conditionAndBody .conditional g) m = .ok (test, body) m := by
    rw [hparts]
    rfl
  rw [conditional, Run.bind_of_ok hofExcept]
  refine (Run.bind_of_ok htest).trans ?_
  cases hchoice with
  | line hbody helse =>
    rw [if_neg (by simpa using hbody), span_of_no_else helse]
    rfl
  | either hfirst hother hsecond =>
    obtain ⟨item, second', rfl⟩ := List.exists_cons_of_ne_nil hsecond
    rw [if_neg (by simp), span_else hfirst hother, ← hoptional _ rfl]
  | before hfirst hother hcapture =>
    rw [if_neg (by simp), span_else hfirst hother, ← hoptional _ rfl]
    exact Run.bind_of_ok hcapture
  | after hfirst hother hcapture =>
    rw [if_neg (by simp), span_else hfirst hother]
    exact Run.bind_of_ok hcapture
  | @block _ b _ _ hcapture helse =>
    rw [if_pos (by rfl)]
    refine (Run.bind_of_ok hcapture).trans ?_
    cases holds with
    | true => rfl
    | false =>
      have helse : b.hasElse = true := helse.resolve_left Bool.false_ne_true
      rw [if_neg Bool.false_ne_true, helse]
      rfl

theorem Visit.Same.conditional {ev : Nat → Group → Run Value} {k : Nat} {g test body : Group}
    {holds : Bool} {c : Construct} {m m₁ m₂ : Machine} (hsame : (parts k g m).Same ev)
    (hg : g.keyword? = some .conditional)
    (hparts : Statement.conditionAndBody .conditional g.tail = .ok (test, body))
    (htest : Statement.condition (ev k) test m = .ok holds m₁)
    (hchoice : Statement.Chooses holds body m₁ c m₂) (hne : ∀ g', c = .statement g' → g' ≠ []) :
    ev (k + 1) g m = c.run ev k m₂ := by
  rw [Same, Statement.statement_of_conditional hg] at hsame
  exact hsame.trans (Statement.conditional_of_chooses hparts htest hchoice hne)

/-- What a construct gives that is left with the value `v`: a loop that is left but not its
    frame gives nothing. -/
def Construct.answer (drop : Nat) (v : Value) : Construct → Value
  | loop _ _ _ => if drop = 0 then .nil else v
  | _ => v

theorem Statement.Chooses.answer_eq {holds : Bool} {body : Group} {c : Construct} {m m' : Machine}
    (h : Chooses holds body m c m') (drop : Nat) (v : Value) : c.answer drop v = v := by
  cases h <;> rfl

namespace Escaped

variable {ev : Nat → Group → Run Value} {drop k n : Nat} {m m₁ m' : Machine} {v : Value}

/-- A loop ends where its body is left. -/
theorem run_loop {test : Group} {b : Block} (h : Escaped drop m v m') (halive : m.alive = true)
    (htest : Statement.condition (ev k) test m = .ok true m₁)
    (hbody : Call.runBlock (ev k) b true m₁ = .ok v m') :
    (Construct.loop test b (n + 1)).run ev k m =
      .ok ((Construct.loop test b (n + 1)).answer drop v) m' := by
  have hlevel := h.level
  rw [Construct.run_loop, Statement.loop_of_body halive htest hbody, Construct.answer]
  rcases Nat.eq_zero_or_pos drop with rfl | hdrop
  · have hexit := h.ends.resolve_left (Nat.lt_irrefl 0)
    exact (if_neg (Nat.not_lt.2 (Nat.le_of_eq hlevel.symm))).trans (if_pos hexit)
  · rw [if_pos (by omega), if_neg (Nat.ne_of_gt hdrop)]

/-- A block ends with the statement that leaves it. -/
theorem run_rest {line : String} {statements : List String} {cursors : List (List String)}
    {last : Value} (h : Escaped drop m v m') (halive : m.alive = true)
    (hcursors : m.cursors = (line :: statements) :: cursors)
    (hline : Call.evaluateLine (ev k) line { m with cursors := statements :: cursors } = .ok v m') :
    (Construct.rest (n + 1) last).run ev k m = .ok v m' := by
  have hlevel := h.level
  rw [Construct.run_rest, Call.replay_of_line halive hcursors hline, if_pos]
  simp only [Bool.or_eq_true, decide_eq_true_eq]
  exact h.ends.imp_left fun hdrop => by omega

end Escaped

namespace Escape

variable {stop : Nat → Group → Machine → Value → Machine → Prop} {drop k : Nat} {c : Construct}
  {m m₁ m₂ m' : Machine} {visits : List Visit} {v : Value}

/-- The construct ends with the statement that leaves. Only what is evaluated on the way
    matters. -/
theorem run_eq (hstop : Leaves drop stop) (h : Escape stop drop c k m visits v m')
    (hlevel : drop < m.frames.level) {ev : Nat → Group → Run Value}
    (hsame : ∀ x ∈ visits, x.Same ev) : c.run ev k m = .ok (c.answer drop v) m' := by
  -- What comes before on the way keeps the frame, so that the level at which a block or a loop
  -- was started is still that of the machine there.
  induction h with
  | stop h => exact (hsame _ List.mem_cons_self).trans (hstop.evaluate_eq h hlevel)
  | conditional hg hparts htest hchoice h ih =>
    simp only [List.forall_mem_cons] at hsame
    obtain ⟨htest', hkept⟩ := condition_of_exitFree htest
    have hrest := ih ((hkept.trans hchoice.kept).level ▸ hlevel) hsame.2.2
    rw [hchoice.answer_eq] at hrest
    refine (hsame.1.conditional hg hparts (hsame.2.1.trans htest') hchoice ?_).trans hrest
    rintro g' rfl
    exact ne_nil hstop h
  | repetition hdrop hg hparts hcapture h ih =>
    simp only [List.forall_mem_cons] at hsame
    have hkept := FrameKept.of_captureBlock hcapture
    have hrest := ih (hkept.level ▸ hlevel) hsame.2
    rw [Construct.answer, if_neg (Nat.ne_of_gt hdrop)] at hrest
    exact (hsame.1.repetition hg hparts hcapture).trans hrest
  | again halive htest hbody hw h ih =>
    simp only [List.forall_mem_cons] at hsame
    obtain ⟨htest', hkept₁⟩ := condition_of_exitFree htest
    obtain ⟨hbody', hkept₂⟩ := runBlock_of_exitFree hbody
    have hkept := hkept₁.trans hkept₂
    have hrest := ih (hkept.level ▸ hlevel) hsame.2.2
    rw [Construct.run_loop, Statement.loop_of_body halive (hsame.1.trans htest')
      (hsame.2.1.trans hbody'), if_neg (Nat.not_lt.2 (Nat.le_of_eq hkept.level.symm)), hw,
      if_neg Bool.false_ne_true, ← hkept.level]
    exact hrest
  | enter halive htest h ih =>
    simp only [List.forall_mem_cons] at hsame
    obtain ⟨htest', hkept⟩ := condition_of_exitFree htest
    have hbody := ih (hkept.level ▸ hlevel) hsame.2
    have hescaped := (h.escaped hstop (hkept.level ▸ hlevel)).of_kept hkept
    exact hescaped.run_loop halive (hsame.1.trans htest') hbody
  | branch hbranch h ih =>
    have hrest := ih hlevel hsame
    rw [Construct.run_rest] at hrest
    rw [Construct.run_branch, Call.runBlock_of_branch hbranch, Run.withCursor, Run.ensuring, hrest]
    rfl
  | next halive hcursors hline hw h ih =>
    simp only [List.forall_mem_cons] at hsame
    obtain ⟨hline', hkept'⟩ := evaluateLine_of_exitFree hline
    have hkept := (kept_of_cursors hcursors).trans hkept'
    have hrest := ih (hkept.level ▸ hlevel) hsame.2
    rw [Construct.run_rest, Call.replay_of_line halive hcursors (hsame.1.trans hline'), hw,
      Bool.or_false, if_neg (by simp [hkept.level]), ← hkept.level]
    exact hrest
  | here halive hcursors hline h ih =>
    have hstatement := ih hlevel hsame
    rw [Construct.run, ← Call.evaluateLine_of_ofLine (ev _) hline] at hstatement
    have hescaped := (h.escaped hstop hlevel).of_kept (kept_of_cursors hcursors)
    exact hescaped.run_rest halive hcursors hstatement

end Escape

end Linewise
