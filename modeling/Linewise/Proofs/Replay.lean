import Linewise.Proofs.Capture
import Linewise.Proofs.Change
import Linewise.Proofs.Readless
import Linewise.Proofs.Watch

/-!
# Lines of the source and statements of a block

A program can be run in two ways: its lines are taken from the source, one after
the other, or they are the statements of a block that is running. Multi-line
constructs take their bodies from the same place, so they find the same lines.
To the functions that use the source the two ways are not the same
(`read_string_not_replayed`). But a program that does not get hold of them does
the same in both (`block_replays_source`).

The two runs are coupled. The twin of a machine has what is left of its source as
what is left of one more block, beneath all others (`Machine.replayed`). Where no
other block is running, a body is captured from the source in the first run and
from this block in the second; everywhere else the runs do the same
(`replayWalk`).

* `Run.turns`: the statements that a program evaluates, with what comes of each;
* `Run.turns_replayed`: one statement after the other, the runs are coupled;
* `Call.runBlock_eq_last_turns`: a block gives what its last statement gives.

Whether the source stays as it is along the way is left open (`still`), since
that matters where a line is evaluated on its own.
-/

namespace Linewise

variable {still : Prop}

/-! ## What a machine holds -/

/-- What is in memory does not use the source, and captures blocks only where that
    is allowed. -/
structure Memory.Fits (still : Prop) (m : Memory) : Prop where
  intact : m.registry.Intact
  closed : m.Closed (fun _ => True) FunctionRef.Readless
  bodies : ∀ {f F}, m.registry.get? f = some F → F.body.Fits still
  blocks : ∀ {i : Nat} {b}, m.blocks[i]? = some b → b.Fits still

/-- So does what is left of the running blocks and of the source. -/
structure Machine.Fits (still : Prop) (m : Machine) : Prop where
  memory : m.memory.Fits still
  cursors : ∀ statements ∈ m.cursors, ∀ line ∈ statements, Statement.Fits still line
  source : ∃ lines, m.source = .ofLines lines ∧ ∀ line ∈ lines, Statement.Fits still line

/-- The value refers to no function that uses the source. -/
abbrev Value.Readless (v : Value) : Prop :=
  v.Within (fun _ => True) FunctionRef.Readless

theorem Memory.fits_iff {m : Memory} :
    m.Fits still ↔ m.Holding Value.Readless (Body.Fits still) (Block.Fits still) :=
  ⟨fun h => ⟨h.intact, fun r => h.closed r trivial, h.bodies, h.blocks⟩,
    fun h => ⟨h.intact, fun r _ => h.read r, h.bodies, h.blocks⟩⟩

namespace Memory.Fits

variable {m : Memory} (h : m.Fits still)

include h

theorem addVariable {v : Variable} (hv : v.value.Readless) : (m.addVariable v).2.Fits still :=
  fits_iff.2 ((fits_iff.1 h).addVariable hv)

theorem write (r : VarRef) {v : Value} (hv : v.Readless) : (m.write r v).Fits still :=
  fits_iff.2 ((fits_iff.1 h).write r trivial hv)

theorem addBlock {b : Block} (hb : b.Fits still) : (m.addBlock b).2.Fits still :=
  fits_iff.2 ((fits_iff.1 h).addBlock hb)

theorem define {name : String} {names : List String} {body : Body} (hbody : body.Fits still)
    (hnative : ∀ b, body ≠ .native b) {f : FunctionRef} {registry : Registry}
    (hdefine : m.registry.define (.ofBody name names body) = .ok (f, registry)) :
    Fits still { m with registry } ∧ f.Readless :=
  have ⟨hm, hle⟩ := (fits_iff.1 h).define hbody hnative hdefine
  ⟨fits_iff.2 hm, FunctionRef.readless_of_le hle⟩

end Memory.Fits

theorem Machine.Fits.of_memory {m : Machine} (h : m.Fits still) {memory : Memory}
    {frames : Frames} (hmemory : memory.Fits still) :
    Fits still { m with memory, frames } where
  memory := hmemory
  cursors := h.cursors
  source := h.source

theorem Machine.Fits.enterFrame {m : Machine} (h : m.Fits still)
    {bindings : List (String × Value)} (hb : ∀ b ∈ bindings, b.2.Readless) :
    (m.enterFrame bindings).Fits still := by
  refine enterFrame_induction (h.of_memory h.memory) ?_
  intro m hm b hmem
  exact hm.of_memory (hm.memory.addVariable (v := ⟨b.1, b.2⟩) (hb b hmem))

/-! ## The machine that replays -/

/-- The statements on the lines of a script. -/
def Source.statements : Source → List String
  | .script lines => lines.filterMap fun line => Text.trim <$> line.toOption
  | .directory => []

theorem Source.statements_ofLines (lines : List String) :
    (ofLines lines).statements = lines.map Text.trim := by
  induction lines with
  | nil => rfl
  | cons line lines ih => exact congrArg (Text.trim line :: ·) ih

/-- The machine that has the lines of the source in a block beneath all others,
    and reads from another one. -/
def Machine.replayed (source : Source) (line : Nat) (m : Machine) : Machine :=
  { m with cursors := m.cursors ++ [m.source.statements], source, line }

/-- The machine of the second run replays. The source of the first one only
    changes where a block may be captured, and stays if it is to. -/
def replayWalk (still : Prop) (source : Source) (line : Nat) : Walk where
  twin := Machine.replayed source line
  holds m := m.Fits still
  leads m m' := m'.cursors.length = m.cursors.length ∧ (still → m'.source = m.source)
  lenient := False
  function := FunctionRef.Readless
  symbol := Symbol.Readless
  group g m := ∃ inBlock, g.Fits still inBlock ∧ (still → inBlock = true → m.cursors ≠ [])
  line := Group.Fits still false
  block := Block.Fits still
  native b _ := b.usesSource = false
  opens m := still → m.cursors ≠ []
  replays m := m.cursors ≠ []

namespace replayWalk

variable {source : Source} {line : Nat} {m m' : Machine}

theorem cursors_ne_nil (hl : (replayWalk still source line).leads m m') (h : m.cursors ≠ []) :
    m'.cursors ≠ [] := fun hnil =>
  h (List.eq_nil_of_length_eq_zero (hl.1 ▸ hnil ▸ rfl))

theorem step {f : Machine → Machine} (hm : (f m).Fits still) (hc : (f m).cursors = m.cursors)
    (hs : (f m).source = m.source)
    (htwin : f (m.replayed source line) = (f m).replayed source line) :
    (replayWalk still source line).Step f m where
  holds := hm
  leads := ⟨congrArg List.length hc, fun _ => hs⟩
  twin := htwin

theorem replayed_eq (source : Source) (line : Nat) (m : Machine) {lines : List String}
    (h : m.source = .ofLines lines) :
    m.replayed source line =
      { m with cursors := m.cursors ++ [lines.map Text.trim], source, line } := by
  rw [Machine.replayed, h, Source.statements_ofLines]

theorem found {symbol : String} {v : Value} (hm : m.Fits still) (hs : Symbol.Readless symbol)
    (hv : m.find? symbol = some v) : v.Readless :=
  Scope.find?_within (fun _ _ => trivial) (fun _ => hm.memory.intact.find?_readless hs) hv

theorem define {name : String} {names : List String} {body : Body} (hm : m.Fits still)
    (hbody : body.Fits still) (hnative : ∀ b, body ≠ .native b) :
    (replayWalk still source line).Couples (fun f _ => f.Readless)
      (Run.define (.ofBody name names body)) (Run.define (.ofBody name names body)) m := by
  have hleads : (replayWalk still source line).leads m m := ⟨rfl, fun _ => rfl⟩
  refine Coupling.couples_define rfl hm hleads fun hdefine => ?_
  obtain ⟨hmemory, hf⟩ := hm.memory.define hbody hnative hdefine
  exact ⟨step (hm.of_memory hmemory) rfl rfl rfl, hf⟩

/-- A block is captured from the innermost block that is running, or else from the
    lines of the source, which the second run has in a block. -/
theorem capture (elseAllowed : Bool) (hm : m.Fits still) (ho : still → m.cursors ≠ []) :
    (replayWalk still source line).Couples (fun b _ => b.Fits still)
      (Run.captureBlock elseAllowed) (Run.captureBlock elseAllowed) m := by
  have hrest : ∀ lines : List String, (Block.capture elseAllowed lines).rest ⊆ lines :=
    fun lines => Capture.run_rest_suffix.subset
  obtain ⟨lines, hsource, hlines⟩ := hm.source
  cases hc : m.cursors with
  | nil =>
    -- In the second run the lines have been trimmed, which a capture does anyway.
    have hcapture := Run.captureBlock_of_source hc hsource elseAllowed
    refine Coupling.couples_of_ofExcept ?_ ?_ hcapture ?_ fun _ => Block.fits_of_capture hlines
    · exact ⟨hm.memory, hm.cursors, _, rfl, fun line hline => hlines line (hrest lines hline)⟩
    · exact ⟨rfl, fun h => absurd hc (ho h)⟩
    · have hcursors : (m.replayed source line).cursors = [lines.map Text.trim] := by
        rw [replayed_eq source line m hsource, hc, List.nil_append]
      refine (Run.captureBlock_of_cursor hcursors elseAllowed).trans ?_
      rw [Block.capture_trim]
      refine congrArg (Run.ofExcept _) ?_
      refine Eq.trans ?_ (replayed_eq source line _ rfl).symm
      rw [replayed_eq source line m hsource, hc]
      rfl
  | cons statements cursors =>
    -- The block beneath is not reached.
    have hcapture := Run.captureBlock_of_cursor hc elseAllowed
    have hfits := hm.cursors
    rw [hc, List.forall_mem_cons] at hfits
    refine Coupling.couples_of_ofExcept ?_ ?_ hcapture ?_ fun _ => Block.fits_of_capture hfits.1
    · refine ⟨hm.memory, List.forall_mem_cons.2 ⟨fun line hline => ?_, hfits.2⟩, hm.source⟩
      exact hfits.1 line (hrest statements hline)
    · exact ⟨(congrArg List.length hc).symm, fun _ => rfl⟩
    · refine Run.captureBlock_of_cursor (m := m.replayed source line) ?_ elseAllowed
      exact congrArg (· ++ [m.source.statements]) hc

/-- The first run is not at the end of its innermost block before the second is. -/
theorem advance (hm : m.Fits still) (hr : m.cursors ≠ []) :
    (replayWalk still source line).Couples
      (fun statement m => ∀ s, statement = some s → (replayWalk still source line).text s m)
      Run.advance Run.advance m := by
  obtain ⟨statements, cursors, hc⟩ := List.exists_cons_of_ne_nil hr
  have hfits := hm.cursors
  rw [hc, List.forall_mem_cons] at hfits
  have htwin : (m.replayed source line).cursors =
      statements :: (cursors ++ [m.source.statements]) := by
    rw [Machine.replayed, hc, List.cons_append]
  refine Coupling.couples_advance_of_top hc htwin hm ⟨rfl, fun _ => rfl⟩ (fun _ => nofun) ?_
  rintro statement rest rfl
  rw [List.forall_mem_cons] at hfits
  refine ⟨⟨hm.memory, List.forall_mem_cons.2 ⟨hfits.1.2, hfits.2⟩, hm.source⟩,
    ⟨(congrArg List.length hc).symm, fun _ => rfl⟩, rfl, fun s hs g hg => ?_⟩
  cases hs
  exact ⟨true, hfits.1.1 g hg, fun _ _ => List.cons_ne_nil _ _⟩

theorem cursor {b : Block} {first : Bool} {statements : List String} (hm : m.Fits still)
    (hb : b.Fits still) (hs : b.branch first = .ok statements) :
    (replayWalk still source line).Bracket (replayWalk still source line).reach
      (fun m => { m with cursors := statements :: m.cursors })
      (fun m => { m with cursors := m.cursors.tail }) m where
  enter_holds := ⟨hm.memory, List.forall_mem_cons.2 ⟨hb.branch hs, hm.cursors⟩, hm.source⟩
  enter_twin := rfl
  leave_holds m' hm' _ :=
    ⟨hm'.memory, fun s hs => hm'.cursors s (List.mem_of_mem_tail hs), hm'.source⟩
  leave_leads m' _ hl := ⟨by simp [hl.1], hl.2⟩
  leave_twin m' _ hl := by
    -- As many blocks are running as after `enter`, so it is not the lines of the
    -- source that go.
    have hne := cursors_ne_nil hl (List.cons_ne_nil _ _)
    show { m'.replayed source line with cursors := (m'.replayed source line).cursors.tail } =
      Machine.replayed source line { m' with cursors := m'.cursors.tail }
    rw [Machine.replayed, Machine.replayed, List.tail_append_of_ne_nil hne]
  leave_result _ _ _ _ hv := hv

theorem frame {bindings : List (String × Value)} (hm : m.Fits still)
    (hb : ∀ b ∈ bindings, b.2.Readless) :
    (replayWalk still source line).Bracket (replayWalk still source line).reach
      (fun m => m.enterFrame bindings)
      (Machine.leaveFrame (m.enterFrame bindings).frames.level) m where
  enter_holds := hm.enterFrame hb
  enter_twin := Machine.enterFrame_hom (f := Machine.replayed source line) (fun _ => rfl)
    (fun _ _ _ => rfl) m bindings
  leave_holds m' hm' _ := by
    obtain ⟨frames, h⟩ := m'.leaveFrame_eq (m.enterFrame bindings).frames.level
    rw [h]
    exact hm'.of_memory hm'.memory
  leave_leads m' _ hl := by
    obtain ⟨frames, h⟩ := m'.leaveFrame_eq (m.enterFrame bindings).frames.level
    rw [h]
    exact ⟨by simpa using hl.1, fun hstill => by simpa using hl.2 hstill⟩
  leave_twin m' _ _ := Machine.leaveFrame_hom (f := Machine.replayed source line) rfl fun _ => rfl
  leave_result _ _ _ _ hv := hv

theorem parts {g : Group} {p : Part} (hg : (replayWalk still source line).group g m)
    (hp : p ∈ Statement.parts g) : (replayWalk still source line).part p m := by
  obtain ⟨inBlock, hfits, hcursors⟩ := hg
  have hpart := hfits.part hp
  cases p with
  | symbol s => exact hpart
  | group g' => exact ⟨inBlock, hpart, hcursors⟩
  | line g' => exact hpart
  | block => exact fun hstill => hcursors hstill (hpart hstill)

theorem lawful : (replayWalk still source line).Lawful where
  refl m := ⟨rfl, fun _ => rfl⟩
  trans h₁ h₂ := ⟨h₂.1.trans h₁.1, fun hstill => (h₂.2 hstill).trans (h₁.2 hstill)⟩
  group_mono hl hg := by
    obtain ⟨inBlock, hfits, hcursors⟩ := hg
    exact ⟨inBlock, hfits, fun hstill hin => cursors_ne_nil hl (hcursors hstill hin)⟩
  opens_mono hl ho hstill := cursors_ne_nil hl (ho hstill)
  replays_mono hl hr := cursors_ne_nil hl hr
  closed hm := hm.memory.closed
  found hm _ := found hm
  stored hm hb := hm.memory.blocks hb
  bodies {m f F} hm hF := by
    have hbody := hm.memory.bodies hF
    generalize F.body = body at hbody ⊢
    cases body <;> exact hbody
  defaults hm hF hv := hm.memory.intact.eq_nil_of_default hF hv ▸ trivial
  lines _ _ hg := ⟨false, hg, fun _ => nofun⟩
  refer {m r} hm _ _ := ⟨step (hm.of_memory (hm.memory.addVariable
    (v := ⟨Reference.variableName, .var r⟩) trivial)) rfl rfl rfl, trivial⟩
  declare {m s v} hm _ hv :=
    ⟨step (hm.of_memory (hm.memory.addVariable (v := ⟨s, v⟩) hv.1)) rfl rfl rfl, trivial⟩
  write hm _ _ _ _ hv := step (hm.of_memory (hm.memory.write _ hv.1)) rfl rfl rfl
  store hm hb := step (hm.of_memory (hm.memory.addBlock hb)) rfl rfl rfl
  define {m name names body} hm hbody hnative _ := by
    refine define hm ?_ hnative
    cases body <;> exact hbody
  outward _ _ hm _ := step ⟨hm.memory, hm.cursors, hm.source⟩ rfl rfl rfl
  strict _ hm := step ⟨hm.memory, hm.cursors, hm.source⟩ rfl rfl rfl
  exit hm _ := Coupling.step_exitFrame rfl
    (fun _ => step (hm.of_memory hm.memory) rfl rfl rfl)
    fun _ => step ⟨hm.memory, hm.cursors, hm.source⟩ rfl rfl rfl
  load _ hn _ := nomatch hn
  readLine _ hn := nomatch hn
  capture elseAllowed hm ho := capture elseAllowed hm ho
  advance hm hr := advance hm hr
  cursor hm hb hs := cursor hm hb hs
  replays_cursor _ _ _ := List.cons_ne_nil _ _
  frame hm _ hb := frame hm fun b hmem => (hb b hmem).1
  deeper hm _ := ⟨⟨hm.memory, hm.cursors, hm.source⟩, rfl,
    fun _ hm' _ => ⟨hm'.memory, hm'.cursors, hm'.source⟩, fun _ _ hl => hl, fun _ _ _ => rfl,
    fun _ _ _ _ hv => hv⟩

theorem watched : (replayWalk still source line).Watched {} where
  parts _ hg hp _ := parts hg hp
  opened _ hg hp _ := parts hg hp
  permits {c m} hm hc _ := by
    refine Walk.permits_of_native ?_ trivial
    rintro f F b rfl hF hbody
    exact hm.memory.intact.usesSource_eq_false hc hF hbody

theorem agree_evaluate (fuel : Nat) :
    (replayWalk still source line).Agree (evaluate fuel) (evaluate fuel) :=
  lawful.agree_evaluate watched (.inl rfl)

theorem couples_evaluateLine (hm : m.Fits still) (fuel : Nat) {statement : String}
    (hs : (replayWalk still source line).text statement m) :
    (replayWalk still source line).Couples (replayWalk still source line).value
      (Call.evaluateLine (evaluate fuel) statement)
      (Call.evaluateLine (evaluate fuel) statement) m :=
  Walk.couples_evaluateLine lawful (agree_evaluate fuel) hm statement hs

end replayWalk

/-! ## Statements one after the other -/

/-- A statement that was evaluated, and what came of it. -/
structure Turn where
  /-- The statement without the blanks around it. -/
  statement : String
  outcome : EStateM.Result Interrupt Machine Value

/-- The statements that `take` gives, one after the other and at most as many as
    the number says. The last one is the first that fails, is `break`, leaves a
    frame of the given level or ends the program. -/
def Run.turns (take : Run (Option String)) (fuel level : Nat) : Nat → Machine → List Turn
  | 0, _ => []
  | n + 1, m =>
    if !m.alive then []
    else
      match take m with
      | .ok (some line) m =>
        match Call.evaluateLine (evaluate fuel) line m with
        | .ok v m =>
          ⟨Text.trim line, .ok v m⟩ ::
            if m.frames.level < level || v.isLoopExit then [] else turns take fuel level n m
        | .error e m => [⟨Text.trim line, .error e m⟩]
      | _ => []

namespace Turn

/-- The turn with another machine left. -/
def withMachine (f : Machine → Machine) (t : Turn) : Turn where
  statement := t.statement
  outcome :=
    match t.outcome with
    | .ok v m => .ok v (f m)
    | .error e m => .error e (f m)

/-- What is left after some turns, starting from `m`. -/
def last (turns : List Turn) (v : Value) (m : Machine) : EStateM.Result Interrupt Machine Value :=
  (turns.getLast?.map Turn.outcome).getD (.ok v m)

theorem last_cons (t : Turn) (turns : List Turn) {v w : Value} {m m' : Machine}
    (h : t.outcome = .ok w m') : last (t :: turns) v m = last turns w m' := by
  rw [last, last]
  rw [List.getLast?_cons]
  cases turns.getLast? with
  | none => exact h
  | some t' => rfl

theorem last_map (f : Machine → Machine) (turns : List Turn) (v : Value) (m : Machine) :
    last (turns.map (withMachine f)) v (f m) = Run.ensuring f (last turns v) m := by
  unfold last Run.ensuring
  rw [List.getLast?_map]
  cases turns.getLast? with
  | none => rfl
  | some t =>
    obtain ⟨statement, outcome⟩ := t
    cases outcome <;> rfl

end Turn

/-! ## Replaying -/

theorem Run.advance_eq (m : Machine) :
    advance m = .ok none m ∨
      ∃ statement statements cursors, m.cursors = (statement :: statements) :: cursors ∧
        advance m = .ok (some statement) { m with cursors := statements :: cursors } := by
  rw [advance]
  rcases m.cursors with _ | ⟨_ | ⟨statement, statements⟩, cursors⟩
  · exact .inl rfl
  · exact .inl rfl
  · exact .inr ⟨statement, statements, cursors, rfl, rfl⟩

/-- A running block takes its statements one after the other. -/
theorem Call.replay_eq_last_turns (fuel level n : Nat) (v : Value) (m : Machine) :
    replay (evaluate fuel) level n v m = Turn.last (Run.turns Run.advance fuel level n m) v m := by
  -- The value so far is what is left if there is no further turn.
  induction n generalizing v m with
  | zero => rfl
  | succ n ih =>
    rw [replay, Run.turns]
    show (if !m.alive then pure v else _ : Run Value) m = _
    split
    · rfl
    show (Run.advance >>= _) m = _
    rcases Run.advance_eq m with h | ⟨statement, statements, cursors, -, h⟩
    · simp only [Bind.bind, EStateM.bind, h]
      rfl
    · simp only [Bind.bind, EStateM.bind, h]
      cases evaluateLine (evaluate fuel) statement { m with cursors := statements :: cursors } with
      | error e m' => rfl
      | ok w m' =>
        dsimp only
        rw [Turn.last_cons _ _ rfl]
        show (if m'.frames.level < level || w.isLoopExit then pure w else _ : Run Value) m' = _
        split
        · rfl
        · exact ih w m'

theorem Call.evaluateLine_trim (ev : Group → Run Value) (line : String) :
    evaluateLine ev (Text.trim line) = evaluateLine ev line := by
  rw [evaluateLine, evaluateLine]
  rw [Text.trim_trim]

section

variable (source : Source) (line : Nat) {m : Machine} (hc : m.cursors = [])

include hc

/-- At the end of the source, the block is at its end too. -/
theorem Run.advance_replayed_nil (hsource : m.source = .ofLines []) :
    readLine m = .ok none { m with source := .ofLines [] } ∧
      advance (m.replayed source line) = .ok none (m.replayed source line) := by
  constructor
  · rw [readLine, hsource]
    rfl
  · rw [replayWalk.replayed_eq source line m hsource, hc]
    rfl

/-- A line is taken from the source, and its twin from the block. -/
theorem Run.advance_replayed_cons {l : String} {lines : List String}
    (hsource : m.source = .ofLines (l :: lines)) :
    let m₁ : Machine := { m with source := .ofLines lines, line := m.line + 1 }
    readLine m = .ok (some l) m₁ ∧
      advance (m.replayed source line) = .ok (some (Text.trim l)) (m₁.replayed source line) := by
  intro m₁
  constructor
  · rw [readLine, hsource]
    rfl
  · rw [replayWalk.replayed_eq source line m hsource, hc,
      replayWalk.replayed_eq source line m₁ rfl]
    simp only [m₁, hc]
    rfl

/-- The coupling carries the evaluation of a line, and leaves a machine without running
    blocks again. -/
theorem Call.evaluateLine_replayed (hm : m.Fits False) {l : String}
    (hl : Statement.Fits False l) (fuel : Nat) :
    match evaluateLine (evaluate fuel) l m with
    | .ok v m' => evaluateLine (evaluate fuel) l (m.replayed source line) =
        .ok v (m'.replayed source line) ∧ m'.Fits False ∧ m'.cursors = []
    | .error e m' => evaluateLine (evaluate fuel) l (m.replayed source line) =
        .error e (m'.replayed source line) := by
  have htext : (replayWalk False source line).text l m := fun g hg => ⟨true, hl g hg, False.elim⟩
  have hcouples := replayWalk.couples_evaluateLine hm fuel htext
  cases hrun : evaluateLine (evaluate fuel) l m with
  | ok v m' =>
    obtain ⟨htwin, hm', hleads, -⟩ := hcouples.ok hrun
    refine ⟨htwin id, hm', List.eq_nil_of_length_eq_zero ?_⟩
    rw [hleads.1, hc]
    rfl
  | error e m' =>
    obtain ⟨htwin, -⟩ := hcouples.error_strict id (fun _ => id) hrun
    exact htwin id

/-- What a program does with the lines of the source, the machine that replays does
    with the statements of its block. -/
theorem Run.turns_replayed (hm : m.Fits False) (fuel level n : Nat) :
    turns advance fuel level n (m.replayed source line) =
      (turns readLine fuel level n m).map (Turn.withMachine (Machine.replayed source line)) := by
  induction n generalizing m with
  | zero => rfl
  | succ n ih =>
    rw [turns, turns]
    show (if !m.alive then [] else _) = _
    split
    · rfl
    obtain ⟨lines, hsource, hlines⟩ := hm.source
    cases lines with
    | nil =>
      obtain ⟨hread, hadvance⟩ := advance_replayed_nil source line hc hsource
      rw [hadvance, hread]
      rfl
    | cons l lines =>
      obtain ⟨hread, hadvance⟩ := advance_replayed_cons source line hc hsource
      rw [hadvance, hread]
      dsimp only
      rw [Call.evaluateLine_trim, Text.trim_trim]
      rw [List.forall_mem_cons] at hlines
      let m₁ : Machine := { m with source := .ofLines lines, line := m.line + 1 }
      have hc₁ : m₁.cursors = [] := hc
      have hm₁ : m₁.Fits False := ⟨hm.memory, hm.cursors, lines, rfl, hlines.2⟩
      have hline := Call.evaluateLine_replayed source line hc₁ hm₁ hlines.1 fuel
      cases hrun : Call.evaluateLine (evaluate fuel) l m₁ with
      | ok v m₂ =>
        rw [hrun] at hline
        obtain ⟨htwin, hm₂, hc₂⟩ := hline
        rw [htwin]
        dsimp only
        rw [ih hc₂ hm₂]
        show _ :: (if m₂.frames.level < level || v.isLoopExit then [] else _) = _
        split <;> rfl
      | error e m₂ =>
        rw [hrun] at hline
        rw [hline]
        rfl

end

/-- A block without branches takes all its statements, and its cursor is gone
    afterwards. -/
theorem Call.runBlock_eq_last_turns {b : Block} (hb : b.elseAllowed = false) (fuel : Nat)
    (m : Machine) :
    runBlock (evaluate fuel) b true m =
      Turn.last
        ((Run.turns Run.advance fuel m.frames.level b.statements.length
          { m with cursors := b.statements :: m.cursors }).map
            (Turn.withMachine fun m => { m with cursors := m.cursors.tail }))
        .nil m := by
  have hbranch : b.branch true = .ok b.statements := by
    simp [Block.branch, Block.range, hb]
  have hreplay : replay (evaluate fuel) m.frames.level b.statements.length .nil
      { m with cursors := b.statements :: m.cursors } = _ := replay_eq_last_turns ..
  rw [runBlock, hbranch]
  show Run.withCursor b.statements (replay (evaluate fuel) m.frames.level b.statements.length .nil)
    m = _
  refine Eq.trans ?_ (Turn.last_map (fun m => { m with cursors := m.cursors.tail }) _ .nil
    { m with cursors := b.statements :: m.cursors }).symm
  unfold Run.withCursor Run.ensuring
  rw [hreplay]

/-- Nothing in memory uses the source. -/
abbrev Memory.Readless (m : Memory) : Prop :=
  m.Fits False

/-- The statement on a line does not mention the functions that use the source. -/
abbrev Statement.Readless (line : String) : Prop :=
  Statement.Fits False line

instance (line : String) : Decidable (Statement.Readless line) :=
  match h : Group.ofLine (Text.trim line) with
  | .error _ => .isTrue fun _ h' => nomatch h.symm.trans h'
  | .ok g =>
    decidable_of_iff g.Readless
      ⟨fun hg _ h' => ⟨Except.ok.inj (h.symm.trans h') ▸ hg, False.elim⟩,
        fun hline => (hline g h).readless⟩

/-- The lines of a source, none of which mentions a function that uses it, are
    evaluated one after the other in the same way as the statements of a block that
    have been captured from them, as long as the machine holds no such function
    either. Only where the statements are taken from differs, and the number of
    lines that have been read. -/
theorem block_replays_source {m : Machine} (hc : m.cursors = []) (hm : m.memory.Readless)
    {lines : List String} (hlines : ∀ line ∈ lines, Statement.Readless line) (fuel : Nat) :
    let level := m.frames.level
    let block : Block := ⟨lines.map Text.trim, none, false⟩
    let reading : Machine := { m with source := .ofLines lines }
    let replaying : Machine := { m with cursors := [block.statements] }
    (∀ n, Run.turns Run.advance fuel level n replaying =
      (Run.turns Run.readLine fuel level n reading).map
        (Turn.withMachine (Machine.replayed m.source m.line))) ∧
    Call.runBlock (evaluate fuel) block true m =
      Turn.last
        ((Run.turns Run.advance fuel level block.statements.length replaying).map
          (Turn.withMachine fun m => { m with cursors := m.cursors.tail }))
        .nil m := by
  intro level block reading replaying
  have hreading : reading.Fits False := by
    refine ⟨hm, fun statements hs => ?_, lines, rfl, hlines⟩
    rw [hc] at hs
    exact absurd hs List.not_mem_nil
  have hreplaying : reading.replayed m.source m.line = replaying := by
    rw [replayWalk.replayed_eq m.source m.line reading rfl, hc]
    rfl
  refine ⟨fun n => ?_, ?_⟩
  · have hcursors : reading.cursors = [] := hc
    rw [← hreplaying]
    exact Run.turns_replayed m.source m.line hcursors hreading fuel level n
  · have hrun := Call.runBlock_eq_last_turns (b := block) rfl fuel m
    rw [hc] at hrun
    exact hrun

theorem Memory.fits_initial (still : Prop) : initial.Fits still :=
  fits_iff.2 (holding_initial trivial fun _ => trivial)

/-- The body of `b` is taken from the source and from the block. -/
theorem block_replays_source_begin :
    let m := Machine.start (.script []) (fun _ => .error .notFound) (mkStdGen 0)
    let lines := ["let b = begin", "  5", "end", "b()"]
    m.cursors = [] ∧ m.memory.Readless ∧ (∀ line ∈ lines, Statement.Readless line) ∧
      ∀ n, Run.turns Run.advance 9 1 n { m with cursors := [lines.map Text.trim] } =
        (Run.turns Run.readLine 9 1 n { m with source := .ofLines lines }).map
          (Turn.withMachine (Machine.replayed m.source m.line)) := by
  intro m lines
  have hlines : ∀ line ∈ lines, Statement.Readless line := by decide +kernel
  exact ⟨rfl, Memory.fits_initial False, hlines,
    (block_replays_source (m := m) rfl (Memory.fits_initial False) hlines 9).1⟩

/-- A function that is held already may read: it takes the next line of the source,
    which is the next statement only where that is not taken from a block. -/
theorem read_string_not_replayed :
    let m := Machine.withFunction [] [.symbol "read_string", .group []]
    let lines := ["f()", "x"]
    m.cursors = [] ∧ m.alive = true ∧ (∀ line ∈ lines, Statement.Readless line) ∧
      (∃ m', Run.turns Run.readLine 9 1 2 { m with source := .ofLines lines } =
        [⟨"f()", .ok (.string "x") m'⟩]) ∧
      ∃ m', Run.turns Run.advance 9 1 2 { m with cursors := [lines.map Text.trim] } =
        [⟨"f()", .error (.fault .noInput) m'⟩] := by
  intro m lines
  exact ⟨rfl, rfl, by decide +kernel, ⟨_, rfl⟩, ⟨_, rfl⟩⟩

end Linewise
