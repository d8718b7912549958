import Linewise.Proofs.Body
import Linewise.Proofs.Replay

/-!
# What lies beneath a call

A call runs on top of what its caller has not come to yet: the statements left of the
blocks that are running, and the lines of the source. The body of a function that is a
block has statements of its own, and every construct in it whose body is a block finds
that body among them. A body on a line has none: it takes such a block from beneath
(`line_body_takes_block`).

To tell whether a call does so, it is made without anything beneath it
(`Machine.alone`). A call that takes a block then fails for want of lines
(`Interrupt.noLines`). Every other call does the same as before, and leaves what is
beneath as it is (`call_spares_lines`).

* `aboveWalk`: what is evaluated with nothing beneath does the same above anything,
  unless it fails for want of lines, which it never does while a block is running
  (`deep`).
-/

namespace Linewise

/-- What a capture fails with where there are no lines. -/
abbrev Interrupt.noLines : Interrupt :=
  .fault (.sourceFailed .isDirectory)

namespace Machine

/-- The machine with nothing beneath: no block is running, and the source has no lines. -/
def alone (m : Machine) : Machine :=
  { m with cursors := [], source := .directory }

/-- The machine with more blocks running beneath, and another source. -/
def above (below : List (List String)) (source : Source) (m : Machine) : Machine :=
  { m with cursors := m.cursors ++ below, source }

/-- Nothing that the machine holds uses the source, and there are no lines in it. -/
structure Apart (m : Machine) : Prop where
  memory : m.memory.Readless
  cursors : ∀ statements ∈ m.cursors, ∀ line ∈ statements, Statement.Readless line
  source : m.source = .directory

theorem Apart.of_memory {m : Machine} (h : m.Apart) {memory : Memory} {frames : Frames}
    (hmemory : memory.Readless) : Apart { m with memory, frames } where
  memory := hmemory
  cursors := h.cursors
  source := h.source

end Machine

/-- Along this walk nothing is taken from beneath, and there is more of it in the second
    run. Either a block is running all the while (`deep`), or lines may be wanted from
    beneath, for which the first run fails then (`short`). -/
def aboveWalk (deep short : Prop) (below : List (List String)) (source : Source) : Walk where
  twin := Machine.above below source
  holds m := m.Apart ∧ (deep → m.cursors ≠ [])
  leads m m' := m'.cursors.length = m.cursors.length ∧ m'.suspended = m.suspended ∧
    m'.line = m.line
  lenient := False
  excused e := short ∧ e = .noLines
  function := FunctionRef.Readless
  symbol := Symbol.Readless
  group g _ := g.Readless
  line := Group.Readless
  block := Block.Fits False
  native b _ := b.usesSource = false
  opens m := short ∨ m.cursors ≠ []
  replays m := m.cursors ≠ []

namespace aboveWalk

variable {deep short : Prop} {below : List (List String)} {source : Source} {m m' : Machine}

theorem cursors_ne_nil (hl : (aboveWalk deep short below source).leads m m') (h : m.cursors ≠ []) :
    m'.cursors ≠ [] := fun hnil =>
  h (List.eq_nil_of_length_eq_zero (hl.1 ▸ hnil ▸ rfl))

theorem step {f : Machine → Machine} (hm : (aboveWalk deep short below source).holds m)
    (hf : (f m).Apart) (hc : (f m).cursors = m.cursors) (hs : (f m).suspended = m.suspended)
    (hl : (f m).line = m.line) (htwin : f (m.above below source) = (f m).above below source) :
    (aboveWalk deep short below source).Step f m where
  holds := ⟨hf, fun hdeep => hc ▸ hm.2 hdeep⟩
  leads := ⟨congrArg List.length hc, hs, hl⟩
  twin := htwin

theorem define {name : String} {names : List String} {body : Body}
    (hm : (aboveWalk deep short below source).holds m) (hbody : (aboveWalk deep short below source).body body)
    (hnative : ∀ b, body ≠ .native b) :
    (aboveWalk deep short below source).Couples (fun f _ => f.Readless)
      (Run.define (.ofBody name names body)) (Run.define (.ofBody name names body)) m := by
  have hfits : body.Fits False := by
    cases body with
    | native b => trivial
    | line g => exact ⟨hbody, False.elim⟩
    | block b => exact hbody
  have hleads : (aboveWalk deep short below source).leads m m := ⟨rfl, rfl, rfl⟩
  refine Coupling.couples_define rfl hm hleads fun hdefine => ?_
  obtain ⟨hmemory, hf⟩ := hm.1.memory.define hfits hnative hdefine
  exact ⟨step hm (hm.1.of_memory hmemory) rfl rfl rfl rfl, hf⟩

theorem capture (elseAllowed : Bool) (hm : (aboveWalk deep short below source).holds m)
    (ho : (aboveWalk deep short below source).opens m) :
    (aboveWalk deep short below source).Couples (fun b _ => b.Fits False)
      (Run.captureBlock elseAllowed) (Run.captureBlock elseAllowed) m := by
  cases hc : m.cursors with
  | nil =>
    -- There are no lines, so the second run need not follow.
    have hspared : (aboveWalk deep short below source).spared .noLines :=
      .inr ⟨ho.resolve_right (absurd hc), rfl⟩
    have hfail : Run.captureBlock elseAllowed m = .error .noLines m := by
      rw [Run.captureBlock]
      rw [hc, hm.1.source]
      rfl
    exact Coupling.couples_of_spared hspared hfail
  | cons statements cursors =>
    have hreadless := hm.1.cursors
    rw [hc, List.forall_mem_cons] at hreadless
    have hrest : ∀ line ∈ (Block.capture elseAllowed statements).rest, Statement.Readless line :=
      fun line hline => hreadless.1 line (Capture.run_rest_suffix.mem hline)
    refine Coupling.couples_of_ofExcept ?_ ?_ (Run.captureBlock_of_cursor hc elseAllowed)
      (Run.captureBlock_of_cursor (m := m.above below source) (congrArg (· ++ below) hc)
        elseAllowed) fun _ => Block.fits_of_capture hreadless.1
    · exact ⟨⟨hm.1.memory, List.forall_mem_cons.2 ⟨hrest, hreadless.2⟩, hm.1.source⟩,
        fun _ => List.cons_ne_nil _ _⟩
    · exact ⟨(congrArg List.length hc).symm, rfl, rfl⟩

theorem advance (hm : (aboveWalk deep short below source).holds m) (hr : m.cursors ≠ []) :
    (aboveWalk deep short below source).Couples
      (fun line m => ∀ s, line = some s → (aboveWalk deep short below source).text s m)
      Run.advance Run.advance m := by
  obtain ⟨statements, cursors, hc⟩ := List.exists_cons_of_ne_nil hr
  have hreadless := hm.1.cursors
  rw [hc, List.forall_mem_cons] at hreadless
  have htwin : (m.above below source).cursors = statements :: (cursors ++ below) := by
    rw [Machine.above, hc, List.cons_append]
  refine Coupling.couples_advance_of_top hc htwin hm ⟨rfl, rfl, rfl⟩ (fun _ => nofun) ?_
  rintro statement rest rfl
  rw [List.forall_mem_cons] at hreadless
  refine ⟨⟨⟨hm.1.memory, List.forall_mem_cons.2 ⟨hreadless.1.2, hreadless.2⟩, hm.1.source⟩,
    fun _ => List.cons_ne_nil _ _⟩, ⟨(congrArg List.length hc).symm, rfl, rfl⟩, rfl, ?_⟩
  intro s hs g hg
  cases hs
  exact (hreadless.1.1 g hg).readless

theorem cursor {b : Block} {first : Bool} {statements : List String}
    (hm : (aboveWalk deep short below source).holds m) (hb : b.Fits False)
    (hs : b.branch first = .ok statements) :
    (aboveWalk deep short below source).Bracket (aboveWalk deep short below source).reach
      (fun m => { m with cursors := statements :: m.cursors })
      (fun m => { m with cursors := m.cursors.tail }) m where
  enter_holds := ⟨⟨hm.1.memory, List.forall_mem_cons.2 ⟨hb.branch hs, hm.1.cursors⟩, hm.1.source⟩,
    fun _ => List.cons_ne_nil _ _⟩
  enter_twin := rfl
  leave_holds m' hm' hl := by
    refine ⟨⟨hm'.1.memory, fun s hs => hm'.1.cursors s (List.mem_of_mem_tail hs), hm'.1.source⟩,
      fun hdeep hnil => hm.2 hdeep (List.eq_nil_of_length_eq_zero ?_)⟩
    have hlength := congrArg List.length hnil
    rw [List.length_tail, hl.1] at hlength
    exact hlength
  leave_leads m' _ hl := ⟨by simp [hl.1], hl.2⟩
  leave_twin m' _ hl := by
    have hne := cursors_ne_nil hl (List.cons_ne_nil _ _)
    show { m'.above below source with cursors := (m'.above below source).cursors.tail } =
      Machine.above below source { m' with cursors := m'.cursors.tail }
    rw [Machine.above, Machine.above, List.tail_append_of_ne_nil hne]
  leave_result _ _ _ _ hv := hv

theorem frame {bindings : List (String × Value)} (hm : (aboveWalk deep short below source).holds m)
    (hb : ∀ b ∈ bindings, b.2.Readless) :
    (aboveWalk deep short below source).Bracket (aboveWalk deep short below source).reach
      (fun m => m.enterFrame bindings)
      (Machine.leaveFrame (m.enterFrame bindings).frames.level) m where
  enter_holds := by
    refine ⟨Machine.enterFrame_induction (hm.1.of_memory hm.1.memory) ?_, fun hdeep => ?_⟩
    · exact fun m hm b hmem => hm.of_memory (hm.memory.addVariable (v := ⟨b.1, b.2⟩) (hb b hmem))
    · rw [Machine.cursors_enterFrame]
      exact hm.2 hdeep
  enter_twin := Machine.enterFrame_hom (f := Machine.above below source) (fun _ => rfl)
    (fun _ _ _ => rfl) m bindings
  leave_holds m' hm' _ := by
    obtain ⟨frames, h⟩ := m'.leaveFrame_eq (m.enterFrame bindings).frames.level
    rw [h]
    exact ⟨hm'.1.of_memory hm'.1.memory, hm'.2⟩
  leave_leads m' _ hl := by
    obtain ⟨frames, h⟩ := m'.leaveFrame_eq (m.enterFrame bindings).frames.level
    rw [h]
    exact ⟨by simpa using hl.1, by simpa using hl.2.1, by simpa using hl.2.2⟩
  leave_twin m' _ _ := Machine.leaveFrame_hom (f := Machine.above below source) rfl fun _ => rfl
  leave_result _ _ _ _ hv := hv

theorem lawful : (aboveWalk deep short below source).Lawful where
  refl m := ⟨rfl, rfl, rfl⟩
  trans h₁ h₂ := ⟨h₂.1.trans h₁.1, h₂.2.1.trans h₁.2.1, h₂.2.2.trans h₁.2.2⟩
  group_mono _ hg := hg
  opens_mono hl ho := ho.imp_right (cursors_ne_nil hl)
  replays_mono hl hr := cursors_ne_nil hl hr
  closed hm := hm.1.memory.closed
  found hm _ hs hv := Scope.find?_within (fun _ _ => trivial)
    (fun _ => hm.1.memory.intact.find?_readless hs) hv
  stored hm hb := hm.1.memory.blocks hb
  bodies {m f F} hm hF := by
    have hbody := hm.1.memory.bodies hF
    generalize F.body = body at hbody ⊢
    cases body with
    | native b => trivial
    | line g => exact hbody.readless
    | block b => exact hbody
  defaults hm hF hv := hm.1.memory.intact.eq_nil_of_default hF hv ▸ trivial
  lines _ _ hg := hg
  refer {m r} hm _ _ := ⟨step hm (hm.1.of_memory (hm.1.memory.addVariable
    (v := ⟨Reference.variableName, .var r⟩) trivial)) rfl rfl rfl rfl, trivial⟩
  declare {m s v} hm _ hv := ⟨step hm (hm.1.of_memory (hm.1.memory.addVariable
    (v := ⟨s, v⟩) hv.1)) rfl rfl rfl rfl, trivial⟩
  write hm _ _ _ _ hv := step hm (hm.1.of_memory (hm.1.memory.write _ hv.1)) rfl rfl rfl rfl
  store hm hb := step hm (hm.1.of_memory (hm.1.memory.addBlock hb)) rfl rfl rfl rfl
  define hm hbody hnative _ := define hm hbody hnative
  outward _ _ hm _ := step hm ⟨hm.1.memory, hm.1.cursors, hm.1.source⟩ rfl rfl rfl rfl
  strict _ hm := step hm ⟨hm.1.memory, hm.1.cursors, hm.1.source⟩ rfl rfl rfl rfl
  exit hm _ := Coupling.step_exitFrame rfl
    (fun _ => step hm (hm.1.of_memory hm.1.memory) rfl rfl rfl rfl)
    fun _ => step hm ⟨hm.1.memory, hm.1.cursors, hm.1.source⟩ rfl rfl rfl rfl
  load _ hn _ := nomatch hn
  readLine _ hn := nomatch hn
  capture elseAllowed hm ho := capture elseAllowed hm ho
  advance hm hr := advance hm hr
  cursor hm hb hs := cursor hm hb hs
  replays_cursor _ _ _ := List.cons_ne_nil _ _
  frame hm _ hb := frame hm fun b hmem => (hb b hmem).1
  deeper hm _ := ⟨⟨⟨hm.1.memory, hm.1.cursors, hm.1.source⟩, hm.2⟩, rfl,
    fun _ hm' _ => ⟨⟨hm'.1.memory, hm'.1.cursors, hm'.1.source⟩, hm'.2⟩, fun _ _ hl => hl,
    fun _ _ _ => rfl, fun _ _ _ _ hv => hv⟩

section

variable (h : deep ∨ short)

include h

theorem watched : (aboveWalk deep short below source).Watched {} where
  opened hm _ _ _ := h.symm.imp_right fun hdeep => hm.2 hdeep
  parts {g p m} _ hg hp hblock := by
    have hfits : g.Fits False false := ⟨hg, False.elim⟩
    have hpart := hfits.part hp
    cases p with
    | symbol s => exact hpart
    | group g' => exact hpart.readless
    | line g' => exact hpart.readless
    | block => exact absurd rfl hblock
  permits {c m} hm hc _ := by
    refine Walk.permits_of_native ?_ trivial
    rintro f F b rfl hF hbody
    exact hm.1.memory.intact.usesSource_eq_false hc hF hbody

theorem agree (fuel : Nat) :
    (aboveWalk deep short below source).Agree (evaluate fuel) (evaluate fuel) :=
  lawful.agree_evaluate (watched h) (.inl rfl)

end

/-- That a block is running need not be known any further. -/
theorem couples_of_deep {α : Type} {Q : α → Machine → Prop} {x y : Run α}
    (h : (aboveWalk True short below source).Couples Q x y m) :
    (aboveWalk False short below source).Couples Q x y m where
  ok hx :=
    have ⟨hy, hm', hl, hv⟩ := h.ok hx
    ⟨hy, ⟨hm'.1, False.elim⟩, hl, hv⟩
  error hx := (h.error hx).imp_right fun ⟨hy, hm', hl⟩ => ⟨hy, ⟨hm'.1, False.elim⟩, hl⟩

/-- A call is the same above anything, but where its body is on a line it may want lines from
    there. -/
theorem couples_function {f : FunctionRef} {F : Function} {arg : Value} (hm : m.Apart)
    (hF : m.memory.registry.get? f = some F) (hbody : ∀ b, F.body ≠ .native b)
    (harg : arg.Readless) (fuel : Nat) :
    let K := aboveWalk False (∃ g, F.body = .line g) below source
    K.Couples K.value (Call.function (evaluate fuel) f arg) (Call.function (evaluate fuel) f arg)
      m := by
  intro K
  have hK : K.Lawful := lawful
  have hstart : K.holds m := ⟨hm, False.elim⟩
  have harg' : K.value arg m := ⟨harg, trivial⟩
  have hknown := hm.memory.bodies hF
  refine Walk.couples_function_of_body hK hstart harg hF hF rfl hbody hbody fun bindings hb =>
    ⟨hK.frame hstart trivial (hK.bind hstart hF harg' hb), fun hm₁ => ?_⟩
  cases hvalue : F.body with
  | native b => exact absurd hvalue (hbody b)
  | line g =>
    rw [hvalue] at hknown
    exact agree (.inr ⟨g, hvalue⟩) fuel hm₁ hknown.readless
  | block b =>
    -- While the block is running, there is always one to take lines from.
    rw [hvalue] at hknown
    refine Walk.couples_runBlock_of_replay hK hm₁ hknown fun statements level hs hm₂ => ?_
    have hreplays : ({ (m.enterFrame bindings).deeper with
        cursors := statements :: (m.enterFrame bindings).deeper.cursors } : Machine).cursors ≠ [] :=
      List.cons_ne_nil _ _
    exact couples_of_deep (Walk.couples_replay lawful (agree (.inl trivial) fuel)
      ⟨hm₂.1, fun _ => hreplays⟩ hreplays lawful.value_nil)

end aboveWalk

/-! ## Calls -/

/-- A program that mentions no function that uses the source gets hold of none: what the
    machine holds after a statement mentions none either. -/
theorem evaluateLine_readless {m : Machine} (hm : m.Fits False) (fuel : Nat) {line : String}
    (hline : Statement.Readless line) :
    ((Call.evaluateLine (evaluate fuel) line).after m).Fits False := by
  have hcouples : (replayWalk False m.source m.line).Couples _ (Call.evaluateLine (evaluate fuel) line)
      (Call.evaluateLine (evaluate fuel) line) m :=
    replayWalk.couples_evaluateLine hm fuel fun g hg => ⟨true, hline g hg, False.elim⟩
  cases hx : Call.evaluateLine (evaluate fuel) line m with
  | ok v m' =>
    rw [Run.after_of_ok hx]
    exact (hcouples.ok hx).2.1
  | error e m' =>
    rw [Run.after_of_error hx]
    exact (hcouples.error_strict id (fun _ => id) hx).2.1

/-- A call of a function of the program leaves the lines of its caller where they are, in the
    source as well as in the blocks that are running, whether it fails or not. If the body of
    the function is on a line, this takes that the call wants no block from its caller: it
    does not fail for want of lines where there are none. -/
theorem call_spares_lines {m : Machine} (hm : m.memory.Readless) {f : FunctionRef} {F : Function}
    (hF : m.memory.registry.get? f = some F) (hbody : ∀ b, F.body ≠ .native b) {arg : Value}
    (harg : arg.Readless) (fuel : Nat)
    (hline : ∀ g, F.body = .line g →
      ∀ m', Call.function (evaluate fuel) f arg m.alone ≠ .error .noLines m') :
    let m' := (Call.function (evaluate fuel) f arg).after m
    m'.source = m.source ∧ m'.suspended = m.suspended ∧ m'.line = m.line ∧
      m'.cursors = m.cursors := by
  have hapart : m.alone.Apart := ⟨hm, nofun, rfl⟩
  have hcouples : (aboveWalk False (∃ g, F.body = .line g) m.cursors m.source).Couples _
      (Call.function (evaluate fuel) f arg) (Call.function (evaluate fuel) f arg) m.alone :=
    aboveWalk.couples_function hapart hF hbody harg fuel
  have hspared : ∀ m₁ : Machine, m₁.cursors.length = 0 ∧ m₁.suspended = m.suspended ∧
      m₁.line = m.line → let m' := m₁.above m.cursors m.source
      m'.source = m.source ∧ m'.suspended = m.suspended ∧ m'.line = m.line ∧
        m'.cursors = m.cursors := by
    rintro m₁ ⟨hc, hsuspended, hl⟩
    refine ⟨rfl, hsuspended, hl, ?_⟩
    rw [Machine.above, List.eq_nil_of_length_eq_zero hc, List.nil_append]
  intro m'
  cases hx : Call.function (evaluate fuel) f arg m.alone with
  | ok v m₁ =>
    obtain ⟨hy, -, hl, -⟩ := hcouples.ok hx
    have hrun : m' = m₁.above m.cursors m.source := Run.after_of_ok (hy id)
    exact hrun ▸ hspared m₁ hl
  | error e m₁ =>
    rcases hcouples.error hx with (⟨hlenient, -⟩ | ⟨⟨g, hg⟩, rfl⟩) | ⟨hy, -, hl⟩
    · exact hlenient.elim
    · exact absurd hx (hline g hg m₁)
    · have hrun : m' = m₁.above m.cursors m.source := Run.after_of_error (hy id)
      exact hrun ▸ hspared m₁ hl

theorem Machine.readless_withFunction {parameters : List String} {body : Group}
    (hbody : body.Readless) : (withFunction parameters body).memory.Readless := by
  have hdefine : Memory.initial.registry.define (.ofBody "f" parameters (.line body)) =
      .ok (⟨Builtin.all.length⟩, (withFunction parameters body).memory.registry) := rfl
  have hfits : (Body.line body).Fits False := ⟨hbody, False.elim⟩
  exact ((Memory.fits_initial False).define hfits nofun hdefine).1

/-- The body of `f` is a call of its argument, which is a block that captures another. -/
theorem call_spares_lines_block :
    let b : Block := ⟨["if yes,", "3", "end"], none, false⟩
    let m₀ := Machine.withFunction ["x"] [.symbol "x", .group []]
    let m : Machine := { m₀ with memory := (m₀.memory.addBlock b).2, cursors := [["2"]] }
    m.memory.Readless ∧ m.memory.registry.get? ⟨6⟩ =
        some (.ofBody "f" ["x"] (.line [.symbol "x", .group []])) ∧
      (∀ m', Call.function (evaluate 9) ⟨6⟩ (.block ⟨0⟩) m.alone ≠ .error .noLines m') ∧
      ((Call.function (evaluate 9) ⟨6⟩ (.block ⟨0⟩)).after m).cursors = [["2"]] := by
  intro b m₀ m
  have hline : Group.Readless [.symbol "x", .group []] := by decide
  have hblock : b.Fits False := by
    have hlines : ∀ line ∈ b.statements, Statement.Readless line := by decide +kernel
    exact hlines
  have hm : m.memory.Readless := (Machine.readless_withFunction hline).addBlock hblock
  have hcall : ((Call.function (evaluate 9) ⟨6⟩ (.block ⟨0⟩)).value? m.alone).isSome = true := by
    decide +kernel
  have hends : ∀ m', Call.function (evaluate 9) ⟨6⟩ (.block ⟨0⟩) m.alone ≠ .error .noLines m' :=
    Run.ne_error_of_isSome hcall _
  have harg : (Value.block ⟨0⟩).Readless := trivial
  have huser : ∀ b, (.line [.symbol "x", .group []] : Body) ≠ .native b := by
    intro b hb
    cases hb
  obtain ⟨-, -, -, hcursors⟩ :=
    call_spares_lines hm (f := ⟨6⟩) (F := .ofBody "f" ["x"] (.line [.symbol "x", .group []])) rfl
      huser harg 9 fun _ _ => hends
  exact ⟨hm, rfl, hends, hcursors⟩

/-- The body of `f` is an `if` whose own body is missing, so it takes the lines that come after
    the call. -/
theorem line_body_takes_block :
    let body : Group := [.symbol "if", .symbol "yes", .symbol ","]
    let m : Machine := { Machine.withFunction [] body with
      source := .ofLines ["print(1)", "end", "print(2)"] }
    m.memory.Readless ∧ m.memory.registry.get? ⟨6⟩ = some (.ofBody "f" [] (.line body)) ∧
      (Value.list []).Readless ∧
      let m' := (Call.function (evaluate 9) ⟨6⟩ (.list [])).after m
      m'.source.statements = ["print(2)"] ∧ m'.line = m.line + 2 := by
  intro body m
  have hbody : body.Readless := by decide
  exact ⟨Machine.readless_withFunction hbody, rfl, trivial, by decide +kernel, by decide +kernel⟩

end Linewise
