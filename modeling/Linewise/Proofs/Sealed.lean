import Linewise.Proofs.Recast
import Linewise.Proofs.Watch

/-!
# Evaluations that capture no block

A statement is the same wherever it stands, except that it may capture the lines that
come after it. To tell that it does not, it is evaluated while a block without statements
is running: nothing can be captured from that, and the evaluation is broken off if
something should be (`Run.sealed`). It is also broken off if the program has ended
(`evaluateSealed`).

What is not broken off is the same whatever comes after it. Moreover it is the same if a
function with a block for its body has the only statement of the block for its body
instead (`Recast`): the block that is running then has been left in one run, and never
been there in the other. The function may be called again in its body, or it may be
defined anew, which in a sealed evaluation only gives it a body on a line.

* `sealedWalk`: the cursors beneath are others in the second run, and the function has
  another body unless it has been defined anew;
* `sealedWalk.agree`: a sealed evaluation agrees with the evaluation, by induction on the
  fuel for all cursors at once;
* `call_recast`: a call that is not broken off does the same in both programs.
-/

namespace Linewise

/-! ## Sealed evaluations -/

/-- What a capture fails with where the lines end too early. -/
abbrev Interrupt.notTerminated : Interrupt :=
  .fault .blockNotTerminated

/-- The step, broken off if it captures a block. -/
def Run.sealed {α : Type} (x : Run α) : Run α := fun m =>
  match Run.withCursor [] x m with
  | .error (.fault .blockNotTerminated) m' => .error .outOfFuel m'
  | result => result

/-- The outcome, with the machine that is left changed. -/
def Run.leaving {α : Type} (change : Machine → Machine) :
    EStateM.Result Interrupt Machine α → EStateM.Result Interrupt Machine α
  | .ok v m => .ok v (change m)
  | .error i m => .error i (change m)

/-- The value of a group, broken off where a block is captured, and where something is
    evaluated or called after the program has ended. -/
def evaluateSealed : Nat → Group → Run Value
  | 0, _ => throw .outOfFuel
  | fuel + 1, g => Run.checked Machine.alive <| Run.sealed <|
    Statement.statement (evaluateSealed fuel)
      (fun c v => Run.checked Machine.alive (Call.apply (evaluateSealed fuel) c v)) fuel g

/-- A block with a single statement evaluates it while there is none left. -/
theorem Call.runBlock_single (ev : Group → Run Value) {b : Block} {statement : String}
    {item : Item} {g : Group} {m : Machine} (hb : b.branch true = .ok [statement])
    (hline : Group.ofLine (Text.trim statement) = .ok (item :: g)) (halive : m.alive = true) :
    runBlock ev b true m = Run.withCursor [] (ev (item :: g)) m := by
  have hreplay : ∀ level, replay ev level 1 .nil { m with cursors := [statement] :: m.cursors } =
      ev (item :: g) { m with cursors := [] :: m.cursors } := by
    intro level
    have hadvance : Run.advance { m with cursors := [statement] :: m.cursors } =
        .ok (some statement) { m with cursors := [] :: m.cursors } := rfl
    have hgoes : ¬(!m.alive) = true := by rw [halive]; exact Bool.false_ne_true
    rw [replay]
    show (if !m.alive then _ else _ : Run Value) _ = _
    rw [if_neg hgoes, Run.bind_of_ok hadvance]
    dsimp only
    rw [evaluateLine_of_ofLine ev hline]
    cases hrun : ev (item :: g) { m with cursors := [] :: m.cursors } with
    | ok v m' =>
      rw [Run.bind_of_ok hrun]
      show (if m'.frames.level < level || v.isLoopExit then return v
        else replay ev level 0 v : Run Value) m' = _
      split <;> rfl
    | error i m' => exact Run.bind_eq_error.2 (.inl hrun)
  rw [runBlock, hb]
  show Run.withCursor [statement] (replay ev m.frames.level 1 .nil) m = _
  rw [Run.withCursor, Run.withCursor, Run.ensuring, Run.ensuring, hreplay]

/-! ## The walk -/

/-- The cursors with others beneath in place of `bottom`. -/
def rebase (bottom bottom' cursors : List (List String)) : List (List String) :=
  cursors.take (cursors.length - bottom.length) ++ bottom'

section

variable {bottom bottom' cursors : List (List String)}

theorem rebase_append (own : List (List String)) :
    rebase bottom bottom' (own ++ bottom) = own ++ bottom' := by
  rw [rebase, List.length_append, Nat.add_sub_cancel, List.take_left]

theorem rebase_self : rebase bottom bottom' bottom = bottom' :=
  rebase_append []

theorem rebase_cons (h : bottom <:+ cursors) (statements : List String) :
    rebase bottom bottom' (statements :: cursors) = statements :: rebase bottom bottom' cursors := by
  obtain ⟨own, rfl⟩ := h
  rw [← List.cons_append, rebase_append, rebase_append, List.cons_append]

theorem rebase_tail (h : bottom <:+ cursors) (hlt : bottom.length < cursors.length) :
    rebase bottom bottom' cursors.tail = (rebase bottom bottom' cursors).tail := by
  obtain ⟨_ | ⟨statements, own⟩, rfl⟩ := h
  · exact absurd hlt (Nat.lt_irrefl _)
  · rw [List.cons_append, List.tail_cons, ← List.cons_append, rebase_append, rebase_append]
    rfl

end

/-- The machine in which a function has another body. -/
def Machine.recast (e : Recast) (m : Machine) : Machine :=
  { m with memory := { m.memory with registry := e.registry m.memory.registry } }

/-- Along this walk the second run has other cursors beneath, and another body for a
    function, unless that has been defined anew. No block is captured: where one may be
    (`short`), there is no statement left for it, and the first run fails. -/
def sealedWalk (e : Recast) (short : Prop) (bottom bottom' : List (List String)) : Walk where
  twin m := { m.recast e with cursors := rebase bottom bottom' m.cursors }
  holds m := bottom <:+ m.cursors ∧ (short → bottom.head? = some [])
  leads m m' := m'.cursors.length = m.cursors.length
  lenient := True
  excused i := short ∧ i = .notTerminated
  captured _ := False
  opens m := short ∧ m.cursors.length = bottom.length
  replays m := bottom.length < m.cursors.length

namespace sealedWalk

variable {e : Recast} {short : Prop} {bottom bottom' : List (List String)} {m : Machine}

theorem known {v : Value} : (sealedWalk e short bottom bottom').value v m :=
  ⟨.of_forall (fun _ => trivial) fun _ => trivial, trivial⟩

theorem step {f : Machine → Machine} (hm : (sealedWalk e short bottom bottom').holds m)
    (hc : (f m).cursors = m.cursors)
    (htwin : f ((sealedWalk e short bottom bottom').twin m) =
      (sealedWalk e short bottom bottom').twin (f m)) :
    (sealedWalk e short bottom bottom').Step f m where
  holds := ⟨hc ▸ hm.1, hm.2⟩
  leads := congrArg List.length hc
  twin := htwin

theorem twin_self : (sealedWalk e short m.cursors m.cursors).twin m = m.recast e := by
  show ({ m.recast e with cursors := rebase m.cursors m.cursors m.cursors } : Machine) = _
  rw [rebase_self]
  rfl

theorem twin_memory : m.memory.Alike (fun _ => True) (m.recast e).memory where
  size_eq := rfl
  names_eq := rfl
  functionName_eq := by
    funext f
    have hget : (m.recast e).memory.registry.get? f = _ := Recast.get?_registry f
    rw [Memory.functionName, Memory.functionName, hget]
    split
    · cases m.memory.registry.get? f with
      | none => rfl
      | some F => exact (e.function_eq F).1
    · rfl
  blocks_eq := rfl
  get?_eq _ _ := rfl

theorem define {name : String} {names : List String} {body : Body}
    (hm : (sealedWalk e short bottom bottom').holds m) (hbody : ∀ b, body ≠ .block b) :
    (sealedWalk e short bottom bottom').Couples (fun _ _ => True)
      (Run.define (.ofBody name names body)) (Run.define (.ofBody name names body)) m := by
  have hdefine := Recast.define_registry (e := e) (r := m.memory.registry)
    (F := .ofBody name names body) (hbody e.block)
  cases h : m.memory.registry.define (.ofBody name names body) with
  | ok p =>
    rw [h] at hdefine
    let m' : Machine := { m with memory := { m.memory with registry := p.2 } }
    have hm' : (sealedWalk e short bottom bottom').holds m' := hm
    have hl : (sealedWalk e short bottom bottom').leads m m' := rfl
    exact Coupling.couples_of_ok hm' hl (Run.define_of_ok h) (Run.define_of_ok hdefine) trivial
  | error fault =>
    rw [h] at hdefine
    have hl : (sealedWalk e short bottom bottom').leads m m := rfl
    exact Coupling.couples_of_error hm hl (.fault fault) (Run.define_of_error h)
      (Run.define_of_error hdefine)

theorem readLine (hm : (sealedWalk e short bottom bottom').holds m)
    {P : Option String → Machine → Prop} (hP : ∀ line m, P line m) :
    (sealedWalk e short bottom bottom').Couples P Run.readLine Run.readLine m := by
  have hmoved : ∀ source line, (sealedWalk e short bottom bottom').holds { m with source, line } ∧
      (sealedWalk e short bottom bottom').leads m { m with source, line } :=
    fun _ _ => ⟨hm, rfl⟩
  have hsource : ((sealedWalk e short bottom bottom').twin m).source = m.source := rfl
  cases hnext : m.source.next with
  | mk next source =>
    rcases next with reason | _ | line
    · obtain ⟨hm', hl⟩ := hmoved source m.line
      refine Coupling.couples_of_error hm' hl (.fault (.sourceFailed reason)) ?_ ?_
      · rw [Run.readLine, hnext]
      · rw [Run.readLine, hsource, hnext]
        rfl
    · obtain ⟨hm', hl⟩ := hmoved source m.line
      refine Coupling.couples_of_ok (v := none) hm' hl ?_ ?_ (hP _ _)
      · rw [Run.readLine, hnext]
      · rw [Run.readLine, hsource, hnext]
        rfl
    · obtain ⟨hm', hl⟩ := hmoved source (m.line + 1)
      refine Coupling.couples_of_ok (v := some line) hm' hl ?_ ?_ (hP _ _)
      · rw [Run.readLine, hnext]
      · rw [Run.readLine, hsource, hnext]
        rfl

/-- There is no statement for a block that may be captured. -/
theorem captureBlock_eq (elseAllowed : Bool) (hm : (sealedWalk e short bottom bottom').holds m)
    (ho : (sealedWalk e short bottom bottom').opens m) :
    Run.captureBlock elseAllowed m = .error .notTerminated m := by
  have hbottom : bottom = m.cursors := hm.1.eq_of_length ho.2.symm
  obtain ⟨cursors, hcursors⟩ := List.head?_eq_some_iff.1 (hm.2 ho.1)
  have hc : m.cursors = [] :: cursors := hbottom.symm.trans hcursors
  rw [Run.captureBlock_of_cursor hc]
  show EStateM.Result.error _ { m with cursors := [] :: cursors } = _
  rw [← hc]

theorem advance (hm : (sealedWalk e short bottom bottom').holds m)
    (hr : (sealedWalk e short bottom bottom').replays m) {P : Option String → Machine → Prop}
    (hP : ∀ line m, P line m) :
    (sealedWalk e short bottom bottom').Couples P Run.advance Run.advance m := by
  have hlt : bottom.length < m.cursors.length := hr
  obtain ⟨⟨_ | ⟨statements, own⟩, hc⟩, hshort⟩ := hm
  · rw [← hc] at hlt
    exact absurd hlt (Nat.lt_irrefl _)
  have htwin : ((sealedWalk e short bottom bottom').twin m).cursors =
      statements :: (own ++ bottom') := by
    show rebase bottom bottom' m.cursors = _
    rw [← hc, rebase_append, List.cons_append]
  have hstay : (sealedWalk e short bottom bottom').leads m m := rfl
  refine Coupling.couples_advance_of_top hc.symm htwin ⟨⟨_, hc⟩, hshort⟩ hstay (hP _ _)
    fun {statement rest} _ => ⟨⟨⟨rest :: own, rfl⟩, hshort⟩, ?_, ?_, hP _ _⟩
  · show (rest :: (own ++ bottom)).length = m.cursors.length
    rw [← hc]
    rfl
  have hrebase : rebase bottom bottom' (rest :: (own ++ bottom)) = rest :: (own ++ bottom') := by
    rw [← List.cons_append, rebase_append, List.cons_append]
  show _ = ({ m.recast e with cursors := rebase bottom bottom' (rest :: (own ++ bottom)) } : Machine)
  rw [hrebase]
  rfl

theorem cursor (hm : (sealedWalk e short bottom bottom').holds m) (statements : List String) :
    (sealedWalk e short bottom bottom').Bracket (sealedWalk e short bottom bottom').reach
      (fun m => { m with cursors := statements :: m.cursors })
      (fun m => { m with cursors := m.cursors.tail }) m where
  enter_holds := ⟨hm.1.trans (List.suffix_cons statements m.cursors), hm.2⟩
  enter_twin := by
    show _ = ({ m.recast e with cursors := rebase bottom bottom' (statements :: m.cursors) } :
      Machine)
    rw [rebase_cons hm.1]
    rfl
  leave_holds m' hm' hl := by
    obtain ⟨_ | ⟨top, own⟩, hc⟩ := hm'.1
    · have hlength : m'.cursors.length = m.cursors.length + 1 := hl
      have hle : bottom.length ≤ m.cursors.length := hm.1.length_le
      rw [← hc] at hlength
      simp only [List.nil_append] at hlength
      omega
    · refine ⟨⟨own, ?_⟩, hm.2⟩
      show own ++ bottom = m'.cursors.tail
      rw [← hc, List.cons_append, List.tail_cons]
  leave_leads m' _ hl := by
    have hlength : m'.cursors.length = m.cursors.length + 1 := hl
    show m'.cursors.tail.length = m.cursors.length
    rw [List.length_tail, hlength, Nat.add_sub_cancel]
  leave_twin m' hm' hl := by
    have hlength : m'.cursors.length = m.cursors.length + 1 := hl
    have hlt : bottom.length < m'.cursors.length :=
      hlength ▸ Nat.lt_succ_of_le hm.1.length_le
    show _ = ({ m'.recast e with cursors := rebase bottom bottom' m'.cursors.tail } : Machine)
    rw [rebase_tail hm'.1 hlt]
    rfl
  leave_result _ _ _ _ hv := hv

theorem frame (hm : (sealedWalk e short bottom bottom').holds m)
    (bindings : List (String × Value)) :
    (sealedWalk e short bottom bottom').Bracket (sealedWalk e short bottom bottom').reach
      (fun m => m.enterFrame bindings)
      (Machine.leaveFrame (m.enterFrame bindings).frames.level) m where
  enter_holds := by
    refine ⟨?_, hm.2⟩
    rw [Machine.cursors_enterFrame]
    exact hm.1
  enter_twin := Machine.enterFrame_hom (f := (sealedWalk e short bottom bottom').twin)
    (fun _ => rfl) (fun _ _ _ => rfl) m bindings
  leave_holds m' hm' _ := by
    obtain ⟨frames, h⟩ := m'.leaveFrame_eq (m.enterFrame bindings).frames.level
    rw [h]
    exact hm'
  leave_leads m' _ hl := by
    obtain ⟨frames, h⟩ := m'.leaveFrame_eq (m.enterFrame bindings).frames.level
    rw [h]
    have hlength : m'.cursors.length = (m.enterFrame bindings).cursors.length := hl
    rwa [Machine.cursors_enterFrame] at hlength
  leave_twin m' _ _ := Machine.leaveFrame_hom (f := (sealedWalk e short bottom bottom').twin) rfl
    fun _ => rfl
  leave_result _ _ _ _ hv := hv

theorem lawful : (sealedWalk e short bottom bottom').Lawful where
  refl _ := rfl
  trans h₁ h₂ := h₂.trans h₁
  opens_mono hl ho := ⟨ho.1, hl.trans ho.2⟩
  replays_mono hl hr := Nat.lt_of_lt_of_eq hr hl.symm
  twin_memory _ := twin_memory
  refer hm _ _ := ⟨step hm rfl rfl, trivial⟩
  declare hm _ _ := ⟨step hm rfl rfl, trivial⟩
  write hm _ _ _ _ _ := step hm rfl rfl
  store hm _ := step hm rfl rfl
  define hm _ _ hcaptured := define hm hcaptured
  outward _ _ hm _ := step hm rfl rfl
  strict _ hm := step hm rfl rfl
  exit hm _ := Coupling.step_exitFrame rfl (fun _ => step hm rfl rfl) fun _ => step hm rfl rfl
  load hm _ _ := step hm rfl rfl
  readLine hm _ := readLine hm fun _ _ _ _ _ _ => trivial
  capture {m} elseAllowed hm ho := by
    have hspared : (sealedWalk e short bottom bottom').spared .notTerminated := .inr ⟨ho.1, rfl⟩
    exact Coupling.couples_of_spared hspared (captureBlock_eq elseAllowed hm ho)
  captured_of_capture hm ho h := nomatch (captureBlock_eq _ hm ho).symm.trans h
  advance hm hr := advance hm hr fun _ _ _ _ _ _ => trivial
  cursor hm _ _ := cursor hm _
  replays_cursor hm _ _ := Nat.lt_succ_of_le hm.1.length_le
  frame hm _ _ := frame hm _
  deeper hm _ := ⟨hm, rfl, fun _ hm' _ => hm', fun _ _ hl => hl, fun _ _ _ => rfl,
    fun _ _ _ _ hv => hv⟩

/-! ### What is left beneath -/

/-- A step while a block without statements is running, which in the second run has not been
    there, leaves the other cursors as they are. -/
theorem leave_twin (hm : (sealedWalk e short bottom bottom').holds m) {short' : Prop}
    {m' : Machine}
    (hm' : (sealedWalk e short' ([] :: m.cursors) (rebase bottom bottom' m.cursors)).holds m')
    (hl : m'.cursors.length = m.cursors.length + 1) :
    let m₁ : Machine := { m' with cursors := m'.cursors.tail }
    m₁.cursors = m.cursors ∧ (sealedWalk e short bottom bottom').holds m₁ ∧
      (sealedWalk e short' ([] :: m.cursors) (rebase bottom bottom' m.cursors)).twin m' =
        (sealedWalk e short bottom bottom').twin m₁ := by
  have hc : [] :: m.cursors = m'.cursors := hm'.1.eq_of_length hl.symm
  have htail : m'.cursors.tail = m.cursors := by rw [← hc, List.tail_cons]
  refine ⟨htail, ⟨htail.symm ▸ hm.1, hm.2⟩, ?_⟩
  show ({ m'.recast e with
    cursors := rebase ([] :: m.cursors) (rebase bottom bottom' m.cursors) m'.cursors } : Machine) =
      { m'.recast e with cursors := rebase bottom bottom' m'.cursors.tail }
  rw [htail, ← hc, rebase_self]

theorem enter_twin (short' : Prop) :
    (sealedWalk e short' ([] :: m.cursors) (rebase bottom bottom' m.cursors)).twin
      { m with cursors := [] :: m.cursors } = (sealedWalk e short bottom bottom').twin m := by
  show ({ m.recast e with cursors := rebase ([] :: m.cursors) _ ([] :: m.cursors) } : Machine) = _
  rw [rebase_self]
  rfl

/-- What comes of a step while a block without statements is running. -/
theorem of_withCursor {x y : Run Value} (hm : (sealedWalk e short bottom bottom').holds m)
    {short' : Prop}
    (h : let K := sealedWalk e short' ([] :: m.cursors) (rebase bottom bottom' m.cursors)
      K.Couples K.value x y { m with cursors := [] :: m.cursors }) :
    let K := sealedWalk e short bottom bottom'
    (∀ {v m₁}, Run.withCursor [] x m = .ok v m₁ →
      y (K.twin m) = .ok v (K.twin m₁) ∧ K.holds m₁ ∧ K.leads m m₁) ∧
    ∀ {i m₁}, Run.withCursor [] x m = .error i m₁ → i = .outOfFuel ∨ short' ∧ i = .notTerminated ∨
      y (K.twin m) = .error i (K.twin m₁) ∧ K.holds m₁ ∧ K.leads m m₁ := by
  intro K
  rw [Run.withCursor, Run.ensuring]
  cases hx : x { m with cursors := [] :: m.cursors } with
  | ok v m' =>
    refine ⟨fun hv => ?_, fun hi => by cases hi⟩
    cases hv
    obtain ⟨hy, hm', hl, -⟩ := h.ok hx
    obtain ⟨hc, hm₁, htwin⟩ := leave_twin hm hm' hl
    replace hy := hy id
    rw [enter_twin, htwin] at hy
    exact ⟨hy, hm₁, congrArg List.length hc⟩
  | error i m' =>
    refine ⟨fun hv => (by cases hv), fun hi => ?_⟩
    cases hi
    rcases h.error hx with (⟨-, hi⟩ | hi) | ⟨hy, hm', hl⟩
    · exact .inl hi
    · exact .inr (.inl hi)
    · obtain ⟨hc, hm₁, htwin⟩ := leave_twin hm hm' hl
      replace hy := hy id
      rw [enter_twin, htwin] at hy
      exact .inr (.inr ⟨hy, hm₁, congrArg List.length hc⟩)

/-- The second run need not follow where a block is captured. -/
theorem couples_sealed {x y : Run Value} (hm : (sealedWalk e short bottom bottom').holds m)
    (h : let K := sealedWalk e True ([] :: m.cursors) (rebase bottom bottom' m.cursors)
      K.Couples K.value x y { m with cursors := [] :: m.cursors }) :
    (sealedWalk e short bottom bottom').Couples (sealedWalk e short bottom bottom').value
      (Run.sealed x) y m := by
  have hspared : (sealedWalk e short bottom bottom').spared .outOfFuel := .inl ⟨trivial, rfl⟩
  obtain ⟨hok, herror⟩ := of_withCursor hm h
  cases hx : Run.withCursor [] x m with
  | ok v m₁ =>
    obtain ⟨hy, hm₁, hl⟩ := hok hx
    exact Coupling.couples_of_ok hm₁ hl (by rw [Run.sealed, hx]) hy known
  | error i m₁ =>
    have hbroken (hsealed : Run.sealed x m = .error .outOfFuel m₁) :=
      Coupling.couples_of_spared (P := (sealedWalk e short bottom bottom').value) (y := y)
        hspared hsealed
    rcases herror hx with rfl | ⟨-, rfl⟩ | ⟨hy, hm₁, hl⟩
    · exact hbroken (by rw [Run.sealed, hx])
    · exact hbroken (by rw [Run.sealed, hx])
    · by_cases hi : i = .notTerminated
      · subst hi
        exact hbroken (by rw [Run.sealed, hx])
      · refine Coupling.couples_of_error hm₁ hl i ?_ hy
        rw [Run.sealed, hx]
        split
        · rename_i heq
          cases heq
          exact absurd rfl hi
        · rfl

/-- The block without statements is only running in the first run. -/
theorem couples_withCursor_left {x y : Run Value}
    (hm : (sealedWalk e short bottom bottom').holds m)
    (h : let K := sealedWalk e False ([] :: m.cursors) (rebase bottom bottom' m.cursors)
      K.Couples K.value x y { m with cursors := [] :: m.cursors }) :
    (sealedWalk e short bottom bottom').Couples (sealedWalk e short bottom bottom').value
      (Run.withCursor [] x) y m := by
  obtain ⟨hok, herror⟩ := of_withCursor hm h
  cases hx : Run.withCursor [] x m with
  | ok v m₁ =>
    obtain ⟨hy, hm₁, hl⟩ := hok hx
    exact Coupling.couples_of_ok hm₁ hl hx hy known
  | error i m₁ =>
    rcases herror hx with rfl | ⟨hfalse, -⟩ | ⟨hy, hm₁, hl⟩
    · exact Coupling.couples_of_lenient trivial hx
    · exact hfalse.elim
    · exact Coupling.couples_of_error hm₁ hl i hx hy

/-- It is only running in the second run. -/
theorem couples_withCursor_right {x y : Run Value}
    (hm : (sealedWalk e short bottom bottom').holds m)
    (h : let K := sealedWalk e False m.cursors ([] :: rebase bottom bottom' m.cursors)
      K.Couples K.value x y m) :
    (sealedWalk e short bottom bottom').Couples (sealedWalk e short bottom bottom').value
      x (Run.withCursor [] y) m := by
  let K := sealedWalk e False m.cursors ([] :: rebase bottom bottom' m.cursors)
  let popped : Machine → Machine := fun m' => { m' with cursors := m'.cursors.tail }
  have henter : ({ (sealedWalk e short bottom bottom').twin m with
      cursors := [] :: ((sealedWalk e short bottom bottom').twin m).cursors } : Machine) =
        K.twin m := by
    show _ = ({ m.recast e with cursors := rebase m.cursors _ m.cursors } : Machine)
    rw [rebase_self]
    rfl
  have hleave : ∀ m', K.holds m' → K.leads m m' → (sealedWalk e short bottom bottom').holds m' ∧
      popped (K.twin m') = (sealedWalk e short bottom bottom').twin m' := by
    intro m' hm' hl
    have hc : m.cursors = m'.cursors := hm'.1.eq_of_length hl.symm
    refine ⟨⟨hc ▸ hm.1, hm.2⟩, ?_⟩
    show ({ m'.recast e with cursors := (rebase m.cursors _ m'.cursors).tail } : Machine) =
      { m'.recast e with cursors := rebase bottom bottom' m'.cursors }
    rw [← hc, rebase_self, List.tail_cons]
  cases hx : x m with
  | ok v m' =>
    obtain ⟨hy, hm', hl, -⟩ := h.ok hx
    obtain ⟨hm₁, htwin⟩ := hleave m' hm' hl
    refine Coupling.couples_of_ok hm₁ hl hx ?_ known
    rw [Run.withCursor, Run.ensuring, henter, hy id]
    exact congrArg (EStateM.Result.ok v) htwin
  | error i m' =>
    rcases h.error hx with (⟨-, rfl⟩ | ⟨hfalse, -⟩) | ⟨hy, hm', hl⟩
    · exact Coupling.couples_of_lenient trivial hx
    · exact hfalse.elim
    · obtain ⟨hm₁, htwin⟩ := hleave m' hm' hl
      refine Coupling.couples_of_error hm₁ hl i hx ?_
      rw [Run.withCursor, Run.ensuring, henter, hy id]
      exact congrArg (EStateM.Result.error i) htwin

/-! ### Agreement -/

/-- Where the program has ended, the second run need not follow. -/
theorem couples_alive {P : Value → Machine → Prop} {x y : Run Value}
    (h : m.alive = true → (sealedWalk e short bottom bottom').Couples P x y m) :
    (sealedWalk e short bottom bottom').Couples P (Run.checked Machine.alive x) y m := by
  cases halive : m.alive with
  | true => exact (h halive).congr (if_pos halive) rfl
  | false => exact Coupling.couples_of_lenient trivial (if_neg (by rw [halive]; exact Bool.false_ne_true))

section

variable (he : e.Renders) {fuel : Nat} (ih : ∀ short bottom bottom',
  (sealedWalk e short bottom bottom').Agree (evaluateSealed fuel) (evaluate fuel))

include he ih

/-- The block, and the body that the function has instead. -/
theorem couples_body (hm : (sealedWalk e short bottom bottom').holds m) (halive : m.alive = true) :
    (sealedWalk e short bottom bottom').Couples (sealedWalk e short bottom bottom').value
      (Call.runBlock (evaluateSealed fuel) e.block true) (e.body.value (evaluate fuel)) m := by
  cases he with
  | keep => exact Walk.couples_runBlock lawful (ih _ _ _) hm trivial
  | line hb hline =>
    refine (couples_withCursor_left hm ?_).congr (Call.runBlock_single _ hb hline halive) rfl
    exact ih _ _ _ ⟨List.suffix_rfl, False.elim⟩ trivial

/-- A function that has the other body in the second run. -/
theorem couples_recast {F : Function} {arg : Value}
    (hm : (sealedWalk e short bottom bottom').holds m) (halive : m.alive = true)
    (hF : m.memory.registry.get? e.ref = some F) (hbody : F.body = .block e.block) :
    (sealedWalk e short bottom bottom').Couples (sealedWalk e short bottom bottom').value
      (Call.function (evaluateSealed fuel) e.ref arg) (Call.function (evaluate fuel) e.ref arg)
      m := by
  have hget : (e.registry m.memory.registry).get? e.ref = some (e.function F) := by
    rw [Recast.get?_registry, if_pos rfl, hF]
    rfl
  have hfunction : (e.function F).body = e.body := by
    rw [Recast.function_of_block hbody]
  refine Walk.couples_function_of_body lawful hm known.1 hF hget (e.function_eq F).2
    (fun b hb => nomatch hbody.symm.trans hb) (fun b hb => ?_) fun bindings _ =>
      ⟨frame hm bindings, fun hm₁ => ?_⟩
  · rw [hfunction] at hb
    cases he with
    | keep => cases hb
    | line _ _ => cases hb
  · rw [hbody, hfunction]
    refine couples_body he ih hm₁ ?_
    rw [Machine.deeper, Machine.alive_enterFrame]
    exact halive

theorem couples_answer {c : Callable} {arg : Value}
    (hm : (sealedWalk e short bottom bottom').holds m) :
    (sealedWalk e short bottom bottom').Couples (sealedWalk e short bottom bottom').value
      (Run.checked Machine.alive (Call.apply (evaluateSealed fuel) c arg))
      (Call.apply (evaluate fuel) c arg) m := by
  refine couples_alive fun halive => ?_
  cases c with
  | block b => exact Walk.couples_block lawful (ih _ _ _) hm
  | function f =>
    by_cases h : ∃ F, f = e.ref ∧ m.memory.registry.get? f = some F ∧ F.body = .block e.block
    · obtain ⟨F, rfl, hF, hbody⟩ := h
      exact couples_recast he ih hm halive hF hbody
    · have hsame := Recast.get?_registry_of_ne (e := e) (r := m.memory.registry) (f := f)
        fun F hf hF hbody => h ⟨F, hf, hF, hbody⟩
      refine Walk.couples_function lawful (ih _ _ _) hm ⟨hsame, fun F _ => ?_⟩ known
      cases F.body <;> trivial

end

/-- A sealed evaluation agrees with the evaluation above other cursors, and where a function
    has another body. -/
theorem agree (he : e.Renders) (fuel : Nat) (short : Prop) (bottom bottom' : List (List String)) :
    (sealedWalk e short bottom bottom').Agree (evaluateSealed fuel) (evaluate fuel) := by
  -- By induction on the fuel, for all cursors at once: a statement is evaluated while one
  -- more block is running, and the single statement of a block in place of it.
  induction fuel generalizing short bottom bottom' with
  | zero => exact fun _ _ _ _ => Coupling.couples_of_lenient trivial rfl
  | succ fuel ih =>
    intro g m hm _
    rw [evaluateSealed]
    refine couples_alive fun halive => ?_
    refine couples_sealed hm (Walk.couples_statement lawful (ih _ _ _) (fun _ => ⟨?_, ?_⟩)
      (fun _ => ⟨?_, ?_⟩) (.inl rfl) ?_ trivial ?_)
    · exact fun g m hm hg => (ih _ _ _ hm hg).weaken fun _ _ _ _ hv => ⟨hv, trivial⟩
    · exact fun c v m hm _ _ => (couples_answer he ih hm).weaken fun _ _ _ _ hv =>
        ⟨hv, fun _ => trivial⟩
    · exact fun g m hm hg => (ih _ _ _ hm hg).weaken fun _ _ _ _ hv => ⟨hv, trivial⟩
    · exact lawful.gives fun _ _ _ _ => trivial
    · exact ⟨List.suffix_rfl, fun _ => rfl⟩
    · intro p _
      cases p with
      | block => exact ⟨trivial, rfl⟩
      | _ => trivial

/-! ### What is not broken off -/

/-- A step that is not broken off, and the other one. -/
theorem eq_leaving {α : Type} {Q : α → Machine → Prop} {x y : Run α}
    (h : (sealedWalk e False m.cursors m.cursors).Couples Q x y m)
    (hends : ∀ m', x m ≠ .error .outOfFuel m') :
    y (m.recast e) = Run.leaving (Machine.recast e) (x m) := by
  have htwin : ∀ m', (sealedWalk e False m.cursors m.cursors).holds m' →
      m'.cursors.length = m.cursors.length →
        (sealedWalk e False m.cursors m.cursors).twin m' = m'.recast e := by
    intro m' hm' hl
    have hc : m.cursors = m'.cursors := hm'.1.eq_of_length hl.symm
    rw [hc]
    exact twin_self
  cases hx : x m with
  | ok v m' =>
    obtain ⟨hy, hm', hl, -⟩ := h.ok hx
    replace hy := hy id
    rwa [twin_self, htwin m' hm' hl] at hy
  | error i m' =>
    rcases h.error hx with (⟨-, rfl⟩ | ⟨hfalse, -⟩) | ⟨hy, hm', hl⟩
    · exact absurd hx (hends m')
    · exact hfalse.elim
    · replace hy := hy id
      rwa [twin_self, htwin m' hm' hl] at hy

/-- Where nothing is replaced, both steps do the same. -/
theorem eq_of_couples {α : Type} {Q : α → Machine → Prop} {x y : Run α}
    (h : (sealedWalk .keep False m.cursors m.cursors).Couples Q x y m)
    (hends : ∀ m', x m ≠ .error .outOfFuel m') : y m = x m := by
  have hrecast : ∀ m : Machine, m.recast .keep = m := fun m => by
    rw [Machine.recast, Recast.registry_keep]
  have hrun := eq_leaving h hends
  rw [hrecast] at hrun
  rw [hrun]
  cases x m with
  | ok v m' => exact congrArg (EStateM.Result.ok v) (hrecast m')
  | error i m' => exact congrArg (EStateM.Result.error i) (hrecast m')

end sealedWalk

/-- An evaluation that is not broken off is the evaluation itself. -/
theorem evaluate_eq_sealed {fuel : Nat} {g : Group} {m : Machine}
    (h : ∀ m', evaluateSealed fuel g m ≠ .error .outOfFuel m') :
    evaluate fuel g m = evaluateSealed fuel g m :=
  sealedWalk.eq_of_couples
    (sealedWalk.agree .keep fuel False _ _ ⟨List.suffix_rfl, False.elim⟩ trivial) h

/-- A call that is not broken off does the same if a function has the only statement of a
    block for its body in place of the block. -/
theorem call_recast {e : Recast} (he : e.Renders) {fuel : Nat} {f : FunctionRef} {arg : Value}
    {m : Machine} (halive : m.alive = true)
    (h : ∀ m', Call.function (evaluateSealed fuel) f arg m ≠ .error .outOfFuel m') :
    Call.function (evaluate fuel) f arg (m.recast e) =
      Run.leaving (Machine.recast e) (Call.function (evaluate fuel) f arg m) := by
  have hcouples : ∀ {e : Recast}, e.Renders →
      (sealedWalk e False m.cursors m.cursors).Couples (fun _ _ => True)
        (Call.function (evaluateSealed fuel) f arg) (Call.function (evaluate fuel) f arg) m := by
    intro e he
    have hm : (sealedWalk e False m.cursors m.cursors).holds m := ⟨List.suffix_rfl, False.elim⟩
    have hanswer : (sealedWalk e False m.cursors m.cursors).Couples _
        (Run.checked Machine.alive (Call.apply (evaluateSealed fuel) (.function f) arg))
        (Call.apply (evaluate fuel) (.function f) arg) m :=
      sealedWalk.couples_answer he (sealedWalk.agree he fuel) hm
    exact (hanswer.congr (if_pos halive).symm rfl).weaken fun _ _ _ _ _ => trivial
  rw [sealedWalk.eq_leaving (hcouples he) h,
    sealedWalk.eq_of_couples (hcouples .keep) h]

end Linewise
