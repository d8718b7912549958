import Linewise.Proofs.Plain
import Linewise.Proofs.Replay

/-!
# Programs in a block

A program that runs through can become the body of a construct, if it is clear
from the lines that it evaluates how many bodies follow them (`Statement.Plain`),
and all its lines may stand in a body (`Statement.Nests`). With a last line `end`
it is captured as a whole (`program_enclosed`). In general this fails: the capture
counts a `begin` that the evaluation does not get to
(`skipped_begin_not_enclosed`).

The evaluation is followed statement by statement. After each of them the
capture is at level zero again:

* a statement that opens no body leaves the source as it is (`Machine.Stays`),
  and the capture stays where it is;
* a statement that opens a body takes one block from the source
  (`Machine.TakesBody`), and the capture goes one level deeper and over the lines
  of this block (`Capture.through?_of_run`).

That the source stays as it is where no body is opened is `replayWalk` again,
for programs that capture blocks only in blocks (`stillWalk`).
-/

namespace Linewise

/-- Along this walk the source stays as it is. -/
abbrev stillWalk : Walk :=
  replayWalk True .directory 0

namespace Machine

/-- No line has been taken from the source. -/
structure Stays (m m' : Machine) : Prop where
  fits : m'.Fits True
  cursors : m'.cursors = []
  source : m'.source = m.source

/-- One body has been taken from the source. -/
structure TakesBody (m m' : Machine) : Prop where
  fits : m'.Fits True
  cursors : m'.cursors = []
  source : ∃ lines elseAllowed b, m.source = .ofLines lines ∧
    (Block.capture elseAllowed lines).block = .ok b ∧
    m'.source = .ofLines (Block.capture elseAllowed lines).rest

variable {m m₁ m₂ m' : Machine}

theorem Stays.trans (h₁ : Stays m m₁) (h₂ : Stays m₁ m₂) : Stays m m₂ :=
  ⟨h₂.fits, h₂.cursors, h₂.source.trans h₁.source⟩

theorem Stays.takesBody (h₁ : Stays m m₁) (h₂ : TakesBody m₁ m₂) : TakesBody m m₂ :=
  ⟨h₂.fits, h₂.cursors, h₁.source ▸ h₂.source⟩

theorem TakesBody.stays (h₁ : TakesBody m m₁) (h₂ : Stays m₁ m₂) : TakesBody m m₂ :=
  ⟨h₂.fits, h₂.cursors, h₂.source ▸ h₁.source⟩

theorem stays_of_couples {α : Type} {P : α → Machine → Prop} {x y : Run α} (hc : m.cursors = [])
    (h : stillWalk.Couples P x y m) {v : α} (hx : x m = .ok v m') : m.Stays m' ∧ P v m' := by
  obtain ⟨-, hfits, ⟨hlength, hsource⟩, hv⟩ := h.ok hx
  rw [hc] at hlength
  exact ⟨⟨hfits, List.eq_nil_of_length_eq_zero hlength, hsource trivial⟩, hv⟩

theorem takesBody_of_capture {elseAllowed : Bool} {b : Block} (hm : m.Fits True)
    (hc : m.cursors = []) (h : Run.captureBlock elseAllowed m = .ok b m') :
    m.TakesBody m' ∧ b.Fits True := by
  obtain ⟨lines, hsource, hlines⟩ := hm.source
  rw [Run.captureBlock_of_source hc hsource] at h
  cases hb : (Block.capture elseAllowed lines).block with
  | error f =>
    rw [hb] at h
    cases h
  | ok b' =>
    rw [hb] at h
    cases h
    refine ⟨⟨⟨hm.memory, hm.cursors, _, rfl, fun line hline => hlines line ?_⟩, hc, ?_⟩, ?_⟩
    · exact Capture.run_rest_suffix.subset hline
    · exact ⟨lines, elseAllowed, _, hsource, hb, rfl⟩
    · exact Block.fits_of_capture hlines hb

end Machine

open Machine

/-- A step after which nothing more is taken from the source. -/
theorem Machine.TakesBody.andThen {m m₁ m' : Machine} {x : Run Value} {v : Value}
    (h : m.TakesBody m₁) (hx : stillWalk.Couples stillWalk.value x x m₁) (hv : x m₁ = .ok v m') :
    m.TakesBody m' ∧ v.Readless :=
  have ⟨hstays, hv⟩ := stays_of_couples h.cursors hx hv
  ⟨h.stays hstays, hv.1⟩

/-! ## Constructs with a body -/

section

variable {ev : Group → Run Value} {m m' : Machine} {v : Value} {g : Group}

theorem group_of_settled (hr : g.Readless) (hs : g.Settled false) (m : Machine) :
    stillWalk.group g m :=
  ⟨false, ⟨hr, fun _ => hs⟩, fun _ => nofun⟩

theorem opening_takesBody (hm : m.Fits True) (hc : m.cursors = [])
    (h : Statement.opening [] m = .ok v m') : m.TakesBody m' ∧ v.Readless := by
  obtain ⟨b, m₁, hcapture, h⟩ := Run.bind_eq_ok.1 h
  obtain ⟨htakes, hb⟩ := takesBody_of_capture hm hc hcapture
  cases h
  refine ⟨htakes.stays ⟨?_, htakes.cursors, rfl⟩, trivial⟩
  exact htakes.fits.of_memory (htakes.fits.memory.addBlock hb)

variable (hev : stillWalk.Agree ev ev)

include hev

theorem stays_of_condition {test : Group} {b : Bool} (hm : m.Fits True) (hc : m.cursors = [])
    (htest : stillWalk.group test m) (h : Statement.condition ev test m = .ok b m') :
    m.Stays m' :=
  (stays_of_couples hc (Walk.couples_condition replayWalk.lawful hev hm htest) h).1

theorem conditional_takesBody {test : Group}
    (hg : Statement.conditionAndBody .conditional g = .ok (test, [])) (hm : m.Fits True)
    (hc : m.cursors = []) (htest : stillWalk.group test m)
    (h : Statement.conditional ev g m = .ok v m') : m.TakesBody m' ∧ v.Readless := by
  -- The condition takes nothing, then the body is taken, and running it takes
  -- nothing either, since it captures its blocks from itself.
  rw [Statement.conditional, hg, Run.ofExcept_ok_bind] at h
  obtain ⟨b, m₁, htested, h⟩ := Run.bind_eq_ok.1 h
  have hstays := stays_of_condition hev hm hc htest htested
  obtain ⟨block, m₂, hcapture, h⟩ := Run.bind_eq_ok.1 h
  obtain ⟨htakes, hb⟩ := takesBody_of_capture hstays.fits hstays.cursors hcapture
  refine (hstays.takesBody htakes).andThen ?_ h
  split
  · exact Walk.couples_runBlock replayWalk.lawful hev htakes.fits hb
  split
  · exact Walk.couples_runBlock replayWalk.lawful hev htakes.fits hb
  · exact Coupling.couples_pure replayWalk.lawful.toOrdered htakes.fits ⟨trivial, trivial⟩

theorem alternative_takesBody {test body first : Group} {last : Item}
    (hg : Statement.conditionAndBody .conditional g = .ok (test, body))
    (hbody : body.span (fun item => !item.isElse) = (first, [last])) (hm : m.Fits True)
    (hc : m.cursors = []) (htest : stillWalk.group test m)
    (hfirst : ∀ m, stillWalk.group first m)
    (h : Statement.conditional ev g m = .ok v m') : m.TakesBody m' ∧ v.Readless := by
  have hne : body.isEmpty = false := by
    cases body with
    | nil => cases hbody
    | cons item body => rfl
  rw [Statement.conditional, hg, Run.ofExcept_ok_bind] at h
  obtain ⟨b, m₁, htested, h⟩ := Run.bind_eq_ok.1 h
  have hstays := stays_of_condition hev hm hc htest htested
  simp only [hne, Bool.false_eq_true, if_false, hbody] at h
  obtain ⟨block, m₂, hcapture, h⟩ := Run.bind_eq_ok.1 h
  obtain ⟨htakes, hb⟩ := takesBody_of_capture hstays.fits hstays.cursors hcapture
  refine (hstays.takesBody htakes).andThen ?_ h
  split
  · exact Walk.couples_optional replayWalk.lawful hev htakes.fits fun p hp =>
      Part.eq_group_of_optional hp ▸ hfirst m₂
  · exact Walk.couples_runBlock replayWalk.lawful hev htakes.fits hb

theorem repetition_takesBody {test : Group} {fuel : Nat}
    (hg : Statement.conditionAndBody .repetition g = .ok (test, [])) (hm : m.Fits True)
    (hc : m.cursors = []) (htest : ∀ m, stillWalk.group test m)
    (h : Statement.repetition ev fuel g m = .ok v m') : m.TakesBody m' ∧ v.Readless := by
  rw [Statement.repetition, hg, Run.ofExcept_ok_bind] at h
  simp only [List.isEmpty_nil, if_true, bind_map_left] at h
  obtain ⟨block, m₁, hcapture, h⟩ := Run.bind_eq_ok.1 h
  obtain ⟨htakes, hb⟩ := takesBody_of_capture hm hc hcapture
  refine htakes.andThen (Coupling.couples_get_bind ?_) h
  exact Walk.couples_loop replayWalk.lawful hev (.inl rfl) htakes.fits (htest m₁) fun m₂ hm₂ _ =>
    Walk.couples_runBlock replayWalk.lawful hev hm₂ hb

omit hev in
/-- The value of the right-hand side is there once its body has been taken. -/
theorem assign_takesBody {target : Target} {body : Group} (hm : m.Fits True) (hc : m.cursors = [])
    (hbody : ∀ {m m' v}, m.Fits True → m.cursors = [] → ev body m = .ok v m' →
      m.TakesBody m' ∧ v.Readless)
    (h : Assignment.assign ev Assignment.overwrite target body m = .ok v m') :
    m.TakesBody m' ∧ v.Readless := by
  obtain ⟨w, m₁, hheld, h⟩ := Run.bind_eq_ok.1 h
  obtain ⟨u, m₂, hevaluated, hread⟩ := Run.bind_eq_ok.1 hheld
  cases hread
  obtain ⟨htakes, hu⟩ := hbody hm hc hevaluated
  have hw : stillWalk.content (m₁.memory.held u) m₁ := replayWalk.lawful.held htakes.fits ⟨hu, trivial⟩
  have hgives : stillWalk.Gives Assignment.overwrite Assignment.overwrite :=
    replayWalk.lawful.gives fun _ _ _ _ => trivial
  refine htakes.andThen ?_ h
  rcases target with s | r
  · refine Coupling.couples_get_bind ?_
    rw [replayWalk.lawful.twin_find? htakes.fits trivial]
    cases m₁.frames.find? s with
    | none => exact Walk.couples_declare replayWalk.lawful htakes.fits trivial hw
    | some r => exact hgives htakes.fits trivial trivial hw
  · exact hgives htakes.fits trivial trivial hw

theorem assignment_takesBody {head body : Group} {eq : Item}
    (hg : g.span (fun item => !item.isSymbol "=") = (head, eq :: body))
    (hname : Assignment.hasParameters head = false) (hm : m.Fits True) (hc : m.cursors = [])
    (hhead : ∀ p ∈ head.flatMap Part.ofItem, stillWalk.part p m)
    (hbody : ∀ {m m' v}, m.Fits True → m.cursors = [] → ev body m = .ok v m' →
      m.TakesBody m' ∧ v.Readless)
    (h : Assignment.run ev Assignment.overwrite g m = .ok v m') : m.TakesBody m' ∧ v.Readless := by
  have hlead : stillWalk.LeadTo stillWalk.assigns ev ev := fun g m hm hg =>
    (hev hm hg).weaken fun v m' _ _ hv => ⟨hv, trivial⟩
  rw [Assignment.run] at h
  rw [hg] at h
  rcases head with _ | ⟨item, head⟩
  · cases h
  obtain ⟨row, m₁, hreduce, h⟩ := Run.bind_eq_ok.1 h
  obtain ⟨hstays, hrow, -, hdefine⟩ :=
    stays_of_couples hc (Walk.couples_head replayWalk.lawful hlead hm trivial hhead) hreduce
  rcases row with _ | ⟨t, rest⟩
  · cases h
  obtain ⟨target, m₂, htarget, h⟩ := Run.bind_eq_ok.1 h
  have hfound := Walk.couples_target replayWalk.lawful hlead hstays.fits
    (hrow t List.mem_cons_self)
  obtain ⟨hstays₂, -⟩ := stays_of_couples hstays.cursors hfound htarget
  have hstays := hstays.trans hstays₂
  -- Without parameters in the head, nothing is left of it but the target.
  rcases rest with _ | ⟨u, rest⟩
  · dsimp only at h
    split at h
    · cases h
    · obtain ⟨htakes, hv⟩ := assign_takesBody hstays.fits hstays.cursors hbody h
      exact ⟨hstays.takesBody htakes, hv⟩
  cases u with
  | symbol s => cases h
  | value v => cases h
  | group parameters =>
    rw [hdefine t parameters rest rfl] at hname
    cases hname

omit hev in
theorem directive_takesBody (hm : m.Fits True) (hc : m.cursors = [])
    (hbody : ∀ {m m' v}, m.Fits True → m.cursors = [] → ev g.tail m = .ok v m' →
      m.TakesBody m' ∧ v.Readless)
    (h : Statement.directive ev g m = .ok v m') : m.TakesBody m' ∧ v.Readless := by
  rw [Statement.directive] at h
  split at h
  · cases h
  split at h
  · cases h
  obtain ⟨w, m₁, hevaluated, h⟩ := Run.bind_eq_ok.1 h
  obtain ⟨htakes, -⟩ := hbody hm hc hevaluated
  obtain ⟨u, m₂, hread, h⟩ := Run.bind_eq_ok.1 h
  have hm₂ : m₂ = m₁ := by
    rw [Run.reading] at hread
    split at hread <;> cases hread
    rfl
  subst hm₂
  cases u with
  | boolean strict =>
    obtain ⟨_, m₃, hset, h⟩ := Run.bind_eq_ok.1 h
    cases hset
    obtain ⟨_, m₄, hwrite, h⟩ := Run.bind_eq_ok.1 h
    cases h
    obtain ⟨world, output, rfl⟩ := Run.of_write hwrite
    have hfits := htakes.fits
    exact ⟨htakes.stays ⟨⟨hfits.memory, hfits.cursors, hfits.source⟩, htakes.cursors, rfl⟩, trivial⟩
  | _ => cases h

end

theorem readless_of_conditionAndBody {k : Keyword} {item : Item} {g test body : Group}
    (hr : Group.Readless (item :: g)) (hg : Statement.conditionAndBody k g = .ok (test, body)) :
    test.Readless ∧ body.Readless := by
  obtain ⟨htest, hbody⟩ := Statement.sublist_of_conditionAndBody hg
  exact ⟨fun i hi => hr i (List.mem_cons_of_mem item (htest.mem hi)),
    fun i hi => hr i (List.mem_cons_of_mem item (hbody.mem hi))⟩

/-- What opens a body takes it from the source, whatever it does besides. -/
theorem evaluate_takesBody {g : Group} (hg : g.OpensBody) (hr : g.Readless) {fuel : Nat}
    {m m' : Machine} {v : Value} (hm : m.Fits True) (hc : m.cursors = [])
    (h : evaluate fuel g m = .ok v m') : m.TakesBody m' ∧ v.Readless := by
  -- By induction on the fuel: the right-hand side of an assignment may open the
  -- body itself, and so may what a directive is given.
  induction fuel generalizing g m m' v with
  | zero => cases h
  | succ fuel ih =>
    have hev : stillWalk.Agree (evaluate fuel) (evaluate fuel) := replayWalk.agree_evaluate fuel
    have hsub : ∀ {g g' : Group}, g' ⊆ g → g.Readless → g'.Readless :=
      fun hg hr i hi => hr i (hg hi)
    rw [evaluate] at h
    cases hg with
    | opening hk =>
      simp only [Statement.statement, hk] at h
      exact opening_takesBody hm hc h
    | @conditional item g test hk hg htest =>
      simp only [Statement.statement, hk] at h
      obtain ⟨htest', -⟩ := readless_of_conditionAndBody hr hg
      exact conditional_takesBody hev hg hm hc (group_of_settled htest' htest m) h
    | @alternative item last g test body first hk hg hbody htest hfirst =>
      simp only [Statement.statement, hk] at h
      obtain ⟨htest', hbody'⟩ := readless_of_conditionAndBody hr hg
      have hfirst' := hsub (Part.sublist_of_span hbody).1.subset hbody'
      exact alternative_takesBody hev hg hbody hm hc (group_of_settled htest' htest m)
        (group_of_settled hfirst' hfirst) h
    | @repetition item g test hk hg htest =>
      simp only [Statement.statement, hk] at h
      obtain ⟨htest', -⟩ := readless_of_conditionAndBody hr hg
      exact repetition_takesBody hev hg hm hc (group_of_settled htest' htest) h
    | @assignment item eq g head body hk hg hname hhead hbody =>
      simp only [Statement.statement, hk] at h
      have hr' := hsub (List.subset_cons_self item g) hr
      obtain ⟨hhead', hbody'⟩ := Part.sublist_of_span hg
      have hbody'' := ((List.sublist_cons_self eq body).trans hbody').subset
      refine assignment_takesBody hev hg hname hm hc (fun p hp => ?_)
        (fun hm hc h => ih hbody (hsub hbody'' hr') hm hc h) h
      obtain ⟨i, hi, hp⟩ := List.mem_flatMap.1 hp
      have hi' := hr' i (hhead'.mem hi)
      cases i with
      | symbol s => exact List.mem_singleton.1 hp ▸ hi'
      | text s => exact absurd hp List.not_mem_nil
      | group g' =>
        exact List.mem_singleton.1 hp ▸ group_of_settled (Item.readless_group.1 hi') (hhead g' hi) m
    | @directive item g hk hg =>
      simp only [Statement.statement, hk] at h
      have hg' := List.Subset.trans (List.tail_sublist g).subset (List.subset_cons_self item g)
      have hr' := hsub hg' hr
      exact directive_takesBody hm hc (fun hm hc h => ih hg hr' hm hc h) h

/-! ## Statements -/

/-- A statement does not start with `else`. -/
theorem evaluate_of_startsWithElse {g : Group} {keyword : String}
    (hk : Capture.startsWithElse? g = some keyword) {fuel : Nat} {m m' : Machine} {v : Value} :
    evaluate fuel g m ≠ .ok v m' := by
  obtain ⟨rest, rfl, hkeyword⟩ := Capture.startsWithElse?_eq_some hk
  intro h
  cases fuel with
  | zero => cases h
  | succ fuel =>
    have hsymbol : ∀ k : Keyword, Group.keyword? (.symbol k.symbol :: rest) = some k :=
      Keyword.ofSymbol?_symbol
    rw [evaluate] at h
    rcases hkeyword with rfl | rfl <;> simp only [Statement.statement, hsymbol] at h <;> cases h

/-- A plain line takes as many bodies as a capture expects. -/
theorem evaluateLine_plain {line : String} (hline : Statement.Plain line) {fuel : Nat}
    {m m' : Machine} {v : Value} (hm : m.Fits True) (hc : m.cursors = [])
    (hfits : Statement.Fits True line)
    (h : Call.evaluateLine (evaluate fuel) line m = .ok v m') {c : Capture} (hl : c.level = 0) :
    (m.Stays m' ∧ c.step line = .more (c.push (Text.trim line))) ∨
      (m.TakesBody m' ∧ c.step line = .more { c.push (Text.trim line) with level := 1 }) := by
  rw [Call.evaluateLine] at h
  split at h
  · rename_i hempty
    cases h
    refine .inl ⟨⟨hm, hc, rfl⟩, Capture.step_of_nil ?_⟩
    rw [String.isEmpty_iff.1 hempty]
    rfl
  obtain ⟨g, m₁, hparsed, h⟩ := Run.bind_eq_ok.1 h
  cases hg : Group.ofLine (Text.trim line) with
  | error f =>
    rw [hg] at hparsed
    cases hparsed
  | ok g' =>
    rw [hg] at hparsed
    cases hparsed
    have hr := (hfits g hg).readless
    have hk : Capture.startsWithElse? g = none :=
      Option.eq_none_iff_forall_ne_some.2 fun _ hk => evaluate_of_startsWithElse hk h
    have hstep : g.count Keyword.closing.symbol = 0 → Capture.opened g ≤ 1 →
        c.step line = .more { c.push (Text.trim line) with level := Capture.opened g } := by
      intro hend ho
      have hb : g.count Keyword.opening.symbol ≤ 1 := by
        rw [Capture.opened] at ho
        omega
      rw [Capture.step_within hg hk (hend ▸ Nat.zero_le _) hb, hend, hl, Nat.zero_add, Nat.sub_zero]
    cases hline g hg with
    | single hend ho hs =>
      obtain ⟨hstays, -⟩ := stays_of_couples hc
        (replayWalk.agree_evaluate fuel hm (group_of_settled hr hs m)) h
      refine .inl ⟨hstays, ?_⟩
      rw [hstep hend (ho ▸ Nat.zero_le 1), ho, ← hl]
      rfl
    | opening hend ho hb =>
      refine .inr ⟨(evaluate_takesBody hb hr hm hc h).1, ?_⟩
      rw [hstep hend (Nat.le_of_eq ho), ho]

/-! ## Programs -/

/-- The lines of the source are evaluated one after the other, to its end, and no
    statement fails. The lines that are not taken as part of a body satisfy `P`. -/
inductive Interpreter.RunsThrough (P : String → Prop) : Machine → Prop
  | done {m m' : Machine} (hread : Run.readLine m = .ok none m') : RunsThrough P m
  | step {m before after : Machine} {line : String} {v : Value} (fuel : Nat)
      (hread : Run.readLine m = .ok (some line) before) (hline : P line)
      (hrun : interpret fuel line before = .ok (.ok v) after) (hrest : RunsThrough P after) :
      RunsThrough P m

/-- A capture goes over a program that runs through on plain lines. -/
theorem Interpreter.RunsThrough.through? {m : Machine} (h : RunsThrough Statement.Plain m)
    (hm : m.Fits True) (hc : m.cursors = []) {lines : List String} (hs : m.source = .ofLines lines)
    (hlines : ∀ line ∈ lines, Statement.Nests line) {c : Capture} (hl : c.level = 0) :
    c.through? lines = some (c.pushAll lines) := by
  -- By induction on the run. After each statement the capture is at level zero again,
  -- and has taken the same lines.
  induction h generalizing lines c with
  | done hread =>
    rw [Run.readLine, hs] at hread
    cases lines with
    | nil => rfl
    | cons line lines => cases hread
  | @step m before after line v fuel hread hline hrun hrest ih =>
    obtain ⟨lines', hs', hfits⟩ := hm.source
    obtain rfl := Source.ofLines_inj (hs.symm.trans hs')
    rw [Run.readLine, hs] at hread
    cases lines with
    | nil => cases hread
    | cons line lines =>
      cases hread
      rw [List.forall_mem_cons] at hlines hfits
      have hbefore : Machine.Fits True { m with source := .ofLines lines, line := m.line + 1 } :=
        ⟨hm.memory, hm.cursors, lines, rfl, hfits.2⟩
      have hrun := evaluateLine_of_interpret hrun
      rw [Capture.through?]
      rcases evaluateLine_plain hline hbefore hc hfits.1 hrun hl with
        ⟨hstays, hstep⟩ | ⟨htakes, hstep⟩
      · rw [hstep, Capture.pushAll_cons]
        exact ih hstays.fits hstays.cursors hstays.source hlines.2 hl
      · -- What the statement took of the lines, the capture goes over one level deeper.
        obtain ⟨rest, elseAllowed, b, hrest, hb, hsource⟩ := htakes.source
        obtain rfl := Source.ofLines_inj hrest
        obtain ⟨taken, htaken, hthrough⟩ := Capture.through?_of_run
          { c.push (Text.trim line) with level := 1 } hlines.2 rfl hb
        have hrest : ∀ line ∈ (Block.capture elseAllowed lines).rest, Statement.Nests line :=
          fun line hline => hlines.2 line (Capture.run_rest_suffix.subset hline)
        rw [hstep]
        dsimp only
        rw [htaken, Capture.through?_append hthrough]
        refine (ih htakes.fits htakes.cursors hsource hrest rfl).trans ?_
        simp [Capture.pushAll, Capture.push, hl, Block.capture]

theorem Capture.step_end {c : Capture} (hl : c.level = 0) : c.step "end" = .complete c.finish := by
  have hg : Group.ofLine (Text.trim "end") = .ok [.symbol "end"] := rfl
  rw [step_of_closing hg rfl rfl rfl, if_pos hl]

/-- A program that runs through can be the body of a construct, if it is clear from
    the lines that it evaluates how many bodies follow, and all lines may stand in a
    body: a block is captured from them and one more line, `end`, and has all of
    them as its statements. -/
theorem program_enclosed {lines : List String} {files : Files} {world : World}
    (hreadless : ∀ line ∈ lines, Statement.Readless line)
    (hnests : ∀ line ∈ lines, Statement.Nests line)
    (hruns : Interpreter.RunsThrough Statement.Plain
      (Machine.start (.ofLines lines) files world)) :
    Block.capture false (lines ++ ["end"]) =
      { block := .ok ⟨lines.map Text.trim, none, false⟩
        rest := []
        read := lines.length + 1 } := by
  have hfits : ∀ line ∈ lines, Statement.Fits True line := fun line hline g hg =>
    ⟨(hreadless line hline g hg).readless, fun _ => (hnests line hline g hg).2⟩
  have hstart : (Machine.start (.ofLines lines) files world).Fits True :=
    ⟨Memory.fits_initial True, nofun, lines, rfl, hfits⟩
  have hthrough := hruns.through? hstart rfl rfl hnests (c := Capture.start false) rfl
  rw [Block.capture, Capture.run_of_through? hthrough, Capture.run]
  dsimp only
  rw [Capture.step_end rfl]
  simp [Capture.finish, Capture.pushAll, Capture.start, Nat.add_comm]

/-- A number, and a block that is given a name. -/
theorem program_enclosed_begin :
    let lines := ["1", "let b = begin", "  2", "end"]
    let m := Machine.start (.ofLines lines) (fun _ => .error .notFound) (mkStdGen 0)
    (∀ line ∈ lines, Statement.Readless line) ∧ (∀ line ∈ lines, Statement.Nests line) ∧
      Interpreter.RunsThrough Statement.Plain m ∧
      Block.capture false (lines ++ ["end"]) =
        { block := .ok ⟨lines.map Text.trim, none, false⟩, rest := [], read := 5 } := by
  intro lines m
  have hreadless : ∀ line ∈ lines, Statement.Readless line := by decide +kernel
  have hnumber : ∀ s, Statement.parts [.symbol s] = [.symbol s] →
      Capture.startsWithElse? [.symbol s] = none → ∀ inBlock, Group.Settled inBlock [.symbol s] :=
    fun s hparts hk inBlock => Group.settled_of_parts hk (by simp [hparts, Part.Settled])
  have hbegin : Group.Settled true [.symbol "begin"] :=
    Group.settled_of_parts rfl (List.forall_mem_singleton.2 rfl)
  have hnests : ∀ line ∈ lines, Statement.Nests line := by
    simp only [lines, List.forall_mem_cons]
    exact ⟨Statement.nests_of_ofLine [.symbol "1"] rfl (.within rfl (Nat.zero_le _))
        (hnumber "1" rfl rfl true),
      Statement.nests_of_ofLine [.symbol "let", .symbol "b", .symbol "=", .symbol "begin"] rfl
        (.within rfl (Nat.zero_le _))
        (Group.settled_of_parts rfl (List.forall_mem_cons.2
          ⟨trivial, List.forall_mem_singleton.2 hbegin⟩)),
      Statement.nests_of_ofLine [.symbol "2"] rfl (.within rfl (Nat.zero_le _))
        (hnumber "2" rfl rfl true),
      Statement.nests_of_ofLine [.symbol "end"] rfl (.closing rfl rfl rfl)
        (Group.settled_of_parts rfl fun _ hp => absurd hp List.not_mem_nil), List.forall_mem_nil _⟩
  have hone : Statement.Plain "1" :=
    Statement.plain_of_ofLine [.symbol "1"] rfl (.single rfl rfl (hnumber "1" rfl rfl false))
  have hlet : Statement.Plain "let b = begin" :=
    Statement.plain_of_ofLine [.symbol "let", .symbol "b", .symbol "=", .symbol "begin"] rfl
      (.opening rfl rfl (.assignment rfl rfl rfl (by simp) (.opening rfl)))
  have hruns : Interpreter.RunsThrough Statement.Plain m :=
    .step 9 rfl hone rfl (.step 9 rfl hlet rfl (.done rfl))
  exact ⟨hreadless, hnests, hruns, program_enclosed hreadless hnests hruns⟩

/-- The capture counts a `begin` that is never evaluated. -/
theorem skipped_begin_not_enclosed :
    let lines := ["if no, begin"]
    let m := Machine.start (.ofLines lines) (fun _ => .error .notFound) (mkStdGen 0)
    (∀ line ∈ lines, Statement.Readless line) ∧ Interpreter.RunsThrough (fun _ => True) m ∧
      (Block.capture false (lines ++ ["end"])).block = .error .blockNotTerminated := by
  intro lines m
  exact ⟨by decide +kernel, .step 9 rfl trivial rfl (.done rfl), rfl⟩

end Linewise
