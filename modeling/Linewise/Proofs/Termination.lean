import Linewise.Proofs.Descent
import Linewise.Proofs.Watch
import Mathlib.Data.Prod.Lex

/-!
# Programs without loops end

Whatever a group evaluates on the way is found in a smaller place (`Group.place`):

* what is called is one call deeper, of which there are at most `Machine.maxDepth`;
* at the same depth, a block that is captured has fewer statements than were left where
  it was captured;
* with the same statements left, the groups in a group are smaller.

So every statement of a program without loops comes to a result, in any state that the
program comes to by such statements (`loopless_statement_ends`). There is no other way out
of a recursion without end than the limit on nested calls, at which they are refused.
-/

namespace Linewise

open Coupling looplessCoupling Filter

variable {m m' : Machine} {g g' : Group}

/-! ## Places -/

/-- The place where a group is evaluated: how many more calls may be nested, how many
    statements are left of the running block, and the size of the group. -/
noncomputable def Group.place (m : Machine) (g : Group) : ℕ ×ₗ ℕ∞ ×ₗ ℕ :=
  toLex (Machine.maxDepth - m.depth, toLex (m.left, sizeOf g))

namespace Group

theorem place_lt_of_depth (hlt : m.depth < Machine.maxDepth) (hd : m'.depth = m.depth + 1) :
    g'.place m' < g.place m := by
  refine Prod.Lex.toLex_lt_toLex.2 (.inl ?_)
  show Machine.maxDepth - m'.depth < Machine.maxDepth - m.depth
  omega

theorem place_lt_of_left (hd : m'.depth = m.depth) (hl : m'.left < m.left) :
    g'.place m' < g.place m := by
  refine Prod.Lex.toLex_lt_toLex.2 (.inr ⟨congrArg (Machine.maxDepth - ·) hd, ?_⟩)
  exact Prod.Lex.toLex_lt_toLex.2 (.inl hl)

theorem place_lt_of_size (hk : m.Kept m') (hg : sizeOf g' < sizeOf g) :
    g'.place m' < g.place m := by
  rcases hk.left_le.lt_or_eq with hlt | heq
  · exact place_lt_of_left hk.depth hlt
  · refine Prod.Lex.toLex_lt_toLex.2 (.inr ⟨congrArg (Machine.maxDepth - ·) hk.depth, ?_⟩)
    exact Prod.Lex.toLex_lt_toLex.2 (.inr ⟨heq, hg⟩)

end Group

/-! ## Watched evaluations -/

/-- Where the machine is without loops, all checks are passed. -/
structure Watch.PassesLoopless (w : Watch) : Prop where
  group : ∀ {m}, m.Loopless → w.group m = true := by intros; rfl
  opens : ∀ {m}, m.Loopless → w.opens m = true := by intros; rfl
  look : ∀ {m}, m.Loopless → w.look m = true := by intros; rfl
  call : ∀ {c m}, m.Loopless → w.call c m = true := by intros; rfl
  assign : ∀ {m}, m.Loopless → w.assign m = true := by intros; rfl
  overwrite : ∀ {r v m}, m.Loopless → w.overwrite r v m = true := by intros; rfl

section

variable {C : Coupling} {α : Type} {P : α → Machine → Prop} {check : Machine → Bool}
  {x : Nat → Run α}

theorem Coupling.Ends.checked (h : C.Ends P x m) (hc : check m = true) :
    C.Ends P (fun n => Run.checked check (x n)) m :=
  h.congr (.of_forall fun _ => if_pos hc)

theorem Coupling.Ends.checkedAfter (hC : C.Ordered) (h : C.Ends P x m)
    (hc : ∀ {m'}, C.holds m' → check m' = true) :
    C.Ends P (fun n => Run.checkedAfter check (x n)) m :=
  h.bind hC fun _ _ hm' _ hv => (ends_pure hC hm' hv).checked (hc hm')

end

/-- If all groups end under one evaluation that do under another, so do all parts. -/
theorem Part.Ends.imp {ev ev' : Nat → Group → Run Value}
    (h : ∀ g m, Run.Ends (fun n => ev n g) m → Run.Ends (fun n => ev' n g) m) {p : Part}
    (hp : p.Ends ev m) : p.Ends ev' m := by
  cases p with
  | symbol s => exact hp
  | group g => exact fun m' hm' hk => h g m' (hp m' hm' hk)
  | line g => exact hp
  | block => exact fun g m' hg hm' hd hl => h g m' (hp hg hm' hd hl)

namespace Watch

variable {w : Watch} (hw : w.PassesLoopless)

include hw

theorem ends_statement {ev : Nat → Group → Run Value} (hg : g.Loopless) (hm : m.Loopless)
    (hparts : ∀ p ∈ Statement.parts g, p.Ends ev m) (hdeeper : EndsDeeper ev m.depth) :
    Run.Ends (fun n => w.statement (ev n) n g) m := by
  unfold statement
  split
  · -- The right-hand side and the new value are checked.
    have hgive : ∀ ⦃r v m⦄, m.Loopless → v.Free → Run.Ends (fun _ => w.give r v) m :=
      fun _ _ _ hm hv => (ends_overwrite hm hv).checked (hw.overwrite hm)
    have hsettled : ∀ p ∈ Assignment.parts g.tail, p.Ends (fun n => w.settled (ev n)) m := by
      intro p hp
      refine (hparts p (Statement.mem_parts_of_assignment ‹_› hp)).imp fun g' m' h => ?_
      exact h.checkedAfter ordered hw.assign
    exact ends_assignment hgive hm hsettled
  · have hinner : ∀ p ∈ Statement.parts g, p.Ends (fun n => w.inner g (ev n)) m := by
      refine fun p hp => (hparts p hp).imp fun g' m' h => ?_
      unfold inner
      split
      · exact h.checkedAfter ordered hw.look
      · exact h
    refine Linewise.ends_statement hg.keyword_ne_repetition hm hinner ?_
    intro c arg m' hm' hk hc harg
    have happly := ends_apply (hk.depth ▸ hdeeper) hm' hc harg
    refine (happly.checked (hw.call hm')).checkedAfter ordered fun hm'' => ?_
    rw [hw.look hm'', Bool.true_or]

/-- A group without loops is evaluated to an end. -/
theorem ends_evaluate (hg : g.Loopless) (hm : m.Loopless) :
    Run.Ends (fun n => w.evaluate n g) m := by
  -- By induction on the place. What is known of each part of the group is that it would be
  -- evaluated in a smaller one, wherever the parts before it lead.
  induction hplace : g.place m using WellFoundedLT.induction generalizing g m with
  | ind place ih =>
    subst hplace
    have hend : ∀ {g' m'}, g'.Loopless → m'.Loopless → g'.place m' < g.place m →
        Run.Ends (fun n => w.evaluate n g') m' := fun hg' hm' hlt => ih _ hlt hg' hm' rfl
    have hparts : ∀ p ∈ Statement.parts g, p.Ends w.evaluate m := by
      intro p hp
      have hwithin := Statement.within_of_parts hp
      cases p with
      | symbol s => exact hg.symbol hwithin
      | line g' => exact hg.within hwithin
      | group g' =>
        exact fun m' hm' hk => hend (hg.within hwithin) hm'
          (Group.place_lt_of_size hk (Statement.sizeOf_lt_of_parts hp))
      | block => exact fun g' m' hg' hm' hd hl => hend hg' hm' (Group.place_lt_of_left hd hl)
    have hdeeper : EndsDeeper w.evaluate m.depth := fun hlt g' m' hg' hm' hd =>
      hend hg' hm' (Group.place_lt_of_depth hlt hd)
    refine .of_succ ((ends_statement hw hg hm hparts hdeeper).checked ?_)
    rw [hw.group hm, hw.look hm, hw.opens hm, Bool.or_true]
    rfl

theorem ends_evaluateLine {line : String} (hline : Statement.Loopless line) (hm : m.Loopless) :
    Run.Ends (fun n => Call.evaluateLine (w.evaluate n) line) m :=
  Linewise.ends_evaluateLine hm fun g hg => ends_evaluate hw (hline g hg) hm

end Watch

open Classical in
/-- Calls are not nested too deep and no bound is reached, wherever a group is evaluated,
    variables are looked up or given a value, or something is called. -/
noncomputable def boundedWatch : Watch where
  group m := decide (m.depth ≤ Machine.maxDepth ∧ m.memory.Unbounded)
  look m := decide (m.depth ≤ Machine.maxDepth ∧ m.memory.Unbounded)
  call _ m := decide (m.depth ≤ Machine.maxDepth ∧ m.memory.Unbounded)
  assign m := decide (m.depth ≤ Machine.maxDepth ∧ m.memory.Unbounded)

open Classical in
theorem boundedWatch_passesLoopless : boundedWatch.PassesLoopless where
  group hm := decide_eq_true ⟨hm.depth, hm.memory.unbounded⟩
  look hm := decide_eq_true ⟨hm.depth, hm.memory.unbounded⟩
  call hm := decide_eq_true ⟨hm.depth, hm.memory.unbounded⟩
  assign hm := decide_eq_true ⟨hm.depth, hm.memory.unbounded⟩

/-! ## Programs -/

variable {source : Source} {files : Files} {world : World} {strict : Bool} {line : String}

theorem Machine.loopless_start (hsource : source.Loopless) (hfiles : files.Loopless) :
    Machine.Loopless { Machine.start source files world with strict } where
  memory := Memory.holding_initial trivial fun _ => trivial
  cursors := nofun
  source := hsource
  suspended := nofun
  files := hfiles
  depth := Nat.zero_le _

namespace Interpreter

theorem loopless_withoutFinished {suspended : List Source} (hsource : source.Loopless)
    (hsuspended : ∀ s ∈ suspended, s.Loopless) :
    (withoutFinished source suspended).1.Loopless ∧
      ∀ s ∈ (withoutFinished source suspended).2, s.Loopless := by
  fun_induction withoutFinished source suspended with
  | case1 s suspended ih =>
    rw [List.forall_mem_cons] at hsuspended
    exact ih hsuspended.1 hsuspended.2
  | case2 => exact ⟨hsource, hsuspended⟩

theorem loopless_readStatement (hm : m.Loopless) : (readStatement.after m).Loopless := by
  obtain ⟨hsource, hsuspended⟩ := loopless_withoutFinished hm.source hm.suspended
  have hfinished : m.settled.Loopless := { hm with source := hsource, suspended := hsuspended }
  exact (ends_readLine hfinished).holds_after

theorem loopless_afterFault (hm : m.Loopless) : (afterFault m).Loopless := by
  unfold afterFault
  split
  · exact { hm with }
  · exact hm

/-- A statement without loops comes to a result. -/
theorem ends_interpret (hline : Statement.Loopless line) (hm : m.Loopless) :
    ∃ result m', m'.Loopless ∧ ∀ᶠ n in atTop, interpret n line m = .ok result m' := by
  have hend := Watch.ends_evaluateLine (w := {}) {} hline hm
  simp only [Watch.evaluate_unwatched] at hend
  cases hend with
  | @ok v m' hx hm' =>
    refine ⟨.ok v, m', hm', hx.mono fun n hn => ?_⟩
    rw [interpret, hn]
  | @fault f m' hx hm' =>
    refine ⟨.error (exception m' f), afterFault m', loopless_afterFault hm', hx.mono fun n hn => ?_⟩
    rw [interpret, hn]

/-- The machines that a program comes to from `m`, by reading lines and by statements that
    end, on lines that satisfy `P`. -/
inductive Completes (P : String → Prop) (m : Machine) : Machine → Prop
  | refl : Completes P m m
  | read {m' : Machine} : Completes P m m' → Completes P m (readStatement.after m')
  | statement {m' m'' : Machine} {line : String} {result : Result} (fuel : Nat) :
      Completes P m m' → P line → interpret fuel line m' = .ok result m'' → Completes P m m''

theorem Completes.loopless {m₀ : Machine} (h : Completes Statement.Loopless m₀ m)
    (hm₀ : m₀.Loopless) : m.Loopless := by
  induction h with
  | refl => exact hm₀
  | read _ ih => exact loopless_readStatement ih
  | @statement m' m'' line result fuel _ hline hrun ih =>
    -- The statement does the same with as much fuel as it takes to know what it leaves.
    obtain ⟨_, m₁, hm₁, hend⟩ := ends_interpret hline ih
    obtain ⟨n, hn, hle⟩ := (hend.and (eventually_ge_atTop fuel)).exists
    rw [interpret_of_le hle hrun] at hn
    cases hn
    exact hm₁

end Interpreter

/-- Every statement without loops ends, whatever statements without loops a program
    consists of: with enough fuel it comes to a result, and on the way calls are not
    nested too deep and no bound is reached. At the limit, nested calls are refused. -/
theorem loopless_statement_ends (hsource : source.Loopless) (hfiles : files.Loopless)
    (hm : Interpreter.Completes Statement.Loopless
      { Machine.start source files world with strict } m) (hline : Statement.Loopless line) :
    (∃ fuel result m', ∀ k ≥ fuel, Interpreter.interpret k line m = .ok result m' ∧
      Call.evaluateLine (boundedWatch.evaluate k) line m =
        Call.evaluateLine (evaluate k) line m) ∧
    (∀ ev c arg m₁, Machine.maxDepth ≤ m₁.depth → c.Nested arg m₁ →
      ∃ f m₂, Call.apply ev c arg m₁ = .error (.fault f) m₂ ∧
        f.report.kind = .control ∧ f.report.message = "Maximum recursion depth exceeded") := by
  refine ⟨?_, fun ev c arg m₁ hd hc => ?_⟩
  · have hloopless := hm.loopless (Machine.loopless_start hsource hfiles)
    obtain ⟨result, m', -, hend⟩ := Interpreter.ends_interpret hline hloopless
    obtain ⟨fuel, hend⟩ := eventually_atTop.1 hend
    have hbounded := boundedWatch.ends_evaluateLine boundedWatch_passesLoopless hline hloopless
    obtain ⟨fuel', r, hbounded, hr⟩ := hbounded.exists_forall_ge
    refine ⟨max fuel fuel', result, m', fun k hk => ⟨hend k (by omega), ?_⟩⟩
    refine boundedWatch.evaluateLine_eq fun m₁ hout => hr m₁ ?_
    rw [← hbounded k (by omega), hout]
  · obtain ⟨m₂, hrefused⟩ := Call.apply_of_maxDepth hd hc
    exact ⟨_, m₂, hrefused, rfl, rfl⟩

/-- A function and a block that do nothing but call each other are refused in the end. -/
theorem loopless_statement_ends_recursion :
    let m₀ := Machine.start (.script [.ok "  f(b)", .ok "end"]) (fun _ => .error .notFound)
      (mkStdGen 0)
    ∃ m, Interpreter.Completes Statement.Loopless m₀ m ∧
      ∃ fuel result m', (∀ k ≥ fuel, Interpreter.interpret k "f(b)" m = .ok result m') ∧
        Interpreter.textOf m' result =
          "*** Warning! Maximum recursion depth exceeded on line 2 (more than 64 nested calls)" := by
  intro m₀
  have hsource : Source.Loopless (.script [.ok "  f(b)", .ok "end"]) := by
    simp only [Source.Loopless, List.mem_cons, List.not_mem_nil, or_false, Except.ok.injEq]
    rintro line (rfl | rfl) <;> decide +kernel
  have hfiles : Files.Loopless fun _ => .error .notFound := nofun
  have hblock : Statement.Loopless "let b = begin" := by decide +kernel
  have hfunction : Statement.Loopless "let f(b) = b(0)" := by decide +kernel
  have hcall : Statement.Loopless "f(b)" := by decide +kernel
  have hrun : ((Interpreter.interpret 9 "let b = begin").value? m₀).bind (fun r =>
      ((Interpreter.interpret 9 "let f(b) = b(0)").value? r.2).bind fun r =>
        ((Interpreter.interpret 300 "f(b)").value? r.2).map fun r =>
          Interpreter.textOf r.2 r.1) =
      some "*** Warning! Maximum recursion depth exceeded on line 2 (more than 64 nested calls)" := by
    revert m₀
    decide +kernel
  simp only [Option.bind_eq_some_iff, Option.map_eq_some_iff, Prod.exists,
    Run.value?_eq_some_iff] at hrun
  obtain ⟨_, m₁, hdefined₁, _, m, hdefined, result, m₂, hrefused, htext⟩ := hrun
  have hm : Interpreter.Completes Statement.Loopless m₀ m :=
    .statement 9 (.statement 9 .refl hblock hdefined₁) hfunction hdefined
  obtain ⟨⟨fuel, result', m', hend⟩, -⟩ := loopless_statement_ends hsource hfiles hm hcall
  -- The statement does what it does with as much fuel as it was tried with.
  have heq := (hend (max fuel 300) (by omega)).1.symm.trans
    (Interpreter.interpret_of_le (by omega) hrefused)
  cases heq
  exact ⟨m, hm, fuel, result, m₂, fun k hk => (hend k hk).1, htext⟩

end Linewise
