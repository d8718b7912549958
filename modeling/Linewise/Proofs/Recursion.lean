import Linewise.Proofs.Loopless
import Linewise.Proofs.Walk

/-!
# Calls that end

In a program without loops a block is run in a smaller place than the one where it
starts: a block that has just been captured has fewer statements than were left there
(`EndsBelow`), and what is called is run one call deeper, of which there are at most
`Machine.maxDepth` (`EndsDeeper`). If evaluations end in smaller places, so do the
running of a block and a call.

* `ends_runBlock`: a block is run, by induction on the statements left;
* `ends_apply`: a call of anything but `read`;
* `Call.apply_of_maxDepth`: at the limit, calls that are nested are refused.
-/

namespace Linewise

open Coupling

/-- An evaluation of a program without loops leaves a machine that is without loops, and
    keeps the calls and the blocks that are running. -/
def looplessCoupling : Coupling where
  twin := id
  holds := Machine.Loopless
  leads := Machine.Kept
  lenient := False

/-- With enough fuel, the step gives a value that is flat, or fails. -/
abbrev Run.Ends (x : Nat → Run Value) (m : Machine) : Prop :=
  looplessCoupling.Ends (fun v _ => v.Flat) x m

namespace looplessCoupling

theorem ordered : looplessCoupling.Ordered where
  refl := Machine.Kept.refl
  trans := Machine.Kept.trans

variable {m : Machine}

/-- A step that changes neither the depth nor the running blocks. -/
theorem step {change : Machine → Machine} (hm : (change m).Loopless)
    (hd : (change m).depth = m.depth) (hc : (change m).cursors = m.cursors) :
    looplessCoupling.Step change m :=
  ⟨hm, ⟨hd, hc ▸ .refl _⟩, rfl⟩

/-! ## Steps -/

theorem ends_write {P : Unit → Machine → Prop} (hm : m.Loopless) (line : String)
    (hP : ∀ m', P () m') : looplessCoupling.Ends P (fun _ => Run.write line) m := by
  obtain ⟨r, world, output, -, h⟩ := Run.write_eq m line
  have hstep : looplessCoupling.Step (fun m => { m with world, output }) m :=
    step { hm with } rfl rfl
  exact ends_of_ofExcept hstep.holds hstep.leads (h m rfl rfl) fun _ _ => hP _

theorem ends_advance (hm : m.Loopless) :
    looplessCoupling.Ends
      (fun line m' => ∀ s, line = some s → Statement.Loopless s ∧ m'.left + 1 ≤ m.left)
      (fun _ => Run.advance) m := by
  obtain ⟨scope, cursors, source, suspended, files, depth, strict, alive, line, output, world⟩ := m
  have hcursors := hm.cursors
  rcases cursors with _ | ⟨_ | ⟨statement, statements⟩, cursors⟩
  · exact .ok (.of_forall fun _ => rfl) hm (.refl _) nofun
  · exact .ok (.of_forall fun _ => rfl) hm (.refl _) nofun
  · simp only [List.forall_mem_cons] at hcursors
    obtain ⟨⟨hstatement, hrest⟩, hcursors⟩ := hcursors
    refine .ok (.of_forall fun _ => rfl)
      { hm with cursors := List.forall_mem_cons.2 ⟨hrest, hcursors⟩ }
      ⟨rfl, .some (List.suffix_cons ..)⟩ fun s hs => ?_
    cases hs
    exact ⟨hstatement, le_refl _⟩

theorem ends_readLine (hm : m.Loopless) :
    looplessCoupling.Ends (fun _ _ => True) (fun _ => Run.readLine) m := by
  have hnext := hm.source.next
  refine ends_of_after ?_ ?_ ?_ fun _ _ _ => trivial
  · intro m' h
    rw [Run.readLine] at h
    split at h <;> cases h
  · rw [Run.after, Run.readLine]
    rcases h : m.source.next with ⟨_ | _ | _, source⟩ <;> rw [h] at hnext
    all_goals exact { hm with source := hnext }
  · obtain ⟨source, line, h⟩ := Run.after_readLine m
    rw [h]
    exact ⟨rfl, .refl _⟩

/-- A block that is captured has no branch with more statements than are left. -/
theorem ends_captureBlock (hm : m.Loopless) (elseAllowed : Bool) :
    looplessCoupling.Ends
      (fun b _ => b.Loopless ∧ ∀ first statements, b.branch first = .ok statements →
        (statements.length : ℕ∞) ≤ m.left)
      (fun _ => Run.captureBlock elseAllowed) m := by
  rcases hc : m.cursors with _ | ⟨statements, cursors⟩
  · have hleft : ∀ statements : List String, (statements.length : ℕ∞) ≤ m.left := by
      intro statements
      rw [Machine.left, hc]
      exact le_top
    have hsource := hm.source
    cases hs : m.source with
    | script lines =>
      rw [hs] at hsource
      refine ends_of_ofExcept ?_ ?_ (Run.captureBlock_of_script hc hs elseAllowed) fun b hb =>
        ⟨?_, fun _ statements _ => hleft statements⟩
      · exact { hm with source := fun line hline => hsource line (Capture.run_rest_suffix.mem hline) }
      · exact ⟨rfl, .refl _⟩
      · refine Statement.lasting_loopless.run (Capture.all_start elseAllowed) ?_ hb
        intro l hl line hread
        cases l with
        | ok line' => exact Except.ok.inj hread ▸ hsource line' hl
        | error e => cases hread
    | directory =>
      refine .fault (f := .sourceFailed .isDirectory) (.of_forall fun _ => ?_) hm (.refl m)
      rw [Run.captureBlock]
      rw [hc, hs]
      rfl
  · have hlines := hm.cursors
    rw [hc, List.forall_mem_cons] at hlines
    refine ends_of_ofExcept ?_ ?_ (Run.captureBlock_of_cursor hc elseAllowed) fun b hb => ⟨?_, ?_⟩
    · refine { hm with cursors := List.forall_mem_cons.2 ⟨fun line hline => ?_, hlines.2⟩ }
      exact hlines.1 line (Capture.run_rest_suffix.mem hline)
    · exact ⟨rfl, hc ▸ .some Capture.run_rest_suffix⟩
    · exact Statement.lasting_loopless.run (Capture.all_start elseAllowed)
        (fun l hl _ hread => Except.ok.inj hread ▸ hlines.1 l hl) hb
    · intro first branch hbranch
      have hle := Capture.length_branch_le hb hbranch
      rw [Machine.left, hc]
      refine Nat.cast_le.2 (Nat.le_trans hle (Nat.le_of_eq (Nat.zero_add _)))

end looplessCoupling

open looplessCoupling

variable {ev : Nat → Group → Run Value} {m : Machine}

/-- Groups are evaluated to an end at the given depth, where fewer statements are left. -/
def EndsBelow (ev : Nat → Group → Run Value) (depth : Nat) (left : ℕ∞) : Prop :=
  ∀ ⦃g m⦄, g.Loopless → m.Loopless → m.depth = depth → m.left < left →
    Run.Ends (fun n => ev n g) m

/-- Groups are evaluated to an end one call deeper, if that is not too deep. -/
def EndsDeeper (ev : Nat → Group → Run Value) (depth : Nat) : Prop :=
  depth < Machine.maxDepth → ∀ ⦃g m⦄, g.Loopless → m.Loopless → m.depth = depth + 1 →
    Run.Ends (fun n => ev n g) m

theorem EndsBelow.mono {depth : Nat} {left left' : ℕ∞} (h : EndsBelow ev depth left)
    (hle : left' ≤ left) : EndsBelow ev depth left' :=
  fun _ _ hg hm hd hl => h hg hm hd (lt_of_lt_of_le hl hle)

/-! ## Lines and blocks -/

theorem ends_evaluateLine {line : String} (hm : m.Loopless)
    (h : ∀ g, Group.ofLine (Text.trim line) = .ok g → Run.Ends (fun n => ev n g) m) :
    Run.Ends (fun n => Call.evaluateLine (ev n) line) m := by
  unfold Call.evaluateLine
  dsimp only
  split
  · exact ends_pure ordered hm trivial
  · refine Ends.bind ordered (ends_ofExcept
      (P := fun g m₁ => m₁ = m ∧ Group.ofLine (Text.trim line) = .ok g) ordered hm
      fun _ hg => ⟨rfl, hg⟩) ?_
    rintro g m₁ - - ⟨rfl, hg⟩
    exact h g hg

theorem ends_replay {level n : Nat} {last : Value} (hend : EndsBelow ev m.depth n)
    (hm : m.Loopless) (hl : m.left ≤ n) (hlast : last.Flat) :
    Run.Ends (fun k => Call.replay (ev k) level n last) m := by
  -- By induction on the number of statements left, of which there are fewer once the
  -- next one has been taken.
  induction n generalizing last m with
  | zero => exact ends_pure ordered hm hlast
  | succ n ih =>
    simp only [Call.replay]
    refine ends_get_bind ?_
    split
    · exact ends_pure ordered hm hlast
    refine (ends_advance hm).bind ordered fun line m₁ hm₁ hk₁ hline => ?_
    cases line with
    | none => exact ends_pure ordered hm₁ hlast
    | some statement =>
      obtain ⟨hstatement, hleft⟩ := hline statement rfl
      have hl₁ : m₁.left ≤ n := by
        have hle := hleft.trans hl
        rw [Nat.cast_succ] at hle
        exact (WithTop.add_le_add_iff_right ENat.one_ne_top).1 hle
      have hlt : (n : ℕ∞) < (n + 1 : Nat) := Nat.cast_lt.2 n.lt_succ_self
      refine (ends_evaluateLine hm₁ fun g hg => ?_).bind ordered fun v m₂ hm₂ hk₂ hv => ?_
      · exact hend (hstatement g hg) hm₁ hk₁.depth (lt_of_le_of_lt hl₁ hlt)
      refine ends_get_bind ?_
      split
      · exact ends_pure ordered hm₂ hv
      · refine ih ?_ hm₂ (hk₂.left_le.trans hl₁) hv
        rw [hk₂.depth, hk₁.depth]
        exact hend.mono hlt.le

/-- A block is run to an end if it has no more statements than may be left. -/
theorem ends_runBlock {b : Block} {first : Bool} {left : ℕ∞} (hend : EndsBelow ev m.depth left)
    (hm : m.Loopless) (hb : b.Loopless)
    (hlength : ∀ statements, b.branch first = .ok statements → (statements.length : ℕ∞) ≤ left) :
    Run.Ends (fun n => Call.runBlock (ev n) b first) m := by
  unfold Call.runBlock
  refine Ends.bind ordered (ends_ofExcept
    (P := fun statements m₁ => m₁ = m ∧ b.branch first = .ok statements) ordered hm
    fun _ hs => ⟨rfl, hs⟩) ?_
  rintro statements m₁ - - ⟨rfl, hs⟩
  refine ends_get_bind ?_
  have hbracket : looplessCoupling.Bracket (fun v _ => Value.Flat v)
      (fun m => { m with cursors := statements :: m.cursors })
      (fun m => { m with cursors := m.cursors.tail }) m₁ :=
    { enter_holds := { hm with cursors := List.forall_mem_cons.2 ⟨hb.branch hs, hm.cursors⟩ }
      enter_twin := rfl
      leave_holds := fun m' hm' _ =>
        { hm' with cursors := fun rest hrest => hm'.cursors rest (List.mem_of_mem_tail hrest) }
      leave_leads := fun m' _ hk => ⟨hk.depth, by rw [hk.cursors.tail_eq]; exact .refl _⟩
      leave_twin := fun _ _ _ => rfl
      leave_result := fun _ _ _ _ hv => hv }
  refine hbracket.ends (ends_replay ?_ hbracket.enter_holds (le_refl _) trivial)
  exact hend.mono (hlength statements hs)

/-! ## Functions -/

/-- No variable holds another one, so what a variable holds is free. -/
theorem ends_held {x : Nat → Run Value} (h : Run.Ends x m) :
    looplessCoupling.Ends (fun v _ => Value.Free v) (fun n => Run.held (x n)) m := by
  refine h.bind ordered fun v m₁ hm₁ _ hv => ?_
  exact ends_reading ordered hm₁ fun w hw => Except.ok.inj hw ▸ hm₁.memory.held hv

theorem ends_nested {x : Nat → Run Value} (hm : m.Loopless)
    (hx : m.depth < Machine.maxDepth → m.deeper.Loopless → Run.Ends x m.deeper) :
    Run.Ends (fun n => Run.nested (x n)) m := by
  by_cases hd : Machine.maxDepth ≤ m.depth
  · exact .fault (f := .tooDeep Machine.maxDepth) (.of_forall fun _ => if_pos hd) hm (.refl m)
  · have hlt := Nat.lt_of_not_le hd
    have hbracket : looplessCoupling.Bracket (fun v _ => Value.Flat v) Machine.deeper
        (fun m => { m with depth := m.depth - 1 }) m :=
      { enter_holds := { hm with depth := hlt }
        enter_twin := rfl
        leave_holds := fun m' hm' _ =>
          { hm' with depth := Nat.le_trans (Nat.sub_le ..) hm'.depth }
        leave_leads := fun m' _ hk => ⟨by rw [hk.depth]; rfl, hk.cursors⟩
        leave_twin := fun _ _ _ => rfl
        leave_result := fun _ _ _ _ hv => hv }
    exact (hbracket.ends (hx hlt hbracket.enter_holds)).congr (.of_forall fun _ => if_neg hd)

/-- A function of the program is called in a frame of its own. -/
theorem ends_called {bindings : List (String × Value)} {x : Nat → Run Value} (hm : m.Loopless)
    (hb : ∀ b ∈ bindings, b.2.Free)
    (hx : ∀ m', m'.Loopless → m.depth < Machine.maxDepth → m'.depth = m.depth + 1 →
      Run.Ends x m') :
    Run.Ends (fun n => Run.held (Run.withFrame bindings (Run.nested (x n)))) m := by
  have hbracket : looplessCoupling.Bracket (fun v _ => Value.Flat v) (·.enterFrame bindings)
      (Machine.leaveFrame (m.enterFrame bindings).frames.level) m :=
    { enter_holds := hm.enterFrame hb
      enter_twin := rfl
      leave_holds := fun m' hm' _ => hm'.leaveFrame _
      leave_leads := fun m' _ hk => by
        obtain ⟨frames, hframes⟩ := m'.leaveFrame_eq (m.enterFrame bindings).frames.level
        obtain ⟨hdepth, hcursors⟩ := hk
        rw [Machine.depth_enterFrame] at hdepth
        rw [Machine.cursors_enterFrame] at hcursors
        rw [hframes]
        exact ⟨hdepth, hcursors⟩
      leave_twin := fun _ _ _ => rfl
      leave_result := fun _ _ _ _ hv => hv }
  have hnested : Run.Ends (fun n => Run.nested (x n)) (m.enterFrame bindings) := by
    refine ends_nested hbracket.enter_holds fun hlt hm' => hx _ hm' ?_ ?_
    · rwa [Machine.depth_enterFrame] at hlt
    · rw [Machine.deeper, Machine.depth_enterFrame]
  have hframe : Run.Ends (fun n => Run.withFrame bindings (Run.nested (x n))) m :=
    (hbracket.ends hnested).congr (.of_forall fun _ => rfl)
  exact (ends_held hframe).weaken fun _ _ _ _ hv => hv.flat

theorem ends_native {b : Builtin} {args : List Value} (hb : b ≠ .read) (hm : m.Loopless)
    (hargs : ∀ v ∈ args, v.Free) : Run.Ends (fun n => Call.native (ev n) b args) m := by
  have harg : (args.headD .nil).Flat := by
    cases args with
    | nil => trivial
    | cons v args => exact (hargs v List.mem_cons_self).flat
  unfold Call.native
  cases b with
  | print =>
    refine ends_get_bind ?_
    refine (ends_write (P := fun _ _ => True) hm _ fun _ => trivial).bind ordered ?_
    exact fun _ m₁ hm₁ _ _ => ends_pure ordered hm₁ trivial
  | read => exact absurd rfl hb
  | readString =>
    have hinput : looplessCoupling.Ends (fun _ _ => True) (fun _ => Run.readInput) m := by
      refine (ends_readLine hm).bind ordered fun line m₁ hm₁ _ _ => ?_
      cases line with
      | none => exact ends_fail ordered hm₁ _
      | some line => exact ends_pure ordered hm₁ trivial
    exact hinput.bind ordered fun line m₁ hm₁ _ _ => ends_pure ordered hm₁ trivial
  | random =>
    refine (ends_reading (P := fun _ _ => True) ordered hm fun _ _ => trivial).bind ordered ?_
    exact fun n m₁ hm₁ _ _ => (step (by exact { hm₁ with }) rfl rfl).ends_modifyGet trivial
  | load =>
    refine (ends_reading (P := fun _ _ => True) ordered hm fun _ _ => trivial).bind ordered ?_
    intro path m₁ hm₁ _ _
    refine ends_get_bind ?_
    cases hfile : m₁.files path with
    | ok source =>
      have hload : (m₁.pushSource source).Loopless :=
        { hm₁ with
          source := hm₁.files path source hfile
          suspended := List.forall_mem_cons.2 ⟨hm₁.source, hm₁.suspended⟩ }
      refine ((step hload rfl rfl).ends_modify (P := fun _ _ => True) trivial).bind ordered ?_
      exact fun _ m₂ hm₂ _ _ => ends_pure ordered hm₂ trivial
    | error reason => exact ends_fail ordered hm₁ _
  | exit =>
    have hexit : looplessCoupling.Step Machine.exitFrame m :=
      step_exitFrame rfl (fun _ => step (hm.of_scope hm.memory) rfl rfl)
        fun _ => step { hm with } rfl rfl
    refine (hexit.ends_modify (P := fun _ _ => True) trivial).bind ordered ?_
    exact fun _ m₁ hm₁ _ _ => ends_pure ordered hm₁ harg

section

variable (hend : EndsDeeper ev m.depth) (hm : m.Loopless)

include hend hm

theorem ends_function {f : FunctionRef} {arg : Value} (hf : f ≠ Registry.builtinRef .read)
    (harg : arg.Flat) : Run.Ends (fun n => Call.function (ev n) f arg) m := by
  unfold Call.function
  refine ends_get_bind ?_
  cases hF : m.memory.registry.get? f with
  | none => exact ends_pure ordered hm trivial
  | some F =>
    have hdefault : ∀ v, some v ∈ F.defaults → v.Free := fun v hv =>
      hm.memory.intact.eq_nil_of_default hF hv ▸ trivial
    refine Ends.bind ordered (ends_reading
      (P := fun bindings m₁ => m₁ = m ∧ ∀ b ∈ bindings, b.2.Free) ordered hm fun bindings hb =>
        ⟨rfl, Function.bind_all (hm.memory.arguments harg) hdefault hb⟩) ?_
    rintro bindings m₁ - - ⟨rfl, hbindings⟩
    have hbody := hm.memory.bodies hF
    have hnative := fun b => hm.memory.intact.eq_builtinRef_of_native (b := b) hF
    generalize F.body = body at hbody hnative ⊢
    cases body with
    | native b =>
      refine (ends_held (ends_native ?_ hm ?_)).weaken fun _ _ _ _ hv => hv.flat
      · rintro rfl
        exact hf (hnative .read rfl)
      · intro v hv
        obtain ⟨b, hb, rfl⟩ := List.mem_map.1 hv
        exact hbindings b hb
    | line g => exact ends_called hm hbindings fun m' hm' hlt hd => hend hlt hbody hm' hd
    | block b =>
      refine ends_called hm hbindings fun m' hm' hlt hd => ?_
      exact ends_runBlock (fun _ _ hg hm hdepth _ => hend hlt hg hm (hdepth.trans hd)) hm' hbody
        fun _ _ => le_top

theorem ends_block (b : BlockRef) : Run.Ends (fun n => Call.block (ev n) b) m := by
  unfold Call.block
  refine ends_get_bind ?_
  cases hb : m.memory.blocks[b.index]? with
  | none => exact ends_pure ordered hm trivial
  | some b =>
    refine ends_nested hm fun hlt hm' => ?_
    exact ends_runBlock (fun _ _ hg hm hdepth _ => hend hlt hg hm hdepth) hm' (hm.memory.blocks hb)
      fun _ _ => le_top

/-- A call comes to an end if evaluations do one call deeper. -/
theorem ends_apply {c : Callable} {arg : Value}
    (hc : c ≠ .function (Registry.builtinRef .read)) (harg : arg.Flat) :
    Run.Ends (fun n => Call.apply (ev n) c arg) m := by
  cases c with
  | function f => exact ends_function hend hm (fun hf => hc (hf ▸ rfl)) harg
  | block b => exact ends_block hend hm b

end

/-! ## The limit -/

/-- The call is nested: what is called is a block, or a function of the program that takes
    the argument. -/
def Callable.Nested (c : Callable) (arg : Value) (m : Machine) : Prop :=
  match c with
  | .function f => ∃ F bindings, m.memory.registry.get? f = some F ∧
    (∀ b, F.body ≠ .native b) ∧ F.bind (m.memory.arguments arg) = .ok bindings
  | .block b => ∃ B, m.memory.blocks[b.index]? = some B

/-- At the limit a nested call is refused, whatever would be evaluated for it. -/
theorem Call.apply_of_maxDepth {evaluate : Group → Run Value} {c : Callable} {arg : Value}
    (hd : Machine.maxDepth ≤ m.depth) (hc : c.Nested arg m) :
    ∃ m', Call.apply evaluate c arg m = .error (.fault (.tooDeep Machine.maxDepth)) m' := by
  cases c with
  | block b =>
    obtain ⟨B, hB⟩ := hc
    refine ⟨m, ?_⟩
    rw [apply, block, Run.bind_of_ok (x := get) rfl, hB]
    exact if_pos hd
  | function f =>
    obtain ⟨F, bindings, hF, hnative, hbind⟩ := hc
    have hcalled : ∀ x : Run Value, ∃ m',
        Run.held (Run.withFrame bindings (Run.nested x)) m =
          .error (.fault (.tooDeep Machine.maxDepth)) m' := by
      intro x
      have hnested : Run.nested x (m.enterFrame bindings) =
          .error (.fault (.tooDeep Machine.maxDepth)) (m.enterFrame bindings) :=
        if_pos (by rwa [Machine.depth_enterFrame])
      refine ⟨Machine.leaveFrame (m.enterFrame bindings).frames.level (m.enterFrame bindings),
        Run.bind_eq_error.2 (.inl ?_)⟩
      rw [Run.withFrame, Run.ensuring, hnested]
    have hread : Run.reading (fun m => F.bind (m.memory.arguments arg)) m = .ok bindings m := by
      rw [Run.reading, hbind]
    rw [apply, function, Run.bind_of_ok (x := get) rfl, hF]
    dsimp only
    rw [Run.bind_of_ok hread]
    cases hbody : F.body with
    | native b => exact absurd hbody (hnative b)
    | line g => exact hcalled _
    | block b => exact hcalled _

end Linewise
