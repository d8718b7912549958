import Linewise.Proofs.Part
import Linewise.Proofs.Recursion

/-!
# Statements that end

A statement of a program without loops ends if its parts do (`Part.Ends`): the groups
that it evaluates itself, the blocks that it captures, which are run in a smaller
place, and the calls in it (`CallsEnd`). Knowing that its text has no loops is enough
for that, as only `while` goes round.

* `ends_reduce`: references, from right to left;
* `ends_assignment`, `ends_expression`, `ends_conditional`: the kinds of statements;
* `ends_statement`: all of them together.
-/

namespace Linewise

open Coupling looplessCoupling

variable {ev : Nat → Group → Run Value} {m m' : Machine}

/-- What has to be known of a part of a group for its evaluation to end. -/
def Part.Ends (ev : Nat → Group → Run Value) (m : Machine) : Part → Prop
  | symbol s => Symbol.Loopless s
  | group g => ∀ m', m'.Loopless → m.Kept m' → Run.Ends (fun n => ev n g) m'
  | line g => g.Loopless
  | block => EndsBelow ev m.depth m.left

theorem Part.Ends.mono {p : Part} (h : p.Ends ev m) (hk : m.Kept m') : p.Ends ev m' := by
  cases p with
  | symbol s => exact h
  | group g => exact fun m₁ hm₁ hk₁ => h m₁ hm₁ (hk.trans hk₁)
  | line g => exact h
  | block =>
    have hbelow : EndsBelow ev m.depth m.left := h
    rw [← hk.depth] at hbelow
    exact hbelow.mono hk.left_le

/-! ## References -/

/-- A term is known, given what is known of what is not evaluated yet. -/
def Term.Ends {γ : Type} (group : γ → Machine → Prop) (t : Term γ) (m : Machine) : Prop :=
  t.All Symbol.Loopless Value.Flat (group · m)

theorem Term.Ends.mono {γ : Type} {group : γ → Machine → Prop}
    (hgroup : ∀ ⦃g m m'⦄, m.Kept m' → group g m → group g m') {t : Term γ}
    (h : t.Ends group m) (hk : m.Kept m') : t.Ends group m' := by
  cases t with
  | symbol s => exact h
  | value v => exact h
  | group g => exact hgroup hk h

/-- Of the symbols that make and follow references, only the one that follows them is
    left. -/
theorem Reference.eq_follow_of_ofTerm? {γ : Type} {group : γ → Machine → Prop} {t : Term γ}
    (ht : t.Ends group m) {r : Reference} (hr : ofTerm? t = some r) : r = .follow := by
  cases t with
  | symbol s =>
    cases r with
    | make =>
      have hloopless : Symbol.Loopless s := ht
      rw [← ofSymbol?_eq_some_iff.1 hr] at hloopless
      exact absurd hloopless (by decide)
    | follow => rfl
  | value v => cases hr
  | group g => cases hr

theorem ends_follow (hm : m.Loopless) (v : Value) :
    Run.Ends (fun _ => Reference.apply .follow v) m := by
  refine ends_reading ordered hm fun w hw => ?_
  cases v with
  | var r =>
    have hread := hm.memory.read r
    simp only [Reference.followFrom] at hw
    split at hw
    · cases hw
      trivial
    · rename_i f hf
      cases hw
      rwa [hf] at hread
    · cases hw
  | _ => cases hw

theorem ends_reduce {γ : Type} {group : γ → Machine → Prop}
    (hgroup : ∀ ⦃g m m'⦄, m.Kept m' → group g m → group g m')
    {resolve : Nat → Term γ → Run Value}
    (hres : ∀ ⦃t m⦄, m.Loopless → t.Ends group m → Run.Ends (fun n => resolve n t) m)
    {row : List (Term γ)} (hm : m.Loopless) (hrow : ∀ t ∈ row, t.Ends group m) :
    looplessCoupling.Ends (fun row m => ∀ t ∈ row, t.Ends group m)
      (fun n => Reference.reduce (resolve n) row) m := by
  -- From right to left: by the time a reference is followed, all that comes after it
  -- has been reduced.
  induction row with
  | nil => exact ends_pure ordered hm nofun
  | cons t row ih =>
    rw [List.forall_mem_cons] at hrow
    simp only [Reference.reduce]
    refine (ih hrow.2).bind ordered fun row₁ m₁ hm₁ hk₁ hrow₁ => ?_
    have ht := hrow.1.mono hgroup hk₁
    cases hr : Reference.ofTerm? t with
    | none => exact ends_pure ordered hm₁ (List.forall_mem_cons.2 ⟨ht, hrow₁⟩)
    | some r =>
      obtain rfl := Reference.eq_follow_of_ofTerm? ht hr
      cases row₁ with
      | nil => exact ends_fail ordered hm₁ _
      | cons x row₁ =>
        rw [List.forall_mem_cons] at hrow₁
        refine (hres hm₁ hrow₁.1).bind ordered fun v m₂ hm₂ hk₂ _ => ?_
        refine (ends_follow hm₂ v).bind ordered fun w m₃ hm₃ hk₃ hw => ?_
        refine ends_pure ordered hm₃ (List.forall_mem_cons.2 ⟨hw, fun u hu => ?_⟩)
        exact (hrow₁.2 u hu).mono hgroup (hk₂.trans hk₃)

/-- A term all of whose groups have been evaluated. -/
theorem ends_operand {t : Term Empty} (hm : m.Loopless)
    (ht : t.All Symbol.Loopless Value.Flat fun _ => True) :
    Run.Ends (fun _ => Run.reading fun m => m.resolve t) m :=
  ends_reading ordered hm fun _ hv =>
    Scope.resolve_all (fun _ _ hs hfound => Scope.flat_of_find? hm.memory hs hfound) ht hv

/-! ## Assignments -/

theorem ends_targetOfValue (hm : m.Loopless) (v : Value) :
    looplessCoupling.Ends (fun _ _ => True)
      (fun _ => Run.reading fun m => Assignment.targetOfValue m.memory v) m :=
  ends_reading ordered hm fun _ _ => trivial

theorem ends_declare {name : String} {v : Value} (hm : m.Loopless) (hv : v.Free) :
    Run.Ends
      (fun _ => modifyGet fun m =>
        let (r, m) := m.declare name v
        (.var r, m)) m := by
  have hdeclare : (m.declare name v).2.Loopless :=
    hm.of_scope (hm.memory.addVariable (v := ⟨name, v⟩) hv)
  exact (step hdeclare rfl rfl).ends_modifyGet trivial

theorem ends_overwrite {r : VarRef} {v : Value} (hm : m.Loopless) (hv : v.Free) :
    Run.Ends (fun _ => Assignment.overwrite r v) m := by
  refine Ends.bind ordered (ends_reading (P := fun _ _ => True) ordered hm fun _ _ => trivial) ?_
  intro _ m₁ hm₁ _ _
  have hwrite : ({ m₁ with memory := m₁.memory.write r v } : Machine).Loopless :=
    hm₁.of_scope (hm₁.memory.write r trivial hv)
  refine Ends.bind ordered
    ((step hwrite rfl rfl).ends_modify (P := fun _ _ => True) trivial) ?_
  exact fun _ m₂ hm₂ _ _ => ends_pure ordered hm₂ trivial

theorem ends_defineFunction {name : String} {names : List String} {body : Body} (hm : m.Loopless)
    (hbody : body.Loopless) (hnative : ∀ b, body ≠ .native b) :
    looplessCoupling.Ends (fun f _ => f ≠ Registry.builtinRef .read)
      (fun _ => Run.define (.ofBody name names body)) m := by
  cases h : m.memory.registry.define (.ofBody name names body) with
  | ok p =>
    obtain ⟨hmemory, hle⟩ := hm.memory.define hbody hnative h
    refine .ok (.of_forall fun _ => Run.define_of_ok h) (hm.of_scope hmemory) ⟨rfl, .refl _⟩ ?_
    intro hread
    exact absurd (hread ▸ Registry.index_builtinRef_lt .read) (Nat.not_lt.2 hle)
  | error e => exact .fault (.of_forall fun _ => Run.define_of_error h) hm (.refl m)

theorem ends_define {target : Target} {parameters body : Group} (hm : m.Loopless)
    (hbody : ∀ p ∈ Part.defined body, p.Ends ev m) :
    Run.Ends (fun _ => Assignment.define target parameters body) m := by
  unfold Assignment.define
  refine ends_get_bind ?_
  refine Ends.bind ordered (ends_ofExcept (P := fun _ m₁ => m₁ = m) ordered hm fun _ _ => rfl) ?_
  rintro names m₁ - - rfl
  generalize Assignment.functionName m₁.memory target = name
  -- The body is captured or on the line, and either way it is then defined.
  have hrest : ∀ b m₂, m₂.Loopless → m₁.Kept m₂ → (b.Loopless ∧ ∀ n, b ≠ .native n) →
      Run.Ends (fun _ => do return .function (← Run.define (.ofBody name names b))) m₂ := by
    rintro b m₂ hm₂ - ⟨hb, hnative⟩
    refine (ends_defineFunction hm₂ hb hnative).bind ordered fun f m₃ hm₃ _ hf => ?_
    exact ends_pure ordered hm₃ hf
  dsimp only
  unfold Part.defined at hbody
  split
  · have hcapture := (ends_captureBlock hm false).map (f := Body.block) ordered
      (Q := fun b _ => Body.Loopless b ∧ ∀ n, b ≠ .native n) fun b _ hb => ⟨hb.1, nofun⟩
    exact hcapture.bind ordered hrest
  · rw [if_neg ‹_›] at hbody
    have hline : body.Loopless := hbody (.line body) List.mem_cons_self
    exact Ends.bind ordered (ends_pure (v := Body.line body)
      (P := fun b _ => Body.Loopless b ∧ ∀ n, b ≠ .native n) ordered hm ⟨hline, nofun⟩) hrest

section

variable {give : VarRef → Value → Run Value}
  (hgive : ∀ ⦃r v m⦄, m.Loopless → v.Free → Run.Ends (fun _ => give r v) m)

/-- A group of a head that is not evaluated yet comes to an end. -/
def Group.Ends (ev : Nat → Group → Run Value) (g : Group) (m : Machine) : Prop :=
  (Part.group g).Ends ev m

theorem Group.Ends.mono : ∀ ⦃g : Group⦄ ⦃m m'⦄, m.Kept m' → g.Ends ev m → g.Ends ev m' :=
  fun _ _ _ hk h => Part.Ends.mono h hk

theorem ends_resolve {t : Term Group} (hm : m.Loopless) (ht : t.Ends (Group.Ends ev) m) :
    Run.Ends (fun n => Assignment.resolve (ev n) t) m := by
  cases t with
  | symbol s => exact ends_operand (t := .symbol s) hm ht
  | value v => exact ends_pure ordered hm ht
  | group g => exact ht m hm (.refl m)

theorem ends_target {t : Term Group} (hm : m.Loopless) (ht : t.Ends (Group.Ends ev) m) :
    looplessCoupling.Ends (fun _ _ => True) (fun n => Assignment.target (ev n) t) m := by
  cases t with
  | symbol s =>
    simp only [Assignment.target]
    split
    · exact ends_pure ordered hm trivial
    · exact ends_fail ordered hm _
  | value v => exact ends_targetOfValue hm v
  | group g =>
    have hg : Run.Ends (fun n => ev n g) m := ht m hm (.refl m)
    exact hg.bind ordered fun v m₁ hm₁ _ _ => ends_targetOfValue hm₁ v

include hgive in
theorem ends_assign {t : Target} {body : Group} (hm : m.Loopless) (hbody : body.Ends ev m) :
    Run.Ends (fun n => Assignment.assign (ev n) give t body) m := by
  unfold Assignment.assign
  refine (ends_held (hbody m hm (.refl m))).bind ordered fun v m₁ hm₁ _ hv => ?_
  rcases t with s | r
  · refine ends_get_bind ?_
    cases m₁.frames.find? s with
    | none => exact ends_declare hm₁ hv
    | some r => exact hgive hm₁ hv
  · exact hgive hm₁ hv

theorem Term.ends_headTerm {item : Item} (hitem : ∀ p ∈ Part.ofItem item, p.Ends ev m) :
    (Assignment.headTerm item).Ends (Group.Ends ev) m := by
  cases item with
  | symbol s => exact hitem (.symbol s) List.mem_cons_self
  | text s => trivial
  | group g => exact hitem (.group g) List.mem_cons_self

/-- The head of an assignment is reduced to the target and what follows it, which
    tells whether a function is defined. -/
theorem ends_head {head : Group} (hm : m.Loopless)
    (hhead : ∀ p ∈ head.flatMap Part.ofItem, p.Ends ev m) :
    looplessCoupling.Ends
      (fun row m => (∀ t ∈ row, t.Ends (Group.Ends ev) m) ∧
        (∀ t, row = [t] → Assignment.hasParameters head = false) ∧
        ∀ t g rest, row = t :: .group g :: rest → Assignment.hasParameters head = true)
      (fun n => Reference.reduce (Assignment.resolve (ev n)) (head.map Assignment.headTerm)) m := by
  have hrow : ∀ t ∈ head.map Assignment.headTerm, t.Ends (Group.Ends ev) m := by
    intro t ht
    obtain ⟨item, hmem, rfl⟩ := List.mem_map.1 ht
    exact Term.ends_headTerm fun p hp => hhead p (List.mem_flatMap.2 ⟨item, hmem, hp⟩)
  refine (ends_reduce Group.Ends.mono (fun _ _ hm ht => ends_resolve hm ht) hm hrow).and_ok ?_
  refine fun n row m₁ hrow => ⟨?_, ?_⟩
  · rintro t rfl
    exact Assignment.hasParameters_of_nil hrow
  · rintro t g rest rfl
    exact Assignment.hasParameters_of_group hrow

include hgive in
theorem ends_assignment {g : Group} (hm : m.Loopless)
    (hg : ∀ p ∈ Assignment.parts g, p.Ends ev m) :
    Run.Ends (fun n => Assignment.run (ev n) give g) m := by
  unfold Assignment.run
  rw [Assignment.parts] at hg
  cases hspan : g.span fun item => !item.isSymbol "=" with
  | mk head rest =>
    rw [hspan] at hg
    rcases rest with _ | ⟨item, body⟩
    · exact ends_fail ordered hm _
    rcases head with _ | ⟨first, head⟩
    · exact ends_fail ordered hm _
    rw [List.forall_mem_append] at hg
    obtain ⟨hhead, hbody⟩ := hg
    refine (ends_head hm hhead).bind ordered fun row m₁ hm₁ hk₁ hrow => ?_
    obtain ⟨hknown, hassign, hdefine⟩ := hrow
    rcases row with _ | ⟨t, rest⟩
    · exact ends_fail ordered hm₁ _
    refine (ends_target hm₁ (hknown t List.mem_cons_self)).bind ordered fun t' m₂ hm₂ hk₂ _ => ?_
    have hbody₂ := fun p hp => (hbody p hp).mono (hk₁.trans hk₂)
    rcases rest with _ | ⟨u, rest⟩
    · rw [hassign t rfl, if_neg Bool.false_ne_true, Part.optional] at hbody₂
      dsimp only
      split
      · exact ends_fail ordered hm₂ _
      · rw [if_neg ‹_›] at hbody₂
        exact ends_assign hgive hm₂ (hbody₂ (.group body) List.mem_cons_self)
    cases u with
    | symbol s => exact ends_fail ordered hm₂ _
    | value v => exact ends_fail ordered hm₂ _
    | group parameters =>
      rw [hdefine t parameters rest rfl, if_pos rfl] at hbody₂
      rcases rest with _ | ⟨w, rest⟩
      · exact ends_define hm₂ hbody₂
      · refine Ends.bind ordered (ends_ofExcept (P := fun _ _ => True) ordered hm₂
          fun _ _ => trivial) fun _ m₃ hm₃ _ _ => ?_
        exact ends_fail ordered hm₃ _

end

/-! ## Expressions -/

/-- Calls of anything but `read` come to an end, wherever an evaluation leads. -/
def CallsEnd (call : Nat → Callable → Value → Run Value) (m : Machine) : Prop :=
  ∀ ⦃c arg m'⦄, m'.Loopless → m.Kept m' → c ≠ .function (Registry.builtinRef .read) → arg.Flat →
    Run.Ends (fun n => call n c arg) m'

variable {call : Nat → Callable → Value → Run Value}

theorem CallsEnd.mono (h : CallsEnd call m) (hk : m.Kept m') : CallsEnd call m' :=
  fun _ _ _ hm₁ hk₁ => h hm₁ (hk.trans hk₁)

theorem ne_read_of_operand {t : Term Empty} {c : Callable} (hm : m.Loopless)
    (ht : t.All Symbol.Loopless Value.Flat fun _ => True) (hc : Statement.callable? m t = some c) :
    c ≠ .function (Registry.builtinRef .read) := by
  rintro rfl
  cases t with
  | symbol s =>
    simp only [Statement.callable?] at hc
    split at hc
    · obtain ⟨v, hv, hc⟩ := Option.bind_eq_some_iff.1 hc
      exact hm.memory.ne_read_of_callable? (Scope.flat_of_find? hm.memory ht hv) hc rfl
    · cases hc
  | value v => exact hm.memory.ne_read_of_callable? ht hc rfl
  | group g => exact g.elim

theorem ends_term {item : Item} (hm : m.Loopless) (hitem : ∀ p ∈ Part.ofItem item, p.Ends ev m) :
    looplessCoupling.Ends (fun t _ => t.All Symbol.Loopless Value.Flat fun _ => True)
      (fun n => Statement.term (ev n) item) m := by
  cases item with
  | symbol s => exact ends_pure ordered hm (hitem (.symbol s) List.mem_cons_self)
  | text s => exact ends_pure ordered hm trivial
  | group g =>
    have hg : Run.Ends (fun n => ev n g) m :=
      hitem (.group g) List.mem_cons_self m hm (.refl m)
    exact hg.bind ordered fun v m₁ hm₁ _ hv => ends_pure ordered hm₁ hv

/-- By induction on the items that are left. What has been evaluated of the row refers to
    nothing that could be changed later on. -/
theorem ends_applied {done : Row} {g : Group} (hm : m.Loopless)
    (hdone : Row.All Symbol.Loopless Value.Flat done)
    (hg : ∀ p ∈ g.flatMap Part.ofItem, p.Ends ev m) (hcall : CallsEnd call m) :
    looplessCoupling.Ends (fun row _ => Row.All Symbol.Loopless Value.Flat row)
      (fun n => Statement.applied (ev n) (call n) done g) m := by
  induction g generalizing done m with
  | nil => exact ends_pure ordered hm fun t ht => hdone t (List.mem_reverse.1 ht)
  | cons item g ih =>
    rw [List.flatMap_cons, List.forall_mem_append] at hg
    simp only [Statement.applied]
    refine (ends_term hm hg.1).bind ordered fun t m₁ hm₁ hk₁ ht => ?_
    have hg₁ := fun p hp => (hg.2 p hp).mono hk₁
    have hmore := ih hm₁ (Row.all_cons.2 ⟨ht, hdone⟩) hg₁ (hcall.mono hk₁)
    rcases done with _ | ⟨f, done⟩
    · exact hmore
    cases t with
    | symbol s => exact hmore
    | group g => exact g.elim
    | value arg =>
      rw [Row.all_cons] at hdone
      refine ends_get_bind ?_
      cases hc : Statement.callable? m₁ f with
      | none => exact hmore
      | some c =>
        have hread := ne_read_of_operand hm₁ hdone.1 hc
        refine (hcall hm₁ hk₁ hread ht).bind ordered fun v m₂ hm₂ hk₂ hv => ?_
        exact ih hm₂ (Row.all_cons.2 ⟨hv, hdone.2⟩) (fun p hp => (hg₁ p hp).mono hk₂)
          (hcall.mono (hk₁.trans hk₂))

theorem ends_expression {g : Group} (hm : m.Loopless)
    (hg : ∀ p ∈ g.flatMap Part.ofItem, p.Ends ev m) (hcall : CallsEnd call m) :
    Run.Ends (fun n => Statement.expression (ev n) (call n) g) m := by
  have hnone : Row.All Symbol.Loopless Value.Flat [] := nofun
  refine (ends_applied hm hnone hg hcall).bind ordered fun row m₁ hm₁ _ hrow => ?_
  have hreduce : looplessCoupling.Ends (fun row _ => Row.All Symbol.Loopless Value.Flat row)
      (fun _ => Reference.reduce (fun t => Run.reading fun m => m.resolve t) row) m₁ :=
    ends_reduce (fun _ _ _ _ h => h) (fun _ _ hm ht => ends_operand hm ht) hm₁ hrow
  refine hreduce.bind ordered fun row m₂ hm₂ _ hrow => ends_reading ordered hm₂ fun v hv => ?_
  exact Scope.value_all hm₂.memory.keeps_flat
    (fun _ _ hs hfound => Scope.flat_of_find? hm₂.memory hs hfound) hrow hv

/-! ## Control -/

theorem ends_opening {g : Group} (hm : m.Loopless) :
    Run.Ends (fun _ => Statement.opening g) m := by
  unfold Statement.opening
  split
  · exact ends_fail ordered hm _
  · refine (ends_captureBlock hm false).bind ordered fun b m₁ hm₁ _ hb => ?_
    exact (step (hm₁.of_scope (hm₁.memory.addBlock hb.1)) rfl rfl).ends_modifyGet trivial

theorem ends_dereference (hm : m.Loopless) (v : Value) :
    looplessCoupling.Ends (fun _ _ => True)
      (fun _ => Run.reading fun m => m.memory.dereference v) m :=
  ends_reading ordered hm fun _ _ => trivial

theorem ends_optional {g : Group} (hm : m.Loopless) (hg : ∀ p ∈ Part.optional g, p.Ends ev m) :
    Run.Ends (fun n => Statement.optional (ev n) g) m := by
  unfold Statement.optional
  rw [Part.optional] at hg
  split
  · exact ends_pure ordered hm trivial
  · rw [if_neg ‹_›] at hg
    exact hg (.group g) List.mem_cons_self m hm (.refl m)

theorem ends_condition {g : Group} (hm : m.Loopless) (hg : (Part.group g).Ends ev m) :
    looplessCoupling.Ends (fun _ _ => True) (fun n => Statement.condition (ev n) g) m := by
  have hg : Run.Ends (fun n => ev n g) m := hg m hm (.refl m)
  refine hg.bind ordered fun v m₁ hm₁ _ _ => ?_
  refine (ends_dereference hm₁ v).bind ordered fun w m₂ hm₂ _ _ => ?_
  cases w with
  | boolean b => exact ends_pure ordered hm₂ trivial
  | _ => exact ends_fail ordered hm₂ _

theorem ends_directive {g : Group} (hm : m.Loopless)
    (hg : ∀ p ∈ Part.optional g.tail, p.Ends ev m) :
    Run.Ends (fun n => Statement.directive (ev n) g) m := by
  unfold Statement.directive
  rw [Part.optional] at hg
  dsimp only
  split
  · exact ends_fail ordered hm _
  split
  · exact ends_fail ordered hm _
  rw [if_neg ‹_›] at hg
  have hg : Run.Ends (fun n => ev n g.tail) m :=
    hg (.group g.tail) List.mem_cons_self m hm (.refl m)
  refine hg.bind ordered fun v m₁ hm₁ _ _ => ?_
  refine (ends_dereference hm₁ v).bind ordered fun w m₂ hm₂ _ _ => ?_
  cases w with
  | boolean strict =>
    refine Ends.bind ordered ((step (by exact { hm₂ with }) rfl rfl).ends_modify
      (P := fun _ _ => True) trivial) fun _ m₃ hm₃ _ _ => ?_
    refine (ends_write (P := fun _ _ => True) hm₃ _ fun _ => trivial).bind ordered ?_
    exact fun _ m₄ hm₄ _ _ => ends_pure ordered hm₄ trivial
  | _ => exact ends_fail ordered hm₂ _

/-- A block that has just been captured is run where it was captured. -/
theorem ends_runBlock_captured {b : Block} {first : Bool} (hend : EndsBelow ev m.depth m.left)
    (hm' : m'.Loopless) (hk : m.Kept m')
    (hb : b.Loopless ∧ ∀ first statements, b.branch first = .ok statements →
      (statements.length : ℕ∞) ≤ m.left) :
    Run.Ends (fun n => Call.runBlock (ev n) b first) m' := by
  rw [← hk.depth] at hend
  exact ends_runBlock hend hm' hb.1 (hb.2 first)

theorem ends_conditional {g : Group} (hm : m.Loopless)
    (hg : ∀ test body, Statement.conditionAndBody .conditional g = .ok (test, body) →
      (Part.group test).Ends ev m ∧ ∀ p ∈ Part.branches body, p.Ends ev m) :
    Run.Ends (fun n => Statement.conditional (ev n) g) m := by
  unfold Statement.conditional
  refine Ends.bind ordered (ends_ofExcept
    (P := fun parts m₁ => m₁ = m ∧ Statement.conditionAndBody .conditional g = .ok parts)
    ordered hm fun _ hparts => ⟨rfl, hparts⟩) ?_
  rintro ⟨test, body⟩ m₁ - - ⟨rfl, hparts⟩
  obtain ⟨htest, hbranches⟩ := hg test body hparts
  refine (ends_condition hm htest).bind ordered fun b m₂ hm₂ hk₂ _ => ?_
  replace hbranches := fun p hp => (hbranches p hp).mono hk₂
  rw [Part.branches] at hbranches
  split
  · -- The body is the block that follows.
    rw [if_pos ‹_›] at hbranches
    have hbelow : EndsBelow ev m₂.depth m₂.left := hbranches .block List.mem_cons_self
    refine (ends_captureBlock hm₂ true).bind ordered fun block m₃ hm₃ hk₃ hblock => ?_
    split
    · exact ends_runBlock_captured hbelow hm₃ hk₃ hblock
    split
    · exact ends_runBlock_captured hbelow hm₃ hk₃ hblock
    · exact ends_pure ordered hm₃ trivial
  · rw [if_neg ‹_›] at hbranches
    cases hspan : body.span fun item => !item.isElse with
    | mk first rest =>
      rw [hspan] at hbranches
      rcases rest with _ | ⟨item, _ | ⟨next, second⟩⟩
      · -- There is no `else`.
        dsimp only
        split
        · exact hbranches (.group first) List.mem_cons_self m₂ hm₂ (.refl m₂)
        · exact ends_pure ordered hm₂ trivial
      · -- The second branch is the block that follows.
        rw [List.forall_mem_cons] at hbranches
        refine (ends_captureBlock hm₂ false).bind ordered fun block m₃ hm₃ hk₃ hblock => ?_
        split
        · exact ends_optional hm₃ fun p hp => (hbranches.2 p hp).mono hk₃
        · exact ends_runBlock_captured hbranches.1 hm₃ hk₃ hblock
      · -- Both branches are on the line.
        rw [List.forall_mem_append] at hbranches
        cases b with
        | true => exact ends_optional hm₂ hbranches.1
        | false => exact ends_optional hm₂ hbranches.2

/-- Whatever a statement does apart from `while`, it ends if its parts do. -/
theorem ends_statement {g : Group} (hk : g.keyword? ≠ some .repetition) (hm : m.Loopless)
    (hparts : ∀ p ∈ Statement.parts g, p.Ends ev m) (hcall : CallsEnd call m) :
    Run.Ends (fun n => Statement.statement (ev n) (call n) n g) m := by
  cases g with
  | nil => exact ends_pure ordered hm trivial
  | cons item g =>
    cases hkeyword : Group.keyword? (item :: g) with
    | none =>
      simp only [Statement.parts, hkeyword] at hparts
      simp only [Statement.statement, hkeyword]
      exact ends_expression hm hparts hcall
    | some k =>
      simp only [Statement.parts, hkeyword] at hparts
      simp only [Statement.statement, hkeyword]
      cases k with
      | directive => exact ends_directive hm hparts
      | assignment =>
        exact ends_assignment (fun _ _ _ hm hv => ends_overwrite hm hv) hm hparts
      | conditional =>
        refine ends_conditional hm fun test body htb => ?_
        simp only [htb, List.forall_mem_cons] at hparts
        exact hparts
      | repetition => exact absurd hkeyword hk
      | opening => exact ends_opening hm
      | _ => exact ends_fail ordered hm _

end Linewise
