import Linewise.Proofs.Call

/-!
# Walks through assignments

The head of an assignment is evaluated term by term, and then the right-hand
side, after which a variable is given its value. Since a walk may know where that
is possible (`Walk.assigns`), the evaluations have to lead there (`LeadTo`).

* `couples_reduce`: references are made and followed, from right to left;
* `couples_run`: an assignment, if its parts are known.
-/

namespace Linewise.Walk

variable {K : Walk} {ev ev' : Group → Run Value} {m : Machine}

/-- The evaluations agree, and lead to where `goal` holds. -/
def LeadTo (K : Walk) (goal : Machine → Prop) (ev ev' : Group → Run Value) : Prop :=
  ∀ ⦃g m⦄, K.holds m → K.group g m →
    K.Couples (fun v m => K.value v m ∧ goal m) (ev g) (ev' g) m

theorem LeadTo.agree {goal : Machine → Prop} (h : K.LeadTo goal ev ev') : K.Agree ev ev' :=
  fun _ _ hm hg => (h hm hg).weaken fun _ _ _ _ hv => hv.1

/-- Where a variable may be given a value, it may also be looked up. -/
theorem LeadTo.looks (hK : K.Lawful) (h : K.LeadTo K.assigns ev ev') : K.LeadTo K.looks ev ev' :=
  fun _ _ hm hg => (h hm hg).weaken fun _ _ hm _ hv => ⟨hv.1, hK.looks_of_assigns hm hv.2⟩

/-! ## References -/

/-- A term is known, given what is known of what is not evaluated yet. -/
def term {γ : Type} (K : Walk) (group : γ → Machine → Prop) (t : Term γ) (m : Machine) : Prop :=
  t.All K.symbol (K.value · m) (group · m)

section

variable (hK : K.Lawful)

include hK

theorem lasting_term {γ : Type} {group : γ → Machine → Prop} (hg : K.Lasting group) :
    K.Lasting (K.term group) := by
  intro t m m' hl ht
  cases t with
  | symbol s => exact ht
  | value v => exact hK.lasting_value hl ht
  | group g => exact hg hl ht

theorem couples_reference {r : Reference} {v : Value} (hm : K.holds m) (hl : K.looks m)
    (hr : K.symbol r.symbol) (hv : K.value v m) :
    K.Couples (fun v m => K.value v m ∧ K.looks m) (r.apply v) (r.apply v) m := by
  cases r with
  | make =>
    cases v with
    | var s =>
      obtain ⟨hstep, hvar⟩ := hK.refer hm hr hv.1
      refine hstep.couples_modifyGet ?_
        ⟨hK.value_of_reach (v := .var _) hvar rfl, hK.looks_refer hm hl⟩
      exact congrArg (fun n => Value.var ⟨n⟩) (hK.twin_memory hm).size_eq
    | _ => exact Coupling.couples_fail hK.toOrdered hm _
  | follow =>
    refine Coupling.couples_reading hK.toOrdered hm ((hK.twin_memory hm).followFrom_eq hv.1)
      fun w hw => ⟨?_, hl⟩
    cases v with
    | var s =>
      have hread := hK.closed hm s hv.1
      simp only [Reference.followFrom] at hw
      split at hw
      · rename_i heq
        cases hw
        rw [heq] at hread
        exact hK.value_of_reach hread rfl
      · rename_i heq
        cases hw
        rw [heq] at hread
        exact hK.value_of_reach hread rfl
      · cases hw
    | _ => cases hw

omit hK in
/-- What makes or follows a reference is one of the symbols that are known. -/
theorem symbol_of_ofTerm? {γ : Type} {group : γ → Machine → Prop} {t : Term γ} {r : Reference}
    (ht : K.term group t m) (hr : Reference.ofTerm? t = some r) : K.symbol r.symbol := by
  cases t with
  | symbol s => exact Reference.ofSymbol?_eq_some_iff.1 hr ▸ ht
  | _ => cases hr

theorem couples_reduce {γ : Type} {group : γ → Machine → Prop} (hg : K.Lasting group)
    {resolve resolve' : Term γ → Run Value}
    (hres : ∀ ⦃t m⦄, K.holds m → K.looks m → K.term group t m →
      K.Couples (fun v m => K.value v m ∧ K.looks m) (resolve t) (resolve' t) m)
    {row : List (Term γ)} (hm : K.holds m) (hl : K.looks m)
    (hrow : ∀ t ∈ row, K.term group t m) :
    K.Couples (fun row m => (∀ t ∈ row, K.term group t m) ∧ K.looks m)
      (Reference.reduce resolve row) (Reference.reduce resolve' row) m := by
  -- From right to left: by the time a reference is made of a term, all that
  -- follows has been reduced, and has to stay known meanwhile.
  induction row with
  | nil => exact Coupling.couples_pure hK.toOrdered hm ⟨nofun, hl⟩
  | cons t row ih =>
    rw [List.forall_mem_cons] at hrow
    rw [Reference.reduce, Reference.reduce]
    refine (ih hrow.2).bind hK.toOrdered ?_
    rintro row₁ m₁ hm₁ hl₁ ⟨hrow₁, hlook₁⟩
    cases hterm : Reference.ofTerm? t with
    | none =>
      refine Coupling.couples_pure hK.toOrdered hm₁ ⟨List.forall_mem_cons.2 ⟨?_, hrow₁⟩, hlook₁⟩
      exact lasting_term hK hg hl₁ hrow.1
    | some r =>
      cases row₁ with
      | nil => exact Coupling.couples_fail hK.toOrdered hm₁ _
      | cons x row₁ =>
        rw [List.forall_mem_cons] at hrow₁
        refine (hres hm₁ hlook₁ hrow₁.1).bind hK.toOrdered ?_
        rintro v m₂ hm₂ hl₂ ⟨hv, hlook₂⟩
        refine (couples_reference hK hm₂ hlook₂ (symbol_of_ofTerm? hrow.1 hterm) hv).bind hK.toOrdered ?_
        rintro w m₃ hm₃ hl₃ ⟨hw, hlook₃⟩
        refine Coupling.couples_pure hK.toOrdered hm₃
          ⟨List.forall_mem_cons.2 ⟨hw, fun u hu => ?_⟩, hlook₃⟩
        exact lasting_term hK hg hl₃ (lasting_term hK hg hl₂ (hrow₁.2 u hu))

end

/-! ## Targets -/

/-- What is assigned to is known. -/
def target (K : Walk) (t : Target) (m : Machine) : Prop :=
  match t with
  | .name _ => True
  | .variable r => K.var r m

section

variable (hK : K.Lawful)

include hK

theorem couples_targetOfValue {v : Value} (hm : K.holds m) (hv : K.value v m) :
    K.Couples K.target (Run.reading fun m => Assignment.targetOfValue m.memory v)
      (Run.reading fun m => Assignment.targetOfValue m.memory v) m := by
  refine Coupling.couples_reading hK.toOrdered hm (hK.twin_memory hm).targetOfValue_eq
    fun t ht => ?_
  cases v with
  | var r =>
    cases ht
    exact hv.1
  | function f =>
    cases ht
    trivial
  | _ => cases ht

theorem couples_overwrite {r : VarRef} {v : Value} (hm : K.holds m) (ha : K.assigns m)
    (ho : K.overwrites r v m) (hr : K.var r m) (hv : K.content v m) :
    K.Couples K.value (Assignment.overwrite r v) (Assignment.overwrite r v) m := by
  refine (Coupling.couples_reading (P := fun _ m₁ => m₁ = m ∧ m.memory.checkReference r v = .ok ())
    hK.toOrdered hm ((hK.twin_memory hm).checkReference_eq (hK.closed hm) r hv.1)
    fun _ hc => ⟨rfl, hc⟩).bind hK.toOrdered ?_
  rintro _ m₁ - - ⟨rfl, hc⟩
  refine ((hK.write hm ha ho hc hr hv).couples_modify (P := fun _ _ => True) trivial).bind
    hK.toOrdered fun _ m₂ hm₂ hl₂ _ => ?_
  exact Coupling.couples_pure hK.toOrdered hm₂
    (hK.value_of_reach (v := .var r) (hK.var_mono hl₂ hr) rfl)

theorem couples_declare {name : String} {v : Value} (hm : K.holds m) (ha : K.assigns m)
    (hv : K.content v m) :
    K.Couples K.value
      (modifyGet fun m =>
        let (r, m) := m.declare name v
        (.var r, m))
      (modifyGet fun m =>
        let (r, m) := m.declare name v
        (.var r, m)) m := by
  obtain ⟨hstep, hvar⟩ := hK.declare (s := name) hm ha hv
  refine Coupling.Step.couples_modifyGet (P := K.value)
    (f := fun m => (.var (m.declare name v).1, (m.declare name v).2)) hstep ?_
    (hK.value_of_reach (v := .var _) hvar rfl)
  exact congrArg (fun n => Value.var ⟨n⟩) (hK.twin_memory hm).size_eq

theorem functionName_twin {t : Target} (hm : K.holds m) (ht : K.target t m) :
    Assignment.functionName (K.twin m).memory t = Assignment.functionName m.memory t := by
  rcases t with s | r
  · rfl
  · exact (hK.twin_memory hm).nameOf_eq ht

/-- The body of a function that is defined is known. -/
theorem couples_define {target : Target} {parameters body : Group} (hm : K.holds m)
    (ht : K.target target m) (hbody : ∀ p ∈ Part.defined body, K.part p m) :
    K.Couples K.value (Assignment.define target parameters body)
      (Assignment.define target parameters body) m := by
  unfold Assignment.define
  refine Coupling.couples_get_bind ?_
  rw [functionName_twin hK hm ht]
  refine (Coupling.couples_ofExcept (P := fun _ m₁ => m₁ = m) hK.toOrdered hm
    fun _ _ => rfl).bind hK.toOrdered ?_
  rintro names m₁ - - rfl
  generalize Assignment.functionName m₁.memory target = name
  -- The body is captured or on the line, and either way it is then defined.
  have hrest : ∀ b m₂, K.holds m₂ → K.leads m₁ m₂ →
      (K.body b ∧ (∀ n, b ≠ .native n) ∧ ∀ c, b = .block c → K.captured c) →
      K.Couples K.value
        (do return .function (← Run.define (.ofBody name names b)))
        (do return .function (← Run.define (.ofBody name names b)))
        m₂ := by
    rintro b m₂ hm₂ - ⟨hb, hnative, hcaptured⟩
    refine (hK.define hm₂ hb hnative hcaptured).bind hK.toOrdered fun f m₃ hm₃ _ hf => ?_
    exact Coupling.couples_pure hK.toOrdered hm₃ (hK.value_of_reach (v := .function f) hf rfl)
  dsimp only
  unfold Part.defined at hbody
  split
  · rw [if_pos ‹_›] at hbody
    have hopens : K.opens m₁ := hbody .block List.mem_cons_self
    have hcapture := (hK.capture false hm hopens).and_ok (Q := fun b _ => K.captured b)
      fun b m₂ hb => hK.captured_of_capture hm hopens hb
    refine (hcapture.map hK.toOrdered ?_).bind hK.toOrdered hrest
    rintro b - ⟨hb, hcaptured⟩
    exact ⟨hb, nofun, fun c hc => Body.block.inj hc ▸ hcaptured⟩
  · rw [if_neg ‹_›] at hbody
    have hline : K.body (.line body) := hbody (.line body) List.mem_cons_self
    exact (Coupling.couples_pure hK.toOrdered hm ⟨hline, nofun, nofun⟩).bind hK.toOrdered hrest

end

/-! ## Assignments -/

/-- Where a variable may be given a value, giving one to a variable that there is
    already is coupled. -/
def Gives (K : Walk) (give give' : VarRef → Value → Run Value) : Prop :=
  ∀ ⦃r v m⦄, K.holds m → K.assigns m → K.var r m → K.content v m →
    K.Couples K.value (give r v) (give' r v) m

theorem Lawful.gives (hK : K.Lawful) (ho : ∀ ⦃r v m⦄, K.holds m → K.overwrites r v m) :
    K.Gives Assignment.overwrite Assignment.overwrite :=
  fun _ _ _ hm ha hr hv => couples_overwrite hK hm ha (ho hm) hr hv

section

variable {give give' : VarRef → Value → Run Value} (hK : K.Lawful) (h : K.LeadTo K.assigns ev ev')
  (hgive : K.Gives give give')

include hK h

theorem couples_resolve {t : Term Group} (hm : K.holds m) (hl : K.looks m)
    (ht : K.term K.group t m) :
    K.Couples (fun v m => K.value v m ∧ K.looks m) (Assignment.resolve ev t)
      (Assignment.resolve ev' t) m := by
  cases t with
  | symbol s =>
    refine Coupling.couples_reading hK.toOrdered hm ((hK.alike hm hl).lookup_eq s)
      fun v hv => ⟨?_, hl⟩
    rw [Scope.lookup] at hv
    split at hv
    · rename_i w hw
      cases hv
      exact hK.value_of_found hm hl ht hw
    · cases hv
  | value v => exact Coupling.couples_pure hK.toOrdered hm ⟨ht, hl⟩
  | group g => exact h.looks hK hm ht

theorem couples_target {t : Term Group} (hm : K.holds m) (ht : K.term K.group t m) :
    K.Couples K.target (Assignment.target ev t) (Assignment.target ev' t) m := by
  cases t with
  | symbol s =>
    simp only [Assignment.target]
    split
    · exact Coupling.couples_pure hK.toOrdered hm trivial
    · exact Coupling.couples_fail hK.toOrdered hm _
  | value v => exact couples_targetOfValue hK hm ht
  | group g =>
    refine (h.agree hm ht).bind hK.toOrdered fun v m₁ hm₁ _ hv => ?_
    exact couples_targetOfValue hK hm₁ hv

include hgive in
theorem couples_assign {t : Target} {body : Group} (hm : K.holds m) (ht : K.target t m)
    (hbody : K.group body m) :
    K.Couples K.value (Assignment.assign ev give t body) (Assignment.assign ev' give' t body)
      m := by
  rw [Assignment.assign]
  refine (hK.couples_held (Q := fun v m => K.content v m ∧ K.assigns m) (h hm hbody) ?_).bind
    hK.toOrdered ?_
  · exact fun v m₁ hm₁ hv => ⟨hv.1.1, hK.held hm₁ hv.1, hv.2⟩
  · rintro v m₁ hm₁ hl₁ ⟨hv, ha⟩
    rcases t with s | r
    · have hlook := hK.looks_of_assigns hm₁ ha
      refine Coupling.couples_get_bind ?_
      rw [hK.twin_find? hm₁ hlook]
      cases hr : m₁.frames.find? s with
      | none => exact couples_declare hK hm₁ ha hv
      | some r => exact hgive hm₁ ha (hK.bound hm₁ hlook hr) hv
    · exact hgive hm₁ ha (hK.var_mono hl₁ ht) hv

omit h in
theorem term_headTerm {item : Item} (hitem : ∀ p ∈ Part.ofItem item, K.part p m) :
    K.term K.group (Assignment.headTerm item) m := by
  cases item with
  | symbol s => exact hitem (.symbol s) List.mem_cons_self
  | text s => exact hK.value_of_reach (v := .string s) trivial rfl
  | group g => exact hitem (.group g) List.mem_cons_self

/-- The head of an assignment is reduced to the target and what follows it, which
    tells whether a function is defined. -/
theorem couples_head {head : Group} (hm : K.holds m) (hl : K.looks m)
    (hhead : ∀ p ∈ head.flatMap Part.ofItem, K.part p m) :
    K.Couples
      (fun row m => (∀ t ∈ row, K.term K.group t m) ∧
        (∀ t, row = [t] → Assignment.hasParameters head = false) ∧
        ∀ t g rest, row = t :: .group g :: rest → Assignment.hasParameters head = true)
      (Reference.reduce (Assignment.resolve ev) (head.map Assignment.headTerm))
      (Reference.reduce (Assignment.resolve ev') (head.map Assignment.headTerm)) m := by
  have hrow : ∀ t ∈ head.map Assignment.headTerm, K.term K.group t m := by
    intro t ht
    obtain ⟨item, hmem, rfl⟩ := List.mem_map.1 ht
    exact term_headTerm hK fun p hp => hhead p (List.mem_flatMap.2 ⟨item, hmem, hp⟩)
  have hreduce := couples_reduce hK hK.lasting_group
    (fun _ _ hm hl ht => couples_resolve hK h hm hl ht) hm hl hrow
  have hknown := hreduce.weaken (Q := fun row m => ∀ t ∈ row, K.term K.group t m)
    fun _ _ _ _ hrow => hrow.1
  refine hknown.and_ok fun row m₁ hrow => ⟨?_, ?_⟩
  · rintro t rfl
    exact Assignment.hasParameters_of_nil hrow
  · rintro t g rest rfl
    exact Assignment.hasParameters_of_group hrow

include hgive in
theorem couples_run {g : Group} (hm : K.holds m) (hl : K.looks m)
    (hg : ∀ p ∈ Assignment.parts g, K.part p m) :
    K.Couples K.value (Assignment.run ev give g) (Assignment.run ev' give' g) m := by
  rw [Assignment.run, Assignment.run]
  rw [Assignment.parts] at hg
  cases hspan : g.span fun item => !item.isSymbol "=" with
  | mk head rest =>
    rw [hspan] at hg
    rcases rest with _ | ⟨item, body⟩
    · exact Coupling.couples_fail hK.toOrdered hm _
    rcases head with _ | ⟨first, head⟩
    · exact Coupling.couples_fail hK.toOrdered hm _
    rw [List.forall_mem_append] at hg
    obtain ⟨hhead, hbody⟩ := hg
    refine (couples_head hK h hm hl hhead).bind hK.toOrdered fun row m₁ hm₁ hl₁ hrow => ?_
    -- What the head has been reduced to decides whether a variable is assigned or a
    -- function defined, and that is what `hasParameters` says of the head itself.
    obtain ⟨hknown, hassign, hdefine⟩ := hrow
    rcases row with _ | ⟨t, rest⟩
    · exact Coupling.couples_fail hK.toOrdered hm₁ _
    refine (couples_target hK h hm₁ (hknown t List.mem_cons_self)).bind hK.toOrdered ?_
    intro t' m₂ hm₂ hl₂ ht'
    have hbody₂ := fun p hp => hK.lasting_part hl₂ (hK.lasting_part hl₁ (hbody p hp))
    rcases rest with _ | ⟨u, rest⟩
    · rw [hassign t rfl, if_neg Bool.false_ne_true, Part.optional] at hbody₂
      dsimp only
      split
      · exact Coupling.couples_fail hK.toOrdered hm₂ _
      · rw [if_neg ‹_›] at hbody₂
        exact couples_assign hK h hgive hm₂ ht' (hbody₂ (.group body) List.mem_cons_self)
    cases u with
    | symbol s => exact Coupling.couples_fail hK.toOrdered hm₂ _
    | value v => exact Coupling.couples_fail hK.toOrdered hm₂ _
    | group parameters =>
      rw [hdefine t parameters rest rfl, if_pos rfl] at hbody₂
      rcases rest with _ | ⟨w, rest⟩
      · exact couples_define hK hm₂ ht' hbody₂
      · refine (Coupling.couples_ofExcept (P := fun _ _ => True) hK.toOrdered hm₂
          fun _ _ => trivial).bind hK.toOrdered fun _ m₃ hm₃ _ _ => ?_
        exact Coupling.couples_fail hK.toOrdered hm₃ _

end

end Linewise.Walk
