import Linewise.Proofs.Assignment

/-!
# Walks through statements

If two evaluations agree along a walk, and so do two ways to call, then so do
the expressions and statements made of them (`couples_statement`). All that has
to be known of a group is what is known of its parts. The evaluations themselves
are compared in `Linewise.Proofs.Watch`.

A loop that the first run gives up for want of fuel may go on in the second, if
the walk is lenient (`Outlasts`).
-/

namespace Linewise

/-- A loop with the given body, in the frame that is on top. -/
def Statement.repeated (ev : Group → Run Value) (fuel : Nat) (test : Group) (body : Run Value) :
    Run Value := do
  loop ev test body (← get).frames.level fuel

namespace Walk

variable {K : Walk} {ev ev' : Group → Run Value} {call call' : Callable → Value → Run Value}
  {m : Machine}

/-- The calls are coupled, whatever is called, and lead to where `goal` holds. -/
def Answer (K : Walk) (goal : Machine → Prop) (call call' : Callable → Value → Run Value) : Prop :=
  ∀ ⦃c v m⦄, K.holds m → K.callable c → K.value v m →
    K.Couples (fun v m => K.value v m ∧ goal m) (call c v) (call' c v) m

/-- The fuel `n'` of the second run is enough where the first one has `n`. -/
def Outlasts (K : Walk) (n' n : Nat) : Prop :=
  n' = n ∨ (K.lenient ∧ n ≤ n')

theorem Outlasts.succ {n n' : Nat} (h : K.Outlasts n' (n + 1)) :
    ∃ k, n' = k + 1 ∧ K.Outlasts k n := by
  rcases h with rfl | ⟨hlenient, hle⟩
  · exact ⟨n, rfl, .inl rfl⟩
  · exact ⟨n' - 1, by omega, .inr ⟨hlenient, by omega⟩⟩

/-- A term all of whose groups have been evaluated is known. -/
abbrev operand (K : Walk) : Term Empty → Machine → Prop :=
  K.term fun _ _ => True

/-! ## Expressions -/

section

variable (hK : K.Lawful)

include hK

theorem lasting_operand : K.Lasting K.operand :=
  lasting_term hK fun _ _ _ _ _ => trivial

/-- What is known of the values in a row is known of its value. -/
theorem Lawful.value_of_row {row : Row} {v : Value} (hm : K.holds m) (hl : K.looks m)
    (hrow : ∀ t ∈ row, K.operand t m) (hv : m.value row = .ok v) : K.value v m :=
  Scope.value_all ((Operation.keeps_within (hK.closed hm)).and (hK.keeps hm))
    (fun _ _ hs hfound => hK.value_of_found hm hl hs hfound) hrow hv

theorem couples_operand {t : Term Empty} (hm : K.holds m) (hl : K.looks m)
    (ht : K.operand t m) :
    K.Couples (fun v m => K.value v m ∧ K.looks m) (Run.reading fun m => m.resolve t)
      (Run.reading fun m => m.resolve t) m :=
  Coupling.couples_reading hK.toOrdered hm ((hK.alike hm hl).resolve_eq t) fun _ hv =>
    ⟨Scope.resolve_all (fun _ _ hs hfound => hK.value_of_found hm hl hs hfound) ht hv, hl⟩

/-- What a value calls is a function that values may refer to. -/
theorem callable_of_value {v : Value} {c : Callable} (hm : K.holds m) (hv : K.value v m)
    (hc : m.memory.callable? v = some c) : K.callable c := by
  have hheld := hK.held hm hv
  cases c with
  | block b => trivial
  | function f =>
    rw [Memory.held_of_callable? hc] at hheld
    exact hheld.1

theorem callable_of_operand {t : Term Empty} {c : Callable} (hm : K.holds m) (hl : K.looks m)
    (ht : K.operand t m) (hc : Statement.callable? m t = some c) : K.callable c := by
  cases t with
  | symbol s =>
    simp only [Statement.callable?] at hc
    split at hc
    · obtain ⟨v, hv, hc⟩ := Option.bind_eq_some_iff.1 hc
      exact callable_of_value hK hm (hK.value_of_found hm hl ht hv) hc
    · cases hc
  | value v => exact callable_of_value hK hm ht hc
  | group g => exact g.elim

/-- What a term calls is the same for both runs. -/
theorem callable?_twin {t : Term Empty} (hm : K.holds m) (hl : K.looks m) (ht : K.operand t m) :
    Statement.callable? (K.twin m) t = Statement.callable? m t := by
  cases t with
  | symbol s =>
    simp only [Statement.callable?, (hK.alike hm hl).symbol_eq]
    cases hv : m.find? s with
    | none => rfl
    | some v =>
      have hvalue := hK.found hm hl ht hv
      simp only [Option.bind_some, (hK.twin_memory hm).callable?_eq hvalue]
  | value v => exact (hK.twin_memory hm).callable?_eq ht.1
  | group g => exact g.elim

variable (h : K.LeadTo K.looks ev ev')

include h

theorem couples_term {item : Item} (hm : K.holds m) (hl : K.looks m)
    (hitem : ∀ p ∈ Part.ofItem item, K.part p m) :
    K.Couples (fun t m => K.operand t m ∧ K.looks m) (Statement.term ev item)
      (Statement.term ev' item) m := by
  cases item with
  | symbol s =>
    exact Coupling.couples_pure hK.toOrdered hm ⟨hitem (.symbol s) List.mem_cons_self, hl⟩
  | text s =>
    exact Coupling.couples_pure hK.toOrdered hm
      ⟨hK.value_of_reach (v := .string s) trivial rfl, hl⟩
  | group g =>
    refine (h hm (hitem (.group g) List.mem_cons_self)).bind hK.toOrdered fun v m₁ hm₁ _ hv => ?_
    exact Coupling.couples_pure hK.toOrdered hm₁ hv

variable {n : Nat} (hcall : K.Answer (fun m => 2 < n → K.looks m) call call')

include hcall

/-- In a row of no more than two items, a call comes last, and nothing is looked up
    after it. -/
theorem couples_applied {done : Row} {g : Group} (hn : done.length + g.length ≤ n)
    (hm : K.holds m) (hl : K.looks m ∨ g = [] ∧ ∃ v, done = [.value v])
    (hdone : ∀ t ∈ done, K.operand t m) (hg : ∀ p ∈ g.flatMap Part.ofItem, K.part p m) :
    K.Couples (fun row m => (∀ t ∈ row, K.operand t m) ∧ (K.looks m ∨ ∃ v, row = [.value v]))
      (Statement.applied ev call done g) (Statement.applied ev' call' done g) m := by
  -- The terms in `done` stay known while the rest of the row is evaluated. A call
  -- takes the last of them, which has thus been known since before the argument.
  induction g generalizing done m with
  | nil =>
    refine Coupling.couples_pure hK.toOrdered hm ⟨fun t ht => ?_, ?_⟩
    · exact hdone t (List.mem_reverse.1 ht)
    · exact hl.imp_right fun ⟨_, v, hv⟩ => ⟨v, by rw [hv, List.reverse_singleton]⟩
  | cons item g ih =>
    have hlook : K.looks m := hl.resolve_right fun hnil => List.cons_ne_nil item g hnil.1
    rw [List.flatMap_cons, List.forall_mem_append] at hg
    rw [List.length_cons] at hn
    rw [Statement.applied, Statement.applied]
    refine (couples_term hK h hm hlook hg.1).bind hK.toOrdered ?_
    rintro t m₁ hm₁ hl₁ ⟨ht, hlook₁⟩
    have hdone₁ := fun u hu => lasting_operand hK hl₁ (hdone u hu)
    have hg₁ := fun p hp => hK.lasting_part hl₁ (hg.2 p hp)
    have hlength : (t :: done).length + g.length ≤ n := by
      rw [List.length_cons]
      omega
    have hmore := ih hlength hm₁ (.inl hlook₁) (List.forall_mem_cons.2 ⟨ht, hdone₁⟩) hg₁
    rcases done with _ | ⟨f, done⟩
    · exact hmore
    cases t with
    | symbol s => exact hmore
    | group g => exact g.elim
    | value arg =>
      rw [List.forall_mem_cons] at hdone₁
      refine Coupling.couples_get_bind ?_
      rw [callable?_twin hK hm₁ hlook₁ hdone₁.1]
      cases hc : Statement.callable? m₁ f with
      | none => exact hmore
      | some c =>
        have hknown := callable_of_operand hK hm₁ hlook₁ hdone₁.1 hc
        refine (hcall hm₁ hknown ht).bind hK.toOrdered ?_
        rintro v m₂ hm₂ hl₂ ⟨hv, hlook₂⟩
        rw [List.length_cons] at hn
        have hlength : (Term.value v :: done : Row).length + g.length ≤ n := by
          rw [List.length_cons]
          omega
        refine ih hlength hm₂ ?_ (List.forall_mem_cons.2 ⟨hv, ?_⟩)
          fun p hp => hK.lasting_part hl₂ (hg₁ p hp)
        · rcases Nat.lt_or_ge 2 n with hlong | hshort
          · exact .inl (hlook₂ hlong)
          · refine .inr ⟨List.length_eq_zero_iff.1 (by omega), v, ?_⟩
            rw [List.length_eq_zero_iff.1 (show done.length = 0 by omega)]
        · exact fun u hu => lasting_operand hK hl₂ (hdone₁.2 u hu)

theorem couples_expression {g : Group} (hn : g.length ≤ n) (hm : K.holds m) (hl : K.looks m)
    (hg : ∀ p ∈ g.flatMap Part.ofItem, K.part p m) :
    K.Couples K.value (Statement.expression ev call g) (Statement.expression ev' call' g) m := by
  have hnone : ∀ t ∈ ([] : Row), K.operand t m := nofun
  have hlength : ([] : Row).length + g.length ≤ n := by rwa [List.length_nil, Nat.zero_add]
  refine (couples_applied hK h hcall hlength hm (.inl hl) hnone hg).bind hK.toOrdered ?_
  rintro row m₁ hm₁ - ⟨hrow, hlook | ⟨v, rfl⟩⟩
  · have hreduce := couples_reduce hK (fun _ _ _ _ _ => trivial)
      (fun _ _ hm hl ht => couples_operand hK hm hl ht) hm₁ hlook hrow
    refine hreduce.bind hK.toOrdered ?_
    rintro row m₂ hm₂ - ⟨hrow, hlook⟩
    have hfound := fun s v hs hv => hK.found (s := s) (v := v) hm₂ hlook hs hv
    have hclosed := hK.closed hm₂
    have hwithin : Row.Within K.symbol (K.var · m₂) K.function row :=
      fun t ht => (hrow t ht).imp (fun _ => id) (fun _ hv => hv.1) fun _ => id
    exact Coupling.couples_reading hK.toOrdered hm₂
      ((hK.alike hm₂ hlook).value_eq hclosed hfound hwithin)
      fun v hv => hK.value_of_row hm₂ hlook hrow hv
  · -- Nothing is looked up for the value of a value.
    have hvalue : K.value v m₁ := hrow (.value v) List.mem_cons_self
    have hreduce : ∀ resolve : Term Empty → Run Value,
        Reference.reduce resolve [.value v] = pure [.value v] := fun _ => rfl
    rw [hreduce, pure_bind]
    refine Coupling.couples_reading hK.toOrdered hm₁ ?_ fun w hw => ?_
    · rw [Scope.value_singleton, Scope.value_singleton]
    · rw [Scope.value_singleton] at hw
      cases hw
      exact hvalue

end

/-! ## Control -/

section

variable (hK : K.Lawful)

include hK

theorem couples_dereference {v : Value} (hm : K.holds m) (hv : K.value v m) :
    K.Couples (fun _ _ => True) (Run.reading fun m => m.memory.dereference v)
      (Run.reading fun m => m.memory.dereference v) m :=
  Coupling.couples_reading hK.toOrdered hm ((hK.twin_memory hm).dereference_eq (hK.closed hm) hv.1)
    fun _ _ => trivial

theorem couples_opening {g : Group} (hm : K.holds m) (hg : g.isEmpty → K.opens m) :
    K.Couples K.value (Statement.opening g) (Statement.opening g) m := by
  rw [Statement.opening]
  cases hempty : g.isEmpty with
  | false => exact Coupling.couples_fail hK.toOrdered hm _
  | true =>
    refine (hK.capture false hm (hg hempty)).bind hK.toOrdered fun b m₁ hm₁ _ hb => ?_
    have hstep := hK.store hm₁ hb
    refine Coupling.Step.couples_modifyGet (P := K.value)
      (f := fun m => (.block (m.memory.addBlock b).1,
        { m with memory := (m.memory.addBlock b).2 })) hstep ?_
      (hK.value_of_reach (v := .block _) trivial rfl)
    exact congrArg (fun blocks => Value.block ⟨blocks.size⟩) (hK.twin_memory hm₁).blocks_eq

variable (h : K.Agree ev ev')

include h

theorem couples_optional {g : Group} (hm : K.holds m) (hg : ∀ p ∈ Part.optional g, K.part p m) :
    K.Couples K.value (Statement.optional ev g) (Statement.optional ev' g) m := by
  unfold Statement.optional
  rw [Part.optional] at hg
  split
  · exact Coupling.couples_pure hK.toOrdered hm hK.value_nil
  · rw [if_neg ‹_›] at hg
    exact h hm (hg (.group g) List.mem_cons_self)

theorem couples_condition {g : Group} (hm : K.holds m) (hg : K.group g m) :
    K.Couples (fun _ _ => True) (Statement.condition ev g) (Statement.condition ev' g) m := by
  refine (h hm hg).bind hK.toOrdered fun v m₁ hm₁ _ hv => ?_
  refine (couples_dereference hK hm₁ hv).bind hK.toOrdered fun w m₂ hm₂ _ _ => ?_
  cases w with
  | boolean b => exact Coupling.couples_pure hK.toOrdered hm₂ trivial
  | _ => exact Coupling.couples_fail hK.toOrdered hm₂ _

theorem couples_directive {g : Group} (hm : K.holds m)
    (hg : ∀ p ∈ Part.optional g.tail, K.part p m) :
    K.Couples K.value (Statement.directive ev g) (Statement.directive ev' g) m := by
  unfold Statement.directive
  rw [Part.optional] at hg
  dsimp only
  split
  · exact Coupling.couples_fail hK.toOrdered hm _
  split
  · exact Coupling.couples_fail hK.toOrdered hm _
  rw [if_neg ‹_›] at hg
  refine (h hm (hg (.group g.tail) List.mem_cons_self)).bind hK.toOrdered fun v m₁ hm₁ _ hv => ?_
  refine (couples_dereference hK hm₁ hv).bind hK.toOrdered fun w m₂ hm₂ _ _ => ?_
  cases w with
  | boolean strict =>
    refine ((hK.strict strict hm₂).couples_modify (P := fun _ _ => True) trivial).bind
      hK.toOrdered fun _ m₃ hm₃ _ _ => ?_
    refine (hK.couples_write (P := fun _ _ => True) hm₃ _ fun _ => trivial).bind hK.toOrdered ?_
    exact fun _ m₄ hm₄ _ _ => Coupling.couples_pure hK.toOrdered hm₄ hK.value_nil
  | _ => exact Coupling.couples_fail hK.toOrdered hm₂ _

theorem couples_conditional {g : Group} (hm : K.holds m)
    (hg : ∀ test body, Statement.conditionAndBody .conditional g = .ok (test, body) →
      K.group test m ∧ ∀ p ∈ Part.branches body, K.part p m) :
    K.Couples K.value (Statement.conditional ev g) (Statement.conditional ev' g) m := by
  rw [Statement.conditional]
  refine (Coupling.couples_ofExcept
    (P := fun parts m₁ => m₁ = m ∧ Statement.conditionAndBody .conditional g = .ok parts)
    hK.toOrdered hm fun _ hparts => ⟨rfl, hparts⟩).bind hK.toOrdered ?_
  rintro ⟨test, body⟩ m₁ - - ⟨rfl, hparts⟩
  obtain ⟨htest, hbranches⟩ := hg test body hparts
  refine (couples_condition hK h hm htest).bind hK.toOrdered fun b m₂ hm₂ hl₂ _ => ?_
  replace hbranches := fun p hp => hK.lasting_part hl₂ (hbranches p hp)
  rw [Part.branches] at hbranches
  split
  · -- The body is the block that follows.
    rw [if_pos ‹_›] at hbranches
    have hcapture := hK.capture true hm₂ (hbranches .block List.mem_cons_self)
    refine hcapture.bind hK.toOrdered fun block m₃ hm₃ _ hblock => ?_
    split
    · exact couples_runBlock hK h hm₃ hblock
    split
    · exact couples_runBlock hK h hm₃ hblock
    · exact Coupling.couples_pure hK.toOrdered hm₃
        (hK.value_of_reach (v := .boolean false) trivial rfl)
  · rw [if_neg ‹_›] at hbranches
    cases hspan : body.span fun item => !item.isElse with
    | mk first rest =>
      rw [hspan] at hbranches
      rcases rest with _ | ⟨item, _ | ⟨next, second⟩⟩
      · -- There is no `else`.
        dsimp only
        split
        · exact h hm₂ (hbranches (.group first) List.mem_cons_self)
        · exact Coupling.couples_pure hK.toOrdered hm₂ hK.value_nil
      · -- The second branch is the block that follows.
        rw [List.forall_mem_cons] at hbranches
        refine (hK.capture false hm₂ hbranches.1).bind hK.toOrdered ?_
        intro block m₃ hm₃ hl₃ hblock
        split
        · exact couples_optional hK h hm₃ fun p hp => hK.lasting_part hl₃ (hbranches.2 p hp)
        · exact couples_runBlock hK h hm₃ hblock
      · -- Both branches are on the line.
        rw [List.forall_mem_append] at hbranches
        cases b with
        | true => exact couples_optional hK h hm₂ hbranches.1
        | false => exact couples_optional hK h hm₂ hbranches.2

/-- A loop goes round as long as its body agrees, wherever the loop has led. -/
theorem couples_loop {test : Group} {body body' : Run Value} {level n n' : Nat}
    (hn : K.Outlasts n' n) (hm : K.holds m) (htest : K.group test m)
    (hbody : ∀ m', K.holds m' → K.leads m m' → K.Couples K.value body body' m') :
    K.Couples K.value (Statement.loop ev test body level n)
      (Statement.loop ev' test body' level n') m := by
  -- By induction on the fuel of the first run. The loop may go round from any
  -- machine that it has led to, so what is known there goes through the induction
  -- and not only what is known at its start.
  induction n generalizing n' m with
  | zero =>
    obtain rfl | ⟨hlenient, -⟩ := hn
    · exact Coupling.couples_throw hK.toOrdered hm .outOfFuel
    · exact Coupling.couples_of_lenient hlenient rfl
  | succ n ih =>
    obtain ⟨k, rfl, hk⟩ := hn.succ
    rw [Statement.loop, Statement.loop]
    refine Coupling.couples_get_bind ?_
    rw [hK.twin_alive hm]
    split
    · exact Coupling.couples_pure hK.toOrdered hm hK.value_nil
    refine (couples_condition hK h hm htest).bind hK.toOrdered fun b m₁ hm₁ hl₁ _ => ?_
    split
    · refine (hbody m₁ hm₁ hl₁).bind hK.toOrdered fun v m₂ hm₂ hl₂ hv => ?_
      have hl := hK.trans hl₁ hl₂
      refine Coupling.couples_get_bind ?_
      rw [hK.twin_level hm₂]
      split
      · exact Coupling.couples_pure hK.toOrdered hm₂ hv
      split
      · exact Coupling.couples_pure hK.toOrdered hm₂ hK.value_nil
      · exact ih hk hm₂ (hK.group_mono hl htest) fun m' hm' hl' => hbody m' hm' (hK.trans hl hl')
    · exact Coupling.couples_pure hK.toOrdered hm₁ hK.value_nil

/-- A loop in the frame that is on top. -/
theorem couples_repeated {fuel fuel' : Nat} {test : Group} {body body' : Run Value}
    (hfuel : K.Outlasts fuel' fuel) (hm : K.holds m) (htest : K.group test m)
    (hbody : ∀ m', K.holds m' → K.leads m m' → K.Couples K.value body body' m') :
    K.Couples K.value (Statement.repeated ev fuel test body)
      (Statement.repeated ev' fuel' test body') m := by
  refine Coupling.couples_get_bind ?_
  rw [hK.twin_level hm]
  exact couples_loop hK h hfuel hm htest hbody

theorem couples_repetition {g : Group} {fuel fuel' : Nat} (hfuel : K.Outlasts fuel' fuel)
    (hm : K.holds m)
    (hg : ∀ test body, Statement.conditionAndBody .repetition g = .ok (test, body) →
      K.group test m ∧ ∀ p ∈ Part.repeated body, K.part p m) :
    K.Couples K.value (Statement.repetition ev fuel g) (Statement.repetition ev' fuel' g) m := by
  rw [Statement.repetition]
  refine (Coupling.couples_ofExcept
    (P := fun parts m₁ => m₁ = m ∧ Statement.conditionAndBody .repetition g = .ok parts)
    hK.toOrdered hm fun _ hparts => ⟨rfl, hparts⟩).bind hK.toOrdered ?_
  rintro ⟨test, body⟩ m₁ - - ⟨rfl, hparts⟩
  obtain ⟨htest, hbody⟩ := hg test body hparts
  rw [Part.repeated] at hbody
  dsimp only
  split
  · rw [if_pos ‹_›] at hbody
    rw [bind_map_left, bind_map_left]
    refine (hK.capture false hm (hbody .block List.mem_cons_self)).bind hK.toOrdered ?_
    exact fun b m₂ hm₂ hl₂ hb => couples_repeated hK h hfuel hm₂ (hK.group_mono hl₂ htest)
      fun m' hm' _ => couples_runBlock hK h hm' hb
  · rw [if_neg ‹_›] at hbody
    rw [pure_bind, pure_bind]
    refine couples_repeated hK h hfuel hm htest fun m' hm' hl' => ?_
    exact h hm' (hK.group_mono hl' (hbody (.group body) List.mem_cons_self))

/-- A statement, if the evaluations and the calls agree. An expression and an
    assignment need more than that of the evaluations. -/
theorem couples_statement {g : Group} {fuel fuel' : Nat}
    (hexpression : g.keyword? = none → K.LeadTo K.looks ev ev' ∧
      K.Answer (fun m => 2 < g.length → K.looks m) call call')
    (hassign : g.keyword? = some .assignment → K.LeadTo K.assigns ev ev' ∧
      K.Gives Assignment.overwrite Assignment.overwrite) (hfuel : K.Outlasts fuel' fuel)
    (hm : K.holds m) (hl : K.looks m) (hparts : ∀ p ∈ Statement.parts g, K.part p m) :
    K.Couples K.value (Statement.statement ev call fuel g)
      (Statement.statement ev' call' fuel' g) m := by
  cases g with
  | nil => exact Coupling.couples_pure hK.toOrdered hm ⟨trivial, hK.shape_empty⟩
  | cons item g =>
    cases hk : Group.keyword? (item :: g) with
    | none =>
      simp only [Statement.parts, hk] at hparts
      simp only [Statement.statement, hk]
      obtain ⟨hlook, hcall⟩ := hexpression hk
      exact couples_expression hK hlook hcall (Nat.le_refl _) hm hl hparts
    | some k =>
      simp only [Statement.parts, hk] at hparts
      simp only [Statement.statement, hk]
      cases k with
      | directive => exact couples_directive hK h hm hparts
      | assignment => exact couples_run hK (hassign hk).1 (hassign hk).2 hm hl hparts
      | conditional =>
        refine couples_conditional hK h hm fun test body htb => ?_
        simp only [htb, List.forall_mem_cons] at hparts
        exact hparts
      | repetition =>
        refine couples_repetition hK h hfuel hm fun test body htb => ?_
        simp only [htb, List.forall_mem_cons] at hparts
        exact hparts
      | opening =>
        refine couples_opening hK hm fun hempty => ?_
        simp only [if_pos hempty] at hparts
        exact hparts .block List.mem_cons_self
      | _ => exact Coupling.couples_fail hK.toOrdered hm _

end

end Walk

end Linewise
