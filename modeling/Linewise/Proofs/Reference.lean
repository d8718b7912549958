import Linewise.Proofs.Name

/-!
# References and what they refer to

`@` puts a variable in front of another, and `~` takes one away again, so as many of either before
a name cancel out. The variables that `@` makes have no name; `let` takes what they hold, so that a
chain of references by name, each assigned to with one `@`, is linked without them.

* `Reference.reduce_make`, `Reference.reduce_follow`: one of the symbols, on a row that comes down
  to a variable;
* `Reference.reduce_makes`, `Reference.reduce_follows`: any number of them;
* `Referring.step`: one more reference by name;
* `references_cancel`: making references and following them, with and without names.
-/

namespace Linewise

/-! ## Variables that stay -/

namespace Memory

variable {m : Memory} {w : Variable} {a b s : VarRef}

theorem get?_addVariable_of_lt (hs : s.index < m.vars.size) :
    (m.addVariable w).2.get? s = m.get? s := by
  rw [get?_addVariable, if_neg (Nat.ne_of_lt hs)]

theorem read_addVariable_of_lt (hs : s.index < m.vars.size) :
    (m.addVariable w).2.read s = m.read s := by
  rw [read, get?_addVariable_of_lt hs, read]

/-- A link is from a variable that there is. -/
theorem Links.lt (h : m.Links a b) : a.index < m.vars.size := by
  refine Nat.lt_of_not_le fun hle => ?_
  rw [Links, read_of_le hle] at h
  cases h

theorem Links.addVariable (h : m.Links a b) : (m.addVariable w).2.Links a b :=
  (read_addVariable_of_lt h.lt).trans h

end Memory

/-! ## Values that are no variables -/

namespace Memory

variable {m : Memory} {v : Value}

theorem held_of_ne_var (hv : ∀ r, v ≠ .var r) : m.held v = v := by
  cases v with
  | var r => exact absurd rfl (hv r)
  | _ => rfl

/-- A value that is no variable may be given to every variable. -/
theorem accepts_of_ne_var {target : VarRef} (hv : ∀ r, v ≠ .var r) : m.Accepts target v := by
  rw [← checkReference_eq_ok_iff]
  unfold checkReference
  split
  · exact absurd rfl (hv _)
  · rfl

end Memory

/-! ## References before a term -/

/-- A name with symbols before it that make and follow references. -/
def Group.referred (marks : List Reference) (x : String) : Group :=
  marks.map (fun mark => .symbol mark.symbol) ++ [.symbol x]

namespace Reference

section

variable {γ : Type} {resolve : Term γ → Run Value} {row rest : List (Term γ)} {t : Term γ}
  {r s : VarRef} {ref : Nat → VarRef} {m m₁ : Machine} {n : Nat}

theorem ofTerm?_symbol (mark : Reference) :
    ofTerm? (.symbol mark.symbol : Term γ) = some mark :=
  ofSymbol?_eq_some_iff.2 rfl

/-- A name alone is left as it is. -/
theorem reduce_name {x : String} (hx : Symbol.isName x = true) (m : Machine) :
    reduce resolve [.symbol x] m = .ok [.symbol x] m :=
  reduce_eq_self (List.forall_mem_singleton.2 (Symbol.ofTerm?_of_isName hx)) m

/-- Of several symbols in a row the rightmost comes first. -/
theorem reduce_cons {mark : Reference} {v w : Value} {m₂ : Machine}
    (hrow : reduce resolve row m = .ok (t :: rest) m₁) (ht : resolve t m₁ = .ok v m₁)
    (hv : mark.apply v m₁ = .ok w m₂) :
    reduce resolve (.symbol mark.symbol :: row) m = .ok (.value w :: rest) m₂ := by
  rw [reduce, Run.bind_of_ok hrow, ofTerm?_symbol]
  dsimp only
  rw [Run.bind_of_ok ht, Run.bind_of_ok hv]
  rfl

theorem reduce_make (hrow : reduce resolve row m = .ok (t :: rest) m₁)
    (ht : resolve t m₁ = .ok (.var r) m₁) :
    reduce resolve (.symbol make.symbol :: row) m =
      .ok (.value (.var ⟨m₁.memory.vars.size⟩) :: rest) (m₁.refer r) :=
  reduce_cons hrow ht rfl

theorem reduce_follow (hrow : reduce resolve row m = .ok (t :: rest) m₁)
    (ht : resolve t m₁ = .ok (.var s) m₁) (hlink : m₁.memory.Links s r) :
    reduce resolve (.symbol follow.symbol :: row) m = .ok (.value (.var r) :: rest) m₁ := by
  refine reduce_cons hrow ht ?_
  rw [Memory.Links] at hlink
  rw [apply, Run.reading, followFrom, hlink]

/-- What is no reference cannot be followed. -/
theorem reduce_follow_error (hrow : reduce resolve row m = .ok (t :: rest) m₁)
    (ht : resolve t m₁ = .ok (.var s) m₁) (hvar : ∀ r, m₁.memory.read s ≠ .var r)
    (hfunction : ∀ f, m₁.memory.read s ≠ .function f) :
    reduce resolve (.symbol follow.symbol :: row) m = .error (.fault .notReference) m₁ := by
  have hfail : follow.apply (.var s) m₁ = .error (.fault .notReference) m₁ := by
    rw [apply, Run.reading, followFrom]
    cases hread : m₁.memory.read s with
    | var r => exact absurd hread (hvar r)
    | function f => exact absurd hread (hfunction f)
    | _ => rfl
  rw [reduce, Run.bind_of_ok hrow, ofTerm?_symbol]
  dsimp only
  rw [Run.bind_of_ok ht]
  exact Run.bind_eq_error.2 (.inl hfail)

/-- Along links, each symbol goes one back. -/
theorem reduce_follows (hvalue : ∀ v m, resolve (.value v) m = .ok v m)
    (hrow : reduce resolve row m = .ok (t :: rest) m₁)
    (ht : resolve t m₁ = .ok (.var (ref n)) m₁)
    (hlinks : ∀ i < n, m₁.memory.Links (ref (i + 1)) (ref i)) {k : Nat} (hk : k ≤ n) :
    ∃ t', reduce resolve (List.replicate k (.symbol follow.symbol) ++ row) m =
        .ok (t' :: rest) m₁ ∧
      resolve t' m₁ = .ok (.var (ref (n - k))) m₁ ∧
      (t' = .value (.var (ref (n - k))) ∨ k = 0 ∧ t' = t) := by
  induction k with
  | zero => exact ⟨t, hrow, ht, .inr ⟨rfl, rfl⟩⟩
  | succ k ih =>
    obtain ⟨t', hrow', ht', -⟩ := ih (Nat.le_of_succ_le hk)
    have hlink : m₁.memory.Links (ref (n - k)) (ref (n - (k + 1))) := by
      have hpred : n - k = n - (k + 1) + 1 := by omega
      rw [hpred]
      exact hlinks _ (by omega)
    refine ⟨.value (.var (ref (n - (k + 1)))), ?_, hvalue _ m₁, .inl rfl⟩
    rw [List.replicate_succ, List.cons_append]
    exact reduce_follow hrow' ht' hlink

/-- The variable itself, and then the references that are made one after the other. -/
def made (r : VarRef) (m : Machine) : Nat → VarRef
  | 0 => r
  | i + 1 => ⟨m.memory.vars.size + i⟩

/-- Each symbol makes a new variable, linked to the one before, and nothing else is
    changed. -/
theorem reduce_makes (hvalue : ∀ v m, resolve (.value v) m = .ok v m)
    (hrow : reduce resolve row m = .ok (t :: rest) m) (ht : resolve t m = .ok (.var r) m)
    (n : Nat) :
    ∃ (new : Array Variable) (t' : Term γ),
      let m' := { m with memory := { m.memory with vars := m.memory.vars ++ new } }
      reduce resolve (List.replicate n (.symbol make.symbol) ++ row) m = .ok (t' :: rest) m' ∧
        resolve t' m' = .ok (.var (made r m n)) m' ∧
        (t' = .value (.var (made r m n)) ∨ n = 0 ∧ t' = t) ∧ new.size = n ∧
        ∀ i < n, m'.memory.Links (made r m (i + 1)) (made r m i) := by
  induction n with
  | zero =>
    refine ⟨#[], t, ?_⟩
    rw [Array.append_empty]
    exact ⟨hrow, ht, .inr ⟨rfl, rfl⟩, rfl, nofun⟩
  | succ n ih =>
    obtain ⟨new, t', hrow', ht', -, hsize, hlinks⟩ := ih
    have hmade : made r m (n + 1) = ⟨(m.memory.vars ++ new).size⟩ := by
      rw [made, Array.size_append, hsize]
    refine ⟨new.push ⟨variableName, .var (made r m n)⟩, .value (.var (made r m (n + 1))), ?_⟩
    rw [Array.append_push]
    refine ⟨?_, hvalue _ _, .inl rfl, by rw [Array.size_push, hsize], fun i hi => ?_⟩
    · rw [hmade]
      exact reduce_make hrow' ht'
    · rcases Nat.lt_succ_iff_lt_or_eq.1 hi with hi | rfl
      · exact (hlinks i hi).addVariable
      · rw [hmade]
        exact Memory.read_addVariable_self (m := { m.memory with vars := m.memory.vars ++ new })
          (w := ⟨variableName, .var (made r m i)⟩)

end

theorem resolve_name {x : String} {v : Value} {m : Machine} (hx : m.find? x = some v) :
    Run.reading (fun m => m.resolve (.symbol x : Term Empty)) m = .ok v m := by
  rw [Run.reading, Scope.resolve, Scope.lookup, hx]

/-- A row of symbols that comes down to one value has that value. -/
theorem evaluate_referred {marks : List Reference} {x : String} (hx : Symbol.isName x = true)
    (fuel : Nat) (m : Machine) :
    evaluate (fuel + 1) (.referred marks x) m =
      (reduce (fun t => Run.reading fun m => m.resolve t)
        (marks.map (fun mark => .symbol mark.symbol) ++ [.symbol x]) >>=
        fun row => Run.reading fun m => m.value row) m := by
  have hne : Group.referred marks x ≠ [] :=
    List.append_ne_nil_of_right_ne_nil _ (List.cons_ne_nil _ _)
  have hkeyword : (Group.referred marks x).keyword? = none := by
    rcases marks with _ | ⟨mark, marks⟩
    · exact (Symbol.IsOperand.of_isName hx).keyword?_eq_none
    · cases mark <;> rfl
  have happlied : ∀ (done : Row) (marks : List Reference),
      Statement.applied (evaluate fuel) (Call.apply (evaluate fuel)) done (.referred marks x) m =
        .ok (done.reverse ++ (marks.map (fun mark => .symbol mark.symbol) ++ [.symbol x])) m := by
    intro done marks
    induction marks generalizing done with
    | nil =>
      rw [Group.referred, List.map_nil, List.nil_append, Statement.applied_symbol,
        Statement.applied, List.reverse_cons]
      rfl
    | cons mark marks ih =>
      rw [Group.referred, List.map_cons, List.cons_append, Statement.applied_symbol]
      refine (ih _).trans ?_
      rw [List.reverse_cons, List.append_assoc]
      rfl
  rw [evaluate, Statement.statement_eq_expression hne hkeyword, Statement.expression,
    Run.bind_of_ok (happlied [] marks)]
  rfl

/-- The value of a name with symbols before it. -/
theorem evaluate_of_reduce {marks : List Reference} {x : String} {v : Value} {m m' : Machine}
    {t : Term Empty} (hx : Symbol.isName x = true)
    (hreduce : reduce (fun t => Run.reading fun m => m.resolve t)
      (marks.map (fun mark => .symbol mark.symbol) ++ [.symbol x]) m = .ok [t] m')
    (ht : t = .value v ∨ t = .symbol x ∧ m'.find? x = some v) (fuel : Nat) :
    evaluate (fuel + 1) (.referred marks x) m = .ok v m' := by
  rw [evaluate_referred hx, Run.bind_of_ok hreduce]
  rcases ht with rfl | ⟨rfl, hv⟩
  · rfl
  · rw [Run.reading, Scope.value_operand (.of_isName hx), Scope.lookup, hv]

/-- With as many `@` before the name as there are `~`, the way back ends where it started. -/
theorem evaluate_follow_make {x : String} {r : VarRef} {m : Machine}
    (hx : Symbol.isName x = true) (hfound : m.find? x = some (.var r)) (n fuel : Nat) :
    ∃ new : Array Variable,
      evaluate (fuel + 1) (.referred (List.replicate n follow ++ List.replicate n make) x) m =
        .ok (.var r) { m with memory := { m.memory with vars := m.memory.vars ++ new } } := by
  have hrow := @reduce_name Empty (fun t => Run.reading fun m => m.resolve t) x hx m
  obtain ⟨new, t, hmakes, ht, hmade, -, hlinks⟩ :=
    reduce_makes (fun _ _ => rfl) hrow (resolve_name hfound) n
  obtain ⟨t', hfollows, -, hfollowed⟩ :=
    reduce_follows (fun _ _ => rfl) hmakes ht hlinks (Nat.le_refl n)
  rw [Nat.sub_self] at hfollowed
  refine ⟨new, evaluate_of_reduce (t := t') hx ?_ ?_ fuel⟩
  · rw [List.map_append, List.map_replicate, List.map_replicate, List.append_assoc]
    exact hfollows
  · rcases hfollowed with ht' | ⟨rfl, rfl⟩
    · exact .inl ht'
    · exact hmade.imp_right fun ht' => ⟨ht'.2, hfound⟩

end Reference

/-! ## References by name -/

/-- `let y₁ = @y₀`, `let y₂ = @y₁` and so on, one after the other. -/
def letReferences (fuel : Nat) (y : Nat → String) : Nat → Run PUnit
  | 0 => return ⟨⟩
  | n + 1 => do
    letReferences fuel y n
    let _ ← evaluate fuel
      (.symbol "let" :: .symbol (y (n + 1)) :: .symbol "=" :: Group.referred [.make] (y n))

/-- The variables of these names, the first of which is there already. Each assignment makes a
    reference without a name before the new variable. -/
def Reference.named (r : VarRef) (m : Machine) : Nat → VarRef
  | 0 => r
  | i + 1 => ⟨m.memory.vars.size + (2 * i + 1)⟩

/-- The machine after the first `n` of these assignments. -/
structure Referring (y : Nat → String) (r : VarRef) (m : Machine) (n : Nat) (m' : Machine) :
    Prop where
  found : ∀ i ≤ n, m'.frames.find? (y i) = some (Reference.named r m i)
  links : ∀ i < n, m'.memory.Links (Reference.named r m (i + 1)) (Reference.named r m i)
  other : ∀ x, (∀ i ≤ n, y i ≠ x) → m'.frames.find? x = m.frames.find? x
  registry : m'.memory.registry = m.memory.registry
  size : m'.memory.vars.size = m.memory.vars.size + 2 * n
  kept : ∀ s : VarRef, s.index < m.memory.vars.size → m'.memory.get? s = m.memory.get? s

namespace Referring

variable {y : Nat → String} {r : VarRef} {m m' : Machine} {n : Nat}

theorem zero (hx : m.frames.find? (y 0) = some r) : Referring y r m 0 m where
  found i hi := by rwa [Nat.le_zero.1 hi]
  links := nofun
  other _ _ := rfl
  registry := rfl
  size := rfl
  kept _ _ := rfl

theorem find? (h : Referring y r m n m')
    (hy : ∀ i ≤ n, Symbol.isName (y i) = true ∧ m.memory.registry.find? (y i) = none) {i : Nat}
    (hi : i ≤ n) : m'.find? (y i) = some (.var (Reference.named r m i)) := by
  rw [Scope.find?_name (hy i hi).1, h.registry, (hy i hi).2, h.found i hi]
  rfl

theorem size_refer (h : Referring y r m n m') (s : VarRef) :
    (m'.refer s).memory.vars.size = m.memory.vars.size + (2 * n + 1) := by
  rw [Machine.refer, Memory.size_addVariable, h.size]
  rfl

/-- One more reference, under a new name. -/
theorem step (h : Referring y r m n m')
    (hnew : ∀ i ≤ n, y i ≠ y (n + 1)) :
    Referring y r m (n + 1)
      (((m'.refer (Reference.named r m n)).declare (y (n + 1)) (.var (Reference.named r m n))).2)
      where
  found i hi := by
    refine (Frame.find?_bind ..).trans ?_
    rcases Nat.le_succ_iff.1 hi with hi | rfl
    · rw [if_neg (hnew i hi)]
      exact h.found i hi
    · rw [if_pos rfl, Reference.named, ← h.size_refer]
  links i hi := by
    rcases Nat.lt_succ_iff_lt_or_eq.1 hi with hi | rfl
    · exact ((h.links i hi).addVariable).addVariable
    · rw [Memory.Links, Reference.named, ← h.size_refer]
      exact Memory.read_addVariable_self
  other x hx := by
    refine (Frame.find?_bind ..).trans ?_
    rw [if_neg fun heq => hx (n + 1) (Nat.le_refl _) heq.symm]
    exact h.other x fun i hi => hx i (Nat.le_succ_of_le hi)
  registry := h.registry
  size := by
    refine (Memory.size_addVariable _).trans ?_
    rw [h.size_refer]
    omega
  kept s hs := by
    have hlt : s.index < m'.memory.vars.size := by
      rw [h.size]
      omega
    refine (Memory.get?_addVariable_of_lt ?_).trans ((Memory.get?_addVariable_of_lt hlt).trans ?_)
    · exact Nat.lt_of_lt_of_le hlt (Memory.size_le_addVariable _)
    · exact h.kept s hs

/-- The assignments succeed one after the other. -/
theorem exists_letReferences (hx : m.frames.find? (y 0) = some r) (n : Nat)
    (hy : ∀ i ≤ n, Symbol.isName (y i) = true ∧ m.memory.registry.find? (y i) = none)
    (hdistinct : ∀ i ≤ n, ∀ j ≤ n, y i = y j → i = j)
    (hnew : ∀ i ≤ n, 0 < i → m.frames.find? (y i) = none) (fuel : Nat) :
    ∃ m', letReferences (fuel + 2) y n m = .ok ⟨⟩ m' ∧ Referring y r m n m' := by
  induction n with
  | zero => exact ⟨m, rfl, .zero hx⟩
  | succ n ih =>
    obtain ⟨m', hrun, h⟩ := ih (fun i hi => hy i (Nat.le_succ_of_le hi))
      (fun i hi j hj => hdistinct i (Nat.le_succ_of_le hi) j (Nat.le_succ_of_le hj))
      fun i hi => hnew i (Nat.le_succ_of_le hi)
    have hne : ∀ i ≤ n, y i ≠ y (n + 1) := fun i hi heq =>
      Nat.ne_of_lt (Nat.lt_succ_of_le hi)
        (hdistinct i (Nat.le_succ_of_le hi) _ (Nat.le_refl _) heq)
    -- `@` makes a variable without a name, and what that holds is given to the new name.
    have hmake : evaluate (fuel + 1) (Group.referred [.make] (y n)) m' =
        .ok (.var ⟨m'.memory.vars.size⟩) (m'.refer (Reference.named r m n)) := by
      have hvalue := h.find? (fun i hi => hy i (Nat.le_succ_of_le hi)) (Nat.le_refl n)
      have hreduce : Reference.reduce (fun t => Run.reading fun m => m.resolve t)
          ([Reference.make].map (fun mark => .symbol mark.symbol) ++ [.symbol (y n)]) m' = _ :=
        Reference.reduce_make (Reference.reduce_name (hy n (Nat.le_succ n)).1 m')
          (Reference.resolve_name hvalue)
      exact Reference.evaluate_of_reduce (hy n (Nat.le_succ n)).1 hreduce (.inl rfl) fuel
    have hheld : (m'.refer (Reference.named r m n)).memory.held (.var ⟨m'.memory.vars.size⟩) =
        .var (Reference.named r m n) := Memory.read_addVariable_self
    have hfree : (m'.refer (Reference.named r m n)).frames.find? (y (n + 1)) = none :=
      (h.other _ hne).trans (hnew _ (Nat.le_refl _) (Nat.succ_pos n))
    have hassign : Assignment.assign (evaluate (fuel + 1)) Assignment.overwrite
        (.name (y (n + 1))) (Group.referred [.make] (y n)) m' = _ :=
      Assignment.assign_new hmake hfree
    rw [hheld] at hassign
    have hlet := (evaluate_let (hy _ (Nat.le_refl _)).1 (Group.referred [.make] (y n)) (fuel + 1)
      m').trans hassign
    refine ⟨_, ?_, h.step hne⟩
    rw [letReferences, Run.bind_of_ok hrun, Run.bind_of_ok hlet]
    rfl

end Referring

/-! ## Literals -/

/-- The item is a string, a number or one of the other constants. -/
inductive Item.Literal : Item → Value → Prop
  | text (s : String) : Literal (.text s) (.string s)
  | number {s : String} {n : Number} : Symbol.literal? s = some n → Literal (.symbol s) (.number n)
  | constant {s : String} {v : Value} :
      s ∈ ["yes", "no", "nil", "break"] → Scope.constant? s = some v → Literal (.symbol s) v

namespace Item.Literal

variable {item : Item} {v : Value}

/-- A literal is no variable. -/
theorem ne_var (h : Literal item v) (r : VarRef) : v ≠ .var r := by
  rintro rfl
  cases h with
  | constant _ hv =>
    unfold Scope.constant? at hv
    split at hv <;> cases hv

theorem isOperand {s : String} (h : Literal (.symbol s) v) : Symbol.IsOperand s := by
  cases h with
  | number hn => exact .inl (by rw [hn]; rfl)
  | constant hs => exact .inr (.inr hs)

/-- A literal stands for the same in every scope. -/
theorem lookup {s : String} (h : Literal (.symbol s) v) (scope : Scope) :
    scope.lookup s = .ok v := by
  cases h with
  | @number _ n hn =>
    have hconstant : Scope.constant? s = none := by
      unfold Scope.constant?
      split
      all_goals first
        | rfl
        | cases hn
    rw [Scope.lookup, Scope.find?, hconstant, hn]
    rfl
  | constant _ hv =>
    rw [Scope.lookup, Scope.find?, hv]
    rfl

theorem evaluate (h : Literal item v) (fuel : Nat) (m : Machine) :
    Linewise.evaluate (fuel + 1) [item] m = .ok v m := by
  cases item with
  | text s =>
    cases h
    have ht : (Tree.text s : Tree Group).Standard := trivial
    exact (ht.evaluate_items fuel m).trans rfl
  | symbol s => rw [evaluate_operand h.isOperand, Run.reading, h.lookup]
  | group g => cases h

end Item.Literal

/-! ## Assignments through references -/

namespace Referring

variable {y : Nat → String} {r : VarRef} {m m' : Machine} {n : Nat}

/-- Each `~` before the last name goes back by one, until there is nothing to go back to. -/
theorem reduce_follows {γ : Type} (h : Referring y r m n m') (resolve : Term γ → Run Value)
    (hy : ∀ i ≤ n, Symbol.isName (y i) = true ∧ m.memory.registry.find? (y i) = none)
    (hvalue : ∀ v m, resolve (.value v) m = .ok v m)
    (hsymbol : ∀ s m, resolve (.symbol s) m = Run.reading (fun m => m.lookup s) m) {k : Nat}
    (hk : k ≤ n) :
    ∃ t, Reference.reduce resolve
        ((List.replicate k Reference.follow).map (fun mark => .symbol mark.symbol) ++
          [.symbol (y n)]) m' = .ok [t] m' ∧
      resolve t m' = .ok (.var (Reference.named r m (n - k))) m' ∧
      (t = .value (.var (Reference.named r m (n - k))) ∨ k = 0 ∧ t = .symbol (y n)) := by
  have hrow := @Reference.reduce_name _ resolve _ (hy n (Nat.le_refl n)).1 m'
  have hlast : resolve (.symbol (y n)) m' = .ok (.var (Reference.named r m n)) m' := by
    rw [hsymbol, Run.reading, Scope.lookup, h.find? hy (Nat.le_refl n)]
  rw [List.map_replicate]
  exact Reference.reduce_follows hvalue hrow hlast h.links hk

theorem evaluate_follow (h : Referring y r m n m')
    (hy : ∀ i ≤ n, Symbol.isName (y i) = true ∧ m.memory.registry.find? (y i) = none) {k : Nat}
    (hk : k ≤ n) (fuel : Nat) :
    evaluate (fuel + 1) (.referred (List.replicate k .follow) (y n)) m' =
      .ok (.var (Reference.named r m (n - k))) m' := by
  obtain ⟨t, hreduce, -, ht⟩ := h.reduce_follows (fun t => Run.reading fun m => m.resolve t) hy
    (fun _ _ => rfl) (fun _ _ => rfl) hk
  refine Reference.evaluate_of_reduce (hy n (Nat.le_refl n)).1 hreduce ?_ fuel
  refine ht.imp_right fun ⟨hk, ht⟩ => ⟨ht, ?_⟩
  rw [hk]
  exact h.find? hy (Nat.le_refl n)

/-- One step further back than the first variable. -/
theorem evaluate_follow_error (h : Referring y r m n m')
    (hy : ∀ i ≤ n, Symbol.isName (y i) = true ∧ m.memory.registry.find? (y i) = none)
    (hvar : ∀ s, m'.memory.read r ≠ .var s) (hfunction : ∀ f, m'.memory.read r ≠ .function f)
    (fuel : Nat) :
    evaluate (fuel + 1) (.referred (List.replicate (n + 1) .follow) (y n)) m' =
      .error (.fault .notReference) m' := by
  obtain ⟨t, hreduce, ht, -⟩ := h.reduce_follows (fun t => Run.reading fun m => m.resolve t) hy
    (fun _ _ => rfl) (fun _ _ => rfl) (Nat.le_refl n)
  rw [Nat.sub_self] at ht
  rw [Reference.evaluate_referred (hy n (Nat.le_refl n)).1, List.replicate_succ, List.map_cons]
  exact Run.bind_eq_error.2 (.inl (Reference.reduce_follow_error hreduce ht hvar hfunction))

/-- What is assigned at the end of the way is given to the first variable. -/
theorem evaluate_let_follow (h : Referring y r m n m')
    (hy : ∀ i ≤ n, Symbol.isName (y i) = true ∧ m.memory.registry.find? (y i) = none)
    {item : Item} {v : Value} (hv : item.Literal v) (fuel : Nat) :
    evaluate (fuel + 2) (.symbol "let" ::
        (Group.referred (List.replicate n .follow) (y n) ++ [.symbol "=", item])) m' =
      .ok (.var r) { m' with memory := m'.memory.write r v } := by
  have hyn := (hy n (Nat.le_refl n)).1
  obtain ⟨t, hreduce, -, ht⟩ := h.reduce_follows (Assignment.resolve (evaluate (fuel + 1))) hy
    (fun _ _ => rfl) (fun _ _ => rfl) (Nat.le_refl n)
  rw [Nat.sub_self] at ht
  obtain ⟨target, htarget, hexisting⟩ : ∃ target,
      Assignment.target (evaluate (fuel + 1)) t m' = .ok target m' ∧
        target.existing? m' = some r := by
    rcases ht with rfl | ⟨rfl, rfl⟩
    · exact ⟨.variable r, rfl, rfl⟩
    · refine ⟨.name (y 0), ?_, h.found 0 (Nat.le_refl 0)⟩
      rw [Assignment.target, if_pos hyn]
      rfl
  have hhead : ∀ item ∈ Group.referred (List.replicate n .follow) (y n),
      item.isSymbol "=" = false := by
    have hne : y n ≠ "=" := (Symbol.IsOperand.of_isName hyn).ne (by decide)
    refine List.forall_mem_append.2 ⟨List.forall_mem_map.2 fun mark hmark => ?_,
      List.forall_mem_singleton.2 (beq_eq_false_iff_ne.2 fun heq => hne (Option.some.inj heq))⟩
    rw [(List.mem_replicate.1 hmark).2]
    rfl
  have hterms : (Group.referred (List.replicate n .follow) (y n)).map Assignment.headTerm =
      (List.replicate n Reference.follow).map (fun mark => .symbol mark.symbol) ++
        [.symbol (y n)] := by
    rw [Group.referred, List.map_append, List.map_map]
    rfl
  have hrun : Assignment.run (evaluate (fuel + 1)) Assignment.overwrite
      (Group.referred (List.replicate n .follow) (y n) ++ [.symbol "=", item]) m' = _ :=
    Assignment.run_of_head hhead
      (List.append_ne_nil_of_right_ne_nil _ (List.cons_ne_nil _ _)) (hterms ▸ hreduce) htarget
  have hassign := Assignment.assign_existing (hv.evaluate fuel m') hexisting
  rw [Memory.held_of_ne_var hv.ne_var,
    Assignment.overwrite_of_accepts (Memory.accepts_of_ne_var hv.ne_var)] at hassign
  rw [evaluate, Statement.statement_of_assignment rfl, List.tail_cons]
  exact hrun.trans hassign

end Referring

/-- References cancel out, and so do those that are kept under new names: of `n` names, the
    last one is `n` references away from the first, one more step back is a type error unless
    the first variable is a reference itself, and what is assigned at the end of the way is
    given to that variable. -/
theorem references_cancel {y : Nat → String} {n : Nat} {r : VarRef} {m : Machine}
    (hy : ∀ i ≤ n, Symbol.isName (y i) = true ∧ m.memory.registry.find? (y i) = none)
    (hdistinct : ∀ i ≤ n, ∀ j ≤ n, y i = y j → i = j)
    (hx : m.frames.find? (y 0) = some r) (hr : r.index < m.memory.vars.size) (fuel : Nat) :
    (∃ new : Array Variable,
      evaluate (fuel + 1)
          (.referred (List.replicate n .follow ++ List.replicate n .make) (y 0)) m =
        .ok (.var r) { m with memory := { m.memory with vars := m.memory.vars ++ new } }) ∧
    ((∀ i ≤ n, 0 < i → m.frames.find? (y i) = none) →
      ∃ m', letReferences (fuel + 2) y n m = .ok ⟨⟩ m' ∧
        (∀ s : VarRef, s.index < m.memory.vars.size → m'.memory.get? s = m.memory.get? s) ∧
        m'.frames.find? (y 0) = some r ∧
        (∀ k ≤ n, ∃ s, m'.frames.find? (y (n - k)) = some s ∧
          evaluate (fuel + 1) (.referred (List.replicate k .follow) (y n)) m' = .ok (.var s) m') ∧
        ((∀ s, m.memory.read r ≠ .var s) → (∀ f, m.memory.read r ≠ .function f) →
          ∃ f, evaluate (fuel + 1) (.referred (List.replicate (n + 1) .follow) (y n)) m' =
            .error (.fault f) m' ∧ f.report.kind = .type) ∧
        ∀ {item v}, item.Literal v → ∃ m'',
          evaluate (fuel + 2) (.symbol "let" ::
              (Group.referred (List.replicate n .follow) (y n) ++ [.symbol "=", item])) m' =
            .ok (.var r) m'' ∧
          m''.memory.read r = v ∧
          (∀ s, s ≠ r → m''.memory.get? s = m'.memory.get? s) ∧ m''.frames = m'.frames) := by
  refine ⟨?_, fun hnew => ?_⟩
  · exact Reference.evaluate_follow_make (hy 0 (Nat.zero_le n)).1
      ((Referring.zero hx).find? (fun i hi => hy i (Nat.le_trans hi (Nat.zero_le n)))
        (Nat.le_refl 0)) n fuel
  obtain ⟨m', hrun, h⟩ := Referring.exists_letReferences hx n hy hdistinct hnew fuel
  have hread : m'.memory.read r = m.memory.read r := by
    rw [Memory.read, h.kept r hr, Memory.read]
  have hsize : r.index < m'.memory.vars.size := by
    rw [h.size]
    omega
  refine ⟨m', hrun, h.kept, h.found 0 (Nat.zero_le n), fun k hk => ?_,
    fun hvar hfunction => ?_, fun {item v} hv => ?_⟩
  · exact ⟨_, h.found _ (Nat.sub_le n k), h.evaluate_follow hy hk fuel⟩
  · rw [← hread] at hvar hfunction
    exact ⟨.notReference, h.evaluate_follow_error hy hvar hfunction fuel, rfl⟩
  · refine ⟨_, h.evaluate_let_follow hy hv fuel, Memory.read_write_self hsize, fun s hs => ?_, rfl⟩
    exact Memory.get?_write_of_ne _ hs _

/-- `z` is a reference to `y`, and that one to `x`. -/
theorem references_cancel_two :
    let y : Nat → String := fun i => ["x", "y", "z"].getD i ""
    let m := ((Machine.start (.script []) (fun _ => .error .notFound) (mkStdGen 0)).declare
      "x" (.integer 1)).2
    (∀ i ≤ 2, Symbol.isName (y i) = true ∧ m.memory.registry.find? (y i) = none) ∧
      (∀ i ≤ 2, ∀ j ≤ 2, y i = y j → i = j) ∧
      m.frames.find? (y 0) = some ⟨0⟩ ∧ 0 < m.memory.vars.size ∧
      (∀ i ≤ 2, 0 < i → m.frames.find? (y i) = none) ∧
      ∃ m', letReferences 2 y 2 m = .ok ⟨⟩ m' ∧
        ∃ s, m'.frames.find? "x" = some s ∧
          evaluate 1 [.symbol "~", .symbol "~", .symbol "z"] m' = .ok (.var s) m' := by
  intro y m
  have hy : ∀ i ≤ 2, Symbol.isName (y i) = true ∧ m.memory.registry.find? (y i) = none := by
    revert y m
    decide
  have hdistinct : ∀ i ≤ 2, ∀ j ≤ 2, y i = y j → i = j := by
    revert y m
    decide
  have hnew : ∀ i ≤ 2, 0 < i → m.frames.find? (y i) = none := by
    revert y m
    decide
  obtain ⟨-, hnames⟩ := references_cancel hy hdistinct rfl Nat.zero_lt_one 0
  obtain ⟨m', hrun, -, -, hfollow, -⟩ := hnames hnew
  exact ⟨hy, hdistinct, rfl, Nat.zero_lt_one, hnew, m', hrun, hfollow 2 (Nat.le_refl 2)⟩

end Linewise
