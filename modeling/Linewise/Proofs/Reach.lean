import Linewise.Call

/-!
# The reach of values

A value may refer to variables and to functions, directly or in a list. Values
that only refer to certain ones lead to no others: not by what those variables
hold, and not by what is computed from them.

* `Value.Within`: all variables and functions in a value are among certain ones;
* `Memory.Closed`: what those variables hold only refers to such ones again;
* `Operation.Keeps`: what operators make of values keeps a property of them, as it
  does with this one (`keeps_within`);
* `Scope.value_all`: so does the value of an expression.
-/

namespace Linewise

variable {var : VarRef → Prop} {fn : FunctionRef → Prop}

/-! ## Values -/

mutual

/-- The variables in a value satisfy `var`, and the functions `fn`. -/
def Value.Within (var : VarRef → Prop) (fn : FunctionRef → Prop) : Value → Prop
  | .list values => Value.AllWithin var fn values
  | .var r => var r
  | .function f => fn f
  | _ => True

def Value.AllWithin (var : VarRef → Prop) (fn : FunctionRef → Prop) : List Value → Prop
  | [] => True
  | v :: values => v.Within var fn ∧ Value.AllWithin var fn values

end

theorem Value.allWithin_iff {values : List Value} :
    Value.AllWithin var fn values ↔ ∀ v ∈ values, v.Within var fn := by
  induction values with
  | nil => simp [AllWithin]
  | cons v values ih => rw [AllWithin, ih, List.forall_mem_cons]

theorem Value.within_list {values : List Value} :
    (Value.list values).Within var fn ↔ ∀ v ∈ values, v.Within var fn :=
  Value.allWithin_iff

mutual

theorem Value.Within.imp {var' : VarRef → Prop} {fn' : FunctionRef → Prop}
    (hvar : ∀ r, var r → var' r) (hfn : ∀ f, fn f → fn' f) :
    ∀ {v : Value}, v.Within var fn → v.Within var' fn'
  | .list _, h => Value.AllWithin.imp hvar hfn h
  | .var r, h => hvar r h
  | .function f, h => hfn f h
  | .number _, _ | .boolean _, _ | .string _, _ | .nil, _ | .loopExit, _ | .parameters _, _
  | .block _, _ => trivial

theorem Value.AllWithin.imp {var' : VarRef → Prop} {fn' : FunctionRef → Prop}
    (hvar : ∀ r, var r → var' r) (hfn : ∀ f, fn f → fn' f) :
    ∀ {values : List Value}, Value.AllWithin var fn values → Value.AllWithin var' fn' values
  | [], _ => trivial
  | _ :: _, ⟨hv, hvs⟩ => ⟨Value.Within.imp hvar hfn hv, Value.AllWithin.imp hvar hfn hvs⟩

end

mutual

theorem Value.Within.of_forall (hvar : ∀ r, var r) (hfn : ∀ f, fn f) :
    ∀ {v : Value}, v.Within var fn
  | .list _ => Value.AllWithin.of_forall hvar hfn
  | .var r => hvar r
  | .function f => hfn f
  | .number _ | .boolean _ | .string _ | .nil | .loopExit | .parameters _ | .block _ => trivial

theorem Value.AllWithin.of_forall (hvar : ∀ r, var r) (hfn : ∀ f, fn f) :
    ∀ {values : List Value}, Value.AllWithin var fn values
  | [] => trivial
  | _ :: _ => ⟨Value.Within.of_forall hvar hfn, Value.AllWithin.of_forall hvar hfn⟩

end

/-- The value is a number, a boolean or a string. -/
def Value.Simple : Value → Prop
  | .number _ | .boolean _ | .string _ => True
  | _ => False

theorem Value.Simple.within {v : Value} (h : v.Simple) : v.Within var fn := by
  cases v with
  | number n => trivial
  | boolean b => trivial
  | string s => trivial
  | _ => exact h.elim

def Value.isList : Value → Bool
  | .list _ => true
  | _ => false

theorem Value.Simple.isList {v : Value} (h : v.Simple) : v.isList = false := by
  cases v with
  | list values => exact h.elim
  | _ => rfl

mutual

theorem Value.flattenWith_within {contents : VarRef → List Value}
    (hc : ∀ r, var r → ∀ v ∈ contents r, v.Within var fn) :
    ∀ {v : Value}, v.Within var fn → ∀ w ∈ v.flattenWith contents, w.Within var fn
  | .list _, hv => Value.flattenAllWith_within hc hv
  | .var r, hv => hc r hv
  | .function _, hv | .number _, hv | .boolean _, hv | .string _, hv | .nil, hv | .loopExit, hv
  | .parameters _, hv | .block _, hv => by
    intro w hw
    rw [flattenWith, List.mem_singleton] at hw
    · exact hw ▸ hv
    all_goals nofun

theorem Value.flattenAllWith_within {contents : VarRef → List Value}
    (hc : ∀ r, var r → ∀ v ∈ contents r, v.Within var fn) :
    ∀ {values : List Value}, Value.AllWithin var fn values →
      ∀ w ∈ Value.flattenAllWith contents values, w.Within var fn
  | [], _ => fun _ hw => absurd hw List.not_mem_nil
  | _ :: _, ⟨hv, hvs⟩ => fun w hw =>
    (List.mem_append.1 hw).elim (Value.flattenWith_within hc hv w)
      (Value.flattenAllWith_within hc hvs w)

end

/-! ## Memory -/

namespace Memory

/-- What the variables that satisfy `var` hold is within `var` and `fn`. -/
def Closed (m : Memory) (var : VarRef → Prop) (fn : FunctionRef → Prop) : Prop :=
  ∀ r, var r → (m.read r).Within var fn

variable {m : Memory} (h : m.Closed var fn)

include h

theorem held_within {v : Value} (hv : v.Within var fn) : (m.held v).Within var fn := by
  cases v with
  | var r => exact h r hv
  | _ => exact hv

theorem follow_within {n : Nat} {v w : Value} (hv : v.Within var fn) (hw : m.follow n v = .ok w) :
    w.Within var fn := by
  induction n generalizing v with
  | zero => cases hw
  | succ n ih =>
    cases v with
    | var r => exact ih (h r hv) hw
    | _ =>
      cases hw
      exact hv

theorem Closed.addVariable {v : Variable} (hv : v.value.Within var fn) :
    (m.addVariable v).2.Closed var fn := by
  intro r hr
  rw [read, get?_addVariable]
  split
  · exact hv
  · exact h r hr

theorem Closed.write (r : VarRef) {v : Value} (hv : v.Within var fn) :
    (m.write r v).Closed var fn := by
  intro r' hr'
  have hread := h r' hr'
  rw [read, get?_write]
  rw [read] at hread
  split
  · cases hget : m.get? r' with
    | none => trivial
    | some w => exact hv
  · exact hread

theorem contents_within (n : Nat) (r : VarRef) (hr : var r) :
    ∀ v ∈ m.contents n r, v.Within var fn := by
  -- A list that a variable holds is flattened in turn, and the variables in it
  -- satisfy `var` again.
  induction n generalizing r with
  | zero => exact List.forall_mem_nil _
  | succ n ih =>
    have hread := h r hr
    rw [contents]
    split
    · rename_i values hl
      rw [hl] at hread
      exact Value.flattenAllWith_within ih hread
    · intro v hv
      rw [List.mem_singleton] at hv
      exact hv ▸ hread

theorem flatten_within {v : Value} (hv : v.Within var fn) :
    ∀ w ∈ m.flatten v, w.Within var fn :=
  Value.flattenWith_within (contents_within h m.vars.size) hv

omit h in
/-- What can be called is what is called, or a variable that holds it. -/
theorem held_of_callable? {v : Value} {f : FunctionRef}
    (hc : m.callable? v = some (.function f)) : m.held v = .function f := by
  rw [callable?, function?] at hc
  split at hc
  · rename_i g hg
    cases hc
    exact hg
  · rw [block?] at hc
    split at hc <;> cases hc

theorem arguments_within {v : Value} (hv : v.Within var fn) :
    ∀ w ∈ m.arguments v, w.Within var fn := by
  unfold arguments
  split
  · exact Value.within_list.1 hv
  · exact flatten_within h hv

end Memory

/-! ## Operations -/

namespace Operation

variable {m : Memory} {a b v : Value}

theorem arithmetic_simple {op : Arithmetic} (hv : arithmetic m op a b = .ok v) :
    v.Simple := by
  simp only [arithmetic, bind_eq_ok] at hv
  obtain ⟨_, -, _, -, hv⟩ := hv
  split at hv
  · split at hv <;> cases hv
    trivial
  · cases hv
  · cases hv
  · cases hv
  · cases hv
  · simp only [bind_eq_ok] at hv
    obtain ⟨_, -, _, -, _, -, hv⟩ := hv
    cases hv
    trivial

theorem power_simple (hv : power m a b = .ok v) : v.Simple := by
  simp only [power, bind_eq_ok] at hv
  obtain ⟨_, -, _, -, _, -, _, -, _, -, hv⟩ := hv
  cases hv
  trivial

theorem modulus_simple (hv : modulus m a = .ok v) : v.Simple := by
  simp only [modulus, bind_eq_ok] at hv
  obtain ⟨_, -, _, -, _, -, hv⟩ := hv
  cases hv
  trivial

theorem negate_simple (hv : negate m a = .ok v) : v.Simple := by
  simp only [negate, bind_eq_ok] at hv
  obtain ⟨_, -, hv⟩ := hv
  split at hv
  · obtain ⟨_, -, hv⟩ := bind_eq_ok.1 hv
    cases hv
    trivial
  · cases hv

theorem compare_simple {op : Comparison} (hv : compare m op a b = .ok v) : v.Simple := by
  simp only [compare, bind_eq_ok] at hv
  obtain ⟨_, -, _, -, _, -, _, -, hv⟩ := hv
  cases hv
  trivial

theorem equality_simple {op : Equality} (hv : equality m op a b = .ok v) : v.Simple := by
  cases op <;> obtain ⟨_, -, hv⟩ := bind_eq_ok.1 hv <;> cases hv <;> trivial

theorem logic_simple {op : Connective} (hv : logic m op a b = .ok v) : v.Simple := by
  simp only [logic, bind_eq_ok] at hv
  obtain ⟨_, -, _, -, hv⟩ := hv
  cases op <;> cases hv <;> trivial

/-- Only the comma gives values that are not simple. -/
theorem apply_simple_of_ne {op : Operator} (hop : op ≠ .enumerate) (hv : apply m op a b = .ok v) :
    v.Simple := by
  cases op with
  | power => exact power_simple hv
  | arithmetic op => exact arithmetic_simple hv
  | equality op => exact equality_simple hv
  | comparison op => exact compare_simple hv
  | logic op => exact logic_simple hv
  | enumerate => exact absurd rfl hop

/-- What operators make of values that satisfy `P` satisfies it too. -/
structure Keeps (m : Memory) (P : Value → Prop) : Prop where
  nil : P .nil
  modulus : ∀ {a v}, P a → Operation.modulus m a = .ok v → P v
  negate : ∀ {a v}, P a → Operation.negate m a = .ok v → P v
  apply : ∀ {op a b v}, P a → P b → Operation.apply m op a b = .ok v → P v

theorem Keeps.and {P Q : Value → Prop} (hP : Keeps m P) (hQ : Keeps m Q) :
    Keeps m fun v => P v ∧ Q v where
  nil := ⟨hP.nil, hQ.nil⟩
  modulus ha hv := ⟨hP.modulus ha.1 hv, hQ.modulus ha.2 hv⟩
  negate ha hv := ⟨hP.negate ha.1 hv, hQ.negate ha.2 hv⟩
  apply ha hb hv := ⟨hP.apply ha.1 hb.1 hv, hQ.apply ha.2 hb.2 hv⟩

theorem keeps_within (h : m.Closed var fn) : Keeps m (·.Within var fn) where
  nil := trivial
  modulus _ hv := (modulus_simple hv).within
  negate _ hv := (negate_simple hv).within
  apply {op a b v} ha hb hv := by
    by_cases hop : op = .enumerate
    · subst hop
      obtain rfl := Except.ok.inj hv
      refine Value.within_list.2 fun w hw => ?_
      exact (List.mem_append.1 hw).elim (Memory.arguments_within h ha w)
        (Memory.flatten_within h hb w)
    · exact (apply_simple_of_ne hop hv).within

end Operation

/-! ## Symbols -/

/-- The variables of the frame satisfy `var`. -/
def Frame.Within (var : VarRef → Prop) (f : Frame) : Prop :=
  ∀ p ∈ f, var p.2

namespace Frame

variable {f : Frame} {name : String} {r : VarRef}

theorem Within.imp {var' : VarRef → Prop} (h : f.Within var) (hvar : ∀ r, var r → var' r) :
    f.Within var' :=
  fun p hp => hvar p.2 (h p hp)

theorem Within.find? (h : f.Within var) (hr : f.find? name = some r) : var r := by
  obtain ⟨l₁, l₂, hf, -⟩ := List.lookup_eq_some_iff.1 hr
  exact h (name, r) (hf ▸ List.mem_append_right l₁ List.mem_cons_self)

theorem Within.bind (h : f.Within var) (hr : var r) : (f.bind name r).Within var := by
  induction f with
  | nil => exact List.forall_mem_cons.2 ⟨hr, nofun⟩
  | cons p f ih =>
    obtain ⟨hp, hf⟩ := List.forall_mem_cons.1 h
    rw [Frame.bind]
    split
    · exact List.forall_mem_cons.2 ⟨hr, hf⟩
    · exact List.forall_mem_cons.2 ⟨hp, ih hf⟩

end Frame

/-- No symbol stands for a list. -/
theorem Scope.isList_of_find? {s : Scope} {symbol : String} {v : Value}
    (hv : s.find? symbol = some v) : v.isList = false := by
  simp only [find?, Option.or_eq_some_iff, Option.map_eq_some_iff] at hv
  rcases hv with hv | ⟨-, ⟨n, -, rfl⟩ | ⟨-, ⟨f, hf, rfl⟩ | ⟨-, r, hr, rfl⟩⟩⟩
  · unfold constant? at hv
    split at hv <;> cases hv <;> rfl
  · rfl
  · rfl
  · rfl

/-- Of what a symbol stands for only variables and functions refer to anything. -/
theorem Scope.find?_within {s : Scope} {symbol : String} {v : Value}
    (hvar : ∀ r, s.frames.find? symbol = some r → var r)
    (hfn : ∀ f, s.memory.registry.find? symbol = some f → fn f)
    (hv : s.find? symbol = some v) : v.Within var fn := by
  simp only [find?, Option.or_eq_some_iff, Option.map_eq_some_iff] at hv
  rcases hv with hv | ⟨-, ⟨n, -, rfl⟩ | ⟨-, ⟨f, hf, rfl⟩ | ⟨-, r, hr, rfl⟩⟩⟩
  · unfold constant? at hv
    split at hv <;> cases hv <;> trivial
  · trivial
  · exact hfn f hf
  · exact hvar r hr

/-! ## Expressions -/

/-- What a term is satisfies the property for symbols, values or groups. -/
def Term.All {γ : Type} (symbol : String → Prop) (value : Value → Prop) (group : γ → Prop) :
    Term γ → Prop
  | .symbol s => symbol s
  | .value v => value v
  | .group g => group g

theorem Term.All.imp {γ : Type} {symbol symbol' : String → Prop} {value value' : Value → Prop}
    {group group' : γ → Prop} {t : Term γ} (h : t.All symbol value group)
    (hs : ∀ s, symbol s → symbol' s) (hv : ∀ v, value v → value' v)
    (hg : ∀ g, group g → group' g) : t.All symbol' value' group' := by
  cases t with
  | symbol s => exact hs s h
  | value v => exact hv v h
  | group g => exact hg g h

/-- The symbols of a row satisfy `symbol`, and its values `value`. -/
def Row.All (symbol : String → Prop) (value : Value → Prop) (row : Row) : Prop :=
  ∀ t ∈ row, t.All symbol value fun _ => True

theorem Row.all_cons {symbol : String → Prop} {value : Value → Prop} {t : Term Empty} {row : Row} :
    Row.All symbol value (t :: row) ↔
      t.All symbol value (fun _ => True) ∧ Row.All symbol value row :=
  List.forall_mem_cons

namespace Scope

variable {symbol : String → Prop} {P : Value → Prop} {s : Scope}
  (h : Operation.Keeps s.memory P) (hs : ∀ name v, symbol name → s.find? name = some v → P v)

include hs in
theorem resolve_all {t : Term Empty} (ht : t.All symbol P fun _ => True) {v : Value}
    (hv : s.resolve t = .ok v) : P v := by
  cases t with
  | symbol name =>
    simp only [resolve, lookup] at hv
    split at hv
    · rename_i w hw
      obtain rfl := Except.ok.inj hv
      exact hs name w ht hw
    · cases hv
  | value w => exact Except.ok.inj hv ▸ ht
  | group g => exact g.elim

include h hs

theorem moduli_all {row row' : Row} (hrow : Row.All symbol P row)
    (hv : s.moduli row = .ok row') : Row.All symbol P row' := by
  fun_induction s.moduli row generalizing row' with
  | case1 => exact Except.ok.inj hv ▸ hrow
  | case2 t ht x bar row hbar ih =>
    simp only [bind_eq_ok] at hv
    obtain ⟨a, ha, v, hmod, rest, hrest, hv⟩ := hv
    cases hv
    rw [Row.all_cons, Row.all_cons, Row.all_cons] at hrow
    obtain ⟨-, hx, -, hrow⟩ := hrow
    exact Row.all_cons.2 ⟨h.modulus (resolve_all hs hx ha) hmod, ih hrow hrest⟩
  | case3 | case4 => cases hv
  | case5 t row ht ih =>
    obtain ⟨rest, hrest, hv⟩ := bind_eq_ok.1 hv
    cases hv
    rw [Row.all_cons] at hrow ⊢
    exact ⟨hrow.1, ih hrow.2 hrest⟩

theorem negationsAfter_all {o : Bool} {row row' : Row} (hrow : Row.All symbol P row)
    (hv : s.negationsAfter o row = .ok row') : Row.All symbol P row' := by
  fun_induction s.negationsAfter o row generalizing row' with
  | case1 => exact Except.ok.inj hv ▸ hrow
  | case2 operand t row ih =>
    obtain ⟨rest, hrest, hv⟩ := bind_eq_ok.1 hv
    rw [Row.all_cons] at hrow
    have hall := ih hrow.2 hrest
    split at hv
    · cases rest with
      | nil => cases hv
      | cons x rest =>
        simp only [bind_eq_ok] at hv
        obtain ⟨a, ha, v, hneg, hv⟩ := hv
        cases hv
        rw [Row.all_cons] at hall
        exact Row.all_cons.2 ⟨h.negate (resolve_all hs hall.1 ha) hneg, hall.2⟩
    · cases hv
      exact Row.all_cons.2 ⟨hrow.1, hall⟩

theorem levelFrom_all {n : Nat} {left : Term Empty} {row row' : Row}
    (hrow : Row.All symbol P (left :: row)) (hv : s.levelFrom n left row = .ok row') :
    Row.All symbol P row' := by
  -- The result of an operation is the left operand of what follows, so it is in
  -- the row that the induction goes on with.
  fun_induction s.levelFrom n left row generalizing row' with
  | case1 => exact Except.ok.inj hv ▸ hrow
  | case2 left t row ht ih =>
    obtain ⟨rest, hrest, hv⟩ := bind_eq_ok.1 hv
    cases hv
    rw [Row.all_cons] at hrow ⊢
    exact ⟨hrow.1, ih hrow.2 hrest⟩
  | case3 => cases hv
  | case4 left t op ht right row ih =>
    simp only [bind_eq_ok] at hv
    obtain ⟨a, ha, b, hb, v, hop, hv⟩ := hv
    rw [Row.all_cons, Row.all_cons, Row.all_cons] at hrow
    obtain ⟨hleft, -, hright, hrest⟩ := hrow
    refine ih v (Row.all_cons.2 ⟨?_, hrest⟩) hv
    exact h.apply (resolve_all hs hleft ha) (resolve_all hs hright hb) hop

theorem level_all {n : Nat} {row row' : Row} (hrow : Row.All symbol P row)
    (hv : s.level n row = .ok row') : Row.All symbol P row' := by
  unfold level at hv
  split at hv
  · exact Except.ok.inj hv ▸ hrow
  · split at hv
    · cases hv
    · exact levelFrom_all h hs hrow hv

theorem operators_all {row row' : Row} (hrow : Row.All symbol P row)
    (hv : s.operators row = .ok row') : Row.All symbol P row' := by
  rw [operators] at hv
  generalize List.range Operator.levels = levels at hv
  induction levels generalizing row with
  | nil => exact Except.ok.inj hv ▸ hrow
  | cons n levels ih =>
    rw [List.foldlM_cons, bind_eq_ok] at hv
    obtain ⟨next, hnext, hv⟩ := hv
    exact ih (level_all h hs hrow hnext) hv

/-- The value of an expression satisfies what operators keep, if all values in it do. -/
theorem value_all {row : Row} (hrow : Row.All symbol P row) {v : Value}
    (hv : s.value row = .ok v) : P v := by
  -- Moduli come first, then negations, then the operators, level by level.
  simp only [value, negations, bind_eq_ok] at hv
  obtain ⟨row₁, h₁, row₂, h₂, row₃, h₃, hv⟩ := hv
  have hrow₃ := operators_all h hs (negationsAfter_all h hs (moduli_all h hs hrow h₁) h₂) h₃
  split at hv
  · cases hv
    exact h.nil
  · exact resolve_all hs (hrow₃ _ List.mem_cons_self) hv
  · cases hv

end Scope

/-! ### Within certain variables and functions -/

/-- The symbols of a row satisfy `symbol`, and its values are within `var` and
    `fn`. -/
def Row.Within (symbol : String → Prop) (var : VarRef → Prop) (fn : FunctionRef → Prop)
    (row : Row) : Prop :=
  Row.All symbol (·.Within var fn) row

theorem Row.within_cons {symbol : String → Prop} {t : Term Empty} {row : Row} :
    Row.Within symbol var fn (t :: row) ↔
      t.All symbol (·.Within var fn) (fun _ => True) ∧ Row.Within symbol var fn row :=
  Row.all_cons

/-! ## Functions -/

theorem Function.some_mem_of_mem_presentDefaults {v : Value} {count : Nat}
    {defaults : List (Option Value)} (hv : v ∈ presentDefaults count defaults) :
    some v ∈ defaults := by
  fun_induction presentDefaults count defaults with
  | case1 count w defaults ih =>
    rcases List.mem_cons.1 hv with rfl | hv
    · exact List.mem_cons_self
    · exact List.mem_cons_of_mem _ (ih hv)
  | case2 => exact absurd hv List.not_mem_nil

/-- What is bound to the parameters of a function are arguments of the call and
    defaults. -/
theorem Function.bind_all {P : Value → Prop} {f : Function} {args : List Value}
    {bindings : List (String × Value)} (hargs : ∀ v ∈ args, P v)
    (hdef : ∀ v, some v ∈ f.defaults → P v) (hb : f.bind args = .ok bindings) :
    ∀ b ∈ bindings, P b.2 := by
  -- A function with any number of parameters binds the arguments alone, and
  -- another one its parameters in order: first to arguments, then to defaults.
  intro b hmem
  rw [bind] at hb
  split at hb
  · cases hb
    obtain ⟨i, hi, rfl⟩ := List.mem_mapIdx.1 hmem
    exact hargs _ (List.getElem_mem hi)
  · dsimp only at hb
    split at hb
    · cases hb
      rcases List.mem_append.1 (List.of_mem_zip hmem).2 with hb | hb
      · exact hargs _ hb
      · exact hdef _ (List.mem_of_mem_drop (some_mem_of_mem_presentDefaults hb))
    · cases hb

end Linewise
