import Linewise.Assignment
import Linewise.Proofs.Reach

/-!
# Memories that are alike

A value is followed through the variables that it refers to, and through those that
they hold, so that it does not matter what else is in memory. In a memory that is
alike as far as certain variables are concerned, which only hold such variables
again, a value that refers to no others is printed, compared and computed with in
the same way.

* `Memory.Alike`: two memories are the same but for the variables that do not satisfy
  a property, and for what functions do;
* `Scope.Alike.value_eq`: the value of an expression is the same in both, if symbols
  stand for the same.
-/

namespace Linewise

variable {var : VarRef → Prop} {fn : FunctionRef → Prop}

/-! ## Values -/

section

variable {contents contents' : VarRef → List Value} {ofVar ofVar' : VarRef → String}
  {ofFunction : FunctionRef → String}

mutual

theorem Value.Within.flattenWith_eq (hc : ∀ r, var r → contents' r = contents r) :
    ∀ {v : Value}, v.Within var fn → v.flattenWith contents' = v.flattenWith contents
  | .list _, hv => Value.AllWithin.flattenAllWith_eq hc hv
  | .var r, hv => hc r hv
  | .function _, _ | .number _, _ | .boolean _, _ | .string _, _ | .nil, _ | .loopExit, _
  | .parameters _, _ | .block _, _ => rfl

theorem Value.AllWithin.flattenAllWith_eq (hc : ∀ r, var r → contents' r = contents r) :
    ∀ {values : List Value}, Value.AllWithin var fn values →
      Value.flattenAllWith contents' values = Value.flattenAllWith contents values
  | [], _ => rfl
  | _ :: _, ⟨hv, hvs⟩ => by
    rw [flattenAllWith, flattenAllWith, Value.Within.flattenWith_eq hc hv,
      Value.AllWithin.flattenAllWith_eq hc hvs]

end

mutual

theorem Value.Within.textWith_eq (hv : ∀ r, var r → ofVar' r = ofVar r) :
    ∀ {v : Value}, v.Within var fn → v.textWith ofVar' ofFunction = v.textWith ofVar ofFunction
  | .list _, h => by rw [textWith, textWith, Value.AllWithin.textsWith_eq hv h]
  | .var r, h => hv r h
  | .function _, _ | .number _, _ | .boolean _, _ | .string _, _ | .nil, _ | .loopExit, _
  | .parameters _, _ | .block _, _ => rfl

theorem Value.AllWithin.textsWith_eq (hv : ∀ r, var r → ofVar' r = ofVar r) :
    ∀ {values : List Value}, Value.AllWithin var fn values →
      Value.textsWith ofVar' ofFunction values = Value.textsWith ofVar ofFunction values
  | [], _ => rfl
  | _ :: _, ⟨h, hs⟩ => by
    rw [textsWith, textsWith, Value.Within.textWith_eq hv h, Value.AllWithin.textsWith_eq hv hs]

end

end

/-! ## Memory -/

/-- The memory `m'` is the same as `m`, but for what the variables hold that do not
    satisfy `var`, and for what functions do. -/
structure Memory.Alike (var : VarRef → Prop) (m m' : Memory) : Prop where
  size_eq : m'.vars.size = m.vars.size
  names_eq : m'.registry.names = m.registry.names
  functionName_eq : m'.functionName = m.functionName
  blocks_eq : m'.blocks = m.blocks
  get?_eq : ∀ r, var r → m'.get? r = m.get? r

namespace Memory.Alike

theorem refl (m : Memory) : m.Alike var m :=
  ⟨rfl, rfl, rfl, rfl, fun _ _ => rfl⟩

section

variable {m m' : Memory} (h : m.Alike var m') {v : Value} {r : VarRef}

include h

theorem read_eq (hr : var r) : m'.read r = m.read r := by
  rw [read, read, h.get?_eq r hr]

theorem nameOf_eq (hr : var r) : m'.nameOf r = m.nameOf r := by
  rw [nameOf, nameOf, h.get?_eq r hr]

theorem find?_eq : m'.registry.find? = m.registry.find? := by
  funext name
  rw [Registry.find?, Registry.find?, Registry.defined?, Registry.defined?, h.names_eq]

theorem held_eq (hv : v.Within var fn) : m'.held v = m.held v := by
  cases v with
  | var r => exact h.read_eq hv
  | _ => rfl

theorem callable?_eq (hv : v.Within var fn) : m'.callable? v = m.callable? v := by
  simp only [callable?, function?, block?, h.held_eq hv]

theorem targetOfValue_eq : Assignment.targetOfValue m' v = Assignment.targetOfValue m v := by
  cases v <;> simp only [Assignment.targetOfValue, h.functionName_eq]

theorem followFrom_eq (hv : v.Within var fn) :
    Reference.followFrom m' v = Reference.followFrom m v := by
  cases v with
  | var r =>
    have hr : var r := hv
    simp only [Reference.followFrom, h.read_eq hr]
  | _ => rfl

/-! ### Through what variables hold -/

variable (hm : m.Closed var fn)

include hm

theorem follow_eq (n : Nat) (hv : v.Within var fn) : m'.follow n v = m.follow n v := by
  induction n generalizing v with
  | zero => rfl
  | succ n ih =>
    cases v with
    | var r =>
      rw [follow, follow, h.read_eq hv]
      exact ih (hm r hv)
    | _ => rfl

theorem dereference_eq (hv : v.Within var fn) : m'.dereference v = m.dereference v :=
  h.follow_eq hm maxChain hv

theorem boolean_eq (hv : v.Within var fn) : m'.boolean v = m.boolean v := by
  rw [boolean, boolean, h.dereference_eq hm hv]

theorem string_eq (hv : v.Within var fn) : m'.string v = m.string v := by
  rw [string, string, h.dereference_eq hm hv]

theorem contents_eq (n : Nat) (hr : var r) : m'.contents n r = m.contents n r := by
  induction n generalizing r with
  | zero => rfl
  | succ n ih =>
    have hread := hm r hr
    rw [contents, contents, h.read_eq hr]
    split
    · rename_i values hlist
      rw [hlist] at hread
      exact Value.AllWithin.flattenAllWith_eq (fun _ hs => ih hs) hread
    · rfl

theorem flatten_eq (hv : v.Within var fn) : m'.flatten v = m.flatten v := by
  rw [flatten, flatten, h.size_eq]
  exact hv.flattenWith_eq fun _ hr => h.contents_eq hm m.vars.size hr

theorem arguments_eq (hv : v.Within var fn) : m'.arguments v = m.arguments v := by
  cases v with
  | list values => rfl
  | _ => exact h.flatten_eq hm hv

theorem variableText_eq (n : Nat) (hr : var r) : m'.variableText n r = m.variableText n r := by
  induction n generalizing r with
  | zero => exact h.nameOf_eq hr
  | succ n ih =>
    simp only [variableText, h.read_eq hr, h.nameOf_eq hr, h.functionName_eq]
    rw [(hm r hr).textWith_eq fun _ hs => ih hs]

theorem text_eq (hv : v.Within var fn) : m'.text v = m.text v := by
  rw [text, text, h.size_eq, h.functionName_eq]
  exact hv.textWith_eq fun _ hr => h.variableText_eq hm m.vars.size hr

theorem printed_eq {args : List Value} (hargs : ∀ v ∈ args, v.Within var fn) :
    Call.printed m' args = Call.printed m args := by
  refine congrArg String.join (List.map_congr_left fun v hv => ?_)
  cases v with
  | string s => rfl
  | _ => exact h.text_eq hm (hargs _ hv)

theorem upperBound_eq (hv : v.Within var fn) : Call.upperBound m' v = Call.upperBound m v := by
  rw [Call.upperBound, Call.upperBound, h.dereference_eq hm hv]

theorem checkChain_eq (target : VarRef) (n : Nat) (hr : var r) :
    m'.checkChain target n r = m.checkChain target n r := by
  induction n generalizing r with
  | zero => rfl
  | succ n ih =>
    have hread := hm r hr
    rw [checkChain, checkChain, h.read_eq hr]
    split
    · rfl
    · split
      · rename_i s hs
        rw [hs] at hread
        exact ih hread
      · rfl

theorem checkReference_eq (target : VarRef) (hv : v.Within var fn) :
    m'.checkReference target v = m.checkReference target v := by
  cases v with
  | var r =>
    have hr : var r := hv
    simp only [checkReference, h.checkChain_eq hm target maxChain hr]
  | _ => rfl

end

/-! ### Operations -/

section

variable {m m' : Memory} {ofVar ofVar' : VarRef → Value → Except Fault Bool} {approximate : Bool}

mutual

theorem equalWith_eq (h : m.Alike var m') (hm : m.Closed var fn)
    (hof : ∀ r b, var r → b.Within var fn → ofVar' r b = ofVar r b) :
    ∀ {a b : Value}, a.Within var fn → b.Within var fn →
      Operation.equalWith m' ofVar' approximate a b = Operation.equalWith m ofVar approximate a b
  | .var r, b, ha, hb => hof r b ha hb
  | .list as, b, ha, hb => by
    rw [Operation.equalWith, Operation.equalWith, h.dereference_eq hm hb]
    cases hend : m.dereference b with
    | error e => rfl
    | ok w =>
      have hw := Memory.follow_within hm hb hend
      cases w with
      | list bs => simp only [bind, Except.bind, equalAllWith_eq h hm hof ha hw]
      | _ => rfl
  | .function _, _, _, hb | .number _, _, _, hb | .boolean _, _, _, hb | .string _, _, _, hb
  | .nil, _, _, hb | .loopExit, _, _, hb | .parameters _, _, _, hb | .block _, _, _, hb => by
    simp only [Operation.equalWith, h.dereference_eq hm hb]

theorem equalAllWith_eq (h : m.Alike var m') (hm : m.Closed var fn)
    (hof : ∀ r b, var r → b.Within var fn → ofVar' r b = ofVar r b) :
    ∀ {as bs : List Value}, Value.AllWithin var fn as → Value.AllWithin var fn bs →
      Operation.equalAllWith m' ofVar' approximate as bs =
        Operation.equalAllWith m ofVar approximate as bs
  | [], _, _, _ => rfl
  | _ :: _, [], _, _ => rfl
  | _ :: _, _ :: _, ⟨ha, has⟩, ⟨hb, hbs⟩ => by
    rw [Operation.equalAllWith, Operation.equalAllWith, equalWith_eq h hm hof ha hb,
      equalAllWith_eq h hm hof has hbs]

end

end

variable {m m' : Memory} (h : m.Alike var m') (hm : m.Closed var fn) {a b v : Value} {r : VarRef}

include h hm

theorem equalVariable_eq (approximate : Bool) (n : Nat) (hr : var r)
    (hb : b.Within var fn) : Operation.equalVariable m' approximate n r b =
      Operation.equalVariable m approximate n r b := by
  induction n generalizing r b with
  | zero => rfl
  | succ n ih =>
    have hr' : (Value.var r).Within var fn := hr
    rw [Operation.equalVariable, Operation.equalVariable, h.read_eq hr, h.held_eq hb,
      h.dereference_eq hm hr']
    split
    · rfl
    · cases hend : m.dereference (.var r) with
      | error e => rfl
      | ok w => exact h.equalWith_eq hm (fun s b hs hb => ih hs hb) (follow_within hm hr' hend) hb

theorem equal_eq (approximate : Bool) (ha : a.Within var fn) (hb : b.Within var fn) :
    Operation.equal m' approximate a b = Operation.equal m approximate a b := by
  rw [Operation.equal, Operation.equal, h.size_eq]
  exact h.equalWith_eq hm (fun _ _ => h.equalVariable_eq hm approximate m.vars.size) ha hb

theorem modulus_eq (hv : v.Within var fn) : Operation.modulus m' v = Operation.modulus m v := by
  rw [Operation.modulus, Operation.modulus, h.dereference_eq hm hv]

theorem negate_eq (hv : v.Within var fn) : Operation.negate m' v = Operation.negate m v := by
  rw [Operation.negate, Operation.negate, h.dereference_eq hm hv]

theorem apply_eq (op : Operator) (ha : a.Within var fn) (hb : b.Within var fn) :
    Operation.apply m' op a b = Operation.apply m op a b := by
  cases op with
  | enumerate =>
    simp only [Operation.apply, Operation.enumerate, h.arguments_eq hm ha, h.flatten_eq hm hb]
  | logic op =>
    simp only [Operation.apply, Operation.logic, h.boolean_eq hm ha, h.boolean_eq hm hb]
  | equality op =>
    simp only [Operation.apply, Operation.equality, fun e => h.equal_eq hm e ha hb]
  | power =>
    simp only [Operation.apply, Operation.power, h.dereference_eq hm ha, h.dereference_eq hm hb]
  | arithmetic op =>
    simp only [Operation.apply, Operation.arithmetic, h.dereference_eq hm ha,
      h.dereference_eq hm hb]
  | comparison op =>
    simp only [Operation.apply, Operation.compare, h.dereference_eq hm ha, h.dereference_eq hm hb]

end Memory.Alike

/-! ## Expressions -/

/-- In the scope `s'`, symbols stand for the same as in `s`, and the memory is alike. -/
structure Scope.Alike (var : VarRef → Prop) (s s' : Scope) : Prop where
  memory : s.memory.Alike var s'.memory
  find?_eq : ∀ name, s'.frames.find? name = s.frames.find? name

namespace Scope.Alike

variable {s s' : Scope} (h : s.Alike var s')

include h

theorem symbol_eq (symbol : String) : s'.find? symbol = s.find? symbol := by
  rw [find?, find?, h.memory.find?_eq, h.find?_eq]

theorem lookup_eq (symbol : String) : s'.lookup symbol = s.lookup symbol := by
  rw [lookup, lookup, h.symbol_eq]

theorem resolve_eq (t : Term Empty) : s'.resolve t = s.resolve t := by
  cases t with
  | symbol symbol => exact h.lookup_eq symbol
  | value v => rfl
  | group g => exact g.elim

variable {symbol : String → Prop} (hm : s.memory.Closed var fn)
  (hs : ∀ name v, symbol name → s.find? name = some v → v.Within var fn)

include hm hs

theorem moduli_eq {row : Row} (hrow : Row.Within symbol var fn row) :
    s'.moduli row = s.moduli row := by
  fun_induction s.moduli row with
  | case1 => rfl
  | case2 t ht x bar row hbar ih =>
    rw [Row.within_cons, Row.within_cons, Row.within_cons] at hrow
    simp only [moduli, if_pos ht, if_pos hbar, h.resolve_eq, ih hrow.2.2.2]
    cases hx : s.resolve x with
    | error e => rfl
    | ok v =>
      have hv := resolve_all hs hrow.2.1 hx
      simp only [bind, Except.bind, h.memory.modulus_eq hm hv]
  | case3 t ht x bar row hbar => simp only [moduli, if_pos ht, if_neg hbar]
  | case4 t row ht hshort =>
    rw [moduli.eq_def]
    simp only [if_pos ht]
  | case5 t row ht ih =>
    rw [Row.within_cons] at hrow
    rw [moduli.eq_def]
    simp only [if_neg ht, ih hrow.2]

theorem negationsAfter_eq {o : Bool} {row : Row} (hrow : Row.Within symbol var fn row) :
    s'.negationsAfter o row = s.negationsAfter o row := by
  fun_induction s.negationsAfter o row with
  | case1 => rfl
  | case2 operand t row ih =>
    rw [Row.within_cons] at hrow
    rw [negationsAfter, ih hrow.2]
    cases hrest : s.negationsAfter t.operator?.isNone row with
    | error e => rfl
    | ok rest =>
      have hwithin := negationsAfter_all (Operation.keeps_within hm) hs hrow.2 hrest
      cases rest with
      | nil => rfl
      | cons x rest =>
        simp only [bind, Except.bind, h.resolve_eq]
        cases hx : s.resolve x with
        | error e => rfl
        | ok v =>
          have hv := resolve_all hs (Row.within_cons.1 hwithin).1 hx
          simp only [h.memory.negate_eq hm hv]

theorem levelFrom_eq {n : Nat} {left : Term Empty} {row : Row}
    (hrow : Row.Within symbol var fn (left :: row)) :
    s'.levelFrom n left row = s.levelFrom n left row := by
  fun_induction s.levelFrom n left row with
  | case1 => rfl
  | case2 left t row ht ih =>
    rw [Row.within_cons] at hrow
    rw [levelFrom, ht, ih hrow.2]
  | case3 left t op ht => rw [levelFrom, ht]
  | case4 left t op ht right row ih =>
    rw [Row.within_cons, Row.within_cons, Row.within_cons] at hrow
    obtain ⟨hleft, -, hright, hrest⟩ := hrow
    rw [levelFrom, ht]
    simp only [h.resolve_eq]
    cases ha : s.resolve left with
    | error e => rfl
    | ok a =>
      cases hb : s.resolve right with
      | error e => rfl
      | ok b =>
        have hwa := resolve_all hs hleft ha
        have hwb := resolve_all hs hright hb
        simp only [bind, Except.bind, h.memory.apply_eq hm op hwa hwb]
        cases hv : Operation.apply s.memory op a b with
        | error e => rfl
        | ok v =>
          exact ih v (Row.within_cons.2 ⟨(Operation.keeps_within hm).apply hwa hwb hv, hrest⟩)

theorem level_eq {n : Nat} {row : Row} (hrow : Row.Within symbol var fn row) :
    s'.level n row = s.level n row := by
  cases row with
  | nil => rfl
  | cons t row =>
    rw [level, level]
    split
    · rfl
    · exact h.levelFrom_eq hm hs hrow

theorem operators_eq {row : Row} (hrow : Row.Within symbol var fn row) :
    s'.operators row = s.operators row := by
  rw [operators, operators]
  generalize List.range Operator.levels = levels
  induction levels generalizing row with
  | nil => rfl
  | cons n levels ih =>
    rw [List.foldlM_cons, List.foldlM_cons, h.level_eq hm hs hrow]
    cases hnext : s.level n row with
    | error e => rfl
    | ok next => exact ih (level_all (Operation.keeps_within hm) hs hrow hnext)

/-- The value of an expression is the same in a scope that is alike. -/
theorem value_eq {row : Row} (hrow : Row.Within symbol var fn row) :
    s'.value row = s.value row := by
  rw [value, value, h.moduli_eq hm hs hrow]
  cases h₁ : s.moduli row with
  | error e => rfl
  | ok row₁ =>
    have hkeeps := Operation.keeps_within hm
    have hrow₁ := moduli_all hkeeps hs hrow h₁
    simp only [bind, Except.bind, negations, h.negationsAfter_eq hm hs hrow₁]
    cases h₂ : s.negationsAfter false row₁ with
    | error e => rfl
    | ok row₂ =>
      simp only [h.operators_eq hm hs (negationsAfter_all hkeeps hs hrow₁ h₂), h.resolve_eq]

end Scope.Alike

end Linewise
