import Linewise.Proofs.Pass
import Linewise.Proofs.Tree

/-!
# Precedence

The passes of an expression have no tree: each of them goes over the row and replaces what it
applies to by values. Still they compute the value of the standard tree of a sentence
(`evaluate_sentence`): first the groups are evaluated from left to right, and then the tree has
a value if and only if the passes come to it.

The row of a tree is followed through the passes. After some of them it is the row of the tree
in which whatever belongs to those passes has been replaced by its value (`Tree.collapse`), so
that a tree without a value is lost on the way. A pass takes the row of a tree on its own, even if
an operator of a later pass comes after it (`Tree.Advances`).
-/

namespace Linewise

theorem toOption_bind {ε α β : Type} (x : Except ε α) (f : α → Except ε β) :
    (x >>= f).toOption = x.toOption.bind fun a => (f a).toOption := by
  cases x <;> rfl

theorem toOption_map {ε α β : Type} (f : α → β) (x : Except ε α) :
    (f <$> x).toOption = x.toOption.map f := by
  cases x <;> rfl

theorem toOption_eq_some_iff {ε α : Type} {x : Except ε α} {a : α} :
    x.toOption = some a ↔ x = .ok a := by
  cases x with
  | ok b => exact Option.some_inj.trans ⟨congrArg _, Except.ok.inj⟩
  | error e => exact ⟨nofun, nofun⟩

namespace Symbol.IsOperand

variable {s s' : String}

theorem ne (h : IsOperand s) (h' : ¬IsOperand s') : s ≠ s' := by
  rintro rfl
  exact h' h

theorem ofSymbol?_eq_none (h : IsOperand s) : Operator.ofSymbol? s = none := by
  refine Option.eq_none_iff_forall_ne_some.2 fun op hop =>
    h.ne ?_ (Operator.symbol_of_ofSymbol? hop).symm
  rcases op with _ | op | op | op | _ | op <;> (try cases op) <;> decide

theorem keyword?_eq_none (h : IsOperand s) : Keyword.ofSymbol? s = none := by
  refine Option.eq_none_iff_forall_ne_some.2 fun k hk =>
    h.ne ?_ (Keyword.ofSymbol?_eq_some_iff.1 hk).symm
  cases k <;> decide

end Symbol.IsOperand

namespace Tree

/-- The terms of the tree, in their order. -/
def row : Tree Value → Row
  | symbol s => [.symbol s]
  | text s => [.value (.string s)]
  | group v => [.value v]
  | magnitude v => [.symbol "|", .value v, .symbol "|"]
  | negation t => .symbol "-" :: t.row
  | binary op left right => left.row ++ .symbol op.symbol :: right.row

variable (scope : Scope)

/-- The value of the tree, if it has one. -/
def value? (t : Tree Value) : Option Value :=
  (t.value scope).toOption

/-- The tree after the first `k` passes. -/
def collapse (k : Nat) : Tree Value → Option (Tree Value)
  | magnitude v =>
    if (magnitude v).stage ≤ k then ((magnitude v).value? scope).map group
    else some (magnitude v)
  | negation t =>
    if (negation t).stage ≤ k then ((negation t).value? scope).map group
    else (t.collapse k).map negation
  | binary op left right =>
    if (binary op left right).stage ≤ k then ((binary op left right).value? scope).map group
    else (left.collapse k).bind fun left => (right.collapse k).map (binary op left)
  | t => some t

variable {scope} {k : Nat} {t u left right : Tree Value} {op : Operator}

theorem value?_negation (t : Tree Value) :
    (negation t).value? scope =
      (t.value? scope).bind fun v => (Operation.negate scope.memory v).toOption :=
  toOption_bind _ _

theorem value?_binary (op : Operator) (left right : Tree Value) :
    (binary op left right).value? scope =
      (left.value? scope).bind fun a => (right.value? scope).bind fun b =>
        (Operation.apply scope.memory op a b).toOption := by
  simp only [value?, value, toOption_bind]

/-- What has no value may get lost, and everything else keeps its value. -/
theorem collapse_bind_value? (k : Nat) (t : Tree Value) :
    (t.collapse scope k).bind (value? scope) = t.value? scope := by
  have hgroup : ∀ x : Option Value, (x.map group).bind (value? scope) = x := by
    intro x
    cases x <;> rfl
  induction t with
  | magnitude v =>
    rw [collapse]
    split
    · exact hgroup _
    · rfl
  | negation t ih =>
    rw [collapse]
    split
    · exact hgroup _
    · rw [value?_negation, ← ih]
      cases t.collapse scope k with
      | none => rfl
      | some u => exact value?_negation u
  | binary op left right ihl ihr =>
    rw [collapse]
    split
    · exact hgroup _
    · rw [value?_binary, ← ihl, ← ihr]
      cases left.collapse scope k with
      | none => rfl
      | some left' =>
        cases right.collapse scope k with
        | none => simp
        | some right' => exact value?_binary op left' right'
  | _ => rfl

/-- The tree is a single term, which is no symbol with a meaning of its own. -/
structure Alone (u : Tree Value) (x : Term Empty) (scope : Scope) : Prop where
  row : u.row = [x]
  resolve : (scope.resolve x).toOption = u.value? scope
  operator : x.operator? = none
  isSymbol : ∀ s, ¬Symbol.IsOperand s → x.isSymbol s = false

/-- A tree is a single term after its own pass. -/
theorem Standard.alone (ht : t.Standard) (hk : t.stage ≤ k) (hu : t.collapse scope k = some u) :
    ∃ x, u.Alone x scope := by
  have hgroup : ∀ {x : Option Value}, x.map group = some u → ∃ x, u.Alone x scope := by
    intro x hx
    obtain ⟨v, -, rfl⟩ := Option.map_eq_some_iff.1 hx
    exact ⟨.value v, rfl, rfl, rfl, fun _ _ => rfl⟩
  cases t with
  | symbol s =>
    cases hu
    exact ⟨.symbol s, rfl, rfl, ht.ofSymbol?_eq_none, fun _ hs => beq_false_of_ne (ht.ne hs)⟩
  | text s =>
    cases hu
    exact ⟨.value (.string s), rfl, rfl, rfl, fun _ _ => rfl⟩
  | group v =>
    cases hu
    exact ⟨.value v, rfl, rfl, rfl, fun _ _ => rfl⟩
  | magnitude v | negation t | binary op left right =>
    rw [collapse, if_pos hk] at hu
    exact hgroup hu

/-- After the pass of `-`, trees start with an operand. -/
theorem Standard.exists_row_eq_cons (ht : t.Standard) (hk : 2 ≤ k)
    (hu : t.collapse scope k = some u) : ∃ x row, u.row = x :: row ∧ x.operator? = none := by
  induction t generalizing u with
  | binary op left right ih _ =>
    rw [collapse] at hu
    split at hu
    · obtain ⟨v, -, rfl⟩ := Option.map_eq_some_iff.1 hu
      exact ⟨.value v, [], rfl, rfl⟩
    · obtain ⟨left', hleft, hu⟩ := Option.bind_eq_some_iff.1 hu
      obtain ⟨right', -, rfl⟩ := Option.map_eq_some_iff.1 hu
      obtain ⟨x, row, hrow, hx⟩ := ih ht.1 hleft
      exact ⟨x, row ++ .symbol op.symbol :: right'.row, by rw [Tree.row, hrow]; rfl, hx⟩
  | negation t _ =>
    obtain ⟨x, hx⟩ := ht.alone hk hu
    exact ⟨x, [], hx.row, hx.operator⟩
  | magnitude v =>
    obtain ⟨x, hx⟩ := ht.alone (Nat.le_of_succ_le hk) hu
    exact ⟨x, [], hx.row, hx.operator⟩
  | _ =>
    obtain ⟨x, hx⟩ := ht.alone (Nat.zero_le k) hu
    exact ⟨x, [], hx.row, hx.operator⟩

theorem collapse_of_stage_le (hk : t.stage ≤ k) :
    t.collapse scope (k + 1) = t.collapse scope k := by
  cases t with
  | magnitude v | negation t | binary op left right =>
    rw [collapse, collapse, if_pos hk, if_pos (Nat.le_succ_of_le hk)]
  | _ => rfl

/-! ## One pass -/

/-- The rest of a row starts with an operator of a later pass than `k`, if there is a
    rest. -/
def Later (k : Nat) (rest : Row) : Prop :=
  ∀ x ∈ rest.head?, ∃ op : Operator, x = .symbol op.symbol ∧ k < op.level + 3

variable (scope) in
/-- The pass with the number `k + 1` takes a tree to the tree after the pass, and leaves what
    comes after the tree to itself. -/
def Advances (k : Nat) (pass tail : Row → Except Fault Row) (t : Tree Value) : Prop :=
  ∀ rest, Later (k + 1) rest →
    ((t.collapse scope k).bind fun u => (pass (u.row ++ rest)).toOption) =
      (t.collapse scope (k + 1)).bind fun u => (tail rest).toOption.map (u.row ++ ·)

variable {pass tail : Row → Except Fault Row}

/-- Neither operand depends on the other, so the right one may come first. -/
theorem bind_binary_comm {α : Type} (left? right? : Option (Tree Value))
    (f : Tree Value → Option α) :
    (left?.bind fun l => right?.map (binary op l)).bind f =
      right?.bind fun r => left?.bind fun l => f (binary op l r) := by
  simp only [Option.bind_assoc, Option.bind_map, Function.comp_def]
  exact Option.bind_comm _ _

/-- A pass goes through the operands of an operator of a later pass. -/
theorem Advances.binary (hleft : Advances scope k pass tail left)
    (hright : Advances scope k pass tail right)
    (hop : k + 1 < (Tree.binary op left right).stage)
    (htail : ∀ u, right.collapse scope k = some u → ∀ rest,
      tail (.symbol op.symbol :: (u.row ++ rest)) =
        (.symbol op.symbol :: ·) <$> pass (u.row ++ rest)) :
    Advances scope k pass tail (Tree.binary op left right) := by
  intro rest hrest
  have hlater : ∀ row, Later (k + 1) (.symbol op.symbol :: row) := by
    rintro row x ⟨⟩
    exact ⟨op, rfl, hop⟩
  have hstep : ∀ r, right.collapse scope k = some r →
      ((left.collapse scope k).bind fun l => (pass ((Tree.binary op l r).row ++ rest)).toOption) =
        (left.collapse scope (k + 1)).bind fun l =>
          (pass (r.row ++ rest)).toOption.map fun row => l.row ++ .symbol op.symbol :: row := by
    intro r hr
    have hrow := hleft (.symbol op.symbol :: (r.row ++ rest)) (hlater _)
    simp only [row, List.append_assoc, List.cons_append, hrow, htail r hr, toOption_map,
      Option.map_map, Function.comp_def]
  rw [collapse, if_neg (Nat.not_le.2 (Nat.lt_of_succ_lt hop)), collapse,
    if_neg (Nat.not_le.2 hop)]
  calc ((left.collapse scope k).bind fun l => (right.collapse scope k).map (Tree.binary op l)).bind
          (fun u => (pass (u.row ++ rest)).toOption)
      = (right.collapse scope k).bind fun r => (left.collapse scope k).bind fun l =>
          (pass ((Tree.binary op l r).row ++ rest)).toOption :=
        bind_binary_comm ..
    _ = (right.collapse scope k).bind fun r => (left.collapse scope (k + 1)).bind fun l =>
          (pass (r.row ++ rest)).toOption.map fun row => l.row ++ .symbol op.symbol :: row :=
        Option.bind_congr hstep
    _ = (left.collapse scope (k + 1)).bind fun l =>
          ((right.collapse scope k).bind fun r => (pass (r.row ++ rest)).toOption).map
            fun row => l.row ++ .symbol op.symbol :: row := by
        rw [Option.bind_comm]
        simp only [Option.map_bind, Function.comp_def]
    _ = _ := by
        rw [hright rest hrest]
        simp only [Option.bind_assoc, Option.bind_map, Option.map_bind, Option.map_map,
          Function.comp_def, row, List.append_assoc, List.cons_append]

theorem isSymbol_bar (op : Operator) :
    (Term.symbol op.symbol : Term Empty).isSymbol "|" = false := by
  rcases op with _ | op | op | op | _ | op <;> (try cases op) <;> decide

/-- A pass has nothing to do for what has been turned into a value before. -/
theorem Standard.advances_of_stage_le (ht : t.Standard) (hk : t.stage ≤ k)
    (hpass : ∀ u x, Alone u x scope → ∀ rest, Later (k + 1) rest →
      pass (x :: rest) = (x :: ·) <$> tail rest) :
    Advances scope k pass tail t := by
  intro rest hrest
  rw [collapse_of_stage_le hk]
  refine Option.bind_congr fun u hu => ?_
  obtain ⟨x, hx⟩ := ht.alone hk hu
  rw [hx.row, List.singleton_append, hpass u x hx rest hrest, toOption_map]
  rfl

/-- The first pass turns magnitudes into values. -/
theorem Standard.advances_moduli (ht : t.Standard) :
    Advances scope 0 scope.moduli scope.moduli t := by
  have hpass : ∀ u x, Alone u x scope → ∀ rest, Later 1 rest →
      scope.moduli (x :: rest) = (x :: ·) <$> scope.moduli rest :=
    fun u x hx rest _ => Scope.moduli_cons (hx.isSymbol "|" (by decide))
  induction t with
  | magnitude v =>
    intro rest _
    have hmoduli : scope.moduli (.symbol "|" :: .value v :: .symbol "|" :: rest) = (do
        let w ← Operation.modulus scope.memory v
        return .value w :: (← scope.moduli rest)) := rfl
    show (scope.moduli (.symbol "|" :: .value v :: .symbol "|" :: rest)).toOption =
      (((magnitude v).value? scope).map group).bind _
    rw [hmoduli, toOption_bind, Option.bind_map]
    exact Option.bind_congr fun w _ => toOption_map _ _
  | negation t ih =>
    intro rest hrest
    have hmoduli : ∀ u : Tree Value, scope.moduli ((negation u).row ++ rest) =
        (.symbol "-" :: ·) <$> scope.moduli (u.row ++ rest) := fun u => Scope.moduli_cons rfl
    calc ((t.collapse scope 0).map negation).bind
            (fun u => (scope.moduli (u.row ++ rest)).toOption)
        = ((t.collapse scope 0).bind fun u => (scope.moduli (u.row ++ rest)).toOption).map
            (.symbol "-" :: ·) := by
          simp only [Option.bind_map, Option.map_bind, Function.comp_def, hmoduli, toOption_map]
      _ = ((t.collapse scope 1).bind fun u => (scope.moduli rest).toOption.map (u.row ++ ·)).map
            (.symbol "-" :: ·) := by rw [ih ht.1 rest hrest]
      _ = ((t.collapse scope 1).map negation).bind
            fun u => (scope.moduli rest).toOption.map (u.row ++ ·) := by
          simp only [Option.bind_map, Option.map_bind, Option.map_map, Function.comp_def, row,
            List.cons_append]
  | binary op left right ihl ihr =>
    obtain ⟨hleft, hright, -, -⟩ := ht
    exact (ihl hleft).binary (ihr hright) (Nat.lt_add_left _ (by decide)) fun u _ rest =>
      Scope.moduli_cons (isSymbol_bar op)
  | _ => exact ht.advances_of_stage_le (Nat.le_refl 0) hpass

/-- Before a single term, the pass of `-` applies it. -/
theorem Alone.negateFirst {x : Term Empty} (hu : u.Alone x scope) (row : Row) :
    (scope.negateFirst (u.row ++ row)).toOption =
      ((u.value? scope).bind fun v => (Operation.negate scope.memory v).toOption).map
        (.value · :: row) := by
  rw [hu.row, ← hu.resolve, List.singleton_append, Scope.negateFirst, toOption_bind,
    Option.map_bind]
  refine Option.bind_congr fun v _ => ?_
  exact toOption_map (.value · :: row) (Operation.negate scope.memory v)

/-- The second pass applies `-` where there is no left operand. -/
theorem Standard.advances_negations (ht : t.Standard) :
    Advances scope 1 (scope.negationsAfter false) (scope.negationsAfter true) t := by
  have hpass : ∀ u x, Alone u x scope → ∀ rest, Later 2 rest →
      scope.negationsAfter false (x :: rest) = (x :: ·) <$> scope.negationsAfter true rest :=
    fun u x hx rest _ => by
      rw [Scope.negationsAfter_cons (hx.isSymbol "-" (by decide)), hx.operator, Option.isNone_none]
  induction t with
  | magnitude v => exact ht.advances_of_stage_le (Nat.le_refl 1) hpass
  | negation t ih =>
    intro rest hrest
    obtain ⟨ht, hstage⟩ := ht
    calc ((t.collapse scope 1).map negation).bind
            (fun u => (scope.negationsAfter false (u.row ++ rest)).toOption)
        = ((t.collapse scope 1).bind fun u =>
            (scope.negationsAfter false (u.row ++ rest)).toOption).bind
              fun row => (scope.negateFirst row).toOption := by
          simp only [Option.bind_map, Option.bind_assoc, Function.comp_def, row, List.cons_append,
            Scope.negationsAfter_false_minus, toOption_bind]
      _ = ((t.collapse scope 2).bind fun u =>
            (scope.negationsAfter true rest).toOption.map (u.row ++ ·)).bind
              fun row => (scope.negateFirst row).toOption := by rw [ih ht rest hrest]
      _ = (t.collapse scope 2).bind fun u =>
            ((u.value? scope).bind fun v => (Operation.negate scope.memory v).toOption).bind
              fun w => (scope.negationsAfter true rest).toOption.map (.value w :: ·) := by
          rw [Option.bind_assoc]
          refine Option.bind_congr fun u hu => ?_
          obtain ⟨x, hx⟩ := ht.alone hstage hu
          simp only [Option.bind_map, Function.comp_def, hx.negateFirst]
          simp only [Option.map_eq_bind]
          exact Option.bind_comm _ _
      _ = (((negation t).value? scope).map group).bind
            fun u => (scope.negationsAfter true rest).toOption.map (u.row ++ ·) := by
          rw [value?_negation, ← collapse_bind_value? 2 t]
          simp only [Option.bind_map, Option.bind_assoc, Function.comp_def, row,
            List.singleton_append]
  | binary op left right ihl ihr =>
    obtain ⟨hleft, hright, -, -⟩ := ht
    refine (ihl hleft).binary (ihr hright) (Nat.lt_add_left _ (by decide)) fun u _ rest => ?_
    rw [Scope.negationsAfter_true_cons, Term.operator?, Operator.ofSymbol?_symbol]
    rfl
  | _ => exact ht.advances_of_stage_le (Nat.zero_le 1) hpass

theorem operatorOf?_symbol (n : Nat) (op : Operator) :
    Scope.operatorOf? n (.symbol op.symbol) = if op.level = n then some op else none := by
  rw [Scope.operatorOf?, Term.operator?, Operator.ofSymbol?_symbol, Option.filter_some]
  simp only [beq_iff_eq]

/-- Between two single terms, a level applies its operator. -/
theorem Alone.level_operator {x y : Term Empty} (hleft : left.Alone x scope)
    (hright : right.Alone y scope) (rest : Row) :
    (scope.level op.level ((Tree.binary op left right).row ++ rest)).toOption =
      (left.value? scope).bind fun a => (right.value? scope).bind fun b =>
        (Operation.apply scope.memory op a b).toOption.bind fun c =>
          (scope.levelFrom op.level (.value c) rest).toOption := by
  have hoperator : Scope.operatorOf? op.level (.symbol op.symbol) = some op := by
    rw [operatorOf?_symbol, if_pos rfl]
  rw [Tree.row, hleft.row, hright.row, ← hleft.resolve, ← hright.resolve]
  simp only [List.cons_append, List.nil_append]
  rw [Scope.level_cons (Scope.operatorOf?_of_operator? hleft.operator),
    Scope.levelFrom_operator_cons hoperator]
  simp only [toOption_bind]

/-- A tree that belongs to a level is turned into a value before the level reaches what comes
    after the tree. -/
theorem Standard.level_append (ht : t.Standard) {n : Nat} (hstage : t.stage ≤ n + 3) (rest : Row) :
    ((t.collapse scope (n + 2)).bind fun u => (scope.level n (u.row ++ rest)).toOption) =
      (t.collapse scope (n + 3)).bind fun u => (scope.level n (u.row ++ rest)).toOption := by
  induction t generalizing rest with
  | binary op left right ih _ =>
    by_cases hdone : (Tree.binary op left right).stage ≤ n + 2
    · rw [← collapse_of_stage_le hdone]
    have hop : op.level = n := by
      simp only [stage] at hstage hdone
      omega
    subst hop
    obtain ⟨hleft, hright, hle, hlt⟩ := ht
    -- Both operands are single terms once the left one has been through the level.
    have happly : ∀ r, right.collapse scope (op.level + 2) = some r →
        ((left.collapse scope (op.level + 2)).bind fun l =>
          (scope.level op.level ((Tree.binary op l r).row ++ rest)).toOption) =
        (left.value? scope).bind fun a => (r.value? scope).bind fun b =>
          (Operation.apply scope.memory op a b).toOption.bind fun c =>
            (scope.levelFrom op.level (.value c) rest).toOption := by
      intro r hr
      obtain ⟨y, hy⟩ := hright.alone (Nat.le_of_lt_succ hlt) hr
      rw [← collapse_bind_value? (op.level + 3) left, Option.bind_assoc]
      simp only [row, List.append_assoc]
      rw [ih hleft hle]
      refine Option.bind_congr fun l hl => ?_
      obtain ⟨x, hx⟩ := hleft.alone hle hl
      rw [← List.append_assoc]
      exact hx.level_operator hy rest
    rw [collapse, if_neg hdone, collapse, if_pos hstage]
    calc ((left.collapse scope (op.level + 2)).bind fun l =>
            (right.collapse scope (op.level + 2)).map (Tree.binary op l)).bind
              (fun u => (scope.level op.level (u.row ++ rest)).toOption)
        = (right.collapse scope (op.level + 2)).bind fun r =>
            (left.collapse scope (op.level + 2)).bind fun l =>
              (scope.level op.level ((Tree.binary op l r).row ++ rest)).toOption :=
          bind_binary_comm ..
      _ = (right.collapse scope (op.level + 2)).bind fun r => (left.value? scope).bind fun a =>
            (r.value? scope).bind fun b => (Operation.apply scope.memory op a b).toOption.bind
              fun c => (scope.levelFrom op.level (.value c) rest).toOption :=
          Option.bind_congr happly
      _ = (left.value? scope).bind fun a => (right.value? scope).bind fun b =>
            (Operation.apply scope.memory op a b).toOption.bind
              fun c => (scope.levelFrom op.level (.value c) rest).toOption := by
          rw [Option.bind_comm, ← collapse_bind_value? (op.level + 2) right]
          simp only [Option.bind_assoc]
      _ = (((Tree.binary op left right).value? scope).map group).bind
            fun u => (scope.level op.level (u.row ++ rest)).toOption := by
          rw [value?_binary]
          simp only [Option.bind_map, Option.bind_assoc, Function.comp_def]
          rfl
  | negation t _ => rw [← collapse_of_stage_le (Nat.le_add_left 2 n)]
  | magnitude v => rw [← collapse_of_stage_le (Nat.le_add_left_of_le (Nat.le_succ 1))]
  | _ => rfl

/-- The pass of a level applies its operators. -/
theorem Standard.advances_level (ht : t.Standard) (n : Nat) :
    Advances scope (n + 2) (scope.level n) (scope.level n) t := by
  have hlevel : ∀ {u : Tree Value} {x : Term Empty} {rest : Row}, Alone u x scope →
      Later (n + 3) rest → scope.level n (x :: rest) = (x :: ·) <$> scope.level n rest := by
    intro u x rest hx hrest
    rw [Scope.level_cons (Scope.operatorOf?_of_operator? hx.operator)]
    refine Scope.levelFrom_eq_level fun t ht => ?_
    obtain ⟨op, rfl, hop⟩ := hrest t ht
    rw [operatorOf?_symbol, if_neg (Nat.ne_of_gt (Nat.lt_of_add_lt_add_right hop))]
  have hdone : ∀ {t : Tree Value}, t.Standard → t.stage ≤ n + 3 →
      Advances scope (n + 2) (scope.level n) (scope.level n) t := by
    intro t ht hstage rest hrest
    rw [ht.level_append hstage]
    refine Option.bind_congr fun u hu => ?_
    obtain ⟨x, hx⟩ := ht.alone hstage hu
    rw [hx.row, List.singleton_append, hlevel hx hrest, toOption_map]
    rfl
  induction t with
  | binary op left right ihl ihr =>
    by_cases hop : (Tree.binary op left right).stage ≤ n + 3
    · exact hdone ht hop
    · obtain ⟨hleft, hright, -, -⟩ := ht
      refine (ihl hleft).binary (ihr hright) (Nat.not_le.1 hop) fun u hu rest => ?_
      have hne : op.level ≠ n := fun heq => hop (Nat.add_le_add_right (Nat.le_of_eq heq) 3)
      obtain ⟨x, row, hrow, hx⟩ := hright.exists_row_eq_cons (Nat.le_add_left 2 n) hu
      rw [Scope.level_cons (by rw [operatorOf?_symbol, if_neg hne]), hrow]
      refine Scope.levelFrom_eq_level fun t ht => ?_
      obtain rfl := Option.some.inj ht
      exact Scope.operatorOf?_of_operator? hx
  | negation t _ => exact hdone ht (Nat.le_add_left_of_le (Nat.le_succ 2))
  | magnitude v => exact hdone ht (Nat.le_add_left_of_le (Nat.le_add_left 1 2))
  | _ => exact hdone ht (Nat.zero_le _)

/-! ## All passes -/

theorem collapse_zero (t : Tree Value) : t.collapse scope 0 = some t := by
  induction t with
  | negation t ih =>
    have hstage : ¬(negation t).stage ≤ 0 := Nat.not_succ_le_zero 1
    rw [collapse, if_neg hstage, ih, Option.map_some]
  | binary op left right ihl ihr =>
    have hstage : ¬(Tree.binary op left right).stage ≤ 0 := Nat.not_succ_le_zero _
    rw [collapse, if_neg hstage, ihl, ihr, Option.bind_some, Option.map_some]
  | _ => rfl

/-- A pass takes the row of a tree to that of the tree after the pass. -/
theorem Advances.map_row (h : Advances scope k pass tail t) (htail : tail [] = .ok []) :
    ((t.collapse scope k).map row).bind (fun row => (pass row).toOption) =
      (t.collapse scope (k + 1)).map row := by
  have hnil := h [] nofun
  simp only [List.append_nil, htail] at hnil
  rw [Option.bind_map]
  refine hnil.trans ?_
  rw [Option.map_eq_bind]
  exact Option.bind_congr fun u _ => congrArg some (List.append_nil u.row)

theorem Standard.map_row_levels (ht : t.Standard) (n : Nat) :
    ((t.collapse scope 2).map row).bind (fun row =>
        ((List.range n).foldlM (fun row n => scope.level n row) row).toOption) =
      (t.collapse scope (n + 2)).map row := by
  induction n with
  | zero => cases t.collapse scope 2 <;> rfl
  | succ n ih =>
    rw [← (ht.advances_level n).map_row rfl, ← ih, Option.bind_assoc]
    refine Option.bind_congr fun row _ => ?_
    rw [List.range_succ, List.foldlM_append, toOption_bind]
    refine Option.bind_congr fun row _ => ?_
    simp only [List.foldlM_cons, List.foldlM_nil, bind_pure]

theorem Standard.stage_le (ht : t.Standard) : t.stage ≤ Operator.levels + 2 := by
  cases t with
  | binary op _ _ => exact Nat.add_le_add_right op.level_lt 2
  | negation _ => exact Nat.le_add_left 2 _
  | magnitude _ => exact Nat.le_add_left 1 _
  | _ => exact Nat.zero_le _

/-- The passes compute the value of the tree, and fail where it has none. -/
theorem Standard.value_row (ht : t.Standard) : (scope.value t.row).toOption = t.value? scope := by
  have hmoduli : (scope.moduli t.row).toOption = (t.collapse scope 1).map row := by
    rw [← ht.advances_moduli.map_row rfl, collapse_zero]
    rfl
  have hnegations : ((t.collapse scope 1).map row).bind (fun row =>
      (scope.negations row).toOption) = (t.collapse scope 2).map row :=
    ht.advances_negations.map_row rfl
  have hoperators : ((t.collapse scope 2).map row).bind (fun row =>
      (scope.operators row).toOption) = (t.collapse scope (Operator.levels + 2)).map row :=
    ht.map_row_levels Operator.levels
  rw [Scope.value, toOption_bind, hmoduli, ← collapse_bind_value? (Operator.levels + 2) t]
  simp only [toOption_bind]
  rw [← Option.bind_assoc, hnegations, ← Option.bind_assoc, hoperators, Option.bind_map]
  refine Option.bind_congr fun u hu => ?_
  obtain ⟨x, hx⟩ := ht.alone ht.stage_le hu
  rw [Function.comp_apply, hx.row]
  exact hx.resolve

/-! ## Groups -/

section

variable {ev : Group → Run Value} {call : Callable → Value → Run Value} {t : Tree Group}
  {u : Tree Value} {m m' : Machine}

/-- With its groups evaluated, a tree has the same shape. -/
theorem Standard.of_evaluated (ht : t.Standard) (h : t.evaluated ev m = .ok u m') :
    u.Standard ∧ u.stage = t.stage := by
  induction t generalizing u m m' with
  | symbol s | text s =>
    cases h
    exact ⟨ht, rfl⟩
  | group g | magnitude g =>
    obtain ⟨v, m₁, -, h⟩ := Run.bind_eq_ok.1 h
    cases h
    exact ⟨trivial, rfl⟩
  | negation t ih =>
    obtain ⟨u, m₁, hu, h⟩ := Run.bind_eq_ok.1 h
    cases h
    obtain ⟨hstandard, hstage⟩ := ih ht.1 hu
    exact ⟨⟨hstandard, hstage ▸ ht.2⟩, rfl⟩
  | binary op left right ihl ihr =>
    obtain ⟨l, m₁, hl, h⟩ := Run.bind_eq_ok.1 h
    obtain ⟨r, m₂, hr, h⟩ := Run.bind_eq_ok.1 h
    cases h
    obtain ⟨hleft, hright, hle, hlt⟩ := ht
    obtain ⟨hl, hlstage⟩ := ihl hleft hl
    obtain ⟨hr, hrstage⟩ := ihr hright hr
    exact ⟨⟨hl, hr, hlstage ▸ hle, hrstage ▸ hlt⟩, rfl⟩

/-- Neither an operator nor a bar nor `-` can be called. -/
theorem callable?_symbol {s : String} (hs : Symbol.isName s = false) (m : Machine) :
    Statement.callable? m (.symbol s) = none := by
  rw [Statement.callable?, hs]
  rfl

theorem isName_symbol (op : Operator) : Symbol.isName op.symbol = false := by
  rcases op with _ | op | op | op | _ | op <;> (try cases op) <;> decide

/-- In a sentence nothing is called. -/
theorem applied_items (t : Tree Group) {done : Row}
    (hdone : ∀ f ∈ done.head?, ∀ m, Statement.callable? m f = none) (g : Group) :
    Statement.applied ev call done (t.items ++ g) = t.evaluated ev >>= fun u =>
      Statement.applied ev call (u.row.reverse ++ done) g := by
  have hsymbol : ∀ {s : String} {done : Row}, Symbol.isName s = false →
      ∀ f ∈ (.symbol s :: done : Row).head?, ∀ m, Statement.callable? m f = none := by
    rintro s done hs f ⟨⟩ m
    exact callable?_symbol hs m
  have hskip : ∀ (s : String) (done : Row) (g : Group),
      Statement.applied ev call done (.symbol s :: g) =
        Statement.applied ev call (.symbol s :: done) g :=
    fun s done g => funext fun m => Statement.applied_symbol s
  induction t generalizing done g with
  | symbol s => exact hskip s done g
  | text s => exact Statement.applied_cons hdone _ _
  | group g' =>
    rw [items, List.singleton_append, Statement.applied_cons hdone]
    simp only [evaluated, Statement.term, bind_assoc, pure_bind]
    rfl
  | magnitude g' =>
    rw [items, List.cons_append, List.cons_append, hskip,
      Statement.applied_cons (hsymbol (by decide))]
    simp only [evaluated, Statement.term, bind_assoc, pure_bind]
    exact bind_congr fun v => hskip _ _ _
  | negation t ih =>
    rw [items, List.cons_append, hskip, ih (hsymbol (by decide))]
    simp only [evaluated, bind_assoc, pure_bind, row, List.reverse_cons, List.append_assoc,
      List.singleton_append]
  | binary op left right ihl ihr =>
    rw [items, List.append_assoc, ihl hdone]
    simp only [List.cons_append, hskip, ihr (hsymbol (isName_symbol op)), evaluated, bind_assoc,
      pure_bind, row, List.reverse_append, List.reverse_cons, List.append_assoc, List.nil_append]

/-- A sentence has no references. -/
theorem Standard.ofTerm?_eq_none {u : Tree Value} (hu : u.Standard) :
    ∀ x ∈ u.row, Reference.ofTerm? x = none := by
  have hsymbol : ∀ {s : String}, s ≠ "@" → s ≠ "~" →
      Reference.ofTerm? (.symbol s : Term Empty) = none := fun hmake hfollow => by
    rw [Reference.ofTerm?, Reference.ofSymbol?, if_neg hmake, if_neg hfollow]
  induction u with
  | symbol s => exact List.forall_mem_singleton.2 (hsymbol (hu.ne (by decide)) (hu.ne (by decide)))
  | text s => exact List.forall_mem_singleton.2 rfl
  | group v => exact List.forall_mem_singleton.2 rfl
  | magnitude v =>
    exact List.forall_mem_cons.2
      ⟨by decide, List.forall_mem_cons.2 ⟨rfl, List.forall_mem_singleton.2 (by decide)⟩⟩
  | negation t ih => exact List.forall_mem_cons.2 ⟨by decide, ih hu.1⟩
  | binary op left right ihl ihr =>
    refine List.forall_mem_append.2 ⟨ihl hu.1, List.forall_mem_cons.2 ⟨?_, ihr hu.2.1⟩⟩
    refine hsymbol ?_ ?_ <;>
      rcases op with _ | op | op | op | _ | op <;> (try cases op) <;> decide

/-- A sentence does not start with a keyword. -/
theorem Standard.keyword?_items {t : Tree Group} (ht : t.Standard) (g : Group) :
    Group.keyword? (t.items ++ g) = none := by
  induction t generalizing g with
  | symbol s => exact ht.keyword?_eq_none
  | binary op left right ih _ =>
    rw [items, List.append_assoc]
    exact ih ht.1 _
  | _ => rfl

theorem items_ne_nil (t : Tree Group) : t.items ≠ [] := by
  cases t with
  | binary op left right => exact List.append_ne_nil_of_right_ne_nil _ (List.cons_ne_nil _ _)
  | _ => exact List.cons_ne_nil _ _

/-- An expression without calls and references evaluates its groups, and does nothing else to
    the machine. -/
theorem Standard.evaluate_items {t : Tree Group} (ht : t.Standard) (fuel : Nat) (m : Machine) :
    evaluate (fuel + 1) t.items m =
      (t.evaluated (evaluate fuel) >>= fun u => Run.reading fun m => m.value u.row) m := by
  have hkeyword : Group.keyword? t.items = none := by
    rw [← List.append_nil t.items]
    exact ht.keyword?_items []
  have happlied : Statement.applied (evaluate fuel) (Call.apply (evaluate fuel)) [] t.items =
      t.evaluated (evaluate fuel) >>= fun u => pure u.row := by
    have hnil : ∀ f ∈ ([] : Row).head?, ∀ m, Statement.callable? m f = none := nofun
    rw [← List.append_nil t.items, applied_items t hnil]
    refine bind_congr fun u => ?_
    rw [Statement.applied, List.append_nil, List.reverse_reverse]
  rw [evaluate, Statement.statement_eq_expression t.items_ne_nil hkeyword, Statement.expression,
    happlied, bind_assoc]
  refine Run.bind_congr rfl fun u m' hu => ?_
  exact Run.bind_of_ok (Reference.reduce_eq_self (ht.of_evaluated hu).1.ofTerm?_eq_none m')

end

end Tree

/-- The value of a sentence is that of its standard tree. The tree is the only one; its groups are
    evaluated first, and the first of them that fails decides; then nothing changes any
    more, and there is a value if and only if the tree has it. -/
theorem evaluate_sentence {g : Group} (hg : g.IsSentence) :
    ∃ t : Tree Group, (t.Standard ∧ t.items = g) ∧
      (∀ t' : Tree Group, t'.Standard → t'.items = g → t' = t) ∧
      ∀ fuel m,
        match t.evaluated (evaluate fuel) m with
        | .error e m' => evaluate (fuel + 1) g m = .error e m'
        | .ok u m' => ∃ result : Except Fault Value,
            (∀ v, result = .ok v ↔ u.value m'.toScope = .ok v) ∧
            evaluate (fuel + 1) g m = Run.ofExcept result m' := by
  obtain ⟨t, ht, rfl⟩ := hg.exists_standard
  refine ⟨t, ⟨ht, rfl⟩, fun t' ht' h => Tree.eq_of_items_eq ht' ht h, fun fuel m => ?_⟩
  rw [ht.evaluate_items]
  cases h : t.evaluated (evaluate fuel) m with
  | error e m' => exact Run.bind_eq_error.2 (.inl h)
  | ok u m' =>
    refine ⟨m'.value u.row, fun v => ?_, Run.bind_of_ok h⟩
    rw [← toOption_eq_some_iff, ← toOption_eq_some_iff]
    rw [(ht.of_evaluated h).1.value_row]
    rfl

/-- A negative number, less a product, less another number. -/
theorem evaluate_difference :
    let g : Group := [.symbol "-", .symbol "2", .symbol "-", .group [.symbol "3"], .symbol "*",
      .symbol "5", .symbol "-", .symbol "1"]
    let m := Machine.start (.script []) (fun _ => .error .notFound) (mkStdGen 0)
    g.IsSentence ∧ evaluate 2 g m = .ok (.integer (-18)) m := by
  intro g m
  have htwo : Symbol.IsOperand "2" := by decide
  have hfive : Symbol.IsOperand "5" := by decide
  have hone : Symbol.IsOperand "1" := by decide
  have hg : g.IsSentence :=
    .operator (.arithmetic .subtract)
      (.operator (.arithmetic .multiply)
        (.operator (.arithmetic .subtract) (.operand (.negation (.symbol htwo)))
          (.group [.symbol "3"]))
        (.symbol hfive))
      (.symbol hone)
  refine ⟨hg, ?_⟩
  obtain ⟨t, -, hunique, hvalue⟩ := evaluate_sentence hg
  obtain rfl := hunique
    (.binary (.arithmetic .subtract)
      (.binary (.arithmetic .subtract) (.negation (.symbol "2"))
        (.binary (.arithmetic .multiply) (.group [.symbol "3"]) (.symbol "5")))
      (.symbol "1"))
    ⟨⟨⟨htwo, by decide⟩, ⟨trivial, hfive, by decide, by decide⟩, by decide, by decide⟩,
      hone, by decide, by decide⟩ rfl
  obtain ⟨result, hresult, hevaluate⟩ := hvalue 1 m
  rw [hevaluate, (hresult (.integer (-18))).2 rfl]
  rfl

end Linewise
