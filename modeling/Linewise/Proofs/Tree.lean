import Linewise.Interpreter

/-!
# Trees of expressions

An expression without calls and references is a *sentence*: operands with operators in
between, where an operand is a symbol, a string or a group, which may stand between bars, and
may have any number of `-` before it. It is written in a row, but meant as a tree, the
*standard* one: bars and `-` bind tightest, then the operators, level by level, and from left to
right within a level.

* `Group.IsSentence.exists_standard`: a sentence has a standard tree;
* `Tree.eq_of_items_eq`: and only one.

A tree is evaluated in two steps, its groups from left to right (`Tree.evaluated`), and then
everything else from the leaves up (`Tree.value`). Trees hold what stands for a group: the group
itself at first, and then its value.
-/

namespace Linewise

/-- The symbol is an operand on its own: a number, a name, or a word for a value. -/
def Symbol.IsOperand (s : String) : Prop :=
  (literal? s).isSome ∨ isName s ∨ s ∈ ["yes", "no", "nil", "break"]

instance (s : String) : Decidable (Symbol.IsOperand s) :=
  inferInstanceAs (Decidable (_ ∨ _ ∨ _))

/-- The items are an operand. -/
inductive Group.IsOperand : Group → Prop
  | symbol {s : String} : Symbol.IsOperand s → IsOperand [.symbol s]
  | text (s : String) : IsOperand [.text s]
  | group (g : Group) : IsOperand [.group g]
  | magnitude (g : Group) : IsOperand [.symbol "|", .group g, .symbol "|"]
  | negation {g : Group} : IsOperand g → IsOperand (.symbol "-" :: g)

/-- The items are operands with an operator between any two of them. -/
inductive Group.IsSentence : Group → Prop
  | operand {g : Group} : IsOperand g → IsSentence g
  | operator {g g' : Group} (op : Operator) :
      IsSentence g → IsOperand g' → IsSentence (g ++ .symbol op.symbol :: g')

/-- The tree of an expression. `γ` is what stands for its groups. -/
inductive Tree (γ : Type) where
  | symbol (s : String)
  | text (s : String)
  | group (g : γ)
  /-- A group between bars. -/
  | magnitude (g : γ)
  /-- `-` without a left operand. -/
  | negation (t : Tree γ)
  | binary (op : Operator) (left right : Tree γ)

namespace Tree

variable {γ : Type}

/-- The pass that turns the tree into a value: there is one for bars, one for `-` without a
    left operand, and one for each level of operators. -/
def stage : Tree γ → Nat
  | magnitude _ => 1
  | negation _ => 2
  | binary op _ _ => op.level + 3
  | _ => 0

/-- What binds tighter is further down, and of operators of one level those on the left
    are. -/
def Standard : Tree γ → Prop
  | symbol s => Symbol.IsOperand s
  | negation t => t.Standard ∧ t.stage ≤ 2
  | binary op left right =>
    left.Standard ∧ right.Standard ∧ left.stage ≤ op.level + 3 ∧ right.stage < op.level + 3
  | _ => True

/-- The items of the tree, in their order. -/
def items : Tree Group → Group
  | symbol s => [.symbol s]
  | text s => [.text s]
  | group g => [.group g]
  | magnitude g => [.symbol "|", .group g, .symbol "|"]
  | negation t => .symbol "-" :: t.items
  | binary op left right => left.items ++ .symbol op.symbol :: right.items

/-! ## Evaluation -/

/-- The tree with the values of its groups, which are evaluated from left to right. -/
def evaluated (evaluate : Group → Run Value) : Tree Group → Run (Tree Value)
  | symbol s => return symbol s
  | text s => return text s
  | group g => return group (← evaluate g)
  | magnitude g => return magnitude (← evaluate g)
  | negation t => return negation (← t.evaluated evaluate)
  | binary op left right => do
    let left ← left.evaluated evaluate
    let right ← right.evaluated evaluate
    return binary op left right

/-- The value of the tree, from the leaves up. Both operands of an operator are evaluated,
    whatever the operator and the value of the first. -/
def value (scope : Scope) : Tree Value → Except Fault Value
  | symbol s => scope.lookup s
  | text s => .ok (.string s)
  | group v => .ok v
  | magnitude v => Operation.modulus scope.memory v
  | negation t => do Operation.negate scope.memory (← t.value scope)
  | binary op left right => do
    let a ← left.value scope
    let b ← right.value scope
    Operation.apply scope.memory op a b

/-! ## The standard tree

A tree is built from its operands, one after the other: an operator goes below the operators
on the right edge of the tree that are of a higher level (`add`). -/

/-- The tree with one more operator, and what comes after that, on the right. -/
def add : Tree γ → Operator → Tree γ → Tree γ
  | binary op' left right, op, operand =>
    if op.level < op'.level then binary op' left (right.add op operand)
    else binary op (binary op' left right) operand
  | t, op, operand => binary op t operand

/-- The first operand. -/
def first : Tree γ → Tree γ
  | binary _ left _ => left.first
  | t => t

/-- The other operands, each with the operator before it. -/
def others : Tree γ → List (Operator × Tree γ)
  | binary op left right => left.others ++ (op, right.first) :: right.others
  | _ => []

/-- The tree with more operators and operands on the right. -/
def addAll (t : Tree γ) (others : List (Operator × Tree γ)) : Tree γ :=
  others.foldl (fun t (op, operand) => t.add op operand) t

variable {t t' left right operand : Tree γ} {op op' : Operator} {l : Nat}

theorem add_eq_binary (h : t.stage ≤ op.level + 3) : t.add op operand = binary op t operand := by
  cases t with
  | binary op' left right =>
    have hlevel : ¬op.level < op'.level := Nat.not_lt.2 (Nat.le_of_add_le_add_right h)
    rw [add, if_neg hlevel]
  | _ => rfl

/-- A tree with tighter operators may be added as a whole. -/
theorem add_add (h : op'.level < op.level) (hleft : left.stage ≤ op'.level + 3) :
    (t.add op left).add op' right = t.add op (binary op' left right) := by
  induction t with
  | binary op'' left' right' _ ih =>
    by_cases hop : op.level < op''.level
    · rw [add, if_pos hop, add, if_pos (Nat.lt_trans h hop), ih, add, if_pos hop]
    · rw [add, if_neg hop, add, if_pos h, add_eq_binary hleft, add, if_neg hop]
  | _ => exact (if_pos h).trans (congrArg _ (add_eq_binary hleft))

theorem addAll_others_add (ht : t.Standard) (h : t.stage < op.level + 3) (t' : Tree γ) :
    (t'.add op t.first).addAll t.others = t'.add op t := by
  induction t generalizing op t' with
  | binary op' left right ihl ihr =>
    obtain ⟨hleft, hright, hle, hlt⟩ := ht
    have hop : op'.level < op.level := Nat.lt_of_add_lt_add_right h
    have hlow : left.stage < op.level + 3 := Nat.lt_of_le_of_lt hle h
    calc (t'.add op left.first).addAll (left.others ++ (op', right.first) :: right.others)
        = (((t'.add op left.first).addAll left.others).add op' right.first).addAll
            right.others := List.foldl_append
      _ = ((t'.add op left).add op' right.first).addAll right.others := by rw [ihl hleft hlow]
      _ = (t'.add op left).add op' right := ihr hright hlt _
      _ = t'.add op (binary op' left right) := add_add hop hle
  | _ => rfl

/-- A standard tree is built from its operands. -/
theorem addAll_others (ht : t.Standard) : t.first.addAll t.others = t := by
  induction t with
  | binary op left right ihl _ =>
    obtain ⟨hleft, hright, hle, hlt⟩ := ht
    calc left.first.addAll (left.others ++ (op, right.first) :: right.others)
        = ((left.first.addAll left.others).add op right.first).addAll right.others :=
          List.foldl_append
      _ = (left.add op right.first).addAll right.others := by rw [ihl hleft]
      _ = left.add op right := addAll_others_add hright hlt _
      _ = binary op left right := add_eq_binary hle
  | _ => rfl

/-- A standard tree without operators. -/
structure IsOperand (t : Tree γ) : Prop where
  standard : t.Standard
  stage_le : t.stage ≤ 2

theorem IsOperand.stage_lt (h : operand.IsOperand) (op : Operator) :
    operand.stage < op.level + 3 :=
  Nat.lt_of_le_of_lt h.stage_le (Nat.lt_add_left _ (Nat.lt_succ_self 2))

theorem Standard.add (ht : t.Standard) (hoperand : operand.IsOperand) :
    (t.add op operand).Standard := by
  induction t with
  | binary op' left right _ ih =>
    obtain ⟨hleft, hright, hle, hlt⟩ := ht
    rw [Tree.add]
    split
    case isTrue hop =>
      refine ⟨hleft, ih hright, hle, ?_⟩
      cases right with
      | binary op'' _ _ =>
        rw [Tree.add]
        split
        · exact hlt
        · exact Nat.add_lt_add_right hop 3
      | _ => exact Nat.add_lt_add_right hop 3
    case isFalse hop =>
      exact ⟨⟨hleft, hright, hle, hlt⟩, hoperand.standard,
        Nat.add_le_add_right (Nat.not_lt.1 hop) 3, hoperand.stage_lt op⟩
  | negation _ _ =>
    exact ⟨ht, hoperand.standard, Nat.le_add_left_of_le (Nat.le_succ 2), hoperand.stage_lt op⟩
  | magnitude _ =>
    exact ⟨ht, hoperand.standard, Nat.le_add_left_of_le (Nat.le_add_left 1 2),
      hoperand.stage_lt op⟩
  | _ => exact ⟨ht, hoperand.standard, Nat.zero_le _, hoperand.stage_lt op⟩

/-! ### Items -/

theorem items_add (t operand : Tree Group) :
    (t.add op operand).items = t.items ++ .symbol op.symbol :: operand.items := by
  induction t with
  | binary op' left right _ ih =>
    rw [add]
    split
    · rw [items, ih, items, List.append_assoc, List.cons_append]
    · rfl
  | _ => rfl

theorem Standard.isOperand_first (ht : t.Standard) : t.first.IsOperand := by
  induction t with
  | binary op left right ih _ => exact ih ht.1
  | negation _ _ => exact ⟨ht, Nat.le_refl 2⟩
  | magnitude _ => exact ⟨ht, Nat.le_succ 1⟩
  | _ => exact ⟨ht, Nat.zero_le 2⟩

theorem Standard.isOperand_others (ht : t.Standard) : ∀ x ∈ t.others, x.2.IsOperand := by
  induction t with
  | binary op left right ihl ihr =>
    exact List.forall_mem_append.2
      ⟨ihl ht.1, List.forall_mem_cons.2 ⟨ht.2.1.isOperand_first, ihr ht.2.1⟩⟩
  | _ => exact List.forall_mem_nil _

/-- The items of some operands, each behind its operator. -/
def itemsOfOthers (others : List (Operator × Tree Group)) : Group :=
  others.flatMap fun (op, operand) => .symbol op.symbol :: operand.items

theorem items_eq (t : Tree Group) : t.items = t.first.items ++ itemsOfOthers t.others := by
  induction t with
  | binary op left right ihl ihr =>
    have hothers : itemsOfOthers (left.others ++ (op, right.first) :: right.others) =
        itemsOfOthers left.others ++
          .symbol op.symbol :: (right.first.items ++ itemsOfOthers right.others) :=
      List.flatMap_append
    rw [items, ihl, ihr, first, others, hothers, List.append_assoc]
  | _ => exact (List.append_nil _).symm

/-- The operand that some items start with, and the items after it. -/
def operand? : Group → Option (Tree Group × Group)
  | .symbol s :: items =>
    if s = "-" then (operand? items).map fun (t, items) => (negation t, items)
    else if s = "|" then
      match items with
      | .group g :: _ :: items => some (magnitude g, items)
      | _ => none
    else some (symbol s, items)
  | .text s :: items => some (text s, items)
  | .group g :: items => some (group g, items)
  | [] => none

theorem operand?_items {t : Tree Group} (ht : t.IsOperand) (g : Group) :
    operand? (t.items ++ g) = some (t, g) := by
  induction t with
  | symbol s =>
    have hne : ∀ {s'}, ¬Symbol.IsOperand s' → s ≠ s' := fun hs' heq => hs' (heq ▸ ht.standard)
    exact (if_neg (hne (by decide))).trans (if_neg (hne (by decide)))
  | negation t ih =>
    obtain ⟨ht, hstage⟩ := ht.standard
    exact (if_pos rfl).trans (congrArg (Option.map _) (ih ⟨ht, hstage⟩))
  | binary op _ _ =>
    exact absurd ht.stage_le (Nat.not_le.2 (Nat.lt_add_left _ (Nat.lt_succ_self 2)))
  | _ => rfl

/-- Where an operand ends can be told from its items. -/
theorem IsOperand.append_inj {t t' : Tree Group} (ht : t.IsOperand) (ht' : t'.IsOperand)
    {g g' : Group} (h : t.items ++ g = t'.items ++ g') : t = t' ∧ g = g' := by
  have hsome :=
    (operand?_items ht g).symm.trans ((congrArg operand? h).trans (operand?_items ht' g'))
  exact Prod.mk.inj (Option.some.inj hsome)

theorem itemsOfOthers_inj {others others' : List (Operator × Tree Group)}
    (hothers : ∀ x ∈ others, x.2.IsOperand) (hothers' : ∀ x ∈ others', x.2.IsOperand)
    (h : itemsOfOthers others = itemsOfOthers others') : others = others' := by
  induction others generalizing others' with
  | nil =>
    cases others' with
    | nil => rfl
    | cons x others' => cases h
  | cons x others ih =>
    cases others' with
    | nil => cases h
    | cons x' others' =>
      rw [List.forall_mem_cons] at hothers hothers'
      obtain ⟨hsymbol, htail⟩ := List.cons.inj h
      obtain ⟨hoperand, hrest⟩ := hothers.1.append_inj hothers'.1 htail
      have hop : some x.1 = some x'.1 := by
        rw [← Operator.ofSymbol?_symbol, ← Operator.ofSymbol?_symbol, Item.symbol.inj hsymbol]
      rw [ih hothers.2 hothers'.2 hrest, Prod.ext (Option.some.inj hop) hoperand]

/-- A standard tree is determined by its items. -/
theorem eq_of_items_eq {t t' : Tree Group} (ht : t.Standard) (ht' : t'.Standard)
    (h : t.items = t'.items) : t = t' := by
  rw [items_eq t, items_eq t'] at h
  obtain ⟨hfirst, hothers⟩ := ht.isOperand_first.append_inj ht'.isOperand_first h
  have hothers := itemsOfOthers_inj ht.isOperand_others ht'.isOperand_others hothers
  rw [← addAll_others ht, ← addAll_others ht', hfirst, hothers]

end Tree

namespace Group

variable {g : Group}

theorem IsOperand.exists_isOperand (h : IsOperand g) :
    ∃ t : Tree Group, t.IsOperand ∧ t.items = g := by
  induction h with
  | symbol hs => exact ⟨.symbol _, ⟨hs, Nat.zero_le 2⟩, rfl⟩
  | text s => exact ⟨.text s, ⟨trivial, Nat.zero_le 2⟩, rfl⟩
  | group g => exact ⟨.group g, ⟨trivial, Nat.zero_le 2⟩, rfl⟩
  | magnitude g => exact ⟨.magnitude g, ⟨trivial, Nat.le_succ 1⟩, rfl⟩
  | negation _ ih =>
    obtain ⟨t, ht, hitems⟩ := ih
    exact ⟨.negation t, ⟨⟨ht.standard, ht.stage_le⟩, Nat.le_refl 2⟩, congrArg _ hitems⟩

/-- Every sentence has a standard tree. -/
theorem IsSentence.exists_standard (h : IsSentence g) :
    ∃ t : Tree Group, t.Standard ∧ t.items = g := by
  induction h with
  | operand h =>
    obtain ⟨t, ht, hitems⟩ := h.exists_isOperand
    exact ⟨t, ht.standard, hitems⟩
  | operator op _ h ih =>
    obtain ⟨t, ht, hitems⟩ := ih
    obtain ⟨operand, hoperand, hitems'⟩ := h.exists_isOperand
    exact ⟨t.add op operand, ht.add hoperand, by rw [Tree.items_add, hitems, hitems']⟩

end Group

end Linewise
