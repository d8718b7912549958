import Linewise.Proofs.Flattening

/-!
# Lists with brackets in them

A list is written with commas between its parts. A part is an element, or a list in brackets. Its
value is found in three passes: the lists in brackets come first, from left to right, then the
references are made, from right to left, and then the commas are applied, from left to right. The
comma takes a list on its left as it is, and flattens what is on its right. So an element is
flattened once when it becomes part of a list, and once more for each list in brackets that it is
part of and that comes after a comma (`Enumeration.additions`).

* `Enumeration.Amounts`: what a part adds to the list, on machines with more variables too;
* `Enumeration.Ready`: a row before the pass for references;
* `Enumeration.exists_settles`: the value of a list.
-/

namespace Linewise

open Filter

/-! ## Lists with brackets in them -/

namespace Enumeration

/-- What is between two commas, with what it stands for: a literal, a name, or a reference to
    what a name is bound to. -/
inductive Element where
  | literal (item : Item) (v : Value)
  | name (x : String) (r : VarRef)
  | reference (x : String) (r : VarRef)

namespace Element

def items : Element → Group
  | literal item _ => [item]
  | name x _ => [.symbol x]
  | reference x _ => [.symbol Reference.make.symbol, .symbol x]

/-- The element is what it says. -/
def Denotes (s : Scope) : Element → Prop
  | literal item v => item.Literal v
  | name x r | reference x r => Symbol.isName x = true ∧ s.find? x = some (.var r)

/-- The variable that the element mentions. -/
def var? : Element → Option VarRef
  | literal _ _ => none
  | name _ r | reference _ r => some r

/-- What is passed on to a list: all but references by value. -/
def passed (m : Memory) : Element → List Value
  | literal _ v => [v]
  | name _ r => m.flatten (.var r)
  | reference _ r => [.var r]

end Element

end Enumeration

open Enumeration (Element)

mutual

/-- One of the parts between the commas: an element, or a list in brackets. -/
inductive Enumeration.Part where
  | element (e : Element)
  | bracketed (r : Enumeration)

/-- Parts with commas in between. -/
inductive Enumeration where
  | part (p : Enumeration.Part)
  | comma (r : Enumeration) (p : Enumeration.Part)

end

namespace Enumeration

mutual

def Part.items : Part → Group
  | .element e => e.items
  | .bracketed r => [.group r.items]

def items : Enumeration → Group
  | part p => p.items
  | comma r p => r.items ++ .symbol "," :: p.items

end

mutual

/-- There is a comma, so that the value is a list. -/
def Part.several : Part → Bool
  | .element _ => false
  | .bracketed r => r.several

def several : Enumeration → Bool
  | part p => p.several
  | comma _ _ => true

end

mutual

/-- The elements, each with the number of times that it is added again to a list: once for each
    list in brackets that it is part of and that comes after a comma. -/
def Part.additions : Part → List (Element × Nat)
  | .element e => [(e, 0)]
  | .bracketed r => r.additions

def additions : Enumeration → List (Element × Nat)
  | part p => p.additions
  | comma r p =>
    r.additions ++ if p.several then p.additions.map (Prod.map id Nat.succ) else p.additions

end

/-- The elements, in their order. -/
def elements (r : Enumeration) : List Element :=
  r.additions.map Prod.fst

/-- The elements without any brackets. -/
def ofElements (e : Element) (es : List Element) : Enumeration :=
  es.foldl (fun r e => comma r (.element e)) (part (.element e))

mutual

theorem Part.length_additions : ∀ {p : Part}, p.several = false → p.additions.length = 1
  | .element _, _ => rfl
  | .bracketed _, h => length_additions h

/-- Without a comma there is one element only. -/
theorem length_additions : ∀ {r : Enumeration}, r.several = false → r.additions.length = 1
  | part _, h => Part.length_additions h

end

theorem several_of_lt {r : Enumeration} (h : 1 < r.elements.length) : r.several = true := by
  by_contra hseveral
  rw [Bool.not_eq_true] at hseveral
  rw [elements, List.length_map, length_additions hseveral] at h
  exact Nat.lt_irrefl 1 h

theorem additions_ofElements (e : Element) (es : List Element) :
    (ofElements e es).additions = (e :: es).map (·, 0) := by
  suffices h : ∀ r : Enumeration,
      (es.foldl (fun r e => comma r (.element e)) r).additions = r.additions ++ es.map (·, 0) from
    h _
  induction es with
  | nil => exact fun r => (List.append_nil _).symm
  | cons e es ih =>
    intro r
    rw [List.foldl_cons, ih, additions, List.append_assoc]
    rfl

theorem elements_ofElements (e : Element) (es : List Element) :
    (ofElements e es).elements = e :: es := by
  rw [elements, additions_ofElements, List.map_map]
  exact List.map_id _

mutual

theorem Part.exists_items : ∀ p : Part, (∀ e ∈ p.additions.map Prod.fst, ∃ s, e.Denotes s) →
    ∃ item g, p.items = item :: g ∧ item.keyword? = none
  | .element (.literal item _), h => by
    obtain ⟨s, hitem⟩ := h _ (List.mem_singleton_self _)
    refine ⟨item, [], rfl, ?_⟩
    cases item with
    | symbol s => exact (Item.Literal.isOperand hitem).keyword?_eq_none
    | text s => rfl
    | group g => rfl
  | .element (.name x _), h => by
    obtain ⟨s, hx, -⟩ := h _ (List.mem_singleton_self _)
    exact ⟨_, [], rfl, (Symbol.IsOperand.of_isName hx).keyword?_eq_none⟩
  | .element (.reference _ _), _ => ⟨_, _, rfl, rfl⟩
  | .bracketed _, _ => ⟨_, [], rfl, rfl⟩

/-- No keyword comes first. -/
theorem exists_items : ∀ r : Enumeration, (∀ e ∈ r.elements, ∃ s, e.Denotes s) →
    ∃ item g, r.items = item :: g ∧ item.keyword? = none
  | part p, h => p.exists_items h
  | comma r p, h => by
    obtain ⟨item, g, hitems, hitem⟩ := r.exists_items fun e he => h e (by
      rw [elements, additions, List.map_append]
      exact List.mem_append_left _ he)
    exact ⟨item, _, by rw [items, hitems, List.cons_append], hitem⟩

end

end Enumeration

/-! ## Amounts -/

namespace Memory

variable {m : Memory}

/-- The values that are passed on, flattened as often as they are added again. -/
def amount (m : Memory) (additions : List (Element × Nat)) : List Value :=
  additions.flatMap fun q => m.flattenAll^[q.2] (q.1.passed m)

theorem amount_append (l l' : List (Element × Nat)) :
    m.amount (l ++ l') = m.amount l ++ m.amount l' :=
  List.flatMap_append

/-- To add a list again is to flatten it once more. -/
theorem amount_map_succ (l : List (Element × Nat)) :
    m.amount (l.map (Prod.map id Nat.succ)) = m.flattenAll (m.amount l) := by
  rw [amount, amount, flattenAll, List.flatMap_map, List.flatMap_assoc]
  refine List.flatMap_congr fun p _ => ?_
  exact Function.iterate_succ_apply' ..

end Memory

/-- A literal is neither a list nor a variable. -/
theorem Item.Literal.element {item : Item} {v : Value} (h : item.Literal v) :
    v.Element false := by
  cases h with
  | constant _ hv =>
    unfold Scope.constant? at hv
    split at hv <;> cases hv <;> trivial
  | _ => trivial

/-! ## Rows -/

/-- A row without references is not changed, nor is what comes after it. -/
theorem Reference.reduce_append {γ : Type} {resolve : Term γ → Run Value}
    {row rest rest' : List (Term γ)} {m m' : Machine} (h : ∀ t ∈ row, ofTerm? t = none)
    (hrest : reduce resolve rest m = .ok rest' m') :
    reduce resolve (row ++ rest) m = .ok (row ++ rest') m' := by
  induction row with
  | nil => exact hrest
  | cons t row ih =>
    rw [List.forall_mem_cons] at h
    rw [List.cons_append, reduce, Run.bind_of_ok (ih h.2), h.1]
    rfl

namespace Enumeration

variable {m m' : Machine} {row row' : Row} {several several' : Bool} {values values' : List Value}
  {k k' : Nat} {v : Value}

/-- The value is this list if there is a comma, and else comes to these arguments. -/
def Amounts (m : Machine) (v : Value) : Bool → List Value → Prop
  | true, values => v = .list values
  | false, values =>
    (∀ list, v ≠ .list list) ∧ ∀ m', m.Grows m' → m'.memory.flatten v = values

theorem Amounts.arguments (h : Amounts m v several values) (hm : m.Grows m') :
    m'.memory.arguments v = values := by
  cases several with
  | true =>
    obtain rfl := h
    rfl
  | false =>
    obtain ⟨hlist, hflatten⟩ := h
    rw [← hflatten m' hm]
    cases v with
    | list list => exact absurd rfl (hlist list)
    | _ => rfl

theorem Amounts.flatten (h : Amounts m v several values) (hm : m.Grows m') :
    m'.memory.flatten v = if several then m'.memory.flattenAll values else values := by
  cases several with
  | true =>
    obtain rfl := h
    exact Value.flattenAllWith_eq_flatMap _ _
  | false => exact h.2 m' hm

theorem Amounts.grows (h : Amounts m v several values) (hm : m.Grows m') :
    Amounts m' v several values := by
  cases several with
  | true => exact h
  | false => exact ⟨h.1, fun m₁ hm₁ => h.2 m₁ (hm.trans hm₁)⟩

/-- The row becomes a tree once its references are made, whatever comes after it, and the tree
    has a value that amounts to this. -/
def Ready (m : Machine) (k : Nat) (row : Row) (several : Bool) (values : List Value) : Prop :=
  ∀ m₁ m₂ rest rest', m.Grows m₁ → m₁.Grows m₂ →
    Reference.reduce (fun t => Run.reading fun m => m.resolve t) rest m₁ = .ok rest' m₂ →
    ∃ (t : Tree Value) (v : Value) (m₃ : Machine), t.Standard ∧ t.stage ≤ k ∧ m₂.Grows m₃ ∧
      Reference.reduce (fun t => Run.reading fun m => m.resolve t) (row ++ rest) m₁ =
        .ok (t.row ++ rest') m₃ ∧
      (∀ m', m₃.Grows m' → t.value m'.toScope = .ok v) ∧ Amounts m₃ v several values

theorem Ready.grows (h : Ready m k row several values) (hm : m.Grows m') :
    Ready m' k row several values :=
  fun m₁ m₂ rest rest' hm₁ => h m₁ m₂ rest rest' (hm.trans hm₁)

theorem Ready.mono (h : Ready m k row several values) (hk : k ≤ k') :
    Ready m k' row several values := by
  intro m₁ m₂ rest rest' hm₁ hm₂ hrest
  obtain ⟨t, v, m₃, ht, hstage, hready⟩ := h m₁ m₂ rest rest' hm₁ hm₂ hrest
  exact ⟨t, v, m₃, ht, hstage.trans hk, hready⟩

theorem ready_of_standard {t : Tree Value} (ht : t.Standard) (hk : t.stage ≤ k)
    (hv : ∀ m', m.Grows m' → t.value m'.toScope = .ok v) (h : Amounts m v several values) :
    Ready m k t.row several values := by
  intro m₁ m₂ rest rest' hm₁ hm₂ hrest
  have hm := hm₁.trans hm₂
  exact ⟨t, v, m₂, ht, hk, .refl m₂, Reference.reduce_append ht.ofTerm?_eq_none hrest,
    fun m' hm' => hv m' (hm.trans hm'), h.grows hm⟩

/-- A reference is passed on as what it refers to. -/
theorem ready_reference {x : String} {r : VarRef} (hx : Symbol.isName x = true)
    (hr : m.find? x = some (.var r)) :
    Ready m 0 [.symbol Reference.make.symbol, .symbol x] false [.var r] := by
  intro m₁ m₂ rest rest' hm₁ hm₂ hrest
  have hmark : ∀ t ∈ ([.symbol x] : Row), Reference.ofTerm? t = none :=
    List.forall_mem_singleton.2 (Symbol.ofTerm?_of_isName hx)
  have hname := Reference.reduce_append hmark hrest
  have hresolve : Run.reading (fun m => m.resolve (.symbol x)) m₂ = .ok (.var r) m₂ := by
    rw [Run.reading, Scope.resolve, Scope.lookup, (hm₁.trans hm₂).find?_eq, hr]
  refine ⟨.group (.var ⟨m₂.memory.vars.size⟩), _, m₂.refer r, trivial, Nat.le_refl 0, ⟨#[_], rfl⟩,
    Reference.reduce_make hname hresolve, fun _ _ => rfl, fun _ => Value.var_ne_list,
    fun m' hm' => ?_⟩
  have hsize : m₂.memory.vars.size < (m₂.refer r).memory.vars.size := by
    rw [Machine.refer, Memory.size_addVariable]
    exact Nat.lt_succ_self _
  have hread : m'.memory.read ⟨m₂.memory.vars.size⟩ = .var r :=
    (hm'.read_eq hsize).trans Memory.read_addVariable_self
  obtain ⟨n, hn⟩ := Nat.exists_eq_add_of_lt (hsize.trans_le hm'.size_le)
  rw [Memory.flatten, Value.flattenWith, hn, Memory.contents, hread]

/-- The pass that the comma belongs to. -/
def stage : Nat :=
  Operator.enumerate.level + 3

/-- The comma takes a list on its left as it is, and flattens what is on its right. -/
theorem Ready.comma (h : Ready m stage row several values)
    (h' : Ready m 0 row' several' values') {added : List Value}
    (hadded : ∀ m', m.Grows m' →
      (if several' then m'.memory.flattenAll values' else values') = added) :
    Ready m stage (row ++ .symbol "," :: row') true (values ++ added) := by
  intro m₁ m₂ rest rest' hm₁ hm₂ hrest
  obtain ⟨u, b, m₃, hu, hustage, hm₃, hright, hb, hbvalues⟩ := h' m₁ m₂ rest rest' hm₁ hm₂ hrest
  have hmark : ∀ t ∈ ([.symbol ","] : Row), Reference.ofTerm? t = none := by decide
  have hcomma := Reference.reduce_append hmark hright
  obtain ⟨t, a, m₄, ht, htstage, hm₄, hleft, ha, havalues⟩ :=
    h m₁ m₃ _ _ hm₁ (hm₂.trans hm₃) hcomma
  have hm := (hm₁.trans hm₂).trans (hm₃.trans hm₄)
  refine ⟨.binary .enumerate t u, _, m₄, ⟨ht, hu, htstage, Nat.lt_of_le_of_lt hustage ?_⟩,
    Nat.le_refl _, hm₃.trans hm₄, ?_, fun m' hm' => ?_, rfl⟩
  · decide
  · rw [List.append_assoc, Tree.row, List.append_assoc]
    exact hleft
  · have hflatten := hbvalues.flatten (hm₄.trans hm')
    rw [hadded m' (hm.trans hm')] at hflatten
    rw [Tree.value, ha m' hm', hb m' (hm₄.trans hm')]
    exact congrArg (fun l => Except.ok (Value.list l))
      (congrArg₂ _ (havalues.arguments hm') hflatten)

/-! ## Evaluation -/

/-- The groups of some items come to a row that is ready. -/
def Applies (m : Machine) (g : Group) (k : Nat) (several : Bool) (values : List Value) : Prop :=
  ∃ row m', m.Grows m' ∧ Ready m' k row several values ∧ ∀ᶠ n in atTop, ∀ done rest,
    (∀ f ∈ done.head?, ∀ m, Statement.callable? m f = none) →
      Statement.applied (evaluate n) (Call.apply (evaluate n)) done (g ++ rest) m =
        Statement.applied (evaluate n) (Call.apply (evaluate n)) (row.reverse ++ done) rest m'

/-- A tree whose groups are evaluated already. -/
theorem applies_of_evaluated {t : Tree Group} {u : Tree Value} (hu : u.Standard)
    (hk : u.stage ≤ k)
    (ht : ∀ᶠ n in atTop, t.evaluated (evaluate n) m = .ok u m') (hm : m.Grows m')
    (hv : ∀ m₁, m'.Grows m₁ → u.value m₁.toScope = .ok v) (h : Amounts m' v several values) :
    Applies m t.items k several values := by
  refine ⟨u.row, m', hm, ready_of_standard hu hk hv h, ht.mono fun n hn done rest hdone => ?_⟩
  rw [Tree.applied_items t hdone, Run.bind_of_ok hn]

theorem Applies.comma {g g' : Group} (h : Applies m g stage several values)
    (h' : ∀ m', m.Grows m' → Applies m' g' 0 several' values') {added : List Value}
    (hadded : ∀ m', m.Grows m' →
      (if several' then m'.memory.flattenAll values' else values') = added) :
    Applies m (g ++ .symbol "," :: g') stage true (values ++ added) := by
  obtain ⟨row, m₁, hm₁, hready, hleft⟩ := h
  obtain ⟨row', m₂, hm₂, hready', hright⟩ := h' m₁ hm₁
  refine ⟨row ++ .symbol "," :: row', m₂, hm₁.trans hm₂, (hready.grows hm₂).comma hready'
    fun m' hm' => hadded m' ((hm₁.trans hm₂).trans hm'), ?_⟩
  filter_upwards [hleft, hright] with n hleft hright done rest hdone
  rw [List.append_assoc, hleft _ _ hdone, List.cons_append, Statement.applied_symbol, hright,
    List.reverse_append, List.reverse_cons, List.append_assoc, List.append_assoc]
  · rfl
  · rintro f ⟨⟩ m
    exact Tree.callable?_symbol (by decide) m

/-- The references are made, and then all operators are applied. -/
theorem Applies.exists_settles {item : Item} {g : Group}
    (h : Applies m (item :: g) k several values) (hitem : item.keyword? = none) :
    ∃ v m', m.Grows m' ∧ Run.Settles (evaluate · (item :: g)) m (.ok v m') ∧
      Amounts m' v several values := by
  obtain ⟨row, m₁, hm₁, hready, happlied⟩ := h
  obtain ⟨t, v, m₂, ht, -, hm₂, hreduce, hv, hvalues⟩ :=
    hready m₁ m₁ [] [] (.refl m₁) (.refl m₁) rfl
  refine ⟨v, m₂, hm₁.trans hm₂, Run.settles_of_succ (happlied.mono fun n hn => ?_), hvalues⟩
  have hrow := hn [] [] fun f hf => absurd hf (Option.not_mem_none f)
  rw [List.append_nil, List.append_nil, Statement.applied, List.reverse_reverse] at hrow
  rw [List.append_nil, List.append_nil] at hreduce
  have hvalue : m₂.value t.row = .ok v := by
    rw [← toOption_eq_some_iff, ht.value_row, Tree.value?, hv m₂ (.refl m₂)]
    rfl
  rw [evaluate, Statement.statement_eq_expression (List.cons_ne_nil item g) hitem,
    Statement.expression, Run.bind_of_ok hrow, Run.bind_of_ok hreduce, Run.reading, hvalue]

/-! ### Elements -/

/-- The element is what it says, and its variable is in memory and is not endless. -/
structure Element.Sound (s : Scope) (e : Element) : Prop where
  denotes : e.Denotes s
  contained : ∀ r ∈ e.var?, r.index < s.memory.vars.size
  ends : ∀ r ∈ e.var?, s.memory.Nests s.memory.vars.size (.var r)

theorem exists_settles_of_applies {s : Scope} {r : Enumeration}
    (hr : ∀ q ∈ r.additions, q.1.Sound s) (h : Applies m r.items k several values) :
    ∃ v m', m.Grows m' ∧ Run.Settles (evaluate · r.items) m (.ok v m') ∧
      Amounts m' v several values := by
  obtain ⟨item, g, hitems, hitem⟩ := r.exists_items fun e he => by
    obtain ⟨q, hq, rfl⟩ := List.mem_map.1 he
    exact ⟨s, (hr q hq).denotes⟩
  rw [hitems] at h ⊢
  exact h.exists_settles hitem

section

variable {s : Scope} (hs : s.memory.SelfContained) {w : Value}

include hs

/-- What is passed on is in memory and is not endless. -/
theorem Element.Sound.of_mem_passed {e : Element} (he : e.Sound s) (hw : w ∈ e.passed s.memory) :
    s.memory.Contains w ∧ s.memory.Nests s.memory.vars.size w := by
  cases e with
  | literal item v =>
    obtain rfl := List.mem_singleton.1 hw
    have hv : w.Element false := Item.Literal.element he.denotes
    cases w with
    | list values => exact hv.elim
    | var r => cases hv
    | _ => exact ⟨trivial, Memory.nests_of_element trivial⟩
  | name x r =>
    have hr : s.memory.Contains (.var r) := he.contained r rfl
    exact ⟨Memory.flatten_within (fun r _ => hs r) hr w hw, (he.ends r rfl).of_mem_flattenWith hw⟩
  | reference x r =>
    obtain rfl := List.mem_singleton.1 hw
    exact ⟨he.contained r rfl, he.ends r rfl⟩

theorem of_mem_amount {l : List (Element × Nat)} (hl : ∀ q ∈ l, q.1.Sound s)
    (hw : w ∈ s.memory.amount l) :
    s.memory.Contains w ∧ s.memory.Nests s.memory.vars.size w := by
  obtain ⟨q, hq, hw⟩ := List.mem_flatMap.1 hw
  refine Memory.forall_mem_iterate (fun v hv w hw => ?_)
    (fun w hw => (hl q hq).of_mem_passed hs hw) q.2 w hw
  exact ⟨Memory.flatten_within (fun r _ => hs r) hv.1 w hw, hv.2.of_mem_flattenWith hw⟩

end

section

variable {base : Machine} (hbase : base.memory.SelfContained)

include hbase

/-- However many variables there are by then, the elements are flattened in the same way. -/
theorem flattenAll_amount {l : List (Element × Nat)} (hl : ∀ p ∈ l, p.1.Sound base.toScope)
    (hm : base.Grows m) :
    m.memory.flattenAll (base.memory.amount l) =
      base.memory.flattenAll (base.memory.amount l) := by
  refine List.flatMap_congr fun w hw => ?_
  obtain ⟨hcontains, hends⟩ := of_mem_amount hbase hl hw
  exact hm.flatten_eq hbase hcontains hends

theorem Element.applies {e : Element} (he : e.Sound base.toScope) (hm : base.Grows m) :
    Applies m e.items 0 false (e.passed base.memory) := by
  cases e with
  | literal item v =>
    have hitem : item.Literal v := he.denotes
    have hamounts : Amounts m v false [v] :=
      ⟨fun list hlist => (hlist ▸ hitem.element : (Value.list list).Element false),
        fun m' _ => Memory.flatten_of_element hitem.element⟩
    cases item with
    | symbol s =>
      exact applies_of_evaluated (t := .symbol s) (u := .symbol s) hitem.isOperand (Nat.le_refl 0)
        (.of_forall fun _ => rfl) (.refl m) (fun m' _ => hitem.lookup m'.toScope) hamounts
    | text s =>
      cases hitem
      exact applies_of_evaluated (t := .text s) (u := .text s) trivial (Nat.le_refl 0)
        (.of_forall fun _ => rfl) (.refl m) (fun m' _ => rfl) hamounts
    | group g => cases hitem
  | name x r =>
    obtain ⟨hx, hr⟩ := he.denotes
    have hcontains : base.memory.Contains (.var r) := he.contained r rfl
    refine applies_of_evaluated (t := .symbol x) (u := .symbol x) (v := .var r)
      (.of_isName hx) (Nat.le_refl 0) (.of_forall fun _ => rfl) (.refl m) (fun m' hm' => ?_)
      ⟨fun _ => Value.var_ne_list, fun m' hm' =>
        (hm.trans hm').flatten_eq hbase hcontains (he.ends r rfl)⟩
    rw [Tree.value, Scope.lookup, (hm.trans hm').find?_eq, hr]
  | reference x r =>
    obtain ⟨hx, hr⟩ := he.denotes
    refine ⟨_, m, .refl m, ready_reference hx ((hm.find?_eq x).trans hr), .of_forall
      fun n done rest _ => ?_⟩
    exact (Statement.applied_symbol _).trans (Statement.applied_symbol _)

mutual

theorem Part.applies : ∀ p : Part, (∀ q ∈ p.additions, q.1.Sound base.toScope) → ∀ m,
    base.Grows m → Applies m p.items 0 p.several (base.memory.amount p.additions)
  | .element e, h, m, hm => by
    have happlies := Element.applies hbase (h _ (List.mem_singleton_self _)) hm
    rwa [Part.additions, Memory.amount, List.flatMap_singleton]
  | .bracketed r, h, m, hm => by
    obtain ⟨v, m', hm', hsettles, hvalues⟩ := exists_settles_of_applies h (r.applies h m hm)
    exact applies_of_evaluated (t := .group r.items) (u := .group v) trivial (Nat.le_refl 0)
      ((Run.settles_iff.1 hsettles).mono fun n hn => Run.bind_of_ok hn) hm' (fun _ _ => rfl)
      hvalues

/-- By induction on the brackets. -/
theorem applies : ∀ r : Enumeration, (∀ q ∈ r.additions, q.1.Sound base.toScope) → ∀ m,
    base.Grows m → Applies m r.items stage r.several (base.memory.amount r.additions)
  | part p, h, m, hm => by
    obtain ⟨row, m', hm', hready, happlied⟩ := p.applies h m hm
    exact ⟨row, m', hm', hready.mono (Nat.zero_le _), happlied⟩
  | comma r p, h, m, hm => by
    rw [additions, List.forall_mem_append] at h
    have hp : ∀ q ∈ p.additions, q.1.Sound base.toScope := by
      intro q hq
      have hadded := h.2
      split at hadded
      · exact hadded (Prod.map id Nat.succ q) (List.mem_map_of_mem hq)
      · exact hadded q hq
    rw [items, several, additions, Memory.amount_append]
    refine (r.applies h.1 m hm).comma (fun m' hm' => p.applies hp m' (hm.trans hm'))
      fun m' hm' => ?_
    split
    · rw [Memory.amount_map_succ]
      exact flattenAll_amount hbase hp (hm.trans hm')
    · rfl

end

end

/-- The value of a list with brackets in it. -/
theorem exists_settles {m : Machine} (hm : m.memory.SelfContained) {r : Enumeration}
    (hr : r.several = true) (h : ∀ q ∈ r.additions, q.1.Sound m.toScope) :
    ∃ m', m.Grows m' ∧
      Run.Settles (evaluate · r.items) m (.ok (.list (m.memory.amount r.additions)) m') := by
  obtain ⟨v, m', hm', hsettles, hv⟩ := exists_settles_of_applies h (r.applies hm h m (.refl m))
  rw [hr] at hv
  obtain rfl := hv
  exact ⟨m', hm', hsettles⟩

end Enumeration

end Linewise
