import Linewise.Proofs.Coupling
import Mathlib.Data.List.TakeDrop
import Mathlib.Data.List.TakeWhile

/-!
# Parts

What a group is evaluated by, whatever the values are on the way: the symbols
that may be looked up, the groups that may be evaluated, the group that may
become the body of a function, and whether a block may be captured
(`Statement.parts`). A part need not be used in every evaluation, but nothing
else is. Whether `let` assigns to a variable or defines a function can be told
from its head alone (`Assignment.hasParameters`).
-/

namespace Linewise

/-- What a group is evaluated by. -/
inductive Part where
  | symbol (s : String)
  | group (g : Group)
  /-- The body of a function that is defined. -/
  | line (g : Group)
  /-- A block is captured. -/
  | block

namespace Part

def isBlock : Part → Bool
  | block => true
  | _ => false

/-- The parts of an item in an expression. -/
def ofItem : Item → List Part
  | .symbol s => [symbol s]
  | .text _ => []
  | .group g => [group g]

/-- The parts of a group that may be missing. -/
def optional (g : Group) : List Part :=
  if g.isEmpty then [] else [group g]

/-- The parts of the branches of an `if`. -/
def branches (body : Group) : List Part :=
  if body.isEmpty then [block]
  else
    match body.span fun item => !item.isElse with
    | (first, []) => [group first]
    | (first, [_]) => block :: optional first
    | (first, _ :: second) => optional first ++ optional second

/-- The parts of the body of a `while`. -/
def repeated (body : Group) : List Part :=
  if body.isEmpty then [block] else [group body]

/-- The parts of the body of a function. -/
def defined (body : Group) : List Part :=
  if body.isEmpty then [block] else [line body]

end Part

namespace Assignment

/-- The item is `@` or `~`. -/
def isReference (item : Item) : Bool :=
  (Reference.ofTerm? (headTerm item)).isSome

/-- What follows the target in a head. -/
def afterTarget (head : Group) : Group :=
  (head.dropWhile isReference).tail

/-- A group follows the target in a head, the parameters of a function. -/
def hasParameters (head : Group) : Bool :=
  match afterTarget head with
  | .group _ :: _ => true
  | _ => false

/-- The parts of what follows `let`. -/
def parts (g : Group) : List Part :=
  match g.span fun item => !item.isSymbol "=" with
  | (_, []) => []
  | (head, _ :: body) =>
    head.flatMap Part.ofItem ++
      if hasParameters head then Part.defined body else Part.optional body

end Assignment

namespace Statement

/-- The parts of a group. -/
def parts (g : Group) : List Part :=
  match g, g.keyword? with
  | [], _ => []
  | g, none => g.flatMap Part.ofItem
  | _ :: g, some .directive => Part.optional g.tail
  | _ :: g, some .assignment => Assignment.parts g
  | _ :: g, some .conditional =>
    match conditionAndBody .conditional g with
    | .ok (test, body) => .group test :: Part.branches body
    | .error _ => []
  | _ :: g, some .repetition =>
    match conditionAndBody .repetition g with
    | .ok (test, body) => .group test :: Part.repeated body
    | .error _ => []
  | _ :: g, some .opening => if g.isEmpty then [.block] else []
  | _, some _ => []

theorem mem_parts_of_assignment {g : Group} (hk : g.keyword? = some .assignment) {p : Part}
    (hp : p ∈ Assignment.parts g.tail) : p ∈ parts g := by
  cases g with
  | nil => cases hk
  | cons item g =>
    simp only [parts, hk]
    exact hp

end Statement

/-! ## What parts are made of -/

namespace Part

/-- The part is an item of the group, is in brackets there, or is made of some of
    its items. -/
def Within (g : Group) : Part → Prop
  | symbol s => .symbol s ∈ g
  | group g' | line g' => .group g' ∈ g ∨ g'.Sublist g
  | block => True

variable {g g' : Group} {p : Part}

theorem Within.mono (h : p.Within g) (hsub : g.Sublist g') : p.Within g' := by
  cases p with
  | symbol s => exact hsub.mem h
  | group g₁ => exact h.imp (fun hmem => hsub.mem hmem) fun hg => hg.trans hsub
  | line g₁ => exact h.imp (fun hmem => hsub.mem hmem) fun hg => hg.trans hsub
  | block => trivial

theorem within_of_items (hp : p ∈ g.flatMap ofItem) : p.Within g := by
  obtain ⟨item, hitem, hp⟩ := List.mem_flatMap.1 hp
  cases item with
  | symbol s => exact List.mem_singleton.1 hp ▸ hitem
  | text s => exact absurd hp List.not_mem_nil
  | group g' => exact List.mem_singleton.1 hp ▸ .inl hitem

theorem eq_group_of_optional (hp : p ∈ optional g) : p = .group g := by
  rw [optional] at hp
  split at hp
  · exact absurd hp List.not_mem_nil
  · exact List.mem_singleton.1 hp

theorem within_of_optional (hp : p ∈ optional g) : p.Within g :=
  eq_group_of_optional hp ▸ .inr (List.Sublist.refl g)

theorem within_of_repeated (hp : p ∈ repeated g) : p.Within g := by
  rw [repeated] at hp
  split at hp
  · exact List.mem_singleton.1 hp ▸ trivial
  · exact List.mem_singleton.1 hp ▸ .inr (List.Sublist.refl g)

theorem within_of_defined (hp : p ∈ defined g) : p.Within g := by
  rw [defined] at hp
  split at hp
  · exact List.mem_singleton.1 hp ▸ trivial
  · exact List.mem_singleton.1 hp ▸ .inr (List.Sublist.refl g)

/-- Where a list is cut, both pieces are made of it. -/
theorem sublist_of_span {first second : Group} {f : Item → Bool}
    (h : g.span f = (first, second)) : first.Sublist g ∧ second.Sublist g := by
  rw [List.span_eq_takeWhile_dropWhile] at h
  cases h
  exact ⟨List.takeWhile_sublist f, List.dropWhile_sublist f⟩

/-- A list is cut before the first item that is not passed over. -/
theorem span_append_cons {first second : Group} {other : Item} {f : Item → Bool}
    (hfirst : ∀ item ∈ first, f item = true) (hother : f other = false) :
    (first ++ other :: second).span f = (first, other :: second) := by
  rw [List.span_eq_takeWhile_dropWhile, List.takeWhile_append_of_pos hfirst,
    List.dropWhile_append_of_pos hfirst, List.takeWhile_cons_of_neg (Bool.eq_false_iff.1 hother),
    List.dropWhile_cons_of_neg (Bool.eq_false_iff.1 hother), List.append_nil]

theorem within_of_branches (hp : p ∈ branches g) : p.Within g := by
  rw [branches] at hp
  split at hp
  · exact List.mem_singleton.1 hp ▸ trivial
  · cases hspan : g.span fun item => !item.isElse with
    | mk first second =>
      obtain ⟨hfirst, hsecond⟩ := sublist_of_span hspan
      rw [hspan] at hp
      rcases second with _ | ⟨item, _ | ⟨next, second⟩⟩
      · exact List.mem_singleton.1 hp ▸ .inr hfirst
      · rcases List.mem_cons.1 hp with rfl | hp
        · trivial
        · exact (within_of_optional hp).mono hfirst
      · rcases List.mem_append.1 hp with hp | hp
        · exact (within_of_optional hp).mono hfirst
        · refine (within_of_optional hp).mono ?_
          exact (List.sublist_cons_self item _).trans hsecond

end Part

theorem Statement.sublist_of_conditionAndBody {k : Keyword} {g test body : Group}
    (h : conditionAndBody k g = .ok (test, body)) : test.Sublist g ∧ body.Sublist g := by
  rw [conditionAndBody, splitAtComma] at h
  split at h
  · cases h
  · cases hspan : g.span fun item => !item.isSymbol "," with
    | mk first rest =>
      rw [hspan] at h
      obtain ⟨hfirst, hrest⟩ := Part.sublist_of_span hspan
      rcases rest with _ | ⟨comma, rest⟩
      · cases h
      · cases h
        exact ⟨hfirst, (List.sublist_cons_self comma _).trans hrest⟩

theorem Assignment.within_of_parts {g : Group} {p : Part} (hp : p ∈ parts g) : p.Within g := by
  rw [parts] at hp
  cases hspan : g.span fun item => !item.isSymbol "=" with
  | mk head rest =>
    rw [hspan] at hp
    obtain ⟨hhead, hrest⟩ := Part.sublist_of_span hspan
    rcases rest with _ | ⟨eq, body⟩
    · exact absurd hp List.not_mem_nil
    · have hbody : body.Sublist g := (List.sublist_cons_self eq _).trans hrest
      rcases List.mem_append.1 hp with hp | hp
      · exact (Part.within_of_items hp).mono hhead
      · split at hp
        · exact (Part.within_of_defined hp).mono hbody
        · exact (Part.within_of_optional hp).mono hbody

theorem Group.sizeOf_le_of_sublist {g g' : Group} (h : g.Sublist g') : sizeOf g ≤ sizeOf g' := by
  induction h with
  | slnil => exact Nat.le_refl _
  | cons item _ ih => exact Nat.le_trans ih (by simp)
  | cons_cons item _ ih => simpa using ih

namespace Statement

variable {g : Group} {p : Part}

/-- The parts of a statement that starts with a keyword are made of what follows
    it. -/
theorem within_tail_of_parts (hk : g.keyword? ≠ none) (hp : p ∈ parts g) : p.Within g.tail := by
  cases g with
  | nil => exact absurd hp List.not_mem_nil
  | cons item g =>
    obtain ⟨k, hk⟩ := Option.ne_none_iff_exists'.1 hk
    simp only [parts, hk] at hp
    cases k with
    | directive => exact (Part.within_of_optional hp).mono (List.tail_sublist g)
    | assignment => exact Assignment.within_of_parts hp
    | conditional =>
      cases h : conditionAndBody .conditional g with
      | error e => simp [h] at hp
      | ok parts =>
        obtain ⟨htest, hbody⟩ := sublist_of_conditionAndBody h
        simp only [h] at hp
        rcases List.mem_cons.1 hp with rfl | hp
        · exact .inr htest
        · exact (Part.within_of_branches hp).mono hbody
    | repetition =>
      cases h : conditionAndBody .repetition g with
      | error e => simp [h] at hp
      | ok parts =>
        obtain ⟨htest, hbody⟩ := sublist_of_conditionAndBody h
        simp only [h] at hp
        rcases List.mem_cons.1 hp with rfl | hp
        · exact .inr htest
        · exact (Part.within_of_repeated hp).mono hbody
    | opening =>
      dsimp only at hp
      split at hp
      · exact List.mem_singleton.1 hp ▸ trivial
      · exact absurd hp List.not_mem_nil
    | _ => exact absurd hp List.not_mem_nil

theorem mem_items_of_parts (hk : g.keyword? = none) (hp : p ∈ parts g) :
    p ∈ g.flatMap Part.ofItem := by
  cases g with
  | nil => exact hp
  | cons item g =>
    simp only [parts, hk] at hp
    exact hp

/-- The parts of a group are made of it. -/
theorem within_of_parts (hp : p ∈ parts g) : p.Within g := by
  by_cases hk : g.keyword? = none
  · exact Part.within_of_items (mem_items_of_parts hk hp)
  · exact (within_tail_of_parts hk hp).mono (List.tail_sublist g)

/-- A group that is a part is smaller. -/
theorem sizeOf_lt_of_parts {g' : Group} (hp : .group g' ∈ parts g) : sizeOf g' < sizeOf g := by
  have hmem : ∀ {g : Group}, .group g' ∈ g → sizeOf g' < sizeOf g := fun h =>
    Nat.lt_trans (by simp) (List.sizeOf_lt_of_mem h)
  by_cases hk : g.keyword? = none
  · obtain ⟨item, hitem, hp⟩ := List.mem_flatMap.1 (mem_items_of_parts hk hp)
    cases item with
    | group g₁ =>
      cases List.mem_singleton.1 hp
      exact hmem hitem
    | _ => simp [Part.ofItem] at hp
  · cases g with
    | nil => exact absurd rfl hk
    | cons item g =>
      have htail : sizeOf g < sizeOf (item :: g) := by
        rw [List.cons.sizeOf_spec]
        omega
      rcases within_tail_of_parts hk hp with hp | hp
      · exact Nat.lt_trans (hmem hp) htail
      · exact Nat.lt_of_le_of_lt (Group.sizeOf_le_of_sublist hp) htail

end Statement

/-! ## The head of an assignment -/

namespace Reference

variable {γ : Type} {resolve : Term γ → Run Value} {row row' : List (Term γ)} {m m' : Machine}

/-- A row without `@` and `~` stays as it is. -/
theorem reduce_of_plain (h : ∀ t ∈ row, ofTerm? t = none) : reduce resolve row = pure row := by
  induction row with
  | nil => rfl
  | cons t row ih =>
    rw [List.forall_mem_cons] at h
    rw [reduce, ih h.2, pure_bind, h.1]

/-- Nothing comes of `@` and `~` that have no term after them. -/
theorem eq_nil_of_reduce_marks (hmarks : ∀ t ∈ row, (ofTerm? t).isSome = true)
    (h : reduce resolve row m = .ok row' m') : row = [] ∧ row' = [] := by
  induction row generalizing row' m' with
  | nil =>
    cases h
    exact ⟨rfl, rfl⟩
  | cons t row ih =>
    rw [List.forall_mem_cons] at hmarks
    obtain ⟨row₁, m₁, h₁, h⟩ := Run.bind_eq_ok.1 h
    obtain ⟨r, hr⟩ := Option.isSome_iff_exists.1 hmarks.1
    rw [hr, (ih hmarks.2 h₁).2] at h
    cases h

/-- Only a term that stays as it is comes first as a group. -/
theorem reduce_head (h : reduce resolve row m = .ok row' m') :
    (row' = [] → row = []) ∧
      ∀ g rest, row' = .group g :: rest → ∃ rest, row = .group g :: rest := by
  cases row with
  | nil =>
    cases h
    exact ⟨fun _ => rfl, nofun⟩
  | cons t row =>
    obtain ⟨row₁, m₁, -, h⟩ := Run.bind_eq_ok.1 h
    cases ht : ofTerm? t with
    | none =>
      rw [ht] at h
      cases h
      refine ⟨nofun, fun g rest hg => ?_⟩
      cases hg
      exact ⟨row, rfl⟩
    | some r =>
      rw [ht] at h
      cases row₁ with
      | nil => cases h
      | cons x row₁ =>
        obtain ⟨v, m₂, -, h⟩ := Run.bind_eq_ok.1 h
        obtain ⟨w, m₃, -, h⟩ := Run.bind_eq_ok.1 h
        cases h
        exact ⟨nofun, nofun⟩

/-- `@` and `~` at the start of a row only concern the first term after them. -/
theorem reduce_tail (h : reduce resolve row m = .ok row' m') :
    ∃ m₁, reduce resolve (row.dropWhile fun t => (ofTerm? t).isSome).tail m =
      .ok row'.tail m₁ := by
  -- A row is reduced from right to left, so what follows the first term that is
  -- no reference has been reduced before anything is made of that term.
  induction row generalizing row' m' with
  | nil =>
    cases h
    exact ⟨m, rfl⟩
  | cons t row ih =>
    obtain ⟨row₁, m₁, h₁, h⟩ := Run.bind_eq_ok.1 h
    cases ht : ofTerm? t with
    | none =>
      rw [List.dropWhile_cons_of_neg (by simp [ht])]
      rw [ht] at h
      cases h
      exact ⟨m', h₁⟩
    | some r =>
      rw [List.dropWhile_cons_of_pos (by simp [ht])]
      rw [ht] at h
      cases row₁ with
      | nil => cases h
      | cons x row₁ =>
        obtain ⟨v, m₂, -, h⟩ := Run.bind_eq_ok.1 h
        obtain ⟨w, m₃, -, h⟩ := Run.bind_eq_ok.1 h
        cases h
        obtain ⟨m₄, h₄⟩ := ih h₁
        exact ⟨m₄, h₄⟩

end Reference

namespace Assignment

variable {resolve : Term Group → Run Value} {head : Group} {t : Term Group}
  {rest : List (Term Group)} {m m' : Machine}

theorem reduce_afterTarget
    (h : Reference.reduce resolve (head.map headTerm) m = .ok (t :: rest) m') :
    ∃ m₁, Reference.reduce resolve ((afterTarget head).map headTerm) m = .ok rest m₁ := by
  obtain ⟨m₁, h₁⟩ := Reference.reduce_tail h
  rw [List.dropWhile_map, ← List.map_tail] at h₁
  exact ⟨m₁, h₁⟩

/-- There is a target in a head that is reduced to one. -/
theorem exists_target (h : Reference.reduce resolve (head.map headTerm) m = .ok (t :: rest) m') :
    ∃ target, head.dropWhile isReference = target :: afterTarget head := by
  cases hhead : head.dropWhile isReference with
  | cons target tail => exact ⟨target, by rw [afterTarget, hhead, List.tail_cons]⟩
  | nil =>
    have hmarks : ∀ t ∈ head.map headTerm, (Reference.ofTerm? t).isSome = true := by
      rw [List.forall_mem_map]
      exact List.dropWhile_eq_nil_iff.1 hhead
    exact nomatch (Reference.eq_nil_of_reduce_marks hmarks h).2

/-- Nothing is left after a target that nothing follows. -/
theorem afterTarget_eq_nil
    (h : Reference.reduce resolve (head.map headTerm) m = .ok [t] m') : afterTarget head = [] := by
  obtain ⟨m₁, h₁⟩ := reduce_afterTarget h
  exact List.map_eq_nil_iff.1 ((Reference.reduce_head h₁).1 rfl)

/-- A group that is left after a target follows it, and nothing follows that if it is the last. -/
theorem afterTarget_eq_group {g : Group}
    (h : Reference.reduce resolve (head.map headTerm) m = .ok (t :: .group g :: rest) m') :
    ∃ more, afterTarget head = .group g :: more ∧ (rest = [] → more = []) := by
  obtain ⟨m₁, h₁⟩ := reduce_afterTarget h
  obtain ⟨row, hrow⟩ := (Reference.reduce_head h₁).2 g rest rfl
  obtain ⟨item, more, hmore, hitem, hmap⟩ := List.map_eq_cons_iff.1 hrow
  cases item <;> cases hitem
  refine ⟨more, hmore, fun hrest => ?_⟩
  rw [hrow] at h₁
  obtain ⟨row₁, m₂, h₂, h₁⟩ := Run.bind_eq_ok.1 h₁
  cases h₁
  rw [(Reference.reduce_head h₂).1 hrest] at hmap
  exact List.map_eq_nil_iff.1 hmap

/-- Without anything after the target, a variable is assigned. -/
theorem hasParameters_of_nil
    (h : Reference.reduce resolve (head.map headTerm) m = .ok [t] m') :
    hasParameters head = false := by
  rw [hasParameters, afterTarget_eq_nil h]

/-- With a group after the target, a function is defined. -/
theorem hasParameters_of_group {g : Group}
    (h : Reference.reduce resolve (head.map headTerm) m = .ok (t :: .group g :: rest) m') :
    hasParameters head = true := by
  obtain ⟨more, hmore, -⟩ := afterTarget_eq_group h
  rw [hasParameters, hmore]

end Assignment

end Linewise
