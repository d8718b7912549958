import Linewise.Proofs.Ending
import Linewise.Proofs.Nesting
import Linewise.Proofs.Readless
import Mathlib.Data.ENat.Basic

/-!
# Programs without loops

A program that never mentions `while`, `read` and `@` repeats nothing except by calls,
evaluates nothing but its own text, and makes no references. So no variable ever
holds another one (`Value.Free`), and while a block runs, the statements left of it
only get fewer (`Machine.left`).

* `Group.Loopless`, `Statement.Loopless`, `Source.Loopless`: none of the three is
  mentioned;
* `Value.Flat`: what an expression comes to;
* `Machine.Loopless`: all that a machine holds is like that.
-/

namespace Linewise

/-! ## Text -/

/-- The symbol is none of `while`, `read` and `@`. -/
def Symbol.Loopless (s : String) : Prop :=
  s ∉ ["while", "read", "@"]

mutual

/-- The symbols in an item, at any depth. -/
def Item.symbols : Item → List String
  | .symbol s => [s]
  | .text _ => []
  | .group items => Item.allSymbols items

def Item.allSymbols : List Item → List String
  | [] => []
  | item :: items => item.symbols ++ Item.allSymbols items

end

theorem Item.allSymbols_eq (items : List Item) : allSymbols items = items.flatMap symbols := by
  induction items with
  | nil => rfl
  | cons item items ih => rw [allSymbols, ih, List.flatMap_cons]

/-- No symbol in the group is one of the three, at any depth. -/
def Group.Loopless (g : Group) : Prop :=
  ∀ s ∈ Item.allSymbols g, Symbol.Loopless s

/-- The statement on a line, if it is one, mentions none of the three. -/
def Statement.Loopless (line : String) : Prop :=
  ∀ g, Group.ofLine (Text.trim line) = .ok g → g.Loopless

def Block.Loopless (b : Block) : Prop :=
  ∀ line ∈ b.statements, Statement.Loopless line

def Body.Loopless : Body → Prop
  | .native _ => True
  | .line g => g.Loopless
  | .block b => b.Loopless

def Source.Loopless : Source → Prop
  | .script lines => ∀ line, .ok line ∈ lines → Statement.Loopless line
  | .directory => True

/-- So is every file that can be opened. -/
def Files.Loopless (files : Files) : Prop :=
  ∀ path source, files path = .ok source → source.Loopless

instance (s : String) : Decidable (Symbol.Loopless s) :=
  inferInstanceAs <| Decidable (s ∉ ["while", "read", "@"])

instance (g : Group) : Decidable g.Loopless :=
  inferInstanceAs <| Decidable (∀ s ∈ Item.allSymbols g, Symbol.Loopless s)

instance (line : String) : Decidable (Statement.Loopless line) :=
  match h : Group.ofLine (Text.trim line) with
  | .error _ => .isTrue fun _ h' => nomatch h.symm.trans h'
  | .ok g =>
    decidable_of_iff g.Loopless
      ⟨fun hg _ h' => Except.ok.inj (h.symm.trans h') ▸ hg, fun hline => hline g h⟩

namespace Group.Loopless

variable {g g' : Group} (h : g.Loopless)

include h

theorem item {item : Item} (hitem : item ∈ g) : ∀ s ∈ item.symbols, Symbol.Loopless s := by
  intro s hs
  refine h s ?_
  rw [Item.allSymbols_eq]
  exact List.mem_flatMap.2 ⟨item, hitem, hs⟩

theorem symbol {s : String} (hs : .symbol s ∈ g) : Symbol.Loopless s :=
  h.item hs s List.mem_cons_self

theorem group (hg : .group g' ∈ g) : Loopless g' :=
  h.item hg

theorem subset (hsub : g' ⊆ g) : Loopless g' := by
  intro s hs
  rw [Item.allSymbols_eq] at hs
  obtain ⟨item, hitem, hs⟩ := List.mem_flatMap.1 hs
  exact h.item (hsub hitem) s hs

theorem within (hg : .group g' ∈ g ∨ g'.Sublist g) : Loopless g' :=
  hg.elim h.group fun hsub => h.subset hsub.subset

theorem keyword_ne_repetition : g.keyword? ≠ some .repetition := by
  intro hk
  obtain ⟨item, hitem, hk⟩ := Option.bind_eq_some_iff.1 hk
  obtain ⟨s, hs, hk⟩ := Option.bind_eq_some_iff.1 hk
  cases item with
  | symbol s' =>
    cases hs
    have hloopless := h.symbol (List.mem_of_mem_head? hitem)
    rw [← Keyword.ofSymbol?_eq_some_iff.1 hk] at hloopless
    exact hloopless (by decide)
  | _ => cases hs

end Group.Loopless

namespace Statement

variable {line : String}

theorem loopless_trim (h : Loopless line) : Loopless (Text.trim line) := by
  intro g hg
  rw [Text.trim_trim] at hg
  exact h g hg

/-- What a block captures of lines without loops has none either. -/
theorem lasting_loopless : Capture.Lasting Loopless where
  trim := loopless_trim
  alternative := by decide
  afterKeyword {line keyword g} h hg hk := by
    intro g' hg'
    rw [Capture.afterKeyword, Text.trim_trim] at hg'
    cases (Capture.ofLine_afterKeyword hg hk).symm.trans hg'
    exact (h g hg).subset (List.tail_sublist g).subset

end Statement

theorem Block.Loopless.branch {b : Block} (h : b.Loopless) {first : Bool}
    {statements : List String} (hs : b.branch first = .ok statements) :
    ∀ line ∈ statements, Statement.Loopless line :=
  fun line hline => h line ((Block.sublist_of_branch hs).mem hline)

theorem Source.Loopless.next {source : Source} (h : source.Loopless) :
    source.next.2.Loopless := by
  rcases source with (_ | ⟨l, lines⟩) | _
  · exact h
  · exact fun line hline => h line (List.mem_cons_of_mem l hline)
  · trivial

/-! ## Values -/

namespace Value

/-- The value refers to no variable, and not to `read`. -/
abbrev Free (v : Value) : Prop :=
  v.Within (fun _ => False) (· ≠ Registry.builtinRef .read)

/-- The value is a variable, or refers to none. -/
def Flat : Value → Prop
  | .var _ => True
  | v => v.Free

variable {v w : Value}

theorem Free.flat (h : v.Free) : v.Flat := by
  cases v with
  | var r => trivial
  | _ => exact h

theorem Free.of_mem_flattenWith (h : v.Free) {contents : VarRef → List Value}
    (hw : w ∈ v.flattenWith contents) : w.Free :=
  flattenWith_within (fun _ hr => hr.elim) h w hw

end Value

/-- No text in memory mentions one of the three, and what variables hold is free. -/
abbrev Memory.Loopless (m : Memory) : Prop :=
  m.Holding Value.Free Body.Loopless Block.Loopless

namespace Memory.Loopless

variable {m : Memory} (h : m.Loopless) {v : Value}

include h

theorem held (hv : v.Flat) : (m.held v).Free := by
  cases v with
  | var r => exact h.read r
  | _ => exact hv

theorem contents (n : Nat) (r : VarRef) : ∀ w ∈ m.contents n r, w.Free := by
  cases n with
  | zero => exact List.forall_mem_nil _
  | succ n =>
    have hread := h.read r
    rw [Memory.contents]
    cases hvalue : m.read r with
    | list values =>
      rw [hvalue] at hread
      exact fun w hw => Value.Free.of_mem_flattenWith hread hw
    | _ => exact List.forall_mem_singleton.2 (hvalue ▸ hread)

theorem flatten (hv : v.Flat) : ∀ w ∈ m.flatten v, w.Free := by
  cases v with
  | var r => exact h.contents m.vars.size r
  | _ => exact fun w hw => Value.Free.of_mem_flattenWith hv hw

theorem arguments (hv : v.Flat) : ∀ w ∈ m.arguments v, w.Free := by
  unfold Memory.arguments
  split
  · exact Value.within_list.1 hv
  · exact h.flatten hv

/-- Only the comma gives values that refer to anything, and it takes variables for what
    they hold. -/
theorem keeps_flat : Operation.Keeps m Value.Flat where
  nil := trivial
  modulus _ hv := Value.Free.flat (Operation.modulus_simple hv).within
  negate _ hv := Value.Free.flat (Operation.negate_simple hv).within
  apply {op a b v} ha hb hv := by
    by_cases hop : op = .enumerate
    · subst hop
      obtain rfl := Except.ok.inj hv
      refine Value.within_list.2 fun w hw => ?_
      exact (List.mem_append.1 hw).elim (h.arguments ha w) (h.flatten hb w)
    · exact Value.Free.flat (Operation.apply_simple_of_ne hop hv).within

theorem ne_read_of_find? {symbol : String} (hs : Symbol.Loopless symbol) {f : FunctionRef}
    (hf : m.registry.find? symbol = some f) : f ≠ Registry.builtinRef .read := by
  refine h.intact.find?_ne_builtinRef (fun hread => hs ?_) hf
  rw [hread]
  decide

/-- What a value calls is not `read`. -/
theorem ne_read_of_callable? (hv : v.Flat) {f : FunctionRef}
    (hc : m.callable? v = some (.function f)) : f ≠ Registry.builtinRef .read := by
  have hheld := h.held hv
  rwa [Memory.held_of_callable? hc] at hheld

theorem not_holds (a b : VarRef) : ¬m.Holds a b :=
  fun hab => hab.of_within (h.read a)

/-- As no variable refers to another one, no bound is reached. -/
theorem unbounded : m.Unbounded := by
  refine Memory.Acyclic.unbounded (fun r hr => ?_) fun r => ?_
  · obtain ⟨s, hs, -⟩ := Relation.TransGen.head'_iff.1 hr
    exact h.not_holds r s hs
  · exact (h.read r).imp (fun _ hr => hr.elim) fun _ _ => trivial

end Memory.Loopless

theorem Scope.flat_of_find? {s : Scope} (h : s.memory.Loopless) {symbol : String}
    (hs : Symbol.Loopless symbol) {v : Value} (hv : s.find? symbol = some v) : v.Flat := by
  simp only [find?, Option.or_eq_some_iff, Option.map_eq_some_iff] at hv
  rcases hv with hv | ⟨-, ⟨n, -, rfl⟩ | ⟨-, ⟨f, hf, rfl⟩ | ⟨-, r, -, rfl⟩⟩⟩
  · unfold constant? at hv
    split at hv <;> cases hv <;> trivial
  · trivial
  · exact h.ne_read_of_find? hs hf
  · trivial

/-! ## Machines -/

/-- All text that a machine holds or can open is without loops, what its variables hold
    is free, and calls are not nested too deep. -/
structure Machine.Loopless (m : Machine) : Prop where
  memory : m.memory.Loopless
  cursors : ∀ statements ∈ m.cursors, ∀ line ∈ statements, Statement.Loopless line
  source : m.source.Loopless
  suspended : ∀ source ∈ m.suspended, source.Loopless
  files : m.files.Loopless
  depth : m.depth ≤ maxDepth

namespace Machine

/-- The number of statements left of the innermost running block. There is no end to
    the statements if no block is running. -/
def left (m : Machine) : ℕ∞ :=
  match m.cursors with
  | [] => ⊤
  | statements :: _ => statements.length

/-- An evaluation comes back to the depth where it started, and only takes the next
    statements of the innermost running block. -/
structure Kept (m m' : Machine) : Prop where
  depth : m'.depth = m.depth
  cursors : Advanced m.cursors m'.cursors

variable {m m₁ m₂ : Machine}

theorem Kept.refl (m : Machine) : m.Kept m :=
  ⟨rfl, .refl _⟩

theorem Kept.trans (h : m.Kept m₁) (h' : m₁.Kept m₂) : m.Kept m₂ :=
  ⟨h'.depth.trans h.depth, h.cursors.trans h'.cursors⟩

theorem Kept.left_le (h : m.Kept m₁) : m₁.left ≤ m.left := by
  obtain ⟨-, hcursors⟩ := h
  rw [left, left]
  generalize m.cursors = c at hcursors
  generalize m₁.cursors = c₁ at hcursors
  cases hcursors with
  | none => exact le_refl _
  | some hrest => exact Nat.cast_le.2 hrest.length_le

namespace Loopless

variable (h : m.Loopless)

include h

/-- What is not in scope stays as it is. -/
theorem of_scope {memory : Memory} {frames : Frames} (hmemory : memory.Loopless) :
    Loopless { m with memory, frames } :=
  { h with memory := hmemory }

theorem enterFrame {bindings : List (String × Value)} (hb : ∀ b ∈ bindings, b.2.Free) :
    (m.enterFrame bindings).Loopless := by
  refine enterFrame_induction (h.of_scope h.memory) ?_
  intro m hm b hmem
  exact hm.of_scope (hm.memory.addVariable (v := ⟨b.1, b.2⟩) (hb b hmem))

theorem leaveFrame (level : Nat) : (m.leaveFrame level).Loopless := by
  obtain ⟨frames, hframes⟩ := m.leaveFrame_eq level
  rw [hframes]
  exact h.of_scope h.memory

end Loopless

end Machine

end Linewise
