import Linewise.Interpreter
import Linewise.Proofs.Store

/-!
# Chains of references

A variable that holds another variable is linked to it, and a chain of references
follows these links to the first value that is no variable. Unlike the cycles that
go through lists (`Linewise.Proofs.Cycle`), those of links alone never come about: the
check of an assignment follows the chain from the value on, and refuses the assignment
just if the chain meets the variable that is assigned to, or is longer than can be
checked (`checkReference_eq_ok_iff`). New variables need no check, as nothing is linked
to them yet.

So no variable is ever linked to itself, however many others are in between
(`let_refuses_loops`).
-/

namespace Linewise

open Relation

namespace Memory

/-- The variable `a` holds the variable `b`. -/
def Links (m : Memory) (a b : VarRef) : Prop :=
  m.read a = .var b

instance (m : Memory) (a b : VarRef) : Decidable (m.Links a b) :=
  match h : m.read a with
  | .var s => decidable_of_iff (s = b) (by rw [Links, h, Value.var.injEq])
  | .number _ | .boolean _ | .string _ | .nil | .loopExit | .list _ | .parameters _ | .function _
  | .block _ => .isFalse fun hlinks => nomatch h.symm.trans hlinks

/-- Links never lead from a variable back to it. -/
def Unlooped (m : Memory) : Prop :=
  ∀ r, ¬TransGen m.Links r r

/-- The chain of references from a value on: the variables on it up to its end, a
    value that is no variable. -/
inductive Chain (m : Memory) : Value → List VarRef → Prop
  | done {v : Value} : (∀ r, v ≠ .var r) → Chain m v []
  | link {r : VarRef} {chain : List VarRef} :
      Chain m (m.read r) chain → Chain m (.var r) (r :: chain)

variable {m : Memory} {r s target : VarRef} {v : Value} {n : Nat}

theorem chain_var_iff {chain : List VarRef} :
    m.Chain (.var r) chain ↔ ∃ rest, chain = r :: rest ∧ m.Chain (m.read r) rest := by
  constructor
  · rintro (h | h)
    · exact absurd rfl (h r)
    · exact ⟨_, rfl, h⟩
  · rintro ⟨rest, rfl, h⟩
    exact .link h

/-! ## The check -/

/-- A value may be given to a variable that its chain does not meet. -/
def Accepts (m : Memory) (target : VarRef) (v : Value) : Prop :=
  ∃ chain, m.Chain v chain ∧ chain.length ≤ maxChain ∧ target ∉ chain

theorem checkChain_eq_ok_iff :
    m.checkChain target n r = .ok () ↔
      ∃ chain, m.Chain (.var r) chain ∧ chain.length ≤ n ∧ target ∉ chain := by
  -- By induction on the bound, which goes down with each variable on the chain.
  induction n generalizing r with
  | zero =>
    constructor
    · intro h
      cases h
    · rintro ⟨chain, hchain, hlength, -⟩
      obtain ⟨rest, rfl, -⟩ := chain_var_iff.1 hchain
      exact absurd hlength (Nat.not_succ_le_zero _)
  | succ n ih =>
    rw [checkChain]
    by_cases htarget : r = target
    · rw [if_pos htarget]
      constructor
      · intro h
        cases h
      · rintro ⟨chain, hchain, -, hmem⟩
        obtain ⟨rest, rfl, -⟩ := chain_var_iff.1 hchain
        exact absurd (htarget ▸ List.mem_cons_self) hmem
    · rw [if_neg htarget]
      -- The rest of the chain is that of what `r` holds.
      have hcons : (∃ chain, m.Chain (.var r) chain ∧ chain.length ≤ n + 1 ∧ target ∉ chain) ↔
          ∃ rest, m.Chain (m.read r) rest ∧ rest.length ≤ n ∧ target ∉ rest := by
        constructor
        · rintro ⟨chain, hchain, hlength, hmem⟩
          obtain ⟨rest, rfl, hrest⟩ := chain_var_iff.1 hchain
          exact ⟨rest, hrest, Nat.le_of_succ_le_succ hlength,
            fun h => hmem (List.mem_cons_of_mem r h)⟩
        · rintro ⟨rest, hrest, hlength, hmem⟩
          refine ⟨r :: rest, .link hrest, Nat.succ_le_succ hlength, fun h => ?_⟩
          exact (List.mem_cons.1 h).elim (fun heq => htarget heq.symm) hmem
      rw [hcons]
      split
      · rename_i s hread
        rw [hread, ih]
      · rename_i hread
        refine ⟨fun _ => ⟨[], .done hread, Nat.zero_le n, List.not_mem_nil⟩, fun _ => rfl⟩

/-- An assignment is refused unless the chain of its value ends in time without meeting
    the variable. -/
theorem checkReference_eq_ok_iff : m.checkReference target v = .ok () ↔ m.Accepts target v := by
  unfold checkReference Accepts
  split
  · rename_i r
    split
    · -- The check of the chain would fail at its first variable.
      rename_i htarget
      rw [← checkChain_eq_ok_iff, maxChain, checkChain, if_pos htarget]
      constructor <;> intro h <;> cases h
    · exact checkChain_eq_ok_iff
  · rename_i hv
    exact ⟨fun _ => ⟨[], .done hv, Nat.zero_le _, List.not_mem_nil⟩, fun _ => rfl⟩

theorem checkChain_error {f : Fault} (h : m.checkChain target n r = .error f) :
    f.report.kind = .semantic := by
  induction n generalizing r with
  | zero =>
    cases h
    rfl
  | succ n ih =>
    rw [checkChain] at h
    split at h
    · cases h
      rfl
    · split at h
      · exact ih h
      · cases h

/-- Whatever the check finds, it is told as a semantic fault. -/
theorem checkReference_error {f : Fault} (h : m.checkReference target v = .error f) :
    f.report.kind = .semantic := by
  unfold checkReference at h
  split at h
  · split at h
    · cases h
      rfl
    · exact checkChain_error h
  · cases h

/-! ## Loops -/

/-- The variables that links lead to from a value are on its chain. -/
theorem Chain.mem_of_links {chain : List VarRef} (h : m.Chain (.var s) chain)
    (hlead : ReflTransGen m.Links s r) : r ∈ chain := by
  induction hlead using ReflTransGen.head_induction_on generalizing chain with
  | refl =>
    obtain ⟨rest, rfl, -⟩ := chain_var_iff.1 h
    exact List.mem_cons_self
  | @head a b hab _ ih =>
    obtain ⟨rest, rfl, hrest⟩ := chain_var_iff.1 h
    rw [Links] at hab
    rw [hab] at hrest
    exact List.mem_cons_of_mem a (ih hrest)

theorem Unlooped.congr {m' : Memory} (hvars : m'.vars = m.vars) (h : m.Unlooped) :
    m'.Unlooped := by
  have hlinks : m'.Links = m.Links := by
    funext a b
    rw [Links, Links, read_congr hvars]
  rw [Unlooped, hlinks]
  exact h

/-- A new variable is linked to others, but none of them is linked to it. -/
theorem Unlooped.addVariable (h : m.Unlooped) (hclosed : m.SelfContained) {w : Variable}
    (hw : m.Contains w.value) : (m.addVariable w).2.Unlooped := by
  refine acyclic_of_redirected (r := ⟨m.vars.size⟩) h ?_ ?_
  · intro a b ha hab
    rwa [Links, read, get?_addVariable, if_neg fun heq => ha (congrArg VarRef.mk heq)] at hab
  · intro b hb hlead
    rw [Links, read_addVariable_self] at hb
    have hb' : b.index < m.vars.size := by
      rw [hb] at hw
      exact hw
    rcases ReflTransGen.cases_tail hlead with heq | ⟨c, -, hc⟩
    · exact Nat.lt_irrefl _ (heq ▸ hb')
    · have hread := hclosed c
      rw [Links] at hc
      rw [hc] at hread
      exact Nat.lt_irrefl _ hread

/-- An assignment that is accepted closes no loop. -/
theorem Unlooped.write (h : m.Unlooped) (hr : r.index < m.vars.size)
    (haccepts : m.Accepts r v) : (m.write r v).Unlooped := by
  refine acyclic_of_redirected (r := r) h ?_ ?_
  · intro a b ha hab
    rwa [Links, read_write_of_ne ha] at hab
  · intro b hb hlead
    rw [Links, read_write_self hr] at hb
    obtain ⟨chain, hchain, -, hmem⟩ := haccepts
    exact hmem (Chain.mem_of_links (hb ▸ hchain) hlead)

theorem unlooped_invariant : Invariant Unlooped fun _ _ _ => True where
  congr hvars h := h.congr hvars
  addVariable h hclosed hw := h.addVariable hclosed hw
  write h hr hcheck _ := h.write hr (checkReference_eq_ok_iff.1 hcheck)

theorem unlooped_initial : initial.Unlooped := by
  intro r h
  obtain ⟨s, hs, -⟩ := TransGen.head'_iff.1 h
  exact nomatch hs

end Memory

/-! ## Assignments -/

/-- The variable that is assigned to, if there is one already. -/
def Target.existing? (m : Machine) : Target → Option VarRef
  | .name s => m.frames.find? s
  | .variable r => some r

namespace Assignment

variable {t : VarRef} {v w : Value} {m m' : Machine}

theorem overwrite_of_accepts (h : m.memory.Accepts t v) :
    overwrite t v m = .ok (.var t) { m with memory := m.memory.write t v } := by
  refine Run.bind_eq_ok.2 ⟨(), m, ?_, rfl⟩
  rw [Run.reading, Memory.checkReference_eq_ok_iff.2 h]

theorem overwrite_of_not_accepts (h : ¬m.memory.Accepts t v) :
    ∃ f, overwrite t v m = .error (.fault f) m ∧ f.report.kind = .semantic := by
  rw [← Memory.checkReference_eq_ok_iff] at h
  cases hcheck : m.memory.checkReference t v with
  | ok => exact absurd hcheck h
  | error f =>
    refine ⟨f, Run.bind_eq_error.2 (.inl ?_), Memory.checkReference_error hcheck⟩
    rw [Run.reading, hcheck]

/-- Once its value is there, an existing variable is given what that holds. -/
theorem assign_existing {evaluate : Group → Run Value} {target : Target} {body : Group}
    (hbody : evaluate body m = .ok w m') (ht : target.existing? m' = some t) :
    assign evaluate overwrite target body m = overwrite t (m'.memory.held w) m' := by
  have hheld : Run.held (evaluate body) m = .ok (m'.memory.held w) m' :=
    Run.bind_eq_ok.2 ⟨w, m', hbody, rfl⟩
  rw [assign, Run.bind_of_ok hheld]
  rcases target with s | r
  · have hget : (get : Run Machine) m' = .ok m' m' := rfl
    have hs : m'.frames.find? s = some t := ht
    dsimp only
    rw [Run.bind_of_ok hget, hs]
  · cases ht
    rfl

end Assignment

/-! ## Programs -/

/-- Along this walk links never lead from a variable back to it. -/
def unloopedWalk : Walk :=
  storeWalk Memory.Unlooped (fun _ _ _ => True) False

open Classical in
/-- Links never lead from a variable back to it, wherever a group is evaluated, something
    is called or a variable is given a value. -/
noncomputable def unloopedWatch : Watch where
  group m := decide m.memory.Unlooped
  call _ m := decide m.memory.Unlooped
  assign m := decide m.memory.Unlooped

namespace unloopedWalk

theorem lawful : unloopedWalk.Lawful :=
  storeWalk.lawful Memory.unlooped_invariant

theorem watched : unloopedWalk.Watched {} where
  permits _ _ _ := Walk.permits_of_forall (fun _ => trivial) trivial

open Classical in
theorem passes : unloopedWalk.Passes {} unloopedWatch where
  group hm _ := decide_eq_true hm.1
  call hm _ := decide_eq_true hm.1
  assign hm _ := decide_eq_true hm.1

theorem couples_evaluateLine {w : Watch} (hw : unloopedWalk.Passes {} w) {m : Machine}
    (hm : unloopedWalk.holds m) (fuel : Nat) (line : String) :
    unloopedWalk.Couples unloopedWalk.value (Call.evaluateLine (evaluate fuel) line)
      (Call.evaluateLine (w.evaluate fuel) line) m := by
  have hagree : unloopedWalk.Agree (evaluate fuel) (w.evaluate fuel) := by
    rw [← Watch.evaluate_unwatched]
    exact lawful.agree_passes watched hw (.inl rfl)
  exact Walk.couples_evaluateLine lawful hagree hm line fun _ _ => trivial

/-- A statement passes all checks that are passed where there are no loops. -/
theorem holds_evaluateLine {w : Watch} (hw : unloopedWalk.Passes {} w) {m : Machine}
    (hm : unloopedWalk.holds m) (fuel : Nat) (line : String) :
    Call.evaluateLine (w.evaluate fuel) line m = Call.evaluateLine (evaluate fuel) line m ∧
      unloopedWalk.holds ((Call.evaluateLine (evaluate fuel) line).after m) := by
  obtain ⟨heq, hholds, -⟩ := (couples_evaluateLine hw hm fuel line).after rfl nofun
  exact ⟨heq, Run.after_congr heq ▸ hholds⟩

theorem holds_of_reaches {P : String → Prop} {m₀ m : Machine} (h : Interpreter.Reaches P m₀ m)
    (hm₀ : unloopedWalk.holds m₀) : unloopedWalk.holds m := by
  induction h with
  | refl => exact hm₀
  | @read m' _ ih =>
    obtain ⟨source, suspended, line, h⟩ := Interpreter.after_readStatement m'
    rw [h]
    exact ih
  | @statement m' line fuel _ _ ih =>
    have hholds := (holds_evaluateLine passes ih fuel line).2
    rcases Interpreter.after_interpret m' fuel line with h | h <;> rw [h]
    · exact hholds
    · exact storeWalk.holds_of_toScope hholds Machine.toScope_kill

theorem holds_of_start {source : Source} {files : Files} {world : World} {strict : Bool}
    {m : Machine}
    (h : Interpreter.Reaches (fun _ => True) { Machine.start source files world with strict } m) :
    unloopedWalk.holds m :=
  holds_of_reaches h ⟨Memory.unlooped_initial, Machine.contained_start source files world⟩

end unloopedWalk

/-- Whatever the statements of a program are, links never lead from a variable back to it,
    after each statement and on the way. Assignments see to that: an existing variable is
    given what a value holds if the variable accepts it, and holds it then, with no other
    variable changed; and else the assignment is a semantic fault and nothing is changed by
    it. -/
theorem let_refuses_loops {source : Source} {files : Files} {world : World} {strict : Bool}
    {m : Machine}
    (h : Interpreter.Reaches (fun _ => True) { Machine.start source files world with strict } m) :
    m.memory.Unlooped ∧
      (∀ fuel line, Call.evaluateLine (unloopedWatch.evaluate fuel) line m =
        Call.evaluateLine (evaluate fuel) line m) ∧
      ∀ {fuel target body m₀ w m' t}, evaluate fuel body m₀ = .ok w m' →
        target.existing? m' = some t →
        (m'.memory.Accepts t (m'.memory.held w) →
          Assignment.assign (evaluate fuel) Assignment.overwrite target body m₀ =
              .ok (.var t) { m' with memory := m'.memory.write t (m'.memory.held w) } ∧
            (m'.memory.write t (m'.memory.held w)).get? t =
              (m'.memory.get? t).map ({ · with value := m'.memory.held w }) ∧
            ∀ s ≠ t, (m'.memory.write t (m'.memory.held w)).get? s = m'.memory.get? s) ∧
        (¬m'.memory.Accepts t (m'.memory.held w) →
          ∃ f, Assignment.assign (evaluate fuel) Assignment.overwrite target body m₀ =
              .error (.fault f) m' ∧ f.report.kind = .semantic) := by
  have hm : unloopedWalk.holds m := unloopedWalk.holds_of_start h
  have hpasses := unloopedWalk.passes
  refine ⟨hm.1, fun fuel line => (unloopedWalk.holds_evaluateLine hpasses hm fuel line).1, ?_⟩
  intro fuel target body m₀ w m' t hbody ht
  rw [Assignment.assign_existing hbody ht]
  refine ⟨fun haccepts => ?_, Assignment.overwrite_of_not_accepts⟩
  exact ⟨Assignment.overwrite_of_accepts haccepts, Memory.get?_write_self .., fun s hs =>
    Memory.get?_write_of_ne _ hs _⟩

/-- A reference to `x` is refused as a value of `x`. -/
theorem let_refuses_loops_reference :
    let m₀ := Machine.start (.script []) (fun _ => .error .notFound) (mkStdGen 0)
    let m := m₀.afterLines 9 ["let x = 1", "let r = @x"]
    m.memory.Links ⟨2⟩ ⟨0⟩ ∧ m.memory.Unlooped ∧
      ∃ m' f, Assignment.assign (evaluate 9) Assignment.overwrite (.name "x")
          [.symbol "@", .symbol "r"] m = .error (.fault f) m' ∧ f.report.kind = .semantic := by
  intro m₀ m
  have hrun : m.memory.Links ⟨2⟩ ⟨0⟩ ∧
      (((evaluate 9 [.symbol "@", .symbol "r"]).value? m).map fun r =>
        (r.2.frames.find? "x", (r.2.memory.checkReference ⟨0⟩ (r.2.memory.held r.1)).isOk)) =
          some (some ⟨0⟩, false) := by
    revert m m₀
    decide +kernel
  obtain ⟨hlinks, hassign⟩ := hrun
  have hreaches : Interpreter.Reaches (fun _ => True) m₀ m :=
    .afterLines .refl 9 fun _ _ => trivial
  obtain ⟨hunlooped, -, hrefused⟩ := let_refuses_loops hreaches
  obtain ⟨⟨w, m'⟩, hbody, hseen⟩ := Option.map_eq_some_iff.1 hassign
  obtain ⟨hx, hcheck⟩ := Prod.ext_iff.1 hseen
  dsimp only at hcheck
  have htarget : Target.existing? m' (.name "x") = some ⟨0⟩ := hx
  refine ⟨hlinks, hunlooped, m', ?_⟩
  refine (hrefused (Run.value?_eq_some_iff.1 hbody) htarget).2 fun haccepts => ?_
  rw [Memory.checkReference_eq_ok_iff.2 haccepts] at hcheck
  cases hcheck

end Linewise
