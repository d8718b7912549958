import Linewise.Assignment
import Linewise.Proofs.Reach
import Mathlib.Logic.Relation

/-!
# Cycles of references

A variable holds a reference to another if that is its value, or is somewhere in
the list that is its value (`Memory.Holds`). Memory is acyclic if no variable
leads back to itself in this way.

Two things are done to the values in memory. A new variable can only lead to
others, as nothing refers to it yet (`Acyclic.addVariable`). But a variable that
is there already may be given a value that leads to it. The check of an
assignment follows the chain of references from the value on, and ends at the
first value that is none; so it finds the cycles of references alone, and misses
those in which a chain ends at a list (`LeadsByList`). They are all that it
misses (`acyclic_write_iff`).
-/

namespace Linewise

open Relation

/-- The value is the variable, or has it in a list at any depth. -/
inductive Value.Refers (r : VarRef) : Value → Prop
  | var : Refers r (.var r)
  | list {v : Value} {values : List Value} : v ∈ values → Refers r v → Refers r (.list values)

theorem Value.Refers.of_within {var : VarRef → Prop} {fn : FunctionRef → Prop} {v : Value}
    {r : VarRef} (h : v.Refers r) (hv : v.Within var fn) : var r := by
  induction h with
  | var => exact hv
  | list hmem _ ih => exact ih (Value.within_list.1 hv _ hmem)

mutual

instance Value.decidableRefers (r : VarRef) : ∀ v : Value, Decidable (v.Refers r)
  | .var s =>
    if h : s = r then .isTrue (h ▸ .var) else .isFalse fun | .var => h rfl
  | .list values =>
    match Value.decidableAnyRefers r values with
    | .isTrue h => .isTrue (let ⟨_, hmem, hv⟩ := h; .list hmem hv)
    | .isFalse h => .isFalse fun | .list hmem hv => h ⟨_, hmem, hv⟩
  | .number _ | .boolean _ | .string _ | .nil | .loopExit | .parameters _ | .function _
  | .block _ => .isFalse nofun

instance Value.decidableAnyRefers (r : VarRef) :
    ∀ values : List Value, Decidable (∃ v ∈ values, v.Refers r)
  | [] => .isFalse fun ⟨_, hmem, _⟩ => List.not_mem_nil hmem
  | v :: values =>
    match Value.decidableRefers r v, Value.decidableAnyRefers r values with
    | .isTrue h, _ => .isTrue ⟨v, List.mem_cons_self, h⟩
    | _, .isTrue h => .isTrue (let ⟨w, hmem, hw⟩ := h; ⟨w, List.mem_cons_of_mem v hmem, hw⟩)
    | .isFalse hv, .isFalse h =>
      .isFalse fun ⟨w, hmem, hw⟩ =>
        (List.mem_cons.1 hmem).elim (fun heq => hv (heq ▸ hw)) fun hmem => h ⟨w, hmem, hw⟩

end

/-! ## Graphs -/

section

variable {α : Type} {R R' : α → α → Prop} {r : α}

/-- If the edges from `r` are replaced by others, then a path makes use of these, or
    was there before. -/
theorem transGen_of_redirected (hother : ∀ {a b}, a ≠ r → R' a b → R a b) {a b : α}
    (h : TransGen R' a b) :
    TransGen R a b ∨ ∃ c, ReflTransGen R' a r ∧ R' r c ∧ ReflTransGen R' c b := by
  induction h with
  | @single b hab =>
    by_cases ha : a = r
    · exact .inr ⟨b, ha ▸ .refl, ha ▸ hab, .refl⟩
    · exact .inl (.single (hother ha hab))
  | @tail t b hat htb ih =>
    by_cases ht : t = r
    · exact .inr ⟨b, ht ▸ hat.to_reflTransGen, ht ▸ htb, .refl⟩
    · exact ih.imp (fun h => h.tail (hother ht htb)) fun ⟨c, har, hrc, hct⟩ =>
        ⟨c, har, hrc, hct.tail htb⟩

/-- The edges from `r` may be replaced by edges to what does not lead to `r`. -/
theorem acyclic_of_redirected (hR : ∀ a, ¬TransGen R a a)
    (hother : ∀ {a b}, a ≠ r → R' a b → R a b) (hr : ∀ {b}, R' r b → ¬ReflTransGen R b r) (a : α) :
    ¬TransGen R' a a := by
  -- What does not lead to `r` leads to the same as before.
  have hkept : ∀ {b c}, ¬ReflTransGen R b r → ReflTransGen R' b c → ReflTransGen R b c := by
    intro b c hb h
    induction h with
    | refl => exact .refl
    | @tail t c _ htc ih => exact ih.tail (hother (fun heq => hb (heq ▸ ih)) htc)
  intro h
  rcases transGen_of_redirected hother h with h | ⟨c, har, hrc, hca⟩
  · exact hR a h
  · exact hr hrc (hkept (hr hrc) (hca.trans har))

end

/-! ## Memory -/

namespace Memory

/-- The variable `a` holds a reference to `b`, directly or in a list at any
    depth. -/
def Holds (m : Memory) (a b : VarRef) : Prop :=
  (m.read a).Refers b

instance (m : Memory) (a b : VarRef) : Decidable (m.Holds a b) :=
  inferInstanceAs <| Decidable ((m.read a).Refers b)

/-- No variable leads back to itself. -/
def Acyclic (m : Memory) : Prop :=
  ∀ r, ¬TransGen m.Holds r r

/-- The variables in a value are in memory. -/
def Contains (m : Memory) (v : Value) : Prop :=
  v.Within (·.index < m.vars.size) fun _ => True

/-- What variables hold only refers to variables in memory. -/
def SelfContained (m : Memory) : Prop :=
  ∀ r, m.Contains (m.read r)

/-- The chain of references from a value on ends at a list, in which a variable
    leads to `r`. -/
inductive LeadsByList (m : Memory) (r : VarRef) : Value → Prop
  | list {values : List Value} {s : VarRef} :
      (Value.list values).Refers s → ReflTransGen m.Holds s r → LeadsByList m r (.list values)
  | var {s : VarRef} : LeadsByList m r (m.read s) → LeadsByList m r (.var s)

variable {m : Memory} {r s : VarRef} {v : Value}

theorem LeadsByList.exists_refers (h : m.LeadsByList r v) :
    ∃ s, v.Refers s ∧ ReflTransGen m.Holds s r := by
  induction h with
  | list hs hr => exact ⟨_, hs, hr⟩
  | @var s _ ih =>
    obtain ⟨t, hst, htr⟩ := ih
    exact ⟨s, .var, .head hst htr⟩

theorem read_congr {m' : Memory} (hvars : m'.vars = m.vars) : m'.read = m.read := by
  funext r
  rw [read, read, get?, get?, hvars]

theorem Acyclic.congr {m' : Memory} (hvars : m'.vars = m.vars) (h : m.Acyclic) : m'.Acyclic := by
  have hholds : m'.Holds = m.Holds := by
    funext a b
    rw [Holds, Holds, read_congr hvars]
  rw [Acyclic, hholds]
  exact h

/-! ### New variables -/

theorem read_addVariable_self {w : Variable} :
    (m.addVariable w).2.read ⟨m.vars.size⟩ = w.value := by
  rw [read, get?_addVariable, if_pos rfl]
  rfl

theorem read_of_le (hr : m.vars.size ≤ r.index) : m.read r = .nil := by
  have hget : m.get? r = none := Array.getElem?_eq_none hr
  rw [read, hget]
  rfl

theorem Contains.mono {m' : Memory} (hsize : m.vars.size ≤ m'.vars.size) (h : m.Contains v) :
    m'.Contains v :=
  h.imp (fun _ hr => Nat.lt_of_lt_of_le hr hsize) fun _ => id

theorem size_addVariable (w : Variable) : (m.addVariable w).2.vars.size = m.vars.size + 1 :=
  Array.size_push _

theorem size_le_addVariable (w : Variable) : m.vars.size ≤ (m.addVariable w).2.vars.size :=
  Nat.le_trans (Nat.le_succ _) (Nat.le_of_eq (size_addVariable w).symm)

theorem SelfContained.addVariable (h : m.SelfContained) {w : Variable} (hw : m.Contains w.value) :
    (m.addVariable w).2.SelfContained := by
  intro r
  refine Contains.mono (m := m) (size_le_addVariable w) ?_
  rw [read, get?_addVariable]
  split
  · exact hw
  · exact h r

/-- A new variable leads to others, but none of them leads to it. -/
theorem Acyclic.addVariable (h : m.Acyclic) (hclosed : m.SelfContained) {w : Variable}
    (hw : m.Contains w.value) : (m.addVariable w).2.Acyclic := by
  refine acyclic_of_redirected (r := ⟨m.vars.size⟩) h ?_ ?_
  · intro a b ha hab
    rwa [Holds, read, get?_addVariable, if_neg fun heq => ha (congrArg VarRef.mk heq)] at hab
  · intro b hb hlead
    rw [Holds, read_addVariable_self] at hb
    rcases ReflTransGen.cases_tail hlead with heq | ⟨c, -, hc⟩
    · exact Nat.lt_irrefl _ (heq ▸ hb.of_within hw)
    · exact Nat.lt_irrefl _ (Value.Refers.of_within hc (hclosed c))

/-! ### New values -/

theorem read_write_of_ne (hs : s ≠ r) : (m.write r v).read s = m.read s := by
  rw [read, get?_write_of_ne m hs, read]

theorem read_write_self (hr : r.index < m.vars.size) : (m.write r v).read r = v := by
  have hget : m.get? r = some m.vars[r.index] := Array.getElem?_eq_getElem hr
  rw [read, get?_write_self, hget]
  rfl

theorem size_write : (m.write r v).vars.size = m.vars.size :=
  Array.size_modify

theorem SelfContained.write (h : m.SelfContained) (hv : m.Contains v) :
    (m.write r v).SelfContained := by
  intro s
  refine Contains.mono (m := m) (Nat.le_of_eq size_write.symm) ?_
  by_cases hs : s = r
  · subst hs
    rcases Nat.lt_or_ge s.index m.vars.size with hlt | hle
    · rwa [read_write_self hlt]
    · rw [read_of_le (Nat.le_trans (Nat.le_of_eq size_write) hle)]
      trivial
  · rw [read_write_of_ne hs]
    exact h s

theorem refers_of_holds_write (h : (m.write r v).Holds r s) : v.Refers s := by
  rcases Nat.lt_or_ge r.index m.vars.size with hr | hr
  · rwa [Holds, read_write_self hr] at h
  · rw [Holds, read_of_le (Nat.le_trans (Nat.le_of_eq size_write) hr)] at h
    exact nomatch h

/-- A chain of references that has been followed to its end does not lead to `r`,
    unless from a list at its end. -/
theorem not_leads_of_checkChain {n : Nat} (h : m.checkChain r n s = .ok ())
    (hlist : ¬m.LeadsByList r (.var s)) : ¬ReflTransGen m.Holds s r := by
  induction n generalizing s with
  | zero => cases h
  | succ n ih =>
    rw [checkChain] at h
    split at h
    · cases h
    rename_i hne
    intro hlead
    obtain rfl | ⟨t, hst, htr⟩ := ReflTransGen.cases_head hlead
    · exact hne rfl
    -- The first step either follows the chain, or goes into a list.
    rw [Holds] at hst
    generalize hv : m.read s = v at h hst
    cases hst with
    | var => exact ih h (fun hl => hlist (.var (hv ▸ hl))) htr
    | list hmem hrefers => exact hlist (.var (hv ▸ .list (.list hmem hrefers) htr))

theorem not_leads_of_checkReference (h : m.checkReference r v = .ok ())
    (hlist : ¬m.LeadsByList r v) (hs : v.Refers s) : ¬ReflTransGen m.Holds s r := by
  cases hs with
  | var =>
    rw [checkReference] at h
    split at h
    · cases h
    · exact not_leads_of_checkChain h hlist
  | list hmem hrefers => exact fun hlead => hlist (.list (.list hmem hrefers) hlead)

/-- An assignment that is not refused closes a cycle just if its value leads to the
    variable by a list. -/
theorem acyclic_write_iff (h : m.Acyclic) (hr : r.index < m.vars.size)
    (hcheck : m.checkReference r v = .ok ()) : (m.write r v).Acyclic ↔ ¬m.LeadsByList r v := by
  have hother : ∀ {a b}, a ≠ r → ((m.write r v).Holds a b ↔ m.Holds a b) := fun ha => by
    rw [Holds, read_write_of_ne ha, Holds]
  refine ⟨fun hacyclic hlist => ?_, fun hlist => ?_⟩
  · -- On the way to `r`, up to where `r` comes first, memory is as before.
    obtain ⟨s, hs, hlead⟩ := hlist.exists_refers
    have hlead' : ReflTransGen (m.write r v).Holds s r := by
      clear hs
      induction hlead using ReflTransGen.head_induction_on with
      | refl => exact .refl
      | @head a b hab _ ih =>
        by_cases ha : a = r
        · exact ha ▸ .refl
        · exact .head ((hother ha).2 hab) ih
    have hrs : (m.write r v).Holds r s := by rwa [Holds, read_write_self hr]
    exact hacyclic r (.head' hrs hlead')
  · refine acyclic_of_redirected (r := r) h (fun ha => (hother ha).1) fun hb => ?_
    exact not_leads_of_checkReference hcheck hlist (refers_of_holds_write hb)

end Memory

end Linewise
