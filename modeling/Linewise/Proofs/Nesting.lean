import Linewise.Proofs.Cycle
import Mathlib.Data.Finset.Card

/-!
# How far variables lead

A value is printed, made into arguments and compared by going through the lists in
it, through what variables in those lists hold, and so on, but through no more
variables than there are. In an acyclic memory no variable is come across twice on
the way (`Memory.nests`), so that this bound is never reached, and what comes out is
what would come out without it (`Memory.Unbounded`).
-/

namespace Linewise

open Relation

theorem Value.textsWith_eq_map (ofVar : VarRef → String) (ofFunction : FunctionRef → String)
    (values : List Value) :
    Value.textsWith ofVar ofFunction values = values.map (·.textWith ofVar ofFunction) := by
  induction values with
  | nil => rfl
  | cons v values ih => rw [textsWith, ih, List.map_cons]

theorem Value.flattenAllWith_eq_flatMap (contents : VarRef → List Value) (values : List Value) :
    Value.flattenAllWith contents values = values.flatMap (·.flattenWith contents) := by
  induction values with
  | nil => rfl
  | cons v values ih => rw [flattenAllWith, ih, List.flatMap_cons]

namespace Memory

/-- However a value is gone through, at most `n` variables are on the way. -/
inductive Nests (m : Memory) : Nat → Value → Prop
  | list {n : Nat} {values : List Value} : (∀ v ∈ values, Nests m n v) → Nests m n (.list values)
  | var {n k : Nat} {r : VarRef} : Nests m n (m.read r) → n < k → Nests m k (.var r)
  | other {n : Nat} {v : Value} :
      (∀ values, v ≠ .list values) → (∀ r, v ≠ .var r) → Nests m n v

variable {m : Memory} {n k l : Nat} {r : VarRef} {v : Value}

theorem Nests.mono (h : m.Nests n v) (hk : n ≤ k) : m.Nests k v := by
  induction h with
  | list _ ih => exact .list fun v hv => ih v hv hk
  | var hread hn _ => exact .var hread (Nat.lt_of_lt_of_le hn hk)
  | other hlist hvar => exact .other hlist hvar

mutual

/-- The variables on the way are those that a value refers to, and those on the way
    from there. -/
theorem nests_of_refers :
    ∀ {v : Value}, (∀ r, v.Refers r → m.Nests n (.var r)) → m.Nests n v
  | .list _, h => .list (nests_of_mem fun _ hv r hr => h r (.list hv hr))
  | .var r, h => h r .var
  | .function _, _ | .number _, _ | .boolean _, _ | .string _, _ | .nil, _ | .loopExit, _
  | .parameters _, _ | .block _, _ => .other nofun nofun

theorem nests_of_mem :
    ∀ {values : List Value}, (∀ v ∈ values, ∀ r, v.Refers r → m.Nests n (.var r)) →
      ∀ v ∈ values, m.Nests n v
  | [], _ => nofun
  | w :: _, h => List.forall_mem_cons.2
    ⟨nests_of_refers (h w List.mem_cons_self),
      nests_of_mem fun v hv => h v (List.mem_cons_of_mem w hv)⟩

end

/-! ## Acyclic memories -/

open Classical in
/-- The variables in memory that `r` leads to, itself among them. -/
noncomputable def leads (m : Memory) (r : VarRef) : Finset Nat :=
  (Finset.range m.vars.size).filter fun i => ReflTransGen m.Holds r ⟨i⟩

theorem mem_leads {i : Nat} :
    i ∈ m.leads r ↔ i < m.vars.size ∧ ReflTransGen m.Holds r ⟨i⟩ := by
  simp only [leads, Finset.mem_filter, Finset.mem_range]

theorem card_leads_le : (m.leads r).card ≤ m.vars.size := by
  have hsub : m.leads r ⊆ Finset.range m.vars.size :=
    fun _ hi => Finset.mem_range.2 (mem_leads.1 hi).1
  exact Nat.le_trans (Finset.card_le_card hsub) (Nat.le_of_eq (Finset.card_range _))

section

variable (hm : m.Acyclic) (hclosed : m.SelfContained)

include hm

/-- A variable leads to more than each of those that it holds. -/
theorem card_leads_lt {s : VarRef} (hr : r.index < m.vars.size) (hrs : m.Holds r s) :
    (m.leads s).card < (m.leads r).card := by
  refine Finset.card_lt_card (Finset.ssubset_iff_of_subset ?_ |>.2 ?_)
  · intro i hi
    rw [mem_leads] at hi ⊢
    exact ⟨hi.1, .head hrs hi.2⟩
  · refine ⟨r.index, mem_leads.2 ⟨hr, .refl⟩, fun hback => ?_⟩
    exact hm r (.head' hrs (mem_leads.1 hback).2)

include hclosed

theorem nests_var (hr : r.index < m.vars.size) : m.Nests (m.leads r).card (.var r) := by
  induction hcard : (m.leads r).card using Nat.strong_induction_on generalizing r with
  | h c ih =>
    -- What `r` holds leads to less than `r`.
    have hheld : ∀ s, m.Holds r s → m.Nests (c - 1) (.var s) := by
      intro s hs
      have hlt : (m.leads s).card < c := hcard ▸ card_leads_lt hm hr hs
      have hin : s.index < m.vars.size := Value.Refers.of_within hs (hclosed r)
      exact (ih _ hlt hin rfl).mono (Nat.le_sub_one_of_lt hlt)
    have hpos : 0 < c := hcard ▸ Finset.card_pos.2 ⟨r.index, mem_leads.2 ⟨hr, .refl⟩⟩
    exact .var (nests_of_refers hheld) (Nat.sub_one_lt_of_lt hpos)

/-- In an acyclic memory, there are no more variables on the way than in memory. -/
theorem nests (hv : m.Contains v) : m.Nests m.vars.size v :=
  nests_of_refers fun _ hr => (nests_var hm hclosed (hr.of_within hv)).mono card_leads_le

end

/-! ## Bounds that are not reached -/

/-- The text of a value does not depend on the bound. -/
theorem Nests.textWith_eq (h : m.Nests n v) (hk : n ≤ k) (hl : n ≤ l) :
    v.textWith (m.variableText k) m.functionName =
      v.textWith (m.variableText l) m.functionName := by
  induction h generalizing k l with
  | list _ ih =>
    rw [Value.textWith, Value.textWith, Value.textsWith_eq_map, Value.textsWith_eq_map,
      List.map_congr_left fun v hv => ih v hv hk hl]
  | @var n _ r _ hn ih =>
    obtain ⟨k, rfl⟩ := Nat.exists_eq_add_of_lt (Nat.lt_of_lt_of_le hn hk)
    obtain ⟨l, rfl⟩ := Nat.exists_eq_add_of_lt (Nat.lt_of_lt_of_le hn hl)
    have htext := ih (Nat.le_add_right n k) (Nat.le_add_right n l)
    simp only [Value.textWith, variableText, htext]
  | @other _ v hlist hvar =>
    cases v with
    | list values => exact absurd rfl (hlist values)
    | var r => exact absurd rfl (hvar r)
    | _ => rfl

/-- The arguments that a value stands for do not depend on the bound. -/
theorem Nests.flattenWith_eq (h : m.Nests n v) (hk : n ≤ k) (hl : n ≤ l) :
    v.flattenWith (m.contents k) = v.flattenWith (m.contents l) := by
  induction h generalizing k l with
  | list _ ih =>
    rw [Value.flattenWith, Value.flattenWith, Value.flattenAllWith_eq_flatMap,
      Value.flattenAllWith_eq_flatMap]
    exact List.flatMap_congr fun v hv => ih v hv hk hl
  | @var n _ r _ hn ih =>
    obtain ⟨k, rfl⟩ := Nat.exists_eq_add_of_lt (Nat.lt_of_lt_of_le hn hk)
    obtain ⟨l, rfl⟩ := Nat.exists_eq_add_of_lt (Nat.lt_of_lt_of_le hn hl)
    have hflatten := ih (Nat.le_add_right n k) (Nat.le_add_right n l)
    rw [Value.flattenWith, Value.flattenWith, contents, contents]
    split
    · rename_i values hread
      rwa [hread] at hflatten
    · rfl
  | @other _ v hlist hvar =>
    cases v with
    | list values => exact absurd rfl (hlist values)
    | var r => exact absurd rfl (hvar r)
    | _ => rfl

theorem equalAllWith_congr {ofVar ofVar' : VarRef → Value → Except Fault Bool}
    {approximate : Bool} {as : List Value}
    (h : ∀ a ∈ as, ∀ b, Operation.equalWith m ofVar approximate a b =
      Operation.equalWith m ofVar' approximate a b) (bs : List Value) :
    Operation.equalAllWith m ofVar approximate as bs =
      Operation.equalAllWith m ofVar' approximate as bs := by
  induction as generalizing bs with
  | nil => rfl
  | cons a as ih =>
    cases bs with
    | nil => rfl
    | cons b bs =>
      rw [Operation.equalAllWith, Operation.equalAllWith, h a List.mem_cons_self,
        ih fun a' ha' => h a' (List.mem_cons_of_mem a ha')]

/-- Whether a value, or what it refers to, is equal to another does not depend on the
    bound. -/
theorem Nests.equalWith_eq_and {approximate : Bool} (h : m.Nests n v) (hk : n ≤ k) (hl : n ≤ l) :
    (∀ b, Operation.equalWith m (Operation.equalVariable m approximate k) approximate v b =
        Operation.equalWith m (Operation.equalVariable m approximate l) approximate v b) ∧
      ∀ j w b, m.follow j v = .ok w →
        Operation.equalWith m (Operation.equalVariable m approximate k) approximate w b =
          Operation.equalWith m (Operation.equalVariable m approximate l) approximate w b := by
  induction h generalizing k l with
  | @list n values _ ih =>
    have heq : ∀ b, Operation.equalWith m (Operation.equalVariable m approximate k) approximate
        (.list values) b =
          Operation.equalWith m (Operation.equalVariable m approximate l) approximate
            (.list values) b := by
      intro b
      have hall := equalAllWith_congr fun v hv => (ih v hv hk hl).1
      simp only [Operation.equalWith, hall]
    have hvar : ∀ r, Value.list values ≠ .var r := by
      intro r hr
      cases hr
    exact ⟨heq, fun j w b hw => m.eq_of_follow hvar hw ▸ heq b⟩
  | @var n _ r _ hn ih =>
    refine ⟨fun b => ?_, fun j w b hw => ?_⟩
    · -- The chain from `r` on is followed with the bound that is left.
      obtain ⟨k, rfl⟩ := Nat.exists_eq_add_of_lt (Nat.lt_of_lt_of_le hn hk)
      obtain ⟨l, rfl⟩ := Nat.exists_eq_add_of_lt (Nat.lt_of_lt_of_le hn hl)
      have hend := (ih (Nat.le_add_right n k) (Nat.le_add_right n l)).2 (maxChain - 1)
      have hchain : ∀ w, m.dereference (.var r) = .ok w → _ := fun w hw => hend w b hw
      rw [Operation.equalWith, Operation.equalWith, Operation.equalVariable,
        Operation.equalVariable]
      split
      · rfl
      · cases hw : m.dereference (.var r) with
        | error e => rfl
        | ok w => exact hchain w hw
    · cases j with
      | zero => cases hw
      | succ j =>
        have hn' := Nat.le_of_lt hn
        exact (ih (Nat.le_trans hn' hk) (Nat.le_trans hn' hl)).2 j w b hw
  | @other n v hlist hvar =>
    have heq : ∀ b, Operation.equalWith m (Operation.equalVariable m approximate k) approximate
        v b = Operation.equalWith m (Operation.equalVariable m approximate l) approximate v b := by
      intro b
      cases v with
      | list values => exact absurd rfl (hlist values)
      | var r => exact absurd rfl (hvar r)
      | _ => rfl
    exact ⟨heq, fun j w b hw => m.eq_of_follow hvar hw ▸ heq b⟩

/-- No bound is reached: what variables hold is printed, made into arguments and
    compared as it would be without any. -/
structure Unbounded (m : Memory) : Prop where
  text : ∀ {r}, r.index < m.vars.size → m.text (.var r) =
    m.nameOf r ++ (match m.read r with | .var _ => " => " | _ => " = ") ++ m.text (m.read r)
  flatten : ∀ {r}, r.index < m.vars.size → m.flatten (.var r) =
    match m.read r with
    | .list values => m.flatten (.list values)
    | v => [v]
  equal : ∀ {approximate r b}, r.index < m.vars.size → Operation.equal m approximate (.var r) b =
    match m.read r, m.held b with
    | .var s, .var t => .ok (s == t)
    | _, _ => do Operation.equal m approximate (← m.dereference (.var r)) b

/-- What a variable holds is gone through with a smaller bound. -/
theorem exists_bound (hm : m.Acyclic) (hclosed : m.SelfContained) (hr : r.index < m.vars.size) :
    ∃ n, m.vars.size = n + 1 ∧ m.Nests n (m.read r) := by
  cases nests hm hclosed (v := .var r) hr with
  | @var n _ _ hread hn =>
    obtain ⟨k, hk⟩ := Nat.exists_eq_add_of_lt hn
    exact ⟨n + k, hk, hread.mono (Nat.le_add_right n k)⟩
  | other _ hvar => exact absurd rfl (hvar r)

theorem Acyclic.unbounded (hm : m.Acyclic) (hclosed : m.SelfContained) : m.Unbounded where
  text {r} hr := by
    obtain ⟨n, hn, hread⟩ := exists_bound hm hclosed hr
    have hbound := hread.textWith_eq (l := m.vars.size) (Nat.le_refl n) (by omega)
    rw [text, Value.textWith, text, ← hbound, hn]
    rfl
  flatten {r} hr := by
    obtain ⟨n, hn, hread⟩ := exists_bound hm hclosed hr
    have hbound := hread.flattenWith_eq (l := m.vars.size) (Nat.le_refl n) (by omega)
    rw [flatten, Value.flattenWith]
    conv_lhs => rw [hn, contents]
    cases hvalue : m.read r with
    | list values =>
      rw [hvalue] at hbound
      exact hbound
    | _ => rfl
  equal {approximate r b} hr := by
    obtain ⟨n, hn, hread⟩ := exists_bound hm hclosed hr
    have hbound : (m.dereference (.var r) >>= fun w =>
          Operation.equalWith m (Operation.equalVariable m approximate n) approximate w b) =
        m.dereference (.var r) >>= fun w => Operation.equal m approximate w b := by
      cases hw : m.dereference (.var r) with
      | error e => rfl
      | ok w =>
        have hle : n ≤ m.vars.size := by omega
        exact (hread.equalWith_eq_and (Nat.le_refl n) hle).2 (maxChain - 1) w b hw
    rw [← hbound, Operation.equal, Operation.equalWith, hn]
    rfl

end Memory

end Linewise
