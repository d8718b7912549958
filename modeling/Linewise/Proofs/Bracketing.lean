import Linewise.Proofs.Enumeration
import Mathlib.Algebra.Order.BigOperators.Group.List

/-!
# Brackets around the parts of a list

Without brackets each element of a list is flattened once, which passes on references as they are
and all else by value. In brackets after a comma, elements are flattened again
(`Enumeration.additions`), which changes nothing but references. So brackets around parts of a list
make no difference unless a reference is flattened again (`Enumeration.amount_of_forall`), and if
one is, they do: some reference is lost (`Enumeration.exists_lost`), so that there are fewer of it
with the brackets than without (`brackets_immaterial_iff`).

It takes no more than `0, (@x, 1)`, which passes `x` on by value (`bracketed_reference_lost`).
-/

namespace Linewise

open Enumeration (Element)

namespace Enumeration

/-! ## What brackets change -/

theorem Element.Sound.element_of_mem_passed {s : Scope} {e : Element} (he : e.Sound s) {w : Value}
    (hw : w ∈ e.passed s.memory) : w.Element true := by
  cases e with
  | literal item v =>
    obtain rfl := List.mem_singleton.1 hw
    exact (Item.Literal.element he.denotes).of_false
  | name x r => exact Memory.element_of_mem_flatten hw
  | reference x r =>
    obtain rfl := List.mem_singleton.1 hw
    rfl

section

variable {s : Scope} (hs : s.memory.SelfContained) {l : List (Element × Nat)}
  (hl : ∀ q ∈ l, q.1.Sound s)

include hl

/-- If no reference is added again, then each element is passed on as without brackets. -/
theorem amount_of_forall
    (h : ∀ q ∈ l, 0 < q.2 → ∀ r, .var r ∉ q.1.passed s.memory) :
    s.memory.amount l = (l.map Prod.fst).flatMap (·.passed s.memory) := by
  rw [Memory.amount, List.flatMap_map]
  refine List.flatMap_congr fun q hq => ?_
  rcases Nat.eq_zero_or_pos q.2 with hzero | hpos
  · rw [hzero]
    rfl
  · refine Function.iterate_fixed (Memory.flattenAll_of_element fun w hw => ?_) _
    exact ((hl q hq).element_of_mem_passed hw).of_ne_var fun r hr => h q hq hpos r (hr ▸ hw)

include hs

/-- If references are added again, then one of them does not come out of anything that is: one
    with the most variables on the way from it. -/
theorem exists_lost {q : Element × Nat} (hq : q ∈ l) (hpos : 0 < q.2) {r : VarRef}
    (hr : .var r ∈ q.1.passed s.memory) :
    ∃ q ∈ l, 0 < q.2 ∧ ∃ r, .var r ∈ q.1.passed s.memory ∧
      ∀ q ∈ l, 0 < q.2 → .var r ∉ s.memory.flattenAll^[q.2] (q.1.passed s.memory) := by
  classical
  have hbound : ∃ n, ∀ q ∈ l, 0 < q.2 → ∀ w ∈ q.1.passed s.memory, s.memory.Nests n w :=
    ⟨s.memory.vars.size, fun q hq _ w hw => ((hl q hq).of_mem_passed hs hw).2⟩
  obtain ⟨n, hn⟩ : ∃ n, Nat.find hbound = n + 1 := by
    refine Nat.exists_eq_succ_of_ne_zero fun hzero => ?_
    have hnests := Nat.find_spec hbound q hq hpos _ hr
    rw [hzero] at hnests
    cases hnests with
    | var _ hlt => exact Nat.not_lt_zero _ hlt
    | other _ hvar => exact hvar r rfl
  have hnests := hn ▸ Nat.find_spec hbound
  obtain ⟨q₀, hq₀, hpos₀, r₀, hr₀, hleast⟩ : ∃ q ∈ l, 0 < q.2 ∧
      ∃ r, .var r ∈ q.1.passed s.memory ∧ ¬s.memory.Nests n (.var r) := by
    by_contra! hlower
    refine Nat.find_min hbound (m := n) (by omega) fun q hq hpos w hw => ?_
    have helement := (hl q hq).element_of_mem_passed hw
    cases w with
    | list values => exact helement.elim
    | var r => exact hlower q hq hpos r hw
    | _ => exact Memory.nests_of_element trivial
  -- What comes out of these has fewer variables on the way.
  refine ⟨q₀, hq₀, hpos₀, r₀, hr₀, fun q hq hpos hmem => ?_⟩
  obtain ⟨k, hk⟩ := Nat.exists_eq_succ_of_ne_zero hpos.ne'
  rw [hk, Function.iterate_succ_apply] at hmem
  refine hleast (Memory.forall_mem_iterate (fun v hv w hw => hv.of_mem_flattenWith hw)
    (fun w hw => ?_) k _ hmem)
  obtain ⟨v, hv, hw⟩ := List.mem_flatMap.1 hw
  exact (hnests q hq hpos v hv).of_mem_flatten ((hl q hq).element_of_mem_passed hv) hw

/-- The values are those without brackets just if no reference is added again: otherwise there
    is one that they have fewer times. -/
theorem amount_eq_iff :
    s.memory.amount l = (l.map Prod.fst).flatMap (·.passed s.memory) ↔
      ∀ q ∈ l, 0 < q.2 → ∀ r, .var r ∉ q.1.passed s.memory := by
  classical
  refine ⟨fun h => ?_, amount_of_forall hl⟩
  by_contra! hadded
  obtain ⟨q, hq, hpos, r, hr⟩ := hadded
  obtain ⟨q₀, hq₀, hpos₀, r₀, hr₀, hlost⟩ := exists_lost hs hl hq hpos hr
  have hnone : ∀ q ∈ l, 0 < q.2 → List.countP (fun v => decide (v = .var r₀))
      (s.memory.flattenAll^[q.2] (q.1.passed s.memory)) = 0 := fun q hq hpos =>
    List.countP_eq_zero.2 fun v hv hvar => hlost q hq hpos (of_decide_eq_true hvar ▸ hv)
  have hcount := congrArg (List.countP fun v => decide (v = .var r₀)) h
  rw [Memory.amount, List.flatMap_map, List.countP_flatMap, List.countP_flatMap] at hcount
  refine Nat.ne_of_lt (List.sum_lt_sum _ _ (fun q hq => ?_) ⟨q₀, hq₀, ?_⟩) hcount
  · rcases Nat.eq_zero_or_pos q.2 with hzero | hpos
    · rw [Function.comp_apply, hzero]
      exact Nat.le_refl _
    · rw [Function.comp_apply, hnone q hq hpos]
      exact Nat.zero_le _
  · rw [Function.comp_apply, hnone q₀ hq₀ hpos₀]
    exact List.countP_pos_iff.2 ⟨_, hr₀, decide_eq_true rfl⟩

end

/-! ## Main result -/

theorem Element.Denotes.sound {s : Scope} (hs : s.Contained) {e : Element} (he : e.Denotes s)
    (hends : ∀ r ∈ e.var?, s.memory.Nests s.memory.vars.size (.var r)) : e.Sound s where
  denotes := he
  contained r hr := by
    have hfound : ∃ x, Symbol.isName x = true ∧ s.find? x = some (.var r) := by
      cases e with
      | literal item v => cases hr
      | name x r | reference x r =>
        cases hr
        exact ⟨x, he⟩
    obtain ⟨x, hx, hr⟩ := hfound
    have hvar : (Value.var r).Within (·.index < s.memory.vars.size) fun _ => True :=
      Scope.find?_within (fun r => hs.top.find?) (fun _ _ => trivial) hr
    exact hvar
  ends := hends

end Enumeration

open Enumeration in
/-- Brackets around parts of a list make a difference just if an element that passes a reference
    on is in brackets after a comma, together with other elements: without brackets, each
    reference is passed on as it is and all else by value, and with them, what is passed on is
    flattened once more for each such pair of brackets. -/
theorem brackets_immaterial_iff {m : Machine} (hm : m.toScope.Contained) {r : Enumeration}
    {e : Element} {es : List Element} (helements : r.elements = e :: es) (hes : es ≠ [])
    (hdenotes : ∀ e ∈ r.elements, e.Denotes m.toScope)
    (hends : ∀ e ∈ r.elements, ∀ s ∈ e.var?, m.memory.Nests m.memory.vars.size (.var s)) :
    let flat := r.elements.flatMap (·.passed m.memory)
    (∃ m', m.Grows m' ∧
      Run.Settles (evaluate · (ofElements e es).items) m (.ok (.list flat) m')) ∧
    (∃ m', m.Grows m' ∧
      Run.Settles (evaluate · r.items) m (.ok (.list (m.memory.amount r.additions)) m')) ∧
    (m.memory.amount r.additions = flat ↔
      ∀ q ∈ r.additions, 0 < q.2 → ∀ s, .var s ∉ q.1.passed m.memory) := by
  intro flat
  have hsound : ∀ e ∈ r.elements, e.Sound m.toScope := fun e he =>
    (hdenotes e he).sound hm (hends e he)
  have hadditions : ∀ q ∈ r.additions, q.1.Sound m.toScope := fun q hq =>
    hsound q.1 (List.mem_map_of_mem hq)
  have hzero : ∀ q ∈ (ofElements e es).additions, q.1.Sound m.toScope ∧ q.2 = 0 := by
    rw [additions_ofElements, ← helements]
    exact List.forall_mem_map.2 fun e he => ⟨hsound e he, rfl⟩
  have hlength : 1 < (e :: es).length := Nat.succ_lt_succ (List.length_pos_iff.2 hes)
  refine ⟨?_, ?_, amount_eq_iff hm.selfContained hadditions⟩
  · have hamount : m.memory.amount (ofElements e es).additions = flat := by
      rw [amount_of_forall (fun q hq => (hzero q hq).1), ← elements, elements_ofElements,
        ← helements]
      exact fun q hq hpos => absurd (hzero q hq).2 hpos.ne'
    rw [← hamount]
    exact exists_settles hm.selfContained (several_of_lt (elements_ofElements e es ▸ hlength))
      fun q hq => (hzero q hq).1
  · exact exists_settles hm.selfContained (several_of_lt (helements ▸ hlength)) hadditions

/-- The only reference is in brackets at the front. -/
theorem brackets_immaterial_iff_reference :
    let m := ((Machine.start (.script []) (fun _ => .error .notFound) (mkStdGen 0)).declare
      "x" (.integer 3)).2
    let x : Enumeration.Element := .reference "x" ⟨0⟩
    let one : Enumeration.Element := .literal (.symbol "1") (.integer 1)
    let r : Enumeration :=
      .comma (.part (.bracketed (.comma (.part (.element one)) (.element x))))
        (.bracketed (.comma (.part (.element one)) (.element one)))
    Group.ofLine "(1, @x), (1, 1)" = .ok r.items ∧ m.toScope.Contained ∧
      r.elements = [one, x, one, one] ∧ (∀ e ∈ r.elements, e.Denotes m.toScope) ∧
      (∀ e ∈ r.elements, ∀ s ∈ e.var?, m.memory.Nests m.memory.vars.size (.var s)) ∧
      ∃ m', Run.Settles (evaluate · r.items) m
        (.ok (.list [.integer 1, .var ⟨0⟩, .integer 1, .integer 1]) m') := by
  intro m x one r
  have hm : m.toScope.Contained :=
    ((Machine.contained_start ..).addVariable (v := ⟨"x", .integer 3⟩) trivial).bind
      Nat.zero_lt_one "x"
  have hone : one.Denotes m.toScope := Item.Literal.number rfl
  have hx : x.Denotes m.toScope := ⟨by decide, rfl⟩
  have hdenotes : ∀ e ∈ r.elements, e.Denotes m.toScope := by
    have helements : ∀ e ∈ [one, x, one, one], e.Denotes m.toScope := by simp [hone, hx]
    exact helements
  have hends : ∀ e ∈ r.elements, ∀ s ∈ e.var?, m.memory.Nests m.memory.vars.size (.var s) := by
    have hnests : m.memory.Nests m.memory.vars.size (.var ⟨0⟩) :=
      .var (Memory.nests_of_element trivial) Nat.zero_lt_one
    have helements : ∀ e ∈ [one, x, one, one], ∀ s ∈ e.var?,
        m.memory.Nests m.memory.vars.size (.var s) := by
      simp [one, x, Element.var?, hnests]
    exact helements
  obtain ⟨-, ⟨m', -, hsettles⟩, hiff⟩ :=
    brackets_immaterial_iff (r := r) hm rfl (List.cons_ne_nil _ _) hdenotes hends
  have hadditions : ∀ q ∈ [(one, 0), (x, 0), (one, 1), (one, 1)], 0 < q.2 →
      ∀ s, .var s ∉ q.1.passed m.memory := by
    have hpassed : ∀ s, .var s ∉ one.passed m.memory := by
      intro s hs
      cases List.mem_singleton.1 hs
    simp [hpassed]
  have hamount := hiff.2 hadditions
  rw [hamount] at hsettles
  exact ⟨by cbv, hm, rfl, hdenotes, hends, m', hsettles⟩

/-- A reference in brackets after a comma is added to the list by value. -/
theorem bracketed_reference_lost :
    let m := ((Machine.start (.script []) (fun _ => .error .notFound) (mkStdGen 0)).declare
      "x" (.integer 3)).2
    let flat : Group :=
      [.symbol "0", .symbol ",", .symbol "@", .symbol "x", .symbol ",", .symbol "1"]
    let bracketed : Group :=
      [.symbol "0", .symbol ",", .group [.symbol "@", .symbol "x", .symbol ",", .symbol "1"]]
    Group.ofLine "0, @x, 1" = .ok flat ∧ Group.ofLine "0, (@x, 1)" = .ok bracketed ∧
      evaluate 2 flat m = .ok (.list [.integer 0, .var ⟨0⟩, .integer 1]) (m.refer ⟨0⟩) ∧
      evaluate 2 bracketed m = .ok (.list [.integer 0, .integer 3, .integer 1]) (m.refer ⟨0⟩) := by
  intro m flat bracketed
  refine ⟨by cbv, by cbv, ?_, ?_⟩
  · rfl
  · rfl

end Linewise
