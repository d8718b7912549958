import Linewise.Proofs.Change
import Linewise.Proofs.Statement

/-!
# Watched evaluations

An evaluation that is watched is broken off as soon as a check fails: before a
group is evaluated, before a call, before a variable is given a value, or before
an expression goes on after a group or a call in it. If it is not broken off, then
it is the evaluation itself, and all checks have been passed on the way. This is
how we speak of what happens in the middle of an evaluation.

* `Watch.evaluate`: the watched evaluation, out of fuel where it is broken off;
* `Walk.Lawful.agree_watched`: it agrees with the evaluation along every lawful
  walk that relies on its checks.
-/

namespace Linewise

/-- The checks in the middle of an evaluation. -/
structure Watch where
  /-- Before a group is evaluated. -/
  group : Machine → Bool := fun _ => true
  /-- Before a group is evaluated that may capture a block. -/
  opens : Machine → Bool := fun _ => true
  /-- Before variables are looked up: before a group is evaluated, and before an
      expression goes on after a group or a call in it. -/
  look : Machine → Bool := fun _ => true
  /-- Before a call. -/
  call : Callable → Machine → Bool := fun _ _ => true
  /-- Before a variable is given a value. -/
  assign : Machine → Bool := fun _ => true
  /-- Before a variable is given a value in place of the one it has. -/
  overwrite : VarRef → Value → Machine → Bool := fun _ _ _ => true

/-- The step, broken off if a check fails. -/
def Run.checked {α : Type} (check : Machine → Bool) (x : Run α) : Run α := fun m =>
  if check m then x m else .error .outOfFuel m

/-- The step, broken off after it if a check fails. -/
def Run.checkedAfter {α : Type} (check : Machine → Bool) (x : Run α) : Run α := do
  let v ← x
  Run.checked check (return v)

theorem Run.checked_of_forall {α : Type} {check : Machine → Bool} (h : ∀ m, check m = true)
    (x : Run α) : Run.checked check x = x :=
  funext fun m => if_pos (h m)

theorem Run.checkedAfter_of_forall {α : Type} {check : Machine → Bool} (h : ∀ m, check m = true)
    (x : Run α) : Run.checkedAfter check x = x := by
  have hchecked : ∀ v : α, Run.checked check (return v) = return v :=
    fun v => Run.checked_of_forall h (return v)
  rw [checkedAfter]
  simp only [hchecked, bind_pure]

namespace Statement

/-- The evaluation of the group may capture a block. -/
def mayOpen (g : Group) : Bool :=
  (parts g).any Part.isBlock

theorem mayOpen_iff {g : Group} : mayOpen g = true ↔ .block ∈ parts g := by
  rw [mayOpen, List.any_eq_true]
  refine ⟨fun ⟨p, hp, hblock⟩ => ?_, fun h => ⟨.block, h, rfl⟩⟩
  cases p with
  | block => exact hp
  | _ => cases hblock

theorem statement_of_assignment {g : Group} (hk : g.keyword? = some .assignment)
    (evaluate : Group → Run Value) (call : Callable → Value → Run Value) (fuel : Nat) :
    statement evaluate call fuel g = Assignment.run evaluate Assignment.overwrite g.tail := by
  cases g with
  | nil => cases hk
  | cons item g =>
    simp only [statement, hk]
    rfl

end Statement

namespace Watch

variable (w : Watch)

/-- The evaluation of a right-hand side, after which a variable is given a
    value. -/
def settled (evaluate : Group → Run Value) (g : Group) : Run Value :=
  Run.checkedAfter w.assign (evaluate g)

/-- A new value for a variable. -/
def give (r : VarRef) (v : Value) : Run Value :=
  Run.checked (w.overwrite r v) (Assignment.overwrite r v)

/-- The evaluation of the groups in the group `g`. After one in an expression,
    variables may be looked up. -/
def inner (g : Group) (evaluate : Group → Run Value) (g' : Group) : Run Value :=
  if g.keyword? = none then Run.checkedAfter w.look (evaluate g') else evaluate g'

/-- The calls in the expression `g`. Variables may be looked up after a call, but not
    if there is only what is called and the argument. -/
def answer (g : Group) (evaluate : Group → Run Value) (c : Callable) (arg : Value) : Run Value :=
  Run.checkedAfter (fun m => w.look m || g.length ≤ 2) <|
    Run.checked (w.call c) (Call.apply evaluate c arg)

/-- The statement that a group is, given the evaluation of groups. -/
def statement (evaluate : Group → Run Value) (fuel : Nat) (g : Group) : Run Value :=
  if g.keyword? = some .assignment then Assignment.run (w.settled evaluate) w.give g.tail
  else Statement.statement (w.inner g evaluate) (w.answer g evaluate) fuel g

/-- The value of a group, if all checks are passed. -/
def evaluate : Nat → Group → Run Value
  | 0, _ => throw .outOfFuel
  | fuel + 1, g =>
    Run.checked (fun m => w.group m && w.look m && (!Statement.mayOpen g || w.opens m)) <|
      w.statement (evaluate fuel) fuel g

/-! ### Checks that never fail -/

/-- Where only calls are checked, a statement is one with calls that are checked. -/
theorem statement_of_calls (hassign : ∀ m, w.assign m = true)
    (hoverwrite : ∀ r v m, w.overwrite r v m = true) (hlook : ∀ m, w.look m = true)
    (evaluate : Group → Run Value) (fuel : Nat) (g : Group) :
    w.statement evaluate fuel g =
      Statement.statement evaluate (fun c v => Run.checked (w.call c) (Call.apply evaluate c v))
        fuel g := by
  by_cases hk : g.keyword? = some .assignment
  · have hsettled : w.settled evaluate = evaluate :=
      funext fun g => Run.checkedAfter_of_forall hassign (evaluate g)
    have hgive : w.give = Assignment.overwrite :=
      funext fun r => funext fun v => Run.checked_of_forall (hoverwrite r v) _
    rw [statement, if_pos hk, hsettled, hgive, Statement.statement_of_assignment hk]
  · have hinner : w.inner g evaluate = evaluate := by
      funext g'
      rw [inner, Run.checkedAfter_of_forall hlook, ite_self]
    have hanswer : w.answer g evaluate =
        fun c v => Run.checked (w.call c) (Call.apply evaluate c v) := by
      funext c v
      exact Run.checkedAfter_of_forall (fun m => by rw [hlook m, Bool.true_or]) _
    rw [statement, if_neg hk, hinner, hanswer]

theorem evaluate_unwatched (fuel : Nat) :
    evaluate {} fuel = Linewise.evaluate fuel := by
  induction fuel with
  | zero => rfl
  | succ fuel ih =>
    funext g
    have hcall : (fun c v => Run.checked (fun _ => true)
        (Call.apply (Linewise.evaluate fuel) c v)) = Call.apply (Linewise.evaluate fuel) :=
      funext fun c => funext fun v => Run.checked_of_forall (fun _ => rfl) _
    rw [evaluate, ih, Linewise.evaluate,
      Run.checked_of_forall fun _ => by simp only [Bool.or_true, Bool.and_true],
      statement_of_calls {} (fun _ => rfl) (fun _ _ _ => rfl) fun _ => rfl, hcall]

end Watch

namespace Walk

variable {K : Walk} {m : Machine}

/-- What the walk relies on is checked, and where it is not lenient all checks
    are passed. -/
structure Watched (K : Walk) (w : Watch) : Prop where
  group : ∀ {m}, K.holds m → K.lenient ∨ w.group m = true := by intros; exact .inr rfl
  opens : ∀ {m}, K.holds m → K.lenient ∨ w.opens m = true := by intros; exact .inr rfl
  look : ∀ {m}, K.holds m → K.lenient ∨ w.look m = true := by intros; exact .inr rfl
  call : ∀ {c m}, K.holds m → K.callable c → K.lenient ∨ w.call c m = true := by
    intros; exact .inr rfl
  assign : ∀ {m}, K.holds m → K.lenient ∨ w.assign m = true := by intros; exact .inr rfl
  overwrite : ∀ {r v m}, K.holds m → K.lenient ∨ w.overwrite r v m = true := by
    intros; exact .inr rfl
  parts : ∀ {g p m}, K.holds m → K.group g m → p ∈ Statement.parts g → p ≠ .block →
    K.part p m := by
      intro _ p _ _ _ _ _
      cases p <;> trivial
  opened : ∀ {g m}, K.holds m → K.group g m → .block ∈ Statement.parts g → w.opens m = true →
    K.opens m := by intros; trivial
  looks : ∀ {m}, K.holds m → w.look m = true → K.looks m := by intros; trivial
  permits : ∀ {c m}, K.holds m → K.callable c → w.call c m = true → K.permits c m
  assigns : ∀ {m}, K.holds m → w.assign m = true → K.assigns m := by intros; trivial
  overwrites : ∀ {r v m}, K.holds m → w.overwrite r v m = true → K.overwrites r v m := by
    intros; trivial

/-- Where a check of the first watch is passed, that of the second is passed on the
    twin. -/
structure Passes (K : Walk) (w w' : Watch) : Prop where
  group : ∀ {m}, K.holds m → w.group m = true → w'.group (K.twin m) = true := by intros; rfl
  opens : ∀ {m}, K.holds m → w.opens m = true → w'.opens (K.twin m) = true := by intros; rfl
  look : ∀ {m}, K.holds m → w.look m = true → w'.look (K.twin m) = true := by intros; rfl
  call : ∀ {c m}, K.holds m → w.call c m = true → w'.call c (K.twin m) = true := by intros; rfl
  assign : ∀ {m}, K.holds m → w.assign m = true → w'.assign (K.twin m) = true := by intros; rfl
  overwrite : ∀ {r v m}, K.holds m → w.overwrite r v m = true →
    w'.overwrite r v (K.twin m) = true := by intros; rfl

theorem couples_checked {α : Type} {P : α → Machine → Prop} {check check' : Machine → Bool}
    {x y : Run α} (hcheck : K.lenient ∨ check m = true)
    (hpass : check m = true → check' (K.twin m) = true)
    (hxy : check m = true → K.Couples P x y m) :
    K.Couples P (Run.checked check x) (Run.checked check' y) m := by
  cases hc : check m with
  | true => exact (hxy hc).congr (if_pos hc) (if_pos (hpass hc))
  | false =>
    refine Coupling.couples_of_lenient (hcheck.resolve_right ?_) (if_neg ?_) <;> simp [hc]

theorem couples_checkedAfter (hK : K.Lawful) {P Q : Value → Machine → Prop}
    {check check' : Machine → Bool} {x y : Run Value} (h : K.Couples P x y m)
    (hcheck : ∀ m', K.holds m' → K.lenient ∨ check m' = true)
    (hpass : ∀ m', K.holds m' → check m' = true → check' (K.twin m') = true)
    (hQ : ∀ v m', K.holds m' → P v m' → check m' = true → Q v m') :
    K.Couples Q (Run.checkedAfter check x) (Run.checkedAfter check' y) m := by
  refine h.bind hK.toOrdered fun v m' hm' _ hv => ?_
  refine couples_checked (hcheck m' hm') (hpass m' hm') fun hc => ?_
  exact Coupling.couples_pure hK.toOrdered hm' (hQ v m' hm' hv hc)

/-- What is known of a group is known of its parts, and where one of them captures
    a block, that has been checked. -/
theorem Watched.parts_of_mayOpen {w : Watch} (hw : K.Watched w) {g : Group} (hm : K.holds m)
    (hg : K.group g m) (hopen : (!Statement.mayOpen g || w.opens m) = true) :
    ∀ p ∈ Statement.parts g, K.part p m := by
  intro p hp
  cases p with
  | block =>
    rw [Statement.mayOpen_iff.2 hp, Bool.not_true, Bool.false_or] at hopen
    exact hw.opened hm hg hp hopen
  | _ => exact hw.parts hm hg hp nofun

section

variable (hK : K.Lawful) {w w' : Watch} (hw : K.Watched w) (hpass : K.Passes w w')

include hK hw hpass

theorem Watched.couples_give : K.Gives w.give w'.give := fun _ _ _ hm ha hr hv =>
  couples_checked (hw.overwrite hm) (hpass.overwrite hm) fun hc =>
    couples_overwrite hK hm ha (hw.overwrites hm hc) hr hv

variable {ev ev' : Group → Run Value} (hagree : K.Agree ev ev')

include hagree

theorem Watched.couples_settled : K.LeadTo K.assigns (w.settled ev) (w'.settled ev') :=
  fun _ _ hm hg => couples_checkedAfter hK (hagree hm hg) (fun _ => hw.assign)
    (fun _ => hpass.assign) fun _ _ hm' hv hc => ⟨hv, hw.assigns hm' hc⟩

theorem Watched.couples_inner {g : Group} (hnone : g.keyword? = none) :
    K.LeadTo K.looks (w.inner g ev) (w'.inner g ev') := by
  intro g' m' hm' hg'
  rw [Watch.inner, Watch.inner, if_pos hnone, if_pos hnone]
  exact couples_checkedAfter hK (hagree hm' hg') (fun _ => hw.look) (fun _ => hpass.look)
    fun _ _ hm'' hv hc => ⟨hv, hw.looks hm'' hc⟩

theorem Watched.agree_inner (g : Group) : K.Agree (w.inner g ev) (w'.inner g ev') := by
  by_cases hnone : g.keyword? = none
  · exact (hw.couples_inner hK hpass hagree hnone).agree
  · intro g' m' hm' hg'
    rw [Watch.inner, Watch.inner, if_neg hnone, if_neg hnone]
    exact hagree hm' hg'

theorem Watched.couples_answer (g : Group) :
    K.Answer (fun m => 2 < g.length → K.looks m) (w.answer g ev) (w'.answer g ev') := by
  intro c v m hm hc hv
  refine couples_checkedAfter hK (P := K.value) ?_ ?_ ?_ ?_
  · exact couples_checked (hw.call hm hc) (hpass.call hm) fun hpassed =>
      couples_apply hK hagree hm (hw.permits hm hc hpassed) hv
  · simp only [Bool.or_eq_true]
    exact fun m' hm' => (hw.look hm').imp_right .inl
  · simp only [Bool.or_eq_true]
    exact fun m' hm' hc' => hc'.imp_left (hpass.look hm')
  · simp only [Bool.or_eq_true, decide_eq_true_eq]
    exact fun v m' hm' hv hc' =>
      ⟨hv, fun hlong => hw.looks hm' (hc'.resolve_right (Nat.not_le.2 hlong))⟩

theorem Watched.couples_statement {g : Group} {fuel fuel' : Nat} (hfuel : K.Outlasts fuel' fuel)
    (hm : K.holds m) (hlook : K.looks m) (hparts : ∀ p ∈ Statement.parts g, K.part p m) :
    K.Couples K.value (w.statement ev fuel g) (w'.statement ev' fuel' g) m := by
  rw [Watch.statement, Watch.statement]
  split
  · rename_i hassignment
    exact couples_run hK (hw.couples_settled hK hpass hagree) (hw.couples_give hK hpass) hm hlook
      fun p hp => hparts p (Statement.mem_parts_of_assignment hassignment hp)
  · rename_i hother
    exact Walk.couples_statement hK (hw.agree_inner hK hpass hagree g)
      (fun hnone => ⟨hw.couples_inner hK hpass hagree hnone, hw.couples_answer hK hpass hagree g⟩)
      (fun h => absurd h hother) hfuel hm hlook hparts

end

/-- An evaluation that is watched agrees with one that passes where it does, along a
    walk that relies on its checks. -/
theorem Lawful.agree_passes (hK : K.Lawful) {w w' : Watch} (hw : K.Watched w)
    (hpass : K.Passes w w') {fuel fuel' : Nat} (hfuel : K.Outlasts fuel' fuel) :
    K.Agree (w.evaluate fuel) (w'.evaluate fuel') := by
  -- What a statement evaluates, it evaluates with less fuel.
  induction fuel generalizing fuel' with
  | zero =>
    intro g m hm _
    obtain rfl | ⟨hlenient, -⟩ := hfuel
    · exact Coupling.couples_throw hK.toOrdered hm .outOfFuel
    · exact Coupling.couples_of_lenient hlenient rfl
  | succ fuel ih =>
    obtain ⟨k, rfl, hk⟩ := hfuel.succ
    intro g m hm hg
    rw [Watch.evaluate, Watch.evaluate]
    refine couples_checked ?_ ?_ fun hpassed => ?_
    · simp only [Bool.and_eq_true, Bool.or_eq_true]
      rcases hw.group hm, hw.look hm, hw.opens hm with ⟨hlenient | hgroup, hlenient | hlook, hopens⟩
      · exact .inl hlenient
      · exact .inl hlenient
      · exact .inl hlenient
      · exact hopens.imp_right fun h => ⟨⟨hgroup, hlook⟩, .inr h⟩
    · simp only [Bool.and_eq_true, Bool.or_eq_true]
      exact fun ⟨⟨hgroup, hlook⟩, hopen⟩ =>
        ⟨⟨hpass.group hm hgroup, hpass.look hm hlook⟩, hopen.imp_right (hpass.opens hm)⟩
    · simp only [Bool.and_eq_true] at hpassed
      exact hw.couples_statement hK hpass (ih hk) hk hm (hw.looks hm hpassed.1.2)
        (hw.parts_of_mayOpen hm hg hpassed.2)

/-- An evaluation that is watched agrees with the evaluation itself, along a walk that
    relies on its checks. -/
theorem Lawful.agree_watched (hK : K.Lawful) {w : Watch} (hw : K.Watched w) {fuel fuel' : Nat}
    (hfuel : K.Outlasts fuel' fuel) : K.Agree (w.evaluate fuel) (evaluate fuel') := by
  rw [← Watch.evaluate_unwatched]
  exact hK.agree_passes hw {} hfuel

/-- Along a walk that does not restrict evaluations any further, they agree with
    themselves. -/
theorem Lawful.agree_evaluate (hK : K.Lawful) (hw : K.Watched {}) {fuel fuel' : Nat}
    (hfuel : K.Outlasts fuel' fuel) : K.Agree (evaluate fuel) (evaluate fuel') := by
  rw [← Watch.evaluate_unwatched]
  exact hK.agree_watched hw hfuel

end Walk

/-! ## Evaluations that are not broken off -/

/-- Along this walk nothing is known. -/
def bareWalk : Walk where
  twin := id
  holds _ := True
  leads _ _ := True
  lenient := True

namespace bareWalk

variable {m : Machine}

theorem couples {α : Type} {P : α → Machine → Prop} {x : Run α} (hP : ∀ v m, P v m) :
    bareWalk.Couples P x x m :=
  Coupling.couples_self rfl trivial trivial fun v m' _ => hP v m'

theorem step (f : Machine → Machine) : bareWalk.Step f m :=
  ⟨trivial, trivial, rfl⟩

theorem bracket (enter leave : Machine → Machine) :
    bareWalk.Bracket bareWalk.reach enter leave m :=
  ⟨trivial, rfl, fun _ _ _ => trivial, fun _ _ _ => trivial, fun _ _ _ => rfl,
    fun _ _ _ _ hv => hv⟩

theorem lawful : bareWalk.Lawful where
  refl _ := trivial
  trans _ _ := trivial
  refer _ _ _ := ⟨step _, trivial⟩
  declare _ _ _ := ⟨step _, trivial⟩
  write _ _ _ _ _ _ := step _
  store _ _ := step _
  define _ _ _ _ := couples fun _ _ => trivial
  outward _ _ _ _ := step _
  strict _ _ := step _
  exit _ _ := step _
  load _ _ _ := step _
  readLine _ _ := couples fun _ _ _ _ _ _ => trivial
  capture _ _ _ := couples fun _ _ => trivial
  advance _ _ := couples fun _ _ _ _ _ _ => trivial
  cursor _ _ _ := bracket _ _
  frame _ _ _ := bracket _ _
  deeper _ _ := bracket _ _

theorem watched (w : Watch) : bareWalk.Watched w where
  group _ := .inl trivial
  opens _ := .inl trivial
  look _ := .inl trivial
  call _ _ := .inl trivial
  assign _ := .inl trivial
  overwrite _ := .inl trivial
  permits _ _ _ := Walk.permits_of_forall (fun _ => trivial) trivial

end bareWalk

/-- With more fuel, a statement that ends does the same. -/
theorem evaluateLine_eq_of_le {fuel fuel' : Nat} (hle : fuel ≤ fuel') {line : String} {m : Machine}
    (h : ∀ m', Call.evaluateLine (evaluate fuel) line m ≠ .error .outOfFuel m') :
    Call.evaluateLine (evaluate fuel') line m = Call.evaluateLine (evaluate fuel) line m := by
  have hagree : bareWalk.Agree (evaluate fuel) (evaluate fuel') :=
    bareWalk.lawful.agree_evaluate (bareWalk.watched {}) (.inr ⟨trivial, hle⟩)
  have hcouples := Walk.couples_evaluateLine bareWalk.lawful hagree (m := m) trivial line
    fun _ _ => trivial
  exact (hcouples.after rfl fun _ => h).1

theorem Interpreter.interpret_of_le {fuel fuel' : Nat} (hle : fuel ≤ fuel') {line : String}
    {m m' : Machine} {result : Result} (h : interpret fuel line m = .ok result m') :
    interpret fuel' line m = .ok result m' := by
  have hend : ∀ m', Call.evaluateLine (evaluate fuel) line m ≠ .error .outOfFuel m' := by
    intro m₁ hout
    rw [interpret, hout] at h
    cases h
  rw [interpret] at h ⊢
  rw [evaluateLine_eq_of_le hle hend]
  exact h

/-- A statement that passes all checks of a watch is evaluated in the same way if it is
    watched for less. -/
theorem Watch.evaluateLine_eq_of_passes {w w' : Watch} (hpass : bareWalk.Passes w w') {fuel : Nat}
    {line : String} {m : Machine}
    (h : ∀ m', Call.evaluateLine (w.evaluate fuel) line m ≠ .error .outOfFuel m') :
    Call.evaluateLine (w.evaluate fuel) line m = Call.evaluateLine (w'.evaluate fuel) line m := by
  have hagree : bareWalk.Agree (w.evaluate fuel) (w'.evaluate fuel) :=
    bareWalk.lawful.agree_passes (bareWalk.watched w) hpass (.inl rfl)
  have hcouples := Walk.couples_evaluateLine bareWalk.lawful hagree (m := m) trivial line
    fun _ _ => trivial
  exact (hcouples.after rfl fun _ => h).1.symm

/-- A statement that passes all checks is evaluated as if it were not watched. -/
theorem Watch.evaluateLine_eq (w : Watch) {fuel : Nat} {line : String} {m : Machine}
    (h : ∀ m', Call.evaluateLine (w.evaluate fuel) line m ≠ .error .outOfFuel m') :
    Call.evaluateLine (w.evaluate fuel) line m =
      Call.evaluateLine (Linewise.evaluate fuel) line m := by
  have hpass : bareWalk.Passes w {} := {}
  rw [evaluateLine_eq_of_passes hpass h, evaluate_unwatched]

/-- A call that passes all checks is evaluated as if it were not watched. -/
theorem Watch.function_eq (w : Watch) {fuel : Nat} {f : FunctionRef} {arg : Value} {m : Machine}
    (h : ∀ m', Call.function (w.evaluate fuel) f arg m ≠ .error .outOfFuel m') :
    Call.function (w.evaluate fuel) f arg m =
      Call.function (Linewise.evaluate fuel) f arg m := by
  have hagree : bareWalk.Agree (w.evaluate fuel) (Linewise.evaluate fuel) :=
    bareWalk.lawful.agree_watched (bareWalk.watched w) (.inl rfl)
  have harg : bareWalk.value arg m := ⟨.of_forall (fun _ => trivial) fun _ => trivial, trivial⟩
  have hpermits : bareWalk.permits (.function f) m :=
    Walk.permits_of_forall (fun _ => trivial) trivial
  have hcouples := Walk.couples_function bareWalk.lawful hagree trivial hpermits harg
  exact (hcouples.after rfl fun _ => h).1.symm

end Linewise
