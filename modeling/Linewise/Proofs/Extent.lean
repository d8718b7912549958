import Linewise.Interpreter
import Linewise.Proofs.Unread
import Mathlib.Logic.Relation
import Mathlib.Order.Basic

/-!
# The lines that a statement takes

A multi-line construct takes its body from the lines that follow. Which lines
these are depends on the lines themselves, and on the order in which the
constructs of a statement are evaluated. If all of them are evaluated whatever
the values are, the number of lines can be told from the text alone
(`statement_takes_same_lines`).

This is not so where a construct stands in a part that is only evaluated
sometimes: in a branch of an `if` that is on the line, or in the body or the
condition of a `while` (`begin_in_branch_takes_lines`). Everywhere else it is
(`Group.exists_takes`).

* `Source.past`: a source after some blocks have been captured;
* `Group.Takes`: the blocks that the evaluation of a group captures from the
  source, with the kind of each;
* `evaluate_takes`: an evaluation that gives a value has captured just these.
-/

namespace Linewise

/-! ## Sources -/

/-- The source after blocks have been captured from it, one after the other, with
    `else` allowed or not, and the number of lines read. -/
def Source.past : List Bool → Source → Source × Nat
  | [], source => (source, 0)
  | _ :: _, directory => (directory, 0)
  | elseAllowed :: bodies, script lines =>
    let o := (Capture.start elseAllowed).run (·.mapError .sourceFailed) lines
    let (source, n) := past bodies (.script o.rest)
    (source, o.read + n)

theorem Source.past_append (bodies bodies' : List Bool) (source : Source) :
    source.past (bodies ++ bodies') =
      (((source.past bodies).1.past bodies').1,
        (source.past bodies).2 + ((source.past bodies).1.past bodies').2) := by
  induction bodies generalizing source with
  | nil => simp [past]
  | cons elseAllowed bodies ih =>
    cases source with
    | directory => cases bodies' <;> simp [past]
    | script lines => simp [past, ih, Nat.add_assoc]

/-! ## Steps that take blocks -/

/-- The step, if it gives a value, has captured blocks from the source and taken no
    other lines. -/
def Run.Takes {α : Type} (x : Run α) (bodies : List Bool) (m : Machine) : Prop :=
  m.cursors = [] → ∀ {v m'}, x m = .ok v m' →
    m'.cursors = [] ∧ m'.source = (m.source.past bodies).1 ∧
      m'.line = m.line + (m.source.past bodies).2

namespace Run.Takes

variable {α β : Type} {x : Run α} {f : α → Run β} {bodies bodies' : List Bool} {m : Machine}

theorem bind (h : x.Takes bodies m)
    (hf : ∀ v m', x m = .ok v m' → m'.cursors = [] → (f v).Takes bodies' m') :
    (x >>= f).Takes (bodies ++ bodies') m := by
  intro hc w m'' hw
  obtain ⟨v, m', hx, hf'⟩ := Run.bind_eq_ok.1 hw
  obtain ⟨hc', hs, hl⟩ := h hc hx
  obtain ⟨hc'', hs', hl'⟩ := hf v m' hx hc' hc' hf'
  rw [Source.past_append]
  exact ⟨hc'', by rw [hs', hs], by rw [hl', hl, hs, Nat.add_assoc]⟩

/-- Nothing more is taken after the first step. -/
theorem andThen (h : x.Takes bodies m)
    (hf : ∀ v m', x m = .ok v m' → m'.cursors = [] → (f v).Takes [] m') :
    (x >>= f).Takes bodies m :=
  bodies.append_nil ▸ h.bind hf

/-- Nothing is taken by the first step. -/
theorem followedBy (h : x.Takes [] m)
    (hf : ∀ v m', x m = .ok v m' → m'.cursors = [] → (f v).Takes bodies m') :
    (x >>= f).Takes bodies m :=
  h.bind hf

theorem of_unread (h : ∀ {v m'}, x m = .ok v m' → m.Unread m') : x.Takes [] m := by
  intro hc v m' hx
  have hunread := h hx
  exact ⟨hunread.eq_nil hc, hunread.source, hunread.line⟩

theorem of_couples {P : Group → Prop} {source : Source} {n : Nat} {Q : α → Machine → Prop}
    {y : Run α} (h : (unreadWalk P source n).Couples Q x y m) : x.Takes [] m :=
  of_unread fun hx => (h.ok hx).2.2.1

theorem of_fail {fault : Fault} : (Run.fail fault : Run α).Takes bodies m := by
  intro _ v m' h
  cases h

theorem pure (v : α) : (Pure.pure v : Run α).Takes [] m :=
  of_unread fun h => by
    cases h
    exact ⟨rfl, rfl, rfl, rfl⟩

theorem reading {g : Machine → Except Fault α} : (Run.reading g).Takes [] m := by
  refine of_unread fun {v m'} h => ?_
  rw [Run.reading] at h
  split at h <;> cases h
  exact ⟨rfl, rfl, rfl, rfl⟩

theorem write (line : String) : (Run.write line).Takes [] m :=
  of_unread fun h => by
    obtain ⟨world, output, rfl⟩ := Run.of_write h
    exact ⟨rfl, rfl, rfl, rfl⟩

theorem captureBlock (elseAllowed : Bool) :
    (Run.captureBlock elseAllowed).Takes [elseAllowed] m := by
  intro hc b m' h
  rw [Run.captureBlock, hc] at h
  cases hs : m.source with
  | directory =>
    rw [hs] at h
    cases h
  | script lines =>
    rw [hs] at h
    dsimp only at h
    rw [Run.ofExcept, Run.reading] at h
    split at h
    · cases h
      exact ⟨rfl, rfl, rfl⟩
    · cases h

theorem get_bind {f : Machine → Run β} (h : (f m).Takes bodies m) : (get >>= f).Takes bodies m :=
  h

theorem checked {check : Machine → Bool} (h : check m = true → x.Takes bodies m) :
    (Run.checked check x).Takes bodies m := by
  intro hc v m' hx
  rw [Run.checked] at hx
  split at hx
  · exact h ‹_› hc hx
  · cases hx

end Run.Takes

/-! ## Groups that take blocks -/

/-- What stands before the `=` is no target, and no target with parameters either. -/
def Assignment.isRefused (head : Group) : Bool :=
  match head.dropWhile isReference with
  | [_] | [_, .group _] => false
  | _ => true

/-- The group gives no value, whatever its parts give: the keyword that it starts with starts no
    statement, or what follows does not have the form that the keyword asks for. -/
def Group.isRefused (g : Group) : Bool :=
  match g, g.keyword? with
  | [], _ | _, none => false
  | _ :: g, some .directive => (g.head?.bind Item.symbol?).getD "" ≠ "STRICT" || g.tail.isEmpty
  | _ :: g, some .assignment =>
    match g.span fun item => !item.isSymbol "=" with
    | (_, []) => true
    | (head, _ :: _) => Assignment.isRefused head
  | _ :: g, some .conditional => !(Statement.conditionAndBody .conditional g).isOk
  | _ :: g, some .repetition => !(Statement.conditionAndBody .repetition g).isOk
  | _ :: g, some .opening => !g.isEmpty
  | _, some _ => true

/-- The blocks that an item takes, given those that groups take. -/
def Item.bodies (bodies : Group → List Bool) : Item → List Bool
  | .group g => bodies g
  | _ => []

/-- The blocks that the evaluation of a group takes from the source, whatever the
    values are; `true` where the body may have an `else`. Parts that are evaluated
    depending on values take none, or both branches take the same. A group that is refused
    gives no value, so that it makes no difference what it takes. -/
inductive Group.Takes : Group → List Bool → Prop
  | nil : Takes [] []
  | expression {g : Group} (bodies : Group → List Bool) (hk : g.keyword? = none)
      (hg : ∀ g', .group g' ∈ g → Takes g' (bodies g')) : Takes g (g.flatMap (Item.bodies bodies))
  | opening {item : Item} (hk : Group.keyword? [item] = some .opening) : Takes [item] [false]
  | directive {item : Item} {g : Group} {bodies : List Bool}
      (hk : Group.keyword? (item :: g) = some .directive) (hg : Takes g.tail bodies) :
      Takes (item :: g) bodies
  /-- A variable is assigned. -/
  | assignment {item eq target : Item} {g head body : Group} {bodies' : List Bool}
      (bodies : Group → List Bool) (hk : Group.keyword? (item :: g) = some .assignment)
      (hg : g.span (fun item => !item.isSymbol "=") = (head, eq :: body))
      (hhead : head.dropWhile Assignment.isReference = [target])
      (htarget : ∀ g', target = .group g' → Takes g' (bodies g')) (hbody : Takes body bodies') :
      Takes (item :: g) (target.bodies bodies ++ bodies')
  /-- A function is defined, whose body is on the line or in the block. -/
  | definition {item eq target : Item} {g head body parameters : Group}
      (bodies : Group → List Bool) (hk : Group.keyword? (item :: g) = some .assignment)
      (hg : g.span (fun item => !item.isSymbol "=") = (head, eq :: body))
      (hhead : head.dropWhile Assignment.isReference = [target, .group parameters])
      (htarget : ∀ g', target = .group g' → Takes g' (bodies g')) :
      Takes (item :: g) (target.bodies bodies ++ if body.isEmpty then [false] else [])
  /-- The body is the block. -/
  | conditional {item : Item} {g test : Group} {bodies : List Bool}
      (hk : Group.keyword? (item :: g) = some .conditional)
      (hg : Statement.conditionAndBody .conditional g = .ok (test, []))
      (htest : Takes test bodies) : Takes (item :: g) (bodies ++ [true])
  /-- The body is on the line, and there is no `else`. -/
  | guarded {item : Item} {g test body : Group} {bodies : List Bool}
      (hk : Group.keyword? (item :: g) = some .conditional)
      (hg : Statement.conditionAndBody .conditional g = .ok (test, body)) (hne : body ≠ [])
      (hbody : body.span (fun item => !item.isElse) = (body, []))
      (htest : Takes test bodies) (hfirst : Takes body []) : Takes (item :: g) bodies
  /-- The second branch is the block. -/
  | alternative {item last : Item} {g test body first : Group} {bodies : List Bool}
      (hk : Group.keyword? (item :: g) = some .conditional)
      (hg : Statement.conditionAndBody .conditional g = .ok (test, body))
      (hbody : body.span (fun item => !item.isElse) = (first, [last]))
      (htest : Takes test bodies) (hfirst : Takes first []) : Takes (item :: g) (bodies ++ [false])
  /-- Both branches are on the line. -/
  | branches {item last next : Item} {g test body first second : Group} {bodies bodies' : List Bool}
      (hk : Group.keyword? (item :: g) = some .conditional)
      (hg : Statement.conditionAndBody .conditional g = .ok (test, body))
      (hbody : body.span (fun item => !item.isElse) = (first, last :: next :: second))
      (htest : Takes test bodies) (hfirst : Takes first bodies')
      (hsecond : Takes (next :: second) bodies') : Takes (item :: g) (bodies ++ bodies')
  | repetition {item : Item} {g test body : Group}
      (hk : Group.keyword? (item :: g) = some .repetition)
      (hg : Statement.conditionAndBody .repetition g = .ok (test, body))
      (htest : Takes test []) (hbody : Takes body []) :
      Takes (item :: g) (if body.isEmpty then [false] else [])
  | refused {g : Group} {bodies : List Bool} (hg : g.isRefused = true) : Takes g bodies

theorem Group.Takes.eq_nil {bodies : List Bool} (h : Takes [] bodies) : bodies = [] := by
  cases h with
  | refused hg => cases hg
  | _ => rfl

/-! ### Groups of which it can be told -/

/-- The parts of the group that are evaluated depending on values take no block, but for two
    branches of an `if`, which take the same. -/
def Group.Steady (g : Group) : Prop :=
  match g, g.keyword? with
  | _ :: g, some .conditional =>
    ∀ test body, Statement.conditionAndBody .conditional g = .ok (test, body) →
      match body.span fun item => !item.isElse with
      | (first, []) | (first, [_]) => Takes first []
      | (first, _ :: second) => ∃ bodies, Takes first bodies ∧ Takes second bodies
  | _ :: g, some .repetition =>
    ∀ test body, Statement.conditionAndBody .repetition g = .ok (test, body) →
      test.Takes [] ∧ body.Takes []
  | _, _ => True

/-- A group is a part of another. -/
def Group.PartOf (g' g : Group) : Prop :=
  .group g' ∈ Statement.parts g

namespace Group

variable {g : Group}

/-- What the groups among some items take, for all of them at once. -/
theorem exists_takes_items {items : Group}
    (h : ∀ g', .group g' ∈ items → ∃ bodies, Takes g' bodies) :
    ∃ bodies : Group → List Bool, ∀ g', .group g' ∈ items → Takes g' (bodies g') := by
  classical
  refine ⟨fun g' => if h' : .group g' ∈ items then (h g' h').choose else [], fun g' hg' => ?_⟩
  dsimp only
  rw [dif_pos hg']
  exact (h g' hg').choose_spec

theorem exists_takes_optional (h : ∀ g', .group g' ∈ Part.optional g → ∃ bodies, g'.Takes bodies) :
    ∃ bodies, g.Takes bodies := by
  cases g with
  | nil => exact ⟨[], .nil⟩
  | cons item g => exact h _ List.mem_cons_self

section

variable {item : Item}
  (hparts : ∀ g', PartOf g' (item :: g) → ∃ bodies, g'.Takes bodies)

include hparts

theorem exists_takes_assignment (hk : keyword? (item :: g) = some .assignment) :
    ∃ bodies, Takes (item :: g) bodies := by
  simp only [PartOf, Statement.parts, hk, Assignment.parts] at hparts
  rcases hspan : g.span fun item => !item.isSymbol "=" with ⟨head, _ | ⟨eq, body⟩⟩
  · exact ⟨[], .refused (by simp only [isRefused, hk, hspan])⟩
  rw [hspan] at hparts
  dsimp only at hparts
  have hitems : ∀ g', .group g' ∈ head.dropWhile Assignment.isReference →
      ∃ bodies, Takes g' bodies := fun g' hg' =>
    hparts g' (List.mem_append_left _ (List.mem_flatMap.2
      ⟨_, (List.dropWhile_sublist _).mem hg', List.mem_cons_self⟩))
  obtain ⟨bodies, hbodies⟩ := exists_takes_items hitems
  rcases hhead : head.dropWhile Assignment.isReference with
    _ | ⟨target, _ | ⟨parameters, _ | ⟨more, rest⟩⟩⟩
  · exact ⟨[], .refused (by simp only [isRefused, hk, hspan, Assignment.isRefused, hhead])⟩
  · have hname : Assignment.hasParameters head = false := by
      simp [Assignment.hasParameters, Assignment.afterTarget, hhead]
    rw [hname] at hparts
    obtain ⟨bodies', hbody⟩ := exists_takes_optional (g := body) fun g' hg' =>
      hparts g' (List.mem_append_right _ hg')
    exact ⟨_, .assignment bodies hk hspan hhead
      (fun g' hg' => hbodies g' (by rw [hhead, hg']; exact List.mem_cons_self)) hbody⟩
  · cases parameters with
    | group parameters =>
      exact ⟨_, .definition bodies hk hspan hhead fun g' hg' =>
        hbodies g' (by rw [hhead, hg']; exact List.mem_cons_self)⟩
    | _ => exact ⟨[], .refused (by simp only [isRefused, hk, hspan, Assignment.isRefused, hhead])⟩
  · exact ⟨[], .refused (by simp only [isRefused, hk, hspan, Assignment.isRefused, hhead])⟩

theorem exists_takes_conditional (hk : keyword? (item :: g) = some .conditional)
    (hsteady : Steady (item :: g)) : ∃ bodies, Takes (item :: g) bodies := by
  simp only [Steady, hk] at hsteady
  simp only [PartOf, Statement.parts, hk] at hparts
  cases hg : Statement.conditionAndBody .conditional g with
  | error e => exact ⟨[], .refused (by simp [isRefused, hk, hg, Except.isOk, Except.toBool])⟩
  | ok parts =>
    obtain ⟨test, body⟩ := parts
    rw [hg] at hparts
    obtain ⟨bodies, htest⟩ := hparts test List.mem_cons_self
    replace hsteady := hsteady test body hg
    rcases body with _ | ⟨first, body⟩
    · exact ⟨_, .conditional hk hg htest⟩
    generalize hbody : (first :: body) = whole at hg hsteady
    have hne : whole ≠ [] := hbody ▸ List.cons_ne_nil first body
    rcases hspan : whole.span fun item => !item.isElse with ⟨first, _ | ⟨last, _ | ⟨next, second⟩⟩⟩
    · rw [hspan] at hsteady
      have hall : first = whole := by
        rw [List.span_eq_takeWhile_dropWhile] at hspan
        obtain ⟨htake, hdrop⟩ := Prod.mk.inj hspan
        rw [← List.takeWhile_append_dropWhile (p := fun item => !item.isElse) (l := whole), htake,
          hdrop, List.append_nil]
      subst hall
      exact ⟨_, .guarded hk hg hne hspan htest hsteady⟩
    · rw [hspan] at hsteady
      exact ⟨_, .alternative hk hg hspan htest hsteady⟩
    · rw [hspan] at hsteady
      obtain ⟨bodies', hfirst, hsecond⟩ := hsteady
      exact ⟨_, .branches hk hg hspan htest hfirst hsecond⟩

/-- It can be told what a group takes, if that can be told of its parts, and those that are
    evaluated depending on values make no difference. -/
theorem exists_takes_cons (hsteady : Steady (item :: g)) : ∃ bodies, Takes (item :: g) bodies := by
  cases hk : keyword? (item :: g) with
  | none =>
    simp only [PartOf, Statement.parts, hk] at hparts
    obtain ⟨bodies, h⟩ := exists_takes_items fun g' hg' =>
      hparts g' (List.mem_flatMap.2 ⟨_, hg', List.mem_cons_self⟩)
    exact ⟨_, .expression bodies hk h⟩
  | some k =>
    cases k with
    | directive =>
      simp only [PartOf, Statement.parts, hk] at hparts
      obtain ⟨bodies, h⟩ := exists_takes_optional hparts
      exact ⟨bodies, .directive hk h⟩
    | assignment => exact exists_takes_assignment hparts hk
    | conditional => exact exists_takes_conditional hparts hk hsteady
    | repetition =>
      simp only [Steady, hk] at hsteady
      cases hg : Statement.conditionAndBody .repetition g with
      | error e => exact ⟨[], .refused (by simp [isRefused, hk, hg, Except.isOk, Except.toBool])⟩
      | ok parts =>
        obtain ⟨htest, hbody⟩ := hsteady parts.1 parts.2 hg
        exact ⟨_, .repetition hk hg htest hbody⟩
    | opening =>
      cases g with
      | nil => exact ⟨_, .opening hk⟩
      | cons next g => exact ⟨[], .refused (by simp [isRefused, hk])⟩
    | _ => exact ⟨[], .refused (by simp [isRefused, hk])⟩

end

/-- It can be told from the text what a group takes, unless somewhere in it values decide whether
    a part is evaluated that takes a block. -/
theorem exists_takes (h : ∀ g', Relation.ReflTransGen PartOf g' g → g'.Steady) :
    ∃ bodies, g.Takes bodies := by
  -- A part is smaller than its group.
  induction hn : sizeOf g using Nat.strongRecOn generalizing g with
  | ind n ih =>
    subst hn
    cases g with
    | nil => exact ⟨[], .nil⟩
    | cons item g =>
      refine exists_takes_cons (fun g' hg' => ?_) (h _ .refl)
      exact ih _ (Statement.sizeOf_lt_of_parts hg') (fun g'' hg'' => h g'' (hg''.tail hg')) rfl

end Group

/-! ## Evaluations without calls -/

/-- Nothing is called while no block is running, and nothing that uses the source
    at all. -/
def callFreeWatch : Watch where
  call c m := !m.cursors.isEmpty && !m.usesSource c

/-- Along this walk groups are only evaluated while a block is running. -/
abbrev runningWalk : Walk :=
  unreadWalk (fun _ => False) .directory 0

namespace runningWalk

theorem lawful : runningWalk.Lawful :=
  unreadWalk.lawful

theorem watched : runningWalk.Watched callFreeWatch where
  call _ _ := .inl trivial
  parts {g p m} _ hg _ hblock := by
    cases p with
    | group g' => exact hg
    | block => exact absurd rfl hblock
    | _ => trivial
  opened _ hg _ _ := hg
  permits {c m} _ _ hc := by
    simp only [callFreeWatch, Bool.and_eq_true, Bool.not_eq_true'] at hc
    refine unreadWalk.permits hc.2 (.inl fun hnil => ?_)
    rw [hnil] at hc
    exact Bool.noConfusion hc.1

theorem agree (fuel : Nat) :
    runningWalk.Agree (callFreeWatch.evaluate fuel) (evaluate fuel) :=
  lawful.agree_watched watched (.inl rfl)

end runningWalk

section

variable {ev ev' : Group → Run Value} {call : Callable → Value → Run Value} {m : Machine}
  (hev : ∀ {g bodies m}, g.Takes bodies → (ev g).Takes bodies m)

/-! ## Expressions -/

section

include hev

theorem takes_term {bodies : Group → List Bool} {item : Item}
    (hitem : ∀ g, item = .group g → Group.Takes g (bodies g)) :
    (Statement.term ev item).Takes (item.bodies bodies) m := by
  cases item with
  | symbol s => exact .pure _
  | text s => exact .pure _
  | group g => exact (hev (hitem g rfl)).andThen fun v m' _ _ => .pure _

variable (hcall : ∀ {c v bodies m}, (call c v).Takes bodies m)

include hcall

theorem takes_applied {bodies : Group → List Bool} {done : Row} {g : Group}
    (hg : ∀ g', .group g' ∈ g → Group.Takes g' (bodies g')) :
    (Statement.applied ev call done g).Takes (g.flatMap (Item.bodies bodies)) m := by
  -- What an item takes comes before what the items after it take, and between them
  -- nothing is called.
  induction g generalizing done m with
  | nil => exact .pure _
  | cons item g ih =>
    rw [List.flatMap_cons, Statement.applied]
    have hitem : ∀ g', item = .group g' → Group.Takes g' (bodies g') := fun g' h =>
      hg g' (h ▸ List.mem_cons_self)
    have hmore : ∀ {done m},
        (Statement.applied ev call done g).Takes (g.flatMap (Item.bodies bodies)) m :=
      ih fun g' h => hg g' (List.mem_cons_of_mem _ h)
    refine (takes_term hev hitem).bind fun t m₁ _ _ => ?_
    rcases done with _ | ⟨f, done⟩
    · exact hmore
    cases t with
    | symbol s => exact hmore
    | group g => exact g.elim
    | value arg =>
      refine .get_bind ?_
      split
      · exact hcall.followedBy fun v m₂ _ _ => hmore
      · exact hmore

theorem takes_expression {bodies : Group → List Bool} {g : Group}
    (hg : ∀ g', .group g' ∈ g → Group.Takes g' (bodies g')) :
    (Statement.expression ev call g).Takes (g.flatMap (Item.bodies bodies)) m := by
  refine (takes_applied hev hcall hg).andThen fun row m₁ _ _ => ?_
  have hrow : ∀ t ∈ row, runningWalk.operand t m₁ := by
    intro t _
    cases t with
    | value v => exact ⟨.of_forall (fun _ => trivial) fun _ => trivial, trivial⟩
    | group g => exact g.elim
    | symbol s => trivial
  have hreduce := Walk.couples_reduce runningWalk.lawful (fun _ _ _ _ _ => trivial)
    (fun _ _ hm hl ht => Walk.couples_operand runningWalk.lawful hm hl ht) trivial trivial hrow
  exact (Run.Takes.of_couples hreduce).andThen fun row m₂ _ _ => .reading

end

/-! ## Control -/

theorem takes_runBlock (hagree : runningWalk.Agree ev ev') {b : Block} {first : Bool} :
    (Call.runBlock ev b first).Takes [] m :=
  .of_couples (Walk.couples_runBlock runningWalk.lawful hagree trivial trivial)

theorem takes_opening {g : Group} : (Statement.opening g).Takes [false] m := by
  rw [Statement.opening]
  split
  · exact .of_fail
  · refine (Run.Takes.captureBlock false).andThen fun b m₁ _ _ => .of_unread fun h => ?_
    cases h
    exact ⟨rfl, rfl, rfl, rfl⟩

section

variable {test g : Group} {bodies bodies' : List Bool}

include hev

theorem takes_optional (hg : g.Takes bodies) : (Statement.optional ev g).Takes bodies m := by
  rw [Statement.optional]
  split
  · rename_i hempty
    rw [List.isEmpty_iff.1 hempty] at hg
    exact hg.eq_nil ▸ .pure _
  · exact hev hg

theorem takes_condition (htest : test.Takes bodies) :
    (Statement.condition ev test).Takes bodies m := by
  refine (hev htest).andThen fun v m₁ _ _ => ?_
  refine Run.Takes.reading.andThen fun w m₂ _ _ => ?_
  split
  · exact .pure _
  · exact .of_fail

theorem takes_directive (hg : Group.Takes g.tail bodies) :
    (Statement.directive ev g).Takes bodies m := by
  unfold Statement.directive
  dsimp only
  split
  · exact .of_fail
  split
  · exact .of_fail
  refine (hev hg).andThen fun v m₁ _ _ => ?_
  refine Run.Takes.reading.andThen fun w m₂ _ _ => ?_
  split
  · refine (Run.Takes.of_unread (x := modify _) fun h => ?_).andThen fun _ m₃ _ _ =>
      (Run.Takes.write _).andThen fun _ m₄ _ _ => .pure _
    cases h
    exact ⟨rfl, rfl, rfl, rfl⟩
  · exact .of_fail

theorem takes_loop {body : Run Value} {level n : Nat} (htest : test.Takes [])
    (hbody : ∀ {m}, body.Takes [] m) : (Statement.loop ev test body level n).Takes [] m := by
  induction n generalizing m with
  | zero => exact fun _ {_ _} h => nomatch h
  | succ n ih =>
    rw [Statement.loop]
    refine .get_bind ?_
    split
    · exact .pure _
    refine (takes_condition hev htest).andThen fun holds m₁ _ _ => ?_
    split
    · refine hbody.andThen fun v m₂ _ _ => .get_bind ?_
      split
      · exact .pure _
      split
      · exact .pure _
      · exact ih
    · exact .pure _

theorem takes_repetition (hagree : runningWalk.Agree ev ev') {body : Group} {fuel : Nat}
    (hg : Statement.conditionAndBody .repetition g = .ok (test, body)) (htest : test.Takes [])
    (hbody : body.Takes []) :
    (Statement.repetition ev fuel g).Takes (if body.isEmpty then [false] else []) m := by
  -- A block is taken once, before the loop goes round, and the loop takes nothing.
  rw [Statement.repetition, hg, Run.ofExcept_ok_bind]
  dsimp only
  split
  · rw [bind_map_left]
    refine (Run.Takes.captureBlock false).andThen fun b m₁ _ _ => .get_bind ?_
    exact takes_loop hev htest (takes_runBlock hagree)
  · rw [pure_bind]
    exact .get_bind (takes_loop hev htest (hev hbody))

end

section

variable {item last next : Item} {g test body first second : Group} {bodies bodies' : List Bool}
  (hg : Statement.conditionAndBody .conditional g = .ok (test, body))
  (hagree : runningWalk.Agree ev ev')

include hev hg

include hagree in
theorem takes_conditional (hbody : body = []) (htest : test.Takes bodies) :
    (Statement.conditional ev g).Takes (bodies ++ [true]) m := by
  rw [Statement.conditional, hg, Run.ofExcept_ok_bind]
  refine (takes_condition hev htest).bind fun holds m₁ _ _ => ?_
  rw [if_pos (List.isEmpty_iff.2 hbody)]
  refine (Run.Takes.captureBlock true).andThen fun b m₂ _ _ => ?_
  split
  · exact takes_runBlock hagree
  split
  · exact takes_runBlock hagree
  · exact .pure _

theorem takes_guarded (hne : body ≠ [])
    (hbody : body.span (fun item => !item.isElse) = (body, [])) (htest : test.Takes bodies)
    (hfirst : body.Takes []) : (Statement.conditional ev g).Takes bodies m := by
  rw [Statement.conditional, hg, Run.ofExcept_ok_bind]
  refine (takes_condition hev htest).andThen fun holds m₁ _ _ => ?_
  rw [if_neg fun h => hne (List.isEmpty_iff.1 h), hbody]
  dsimp only
  split
  · exact hev hfirst
  · exact .pure _

include hagree in
theorem takes_alternative (hbody : body.span (fun item => !item.isElse) = (first, [last]))
    (htest : test.Takes bodies) (hfirst : first.Takes []) :
    (Statement.conditional ev g).Takes (bodies ++ [false]) m := by
  have hne : body ≠ [] := by
    rintro rfl
    cases hbody
  rw [Statement.conditional, hg, Run.ofExcept_ok_bind]
  refine (takes_condition hev htest).bind fun holds m₁ _ _ => ?_
  rw [if_neg fun h => hne (List.isEmpty_iff.1 h), hbody]
  refine (Run.Takes.captureBlock false).andThen fun b m₂ _ _ => ?_
  split
  · exact takes_optional hev hfirst
  · exact takes_runBlock hagree

theorem takes_branches
    (hbody : body.span (fun item => !item.isElse) = (first, last :: next :: second))
    (htest : test.Takes bodies) (hfirst : first.Takes bodies')
    (hsecond : Group.Takes (next :: second) bodies') :
    (Statement.conditional ev g).Takes (bodies ++ bodies') m := by
  have hne : body ≠ [] := by
    rintro rfl
    cases hbody
  rw [Statement.conditional, hg, Run.ofExcept_ok_bind]
  refine (takes_condition hev htest).bind fun holds m₁ _ _ => ?_
  rw [if_neg fun h => hne (List.isEmpty_iff.1 h), hbody]
  dsimp only
  split
  · exact takes_optional hev hfirst
  · exact takes_optional hev hsecond

end

/-! ## Assignments -/

section

include hev

theorem takes_assign {target : Target} {body : Group} {bodies : List Bool}
    (hbody : body.Takes bodies) :
    (Assignment.assign ev Assignment.overwrite target body).Takes bodies m := by
  have hany : ∀ (v : Value) m, runningWalk.content v m := fun _ _ =>
    ⟨.of_forall (fun _ => trivial) fun _ => trivial, trivial⟩
  have hoverwrite : ∀ {r v m}, (Assignment.overwrite r v).Takes [] m := .of_couples
    (runningWalk.lawful.gives (fun _ _ _ _ => trivial) trivial trivial trivial (hany _ _))
  have hheld : (Run.held (ev body)).Takes bodies m :=
    (hev hbody).andThen fun v m₁ _ _ => .reading
  refine hheld.andThen fun v m₁ _ _ => ?_
  split
  · exact hoverwrite
  · refine .get_bind ?_
    split
    · exact hoverwrite
    · exact .of_couples (Walk.couples_declare runningWalk.lawful trivial trivial (hany _ _))

omit hev in
theorem takes_define {target : Target} {parameters body : Group} {bodies : List Bool}
    (hbodies : bodies = if body.isEmpty then [false] else []) :
    (Assignment.define target parameters body).Takes bodies m := by
  unfold Assignment.define
  refine .get_bind ?_
  refine Run.Takes.reading.followedBy fun names m₁ _ _ => ?_
  have hdefine : ∀ {f : Function} {m}, (Run.define f).Takes [] m := by
    refine fun {f m} => .of_unread fun h => ?_
    obtain ⟨registry, hafter⟩ := Run.after_define m f
    rw [Run.after_of_ok h] at hafter
    rw [hafter]
    exact ⟨rfl, rfl, rfl, rfl⟩
  by_cases hempty : body.isEmpty
  · rw [if_pos hempty, bind_map_left]
    rw [if_pos hempty] at hbodies
    subst hbodies
    refine (Run.Takes.captureBlock false).andThen fun b m₂ _ _ => ?_
    exact hdefine.andThen fun f m₃ _ _ => .pure _
  · rw [if_neg hempty, pure_bind]
    rw [if_neg hempty] at hbodies
    subst hbodies
    exact hdefine.andThen fun f m₃ _ _ => .pure _

end

/-! ### Heads -/

/-- The blocks that a term of a head takes, given those that groups take. -/
def Term.bodies (bodies : Group → List Bool) : Term Group → List Bool
  | .group g => bodies g
  | _ => []

theorem Term.bodies_headTerm (bodies : Group → List Bool) (item : Item) :
    (Assignment.headTerm item).bodies bodies = item.bodies bodies := by
  cases item <;> rfl

section

variable {bodies : Group → List Bool} {t : Term Group}

theorem takes_mark (mark : Reference) (v : Value) : (mark.apply v).Takes [] m := by
  cases mark with
  | follow => exact .reading
  | make =>
    cases v with
    | var r =>
      refine .of_unread fun h => ?_
      cases h
      exact ⟨rfl, rfl, rfl, rfl⟩
    | _ => exact .of_fail

include hev

theorem takes_resolve (ht : ∀ g, t = .group g → g.Takes (bodies g)) :
    (Assignment.resolve ev t).Takes (t.bodies bodies) m := by
  cases t with
  | symbol s => exact .reading
  | value v => exact .pure v
  | group g => exact hev (ht g rfl)

theorem takes_target (ht : ∀ g, t = .group g → g.Takes (bodies g)) :
    (Assignment.target ev t).Takes (t.bodies bodies) m := by
  cases t with
  | symbol s =>
    rw [Assignment.target]
    split
    · exact .pure _
    · exact .of_fail
  | value v => exact .reading
  | group g => exact (hev (ht g rfl)).andThen fun v m₁ _ _ => .reading

/-- What the target takes is taken where `@` and `~` are applied to it, or else is still to be
    taken. -/
theorem takes_reduce {marks tail : List (Term Group)}
    (hmarks : ∀ u ∈ marks, (Reference.ofTerm? u).isSome = true)
    (hplain : ∀ u ∈ t :: tail, Reference.ofTerm? u = none)
    (ht : ∀ g, t = .group g → g.Takes (bodies g)) :
    ∃ taken left, taken ++ left = t.bodies bodies ∧ ∀ m,
      (Reference.reduce (Assignment.resolve ev) (marks ++ t :: tail)).Takes taken m ∧
        ∀ {row m'},
          Reference.reduce (Assignment.resolve ev) (marks ++ t :: tail) m = .ok row m' →
          ∃ u, row = u :: tail ∧ u.bodies bodies = left ∧
            ∀ g, u = .group g → g.Takes (bodies g) := by
  -- The rightmost of the symbols evaluates the target, and the others find a value.
  induction marks with
  | nil =>
    rw [List.nil_append, Reference.reduce_of_plain hplain]
    refine ⟨[], t.bodies bodies, rfl, fun m => ⟨.pure _, fun h => ?_⟩⟩
    cases h
    exact ⟨t, rfl, rfl, ht⟩
  | cons mark marks ih =>
    rw [List.forall_mem_cons] at hmarks
    obtain ⟨taken, left, hsplit, hrest⟩ := ih hmarks.2
    obtain ⟨r, hr⟩ := Option.isSome_iff_exists.1 hmarks.1
    refine ⟨t.bodies bodies, [], List.append_nil _, fun m => ⟨?_, fun {row m'} h => ?_⟩⟩
    · rw [← hsplit]
      refine (hrest m).1.bind fun row m₁ hrow _ => ?_
      obtain ⟨u, rfl, rfl, hu⟩ := (hrest m).2 hrow
      rw [hr]
      exact (takes_resolve hev hu).andThen fun v m₂ _ _ =>
        (takes_mark r v).andThen fun _ m₃ _ _ => .pure _
    · obtain ⟨row₁, m₁, hrow, h⟩ := Run.bind_eq_ok.1 h
      obtain ⟨u, rfl, -, -⟩ := (hrest m).2 hrow
      rw [hr] at h
      obtain ⟨v, m₂, -, h⟩ := Run.bind_eq_ok.1 h
      obtain ⟨w, m₃, -, h⟩ := Run.bind_eq_ok.1 h
      cases h
      exact ⟨.value w, rfl, rfl, nofun⟩

/-- First the target is evaluated, and then the right-hand side, or the body of the function is
    taken. -/
theorem takes_run {g head tail body : Group} {target eq : Item} {bodies' : List Bool}
    (hg : g.span (fun item => !item.isSymbol "=") = (head, eq :: body))
    (hhead : head.dropWhile Assignment.isReference = target :: tail)
    (htarget : ∀ g', target = .group g' → Group.Takes g' (bodies g'))
    (htail : tail = [] ∧ body.Takes bodies' ∨
      (∃ parameters, tail = [.group parameters]) ∧
        bodies' = if body.isEmpty then [false] else []) :
    (Assignment.run ev Assignment.overwrite g).Takes (target.bodies bodies ++ bodies') m := by
  have hmarks : ∀ u ∈ (head.takeWhile Assignment.isReference).map Assignment.headTerm,
      (Reference.ofTerm? u).isSome = true := by
    refine List.forall_mem_map.2 fun item hitem => ?_
    exact List.mem_takeWhile_imp (p := Assignment.isReference) hitem
  have hrow : head.map Assignment.headTerm =
      (head.takeWhile Assignment.isReference).map Assignment.headTerm ++
        Assignment.headTerm target :: tail.map Assignment.headTerm := by
    rw [← List.map_cons, ← List.map_append, ← hhead, List.takeWhile_append_dropWhile]
  have hplain : ∀ u ∈ Assignment.headTerm target :: tail.map Assignment.headTerm,
      Reference.ofTerm? u = none := by
    refine List.forall_mem_cons.2 ⟨?_, ?_⟩
    · have hfirst := List.head?_dropWhile_not Assignment.isReference head
      rw [hhead] at hfirst
      simpa [Assignment.isReference] using hfirst
    · rcases htail with ⟨rfl, -⟩ | ⟨⟨parameters, rfl⟩, -⟩ <;> simp [Assignment.headTerm, Reference.ofTerm?]
  have ht : ∀ g', Assignment.headTerm target = .group g' → g'.Takes (bodies g') := by
    intro g' h
    cases target <;> cases h
    exact htarget g' rfl
  obtain ⟨taken, left, hsplit, hreduce⟩ := takes_reduce hev hmarks hplain ht
  rw [← hrow] at hreduce
  have hne : head ≠ [] := by
    rintro rfl
    cases hhead
  rw [Assignment.run, hg, ← Term.bodies_headTerm, ← hsplit, List.append_assoc]
  rcases head with _ | ⟨first, head⟩
  · exact absurd rfl hne
  refine (hreduce m).1.bind fun row m₁ hrow₁ _ => ?_
  obtain ⟨u, rfl, rfl, hu⟩ := (hreduce m).2 hrow₁
  refine (takes_target hev hu).bind fun target m₂ _ _ => ?_
  rcases htail with ⟨rfl, hbody⟩ | ⟨⟨parameters, rfl⟩, hbodies⟩
  · simp only [List.map_nil]
    split
    · exact .of_fail
    · exact takes_assign hev hbody
  · exact takes_define hbodies

end

/-! ## Groups that give no value -/

theorem fails_assignment {give : VarRef → Value → Run Value} {g head body : Group} {eq : Item}
    (hg : g.span (fun item => !item.isSymbol "=") = (head, eq :: body))
    (hhead : Assignment.isRefused head = true) {bodies : List Bool} :
    (Assignment.run ev give g).Takes bodies m := by
  rw [Assignment.run, hg]
  rcases head with _ | ⟨first, head⟩
  · exact .of_fail
  intro _ v m' h
  obtain ⟨row, m₁, hrow, h⟩ := Run.bind_eq_ok.1 h
  rcases row with _ | ⟨t, rest⟩
  · cases h
  obtain ⟨target, m₂, -, h⟩ := Run.bind_eq_ok.1 h
  obtain ⟨item, hitem⟩ := Assignment.exists_target hrow
  rw [Assignment.isRefused, hitem] at hhead
  -- A value is only given after a target, or a target and one group.
  split at h
  · rw [Assignment.afterTarget_eq_nil hrow] at hhead
    cases hhead
  · obtain ⟨more, hmore, hnil⟩ := Assignment.afterTarget_eq_group hrow
    rw [hmore, hnil rfl] at hhead
    cases hhead
  · obtain ⟨names, m₃, -, h⟩ := Run.bind_eq_ok.1 h
    cases h
  · cases h

/-- A refused group gives no value, so nothing has been taken by one that does. -/
theorem takes_refused {bodies : List Bool} {g : Group} (hg : g.isRefused = true) {fuel : Nat} :
    (Statement.statement ev call fuel g).Takes bodies m := by
  rcases g with _ | ⟨item, g⟩
  · cases hg
  cases hk : Group.keyword? (item :: g) with
  | none => simp [Group.isRefused, hk] at hg
  | some k =>
    cases k with
    | directive =>
      simp only [Group.isRefused, hk, Bool.or_eq_true, decide_eq_true_eq] at hg
      simp only [Statement.statement, hk, Statement.directive]
      split
      · exact .of_fail
      · rw [if_pos (hg.resolve_left ‹_›)]
        exact .of_fail
    | assignment =>
      simp only [Group.isRefused, hk] at hg
      simp only [Statement.statement, hk]
      rcases hspan : g.span fun item => !item.isSymbol "=" with ⟨head, _ | ⟨eq, body⟩⟩
      · rw [Assignment.run, hspan]
        exact .of_fail
      · rw [hspan] at hg
        exact fails_assignment hspan hg
    | conditional =>
      simp only [Group.isRefused, hk] at hg
      simp only [Statement.statement, hk, Statement.conditional]
      cases hparts : Statement.conditionAndBody .conditional g with
      | error e => exact .of_fail
      | ok parts =>
        rw [hparts] at hg
        cases hg
    | repetition =>
      simp only [Group.isRefused, hk] at hg
      simp only [Statement.statement, hk, Statement.repetition]
      cases hparts : Statement.conditionAndBody .repetition g with
      | error e => exact .of_fail
      | ok parts =>
        rw [hparts] at hg
        cases hg
    | opening =>
      simp only [Group.isRefused, hk] at hg
      simp only [Statement.statement, hk, Statement.opening]
      rw [if_pos hg]
      exact .of_fail
    | _ =>
      simp only [Statement.statement, hk]
      exact .of_fail

/-! ## Statements -/

include hev in
theorem takes_statement {g : Group} {bodies : List Bool} (hg : g.Takes bodies)
    (hagree : runningWalk.Agree ev ev') (hcall : ∀ {c v bodies m}, (call c v).Takes bodies m)
    {fuel : Nat} : (Statement.statement ev call fuel g).Takes bodies m := by
  cases hg with
  | nil => exact .pure _
  | expression bodies hk hg =>
    cases g with
    | nil => exact .pure _
    | cons item g =>
      simp only [Statement.statement, hk]
      exact takes_expression hev hcall hg
  | opening hk =>
    simp only [Statement.statement, hk]
    exact takes_opening
  | directive hk hg =>
    simp only [Statement.statement, hk]
    exact takes_directive hev hg
  | assignment bodies hk hg hhead htarget hbody =>
    simp only [Statement.statement, hk]
    exact takes_run hev hg hhead htarget (.inl ⟨rfl, hbody⟩)
  | definition bodies hk hg hhead htarget =>
    simp only [Statement.statement, hk]
    exact takes_run hev hg hhead htarget (.inr ⟨⟨_, rfl⟩, rfl⟩)
  | conditional hk hg htest =>
    simp only [Statement.statement, hk]
    exact takes_conditional hev hg hagree rfl htest
  | guarded hk hg hne hbody htest hfirst =>
    simp only [Statement.statement, hk]
    exact takes_guarded hev hg hne hbody htest hfirst
  | alternative hk hg hbody htest hfirst =>
    simp only [Statement.statement, hk]
    exact takes_alternative hev hg hagree hbody htest hfirst
  | branches hk hg hbody htest hfirst hsecond =>
    simp only [Statement.statement, hk]
    exact takes_branches hev hg hbody htest hfirst hsecond
  | repetition hk hg htest hbody =>
    simp only [Statement.statement, hk]
    exact takes_repetition hev hagree hg htest hbody
  | refused hg => exact takes_refused hg

end

theorem evaluate_takes {g : Group} {bodies : List Bool} (hg : g.Takes bodies) (fuel : Nat)
    {m : Machine} : (callFreeWatch.evaluate fuel g).Takes bodies m := by
  induction fuel generalizing g bodies m with
  | zero => exact fun _ {_ _} h => nomatch h
  | succ fuel ih =>
    rw [Watch.evaluate,
      Watch.statement_of_calls _ (fun _ => rfl) (fun _ _ _ => rfl) fun _ => rfl]
    refine .checked fun _ => takes_statement (fun hg => ih hg) hg (runningWalk.agree fuel) ?_
    intro c v bodies m hc
    refine Run.Takes.checked (fun h => ?_) hc
    simp [callFreeWatch, hc] at h

/-- The statement on a line calls nothing itself, but for the blocks that it takes,
    and nothing at all takes lines of the source as input. -/
def Interpreter.CallFree (fuel : Nat) (line : String) (m : Machine) : Prop :=
  ∀ m', Call.evaluateLine (callFreeWatch.evaluate fuel) line m ≠ .error .outOfFuel m'

theorem evaluateLine_takes {line : String} {g : Group} {bodies : List Bool}
    (hline : Group.ofLine (Text.trim line) = .ok g) (hg : g.Takes bodies) (fuel : Nat)
    {m : Machine} : (Call.evaluateLine (callFreeWatch.evaluate fuel) line).Takes bodies m := by
  cases g with
  | nil =>
    rcases Call.evaluateLine_of_ofLine_nil (callFreeWatch.evaluate fuel) hline with h | h
    · rw [h, hg.eq_nil]
      exact .pure _
    · exact h ▸ evaluate_takes hg fuel
  | cons item g => exact Call.evaluateLine_of_ofLine _ hline ▸ evaluate_takes hg fuel

theorem interpret_takes {line : String} {g : Group} {bodies : List Bool}
    (hline : Group.ofLine (Text.trim line) = .ok g) (hg : g.Takes bodies) {fuel : Nat}
    {m m' : Machine} {v : Value} (hc : m.cursors = [])
    (hrun : Interpreter.interpret fuel line m = .ok (.ok v) m')
    (hfree : Interpreter.CallFree fuel line m) :
    m'.source = (m.source.past bodies).1 ∧ m'.line = m.line + (m.source.past bodies).2 := by
  have hrun := Interpreter.evaluateLine_of_interpret hrun
  rw [← Watch.evaluateLine_eq _ hfree] at hrun
  exact (evaluateLine_takes hline hg fuel hc hrun).2

/-- Where it can be told from the text which blocks a statement takes (`Group.exists_takes`), it
    takes the same lines from any two machines that have the same lines to read, provided that
    it gives a value in both. -/
theorem statement_takes_same_lines {line : String} {g : Group} {bodies : List Bool}
    (hline : Group.ofLine (Text.trim line) = .ok g) (hg : g.Takes bodies)
    {m₁ m₂ m₁' m₂' : Machine} {fuel₁ fuel₂ : Nat} {v₁ v₂ : Value} (hc₁ : m₁.cursors = [])
    (hc₂ : m₂.cursors = []) (hs : m₂.source = m₁.source)
    (hrun₁ : Interpreter.interpret fuel₁ line m₁ = .ok (.ok v₁) m₁')
    (hrun₂ : Interpreter.interpret fuel₂ line m₂ = .ok (.ok v₂) m₂')
    (hfree₁ : Interpreter.CallFree fuel₁ line m₁) (hfree₂ : Interpreter.CallFree fuel₂ line m₂) :
    m₂'.source = m₁'.source ∧ m₂'.line - m₂.line = m₁'.line - m₁.line := by
  obtain ⟨hsource₁, hline₁⟩ := interpret_takes hline hg hc₁ hrun₁ hfree₁
  obtain ⟨hsource₂, hline₂⟩ := interpret_takes hline hg hc₂ hrun₂ hfree₂
  rw [hs] at hsource₂ hline₂
  exact ⟨hsource₂.trans hsource₁.symm, by omega⟩

/-- The start of a program with a variable `c`. -/
def Machine.withFlag (c : Bool) (lines : List String) : Machine :=
  ((start (.ofLines lines) (fun _ => .error .notFound) (mkStdGen 0)).declare "c" (.boolean c)).2

/-- The body of an `if` is taken whether it is run or not. -/
theorem statement_takes_same_lines_if :
    let m c := Machine.withFlag c ["2", "end", "3"]
    ∃ v₁ v₂ m₁ m₂, Interpreter.interpret 9 "if c," (m true) = .ok (.ok v₁) m₁ ∧
      Interpreter.interpret 9 "if c," (m false) = .ok (.ok v₂) m₂ ∧ m₂.source = m₁.source := by
  intro m
  have hline : Group.ofLine (Text.trim "if c,") = .ok [.symbol "if", .symbol "c", .symbol ","] :=
    rfl
  have htest : Group.Takes [.symbol "c"] [] :=
    .expression (fun _ => []) rfl fun g' h => by simp at h
  have hfree : ∀ c, Interpreter.CallFree 9 "if c," (m c) := by
    intro c m' h
    cases c <;> cases h
  obtain ⟨v₁, m₁, hrun₁⟩ : ∃ v m', Interpreter.interpret 9 "if c," (m true) = .ok (.ok v) m' :=
    ⟨_, _, rfl⟩
  obtain ⟨v₂, m₂, hrun₂⟩ : ∃ v m', Interpreter.interpret 9 "if c," (m false) = .ok (.ok v) m' :=
    ⟨_, _, rfl⟩
  have hsource : (m false).source = (m true).source := rfl
  have hsame := statement_takes_same_lines hline (.conditional rfl rfl htest) rfl rfl hsource hrun₁
    hrun₂ (hfree true) (hfree false)
  exact ⟨v₁, v₂, m₁, m₂, hrun₁, hrun₂, hsame.1⟩

/-- The blocks in memory after a statement that gives a value. -/
def Interpreter.blocksAfter (fuel : Nat) (line : String) (m : Machine) : Option (Array Block) :=
  match interpret fuel line m with
  | .ok (.ok _) m' => some m'.memory.blocks
  | _ => none

/-- A block in a branch is only taken if the branch is evaluated. And where a body
    reads a line, the block after it starts one line later. -/
theorem begin_in_branch_takes_lines :
    (let lines := ["print(1)", "end"]
      let m c := Machine.withFlag c lines
      (∀ c, Interpreter.CallFree 9 "if c, begin" (m c)) ∧
        (∃ v m', Interpreter.interpret 9 "if c, begin" (m true) = .ok (.ok v) m' ∧
          m'.source = .ofLines []) ∧
        ∃ v m', Interpreter.interpret 9 "if c, begin" (m false) = .ok (.ok v) m' ∧
          m'.source = .ofLines lines) ∧
      let m c := Machine.withFlag c ["if c, read_string()", "end", "x", "end"]
      Interpreter.blocksAfter 9 "(if yes,), (begin)" (m true) = some #[⟨[], none, false⟩] ∧
        Interpreter.blocksAfter 9 "(if yes,), (begin)" (m false) =
          some #[⟨["x"], none, false⟩] := by
  refine ⟨⟨fun c m' h => ?_, ⟨_, _, rfl, rfl⟩, _, _, rfl, rfl⟩, ?_, ?_⟩
  · cases c <;> cases h
  · decide +kernel
  · decide +kernel

end Linewise
