import Linewise.Proofs.Chain
import Linewise.Proofs.Ending
import Linewise.Proofs.Name
import Linewise.Proofs.Reference

/-!
# Expressions without calls

A tree has no calls in it if none of its groups is a statement with a keyword, and none has
an argument right after what could be called (`Group.CallFree`). Whatever the machine is, its
evaluation ends, and does nothing to the machine but add the variables that `@` makes
(`Group.CallFree.grows`): by induction on the tree, and within a group along the passes, of
which only that for groups and that for references do anything but look.

An assignment with such a right-hand side is atomic (`let_atomic`). What is assigned
to is settled first, then the right-hand side is evaluated, then the variable is checked, and
the last thing that is done is to write the variable or to make it; everything before that may
fail and leaves the machine as it was, but for more variables.
-/

namespace Linewise

open Coupling Filter

/-! ## Trees without calls -/

/-- What an item stands for may be called. -/
def Item.mayBeCalled : Item → Bool
  | .symbol s => Symbol.isName s
  | .text _ => true
  | .group _ => true

/-- The item is an argument of what stands before it, if that can be called. -/
def Item.isArgument : Item → Bool
  | .symbol _ => false
  | .text _ => true
  | .group _ => true

/-- No group of the tree starts with a keyword, and in none does an argument follow what may
    be called. -/
inductive Group.CallFree : Group → Prop
  | intro {g : Group} (keyword : g.keyword? = none)
    (apart : g.IsChain fun item next => item.mayBeCalled = true → next.isArgument = false)
    (inner : ∀ g', .group g' ∈ g → CallFree g') : CallFree g

/-! ## Machines with more variables -/

/-- The machine has more variables, and is otherwise the same. -/
def Machine.Grows (m m' : Machine) : Prop :=
  ∃ new : Array Variable, m' = { m with memory := { m.memory with vars := m.memory.vars ++ new } }

namespace Machine.Grows

variable {m m₁ m₂ : Machine}

theorem refl (m : Machine) : m.Grows m :=
  ⟨#[], by rw [Array.append_empty]⟩

theorem trans (h : m.Grows m₁) (h' : m₁.Grows m₂) : m.Grows m₂ := by
  obtain ⟨new, rfl⟩ := h
  obtain ⟨new', rfl⟩ := h'
  exact ⟨new ++ new', by rw [Array.append_assoc]⟩

/-- A variable that was there before is what it was. -/
theorem get?_eq (h : m.Grows m') {r : VarRef} (hr : r.index < m.memory.vars.size) :
    m'.memory.get? r = m.memory.get? r := by
  obtain ⟨new, rfl⟩ := h
  exact Array.getElem?_append_left hr

theorem size_le (h : m.Grows m₁) : m.memory.vars.size ≤ m₁.memory.vars.size := by
  obtain ⟨new, rfl⟩ := h
  rw [Array.size_append]
  exact Nat.le_add_right ..

end Machine.Grows

/-- An evaluation that only adds variables. -/
def growingCoupling : Coupling where
  twin := id
  holds _ := True
  leads := Machine.Grows
  lenient := False

namespace growingCoupling

theorem ordered : growingCoupling.Ordered where
  refl := Machine.Grows.refl
  trans := Machine.Grows.trans

end growingCoupling

open growingCoupling

/-- With enough fuel, the step ends and has only added variables. -/
abbrev Run.Grows {α : Type} (x : Nat → Run α) (m : Machine) : Prop :=
  growingCoupling.Ends (fun _ _ => True) x m

variable {ev : Nat → Group → Run Value} {call : Nat → Callable → Value → Run Value}
  {m m' : Machine}

/-! ## The passes -/

theorem grows_apply (mark : Reference) (v : Value) : Run.Grows (fun _ => mark.apply v) m := by
  cases mark with
  | follow => exact ends_reading ordered trivial fun _ _ => trivial
  | make =>
    cases v with
    | var r => exact .ok (.of_forall fun _ => rfl) trivial ⟨#[_], rfl⟩ trivial
    | _ => exact ends_fail ordered trivial _

theorem grows_reduce {γ : Type} {resolve : Nat → Term γ → Run Value}
    (hres : ∀ t m, Run.Grows (fun n => resolve n t) m) (row : List (Term γ)) :
    Run.Grows (fun n => Reference.reduce (resolve n) row) m := by
  induction row with
  | nil => exact ends_pure ordered trivial trivial
  | cons t row ih =>
    simp only [Reference.reduce]
    refine ih.bind ordered fun row m₁ _ _ _ => ?_
    cases Reference.ofTerm? t with
    | none => exact ends_pure ordered trivial trivial
    | some mark =>
      cases row with
      | nil => exact ends_fail ordered trivial _
      | cons x row =>
        refine (hres x m₁).bind ordered fun v m₂ _ _ _ => ?_
        refine (grows_apply mark v).bind ordered fun w m₃ _ _ _ => ?_
        exact ends_pure ordered trivial trivial

/-- By induction on the items that are left. No argument follows what may be called, so that
    nothing is called, whatever the names before stand for. -/
theorem grows_applied {done : Row} {g : Group}
    (hdone : ∀ f ∈ done.head?, ∀ item ∈ g.head?, item.isArgument = true →
      ∀ m, Statement.callable? m f = none)
    (hapart : g.IsChain fun item next => item.mayBeCalled = true → next.isArgument = false)
    (hg : ∀ g', .group g' ∈ g → ∀ m, Run.Grows (fun n => ev n g') m) :
    Run.Grows (fun n => Statement.applied (ev n) (call n) done g) m := by
  induction g generalizing done m with
  | nil => exact ends_pure ordered trivial trivial
  | cons item g ih =>
    have hrest {t : Term Empty}
        (ht : item.mayBeCalled = false → ∀ m, Statement.callable? m t = none) (m : Machine) :
        Run.Grows (fun n => Statement.applied (ev n) (call n) (t :: done) g) m := by
      refine ih ?_ hapart.tail fun g' hg' => hg g' (List.mem_cons_of_mem _ hg')
      rintro _ ⟨⟩ next hnext hargument
      refine ht (Bool.eq_false_iff.2 fun hcalled => ?_)
      cases g with
      | nil => cases hnext
      | cons _ g =>
        cases hnext
        rw [(List.isChain_cons_cons.1 hapart).1 hcalled] at hargument
        cases hargument
    cases item with
    | symbol s =>
      refine (hrest (t := .symbol s) ?_ m).congr (.of_forall fun _ => Statement.applied_symbol s)
      exact fun hs => Tree.callable?_symbol hs
    | text s =>
      have hcons (n : Nat) : Statement.applied (ev n) (call n) done (.text s :: g) = _ :=
        Statement.applied_cons (fun f hf => hdone f hf _ rfl rfl) (.text s) g
      simp only [hcons]
      exact Ends.bind ordered (P := fun _ _ => True) (ends_pure ordered trivial trivial)
        fun t m₁ _ _ _ => hrest nofun m₁
    | group g' =>
      have hcons (n : Nat) : Statement.applied (ev n) (call n) done (.group g' :: g) = _ :=
        Statement.applied_cons (fun f hf => hdone f hf _ rfl rfl) (.group g') g
      simp only [hcons]
      refine Ends.bind ordered (P := fun _ _ => True) ?_ fun t m₁ _ _ _ => hrest nofun m₁
      exact (hg g' List.mem_cons_self m).bind ordered fun v m₁ _ _ _ =>
        ends_pure ordered trivial trivial

/-- The evaluation of a tree without calls ends and only adds variables. -/
theorem Group.CallFree.grows {g : Group} (hg : g.CallFree) (m : Machine) :
    Run.Grows (fun n => evaluate n g) m := by
  induction hg generalizing m with
  | @intro g keyword apart inner ih =>
    refine .of_succ ?_
    cases g with
    | nil => exact ends_pure ordered trivial trivial
    | cons item g =>
      simp only [evaluate, Statement.statement_eq_expression (List.cons_ne_nil item g) keyword]
      have hnone : ∀ f ∈ ([] : Row).head?, ∀ next ∈ (item :: g).head?, next.isArgument = true →
          ∀ m, Statement.callable? m f = none := fun f hf => absurd hf (Option.not_mem_none f)
      refine (grows_applied hnone apart ih).bind ordered fun row m₁ _ _ _ => ?_
      refine (grows_reduce (fun _ _ => ?_) row).bind ordered fun row m₂ _ _ _ => ?_
      · exact ends_reading ordered trivial fun _ _ => trivial
      · exact ends_reading ordered trivial fun _ _ => trivial

/-! ## Assignments -/

/-- What `x` with a number of `~` before it stands for. -/
def Reference.followed (m : Machine) (x : String) : Nat → Except Fault Value
  | 0 => m.lookup x
  | n + 1 => followed m x n >>= followFrom m.memory

/-- What `x` with a number of `~` before it is as the target of an assignment. -/
def Assignment.targetOf (m : Machine) (x : String) : Nat → Except Fault Target
  | 0 => .ok (.name x)
  | n + 1 => Reference.followed m x (n + 1) >>= targetOfValue m.memory

namespace Assignment

variable {x : String} {ev : Group → Run Value} {give : VarRef → Value → Run Value}

theorem reduce_follow {row : List (Term Group)} {t : Term Group} {r : Except Fault Value}
    (hrow : Reference.reduce (resolve ev) row m = .ok [t] m)
    (ht : resolve ev t m = Run.ofExcept r m) :
    Reference.reduce (resolve ev) (.symbol Reference.follow.symbol :: row) m =
      Run.ofExcept ((fun v => [.value v]) <$> (r >>= Reference.followFrom m.memory)) m := by
  rw [Reference.reduce, Run.bind_of_ok hrow, Reference.ofTerm?_symbol]
  cases r with
  | error f => exact Run.bind_eq_error.2 (.inl ht)
  | ok v =>
    dsimp only
    rw [Run.bind_of_ok ht]
    simp only [Reference.apply, Run.reading, Run.ofExcept, Bind.bind, EStateM.bind, Except.bind]
    cases Reference.followFrom m.memory v <;> rfl

/-- The value that the symbols before a name come down to. -/
theorem reduce_followed (hx : Symbol.isName x = true) (n : Nat) (m : Machine) :
    Reference.reduce (resolve ev)
      (List.replicate (n + 1) (.symbol Reference.follow.symbol) ++ [.symbol x]) m =
      Run.ofExcept ((fun v => [.value v]) <$> Reference.followed m x (n + 1)) m := by
  induction n with
  | zero =>
    have hself : Reference.reduce (resolve ev) [.symbol x] m = .ok [.symbol x] m :=
      Reference.reduce_eq_self (List.forall_mem_singleton.2 (Symbol.ofTerm?_of_isName hx)) m
    exact reduce_follow hself rfl
  | succ n ih =>
    rw [List.replicate_succ, List.cons_append, Reference.followed]
    cases hv : Reference.followed m x (n + 1) with
    | error f =>
      rw [hv] at ih
      rw [Reference.reduce]
      exact Run.bind_eq_error.2 (.inl ih)
    | ok v =>
      rw [hv] at ih
      exact reduce_follow ih rfl

theorem headTerm_referred (marks : List Reference) (x : String) :
    (Group.referred marks x).map headTerm =
      marks.map (fun mark => .symbol mark.symbol) ++ [.symbol x] := by
  rw [Group.referred, List.map_append, List.map_map]
  rfl

theorem isSymbol_equals_referred (hx : Symbol.isName x = true) {marks : List Reference} :
    ∀ item ∈ Group.referred marks x, item.isSymbol "=" = false := by
  have hne : x ≠ "=" := (Symbol.IsOperand.of_isName hx).ne (by decide)
  rw [Group.referred, List.forall_mem_append, List.forall_mem_map, List.forall_mem_singleton]
  refine ⟨fun mark _ => by cases mark <;> rfl, ?_⟩
  exact beq_eq_false_iff_ne.2 fun h => hne (Option.some.inj h)

/-- The target is settled before anything else. -/
theorem run_referred (hx : Symbol.isName x = true) (n : Nat) (body : Group) (m : Machine) :
    run ev give (Group.referred (List.replicate n .follow) x ++ .symbol "=" :: body) m =
      (Run.ofExcept (targetOf m x n) >>= fun target =>
        if body.isEmpty then Run.fail .missingValue else assign ev give target body) m := by
  cases n with
  | zero => exact run_name hx body m
  | succ n =>
    have hspan : (Group.referred (List.replicate (n + 1) .follow) x ++ .symbol "=" :: body).span
        (fun item => !item.isSymbol "=") =
        (Group.referred (List.replicate (n + 1) .follow) x, .symbol "=" :: body) :=
      Part.span_append_cons (fun item hi => by rw [isSymbol_equals_referred hx item hi]; rfl)
        (by decide)
    have hcons : Group.referred (List.replicate (n + 1) .follow) x =
        .symbol Reference.follow.symbol :: Group.referred (List.replicate n .follow) x := rfl
    have hreduce : Reference.reduce (resolve ev)
        (List.replicate (n + 1) (.symbol Reference.follow.symbol) ++ [.symbol x]) m = _ :=
      reduce_followed hx n m
    rw [← List.map_replicate (f := fun mark : Reference => Term.symbol mark.symbol),
      ← headTerm_referred] at hreduce
    rw [run, hspan, hcons]
    dsimp only
    rw [← hcons, targetOf]
    cases hv : Reference.followed m x (n + 1) with
    | error f =>
      rw [hv] at hreduce
      exact Run.bind_eq_error.2 (.inl hreduce)
    | ok v =>
      rw [hv] at hreduce
      rw [Run.bind_of_ok hreduce]
      exact Run.bind_congr rfl fun _ _ _ => rfl

end Assignment

/-- The machine after giving the value to the target, and the variable that has it now. -/
inductive Assigned (target : Target) (v : Value) (m : Machine) : VarRef → Machine → Prop
  | overwritten {r : VarRef} (h : target.existing? m = some r) :
    Assigned target v m r { m with memory := m.memory.write r v }
  | declared {s : String} (ht : target = .name s) (hnone : m.frames.find? s = none) :
    Assigned target v m (m.declare s v).1 (m.declare s v).2

/-- No other variable is changed. -/
theorem Assigned.get?_eq {target : Target} {v : Value} {r s : VarRef}
    (h : Assigned target v m r m') (hs : s.index < m.memory.vars.size) (hne : s ≠ r) :
    m'.memory.get? s = m.memory.get? s := by
  cases h with
  | overwritten =>
    exact Memory.get?_write_of_ne _ hne v
  | declared => exact (Memory.get?_addVariable ..).trans (if_neg (Nat.ne_of_lt hs))

/-- The value is read back. -/
theorem Assigned.read_eq {target : Target} {v : Value} {r : VarRef}
    (h : Assigned target v m r m') (hr : r.index < m'.memory.vars.size) : m'.memory.read r = v := by
  cases h with
  | overwritten => exact Memory.read_write_self (Memory.size_write ▸ hr)
  | declared => exact Memory.read_addVariable_self

namespace Assignment

variable {w : Value} {m₁ : Machine}

/-- How the right-hand side came to its value makes no difference. -/
theorem assign_of_body {ev : Group → Run Value} {body : Group} (target : Target)
    (hbody : ev body m = .ok w m₁) :
    assign ev overwrite target body m = assign (fun _ => pure w) overwrite target body m₁ := by
  have hheld : Run.held (ev body) m = .ok (m₁.memory.held w) m₁ :=
    Run.bind_eq_ok.2 ⟨w, m₁, hbody, rfl⟩
  rw [assign, Run.bind_of_ok hheld]
  rfl

/-- The value is checked, and then given to the target in one step. -/
theorem assign_atomic (ev : Group → Run Value) (target : Target) (body : Group)
    (hbody : ev body m = .ok w m₁) :
    (∃ f, assign ev overwrite target body m = .error (.fault f) m₁) ∨
      ∃ r m₂, Assigned target (m₁.memory.held w) m₁ r m₂ ∧
        assign ev overwrite target body m = .ok (.var r) m₂ := by
  cases hr : target.existing? m₁ with
  | some r =>
    rw [assign_existing hbody hr]
    by_cases h : m₁.memory.Accepts r (m₁.memory.held w)
    · exact .inr ⟨r, _, .overwritten hr, overwrite_of_accepts h⟩
    · obtain ⟨f, hf, -⟩ := overwrite_of_not_accepts h
      exact .inl ⟨f, hf⟩
  | none =>
    rcases target with s | r
    · exact .inr ⟨_, _, .declared rfl hr, assign_new hbody hr⟩
    · cases hr

end Assignment

/-! ## Main result -/

/-- With enough fuel, the step comes to this result. -/
def Run.Settles {α : Type} (x : Nat → Run α) (m : Machine)
    (r : EStateM.Result Interrupt Machine α) : Prop :=
  ∃ n, ∀ k ≥ n, x k m = r

theorem Run.settles_iff {α : Type} {x : Nat → Run α} {r : EStateM.Result Interrupt Machine α} :
    Run.Settles x m r ↔ ∀ᶠ k in atTop, x k m = r :=
  eventually_atTop.symm

theorem Run.settles_of_succ {α : Type} {x : Nat → Run α}
    {r : EStateM.Result Interrupt Machine α} (h : ∀ᶠ k in atTop, x (k + 1) m = r) :
    Run.Settles x m r := by
  rwa [Run.settles_iff, ← map_add_atTop_eq_nat 1, eventually_map]

/-- What is assigned, `x` with a number of `~` before it. -/
def Group.letReferred (n : Nat) (x : String) (body : Group) : Group :=
  .symbol "let" :: (Group.referred (List.replicate n .follow) x ++ .symbol "=" :: body)

theorem evaluate_letReferred {x : String} (hx : Symbol.isName x = true) (n fuel : Nat)
    (body : Group) (m : Machine) :
    evaluate (fuel + 1) (.letReferred n x body) m =
      (Run.ofExcept (Assignment.targetOf m x n) >>= fun target =>
        if body.isEmpty then Run.fail .missingValue
        else Assignment.assign (evaluate fuel) Assignment.overwrite target body) m := by
  have hkeyword : (Group.letReferred n x body).keyword? = some .assignment := rfl
  rw [evaluate, Statement.statement_of_assignment hkeyword]
  exact Assignment.run_referred hx n body m

/-- The target is settled, and then the right-hand side is evaluated, before anything is
    assigned. -/
theorem let_atomic {x : String} {E : Group} (hx : Symbol.isName x = true) (hE : E.CallFree)
    (n : Nat) (m : Machine) :
    (∃ f m', m.Grows m' ∧
      Run.Settles (evaluate · (.letReferred n x E)) m (.error (.fault f) m')) ∨
    ∃ target w m₁ r m₂, Assignment.targetOf m x n = .ok target ∧
      Run.Settles (evaluate · E) m (.ok w m₁) ∧ m.Grows m₁ ∧
      Assigned target (m₁.memory.held w) m₁ r m₂ ∧
      Run.Settles (evaluate · (.letReferred n x E)) m (.ok (.var r) m₂) := by
  have hlet := fun k => evaluate_letReferred hx n k E m
  cases htarget : Assignment.targetOf m x n with
  | error f =>
    rw [htarget] at hlet
    exact .inl ⟨f, m, .refl m, Run.settles_of_succ (.of_forall hlet)⟩
  | ok target =>
    rw [htarget] at hlet
    change ∀ k, _ = (if E.isEmpty then Run.fail .missingValue
      else Assignment.assign (evaluate k) Assignment.overwrite target E) m at hlet
    by_cases hempty : E.isEmpty
    · simp only [if_pos hempty] at hlet
      exact .inl ⟨.missingValue, m, .refl m, Run.settles_of_succ (.of_forall hlet)⟩
    simp only [if_neg hempty] at hlet
    cases hE.grows m with
    | @fault f m' hf _ hgrows =>
      refine .inl ⟨f, m', hgrows, Run.settles_of_succ (hf.mono fun k hk => (hlet k).trans ?_)⟩
      exact Run.bind_eq_error.2 (.inl (Run.bind_eq_error.2 (.inl hk)))
    | @ok w m₁ hw _ hgrows =>
      have hassign := hw.mono fun k hk => (hlet k).trans (Assignment.assign_of_body target hk)
      rcases Assignment.assign_atomic (fun _ => pure w) target E rfl with
        ⟨f, hf⟩ | ⟨r, m₂, hassigned, hr⟩
      · rw [hf] at hassign
        exact .inl ⟨f, m₁, hgrows, Run.settles_of_succ hassign⟩
      · rw [hr] at hassign
        exact .inr ⟨target, w, m₁, r, m₂, rfl, Run.settles_iff.2 hw, hgrows, hassigned,
          Run.settles_of_succ hassign⟩

/-- The evaluation of a tree without calls ends, and whether it fails or not it leaves the
    machine as it was, but for more variables. An assignment of such a tree to a name, or to
    what a name refers to, fails and leaves the machine so too, or gives the value to its target,
    which holds it then, and changes no other variable, nor anything else. -/
theorem call_free_atomic (m : Machine) {E : Group} (hE : E.CallFree) :
    (∃ m', m.Grows m' ∧
      ((∃ v, Run.Settles (evaluate · E) m (.ok v m')) ∨
        ∃ f, Run.Settles (evaluate · E) m (.error (.fault f) m'))) ∧
    ∀ n x, Symbol.isName x = true →
      (∃ f m', m.Grows m' ∧
        Run.Settles (evaluate · (.letReferred n x E)) m (.error (.fault f) m')) ∨
      ∃ target w m₁ r m₂, Assignment.targetOf m x n = .ok target ∧
        Run.Settles (evaluate · E) m (.ok w m₁) ∧ m.Grows m₁ ∧
        Assigned target (m₁.memory.held w) m₁ r m₂ ∧
        Run.Settles (evaluate · (.letReferred n x E)) m (.ok (.var r) m₂) ∧
        (r.index < m₂.memory.vars.size → m₂.memory.read r = m₁.memory.held w) ∧
        ∀ s : VarRef, s.index < m.memory.vars.size → s ≠ r →
          m₂.memory.get? s = m.memory.get? s := by
  refine ⟨?_, fun n x hx => ?_⟩
  · cases hE.grows m with
    | ok hv _ hgrows => exact ⟨_, hgrows, .inl ⟨_, Run.settles_iff.2 hv⟩⟩
    | fault hf _ hgrows => exact ⟨_, hgrows, .inr ⟨_, Run.settles_iff.2 hf⟩⟩
  · refine (let_atomic hx hE n m).imp id ?_
    rintro ⟨target, w, m₁, r, m₂, htarget, hw, hgrows, hassigned, hlet⟩
    refine ⟨target, w, m₁, r, m₂, htarget, hw, hgrows, hassigned, hlet, hassigned.read_eq,
      fun s hs hne => ?_⟩
    exact (hassigned.get?_eq (hs.trans_le hgrows.size_le) hne).trans (hgrows.get?_eq hs)

/-- An assignment to the variable that `r` refers to. -/
theorem call_free_atomic_reference :
    let m := (((Machine.start (.script []) (fun _ => .error .notFound) (mkStdGen 0)).declare
      "y" (.integer 5)).2.declare "r" (.var ⟨0⟩)).2
    let E : Group := [.group [.symbol "@", .symbol "y"], .symbol ",", .text "a"]
    Group.ofLine "let ~r = (@y), \"a\"" = .ok (.letReferred 1 "r" E) ∧
      E.CallFree ∧ Symbol.isName "r" = true ∧
      Assignment.targetOf m "r" 1 = .ok (.variable ⟨0⟩) ∧
      ((∃ f m', m.Grows m' ∧
        Run.Settles (evaluate · (.letReferred 1 "r" E)) m (.error (.fault f) m')) ∨
      ∃ target w m₁ r m₂, Assignment.targetOf m "r" 1 = .ok target ∧
        Run.Settles (evaluate · E) m (.ok w m₁) ∧ m.Grows m₁ ∧
        Assigned target (m₁.memory.held w) m₁ r m₂ ∧
        Run.Settles (evaluate · (.letReferred 1 "r" E)) m (.ok (.var r) m₂) ∧
        (r.index < m₂.memory.vars.size → m₂.memory.read r = m₁.memory.held w) ∧
        ∀ s : VarRef, s.index < m.memory.vars.size → s ≠ r →
          m₂.memory.get? s = m.memory.get? s) := by
  intro m E
  have hinner : Group.CallFree [.symbol "@", .symbol "y"] :=
    .intro rfl (by decide) (by simp)
  have hE : E.CallFree := .intro rfl (by decide) (by simpa [E] using hinner)
  have hname : Symbol.isName "r" = true := by decide
  have htarget : Assignment.targetOf m "r" 1 = .ok (.variable ⟨0⟩) := by rfl
  exact ⟨by cbv, hE, hname, htarget, (call_free_atomic m hE).2 1 "r" hname⟩

end Linewise
