import Linewise.Proofs.Nesting
import Linewise.Proofs.Store

/-!
# Memory without cycles

Before a program starts there are no variables, and all that it does to them is to
declare new ones and to give others new values. So its memory stays acyclic, unless
it gives a variable a value that leads back to it by a list, which is not refused
(`assignment_closes_cycle`). Where it never does (`listLoopWatch`), memory is acyclic
after every statement and on the way (`memory_stays_acyclic`).

* `Scope.Sound`: there is no cycle, and all references are to variables in memory;
* `Watch.Reaches`: the machines that a program comes to.
-/

namespace Linewise

open Relation

/-! ## Scopes -/

/-- Memory is acyclic, and all variables that a program can get hold of are in
    there. -/
structure Scope.Sound (s : Scope) : Prop where
  acyclic : s.memory.Acyclic
  selfContained : s.memory.SelfContained
  top : s.frames.top.Within (·.index < s.memory.vars.size)
  below : ∀ f ∈ s.frames.below, f.Within (·.index < s.memory.vars.size)
  intact : s.memory.registry.Intact

theorem Scope.sound_iff {s : Scope} : s.Sound ↔ s.memory.Acyclic ∧ s.Contained :=
  ⟨fun h => ⟨h.acyclic, h.selfContained, h.top, h.below, h.intact⟩,
    fun ⟨hacyclic, h⟩ => ⟨hacyclic, h.selfContained, h.top, h.below, h.intact⟩⟩

theorem Scope.Sound.unbounded {s : Scope} (h : s.Sound) : s.memory.Unbounded :=
  h.acyclic.unbounded h.selfContained

/-- Before a program starts there is no variable. -/
theorem Machine.sound_start (source : Source) (files : Files) (world : World) :
    (start source files world).toScope.Sound := by
  refine Scope.sound_iff.2 ⟨fun r hr => ?_, contained_start source files world⟩
  obtain ⟨s, hs, -⟩ := TransGen.head'_iff.1 hr
  exact nomatch hs

/-- No cycle comes about if no variable is given a value that leads to it by a list. -/
theorem Memory.acyclic_invariant :
    Invariant Acyclic fun r v m => ¬m.LeadsByList r v where
  congr hvars h := h.congr hvars
  addVariable h hclosed hw := h.addVariable hclosed hw
  write h hr hcheck hlist := (acyclic_write_iff h hr hcheck).2 hlist

/-! ## The walk -/

/-- Along this walk memory stays acyclic. -/
def acyclicWalk : Walk where
  twin := id
  holds m := m.toScope.Sound
  leads m m' := m.memory.vars.size ≤ m'.memory.vars.size
  lenient := True
  var r m := r.index < m.memory.vars.size
  overwrites r v m := ¬m.memory.LeadsByList r v

namespace acyclicWalk

theorem eq_storeWalk :
    acyclicWalk = storeWalk Memory.Acyclic (fun r v m => ¬m.LeadsByList r v) True := by
  have hholds : (fun m : Machine => m.toScope.Sound) =
      fun m => m.memory.Acyclic ∧ m.toScope.Contained :=
    funext fun m => propext Scope.sound_iff
  rw [acyclicWalk, storeWalk, hholds]

theorem lawful : acyclicWalk.Lawful :=
  eq_storeWalk ▸ storeWalk.lawful Memory.acyclic_invariant

theorem contains {m : Machine} {v : Value} (hv : acyclicWalk.value v m) : m.memory.Contains v :=
  hv.1.imp (fun _ => id) fun _ => id

end acyclicWalk

/-! ## Statements -/

/-- The statement on a line ends, and passes all checks. -/
def Watch.Admits (w : Watch) (fuel : Nat) (line : String) (m : Machine) : Prop :=
  ∀ m', Call.evaluateLine (w.evaluate fuel) line m ≠ .error .outOfFuel m'

instance (w : Watch) (fuel : Nat) (line : String) (m : Machine) :
    Decidable (w.Admits fuel line m) :=
  match h : Call.evaluateLine (w.evaluate fuel) line m with
  | .ok _ _ => .isTrue fun _ h' => nomatch h.symm.trans h'
  | .error (.fault _) _ => .isTrue fun _ h' => nomatch h.symm.trans h'
  | .error .outOfFuel m' => .isFalse fun hadmits => hadmits m' h

/-- The machines that a program comes to from `m`, by reading lines and by statements
    that pass all checks. -/
inductive Watch.Reaches (w : Watch) (m : Machine) : Machine → Prop
  | refl : Reaches w m m
  | read {m' : Machine} : Reaches w m m' → Reaches w m (Interpreter.readStatement.after m')
  | statement {m' : Machine} {fuel : Nat} {line : String} :
      Reaches w m m' → w.Admits fuel line m' →
      Reaches w m ((Interpreter.interpret fuel line).after m')

open Classical in
/-- No variable is given a value that leads to it by a list. -/
noncomputable def listLoopWatch : Watch where
  overwrite r v m := !decide (m.memory.LeadsByList r v)

open Classical in
/-- In addition, memory is acyclic and no bound is reached, wherever a group is
    evaluated, something is called or a variable is given a value. -/
noncomputable def acyclicWatch : Watch where
  group m := decide (m.memory.Acyclic ∧ m.memory.Unbounded)
  call _ m := decide (m.memory.Acyclic ∧ m.memory.Unbounded)
  assign m := decide (m.memory.Acyclic ∧ m.memory.Unbounded)
  overwrite := listLoopWatch.overwrite

namespace acyclicWalk

theorem watched : acyclicWalk.Watched listLoopWatch where
  overwrite _ := .inl trivial
  overwrites {r v m} _ hpassed := by
    show ¬m.memory.LeadsByList r v
    simpa [listLoopWatch] using hpassed
  permits _ _ _ := Walk.permits_of_forall (fun _ => trivial) trivial

open Classical in
theorem passes : acyclicWalk.Passes listLoopWatch acyclicWatch where
  group hm _ := decide_eq_true ⟨hm.acyclic, hm.unbounded⟩
  call hm _ := decide_eq_true ⟨hm.acyclic, hm.unbounded⟩
  assign hm _ := decide_eq_true ⟨hm.acyclic, hm.unbounded⟩
  overwrite _ hpassed := hpassed

theorem couples_evaluateLine {m : Machine} (hm : acyclicWalk.holds m) (fuel : Nat)
    (line : String) :
    acyclicWalk.Couples acyclicWalk.value (Call.evaluateLine (listLoopWatch.evaluate fuel) line)
      (Call.evaluateLine (acyclicWatch.evaluate fuel) line) m :=
  have hagree := lawful.agree_passes watched passes (.inl rfl)
  Walk.couples_evaluateLine lawful hagree hm line fun _ _ => trivial

end acyclicWalk

variable {m : Machine} {fuel : Nat} {line : String}

theorem evaluateLine_acyclicWatch (hm : m.toScope.Sound) (h : listLoopWatch.Admits fuel line m) :
    Call.evaluateLine (acyclicWatch.evaluate fuel) line m =
      Call.evaluateLine (evaluate fuel) line m :=
  ((acyclicWalk.couples_evaluateLine hm fuel line).after rfl fun _ => h).1.trans
    (listLoopWatch.evaluateLine_eq h)

theorem evaluateLine_sound (hm : m.toScope.Sound) (h : listLoopWatch.Admits fuel line m) :
    ((Call.evaluateLine (evaluate fuel) line).after m).toScope.Sound := by
  have hsound := ((acyclicWalk.couples_evaluateLine hm fuel line).after rfl fun _ => h).2.1
  rwa [Run.after_congr (evaluateLine_acyclicWatch hm h)] at hsound

theorem evaluateLine_contains (hm : m.toScope.Sound) (h : listLoopWatch.Admits fuel line m)
    {v : Value} {m' : Machine} (hv : Call.evaluateLine (evaluate fuel) line m = .ok v m') :
    m'.memory.Contains v := by
  rw [← listLoopWatch.evaluateLine_eq h] at hv
  exact acyclicWalk.contains ((acyclicWalk.couples_evaluateLine hm fuel line).ok hv).2.2.2

/-! ## Programs -/

theorem Watch.Reaches.sound {m₀ : Machine} (h : listLoopWatch.Reaches m₀ m)
    (hm₀ : m₀.toScope.Sound) : m.toScope.Sound := by
  induction h with
  | refl => exact hm₀
  | @read m' _ ih =>
    obtain ⟨source, suspended, line, h⟩ := Interpreter.after_readStatement m'
    rw [h]
    exact ih
  | @statement m' fuel line _ hadmits ih =>
    have hsound := evaluateLine_sound ih hadmits
    rcases Interpreter.after_interpret m' fuel line with h | h <;> rw [h]
    · exact hsound
    · rwa [Machine.toScope_kill]

/-- Where a program never gives a variable a value that leads to it by a list, its
    memory is acyclic and no bound is reached, after each statement and on the way;
    and the values of its statements refer to nothing but that memory. -/
theorem memory_stays_acyclic {source : Source} {files : Files} {world : World}
    (h : listLoopWatch.Reaches (Machine.start source files world) m) :
    m.memory.Acyclic ∧ m.memory.Unbounded ∧
      ∀ fuel line, listLoopWatch.Admits fuel line m →
        Call.evaluateLine (acyclicWatch.evaluate fuel) line m =
            Call.evaluateLine (evaluate fuel) line m ∧
          ∀ v m', Call.evaluateLine (evaluate fuel) line m = .ok v m' → m'.memory.Contains v := by
  have hm := h.sound (Machine.sound_start source files world)
  refine ⟨hm.acyclic, hm.unbounded, fun fuel line hadmits => ?_⟩
  exact ⟨evaluateLine_acyclicWatch hm hadmits, fun v m' => evaluateLine_contains hm hadmits⟩

/-- No variable is given a list or a reference in place of the value it has. -/
def scalarWatch : Watch where
  overwrite _ v _ :=
    match v with
    | .list _ | .var _ => false
    | _ => true

open Classical in
theorem scalarWatch_passes : bareWalk.Passes scalarWatch listLoopWatch where
  overwrite {r v m} _ hv := by
    have hlist : ¬m.memory.LeadsByList r v := by rintro (_ | _) <;> cases hv
    exact congrArg Bool.not (decide_eq_false hlist)

theorem Watch.Admits.of_scalarWatch (h : scalarWatch.Admits fuel line m) :
    listLoopWatch.Admits fuel line m := by
  unfold Admits
  rw [← evaluateLine_eq_of_passes scalarWatch_passes h]
  exact h

/-- The statements on some lines end, and pass all checks. -/
def Watch.AdmitsAll (w : Watch) (fuel : Nat) : List String → Machine → Prop
  | [], _ => True
  | line :: lines, m =>
    w.Admits fuel line m ∧ w.AdmitsAll fuel lines ((Interpreter.interpret fuel line).after m)

instance Watch.decidableAdmitsAll (w : Watch) (fuel : Nat) :
    ∀ lines m, Decidable (w.AdmitsAll fuel lines m)
  | [], _ => .isTrue trivial
  | line :: lines, m =>
    have := w.decidableAdmitsAll fuel lines ((Interpreter.interpret fuel line).after m)
    inferInstanceAs <| Decidable <|
      w.Admits fuel line m ∧ w.AdmitsAll fuel lines ((Interpreter.interpret fuel line).after m)

/-- A program that only gives scalars to variables in place of their values never gives
    a variable a value that leads to it. -/
theorem Watch.AdmitsAll.reaches {lines : List String} {m₀ : Machine}
    (h : scalarWatch.AdmitsAll fuel lines m) (hm : listLoopWatch.Reaches m₀ m) :
    listLoopWatch.Reaches m₀ (Machine.afterLines fuel lines m) := by
  induction lines generalizing m with
  | nil => exact hm
  | cons line lines ih =>
    rw [Machine.afterLines]
    exact ih h.2 (.statement hm h.1.of_scalarWatch)

/-- A list refers to a variable by way of another one, and the variable is given a new
    value. -/
theorem memory_stays_acyclic_list :
    let m₀ := Machine.start (.script []) (fun _ => .error .notFound) (mkStdGen 0)
    let m := Machine.afterLines 9 ["let x = 1", "let l = 3, @@x", "let x = 2"] m₀
    listLoopWatch.Reaches m₀ m ∧ m.memory.Acyclic ∧ m.memory.Unbounded ∧
      m.memory.text (.var ⟨3⟩) = "l = 3, reference => x = 2" := by
  have hadmits : scalarWatch.AdmitsAll 9 ["let x = 1", "let l = 3, @@x", "let x = 2"]
      (.start (.script []) (fun _ => .error .notFound) (mkStdGen 0)) := by decide +kernel
  have hreaches := hadmits.reaches .refl
  obtain ⟨hacyclic, hunbounded, -⟩ := memory_stays_acyclic hreaches
  refine ⟨hreaches, hacyclic, hunbounded, ?_⟩
  decide +kernel

/-- The list that is given to `x` has a reference to `x` in it. -/
theorem assignment_closes_cycle :
    let m₀ := Machine.start (.script []) (fun _ => .error .notFound) (mkStdGen 0)
    let m := Machine.afterLines 9 ["let x = 1", "let x = 1, @x"] m₀
    ¬m.memory.Acyclic := by
  intro m₀ m
  have hholds : m.memory.Holds ⟨0⟩ ⟨0⟩ := by
    revert m m₀
    decide +kernel
  exact fun h => h ⟨0⟩ (.single hholds)

end Linewise
