import Linewise.Proofs.Halt

/-!
# The course of a session

A session that comes to an end (`Session.Finishes`) does so turn by turn
(`Session.Finishes.turn`), and how much fuel there is makes no difference for it: with
more, it does the same (`Session.Finishes.turns_of_le`), it passes through all that is
reached with another amount (`Session.Finishes.of_reaches`), and what is reached in this
way is reached with enough (`Session.exists_run_of_reaches`).

* `Session.steps`: its statements, one after the other;
* `Run.shown`: what there is to see of it in the end.
-/

namespace Linewise

open Relation

/-- What can be seen of a step: what it gives, and the lines that are written then. -/
def Run.shown {α : Type} (x : Run α) (m : Machine) : Except Interrupt α × Array String :=
  match x m with
  | .ok v m' => (.ok v, m'.output)
  | .error e m' => (.error e, m'.output)

theorem Run.shown_of_ok {α : Type} {x : Run α} {m m' : Machine} {v : α} (h : x m = .ok v m') :
    x.shown m = (.ok v, m'.output) := by
  rw [shown, h]

theorem Run.shown_of_error {α : Type} {x : Run α} {m m' : Machine} {e : Interrupt}
    (h : x m = .error e m') : x.shown m = (.error e, m'.output) := by
  rw [shown, h]

theorem Run.shown_congr {α : Type} {x y : Run α} {m m' : Machine} (h : x m = y m') :
    x.shown m = y.shown m' := by
  rw [shown, shown, h]

namespace Session

variable {echo : Bool} {fuel fuel' n n' : Nat} {line : String} {r : Result}
  {m m' before after : Machine}

/-- The statements of a session, as many as the number says. -/
def steps (echo : Bool) (fuel : Nat) : Nat → Machine → List Interpreter.Step
  | 0, _ => []
  | n + 1, m =>
    match Interpreter.readStatement m with
    | .ok (some line) before =>
      match statement fuel line before with
      | .ok result after =>
        ⟨before, result, after⟩ ::
          if after.alive then
            match tell echo result after with
            | .ok _ m => steps echo fuel n m
            | .error _ _ => []
          else []
      | .error _ _ => []
    | _ => []

theorem mem_steps (hread : Interpreter.readStatement m = .ok (some line) before)
    (h : statement fuel line before = .ok r after) :
    ⟨before, r, after⟩ ∈ steps echo fuel (n + 1) m := by
  rw [steps, hread]
  dsimp only
  rw [h]
  exact List.mem_cons_self

theorem steps_of_told (hread : Interpreter.readStatement m = .ok (some line) before)
    (h : statement fuel line before = .ok r after) (htell : tell echo r after = .ok () m')
    (halive : after.alive = true) :
    steps echo fuel (n + 1) m = ⟨before, r, after⟩ :: steps echo fuel n m' := by
  rw [steps, hread]
  dsimp only
  rw [h]
  dsimp only
  rw [if_pos halive, htell]

/-! ## Fuel -/

theorem statement_of_le (hle : fuel ≤ fuel') (h : statement fuel line m = .ok r m') :
    statement fuel' line m = .ok r m' := by
  rw [statement] at h ⊢
  split at h
  · rename_i hquit
    rw [if_pos hquit]
    exact h
  · rename_i hquit
    rw [if_neg hquit]
    exact Interpreter.interpret_of_le hle h

/-- What a statement gives does not depend on the fuel. -/
theorem statement_of_fuel (h : statement fuel line m = .ok r m')
    (hend : ∀ m₁, statement fuel' line m ≠ .error .outOfFuel m₁) :
    statement fuel' line m = .ok r m' := by
  cases h' : statement fuel' line m with
  | error e m₁ => exact absurd (outOfFuel_of_statement h' ▸ h') (hend m₁)
  | ok r' m₁ =>
    rw [← statement_of_le (Nat.le_max_right fuel fuel') h',
      statement_of_le (Nat.le_max_left fuel fuel') h]

/-- The session comes to an end. -/
def Finishes (echo : Bool) (fuel n : Nat) (m : Machine) : Prop :=
  ((turns echo fuel n).shown m).1 ≠ .error .outOfFuel

theorem Finishes.congr (h : Finishes echo fuel n m)
    (heq : turns echo fuel' n' m' = turns echo fuel n m) : Finishes echo fuel' n' m' := by
  rw [Finishes, Run.shown_congr heq]
  exact h

/-- The next turn of a session that ends after it, or some turns later. -/
inductive Turn (echo : Bool) (fuel n : Nat) (m : Machine) : Prop
  | unreadable {e : Interrupt} {before : Machine} :
      Interpreter.readStatement m = .error e before → Turn echo fuel n m
  | finished {before : Machine} :
      Interpreter.readStatement m = .ok none before → Turn echo fuel n m
  | statement {line : String} {r : Result} {before after : Machine} :
      Interpreter.readStatement m = .ok (some line) before →
      statement fuel line before = .ok r after →
      (∀ m', after.alive = true → tell echo r after = .ok () m' → Finishes echo fuel n m') →
      Turn echo fuel n m

theorem Finishes.pos (h : Finishes echo fuel n m) : 0 < n := by
  rw [Nat.pos_iff_ne_zero]
  rintro rfl
  exact h rfl

theorem Finishes.turn (h : Finishes echo fuel (n + 1) m) : Turn echo fuel n m := by
  cases hread : Interpreter.readStatement m with
  | error e before => exact .unreadable hread
  | ok line before =>
    cases line with
    | none => exact .finished hread
    | some line =>
      cases hrun : Session.statement fuel line before with
      | error e after =>
        rw [Finishes, Run.shown_of_error (turns_of_error hread hrun),
          outOfFuel_of_statement hrun] at h
        exact absurd rfl h
      | ok r after =>
        exact .statement hread hrun fun m' halive htell =>
          h.congr (turns_of_told hread hrun htell halive).symm

/-- A session that ends does the same with more fuel. -/
theorem Finishes.turns_of_le (h : Finishes echo fuel n m) (hfuel : fuel ≤ fuel') (hn : n ≤ n') :
    turns echo fuel' n' m = turns echo fuel n m := by
  induction n generalizing n' m with
  | zero => exact absurd rfl h
  | succ n ih =>
    obtain ⟨k, rfl⟩ := Nat.exists_eq_add_of_le' (Nat.le_trans (Nat.le_add_left 1 n) hn)
    have hk : n ≤ k := Nat.le_of_succ_le_succ hn
    cases h.turn with
    | unreadable hread => rw [turns_of_unreadable hread, turns_of_unreadable hread]
    | finished hread => rw [turns_of_finished hread, turns_of_finished hread]
    | @statement line r before after hread hrun hnext =>
      rw [turns_of_read hread hrun, turns_of_read hread (statement_of_le hfuel hrun)]
      refine Run.bind_congr rfl fun _ m' htell => ?_
      cases halive : after.alive with
      | false => rfl
      | true => exact ih (hnext m' halive htell) hk

/-- A session that ends passes through where another fuel leads to. -/
theorem Finishes.of_continues (h : Finishes echo fuel n m) (hgo : Continues echo fuel' m m') :
    ∃ k, n = k + 1 ∧ turns echo fuel n m = turns echo fuel k m' ∧
      steps echo fuel k m' ⊆ steps echo fuel n m := by
  obtain ⟨k, rfl⟩ := Nat.exists_eq_add_of_le' h.pos
  obtain ⟨line, before, r, after, hread, hrun', halive, htell⟩ := hgo
  have hrun : statement fuel line before = .ok r after := by
    cases h.turn with
    | unreadable hread' => cases hread.symm.trans hread'
    | finished hread' => cases hread.symm.trans hread'
    | statement hread' hrun _ =>
      cases hread.symm.trans hread'
      refine statement_of_fuel hrun' fun m₁ => ?_
      rw [hrun]
      nofun
  refine ⟨k, rfl, turns_of_told hread hrun htell halive, ?_⟩
  rw [steps_of_told hread hrun htell halive]
  exact List.subset_cons_self _ _

theorem Finishes.of_reaches (h : Finishes echo fuel n m)
    (hgo : ReflTransGen (Continues echo fuel') m m') :
    ∃ k ≤ n, turns echo fuel n m = turns echo fuel k m' ∧
      steps echo fuel k m' ⊆ steps echo fuel n m := by
  induction hgo with
  | refl => exact ⟨n, Nat.le_refl n, rfl, fun _ hs => hs⟩
  | tail _ hlast ih =>
    obtain ⟨k, hk, hturns, hsteps⟩ := ih
    obtain ⟨k, rfl, hturns', hsteps'⟩ := (h.congr hturns.symm).of_continues hlast
    exact ⟨k, Nat.le_of_succ_le hk, hturns.trans hturns', List.Subset.trans hsteps' hsteps⟩

/-- What a session comes to, it comes to with enough fuel. -/
theorem exists_run_of_reaches (hgo : ReflTransGen (Continues echo fuel') m m')
    (h : Finishes echo fuel n m') : ∃ k, run echo k m = turns echo fuel n m' := by
  induction hgo using ReflTransGen.head_induction_on with
  | refl =>
    exact ⟨max fuel n, h.turns_of_le (Nat.le_max_left fuel n) (Nat.le_max_right fuel n)⟩
  | head hfirst _ ih =>
    obtain ⟨line, before, r, after, hread, hrun, halive, htell⟩ := hfirst
    obtain ⟨k, hk⟩ := ih
    have hfinishes := h.congr hk
    refine ⟨max fuel' k + 1, ?_⟩
    have hle : fuel' ≤ max fuel' k + 1 := Nat.le_succ_of_le (Nat.le_max_left fuel' k)
    rw [run, turns_of_told hread (statement_of_le hle hrun) htell halive, ← hk]
    exact hfinishes.turns_of_le (Nat.le_succ_of_le (Nat.le_max_right fuel' k))
      (Nat.le_max_right fuel' k)

end Session

end Linewise
