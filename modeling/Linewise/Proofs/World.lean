import Linewise.Proofs.Progress

/-!
# A program in its world

Whatever lines are taken or refused, what has been written stays. A statement only adds lines,
also if it fails (`Interpreter.output_of_interpret`), so that all a program has written is what
its statements have written, one after the other (`Interpreter.output_trace`).

Whatever numbers are drawn, a call of `random` gives one that is not negative and less than its
bound (`Call.native_random`).
-/

namespace Linewise

/-! ## Lines -/

theorem Progress.allowed_output : Allowed fun p q => p.output.toList <+: q.output.toList where
  refl _ := List.prefix_rfl
  trans h₁ h₂ := h₁.trans h₂
  ended _ := List.prefix_rfl
  defined _ _ := List.prefix_rfl
  written hgrows := hgrows

namespace Interpreter

variable {fuel n : Nat} {line : String} {r : Result} {m m' : Machine}

theorem output_grows (h : interpret fuel line m = .ok r m') :
    m.output.toList <+: m'.output.toList := by
  have hgrows := Progress.allowed_output.interpret m fuel line
  rw [Run.after_of_ok h] at hgrows
  exact hgrows

/-- A statement adds the lines that it writes to those that have been written. -/
theorem output_of_interpret (h : interpret fuel line m = .ok r m') :
    m'.output.toList = m.output.toList ++ (Step.mk m r m').output.toList := by
  obtain ⟨lines, hlines⟩ := output_grows h
  have hsize : m'.output.size = m.output.size + lines.length := by
    rw [← Array.length_toList, ← hlines, List.length_append, Array.length_toList]
  have hstep : (Step.mk m r m').output.toList = lines := by
    rw [Step.output, Array.toList_extract, List.extract_eq_take_drop, ← hlines,
      List.drop_left' Array.length_toList, hsize, Nat.add_sub_cancel_left, List.take_length]
  rw [hstep, hlines]

/-- All that has been written after the last of the statements of a program is what these have
    written, one after the other. -/
theorem output_trace {s : Step} (h : (trace fuel n m).1.getLast? = some s) :
    s.after.output.toList =
      m.output.toList ++ (trace fuel n m).1.flatMap (·.output.toList) := by
  induction n generalizing m with
  | zero => cases h
  | succ n ih =>
    rw [trace] at h ⊢
    cases hread : readStatement m with
    | error e before =>
      rw [hread] at h
      cases e <;> cases h
    | ok line before =>
      cases line with
      | none =>
        rw [hread] at h
        cases h
      | some line =>
        rw [hread] at h
        cases hrun : interpret fuel line before with
        | error e after => simp [hrun] at h
        | ok r after =>
          simp only [hrun] at h ⊢
          have hbefore : before.output = m.output := by
            obtain ⟨source, suspended, line, hm⟩ := after_readStatement m
            rw [← Run.after_of_ok hread, hm]
          have hfirst := output_of_interpret hrun
          rw [hbefore] at hfirst
          rw [List.flatMap_cons, ← List.append_assoc, ← hfirst]
          generalize hlater : (if after.alive then trace fuel n after else ([], .finished)) = later
            at h ⊢
          rcases later with ⟨_ | ⟨next, later⟩, ending⟩
          · cases h
            exact (List.append_nil _).symm
          · split at hlater
            · rw [List.getLast?_cons_cons] at h
              have hlast : (trace fuel n after).1.getLast? = some s := by rw [hlater, h]
              rw [ih hlast, hlater]
            · cases hlater

end Interpreter

/-! ## Random numbers -/

namespace Call

variable {m : Machine} {v : Value} {bound : Int64}

theorem upperBound_pos (h : upperBound m.memory v = .ok bound) : 0 < bound := by
  obtain ⟨w, -, h⟩ := bind_eq_ok.1 h
  split at h
  · obtain ⟨k, -, h⟩ := bind_eq_ok.1 h
    split at h
    · cases h
      assumption
    · cases h
  · cases h

/-- With a bound, a number below it is drawn, and only the world changes. -/
theorem native_random (ev : Group → Run Value) {args : List Value}
    (h : upperBound m.memory (args.headD .nil) = .ok bound) :
    ∃ (k : Int64) (world : World), 0 ≤ k ∧ k < bound ∧
      native ev .random args m = .ok (.integer k) { m with world } := by
  obtain ⟨hzero, hlt⟩ := m.world.draws.in_range m.world.draws.asked bound (upperBound_pos h)
  refine ⟨_, { m.world with draws := (m.world.draws.draw bound).2 }, hzero, hlt, ?_⟩
  have hbound : Run.reading (fun m => upperBound m.memory (args.headD .nil)) m = .ok bound m := by
    rw [Run.reading, h]
  exact Run.bind_of_ok hbound

end Call

end Linewise
