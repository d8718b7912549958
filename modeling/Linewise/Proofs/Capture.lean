import Linewise.Machine
import Linewise.Proofs.Token

/-!
# Captures

Where the lines of a block come from does not matter: the lines of a source and
the statements of a block are captured in the same way (`run_map`), whether they
have been trimmed before or not (`run_trim`). What is left of them are the last
ones (`run_rest_suffix`), and what holds of all of them may hold of the statements
of the block (`Lasting`).
-/

namespace Linewise

/-- The script with the given lines. -/
abbrev Source.ofLines (lines : List String) : Source :=
  .script (lines.map .ok)

theorem Source.ofLines_inj {lines lines' : List String} (h : ofLines lines = ofLines lines') :
    lines = lines' :=
  (List.map_inj_right fun _ _ => Except.ok.inj).1 (Source.script.inj h)

namespace Capture

variable {α β : Type} {c : Capture}

/-- The outcome in terms of where the lines come from. -/
def Outcome.map (f : α → β) (o : Outcome α) : Outcome β :=
  { o with rest := o.rest.map f }

theorem run_map (f : α → β) (read : β → Except Fault String) (lines : List α) :
    c.run read (lines.map f) = (c.run (fun l => read (f l)) lines).map f := by
  induction lines generalizing c with
  | nil => rfl
  | cons l lines ih =>
    rw [List.map_cons, run, run]
    cases read (f l) with
    | error e => rfl
    | ok line =>
      dsimp only
      cases c.step line with
      | more c' =>
        dsimp only
        rw [ih]
        rfl
      | complete b => rfl
      | failed e => rfl

theorem step_trim (line : String) : c.step (Text.trim line) = c.step line := by
  rw [step, step, Text.trim_trim]

theorem run_trim (lines : List String) :
    c.run .ok (lines.map Text.trim) = (c.run .ok lines).map Text.trim := by
  -- The lines are trimmed as they are read, and each step trims its line anyway.
  rw [run_map]
  congr 1
  induction lines generalizing c with
  | nil => rfl
  | cons line lines ih =>
    rw [run, run]
    dsimp only
    rw [step_trim]
    cases c.step line with
    | more c' =>
      dsimp only
      rw [ih]
    | complete b => rfl
    | failed e => rfl

/-- A capture takes lines from the start. -/
theorem run_rest_suffix {read : α → Except Fault String} {lines : List α} :
    (c.run read lines).rest <:+ lines := by
  fun_induction run read c lines with
  | case1 => exact List.suffix_refl _
  | case2 => exact List.suffix_cons ..
  | case3 c l lines line hread c' hstep o ih => exact ih.trans (List.suffix_cons ..)
  | case4 | case5 => exact List.suffix_cons ..

end Capture

theorem Block.capture_trim (elseAllowed : Bool) (lines : List String) :
    capture elseAllowed (lines.map Text.trim) = (capture elseAllowed lines).map Text.trim :=
  Capture.run_trim lines

/-! ## What is captured -/

namespace Capture

variable {α : Type} {c : Capture}

/-- What holds of a line holds of the statements that a capture makes of it: of the
    line without blanks around it, and of what follows `else` on it. -/
structure Lasting (P : String → Prop) : Prop where
  trim : ∀ {line}, P line → P (Text.trim line)
  alternative : P "else"
  afterKeyword : ∀ {line keyword g}, P line → Group.ofLine (Text.trim line) = .ok g →
    startsWithElse? g = some keyword → P (afterKeyword (Text.trim line) keyword)

/-- The statements captured so far satisfy `P`. -/
def All (P : String → Prop) (c : Capture) : Prop :=
  ∀ line ∈ c.statements, P line

/-- So do those that a step makes of them. -/
inductive Step.All (P : String → Prop) : Step → Prop
  | more {c : Capture} (h : c.All P) : All P (.more c)
  | complete {b : Block} (h : ∀ line ∈ b.statements, P line) : All P (.complete b)
  | failed (f : Fault) : All P (.failed f)

variable {P : String → Prop} {line : String}

theorem all_start (elseAllowed : Bool) : (start elseAllowed).All P := nofun

theorem All.finish (h : c.All P) : ∀ line ∈ c.finish.statements, P line :=
  fun line hline => h line (List.mem_reverse.1 hline)

theorem All.push (h : c.All P) (hline : P line) : (c.push line).All P :=
  List.forall_mem_cons.2 ⟨hline, h⟩

namespace Lasting

variable (hP : Lasting P)

include hP

theorem splitAt (h : c.All P) (hline : P (Text.trim line)) {keyword : String}
    (hrest : P (Capture.afterKeyword (Text.trim line) keyword)) (g : Group) :
    (c.splitAt keyword (Text.trim line) g).All P := by
  have hsplit : All P { c with elseAt := some c.statements.length } := h
  rw [Capture.splitAt]
  dsimp only
  split
  · exact .failed _
  split
  · exact .failed _
  split
  · exact .more (hsplit.push hline)
  · exact .complete ((hsplit.push hP.alternative).push hrest).finish

theorem addLine (h : c.All P) (hline : P line) {g : Group}
    (hg : Group.ofLine (Text.trim line) = .ok g) : (c.addLine (Text.trim line) g).All P := by
  have hlevel : ∀ level, All P { c with level } := fun _ => h
  rw [Capture.addLine]
  dsimp only
  split
  · rename_i keyword hk
    split
    · exact hP.splitAt h (hP.trim hline) (hP.afterKeyword hline hg hk) g
    · exact .more ((hlevel _).push (hP.trim hline))
  · exact .more ((hlevel _).push (hP.trim hline))

theorem step (h : c.All P) (hline : P line) : (c.step line).All P := by
  rw [Capture.step]
  dsimp only
  split
  · exact .failed _
  · exact .more (h.push (hP.trim hline))
  · rename_i g hg
    have hlevel : ∀ level, All P { c with level } := fun _ => h
    split
    · exact .failed _
    split
    · exact .failed _
    split
    · exact .complete h.finish
    · exact hP.addLine (hlevel _) hline hg

/-- A block is made of what it is captured from. -/
theorem run {read : α → Except Fault String} {lines : List α} (h : c.All P)
    (hlines : ∀ l ∈ lines, ∀ line, read l = .ok line → P line) {b : Block}
    (hb : (c.run read lines).block = .ok b) : ∀ line ∈ b.statements, P line := by
  induction lines generalizing c with
  | nil => cases hb
  | cons l lines ih =>
    rw [List.forall_mem_cons] at hlines
    rw [Capture.run] at hb
    split at hb
    · cases hb
    · rename_i line hread
      have hstep := hP.step h (hlines.1 line hread)
      generalize c.step line = step at hb hstep
      cases hstep with
      | more hc => exact ih hc hlines.2 hb
      | complete hb' =>
        cases hb
        exact hb'
      | failed f => cases hb

end Lasting

end Capture

/-- A branch is a part of the block. -/
theorem Block.sublist_of_branch {b : Block} {first : Bool} {statements : List String}
    (h : b.branch first = .ok statements) : statements.Sublist b.statements := by
  obtain ⟨⟨start, stop⟩, -, hs⟩ := bind_eq_ok.1 h
  cases hs
  exact (List.drop_sublist _ _).trans (List.take_sublist _ _)

namespace Capture

/-- There are as many statements after a step as the number says, and none of the branches
    of a block that it completes has more. -/
inductive Step.Bounded (n : Nat) : Step → Prop
  | more {c : Capture} (h : c.statements.length = n) : Bounded n (.more c)
  | complete {b : Block}
      (h : ∀ first statements, b.branch first = .ok statements → statements.length ≤ n) :
      Bounded n (.complete b)
  | failed (f : Fault) : Bounded n (.failed f)

variable {α : Type} {c : Capture}

/-- A line that ends in the second branch is the only statement there. -/
theorem bounded_splitAt {n : Nat} (hn : c.statements.length = n) (keyword statement : String)
    (g : Group) : (c.splitAt keyword statement g).Bounded (n + 1) := by
  subst hn
  rw [splitAt]
  dsimp only
  split
  · exact .failed _
  rename_i hallowed
  split
  · exact .failed _
  split
  · exact .more rfl
  refine .complete fun first statements hs => ?_
  obtain ⟨⟨start, stop⟩, hrange, hs⟩ := bind_eq_ok.1 hs
  cases hs
  simp only [Block.range, finish, push, hallowed] at hrange
  cases first <;> cases hrange <;> simp [finish, push]

theorem bounded_step (c : Capture) (line : String) :
    (c.step line).Bounded (c.statements.length + 1) := by
  rw [step]
  dsimp only
  split
  · exact .failed _
  · exact .more rfl
  split
  · exact .failed _
  split
  · exact .failed _
  split
  · refine .complete fun first statements hs => ?_
    have hlength := (Block.sublist_of_branch hs).length_le
    rw [finish, List.length_reverse] at hlength
    exact Nat.le_succ_of_le hlength
  · have hlevel := fun level =>
      bounded_splitAt (c := { c with level }) (n := c.statements.length) rfl
    rw [addLine]
    dsimp only
    split
    · split
      · apply hlevel
      · exact .more rfl
    · exact .more rfl

/-- No branch of a block has more statements than there were lines. -/
theorem length_branch_le {read : α → Except Fault String} {lines : List α} {b : Block}
    (hb : (c.run read lines).block = .ok b) {first : Bool} {statements : List String}
    (hs : b.branch first = .ok statements) :
    statements.length ≤ c.statements.length + lines.length := by
  induction lines generalizing c with
  | nil => cases hb
  | cons l lines ih =>
    rw [run] at hb
    rw [List.length_cons]
    split at hb
    · cases hb
    · rename_i line hread
      have hstep := c.bounded_step line
      generalize c.step line = step at hb hstep
      cases hstep with
      | more hc =>
        have hle := ih hb
        omega
      | complete hle =>
        cases hb
        exact Nat.le_trans (hle first statements hs) (by omega)
      | failed f => cases hb

end Capture

/-! ## Where blocks are captured from -/

namespace Run

variable {m : Machine} {lines statements : List String} {cursors : List (List String)}

/-- A block is captured from the source if no block is running. -/
theorem captureBlock_of_script {lines : List ScriptLine} (hc : m.cursors = [])
    (hs : m.source = .script lines) (elseAllowed : Bool) :
    let o := (Capture.start elseAllowed).run (·.mapError .sourceFailed) lines
    captureBlock elseAllowed m =
      ofExcept o.block { m with source := .script o.rest, line := m.line + o.read } := by
  rw [captureBlock]
  rw [hc, hs]

theorem captureBlock_of_source (hc : m.cursors = []) (hs : m.source = .ofLines lines)
    (elseAllowed : Bool) :
    captureBlock elseAllowed m =
      ofExcept (Block.capture elseAllowed lines).block
        { m with
          source := .ofLines (Block.capture elseAllowed lines).rest
          line := m.line + (Block.capture elseAllowed lines).read } := by
  -- The source has lines that can be read, and a capture of those is a capture of
  -- the lines themselves.
  rw [captureBlock_of_script hc hs, Capture.run_map]
  rfl

/-- A block is captured from the innermost block that is running. -/
theorem captureBlock_of_cursor (hc : m.cursors = statements :: cursors) (elseAllowed : Bool) :
    captureBlock elseAllowed m =
      ofExcept (Block.capture elseAllowed statements).block
        { m with cursors := (Block.capture elseAllowed statements).rest :: cursors } := by
  rw [captureBlock]
  rw [hc]
  rfl

end Run

end Linewise
