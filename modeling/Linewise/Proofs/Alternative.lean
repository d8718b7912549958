import Linewise.Proofs.Plain
import Mathlib

/-!
# The second branch of a block

A line that starts with `else` where nothing is open within the block belongs to the block
itself: it parts the branches, or there may be no second branch, or no further one
(`Capture.Heeded`). A capture comes to the `else` of a line when it has counted what else
is on it.

* A line is *even* if it closes what it opens (`Group.Even`). Then nothing is open either
  when the capture comes to its `else`, which parts the branches (`Capture.step_even`).
* Any other line has changed the count before. `else if c,` opens a construct that its own
  `else` closes again, and is a statement like any other (`else_if_overlooked`).

So the lines that are heeded are the even ones (`else_heeded_iff`). Parted branches stay as
they are, whatever is captured after them (`Capture.Continues`).
-/

namespace Linewise

/-- The line closes what it opens, and no more. -/
structure Group.Even (g : Group) : Prop where
  symbols : g.count Keyword.opening.symbol = g.count Keyword.closing.symbol
  single : g.count Keyword.opening.symbol ≤ 1
  bodies : Capture.opensBody g .conditional = false ∧ Capture.opensBody g .repetition = false

/-- The branches of a block that have been parted. -/
theorem Block.branch_of_parted (first second : List String) (marker : String) :
    let b : Block := ⟨first ++ marker :: second, some first.length, true⟩
    b.branch true = .ok first ∧ b.branch false = .ok second := by
  constructor
  · show Except.ok (((first ++ marker :: second).take first.length).drop 0) = _
    rw [List.drop_zero, List.take_left]
  · show Except.ok (((first ++ marker :: second).take _).drop (first.length + 1)) = _
    rw [List.take_length, List.drop_append, List.drop_eq_nil_of_le (Nat.le_succ _)]
    simp

namespace Capture

variable {α : Type} {c c' c₁ c₂ : Capture} {line keyword : String} {g : Group}
  {lines : List String}

/-! ## What a capture keeps -/

/-- `c'` has the statements of `c` before its own, and its branches where they have been
    parted. -/
structure Continues (c c' : Capture) : Prop where
  statements : c.statements <:+ c'.statements
  elseAllowed : c'.elseAllowed = c.elseAllowed
  elseAt : ∀ i, c.elseAt = some i → c'.elseAt = some i

theorem Continues.refl (c : Capture) : c.Continues c :=
  ⟨List.suffix_refl _, rfl, fun _ h => h⟩

theorem Continues.trans (h₁ : c.Continues c₁) (h₂ : c₁.Continues c₂) : c.Continues c₂ :=
  ⟨h₁.statements.trans h₂.statements, h₂.elseAllowed.trans h₁.elseAllowed,
    fun i h => h₂.elseAt i (h₁.elseAt i h)⟩

/-- A step adds the line, or ends in a block that has what the capture has. -/
inductive Step.Continues (c : Capture) (line : String) : Step → Prop
  | more {c' : Capture} (hc : c.Continues c')
      (hs : c'.statements = Text.trim line :: c.statements) : Continues c line (.more c')
  | complete {c' : Capture} (hc : c.Continues c') : Continues c line (.complete c'.finish)
  | failed (f : Fault) : Continues c line (.failed f)

theorem continues_push (c : Capture) (line : String) (level : Nat) :
    Step.Continues c line (.more { c.push (Text.trim line) with level }) :=
  .more ⟨List.suffix_cons .., rfl, fun _ h => h⟩ rfl

theorem continues_splitAt (c : Capture) (level : Nat) (keyword line : String) (g : Group) :
    (splitAt { c with level } keyword (Text.trim line) g).Continues c line := by
  rw [splitAt]
  dsimp only
  split
  · exact .failed _
  split
  · exact .failed _
  rename_i hparted
  -- The branches are parted here, so they were not before.
  have hnone : ∀ i, c.elseAt ≠ some i := fun i hi => hparted (by rw [hi]; rfl)
  split
  · exact .more ⟨List.suffix_cons .., rfl, fun i hi => absurd hi (hnone i)⟩ rfl
  · refine .complete ⟨?_, rfl, fun i hi => absurd hi (hnone i)⟩
    exact (List.suffix_cons ..).trans (List.suffix_cons ..)

theorem continues_addLine (c : Capture) (level : Nat) (line : String) (g : Group) :
    (addLine { c with level } (Text.trim line) g).Continues c line := by
  rw [addLine]
  dsimp only
  split
  · split
    · exact continues_splitAt ..
    · exact continues_push ..
  · exact continues_push ..

theorem continues_step (c : Capture) (line : String) : (c.step line).Continues c line := by
  rw [step]
  dsimp only
  split
  · exact .failed _
  · exact continues_push c line c.level
  split
  · exact .failed _
  split
  · exact .failed _
  split
  · exact .complete (.refl c)
  · exact continues_addLine ..

theorem continues_of_run {read : α → Except Fault String} {lines : List α} {b : Block}
    (hb : (c.run read lines).block = .ok b) : ∃ c', b = c'.finish ∧ c.Continues c' := by
  induction lines generalizing c with
  | nil => cases hb
  | cons l lines ih =>
    rw [run] at hb
    split at hb
    · cases hb
    rename_i line _
    have hstep := c.continues_step line
    generalize c.step line = step at hb hstep
    cases hstep with
    | more hc _ =>
      obtain ⟨c', hb', hc'⟩ := ih hb
      exact ⟨c', hb', hc.trans hc'⟩
    | complete hc =>
      cases hb
      exact ⟨_, rfl, hc⟩
    | failed f => cases hb

/-- The statements of a capture are the lines it has come through. -/
theorem continues_of_through? (h : c.through? lines = some c') :
    c.Continues c' ∧ c'.statements = (lines.map Text.trim).reverse ++ c.statements := by
  induction lines generalizing c with
  | nil =>
    cases h
    exact ⟨.refl _, rfl⟩
  | cons line lines ih =>
    rw [through?] at h
    have hstep := c.continues_step line
    generalize c.step line = step at h hstep
    cases hstep with
    | more hc hs =>
      obtain ⟨hc', hs'⟩ := ih h
      refine ⟨hc.trans hc', ?_⟩
      rw [hs', hs, List.map_cons, List.reverse_cons, List.append_assoc, List.singleton_append]
    | complete => cases h
    | failed => cases h

/-! ## Lines that start with `else` -/

/-- An even line leaves the level as it is until the capture comes to its `else`. -/
theorem step_even (hg : Group.ofLine (Text.trim line) = .ok g)
    (hk : startsWithElse? g = some keyword) (he : g.Even) :
    c.step line = c.addLine (Text.trim line) g := by
  obtain ⟨rest, rfl, -⟩ := startsWithElse?_eq_some hk
  obtain ⟨hsymbols, hsingle, hconditional, hrepetition⟩ := he
  have hend : ¬(Group.count (.symbol keyword :: rest) Keyword.closing.symbol = 1 ∧
      c.level + Group.count (.symbol keyword :: rest) Keyword.opening.symbol = 0) := by omega
  rw [step_of_ne_nil hg (List.cons_ne_nil _ _), if_neg (Nat.not_lt.2 hsingle),
    if_neg (Nat.not_lt.2 (hsymbols ▸ hsingle)), if_neg (by simpa using hend), hconditional,
    hrepetition, hsymbols]
  simp

/-- On a line that is not even, the capture fails for another reason, ends, or goes on as
    with any other statement. -/
theorem step_of_not_even (hl : c.level = 0) (hg : Group.ofLine (Text.trim line) = .ok g)
    (hk : startsWithElse? g = some keyword) (he : ¬g.Even) :
    c.step line = .failed .severalBegins ∨ c.step line = .failed .severalEnds ∨
      c.step line = .complete c.finish ∨
      ∃ level, c.step line = .more { c.push (Text.trim line) with level } := by
  have hne : g ≠ [] := by
    rintro rfl
    cases hk
  rw [step_of_ne_nil hg hne, hl]
  by_cases hbegin : 1 < g.count Keyword.opening.symbol
  · exact .inl (if_pos hbegin)
  rw [if_neg hbegin]
  by_cases hend : 1 < g.count Keyword.closing.symbol
  · exact .inr (.inl (if_pos hend))
  rw [if_neg hend]
  by_cases hclose : g.count Keyword.closing.symbol = 1 ∧ g.count Keyword.opening.symbol = 0
  · exact .inr (.inr (.inl (if_pos (by simpa using hclose))))
  rw [if_neg (by simpa using hclose)]
  refine .inr (.inr (.inr ?_))
  -- Something has been opened, by `begin` or by a comma at the end of the line.
  have hlevel : 0 + g.count Keyword.opening.symbol - g.count Keyword.closing.symbol +
      ((opensBody g .conditional).toNat + (opensBody g .repetition).toNat) ≠ 0 := by
    intro hzero
    refine he ⟨by omega, by omega, Bool.toNat_eq_zero.1 (by omega), Bool.toNat_eq_zero.1 (by omega)⟩
  rw [addLine]
  dsimp only
  rw [hk]
  exact ⟨_, if_neg hlevel⟩

/-! ## The line that is heeded -/

/-- What becomes of a capture that has come through `before` and minds the `else` at the
    start of `line`. -/
inductive Heeded (c : Capture) (before : List String) (line keyword : String) (g : Group)
    (rest : List String) (o : Outcome String) : Prop
  /-- There is no second branch. -/
  | notAllowed (hallowed : c.elseAllowed = false)
      (hblock : o.block.mapError Fault.report =
        .error ⟨.semantic, "Unexpected keyword 'else'", "else not allowed in this construct"⟩)
      (hrest : o.rest = rest) (hread : o.read = before.length + 1)
  /-- The branches have been parted already. -/
  | again (hallowed : c.elseAllowed = true) (hparted : c.elseAt.isSome)
      (hblock : o.block.mapError Fault.report =
        .error ⟨.semantic, "Unexpected keyword 'else'", "else already used"⟩)
      (hrest : o.rest = rest) (hread : o.read = before.length + 1)
  /-- The line parts the branches, and the second one follows. -/
  | parts (hallowed : c.elseAllowed = true) (hparted : c.elseAt = none)
      (halone : g = [.symbol keyword])
      (hthrough : (start true).through? (before ++ [line]) =
        some { c.push (Text.trim line) with elseAt := some before.length })
      (hblock : ∀ b, o.block = .ok b →
        b.elseAt = some before.length ∧ b.branch true = .ok (before.map Text.trim))
  /-- The line parts the branches, and the rest of it is all of the second one. -/
  | ends (hallowed : c.elseAllowed = true) (hparted : c.elseAt = none)
      (hmore : g ≠ [.symbol keyword]) {second : String}
      (hsecond : second = afterKeyword (Text.trim line) keyword)
      (ho : o = {
        block := .ok ⟨before.map Text.trim ++ ["else", second], some before.length, true⟩
        rest
        read := before.length + 1 })
      (hbranch : ∀ b, o.block = .ok b → b.branch false = .ok [second])

/-- The capture goes on after the lines before, with what the next one does to it. -/
theorem capture_of_step {elseAllowed : Bool} {before : List String}
    (hbefore : (start elseAllowed).through? before = some c)
    (line : String) (rest : List String) :
    Block.capture elseAllowed (before ++ line :: rest) =
      match c.step line with
      | .more c' =>
        { c'.run .ok rest with read := before.length + 1 + (c'.run .ok rest).read }
      | .complete b => { block := .ok b, rest, read := before.length + 1 }
      | .failed f => { block := .error f, rest, read := before.length + 1 } := by
  rw [Block.capture, run_of_through? hbefore, run]
  dsimp only
  cases c.step line with
  | more c' => exact congrArg (Outcome.mk _ _) (by dsimp only; omega)
  | complete b => exact congrArg (Outcome.mk _ _) (Nat.add_comm ..)
  | failed f => exact congrArg (Outcome.mk _ _) (Nat.add_comm ..)

section

variable (hallowed : c.elseAllowed = true) (hparted : c.elseAt = none)

include hallowed hparted

/-- An `else` alone parts the branches. -/
theorem splitAt_of_alone (hg : g.length = 1) (statement : String) :
    c.splitAt keyword statement g =
      .more { c.push statement with elseAt := some c.statements.length } := by
  rw [splitAt, hallowed, hparted]
  dsimp only
  rw [if_neg (by decide), if_neg (by decide), if_pos hg, push, push, hallowed]

/-- A statement behind `else` is all of the second branch. -/
theorem splitAt_of_more (hg : g.length ≠ 1) (statement : String) :
    c.splitAt keyword statement g =
      .complete ⟨c.statements.reverse ++ ["else", afterKeyword statement keyword],
        some c.statements.length, true⟩ := by
  rw [splitAt, hallowed, hparted]
  dsimp only
  rw [if_neg (by decide), if_neg (by decide), if_neg hg]
  simp [push, finish]

end

section

variable {elseAllowed : Bool} {before rest : List String}

theorem reverse_of_through? (h : (start elseAllowed).through? before = some c) :
    c.statements.reverse = before.map Text.trim := by
  rw [(continues_of_through? h).2]
  simp [start]

theorem length_of_through? (h : (start elseAllowed).through? before = some c) :
    c.statements.length = before.length := by
  rw [← List.length_reverse, reverse_of_through? h, List.length_map]

/-- The first branch stays what has been captured when the branches are parted. -/
theorem branch_of_run (hallowed : c.elseAllowed = true) {marker : String}
    (hstatements : c.statements.reverse = before.map Text.trim ++ [marker])
    (hparted : c.elseAt = some before.length) {b : Block} (hb : (c.run .ok rest).block = .ok b) :
    b.elseAt = some before.length ∧ b.branch true = .ok (before.map Text.trim) := by
  obtain ⟨c', rfl, hc'⟩ := continues_of_run hb
  obtain ⟨second, hsecond⟩ := hc'.statements
  have helse : c'.elseAt = some before.length := hc'.elseAt _ hparted
  have hfinish : c'.finish =
      ⟨before.map Text.trim ++ marker :: second.reverse, some (before.map Text.trim).length,
        true⟩ := by
    rw [finish, ← hsecond, helse, hc'.elseAllowed, hallowed, List.reverse_append,
      hstatements, List.append_assoc, List.length_map]
    rfl
  refine ⟨helse, ?_⟩
  rw [hfinish]
  exact (Block.branch_of_parted ..).1

theorem heeded_of_alone (hbefore : (start elseAllowed).through? before = some c)
    (hallowed : c.elseAllowed = true) (hparted : c.elseAt = none)
    (hstep : c.step line = c.splitAt keyword (Text.trim line) [.symbol keyword])
    (rest : List String) :
    c.Heeded before line keyword [.symbol keyword] rest
      (Block.capture elseAllowed (before ++ line :: rest)) := by
  obtain rfl : elseAllowed = true :=
    (continues_of_through? hbefore).1.elseAllowed.symm.trans hallowed
  rw [splitAt_of_alone hallowed hparted rfl, length_of_through? hbefore] at hstep
  rw [capture_of_step hbefore, hstep]
  refine .parts hallowed hparted rfl ?_ fun b hb => ?_
  · rw [through?_append hbefore, through?, hstep]
    rfl
  · have hreverse := reverse_of_through? hbefore
    exact branch_of_run (c := { c.push (Text.trim line) with elseAt := some before.length })
      hallowed ((List.reverse_cons ..).trans (congrArg (· ++ _) hreverse)) rfl hb

theorem heeded_of_more (hbefore : (start elseAllowed).through? before = some c)
    (hallowed : c.elseAllowed = true) (hparted : c.elseAt = none) (hmore : g.length ≠ 1)
    (hstep : c.step line = c.splitAt keyword (Text.trim line) g) (rest : List String) :
    c.Heeded before line keyword g rest (Block.capture elseAllowed (before ++ line :: rest)) := by
  rw [splitAt_of_more hallowed hparted hmore, reverse_of_through? hbefore,
    length_of_through? hbefore] at hstep
  rw [capture_of_step hbefore, hstep]
  refine .ends hallowed hparted (fun halone => hmore (congrArg List.length halone)) rfl rfl ?_
  rintro _ ⟨⟩
  rw [← List.length_map]
  exact (Block.branch_of_parted ..).2

/-- Where the capture takes the `else` for the block's own, the line is heeded. -/
theorem heeded_of_splitAt (hbefore : (start elseAllowed).through? before = some c)
    (hk : startsWithElse? g = some keyword)
    (hstep : c.step line = c.splitAt keyword (Text.trim line) g) (rest : List String) :
    c.Heeded before line keyword g rest (Block.capture elseAllowed (before ++ line :: rest)) := by
  cases hallowed : c.elseAllowed with
  | false =>
    rw [capture_of_step hbefore, hstep, splitAt, hallowed]
    exact .notAllowed hallowed rfl rfl rfl
  | true =>
    cases hparted : c.elseAt with
    | some i =>
      rw [capture_of_step hbefore, hstep, splitAt, hallowed, hparted]
      exact .again hallowed (hparted ▸ rfl) rfl rfl rfl
    | none =>
      obtain ⟨tail, rfl, -⟩ := startsWithElse?_eq_some hk
      cases tail with
      | nil => exact heeded_of_alone hbefore hallowed hparted hstep rest
      | cons item tail => exact heeded_of_more hbefore hallowed hparted (by simp) hstep rest

/-- A capture that goes on reads a line, or there is none. -/
theorem run_of_read (h : (c.run .ok rest).read = 0) :
    (c.run .ok rest).block = .error .blockNotTerminated := by
  cases rest with
  | nil => rfl
  | cons line rest =>
    rw [run] at h
    dsimp only at h
    split at h <;> simp at h

theorem even_of_alone (hk : startsWithElse? [.symbol keyword] = some keyword) :
    Group.Even [.symbol keyword] := by
  obtain ⟨_, -, rfl | rfl⟩ := startsWithElse?_eq_some hk
  · exact ⟨rfl, by decide, rfl, rfl⟩
  · exact ⟨rfl, by decide, rfl, rfl⟩

/-- A line with more than its `else` on it is reported for its meaning, or is the last one
    of a block whose branches it parts. -/
theorem Heeded.outcome {o : Outcome String} (h : c.Heeded before line keyword g rest o)
    (hmore : g ≠ [.symbol keyword]) :
    o.read = before.length + 1 ∧
      match o.block with
      | .ok b => b.elseAt ≠ c.elseAt
      | .error f => f.report.kind = .semantic := by
  have hfault : ∀ {hint : String}, o.block.mapError Fault.report =
      .error ⟨.semantic, "Unexpected keyword 'else'", hint⟩ →
      ∃ f, o.block = .error f ∧ f.report.kind = .semantic := by
    intro hint hblock
    cases hb : o.block with
    | ok b =>
      rw [hb] at hblock
      cases hblock
    | error f =>
      rw [hb] at hblock
      exact ⟨f, rfl, congrArg Report.kind (Except.error.inj hblock)⟩
  cases h with
  | notAllowed _ hblock _ hread | again _ _ hblock _ hread =>
    obtain ⟨f, hf, hkind⟩ := hfault hblock
    rw [hf]
    exact ⟨hread, hkind⟩
  | parts _ _ halone => exact absurd halone hmore
  | ends _ hparted _ _ ho =>
    rw [ho, hparted]
    exact ⟨rfl, Option.some_ne_none _⟩

/-- The `else` of a line that is not even makes no difference. -/
theorem not_heeded_of_not_even (hbefore : (start elseAllowed).through? before = some c)
    (hl : c.level = 0) (hg : Group.ofLine (Text.trim line) = .ok g)
    (hk : startsWithElse? g = some keyword) (he : ¬g.Even) (rest : List String) :
    ¬c.Heeded before line keyword g rest (Block.capture elseAllowed (before ++ line :: rest)) := by
  intro hheeded
  obtain ⟨hread, hblock⟩ := hheeded.outcome fun halone => he (halone ▸ even_of_alone (halone ▸ hk))
  rw [capture_of_step hbefore] at hread hblock
  obtain hstep | hstep | hstep | ⟨level, hstep⟩ := step_of_not_even hl hg hk he <;>
    rw [hstep] at hread hblock
  · cases hblock
  · cases hblock
  · exact hblock rfl
  · -- The capture goes on, so it reads a line more, unless there is none.
    rw [run_of_read (Nat.add_left_cancel hread)] at hblock
    cases hblock

end

end Capture

/-- Where nothing is open within the block, a capture minds the `else` at the start of the
    even lines, and only of those. -/
theorem else_heeded_iff {elseAllowed : Bool} {before rest : List String} {c : Capture}
    {line keyword : String} {g : Group}
    (hbefore : (Capture.start elseAllowed).through? before = some c) (hlevel : c.level = 0)
    (hg : Group.ofLine (Text.trim line) = .ok g)
    (hk : Capture.startsWithElse? g = some keyword) :
    c.Heeded before line keyword g rest (Block.capture elseAllowed (before ++ line :: rest)) ↔
      g.Even := by
  refine ⟨fun h => ?_, fun he => ?_⟩
  · by_contra he
    exact Capture.not_heeded_of_not_even hbefore hlevel hg hk he rest h
  · refine Capture.heeded_of_splitAt hbefore hk ?_ rest
    rw [Capture.step_even hg hk he, Capture.addLine]
    dsimp only
    rw [hk]
    exact if_pos hlevel

/-- A statement behind `otherwise`, and a line that is not read any more. -/
theorem else_heeded_iff_otherwise :
    let c : Capture := ⟨["print(1)"], none, true, 0⟩
    let g : Group := [.symbol "otherwise", .symbol "print", .group [.symbol "2"]]
    (Capture.start true).through? ["print(1)"] = some c ∧ c.level = 0 ∧
      Group.ofLine (Text.trim " otherwise print(2)") = .ok g ∧
      Capture.startsWithElse? g = some "otherwise" ∧ g.Even ∧
      c.Heeded ["print(1)"] " otherwise print(2)" "otherwise" g ["never read"]
        (Block.capture true (["print(1)"] ++ " otherwise print(2)" :: ["never read"])) := by
  intro c g
  have hbefore : (Capture.start true).through? ["print(1)"] = some c := by cbv
  have hg : Group.ofLine (Text.trim " otherwise print(2)") = .ok g := by cbv
  have hk : Capture.startsWithElse? g = some "otherwise" := by decide
  have he : g.Even := ⟨by decide, by decide, by decide⟩
  exact ⟨hbefore, rfl, hg, hk, he, (else_heeded_iff hbefore rfl hg hk).2 he⟩

/-- The line opens a construct, and its own `else` closes it again: the block goes on, and
    ends without a second branch. -/
theorem else_if_overlooked :
    let c : Capture := ⟨["a"], none, true, 0⟩
    let g : Group := [.symbol "else", .symbol "if", .symbol "x", .symbol ","]
    let o := Block.capture true (["a"] ++ "else if x," :: ["b", "end"])
    (Capture.start true).through? ["a"] = some c ∧
      Group.ofLine (Text.trim "else if x,") = .ok g ∧
      Capture.startsWithElse? g = some "else" ∧
      o = { block := .ok ⟨["a", "else if x,", "b"], none, true⟩, rest := [], read := 4 } ∧
      ¬c.Heeded ["a"] "else if x," "else" g ["b", "end"] o := by
  intro c g o
  have hbefore : (Capture.start true).through? ["a"] = some c := by cbv
  have hg : Group.ofLine (Text.trim "else if x,") = .ok g := by cbv
  have hk : Capture.startsWithElse? g = some "else" := by decide
  have he : ¬g.Even := fun he => absurd he.bodies.1 (by decide)
  exact ⟨hbefore, hg, hk, by cbv, Capture.not_heeded_of_not_even hbefore rfl hg hk he _⟩

end Linewise
