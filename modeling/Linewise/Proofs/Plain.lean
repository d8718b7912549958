import Linewise.Proofs.Capture
import Linewise.Proofs.Readless

/-!
# Lines that say what they open

A capture goes by the symbols on a line, and the evaluation by what happens to be
evaluated. So they need not agree on how many bodies follow a line: with
`if no, begin` a capture expects one, and the evaluation takes none.

* On a *plain* line they cannot disagree: it opens no body or one, both for a
  capture and for the evaluation, whatever the values are (`Group.Plain`).
* A line *nests* if it makes no difference to it in how many bodies it stands: a
  capture that is one level deeper than another one goes over it in the same way
  (`Group.Nests`, `Capture.step_over`), until it closes what the other one ends at
  (`Capture.through?_of_run`).
-/

namespace Linewise

/-! ## Lines that open a body -/

/-- The evaluation takes one body from the lines that follow, whatever happens
    before. -/
inductive Group.OpensBody : Group → Prop
  | opening {item : Item} (hk : Group.keyword? [item] = some .opening) : OpensBody [item]
  | conditional {item : Item} {g test : Group}
      (hk : Group.keyword? (item :: g) = some .conditional)
      (hg : Statement.conditionAndBody .conditional g = .ok (test, []))
      (htest : test.Settled false) : OpensBody (item :: g)
  | alternative {item last : Item} {g test body first : Group}
      (hk : Group.keyword? (item :: g) = some .conditional)
      (hg : Statement.conditionAndBody .conditional g = .ok (test, body))
      (hbody : body.span (fun item => !item.isElse) = (first, [last]))
      (htest : test.Settled false) (hfirst : first.Settled false) : OpensBody (item :: g)
  | repetition {item : Item} {g test : Group}
      (hk : Group.keyword? (item :: g) = some .repetition)
      (hg : Statement.conditionAndBody .repetition g = .ok (test, []))
      (htest : test.Settled false) : OpensBody (item :: g)
  | assignment {item eq : Item} {g head body : Group}
      (hk : Group.keyword? (item :: g) = some .assignment)
      (hg : g.span (fun item => !item.isSymbol "=") = (head, eq :: body))
      (hname : Assignment.hasParameters head = false)
      (hhead : ∀ g', .group g' ∈ head → Group.Settled false g')
      (hbody : OpensBody body) : OpensBody (item :: g)
  | directive {item : Item} {g : Group} (hk : Group.keyword? (item :: g) = some .directive)
      (hg : OpensBody g.tail) : OpensBody (item :: g)

namespace Capture

/-- The number of bodies that a capture expects to follow a line. -/
def opened (g : Group) : Nat :=
  g.count Keyword.opening.symbol +
    ((opensBody g .conditional).toNat + (opensBody g .repetition).toNat) + (opensElse g).toNat

end Capture

/-- The evaluation and a capture agree on how many bodies follow. -/
inductive Group.Plain (g : Group) : Prop
  /-- All is on one line. -/
  | single (hc : g.count Keyword.closing.symbol = 0) (ho : Capture.opened g = 0)
      (hs : g.Settled false)
  /-- A body follows. -/
  | opening (hc : g.count Keyword.closing.symbol = 0) (ho : Capture.opened g = 1)
      (hb : g.OpensBody)

/-- Captures at different levels agree on what the line opens and closes. -/
inductive Group.Nests (g : Group) : Prop
  /-- It only closes what it opens itself. -/
  | within (hk : Capture.startsWithElse? g = none)
      (hc : g.count Keyword.closing.symbol ≤ g.count Keyword.opening.symbol)
  /-- The second branch of an `if`, or the start of one. -/
  | second (hk : (Capture.startsWithElse? g).isSome)
      (hc : g.count Keyword.closing.symbol ≤ g.count Keyword.opening.symbol)
      (ho : Capture.opensElse g = false)
  /-- It closes a body and opens none. -/
  | closing (hk : Capture.startsWithElse? g = none) (hc : g.count Keyword.closing.symbol = 1)
      (ho : Capture.opened g = 0)

/-- The statement on a line, if it is one, is plain. -/
def Statement.Plain (line : String) : Prop :=
  ∀ g, Group.ofLine (Text.trim line) = .ok g → g.Plain

/-- The statement on a line, if it is one, may stand in any number of bodies, and
    captures its blocks from the one that it is evaluated in. -/
def Statement.Nests (line : String) : Prop :=
  ∀ g, Group.ofLine (Text.trim line) = .ok g → g.Nests ∧ g.Settled true

theorem Statement.plain_of_ofLine {line : String} (g : Group)
    (h : Group.ofLine (Text.trim line) = .ok g) (hg : g.Plain) : Statement.Plain line := by
  intro g' hg'
  cases h.symm.trans hg'
  exact hg

theorem Statement.nests_of_ofLine {line : String} (g : Group)
    (h : Group.ofLine (Text.trim line) = .ok g) (hg : g.Nests) (hs : g.Settled true) :
    Statement.Nests line := by
  intro g' hg'
  cases h.symm.trans hg'
  exact ⟨hg, hs⟩

/-- What has to be known of a part for the group to be settled, if no function is
    defined on the line. -/
def Part.Settled (inBlock : Bool) : Part → Prop
  | symbol _ => True
  | group g => g.Settled inBlock
  | line _ => False
  | block => inBlock = true

theorem Group.settled_of_parts {inBlock : Bool} {g : Group}
    (hk : Capture.startsWithElse? g = none)
    (h : ∀ p ∈ Statement.parts g, p.Settled inBlock) : g.Settled inBlock := by
  refine .mk (h .block) (fun g' => h (.group g')) (fun g' hg' => (h _ hg').elim) ?_
  intro helse
  rw [hk] at helse
  cases helse

/-! ## Captures one level deeper -/

namespace Capture

variable {c outer : Capture} {line : String} {g : Group}

theorem step_of_nil (hg : Group.ofLine (Text.trim line) = .ok []) :
    c.step line = .more (c.push (Text.trim line)) := by
  rw [step]
  dsimp only
  rw [hg]

theorem step_of_ne_nil (hg : Group.ofLine (Text.trim line) = .ok g) (hne : g ≠ []) :
    c.step line =
      if 1 < g.count Keyword.opening.symbol then .failed .severalBegins
      else if 1 < g.count Keyword.closing.symbol then .failed .severalEnds
      else if g.count Keyword.closing.symbol = 1 &&
          c.level + g.count Keyword.opening.symbol = 0 then .complete c.finish
      else
        { c with
          level := c.level + g.count Keyword.opening.symbol - g.count Keyword.closing.symbol +
            ((opensBody g .conditional).toNat + (opensBody g .repetition).toNat) }.addLine
          (Text.trim line) g := by
  rw [step]
  dsimp only
  rw [hg]
  cases g with
  | nil => exact absurd rfl hne
  | cons item g => rfl

theorem addLine_of_none (hk : startsWithElse? g = none) (statement : String) :
    c.addLine statement g =
      .more { c.push statement with level := c.level + (opensElse g).toNat } := by
  rw [addLine]
  dsimp only
  rw [hk]
  rfl

theorem addLine_of_some {keyword : String} (hk : startsWithElse? g = some keyword)
    (ho : opensElse g = false) (statement : String) :
    c.addLine statement g =
      if c.level = 0 then c.splitAt keyword statement g
      else
        .more { c.push statement with level := c.level - if g.length = 1 then 0 else 1 } := by
  rw [addLine]
  dsimp only
  rw [hk, ho]
  rfl

/-- A line that only closes what it opens itself, and does not start with `else`. -/
theorem step_within (hg : Group.ofLine (Text.trim line) = .ok g)
    (hk : startsWithElse? g = none)
    (hc : g.count Keyword.closing.symbol ≤ g.count Keyword.opening.symbol)
    (hb : g.count Keyword.opening.symbol ≤ 1) :
    c.step line =
      .more { c.push (Text.trim line) with
        level := c.level + (opened g - g.count Keyword.closing.symbol) } := by
  by_cases hne : g = []
  · subst hne
    exact step_of_nil hg
  have hend : ¬(g.count Keyword.closing.symbol = 1 ∧ c.level + g.count Keyword.opening.symbol = 0) :=
    by omega
  -- A line on which `begin` comes up more than once has failed before.
  have hlevel : c.level + g.count Keyword.opening.symbol - g.count Keyword.closing.symbol +
      ((opensBody g .conditional).toNat + (opensBody g .repetition).toNat) +
      (opensElse g).toNat = c.level + (opened g - g.count Keyword.closing.symbol) := by
    rw [opened]
    omega
  rw [step_of_ne_nil hg hne, if_neg (Nat.not_lt.2 hb), if_neg (Nat.not_lt.2 (Nat.le_trans hc hb)),
    if_neg (by simpa using hend), addLine_of_none hk, ← hlevel]
  rfl

/-- A line that closes a body, and opens none. -/
theorem step_of_closing (hg : Group.ofLine (Text.trim line) = .ok g)
    (hk : startsWithElse? g = none) (hc : g.count Keyword.closing.symbol = 1)
    (ho : opened g = 0) :
    c.step line =
      if c.level = 0 then .complete c.finish
      else .more { c.push (Text.trim line) with level := c.level - 1 } := by
  have hne : g ≠ [] := by
    rintro rfl
    cases hc
  rw [opened] at ho
  have hb : g.count Keyword.opening.symbol = 0 := by omega
  have hbodies : (opensBody g .conditional).toNat + (opensBody g .repetition).toNat = 0 := by omega
  have helse : (opensElse g).toNat = 0 := by omega
  rw [step_of_ne_nil hg hne, hb, if_neg (Nat.not_lt_zero 1), hc, if_neg (Nat.lt_irrefl 1),
    addLine_of_none hk, hbodies, helse]
  simp [push]

/-- What a capture one level deeper, `outer`, has to do with a statement that makes
    a capture take the given step. -/
def Step.over (outer : Capture) (statement : String) : Step → Step
  | more c => .more { outer.push statement with level := c.level + 1 }
  | complete _ => .more { outer.push statement with level := 0 }
  | failed f => .failed f

theorem addLine_over (outer : Capture) {keyword : String} (hk : startsWithElse? g = some keyword)
    (ho : opensElse g = false) (hl : outer.level = c.level + 1) {statement : String}
    (hadd : ∀ f, c.addLine statement g ≠ .failed f) :
    outer.addLine statement g = (c.addLine statement g).over outer statement := by
  have houter : outer.level ≠ 0 := hl ▸ Nat.succ_ne_zero _
  rw [addLine_of_some hk ho] at hadd
  rw [addLine_of_some hk ho, addLine_of_some hk ho, if_neg houter, hl]
  by_cases hzero : c.level = 0
  · -- The line belongs to what `c` captures, and ends it unless it is `else` alone.
    rw [if_pos hzero, splitAt] at hadd
    rw [if_pos hzero, splitAt]
    by_cases hallowed : !c.elseAllowed
    · exact absurd (if_pos hallowed) (hadd _)
    rw [if_neg hallowed] at hadd ⊢
    by_cases hsplit : c.elseAt.isSome
    · exact absurd (if_pos hsplit) (hadd _)
    rw [if_neg hsplit]
    by_cases hlen : g.length = 1
    · simp [hlen, Step.over, push, hzero]
    · simp [hlen, Step.over, push, hzero]
  · rw [if_neg hzero, Step.over]
    refine congrArg (fun level => Step.more { outer.push statement with level }) ?_
    dsimp only
    split <;> omega

/-- A capture one level deeper goes over a line that nests in the same way, also where
    the other one ends. -/
theorem step_over (hline : Statement.Nests line) (hl : outer.level = c.level + 1)
    (hstep : ∀ f, c.step line ≠ .failed f) :
    outer.step line = (c.step line).over outer (Text.trim line) := by
  -- The captures only differ where the level is zero for `c` and one for `outer`:
  -- at a line that closes a body, and at one that starts with `else`.
  cases hg : Group.ofLine (Text.trim line) with
  | error f =>
    refine absurd ?_ (hstep f)
    rw [step]
    dsimp only
    rw [hg]
  | ok g =>
    by_cases hne : g = []
    · subst hne
      rw [step_of_nil hg, step_of_nil hg, Step.over]
      refine congrArg (fun level => Step.more { outer.push (Text.trim line) with level }) hl
    have hb : g.count Keyword.opening.symbol ≤ 1 := by
      refine Nat.le_of_not_lt fun hb => hstep .severalBegins ?_
      rw [step_of_ne_nil hg hne, if_pos hb]
    have he : g.count Keyword.closing.symbol ≤ 1 := by
      refine Nat.le_of_not_lt fun he => hstep .severalEnds ?_
      rw [step_of_ne_nil hg hne, if_neg (Nat.not_lt.2 hb), if_pos he]
    cases (hline g hg).1 with
    | within hk hc =>
      rw [step_within hg hk hc hb, step_within hg hk hc hb, hl, Step.over]
      dsimp only
      rw [Nat.add_right_comm]
    | closing hk hc ho =>
      rw [step_of_closing hg hk hc ho, step_of_closing hg hk hc ho, hl,
        if_neg (Nat.succ_ne_zero _)]
      by_cases hzero : c.level = 0
      · rw [if_pos hzero, hzero, Step.over]
      · rw [if_neg hzero, Step.over]
        dsimp only
        rw [Nat.sub_add_cancel (Nat.pos_of_ne_zero hzero), Nat.add_sub_cancel]
    | second hk hc ho =>
      obtain ⟨keyword, hk⟩ := Option.isSome_iff_exists.1 hk
      have hadd : ∀ c : Capture, c.step line = Capture.addLine
          { c with
            level := c.level + g.count Keyword.opening.symbol - g.count Keyword.closing.symbol +
              ((opensBody g .conditional).toNat + (opensBody g .repetition).toNat) }
          (Text.trim line) g := by
        intro c
        have hend : ¬(g.count Keyword.closing.symbol = 1 ∧
            c.level + g.count Keyword.opening.symbol = 0) := by omega
        rw [step_of_ne_nil hg hne, if_neg (Nat.not_lt.2 hb), if_neg (Nat.not_lt.2 he),
          if_neg (by simpa using hend)]
      rw [hadd c] at hstep
      rw [hadd c, hadd outer, hl]
      refine addLine_over { outer with level := _ } hk ho ?_ hstep
      dsimp only
      omega

/-- The capture after some lines, none of which ends it. -/
def through? (c : Capture) : List String → Option Capture
  | [] => some c
  | line :: lines =>
    match c.step line with
    | .more c => c.through? lines
    | _ => none

/-- The capture with further statements. -/
def pushAll (c : Capture) (lines : List String) : Capture :=
  { c with statements := (lines.map Text.trim).reverse ++ c.statements }

theorem pushAll_cons (c : Capture) (line : String) (lines : List String) :
    c.pushAll (line :: lines) = (c.push (Text.trim line)).pushAll lines := by
  simp [pushAll, push]

theorem through?_append {c c₁ : Capture} {first second : List String}
    (h : c.through? first = some c₁) : c.through? (first ++ second) = c₁.through? second := by
  induction first generalizing c with
  | nil => exact congrArg (through? · second) (Option.some.inj h)
  | cons line first ih =>
    rw [through?] at h
    rw [List.cons_append, through?]
    split at h
    · exact ih h
    · cases h

/-- A capture goes on after lines that do not end it. -/
theorem run_of_through? {c c' : Capture} {lines rest : List String}
    (h : c.through? lines = some c') :
    c.run .ok (lines ++ rest) =
      { c'.run .ok rest with read := (c'.run .ok rest).read + lines.length } := by
  induction lines generalizing c with
  | nil => cases h; rfl
  | cons line lines ih =>
    rw [through?] at h
    split at h
    · rename_i c₁ hstep
      rw [List.cons_append, run]
      dsimp only
      rw [hstep]
      dsimp only
      rw [ih h, List.length_cons, ← Nat.add_assoc]
    · cases h

/-- Where a capture within takes its lines, one that is a level deeper goes on to the
    level below. -/
theorem through?_of_run (outer : Capture) {lines : List String}
    (hlines : ∀ line ∈ lines, Statement.Nests line) (hl : outer.level = c.level + 1) {b : Block}
    (hb : (c.run .ok lines).block = .ok b) :
    ∃ taken, lines = taken ++ (c.run .ok lines).rest ∧
      outer.through? taken = some { outer.pushAll taken with level := 0 } := by
  -- Line by line, `outer` stays one level deeper (`step_over`). The line at which `c`
  -- is complete brings it down to level zero.
  induction lines generalizing c outer with
  | nil => cases hb
  | cons line lines ih =>
    rw [List.forall_mem_cons] at hlines
    have hstep : ∀ f, c.step line ≠ .failed f := by
      intro f hf
      rw [run] at hb
      dsimp only at hb
      rw [hf] at hb
      cases hb
    have hover := step_over hlines.1 hl hstep
    rw [run] at hb ⊢
    dsimp only at hb ⊢
    cases hc : c.step line with
    | more c' =>
      rw [hc] at hb hover
      obtain ⟨taken, htaken, hthrough⟩ :=
        ih { outer.push (Text.trim line) with level := c'.level + 1 } hlines.2 rfl hb
      refine ⟨line :: taken, congrArg (line :: ·) htaken, ?_⟩
      rw [through?, hover, pushAll_cons]
      exact hthrough
    | complete b' =>
      rw [hc] at hover
      refine ⟨[line], rfl, ?_⟩
      rw [through?, hover]
      rfl
    | failed f => exact absurd hc (hstep f)

end Capture

end Linewise
