import Linewise.Proofs.Brackets
import Mathlib

/-!
# Round brackets and bars

Bars in turns open and close groups as round brackets do, and whether a line is a tree is
a matter of how many groups it opens and closes (`Linewise.Proofs.Brackets`). Which kind
of bracket does so is not looked at: a round bracket may close a group that a bar has
opened, and a bar one of a round bracket (`crossing_accepted`).

So a line may be a tree although its brackets do not nest. They do (`Text.Nests`) just if,
besides, the round brackets between each bar that opens and the next are closed among
themselves (`Text.BarsClosed`, `brackets_nest_iff`).

* A line whose brackets nest is a tree: what is open, as numbers, is counted
  (`Reading.tally_step`).
* Where they nest, nothing that stands before a bar is closed between that bar and the
  next (`Reading.exists_closing_bar`).
* Conversely, what is read between two bars leaves what stands before them
  (`Reading.read_piece`), and outside of bars round brackets are all there is
  (`Reading.nests_of_barsClosed`).
-/

namespace Linewise

inductive Bracket where
  | round
  | bar
deriving DecidableEq

/-- The brackets that are open in the middle of a line whose brackets nest. -/
structure Reading where
  /-- The innermost first. -/
  opened : List Bracket
  /-- The number of bars so far is odd. -/
  barOpen : Bool
deriving DecidableEq

namespace Reading

/-- The start of a line. -/
def start : Reading where
  opened := []
  barOpen := false

/-- A bracket is closed, which must be the innermost one that is open. -/
def close (r : Reading) (b : Bracket) : Option Reading :=
  match r.opened with
  | [] => none
  | b' :: opened => if b' = b then some { r with opened } else none

/-- After one more character outside of literals. Odd-numbered bars open, and
    even-numbered ones close. -/
def step (r : Reading) (c : Char) : Option Reading :=
  if c = '(' then some { r with opened := .round :: r.opened }
  else if c = ')' then r.close .round
  else if c = '|' then
    if r.barOpen then { r with barOpen := false }.close .bar
    else some { opened := .bar :: r.opened, barOpen := true }
  else some r

end Reading

namespace Text

/-- Every bracket that closes is of the kind of the innermost one that is open, and all are
    closed in the end. -/
def Nests (bare : List Char) : Prop :=
  ∃ r, bare.foldlM Reading.step .start = some r ∧ r.opened = []

instance (bare : List Char) : Decidable (Nests bare) :=
  decidable_of_iff ((bare.foldlM Reading.step .start).any (·.opened.isEmpty) = true) <| by
    simp [Nests, Option.any_eq_true]

/-- Where `k` round brackets are open, the characters close them, as many as they open
    themselves, and no more at any place. -/
structure Balances (k : Nat) (piece : List Char) : Prop where
  start : ∀ p, p <+: piece → p.count ')' ≤ k + p.count '('
  all : piece.count ')' = k + piece.count '('

/-- After every bar that opens there is another one, and the round brackets between the two
    are closed among themselves. -/
def BarsClosed (bare : List Char) : Prop :=
  ∀ before after, bare = before ++ '|' :: after → before.count '|' % 2 = 0 →
    ∃ piece rest, after = piece ++ '|' :: rest ∧ '|' ∉ piece ∧ Balances 0 piece

variable {k : Nat} {c : Char} {piece bare : List Char}

/-! ## Balance -/

theorem balances_nil_iff : Balances k [] ↔ k = 0 :=
  ⟨fun h => h.all.symm, fun h => ⟨fun p hp => by simp [List.prefix_nil.1 hp], by simp [h]⟩⟩

theorem balances_cons_iff : Balances k (c :: piece) ↔
    (∀ p, p <+: piece → (c :: p).count ')' ≤ k + (c :: p).count '(') ∧
      (c :: piece).count ')' = k + (c :: piece).count '(' := by
  refine ⟨fun h => ⟨fun p hp => h.start _ ((List.prefix_cons_inj c).2 hp), h.all⟩, fun h => ?_⟩
  refine ⟨fun p hp => ?_, h.2⟩
  obtain rfl | ⟨p, rfl, hprefix⟩ := List.prefix_cons_iff.1 hp
  · exact Nat.zero_le _
  · exact h.1 p hprefix

theorem balances_open_iff : Balances k ('(' :: piece) ↔ Balances (k + 1) piece := by
  simp only [balances_cons_iff, List.count_cons_self, ne_eq, Char.reduceEq, not_false_eq_true,
    List.count_cons_of_ne]
  refine ⟨fun h => ⟨fun p hp => ?_, ?_⟩, fun h => ⟨fun p hp => ?_, ?_⟩⟩
  · have := h.1 p hp
    omega
  · omega
  · have := h.start p hp
    omega
  · have := h.all
    omega

theorem balances_close_iff :
    Balances k (')' :: piece) ↔ ∃ k', k = k' + 1 ∧ Balances k' piece := by
  simp only [balances_cons_iff, List.count_cons_self, ne_eq, Char.reduceEq, not_false_eq_true,
    List.count_cons_of_ne]
  constructor
  · intro h
    -- There is a bracket to close at the start already.
    have hpos := h.1 [] (List.nil_prefix)
    simp only [List.count_nil, Nat.zero_add, Nat.add_zero] at hpos
    refine ⟨k - 1, by omega, fun p hp => ?_, ?_⟩
    · have := h.1 p hp
      omega
    · omega
  · rintro ⟨k', rfl, h⟩
    refine ⟨fun p hp => ?_, ?_⟩
    · have := h.start p hp
      omega
    · have := h.all
      omega

theorem balances_other_iff (hopen : c ≠ '(') (hclose : c ≠ ')') :
    Balances k (c :: piece) ↔ Balances k piece := by
  simp only [balances_cons_iff, List.count_cons_of_ne hopen, List.count_cons_of_ne hclose]
  exact ⟨fun h => ⟨h.1, h.2⟩, fun h => ⟨h.start, h.all⟩⟩

/-- What comes after a character that is no bar, or after two bars. -/
theorem BarsClosed.of_append {before : List Char} (h : BarsClosed (before ++ bare))
    (heven : before.count '|' % 2 = 0) : BarsClosed bare := by
  intro before' after hbare hcount
  refine h (before ++ before') after (by rw [hbare, List.append_assoc]) ?_
  rw [List.count_append]
  omega

end Text

/-! ## What is counted -/

theorem Tally.excess_le_step (t : Tally) (c : Char) : t.excess ≤ (t.step c).excess := by
  have hclosed : t.excess ≤ t.closed.excess := by
    rw [closed]
    split
    · exact Nat.le_succ _
    · exact Nat.le_refl _
  rw [step]
  split
  · exact Nat.le_refl _
  split
  · exact hclosed
  split
  · split
    · exact hclosed
    · exact Nat.le_refl _
  · exact Nat.le_refl _

theorem Tally.excess_le_foldl (t : Tally) (cs : List Char) :
    t.excess ≤ (cs.foldl step t).excess := by
  induction cs generalizing t with
  | nil => exact Nat.le_refl _
  | cons c cs ih => exact Nat.le_trans (t.excess_le_step c) (ih (t.step c))

theorem Tally.counts_foldl_start (bare : List Char) :
    (bare.foldl step Tally.start).Counts bare := by
  induction bare using List.reverseRecOn with
  | nil => exact counts_start
  | append_singleton bare c ih =>
    rw [List.foldl_append]
    exact (ih.step c).1

/-- A line is a tree if its literals are closed, nothing is open at its end, and no bracket
    closed nothing. -/
theorem Group.exists_ofLine_iff (line : String) :
    (∃ g, Group.ofLine line = .ok g) ↔ line.toList.count '"' % 2 = 0 ∧
      let t := (Text.outside false line.toList).foldl Tally.step .start
      t.depth = 0 ∧ t.excess = 0 := by
  obtain ⟨⟨hdepth, -⟩, hexcess⟩ := Tally.counts_foldl line.toList
  rcases Nat.mod_two_eq_zero_or_one (line.toList.count '"') with heven | hodd
  · have houtcome := Group.ofLine_of_even heven
    dsimp only at houtcome ⊢
    rw [hexcess] at hdepth ⊢
    split at houtcome
    · rename_i hk
      simp only [houtcome, reduceCtorEq, exists_false, false_iff]
      omega
    split at houtcome
    · rename_i hk hu
      simp only [houtcome, reduceCtorEq, exists_false, false_iff]
      omega
    · rename_i hk hu
      exact iff_of_true houtcome ⟨heven, by omega, by omega⟩
  · rw [Group.ofLine_of_odd hodd]
    simp [hodd]

namespace Reading

open Text (Balances BarsClosed)

variable {r r' : Reading} {c : Char} {cs : List Char} {k : Nat} {outer : List Bracket}

/-- What is open, as numbers. -/
def tally (r : Reading) : Tally where
  depth := r.opened.length
  excess := 0
  barOpen := r.barOpen

theorem close_iff {b : Bracket} :
    r.close b = some r' ↔ ∃ opened, r.opened = b :: opened ∧ r' = { r with opened } := by
  obtain ⟨opened, barOpen⟩ := r
  cases opened with
  | nil => exact ⟨nofun, fun ⟨_, h, _⟩ => nomatch h⟩
  | cons b' opened =>
    simp only [close, List.cons.injEq, Option.ite_none_right_eq_some, Option.some.injEq]
    exact ⟨fun ⟨hb, hr⟩ => ⟨opened, ⟨hb, rfl⟩, hr.symm⟩,
      fun ⟨_, ⟨hb, hopened⟩, hr⟩ => ⟨hb, hopened ▸ hr.symm⟩⟩

/-- What a character does to a reading. -/
theorem step_iff : r.step c = some r' ↔
    c = '(' ∧ r' = { r with opened := .round :: r.opened } ∨
    (c = ')' ∧ ∃ opened, r.opened = .round :: opened ∧ r' = { r with opened }) ∨
    (c = '|' ∧ r.barOpen = true ∧ ∃ opened, r.opened = .bar :: opened ∧ r' = ⟨opened, false⟩) ∨
    (c = '|' ∧ r.barOpen = false ∧ r' = ⟨.bar :: r.opened, true⟩) ∨
    ¬(c = '(' ∨ c = ')' ∨ c = '|') ∧ r' = r := by
  rw [step]
  by_cases hopen : c = '('
  · simp [hopen, eq_comm (a := r')]
  by_cases hclose : c = ')'
  · simp [hclose, close_iff]
  by_cases hbar : c = '|'
  · cases hodd : r.barOpen <;> simp [hbar, close_iff, eq_comm (a := r')]
  · simp [hopen, hclose, hbar, eq_comm (a := r')]

theorem tally_step (h : r.step c = some r') : r.tally.step c = r'.tally := by
  rcases step_iff.1 h with ⟨rfl, rfl⟩ | ⟨rfl, opened, hr, rfl⟩ | ⟨rfl, hbar, opened, hr, rfl⟩ |
    ⟨rfl, hbar, rfl⟩ | ⟨hother, rfl⟩
  · rfl
  · simp [tally, hr, Tally.step, Tally.closed]
  · simp [tally, hr, hbar, Tally.step, Tally.closed]
  · simp [tally, hbar, Tally.step, Tally.opened]
  · exact Tally.step_of_not hother _

theorem tally_foldlM (h : cs.foldlM step r = some r') : cs.foldl Tally.step r.tally = r'.tally := by
  induction cs generalizing r with
  | nil =>
    cases h
    rfl
  | cons c cs ih =>
    obtain ⟨r₁, hstep, hrest⟩ := Option.bind_eq_some_iff.1 h
    rw [List.foldl_cons, tally_step hstep, ih hrest]

/-- After an even number of bars, the next one opens. -/
theorem barOpen_of_even (h : cs.foldlM step start = some r) (heven : cs.count '|' % 2 = 0) :
    r.barOpen = false := by
  have hbar := (Tally.counts_foldl_start cs).barOpen
  have htally : cs.foldl Tally.step Tally.start = r.tally := tally_foldlM h
  rw [htally, heven] at hbar
  exact hbar

/-! ## Bars -/

/-- Where the brackets nest, what stands before an open bar is closed only after the bar
    that closes it, and the round brackets between the two are closed among themselves. -/
theorem exists_closing_bar
    (h : cs.foldlM step ⟨List.replicate k .round ++ .bar :: outer, true⟩ = some r')
    (hend : r'.opened = []) :
    ∃ piece rest, cs = piece ++ '|' :: rest ∧ '|' ∉ piece ∧ Balances k piece := by
  induction cs generalizing k with
  | nil =>
    cases h
    simp at hend
  | cons c cs ih =>
    obtain ⟨r₁, hstep, hrest⟩ := Option.bind_eq_some_iff.1 h
    rcases step_iff.1 hstep with ⟨rfl, rfl⟩ | ⟨rfl, opened, hr, rfl⟩ | ⟨rfl, -, opened, hr, rfl⟩ |
      ⟨rfl, hbar, rfl⟩ | ⟨hother, rfl⟩
    · obtain ⟨piece, rest, rfl, hpiece, hbalances⟩ := ih (k := k + 1) hrest
      exact ⟨'(' :: piece, rest, rfl, by simpa using hpiece, Text.balances_open_iff.2 hbalances⟩
    · cases k with
      | zero => simp at hr
      | succ k =>
        obtain rfl : List.replicate k .round ++ .bar :: outer = opened := by
          simpa [List.replicate_succ] using hr
        obtain ⟨piece, rest, rfl, hpiece, hbalances⟩ := ih hrest
        exact ⟨')' :: piece, rest, rfl, by simpa using hpiece,
          Text.balances_close_iff.2 ⟨k, rfl, hbalances⟩⟩
    · cases k with
      | zero => exact ⟨[], cs, rfl, List.not_mem_nil, Text.balances_nil_iff.2 rfl⟩
      | succ k => simp [List.replicate_succ] at hr
    · cases hbar
    · obtain ⟨hopen, hclose, hbar⟩ : c ≠ '(' ∧ c ≠ ')' ∧ c ≠ '|' := by simpa using hother
      obtain ⟨piece, rest, rfl, hpiece, hbalances⟩ := ih hrest
      exact ⟨c :: piece, rest, rfl, by simp [hpiece, hbar.symm],
        (Text.balances_other_iff hopen hclose).2 hbalances⟩

/-- What is closed among itself leaves what stands before the bar. -/
theorem read_piece {piece : List Char} (hbar : '|' ∉ piece) (h : Balances k piece)
    (rest : List Char) :
    (piece ++ '|' :: rest).foldlM step ⟨List.replicate k .round ++ .bar :: outer, true⟩ =
      rest.foldlM step ⟨outer, false⟩ := by
  induction piece generalizing k with
  | nil =>
    obtain rfl := Text.balances_nil_iff.1 h
    rfl
  | cons c piece ih =>
    obtain ⟨hc, hpiece⟩ : '|' ≠ c ∧ '|' ∉ piece := by simpa using hbar
    rw [List.cons_append, List.foldlM_cons]
    by_cases hopen : c = '('
    · subst hopen
      exact ih (k := k + 1) hpiece (Text.balances_open_iff.1 h)
    by_cases hclose : c = ')'
    · subst hclose
      obtain ⟨k, rfl, hrest⟩ := Text.balances_close_iff.1 h
      exact ih hpiece hrest
    · have hstep : step ⟨List.replicate k .round ++ .bar :: outer, true⟩ c =
          some ⟨List.replicate k .round ++ .bar :: outer, true⟩ :=
        step_iff.2 (.inr (.inr (.inr (.inr ⟨by simp [hopen, hclose, hc.symm], rfl⟩))))
      rw [hstep]
      exact ih hpiece ((Text.balances_other_iff hopen hclose).1 h)

/-- Outside of bars only round brackets are open. Where no bracket closes nothing, they
    nest, as long as the bars do. -/
theorem nests_of_barsClosed (hbars : BarsClosed cs)
    (htally : (cs.foldl Tally.step ⟨k, 0, false⟩).depth = 0 ∧
      (cs.foldl Tally.step ⟨k, 0, false⟩).excess = 0) :
    ∃ r, cs.foldlM step ⟨List.replicate k .round, false⟩ = some r ∧ r.opened = [] := by
  -- By induction on the length, as a bar is followed by what comes after the next one.
  induction hlen : cs.length using Nat.strong_induction_on generalizing cs k with
  | _ n ih =>
    cases cs with
    | nil => exact ⟨_, rfl, by simpa using htally.1⟩
    | cons c cs =>
      simp only [List.length_cons] at hlen
      by_cases hbar : c = '|'
      · subst hbar
        obtain ⟨piece, rest, rfl, hpiece, hbalances⟩ := hbars [] cs rfl rfl
        have hread : ∀ rest, ('|' :: (piece ++ '|' :: rest)).foldlM step
            ⟨List.replicate k .round, false⟩ = rest.foldlM step ⟨List.replicate k .round, false⟩ :=
          read_piece (k := 0) hpiece hbalances
        -- The piece and its bars do not count.
        have hcounted := tally_foldlM (hread [])
        have happend : '|' :: (piece ++ '|' :: rest) = '|' :: (piece ++ ['|']) ++ rest := by simp
        rw [tally, List.length_replicate] at hcounted
        have hrest : BarsClosed rest := by
          refine Text.BarsClosed.of_append (happend ▸ hbars) ?_
          simp [List.count_eq_zero.2 hpiece]
        rw [happend, List.foldl_append, hcounted] at htally
        obtain ⟨r, hr, hopened⟩ := ih rest.length (by simp at hlen; omega) hrest htally rfl
        exact ⟨r, (hread rest).trans hr, hopened⟩
      · have happend : BarsClosed ([c] ++ cs) := hbars
        have hrest : BarsClosed cs := happend.of_append (by simp [hbar])
        rw [List.foldl_cons] at htally
        by_cases hopen : c = '('
        · subst hopen
          exact ih cs.length (by omega) (k := k + 1) hrest htally rfl
        by_cases hclose : c = ')'
        · subst hclose
          cases k with
          | zero =>
            -- A bracket that closes nothing counts as excess.
            have hexcess := Tally.excess_le_foldl (Tally.step ⟨0, 0, false⟩ ')') cs
            rw [htally.2] at hexcess
            cases hexcess
          | succ k =>
            exact ih cs.length (by omega) (k := k) hrest htally rfl
        · have hother : ¬(c = '(' ∨ c = ')' ∨ c = '|') := by simp [hopen, hclose, hbar]
          rw [Tally.step_of_not hother] at htally
          have hstep : step ⟨List.replicate k .round, false⟩ c =
              some ⟨List.replicate k .round, false⟩ :=
            step_iff.2 (.inr (.inr (.inr (.inr ⟨hother, rfl⟩))))
          rw [List.foldlM_cons, hstep]
          exact ih cs.length (by omega) hrest htally rfl

/-- Where the brackets nest, every bar that opens is followed by the one that closes it. -/
theorem barsClosed_of_nests (h : Text.Nests cs) : BarsClosed cs := by
  obtain ⟨r, hread, hend⟩ := h
  rintro before after rfl heven
  rw [List.foldlM_append] at hread
  obtain ⟨r₁, hbefore, hread⟩ := Option.bind_eq_some_iff.1 hread
  obtain ⟨r₂, hstep, hafter⟩ := Option.bind_eq_some_iff.1 hread
  have hbar : step r₁ '|' = some ⟨.bar :: r₁.opened, true⟩ :=
    step_iff.2 (.inr (.inr (.inr (.inl ⟨rfl, barOpen_of_even hbefore heven, rfl⟩))))
  cases hbar.symm.trans hstep
  exact exists_closing_bar (k := 0) hafter hend

end Reading

/-! ## Lines -/

/-- The brackets of a line, outside of its literals, nest just if the line is a tree and each
    bar that opens is closed by the next one, with nothing left open or closed in between. -/
theorem brackets_nest_iff (line : String) :
    let bare := Text.outside false line.toList
    line.toList.count '"' % 2 = 0 ∧ Text.Nests bare ↔
      (∃ g, Group.ofLine line = .ok g) ∧ Text.BarsClosed bare := by
  intro bare
  rw [Group.exists_ofLine_iff]
  constructor
  · rintro ⟨heven, hnests⟩
    obtain ⟨r, hread, hend⟩ := hnests
    have htally : bare.foldl Tally.step Tally.start = r.tally := Reading.tally_foldlM hread
    refine ⟨⟨heven, ?_, ?_⟩, Reading.barsClosed_of_nests ⟨r, hread, hend⟩⟩
    · rw [htally, Reading.tally, hend]
      rfl
    · rw [htally]
      rfl
  · rintro ⟨⟨heven, htally⟩, hbars⟩
    exact ⟨heven, Reading.nests_of_barsClosed (k := 0) hbars htally⟩

/-- A round bracket within bars that is closed outside of them: the line is a tree all the
    same, in which the bars belong to different groups. -/
theorem crossing_accepted :
    let line := "(1 + |2) - 3|"
    Group.ofLine line = .ok [.group [.symbol "1", .symbol "+", .symbol "|",
        .group [.symbol "2"], .symbol "-", .symbol "3"], .symbol "|"] ∧
      ¬Text.Nests (Text.outside false line.toList) := by
  exact ⟨by cbv, by decide⟩

end Linewise
