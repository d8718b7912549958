import Linewise.Proofs.Cut
import Mathlib

/-!
# The brackets of a line

Outside of string literals `(` opens a group and `)` closes one, and the bars open and
close groups in turns. Whether a line is a tree is a matter of how many brackets there
are, and where: no start of the line may close more groups than it opens
(`Text.excess`), and the line as a whole has to close all of them.

* The groups that are open, and the brackets that closed nothing, are counted character
  by character (`Tally`, `Nesting.tally_add`); the latter are as many as a start of the
  line closes too many (`Tally.counts_foldl`).
* Where no bracket closed nothing, the groups that are open consist of the lexemes so far
  (`Nesting.lexemes_add`), and so the tree of a line consists of those of the line
  (`Group.lexemes_of_ofLine`).
* So the tree of a line has all the characters of the line, in their order and in the
  same brackets (`line_tree`).
-/

namespace Linewise

/-! ## Counting brackets -/

namespace Text

/-- The number of brackets that open a group. -/
def opening (bare : List Char) : Nat :=
  bare.count '(' + (bare.count '|' + 1) / 2

/-- The number of brackets that close a group. -/
def closing (bare : List Char) : Nat :=
  bare.count ')' + bare.count '|' / 2

/-- The largest number of groups that a start of the line closes and does not open. -/
def excess (cs : List Char) : Nat :=
  (Finset.range (cs.length + 1)).sup fun n =>
    closing (outside false (cs.take n)) - opening (outside false (cs.take n))

theorem outside_concat (inside : Bool) (cs : List Char) (c : Char) :
    outside inside (cs ++ [c]) = outside inside cs ∨
      outside inside (cs ++ [c]) = outside inside cs ++ [c] := by
  induction cs generalizing inside with
  | nil =>
    rw [List.nil_append, outside, outside]
    by_cases hquote : c = '"'
    · rw [if_pos hquote]
      exact .inl rfl
    · rw [if_neg hquote]
      cases inside
      · exact .inr rfl
      · exact .inl rfl
  | cons d cs ih =>
    rw [List.cons_append, outside, outside]
    split
    · exact ih _
    split
    · exact ih _
    · exact (ih inside).imp (congrArg (d :: ·)) (congrArg (d :: ·))

theorem count_concat (bare : List Char) (c d : Char) :
    (bare ++ [c]).count d = bare.count d + if c = d then 1 else 0 := by
  rw [List.count_append, List.count_singleton]
  simp only [beq_iff_eq]

theorem opening_concat (bare : List Char) (c : Char) :
    opening (bare ++ [c]) =
      opening bare + if c = '(' ∨ c = '|' ∧ bare.count '|' % 2 = 0 then 1 else 0 := by
  rw [opening, opening, count_concat, count_concat]
  by_cases hopen : c = '('
  · simp [hopen]
    omega
  by_cases hbar : c = '|'
  · simp [hbar]
    split <;> omega
  · simp [hopen, hbar]

theorem closing_concat (bare : List Char) (c : Char) :
    closing (bare ++ [c]) =
      closing bare + if c = ')' ∨ c = '|' ∧ bare.count '|' % 2 = 1 then 1 else 0 := by
  rw [closing, closing, count_concat, count_concat]
  by_cases hclose : c = ')'
  · simp [hclose]
    omega
  by_cases hbar : c = '|'
  · simp [hbar]
    split <;> omega
  · simp [hclose, hbar]

/-- Each character adds a start of the line. -/
theorem excess_concat (cs : List Char) (c : Char) :
    excess (cs ++ [c]) =
      max (closing (outside false (cs ++ [c])) - opening (outside false (cs ++ [c])))
        (excess cs) := by
  have hall : (cs ++ [c]).take (cs.length + 1) = cs ++ [c] :=
    List.take_of_length_le (by rw [List.length_append, List.length_singleton])
  rw [excess, List.length_append, List.length_singleton, Finset.range_add_one, Finset.sup_insert,
    hall]
  refine congrArg (max _) (Finset.sup_congr rfl fun n hn => ?_)
  rw [List.take_append_of_le_length (Nat.le_of_lt_succ (Finset.mem_range.1 hn))]

end Text

/-- What has been opened and closed so far. -/
structure Tally where
  /-- The number of groups that are open. -/
  depth : Nat
  /-- The number of brackets that closed nothing. -/
  excess : Nat
  /-- The next bar closes a group. -/
  barOpen : Bool

namespace Tally

/-- The start of a line. -/
def start : Tally where
  depth := 0
  excess := 0
  barOpen := false

def opened (t : Tally) : Tally :=
  { t with depth := t.depth + 1 }

def closed (t : Tally) : Tally :=
  if t.depth = 0 then { t with excess := t.excess + 1 } else { t with depth := t.depth - 1 }

/-- After one more character outside of literals. -/
def step (t : Tally) (c : Char) : Tally :=
  if c = '(' then t.opened
  else if c = ')' then t.closed
  else if c = '|' then
    if t.barOpen then { t.closed with barOpen := false } else { t.opened with barOpen := true }
  else t

/-- The tally is that of these characters. -/
structure Counts (t : Tally) (bare : List Char) : Prop where
  depth : t.depth + Text.closing bare = Text.opening bare + t.excess
  barOpen : t.barOpen = decide (bare.count '|' % 2 = 1)

variable {t : Tally} {bare : List Char}

theorem counts_start : start.Counts [] :=
  ⟨rfl, rfl⟩

/-- A group is opened: what was in balance stays so. -/
theorem opened_counts {o c : Nat} (h : t.depth + c = o + t.excess) :
    t.opened.depth + c = o + 1 + t.opened.excess ∧
      t.opened.excess = max (c - (o + 1)) t.excess := by
  simp only [opened]
  omega

/-- A group is closed. If there is none, the brackets that close are as many as those that
    open and the excess so far. -/
theorem closed_counts {o c : Nat} (h : t.depth + c = o + t.excess) :
    t.closed.depth + (c + 1) = o + t.closed.excess ∧
      t.closed.excess = max (c + 1 - o) t.excess := by
  rw [closed]
  split <;> dsimp only <;> omega

theorem barOpen_closed (t : Tally) : t.closed.barOpen = t.barOpen := by
  rw [closed]
  split <;> rfl

/-- Every bar changes what the next one does. -/
theorem Counts.barOpen_step (h : t.Counts bare) (c : Char) :
    (t.step c).barOpen = decide ((bare ++ [c]).count '|' % 2 = 1) := by
  have hbar := h.barOpen
  rw [Text.count_concat, Tally.step]
  by_cases hopen : c = '('
  · simp [hopen, opened, hbar]
  by_cases hclose : c = ')'
  · simp [hclose, barOpen_closed, hbar]
  by_cases hbars : c = '|'
  · cases hodd : t.barOpen <;> simp_all <;> omega
  · simp [hopen, hclose, hbars, hbar]

/-- One more character is counted, and what closes nothing counts as excess. -/
theorem Counts.step (h : t.Counts bare) (c : Char) :
    (t.step c).Counts (bare ++ [c]) ∧
      (t.step c).excess =
        max (Text.closing (bare ++ [c]) - Text.opening (bare ++ [c])) t.excess := by
  have hopened := opened_counts h.depth
  have hclosed := closed_counts h.depth
  have hsame := h.depth
  suffices hcounts : (t.step c).depth + Text.closing (bare ++ [c]) =
        Text.opening (bare ++ [c]) + (t.step c).excess ∧ (t.step c).excess =
          max (Text.closing (bare ++ [c]) - Text.opening (bare ++ [c])) t.excess from
    ⟨⟨hcounts.1, h.barOpen_step c⟩, hcounts.2⟩
  have hbar := h.barOpen
  rw [Text.opening_concat, Text.closing_concat, Tally.step]
  by_cases hopen : c = '('
  · simpa [hopen] using hopened
  by_cases hclose : c = ')'
  · simpa [hclose] using hclosed
  by_cases hbars : c = '|'
  · by_cases hodd : bare.count '|' % 2 = 1
    · simpa [hbars, hbar, hodd] using hclosed
    · have heven : bare.count '|' % 2 = 0 := by omega
      simpa [hbars, hbar, heven] using hopened
  · simp only [hopen, hclose, hbars, false_and, or_self, if_false, Nat.add_zero]
    omega

/-- The excess is that of the line, of which the characters outside of literals are
    counted. -/
theorem counts_foldl (cs : List Char) :
    let t := (Text.outside false cs).foldl Tally.step start
    t.Counts (Text.outside false cs) ∧ t.excess = Text.excess cs := by
  -- By induction on the line from its start: its last character is counted or is none
  -- that counts.
  induction cs using List.reverseRecOn with
  | nil => exact ⟨counts_start, rfl⟩
  | append_singleton cs c ih =>
    obtain ⟨hcounts, hexcess⟩ := ih
    rw [Text.excess_concat]
    rcases Text.outside_concat false cs c with hsame | hmore
    · rw [hsame]
      have hdepth := hcounts.depth
      exact ⟨hcounts, by omega⟩
    · rw [hmore, List.foldl_append]
      obtain ⟨hcounts', hexcess'⟩ := hcounts.step c
      exact ⟨hcounts', by rw [← hexcess]; exact hexcess'⟩

/-- Characters that are no brackets do not count. -/
theorem step_of_not {c : Char} (h : ¬(c = '(' ∨ c = ')' ∨ c = '|')) (t : Tally) : t.step c = t := by
  obtain ⟨hopen, hclose, hbar⟩ : c ≠ '(' ∧ c ≠ ')' ∧ c ≠ '|' := by simpa using h
  rw [step, if_neg hopen, if_neg hclose, if_neg hbar]

theorem foldl_step_of_not {cs : List Char} (h : ∀ c ∈ cs, ¬(c = '(' ∨ c = ')' ∨ c = '|'))
    (t : Tally) : cs.foldl step t = t := by
  induction cs with
  | nil => rfl
  | cons c cs ih =>
    rw [List.forall_mem_cons] at h
    rw [List.foldl_cons, step_of_not h.1, ih h.2]

/-- Blanks are none. -/
theorem foldl_step_filter (cs : List Char) (t : Tally) :
    (cs.filter (!Text.isBlank ·)).foldl step t = cs.foldl step t := by
  have hstep : (fun (t : Tally) c => if !Text.isBlank c then t.step c else t) = step := by
    funext t c
    cases hb : Text.isBlank c with
    | false => rfl
    | true =>
      refine (step_of_not ?_ t).symm
      rintro (rfl | rfl | rfl) <;> exact absurd hb (by decide)
  rw [List.foldl_filter, hstep]

end Tally

/-! ## The brackets among the lexemes -/

namespace Lexeme

/-- A bracket in the lexeme is all of it. -/
def Atomic (l : Lexeme) : Prop :=
  ∀ c ∈ l.bare, c = '(' ∨ c = ')' ∨ c = '|' → l.bare = [c]

theorem Cut.atomic {cs : List Char} {ls : List Lexeme} (h : Cut cs ls) : ∀ l ∈ ls, l.Atomic := by
  induction h with
  | nil => exact List.forall_mem_nil _
  | blank hc h ih => exact ih
  | @solitary c cs ls hc h ih =>
    refine List.forall_mem_cons.2 ⟨fun d hd _ => ?_, ih⟩
    have hbare : (symbol (String.singleton c)).bare = [c] := String.toList_singleton c
    rw [hbare] at hd ⊢
    rw [List.mem_singleton.1 hd]
  | @word w cs ls hne hw h ih =>
    refine List.forall_mem_cons.2 ⟨fun d hd hbracket => ?_, ih⟩
    rw [Lexeme.bare, String.toList_ofList] at hd
    have hword := hw d hd
    rcases hbracket with rfl | rfl | rfl <;> exact absurd hword (by decide)
  | text hs h ih => exact List.forall_mem_cons.2 ⟨List.forall_mem_nil _, ih⟩

theorem atomic_join {raw : List Lexeme} (h : ∀ l ∈ raw, l.Atomic) : ∀ l ∈ join raw, l.Atomic := by
  fun_induction join raw with
  | case1 s e rest hoperator ih =>
    simp only [List.forall_mem_cons] at h ⊢
    refine ⟨fun c hc hbracket => ?_, ih h.2.2⟩
    -- Neither piece of an operator is a bracket.
    simp only [startsOperator, Bool.and_eq_true, Bool.or_eq_true, beq_iff_eq] at hoperator
    obtain ⟨((rfl | rfl) | rfl) | rfl, rfl⟩ := hoperator <;>
      (rcases hbracket with rfl | rfl | rfl <;> exact absurd hc (by decide))
  | case2 s e rest hoperator ih =>
    rw [List.forall_mem_cons] at h ⊢
    exact ⟨h.1, ih h.2⟩
  | case3 l rest hno ih =>
    rw [List.forall_mem_cons] at h ⊢
    exact ⟨h.1, ih h.2⟩
  | case4 => exact List.forall_mem_nil _

theorem atomic_ofLine {line : String} {ls : List Lexeme} (h : ofLine line = .ok ls) :
    ∀ l ∈ ls, l.Atomic := by
  obtain ⟨raw, hcut, rfl⟩ := exists_cut_of_ofLine h
  exact atomic_join hcut.atomic

end Lexeme

namespace Nesting

/-- The groups that are open, as numbers. -/
def tally (n : Nesting) : Tally where
  depth := n.outer.length
  excess := n.excess
  barOpen := n.barOpen

variable {n : Nesting} {l : Lexeme} {ls : List Lexeme}

theorem tally_push (n : Nesting) (item : Item) : (n.push item).tally = n.tally := rfl

theorem tally_openGroup (n : Nesting) : n.openGroup.tally = n.tally.opened := rfl

theorem tally_closeGroup (n : Nesting) : n.closeGroup.tally = n.tally.closed := by
  obtain ⟨items, outer, excess, barOpen⟩ := n
  cases outer <;> rfl

theorem tally_add (hl : l.Atomic) : (n.add l).tally = l.bare.foldl Tally.step n.tally := by
  cases l with
  | text s => rfl
  | symbol s =>
    rw [add, Lexeme.bare]
    by_cases hopen : s = "("
    · subst hopen
      rfl
    by_cases hclose : s = ")"
    · subst hclose
      exact tally_closeGroup n
    by_cases hbar : s = "|"
    · subst hbar
      have hstep : "|".toList.foldl Tally.step n.tally =
          if n.barOpen then { n.tally.closed with barOpen := false }
          else { n.tally.opened with barOpen := true } := rfl
      rw [hstep, if_neg hopen, if_neg hclose, if_pos rfl, ← tally_closeGroup, ← tally_openGroup]
      split <;> rfl
    · rw [if_neg hopen, if_neg hclose, if_neg hbar, tally_push, Tally.foldl_step_of_not]
      intro c hc hbracket
      have hs : s.toList = [c] := hl c hc hbracket
      rcases hbracket with rfl | rfl | rfl
      · exact hopen (String.toList_inj.1 hs)
      · exact hclose (String.toList_inj.1 hs)
      · exact hbar (String.toList_inj.1 hs)

theorem tally_foldl (hls : ∀ l ∈ ls, l.Atomic) (n : Nesting) :
    (ls.foldl add n).tally = (ls.flatMap Lexeme.bare).foldl Tally.step n.tally := by
  induction ls generalizing n with
  | nil => rfl
  | cons l ls ih =>
    rw [List.forall_mem_cons] at hls
    rw [List.foldl_cons, ih hls.2, tally_add hls.1, List.flatMap_cons, List.foldl_append]

/-- At the end of a line the tally is that of the line. -/
theorem counts_ofLine {line : String} (h : Lexeme.ofLine line = .ok ls) :
    (ls.foldl add start).tally.Counts (Text.outside false line.toList) ∧
      (ls.foldl add start).excess = Text.excess line.toList := by
  have htally : (ls.foldl add start).tally =
      (Text.outside false line.toList).foldl Tally.step Tally.start := by
    rw [tally_foldl (Lexeme.atomic_ofLine h), Lexeme.bare_ofLine h,
      Tally.foldl_step_filter]
    rfl
  obtain ⟨hcounts, hexcess⟩ := Tally.counts_foldl line.toList
  exact ⟨htally ▸ hcounts, hexcess ▸ congrArg Tally.excess htally⟩

end Nesting

/-! ## The lexemes of a tree -/

namespace Item

mutual

/-- The lexemes of an item, the items of a group in round brackets. -/
def lexemes : Item → List Lexeme
  | symbol s => [.symbol s]
  | text s => [.text s]
  | group items => .symbol "(" :: (lexemesAll items ++ [.symbol ")"])

/-- Those of some items. -/
def lexemesAll : List Item → List Lexeme
  | [] => []
  | item :: items => lexemes item ++ lexemesAll items

end

theorem lexemesAll_append (first second : List Item) :
    lexemesAll (first ++ second) = lexemesAll first ++ lexemesAll second := by
  induction first with
  | nil => rfl
  | cons item first ih => rw [List.cons_append, lexemesAll, lexemesAll, ih, List.append_assoc]

mutual

/-- The characters of an item, the items of a group in round brackets. -/
def written : Item → List Char
  | symbol s => s.toList
  | text s => '"' :: (s.toList ++ ['"'])
  | group items => '(' :: (writtenAll items ++ [')'])

/-- Those of some items. -/
def writtenAll : List Item → List Char
  | [] => []
  | item :: items => written item ++ writtenAll items

end

mutual

theorem written_eq_lexemes : (item : Item) → item.written = item.lexemes.flatMap Lexeme.written
  | symbol s => by rw [written, lexemes, List.flatMap_singleton, Lexeme.written]
  | text s => by rw [written, lexemes, List.flatMap_singleton, Lexeme.written]
  | group items => by
    rw [written, lexemes, writtenAll_eq_lexemes items, List.flatMap_cons, List.flatMap_append,
      List.flatMap_singleton]
    rfl

theorem writtenAll_eq_lexemes :
    (items : List Item) → writtenAll items = (lexemesAll items).flatMap Lexeme.written
  | [] => rfl
  | item :: items => by
    rw [writtenAll, lexemesAll, written_eq_lexemes item, writtenAll_eq_lexemes items,
      List.flatMap_append]

end

end Item

namespace Nesting

variable {n : Nesting} {l : Lexeme} {ls : List Lexeme}

/-- The lexemes of groups that are open, given their items, last first: those of the
    innermost group, and of the groups around it. -/
def lexemesWith : List Item → List (List Item) → List Lexeme
  | items, [] => Item.lexemesAll items.reverse
  | items, around :: outer =>
    lexemesWith around outer ++ .symbol "(" :: Item.lexemesAll items.reverse

/-- The lexemes of the line so far. -/
def lexemes (n : Nesting) : List Lexeme :=
  lexemesWith n.items n.outer

theorem lexemes_push (n : Nesting) (item : Item) :
    (n.push item).lexemes = n.lexemes ++ item.lexemes := by
  have hitems : Item.lexemesAll (item :: n.items).reverse =
      Item.lexemesAll n.items.reverse ++ item.lexemes := by
    rw [List.reverse_cons, Item.lexemesAll_append, Item.lexemesAll, Item.lexemesAll,
      List.append_nil]
  rw [lexemes, lexemes, push]
  cases n.outer with
  | nil => exact hitems
  | cons around outer => rw [lexemesWith, lexemesWith, hitems, List.append_assoc, List.cons_append]

theorem lexemes_openGroup (n : Nesting) : n.openGroup.lexemes = n.lexemes ++ [.symbol "("] := rfl

/-- The group that is closed is an item of the one around it. -/
theorem lexemes_closeGroup (h : n.closeGroup.excess = 0) :
    n.closeGroup.lexemes = n.lexemes ++ [.symbol ")"] := by
  obtain ⟨items, outer, excess, barOpen⟩ := n
  cases outer with
  | nil => cases h
  | cons around outer =>
    refine (lexemes_push ⟨around, outer, excess, barOpen⟩ (.group items.reverse)).trans ?_
    rw [lexemes, lexemes, lexemesWith, Item.lexemes, List.append_assoc, List.cons_append]

/-- Where no bracket closes nothing, a lexeme is added. -/
theorem lexemes_add (hbar : l ≠ .symbol "|") (h : (n.add l).excess = 0) :
    (n.add l).lexemes = n.lexemes ++ [l] := by
  cases l with
  | text s => exact lexemes_push n (.text s)
  | symbol s =>
    rw [add] at h ⊢
    by_cases hopen : s = "("
    · subst hopen
      exact lexemes_openGroup n
    by_cases hclose : s = ")"
    · subst hclose
      exact lexemes_closeGroup h
    · rw [if_neg hopen, if_neg hclose, if_neg fun hs => hbar (congrArg Lexeme.symbol hs)]
      exact lexemes_push n (.symbol s)

theorem excess_le_foldl (n : Nesting) (ls : List Lexeme) : n.excess ≤ (ls.foldl add n).excess := by
  induction ls generalizing n with
  | nil => exact Nat.le_refl _
  | cons l ls ih => exact Nat.le_trans (n.excess_le_add l) (ih (n.add l))

/-- Where no bracket closes nothing in the end, none did on the way. -/
theorem excess_add_eq_zero (h : (ls.foldl add (n.add l)).excess = 0) : (n.add l).excess = 0 :=
  Nat.eq_zero_of_le_zero (h ▸ excess_le_foldl (n.add l) ls)

theorem lexemes_foldl (hbar : ∀ l ∈ ls, l ≠ .symbol "|") (h : (ls.foldl add n).excess = 0) :
    (ls.foldl add n).lexemes = n.lexemes ++ ls := by
  induction ls generalizing n with
  | nil => exact (List.append_nil _).symm
  | cons l ls ih =>
    rw [List.forall_mem_cons] at hbar
    rw [List.foldl_cons] at h ⊢
    rw [ih hbar.2 h, lexemes_add hbar.1 (excess_add_eq_zero h), List.append_assoc,
      List.singleton_append]

/-- At the end of a line nothing is open. -/
theorem outermost_of_finish {g : Group} (h : n.finish = .ok g) :
    n.excess = 0 ∧ n.outer = [] ∧ n.items = g.reverse := by
  obtain ⟨items, outer, excess, barOpen⟩ := n
  rw [finish] at h
  split at h
  · cases h
  rename_i hexcess
  split at h
  · cases h
  rename_i houter
  cases h
  cases outer with
  | nil => exact ⟨Nat.eq_zero_of_not_pos hexcess, rfl, (List.reverse_reverse _).symm⟩
  | cons around outer => exact absurd (Nat.succ_pos _) houter

end Nesting

/-! ## Lines -/

namespace Group

variable {line : String} {ls : List Lexeme} {g : Group}

theorem ofLine_of_lexemes (h : Lexeme.ofLine line = .ok ls) :
    ofLine line = (ls.foldl Nesting.add .start).finish := by
  unfold ofLine
  rw [h]
  rfl

/-- A line whose literals are closed is a tree if its brackets are. -/
theorem ofLine_of_even (h : line.toList.count '"' % 2 = 0) :
    let bare := Text.outside false line.toList
    let k := Text.excess line.toList
    let u := Text.opening bare - Text.closing bare
    if 0 < k then ofLine line = .error (.tooManyClosing k)
    else if 0 < u then ofLine line = .error (.tooFewClosing u)
    else ∃ g, ofLine line = .ok g := by
  have hcloses := Lexeme.closes_ofLine line
  generalize hlexemes : Lexeme.ofLine line = lexemes at hcloses
  cases hcloses with
  | missing hodd => exact absurd h hodd
  | complete _ ls =>
    obtain ⟨⟨hdepth, -⟩, hexcess⟩ := Nesting.counts_ofLine hlexemes
    rw [ofLine_of_lexemes hlexemes, Nesting.finish]
    generalize ls.foldl Nesting.add .start = n at hdepth hexcess
    -- With no excess, the groups that are open are those opened and not closed.
    have hopen : Text.excess line.toList = 0 → n.outer.length =
        Text.opening (Text.outside false line.toList) -
          Text.closing (Text.outside false line.toList) := by
      intro hzero
      simp only [Nesting.tally] at hdepth
      omega
    dsimp only
    rw [hexcess]
    split
    · rfl
    · rename_i hpos
      rw [hopen (Nat.eq_zero_of_not_pos hpos)]
      split
      · rfl
      · exact ⟨_, rfl⟩

theorem ofLine_of_odd (h : line.toList.count '"' % 2 = 1) :
    ofLine line = .error .stringNotClosed := by
  have hcloses := Lexeme.closes_ofLine line
  unfold ofLine
  generalize Lexeme.ofLine line = lexemes at hcloses
  cases hcloses with
  | complete heven ls => omega
  | missing hodd => rfl

/-- Without bars, the tree consists of the lexemes of the line. -/
theorem lexemes_of_ofLine (hbar : '|' ∉ Text.outside false line.toList)
    (hlexemes : Lexeme.ofLine line = .ok ls) (h : ofLine line = .ok g) :
    Item.lexemesAll g = ls := by
  have hbars : ∀ l ∈ ls, l ≠ .symbol "|" := by
    rintro l hl rfl
    have hmem : '|' ∈ ls.flatMap Lexeme.bare :=
      List.mem_flatMap.2 ⟨_, hl, List.mem_singleton.2 rfl⟩
    rw [Lexeme.bare_ofLine hlexemes] at hmem
    exact hbar (List.mem_filter.1 hmem).1
  rw [ofLine_of_lexemes hlexemes] at h
  obtain ⟨hexcess, houter, hitems⟩ := Nesting.outermost_of_finish h
  have hall := Nesting.lexemes_foldl (n := .start) hbars hexcess
  rw [Nesting.lexemes, houter, hitems, Nesting.lexemesWith, List.reverse_reverse] at hall
  exact hall

/-- Without bars, the tree is written as the line is. -/
theorem written_of_ofLine (hbar : '|' ∉ Text.outside false line.toList)
    (h : ofLine line = .ok g) : Item.writtenAll g = Text.dense false line.toList := by
  obtain ⟨ls, hlexemes, -⟩ := bind_eq_ok.1 h
  rw [Item.writtenAll_eq_lexemes, lexemes_of_ofLine hbar hlexemes h, Lexeme.written_ofLine hlexemes]

end Group

/-- Whether a line is a tree, and what is wrong with it otherwise, is a matter of its quotes
    and brackets. The tree of a line without bars, written with its groups in brackets, is the
    line without the blanks outside of its literals. -/
theorem line_tree (line : String) :
    let cs := line.toList
    let bare := Text.outside false cs
    let outcome := (Group.ofLine line).mapError Fault.report
    let k := Text.excess cs
    let u := Text.opening bare - Text.closing bare
    (if cs.count '"' % 2 = 1 then
        outcome = .error ⟨.form, "String not closed", "another \" required"⟩
      else if 0 < k then outcome = .error ⟨.form, "Too many closing brackets", s!"remove {k}"⟩
      else if 0 < u then outcome = .error ⟨.form, "Too few closing brackets", s!"{u} required"⟩
      else ∃ g, outcome = .ok g) ∧
    ('|' ∉ bare → ∀ g, Group.ofLine line = .ok g → Item.writtenAll g = Text.dense false cs) := by
  refine ⟨?_, fun hbar g => Group.written_of_ofLine hbar⟩
  split
  · rename_i hodd
    rw [Group.ofLine_of_odd hodd]
    rfl
  · rename_i hodd
    have heven : line.toList.count '"' % 2 = 0 := by omega
    have houtcome := Group.ofLine_of_even heven
    dsimp only at houtcome
    split
    · rename_i hk
      rw [if_pos hk] at houtcome
      rw [houtcome]
      rfl
    rename_i hk
    rw [if_neg hk] at houtcome
    split
    · rename_i hu
      rw [if_pos hu] at houtcome
      rw [houtcome]
      rfl
    · rename_i hu
      rw [if_neg hu] at houtcome
      obtain ⟨g, hg⟩ := houtcome
      rw [hg]
      exact ⟨g, rfl⟩

/-- A call with a literal in its list. -/
theorem line_tree_call :
    let line := "f(1, \"a |b\") >= 2"
    let tree : Group := [.symbol "f", .group [.symbol "1", .symbol ",", .text "a |b"],
      .symbol ">=", .symbol "2"]
    '|' ∉ Text.outside false line.toList ∧ Group.ofLine line = .ok tree ∧
      Item.writtenAll tree = "f(1,\"a |b\")>=2".toList := by
  intro line tree
  have hbar : '|' ∉ Text.outside false line.toList := by decide
  have htree : Group.ofLine line = .ok tree := by cbv
  exact ⟨hbar, htree, ((line_tree line).2 hbar tree htree).trans (by decide)⟩

end Linewise
