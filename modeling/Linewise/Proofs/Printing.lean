import Linewise.Proofs.Brackets
import Linewise.Proofs.Spelling

/-!
# Printing a tree

The text of a tree is cut into the lexemes that the line of the tree was cut into, within
one more pair of brackets, and so it is the same tree again (`print_tree`).

* The operators of two characters come out of a scan in pieces (`Lexeme.pieces`). What
  comes out of a scan has no such operator in it, so the pieces of a line are found again
  in its lexemes (`Lexeme.flatMap_pieces_join`).
* In a text each item stands behind a blank and is scanned on its own, as the pieces of
  its lexemes (`Item.spells_print`). So no operator is taken apart by the printing, and
  none is put together that was not one before: what is joined are the same pieces.
* Brackets around a line whose own are closed make a group of its items
  (`Nesting.foldl_within`).
-/

namespace Linewise

/-! ## Pieces -/

namespace Lexeme

/-- The pieces that a scan finds of a lexeme: those of an operator of two characters, and
    otherwise the lexeme itself. -/
def pieces (l : Lexeme) : List Lexeme :=
  match l.bare with
  | [c, '='] =>
    if startsOperator (String.singleton c) then [symbol (String.singleton c), symbol "="] else [l]
  | _ => [l]

variable {cs : List Char} {raw : List Lexeme}

theorem pieces_of_bare {l : Lexeme} (h : ∀ c, l.bare ≠ [c, '=']) : l.pieces = [l] := by
  rw [pieces]
  split
  · rename_i c hbare
    exact absurd hbare (h c)
  · rfl

/-- What comes out of a scan are pieces. -/
theorem Cut.pieces (h : Cut cs raw) : ∀ l ∈ raw, l.pieces = [l] := by
  induction h with
  | nil => exact List.forall_mem_nil _
  | blank hc h ih => exact ih
  | @solitary c cs ls hc h ih =>
    refine List.forall_mem_cons.2 ⟨pieces_of_bare fun d hbare => ?_, ih⟩
    rw [Lexeme.bare, String.toList_singleton] at hbare
    cases hbare
  | @word w cs ls hne hw h ih =>
    refine List.forall_mem_cons.2 ⟨pieces_of_bare fun d hbare => ?_, ih⟩
    rw [Lexeme.bare, String.toList_ofList] at hbare
    have hequals : isWord '=' = true := hw '=' (by simp [hbare])
    exact absurd hequals (by decide)
  | text hs h ih =>
    refine List.forall_mem_cons.2 ⟨pieces_of_bare fun d hbare => ?_, ih⟩
    cases hbare

/-- What comes out of a scan comes out again if it is scanned on its own. -/
theorem Cut.spells (h : Cut cs raw) : ∀ l ∈ raw, Spells l.written [l] := by
  induction h with
  | nil => exact List.forall_mem_nil _
  | blank hc h ih => exact ih
  | @solitary c cs ls hc h ih =>
    refine List.forall_mem_cons.2 ⟨?_, ih⟩
    rw [Lexeme.written, String.toList_singleton]
    exact spells_nil.cons_solitary hc
  | @word w cs ls hne hw h ih =>
    refine List.forall_mem_cons.2 ⟨?_, ih⟩
    rw [Lexeme.written, String.toList_ofList]
    exact spells_word hne hw
  | @text s cs ls hs h ih =>
    refine List.forall_mem_cons.2 ⟨?_, ih⟩
    rw [Lexeme.written, String.toList_ofList]
    exact spells_text hs

theorem startsOperator_iff {s : String} : startsOperator s = true ↔ s ∈ ["~", ">", "<", "/"] := by
  simp [startsOperator, or_assoc]

theorem pieces_operator {s : String} (h : startsOperator s = true) :
    (symbol (s ++ "=")).pieces = [symbol s, symbol "="] := by
  rw [startsOperator_iff] at h
  fin_cases h <;> decide

/-- The pieces of a line are found again in its lexemes. -/
theorem flatMap_pieces_join (h : ∀ l ∈ raw, l.pieces = [l]) :
    (join raw).flatMap pieces = raw := by
  fun_induction join raw with
  | case1 s e rest hoperator ih =>
    simp only [List.forall_mem_cons] at h
    obtain ⟨hs, he⟩ := Bool.and_eq_true_iff.1 hoperator
    rw [List.flatMap_cons, pieces_operator hs, ih h.2.2, beq_iff_eq.1 he]
    rfl
  | case2 s e rest hoperator ih =>
    rw [List.forall_mem_cons] at h
    rw [List.flatMap_cons, h.1, ih h.2]
    rfl
  | case3 l rest hno ih =>
    rw [List.forall_mem_cons] at h
    rw [List.flatMap_cons, h.1, ih h.2]
    rfl
  | case4 => rfl

/-- An operator that has been put together is scanned in its pieces. -/
theorem spells_pieces (hpieces : ∀ l ∈ raw, l.pieces = [l])
    (hspells : ∀ l ∈ raw, Spells l.written [l]) :
    ∀ l ∈ join raw, Spells l.written l.pieces := by
  fun_induction join raw with
  | case1 s e rest hoperator ih =>
    simp only [List.forall_mem_cons] at hpieces hspells ⊢
    obtain ⟨hs, he⟩ := Bool.and_eq_true_iff.1 hoperator
    obtain rfl : e = "=" := beq_iff_eq.1 he
    refine ⟨?_, ih hpieces.2.2 hspells.2.2⟩
    rw [pieces_operator hs, written, String.toList_append]
    exact hspells.1.append hspells.2.1 ⟨'=', rfl, by decide⟩
  | case2 s e rest hoperator ih =>
    rw [List.forall_mem_cons] at hpieces hspells ⊢
    exact ⟨hpieces.1 ▸ hspells.1, ih hpieces.2 hspells.2⟩
  | case3 l rest hno ih =>
    rw [List.forall_mem_cons] at hpieces hspells ⊢
    exact ⟨hpieces.1 ▸ hspells.1, ih hpieces.2 hspells.2⟩
  | case4 => exact List.forall_mem_nil _

/-- A bracket that is opened is not put together with what is in it. -/
theorem join_open (raw : List Lexeme) : join (symbol "(" :: raw) = symbol "(" :: join raw := by
  rcases raw with _ | ⟨e | t, raw⟩
  · rfl
  · rw [join]
    rfl
  · rfl

/-- Nor is one that is closed. -/
theorem join_close (raw : List Lexeme) : join (raw ++ [symbol ")"]) = join raw ++ [symbol ")"] := by
  fun_induction join raw with
  | case1 s e rest hoperator ih =>
    rw [List.cons_append, List.cons_append, join, if_pos hoperator, ih, List.cons_append]
  | case2 s e rest hoperator ih =>
    rw [List.cons_append, List.cons_append, join, if_neg hoperator, ← List.cons_append, ih,
      List.cons_append]
  | case3 l rest hno ih =>
    rcases rest with _ | ⟨l', rest⟩
    · cases l with
      | symbol s =>
        show join [symbol s, symbol ")"] = _
        rw [join, if_neg (by simp)]
        rfl
      | text s => rfl
    · have hcons : join (l :: l' :: (rest ++ [symbol ")"])) =
          l :: join (l' :: (rest ++ [symbol ")"])) := by
        rw [join]
        intro s e rest' hl hrest
        cases hrest
        exact hno s e rest hl rfl
      rw [List.cons_append, List.cons_append, hcons, ← List.cons_append, ih, List.cons_append]
  | case4 => rfl

end Lexeme

/-! ## Texts -/

namespace Item

open Lexeme (Spells pieces)

/-- The texts of some items start with a blank. -/
theorem printAll_start (items : List Item) :
    printAll items = "" ∧ lexemesAll items = [] ∨ ∃ c ∈ (printAll items).toList.head?,
      Lexeme.isWord c = false := by
  cases items with
  | nil => exact .inl ⟨rfl, rfl⟩
  | cons item items =>
    refine .inr ⟨' ', ?_, by decide⟩
    rw [printAll, String.toList_append, String.toList_append]
    rfl

mutual

/-- The text of an item is scanned as the pieces of its lexemes, if those can be told on
    their own. -/
theorem spells_print : (item : Item) → (∀ l ∈ item.lexemes, Spells l.written l.pieces) →
    Spells item.print.toList (item.lexemes.flatMap pieces)
  | symbol s, h => by
    rw [lexemes, List.flatMap_singleton]
    exact h (.symbol s) (List.mem_singleton.2 rfl)
  | text s, h => by
    rw [lexemes, List.flatMap_singleton, print, String.toList_append, String.toList_append]
    exact h (.text s) (List.mem_singleton.2 rfl)
  | group items, h => by
    simp only [lexemes, List.forall_mem_cons, List.forall_mem_append] at h
    have hclose : Spells " )".toList [.symbol ")"] :=
      (Lexeme.spells_nil.cons_solitary (c := ')') (by decide)).cons_blank (by decide)
    have hbody := ((spells_printAll items h.2.1).append hclose ⟨' ', rfl, by decide⟩)
    have hgroup := hbody.cons_solitary (c := '(') (by decide)
    rw [lexemes, List.flatMap_cons, List.flatMap_append, print, String.toList_append,
      String.toList_append]
    exact hgroup

theorem spells_printAll : (items : List Item) →
    (∀ l ∈ lexemesAll items, Spells l.written l.pieces) →
    Spells (printAll items).toList ((lexemesAll items).flatMap pieces)
  | [], _ => Lexeme.spells_nil
  | item :: items, h => by
    simp only [lexemesAll, List.forall_mem_append] at h
    have hfirst := (spells_print item h.1).cons_blank (c := ' ') (by decide)
    have hrest := spells_printAll items h.2
    rw [lexemesAll, List.flatMap_append, printAll, String.toList_append, String.toList_append]
    rcases printAll_start items with ⟨hprint, hlexemes⟩ | hstart
    · rw [hprint, hlexemes]
      simpa using hfirst
    · exact hfirst.append hrest hstart

end

end Item

/-! ## A pair of brackets around a line -/

namespace Nesting

variable {n : Nesting} {l : Lexeme} {ls : List Lexeme}

/-- The same groups, open within others. -/
def within (n : Nesting) (around : List (List Item)) : Nesting :=
  { n with outer := n.outer ++ around }

theorem within_closeGroup (around : List (List Item)) (h : n.closeGroup.excess = 0) :
    (n.within around).closeGroup = n.closeGroup.within around := by
  obtain ⟨items, outer, excess, barOpen⟩ := n
  cases outer with
  | nil => cases h
  | cons items' outer => rfl

theorem within_add (around : List (List Item)) (h : (n.add l).excess = 0) :
    (n.within around).add l = (n.add l).within around := by
  cases l with
  | text s => rfl
  | symbol s =>
    rw [add] at h ⊢
    rw [add]
    split
    · rfl
    split
    · rename_i hopen hclose
      rw [if_neg hopen, if_pos hclose] at h
      exact within_closeGroup around h
    split
    · rename_i hopen hclose hbar
      rw [if_neg hopen, if_neg hclose, if_pos hbar] at h
      show (if n.barOpen then _ else _) = _
      split
      · rename_i hbarOpen
        rw [if_pos hbarOpen] at h
        rw [within_closeGroup around h]
        rfl
      · rfl
    · rfl

theorem foldl_within (around : List (List Item)) (h : (ls.foldl add n).excess = 0) :
    ls.foldl add (n.within around) = (ls.foldl add n).within around := by
  induction ls generalizing n with
  | nil => rfl
  | cons l ls ih =>
    rw [List.foldl_cons] at h ⊢
    rw [within_add around (excess_add_eq_zero h), ih h]
    rfl

/-- A line in brackets is a group of its items. -/
theorem finish_enclosed {g : Group} (h : (ls.foldl add start).finish = .ok g) :
    ((Lexeme.symbol "(" :: (ls ++ [.symbol ")"])).foldl add start).finish = .ok [.group g] := by
  obtain ⟨hexcess, houter, hitems⟩ := outermost_of_finish h
  have hwithin := foldl_within [[]] hexcess
  rw [List.foldl_cons, List.foldl_append]
  show (([Lexeme.symbol ")"].foldl add (ls.foldl add (start.within [[]])))).finish = _
  rw [hwithin]
  generalize ls.foldl add start = n at hexcess houter hitems
  obtain ⟨items, outer, excess, barOpen⟩ := n
  subst hexcess houter hitems
  show Except.ok [Item.group g.reverse.reverse] = _
  rw [List.reverse_reverse]

end Nesting

/-! ## Lines -/

/-- The text of a tree consists of the lexemes of its line, between brackets. -/
theorem Lexeme.ofLine_print {line : String} {g : Group} {ls : List Lexeme}
    (hlexemes : ofLine line = .ok ls) (hg : Item.lexemesAll g = ls) :
    ofLine g.print = .ok (symbol "(" :: (ls ++ [symbol ")"])) := by
  obtain ⟨raw, hcut, rfl⟩ := exists_cut_of_ofLine hlexemes
  have hpieces := hcut.pieces
  have hall : ∀ l ∈ (Item.group g).lexemes, Spells l.written l.pieces := by
    simp only [Item.lexemes, hg, List.forall_mem_cons, List.forall_mem_append]
    refine ⟨spells_nil.cons_solitary (by decide), spells_pieces hpieces hcut.spells,
      spells_nil.cons_solitary (by decide), List.forall_mem_nil _⟩
  -- The text is scanned as the line was, but for its brackets, and joined as that was.
  have hspells := Item.spells_print (.group g) hall
  rw [Item.lexemes, hg, List.flatMap_cons, List.flatMap_append, flatMap_pieces_join hpieces]
    at hspells
  have hscan := hspells [] nofun
  rw [List.append_nil] at hscan
  rw [ofLine, Group.print, hscan]
  show Except.ok (join (symbol "(" :: (raw ++ [symbol ")"]) ++ [])) = _
  rw [List.append_nil, join_open, join_close]

/-- The text of the tree of a line without bars is a line too, and its tree is that of the
    line, as a single group. -/
theorem print_tree (line : String) (g : Group) (hbar : '|' ∉ Text.outside false line.toList)
    (h : Group.ofLine line = .ok g) : Group.ofLine g.print = .ok [.group g] := by
  obtain ⟨ls, hlexemes, hfinish⟩ := bind_eq_ok.1 h
  have hprint := Lexeme.ofLine_print hlexemes (Group.lexemes_of_ofLine hbar hlexemes h)
  rw [Group.ofLine_of_lexemes hprint]
  exact Nesting.finish_enclosed hfinish

/-- An operator in pieces, next to a symbol that it is not put together with, and a literal
    with a bar in it. -/
theorem print_tree_operator :
    let line := "f( 1 > (=), \"a |b\") ~ = 2"
    let tree : Group := [.symbol "f",
      .group [.symbol "1", .symbol ">", .group [.symbol "="], .symbol ",", .text "a |b"],
      .symbol "~=", .symbol "2"]
    '|' ∉ Text.outside false line.toList ∧ Group.ofLine line = .ok tree ∧
      tree.print = "( f ( 1 > ( = ) , \"a |b\" ) ~= 2 )" ∧
      Group.ofLine tree.print = .ok [.group tree] := by
  intro line tree
  have hbar : '|' ∉ Text.outside false line.toList := by decide
  have htree : Group.ofLine line = .ok tree := by cbv
  exact ⟨hbar, htree, by decide, print_tree line tree hbar htree⟩

end Linewise
