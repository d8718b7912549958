import Linewise.Proofs.Token
import Mathlib

/-!
# The characters of lexemes

A line is cut at the blanks and at the characters that are symbols of their own
(`Lexeme.Cut`, `Lexeme.cut_of_scan`). What it is cut into, written one after the other
(`Lexeme.written`), is the line without the blanks outside of its string literals
(`Text.dense`), also after the operators of two characters have been put together
(`Lexeme.written_ofLine`). Where it cannot be cut, a literal has not been closed: there
is an odd number of double quotes (`Lexeme.closes_ofLine`).
-/

namespace Linewise

namespace Text

/-- The characters without the blanks outside of string literals, from a place inside
    of a literal or outside. -/
def dense : Bool → List Char → List Char
  | _, [] => []
  | inside, c :: cs =>
    if c = '"' then c :: dense (!inside) cs
    else if !inside && isBlank c then dense inside cs
    else c :: dense inside cs

/-- The characters outside of string literals, without the quotes. -/
def outside : Bool → List Char → List Char
  | _, [] => []
  | inside, c :: cs =>
    if c = '"' then outside (!inside) cs
    else if inside then outside inside cs
    else c :: outside inside cs

end Text

namespace Lexeme

/-- How a lexeme is written. -/
def written : Lexeme → List Char
  | symbol s => s.toList
  | text s => '"' :: (s.toList ++ ['"'])

/-- The characters of a lexeme outside of literals. -/
def bare : Lexeme → List Char
  | symbol s => s.toList
  | text _ => []

/-- The characters are cut into these lexemes, the operators of two characters in pieces. -/
inductive Cut : List Char → List Lexeme → Prop
  | nil : Cut [] []
  | blank {c : Char} {cs : List Char} {ls : List Lexeme} (hc : Text.isBlank c = true)
      (h : Cut cs ls) : Cut (c :: cs) ls
  | solitary {c : Char} {cs : List Char} {ls : List Lexeme} (hc : isSolitary c = true)
      (h : Cut cs ls) : Cut (c :: cs) (symbol (String.singleton c) :: ls)
  | word {w cs : List Char} {ls : List Lexeme} (hne : w ≠ [])
      (hw : ∀ c ∈ w, isWord c = true) (h : Cut cs ls) :
      Cut (w ++ cs) (symbol (String.ofList w) :: ls)
  | text {s cs : List Char} {ls : List Lexeme} (hs : '"' ∉ s) (h : Cut cs ls) :
      Cut ('"' :: (s ++ '"' :: cs)) (text (String.ofList s) :: ls)

variable {cs seen : List Char} {ls raw : List Lexeme}

/-- The characters that a scan has seen of what it is in the middle of. -/
def Pending.chars : Pending → List Char
  | symbol seen => seen.reverse
  | text seen => '"' :: seen.reverse

/-- They may be part of it. -/
def Pending.Proper : Pending → Prop
  | symbol seen => ∀ c ∈ seen, isWord c = true
  | text seen => '"' ∉ seen

theorem Cut.finish (h : Cut cs ls) (hseen : ∀ c ∈ seen, isWord c = true) :
    Cut (seen.reverse ++ cs) (finish seen ++ ls) := by
  rw [Lexeme.finish]
  split
  · rename_i hempty
    rw [List.isEmpty_iff.1 hempty]
    exact h
  · rename_i hne
    refine .word (fun hnil => hne ?_) (fun c hc => hseen c (List.mem_reverse.1 hc)) h
    exact List.isEmpty_iff.2 (List.reverse_eq_nil_iff.1 hnil)

/-- A scan cuts a line. -/
theorem cut_of_scan {p : Pending} (hp : p.Proper) (h : scan p cs = .ok raw) :
    Cut (p.chars ++ cs) raw := by
  -- By induction on the scan. What it is in the middle of is a lexeme that starts with
  -- the characters seen.
  fun_induction scan p cs generalizing raw with
  | case1 seen =>
    cases h
    have hnil := Cut.nil.finish hp
    rwa [List.append_nil (finish seen)] at hnil
  | case2 => cases h
  | case3 seen cs ih =>
    obtain ⟨ls, hls, rfl⟩ := map_eq_ok.1 h
    have hcut := ih (List.forall_mem_nil _) hls
    exact Cut.text (s := seen.reverse) (fun hs => hp (List.mem_reverse.1 hs)) hcut
  | case4 seen c cs hc ih =>
    have hcut := ih (fun hmem => (List.mem_cons.1 hmem).elim (fun heq => hc heq.symm) hp) h
    rwa [Pending.chars, List.reverse_cons, List.cons_append, List.append_assoc] at hcut
  | case5 seen cs ih =>
    obtain ⟨ls, hls, rfl⟩ := map_eq_ok.1 h
    exact (ih List.not_mem_nil hls).finish hp
  | case6 seen c cs hc hs ih =>
    obtain ⟨ls, hls, rfl⟩ := map_eq_ok.1 h
    exact (Cut.solitary hs (ih (List.forall_mem_nil _) hls)).finish hp
  | case7 seen c cs hc hs hb ih =>
    obtain ⟨ls, hls, rfl⟩ := map_eq_ok.1 h
    exact (Cut.blank hb (ih (List.forall_mem_nil _) hls)).finish hp
  | case8 seen c cs hc hs hb ih =>
    have hword : isWord c = true := by simp [isWord, hc, hs, hb]
    have hcut := ih (List.forall_mem_cons.2 ⟨hword, hp⟩) h
    rwa [Pending.chars, List.reverse_cons, List.append_assoc] at hcut

/-! ## What is written -/

theorem dense_word {w : List Char} (hw : ∀ c ∈ w, isWord c = true) (cs : List Char) :
    Text.dense false (w ++ cs) = w ++ Text.dense false cs := by
  induction w with
  | nil => rfl
  | cons c w ih =>
    rw [List.forall_mem_cons] at hw
    have hparts := hw.1
    simp only [isWord, Bool.and_eq_true, Bool.not_eq_true', beq_eq_false_iff_ne, ne_eq] at hparts
    rw [List.cons_append, Text.dense, if_neg hparts.1.1, hparts.2, ih hw.2]
    rfl

theorem dense_text {s : List Char} (hs : '"' ∉ s) (cs : List Char) :
    Text.dense true (s ++ '"' :: cs) = s ++ '"' :: Text.dense false cs := by
  induction s with
  | nil => rfl
  | cons c s ih =>
    obtain ⟨hc, hs⟩ := not_or.1 fun hor => hs (List.mem_cons.2 hor)
    rw [List.cons_append, Text.dense, if_neg fun heq => hc heq.symm, ih hs]
    rfl

/-- The lexemes are written as the line is, but for the blanks. -/
theorem Cut.written (h : Cut cs ls) : ls.flatMap written = Text.dense false cs := by
  induction h with
  | nil => rfl
  | @blank c cs ls hc h ih =>
    rw [ih, Text.dense, if_neg (not_quote_of_blank hc), hc]
    rfl
  | @solitary c cs ls hc h ih =>
    rw [List.flatMap_cons, ih, Text.dense, if_neg (not_quote_of_solitary hc),
      not_blank_of_solitary hc]
    simp [Lexeme.written]
  | word hne hw h ih =>
    rw [List.flatMap_cons, ih, dense_word hw, Lexeme.written, String.toList_ofList]
  | text hs h ih =>
    rw [List.flatMap_cons, ih, Text.dense, if_pos rfl, Bool.not_false, dense_text hs]
    simp [Lexeme.written]

theorem outside_word {w : List Char} (hw : ∀ c ∈ w, isWord c = true) (cs : List Char) :
    Text.outside false (w ++ cs) = w ++ Text.outside false cs := by
  induction w with
  | nil => rfl
  | cons c w ih =>
    rw [List.forall_mem_cons] at hw
    have hquote : c ≠ '"' := by
      rintro rfl
      exact absurd hw.1 (by decide)
    rw [List.cons_append, Text.outside, if_neg hquote, ih hw.2]
    rfl

theorem outside_text {s : List Char} (hs : '"' ∉ s) (cs : List Char) :
    Text.outside true (s ++ '"' :: cs) = Text.outside false cs := by
  induction s with
  | nil => rfl
  | cons c s ih =>
    obtain ⟨hc, hs⟩ := not_or.1 fun hor => hs (List.mem_cons.2 hor)
    rw [List.cons_append, Text.outside, if_neg fun heq => hc heq.symm, ih hs]
    rfl

/-- The symbols are made of the characters outside of literals. -/
theorem Cut.bare (h : Cut cs ls) :
    ls.flatMap bare = (Text.outside false cs).filter (!Text.isBlank ·) := by
  induction h with
  | nil => rfl
  | @blank c cs ls hc h ih =>
    rw [ih, Text.outside, if_neg (not_quote_of_blank hc), if_neg Bool.false_ne_true,
      List.filter_cons_of_neg (by simp [hc])]
  | @solitary c cs ls hc h ih =>
    rw [List.flatMap_cons, ih, Text.outside, if_neg (not_quote_of_solitary hc),
      if_neg Bool.false_ne_true, List.filter_cons_of_pos (by simp [not_blank_of_solitary hc])]
    simp [Lexeme.bare]
  | @word w cs ls hne hw h ih =>
    have hfilter : w.filter (!Text.isBlank ·) = w := by
      refine List.filter_eq_self.2 fun c hc => ?_
      have hparts := hw c hc
      simp only [isWord, Bool.and_eq_true] at hparts
      exact hparts.2
    rw [List.flatMap_cons, ih, outside_word hw, Lexeme.bare, String.toList_ofList,
      List.filter_append, hfilter]
  | text hs h ih =>
    rw [List.flatMap_cons, ih, Text.outside, if_pos rfl, Bool.not_false, outside_text hs]
    rfl

/-- Operators that are put together are written as their pieces are. -/
theorem flatMap_join {f : Lexeme → List Char}
    (hf : ∀ s e, f (symbol (s ++ e)) = f (symbol s) ++ f (symbol e)) (raw : List Lexeme) :
    (join raw).flatMap f = raw.flatMap f := by
  fun_induction join raw with
  | case1 s e rest h ih =>
    obtain rfl : e = "=" := by simpa using (Bool.and_eq_true_iff.1 h).2
    rw [List.flatMap_cons, List.flatMap_cons, List.flatMap_cons, ih, hf, List.append_assoc]
  | case2 s e rest h ih => rw [List.flatMap_cons, List.flatMap_cons, ih]
  | case3 l rest h ih => rw [List.flatMap_cons, List.flatMap_cons, ih]
  | case4 => rfl

/-- The lexemes of a line are what it is cut into. -/
theorem exists_cut_of_ofLine {line : String} (h : ofLine line = .ok ls) :
    ∃ raw, Cut line.toList raw ∧ join raw = ls := by
  obtain ⟨raw, hscan, hjoin⟩ := map_eq_ok.1 h
  exact ⟨raw, cut_of_scan (p := .symbol []) nofun hscan, hjoin⟩

theorem written_ofLine {line : String} (h : ofLine line = .ok ls) :
    ls.flatMap written = Text.dense false line.toList := by
  obtain ⟨raw, hcut, rfl⟩ := exists_cut_of_ofLine h
  rw [flatMap_join (fun s e => String.toList_append), hcut.written]

theorem bare_ofLine {line : String} (h : ofLine line = .ok ls) :
    ls.flatMap bare = (Text.outside false line.toList).filter (!Text.isBlank ·) := by
  obtain ⟨raw, hcut, rfl⟩ := exists_cut_of_ofLine h
  rw [flatMap_join (fun s e => String.toList_append), hcut.bare]

/-! ## Quotes -/

/-- The scan is in the middle of a literal. -/
def Pending.inside : Pending → Bool
  | symbol _ => false
  | text _ => true

/-- There are lexemes if all literals are closed, and else that is what is wrong. -/
inductive Closes (closed : Prop) : Except Fault (List Lexeme) → Prop
  | complete (h : closed) (ls : List Lexeme) : Closes closed (.ok ls)
  | missing (h : ¬closed) : Closes closed (.error .stringNotClosed)

theorem Closes.map {closed closed' : Prop} {x : Except Fault (List Lexeme)} (h : Closes closed x)
    (hiff : closed ↔ closed') (f : List Lexeme → List Lexeme) : Closes closed' (f <$> x) := by
  cases h with
  | complete h ls => exact .complete (hiff.1 h) (f ls)
  | missing h => exact .missing (mt hiff.2 h)

/-- Every quote starts a literal or closes one. -/
theorem closes_scan (p : Pending) (cs : List Char) :
    Closes (cs.count '"' % 2 = p.inside.toNat) (scan p cs) := by
  have hquote : ∀ {cs : List Char} {b : Bool},
      cs.count '"' % 2 = b.toNat ↔ ('"' :: cs).count '"' % 2 = (!b).toNat := by
    intro cs b
    rw [List.count_cons_self]
    cases b <;> simp only [Bool.not_false, Bool.not_true, Bool.toNat_false, Bool.toNat_true] <;>
      omega
  fun_induction scan p cs with
  | case1 seen => exact .complete rfl _
  | case2 seen => exact .missing Nat.zero_ne_one
  | case3 seen cs ih => exact ih.map hquote _
  | case4 seen c cs hc ih => rwa [List.count_cons_of_ne hc]
  | case5 seen cs ih => exact ih.map hquote _
  | case6 seen c cs hc hs ih =>
    rw [List.count_cons_of_ne hc]
    exact ih.map .rfl _
  | case7 seen c cs hc hs hb ih =>
    rw [List.count_cons_of_ne hc]
    exact ih.map .rfl _
  | case8 seen c cs hc hs hb ih => rwa [List.count_cons_of_ne hc]

/-- A line has lexemes if the number of its quotes is even. -/
theorem closes_ofLine (line : String) :
    Closes (line.toList.count '"' % 2 = 0) (ofLine line) :=
  (closes_scan (.symbol []) line.toList).map .rfl join

end Lexeme

end Linewise
