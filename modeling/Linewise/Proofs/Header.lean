import Linewise.Proofs.Brackets
import Linewise.Proofs.Name

/-!
# Lines that start with a header

A construct has its body on the line or in the block that follows. What comes before the
body, up to the `=` or the comma, is its *header*, which is a line of its own where the
body is a block. The tree of a line that starts with a header consists of the items of the
header and those of the body (`Group.ofLine_header`), as long as no bar of the header is
left open: the bars of a line open and close in turns, so otherwise the first bar of the
body would close what a bar of the header has opened.
-/

namespace Linewise

/-! ## Lexemes -/

namespace Lexeme

/-- A blank ends whatever a scan is in the middle of, but a literal. -/
theorem scan_append_blank {p : Pending} {cs : List Char} {raw : List Lexeme}
    (h : scan p cs = .ok raw) {c : Char} (hc : Text.isBlank c = true) (rest : List Char) :
    scan p (cs ++ c :: rest) = (raw ++ ·) <$> scan (.symbol []) rest := by
  have hmore : ∀ (ls raw : List Lexeme), (ls ++ ·) <$> (raw ++ ·) <$> scan (.symbol []) rest =
      (ls ++ raw ++ ·) <$> scan (.symbol []) rest := by
    intro ls raw
    cases scan (.symbol []) rest with
    | ok ls' => exact congrArg Except.ok (List.append_assoc ls raw ls').symm
    | error f => rfl
  fun_induction scan p cs generalizing raw with
  | case1 seen =>
    cases h
    rw [List.nil_append, scan_blank hc]
  | case2 => cases h
  | case3 seen cs ih =>
    obtain ⟨raw, hraw, rfl⟩ := map_eq_ok.1 h
    rw [List.cons_append, scan, if_pos rfl, ih hraw]
    exact hmore [_] raw
  | case4 seen d cs hd ih => rw [List.cons_append, scan, if_neg hd, ih h]
  | case5 seen cs ih =>
    obtain ⟨raw, hraw, rfl⟩ := map_eq_ok.1 h
    rw [List.cons_append, scan, if_pos rfl, ih hraw, hmore]
  | case6 seen d cs hd hs ih =>
    obtain ⟨raw, hraw, rfl⟩ := map_eq_ok.1 h
    rw [List.cons_append, scan, if_neg hd, if_pos hs, ih hraw]
    have hline := hmore (finish seen ++ [symbol (String.singleton d)]) raw
    simp only [List.append_assoc, List.singleton_append] at hline ⊢
    exact hline
  | case7 seen d cs hd hs hb ih =>
    obtain ⟨raw, hraw, rfl⟩ := map_eq_ok.1 h
    rw [List.cons_append, scan, if_neg hd, if_neg hs, if_pos hb, ih hraw, hmore]
  | case8 seen d cs hd hs hb ih =>
    rw [List.cons_append, scan, if_neg hd, if_neg hs, if_neg hb, ih h]

/-- The last lexeme is not the first piece of an operator. -/
def Settled (ls : List Lexeme) : Prop :=
  ∀ s, ls.getLast? = some (symbol s) → startsOperator s = false

theorem Settled.of_cons {l : Lexeme} {ls : List Lexeme} (h : Settled (l :: ls)) : Settled ls := by
  intro s hs
  refine h s ?_
  rw [List.getLast?_cons, hs]
  rfl

/-- What comes after such a lexeme is put together on its own. -/
theorem join_append {raw : List Lexeme} (h : Settled (join raw)) (rest : List Lexeme) :
    join (raw ++ rest) = join raw ++ join rest := by
  fun_induction join raw with
  | case1 s e raw hoperator ih =>
    rw [List.cons_append, List.cons_append, join, if_pos hoperator, ih h.of_cons, List.cons_append]
  | case2 s e raw hoperator ih =>
    rw [List.cons_append, List.cons_append, join, if_neg hoperator, ← List.cons_append,
      ih h.of_cons, List.cons_append]
  | case3 l raw hno ih =>
    have hjoin : join (l :: (raw ++ rest)) = l :: join (raw ++ rest) := by
      rcases l with s | s
      · rcases raw with _ | ⟨e | t, raw⟩
        · have hs : startsOperator s = false := h s rfl
          rcases rest with _ | ⟨e | t, rest⟩
          · rfl
          · show join (symbol s :: symbol e :: rest) = _
            rw [join, hs]
            rfl
          · rfl
        · exact absurd rfl (hno s e raw rfl)
        · rfl
      · exact join_text s _
    rw [List.cons_append, hjoin, ih h.of_cons, List.cons_append]
  | case4 => rfl

/-- The lexemes of a line that starts with another line, and a blank after it. -/
theorem ofLine_append_blank {header : String} {ls : List Lexeme} (h : ofLine header = .ok ls)
    (hls : Settled ls) (line : String) :
    ofLine (header ++ " " ++ line) = (ls ++ ·) <$> ofLine line := by
  obtain ⟨raw, hscan, rfl⟩ := map_eq_ok.1 h
  have hblank : Text.isBlank ' ' = true := by decide
  rw [ofLine, ofLine, String.toList_append, String.toList_append, List.append_assoc]
  show join <$> scan (.symbol []) (header.toList ++ ' ' :: line.toList) = _
  rw [scan_append_blank hscan hblank]
  cases scan (.symbol []) line.toList with
  | ok rest => exact congrArg Except.ok (join_append hls rest)
  | error f => rfl

end Lexeme

/-! ## Groups -/

namespace Nesting

variable {n : Nesting} {l : Lexeme} {ls : List Lexeme}

/-- A symbol other than a bar that is the last item so far is the last lexeme. -/
theorem eq_of_items_add {s : String} {items : List Item} (hexcess : (n.add l).excess = 0)
    (h : (n.add l).items = .symbol s :: items) (hs : s ≠ "|") : l = .symbol s := by
  cases l with
  | text t => cases h
  | symbol t =>
    rw [add] at h hexcess
    by_cases hopen : t = "("
    · rw [if_pos hopen] at h
      cases h
    rw [if_neg hopen] at h hexcess
    by_cases hclose : t = ")"
    · rw [if_pos hclose] at h hexcess
      obtain ⟨items', outer, excess, barOpen⟩ := n
      cases outer with
      | nil => cases hexcess
      | cons around outer => cases h
    rw [if_neg hclose] at h
    by_cases hbar : t = "|"
    · rw [if_pos hbar] at h
      split at h
      · cases h
        exact absurd hbar hs
      · cases h
    · rw [if_neg hbar] at h
      cases h
      rfl

/-- A line whose last item is such a symbol ends in it. -/
theorem getLast?_of_finish {g : Group} {s : String}
    (h : (ls.foldl add start).finish = .ok (g ++ [.symbol s])) (hs : s ≠ "|") :
    ls.getLast? = some (.symbol s) := by
  obtain ⟨hexcess, -, hitems⟩ := outermost_of_finish h
  rw [List.reverse_append] at hitems
  obtain rfl | ⟨before, l, rfl⟩ := ls.eq_nil_or_concat
  · cases hitems
  · rw [List.concat_eq_append, List.foldl_append] at hexcess hitems
    rw [List.concat_eq_append, List.getLast?_concat, eq_of_items_add hexcess hitems hs]

/-- The items at the start of a line stay there, whatever comes after them. -/
theorem finish_append (g : Group) (items : List Item) (excess : Nat) (barOpen : Bool)
    (ls : List Lexeme) :
    (ls.foldl add ⟨items ++ g.reverse, [], excess, barOpen⟩).finish =
      (g ++ ·) <$> (ls.foldl add ⟨items, [], excess, barOpen⟩).finish := by
  induction g with
  | nil =>
    rw [List.reverse_nil, List.append_nil]
    exact (id_map _).symm
  | cons x g ih =>
    rw [List.reverse_cons, ← List.append_assoc,
      ((Over.outermost (x := x) (items ++ g.reverse) excess barOpen).foldl ls).finish, ih]
    cases (ls.foldl add ⟨items, [], excess, barOpen⟩).finish <;> rfl

/-- Where no bracket closed nothing, no lexeme gets lost. -/
theorem mem_lexemes_add (h : (n.add l).excess = 0) {l' : Lexeme} (hl : l' ∈ n.lexemes ∨ l' = l) :
    l' ∈ (n.add l).lexemes := by
  by_cases hbar : l = .symbol "|"
  · subst hbar
    have hadd : n.add (.symbol "|") =
        if n.barOpen then { n.closeGroup with barOpen := false }.push (.symbol "|")
        else { n.push (.symbol "|") with barOpen := true }.openGroup := rfl
    rw [hadd] at h ⊢
    by_cases hopen : n.barOpen = true
    · rw [if_pos hopen] at h ⊢
      have hclose : ({ n.closeGroup with barOpen := false } : Nesting).lexemes =
          n.lexemes ++ [.symbol ")"] := lexemes_closeGroup h
      rw [lexemes_push, hclose, Item.lexemes]
      rcases hl with hl | rfl <;> simp [*]
    · rw [if_neg hopen]
      have hpush : ({ n.push (.symbol "|") with barOpen := true } : Nesting).lexemes =
          n.lexemes ++ [.symbol "|"] := lexemes_push n (.symbol "|")
      rw [lexemes_openGroup, hpush]
      rcases hl with hl | rfl <;> simp [*]
  · rw [lexemes_add hbar h]
    rcases hl with hl | rfl <;> simp [*]

theorem mem_lexemes_foldl (h : (ls.foldl add n).excess = 0) {l' : Lexeme}
    (hl : l' ∈ n.lexemes ∨ l' ∈ ls) : l' ∈ (ls.foldl add n).lexemes := by
  induction ls generalizing n with
  | nil => exact hl.resolve_right List.not_mem_nil
  | cons l ls ih =>
    rw [List.foldl_cons] at h ⊢
    rw [List.mem_cons, ← or_assoc] at hl
    exact ih h (hl.imp_left (mem_lexemes_add (excess_add_eq_zero h)))

end Nesting

/-! ## Lines -/

namespace Group

variable {header line : String} {ls : List Lexeme} {g : Group}

/-- The tree of a line has all of its lexemes. -/
theorem mem_lexemes_of_ofLine (hlexemes : Lexeme.ofLine line = .ok ls) (h : ofLine line = .ok g)
    {l : Lexeme} (hl : l ∈ ls) : l ∈ Item.lexemesAll g := by
  rw [ofLine_of_lexemes hlexemes] at h
  obtain ⟨hexcess, houter, hitems⟩ := Nesting.outermost_of_finish h
  have hmem := Nesting.mem_lexemes_foldl (n := .start) hexcess (.inr hl)
  rw [Nesting.lexemes, houter, hitems, Nesting.lexemesWith, List.reverse_reverse] at hmem
  exact hmem

/-- A bar on a line stays in its tree. -/
theorem bar_mem_lexemes (h : ofLine line = .ok g) (hbar : '|' ∈ Text.outside false line.toList) :
    .symbol "|" ∈ Item.lexemesAll g := by
  obtain ⟨ls, hlexemes, -⟩ := bind_eq_ok.1 h
  refine mem_lexemes_of_ofLine hlexemes h ?_
  have hmem : '|' ∈ ls.flatMap Lexeme.bare := by
    rw [Lexeme.bare_ofLine hlexemes]
    exact List.mem_filter.2 ⟨hbar, by decide⟩
  obtain ⟨l, hl, hc⟩ := List.mem_flatMap.1 hmem
  have hbare := Lexeme.atomic_ofLine hlexemes l hl '|' hc (.inr (.inr rfl))
  cases l with
  | text s => cases hbare
  | symbol s =>
    have hs : s = "|" := String.toList_inj.1 hbare
    exact hs ▸ hl

/-- A line that starts with a header that leaves no bar open. -/
theorem ofLine_header {s : String} (h : ofLine header = .ok (g ++ [.symbol s]))
    (hs : s = "=" ∨ s = ",") (hbars : (Text.outside false header.toList).count '|' % 2 = 0)
    (line : String) :
    ofLine (header ++ " " ++ line) = (g ++ [.symbol s] ++ ·) <$> ofLine line := by
  obtain ⟨ls, hlexemes, hfinish⟩ := bind_eq_ok.1 h
  have hlast : ls.getLast? = some (.symbol s) :=
    Nesting.getLast?_of_finish hfinish (by rcases hs with rfl | rfl <;> decide)
  have hsettled : Lexeme.Settled ls := by
    intro t ht
    cases hlast.symm.trans ht
    rcases hs with rfl | rfl <;> decide
  have hstart : ls.foldl Nesting.add .start = ⟨(g ++ [Item.symbol s]).reverse, [], 0, false⟩ := by
    obtain ⟨hexcess, houter, hitems⟩ := Nesting.outermost_of_finish hfinish
    have hbar := (Nesting.counts_ofLine hlexemes).1.barOpen
    rw [hbars] at hbar
    generalize ls.foldl Nesting.add .start = n at hexcess houter hitems hbar
    obtain ⟨items, outer, excess, barOpen⟩ := n
    cases hexcess
    cases houter
    cases hitems
    cases hbar
    rfl
  unfold ofLine
  rw [Lexeme.ofLine_append_blank hlexemes hsettled]
  cases Lexeme.ofLine line with
  | error f => rfl
  | ok ls' =>
    show ((ls ++ ls').foldl Nesting.add .start).finish = _
    rw [List.foldl_append, hstart]
    exact Nesting.finish_append (g ++ [.symbol s]) [] 0 false ls'

/-- A line that is not blank has an item. -/
theorem exists_item_of_ofLine (hne : Text.trim line ≠ "") (h : ofLine (Text.trim line) = .ok g) :
    ∃ item tail, g = item :: tail := by
  obtain ⟨ls, hlexemes, hfinish⟩ := bind_eq_ok.1 h
  cases ls with
  | cons l ls =>
    obtain ⟨item, tail, hg, -⟩ := Nesting.first_item hfinish
    exact ⟨item, tail, hg⟩
  | nil =>
    -- Its first character is no blank, and so belongs to a lexeme.
    have hwritten := Lexeme.written_ofLine hlexemes
    have hfirst := (Text.trim_eq_self_iff.1 (Text.trim_trim line)).1
    cases hcs : (Text.trim line).toList with
    | nil => exact absurd (String.toList_inj.1 hcs) hne
    | cons c cs =>
      rw [hcs] at hwritten hfirst
      have hc : Text.isBlank c = false := hfirst c rfl
      rw [List.flatMap_nil, Text.dense, hc] at hwritten
      split at hwritten <;> cases hwritten

end Group

/-! ## Parameters -/

namespace Assignment

theorem eq_symbol_of_name {item : Item} {s : String} (h : parameterNames.name item = .ok s) :
    item = .symbol s ∧ Symbol.isName s = true := by
  cases item with
  | symbol t =>
    simp only [parameterNames.name, Item.symbol?] at h
    split at h
    · cases h
      exact ⟨rfl, ‹_›⟩
    · cases h
  | text t => cases h
  | group g => cases h

/-- Parameters are names, with commas between them. -/
theorem eq_symbol_of_parameterNames : ∀ {parameters : Group} {names : List String},
    parameterNames parameters = .ok names → ∀ item ∈ parameters,
      ∃ s, item = .symbol s ∧ (Symbol.isName s = true ∨ s = ",")
  | [], _, _ => nofun
  | [item], _, h => by
    obtain ⟨s, hs, -⟩ := bind_eq_ok.1 h
    obtain ⟨hitem, hname⟩ := eq_symbol_of_name hs
    exact List.forall_mem_singleton.2 ⟨s, hitem, .inl hname⟩
  | item :: comma :: rest, _, h => by
    obtain ⟨s, hs, h⟩ := bind_eq_ok.1 h
    obtain ⟨hitem, hname⟩ := eq_symbol_of_name hs
    cases hcomma : comma.isSymbol "," with
    | false =>
      rw [hcomma] at h
      cases h
    | true =>
      rw [hcomma] at h
      cases hrest : rest.isEmpty with
      | true =>
        rw [hrest] at h
        cases h
      | false =>
        rw [hrest] at h
        obtain ⟨names, hnames, -⟩ := bind_eq_ok.1 h
        refine List.forall_mem_cons.2 ⟨⟨s, hitem, .inl hname⟩, List.forall_mem_cons.2 ⟨?_, ?_⟩⟩
        · cases comma with
          | symbol t => exact ⟨t, rfl, .inr (Option.some.inj (beq_iff_eq.1 hcomma))⟩
          | text t => cases hcomma
          | group g => cases hcomma
        · exact eq_symbol_of_parameterNames hnames

/-- The header of a function has no bars. -/
theorem bar_not_mem_of_header {header name : String} {parameters : Group} {names : List String}
    (h : Group.ofLine header =
      .ok [.symbol "let", .symbol name, .group parameters, .symbol "="])
    (hname : Symbol.isName name = true) (hparameters : parameterNames parameters = .ok names) :
    '|' ∉ Text.outside false header.toList := by
  have hne : ∀ s, Symbol.isName s = true ∨ s = "," → Lexeme.symbol "|" ≠ .symbol s := by
    rintro s hs ⟨⟩
    rcases hs with hs | hs
    · exact absurd hs (by decide)
    · exact absurd hs (by decide)
  have hall : ∀ parameters : Group, (∀ item ∈ parameters,
      ∃ s, item = .symbol s ∧ (Symbol.isName s = true ∨ s = ",")) →
        Lexeme.symbol "|" ∉ Item.lexemesAll parameters := by
    intro parameters h
    induction parameters with
    | nil => exact List.not_mem_nil
    | cons item parameters ih =>
      rw [List.forall_mem_cons] at h
      obtain ⟨⟨s, rfl, hs⟩, hrest⟩ := h
      rw [Item.lexemesAll, Item.lexemes, List.singleton_append, List.mem_cons]
      exact not_or.2 ⟨hne s hs, ih hrest⟩
  intro hbar
  have hmem := Group.bar_mem_lexemes h hbar
  have hinner := hall parameters (eq_symbol_of_parameterNames hparameters)
  have houter := hne name (.inl hname)
  simp [Item.lexemesAll, Item.lexemes, hinner, houter] at hmem

end Assignment

end Linewise
