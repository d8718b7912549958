import Linewise.Block

/-!
# The items of a piece of a line

Blanks at the ends of a line do not matter for what it consists of
(`Group.ofLine_trim`), so a line may be trimmed any number of times. What is left
of a line that starts with `else`, when that is cut off, consists of the items
after it (`Group.ofLine_afterKeyword`).
-/

namespace Linewise

/-! ## Trimming -/

namespace Text

theorem trimList_trimList (cs : List Char) : trimList (trimList cs) = trimList cs := by
  refine trimList_eq_self_iff.2 ⟨fun c hc => ?_, fun c hc => ?_⟩
  · have hprefix : trimList cs <+: cs.dropWhile isBlank := by
      refine List.reverse_suffix.1 ?_
      rw [trimList, List.reverse_reverse]
      exact List.dropWhile_suffix isBlank
    obtain ⟨after, hafter⟩ := hprefix
    refine isBlank_head?_dropWhile cs ?_
    rw [← hafter, List.head?_append, Option.mem_def.1 hc]
    rfl
  · rw [trimList, List.getLast?_reverse] at hc
    exact isBlank_head?_dropWhile _ hc

theorem trim_trim (s : String) : trim (trim s) = trim s := by
  rw [trim, trim, String.toList_ofList, trimList_trimList]

/-- What is cut off consists of blanks. -/
theorem exists_blanks_append_trimList (cs : List Char) :
    ∃ before after, cs = before ++ (trimList cs ++ after) ∧
      (∀ c ∈ before, isBlank c = true) ∧ ∀ c ∈ after, isBlank c = true := by
  refine ⟨cs.takeWhile isBlank, ((cs.dropWhile isBlank).reverse.takeWhile isBlank).reverse,
    ?_, fun c hc => ?_, fun c hc => ?_⟩
  · rw [trimList, ← List.reverse_append, List.takeWhile_append_dropWhile, List.reverse_reverse,
      List.takeWhile_append_dropWhile]
  · exact List.all_eq_true.1 List.all_takeWhile c hc
  · exact List.all_eq_true.1 List.all_takeWhile c (List.mem_reverse.1 hc)

end Text

namespace Lexeme

/-- The characters that symbols of several characters are made of. -/
def isWord (c : Char) : Bool :=
  !(c == '"') && !isSolitary c && !Text.isBlank c

theorem not_solitary_of_blank {c : Char} (h : Text.isBlank c = true) : isSolitary c = false := by
  refine Bool.eq_false_iff.2 fun hs => ?_
  rw [isSolitary, List.contains_iff_mem] at hs
  simp only [List.mem_cons, List.not_mem_nil, or_false] at hs
  rcases hs with rfl | rfl | rfl | rfl | rfl | rfl | rfl | rfl | rfl | rfl | rfl | rfl | rfl | rfl |
    rfl | rfl | rfl | rfl | rfl <;> exact absurd h (by decide)

theorem not_quote_of_blank {c : Char} (h : Text.isBlank c = true) : c ≠ '"' := by
  rintro rfl
  exact absurd h (by decide)

theorem not_blank_of_solitary {c : Char} (h : isSolitary c = true) : Text.isBlank c = false :=
  Bool.eq_false_iff.2 fun hb => Bool.eq_false_iff.1 (not_solitary_of_blank hb) h

theorem not_quote_of_solitary {c : Char} (h : isSolitary c = true) : c ≠ '"' := by
  rintro rfl
  exact absurd h (by decide)

theorem scan_blank {c : Char} (h : Text.isBlank c = true) (seen cs : List Char) :
    scan (.symbol seen) (c :: cs) = (finish seen ++ ·) <$> scan (.symbol []) cs := by
  rw [scan, if_neg (not_quote_of_blank h), if_neg, if_pos h]
  rw [not_solitary_of_blank h]
  exact Bool.false_ne_true

theorem nothing_append (x : Except Fault (List Lexeme)) : (finish [] ++ ·) <$> x = x := by
  cases x <;> rfl

theorem scan_blanks {before : List Char} (h : ∀ c ∈ before, Text.isBlank c = true)
    (cs : List Char) : scan (.symbol []) (before ++ cs) = scan (.symbol []) cs := by
  induction before with
  | nil => rfl
  | cons c before ih =>
    rw [List.forall_mem_cons] at h
    rw [List.cons_append, scan_blank h.1, nothing_append, ih h.2]

theorem scan_text_blanks {after : List Char} (h : ∀ c ∈ after, Text.isBlank c = true)
    (seen : List Char) : scan (.text seen) after = .error .stringNotClosed := by
  induction after generalizing seen with
  | nil => rfl
  | cons c after ih =>
    rw [List.forall_mem_cons] at h
    rw [scan, if_neg (not_quote_of_blank h.1), ih h.2]

theorem scan_append_blanks {after : List Char} (h : ∀ c ∈ after, Text.isBlank c = true)
    (p : Pending) (cs : List Char) : scan p (cs ++ after) = scan p cs := by
  -- Along the characters of `cs` both scans do the same. After them, blanks end the
  -- symbol that is pending, as the end of the line does, and a literal is not
  -- closed by them.
  fun_induction scan p cs with
  | case1 seen =>
    cases after with
    | nil => rfl
    | cons c after =>
      rw [List.forall_mem_cons] at h
      have hrest := scan_blanks h.2 []
      rw [List.append_nil] at hrest
      rw [List.nil_append, scan_blank h.1, hrest]
      exact congrArg Except.ok (List.append_nil _)
  | case2 seen => exact scan_text_blanks h seen
  | case3 seen cs ih => rw [List.cons_append, scan, if_pos rfl, ih]
  | case4 seen c cs hc ih => rw [List.cons_append, scan, if_neg hc, ih]
  | case5 seen cs ih => rw [List.cons_append, scan, if_pos rfl, ih]
  | case6 seen c cs hc hs ih => rw [List.cons_append, scan, if_neg hc, if_pos hs, ih]
  | case7 seen c cs hc hs hb ih => rw [List.cons_append, scan, if_neg hc, if_neg hs, if_pos hb, ih]
  | case8 seen c cs hc hs hb ih => rw [List.cons_append, scan, if_neg hc, if_neg hs, if_neg hb, ih]

/-- A symbol ends with the first character that does not belong to it. -/
theorem scan_word (seen cs : List Char) :
    scan (.symbol seen) cs =
      (finish ((cs.takeWhile isWord).reverse ++ seen) ++ ·) <$>
        scan (.symbol []) (cs.dropWhile isWord) := by
  induction cs generalizing seen with
  | nil => exact congrArg Except.ok (List.append_nil _).symm
  | cons c cs ih =>
    by_cases hword : isWord c = true
    · -- The character belongs to the symbol, and the scan goes on with it.
      have hparts := hword
      simp only [isWord, Bool.and_eq_true, Bool.not_eq_true', beq_eq_false_iff_ne, ne_eq] at hparts
      obtain ⟨⟨hc, hs⟩, hb⟩ := hparts
      rw [List.takeWhile_cons_of_pos hword, List.dropWhile_cons_of_pos hword, List.reverse_cons,
        List.append_assoc, List.singleton_append, ← ih, scan, if_neg hc, hs, hb]
      rfl
    · -- The symbol ends here. What the character starts does not depend on it.
      rw [List.takeWhile_cons_of_neg hword, List.dropWhile_cons_of_neg hword]
      rw [List.reverse_nil, List.nil_append]
      by_cases hc : c = '"'
      · rw [scan, scan, if_pos hc, if_pos hc, nothing_append]
      by_cases hs : isSolitary c = true
      · rw [scan, scan, if_neg hc, if_neg hc, if_pos hs, if_pos hs]
        cases scan (.symbol []) cs <;> rfl
      · have hb : Text.isBlank c = true := by simpa [isWord, hc, hs] using hword
        rw [scan_blank hb, scan_blank hb, nothing_append]

theorem ofLine_trim (line : String) : ofLine (Text.trim line) = ofLine line := by
  obtain ⟨before, after, hline, hbefore, hafter⟩ := Text.exists_blanks_append_trimList line.toList
  have hscan : scan (.symbol []) (Text.trimList line.toList) = scan (.symbol []) line.toList := by
    conv => rhs; rw [hline, scan_blanks hbefore, scan_append_blanks hafter]
  rw [ofLine, ofLine, Text.trim, String.toList_ofList, hscan]

theorem scan_text_head {seen cs : List Char} {raw : List Lexeme}
    (h : scan (.text seen) cs = .ok raw) : ∃ s raw', raw = text s :: raw' := by
  induction cs generalizing seen with
  | nil => cases h
  | cons c cs ih =>
    rw [scan] at h
    split at h
    · obtain ⟨raw', -, hraw⟩ := map_eq_ok.1 h
      exact ⟨_, raw', hraw.symm⟩
    · exact ih h

theorem join_text (s : String) (raw : List Lexeme) : join (text s :: raw) = text s :: join raw := by
  rw [join]
  nofun

/-- A symbol that does not end in `=` has not been put together. -/
theorem join_symbol {s keyword : String} {raw lexemes : List Lexeme}
    (hend : ∀ s, keyword ≠ s ++ "=") (h : join (symbol s :: raw) = symbol keyword :: lexemes) :
    keyword = s ∧ join raw = lexemes := by
  rcases raw with _ | ⟨_ | _, raw⟩
  · cases h
    exact ⟨rfl, rfl⟩
  · rw [join] at h
    split at h
    · cases h
      exact absurd rfl (hend s)
    · cases h
      exact ⟨rfl, rfl⟩
  · cases h
    exact ⟨rfl, rfl⟩

/-- What comes after the first symbol of a line, if that is longer than the
    operators. -/
theorem ofLine_drop {line keyword : String} {lexemes : List Lexeme}
    (hblank : ∀ c ∈ line.toList.head?, Text.isBlank c = false) (hlen : 1 < keyword.length)
    (hend : ∀ s, keyword ≠ s ++ "=") (h : ofLine line = .ok (symbol keyword :: lexemes)) :
    ofLine (String.ofList (line.toList.drop keyword.length)) = .ok lexemes := by
  -- The line starts with the characters of a symbol, up to where it ends. Since the
  -- keyword is not put together from two symbols, this is the keyword.
  rw [ofLine] at h ⊢
  rw [String.toList_ofList]
  generalize line.toList = cs at hblank h ⊢
  obtain ⟨raw, hscan, hjoin⟩ := map_eq_ok.1 h
  have hword := scan_word [] cs
  rw [List.append_nil, hscan] at hword
  obtain ⟨rest, hrest, hraw⟩ := map_eq_ok.1 hword.symm
  have hcs := List.takeWhile_append_dropWhile (p := isWord) (l := cs)
  rcases hw : cs.takeWhile isWord with _ | ⟨c, w⟩
  · -- The line would start with a literal or with a symbol of one character.
    rcases cs with _ | ⟨c, cs⟩
    · cases hscan
      cases hjoin
    have hb : Text.isBlank c = false := hblank c rfl
    have hnot : isWord c ≠ true := fun hc => by simp [List.takeWhile_cons_of_pos hc] at hw
    rw [scan] at hscan
    split at hscan
    · rw [nothing_append] at hscan
      obtain ⟨t, raw', rfl⟩ := scan_text_head hscan
      rw [join_text] at hjoin
      cases hjoin
    split at hscan
    · obtain ⟨raw', -, rfl⟩ := map_eq_ok.1 hscan
      obtain ⟨rfl, -⟩ := join_symbol hend hjoin
      simp at hlen
    · exact absurd (by simp_all [isWord]) hnot
  · rw [hw] at hraw hcs
    have hfinish : finish (c :: w).reverse = [symbol (String.ofList (c :: w))] := by
      simp [finish]
    rw [hfinish] at hraw
    subst hraw
    obtain ⟨rfl, hlexemes⟩ := join_symbol hend hjoin
    rw [String.length_ofList, ← hcs, List.drop_left, hrest]
    exact congrArg Except.ok hlexemes

end Lexeme

/-! ## The first item -/

namespace Nesting

variable {x : Item} {n n' : Nesting}

/-- `n'` is `n` with one more item at the start of the line. -/
inductive Over (x : Item) : Nesting → Nesting → Prop
  | outermost (items : List Item) (excess : Nat) (barOpen : Bool) :
      Over x ⟨items, [], excess, barOpen⟩ ⟨items ++ [x], [], excess, barOpen⟩
  | inside (items first : List Item) (outer : List (List Item)) (excess : Nat) (barOpen : Bool) :
      Over x ⟨items, outer ++ [first], excess, barOpen⟩
        ⟨items, outer ++ [first ++ [x]], excess, barOpen⟩

namespace Over

theorem push (h : Over x n n') (item : Item) : Over x (n.push item) (n'.push item) := by
  cases h with
  | outermost items => exact .outermost (item :: items) ..
  | inside items => exact .inside (item :: items) ..

theorem openGroup (h : Over x n n') : Over x n.openGroup n'.openGroup := by
  cases h with
  | outermost items => exact .inside [] items [] ..
  | inside items first outer => exact .inside [] first (items :: outer) ..

theorem closeGroup (h : Over x n n') : Over x n.closeGroup n'.closeGroup := by
  cases h with
  | outermost items => exact .outermost items ..
  | inside items first outer =>
    rcases outer with _ | ⟨o, outer⟩
    · exact .outermost (.group items.reverse :: first) ..
    · exact .inside (.group items.reverse :: o) first outer ..

theorem setBar (h : Over x n n') (barOpen : Bool) :
    Over x { n with barOpen } { n' with barOpen } := by
  cases h with
  | outermost => exact .outermost ..
  | inside => exact .inside ..

theorem barOpen_eq (h : Over x n n') : n'.barOpen = n.barOpen := by
  cases h <;> rfl

theorem add (h : Over x n n') (l : Lexeme) : Over x (n.add l) (n'.add l) := by
  cases l with
  | text s => exact h.push _
  | symbol s =>
    rw [Nesting.add, Nesting.add]
    dsimp only
    rw [h.barOpen_eq]
    split
    · exact h.openGroup
    split
    · exact h.closeGroup
    split
    · split
      · exact (h.closeGroup.setBar false).push _
      · exact ((h.push _).setBar true).openGroup
    · exact h.push _

theorem foldl (h : Over x n n') (ls : List Lexeme) :
    Over x (ls.foldl Nesting.add n) (ls.foldl Nesting.add n') := by
  induction ls generalizing n n' with
  | nil => exact h
  | cons l ls ih => exact ih (h.add l)

theorem finish (h : Over x n n') : n'.finish = (x :: ·) <$> n.finish := by
  cases h with
  | outermost items excess barOpen =>
    rw [Nesting.finish, Nesting.finish]
    split
    · rfl
    · simp only [List.length_nil, Nat.lt_irrefl, if_false, List.reverse_append]
      rfl
  | inside items first outer excess barOpen =>
    rw [Nesting.finish, Nesting.finish]
    simp only [List.length_append, List.length_singleton]
    split
    · rfl
    · rw [if_pos (Nat.succ_pos _)]
      rfl

end Over

/-- The line starts with a group that is not closed yet. -/
def StartsOpen (n : Nesting) : Prop :=
  ∃ outer, n.outer = outer ++ [[]]

/-- The group at the start of the line is closed, or stays open. -/
theorem StartsOpen.closeGroup (h : n.StartsOpen) :
    n.closeGroup.StartsOpen ∨ ∃ g n₀, Over (.group g) n₀ n.closeGroup := by
  obtain ⟨items, outer, excess, barOpen⟩ := n
  obtain ⟨_ | ⟨o, outer⟩, rfl⟩ := h
  · exact .inr ⟨items.reverse, _, .outermost [] excess barOpen⟩
  · exact .inl ⟨outer, rfl⟩

theorem StartsOpen.add (h : n.StartsOpen) (l : Lexeme) :
    (n.add l).StartsOpen ∨ ∃ g n₀, Over (.group g) n₀ (n.add l) := by
  have hopen : ∀ {n : Nesting}, n.StartsOpen → n.openGroup.StartsOpen :=
    fun {n} ⟨outer, h⟩ => ⟨n.items :: outer, by rw [openGroup, h, List.cons_append]⟩
  cases l with
  | text s => exact .inl h
  | symbol s =>
    rw [Nesting.add]
    dsimp only
    split
    · exact .inl (hopen h)
    split
    · exact h.closeGroup
    split
    · split
      · rcases h.closeGroup with h | ⟨g, n₀, hover⟩
        · exact .inl h
        · exact .inr ⟨g, _, (hover.setBar false).push _⟩
      · exact .inl (hopen h)
    · exact .inl h

/-- A line that starts with a bracket starts with a group. -/
theorem StartsOpen.finish (h : n.StartsOpen) {ls : List Lexeme} {g : Group}
    (hg : (ls.foldl Nesting.add n).finish = .ok g) : ∃ items rest, g = .group items :: rest := by
  -- The first group is closed at some place, or else the line is not complete. From
  -- that place on it is the first item (`Over`).
  induction ls generalizing n with
  | nil =>
    obtain ⟨outer, houter⟩ := h
    rw [List.foldl_nil, Nesting.finish, houter, List.length_append, List.length_singleton] at hg
    split at hg
    · cases hg
    · rw [if_pos (Nat.succ_pos _)] at hg
      cases hg
  | cons l ls ih =>
    rcases h.add l with h | ⟨items, n₀, hover⟩
    · exact ih h hg
    · rw [List.foldl_cons, (hover.foldl ls).finish] at hg
      obtain ⟨rest, -, rfl⟩ := map_eq_ok.1 hg
      exact ⟨items, rest, rfl⟩

theorem excess_le_add (n : Nesting) (l : Lexeme) : n.excess ≤ (n.add l).excess := by
  have hclose : n.excess ≤ n.closeGroup.excess := by
    rw [closeGroup]
    split
    · exact Nat.le_succ _
    · exact Nat.le_refl _
  cases l with
  | text s => exact Nat.le_refl _
  | symbol s =>
    rw [add]
    dsimp only
    split
    · exact Nat.le_refl _
    split
    · exact hclose
    split
    · split
      · exact hclose
      · exact Nat.le_refl _
    · exact Nat.le_refl _

/-- A bracket that closes nothing spoils the line. -/
theorem finish_of_excess (h : 0 < n.excess) (ls : List Lexeme) (g : Group) :
    (ls.foldl add n).finish ≠ .ok g := by
  induction ls generalizing n with
  | nil =>
    rw [List.foldl_nil, finish, if_pos h]
    nofun
  | cons l ls ih => exact ih (Nat.lt_of_lt_of_le h (n.excess_le_add l))

/-- A line with a lexeme has an item. If the first one is a symbol other than a bar, the
    line starts with it. -/
theorem first_item {ls : List Lexeme} {l : Lexeme} {g : Group}
    (h : ((l :: ls).foldl add start).finish = .ok g) :
    ∃ x tail, g = x :: tail ∧ ∀ s, x = .symbol s → s ≠ "|" →
      l = .symbol s ∧ (ls.foldl add start).finish = .ok tail := by
  -- A lexeme that is no bracket is the first item. A bracket opens a group that is, or a bar
  -- is before it, or it closes what has not been opened.
  rw [List.foldl_cons] at h
  have hover : ∀ {x n₀}, Over x n₀ (start.add l) →
      ∃ tail, g = x :: tail ∧ (ls.foldl add n₀).finish = .ok tail := by
    intro x n₀ hover
    rw [(hover.foldl ls).finish] at h
    obtain ⟨tail, htail, heq⟩ := map_eq_ok.1 h
    exact ⟨tail, heq.symm, htail⟩
  cases l with
  | text s =>
    obtain ⟨tail, hg, -⟩ := hover (.outermost [] 0 false)
    exact ⟨_, tail, hg, nofun⟩
  | symbol s =>
    by_cases hopen : s = "("
    · subst hopen
      obtain ⟨items, tail, hg⟩ := StartsOpen.finish ⟨[], rfl⟩ h
      exact ⟨_, tail, hg, nofun⟩
    by_cases hclose : s = ")"
    · subst hclose
      exact absurd h (finish_of_excess Nat.one_pos ls _)
    by_cases hs : s = "|"
    · subst hs
      obtain ⟨tail, hg, -⟩ := hover (.inside [] [] [] 0 true)
      exact ⟨_, tail, hg, fun s heq hbar => absurd (Item.symbol.inj heq).symm hbar⟩
    · have hpush : Over (.symbol s) start (start.add (.symbol s)) := by
        rw [add, if_neg hopen, if_neg hclose, if_neg hs]
        exact .outermost [] 0 false
      obtain ⟨tail, hg, htail⟩ := hover hpush
      exact ⟨_, tail, hg, fun s heq _ => ⟨congrArg _ (Item.symbol.inj heq), htail⟩⟩

theorem first_symbol {ls : List Lexeme} {l : Lexeme} {g : Group} {keyword : String}
    (h : ((l :: ls).foldl add start).finish = .ok (.symbol keyword :: g)) (hbar : keyword ≠ "|") :
    l = .symbol keyword ∧ (ls.foldl add start).finish = .ok g := by
  obtain ⟨x, tail, heq, hfirst⟩ := first_item h
  cases heq
  exact hfirst keyword rfl hbar

end Nesting

/-! ## Lines -/

theorem Group.ofLine_trim (line : String) : Group.ofLine (Text.trim line) = Group.ofLine line := by
  rw [Group.ofLine, Group.ofLine, Lexeme.ofLine_trim]

namespace Capture

/-- A line that starts with `else` starts with one of two symbols. -/
theorem startsWithElse?_eq_some {g : Group} {keyword : String}
    (h : startsWithElse? g = some keyword) :
    ∃ rest, g = .symbol keyword :: rest ∧
      (keyword = Keyword.alternative.symbol ∨ keyword = Keyword.otherwise.symbol) := by
  obtain ⟨item, hitem, hsymbol⟩ := Option.bind_eq_some_iff.1 h
  obtain ⟨hhead, helse⟩ := Option.filter_eq_some_iff.1 hitem
  cases item with
  | symbol s =>
    cases hsymbol
    obtain ⟨rest, rfl⟩ : ∃ rest, g = .symbol keyword :: rest := by
      cases g with
      | nil => cases hhead
      | cons item rest =>
        cases hhead
        exact ⟨rest, rfl⟩
    obtain ⟨k, hk, helse⟩ := (Option.any_eq_true ..).1 helse
    have hsymbol := Keyword.ofSymbol?_eq_some_iff.1 hk
    cases k with
    | alternative => exact ⟨rest, rfl, .inl hsymbol.symm⟩
    | otherwise => exact ⟨rest, rfl, .inr hsymbol.symm⟩
    | _ => cases helse
  | text s => cases hsymbol
  | group g => cases hsymbol

/-- What comes after `else` in a line is a line of its own. -/
theorem ofLine_afterKeyword {line keyword : String} {g : Group}
    (h : Group.ofLine (Text.trim line) = .ok g) (hk : startsWithElse? g = some keyword) :
    Group.ofLine (afterKeyword (Text.trim line) keyword) = .ok g.tail := by
  obtain ⟨rest, rfl, hkeyword⟩ := startsWithElse?_eq_some hk
  have hblank : ∀ c ∈ (Text.trim line).toList.head?, Text.isBlank c = false :=
    (Text.trim_eq_self_iff.1 (Text.trim_trim line)).1
  obtain ⟨lexemes, hlexemes, hfinish⟩ := bind_eq_ok.1 h
  have hbar : keyword ≠ "|" := by
    rcases hkeyword with rfl | rfl <;> decide
  have hlen : 1 < keyword.length := by
    rcases hkeyword with rfl | rfl <;> decide
  have hend : ∀ s, keyword ≠ s ++ "=" := by
    intro s hs
    have hlast := congrArg (·.toList.getLast?) hs
    rcases hkeyword with rfl | rfl <;> simp [Keyword.symbol] at hlast
  cases lexemes with
  | nil => cases hfinish
  | cons l lexemes =>
    obtain ⟨rfl, hrest⟩ := Nesting.first_symbol hfinish hbar
    rw [afterKeyword, Group.ofLine_trim]
    exact bind_eq_ok.2 ⟨lexemes, Lexeme.ofLine_drop hblank hlen hend hlexemes, hrest⟩

end Capture

end Linewise
