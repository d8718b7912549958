import Linewise.Proofs.Token

/-!
# Lines that are put together

The lexemes of a line can be told from those of its pieces, as long as no symbol goes on
where a piece ends (`Lexeme.Spells`). Where there are no brackets among them, they are
the items of the line one by one (`Group.ofLine_of_spells`).
-/

namespace Linewise

namespace Lexeme

/-- The characters are scanned as these lexemes, whatever comes after them that does not
    go on with a symbol. -/
def Spells (cs : List Char) (ls : List Lexeme) : Prop :=
  ∀ rest : List Char, (∀ c ∈ rest.head?, isWord c = false) →
    scan (.symbol []) (cs ++ rest) = (ls ++ ·) <$> scan (.symbol []) rest

variable {cs cs' : List Char} {ls ls' : List Lexeme} {c : Char}

theorem map_cons_append (l : Lexeme) (ls : List Lexeme) (x : Except Fault (List Lexeme)) :
    (l :: ·) <$> (ls ++ ·) <$> x = (l :: ls ++ ·) <$> x := by
  cases x <;> rfl

theorem spells_nil : Spells [] [] := by
  intro rest _
  rw [List.nil_append]
  exact (id_map _).symm

/-- A character that is a symbol of its own, before any text. -/
theorem Spells.cons_solitary (h : Spells cs ls) (hc : isSolitary c = true) :
    Spells (c :: cs) (symbol (String.singleton c) :: ls) := by
  intro rest hrest
  rw [List.cons_append, scan, if_neg (not_quote_of_solitary hc), if_pos hc, h rest hrest,
    ← map_cons_append]
  rfl

theorem Spells.cons_blank (h : Spells cs ls) (hc : Text.isBlank c = true) :
    Spells (c :: cs) ls := by
  intro rest hrest
  rw [List.cons_append, scan_blank hc, nothing_append, h rest hrest]

theorem Spells.append (h : Spells cs ls) (h' : Spells cs' ls')
    (hstart : ∃ c ∈ cs'.head?, isWord c = false) : Spells (cs ++ cs') (ls ++ ls') := by
  intro rest hrest
  obtain ⟨c, hc, hword⟩ := hstart
  have hnext : ∀ c ∈ (cs' ++ rest).head?, isWord c = false := by
    intro d hd
    rw [List.head?_append, Option.mem_def.1 hc] at hd
    cases hd
    exact hword
  rw [List.append_assoc, h _ hnext, h' rest hrest]
  cases scan (.symbol []) rest with
  | ok lexemes => exact congrArg Except.ok (List.append_assoc ls ls' lexemes).symm
  | error f => rfl

/-- A symbol of several characters. -/
theorem spells_word (hne : cs ≠ []) (hword : ∀ c ∈ cs, isWord c = true) :
    Spells cs [symbol (String.ofList cs)] := by
  intro rest hrest
  have htake : (cs ++ rest).takeWhile isWord = cs := by
    rw [List.takeWhile_append_of_pos hword]
    cases rest with
    | nil => rw [List.takeWhile_nil, List.append_nil]
    | cons c rest =>
      have hc : ¬isWord c = true := Bool.eq_false_iff.1 (hrest c rfl)
      rw [List.takeWhile_cons_of_neg hc, List.append_nil]
  have hdrop : (cs ++ rest).dropWhile isWord = rest := by
    rw [List.dropWhile_append_of_pos hword]
    cases rest with
    | nil => rfl
    | cons c rest =>
      have hc : ¬isWord c = true := Bool.eq_false_iff.1 (hrest c rfl)
      rw [List.dropWhile_cons_of_neg hc]
  have hfinish : finish (cs.reverse ++ []) = [symbol (String.ofList cs)] := by
    rw [List.append_nil, finish, List.reverse_reverse, if_neg (by simpa using hne)]
  rw [scan_word, htake, hdrop, hfinish]

theorem scan_text (h : '"' ∉ cs) (seen rest : List Char) :
    scan (.text seen) (cs ++ '"' :: rest) =
      (text (String.ofList (seen.reverse ++ cs)) :: ·) <$> scan (.symbol []) rest := by
  induction cs generalizing seen with
  | nil => rw [List.nil_append, scan, if_pos rfl, List.append_nil]
  | cons c cs ih =>
    obtain ⟨hc, hcs⟩ := not_or.1 (fun hor => h (List.mem_cons.2 hor))
    rw [List.cons_append, scan, if_neg fun heq => hc heq.symm, ih hcs, List.reverse_cons,
      List.append_assoc, List.singleton_append]

/-- A string literal. -/
theorem spells_text (h : '"' ∉ cs) : Spells ('"' :: (cs ++ ['"'])) [text (String.ofList cs)] := by
  intro rest _
  rw [List.cons_append, List.append_assoc, scan, if_pos rfl, nothing_append, List.singleton_append,
    scan_text h]
  rfl

/-- The lexeme stays as it is among others: it is neither a bracket nor the end of an
    operator, nor does it make or follow a reference. -/
def IsPlain (l : Lexeme) : Prop :=
  ∀ s ∈ ["=", "(", ")", "|", "@", "~"], l ≠ symbol s

instance (l : Lexeme) : Decidable l.IsPlain :=
  inferInstanceAs (Decidable (∀ s ∈ ["=", "(", ")", "|", "@", "~"], l ≠ symbol s))

/-- The lexeme neither opens nor closes a group. -/
def IsUnbracketed (l : Lexeme) : Prop :=
  ∀ s ∈ ["(", ")", "|"], l ≠ symbol s

instance (l : Lexeme) : Decidable l.IsUnbracketed :=
  inferInstanceAs (Decidable (∀ s ∈ ["(", ")", "|"], l ≠ symbol s))

theorem IsPlain.isUnbracketed {l : Lexeme} (h : l.IsPlain) : l.IsUnbracketed := by
  have hsub : ["(", ")", "|"] ⊆ ["=", "(", ")", "|", "@", "~"] := by decide
  exact fun s hs => h s (hsub hs)

/-- The symbol is a word. -/
def IsWord (s : String) : Prop :=
  s.toList ≠ [] ∧ ∀ c ∈ s.toList, isWord c = true

instance (s : String) : Decidable (IsWord s) :=
  decidable_of_iff (s.toList ≠ [] ∧ s.toList.all isWord = true)
    (and_congr_right fun _ => List.all_eq_true)

theorem IsWord.spells {s : String} (h : IsWord s) : Spells s.toList [symbol s] := by
  have hspells := spells_word h.1 h.2
  rwa [String.ofList_toList] at hspells

theorem IsWord.isPlain {s : String} (h : IsWord s) : (symbol s).IsPlain := by
  rintro _ ht ⟨⟩
  simp only [List.mem_cons, List.not_mem_nil, or_false] at ht
  rcases ht with rfl | rfl | rfl | rfl | rfl | rfl <;> exact absurd h (by decide)

/-- No operator starts with a word. -/
theorem IsWord.startsOperator_eq_false {s : String} (h : IsWord s) : startsOperator s = false := by
  refine Bool.eq_false_iff.2 fun hstart => ?_
  simp only [startsOperator, Bool.or_eq_true, beq_iff_eq] at hstart
  rcases hstart with ((rfl | rfl) | rfl) | rfl <;> exact absurd h (by decide)

/-- The item that a lexeme is. -/
def item : Lexeme → Item
  | symbol s => .symbol s
  | text s => .text s

/-- A symbol that starts no operator stays as it is. -/
theorem join_cons {s : String} (h : startsOperator s = false) (ls : List Lexeme) :
    join (symbol s :: ls) = symbol s :: join ls := by
  rcases ls with _ | ⟨e | _, ls⟩
  · rfl
  · rw [join, h]
    rfl
  · rfl

theorem join_eq_self (h : ∀ l ∈ ls, l.IsPlain) : join ls = ls := by
  induction ls with
  | nil => rfl
  | cons l ls ih =>
    rw [List.forall_mem_cons] at h
    have htail := ih h.2
    rcases l with s | s
    · rcases ls with _ | ⟨e | t, ls⟩
      · rfl
      · have he : e ≠ "=" := fun heq =>
          h.2 _ List.mem_cons_self "=" List.mem_cons_self (congrArg symbol heq)
        rw [join, if_neg (by simp [he]), htail]
      · exact congrArg _ htail
    · rw [join_text, htail]

/-- A line that is put together of such pieces consists of their lexemes. -/
theorem Spells.ofLine {line : String} (h : Spells line.toList ls) (hls : join ls = ls) :
    Lexeme.ofLine line = .ok ls := by
  have hscan : scan (.symbol []) line.toList = .ok ls := by
    have hnil := h [] nofun
    rw [List.append_nil] at hnil
    exact hnil.trans (congrArg Except.ok (List.append_nil ls))
  rw [Lexeme.ofLine, hscan]
  exact congrArg Except.ok hls

/-- A word before what does not go on with it is a symbol of its own, and the rest is a line
    of its own. -/
theorem IsWord.ofLine_append {s line : String} (h : IsWord s)
    (hline : ∀ c ∈ line.toList.head?, isWord c = false) :
    Lexeme.ofLine (s ++ line) = (symbol s :: ·) <$> Lexeme.ofLine line := by
  rw [Lexeme.ofLine, Lexeme.ofLine, String.toList_append, h.spells _ hline]
  cases scan (.symbol []) line.toList with
  | error f => rfl
  | ok raw => exact congrArg Except.ok (join_cons h.startsOperator_eq_false raw)

end Lexeme

theorem Nesting.add_of_isUnbracketed {l : Lexeme} (h : l.IsUnbracketed) (n : Nesting) :
    n.add l = n.push l.item := by
  cases l with
  | text s => rfl
  | symbol s =>
    have hopen : s ≠ "(" := fun heq => h "(" (by decide) (congrArg Lexeme.symbol heq)
    have hclose : s ≠ ")" := fun heq => h ")" (by decide) (congrArg Lexeme.symbol heq)
    have hbar : s ≠ "|" := fun heq => h "|" (by decide) (congrArg Lexeme.symbol heq)
    rw [add, if_neg hopen, if_neg hclose, if_neg hbar, Lexeme.item]

theorem Nesting.foldl_add_of_isUnbracketed {ls : List Lexeme} (h : ∀ l ∈ ls, l.IsUnbracketed)
    (n : Nesting) :
    ls.foldl add n = { n with items := (ls.map Lexeme.item).reverse ++ n.items } := by
  induction ls generalizing n with
  | nil => rfl
  | cons l ls ih =>
    rw [List.forall_mem_cons] at h
    rw [List.foldl_cons, add_of_isUnbracketed h.1, ih h.2, List.map_cons, List.reverse_cons,
      List.append_assoc]
    rfl

theorem Group.ofLine_append {s line : String} (h : Lexeme.IsWord s)
    (hline : ∀ c ∈ line.toList.head?, Lexeme.isWord c = false) :
    Group.ofLine (s ++ line) = (.symbol s :: ·) <$> Group.ofLine line := by
  unfold Group.ofLine
  rw [h.ofLine_append hline]
  cases Lexeme.ofLine line with
  | error f => rfl
  | ok ls =>
    show ((Lexeme.symbol s :: ls).foldl Nesting.add .start).finish = _
    rw [List.foldl_cons, Nesting.add_of_isUnbracketed h.isPlain.isUnbracketed]
    exact ((Nesting.Over.outermost (x := .symbol s) [] 0 false).foldl ls).finish

/-- A line without brackets is a row of its lexemes. -/
theorem Group.ofLine_of_join {line : String} {ls : List Lexeme}
    (h : Lexeme.Spells line.toList ls) (hjoin : Lexeme.join ls = ls)
    (hls : ∀ l ∈ ls, l.IsUnbracketed) : Group.ofLine line = .ok (ls.map Lexeme.item) := by
  unfold Group.ofLine
  rw [h.ofLine hjoin]
  show (ls.foldl Nesting.add .start).finish = _
  rw [Nesting.foldl_add_of_isUnbracketed hls, Nesting.finish]
  simp [Nesting.start]

theorem Group.ofLine_of_spells {line : String} {ls : List Lexeme}
    (h : Lexeme.Spells line.toList ls) (hls : ∀ l ∈ ls, l.IsPlain) :
    Group.ofLine line = .ok (ls.map Lexeme.item) :=
  ofLine_of_join h (Lexeme.join_eq_self hls) fun l hl => (hls l hl).isUnbracketed

end Linewise
