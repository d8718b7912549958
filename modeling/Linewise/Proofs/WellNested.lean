import Linewise.Proofs.Alternative
import Linewise.Proofs.Cut
import Linewise.Proofs.Spelling
import Mathlib

/-!
# Well-nested lines

Lines are well nested if each construct among them has its body and its end
(`WellNested`). A capture goes over them as a whole and stays at its level
(`Capture.through?_of_wellNested`): the line that opens a construct takes it one level
deeper, at which the body cannot end it nor part its branches, and the end of the
construct takes it back.

So the first `end` after well-nested lines is that of the block, and the first `else` after
them is its own (`capture_wellNested`).
-/

namespace Linewise

/-! ## What a line opens -/

/-- The keyword has a body, which follows where the line ends in a comma. -/
def Keyword.hasBody : Keyword → Bool
  | conditional | repetition => true
  | _ => false

namespace Group

/-- The keyword is on the line. -/
def Has (g : Group) (k : Keyword) : Prop :=
  ∃ item ∈ g, item.isSymbol k.symbol = true

def EndsInComma (g : Group) : Prop :=
  ∃ item ∈ g.getLast?, item.isSymbol "," = true

def EndsInElse (g : Group) : Prop :=
  ∃ item ∈ g.getLast?, item.isElse = true

/-- The line closes nothing, and does not start with `else`. -/
structure Ordinary (g : Group) : Prop where
  closing : g.count Keyword.closing.symbol = 0
  first : ∀ item ∈ g.head?, item.isElse = false

/-- The line opens a body `n` times with `begin`, and in no other way. -/
structure Begins (n : Nat) (g : Group) : Prop extends Ordinary g where
  opening : g.count Keyword.opening.symbol = n
  comma : g.Has .conditional ∨ g.Has .repetition → ¬g.EndsInComma
  alternative : g.Has .conditional → ¬g.EndsInElse

/-- The line ends in a comma, and opens the body of `k` by that. -/
structure Awaits (k : Keyword) (g : Group) : Prop extends Ordinary g where
  opening : g.count Keyword.opening.symbol = 0
  hasBody : k.hasBody
  has : g.Has k
  only : ∀ {k' : Keyword}, k'.hasBody → g.Has k' → k' = k
  comma : g.EndsInComma

/-- The line opens one body. -/
inductive Opener (g : Group) : Prop
  | opening (h : g.Begins 1)
  | awaits {k : Keyword} (h : g.Awaits k)
  /-- The body is the second branch. -/
  | alternative (h : g.Ordinary) (hb : g.count Keyword.opening.symbol = 0)
      (hif : g.Has .conditional) (helse : g.EndsInElse)

variable {g : Group} {n : Nat} {k : Keyword}

instance (g : Group) (k : Keyword) : Decidable (g.Has k) :=
  inferInstanceAs (Decidable (∃ item ∈ g, item.isSymbol k.symbol = true))

instance (g : Group) : Decidable g.EndsInComma :=
  inferInstanceAs (Decidable (∃ item ∈ g.getLast?, item.isSymbol "," = true))

instance (g : Group) : Decidable g.EndsInElse :=
  inferInstanceAs (Decidable (∃ item ∈ g.getLast?, item.isElse = true))

instance (g : Group) : Decidable g.Ordinary :=
  decidable_of_iff (g.count Keyword.closing.symbol = 0 ∧ ∀ item ∈ g.head?, item.isElse = false)
    ⟨fun h => ⟨h.1, h.2⟩, fun h => ⟨h.closing, h.first⟩⟩

instance (n : Nat) (g : Group) : Decidable (g.Begins n) :=
  decidable_of_iff
    (g.Ordinary ∧ g.count Keyword.opening.symbol = n ∧
      (g.Has .conditional ∨ g.Has .repetition → ¬g.EndsInComma) ∧
      (g.Has .conditional → ¬g.EndsInElse))
    ⟨fun ⟨h, hopening, hcomma, helse⟩ => ⟨h, hopening, hcomma, helse⟩,
      fun h => ⟨h.toOrdinary, h.opening, h.comma, h.alternative⟩⟩

theorem hasBody_iff : k.hasBody ↔ k = .conditional ∨ k = .repetition := by
  cases k <;> decide

theorem opensBody_iff : Capture.opensBody g k = true ↔ g.Has k ∧ g.EndsInComma := by
  rw [Capture.opensBody, Bool.and_eq_true, List.any_eq_true, Option.any_eq_true]
  rfl

theorem isElse_of_isSymbol {item : Item} {s : String} (h : item.isSymbol s = true) :
    item.isElse = (Keyword.ofSymbol? s).any Keyword.isElse := by
  rw [Item.isSymbol, beq_iff_eq] at h
  rw [Item.isElse, Item.keyword?, h]
  rfl

theorem opensElse_iff : Capture.opensElse g = true ↔ g.Has .conditional ∧ g.EndsInElse := by
  rw [Capture.opensElse, Bool.and_eq_true, List.any_eq_true, Option.any_eq_true]
  constructor
  · rintro ⟨helse, item, hitem, hif⟩
    exact ⟨⟨item, List.dropLast_subset _ hitem, hif⟩, helse⟩
  · rintro ⟨⟨item, hitem, hif⟩, last, hlast, helse⟩
    refine ⟨⟨last, hlast, helse⟩, item, ?_, hif⟩
    -- The last item is an `else`, so it is not the `if`.
    obtain ⟨first, rfl⟩ := List.getLast?_eq_some_iff.1 hlast
    rw [List.dropLast_concat]
    refine (List.mem_append.1 hitem).resolve_right fun hmem => ?_
    rw [← List.mem_singleton.1 hmem, isElse_of_isSymbol hif] at helse
    exact absurd helse (by decide)

/-- A line that ends in a comma does not end in `else`. -/
theorem EndsInComma.not_endsInElse (h : g.EndsInComma) : ¬g.EndsInElse := by
  rintro ⟨last, hlast, helse⟩
  obtain ⟨item, hitem, hcomma⟩ := h
  cases hlast.symm.trans hitem
  rw [isElse_of_isSymbol hcomma] at helse
  exact absurd helse (by decide)

theorem Ordinary.startsWithElse? (h : g.Ordinary) : Capture.startsWithElse? g = none := by
  cases hk : Capture.startsWithElse? g with
  | none => rfl
  | some keyword =>
    obtain ⟨rest, rfl, rfl | rfl⟩ := Capture.startsWithElse?_eq_some hk
    · exact absurd (h.first _ rfl) (by decide)
    · exact absurd (h.first _ rfl) (by decide)

theorem Begins.opensBody (h : g.Begins n) (hk : k.hasBody) : Capture.opensBody g k = false := by
  refine Bool.eq_false_iff.2 fun hbody => ?_
  obtain ⟨hhas, hcomma⟩ := opensBody_iff.1 hbody
  refine h.comma ?_ hcomma
  rcases hasBody_iff.1 hk with rfl | rfl
  · exact .inl hhas
  · exact .inr hhas

theorem Begins.opensElse (h : g.Begins n) : Capture.opensElse g = false :=
  Bool.eq_false_iff.2 fun helse => h.alternative (opensElse_iff.1 helse).1 (opensElse_iff.1 helse).2

theorem Begins.opened (h : g.Begins n) : Capture.opened g = n := by
  rw [Capture.opened, h.opensBody rfl, h.opensBody rfl, h.opensElse, h.opening]
  rfl

theorem Awaits.opened (h : g.Awaits k) : Capture.opened g = 1 := by
  have helse : Capture.opensElse g = false :=
    Bool.eq_false_iff.2 fun helse => h.comma.not_endsInElse (opensElse_iff.1 helse).2
  have hbody : Capture.opensBody g k = true := opensBody_iff.2 ⟨h.has, h.comma⟩
  have hother : ∀ {k' : Keyword}, k'.hasBody → k' ≠ k → Capture.opensBody g k' = false :=
    fun hk' hne => Bool.eq_false_iff.2 fun hbody => hne (h.only hk' (opensBody_iff.1 hbody).1)
  rw [Capture.opened, h.opening, helse]
  cases k with
  | conditional => rw [hbody, hother rfl (by decide)]; rfl
  | repetition => rw [hbody, hother rfl (by decide)]; rfl
  | _ => cases h.hasBody

/-- An opener starts with no `else`, closes nothing, and opens one body. -/
theorem Opener.ordinary (h : g.Opener) : g.Ordinary := by
  cases h with
  | opening h => exact h.toOrdinary
  | awaits h => exact h.toOrdinary
  | alternative h => exact h

theorem Opener.opened (h : g.Opener) : Capture.opened g = 1 := by
  cases h with
  | opening h => exact h.opened
  | awaits h => exact h.opened
  | alternative h hb hif helse =>
    have hbody : ∀ {k}, Capture.opensBody g k = false := fun {k} =>
      Bool.eq_false_iff.2 fun hbody => (opensBody_iff.1 hbody).2.not_endsInElse helse
    rw [Capture.opened, hb, hbody, hbody, opensElse_iff.2 ⟨hif, helse⟩]
    rfl

section

variable {keyword : String} (hk : Capture.startsWithElse? (.symbol keyword :: g) = some keyword)

include hk

theorem isSymbol_else (h : k.isElse = false) : (Item.symbol keyword).isSymbol k.symbol = false := by
  obtain ⟨_, -, rfl | rfl⟩ := Capture.startsWithElse?_eq_some hk <;> cases k <;>
    first | rfl | cases h

theorem count_else_cons (h : k.isElse = false) :
    Group.count (.symbol keyword :: g) k.symbol = g.count k.symbol :=
  List.countP_cons_of_neg (Bool.eq_false_iff.1 (isSymbol_else hk h))

theorem Has.of_else_cons (h : k.isElse = false) (hhas : Has (.symbol keyword :: g) k) :
    g.Has k := by
  obtain ⟨item, hitem, hsymbol⟩ := hhas
  refine ⟨item, (List.mem_cons.1 hitem).resolve_left ?_, hsymbol⟩
  rintro rfl
  rw [isSymbol_else hk h] at hsymbol
  cases hsymbol

/-- A statement behind `else` opens and closes nothing either. -/
theorem Begins.even_cons (h : g.Begins 0) (hne : g ≠ []) :
    Even (.symbol keyword :: g) ∧ Capture.opensElse (.symbol keyword :: g) = false := by
  have hlast : List.getLast? (.symbol keyword :: g) = g.getLast? := by
    obtain ⟨item, tail, rfl⟩ := List.exists_cons_of_ne_nil hne
    exact List.getLast?_cons_cons
  have hbody : ∀ {k : Keyword}, k.hasBody → k.isElse = false →
      Capture.opensBody (.symbol keyword :: g) k = false := by
    refine fun hk' helse => Bool.eq_false_iff.2 fun hbody => ?_
    obtain ⟨hhas, hcomma⟩ := opensBody_iff.1 hbody
    rw [EndsInComma, hlast] at hcomma
    exact Bool.eq_false_iff.1 (h.opensBody hk')
      (opensBody_iff.2 ⟨hhas.of_else_cons hk helse, hcomma⟩)
  refine ⟨⟨?_, ?_, hbody rfl rfl, hbody rfl rfl⟩, Bool.eq_false_iff.2 fun helse => ?_⟩
  · rw [count_else_cons hk rfl, count_else_cons hk rfl, h.opening, h.closing]
  · rw [count_else_cons hk rfl, h.opening]
    exact Nat.zero_le 1
  · obtain ⟨hif, hend⟩ := opensElse_iff.1 helse
    rw [EndsInElse, hlast] at hend
    exact h.alternative (hif.of_else_cons hk rfl) hend

end

end Group

/-! ## Lines -/

/-- The line has a tree, and this is what is known of it. -/
def Statement.Is (P : Group → Prop) (line : String) : Prop :=
  ∃ g, Group.ofLine line = .ok g ∧ P g

theorem Statement.Is.imp {P Q : Group → Prop} {line : String} (h : Statement.Is P line)
    (himp : ∀ {g}, P g → Q g) : Statement.Is Q line :=
  have ⟨g, hg, hP⟩ := h
  ⟨g, hg, himp hP⟩

/-- The line is `end` alone. -/
def Statement.IsEnd (line : String) : Prop :=
  Text.trim line = Keyword.closing.symbol

/-- The line is `else` or `otherwise` alone. -/
def Statement.IsElse (line : String) : Prop :=
  Text.trim line = Keyword.alternative.symbol ∨ Text.trim line = Keyword.otherwise.symbol

/-- The line is `else` or `otherwise`, and behind it a statement. -/
inductive Statement.IsElseThen (statement line : String) : Prop
  | mk {keyword rest : String}
      (hkeyword : keyword = Keyword.alternative.symbol ∨ keyword = Keyword.otherwise.symbol)
      (hline : Text.trim line = keyword ++ rest)
      (hend : ∀ c ∈ rest.toList.head?, Lexeme.isWord c = false)
      (hrest : Text.trim rest = Text.trim statement)

/-- The lines are statements of their own and constructs with all that belongs to them. -/
inductive WellNested : List String → Prop
  | nil : WellNested []
  | append {first second : List String} (h₁ : WellNested first) (h₂ : WellNested second) :
      WellNested (first ++ second)
  | statement {line : String} (h : Statement.Is (Group.Begins 0) line) : WellNested [line]
  | construct {opener close : String} {body : List String}
      (hopener : Statement.Is Group.Opener opener) (hbody : WellNested body)
      (hclose : Statement.IsEnd close) : WellNested (opener :: (body ++ [close]))
  | branches {opener marker close : String} {first second : List String}
      (hopener : Statement.Is (Group.Awaits .conditional) opener) (hfirst : WellNested first)
      (hmarker : Statement.IsElse marker) (hsecond : WellNested second)
      (hclose : Statement.IsEnd close) :
      WellNested (opener :: (first ++ marker :: (second ++ [close])))
  | alternative {opener line statement : String} {body : List String}
      (hopener : Statement.Is (Group.Awaits .conditional) opener) (hbody : WellNested body)
      (hstatement : Statement.Is (Group.Begins 0) statement) (hne : Text.trim statement ≠ "")
      (hline : Statement.IsElseThen statement line) : WellNested (opener :: (body ++ [line]))

theorem Group.ofLine_word {s : String} (h : Lexeme.IsWord s) : Group.ofLine s = .ok [.symbol s] :=
  ofLine_of_spells h.spells (List.forall_mem_singleton.2 h.isPlain)

/-- A line that is not blank has an item. -/
theorem Group.ne_nil_of_ofLine {line : String} {g : Group} (h : Group.ofLine line = .ok g)
    (hne : Text.trim line ≠ "") : g ≠ [] := by
  rw [← Group.ofLine_trim] at h
  obtain ⟨ls, hls, hfinish⟩ := bind_eq_ok.1 h
  cases ls with
  | nil =>
    -- The line starts with a character that is not blank.
    have hwritten : Text.dense false (Text.trim line).toList = [] :=
      (Lexeme.written_ofLine hls).symm
    have hblank := (Text.trim_eq_self_iff.1 (Text.trim_trim line)).1
    cases hcs : (Text.trim line).toList with
    | nil => exact absurd (String.toList_eq_nil_iff.1 hcs) hne
    | cons c cs =>
      rw [hcs] at hwritten hblank
      rw [Text.dense, hblank c rfl] at hwritten
      split at hwritten <;> cases hwritten
  | cons l ls =>
    obtain ⟨item, tail, rfl, -⟩ := Nesting.first_item hfinish
    exact List.cons_ne_nil item tail

/-- What `else` is put before stands behind it. -/
theorem Statement.IsElseThen.ofLine {statement line : String} {g : Group}
    (h : Statement.IsElseThen statement line) (hg : Group.ofLine statement = .ok g) :
    ∃ keyword, Group.ofLine (Text.trim line) = .ok (.symbol keyword :: g) ∧
      Capture.startsWithElse? (.symbol keyword :: g) = some keyword ∧
      Capture.afterKeyword (Text.trim line) keyword = Text.trim statement := by
  obtain ⟨hkeyword, hline, hend, hrest⟩ := h
  rename_i keyword rest
  have hword : Lexeme.IsWord keyword := by
    rcases hkeyword with rfl | rfl <;> decide
  refine ⟨keyword, ?_, ?_, ?_⟩
  · rw [hline, Group.ofLine_append hword hend, ← Group.ofLine_trim rest, hrest,
      Group.ofLine_trim, hg]
    rfl
  · rcases hkeyword with rfl | rfl <;> rfl
  · rw [Capture.afterKeyword, hline, String.toList_append, ← String.length_toList, List.drop_left,
      String.ofList_toList, hrest]

/-! ## Captures of well-nested lines -/

namespace Capture

variable {c c' : Capture} {line statement : String} {lines : List String}

/-- The capture within one more construct. -/
def deeper (c : Capture) : Capture :=
  { c with level := c.level + 1 }

theorem step_of_begins (h : Statement.Is (Group.Begins 0) line) :
    c.step line = .more (c.push (Text.trim line)) := by
  obtain ⟨g, hg, h⟩ := h
  rw [← Group.ofLine_trim] at hg
  rw [step_within hg h.startsWithElse? (by rw [h.closing]; exact Nat.zero_le _)
    (by rw [h.opening]; exact Nat.zero_le _), h.opened, h.closing]
  rfl

theorem step_of_opener (h : Statement.Is Group.Opener line) :
    c.step line = .more (c.push (Text.trim line)).deeper := by
  obtain ⟨g, hg, h⟩ := h
  rw [← Group.ofLine_trim] at hg
  have hopened := h.opened
  have hbegins : g.count Keyword.opening.symbol ≤ 1 := by
    rw [opened] at hopened
    omega
  rw [step_within hg h.ordinary.startsWithElse? (by rw [h.ordinary.closing]; exact Nat.zero_le _)
    hbegins, hopened, h.ordinary.closing]
  rfl

theorem step_of_isEnd (h : Statement.IsEnd line) :
    c.step line =
      if c.level = 0 then .complete c.finish
      else .more { c.push (Text.trim line) with level := c.level - 1 } := by
  refine step_of_closing (g := [.symbol Keyword.closing.symbol]) ?_ rfl rfl rfl
  rw [h]
  exact Group.ofLine_word (by decide)

/-- An `else` alone belongs to the block, or to an `if` within it. -/
theorem step_of_isElse (h : Statement.IsElse line) :
    ∃ keyword, c.step line =
      if c.level = 0 then c.splitAt keyword (Text.trim line) [.symbol keyword]
      else .more (c.push (Text.trim line)) := by
  have hk : startsWithElse? [.symbol (Text.trim line)] = some (Text.trim line) := by
    rcases h with h | h <;> rw [h] <;> rfl
  have helse : opensElse [.symbol (Text.trim line)] = false := Bool.and_false _
  have hg : Group.ofLine (Text.trim line) = .ok [.symbol (Text.trim line)] := by
    refine Group.ofLine_word ?_
    rcases h with h | h <;> rw [h] <;> decide
  refine ⟨Text.trim line, ?_⟩
  rw [step_even hg hk (even_of_alone hk), addLine_of_some hk helse]
  rfl

/-- A statement behind `else` is all of a branch of the block, or of an `if` within it, which
    it closes. -/
theorem step_of_isElseThen (h : Statement.IsElseThen statement line)
    (hstatement : Statement.Is (Group.Begins 0) statement) (hne : Text.trim statement ≠ "") :
    ∃ keyword g, g.length ≠ 1 ∧ afterKeyword (Text.trim line) keyword = Text.trim statement ∧
      c.step line =
        if c.level = 0 then c.splitAt keyword (Text.trim line) g
        else .more { c.push (Text.trim line) with level := c.level - 1 } := by
  obtain ⟨g, hg, hbegins⟩ := hstatement
  obtain ⟨keyword, hline, hk, hafter⟩ := h.ofLine hg
  have hitems := Group.ne_nil_of_ofLine hg hne
  obtain ⟨heven, helse⟩ := hbegins.even_cons hk hitems
  have hlength : (Item.symbol keyword :: g).length ≠ 1 := by
    rw [List.length_cons]
    exact fun h => hitems (List.eq_nil_of_length_eq_zero (Nat.succ.inj h))
  refine ⟨keyword, _, hlength, hafter, ?_⟩
  rw [step_even hline hk heven, addLine_of_some hk helse, if_neg hlength]

theorem step_deeper_of_isEnd (h : Statement.IsEnd line) :
    c.deeper.step line = .more (c.push (Text.trim line)) :=
  (step_of_isEnd h).trans (if_neg (Nat.succ_ne_zero c.level))

theorem step_deeper_of_isElse (h : Statement.IsElse line) :
    c.deeper.step line = .more (c.push (Text.trim line)).deeper :=
  have ⟨_, hstep⟩ := step_of_isElse (c := c.deeper) h
  hstep.trans (if_neg (Nat.succ_ne_zero c.level))

theorem step_deeper_of_isElseThen (h : Statement.IsElseThen statement line)
    (hstatement : Statement.Is (Group.Begins 0) statement) (hne : Text.trim statement ≠ "") :
    c.deeper.step line = .more (c.push (Text.trim line)) :=
  have ⟨_, _, _, _, hstep⟩ := step_of_isElseThen (c := c.deeper) h hstatement hne
  hstep.trans (if_neg (Nat.succ_ne_zero c.level))

theorem through?_cons (h : c.step line = .more c') :
    c.through? (line :: lines) = c'.through? lines := by
  rw [through?, h]

theorem pushAll_append (c : Capture) (first second : List String) :
    c.pushAll (first ++ second) = (c.pushAll first).pushAll second := by
  simp [pushAll]

/-- A capture goes over well-nested lines at any level, and stays there. -/
theorem through?_of_wellNested (h : WellNested lines) (c : Capture) :
    c.through? lines = some (c.pushAll lines) := by
  -- The lines of a construct are captured one level deeper, so that its `end` and its `else`
  -- do not belong to the block.
  have hdeeper : ∀ (c : Capture) (lines : List String),
      c.deeper.pushAll lines = (c.pushAll lines).deeper := fun _ _ => rfl
  induction h generalizing c with
  | nil => rfl
  | append _ _ ih₁ ih₂ => rw [through?_append (ih₁ c), ih₂, pushAll_append]
  | statement h => exact through?_cons (step_of_begins h)
  | construct hopener _ hclose ih =>
    rw [through?_cons (step_of_opener hopener), through?_append (ih _), hdeeper,
      through?_cons (step_deeper_of_isEnd hclose), pushAll_cons, pushAll_append]
    rfl
  | branches hopener _ hmarker _ hclose ih₁ ih₂ =>
    rw [through?_cons (step_of_opener (hopener.imp .awaits)), through?_append (ih₁ _), hdeeper,
      through?_cons (step_deeper_of_isElse hmarker), through?_append (ih₂ _), hdeeper,
      through?_cons (step_deeper_of_isEnd hclose), pushAll_cons, pushAll_append, pushAll_cons,
      pushAll_append]
    rfl
  | alternative hopener _ hstatement hne hline ih =>
    rw [through?_cons (step_of_opener (hopener.imp .awaits)), through?_append (ih _), hdeeper,
      through?_cons (step_deeper_of_isElseThen hline hstatement hne), pushAll_cons, pushAll_append]
    rfl

section

variable {B B₁ B₂ : List String} {close marker : String}

theorem finish_pushAll (elseAllowed : Bool) (lines : List String) :
    ((start elseAllowed).pushAll lines).finish = ⟨lines.map Text.trim, none, elseAllowed⟩ := by
  simp [finish, pushAll, start]

/-- The first `end` after well-nested lines is that of the block. -/
theorem capture_of_isEnd (hB : WellNested B) (hclose : Statement.IsEnd close)
    (elseAllowed : Bool) (rest : List String) :
    Block.capture elseAllowed (B ++ close :: rest) =
      { block := .ok ⟨B.map Text.trim, none, elseAllowed⟩, rest, read := B.length + 1 } := by
  rw [capture_of_step (through?_of_wellNested hB _), step_of_isEnd hclose, ← finish_pushAll]
  rfl

/-- The first `else` after well-nested lines parts the branches of the block. -/
theorem capture_of_isElse (hB₁ : WellNested B₁) (hmarker : Statement.IsElse marker)
    (hB₂ : WellNested B₂) (hclose : Statement.IsEnd close) (rest : List String) :
    Block.capture true (B₁ ++ marker :: B₂ ++ close :: rest) =
      { block := .ok
          ⟨B₁.map Text.trim ++ Text.trim marker :: B₂.map Text.trim, some B₁.length, true⟩
        rest
        read := B₁.length + B₂.length + 2 } := by
  have hfirst := through?_of_wellNested hB₁ (start true)
  have hlevel : ((start true).pushAll B₁).level = 0 := rfl
  obtain ⟨keyword, hstep⟩ := step_of_isElse (c := (start true).pushAll B₁) hmarker
  rw [if_pos hlevel, splitAt_of_alone rfl rfl rfl, length_of_through? hfirst] at hstep
  have hthrough : (start true).through? (B₁ ++ marker :: B₂) =
      some (pushAll { ((start true).pushAll B₁).push (Text.trim marker) with
        elseAt := some B₁.length } B₂) := by
    rw [through?_append hfirst, through?_cons hstep, through?_of_wellNested hB₂]
  have hlength : (B₁ ++ marker :: B₂).length + 1 = B₁.length + B₂.length + 2 := by
    rw [List.length_append, List.length_cons]
    omega
  rw [capture_of_step hthrough, step_of_isEnd hclose, hlength]
  simp [finish, pushAll, push, start]

/-- A statement behind it is all of the second branch, and ends the block. -/
theorem capture_of_isElseThen (hB₁ : WellNested B₁) (hline : Statement.IsElseThen statement line)
    (hstatement : Statement.Is (Group.Begins 0) statement) (hne : Text.trim statement ≠ "")
    (rest : List String) :
    Block.capture true (B₁ ++ line :: rest) =
      { block := .ok ⟨B₁.map Text.trim ++ ["else", Text.trim statement], some B₁.length, true⟩
        rest
        read := B₁.length + 1 } := by
  have hfirst := through?_of_wellNested hB₁ (start true)
  have hlevel : ((start true).pushAll B₁).level = 0 := rfl
  obtain ⟨keyword, g, hlength, hafter, hstep⟩ :=
    step_of_isElseThen (c := (start true).pushAll B₁) hline hstatement hne
  rw [if_pos hlevel, splitAt_of_more rfl rfl hlength, reverse_of_through? hfirst,
    length_of_through? hfirst, hafter] at hstep
  rw [capture_of_step hfirst, hstep]

end

end Capture

/-- A capture finds the end of a block, and what parts its branches, whatever constructs are
    in it. -/
theorem capture_wellNested {B B₁ B₂ : List String} {close marker line S : String}
    (hB : WellNested B) (hB₁ : WellNested B₁) (hB₂ : WellNested B₂)
    (hclose : Statement.IsEnd close) (hmarker : Statement.IsElse marker)
    (hS : Statement.Is (Group.Begins 0) S) (hne : Text.trim S ≠ "")
    (hline : Statement.IsElseThen S line) (rest : List String) :
    (∀ elseAllowed, Block.capture elseAllowed (B ++ close :: rest) =
      { block := .ok ⟨B.map Text.trim, none, elseAllowed⟩, rest, read := B.length + 1 }) ∧
    (∃ b, Block.capture true (B₁ ++ marker :: B₂ ++ close :: rest) =
        { block := .ok b, rest, read := B₁.length + B₂.length + 2 } ∧
      b = ⟨B₁.map Text.trim ++ Text.trim marker :: B₂.map Text.trim, some B₁.length, true⟩ ∧
      b.branch true = .ok (B₁.map Text.trim) ∧ b.branch false = .ok (B₂.map Text.trim)) ∧
    ∃ b, Block.capture true (B₁ ++ line :: rest) =
        { block := .ok b, rest, read := B₁.length + 1 } ∧
      b = ⟨B₁.map Text.trim ++ ["else", Text.trim S], some B₁.length, true⟩ ∧
      b.branch true = .ok (B₁.map Text.trim) ∧ b.branch false = .ok [Text.trim S] := by
  have hbranch := fun (second : List String) (marker : String) =>
    Block.branch_of_parted (B₁.map Text.trim) second marker
  simp only [List.length_map] at hbranch
  exact ⟨fun elseAllowed => Capture.capture_of_isEnd hB hclose elseAllowed rest,
    ⟨_, Capture.capture_of_isElse hB₁ hmarker hB₂ hclose rest, rfl, hbranch _ _⟩,
    ⟨_, Capture.capture_of_isElseThen hB₁ hline hS hne rest, rfl, hbranch _ _⟩⟩

/-- A block within a block, whose `if` is closed by a statement, and a block that has a second
    branch itself. -/
theorem capture_wellNested_begin :
    let B := ["let b = begin", "  if x,", "  y", "  else z", "end"]
    let B₁ := ["if x, y else", "z", "end"]
    let rest := ["never read"]
    Block.capture true (B ++ " end " :: rest) =
        { block := .ok ⟨["let b = begin", "if x,", "y", "else z", "end"], none, true⟩
          rest
          read := 6 } ∧
      Block.capture true (B₁ ++ "otherwise" :: B ++ " end " :: rest) =
        { block := .ok
            ⟨["if x, y else", "z", "end", "otherwise", "let b = begin", "if x,", "y", "else z",
              "end"], some 3, true⟩
          rest
          read := 10 } ∧
      Block.capture true (B₁ ++ "else(z)" :: rest) =
        { block := .ok ⟨["if x, y else", "z", "end", "else", "(z)"], some 3, true⟩
          rest
          read := 4 } := by
  intro B B₁ rest
  have hend : Statement.IsEnd "end" := by cbv
  have hz : Statement.Is (Group.Begins 0) "z" := ⟨[.symbol "z"], by cbv, by decide⟩
  have hB : WellNested B := by
    have hbegin : Statement.Is Group.Opener "let b = begin" :=
      ⟨[.symbol "let", .symbol "b", .symbol "=", .symbol "begin"], by cbv, .opening (by decide)⟩
    have hif : Statement.Is (Group.Awaits .conditional) "  if x," := by
      refine ⟨[.symbol "if", .symbol "x", .symbol ","], by cbv,
        ⟨by decide, rfl, rfl, by decide, ?_, by decide⟩⟩
      intro k
      cases k <;> decide
    have hy : WellNested ["  y"] := .statement ⟨[.symbol "y"], by cbv, by decide⟩
    have hgap : ∀ c ∈ " z".toList.head?, Lexeme.isWord c = false := by
      rintro _ ⟨⟩
      rfl
    have helse : Statement.IsElseThen "z" "  else z" :=
      .mk (.inl rfl) (show Text.trim "  else z" = "else" ++ " z" by cbv) hgap (by cbv)
    exact .construct hbegin (.alternative hif hy hz (by cbv) helse) hend
  have hB₁ : WellNested B₁ := by
    have helse : Statement.Is Group.Opener "if x, y else" :=
      ⟨[.symbol "if", .symbol "x", .symbol ",", .symbol "y", .symbol "else"], by cbv,
        .alternative (by decide) rfl (by decide) (by decide)⟩
    exact .construct helse (.statement hz) hend
  have hbracket : ∀ c ∈ "(z)".toList.head?, Lexeme.isWord c = false := by
    rintro _ ⟨⟩
    rfl
  have hline : Statement.IsElseThen "(z)" "else(z)" :=
    .mk (.inl rfl) (show Text.trim "else(z)" = "else" ++ "(z)" by cbv) hbracket rfl
  have hgroup : Statement.Is (Group.Begins 0) "(z)" :=
    ⟨[.group [.symbol "z"]], by cbv, by decide⟩
  have hclose : Statement.IsEnd " end " := by cbv
  have hmarker : Statement.IsElse "otherwise" := .inr (by cbv)
  obtain ⟨hwhole, ⟨b₂, hsecond, rfl, -⟩, b₁, hfirst, rfl, -⟩ :=
    capture_wellNested hB hB₁ hB hclose hmarker hgroup (by cbv) hline rest
  exact ⟨(hwhole true).trans (by cbv), hsecond.trans (by cbv), hfirst.trans (by cbv)⟩

end Linewise
