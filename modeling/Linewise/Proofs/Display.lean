import Linewise.Interpreter
import Linewise.Proofs.Literal
import Linewise.Proofs.Pass
import Linewise.Proofs.Spelling

/-!
# Values and their texts

Most values that can be written as literals are printed that way, and a list of them is
printed with commas in between. The text of such a value evaluates to the value again, on
every machine, which stays as it is (`evaluateLine_text`). Exempt is the smallest integer,
whose magnitude has no place in the integers, and so are strings that hold a quote.

A value goes through the line in three forms, each of them in between commas:

* `Value.Written`: its lexemes, where a negative integer comes after a `-`, and the terms
  of a fraction stand around a `/`;
* `Value.Signed`: its terms once `-` has been applied;
* `Value.Single`: its term once `/` has been applied.
-/

namespace Linewise

/-! ## Integers -/

namespace Integer

/-- Every integer but the smallest has a magnitude. -/
theorem exists_magnitude {n : Int64} (hn : n ≠ Int64.minValue) :
    ∃ k : Int64, k.toInt = n.toInt.natAbs := by
  have hne : n.toInt ≠ Int64.minValue.toInt := fun h => hn (Int64.toInt_inj.1 h)
  have hmin : Int64.minValue.toInt = -2 ^ 63 := rfl
  obtain ⟨hlow, hhigh⟩ := exists_toInt_eq_iff.1 ⟨n, rfl⟩
  exact exists_toInt_eq_iff.2 (by omega)

theorem text_of_neg {n : Int64} (h : n.toInt < 0) : text n = "-" ++ n.toInt.natAbs.repr := by
  rw [text, Int.toString_eq_repr, Int.repr_eq_if, if_neg (Int.not_le.2 h)]
  congr 2
  omega

end Integer

/-- What has no common divisor is not reduced any further. -/
theorem Fraction.reduce_of_isLowest {f : Fraction} (h : f.IsLowest) :
    reduce f.num.toInt f.den.toInt = .ok f := by
  have hden := f.den_pos
  have hgcd : f.num.toInt.natAbs.gcd f.den.toInt.natAbs = 1 := h
  refine reduce_eq_ok_iff.2 ⟨Int.ne_of_gt hden, ?_, ?_⟩
  · rw [lowestTerms, hgcd, Nat.div_one]
    dsimp only
    split <;> omega
  · rw [lowestTerms, hgcd, Nat.div_one]
    omega

/-! ## Values in a row -/

/-- Digits may stand in a name. -/
theorem Lexeme.isWord_of_isDigit {c : Char} (h : c.isDigit = true) : isWord c = true := by
  obtain ⟨-, hhigh⟩ := Char.isDigit_iff_toNat.1 h
  have hnine : '9'.toNat = 57 := rfl
  refine Symbol.isWord_of_continuesName ?_
  rw [Symbol.continuesName, Text.isNumeral_eq_isDigit (by omega), h, Bool.or_true, Bool.true_or]

/-- The term that a lexeme is. -/
def Lexeme.term : Lexeme → Term Empty
  | symbol s => .symbol s
  | text s => .value (.string s)

/-- The symbol is a word that stands for the value in every scope. -/
structure Symbol.Denotes (s : String) (v : Value) : Prop where
  word : Lexeme.IsWord s
  find : ∀ scope : Scope, scope.find? s = some v
  operator : Operator.ofSymbol? s = none
  keyword : Keyword.ofSymbol? s = none

theorem Symbol.denotes_repr {n : Nat} {k : Int64} (h : k.toInt = n) :
    Denotes n.repr (.integer k) := by
  obtain ⟨hne, hdigits⟩ := isDigits_repr n
  -- No symbol with a meaning of its own has a digit in it.
  have hother : ∀ s : String, s.toList.any Char.isDigit = false → n.repr ≠ s := by
    rintro s hs rfl
    obtain ⟨c, hc⟩ := List.exists_mem_of_ne_nil _ hne
    rw [List.any_eq_false] at hs
    exact hs c hc (hdigits c hc)
  constructor
  · exact ⟨hne, fun c hc => Lexeme.isWord_of_isDigit (hdigits c hc)⟩
  · intro scope
    have hconstant : Scope.constant? n.repr = none := by
      unfold Scope.constant?
      split
      · exact absurd ‹_› (hother "" (by decide))
      · exact absurd ‹_› (hother "nil" (by decide))
      · exact absurd ‹_› (hother "yes" (by decide))
      · exact absurd ‹_› (hother "no" (by decide))
      · exact absurd ‹_› (hother "break" (by decide))
      · rfl
    rw [Scope.find?, hconstant, literal?_repr h]
    rfl
  · refine Option.eq_none_iff_forall_ne_some.2 fun op hop => ?_
    refine hother op.symbol ?_ (Operator.symbol_of_ofSymbol? hop).symm
    rcases op with _ | op | op | op | _ | op <;> (try cases op) <;> decide
  · refine Option.eq_none_iff_forall_ne_some.2 fun k hk => ?_
    refine hother k.symbol ?_ (Keyword.ofSymbol?_eq_some_iff.1 hk).symm
    cases k <;> decide

theorem Symbol.denotes_yes : Denotes "yes" (.boolean true) :=
  ⟨by decide, fun _ => rfl, by decide, by decide⟩

theorem Symbol.denotes_no : Denotes "no" (.boolean false) :=
  ⟨by decide, fun _ => rfl, by decide, by decide⟩

theorem Symbol.denotes_nil : Denotes "nil" .nil :=
  ⟨by decide, fun _ => rfl, by decide, by decide⟩

theorem Symbol.denotes_break : Denotes "break" .loopExit :=
  ⟨by decide, fun _ => rfl, by decide, by decide⟩

namespace Value

/-- The values that are not lists and are written as literals. -/
inductive Scalar : Value → Prop
  | integer {n : Int64} : n ≠ Int64.minValue → Scalar (integer n)
  | fraction {f : Fraction} : f.IsLowest → f.num ≠ Int64.minValue → Scalar (fraction f)
  | boolean (b : Bool) : Scalar (boolean b)
  | nil : Scalar nil
  | loopExit : Scalar loopExit
  | string {s : String} : '"' ∉ s.toList → Scalar (string s)

/-- A value is written as these lexemes. -/
inductive Written : Value → List Lexeme → Prop
  | symbol {s : String} {v : Value} : Symbol.Denotes s v → Written v [.symbol s]
  | text (s : String) : Written (string s) [.text s]
  | negative {s : String} {k n : Int64} :
      Symbol.Denotes s (integer k) → Integer.negate k = .ok n →
      Written (integer n) [.symbol "-", .symbol s]
  | quotient {s : String} {a b : Int64} {f : Fraction} {ls : List Lexeme} :
      Written (integer a) ls → Symbol.Denotes s (integer b) →
      Fraction.reduce a.toInt b.toInt = .ok f →
      Written (fraction f) (ls ++ [.symbol "/", .symbol s])

/-- The term is no operator, and stands for the value in every scope. -/
structure Single (v : Value) (t : Term Empty) : Prop where
  resolve : ∀ scope : Scope, scope.resolve t = .ok v
  operator : t.operator? = none

/-- A value has these terms once `-` has been applied. -/
inductive Signed : Value → Row → Prop
  | single {v : Value} {t : Term Empty} : Single v t → Signed v [t]
  | quotient {t t' : Term Empty} {a b : Int64} {f : Fraction} :
      Single (integer a) t → Single (integer b) t' →
      Fraction.reduce a.toInt b.toInt = .ok f → Signed (fraction f) [t, .symbol "/", t']

/-- Values with a comma before each of them. -/
inductive Enumerated {α : Type} (comma : α) (R : Value → List α → Prop) :
    List Value → List α → Prop
  | nil : Enumerated comma R [] []
  | cons {v : Value} {vs : List Value} {row rest : List α} :
      R v row → Enumerated comma R vs rest → Enumerated comma R (v :: vs) (comma :: (row ++ rest))

end Value

/-! ## Lines -/

namespace Value

open Lexeme

theorem written_integer {n : Int64} (hn : n ≠ Int64.minValue) :
    ∃ ls, Written (integer n) ls ∧ Spells (Integer.text n).toList ls := by
  obtain ⟨k, hk⟩ := Integer.exists_magnitude hn
  have hdenotes : Symbol.Denotes n.toInt.natAbs.repr (integer k) := Symbol.denotes_repr hk
  rcases Int.lt_or_le n.toInt 0 with hneg | hnonneg
  · refine ⟨_, .negative hdenotes ?_, ?_⟩
    · have hn : n.toInt = -k.toInt := by omega
      rw [Integer.negate, ← hn, Integer.narrow?_toInt]
    · rw [Integer.text_of_neg hneg, String.toList_append]
      exact hdenotes.word.spells.cons_solitary (by decide)
  · have hkn : k = n := Int64.toInt_inj.1 (by omega)
    rw [Integer.text_of_nonneg hnonneg]
    exact ⟨_, .symbol (hkn ▸ hdenotes), hdenotes.word.spells⟩

/-- A scalar is written as its text is spelled. -/
theorem Scalar.written {v : Value} (hv : Scalar v) (m : Memory) :
    ∃ ls, Written v ls ∧ Spells (m.text v).toList ls := by
  cases hv with
  | integer hn => exact written_integer hn
  | @fraction f hlowest hnum =>
    obtain ⟨ls, hwritten, hspells⟩ := written_integer hnum
    have hpos := f.den_pos
    have hden : Symbol.Denotes f.den.toInt.natAbs.repr (Value.integer f.den) :=
      Symbol.denotes_repr (by omega)
    refine ⟨_, .quotient hwritten hden (Fraction.reduce_of_isLowest hlowest), ?_⟩
    have htext : (m.text (Value.fraction f)).toList =
        (Integer.text f.num).toList ++ '/' :: f.den.toInt.natAbs.repr.toList := by
      show (Integer.text f.num ++ "/" ++ Integer.text f.den).toList = _
      rw [Integer.text_of_nonneg (Int.le_of_lt hpos), String.toList_append, String.toList_append,
        List.append_assoc]
      rfl
    rw [htext]
    exact hspells.append (hden.word.spells.cons_solitary (by decide)) ⟨'/', rfl, by decide⟩
  | boolean b =>
    cases b with
    | true => exact ⟨_, .symbol Symbol.denotes_yes, Symbol.denotes_yes.word.spells⟩
    | false => exact ⟨_, .symbol Symbol.denotes_no, Symbol.denotes_no.word.spells⟩
  | nil => exact ⟨_, .symbol Symbol.denotes_nil, Symbol.denotes_nil.word.spells⟩
  | loopExit => exact ⟨_, .symbol Symbol.denotes_break, Symbol.denotes_break.word.spells⟩
  | @string s hs =>
    refine ⟨_, .text s, ?_⟩
    have htext : (m.text (Value.string s)).toList = '"' :: (s.toList ++ ['"']) := by
      show ("\"" ++ s ++ "\"").toList = _
      rw [String.toList_append, String.toList_append]
      rfl
    rw [htext]
    conv => rhs; rw [← String.ofList_toList (s := s)]
    exact spells_text hs

/-- The text of a list spells its elements with commas in between. -/
theorem written_list (m : Memory) {v : Value} {vs : List Value} (hv : Scalar v)
    (hvs : ∀ w ∈ vs, Scalar w) :
    ∃ ls rest, Written v ls ∧ Enumerated (.symbol ",") Written vs rest ∧
      Spells (m.text (.list (v :: vs))).toList (ls ++ rest) := by
  obtain ⟨ls, hwritten, hspells⟩ := hv.written m
  induction vs generalizing v ls with
  | nil =>
    refine ⟨ls, [], hwritten, .nil, ?_⟩
    have htext : m.text (.list [v]) = m.text v := by
      show ", ".intercalate [m.text v] = m.text v
      rw [String.intercalate_singleton]
    rw [htext, List.append_nil]
    exact hspells
  | cons w vs ih =>
    rw [List.forall_mem_cons] at hvs
    obtain ⟨ls', hwritten', hspells'⟩ := hvs.1.written m
    obtain ⟨lsw, rest, hw, henum, hrest⟩ := ih hvs.1 hvs.2 ls' hwritten' hspells'
    refine ⟨ls, _, hwritten, .cons hw henum, ?_⟩
    have htext : (m.text (.list (v :: w :: vs))).toList =
        (m.text v).toList ++ ',' :: ' ' :: (m.text (.list (w :: vs))).toList := by
      have hcons : m.text (.list (v :: w :: vs)) = m.text v ++ ", " ++ m.text (.list (w :: vs)) :=
        String.intercalate_cons_cons
      rw [hcons, String.toList_append, String.toList_append, List.append_assoc]
      rfl
    rw [htext]
    exact hspells.append ((hrest.cons_blank (by decide)).cons_solitary (by decide))
      ⟨',', rfl, by decide⟩

/-! ## Lexemes -/

theorem Enumerated.forall {α : Type} {comma : α} {R : Value → List α → Prop} {P : α → Prop}
    {vs : List Value} {row : List α} (h : Enumerated comma R vs row) (hcomma : P comma)
    (hR : ∀ {v row}, R v row → ∀ x ∈ row, P x) : ∀ x ∈ row, P x := by
  induction h with
  | nil => exact fun _ hx => absurd hx List.not_mem_nil
  | cons hrow _ ih => exact List.forall_mem_cons.2 ⟨hcomma, List.forall_mem_append.2 ⟨hR hrow, ih⟩⟩

variable {v : Value} {vs : List Value} {ls rest : List Lexeme}

theorem Written.isPlain (h : Written v ls) : ∀ l ∈ ls, l.IsPlain := by
  induction h with
  | symbol hs => exact List.forall_mem_singleton.2 hs.word.isPlain
  | text s => exact List.forall_mem_singleton.2 nofun
  | negative hs _ =>
    exact List.forall_mem_cons.2 ⟨by decide, List.forall_mem_singleton.2 hs.word.isPlain⟩
  | quotient _ hs _ ih =>
    refine List.forall_mem_append.2 ⟨ih, ?_⟩
    exact List.forall_mem_cons.2 ⟨by decide, List.forall_mem_singleton.2 hs.word.isPlain⟩

/-- What is written is an expression. -/
theorem Written.keyword? (h : Written v ls) (g : Group) :
    Group.keyword? (ls.map item ++ g) = none := by
  induction h generalizing g with
  | symbol hs => exact hs.keyword
  | text s => rfl
  | negative _ _ => rfl
  | quotient _ _ _ ih =>
    rw [List.map_append, List.append_assoc]
    exact ih _

/-! ## Terms -/

section

variable {ev : Group → Run Value} {call : Callable → Value → Run Value} {done : Row} {g : Group}
  {m : Machine}

/-- A comma calls nothing. -/
theorem applied_text (s : String) (hdone : ∀ t ∈ done.head?, t = .symbol ",") :
    Statement.applied ev call done (.text s :: g) m =
      Statement.applied ev call (.value (.string s) :: done) g m := by
  cases done with
  | nil => rfl
  | cons t done =>
    obtain rfl := hdone t rfl
    rfl

theorem Written.applied (h : Written v ls) (hdone : ∀ t ∈ done.head?, t = .symbol ",") :
    Statement.applied ev call done (ls.map item ++ g) m =
      Statement.applied ev call ((ls.map Lexeme.term).reverse ++ done) g m := by
  induction h generalizing g with
  | symbol _ => exact Statement.applied_symbol _
  | text s => exact applied_text s hdone
  | negative _ _ => exact (Statement.applied_symbol _).trans (Statement.applied_symbol _)
  | quotient _ _ _ ih =>
    rw [List.map_append, List.append_assoc, ih, List.map_append, List.reverse_append]
    exact (Statement.applied_symbol _).trans (Statement.applied_symbol _)

theorem Enumerated.applied (h : Enumerated (.symbol ",") Written vs rest) :
    Statement.applied ev call done (rest.map item) m =
      .ok (done.reverse ++ rest.map Lexeme.term) m := by
  induction h generalizing done with
  | nil => exact congrArg (EStateM.Result.ok · m) (List.append_nil _).symm
  | @cons v vs ls rest hv _ ih =>
    have hcomma : ∀ t ∈ (.symbol "," :: done : Row).head?, t = .symbol "," := by
      rintro t ⟨⟩
      rfl
    rw [List.map_cons, item, Statement.applied_symbol, List.map_append, hv.applied hcomma, ih]
    simp [Lexeme.term]

end

end Value

namespace Value

variable {v : Value} {vs : List Value} {row rest : Row} {t : Term Empty} {s : Scope}

theorem Single.isSymbol (h : Single v t) (op : Operator) :
    t.isSymbol op.symbol = false := by
  refine Bool.eq_false_iff.2 fun ht => ?_
  have hop := h.operator
  cases t with
  | symbol s' =>
    rw [Term.isSymbol, beq_iff_eq] at ht
    rw [Term.operator?, ht, Operator.ofSymbol?_symbol] at hop
    cases hop
  | value w => cases ht
  | group g => cases ht

theorem single_of_denotes {s : String} (h : Symbol.Denotes s v) : Single v (.symbol s) where
  resolve scope := by rw [Scope.resolve, Scope.lookup, h.find scope]
  operator := h.operator

theorem single_value (v : Value) : Single v (.value v) :=
  ⟨fun _ => rfl, rfl⟩

theorem Signed.of_integer {a : Int64} (h : Signed (integer a) row) :
    ∃ t, row = [t] ∧ Single (integer a) t := by
  generalize hv : integer a = v at h
  cases h with
  | single ht => exact ⟨_, rfl, ht⟩
  | quotient _ _ _ => cases hv

/-! ### Signs -/

/-- A `-` at the start of a value has no left operand. -/
theorem Written.negationsAfter {ls : List Lexeme} (h : Written v ls) {rest' : Row}
    (hrest : ∀ b, s.negationsAfter b rest = .ok rest') :
    ∃ row, Signed v row ∧ s.negationsAfter false (ls.map Lexeme.term ++ rest) =
      .ok (row ++ rest') := by
  have hkeep : ∀ {t : Term Empty} {rest rest' : Row} (b : Bool), t.isSymbol "-" = false →
      (∀ b, s.negationsAfter b rest = .ok rest') →
      s.negationsAfter b (t :: rest) = .ok (t :: rest') := fun {t rest rest'} b ht hrest => by
    rw [Scope.negationsAfter_cons ht, hrest]
    rfl
  induction h generalizing rest rest' with
  | symbol hs =>
    have hsingle := single_of_denotes hs
    exact ⟨_, .single hsingle, hkeep _ (hsingle.isSymbol (.arithmetic .subtract)) hrest⟩
  | text s => exact ⟨_, .single (single_value _), hkeep _ rfl hrest⟩
  | @negative s' k n hs hnegate =>
    -- The sign is applied to the magnitude, which is there already.
    have hsingle := single_of_denotes hs
    have hmagnitude : s.negationsAfter false (.symbol s' :: rest) = .ok (.symbol s' :: rest') :=
      hkeep _ (hsingle.isSymbol (.arithmetic .subtract)) hrest
    have hvalue : Operation.negate s.memory (integer k) = .ok (integer n) := by
      show Value.number <$> Number.integer <$> Integer.negate k = _
      rw [hnegate]
      rfl
    exact ⟨_, .single (single_value _),
      Scope.negationsAfter_minus hmagnitude (hsingle.resolve s) hvalue⟩
  | @quotient s' a b f ls _ hs hreduce ih =>
    have hsingle := single_of_denotes hs
    have hden : ∀ b, s.negationsAfter b (.symbol s' :: rest) = .ok (.symbol s' :: rest') :=
      fun b => hkeep b (hsingle.isSymbol (.arithmetic .subtract)) hrest
    obtain ⟨row, hrow, hnum⟩ := ih fun b => hkeep (t := .symbol "/") b rfl hden
    obtain ⟨t, rfl, ht⟩ := hrow.of_integer
    refine ⟨_, .quotient ht hsingle hreduce, ?_⟩
    rw [List.map_append, List.append_assoc]
    exact hnum

theorem Enumerated.negationsAfter {ls : List Lexeme}
    (h : Enumerated (.symbol ",") Written vs ls) :
    ∃ row, Enumerated (.symbol ",") Signed vs row ∧
      ∀ b, s.negationsAfter b (ls.map Lexeme.term) = .ok row := by
  induction h with
  | nil => exact ⟨[], .nil, fun _ => rfl⟩
  | @cons v vs ls rest hv _ ih =>
    obtain ⟨rest', henum, hrest⟩ := ih
    obtain ⟨row, hrow, hsigned⟩ := hv.negationsAfter hrest
    refine ⟨_, .cons hrow henum, fun b => ?_⟩
    have hcomma : (Term.symbol "," : Term Empty).operator?.isNone = false := by decide
    rw [List.map_cons, List.map_append, Lexeme.term, Scope.negationsAfter_cons rfl, hcomma, hsigned]
    rfl

/-! ### Fractions -/

/-- Only `/` of the operators of its level is in a value, and is applied to its terms. -/
theorem Signed.levelFrom (h : Signed v row) :
    ∃ t₀ row₀ t, row = t₀ :: row₀ ∧ t₀.operator? = none ∧ Single v t ∧
      ∀ rest, s.levelFrom 1 t₀ (row₀ ++ rest) = s.levelFrom 1 t rest := by
  cases h with
  | single ht => exact ⟨_, [], _, rfl, ht.operator, ht, fun _ => rfl⟩
  | @quotient t t' a b f ht ht' hreduce =>
    refine ⟨t, _, .value (fraction f), rfl, ht.operator, single_value _, fun rest => ?_⟩
    have hdivide : Operation.apply s.memory (.arithmetic .divide) (integer a) (integer b) =
        .ok (fraction f) := by
      show Value.number <$> Number.fraction <$> Fraction.reduce a.toInt b.toInt = _
      rw [hreduce]
      rfl
    exact Scope.levelFrom_operator rfl (ht.resolve s) (ht'.resolve s) hdivide

/-- A value is a single term. -/
def Alone (v : Value) (row : Row) : Prop :=
  ∃ t, row = [t] ∧ Single v t

theorem Enumerated.levelFrom_one (h : Enumerated (.symbol ",") Signed vs row)
    (left : Term Empty) :
    ∃ row', Enumerated (.symbol ",") Alone vs row' ∧ s.levelFrom 1 left row = .ok (left :: row') := by
  induction h generalizing left with
  | nil => exact ⟨[], .nil, rfl⟩
  | @cons v vs row rest hv _ ih =>
    obtain ⟨t₀, row₀, t, rfl, ht₀, ht, hlevel⟩ := hv.levelFrom (s := s)
    obtain ⟨rest', henum, hrest⟩ := ih t
    refine ⟨_, .cons ⟨t, rfl, ht⟩ henum, ?_⟩
    rw [Scope.levelFrom_cons rfl, List.cons_append,
      Scope.levelFrom_cons (Scope.operatorOf?_of_operator? ht₀), hlevel, hrest]
    rfl

/-! ### Commas -/

theorem Scalar.flatten (hv : Scalar v) (m : Memory) : m.flatten v = [v] := by
  cases hv <;> rfl

theorem Scalar.arguments (hv : Scalar v) (m : Memory) : m.arguments v = [v] := by
  cases hv <;> rfl

theorem Enumerated.levelFrom_five (h : Enumerated (.symbol ",") Alone vs row)
    (hvs : ∀ w ∈ vs, Scalar w) (ws : List Value) :
    s.levelFrom 5 (.value (.list ws)) row = .ok [.value (.list (ws ++ vs))] := by
  induction h generalizing ws with
  | nil => rw [List.append_nil, Scope.levelFrom]
  | @cons v vs row rest hv _ ih =>
    rw [List.forall_mem_cons] at hvs
    obtain ⟨t, rfl, ht⟩ := hv
    have hcomma : Operation.apply s.memory .enumerate (.list ws) v = .ok (.list (ws ++ [v])) := by
      show Except.ok (Value.list (ws ++ s.memory.flatten v)) = _
      rw [hvs.1.flatten]
    rw [List.singleton_append, Scope.levelFrom_operator rfl rfl (ht.resolve s) hcomma, ih hvs.2,
      List.append_assoc, List.singleton_append]

/-- A scalar stays alone, and several of them make a list. -/
theorem Enumerated.level_five (h : Enumerated (.symbol ",") Alone vs row)
    (hvs : ∀ w ∈ vs, Scalar w) (hv : Scalar v) (ht : Single v t) :
    ∃ t', s.level 5 (t :: row) = .ok [t'] ∧
      Single (if vs.isEmpty then v else .list (v :: vs)) t' := by
  have hlevel : s.level 5 (t :: row) = s.levelFrom 5 t row := by
    rw [Scope.level, Scope.operatorOf?_of_operator? ht.operator]
  rw [hlevel]
  cases h with
  | nil => exact ⟨t, rfl, ht⟩
  | @cons w vs row rest hw henum =>
    rw [List.forall_mem_cons] at hvs
    obtain ⟨t', rfl, ht'⟩ := hw
    have hcomma : Operation.apply s.memory .enumerate v w = .ok (.list [v, w]) := by
      show Except.ok (Value.list (s.memory.arguments v ++ s.memory.flatten w)) = _
      rw [hv.arguments, hvs.1.flatten]
      rfl
    refine ⟨_, ?_, single_value (.list (v :: w :: vs))⟩
    rw [List.singleton_append,
      Scope.levelFrom_operator rfl (ht.resolve s) (ht'.resolve s) hcomma,
      henum.levelFrom_five hvs.2]
    rfl

/-! ### All passes -/

theorem operators_eq {row₀ row₁ row₂ : Row} (hzero : s.level 0 row₀ = .ok row₀)
    (hone : s.level 1 row₀ = .ok row₁) (hmiddle : ∀ l ∈ [2, 3, 4], s.level l row₁ = .ok row₁)
    (hfive : s.level 5 row₁ = .ok row₂) (hsix : s.level 6 row₂ = .ok row₂) :
    s.operators row₀ = .ok row₂ := by
  have hlevels : List.range Operator.levels = [0, 1, 2, 3, 4, 5, 6] := by decide
  simp only [List.forall_mem_cons] at hmiddle
  rw [Scope.operators, hlevels]
  simp only [List.foldlM, hzero, hone, hmiddle.1, hmiddle.2.1, hmiddle.2.2.1, hfive, hsix,
    Bind.bind, Except.bind]
  rfl

/-- The terms of values are operands, but for `/`. -/
theorem operatorOf?_of_signed {l : Nat} (h : Signed v row) (ht : t ∈ row) (hl : l ≠ 1) :
    Scope.operatorOf? l t = none := by
  have hslash : Scope.operatorOf? l (.symbol "/") = none := by
    show Option.filter _ (some (Operator.arithmetic .divide)) = none
    simp [Operator.level, hl.symm]
  cases h with
  | single hsingle =>
    obtain rfl := List.mem_singleton.1 ht
    exact Scope.operatorOf?_of_operator? hsingle.operator
  | quotient hnum hden _ =>
    simp only [List.mem_cons, List.not_mem_nil, or_false] at ht
    rcases ht with rfl | rfl | rfl
    · exact Scope.operatorOf?_of_operator? hnum.operator
    · exact hslash
    · exact Scope.operatorOf?_of_operator? hden.operator

/-- Of the levels, only those of `/` and of the comma do anything. -/
theorem Signed.operators (h : Signed v row) (henum : Enumerated (.symbol ",") Signed vs rest)
    (hv : Scalar v) (hvs : ∀ w ∈ vs, Scalar w) :
    ∃ t, s.operators (row ++ rest) = .ok [t] ∧
      Single (if vs.isEmpty then v else .list (v :: vs)) t := by
  obtain ⟨t₀, row₀, t, rfl, ht₀, ht, hlevel⟩ := h.levelFrom (s := s)
  obtain ⟨rest', henum', hrest⟩ := henum.levelFrom_one (s := s) t
  obtain ⟨t', hlist, ht'⟩ := henum'.level_five (s := s) hvs hv ht
  have hone : s.level 1 (t₀ :: row₀ ++ rest) = .ok (t :: rest') := by
    rw [List.cons_append, Scope.level, Scope.operatorOf?_of_operator? ht₀]
    exact (hlevel rest).trans hrest
  refine ⟨t', operators_eq (Scope.level_eq_self ?_) hone (fun l hl => Scope.level_eq_self ?_) hlist
    (Scope.level_eq_self ?_), ht'⟩
  · refine List.forall_mem_append.2 ⟨fun t ht => ?_, henum.forall rfl fun hrow t ht => ?_⟩
    · exact operatorOf?_of_signed h ht (by decide)
    · exact operatorOf?_of_signed hrow ht (by decide)
  · have hcomma : Scope.operatorOf? l (.symbol ",") = none := by
      revert l
      decide
    refine List.forall_mem_cons.2 ⟨Scope.operatorOf?_of_operator? ht.operator, ?_⟩
    refine henum'.forall hcomma ?_
    rintro v _ ⟨t, rfl, ht⟩
    exact List.forall_mem_singleton.2 (Scope.operatorOf?_of_operator? ht.operator)
  · exact List.forall_mem_singleton.2 (Scope.operatorOf?_of_operator? ht'.operator)

/-- There are no bars among plain lexemes. -/
theorem moduli_of_isPlain {ls : List Lexeme} (h : ∀ l ∈ ls, l.IsPlain) :
    s.moduli (ls.map Lexeme.term) = .ok (ls.map Lexeme.term) := by
  refine Scope.moduli_eq_self (List.forall_mem_map.2 fun l hl => ?_)
  cases l with
  | text s => rfl
  | symbol s => exact beq_false_of_ne fun heq => h _ hl "|" (by decide) (congrArg Lexeme.symbol heq)

/-- A row that comes down to one term has the value of that term. -/
theorem value_eq_resolve {row₀ row₁ row₂ : Row} (hmoduli : s.moduli row₀ = .ok row₁)
    (hnegations : s.negations row₁ = .ok row₂) (hoperators : s.operators row₂ = .ok [t]) :
    s.value row₀ = s.resolve t := by
  rw [Scope.value, hmoduli]
  simp only [bind, Except.bind, hnegations, hoperators]

/-- The row of a scalar, or of several with commas in between, comes to that scalar or
    to the list. -/
theorem Written.value {ls rest : List Lexeme} (h : Written v ls)
    (henum : Enumerated (.symbol ",") Written vs rest) (hv : Scalar v)
    (hvs : ∀ w ∈ vs, Scalar w) :
    s.value ((ls ++ rest).map Lexeme.term) =
      .ok (if vs.isEmpty then v else .list (v :: vs)) := by
  have hplain : ∀ l ∈ ls ++ rest, l.IsPlain :=
    List.forall_mem_append.2 ⟨h.isPlain, henum.forall (by decide) Written.isPlain⟩
  obtain ⟨rest', henum', hrest⟩ := henum.negationsAfter (s := s)
  obtain ⟨row, hrow, hnegations⟩ := h.negationsAfter hrest
  rw [← List.map_append] at hnegations
  obtain ⟨t, hoperators, ht⟩ := hrow.operators (s := s) henum' hv hvs
  rw [value_eq_resolve (moduli_of_isPlain hplain) hnegations hoperators]
  exact ht.resolve s

/-- The values whose text is an expression for them: scalars, and lists of at least
    two. -/
inductive Plain : Value → Prop
  | scalar {v : Value} : Scalar v → Plain v
  | list {vs : List Value} : 2 ≤ vs.length → (∀ v ∈ vs, Scalar v) → Plain (.list vs)

/-- A plain value is that of a row of scalars with commas in between, which its text
    spells. -/
theorem Plain.written (h : Plain v) (m : Memory) :
    ∃ w ws ls rest, Scalar w ∧ (∀ w ∈ ws, Scalar w) ∧ Written w ls ∧
      Enumerated (.symbol ",") Written ws rest ∧
      Lexeme.Spells (m.text v).toList (ls ++ rest) ∧
      v = if ws.isEmpty then w else .list (w :: ws) := by
  cases h with
  | scalar hv =>
    obtain ⟨ls, hwritten, hspells⟩ := hv.written m
    exact ⟨v, [], ls, [], hv, List.forall_mem_nil _, hwritten, .nil, (List.append_nil ls).symm ▸ hspells, rfl⟩
  | @list vs hlength hvs =>
    rcases vs with _ | ⟨w, _ | ⟨w', ws⟩⟩
    · cases hlength
    · exact absurd hlength (Nat.not_le.2 Nat.one_lt_two)
    · rw [List.forall_mem_cons] at hvs
      obtain ⟨ls, rest, hwritten, henum, hspells⟩ := written_list m hvs.1 hvs.2
      exact ⟨w, w' :: ws, ls, rest, hvs.1, hvs.2, hwritten, henum, hspells, rfl⟩

theorem Written.ne_nil {ls : List Lexeme} (h : Written v ls) : ls ≠ [] := by
  cases h <;> simp

end Value

/-- The text of a plain value evaluates to the value on every machine, and leaves the
    machine as it is. -/
theorem evaluateLine_text {v : Value} (h : v.Plain) (m : Machine) (fuel : Nat) :
    Call.evaluateLine (evaluate (fuel + 1)) (m.memory.text v) m = .ok v m := by
  obtain ⟨w, ws, ls, rest, hw, hws, hwritten, henum, hspells, hv⟩ := h.written m.memory
  have hplain : ∀ l ∈ ls ++ rest, l.IsPlain :=
    List.forall_mem_append.2 ⟨hwritten.isPlain, henum.forall (by decide) Value.Written.isPlain⟩
  have hline := Group.ofLine_of_spells hspells hplain
  have hkeyword : Group.keyword? ((ls ++ rest).map Lexeme.item) = none := by
    rw [List.map_append]
    exact hwritten.keyword? _
  -- The row has neither groups nor references, so that its terms are those of the line.
  have hrow : Statement.applied (evaluate fuel) (Call.apply (evaluate fuel)) []
      ((ls ++ rest).map Lexeme.item) m = .ok ((ls ++ rest).map Lexeme.term) m := by
    have hstart : ∀ t ∈ ([] : Row).head?, t = .symbol "," := nofun
    rw [List.map_append, hwritten.applied hstart, henum.applied, List.append_nil,
      List.reverse_reverse, List.map_append]
  have hreferences : ∀ t ∈ (ls ++ rest).map Lexeme.term, Reference.ofTerm? t = none := by
    refine List.forall_mem_map.2 fun l hl => ?_
    cases l with
    | text s => rfl
    | symbol s =>
      have hmake : s ≠ "@" := fun heq => hplain _ hl "@" (by decide) (congrArg Lexeme.symbol heq)
      have hfollow : s ≠ "~" := fun heq => hplain _ hl "~" (by decide) (congrArg Lexeme.symbol heq)
      rw [Lexeme.term, Reference.ofTerm?, Reference.ofSymbol?, if_neg hmake, if_neg hfollow]
  have hexpression : Statement.expression (evaluate fuel) (Call.apply (evaluate fuel))
      ((ls ++ rest).map Lexeme.item) m = .ok v m := by
    rw [Statement.expression, Run.bind_of_ok hrow,
      Run.bind_of_ok (Reference.reduce_eq_self hreferences m), Run.reading,
      hwritten.value henum hw hws, ← hv]
  cases hitems : (ls ++ rest).map Lexeme.item with
  | nil =>
    rw [List.map_eq_nil_iff, List.append_eq_nil_iff] at hitems
    exact absurd hitems.1 hwritten.ne_nil
  | cons item g =>
    rw [hitems] at hline hkeyword hexpression
    rw [← Group.ofLine_trim] at hline
    rw [Call.evaluateLine_of_ofLine _ hline, evaluate]
    simp only [Statement.statement, hkeyword]
    exact hexpression

/-- Signs, fractions and commas, also within a string. -/
theorem evaluateLine_text_list :
    let v := Value.list [.integer (-5), .fraction ⟨-3, 4, by decide⟩, .string "a, -1/2", .loopExit]
    let m := Machine.start (.script []) (fun _ => .error .notFound) (mkStdGen 0)
    v.Plain ∧ m.memory.text v = "-5, -3/4, \"a, -1/2\", break" ∧
      Call.evaluateLine (evaluate 1) (m.memory.text v) m = .ok v m := by
  intro v m
  have hscalars : ∀ w ∈ [Value.integer (-5), .fraction ⟨-3, 4, by decide⟩, .string "a, -1/2",
      .loopExit], w.Scalar := by
    simp only [List.forall_mem_cons]
    exact ⟨.integer (by decide), .fraction (by decide) (by decide), .string (by decide),
      .loopExit, List.forall_mem_nil _⟩
  have hplain : v.Plain := .list (by decide) hscalars
  exact ⟨hplain, by decide +kernel, evaluateLine_text hplain m 0⟩

end Linewise
