import Linewise.Proofs.Chain
import Linewise.Proofs.Precedence
import Linewise.Proofs.Reader
import Linewise.Proofs.Spelling
import Mathlib

/-!
# Names

A name is one symbol wherever it is written, and no keyword, operator, constant or number. As an
expression it stands for the function of that name, and else for the variable (`Scope.find?_name`),
and its text is a line that says so on every machine (`evaluateLine_name`).

After `let` a name is a target by its syntax alone, so that functions do not matter: a variable of
the frame on top is given the value. It is read back under its name unless a function has it
(`let_read_back`, `function_hides_variable`).
-/

namespace Linewise

/-! ## What a name is not -/

/-- No blank is a letter or a numeral. -/
theorem Text.not_letter_of_blank {c : Char} (h : isBlank c = true) :
    isLetter c = false ∧ isNumeral c = false := by
  have hblanks : ∀ n ∈ [0x9, 0xA, 0xB, 0xC, 0xD, 0x20, 0x85, 0xA0, 0x1680, 0x2000, 0x2001, 0x2002,
      0x2003, 0x2004, 0x2005, 0x2006, 0x2007, 0x2008, 0x2009, 0x200A, 0x2028, 0x2029, 0x202F,
      0x205F, 0x3000], isLetter (.ofNat n) = false ∧ isNumeral (.ofNat n) = false := by
    decide +kernel
  have hc : c.toNat ∈ [0x9, 0xA, 0xB, 0xC, 0xD, 0x20, 0x85, 0xA0, 0x1680, 0x2000, 0x2001, 0x2002,
      0x2003, 0x2004, 0x2005, 0x2006, 0x2007, 0x2008, 0x2009, 0x200A, 0x2028, 0x2029, 0x202F,
      0x205F, 0x3000] := by
    simp only [isBlank, Bool.or_eq_true, Bool.and_eq_true, decide_eq_true_eq, beq_iff_eq] at h
    simp only [List.mem_cons, List.not_mem_nil, or_false]
    omega
  have hmeaning := hblanks _ hc
  rwa [Char.ofNat_toNat] at hmeaning

namespace Symbol

/-- The characters of a name belong to words. -/
theorem isWord_of_continuesName {c : Char} (h : continuesName c = true) :
    Lexeme.isWord c = true := by
  have hquote : c ≠ '"' := by
    rintro rfl
    exact absurd h (by decide)
  have hsolitary : Lexeme.isSolitary c = false := by
    refine Bool.eq_false_iff.2 fun hs => ?_
    rw [Lexeme.isSolitary, List.contains_iff_mem] at hs
    have hnone : ['^', '/', '*', '+', '-', ',', '|', '>', '<', '=', '{', '}', '[', ']', '(', ')',
        '#', '@', '~'].all (!continuesName ·) = true := by decide
    have hc := List.all_eq_true.1 hnone c hs
    rw [h] at hc
    cases hc
  have hblank : Text.isBlank c = false := by
    refine Bool.eq_false_iff.2 fun hb => ?_
    obtain ⟨hletter, hnumeral⟩ := Text.not_letter_of_blank hb
    rw [continuesName, hletter, hnumeral, Bool.or_self, Bool.false_or, beq_iff_eq] at h
    subst h
    exact absurd hb (by decide)
  simp [Lexeme.isWord, hquote, hsolitary, hblank]

theorem continuesName_of_startsName {c : Char} (h : startsName c = true) :
    continuesName c = true := by
  simp only [startsName, continuesName, Bool.or_eq_true] at h ⊢
  exact h.imp_left .inl

theorem not_digit_of_startsName {c : Char} (h : startsName c = true) : c.isDigit = false := by
  refine Bool.eq_false_iff.2 fun hdigit => ?_
  obtain ⟨hlow, hhigh⟩ := Char.isDigit_iff_toNat.1 hdigit
  have hzero : '0'.toNat = 48 := rfl
  have hnine : '9'.toNat = 57 := rfl
  rw [startsName, Text.isLetter_eq_isAlpha (by omega), Bool.or_eq_true, beq_iff_eq] at h
  rcases h with h | rfl
  · simp only [Char.isAlpha, Char.isUpper, Char.isLower, Bool.or_eq_true, Bool.and_eq_true,
      decide_eq_true_eq, ge_iff_le, UInt32.le_iff_toNat_le, Char.toNat_val] at h
    have hupper : 'A'.toNat = 65 := rfl
    have hlower : 'a'.toNat = 97 := rfl
    omega
  · cases hdigit

variable {s : String} (h : isName s = true)

include h

theorem IsOperand.of_isName : IsOperand s :=
  .inr (.inl h)

/-- The characters of a name. -/
theorem toList_of_isName :
    ∃ c cs, s.toList = c :: cs ∧ startsName c = true ∧ ∀ d ∈ cs, continuesName d = true := by
  rw [isName, Bool.and_eq_true] at h
  cases hs : s.toList with
  | nil =>
    rw [hs] at h
    cases h.2
  | cons c cs =>
    rw [hs, Bool.and_eq_true, List.all_eq_true] at h
    exact ⟨c, cs, rfl, h.2.1, h.2.2⟩

theorem isWord_of_isName : Lexeme.IsWord s := by
  obtain ⟨c, cs, hs, hc, hcs⟩ := toList_of_isName h
  rw [Lexeme.IsWord, hs]
  refine ⟨List.cons_ne_nil c cs, List.forall_mem_cons.2 ⟨?_, fun d hd => ?_⟩⟩
  · exact isWord_of_continuesName (continuesName_of_startsName hc)
  · exact isWord_of_continuesName (hcs d hd)

theorem literal?_of_isName : literal? s = none := by
  obtain ⟨c, cs, hs, hc, -⟩ := toList_of_isName h
  have hwhole : (c :: cs).takeWhile Char.isDigit = [] :=
    List.takeWhile_cons_of_neg (Bool.eq_false_iff.1 (not_digit_of_startsName hc))
  simp only [literal?_eq, hs, hwhole, List.isEmpty_nil, if_true]

theorem constant?_of_isName : Scope.constant? s = none := by
  unfold Scope.constant?
  split
  all_goals first
    | rfl
    | exact absurd h (by decide)

theorem ofTerm?_of_isName {γ : Type} : Reference.ofTerm? (.symbol s : Term γ) = none := by
  have hne : ∀ t, isName t = false → s ≠ t := by
    rintro t ht rfl
    exact Bool.false_ne_true (ht.symm.trans h)
  rw [Reference.ofTerm?, Reference.ofSymbol?, if_neg (hne "@" (by decide)),
    if_neg (hne "~" (by decide))]

/-- The text of a name is a line with nothing else on it. -/
theorem ofLine_of_isName : Group.ofLine s = .ok [.symbol s] :=
  Group.ofLine_of_spells (isWord_of_isName h).spells
    (List.forall_mem_singleton.2 (isWord_of_isName h).isPlain)

end Symbol

/-! ## What a name stands for -/

/-- A name stands for the function of that name, and else for the variable. -/
theorem Scope.find?_name {x : String} (hx : Symbol.isName x = true) (s : Scope) :
    s.find? x =
      ((s.memory.registry.find? x).map .function).or ((s.frames.find? x).map .var) := by
  rw [find?, Symbol.constant?_of_isName hx, Symbol.literal?_of_isName hx]
  rfl

/-- A row with nothing in it but an operand. -/
theorem Scope.value_operand {x : String} (hx : Symbol.IsOperand x) (s : Scope) :
    s.value [.symbol x] = s.lookup x := by
  have hbar : (Term.symbol x : Term Empty).isSymbol "|" = false :=
    beq_eq_false_iff_ne.2 (hx.ne (by decide))
  have hminus : (Term.symbol x : Term Empty).isSymbol "-" = false :=
    beq_eq_false_iff_ne.2 (hx.ne (by decide))
  have hlevel : ∀ n, s.level n [.symbol x] = .ok [.symbol x] := fun n =>
    level_eq_self (List.forall_mem_singleton.2 (operatorOf?_of_operator? hx.ofSymbol?_eq_none))
  have hlevels : ∀ ns : List Nat,
      ns.foldlM (fun row n => s.level n row) [.symbol x] = .ok [.symbol x] := by
    intro ns
    induction ns with
    | nil => rfl
    | cons n ns ih =>
      rw [List.foldlM_cons, hlevel]
      exact ih
  rw [value, moduli_eq_self (List.forall_mem_singleton.2 hbar)]
  show (s.negationsAfter false [.symbol x] >>= _) = _
  rw [negationsAfter_cons hminus]
  show (s.operators [.symbol x] >>= _) = _
  rw [operators, hlevels]
  rfl

theorem evaluate_operand {x : String} (hx : Symbol.IsOperand x) (fuel : Nat) (m : Machine) :
    evaluate (fuel + 1) [.symbol x] m = Run.reading (fun m => m.lookup x) m := by
  have ht : (Tree.symbol x : Tree Group).Standard := hx
  refine (ht.evaluate_items fuel m).trans ?_
  show Run.reading (fun m => m.value [.symbol x]) m = _
  rw [Run.reading, Run.reading, Scope.value_operand hx]

/-- What a name that stands for something is evaluated to. -/
theorem evaluate_name {x : String} (hx : Symbol.isName x = true) {m : Machine} {v : Value}
    (hv : m.find? x = some v) (fuel : Nat) : evaluate (fuel + 1) [.symbol x] m = .ok v m := by
  rw [evaluate_operand (.of_isName hx), Run.reading, Scope.lookup, hv]

theorem evaluateLine_name {x : String} (hx : Symbol.isName x = true) {m : Machine} {v : Value}
    (hv : m.find? x = some v) (fuel : Nat) :
    Call.evaluateLine (evaluate (fuel + 1)) x m = .ok v m := by
  have hline : Group.ofLine (Text.trim x) = .ok [.symbol x] := by
    rw [Group.ofLine_trim, Symbol.ofLine_of_isName hx]
  rw [Call.evaluateLine_of_ofLine _ hline, evaluate_name hx hv]

/-! ## What is assigned is read back -/

namespace Assignment

variable {ev : Group → Run Value} {give : VarRef → Value → Run Value} {m m₁ m₂ : Machine}

/-- A head that comes down to a single term is assigned to. -/
theorem run_of_head {head body : Group} {t : Term Group} {target : Target}
    (hhead : ∀ item ∈ head, item.isSymbol "=" = false) (hne : head ≠ [])
    (hreduce : Reference.reduce (resolve ev) (head.map headTerm) m = .ok [t] m₁)
    (htarget : Assignment.target ev t m₁ = .ok target m₂) :
    run ev give (head ++ .symbol "=" :: body) m =
      (if body.isEmpty then Run.fail .missingValue else assign ev give target body) m₂ := by
  have hspan : (head ++ .symbol "=" :: body).span (fun item => !item.isSymbol "=") =
      (head, .symbol "=" :: body) :=
    Part.span_append_cons (fun item hi => by rw [hhead item hi]; rfl) (by decide)
  rw [run, hspan]
  cases head with
  | nil => exact absurd rfl hne
  | cons first head =>
    dsimp only
    rw [Run.bind_of_ok hreduce]
    dsimp only
    rw [Run.bind_of_ok htarget]

/-- A name on its own is assigned to by its syntax. -/
theorem run_name {x : String} (hx : Symbol.isName x = true) (body : Group) (m : Machine) :
    run ev give (.symbol x :: .symbol "=" :: body) m =
      (if body.isEmpty then Run.fail .missingValue else assign ev give (.name x) body) m := by
  have hne : x ≠ "=" := (Symbol.IsOperand.of_isName hx).ne (by decide)
  have hhead : ∀ item ∈ [Item.symbol x], item.isSymbol "=" = false :=
    List.forall_mem_singleton.2 (beq_eq_false_iff_ne.2 fun h => hne (Option.some.inj h))
  have hreduce : Reference.reduce (resolve ev) ([.symbol x].map headTerm) m = .ok [.symbol x] m :=
    Reference.reduce_eq_self (List.forall_mem_singleton.2 (Symbol.ofTerm?_of_isName hx)) m
  refine run_of_head hhead (List.cons_ne_nil _ _) hreduce ?_
  rw [Assignment.target, if_pos hx]
  rfl

/-- A name that is bound to no variable is bound to a new one. -/
theorem assign_new {x : String} {body : Group} {w : Value} (hbody : ev body m = .ok w m₁)
    (hx : m₁.frames.find? x = none) :
    assign ev give (.name x) body m =
      .ok (.var (m₁.declare x (m₁.memory.held w)).1) (m₁.declare x (m₁.memory.held w)).2 := by
  have hheld : Run.held (ev body) m = .ok (m₁.memory.held w) m₁ :=
    Run.bind_eq_ok.2 ⟨w, m₁, hbody, rfl⟩
  have hget : (get : Run Machine) m₁ = .ok m₁ m₁ := rfl
  rw [assign, Run.bind_of_ok hheld]
  dsimp only
  rw [Run.bind_of_ok hget, hx]
  rfl

/-- After an assignment to a name, the variable that the name is bound to in the frame on top
    holds what the right-hand side came to. -/
theorem find?_of_assign {x : String} {body : Group} {v w : Value}
    (hm₁ : m₁.toScope.Contained) (hbody : ev body m = .ok w m₁)
    (h : assign ev overwrite (.name x) body m = .ok v m₂) :
    ∃ r, v = .var r ∧ m₂.frames.find? x = some r ∧ m₂.memory.read r = m₁.memory.held w := by
  cases hr : m₁.frames.find? x with
  | none =>
    cases (assign_new hbody hr).symm.trans h
    exact ⟨_, rfl, (Frame.find?_bind ..).trans (if_pos rfl), Memory.read_addVariable_self⟩
  | some r =>
    have hexisting : (Target.name x).existing? m₁ = some r := hr
    rw [assign_existing hbody hexisting] at h
    by_cases haccepts : m₁.memory.Accepts r (m₁.memory.held w)
    · cases (overwrite_of_accepts haccepts).symm.trans h
      exact ⟨r, rfl, hr, Memory.read_write_self (hm₁.top.find? hr)⟩
    · obtain ⟨f, hf, -⟩ := overwrite_of_not_accepts haccepts
      cases hf.symm.trans h

end Assignment

/-- An assignment to a name. -/
theorem evaluate_let {x : String} (hx : Symbol.isName x = true) (E : Group) (fuel : Nat)
    (m : Machine) :
    evaluate (fuel + 1) (.symbol "let" :: .symbol x :: .symbol "=" :: E) m =
      (if E.isEmpty then Run.fail .missingValue
        else Assignment.assign (evaluate fuel) Assignment.overwrite (.name x) E) m := by
  have hkeyword : Group.keyword? (.symbol "let" :: .symbol x :: .symbol "=" :: E) =
      some .assignment := rfl
  rw [evaluate, Statement.statement_of_assignment hkeyword, List.tail_cons,
    Assignment.run_name hx]

/-- A name that was assigned to stands for its variable from then on, with the value of the
    right-hand side, unless a function has the name. -/
theorem let_read_back {fuel : Nat} {x line : String} {E : Group} {v : Value} {m m' : Machine}
    (hx : Symbol.isName x = true)
    (hline : Group.ofLine (Text.trim line) =
      .ok (.symbol "let" :: .symbol x :: .symbol "=" :: E))
    (hm : m.toScope.Contained)
    (hlet : Call.evaluateLine (evaluate (fuel + 1)) line m = .ok v m') :
    ∃ r w m₁, evaluate fuel E m = .ok w m₁ ∧ v = .var r ∧
      m'.frames.find? x = some r ∧ m'.memory.read r = m₁.memory.held w ∧
      ∀ k, Call.evaluateLine (evaluate (k + 1)) x m' =
        .ok (match m'.memory.registry.find? x with
          | some f => .function f
          | none => .var r) m' := by
  rw [Call.evaluateLine_of_ofLine _ hline, evaluate_let hx] at hlet
  split at hlet
  · cases hlet
  obtain ⟨_, m₁, hheld, -⟩ := Run.bind_eq_ok.1 hlet
  obtain ⟨w, m₂, hw, hread⟩ := Run.bind_eq_ok.1 hheld
  cases hread
  obtain ⟨r, rfl, hr, hvalue⟩ :=
    Assignment.find?_of_assign (Machine.contained_of_evaluate hm hw).1 hw hlet
  refine ⟨r, w, m₁, hw, rfl, hr, hvalue, fun k => evaluateLine_name hx ?_ k⟩
  rw [Scope.find?_name hx, hr]
  cases m'.memory.registry.find? x <;> rfl

/-- The value of another variable is given to `x` and read back. -/
theorem let_read_back_variable :
    let m := ((Machine.start (.script []) (fun _ => .error .notFound) (mkStdGen 0)).declare
      "y" (.string "a")).2
    let line := "let x = y"
    Symbol.isName "x" = true ∧
      Group.ofLine (Text.trim line) =
        .ok (.symbol "let" :: .symbol "x" :: .symbol "=" :: [.symbol "y"]) ∧
      m.toScope.Contained ∧
      ∃ v m', Call.evaluateLine (evaluate 2) line m = .ok v m' ∧
        ∃ r w m₁, evaluate 1 [.symbol "y"] m = .ok w m₁ ∧ v = .var r ∧
          m'.frames.find? "x" = some r ∧ m'.memory.read r = m₁.memory.held w ∧
          ∀ k, Call.evaluateLine (evaluate (k + 1)) "x" m' =
            .ok (match m'.memory.registry.find? "x" with
              | some f => .function f
              | none => .var r) m' := by
  intro m line
  have hx : Symbol.isName "x" = true := by decide
  have hline : Group.ofLine (Text.trim line) =
      .ok (.symbol "let" :: .symbol "x" :: .symbol "=" :: [.symbol "y"]) := by cbv
  have hm : m.toScope.Contained := by
    have hstart := Machine.contained_start (.script []) (fun _ => .error .notFound) (mkStdGen 0)
    have hadd := hstart.addVariable (v := ⟨"y", .string "a"⟩) trivial
    exact hadd.bind (r := ⟨0⟩) (Nat.lt_succ_self 0) "y"
  have hy : evaluate 1 [.symbol "y"] m = .ok (.var ⟨0⟩) m :=
    evaluate_name (by decide) (by rw [Scope.find?_name (by decide)]; rfl) 0
  have hlet := (congrFun (Call.evaluateLine_of_ofLine (evaluate 2) hline) m).trans
    ((evaluate_let hx _ 1 m).trans (Assignment.assign_new hy rfl))
  exact ⟨hx, hline, hm, _, _, hlet, let_read_back hx hline hm hlet⟩

/-- A variable called `print` is given the value 5, but the name stands for the function. -/
theorem function_hides_variable :
    let m := Machine.start (.script []) (fun _ => .error .notFound) (mkStdGen 0)
    ∃ m', Symbol.isName "print" = true ∧ m.toScope.Contained ∧
      Call.evaluateLine (evaluate 2) "let print = 5" m = .ok (.var ⟨0⟩) m' ∧
      m'.frames.find? "print" = some ⟨0⟩ ∧ m'.memory.read ⟨0⟩ = .integer 5 ∧
      Call.evaluateLine (evaluate 1) "print" m' =
        .ok (.function (Registry.builtinRef .print)) m' := by
  intro m
  have hprint : Symbol.isName "print" = true := by decide
  have hline : Group.ofLine (Text.trim "let print = 5") =
      .ok (.symbol "let" :: .symbol "print" :: .symbol "=" :: [.symbol "5"]) := by cbv
  have hfive : evaluate 1 [.symbol "5"] m = .ok (.integer 5) m :=
    (evaluate_operand (by decide) 0 m).trans rfl
  have hlet := (congrFun (Call.evaluateLine_of_ofLine (evaluate 2) hline) m).trans
    ((evaluate_let hprint _ 1 m).trans (Assignment.assign_new hfive rfl))
  refine ⟨_, hprint, Machine.contained_start .., hlet, rfl, rfl, evaluateLine_name hprint ?_ 0⟩
  rw [Scope.find?_name hprint]
  rfl

end Linewise
