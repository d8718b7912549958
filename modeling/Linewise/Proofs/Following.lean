import Linewise.Proofs.Reference
import Mathlib.Data.Fintype.EquivFin

/-!
# Following references

As links never lead from a variable back to it, the chain of references from any value on comes
to an end: the variables on it are all different, and there are only so many
(`Memory.Unlooped.exists_chain`). The end is a value that is no variable, and following the chain
gives that value if there are fewer variables on the way than the bound, and else the fault of a
chain without end (`Memory.Chain.follow_eq`).

That fault is thus not a matter of loops, of which there are none, but of length. New variables
are not checked, so that one line makes a chain of any length (`exists_chain_letMakes`), and one
of as many variables as the bound is not followed to its end (`long_chain_not_followed`). The
check of other assignments lets it pass as well (`Memory.Accepts`).
-/

namespace Linewise

open Relation

namespace Memory

variable {m : Memory} {r : VarRef} {v : Value} {chain : List VarRef}

theorem Links.toChain {s : VarRef} (h : m.Links r s) (hchain : m.Chain (.var s) chain) :
    m.Chain (.var r) (r :: chain) := by
  rw [Links] at h
  exact .link (h.symm ▸ hchain)

/-- From a value on there is only one chain. -/
theorem Chain.unique {chain' : List VarRef} (h : m.Chain v chain) (h' : m.Chain v chain') :
    chain' = chain := by
  induction h generalizing chain' with
  | done hv =>
    cases h' with
    | done => rfl
    | link => exact absurd rfl (hv _)
  | link _ ih =>
    obtain ⟨rest, rfl, hrest⟩ := chain_var_iff.1 h'
    rw [ih hrest]

/-- Links one after the other are a chain, as soon as the first variable holds no other. -/
theorem Chain.of_links {ref : Nat → VarRef} {n : Nat}
    (hfirst : ∀ s, m.read (ref 0) ≠ .var s)
    (hlinks : ∀ i < n, m.Links (ref (i + 1)) (ref i)) :
    m.Chain (.var (ref n)) ((List.range (n + 1)).reverse.map ref) := by
  induction n with
  | zero => exact .link (.done hfirst)
  | succ n ih =>
    rw [List.range_succ, List.reverse_append, List.map_append]
    exact (hlinks n (Nat.lt_succ_self n)).toChain (ih fun i hi => hlinks i (Nat.lt_succ_of_lt hi))

/-- The value at the end of a chain from `v` on: what the last variable holds. -/
def tip (m : Memory) (v : Value) (chain : List VarRef) : Value :=
  chain.getLast?.elim v m.read

/-- The chain of links one after the other ends with the first variable. -/
theorem tip_of_links (v : Value) (r : VarRef) (ref : Nat → VarRef) (n : Nat) :
    m.tip v (r :: (List.range (n + 1)).reverse.map ref) = m.read (ref 0) := by
  simp [tip, List.getLast?_cons, List.range_succ_eq_map]

theorem tip_cons (v : Value) (r : VarRef) (chain : List VarRef) :
    m.tip v (r :: chain) = m.tip (m.read r) chain := by
  rw [tip, tip, List.getLast?_cons]
  cases chain.getLast? <;> rfl

/-- A chain does not end at a variable. -/
theorem Chain.tip_ne_var (h : m.Chain v chain) (r : VarRef) : m.tip v chain ≠ .var r := by
  induction h with
  | done hv => exact hv r
  | link _ ih =>
    rw [tip_cons]
    exact ih

/-- A chain is followed to its end if it is shorter than the bound. -/
theorem Chain.follow_eq (h : m.Chain v chain) (n : Nat) :
    m.follow n v = if chain.length < n then .ok (m.tip v chain) else .error .endlessReference := by
  -- By induction on the chain: each variable on it uses up one of the bound.
  induction h generalizing n with
  | @done v hv =>
    cases n with
    | zero => rfl
    | succ n => exact m.follow_succ_of_ne_var n hv
  | @link r chain _ ih =>
    cases n with
    | zero => rfl
    | succ n =>
      rw [follow, ih, tip_cons]
      simp only [List.length_cons, Nat.add_lt_add_iff_right]

/-- Without loops, links lead on and on only as long as there are further variables. -/
theorem Unlooped.wellFounded (h : m.Unlooped) :
    WellFounded fun i j : Fin m.vars.size => TransGen m.Links ⟨j⟩ ⟨i⟩ := by
  have : IsTrans (Fin m.vars.size) fun i j => TransGen m.Links ⟨j⟩ ⟨i⟩ :=
    ⟨fun _ _ _ hij hjk => hjk.trans hij⟩
  have : Std.Irrefl fun i j : Fin m.vars.size => TransGen m.Links ⟨j⟩ ⟨i⟩ := ⟨fun i => h ⟨i⟩⟩
  exact Finite.wellFounded_of_trans_of_irrefl _

/-- Without loops, every chain ends. -/
theorem Unlooped.exists_chain (h : m.Unlooped) (v : Value) : ∃ chain, m.Chain v chain := by
  -- A chain from `v` on goes by way of a variable in memory, or is at its end after the next one.
  have hstep : ∀ {v : Value},
      (∀ i : Fin m.vars.size, v = .var ⟨i⟩ → ∃ chain, m.Chain (m.read ⟨i⟩) chain) →
        ∃ chain, m.Chain v chain := by
    intro v hv
    cases v with
    | var r =>
      rcases Nat.lt_or_ge r.index m.vars.size with hr | hr
      · obtain ⟨chain, hchain⟩ := hv ⟨r.index, hr⟩ rfl
        exact ⟨r :: chain, .link hchain⟩
      · refine ⟨[r], .link (read_of_le hr ▸ .done fun s hs => ?_)⟩
        cases hs
    | _ =>
      refine ⟨[], .done fun s hs => ?_⟩
      cases hs
  have hread : ∀ i : Fin m.vars.size, ∃ chain, m.Chain (m.read ⟨i⟩) chain := by
    intro i
    induction i using h.wellFounded.induction with
    | _ i ih => exact hstep fun j hj => ih j (.single hj)
  exact hstep fun i _ => hread i

/-- Every chain of references ends at a value that is no variable, which is what following it
    gives, or else the chain has at least as many variables as are followed. -/
def Followed (m : Memory) : Prop :=
  ∀ v, ∃ chain, m.Chain v chain ∧ (∀ r, m.tip v chain ≠ .var r) ∧
    m.dereference v =
      if chain.length < maxChain then .ok (m.tip v chain) else .error .endlessReference

theorem Unlooped.followed (h : m.Unlooped) : m.Followed := by
  intro v
  obtain ⟨chain, hchain⟩ := h.exists_chain v
  exact ⟨chain, hchain, hchain.tip_ne_var, hchain.follow_eq maxChain⟩

end Memory

/-! ## Long chains -/

namespace Reference

/-- The line that gives `y` the value of `x` with marks before it that make references. -/
def letMakes (y x : String) (n : Nat) : String :=
  "let " ++ y ++ " = " ++ String.ofList (List.replicate n '@') ++ x

variable {x y : String} {r : VarRef} {m : Machine} {n : Nat}

theorem spells_makes (hx : Symbol.isName x = true) (n : Nat) :
    Lexeme.Spells (List.replicate n '@' ++ x.toList)
      (List.replicate n (.symbol make.symbol) ++ [.symbol x]) := by
  induction n with
  | zero => exact (Symbol.isWord_of_isName hx).spells
  | succ n ih => exact ih.cons_solitary (by decide)

theorem spells_letMakes (hy : Symbol.isName y = true) (hx : Symbol.isName x = true) (n : Nat) :
    Lexeme.Spells (letMakes y x n).toList
      (.symbol "let" :: .symbol y :: .symbol "=" ::
        (List.replicate n (.symbol make.symbol) ++ [.symbol x])) := by
  have hequals := ((spells_makes hx n).cons_blank (c := ' ') (by decide)).cons_solitary
    (c := '=') (by decide)
  have hname := (Symbol.isWord_of_isName hy).spells.append
    (hequals.cons_blank (c := ' ') (by decide)) ⟨' ', rfl, by decide⟩
  have hlet := (Lexeme.IsWord.spells (s := "let") (by decide)).append
    (hname.cons_blank (c := ' ') (by decide)) ⟨' ', rfl, by decide⟩
  simpa [letMakes] using hlet

theorem join_makes (x : String) (n : Nat) :
    Lexeme.join (List.replicate n (.symbol make.symbol) ++ [.symbol x]) =
      List.replicate n (.symbol make.symbol) ++ [.symbol x] := by
  induction n with
  | zero => rfl
  | succ n ih => rw [List.replicate_succ, List.cons_append, Lexeme.join_cons rfl, ih]

theorem ofLine_letMakes (hy : Symbol.isName y = true) (hx : Symbol.isName x = true) (n : Nat) :
    Group.ofLine (letMakes y x n) =
      .ok (.symbol "let" :: .symbol y :: .symbol "=" ::
        Group.referred (List.replicate n .make) x) := by
  have hyw := Symbol.isWord_of_isName hy
  refine (Group.ofLine_of_join (spells_letMakes hy hx n) ?_ ?_).trans ?_
  · rw [Lexeme.join_cons rfl, Lexeme.join_cons hyw.startsOperator_eq_false, Lexeme.join_cons rfl,
      join_makes]
  · have hmarks : ∀ l ∈ List.replicate n (.symbol make.symbol) ++ [.symbol x],
        Lexeme.IsUnbracketed l := by
      refine List.forall_mem_append.2 ⟨fun l hl => ?_, List.forall_mem_singleton.2 ?_⟩
      · rw [List.eq_of_mem_replicate hl]
        decide
      · exact (Symbol.isWord_of_isName hx).isPlain.isUnbracketed
    simp only [List.forall_mem_cons]
    exact ⟨by decide, hyw.isPlain.isUnbracketed, by decide, hmarks⟩
  · simp [Group.referred, Lexeme.item]

/-- Marks before a name are references one after the other to its variable, which stays as
    it is. -/
theorem exists_makes (hx : Symbol.isName x = true) (hfound : m.find? x = some (.var r))
    (hr : r.index < m.memory.vars.size) (n fuel : Nat) :
    ∃ m', evaluate (fuel + 1) (.referred (List.replicate (n + 1) .make) x) m =
        .ok (.var (made r m (n + 1))) m' ∧
      m'.frames = m.frames ∧ r.index < m'.memory.vars.size ∧
      m'.memory.read r = m.memory.read r ∧
      ∀ i < n + 1, m'.memory.Links (made r m (i + 1)) (made r m i) := by
  have hrow := @reduce_name Empty (fun t => Run.reading fun m => m.resolve t) x hx m
  obtain ⟨new, t, hmakes, -, hmade, -, hlinks⟩ :=
    reduce_makes (fun _ _ => rfl) hrow (resolve_name hfound) (n + 1)
  rw [← List.map_replicate (f := fun mark : Reference => Term.symbol mark.symbol)] at hmakes
  have hvalue := hmade.resolve_right fun h => Nat.succ_ne_zero n h.1
  refine ⟨_, evaluate_of_reduce hx hmakes (.inl hvalue) fuel, rfl, ?_, ?_, hlinks⟩
  · rw [Array.size_append]
    exact Nat.lt_add_right _ hr
  · rw [Memory.read, Memory.get?, Array.getElem?_append_left hr]
    rfl

/-- A new name is given the value of the last of these references, so that its chain has all the
    others on it. -/
theorem exists_let_makes (hy : Symbol.isName y = true) (hx : Symbol.isName x = true)
    (hfound : m.find? x = some (.var r)) (hr : r.index < m.memory.vars.size)
    (hvalue : ∀ s, m.memory.read r ≠ .var s) (hnew : m.frames.find? y = none) (n fuel : Nat) :
    ∃ m' s chain, evaluate (fuel + 2) (.symbol "let" :: .symbol y :: .symbol "=" ::
        Group.referred (List.replicate (n + 1) .make) x) m = .ok (.var s) m' ∧
      m'.frames.find? y = some s ∧ m'.memory.Chain (.var s) chain ∧ chain.length = n + 2 ∧
      m'.memory.tip (.var s) chain = m.memory.read r := by
  obtain ⟨m₁, hmakes, hframes, hsize, hread, hlinks⟩ := exists_makes hx hfound hr n fuel
  have hheld : m₁.memory.held (.var (made r m (n + 1))) = .var (made r m n) :=
    hlinks n (Nat.lt_succ_self n)
  have hassign : Assignment.assign (evaluate (fuel + 1)) Assignment.overwrite (.name y)
      (Group.referred (List.replicate (n + 1) .make) x) m = _ :=
    Assignment.assign_new hmakes (hframes ▸ hnew)
  rw [hheld] at hassign
  have hkept : (m₁.declare y (.var (made r m n))).2.memory.read r = m.memory.read r :=
    (Memory.read_addVariable_of_lt hsize).trans hread
  have hmade : (m₁.declare y (.var (made r m n))).2.memory.Chain (.var (made r m n))
      ((List.range (n + 1)).reverse.map (made r m)) := by
    refine Memory.Chain.of_links (fun s hs => hvalue s ?_) fun i hi => ?_
    · exact hkept.symm.trans hs
    · exact (hlinks i (Nat.lt_succ_of_lt hi)).addVariable
  have hlink : (m₁.declare y (.var (made r m n))).2.memory.Links ⟨m₁.memory.vars.size⟩
      (made r m n) := Memory.read_addVariable_self
  refine ⟨_, _, _, (evaluate_let hy _ (fuel + 1) m).trans hassign,
    (Frame.find?_bind ..).trans (if_pos rfl), hlink.toChain hmade, ?_, ?_⟩
  · simp
  · exact (Memory.tip_of_links ..).trans hkept

end Reference

/-- A statement without a fault is followed by the others. -/
theorem Machine.afterLines_cons {line : String} {lines : List String} {item : Item} {g : Group}
    {v : Value} {m m' : Machine} {fuel : Nat}
    (hline : Group.ofLine (Text.trim line) = .ok (item :: g))
    (h : evaluate fuel (item :: g) m = .ok v m') :
    m.afterLines fuel (line :: lines) = m'.afterLines fuel lines := by
  rw [afterLines, Run.after, Interpreter.interpret, Call.evaluateLine_of_ofLine _ hline, h]

/-- After `x` was given a number, `y` is given the value of `x` with `n` marks before it. -/
theorem exists_chain_letMakes {n : Nat} (hn : 0 < n) {m : Machine}
    (hm : m = (Machine.start (.script []) (fun _ => .error .notFound) (mkStdGen 0)).afterLines 9
      ["let x = 1", Reference.letMakes "y" "x" n]) :
    ∃ r chain, m.frames.find? "y" = some r ∧ m.memory.Chain (.var r) chain ∧
      chain.length = n + 1 ∧ m.memory.tip (.var r) chain = .integer 1 := by
  obtain ⟨n, rfl⟩ := Nat.exists_eq_add_one.2 hn
  have hx : Symbol.isName "x" = true := by decide
  have hy : Symbol.isName "y" = true := by decide
  have hline : Group.ofLine (Text.trim "let x = 1") =
      .ok (.symbol "let" :: .symbol "x" :: .symbol "=" :: [.symbol "1"]) := by cbv
  let m₀ := Machine.start (.script []) (fun _ => .error .notFound) (mkStdGen 0)
  have hone : evaluate 8 [.symbol "1"] m₀ = .ok (.integer 1) m₀ :=
    (evaluate_operand (by decide) 7 m₀).trans rfl
  have hlet := (evaluate_let hx [.symbol "1"] 8 m₀).trans (Assignment.assign_new hone rfl)
  have hfound : (m₀.declare "x" (.integer 1)).2.find? "x" = some (.var ⟨0⟩) := by
    rw [Scope.find?_name hx]
    rfl
  have hvalue : ∀ s, (m₀.declare "x" (.integer 1)).2.memory.read ⟨0⟩ ≠ .var s := by
    intro s hs
    change Value.integer 1 = .var s at hs
    cases hs
  obtain ⟨m', r, chain, hmakes, hr, hchain, hlength, htip⟩ :=
    Reference.exists_let_makes hy hx hfound Nat.zero_lt_one hvalue rfl n 7
  have hm' : m = m' := by
    refine hm.trans ((Machine.afterLines_cons hline hlet).trans
      (Machine.afterLines_cons ?_ hmakes))
    rw [Group.ofLine_trim, Reference.ofLine_letMakes hy hx]
  exact ⟨r, chain, hm' ▸ hr, hm' ▸ hchain, hlength, hm' ▸ htip⟩

/-! ## Programs -/

open Classical in
/-- Every chain is followed to its end that is not too long, wherever a group is evaluated,
    something is called or a variable is given a value. -/
noncomputable def followedWatch : Watch where
  group m := decide m.memory.Followed
  call _ m := decide m.memory.Followed
  assign m := decide m.memory.Followed

open Classical in
theorem followedWatch_passes : unloopedWalk.Passes {} followedWatch where
  group hm _ := decide_eq_true hm.1.followed
  call hm _ := decide_eq_true hm.1.followed
  assign hm _ := decide_eq_true hm.1.followed

/-- Whatever the statements of a program are, after each statement and on the way every chain of
    references ends at a value that is no variable, and following it gives that value as long as
    there are fewer variables on it than the bound. -/
theorem references_followed {source : Source} {files : Files} {world : World} {strict : Bool}
    {m : Machine}
    (h : Interpreter.Reaches (fun _ => True) { Machine.start source files world with strict } m) :
    m.memory.Followed ∧ ∀ fuel line, Call.evaluateLine (followedWatch.evaluate fuel) line m =
      Call.evaluateLine (evaluate fuel) line m := by
  have hm : unloopedWalk.holds m := unloopedWalk.holds_of_start h
  refine ⟨hm.1.followed, fun fuel line => ?_⟩
  exact (unloopedWalk.holds_evaluateLine followedWatch_passes hm fuel line).1

/-- `y` refers to `x` by way of a variable without a name, and the chain is followed. -/
theorem references_followed_two :
    let m₀ := Machine.start (.script []) (fun _ => .error .notFound) (mkStdGen 0)
    let m := m₀.afterLines 9 ["let x = 1", Reference.letMakes "y" "x" 2]
    Interpreter.Reaches (fun _ => True) m₀ m ∧ ∃ r, m.frames.find? "y" = some r ∧
      m.memory.dereference (.var r) = .ok (.integer 1) := by
  intro m₀ m
  have hreaches : Interpreter.Reaches (fun _ => True) m₀ m :=
    .afterLines .refl 9 fun _ _ => trivial
  obtain ⟨r, chain, hr, hchain, hlength, htip⟩ := exists_chain_letMakes Nat.two_pos (m := m) rfl
  obtain ⟨hfollowed, -⟩ := references_followed hreaches
  obtain ⟨_, hchain', -, hdereference⟩ := hfollowed (.var r)
  rw [hchain.unique hchain', hlength, htip, if_pos (by decide)] at hdereference
  exact ⟨hreaches, r, hr, hdereference⟩

/-- With 255 marks the chain of `y` has as many variables as the bound. It ends at the number of
    `x`, but it is not followed that far, and the fault speaks of a loop that is not there. -/
theorem long_chain_not_followed :
    let m₀ := Machine.start (.script []) (fun _ => .error .notFound) (mkStdGen 0)
    let m := m₀.afterLines 9 ["let x = 1", Reference.letMakes "y" "x" 255]
    Interpreter.Reaches (fun _ => True) m₀ m ∧ m.memory.Unlooped ∧
      ∃ r chain, m.frames.find? "y" = some r ∧ m.memory.Chain (.var r) chain ∧
        chain.length = Memory.maxChain ∧ m.memory.tip (.var r) chain = .integer 1 ∧
        m.memory.dereference (.var r) = .error .endlessReference := by
  intro m₀ m
  have hreaches : Interpreter.Reaches (fun _ => True) m₀ m :=
    .afterLines .refl 9 fun _ _ => trivial
  obtain ⟨r, chain, hr, hchain, hlength, htip⟩ :=
    exists_chain_letMakes (n := 255) (by decide) (m := m) rfl
  refine ⟨hreaches, (unloopedWalk.holds_of_start hreaches).1, r, chain, hr, hchain, hlength,
    htip, ?_⟩
  rw [Memory.dereference, hchain.follow_eq, hlength]
  exact if_neg (Nat.lt_irrefl _)

end Linewise
