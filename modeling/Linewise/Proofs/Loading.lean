import Linewise.Proofs.Definition
import Linewise.Proofs.Pass
import Linewise.Proofs.Session
import Linewise.Proofs.Spelling
import Linewise.Proofs.Splice

/-!
# Loading

A line that loads a script stands for the lines of that script
(`load_includes_lines`): the program does the same and writes the same as one that
has these lines in place of the line. For this the lines must not reach beyond the
end of their script, which in the other program is not to be seen: nothing that
starts in them may take lines that come after.

The two programs are compared in three phases.

* Up to the line, their sources are the same but for the lines from there on
  (`Session.continues_spliced`).
* Then the line itself is a statement of only one of the programs
  (`Session.Loading.continues`).
* From there on, that program reads the lines from a source of their own, and the
  lines after them once it is used up (`Session.Linked`).
-/

namespace Linewise

open Relation

/-- Whatever is only written does not depend on the lines to come. -/
theorem Run.OnlyWrites.spliced {x : Run Unit} (hx : x.OnlyWrites) (e : Splice) (m : Machine) :
    x (m.spliced e) =
      match x m with
      | .ok _ m' => .ok () (m'.spliced e)
      | .error f m' => .error f (m'.spliced e) := by
  obtain ⟨r, world, output, h⟩ := hx m
  rw [h m rfl rfl rfl, h (m.spliced e) rfl rfl rfl]
  cases r <;> rfl

namespace Session

variable {echo : Bool} {fuel n : Nat} {line : String} {r : Result} {m m' : Machine} {e : Splice}

/-! ## Up to the line -/

theorem onward_of_tell (h : tell echo r m = .ok () m') : m.Onward m' := by
  obtain ⟨world, output, rfl⟩ := of_tell h
  exact .of_eq rfl rfl

theorem Continues.onward (h : Continues echo fuel m m') : m.Onward m' := by
  obtain ⟨line, before, r, after, hread, hrun, -, htell⟩ := h
  have hbefore := Interpreter.onward_readStatement m
  rw [Run.after_of_ok hread] at hbefore
  exact (hbefore.trans (onward_statement hrun)).trans (onward_of_tell htell)

theorem onward_of_reaches (h : ReflTransGen (Continues echo fuel) m m') : m.Onward m' := by
  induction h with
  | refl => exact .refl m
  | tail _ hlast ih => exact ih.trans hlast.onward

/-- No line comes back: those of a statement are the next ones, or come after them. -/
theorem onward_of_mem_steps {s : Interpreter.Step} (h : s ∈ steps echo fuel n m) :
    (Interpreter.readStatement.after m).Onward s.before := by
  induction n generalizing m with
  | zero => cases h
  | succ n ih =>
    rw [steps] at h
    split at h
    · rename_i line before hread
      rw [Run.after_of_ok hread]
      split at h
      · rename_i r after hrun
        cases List.mem_cons.1 h with
        | inl heq => exact heq ▸ .refl before
        | inr hlater =>
          split at hlater
          · split at hlater
            · rename_i htell
              exact (((onward_statement hrun).trans (onward_of_tell htell)).trans
                (Interpreter.onward_readStatement _)).trans (ih hlater)
            · cases hlater
          · cases hlater
      · cases h
    · cases h

/-- A session that leaves the lines that are replaced goes on in the same way. -/
theorem continues_spliced (hbelow : e.below = []) (hlag : e.lag = 0)
    (h : Continues echo fuel m m') (hold : e.old <:+ m'.outerLines) :
    Continues echo fuel (m.spliced e) (m'.spliced e) := by
  obtain ⟨line, before, r, after, hread, hrun, halive, htell⟩ := h
  have hafter : e.old <:+ after.outerLines := hold.trans (onward_of_tell htell).lines
  have hbefore : e.old <:+ (Interpreter.readStatement.after m).outerLines := by
    rw [Run.after_of_ok hread]
    exact hafter.trans (onward_statement hrun).lines
  have hread' : Interpreter.readStatement (m.spliced e) = .ok (some line) (before.spliced e) := by
    rw [Interpreter.readStatement_of_settled
      (Interpreter.settled_spliced fun _ _ => hbelow) hbefore, hread]
  have hresult : r.mapError (·.later e.lag) = r := by
    rw [hlag]
    cases r <;> rfl
  have hrun' : statement fuel line (before.spliced e) = .ok r (after.spliced e) := by
    rw [statement_spliced hrun hafter, hresult]
  have htell' : tell echo r (after.spliced e) = .ok () (m'.spliced e) := by
    rw [(onlyWrites_tell echo r).spliced, htell]
  exact ⟨line, _, r, _, hread', hrun', halive, htell'⟩

theorem reaches_spliced (hbelow : e.below = []) (hlag : e.lag = 0)
    (h : ReflTransGen (Continues echo fuel) m m') (hold : e.old <:+ m'.outerLines) :
    ReflTransGen (Continues echo fuel) (m.spliced e) (m'.spliced e) := by
  induction h with
  | refl => exact .refl
  | tail _ hlast ih =>
    exact (ih (hold.trans hlast.onward.lines)).tail (continues_spliced hbelow hlag hlast hold)

/-! ## The line -/

theorem statement_attempts (h : statement fuel line m = .ok r m') :
    ∃ Fs, m'.memory.registry = m.memory.registry.attempts Fs := by
  rw [statement] at h
  split at h
  · cases h
    exact ⟨[], rfl⟩
  · obtain ⟨Fs, hFs⟩ := evaluateLine_attempts m fuel line
    have hafter := Interpreter.after_interpret m fuel line
    rw [Run.after_of_ok h] at hafter
    refine ⟨Fs, ?_⟩
    generalize (Call.evaluateLine (evaluate fuel) line).after m = m₁ at hafter hFs
    obtain rfl | rfl := hafter
    · exact hFs
    · exact hFs

theorem Continues.attempts (h : Continues echo fuel m m') :
    ∃ Fs, m'.memory.registry = m.memory.registry.attempts Fs := by
  obtain ⟨line, before, r, after, hread, hrun, -, htell⟩ := h
  obtain ⟨source, suspended, n, hbefore⟩ := Interpreter.after_readStatement m
  rw [Run.after_of_ok hread] at hbefore
  obtain ⟨world, output, rfl⟩ := of_tell htell
  obtain ⟨Fs, hFs⟩ := statement_attempts hrun
  exact ⟨Fs, by rw [hFs, hbefore]⟩

theorem sound_of_reaches (h : ReflTransGen (Continues echo fuel) m m')
    (hm : m.memory.registry.Sound) : m'.memory.registry.Sound := by
  induction h with
  | refl => exact hm
  | tail _ hlast ih =>
    obtain ⟨Fs, hFs⟩ := hlast.attempts
    rw [hFs]
    exact ih.attempts Fs

end Session

namespace Statement

variable {m : Machine} {path : String} {source : Source}

theorem apply_load (ev : Group → Run Value) (hm : m.memory.registry.Sound)
    (hfile : m.files path = .ok source) :
    Call.apply ev (.function (Registry.builtinRef .load)) (.string path) m =
      .ok .nil (m.pushSource source) := by
  have hget : (get : Run Machine) m = .ok m m := rfl
  have hpath : Run.reading (fun m => m.memory.string (.string path)) m = .ok path m := rfl
  have hnative : Call.native ev .load [.string path] m = .ok .nil (m.pushSource source) := by
    show (Run.reading (fun m => m.memory.string (.string path)) >>= _) m = _
    rw [Run.bind_of_ok hpath, Run.bind_of_ok hget, hfile]
    rfl
  have hbind : Run.reading (fun m => (Function.ofBuiltin .load).bind
      (m.memory.arguments (.string path))) m = .ok [("path", .string path)] m := rfl
  rw [Call.apply, Call.function_of_get? _ (hm.builtin .load), Call.invoke, Run.bind_of_ok hbind]
  exact Run.bind_of_ok hnative

theorem evaluate_load (hm : m.memory.registry.Sound) (hfile : m.files path = .ok source)
    (fuel : Nat) :
    evaluate (fuel + 2) [.symbol "load", .group [.text path]] m =
      .ok .nil (m.pushSource source) :=
  expression_call rfl (callable?_builtin hm .load) (apply_load _ hm hfile)

/-- The line calls `load` with a path. -/
def Loads (path line : String) : Prop :=
  Group.ofLine (Text.trim line) = .ok [.symbol "load", .group [.text path]]

/-- A line with the path in a string literal. -/
theorem loads_literal (h : '"' ∉ path.toList) : Loads path ("load(\"" ++ path ++ "\")") := by
  have hclose : Lexeme.Spells [')'] [.symbol ")"] :=
    Lexeme.spells_nil.cons_solitary (by decide)
  have hpath : Lexeme.Spells ('"' :: (path.toList ++ ['"']) ++ [')'])
      [.text path, .symbol ")"] := by
    have htext := (Lexeme.spells_text h).append hclose ⟨')', rfl, by decide⟩
    rwa [String.ofList_toList] at htext
  have hopen : Lexeme.Spells ('(' :: ('"' :: (path.toList ++ ['"']) ++ [')']))
      [.symbol "(", .text path, .symbol ")"] :=
    hpath.cons_solitary (by decide)
  have hload : Lexeme.IsWord "load" := by decide
  have hline := hload.spells.append hopen ⟨'(', rfl, by decide⟩
  have hchars : ("load(\"" ++ path ++ "\")").toList =
      "load".toList ++ ('(' :: ('"' :: (path.toList ++ ['"']) ++ [')'])) := by
    simp [String.toList_append]
  have hscan : Lexeme.scan (.symbol []) ("load(\"" ++ path ++ "\")").toList =
      .ok [.symbol "load", .symbol "(", .text path, .symbol ")"] := by
    have hnil := hline [] nofun
    rw [List.append_nil, ← hchars] at hnil
    exact hnil
  rw [Loads, Group.ofLine_trim, Group.ofLine, Lexeme.ofLine, hscan]
  rfl

/-- The line makes the script at the path the active source. -/
theorem Loads.statement {line : String} (h : Loads path line) (hm : m.memory.registry.Sound)
    (hfile : m.files path = .ok source) (fuel : Nat) :
    Session.statement (fuel + 2) line m = .ok (.ok .nil) (m.pushSource source) := by
  have hquit : Text.trim line ≠ "quit" := by
    have hword : Group.ofLine "quit" = .ok [.symbol "quit"] := rfl
    intro hquit
    rw [Loads, hquit, hword] at h
    exact absurd (List.cons.inj (Except.ok.inj h)).2 (List.cons_ne_nil _ _).symm
  rw [Session.statement, if_neg hquit, Interpreter.interpret, Call.evaluateLine_of_ofLine _ h,
    evaluate_load hm hfile]

end Statement

/-! ## From there on -/

namespace Session

/-- The lines before `rest` are in a source of their own, after one more line. -/
def cut (rest : List ScriptLine) : Splice where
  old := rest
  new := []
  below := [.script rest]
  lag := 1
  nil _ := rfl

/-- The second machine has read one more line than the first, and has the lines before
    `rest` in a source of their own until it is used up. -/
inductive Linked (rest : List ScriptLine) : Machine → Machine → Prop
  | inside {m : Machine} : rest <:+ m.outerLines → Linked rest m (m.spliced (cut rest))
  | past {m : Machine} : Linked rest m (m.spliced (.later 1))

variable {echo : Bool} {fuel n : Nat} {rest : List ScriptLine} {m x : Machine} {line : String}

theorem Linked.output (h : Linked rest m x) : x.output = m.output := by
  cases h <;> rfl

theorem Linked.alive (h : Linked rest m x) : x.alive = m.alive := by
  cases h <;> rfl

/-- Both machines write the same. -/
theorem Linked.writes (h : Linked rest m x) {y : Run Unit} (hy : y.OnlyWrites) :
    match y m with
    | .ok _ m' => ∃ x', y x = .ok () x' ∧ Linked rest m' x'
    | .error f m' => ∃ x', y x = .error f x' ∧ Linked rest m' x' := by
  obtain ⟨world, output, hafter⟩ := hy.after m
  have hlines : (y.after m).outerLines = m.outerLines := by rw [hafter]; rfl
  cases h with
  | inside hrest =>
    rw [hy.spliced]
    rw [← hlines] at hrest
    cases hm : y m with
    | ok _ m' => exact ⟨_, rfl, .inside (Run.after_of_ok hm ▸ hrest)⟩
    | error f m' => exact ⟨_, rfl, .inside (Run.after_of_error hm ▸ hrest)⟩
  | past =>
    rw [hy.spliced]
    cases y m with
    | ok _ m' => exact ⟨_, rfl, .past⟩
    | error f m' => exact ⟨_, rfl, .past⟩

theorem Linked.shown (h : Linked rest m x) {y : Run Unit} (hy : y.OnlyWrites) :
    y.shown x = y.shown m := by
  have hwrites := h.writes hy
  cases hm : y m with
  | ok _ m' =>
    rw [hm] at hwrites
    obtain ⟨x', hx, hlinked⟩ := hwrites
    rw [Run.shown_of_ok hx, Run.shown_of_ok hm, hlinked.output]
  | error f m' =>
    rw [hm] at hwrites
    obtain ⟨x', hx, hlinked⟩ := hwrites
    rw [Run.shown_of_error hx, Run.shown_of_error hm, hlinked.output]

/-- A statement that leaves the rest of the lines does the same on both machines, unless it
    fails: an exception has the number of its line. -/
theorem Linked.statement (h : Linked rest m x) {r : Result} {m' : Machine}
    (hrun : statement fuel line m = .ok r m') (hok : r.isOk)
    (hkept : rest <:+ m.outerLines → rest <:+ m'.outerLines) :
    ∃ x', statement fuel line x = .ok r x' ∧ Linked rest m' x' := by
  have hsame : ∀ e : Splice, r.mapError (·.later e.lag) = r := by
    cases r with
    | error f => cases hok
    | ok v => exact fun _ => rfl
  cases h with
  | inside hrest =>
    have hrun' := statement_spliced (e := cut rest) hrun (hkept hrest)
    rw [hsame] at hrun'
    exact ⟨_, hrun', .inside (hkept hrest)⟩
  | past =>
    have hrun' := statement_spliced (e := .later 1) hrun (List.nil_suffix ..)
    rw [hsame] at hrun'
    exact ⟨_, hrun', .past⟩

/-- The next line is not among the last ones, unless it is the first of them. -/
theorem suffix_readLine (hrest : rest <:+ m.outerLines)
    (h : m.suspended = [] → m.source ≠ .script rest) :
    rest <:+ (Run.readLine.after m).outerLines := by
  rw [Run.readLine_eq_taking, Run.after_taking]
  cases hs : m.suspended with
  | cons t suspended =>
    rw [Machine.outerLines_of_cons hs] at hrest
    rw [Machine.outerLines_of_cons (m := m.movedTo _ _) hs]
    exact hrest
  | nil =>
    rw [Machine.outerLines_of_nil hs] at hrest
    rw [Machine.outerLines_of_nil (m := m.movedTo _ _) hs]
    show rest <:+ m.source.line.rest.lines
    have hne := h hs
    revert hrest hne
    rcases m.source with (_ | ⟨l, ls⟩) | _ <;> intro hrest hne
    · exact hrest
    · exact (List.suffix_cons_iff.1 hrest).resolve_left fun heq => hne (congrArg _ heq.symm)
    · exact hrest

/-- Where the second machine has used up the source of its own, it is past it. -/
theorem settled_cut (hs : m.settled.suspended = []) (hsource : m.settled.source = .script rest) :
    (m.spliced (cut rest)).settled = m.settled.spliced (.later 1) := by
  have hcut : (cut rest).source (.script rest) = .script [] := congrArg _ (Splice.lines_append [])
  have hpopped : Interpreter.withoutFinished (.script []) (cut rest).below = (.script rest, []) :=
    Interpreter.withoutFinished_nil _
  have hsources := Interpreter.withoutFinished_sources (e := cut rest) m.source m.suspended
  dsimp only at hsources
  rw [show (Interpreter.withoutFinished m.source m.suspended).2 = [] from hs,
    show (Interpreter.withoutFinished m.source m.suspended).1 = .script rest from hsource,
    Splice.sources, hcut, hpopped] at hsources
  rw [Machine.settled, Machine.spliced, hsources, Machine.spliced, hs, hsource, Splice.sources,
    Splice.source_later]
  rfl

/-- What has been used up makes no difference: either both machines have come to the rest
    of the lines, or the next line comes before it. -/
theorem Linked.settled (h : Linked rest m x) :
    ∃ e : Splice, x.settled = m.settled.spliced e ∧
      e.old <:+ (Interpreter.readStatement.after m).outerLines ∧
      ∀ m', e.old <:+ m'.outerLines → Linked rest m' (m'.spliced e) := by
  cases h with
  | past =>
    exact ⟨.later 1, Interpreter.settled_spliced fun _ _ => rfl, List.nil_suffix ..,
      fun _ _ => .past⟩
  | inside hrest =>
    by_cases hused : m.settled.suspended = [] ∧ m.settled.source = .script rest
    · exact ⟨.later 1, settled_cut hused.1 hused.2, List.nil_suffix .., fun _ _ => .past⟩
    · have hsettled : rest <:+ m.settled.outerLines :=
        (Interpreter.outerLines_settled m).symm ▸ hrest
      refine ⟨cut rest, Interpreter.settled_spliced fun hs hsource => ?_,
        suffix_readLine hsettled fun hs hsource => hused ⟨hs, hsource⟩, fun _ => .inside⟩
      rw [Machine.outerLines_of_nil hs] at hsettled
      refine absurd ⟨hs, ?_⟩ hused
      revert hsource hsettled
      rcases m.settled.source with ls | _
      · rintro ⟨kept, rfl⟩ hsource
        have hnil := (Splice.lines_append (e := cut rest) kept).symm.trans
          (Source.script.inj hsource)
        rw [(List.append_eq_nil_iff.1 hnil).1]
        rfl
      · nofun

/-- The next line is the same for both machines. -/
theorem Linked.readStatement (h : Linked rest m x) :
    match Interpreter.readStatement m with
    | .ok line before =>
      ∃ x', Interpreter.readStatement x = .ok line x' ∧ Linked rest before x'
    | .error f before =>
      ∃ x', Interpreter.readStatement x = .error f x' ∧ Linked rest before x' := by
  obtain ⟨e, hsettled, hold, hlinked⟩ := h.settled
  have hread := Interpreter.readStatement_of_settled hsettled hold
  cases h : Interpreter.readStatement m with
  | ok line before =>
    rw [h] at hread
    rw [Run.after_of_ok h] at hold
    exact ⟨_, hread, hlinked before hold⟩
  | error f before =>
    rw [h] at hread
    rw [Run.after_of_error h] at hold
    exact ⟨_, hread, hlinked before hold⟩

/-- A session that ends does the same on both machines, as long as no statement fails,
    and none that starts before the rest of the lines takes any of it. -/
theorem Linked.turns (h : Linked rest m x) (hends : Finishes echo fuel n m)
    (hkept : ∀ s ∈ steps echo fuel n m, s.result.isOk ∧
      (rest <:+ s.before.outerLines → rest <:+ s.after.outerLines)) :
    (turns echo fuel n).shown x = (turns echo fuel n).shown m := by
  -- Turn by turn the same line is read, and its statement leaves linked machines.
  induction n generalizing m x with
  | zero => exact absurd rfl hends
  | succ n ih =>
    have hline := h.readStatement
    cases hends.turn with
    | unreadable hread =>
      rw [hread] at hline
      obtain ⟨x', hread', hlinked⟩ := hline
      rw [Run.shown_of_error (turns_of_unreadable hread),
        Run.shown_of_error (turns_of_unreadable hread'), hlinked.output]
    | finished hread =>
      rw [hread] at hline
      obtain ⟨x', hread', hlinked⟩ := hline
      rw [Run.shown_congr (turns_of_finished hread), Run.shown_congr (turns_of_finished hread')]
      exact hlinked.shown (Run.onlyWrites_write farewell)
    | @statement line r before after hread hrun hnext =>
      rw [hread] at hline
      obtain ⟨x', hread', hlinked⟩ := hline
      obtain ⟨hok, hrest⟩ := hkept _ (mem_steps hread hrun)
      obtain ⟨x'', hrun', hlinked'⟩ := hlinked.statement hrun hok hrest
      cases halive : after.alive with
      | false =>
        have halive' : x''.alive = false := hlinked'.alive.trans halive
        rw [Run.shown_congr (turns_of_halted hread hrun halive),
          Run.shown_congr (turns_of_halted hread' hrun' halive')]
        exact hlinked'.shown (onlyWrites_conclude echo r)
      | true =>
        have halive' : x''.alive = true := hlinked'.alive.trans halive
        have htells := hlinked'.writes (onlyWrites_tell echo r)
        cases htell : tell echo r after with
        | error f m₁ =>
          rw [htell] at htells
          obtain ⟨x₁, htell', hlinked₁⟩ := htells
          rw [Run.shown_of_error (turns_of_untold hread hrun htell),
            Run.shown_of_error (turns_of_untold hread' hrun' htell'), hlinked₁.output]
        | ok _ m₁ =>
          rw [htell] at htells
          obtain ⟨x₁, htell', hlinked₁⟩ := htells
          rw [Run.shown_congr (turns_of_told hread hrun htell halive),
            Run.shown_congr (turns_of_told hread' hrun' htell' halive')]
          rw [steps_of_told hread hrun htell halive] at hkept
          exact ih hlinked₁ (hnext m₁ halive htell) fun s hs => hkept s (List.mem_cons_of_mem _ hs)

/-! ## The whole program -/

/-- A session only depends on the line that is read next. -/
theorem turns_congr (h : Interpreter.readStatement x = Interpreter.readStatement m) :
    turns echo fuel (n + 1) x = turns echo fuel (n + 1) m := by
  simp only [turns, next, Bind.bind, EStateM.bind, h]

theorem steps_congr (h : Interpreter.readStatement x = Interpreter.readStatement m) :
    steps echo fuel n x = steps echo fuel n m := by
  cases n with
  | zero => rfl
  | succ n => rw [steps, steps, h]

theorem alive_of_reaches (h : ReflTransGen (Continues echo fuel) m x) (hm : m.alive = true) :
    x.alive = true := by
  cases ReflTransGen.cases_tail h with
  | inl heq => exact heq ▸ hm
  | inr hlast =>
    obtain ⟨_, -, line, before, r, after, -, -, halive, htell⟩ := hlast
    exact (alive_of_tell htell).trans halive

/-- The splice that has the lines of a script in place of the line that loads it. -/
def included (line : String) (lines rest : List ScriptLine) : Splice where
  old := .ok line :: rest
  new := lines ++ rest
  below := []
  lag := 0
  nil := nofun

/-- The statement starts in the lines or in what they load, and the rest comes after them. -/
def StartsIn (lines rest : List ScriptLine) (s : Interpreter.Step) : Prop :=
  rest <:+ s.before.outerLines ∧ s.before.outerLines.length < (lines ++ rest).length

instance (lines rest : List ScriptLine) (s : Interpreter.Step) : Decidable (StartsIn lines rest s) :=
  inferInstanceAs (Decidable (_ ∧ _))

variable {lines : List ScriptLine} {path : String}

/-- The line that loads a script is the next statement. -/
structure Loading (path line : String) (lines rest : List ScriptLine) (m : Machine) : Prop where
  next : Interpreter.withoutFinished m.source m.suspended = (.script (.ok line :: rest), [])
  loads : Statement.Loads path line
  file : m.files path = .ok (.script lines)
  sound : m.memory.registry.Sound
  alive : m.alive = true

/-- The machine after the statement. -/
def loaded (lines rest : List ScriptLine) (m : Machine) : Machine :=
  { m.settled with source := .script lines, suspended := [.script rest], line := m.line + 1 }

namespace Loading

variable (h : Loading path line lines rest m)

include h

theorem source : m.settled.source = .script (.ok line :: rest) :=
  congrArg Prod.fst h.next

theorem suspended : m.settled.suspended = [] :=
  congrArg Prod.snd h.next

theorem outerLines : m.outerLines = .ok line :: rest := by
  rw [← Interpreter.outerLines_settled, Machine.outerLines_of_nil h.suspended, h.source]
  rfl

theorem continues : Continues echo 2 m (loaded lines rest m) := by
  let before : Machine := { m.settled with source := .script rest, line := m.line + 1 }
  have hread : Interpreter.readStatement m = .ok (some line) before := by
    rw [Interpreter.readStatement_eq, Run.readLine, h.source]
    rfl
  have hrun : statement 2 line before = .ok (.ok .nil) (before.pushSource (.script lines)) :=
    h.loads.statement (m := before) h.sound h.file 0
  refine ⟨line, before, _, _, hread, hrun, h.alive, ?_⟩
  have hsuspended : before.suspended = [] := h.suspended
  have hnil : (echo && !Value.nil.isNil) = false := Bool.and_false echo
  rw [tell_of_silent hnil, Machine.pushSource, hsuspended]
  rfl

/-- The machine of the other program, which comes to the lines. -/
theorem settled_included :
    (m.spliced (included line lines rest)).settled =
      { m.settled with source := .script (lines ++ rest), suspended := [] } := by
  have hlines : (included line lines rest).source (.script (.ok line :: rest)) =
      .script (lines ++ rest) :=
    congrArg _ (Splice.lines_append (e := included line lines rest) [])
  rw [Interpreter.settled_spliced fun _ _ => rfl, Machine.spliced, h.suspended, h.source,
    Splice.sources, hlines]
  rfl

/-- The machine after the statement is linked to the one that comes to the lines. -/
theorem linked :
    Linked rest (m.spliced (included line lines rest)).settled (loaded lines rest m) := by
  have hlines : (cut rest).source (.script (lines ++ rest)) = .script lines :=
    congrArg _ ((Splice.lines_append (e := cut rest) lines).trans (List.append_nil lines))
  have hcut : (m.spliced (included line lines rest)).settled.spliced (cut rest) =
      loaded lines rest m := by
    rw [h.settled_included, Machine.spliced, Splice.sources, hlines]
    rfl
  rw [← hcut, h.settled_included]
  exact .inside (List.suffix_append lines rest)

/-- From there on, a statement that starts before the rest of the lines starts in them. -/
theorem startsIn {s : Interpreter.Step}
    (hs : s ∈ steps echo fuel n (m.spliced (included line lines rest)).settled)
    (hne : rest ≠ []) (hrest : rest <:+ s.before.outerLines) : StartsIn lines rest s := by
  have hfirst : (Interpreter.readStatement.after
      (m.spliced (included line lines rest)).settled).outerLines = (lines ++ rest).tail := by
    show (Run.readLine.after (m.spliced (included line lines rest)).settled.settled).outerLines = _
    rw [Interpreter.settled_settled, h.settled_included, Run.readLine_eq_taking, Run.after_taking]
    show (Source.line (.script (lines ++ rest))).rest.lines = _
    cases lines ++ rest <;> rfl
  have hpos : 0 < (lines ++ rest).length :=
    List.length_pos_iff.2 (List.append_ne_nil_of_right_ne_nil _ hne)
  refine ⟨hrest, ?_⟩
  calc s.before.outerLines.length
      ≤ (lines ++ rest).tail.length := hfirst ▸ (onward_of_mem_steps hs).lines.length_le
    _ = (lines ++ rest).length - 1 := List.length_tail
    _ < (lines ++ rest).length := Nat.sub_one_lt_of_lt hpos

end Loading

/-- The line may be replaced by the lines of the script. -/
theorem Loading.shown (h : Loading path line lines rest m) {fuel' : Nat} {x : Machine}
    (hgo : ReflTransGen (Continues echo fuel') x m)
    (hends : Finishes echo fuel n (x.spliced (included line lines rest)))
    (hkept : ∀ s ∈ steps echo fuel n (x.spliced (included line lines rest)),
      s.result.isOk ∧ (StartsIn lines rest s → rest <:+ s.after.outerLines)) :
    ∃ k, (run echo k).shown x =
      (turns echo fuel n).shown (x.spliced (included line lines rest)) := by
  have hold : (included line lines rest).old <:+ m.outerLines :=
    h.outerLines.symm ▸ List.suffix_refl _
  -- The other program comes to where the lines are the next ones, and ends from there.
  obtain ⟨k, -, hturns, hsteps⟩ := hends.of_reaches (reaches_spliced rfl rfl hgo hold)
  have hends' := hends.congr hturns.symm
  obtain ⟨k, rfl⟩ := Nat.exists_eq_add_of_le' hends'.pos
  have hsettled : Interpreter.readStatement (m.spliced (included line lines rest)).settled =
      Interpreter.readStatement (m.spliced (included line lines rest)) :=
    congrArg Run.readLine (Interpreter.settled_settled _)
  rw [← turns_congr hsettled] at hturns
  rw [← steps_congr hsettled] at hsteps
  have hkept' : ∀ s ∈ steps echo fuel (k + 1) (m.spliced (included line lines rest)).settled,
      s.result.isOk ∧ (rest <:+ s.before.outerLines → rest <:+ s.after.outerLines) := by
    intro s hs
    obtain ⟨hok, hrest⟩ := hkept s (hsteps hs)
    refine ⟨hok, fun hbefore => ?_⟩
    by_cases hne : rest = []
    · exact hne ▸ List.nil_suffix ..
    · exact hrest (h.startsIn hs hne hbefore)
  have hshown := h.linked.turns (hends.congr hturns.symm) hkept'
  -- This program does the same from there, once the line has been evaluated.
  have hloaded : Finishes echo fuel (k + 1) (loaded lines rest m) := by
    rw [Finishes, hshown]
    exact hends.congr hturns.symm
  obtain ⟨k₁, hk₁⟩ := exists_run_of_reaches (.single h.continues) hloaded
  obtain ⟨k₂, hk₂⟩ := exists_run_of_reaches hgo (hloaded.congr hk₁)
  refine ⟨k₂, ?_⟩
  rw [Run.shown_congr (hk₂.trans hk₁), hshown, ← Run.shown_congr hturns]

end Session

/-- A line that loads a script stands for its lines. A program that comes to the line as a
    statement of its own does the same and writes the same as the program with the lines of the
    script in place of it, if that ends: provided none of its statements fails, and none that
    starts in these lines takes lines that come after them. The script may load others. -/
theorem load_includes_lines {echo : Bool} {s₁ s₂ lines : List ScriptLine} {path line : String}
    {files : Files} {world : World} {strict : Bool} {fuel fuel' : Nat} {m : Machine}
    (hline : Statement.Loads path line) (hfile : files path = .ok (.script lines))
    (hreached : ReflTransGen (Session.Continues echo fuel')
      { Machine.start (.script (s₁ ++ .ok line :: s₂)) files world with strict } m)
    (hnext : Interpreter.withoutFinished m.source m.suspended = (.script (.ok line :: s₂), []))
    (hends : ((Session.run echo fuel).shown
      { Machine.start (.script (s₁ ++ lines ++ s₂)) files world with strict }).1 ≠
        .error .outOfFuel)
    (hkept : ∀ s ∈ Session.steps echo fuel fuel
      { Machine.start (.script (s₁ ++ lines ++ s₂)) files world with strict },
      s.result.isOk ∧ (Session.StartsIn lines s₂ s → s₂ <:+ s.after.outerLines)) :
    ∃ k, (Session.run echo k).shown
        { Machine.start (.script (s₁ ++ .ok line :: s₂)) files world with strict } =
      (Session.run echo fuel).shown
        { Machine.start (.script (s₁ ++ lines ++ s₂)) files world with strict } := by
  let x : Machine := { Machine.start (.script (s₁ ++ .ok line :: s₂)) files world with strict }
  have hx : x.spliced (Session.included line lines s₂) =
      { Machine.start (.script (s₁ ++ lines ++ s₂)) files world with strict } := by
    have hlines : (Session.included line lines s₂).source (.script (s₁ ++ .ok line :: s₂)) =
        .script (s₁ ++ lines ++ s₂) := by
      rw [List.append_assoc]
      exact congrArg _ (Splice.lines_append (e := Session.included line lines s₂) s₁)
    rw [← hlines]
    rfl
  have hloading : Session.Loading path line lines s₂ m :=
    { next := hnext
      loads := hline
      file := (Session.onward_of_reaches hreached).files ▸ hfile
      sound := Session.sound_of_reaches hreached Registry.sound_standard
      alive := Session.alive_of_reaches hreached rfl }
  rw [← hx] at hends hkept ⊢
  exact hloading.shown hreached hends hkept

/-- A script that loads another, and in which a block reads a line. -/
theorem load_includes_lines_nested :
    let q : List ScriptLine := [.ok "let x = 1"]
    let p : List ScriptLine := [.ok "load(\"q\")", .ok "if x = 1,", .ok "print(read_string())",
      .ok "end", .ok "a line"]
    let files : Files := fun path =>
      if path = "p" then .ok (.script p)
      else if path = "q" then .ok (.script q)
      else .error .notFound
    let s₁ : List ScriptLine := [.ok "print(\"before\")"]
    let s₂ : List ScriptLine := [.ok "print(x)"]
    let start lines := { Machine.start (.script lines) files (mkStdGen 0) with strict := false }
    ∃ k, (Session.run false k).shown (start (s₁ ++ .ok "load(\"p\")" :: s₂)) =
      (.ok (), #["before", "a line", "1", "Interpreter execution halted"]) := by
  intro q p files s₁ s₂ start
  let x := start (s₁ ++ .ok "load(\"p\")" :: s₂)
  let before : Machine := { x with source := .script (.ok "load(\"p\")" :: s₂), line := 1 }
  have hruns :
      ((Session.statement 9 "print(\"before\")").value? before).map (fun (r, after) =>
        (r.isOk, after.alive, Interpreter.withoutFinished after.source after.suspended)) =
        some (true, true, .script (.ok "load(\"p\")" :: s₂), []) ∧
      (Session.run false 9).shown (start (s₁ ++ p ++ s₂)) =
        (.ok (), #["before", "a line", "1", "Interpreter execution halted"]) ∧
      ∀ s ∈ Session.steps false 9 9 (start (s₁ ++ p ++ s₂)),
        s.result.isOk ∧ (Session.StartsIn p s₂ s → s₂ <:+ s.after.outerLines) := by
    decide +kernel +revert
  obtain ⟨hfirst, hshown, hkept⟩ := hruns
  obtain ⟨⟨r, after⟩, hvalue, hafter⟩ := Option.map_eq_some_iff.1 hfirst
  obtain ⟨hok, hafter⟩ := Prod.ext_iff.1 hafter
  obtain ⟨halive, hnext⟩ := Prod.ext_iff.1 hafter
  have hread : Interpreter.readStatement x = .ok (some "print(\"before\")") before := rfl
  have htell : Session.tell false r after = .ok () after := by
    cases r with
    | error e => cases hok
    | ok v => exact Session.tell_of_silent (Bool.false_and _) after
  have hreached : ReflTransGen (Session.Continues false 9) x after :=
    .single ⟨_, before, r, after, hread, Run.value?_eq_some_iff.1 hvalue, halive, htell⟩
  have hline : Statement.Loads "p" "load(\"p\")" := Statement.loads_literal (by decide)
  have hfile : files "p" = .ok (.script p) := rfl
  have hends : ((Session.run false 9).shown (start (s₁ ++ p ++ s₂))).1 ≠ .error .outOfFuel := by
    rw [hshown]
    nofun
  obtain ⟨k, hk⟩ := load_includes_lines hline hfile hreached hnext hends hkept
  exact ⟨k, hk.trans hshown⟩

end Linewise
