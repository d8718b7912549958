import Linewise.Proofs.Halt
import Linewise.Proofs.Unread

/-!
# Sources that are spliced

Two programs whose sources are the same but for the last lines of the outermost
one, and for what lies below it (`Splice`). They do the same as long as these
lines are not read: a statement that leaves them leaves the other program with
the lines in their place, which may be more of them, fewer or none
(`Session.statement_spliced`). This is how a script is compared with one that
has the lines of another in place of the line that loads it.

What is left of the outermost source only ever gets shorter
(`Machine.outerLines`), so a program that has read one of these lines has no way
back; up to there the second program follows it (`spliceWalk`).
-/

namespace Linewise

deriving instance DecidableEq for Source

/-- The lines of a script. A directory has none. -/
def Source.lines : Source → List ScriptLine
  | script lines => lines
  | directory => []

/-- The lines that are left of the outermost source. -/
def Machine.outerLines (m : Machine) : List ScriptLine :=
  (m.suspended.getLastD m.source).lines

/-- The outermost source has been read on, or not, and the files are the same. -/
structure Machine.Onward (m m' : Machine) : Prop where
  lines : m'.outerLines <:+ m.outerLines
  files : m'.files = m.files

/-- What is put in place of the last lines of the outermost source. -/
structure Splice where
  /-- The last lines of the outermost source. -/
  old : List ScriptLine
  /-- The lines in their place. -/
  new : List ScriptLine
  /-- The sources below it. -/
  below : List Source
  /-- The number of lines that have been read besides. -/
  lag : Nat
  /-- The end of a script stays its end. -/
  nil : old = [] → new = []

namespace Splice

/-- Nothing is replaced, but some lines have been read besides. -/
def later (n : Nat) : Splice where
  old := []
  new := []
  below := []
  lag := n
  nil := id

variable (e : Splice)

/-- The lines with the last ones replaced. -/
def lines (ls : List ScriptLine) : List ScriptLine :=
  ls.take (ls.length - e.old.length) ++ e.new

/-- The outermost source with its last lines replaced. -/
def source : Source → Source
  | .script ls => .script (e.lines ls)
  | .directory => .directory

/-- The sources, the active one apart, with the last lines of the outermost one
    replaced and the others below it. -/
def sources (s : Source) : List Source → Source × List Source
  | [] => (e.source s, e.below)
  | t :: suspended => (s, (sources t suspended).1 :: (sources t suspended).2)

end Splice

/-- The machine with other lines at the end of its outermost source. -/
def Machine.spliced (e : Splice) (m : Machine) : Machine :=
  { m with
    source := (e.sources m.source m.suspended).1
    suspended := (e.sources m.source m.suspended).2
    line := m.line + e.lag }

/-- What is taken from the start of a source. -/
structure Taking (α : Type) where
  result : Except Fault α
  /-- What is left of the source. -/
  rest : Source
  /-- The number of lines read. -/
  read : Nat

namespace Source

/-- The next line. -/
def line (s : Source) : Taking (Option String) where
  result := s.next.1.mapError .sourceFailed
  rest := s.next.2
  read :=
    match s.next.1 with
    | .ok (some _) => 1
    | _ => 0

/-- The block that starts with the next line. -/
def block (elseAllowed : Bool) : Source → Taking Block
  | script lines =>
    let o := (Capture.start elseAllowed).run (·.mapError .sourceFailed) lines
    { result := o.block, rest := script o.rest, read := o.read }
  | directory => { result := .error (.sourceFailed .isDirectory), rest := directory, read := 0 }

end Source

/-- What is taken from the active source. -/
def Run.taking {α : Type} (take : Source → Taking α) : Run α := fun m =>
  ofExcept (take m.source).result (m.movedTo (take m.source).rest (take m.source).read)

/-- It is taken from the start, and the same from a source with other lines at the
    end, unless it reaches into those replaced. -/
structure Splice.Commutes (e : Splice) {α : Type} (take : Source → Taking α) : Prop where
  suffix : ∀ s, (take s).rest.lines <:+ s.lines
  source : ∀ s, e.old <:+ (take s).rest.lines →
    take (e.source s) = { take s with rest := e.source (take s).rest }

/-! ## Lines -/

namespace Splice

variable {e : Splice}

theorem lines_append (ls : List ScriptLine) : e.lines (ls ++ e.old) = ls ++ e.new := by
  rw [lines, List.length_append, Nat.add_sub_cancel, List.take_left]

theorem source_later (n : Nat) (s : Source) : (later n).source s = s := by
  cases s with
  | script ls =>
    rw [source, lines, later, List.length_nil, Nat.sub_zero, List.take_length, List.append_nil]
  | directory => rfl

theorem lines_nil (h : e.old <:+ []) : e.lines [] = [] := by
  rw [lines, e.nil (List.suffix_nil.1 h), List.take_nil, List.append_nil]

theorem lines_cons {ls : List ScriptLine} (h : e.old <:+ ls) (l : ScriptLine) :
    e.lines (l :: ls) = l :: e.lines ls := by
  obtain ⟨kept, rfl⟩ := h
  rw [← List.cons_append, lines_append, lines_append, List.cons_append]

theorem source_nil (h : e.old <:+ []) : e.source (.script []) = .script [] :=
  congrArg _ (lines_nil h)

theorem source_cons {ls : List ScriptLine} (h : e.old <:+ ls) (l : ScriptLine) :
    e.source (.script (l :: ls)) = .script (l :: e.lines ls) :=
  congrArg _ (lines_cons h l)

theorem commutes_line : e.Commutes Source.line where
  suffix := by
    rintro ((_ | ⟨l, ls⟩) | _)
    · exact List.suffix_refl _
    · exact List.suffix_cons ..
    · exact List.suffix_refl _
  source := by
    rintro ((_ | ⟨l, ls⟩) | _) h
    · rw [source_nil h]
      exact congrArg (Taking.mk _ · _) (source_nil h).symm
    · have hsource : e.source (.script (l :: ls)) = _ := source_cons h l
      rw [hsource]
      rfl
    · rfl

end Splice

/-- A block that is captured from other lines is the same unless it reaches into those
    replaced. -/
theorem Capture.run_lines {e : Splice} {read : ScriptLine → Except Fault String} {c : Capture}
    {ls : List ScriptLine} (h : e.old <:+ (c.run read ls).rest) :
    c.run read (e.lines ls) = { c.run read ls with rest := e.lines (c.run read ls).rest } := by
  induction ls generalizing c with
  | nil =>
    show c.run read (e.lines []) = { c.run read [] with rest := e.lines [] }
    rw [Splice.lines_nil h]
    rfl
  | cons l ls ih =>
    -- The lines replaced are among those that are left, and so come after this one.
    have hrest : e.old <:+ ls := by
      refine h.trans ?_
      rw [run]
      split
      · exact List.suffix_refl _
      · split
        · exact run_rest_suffix
        · exact List.suffix_refl _
        · exact List.suffix_refl _
    rw [Splice.lines_cons hrest]
    rw [run] at h ⊢
    rw [run]
    cases hread : read l with
    | error f => rfl
    | ok line =>
      rw [hread] at h
      dsimp only at h ⊢
      cases hstep : c.step line with
      | more c' =>
        rw [hstep] at h
        dsimp only at h ⊢
        rw [ih h]
      | complete b => rfl
      | failed f => rfl

theorem Splice.commutes_block {e : Splice} (elseAllowed : Bool) :
    e.Commutes (Source.block elseAllowed) where
  suffix := by
    rintro (ls | _)
    · exact Capture.run_rest_suffix
    · exact List.suffix_refl _
  source := by
    rintro (ls | _) h
    · rw [source, Source.block, Capture.run_lines h]
      rfl
    · rfl

/-! ## Machines -/

namespace Machine

variable {e : Splice} {m : Machine} {t : Source} {suspended : List Source}

theorem outerLines_of_nil (h : m.suspended = []) : m.outerLines = m.source.lines := by
  rw [outerLines, h, List.getLastD_nil]

theorem outerLines_of_cons (h : m.suspended = t :: suspended) :
    m.outerLines = (suspended.getLastD t).lines := by
  rw [outerLines, h, List.getLastD_cons]

theorem outerLines_pushSource {source : Source} :
    (m.pushSource source).outerLines = m.outerLines := by
  have hs : (m.pushSource source).suspended = m.source :: m.suspended := rfl
  rw [outerLines_of_cons hs]
  rfl

theorem outerLines_enterFrame {bindings : List (String × Value)} :
    (m.enterFrame bindings).outerLines = m.outerLines := by
  rw [outerLines, source_enterFrame, suspended_enterFrame]
  rfl

theorem outerLines_leaveFrame {level : Nat} : (m.leaveFrame level).outerLines = m.outerLines := by
  rw [outerLines, source_leaveFrame, suspended_leaveFrame]
  rfl

theorem source_spliced_of_nil (h : m.suspended = []) :
    (m.spliced e).source = e.source m.source := by
  rw [spliced, h]
  rfl

theorem source_spliced_of_cons (h : m.suspended = t :: suspended) :
    (m.spliced e).source = m.source := by
  rw [spliced, h]
  rfl

theorem movedTo_spliced_of_nil (h : m.suspended = []) (source : Source) (n : Nat) :
    (m.spliced e).movedTo (e.source source) n = (m.movedTo source n).spliced e := by
  rw [spliced, spliced, movedTo, movedTo, h, Nat.add_right_comm]
  rfl

theorem movedTo_spliced_of_cons (h : m.suspended = t :: suspended) (source : Source) (n : Nat) :
    (m.spliced e).movedTo source n = (m.movedTo source n).spliced e := by
  rw [spliced, spliced, movedTo, movedTo, h, Nat.add_right_comm]
  rfl

namespace Onward

variable {m₁ m₂ m₃ : Machine}

theorem of_eq {m' : Machine} (hlines : m'.outerLines = m.outerLines) (hfiles : m'.files = m.files) :
    m.Onward m' where
  lines := hlines ▸ List.suffix_refl _
  files := hfiles

theorem refl (m : Machine) : m.Onward m := of_eq rfl rfl

theorem trans (h₁ : Onward m₁ m₂) (h₂ : Onward m₂ m₃) : Onward m₁ m₃ where
  lines := h₂.lines.trans h₁.lines
  files := h₂.files.trans h₁.files

/-- Lines are only ever taken from the start. -/
theorem movedTo {source : Source} (h : source.lines <:+ m.source.lines) (n : Nat) :
    m.Onward (m.movedTo source n) where
  lines := by
    cases hs : m.suspended with
    | nil =>
      rw [outerLines_of_nil hs, outerLines_of_nil (m := m.movedTo source n) hs]
      exact h
    | cons t suspended =>
      have heq : (m.movedTo source n).outerLines = m.outerLines :=
        (outerLines_of_cons (m := m.movedTo source n) hs).trans (outerLines_of_cons hs).symm
      exact heq ▸ List.suffix_refl _
  files := rfl

end Onward

end Machine

namespace Run

theorem after_taking {α : Type} (take : Source → Taking α) (m : Machine) :
    (taking take).after m = m.movedTo (take m.source).rest (take m.source).read :=
  after_ofExcept _ _

theorem readLine_eq_taking : readLine = taking Source.line := by
  funext m
  rw [readLine, taking, Source.line]
  rcases m.source.next with ⟨_ | _ | _, source⟩ <;> rfl

theorem captureBlock_eq_taking {m : Machine} (hc : m.cursors = []) (elseAllowed : Bool) :
    captureBlock elseAllowed m = taking (Source.block elseAllowed) m := by
  obtain ⟨scope, cursors, source, suspended, files, depth, strict, alive, line, output, world⟩ := m
  cases hc
  cases source <;> rfl

end Run

/-! ## The walk -/

/-- Along this walk the second run has other lines at the end of its outermost
    source, and need not follow once one of those replaced has been read. -/
def spliceWalk (e : Splice) : Walk where
  twin := Machine.spliced e
  holds _ := True
  leads := Machine.Onward
  lenient := False
  gone m := ¬e.old <:+ m.outerLines

namespace spliceWalk

variable {e : Splice} {m : Machine}

theorem leads {m' : Machine} (h : m.Onward m') : (spliceWalk e).leads m m' := h

theorem stays {m' : Machine} (hlines : m'.outerLines = m.outerLines) (hfiles : m'.files = m.files) :
    (spliceWalk e).leads m m' :=
  .of_eq hlines hfiles

theorem step {f : Machine → Machine} (hlines : (f m).outerLines = m.outerLines)
    (hfiles : (f m).files = m.files) (htwin : f (m.spliced e) = (f m).spliced e) :
    (spliceWalk e).Step f m :=
  ⟨trivial, .of_eq hlines hfiles, htwin⟩

theorem bracket {enter leave : Machine → Machine} (henter : m.Onward (enter m))
    (hleave : ∀ m' : Machine, m'.Onward (leave m'))
    (henter' : enter (m.spliced e) = (enter m).spliced e)
    (hleave' : ∀ m', leave (m'.spliced e) = (leave m').spliced e) :
    (spliceWalk e).Bracket (spliceWalk e).reach enter leave m where
  enter_holds := trivial
  enter_twin := henter'
  leave_holds _ _ _ := trivial
  leave_leads m' _ hl := henter.trans (.trans hl (hleave m'))
  leave_twin m' _ _ := hleave' m'
  leave_result _ _ _ _ hv := hv

/-- Something is taken from the active source, which is the outermost one or the same
    for both runs. -/
theorem taking {α : Type} {P : α → Machine → Prop} {take : Source → Taking α}
    (htake : e.Commutes take) (hP : ∀ v m, P v m) :
    (spliceWalk e).Couples P (Run.taking take) (Run.taking take) m := by
  refine Coupling.couples_of_ofExcept_of trivial (leads (.movedTo (htake.suffix m.source) _)) rfl
    (fun hkept => ?_) fun v _ => hP v _
  replace hkept := not_not.1 hkept
  show Run.taking take (m.spliced e) = Run.ofExcept _ (Machine.spliced e _)
  rw [Run.taking]
  cases hs : m.suspended with
  | nil =>
    rw [Machine.outerLines_of_nil (m := m.movedTo _ _) hs] at hkept
    rw [Machine.source_spliced_of_nil hs, htake.source _ hkept, Machine.movedTo_spliced_of_nil hs]
  | cons t suspended =>
    rw [Machine.source_spliced_of_cons hs, Machine.movedTo_spliced_of_cons hs]

/-- A line is taken from the active source. -/
theorem readLine {P : Option String → Machine → Prop} (hP : ∀ line m, P line m) :
    (spliceWalk e).Couples P Run.readLine Run.readLine m := by
  rw [Run.readLine_eq_taking]
  exact taking Splice.commutes_line hP

/-- A block is captured from one that is running, or from the active source. -/
theorem capture (elseAllowed : Bool) :
    (spliceWalk e).Couples (fun _ _ => True) (Run.captureBlock elseAllowed)
      (Run.captureBlock elseAllowed) m := by
  cases hc : m.cursors with
  | nil =>
    exact (taking (Splice.commutes_block elseAllowed) fun _ _ => trivial).congr
      (Run.captureBlock_eq_taking hc elseAllowed)
      (Run.captureBlock_eq_taking (m := m.spliced e) hc elseAllowed)
  | cons statements cursors =>
    refine Coupling.couples_of_ofExcept trivial ?_ (Run.captureBlock_of_cursor hc elseAllowed)
      (Run.captureBlock_of_cursor (m := m.spliced e) hc elseAllowed) fun _ _ => trivial
    exact stays rfl rfl

theorem frame (bindings : List (String × Value)) :
    (spliceWalk e).Bracket (spliceWalk e).reach (fun m => m.enterFrame bindings)
      (Machine.leaveFrame (m.enterFrame bindings).frames.level) m := by
  refine bracket (.of_eq Machine.outerLines_enterFrame Machine.files_enterFrame)
    (fun m' => .of_eq Machine.outerLines_leaveFrame Machine.files_leaveFrame) ?_
    fun m' => Machine.leaveFrame_hom (f := Machine.spliced e) rfl fun _ => rfl
  exact Machine.enterFrame_hom (f := Machine.spliced e) (fun _ => rfl) (fun _ _ _ => rfl) m bindings

theorem lawful : (spliceWalk e).Lawful where
  refl := .refl
  trans := .trans
  gone_mono hl hgone hold := hgone (hold.trans hl.lines)
  gone_of_sources {m m'} hs hsuspended hgone := by
    have hlines : m'.outerLines = m.outerLines := by
      rw [Machine.outerLines, Machine.outerLines, hs, hsuspended]
    exact fun hold => hgone (hlines ▸ hold)
  refer _ _ _ := ⟨step rfl rfl rfl, trivial⟩
  declare _ _ _ := ⟨step rfl rfl rfl, trivial⟩
  write _ _ _ _ _ _ := step rfl rfl rfl
  store _ _ := step rfl rfl rfl
  define _ _ _ _ := Coupling.couples_define rfl trivial (stays rfl rfl) fun _ =>
    ⟨step rfl rfl rfl, trivial⟩
  outward _ _ _ _ := step rfl rfl rfl
  strict _ _ := step rfl rfl rfl
  exit _ _ := Coupling.step_exitFrame rfl (fun _ => step rfl rfl rfl) fun _ => step rfl rfl rfl
  load _ _ _ := step Machine.outerLines_pushSource rfl rfl
  readLine _ _ := readLine fun _ _ _ _ _ _ => trivial
  capture elseAllowed _ _ := capture elseAllowed
  advance _ _ := Coupling.couples_advance rfl trivial (stays rfl rfl) (fun _ _ _ _ => trivial)
    fun _ => ⟨step rfl rfl rfl, fun _ _ _ _ => trivial⟩
  cursor _ _ _ := bracket (.of_eq rfl rfl) (fun _ => .of_eq rfl rfl) rfl fun _ => rfl
  frame _ _ _ := frame _
  deeper _ _ := bracket (.of_eq rfl rfl) (fun _ => .of_eq rfl rfl) rfl fun _ => rfl

theorem agree (e : Splice) (fuel : Nat) : (spliceWalk e).Agree (evaluate fuel) (evaluate fuel) :=
  lawful.agree_evaluate
    { permits := fun _ _ _ => Walk.permits_of_forall (fun _ => trivial) trivial } (.inl rfl)

/-- A statement is evaluated. -/
theorem evaluateLine (e : Splice) (m : Machine) (fuel : Nat) (line : String) :
    (spliceWalk e).Couples (spliceWalk e).value (Call.evaluateLine (evaluate fuel) line)
      (Call.evaluateLine (evaluate fuel) line) m :=
  Walk.couples_evaluateLine lawful (agree e fuel) trivial line fun _ _ => trivial

end spliceWalk

/-! ## The lines of statements -/

namespace Interpreter

variable {e : Splice} {m : Machine} {s : Source} {suspended : List Source}

/-- The outermost source stays where it is. -/
theorem getLastD_withoutFinished (s : Source) (suspended : List Source) :
    (withoutFinished s suspended).2.getLastD (withoutFinished s suspended).1 =
      suspended.getLastD s := by
  fun_induction withoutFinished s suspended with
  | case1 s suspended ih => rw [ih, List.getLastD_cons]
  | case2 s suspended hne => rfl

theorem outerLines_settled (m : Machine) : m.settled.outerLines = m.outerLines :=
  congrArg Source.lines (getLastD_withoutFinished m.source m.suspended)

/-- What is used up of the sources may be left out before they are spliced. -/
theorem withoutFinished_sources (s : Source) (suspended : List Source) :
    let p := withoutFinished s suspended
    withoutFinished (e.sources s suspended).1 (e.sources s suspended).2 =
      withoutFinished (e.sources p.1 p.2).1 (e.sources p.1 p.2).2 := by
  fun_induction withoutFinished s suspended with
  | case1 s suspended ih => exact ih
  | case2 s suspended hne => rfl

/-- The same sources are used up, as long as the outermost one is not used up just where
    it is spliced. -/
theorem settled_spliced (h : m.settled.suspended = [] → e.source m.settled.source = .script [] →
      e.below = []) : (m.spliced e).settled = m.settled.spliced e := by
  have hstay : withoutFinished (e.sources m.settled.source m.settled.suspended).1
      (e.sources m.settled.source m.settled.suspended).2 =
        e.sources m.settled.source m.settled.suspended := by
    cases hs : m.settled.suspended with
    | nil =>
      by_cases hsource : e.source m.settled.source = .script []
      · rw [Splice.sources, h hs hsource, withoutFinished_nil]
      · exact withoutFinished_of_ne hsource
    | cons t suspended =>
      have hne : (withoutFinished m.source m.suspended).2 ≠ [] :=
        fun hnil => List.cons_ne_nil t suspended (hs.symm.trans hnil)
      exact withoutFinished_of_ne (ne_nil_of_withoutFinished hne)
  have hsources := (withoutFinished_sources (e := e) m.source m.suspended).trans hstay
  rw [Machine.settled, Machine.spliced, hsources]
  rfl

theorem onward_readStatement (m : Machine) : m.Onward (readStatement.after m) := by
  refine .trans (.of_eq (outerLines_settled m) rfl) ?_
  show m.settled.Onward (Run.readLine.after m.settled)
  rw [Run.readLine_eq_taking, Run.after_taking]
  exact .movedTo ((Splice.commutes_line (e := .later 0)).suffix _) _

/-- A line is read in the same way, unless it is one of those that are replaced. -/
theorem readStatement_of_settled {m' : Machine} (hm' : m'.settled = m.settled.spliced e)
    (hold : e.old <:+ (readStatement.after m).outerLines) :
    readStatement m' =
      match readStatement m with
      | .ok line before => .ok line (before.spliced e)
      | .error f before => .error f (before.spliced e) := by
  have hread : (spliceWalk e).Couples (fun _ _ => True) Run.readLine Run.readLine m.settled :=
    spliceWalk.readLine fun _ _ => trivial
  rw [readStatement_eq, hm']
  cases h : readStatement m with
  | ok line before =>
    rw [Run.after_of_ok h] at hold
    exact (hread.ok h).1 (not_not.2 hold)
  | error f before =>
    rw [Run.after_of_error h] at hold
    exact (hread.error_strict id (fun _ => id) h).1 (not_not.2 hold)

end Interpreter

/-! ## Statements -/

/-- The exception some lines later. -/
def Exception.later (n : Nat) (e : Exception) : Exception :=
  { e with line := e.line + n }

namespace Session

variable {e : Splice} {fuel : Nat} {line : String} {m m' : Machine} {r : Result}

theorem afterFault_spliced (e : Splice) (m : Machine) :
    Interpreter.afterFault (m.spliced e) = (Interpreter.afterFault m).spliced e := by
  rw [Interpreter.afterFault, Interpreter.afterFault, apply_ite (Machine.spliced e)]
  rfl

theorem onward_afterFault (m : Machine) : m.Onward (Interpreter.afterFault m) := by
  rw [Interpreter.afterFault]
  split <;> exact .of_eq rfl rfl

theorem onward_statement (h : statement fuel line m = .ok r m') : m.Onward m' := by
  have hrun := spliceWalk.evaluateLine (.later 0) m fuel line
  rw [statement] at h
  split at h
  · cases h
    exact .of_eq rfl rfl
  · rw [Interpreter.interpret] at h
    split at h
    · rename_i heval
      cases h
      exact (hrun.ok heval).2.2.1
    · rename_i heval
      cases h
      exact .trans (hrun.error_strict id (fun _ => id) heval).2.2 (onward_afterFault _)
    · cases h

/-- A statement does the same where it leaves the lines that are replaced. -/
theorem statement_spliced (h : statement fuel line m = .ok r m') (hold : e.old <:+ m'.outerLines) :
    statement fuel line (m.spliced e) = .ok (r.mapError (·.later e.lag)) (m'.spliced e) := by
  have hrun := spliceWalk.evaluateLine e m fuel line
  rw [statement] at h ⊢
  split at h
  · rename_i hquit
    cases h
    rw [if_pos hquit]
    rfl
  · rename_i hquit
    rw [if_neg hquit]
    rw [Interpreter.interpret] at h ⊢
    split at h
    · rename_i v m₁ heval
      cases h
      have htwin : Call.evaluateLine (evaluate fuel) line (m.spliced e) = .ok v (m'.spliced e) :=
        (hrun.ok heval).1 (not_not.2 hold)
      rw [htwin]
      rfl
    · rename_i f m₁ heval
      cases h
      have htwin : Call.evaluateLine (evaluate fuel) line (m.spliced e) =
          .error (.fault f) (m₁.spliced e) :=
        (hrun.error_strict id (fun _ => id) heval).1
          (not_not.2 (hold.trans (onward_afterFault m₁).lines))
      rw [htwin, ← afterFault_spliced]
      rfl
    · cases h

end Session

end Linewise
