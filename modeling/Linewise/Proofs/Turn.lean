import Linewise.Proofs.Change
import Linewise.Session

/-!
# The turns of a session

In each turn of a session a line is read and its statement evaluated, and then the user is
told what it gave (`Session.turns_of_read`). To tell the user is to write (`Session.tell`), and
what is written may be refused, so a session can also end with a line that it cannot write.

* `Run.writeAll`: lines are written one after the other, until one is refused;
* `Session.Tells`: the lines that tell the user what a statement gave.
-/

namespace Linewise

namespace Run

/-- The step that writes lines, one after the other. -/
def writeAll : List String → Run Unit
  | [] => return ()
  | line :: lines => do
    write line
    writeAll lines

/-- All that the step does is to write lines: all of these, or those before one that is refused,
    with which it fails. -/
inductive Writes (x : Run Unit) (m : Machine) (lines : List String) : Prop
  | all (world : World) :
      x m = .ok () { m with world, output := m.output ++ lines.toArray } → Writes x m lines
  | refused (written left : List String) (line reason : String) (world : World) :
      lines = written ++ line :: left →
      x m = .error (.fault (.cannotWrite reason))
        { m with world, output := m.output ++ written.toArray } → Writes x m lines

variable {x y : Run Unit} {lines lines' : List String} {m : Machine}

theorem writeAll_singleton (line : String) : writeAll [line] = write line :=
  bind_pure (write line)

theorem writeAll_append (lines lines' : List String) :
    writeAll (lines ++ lines') = writeAll lines >>= fun _ => writeAll lines' := by
  induction lines with
  | nil => rw [List.nil_append, writeAll, pure_bind]
  | cons line lines ih => rw [List.cons_append, writeAll, writeAll, bind_assoc, ih]

theorem writes_write (m : Machine) (line : String) : (write line).Writes m [line] := by
  rcases hask : m.world.sink.ask line with ⟨reason | _, sink⟩
  · refine .refused [] [] line reason { m.world with sink } rfl ?_
    rw [write, hask, Array.append_empty]
  · refine .all { m.world with sink } ?_
    rw [write, hask, Array.append_singleton]

theorem Writes.bind (hx : x.Writes m lines) (hy : ∀ m', y.Writes m' lines') :
    (x >>= fun _ => y).Writes m (lines ++ lines') := by
  cases hx with
  | all world hx =>
    cases hy { m with world, output := m.output ++ lines.toArray } with
    | all world hy =>
      refine .all world ?_
      rw [bind_of_ok hx, hy, ← List.append_toArray, ← Array.append_assoc]
    | refused written left line reason world hlines hy =>
      refine .refused (lines ++ written) left line reason world ?_ ?_
      · rw [hlines, List.append_assoc]
      · rw [bind_of_ok hx, hy, ← List.append_toArray, ← Array.append_assoc]
  | refused written left line reason world hlines hx =>
    refine .refused written (left ++ lines') line reason world ?_ (bind_eq_error.2 (.inl hx))
    rw [hlines, List.append_assoc, List.cons_append]

theorem writes_writeAll (lines : List String) (m : Machine) :
    (writeAll lines).Writes m lines := by
  induction lines generalizing m with
  | nil =>
    refine .all m.world ?_
    rw [Array.append_empty]
    rfl
  | cons line lines ih => exact (writes_write m line).bind ih

/-- What the step does depends on the memory, on the world and on what has been written, and only
    the world and what has been written change. -/
def OnlyWrites (x : Run Unit) : Prop :=
  ∀ m : Machine, ∃ r world output, ∀ m' : Machine, m'.memory = m.memory → m'.world = m.world →
    m'.output = m.output → x m' = ofExcept r { m' with world, output }

theorem onlyWrites_write (line : String) : (write line).OnlyWrites := by
  intro m
  obtain ⟨r, world, output, -, h⟩ := write_eq m line
  exact ⟨r, world, output, fun m' _ => h m'⟩

theorem OnlyWrites.bind (hx : x.OnlyWrites) (hy : y.OnlyWrites) :
    (x >>= fun _ => y).OnlyWrites := by
  intro m
  obtain ⟨r, world, output, h⟩ := hx m
  cases r with
  | error f =>
    refine ⟨.error f, world, output, fun m' hmemory hworld houtput => ?_⟩
    exact bind_eq_error.2 (.inl (h m' hmemory hworld houtput))
  | ok _ =>
    obtain ⟨r, world', output', h'⟩ := hy { m with world, output }
    refine ⟨r, world', output', fun m' hmemory hworld houtput => ?_⟩
    rw [bind_of_ok (h m' hmemory hworld houtput)]
    exact h' { m' with world, output } hmemory rfl rfl

theorem OnlyWrites.after (hx : x.OnlyWrites) (m : Machine) :
    ∃ world output, x.after m = { m with world, output } := by
  obtain ⟨r, world, output, h⟩ := hx m
  refine ⟨world, output, ?_⟩
  rw [Run.after, h m rfl rfl rfl]
  exact after_ofExcept _ r

end Run

namespace Session

/-- What the statement on a line gives. The line `quit` ends the program. -/
def statement (fuel : Nat) (line : String) : Run Result :=
  if Text.trim line = "quit" then do
    modify Machine.kill
    return .ok .nil
  else Interpreter.interpret fuel line

/-- The user is told what a statement gave: the text of an exception, and with `echo` that of a
    value, or that it cannot be written. -/
def tell (echo : Bool) : Result → Run Unit
  | .error e => Run.write e.text
  | .ok v => do
    match ← Run.caught (writeValue echo v) with
    | .ok () => return ()
    | .error f => Run.write (Failure.unwritten f).text

/-- What is done after the last statement. -/
def conclude (echo : Bool) (r : Result) : Run Unit := do
  tell echo r
  Run.write farewell

/-- The lines that tell the user what a statement gave: the text of an exception, or with `echo`
    that of a value, unless it is `nil`. Of a value that the sink refuses they tell the reason.
    They are written when the sink has come to this state. -/
inductive Tells (echo : Bool) (m : Machine) : Result → List String → Sink → Prop
  | exception (e : Exception) : Tells echo m (.error e) [e.text] m.world.sink
  | silent {v : Value} : (echo && !v.isNil) = false → Tells echo m (.ok v) [] m.world.sink
  | value {v : Value} {sink : Sink} : (echo && !v.isNil) = true →
      m.world.sink.ask ("-> " ++ m.memory.text v) = (.ok (), sink) →
      Tells echo m (.ok v) ["-> " ++ m.memory.text v] m.world.sink
  | unwritten {v : Value} {reason : String} {sink : Sink} : (echo && !v.isNil) = true →
      m.world.sink.ask ("-> " ++ m.memory.text v) = (.error reason, sink) →
      Tells echo m (.ok v) [(Failure.unwritten (.cannotWrite reason)).text] sink

variable (echo : Bool) {fuel : Nat} {line : String} {r : Result} {m m' before after : Machine}

section

variable {echo} {v : Value}

theorem tell_of_silent (h : (echo && !v.isNil) = false) (m : Machine) :
    tell echo (.ok v) m = .ok () m := by
  rw [tell, writeValue, h]
  rfl

theorem caught_writeValue (h : (echo && !v.isNil) = true) (m : Machine) :
    Run.caught (writeValue echo v) m = Run.caught (Run.write ("-> " ++ m.memory.text v)) m := by
  rw [writeValue, h]
  rfl

theorem tell_of_written (h : (echo && !v.isNil) = true)
    (hw : Run.write ("-> " ++ m.memory.text v) m = .ok () m') :
    tell echo (.ok v) m = .ok () m' := by
  have hcaught : Run.caught (writeValue echo v) m = .ok (.ok ()) m' := by
    rw [caught_writeValue h, Run.caught, hw]
  rw [tell, Run.bind_of_ok hcaught]
  rfl

theorem tell_of_refused (h : (echo && !v.isNil) = true) {f : Fault}
    (hw : Run.write ("-> " ++ m.memory.text v) m = .error (.fault f) m') :
    tell echo (.ok v) m = Run.write (Failure.unwritten f).text m' := by
  have hcaught : Run.caught (writeValue echo v) m = .ok (.error f) m' := by
    rw [caught_writeValue h, Run.caught, hw]
  rw [tell, Run.bind_of_ok hcaught]

end

/-- To tell the user is to write. -/
theorem onlyWrites_tell (r : Result) : (tell echo r).OnlyWrites := by
  intro m
  cases r with
  | error e => exact Run.onlyWrites_write e.text m
  | ok v =>
    cases h : echo && !v.isNil with
    | false =>
      refine ⟨.ok (), m.world, m.output, fun m' _ hworld houtput => ?_⟩
      rw [tell_of_silent h, ← hworld, ← houtput]
      rfl
    | true =>
      -- The value is written, or else that it is refused.
      obtain ⟨r, world, output, -, hw⟩ := Run.write_eq m ("-> " ++ m.memory.text v)
      cases r with
      | ok _ =>
        refine ⟨.ok (), world, output, fun m' hmemory hworld houtput => ?_⟩
        exact tell_of_written h (hmemory ▸ hw m' hworld houtput)
      | error f =>
        obtain ⟨r, world', output', -, hw'⟩ :=
          Run.write_eq { m with world, output } (Failure.unwritten f).text
        refine ⟨r, world', output', fun m' hmemory hworld houtput => ?_⟩
        rw [tell_of_refused h (hmemory ▸ hw m' hworld houtput)]
        exact hw' { m' with world, output } rfl rfl

theorem onlyWrites_conclude (r : Result) : (conclude echo r).OnlyWrites :=
  (onlyWrites_tell echo r).bind (Run.onlyWrites_write farewell)

theorem exists_tells (m : Machine) (r : Result) :
    ∃ lines sink, Tells echo m r lines sink ∧
      tell echo r m = Run.writeAll lines { m with world.sink := sink } := by
  cases r with
  | error e =>
    refine ⟨_, _, .exception e, ?_⟩
    rw [Run.writeAll_singleton]
    rfl
  | ok v =>
    cases h : echo && !v.isNil with
    | false => exact ⟨_, _, .silent h, tell_of_silent h m⟩
    | true =>
      rcases hask : m.world.sink.ask ("-> " ++ m.memory.text v) with ⟨reason | _, sink⟩
      · have hw : Run.write ("-> " ++ m.memory.text v) m = .error (.fault (.cannotWrite reason))
            { m with world.sink := sink } := by
          rw [Run.write, hask]
        refine ⟨_, _, .unwritten h hask, ?_⟩
        rw [tell_of_refused h hw, Run.writeAll_singleton]
      · have hw : Run.write ("-> " ++ m.memory.text v) m = .ok ()
            { m with world.sink := sink, output := m.output.push ("-> " ++ m.memory.text v) } := by
          rw [Run.write, hask]
        refine ⟨_, _, .value h hask, ?_⟩
        rw [tell_of_written h hw, Run.writeAll_singleton, ← hw]

/-- The last thing that is done is to write some lines. -/
theorem exists_conclude (m : Machine) (r : Result) :
    ∃ lines sink, Tells echo m r lines sink ∧
      conclude echo r m = Run.writeAll (lines ++ [farewell]) { m with world.sink := sink } := by
  obtain ⟨lines, sink, htells, htell⟩ := exists_tells echo m r
  refine ⟨lines, sink, htells, ?_⟩
  rw [conclude, Run.bind_of_eq htell, Run.writeAll_append, Run.writeAll_singleton]

variable {echo}

theorem of_tell (h : tell echo r m = .ok () m') : ∃ world output, m' = { m with world, output } := by
  obtain ⟨world, output, hafter⟩ := (onlyWrites_tell echo r).after m
  exact ⟨world, output, (Run.after_of_ok h).symm.trans hafter⟩

theorem alive_of_tell (h : tell echo r m = .ok () m') : m'.alive = m.alive := by
  obtain ⟨world, output, rfl⟩ := of_tell h
  rfl

/-- What is done about a line: its statement is evaluated, the user is told, and another
    statement may follow as long as the program is alive. -/
theorem settle_reply (h : statement fuel line m = .ok r after) :
    (Session.reply echo fuel line >>= fun reply => settle (some reply)) m =
      (do tell echo r; return (← get).alive) after := by
  rw [statement] at h
  rw [reply]
  split at h
  · rename_i hquit
    cases h
    have hnil : (echo && !Value.nil.isNil) = false := Bool.and_false echo
    rw [if_pos hquit, Run.bind_of_ok (tell_of_silent hnil m.kill)]
    rfl
  · rename_i hquit
    rw [if_neg hquit, bind_assoc, Run.bind_of_ok h]
    cases r with
    | error e => rfl
    | ok v =>
      dsimp only
      rw [tell, bind_assoc, bind_assoc]
      refine Run.bind_congr rfl fun written m₁ _ => ?_
      cases written with
      | error f => rfl
      | ok _ =>
        show (settle (some (if m₁.alive then .done else .quit)) : Run Bool) m₁ = .ok m₁.alive m₁
        cases m₁.alive <;> rfl

theorem reply_of_error {e : Interrupt} (h : statement fuel line m = .error e after) :
    Session.reply echo fuel line m = .error e after := by
  rw [statement] at h
  rw [reply]
  split at h
  · cases h
  · rename_i hquit
    rw [if_neg hquit]
    exact Run.bind_eq_error.2 (.inl h)

variable {n : Nat}

/-- A session turn by turn. -/
theorem turns_of_read (hread : Interpreter.readStatement m = .ok (some line) before)
    (h : statement fuel line before = .ok r after) :
    turns echo fuel (n + 1) m =
      (do tell echo r; if after.alive then turns echo fuel n else Run.write farewell) after := by
  have hnext : (next echo fuel >>= settle) m = (do tell echo r; return (← get).alive) after := by
    rw [next, bind_assoc, Run.bind_of_ok hread]
    dsimp only
    rw [bind_map_left]
    exact settle_reply h
  have hturns : turns echo fuel (n + 1) = (next echo fuel >>= settle) >>= fun more =>
      if more then turns echo fuel n else Run.write farewell := by
    rw [turns, bind_assoc]
  rw [hturns, Run.bind_of_eq hnext, bind_assoc]
  refine Run.bind_congr rfl fun _ m₁ h₁ => ?_
  rw [← alive_of_tell h₁]
  rfl

theorem turns_of_told {m₁ : Machine}
    (hread : Interpreter.readStatement m = .ok (some line) before)
    (h : statement fuel line before = .ok r after) (htell : tell echo r after = .ok () m₁)
    (halive : after.alive = true) : turns echo fuel (n + 1) m = turns echo fuel n m₁ := by
  rw [turns_of_read hread h, Run.bind_of_ok htell, if_pos halive]

theorem turns_of_halted (hread : Interpreter.readStatement m = .ok (some line) before)
    (h : statement fuel line before = .ok r after) (hdead : after.alive = false) :
    turns echo fuel (n + 1) m = conclude echo r after := by
  rw [turns_of_read hread h, hdead]
  rfl

theorem turns_of_untold {e : Interrupt} {m₁ : Machine}
    (hread : Interpreter.readStatement m = .ok (some line) before)
    (h : statement fuel line before = .ok r after) (htell : tell echo r after = .error e m₁) :
    turns echo fuel (n + 1) m = .error e m₁ := by
  rw [turns_of_read hread h]
  exact Run.bind_eq_error.2 (.inl htell)

theorem turns_of_finished (hread : Interpreter.readStatement m = .ok none before) :
    turns echo fuel (n + 1) m = Run.write farewell before := by
  have hnext : next echo fuel m = .ok none before :=
    Run.bind_eq_ok.2 ⟨none, before, hread, rfl⟩
  rw [turns, Run.bind_of_ok hnext]
  rfl

theorem turns_of_unreadable {e : Interrupt}
    (hread : Interpreter.readStatement m = .error e before) :
    turns echo fuel (n + 1) m = .error e before := by
  have hnext : next echo fuel m = .error e before := Run.bind_eq_error.2 (.inl hread)
  exact Run.bind_eq_error.2 (.inl hnext)

theorem turns_of_error {e : Interrupt}
    (hread : Interpreter.readStatement m = .ok (some line) before)
    (h : statement fuel line before = .error e after) :
    turns echo fuel (n + 1) m = .error e after := by
  have hreply : (some <$> Session.reply echo fuel line) before = .error e after :=
    Run.bind_eq_error.2 (.inl (reply_of_error h))
  have hnext : next echo fuel m = .error e after :=
    Run.bind_eq_error.2 (.inr ⟨some line, before, hread, hreply⟩)
  exact Run.bind_eq_error.2 (.inl hnext)

theorem outOfFuel_of_statement {e : Interrupt} (h : statement fuel line m = .error e m') :
    e = .outOfFuel := by
  rw [statement] at h
  split at h
  · cases h
  · rw [Interpreter.interpret] at h
    split at h
    · cases h
    · cases h
    · cases h
      rfl

end Session

end Linewise
