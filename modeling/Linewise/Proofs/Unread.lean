import Linewise.Proofs.Change
import Linewise.Proofs.Readless
import Linewise.Proofs.Watch

/-!
# Evaluations that take no line

An evaluation takes lines from the source in two ways: it calls a function of the
standard library that does (`Machine.usesSource`), or it captures a block while
no block is running. One that does neither leaves the source as it is, and does
the same from any other source (`unreadWalk`).

That no block is captured can be seen in two ways:

* in the text, if no group that is evaluated outside of blocks may capture one;
* by watching the evaluation (`unreadWatch`).
-/

namespace Linewise

/-- The machine that has read `n` more lines, and reads from another source. -/
def Machine.movedTo (source : Source) (n : Nat) (m : Machine) : Machine :=
  { m with source, line := m.line + n }

/-- No line has been taken from the source. -/
structure Machine.Unread (m m' : Machine) : Prop where
  cursors : m'.cursors.length = m.cursors.length
  source : m'.source = m.source
  suspended : m'.suspended = m.suspended
  line : m'.line = m.line

namespace Machine.Unread

variable {m m₁ m₂ m' : Machine}

theorem trans (h₁ : Unread m m₁) (h₂ : Unread m₁ m₂) : Unread m m₂ :=
  ⟨h₂.cursors.trans h₁.cursors, h₂.source.trans h₁.source, h₂.suspended.trans h₁.suspended,
    h₂.line.trans h₁.line⟩

theorem leaveFrame {bindings : List (String × Value)} (h : Unread (m.enterFrame bindings) m')
    (level : Nat) : Unread m (m'.leaveFrame level) := by
  obtain ⟨frames, heq⟩ := m'.leaveFrame_eq level
  rw [heq]
  exact ⟨by simpa using h.cursors, by simpa using h.source, by simpa using h.suspended,
    by simpa using h.line⟩

theorem tail {statements : List String}
    (h : Unread { m with cursors := statements :: m.cursors } m') :
    Unread m { m' with cursors := m'.cursors.tail } :=
  ⟨by simp [h.cursors], h.source, h.suspended, h.line⟩

theorem ne_nil (h : Unread m m') (hc : m.cursors ≠ []) : m'.cursors ≠ [] :=
  fun hnil => hc (List.eq_nil_of_length_eq_zero (h.cursors ▸ hnil ▸ rfl))

theorem eq_nil (h : Unread m m') (hc : m.cursors = []) : m'.cursors = [] :=
  List.eq_nil_of_length_eq_zero (h.cursors.trans (hc ▸ rfl))

end Machine.Unread

/-- To call it uses the source. -/
def Machine.usesSource (m : Machine) : Callable → Bool
  | .function f =>
    match (m.memory.registry.get? f).map Function.body with
    | some (.native b) => b.usesSource
    | _ => false
  | .block _ => false

theorem Machine.usesSource_of_native {m : Machine} {f : FunctionRef} {F : Function} {b : Builtin}
    (hF : m.memory.registry.get? f = some F) (hbody : F.body = .native b) :
    m.usesSource (.function f) = b.usesSource := by
  rw [usesSource, hF, Option.map_some, hbody]

/-! ## The walk -/

/-- Along this walk no line is taken from the source, and the second run has
    another one. While no block is running, only the groups in `P` may be
    evaluated, and functions of the program only called if that is no
    restriction. -/
def unreadWalk (P : Group → Prop) (source : Source) (n : Nat) : Walk where
  twin := Machine.movedTo source n
  holds _ := True
  leads := Machine.Unread
  lenient := True
  group g m := m.cursors = [] → P g
  native b _ := b.usesSource = false
  enters m := m.cursors ≠ [] ∨ ∀ g, P g
  opens m := m.cursors ≠ []

namespace unreadWalk

variable {P : Group → Prop} {source : Source} {n : Nat} {m : Machine}

theorem step {f : Machine → Machine} (hc : (f m).cursors = m.cursors)
    (hs : (f m).source = m.source) (hsuspended : (f m).suspended = m.suspended)
    (hl : (f m).line = m.line) (htwin : f (m.movedTo source n) = (f m).movedTo source n) :
    (unreadWalk P source n).Step f m where
  holds := trivial
  leads := ⟨congrArg List.length hc, hs, hsuspended, hl⟩
  twin := htwin

/-- A block is captured from one that is running. -/
theorem capture (elseAllowed : Bool) (hc : m.cursors ≠ []) :
    (unreadWalk P source n).Couples (fun _ _ => True) (Run.captureBlock elseAllowed)
      (Run.captureBlock elseAllowed) m := by
  obtain ⟨statements, cursors, hcursors⟩ := List.exists_cons_of_ne_nil hc
  refine Coupling.couples_of_ofExcept trivial ?_ (Run.captureBlock_of_cursor hcursors elseAllowed)
    (Run.captureBlock_of_cursor (m := m.movedTo source n) hcursors elseAllowed) fun _ _ => trivial
  exact ⟨(congrArg List.length hcursors).symm, rfl, rfl, rfl⟩

theorem frame (bindings : List (String × Value)) :
    (unreadWalk P source n).Bracket (unreadWalk P source n).reach (fun m => m.enterFrame bindings)
      (Machine.leaveFrame (m.enterFrame bindings).frames.level) m where
  enter_holds := trivial
  enter_twin := Machine.enterFrame_hom (f := Machine.movedTo source n) (fun _ => rfl)
    (fun _ _ _ => rfl) m bindings
  leave_holds _ _ _ := trivial
  leave_leads _ _ hl := hl.leaveFrame _
  leave_twin _ _ _ := Machine.leaveFrame_hom (f := Machine.movedTo source n) rfl fun _ => rfl
  leave_result _ _ _ _ hv := hv

theorem lawful : (unreadWalk P source n).Lawful where
  refl m := ⟨rfl, rfl, rfl, rfl⟩
  trans := Machine.Unread.trans
  group_mono hl hg hnil := hg (List.eq_nil_of_length_eq_zero (hl.cursors.symm.trans (hnil ▸ rfl)))
  opens_mono hl ho := hl.ne_nil ho
  lines {m bindings g} _ he _ := by
    intro hnil
    refine he.resolve_left (fun hc => hc ?_) g
    exact Machine.cursors_enterFrame.symm.trans hnil
  refer _ _ _ := ⟨step rfl rfl rfl rfl rfl, trivial⟩
  declare _ _ _ := ⟨step rfl rfl rfl rfl rfl, trivial⟩
  write _ _ _ _ _ _ := step rfl rfl rfl rfl rfl
  store _ _ := step rfl rfl rfl rfl rfl
  define _ _ _ _ := Coupling.couples_define rfl trivial (by exact ⟨rfl, rfl, rfl, rfl⟩) fun _ =>
    ⟨step rfl rfl rfl rfl rfl, trivial⟩
  outward _ _ _ _ := step rfl rfl rfl rfl rfl
  strict _ _ := step rfl rfl rfl rfl rfl
  exit _ _ := Coupling.step_exitFrame rfl (fun _ => step rfl rfl rfl rfl rfl) fun _ =>
    step rfl rfl rfl rfl rfl
  load _ hn _ := nomatch hn
  readLine _ hn := nomatch hn
  capture elseAllowed _ ho := capture elseAllowed ho
  advance _ _ := Coupling.couples_advance rfl trivial (by exact ⟨rfl, rfl, rfl, rfl⟩)
    (fun _ => nofun) fun {_ statements cursors} hc =>
      ⟨⟨trivial, ⟨(congrArg List.length hc).symm, rfl, rfl, rfl⟩, rfl⟩,
        fun _ _ _ _ hnil => absurd hnil (List.cons_ne_nil statements cursors)⟩
  cursor _ _ _ := ⟨trivial, rfl, fun _ _ _ => trivial,
    fun _ _ hl => hl.tail, fun _ _ _ => rfl, fun _ _ _ _ hv => hv⟩
  frame _ _ _ := frame _
  deeper _ _ := ⟨trivial, rfl, fun _ _ _ => trivial,
    fun _ _ hl => ⟨hl.cursors, hl.source, hl.suspended, hl.line⟩, fun _ _ _ => rfl,
    fun _ _ _ _ hv => hv⟩

/-- What has been found not to use the source may be called where a frame may be
    entered. -/
theorem permits {c : Callable} (hc : m.usesSource c = false)
    (he : (unreadWalk P source n).enters m) : (unreadWalk P source n).permits c m := by
  refine Walk.permits_of_native ?_ he
  rintro f F b rfl hF hbody
  exact (Machine.usesSource_of_native hF hbody).symm.trans hc

end unreadWalk

/-! ## Watched evaluations -/

/-- No function is called that uses the source, and no group evaluated that may
    capture a block while none is running. -/
def unreadWatch : Watch where
  opens m := !m.cursors.isEmpty
  call c m := !m.usesSource c

theorem unreadWalk.watched (source : Source) (n : Nat) :
    (unreadWalk (fun _ => True) source n).Watched unreadWatch where
  opens _ := .inl trivial
  call _ _ := .inl trivial
  opened {g m} _ _ _ ho := by
    show m.cursors ≠ []
    intro hnil
    simp [unreadWatch, hnil] at ho
  permits _ _ hc := permits (by simpa [unreadWatch] using hc) (.inr fun _ => trivial)

/-- An evaluation that takes no line does the same from another source. -/
theorem unreadWalk.agree (source : Source) (n fuel : Nat) :
    (unreadWalk (fun _ => True) source n).Agree (unreadWatch.evaluate fuel) (evaluate fuel) :=
  lawful.agree_watched (watched source n) (.inl rfl)

end Linewise
