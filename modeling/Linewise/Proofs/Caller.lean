import Linewise.Proofs.Callee

/-!
# What a call sees of its callers

A function of the program finds its variables in the frames of its own call, and they
only refer to such ones again. So it does the same whatever its callers have in their
frames and in their variables: it gives the same value or fails in the same way,
writes the same lines, and leaves the same machine but for what is the callers'
(`call_ignores_callers`).

Like the variables of the callers in `Linewise.Proofs.Callee`, this is given up once
`exit` has left the frame of the call. A name on the rest of the line is then looked
up in the frame of the caller (`exit_shows_caller`). That a call looks nothing up
from then on is checked by watching it (`callerWatch`).
-/

namespace Linewise

/-! ## Other callers -/

/-- The frames `f` with those of `base` in place of the outermost ones. -/
def Frames.onto (base f : Frames) : Frames :=
  if f.level ≤ base.level then base
  else
    { top := f.top
      below := f.below.take (f.below.length - base.level) ++ base.toList }

namespace Frames

variable {base f : Frames}

theorem onto_of_le (h : f.level ≤ base.level) : base.onto f = base :=
  if_pos h

theorem onto_of_lt (h : base.level < f.level) :
    base.onto f =
      { top := f.top
        below := f.below.take (f.below.length - base.level) ++ base.toList } :=
  if_neg (Nat.not_le.2 h)

theorem level_onto (h : base.level ≤ f.level) : (base.onto f).level = f.level := by
  rcases Nat.lt_or_eq_of_le h with hlt | heq
  · rw [onto_of_lt hlt]
    simp only [level, List.length_append, List.length_take, length_toList] at hlt ⊢
    omega
  · rw [onto_of_le (Nat.le_of_eq heq.symm), heq]

theorem find?_onto (h : base.level < f.level) (name : String) :
    (base.onto f).find? name = f.find? name := by
  rw [onto_of_lt h]
  rfl

theorem bind_onto (h : base.level < f.level) (name : String) (r : VarRef) :
    (base.onto f).bind name r = base.onto (f.bind name r) := by
  have h' : base.level < (f.bind name r).level := h
  rw [onto_of_lt h, onto_of_lt h']
  rfl

/-- A frame above others stays above them. -/
theorem onto_above (h : base.level ≤ f.level) (top : Frame) :
    base.onto { top, below := f.toList } = { top, below := (base.onto f).toList } := by
  have habove : base.level < (⟨top, f.toList⟩ : Frames).level := Nat.lt_succ_of_le h
  rw [onto_of_lt habove, toList, List.length_cons]
  rcases Nat.lt_or_eq_of_le h with hlt | heq
  · have hsub : f.below.length + 1 - base.level = f.below.length - base.level + 1 :=
      Nat.succ_sub (Nat.le_of_lt_succ hlt)
    rw [onto_of_lt hlt, hsub, List.take_succ_cons, List.cons_append]
    rfl
  · have hle := Nat.le_of_eq heq.symm
    have hsub : f.below.length + 1 - base.level = 0 := Nat.sub_eq_zero_of_le hle
    rw [onto_of_le hle, hsub, List.take_zero, List.nil_append]

theorem push_onto (h : base.level ≤ f.level) : (base.onto f).push = base.onto f.push :=
  (onto_above h []).symm

theorem pop_onto (h : base.level < f.level) : (base.onto f).pop = base.onto f.pop := by
  obtain ⟨top, _ | ⟨next, below⟩⟩ := f
  · exact absurd h (Nat.not_lt.2 base.one_le_level)
  · exact congrArg pop (onto_above (f := ⟨next, below⟩) (Nat.le_of_lt_succ h) top)

end Frames

/-- The scope with `vars` in place of the first variables, and the frames of `base`
    in place of the outermost ones. -/
def Scope.withCallers (vars : Array Variable) (base : Frames) (s : Scope) : Scope where
  memory := { s.memory with vars := vars ++ s.memory.vars.drop vars.size }
  frames := base.onto s.frames

/-- The machine with `vars` in place of the first variables, and the frames of `base`
    in place of the outermost ones. -/
def Machine.withCallers (vars : Array Variable) (base : Frames) (m : Machine) : Machine :=
  { m with toScope := m.toScope.withCallers vars base }

theorem Machine.withCallers_eq {vars : Array Variable} {base : Frames} {m : Machine}
    (hsize : vars.size = m.memory.vars.size) (hlevel : base.level = m.frames.level) :
    m.withCallers vars base = { m with memory := { m.memory with vars }, frames := base } := by
  have hvars : vars ++ m.memory.vars.drop vars.size = vars := by grind
  rw [withCallers, Scope.withCallers, hvars, Frames.onto_of_le (Nat.le_of_eq hlevel.symm)]

namespace Scope

variable {vars : Array Variable} (base : Frames) {s : Scope}

theorem get?_withCallers {r : VarRef} (hr : vars.size ≤ r.index) :
    (s.withCallers vars base).memory.get? r = s.memory.get? r := by
  show (vars ++ s.memory.vars.drop vars.size)[r.index]? = s.memory.vars[r.index]?
  rw [Array.getElem?_append_right hr, Array.drop_eq_extract, Array.getElem?_extract, Nat.min_self,
    Nat.add_sub_cancel' hr]
  split
  · rfl
  · exact (Array.getElem?_eq_none (by omega)).symm

theorem size_withCallers (h : vars.size ≤ s.memory.vars.size) :
    (s.withCallers vars base).memory.vars.size = s.memory.vars.size := by
  show (vars ++ s.memory.vars.drop vars.size).size = s.memory.vars.size
  grind

theorem addVariable_withCallers (h : vars.size ≤ s.memory.vars.size) (v : Variable) :
    ((s.withCallers vars base).memory.addVariable v).2 =
      (Scope.withCallers vars base { s with memory := (s.memory.addVariable v).2 }).memory := by
  have hpush : (vars ++ s.memory.vars.drop vars.size).push v =
      vars ++ (s.memory.vars.push v).drop vars.size := by grind
  exact congrArg (fun vars => { s.memory with vars }) hpush

theorem write_withCallers {r : VarRef} (hr : vars.size ≤ r.index) (v : Value) :
    (s.withCallers vars base).memory.write r v =
      (Scope.withCallers vars base { s with memory := s.memory.write r v }).memory := by
  have hmodify :
      (vars ++ s.memory.vars.drop vars.size).modify r.index (fun w => { w with value := v }) =
        vars ++ (s.memory.vars.modify r.index fun w => { w with value := v }).drop vars.size := by
    grind
  exact congrArg (fun vars => { s.memory with vars }) hmodify

end Scope

/-! ## The walk -/

/-- A call from the scope `s₀` runs or has left its frame, and its variables only refer
    to its own. -/
structure Scope.Apart (s₀ s : Scope) : Prop where
  inside_or_outside : s₀.Inside s ∨ s₀.Outside s
  closed : s.memory.Closed (s₀.memory.vars.size ≤ ·.index) fun _ => True

namespace Scope.Apart

variable {s₀ s : Scope} (h : s₀.Apart s)

include h

theorem inside (hl : s₀.frames.level < s.frames.level) : s₀.Inside s :=
  h.inside_or_outside.resolve_right fun hout => Nat.ne_of_gt hl hout.level_eq

theorem size_le : s₀.memory.vars.size ≤ s.memory.vars.size :=
  h.inside_or_outside.elim (·.size_le) (·.size_le)

theorem intact : s.memory.registry.Intact :=
  h.inside_or_outside.elim (·.intact) (·.intact)

theorem level_le : s₀.frames.level ≤ s.frames.level :=
  h.inside_or_outside.elim (fun hin => Nat.le_of_lt hin.level_lt)
    fun hout => Nat.le_of_eq hout.level_eq.symm

end Scope.Apart

/-- Along this walk the second run has other callers: `vars` are their variables, in
    place of those in the scope `s₀`, and `base` their frames. A call that has left its
    frame may go on, but not where that concerns the frame of its caller. -/
def callerWalk (s₀ : Scope) (vars : Array Variable) (base : Frames) : Walk where
  twin := Machine.withCallers vars base
  holds m := s₀.Apart m.toScope
  leads m m' := m'.frames.level ≤ m.frames.level
  lenient := True
  var r _ := s₀.memory.vars.size ≤ r.index
  native b m := b = .exit → s₀.frames.level < m.frames.level
  looks m := s₀.frames.level < m.frames.level
  enters m := s₀.frames.level < m.frames.level
  assigns m := s₀.frames.level < m.frames.level

namespace callerWalk

variable {s₀ : Scope} {vars : Array Variable} {base : Frames} {m : Machine}

/-- The machine is changed, but not what is in scope. -/
theorem step {f : Machine → Machine} (hm : s₀.Apart m.toScope) (hf : (f m).toScope = m.toScope)
    (htwin : f (m.withCallers vars base) = (f m).withCallers vars base) :
    (callerWalk s₀ vars base).Step f m where
  holds := by
    show s₀.Apart (f m).toScope
    rwa [hf]
  leads := Nat.le_of_eq (congrArg (fun s : Scope => s.frames.level) hf)
  twin := htwin

theorem couples {α : Type} {P : α → Machine → Prop} {x : Run α} (hx : x.OffScope)
    (hm : s₀.Apart m.toScope) (hP : ∀ v m, P v m) : (callerWalk s₀ vars base).Couples P x x m := by
  have hscope := (hx m m.toScope).1
  refine hx.couples (Scope.withCallers vars base) (fun _ => rfl) ?_ ?_ hP
  · show s₀.Apart (x.after m).toScope
    rwa [hscope]
  · exact Nat.le_of_eq (congrArg (fun s : Scope => s.frames.level) hscope)

theorem found {symbol : String} {v : Value} (hm : s₀.Apart m.toScope)
    (hl : s₀.frames.level < m.frames.level) (hv : m.find? symbol = some v) :
    (callerWalk s₀ vars base).reach v m :=
  Scope.find?_within (fun _ hr => Frame.Within.find? (hm.inside hl).top hr)
    (fun _ _ => trivial) hv

theorem define {name : String} {names : List String} {body : Body}
    (hm : s₀.Apart m.toScope) (hbody : ∀ b, body ≠ .native b) :
    (callerWalk s₀ vars base).Couples (fun f _ => (callerWalk s₀ vars base).function f)
      (Run.define (.ofBody name names body)) (Run.define (.ofBody name names body)) m := by
  refine Coupling.couples_define rfl hm (Nat.le_refl m.frames.level) fun hdefine => ?_
  have hintact := (hm.intact.define hbody hdefine).1
  refine ⟨⟨⟨?_, hm.closed⟩, Nat.le_refl _, rfl⟩, trivial⟩
  exact hm.inside_or_outside.imp (·.registry hintact) (·.registry hintact)

section

variable (hsize : vars.size = s₀.memory.vars.size)

include hsize

theorem twin_memory (hm : s₀.Apart m.toScope) :
    m.memory.Alike ((callerWalk s₀ vars base).var · m) (m.withCallers vars base).memory where
  size_eq := Scope.size_withCallers base (hsize ▸ hm.size_le)
  names_eq := rfl
  functionName_eq := rfl
  blocks_eq := rfl
  get?_eq _ hr := Scope.get?_withCallers base (hsize ▸ hr)

theorem addVariable (hm : s₀.Apart m.toScope) {v : Variable} (hv : s₀.New v.value) :
    (callerWalk s₀ vars base).Step
      (fun m => { m with memory := (m.memory.addVariable v).2 }) m where
  holds :=
    { inside_or_outside := hm.inside_or_outside.imp (·.addVariable hv) (·.addVariable v)
      closed := hm.closed.addVariable hv }
  leads := Nat.le_refl _
  twin := by
    have hmemory := Scope.addVariable_withCallers base (s := m.toScope)
      (hsize ▸ hm.size_le) v
    exact congrArg (fun memory => { m.withCallers vars base with memory }) hmemory

theorem refer {r : VarRef} (hm : s₀.Apart m.toScope) (hr : s₀.memory.vars.size ≤ r.index) :
    (callerWalk s₀ vars base).Step (Machine.refer r) m ∧
      (callerWalk s₀ vars base).var ⟨m.memory.vars.size⟩ (m.refer r) :=
  ⟨addVariable hsize hm (v := ⟨Reference.variableName, .var r⟩) hr, hm.size_le⟩

theorem write {r : VarRef} {v : Value} (hm : s₀.Apart m.toScope)
    (hl : s₀.frames.level < m.frames.level) (hr : s₀.memory.vars.size ≤ r.index) (hv : s₀.New v) :
    (callerWalk s₀ vars base).Step (fun m => { m with memory := m.memory.write r v }) m where
  holds :=
    { inside_or_outside := .inl ((hm.inside hl).write hr hv)
      closed := hm.closed.write r hv }
  leads := Nat.le_refl _
  twin := by
    have hmemory := Scope.write_withCallers base (s := m.toScope) (hsize ▸ hr) v
    exact congrArg (fun memory => { m.withCallers vars base with memory }) hmemory

variable (hlevel : base.level = s₀.frames.level)

include hlevel

theorem declare_withCallers (hl : s₀.frames.level < m.frames.level)
    (hle : s₀.memory.vars.size ≤ m.memory.vars.size) (name : String) (v : Value) :
    ((m.withCallers vars base).declare name v).2 = (m.declare name v).2.withCallers vars base := by
  have hmemory := Scope.addVariable_withCallers base (s := m.toScope)
    (Nat.le_trans (Nat.le_of_eq hsize) hle) ⟨name, v⟩
  have hplace := Scope.size_withCallers base (s := m.toScope)
    (Nat.le_trans (Nat.le_of_eq hsize) hle)
  have hframes := Frames.bind_onto (hlevel ▸ hl : base.level < m.frames.level) name
    ⟨m.memory.vars.size⟩
  show ({ m with
    memory := ((m.toScope.withCallers vars base).memory.addVariable ⟨name, v⟩).2
    frames := (base.onto m.frames).bind name
      ⟨(m.toScope.withCallers vars base).memory.vars.size⟩ } : Machine) = _
  rw [hmemory, hplace, hframes]
  rfl

theorem declare {name : String} {v : Value} (hm : s₀.Apart m.toScope)
    (hl : s₀.frames.level < m.frames.level) (hv : s₀.New v) :
    (callerWalk s₀ vars base).Step (fun m => (m.declare name v).2) m ∧
      (callerWalk s₀ vars base).var (m.declare name v).1 (m.declare name v).2 := by
  have hin := hm.inside hl
  have hnew : s₀.Inside (m.declare name v).2.toScope :=
    (hin.addVariable (v := ⟨name, v⟩) hv).bind hin.size_le name
  refine ⟨⟨⟨.inl hnew, hnew.closed⟩, Nat.le_refl _, ?_⟩, hin.size_le⟩
  exact declare_withCallers hsize hlevel hl hin.size_le name v

omit hsize in
theorem pop (hm : s₀.Apart m.toScope) (hl : s₀.frames.level < m.frames.level) :
    (callerWalk s₀ vars base).Step (fun m => { m with frames := m.frames.pop }) m where
  holds := ⟨(hm.inside hl).pop, hm.closed⟩
  leads := (calleeWalk.pop hm.inside_or_outside hl).leads
  twin := by
    have hframes := Frames.pop_onto (hlevel ▸ hl : base.level < m.frames.level)
    exact congrArg (fun frames => { m.withCallers vars base with frames }) hframes

theorem enterFrame_withCallers {bindings : List (String × Value)} (hm : s₀.Apart m.toScope) :
    (m.withCallers vars base).enterFrame bindings =
      (m.enterFrame bindings).withCallers vars base := by
  have hle : s₀.memory.vars.size ≤ m.memory.vars.size := hm.size_le
  have hl : s₀.frames.level < m.frames.push.level := Nat.lt_succ_of_le hm.level_le
  refine Machine.enterFrame_hom_of (f := Machine.withCallers vars base)
    (motive := fun m => s₀.frames.level < m.frames.level ∧
      s₀.memory.vars.size ≤ m.memory.vars.size) ?_ ⟨hl, hle⟩ ?_ bindings
  · have hframes := Frames.push_onto (hlevel ▸ hm.level_le : base.level ≤ m.frames.level)
    exact congrArg (fun frames => { m.withCallers vars base with frames }) hframes
  · rintro m ⟨hl, hle⟩ name v
    refine ⟨declare_withCallers hsize hlevel hl hle name v, hl, ?_⟩
    exact Nat.le_trans hle (Nat.le_trans (Nat.le_succ _) (Nat.le_of_eq (Array.size_push _).symm))

/-- A frame above those of the caller is entered, and left again. -/
theorem frame {bindings : List (String × Value)} (hm : s₀.Apart m.toScope)
    (henter : s₀.Inside (m.enterFrame bindings).toScope) :
    (callerWalk s₀ vars base).Bracket (callerWalk s₀ vars base).reach
      (fun m => m.enterFrame bindings)
      (Machine.leaveFrame (m.enterFrame bindings).frames.level) m := by
  -- What is left after `leaveFrame` is known from the walk of the callee.
  have hcallee := calleeWalk.frame hm.level_le henter
  have hbelow : s₀.frames.level < (m.enterFrame bindings).frames.level := henter.level_lt
  exact {
    enter_holds := ⟨.inl henter, henter.closed⟩
    enter_twin := enterFrame_withCallers hsize hlevel hm
    leave_holds := fun m' hm' hl => by
      refine ⟨hcallee.leave_holds m' hm'.inside_or_outside hl, ?_⟩
      obtain ⟨frames, h⟩ := m'.leaveFrame_eq (m.enterFrame bindings).frames.level
      rw [h]
      exact hm'.closed
    leave_leads := fun m' hm' hl => hcallee.leave_leads m' hm'.inside_or_outside hl
    leave_twin := fun m' hm' _ =>
      Machine.leaveFrame_hom (Frames.level_onto (hlevel ▸ hm'.level_le)) fun hle =>
        (pop hlevel hm' (Nat.lt_of_lt_of_le hbelow hle)).twin
    leave_result := fun _ _ _ _ hv => hv }

theorem lawful : (callerWalk s₀ vars base).Lawful where
  refl m := Nat.le_refl m.frames.level
  trans h₁ h₂ := Nat.le_trans h₂ h₁
  var_mono _ hr := hr
  twin_memory hm := twin_memory hsize hm
  twin_level hm := Frames.level_onto (hlevel ▸ hm.level_le)
  twin_find? _ hl := Frames.find?_onto (hlevel ▸ hl)
  closed hm := hm.closed
  found hm hl _ hv := found hm hl hv
  bound hm hl hr := Frame.Within.find? (hm.inside hl).top hr
  defaults hm hf hv := hm.intact.eq_nil_of_default hf hv ▸ trivial
  looks_of_assigns _ ha := ha
  refer hm _ hr := refer hsize hm hr
  looks_refer _ hl := hl
  declare hm ha hv := declare hsize hlevel hm ha hv.1
  write hm ha _ _ hr hv := write hsize hm ha hr hv.1
  store hm _ := ⟨⟨hm.inside_or_outside.imp (·.addBlock _) (·.addBlock _), hm.closed⟩,
    Nat.le_refl _, rfl⟩
  define hm _ hbody _ := define hm hbody
  outward _ _ hm _ := step hm rfl rfl
  strict _ hm := step hm rfl rfl
  exit hm hn := Coupling.step_exitFrame (Frames.level_onto (hlevel ▸ hm.level_le))
    (fun _ => pop hlevel hm (hn rfl)) fun _ => step hm rfl rfl
  load hm _ _ := step hm rfl rfl
  readLine hm _ := couples Run.offScope_readLine hm fun _ _ _ _ _ _ => trivial
  capture e hm _ := couples (Run.offScope_captureBlock e) hm fun _ _ => trivial
  advance hm _ := couples Run.offScope_advance hm fun _ _ _ _ _ _ => trivial
  cursor hm _ _ := ⟨hm, rfl, fun _ hm' _ => hm', fun _ _ hl => hl, fun _ _ _ => rfl,
    fun _ _ _ _ hv => hv⟩
  frame hm he hb := frame hsize hlevel hm
    (Machine.inside_enterFrame (hm.inside he).push fun b hmem => (hb b hmem).1)
  deeper hm _ := ⟨hm, rfl, fun _ hm' _ => hm', fun _ _ hl => hl, fun _ _ _ => rfl,
    fun _ _ _ _ hv => hv⟩

end

end callerWalk

/-! ## Calls -/

/-- Once a call from the scope `s₀` has left its frame, no further group is evaluated,
    no variable is given a value, and no expression goes on that has more in it than the
    call of `exit` and its argument. -/
def callerWatch (s₀ : Scope) : Watch where
  look m := s₀.frames.level < m.frames.level
  call _ m := s₀.frames.level < m.frames.level
  assign m := s₀.frames.level < m.frames.level

theorem callerWalk.watched (s₀ : Scope) (vars : Array Variable) (base : Frames) :
    (callerWalk s₀ vars base).Watched (callerWatch s₀) where
  look _ := .inl trivial
  call _ _ := .inl trivial
  assign _ := .inl trivial
  looks {m} _ hl := by
    show s₀.frames.level < m.frames.level
    exact of_decide_eq_true hl
  permits {c m} _ _ hc := by
    have hl : s₀.frames.level < m.frames.level := of_decide_eq_true hc
    exact Walk.permits_of_forall (fun _ _ => hl) hl
  assigns {m} _ ha := by
    show s₀.frames.level < m.frames.level
    exact of_decide_eq_true ha

/-- The call ends, and looks nothing up once `exit` has left its frame. -/
def Call.StopsAtExit (fuel : Nat) (f : FunctionRef) (arg : Value) (m : Machine) : Prop :=
  ∀ m', Call.function ((callerWatch m.toScope).evaluate fuel) f arg m ≠ .error .outOfFuel m'

/-- A watched call is the same with other callers. -/
theorem callerWalk.couples_function {m : Machine} {vars : Array Variable} {base : Frames}
    (hsize : vars.size = m.memory.vars.size) (hlevel : base.level = m.frames.level)
    (hm : m.memory.registry.Intact) {f : FunctionRef} {F : Function}
    (hf : m.memory.registry.get? f = some F) (hbody : ∀ b, F.body ≠ .native b) {arg : Value}
    (harg : arg.Within (fun _ => False) fun _ => True) (fuel : Nat) :
    (callerWalk m.toScope vars base).Couples (callerWalk m.toScope vars base).value
      (Call.function ((callerWatch m.toScope).evaluate fuel) f arg)
      (Call.function (evaluate fuel) f arg) m := by
  have hpush := Scope.inside_push hm
  have hstart : m.toScope.Apart m.toScope :=
    ⟨.inr ⟨⟨Nat.le_refl _, fun _ _ => rfl⟩, hm, rfl⟩, hpush.closed⟩
  have hlawful : (callerWalk m.toScope vars base).Lawful := lawful hsize hlevel
  refine Walk.couples_function_of_frame hlawful
    (hlawful.agree_watched (watched m.toScope vars base) (.inl rfl)) hstart
    ⟨harg.imp (fun _ => False.elim) fun _ => id, trivial⟩ hf rfl hbody (fun bindings hb => ?_)
    fun _ _ _ => trivial
  exact frame hsize hlevel hstart
    (Machine.inside_enterFrame hpush (Machine.new_of_bind hm hf harg hb))

/-- A call of a function of the program, with an argument that holds no variable, does
    not depend on its callers, provided that it looks nothing up after `exit` has left
    its frame: if there are other variables in their frames, it gives the same value or
    fails in the same way, and leaves the same machine but for those variables and
    frames.

    Variables are known by their places in memory, and so there are as many in both;
    a memory that has fewer may be filled up with ones that are in no frame. -/
theorem call_ignores_callers {m : Machine} (hm : m.memory.registry.Intact) {f : FunctionRef}
    {F : Function} (hf : m.memory.registry.get? f = some F) (hbody : ∀ b, F.body ≠ .native b)
    {arg : Value} (harg : arg.Within (fun _ => False) fun _ => True) {vars : Array Variable}
    (hsize : vars.size = m.memory.vars.size) {frames : Frames}
    (hlevel : frames.level = m.frames.level) {fuel : Nat}
    (hend : Call.StopsAtExit fuel f arg m) :
    Call.function (evaluate fuel) f arg { m with memory := { m.memory with vars }, frames } =
      match Call.function (evaluate fuel) f arg m with
      | .ok v m' => .ok v (m'.withCallers vars frames)
      | .error e m' => .error e (m'.withCallers vars frames) := by
  have hcouples := callerWalk.couples_function hsize hlevel hm hf hbody harg fuel
  rw [← Watch.function_eq _ hend, ← Machine.withCallers_eq hsize hlevel]
  cases h : Call.function ((callerWatch m.toScope).evaluate fuel) f arg m with
  | ok v m' => exact (hcouples.ok h).1 id
  | error e m' =>
    rcases hcouples.error h with (⟨-, rfl⟩ | hexcused) | ⟨h', -, -⟩
    · exact absurd h (hend m')
    · cases hexcused
    · exact h' id

/-- With the body `while x, exit(x)`, the function leaves its frame from within a loop,
    whatever is called `x` in the frame of its caller. -/
theorem call_ignores_callers_while :
    let m := ((Machine.withFunction ["x"]
      [.symbol "while", .symbol "x", .symbol ",", .symbol "exit", .group [.symbol "x"]]).declare
      "x" .nil).2
    let vars := #[⟨"y", .boolean false⟩]
    let frames := ⟨[("y", ⟨0⟩)], []⟩
    Call.StopsAtExit 9 ⟨6⟩ (.boolean true) m ∧
      Call.function (evaluate 9) ⟨6⟩ (.boolean true)
          { m with memory := { m.memory with vars }, frames } =
        match Call.function (evaluate 9) ⟨6⟩ (.boolean true) m with
        | .ok v m' => .ok v (m'.withCallers vars frames)
        | .error e m' => .error e (m'.withCallers vars frames) := by
  intro m vars frames
  have hend : Call.StopsAtExit 9 ⟨6⟩ (.boolean true) m := by
    intro m' h
    cases h
  have hm : m.memory.registry.Intact := Machine.intact_withFunction ..
  have hf : m.memory.registry.get? ⟨6⟩ = some _ := Machine.get?_withFunction ..
  have hsize : vars.size = m.memory.vars.size := rfl
  have hlevel : Frames.level frames = m.frames.level := rfl
  have harg : (Value.boolean true).Within (fun _ => False) fun _ => True := trivial
  clear_value m vars frames
  exact ⟨hend, call_ignores_callers hm hf nofun harg hsize hlevel hend⟩

/-- With the body `exit(yes) and x`, the function leaves its frame, and then looks up `x`
    in the frame of its caller. -/
theorem exit_shows_caller :
    let m := ((Machine.withFunction []
      [.symbol "exit", .group [.symbol "yes"], .symbol "and", .symbol "x"]).declare "y" .nil).2
    let vars := #[⟨"x", .boolean false⟩]
    let frames := ⟨[("x", ⟨0⟩)], []⟩
    m.memory.registry.Intact ∧ (Value.list []).Within (fun _ => False) (fun _ => True) ∧
      vars.size = m.memory.vars.size ∧ Frames.level frames = m.frames.level ∧
      (∃ m', Call.function (evaluate 9) ⟨6⟩ (.list []) m =
        .error (.fault (.unknownName "x")) m') ∧
      ∃ m', Call.function (evaluate 9) ⟨6⟩ (.list [])
        { m with memory := { m.memory with vars }, frames } = .ok (.boolean false) m' :=
  ⟨Machine.intact_withFunction .., trivial, rfl, rfl, ⟨_, rfl⟩, _, rfl⟩

end Linewise
