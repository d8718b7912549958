import Linewise.Proofs.Library
import Linewise.Proofs.Watch

/-!
# What a call leaves alone

A function of the program runs in a frame of its own, above those of its
callers. While it does, all variables it can get hold of are newer than the call
(`Inside`): it finds them in its own frames, and they only refer to such ones
again. So those of the callers stay as they were (`Spares`).

This ends when `exit` leaves the frame of the call (`Outside`). What is still to
be evaluated of the function then finds the variables of the caller, and can give
them values, and a second `exit` leaves the frame of the caller itself
(`exit_reaches_caller`). But a call that does not go on like that after `exit`
leaves the frames and the variables of its callers alone
(`call_spares_callers`). That it does not go on is checked by watching the call
(`calleeWatch`).
-/

namespace Linewise

/-! ## Variables of a frame -/

/-- All variables of the frame are at the given place or after it. -/
def Frame.From (n : Nat) : Frame → Prop :=
  Frame.Within (n ≤ ·.index)

/-- All frames, the innermost first. -/
def Frames.toList (f : Frames) : List Frame :=
  f.top :: f.below

theorem Frames.length_toList (f : Frames) : f.toList.length = f.level := rfl

/-! ## Inside and outside of a call -/

/-- The variables that exist in the scope `s₀` are as they were. -/
structure Scope.Spares (s₀ s : Scope) : Prop where
  size_le : s₀.memory.vars.size ≤ s.memory.vars.size
  get?_eq : ∀ r, r.index < s₀.memory.vars.size → s.memory.get? r = s₀.memory.get? r

/-- A call from the scope `s₀` runs, and has not left its frame. -/
structure Scope.Inside (s₀ s : Scope) : Prop extends Scope.Spares s₀ s where
  intact : s.memory.registry.Intact
  top : s.frames.top.From s₀.memory.vars.size
  below : ∃ own, s.frames.below = own ++ s₀.frames.toList ∧
    ∀ f ∈ own, Frame.From s₀.memory.vars.size f
  closed : s.memory.Closed (s₀.memory.vars.size ≤ ·.index) fun _ => True

/-- A call from the scope `s₀` has left its frame. -/
structure Scope.Outside (s₀ s : Scope) : Prop extends Scope.Spares s₀ s where
  intact : s.memory.registry.Intact
  frames_eq : s.frames = s₀.frames

namespace Scope

variable {s₀ s : Scope}

/-- Values that only refer to variables newer than the call. -/
def New (s₀ : Scope) (v : Value) : Prop :=
  v.Within (s₀.memory.vars.size ≤ ·.index) fun _ => True

theorem Inside.level_lt (h : s₀.Inside s) : s₀.frames.level < s.frames.level := by
  obtain ⟨own, hbelow, -⟩ := h.below
  unfold Frames.level
  rw [hbelow, List.length_append, Frames.length_toList, Frames.level]
  omega

theorem Spares.addVariable (h : s₀.Spares s) (v : Variable) :
    s₀.Spares { s with memory := (s.memory.addVariable v).2 } where
  size_le :=
    Nat.le_trans h.size_le (Nat.le_trans (Nat.le_succ _) (Nat.le_of_eq (Array.size_push _).symm))
  get?_eq r hr := by
    rw [Memory.get?_addVariable, if_neg, h.get?_eq r hr]
    exact Nat.ne_of_lt (Nat.lt_of_lt_of_le hr h.size_le)

theorem Spares.write (h : s₀.Spares s) {r : VarRef} (hr : s₀.memory.vars.size ≤ r.index)
    (v : Value) : s₀.Spares { s with memory := s.memory.write r v } where
  size_le := Nat.le_trans h.size_le (Nat.le_of_eq Array.size_modify.symm)
  get?_eq r' hr' := by
    rw [Memory.get?_write, if_neg, h.get?_eq r' hr']
    exact Nat.ne_of_gt (Nat.lt_of_lt_of_le hr' hr)

namespace Inside

variable (h : s₀.Inside s)

include h

theorem addVariable {v : Variable} (hv : s₀.New v.value) :
    s₀.Inside { s with memory := (s.memory.addVariable v).2 } where
  toSpares := h.toSpares.addVariable v
  intact := h.intact
  top := h.top
  below := h.below
  closed := h.closed.addVariable hv

theorem write {r : VarRef} (hr : s₀.memory.vars.size ≤ r.index) {v : Value} (hv : s₀.New v) :
    s₀.Inside { s with memory := s.memory.write r v } where
  toSpares := h.toSpares.write hr v
  intact := h.intact
  top := h.top
  below := h.below
  closed := h.closed.write r hv

theorem bind {r : VarRef} (hr : s₀.memory.vars.size ≤ r.index) (name : String) :
    s₀.Inside { s with frames := s.frames.bind name r } where
  toSpares := ⟨h.size_le, h.get?_eq⟩
  intact := h.intact
  top := Frame.Within.bind h.top hr
  below := h.below
  closed := h.closed

theorem push : s₀.Inside { s with frames := s.frames.push } where
  toSpares := ⟨h.size_le, h.get?_eq⟩
  intact := h.intact
  top := nofun
  below := by
    obtain ⟨own, hbelow, hown⟩ := h.below
    refine ⟨s.frames.top :: own, ?_, List.forall_mem_cons.2 ⟨h.top, hown⟩⟩
    rw [Frames.push, hbelow, List.cons_append]
  closed := h.closed

theorem pop : s₀.Inside { s with frames := s.frames.pop } ∨
    s₀.Outside { s with frames := s.frames.pop } := by
  -- The frame left is the call's own, or one above it.
  obtain ⟨own, hbelow, hown⟩ := h.below
  rcases own with _ | ⟨f, own⟩
  · refine .inr ⟨⟨h.size_le, h.get?_eq⟩, h.intact, ?_⟩
    rw [Frames.pop_of_below hbelow]
  · rw [List.forall_mem_cons] at hown
    rw [List.cons_append] at hbelow
    refine .inl ⟨⟨h.size_le, h.get?_eq⟩, h.intact, ?_, ⟨own, ?_, hown.2⟩, h.closed⟩
    · rw [Frames.pop_of_below hbelow]
      exact hown.1
    · rw [Frames.pop_of_below hbelow]

theorem registry {registry : Registry} (hr : registry.Intact) :
    s₀.Inside { s with memory := { s.memory with registry } } where
  toSpares := ⟨h.size_le, h.get?_eq⟩
  intact := hr
  top := h.top
  below := h.below
  closed := h.closed

theorem addBlock (b : Block) : s₀.Inside { s with memory := (s.memory.addBlock b).2 } where
  toSpares := ⟨h.size_le, h.get?_eq⟩
  intact := h.intact
  top := h.top
  below := h.below
  closed := h.closed

end Inside

namespace Outside

variable (h : s₀.Outside s)

include h

theorem level_eq : s.frames.level = s₀.frames.level :=
  congrArg Frames.level h.frames_eq

theorem addVariable (v : Variable) :
    s₀.Outside { s with memory := (s.memory.addVariable v).2 } where
  toSpares := h.toSpares.addVariable v
  intact := h.intact
  frames_eq := h.frames_eq

theorem registry {registry : Registry} (hr : registry.Intact) :
    s₀.Outside { s with memory := { s.memory with registry } } where
  toSpares := ⟨h.size_le, h.get?_eq⟩
  intact := hr
  frames_eq := h.frames_eq

theorem addBlock (b : Block) : s₀.Outside { s with memory := (s.memory.addBlock b).2 } where
  toSpares := ⟨h.size_le, h.get?_eq⟩
  intact := h.intact
  frames_eq := h.frames_eq

end Outside

/-- A call enters a frame, and is inside of it. -/
theorem inside_push (h : s₀.memory.registry.Intact) :
    s₀.Inside { s₀ with frames := s₀.frames.push } where
  size_le := Nat.le_refl _
  get?_eq _ _ := rfl
  intact := h
  top := nofun
  below := ⟨[], rfl, nofun⟩
  closed r hr := by
    have hget : s₀.memory.get? r = none := Array.getElem?_eq_none hr
    rw [Memory.read, hget]
    trivial

end Scope

/-- The variables of a call are new if its arguments are. -/
theorem Machine.inside_enterFrame {s₀ : Scope} {m : Machine} {bindings : List (String × Value)}
    (h : s₀.Inside { m.toScope with frames := m.frames.push })
    (hb : ∀ b ∈ bindings, s₀.New b.2) : s₀.Inside (m.enterFrame bindings).toScope := by
  refine enterFrame_induction (motive := fun m => s₀.Inside m.toScope) h ?_
  intro m hm b hmem
  exact (hm.addVariable (v := ⟨b.1, b.2⟩) (hb b hmem)).bind hm.size_le b.1

/-! ## The walk -/

/-- Along this walk the variables of the caller, whose scope is `s₀`, are left
    alone. A call that has left its frame may go on, but not where that concerns
    the frame of its caller. -/
def calleeWalk (s₀ : Scope) : Walk where
  twin := id
  holds m := s₀.Inside m.toScope ∨ s₀.Outside m.toScope
  leads m m' := m'.frames.level ≤ m.frames.level
  lenient := True
  var r m := s₀.frames.level < m.frames.level → s₀.memory.vars.size ≤ r.index
  native b m := b = .exit → 1 < m.frames.level → s₀.frames.level < m.frames.level
  enters m := s₀.frames.level < m.frames.level
  assigns m := s₀.frames.level < m.frames.level

namespace calleeWalk

variable {s₀ : Scope} {m : Machine}

theorem inside (hm : (calleeWalk s₀).holds m) (hl : s₀.frames.level < m.frames.level) :
    s₀.Inside m.toScope :=
  hm.resolve_right fun h => Nat.ne_of_gt hl h.level_eq

theorem new (hl : s₀.frames.level < m.frames.level) {v : Value} (hv : (calleeWalk s₀).reach v m) :
    s₀.New v :=
  hv.imp (fun _ hr => hr hl) fun _ => id

/-- Outside of its frame a call may get hold of any variable. -/
theorem reach_of_new {v : Value}
    (hv : s₀.frames.level < m.frames.level → s₀.New v) : (calleeWalk s₀).reach v m := by
  by_cases hl : s₀.frames.level < m.frames.level
  · exact (hv hl).imp (fun _ hr _ => hr) fun _ => id
  · exact .of_forall (fun _ h => absurd h hl) fun _ => trivial

theorem step {f : Machine → Machine} (hm : (calleeWalk s₀).holds m)
    (hf : (f m).toScope = m.toScope) : (calleeWalk s₀).Step f m where
  holds := by
    show s₀.Inside (f m).toScope ∨ s₀.Outside (f m).toScope
    rw [hf]
    exact hm
  leads := Nat.le_of_eq (congrArg (fun s : Scope => s.frames.level) hf)
  twin := rfl

theorem couples {α : Type} {P : α → Machine → Prop} {x : Run α} (hx : x.OnlyTakesLines)
    (hm : (calleeWalk s₀).holds m) (hP : ∀ v m, P v m) : (calleeWalk s₀).Couples P x x m :=
  hx.couples rfl (fun _ _ _ _ => ⟨hm, Nat.le_refl _⟩) hP

theorem spares (hm : (calleeWalk s₀).holds m) : s₀.Spares m.toScope :=
  hm.elim (·.toSpares) (·.toSpares)

theorem intact (hm : (calleeWalk s₀).holds m) : m.memory.registry.Intact :=
  hm.elim (·.intact) (·.intact)

theorem closed (hm : (calleeWalk s₀).holds m) :
    m.memory.Closed ((calleeWalk s₀).var · m) (calleeWalk s₀).function :=
  fun r hr => reach_of_new fun hl => (inside hm hl).closed r (hr hl)

theorem found {symbol : String} {v : Value} (hm : (calleeWalk s₀).holds m)
    (hv : m.find? symbol = some v) : (calleeWalk s₀).reach v m :=
  Scope.find?_within (fun _ hr hl => Frame.Within.find? (inside hm hl).top hr)
    (fun _ _ => trivial) hv

theorem refer {r : VarRef} (hm : (calleeWalk s₀).holds m) (hr : (calleeWalk s₀).var r m) :
    (calleeWalk s₀).Step (Machine.refer r) m ∧
      (calleeWalk s₀).var ⟨m.memory.vars.size⟩ (m.refer r) := by
  refine ⟨⟨?_, Nat.le_refl _, rfl⟩, fun _ => (spares hm).size_le⟩
  rcases hm with h | h
  · exact .inl (h.addVariable (hr h.level_lt))
  · exact .inr (h.addVariable _)

theorem declare {name : String} {v : Value} (hm : (calleeWalk s₀).holds m)
    (ha : (calleeWalk s₀).assigns m) (hv : (calleeWalk s₀).reach v m) :
    (calleeWalk s₀).Step (fun m => (m.declare name v).2) m ∧
      (calleeWalk s₀).var (m.declare name v).1 (m.declare name v).2 := by
  have hin := inside hm ha
  have hnew : s₀.Inside (m.declare name v).2.toScope :=
    (hin.addVariable (v := ⟨name, v⟩) (new ha hv)).bind hin.size_le name
  exact ⟨⟨.inl hnew, Nat.le_refl _, rfl⟩, fun _ => hin.size_le⟩

theorem define {name : String} {names : List String} {body : Body}
    (hm : (calleeWalk s₀).holds m) (hbody : ∀ b, body ≠ .native b) :
    (calleeWalk s₀).Couples (fun f _ => (calleeWalk s₀).function f)
      (Run.define (.ofBody name names body)) (Run.define (.ofBody name names body)) m := by
  refine Coupling.couples_define rfl hm (Nat.le_refl _) fun hdefine => ?_
  have hintact := ((intact hm).define hbody hdefine).1
  exact ⟨⟨hm.imp (·.registry hintact) (·.registry hintact), Nat.le_refl _, rfl⟩, trivial⟩

theorem pop (hm : (calleeWalk s₀).holds m) (hl : s₀.frames.level < m.frames.level) :
    (calleeWalk s₀).Step (fun m => { m with frames := m.frames.pop }) m where
  holds := (inside hm hl).pop
  leads := by
    have hone := s₀.frames.one_le_level
    have hpop := Frames.level_pop (Nat.lt_of_le_of_lt hone hl)
    exact Nat.le_of_succ_le (Nat.le_of_eq hpop)
  twin := rfl

/-- A frame above those of the caller is entered, and left again. -/
theorem frame {bindings : List (String × Value)} (hlevel : s₀.frames.level ≤ m.frames.level)
    (henter : s₀.Inside (m.enterFrame bindings).toScope) :
    (calleeWalk s₀).Bracket (calleeWalk s₀).reach (fun m => m.enterFrame bindings)
      (Machine.leaveFrame (m.enterFrame bindings).frames.level) m := by
  have hleave : ∀ m', (calleeWalk s₀).holds m' →
      m'.frames.level ≤ (m.enterFrame bindings).frames.level →
      (calleeWalk s₀).holds (m'.leaveFrame (m.enterFrame bindings).frames.level) ∧
        (m'.leaveFrame (m.enterFrame bindings).frames.level).frames.level ≤ m.frames.level ∧
        (m'.leaveFrame (m.enterFrame bindings).frames.level).frames.level ≤ m'.frames.level := by
    intro m' hm' hl
    -- If `exit` has left the frame before, then nothing is left here.
    rw [Machine.level_enterFrame] at hl ⊢
    rcases Nat.lt_or_ge m'.frames.level (m.frames.level + 1) with hlt | hle
    · rw [Machine.leaveFrame_of_lt hlt]
      exact ⟨hm', Nat.le_of_lt_succ hlt, Nat.le_refl _⟩
    · have hpop := pop hm' (Nat.lt_of_le_of_lt hlevel hle)
      rw [Machine.leaveFrame_of_le hle]
      have hone := Nat.lt_of_lt_of_le (Nat.succ_lt_succ m.frames.one_le_level) hle
      refine ⟨hpop.holds, Nat.le_of_succ_le_succ ?_, hpop.leads⟩
      exact Nat.le_trans (Nat.le_of_eq (Frames.level_pop hone)) hl
  exact {
    enter_holds := .inl henter
    enter_twin := rfl
    leave_holds := fun m' hm' hl => (hleave m' hm' hl).1
    leave_leads := fun m' hm' hl => (hleave m' hm' hl).2.1
    leave_twin := fun _ _ _ => rfl
    leave_result := fun v m' hm' hl hv =>
      hv.imp (fun r hr hlt => hr (Nat.lt_of_lt_of_le hlt (hleave m' hm' hl).2.2)) fun _ => id }

theorem lawful : (calleeWalk s₀).Lawful where
  refl m := Nat.le_refl m.frames.level
  trans h₁ h₂ := Nat.le_trans h₂ h₁
  var_mono hl hr hlt := hr (Nat.lt_of_lt_of_le hlt hl)
  closed := closed
  found hm _ _ hv := found hm hv
  bound hm _ hr hl := Frame.Within.find? (inside hm hl).top hr
  defaults hm hf hv := (intact hm).eq_nil_of_default hf hv ▸ trivial
  refer hm _ hr := refer hm hr
  declare hm ha hv := declare hm ha hv.1
  write hm ha _ _ hr hv := ⟨.inl ((inside hm ha).write (hr ha) (new ha hv.1)), Nat.le_refl _, rfl⟩
  store hm _ := ⟨hm.imp (·.addBlock _) (·.addBlock _), Nat.le_refl _, rfl⟩
  define hm _ hbody _ := define hm hbody
  outward _ _ hm _ := step hm rfl
  strict _ hm := step hm rfl
  exit hm hn := Coupling.step_exitFrame rfl (fun h => pop hm (hn rfl h)) fun _ => step hm rfl
  load hm _ _ := step hm rfl
  readLine hm _ := couples Run.onlyTakesLines_readLine hm fun _ _ _ _ _ _ => trivial
  capture e hm _ := couples (Run.onlyTakesLines_captureBlock e) hm fun _ _ => trivial
  advance hm _ := couples Run.onlyTakesLines_advance hm fun _ _ _ _ _ _ => trivial
  cursor hm _ _ := ⟨hm, rfl, fun _ hm' _ => hm', fun _ _ hl => hl, fun _ _ _ => rfl,
    fun _ _ _ _ hv => hv⟩
  frame hm he hb := frame (Nat.le_of_lt he)
    (Machine.inside_enterFrame (inside hm he).push fun b hmem => new he (hb b hmem).1)
  deeper hm _ := ⟨hm, rfl, fun _ hm' _ => hm', fun _ _ hl => hl, fun _ _ _ => rfl,
    fun _ _ _ _ hv => hv⟩

end calleeWalk

/-! ## Calls -/

/-- To call it does not concern the frame on top: neither a function of the program
    nor `exit`, unless that frame is the only one. -/
def Machine.isHarmless (m : Machine) : Callable → Bool
  | .function f =>
    match (m.memory.registry.get? f).map Function.body with
    | some (.native b) => b ≠ .exit || m.frames.level ≤ 1
    | some _ => false
    | none => true
  | .block _ => true

/-- Once a call from the scope `s₀` has left its frame, no variable may be given a
    value, no function of the program called and no further frame left. -/
def calleeWatch (s₀ : Scope) : Watch where
  call c m := decide (s₀.frames.level < m.frames.level) || m.isHarmless c
  assign m := decide (s₀.frames.level < m.frames.level)

theorem calleeWalk.watched (s₀ : Scope) : (calleeWalk s₀).Watched (calleeWatch s₀) where
  call _ _ := .inl trivial
  assign _ := .inl trivial
  assigns {m} _ ha := by
    show s₀.frames.level < m.frames.level
    exact of_decide_eq_true ha
  permits {c m} _ _ hc := by
    cases c with
    | block b => trivial
    | function f =>
      refine ⟨rfl, fun F hf => ?_⟩
      simp only [calleeWatch, Machine.isHarmless, hf, Option.map_some, Bool.or_eq_true,
        decide_eq_true_eq] at hc
      generalize F.body = body at hc ⊢
      cases body with
      | native b =>
        intro hexit hlevel
        refine hc.resolve_right fun hb => ?_
        simp only [hexit, ne_eq, not_true, decide_false, Bool.false_or, decide_eq_true_eq] at hb
        omega
      | line g => exact hc.resolve_right Bool.false_ne_true
      | block b => exact hc.resolve_right Bool.false_ne_true

/-- The call ends, and does not go on with what concerns the frame of the caller
    once `exit` has left its own. -/
def Call.EndsAtExit (fuel : Nat) (f : FunctionRef) (arg : Value) (m : Machine) : Prop :=
  ∀ m', Call.function ((calleeWatch m.toScope).evaluate fuel) f arg m ≠ .error .outOfFuel m'

/-- A function of the program is given new variables only, if the argument holds none. -/
theorem Machine.new_of_bind {m : Machine} (hm : m.memory.registry.Intact) {f : FunctionRef}
    {F : Function} (hf : m.memory.registry.get? f = some F) {arg : Value}
    (harg : arg.Within (fun _ => False) fun _ => True) {bindings : List (String × Value)}
    (hb : F.bind (m.memory.arguments arg) = .ok bindings) :
    ∀ b ∈ bindings, m.toScope.New b.2 := by
  have hargs := Memory.arguments_within (fun _ => False.elim : m.memory.Closed _ _) harg
  intro b hmem
  have hvalue := Function.bind_all hargs
    (fun v hv => hm.eq_nil_of_default hf hv ▸ trivial) hb b hmem
  exact hvalue.imp (fun _ => False.elim) fun _ => id

theorem calleeWalk.couples_function {m : Machine} (hm : m.memory.registry.Intact)
    {f : FunctionRef} {F : Function} (hf : m.memory.registry.get? f = some F)
    (hbody : ∀ b, F.body ≠ .native b) {arg : Value}
    (harg : arg.Within (fun _ => False) fun _ => True) (fuel : Nat) :
    (calleeWalk m.toScope).Couples (calleeWalk m.toScope).value
      (Call.function ((calleeWatch m.toScope).evaluate fuel) f arg)
      (Call.function (evaluate fuel) f arg) m := by
  have houtside : (calleeWalk m.toScope).holds m :=
    .inr ⟨⟨Nat.le_refl _, fun _ _ => rfl⟩, hm, rfl⟩
  -- Before the call, the frame on top is the caller's, so no frame could be
  -- entered there along the walk. But since the arguments hold no variable, it can
  -- be entered for this call.
  refine Walk.couples_function_of_frame lawful (lawful.agree_watched (watched _) (.inl rfl))
    houtside ⟨harg.imp (fun _ => False.elim) fun _ => id, trivial⟩ hf rfl hbody (fun bindings hb => ?_)
    fun _ _ _ => trivial
  exact frame (Nat.le_refl _)
    (Machine.inside_enterFrame (Scope.inside_push hm) (Machine.new_of_bind hm hf harg hb))

/-- A call that ends has left its frame. -/
theorem calleeWalk.outside {s₀ : Scope} {m : Machine} (hm : (calleeWalk s₀).holds m)
    (hl : m.frames.level ≤ s₀.frames.level) : s₀.Outside m.toScope :=
  hm.resolve_left fun h => Nat.not_lt.2 hl h.level_lt

theorem Scope.Outside.spares_variable {s₀ s : Scope} (h : s₀.Outside s) {r : VarRef}
    {v : Variable} (hr : s₀.memory.get? r = some v) : s.memory.get? r = some v :=
  (h.get?_eq r (Array.getElem?_eq_some_iff.1 hr).1).trans hr

/-- A call of a function of the program, with an argument that holds no variable,
    leaves the frames as they were, and so every variable that existed before it,
    provided that it does not go on after `exit` has left its frame. -/
theorem call_spares_callers {m : Machine} (hm : m.memory.registry.Intact) {f : FunctionRef}
    {F : Function} (hf : m.memory.registry.get? f = some F) (hbody : ∀ b, F.body ≠ .native b)
    {arg : Value} (harg : arg.Within (fun _ => False) fun _ => True) {fuel : Nat}
    (hend : Call.EndsAtExit fuel f arg m) :
    ((Call.function (evaluate fuel) f arg).after m).frames = m.frames ∧
      ∀ r v, m.memory.get? r = some v →
        ((Call.function (evaluate fuel) f arg).after m).memory.get? r = some v := by
  have hcouples := calleeWalk.couples_function hm hf hbody harg fuel
  obtain ⟨-, hafter, hlevel⟩ := hcouples.after rfl fun _ => hend
  have hout := calleeWalk.outside hafter hlevel
  exact ⟨hout.frames_eq, fun r v => hout.spares_variable⟩

/-- With the body `while x, exit(x)`, the function leaves its frame from within a
    loop. -/
theorem call_spares_callers_while :
    let m := Machine.withFunction ["x"]
      [.symbol "while", .symbol "x", .symbol ",", .symbol "exit", .group [.symbol "x"]]
    Call.EndsAtExit 9 ⟨6⟩ (.boolean true) m ∧
      ((Call.function (evaluate 9) ⟨6⟩ (.boolean true)).after m).frames = m.frames := by
  intro m
  have hend : Call.EndsAtExit 9 ⟨6⟩ (.boolean true) m := by
    intro m' h
    cases h
  have harg : (Value.boolean true).Within (fun _ => False) fun _ => True := trivial
  exact ⟨hend, (call_spares_callers (Machine.intact_withFunction ..)
    (Machine.get?_withFunction ..) nofun harg hend).1⟩

/-- With the body `let y = exit(yes)`, the function leaves its frame, and then
    declares `y` in the frame of its caller. -/
theorem exit_reaches_caller :
    let m := Machine.withFunction []
      [.symbol "let", .symbol "y", .symbol "=", .symbol "exit", .group [.symbol "yes"]]
    m.memory.registry.Intact ∧ (Value.list []).Within (fun _ => False) (fun _ => True) ∧
      m.frames.find? "y" = none ∧
      ∃ m', Call.function (evaluate 9) ⟨6⟩ (.list []) m = .ok (.boolean true) m' ∧
        m'.frames.find? "y" = some ⟨0⟩ :=
  ⟨Machine.intact_withFunction .., trivial, rfl, _, rfl, rfl⟩

end Linewise
