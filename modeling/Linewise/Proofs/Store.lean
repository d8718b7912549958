import Linewise.Proofs.Cycle
import Linewise.Proofs.Library
import Linewise.Proofs.Watch

/-!
# What is done to variables

All that a program does to the variables in memory is to declare new ones and to
give others new values, and it only gets hold of variables that are in memory
(`Scope.Contained`). So what these two keep (`Memory.Invariant`) holds of memory at
any point of a program, if it holds when the program starts.

* `storeWalk`: the walk along which it does, where a variable is only given a new
  value if that is allowed;
* `Machine.contained_of_evaluate`: the variables of a program stay in memory.
-/

namespace Linewise

/-! ## Scopes -/

/-- All variables that a program can get hold of are in memory, and the standard
    library is in its place. -/
structure Scope.Contained (s : Scope) : Prop where
  selfContained : s.memory.SelfContained
  top : s.frames.top.Within (·.index < s.memory.vars.size)
  below : ∀ f ∈ s.frames.below, f.Within (·.index < s.memory.vars.size)
  intact : s.memory.registry.Intact

namespace Scope.Contained

variable {s : Scope} (h : s.Contained)

include h

theorem addVariable {v : Variable} (hv : s.memory.Contains v.value) :
    Contained { s with memory := (s.memory.addVariable v).2 } where
  selfContained := h.selfContained.addVariable hv
  top := h.top.imp fun _ hr => Nat.lt_of_lt_of_le hr (s.memory.size_le_addVariable v)
  below f hf := (h.below f hf).imp fun _ hr =>
    Nat.lt_of_lt_of_le hr (s.memory.size_le_addVariable v)
  intact := h.intact

theorem write {r : VarRef} {v : Value} (hv : s.memory.Contains v) :
    Contained { s with memory := s.memory.write r v } where
  selfContained := h.selfContained.write hv
  top := h.top.imp fun _ hr => Nat.lt_of_lt_of_eq hr Memory.size_write.symm
  below f hf := (h.below f hf).imp fun _ hr => Nat.lt_of_lt_of_eq hr Memory.size_write.symm
  intact := h.intact

theorem bind {r : VarRef} (hr : r.index < s.memory.vars.size) (name : String) :
    Contained { s with frames := s.frames.bind name r } :=
  ⟨h.selfContained, h.top.bind hr, h.below, h.intact⟩

theorem push : Contained { s with frames := s.frames.push } :=
  ⟨h.selfContained, nofun, List.forall_mem_cons.2 ⟨h.top, h.below⟩, h.intact⟩

theorem pop : Contained { s with frames := s.frames.pop } := by
  rcases hbelow : s.frames.below with _ | ⟨top, below⟩
  · rw [Frames.pop, hbelow]
    exact h
  · have hframes := hbelow ▸ h.below
    rw [List.forall_mem_cons] at hframes
    rw [Frames.pop_of_below hbelow]
    exact ⟨h.selfContained, hframes.1, hframes.2, h.intact⟩

theorem registry {registry : Registry} (hr : registry.Intact) :
    Contained { s with memory := { s.memory with registry } } :=
  ⟨h.selfContained, h.top, h.below, hr⟩

theorem addBlock (b : Block) : Contained { s with memory := (s.memory.addBlock b).2 } :=
  ⟨h.selfContained, h.top, h.below, h.intact⟩

end Scope.Contained

/-- Before a program starts there is no variable. -/
theorem Machine.contained_start (source : Source) (files : Files) (world : World) :
    (start source files world).toScope.Contained where
  selfContained _ := trivial
  top := nofun
  below := nofun
  intact := Registry.intact_standard

theorem Machine.toScope_kill {m : Machine} : m.kill.toScope = m.toScope := rfl

/-! ## The walk -/

/-- What holds of the variables in a memory is kept by declaring new ones, and by
    giving others new values where `may` allows it. -/
structure Memory.Invariant (P : Memory → Prop) (may : VarRef → Value → Memory → Prop) : Prop where
  congr : ∀ {m m' : Memory}, m'.vars = m.vars → P m → P m'
  addVariable : ∀ {m : Memory} {w : Variable}, P m → m.SelfContained → m.Contains w.value →
    P (m.addVariable w).2
  write : ∀ {m : Memory} {r : VarRef} {v : Value}, P m → r.index < m.vars.size →
    m.checkReference r v = .ok () → may r v m → P (m.write r v)

/-- Along this walk `P` holds of memory, as long as variables are only given new
    values where `may` allows it. -/
def storeWalk (P : Memory → Prop) (may : VarRef → Value → Memory → Prop) (lenient : Prop) :
    Walk where
  twin := id
  holds m := P m.memory ∧ m.toScope.Contained
  leads m m' := m.memory.vars.size ≤ m'.memory.vars.size
  lenient := lenient
  var r m := r.index < m.memory.vars.size
  overwrites r v m := may r v m.memory

namespace storeWalk

variable {P : Memory → Prop} {may : VarRef → Value → Memory → Prop} {lenient : Prop} {m : Machine}

theorem holds_of_toScope {m' : Machine} (hm : (storeWalk P may lenient).holds m)
    (h : m'.toScope = m.toScope) : (storeWalk P may lenient).holds m' := by
  show P m'.toScope.memory ∧ m'.toScope.Contained
  rw [h]
  exact hm

theorem step {f : Machine → Machine} (hm : (storeWalk P may lenient).holds m)
    (hf : (f m).toScope = m.toScope) : (storeWalk P may lenient).Step f m where
  holds := holds_of_toScope hm hf
  leads := Nat.le_of_eq (congrArg (fun s : Scope => s.memory.vars.size) hf.symm)
  twin := rfl

theorem couples {α : Type} {Q : α → Machine → Prop} {x : Run α} (hx : x.OnlyTakesLines)
    (hm : (storeWalk P may lenient).holds m) (hQ : ∀ v m, Q v m) :
    (storeWalk P may lenient).Couples Q x x m :=
  hx.couples rfl (fun _ _ _ _ => ⟨hm, Nat.le_refl _⟩) hQ

theorem contains {v : Value} (hv : (storeWalk P may lenient).reach v m) : m.memory.Contains v :=
  hv.imp (fun _ => id) fun _ => id

theorem pop (hm : (storeWalk P may lenient).holds m) :
    (storeWalk P may lenient).Step (fun m => { m with frames := m.frames.pop }) m :=
  ⟨⟨hm.1, hm.2.pop⟩, Nat.le_refl _, rfl⟩

theorem leaveFrame (hm : (storeWalk P may lenient).holds m) (level : Nat) :
    (storeWalk P may lenient).holds (m.leaveFrame level) ∧
      (m.leaveFrame level).memory = m.memory := by
  rw [Machine.leaveFrame]
  split
  · exact ⟨(pop hm).holds, rfl⟩
  · exact ⟨hm, rfl⟩

variable (hP : Memory.Invariant P may)

include hP

theorem declare {name : String} {v : Value} (hm : (storeWalk P may lenient).holds m)
    (hv : (storeWalk P may lenient).reach v m) :
    (storeWalk P may lenient).Step (fun m => (m.declare name v).2) m ∧
      (storeWalk P may lenient).var (m.declare name v).1 (m.declare name v).2 := by
  have hsize : m.memory.vars.size < (m.declare name v).2.memory.vars.size :=
    Nat.lt_of_lt_of_eq (Nat.lt_succ_self _) (Memory.size_addVariable _).symm
  have hadd : Scope.Contained { m.toScope with memory := (m.memory.addVariable ⟨name, v⟩).2 } :=
    hm.2.addVariable (contains hv)
  exact ⟨⟨⟨hP.addVariable hm.1 hm.2.selfContained (contains hv), hadd.bind hsize name⟩,
    Nat.le_of_lt hsize, rfl⟩, hsize⟩

theorem enterFrame {bindings : List (String × Value)} (hm : (storeWalk P may lenient).holds m)
    (hb : ∀ b ∈ bindings, (storeWalk P may lenient).reach b.2 m) :
    (storeWalk P may lenient).holds (m.enterFrame bindings) ∧
      (storeWalk P may lenient).leads m (m.enterFrame bindings) := by
  refine Machine.enterFrame_induction (motive := fun m' =>
    (storeWalk P may lenient).holds m' ∧ (storeWalk P may lenient).leads m m')
      ⟨⟨hm.1, hm.2.push⟩, Nat.le_refl _⟩ ?_
  intro m' ⟨hm', hl⟩ b hmem
  have hv : (storeWalk P may lenient).reach b.2 m' :=
    (hb b hmem).imp (fun _ hr => Nat.lt_of_lt_of_le hr hl) fun _ => id
  have hdeclare : (storeWalk P may lenient).Step (fun m => (m.declare b.1 b.2).2) m' :=
    (declare hP hm' hv).1
  exact ⟨hdeclare.holds, Nat.le_trans hl hdeclare.leads⟩

theorem frame {bindings : List (String × Value)} (hm : (storeWalk P may lenient).holds m)
    (hb : ∀ b ∈ bindings, (storeWalk P may lenient).reach b.2 m) :
    (storeWalk P may lenient).Bracket (storeWalk P may lenient).reach
      (fun m => m.enterFrame bindings)
      (Machine.leaveFrame (m.enterFrame bindings).frames.level) m where
  enter_holds := (enterFrame hP hm hb).1
  enter_twin := rfl
  leave_holds _ hm' _ := (leaveFrame hm' _).1
  leave_leads m' hm' hl := by
    show _ ≤ (m'.leaveFrame _).memory.vars.size
    rw [(leaveFrame hm' _).2]
    exact Nat.le_trans (enterFrame hP hm hb).2 hl
  leave_twin _ _ _ := rfl
  leave_result v m' hm' _ hv := hv.imp (fun r (hr : r.index < m'.memory.vars.size) => by
    show r.index < (m'.leaveFrame _).memory.vars.size
    rwa [(leaveFrame hm' _).2]) fun _ => id

theorem lawful : (storeWalk P may lenient).Lawful where
  refl m := Nat.le_refl m.memory.vars.size
  trans := Nat.le_trans
  var_mono hl hr := Nat.lt_of_lt_of_le hr hl
  closed hm r _ := (hm.2.selfContained r).imp (fun _ => id) fun _ => id
  found hm _ _ hv := Scope.find?_within (fun _ hr => hm.2.top.find? hr) (fun _ _ => trivial) hv
  bound hm _ hr := hm.2.top.find? hr
  defaults hm hf hv := hm.2.intact.eq_nil_of_default hf hv ▸ trivial
  refer {m r} hm _ hr :=
    have hsize : m.memory.vars.size < (m.refer r).memory.vars.size :=
      Nat.lt_of_lt_of_eq (Nat.lt_succ_self _) (Memory.size_addVariable _).symm
    ⟨⟨⟨hP.addVariable hm.1 hm.2.selfContained hr, hm.2.addVariable hr⟩, Nat.le_of_lt hsize, rfl⟩,
      hsize⟩
  declare hm _ hv := declare hP hm hv.1
  write hm _ hmay hcheck hr hv :=
    ⟨⟨hP.write hm.1 hr hcheck hmay, hm.2.write (contains hv.1)⟩,
      Nat.le_of_eq Memory.size_write.symm, rfl⟩
  store {m b} hm _ :=
    have hvars : (m.memory.addBlock b).2.vars = m.memory.vars := rfl
    ⟨⟨hP.congr hvars hm.1, hm.2.addBlock b⟩, Nat.le_refl _, rfl⟩
  define {m _ _ _} hm _ hbody _ := Coupling.couples_define rfl hm (Nat.le_refl _) fun {_ registry} h =>
    have hvars : { m.memory with registry }.vars = m.memory.vars := rfl
    ⟨⟨⟨hP.congr hvars hm.1, hm.2.registry (hm.2.intact.define hbody h).1⟩, Nat.le_refl _, rfl⟩,
      trivial⟩
  outward _ _ hm _ := step hm rfl
  strict _ hm := step hm rfl
  exit hm _ := Coupling.step_exitFrame rfl (fun _ => pop hm) fun _ => step hm rfl
  load hm _ _ := step hm rfl
  readLine hm _ := couples Run.onlyTakesLines_readLine hm fun _ _ _ _ _ _ => trivial
  capture e hm _ := couples (Run.onlyTakesLines_captureBlock e) hm fun _ _ => trivial
  advance hm _ := couples Run.onlyTakesLines_advance hm fun _ _ _ _ _ _ => trivial
  cursor hm _ _ := ⟨hm, rfl, fun _ hm' _ => hm', fun _ _ hl => hl, fun _ _ _ => rfl,
    fun _ _ _ _ hv => hv⟩
  frame hm _ hb := frame hP hm fun b hmem => (hb b hmem).1
  deeper hm _ := ⟨hm, rfl, fun _ hm' _ => hm', fun _ _ hl => hl, fun _ _ _ => rfl,
    fun _ _ _ _ hv => hv⟩

end storeWalk

/-- Whatever a group does, all variables that a program can get hold of are in memory, the
    one that it gives included. -/
theorem Machine.contained_of_evaluate {fuel : Nat} {g : Group} {v : Value} {m m' : Machine}
    (hm : m.toScope.Contained) (h : evaluate fuel g m = .ok v m') :
    m'.toScope.Contained ∧ m'.memory.Contains v := by
  let K := storeWalk (fun _ => True) (fun _ _ _ => True) False
  have hlawful : K.Lawful := storeWalk.lawful ⟨fun _ _ => trivial, fun _ _ _ => trivial,
    fun _ _ _ _ => trivial⟩
  have hagree : K.Agree (evaluate fuel) (evaluate fuel) :=
    hlawful.agree_evaluate
      { permits := fun _ _ _ => Walk.permits_of_forall (fun _ => trivial) trivial } (.inl rfl)
  obtain ⟨-, hm', -, hv⟩ := (hagree ⟨trivial, hm⟩ trivial).ok h
  exact ⟨hm'.2, storeWalk.contains hv.1⟩

end Linewise
