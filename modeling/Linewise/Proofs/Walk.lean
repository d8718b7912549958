import Linewise.Proofs.Alike
import Linewise.Proofs.Change
import Linewise.Proofs.Part

/-!
# Walks

A coupling is carried through an evaluation along with what is known on the way:
which variables and functions a value may refer to and what it is like, which
groups may be evaluated, and where a block may be captured. A *walk* is a coupling
together with this knowledge, and it is *lawful* if everything a program can do to
its machine, apart from evaluating, is coupled, as long as it is done with what is
known, and makes what is known then.

What a walk does not mention is known of everything, and the laws about it hold
by themselves. Evaluations are compared part by part in `Linewise.Proofs.Call`,
`Linewise.Proofs.Assignment` and `Linewise.Proofs.Statement`; that what is known of
a group is known of its parts is up to the evaluations (`Linewise.Proofs.Watch`).
-/

namespace Linewise

structure Walk extends Coupling where
  /-- The variables that values may refer to. -/
  var : VarRef → Machine → Prop := fun _ _ => True
  /-- The functions that values may refer to. -/
  function : FunctionRef → Prop := fun _ => True
  /-- What values are like, besides what they refer to. -/
  shape : Value → Prop := fun _ => True
  /-- What the values of variables are like. -/
  slot : Value → Prop := fun _ => True
  /-- The symbols that may be looked up, or that make and follow references. -/
  symbol : String → Prop := fun _ => True
  /-- The groups that may be evaluated. -/
  group : Group → Machine → Prop := fun _ _ => True
  /-- The groups that may be the body of a function. -/
  line : Group → Prop := fun _ => True
  /-- The blocks that may be run. -/
  block : Block → Prop := fun _ => True
  /-- The blocks that captures give. -/
  captured : Block → Prop := fun _ => True
  /-- The functions of the standard library that may be called. -/
  native : Builtin → Machine → Prop := fun _ _ => True
  /-- Variables may be looked up by name. -/
  looks : Machine → Prop := fun _ => True
  /-- A frame may be entered. -/
  enters : Machine → Prop := fun _ => True
  /-- A block may be captured. -/
  opens : Machine → Prop := fun _ => True
  /-- A statement of a running block may be taken. -/
  replays : Machine → Prop := fun _ => True
  /-- A variable may be given a value. -/
  assigns : Machine → Prop := fun _ => True
  /-- The variable may be given the value in place of the one it has. -/
  overwrites : VarRef → Value → Machine → Prop := fun _ _ _ => True

/-- The machine one call deeper. -/
def Machine.deeper (m : Machine) : Machine :=
  { m with depth := m.depth + 1 }

/-- The machine with a new reference to a variable. -/
def Machine.refer (r : VarRef) (m : Machine) : Machine :=
  { m with memory := (m.memory.addVariable { name := Reference.variableName, value := .var r }).2 }

namespace Walk

variable (K : Walk)

/-- The value refers to nothing but what values may refer to. -/
def reach (v : Value) (m : Machine) : Prop :=
  v.Within (K.var · m) K.function

/-- What is known of the value of an evaluation. -/
def value (v : Value) (m : Machine) : Prop :=
  K.reach v m ∧ K.shape v

/-- What is known of a value that is given to a variable. -/
def content (v : Value) (m : Machine) : Prop :=
  K.reach v m ∧ K.slot v

/-- The statement on a line may be evaluated. -/
def text (line : String) (m : Machine) : Prop :=
  ∀ g, Group.ofLine (Text.trim line) = .ok g → K.group g m

def callable : Callable → Prop
  | .function f => K.function f
  | .block _ => True

def body : Body → Prop
  | .native _ => True
  | .line g => K.line g
  | .block b => K.block b

def part : Part → Machine → Prop
  | .symbol s, _ => K.symbol s
  | .group g, m => K.group g m
  | .line g, _ => K.line g
  | .block, m => K.opens m

/-- What is called may be called here, and is the same function in both runs. -/
def permits (c : Callable) (m : Machine) : Prop :=
  match c with
  | .function f =>
    (K.twin m).memory.registry.get? f = m.memory.registry.get? f ∧
      ∀ F, m.memory.registry.get? f = some F →
        match F.body with
        | .native b => K.native b m
        | _ => K.enters m
  | .block _ => True

section

variable {K} {c : Callable} {m : Machine}

/-- Where the functions of a program may be called, it takes a look at those of the standard
    library only. -/
theorem permits_of_native
    (hnative : ∀ {f F b}, c = .function f → m.memory.registry.get? f = some F →
      F.body = .native b → K.native b m)
    (henters : K.enters m)
    (hsame : ∀ f, (K.twin m).memory.registry.get? f = m.memory.registry.get? f := by
      exact fun _ => rfl) : K.permits c m := by
  cases c with
  | block b => trivial
  | function f =>
    refine ⟨hsame f, fun F hF => ?_⟩
    cases hbody : F.body with
    | native b => exact hnative rfl hF hbody
    | _ => exact henters

/-- Where every function may be called, everything may. -/
theorem permits_of_forall (hnative : ∀ b, K.native b m) (henters : K.enters m)
    (hsame : ∀ f, (K.twin m).memory.registry.get? f = m.memory.registry.get? f := by
      exact fun _ => rfl) : K.permits c m :=
  permits_of_native (fun _ _ _ => hnative _) henters hsame

end

/-- Everything a program can do to its machine is coupled. -/
structure Lawful : Prop extends K.Ordered where
  var_mono : ∀ {r m m'}, K.leads m m' → K.var r m → K.var r m' := by intros; trivial
  group_mono : ∀ {g m m'}, K.leads m m' → K.group g m → K.group g m' := by intros; trivial
  gone_of_sources : ∀ {m m'}, m'.source = m.source → m'.suspended = m.suspended →
    K.gone m → K.gone m' := by intros; assumption
  opens_mono : ∀ {m m'}, K.leads m m' → K.opens m → K.opens m' := by intros; trivial
  replays_mono : ∀ {m m'}, K.leads m m' → K.replays m → K.replays m' := by intros; trivial
  /-- What is read off a machine is read off its twin. -/
  twin_memory : ∀ {m}, K.holds m → m.memory.Alike (K.var · m) (K.twin m).memory := by
    intros; exact .refl _
  twin_level : ∀ {m}, K.holds m → (K.twin m).frames.level = m.frames.level := by intros; rfl
  twin_find? : ∀ {m}, K.holds m → K.looks m → ∀ s,
    (K.twin m).frames.find? s = m.frames.find? s := by intros; rfl
  twin_alive : ∀ {m}, K.holds m → (K.twin m).alive = m.alive := by intros; rfl
  twin_files : ∀ {m}, K.holds m → (K.twin m).files = m.files := by intros; rfl
  twin_depth : ∀ {m}, K.holds m → (K.twin m).depth = m.depth := by intros; rfl
  twin_world : ∀ {m}, K.holds m → (K.twin m).world = m.world := by intros; rfl
  twin_output : ∀ {m}, K.holds m → (K.twin m).output = m.output := by intros; rfl
  /-- What is found in a machine is known. -/
  closed : ∀ {m}, K.holds m → m.memory.Closed (K.var · m) K.function := by
    intro _ _ _ _; exact .of_forall (fun _ => trivial) fun _ => trivial
  found : ∀ {m s v}, K.holds m → K.looks m → K.symbol s → m.find? s = some v → K.reach v m := by
    intros; exact .of_forall (fun _ => trivial) fun _ => trivial
  bound : ∀ {m s r}, K.holds m → K.looks m → m.frames.find? s = some r → K.var r m := by
    intros; trivial
  stored : ∀ {m} {i : Nat} {b}, K.holds m → m.memory.blocks[i]? = some b → K.block b := by
    intros; trivial
  bodies : ∀ {m f F}, K.holds m → m.memory.registry.get? f = some F → K.body F.body := by
    intro _ _ F _ _; cases F.body <;> trivial
  defaults : ∀ {m f F v}, K.holds m → m.memory.registry.get? f = some F →
    some v ∈ F.defaults → K.reach v m := by
      intros; exact .of_forall (fun _ => trivial) fun _ => trivial
  lines : ∀ {m bindings g}, K.holds m → K.enters m → K.line g →
    K.group g (m.enterFrame bindings).deeper := by intros; trivial
  looks_of_assigns : ∀ {m}, K.holds m → K.assigns m → K.looks m := by intros; trivial
  /-- What the values of variables and of evaluations are like. -/
  shape_of_isList : ∀ {v}, v.isList = false → K.shape v := by intros; trivial
  shape_empty : K.shape (.list []) := by trivial
  shape_of_slot : ∀ {v}, K.slot v → K.shape v := by intros; trivial
  slot_held : ∀ {m v}, K.holds m → K.shape v → K.slot (m.memory.held v) := by intros; trivial
  slot_arguments : ∀ {m v}, K.holds m → K.shape v → ∀ w ∈ m.memory.arguments v, K.slot w := by
    intros; trivial
  slot_default : ∀ {m f F v}, K.holds m → m.memory.registry.get? f = some F →
    some v ∈ F.defaults → K.slot v := by intros; trivial
  keeps : ∀ {m}, K.holds m → Operation.Keeps m.memory K.shape := by
    intros; exact ⟨trivial, fun _ _ => trivial, fun _ _ => trivial, fun _ _ _ => trivial⟩
  /-- What is done to memory. -/
  refer : ∀ {m r}, K.holds m → K.symbol Reference.make.symbol → K.var r m →
    K.Step (Machine.refer r) m ∧ K.var ⟨m.memory.vars.size⟩ (m.refer r)
  looks_refer : ∀ {m r}, K.holds m → K.looks m → K.looks (m.refer r) := by intros; trivial
  declare : ∀ {m s v}, K.holds m → K.assigns m → K.content v m →
    K.Step (fun m => (m.declare s v).2) m ∧ K.var (m.declare s v).1 (m.declare s v).2
  write : ∀ {m r v}, K.holds m → K.assigns m → K.overwrites r v m →
    m.memory.checkReference r v = .ok () → K.var r m → K.content v m →
    K.Step (fun m => { m with memory := m.memory.write r v }) m
  store : ∀ {m b}, K.holds m → K.block b →
    K.Step (fun m => { m with memory := (m.memory.addBlock b).2 }) m
  define : ∀ {m name names body}, K.holds m → K.body body → (∀ b, body ≠ .native b) →
    (∀ b, body = .block b → K.captured b) →
    K.Couples (fun f _ => K.function f) (Run.define (.ofBody name names body))
      (Run.define (.ofBody name names body)) m
  /-- What is done to the rest. -/
  outward : ∀ {m} world output, K.holds m → m.output.toList <+: output.toList →
    K.Step (fun m => { m with world, output }) m
  strict : ∀ {m} strict, K.holds m → K.Step (fun m => { m with strict }) m
  exit : ∀ {m}, K.holds m → K.native .exit m → K.Step Machine.exitFrame m
  load : ∀ {m path source}, K.holds m → K.native .load m → m.files path = .ok source →
    K.Step (fun m => m.pushSource source) m
  /-- Where lines and statements come from. -/
  readLine : ∀ {m}, K.holds m → K.native .read m ∨ K.native .readString m →
    K.Couples (fun line m => ∀ s, line = some s → K.text s m) Run.readLine Run.readLine m
  capture : ∀ {m} elseAllowed, K.holds m → K.opens m →
    K.Couples (fun b _ => K.block b) (Run.captureBlock elseAllowed)
      (Run.captureBlock elseAllowed) m
  captured_of_capture : ∀ {m m' elseAllowed b}, K.holds m → K.opens m →
    Run.captureBlock elseAllowed m = .ok b m' → K.captured b := by intros; trivial
  advance : ∀ {m}, K.holds m → K.replays m →
    K.Couples (fun line m => ∀ s, line = some s → K.text s m) Run.advance Run.advance m
  /-- What is taken back. -/
  cursor : ∀ {m b first statements}, K.holds m → K.block b →
    b.branch first = .ok statements →
    K.Bracket K.reach (fun m => { m with cursors := statements :: m.cursors })
      (fun m => { m with cursors := m.cursors.tail }) m
  replays_cursor : ∀ {m b first statements}, K.holds m → K.block b →
    b.branch first = .ok statements →
    K.replays { m with cursors := statements :: m.cursors } := by intros; trivial
  frame : ∀ {m bindings}, K.holds m → K.enters m →
    (∀ b ∈ bindings, K.content b.2 m) →
    K.Bracket K.reach (fun m => m.enterFrame bindings)
      (Machine.leaveFrame (m.enterFrame bindings).frames.level) m
  deeper : ∀ {m}, K.holds m → m.depth < Machine.maxDepth →
    K.Bracket K.reach Machine.deeper (fun m => { m with depth := m.depth - 1 }) m

/-- What is known does not get lost. -/
def Lasting {α : Type} (known : α → Machine → Prop) : Prop :=
  ∀ ⦃a m m'⦄, K.leads m m' → known a m → known a m'

variable {K}

/-- What values are like does not depend on the machine. -/
theorem bracket_value {enter leave : Machine → Machine} {m : Machine}
    (h : K.Bracket K.reach enter leave m) : K.Bracket K.value enter leave m :=
  { h with leave_result := fun v m' hm hl hv => ⟨h.leave_result v m' hm hl hv.1, hv.2⟩ }

variable (hK : K.Lawful)

include hK

/-- Where variables may be looked up, both runs find the same. -/
theorem Lawful.alike {m : Machine} (hm : K.holds m) (hl : K.looks m) :
    m.toScope.Alike (K.var · m) (K.twin m).toScope :=
  ⟨hK.twin_memory hm, hK.twin_find? hm hl⟩

theorem Lawful.couples_write {P : Unit → Machine → Prop} {m : Machine} (hm : K.holds m)
    (line : String) (hP : ∀ m', P () m') : K.Couples P (Run.write line) (Run.write line) m :=
  Coupling.couples_write (fun _ _ => hK.outward _ _ hm) (hK.twin_world hm) (hK.twin_output hm) line
    hP

theorem Lawful.couples_draw {m : Machine} (hm : K.holds m) (n : Int64) :
    K.Couples K.reach (Run.draw n) (Run.draw n) m :=
  Coupling.couples_draw (fun _ _ => hK.outward _ _ hm) (hK.twin_world hm) (hK.twin_output hm) n
    fun _ _ => trivial

theorem Lawful.lasting_reach : K.Lasting K.reach :=
  fun _ _ _ hl hv => hv.imp (fun _ => hK.var_mono hl) fun _ => id

theorem Lawful.lasting_value : K.Lasting K.value :=
  fun _ _ _ hl hv => hv.imp_left (hK.lasting_reach hl)

theorem Lawful.value_of_content {v : Value} {m : Machine} (hv : K.content v m) : K.value v m :=
  hv.imp_right hK.shape_of_slot

theorem Lawful.value_of_reach {v : Value} {m : Machine} (hv : K.reach v m)
    (hlist : v.isList = false) : K.value v m :=
  ⟨hv, hK.shape_of_isList hlist⟩

theorem Lawful.value_of_found {m : Machine} {symbol : String} {v : Value} (hm : K.holds m)
    (hl : K.looks m) (hs : K.symbol symbol) (hv : m.find? symbol = some v) : K.value v m :=
  hK.value_of_reach (hK.found hm hl hs hv) (Scope.isList_of_find? hv)

theorem Lawful.value_nil {m : Machine} : K.value .nil m :=
  hK.value_of_reach trivial rfl

theorem Lawful.lasting_group : K.Lasting K.group :=
  fun _ _ _ hl hg => hK.group_mono hl hg

theorem Lawful.lasting_part : K.Lasting K.part := by
  intro p m m' hl hp
  cases p with
  | symbol s => exact hp
  | group g => exact hK.group_mono hl hp
  | line g => exact hp
  | block => exact hK.opens_mono hl hp

end Walk

end Linewise
