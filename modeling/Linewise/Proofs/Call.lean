import Linewise.Proofs.Change
import Linewise.Proofs.Walk

/-!
# Walks through calls

Two evaluations `ev` and `ev'` *agree* along a walk if they are coupled on every
group that may be evaluated. Then so are what calls them: the statement on a
line, a running block, and the call of a function or a block.

* `couples_runBlock`: a block is run, by induction on the statements left;
* `couples_apply`: a call that is permitted.
-/

namespace Linewise.Walk

variable {K : Walk} {ev ev' : Group → Run Value} {m : Machine}

/-- The evaluations are coupled on all groups that may be evaluated. -/
def Agree (K : Walk) (ev ev' : Group → Run Value) : Prop :=
  ∀ ⦃g m⦄, K.holds m → K.group g m → K.Couples K.value (ev g) (ev' g) m

/-- A body may be evaluated with the given arguments. -/
def admits (K : Walk) (body : Body) (bindings : List (String × Value)) (m : Machine) : Prop :=
  let framed := K.Bracket K.reach (fun m => m.enterFrame bindings)
    (Machine.leaveFrame (m.enterFrame bindings).frames.level) m
  match body with
  | .native b => K.native b m ∧ ∀ b ∈ bindings, K.content b.2 m
  | .line g => framed ∧ K.group g (m.enterFrame bindings).deeper
  | .block _ => framed

/-! ## What is read -/

theorem Lawful.held (hK : K.Lawful) (hm : K.holds m) {v : Value} (hv : K.value v m) :
    K.content (m.memory.held v) m :=
  ⟨Memory.held_within (hK.closed hm) hv.1, hK.slot_held hm hv.2⟩

/-- What a call binds to parameters may be given to variables. -/
theorem Lawful.bind (hK : K.Lawful) (hm : K.holds m) {f : FunctionRef} {F : Function}
    (hf : m.memory.registry.get? f = some F) {arg : Value} (harg : K.value arg m)
    {bindings : List (String × Value)} (hb : F.bind (m.memory.arguments arg) = .ok bindings) :
    ∀ b ∈ bindings, K.content b.2 m := by
  have hargs : ∀ v ∈ m.memory.arguments arg, K.content v m := fun v hv =>
    ⟨Memory.arguments_within (hK.closed hm) harg.1 v hv, hK.slot_arguments hm harg.2 v hv⟩
  exact Function.bind_all (P := (K.content · m)) hargs
    (fun v hv => ⟨hK.defaults hm hf hv, hK.slot_default hm hf hv⟩) hb

/-- The value of a variable is taken after a step. -/
theorem Lawful.couples_held (hK : K.Lawful) {x y : Run Value} {P Q : Value → Machine → Prop}
    (h : K.Couples P x y m)
    (hP : ∀ v m, K.holds m → P v m → K.reach v m ∧ Q (m.memory.held v) m) :
    K.Couples Q (Run.held x) (Run.held y) m := by
  refine h.bind hK.toOrdered fun v m₁ hm₁ _ hv => ?_
  obtain ⟨hvalue, hheld⟩ := hP v m₁ hm₁ hv
  refine Coupling.couples_reading hK.toOrdered hm₁ ?_ fun w hw => ?_
  · rw [(hK.twin_memory hm₁).held_eq hvalue]
  · cases hw
    exact hheld

/-! ## Steps around a call -/

theorem couples_readInput (hK : K.Lawful) (hm : K.holds m)
    (hn : K.native .read m ∨ K.native .readString m) :
    K.Couples K.text Run.readInput Run.readInput m := by
  refine (hK.readLine hm hn).bind hK.toOrdered fun line m₁ hm₁ _ hline => ?_
  cases line with
  | none => exact Coupling.couples_fail hK.toOrdered hm₁ _
  | some line => exact Coupling.couples_pure hK.toOrdered hm₁ (hline line rfl)

theorem couples_nested (hK : K.Lawful) {x y : Run Value} (hm : K.holds m)
    (hxy : K.holds m.deeper → K.Couples K.value x y m.deeper) :
    K.Couples K.value (Run.nested x) (Run.nested y) m := by
  by_cases hd : Machine.maxDepth ≤ m.depth
  · exact Coupling.couples_of_error hm (hK.refl m) (.fault (.tooDeep Machine.maxDepth))
      (if_pos hd) (if_pos (by rwa [hK.twin_depth hm]))
  · have hbracket := hK.deeper hm (Nat.lt_of_not_le hd)
    refine ((bracket_value hbracket).couples (fun _ => hK.gone_of_sources rfl rfl)
      (hxy hbracket.enter_holds)).congr (if_neg hd) (if_neg ?_)
    rwa [hK.twin_depth hm]

/-- The value of a call of a function of the program is taken after its frame has
    been left. -/
theorem couples_called (hK : K.Lawful) {bindings : List (String × Value)} {x y : Run Value}
    (hframe : K.Bracket K.reach (fun m => m.enterFrame bindings)
      (Machine.leaveFrame (m.enterFrame bindings).frames.level) m)
    (hxy : K.holds (m.enterFrame bindings).deeper →
      K.Couples K.value x y (m.enterFrame bindings).deeper) :
    K.Couples K.value (Run.held (Run.withFrame bindings (Run.nested x)))
      (Run.held (Run.withFrame bindings (Run.nested y))) m := by
  -- Both runs leave the frame they are in then, at the level at which they have
  -- entered it, so that has to be the same.
  have hrun := (bracket_value hframe).couples
    (fun _ => hK.gone_of_sources Machine.source_leaveFrame Machine.suspended_leaveFrame)
    (couples_nested hK hframe.enter_holds hxy)
  have htwin : (K.twin m).enterFrame bindings = K.twin (m.enterFrame bindings) :=
    hframe.enter_twin
  refine hK.couples_held (hrun.congr rfl ?_) fun v m₁ hm₁ hv =>
    ⟨hv.1, hK.value_of_content (hK.held hm₁ hv)⟩
  unfold Run.withFrame
  dsimp only
  rw [htwin, hK.twin_level hframe.enter_holds]

/-! ## Lines and blocks -/

section

variable (hK : K.Lawful) (h : K.Agree ev ev')

include hK h

theorem couples_evaluateLine (hm : K.holds m) (line : String) (hline : K.text line m) :
    K.Couples K.value (Call.evaluateLine ev line) (Call.evaluateLine ev' line) m := by
  unfold Call.evaluateLine
  dsimp only
  split
  · exact Coupling.couples_pure hK.toOrdered hm hK.value_nil
  · refine Coupling.Couples.bind hK.toOrdered
      (Coupling.couples_ofExcept (P := fun g m => K.group g m) hK.toOrdered hm hline) ?_
    exact fun g m₁ hm₁ _ hg => h hm₁ hg

/-- While a block is running, its next statement may be taken. -/
theorem couples_replay {level n : Nat} {last : Value} (hm : K.holds m) (hr : K.replays m)
    (hlast : K.value last m) :
    K.Couples K.value (Call.replay ev level n last) (Call.replay ev' level n last) m := by
  -- By induction on the number of statements left. A statement that has been
  -- evaluated leaves the block running (`replays_mono`), and gives the value that
  -- the block has if it was the last.
  induction n generalizing last m with
  | zero => exact Coupling.couples_pure hK.toOrdered hm hlast
  | succ n ih =>
    rw [Call.replay, Call.replay]
    refine Coupling.couples_get_bind ?_
    rw [hK.twin_alive hm]
    split
    · exact Coupling.couples_pure hK.toOrdered hm hlast
    · refine (hK.advance hm hr).bind hK.toOrdered fun line m₁ hm₁ hl₁ hline => ?_
      cases line with
      | none => exact Coupling.couples_pure hK.toOrdered hm₁ (hK.lasting_value hl₁ hlast)
      | some statement =>
        refine (couples_evaluateLine hK h hm₁ statement (hline statement rfl)).bind hK.toOrdered ?_
        intro v m₂ hm₂ hl₂ hv
        refine Coupling.couples_get_bind ?_
        rw [hK.twin_level hm₂]
        split
        · exact Coupling.couples_pure hK.toOrdered hm₂ hv
        · exact ih hm₂ (hK.replays_mono hl₂ (hK.replays_mono hl₁ hr)) hv

omit h in
/-- A block is run, whatever makes it possible to take its statements. -/
theorem couples_runBlock_of_replay {b : Block} {first : Bool} (hm : K.holds m) (hb : K.block b)
    (hreplay : ∀ statements level, b.branch first = .ok statements →
      K.holds { m with cursors := statements :: m.cursors } →
      K.Couples K.value (Call.replay ev level statements.length .nil)
        (Call.replay ev' level statements.length .nil)
        { m with cursors := statements :: m.cursors }) :
    K.Couples K.value (Call.runBlock ev b first) (Call.runBlock ev' b first) m := by
  rw [Call.runBlock, Call.runBlock]
  refine Coupling.Couples.bind hK.toOrdered (Coupling.couples_ofExcept
    (P := fun statements m₁ => m₁ = m ∧ b.branch first = .ok statements) hK.toOrdered hm
    fun _ hs => ⟨rfl, hs⟩) ?_
  rintro statements m₁ - - ⟨rfl, hs⟩
  refine Coupling.couples_get_bind ?_
  rw [hK.twin_level hm]
  have hbracket := hK.cursor hm hb hs
  exact (bracket_value hbracket).couples (fun _ => hK.gone_of_sources rfl rfl)
    (hreplay statements _ hs hbracket.enter_holds)

theorem couples_runBlock {b : Block} {first : Bool} (hm : K.holds m) (hb : K.block b) :
    K.Couples K.value (Call.runBlock ev b first) (Call.runBlock ev' b first) m :=
  couples_runBlock_of_replay hK hm hb fun _ _ hs hm₁ =>
    couples_replay hK h hm₁ (hK.replays_cursor hm hb hs) hK.value_nil

/-! ## Functions -/

theorem couples_native {b : Builtin} {args : List Value} (hm : K.holds m) (hb : K.native b m)
    (hargs : ∀ v ∈ args, K.content v m) :
    K.Couples K.value (Call.native ev b args) (Call.native ev' b args) m := by
  have harg : K.value (args.headD .nil) m := by
    cases args with
    | nil => exact hK.value_nil
    | cons v args => exact hK.value_of_content (hargs v List.mem_cons_self)
  unfold Call.native
  cases b with
  | print =>
    refine Coupling.couples_get_bind ?_
    rw [(hK.twin_memory hm).printed_eq (hK.closed hm) fun v hv => (hargs v hv).1]
    refine (hK.couples_write (P := fun _ _ => True) hm _ fun _ => trivial).bind hK.toOrdered ?_
    exact fun _ m₁ hm₁ _ _ => Coupling.couples_pure hK.toOrdered hm₁ hK.value_nil
  | read =>
    refine (couples_readInput hK hm (.inl hb)).bind hK.toOrdered fun line m₁ hm₁ _ hline => ?_
    exact couples_evaluateLine hK h hm₁ line hline
  | readString =>
    refine (couples_readInput hK hm (.inr hb)).bind hK.toOrdered fun line m₁ hm₁ _ _ => ?_
    exact Coupling.couples_pure hK.toOrdered hm₁ (hK.value_of_reach trivial rfl)
  | random =>
    refine (Coupling.couples_reading (P := fun _ _ => True) hK.toOrdered hm
      ((hK.twin_memory hm).upperBound_eq (hK.closed hm) harg.1) fun _ _ => trivial).bind
        hK.toOrdered fun n m₁ hm₁ _ _ => ?_
    refine ((hK.couples_draw hm₁ n).and_ok (Q := fun v _ => v.isList = false) ?_).weaken
      fun v m₂ _ _ hv => hK.value_of_reach hv.1 hv.2
    intro v m₂ hv
    cases hv
    rfl
  | load =>
    refine (Coupling.couples_reading (P := fun _ m₁ => m₁ = m) hK.toOrdered hm
      ((hK.twin_memory hm).string_eq (hK.closed hm) harg.1) fun _ _ => rfl).bind hK.toOrdered ?_
    rintro path m₁ - - rfl
    refine Coupling.couples_get_bind ?_
    rw [hK.twin_files hm]
    cases hfile : m₁.files path with
    | ok source =>
      refine ((hK.load hm hb hfile).couples_modify (P := fun _ _ => True) trivial).bind
        hK.toOrdered ?_
      exact fun _ m₂ hm₂ _ _ => Coupling.couples_pure hK.toOrdered hm₂ hK.value_nil
    | error reason => exact Coupling.couples_fail hK.toOrdered hm _
  | exit =>
    have hstep := hK.exit hm hb
    refine (hstep.couples_modify (P := fun _ m' => m' = m.exitFrame) rfl).bind hK.toOrdered ?_
    rintro _ m₁ hm₁ hl -
    exact Coupling.couples_pure hK.toOrdered hm₁ (hK.lasting_value hl harg)

/-- A function is called, whatever makes it possible to evaluate its body. -/
theorem couples_function_of_admits {f : FunctionRef} {arg : Value} (hm : K.holds m)
    (harg : K.value arg m)
    (hsame : (K.twin m).memory.registry.get? f = m.memory.registry.get? f)
    (hadmits : ∀ F bindings, m.memory.registry.get? f = some F →
      F.bind (m.memory.arguments arg) = .ok bindings → K.admits F.body bindings m) :
    K.Couples K.value (Call.function ev f arg) (Call.function ev' f arg) m := by
  rw [Call.function]
  refine Coupling.couples_get_bind ?_
  have hmemory := hK.twin_memory hm
  rw [hsame]
  cases hf : m.memory.registry.get? f with
  | none => exact Coupling.couples_pure hK.toOrdered hm hK.value_nil
  | some F =>
    refine (Coupling.couples_reading (P := fun bindings m₁ => m₁ = m ∧ K.admits F.body bindings m)
      hK.toOrdered hm (congrArg F.bind (hmemory.arguments_eq (hK.closed hm) harg.1))
      fun bindings hb => ⟨rfl, hadmits F bindings hf hb⟩).bind hK.toOrdered ?_
    rintro bindings m₁ - - ⟨rfl, hbody⟩
    -- The body is known since the function was found in the machine, and it does
    -- not matter here where the function came from.
    have hknown := hK.bodies hm hf
    generalize F.body = body at hbody hknown ⊢
    cases body with
    | native b =>
      refine hK.couples_held (couples_native hK h hm hbody.1 ?_)
        fun v m₂ hm₂ hv => ⟨hv.1, hK.value_of_content (hK.held hm₂ hv)⟩
      intro v hv
      obtain ⟨b, hmem, rfl⟩ := List.mem_map.1 hv
      exact hbody.2 b hmem
    | line g => exact couples_called hK hbody.1 fun hm₂ => h hm₂ hbody.2
    | block b => exact couples_called hK hbody fun hm₂ => couples_runBlock hK h hm₂ hknown

/-- A function of the program is called, whatever makes it possible to enter its
    frame. -/
theorem couples_function_of_frame {f : FunctionRef} {F : Function} {arg : Value} (hm : K.holds m)
    (harg : K.value arg m) (hf : m.memory.registry.get? f = some F)
    (hsame : (K.twin m).memory.registry.get? f = m.memory.registry.get? f)
    (hbody : ∀ b, F.body ≠ .native b)
    (hframe : ∀ bindings, F.bind (m.memory.arguments arg) = .ok bindings →
      K.Bracket K.reach (fun m => m.enterFrame bindings)
        (Machine.leaveFrame (m.enterFrame bindings).frames.level) m)
    (hline : ∀ g bindings, F.body = .line g → K.group g (m.enterFrame bindings).deeper) :
    K.Couples K.value (Call.function ev f arg) (Call.function ev' f arg) m := by
  refine couples_function_of_admits hK h hm harg hsame fun F' bindings hf' hb => ?_
  cases hf.symm.trans hf'
  have hbracket := hframe bindings hb
  replace hline := fun g => hline g bindings
  generalize F.body = body at hbody hline ⊢
  cases body with
  | native b => exact absurd rfl (hbody b)
  | line g => exact ⟨hbracket, hline g rfl⟩
  | block b => exact hbracket

theorem couples_function {f : FunctionRef} {arg : Value} (hm : K.holds m)
    (hp : K.permits (.function f) m) (harg : K.value arg m) :
    K.Couples K.value (Call.function ev f arg) (Call.function ev' f arg) m := by
  refine couples_function_of_admits hK h hm harg hp.1 fun F bindings hf hb => ?_
  have hvalues := hK.bind hm hf harg hb
  have hpermitted := hp.2 F hf
  have hknown := hK.bodies hm hf
  generalize F.body = body at hpermitted hknown ⊢
  cases body with
  | native b => exact ⟨hpermitted, hvalues⟩
  | line g => exact ⟨hK.frame hm hpermitted hvalues, hK.lines hm hpermitted hknown⟩
  | block b => exact hK.frame hm hpermitted hvalues

theorem couples_block {b : BlockRef} (hm : K.holds m) :
    K.Couples K.value (Call.block ev b) (Call.block ev' b) m := by
  rw [Call.block]
  refine Coupling.couples_get_bind ?_
  rw [(hK.twin_memory hm).blocks_eq]
  cases hb : m.memory.blocks[b.index]? with
  | none => exact Coupling.couples_pure hK.toOrdered hm hK.value_nil
  | some b => exact couples_nested hK hm fun hm₁ => couples_runBlock hK h hm₁ (hK.stored hm hb)

theorem couples_apply {c : Callable} {arg : Value} (hm : K.holds m) (hc : K.permits c m)
    (harg : K.value arg m) :
    K.Couples K.value (Call.apply ev c arg) (Call.apply ev' c arg) m := by
  cases c with
  | function f => exact couples_function hK h hm hc harg
  | block b => exact couples_block hK h hm

end

end Linewise.Walk
