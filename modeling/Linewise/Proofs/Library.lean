import Linewise.Interpreter
import Linewise.Proofs.Progress

/-!
# The standard library stays in place

The functions of the standard library come first in the registry, and a program
cannot take their places: it only defines functions after them, whose bodies are
its own (`Registry.Intact`). This is so before a program starts, and stays so
whatever it does (`evaluateLine_intact`).

What is put into memory is all that it holds besides (`Memory.Holding`).
-/

namespace Linewise

namespace Registry

variable {r r' : Registry} {f : FunctionRef} {F : Function}

/-! ## Definitions -/

/-- A definition only concerns the place of the function that it gives, which is
    the one of its name or a new one. -/
theorem define_eq_ok (h : r.define F = .ok (f, r')) :
    (F.name, f) ∈ r'.names ∧ (f.index = r.functions.size ∨ (F.name, f) ∈ r.names) ∧
      (∀ p ∈ r'.names, p ∈ r.names ∨ p = (F.name, f)) ∧
      (∀ g, g ≠ f → r'.get? g = r.get? g) ∧ ∀ G, r'.get? f = some G → G = F := by
  rw [define] at h
  split at h
  · cases h
  cases hname : r.defined? F.name with
  | some ref =>
    -- The function takes the place of the one that had its name.
    rw [hname] at h
    cases h
    have hmem : (F.name, f) ∈ r.names := by
      obtain ⟨l₁, l₂, hnames, -⟩ := List.lookup_eq_some_iff.1 hname
      exact hnames ▸ List.mem_append_right l₁ List.mem_cons_self
    refine ⟨hmem, .inr hmem, fun p hp => .inl hp, fun g hg => ?_, fun G hG => ?_⟩
    · refine Array.getElem?_setIfInBounds_ne fun heq => hg ?_
      exact congrArg FunctionRef.mk heq.symm
    · simp only [get?, Array.getElem?_setIfInBounds_self] at hG
      split at hG
      · exact (Option.some.inj hG).symm
      · cases hG
  | none =>
    rw [hname] at h
    cases h
    refine ⟨List.mem_cons_self, .inl rfl, fun p hp => ?_, fun g hg => ?_, fun G hG => ?_⟩
    · exact (List.mem_cons.1 hp).symm
    · refine (Array.getElem?_push ..).trans (if_neg fun heq => hg ?_)
      exact congrArg FunctionRef.mk heq
    · exact (Option.some.inj ((Array.getElem?_push_size ..).symm.trans hG)).symm

/-! ## The standard library -/

theorem index_builtinRef_lt (b : Builtin) : (builtinRef b).index < Builtin.all.length := by
  cases b <;> decide

theorem builtinRef_inj {b b' : Builtin} (h : builtinRef b = builtinRef b') : b = b' := by
  cases b <;> cases b' <;> first | rfl | cases h

/-- The first places are those of the standard library. -/
theorem eq_builtinRef (hf : f.index < Builtin.all.length) : ∃ b, f = builtinRef b := by
  obtain ⟨i⟩ := f
  match i, hf with
  | 0, _ => exact ⟨.print, rfl⟩
  | 1, _ => exact ⟨.read, rfl⟩
  | 2, _ => exact ⟨.readString, rfl⟩
  | 3, _ => exact ⟨.random, rfl⟩
  | 4, _ => exact ⟨.load, rfl⟩
  | 5, _ => exact ⟨.exit, rfl⟩

/-- The standard library is in its place, and everything else is functions of the
    program. -/
structure Intact (r : Registry) : Prop where
  builtin : ∀ b, r.get? (builtinRef b) = some (.ofBuiltin b)
  names : ∀ p ∈ r.names, Builtin.all.length ≤ p.2.index
  program : ∀ {f F}, r.get? f = some F → Builtin.all.length ≤ f.index →
    ∃ name names body, F = .ofBody name names body ∧ ∀ b, body ≠ .native b

theorem intact_standard : standard.Intact where
  builtin b := by cases b <;> rfl
  names := nofun
  program {f F} hf hle := by
    have hlt := (Array.getElem?_eq_some_iff.1 hf).1
    exact absurd hlt (Nat.not_lt.2 hle)

namespace Intact

variable (hr : r.Intact)

include hr

theorem library_le : Builtin.all.length ≤ r.functions.size :=
  (Array.getElem?_eq_some_iff.1 (hr.builtin .exit)).1

/-- The only default is that of `exit`. -/
theorem eq_nil_of_default (hf : r.get? f = some F) {v : Value} (hv : some v ∈ F.defaults) :
    v = .nil := by
  rcases Nat.lt_or_ge f.index Builtin.all.length with hlt | hle
  · obtain ⟨b, rfl⟩ := eq_builtinRef hlt
    cases (hr.builtin b).symm.trans hf
    cases b <;> simp_all [Function.ofBuiltin]
  · obtain ⟨name, names, body, rfl, -⟩ := hr.program hf hle
    obtain ⟨p, -, hp⟩ := List.mem_map.1 hv
    cases hp

theorem define {name : String} {names : List String} {body : Body} (hbody : ∀ b, body ≠ .native b)
    (h : r.define (.ofBody name names body) = .ok (f, r')) :
    r'.Intact ∧ Builtin.all.length ≤ f.index := by
  obtain ⟨-, hf, hnames, hother, hself⟩ := define_eq_ok h
  have hle : Builtin.all.length ≤ f.index :=
    hf.elim (fun heq => heq ▸ hr.library_le) (hr.names _)
  -- Only what is at `f` has changed, and `f` comes after the standard library.
  refine ⟨⟨fun b => ?_, fun p hp => ?_, fun {g G} hG hg => ?_⟩, hle⟩
  · rw [hother _ fun heq => Nat.not_lt.2 hle (heq ▸ index_builtinRef_lt b)]
    exact hr.builtin b
  · rcases hnames p hp with hp | rfl
    · exact hr.names p hp
    · exact hle
  · by_cases heq : g = f
    · exact ⟨name, names, body, hself G (heq ▸ hG), hbody⟩
    · exact hr.program (hother g heq ▸ hG) hg

/-- A symbol only stands for a function of the standard library if it is its name. -/
theorem find?_ne_builtinRef {s : String} {b : Builtin} (hs : s ≠ b.name)
    (hf : r.find? s = some f) : f ≠ builtinRef b := by
  -- A function of the program comes after the standard library.
  simp only [find?, Option.or_eq_some_iff, Option.map_eq_some_iff] at hf
  rintro rfl
  rcases hf with hf | ⟨-, b', hb', heq⟩
  · obtain ⟨l₁, l₂, hnames, -⟩ := List.lookup_eq_some_iff.1 hf
    have hle := hr.names (s, builtinRef b) (hnames ▸ List.mem_append_right l₁ List.mem_cons_self)
    exact absurd (index_builtinRef_lt b) (Nat.not_lt.2 hle)
  · cases builtinRef_inj heq
    exact hs (Builtin.ofName?_eq_some_iff.1 hb').symm

/-- What the standard library does is only done by its own functions. -/
theorem eq_builtinRef_of_native (hF : r.get? f = some F) {b : Builtin}
    (hb : F.body = .native b) : f = builtinRef b := by
  rcases Nat.lt_or_ge f.index Builtin.all.length with hlt | hle
  · obtain ⟨b', rfl⟩ := eq_builtinRef hlt
    cases (hr.builtin b').symm.trans hF
    cases hb
    rfl
  · obtain ⟨name, names, body, rfl, hbody⟩ := hr.program hF hle
    exact absurd hb (hbody b)

end Intact

end Registry

/-! ## What memory holds -/

/-- The standard library is in its place, and what memory holds satisfies `value`,
    `body` and `block`: the values of variables, the bodies of functions, and the
    blocks. -/
structure Memory.Holding (value : Value → Prop) (body : Body → Prop) (block : Block → Prop)
    (m : Memory) : Prop where
  intact : m.registry.Intact
  read : ∀ r, value (m.read r)
  bodies : ∀ {f F}, m.registry.get? f = some F → body F.body
  blocks : ∀ {i : Nat} {b}, m.blocks[i]? = some b → block b

/-- Before a program starts, memory holds the standard library alone. -/
theorem Memory.holding_initial {value : Value → Prop} {body : Body → Prop} {block : Block → Prop}
    (hnil : value .nil) (hnative : ∀ b, body (.native b)) :
    initial.Holding value body block where
  intact := Registry.intact_standard
  read _ := hnil
  bodies {f F} hF := by
    obtain ⟨b, rfl⟩ := Registry.eq_builtinRef (Array.getElem?_eq_some_iff.1 hF).1
    cases (Registry.intact_standard.builtin b).symm.trans hF
    exact hnative b
  blocks := nofun

namespace Memory.Holding

variable {value : Value → Prop} {body : Body → Prop} {block : Block → Prop} {m : Memory}
  (h : m.Holding value body block)

include h

theorem addVariable {v : Variable} (hv : value v.value) :
    (m.addVariable v).2.Holding value body block where
  intact := h.intact
  read r := by
    rw [Memory.read, get?_addVariable]
    split
    · exact hv
    · exact h.read r
  bodies := h.bodies
  blocks := h.blocks

theorem write (r : VarRef) {v : Value} (hnil : value .nil) (hv : value v) :
    (m.write r v).Holding value body block where
  intact := h.intact
  read s := by
    have hread := h.read s
    rw [Memory.read, get?_write]
    rw [Memory.read] at hread
    split
    · cases m.get? s with
      | none => exact hnil
      | some w => exact hv
    · exact hread
  bodies := h.bodies
  blocks := h.blocks

theorem addBlock {b : Block} (hb : block b) : (m.addBlock b).2.Holding value body block where
  intact := h.intact
  read := h.read
  bodies := h.bodies
  blocks {i b'} hget := by
    rw [Memory.addBlock, Array.getElem?_push] at hget
    split at hget
    · exact Option.some.inj hget ▸ hb
    · exact h.blocks hget

theorem define {name : String} {names : List String} {b : Body} (hb : body b)
    (hnative : ∀ n, b ≠ .native n) {f : FunctionRef} {registry : Registry}
    (hdefine : m.registry.define (.ofBody name names b) = .ok (f, registry)) :
    Holding value body block { m with registry } ∧ Builtin.all.length ≤ f.index := by
  obtain ⟨hintact, hle⟩ := h.intact.define hnative hdefine
  obtain ⟨-, -, -, hother, hself⟩ := Registry.define_eq_ok hdefine
  refine ⟨⟨hintact, h.read, fun {g G} hG => ?_, h.blocks⟩, hle⟩
  by_cases heq : g = f
  · exact hself G (heq ▸ hG) ▸ hb
  · exact h.bodies (hother g heq ▸ hG)

end Memory.Holding

theorem Progress.allowed_intact : Allowed fun p q => p.registry.Intact → q.registry.Intact where
  refl _ := id
  trans h₁ h₂ hp := h₂ (h₁ hp)
  ended _ := id
  defined hbody hdefine hp := (hp.define hbody hdefine).1
  written _ := id

/-- A statement leaves the standard library in place. -/
theorem evaluateLine_intact {m : Machine} (hm : m.memory.registry.Intact) (fuel : Nat)
    (line : String) :
    ((Call.evaluateLine (evaluate fuel) line).after m).memory.registry.Intact :=
  Progress.allowed_intact.evaluateLine m fuel line hm

/-! ## Programs with a function -/

/-- The start of a program with a single function, `f`. -/
def Machine.withFunction (parameters : List String) (body : Group) : Machine :=
  let m := start (.script []) (fun _ => .error .notFound) (mkStdGen 0)
  let f := Function.ofBody "f" parameters (.line body)
  { m with
    memory.registry :=
      { functions := Registry.standard.functions.push f
        names := [("f", ⟨Builtin.all.length⟩)] } }

theorem Machine.intact_withFunction (parameters : List String) (body : Group) :
    (withFunction parameters body).memory.registry.Intact := by
  have hdefine : Registry.standard.define (.ofBody "f" parameters (.line body)) =
      .ok (⟨Builtin.all.length⟩, (withFunction parameters body).memory.registry) := rfl
  have hbody : ∀ b, Body.line body ≠ .native b := nofun
  exact (Registry.intact_standard.define hbody hdefine).1

theorem Machine.get?_withFunction (parameters : List String) (body : Group) :
    (withFunction parameters body).memory.registry.get? ⟨6⟩ =
      some (.ofBody "f" parameters (.line body)) := rfl

end Linewise
