import Linewise.Proofs.Library
import Linewise.Proofs.Token

/-!
# Programs that do not read

Three functions of the standard library use the source: `read` and `read_string`
take lines from it, and `load` puts another one in its place. A program gets hold
of a function by its name only, so one that does not mention these three never
calls them. It can still take lines from the source, as the bodies of multi-line
constructs.

* `Group.Readless`: none of the three is mentioned;
* `Group.Settled`: blocks are captured only where a block is running;
* `Group.Fits`, `Memory.Fits`, `Machine.Fits`: all that a machine holds is
  `Readless`, and `Settled` as well if the source is to stay as it is.
-/

namespace Linewise

/-! ## Functions that use the source -/

/-- The function takes lines from the source, or puts another one in its place. -/
def Builtin.usesSource : Builtin → Bool
  | read | readString | load => true
  | _ => false

/-- The symbol does not name a function that uses the source. -/
def Symbol.Readless (s : String) : Prop :=
  ∀ b : Builtin, b.usesSource = true → s ≠ b.name

theorem Symbol.readless_iff {s : String} :
    Readless s ↔ s ≠ "read" ∧ s ≠ "read_string" ∧ s ≠ "load" := by
  refine ⟨fun h => ⟨h .read rfl, h .readString rfl, h .load rfl⟩, fun h b hb => ?_⟩
  cases b with
  | read => exact h.1
  | readString => exact h.2.1
  | load => exact h.2.2
  | _ => cases hb

/-- The function is none that uses the source. -/
def FunctionRef.Readless (f : FunctionRef) : Prop :=
  ∀ b : Builtin, b.usesSource = true → f ≠ Registry.builtinRef b

/-- Functions of the program do not count, whatever they do. -/
theorem FunctionRef.readless_of_le {f : FunctionRef} (h : Builtin.all.length ≤ f.index) :
    f.Readless := fun b _ heq =>
  absurd (heq ▸ Registry.index_builtinRef_lt b) (Nat.not_lt.2 h)

namespace Registry.Intact

variable {r : Registry} (hr : r.Intact)

include hr

/-- A symbol only stands for a function that uses the source if it is its name. -/
theorem find?_readless {s : String} (hs : Symbol.Readless s) {f : FunctionRef}
    (hf : r.find? s = some f) : f.Readless :=
  fun b hb => hr.find?_ne_builtinRef (hs b hb) hf

theorem usesSource_eq_false {f : FunctionRef} (hf : f.Readless) {F : Function}
    (hF : r.get? f = some F) {b : Builtin} (hb : F.body = .native b) : b.usesSource = false :=
  Bool.eq_false_iff.2 fun huses => hf b huses (hr.eq_builtinRef_of_native hF hb)

end Registry.Intact

/-! ## Groups -/

mutual

/-- No symbol in the item names a function that uses the source. -/
def Item.Readless : Item → Prop
  | .symbol s => Symbol.Readless s
  | .text _ => True
  | .group items => Item.AllReadless items

def Item.AllReadless : List Item → Prop
  | [] => True
  | item :: items => item.Readless ∧ Item.AllReadless items

end

theorem Item.allReadless_iff {items : List Item} :
    Item.AllReadless items ↔ ∀ item ∈ items, item.Readless := by
  induction items with
  | nil => simp [AllReadless]
  | cons item items ih => rw [AllReadless, ih, List.forall_mem_cons]

/-- No symbol in the group names a function that uses the source. -/
def Group.Readless (g : Group) : Prop :=
  ∀ item ∈ g, item.Readless

theorem Item.readless_group {g : Group} : (Item.group g).Readless ↔ g.Readless :=
  Item.allReadless_iff

instance (s : String) : Decidable (Symbol.Readless s) :=
  decidable_of_iff _ Symbol.readless_iff.symm

mutual

instance Item.decidableReadless : ∀ item : Item, Decidable item.Readless
  | .symbol s => inferInstanceAs <| Decidable (Symbol.Readless s)
  | .text _ => .isTrue trivial
  | .group items => Item.decidableAllReadless items

instance Item.decidableAllReadless : ∀ items : List Item, Decidable (Item.AllReadless items)
  | [] => .isTrue trivial
  | item :: items =>
    have := Item.decidableReadless item
    have := Item.decidableAllReadless items
    inferInstanceAs <| Decidable (item.Readless ∧ Item.AllReadless items)

end

instance (g : Group) : Decidable g.Readless :=
  inferInstanceAs <| Decidable (∀ item ∈ g, item.Readless)

/-- Blocks are captured only if `inBlock`, and functions that are defined on the
    line, or in its second branch, never capture any. -/
inductive Group.Settled : Bool → Group → Prop
  | mk {inBlock : Bool} {g : Group}
      (block : .block ∈ Statement.parts g → inBlock = true)
      (group : ∀ g', .group g' ∈ Statement.parts g → Settled inBlock g')
      (line : ∀ g', .line g' ∈ Statement.parts g → Settled false g')
      (second : (Capture.startsWithElse? g).isSome → Settled inBlock g.tail) :
      Settled inBlock g

/-- What captures no block may be evaluated in a block too. -/
theorem Group.Settled.inBlock {g : Group} (h : g.Settled false) (inBlock : Bool) :
    g.Settled inBlock := by
  generalize hfalse : false = b at h
  induction h with
  | mk block group line second ihgroup ihline ihsecond =>
    subst hfalse
    exact .mk (fun h => nomatch block h) (fun g' h => ihgroup g' h rfl) line
      fun h => ihsecond h rfl

/-- The group does not mention the functions that use the source. If that is to
    stay as it is (`still`), blocks are captured only if `inBlock`. -/
structure Group.Fits (still : Prop) (inBlock : Bool) (g : Group) : Prop where
  readless : g.Readless
  settled : still → g.Settled inBlock

section

variable {still : Prop}

/-- What has to be known of a part where a group fits. -/
def Part.Fits (still : Prop) (inBlock : Bool) : Part → Prop
  | symbol s => Symbol.Readless s
  | group g => g.Fits still inBlock
  | line g => g.Fits still false
  | block => still → inBlock = true

theorem Group.Fits.part {inBlock : Bool} {g : Group} {p : Part} (h : g.Fits still inBlock)
    (hp : p ∈ Statement.parts g) : p.Fits still inBlock := by
  have hwithin := Statement.within_of_parts hp
  have hreadless : ∀ g', .group g' ∈ g ∨ g'.Sublist g → Group.Readless g' := by
    rintro g' (hmem | hsub)
    · exact Item.readless_group.1 (h.readless _ hmem)
    · exact fun item hitem => h.readless item (hsub.mem hitem)
  cases p with
  | symbol s => exact h.readless _ hwithin
  | group g' =>
    refine ⟨hreadless g' hwithin, fun hstill => ?_⟩
    obtain ⟨-, hgroup, -, -⟩ := h.settled hstill
    exact hgroup g' hp
  | line g' =>
    refine ⟨hreadless g' hwithin, fun hstill => ?_⟩
    obtain ⟨-, -, hline, -⟩ := h.settled hstill
    exact hline g' hp
  | block =>
    intro hstill
    obtain ⟨hblock, -, -, -⟩ := h.settled hstill
    exact hblock hp

/-! ## Lines and blocks -/

/-- The statement on a line, if it is one, may be evaluated in a block. -/
def Statement.Fits (still : Prop) (line : String) : Prop :=
  ∀ g, Group.ofLine (Text.trim line) = .ok g → g.Fits still true

def Block.Fits (still : Prop) (b : Block) : Prop :=
  ∀ line ∈ b.statements, Statement.Fits still line

def Body.Fits (still : Prop) : Body → Prop
  | .native _ => True
  | .line g => g.Fits still false
  | .block b => b.Fits still

theorem Statement.fits_trim {line : String} (h : Statement.Fits still line) :
    Statement.Fits still (Text.trim line) := by
  intro g hg
  rw [Text.trim_trim] at hg
  exact h g hg

theorem Group.ofLine_else : Group.ofLine (Text.trim "else") = .ok [.symbol "else"] := rfl

theorem Statement.fits_else : Statement.Fits still "else" := by
  intro g hg
  rw [Group.ofLine_else] at hg
  obtain rfl := Except.ok.inj hg
  have hempty : Group.Settled true [] :=
    .mk (fun _ => rfl) (fun _ => nofun) (fun _ => nofun) fun h => nomatch h
  refine ⟨List.forall_mem_singleton.2 (by decide), fun _ => ?_⟩
  exact .mk (fun _ => rfl) (fun _ => nofun) (fun _ => nofun) fun _ => hempty

/-- What follows `else` on a line may be evaluated in a block too. -/
theorem Statement.fits_afterKeyword {line keyword : String} {g : Group}
    (h : Statement.Fits still line) (hg : Group.ofLine (Text.trim line) = .ok g)
    (hk : Capture.startsWithElse? g = some keyword) :
    Statement.Fits still (Capture.afterKeyword (Text.trim line) keyword) := by
  intro g' hg'
  rw [Capture.afterKeyword, Text.trim_trim] at hg'
  cases (Capture.ofLine_afterKeyword hg hk).symm.trans hg'
  -- What is left of the line is the group without its first item, and that it may
  -- be evaluated in a block is part of what is known of the whole group.
  obtain ⟨hreadless, hsettled⟩ := h g hg
  refine ⟨fun item hitem => hreadless item (List.mem_of_mem_tail hitem), fun hstill => ?_⟩
  obtain ⟨-, -, -, hsecond⟩ := hsettled hstill
  exact hsecond (hk ▸ rfl)

theorem Block.Fits.branch {b : Block} (h : b.Fits still) {first : Bool}
    {statements : List String} (hs : b.branch first = .ok statements) :
    ∀ line ∈ statements, Statement.Fits still line :=
  fun line hline => h line ((Block.sublist_of_branch hs).mem hline)

theorem Statement.lasting_fits : Capture.Lasting (Statement.Fits still) where
  trim := fits_trim
  alternative := fits_else
  afterKeyword := fits_afterKeyword

/-- A block that is captured from lines that fit fits. -/
theorem Block.fits_of_capture {elseAllowed : Bool} {lines : List String}
    (hlines : ∀ line ∈ lines, Statement.Fits still line) {b : Block}
    (hb : (capture elseAllowed lines).block = .ok b) : b.Fits still :=
  Statement.lasting_fits.run (Capture.all_start elseAllowed)
    (fun l hl _ h => Except.ok.inj h ▸ hlines l hl) hb

end

end Linewise
