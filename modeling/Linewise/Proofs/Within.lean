import Linewise.Proofs.Unread

/-!
# Evaluations that stay within their blocks

A statement takes the lines after it from the innermost block that is running, and so does
every construct in it whose body is a block. Where these lines belong to a block that the
statement itself has started, nothing is taken from the blocks around it (`within`). An
evaluation that does not use the source either leaves all that comes after it in place
(`unread_of_within`).
-/

namespace Linewise

/-- No function is called that uses the source, and no group evaluated that may capture a
    block, unless a further block is running than those of which the statements in `below` are
    left. -/
def within (below : List (List String)) : Watch where
  opens m := below.length < m.cursors.length
  call c m := !m.usesSource c

/-- Along this walk, no line is taken from the source or from the blocks below. -/
def withinWalk (below : List (List String)) : Walk where
  twin := id
  holds m := below <:+ m.cursors
  leads := Machine.Unread
  lenient := True
  native b _ := b.usesSource = false
  opens m := below.length < m.cursors.length
  replays m := below.length < m.cursors.length

namespace withinWalk

variable {below : List (List String)} {m : Machine}

/-- The innermost block is not one of those below. -/
theorem suffix_of_lt {statements rest : List String} {cursors : List (List String)}
    (hm : (withinWalk below).holds m) (hlt : below.length < m.cursors.length)
    (hc : m.cursors = statements :: cursors) : below <:+ rest :: cursors := by
  have hbelow : below <:+ m.cursors := hm
  rw [hc] at hbelow hlt
  rcases List.suffix_cons_iff.1 hbelow with rfl | hbelow
  · exact absurd hlt (Nat.lt_irrefl _)
  · exact hbelow.trans (List.suffix_cons rest cursors)

theorem step {f : Machine → Machine} (hm : (withinWalk below).holds m)
    (hc : (f m).cursors = m.cursors) (hs : (f m).source = m.source)
    (hsuspended : (f m).suspended = m.suspended) (hl : (f m).line = m.line) :
    (withinWalk below).Step f m where
  holds := by
    show below <:+ (f m).cursors
    rw [hc]
    exact hm
  leads := ⟨congrArg List.length hc, hs, hsuspended, hl⟩
  twin := rfl

theorem capture (elseAllowed : Bool) (hm : (withinWalk below).holds m)
    (ho : (withinWalk below).opens m) :
    (withinWalk below).Couples (fun _ _ => True) (Run.captureBlock elseAllowed)
      (Run.captureBlock elseAllowed) m := by
  obtain ⟨statements, cursors, hcursors⟩ :=
    List.exists_cons_of_ne_nil (List.ne_nil_of_length_pos (Nat.zero_lt_of_lt ho))
  have hcapture := Run.captureBlock_of_cursor hcursors elseAllowed
  refine Coupling.couples_of_ofExcept ?_ ?_ hcapture hcapture fun _ _ => trivial
  · exact suffix_of_lt hm ho hcursors
  · exact ⟨(congrArg List.length hcursors).symm, rfl, rfl, rfl⟩

theorem cursor (hm : (withinWalk below).holds m) (statements : List String) :
    (withinWalk below).Bracket (withinWalk below).reach
      (fun m => { m with cursors := statements :: m.cursors })
      (fun m => { m with cursors := m.cursors.tail }) m where
  enter_holds := hm.trans (List.suffix_cons statements m.cursors)
  enter_twin := rfl
  leave_holds m' hm' hl := by
    -- There is one block more than before, so it is not one of those below.
    have hlength : m'.cursors.length = m.cursors.length + 1 := hl.cursors
    obtain ⟨top, cursors, hcursors⟩ :=
      List.exists_cons_of_ne_nil (List.ne_nil_of_length_eq_add_one hlength)
    show below <:+ m'.cursors.tail
    have hbelow : below <:+ m'.cursors := hm'
    have hle : below.length ≤ m.cursors.length := hm.length_le
    rw [hcursors] at hbelow hlength ⊢
    rcases List.suffix_cons_iff.1 hbelow with rfl | hbelow
    · omega
    · exact hbelow
  leave_leads _ _ hl := hl.tail
  leave_twin _ _ _ := rfl
  leave_result _ _ _ _ hv := hv

theorem frame (hm : (withinWalk below).holds m) (bindings : List (String × Value)) :
    (withinWalk below).Bracket (withinWalk below).reach (fun m => m.enterFrame bindings)
      (Machine.leaveFrame (m.enterFrame bindings).frames.level) m where
  enter_holds := by
    show below <:+ (m.enterFrame bindings).cursors
    rw [Machine.cursors_enterFrame]
    exact hm
  enter_twin := rfl
  leave_holds m' hm' _ := by
    obtain ⟨frames, h⟩ := m'.leaveFrame_eq (m.enterFrame bindings).frames.level
    rw [h]
    exact hm'
  leave_leads _ _ hl := hl.leaveFrame _
  leave_twin _ _ _ := rfl
  leave_result _ _ _ _ hv := hv

theorem lawful : (withinWalk below).Lawful where
  refl m := ⟨rfl, rfl, rfl, rfl⟩
  trans := Machine.Unread.trans
  opens_mono hl ho := Nat.lt_of_lt_of_eq ho hl.cursors.symm
  replays_mono hl hr := Nat.lt_of_lt_of_eq hr hl.cursors.symm
  refer hm _ _ := ⟨step hm rfl rfl rfl rfl, trivial⟩
  declare hm _ _ := ⟨step hm rfl rfl rfl rfl, trivial⟩
  write hm _ _ _ _ _ := step hm rfl rfl rfl rfl
  store hm _ := step hm rfl rfl rfl rfl
  define hm _ _ _ := Coupling.couples_define rfl hm (by exact ⟨rfl, rfl, rfl, rfl⟩) fun _ =>
    ⟨step hm rfl rfl rfl rfl, trivial⟩
  outward _ _ hm _ := step hm rfl rfl rfl rfl
  strict _ hm := step hm rfl rfl rfl rfl
  exit hm _ := Coupling.step_exitFrame rfl (fun _ => step hm rfl rfl rfl rfl) fun _ =>
    step hm rfl rfl rfl rfl
  load _ hn _ := nomatch hn
  readLine _ hn := nomatch hn
  capture elseAllowed hm ho := capture elseAllowed hm ho
  advance hm hr := Coupling.couples_advance rfl hm (by exact ⟨rfl, rfl, rfl, rfl⟩) (fun _ => nofun)
    fun hc => ⟨⟨suffix_of_lt hm hr hc,
      ⟨(congrArg List.length hc).symm, rfl, rfl, rfl⟩, rfl⟩, fun _ _ _ _ => trivial⟩
  cursor hm _ _ := cursor hm _
  replays_cursor hm _ _ := Nat.lt_succ_of_le (List.IsSuffix.length_le hm)
  frame hm _ _ := frame hm _
  deeper hm _ := ⟨hm, rfl, fun _ hm' _ => hm',
    fun _ _ hl => ⟨hl.cursors, hl.source, hl.suspended, hl.line⟩, fun _ _ _ => rfl,
    fun _ _ _ _ hv => hv⟩

theorem watched : (withinWalk below).Watched (within below) where
  opens _ := .inl trivial
  call _ _ := .inl trivial
  opened {g m} _ _ _ ho := by
    show below.length < m.cursors.length
    exact of_decide_eq_true ho
  permits {c m} _ _ hc := by
    refine Walk.permits_of_native ?_ trivial
    rintro f F b rfl hF hbody
    have huses : m.usesSource (.function f) = false := Bool.not_inj hc
    exact (Machine.usesSource_of_native hF hbody).symm.trans huses

theorem agree (below : List (List String)) (fuel : Nat) :
    (withinWalk below).Agree ((within below).evaluate fuel) (evaluate fuel) :=
  lawful.agree_watched watched (.inl rfl)

end withinWalk

/-- A loop that stays within its blocks leaves all that comes after it in place. -/
theorem unread_of_within {fuel level n : Nat} {test : Group} {b : Block} {m m' : Machine}
    {v : Value}
    (h : Statement.loop (evaluate fuel) test (Call.runBlock (evaluate fuel) b true) level n m =
      .ok v m')
    (hwithin : ∀ m₁, Statement.loop ((within m.cursors).evaluate fuel) test
      (Call.runBlock ((within m.cursors).evaluate fuel) b true) level n m ≠ .error .outOfFuel m₁) :
    m'.cursors = m.cursors ∧ m.Unread m' := by
  have hagree := withinWalk.agree m.cursors fuel
  have hcouples : (withinWalk m.cursors).Couples (withinWalk m.cursors).value
      (Statement.loop ((within m.cursors).evaluate fuel) test
        (Call.runBlock ((within m.cursors).evaluate fuel) b true) level n)
      (Statement.loop (evaluate fuel) test (Call.runBlock (evaluate fuel) b true) level n) m :=
    Walk.couples_loop withinWalk.lawful hagree (.inl rfl) (List.suffix_refl m.cursors) trivial
      fun _ hm₁ _ => Walk.couples_runBlock withinWalk.lawful hagree hm₁ trivial
  obtain ⟨-, hm', hunread⟩ := hcouples.after rfl fun _ => hwithin
  rw [Run.after_of_ok h] at hm' hunread
  exact ⟨(List.IsSuffix.eq_of_length hm' hunread.cursors.symm).symm, hunread⟩

end Linewise
