import Linewise.Statement

/-!
# Couplings

Two runs side by side. The first starts from some machine, and the second from
its *twin*; they are coupled if they do the same, step for step, and what is
left is again a machine and its twin. All the while something holds of the
machine of the first run, and the run only changes it in certain ways.

A coupling is stated once for what a program can do to its machine, and carried
from there through the whole evaluation (`Linewise.Proofs.Walk`). If the twin of
a machine is the machine itself, what remains is an invariant.

The two runs may be of different programs. This is how an evaluation is compared
with one that is watched, or that has more fuel. The second one need not follow the
first where that is out of fuel or interrupted in certain ways (`Coupling.excused`), or
once it has come to a machine on which the two have parted for good
(`Coupling.gone`).

* `Couples`: two steps are coupled, and the result of the first has a property;
* `Couples.bind`, `couples_reading`, `Coupling.Bracket.couples`: steps that are
  made of smaller ones.
-/

namespace Linewise

theorem Run.bind_eq_ok {α β : Type} {x : Run α} {f : α → Run β} {w : β} {m m' : Machine} :
    (x >>= f) m = .ok w m' ↔ ∃ v m₁, x m = .ok v m₁ ∧ f v m₁ = .ok w m' := by
  simp only [Bind.bind, EStateM.bind]
  cases x m with
  | ok v m₁ => exact ⟨fun h => ⟨v, m₁, rfl, h⟩, fun ⟨_, _, hv, h⟩ => by cases hv; exact h⟩
  | error e m₁ => exact ⟨nofun, nofun⟩

theorem Run.bind_eq_error {α β : Type} {x : Run α} {f : α → Run β} {e : Interrupt}
    {m m' : Machine} :
    (x >>= f) m = .error e m' ↔
      x m = .error e m' ∨ ∃ v m₁, x m = .ok v m₁ ∧ f v m₁ = .error e m' := by
  simp only [Bind.bind, EStateM.bind]
  cases x m with
  | ok v m₁ =>
    refine ⟨fun h => .inr ⟨v, m₁, rfl, h⟩, fun h => ?_⟩
    obtain h | ⟨_, _, hv, h⟩ := h
    · cases h
    · cases hv
      exact h
  | error e' m₁ =>
    refine ⟨fun h => .inl (by cases h; rfl), fun h => ?_⟩
    obtain h | ⟨_, _, hv, -⟩ := h
    · cases h
      rfl
    · cases hv

theorem Run.bind_of_ok {α β : Type} {x : Run α} {f : α → Run β} {v : α} {m m' : Machine}
    (h : x m = .ok v m') : (x >>= f) m = f v m' := by
  simp only [Bind.bind, EStateM.bind, h]

theorem Run.bind_of_eq {α β : Type} {x y : Run α} {m m' : Machine} (h : x m = y m')
    (f : α → Run β) : (x >>= f) m = (y >>= f) m' := by
  simp only [Bind.bind, EStateM.bind, h]

theorem Run.ofExcept_ok_bind {α β : Type} (a : α) (f : α → Run β) :
    ofExcept (.ok a) >>= f = f a := rfl

/-- Two steps that give the same go on in the same way. -/
theorem Run.bind_congr {α β : Type} {x y : Run α} {f g : α → Run β} {m : Machine}
    (hxy : x m = y m) (hfg : ∀ v m', x m = .ok v m' → f v m' = g v m') :
    (x >>= f) m = (y >>= g) m := by
  simp only [Bind.bind, EStateM.bind, ← hxy]
  cases h : x m with
  | ok v m' => exact hfg v m' h
  | error e m' => rfl

structure Coupling where
  /-- The machine of the second run, where the first has the given one. -/
  twin : Machine → Machine
  /-- What holds of the machine of the first run. -/
  holds : Machine → Prop
  /-- What the first run may make of a machine. -/
  leads : Machine → Machine → Prop
  /-- The second run need not follow a first one that is out of fuel. -/
  lenient : Prop
  /-- Nor need it follow one that is interrupted like this. -/
  excused : Interrupt → Prop := fun _ => False
  /-- Nor need it follow from such a machine on. -/
  gone : Machine → Prop := fun _ => False

namespace Coupling

/-- The second run need not follow a first one that is interrupted like this. -/
def spared (C : Coupling) (e : Interrupt) : Prop :=
  C.lenient ∧ e = .outOfFuel ∨ C.excused e

/-- The steps `x` and `y` do the same on a machine and on its twin, and the
    result of `x` has the property `Q` of the machine that it leaves. -/
structure Couples (C : Coupling) {α : Type} (Q : α → Machine → Prop) (x y : Run α) (m : Machine) :
    Prop where
  ok : ∀ {v m'}, x m = .ok v m' →
    (¬C.gone m' → y (C.twin m) = .ok v (C.twin m')) ∧ C.holds m' ∧ C.leads m m' ∧ Q v m'
  error : ∀ {e m'}, x m = .error e m' →
    C.spared e ∨
      (¬C.gone m' → y (C.twin m) = .error e (C.twin m')) ∧ C.holds m' ∧ C.leads m m'

/-- What the first run may do to a machine, it may do in several steps. -/
structure Ordered (C : Coupling) : Prop where
  refl : ∀ m, C.leads m m
  trans : ∀ {m₁ m₂ m₃}, C.leads m₁ m₂ → C.leads m₂ m₃ → C.leads m₁ m₃
  gone_mono : ∀ {m m'}, C.leads m m' → C.gone m → C.gone m' := by intros; assumption

/-- A change of the machine that both runs make. -/
structure Step (C : Coupling) (change : Machine → Machine) (m : Machine) : Prop where
  holds : C.holds (change m)
  leads : C.leads m (change m)
  twin : change (C.twin m) = C.twin (change m)

/-- A change `enter` that is taken back by `leave` whatever happens in between;
    what `Q` says of a result stays true. -/
structure Bracket (C : Coupling) {α : Type} (Q : α → Machine → Prop)
    (enter leave : Machine → Machine) (m : Machine) : Prop where
  enter_holds : C.holds (enter m)
  enter_twin : enter (C.twin m) = C.twin (enter m)
  leave_holds : ∀ m', C.holds m' → C.leads (enter m) m' → C.holds (leave m')
  leave_leads : ∀ m', C.holds m' → C.leads (enter m) m' → C.leads m (leave m')
  leave_twin : ∀ m', C.holds m' → C.leads (enter m) m' → leave (C.twin m') = C.twin (leave m')
  leave_result : ∀ v m', C.holds m' → C.leads (enter m) m' → Q v m' → Q v (leave m')

variable {C : Coupling} {α β : Type} {m m' : Machine}

/-! ## Results -/

section

variable {P Q : α → Machine → Prop} {x y : Run α}

theorem Couples.weaken (h : C.Couples P x y m)
    (hPQ : ∀ v m', C.holds m' → C.leads m m' → P v m' → Q v m') : C.Couples Q x y m where
  ok hx :=
    have ⟨hy, hm', hl, hv⟩ := h.ok hx
    ⟨hy, hm', hl, hPQ _ _ hm' hl hv⟩
  error := h.error

/-- Where no interrupt is spared, the second run fails as the first does. -/
theorem Couples.error_strict (h : C.Couples P x y m) (hlenient : ¬C.lenient)
    (hexcused : ∀ e, ¬C.excused e) {e : Interrupt} (hx : x m = .error e m') :
    (¬C.gone m' → y (C.twin m) = .error e (C.twin m')) ∧ C.holds m' ∧ C.leads m m' :=
  (h.error hx).resolve_left fun he => he.elim (fun ⟨h, _⟩ => hlenient h) (hexcused e)

/-- Only what the steps do on the two machines matters. -/
theorem Couples.congr {x' y' : Run α} (h : C.Couples Q x y m) (hx : x' m = x m)
    (hy : y' (C.twin m) = y (C.twin m)) : C.Couples Q x' y' m where
  ok hv := hy.symm ▸ h.ok (hx ▸ hv)
  error he := hy.symm ▸ h.error (hx ▸ he)

/-- What is known of the result of the first step anyway may be added. -/
theorem Couples.and_ok (h : C.Couples P x y m) (hx : ∀ v m', x m = .ok v m' → Q v m') :
    C.Couples (fun v m' => P v m' ∧ Q v m') x y m where
  ok hv :=
    have ⟨hy, hm', hl, hP⟩ := h.ok hv
    ⟨hy, hm', hl, hP, hx _ _ hv⟩
  error := h.error

end

/-! ## Steps -/

/-- Only what a change makes of the two machines matters. -/
theorem Step.congr {change change' : Machine → Machine} (h : C.Step change m)
    (hm : change' m = change m) (htwin : change' (C.twin m) = change (C.twin m)) :
    C.Step change' m where
  holds := hm ▸ h.holds
  leads := hm ▸ h.leads
  twin := by rw [htwin, hm, h.twin]

section

variable {P : α → Machine → Prop} {Q : β → Machine → Prop}

theorem couples_of_ok_of (hm : C.holds m') (hl : C.leads m m') {x y : Run α} {v : α}
    (hx : x m = .ok v m') (hy : ¬C.gone m' → y (C.twin m) = .ok v (C.twin m')) (hv : P v m') :
    C.Couples P x y m where
  ok h := by
    cases hx.symm.trans h
    exact ⟨hy, hm, hl, hv⟩
  error h := nomatch hx.symm.trans h

theorem couples_of_ok (hm : C.holds m') (hl : C.leads m m') {x y : Run α} {v : α}
    (hx : x m = .ok v m') (hy : y (C.twin m) = .ok v (C.twin m')) (hv : P v m') :
    C.Couples P x y m :=
  couples_of_ok_of hm hl hx (fun _ => hy) hv

theorem couples_of_error_of (hm : C.holds m') (hl : C.leads m m') {x y : Run α} (e : Interrupt)
    (hx : x m = .error e m') (hy : ¬C.gone m' → y (C.twin m) = .error e (C.twin m')) :
    C.Couples P x y m where
  ok h := nomatch hx.symm.trans h
  error h := by
    cases hx.symm.trans h
    exact .inr ⟨hy, hm, hl⟩

theorem couples_of_error (hm : C.holds m') (hl : C.leads m m') {x y : Run α} (e : Interrupt)
    (hx : x m = .error e m') (hy : y (C.twin m) = .error e (C.twin m')) :
    C.Couples P x y m :=
  couples_of_error_of hm hl e hx fun _ => hy

theorem couples_of_spared {e : Interrupt} (he : C.spared e) {x y : Run α}
    (hx : x m = .error e m') : C.Couples P x y m where
  ok h := nomatch hx.symm.trans h
  error h := by
    cases hx.symm.trans h
    exact .inl he

/-- The second run need not follow one that is out of fuel. -/
theorem couples_of_lenient (hC : C.lenient) {x y : Run α} (hx : x m = .error .outOfFuel m') :
    C.Couples P x y m :=
  couples_of_spared (.inl ⟨hC, rfl⟩) hx

theorem couples_pure (hC : C.Ordered) (hm : C.holds m) {v : α} (hv : P v m) :
    C.Couples P (pure v) (pure v) m :=
  couples_of_ok hm (hC.refl m) rfl rfl hv

theorem couples_throw (hC : C.Ordered) (hm : C.holds m) (e : Interrupt) :
    C.Couples P (throw e) (throw e) m :=
  couples_of_error hm (hC.refl m) e rfl rfl

theorem couples_fail (hC : C.Ordered) (hm : C.holds m) (f : Fault) :
    C.Couples P (Run.fail f) (Run.fail f) m :=
  couples_throw hC hm (.fault f)

theorem Couples.bind (hC : C.Ordered) {x y : Run α} {f g : α → Run β} (h : C.Couples P x y m)
    (hfg : ∀ v m', C.holds m' → C.leads m m' → P v m' → C.Couples Q (f v) (g v) m') :
    C.Couples Q (x >>= f) (y >>= g) m := by
  constructor
  · intro w m'' hw
    obtain ⟨v, m', hx, hf⟩ := Run.bind_eq_ok.1 hw
    obtain ⟨hy, hm', hl, hv⟩ := h.ok hx
    obtain ⟨hg, hm'', hl', hw⟩ := (hfg v m' hm' hl hv).ok hf
    refine ⟨fun hgone => ?_, hm'', hC.trans hl hl', hw⟩
    exact Run.bind_eq_ok.2 ⟨v, _, hy fun h => hgone (hC.gone_mono hl' h), hg hgone⟩
  · -- Either `x` fails already, or it gives what `f` then fails with. In both
    -- cases the second run fails at the same place.
    intro e m'' he
    obtain hx | ⟨v, m', hx, hf⟩ := Run.bind_eq_error.1 he
    · exact (h.error hx).imp_right fun ⟨hy, hrest⟩ =>
        ⟨fun hgone => Run.bind_eq_error.2 (.inl (hy hgone)), hrest⟩
    · obtain ⟨hy, hm', hl, hv⟩ := h.ok hx
      refine ((hfg v m' hm' hl hv).error hf).imp_right fun ⟨hg, hm'', hl'⟩ => ?_
      refine ⟨fun hgone => Run.bind_eq_error.2 (.inr ?_), hm'', hC.trans hl hl'⟩
      exact ⟨v, _, hy fun h => hgone (hC.gone_mono hl' h), hg hgone⟩

theorem Couples.map (hC : C.Ordered) {x y : Run α} {f : α → β} (h : C.Couples P x y m)
    (hf : ∀ v m', P v m' → Q (f v) m') : C.Couples Q (f <$> x) (f <$> y) m :=
  Couples.bind hC h fun v m' hm' _ hv => couples_pure hC hm' (hf v m' hv)

/-- A step that looks at the machine goes on in the same way on both. -/
theorem couples_get_bind {f g : Machine → Run β} (h : C.Couples Q (f m) (g (C.twin m)) m) :
    C.Couples Q (get >>= f) (get >>= g) m :=
  ⟨h.ok, h.error⟩

theorem couples_reading (hC : C.Ordered) (hm : C.holds m) {f g : Machine → Except Fault α}
    (hfg : g (C.twin m) = f m) (hf : ∀ v, f m = .ok v → P v m) :
    C.Couples P (Run.reading f) (Run.reading g) m := by
  cases h : f m with
  | ok v =>
    refine couples_of_ok hm (hC.refl m) ?_ ?_ (hf v h)
    · rw [Run.reading, h]
    · rw [Run.reading, hfg, h]
  | error e =>
    refine couples_of_error hm (hC.refl m) (.fault e) ?_ ?_
    · rw [Run.reading, h]
    · rw [Run.reading, hfg, h]

/-- Both steps change the machine, and then give what is already there or fail. -/
theorem couples_of_ofExcept_of (hm : C.holds m') (hl : C.leads m m') {x y : Run α}
    {r : Except Fault α} (hx : x m = Run.ofExcept r m')
    (hy : ¬C.gone m' → y (C.twin m) = Run.ofExcept r (C.twin m'))
    (hr : ∀ v, r = .ok v → P v m') : C.Couples P x y m := by
  cases r with
  | ok v => exact couples_of_ok_of hm hl hx hy (hr v rfl)
  | error e => exact couples_of_error_of hm hl (.fault e) hx hy

theorem couples_of_ofExcept (hm : C.holds m') (hl : C.leads m m') {x y : Run α}
    {r : Except Fault α} (hx : x m = Run.ofExcept r m')
    (hy : y (C.twin m) = Run.ofExcept r (C.twin m')) (hr : ∀ v, r = .ok v → P v m') :
    C.Couples P x y m :=
  couples_of_ofExcept_of hm hl hx (fun _ => hy) hr

theorem couples_ofExcept (hC : C.Ordered) (hm : C.holds m) {x : Except Fault α}
    (hx : ∀ v, x = .ok v → P v m) : C.Couples P (Run.ofExcept x) (Run.ofExcept x) m :=
  couples_reading hC hm rfl hx

theorem Step.couples_modifyGet {f : Machine → α × Machine}
    (h : C.Step (fun m => (f m).2) m) (hv : (f (C.twin m)).1 = (f m).1)
    (hP : P (f m).1 (f m).2) :
    C.Couples P (modifyGet f) (modifyGet f) m := by
  refine couples_of_ok h.holds h.leads rfl ?_ hP
  rw [← hv, ← h.twin]
  rfl

theorem Step.couples_modify {change : Machine → Machine} {P : PUnit → Machine → Prop}
    (h : C.Step change m) (hP : P ⟨⟩ (change m)) :
    C.Couples P (modify change) (modify change) m :=
  h.couples_modifyGet rfl hP

theorem Bracket.couples {enter leave : Machine → Machine} (h : C.Bracket P enter leave m)
    (hleave : ∀ m', C.gone m' → C.gone (leave m')) {x y : Run α} (hxy : C.Couples P x y (enter m)) :
    C.Couples P (fun m => Run.ensuring leave x (enter m)) (fun m => Run.ensuring leave y (enter m))
      m := by
  -- Whatever comes of the step, `leave` is made of what is left, and it is made
  -- of the twin by the second run.
  cases hx : x (enter m) with
  | ok v m' =>
    obtain ⟨hy, hm', hl, hv⟩ := hxy.ok hx
    refine couples_of_ok_of (h.leave_holds m' hm' hl) (h.leave_leads m' hm' hl) ?_
      (fun hgone => ?_) (h.leave_result v m' hm' hl hv)
    · rw [Run.ensuring, hx]
    · rw [Run.ensuring, h.enter_twin, hy fun h => hgone (hleave m' h)]
      exact congrArg (EStateM.Result.ok v) (h.leave_twin m' hm' hl)
  | error e m' =>
    rcases hxy.error hx with he | ⟨hy, hm', hl⟩
    · exact couples_of_spared he (by rw [Run.ensuring, hx])
    · refine couples_of_error_of (h.leave_holds m' hm' hl) (h.leave_leads m' hm' hl) e ?_
        fun hgone => ?_
      · rw [Run.ensuring, hx]
      · rw [Run.ensuring, h.enter_twin, hy fun h => hgone (hleave m' h)]
        exact congrArg (EStateM.Result.error e) (h.leave_twin m' hm' hl)

end

end Coupling

end Linewise
