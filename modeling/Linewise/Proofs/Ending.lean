import Linewise.Proofs.Change
import Mathlib.Order.Filter.AtTopBot.Basic

/-!
# Steps that end

A step that is given fuel *ends* if it comes to a result that does not depend on how
much it is given, as long as it is enough: it gives a value, or fails with a fault.
All the while something holds of the machine and is changed in certain ways only, as
along a coupling.

* `Ends`: a step ends, and what it gives has a property;
* `Ends.bind`, `Bracket.ends`, `ends_reading`: steps that are made of smaller ones.
-/

namespace Linewise.Coupling

open Filter

/-- With enough fuel, the step `x` always does the same. It is not out of fuel then, and
    a value that it gives has the property `Q` of the machine that it leaves. -/
inductive Ends (C : Coupling) {α : Type} (Q : α → Machine → Prop) (x : Nat → Run α) (m : Machine) :
    Prop
  | ok {v : α} {m' : Machine} (hx : ∀ᶠ n in atTop, x n m = .ok v m') (hm : C.holds m')
      (hl : C.leads m m') (hv : Q v m') : Ends C Q x m
  | fault {f : Fault} {m' : Machine} (hx : ∀ᶠ n in atTop, x n m = .error (.fault f) m')
      (hm : C.holds m') (hl : C.leads m m') : Ends C Q x m

variable {C : Coupling} {α β : Type} {m m' : Machine}

section

variable {P Q : α → Machine → Prop} {x y : Nat → Run α}

theorem Ends.weaken (h : C.Ends P x m)
    (hPQ : ∀ v m', C.holds m' → C.leads m m' → P v m' → Q v m') : C.Ends Q x m := by
  cases h with
  | ok hx hm hl hv => exact .ok hx hm hl (hPQ _ _ hm hl hv)
  | fault hx hm hl => exact .fault hx hm hl

/-- Only what the step does with enough fuel matters. -/
theorem Ends.congr (h : C.Ends Q x m) (hxy : ∀ᶠ n in atTop, y n m = x n m) : C.Ends Q y m := by
  have htrans : ∀ {r}, (∀ᶠ n in atTop, x n m = r) → ∀ᶠ n in atTop, y n m = r := by
    intro r hx
    filter_upwards [hxy, hx] with n hxy hx using hxy.trans hx
  cases h with
  | ok hx hm hl hv => exact .ok (htrans hx) hm hl hv
  | fault hx hm hl => exact .fault (htrans hx) hm hl

/-- One unit of fuel more or less makes no difference. -/
theorem Ends.of_succ (h : C.Ends Q (fun n => x (n + 1)) m) : C.Ends Q x m := by
  have hshift : ∀ {p : Nat → Prop}, (∀ᶠ n in atTop, p (n + 1)) → ∀ᶠ n in atTop, p n := by
    intro p hp
    rwa [← map_add_atTop_eq_nat 1, eventually_map]
  cases h with
  | ok hx hm hl hv => exact .ok (hshift hx) hm hl hv
  | fault hx hm hl => exact .fault (hshift hx) hm hl

/-- What is known of the result of the step anyway may be added. -/
theorem Ends.and_ok (h : C.Ends P x m) (hx : ∀ n v m', x n m = .ok v m' → Q v m') :
    C.Ends (fun v m' => P v m' ∧ Q v m') x m := by
  cases h with
  | ok hok hm hl hv =>
    obtain ⟨n, hn⟩ := hok.exists
    exact .ok hok hm hl ⟨hv, hx n _ _ hn⟩
  | fault hfault hm hl => exact .fault hfault hm hl

theorem Ends.exists_forall_ge (h : C.Ends Q x m) :
    ∃ n r, (∀ k ≥ n, x k m = r) ∧ ∀ m', r ≠ .error .outOfFuel m' := by
  cases h with
  | ok hx =>
    obtain ⟨n, hn⟩ := eventually_atTop.1 hx
    exact ⟨n, _, hn, nofun⟩
  | fault hx =>
    obtain ⟨n, hn⟩ := eventually_atTop.1 hx
    exact ⟨n, _, hn, nofun⟩

/-- What holds of the machine that is left. -/
theorem Ends.holds_after {x : Run α} (h : C.Ends Q (fun _ => x) m) : C.holds (x.after m) := by
  cases h with
  | ok hx hm =>
    obtain ⟨-, hx⟩ := hx.exists
    rwa [Run.after_of_ok hx]
  | fault hx hm =>
    obtain ⟨-, hx⟩ := hx.exists
    rwa [Run.after_of_error hx]

end

/-! ## Steps -/

section

variable {P : α → Machine → Prop} {Q : β → Machine → Prop}

theorem ends_pure (hC : C.Ordered) (hm : C.holds m) {v : α} (hv : P v m) :
    C.Ends P (fun _ => pure v) m :=
  .ok (.of_forall fun _ => rfl) hm (hC.refl m) hv

theorem ends_fail (hC : C.Ordered) (hm : C.holds m) (f : Fault) :
    C.Ends P (fun _ => Run.fail f) m :=
  .fault (f := f) (.of_forall fun _ => rfl) hm (hC.refl m)

/-- A step that takes no fuel ends. -/
theorem ends_of_after {x : Run α} (hx : ∀ m', x m ≠ .error .outOfFuel m') (hm : C.holds (x.after m))
    (hl : C.leads m (x.after m)) (hP : ∀ v m', x m = .ok v m' → P v m') :
    C.Ends P (fun _ => x) m := by
  cases h : x m with
  | ok v m' =>
    rw [Run.after_of_ok h] at hm hl
    exact .ok (.of_forall fun _ => h) hm hl (hP v m' h)
  | error e m' =>
    rw [Run.after_of_error h] at hm hl
    cases e with
    | fault f => exact .fault (.of_forall fun _ => h) hm hl
    | outOfFuel => exact absurd h (hx m')

theorem ends_reading (hC : C.Ordered) (hm : C.holds m) {f : Machine → Except Fault α}
    (hf : ∀ v, f m = .ok v → P v m) : C.Ends P (fun _ => Run.reading f) m := by
  cases h : f m with
  | ok v => exact .ok (.of_forall fun _ => by rw [Run.reading, h]) hm (hC.refl m) (hf v h)
  | error e =>
    exact .fault (f := e) (.of_forall fun _ => by rw [Run.reading, h]) hm (hC.refl m)

theorem ends_ofExcept (hC : C.Ordered) (hm : C.holds m) {x : Except Fault α}
    (hx : ∀ v, x = .ok v → P v m) : C.Ends P (fun _ => Run.ofExcept x) m :=
  ends_reading hC hm hx

/-- The step changes the machine, and then gives what is already there or fails. -/
theorem ends_of_ofExcept (hm : C.holds m') (hl : C.leads m m') {x : Run α} {r : Except Fault α}
    (hx : x m = Run.ofExcept r m') (hr : ∀ v, r = .ok v → P v m') : C.Ends P (fun _ => x) m := by
  cases r with
  | ok v => exact .ok (.of_forall fun _ => hx) hm hl (hr v rfl)
  | error f => exact .fault (f := f) (.of_forall fun _ => hx) hm hl

theorem Step.ends_modifyGet {f : Machine → α × Machine} (h : C.Step (fun m => (f m).2) m)
    (hP : P (f m).1 (f m).2) : C.Ends P (fun _ => modifyGet f) m :=
  .ok (.of_forall fun _ => rfl) h.holds h.leads hP

theorem Step.ends_modify {change : Machine → Machine} {P : PUnit → Machine → Prop}
    (h : C.Step change m) (hP : P ⟨⟩ (change m)) : C.Ends P (fun _ => modify change) m :=
  h.ends_modifyGet hP

theorem Ends.bind (hC : C.Ordered) {x : Nat → Run α} {f : Nat → α → Run β} (h : C.Ends P x m)
    (hf : ∀ v m', C.holds m' → C.leads m m' → P v m' → C.Ends Q (fun n => f n v) m') :
    C.Ends Q (fun n => x n >>= f n) m := by
  cases h with
  | @ok v m₁ hx hm hl hv =>
    have hbind : ∀ {r}, (∀ᶠ n in atTop, f n v m₁ = r) → ∀ᶠ n in atTop, (x n >>= f n) m = r := by
      intro r hf
      filter_upwards [hx, hf] with n hx hf using (Run.bind_of_ok hx).trans hf
    cases hf v m₁ hm hl hv with
    | ok hf hm' hl' hw => exact .ok (hbind hf) hm' (hC.trans hl hl') hw
    | fault hf hm' hl' => exact .fault (hbind hf) hm' (hC.trans hl hl')
  | fault hx hm hl => exact .fault (hx.mono fun n h => Run.bind_eq_error.2 (.inl h)) hm hl

theorem Ends.map (hC : C.Ordered) {x : Nat → Run α} {f : α → β} (h : C.Ends P x m)
    (hf : ∀ v m', P v m' → Q (f v) m') : C.Ends Q (fun n => f <$> x n) m :=
  Ends.bind hC h fun v m' hm' _ hv => ends_pure hC hm' (hf v m' hv)

/-- A step that looks at the machine goes on with what it sees. -/
theorem ends_get_bind {f : Nat → Machine → Run β} (h : C.Ends Q (fun n => f n m) m) :
    C.Ends Q (fun n => get >>= f n) m :=
  h.congr (.of_forall fun _ => rfl)

theorem Bracket.ends {enter leave : Machine → Machine} (h : C.Bracket P enter leave m)
    {x : Nat → Run α} (hx : C.Ends P x (enter m)) :
    C.Ends P (fun n m => Run.ensuring leave (x n) (enter m)) m := by
  have hensuring : ∀ {r}, (∀ᶠ n in atTop, x n (enter m) = r) → ∀ᶠ n in atTop,
      Run.ensuring leave (x n) (enter m) = Run.ensuring leave (fun _ => r) (enter m) := by
    intro r hx
    filter_upwards [hx] with n hx
    simp only [Run.ensuring, hx]
  cases hx with
  | ok hx hm hl hv =>
    exact .ok (hensuring hx) (h.leave_holds _ hm hl) (h.leave_leads _ hm hl)
      (h.leave_result _ _ hm hl hv)
  | fault hx hm hl =>
    exact .fault (hensuring hx) (h.leave_holds _ hm hl) (h.leave_leads _ hm hl)

end

end Linewise.Coupling
