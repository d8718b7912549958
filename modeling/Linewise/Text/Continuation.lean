/-!
# Continued lines

A statement that is typed on several lines has a backslash at the end of each
but the last. To be read as one line, each backslash is replaced by a blank,
together with the newline after it.

* `joinContinued_eq_self_iff`: this changes a text only if a line of it is continued;
* `not_continued_joinContinued`: no line is continued afterwards.
-/

namespace Linewise.Text

/-- The characters with each backslash before a newline, and that newline,
    replaced by a blank. -/
def joinContinuedList : List Char → List Char
  | '\\' :: '\n' :: cs => ' ' :: joinContinuedList cs
  | c :: cs => c :: joinContinuedList cs
  | [] => []

/-- A text of several continued lines as one line. -/
def joinContinued (s : String) : String :=
  String.ofList (joinContinuedList s.toList)

/-- A line of the text is continued on the next one. -/
def Continued (cs : List Char) : Prop :=
  ['\\', '\n'] <:+: cs

/-- Newlines come from newlines. -/
theorem head?_of_joinContinuedList {cs : List Char} (h : (joinContinuedList cs).head? = some '\n') :
    cs.head? = some '\n' := by
  unfold joinContinuedList at h
  split at h
  · exact absurd (Option.some.inj h) (by decide)
  · exact h
  · cases h

theorem not_continued_joinContinuedList (cs : List Char) : ¬Continued (joinContinuedList cs) := by
  fun_induction joinContinuedList cs with
  | case1 cs ih =>
    intro h
    rcases List.infix_cons_iff.1 h with hprefix | hinfix
    · exact absurd (List.cons_prefix_cons.1 hprefix).1 (by decide)
    · exact ih hinfix
  | case2 c cs hnot ih =>
    intro h
    rcases List.infix_cons_iff.1 h with hprefix | hinfix
    · obtain ⟨hc, ⟨rest, hrest⟩⟩ := List.cons_prefix_cons.1 hprefix
      have hhead : cs.head? = some '\n' :=
        head?_of_joinContinuedList (by rw [← hrest]; rfl)
      obtain ⟨rest, rfl⟩ := List.head?_eq_some_iff.1 hhead
      exact hnot rest hc.symm rfl
    · exact ih hinfix
  | case3 => exact fun h => nomatch List.infix_nil.1 h

theorem joinContinuedList_eq_self {cs : List Char} (h : ¬Continued cs) :
    joinContinuedList cs = cs := by
  fun_induction joinContinuedList cs with
  | case1 cs ih => exact absurd ⟨[], cs, rfl⟩ h
  | case2 c cs hnot ih => rw [ih fun hinfix => h (List.infix_cons_iff.2 (.inr hinfix))]
  | case3 => rfl

/-- No line is continued any more. -/
theorem not_continued_joinContinued (s : String) : ¬Continued (joinContinued s).toList := by
  rw [joinContinued, String.toList_ofList]
  exact not_continued_joinContinuedList s.toList

/-- Only continued lines are changed. -/
theorem joinContinued_eq_self_iff {s : String} :
    joinContinued s = s ↔ ¬Continued s.toList := by
  constructor
  · intro h
    exact h ▸ not_continued_joinContinued s
  · intro h
    rw [joinContinued, joinContinuedList_eq_self h, String.ofList_toList]

end Linewise.Text
