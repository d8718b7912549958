/-!
# Blank characters

The characters that separate the symbols of a line and are cut from both its
ends: those with the property `White_Space` of Unicode.

* `trim_eq_self_iff`: trimming changes a text only if it starts or ends with a
  blank.
-/

namespace Linewise.Text

/-- A character with the property `White_Space`. -/
def isBlank (c : Char) : Bool :=
  let n := c.toNat
  (0x9 ≤ n && n ≤ 0xD) || n == 0x20 || n == 0x85 || n == 0xA0 || n == 0x1680 ||
    (0x2000 ≤ n && n ≤ 0x200A) || n == 0x2028 || n == 0x2029 || n == 0x202F || n == 0x205F ||
    n == 0x3000

/-- A list of characters without the blanks at its start and at its end. -/
def trimList (cs : List Char) : List Char :=
  ((cs.dropWhile isBlank).reverse.dropWhile isBlank).reverse

/-- A text without the blanks at its start and at its end. -/
def trim (s : String) : String :=
  String.ofList (trimList s.toList)

theorem isBlank_head?_dropWhile (cs : List Char) {c : Char}
    (h : c ∈ (cs.dropWhile isBlank).head?) : isBlank c = false := by
  have hnot := List.head?_dropWhile_not isBlank cs
  rw [Option.mem_def.1 h] at hnot
  exact hnot

theorem dropWhile_isBlank_eq_self_iff {cs : List Char} :
    cs.dropWhile isBlank = cs ↔ ∀ c ∈ cs.head?, isBlank c = false := by
  constructor
  · intro h c hc
    exact isBlank_head?_dropWhile cs (h.symm ▸ hc)
  · intro h
    cases cs with
    | nil => rfl
    | cons c cs => exact List.dropWhile_cons_of_neg (Bool.eq_false_iff.1 (h c rfl))

/-- A list from which nothing is cut has no blanks to drop at its start. -/
theorem dropWhile_isBlank_of_trimList {cs : List Char} (h : trimList cs = cs) :
    cs.dropWhile isBlank = cs := by
  refine (List.dropWhile_suffix isBlank).eq_of_length_le ?_
  calc cs.length = (trimList cs).length := by rw [h]
    _ = ((cs.dropWhile isBlank).reverse.dropWhile isBlank).length := List.length_reverse
    _ ≤ (cs.dropWhile isBlank).reverse.length := (List.dropWhile_suffix isBlank).length_le
    _ = (cs.dropWhile isBlank).length := List.length_reverse

theorem trimList_eq_self_iff {cs : List Char} :
    trimList cs = cs ↔
      (∀ c ∈ cs.head?, isBlank c = false) ∧ (∀ c ∈ cs.getLast?, isBlank c = false) := by
  rw [List.getLast?_eq_head?_reverse, ← dropWhile_isBlank_eq_self_iff,
    ← dropWhile_isBlank_eq_self_iff]
  constructor
  · intro h
    have hstart := dropWhile_isBlank_of_trimList h
    rw [trimList, hstart] at h
    exact ⟨hstart, List.reverse_eq_iff.1 h⟩
  · rintro ⟨hstart, hend⟩
    rw [trimList, hstart, hend, List.reverse_reverse]

/-- Only blanks at an end of a text are cut. -/
theorem trim_eq_self_iff {s : String} :
    trim s = s ↔ (∀ c ∈ s.toList.head?, isBlank c = false) ∧
      (∀ c ∈ s.toList.getLast?, isBlank c = false) := by
  rw [← trimList_eq_self_iff, trim, ← String.toList_inj, String.toList_ofList]

end Linewise.Text
