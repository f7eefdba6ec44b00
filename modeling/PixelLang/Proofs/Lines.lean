import PixelLang.Text

/-!
# Lines of a text

The fields of a text are its parts between separators, as `List.splitOn` gives them. What is added
to a text either goes on with its last line (`splitOn_append_of_not_mem`) or, after a line feed,
starts new ones (`List.splitOn_append_cons_self`).
-/

set_option autoImplicit false

namespace PixelLang.Text

theorem fields_eq_splitOn (c : Char) (cs : List Char) : fields c cs = cs.splitOn c := by
  induction cs with
  | nil => rfl
  | cons d rest ih =>
    rw [fields, ih, List.splitOn_cons_eq_if_modifyHead]
    cases hrest : rest.splitOn c with
    | nil => exact absurd hrest (List.splitOn_ne_nil _ _)
    | cons part parts => by_cases h : d = c <;> simp [h]

/-- A text that ends with a line feed has no line after it. -/
theorem lines_concat (cs : List Char) : lines (cs ++ ['\n']) = cs.splitOn '\n' := by
  have hfields : fields '\n' (cs ++ ['\n']) = cs.splitOn '\n' ++ [[]] := by
    rw [fields_eq_splitOn, List.splitOn_append_cons_self, List.splitOn_nil]
  rw [lines, hfields]
  simp

theorem length_splitOn (c : Char) (cs : List Char) :
    (cs.splitOn c).length = cs.count c + 1 := by
  induction cs with
  | nil => simp
  | cons d rest ih =>
    rw [List.splitOn_cons_eq_if_modifyHead]
    by_cases h : d = c
    · simp [h, ih]
    · simp [h, ih, List.count_cons_of_ne]

/-- A text without separators is added to the last part. -/
theorem splitOn_append_of_not_mem {c : Char} {xs ys last : List Char} {parts : List (List Char)}
    (h : xs.splitOn c = parts ++ [last]) (hys : c ∉ ys) :
    (xs ++ ys).splitOn c = parts ++ [last ++ ys] := by
  induction xs generalizing parts last with
  | nil =>
    obtain ⟨rfl, rfl⟩ : parts = [] ∧ last = [] := by cases parts <;> simp_all
    exact List.splitOn_eq_singleton hys
  | cons d rest ih =>
    rw [List.splitOn_cons_eq_if_modifyHead] at h
    rw [List.cons_append, List.splitOn_cons_eq_if_modifyHead]
    split at h
    · rename_i hd
      rw [if_pos hd]
      cases parts with
      | nil => simp [List.splitOn_ne_nil] at h
      | cons part parts =>
        simp only [List.cons_append, List.cons.injEq] at h ⊢
        exact ⟨h.1, ih h.2⟩
    · -- the first part of the rest gets one character more
      rename_i hd
      rw [if_neg hd]
      cases hrest : rest.splitOn c with
      | nil => exact absurd hrest (List.splitOn_ne_nil _ _)
      | cons part more =>
        rw [hrest, List.modifyHead_cons] at h
        cases parts with
        | nil =>
          simp only [List.nil_append, List.cons.injEq] at h
          obtain ⟨rfl, rfl⟩ := h
          rw [ih (hrest.trans (List.nil_append _).symm)]
          rfl
        | cons first parts =>
          simp only [List.cons_append, List.cons.injEq] at h
          obtain ⟨rfl, rfl⟩ := h
          rw [ih (hrest.trans (List.cons_append ..).symm)]
          rfl

end PixelLang.Text
