import TerraformTrace.Hcl.Item

/-!
# TerraformTrace.Hcl.Measure

Reading never makes text longer: the value of an assignment is at most as long as the
text it was read from, heredoc bodies included, and so is an item of a list. Literals
are read by recursion on such values, and these bounds are why that ends.
-/

namespace TerraformTrace.Hcl

open Text

/-! ### Lines -/

/-- The length of lines when each has a line break after it. -/
def spread : List Text → Nat
  | [] => 0
  | line :: lines => line.length + 1 + spread lines

theorem length_join_lt_spread {lines : List Text} (h : lines ≠ []) :
    (Text.join ['\n'] lines).length + 1 = spread lines := by
  fun_induction Text.join ['\n'] lines with
  | case1 => contradiction
  | case2 => simp [spread]
  | case3 piece pieces hne ih =>
    have hpieces : pieces ≠ [] := by
      intro hnil
      exact hne hnil
    have := ih hpieces
    simp [spread] at *
    omega

theorem length_join_le_spread (lines : List Text) :
    (Text.join ['\n'] lines).length ≤ spread lines - 1 := by
  by_cases h : lines = []
  · simp [h, Text.join]
  · have := length_join_lt_spread h
    omega

theorem splitAt_ne_nil (mark : Char) (text : Text) : splitAt mark text ≠ [] := by
  induction text with
  | nil => simp [splitAt]
  | cons c rest ih =>
    simp only [splitAt]
    split
    · simp
    · split <;> simp

theorem spread_splitAt (text : Text) : spread (splitAt '\n' text) = text.length + 1 := by
  induction text with
  | nil => simp [spread, splitAt]
  | cons c rest ih =>
    simp only [splitAt]
    split
    · simp [spread] at *
      omega
    · split
      · next h => exact absurd h (splitAt_ne_nil _ _)
      · next piece pieces h =>
        rw [h] at ih
        simp [spread] at *
        omega

theorem spread_dropLast_le (lines : List Text) : spread lines.dropLast ≤ spread lines := by
  induction lines with
  | nil => simp
  | cons line rest ih =>
    cases rest with
    | nil => simp [spread]
    | cons next more =>
      simp only [spread, List.dropLast_cons_cons] at *
      omega

theorem spread_lines_le (text : Text) : spread (Text.lines text) ≤ text.length + 1 := by
  unfold Text.lines
  split
  · exact Nat.le_trans (spread_dropLast_le _) (Nat.le_of_eq (spread_splitAt text))
  · exact Nat.le_of_eq (spread_splitAt text)

/-! ### Heredocs -/

theorem spread_bodyLines_le (marker : Text) (lines : List Text) :
    spread (Heredoc.bodyLines marker lines).1 ≤ spread lines := by
  induction lines with
  | nil => simp [Heredoc.bodyLines]
  | cons line rest ih =>
    simp only [Heredoc.bodyLines]
    split
    · simp [spread]
    · simp [spread] at *
      omega

theorem spread_map_le {f : Text → Text} (hf : ∀ line, (f line).length ≤ line.length)
    (lines : List Text) : spread (lines.map f) ≤ spread lines := by
  induction lines with
  | nil => simp
  | cons line rest ih =>
    have := hf line
    simp [spread] at *
    omega

theorem length_body_le (header : Heredoc.Header) (text : Text) :
    (Heredoc.body header text).1.length ≤ text.length := by
  have hlines := spread_lines_le text
  have hbody := spread_bodyLines_le header.marker (Text.lines text)
  have hreturn := spread_map_le (length_dropRightWhile_le (· = '\r'))
    (Heredoc.bodyLines header.marker (Text.lines text)).1
  simp only [Heredoc.body]
  split
  · have hcut := spread_map_le
      (f := (·.drop (Heredoc.sharedIndentation
        ((Heredoc.bodyLines header.marker (Text.lines text)).1.map
          (dropRightWhile (· = '\r'))))))
      (fun line => by simp)
      ((Heredoc.bodyLines header.marker (Text.lines text)).1.map (dropRightWhile (· = '\r')))
    refine Nat.le_trans (length_join_le_spread _) ?_
    simp only [Heredoc.dedentLines]
    omega
  · refine Nat.le_trans (length_join_le_spread _) ?_
    omega

/-! ### Assignments -/

theorem length_firstLine_le (text : Text) : (firstLine text).length ≤ text.length :=
  (List.takeWhile_prefix _).length_le

theorem length_readValue_le (text mask : Text) :
    (readValue text mask).1.length ≤ text.length := by
  simp only [readValue]
  split
  · refine Nat.le_trans (length_body_le _ _) ?_
    simp
  · split
    · refine Nat.le_trans (length_stripRight_le _) ?_
      exact ((List.take_sublist _ _).trans (List.drop_sublist _ _)).length_le
    · refine Nat.le_trans (length_strip_le _) (Nat.le_trans (length_firstLine_le _) ?_)
      simp

theorem length_assignmentAt?_le {colon : Bool} {start length : Nat} {text mask : Text}
    {assignment : Assignment}
    (h : assignmentAt? colon start text mask = some (assignment, length)) :
    assignment.value.length ≤ text.length := by
  simp only [assignmentAt?, Option.bind_eq_some_iff] at h
  obtain ⟨key, -, h⟩ := h
  split at h
  · cases h
    refine Nat.le_trans (length_readValue_le _ _) ?_
    simp
  · cases h

theorem length_scanAssignments_le {colon : Bool} {skip depth : Nat} {fresh : Bool}
    {pos : Nat} {text mask : Text} {assignment : Assignment}
    (h : assignment ∈ scanAssignments colon skip depth fresh pos text mask) :
    assignment.value.length ≤ text.length := by
  fun_induction scanAssignments colon skip depth fresh pos text mask with
  | case1 => simp at h
  | case2 => simp at h
  | case3 skip depth fresh pos c text m mask ih => exact Nat.le_succ_of_le (ih h)
  | case4 depth fresh pos c text m mask _ _ ih => exact Nat.le_succ_of_le (ih h)
  | case5 depth fresh pos c text m mask _ _ found length heq ih =>
    rcases List.mem_cons.1 h with rfl | h
    · exact length_assignmentAt?_le heq
    · exact Nat.le_succ_of_le (ih h)
  | case6 depth fresh pos c text m mask _ _ _ ih => exact Nat.le_succ_of_le (ih h)
  | case7 depth fresh pos c text m mask _ ih => exact Nat.le_succ_of_le (ih h)

/-- The value of an assignment is at most as long as the text. -/
theorem length_value_le {text : Text} {colon : Bool} {assignment : Assignment}
    (h : assignment ∈ assignments text colon) : assignment.value.length ≤ text.length :=
  length_scanAssignments_le h

/-! ### Items -/

theorem length_withoutComments_le (text mask : Text) :
    (withoutComments text mask).length ≤ text.length := by
  refine Nat.le_trans (length_strip_le _) ?_
  simp only [List.length_map]
  refine Nat.le_trans (List.length_filter_le _ _) ?_
  rw [List.length_zip]
  exact Nat.min_le_left _ _

theorem length_splitItems_le {separator : Text} {depth : Nat} {text mask : Text} :
    ∀ piece ∈ splitItems separator depth text mask, piece.1.length ≤ text.length := by
  fun_induction splitItems separator depth text mask with
  | case1 => simp
  | case2 => simp
  | case3 depth c text m mask _ ih =>
    intro piece h
    rcases List.mem_cons.1 h with rfl | h
    · simp
    · exact Nat.le_succ_of_le (ih piece h)
  | case4 => simp
  | case5 depth c text m mask _ first shown pieces heq ih =>
    intro piece h
    rw [heq] at ih
    rcases List.mem_cons.1 h with rfl | h
    · simpa using ih (first, shown) List.mem_cons_self
    · exact Nat.le_succ_of_le (ih piece (List.mem_cons_of_mem _ h))

/-- An item of a list is at most as long as the list. -/
theorem length_item_le {text separator item : Text} (h : item ∈ items text separator) :
    item.length ≤ text.length := by
  simp only [items, List.mem_filter, List.mem_map] at h
  obtain ⟨⟨piece, hpiece, rfl⟩, -⟩ := h
  exact Nat.le_trans (length_withoutComments_le _ _) (length_splitItems_le _ hpiece)

end TerraformTrace.Hcl
