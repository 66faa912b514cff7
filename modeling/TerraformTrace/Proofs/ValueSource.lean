import TerraformTrace.Proofs.HeredocTemplate
import TerraformTrace.Proofs.LiteralText

/-!
# TerraformTrace.Proofs.ValueSource

A value that is read out of a text is searched for references as a text of its own. **The
references found in it are those that the whole text shows in the span of its assignment**, in
their order.

An assignment is opened in the order of its parts. Its key leads from code to code, since a
quote that is not matched would hide the operator (`opening_eq_closing`); what comes after the key
is then masked as a text of its own, and the place of the value in it is a source of the value
(`isSource_readValue`). The scan stands before a key only behind a character that is in no path
(`exists_of_mem_scanAssignments`), so no reference reaches into the span from outside.

Two kinds of assignment are apart. One that begins inside an interpolation is read again without
the string around it; and the body of a heredoc is read again as code, which for a line that is
no template gives other references.
-/

namespace TerraformTrace.Hcl

open Text

variable {colon : Bool} {text : Text} {assignment : Assignment}

/-! ### Keys under the mask -/

/-- A name and the quotes around it are shown without a dot, and lead back to code, or into a
string if the quotes do not match. -/
theorem shows_keyName {modes : List Mask.Mode} (hmodes : Mask.isCode modes = true)
    {opening name closing : Text} (hopening : IsQuote opening) (hname : isName name = true)
    (hclosing : IsQuote closing) :
    ∃ shown, '.' ∉ shown ∧ Mask.Shows modes (opening ++ name ++ closing) shown
      (if opening = closing then modes else .string :: modes) := by
  have hdot : '.' ∉ name := fun hmem => absurd (isNameRest_of_mem hname hmem) (by decide)
  have hcode : Mask.Shows modes name name modes :=
    Mask.shows_path hmodes (Identifier.isPathChar ⟨name, hname⟩)
  have hstring := shows_nameInString hname modes
  rcases hopening with rfl | rfl <;> rcases hclosing with rfl | rfl
  · exact ⟨name, hdot, by simpa using hcode⟩
  · refine ⟨name ++ ['"'], by simpa using hdot, ?_⟩
    exact hcode.append (Mask.shows_openQuote hmodes)
  · refine ⟨'"' :: (name.map fun _ => ' '), by simp, ?_⟩
    simpa using (Mask.shows_openQuote hmodes).append hstring
  · refine ⟨'"' :: (name.map fun _ => ' ') ++ ['"'], by simp, ?_⟩
    exact ((Mask.shows_openQuote hmodes).append hstring).append (Mask.shows_closeQuote modes)

/-- **The quotes of a key in code match**: in a string its operator would not be seen. -/
theorem opening_eq_closing {modes : List Mask.Mode} (hmodes : Mask.isCode modes = true)
    {s : Mask.State} (hs : s.StandsIn modes) {opening name closing gap rest : Text}
    {operator : Char} (hopening : IsQuote opening) (hname : isName name = true)
    (hclosing : IsQuote closing) (hgap : ∀ c ∈ gap, isGap c = true)
    (hoperator : operator = '=' ∨ operator = ':')
    (hvisible : (Mask.run s (opening ++ name ++ closing ++ gap ++ operator :: rest))[
      (opening ++ name ++ closing ++ gap).length]? = some operator) : opening = closing := by
  by_contra hne
  obtain ⟨shown, -, hshows⟩ := shows_keyName hmodes hopening hname hclosing
  rw [if_neg hne] at hshows
  obtain ⟨t, -, hrun⟩ := (hshows.append ((shows_operator hgap hoperator).2 modes)) s hs
  have hmask : Mask.run s (opening ++ name ++ closing ++ gap ++ operator :: rest) =
      (shown ++ gap.map fun _ => ' ') ++ ' ' :: Mask.run t rest := by
    simpa using hrun rest
  have hlength : (shown ++ gap.map fun _ => ' ').length =
      (opening ++ name ++ closing ++ gap).length := by
    simp only [List.length_append, List.length_map, hshows.length_eq]
  rw [hmask, ← hlength, List.getElem?_append_right (Nat.le_refl _), Nat.sub_self] at hvisible
  rcases hoperator with rfl | rfl <;> cases hvisible

/-- What the mask shows for the operator of a visible key. -/
theorem getElem?_operator {key : Key} {front rest shown : Text} {operator : Char}
    (hlength : key.length = front.length + 1)
    (h : key.isVisible (front ++ operator :: rest) shown = true) :
    shown[front.length]? = some operator := by
  rw [Key.isVisible, Bool.and_eq_true, decide_eq_true_eq, decide_eq_true_eq, hlength,
    Nat.add_sub_cancel] at h
  simpa using h.2

/-- **A key in code leads back to code.** -/
theorem exists_mask_key {key : Key} (h : key? colon text = some key)
    (hvisible : key.isVisible text (mask text) = true) :
    ∃ shown, mask text = shown ++ mask (text.drop key.length) ∧ shown.length = key.length ∧
      '.' ∉ shown ∧ ∀ c ∈ shown.getLast?, isPathChar c = false := by
  obtain ⟨opening, closing, gap, operator, rest, hopening, hclosing, hgap, hoperator, -, hname,
    rfl, hlength⟩ := exists_of_key? h
  have hquotes : opening = closing := opening_eq_closing rfl ⟨rfl, rfl⟩ hopening hname hclosing
    hgap hoperator (getElem?_operator hlength hvisible)
  obtain ⟨shown, hdot, hshows⟩ := @shows_keyName [] rfl _ _ _ hopening hname hclosing
  rw [if_pos hquotes] at hshows
  obtain ⟨t, ht, hrun⟩ := (hshows.append (shows_operator hgap hoperator).1) .start ⟨rfl, rfl⟩
  have htext : opening ++ key.name ++ closing ++ gap ++ operator :: rest =
      opening ++ key.name ++ closing ++ (gap ++ [operator]) ++ rest := by simp
  have hdrop : (opening ++ key.name ++ closing ++ gap ++ operator :: rest).drop key.length =
      rest := by
    rw [htext, List.drop_left' (by rw [hlength]; simp; omega)]
  have hsame := hshows.length_eq
  refine ⟨shown ++ (gap ++ [operator]), ?_, ?_, ?_, ?_⟩
  · rw [hdrop, htext, mask, hrun, Mask.run_eq_mask ht]
  · simp only [List.length_append, List.length_cons, List.length_nil] at hsame hlength ⊢
    omega
  · have hgap' : '.' ∉ gap := fun hmem => absurd (hgap _ hmem) (by decide)
    rcases hoperator with rfl | rfl <;> simp [hdot, hgap']
  · intro c hc
    rw [← List.append_assoc, List.getLast?_concat] at hc
    cases hc
    rcases hoperator with rfl | rfl <;> decide

/-! ### Values -/

/-- The lines of the heredoc behind an operator; none if there is another value. -/
def heredocLines (text : Text) : List Text :=
  let rest := text.drop (text.takeWhile isGap).length
  match Heredoc.header? rest with
  | some header => (Heredoc.bodyLines header.marker (lines (rest.drop header.length))).1
  | none => []

/-- The lines of the heredoc that is assigned at the beginning of a text. -/
def assignedLines (colon : Bool) (text : Text) : List Text :=
  match key? colon text with
  | some key => heredocLines (text.drop key.length)
  | none => []

theorem isBlank_of_isGap {c : Char} (h : isGap c = true) : isBlank c = true := by
  rw [isGap, Bool.or_eq_true, decide_eq_true_eq, decide_eq_true_eq] at h
  rcases h with rfl | rfl <;> decide

/-- What stands behind an operator is a source of the value that is read there. -/
theorem isSource_readValue (h : ∀ line ∈ heredocLines text, IsTemplate line) :
    IsSource text (readValue text (mask text)).2 (readValue text (mask text)).1 := by
  have hgap : ∀ c ∈ text.takeWhile isGap, isBlank c = true := fun c hc =>
    isBlank_of_isGap (List.all_eq_true.mp List.all_takeWhile c hc)
  have htext := takeWhile_append_drop isGap text
  have hmask : (mask text).drop (text.takeWhile isGap).length =
      mask (text.drop (text.takeWhile isGap).length) := by
    have hwhole := mask_blanks_append hgap (text.drop (text.takeWhile isGap).length)
    rw [htext] at hwhole
    rw [hwhole, List.drop_left' rfl]
  have hsource : IsSource (text.takeWhile isGap ++ text.drop (text.takeWhile isGap).length)
      (readValue text (mask text)).2 (readValue text (mask text)).1 := by
    simp only [readValue, hmask]
    split
    next header hheader =>
      simp only [heredocLines, hheader] at h
      rw [Nat.add_assoc]
      exact (isSource_heredoc hheader h).blanks_append hgap
    next =>
      split
      next n hextent => exact (isSource_extent hextent).blanks_append hgap
      next => exact (isSource_firstLine _).blanks_append hgap
  rwa [htext] at hsource

/-! ### Assignments -/

theorem exists_of_assignmentAt? {start length : Nat} {mask : Text}
    (h : assignmentAt? colon start text mask = some (assignment, length)) :
    ∃ key, key? colon text = some key ∧ key.isVisible text mask = true ∧
      assignment.name = key.name ∧ assignment.start = start ∧ assignment.stop = start + length ∧
      (assignment.value, length) = ((readValue (text.drop key.length) (mask.drop key.length)).1,
        key.length + (readValue (text.drop key.length) (mask.drop key.length)).2) := by
  rw [assignmentAt?] at h
  obtain ⟨key, hkey, h⟩ := Option.bind_eq_some_iff.mp h
  split at h
  next hvisible =>
    simp only [Option.some.injEq, Prod.mk.injEq] at h
    obtain ⟨rfl, rfl⟩ := h
    exact ⟨key, hkey, hvisible, rfl, rfl, rfl, rfl⟩
  next => cases h

/-- An assignment that is read at a place in code spans a source of its value. -/
theorem isSource_assignmentAt? {start length : Nat}
    (h : assignmentAt? colon start text (mask text) = some (assignment, length))
    (hbody : ∀ line ∈ assignedLines colon text, IsTemplate line) :
    IsSource text length assignment.value := by
  obtain ⟨key, hkey, hvisible, -, -, -, hread⟩ := exists_of_assignmentAt? h
  obtain ⟨front, hmask, hlength, hdot, hlast⟩ := exists_mask_key hkey hvisible
  have hbehind : (mask text).drop key.length = mask (text.drop key.length) := by
    rw [hmask, List.drop_left' hlength]
  rw [hbehind, Prod.mk.injEq] at hread
  rw [assignedLines, hkey] at hbody
  obtain ⟨shown, tail, hvalue, hvalueLength, hsame, hhead⟩ := isSource_readValue hbody
  refine ⟨front ++ shown, tail, ?_, ?_, ?_, hhead⟩
  · rw [hmask, hvalue, List.append_assoc]
  · rw [List.length_append, hlength, hvalueLength, hread.2]
  · rw [Separate.referencesIn_append (.inl hlast), referencesIn_of_not_mem hdot, List.nil_append,
      hsame, hread.1]

theorem not_isPathChar_of_isIndent {c : Char} (h : isIndent c = true) : isPathChar c = false := by
  simp only [isIndent, Bool.or_eq_true, decide_eq_true_eq] at h
  rcases h with (rfl | rfl) | rfl <;> decide

/-- A line break or a comma at depth zero. -/
theorem fresh_behind {m : Char} (h : (m = '\n' || m = ',') = true) (shown : Text) :
    nextDepth 0 m = 0 ∧ ∀ c ∈ (shown ++ [m]).getLast?, isPathChar c = false := by
  rw [List.getLast?_concat]
  rw [Bool.or_eq_true, decide_eq_true_eq, decide_eq_true_eq] at h
  refine ⟨?_, fun c hc => ?_⟩
  · rcases h with rfl | rfl <;> rfl
  · cases hc
    rcases h with rfl | rfl <;> decide

/-- An assignment is read where the scan stands before a statement, behind a character that is
in no path. -/
theorem exists_of_mem_scanAssignments {skip depth pos : Nat} {fresh : Bool} {mask : Text}
    (front shown : Text) (hfront : front.length = pos) (hshown : shown.length = pos)
    (hfresh : fresh = true → skip = 0 ∧ depth = 0 ∧ ∀ c ∈ shown.getLast?, isPathChar c = false)
    (h : assignment ∈ scanAssignments colon skip depth fresh pos text mask) :
    ∃ length, assignmentAt? colon assignment.start ((front ++ text).drop assignment.start)
        ((shown ++ mask).drop assignment.start) = some (assignment, length) ∧
      ∀ c ∈ ((shown ++ mask).take assignment.start).getLast?, isPathChar c = false := by
  fun_induction scanAssignments colon skip depth fresh pos text mask generalizing front shown with
  | case1 => cases h
  | case2 => cases h
  | case3 depth fresh pos skip c text m mask ih =>
    rw [List.append_cons front, List.append_cons shown]
    refine ih (front ++ [c]) (shown ++ [m]) (by simp [hfront]) (by simp [hshown]) ?_ h
    intro h
    cases (hfresh h).1
  | case4 depth fresh pos c text m mask hstart hindent ih =>
    rw [List.append_cons front, List.append_cons shown]
    refine ih (front ++ [c]) (shown ++ [m]) (by simp [hfront]) (by simp [hshown]) ?_ h
    rw [Bool.and_eq_true, decide_eq_true_eq] at hstart
    refine fun _ => ⟨rfl, hstart.2, fun d hd => ?_⟩
    rw [List.getLast?_concat] at hd
    cases hd
    exact not_isPathChar_of_isIndent hindent
  | case5 depth fresh pos c text m mask hstart hindent found length hread ih =>
    rcases List.mem_cons.mp h with rfl | h
    · rw [Bool.and_eq_true] at hstart
      obtain ⟨-, -, -, -, hposition, -⟩ := exists_of_assignmentAt? hread
      rw [hposition, List.drop_left' hfront, List.drop_left' hshown, List.take_left' hshown]
      exact ⟨length, hread, (hfresh hstart.1).2.2⟩
    · rw [List.append_cons front, List.append_cons shown]
      exact ih (front ++ [c]) (shown ++ [m]) (by simp [hfront]) (by simp [hshown])
        (fun hfalse => absurd hfalse Bool.false_ne_true) h
  | case6 depth fresh pos c text m mask hstart hindent hread ih =>
    rw [List.append_cons front, List.append_cons shown]
    refine ih (front ++ [c]) (shown ++ [m]) (by simp [hfront]) (by simp [hshown]) ?_ h
    rw [Bool.and_eq_true, decide_eq_true_eq] at hstart
    intro hnext
    rw [hstart.2]
    exact ⟨rfl, fresh_behind hnext shown⟩
  | case7 depth fresh pos c text m mask hstart ih =>
    rw [List.append_cons front, List.append_cons shown]
    refine ih (front ++ [c]) (shown ++ [m]) (by simp [hfront]) (by simp [hshown]) ?_ h
    intro hnext
    cases fresh with
    | true => simp [(hfresh rfl).2.1] at hstart
    | false =>
      rw [Bool.false_or, Bool.and_eq_true, decide_eq_true_eq] at hnext
      rw [hnext.1]
      exact ⟨rfl, fresh_behind hnext.2 shown⟩

/-- **The references of a value are those that its text shows in the span of its assignment.** -/
theorem references_assignment (text : Text) (colon : Bool) (assignment : Assignment)
    (hmem : assignment ∈ assignments text colon)
    (hcode : (Mask.stateBefore .start (text.take assignment.start)
      (text.drop assignment.start)).StandsIn [])
    (hbody : ∀ line ∈ assignedLines colon (text.drop assignment.start), IsTemplate line) :
    (occurrences assignment.value).map (·.reference) =
      ((occurrences text).filter fun occurrence =>
        assignment.start ≤ occurrence.start && occurrence.stop ≤ assignment.stop).map
          (·.reference) := by
  obtain ⟨length, hread, hlast⟩ :=
    exists_of_mem_scanAssignments [] [] rfl rfl (fun _ => ⟨rfl, rfl, by simp⟩) hmem
  rw [List.nil_append] at hread hlast
  have hstart : assignment.start < text.length := by
    rw [← Nat.not_le]
    intro hle
    rw [List.nil_append, List.drop_of_length_le hle] at hread
    cases hread
  have hbehind : (mask text).drop assignment.start = mask (text.drop assignment.start) := by
    have hdrop := Mask.drop_run .start (text.take assignment.start) (text.drop assignment.start)
    rwa [List.take_append_drop, List.length_take_of_le (Nat.le_of_lt hstart),
      Mask.run_eq_mask hcode] at hdrop
  rw [List.nil_append, hbehind] at hread
  obtain ⟨-, -, -, -, -, hstop, -⟩ := exists_of_assignmentAt? hread
  obtain ⟨shown, tail, hmask, hlength, hsame, hhead⟩ := isSource_assignmentAt? hread hbody
  have hwhole : mask text = (mask text).take assignment.start ++ (shown ++ tail) := by
    rw [← hmask, ← hbehind, List.take_append_drop]
  have hfront : ((mask text).take assignment.start).length = assignment.start :=
    List.length_take_of_le (by rw [length_mask]; exact Nat.le_of_lt hstart)
  have hspan := map_reference_filter (.inl hlast : Separate _ (shown ++ tail)) (.inr hhead)
  rw [← hwhole, hfront, hlength, ← hstop, hsame] at hspan
  exact hspan.symm

/-- A heredoc with two places, between other assignments. -/
def templateFile : Text :=
  "a = var.b # x\nc = <<-EOT\n  use: $\x7bvar.d\x7d/$\x7blocal.e\x7d;\r\n  EOT\nz = var.f\n".toList

def templateValue : Assignment where
  name := "c".toList
  value := "use: $\x7bvar.d\x7d/$\x7blocal.e\x7d;".toList
  start := 14
  stop := 59

theorem assignedLines_templateFile : assignedLines false (templateFile.drop templateValue.start) =
    ["  use: ".toList ++ '$' :: '{' :: ("var.d".toList ++ '}' ::
      ("/".toList ++ '$' :: '{' :: ("local.e".toList ++ '}' :: ";\r".toList)))] := by
  decide

theorem isTemplate_templateFile :
    ∀ line ∈ assignedLines false (templateFile.drop templateValue.start), IsTemplate line := by
  rw [assignedLines_templateFile]
  refine List.forall_mem_singleton.mpr ?_
  refine .place ⟨rfl, rfl⟩ (.path (by decide)) ?_
  exact .place ⟨rfl, rfl⟩ (.path (by decide)) (.literal ⟨rfl, rfl⟩)

theorem references_assignment_template :
    templateValue ∈ assignments templateFile false ∧
    (occurrences templateValue.value).map (·.reference) =
      ((occurrences templateFile).filter fun occurrence =>
        14 ≤ occurrence.start && occurrence.stop ≤ 59).map (·.reference) ∧
    (occurrences templateValue.value).map (·.reference.text) =
      ["var.d".toList, "local.e".toList] :=
  ⟨by decide,
    references_assignment templateFile false templateValue (by decide) ⟨rfl, rfl⟩
      isTemplate_templateFile,
    by decide⟩

/-- The literal text of a heredoc is searched as if it were code, and so is what follows an
interpolation in which the value begins. -/
theorem value_shows_other_references :
    (assignments "x = <<EOT\nuse var.a here\nEOT\n".toList =
        [⟨"x".toList, "use var.a here".toList, 0, 28⟩] ∧
      occurrences "x = <<EOT\nuse var.a here\nEOT\n".toList = [] ∧
      (occurrences "use var.a here".toList).map (·.reference.text) = ["var.a".toList]) ∧
    (assignments "\"$\x7b\nx = var.a\x7d var.b\"\n".toList =
        [⟨"x".toList, "var.a\x7d var.b\"".toList, 4, 21⟩] ∧
      (occurrences "\"$\x7b\nx = var.a\x7d var.b\"\n".toList).map (·.reference.text) =
        ["var.a".toList] ∧
      (occurrences "var.a\x7d var.b\"".toList).map (·.reference.text) =
        ["var.a".toList, "var.b".toList]) := by
  decide

end TerraformTrace.Hcl
