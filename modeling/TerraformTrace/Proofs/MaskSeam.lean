import TerraformTrace.Proofs.MaskBrace

/-!
# TerraformTrace.Proofs.MaskSeam

Line breaks under the mask. A line break is always shown, and nothing else is ever shown as
one: what the machine covers ahead of itself ends before the next line break, and the one line
break that it owes, that of a heredoc's first line, it owes to show (`State.MindsBreaks`). So a
mask has **the lines of its text**, character for character.

A line break is also a seam. The machine looks ahead for tokens of one line only, so in front of
a line break it sees the same with and without the lines that follow (`step_append_of_mem`).
Where such a front ends in top-level code, **the rest is masked as a text of its own**
(`mask_append_of_break`).
-/

namespace TerraformTrace.Hcl

open Text

namespace Mask

variable {s : State} {c : Char} {front rest text : Text}

/-! ### Line breaks that are owed -/

/-- If a line break is owed, then to be shown, and inside a construct. -/
def State.MindsBreaks (s : State) (rest : Text) : Prop :=
  '\n' ∈ rest.take s.owed → s.cover = .keep ∧ s.modes ≠ []

namespace State.MindsBreaks

theorem of_owed (h : s.owed = 0) : s.MindsBreaks rest := by
  simp [MindsBreaks, h]

/-- The machine minds the line breaks after every step. -/
theorem step (h : s.MindsBreaks (c :: rest)) : (Mask.step s c rest).2.MindsBreaks rest := by
  intro hmem
  cases hs : s.owed with
  | succ n =>
    rw [Mask.step, hs] at hmem ⊢
    refine h ?_
    rw [hs]
    exact List.mem_cons_of_mem _ hmem
  | zero =>
    cases owes hs c rest with
    | nothing howed => simp [howed] at hmem
    | token _ hline _ => exact absurd hmem hline
    | lastLine marker _ _ howed _ =>
      rw [howed] at hmem
      have hline := List.all_eq_true.mp List.all_takeWhile _ (mem_firstLine_of_owed hmem)
      exact absurd hline (by decide)
    | header _ _ _ hcover hmodes => exact ⟨hcover, hmodes⟩

end State.MindsBreaks

/-! ### Where line breaks are shown -/

/-- A line break that is not owed is shown, begins nothing, and does not depend on what
follows. -/
theorem step_break (howed : s.owed = 0) (rest : Text) :
    (step s '\n' rest).1 = .keep ∧ (step s '\n' rest).2.owed = 0 ∧
      step s '\n' rest = step s '\n' [] := by
  have hline : ∀ rest, firstLine ('\n' :: rest) = [] := fun rest => by simp [firstLine]
  unfold step
  rw [howed]
  dsimp only
  split
  · exact ⟨rfl, howed, rfl⟩
  · exact ⟨rfl, howed, rfl⟩
  · unfold heredocStep
    simp only [hline]
    split
    · exact ⟨rfl, rfl, rfl⟩
    · exact ⟨rfl, howed, rfl⟩
  · exact ⟨rfl, howed, rfl⟩
  · exact ⟨rfl, howed, rfl⟩

theorem cover_break (h : s.MindsBreaks ('\n' :: rest)) : (step s '\n' rest).1 = .keep := by
  cases howed : s.owed with
  | zero => exact (step_break howed rest).1
  | succ n =>
    rw [step, howed]
    exact (h (by simp [howed])).1

/-- How a character can stand in the mask: a line break as itself, and every other one as
itself, blanked or hidden. -/
def IsShownAs (c shown : Char) : Prop :=
  (shown = '\n' ↔ c = '\n') ∧ (shown = c ∨ shown = ' ' ∨ shown = hidden)

theorem isShownAs_apply {cover : Cover} (h : c = '\n' → cover = .keep) :
    IsShownAs c (cover.apply c) := by
  cases cover with
  | keep => exact ⟨Iff.rfl, .inl rfl⟩
  | blank => exact ⟨⟨nofun, fun hc => nomatch h hc⟩, .inr (.inl rfl)⟩
  | hide => exact ⟨⟨nofun, fun hc => nomatch h hc⟩, .inr (.inr rfl)⟩

/-- What stands at a position of the mask. -/
theorem exists_shown (h : s.MindsBreaks text) {i : Nat} (hi : text[i]? = some c) :
    ∃ shown, (run s text)[i]? = some shown ∧ IsShownAs c shown := by
  induction text generalizing s i with
  | nil => cases hi
  | cons d text ih =>
    cases i with
    | zero =>
      cases hi
      refine ⟨_, rfl, isShownAs_apply ?_⟩
      rintro rfl
      exact cover_break h
    | succ i => exact ih h.step hi

/-! ### The seam -/

/-- A header that is read behind a line break is a header of what stands before it. -/
theorem header?_append_of_mem (h : '\n' ∈ front) (rest : Text) :
    Heredoc.header? (front ++ rest) = Heredoc.header? front := by
  cases halone : Heredoc.header? front with
  | some header =>
    obtain ⟨line, more, rfl, rfl⟩ := exists_of_header? halone
    rw [List.append_assoc, line.header?_append]
  | none =>
    cases hwhole : Heredoc.header? (front ++ rest) with
    | none => rfl
    | some header =>
      obtain ⟨line, more, htext, rfl⟩ := exists_of_header? hwhole
      have hlonger : ∀ more, front ≠ line.text ++ more := by
        intro more heq
        rw [heq, line.header?_append] at halone
        cases halone
      rcases List.append_eq_append_iff.mp htext with ⟨last, hline, -⟩ | ⟨last, hfront, -⟩
      · -- the line break would stand inside the line of the header
        have hne : last ≠ [] := by
          rintro rfl
          exact hlonger [] (by rw [hline, List.append_nil, List.append_nil])
        exact absurd (isInline_of_headerLine line hne hline h) (by decide)
      · exact absurd hfront (hlonger last)

/-- In front of a line break the machine does not see what follows it. -/
theorem step_append_of_mem (h : '\n' ∈ front) (rest : Text) :
    step s c (front ++ rest) = step s c front := by
  obtain ⟨d, more, rfl⟩ := List.exists_cons_of_ne_nil (List.ne_nil_of_mem h)
  have hmem : '\n' ∈ c :: d :: more := List.mem_cons_of_mem _ h
  have hline : firstLine (c :: (d :: more ++ rest)) = firstLine (c :: d :: more) :=
    firstLine_append_of_mem hmem rest
  have hescape : ['$', '{'].isPrefixOf (d :: more ++ rest) = ['$', '{'].isPrefixOf (d :: more) := by
    cases more with
    | cons e more => rfl
    | nil =>
      obtain rfl := List.mem_singleton.mp h
      rfl
  unfold step
  split
  · rfl
  · split
    · rfl
    · rfl
    · simp only [heredocStep, hline]
      rfl
    · simp only [stringStep, hescape]
      rfl
    · exact codeStep_congr (fun _ => rfl) (header?_append_of_mem hmem rest)

/-- A front that ends with a line break is read the same with and without what follows. -/
theorem before_of_break (h : front.getLast? = some '\n') (rest : Text) :
    shownBefore s front rest = run s front ∧ stateBefore s front rest = finish s front := by
  induction front generalizing s with
  | nil => cases h
  | cons c front ih =>
    have hstep : step s c (front ++ rest) = step s c front := by
      cases front with
      | cons d front =>
        rw [List.getLast?_cons_cons] at h
        exact step_append_of_mem (List.mem_of_getLast? h) rest
      | nil =>
        obtain rfl : c = '\n' := by simpa using h
        cases howed : s.owed with
        | zero => exact (step_break howed rest).2.2
        | succ n => rw [step, step, howed]
    rw [shownBefore, stateBefore, run_cons, finish, hstep]
    cases front with
    | nil => exact ⟨rfl, rfl⟩
    | cons d front =>
      rw [List.getLast?_cons_cons] at h
      obtain ⟨hshown, hstate⟩ := @ih (step s c (d :: front)).2 h
      exact ⟨by rw [hshown], hstate⟩

/-- Nothing is owed behind a line break that leads to top level. -/
theorem owed_finish_of_break (hs : s.MindsBreaks front) (h : front.getLast? = some '\n')
    (hmodes : (finish s front).modes = []) : (finish s front).owed = 0 := by
  induction front generalizing s with
  | nil => cases h
  | cons c front ih =>
    rw [finish] at hmodes ⊢
    cases front with
    | cons d front =>
      rw [List.getLast?_cons_cons] at h
      exact ih hs.step h hmodes
    | nil =>
      obtain rfl : c = '\n' := by simpa using h
      cases howed : s.owed with
      | zero => exact (step_break howed []).2.1
      | succ n =>
        rw [finish, step, howed] at hmodes
        exact absurd hmodes (hs (by simp [howed])).2

end Mask

/-! ### Masks of whole texts -/

theorem mindsBreaks_start (text : Text) : Mask.State.start.MindsBreaks text :=
  .of_owed rfl

/-- Behind a line break that leads to top level, a text is masked as a text of its own. -/
theorem mask_append_of_break {front : Text} (h : front.getLast? = some '\n')
    (hcode : (Mask.finish .start front).modes = []) (rest : Text) :
    mask (front ++ rest) = mask front ++ mask rest := by
  obtain ⟨hshown, hstate⟩ := @Mask.before_of_break .start front h rest
  have hstands : (Mask.finish .start front).StandsIn [] :=
    ⟨hcode, Mask.owed_finish_of_break (mindsBreaks_start front) h hcode⟩
  rw [mask, Mask.run_append, hshown, hstate, Mask.run_eq_mask hstands]
  rfl

/-- **A mask keeps the places of its text, and starts afresh behind a line.** It has the length
of the text and a line break exactly where the text has one; every other character is shown as
itself, as a space or as U+0000. Behind a line that leads back to top-level code, the mask is
that of the rest. -/
theorem mask_in_place (text : Text) :
    (mask text).length = text.length ∧
    (∀ (i : Nat) (c : Char), text[i]? = some c → ∃ shown, (mask text)[i]? = some shown ∧
      (shown = '\n' ↔ c = '\n') ∧ (shown = c ∨ shown = ' ' ∨ shown = hidden)) ∧
    (text.getLast? = some '\n' → (Mask.finish .start text).modes = [] →
      ∀ rest, mask (text ++ rest) = mask text ++ mask rest) := by
  refine ⟨length_mask text, fun i c hi => ?_, fun hlast hcode rest => ?_⟩
  · exact Mask.exists_shown (mindsBreaks_start text) hi
  · exact mask_append_of_break hlast hcode rest

/-- A string, a comment and a heredoc with an interpolation in it, each on lines of its own. -/
def closedLines : Text := "a = \"b\" # c\nd = <<E\n$\x7bf\x7d /*\nE\n".toList

theorem mask_closedLines :
    (closedLines[5]? = some 'b' ∧ ∃ shown, (mask closedLines)[5]? = some shown ∧
      (shown = '\n' ↔ 'b' = '\n') ∧ (shown = 'b' ∨ shown = ' ' ∨ shown = hidden)) ∧
    (closedLines.getLast? = some '\n' ∧ (Mask.finish .start closedLines).modes = [] ∧
      mask (closedLines ++ "g = 1 // h".toList) = mask closedLines ++ mask "g = 1 // h".toList) :=
  have hplaces := mask_in_place closedLines
  ⟨⟨by decide, hplaces.2.1 5 'b' (by decide)⟩,
    by decide, by decide, hplaces.2.2 (by decide) (by decide) _⟩

end TerraformTrace.Hcl
