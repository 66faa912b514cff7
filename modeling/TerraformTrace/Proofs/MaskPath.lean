import TerraformTrace.Proofs.MaskBrace

/-!
# TerraformTrace.Proofs.MaskPath

Paths under the mask. A path is a run of characters of names and dots. **The mask never
cuts a path in the middle**, as far as references are concerned: a covered character of a
path is followed by no visible one (`covered_of_covered`), and after a visible dot the
whole rest of the path is visible (`mask_dot`).

Both hold because of what the machine may owe. Characters it owes a cover to are the other
half of a sign such as `${` or `*/`, or an escaped character in a string (`State.OwesSigns`);
characters that it owes to show belong to the first or the last line of a heredoc, and no dot
stands there.
-/

namespace TerraformTrace.Hcl

open Text

namespace Mask

variable {s : State} {modes : List Mode} {c d : Char} {text rest : Text}

/-! ### What is owed a cover -/

/-- No character of a path is owed a cover, but for the one after a backslash. -/
def State.OwesSigns (s : State) (rest : Text) : Prop :=
  s.cover ≠ .keep → (∀ c ∈ rest.take s.owed, isPathChar c = false) ∨
    (s.owed ≤ 1 ∧ s.modes.head? = some .string)

theorem State.OwesSigns.step (h : s.OwesSigns (c :: rest)) :
    (Mask.step s c rest).2.OwesSigns rest := by
  intro hcover
  cases howed : s.owed with
  | succ n =>
    rw [Mask.step, howed] at hcover ⊢
    rcases h hcover with hpath | ⟨hone, -⟩
    · rw [howed] at hpath
      exact .inl (List.forall_mem_cons.mp hpath).2
    · have hnone : n = 0 := by omega
      exact .inl (by simp [hnone])
  | zero =>
    cases owes howed c rest with
    | nothing hnothing => exact .inl (by simp [hnothing])
    | token _ _ hpath => exact hpath
    | lastLine _ _ _ _ hkeep => exact absurd hkeep hcover
    | header _ _ _ hkeep _ => exact absurd hkeep hcover

theorem State.OwesSigns.stateBefore {front : Text} (h : s.OwesSigns (front ++ rest)) :
    (stateBefore s front rest).OwesSigns rest := by
  induction front generalizing s with
  | nil => exact h
  | cons c front ih => exact ih h.step

/-! ### Characters of paths -/

/-- What can become of a character of a path, with nothing owed: code shows it, comments
and strings cover it, and a heredoc covers it unless its last line begins here. -/
inductive PathStep (s : State) (c : Char) (rest : Text) : Prop
  | code (hmodes : isCode s.modes = true)
    (hstep : step s c rest = (.keep, { s with lineStart := s.lineStart && isIndent c }))
  | comment (hmodes : s.modes.head? = some .lineComment ∨ s.modes.head? = some .blockComment)
    (hstep : step s c rest = (.hide, s))
  | string (hmodes : s.modes.head? = some .string) (hstep : step s c rest = (.blank, s))
  | heredoc (marker : Text) (hmodes : s.modes.head? = some (.heredoc marker))
    (hterminator : (s.lineStart && Heredoc.isTerminator marker (firstLine (c :: rest))) = false)
    (hstep : step s c rest = (.blank, { s with lineStart := false }))
  | terminator (marker : Text) (hmodes : s.modes.head? = some (.heredoc marker))
    (hterminator : (s.lineStart && Heredoc.isTerminator marker (firstLine (c :: rest))) = true)
    (hstep : (step s c rest).1 = .keep)

theorem pathStep (howed : s.owed = 0) (hc : isPathChar c = true) (rest : Text) :
    PathStep s c rest := by
  have hne : ∀ {d}, isPathChar d = false → c ≠ d := fun hd => ne_of_isPathChar hc hd
  by_cases hcode : isCode s.modes = true
  · refine .code hcode ?_
    rw [step_of_isCode hcode ⟨rfl, howed⟩, codeStep_eq s (hne (by decide)) (hne (by decide))
      (hne (by decide)) (hne (by decide)) (hne (by decide)), braceStep]
    split
    next => rw [if_neg (hne (by decide)), if_neg (hne (by decide))]
    next => rfl
  · cases hmodes : s.modes with
    | nil =>
      rw [hmodes] at hcode
      exact absurd rfl hcode
    | cons mode modes =>
      cases mode with
      | interpolation depth =>
        rw [hmodes] at hcode
        exact absurd rfl hcode
      | lineComment =>
        refine .comment (.inl (by rw [hmodes]; rfl)) ?_
        rw [step_of_lineComment ⟨hmodes, howed⟩, lineCommentStep, if_neg (hne (by decide))]
      | blockComment =>
        refine .comment (.inr (by rw [hmodes]; rfl)) ?_
        simp [step, howed, hmodes, blockCommentStep, hne (d := '*') (by decide),
          hne (d := '\n') (by decide)]
      | string =>
        refine .string (by rw [hmodes]; rfl) ?_
        rw [step_of_string ⟨hmodes, howed⟩]
        simp [stringStep, hne (d := '\\') (by decide), hne (d := '$') (by decide),
          hne (d := '"') (by decide), hne (d := '\n') (by decide)]
      | heredoc marker =>
        have hhead : s.modes.head? = some (.heredoc marker) := by rw [hmodes]; rfl
        cases hterminator :
            s.lineStart && Heredoc.isTerminator marker (firstLine (c :: rest)) with
        | true =>
          refine .terminator marker hhead hterminator ?_
          simp [step, howed, hmodes, heredocStep, hterminator]
        | false =>
          refine .heredoc marker hhead hterminator ?_
          simp [step, howed, hmodes, heredocStep, hterminator, hne (d := '$') (by decide),
            hne (d := '\n') (by decide)]

theorem isCode_eq_false {mode : Mode} (h : modes.head? = some mode)
    (hmode : isCode [mode] = false) : isCode modes = false := by
  obtain ⟨rest, rfl⟩ := List.head?_eq_some_iff.mp h
  cases mode <;> first | rfl | cases hmode

/-- A covered character of a path is followed by no visible one. -/
theorem covered_of_covered (h : s.OwesSigns (c :: d :: rest)) (hc : isPathChar c = true)
    (hd : isPathChar d = true) (hcovered : (step s c (d :: rest)).1 ≠ .keep) :
    (step (step s c (d :: rest)).2 d rest).1 ≠ .keep := by
  -- the state after the character still hides, and what hides is no code
  have hhides : ∀ {t : State} {mode : Mode}, t.owed = 0 → t.modes.head? = some mode →
      isCode [mode] = false → (∀ marker, mode = .heredoc marker → t.lineStart = false) →
      (step t d rest).1 ≠ .keep := by
    intro t mode howed hmode hcode hline
    cases pathStep howed hd rest with
    | code hmodes => simp [isCode_eq_false hmode hcode] at hmodes
    | comment _ hstep => simp [hstep]
    | string _ hstep => simp [hstep]
    | heredoc _ _ _ hstep => simp [hstep]
    | terminator marker hmodes hterminator =>
      rw [hline marker (Option.some.inj (hmode.symm.trans hmodes))] at hterminator
      cases hterminator
  cases howed : s.owed with
  | succ n =>
    have hstep : step s c (d :: rest) = (s.cover, { s with owed := n }) := by rw [step, howed]
    rw [hstep] at hcovered ⊢
    rcases h hcovered with hpath | ⟨hone, hmode⟩
    · rw [hpath c (by simp [howed])] at hc
      cases hc
    · exact hhides (by dsimp only; omega) hmode rfl (by simp)
  | zero =>
    cases pathStep howed hc (d :: rest) with
    | code _ hstep => exact absurd (by rw [hstep]) hcovered
    | comment hmodes hstep =>
      rw [hstep]
      rcases hmodes with hmode | hmode
      · exact hhides howed hmode rfl (by simp)
      · exact hhides howed hmode rfl (by simp)
    | string hmode hstep =>
      rw [hstep]
      exact hhides howed hmode rfl (by simp)
    | heredoc marker hmode _ hstep =>
      rw [hstep]
      exact hhides howed hmode rfl fun _ _ => rfl
    | terminator _ _ _ hstep => exact absurd hstep hcovered

/-- A visible dot stands in code. -/
theorem standsIn_of_dot (hs : s.IsSound) (howes : s.OwesLine ('.' :: rest))
    (hkeep : (step s '.' rest).1 = .keep) :
    ∃ modes, isCode modes = true ∧ (step s '.' rest).2.StandsIn modes := by
  have hdot : ¬isLineChar '.' = true := by decide
  cases howed : s.owed with
  | succ n =>
    have hstep : step s '.' rest = (s.cover, { s with owed := n }) := by rw [step, howed]
    rw [hstep] at hkeep
    exact absurd (howes.isLineChar (by simp [howed]) hkeep (by decide)) hdot
  | zero =>
    cases pathStep (c := '.') howed (by decide) rest with
    | code hmodes hstep =>
      rw [hstep]
      exact ⟨s.modes, hmodes, rfl, howed⟩
    | comment _ hstep => simp [hstep] at hkeep
    | string _ hstep => simp [hstep] at hkeep
    | heredoc _ _ _ hstep => simp [hstep] at hkeep
    | terminator marker hmode hterminator =>
      have hmarker := hs.nested.markers marker (List.mem_of_head? hmode)
      have hlast := (Bool.and_eq_true_iff.mp hterminator).2
      exact absurd (isLineChar_of_isTerminator hmarker hlast (by simp [firstLine])) hdot

/-! ### Runs -/

/-- What is shown of a character: the character itself, or one that is in no path. -/
theorem apply_cases (cover : Cover) (c : Char) :
    cover.apply c = c ∨ isPathChar (cover.apply c) = false := by
  cases cover with
  | keep => exact .inl rfl
  | blank => exact .inr (show isPathChar ' ' = false by decide)
  | hide => exact .inr (show isPathChar hidden = false by decide)

theorem eq_keep_of_apply {cover : Cover} (h : isPathChar (cover.apply c) = true) :
    cover = .keep := by
  cases cover with
  | keep => rfl
  | blank => exact absurd h (show isPathChar ' ' ≠ true by decide)
  | hide => exact absurd h (show isPathChar hidden ≠ true by decide)

/-- A path that is shown stands in the text. -/
theorem eq_append_of_run {path shown : Text} (hpath : ∀ c ∈ path, isPathChar c = true)
    (hrun : run s text = path ++ shown) : ∃ rest, text = path ++ rest := by
  induction path generalizing s text with
  | nil => exact ⟨text, rfl⟩
  | cons c path ih =>
    cases text with
    | nil => cases hrun
    | cons d text =>
      obtain ⟨hc, hpath⟩ := List.forall_mem_cons.mp hpath
      rw [run_cons, List.cons_append, List.cons.injEq] at hrun
      obtain ⟨rest, rfl⟩ := ih hpath hrun.2
      have hkeep := eq_keep_of_apply (hrun.1.symm ▸ hc)
      rw [hkeep] at hrun
      exact ⟨rest, by rw [← hrun.1]; rfl⟩

end Mask

/-! ### Masks -/

variable {front path rest shown more : Text} {c : Char}

/-- The mask of a text, cut at some place. -/
theorem run_of_mask {tail : Text} (hmask : mask (front ++ tail) = shown ++ more)
    (hlength : shown.length = front.length) :
    Mask.run (Mask.stateBefore .start front tail) tail = more := by
  rw [mask, Mask.run_append] at hmask
  exact (List.append_inj hmask (by rw [Mask.length_shownBefore, hlength])).2

/-- What the mask shows of a character is the character itself or stands in no path. -/
theorem mask_char {m : Char} (hmask : mask (front ++ c :: rest) = shown ++ m :: more)
    (hlength : shown.length = front.length) : m = c ∨ isPathChar m = false := by
  have hrun := run_of_mask hmask hlength
  rw [Mask.run_cons, List.cons.injEq] at hrun
  rw [← hrun.1]
  exact Mask.apply_cases _ c

/-- A path that the mask shows stands in the text. -/
theorem mask_path {tail : Text} (hpath : ∀ c ∈ path, isPathChar c = true)
    (hmask : mask (front ++ tail) = shown ++ (path ++ more))
    (hlength : shown.length = front.length) : ∃ rest, tail = path ++ rest :=
  Mask.eq_append_of_run hpath (run_of_mask hmask hlength)

/-- Before a visible character of a path, a character of a path is visible too. -/
theorem mask_before {m d : Char} (hmask : mask (front ++ c :: d :: rest) = shown ++ m :: d :: more)
    (hlength : shown.length = front.length) (hc : isPathChar c = true) (hd : isPathChar d = true) :
    m = c := by
  have hrun := run_of_mask hmask hlength
  rw [Mask.run_cons, Mask.run_cons, List.cons.injEq, List.cons.injEq] at hrun
  obtain ⟨hm, hnext, -⟩ := hrun
  have hkeep := Mask.eq_keep_of_apply (hnext.symm ▸ hd)
  by_cases hcover : (Mask.step (Mask.stateBefore .start front (c :: d :: rest)) c (d :: rest)).1 =
      .keep
  · rw [← hm, hcover]
    rfl
  · have howes : Mask.State.start.OwesSigns (front ++ c :: d :: rest) := fun h => absurd rfl h
    exact absurd hkeep (Mask.covered_of_covered howes.stateBefore hc hd hcover)

/-- After a visible dot the rest of a path is visible. -/
theorem mask_dot (hmask : mask (front ++ '.' :: (path ++ rest)) = shown ++ '.' :: more)
    (hlength : shown.length = front.length) (hpath : ∀ c ∈ path, isPathChar c = true) :
    ∃ more', more = path ++ more' := by
  have hrun := run_of_mask hmask hlength
  rw [Mask.run_cons, List.cons.injEq] at hrun
  have hkeep := Mask.eq_keep_of_apply (hrun.1.symm ▸ (by decide : isPathChar '.' = true))
  obtain ⟨modes, hmodes, hstands⟩ := Mask.standsIn_of_dot (Mask.State.IsSound.start.stateBefore _ _)
    (.stateBefore .start (.of_owed rfl)) hkeep
  obtain ⟨s', -, hshown⟩ := Mask.shows_path hmodes hpath _ hstands
  exact ⟨_, hrun.2.symm.trans (hshown rest)⟩

end TerraformTrace.Hcl
