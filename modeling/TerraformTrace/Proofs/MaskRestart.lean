import TerraformTrace.Proofs.MaskRun

/-!
# TerraformTrace.Proofs.MaskRestart

Where a mask can start afresh. The machine looks ahead, so what it makes of the front of a
text depends on what follows; `shownBefore` and `stateBefore` are what is shown of the front
and the state that is reached, **for the rest that does follow**.

In code nothing counts of what was read before but the constructs that are still open: the
mask of what comes next is the same whether a line has begun or not (`run_eq_of_standsIn`).
At top level it is the mask of the rest as a text of its own (`run_eq_mask`).
-/

namespace TerraformTrace.Hcl.Mask

open Text

/-! ### The front of a text -/

/-- What is shown of `front`, when `rest` follows it. -/
def shownBefore (s : State) : (front rest : Text) → Text
  | [], _ => []
  | c :: front, rest =>
    (step s c (front ++ rest)).1.apply c :: shownBefore (step s c (front ++ rest)).2 front rest

/-- The state after `front`, when `rest` follows it. -/
def stateBefore (s : State) : (front rest : Text) → State
  | [], _ => s
  | c :: front, rest => stateBefore (step s c (front ++ rest)).2 front rest

variable {s t : State} {modes : List Mode} {c : Char}

theorem run_append (s : State) (front rest : Text) :
    run s (front ++ rest) = shownBefore s front rest ++ run (stateBefore s front rest) rest := by
  induction front generalizing s with
  | nil => rfl
  | cons c front ih => exact congrArg (_ :: ·) (ih _)

@[simp]
theorem length_shownBefore (s : State) (front rest : Text) :
    (shownBefore s front rest).length = front.length := by
  induction front generalizing s with
  | nil => rfl
  | cons c front ih => exact congrArg (· + 1) (ih _)

theorem shownBefore_nil (s : State) (front : Text) : shownBefore s front [] = run s front := by
  have happend := run_append s front []
  simpa [run] using happend.symm

theorem stateBefore_append (s : State) (front middle rest : Text) :
    stateBefore s (front ++ middle) rest =
      stateBefore (stateBefore s front (middle ++ rest)) middle rest := by
  induction front generalizing s with
  | nil => rfl
  | cons c front ih => simp only [List.cons_append, stateBefore, List.append_assoc, ih]

theorem shownBefore_append (s : State) (front middle rest : Text) :
    shownBefore s (front ++ middle) rest = shownBefore s front (middle ++ rest) ++
      shownBefore (stateBefore s front (middle ++ rest)) middle rest := by
  induction front generalizing s with
  | nil => rfl
  | cons c front ih =>
    simp only [List.cons_append, shownBefore, stateBefore, List.append_assoc, ih]

theorem take_run (s : State) (front rest : Text) :
    (run s (front ++ rest)).take front.length = shownBefore s front rest := by
  rw [run_append, List.take_left' (length_shownBefore s front rest)]

theorem drop_run (s : State) (front rest : Text) :
    (run s (front ++ rest)).drop front.length = run (stateBefore s front rest) rest := by
  rw [run_append, List.drop_left' (length_shownBefore s front rest)]

/-! ### States that read alike -/

/-- The states differ in nothing that counts: the cover counts only while something is owed,
and the beginning of a line does not count in code. -/
structure State.IsLike (s t : State) : Prop where
  modes : s.modes = t.modes
  owed : s.owed = t.owed
  cover : s.owed ≠ 0 → s.cover = t.cover
  lineStart : s.lineStart = t.lineStart ∨ (isCode s.modes = true ∧ s.owed = 0)

namespace State.IsLike

/-- With nothing owed, and at the same place of a line. -/
theorem of_eq (hmodes : s.modes = t.modes) (hline : s.lineStart = t.lineStart)
    (hs : s.owed = 0) (ht : t.owed = 0) : s.IsLike t :=
  ⟨hmodes, hs.trans ht.symm, fun howed => absurd hs howed, .inl hline⟩

/-- With the same characters owed, under the same cover. -/
theorem of_owed (hmodes : s.modes = t.modes) (hline : s.lineStart = t.lineStart)
    (howed : s.owed = t.owed) (hcover : s.cover = t.cover) : s.IsLike t :=
  ⟨hmodes, howed, fun _ => hcover, .inl hline⟩

end State.IsLike

/-- Two steps show a character alike and lead to states that read alike. -/
def IsStepLike (step step' : Cover × State) : Prop := step.1 = step'.1 ∧ step.2.IsLike step'.2

section Steps

variable (hmodes : s.modes = t.modes) (hline : s.lineStart = t.lineStart)
  (hs : s.owed = 0) (ht : t.owed = 0)
include hmodes hline hs ht

theorem lineCommentStep_alike : IsStepLike (lineCommentStep s c) (lineCommentStep t c) := by
  unfold lineCommentStep
  split
  · exact ⟨rfl, .of_eq (congrArg List.tail hmodes) rfl hs ht⟩
  · exact ⟨rfl, .of_eq hmodes hline hs ht⟩

theorem blockCommentStep_alike (rest : Text) :
    IsStepLike (blockCommentStep s c rest) (blockCommentStep t c rest) := by
  unfold blockCommentStep
  split
  · exact ⟨rfl, .of_owed (congrArg List.tail hmodes) hline rfl rfl⟩
  · split
    · exact ⟨rfl, .of_eq hmodes hline hs ht⟩
    · exact ⟨rfl, .of_eq hmodes hline hs ht⟩

theorem heredocStep_alike (marker rest : Text) :
    IsStepLike (heredocStep marker s c rest) (heredocStep marker t c rest) := by
  unfold heredocStep
  dsimp only
  rw [hline]
  split
  · exact ⟨rfl, .of_owed (congrArg List.tail hmodes) rfl rfl rfl⟩
  · split
    · exact ⟨rfl, .of_owed (congrArg (_ :: ·) hmodes) rfl rfl rfl⟩
    · split
      · exact ⟨rfl, .of_eq hmodes rfl hs ht⟩
      · exact ⟨rfl, .of_eq hmodes rfl hs ht⟩

theorem stringStep_alike (rest : Text) :
    IsStepLike (stringStep s c rest) (stringStep t c rest) := by
  unfold stringStep
  split
  · exact ⟨rfl, .of_owed hmodes hline rfl rfl⟩
  · split
    · exact ⟨rfl, .of_owed hmodes hline rfl rfl⟩
    · split
      · exact ⟨rfl, .of_owed (congrArg (_ :: ·) hmodes) hline rfl rfl⟩
      · split
        · exact ⟨rfl, .of_eq (congrArg List.tail hmodes) hline hs ht⟩
        · split
          · exact ⟨rfl, .of_eq (congrArg List.tail hmodes) rfl hs ht⟩
          · exact ⟨rfl, .of_eq hmodes hline hs ht⟩

theorem braceStep_alike : IsStepLike (braceStep s c) (braceStep t c) := by
  unfold braceStep
  rw [hmodes]
  split
  · split
    · exact ⟨rfl, .of_eq rfl hline hs ht⟩
    · split
      · split
        · exact ⟨rfl, .of_eq rfl hline hs ht⟩
        · exact ⟨rfl, .of_eq rfl hline hs ht⟩
      · exact ⟨rfl, .of_eq hmodes hline hs ht⟩
  · exact ⟨rfl, .of_eq hmodes hline hs ht⟩

theorem codeStep_alike (rest : Text) : IsStepLike (codeStep s c rest) (codeStep t c rest) := by
  unfold codeStep
  split
  · exact ⟨rfl, .of_eq hmodes rfl hs ht⟩
  · dsimp only
    rw [hline]
    split
    · exact ⟨rfl, .of_eq (congrArg (_ :: ·) hmodes) rfl hs ht⟩
    · split
      · exact ⟨rfl, .of_eq (congrArg (_ :: ·) hmodes) rfl hs ht⟩
      · split
        · exact ⟨rfl, .of_owed (congrArg (_ :: ·) hmodes) rfl rfl rfl⟩
        · split
          · exact ⟨rfl, .of_owed (congrArg (_ :: ·) hmodes) rfl rfl rfl⟩
          · exact braceStep_alike hmodes rfl hs ht

end Steps

/-- In code a blank of the line is shown, and any other character ends the beginning of the
line or begins a new one. -/
theorem codeStep_alike_of_isCode (hmodes : s.modes = t.modes) (hcode : isCode s.modes = true)
    (hs : s.owed = 0) (ht : t.owed = 0) (rest : Text) :
    IsStepLike (codeStep s c rest) (codeStep t c rest) := by
  cases hindent : isIndent c with
  | false =>
    -- the step does not look at the beginning of the line
    have hforget : ∀ u : State,
        codeStep u c rest = codeStep { u with lineStart := false } c rest := by
      intro u
      unfold codeStep
      simp only [hindent, Bool.and_false]
    rw [hforget s, hforget t]
    exact codeStep_alike (s := { s with lineStart := false })
      (t := { t with lineStart := false }) hmodes rfl hs ht rest
  | true =>
    have hplain : ∀ u : State, isCode u.modes = true → codeStep u c rest =
        (.keep, { u with lineStart := u.lineStart && isIndent c }) := by
      intro u hu
      have hne : ∀ d, isIndent d = false → c ≠ d := by
        rintro d hd rfl
        rw [hindent] at hd
        cases hd
      rw [codeStep_eq u (hne _ (by decide)) (hne _ (by decide)) (hne _ (by decide))
        (hne _ (by decide)) (hne _ (by decide)), braceStep]
      split
      · rw [if_neg (hne _ (by decide)), if_neg (hne _ (by decide))]
      · rfl
    rw [hplain s hcode, hplain t (hmodes ▸ hcode)]
    exact ⟨rfl, hmodes, hs.trans ht.symm, fun howed => absurd hs howed, .inr ⟨hcode, hs⟩⟩

theorem State.IsLike.step (h : s.IsLike t) (c : Char) (rest : Text) :
    IsStepLike (step s c rest) (step t c rest) := by
  cases howed : s.owed with
  | succ n =>
    have hcover := h.cover (by simp [howed])
    have hline := h.lineStart.resolve_right (by simp [howed])
    have howed' : t.owed = n + 1 := h.owed.symm.trans howed
    rw [Mask.step, Mask.step, howed, howed']
    exact ⟨hcover, h.modes, rfl, fun _ => hcover, .inl hline⟩
  | zero =>
    have howed' : t.owed = 0 := h.owed.symm.trans howed
    by_cases hcode : isCode s.modes = true
    · rw [step_of_isCode hcode ⟨rfl, howed⟩, step_of_isCode (h.modes ▸ hcode) ⟨rfl, howed'⟩]
      exact codeStep_alike_of_isCode h.modes hcode howed howed' rest
    · have hline := h.lineStart.resolve_right fun hboth => hcode hboth.1
      rw [Mask.step, Mask.step, howed, howed', h.modes]
      dsimp only
      split
      · exact lineCommentStep_alike h.modes hline howed howed'
      · exact blockCommentStep_alike h.modes hline howed howed' rest
      · exact heredocStep_alike h.modes hline howed howed' _ rest
      · exact stringStep_alike h.modes hline howed howed' rest
      · exact codeStep_alike h.modes hline howed howed' rest

/-- States that read alike give the same mask. -/
theorem run_eq_of_isLike (h : s.IsLike t) (text : Text) : run s text = run t text := by
  induction text generalizing s t with
  | nil => rfl
  | cons c rest ih =>
    obtain ⟨hcover, hnext⟩ := h.step c rest
    calc run s (c :: rest) = (step s c rest).1.apply c :: run (step s c rest).2 rest := rfl
      _ = (step t c rest).1.apply c :: run (step t c rest).2 rest := by rw [hcover, ih hnext]

/-! ### Starting afresh -/

/-- In code the mask depends on nothing but the open constructs. -/
theorem run_eq_of_standsIn (hcode : isCode modes = true) (hs : s.StandsIn modes)
    (ht : t.StandsIn modes) (text : Text) : run s text = run t text :=
  run_eq_of_isLike ⟨hs.1.trans ht.1.symm, hs.2.trans ht.2.symm, fun howed => absurd hs.2 howed,
    .inr ⟨hs.1 ▸ hcode, hs.2⟩⟩ text

/-- Top-level code is read as a text of its own. -/
theorem run_eq_mask (hs : s.StandsIn []) (text : Text) : run s text = mask text :=
  run_eq_of_standsIn rfl hs ⟨rfl, rfl⟩ text

end TerraformTrace.Hcl.Mask
