import TerraformTrace.Proofs.Alias

/-!
# TerraformTrace.Proofs.MaskRun

The mask of a text, piece by piece. `Shows` says of a piece of text that, read inside some
constructs, it is always shown in one way and always leads to the same constructs,
**whatever comes after it**. Pieces are put together by `Shows.append`; the machine is
opened only here, once for every kind of piece.

The one piece that depends on what follows is the dollar sign in a string, which may begin
an interpolation or the escape of one. It is taken together with what follows
(`Shows.dollar`).
-/

namespace TerraformTrace.Hcl.Mask

open Text

/-- Inside these constructs, with nothing owed. -/
def State.StandsIn (s : State) (modes : List Mode) : Prop := s.modes = modes ∧ s.owed = 0

/-- Inside `modes` the text is shown as `shown`, and then the machine is inside `after`,
whatever follows the text. -/
def Shows (modes : List Mode) (text shown : Text) (after : List Mode) : Prop :=
  ∀ s : State, s.StandsIn modes → ∃ s' : State, s'.StandsIn after ∧
    ∀ rest, run s (text ++ rest) = shown ++ run s' rest

variable {modes middle after : List Mode} {text shown : Text} {c : Char}

theorem run_cons (s : State) (c : Char) (rest : Text) :
    run s (c :: rest) = (step s c rest).1.apply c :: run (step s c rest).2 rest := rfl

namespace Shows

theorem nil (modes : List Mode) : Shows modes [] [] modes := fun s hs => ⟨s, hs, fun _ => rfl⟩

theorem append {text' shown' : Text} (h : Shows modes text shown middle)
    (h' : Shows middle text' shown' after) :
    Shows modes (text ++ text') (shown ++ shown') after := by
  intro s hs
  obtain ⟨s₁, hs₁, hrun⟩ := h s hs
  obtain ⟨s₂, hs₂, hrun'⟩ := h' s₁ hs₁
  refine ⟨s₂, hs₂, fun rest => ?_⟩
  rw [List.append_assoc, hrun, hrun', List.append_assoc]

theorem cons {c' : Char} (h : Shows modes [c] [c'] middle) (h' : Shows middle text shown after) :
    Shows modes (c :: text) (c' :: shown) after :=
  h.append h'

/-- A piece is as long as it is shown. -/
theorem length_eq (h : Shows modes text shown after) : shown.length = text.length := by
  obtain ⟨s', -, hrun⟩ := h { modes } ⟨rfl, rfl⟩
  have hlength := congrArg List.length (hrun [])
  simpa [length_run, run] using hlength.symm

/-- A single character, if the step for it does not depend on what follows. -/
theorem of_step (cover : Cover) (h : ∀ s : State, s.StandsIn modes → ∃ s' : State,
    s'.StandsIn after ∧ ∀ rest, step s c rest = (cover, s')) :
    Shows modes [c] [cover.apply c] after := by
  intro s hs
  obtain ⟨s', hs', hstep⟩ := h s hs
  refine ⟨s', hs', fun rest => ?_⟩
  rw [List.singleton_append, run, hstep]
  rfl

/-- Characters of a class that are shown one by one in the same constructs. -/
theorem of_forall (show₁ : Char → Char) (h : ∀ c ∈ text, Shows modes [c] [show₁ c] modes) :
    Shows modes text (text.map show₁) modes := by
  induction text with
  | nil => exact nil modes
  | cons c rest ih =>
    exact cons (h c List.mem_cons_self) (ih (List.forall_mem_cons.mp h).2)

end Shows

/-- What is owed is shown under the cover that was agreed on. -/
theorem run_owe (s : State) (cover : Cover) (token rest : Text) :
    run (s.owe token.length cover) (token ++ rest) =
      token.map cover.apply ++ run (s.owe 0 cover) rest := by
  induction token with
  | nil => rfl
  | cons c token ih =>
    have hstep : step (s.owe (c :: token).length cover) c (token ++ rest) =
        (cover, s.owe token.length cover) := rfl
    rw [List.cons_append, run, hstep]
    exact congrArg (cover.apply c :: ·) ih

/-- A token of several characters, recognised at its first one. -/
theorem Shows.token (more : Text) (cover : Cover) (h : ∀ s : State, s.StandsIn modes →
    ∃ s' : State, s'.modes = after ∧
      ∀ rest, step s c (more ++ rest) = (cover, s'.owe more.length cover)) :
    Shows modes (c :: more) ((c :: more).map cover.apply) after := by
  intro s hs
  obtain ⟨s', hmodes, hstep⟩ := h s hs
  refine ⟨s'.owe 0 cover, ⟨hmodes, rfl⟩, fun rest => ?_⟩
  rw [List.cons_append, run, hstep]
  exact congrArg (cover.apply c :: ·) (run_owe s' cover more rest)

/-! ### Code -/

/-- Whether code is read inside these constructs. -/
def isCode : List Mode → Bool
  | [] => true
  | .interpolation _ :: _ => true
  | _ => false

theorem step_of_isCode {s : State} (hmodes : isCode modes = true) (hs : s.StandsIn modes)
    (c : Char) (rest : Text) : step s c rest = codeStep s c rest := by
  unfold step
  rw [hs.1, hs.2]
  match modes, hmodes with
  | [], _ => rfl
  | .interpolation _ :: _, _ => rfl

theorem header?_of_ne (h : c ≠ '<') (rest : Text) : Heredoc.header? (c :: rest) = none := by
  unfold Heredoc.header?
  split
  next heq => exact absurd (List.cons.inj heq).1 h
  next heq => exact absurd (List.cons.inj heq).1 h
  next => rfl

/-- Code that begins no string, comment or heredoc is left to the braces. -/
theorem codeStep_eq (s : State) (hline : c ≠ '\n') (hquote : c ≠ '"') (hhash : c ≠ '#')
    (hslash : c ≠ '/') (hangle : c ≠ '<') (rest : Text) :
    codeStep s c rest = braceStep { s with lineStart := s.lineStart && isIndent c } c := by
  simp only [codeStep, if_neg hline, if_neg hquote, hhash, hslash, header?_of_ne hangle,
    decide_false, Bool.false_and, Bool.or_false, Bool.false_eq_true, if_false]

/-- Code at top level stays as it is. -/
theorem shows_code (h : c ∉ ['"', '#', '/', '<']) : Shows [] [c] [c] [] := by
  simp only [List.mem_cons, List.not_mem_nil, or_false, not_or] at h
  obtain ⟨hquote, hhash, hslash, hangle⟩ := h
  refine Shows.of_step .keep fun s hs => ?_
  by_cases hline : c = '\n'
  · refine ⟨{ s with lineStart := true }, hs, fun rest => ?_⟩
    rw [step_of_isCode rfl hs, codeStep, if_pos hline]
  · refine ⟨{ s with lineStart := s.lineStart && isIndent c }, hs, fun rest => ?_⟩
    rw [step_of_isCode rfl hs, codeStep_eq s hline hquote hhash hslash hangle, braceStep, hs.1]

/-- Names and dots stay as they are in all code. -/
theorem shows_pathChar (hmodes : isCode modes = true) (hc : isPathChar c = true) :
    Shows modes [c] [c] modes := by
  have hne : ∀ {d}, isPathChar d = false → c ≠ d := fun hd => ne_of_isPathChar hc hd
  refine Shows.of_step .keep fun s hs => ?_
  refine ⟨{ s with lineStart := s.lineStart && isIndent c }, hs, fun rest => ?_⟩
  rw [step_of_isCode hmodes hs, codeStep_eq s (hne (by decide)) (hne (by decide))
    (hne (by decide)) (hne (by decide)) (hne (by decide))]
  unfold braceStep
  rw [hs.1]
  match modes, hmodes with
  | [], _ => rfl
  | .interpolation _ :: _, _ =>
    dsimp only
    rw [if_neg (hne (by decide)), if_neg (hne (by decide))]

theorem shows_path (hmodes : isCode modes = true) (h : ∀ c ∈ text, isPathChar c = true) :
    Shows modes text text modes := by
  have hkeep := Shows.of_forall id fun c hc => shows_pathChar hmodes (h c hc)
  rwa [List.map_id] at hkeep

/-- The end of an interpolation is not a brace. -/
theorem shows_endInterpolation (modes : List Mode) :
    Shows (.interpolation 0 :: modes) ['}'] [' '] modes := by
  refine Shows.of_step .blank fun s hs => ?_
  refine ⟨{ s with modes, lineStart := s.lineStart && isIndent '}' }, ⟨rfl, hs.2⟩, fun rest => ?_⟩
  rw [step_of_isCode rfl hs, codeStep_eq s (by decide) (by decide) (by decide) (by decide)
    (by decide), braceStep, hs.1]
  rfl

/-! ### Strings -/

theorem step_of_string {s : State} (hs : s.StandsIn (.string :: modes)) (c : Char) (rest : Text) :
    step s c rest = stringStep s c rest := by
  unfold step
  rw [hs.1, hs.2]

theorem shows_openQuote (hmodes : isCode modes = true) :
    Shows modes ['"'] ['"'] (.string :: modes) := by
  refine Shows.of_step .keep fun s hs => ?_
  refine ⟨{ s with lineStart := s.lineStart && isIndent '"' }.enter .string,
    ⟨congrArg _ hs.1, hs.2⟩, fun rest => ?_⟩
  rw [step_of_isCode hmodes hs]
  rfl

theorem shows_closeQuote (modes : List Mode) : Shows (.string :: modes) ['"'] ['"'] modes := by
  refine Shows.of_step .keep fun s hs => ?_
  refine ⟨s.leave, ⟨congrArg List.tail hs.1, hs.2⟩, fun rest => ?_⟩
  rw [step_of_string hs]
  rfl

/-- What has no meaning in a string is blanked. -/
theorem shows_stringChar (hescape : c ≠ '\\') (hdollar : c ≠ '$') (hquote : c ≠ '"')
    (hline : c ≠ '\n') : Shows (.string :: modes) [c] [' '] (.string :: modes) := by
  refine Shows.of_step .blank fun s hs => ⟨s, hs, fun rest => ?_⟩
  rw [step_of_string hs]
  simp [stringStep, hescape, hdollar, hquote, hline]

theorem shows_escape (hc : c ≠ '\n') :
    Shows (.string :: modes) ['\\', c] [' ', ' '] (.string :: modes) := by
  refine Shows.token [c] .blank fun s hs => ⟨s, hs.1, fun rest => ?_⟩
  rw [step_of_string hs]
  simp [stringStep, hc]

/-- An interpolation begins. -/
theorem shows_openInterpolation :
    Shows (.string :: modes) ['$', '{'] [' ', ' '] (.interpolation 0 :: .string :: modes) := by
  refine Shows.token ['{'] .blank fun s hs =>
    ⟨s.enter (.interpolation 0), congrArg _ hs.1, fun rest => ?_⟩
  rw [step_of_string hs]
  rfl

/-- A doubled dollar sign takes an interpolation its meaning. -/
theorem shows_escapedInterpolation :
    Shows (.string :: modes) ['$', '$', '{'] [' ', ' ', ' '] (.string :: modes) := by
  refine Shows.token ['$', '{'] .blank fun s hs => ⟨s, hs.1, fun rest => ?_⟩
  rw [step_of_string hs]
  simp [stringStep]

/-- A dollar sign is blanked if what follows does not make it the beginning of something. -/
theorem Shows.dollar (h : Shows (.string :: modes) text shown after)
    (hopen : ∀ rest, (text ++ rest).head? ≠ some '{')
    (hescape : ∀ rest, ['$', '{'].isPrefixOf (text ++ rest) = false) :
    Shows (.string :: modes) ('$' :: text) (' ' :: shown) after := by
  intro s hs
  obtain ⟨s', hs', hrun⟩ := h s hs
  refine ⟨s', hs', fun rest => ?_⟩
  have hstep : step s '$' (text ++ rest) = (.blank, s) := by
    rw [step_of_string hs]
    simp only [stringStep, hescape rest, decide_eq_false (hopen rest), Bool.and_false]
    rfl
  rw [List.cons_append, run, hstep]
  exact congrArg (' ' :: ·) (hrun rest)

/-! ### Comments -/

theorem step_of_lineComment {s : State} (hs : s.StandsIn (.lineComment :: modes)) (c : Char)
    (rest : Text) : step s c rest = lineCommentStep s c := by
  unfold step
  rw [hs.1, hs.2]

theorem shows_hash (hmodes : isCode modes = true) :
    Shows modes ['#'] [hidden] (.lineComment :: modes) := by
  refine Shows.of_step .hide fun s hs => ?_
  refine ⟨{ s with lineStart := s.lineStart && isIndent '#' }.enter .lineComment,
    ⟨congrArg _ hs.1, hs.2⟩, fun rest => ?_⟩
  rw [step_of_isCode hmodes hs]
  rfl

theorem shows_commentChar (hc : c ≠ '\n') :
    Shows (.lineComment :: modes) [c] [hidden] (.lineComment :: modes) := by
  refine Shows.of_step .hide fun s hs => ⟨s, hs, fun rest => ?_⟩
  rw [step_of_lineComment hs, lineCommentStep, if_neg hc]

theorem shows_slashes (hmodes : isCode modes = true) :
    Shows modes ['/', '/'] [hidden, hidden] (.lineComment :: modes) := by
  intro s hs
  have hentered : State.StandsIn
      ({ s with lineStart := s.lineStart && isIndent '/' }.enter .lineComment)
      (.lineComment :: modes) := ⟨congrArg _ hs.1, hs.2⟩
  refine ⟨_, hentered, fun rest => ?_⟩
  have hstep : step s '/' ('/' :: rest) =
      (.hide, { s with lineStart := s.lineStart && isIndent '/' }.enter .lineComment) := by
    rw [step_of_isCode hmodes hs]
    rfl
  rw [List.cons_append, List.singleton_append, run, hstep]
  -- the second slash is read inside the comment already
  show hidden :: run _ ('/' :: rest) = _
  rw [run, step_of_lineComment hentered]
  rfl

/-- The line break ends a comment. -/
theorem shows_endComment (modes : List Mode) :
    Shows (.lineComment :: modes) ['\n'] ['\n'] modes := by
  refine Shows.of_step .keep fun s hs => ?_
  refine ⟨{ s.leave with lineStart := true }, ⟨congrArg List.tail hs.1, hs.2⟩, fun rest => ?_⟩
  rw [step_of_lineComment hs]
  rfl

end TerraformTrace.Hcl.Mask
