import TerraformTrace.Proofs.Balanced
import TerraformTrace.Proofs.MaskCut

/-!
# TerraformTrace.Proofs.MaskBrace

Braces under the mask. What is shown outside of code is a quote, a line break, or belongs to the
first or the last line of a heredoc (`exposes`, `State.OwesLine`), where no brace stands. So a
brace that is shown stands in code (`isCode_of_brace`) and is counted by the interpolation around
it, if there is one, and **counting the braces of the mask is counting those of the machine**.

Hence the constructs around an open brace do not count until the brace is closed: the machine
does the same without them (`run_under`), and what stands between the braces is shown as a text
of its own (`run_eq_mask_of_inBraces`).
-/

namespace TerraformTrace.Hcl

open Text

namespace Mask

variable {s t : State} {modes outer : List Mode} {c : Char} {text rest : Text}

/-! ### What a step can owe -/

/-- What is left of a token after its first character. -/
theorem mem_take_cons {n : Nat} (h : c ∈ rest.take (n - 1)) (first : Char) :
    c ∈ (first :: rest).take n := by
  cases n with
  | zero => cases h
  | succ n => exact List.mem_cons_of_mem _ h

theorem owed_braceStep (s : State) (c : Char) : (braceStep s c).2.owed = s.owed := by
  unfold braceStep
  repeat' split
  all_goals rfl

/-- What the machine can owe after a step with nothing owed before: nothing, a token of the line
that is covered, the rest of a heredoc's last line, or that of its first line. A token holds no
character of a path, but for one after a backslash in a string. -/
inductive Owes (s : State) (c : Char) (rest : Text) (t : State) : Prop
  | nothing (howed : t.owed = 0)
  | token (hcover : t.cover ≠ .keep) (hline : '\n' ∉ rest.take t.owed)
    (hpath : (∀ d ∈ rest.take t.owed, isPathChar d = false) ∨
      (t.owed ≤ 1 ∧ t.modes.head? = some .string))
  | lastLine (marker : Text) (hmarker : Mode.heredoc marker ∈ s.modes)
    (hlast : Heredoc.isTerminator marker (firstLine (c :: rest)) = true)
    (howed : t.owed = (firstLine (c :: rest)).length - 1) (hcover : t.cover = .keep)
  | header (header : Heredoc.Header) (hheader : Heredoc.header? (c :: rest) = some header)
    (howed : t.owed = header.length - 1) (hcover : t.cover = .keep) (hmodes : t.modes ≠ [])

namespace Owes

/-- A token of one more character. -/
theorem one {t : State} {d : Char} {cover : Cover} (hcover : cover ≠ .keep)
    (h : rest.head? = some d) (hd : d ≠ '\n')
    (hpath : isPathChar d = false ∨ t.modes.head? = some .string) :
    Owes s c rest (t.owe 1 cover) := by
  obtain ⟨more, rfl⟩ := List.head?_eq_some_iff.mp h
  refine .token hcover (by simpa [State.owe] using Ne.symm hd) (hpath.imp (fun hsign => ?_) ?_)
  · simpa [State.owe] using hsign
  · exact fun hstring => ⟨Nat.le_refl 1, hstring⟩

theorem interpolate {t : State} (h : rest.head? = some '{') : Owes s c rest t.interpolate :=
  one nofun h (by decide) (.inl (by decide))

theorem blockCommentStep (howed : s.owed = 0) : Owes s c rest (blockCommentStep s c rest).2 := by
  unfold Mask.blockCommentStep
  split
  next hend =>
    simp only [Bool.and_eq_true, decide_eq_true_eq] at hend
    exact one nofun hend.2 (by decide) (.inl (by decide))
  next => split <;> exact .nothing howed

theorem heredocStep {marker : Text} (hmarker : Mode.heredoc marker ∈ s.modes)
    (howed : s.owed = 0) : Owes s c rest (heredocStep marker s c rest).2 := by
  unfold Mask.heredocStep
  dsimp only
  split
  next hlast => exact .lastLine marker hmarker (Bool.and_eq_true_iff.mp hlast).2 rfl rfl
  next =>
    split
    next hopen =>
      simp only [Bool.and_eq_true, decide_eq_true_eq] at hopen
      exact interpolate hopen.2
    next => split <;> exact .nothing howed

theorem stringStep (howed : s.owed = 0) (hmode : s.modes.head? = some .string) :
    Owes s c rest (stringStep s c rest).2 := by
  unfold Mask.stringStep
  split
  next hescape =>
    simp only [Bool.and_eq_true, decide_eq_true_eq, Option.any_eq_true] at hescape
    obtain ⟨-, d, hhead, hd⟩ := hescape
    exact one nofun hhead hd (.inr hmode)
  next =>
    split
    next hescape =>
      obtain ⟨more, rfl⟩ := List.isPrefixOf_iff_prefix.mp (Bool.and_eq_true_iff.mp hescape).2
      exact .token nofun (by simp [State.owe]) (.inl (by simp [State.owe]; decide))
    next =>
      split
      next hopen =>
        simp only [Bool.and_eq_true, decide_eq_true_eq] at hopen
        exact interpolate hopen.2
      next =>
        split
        · exact .nothing howed
        · split <;> exact .nothing howed

theorem codeStep (howed : s.owed = 0) : Owes s c rest (codeStep s c rest).2 := by
  unfold Mask.codeStep
  split
  next => exact .nothing howed
  next =>
    dsimp only
    split
    next => exact .nothing howed
    next =>
      split
      next => exact .nothing howed
      next =>
        split
        next hopen =>
          simp only [Bool.and_eq_true, decide_eq_true_eq] at hopen
          exact one nofun hopen.2 (by decide) (.inl (by decide))
        next =>
          split
          next header hheader => exact .header header hheader rfl rfl (List.cons_ne_nil _ _)
          next =>
            refine .nothing ?_
            rw [owed_braceStep, howed]

end Owes

theorem owes (howed : s.owed = 0) (c : Char) (rest : Text) : Owes s c rest (step s c rest).2 := by
  unfold step
  rw [howed]
  dsimp only
  split
  next =>
    unfold lineCommentStep
    split <;> exact .nothing howed
  next => exact .blockCommentStep howed
  next marker _ hmodes => exact .heredocStep (hmodes ▸ List.mem_cons_self) howed
  next hmodes => exact .stringStep howed (by rw [hmodes]; rfl)
  next => exact .codeStep howed

/-- What is owed of a heredoc's last line belongs to the line. -/
theorem mem_firstLine_of_owed {d : Char} (h : d ∈ rest.take ((firstLine (c :: rest)).length - 1)) :
    d ∈ firstLine (c :: rest) := by
  have hmem := mem_take_cons h c
  rwa [firstLine, ← List.prefix_iff_eq_take.mp (List.takeWhile_prefix _)] at hmem

/-! ### What a step can show -/

/-- Why a character can be shown as itself: it is owed, it is code, it closes a string, it begins
the last line of a heredoc, or it is a line break. -/
inductive Exposes (s : State) (c : Char) (rest : Text) : Prop
  | owed (howed : s.owed ≠ 0) (hcover : s.cover = .keep)
  | code (hcode : isCode s.modes = true ∧ s.owed = 0)
  | quote (modes : List Mode) (hs : s.StandsIn (.string :: modes)) (hc : c = '"')
  | lastLine (marker : Text) (hmarker : Mode.heredoc marker ∈ s.modes)
    (hlast : Heredoc.isTerminator marker (firstLine (c :: rest)) = true)
    (hmem : c ∈ firstLine (c :: rest))
  | lineBreak (hc : c = '\n')

theorem Exposes.heredocStep {marker : Text} (hmarker : Mode.heredoc marker ∈ s.modes)
    (hkeep : (heredocStep marker s c rest).1 = .keep) : Exposes s c rest := by
  by_cases hbreak : c = '\n'
  · exact .lineBreak hbreak
  · have hmem : c ∈ firstLine (c :: rest) := by
      rw [firstLine, List.takeWhile_cons_of_pos (by simpa using hbreak)]
      exact List.mem_cons_self
    unfold Mask.heredocStep at hkeep
    dsimp only at hkeep
    split at hkeep
    next hlast => exact .lastLine marker hmarker (Bool.and_eq_true_iff.mp hlast).2 hmem
    next => split at hkeep <;> cases hkeep

theorem exposes (hkeep : (step s c rest).1 = .keep) : Exposes s c rest := by
  cases howed : s.owed with
  | succ n =>
    rw [step, howed] at hkeep
    exact .owed (by simp [howed]) hkeep
  | zero =>
    cases hmodes : s.modes with
    | nil => exact .code ⟨by rw [hmodes]; rfl, howed⟩
    | cons mode modes =>
      cases mode with
      | interpolation braces => exact .code ⟨by rw [hmodes]; rfl, howed⟩
      | string =>
        rw [step_of_string ⟨hmodes, howed⟩, stringStep_cover] at hkeep
        split at hkeep
        next hc => exact hc.elim (.quote modes ⟨hmodes, howed⟩) .lineBreak
        next => cases hkeep
      | lineComment =>
        rw [step_of_lineComment ⟨hmodes, howed⟩, lineCommentStep] at hkeep
        split at hkeep
        next hc => exact .lineBreak hc
        next => cases hkeep
      | blockComment =>
        simp only [step, howed, hmodes, blockCommentStep] at hkeep
        split at hkeep
        next => cases hkeep
        next =>
          split at hkeep
          next hc => exact .lineBreak hc
          next => cases hkeep
      | heredoc marker =>
        simp only [step, howed, hmodes] at hkeep
        exact .heredocStep (hmodes ▸ List.mem_cons_self) hkeep

/-! ### What is owed to be shown -/

/-- The characters in the first and the last line of a heredoc. -/
def isLineChar (c : Char) : Bool := isHeaderChar c || isBlank c

theorem isLineChar_of_isTerminator {marker line : Text} (hmarker : isMarker marker = true)
    (h : Heredoc.isTerminator marker line = true) (hc : c ∈ line) : isLineChar c = true := by
  rcases isWord_or_isBlank_of_isTerminator hmarker h hc with hword | hblank
  · simp [isLineChar, isHeaderChar, hword]
  · simp [isLineChar, hblank]

theorem firstLine_of_header? {header : Heredoc.Header} (h : Heredoc.header? text = some header) :
    header.length = (firstLine text).length + 1 ∧ ∀ c ∈ firstLine text, isLineChar c = true := by
  obtain ⟨line, rest, rfl, rfl⟩ := exists_of_header? h
  obtain ⟨inline, hline, hinline⟩ := exists_headerLine line
  have hfirst : firstLine (line.text ++ rest) = inline := by
    rw [hline, List.append_assoc]
    exact firstLine_append (fun hbreak => absurd (hinline _ hbreak) (by decide)) (by simp)
  rw [hfirst]
  refine ⟨?_, fun c hc => by rw [isLineChar, hinline c hc, Bool.true_or]⟩
  rw [HeaderLine.header, hline, List.length_append]
  rfl

/-- What is owed to be shown ends with its line, the first or the last one of a heredoc. -/
def State.OwesLine (s : State) (rest : Text) : Prop :=
  s.owed ≠ 0 → s.cover = .keep →
    s.owed ≤ (firstLine rest).length + 1 ∧ ∀ c ∈ firstLine rest, isLineChar c = true

namespace State.OwesLine

theorem of_owed (h : s.owed = 0) : s.OwesLine rest := fun hne => absurd h hne

/-- The rest of such a line. -/
theorem of_firstLine (howed : s.owed ≤ (firstLine (c :: rest)).length)
    (hline : ∀ d ∈ firstLine (c :: rest), isLineChar d = true) : s.OwesLine rest := by
  intro hne _
  by_cases hbreak : c = '\n'
  · simp only [firstLine, hbreak, List.takeWhile_cons, List.length_nil, decide_false,
      ne_eq, not_true_eq_false, Bool.false_eq_true, if_false] at howed
    omega
  · rw [firstLine, List.takeWhile_cons_of_pos (by simpa using hbreak)] at howed hline
    exact ⟨howed, (List.forall_mem_cons.mp hline).2⟩

theorem step (hs : s.IsSound) (h : s.OwesLine (c :: rest)) :
    (Mask.step s c rest).2.OwesLine rest := by
  intro hne hkeep
  cases howed : s.owed with
  | succ n =>
    have hstep : Mask.step s c rest = (s.cover, { s with owed := n }) := by
      rw [Mask.step, howed]
    rw [hstep] at hne hkeep ⊢
    obtain ⟨hle, hline⟩ := h (by simp [howed]) hkeep
    exact of_firstLine (c := c) (by simp only; omega) hline hne hkeep
  | zero =>
    cases owes howed c rest with
    | nothing hnothing => exact absurd hnothing hne
    | token hcover => exact absurd hkeep hcover
    | lastLine marker hmarker hlast hlength _ =>
      refine of_firstLine (c := c) (by omega) (fun d hd => ?_) hne hkeep
      exact isLineChar_of_isTerminator (hs.nested.markers marker hmarker) hlast hd
    | header header hheader hlength _ _ =>
      obtain ⟨hheaderLength, hline⟩ := firstLine_of_header? hheader
      exact of_firstLine (c := c) (by omega) hline hne hkeep

theorem stateBefore {front : Text} (hs : s.IsSound) (h : s.OwesLine (front ++ rest)) :
    (stateBefore s front rest).OwesLine rest := by
  induction front generalizing s with
  | nil => exact h
  | cons c front ih => exact ih (isSoundStep hs c _).sound (h.step hs)

/-- A character other than a line break that is owed to be shown stands in such a line. -/
theorem isLineChar (h : s.OwesLine (c :: rest)) (howed : s.owed ≠ 0) (hcover : s.cover = .keep)
    (hbreak : c ≠ '\n') : isLineChar c = true := by
  refine (h howed hcover).2 c ?_
  rw [firstLine, List.takeWhile_cons_of_pos (by simpa using hbreak)]
  exact List.mem_cons_self

end State.OwesLine

/-! ### Where braces are shown -/

def isBrace (c : Char) : Bool := c = '{' || c = '}'

/-- A brace is shown in code only. -/
theorem isCode_of_brace (hs : s.IsSound) (howes : s.OwesLine (c :: rest)) (hc : isBrace c = true)
    (hkeep : (step s c rest).1 = .keep) : s.owed = 0 ∧ isCode s.modes = true := by
  have hline : isLineChar c ≠ true ∧ c ≠ '"' ∧ c ≠ '\n' := by
    rw [isBrace, Bool.or_eq_true, decide_eq_true_eq, decide_eq_true_eq] at hc
    rcases hc with rfl | rfl <;> decide
  cases exposes hkeep with
  | owed howed hcover => exact absurd (howes.isLineChar howed hcover hline.2.2) hline.1
  | code hcode => exact ⟨hcode.2, hcode.1⟩
  | quote modes hs hquote => exact absurd hquote hline.2.1
  | lastLine marker hmarker hlast hmem =>
    exact absurd (isLineChar_of_isTerminator (hs.nested.markers marker hmarker) hlast hmem) hline.1
  | lineBreak hbreak => exact absurd hbreak hline.2.2

/-! ### Constructs around the machine -/

/-- The state inside further constructs. -/
def State.under (s : State) (outer : List Mode) : State := { s with modes := s.modes ++ outer }

/-- Braces are counted by the innermost interpolation, and what is no brace is not counted. -/
theorem braceStep_under {braces : Nat} (h : s.modes = [] → isBrace c = false) :
    braceStep (s.under (.interpolation braces :: outer)) c =
      ((braceStep s c).1, (braceStep s c).2.under (.interpolation braces :: outer)) := by
  obtain ⟨modes, lineStart, owed, cover⟩ := s
  unfold braceStep State.under
  cases modes with
  | nil =>
    have hc := h rfl
    rw [isBrace, Bool.or_eq_false_iff, decide_eq_false_iff_not, decide_eq_false_iff_not] at hc
    dsimp only [List.nil_append]
    rw [if_neg hc.1, if_neg hc.2]
  | cons mode modes =>
    cases mode with
    | interpolation inner =>
      dsimp only [List.cons_append]
      repeat' split
      all_goals rfl
    | _ => rfl

theorem codeStep_under {braces : Nat} (h : s.modes = [] → isBrace c = false) :
    codeStep (s.under (.interpolation braces :: outer)) c rest =
      ((codeStep s c rest).1, (codeStep s c rest).2.under (.interpolation braces :: outer)) := by
  unfold codeStep
  split
  · rfl
  split
  · rfl
  split
  · rfl
  split
  · rfl
  split
  · rfl
  · exact braceStep_under (s := { s with lineStart := s.lineStart && isIndent c }) h

/-- The machine looks at nothing but the innermost construct. -/
theorem step_under {braces : Nat} (h : s.modes = [] → s.owed = 0 → isBrace c = false) :
    step (s.under (.interpolation braces :: outer)) c rest =
      ((step s c rest).1, (step s c rest).2.under (.interpolation braces :: outer)) := by
  obtain ⟨modes, lineStart, owed, cover⟩ := s
  cases owed with
  | succ n => rfl
  | zero =>
    cases modes with
    | nil => exact codeStep_under fun hmodes => h hmodes rfl
    | cons mode modes =>
      cases mode with
      | interpolation inner => exact codeStep_under nofun
      | string =>
        show stringStep _ c rest = ((stringStep _ c rest).1, (stringStep _ c rest).2.under _)
        unfold stringStep
        repeat' split
        all_goals rfl
      | heredoc marker =>
        show heredocStep marker _ c rest =
          ((heredocStep marker _ c rest).1, (heredocStep marker _ c rest).2.under _)
        cases hlast : lineStart && Heredoc.isTerminator marker (firstLine (c :: rest)) with
        | true =>
          simp only [heredocStep, State.under, hlast, if_true]
          rfl
        | false =>
          simp only [heredocStep, State.under, hlast, Bool.false_eq_true, if_false]
          repeat' split
          all_goals rfl
      | lineComment =>
        show lineCommentStep _ c = ((lineCommentStep _ c).1, (lineCommentStep _ c).2.under _)
        unfold lineCommentStep
        repeat' split
        all_goals rfl
      | blockComment =>
        show blockCommentStep _ c rest =
          ((blockCommentStep _ c rest).1, (blockCommentStep _ c rest).2.under _)
        unfold blockCommentStep
        repeat' split
        all_goals rfl

/-- The braces that are open in the interpolations. -/
def openBraces : List Mode → Nat
  | [] => 0
  | .interpolation braces :: modes => openBraces modes + braces
  | _ :: modes => openBraces modes

theorem openBraces_braceStep (h : isBrace c = true → (braceStep s c).1 ≠ .keep) :
    openBraces (braceStep s c).2.modes = openBraces s.modes := by
  unfold braceStep at h ⊢
  split
  next braces modes hmodes =>
    split
    next hc => exact absurd (by simp [hmodes, hc]) (h (by rw [hc]; rfl))
    next hopen =>
      split
      next hc =>
        cases braces with
        | zero => simp [hmodes, openBraces]
        | succ braces => exact absurd (by simp [hmodes, hc]) (h (by rw [hc]; rfl))
      next => rfl
  next => rfl

theorem openBraces_codeStep (h : isBrace c = true → (codeStep s c rest).1 ≠ .keep) :
    openBraces (codeStep s c rest).2.modes = openBraces s.modes := by
  unfold codeStep at h ⊢
  split
  · rfl
  next hline =>
    dsimp only at h ⊢
    rw [if_neg hline] at h
    split
    · rfl
    next hquote =>
      rw [if_neg hquote] at h
      split
      · rfl
      next hcomment =>
        rw [if_neg hcomment] at h
        split
        · rfl
        next hblock =>
          rw [if_neg hblock] at h
          split
          · rfl
          next hheader =>
            rw [hheader] at h
            exact openBraces_braceStep h

/-- Whatever is not a brace that is shown leaves the open braces as they are. -/
theorem openBraces_step (h : isBrace c = true → (step s c rest).1 ≠ .keep) :
    openBraces (step s c rest).2.modes = openBraces s.modes := by
  obtain ⟨modes, lineStart, owed, cover⟩ := s
  cases owed with
  | succ n => rfl
  | zero =>
    cases modes with
    | nil => exact openBraces_codeStep h
    | cons mode modes =>
      cases mode with
      | interpolation inner => exact openBraces_codeStep h
      | string =>
        show openBraces (stringStep _ c rest).2.modes = _
        unfold stringStep
        repeat' split
        all_goals rfl
      | heredoc marker =>
        show openBraces (heredocStep marker _ c rest).2.modes = _
        unfold heredocStep
        dsimp only
        repeat' split
        all_goals rfl
      | lineComment =>
        show openBraces (lineCommentStep _ c).2.modes = _
        unfold lineCommentStep
        split <;> rfl
      | blockComment =>
        show openBraces (blockCommentStep _ c rest).2.modes = _
        unfold blockCommentStep
        repeat' split
        all_goals rfl

/-! ### Between braces -/

theorem closingBrace?_open (depth : Nat) (shown : Text) :
    closingBrace? depth ('{' :: shown) = (closingBrace? (depth + 1) shown).map (· + 1) := by
  cases depth <;> rfl

theorem closingBrace?_close (depth : Nat) (shown : Text) :
    closingBrace? (depth + 1) ('}' :: shown) = (closingBrace? depth shown).map (· + 1) := rfl

theorem apply_ne_brace {cover : Cover} (h : isBrace c = true → cover ≠ .keep) :
    cover.apply c ≠ '{' ∧ cover.apply c ≠ '}' := by
  cases cover with
  | keep =>
    constructor
    all_goals
      rintro rfl
      exact h rfl rfl
  | blank => exact ⟨by rw [Cover.apply]; decide, by rw [Cover.apply]; decide⟩
  | hide => exact ⟨by rw [Cover.apply]; decide, by rw [Cover.apply]; decide⟩

/-- A brace in code is left to the interpolation it stands in. -/
theorem step_brace (howed : s.owed = 0) (hcode : isCode s.modes = true) (hc : isBrace c = true)
    (rest : Text) : step s c rest = braceStep { s with lineStart := false } c := by
  rw [isBrace, Bool.or_eq_true, decide_eq_true_eq, decide_eq_true_eq] at hc
  rw [step_of_isCode hcode ⟨rfl, howed⟩]
  rcases hc with rfl | rfl
  all_goals
    rw [codeStep_eq s (by decide) (by decide) (by decide) (by decide) (by decide)]
    simp [isIndent]

/-- An opening brace is counted by the interpolation it stands in, be it the outermost one or
another. -/
theorem step_openBrace (howed : s.owed = 0) (hcode : isCode s.modes = true) (extra braces : Nat)
    (rest : Text) : ∃ extra',
      step (s.under (.interpolation (extra + braces + 1) :: outer)) '{' rest =
        (.keep, (step s '{' rest).2.under (.interpolation (extra' + braces + 1) :: outer)) ∧
      (step s '{' rest).1 = .keep ∧
      extra' + openBraces (step s '{' rest).2.modes = extra + openBraces s.modes + 1 := by
  obtain ⟨modes, lineStart, owed, cover⟩ := s
  subst howed
  match modes, hcode with
  | [], _ =>
    refine ⟨extra + 1, ?_, rfl, rfl⟩
    rw [show extra + 1 + braces + 1 = extra + braces + 1 + 1 by omega]
    rfl
  | .interpolation inner :: modes, _ =>
    exact ⟨extra, rfl, rfl, rfl⟩

/-- A closing brace is shown alike, and counted unless it closes what is open around. -/
theorem step_closeBrace (howed : s.owed = 0) (hcode : isCode s.modes = true)
    (hkeep : (step s '}' rest).1 = .keep) (outer : List Mode) (extra braces : Nat) :
    (step (s.under (.interpolation (extra + braces + 1) :: outer)) '}' rest).1 = .keep ∧
      (extra + openBraces s.modes = 0 ∨ ∃ extra',
        (step (s.under (.interpolation (extra + braces + 1) :: outer)) '}' rest).2 =
          (step s '}' rest).2.under (.interpolation (extra' + braces + 1) :: outer) ∧
        extra' + openBraces (step s '}' rest).2.modes + 1 = extra + openBraces s.modes) := by
  obtain ⟨modes, lineStart, owed, cover⟩ := s
  subst howed
  match modes, hcode with
  | [], _ =>
    refine ⟨rfl, ?_⟩
    cases extra with
    | zero => exact .inl rfl
    | succ extra =>
      refine .inr ⟨extra, ?_, rfl⟩
      rw [show extra + 1 + braces + 1 = extra + braces + 1 + 1 by omega]
      rfl
  | .interpolation 0 :: modes, _ => cases hkeep
  | .interpolation (inner + 1) :: modes, _ => exact ⟨rfl, .inr ⟨extra, rfl, rfl⟩⟩

/-- **As long as the braces opened here are not closed, the constructs around them do not
count.** -/
theorem run_under {braces extra : Nat} (hs : s.IsSound) (howes : s.OwesLine text)
    (h : closingBrace? (extra + openBraces s.modes)
      (run (s.under (.interpolation (extra + braces + 1) :: outer)) text) = none) :
    run (s.under (.interpolation (extra + braces + 1) :: outer)) text = run s text := by
  induction text generalizing s extra with
  | nil => rfl
  | cons c rest ih =>
    have hsound := (isSoundStep hs c rest).sound
    have howes' := howes.step hs
    by_cases hshown : isBrace c = true ∧ (step s c rest).1 = .keep
    · obtain ⟨hc, hkeep⟩ := hshown
      obtain ⟨howed, hcode⟩ := isCode_of_brace hs howes hc hkeep
      rw [isBrace, Bool.or_eq_true, decide_eq_true_eq, decide_eq_true_eq] at hc
      rcases hc with rfl | rfl
      · obtain ⟨extra', hstep, -, hcount⟩ := step_openBrace howed hcode extra braces rest
        rw [run_cons, hstep, Cover.apply, closingBrace?_open, Option.map_eq_none_iff,
          ← hcount] at h
        rw [run_cons, hstep, run_cons, hkeep, ih hsound howes' h]
      · obtain ⟨hcover, hzero | ⟨extra', hnext, hcount⟩⟩ :=
          step_closeBrace howed hcode hkeep outer extra braces
        · rw [run_cons, hcover, hzero] at h
          cases h
        · rw [run_cons, hcover, hnext, Cover.apply, ← hcount, closingBrace?_close,
            Option.map_eq_none_iff] at h
          rw [run_cons, hcover, hnext, run_cons, hkeep, ih hsound howes' h]
    · have hcovered : isBrace c = true → (step s c rest).1 ≠ .keep := fun hc hkeep =>
        hshown ⟨hc, hkeep⟩
      have hstep : step (s.under (.interpolation (extra + braces + 1) :: outer)) c rest =
          ((step s c rest).1,
            (step s c rest).2.under (.interpolation (extra + braces + 1) :: outer)) := by
        refine step_under fun hmodes howed => Bool.eq_false_iff.mpr fun hc => hcovered hc ?_
        rw [step_brace howed (by rw [hmodes]; rfl) hc, braceStep, hmodes]
      obtain ⟨hopen, hclose⟩ := apply_ne_brace hcovered
      rw [run_cons, hstep, closingBrace?_char hopen hclose, Option.map_eq_none_iff,
        ← openBraces_step hcovered] at h
      rw [run_cons, hstep, run_cons, ih hsound howes' h]

/-- The machine stands behind an opening brace that is shown, with nothing owed. -/
def State.InBraces (s : State) : Prop :=
  s.StandsIn [] ∨ ∃ braces outer, s.StandsIn (.interpolation (braces + 1) :: outer)

theorem inBraces_step (hs : s.IsSound) (howes : s.OwesLine ('{' :: rest))
    (hkeep : (step s '{' rest).1 = .keep) : (step s '{' rest).2.InBraces := by
  obtain ⟨howed, hcode⟩ := isCode_of_brace hs howes rfl hkeep
  obtain ⟨modes, lineStart, owed, cover⟩ := s
  subst howed
  match modes, hcode with
  | [], _ => exact .inl ⟨rfl, rfl⟩
  | .interpolation inner :: modes, _ => exact .inr ⟨inner, modes, rfl, rfl⟩

/-- **What stands between braces is shown as a text of its own.** -/
theorem run_eq_mask_of_inBraces (h : s.InBraces) (hopen : closingBrace? 0 (run s text) = none) :
    run s text = mask text := by
  rcases h with hs | ⟨braces, outer, hs⟩
  · exact run_eq_mask hs text
  · have hlike : run s text =
        run (State.start.under (.interpolation (0 + braces + 1) :: outer)) text :=
      run_eq_of_standsIn rfl hs ⟨by rw [Nat.zero_add]; rfl, rfl⟩ text
    rw [hlike] at hopen ⊢
    exact run_under .start (.of_owed rfl) hopen

end Mask

end TerraformTrace.Hcl
