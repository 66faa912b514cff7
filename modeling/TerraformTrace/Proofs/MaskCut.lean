import TerraformTrace.Proofs.LiteralContent

/-!
# TerraformTrace.Proofs.MaskCut

Where a text can be cut. What is cut out of a text is masked without what came after it, and
the machine looks ahead. It does so in few ways, and all but two of them change nothing in
what is shown of the front: the two signs of an escape or an interpolation are blanked one by
one as they are together, and the header of a heredoc is code, finished or not. The two that
count are a slash, which begins a comment or does not, and the last line of a heredoc, which
is shown as a whole. **If neither is cut in two, the front is shown as a text of its own**
(`shownBefore_eq_run`).
-/

namespace TerraformTrace.Hcl

open Text

variable {marker : Text}

/-! ### Markers -/

/-- A marker is made of word characters. -/
theorem isWord_of_mem_marker (hmarker : isMarker marker = true) {c : Char}
    (hc : c ∈ marker) : isWord c = true := by
  cases marker with
  | nil => cases hc
  | cons first rest =>
    rw [isMarker, Bool.and_eq_true, List.all_eq_true] at hmarker
    rcases List.mem_cons.mp hc with rfl | hc
    · have hrest := isNameRest_of_isNameStart hmarker.1
      rw [isNameRest, Bool.or_eq_true, decide_eq_true_eq] at hrest
      refine hrest.resolve_right ?_
      rintro rfl
      exact absurd hmarker.1 (by decide)
    · exact hmarker.2 c hc

theorem Heredoc.mem_strip {text : Text} {c : Char} (hblank : isBlank c = false) (h : c ∈ text) :
    c ∈ strip text := by
  have hdrop : ∀ text : Text, c ∈ text → c ∈ text.dropWhile isBlank := by
    intro text hmem
    rw [← List.takeWhile_append_dropWhile (p := isBlank) (l := text), List.mem_append] at hmem
    refine hmem.resolve_left fun hrun => ?_
    have hc := List.all_eq_true.mp List.all_takeWhile _ hrun
    rw [hblank] at hc
    cases hc
  unfold strip stripRight stripLeft dropRightWhile
  exact List.mem_reverse.mpr (hdrop _ (List.mem_reverse.mpr (hdrop _ h)))

/-- The last line of a heredoc holds nothing but its marker and blanks. -/
theorem isWord_or_isBlank_of_isTerminator {line : Text} (hmarker : isMarker marker = true)
    (h : Heredoc.isTerminator marker line = true) {c : Char} (hc : c ∈ line) :
    isWord c = true ∨ isBlank c = true := by
  rw [Heredoc.isTerminator, decide_eq_true_eq] at h
  cases hblank : isBlank c with
  | true => exact .inr rfl
  | false => exact .inl (isWord_of_mem_marker hmarker (h ▸ Heredoc.mem_strip hblank hc))

theorem not_mem_of_isTerminator {line : Text} (hmarker : isMarker marker = true)
    (h : Heredoc.isTerminator marker line = true) {c : Char} (hword : isWord c = false)
    (hblank : isBlank c = false) : c ∉ line := by
  intro hc
  rcases isWord_or_isBlank_of_isTerminator hmarker h hc with htrue | htrue
  · rw [hword] at htrue
    cases htrue
  · rw [hblank] at htrue
    cases htrue

/-- Blanks after a line do not count for whether it is the last one. -/
theorem isTerminator_blanks {blanks : Text} (h : ∀ c ∈ blanks, isBlank c = true)
    (marker line : Text) :
    Heredoc.isTerminator marker (line ++ blanks) = Heredoc.isTerminator marker line := by
  have hstrip : strip (line ++ blanks) = strip line := by
    rw [strip, strip, stripLeft, stripLeft, List.dropWhile_append]
    split
    next hnil =>
      have hblanks := @List.dropWhile_append_of_pos _ isBlank blanks [] h
      rw [List.append_nil, List.dropWhile_nil] at hblanks
      rw [List.isEmpty_iff.mp hnil, hblanks]
    next => exact stripRight_blanks h _
  rw [Heredoc.isTerminator, Heredoc.isTerminator, hstrip]

namespace Mask

/-! ### Constructs in each other -/

/-- Whether a construct is a comment. -/
def Mode.isComment : Mode → Bool
  | .lineComment => true
  | .blockComment => true
  | _ => false

/-- Constructs as they can stand in each other: heredocs have been opened by markers, and
nothing stands inside a comment. -/
structure Nested (modes : List Mode) : Prop where
  markers : ∀ marker, Mode.heredoc marker ∈ modes → isMarker marker = true
  comments : ∀ mode ∈ modes.tail, mode.isComment = false

namespace Nested

variable {modes : List Mode}

theorem nil : Nested [] := ⟨nofun, nofun⟩

theorem tail (h : Nested modes) : Nested modes.tail :=
  ⟨fun marker hmem => h.markers marker (List.mem_of_mem_tail hmem),
    fun mode hmem => h.comments mode (List.mem_of_mem_tail hmem)⟩

theorem cons (h : Nested modes) (hhead : ∀ mode ∈ modes.head?, mode.isComment = false)
    {mode : Mode} (hmode : ∀ marker, mode = .heredoc marker → isMarker marker = true) :
    Nested (mode :: modes) := by
  refine ⟨fun marker hmem => ?_, fun other hmem => ?_⟩
  · rcases List.mem_cons.mp hmem with heq | hmem
    · exact hmode marker heq.symm
    · exact h.markers marker hmem
  · cases modes with
    | nil => cases hmem
    | cons first modes =>
      rcases List.mem_cons.mp hmem with rfl | hmem
      · exact hhead other rfl
      · exact h.comments other hmem

end Nested

/-- A state that can be reached: while the beginning or the end of a comment is owed, the
machine says so. -/
structure State.IsSound (s : State) : Prop where
  nested : Nested s.modes
  owed : s.owed ≠ 0 → s.cover ≠ .hide → ∀ mode ∈ s.modes.head?, mode.isComment = false

/-- The machine is inside a comment, or at the signs that begin or end one. -/
def State.InComment (s : State) : Prop :=
  (∃ mode ∈ s.modes.head?, mode.isComment = true) ∨ (s.owed ≠ 0 ∧ s.cover = .hide)

variable {s : State} {modes : List Mode} {c : Char} {front tail rest : Text}

theorem State.IsSound.start : State.start.IsSound := ⟨.nil, by simp [State.start]⟩

/-- What holds after a step: the state is sound, a comment goes on only after what is hidden
or a line break, and only the signs that begin a comment are hidden outside of one. -/
structure IsSoundStep (s : State) (c : Char) (result : Cover × State) : Prop where
  sound : result.2.IsSound
  entered : result.2.InComment → result.1.apply c = hidden ∨ result.1.apply c = '\n'
  hides : result.1 = .hide → s.InComment ∨ c = '#' ∨ c = '/'

namespace IsSoundStep

variable {cover : Cover} {t : State}

/-- A step to a place that is in no comment. -/
theorem of_outside (hcover : cover ≠ .hide) (hnested : Nested t.modes)
    (hhead : ∀ mode ∈ t.modes.head?, mode.isComment = false)
    (howed : t.owed = 0 ∨ t.cover ≠ .hide) : IsSoundStep s c (cover, t) where
  sound := ⟨hnested, fun _ _ => hhead⟩
  entered hin := by
    rcases hin with ⟨mode, hmode, hcomment⟩ | ⟨hne, hhide⟩
    · rw [hhead mode hmode] at hcomment
      cases hcomment
    · exact (howed.elim hne (absurd hhide)).elim
  hides h := absurd h hcover

theorem lineCommentStep (hs : s.IsSound) (howed : s.owed = 0)
    (hin : s.InComment) : IsSoundStep s c (lineCommentStep s c) := by
  unfold Mask.lineCommentStep
  split
  next hc => exact ⟨⟨hs.nested.tail, fun hne => absurd howed hne⟩, fun _ => .inr hc, nofun⟩
  next => exact ⟨hs, fun _ => .inl rfl, fun _ => .inl hin⟩

theorem blockCommentStep (hs : s.IsSound) (hin : s.InComment) :
    IsSoundStep s c (blockCommentStep s c rest) := by
  unfold Mask.blockCommentStep
  split
  next =>
    exact ⟨⟨hs.nested.tail, fun _ hcover => absurd rfl hcover⟩, fun _ => .inl rfl,
      fun _ => .inl hin⟩
  next =>
    split
    next hc => exact ⟨hs, fun _ => .inr hc, nofun⟩
    next => exact ⟨hs, fun _ => .inl rfl, fun _ => .inl hin⟩

end IsSoundStep

section Literal

variable (hs : s.IsSound) (howed : s.owed = 0)
  (hhead : ∀ mode ∈ s.modes.head?, mode.isComment = false)
include hs howed hhead

theorem IsSoundStep.heredocStep (marker : Text) :
    IsSoundStep s c (heredocStep marker s c rest) := by
  have htail : ∀ mode ∈ s.modes.tail.head?, mode.isComment = false := fun mode hmode =>
    hs.nested.comments mode (List.mem_of_head? hmode)
  unfold Mask.heredocStep
  dsimp only
  split
  next => exact of_outside nofun hs.nested.tail htail (.inr nofun)
  next =>
    split
    next =>
      exact of_outside nofun (hs.nested.cons hhead nofun) (fun _ h => by cases h; rfl) (.inr nofun)
    next =>
      split
      · exact of_outside nofun hs.nested hhead (.inl howed)
      · exact of_outside nofun hs.nested hhead (.inl howed)

theorem IsSoundStep.stringStep : IsSoundStep s c (stringStep s c rest) := by
  have htail : ∀ mode ∈ s.modes.tail.head?, mode.isComment = false := fun mode hmode =>
    hs.nested.comments mode (List.mem_of_head? hmode)
  unfold Mask.stringStep
  split
  next => exact of_outside nofun hs.nested hhead (.inr nofun)
  next =>
    split
    next => exact of_outside nofun hs.nested hhead (.inr nofun)
    next =>
      split
      next =>
        exact of_outside nofun (hs.nested.cons hhead nofun) (fun _ h => by cases h; rfl)
          (.inr nofun)
      next =>
        split
        · exact of_outside nofun hs.nested.tail htail (.inl howed)
        · split
          · exact of_outside nofun hs.nested.tail htail (.inl howed)
          · exact of_outside nofun hs.nested hhead (.inl howed)

theorem IsSoundStep.braceStep : IsSoundStep s c (braceStep s c) := by
  unfold Mask.braceStep
  split
  next braces modes hmodes =>
    have htail : ∀ mode ∈ modes, mode.isComment = false := fun mode hmem =>
      hs.nested.comments mode (hmodes ▸ hmem)
    have hnested : Nested modes := by
      have := hs.nested.tail
      rwa [hmodes] at this
    have hbelow : ∀ mode ∈ modes.head?, mode.isComment = false := fun mode hmode =>
      htail mode (List.mem_of_head? hmode)
    split
    · exact of_outside nofun (hnested.cons hbelow nofun) (fun _ h => by cases h; rfl) (.inl howed)
    · split
      · split
        · exact of_outside nofun hnested hbelow (.inl howed)
        · exact of_outside nofun (hnested.cons hbelow nofun) (fun _ h => by cases h; rfl)
            (.inl howed)
      · exact of_outside nofun hs.nested hhead (.inl howed)
  next => exact of_outside nofun hs.nested hhead (.inl howed)

theorem IsSoundStep.codeStep : IsSoundStep s c (codeStep s c rest) := by
  unfold Mask.codeStep
  split
  next => exact of_outside nofun hs.nested hhead (.inl howed)
  next =>
    dsimp only
    split
    next =>
      exact of_outside nofun (hs.nested.cons hhead nofun) (fun _ h => by cases h; rfl) (.inl howed)
    next =>
      split
      next hbegins =>
        simp only [Bool.or_eq_true, Bool.and_eq_true, decide_eq_true_eq] at hbegins
        exact ⟨⟨hs.nested.cons hhead nofun, fun hne => absurd howed hne⟩, fun _ => .inl rfl,
          fun _ => .inr (hbegins.imp_right And.left)⟩
      next =>
        split
        next hbegins =>
          simp only [Bool.and_eq_true, decide_eq_true_eq] at hbegins
          exact ⟨⟨hs.nested.cons hhead nofun, fun _ hcover => absurd rfl hcover⟩, fun _ => .inl rfl,
            fun _ => .inr (.inr hbegins.1)⟩
        next =>
          split
          next header hheader =>
            obtain ⟨line, rest, -, rfl⟩ := exists_of_header? hheader
            refine of_outside nofun (hs.nested.cons hhead fun marker heq => ?_)
              (fun _ h => by cases h; rfl) (.inr nofun)
            cases heq
            exact line.isMarker_marker
          next =>
            have hbrace := IsSoundStep.braceStep (c := c)
              (s := { s with lineStart := s.lineStart && isIndent c }) ⟨hs.nested, hs.owed⟩ howed
              hhead
            exact ⟨hbrace.sound, hbrace.entered, hbrace.hides⟩

end Literal

theorem isSoundStep (hs : s.IsSound) (c : Char) (rest : Text) :
    IsSoundStep s c (step s c rest) := by
  unfold step
  split
  next n howed =>
    have hpos : s.owed ≠ 0 := by omega
    have hhide : State.InComment { s with owed := n } → s.cover = .hide := by
      rintro (⟨mode, hmode, hcomment⟩ | ⟨-, hhide⟩)
      · refine Decidable.byContradiction fun hcover => ?_
        rw [hs.owed hpos hcover mode hmode] at hcomment
        cases hcomment
      · exact hhide
    refine ⟨⟨hs.nested, fun _ => hs.owed hpos⟩, fun hin => .inl ?_,
      fun hcover => .inl (.inr ⟨hpos, hcover⟩)⟩
    rw [hhide hin]
    rfl
  next howed =>
    split
    next modes hmodes =>
      exact IsSoundStep.lineCommentStep hs howed (.inl ⟨_, by rw [hmodes]; rfl, rfl⟩)
    next modes hmodes =>
      exact IsSoundStep.blockCommentStep hs (.inl ⟨_, by rw [hmodes]; rfl, rfl⟩)
    next marker modes hmodes =>
      exact IsSoundStep.heredocStep hs howed (by rw [hmodes]; simp [Mode.isComment]) marker
    next modes hmodes =>
      exact IsSoundStep.stringStep hs howed (by rw [hmodes]; simp [Mode.isComment])
    next hline hblock _ _ =>
      refine IsSoundStep.codeStep hs howed fun mode hmode => ?_
      obtain ⟨modes, hmodes⟩ := List.head?_eq_some_iff.mp hmode
      cases mode with
      | lineComment => exact absurd hmodes (hline _)
      | blockComment => exact absurd hmodes (hblock _)
      | _ => rfl

theorem State.IsSound.stateBefore (hs : s.IsSound) (front rest : Text) :
    (stateBefore s front rest).IsSound := by
  induction front generalizing s with
  | nil => exact hs
  | cons c front ih => exact ih (isSoundStep hs c _).sound

/-! ### Looking ahead -/

/-- A cut that changes nothing in how the front is shown: no comment begins at its end, and
what is left of its last line is blank, or something that is shown and belongs to no last line
of a heredoc. -/
structure IsCut (s : State) (front tail : Text) : Prop where
  slash : (∀ c ∈ tail.head?, c ≠ '/' ∧ c ≠ '*') ∨
    (shownBefore s front tail).getLast? ≠ some hidden
  line : (∀ c ∈ firstLine tail, isBlank c = true) ∨
    ∃ d rest, tail = d :: rest ∧ isBlank d = false ∧ isWord d = false ∧
      (step (stateBefore s front tail) d rest).1 ≠ .blank

theorem IsCut.next (h : IsCut s (c :: front) tail) :
    IsCut (step s c (front ++ tail)).2 front tail where
  slash := h.slash.imp_right fun hlast hhidden => hlast (by
    cases front with
    | nil => cases hhidden
    | cons d front => exact hhidden)
  line := h.line

/-- What is owed is shown alike with a tail and without one. -/
theorem shownBefore_owe {n : Nat} (hn : front.length ≤ n) (cover : Cover) :
    shownBefore (s.owe n cover) front tail = front.map cover.apply := by
  induction front generalizing n with
  | nil => rfl
  | cons c front ih =>
    obtain ⟨n, rfl⟩ := Nat.exists_eq_add_of_le' (Nat.lt_of_lt_of_le (Nat.succ_pos _) hn)
    exact congrArg (cover.apply c :: ·) (ih (Nat.le_of_succ_le_succ hn))

theorem eq_of_and {d : Char} {more : Bool} (h : (decide (c = d) && more) = true) : c = d :=
  of_decide_eq_true (Bool.and_eq_true_iff.mp h).1

/-- In a string the cover of a character does not depend on what follows. -/
theorem stringStep_cover (s : State) (c : Char) (rest : Text) :
    (stringStep s c rest).1 = if c = '"' ∨ c = '\n' then .keep else .blank := by
  unfold stringStep
  split
  next h => rw [if_neg (by rw [eq_of_and h]; decide)]
  next =>
    split
    next h => rw [if_neg (by rw [eq_of_and h]; decide)]
    next =>
      split
      next h => rw [if_neg (by rw [eq_of_and h]; decide)]
      next =>
        split
        next h => rw [if_pos (.inl h)]
        next hquote =>
          split
          next h => rw [if_pos (.inr h)]
          next hline => rw [if_neg (by simp [hquote, hline])]

/-- The last character of the front, where only its cover counts. -/
theorem shownBefore_singleton (h : (step s c tail).1 = (step s c []).1) :
    shownBefore s [c] tail = run s [c] := by
  rw [run_cons, ← h]
  rfl

/-- A step that sees the same in the front alone as in the whole text, or what is left of the
front is shown alike anyway. -/
def SeesAlike (s : State) (c : Char) (front tail : Text) : Prop :=
  step s c (front ++ tail) = step s c front ∨ shownBefore s (c :: front) tail = run s (c :: front)

theorem seesAlike_string (hs : s.StandsIn (.string :: modes)) : SeesAlike s c front tail := by
  match front with
  | [] =>
    refine .inr (shownBefore_singleton ?_)
    rw [step_of_string hs, step_of_string hs, stringStep_cover, stringStep_cover]
  | [d] =>
    by_cases hescape : c = '$' ∧ d = '$' ∧ tail.head? = some '{'
    · obtain ⟨rfl, rfl, hbrace⟩ := hescape
      obtain ⟨rest, rfl⟩ := List.head?_eq_some_iff.mp hbrace
      -- the two dollar signs are blanked, together or one by one
      have hwhole : step s '$' ('$' :: '{' :: rest) = (.blank, s.owe 2 .blank) := by
        rw [step_of_string hs]
        simp [stringStep]
      have halone : step s '$' ['$'] = (.blank, s) := by
        rw [step_of_string hs]
        simp [stringStep, List.isPrefixOf]
      have hlast : (step s '$' []).1 = .blank := by
        rw [step_of_string hs, stringStep_cover]
        rfl
      refine .inr ?_
      rw [run_cons, halone, run_cons, hlast, shownBefore, List.singleton_append, hwhole]
      rfl
    · refine .inl ?_
      have hprefix : ∀ rest : Text, rest.head? = tail.head? ∨ rest = [] →
          (c = '$' && ['$', '{'].isPrefixOf (d :: rest)) = false := by
        intro rest hrest
        refine Bool.eq_false_iff.mpr fun h => ?_
        simp only [Bool.and_eq_true, decide_eq_true_eq] at h
        obtain ⟨more, hmore⟩ := List.isPrefixOf_iff_prefix.mp h.2
        cases hmore
        rcases hrest with hhead | hnil
        · exact hescape ⟨h.1, rfl, hhead.symm⟩
        · cases hnil
      rw [step_of_string hs, step_of_string hs, stringStep, stringStep, List.singleton_append,
        hprefix tail (.inl rfl), hprefix [] (.inr rfl)]
      rfl
  | d :: e :: front =>
    refine .inl ?_
    rw [step_of_string hs, step_of_string hs]
    rfl

theorem seesAlike_blockComment (hs : s.StandsIn (.blockComment :: modes)) :
    SeesAlike s c front tail := by
  have hstep : ∀ rest, step s c rest = blockCommentStep s c rest := fun rest => by
    unfold step
    rw [hs.1, hs.2]
  cases front with
  | nil =>
    refine .inr (shownBefore_singleton ?_)
    have hcover : ∀ rest, (blockCommentStep s c rest).1 = if c = '\n' then .keep else .hide := by
      intro rest
      unfold blockCommentStep
      split
      next h => rw [if_neg (by rw [eq_of_and h]; decide)]
      next => split <;> rfl
    rw [hstep, hstep, hcover, hcover]
  | cons d front =>
    refine .inl ?_
    rw [hstep, hstep]
    rfl

theorem firstLine_append_of_mem (h : '\n' ∈ front) (tail : Text) :
    firstLine (front ++ tail) = firstLine front := by
  rw [firstLine, firstLine, List.takeWhile_append]
  refine if_neg fun hlength => ?_
  have hall := List.all_eq_true.mp (List.all_takeWhile (p := (· ≠ '\n')) (l := front)) '\n'
  rw [(List.takeWhile_prefix _).eq_of_length hlength] at hall
  exact absurd (hall h) (by decide)

theorem firstLine_append_of_not_mem (h : '\n' ∉ front) (tail : Text) :
    firstLine (front ++ tail) = front ++ firstLine tail := by
  refine List.takeWhile_append_of_pos fun c hc => ?_
  rw [decide_eq_true_eq]
  rintro rfl
  exact h hc

theorem firstLine_of_not_mem (h : '\n' ∉ front) : firstLine front = front := by
  have hline : firstLine (front ++ []) = front ++ [] := firstLine_append_of_not_mem h []
  rwa [List.append_nil] at hline

section Heredoc

variable (hs : s.StandsIn (.heredoc marker :: modes))

include hs

/-- In a line that is not the last one of a heredoc the cover of a character does not depend on
what follows either. -/
theorem heredocLine_cover
    (hline : (s.lineStart && Heredoc.isTerminator marker (firstLine (c :: rest))) = false) :
    (step s c rest).1 = if c = '\n' then .keep else .blank := by
  rw [step_of_heredocLine hs hline]
  split
  next h => rw [if_neg (by rw [eq_of_and h]; decide)]
  next => split <;> rfl

/-- A line that is not the last one of a heredoc, where only its end is missing. -/
theorem seesAlike_heredocLine
    (hline : (s.lineStart &&
      Heredoc.isTerminator marker (firstLine (c :: (front ++ tail)))) = false)
    (halone : (s.lineStart && Heredoc.isTerminator marker (firstLine (c :: front))) = false) :
    SeesAlike s c front tail := by
  cases front with
  | nil =>
    refine .inr (shownBefore_singleton ?_)
    rw [List.nil_append] at hline
    rw [heredocLine_cover hs hline, heredocLine_cover hs halone]
  | cons d front =>
    refine .inl ?_
    rw [step_of_heredocLine hs hline, step_of_heredocLine hs halone]
    rfl

/-- The last line of a heredoc is shown as far as it goes. -/
theorem shown_of_isTerminator (hline : '\n' ∉ c :: front)
    (hlast : (s.lineStart &&
      Heredoc.isTerminator marker (firstLine (c :: (front ++ tail)))) = true) :
    shownBefore s (c :: front) tail = c :: front := by
  have hlength : front.length ≤ (firstLine (c :: (front ++ tail))).length - 1 := by
    rw [← List.cons_append, firstLine_append_of_not_mem hline]
    simp
  have hstep : step s c (front ++ tail) = (.keep, { s.leave with lineStart := false }.owe
      ((firstLine (c :: (front ++ tail))).length - 1) .keep) := by
    rw [step_of_heredoc hs, heredocStep]
    simp only [hlast, if_true]
  rw [shownBefore, hstep]
  dsimp only
  rw [shownBefore_owe hlength, Cover.map_keep]
  rfl

/-- In a line of a heredoc that is not its last one nothing happens before an interpolation. -/
theorem stateBefore_heredocLine (hplain : ∀ d ∈ c :: front, d ≠ '\n' ∧ d ≠ '$')
    (hlast : (s.lineStart &&
      Heredoc.isTerminator marker (firstLine (c :: (front ++ tail)))) = false) :
    stateBefore s (c :: front) tail = { s with lineStart := false } := by
  induction front generalizing s c with
  | nil =>
    obtain ⟨⟨hbreak, hdollar⟩, -⟩ := List.forall_mem_cons.mp hplain
    rw [stateBefore, step_of_heredocLine hs hlast]
    simp only [hbreak, hdollar, decide_false, Bool.false_and, Bool.false_eq_true, if_false]
    rfl
  | cons d front ih =>
    obtain ⟨⟨hbreak, hdollar⟩, hfront⟩ := List.forall_mem_cons.mp hplain
    rw [stateBefore, step_of_heredocLine hs hlast]
    simp only [hbreak, hdollar, decide_false, Bool.false_and, Bool.false_eq_true, if_false]
    exact ih hs hfront rfl

/-- A line of a heredoc that is cut before blanks. -/
theorem seesAlike_heredocBlanks (hbreak : '\n' ∉ c :: front)
    (hblank : ∀ d ∈ firstLine tail, isBlank d = true) : SeesAlike s c front tail := by
  have hsame : Heredoc.isTerminator marker (firstLine (c :: (front ++ tail))) =
      Heredoc.isTerminator marker (firstLine (c :: front)) := by
    rw [← List.cons_append, firstLine_append_of_not_mem hbreak, firstLine_of_not_mem hbreak,
      isTerminator_blanks hblank]
  cases hlast : s.lineStart && Heredoc.isTerminator marker (firstLine (c :: front)) with
  | true =>
    refine .inr ?_
    rw [shown_of_isTerminator hs hbreak (by rwa [hsame]), ← shownBefore_nil,
      shown_of_isTerminator hs hbreak (by rwa [List.append_nil])]
  | false => exact seesAlike_heredocLine hs (by rwa [hsame]) hlast

/-- A line of a heredoc that is cut before a sign that is shown and stands in no last line. -/
theorem seesAlike_heredocSign {d : Char} (hmarker : isMarker marker = true)
    (hbreak : '\n' ∉ c :: front) (hnotBlank : isBlank d = false) (hnotWord : isWord d = false)
    (hcover : (step (stateBefore s (c :: front) (d :: rest)) d rest).1 ≠ .blank) :
    SeesAlike s c front (d :: rest) := by
  have hne : d ≠ '\n' := by
    rintro rfl
    exact absurd hnotBlank (by decide)
  have hwhole : (s.lineStart &&
      Heredoc.isTerminator marker (firstLine (c :: (front ++ d :: rest)))) = false := by
    refine Bool.eq_false_iff.mpr fun hlast => ?_
    rw [Bool.and_eq_true, ← List.cons_append, firstLine_append_of_not_mem hbreak] at hlast
    have hd : d ∈ firstLine (d :: rest) := by simp [firstLine, hne]
    exact not_mem_of_isTerminator hmarker hlast.2 hnotWord hnotBlank (List.mem_append_right _ hd)
  refine seesAlike_heredocLine hs hwhole (Bool.eq_false_iff.mpr fun hlast => hcover ?_)
  -- if the front alone were a last line, the sign would be blanked
  rw [Bool.and_eq_true, firstLine_of_not_mem hbreak] at hlast
  have hplain : ∀ e ∈ c :: front, e ≠ '\n' ∧ e ≠ '$' := fun e he => by
    refine ⟨fun heq => hbreak (heq ▸ he), ?_⟩
    rintro rfl
    exact not_mem_of_isTerminator hmarker hlast.2 (by decide) (by decide) he
  rw [stateBefore_heredocLine hs hplain hwhole,
    heredocLine_cover (s := { s with lineStart := false }) hs rfl, if_neg hne]

theorem seesAlike_heredoc (hmarker : isMarker marker = true) (hcut : IsCut s (c :: front) tail) :
    SeesAlike s c front tail := by
  by_cases hbreak : '\n' ∈ c :: front
  · -- the line ends in the front, so the test is the same
    have hfirst : firstLine (c :: (front ++ tail)) = firstLine (c :: front) :=
      firstLine_append_of_mem hbreak tail
    cases hlast : s.lineStart && Heredoc.isTerminator marker (firstLine (c :: front)) with
    | true =>
      refine .inl ?_
      rw [step_of_heredoc hs, step_of_heredoc hs, heredocStep, heredocStep]
      simp only [hfirst, hlast, if_true]
    | false => exact seesAlike_heredocLine hs (hfirst ▸ hlast) hlast
  · rcases hcut.line with hblank | ⟨d, rest, rfl, hnotBlank, hnotWord, hcover⟩
    · exact seesAlike_heredocBlanks hs hbreak hblank
    · exact seesAlike_heredocSign hs hmarker hbreak hnotBlank hnotWord hcover

end Heredoc

/-! ### Code -/

/-- A character that begins no string or comment, and is no brace and no line break. -/
def isInline (c : Char) : Bool := c ∉ ['"', '#', '/', '{', '}', '\n']

theorem isInline_of_class {p : Char → Bool} (hc : p c = true)
    (hp : ['"', '#', '/', '{', '}', '\n'].all (fun d => !p d) = true) : isInline c = true := by
  rw [isInline, decide_eq_true_eq]
  intro hmem
  have hfalse := List.all_eq_true.mp hp c hmem
  rw [hc] at hfalse
  cases hfalse

/-- The characters of a header's line. -/
def isHeaderChar (c : Char) : Bool := c = '<' || c = '-' || c = '\r' || isWord c || isGap c

/-- The line of a header ends with a line break. -/
theorem exists_headerLine (line : HeaderLine) :
    ∃ inline, line.text = inline ++ ['\n'] ∧ ∀ c ∈ inline, isHeaderChar c = true := by
  obtain ⟨carriage, hcarriage, hending⟩ : ∃ carriage : Text, (∀ d ∈ carriage, d = '\r') ∧
      line.ending = carriage ++ ['\n'] := by
    rcases line.ending_eq with heq | heq
    · exact ⟨[], by simp, heq⟩
    · exact ⟨['\r'], by simp, heq⟩
  refine
    ⟨'<' :: '<' :: ((if line.dashed then ['-'] else []) ++ line.marker ++ line.gap ++ carriage),
    by simp [HeaderLine.text, hending], fun c hc => ?_⟩
  simp only [List.mem_cons, List.mem_append] at hc
  rcases hc with rfl | rfl | ((hdash | hmarker) | hgap) | hcr
  · decide
  · decide
  · split at hdash
    · rw [List.mem_singleton.mp hdash]
      decide
    · cases hdash
  · simp [isHeaderChar, isWord_of_mem_marker line.isMarker_marker hmarker]
  · simp [isHeaderChar, line.isGap_gap c hgap]
  · rw [hcarriage c hcr]
    decide

/-- The line of a header up to its end is code, finished or not. -/
theorem isInline_of_headerLine (line : HeaderLine) {more : Text} (hmore : more ≠ [])
    (htext : line.text = front ++ more) (hc : c ∈ front) : isInline c = true := by
  obtain ⟨inline, hline, hinline⟩ := exists_headerLine line
  have hmem : c ∈ line.text.dropLast := by
    rw [htext, List.dropLast_append_of_ne_nil hmore]
    exact List.mem_append_left _ hc
  rw [hline, List.dropLast_concat] at hmem
  exact isInline_of_class (hinline c hmem) (by decide)

theorem header?_eq_none (h : '\n' ∉ front) : Heredoc.header? front = none := by
  cases hheader : Heredoc.header? front with
  | none => rfl
  | some header =>
    obtain ⟨line, rest, rfl, -⟩ := exists_of_header? hheader
    refine absurd (List.mem_append_left rest ?_) h
    obtain heq | heq := line.ending_eq <;> simp [HeaderLine.text, heq]

theorem codeStep_inline (s : State) (hc : isInline c = true)
    (hheader : Heredoc.header? (c :: rest) = none) :
    codeStep s c rest = (.keep, { s with lineStart := s.lineStart && isIndent c }) := by
  simp only [isInline, List.mem_cons, List.not_mem_nil, or_false, not_or, decide_eq_true_eq] at hc
  obtain ⟨hquote, hhash, hslash, hopen, hclose, hline⟩ := hc
  simp only [codeStep, hline, hquote, hhash, hslash, hheader, decide_false, Bool.false_and,
    Bool.or_false, Bool.false_eq_true, if_false, braceStep]
  split
  · rw [if_neg hopen, if_neg hclose]
  · rfl

/-- Without a line break no heredoc begins. -/
theorem run_inline (hcode : isCode modes = true) (hs : s.StandsIn modes)
    (h : ∀ c ∈ front, isInline c = true) : run s front = front := by
  have hline : '\n' ∉ front := fun hmem => absurd (h _ hmem) (by decide)
  induction front generalizing s with
  | nil => rfl
  | cons c front ih =>
    obtain ⟨hc, hfront⟩ := List.forall_mem_cons.mp h
    have hstep : step s c front = (.keep, { s with lineStart := s.lineStart && isIndent c }) := by
      rw [step_of_isCode hcode hs]
      exact codeStep_inline s hc (header?_eq_none hline)
    rw [run_cons, hstep]
    exact congrArg (c :: ·) (ih hs hfront fun hmem => hline (.tail _ hmem))

/-- The step in code looks ahead for comments and for headers. -/
theorem codeStep_congr {rest' : Text} (hslash : c = '/' → rest.head? = rest'.head?)
    (hheader : Heredoc.header? (c :: rest) = Heredoc.header? (c :: rest')) :
    codeStep s c rest = codeStep s c rest' := by
  by_cases hc : c = '/'
  · rw [codeStep, codeStep, hslash hc, hheader]
  · simp only [codeStep, hc, decide_false, Bool.false_and, Bool.or_false, hheader]

theorem seesAlike_slash (hcode : isCode modes = true) (hs : s.StandsIn modes)
    (hcut : IsCut s ('/' :: front) tail) : SeesAlike s '/' front tail := by
  have hnone : ∀ rest, Heredoc.header? ('/' :: rest) = none := header?_of_ne (by decide)
  rw [SeesAlike, step_of_isCode hcode hs, step_of_isCode hcode hs]
  cases front with
  | cons d front => exact .inl (codeStep_congr (fun _ => rfl) (by rw [hnone, hnone]))
  | nil =>
    refine .inl ?_
    by_cases hbegins : tail.head? = some '/' ∨ tail.head? = some '*'
    · -- the slash would be hidden
      have hhide : (step s '/' tail).1 = .hide := by
        rw [step_of_isCode hcode hs, codeStep]
        rcases hbegins with hhead | hhead <;> simp [hhead]
      rcases hcut.slash with hhead | hlast
      · rcases hbegins with hbegins | hbegins
        · exact absurd rfl (hhead '/' hbegins).1
        · exact absurd rfl (hhead '*' hbegins).2
      · refine absurd ?_ hlast
        rw [shownBefore, List.nil_append, hhide]
        rfl
    · rw [not_or] at hbegins
      simp [codeStep, hbegins, hnone]

/-- A header is cut in two: both parts are code. -/
theorem shown_of_header (hcode : isCode modes = true) (hs : s.StandsIn modes)
    {header : Heredoc.Header} (halone : Heredoc.header? (c :: front) = none)
    (hwhole : Heredoc.header? (c :: (front ++ tail)) = some header) :
    shownBefore s (c :: front) tail = c :: front ∧ run s (c :: front) = c :: front := by
  obtain ⟨line, rest, htext, rfl⟩ := exists_of_header? hwhole
  have hlonger : ∀ more, c :: front ≠ line.text ++ more := by
    intro more heq
    rw [heq, line.header?_append] at halone
    cases halone
  obtain ⟨more, hline, hne⟩ : ∃ more, line.text = c :: front ++ more ∧ more ≠ [] := by
    rw [← List.cons_append] at htext
    rcases List.append_eq_append_iff.mp htext with ⟨more, hline, -⟩ | ⟨more, hfront, -⟩
    · refine ⟨more, hline, ?_⟩
      rintro rfl
      exact hlonger [] (by rw [hline, List.append_nil, List.append_nil])
    · exact absurd hfront (hlonger more)
  have hinline : ∀ d ∈ c :: front, isInline d = true := fun d hd =>
    isInline_of_headerLine line hne hline hd
  refine ⟨?_, run_inline hcode hs hinline⟩
  have hc := hinline c List.mem_cons_self
  simp only [isInline, List.mem_cons, List.not_mem_nil, or_false, not_or, decide_eq_true_eq] at hc
  have hlength : front.length ≤ line.header.length - 1 := by
    rw [HeaderLine.header, hline, List.length_append, List.length_cons]
    dsimp only
    omega
  rw [shownBefore, step_of_isCode hcode hs, codeStep]
  simp only [hc, hwhole, decide_false, Bool.false_and, Bool.or_false, Bool.false_eq_true, if_false]
  rw [shownBefore_owe hlength, Cover.map_keep]
  rfl

theorem seesAlike_code (hcode : isCode modes = true) (hs : s.StandsIn modes)
    (hcut : IsCut s (c :: front) tail) : SeesAlike s c front tail := by
  by_cases hc : c = '/'
  · subst hc
    exact seesAlike_slash hcode hs hcut
  cases halone : Heredoc.header? (c :: front) with
  | some header =>
    refine .inl ?_
    rw [step_of_isCode hcode hs, step_of_isCode hcode hs]
    refine codeStep_congr (fun h => absurd h hc) ?_
    obtain ⟨line, rest, htext, rfl⟩ := exists_of_header? halone
    rw [halone, ← List.cons_append, htext, List.append_assoc, line.header?_append]
  | none =>
    cases hwhole : Heredoc.header? (c :: (front ++ tail)) with
    | none =>
      refine .inl ?_
      rw [step_of_isCode hcode hs, step_of_isCode hcode hs]
      exact codeStep_congr (fun h => absurd h hc) (hwhole.trans halone.symm)
    | some header =>
      obtain ⟨hshown, hrun⟩ := shown_of_header hcode hs halone hwhole
      exact .inr (hshown.trans hrun.symm)

/-! ### Cuts -/

theorem seesAlike (hs : s.IsSound) (hcut : IsCut s (c :: front) tail) :
    SeesAlike s c front tail := by
  cases howed : s.owed with
  | succ n =>
    refine .inl ?_
    rw [step, step, howed]
  | zero =>
    cases hmodes : s.modes with
    | nil => exact seesAlike_code rfl ⟨hmodes, howed⟩ hcut
    | cons mode modes =>
      cases mode with
      | string => exact seesAlike_string ⟨hmodes, howed⟩
      | interpolation braces => exact seesAlike_code rfl ⟨hmodes, howed⟩ hcut
      | heredoc marker =>
        have hmarker := hs.nested.markers marker (hmodes ▸ List.mem_cons_self)
        exact seesAlike_heredoc ⟨hmodes, howed⟩ hmarker hcut
      | lineComment =>
        refine .inl ?_
        rw [step_of_lineComment ⟨hmodes, howed⟩, step_of_lineComment ⟨hmodes, howed⟩]
      | blockComment => exact seesAlike_blockComment ⟨hmodes, howed⟩

/-- **A front that is cut off harmlessly is shown as in the whole text.** -/
theorem shownBefore_eq_run (hs : s.IsSound) (hcut : IsCut s front tail) :
    shownBefore s front tail = run s front := by
  induction front generalizing s with
  | nil => rfl
  | cons c front ih =>
    rcases seesAlike hs hcut with hstep | hshown
    · have hmore := ih (isSoundStep hs c (front ++ tail)).sound hcut.next
      rw [shownBefore, run_cons, hmore, hstep]
    · exact hshown

end Mask

end TerraformTrace.Hcl
