import TerraformTrace.Proofs.ValueExtent

/-!
# TerraformTrace.Proofs.HeredocTemplate

The value of a heredoc is its body without the lines around it, and it is read again as code.
In its place the body is literal text, and only what stands in `${...}` is code. The two ways
to read it agree for a *template*: a line whose literal text **means nothing as code** and
holds no reference, and whose places hold code that is complete in itself (`IsTemplate`).

Such a line has the same references as literal text with places and as code
(`IsTemplate.run_heredoc`), and it stays a template when carriage returns at its end and
blanks at its beginning are taken off. A heredoc of templates is a source of its value
(`isSource_heredoc`).
-/

namespace TerraformTrace.Hcl

open Text

variable {c : Char} {rest text marker : Text}

/-! ### Inert text -/

/-- Whether a text begins nothing: no string, comment, heredoc or interpolation, and no other
line. -/
def isInert : Text → Bool
  | [] => true
  | c :: rest =>
    c ∉ ['"', '#', '\n'] && !(c = '/' && (rest.head? = some '/' || rest.head? = some '*')) &&
      !(c = '<' && rest.head? = some '<') && !(c = '$' && rest.head? = some '{') && isInert rest

/-- Literal text that means nothing as code, and holds no reference. -/
structure IsInert (text : Text) : Prop where
  inert : isInert text = true
  unreferenced : occurrences text = []

theorem isInert_cons : isInert (c :: rest) = true ↔
    c ∉ ['"', '#', '\n'] ∧ ¬ (c = '/' ∧ (rest.head? = some '/' ∨ rest.head? = some '*')) ∧
      ¬ (c = '<' ∧ rest.head? = some '<') ∧ ¬ (c = '$' ∧ rest.head? = some '{') ∧
      isInert rest = true := by
  simp only [isInert, Bool.and_eq_true, Bool.not_eq_true', Bool.and_eq_false_imp, decide_eq_true_eq,
    Bool.or_eq_false_iff, decide_eq_false_iff_not, not_and, not_or, and_assoc]

theorem isInert_of_append {front back : Text} (h : isInert (front ++ back) = true) :
    isInert front = true ∧ isInert back = true := by
  induction front with
  | nil => exact ⟨rfl, h⟩
  | cons c front ih =>
    rw [List.cons_append, isInert_cons] at h
    obtain ⟨hc, hslash, hangle, hdollar, hrest⟩ := h
    have hhead : ∀ d, front.head? = some d → (front ++ back).head? = some d := by
      intro d hd
      obtain ⟨more, rfl⟩ := List.head?_eq_some_iff.mp hd
      rfl
    refine ⟨isInert_cons.mpr ⟨hc, ?_, ?_, ?_, (ih hrest).1⟩, (ih hrest).2⟩
    · exact fun ⟨heq, hnext⟩ => hslash ⟨heq, hnext.imp (hhead _) (hhead _)⟩
    · exact fun ⟨heq, hnext⟩ => hangle ⟨heq, hhead _ hnext⟩
    · exact fun ⟨heq, hnext⟩ => hdollar ⟨heq, hhead _ hnext⟩

theorem not_mem_of_isInert (h : isInert text = true) : '\n' ∉ text := by
  intro hmem
  obtain ⟨front, back, rfl⟩ := List.append_of_mem hmem
  exact absurd (isInert_cons.mp (isInert_of_append h).2).1 (by decide)

theorem occursIn_of_isInert (h : isInert text = true) : occursIn ['$', '{'] text = false := by
  induction text with
  | nil => rfl
  | cons c rest ih =>
    obtain ⟨-, -, -, hdollar, hrest⟩ := isInert_cons.mp h
    rw [occursIn, ih hrest, Bool.or_false]
    refine Bool.eq_false_iff.mpr fun hbegins => hdollar ?_
    obtain ⟨more, hmore⟩ := List.isPrefixOf_iff_prefix.mp hbegins
    cases hmore
    exact ⟨rfl, rfl⟩

theorem header?_of_head? (h : ¬ (c = '<' ∧ rest.head? = some '<')) :
    Heredoc.header? (c :: rest) = none := by
  unfold Heredoc.header?
  split
  next heq => cases heq; exact absurd ⟨rfl, rfl⟩ h
  next heq => cases heq; exact absurd ⟨rfl, rfl⟩ h
  next => rfl

/-- Inert text is shown as it is, if what follows makes nothing of its end. -/
theorem mask_isInert (h : isInert text = true)
    (hrest : ∀ c ∈ rest.head?, c ∉ ['/', '*', '<']) : mask (text ++ rest) = text ++ mask rest := by
  induction text with
  | nil => rfl
  | cons c text ih =>
    obtain ⟨hc, hslash, hangle, -, hmore⟩ := isInert_cons.mp h
    simp only [List.mem_cons, List.not_mem_nil, or_false, not_or] at hc
    have hnext : ∀ d ∈ ['/', '*', '<'], (text ++ rest).head? = some d → text.head? = some d := by
      intro d hd hhead
      cases text with
      | nil => exact absurd hd (hrest d hhead)
      | cons e text => exact hhead
    have hcomment : (c = '/' && (text ++ rest).head? = some '/') = false := by
      rw [← Bool.decide_and, decide_eq_false_iff_not]
      exact fun ⟨heq, hhead⟩ => hslash ⟨heq, .inl (hnext _ (by decide) hhead)⟩
    have hblock : (c = '/' && (text ++ rest).head? = some '*') = false := by
      rw [← Bool.decide_and, decide_eq_false_iff_not]
      exact fun ⟨heq, hhead⟩ => hslash ⟨heq, .inr (hnext _ (by decide) hhead)⟩
    have hheader : Heredoc.header? (c :: (text ++ rest)) = none :=
      header?_of_head? fun ⟨heq, hhead⟩ => hangle ⟨heq, hnext _ (by decide) hhead⟩
    have hstep : Mask.step .start c (text ++ rest) = (.keep, { lineStart := isIndent c }) := by
      rw [Mask.step_of_isCode rfl ⟨rfl, rfl⟩, Mask.codeStep]
      simp only [hc, hcomment, hblock, hheader, decide_false, Bool.or_false, Bool.false_eq_true,
        if_false]
      rfl
    rw [List.cons_append, mask, Mask.run_cons, hstep, Mask.run_eq_mask ⟨rfl, rfl⟩, ih hmore]
    rfl

theorem IsInert.mask_eq (h : IsInert text) : mask text = text := by
  have hmask : mask (text ++ []) = text ++ mask [] := mask_isInert h.inert (by simp)
  simpa [mask, Mask.run] using hmask

theorem IsInert.referencesIn_eq (h : IsInert text) : referencesIn text = [] := by
  rw [← h.mask_eq, ← references_occurrences, h.unreferenced]
  rfl

theorem IsInert.nil : IsInert [] := ⟨rfl, rfl⟩

theorem isInert_of_references (hinert : isInert text = true)
    (h : referencesIn (mask text) = []) : IsInert text :=
  ⟨hinert, List.map_eq_nil_iff.mp h⟩

/-! ### Templates -/

/-- Code that is complete in itself: it is always shown in one way, and leads back to where it
began. -/
def IsComplete (code : Text) : Prop :=
  ∃ shown, ∀ modes, Mask.isCode modes = true → Mask.Shows modes code shown modes

theorem IsComplete.path {code : Text} (h : code.all isPathChar = true) : IsComplete code :=
  ⟨code, fun _ hmodes => Mask.shows_path hmodes (List.all_eq_true.mp h)⟩

/-- A line that means the same as literal text with places and as code: inert text and places
`${...}` that hold complete code. -/
inductive IsTemplate : Text → Prop
  | literal {text : Text} (htext : IsInert text) : IsTemplate text
  | place {front code rest : Text} (hfront : IsInert front) (hcode : IsComplete code)
    (hrest : IsTemplate rest) : IsTemplate (front ++ '$' :: '{' :: (code ++ '}' :: rest))

theorem referencesIn_append_cons (hc : isPathChar c = false) (front tail : Text) :
    referencesIn (front ++ c :: tail) = referencesIn front ++ referencesIn tail := by
  have hfront : Separate front (c :: tail) := .inr fun d hd => by
    cases hd
    exact hc
  have htail : Separate [c] tail := .inl fun d hd => by
    cases hd
    exact hc
  have hnone : referencesIn [c] = [] := by
    rw [referencesIn, Occurrence.scan_cons_of_not_isPathChar hc]
    rfl
  rw [hfront.referencesIn_append, ← List.singleton_append, htail.referencesIn_append, hnone,
    List.nil_append]

theorem mask_cons (hc : c ∉ ['"', '#', '/', '<']) (rest : Text) :
    mask (c :: rest) = c :: mask rest := by
  obtain ⟨t, ht, hrun⟩ := Mask.shows_code hc .start ⟨rfl, rfl⟩
  rw [mask, ← List.singleton_append, hrun, Mask.run_eq_mask ht]
  rfl

/-- A place in the middle of code. -/
theorem mask_place {front code shown : Text} (hfront : IsInert front)
    (hcode : Mask.Shows [] code shown []) (rest : Text) :
    mask (front ++ '$' :: '{' :: (code ++ '}' :: rest)) =
      front ++ '$' :: '{' :: (shown ++ '}' :: mask rest) := by
  have hshown : ∀ rest, mask (code ++ rest) = shown ++ mask rest := fun rest => by
    obtain ⟨t, ht, hrun⟩ := hcode .start ⟨rfl, rfl⟩
    rw [mask, hrun, Mask.run_eq_mask ht]
  rw [mask_isInert hfront.inert (by simp), mask_cons (by decide), mask_cons (by decide), hshown,
    mask_cons (by decide)]

theorem referencesIn_place {front : Text} (hfront : referencesIn front = []) {d e : Char}
    (hc : isPathChar c = false) (hd : isPathChar d = false) (he : isPathChar e = false)
    (shown rest : Text) :
    referencesIn (front ++ c :: d :: (shown ++ e :: rest)) =
      referencesIn shown ++ referencesIn rest := by
  rw [referencesIn_append_cons hc, hfront, List.nil_append, ← List.nil_append (d :: _),
    referencesIn_append_cons hd, referencesIn_append_cons he]
  rfl

/-- A place in the body of a heredoc is code between blanks. -/
theorem Mask.run_heredocPlace {s : State} {modes : List Mode} {code shown : Text}
    (hs : s.InBody marker modes ('$' :: '{' :: (code ++ '}' :: rest)))
    (hcode : Shows (.interpolation 0 :: .heredoc marker :: modes) code shown
      (.interpolation 0 :: .heredoc marker :: modes)) :
    ∃ t : State, t.InBody marker modes rest ∧
      run s ('$' :: '{' :: (code ++ '}' :: rest)) = ' ' :: ' ' :: (shown ++ ' ' :: run t rest) := by
  have hopen : step s '$' ('{' :: (code ++ '}' :: rest)) =
      (.blank, State.interpolate { s with lineStart := false }) := by
    rw [step_of_heredocLine hs.standsIn hs.notLast]
    rfl
  have hbrace : step (State.interpolate { s with lineStart := false }) '{' (code ++ '}' :: rest) =
      (.blank, State.owe (State.enter { s with lineStart := false } (.interpolation 0)) 0 .blank) :=
    rfl
  obtain ⟨u, hu, hrun⟩ :=
    hcode (State.owe (State.enter { s with lineStart := false } (.interpolation 0)) 0 .blank)
      ⟨congrArg _ hs.standsIn.1, rfl⟩
  -- the end of the place is not a blank, so the terminator cannot begin behind it
  have hclose : step u '}' rest =
      (.blank, { u with modes := .heredoc marker :: modes, lineStart := false }) := by
    rw [step_of_isCode rfl hu, codeStep_eq u (by decide) (by decide) (by decide) (by decide)
      (by decide), braceStep, hu.1]
    simp [isIndent]
  refine ⟨{ u with modes := .heredoc marker :: modes, lineStart := false },
    ⟨⟨rfl, hu.2⟩, rfl⟩, ?_⟩
  rw [run_cons, hopen, run_cons, hbrace, hrun, run_cons, hclose]
  rfl

namespace IsTemplate

variable {line : Text}

/-- Lines of templates are masked one by one. -/
theorem mask_append (h : IsTemplate line) (hrest : ∀ c ∈ rest.head?, c = '\n') :
    mask (line ++ rest) = mask line ++ mask rest := by
  have hnext : ∀ c ∈ rest.head?, c ∉ ['/', '*', '<'] := fun c hc => by
    rw [hrest c hc]
    decide
  induction h with
  | literal htext => rw [mask_isInert htext.inert hnext, htext.mask_eq]
  | place hfront hcode hline ih =>
    obtain ⟨shown, hshown⟩ := hcode
    rw [List.append_assoc, List.cons_append, List.cons_append, List.append_assoc,
      List.cons_append, mask_place hfront (hshown [] rfl), mask_place hfront (hshown [] rfl), ih]
    simp only [List.append_assoc, List.cons_append]

/-- A template in the body of a heredoc shows the references that it shows as code. -/
theorem run_heredoc (h : IsTemplate line) {s : Mask.State} {modes : List Mask.Mode}
    (hs : s.InBody marker modes (line ++ rest)) (hrest : ∀ c ∈ rest.head?, c = '\n') :
    ∃ (shown : Text) (t : Mask.State), t.InBody marker modes rest ∧
      Mask.run s (line ++ rest) = shown ++ Mask.run t rest ∧
      referencesIn shown = referencesIn (mask line) := by
  have hblanked : ∀ piece, referencesIn (blanked piece) = [] := fun piece => by
    refine referencesIn_of_not_mem fun hmem => ?_
    obtain ⟨c, -, hc⟩ := List.mem_map.mp hmem
    split at hc <;> cases hc
  induction h generalizing s with
  | literal htext =>
    obtain ⟨t, ht, hrun⟩ := Mask.run_heredocPiece hs (not_mem_of_isInert htext.inert)
      (occursIn_of_isInert htext.inert) fun _ hbrace => absurd (hrest _ hbrace) (by decide)
    exact ⟨_, t, ht, hrun, by rw [hblanked, htext.mask_eq, htext.referencesIn_eq]⟩
  | @place front code more hfront hcode hline ih =>
    obtain ⟨shown, hshown⟩ := hcode
    rw [List.append_assoc, List.cons_append, List.cons_append, List.append_assoc,
      List.cons_append] at hs ⊢
    obtain ⟨t, ht, hrun⟩ := Mask.run_heredocPiece hs (not_mem_of_isInert hfront.inert)
      (occursIn_of_isInert hfront.inert) (by simp)
    obtain ⟨u, hu, hplace⟩ := Mask.run_heredocPlace ht (hshown _ rfl)
    obtain ⟨after, v, hv, hafter, hsame⟩ := ih hu
    refine ⟨blanked front ++ ' ' :: ' ' :: (shown ++ ' ' :: after), v, hv, ?_, ?_⟩
    · rw [hrun, hplace, hafter]
      simp only [List.append_assoc, List.cons_append]
    · rw [mask_place hfront (hshown [] rfl), referencesIn_place hfront.referencesIn_eq (by decide)
        (by decide) (by decide), referencesIn_place (hblanked _) (by decide) (by decide)
        (by decide), hsame]

/-- Blanks at the end of a template. -/
theorem of_append_blanks {blanks : Text} (hblanks : ∀ c ∈ blanks, isBlank c = true)
    (h : IsTemplate (line ++ blanks)) : IsTemplate line := by
  generalize htext : line ++ blanks = text at h
  induction h generalizing line with
  | literal hinert =>
    subst htext
    refine .literal (isInert_of_references (isInert_of_append hinert.inert).1 ?_)
    rw [← referencesIn_append_blanks hblanks, hinert.mask_eq, hinert.referencesIn_eq]
  | @place front code rest hfront hcode hrest ih =>
    have hplace : line ++ blanks = (front ++ ['$', '{'] ++ code ++ ['}']) ++ rest := by
      simp [htext]
    rcases List.append_eq_append_iff.mp hplace with
      ⟨between, hbetween, hblank⟩ | ⟨between, rfl, hbetween⟩
    · -- the place ends with a brace, which is no blank
      rcases List.eq_nil_or_concat between with rfl | ⟨init, c, rfl⟩
      · have hline := IsTemplate.place hfront hcode (.literal .nil)
        rw [List.append_nil] at hbetween
        simpa [← hbetween] using hline
      · rw [List.concat_eq_append, ← List.append_assoc] at hbetween
        obtain ⟨-, hc⟩ := List.append_inj_right' hbetween rfl
        have hmem : '}' ∈ blanks := by simp [hblank]
        exact absurd (hblanks _ hmem) (by decide)
    · have hline := IsTemplate.place hfront hcode (ih hbetween.symm)
      simpa using hline

/-- Blanks at the beginning of a template. -/
theorem of_blanks_append {blanks : Text} (hblanks : ∀ c ∈ blanks, isBlank c = true)
    (h : IsTemplate (blanks ++ line)) : IsTemplate line := by
  generalize htext : blanks ++ line = text at h
  cases h with
  | literal hinert =>
    subst htext
    refine .literal (isInert_of_references (isInert_of_append hinert.inert).2 ?_)
    rw [← referencesIn_blanks_append hblanks, hinert.mask_eq, hinert.referencesIn_eq]
  | @place front code rest hfront hcode hrest =>
    rcases List.append_eq_append_iff.mp htext with
      ⟨between, rfl, rfl⟩ | ⟨between, hblank, hbetween⟩
    · refine .place (isInert_of_references (isInert_of_append hfront.inert).2 ?_) hcode hrest
      rw [← referencesIn_blanks_append hblanks, hfront.mask_eq, hfront.referencesIn_eq]
    · -- the place begins with a dollar sign, which is no blank
      cases between with
      | nil =>
        have hline := IsTemplate.place .nil hcode hrest
        rwa [List.nil_append, hbetween] at hline
      | cons c between =>
        obtain ⟨rfl, -⟩ := List.cons.inj hbetween
        have hmem : '$' ∈ blanks := by simp [hblank]
        exact absurd (hblanks _ hmem) (by decide)

end IsTemplate

/-! ### Bodies of templates -/

theorem isBlank_of_strip_eq_nil {line : Text} (h : strip line = []) :
    ∀ c ∈ line, isBlank c = true := by
  obtain ⟨blanks, hblanks, htext⟩ := exists_dropRightWhile isBlank (stripLeft line)
  rw [strip, stripRight] at h
  rw [h, List.nil_append, stripLeft] at htext
  rw [← List.takeWhile_append_dropWhile (p := isBlank) (l := line), htext]
  intro c hc
  rcases List.mem_append.mp hc with hleft | hright
  · exact List.all_eq_true.mp List.all_takeWhile c hleft
  · exact hblanks c hright

theorem indentation_eq (line : Text) :
    Heredoc.indentation line = (line.takeWhile isBlank).length := by
  have hlength := congrArg List.length (List.takeWhile_append_dropWhile (p := isBlank) (l := line))
  rw [List.length_append] at hlength
  rw [Heredoc.indentation, stripLeft]
  omega

/-- Only blanks are taken off by dedenting. -/
theorem isBlank_of_mem_take {lines : List Text} {line : Text} (hline : line ∈ lines) :
    ∀ c ∈ line.take (Heredoc.sharedIndentation lines), isBlank c = true := by
  intro c hc
  by_cases hnil : strip line = []
  · exact isBlank_of_strip_eq_nil hnil c (List.mem_of_mem_take hc)
  · have hmem : Heredoc.indentation line ∈
        (lines.filter fun line => !(strip line).isEmpty).map Heredoc.indentation :=
      List.mem_map_of_mem (List.mem_filter.mpr ⟨hline, by simpa using hnil⟩)
    have hle : Heredoc.sharedIndentation lines ≤ (line.takeWhile isBlank).length := by
      rw [← indentation_eq, Heredoc.sharedIndentation]
      exact List.min?_getD_le_of_mem hmem
    have htake : line.take (Heredoc.sharedIndentation lines) =
        (line.takeWhile isBlank).take (Heredoc.sharedIndentation lines) := by
      rw [← List.take_append_of_le_length hle, List.takeWhile_append_dropWhile]
    rw [htake] at hc
    exact List.all_eq_true.mp List.all_takeWhile c (List.mem_of_mem_take hc)

/-- The lines of a value, from the lines of the body. -/
def valueLines (dedent : Bool) (lines : List Text) : List Text :=
  let lines := lines.map (dropRightWhile (· = '\r'))
  if dedent then Heredoc.dedentLines lines else lines

/-- The lines of a value are the lines of the body, one for one, and so are the references in
them. -/
theorem exists_valueLines {lines : List Text} (h : ∀ line ∈ lines, IsTemplate line)
    (dedent : Bool) : ∃ f : Text → Text, valueLines dedent lines = lines.map f ∧
      ∀ line ∈ lines, IsTemplate (f line) ∧
        referencesIn (mask (f line)) = referencesIn (mask line) := by
  have htrim : ∀ line ∈ lines, IsTemplate (dropRightWhile (· = '\r') line) ∧
      referencesIn (mask (dropRightWhile (· = '\r') line)) = referencesIn (mask line) := by
    intro line hline
    obtain ⟨returns, hreturns, htext⟩ := exists_dropRightWhile (· = '\r') line
    have hblanks : ∀ c ∈ returns, isBlank c = true := fun c hc => by
      rw [of_decide_eq_true (hreturns c hc)]
      decide
    have htemplate := h line hline
    rw [htext] at htemplate
    refine ⟨htemplate.of_append_blanks hblanks, ?_⟩
    rw [← referencesIn_append_blanks hblanks, ← htext]
  cases dedent with
  | false => exact ⟨_, rfl, htrim⟩
  | true =>
    refine ⟨fun line => (dropRightWhile (· = '\r') line).drop
      (Heredoc.sharedIndentation (lines.map (dropRightWhile (· = '\r')))),
      List.map_map, fun line hline => ?_⟩
    have hblanks := isBlank_of_mem_take (List.mem_map_of_mem hline (f := dropRightWhile (· = '\r')))
    obtain ⟨htemplate, hsame⟩ := htrim line hline
    rw [← List.take_append_drop (Heredoc.sharedIndentation
      (lines.map (dropRightWhile (· = '\r')))) (dropRightWhile _ line)] at htemplate hsame
    refine ⟨htemplate.of_blanks_append hblanks, ?_⟩
    rw [← hsame, referencesIn_blanks_append hblanks]

/-- Templates that are joined to a text. -/
theorem referencesIn_join {lines : List Text} (h : ∀ line ∈ lines, IsTemplate line) :
    referencesIn (mask (join ['\n'] lines)) =
      lines.flatMap fun line => referencesIn (mask line) := by
  induction lines with
  | nil => rfl
  | cons line lines ih =>
    cases lines with
    | nil => simp [join]
    | cons next lines =>
      obtain ⟨hline, hlines⟩ := List.forall_mem_cons.mp h
      rw [join_cons_of_ne_nil (List.cons_ne_nil _ _), hline.mask_append (by simp),
        mask_cons (by decide), referencesIn_append_cons (by decide), ih hlines]
      rfl

/-- Templates in the body of a heredoc, from the beginning of a line on. -/
theorem Mask.run_templates {lines : List Text} (modes : List Mode)
    (hlines : ∀ line ∈ lines, IsBodyLine marker line) (h : ∀ line ∈ lines, IsTemplate line)
    (rest : Text) : ∃ shown, run { modes := .heredoc marker :: modes } (bodyText lines ++ rest) =
        shown ++ run { modes := .heredoc marker :: modes } rest ∧
      (∀ c ∈ shown.getLast?, isPathChar c = false) ∧
      referencesIn shown = lines.flatMap fun line => referencesIn (mask line) := by
  induction lines with
  | nil => exact ⟨[], rfl, by simp, rfl⟩
  | cons line lines ih =>
    obtain ⟨hbody, hbodies⟩ := List.forall_mem_cons.mp hlines
    obtain ⟨hline, hmore⟩ := List.forall_mem_cons.mp h
    obtain ⟨after, hafter, hlast, hsame⟩ := ih hbodies hmore
    have hbreak : ∀ c ∈ ('\n' :: (bodyText lines ++ rest)).head?, c = '\n' := fun c hc =>
      (Option.some.inj hc).symm
    obtain ⟨shown, t, ht, hrun, hshown⟩ :=
      hline.run_heredoc (inBody_of_isBodyLine hbody modes hbreak) hbreak
    refine ⟨shown ++ '\n' :: after, ?_, ?_, ?_⟩
    · rw [bodyText_cons, List.append_assoc, List.cons_append, hrun, run_heredocBreak ht, hafter,
        List.append_assoc, List.cons_append]
    · intro c hc
      rw [List.getLast?_append, List.getLast?_cons] at hc
      cases hend : after.getLast? with
      | none =>
        rw [hend] at hc
        cases hc
        decide
      | some d =>
        rw [hend] at hc
        cases hc
        exact hlast _ hend
    · rw [referencesIn_append_cons (by decide), hshown, hsame, List.flatMap_cons]

/-! ### Values of heredocs -/

variable (line : HeaderLine)

theorem HeaderLine.getLast?_text : line.text.getLast? = some '\n' := by
  have htext : line.text = '<' :: '<' ::
      ((if line.dashed then ['-'] else []) ++ line.marker ++ line.gap) ++ line.ending := rfl
  rw [htext, List.getLast?_append]
  rcases line.ending_eq with h | h <;> rw [h] <;> rfl

theorem HeaderLine.dot_not_mem_text : '.' ∉ line.text := by
  have hmarker : '.' ∉ line.marker := fun hmem =>
    absurd (isWord_of_mem_marker line.isMarker_marker hmem) (by decide)
  have hgap : '.' ∉ line.gap := fun hmem => absurd (line.isGap_gap _ hmem) (by decide)
  rcases line.ending_eq with h | h <;> cases hdash : line.dashed <;>
    simp [HeaderLine.text, h, hdash, hmarker, hgap]

theorem HeaderLine.referencesIn_append (tail : Text) :
    referencesIn (line.text ++ tail) = referencesIn tail := by
  have hseparate : Separate line.text tail := .inl fun c hc => by
    rw [line.getLast?_text] at hc
    cases hc
    decide
  rw [hseparate.referencesIn_append, referencesIn_of_not_mem line.dot_not_mem_text,
    List.nil_append]

theorem Mask.length_of_run_append {s t : State} {shown : Text}
    (h : run s (text ++ rest) = shown ++ run t rest) : shown.length = text.length := by
  have hlength := congrArg List.length h
  simp only [length_run, List.length_append] at hlength
  omega

/-- A heredoc of templates in its place. -/
theorem isSource_body {body : List Text} {read : Nat} {value : Text}
    (hlines : ∀ l ∈ body, IsBodyLine line.marker l) (hbody : IsBody line.marker body read rest)
    (h : ∀ l ∈ body, IsTemplate l)
    (hvalue : referencesIn (mask value) = body.flatMap fun l => referencesIn (mask l)) :
    IsSource (line.text ++ rest) (line.text.length + min read rest.length) value := by
  have hmask : ∀ rest, mask (line.text ++ rest) =
      line.text ++ Mask.run { modes := [.heredoc line.marker] } rest :=
    Mask.run_header rfl ⟨rfl, rfl⟩ line
  cases hbody with
  | ended terminator after htext hread hline hlast hrest =>
    obtain ⟨shown, hrun, hend, hshown⟩ := Mask.run_templates [] hlines h (terminator ++ after)
    obtain ⟨t, -, hterminator⟩ := Mask.run_terminator [] hline hlast
      (ne_nil_of_isTerminator line.isMarker_marker hlast) hrest
    have hdot : '.' ∉ terminator :=
      not_mem_of_isTerminator line.isMarker_marker hlast (by decide) (by decide)
    refine ⟨line.text ++ (shown ++ terminator), Mask.run t after, ?_, ?_, ?_, ?_⟩
    · rw [hmask, htext, hrun, hterminator]
      simp only [List.append_assoc]
    · have hwhole := congrArg List.length htext
      have hsame := Mask.length_of_run_append hrun
      simp only [List.length_append] at hwhole ⊢
      omega
    · rw [line.referencesIn_append, Separate.referencesIn_append (.inl hend), hshown,
        referencesIn_of_not_mem hdot, List.append_nil, hvalue]
    · exact Mask.isPathChar_head?_run (fun c hc => by rw [hrest c hc]; decide) t
  | unended htext hread =>
    obtain ⟨shown, hrun, -, hshown⟩ := Mask.run_templates [] hlines h []
    rw [List.append_nil, Mask.run, List.append_nil] at hrun
    refine ⟨mask (line.text ++ rest), [], (List.append_nil _).symm, ?_, ?_, by simp⟩
    · rw [length_mask, List.length_append]
      rcases htext with htext | htext <;> simp [hread, htext]
    · -- a body that is not ended may lack the last line break, which shows no reference
      have hclosed : referencesIn (mask (line.text ++ rest)) =
          referencesIn (mask (line.text ++ bodyText body)) := by
        rcases htext with htext | htext
        · rw [htext]
        · have hbreak : ∀ c ∈ ['\n'], isBlank c = true := fun c hc => by
            rw [List.mem_singleton.mp hc]
            decide
          rw [htext, ← List.append_assoc, referencesIn_append_blanks hbreak]
      rw [hclosed, hmask, line.referencesIn_append, hrun, hshown, hvalue]

/-- The value of a heredoc of templates. -/
theorem referencesIn_value (header : Heredoc.Header)
    (h : ∀ line ∈ (Heredoc.bodyLines header.marker (lines rest)).1, IsTemplate line) :
    referencesIn (mask (Heredoc.body header rest).1) =
      (Heredoc.bodyLines header.marker (lines rest)).1.flatMap
        fun line => referencesIn (mask line) := by
  obtain ⟨f, hf, hsame⟩ := exists_valueLines h header.dedent
  have hjoin : (Heredoc.body header rest).1 = join ['\n'] (valueLines header.dedent
      (Heredoc.bodyLines header.marker (lines rest)).1) := rfl
  have htemplates : ∀ line ∈ (Heredoc.bodyLines header.marker (lines rest)).1.map f,
      IsTemplate line := fun line hline => by
    obtain ⟨source, hsource, rfl⟩ := List.mem_map.mp hline
    exact (hsame source hsource).1
  rw [hjoin, hf, referencesIn_join htemplates, List.flatMap_map, List.flatMap_def,
    List.flatMap_def]
  exact congrArg List.flatten (List.map_congr_left fun line hline => (hsame line hline).2)

/-- **A heredoc of templates is a source of its value.** -/
theorem isSource_heredoc {header : Heredoc.Header} (hheader : Heredoc.header? text = some header)
    (h : ∀ line ∈ (Heredoc.bodyLines header.marker (lines (text.drop header.length))).1,
      IsTemplate line) :
    IsSource text (header.length + (Heredoc.body header (text.drop header.length)).2)
      (Heredoc.body header (text.drop header.length)).1 := by
  have hvalue := referencesIn_value header h
  obtain ⟨line, rest, rfl, rfl⟩ := exists_of_header? hheader
  have hdrop : (line.text ++ rest).drop line.header.length = rest := List.drop_left' rfl
  rw [hdrop] at h hvalue ⊢
  obtain ⟨hlines, hbody⟩ := isBody_bodyLines line.marker rest
  exact isSource_body line hlines hbody h hvalue

end TerraformTrace.Hcl
