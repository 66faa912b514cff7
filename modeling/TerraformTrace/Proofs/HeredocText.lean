import TerraformTrace.Hcl.Measure
import TerraformTrace.Proofs.Text

/-!
# TerraformTrace.Proofs.HeredocText

Heredocs as they are written. Reading a header and the lines of a body cuts a text in
pieces; here the pieces are named, and the text is **put together from them again**. A header
that is read is the line it was read from (`exists_of_header?`), and such a line is read
whatever follows it (`HeaderLine.header?_append`). The lines of a body stand one after the
other up to the line that ends it, or up to the end of the text (`isBody_bodyLines`).
-/

/-! ### Lines -/

namespace TerraformTrace.Text

/-- A line reaches up to the line break after it. -/
theorem firstLine_append {line rest : Text} (hline : '\n' ∉ line)
    (hrest : ∀ c ∈ rest.head?, c = '\n') : firstLine (line ++ rest) = line := by
  refine takeWhile_append_of_head? (fun c hc => ?_) fun c hc => ?_
  · rw [decide_eq_true_eq]
    rintro rfl
    exact hline hc
  · simpa using hrest c hc

/-- A text is its last line, or a line and then a text after the line break. -/
theorem induction_on_lines {motive : Text → Prop} (last : ∀ line, '\n' ∉ line → motive line)
    (cons : ∀ line rest, '\n' ∉ line → motive rest → motive (line ++ '\n' :: rest)) (text : Text) :
    motive text := by
  have hlines : ∀ line, '\n' ∉ line → ∀ text, motive (line ++ text) := by
    intro line hline text
    induction text generalizing line with
    | nil => exact (List.append_nil line).symm ▸ last line hline
    | cons c text ih =>
      by_cases hc : c = '\n'
      · exact hc ▸ cons line text hline (ih [] (by simp))
      · have hmore := ih (line ++ [c]) (by simp [hline, Ne.symm hc])
        rwa [List.append_assoc] at hmore
  exact hlines [] (by simp) text

theorem lines_of_not_mem {line : Text} (h : '\n' ∉ line) :
    lines line = if line = [] then [] else [line] := by
  rw [lines, splitAt_of_not_mem h]
  simp

/-- The line before the first line break is taken off. -/
theorem lines_append_cons {line : Text} (h : '\n' ∉ line) (rest : Text) :
    lines (line ++ '\n' :: rest) = line :: lines rest := by
  obtain ⟨piece, pieces, hsplit⟩ := List.exists_cons_of_ne_nil (Hcl.splitAt_ne_nil '\n' rest)
  rw [lines, lines, splitAt_append_cons rest h, hsplit, List.getLast?_cons_cons,
    List.dropLast_cons_cons]
  split <;> rfl

end TerraformTrace.Text

namespace TerraformTrace.Hcl

open Text

/-! ### Headers -/

/-- Whether a text can be the marker of a heredoc. -/
def isMarker : Text → Bool
  | c :: rest => isNameStart c && rest.all isWord
  | [] => false

/-- The line of a header, in its parts. -/
structure HeaderLine where
  /-- Whether the header is `<<-`. -/
  dashed : Bool
  marker : Text
  /-- What stands behind the marker on its line. -/
  gap : Text
  /-- How the line ends. -/
  ending : Text
  isMarker_marker : isMarker marker = true
  isGap_gap : ∀ c ∈ gap, isGap c = true
  ending_eq : ending = ['\n'] ∨ ending = ['\r', '\n']

namespace HeaderLine

/-- The line as it is written, with its line break. -/
def text (line : HeaderLine) : Text :=
  '<' :: '<' :: ((if line.dashed then ['-'] else []) ++ line.marker ++ line.gap ++ line.ending)

/-- What is read from the line. -/
def header (line : HeaderLine) : Heredoc.Header := ⟨line.dashed, line.marker, line.text.length⟩

end HeaderLine

namespace Heredoc

variable {gap ending marker text rest : Text} {dedent : Bool} {start : Nat} {header : Header}

theorem lineEnd?_append (hgap : ∀ c ∈ gap, isGap c = true)
    (hending : ending = ['\n'] ∨ ending = ['\r', '\n']) (rest : Text) :
    lineEnd? (gap ++ (ending ++ rest)) = some (gap.length + ending.length) := by
  have htake : (gap ++ (ending ++ rest)).takeWhile isGap = gap := by
    refine takeWhile_append_of_head? hgap fun c hc => ?_
    obtain rfl | rfl := hending <;> cases hc <;> decide
  unfold lineEnd?
  dsimp only
  rw [htake, List.drop_left]
  obtain rfl | rfl := hending <;> rfl

theorem exists_of_lineEnd? {n : Nat} (h : lineEnd? text = some n) :
    ∃ gap ending rest, text = gap ++ (ending ++ rest) ∧ (∀ c ∈ gap, isGap c = true) ∧
      (ending = ['\n'] ∨ ending = ['\r', '\n']) ∧ n = gap.length + ending.length := by
  have hgap : ∀ c ∈ text.takeWhile isGap, isGap c = true := fun c =>
    List.all_eq_true.mp List.all_takeWhile c
  have htext := (takeWhile_append_drop isGap text).symm
  unfold lineEnd? at h
  dsimp only at h
  split at h
  next rest hdrop =>
    cases h
    rw [hdrop] at htext
    exact ⟨_, ['\n'], rest, htext, hgap, .inl rfl, rfl⟩
  next rest hdrop =>
    cases h
    rw [hdrop] at htext
    exact ⟨_, ['\r', '\n'], rest, htext, hgap, .inr rfl, rfl⟩
  next => cases h

/-- A marker reaches up to the blanks of its line. -/
theorem markerLine?_append (hmarker : isMarker marker = true) (hgap : ∀ c ∈ gap, isGap c = true)
    (hending : ending = ['\n'] ∨ ending = ['\r', '\n']) (dedent : Bool) (start : Nat)
    (rest : Text) :
    markerLine? dedent start (marker ++ (gap ++ (ending ++ rest))) =
      some ⟨dedent, marker, start + (marker ++ gap ++ ending).length⟩ := by
  cases marker with
  | nil => cases hmarker
  | cons c tail =>
    rw [isMarker, Bool.and_eq_true, List.all_eq_true] at hmarker
    have htake : (tail ++ (gap ++ (ending ++ rest))).takeWhile isWord = tail := by
      refine takeWhile_append_of_head? hmarker.2 fun d hd => ?_
      cases gap with
      | nil => obtain rfl | rfl := hending <;> cases hd <;> decide
      | cons e gap =>
        cases hd
        have he := hgap d List.mem_cons_self
        simp only [isGap, Bool.or_eq_true, decide_eq_true_eq] at he
        obtain rfl | rfl := he <;> decide
    rw [List.cons_append, markerLine?, if_pos hmarker.1]
    dsimp only
    rw [htake, List.drop_left, lineEnd?_append hgap hending, Option.map_some]
    simp only [List.length_append, List.length_cons, Option.some.injEq, Header.mk.injEq,
      true_and]
    omega

theorem exists_of_markerLine? (h : markerLine? dedent start text = some header) :
    ∃ marker gap ending rest, text = marker ++ (gap ++ (ending ++ rest)) ∧
      isMarker marker = true ∧ (∀ c ∈ gap, isGap c = true) ∧
      (ending = ['\n'] ∨ ending = ['\r', '\n']) ∧
      header = ⟨dedent, marker, start + (marker ++ gap ++ ending).length⟩ := by
  cases text with
  | nil => cases h
  | cons c text =>
    rw [markerLine?] at h
    split at h
    next hc =>
      obtain ⟨n, hn, rfl⟩ := Option.map_eq_some_iff.mp h
      obtain ⟨gap, ending, rest, hrest, hgap, hending, rfl⟩ := exists_of_lineEnd? hn
      have htext := (takeWhile_append_drop isWord text).symm
      rw [hrest] at htext
      refine ⟨c :: text.takeWhile isWord, gap, ending, rest, congrArg (c :: ·) htext, ?_, hgap,
        hending, ?_⟩
      · rw [isMarker, hc, List.all_takeWhile]
        rfl
      · simp only [List.length_append, List.length_cons, Header.mk.injEq, true_and]
        omega
    next => cases h

theorem header?_of_ne_dash {c : Char} (hc : c ≠ '-') (rest : Text) :
    header? ('<' :: '<' :: c :: rest) = markerLine? false 2 (c :: rest) := by
  unfold header?
  split
  next heq => exact absurd (List.cons.inj (List.cons.inj (List.cons.inj heq).2).2).1 hc
  next heq => rw [(List.cons.inj (List.cons.inj heq).2).2]
  next hnone => exact absurd rfl (hnone _)

end Heredoc

/-- The header of a line is read, whatever follows the line. -/
theorem HeaderLine.header?_append (line : HeaderLine) (rest : Text) :
    Heredoc.header? (line.text ++ rest) = some line.header := by
  have hread := fun dedent start => Heredoc.markerLine?_append line.isMarker_marker
    line.isGap_gap line.ending_eq dedent start rest
  cases hdashed : line.dashed with
  | true =>
    simp only [header, text, hdashed, if_true, List.append_assoc, List.cons_append,
      List.nil_append, Heredoc.header?, hread, List.length_cons, List.length_append]
    simp only [Option.some.injEq, Heredoc.Header.mk.injEq, true_and]
    omega
  | false =>
    simp only [header, text, hdashed, Bool.false_eq_true, if_false, List.append_assoc,
      List.cons_append, List.nil_append, List.length_cons, List.length_append]
    have hstart := line.isMarker_marker
    cases hmarker : line.marker with
    | nil => rw [hmarker] at hstart; cases hstart
    | cons c tail =>
      rw [hmarker, isMarker, Bool.and_eq_true] at hstart
      have hc : c ≠ '-' := by
        rintro rfl
        exact absurd hstart.1 (by decide)
      rw [hmarker] at hread
      rw [List.cons_append, Heredoc.header?_of_ne_dash hc, ← List.cons_append, hread]
      simp only [List.length_append, Option.some.injEq, Heredoc.Header.mk.injEq, true_and]
      omega

/-- What is read as a header is the line that it is read from. -/
theorem exists_of_header? {text : Text} {header : Heredoc.Header}
    (h : Heredoc.header? text = some header) :
    ∃ (line : HeaderLine) (rest : Text), text = line.text ++ rest ∧ header = line.header := by
  unfold Heredoc.header? at h
  split at h
  next rest =>
    obtain ⟨marker, gap, ending, rest, rfl, hmarker, hgap, hending, rfl⟩ :=
      Heredoc.exists_of_markerLine? h
    refine ⟨⟨true, marker, gap, ending, hmarker, hgap, hending⟩, rest, ?_, ?_⟩
    · simp [HeaderLine.text]
    · simp [HeaderLine.header, HeaderLine.text]
      omega
  next rest _ =>
    obtain ⟨marker, gap, ending, rest, rfl, hmarker, hgap, hending, rfl⟩ :=
      Heredoc.exists_of_markerLine? h
    refine ⟨⟨false, marker, gap, ending, hmarker, hgap, hending⟩, rest, ?_, ?_⟩
    · simp [HeaderLine.text]
    · simp [HeaderLine.header, HeaderLine.text]
      omega
  next => cases h

/-! ### Bodies -/

/-- The lines as they stand in a body, each with its line break. -/
def bodyText (lines : List Text) : Text := lines.flatMap (· ++ ['\n'])

/-- The last line of a heredoc is not empty. -/
theorem ne_nil_of_isTerminator {marker line : Text} (hmarker : isMarker marker = true)
    (h : Heredoc.isTerminator marker line = true) : line ≠ [] := by
  rintro rfl
  rw [Heredoc.isTerminator, decide_eq_true_eq] at h
  rw [← h] at hmarker
  cases hmarker

/-- A line of a body that does not end it. -/
def IsBodyLine (marker line : Text) : Prop :=
  '\n' ∉ line ∧ Heredoc.isTerminator marker line = false

/-- How a body is written: its lines and then the line that ends it, with whatever follows;
or, if none ends it, its lines up to the end of the text, the last one with a line break or
without. -/
inductive IsBody (marker : Text) (lines : List Text) (read : Nat) (text : Text) : Prop
  | ended (terminator rest : Text) (htext : text = bodyText lines ++ (terminator ++ rest))
    (hread : read = (bodyText lines).length + terminator.length) (hline : '\n' ∉ terminator)
    (hlast : Heredoc.isTerminator marker terminator = true)
    (hrest : ∀ c ∈ rest.head?, c = '\n')
  | unended (htext : bodyText lines = text ∨ bodyText lines = text ++ ['\n'])
    (hread : read = (bodyText lines).length)

theorem bodyText_cons (line : Text) (lines : List Text) :
    bodyText (line :: lines) = line ++ '\n' :: bodyText lines := by
  simp [bodyText]

/-- A further line before a body. -/
theorem IsBody.cons {marker text : Text} {lines : List Text} {read : Nat}
    (h : IsBody marker lines read text) (line : Text) :
    IsBody marker (line :: lines) (line.length + 1 + read) (line ++ '\n' :: text) := by
  cases h with
  | ended terminator rest htext hread hline hlast hrest =>
    refine .ended terminator rest ?_ ?_ hline hlast hrest
    · rw [htext, bodyText_cons, List.append_assoc, List.cons_append]
    · rw [hread, bodyText_cons, List.length_append, List.length_cons]
      omega
  | unended htext hread =>
    refine .unended ?_ ?_
    · rw [bodyText_cons]
      simpa using htext
    · rw [hread, bodyText_cons, List.length_append, List.length_cons]
      omega

/-- The lines that are read are the lines that are written. -/
theorem isBody_bodyLines (marker text : Text) :
    (∀ line ∈ (Heredoc.bodyLines marker (lines text)).1, IsBodyLine marker line) ∧
      IsBody marker (Heredoc.bodyLines marker (lines text)).1
        (Heredoc.bodyLines marker (lines text)).2 text := by
  induction text using induction_on_lines with
  | last line hline =>
    rw [lines_of_not_mem hline]
    by_cases hnil : line = []
    · rw [if_pos hnil, hnil]
      exact ⟨List.forall_mem_nil _, .unended (.inl rfl) rfl⟩
    · rw [if_neg hnil, Heredoc.bodyLines]
      cases hlast : Heredoc.isTerminator marker line with
      | true =>
        refine ⟨List.forall_mem_nil _, .ended line [] ?_ ?_ hline hlast (by simp)⟩
        · simp [bodyText]
        · simp [bodyText]
      | false =>
        refine ⟨fun _ hmem => List.mem_singleton.mp hmem ▸ ⟨hline, hlast⟩, ?_⟩
        refine .unended (.inr (bodyText_cons line [])) ?_
        have hlength := congrArg List.length (bodyText_cons line [])
        rw [List.length_append] at hlength
        exact hlength.symm
  | cons line rest hline ih =>
    rw [lines_append_cons hline, Heredoc.bodyLines]
    cases hlast : Heredoc.isTerminator marker line with
    | true =>
      refine ⟨List.forall_mem_nil _, .ended line ('\n' :: rest) rfl ?_ hline hlast (by simp)⟩
      simp [bodyText]
    | false =>
      obtain ⟨hlines, hbody⟩ := ih
      exact ⟨List.forall_mem_cons.mpr ⟨⟨hline, hlast⟩, hlines⟩, hbody.cons line⟩

end TerraformTrace.Hcl
