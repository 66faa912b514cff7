import TerraformTrace.Proofs.HeredocTemplate
import TerraformTrace.Proofs.ValueFile

/-!
# TerraformTrace.Proofs.HeredocRoundTrip

A heredoc that is written and read back. The end of a heredoc is found twice: the mask finds it to
know where code goes on, and the reader of values finds it to know where the value ends. **They find
the same line** (`heredoc_round_trip`): the name gets the lines that were written, and what follows
is read as a text of its own.

With `<<-` the lines come back without the indentation they were written with. What is taken off is
the least indentation of the lines that are not blank, so one of them has to begin at its first
character (`dedentLines_indented`).
-/

namespace TerraformTrace.Hcl

open Text

/-! ### Positions -/

/-- The same assignment further back in a text. -/
def Assignment.shift (offset : Nat) (assignment : Assignment) : Assignment :=
  { assignment with start := assignment.start + offset, stop := assignment.stop + offset }

variable (colon : Bool) (width : Nat) (line : Text)

theorem assignmentAt?_add (start offset : Nat) (text mask : Text) :
    assignmentAt? colon (start + offset) text mask =
      (assignmentAt? colon start text mask).map fun found => (found.1.shift offset, found.2) := by
  unfold assignmentAt?
  cases key? colon text with
  | none => rfl
  | some key =>
    rw [Option.bind_some, Option.bind_some]
    split
    · simp only [Option.map_some, Assignment.shift, Nat.add_right_comm]
    · rfl

/-- The scan does not depend on where it starts to count. -/
theorem scanAssignments_add (skip depth : Nat) (fresh : Bool) (pos offset : Nat)
    (text mask : Text) :
    scanAssignments colon skip depth fresh (pos + offset) text mask =
      (scanAssignments colon skip depth fresh pos text mask).map (Assignment.shift offset) := by
  induction text generalizing skip depth fresh pos mask with
  | nil => rfl
  | cons c text ih =>
    cases mask with
    | nil => rfl
    | cons m mask =>
      cases skip with
      | succ skip =>
        rw [scanAssignments, scanAssignments, Nat.add_right_comm, ih]
      | zero =>
        rw [scanAssignments, scanAssignments, assignmentAt?_add, Nat.add_right_comm]
        split
        · split
          · exact ih ..
          · cases assignmentAt? colon pos (c :: text) (m :: mask) with
            | none => exact ih ..
            | some found => exact congrArg (_ :: ·) (ih ..)
        · exact ih ..

/-! ### Indented lines -/

/-- A line with this many spaces before it. -/
def indented (width : Nat) (line : Text) : Text := List.replicate width ' ' ++ line

theorem stripLeft_indented : stripLeft (indented width line) = stripLeft line := by
  rw [stripLeft, indented, List.dropWhile_append_of_pos]
  · rfl
  · intro c hc
    rw [List.eq_of_mem_replicate hc]
    decide

theorem strip_indented : strip (indented width line) = strip line := by
  rw [strip, strip, stripLeft_indented]

theorem indentation_indented :
    Heredoc.indentation (indented width line) = width + Heredoc.indentation line := by
  have hle := length_stripLeft_le line
  rw [Heredoc.indentation, Heredoc.indentation, stripLeft_indented, indented, List.length_append,
    List.length_replicate]
  omega

theorem occursIn_indented :
    occursIn ['$', '{'] (indented width line) = occursIn ['$', '{'] line := by
  induction width with
  | zero => rfl
  | succ width ih => exact ih

/-- A line that is not blank and begins at its first character. -/
def IsFlush (line : Text) : Prop := strip line ≠ [] ∧ ∀ c ∈ line.head?, isBlank c = false

instance (line : Text) : Decidable (IsFlush line) :=
  @instDecidableAnd _ _ _ (Option.decidableForallMem line.head?)

theorem IsFlush.indentation {line : Text} (h : IsFlush line) : Heredoc.indentation line = 0 := by
  rw [indentation_eq]
  cases line with
  | nil => rfl
  | cons c rest => rw [List.takeWhile_cons_of_neg (by simp [h.2 c rfl])]; rfl

/-- What indented lines have in common is the indentation, if one of them is flush. -/
theorem sharedIndentation_indented {lines : List Text} (h : ∃ line ∈ lines, IsFlush line) :
    Heredoc.sharedIndentation (lines.map (indented width)) = width := by
  obtain ⟨flush, hmem, hflush⟩ := h
  have hmin : (((lines.map (indented width)).filter fun line => !(strip line).isEmpty).map
      Heredoc.indentation).min? = some width := by
    rw [List.min?_eq_some_iff]
    constructor
    · refine List.mem_map.mpr ⟨indented width flush, List.mem_filter.mpr
        ⟨List.mem_map_of_mem hmem, ?_⟩, ?_⟩
      · simpa [strip_indented] using hflush.1
      · rw [indentation_indented, hflush.indentation, Nat.add_zero]
    · intro shared hshared
      obtain ⟨line, hline, rfl⟩ := List.mem_map.mp hshared
      obtain ⟨source, -, rfl⟩ := List.mem_map.mp (List.mem_filter.mp hline).1
      rw [indentation_indented]
      exact Nat.le_add_right ..
  rw [Heredoc.sharedIndentation, hmin, Option.getD_some]

/-- Dedenting takes off what indenting put there, of blank lines too. -/
theorem dedentLines_indented {lines : List Text} (h : ∃ line ∈ lines, IsFlush line) :
    Heredoc.dedentLines (lines.map (indented width)) = lines := by
  rw [Heredoc.dedentLines, sharedIndentation_indented width h, List.map_map]
  refine List.map_id'' (fun line => ?_) lines
  exact List.drop_left' List.length_replicate

/-! ### Heredocs as values -/

namespace HeredocText

variable (document : HeredocText)

/-- The heredoc as it is written. -/
def text : Text := (LiteralText.heredoc document).text

theorem text_eq : document.text =
    document.header.text ++ (bodyText document.lines ++ document.terminator) :=
  List.append_assoc ..

/-- What the heredoc stands for. -/
def value : Text := join ['\n'] (valueLines document.header.dashed document.lines)

variable {rest : Text} (hrest : ∀ c ∈ rest.head?, c = '\n')

include hrest

/-- The lines are read up to the one that ends the heredoc. -/
theorem bodyLines_eq : Heredoc.bodyLines document.header.marker
      (Text.lines (bodyText document.lines ++ (document.terminator ++ rest))) =
    (document.lines, (bodyText document.lines).length + document.terminator.length) := by
  obtain ⟨hbreak, hlast⟩ := document.isTerminator
  have hne := ne_nil_of_isTerminator document.header.isMarker_marker hlast
  have hend : Heredoc.bodyLines document.header.marker (Text.lines (document.terminator ++ rest)) =
      ([], document.terminator.length) := by
    cases rest with
    | nil =>
      rw [List.append_nil, lines_of_not_mem hbreak, if_neg hne, Heredoc.bodyLines, if_pos hlast]
    | cons c rest =>
      obtain rfl := hrest c rfl
      rw [lines_append_cons hbreak, Heredoc.bodyLines, if_pos hlast]
  have hlines := document.isBodyLine
  generalize document.lines = lines at hlines ⊢
  induction lines with
  | nil =>
    rw [show bodyText [] = [] from rfl, List.nil_append, hend, List.length_nil, Nat.zero_add]
  | cons line lines ih =>
    obtain ⟨hline, hlines⟩ := List.forall_mem_cons.mp hlines
    rw [bodyText_cons, List.append_assoc, List.cons_append, lines_append_cons hline.1,
      Heredoc.bodyLines, if_neg (by simp [hline.2]), ih hlines]
    simp only [List.length_append, List.length_cons, Prod.mk.injEq, true_and]
    omega

theorem body_eq : Heredoc.body document.header.header
      (bodyText document.lines ++ (document.terminator ++ rest)) =
    (document.value, (bodyText document.lines).length + document.terminator.length) := by
  have hlines : Heredoc.bodyLines document.header.header.marker _ = _ :=
    document.bodyLines_eq hrest
  have hmin : min ((bodyText document.lines).length + document.terminator.length)
      (bodyText document.lines ++ (document.terminator ++ rest)).length =
        (bodyText document.lines).length + document.terminator.length := by
    simp only [List.length_append]
    omega
  rw [Heredoc.body, hlines]
  dsimp only
  rw [hmin]
  rfl

/-- A heredoc is read as a value, whatever the mask shows. -/
theorem readValue_eq {gap : Text} (hgap : ∀ c ∈ gap, isGap c = true) (mask : Text) :
    readValue (gap ++ (document.text ++ rest)) mask =
      (document.value, gap.length + document.text.length) := by
  have htext : document.text ++ rest =
      document.header.text ++ (bodyText document.lines ++ (document.terminator ++ rest)) := by
    rw [text_eq, List.append_assoc, List.append_assoc]
  have hrun : (gap ++ (document.text ++ rest)).takeWhile isGap = gap :=
    takeWhile_append_of_head? hgap fun c hc => by
      obtain rfl : '<' = c := Option.some.inj hc
      decide
  have hdrop : (document.header.text ++ (bodyText document.lines ++
      (document.terminator ++ rest))).drop document.header.header.length =
        bodyText document.lines ++ (document.terminator ++ rest) := List.drop_left' rfl
  unfold readValue
  simp only [hrun, List.drop_left]
  rw [htext, document.header.header?_append]
  simp only [hdrop, document.body_eq hrest, document.text_eq, List.length_append, Prod.mk.injEq,
    true_and]
  show gap.length + document.header.text.length + _ = _
  omega

end HeredocText

/-! ### Assignments -/

/-- A name and the heredoc that it is assigned. -/
structure HeredocAssignment where
  name : Identifier
  document : HeredocText

namespace HeredocAssignment

variable (source : HeredocAssignment)

def left : Text := source.name.text ++ " = ".toList

def text : Text := source.left ++ source.document.text

/-- The assignment that is read at the beginning of a text. -/
def assignment : Assignment :=
  { name := source.name.text, value := source.document.value, start := 0
    stop := source.text.length }

variable {rest : Text} (hrest : ∀ c ∈ rest.head?, c = '\n')

include hrest

theorem assignmentAt?_eq (mask : Text) :
    assignmentAt? colon 0 (source.text ++ rest) (source.left ++ mask) =
      some (source.assignment, source.text.length) := by
  -- the text and the mask, cut at the operator
  have htext : source.text ++ rest =
      source.name.text ++ [' '] ++ '=' :: ([' '] ++ (source.document.text ++ rest)) := by
    simp [text, left]
  have hmask : source.left ++ mask = source.name.text ++ [' '] ++ '=' :: ([' '] ++ mask) := by
    simp [left]
  have hkey : key? colon
      (source.name.text ++ [' '] ++ '=' :: ([' '] ++ (source.document.text ++ rest))) =
        some { name := source.name.text, length := (source.name.text ++ [' ']).length + 1 } := by
    have hname := key?_name colon source.name (source.document.text ++ rest)
    rw [List.length_append]
    simpa using hname
  have hspace : ∀ c ∈ [' '], isGap c = true := forall_of_all (by decide)
  have hvalue := source.document.readValue_eq hrest hspace ([' '] ++ mask)
  have hcount : (source.name.text ++ [' ']).length + 1 +
      ([' '].length + source.document.text.length) = source.text.length := by
    simp [text, left]
    omega
  rw [htext, hmask, assignmentAt?_of_key colon hkey rfl rfl hvalue, hcount, Nat.zero_add]
  rfl

/-- The heredoc is taken with its name, as long as the mask is. -/
theorem scanAssignments_eq {shown : Text} (hlength : shown.length = source.document.text.length)
    (mask : Text) :
    scanAssignments colon 0 0 true 0 (source.text ++ rest) (source.left ++ shown ++ mask) =
      source.assignment ::
        scanAssignments colon 0 0 false source.text.length rest mask := by
  obtain ⟨c, more, hname, hc⟩ := source.name.exists_cons
  have hindent : isIndent c = false :=
    not_isIndent_of_class (p := isPathChar) (forall_of_all (by decide)) hc
  have hread := source.assignmentAt?_eq colon hrest (shown ++ mask)
  rw [← List.append_assoc] at hread
  have hcovers : (source.left ++ shown).length = source.text.length := by simp [text, hlength]
  have hscan := scanAssignments_take colon hcovers (by simpa [left, hname] using hindent)
    (by simp [text, left]) hread
  rwa [Nat.zero_add] at hscan

/-- The heredoc is the first assignment, whatever stands in it and after it. -/
theorem exists_assignments_eq :
    ∃ more, assignments (source.text ++ rest) colon = source.assignment :: more := by
  obtain ⟨s, -, hrun⟩ := source.name.shows_left .start ⟨rfl, rfl⟩
  have hmask : mask (source.text ++ rest) =
      source.left ++ Mask.shownBefore s source.document.text rest ++
        Mask.run (Mask.stateBefore s source.document.text rest) rest := by
    rw [text, left, mask, List.append_assoc, hrun, Mask.run_append,
      List.append_assoc _ _ (Mask.run _ _)]
  rw [assignments, hmask, source.scanAssignments_eq colon hrest (Mask.length_shownBefore ..)]
  exact ⟨_, rfl⟩

/-- After a heredoc without interpolations the mask starts afresh, where the value ends. -/
theorem assignments_eq (hplain : ∀ line ∈ source.document.lines, occursIn ['$', '{'] line = false) :
    assignments (source.text ++ rest) colon =
      source.assignment ::
        scanAssignments colon 0 0 false source.text.length rest (mask rest) := by
  let literal := LiteralText.heredoc source.document
  have huninterpolated : literal.IsUninterpolated := hplain
  have hends : literal.EndsBefore rest := by
    show rest.head?.all (· = '\n') = true
    cases rest with
    | nil => rfl
    | cons c rest => simp [hrest c rfl]
  obtain ⟨s, hs, hrun⟩ := source.name.shows_left .start ⟨rfl, rfl⟩
  obtain ⟨t, ht, hliteral⟩ := Mask.run_literal rfl hs huninterpolated hends
  have hmask : mask (source.text ++ rest) =
      source.left ++ (literal.opening ++ blanked literal.content ++ literal.closing) ++
        mask rest := by
    rw [text, left, mask, List.append_assoc, hrun, List.append_assoc _ _ (mask rest),
      ← Mask.run_eq_mask ht rest, ← hliteral]
    rfl
  have hlength : (literal.opening ++ blanked literal.content ++ literal.closing).length =
      source.document.text.length := by
    simp [HeredocText.text, literal, LiteralText.text, blanked]
  rw [assignments, hmask, source.scanAssignments_eq colon hrest hlength]

end HeredocAssignment

/-- What may follow a line: nothing, or a line break and a text. -/
def afterLine : Option Text → Text
  | none => []
  | some text => '\n' :: text

theorem head?_afterLine (following : Option Text) :
    ∀ c ∈ (afterLine following).head?, c = '\n' := by
  cases following <;> simp [afterLine, eq_comm]

/-- A text after a line break is scanned as a text of its own. -/
theorem scanAssignments_afterLine (following : Option Text) (pos : Nat) :
    scanAssignments colon 0 0 false pos (afterLine following) (mask (afterLine following)) =
      ((following.map (assignments · colon)).getD []).map (Assignment.shift (pos + 1)) := by
  cases following with
  | none => rfl
  | some text =>
    have hshift := scanAssignments_add colon 0 0 true 0 (pos + 1) text (mask text)
    rw [Nat.zero_add] at hshift
    rw [afterLine, mask_cons (by decide), scanAssignments_break, hshift]
    rfl

/-! ### Written and read back -/

theorem isName_of_isMarker {marker : Text} (h : isMarker marker = true) : isName marker = true := by
  cases marker with
  | nil => exact h
  | cons first rest =>
    simp only [isMarker, Bool.and_eq_true, List.all_eq_true] at h
    simp only [isName, Bool.and_eq_true, List.all_eq_true]
    exact ⟨h.1, fun c hc => by simp [isNameRest, h.2 c hc]⟩

theorem dropRightWhile_eq_self {p : Char → Bool} {text : Text} (h : ∀ c ∈ text, p c = false) :
    dropRightWhile p text = text := by
  obtain ⟨dropped, hdropped, htext⟩ := exists_dropRightWhile p text
  obtain rfl : dropped = [] := List.eq_nil_iff_forall_not_mem.mpr fun c hc => by
    have hmem : c ∈ text := htext ▸ List.mem_append_right _ hc
    exact absurd (hdropped c hc) (by simp [h c hmem])
  exact (htext.trans (List.append_nil _)).symm

/-- Lines that are written as a heredoc, for a name. -/
structure HeredocSource where
  name : Identifier
  /-- Whether the heredoc is `<<-`. -/
  dashed : Bool
  marker : Text
  /-- Indentation of the lines. -/
  indent : Nat
  lines : List Text
  /-- Indentation of the marker that ends the heredoc. -/
  closing : Nat
  isMarker_marker : isMarker marker = true
  isLine : ∀ line ∈ lines, '\r' ∉ line ∧ '\n' ∉ line ∧ strip line ≠ marker
  isFlush : dashed = true → ∃ line ∈ lines, IsFlush line

namespace HeredocSource

variable (source : HeredocSource)

/-- The assignment as it is written, without a line break at its end. -/
def text : Text :=
  source.name.text ++ " = <<".toList ++ (if source.dashed then ['-'] else []) ++ source.marker ++
    '\n' :: (bodyText (source.lines.map (indented source.indent)) ++
      indented source.closing source.marker)

/-- The lines joined, as they were or as they are indented. -/
def value : Text :=
  join ['\n'] (if source.dashed then source.lines else source.lines.map (indented source.indent))

theorem isBodyLine_indented :
    ∀ line ∈ source.lines.map (indented source.indent), IsBodyLine source.marker line := by
  intro line hline
  obtain ⟨written, hwritten, rfl⟩ := List.mem_map.mp hline
  obtain ⟨-, hbreak, hlast⟩ := source.isLine written hwritten
  refine ⟨?_, ?_⟩
  · simpa [indented] using hbreak
  · rw [Heredoc.isTerminator, strip_indented]
    exact decide_eq_false hlast

theorem isTerminator_indented : '\n' ∉ indented source.closing source.marker ∧
    Heredoc.isTerminator source.marker (indented source.closing source.marker) = true := by
  have hblank : ∀ c ∈ source.marker, isBlank c = false := fun c hc =>
    not_isBlank_of_isNameRest (isNameRest_of_mem (isName_of_isMarker source.isMarker_marker) hc)
  constructor
  · intro hbreak
    rcases List.mem_append.mp hbreak with hspace | hmarker
    · exact absurd (List.eq_of_mem_replicate hspace) (by decide)
    · exact absurd (hblank _ hmarker) (by decide)
  · rw [Heredoc.isTerminator, strip_indented, strip_eq_self hblank]
    exact decide_eq_true rfl

/-- The heredoc in its parts. -/
def parts : HeredocAssignment where
  name := source.name
  document :=
    { header := ⟨source.dashed, source.marker, [], ['\n'], source.isMarker_marker, nofun, .inl rfl⟩
      lines := source.lines.map (indented source.indent)
      terminator := indented source.closing source.marker
      isBodyLine := source.isBodyLine_indented
      isTerminator := source.isTerminator_indented }

theorem text_parts : source.parts.text = source.text := by
  simp [parts, HeredocAssignment.text, HeredocAssignment.left, HeredocText.text_eq, HeaderLine.text,
    text]

theorem value_parts : source.parts.document.value = source.value := by
  have hreturns : (source.lines.map (indented source.indent)).map (dropRightWhile (· = '\r')) =
      source.lines.map (indented source.indent) := by
    refine (List.map_congr_left fun line hline => ?_).trans (List.map_id _)
    obtain ⟨written, hwritten, rfl⟩ := List.mem_map.mp hline
    refine dropRightWhile_eq_self fun c hc => decide_eq_false ?_
    rintro rfl
    rcases List.mem_append.mp hc with hspace | hline
    · exact absurd (List.eq_of_mem_replicate hspace) (by decide)
    · exact (source.isLine written hwritten).1 hline
  show join ['\n'] (valueLines source.dashed (source.lines.map (indented source.indent))) = _
  rw [valueLines, hreturns, value]
  cases hdashed : source.dashed with
  | false => rfl
  | true => simp only [if_true, dedentLines_indented source.indent (source.isFlush hdashed)]

end HeredocSource

/-- **A heredoc is read back as it was written, and what follows it is read as if it stood alone.**
The name gets the lines, without the indentation they were written with if the heredoc is `<<-`. If
no `${` stands in the lines, the other assignments are those of the text that follows. -/
theorem heredoc_round_trip (source : HeredocSource) (following : Option Text) :
    (∃ more, assignments (source.text ++ afterLine following) colon =
      { name := source.name.text, value := source.value, start := 0
        stop := source.text.length } :: more) ∧
    assignedValue? (source.text ++ afterLine following) source.name.text colon =
      some source.value ∧
    ((∀ line ∈ source.lines, occursIn ['$', '{'] line = false) →
      assignments (source.text ++ afterLine following) colon =
        { name := source.name.text, value := source.value, start := 0
          stop := source.text.length } ::
        ((following.map (assignments · colon)).getD []).map
          (Assignment.shift (source.text.length + 1))) := by
  have hrest := head?_afterLine following
  rw [← source.text_parts, ← source.value_parts]
  obtain ⟨more, hfirst⟩ := source.parts.exists_assignments_eq colon hrest
  refine ⟨⟨more, hfirst⟩, ?_, fun hplain => ?_⟩
  · rw [assignedValue?, hfirst]
    simp [HeredocAssignment.assignment, HeredocSource.parts]
  · have hindented : ∀ line ∈ source.parts.document.lines, occursIn ['$', '{'] line = false := by
      intro line hline
      obtain ⟨written, hwritten, rfl⟩ := List.mem_map.mp hline
      rw [occursIn_indented]
      exact hplain written hwritten
    rw [source.parts.assignments_eq colon hrest hindented, scanAssignments_afterLine]
    rfl

/-- A script with an empty line, an indented one, and what would be code outside of it. -/
def script : HeredocSource where
  name := ⟨"user_data".toList, by decide⟩
  dashed := true
  marker := "EOT".toList
  indent := 4
  lines := ["#!/bin/sh".toList, [], "  echo \"a = \x7b\"".toList]
  closing := 2
  isMarker_marker := by decide
  isLine := by decide
  isFlush := fun _ => ⟨_, List.mem_cons_self, by decide⟩

/-- The script is read back, and so is the assignment on the line after it. -/
theorem script_round_trip :
    (∀ line ∈ script.lines, occursIn ['$', '{'] line = false) ∧
    assignments (script.text ++ afterLine (some "size = 2".toList)) =
      [{ name := "user_data".toList, value := "#!/bin/sh\n\n  echo \"a = \x7b\"".toList, start := 0
         stop := 62 },
       { name := "size".toList, value := "2".toList, start := 63, stop := 71 }] := by
  have hplain : ∀ line ∈ script.lines, occursIn ['$', '{'] line = false := by decide
  obtain ⟨-, -, hread⟩ := heredoc_round_trip false script (some "size = 2".toList)
  exact ⟨hplain, (hread hplain).trans (by decide +kernel)⟩

end TerraformTrace.Hcl
