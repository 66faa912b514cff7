import TerraformTrace.Proofs.Term

/-!
# TerraformTrace.Proofs.ValueFile

Files of assignments. A line is a name, an equals sign and a literal, and it may end in
blanks and a comment; a literal may take several lines of the file itself. **Reading a
file of such lines gives back the lines**: every name with the text of its literal, in
order, and nothing else (`assignments_file`).

A line is read in two steps. The scan of statements takes the name, the operator, the
literal and the blanks after it as one assignment (`scanAssignments_code`), because the
literal is closed and nothing before the end of the line ends it. Then it passes over the
comment, which the mask hides, up to the line break (`scanAssignments_line`).
-/

namespace TerraformTrace.Hcl

open Text

variable {mask : Text} {s : Mask.State}

/-! ### Lines -/

/-- A blank that does not end the line. -/
def isInlineBlank (c : Char) : Bool := isBlank c && c ≠ '\n'

/-- A comment up to the end of its line. -/
structure Comment where
  /-- Whether it starts with two slashes, and not with a number sign. -/
  slashes : Bool
  body : TextOf (· ≠ '\n')

def Comment.text (comment : Comment) : Text :=
  (if comment.slashes then ['/', '/'] else ['#']) ++ comment.body.text

/-- One assignment on its own line. -/
structure Line where
  indent : TextOf isIndent
  name : Identifier
  value : Term
  trailing : TextOf isInlineBlank
  comment : Option Comment

namespace Line

/-- The literal and the blanks after it. -/
def right (line : Line) : Text := line.value.text ++ line.trailing.text

/-- The line up to its comment, without its indentation. -/
def code (line : Line) : Text := line.name.text ++ (" = ".toList ++ line.right)

def ending (line : Line) : Text := (line.comment.map Comment.text).getD []

def text (line : Line) : Text := line.indent.text ++ (line.code ++ line.ending)

end Line

/-- A file of lines. The last one may lack its line break. -/
structure ValueFile where
  ended : List Line
  unended : Option Line

/-- The text of lines that each end in a line break. -/
def linesText (lines : List Line) : Text := lines.flatMap fun line => line.text ++ ['\n']

def ValueFile.text (file : ValueFile) : Text :=
  linesText file.ended ++ (file.unended.map Line.text).getD []

def ValueFile.lines (file : ValueFile) : List Line := file.ended ++ file.unended.toList

/-! ### The scan of statements -/

variable (colon : Bool) {first shown : Text}

theorem scanAssignments_skip (hlength : shown.length = first.length) (depth : Nat) (fresh : Bool)
    (pos : Nat) (text mask : Text) :
    scanAssignments colon first.length depth fresh pos (first ++ text) (shown ++ mask) =
      scanAssignments colon 0 depth fresh (pos + first.length) text mask := by
  induction first generalizing shown pos with
  | nil =>
    rw [List.length_eq_zero_iff.mp hlength]
    rfl
  | cons c first ih =>
    obtain ⟨m, shown, rfl⟩ := List.exists_cons_of_length_eq_add_one hlength
    rw [List.cons_append, List.cons_append, List.length_cons, scanAssignments,
      ih (Nat.succ.inj hlength), Nat.add_right_comm, Nat.add_assoc]

theorem scanAssignments_indent {indent : Text} (h : ∀ c ∈ indent, isIndent c = true)
    (pos : Nat) (text mask : Text) :
    scanAssignments colon 0 0 true pos (indent ++ text) (indent ++ mask) =
      scanAssignments colon 0 0 true (pos + indent.length) text mask := by
  induction indent generalizing pos with
  | nil => rfl
  | cons c indent ih =>
    obtain ⟨hc, hindent⟩ := List.forall_mem_cons.mp h
    rw [List.cons_append, List.cons_append, scanAssignments, if_pos (by decide),
      if_pos hc, ih hindent, List.length_cons, Nat.add_right_comm, Nat.add_assoc]

/-- Nothing begins in a comment. -/
theorem scanAssignments_hidden (comment : Text) (pos : Nat) (text mask : Text) :
    scanAssignments colon 0 0 false pos (comment ++ text) (comment.map (fun _ => hidden) ++ mask) =
      scanAssignments colon 0 0 false (pos + comment.length) text mask := by
  induction comment generalizing pos with
  | nil => rfl
  | cons c comment ih =>
    rw [List.cons_append, List.map_cons, List.cons_append, scanAssignments]
    exact (ih (pos + 1)).trans (by rw [List.length_cons, Nat.add_right_comm, Nat.add_assoc])

/-- A statement may start after a line break. -/
theorem scanAssignments_break (pos : Nat) (text mask : Text) :
    scanAssignments colon 0 0 false pos ('\n' :: text) ('\n' :: mask) =
      scanAssignments colon 0 0 true (pos + 1) text mask := rfl

/-- An assignment is taken with all its characters. -/
theorem scanAssignments_take {assignment : Assignment} {pos : Nat} {text : Text}
    (hlength : shown.length = first.length) (hhead : ∀ m ∈ shown.head?, isIndent m = false)
    (hne : first ≠ []) (hread : assignmentAt? colon pos (first ++ text) (shown ++ mask) =
      some (assignment, first.length)) :
    scanAssignments colon 0 0 true pos (first ++ text) (shown ++ mask) =
      assignment :: scanAssignments colon 0 0 false (pos + first.length) text mask := by
  obtain ⟨c, first, rfl⟩ := List.exists_cons_of_ne_nil hne
  obtain ⟨m, shown, rfl⟩ := List.exists_cons_of_length_eq_add_one hlength
  have hm : isIndent m = false := hhead m rfl
  rw [List.cons_append, List.cons_append] at hread
  rw [List.cons_append, List.cons_append, scanAssignments, if_pos (by decide),
    if_neg (by simp [hm]), hread]
  simp only [List.length_cons, Nat.add_sub_cancel]
  rw [scanAssignments_skip colon (Nat.succ.inj hlength), Nat.add_right_comm, Nat.add_assoc]

/-! ### Names and values -/

theorem key?_name (name : Identifier) (text : Text) :
    key? colon (name.text ++ (" = ".toList ++ text)) =
      some { name := name.text, length := name.text.length + 2 } := by
  have hquote : quoteLength (name.text ++ (" = ".toList ++ text)) = 0 := by
    obtain ⟨c, rest, hname, hc⟩ := name.exists_cons
    have hne : c ≠ '"' := ne_of_isPathChar hc (by decide)
    exact if_neg (by simp [hname, hne])
  have hname : leadingName? (name.text ++ (" = ".toList ++ text)) = some name.text :=
    leadingName?_append name.isName (by simp; decide)
  simp only [key?, hquote, List.drop_zero, hname, Option.bind_some, Nat.zero_add, List.drop_left]
  rfl

/-- The blanks at the end are cut off, up to the last character that is none. -/
theorem stripRight_concat {c : Char} (hc : isBlank c = false) (front : Text) {blanks : Text}
    (hblanks : ∀ c ∈ blanks, isBlank c = true) :
    stripRight (front ++ [c] ++ blanks) = front ++ [c] := by
  rw [stripRight_blanks hblanks]
  simp [stripRight, dropRightWhile, hc]

theorem stripRight_append {value blanks : Text} (hvalue : IsTrimmed value)
    (hblanks : ∀ c ∈ blanks, isBlank c = true) : stripRight (value ++ blanks) = value := by
  obtain ⟨front, c, rfl, hc⟩ := hvalue.last
  exact stripRight_concat hc front hblanks

theorem isGap_of_not_isBlank {c : Char} (h : isBlank c = false) : isGap c = false := by
  refine Bool.eq_false_iff.mpr fun hgap => ?_
  simp only [isGap, Bool.or_eq_true, decide_eq_true_eq] at hgap
  rcases hgap with rfl | rfl <;> exact absurd h (by decide)

theorem IsTrimmed.head {value : Text} (h : IsTrimmed value) (rest : Text) :
    ∀ c ∈ (value ++ rest).head?, isGap c = false ∧ c ≠ '<' := by
  obtain ⟨c, more, rfl, hc, hangle⟩ := h.first
  simpa using ⟨isGap_of_not_isBlank hc, hangle⟩

/-- A closed value is read up to what ends it. -/
theorem readValue_upTo {gap front tail : Text} (hgap : ∀ c ∈ gap, isGap c = true)
    (hhead : ∀ c ∈ (front ++ tail).head?, isGap c = false ∧ c ≠ '<')
    (hlength : shown.length = front.length) (hshown : Balanced (endsValue · = false) shown)
    (hend : extent? 0 mask = some 0) :
    readValue (gap ++ (front ++ tail)) (gap ++ (shown ++ mask)) =
      (stripRight front, gap.length + front.length) := by
  have hrun : (gap ++ (front ++ tail)).takeWhile isGap = gap :=
    takeWhile_append_of_head? hgap fun c hc => (hhead c hc).1
  have hheader : Heredoc.header? (front ++ tail) = none := by
    cases hrest : front ++ tail with
    | nil => rfl
    | cons c rest => exact Mask.header?_of_ne (hhead c (by simp [hrest])).2 rest
  have hextent : extent? 0 (shown ++ mask) = some front.length := by
    rw [hshown.extent? (fun _ _ hends => hends), hend, ← hlength]
    simp
  simp only [readValue, hrun, List.drop_left, hheader, hextent, List.take_left]

/-- A key is read with its value if the mask shows the first character of the key and the
operator. -/
theorem assignmentAt?_of_key {name key covered text value : Text} {operator : Char} {read : Nat}
    (hkey : key? colon (key ++ operator :: text) = some { name, length := key.length + 1 })
    (hlength : covered.length = key.length) (hhead : covered.head? = key.head?)
    (hvalue : readValue text mask = (value, read)) (pos : Nat) :
    assignmentAt? colon pos (key ++ operator :: text) (covered ++ operator :: mask) =
      some ({ name, value, start := pos, stop := pos + (key.length + 1 + read) },
        key.length + 1 + read) := by
  have hdrop {front : Text} (hfront : front.length = key.length) (rest : Text) :
      (front ++ operator :: rest).drop (key.length + 1) = rest := by
    rw [← hfront, List.drop_append, List.drop_of_length_le (Nat.le_succ _)]
    simp
  have hlast {front : Text} (hfront : front.length = key.length) (rest : Text) :
      (front ++ operator :: rest)[key.length]? = some operator := by
    rw [← hfront]
    simp
  have hvisible : Key.isVisible { name, length := key.length + 1 } (key ++ operator :: text)
      (covered ++ operator :: mask) = true := by
    rw [Key.isVisible, Nat.add_sub_cancel, hlast rfl, hlast hlength, List.head?_append,
      List.head?_append, hhead]
    simp
  rw [assignmentAt?, hkey, Option.bind_some, if_pos hvisible]
  simp only [hdrop rfl, hdrop hlength, hvalue]

/-! ### Lines are read -/

theorem extent?_hidden (comment : Text) (h : extent? 0 mask = some 0) :
    extent? 0 (comment.map (fun _ => hidden) ++ mask) = some 0 := by
  cases comment with
  | nil => exact h
  | cons c comment => rfl

theorem isClosed_blanks (blanks : TextOf isInlineBlank) :
    IsClosed (endsValue · = false) blanks.text :=
  isClosed_of_wordClass (forall_of_all (by decide)) blanks.all

theorem Comment.shows (comment : Comment) :
    Mask.Shows [] comment.text (comment.text.map fun _ => hidden) [.lineComment] := by
  have hbody : Mask.Shows [.lineComment] comment.body.text
      (comment.body.text.map fun _ => hidden) [.lineComment] :=
    .of_forall _ fun c hc => Mask.shows_commentChar (by simpa using comment.body.all c hc)
  rw [Comment.text, List.map_append]
  refine Mask.Shows.append ?_ hbody
  cases comment.slashes with
  | true => exact Mask.shows_slashes rfl
  | false => exact Mask.shows_hash rfl

/-- A name and the operator after it stand as they are in the mask. -/
theorem Identifier.shows_left (name : Identifier) :
    Mask.Shows [] (name.text ++ " = ".toList) (name.text ++ " = ".toList) [] := by
  refine IsClosed.shows_of_forall
    (List.forall_mem_append.mpr ⟨fun c hc => ?_, forall_of_all (by decide)⟩)
  exact isPlain_of_class (p := TerraformTrace.isPathChar) (forall_of_all (by decide))
    (name.isPathChar c hc)

namespace Line

variable (line : Line)

/-- What a line assigns, and to what. -/
def pair : Text × Text := (line.name.text, line.value.text)

theorem isClosed_right : IsClosed (endsValue · = false) line.right :=
  line.value.isClosed.append (isClosed_blanks line.trailing)

/-- The comment is hidden, and the line break after it leads back to code. -/
theorem shows_ending : ∃ after, Mask.Shows [] line.ending (line.ending.map fun _ => hidden) after ∧
    Mask.Shows after ['\n'] ['\n'] [] := by
  unfold ending
  cases line.comment with
  | none =>
    exact ⟨[], .nil [], Mask.shows_code (by decide)⟩
  | some comment => exact ⟨[.lineComment], comment.shows, Mask.shows_endComment []⟩

theorem assignmentAt?_code (text : Text) (hlength : shown.length = line.right.length)
    (hshown : Balanced (endsValue · = false) shown) (hend : extent? 0 mask = some 0)
    (pos : Nat) :
    assignmentAt? colon pos (line.code ++ text) (line.name.text ++ " = ".toList ++ shown ++ mask) =
      some ({ name := line.name.text, value := line.value.text, start := pos,
              stop := pos + line.code.length }, line.code.length) := by
  -- the text and the mask, cut at the operator
  have htext : line.code ++ text = line.name.text ++ [' '] ++
      '=' :: ([' '] ++ (line.value.text ++ line.trailing.text ++ text)) := by
    simp [code, right]
  have hmask : line.name.text ++ " = ".toList ++ shown ++ mask =
      line.name.text ++ [' '] ++ '=' :: ([' '] ++ (shown ++ mask)) := by simp
  have hkey : key? colon (line.name.text ++ [' '] ++
      '=' :: ([' '] ++ (line.value.text ++ line.trailing.text ++ text))) =
        some { name := line.name.text, length := (line.name.text ++ [' ']).length + 1 } := by
    rw [← htext, code, List.append_assoc, List.append_assoc, key?_name, List.length_append]
    rfl
  have hblanks : ∀ c ∈ line.trailing.text, isBlank c = true := fun c hc =>
    (Bool.and_eq_true_iff.mp (line.trailing.all c hc)).1
  have hhead : ∀ c ∈ (line.value.text ++ line.trailing.text ++ text).head?,
      isGap c = false ∧ c ≠ '<' := by
    rw [List.append_assoc]
    exact line.value.isTrimmed.head _
  have hspace : ∀ c ∈ [' '], isGap c = true := forall_of_all (by decide)
  have hvalue := readValue_upTo hspace hhead hlength hshown hend
  rw [stripRight_append line.value.isTrimmed hblanks] at hvalue
  have hcount : (line.name.text ++ [' ']).length + 1 +
      ([' '].length + (line.value.text ++ line.trailing.text).length) = line.code.length := by
    simp [code, right]
    omega
  rw [htext, hmask, assignmentAt?_of_key colon hkey rfl rfl hvalue, hcount]

/-- The line up to its comment is taken as one assignment. -/
theorem scanAssignments_code (hs : s.StandsIn []) : ∃ s' : Mask.State,
    s'.StandsIn [] ∧ ∀ pos text, extent? 0 (Mask.run s' text) = some 0 →
      ∃ assignment : Assignment, (assignment.name, assignment.value) = line.pair ∧
        scanAssignments colon 0 0 true pos (line.indent.text ++ (line.code ++ text))
            (Mask.run s (line.indent.text ++ (line.code ++ text))) =
          assignment :: scanAssignments colon 0 0 false
            (pos + line.indent.text.length + line.code.length) text (Mask.run s' text) := by
  obtain ⟨shown, hshows, hshown⟩ := line.isClosed_right
  have hindent : Mask.Shows [] line.indent.text line.indent.text [] :=
    IsClosed.shows_of_forall fun c hc =>
      isPlain_of_class (p := isIndent) (forall_of_all (by decide)) (line.indent.all c hc)
  obtain ⟨s₁, hs₁, hrun₁⟩ := hindent s hs
  obtain ⟨s₂, hs₂, hrun₂⟩ := (line.name.shows_left.append hshows) s₁ hs₁
  refine ⟨s₂, hs₂, fun pos text hend => ?_⟩
  have hcode : line.name.text ++ " = ".toList ++ line.right = line.code := by simp [code]
  rw [hcode] at hrun₂
  rw [hrun₁, hrun₂, scanAssignments_indent colon line.indent.all]
  have hread := line.assignmentAt?_code colon text hshows.length_eq hshown hend
    (pos + line.indent.text.length)
  obtain ⟨c, rest, hname, hc⟩ := line.name.exists_cons
  refine ⟨_, rfl, scanAssignments_take colon ?_ ?_ ?_ hread⟩
  · simp only [← hcode, List.length_append, hshows.length_eq]
  · have hindent : isIndent c = false :=
      not_isIndent_of_class (p := isPathChar) (forall_of_all (by decide)) hc
    simpa [hname] using hindent
  · simp [code]

/-- A line that ends in a line break. -/
theorem scanAssignments_line (hs : s.StandsIn []) (pos : Nat) (rest : Text) :
    ∃ (assignment : Assignment) (s' : Mask.State) (next : Nat),
      (assignment.name, assignment.value) = line.pair ∧ s'.StandsIn [] ∧
        scanAssignments colon 0 0 true pos (line.text ++ ['\n'] ++ rest)
            (Mask.run s (line.text ++ ['\n'] ++ rest)) =
          assignment :: scanAssignments colon 0 0 true next rest (Mask.run s' rest) := by
  obtain ⟨s₁, hs₁, hscan⟩ := line.scanAssignments_code colon hs
  obtain ⟨after, hending, hbreak⟩ := line.shows_ending
  obtain ⟨s₂, hs₂, hrun₂⟩ := hending s₁ hs₁
  obtain ⟨s₃, hs₃, hrun₃⟩ := hbreak s₂ hs₂
  have hmask : Mask.run s₁ (line.ending ++ ('\n' :: rest)) =
      line.ending.map (fun _ => hidden) ++ ('\n' :: Mask.run s₃ rest) := by
    rw [hrun₂]
    exact congrArg _ (hrun₃ rest)
  obtain ⟨assignment, hpair, htake⟩ := hscan pos (line.ending ++ ('\n' :: rest)) (by
    rw [hmask]
    exact extent?_hidden line.ending rfl)
  have htext : line.indent.text ++ (line.code ++ (line.ending ++ ('\n' :: rest))) =
      line.text ++ ['\n'] ++ rest := by simp [text]
  rw [htext, hmask, scanAssignments_hidden, scanAssignments_break] at htake
  exact ⟨assignment, s₃, _, hpair, hs₃, htake⟩

/-- A line at the end of the text. -/
theorem scanAssignments_lastLine (hs : s.StandsIn []) (pos : Nat) :
    ∃ assignment : Assignment, (assignment.name, assignment.value) = line.pair ∧
      scanAssignments colon 0 0 true pos line.text (Mask.run s line.text) = [assignment] := by
  obtain ⟨s₁, hs₁, hscan⟩ := line.scanAssignments_code colon hs
  obtain ⟨after, hending, -⟩ := line.shows_ending
  obtain ⟨s₂, -, hrun₂⟩ := hending s₁ hs₁
  have hmask : Mask.run s₁ (line.ending ++ []) = line.ending.map (fun _ => hidden) ++ [] := hrun₂ []
  obtain ⟨assignment, hpair, htake⟩ := hscan pos (line.ending ++ []) (by
    rw [hmask]
    exact extent?_hidden line.ending rfl)
  refine ⟨assignment, hpair, ?_⟩
  have htext : line.text = line.indent.text ++ (line.code ++ (line.ending ++ [])) := by simp [text]
  rw [htext, htake, hmask, scanAssignments_hidden]
  rfl

end Line

/-- The names and values of assignments. -/
def pairs (assignments : List Assignment) : List (Text × Text) :=
  assignments.map fun assignment => (assignment.name, assignment.value)

/-- The scan gives the lines back one by one. -/
theorem pairs_linesText (lines : List Line) (hs : s.StandsIn []) (pos : Nat)
    (rest : Text) : ∃ (s' : Mask.State) (next : Nat), s'.StandsIn [] ∧
      pairs (scanAssignments colon 0 0 true pos (linesText lines ++ rest)
          (Mask.run s (linesText lines ++ rest))) =
        lines.map Line.pair ++
          pairs (scanAssignments colon 0 0 true next rest (Mask.run s' rest)) := by
  induction lines generalizing s pos with
  | nil => exact ⟨s, pos, hs, rfl⟩
  | cons line lines ih =>
    obtain ⟨assignment, s₁, next₁, hpair, hs₁, hscan⟩ :=
      line.scanAssignments_line colon hs pos (linesText lines ++ rest)
    obtain ⟨s₂, next₂, hs₂, hrest⟩ := ih hs₁ next₁
    refine ⟨s₂, next₂, hs₂, ?_⟩
    have htext : linesText (line :: lines) ++ rest =
        line.text ++ ['\n'] ++ (linesText lines ++ rest) := by simp [linesText]
    rw [htext, hscan, List.map_cons, List.cons_append, ← hrest, ← hpair]
    rfl

theorem pairs_assignments (file : ValueFile) :
    pairs (assignments file.text colon) = file.lines.map Line.pair := by
  obtain ⟨s, next, hs, hlines⟩ := pairs_linesText colon file.ended (s := .start) ⟨rfl, rfl⟩ 0
    ((file.unended.map Line.text).getD [])
  refine hlines.trans ?_
  rw [ValueFile.lines, List.map_append]
  refine congrArg (file.ended.map Line.pair ++ ·) ?_
  cases file.unended with
  | none => rfl
  | some line =>
    obtain ⟨assignment, hpair, hscan⟩ := line.scanAssignments_lastLine colon hs next
    exact (congrArg pairs hscan).trans (congrArg (fun pair => [pair]) hpair)

/-- A look-up in assignments is one in their names and values. -/
theorem find?_pairs (list : List Assignment) (name : Text) :
    (list.find? (·.name = name)).map (·.value) =
      ((pairs list).find? (·.1 = name)).map (·.2) := by
  rw [pairs, List.find?_map, Option.map_map]
  rfl

theorem assignedValue?_eq {text : Text} {lines : List Line}
    (h : pairs (assignments text colon) = lines.map Line.pair) (name : Text) :
    assignedValue? text name colon =
      (lines.find? (·.name.text = name)).map (·.value.text) := by
  rw [assignedValue?, find?_pairs, h, List.find?_map, Option.map_map]
  rfl

/-- Reading a file of assignments gives back what was written: every name with the text
of its literal, in order. Looking a name up gives the first literal assigned to it, and
none if there is none. -/
theorem assignments_file (file : ValueFile) :
    (assignments file.text colon).map (fun assignment => (assignment.name, assignment.value)) =
        file.lines.map (fun line => (line.name.text, line.value.text)) ∧
      ∀ name, assignedValue? file.text name colon =
        (file.lines.find? (·.name.text = name)).map (·.value.text) :=
  ⟨pairs_assignments colon file, assignedValue?_eq colon (pairs_assignments colon file)⟩

end TerraformTrace.Hcl
