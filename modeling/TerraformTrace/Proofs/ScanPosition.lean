import Mathlib.Data.List.Forall2
import TerraformTrace.Scan
import TerraformTrace.Proofs.SearchSpan

/-!
# TerraformTrace.Proofs.ScanPosition

Where the annotations of a document stand. The search runs over the mask and gives positions;
lines and columns are found afterwards, in the text. **Each annotation stands where its
reference is written** (`scan_annotations`): the spans that are found follow one another and
hold the texts of their references, no reference spans two lines, and a position is as far into
the text as its lines and its column say (`line_of_position`).

**Bisection counts lines.** The starts of lines are sorted, so bisection among them comes to the
number of line ends before a position, and what is left of the position is its column
(`lineAndColumn_eq`).

A scan that is cancelled has done the same work up to there, so it gives the first annotations of
the whole scan.
-/

namespace TerraformTrace

open Text

/-! ### Spans -/

/-- What is found later begins behind what is found before. -/
theorem Occurrence.pairwise_scan (skip : Nat) (before : Option Char) (pos : Nat) (text : Text) :
    (scan skip before pos text).Pairwise fun first second => first.stop ≤ second.start := by
  fun_induction scan skip before pos text with
  | case1 => exact .nil
  | case2 _ _ _ _ _ ih => exact ih
  | case3 _ _ _ _ _ ih => exact ih
  | case4 before pos c rest kind segments length hleading more ref hmake ih =>
    refine List.pairwise_cons.mpr ⟨fun later hlater => ?_, ih⟩
    have hstart := le_start_of_mem_scan hlater
    dsimp only
    omega
  | case5 _ _ _ _ _ _ _ _ _ _ _ ih => exact ih

/-- A reference is read back from its text. -/
theorem Reference.IsWellFormed.parse_text {ref : Reference} (h : ref.IsWellFormed) :
    Reference.parse (some ref.text) = .ok ref := by
  have hstrip : strip ref.text = ref.text :=
    strip_eq_self fun c hc => not_isBlank_of_isPathChar (h.isPathChar c hc)
  have hname : isName ref.text = false := by
    refine Bool.eq_false_iff.mpr fun hname => ?_
    have hdot : '.' ∉ ref.text := not_mem_of_isName (by decide) (by decide) hname
    exact hdot (by rw [text_eq]; simp)
  have hmake : make ref.kind ref.segments = .ok ref := dif_pos ref.enough
  simp [parse, hstrip, hname, h.leadingReference?, hmake]

/-- The span of an occurrence holds the text of its reference. -/
theorem slice_of_mem_occurrences {text : Text} {occurrence : Occurrence}
    (h : occurrence ∈ occurrences text) :
    (text.drop occurrence.start).take (occurrence.stop - occurrence.start) =
      occurrence.reference.text := by
  obtain ⟨hword, -, -, hstop⟩ := isWholeWord_of_mem_occurrences h
  obtain ⟨front, rest, rfl, hstart⟩ := exists_append_of_isWholeWord (Reference.text_ne_nil _) hword
  rw [hstop, ← hstart, List.drop_left, Nat.add_sub_cancel_left, List.take_left]

/-! ### Lines -/

/-- A character at the front of a text moves the last line only if there is no other line. -/
theorem length_takeWhile_reverse_cons (c : Char) (front : Text) :
    ((c :: front).reverse.takeWhile (· ≠ '\n')).length =
      (front.reverse.takeWhile (· ≠ '\n')).length +
        if c = '\n' ∨ '\n' ∈ front then 0 else 1 := by
  rw [List.reverse_cons]
  by_cases hmem : '\n' ∈ front
  · have hlast : ((front.reverse ++ [c]).takeWhile (· ≠ '\n')) =
        front.reverse.takeWhile (· ≠ '\n') := by
      rw [List.takeWhile_append, if_neg]
      intro hlength
      have hall := List.all_eq_true.mp
        (List.all_takeWhile (p := (· ≠ '\n')) (l := front.reverse)) '\n'
      rw [(List.takeWhile_prefix _).eq_of_length hlength] at hall
      exact absurd (hall (List.mem_reverse.mpr hmem)) (by decide)
    rw [hlast, if_pos (.inr hmem), Nat.add_zero]
  · have hall : ∀ d ∈ front.reverse, decide (d ≠ '\n') = true := by
      intro d hd
      rw [decide_eq_true_eq]
      rintro rfl
      exact hmem (List.mem_reverse.mp hd)
    have hself := @List.takeWhile_append_of_pos _ _ _ [] hall
    rw [List.append_nil, List.takeWhile_nil, List.append_nil] at hself
    rw [List.takeWhile_append_of_pos hall, hself, List.length_append]
    by_cases hc : c = '\n' <;> simp [hc, hmem]

/-- Line and column of a position, counted in the text before it. -/
def countedPosition (text : Text) (pos : Nat) : Nat × Nat :=
  ((text.take pos).count '\n', ((text.take pos).reverse.takeWhile (· ≠ '\n')).length)

/-- Lines and columns, counted from the front. -/
theorem countedPosition_cons (c : Char) (text : Text) (pos : Nat) :
    countedPosition (c :: text) (pos + 1) =
      ((countedPosition text pos).1 + if c = '\n' then 1 else 0, (countedPosition text pos).2 +
          if c = '\n' ∨ (countedPosition text pos).1 ≠ 0 then 0 else 1) := by
  simp only [countedPosition, List.take_succ_cons, List.count_cons, beq_iff_eq,
    length_takeWhile_reverse_cons, ne_eq, List.count_eq_zero, Decidable.not_not]

/-- The first line is the first of the lines. -/
theorem exists_splitAt (text : Text) : ∃ lines, splitAt '\n' text = firstLine text :: lines := by
  induction text with
  | nil => exact ⟨[], rfl⟩
  | cons c text ih =>
    obtain ⟨lines, hlines⟩ := ih
    by_cases hc : c = '\n'
    · exact ⟨splitAt '\n' text, by simp [splitAt, firstLine, hc]⟩
    · exact ⟨lines, by simp [splitAt, hc, hlines, firstLine]⟩

/-- A position is as far into the text as its lines and its column say, and its line goes on
from there like the text. -/
theorem line_of_position {text : Text} {pos : Nat} (h : pos ≤ text.length) :
    ∃ content, (splitAt '\n' text)[(countedPosition text pos).1]? = some content ∧
      content.drop (countedPosition text pos).2 = firstLine (text.drop pos) ∧
      pos = (((splitAt '\n' text).take (countedPosition text pos).1).flatMap
        (· ++ ['\n'])).length + (countedPosition text pos).2 := by
  induction text generalizing pos with
  | nil =>
    obtain rfl := Nat.le_zero.mp h
    exact ⟨[], rfl, rfl, rfl⟩
  | cons c text ih =>
    cases pos with
    | zero =>
      obtain ⟨lines, hlines⟩ := exists_splitAt (c :: text)
      refine ⟨firstLine (c :: text), ?_, rfl, rfl⟩
      rw [hlines]
      rfl
    | succ pos =>
      obtain ⟨content, hcontent, hdrop, hposition⟩ := ih (Nat.le_of_succ_le_succ h)
      obtain ⟨lines, hlines⟩ := exists_splitAt text
      rw [countedPosition_cons]
      by_cases hc : c = '\n'
      · subst hc
        have hsplit : splitAt '\n' ('\n' :: text) = [] :: splitAt '\n' text := rfl
        refine ⟨content, ?_, ?_, ?_⟩
        · simpa [hsplit] using hcontent
        · simpa using hdrop
        · simp only [hsplit, if_true, true_or, List.take_succ_cons, List.flatMap_cons,
            List.length_append, List.length_singleton, List.length_nil, Nat.add_zero]
          omega
      · have hsplit : splitAt '\n' (c :: text) = (c :: firstLine text) :: lines := by
          simp [splitAt, hc, hlines]
        rw [hlines] at hcontent hposition
        cases hline : (countedPosition text pos).1 with
        | zero =>
          rw [hline] at hcontent hposition
          cases hcontent
          refine ⟨c :: firstLine text, by simp [hsplit, hc], ?_, ?_⟩
          · simpa [hc] using hdrop
          · simpa [hc] using hposition
        | succ line =>
          rw [hline] at hcontent hposition
          refine ⟨content, by simpa [hsplit, hc] using hcontent, ?_, ?_⟩
          · simpa [hc] using hdrop
          · simp only [List.take_succ_cons, List.flatMap_cons, List.length_append,
              List.length_cons, List.length_nil] at hposition
            simp only [hsplit, hc, if_false, false_or, List.take_succ_cons,
              List.flatMap_cons, List.length_append, List.length_cons, List.length_nil,
              Nat.add_zero, ne_eq, Nat.succ_ne_zero, not_false_eq_true, if_true]
            omega

/-! ### Bisection -/

/-- Of sorted numbers those that are at most `x` come first. -/
theorem getD_le_iff {numbers : List Nat} (hsorted : numbers.Pairwise (· < ·)) {i : Nat}
    (hi : i < numbers.length) (x : Nat) :
    numbers.getD i 0 ≤ x ↔ i < numbers.countP (· ≤ x) := by
  induction numbers generalizing i with
  | nil => cases hi
  | cons a numbers ih =>
    obtain ⟨hfirst, hrest⟩ := List.pairwise_cons.mp hsorted
    by_cases ha : a ≤ x
    · rw [List.countP_cons_of_pos (by simpa using ha)]
      cases i with
      | zero => simpa using ha
      | succ i =>
        rw [List.getD_cons_succ, ih hrest (Nat.lt_of_succ_lt_succ hi)]
        omega
    · have hnone : numbers.countP (· ≤ x) = 0 := by
        rw [List.countP_eq_zero]
        intro b hb
        have hlt := hfirst b hb
        simp only [decide_eq_true_eq]
        omega
      rw [List.countP_cons_of_neg (by simpa using ha), hnone]
      refine ⟨fun hle => ?_, nofun⟩
      cases i with
      | zero => exact absurd hle ha
      | succ i =>
        rw [List.getD_cons_succ, ih hrest (Nat.lt_of_succ_lt_succ hi), hnone] at hle
        omega

/-- Bisection counts the numbers that are at most `x`: the count stays between the two ends
while they come together. -/
theorem bisectRight_eq {numbers : List Nat} (hsorted : numbers.Pairwise (· < ·))
    {x low high : Nat} (hlow : low ≤ numbers.countP (· ≤ x))
    (hhigh : numbers.countP (· ≤ x) ≤ high) (hlength : high ≤ numbers.length) :
    bisectRight numbers.toArray x low high = numbers.countP (· ≤ x) := by
  fun_induction bisectRight numbers.toArray x low high with
  | case1 low high hlt middle hless ih =>
    have hmiddle : middle < numbers.length := by omega
    refine ih hlow ?_ (by omega)
    rw [← Nat.not_lt, ← getD_le_iff hsorted hmiddle]
    simpa using hless
  | case2 low high hlt middle hless ih =>
    have hmiddle : middle < numbers.length := by omega
    refine ih ?_ hhigh hlength
    have hle : numbers.getD middle 0 ≤ x := by simpa using hless
    exact (getD_le_iff hsorted hmiddle x).mp hle
  | case3 low high hlt => omega

theorem lt_of_mem_lineStartsFrom {pos start : Nat} {text : Text}
    (h : start ∈ lineStartsFrom pos text) : pos < start := by
  fun_induction lineStartsFrom pos text with
  | case1 => cases h
  | case2 pos rest ih =>
    rcases List.mem_cons.mp h with rfl | hrest
    · omega
    · have hlt := ih hrest
      omega
  | case3 pos c rest _ ih =>
    have hlt := ih h
    omega

theorem pairwise_lineStartsFrom (pos : Nat) (text : Text) :
    (lineStartsFrom pos text).Pairwise (· < ·) := by
  fun_induction lineStartsFrom pos text with
  | case1 => exact .nil
  | case2 pos rest ih =>
    exact .cons (fun start hstart => lt_of_mem_lineStartsFrom hstart) ih
  | case3 pos c rest _ ih => exact ih

/-- As many lines start up to a position as there are line ends before it. -/
theorem countP_lineStartsFrom (start count : Nat) (text : Text) :
    (lineStartsFrom start text).countP (· ≤ start + count) = (text.take count).count '\n' := by
  induction text generalizing start count with
  | nil => simp [lineStartsFrom]
  | cons c text ih =>
    cases count with
    | zero =>
      rw [List.take_zero, List.count_nil, List.countP_eq_zero]
      intro later hlater
      have hlt := lt_of_mem_lineStartsFrom hlater
      simp only [decide_eq_true_eq]
      omega
    | succ count =>
      have hrest := ih (start + 1) count
      rw [Nat.add_right_comm, Nat.add_assoc] at hrest
      rw [lineStartsFrom, List.take_succ_cons, List.count_cons]
      split
      next hc => simp [hc, hrest]
      next hc => simp [hc, hrest]

/-- The line that a position is on starts as far before it as its column says. -/
theorem getD_lineStartsFrom {text : Text} {pos : Nat} (h : pos ≤ text.length) (start : Nat) :
    (start :: lineStartsFrom start text).getD (countedPosition text pos).1 0 +
      (countedPosition text pos).2 = start + pos := by
  induction text generalizing pos start with
  | nil =>
    obtain rfl := Nat.le_zero.mp h
    rfl
  | cons c text ih =>
    cases pos with
    | zero => rfl
    | succ pos =>
      have hrest := ih (Nat.le_of_succ_le_succ h) (start + 1)
      rw [countedPosition_cons, lineStartsFrom]
      by_cases hc : c = '\n'
      · simp only [hc, if_true, true_or, List.getD_cons_succ]
        omega
      · cases hline : (countedPosition text pos).1 with
        | zero =>
          rw [hline] at hrest
          simp only [List.getD_cons_zero] at hrest
          simp only [hc, if_false, false_or, ne_eq, not_true_eq_false, Nat.add_zero,
            List.getD_cons_zero]
          omega
        | succ line =>
          rw [hline, List.getD_cons_succ] at hrest
          simp only [hc, if_false, false_or, ne_eq, Nat.succ_ne_zero, not_false_eq_true, if_true,
            List.getD_cons_succ]
          omega

/-- Bisection among the starts of lines comes to what counting line ends comes to. -/
theorem lineAndColumn_eq {text : Text} {pos : Nat} (h : pos ≤ text.length) :
    lineAndColumn (lineStarts text) pos = countedPosition text pos := by
  have hsorted : (0 :: lineStartsFrom 0 text).Pairwise (· < ·) :=
    .cons (fun start hstart => lt_of_mem_lineStartsFrom hstart) (pairwise_lineStartsFrom 0 text)
  have hcount : (0 :: lineStartsFrom 0 text).countP (· ≤ pos) =
      (countedPosition text pos).1 + 1 := by
    have hstarts := countP_lineStartsFrom 0 pos text
    rw [Nat.zero_add] at hstarts
    rw [List.countP_cons_of_pos (by simp), hstarts, countedPosition]
  have hline : bisectRight (lineStarts text) pos 0 (lineStarts text).size =
      (countedPosition text pos).1 + 1 := by
    rw [← hcount]
    exact bisectRight_eq hsorted (Nat.zero_le _) List.countP_le_length (Nat.le_refl _)
  have hcolumn := getD_lineStartsFrom h 0
  have hstart : (lineStarts text).getD (countedPosition text pos).1 0 =
      (0 :: lineStartsFrom 0 text).getD (countedPosition text pos).1 0 := by
    simp [lineStarts]
  rw [lineAndColumn, hline, Nat.add_sub_cancel, hstart]
  exact Prod.ext rfl (by dsimp only; omega)

/-! ### Annotations -/

/-- An annotation of an occurrence: the line it names, counted from the first line of the region,
carries the reference at the column, and this is where the occurrence stands. -/
structure AnnotatedReference.Marks (entry : AnnotatedReference) (text : Text) (offset : Nat)
    (occurrence : Occurrence) : Prop where
  reference : entry.reference = occurrence.reference.text
  offset_le : offset ≤ entry.line
  line : ∃ content, (splitAt '\n' text)[entry.line - offset]? = some content ∧
    entry.reference <+: content.drop entry.column
  position : occurrence.start =
    (((splitAt '\n' text).take (entry.line - offset)).flatMap (· ++ ['\n'])).length +
      entry.column

/-- The line and the column of an occurrence mark it. -/
theorem marks_of_lineAndColumn {text : Text} {occurrence : Occurrence}
    (h : occurrence ∈ occurrences text) (offset : Nat) (values : List SharedValue) :
    AnnotatedReference.Marks
      { reference := occurrence.reference.text
        line := (((lineAndColumn (lineStarts text) occurrence.start).1 : Int) + offset).toNat
        column := (lineAndColumn (lineStarts text) occurrence.start).2, values }
      text offset occurrence := by
  have hformed := Reference.isWellFormed_of_mem_scan h
  obtain ⟨hword, -⟩ := isWholeWord_of_mem_occurrences h
  obtain ⟨front, rest, rfl, hfront⟩ :=
    exists_append_of_isWholeWord (Reference.text_ne_nil _) hword
  have hle : occurrence.start ≤ (front ++ (occurrence.reference.text ++ rest)).length := by
    rw [← hfront, List.length_append]
    exact Nat.le_add_right ..
  obtain ⟨content, hcontent, hdrop, hposition⟩ := line_of_position hle
  rw [lineAndColumn_eq hle]
  have hline : (((countedPosition (front ++ (occurrence.reference.text ++ rest))
      occurrence.start).1 : Int) + offset).toNat - offset =
        (countedPosition (front ++ (occurrence.reference.text ++ rest)) occurrence.start).1 := by
    omega
  refine ⟨rfl, by dsimp only; omega, ⟨content, by rw [hline]; exact hcontent, ?_⟩,
    by rw [hline]; exact hposition⟩
  -- a reference holds no line break, so all of it stands on the line
  have hnobreak : ∀ c ∈ occurrence.reference.text, decide (c ≠ '\n') = true := by
    intro c hc
    rw [decide_eq_true_eq]
    exact ne_of_isPathChar (hformed.isPathChar c hc) (by decide)
  rw [hdrop, ← hfront, List.drop_left, firstLine, List.takeWhile_append_of_pos hnobreak]
  exact List.prefix_append ..

section Annotate

variable {ws : Workspace} {gather : Gather} {text : Text} {candidates : List Path} {offset : Nat}

/-- One occurrence is annotated, and then the others, in the state that is reached. -/
theorem annotate_cons {cancellation : Cancellation} (h : cancellation ≠ some 0)
    {occurrence : Occurrence} {s s' : Session} {values : List ContextValue}
    (hvalues : gather ws (.reference occurrence.reference) candidates s = (values, s'))
    (starts : Array Nat) (rest : List Occurrence) :
    (annotate ws gather starts candidates offset cancellation (occurrence :: rest) s).1 =
      (annotate ws gather starts candidates offset (cancellation.map (· - 1)) rest s').1.map
        (AnnotatedReference.mk occurrence.reference.text
          (((lineAndColumn starts occurrence.start).1 : Int) + offset).toNat
          (lineAndColumn starts occurrence.start).2 (mergeValues values) :: ·) := by
  have hline : ¬((lineAndColumn starts occurrence.start).1 : Int) + offset < 0 := by omega
  rw [annotate.eq_3 _ _ _ _ _ _ _ _ h]
  simp only [bind, StateT.bind, pure, if_neg hline, hvalues]
  obtain ⟨result, s'⟩ :=
    annotate ws gather starts candidates offset (cancellation.map (· - 1)) rest s'
  cases result <;> rfl

/-- Every occurrence gets an annotation, and cancelling the scan leaves those made so far. -/
theorem exists_annotate {found : List Occurrence}
    (h : ∀ occurrence ∈ found, occurrence ∈ occurrences text) (s : Session) :
    ∃ annotations, (annotate ws gather (lineStarts text) candidates offset none found s).1 =
        .ok annotations ∧
      (∀ n, (annotate ws gather (lineStarts text) candidates offset (some n) found s).1 =
        .ok (annotations.take n)) ∧
      List.Forall₂ (AnnotatedReference.Marks · text offset ·) annotations found := by
  induction found generalizing s with
  | nil => exact ⟨[], rfl, fun n => by cases n <;> rfl, .nil⟩
  | cons occurrence rest ih =>
    obtain ⟨hfirst, hrest⟩ := List.forall_mem_cons.mp h
    obtain ⟨values, s', hvalues⟩ : ∃ values s', gather ws
      (.reference occurrence.reference) candidates s = (values, s') := ⟨_, _, rfl⟩
    obtain ⟨annotations, hmore, hcancelled, hmarks⟩ := ih hrest s'
    rw [annotate_cons (Option.some_ne_none 0).symm hvalues, Option.map_none, hmore]
    refine ⟨_, rfl, fun n => ?_, .cons (marks_of_lineAndColumn hfirst offset _) hmarks⟩
    cases n with
    | zero => rfl
    | succ n =>
      rw [annotate_cons (by simp) hvalues, Option.map_some, Nat.add_sub_cancel, hcancelled]
      rfl

end Annotate

/-- **Annotations stand where their references are written.** The occurrences of a text follow one
another without overlapping, and the span of each holds a text that is read as its reference. A
scan of the text gives one annotation for each of them, in their order, and one that is cancelled
gives the first of these, in whatever way their values are gathered; it fails only if the paths to
look up cannot be used, and then it fails at once. -/
theorem scan_annotations (ws : Workspace) (gather : Gather) (text : Text) (document : Path)
    (offset : Nat) (cancellation : Cancellation) (s : Session) :
    ((occurrences text).Pairwise fun first second => first.stop ≤ second.start) ∧
    (∀ occurrence ∈ occurrences text, occurrence.start < occurrence.stop ∧
      (text.drop occurrence.start).take (occurrence.stop - occurrence.start) =
        occurrence.reference.text ∧
      Reference.parse
        (some ((text.drop occurrence.start).take (occurrence.stop - occurrence.start))) =
          .ok occurrence.reference) ∧
    ((∃ error, candidateDirectories ws document.parent = .error error ∧
        (scan ws text document offset none gather s).1 = .error (.unusablePath error) ∧
        (scan ws text document offset cancellation gather s).1 = .error (.unusablePath error)) ∨
      ∃ annotations,
        (scan ws text document offset none gather s).1 = .ok annotations ∧
        (scan ws text document offset cancellation gather s).1 =
          .ok (annotations.take (cancellation.getD annotations.length)) ∧
        List.Forall₂ (AnnotatedReference.Marks · text offset ·) annotations
          (occurrences text)) := by
  refine ⟨Occurrence.pairwise_scan .., fun occurrence hmem => ?_, ?_⟩
  · rw [slice_of_mem_occurrences hmem]
    exact ⟨(Occurrence.stop_of_mem_scan hmem).1, rfl,
      (Reference.isWellFormed_of_mem_scan hmem).parse_text⟩
  · cases hcandidates : candidateDirectories ws document.parent with
    | error error =>
      refine .inl ⟨error, rfl, ?_, ?_⟩
      all_goals
        simp only [scan, hcandidates]
        rfl
    | ok candidates =>
      obtain ⟨annotations, hwhole, hcancelled, hmarks⟩ :=
        exists_annotate (fun _ => id) s
      refine .inr ⟨annotations, ?_, ?_, hmarks⟩
      · simp only [scan, hcandidates]
        exact hwhole
      · simp only [scan, hcandidates]
        cases cancellation with
        | none =>
          rw [Option.getD_none, List.take_length]
          exact hwhole
        | some n => exact hcancelled n

end TerraformTrace
