import TerraformTrace.Proofs.MaskBrace
import TerraformTrace.Proofs.ValueSource

/-!
# TerraformTrace.Proofs.StatementSpan

The spans of statements. Whatever the text, **the assignments read from it span pieces of it that
follow each other**, each from the first character of a key to the end of a value.

The quotes around the name of a key match, since behind a quote that opens a string no operator
is seen. This needs a key that begins in code. Elsewhere the mask shows little: in a comment
nothing; of a heredoc its first and last line, in which no operator stands
(`State.OwesLine`); and of a string the quote that closes it. So there is one exception:
the end of an interpolation is shown as a blank, and if the interpolation spans lines, then a
quote right behind it is taken for the beginning of a statement.
-/

namespace TerraformTrace.Hcl

open Text

theorem Mask.keep_of_apply {cover : Cover} {c : Char} (h : cover.apply c = c) (hspace : c ≠ ' ')
    (hhidden : c ≠ hidden) : cover = .keep := by
  cases cover with
  | keep => rfl
  | blank => exact absurd h.symm hspace
  | hide => exact absurd h.symm hhidden

/-! ### Keys as they are written -/

/-- A name with what may stand around it, up to the operator. -/
structure KeyText where
  opening : Text
  name : Text
  closing : Text
  gap : Text
  operator : Char
  isQuote_opening : IsQuote opening
  isName_name : isName name = true
  isQuote_closing : IsQuote closing
  isGap_gap : ∀ c ∈ gap, isGap c = true
  operator_eq : operator = '=' ∨ operator = ':'

namespace KeyText

/-- What stands before the operator. -/
def front (key : KeyText) : Text := key.opening ++ key.name ++ key.closing ++ key.gap

/-- The key with its operator. -/
def text (key : KeyText) : Text := key.front ++ [key.operator]

/-- The characters of a key. -/
def isKeyChar (c : Char) : Bool := isNameRest c || c = '"' || isGap c

variable (key : KeyText)

theorem isKeyChar_of_mem {c : Char} (hc : c ∈ key.front) : isKeyChar c = true := by
  have hquote : ∀ {quote : Text}, IsQuote quote → c ∈ quote → isKeyChar c = true := by
    rintro quote (rfl | rfl) hmem
    · cases hmem
    · rw [List.mem_singleton.mp hmem]
      decide
  simp only [front, List.mem_append] at hc
  rcases hc with ((hc | hc) | hc) | hc
  · exact hquote key.isQuote_opening hc
  · simp [isKeyChar, isNameRest_of_mem key.isName_name hc]
  · exact hquote key.isQuote_closing hc
  · simp [isKeyChar, key.isGap_gap c hc]

/-- A key stands on one line. -/
theorem operator_mem_firstLine (rest : Text) : key.operator ∈ firstLine (key.text ++ rest) := by
  have hfront : '\n' ∉ key.front := fun hbreak => absurd (key.isKeyChar_of_mem hbreak) (by decide)
  have hline : '\n' ∉ key.text := by
    rcases key.operator_eq with heq | heq <;> simp [text, hfront, heq]
  rw [Mask.firstLine_append_of_not_mem hline]
  simp [text]

/-- No operator stands in the first or the last line of a heredoc. -/
theorem not_isLineChar_operator : ¬Mask.isLineChar key.operator = true := by
  rcases key.operator_eq with heq | heq <;> rw [heq] <;> decide

/-- A key begins with its name or with a quote before it. -/
theorem exists_cons : ∃ c more, key.text = c :: more ∧
    (isNameStart c || c = '"') = true ∧ (c = '"' → key.opening = ['"']) := by
  rcases key.isQuote_opening with hopening | hopening
  · have hname := key.isName_name
    cases hcons : key.name with
    | nil =>
      rw [hcons] at hname
      cases hname
    | cons c name =>
      rw [hcons, isName, Bool.and_eq_true] at hname
      refine ⟨c, name ++ key.closing ++ key.gap ++ [key.operator], ?_, ?_, ?_⟩
      · simp [text, front, hopening, hcons]
      · rw [hname.1, Bool.true_or]
      · rintro rfl
        exact absurd hname.1 (by decide)
  · exact ⟨'"', key.name ++ key.closing ++ key.gap ++ [key.operator],
      by simp [text, front, hopening], rfl, fun _ => hopening⟩

end KeyText

theorem exists_keyText {colon : Bool} {text : Text} {key : Key} (h : key? colon text = some key) :
    ∃ (written : KeyText) (rest : Text), text = written.text ++ rest ∧ written.name = key.name ∧
      key.length = written.text.length ∧
      startsWithOperator colon (written.operator :: rest) = true := by
  obtain ⟨opening, closing, gap, operator, rest, hopening, hclosing, hgap, hequals, hoperator,
    hname, htext, hlength⟩ := exists_of_key? h
  refine ⟨⟨opening, key.name, closing, gap, operator, hopening, hname, hclosing, hgap, hequals⟩,
    rest, ?_, rfl, ?_, hoperator⟩
  · simp [htext, KeyText.text, KeyText.front]
  · simp only [hlength, KeyText.text, KeyText.front, List.length_append, List.length_singleton]

/-- The quotes around a name match, or what is taken for the first one closes a string. -/
def KeyText.IsQuotedFrom (key : KeyText) (s : Mask.State) : Prop :=
  key.opening = key.closing ∨
    key.opening = ['"'] ∧ key.closing = [] ∧ ∃ modes, s.StandsIn (.string :: modes)

/-- **The quotes of a key that is shown match**, but for a quote that closes a string. -/
theorem isQuotedFrom {s : Mask.State} (written : KeyText) {key : Key} {rest : Text} (hs : s.IsSound)
    (howes : s.OwesLine (written.text ++ rest)) (hlength : key.length = written.text.length)
    (hvisible : key.isVisible (written.text ++ rest) (Mask.run s (written.text ++ rest)) = true) :
    written.IsQuotedFrom s := by
  have hoperator := written.operator_mem_firstLine rest
  have hnot := written.not_isLineChar_operator
  obtain ⟨c, more, htext, hc, hopening⟩ := written.exists_cons
  have hne : ∀ {d}, (isNameStart d || d = '"') = false → c ≠ d := fun hd =>
    ne_of_class (p := fun c => isNameStart c || c = '"') hc hd
  have hkeep : (Mask.step s c (more ++ rest)).1 = .keep := by
    rw [Key.isVisible, Bool.and_eq_true, decide_eq_true_eq, htext, List.cons_append, Mask.run_cons,
      List.head?_cons, List.head?_cons, Option.some.injEq] at hvisible
    exact Mask.keep_of_apply hvisible.1 (hne (by decide)) (hne (by decide))
  have hcons : written.text ++ rest = c :: (more ++ rest) := by rw [htext, List.cons_append]
  rw [hcons] at howes hoperator
  cases Mask.exposes hkeep with
  | owed howed hcover => exact absurd ((howes howed hcover).2 _ hoperator) hnot
  | code hcode =>
    have hshown : written.text ++ rest = written.front ++ written.operator :: rest := by
      simp [KeyText.text]
    have hfront : key.length = written.front.length + 1 := by simp [hlength, KeyText.text]
    rw [hshown] at hvisible
    exact .inl (opening_eq_closing hcode.1 ⟨rfl, hcode.2⟩ written.isQuote_opening
      written.isName_name written.isQuote_closing written.isGap_gap written.operator_eq
      (getElem?_operator hfront hvisible))
  | quote modes hstring hquote =>
    rcases written.isQuote_closing with hclosing | hclosing
    · exact .inr ⟨hopening hquote, hclosing, modes, hstring⟩
    · exact .inl ((hopening hquote).trans hclosing.symm)
  | lastLine marker hmarker hterminator _ =>
    exact absurd (Mask.isLineChar_of_isTerminator (hs.nested.markers marker hmarker)
      hterminator hoperator) hnot
  | lineBreak hbreak => exact absurd hbreak (hne (by decide))

theorem isQuotedFrom_of_isVisible (written : KeyText) {key : Key} {front rest : Text}
    (hlength : key.length = written.text.length)
    (hvisible : key.isVisible (written.text ++ rest) (Mask.run
      (Mask.stateBefore .start front (written.text ++ rest)) (written.text ++ rest)) = true) :
    written.IsQuotedFrom (Mask.stateBefore .start front (written.text ++ rest)) :=
  isQuotedFrom written (Mask.State.IsSound.start.stateBefore _ _)
    (.stateBefore .start (.of_owed rfl)) hlength hvisible

/-! ### Values -/

/-- What is read for a value behind an operator: the body of a heredoc, or a piece of the span. -/
def IsValueIn (rest span value : Text) : Prop :=
  match Heredoc.header? (rest.dropWhile isGap) with
  | some header => value = (Heredoc.body header ((rest.dropWhile isGap).drop header.length)).1
  | none => value <:+: span

theorem IsValueIn.mono {rest span wider value : Text} (h : IsValueIn rest span value)
    (hwider : span <:+: wider) : IsValueIn rest wider value := by
  unfold IsValueIn at h ⊢
  split at h
  · exact h
  · exact h.trans hwider

theorem firstLine_isPrefix (text : Text) : firstLine text <+: text := List.takeWhile_prefix _

theorem stripRight_isPrefix (text : Text) : stripRight text <+: text := by
  obtain ⟨blanks, -, htext⟩ := exists_dropRightWhile isBlank text
  exact ⟨blanks, htext.symm⟩

theorem strip_isInfix (text : Text) : strip text <:+: text :=
  (stripRight_isPrefix _).isInfix.trans (List.dropWhile_suffix _).isInfix

/-- A value ends inside the text, whether its brackets are closed or not and whether its heredoc
is. -/
theorem readValue_span {text shown : Text} (hlength : shown.length = text.length) :
    (readValue text shown).2 ≤ text.length ∧
      IsValueIn text (text.take (readValue text shown).2) (readValue text shown).1 := by
  have hgap := congrArg List.length (takeWhile_append_drop isGap text)
  rw [List.length_append] at hgap
  have hspan : ∀ n, (text.drop (text.takeWhile isGap).length).take n <:+:
      text.take ((text.takeWhile isGap).length + n) := by
    intro n
    rw [List.take_drop]
    exact (List.drop_suffix _ _).isInfix
  cases hheader : Heredoc.header? (text.drop (text.takeWhile isGap).length) with
  | some header =>
    obtain ⟨line, rest, htext, rfl⟩ := exists_of_header? hheader
    have hheaderLength := congrArg List.length htext
    simp only [List.length_append, List.length_drop] at hheaderLength
    simp only [IsValueIn, ← drop_takeWhile, readValue, hheader, and_true, Heredoc.body,
      HeaderLine.header, List.length_drop]
    omega
  | none =>
    simp only [IsValueIn, ← drop_takeWhile, readValue, hheader]
    cases hextent : extent? 0 (shown.drop (text.takeWhile isGap).length) with
    | some n =>
      have hle := extent?_le hextent
      rw [List.length_drop, hlength] at hle
      rw [List.length_drop] at hgap
      dsimp only
      exact ⟨by omega, (stripRight_isPrefix _).isInfix.trans (hspan n)⟩
    | none =>
      have hle := length_firstLine_le (text.drop (text.takeWhile isGap).length)
      have hline := hspan (firstLine (text.drop (text.takeWhile isGap).length)).length
      rw [← List.prefix_iff_eq_take.mp (firstLine_isPrefix _)] at hline
      dsimp only
      exact ⟨by omega, (strip_isInfix _).trans hline⟩

/-! ### The scan -/

section Scan

variable {colon fresh : Bool} {skip depth pos : Nat} {text mask : Text}

theorem start_of_assignmentAt? {length : Nat} {assignment : Assignment}
    (h : assignmentAt? colon pos text mask = some (assignment, length)) :
    assignment.start = pos ∧ assignment.stop = pos + length := by
  obtain ⟨-, -, -, -, hstart, hstop, -⟩ := exists_of_assignmentAt? h
  exact ⟨hstart, hstop⟩

/-- Nothing is read before the characters that are passed over. -/
theorem le_start_of_mem {assignment : Assignment}
    (h : assignment ∈ scanAssignments colon skip depth fresh pos text mask) :
    pos + skip ≤ assignment.start := by
  fun_induction scanAssignments colon skip depth fresh pos text mask with
  | case1 => cases h
  | case2 => cases h
  | case3 depth fresh pos skip c text m mask ih =>
    have := ih h
    omega
  | case4 depth fresh pos c text m mask _ _ ih =>
    have := ih h
    omega
  | case5 depth fresh pos c text m mask _ _ found length hread ih =>
    rcases List.mem_cons.mp h with rfl | h
    · exact Nat.le_of_eq (start_of_assignmentAt? hread).1.symm
    · have := ih h
      omega
  | case6 depth fresh pos c text m mask _ _ _ ih =>
    have := ih h
    omega
  | case7 depth fresh pos c text m mask _ ih =>
    have := ih h
    omega

/-- Each assignment ends before the next one starts. -/
theorem pairwise_scanAssignments : (scanAssignments colon skip depth fresh pos text mask).Pairwise
      fun earlier later => earlier.stop ≤ later.start := by
  fun_induction scanAssignments colon skip depth fresh pos text mask with
  | case1 => exact .nil
  | case2 => exact .nil
  | case5 depth fresh pos c text m mask _ _ found length hread ih =>
    refine List.pairwise_cons.mpr ⟨fun later hlater => ?_, ih⟩
    have hle := le_start_of_mem hlater
    rw [(start_of_assignmentAt? hread).2]
    omega
  | _ => assumption

/-- The scan ends with the text. -/
theorem length_scanAssignments :
    (scanAssignments colon skip depth fresh pos text mask).length ≤ text.length := by
  fun_induction scanAssignments colon skip depth fresh pos text mask with
  | case1 => exact Nat.le_refl 0
  | case2 => exact Nat.zero_le _
  | case5 => exact Nat.succ_le_succ (by assumption)
  | _ => exact Nat.le_succ_of_le (by assumption)

end Scan

/-! ### Statements -/

/-- What an assignment spans: from the first character of a key, which is shown, to the end of a
value behind its operator. -/
structure IsStatement (text : Text) (colon : Bool) (assignment : Assignment) : Prop where
  nonempty : assignment.start < assignment.stop
  inside : assignment.stop ≤ text.length
  shown : (mask text)[assignment.start]? = text[assignment.start]?
  written : ∃ (key : KeyText) (rest : Text), key.name = assignment.name ∧
    text.drop assignment.start = key.text ++ rest ∧
    startsWithOperator colon (key.operator :: rest) = true ∧
    key.IsQuotedFrom
      (Mask.stateBefore .start (text.take assignment.start) (text.drop assignment.start)) ∧
    IsValueIn rest ((text.take assignment.stop).drop assignment.start) assignment.value

/-- The rest of a mask is shown from the state before it. -/
theorem drop_mask {text : Text} {n : Nat} (h : n ≤ text.length) :
    (mask text).drop n =
      Mask.run (Mask.stateBefore .start (text.take n) (text.drop n)) (text.drop n) := by
  have hdrop := Mask.drop_run .start (text.take n) (text.drop n)
  rwa [List.take_append_drop, List.length_take_of_le h] at hdrop

theorem isStatement_of_mem {text : Text} {colon : Bool} {assignment : Assignment}
    (h : assignment ∈ assignments text colon) : IsStatement text colon assignment := by
  obtain ⟨length, hread, -⟩ :=
    exists_of_mem_scanAssignments [] [] rfl rfl (fun _ => ⟨rfl, rfl, by simp⟩) h
  rw [List.nil_append, List.nil_append] at hread
  obtain ⟨key, hkey, hvisible, hname, -, hstop, hread⟩ := exists_of_assignmentAt? hread
  obtain ⟨written, rest, htext, hwritten, hlength, hoperator⟩ := exists_keyText hkey
  rw [htext, hlength, List.drop_left' rfl, Prod.mk.injEq] at hread
  -- the span begins inside the text, since its key is not empty
  have hkeyLength : 0 < written.text.length := by simp [KeyText.text]
  have htail := congrArg List.length htext
  rw [List.length_drop, List.length_append] at htail
  have hmask := drop_mask (show assignment.start ≤ text.length by omega)
  obtain ⟨hle, hvalue⟩ := @readValue_span rest
    (((mask text).drop assignment.start).drop written.text.length) (by
      simp only [List.length_drop, length_mask]
      omega)
  rw [← hread.1] at hvalue
  refine ⟨by omega, by omega, ?_, written, rest, hwritten.trans hname.symm, htext, hoperator,
    ?_, ?_⟩
  · rw [Key.isVisible, Bool.and_eq_true, decide_eq_true_eq] at hvisible
    simpa using hvisible.1
  · rw [hmask, htext] at hvisible
    rw [htext]
    exact isQuotedFrom_of_isVisible written hlength hvisible
  · refine hvalue.mono ?_
    rw [hstop, hread.2, ← List.take_drop, htext, List.take_length_add_append]
    exact (List.suffix_append _ _).isInfix

/-- **The assignments of a text span pieces of it that follow each other**, each from a key that
is shown to the end of its value. -/
theorem assignments_spans (text : Text) (colon : Bool) :
    (assignments text colon).length ≤ text.length ∧
    (assignments text colon).Pairwise (fun earlier later => earlier.stop ≤ later.start) ∧
    ∀ assignment ∈ assignments text colon, IsStatement text colon assignment :=
  ⟨length_scanAssignments, pairwise_scanAssignments, fun _ => isStatement_of_mem⟩

/-- A bracket and a heredoc that are never closed, and a quoted key between them. -/
def unclosedFile : Text := "a = [1,\n \"b\" : f(x,\n) # y\nc = <<E\n d\n".toList

def unclosedHeredoc : Assignment where
  name := "c".toList
  value := " d".toList
  start := 26
  stop := 37

theorem assignments_spans_unclosed :
    (assignments unclosedFile true).map (fun found => (found.start, found.stop)) =
      [(0, 7), (9, 22), (26, 37)] ∧
    unclosedHeredoc ∈ assignments unclosedFile true ∧
    IsStatement unclosedFile true unclosedHeredoc :=
  ⟨by decide, by decide, (assignments_spans unclosedFile true).2.2 unclosedHeredoc (by decide)⟩

/-- Behind an interpolation that spans lines, the quote that closes the string is taken for the
quote before a name. -/
theorem closingQuote_begins_statement :
    assignments "\"$\x7b\n\x7d\"b = 1".toList = [⟨"b".toList, "1".toList, 5, 11⟩] ∧
    ∀ (key : KeyText) (rest : Text), key.name = "b".toList →
      "\"$\x7b\n\x7d\"b = 1".toList.drop 5 = key.text ++ rest → key.opening ≠ key.closing := by
  refine ⟨by decide, fun key rest hname htext hquotes => ?_⟩
  rw [KeyText.text, KeyText.front, ← hquotes, hname] at htext
  rcases key.isQuote_opening with hopening | hopening <;> rw [hopening] at htext <;> simp at htext

end TerraformTrace.Hcl
