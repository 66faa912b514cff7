import TerraformTrace.Proofs.HeredocText
import TerraformTrace.Proofs.MaskRestart

/-!
# TerraformTrace.Proofs.LiteralContent

What is written as a string or as a heredoc is blanked, and **what comes after it is read as
a text of its own**. The two kinds of literal are opened here one after the other:

- a quoted string, whose characters are taken in the groups that the machine takes them in
  (`isLiteralContent`): an escape, an escaped interpolation, any other character. No group
  opens an interpolation, so the string ends at the quote (`shows_literalContent`);
- a heredoc, line by line. A line is read in the same way wherever it stands, but for the
  test at its beginning whether it is the last one (`State.InBody`).

The kinds differ in one point. A doubled dollar sign takes an interpolation its meaning in a
string, and **does not in a heredoc**: there the content is blanked if it holds no `${` at all.
-/

namespace TerraformTrace.Hcl

open Text

/-- How literal content is shown: as spaces, with its line breaks. -/
def blanked (content : Text) : Text := content.map fun c => if c = '\n' then '\n' else ' '

theorem blanked_append (front back : Text) :
    blanked (front ++ back) = blanked front ++ blanked back :=
  List.map_append

theorem blanked_cons {c : Char} (hc : c ≠ '\n') (rest : Text) :
    blanked (c :: rest) = ' ' :: blanked rest := by
  simp [blanked, hc]

/-! ### Strings -/

/-- Whether a text can stand in a string without an interpolation: every quote is escaped, no
line ends, and every `${` is the end of an escape `$${`. -/
def isLiteralContent : Text → Bool
  | [] => true
  | '\\' :: c :: rest => c ≠ '\n' && isLiteralContent rest
  | '$' :: '$' :: '{' :: rest => isLiteralContent rest
  | '$' :: '{' :: _ => false
  | c :: rest => c ≠ '\\' && c ≠ '"' && c ≠ '\n' && isLiteralContent rest

/-- A string without an interpolation is blanked up to its closing quote. -/
theorem Mask.shows_literalContent {content : Text} (h : isLiteralContent content = true)
    (modes : List Mode) :
    Shows (.string :: modes) (content ++ ['"']) (blanked content ++ ['"']) modes := by
  fun_induction isLiteralContent content with
  | case1 => exact shows_closeQuote modes
  | case2 c rest ih =>
    simp only [Bool.and_eq_true, decide_eq_true_eq] at h
    rw [blanked_cons (by decide), blanked_cons h.1]
    exact (shows_escape h.1).append (ih h.2)
  | case3 rest ih =>
    rw [blanked_cons (by decide), blanked_cons (by decide), blanked_cons (by decide)]
    exact shows_escapedInterpolation.append (ih h)
  | case4 => cases h
  | case5 c rest hescape hescaped hopen ih =>
    simp only [Bool.and_eq_true, decide_eq_true_eq] at h
    obtain ⟨⟨⟨hbackslash, hquote⟩, hline⟩, hrest⟩ := h
    rw [blanked_cons hline]
    by_cases hdollar : c = '$'
    · subst hdollar
      -- neither `{` nor `${` follows, or the groups above would have been taken
      refine (ih hrest).dollar (fun after hhead => ?_) fun after => ?_
      · cases rest with
        | nil => simp at hhead
        | cons d rest =>
          simp only [List.cons_append, List.head?_cons, Option.some.injEq] at hhead
          exact hopen rest rfl (by rw [hhead])
      · match rest with
        | [] => rfl
        | [d] => simp [List.isPrefixOf]
        | d :: e :: rest =>
          rw [Bool.eq_false_iff]
          intro hfollows
          simp only [List.cons_append, List.isPrefixOf, Bool.and_true, Bool.and_eq_true,
            beq_iff_eq] at hfollows
          exact hescaped rest rfl (by rw [← hfollows.1, ← hfollows.2])
    · exact (shows_stringChar hbackslash hdollar hquote hline).cons (ih hrest)

/-! ### Heredocs -/

namespace Mask

variable {s : State} {modes : List Mode} {marker line : Text} {rest : Text}

theorem step_of_heredoc (hs : s.StandsIn (.heredoc marker :: modes)) (c : Char) (rest : Text) :
    step s c rest = heredocStep marker s c rest := by
  unfold step
  rw [hs.1, hs.2]

/-- A character of a line that is not the last one. -/
theorem step_of_heredocLine (hs : s.StandsIn (.heredoc marker :: modes)) {c : Char}
    (hlast : (s.lineStart && Heredoc.isTerminator marker (firstLine (c :: rest))) = false) :
    step s c rest =
      if c = '$' && rest.head? = some '{' then
        (.blank, { s with lineStart := c = '\n' }.interpolate)
      else if c = '\n' then (.keep, { s with lineStart := c = '\n' })
      else (.blank, { s with lineStart := c = '\n' }) := by
  rw [step_of_heredoc hs, heredocStep]
  simp only [hlast]
  rfl

theorem Cover.map_keep (text : Text) : text.map Cover.keep.apply = text := List.map_id text

/-- The header of a heredoc is code, and its body begins with a line. -/
theorem run_header (hcode : isCode modes = true) (hs : s.StandsIn modes) (header : HeaderLine)
    (rest : Text) :
    run s (header.text ++ rest) =
      header.text ++ run { modes := .heredoc header.marker :: modes } rest := by
  obtain ⟨tail, htail⟩ : ∃ tail, header.text = '<' :: tail := ⟨_, rfl⟩
  have hheader : Heredoc.header? ('<' :: (tail ++ rest)) =
      some ⟨header.dashed, header.marker, tail.length + 1⟩ := by
    rw [← List.cons_append, ← htail, header.header?_append rest, HeaderLine.header, htail,
      List.length_cons]
  have hstep : step s '<' (tail ++ rest) =
      (.keep, State.owe { modes := .heredoc header.marker :: modes } tail.length .keep) := by
    rw [step_of_isCode hcode hs, codeStep]
    simp only [hheader, State.owe, State.enter, hs.1]
    rfl
  rw [htail, List.cons_append, run, hstep]
  dsimp only
  rw [run_owe, Cover.map_keep]
  rfl

/-- Inside the body of a heredoc, where its last line does not begin. -/
structure State.InBody (s : State) (marker : Text) (modes : List Mode) (rest : Text) : Prop where
  standsIn : s.StandsIn (.heredoc marker :: modes)
  notLast : (s.lineStart && Heredoc.isTerminator marker (firstLine rest)) = false

/-- A piece of a line that holds no interpolation is blanked. -/
theorem run_heredocPiece {piece rest : Text} (hs : s.InBody marker modes (piece ++ rest))
    (hline : '\n' ∉ piece) (hplain : occursIn ['$', '{'] piece = false)
    (hnext : piece.getLast? = some '$' → rest.head? ≠ some '{') :
    ∃ t : State, t.InBody marker modes rest ∧
      run s (piece ++ rest) = blanked piece ++ run t rest := by
  induction piece generalizing s with
  | nil => exact ⟨s, hs, rfl⟩
  | cons c piece ih =>
    rw [List.cons_append] at hs
    have hc : c ≠ '\n' := fun heq => hline (heq ▸ List.mem_cons_self)
    rw [occursIn, Bool.or_eq_false_iff] at hplain
    have hopen : ¬ (c = '$' ∧ (piece ++ rest).head? = some '{') := by
      rintro ⟨rfl, hhead⟩
      cases piece with
      | nil => exact hnext rfl hhead
      | cons d piece =>
        cases hhead
        cases hplain.1
    have hstep : step s c (piece ++ rest) = (.blank, { s with lineStart := false }) := by
      rw [step_of_heredocLine hs.standsIn hs.notLast]
      simp only [hc, decide_false, ← Bool.decide_and, hopen, Bool.false_eq_true, if_false]
    have hinside : State.InBody { s with lineStart := false } marker modes (piece ++ rest) :=
      ⟨hs.standsIn, rfl⟩
    obtain ⟨t, ht, hrun⟩ := ih hinside (fun hmem => hline (.tail _ hmem)) hplain.2 fun hlast => by
      refine hnext ?_
      cases piece with
      | nil => cases hlast
      | cons d piece => exact hlast
    refine ⟨t, ht, ?_⟩
    rw [List.cons_append, run, hstep, blanked_cons hc]
    exact congrArg (' ' :: ·) hrun

/-- After a line break another line begins. -/
theorem run_heredocBreak (hs : s.InBody marker modes ('\n' :: rest)) :
    run s ('\n' :: rest) = '\n' :: run { modes := .heredoc marker :: modes } rest := by
  have hstep : step s '\n' rest = (.keep, { s with lineStart := true }) := by
    rw [step_of_heredocLine hs.standsIn hs.notLast]
    rfl
  have hlike : State.IsLike { s with lineStart := true } { modes := .heredoc marker :: modes } :=
    .of_eq hs.standsIn.1 rfl hs.standsIn.2 rfl
  rw [run, hstep]
  exact congrArg ('\n' :: ·) (run_eq_of_isLike hlike rest)

/-- At the beginning of a line that is not the last one. -/
theorem inBody_of_isBodyLine (hline : IsBodyLine marker line) (modes : List Mode)
    (hrest : ∀ c ∈ rest.head?, c = '\n') :
    State.InBody { modes := .heredoc marker :: modes } marker modes (line ++ rest) := by
  refine ⟨⟨rfl, rfl⟩, ?_⟩
  rw [firstLine_append hline.1 hrest, hline.2, Bool.and_false]

/-- The lines of a body, from the beginning of a line on. -/
theorem run_heredocLines {lines : List Text} (hlines : ∀ line ∈ lines, IsBodyLine marker line)
    (hplain : ∀ line ∈ lines, occursIn ['$', '{'] line = false) (rest : Text) :
    run { modes := .heredoc marker :: modes } (bodyText lines ++ rest) =
      blanked (bodyText lines) ++ run { modes := .heredoc marker :: modes } rest := by
  induction lines with
  | nil => rfl
  | cons line lines ih =>
    have hline := hlines line List.mem_cons_self
    have hbreak : ∀ c ∈ ('\n' :: (bodyText lines ++ rest)).head?, c = '\n' := fun c hc =>
      (Option.some.inj hc).symm
    obtain ⟨t, ht, hrun⟩ := run_heredocPiece (inBody_of_isBodyLine hline modes hbreak) hline.1
      (hplain line List.mem_cons_self) (by simp)
    rw [bodyText_cons, List.append_assoc, List.cons_append, hrun, run_heredocBreak ht,
      ih (fun l hl => hlines l (.tail _ hl)) fun l hl => hplain l (.tail _ hl)]
    simp only [blanked_append, List.append_assoc]
    rfl

/-- The terminator line is code, and ends the heredoc. -/
theorem run_terminator (modes : List Mode) (hline : '\n' ∉ line)
    (hlast : Heredoc.isTerminator marker line = true) (hne : line ≠ [])
    (hrest : ∀ c ∈ rest.head?, c = '\n') :
    ∃ t : State, t.StandsIn modes ∧
      run { modes := .heredoc marker :: modes } (line ++ rest) = line ++ run t rest := by
  obtain ⟨c, tail, rfl⟩ := List.exists_cons_of_ne_nil hne
  have hfirst : firstLine (c :: (tail ++ rest)) = c :: tail := firstLine_append hline hrest
  have hstep : step { modes := .heredoc marker :: modes } c (tail ++ rest) =
      (.keep, State.owe { modes, lineStart := false } tail.length .keep) := by
    rw [step_of_heredoc ⟨rfl, rfl⟩, heredocStep]
    simp only [hfirst, hlast, Bool.and_true, if_true]
    rfl
  refine ⟨State.owe { modes, lineStart := false } 0 .keep, ⟨rfl, rfl⟩, ?_⟩
  rw [List.cons_append, run, hstep]
  dsimp only
  rw [run_owe, Cover.map_keep]
  rfl

end Mask

/-! ### Literals -/

/-- A heredoc as it is written, up to the end of its terminator line. -/
structure HeredocText where
  header : HeaderLine
  lines : List Text
  terminator : Text
  isBodyLine : ∀ line ∈ lines, IsBodyLine header.marker line
  isTerminator : '\n' ∉ terminator ∧ Heredoc.isTerminator header.marker terminator = true

/-- A string or a heredoc, as it is written. -/
inductive LiteralText
  | string (content : Text)
  | heredoc (document : HeredocText)

namespace LiteralText

/-- The opening quote, or the header. -/
def opening : LiteralText → Text
  | string _ => ['"']
  | heredoc document => document.header.text

/-- What stands between the quotes, or in the lines of the body. -/
def content : LiteralText → Text
  | string content => content
  | heredoc document => bodyText document.lines

/-- The closing quote, or the terminator line. -/
def closing : LiteralText → Text
  | string _ => ['"']
  | heredoc document => document.terminator

def text (literal : LiteralText) : Text := literal.opening ++ literal.content ++ literal.closing

/-- No interpolation begins in the content. In a string a doubled dollar sign escapes it. -/
def IsUninterpolated : LiteralText → Prop
  | string content => isLiteralContent content = true
  | heredoc document => ∀ line ∈ document.lines, occursIn ['$', '{'] line = false

/-- The literal ends where `rest` begins: a terminator has its line for itself. -/
def EndsBefore (rest : Text) : LiteralText → Prop
  | string _ => True
  | heredoc _ => rest.head?.all (· = '\n') = true

instance : (literal : LiteralText) → Decidable literal.IsUninterpolated
  | string content => inferInstanceAs (Decidable (isLiteralContent content = true))
  | heredoc document => inferInstanceAs (Decidable (∀ line ∈ document.lines, _ = false))

instance (rest : Text) : (literal : LiteralText) → Decidable (literal.EndsBefore rest)
  | string _ => inferInstanceAs (Decidable True)
  | heredoc _ => inferInstanceAs (Decidable (rest.head?.all (· = '\n') = true))

end LiteralText

/-- A literal that stands in code is shown with its content blanked, and leads back to where
it began. -/
theorem Mask.run_literal {modes : List Mode} {s : State} (hcode : isCode modes = true)
    (hs : s.StandsIn modes) {literal : LiteralText} (hplain : literal.IsUninterpolated)
    {rest : Text} (hends : literal.EndsBefore rest) :
    ∃ t : State, t.StandsIn modes ∧ run s (literal.text ++ rest) =
      literal.opening ++ blanked literal.content ++ literal.closing ++ run t rest := by
  cases literal with
  | string content =>
    obtain ⟨t, ht, hrun⟩ := ((shows_openQuote hcode).append
      (shows_literalContent hplain modes)) s hs
    refine ⟨t, ht, ?_⟩
    simpa [LiteralText.text, LiteralText.opening, LiteralText.content, LiteralText.closing]
      using hrun rest
  | heredoc document =>
    obtain ⟨hline, hlast⟩ := document.isTerminator
    have hrest : ∀ c ∈ rest.head?, c = '\n' := fun c hc => by
      rw [LiteralText.EndsBefore, hc] at hends
      exact of_decide_eq_true hends
    have hne := ne_nil_of_isTerminator document.header.isMarker_marker hlast
    obtain ⟨t, ht, hrun⟩ := run_terminator modes hline hlast hne hrest
    refine ⟨t, ht, ?_⟩
    simp only [LiteralText.text, LiteralText.opening, LiteralText.content, LiteralText.closing,
      List.append_assoc]
    rw [run_header hcode hs, run_heredocLines document.isBodyLine hplain, hrun]

/-- **A literal in top-level code is blanked, and what follows it is masked as a text of its
own.** -/
theorem mask_literal (front : Text) (literal : LiteralText) (rest : Text)
    (hfront : (Mask.stateBefore .start front (literal.text ++ rest)).StandsIn [])
    (hplain : literal.IsUninterpolated) (hends : literal.EndsBefore rest) :
    (mask (front ++ literal.text ++ rest)).drop front.length =
      literal.opening ++ blanked literal.content ++ literal.closing ++ mask rest := by
  obtain ⟨t, ht, hrun⟩ := Mask.run_literal rfl hfront hplain hends
  rw [mask, List.append_assoc, Mask.drop_run, hrun, Mask.run_eq_mask ht]

/-- A heredoc of one line. -/
def oneLine (line : Text) (hline : IsBodyLine "EOT".toList line) : HeredocText where
  header := ⟨true, "EOT".toList, [' '], ['\r', '\n'], rfl, by simp [isGap], .inr rfl⟩
  lines := [line]
  terminator := "  EOT".toList
  isBodyLine := fun _ hmem => List.mem_singleton.mp hmem ▸ hline
  isTerminator := by decide

/-- An escaped interpolation in a string inside braces, and a heredoc with a quote, a comment
mark and a dollar sign in its body. -/
theorem mask_literal_string_and_heredoc :
    (mask "x = \x7b y = \"\\\"$$\x7bvar.a\x7d$\" \x7d\n".toList).drop 10 =
        "\"            \" \x7d\n".toList ∧
      (mask "x = <<-EOT \r\n\"var.a # $\n  EOT\ny = 1 # z".toList).drop 4 =
        "<<-EOT \r\n          \n  EOT\ny = 1 \x00\x00\x00".toList :=
  ⟨mask_literal "x = \x7b y = ".toList (.string "\\\"$$\x7bvar.a\x7d$".toList) " \x7d\n".toList
      ⟨rfl, rfl⟩ (by decide) (by decide),
    mask_literal "x = ".toList (.heredoc (oneLine "\"var.a # $".toList ⟨by decide, by decide⟩))
      "\ny = 1 # z".toList ⟨rfl, rfl⟩ (by decide) (by decide)⟩

/-- A doubled dollar sign escapes nothing in a heredoc: what stands in the braces is shown. -/
theorem heredoc_escape_not_blanked :
    ∃ document : HeredocText, (∀ line ∈ document.lines, isLiteralContent line = true) ∧
      mask (LiteralText.heredoc document).text =
        "<<-EOT \r\n   var.a \n  EOT".toList ∧
      mask (LiteralText.heredoc document).text ≠
        document.header.text ++ blanked (bodyText document.lines) ++ document.terminator :=
  ⟨oneLine "$$\x7bvar.a\x7d".toList ⟨by decide, by decide⟩, by decide, by decide, by decide⟩

end TerraformTrace.Hcl
