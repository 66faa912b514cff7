import TerraformTrace.Proofs.MaskCut
import TerraformTrace.Proofs.SearchSpan

/-!
# TerraformTrace.Proofs.ValueExtent

Values that are cut out of a text. A plain value ends at depth zero, where the mask shows a
line break, a comma, a comment or a closing bracket. Such an end **cuts nothing in two**: the
value is shown by itself as it is shown in its place (`isCut_extent`), and so are the references
in it found. Blanks that are taken off its ends change nothing in that
(`referencesIn_strip`), so the place is a source of the value (`IsSource`).
-/

namespace TerraformTrace.Hcl

open Text

variable {c : Char} {shown text : Text} {depth n : Nat}

/-! ### Where a value ends -/

/-- A value ends before a character, or goes on over it. -/
theorem extent?_cons {rest : Text} (h : extent? depth (c :: rest) = some n) :
    (n = 0 ∧ depth = 0 ∧ (isCloser c = true ∨ endsValue c = true)) ∨
      ∃ m depth', n = m + 1 ∧ extent? depth' rest = some m ∧ (isOpener c = true ∨
        isCloser c = true ∨ (depth' = depth ∧ (depth = 0 → endsValue c = false))) := by
  have hcons : extent? depth (c :: rest) =
      if isOpener c then (extent? (depth + 1) rest).map (· + 1)
      else if isCloser c then
        if depth = 0 then some 0 else (extent? (depth - 1) rest).map (· + 1)
      else if depth = 0 && endsValue c then some 0
      else (extent? depth rest).map (· + 1) := by
    cases depth <;> rfl
  rw [hcons] at h
  split at h
  next hopener =>
    obtain ⟨m, hm, rfl⟩ := Option.map_eq_some_iff.mp h
    exact .inr ⟨m, depth + 1, rfl, hm, .inl hopener⟩
  next =>
    split at h
    next hcloser =>
      split at h
      next hdepth =>
        cases h
        exact .inl ⟨rfl, hdepth, .inl hcloser⟩
      next =>
        obtain ⟨m, hm, rfl⟩ := Option.map_eq_some_iff.mp h
        exact .inr ⟨m, depth - 1, rfl, hm, .inr (.inl hcloser)⟩
    next =>
      split at h
      next hends =>
        cases h
        rw [Bool.and_eq_true, decide_eq_true_eq] at hends
        exact .inl ⟨rfl, hends.1, .inr hends.2⟩
      next hgoes =>
        obtain ⟨m, hm, rfl⟩ := Option.map_eq_some_iff.mp h
        refine .inr ⟨m, depth, rfl, hm, .inr (.inr ⟨rfl, fun hdepth => ?_⟩)⟩
        simpa [hdepth] using hgoes

theorem extent?_le (h : extent? depth shown = some n) : n ≤ shown.length := by
  induction shown generalizing depth n with
  | nil => cases depth <;> cases h; exact Nat.le_refl 0
  | cons c rest ih =>
    rcases extent?_cons h with ⟨rfl, -⟩ | ⟨m, depth', rfl, hm, -⟩
    · exact Nat.zero_le _
    · exact Nat.succ_le_succ (ih hm)

/-- What stands behind a value ends it. -/
theorem head?_drop_extent (h : extent? depth shown = some n) :
    ∀ c ∈ (shown.drop n).head?, isCloser c = true ∨ endsValue c = true := by
  induction shown generalizing depth n with
  | nil => simp
  | cons c rest ih =>
    rcases extent?_cons h with ⟨rfl, -, hends⟩ | ⟨m, depth', rfl, hm, -⟩
    · intro d hd
      cases hd
      exact hends
    · exact ih hm

/-- Inside brackets a value does not end. -/
theorem take_extent_ne_nil (h : extent? (depth + 1) shown = some n) : shown.take n ≠ [] := by
  cases shown with
  | nil => cases h
  | cons c rest =>
    obtain ⟨-, hdepth, -⟩ | ⟨m, -, rfl, -⟩ := extent?_cons h
    · cases hdepth
    · exact List.cons_ne_nil _ _

/-- A value does not end with a comment or a line break. -/
theorem getLast?_take_extent (h : extent? depth shown = some n) :
    ∀ c ∈ (shown.take n).getLast?, c ≠ hidden ∧ c ≠ '\n' := by
  induction shown generalizing depth n with
  | nil => simp
  | cons c rest ih =>
    rcases extent?_cons h with ⟨rfl, -⟩ | ⟨m, depth', rfl, hm, hc⟩
    · simp
    · intro d hd
      rw [List.take_succ_cons] at hd
      cases htake : rest.take m with
      | cons e more =>
        rw [htake, List.getLast?_cons_cons] at hd
        exact ih hm d (htake ▸ hd)
      | nil =>
        rw [htake] at hd
        cases hd
        rcases hc with hopener | hcloser | ⟨rfl, hends⟩
        · constructor <;> rintro rfl <;> exact absurd hopener (by decide)
        · constructor <;> rintro rfl <;> exact absurd hcloser (by decide)
        · cases depth' with
          | succ depth => exact absurd htake (take_extent_ne_nil hm)
          | zero => constructor <;> rintro rfl <;> exact absurd (hends rfl) (by decide)

/-! ### Cutting a value out -/

namespace Mask

variable {s : State} {front tail : Text}

/-- No comment is open behind what is shown, unless it ends with a line break. -/
theorem not_inComment_stateBefore (hs : s.IsSound) (hout : ¬ s.InComment)
    (hlast : ∀ c ∈ (shownBefore s front tail).getLast?, c ≠ hidden ∧ c ≠ '\n') :
    ¬ (stateBefore s front tail).InComment := by
  rcases List.eq_nil_or_concat front with rfl | ⟨init, c, rfl⟩
  · exact hout
  · rw [List.concat_eq_append, shownBefore_append] at hlast
    rw [List.concat_eq_append, stateBefore_append]
    intro hin
    have hstep := isSoundStep (hs.stateBefore init ([c] ++ tail)) c tail
    have hshown := hlast _ (by rw [List.getLast?_append]; rfl)
    exact (hstep.entered hin).elim hshown.1 hshown.2

/-- A line break cuts nothing in two, and neither does the end of a text. -/
theorem isCut_of_head? (h : ∀ c ∈ tail.head?, c = '\n') : IsCut s front tail where
  slash := .inl fun c hc => by rw [h c hc]; decide
  line := .inl fun c hc => by
    have hnil : firstLine tail = [] := firstLine_append (List.not_mem_nil) h
    rw [hnil] at hc
    cases hc

/-- Blanks are cut off harmlessly. -/
theorem isCut_blanks (h : ∀ c ∈ tail, isBlank c = true) : IsCut s front tail where
  slash := .inl fun c hc => by
    have hblank := h c (List.mem_of_head? hc)
    constructor <;> rintro rfl <;> exact absurd hblank (by decide)
  line := .inl fun c hc => h c ((List.takeWhile_prefix _).subset hc)

end Mask

theorem isBlank_isWord_of_ends (h : isCloser c = true ∨ endsValue c = true)
    (hbreak : c ≠ '\n') : isBlank c = false ∧ isWord c = false := by
  simp only [isCloser, endsValue, Bool.or_eq_true, decide_eq_true_eq] at h
  rcases h with ((rfl | rfl) | rfl) | ((rfl | rfl) | rfl)
  · decide
  · decide
  · decide
  · exact absurd rfl hbreak
  · decide
  · decide

/-- **The end of a value cuts nothing in two.** -/
theorem isCut_extent {n : Nat} (h : extent? 0 (mask text) = some n) :
    Mask.IsCut .start (text.take n) (text.drop n) := by
  have hn : (text.take n).length = n := by
    have := extent?_le h
    rw [length_mask] at this
    rw [List.length_take]
    omega
  have hmask := Mask.run_append .start (text.take n) (text.drop n)
  rw [List.take_append_drop] at hmask
  have hshown : (mask text).take n = Mask.shownBefore .start (text.take n) (text.drop n) := by
    rw [mask, hmask, List.take_left' (by rw [Mask.length_shownBefore, hn])]
  have hbehind : (mask text).drop n =
      Mask.run (Mask.stateBefore .start (text.take n) (text.drop n)) (text.drop n) := by
    rw [mask, hmask, List.drop_left' (by rw [Mask.length_shownBefore, hn])]
  have hlast := getLast?_take_extent h
  rw [hshown] at hlast
  refine ⟨.inr fun hhidden => (hlast _ hhidden).1 rfl, ?_⟩
  have hends := head?_drop_extent h
  rw [hbehind] at hends
  cases htail : text.drop n with
  | nil => exact .inl (by simp [firstLine])
  | cons d rest =>
    rw [htail] at hends hlast
    rw [Mask.run_cons, List.head?_cons] at hends
    have hd := hends _ rfl
    by_cases hbreak : d = '\n'
    · exact .inl (by simp [firstLine, hbreak])
    · have hsound := Mask.State.IsSound.start.stateBefore (text.take n) (d :: rest)
      have hstep := Mask.isSoundStep hsound d rest
      refine .inr ⟨d, rest, rfl, ?_⟩
      cases hcover : (Mask.step (Mask.stateBefore .start (text.take n) (d :: rest)) d rest).1 with
      | keep =>
        rw [hcover] at hd
        obtain ⟨hblank, hword⟩ := isBlank_isWord_of_ends hd hbreak
        exact ⟨hblank, hword, by decide⟩
      | blank =>
        rw [hcover] at hd
        exact absurd hd (show ¬ (isCloser ' ' = true ∨ endsValue ' ' = true) by decide)
      | hide =>
        have hout := Mask.not_inComment_stateBefore .start
          (by simp [Mask.State.InComment, Mask.State.start]) hlast
        rcases hstep.hides hcover with hin | rfl | rfl
        · exact absurd hin hout
        · exact ⟨by decide, by decide, by decide⟩
        · exact ⟨by decide, by decide, by decide⟩

/-! ### Blanks around a value -/

theorem Mask.not_mem_run (hblank : c ≠ ' ') (hhidden : c ≠ hidden) (h : c ∉ text)
    (s : State) : c ∉ run s text := by
  induction text generalizing s with
  | nil => exact List.not_mem_nil
  | cons d rest ih =>
    rw [run_cons, List.mem_cons, not_or]
    refine ⟨?_, ih (fun hmem => h (.tail _ hmem)) _⟩
    cases (step s d rest).1 with
    | keep => exact fun heq => h (heq ▸ List.mem_cons_self)
    | blank => exact hblank
    | hide => exact hhidden

/-- What is in no path is not shown as a part of one. -/
theorem Mask.isPathChar_head?_run (h : ∀ c ∈ text.head?, isPathChar c = false)
    (s : State) : ∀ c ∈ (run s text).head?, isPathChar c = false := by
  intro c hc
  cases text with
  | nil => cases hc
  | cons d rest =>
    rw [run_cons, List.head?_cons, Option.mem_some_iff] at hc
    rcases apply_cases (step s d rest).1 d with hsame | hother
    · rw [← hc, hsame]
      exact h d rfl
    · exact hc ▸ hother

section Blanks

variable {blanks : Text} (hblanks : ∀ c ∈ blanks, isBlank c = true)
include hblanks

theorem dot_not_mem_blanks : '.' ∉ blanks := fun hmem => absurd (hblanks _ hmem) (by decide)

theorem referencesIn_append_blanks (text : Text) :
    referencesIn (mask (text ++ blanks)) = referencesIn (mask text) := by
  have hmask : mask (text ++ blanks) = mask text ++
      Mask.run (Mask.stateBefore .start text blanks) blanks := by
    rw [mask, Mask.run_append, Mask.shownBefore_eq_run .start (Mask.isCut_blanks hblanks), mask]
  have hhead : ∀ c ∈ blanks.head?, isPathChar c = false := fun c hc =>
    not_isPathChar_of_isBlank (hblanks c (List.mem_of_head? hc))
  have hseparate : Separate (mask text) (Mask.run (Mask.stateBefore .start text blanks) blanks) :=
    .inr (Mask.isPathChar_head?_run hhead _)
  rw [hmask, hseparate.referencesIn_append, referencesIn_of_not_mem
    (Mask.not_mem_run (by decide) (by decide) (dot_not_mem_blanks hblanks) _), List.append_nil]

theorem mask_blanks_append (text : Text) : mask (blanks ++ text) = blanks ++ mask text := by
  have hcode : ∀ c ∈ blanks, c ∉ ['"', '#', '/', '<'] := by
    intro c hc hmem
    have hblank := hblanks c hc
    simp only [List.mem_cons, List.not_mem_nil, or_false] at hmem
    rcases hmem with rfl | rfl | rfl | rfl <;> exact absurd hblank (by decide)
  obtain ⟨t, ht, hrun⟩ :=
    Mask.Shows.of_forall id (fun c hc => Mask.shows_code (hcode c hc)) .start ⟨rfl, rfl⟩
  rw [mask, hrun, List.map_id, Mask.run_eq_mask ht]

theorem referencesIn_blanks_append (text : Text) :
    referencesIn (mask (blanks ++ text)) = referencesIn (mask text) := by
  have hseparate : Separate blanks (mask text) := .inl fun c hc =>
    not_isPathChar_of_isBlank (hblanks c (List.mem_of_getLast? hc))
  rw [mask_blanks_append hblanks, hseparate.referencesIn_append,
    referencesIn_of_not_mem (dot_not_mem_blanks hblanks), List.nil_append]

end Blanks

theorem exists_dropRightWhile (p : Char → Bool) (text : Text) :
    ∃ dropped, (∀ c ∈ dropped, p c = true) ∧ text = dropRightWhile p text ++ dropped := by
  refine ⟨(text.reverse.takeWhile p).reverse, fun c hc => ?_, ?_⟩
  · exact List.all_eq_true.mp List.all_takeWhile c (List.mem_reverse.mp hc)
  · rw [dropRightWhile, ← List.reverse_append, List.takeWhile_append_dropWhile,
      List.reverse_reverse]

theorem referencesIn_stripRight (text : Text) :
    referencesIn (mask (stripRight text)) = referencesIn (mask text) := by
  obtain ⟨blanks, hblanks, htext⟩ := exists_dropRightWhile isBlank text
  calc referencesIn (mask (stripRight text))
      = referencesIn (mask (stripRight text ++ blanks)) :=
        (referencesIn_append_blanks hblanks _).symm
    _ = referencesIn (mask text) := by rw [stripRight, ← htext]

theorem referencesIn_strip (text : Text) :
    referencesIn (mask (strip text)) = referencesIn (mask text) := by
  have hblanks : ∀ c ∈ text.takeWhile isBlank, isBlank c = true := fun c =>
    List.all_eq_true.mp List.all_takeWhile c
  calc referencesIn (mask (strip text))
      = referencesIn (mask (stripLeft text)) := referencesIn_stripRight _
    _ = referencesIn (mask (text.takeWhile isBlank ++ stripLeft text)) :=
        (referencesIn_blanks_append hblanks _).symm
    _ = referencesIn (mask text) := by rw [stripLeft, List.takeWhile_append_dropWhile]

/-! ### Sources of values -/

/-- The first `n` characters of a text show the references of a value, and no path goes on
behind them. -/
def IsSource (text : Text) (n : Nat) (value : Text) : Prop :=
  ∃ shown tail, mask text = shown ++ tail ∧ shown.length = n ∧
    referencesIn shown = referencesIn (mask value) ∧ ∀ c ∈ tail.head?, isPathChar c = false

theorem IsSource.blanks_append {blanks value : Text} {n : Nat}
    (hblanks : ∀ c ∈ blanks, isBlank c = true) (h : IsSource text n value) :
    IsSource (blanks ++ text) (blanks.length + n) value := by
  obtain ⟨shown, tail, hmask, hlength, hsame, hhead⟩ := h
  refine ⟨blanks ++ shown, tail, ?_, by rw [List.length_append, hlength], ?_, hhead⟩
  · rw [mask_blanks_append hblanks, hmask, List.append_assoc]
  · have hseparate : Separate blanks shown := .inl fun c hc =>
      not_isPathChar_of_isBlank (hblanks c (List.mem_of_getLast? hc))
    rw [hseparate.referencesIn_append, referencesIn_of_not_mem (dot_not_mem_blanks hblanks),
      List.nil_append, hsame]

theorem isSource_of_isCut {front tail value : Text} (h : Mask.IsCut .start front tail)
    (hhead : ∀ c ∈ (Mask.run (Mask.stateBefore .start front tail) tail).head?, isPathChar c = false)
    (hvalue : referencesIn (mask value) = referencesIn (mask front)) :
    IsSource (front ++ tail) front.length value := by
  refine ⟨mask front, _, ?_, length_mask front, hvalue.symm, hhead⟩
  rw [mask, Mask.run_append, Mask.shownBefore_eq_run .start h, mask]

theorem isPathChar_of_ends (h : isCloser c = true ∨ endsValue c = true) : isPathChar c = false := by
  simp only [isCloser, endsValue, Bool.or_eq_true, decide_eq_true_eq] at h
  rcases h with ((rfl | rfl) | rfl) | ((rfl | rfl) | rfl) <;> decide

/-- A plain value comes from its place. -/
theorem isSource_extent {n : Nat} (h : extent? 0 (mask text) = some n) :
    IsSource text n (stripRight (text.take n)) := by
  have hle := extent?_le h
  rw [length_mask] at hle
  have hlength : (text.take n).length = n := List.length_take_of_le hle
  have hends := head?_drop_extent h
  have hmask := Mask.drop_run .start (text.take n) (text.drop n)
  rw [List.take_append_drop, hlength] at hmask
  rw [mask, hmask] at hends
  have hsource := isSource_of_isCut (isCut_extent h)
    (fun c hc => isPathChar_of_ends (hends c hc)) (referencesIn_stripRight _)
  rwa [List.take_append_drop, hlength] at hsource

/-- So does a value that is cut at the end of its first line. -/
theorem isSource_firstLine (text : Text) :
    IsSource text (firstLine text).length (strip (firstLine text)) := by
  have hbreak : ∀ c ∈ (text.dropWhile (· ≠ '\n')).head?, c = '\n' := fun c hc => by
    have hhead := List.head?_dropWhile_not (· ≠ '\n') text
    rw [hc] at hhead
    simpa using hhead
  have hsource := isSource_of_isCut (Mask.isCut_of_head? hbreak)
    (Mask.isPathChar_head?_run (fun c hc => by rw [hbreak c hc]; decide) _)
    (referencesIn_strip (firstLine text))
  rwa [firstLine, List.takeWhile_append_dropWhile] at hsource

end TerraformTrace.Hcl
