import TerraformTrace.Proofs.WholeWord

/-!
# TerraformTrace.Proofs.Replacement

What a replacement passes over. A text is *quiet* if no match begins in it, and then it is
kept as it is (`replace_of_isQuiet`). Whether it is quiet depends on what stands before and
after it, but little of that matters where a path is looked for: a path ends before every
character that paths do not have, and a text begins with at most one whole path
(`IsPathText.eq_of_append_eq`). So a text that holds no whole word of its own is quiet unless
one begins in it and goes on behind it (`isQuiet_literal`).
-/

namespace TerraformTrace

open Text Substitution

/-! ### Quiet texts -/

section Replace

variable {length? : Option Char → Text → Option Nat} {before : Option Char} {text more rest : Text}

/-- No match begins in the text, if `before` stands before it and `rest` after it. -/
def IsQuiet (length? : Option Char → Text → Option Nat) (before : Option Char) (text rest : Text) :
    Prop :=
  ∀ front back, text = front ++ back → back ≠ [] →
    length? (front.getLast?.or before) (back ++ rest) = none

theorem getLast?_append_or (front back : Text) (before : Option Char) :
    (front ++ back).getLast?.or before = back.getLast?.or (front.getLast?.or before) := by
  rw [List.getLast?_append, Option.or_assoc]

theorem IsQuiet.append (h : IsQuiet length? before text (more ++ rest))
    (hmore : IsQuiet length? (text.getLast?.or before) more rest) :
    IsQuiet length? before (text ++ more) rest := by
  intro front back htext hback
  rcases List.append_eq_append_iff.mp htext with ⟨middle, rfl, rfl⟩ | ⟨middle, rfl, rfl⟩
  · rw [getLast?_append_or]
    exact hmore middle back rfl hback
  · by_cases hmiddle : middle = []
    · subst hmiddle
      have hhere := hmore [] more rfl hback
      rwa [List.append_nil] at hhere
    · rw [List.append_assoc]
      exact h front middle rfl hmiddle

/-- A quiet text is kept. -/
theorem replace_of_isQuiet (h : IsQuiet length? before text rest) (value : Text) :
    replace length? value 0 before (text ++ rest) =
      text ++ replace length? value 0 (text.getLast?.or before) rest := by
  induction text generalizing before with
  | nil => rfl
  | cons c text ih =>
    have hnone := h [] (c :: text) rfl (List.cons_ne_nil _ _)
    have htext : IsQuiet length? (some c) text rest := by
      intro front back htext hback
      have hhere := h (c :: front) back (by rw [htext, List.cons_append]) hback
      rwa [Occurrence.getLast?_cons_or] at hhere
    simp only [List.getLast?_nil, Option.none_or, List.cons_append] at hnone
    rw [List.cons_append, replace, hnone, Occurrence.getLast?_cons_or]
    exact congrArg (c :: ·) (ih htext)

theorem replace_skip (value : Text) :
    replace length? value text.length before (text ++ rest) =
      replace length? value 0 (text.getLast?.or before) rest := by
  induction text generalizing before with
  | nil => rfl
  | cons c text ih =>
    rw [Occurrence.getLast?_cons_or]
    exact ih

/-- A match is replaced. -/
theorem replace_of_match (h : length? before (text ++ rest) = some text.length) (hne : text ≠ [])
    (value : Text) : replace length? value 0 before (text ++ rest) =
      value ++ replace length? value 0 (text.getLast?.or before) rest := by
  cases text with
  | nil => exact absurd rfl hne
  | cons c text =>
    rw [List.cons_append] at h ⊢
    rw [replace, h, Occurrence.getLast?_cons_or]
    exact congrArg (value ++ ·) (replace_skip value)

end Replace

/-! ### Paths at the beginning of a text -/

theorem continuesPath_append {text : Text} (h : continuesPath text = true) (rest : Text) :
    continuesPath (text ++ rest) = true := by
  obtain ⟨path, more, rfl, -, hpath⟩ := exists_of_continuesPath h
  rw [List.append_assoc]
  exact hpath (more ++ rest)

theorem continuesPath_of_not_isPathChar {text : Text}
    (h : ∀ c ∈ text.head?, isPathChar c = false) : continuesPath text = false := by
  refine Bool.eq_false_iff.mpr fun hcontinues => ?_
  obtain ⟨path, rest, rfl, hchars, hpath⟩ := exists_of_continuesPath hcontinues
  cases path with
  | nil => exact absurd (hpath []) (by decide)
  | cons c path =>
    have hc := h c rfl
    rw [hchars c List.mem_cons_self] at hc
    cases hc

/-- What the text of a reference is made of. -/
structure IsPathText (word : Text) : Prop where
  ne_nil : word ≠ []
  isPathChar : ∀ c ∈ word, isPathChar c = true
  isPath : IsPath word

theorem Reference.IsWellFormed.isPathText {ref : Reference} (h : ref.IsWellFormed) :
    IsPathText ref.text :=
  ⟨ref.text_ne_nil, h.isPathChar, Reference.isPath_dotted _ h⟩

theorem IsPathText.exists_cons {word : Text} (h : IsPathText word) :
    ∃ c tail, word = c :: tail ∧ TerraformTrace.isPathChar c = true := by
  obtain ⟨c, tail, rfl⟩ := List.exists_cons_of_ne_nil h.ne_nil
  exact ⟨c, tail, rfl, h.isPathChar c List.mem_cons_self⟩

/-- A text begins with at most one whole path. -/
theorem IsPathText.eq_of_append_eq {word other rest more : Text} (h : IsPathText word)
    (hother : IsPathText other) (heq : word ++ rest = other ++ more)
    (hrest : continuesPath rest = false) (hmore : continuesPath more = false) : word = other := by
  rcases List.append_eq_append_iff.mp heq with ⟨middle, rfl, rfl⟩ | ⟨middle, rfl, rfl⟩
  · by_cases hmiddle : middle = []
    · rw [hmiddle, List.append_nil]
    · rw [hother.isPath middle hmiddle (List.suffix_append ..)] at hrest
      cases hrest
  · by_cases hmiddle : middle = []
    · rw [hmiddle, List.append_nil]
    · rw [h.isPath middle hmiddle (List.suffix_append ..)] at hmore
      cases hmore

/-! ### Matches -/

variable {before : Option Char}

theorem exists_of_wholeWordLength? {word text : Text} {length : Nat}
    (h : wholeWordLength? word before text = some length) :
    ∃ rest, text = word ++ rest ∧ continuesPath rest = false ∧
      Occurrence.mayFollow before = true := by
  unfold wholeWordLength? at h
  split at h
  · rename_i hwhole
    simp only [Bool.and_eq_true, Bool.not_eq_true'] at hwhole
    obtain ⟨rest, rfl⟩ := List.isPrefixOf_iff_prefix.mp hwhole.1.2
    rw [List.drop_left] at hwhole
    exact ⟨rest, rfl, hwhole.2, by simp [Occurrence.mayFollow, hwhole.1.1]⟩
  · cases h

theorem wholeWordLength?_append (word : Text) {rest : Text}
    (hbefore : Occurrence.mayFollow before = true) (hrest : continuesPath rest = false) :
    wholeWordLength? word before (word ++ rest) = some word.length := by
  have hprefix : word.isPrefixOf (word ++ rest) = true :=
    List.isPrefixOf_iff_prefix.mpr (List.prefix_append ..)
  rw [Occurrence.mayFollow] at hbefore
  rw [wholeWordLength?, List.drop_left, hbefore, hprefix, hrest]
  rfl

/-- The text of an interpolation. -/
def interpolationText (front word back : Text) : Text :=
  '$' :: '{' :: (front ++ (word ++ (back ++ ['}'])))

theorem exists_of_interpolationLength? {word text : Text} {length : Nat}
    (h : interpolationLength? word before text = some length) :
    ∃ front back rest, text = interpolationText front word back ++ rest ∧
      (∀ c ∈ front, isBlank c = true) ∧ ∀ c ∈ back, isBlank c = true := by
  unfold interpolationLength? at h
  split at h
  · rename_i rest
    obtain ⟨count, hcount, h⟩ := List.exists_of_findSome?_eq_some h
    split at h
    · rename_i hword
      simp only at h
      split at h
      · rename_i hclose
        obtain ⟨after, hafter⟩ := List.isPrefixOf_iff_prefix.mp hword
        rw [← List.drop_drop, ← hafter, List.drop_left] at hclose
        obtain ⟨more, hmore⟩ := List.head?_eq_some_iff.mp hclose
        refine ⟨rest.take count, after.takeWhile isBlank, more, ?_, ?_, ?_⟩
        · have hback : after = after.takeWhile isBlank ++ '}' :: more := by
            rw [← hmore, drop_takeWhile, List.takeWhile_append_dropWhile]
          have hrest : rest = rest.take count ++ (word ++ after) := by
            rw [hafter, List.take_append_drop]
          calc
            '$' :: '{' :: rest = '$' :: '{' :: (rest.take count ++
                (word ++ (after.takeWhile isBlank ++ '}' :: more))) := by rw [← hback, ← hrest]
            _ = interpolationText (rest.take count) word (after.takeWhile isBlank) ++ more := by
                simp [interpolationText]
        · have hle : count ≤ (rest.takeWhile isBlank).length := by
            simp only [List.mem_reverse, List.mem_range] at hcount
            omega
          intro c hc
          rw [← List.takeWhile_append_dropWhile (p := isBlank) (l := rest),
            List.take_append_of_le_length hle] at hc
          exact List.all_eq_true.mp List.all_takeWhile c (List.mem_of_mem_take hc)
        · exact fun c hc => List.all_eq_true.mp List.all_takeWhile c hc
      · cases h
    · cases h
  · cases h

theorem takeWhile_isBlank_append {front text : Text} (hfront : ∀ c ∈ front, isBlank c = true)
    (htext : ∀ c ∈ text.head?, isBlank c = false) : (front ++ text).takeWhile isBlank = front := by
  rw [List.takeWhile_append_of_pos hfront]
  cases text with
  | nil => simp
  | cons c text => simp [htext c rfl]

theorem interpolationLength?_append {word front back : Text} (h : IsPathText word)
    (hfront : ∀ c ∈ front, isBlank c = true) (hback : ∀ c ∈ back, isBlank c = true)
    (before : Option Char) (rest : Text) :
    interpolationLength? word before (interpolationText front word back ++ rest) =
      some (interpolationText front word back).length := by
  have htext : interpolationText front word back ++ rest =
      '$' :: '{' :: (front ++ (word ++ (back ++ '}' :: rest))) := by
    simp [interpolationText]
  have hhead : ∀ c ∈ (word ++ (back ++ '}' :: rest)).head?, isBlank c = false := by
    obtain ⟨c, tail, rfl, hc⟩ := h.exists_cons
    simpa using not_isBlank_of_isPathChar hc
  have hgap : (back ++ '}' :: rest).takeWhile isBlank = back :=
    takeWhile_isBlank_append hback (by simp; decide)
  have hprefix : word.isPrefixOf (word ++ (back ++ '}' :: rest)) = true :=
    List.isPrefixOf_iff_prefix.mpr (List.prefix_append ..)
  rw [htext, interpolationLength?]
  simp only [takeWhile_isBlank_append hfront hhead, List.range_succ, List.reverse_append,
    List.reverse_singleton, List.singleton_append, List.findSome?_cons, List.drop_left, hprefix,
    if_true, ← List.drop_drop, hgap, List.head?_cons]
  simp [interpolationText]
  omega

/-! ### Where no whole word begins -/

/-- The one character of a path after which a path may begin. -/
theorem eq_hyphen {c : Char} (hpath : isPathChar c = true)
    (hfollow : Occurrence.mayFollow (some c) = true) : c = '-' := by
  simp only [Occurrence.mayFollow, Option.any_some, Bool.not_eq_true', Bool.or_eq_false_iff,
    decide_eq_false_iff_not] at hfollow
  simp only [isPathChar, isNameRest, hfollow, Bool.or_eq_true, decide_eq_true_eq] at hpath
  simpa using hpath

theorem IsPathText.of_suffix {word tail : Text} (h : IsPathText word) (hne : tail ≠ [])
    (hsuffix : tail <:+ word) : IsPathText tail where
  ne_nil := hne
  isPathChar := fun c hc => h.isPathChar c (hsuffix.subset hc)
  isPath := fun other hother hsuffix' => h.isPath other hother (hsuffix'.trans hsuffix)

section WholeWord

variable {word : Text} (hword : IsPathText word) {before : Option Char} {text rest : Text}

include hword

theorem isQuiet_of_not_isPathChar (h : ∀ c ∈ text, isPathChar c = false) :
    IsQuiet (wholeWordLength? word) before text rest := by
  rintro front back rfl hback
  refine Option.eq_none_iff_forall_ne_some.mpr fun length hlength => ?_
  obtain ⟨more, hmore, -⟩ := exists_of_wholeWordLength? hlength
  obtain ⟨c, back, rfl⟩ := List.exists_cons_of_ne_nil hback
  obtain ⟨d, tail, rfl, hd⟩ := hword.exists_cons
  obtain rfl : c = d := by simpa using congrArg List.head? hmore
  simp [h c (by simp)] at hd

/-- Another path is passed over, unless the word is its end after a hyphen. -/
theorem isQuiet_path {other : Text} (hother : IsPathText other) (hne : word ≠ other)
    (hend : ¬ '-' :: word <:+ other) (hrest : continuesPath rest = false) :
    IsQuiet (wholeWordLength? word) before other rest := by
  rintro front back rfl hback
  refine Option.eq_none_iff_forall_ne_some.mpr fun length hlength => ?_
  obtain ⟨more, heq, hmore, hfollow⟩ := exists_of_wholeWordLength? hlength
  have hback' : IsPathText back := hother.of_suffix hback (List.suffix_append ..)
  obtain rfl : back = word := hback'.eq_of_append_eq hword heq hrest hmore
  cases hlast : front.getLast? with
  | none =>
    rw [List.getLast?_eq_none_iff.mp hlast] at hne
    exact hne rfl
  | some c =>
    -- the character before the word is one of a path, but not a word character or a dot
    obtain ⟨front, rfl⟩ := List.getLast?_eq_some_iff.mp hlast
    have hc := hother.isPathChar c (by simp)
    obtain rfl : c = '-' := eq_hyphen hc (by simpa using hfollow)
    exact hend ⟨front, by simp⟩

/-- No whole word begins in the text and goes on after it. -/
def IsParted (word text rest : Text) : Prop :=
  ∀ front back more, front ≠ [] → back ≠ [] → front <:+ text → word = front ++ back →
    rest = back ++ more → continuesPath more = true

theorem isParted_of_not_isPathChar (h : ∀ c ∈ rest.head?, isPathChar c = false) :
    IsParted word text rest := by
  rintro front back more - hback - rfl rfl
  obtain ⟨c, back, rfl⟩ := List.exists_cons_of_ne_nil hback
  have hc := hword.isPathChar c (by simp)
  rw [h c rfl] at hc
  cases hc

/-- A path that begins after the text is not part of one that begins in it, unless it is its
end after a hyphen. -/
theorem isParted_path {other : Text} (hother : IsPathText other)
    (hfollow : Occurrence.mayFollow text.getLast? = true) (hend : ¬ '-' :: other <:+ word)
    (hrest : continuesPath rest = false) : IsParted word text (other ++ rest) := by
  rintro front back more hfront hback ⟨start, rfl⟩ rfl heq
  refine Bool.of_not_eq_false fun hmore => ?_
  have hback' : IsPathText back := hword.of_suffix hback (List.suffix_append ..)
  obtain rfl : back = other := hback'.eq_of_append_eq hother heq.symm hmore hrest
  obtain ⟨front, c, rfl⟩ : ∃ front' c, front = front' ++ [c] :=
    ⟨_, _, (List.dropLast_concat_getLast hfront).symm⟩
  have hc := hword.isPathChar c (by simp)
  obtain rfl : c = '-' := by
    rw [← List.append_assoc, List.getLast?_concat] at hfollow
    exact eq_hyphen hc hfollow
  exact hend ⟨front, by simp⟩

/-- A text without whole words is passed over, unless one begins in it and goes on after
it. -/
theorem isQuiet_literal (hfree : wholeWords word text = []) (hparted : IsParted word text rest) :
    IsQuiet (wholeWordLength? word) before text rest := by
  rintro front back rfl hback
  refine Option.eq_none_iff_forall_ne_some.mpr fun length hlength => ?_
  obtain ⟨more, heq, hmore, hfollow⟩ := exists_of_wholeWordLength? hlength
  have hfollow' : (front.getLast?.any fun c => isWord c || c = '.') = false := by
    cases hlast : front.getLast? with
    | none => rfl
    | some c => simpa [hlast, Occurrence.mayFollow] using hfollow
  -- a whole word inside the text
  have hinside (after : Text) (hback : back = word ++ after) (hafter : more = after ++ rest) :
      False := by
    have hafter' : continuesPath after = false :=
      Bool.eq_false_iff.mpr fun hcontinues => by
        rw [hafter, continuesPath_append hcontinues] at hmore
        cases hmore
    have hwhole : isWholeWord word (front ++ (word ++ after)) front.length = true :=
      isWholeWord_append.mpr ⟨hfollow', hafter'⟩
    have hmem := (mem_wholeWords hword.ne_nil).mpr hwhole
    rw [← hback, hfree] at hmem
    cases hmem
  rcases List.append_eq_append_iff.mp heq with ⟨middle, hmiddle, hrest⟩ | ⟨middle, hback, hmore'⟩
  · by_cases hempty : middle = []
    · subst hempty
      exact hinside [] (by simpa using hmiddle.symm) (by simpa using hrest.symm)
    · have hcontinues := hparted back middle more hback hempty (List.suffix_append ..) hmiddle hrest
      rw [hcontinues] at hmore
      cases hmore
  · exact hinside middle hback hmore'

end WholeWord

/-! ### Where no interpolation begins -/

section Interpolation

variable {word : Text} {before : Option Char} {text rest : Text}

theorem isQuiet_of_not_dollar (h : '$' ∉ text) :
    IsQuiet (interpolationLength? word) before text rest := by
  rintro front back rfl hback
  refine Option.eq_none_iff_forall_ne_some.mpr fun length hlength => ?_
  obtain ⟨gap, gap', more, heq, -⟩ := exists_of_interpolationLength? hlength
  obtain ⟨c, back, rfl⟩ := List.exists_cons_of_ne_nil hback
  obtain rfl : c = '$' := by simpa [interpolationText] using congrArg List.head? heq
  simp at h

theorem not_isPathChar_of_isBlank {c : Char} (h : isBlank c = true) : isPathChar c = false := by
  refine Bool.eq_false_iff.mpr fun hpath => ?_
  rw [not_isBlank_of_isPathChar hpath] at h
  cases h

theorem mayFollow_of_not_isPathChar {c : Char} (h : isPathChar c = false) :
    Occurrence.mayFollow (some c) = true := by
  simp only [isPathChar, isNameRest, Bool.or_eq_false_iff] at h
  simp [Occurrence.mayFollow, h]

theorem mayFollow_gap {gap : Text} (hgap : ∀ c ∈ gap, isBlank c = true) (front : Text)
    (before : Option Char) :
    Occurrence.mayFollow ((front ++ '$' :: '{' :: gap).getLast?.or before) = true := by
  have hlast : (front ++ '$' :: '{' :: gap).getLast? = some (gap.getLast?.getD '{') := by
    simp [List.getLast?_append, List.getLast?_cons]
  rw [hlast, Option.some_or]
  refine mayFollow_of_not_isPathChar ?_
  cases hgap' : gap.getLast? with
  | none => decide
  | some c => exact not_isPathChar_of_isBlank (hgap c (List.mem_of_getLast? hgap'))

theorem continuesPath_gap {gap : Text} (hgap : ∀ c ∈ gap, isBlank c = true) (rest : Text) :
    continuesPath (gap ++ '}' :: rest) = false := by
  refine continuesPath_of_not_isPathChar fun c hc => ?_
  cases gap with
  | nil =>
    obtain rfl : '}' = c := by simpa using hc
    decide
  | cons d gap =>
    obtain rfl : d = c := by simpa using hc
    exact not_isPathChar_of_isBlank (hgap d List.mem_cons_self)

/-- No interpolation of the word opens in the text and closes after it, with the word itself
after the text. -/
def IsUnwrapped (word text rest : Text) : Prop :=
  ∀ back middle gap gap' more, back ≠ [] → back <:+ text → '$' :: '{' :: gap = back ++ middle →
    (∀ c ∈ gap, isBlank c = true) → (∀ c ∈ gap', isBlank c = true) →
      rest ≠ middle ++ (word ++ (gap' ++ '}' :: more))

/-- There is a whole word in every interpolation. -/
theorem isQuiet_interpolation (hquiet : IsQuiet (wholeWordLength? word) before text rest)
    (hunwrapped : IsUnwrapped word text rest) :
    IsQuiet (interpolationLength? word) before text rest := by
  rintro front back rfl hback
  refine Option.eq_none_iff_forall_ne_some.mpr fun length hlength => ?_
  obtain ⟨gap, gap', more, heq, hgap, hgap'⟩ := exists_of_interpolationLength? hlength
  have heq' : back ++ rest = ('$' :: '{' :: gap) ++ (word ++ (gap' ++ '}' :: more)) := by
    simpa [interpolationText] using heq
  have hsuffix : back <:+ front ++ back := List.suffix_append ..
  rcases List.append_eq_append_iff.mp heq' with ⟨middle, hopen, hafter⟩ | ⟨middle, rfl, hafter⟩
  · exact hunwrapped back middle gap gap' more hback hsuffix hopen hgap hgap' hafter
  · by_cases hmiddle : middle = []
    · rw [hmiddle, List.append_nil] at hsuffix hunwrapped
      rw [hmiddle] at hafter
      exact hunwrapped _ [] gap gap' more (List.cons_ne_nil _ _) hsuffix (by simp) hgap hgap'
        hafter.symm
    · have hnone := hquiet (front ++ '$' :: '{' :: gap) middle (by simp) hmiddle
      rw [← hafter, wholeWordLength?_append word (mayFollow_gap hgap front before)
        (continuesPath_gap hgap' more)] at hnone
      cases hnone

theorem isUnwrapped_nil (hword : IsPathText word) : IsUnwrapped word text [] := by
  intro back middle gap gap' more _ _ _ _ _ heq
  have hnil := (List.append_eq_nil_iff.mp heq.symm).2
  exact hword.ne_nil (List.append_eq_nil_iff.mp hnil).1

/-- An opening has no closing brace. -/
theorem isUnwrapped_of_getLast? (h : text.getLast? = some '}') : IsUnwrapped word text rest := by
  rintro back middle gap gap' more hback ⟨front, rfl⟩ hopen hgap - -
  have hlast : back.getLast? = some '}' := by
    rwa [List.getLast?_append, Option.or_of_isSome (by simpa using hback)] at h
  have hmem : '}' ∈ '$' :: '{' :: gap :=
    hopen ▸ List.mem_append_left _ (List.mem_of_getLast? hlast)
  have hblank : isBlank '}' = true := hgap '}' (by simpa using hmem)
  exact absurd hblank (by decide)

/-- Only the end of the text can open an interpolation of what follows, if that is not part of
an opening itself. -/
theorem isUnwrapped_of_head? (hrest : ∀ c ∈ rest.head?, c = '$' ∨ isPathChar c = true)
    (h : ∀ front gap gap' more, text = front ++ '$' :: '{' :: gap → (∀ c ∈ gap, isBlank c = true) →
      (∀ c ∈ gap', isBlank c = true) → rest ≠ word ++ (gap' ++ '}' :: more)) :
    IsUnwrapped word text rest := by
  rintro back middle gap gap' more hback ⟨front, rfl⟩ hopen hgap hgap' hafter
  cases middle with
  | nil =>
    rw [List.append_nil] at hopen
    exact h front gap gap' more (by rw [hopen]) hgap hgap' hafter
  | cons c middle =>
    obtain ⟨d, back, rfl⟩ := List.exists_cons_of_ne_nil hback
    have hopen' : '{' :: gap = back ++ c :: middle := (List.cons.inj hopen).2
    have hmem : c ∈ '{' :: gap := hopen' ▸ by simp
    have hc := hrest c (by simp [hafter])
    rcases List.mem_cons.mp hmem with rfl | hmem
    · exact absurd hc (by decide)
    · have hblank := hgap c hmem
      rcases hc with rfl | hpath
      · exact absurd hblank (by decide)
      · rw [not_isBlank_of_isPathChar hpath] at hblank
        cases hblank

end Interpolation

end TerraformTrace
