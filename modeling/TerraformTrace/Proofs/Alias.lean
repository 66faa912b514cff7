import TerraformTrace.Proofs.Frame

/-!
# TerraformTrace.Proofs.Alias

Values that are nothing but a reference. The text of a well-formed reference holds names
and dots only, so its mask is the text itself, the one reference found in it is the
reference, and replacing the reference replaces all of it.

**Passing on.** Expanding such a value is therefore the same as resolving the reference:
the nested frame's result is passed on, its value, its absence and its flag
(`expand_text`).
-/

namespace TerraformTrace

open Text Substitution

variable {c : Char} {text rest : Text}

/-! ### Characters of a reference -/

/-- A character that can stand in the text of a reference. -/
def isPathChar (c : Char) : Bool := isNameRest c || c = '.'

theorem ne_of_isPathChar {d : Char} (hc : isPathChar c = true) (hd : isPathChar d = false) :
    c ≠ d := by
  rintro rfl
  rw [hc] at hd
  cases hd

/-- A character of a class without the blanks before a statement is none of them. -/
theorem not_isIndent_of_class {p : Char → Bool} (h : ∀ d ∈ [' ', '\t', '\r'], p d = false)
    (hc : p c = true) : isIndent c = false := by
  refine Bool.eq_false_iff.mpr fun hindent => ?_
  have hmem : c ∈ [' ', '\t', '\r'] := by simpa [isIndent, or_assoc] using hindent
  exact absurd hc (by simp [h c hmem])

theorem isNameRest_of_isNameStart (h : isNameStart c = true) : isNameRest c = true := by
  simp only [isNameStart, isLetter, Bool.or_eq_true, decide_eq_true_eq] at h
  have hascii : c.toNat < 0x80 := by
    rcases h with h | rfl
    · delta Char.isAlpha Char.isUpper Char.isLower at h
      simp only [Bool.or_eq_true, Bool.and_eq_true, decide_eq_true_eq] at h
      rcases h with h | h
      · have := UInt32.le_iff_toNat_le.mp h.2
        exact Nat.lt_of_le_of_lt this (by decide)
      · have := UInt32.le_iff_toNat_le.mp h.2
        exact Nat.lt_of_le_of_lt this (by decide)
    · decide
  simp only [isNameRest, isWord, hascii, if_true, Char.isAlphanum]
  rcases h with h | h
  · simp [h]
  · simp [h]

theorem isNameRest_of_mem {name : Text} (hname : isName name = true) (hc : c ∈ name) :
    isNameRest c = true := by
  cases name with
  | nil => cases hname
  | cons first rest =>
    simp only [isName, Bool.and_eq_true, List.all_eq_true] at hname
    rcases List.mem_cons.mp hc with rfl | hc
    · exact isNameRest_of_isNameStart hname.1
    · exact hname.2 c hc

/-- The blanks above ASCII. -/
def wideBlanks : List Nat :=
  [0x85, 0xA0, 0x1680, 0x2000, 0x2001, 0x2002, 0x2003, 0x2004, 0x2005, 0x2006, 0x2007, 0x2008,
    0x2009, 0x200A, 0x2028, 0x2029, 0x202F, 0x205F, 0x3000]

/-- No blank can stand in a name. -/
theorem not_isBlank_of_isNameRest (h : isNameRest c = true) : isBlank c = false := by
  have hascii : ∀ n : Fin 0x80, isBlank (Char.ofNat n) = true →
      isNameRest (Char.ofNat n) = false := by
    decide +kernel
  have hwide : ∀ n ∈ wideBlanks, inStretches wordStretches n = false := by decide +kernel
  refine Bool.eq_false_iff.mpr fun hblank => ?_
  by_cases hc : c.toNat < 0x80
  · have hnone := hascii ⟨c.toNat, hc⟩
    simp only [Char.ofNat_toNat] at hnone
    rw [hnone hblank] at h
    cases h
  · have hmem : c.toNat ∈ wideBlanks := by
      simp only [isBlank, Bool.or_eq_true, Bool.and_eq_true, decide_eq_true_eq] at hblank
      simp only [wideBlanks, List.mem_cons, List.not_mem_nil, or_false]
      omega
    have hne : c ≠ '-' := by
      rintro rfl
      exact hc (by decide)
    have hword : isWord c = false := by
      rw [isWord, if_neg hc]
      exact hwide _ hmem
    simp [isNameRest, hword, hne] at h

theorem not_isBlank_of_isPathChar (h : isPathChar c = true) : isBlank c = false := by
  simp only [isPathChar, Bool.or_eq_true, decide_eq_true_eq] at h
  rcases h with h | rfl
  · exact not_isBlank_of_isNameRest h
  · decide

/-! ### The mask of a reference -/

namespace Hcl.Mask

/-- In code at top level, with nothing owed. -/
def State.IsPlain (s : State) : Prop := s.modes = [] ∧ s.owed = 0

theorem step_of_isPathChar {s : State} (hs : s.IsPlain) (hc : isPathChar c = true)
    (rest : Text) : (step s c rest).1 = .keep ∧ (step s c rest).2.IsPlain := by
  have hne : ∀ {d}, isPathChar d = false → c ≠ d := fun hd => ne_of_isPathChar hc hd
  have hheader : Heredoc.header? (c :: rest) = none := by
    unfold Heredoc.header?
    split
    next heq => exact absurd (List.cons.inj heq).1 (hne (by decide))
    next heq => exact absurd (List.cons.inj heq).1 (hne (by decide))
    next => rfl
  simp only [step, hs.1, hs.2, codeStep, if_neg (hne (d := '\n') (by decide)),
    if_neg (hne (d := '"') (by decide)), hne (d := '#') (by decide), hne (d := '/') (by decide),
    hheader, braceStep, decide_false, Bool.false_and, Bool.or_false, Bool.false_eq_true, if_false]
  exact ⟨trivial, rfl, rfl⟩

theorem run_of_isPathChar {s : State} (hs : s.IsPlain)
    (h : ∀ c ∈ text, isPathChar c = true) : run s text = text := by
  induction text generalizing s with
  | nil => rfl
  | cons c rest ih =>
    obtain ⟨hkeep, hplain⟩ := step_of_isPathChar hs (h c List.mem_cons_self) rest
    unfold run
    dsimp only
    rw [hkeep, ih hplain (List.forall_mem_cons.mp h).2]
    rfl

end Hcl.Mask

/-! ### Reading a reference back -/

theorem leadingName?_append {name : Text} (hname : isName name = true)
    (hrest : ∀ c ∈ rest.head?, isNameRest c = false) : leadingName? (name ++ rest) = some name := by
  cases name with
  | nil => cases hname
  | cons first tail =>
    simp only [isName, Bool.and_eq_true] at hname
    have htail : (tail ++ rest).takeWhile isNameRest = tail := by
      rw [List.takeWhile_append_of_pos (List.all_eq_true.mp hname.2)]
      cases rest with
      | nil => simp
      | cons c rest => simp [hrest c rfl]
    simp [leadingName?, hname.1, htail]

theorem continuesPath_of_isNameRest (h : isNameRest c = true) (rest : Text) :
    continuesPath (c :: rest) = true := by
  unfold continuesPath
  split
  next heq =>
    obtain ⟨rfl, -⟩ := List.cons.inj heq
    exact absurd h (by decide)
  next heq =>
    obtain ⟨rfl, -⟩ := List.cons.inj heq
    exact h
  next heq => cases heq

theorem not_isNameRest_of_continuesPath (h : continuesPath rest = false) :
    ∀ c ∈ rest.head?, isNameRest c = false := by
  intro c hc
  obtain ⟨more, rfl⟩ := List.head?_eq_some_iff.mp hc
  refine Bool.eq_false_iff.mpr fun hrest => ?_
  rw [continuesPath_of_isNameRest hrest] at h
  cases h

theorem continuesPath_dot : continuesPath ('.' :: rest) = (leadingName? rest).isSome := by
  cases rest with
  | nil => decide
  | cons c rest => cases hc : isNameStart c <;> simp [continuesPath, leadingName?, hc]

namespace Reference

theorem leadingPath_eq_nil (h : leadingName? text = none) (rounds : Nat) :
    leadingPath rounds text = ([], 0) := by
  cases rounds with
  | zero => rfl
  | succ rounds => rw [leadingPath, h]

/-- Names with dots between them are read in front of what does not continue the path. -/
theorem leadingPath_append {rounds : Nat} {name : Text} {names : List Text}
    (hnames : ∀ segment ∈ name :: names, isName segment = true) (hrounds : names.length < rounds)
    (hrest : continuesPath rest = false) :
    leadingPath rounds (join ['.'] (name :: names) ++ rest) =
      (name :: names, (join ['.'] (name :: names)).length) := by
  induction names generalizing rounds name with
  | nil =>
    obtain ⟨rounds, rfl⟩ := Nat.exists_eq_add_of_lt hrounds
    have hname : leadingName? (name ++ rest) = some name :=
      leadingName?_append (hnames name (List.mem_singleton_self _))
        (not_isNameRest_of_continuesPath hrest)
    simp only [join, leadingPath, hname, List.drop_left]
    split
    next more =>
      have hnone : leadingName? more = none := by
        rwa [continuesPath_dot, Option.isSome_eq_false_iff, Option.isNone_iff_eq_none] at hrest
      rw [leadingPath_eq_nil hnone]
    next => rfl
  | cons next names ih =>
    cases rounds with
    | zero => cases hrounds
    | succ rounds =>
      have hmore := ih (List.forall_mem_cons.mp hnames).2
        (Nat.lt_of_succ_lt_succ hrounds)
      have hname : leadingName? (name ++ '.' :: (join ['.'] (next :: names) ++ rest)) =
          some name := by
        refine leadingName?_append (hnames name List.mem_cons_self) ?_
        simp only [List.head?_cons, Option.mem_some_iff]
        rintro c rfl
        decide
      rw [join_cons_of_ne_nil (List.cons_ne_nil _ _) name, List.append_assoc, List.cons_append,
        leadingPath]
      simp only [hname, List.drop_left, hmore, List.length_append, List.length_cons]
      congr 1
      omega

theorem segments_ne_nil (ref : Reference) : ref.segments ≠ [] := by
  intro hnil
  have henough := ref.enough
  rw [hnil] at henough
  exact absurd (Nat.lt_of_lt_of_le ref.kind.arity_pos henough) (Nat.lt_irrefl 0)

theorem text_eq (ref : Reference) : ref.text = ref.kind.word ++ '.' :: join ['.'] ref.segments := by
  unfold text dotted
  rw [join_cons]
  cases hsegments : ref.segments with
  | nil => exact absurd hsegments ref.segments_ne_nil
  | cons name names => rfl

variable {ref : Reference}

theorem IsWellFormed.isPathChar (h : ref.IsWellFormed) :
    ∀ c ∈ ref.text, TerraformTrace.isPathChar c = true := by
  intro c hc
  rcases Text.mem_join hc with rfl | ⟨piece, hpiece, hc⟩
  · decide
  · have hword : ∀ kind : ReferenceKind, kind.word.all isNameRest = true := by
      intro kind
      cases kind <;> decide
    have hrest : isNameRest c = true := by
      rcases List.mem_cons.mp hpiece with rfl | hpiece
      · exact List.all_eq_true.mp (hword _) c hc
      · exact isNameRest_of_mem (h piece hpiece) hc
    simp [TerraformTrace.isPathChar, hrest]

theorem text_ne_nil (ref : Reference) : ref.text ≠ [] := by
  rw [text_eq]
  simp

/-- After the word of a kind and a dot, the path decides. -/
theorem leadingReference?_word (kind : ReferenceKind) {body name : Text} {names : List Text}
    {read : Nat} (hpath : leadingPath body.length body = (name :: names, read)) :
    leadingReference? (kind.word ++ '.' :: body) =
      some (kind, name :: names, kind.word.length + 1 + read) := by
  cases kind <;>
    simp [leadingReference?, ReferenceKind.all, ReferenceKind.word, hpath]

theorem length_segments_le {segments : List Text}
    (h : ∀ segment ∈ segments, isName segment = true) :
    segments.length ≤ (join ['.'] segments).length := by
  induction segments with
  | nil => exact Nat.zero_le _
  | cons name names ih =>
    have hname := List.length_pos_iff.mpr (ne_nil_of_isName (h name List.mem_cons_self))
    have hnames := ih (List.forall_mem_cons.mp h).2
    rw [join_cons]
    cases names with
    | nil => simpa [joinRest] using Nat.succ_le_of_lt hname
    | cons next names =>
      simp only [joinRest, List.length_append, List.length_cons] at hnames ⊢
      omega

/-- Names with dots between them that do not go on are read as a reference. -/
theorem leadingReference?_dotted (kind : ReferenceKind) {segments : List Text}
    (hne : segments ≠ []) (hnames : ∀ segment ∈ segments, isName segment = true)
    (hrest : continuesPath rest = false) : leadingReference? (dotted kind segments ++ rest) =
      some (kind, segments, (dotted kind segments).length) := by
  obtain ⟨name, names, rfl⟩ := List.exists_cons_of_ne_nil hne
  have hrounds : names.length < (join ['.'] (name :: names) ++ rest).length := by
    have hle : names.length + 1 ≤ _ := length_segments_le hnames
    rw [List.length_append]
    omega
  rw [dotted, join_cons_of_ne_nil hne kind.word, List.append_assoc, List.cons_append,
    leadingReference?_word kind (leadingPath_append hnames hrounds hrest)]
  simp
  omega

theorem IsWellFormed.leadingReference?_append (h : ref.IsWellFormed)
    (hrest : continuesPath rest = false) : leadingReference? (ref.text ++ rest) =
      some (ref.kind, ref.segments, ref.text.length) :=
  leadingReference?_dotted ref.kind ref.segments_ne_nil h hrest

/-- A well-formed reference is read back from its text. -/
theorem IsWellFormed.leadingReference? (h : ref.IsWellFormed) : leadingReference? ref.text =
      some (ref.kind, ref.segments, ref.text.length) := by
  have hread := h.leadingReference?_append (show continuesPath [] = false from rfl)
  rwa [List.append_nil] at hread

end Reference

theorem Occurrence.scan_of_length_le {skip pos : Nat} {before : Option Char}
    (h : text.length ≤ skip) : Occurrence.scan skip before pos text = [] := by
  induction text generalizing skip pos before with
  | nil => simp [Occurrence.scan]
  | cons c rest ih =>
    cases skip with
    | zero => cases h
    | succ skip => exact ih (Nat.le_of_succ_le_succ h)

theorem Text.strip_eq_self (h : ∀ c ∈ text, isBlank c = false) : strip text = text := by
  have hdrop : ∀ kept : Text, (∀ c ∈ kept, isBlank c = false) → kept.dropWhile isBlank = kept := by
    intro kept hkept
    cases kept with
    | nil => rfl
    | cons c rest => simp [hkept c List.mem_cons_self]
  unfold strip stripRight stripLeft dropRightWhile
  rw [hdrop text h, hdrop _ fun c hc => h c (List.mem_reverse.mp hc), List.reverse_reverse]

theorem Text.stripRight_blanks {blanks : Text} (h : ∀ c ∈ blanks, isBlank c = true) (text : Text) :
    stripRight (text ++ blanks) = stripRight text := by
  rw [stripRight, stripRight, dropRightWhile, dropRightWhile, List.reverse_append,
    List.dropWhile_append_of_pos (by simpa using h)]

namespace Substitution

/-- A text without a dollar sign has no interpolation in it. -/
theorem replace_interpolation (ref replacement : Text) {before : Option Char}
    (h : '$' ∉ text) : replace (interpolationLength? ref) replacement 0 before text = text := by
  induction text generalizing before with
  | nil => simp [replace, interpolationLength?]
  | cons c rest ih =>
    have hnone : interpolationLength? ref before (c :: rest) = none := by
      unfold interpolationLength?
      split
      next heq => exact absurd (List.cons.inj heq).1.symm (List.ne_of_not_mem_cons h)
      next => rfl
    rw [replace, hnone]
    dsimp only
    rw [ih (List.not_mem_of_not_mem_cons h)]

/-- A match up to the end leaves nothing. -/
theorem replace_length {length? : Option Char → Text → Option Nat}
    (hend : ∀ before, length? before [] = none) (replacement : Text) (before : Option Char)
    (text : Text) : replace length? replacement text.length before text = [] := by
  induction text generalizing before with
  | nil => simp [replace, hend]
  | cons c rest ih => exact ih (some c)

/-- A text that is nothing but the reference's text is replaced as a whole. -/
theorem replace_wholeWord {ref : Text} (href : ref ≠ []) (value : Text) :
    replace (wholeWordLength? ref) value 0 none ref = value := by
  have hend : ∀ before, wholeWordLength? ref before [] = none := by
    intro before
    cases ref with
    | nil => exact absurd rfl href
    | cons c rest => simp [wholeWordLength?]
  have hwhole : wholeWordLength? ref none ref = some ref.length := by
    simp [wholeWordLength?, continuesPath]
  cases ref with
  | nil => exact absurd rfl href
  | cons c rest =>
    rw [replace, hwhole]
    dsimp only [List.length_cons]
    rw [replace_length hend, List.append_nil]

end Substitution

section Alias

variable {ref : Reference} (href : ref.IsWellFormed)

include href

/-- The one reference in its text. -/
theorem references_text : references ref.text = [ref] := by
  have hmask : Hcl.mask ref.text = ref.text := Hcl.Mask.run_of_isPathChar ⟨rfl, rfl⟩ href.isPathChar
  have hmake : Reference.make ref.kind ref.segments = .ok ref := by
    rw [Reference.make, dif_pos ref.enough]
  have hleading := href.leadingReference?
  have hscan : occurrences ref.text = [{
      reference := ref, start := 0, stop := 0 + ref.text.length }] := by
    unfold occurrences
    rw [hmask]
    cases htext : ref.text with
    | nil => exact absurd htext ref.text_ne_nil
    | cons c rest =>
      rw [htext] at hleading
      unfold Occurrence.scan
      rw [if_pos (by rfl), hleading]
      dsimp only
      rw [hmake]
      dsimp only
      rw [List.length_cons, Nat.add_sub_cancel, Occurrence.scan_of_length_le (Nat.le_refl _)]
  rw [references, hscan]
  rfl

theorem orderedReferences_text : orderedReferences ref.text = [ref] := by
  rw [orderedReferences, references_text href]
  rfl

theorem strip_text : strip ref.text = ref.text :=
  strip_eq_self fun c hc => not_isBlank_of_isPathChar (href.isPathChar c hc)

theorem isAlias_text : isAlias ref.text ref = true := by
  simp [isAlias, strip_text href]

/-- Replacing the reference replaces its whole text. -/
theorem substitute_text (value : Text) : substitute ref.text ref.text value = value := by
  have hdollar : '$' ∉ ref.text := fun hmem => absurd (href.isPathChar _ hmem) (by decide)
  have hexpression : (if isQuotedString value then
      Substitution.replace (Substitution.interpolationLength? ref.text) (inner (strip value))
        0 none ref.text
      else ref.text) = ref.text := by
    split
    · exact Substitution.replace_interpolation _ _ hdollar
    · rfl
  unfold substitute
  rw [hexpression, Substitution.replace_wholeWord ref.text_ne_nil]

/-- A value that is nothing but a reference comes to what the reference comes to. -/
theorem expand_text (nested : Context → Run Resolution) (ctx : Context) (dir : Path)
    (stack : List ModuleFrame) :
    expand nested ctx dir stack ref.text = nested (ctx.child ref dir stack) := by
  have hpass : expand nested ctx dir stack ref.text =
      nested (ctx.child ref dir stack) >>= pure := by
    unfold expand
    rw [orderedReferences_text href]
    simp only [List.foldlM_cons, List.foldlM_nil, expandOne, bind_assoc]
    refine bind_congr fun result => ?_
    obtain ⟨value, cacheable⟩ := result
    cases value with
    | some value => simp [substitute_text href]
    | none => simp [isAlias_text href]
  rw [hpass, bind_pure]

end Alias

end TerraformTrace
