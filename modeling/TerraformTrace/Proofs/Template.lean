import TerraformTrace.Proofs.Replacement

/-!
# TerraformTrace.Proofs.Template

Texts with places for values. A template is a text cut at references: at words, and at
interpolations with nothing but a reference in them. Filling it puts all values in their
places at once.

Substitution knows nothing of this: it looks for the text of one reference in a text that may
already hold the values of others. `IsCaptureFree` says what has to hold of a template and its
values so that it finds the slots and nothing else. Under this condition **each of the two
passes of a substitution replaces exactly the slots it is meant for**
(`IsCaptureFree.replace_words`, `IsCaptureFree.replace_interpolations`).
-/

namespace TerraformTrace

open Text Substitution

/-! ### Slots -/

/-- A place for the value of a reference: the reference as a word, or an interpolation that
holds nothing else, blanks aside. -/
inductive Slot
  | word (ref : Reference)
  | interpolation (ref : Reference) (front back : Text)
      (hfront : ∀ c ∈ front, isBlank c = true) (hback : ∀ c ∈ back, isBlank c = true)

namespace Slot

/-- The reference that gives the value. -/
def reference : Slot → Reference
  | word ref => ref
  | interpolation ref .. => ref

/-- What stands in the place of a reference in the slot. -/
def put (value : Text) : Slot → Text
  | word _ => value
  | interpolation _ front back _ _ => interpolationText front value back

/-- The slot as it stands in the text. -/
def text (slot : Slot) : Text := slot.put slot.reference.text

/-- What a value makes of the slot: a quoted string takes the place of the whole
interpolation, without its quotes. -/
def filling (value : Text) : Slot → Text
  | word _ => value
  | interpolation _ front back _ _ =>
    if isQuotedString value then inner (strip value) else interpolationText front value back

/-- The slot with its value, if it has one. -/
def filled (values : Reference → Option Text) (slot : Slot) : Text :=
  match values slot.reference with
  | some value => slot.filling value
  | none => slot.text

end Slot

/-! ### Templates -/

/-- A text with slots in it, each followed by the text up to the next one. -/
structure Template where
  front : Text
  slots : List (Slot × Text)

namespace Template

/-- The text in which every slot shows as given. -/
def render (display : Slot → Text) (template : Template) : Text :=
  template.front ++ template.slots.flatMap fun place => display place.1 ++ place.2

@[simp] theorem render_nil (display : Slot → Text) (front : Text) :
    render display ⟨front, []⟩ = front := by
  simp [render]

@[simp] theorem render_cons (display : Slot → Text) (front : Text) (slot : Slot) (literal : Text)
    (more : List (Slot × Text)) : render display ⟨front, (slot, literal) :: more⟩ =
      front ++ (display slot ++ render display ⟨literal, more⟩) := by
  simp [render]

/-- The text itself. -/
def text (template : Template) : Text := template.render Slot.text

/-- The text with all values in their places. -/
def fill (values : Reference → Option Text) (template : Template) : Text :=
  template.render (Slot.filled values)

/-- The stretches of text that begin with `front`, with the slots in them filled. -/
def stretchesFrom (values : Reference → Option Text) (front : Text) : List (Slot × Text) → List Text
  | [] => [front]
  | (slot, literal) :: more =>
    front :: stretchesFrom values (front ++ (slot.filled values ++ literal)) more

/-- The stretches of text between any two slots, with the slots in them filled. -/
def stretches (values : Reference → Option Text) : Text → List (Slot × Text) → List Text
  | front, [] => [front]
  | front, (slot, literal) :: more =>
    stretchesFrom values front ((slot, literal) :: more) ++ stretches values literal more

end Template

/-! ### Words that stay words -/

/-- Whether a word may begin after the text, whatever is put before the text. Before the first
text of all nothing can be put. -/
def letsBegin (first : Bool) (left : Text) : Bool :=
  Occurrence.mayFollow left.getLast? && (first || left ≠ [])

/-- Whether a path may end before the text, whatever is put after the text. -/
def letsEnd (right : Text) (last : Bool) : Bool :=
  !continuesPath right && (last || (right ≠ [] && right ≠ ['.']))

/-- Whether the text may open an interpolation of what stands after it. -/
def mayOpen (first : Bool) (left : Text) : Bool :=
  match (stripRight left).getLast? with
  | some c => c = '{'
  | none => !first

/-- Whether the text may close an interpolation of what stands before it. -/
def mayClose (right : Text) (last : Bool) : Bool :=
  match (stripLeft right).head? with
  | some c => c = '}'
  | none => !last

/-- Whether a slot is set off from what may be put on its two sides: a word stays a whole word,
and does not become an interpolation that would lose the quotes of its value. -/
def Slot.isSetOff (values : Reference → Option Text) (first : Bool) (left right : Text)
    (last : Bool) : Slot → Bool
  | .word ref =>
    letsBegin first left && letsEnd right last &&
      !((values ref).any isQuotedString && mayOpen first left && mayClose right last)
  | .interpolation .. => true

/-- Whether all slots of a template are set off. -/
def Template.isSetOff (values : Reference → Option Text) :
    (first : Bool) → Text → List (Slot × Text) → Bool
  | _, _, [] => true
  | first, left, (slot, right) :: more =>
    slot.isSetOff values first left right more.isEmpty && isSetOff values false right more

/-- Values do not get in the way of each other: all slots are those of references in question,
and set off; no reference ends with a hyphen and another one; and no stretch between two slots
ever holds a reference that has a value. -/
structure IsCaptureFree (values : Reference → Option Text) (references : List Reference)
    (first : Bool) (front : Text) (slots : List (Slot × Text)) : Prop where
  found : ∀ place ∈ slots, place.1.reference ∈ references
  setOff : Template.isSetOff values first front slots = true
  apart : ∀ ref ∈ references, ∀ other ∈ references, ¬ '-' :: other.text <:+ ref.text
  free : ∀ stretch ∈ Template.stretches values front slots, ∀ ref ∈ references,
    (values ref).isSome = true → wholeWords ref.text stretch = []

theorem Template.mem_stretches_front (values : Reference → Option Text) (front : Text)
    (slots : List (Slot × Text)) : front ∈ stretches values front slots := by
  cases slots with
  | nil => exact List.mem_singleton_self _
  | cons place more => simp [stretches, stretchesFrom]

theorem IsCaptureFree.tail {values : Reference → Option Text} {references : List Reference}
    {first : Bool} {front literal : Text} {slot : Slot} {more : List (Slot × Text)}
    (h : IsCaptureFree values references first front ((slot, literal) :: more)) :
    IsCaptureFree values references false literal more where
  found place hplace := h.found place (List.mem_cons_of_mem _ hplace)
  setOff := (Bool.and_eq_true_iff.mp h.setOff).2
  apart := h.apart
  free stretch hstretch := h.free stretch (List.mem_append_right _ hstretch)

/-! ### Replacing the words -/

theorem continuesPath_of_letsEnd {right more : Text} {last : Bool} (h : letsEnd right last = true)
    (hmore : last = true → more = []) : continuesPath (right ++ more) = false := by
  simp only [letsEnd, Bool.and_eq_true, Bool.not_eq_true', Bool.or_eq_true, decide_eq_true_eq] at h
  obtain ⟨hright, hlast | ⟨hne, hdot⟩⟩ := h
  · rwa [hmore hlast, List.append_nil]
  · obtain ⟨c, right, rfl⟩ := List.exists_cons_of_ne_nil hne
    by_cases hc : c = '.'
    · subst hc
      cases right with
      | nil => exact absurd rfl hdot
      | cons d right => exact hright
    · refine continuesPath_of_not_dot (fun d hd => ?_) (by simp [hc])
      obtain rfl : c = d := by simpa using hd
      exact not_isNameRest_of_continuesPath hright c rfl

theorem mayFollow_of_letsBegin {left : Text} {first : Bool} {before : Option Char}
    (h : letsBegin first left = true) (hbefore : first = true → before = none) :
    Occurrence.mayFollow (left.getLast?.or before) = true := by
  simp only [letsBegin, Bool.and_eq_true, Bool.or_eq_true, decide_eq_true_eq] at h
  obtain ⟨hfollow, hfirst⟩ := h
  by_cases hleft : left = []
  · have hnone := hbefore (hfirst.resolve_right (absurd hleft))
    rw [hleft, hnone]
    rfl
  · rwa [Option.or_of_isSome (by simpa using hleft)]

section Pass

variable {ref : Reference} (href : ref.IsWellFormed) {before : Option Char} {rest : Text}

include href

theorem isQuiet_opening {front : Text} (hfront : ∀ c ∈ front, isBlank c = true) :
    IsQuiet (wholeWordLength? ref.text) before ('$' :: '{' :: front) rest := by
  refine isQuiet_of_not_isPathChar href.isPathText ?_
  simp only [List.forall_mem_cons]
  exact ⟨by decide, by decide, fun c hc => not_isPathChar_of_isBlank (hfront c hc)⟩

theorem isQuiet_closing {back : Text} (hback : ∀ c ∈ back, isBlank c = true) :
    IsQuiet (wholeWordLength? ref.text) before (back ++ ['}']) rest := by
  refine isQuiet_of_not_isPathChar href.isPathText ?_
  simp only [List.forall_mem_append, List.forall_mem_singleton]
  exact ⟨fun c hc => not_isPathChar_of_isBlank (hback c hc), by decide⟩

theorem Slot.isQuiet_text {slot : Slot} (hslot : slot.reference.IsWellFormed)
    (hne : ref.text ≠ slot.reference.text)
    (hend : ¬ '-' :: ref.text <:+ slot.reference.text)
    (hrest : ∀ other, slot = .word other → continuesPath rest = false) :
    IsQuiet (wholeWordLength? ref.text) before slot.text rest := by
  cases slot with
  | word other =>
    exact isQuiet_path href.isPathText hslot.isPathText hne hend (hrest other rfl)
  | interpolation other front back hfront hback =>
    have htext : (Slot.interpolation other front back hfront hback).text =
        ('$' :: '{' :: front) ++ (other.text ++ (back ++ ['}'])) := rfl
    have hgap : continuesPath ((back ++ ['}']) ++ rest) = false := by
      rw [List.append_assoc]
      exact continuesPath_gap hback rest
    rw [htext]
    refine (isQuiet_opening href hfront).append (.append ?_ (isQuiet_closing href hback))
    exact isQuiet_path href.isPathText hslot.isPathText hne hend hgap

/-- The slot of the reference itself takes the value. -/
theorem Slot.replace_text {slot : Slot} (hslot : slot.reference = ref)
    (hword : ∀ other, slot = .word other →
      Occurrence.mayFollow before = true ∧ continuesPath rest = false) (value : Text) :
    replace (wholeWordLength? ref.text) value 0 before (slot.text ++ rest) =
      slot.put value ++
        replace (wholeWordLength? ref.text) value 0 (slot.text.getLast?.or before) rest := by
  cases slot with
  | word other =>
    obtain rfl : other = ref := hslot
    obtain ⟨hbefore, hrest⟩ := hword other rfl
    exact replace_of_match (wholeWordLength?_append _ hbefore hrest) href.isPathText.ne_nil value
  | interpolation other front back hfront hback =>
    obtain rfl : other = ref := hslot
    have hgap : continuesPath ((back ++ ['}']) ++ rest) = false := by
      rw [List.append_assoc]
      exact continuesPath_gap hback rest
    have hmatch : wholeWordLength? other.text (('$' :: '{' :: front).getLast?.or before)
        (other.text ++ ((back ++ ['}']) ++ rest)) = some other.text.length :=
      wholeWordLength?_append other.text (mayFollow_gap hfront [] before) hgap
    have htext : (Slot.interpolation other front back hfront hback).text =
        ('$' :: '{' :: front) ++ (other.text ++ (back ++ ['}'])) := rfl
    have hput : (Slot.interpolation other front back hfront hback).put value =
        ('$' :: '{' :: front) ++ (value ++ (back ++ ['}'])) := rfl
    rw [htext, hput, getLast?_append_or, getLast?_append_or, List.append_assoc,
      List.append_assoc other.text, replace_of_isQuiet (isQuiet_opening href hfront),
      replace_of_match hmatch href.isPathText.ne_nil,
      replace_of_isQuiet (isQuiet_closing href hback)]
    simp only [List.append_assoc]

end Pass

/-! ### Replacing the interpolations -/

theorem mayOpen_append {gap : Text} (hgap : ∀ c ∈ gap, isBlank c = true) (first : Bool)
    (front : Text) : mayOpen first (front ++ '$' :: '{' :: gap) = true := by
  have hdrop : (front ++ '$' :: '{' :: gap).reverse.dropWhile isBlank =
      '{' :: '$' :: front.reverse := by
    have hreverse : (front ++ '$' :: '{' :: gap).reverse =
        gap.reverse ++ '{' :: '$' :: front.reverse := by simp
    rw [hreverse, List.dropWhile_append_of_pos (by simpa using hgap)]
    exact List.dropWhile_cons_of_neg (by decide)
  rw [mayOpen, stripRight, dropRightWhile, hdrop, List.getLast?_reverse]
  rfl

theorem mayClose_of_append_eq {right tail gap more : Text} {last : Bool}
    (hgap : ∀ c ∈ gap, isBlank c = true) (heq : right ++ tail = gap ++ '}' :: more)
    (hlast : last = true → tail = []) : mayClose right last = true := by
  have hdrop : (gap ++ '}' :: more).dropWhile isBlank = '}' :: more := by
    rw [List.dropWhile_append_of_pos hgap]
    exact List.dropWhile_cons_of_neg (by decide)
  rw [← heq, List.dropWhile_append] at hdrop
  cases hright : right.dropWhile isBlank with
  | nil =>
    cases last with
    | false => simp [mayClose, stripLeft, hright]
    | true =>
      rw [hright, hlast rfl] at hdrop
      cases hdrop
  | cons c rest =>
    rw [hright] at hdrop
    have hc : c = '}' := by simpa using congrArg List.head? hdrop
    simp [mayClose, stripLeft, hright, hc]

/-- Whether the slot is an interpolation of the reference. -/
def Slot.isInterpolationOf (ref : Reference) : Slot → Bool
  | .word _ => false
  | .interpolation other .. => other = ref

theorem getLast?_interpolationText (front word back : Text) :
    (interpolationText front word back).getLast? = some '}' := by
  simp [interpolationText, List.getLast?_cons]

theorem Reference.IsWellFormed.dollar_not_mem {ref : Reference}
    (h : ref.IsWellFormed) : '$' ∉ ref.text :=
  fun hmem => absurd (h.isPathChar _ hmem) (by decide)

/-! ### Passes over a template -/

namespace IsCaptureFree

variable {values : Reference → Option Text} {references : List Reference} {first : Bool}
  {front literal : Text} {slot : Slot} {slots more : List (Slot × Text)} {ref : Reference}

theorem wholeWords_front (h : IsCaptureFree values references first front slots)
    (hmem : ref ∈ references) (hvalue : (values ref).isSome = true) :
    wholeWords ref.text front = [] :=
  h.free front (Template.mem_stretches_front ..) ref hmem hvalue

/-- A word is set off from what stands around it. -/
theorem of_word {other : Reference}
    (h : IsCaptureFree values references first front ((.word other, literal) :: more)) :
    letsBegin first front = true ∧
      continuesPath (Template.render Slot.text ⟨literal, more⟩) = false := by
  have hsetOff := (Bool.and_eq_true_iff.mp h.setOff).1
  simp only [Slot.isSetOff, Bool.and_eq_true] at hsetOff
  refine ⟨hsetOff.1.1, continuesPath_of_letsEnd hsetOff.1.2 fun hlast => ?_⟩
  rw [List.isEmpty_iff.mp hlast]
  rfl

variable (hwell : ∀ ref ∈ references, ref.IsWellFormed) (hmem : ref ∈ references)

include hwell hmem

/-- The slot of another reference is passed over. -/
theorem isQuiet_slot (h : IsCaptureFree values references first front ((slot, literal) :: more))
    (hother : slot.reference ≠ ref) (before : Option Char) :
    IsQuiet (wholeWordLength? ref.text) before slot.text
      (Template.render Slot.text ⟨literal, more⟩) := by
  have hslot := h.found _ List.mem_cons_self
  have hne : ref.text ≠ slot.reference.text := fun htext =>
    hother ((hwell _ hmem).text_inj (hwell _ hslot) htext).symm
  refine Slot.isQuiet_text (hwell _ hmem) (hwell _ hslot) hne (h.apart _ hslot _ hmem) ?_
  rintro other rfl
  exact h.of_word.2

/-- A word does not become an interpolation. -/
theorem isUnwrapped_front (hquoted : (values ref).any isQuotedString = true)
    (h : IsCaptureFree values references first front ((slot, literal) :: more)) :
    IsUnwrapped ref.text front
      (slot.text ++ Template.render Slot.text ⟨literal, more⟩) := by
  have hslot := h.found _ List.mem_cons_self
  have hpath := (hwell ref hmem).isPathText
  cases slot with
  | word other =>
    have hother := (hwell _ hslot).isPathText
    refine isUnwrapped_of_head? (fun c hc => .inr ?_) ?_
    · obtain ⟨d, tail, htext, hd⟩ := hother.exists_cons
      have hhead : Slot.text (.word other) = d :: tail := htext
      obtain rfl : d = c := by simpa [hhead] using hc
      exact hd
    · rintro front gap gap' after rfl hgap hgap' heq
      obtain rfl : other = ref := (hwell _ hslot).text_inj (hwell _ hmem) <|
        hother.eq_of_append_eq hpath heq h.of_word.2 (continuesPath_gap hgap' after)
      have hopen := mayOpen_append hgap first front
      have htail (hlast : more.isEmpty = true) :
          (more.flatMap fun place => place.1.text ++ place.2) = [] := by
        rw [List.isEmpty_iff.mp hlast]
        rfl
      have hclose : mayClose literal more.isEmpty = true :=
        mayClose_of_append_eq hgap' (List.append_cancel_left heq) htail
      have hsetOff := (Bool.and_eq_true_iff.mp h.setOff).1
      simp [Slot.isSetOff, hquoted, hopen, hclose] at hsetOff
  | interpolation other front' back hfront hback =>
    refine isUnwrapped_of_head? (fun c hc => .inl ?_) ?_
    · simpa [Slot.text, Slot.put, interpolationText] using hc.symm
    · intro front gap gap' after _ _ _ heq
      obtain ⟨c, tail, htext, hc⟩ := hpath.exists_cons
      have hdollar : '$' = c := by
        simpa [Slot.text, Slot.put, interpolationText, htext] using congrArg List.head? heq
      exact absurd hc (hdollar ▸ by decide)

variable (hvalue : (values ref).isSome = true) (before : Option Char)

include hvalue

/-- So is the text before a slot. -/
theorem isQuiet_front (h : IsCaptureFree values references first front ((slot, literal) :: more)) :
    IsQuiet (wholeWordLength? ref.text) before front
      (slot.text ++ Template.render Slot.text ⟨literal, more⟩) := by
  have hslot := h.found _ List.mem_cons_self
  have hpath := (hwell ref hmem).isPathText
  refine isQuiet_literal hpath (h.wholeWords_front hmem hvalue) ?_
  cases slot with
  | word other =>
    obtain ⟨hbegin, hrest⟩ := h.of_word
    have hfollow := (Bool.and_eq_true_iff.mp hbegin).1
    exact isParted_path hpath (hwell _ hslot).isPathText hfollow (h.apart _ hmem _ hslot) hrest
  | interpolation other front' back hfront hback =>
    refine isParted_of_not_isPathChar hpath fun c hc => ?_
    obtain rfl : '$' = c := by simpa [Slot.text, Slot.put, interpolationText] using hc
    decide

theorem isQuiet_last (h : IsCaptureFree values references first front []) :
    IsQuiet (wholeWordLength? ref.text) before front [] :=
  have hpath := (hwell ref hmem).isPathText
  isQuiet_literal hpath (h.wholeWords_front hmem hvalue) (isParted_of_not_isPathChar hpath nofun)

/-- The words of the reference are replaced, and nothing else. -/
theorem replace_words (h : IsCaptureFree values references first front slots)
    (hbefore : first = true → before = none) (value : Text) :
    replace (wholeWordLength? ref.text) value 0 before (Template.render Slot.text ⟨front, slots⟩) =
      Template.render (fun slot => if slot.reference = ref then slot.put value else slot.text)
        ⟨front, slots⟩ := by
  have hpath := (hwell ref hmem).isPathText
  induction slots generalizing first front before with
  | nil =>
    have hend : replace (wholeWordLength? ref.text) value 0 (front.getLast?.or before) [] = [] := by
      obtain ⟨c, tail, htext, -⟩ := hpath.exists_cons
      simp [replace, wholeWordLength?, htext]
    have hreplace := replace_of_isQuiet (h.isQuiet_last hwell hmem hvalue before) value
    rw [hend, List.append_nil] at hreplace
    rwa [Template.render_nil, Template.render_nil]
  | cons place more ih =>
    obtain ⟨slot, literal⟩ := place
    have hword (other : Reference) (hother : slot = .word other) :
        Occurrence.mayFollow (front.getLast?.or before) = true ∧
          continuesPath (Template.render Slot.text ⟨literal, more⟩) = false := by
      subst hother
      obtain ⟨hbegin, hrest⟩ := h.of_word
      exact ⟨mayFollow_of_letsBegin hbegin hbefore, hrest⟩
    rw [Template.render_cons, Template.render_cons,
      replace_of_isQuiet (h.isQuiet_front hwell hmem hvalue before)]
    by_cases hsame : slot.reference = ref
    · rw [if_pos hsame, Slot.replace_text (hwell _ hmem) hsame hword,
        ih _ h.tail (absurd · Bool.false_ne_true)]
    · rw [if_neg hsame, replace_of_isQuiet (h.isQuiet_slot hwell hmem hsame _),
        ih _ h.tail (absurd · Bool.false_ne_true)]

/-- The interpolations of the reference are replaced, and nothing else. -/
theorem replace_interpolations (h : IsCaptureFree values references first front slots)
    (hquoted : (values ref).any isQuotedString = true) (value : Text) :
    replace (interpolationLength? ref.text) value 0 before
        (Template.render Slot.text ⟨front, slots⟩) =
      Template.render
        (fun slot => if slot.isInterpolationOf ref then value else slot.text)
        ⟨front, slots⟩ := by
  have hpath := (hwell ref hmem).isPathText
  induction slots generalizing first front before with
  | nil =>
    have hquiet := h.isQuiet_last hwell hmem hvalue before
    have hreplace := replace_of_isQuiet (isQuiet_interpolation hquiet (isUnwrapped_nil hpath)) value
    have hend (before : Option Char) :
        replace (interpolationLength? ref.text) value 0 before [] = [] := rfl
    rw [hend, List.append_nil] at hreplace
    rwa [Template.render_nil, Template.render_nil]
  | cons place more ih =>
    obtain ⟨slot, literal⟩ := place
    have hslot := h.found _ List.mem_cons_self
    have hfront := isQuiet_interpolation (h.isQuiet_front hwell hmem hvalue before)
      (h.isUnwrapped_front hwell hmem hquoted)
    rw [Template.render_cons, Template.render_cons, replace_of_isQuiet hfront]
    have hrest := ih (slot.text.getLast?.or (front.getLast?.or before)) h.tail
    cases slot with
    | word other =>
      have hquiet : IsQuiet (interpolationLength? ref.text) (front.getLast?.or before)
          (Slot.word other).text (Template.render Slot.text ⟨literal, more⟩) :=
        isQuiet_of_not_dollar (hwell _ hslot).dollar_not_mem
      rw [replace_of_isQuiet hquiet, hrest]
      rfl
    | interpolation other front' back hfront' hback =>
      by_cases hsame : other = ref
      · subst hsame
        have hmatch := interpolationLength?_append hpath hfront' hback (front.getLast?.or before)
          (Template.render Slot.text ⟨literal, more⟩)
        rw [if_pos (by simp [Slot.isInterpolationOf]), ← hrest]
        exact congrArg (front ++ ·) (replace_of_match hmatch (List.cons_ne_nil _ _) value)
      · have hquiet := isQuiet_interpolation
          (h.isQuiet_slot hwell hmem hsame (front.getLast?.or before))
          (isUnwrapped_of_getLast? (getLast?_interpolationText front' other.text back))
        rw [if_neg (by simpa [Slot.isInterpolationOf] using hsame), replace_of_isQuiet hquiet,
          hrest]

end IsCaptureFree

end TerraformTrace
