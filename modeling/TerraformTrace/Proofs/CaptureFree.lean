import TerraformTrace.Engine.Resolve
import TerraformTrace.Proofs.Template

/-!
# TerraformTrace.Proofs.CaptureFree

The order in which references are replaced. The values come into the text one after the
other, and the text between two slots that are still open may hold values by then. **In every
order the outcome is the template filled with all values at once**
(`expansion_order_free`), if no stretch of text between open slots ever holds a reference that
has a value.

Each substitution leads from one stage to the next: it fills the slots of one reference
(`IsCaptureFree.substitute_text`), and what the condition asks of a template it also asks of its
stages, because filling makes no new stretches (`Template.stretches_close`).
-/

namespace TerraformTrace

open Text Substitution

/-! ### Stages -/

namespace Template

/-- The template in which the slots that `fill?` gives a text are filled. -/
def close (fill? : Slot → Option Text) : Text → List (Slot × Text) → Template
  | front, [] => ⟨front, []⟩
  | front, (slot, literal) :: more =>
    match fill? slot with
    | some filling => close fill? (front ++ (filling ++ literal)) more
    | none =>
      let rest := close fill? literal more
      ⟨front, (slot, rest.front) :: rest.slots⟩

variable {fill? : Slot → Option Text} {values : Reference → Option Text} {front literal : Text}
  {slot : Slot} {slots more : List (Slot × Text)}

theorem close_of_some {filling : Text} (h : fill? slot = some filling) :
    close fill? front ((slot, literal) :: more) =
      close fill? (front ++ (filling ++ literal)) more := by
  rw [close, h]

theorem close_of_none (h : fill? slot = none) :
    close fill? front ((slot, literal) :: more) =
      ⟨front, (slot, (close fill? literal more).front) :: (close fill? literal more).slots⟩ := by
  rw [close, h]

theorem render_append (display : Slot → Text) (before front : Text) (slots : List (Slot × Text)) :
    render display ⟨before ++ front, slots⟩ = before ++ render display ⟨front, slots⟩ :=
  List.append_assoc ..

/-- Filled slots show what they were filled with. -/
theorem render_close (display : Slot → Text) (front : Text) (slots : List (Slot × Text)) :
    (close fill? front slots).render display =
      render (fun slot => (fill? slot).getD (display slot)) ⟨front, slots⟩ := by
  induction slots generalizing front with
  | nil => simp [close]
  | cons place more ih =>
    obtain ⟨slot, literal⟩ := place
    cases hfill : fill? slot with
    | some filling =>
      rw [close_of_some hfill, ih, render_cons, render_append, render_append, hfill]
      rfl
    | none =>
      rw [close_of_none hfill, render_cons, render_cons, ih, hfill]
      rfl

/-- The first text only grows, and not at all if there is nothing after it. -/
theorem exists_front_close (fill? : Slot → Option Text) (front : Text)
    (slots : List (Slot × Text)) :
    ∃ more, (close fill? front slots).front = front ++ more ∧
      (slots.isEmpty = true → more = []) := by
  induction slots generalizing front with
  | nil => exact ⟨[], by simp [close], fun _ => rfl⟩
  | cons place more ih =>
    obtain ⟨slot, literal⟩ := place
    cases hfill : fill? slot with
    | some filling =>
      obtain ⟨rest, hrest, -⟩ := ih (front ++ (filling ++ literal))
      rw [close_of_some hfill, hrest]
      exact ⟨(filling ++ literal) ++ rest, by simp, nofun⟩
    | none =>
      rw [close_of_none hfill]
      exact ⟨[], by simp, nofun⟩

/-- The slots that are left are those that were not filled. -/
theorem mem_slots_close {place : Slot × Text} (h : place ∈ (close fill? front slots).slots) :
    fill? place.1 = none ∧ ∃ literal, (place.1, literal) ∈ slots := by
  induction slots generalizing front with
  | nil => cases h
  | cons other more ih =>
    obtain ⟨slot, literal⟩ := other
    cases hfill : fill? slot with
    | some filling =>
      rw [close_of_some hfill] at h
      obtain ⟨hnone, text, hmem⟩ := ih h
      exact ⟨hnone, text, List.mem_cons_of_mem _ hmem⟩
    | none =>
      rw [close_of_none hfill] at h
      rcases List.mem_cons.mp h with rfl | h
      · exact ⟨hfill, literal, List.mem_cons_self⟩
      · obtain ⟨hnone, text, hmem⟩ := ih h
        exact ⟨hnone, text, List.mem_cons_of_mem _ hmem⟩

/-- Filling slots with their values makes no new stretches. -/
theorem stretchesFrom_close (before front : Text) {slots : List (Slot × Text)}
    (h : ∀ place ∈ slots, ∀ filling, fill? place.1 = some filling →
      filling = place.1.filled values) :
    stretchesFrom values (before ++ (close fill? front slots).front)
        (close fill? front slots).slots ⊆
      stretchesFrom values (before ++ front) slots := by
  induction slots generalizing before front with
  | nil => simp [close]
  | cons place more ih =>
    obtain ⟨slot, literal⟩ := place
    obtain ⟨hslot, hmore⟩ := List.forall_mem_cons.mp h
    cases hfill : fill? slot with
    | some filling =>
      obtain rfl := hslot filling hfill
      rw [close_of_some hfill, stretchesFrom, List.append_assoc]
      exact List.Subset.trans (ih before _ hmore) (List.subset_cons_self ..)
    | none =>
      rw [close_of_none hfill, stretchesFrom, stretchesFrom]
      have hrest := ih (before ++ front ++ slot.filled values) literal hmore
      simp only [List.append_assoc] at hrest ⊢
      exact List.cons_subset_cons _ hrest

/-- Text before the first stretch changes only the stretches that begin with it. -/
theorem stretches_append (before front : Text) (slots : List (Slot × Text)) :
    stretches values (before ++ front) slots ⊆
      stretchesFrom values (before ++ front) slots ++ stretches values front slots := by
  cases slots with
  | nil => exact List.subset_append_left ..
  | cons place more =>
    refine List.append_subset.mpr ⟨List.subset_append_left .., ?_⟩
    exact List.subset_append_of_subset_right _ (List.subset_append_right ..)

theorem stretches_close (front : Text) {slots : List (Slot × Text)}
    (h : ∀ place ∈ slots, ∀ filling, fill? place.1 = some filling →
      filling = place.1.filled values) :
    stretches values (close fill? front slots).front (close fill? front slots).slots ⊆
      stretches values front slots := by
  induction slots generalizing front with
  | nil => simp [close]
  | cons place more ih =>
    obtain ⟨slot, literal⟩ := place
    obtain ⟨hslot, hmore⟩ := List.forall_mem_cons.mp h
    cases hfill : fill? slot with
    | some filling =>
      obtain rfl := hslot filling hfill
      rw [close_of_some hfill]
      refine List.Subset.trans (ih _ hmore) ?_
      rw [← List.append_assoc, stretches, stretchesFrom, ← List.append_assoc]
      exact List.Subset.trans (stretches_append ..) (List.subset_cons_self ..)
    | none =>
      have hfrom := stretchesFrom_close [] front h
      rw [close_of_none hfill] at hfrom ⊢
      rw [stretches, stretches]
      exact List.append_subset.mpr ⟨List.subset_append_of_subset_left _ hfrom,
        List.subset_append_of_subset_right _ (ih literal hmore)⟩

end Template

/-! ### Slots stay set off -/

theorem letsBegin_append {left : Text} (h : letsBegin false left = true) (first : Bool)
    (before : Text) : letsBegin first (before ++ left) = true := by
  simp only [letsBegin, Bool.false_or, Bool.and_eq_true, decide_eq_true_eq] at h ⊢
  obtain ⟨hfollow, hne⟩ := h
  rw [List.getLast?_append, Option.or_of_isSome (by simpa using hne)]
  simp [hfollow, hne]

theorem mayOpen_of_append {left before : Text} {first : Bool}
    (h : mayOpen first (before ++ left) = true) : mayOpen false left = true := by
  simp only [mayOpen, stripRight, dropRightWhile, List.getLast?_reverse, List.reverse_append,
    List.dropWhile_append] at h ⊢
  cases hleft : left.reverse.dropWhile isBlank with
  | nil => rfl
  | cons c rest => simpa [hleft] using h

theorem letsEnd_append {right more : Text} {last last' : Bool} (h : letsEnd right last = true)
    (hmore : last = true → more = [] ∧ last' = true) : letsEnd (right ++ more) last' = true := by
  have hcontinues := continuesPath_of_letsEnd h fun hlast => (hmore hlast).1
  simp only [letsEnd, Bool.and_eq_true, Bool.not_eq_true', Bool.or_eq_true, decide_eq_true_eq]
    at h ⊢
  refine ⟨hcontinues, ?_⟩
  rcases h.2 with hlast | ⟨hne, hdot⟩
  · exact .inl (hmore hlast).2
  · refine .inr ⟨by simp [hne], fun heq => ?_⟩
    rcases List.append_eq_singleton_iff.mp heq with ⟨hright, -⟩ | ⟨hright, -⟩
    · exact hne hright
    · exact hdot hright

theorem mayClose_of_append {right more : Text} {last last' : Bool}
    (hmore : last = true → more = [] ∧ last' = true) (h : mayClose (right ++ more) last' = true) :
    mayClose right last = true := by
  simp only [mayClose, stripLeft, List.dropWhile_append] at h ⊢
  cases hright : right.dropWhile isBlank with
  | nil =>
    cases last with
    | false => rfl
    | true =>
      obtain ⟨rfl, rfl⟩ := hmore rfl
      simp [hright] at h
  | cons c rest => simpa [hright] using h

theorem Slot.isSetOff_append {values : Reference → Option Text} {slot : Slot}
    {left right more : Text} {first last last' : Bool}
    (h : slot.isSetOff values first left right last = true)
    (hmore : last = true → more = [] ∧ last' = true) :
    slot.isSetOff values first left (right ++ more) last' = true := by
  cases slot with
  | interpolation => rfl
  | word ref =>
    simp only [isSetOff, Bool.and_eq_true, Bool.not_eq_true', Bool.and_eq_false_iff] at h ⊢
    obtain ⟨⟨hbegin, hend⟩, hwrap⟩ := h
    refine ⟨⟨hbegin, letsEnd_append hend hmore⟩, hwrap.imp id fun hclose => ?_⟩
    exact Bool.eq_false_iff.mpr fun htrue =>
      Bool.eq_false_iff.mp hclose (mayClose_of_append hmore htrue)

namespace Template

variable {fill? : Slot → Option Text} {values : Reference → Option Text}

theorem isSetOff_before {left : Text} {slots : List (Slot × Text)}
    (h : isSetOff values false left slots = true) (first : Bool) (before : Text) :
    isSetOff values first (before ++ left) slots = true := by
  cases slots with
  | nil => rfl
  | cons place more =>
    obtain ⟨slot, right⟩ := place
    simp only [isSetOff, Bool.and_eq_true] at h ⊢
    refine ⟨?_, h.2⟩
    cases slot with
    | interpolation => rfl
    | word ref =>
      have hslot := h.1
      simp only [Slot.isSetOff, Bool.and_eq_true, Bool.not_eq_true', Bool.and_eq_false_iff]
        at hslot ⊢
      obtain ⟨⟨hbegin, hend⟩, hwrap⟩ := hslot
      refine ⟨⟨letsBegin_append hbegin first before, hend⟩, hwrap.imp_left (Or.imp id ?_)⟩
      intro hopen
      exact Bool.eq_false_iff.mpr fun htrue =>
        Bool.eq_false_iff.mp hopen (mayOpen_of_append htrue)

/-- Filling slots keeps the others set off. -/
theorem isSetOff_close {first : Bool} {front : Text} {slots : List (Slot × Text)}
    (h : isSetOff values first front slots = true) :
    isSetOff values first (close fill? front slots).front (close fill? front slots).slots =
      true := by
  induction slots generalizing first front with
  | nil => rfl
  | cons place more ih =>
    obtain ⟨slot, literal⟩ := place
    obtain ⟨hslot, hmore⟩ := Bool.and_eq_true_iff.mp h
    cases hfill : fill? slot with
    | some filling =>
      rw [close_of_some hfill, ← List.append_assoc]
      exact ih (isSetOff_before hmore first _)
    | none =>
      rw [close_of_none hfill]
      obtain ⟨rest, hrest, hempty⟩ := exists_front_close fill? literal more
      refine Bool.and_eq_true_iff.mpr ⟨?_, ih hmore⟩
      rw [hrest]
      refine Slot.isSetOff_append hslot fun hlast => ⟨hempty hlast, ?_⟩
      rw [List.isEmpty_iff.mp hlast]
      rfl

end Template


/-! ### Substitution -/

/-- What a quoted string makes of the interpolations of its reference. -/
def Slot.inlined? (ref : Reference) (value : Text) (slot : Slot) : Option Text :=
  if slot.isInterpolationOf ref then some (inner (strip value)) else none

theorem Slot.eq_filled_of_inlined? {values : Reference → Option Text} {ref : Reference}
    {value filling : Text} (hvalue : values ref = some value)
    (hquoted : isQuotedString value = true) {slot : Slot}
    (h : slot.inlined? ref value = some filling) : filling = slot.filled values := by
  cases slot with
  | word other => cases h
  | interpolation other front back hfront hback =>
    by_cases hsame : other = ref
    · subst hsame
      simpa [inlined?, isInterpolationOf, filled, Slot.reference, hvalue, Slot.filling, hquoted]
        using h.symm
    · simp [inlined?, isInterpolationOf, hsame] at h

namespace IsCaptureFree

variable {values : Reference → Option Text} {references : List Reference} {first : Bool}
  {front : Text} {slots : List (Slot × Text)} {ref : Reference}

theorem close {fill? : Slot → Option Text} (h : IsCaptureFree values references first front slots)
    (hfill : ∀ place ∈ slots, ∀ filling, fill? place.1 = some filling →
      filling = place.1.filled values) :
    IsCaptureFree values references first (Template.close fill? front slots).front
      (Template.close fill? front slots).slots where
  found place hplace := by
    obtain ⟨-, literal, hmem⟩ := Template.mem_slots_close hplace
    exact h.found (place.1, literal) hmem
  setOff := Template.isSetOff_close h.setOff
  apart := h.apart
  free stretch hstretch := h.free stretch (Template.stretches_close front hfill hstretch)

variable (hwell : ∀ ref ∈ references, ref.IsWellFormed) (hmem : ref ∈ references)

include hwell hmem

/-- A substitution fills the slots of its reference. -/
theorem substitute_text (h : IsCaptureFree values references true front slots) {value : Text}
    (hvalue : values ref = some value) :
    substitute (Template.text ⟨front, slots⟩) ref.text value =
      Template.render (fun slot => if slot.reference = ref then slot.filling value else slot.text)
        ⟨front, slots⟩ := by
  have hsome : (values ref).isSome = true := by simp [hvalue]
  cases hquoted : isQuotedString value with
  | false =>
    have hput (slot : Slot) : slot.put value = slot.filling value := by
      cases slot <;> simp [Slot.put, Slot.filling, hquoted]
    simp only [substitute, hquoted]
    rw [if_neg Bool.false_ne_true, Template.text,
      h.replace_words hwell hmem hsome none (fun _ => rfl)]
    simp only [hput]
  | true =>
    -- the first pass fills the interpolations, the second one the words
    have hfill : ∀ place ∈ slots, ∀ filling,
        place.1.inlined? ref value = some filling → filling = place.1.filled values := by
      intro place _ filling hfilling
      exact Slot.eq_filled_of_inlined? hvalue hquoted hfilling
    have hclose := (h.close hfill).replace_words hwell hmem hsome none (fun _ => rfl) value
    have hinlined : Template.render
        (fun slot => if slot.isInterpolationOf ref then inner (strip value) else slot.text)
        ⟨front, slots⟩ = (Template.close (Slot.inlined? ref value) front slots).text := by
      rw [Template.text, Template.render_close]
      congr 1
      funext slot
      simp only [Slot.inlined?]
      split <;> rfl
    have hdisplay (slot : Slot) : (slot.inlined? ref value).getD
        (if slot.reference = ref then slot.put value else slot.text) =
          if slot.reference = ref then slot.filling value else slot.text := by
      cases slot with
      | word other => rfl
      | interpolation other front back hfront hback =>
        by_cases hsame : other = ref
        · simp [Slot.inlined?, Slot.isInterpolationOf, Slot.reference, Slot.filling, hsame, hquoted]
        · simp [Slot.inlined?, Slot.isInterpolationOf, Slot.reference, hsame]
    simp only [substitute, hquoted, if_true]
    rw [Template.text, h.replace_interpolations hwell hmem hsome none (by simp [hvalue, hquoted]),
      hinlined]
    refine hclose.trans ?_
    rw [Template.render_close]
    simp only [hdisplay]

end IsCaptureFree

/-! ### Expansion -/

/-- One step of an expansion: the value takes the place of the reference, if there is one. -/
def putValue (values : Reference → Option Text) (text : Text) (ref : Reference) : Text :=
  match values ref with
  | some value => substitute text ref.text value
  | none => text

/-- Answers every reference by its value. -/
def answering (values : Reference → Option Text) (ctx : Context) : Run Resolution :=
  pure { value := values ctx.reference, cacheable := true }

theorem value_foldlM_expandOne (values : Reference → Option Text) (ctx : Context)
    (dir : Path) (stack : List ModuleFrame) (order : List Reference) (start : Expansion) :
    (·.value) <$> order.foldlM (expandOne (answering values) ctx dir stack) start =
      pure (order.foldl (putValue values) start.value) := by
  induction order generalizing start with
  | nil => simp
  | cons ref order ih =>
    rw [List.foldlM_cons, List.foldl_cons, putValue]
    cases hvalue : values ref with
    | some value => simp [expandOne, answering, Context.child, hvalue, ih]
    | none => simp [expandOne, answering, Context.child, hvalue, ih]

theorem Template.render_congr {display display' : Slot → Text} {front : Text}
    {slots : List (Slot × Text)} (h : ∀ place ∈ slots, display place.1 = display' place.1) :
    render display ⟨front, slots⟩ = render display' ⟨front, slots⟩ := by
  induction slots generalizing front with
  | nil => rfl
  | cons place more ih =>
    obtain ⟨hplace, hmore⟩ := List.forall_mem_cons.mp h
    rw [render_cons, render_cons, hplace, ih hmore]

/-- What a value makes of the slots of its reference. -/
def Slot.settled? (ref : Reference) (value : Text) (slot : Slot) : Option Text :=
  if slot.reference = ref then some (slot.filling value) else none

/-- In every order in which the values come into the text, the template is filled. -/
theorem IsCaptureFree.foldl_putValue {values : Reference → Option Text}
    {references order : List Reference} {front : Text} {slots : List (Slot × Text)}
    (hwell : ∀ ref ∈ references, ref.IsWellFormed)
    (h : IsCaptureFree values references true front slots)
    (horder : ∀ ref ∈ order, ref ∈ references)
    (hslots : ∀ place ∈ slots, (values place.1.reference).isSome = true →
      place.1.reference ∈ order) :
    order.foldl (putValue values) (Template.text ⟨front, slots⟩) =
      Template.fill values ⟨front, slots⟩ := by
  induction order generalizing front slots with
  | nil =>
    refine Template.render_congr fun place hplace => ?_
    cases hvalue : values place.1.reference with
    | none => simp [Slot.filled, hvalue]
    | some value => exact absurd (hslots place hplace (by simp [hvalue])) List.not_mem_nil
  | cons ref order ih =>
    obtain ⟨hmem, horder⟩ := List.forall_mem_cons.mp horder
    rw [List.foldl_cons, putValue]
    cases hvalue : values ref with
    | none =>
      refine ih h horder fun place hplace hsome => ?_
      refine (List.mem_cons.mp (hslots place hplace hsome)).resolve_left fun hsame => ?_
      simp [hsame, hvalue] at hsome
    | some value =>
      have hfill : ∀ place ∈ slots, ∀ filling,
          place.1.settled? ref value = some filling →
            filling = place.1.filled values := by
        intro place _ filling hfilling
        by_cases hsame : place.1.reference = ref
        · simpa [Slot.settled?, Slot.filled, hsame, hvalue] using hfilling.symm
        · simp [Slot.settled?, hsame] at hfilling
      have hstage : substitute (Template.text ⟨front, slots⟩) ref.text value =
          (Template.close (Slot.settled? ref value) front slots).text := by
        rw [h.substitute_text hwell hmem hvalue, Template.text, Template.render_close]
        refine Template.render_congr fun place _ => ?_
        by_cases hsame : place.1.reference = ref <;> simp [Slot.settled?, hsame]
      have hfilled : (Template.close (Slot.settled? ref value) front slots).fill values =
          Template.fill values ⟨front, slots⟩ := by
        rw [Template.fill, Template.render_close]
        refine Template.render_congr fun place hplace => ?_
        cases hsettled : place.1.settled? ref value with
        | none => rfl
        | some filling => exact hfill place hplace filling hsettled
      simp only
      rw [hstage, ← hfilled]
      refine ih (h.close hfill) horder fun place hplace hsome => ?_
      obtain ⟨hnone, literal, hmem'⟩ := Template.mem_slots_close hplace
      refine (List.mem_cons.mp (hslots (place.1, literal) hmem' hsome)).resolve_left ?_
      intro hsame
      simp [Slot.settled?, hsame] at hnone

/-- The references of a text come to the same text in whatever order they are replaced: the
template with all values in their places. -/
theorem expansion_order_free {template : Template} {values : Reference → Option Text}
    (h : IsCaptureFree values (references template.text) true template.front template.slots)
    {order : List Reference} (horder : order.Perm (references template.text)) :
    order.foldl (putValue values) template.text = template.fill values ∧
      ∀ ctx dir stack, (·.value) <$> order.foldlM (expandOne (answering values) ctx dir stack)
          { value := template.text } = pure (template.fill values) := by
  have hfold : order.foldl (putValue values) template.text = template.fill values :=
    h.foldl_putValue (fun ref => isWellFormed_of_mem_references)
      (fun ref hmem => horder.mem_iff.mp hmem)
      fun place hplace _ => horder.mem_iff.mpr (h.found place hplace)
  refine ⟨hfold, fun ctx dir stack => ?_⟩
  rw [value_foldlM_expandOne, hfold]

/-- The values of a table. -/
def tableValues (table : List (String × String)) (ref : Reference) : Option Text :=
  (table.map fun entry => (entry.1.toList, entry.2.toList)).lookup ref.text

/-- An object with an interpolated name and a size. One interpolation has no value. -/
def bucketTemplate : Template where
  front := "\x7b name = \"".toList
  slots :=
    [(.interpolation ⟨.moduleOutput, ["m".toList, "o".toList], by decide⟩ [' '] [' ']
        (forall_of_all (by decide)) (forall_of_all (by decide)), "/".toList),
      (.interpolation ⟨.input, ["x".toList], by decide⟩ [] [] nofun nofun,
        "-$\x7bvar.gone\x7d\", size = ".toList),
      (.word ⟨.input, ["xs".toList], by decide⟩, " \x7d".toList)]

/-- One of the values still holds a reference of its own. -/
def bucketValues : Reference → Option Text :=
  tableValues [("module.m.o", "\"m-$\x7bvar.y\x7d\""), ("var.x", "\"prod\""), ("var.xs", "3")]

theorem bucket_order_free :
    bucketTemplate.text =
        "\x7b name = \"$\x7b module.m.o \x7d/$\x7bvar.x\x7d-$\x7bvar.gone\x7d\", size = var.xs \x7d".toList ∧
      IsCaptureFree bucketValues (references bucketTemplate.text) true bucketTemplate.front
        bucketTemplate.slots ∧
      (references bucketTemplate.text).reverse.foldl (putValue bucketValues) bucketTemplate.text =
        bucketTemplate.fill bucketValues ∧
      bucketTemplate.fill bucketValues =
        "\x7b name = \"m-$\x7bvar.y\x7d/prod-$\x7bvar.gone\x7d\", size = 3 \x7d".toList := by
  have hfree : IsCaptureFree bucketValues (references bucketTemplate.text) true
      bucketTemplate.front bucketTemplate.slots :=
    ⟨by decide, by decide, by decide, by decide⟩
  exact ⟨by decide, hfree, (expansion_order_free hfree (List.reverse_perm _)).1,
    by decide⟩

/-- What the references of a text come to in the order in which they are found, and in the
opposite order. -/
def bothOrders (text : Text) (table : List (String × String)) : Text × Text :=
  ((references text).foldl (putValue (tableValues table)) text,
    (references text).reverse.foldl (putValue (tableValues table)) text)

/-- Texts and values that get in the way of each other: a value and the text after it make up
the other reference; a reference ends with a hyphen and another one; a value continues the word
that stands next to it; a value opens an interpolation around the next word. -/
def entangled : List (Text × List (String × String)) :=
  [("\"$\x7blocal.p\x7dr.x $\x7bvar.x\x7d\"".toList, [("local.p", "\"va\""), ("var.x", "1")]),
    ("local.a-var.b + var.b".toList, [("local.a-var.b", "1"), ("var.b", "2")]),
    ("\"$\x7bvar.e\x7dvar.x $\x7bvar.x\x7d\"".toList, [("var.e", "\"e\""), ("var.x", "1")]),
    ("\"$\x7bvar.d\x7d var.x\x7d $\x7bvar.x\x7d\"".toList,
      [("var.d", "\"$\x7b\""), ("var.x", "\"x\"")])]

/-- The order decides where a value holds the other reference, and in all other cases of
entanglement. -/
theorem expansion_order_matters :
    bothOrders "\"$\x7bmodule.m.o\x7d/$\x7bvar.x\x7d\"".toList
        [("module.m.o", "\"m-$\x7bvar.x\x7d\""), ("var.x", "\"prod\"")] =
        ("\"m-prod/prod\"".toList, "\"m-$\x7bvar.x\x7d/prod\"".toList) ∧
      (entangled.all fun case =>
        (bothOrders case.1 case.2).1 ≠ (bothOrders case.1 case.2).2) = true := by
  constructor <;> decide

end TerraformTrace
