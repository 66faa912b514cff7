import TerraformTrace.Proofs.ValueFile

/-!
# TerraformTrace.Proofs.LiteralText

The texts of lists and objects whose items are told apart by commas. An item is *told from
what stands around it* if it is closed, has no comments, and neither begins nor ends with a
blank. **Lists are cut between such items only** (`items_eq`), and the scan of assignments
takes each field of an object as a whole (`pairs_object`).

Both readers pass over a balanced part in one go, so nothing has to be known of what stands
in an item.
-/

namespace TerraformTrace

namespace Hcl

open Text

variable {pieces : List (Text × Text)} {s : Mask.State}

/-! ### Texts without comments -/

/-- Read in code, the text leads back to code, and its mask is balanced and hides nothing. -/
def IsUncommented (P : Char → Prop) (text : Text) : Prop :=
  ∃ shown, Mask.Shows [] text shown [] ∧ Balanced P shown ∧ hidden ∉ shown

namespace IsUncommented

variable {P Q : Char → Prop} {text more : Text}

theorem nil : IsUncommented P [] := ⟨[], .nil [], .nil, by simp⟩

theorem append (h : IsUncommented P text) (h' : IsUncommented P more) :
    IsUncommented P (text ++ more) := by
  obtain ⟨shown, hshows, hbalanced, hhidden⟩ := h
  obtain ⟨shown', hshows', hbalanced', hhidden'⟩ := h'
  exact ⟨shown ++ shown', hshows.append hshows', hbalanced.append hbalanced',
    by simp [hhidden, hhidden']⟩

theorem mono (h : IsUncommented P text) (hPQ : ∀ c, P c → Q c) : IsUncommented Q text := by
  obtain ⟨shown, hshows, hbalanced, hhidden⟩ := h
  exact ⟨shown, hshows, hbalanced.mono hPQ, hhidden⟩

theorem of_forall (h : ∀ c ∈ text, IsClosed.IsPlain c ∧ P c) (hhidden : hidden ∉ text) :
    IsUncommented P text := by
  refine ⟨text, IsClosed.shows_of_forall fun c hc => (h c hc).1, .of_forall fun c hc => ?_, hhidden⟩
  obtain ⟨⟨-, hopener, hcloser⟩, hc⟩ := h c hc
  exact ⟨hopener, hcloser, hc⟩

theorem group {opening closing : Char} (hencloses : Encloses opening closing)
    (h : IsUncommented (fun _ => True) text) :
    IsUncommented P (opening :: (text ++ [closing])) := by
  obtain ⟨shown, hshows, hbalanced, hhidden⟩ := h
  refine ⟨_, hencloses.shows hshows, .group hencloses hbalanced, ?_⟩
  cases hencloses <;> simp [hidden] <;> simpa [hidden] using hhidden

end IsUncommented

theorem ClosesString.isUncommented {text : Text} (h : ClosesString text) :
    IsUncommented (endsValue · = false) ('"' :: text) := by
  obtain ⟨shown, hshows, hshown⟩ := h
  refine ⟨'"' :: shown, (Mask.shows_openQuote rfl).append hshows, balanced_quoted hshown,
    fun hmem => ?_⟩
  rcases List.mem_cons.mp hmem with h | h
  · simp [hidden] at h
  · rcases hshown _ h with h | h | h
    · simp [hidden] at h
    · simp [hidden] at h
    · revert h
      decide

/-! ### Lists are cut at their commas -/

theorem splitItems_comma (c : Char) (text mask : Text) :
    splitItems [','] 0 (c :: text) (',' :: mask) = ([], []) :: splitItems [','] 0 text mask := rfl

theorem splitItems_cons {depth : Nat} {m : Char} (h : depth = 0 → m ≠ ',') (c : Char)
    {text mask piece shown : Text}
    (hrest : splitItems [','] (nextDepth depth m) text mask = (piece, shown) :: pieces) :
    splitItems [','] depth (c :: text) (m :: mask) = (c :: piece, m :: shown) :: pieces := by
  have hcut : ¬(depth = 0 && !isOpener m && !isCloser m && [','] = [m]) = true := by
    intro hcut
    simp only [Bool.and_eq_true, decide_eq_true_eq, List.cons.injEq, and_true] at hcut
    exact h hcut.1.1.1 hcut.2.symm
  rw [splitItems, if_neg hcut, hrest]

theorem Passes.splitItems {before after : Nat} {text shown rest mask piece more : Text}
    (h : Passes (· ≠ ',') before text shown after)
    (hrest : splitItems [','] after rest mask = (piece, more) :: pieces) :
    splitItems [','] before (text ++ rest) (shown ++ mask) =
      (text ++ piece, shown ++ more) :: pieces := by
  induction h with
  | nil => exact hrest
  | cons hm c _ ih => exact splitItems_cons hm c (ih hrest)

/-- A balanced part stays in one piece; at depth zero it may have no comma. -/
theorem Balanced.splitItems {P : Char → Prop} {shown text : Text} (h : Balanced P shown)
    (hlength : shown.length = text.length) {depth : Nat} (hP : depth = 0 → ∀ c, P c → c ≠ ',')
    {rest mask piece more : Text}
    (hrest : splitItems [','] depth rest mask = (piece, more) :: pieces) :
    splitItems [','] depth (text ++ rest) (shown ++ mask) =
      (text ++ piece, shown ++ more) :: pieces :=
  (h.passes hlength (fun hzero c _ hc => hP hzero c hc) fun _ => by decide).splitItems hrest

/-! ### Layouts -/

theorem isBlank_of_isLayout {c : Char} (h : isLayout c = true) : isBlank c = true := by
  simp only [isLayout, isIndent, Bool.or_eq_true, decide_eq_true_eq] at h
  rcases h with ((rfl | rfl) | rfl) | rfl <;> decide

theorem isLayout_of_isGap {c : Char} (h : isGap c = true) : isLayout c = true := by
  simp only [isGap, Bool.or_eq_true, decide_eq_true_eq] at h
  rcases h with rfl | rfl <;> decide

theorem isUncommented_layout {layout : Text} (h : ∀ c ∈ layout, isLayout c = true) :
    IsUncommented (· ≠ ',') layout := by
  refine .of_forall (fun c hc => ⟨?_, ?_⟩) fun hhidden => ?_
  · exact isPlain_of_class (p := isLayout) (forall_of_all (by decide)) (h c hc)
  · exact ne_of_class (p := isLayout) (h c hc) (by decide)
  · exact absurd (h _ hhidden) (by decide)

theorem shows_layout {layout : Text} (h : ∀ c ∈ layout, isLayout c = true) :
    Mask.Shows [] layout layout [] :=
  IsClosed.shows_of_forall fun c hc =>
    isPlain_of_class (p := isLayout) (forall_of_all (by decide)) (h c hc)

theorem strip_between {front value back : Text} (hfront : ∀ c ∈ front, isLayout c = true)
    (hvalue : IsTrimmed value) (hback : ∀ c ∈ back, isLayout c = true) :
    strip (front ++ (value ++ back)) = value := by
  have hleft : stripLeft (front ++ (value ++ back)) = value ++ back := by
    rw [stripLeft, List.dropWhile_append_of_pos fun c hc => isBlank_of_isLayout (hfront c hc)]
    obtain ⟨c, rest, rfl, hc, -⟩ := hvalue.first
    exact List.dropWhile_cons_of_neg (by simp [hc])
  rw [strip, hleft, stripRight_append hvalue fun c hc => isBlank_of_isLayout (hback c hc)]

/-- Without comments, only the blanks at the ends are cut off. -/
theorem withoutComments_eq {text shown : Text} (hlength : shown.length = text.length)
    (hhidden : hidden ∉ shown) : withoutComments text shown = strip text := by
  have hkept : ((text.zip shown).filter fun pair => pair.2 ≠ hidden) = text.zip shown := by
    refine List.filter_eq_self.mpr fun pair hpair => ?_
    have hmem : pair.2 ∈ shown := (List.of_mem_zip hpair).2
    exact decide_eq_true fun h => hhidden (h ▸ hmem)
  rw [withoutComments, hkept, List.map_fst_zip (Nat.le_of_eq hlength.symm)]

/-! ### The items of a list -/

/-- The text of an item can be told from what stands around it. -/
structure IsItem (text : Text) : Prop where
  isTrimmed : IsTrimmed text
  isUncommented : IsUncommented (endsValue · = false) text

theorem ne_comma_of_endsValue {c : Char} (h : endsValue c = false) : c ≠ ',' := by
  rintro rfl
  cases h

/-- Items after the first, each with a comma and a layout before it. -/
def followedBy (layout : Text) (items : List Text) : Text :=
  items.flatMap fun item => ',' :: (layout ++ item)

section Items

variable {layout closing : Text} (hlayout : ∀ c ∈ layout, isLayout c = true)
  (hclosing : ∀ c ∈ closing, isLayout c = true)
include hlayout hclosing

/-- Items are found between layout and commas. -/
theorem splitItems_items {front first : Text} {more : List Text}
    (hfront : ∀ c ∈ front, isLayout c = true) (hfirst : IsItem first)
    (hmore : ∀ item ∈ more, IsItem item) (hs : s.StandsIn []) :
    (splitItems [','] 0 (front ++ (first ++ (followedBy layout more ++ closing)))
        (Mask.run s (front ++ (first ++ (followedBy layout more ++ closing))))).map
        (fun piece => withoutComments piece.1 piece.2) = first :: more := by
  have hitem : IsUncommented (· ≠ ',') first :=
    hfirst.isUncommented.mono fun _ => ne_comma_of_endsValue
  induction more generalizing front first s with
  | nil =>
    obtain ⟨shown, hshows, hbalanced, hhidden⟩ :=
      (isUncommented_layout hfront).append (hitem.append (isUncommented_layout hclosing))
    obtain ⟨s', -, hrun⟩ := hshows s hs
    have hmask : Mask.run s (front ++ (first ++ closing)) = shown := by
      simpa [Mask.run] using hrun []
    have hsplit : splitItems [','] 0 (front ++ (first ++ closing) ++ []) (shown ++ []) =
        [(front ++ (first ++ closing) ++ [], shown ++ [])] :=
      hbalanced.splitItems hshows.length_eq (fun _ _ hc => hc) rfl
    simp only [List.append_nil] at hsplit
    simp only [followedBy, List.flatMap_nil, List.nil_append, hmask, hsplit, List.map_cons,
      List.map_nil, withoutComments_eq hshows.length_eq hhidden,
      strip_between hfront hfirst.isTrimmed hclosing]
  | cons second more ih =>
    obtain ⟨hsecond, hmore⟩ := List.forall_mem_cons.mp hmore
    obtain ⟨shown, hshows, hbalanced, hhidden⟩ := (isUncommented_layout hfront).append hitem
    obtain ⟨s₁, hs₁, hrun₁⟩ := hshows s hs
    obtain ⟨s₂, hs₂, hrun₂⟩ := (Mask.shows_code (c := ',') (by decide)) s₁ hs₁
    have hrest := ih hlayout hsecond hmore hs₂
      (hsecond.isUncommented.mono fun _ => ne_comma_of_endsValue)
    have htext : front ++ (first ++ (followedBy layout (second :: more) ++ closing)) =
        front ++ first ++ (',' :: (layout ++ (second ++ (followedBy layout more ++ closing)))) := by
      simp [followedBy]
    have hsplit := hbalanced.splitItems hshows.length_eq (fun _ _ hc => hc)
      (splitItems_comma ',' (layout ++ (second ++ (followedBy layout more ++ closing)))
        (Mask.run s₂ (layout ++ (second ++ (followedBy layout more ++ closing)))))
    have hmask : Mask.run s₁ (',' :: (layout ++ (second ++ (followedBy layout more ++ closing)))) =
        ',' :: Mask.run s₂ (layout ++ (second ++ (followedBy layout more ++ closing))) := hrun₂ _
    have hstrip : strip (front ++ (first ++ [])) = first :=
      strip_between hfront hfirst.isTrimmed (List.forall_mem_nil _)
    rw [List.append_nil] at hstrip
    rw [htext, hrun₁, hmask, hsplit, List.map_cons, hrest]
    simp only [List.append_nil, withoutComments_eq hshows.length_eq hhidden, hstrip]

theorem items_eq {opening first : Text} {more : List Text}
    (hopening : ∀ c ∈ opening, isLayout c = true) (hfirst : IsItem first)
    (hmore : ∀ item ∈ more, IsItem item) :
    items (opening ++ (first ++ (followedBy layout more ++ closing))) = first :: more := by
  have hsplit := splitItems_items hlayout hclosing hopening hfirst hmore
    (s := Mask.State.start) ⟨rfl, rfl⟩
  have hne : ∀ item ∈ first :: more, (!item.isEmpty) = true := by
    intro item hitem
    have htrimmed : IsTrimmed item := by
      rcases List.mem_cons.mp hitem with rfl | hmem
      · exact hfirst.isTrimmed
      · exact (hmore item hmem).isTrimmed
    obtain ⟨c, rest, rfl, -⟩ := htrimmed.first
    rfl
  exact (congrArg (List.filter _) hsplit).trans (List.filter_eq_self.mpr hne)

end Items

/-! ### Keys -/

/-- What may stand at either end of a name. -/
def IsQuote (quote : Text) : Prop := quote = [] ∨ quote = ['"']

theorem exists_quote (text : Text) :
    ∃ quote rest, IsQuote quote ∧ text = quote ++ rest ∧ quoteLength text = quote.length := by
  by_cases hquote : text.head? = some '"'
  · obtain ⟨rest, rfl⟩ := List.head?_eq_some_iff.mp hquote
    exact ⟨['"'], rest, .inr rfl, rfl, rfl⟩
  · exact ⟨[], text, .inl rfl, rfl, if_neg hquote⟩

theorem exists_of_startsWithOperator {colon : Bool} {text : Text}
    (h : startsWithOperator colon text = true) :
    ∃ operator rest, text = operator :: rest ∧ (operator = '=' ∨ operator = ':') := by
  unfold startsWithOperator at h
  split at h
  next rest => exact ⟨'=', rest, rfl, .inl rfl⟩
  next rest => exact ⟨':', rest, rfl, .inr rfl⟩
  next => cases h

/-- A key is a name, with or without quotes, a gap and an operator. -/
theorem exists_of_key? {colon : Bool} {text : Text} {key : Key} (h : key? colon text = some key) :
    ∃ opening closing gap operator rest, IsQuote opening ∧ IsQuote closing ∧
      (∀ c ∈ gap, isGap c = true) ∧ (operator = '=' ∨ operator = ':') ∧
      startsWithOperator colon (operator :: rest) = true ∧ isName key.name = true ∧
      text = opening ++ key.name ++ closing ++ gap ++ operator :: rest ∧
      key.length = (opening ++ key.name ++ closing ++ gap).length + 1 := by
  obtain ⟨opening, behind, hopening, rfl, hquote⟩ := exists_quote text
  rw [key?] at h
  obtain ⟨name, hname, h⟩ := Option.bind_eq_some_iff.mp h
  rw [hquote, List.drop_left' rfl] at hname
  obtain ⟨afterName, rfl, -⟩ := exists_append_of_leadingName? hname
  have hdrop : (opening ++ (name ++ afterName)).drop (opening.length + name.length) =
      afterName := by
    rw [← List.append_assoc, List.drop_left' (by rw [List.length_append])]
  obtain ⟨closing, afterQuote, hclosing, rfl, hquote'⟩ := exists_quote afterName
  simp only [hquote, hdrop, hquote', ← List.drop_drop, List.drop_left' rfl] at h
  split at h
  next hoperator =>
    cases h
    obtain ⟨operator, rest, hrest, hequals⟩ := exists_of_startsWithOperator hoperator
    have hgap := takeWhile_append_drop isGap afterQuote
    rw [hrest] at hgap hoperator
    refine ⟨opening, closing, afterQuote.takeWhile isGap, operator, rest, hopening, hclosing,
      List.all_eq_true.mp List.all_takeWhile, hequals, hoperator, isName_of_leadingName? hname,
      ?_, ?_⟩
    · simp only [List.append_assoc, hgap]
    · simp only [List.length_append]
  next => cases h

/-- The rest of a key is code, or in a string blank. -/
theorem shows_operator {gap : Text} (hgap : ∀ c ∈ gap, isGap c = true) {operator : Char}
    (hoperator : operator = '=' ∨ operator = ':') :
    Mask.Shows [] (gap ++ [operator]) (gap ++ [operator]) [] ∧
      ∀ modes, Mask.Shows (.string :: modes) (gap ++ [operator]) (gap.map (fun _ => ' ') ++ [' '])
        (.string :: modes) := by
  have hclass : ∀ c ∈ gap ++ [operator], (isGap c || c = '=' || c = ':') = true := by
    intro c hc
    rcases List.mem_append.mp hc with hc | hc
    · rw [hgap c hc, Bool.true_or, Bool.true_or]
    · rw [List.mem_singleton.mp hc]
      rcases hoperator with rfl | rfl <;> decide
  have hne : ∀ c ∈ gap ++ [operator], ∀ {d}, (isGap d || d = '=' || d = ':') = false → c ≠ d :=
    fun c hc d hd => ne_of_class (p := fun c => isGap c || c = '=' || c = ':') (hclass c hc) hd
  refine ⟨?_, fun modes => ?_⟩
  · have hcode := Mask.Shows.of_forall id fun c hc => Mask.shows_code (c := c) (by
      simp only [List.mem_cons, List.not_mem_nil, or_false, not_or]
      exact ⟨hne c hc (by decide), hne c hc (by decide), hne c hc (by decide),
        hne c hc (by decide)⟩)
    rwa [List.map_id] at hcode
  · have hblank : Mask.Shows (.string :: modes) (gap ++ [operator])
        ((gap ++ [operator]).map fun _ => ' ') (.string :: modes) :=
      .of_forall _ fun c hc => Mask.shows_stringChar (hne c hc (by decide))
        (hne c hc (by decide)) (hne c hc (by decide)) (hne c hc (by decide))
    rwa [List.map_append] at hblank

/-! ### The fields of an object -/

/-- A quoted name, a colon and a value. -/
def fieldText (field : Text × Text) : Text := '"' :: (field.1 ++ '"' :: ':' :: ' ' :: field.2)

/-- The name and the value of a field can be told from what stands around them. -/
structure IsField (field : Text × Text) : Prop where
  isName : isName field.1 = true
  value : IsItem field.2

/-- A name in quotes is a key if only spaces and tabs stand between it and the colon. -/
theorem key?_quoted {name gap : Text} (hname : isName name = true)
    (hgap : ∀ c ∈ gap, isGap c = true) (text : Text) :
    key? true ('"' :: (name ++ '"' :: gap) ++ ':' :: text) =
      some { name, length := ('"' :: (name ++ '"' :: gap)).length + 1 } := by
  have hleading : leadingName? (name ++ '"' :: (gap ++ ':' :: text)) = some name :=
    leadingName?_append hname (by simp; decide)
  have hdrop : ('"' :: (name ++ '"' :: (gap ++ ':' :: text))).drop (1 + name.length) =
      '"' :: (gap ++ ':' :: text) := by
    rw [Nat.add_comm, List.drop_succ_cons, List.drop_left]
  have hopening : quoteLength ('"' :: (name ++ '"' :: (gap ++ ':' :: text))) = 1 := rfl
  have hclosing : quoteLength ('"' :: (gap ++ ':' :: text)) = 1 := rfl
  have hrun : (gap ++ ':' :: text).takeWhile isGap = gap :=
    takeWhile_append_of_head? hgap (by simp; decide)
  have hafter : ('"' :: (gap ++ ':' :: text)).drop (1 + gap.length) = ':' :: text := by
    rw [Nat.add_comm, List.drop_succ_cons, List.drop_left]
  simp only [List.cons_append, List.append_assoc, key?, hopening, List.drop_succ_cons,
    List.drop_zero, hleading, Option.bind_some, hdrop, hclosing, hrun, hafter, startsWithOperator,
    if_true]
  congr 2
  simp only [List.length_cons, List.length_append]
  omega

theorem shows_nameInString {name : Text} (h : isName name = true) (modes : List Mask.Mode) :
    Mask.Shows (.string :: modes) name (name.map fun _ => ' ') (.string :: modes) := by
  refine .of_forall _ fun c hc => ?_
  have hne : ∀ {d}, isPathChar d = false → c ≠ d :=
    ne_of_isPathChar (Identifier.isPathChar ⟨name, h⟩ c hc)
  exact Mask.shows_stringChar (hne (by decide)) (hne (by decide)) (hne (by decide))
    (hne (by decide))

theorem shows_quotedName {name gap : Text} (hname : isName name = true)
    (hgap : ∀ c ∈ gap, isGap c = true) :
    Mask.Shows [] ('"' :: (name ++ '"' :: gap))
      ('"' :: (name.map (fun _ => ' ') ++ '"' :: gap)) [] :=
  .cons (Mask.shows_openQuote rfl) ((shows_nameInString hname []).append
    (.cons (Mask.shows_closeQuote []) (shows_layout fun c hc => isLayout_of_isGap (hgap c hc))))

/-- The scan takes a name in quotes with its value, up to what ends the value. -/
theorem scanAssignments_quoted {name gap : Text} (hname : isName name = true)
    (hgap : ∀ c ∈ gap, isGap c = true) (hs : s.StandsIn []) :
    ∃ s' : Mask.State, s'.StandsIn [] ∧
      ∀ (pos : Nat) {space front tail shown mask : Text}, (∀ c ∈ space, isGap c = true) →
        (∀ c ∈ (front ++ tail).head?, isGap c = false ∧ c ≠ '<') →
        shown.length = front.length → Balanced (endsValue · = false) shown →
        extent? 0 mask = some 0 →
        Mask.run s' (space ++ (front ++ tail)) = space ++ (shown ++ mask) →
        ∃ assignment : Assignment,
          assignment.name = name ∧ assignment.value = stripRight front ∧
          scanAssignments true 0 0 true pos
              ('"' :: (name ++ '"' :: gap) ++ ':' :: (space ++ (front ++ tail)))
              (Mask.run s ('"' :: (name ++ '"' :: gap) ++ ':' :: (space ++ (front ++ tail)))) =
            assignment :: scanAssignments true 0 0 false
              (pos + ('"' :: (name ++ '"' :: gap) ++ ':' :: (space ++ front)).length)
              tail mask := by
  have hshows := shows_quotedName hname hgap
  have hcolon : Mask.Shows [] [':'] [':'] [] := Mask.shows_code (by decide)
  obtain ⟨s₁, hs₁, hrun₁⟩ := hshows s hs
  obtain ⟨s', hs', hrun⟩ := hcolon s₁ hs₁
  refine ⟨s', hs', fun pos {space front tail shown mask} hspace hhead hlength hshown hend
    hmask => ?_⟩
  have hvalue := readValue_upTo hspace hhead hlength hshown hend
  have hread := assignmentAt?_of_key true (key?_quoted hname hgap (space ++ (front ++ tail)))
    hshows.length_eq rfl hvalue pos
  have hmask' : Mask.run s₁ (':' :: (space ++ (front ++ tail))) =
      ':' :: (space ++ (shown ++ mask)) :=
    (hrun _).trans (congrArg (':' :: ·) hmask)
  -- what is taken is told from what is left
  have htext : '"' :: (name ++ '"' :: gap) ++ ':' :: (space ++ (front ++ tail)) =
      '"' :: (name ++ '"' :: gap) ++ ':' :: (space ++ front) ++ tail := by simp
  have hshown' (covered : Text) : covered ++ ':' :: (space ++ (shown ++ mask)) =
      covered ++ ':' :: (space ++ shown) ++ mask := by simp
  have htaken : ('"' :: (name ++ '"' :: gap) ++ ':' :: (space ++ front)).length =
      ('"' :: (name ++ '"' :: gap)).length + 1 + (space.length + front.length) := by
    simp only [List.length_append, List.length_cons]
    omega
  rw [htext, hshown', ← htaken] at hread
  have htake := scanAssignments_take true (by simp [hlength]) (by simp [isIndent]) (by simp) hread
  rw [← htext, ← hshown', ← hmask', ← hrun₁] at htake
  refine ⟨_, ?_, ?_, htake⟩ <;> rfl

/-- The scan takes a field as a whole. -/
theorem scanAssignments_field {field : Text × Text} (h : IsField field)
    (hs : s.StandsIn []) : ∃ s' : Mask.State, s'.StandsIn [] ∧
      ∀ pos text, extent? 0 (Mask.run s' text) = some 0 →
        ∃ assignment : Assignment, (assignment.name, assignment.value) = field ∧
          scanAssignments true 0 0 true pos (fieldText field ++ text)
              (Mask.run s (fieldText field ++ text)) =
            assignment :: scanAssignments true 0 0 false (pos + (fieldText field).length) text
              (Mask.run s' text) := by
  obtain ⟨shown, hshows, hbalanced, -⟩ := h.value.isUncommented
  have hspace : Mask.Shows [] [' '] [' '] [] := Mask.shows_code (by decide)
  obtain ⟨s₁, hs₁, hscan⟩ := scanAssignments_quoted h.isName (List.forall_mem_nil _) hs
  obtain ⟨s', hs', hrun⟩ := (hspace.append hshows) s₁ hs₁
  refine ⟨s', hs', fun pos text hend => ?_⟩
  have hmask : Mask.run s₁ ([' '] ++ (field.2 ++ text)) = [' '] ++ (shown ++ Mask.run s' text) := by
    simpa using hrun text
  obtain ⟨assignment, hname, hvalue, htake⟩ := hscan pos (forall_of_all (by decide))
    (h.value.isTrimmed.head text) hshows.length_eq hbalanced hend hmask
  have hstrip : stripRight field.2 = field.2 := by
    simpa using stripRight_append h.value.isTrimmed (List.forall_mem_nil _)
  have htext : fieldText field ++ text =
      '"' :: (field.1 ++ ['"']) ++ ':' :: ([' '] ++ (field.2 ++ text)) := by simp [fieldText]
  have hfield : fieldText field = '"' :: (field.1 ++ ['"']) ++ ':' :: ([' '] ++ field.2) := by
    simp [fieldText]
  refine ⟨assignment, by rw [hname, hvalue, hstrip], ?_⟩
  rw [htext, hfield, htake]

theorem scanAssignments_layout {layout : Text} (h : ∀ c ∈ layout, isLayout c = true)
    (pos : Nat) (text mask : Text) :
    scanAssignments true 0 0 true pos (layout ++ text) (layout ++ mask) =
      scanAssignments true 0 0 true (pos + layout.length) text mask := by
  induction layout generalizing pos with
  | nil => rfl
  | cons c layout ih =>
    obtain ⟨hc, hlayout⟩ := List.forall_mem_cons.mp h
    have hnext : scanAssignments true 0 0 true pos (c :: (layout ++ text)) (c :: (layout ++ mask)) =
        scanAssignments true 0 0 true (pos + 1) (layout ++ text) (layout ++ mask) := by
      by_cases hindent : isIndent c = true
      · rw [scanAssignments, if_pos (by decide), if_pos hindent]
      · obtain rfl : c = '\n' := by simpa [isLayout, hindent] using hc
        rfl
    rw [List.cons_append, List.cons_append, hnext, ih hlayout, List.length_cons,
      Nat.add_right_comm, Nat.add_assoc]

/-- A statement may start after a comma. -/
theorem scanAssignments_comma (pos : Nat) (text mask : Text) :
    scanAssignments true 0 0 false pos (',' :: text) (',' :: mask) =
      scanAssignments true 0 0 true (pos + 1) text mask := rfl

/-- What closes an object after its last value: nothing, or a line break and layout. -/
inductive IsClosing : Text → Prop
  | none : IsClosing []
  | line {layout : Text} (h : ∀ c ∈ layout, isLayout c = true) : IsClosing ('\n' :: layout)

theorem IsClosing.isLayout {closing : Text} (h : IsClosing closing) :
    ∀ c ∈ closing, isLayout c = true := by
  cases h with
  | none => exact nofun
  | line h => exact List.forall_mem_cons.mpr ⟨by decide, h⟩

theorem IsClosing.extent? {closing : Text} (h : IsClosing closing) :
    extent? 0 closing = some 0 := by
  cases h <;> rfl

theorem IsClosing.scanAssignments {closing : Text} (h : IsClosing closing) (pos : Nat) :
    scanAssignments true 0 0 false pos closing closing = [] := by
  cases h with
  | none => rfl
  | @line layout hlayout =>
    rw [scanAssignments_break]
    have hscan := scanAssignments_layout hlayout (pos + 1) [] []
    rw [List.append_nil] at hscan
    rw [hscan]
    rfl

section Fields

variable {layout closing : Text} (hlayout : ∀ c ∈ layout, isLayout c = true)
  (hclosing : IsClosing closing)
include hlayout hclosing

/-- The fields of an object are found one by one. -/
theorem pairs_fields {first : Text × Text} {more : List (Text × Text)} (hfirst : IsField first)
    (hmore : ∀ field ∈ more, IsField field) (hs : s.StandsIn []) (pos : Nat) :
    pairs (scanAssignments true 0 0 true pos
        (fieldText first ++ (followedBy layout (more.map fieldText) ++ closing))
        (Mask.run s (fieldText first ++ (followedBy layout (more.map fieldText) ++ closing)))) =
      first :: more := by
  induction more generalizing first s pos with
  | nil =>
    obtain ⟨s₁, hs₁, hscan⟩ := scanAssignments_field hfirst hs
    obtain ⟨s₂, -, hrun⟩ := (shows_layout hclosing.isLayout) s₁ hs₁
    have hmask : Mask.run s₁ closing = closing := by simpa [Mask.run] using hrun []
    obtain ⟨assignment, hpair, htake⟩ := hscan pos closing (by
      rw [hmask]
      exact hclosing.extent?)
    rw [hmask, hclosing.scanAssignments] at htake
    simp only [followedBy, List.map_nil, List.flatMap_nil, List.nil_append, htake, pairs,
      List.map_cons, hpair]
  | cons second more ih =>
    obtain ⟨hsecond, hmore⟩ := List.forall_mem_cons.mp hmore
    obtain ⟨s₁, hs₁, hscan⟩ := scanAssignments_field hfirst hs
    have hcomma : Mask.Shows [] [','] [','] [] := Mask.shows_code (by decide)
    obtain ⟨s₂, hs₂, hrun⟩ := (hcomma.append (shows_layout hlayout)) s₁ hs₁
    have hrest := ih hsecond hmore hs₂ (pos + (fieldText first).length + 1 + layout.length)
    generalize htail : fieldText second ++ (followedBy layout (more.map fieldText) ++ closing) =
      tail at hrest
    have htext : followedBy layout ((second :: more).map fieldText) ++ closing =
        ',' :: (layout ++ tail) := by
      simp [followedBy, ← htail]
    have hmask : Mask.run s₁ (',' :: (layout ++ tail)) = ',' :: (layout ++ Mask.run s₂ tail) := by
      simpa using hrun tail
    obtain ⟨assignment, hpair, htake⟩ := hscan pos (',' :: (layout ++ tail)) (by
      rw [hmask]
      rfl)
    rw [hmask, scanAssignments_comma, scanAssignments_layout hlayout] at htake
    rw [htext, htake, pairs, List.map_cons, hpair]
    exact congrArg (first :: ·) hrest

theorem pairs_object {opening : Text} {first : Text × Text} {more : List (Text × Text)}
    (hopening : ∀ c ∈ opening, isLayout c = true) (hfirst : IsField first)
    (hmore : ∀ field ∈ more, IsField field) :
    pairs (assignments
        (opening ++ (fieldText first ++ (followedBy layout (more.map fieldText) ++ closing)))
        true) =
      first :: more := by
  obtain ⟨s, hs, hrun⟩ := (shows_layout hopening) Mask.State.start ⟨rfl, rfl⟩
  have hmask := hrun (fieldText first ++ (followedBy layout (more.map fieldText) ++ closing))
  have hpairs := pairs_fields hlayout hclosing hfirst hmore hs (0 + opening.length)
  rw [← scanAssignments_layout hopening, ← hmask] at hpairs
  exact hpairs

end Fields

/-! ### Brackets -/

theorem isUncommented_of_wordClass {p : Char → Bool}
    (hp : ∀ d ∈ '\n' :: ',' :: hidden :: signs, p d = false) {text : Text}
    (h : ∀ c ∈ text, p c = true) : IsUncommented (endsValue · = false) text := by
  refine .of_forall (fun c hc => isPlain_of_wordClass hp (h c hc)) fun hhidden => ?_
  exact absurd (hp hidden (by simp)) (by simp [h _ hhidden])

theorem isUncommented_fieldText {field : Text × Text} (h : IsField field) :
    IsUncommented (fun _ => True) (fieldText field) := by
  have hname : IsUncommented (fun _ => True) ('"' :: (field.1 ++ ['"'])) := by
    refine ⟨_, shows_quotedName h.isName (List.forall_mem_nil _), .of_forall fun c hc => ?_,
      fun hmem => ?_⟩
    · simp only [List.mem_cons, List.mem_append, List.mem_map, List.not_mem_nil, or_false] at hc
      rcases hc with rfl | ⟨-, -, rfl⟩ | rfl <;> decide
    · simp [hidden] at hmem
  have hcolon : IsUncommented (fun _ => True) [':', ' '] :=
    .of_forall (forall_of_all (by decide)) (by decide)
  have hvalue : IsUncommented (fun _ => True) field.2 :=
    h.value.isUncommented.mono fun _ _ => trivial
  have htext : fieldText field = '"' :: (field.1 ++ ['"']) ++ ([':', ' '] ++ field.2) := by
    simp [fieldText]
  rw [htext]
  exact hname.append (hcolon.append hvalue)

/-- What stands between the brackets of a list or an object. -/
theorem isUncommented_between {opening layout closing first : Text} {more : List Text}
    (hopening : ∀ c ∈ opening, isLayout c = true) (hlayout : ∀ c ∈ layout, isLayout c = true)
    (hclosing : ∀ c ∈ closing, isLayout c = true) (hfirst : IsUncommented (fun _ => True) first)
    (hmore : ∀ text ∈ more, IsUncommented (fun _ => True) text) :
    IsUncommented (fun _ => True) (opening ++ (first ++ (followedBy layout more ++ closing))) := by
  have hlaid {text : Text} (h : ∀ c ∈ text, isLayout c = true) :
      IsUncommented (fun _ => True) text := (isUncommented_layout h).mono fun _ _ => trivial
  have hfollowed : IsUncommented (fun _ => True) (followedBy layout more) := by
    induction more with
    | nil => exact .nil
    | cons text more ih =>
      obtain ⟨htext, hmore⟩ := List.forall_mem_cons.mp hmore
      have hcomma : IsUncommented (fun _ => True) [','] :=
        .of_forall (forall_of_all (by decide)) (by decide)
      have hcons : followedBy layout (text :: more) =
          [','] ++ (layout ++ text ++ followedBy layout more) := by simp [followedBy]
      rw [hcons]
      exact hcomma.append (((hlaid hlayout).append htext).append (ih hmore))
  exact (hlaid hopening).append (hfirst.append (hfollowed.append (hlaid hclosing)))

end Hcl

end TerraformTrace
