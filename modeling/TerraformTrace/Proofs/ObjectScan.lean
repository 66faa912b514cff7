import TerraformTrace.Proofs.JsonStrings

/-!
# TerraformTrace.Proofs.ObjectScan

The members of a JSON object as the scan of assignments sees them. The scan looks for statements
`name: value` and **passes over everything else without a word**: a member is found if its key is
spelled as a name and only spaces and tabs stand before the colon (`Member.isLegible`), and
otherwise it is as if it were not there (`readings_members`).

Nothing is found by mistake. A statement may begin at a value, after a line break, but no value is
followed by an operator; and a colon inside a string is covered by the mask.
-/

namespace TerraformTrace

open Text

namespace Hcl

variable {c : Char} {rest : Text}

/-! ### Passing over text -/

section Passing

variable {shown text : Text}

theorem scanAssignments_cons {depth : Nat} {m : Char} (hm : depth = 0 → endsValue m = false)
    (c : Char) (pos : Nat) (text mask : Text) :
    scanAssignments true 0 depth false pos (c :: text) (m :: mask) =
      scanAssignments true 0 (nextDepth depth m) false (pos + 1) text mask := by
  have hfresh : (false || (decide (depth = 0) && (m = '\n' || m = ','))) = false := by
    by_cases hdepth : depth = 0
    · have hends := hm hdepth
      simp only [endsValue, Bool.or_eq_false_iff, decide_eq_false_iff_not] at hends
      simp [hends.1.1, hends.1.2]
    · simp [hdepth]
  rw [scanAssignments, if_neg (by simp), hfresh]

theorem Passes.scanAssignments {before after : Nat}
    (h : Passes (endsValue · = false) before text shown after) (pos : Nat) (rest mask : Text) :
    scanAssignments true 0 before false pos (text ++ rest) (shown ++ mask) =
      scanAssignments true 0 after false (pos + text.length) rest mask := by
  induction h generalizing pos with
  | nil => rfl
  | cons hm c _ ih =>
    rw [List.cons_append, List.cons_append, scanAssignments_cons hm, ih, List.length_cons,
      Nat.add_assoc, Nat.add_comm 1]

/-- The scan passes over a balanced part; at depth zero it may not have line breaks or commas. -/
theorem Balanced.scanAssignments {P : Char → Prop} (h : Balanced P shown)
    (hlength : shown.length = text.length) {depth : Nat}
    (hP : depth = 0 → ∀ c, P c → endsValue c = false) (pos : Nat) (rest mask : Text) :
    scanAssignments true 0 depth false pos (text ++ rest) (shown ++ mask) =
      Hcl.scanAssignments true 0 depth false (pos + text.length) rest mask :=
  (h.passes hlength (fun hzero c _ hc => hP hzero c hc) fun _ => by decide).scanAssignments
    pos rest mask

/-- Where no statement begins, it does not matter whether one might. -/
theorem scanAssignments_of_none {m : Char} {pos : Nat} {mask : Text} (hindent : isIndent m = false)
    (h : assignmentAt? true pos (c :: text) (m :: mask) = none) :
    scanAssignments true 0 0 true pos (c :: text) (m :: mask) =
      scanAssignments true 0 0 false pos (c :: text) (m :: mask) := by
  rw [scanAssignments, if_pos (by decide), if_neg (by simp [hindent]), h, scanAssignments,
    if_neg (by decide)]
  simp

theorem assignmentAt?_of_head (hquote : c ≠ '"') (hstart : isNameStart c = false) (pos : Nat)
    (text mask : Text) : assignmentAt? true pos (c :: text) mask = none := by
  have hkey : key? true (c :: text) = none := by
    simp [key?, quoteLength, hquote, leadingName?, hstart]
  rw [assignmentAt?, hkey]
  rfl

end Passing

/-- The scan finds nothing in the text, wherever it stands, and goes on after it. What may follow
the text is left to a condition. -/
def IsPassed (follows : Text → Prop) (text : Text) : Prop :=
  ∀ s : Mask.State, s.StandsIn [] → ∃ s' : Mask.State, s'.StandsIn [] ∧
    ∀ fresh pos rest, follows rest → ∃ fresh' pos',
      scanAssignments true 0 0 fresh pos (text ++ rest) (Mask.run s (text ++ rest)) =
        scanAssignments true 0 0 fresh' pos' rest (Mask.run s' rest)

namespace IsPassed

variable {follows : Text → Prop} {text more : Text}

theorem append {before : Text → Prop} (h : IsPassed before text) (h' : IsPassed follows more)
    (hfollows : ∀ rest, follows rest → before (more ++ rest)) :
    IsPassed follows (text ++ more) := by
  intro s hs
  obtain ⟨s₁, hs₁, hscan₁⟩ := h s hs
  obtain ⟨s₂, hs₂, hscan₂⟩ := h' s₁ hs₁
  refine ⟨s₂, hs₂, fun fresh pos rest hrest => ?_⟩
  obtain ⟨fresh₁, pos₁, htext⟩ := hscan₁ fresh pos (more ++ rest) (hfollows rest hrest)
  obtain ⟨fresh₂, pos₂, hmore⟩ := hscan₂ fresh₁ pos₁ rest hrest
  exact ⟨fresh₂, pos₂, by rw [List.append_assoc, htext, hmore]⟩

/-- A closed text is passed over if no statement begins at it. -/
theorem of_isClosed {modes : List Mask.Mode} (hkept : Mask.Shows [] [c] [c] modes)
    (hindent : isIndent c = false) (hclosed : IsClosed (endsValue · = false) (c :: text))
    (hnone : ∀ s pos rest, s.StandsIn [] → follows rest →
      assignmentAt? true pos (c :: (text ++ rest)) (Mask.run s (c :: (text ++ rest))) = none) :
    IsPassed follows (c :: text) := by
  obtain ⟨shown, hshows, hbalanced⟩ := hclosed
  intro s hs
  obtain ⟨s', hs', hrun⟩ := hshows s hs
  obtain ⟨s₁, -, hfirst⟩ := hkept s hs
  refine ⟨s', hs', fun fresh pos rest hrest => ⟨false, pos + (c :: text).length, ?_⟩⟩
  have hpass := hbalanced.scanAssignments hshows.length_eq (fun (_ : 0 = 0) _ h => h) pos
    rest (Mask.run s' rest)
  cases fresh with
  | false => rw [hrun, hpass]
  | true =>
    -- the statement would have to begin at the first character
    have hmask : Mask.run s (c :: (text ++ rest)) = c :: Mask.run s₁ (text ++ rest) :=
      hfirst (text ++ rest)
    have hstart := hnone s pos rest hs hrest
    rw [hmask] at hstart
    rw [List.cons_append, hmask, scanAssignments_of_none hindent hstart, ← hmask,
      ← List.cons_append, hrun, hpass]

/-- Plain characters that begin no name are passed over. -/
theorem of_head (hplain : c ∉ ['"', '#', '/', '<']) (hindent : isIndent c = false)
    (hstart : isNameStart c = false) (hclosed : IsClosed (endsValue · = false) (c :: text)) :
    IsPassed follows (c :: text) :=
  of_isClosed (Mask.shows_code hplain) hindent hclosed fun _ pos rest _ _ =>
    assignmentAt?_of_head (fun h => hplain (by simp [h])) hstart pos (text ++ rest) _

theorem colon : IsPassed follows [':'] :=
  of_head (by decide) (by decide) (by decide) (.of_forall (forall_of_all (by decide)))

end IsPassed

theorem isLayout_of_isSpace (h : Json.isSpace c = true) : isLayout c = true := by
  simp only [Json.isSpace, Bool.or_eq_true, decide_eq_true_eq] at h
  rcases h with ((rfl | rfl) | rfl) | rfl <;> decide

/-- White space only decides whether a statement may begin after it. -/
theorem scanAssignments_space {space : Text} (h : Json.IsSpace space) (fresh : Bool)
    (pos : Nat) (text mask : Text) : ∃ fresh',
      scanAssignments true 0 0 fresh pos (space ++ text) (space ++ mask) =
        scanAssignments true 0 0 fresh' (pos + space.length) text mask := by
  induction space generalizing fresh pos with
  | nil => exact ⟨fresh, rfl⟩
  | cons c space ih =>
    obtain ⟨hc, hspace⟩ := List.forall_mem_cons.mp h
    cases fresh with
    | true =>
      exact ⟨true, scanAssignments_layout (fun d hd => isLayout_of_isSpace (h d hd)) ..⟩
    | false =>
      obtain ⟨fresh', hscan⟩ := ih hspace (c = '\n') (pos + 1)
      refine ⟨fresh', ?_⟩
      have hstep : scanAssignments true 0 0 false pos (c :: (space ++ text))
          (c :: (space ++ mask)) = scanAssignments true 0 0 (c = '\n') (pos + 1) (space ++ text)
              (space ++ mask) := by
        simp only [Json.isSpace, Bool.or_eq_true, decide_eq_true_eq] at hc
        rcases hc with ((rfl | rfl) | rfl) | rfl <;> rfl
      rw [List.cons_append, List.cons_append, hstep, hscan, List.length_cons,
        Nat.add_right_comm, Nat.add_assoc]

variable {follows : Text → Prop}

theorem IsPassed.space {space : Text} (h : Json.IsSpace space) : IsPassed follows space := by
  intro s hs
  obtain ⟨s', hs', hrun⟩ := shows_layout (fun c hc => isLayout_of_isSpace (h c hc)) s hs
  refine ⟨s', hs', fun fresh pos rest _ => ?_⟩
  obtain ⟨fresh', hscan⟩ := scanAssignments_space h fresh pos rest (Mask.run s' rest)
  exact ⟨fresh', _, by rw [hrun, hscan]⟩

/-! ### Strings that are no keys -/

/-- A quote in a string comes after a backslash. -/
theorem ne_quote_of_spellsRunes {body front back : Text} {value : Runes}
    (h : Json.SpellsRunes body value) (hbody : body = front ++ c :: back) (hfront : '\\' ∉ front) :
    c ≠ '"' := by
  induction h generalizing front with
  | nil => simp at hbody
  | @cons code body first more hfirst _ ih =>
    have hcode : (∃ d, code = [d] ∧ d ≠ '"') ∨ ∃ escape, code = '\\' :: escape := by
      cases hfirst with
      | plain _ hquote _ => exact .inl ⟨_, rfl, hquote⟩
      | short => exact .inr ⟨_, rfl⟩
      | unit => exact .inr ⟨_, rfl⟩
      | pair => exact .inr ⟨_, rfl⟩
    rcases hcode with ⟨d, rfl, hd⟩ | ⟨escape, rfl⟩
    · cases front with
      | nil =>
        obtain ⟨rfl, -⟩ := List.cons.inj hbody
        exact hd
      | cons e front =>
        exact ih (List.cons.inj hbody).2 fun hmem => hfront (List.mem_cons_of_mem _ hmem)
    · cases front with
      | nil =>
        obtain ⟨rfl, -⟩ := List.cons.inj hbody
        decide
      | cons e front =>
        obtain ⟨rfl, -⟩ := List.cons.inj hbody
        exact absurd List.mem_cons_self hfront

theorem exists_append_of_not_quote {body front back : Text}
    (h : body ++ '"' :: rest = front ++ back) (hfront : '"' ∉ front) :
    ∃ more, body = front ++ more ∧ back = more ++ '"' :: rest := by
  rcases List.append_eq_append_iff.mp h with ⟨more, rfl, hrest⟩ | ⟨more, hbody, hback⟩
  · cases more with
    | nil => exact ⟨[], by simp, hrest.symm⟩
    | cons c more =>
      obtain ⟨rfl, -⟩ := List.cons.inj hrest
      simp at hfront
  · exact ⟨more, hbody, hback⟩

/-- A key that is found at the beginning of a string has its operator inside the string, unless
the string is a name and an operator follows it. -/
theorem exists_operator_of_key? {body : Text} {value : Runes} {key : Key}
    (h : Json.SpellsRunes body value)
    (hname : isName body = true → startsWithOperator true (rest.dropWhile isGap) = false)
    (hkey : key? true ('"' :: (body ++ '"' :: rest)) = some key) :
    ∃ gap operator back, body = key.name ++ gap ++ operator :: back ∧ isName key.name = true ∧
      (∀ c ∈ gap, isGap c = true) ∧ (operator = '=' ∨ operator = ':') ∧
      key.length = (key.name ++ gap).length + 2 := by
  obtain ⟨opening, closing, gap, operator, more, hopening, hclosing, hgap, hoperator, hstarts,
    hisName, htext, hlength⟩ := exists_of_key? hkey
  have hquote : '"' ∉ key.name := not_mem_of_isName (by decide) (by decide) hisName
  have hescape : '\\' ∉ key.name := not_mem_of_isName (by decide) (by decide) hisName
  obtain rfl : opening = ['"'] := by
    rcases hopening with rfl | rfl
    · obtain ⟨c, name, hcons⟩ := List.exists_cons_of_ne_nil (ne_nil_of_isName hisName)
      rw [hcons] at htext hquote
      obtain ⟨rfl, -⟩ := List.cons.inj htext
      exact absurd List.mem_cons_self hquote
    · rfl
  have htext : body ++ '"' :: rest = key.name ++ (closing ++ (gap ++ operator :: more)) := by
    simpa using htext
  rcases hclosing with rfl | rfl
  · have hfront : '"' ∉ key.name ++ (gap ++ [operator]) := by
      have hgap : '"' ∉ gap := fun hmem => absurd (hgap _ hmem) (by decide)
      rcases hoperator with rfl | rfl <;> simp [hquote, hgap]
    have htext : body ++ '"' :: rest = key.name ++ (gap ++ [operator]) ++ more := by
      simpa using htext
    obtain ⟨back, rfl, -⟩ := exists_append_of_not_quote htext hfront
    refine ⟨gap, operator, back, by simp, hisName, hgap, hoperator, ?_⟩
    simp only [hlength, List.length_append, List.length_singleton, List.length_nil]
    omega
  · obtain ⟨between, rfl, hbetween⟩ := exists_append_of_not_quote htext hquote
    cases between with
    | nil =>
      rw [List.append_nil] at hname
      obtain rfl : gap ++ operator :: more = rest := (List.cons.inj hbetween).2
      have hrun : (gap ++ operator :: more).dropWhile isGap = operator :: more := by
        rw [List.dropWhile_append_of_pos hgap]
        rcases hoperator with rfl | rfl <;> rfl
      rw [hrun, hstarts] at hname
      exact absurd (hname hisName) (by decide)
    | cons c between =>
      obtain ⟨rfl, -⟩ := List.cons.inj hbetween
      exact absurd rfl (ne_quote_of_spellsRunes h rfl hescape)

/-- No statement begins at a string that is no key. -/
theorem assignmentAt?_string {body : Text} {value : Runes} (h : Json.SpellsRunes body value)
    (hname : isName body = true → startsWithOperator true (rest.dropWhile isGap) = false)
    {s : Mask.State} (hs : s.StandsIn []) (pos : Nat) :
    assignmentAt? true pos ('"' :: (body ++ '"' :: rest))
      (Mask.run s ('"' :: (body ++ '"' :: rest))) = none := by
  cases hkey : key? true ('"' :: (body ++ '"' :: rest)) with
  | none =>
    rw [assignmentAt?, hkey]
    rfl
  | some key =>
    obtain ⟨gap, operator, back, rfl, hisName, hgap, hoperator, hlength⟩ :=
      exists_operator_of_key? h hname hkey
    -- the operator is covered with the string it stands in
    have hshows := Mask.Shows.cons (Mask.shows_openQuote rfl)
      ((shows_nameInString hisName []).append ((shows_operator hgap hoperator).2 []))
    obtain ⟨s', -, hrun⟩ := hshows s hs
    have htext : '"' :: (key.name ++ gap ++ operator :: back ++ '"' :: rest) =
        '"' :: (key.name ++ (gap ++ [operator])) ++ (back ++ '"' :: rest) := by simp
    have hvisible : key.isVisible ('"' :: (key.name ++ gap ++ operator :: back ++ '"' :: rest))
        (Mask.run s ('"' :: (key.name ++ gap ++ operator :: back ++ '"' :: rest))) = false := by
      rw [htext, hrun, Key.isVisible, hlength]
      have hne : some ' ' ≠ some operator := by rcases hoperator with rfl | rfl <;> decide
      simp [hne]
    rw [assignmentAt?, hkey, Option.bind_some, if_neg (by rw [hvisible]; decide)]

/-! ### Values are passed over -/

/-- What may follow a value in a list or an object: white space, and then a comma or nothing. -/
def EndsItem (rest : Text) : Prop :=
  ∃ space tail, rest = space ++ tail ∧ Json.IsSpace space ∧ ∀ c ∈ tail.head?, c = ','

theorem EndsItem.head (h : EndsItem rest) : ∀ c ∈ rest.head?, Json.isSpace c = true ∨ c = ',' := by
  obtain ⟨space, tail, rfl, hspace, htail⟩ := h
  cases space with
  | nil => exact fun c hc => .inr (htail c hc)
  | cons d space =>
    rintro c hc
    obtain rfl : d = c := by simpa using hc
    exact .inl (hspace d List.mem_cons_self)

theorem startsWithOperator_of_ne (h : c ≠ '=' ∧ c ≠ ':') (text : Text) :
    startsWithOperator true (c :: text) = false := by
  rw [startsWithOperator.eq_3]
  · exact fun rest heq => h.1 (List.cons.inj heq).1
  · exact fun rest heq => h.2 (List.cons.inj heq).1

/-- No operator follows a value. -/
theorem EndsItem.startsWithOperator (h : EndsItem rest) :
    startsWithOperator true (rest.dropWhile isGap) = false := by
  obtain ⟨space, tail, rfl, hspace, htail⟩ := h
  induction space with
  | nil =>
    cases tail with
    | nil => rfl
    | cons c tail =>
      obtain rfl := htail c rfl
      rfl
  | cons c space ih =>
    obtain ⟨hc, hspace⟩ := List.forall_mem_cons.mp hspace
    by_cases hgap : isGap c = true
    · rw [List.cons_append, List.dropWhile_cons_of_pos hgap]
      exact ih hspace
    · rw [List.cons_append, List.dropWhile_cons_of_neg hgap]
      refine startsWithOperator_of_ne ⟨?_, ?_⟩ _ <;> rintro rfl <;> cases hc

/-- No statement begins at a word, unless an operator follows it. -/
theorem assignmentAt?_word {word : Text} (hword : isName word = true) (h : EndsItem rest)
    (pos : Nat) (mask : Text) : assignmentAt? true pos (word ++ rest) mask = none := by
  have hrest : ∀ c ∈ rest.head?, isNameRest c = false ∧ c ≠ '"' := by
    intro c hc
    rcases h.head c hc with hspace | rfl
    · simp only [Json.isSpace, Bool.or_eq_true, decide_eq_true_eq] at hspace
      rcases hspace with ((rfl | rfl) | rfl) | rfl <;> decide
    · decide
  have hopening : quoteLength (word ++ rest) = 0 := by
    obtain ⟨c, word, rfl⟩ := List.exists_cons_of_ne_nil (ne_nil_of_isName hword)
    have hquote : c ≠ '"' := by
      rintro rfl
      cases hword
    simp [quoteLength, hquote]
  have hclosing : quoteLength rest = 0 := if_neg fun hhead => (hrest _ hhead).2 rfl
  have hkey : key? true (word ++ rest) = none := by
    simp only [key?, hopening, List.drop_zero, Nat.zero_add,
      leadingName?_append hword fun c hc => (hrest c hc).1, Option.bind_some, List.drop_left,
      hclosing, drop_takeWhile, h.startsWithOperator]
    rfl
  rw [assignmentAt?, hkey]
  rfl

theorem IsPassed.string {body : Text} {value : Runes} (h : Json.SpellsRunes body value)
    (hclosed : IsClosed (endsValue · = false) ('"' :: (body ++ ['"'])))
    (hfollows : isName body = true → ∀ rest, follows rest →
      startsWithOperator true (rest.dropWhile isGap) = false) :
    IsPassed follows ('"' :: (body ++ ['"'])) := by
  refine .of_isClosed (Mask.shows_openQuote rfl) (by decide) hclosed fun s pos rest hs hrest => ?_
  simpa using assignmentAt?_string h (fun hname => hfollows hname rest hrest) hs pos

theorem IsPassed.word {word : Text} (hword : isName word = true)
    (hclosed : IsClosed (endsValue · = false) word) : IsPassed EndsItem word := by
  obtain ⟨c, text, rfl⟩ := List.exists_cons_of_ne_nil (ne_nil_of_isName hword)
  have hpath : isPathChar c = true := by
    simp [isPathChar, isNameRest_of_mem hword List.mem_cons_self]
  have hindent : isIndent c = false :=
    not_isIndent_of_class (p := isPathChar) (forall_of_all (by decide)) hpath
  exact .of_isClosed (Mask.shows_pathChar rfl hpath) hindent hclosed
    fun _ pos _ _ hrest => assignmentAt?_word hword hrest pos _

theorem not_isNameStart_of_isDigit (h : c.isDigit = true) : isNameStart c = false := by
  have hascii : ∀ n : Fin 0x80,
      (Char.ofNat n).isDigit = true → isNameStart (Char.ofNat n) = false := by
    decide +kernel
  have hc : c.toNat < 0x80 := by
    simp only [Char.isDigit, Bool.and_eq_true, decide_eq_true_eq] at h
    exact Nat.lt_of_le_of_lt (UInt32.le_iff_toNat_le.mp h.2) (by decide)
  have hnone := hascii ⟨c.toNat, hc⟩
  simp only [Char.ofNat_toNat] at hnone
  exact hnone h

theorem IsPassed.number {text : Text} {value : Json} (h : Json.SpellsNumber text value)
    (hclosed : IsClosed (endsValue · = false) text) : IsPassed follows text := by
  obtain ⟨hwhole, -, -, -, -⟩ := h
  rename_i negative whole point decimals mark power
  cases negative with
  | true => exact .of_head (by decide) (by decide) (by decide) hclosed
  | false =>
    obtain ⟨c, more, rfl⟩ := List.exists_cons_of_ne_nil hwhole.ne_nil
    have hdigit := hwhole.isDigit c List.mem_cons_self
    have hne {d : Char} (hd : d.isDigit = false) : c ≠ d := ne_of_class hdigit hd
    have hplain : c ∉ ['"', '#', '/', '<'] := by
      simp [hne (d := '"') (by decide), hne (d := '#') (by decide), hne (d := '/') (by decide),
        hne (d := '<') (by decide)]
    have hindent : isIndent c = false :=
      not_isIndent_of_class (p := Char.isDigit) (forall_of_all (by decide)) hdigit
    exact .of_head hplain hindent (not_isNameStart_of_isDigit hdigit) hclosed

theorem IsPassed.value {text : Text} {value : Json} (h : Json.Spells text value)
    (hclosed : IsClosed (endsValue · = false) text) : IsPassed EndsItem text := by
  cases h with
  | word hword =>
    have hwords : ∀ word ∈ Json.words.map (·.1),
        isName word = true ∨ word = "-Infinity".toList := by
      decide
    rcases hwords text (List.mem_map_of_mem hword) with hname | rfl
    · exact .word hname hclosed
    · exact .of_head (by decide) (by decide) (by decide) hclosed
  | number hnumber => exact .number hnumber hclosed
  | string hbody _ => exact .string hbody hclosed fun _ _ => EndsItem.startsWithOperator
  | _ => exact .of_head (by decide) (by decide) (by decide) hclosed

/-! ### Legible members -/

/-- At a line break, a comma or the end, a value ends. -/
theorem extent?_run {s : Mask.State} (hs : s.StandsIn []) {text : Text}
    (h : ∀ c ∈ text.head?, c = '\n' ∨ c = ',') : extent? 0 (Mask.run s text) = some 0 := by
  cases text with
  | nil => rfl
  | cons c text =>
    have hkept : Mask.Shows [] [c] [c] [] := by
      rcases h c rfl with rfl | rfl <;> exact Mask.shows_code (by decide)
    obtain ⟨s', -, hrun⟩ := hkept s hs
    have hmask : Mask.run s (c :: text) = c :: Mask.run s' text := hrun text
    rw [hmask]
    rcases h c rfl with rfl | rfl <;> rfl

theorem isClosed_space {space : Text} (h : Json.IsSpace space) (hline : '\n' ∉ space) :
    IsClosed (endsValue · = false) space := by
  refine isClosed_of_wordClass (p := isIndent) (forall_of_all (by decide)) fun c hc => ?_
  have hspace := h c hc
  simp only [Json.isSpace, Bool.or_eq_true, decide_eq_true_eq] at hspace
  rcases hspace with ((rfl | rfl) | rfl) | rfl
  · rfl
  · rfl
  · exact absurd hc hline
  · rfl

end Hcl

namespace Json

open Hcl

/-- Whether the scan finds a member: the key is spelled as a name, and only spaces and tabs stand
between the key and the colon. -/
def Member.isLegible (member : Member) : Bool := isName member.spelled && member.gap.all isGap

/-- What the scan takes for the value of a member that it finds: nothing if a line break comes
before the value. -/
def Member.valueText (member : Member) : Text :=
  if '\n' ∈ member.item.before then [] else member.item.literal

/-- The scan finds the member with this value, and goes on after it. -/
def Member.IsTaken (member : Member) (value : Text) : Prop :=
  ∀ s : Mask.State, s.StandsIn [] → ∃ s' : Mask.State, s'.StandsIn [] ∧
    ∀ pos rest, (∀ c ∈ rest.head?, c = ',') →
      ∃ (assignment : Assignment) (fresh : Bool) (pos' : Nat),
        (assignment.name, strip assignment.value) = (member.spelled, value) ∧
        scanAssignments true 0 0 true pos
            (member.quoted ++ (member.gap ++ ([':'] ++ (member.item.text ++ rest))))
            (Mask.run s (member.quoted ++ (member.gap ++ ([':'] ++ (member.item.text ++ rest))))) =
          assignment :: scanAssignments true 0 0 fresh pos' rest (Mask.run s' rest)

variable {member : Member}

/-- A legible member is taken up to the end of its value, and what is left of it is passed over. -/
theorem Member.IsTaken.upTo (hlegible : member.isLegible = true) {space front back : Text}
    (hitem : member.item.text = space ++ (front ++ back)) (hspace : ∀ c ∈ space, isGap c = true)
    (hhead : ∃ c text, front ++ back = c :: text ∧ isGap c = false ∧ c ≠ '<')
    (hfront : IsClosed (endsValue · = false) front) (hline : ∀ c ∈ back.head?, c = '\n')
    (hback : IsPassed (fun rest => ∀ c ∈ rest.head?, c = ',') back) :
    member.IsTaken (strip (stripRight front)) := by
  intro s hs
  simp only [isLegible, Bool.and_eq_true, List.all_eq_true] at hlegible
  obtain ⟨shown, hshows, hshown⟩ := hfront
  have hlayout : ∀ c ∈ space, isLayout c = true := fun c hc => isLayout_of_isGap (hspace c hc)
  obtain ⟨s₁, hs₁, hscan⟩ := scanAssignments_quoted hlegible.1 hlegible.2 hs
  obtain ⟨s₂, hs₂, hrun⟩ := ((shows_layout hlayout).append hshows) s₁ hs₁
  obtain ⟨s₃, hs₃, hpass⟩ := hback s₂ hs₂
  refine ⟨s₃, hs₃, fun pos rest hrest => ?_⟩
  have hends : ∀ c ∈ (back ++ rest).head?, c = '\n' ∨ c = ',' := by
    cases back with
    | nil => exact fun c hc => .inr (hrest c hc)
    | cons d back => exact fun c hc => .inl (hline c hc)
  have hhead' : ∀ c ∈ (front ++ (back ++ rest)).head?, isGap c = false ∧ c ≠ '<' := by
    obtain ⟨c, text, htext, hc⟩ := hhead
    rw [← List.append_assoc, htext]
    simpa using hc
  have hmask : Mask.run s₁ (space ++ (front ++ (back ++ rest))) =
      space ++ (shown ++ Mask.run s₂ (back ++ rest)) := by
    simpa using hrun (back ++ rest)
  obtain ⟨assignment, hname, hvalue, htake⟩ := hscan pos hspace hhead'
    hshows.length_eq hshown (extent?_run hs₂ hends) hmask
  obtain ⟨fresh, pos', hpassed⟩ := hpass false _ rest hrest
  refine ⟨assignment, fresh, pos', by rw [hname, hvalue], ?_⟩
  have htext : member.quoted ++ (member.gap ++ ([':'] ++ (member.item.text ++ rest))) =
      '"' :: (member.spelled ++ '"' :: member.gap) ++
        ':' :: (space ++ (front ++ (back ++ rest))) := by
    simp [quoted, hitem]
  rw [htext, htake, hpassed]

/-- From its value on, a member is passed over. -/
theorem Item.isPassed {item : Item} (hvalue : Spells item.literal item.value)
    (hclosed : IsClosed (endsValue · = false) item.literal) :
    IsPassed (fun rest => ∀ c ∈ rest.head?, c = ',') (item.literal ++ item.after) :=
  (IsPassed.value hvalue hclosed).append (.space item.isSpace_after)
    fun rest hrest => ⟨item.after, rest, rfl, item.isSpace_after, hrest⟩

theorem IsSpace.isBlank {space : Text} (h : IsSpace space) : ∀ c ∈ space, isBlank c = true :=
  fun c hc => isBlank_of_isLayout (isLayout_of_isSpace (h c hc))

/-- What is left of white space after its spaces and tabs begins with another character. -/
theorem IsSpace.dropWhile_isGap {space : Text} (h : IsSpace space) :
    IsSpace (space.dropWhile isGap) ∧
      ∀ c ∈ (space.dropWhile isGap).head?, isGap c = false ∧ c ≠ '<' := by
  have hspace : IsSpace (space.dropWhile isGap) :=
    fun c hc => h c ((List.dropWhile_suffix isGap).subset hc)
  refine ⟨hspace, fun c hc => ⟨not_of_head?_dropWhile hc, ?_⟩⟩
  rintro rfl
  exact absurd (hspace _ (List.mem_of_head? hc)) (by decide)

/-- A member as the mask has to see it: closed, key and value. -/
structure Member.IsClosed (member : Member) : Prop where
  spells : Spells member.item.literal member.item.value
  key : Hcl.IsClosed (endsValue · = false) member.quoted
  value : Hcl.IsClosed (endsValue · = false) member.item.literal

/-- The value is over before it begins, and what was to be the value is passed over. -/
theorem Member.IsTaken.of_line (hlegible : member.isLegible = true) (h : member.IsClosed)
    (hline : '\n' ∈ member.item.before) : member.IsTaken [] := by
  obtain ⟨first, second, hbefore, hfirst⟩ := List.eq_append_cons_of_mem hline
  have hspace := member.item.isSpace_before
  rw [hbefore] at hspace
  obtain ⟨hspace₁, hspace₂⟩ := List.forall_mem_append.mp hspace
  obtain ⟨hfront, hhead⟩ := IsSpace.dropWhile_isGap hspace₁
  have hempty : stripRight (first.dropWhile isGap) = [] := stripRight_blanks hfront.isBlank []
  have hback : IsPassed (fun _ => True) ('\n' :: second) := .space hspace₂
  have hitem : member.item.text = first.takeWhile isGap ++ (first.dropWhile isGap ++
      ('\n' :: second ++ (member.item.literal ++ member.item.after))) := by
    rw [Item.text, hbefore, ← List.append_assoc (first.takeWhile isGap),
      List.takeWhile_append_dropWhile, List.append_assoc]
  have htaken := IsTaken.upTo hlegible hitem (List.all_eq_true.mp List.all_takeWhile) ?_
    (isClosed_space hfront fun hmem => hfirst ((List.dropWhile_suffix isGap).subset hmem))
    (by simp) (hback.append (Item.isPassed h.spells h.value) fun _ _ => trivial)
  · rwa [hempty] at htaken
  · -- a carriage return may stand before the line break
    cases hdrop : first.dropWhile isGap with
    | nil => exact ⟨'\n', _, rfl, by decide, by decide⟩
    | cons c rest => exact ⟨c, _, rfl, hhead c (by rw [hdrop]; rfl)⟩

/-- The value is read to its end. -/
theorem Member.IsTaken.of_value (hlegible : member.isLegible = true) (h : member.IsClosed)
    (hline : '\n' ∉ member.item.before) : member.IsTaken member.item.literal := by
  have hafter := member.item.isSpace_after
  obtain ⟨hfront, hhead⟩ := member.item.isSpace_before.dropWhile_isGap
  have hend : IsSpace (member.item.after.takeWhile (· ≠ '\n')) :=
    fun c hc => hafter c ((List.takeWhile_prefix _).subset hc)
  have hrest : IsSpace (member.item.after.dropWhile (· ≠ '\n')) :=
    fun c hc => hafter c ((List.dropWhile_suffix _).subset hc)
  have hbreak : '\n' ∉ member.item.after.takeWhile (· ≠ '\n') := fun hmem =>
    absurd (List.all_eq_true.mp List.all_takeWhile _ hmem) (by decide)
  have hitem : member.item.text = member.item.before.takeWhile isGap ++
      ((member.item.before.dropWhile isGap ++ (member.item.literal ++
        member.item.after.takeWhile (· ≠ '\n'))) ++ member.item.after.dropWhile (· ≠ '\n')) := by
    rw [List.append_assoc, List.append_assoc, List.takeWhile_append_dropWhile, ← List.append_assoc,
      List.takeWhile_append_dropWhile]
    rfl
  -- a carriage return before the value is read with it, and cut off later
  have hstrip : strip (stripRight (member.item.before.dropWhile isGap ++ (member.item.literal ++
      member.item.after.takeWhile (· ≠ '\n')))) = member.item.literal := by
    obtain ⟨front, c, hliteral, hc⟩ := h.spells.isTrimmed.last
    have hright := stripRight_concat hc (member.item.before.dropWhile isGap ++ front) hend.isBlank
    rw [List.append_assoc _ front, ← hliteral, List.append_assoc] at hright
    rw [hright]
    simpa using strip_between (fun c hc => isLayout_of_isSpace (hfront c hc)) h.spells.isTrimmed
      (List.forall_mem_nil _)
  have htaken := IsTaken.upTo hlegible hitem (List.all_eq_true.mp List.all_takeWhile) ?_
    ((isClosed_space hfront fun hmem => hline ((List.dropWhile_suffix isGap).subset hmem)).append
      (h.value.append (isClosed_space hend hbreak))) ?_ (.space hrest)
  · rwa [hstrip] at htaken
  · cases hdrop : member.item.before.dropWhile isGap with
    | nil =>
      obtain ⟨c, rest, hliteral, hc, hangle⟩ := h.spells.isTrimmed.first
      exact ⟨c, _, by rw [hliteral]; rfl, isGap_of_not_isBlank hc, hangle⟩
    | cons c rest => exact ⟨c, _, rfl, hhead c (by rw [hdrop]; rfl)⟩
  · exact fun c hc => by simpa using not_of_head?_dropWhile hc

theorem Member.isTaken (hlegible : member.isLegible = true) (h : member.IsClosed) :
    member.IsTaken member.valueText := by
  unfold valueText
  split
  next hline => exact .of_line hlegible h hline
  next hline => exact .of_value hlegible h hline

/-- A member that is not legible is passed over. -/
theorem Member.isPassed (hlegible : member.isLegible = false) (h : member.IsClosed) :
    IsPassed (fun rest => ∀ c ∈ rest.head?, c = ',')
      (member.quoted ++ (member.gap ++ ([':'] ++ member.item.text))) := by
  have hquoted : IsPassed (fun rest => ∃ text, rest = member.gap ++ ':' :: text) member.quoted := by
    refine .string member.spellsRunes h.key fun hname rest hrest => ?_
    obtain ⟨text, rfl⟩ := hrest
    rw [dropWhile_append_cons (by decide)]
    cases hdrop : member.gap.dropWhile isGap with
    | nil =>
      have hall := List.all_eq_true.mpr (List.dropWhile_eq_nil_iff.mp hdrop)
      simp [isLegible, hname, hall] at hlegible
    | cons c rest =>
      -- no operator is looked for behind a line break
      have hspace : isSpace c = true := member.isSpace_gap.dropWhile_isGap.1 c (by simp [hdrop])
      refine startsWithOperator_of_ne ⟨?_, ?_⟩ _ <;> rintro rfl <;> cases hspace
  have hbefore : IsPassed (fun _ => True) member.item.before := .space member.item.isSpace_before
  have hitem : IsPassed (fun rest => ∀ c ∈ rest.head?, c = ',') member.item.text :=
    hbefore.append (Item.isPassed h.spells h.value) fun _ _ => trivial
  have hgap : IsPassed (fun _ => True) member.gap := .space member.isSpace_gap
  have hcolon : IsPassed (fun _ => True) [':'] := .colon
  exact hquoted.append (hgap.append (hcolon.append hitem fun _ _ => trivial) fun _ _ => trivial)
    fun rest _ => ⟨member.item.text ++ rest, by simp⟩

/-! ### All members -/

/-- The names and values of assignments, without blanks around the values. -/
def readings (assignments : List Assignment) : List (Text × Text) :=
  assignments.map fun assignment => (assignment.name, strip assignment.value)

/-- What the scan finds of members. -/
def legibleTexts (members : List Member) : List (Text × Text) :=
  (members.filter (·.isLegible)).map fun member => (member.spelled, member.valueText)

theorem readings_member (h : member.IsClosed) {s : Mask.State} (hs : s.StandsIn []) :
    ∃ s' : Mask.State, s'.StandsIn [] ∧ ∀ pos rest, (∀ c ∈ rest.head?, c = ',') →
      ∃ (fresh : Bool) (pos' : Nat),
        readings (scanAssignments true 0 0 true pos (member.text ++ rest)
            (Mask.run s (member.text ++ rest))) =
          legibleTexts [member] ++
            readings (scanAssignments true 0 0 fresh pos' rest (Mask.run s' rest)) := by
  have hlayout : ∀ c ∈ member.before, isLayout c = true :=
    fun c hc => isLayout_of_isSpace (member.isSpace_before c hc)
  obtain ⟨s₁, hs₁, hrun⟩ := (shows_layout hlayout) s hs
  have htext (rest : Text) : member.text ++ rest = member.before ++
      (member.quoted ++ (member.gap ++ ([':'] ++ (member.item.text ++ rest)))) := by
    simp [member.text_eq]
  cases hlegible : member.isLegible with
  | true =>
    obtain ⟨s₂, hs₂, hscan⟩ := Member.isTaken hlegible h s₁ hs₁
    refine ⟨s₂, hs₂, fun pos rest hrest => ?_⟩
    obtain ⟨assignment, fresh, pos', hreading, htake⟩ :=
      hscan (pos + member.before.length) rest hrest
    refine ⟨fresh, pos', ?_⟩
    rw [htext, hrun, scanAssignments_layout hlayout, htake, readings, List.map_cons, hreading]
    simp [legibleTexts, hlegible, readings]
  | false =>
    obtain ⟨s₂, hs₂, hscan⟩ := Member.isPassed hlegible h s₁ hs₁
    refine ⟨s₂, hs₂, fun pos rest hrest => ?_⟩
    obtain ⟨fresh, pos', hpass⟩ :=
      hscan true (pos + member.before.length) rest hrest
    refine ⟨fresh, pos', ?_⟩
    simp only [List.append_assoc] at hpass
    rw [htext, hrun, scanAssignments_layout hlayout, hpass]
    simp [legibleTexts, hlegible]

/-- A statement may begin after a comma, wherever it stands. -/
theorem scanAssignments_anyComma (fresh : Bool) (pos : Nat) (text mask : Text) :
    scanAssignments true 0 0 fresh pos (',' :: text) (',' :: mask) =
      scanAssignments true 0 0 true (pos + 1) text mask := by
  cases fresh with
  | false => rfl
  | true =>
    rw [scanAssignments_of_none (by decide) (assignmentAt?_of_head (by decide) (by decide) ..)]
    rfl

theorem readings_members {members : List Member} (h : ∀ member ∈ members, member.IsClosed)
    {s : Mask.State} (hs : s.StandsIn []) (pos : Nat) :
    readings (scanAssignments true 0 0 true pos (join [','] (members.map Member.text))
      (Mask.run s (join [','] (members.map Member.text)))) = legibleTexts members := by
  induction members generalizing s pos with
  | nil => rfl
  | cons member members ih =>
    obtain ⟨hmember, hmembers⟩ := List.forall_mem_cons.mp h
    obtain ⟨s₁, hs₁, hscan⟩ := readings_member hmember hs
    have hcons : legibleTexts (member :: members) =
        legibleTexts [member] ++ legibleTexts members := by
      simp [legibleTexts, ← List.map_append, ← List.filter_append]
    rw [List.map_cons, join_cons, hcons]
    cases members with
    | nil =>
      obtain ⟨fresh, pos', hreadings⟩ := hscan pos [] nofun
      exact hreadings
    | cons next members =>
      have hcomma : Mask.Shows [] [','] [','] [] := Mask.shows_code (by decide)
      obtain ⟨s₂, hs₂, hrun⟩ := hcomma s₁ hs₁
      obtain ⟨fresh, pos', hreadings⟩ := hscan pos
        (joinRest [','] ((next :: members).map Member.text)) (by simp [joinRest])
      rw [hreadings, List.map_cons, joinRest, hrun, List.singleton_append,
        List.singleton_append, scanAssignments_anyComma]
      exact congrArg (legibleTexts [member] ++ ·) (ih hmembers hs₂ _)

end Json

end TerraformTrace
