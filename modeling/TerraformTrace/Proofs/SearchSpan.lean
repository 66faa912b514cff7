import TerraformTrace.Proofs.Replacement

/-!
# TerraformTrace.Proofs.SearchSpan

What the search for references finds in a part of a mask. A reference is a path, so the search
comes to itself wherever something stands that is in no path: **it finds in a text what it
finds in the parts that such a character separates** (`scan_append`). The references of a
stretch of a mask are then those that the search reports inside its span
(`filter_scan_eq`).
-/

namespace TerraformTrace

open Text Substitution

/-! ### Reading a reference before the end of a path -/

namespace Reference

variable {segments : List Text}

theorem dotted_ne_nil (kind : ReferenceKind) (h : segments ≠ []) : dotted kind segments ≠ [] := by
  rw [dotted, join_cons_of_ne_nil h kind.word]
  simp

theorem isPathChar_of_mem_dotted {kind : ReferenceKind}
    (h : ∀ segment ∈ segments, isName segment = true) {c : Char} (hc : c ∈ dotted kind segments) :
    isPathChar c = true := by
  rcases Text.mem_join hc with rfl | ⟨piece, hpiece, hc⟩
  · decide
  · have hname : isName piece = true := by
      rcases List.mem_cons.mp hpiece with rfl | hpiece
      · exact kind.isName_word
      · exact h piece hpiece
    simp [isPathChar, isNameRest_of_mem hname hc]

/-- What is read as a reference, said without reading: names with dots between them that do
not go on. -/
theorem leadingReference?_eq_some_iff {text : Text} {kind : ReferenceKind} {length : Nat} :
    leadingReference? text = some (kind, segments, length) ↔
      segments ≠ [] ∧ (∀ segment ∈ segments, isName segment = true) ∧
        length = (dotted kind segments).length ∧
        ∃ rest, text = dotted kind segments ++ rest ∧ continuesPath rest = false := by
  constructor
  · intro h
    obtain ⟨rest, htext, hrest, hlength⟩ := exists_append_of_leadingReference? h
    obtain ⟨-, -, -, -, hne, -⟩ := exists_of_leadingReference? h
    exact ⟨hne, isName_of_mem_leadingReference? h, hlength, rest, htext, hrest⟩
  · rintro ⟨hne, hnames, rfl, rest, rfl, hrest⟩
    exact leadingReference?_dotted kind hne hnames hrest

end Reference

theorem not_isNameStart_of_not_isPathChar {c : Char} (h : isPathChar c = false) :
    isNameStart c = false := by
  refine Bool.eq_false_iff.mpr fun hstart => ?_
  rw [isPathChar, isNameRest_of_isNameStart hstart] at h
  cases h

theorem continuesPath_cons_cons (c d : Char) (rest : Text) :
    continuesPath (c :: d :: rest) = if c = '.' then isNameStart d else isNameRest c := by
  unfold continuesPath
  split
  next heq =>
    cases heq
    rfl
  next hdot heq =>
    cases heq
    refine (if_neg ?_).symm
    rintro rfl
    exact hdot _ _ rfl rfl
  next heq => cases heq

theorem continuesPath_singleton (c : Char) : continuesPath [c] = isNameRest c := by
  unfold continuesPath
  split
  next heq => cases heq
  next heq =>
    cases heq
    rfl
  next heq => cases heq

/-- What stands in no path does not count for whether a path goes on. -/
theorem continuesPath_append_eq {tail : Text} (htail : ∀ c ∈ tail.head?, isPathChar c = false)
    (text : Text) : continuesPath (text ++ tail) = continuesPath text := by
  match text, tail with
  | [], tail => exact continuesPath_of_not_isPathChar htail
  | [c], [] => rfl
  | [c], d :: tail =>
    rw [List.singleton_append, continuesPath_cons_cons,
      not_isNameStart_of_not_isPathChar (htail d rfl), continuesPath_singleton]
    split
    next heq => rw [heq]; decide
    next => rfl
  | c :: d :: text, tail =>
    exact (continuesPath_cons_cons ..).trans (continuesPath_cons_cons ..).symm

/-- Nothing behind the end of a path counts for what is read as a reference. -/
theorem Reference.leadingReference?_append_eq {tail : Text}
    (htail : ∀ c ∈ tail.head?, isPathChar c = false) (front : Text) :
    leadingReference? (front ++ tail) = leadingReference? front := by
  refine Option.ext fun ⟨kind, segments, length⟩ => ?_
  rw [leadingReference?_eq_some_iff, leadingReference?_eq_some_iff]
  refine and_congr_right fun _ => and_congr_right fun hnames => and_congr_right fun _ => ?_
  constructor
  · rintro ⟨rest, htext, hrest⟩
    rcases List.append_eq_append_iff.mp htext with ⟨more, hword, htail'⟩ | ⟨more, hfront, rfl⟩
    · -- a word that is longer than the front would go on in the tail
      obtain rfl : more = [] := by
        cases more with
        | nil => rfl
        | cons c more =>
          have hmem : c ∈ dotted kind segments := by
            rw [hword]
            exact List.mem_append_right _ List.mem_cons_self
          have hc := isPathChar_of_mem_dotted hnames hmem
          rw [htail c (by rw [htail']; rfl)] at hc
          cases hc
      exact ⟨[], by rw [hword, List.append_nil, List.append_nil], rfl⟩
    · exact ⟨more, hfront, by rwa [continuesPath_append_eq htail] at hrest⟩
  · rintro ⟨rest, rfl, hrest⟩
    exact ⟨rest ++ tail, List.append_assoc .., by rwa [continuesPath_append_eq htail]⟩

/-! ### Parts of a mask -/

namespace Occurrence

variable {skip pos : Nat} {before : Option Char} {front tail : Text}

/-- **The search finds in a mask what it finds in its parts**, if no path goes on from the one
to the other. -/
theorem scan_append (htail : ∀ c ∈ tail.head?, isPathChar c = false) (hskip : skip ≤ front.length) :
    scan skip before pos (front ++ tail) = scan skip before pos front ++
      scan 0 (front.getLast?.or before) (pos + front.length) tail := by
  induction front generalizing skip before pos with
  | nil =>
    obtain rfl : skip = 0 := Nat.le_zero.mp hskip
    simp [scan]
  | cons c front ih =>
    have hposition : pos + (c :: front).length = pos + 1 + front.length := by
      rw [List.length_cons]
      omega
    rw [getLast?_cons_or, hposition, List.cons_append]
    cases skip with
    | succ skip => exact ih (Nat.le_of_succ_le_succ hskip)
    | zero =>
      rw [scan, scan, ← List.cons_append, Reference.leadingReference?_append_eq htail]
      split
      next => exact ih (Nat.zero_le _)
      next kind segments length hread =>
        have hlength : length - 1 ≤ front.length := by
          split at hread
          next =>
            obtain ⟨-, -, rfl, rest, htext, -⟩ :=
              Reference.leadingReference?_eq_some_iff.mp hread
            have := congrArg List.length htext
            simp only [List.length_cons, List.length_append] at this
            omega
          next => cases hread
        dsimp only
        rw [ih hlength]
        split <;> rfl

theorem scan_cons_of_not_isPathChar {c : Char} (hc : isPathChar c = false) (rest : Text) :
    scan 0 before pos (c :: rest) = scan 0 (some c) (pos + 1) rest := by
  have hnone : Reference.leadingReference? (c :: rest) = none := by
    refine Option.eq_none_iff_forall_not_mem.mpr fun ⟨kind, segments, length⟩ hread => ?_
    obtain ⟨hne, hnames, -, more, htext, -⟩ := Reference.leadingReference?_eq_some_iff.mp hread
    obtain ⟨d, word, hword⟩ := List.exists_cons_of_ne_nil (Reference.dotted_ne_nil kind hne)
    have hmem : c ∈ Reference.dotted kind segments := by
      rw [hword, List.cons_append] at htext
      rw [hword, (List.cons.inj htext).1]
      exact List.mem_cons_self
    rw [Reference.isPathChar_of_mem_dotted hnames hmem] at hc
    cases hc
  rw [scan, hnone, ite_self]

/-- The other way round: the front ends with what is in no path. -/
theorem scan_append_of_getLast? (hfront : ∀ c ∈ front.getLast?, isPathChar c = false)
    (tail : Text) :
    scan 0 before pos (front ++ tail) = scan 0 before pos front ++
      scan 0 (front.getLast?.or before) (pos + front.length) tail := by
  rcases List.eq_nil_or_concat front with rfl | ⟨init, c, rfl⟩
  · simp [scan]
  · rw [List.concat_eq_append] at hfront ⊢
    have hc : isPathChar c = false := hfront c (by simp)
    have hhead : ∀ more : Text, ∀ d ∈ (c :: more).head?, isPathChar d = false := by
      intro more d hd
      cases hd
      exact hc
    rw [List.append_assoc, List.singleton_append, scan_append (hhead tail) (Nat.zero_le _),
      scan_append (hhead []) (Nat.zero_le _), scan_cons_of_not_isPathChar hc,
      scan_cons_of_not_isPathChar hc, scan, List.append_nil]
    simp [Nat.add_assoc]

theorem map_reference_scan {before' : Option Char} (hbefore : mayFollow before = mayFollow before')
    (pos' : Nat) (text : Text) :
    (scan skip before pos text).map (·.reference) =
      (scan skip before' pos' text).map (·.reference) := by
  induction text generalizing skip before before' pos pos' with
  | nil => simp [scan]
  | cons c rest ih =>
    cases skip with
    | succ skip => exact ih rfl _
    | zero =>
      rw [scan, scan, hbefore]
      split
      next => exact ih rfl _
      next kind segments length _ =>
        have hmore := @ih (length - 1) (pos + 1) (some c) (some c) rfl (pos' + 1)
        dsimp only
        split
        · rw [List.map_cons, List.map_cons, hmore]
        · exact hmore

theorem stop_of_mem_scan {occurrence : Occurrence} {text : Text}
    (h : occurrence ∈ scan skip before pos text) :
    occurrence.start < occurrence.stop ∧ occurrence.stop ≤ pos + text.length := by
  obtain ⟨front, tail, length, rfl, -, hread, hstart, hstop⟩ := isFound_of_mem_scan h
  obtain ⟨hne, -, hlength, rest, rfl, -⟩ := Reference.leadingReference?_eq_some_iff.mp hread
  have hpos := List.length_pos_iff.mpr (Reference.dotted_ne_nil occurrence.reference.kind hne)
  simp only [List.length_append]
  omega

end Occurrence

/-- The references that the search finds in a mask. -/
def referencesIn (mask : Text) : List Reference := (Occurrence.scan 0 none 0 mask).map (·.reference)

theorem references_occurrences (text : Text) :
    (occurrences text).map (·.reference) = referencesIn (Hcl.mask text) := rfl

/-- No path goes on from the one to the other. -/
def Separate (front tail : Text) : Prop :=
  (∀ c ∈ front.getLast?, isPathChar c = false) ∨ ∀ c ∈ tail.head?, isPathChar c = false

section Separate

variable {front middle tail : Text} {before : Option Char} {pos : Nat}

theorem Separate.scan_append (h : Separate front tail) :
    Occurrence.scan 0 before pos (front ++ tail) = Occurrence.scan 0 before pos front ++
      Occurrence.scan 0 (front.getLast?.or before) (pos + front.length) tail :=
  h.elim (Occurrence.scan_append_of_getLast? · tail)
    (Occurrence.scan_append · (Nat.zero_le _))

/-- The search begins anew in the second part. -/
theorem Separate.map_scan (h : Separate front tail) (pos : Nat) :
    (Occurrence.scan 0 front.getLast? pos tail).map (·.reference) = referencesIn tail := by
  rcases h with hfront | htail
  · refine Occurrence.map_reference_scan ?_ 0 tail
    cases hlast : front.getLast? with
    | none => rfl
    | some c => exact mayFollow_of_not_isPathChar (hfront c hlast)
  · cases tail with
    | nil => rfl
    | cons c tail =>
      have hc := htail c rfl
      rw [referencesIn, Occurrence.scan_cons_of_not_isPathChar hc,
        Occurrence.scan_cons_of_not_isPathChar hc]
      exact Occurrence.map_reference_scan rfl _ tail

theorem Separate.referencesIn_append (h : Separate front tail) :
    referencesIn (front ++ tail) = referencesIn front ++ referencesIn tail := by
  rw [referencesIn, h.scan_append, List.map_append, Option.or_none, h.map_scan]
  rfl

theorem referencesIn_of_not_mem {mask : Text} (h : '.' ∉ mask) : referencesIn mask = [] := by
  refine List.map_eq_nil_iff.mpr (List.eq_nil_iff_forall_not_mem.mpr fun occurrence hmem => ?_)
  obtain ⟨front, tail, length, rfl, -, hread, -⟩ := Occurrence.isFound_of_mem_scan hmem
  obtain ⟨hne, -, -, rest, rfl, -⟩ := Reference.leadingReference?_eq_some_iff.mp hread
  rw [Reference.dotted, join_cons_of_ne_nil hne] at h
  simp at h

/-- **The references of a stretch of a mask are those that are reported inside its span.** -/
theorem map_reference_filter (hfront : Separate front (middle ++ tail))
    (htail : Separate middle tail) :
    ((Occurrence.scan 0 none 0 (front ++ (middle ++ tail))).filter fun occurrence =>
        front.length ≤ occurrence.start && occurrence.stop ≤ front.length + middle.length).map
      (·.reference) = referencesIn middle := by
  rw [hfront.scan_append, htail.scan_append, Option.or_none, Nat.zero_add, List.filter_append,
    List.filter_append]
  have hbefore : (Occurrence.scan 0 none 0 front).filter (fun occurrence =>
      front.length ≤ occurrence.start && occurrence.stop ≤ front.length + middle.length) = [] := by
    refine List.filter_eq_nil_iff.mpr fun occurrence hmem => ?_
    have := Occurrence.stop_of_mem_scan hmem
    simp only [Bool.and_eq_true, decide_eq_true_eq]
    omega
  have hinside : (Occurrence.scan 0 front.getLast? front.length middle).filter (fun occurrence =>
      front.length ≤ occurrence.start && occurrence.stop ≤ front.length + middle.length) =
      Occurrence.scan 0 front.getLast? front.length middle := by
    refine List.filter_eq_self.mpr fun occurrence hmem => ?_
    have hstart := Occurrence.le_start_of_mem_scan hmem
    have hstop := Occurrence.stop_of_mem_scan hmem
    simp only [Bool.and_eq_true, decide_eq_true_eq]
    omega
  have hbehind : ∀ before, (Occurrence.scan 0 before (front.length + middle.length) tail).filter
      (fun occurrence => front.length ≤ occurrence.start &&
        occurrence.stop ≤ front.length + middle.length) = [] := by
    intro before
    refine List.filter_eq_nil_iff.mpr fun occurrence hmem => ?_
    have hstart := Occurrence.le_start_of_mem_scan hmem
    have hstop := Occurrence.stop_of_mem_scan hmem
    simp only [Bool.and_eq_true, decide_eq_true_eq]
    omega
  rw [hbefore, hinside, hbehind, List.nil_append, List.append_nil]
  refine Separate.map_scan (hfront.imp_right fun hhead c hc => hhead c ?_) _
  cases middle with
  | nil => cases hc
  | cons d middle => exact hc

end Separate

end TerraformTrace
