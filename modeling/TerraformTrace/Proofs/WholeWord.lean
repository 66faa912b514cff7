import TerraformTrace.Proofs.MaskPath

/-!
# TerraformTrace.Proofs.WholeWord

Where a reference stands in a text, for the one who looks for references and for the one
who puts values in their place. Substitution replaces **exactly the whole words**: the
places where the reference's text stands and neither begins inside a word or after a dot
nor goes on as a longer path. Whole words of a reference never overlap, so replacing them
from left to right replaces all of them (`substitute_eq_replaceSpans`).

The search for references reads the mask, and takes as many segments as follow. What it
finds are whole words of the text itself, because the mask cuts no path
(`isWholeWord_of_mem_occurrences`). The other way round, whole words in comments and in
the literal part of strings are not found, and neither are those that a hyphen makes a part
of a longer path; all others are (`mem_occurrences_of_isWholeWord`).
-/

namespace TerraformTrace

open Text Substitution

variable {text word front tail shown rest : Text} {c : Char} {segments : List Text}
  {start length place : Nat} {kind : ReferenceKind}

/-! ### Paths -/

/-- What continues a path begins with characters of a path that would continue it whatever
came after them. -/
theorem exists_of_continuesPath (h : continuesPath text = true) :
    ∃ path rest, text = path ++ rest ∧ (∀ c ∈ path, isPathChar c = true) ∧
      ∀ more, continuesPath (path ++ more) = true := by
  unfold continuesPath at h
  split at h
  next c rest =>
    have hc := isNameRest_of_isNameStart h
    exact ⟨['.', c], rest, rfl, by simp [isPathChar, hc], fun more => h⟩
  next c rest _ =>
    exact ⟨[c], rest, rfl, by simp [isPathChar, h], continuesPath_of_isNameRest h⟩
  next => cases h

/-- Every part of the text up to its end would continue a path. -/
def IsPath (text : Text) : Prop :=
  ∀ tail, tail ≠ [] → tail <:+ text → ∀ rest, continuesPath (tail ++ rest) = true

namespace IsPath

theorem nil : IsPath [] := fun _ hne hsuffix => absurd (List.suffix_nil.mp hsuffix) hne

theorem cons (hc : ∀ rest, continuesPath (c :: (text ++ rest)) = true) (h : IsPath text) :
    IsPath (c :: text) := by
  intro tail hne hsuffix rest
  rcases List.suffix_cons_iff.mp hsuffix with rfl | hsuffix
  · exact hc rest
  · exact h tail hne hsuffix rest

theorem name_append {name : Text} (hname : ∀ c ∈ name, isNameRest c = true) (h : IsPath text) :
    IsPath (name ++ text) := by
  induction name with
  | nil => exact h
  | cons c name ih =>
    obtain ⟨hc, hname⟩ := List.forall_mem_cons.mp hname
    exact cons (fun rest => continuesPath_of_isNameRest hc _) (ih hname)

/-- Names with dots before them. -/
theorem joinRest {names : List Text} (h : ∀ name ∈ names, isName name = true) :
    IsPath (joinRest ['.'] names) := by
  induction names with
  | nil => exact nil
  | cons name names ih =>
    obtain ⟨hname, hnames⟩ := List.forall_mem_cons.mp h
    have hpath := name_append (fun c hc => isNameRest_of_mem hname hc) (ih hnames)
    rw [Text.joinRest, join_cons, List.singleton_append]
    refine cons (fun rest => ?_) hpath
    cases name with
    | nil => cases hname
    | cons c name => exact (Bool.and_eq_true_iff.mp hname).1

end IsPath

theorem ReferenceKind.isName_word (kind : ReferenceKind) : isName kind.word = true := by
  cases kind <;> decide

theorem Reference.isPath_dotted (kind : ReferenceKind)
    (h : ∀ segment ∈ segments, isName segment = true) : IsPath (dotted kind segments) := by
  rw [dotted, join_cons]
  exact .name_append (fun c hc => isNameRest_of_mem kind.isName_word hc) (.joinRest h)

/-! ### Whole words -/

/-- Whether a word stands at some place of a text as a whole: not after a word character or
a dot, and not before a name character or a further segment. -/
def isWholeWord (word text : Text) (start : Nat) : Bool :=
  !((text.take start).getLast?.any fun c => isWord c || c = '.') &&
    word.isPrefixOf (text.drop start) && !continuesPath (text.drop (start + word.length))

/-- The places where a word stands as a whole. -/
def wholeWords (word text : Text) : List Nat :=
  (List.range text.length).filter (isWholeWord word text)

theorem isWholeWord_append :
    isWholeWord word (front ++ (word ++ rest)) front.length = true ↔
      (front.getLast?.any fun c => isWord c || c = '.') = false ∧ continuesPath rest = false := by
  have hafter : (front ++ (word ++ rest)).drop (front.length + word.length) = rest := by
    rw [← List.append_assoc, ← List.length_append, List.drop_left]
  have hprefix : word.isPrefixOf (word ++ rest) = true :=
    List.isPrefixOf_iff_prefix.mpr (List.prefix_append ..)
  rw [isWholeWord, hafter, List.take_left, List.drop_left, hprefix]
  simp

theorem exists_append_of_isWholeWord (hword : word ≠ []) (h : isWholeWord word text start = true) :
    ∃ front rest, text = front ++ (word ++ rest) ∧
      front.length = start := by
  simp only [isWholeWord, Bool.and_eq_true] at h
  obtain ⟨rest, hrest⟩ := List.isPrefixOf_iff_prefix.mp h.1.2
  refine ⟨text.take start, rest, by rw [hrest, List.take_append_drop], ?_⟩
  have hlength := congrArg List.length hrest
  have hpos := List.length_pos_iff.mpr hword
  simp only [List.length_append, List.length_drop] at hlength
  rw [List.length_take]
  omega

theorem mem_wholeWords (hword : word ≠ []) :
    start ∈ wholeWords word text ↔ isWholeWord word text start = true := by
  rw [wholeWords, List.mem_filter, List.mem_range]
  refine and_iff_right_of_imp fun h => ?_
  obtain ⟨front, rest, rfl, rfl⟩ := exists_append_of_isWholeWord hword h
  have hpos := List.length_pos_iff.mpr hword
  simp only [List.length_append]
  omega

/-- Whole words do not overlap: what is left of the second after the end of the first
would continue the first. -/
theorem le_of_isWholeWord {i j : Nat} (hpath : IsPath word) (hword : word ≠ [])
    (hi : isWholeWord word text i = true) (hj : isWholeWord word text j = true) (hlt : i < j) :
    i + word.length ≤ j := by
  refine Nat.le_of_not_lt fun hoverlap => ?_
  obtain ⟨front, rest, rfl, rfl⟩ := exists_append_of_isWholeWord hword hj
  simp only [isWholeWord, Bool.and_eq_true] at hi
  have hafter := hi.2
  have hdrop : (front ++ (word ++ rest)).drop (i + word.length) =
      word.drop (i + word.length - front.length) ++ rest := by
    rw [List.drop_append, List.drop_eq_nil_of_le (Nat.le_of_lt hoverlap), List.nil_append,
      List.drop_append_of_le_length (by omega)]
  have hne : word.drop (i + word.length - front.length) ≠ [] := by
    rw [Ne, List.drop_eq_nil_iff]
    omega
  rw [hdrop, hpath _ hne (List.drop_suffix ..)] at hafter
  cases hafter

/-! ### Substitution -/

/-- What becomes of one character: the value at the beginning of a span, nothing in the
rest of it, and the character itself outside of all spans. -/
def replaceChar (value : Text) (spans : List (Nat × Nat)) (item : Char × Nat) : Text :=
  if spans.any (·.1 = item.2) then value
  else if spans.any (fun span => span.1 ≤ item.2 && item.2 < span.2) then []
  else [item.1]

/-- The text with a value in the place of each span. -/
def replaceSpans (value : Text) (spans : List (Nat × Nat)) (text : Text) : Text :=
  text.zipIdx.flatMap (replaceChar value spans)

/-- The spans of a word's whole occurrences. -/
def wordSpans (word text : Text) : List (Nat × Nat) :=
  (wholeWords word text).map fun start => (start, start + word.length)

section Replace

variable {word text : Text} (value : Text) (hword : word ≠ [])

include hword

theorem any_wordSpans (p : Nat × Nat → Bool) : (wordSpans word text).any p = true ↔
    ∃ start, isWholeWord word text start = true ∧ p (start, start + word.length) = true := by
  simp only [wordSpans, List.any_map, List.any_eq_true, mem_wholeWords hword, Function.comp]

/-- A span begins where a whole word stands. -/
theorem any_start (place : Nat) :
    (wordSpans word text).any (·.1 = place) = isWholeWord word text place := by
  rw [Bool.eq_iff_iff, any_wordSpans hword]
  simp

theorem replaceChar_start (h : isWholeWord word text place = true) :
    replaceChar value (wordSpans word text) (c, place) = value := by
  rw [replaceChar, any_start hword, if_pos h]

theorem replaceChar_inside (h : isWholeWord word text place = false)
    (hstart : isWholeWord word text start = true) (hlt : start < place)
    (hle : place < start + word.length) :
    replaceChar value (wordSpans word text) (c, place) = [] := by
  have hinside : (wordSpans word text).any
      (fun span => span.1 ≤ place && place < span.2) = true := by
    refine (any_wordSpans hword _).mpr ⟨start, hstart, ?_⟩
    simp only [Bool.and_eq_true, decide_eq_true_eq]
    omega
  rw [replaceChar, any_start hword, if_neg (by simp [h]), if_pos hinside]

theorem replaceChar_outside (h : isWholeWord word text place = false)
    (hbefore : ∀ start, isWholeWord word text start = true → start < place →
      start + word.length ≤ place) : replaceChar value (wordSpans word text) (c, place) = [c] := by
  have houtside : ¬(wordSpans word text).any
      (fun span => span.1 ≤ place && place < span.2) = true := by
    rw [any_wordSpans hword]
    rintro ⟨start, hstart, hinside⟩
    simp only [Bool.and_eq_true, decide_eq_true_eq] at hinside
    have hne : start ≠ place := by
      rintro rfl
      rw [h] at hstart
      cases hstart
    have hle := hbefore start hstart (Nat.lt_of_le_of_ne hinside.1 hne)
    omega
  rw [replaceChar, any_start hword, if_neg (by simp [h]), if_neg houtside]

end Replace

theorem wholeWordLength?_eq (word done rest : Text) :
    wholeWordLength? word done.getLast? rest =
      if isWholeWord word (done ++ rest) done.length then some word.length else none := by
  have hafter : (done ++ rest).drop (done.length + word.length) = rest.drop word.length := by
    rw [← List.drop_drop, List.drop_left]
  rw [wholeWordLength?, isWholeWord, hafter, List.take_left, List.drop_left]

/-- Replacing from left to right, in the middle of a text: `skip` characters are still to
be passed over, up to the end of the whole word that was replaced last. -/
theorem replace_wholeWords (hpath : IsPath word) (hword : word ≠ []) (value done rest : Text)
    (skip : Nat) (htext : text = done ++ rest)
    (hbefore : ∀ start, isWholeWord word text start = true → start < done.length →
      start + word.length ≤ done.length + skip)
    (hskip : 0 < skip → ∃ start, isWholeWord word text start = true ∧ start < done.length ∧
      done.length + skip = start + word.length) :
    replace (wholeWordLength? word) value skip done.getLast? rest =
      (rest.zipIdx done.length).flatMap (replaceChar value (wordSpans word text)) := by
  induction rest generalizing done skip with
  | nil =>
    have hnone : wholeWordLength? word done.getLast? [] = none := by
      cases word with
      | nil => exact absurd rfl hword
      | cons c word => simp [wholeWordLength?]
    cases skip with
    | zero => simp [replace, hnone]
    | succ skip => rfl
  | cons c rest ih =>
    have htext' : text = (done ++ [c]) ++ rest := by simp [htext]
    have hlast : (done ++ [c]).getLast? = some c := List.getLast?_concat
    have hlength : (done ++ [c]).length = done.length + 1 := by simp
    -- whole words that begin up to here end before what is passed over next
    have hnext : ∀ {skip' : Nat}, skip ≤ skip' + 1 →
        (isWholeWord word text done.length = true → word.length ≤ skip' + 1) →
        ∀ start, isWholeWord word text start = true → start < (done ++ [c]).length →
          start + word.length ≤ (done ++ [c]).length + skip' := by
      intro skip' hle hhere start hstart hlt
      rw [hlength] at hlt ⊢
      rcases Nat.lt_succ_iff_lt_or_eq.mp hlt with hearlier | rfl
      · have := hbefore start hstart hearlier
        omega
      · have := hhere hstart
        omega
    rw [List.zipIdx_cons, List.flatMap_cons, ← hlength]
    cases skip with
    | succ skip =>
      obtain ⟨start, hstart, hlt, hend⟩ := hskip (Nat.succ_pos skip)
      have hnot : isWholeWord word text done.length = false := by
        refine Bool.eq_false_iff.mpr fun hhere => ?_
        have hle := le_of_isWholeWord hpath hword hstart hhere hlt
        omega
      rw [replaceChar_inside value hword hnot hstart hlt (by omega), List.nil_append, replace,
        ← hlast]
      exact ih _ _ htext' (hnext (Nat.le_refl _) (by simp [hnot])) fun _ =>
        ⟨start, hstart, by omega, by omega⟩
    | zero =>
      rw [replace, wholeWordLength?_eq, ← htext]
      cases hhere : isWholeWord word text done.length with
      | true =>
        obtain ⟨n, hn⟩ : ∃ n, word.length = n + 1 :=
          ⟨word.length - 1, by have := List.length_pos_iff.mpr hword; omega⟩
        rw [replaceChar_start value hword hhere, if_pos rfl, hn, ← hlast]
        exact congrArg (value ++ ·)
          (ih _ _ htext' (hnext (Nat.zero_le _) fun _ => Nat.le_of_eq hn) fun _ =>
            ⟨done.length, hhere, by omega, by omega⟩)
      | false =>
        rw [replaceChar_outside value hword hhere hbefore, ← hlast]
        exact congrArg (c :: ·) (ih _ _ htext' (hnext (Nat.zero_le _) (by simp [hhere]))
          (absurd · (by decide)))

/-- Substitution by a value that is no quoted string replaces exactly the whole words. -/
theorem substitute_eq_replaceSpans {value : Text} (hpath : IsPath word) (hword : word ≠ [])
    (hvalue : isQuotedString value = false) (text : Text) :
    substitute text word value = replaceSpans value (wordSpans word text) text := by
  rw [substitute, hvalue]
  exact replace_wholeWords hpath hword value [] text 0 rfl nofun nofun

/-! ### Reading a reference at the front of a text -/

theorem continuesPath_of_not_dot (hhead : ∀ c ∈ text.head?, isNameRest c = false)
    (hdot : ∀ rest, text ≠ '.' :: rest) : continuesPath text = false := by
  cases text with
  | nil => rfl
  | cons c rest =>
    unfold continuesPath
    split
    next heq => exact absurd heq (hdot _)
    next heq =>
      obtain ⟨rfl, -⟩ := List.cons.inj heq
      exact hhead _ rfl
    next => rfl

namespace Reference

/-- Names with dots between them stand at the front of the text, and the path does not go
on after them. -/
def Leads (names : List Text) (read : Nat) (text : Text) : Prop :=
  ∃ rest, text = join ['.'] names ++ rest ∧ continuesPath rest = false ∧
    read = (join ['.'] names).length

/-- A path is read up to where it does not go on. -/
theorem leads_of_leadingPath {rounds : Nat} (hrounds : text.length ≤ rounds) :
    ((leadingPath rounds text).1 = [] ∧ leadingName? text = none) ∨
      ((leadingPath rounds text).1 ≠ [] ∧
        Leads (leadingPath rounds text).1 (leadingPath rounds text).2 text) := by
  fun_induction leadingPath rounds text with
  | case1 text =>
    obtain rfl : text = [] := List.length_eq_zero_iff.mp (Nat.le_zero.mp hrounds)
    exact .inl ⟨rfl, rfl⟩
  | case2 rounds text hname => exact .inl ⟨rfl, hname⟩
  | case3 rounds text name hname rest hrest read hpath ih =>
    obtain ⟨more, rfl, -⟩ := exists_append_of_leadingName? hname
    rw [List.drop_left] at hrest
    subst hrest
    -- nothing is read after the dot, so the path ends before it
    have hshorter : rest.length ≤ rounds := by
      simp only [List.length_append, List.length_cons] at hrounds
      omega
    have hnone : leadingName? rest = none := by
      rcases ih hshorter with ⟨-, hnone⟩ | ⟨hne, -⟩
      · exact hnone
      · exact absurd (by rw [hpath]) hne
    exact .inr ⟨List.cons_ne_nil _ _, _, rfl, by rw [continuesPath_dot, hnone]; rfl, rfl⟩
  | case4 rounds text name hname rest hrest names read hne hpath ih =>
    obtain ⟨more, rfl, -⟩ := exists_append_of_leadingName? hname
    rw [List.drop_left] at hrest
    subst hrest
    have hshorter : rest.length ≤ rounds := by
      simp only [List.length_append, List.length_cons] at hrounds
      omega
    rw [hpath] at ih
    obtain ⟨-, after, hrest, hafter, hread⟩ := (ih hshorter).resolve_left fun h => hne h.1
    refine .inr ⟨List.cons_ne_nil _ _, after, ?_, hafter, ?_⟩
    · rw [hrest]
      simp [join_cons_of_ne_nil hne name]
    · dsimp only at hread ⊢
      rw [hread, join_cons_of_ne_nil hne name, List.length_append, List.length_cons]
      omega
  | case5 rounds text name hname hrest =>
    obtain ⟨more, rfl, hhead⟩ := exists_append_of_leadingName? hname
    rw [List.drop_left] at hrest
    exact .inr ⟨List.cons_ne_nil _ _, more, rfl, continuesPath_of_not_dot hhead hrest, rfl⟩

/-- What is read as a reference stands there, and does not go on after it. -/
theorem exists_append_of_leadingReference?
    (h : leadingReference? text = some (kind, segments, length)) :
    ∃ rest, text = dotted kind segments ++ rest ∧ continuesPath rest = false ∧
      length = (dotted kind segments).length := by
  obtain ⟨body, read, rfl, hpath, hne, rfl⟩ := exists_of_leadingReference? h
  obtain ⟨-, rest, hbody, hrest, hread⟩ :=
    (leads_of_leadingPath (Nat.le_refl body.length)).resolve_left fun hnil => by
      rw [hpath] at hnil
      exact hne hnil.1
  rw [hpath] at hbody hread
  dsimp only at hbody hread
  rw [dotted, join_cons_of_ne_nil hne kind.word]
  refine ⟨rest, ?_, hrest, ?_⟩
  · rw [hbody]
    simp
  · rw [hread]
    simp
    omega

/-- Inside of what is read as a reference the path goes on. -/
theorem continuesPath_of_leadingReference?
    (h : leadingReference? text = some (kind, segments, length)) {n : Nat} (hn : n < length) :
    continuesPath (text.drop n) = true := by
  obtain ⟨rest, rfl, -, rfl⟩ := exists_append_of_leadingReference? h
  rw [List.drop_append_of_le_length (Nat.le_of_lt hn)]
  refine isPath_dotted kind (isName_of_mem_leadingReference? h) _ ?_ (List.drop_suffix ..) rest
  simpa using hn

/-- Where what is read as a reference ends, the path does not go on. -/
theorem not_continuesPath_of_leadingReference?
    (h : leadingReference? text = some (kind, segments, length)) :
    continuesPath (text.drop length) = false := by
  obtain ⟨rest, rfl, hrest, rfl⟩ := exists_append_of_leadingReference? h
  rwa [List.drop_left]

end Reference

/-! ### The search -/

namespace Occurrence

theorem getLast?_cons_or (c : Char) (front : Text) (before : Option Char) :
    (c :: front).getLast?.or before = front.getLast?.or (some c) := by
  cases front with
  | nil => rfl
  | cons d front => simp [List.getLast?_cons]

/-- What the search finds is read at its place, and may begin there. -/
def IsFound (occurrence : Occurrence) (before : Option Char) (pos : Nat) (text : Text) : Prop :=
  ∃ front tail length, text = front ++ tail ∧ mayFollow (front.getLast?.or before) = true ∧
    Reference.leadingReference? tail =
      some (occurrence.reference.kind, occurrence.reference.segments, length) ∧
    occurrence.start = pos + front.length ∧ occurrence.stop = occurrence.start + length

variable {occurrence : Occurrence} {skip pos : Nat} {before : Option Char} {text : Text}

theorem IsFound.cons (h : occurrence.IsFound (some c) (pos + 1) text) :
    occurrence.IsFound before pos (c :: text) := by
  obtain ⟨front, tail, length, rfl, hfollow, hleading, hstart, hstop⟩ := h
  refine ⟨c :: front, tail, length, rfl, ?_, hleading, ?_, hstop⟩
  · rwa [getLast?_cons_or]
  · rw [hstart, List.length_cons, Nat.add_right_comm, Nat.add_assoc]

theorem isFound_of_mem_scan (h : occurrence ∈ scan skip before pos text) :
    occurrence.IsFound before pos text := by
  fun_induction scan skip before pos text with
  | case1 => simp at h
  | case2 _ _ _ _ _ ih => exact (ih h).cons
  | case3 _ _ _ _ _ ih => exact (ih h).cons
  | case4 before pos c rest kind segments length hleading more ref hmake ih =>
    rcases List.mem_cons.mp h with rfl | hmore
    · split at hleading
      next hfollow =>
        obtain ⟨hkind, hsegments⟩ := Reference.make_eq_ok hmake
        exact ⟨[], c :: rest, length, rfl, hfollow,
          by rw [hkind, hsegments]; exact hleading, rfl, rfl⟩
      next => cases hleading
    · exact (ih hmore).cons
  | case5 _ _ _ _ _ _ _ _ _ _ _ ih => exact (ih h).cons

theorem le_start_of_mem_scan (h : occurrence ∈ scan skip before pos text) :
    pos + skip ≤ occurrence.start := by
  fun_induction scan skip before pos text with
  | case1 => simp at h
  | case2 _ _ _ _ _ ih =>
    have := ih h
    omega
  | case3 _ _ _ _ _ ih =>
    have := ih h
    omega
  | case4 _ _ _ _ _ _ _ _ _ _ _ ih =>
    rcases List.mem_cons.mp h with rfl | hmore
    · exact Nat.le_refl _
    · have := ih hmore
      omega
  | case5 _ _ _ _ _ _ _ _ _ _ _ ih =>
    have := ih h
    omega

/-- No path that is read as a reference and begins in the front goes on over its end. -/
def EndsPaths (before : Option Char) (front tail : Text) : Prop :=
  ∀ n < front.length, mayFollow ((front.take n).getLast?.or before) = true →
    ∀ read ∈ Reference.leadingReference? (front.drop n ++ tail), n + read.2.2 ≤ front.length

theorem endsPaths_cons :
    EndsPaths before (c :: front) tail ↔
    (mayFollow before = true → ∀ read ∈ Reference.leadingReference? (c :: (front ++ tail)),
      read.2.2 ≤ front.length + 1) ∧ EndsPaths (some c) front tail := by
  constructor
  · intro h
    refine ⟨fun hfollow read hread => ?_, fun n hn hfollow read hread => ?_⟩
    · simpa using h 0 (Nat.succ_pos _) hfollow read hread
    · rw [← getLast?_cons_or c _ before, ← List.take_succ_cons] at hfollow
      have := h (n + 1) (Nat.succ_lt_succ hn) hfollow read hread
      rw [List.length_cons] at this
      omega
  · rintro ⟨hhere, hrest⟩ n hn hfollow read hread
    cases n with
    | zero => simpa using hhere hfollow read hread
    | succ n =>
      rw [List.take_succ_cons, getLast?_cons_or] at hfollow
      have := hrest n (Nat.lt_of_succ_lt_succ hn) hfollow read hread
      rw [List.length_cons]
      omega

/-- The search comes to every place that no path before it goes on over. -/
theorem mem_scan_append (hskip : skip ≤ front.length) (hends : EndsPaths before front tail)
    (h : occurrence ∈ scan 0 (front.getLast?.or before) (pos + front.length) tail) :
    occurrence ∈ scan skip before pos (front ++ tail) := by
  induction front generalizing skip before pos with
  | nil =>
    obtain rfl : skip = 0 := Nat.le_zero.mp hskip
    exact h
  | cons c front ih =>
    rw [getLast?_cons_or, List.length_cons, Nat.add_comm front.length, ← Nat.add_assoc] at h
    rw [List.length_cons] at hskip
    obtain ⟨hhere, hrest⟩ := endsPaths_cons.mp hends
    rw [List.cons_append]
    cases skip with
    | succ skip => exact ih (Nat.le_of_succ_le_succ hskip) hrest h
    | zero =>
      rw [scan]
      split
      next => exact ih (Nat.zero_le _) hrest h
      next kind segments length hread =>
        have hlength : length ≤ front.length + 1 := by
          split at hread
          next hfollow => exact hhere hfollow _ hread
          next => cases hread
        have hmore : occurrence ∈ scan (length - 1) (some c) (pos + 1) (front ++ tail) :=
          ih (by omega) hrest h
        dsimp only
        split
        · exact List.mem_cons_of_mem _ hmore
        · exact hmore

/-- No path before a place where the search finds something goes on over it. What the search
passes over is the rest of a path. -/
theorem endsPaths_of_mem_scan (hskip : skip ≠ 0 → continuesPath ((front ++ tail).drop skip) = false)
    (hstart : occurrence.start = pos + front.length)
    (h : occurrence ∈ scan skip before pos (front ++ tail)) : EndsPaths before front tail := by
  induction front generalizing skip before pos with
  | nil => exact fun n hn => absurd hn (Nat.not_lt_zero n)
  | cons c front ih =>
    rw [List.length_cons, Nat.add_comm front.length, ← Nat.add_assoc] at hstart
    rw [List.cons_append] at h hskip
    have hle := le_start_of_mem_scan h
    rw [endsPaths_cons]
    cases skip with
    | succ skip =>
      refine ⟨fun _ read hread => ?_, ih (fun _ => hskip (Nat.succ_ne_zero _)) hstart h⟩
      -- a path inside the one that is passed over does not go on after it
      refine Nat.le_trans (Nat.le_of_not_lt fun hlong => ?_) (by omega : skip + 1 ≤ _)
      have hcontinues := Reference.continuesPath_of_leadingReference? hread hlong
      rw [hskip (Nat.succ_ne_zero _)] at hcontinues
      cases hcontinues
    | zero =>
      rw [scan] at h
      split at h
      next hnone =>
        refine ⟨fun hfollow read hread => ?_, ih (absurd rfl) hstart h⟩
        rw [if_pos hfollow, Option.mem_def.mp hread] at hnone
        cases hnone
      next kind segments length hread =>
        obtain ⟨hfollow, hread⟩ : mayFollow before = true ∧
            Reference.leadingReference? (c :: (front ++ tail)) =
              some (kind, segments, length) := by
          split at hread
          next hfollow => exact ⟨hfollow, hread⟩
          next => cases hread
        have hmore :
            occurrence ∈ scan (length - 1) (some c) (pos + 1) (front ++ tail) := by
          dsimp only at h
          split at h
          next ref _ =>
            rcases List.mem_cons.mp h with rfl | hmore
            · dsimp only at hstart
              omega
            · exact hmore
          next => exact h
        have hfar := le_start_of_mem_scan hmore
        refine ⟨fun _ read hagain => ?_, ih (fun hskipped => ?_) hstart hmore⟩
        · rw [hread] at hagain
          cases hagain
          dsimp only
          omega
        -- the rest of the path is passed over
        · cases length with
          | zero => exact absurd rfl hskipped
          | succ length =>
            rw [Nat.add_sub_cancel, ← List.drop_succ_cons]
            exact Reference.not_continuesPath_of_leadingReference? hread

/-- Whether what is read as a reference begins before a place and goes on over it. -/
def isTakenUp (text : Text) (place : Nat) : Bool :=
  (List.range place).any fun n =>
    mayFollow (text.take n).getLast? &&
      (Reference.leadingReference? (text.drop n)).any fun read => place < n + read.2.2

theorem isTakenUp_append :
    isTakenUp (front ++ tail) front.length = false ↔ EndsPaths none front tail := by
  simp only [isTakenUp, EndsPaths, List.any_eq_false, List.mem_range, Bool.and_eq_true, not_and,
    Option.any_eq_true, decide_eq_true_eq, not_exists, Nat.not_lt, Option.or_none]
  refine forall₂_congr fun n hn => ?_
  rw [List.take_append_of_le_length (Nat.le_of_lt hn),
    List.drop_append_of_le_length (Nat.le_of_lt hn)]
  rfl

/-- A reference that may begin at the front of a text is found there. -/
theorem mem_scan_of_leadingReference? {ref : Reference} (hne : text ≠ [])
    (hfollow : mayFollow before = true)
    (h : Reference.leadingReference? text = some (ref.kind, ref.segments, length)) :
    { reference := ref, start := pos, stop := pos + length } ∈ scan 0 before pos text := by
  obtain ⟨c, rest, rfl⟩ := List.exists_cons_of_ne_nil hne
  have hmake : Reference.make ref.kind ref.segments = .ok ref := by
    rw [Reference.make, dif_pos ref.enough]
  rw [scan, if_pos hfollow, h]
  dsimp only
  rw [hmake]
  exact List.mem_cons_self

end Occurrence

/-! ### The two sides -/

section Agreement

variable {text : Text}

theorem not_isWord_of_not_isPathChar (h : isPathChar c = false) :
    (isWord c || c = '.') = false := by
  simp only [isPathChar, isNameRest, Bool.or_eq_false_iff] at h
  rw [h.1.1, h.2]
  rfl

/-- A mask and its text, cut at one place. -/
theorem exists_append_of_mask (h : Hcl.mask text = shown ++ tail) :
    ∃ front rest, text = front ++ rest ∧ shown.length = front.length := by
  refine ⟨text.take shown.length, text.drop shown.length, (List.take_append_drop ..).symm, ?_⟩
  have hlength := congrArg List.length h
  rw [Hcl.length_mask, List.length_append] at hlength
  rw [List.length_take]
  omega

theorem exists_concat_of_length (h : shown.length = (front ++ [c]).length) :
    ∃ shown' m, shown = shown' ++ [m] ∧ shown'.length = front.length := by
  have hne : shown ≠ [] := by
    rintro rfl
    simp at h
  refine ⟨shown.dropLast, shown.getLast hne, (List.dropLast_concat_getLast hne).symm, ?_⟩
  rw [List.length_dropLast, h]
  simp

/-- The text before a visible path does not run into it, if the mask does not. -/
theorem any_getLast?_of_mask {more : Text} (hword : word ≠ [])
    (hpath : ∀ c ∈ word, isPathChar c = true)
    (hmask : Hcl.mask (front ++ (word ++ rest)) = shown ++ (word ++ more))
    (hlength : shown.length = front.length) (hfollow : Occurrence.mayFollow shown.getLast? = true) :
    (front.getLast?.any fun c => isWord c || c = '.') = false := by
  obtain ⟨d, word, rfl⟩ := List.exists_cons_of_ne_nil hword
  cases hlast : front.getLast? with
  | none => rfl
  | some c =>
    obtain ⟨front, rfl⟩ := List.getLast?_eq_some_iff.mp hlast
    obtain ⟨shown, m, rfl, hshorter⟩ := exists_concat_of_length hlength
    rw [List.getLast?_concat] at hfollow
    cases hc : isPathChar c with
    | false => exact not_isWord_of_not_isPathChar hc
    | true =>
      have hcut : Hcl.mask (front ++ c :: d :: (word ++ rest)) =
          shown ++ m :: d :: (word ++ more) := by simpa using hmask
      have hm := Hcl.mask_before hcut hshorter hc (hpath d List.mem_cons_self)
      rw [hm] at hfollow
      simpa [Occurrence.mayFollow] using hfollow

/-- A path with a dot that the mask shows does not go on in the text, if it does not go on
in the mask. -/
theorem continuesPath_of_mask {path more : Text} (hpath : ∀ c ∈ path, isPathChar c = true)
    (hmask : Hcl.mask (front ++ (word ++ '.' :: path ++ rest)) =
      shown ++ (word ++ '.' :: path ++ more)) (hlength : shown.length = front.length)
    (h : continuesPath more = false) : continuesPath rest = false := by
  refine Bool.eq_false_iff.mpr fun hrest => ?_
  obtain ⟨next, rest, rfl, hnext, hcontinues⟩ := exists_of_continuesPath hrest
  have hcut : Hcl.mask ((front ++ word) ++ '.' :: ((path ++ next) ++ rest)) =
      (shown ++ word) ++ '.' :: (path ++ more) := by simpa using hmask
  obtain ⟨more', hmore⟩ := Hcl.mask_dot hcut (by simp [hlength])
    (List.forall_mem_append.mpr ⟨hpath, hnext⟩)
  rw [List.append_assoc, List.append_cancel_left_eq] at hmore
  rw [hmore, hcontinues] at h
  cases h

/-- What the search finds is a whole word that the mask shows. -/
theorem isWholeWord_of_mem_occurrences {occurrence : Occurrence}
    (h : occurrence ∈ occurrences text) :
    isWholeWord occurrence.reference.text text occurrence.start = true ∧
      occurrence.reference.text.isPrefixOf ((Hcl.mask text).drop occurrence.start) = true ∧
      Occurrence.isTakenUp (Hcl.mask text) occurrence.start = false ∧
      occurrence.stop = occurrence.start + occurrence.reference.text.length := by
  have hformed := Reference.isWellFormed_of_mem_scan h
  obtain ⟨shown, tail, length, hmask, hfollow, hleading, hstart, hstop⟩ :=
    Occurrence.isFound_of_mem_scan h
  rw [occurrences, hmask] at h
  have hends := Occurrence.endsPaths_of_mem_scan (absurd rfl) hstart h
  obtain ⟨more, rfl, hmore, rfl⟩ := Reference.exists_append_of_leadingReference? hleading
  rw [Nat.zero_add] at hstart
  replace hmask : Hcl.mask text = shown ++ (occurrence.reference.text ++ more) := hmask
  refine ⟨?_, ?_, ?_, hstop⟩
  · obtain ⟨front, rest, rfl, hlength⟩ := exists_append_of_mask hmask
    obtain ⟨rest, rfl⟩ := Hcl.mask_path hformed.isPathChar hmask hlength
    rw [hstart, hlength, isWholeWord_append]
    rw [Option.or_none] at hfollow
    refine ⟨any_getLast?_of_mask (Reference.text_ne_nil _) hformed.isPathChar hmask hlength
      hfollow, ?_⟩
    have hsegments : ∀ c ∈ join ['.'] occurrence.reference.segments, isPathChar c = true := by
      intro c hc
      refine hformed.isPathChar c ?_
      rw [Reference.text_eq]
      simp [hc]
    rw [Reference.text_eq] at hmask
    exact continuesPath_of_mask hsegments hmask hlength hmore
  · rw [hmask, hstart, List.drop_left]
    exact List.isPrefixOf_iff_prefix.mpr (List.prefix_append ..)
  · rw [hmask, hstart]
    exact Occurrence.isTakenUp_append.mpr hends

/-- A whole word that the mask shows is found, unless it lies inside a longer path. -/
theorem mem_occurrences_of_isWholeWord {ref : Reference} (href : ref.IsWellFormed)
    (h : isWholeWord ref.text text start = true)
    (hshown : ref.text.isPrefixOf ((Hcl.mask text).drop start) = true)
    (hfree : Occurrence.isTakenUp (Hcl.mask text) start = false) :
    { reference := ref, start, stop := start + ref.text.length } ∈ occurrences text := by
  have hne := ref.text_ne_nil
  obtain ⟨front, rest, rfl, rfl⟩ := exists_append_of_isWholeWord hne h
  obtain ⟨hword, hrest⟩ := isWholeWord_append.mp h
  obtain ⟨more, hmore⟩ := List.isPrefixOf_iff_prefix.mp hshown
  have hmask := (List.take_append_drop front.length (Hcl.mask (front ++ (ref.text ++ rest)))).symm
  rw [← hmore] at hmask
  generalize hshown : (Hcl.mask (front ++ (ref.text ++ rest))).take front.length = shown at hmask
  have hlength : shown.length = front.length := by
    rw [← hshown, List.length_take, Hcl.length_mask, List.length_append]
    omega
  -- the path ends in the mask, because it ends in the text
  have hend : continuesPath more = false := by
    refine Bool.eq_false_iff.mpr fun hcontinues => ?_
    obtain ⟨next, more, rfl, hnext, hagain⟩ := exists_of_continuesPath hcontinues
    rw [← List.append_assoc ref.text] at hmask
    obtain ⟨rest', hrest'⟩ := Hcl.mask_path
      (List.forall_mem_append.mpr ⟨href.isPathChar, hnext⟩) hmask hlength
    rw [List.append_assoc, List.append_cancel_left_eq] at hrest'
    rw [hrest', hagain] at hrest
    cases hrest
  -- it may begin in the mask, because it may in the text
  have hfollow : Occurrence.mayFollow shown.getLast? = true := by
    cases hlast : shown.getLast? with
    | none => rfl
    | some m =>
      obtain ⟨shown, rfl⟩ := List.getLast?_eq_some_iff.mp hlast
      obtain ⟨front, c, rfl, hshorter⟩ := exists_concat_of_length hlength.symm
      have hcut : Hcl.mask (front ++ c :: (ref.text ++ rest)) =
          shown ++ m :: (ref.text ++ more) := by simpa using hmask
      rw [Occurrence.mayFollow, Option.any_some, Bool.not_eq_true']
      rcases Hcl.mask_char hcut hshorter.symm with rfl | hm
      · rwa [List.getLast?_concat] at hword
      · exact not_isWord_of_not_isPathChar hm
  rw [hmask, ← hlength, Occurrence.isTakenUp_append] at hfree
  rw [occurrences, hmask]
  refine Occurrence.mem_scan_append (Nat.zero_le _) hfree ?_
  rw [Option.or_none, Nat.zero_add, hlength]
  exact Occurrence.mem_scan_of_leadingReference? (by simp [hne]) hfollow
    (href.leadingReference?_append hend)

end Agreement

/-- The spans that the search reports for a reference. -/
def foundSpans (ref : Reference) (text : Text) : List (Nat × Nat) :=
  ((occurrences text).filter (·.reference = ref)).map fun occurrence =>
    (occurrence.start, occurrence.stop)

/-- Putting a value that is no quoted string in the place of a reference replaces exactly
the whole words, and changes nothing else. The search reports those of them that the mask
shows and that no path before them goes on over. -/
theorem substitute_wholeWords (ref : Reference) (href : ref.IsWellFormed)
    (value : Text) (hvalue : isQuotedString value = false) (text : Text) :
    substitute text ref.text value =
        replaceSpans value (wordSpans ref.text text) text ∧
      ∀ span, span ∈ foundSpans ref text ↔
        span ∈ wordSpans ref.text text ∧ ref.text.isPrefixOf ((Hcl.mask text).drop span.1) = true ∧
          Occurrence.isTakenUp (Hcl.mask text) span.1 = false := by
  have hne := ref.text_ne_nil
  refine ⟨substitute_eq_replaceSpans (Reference.isPath_dotted _ href) hne hvalue text,
    fun span => ⟨fun hspan => ?_, ?_⟩⟩
  · obtain ⟨occurrence, hmem, rfl⟩ := List.mem_map.mp hspan
    obtain ⟨hfound, hsame⟩ := List.mem_filter.mp hmem
    obtain rfl := of_decide_eq_true hsame
    obtain ⟨hword, hshown, hfree, hstop⟩ := isWholeWord_of_mem_occurrences hfound
    rw [hstop]
    exact ⟨List.mem_map.mpr ⟨_, (mem_wholeWords hne).mpr hword, rfl⟩, hshown, hfree⟩
  · rintro ⟨hspan, hshown, hfree⟩
    obtain ⟨start, hstart, rfl⟩ := List.mem_map.mp hspan
    have hfound := mem_occurrences_of_isWholeWord href ((mem_wholeWords hne).mp hstart) hshown hfree
    exact List.mem_map.mpr ⟨_, List.mem_filter.mpr ⟨hfound, by simp⟩, rfl⟩

/-- In a string, the reference is found in the interpolation only, and its literal text is
replaced too. -/
theorem substitute_wholeWords_string :
    (Reference.mk .input ["a".toList] (by decide)).IsWellFormed ∧
      isQuotedString "1".toList = false ∧
      substitute "\"$\x7bvar.a\x7d var.a\"".toList "var.a".toList "1".toList =
        replaceSpans "1".toList (wordSpans "var.a".toList "\"$\x7bvar.a\x7d var.a\"".toList)
          "\"$\x7bvar.a\x7d var.a\"".toList ∧
      wordSpans "var.a".toList "\"$\x7bvar.a\x7d var.a\"".toList = [(3, 8), (10, 15)] ∧
      (3, 8) ∈ foundSpans ⟨.input, ["a".toList], by decide⟩ "\"$\x7bvar.a\x7d var.a\"".toList := by
  have hagree := substitute_wholeWords ⟨.input, ["a".toList], by decide⟩ (by decide)
    "1".toList (by decide) "\"$\x7bvar.a\x7d var.a\"".toList
  have hspans :
      wordSpans "var.a".toList "\"$\x7bvar.a\x7d var.a\"".toList = [(3, 8), (10, 15)] := by
    decide +kernel
  exact ⟨by decide, by decide, hagree.1, hspans,
    (hagree.2 (3, 8)).mpr ⟨by decide +kernel, by decide +kernel, by decide +kernel⟩⟩

/-- The literal text of a string is replaced, although no reference is found there, and so
is the end of a longer path. -/
theorem substitute_ne_replace_foundSpans :
    (Reference.mk .input ["a".toList] (by decide)).IsWellFormed ∧
      isQuotedString "1".toList = false ∧
      (substitute "\"var.a\"".toList "var.a".toList "1".toList ≠
        replaceSpans "1".toList (foundSpans ⟨.input, ["a".toList], by decide⟩ "\"var.a\"".toList)
          "\"var.a\"".toList) ∧
      substitute "var.b-var.a".toList "var.a".toList "1".toList ≠
        replaceSpans "1".toList (foundSpans ⟨.input, ["a".toList], by decide⟩ "var.b-var.a".toList)
          "var.b-var.a".toList := by
  refine ⟨by decide, by decide, ?_, ?_⟩
  · decide +kernel
  · decide +kernel

end TerraformTrace
