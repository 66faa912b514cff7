import TerraformTrace.Hcl.Declaration
import TerraformTrace.Proofs.ValueFile

/-!
# TerraformTrace.Proofs.ConfigurationFile

Configuration files. A file is written from declarations: blocks with a keyword, quoted
labels and one assignment a line. **The look-ups recover the declarations**
(`declarations_recovered`), although blocks are found on the mask of the whole file and
their bodies are masked again, on their own.

Two facts carry the proof. Everything inside the braces of a block is closed, so the scan
for blocks either takes the block as a whole, if it has the keyword sought, or passes over
all of it (`scanBlocks_declaration`). And the body of a block reads like a file of its
lines (`pairs_body`).
-/

namespace TerraformTrace.Hcl

open Text

/-! ### Inputs

Arguments are put into a map one after the other. -/

namespace Inputs

/-- The value given to a name last. -/
def lastValue (pairs : List (Text × Text)) (name : Text) : Text :=
  (pairs.reverse.lookup name).getD []

/-- Every name once, where it first appears, with the value given to it last. -/
def lastValues (pairs : List (Text × Text)) : Inputs :=
  (pairs.map (·.1)).eraseDups.map fun name => (name, lastValue pairs name)

theorem nodup_eraseDups : (names : List Text) → names.eraseDups.Nodup
  | [] => List.nodup_nil
  | name :: names => by
      rw [List.eraseDups_cons, List.nodup_cons, List.mem_eraseDups]
      exact ⟨by simp, nodup_eraseDups _⟩
termination_by names => names.length
decreasing_by exact Nat.lt_succ_of_le (List.length_filter_le ..)

theorem put_of_not_mem {name : Text} {inputs : Inputs} (h : name ∉ inputs.map (·.1))
    (value : Text) : put name value inputs = inputs ++ [(name, value)] := by
  induction inputs with
  | nil => rfl
  | cons entry inputs ih =>
    simp only [List.map_cons, List.mem_cons, not_or] at h
    rw [put, if_neg (Ne.symm h.1), ih h.2, List.cons_append]

theorem put_of_mem {names : List Text} {name : Text} (hnodup : names.Nodup) (h : name ∈ names)
    (value : Text) (values : Text → Text) :
    put name value (names.map fun n => (n, values n)) =
      names.map fun n => (n, if n = name then value else values n) := by
  induction names with
  | nil => cases h
  | cons first names ih =>
    rw [List.nodup_cons] at hnodup
    rw [List.map_cons, List.map_cons, put]
    by_cases hfirst : first = name
    · subst hfirst
      rw [if_pos rfl, if_pos rfl]
      refine congrArg _ (List.map_congr_left fun n hn => ?_)
      have hne : n ≠ first := fun heq => hnodup.1 (heq ▸ hn)
      rw [if_neg hne]
    · have hrest : name ∈ names := (List.mem_cons.mp h).resolve_left (Ne.symm hfirst)
      rw [if_neg hfirst, if_neg hfirst, ih hnodup.2 hrest]

theorem lastValue_concat (pairs : List (Text × Text)) (name value other : Text) :
    lastValue (pairs ++ [(name, value)]) other =
      if other = name then value else lastValue pairs other := by
  by_cases h : other = name
  · simp [lastValue, h]
  · have hne : (other == name) = false := beq_eq_false_iff_ne.mpr h
    simp [lastValue, List.lookup_cons, h, hne]

theorem put_lastValues (pairs : List (Text × Text)) (name value : Text) :
    put name value (lastValues pairs) = lastValues (pairs ++ [(name, value)]) := by
  have hnames : (lastValues pairs).map (·.1) = (pairs.map (·.1)).eraseDups := by
    simp [lastValues, Function.comp_def]
  have hvalues : ∀ {n}, n ≠ name → lastValue (pairs ++ [(name, value)]) n = lastValue pairs n :=
    fun hn => (lastValue_concat ..).trans (if_neg hn)
  by_cases hmem : name ∈ pairs.map (·.1)
  · have hnone : [name].removeAll (pairs.map (·.1)) = [] := by simpa [List.removeAll] using hmem
    rw [lastValues, put_of_mem (nodup_eraseDups _) (List.mem_eraseDups.mpr hmem), lastValues,
      List.map_append, List.eraseDups_append, List.map_singleton, hnone]
    simp [lastValue_concat]
  · have hnew : [name].removeAll (pairs.map (·.1)) = [name] := by
      simpa [List.removeAll] using hmem
    rw [put_of_not_mem (by rwa [hnames, List.mem_eraseDups]), lastValues, lastValues,
      List.map_append, List.eraseDups_append, List.map_singleton, hnew]
    rw [List.map_append]
    congr 1
    · refine List.map_congr_left fun n hn => ?_
      rw [hvalues fun heq => hmem (heq ▸ List.mem_eraseDups.mp hn)]
    · simp [lastValue_concat, List.eraseDups_cons]

/-- Putting in pairs one after the other leaves the last value of every name. -/
theorem foldl_put (done pairs : List (Text × Text)) :
    pairs.foldl (fun inputs pair => put pair.1 pair.2 inputs) (lastValues done) =
      lastValues (done ++ pairs) := by
  induction pairs generalizing done with
  | nil => simp
  | cons pair pairs ih =>
    rw [List.foldl_cons, put_lastValues, ih, List.append_assoc, List.singleton_append]

end Inputs

/-! ### Declarations -/

/-- What a block can declare. -/
inductive Keyword
  | variable
  | output
  | locals
  | module
  | data
deriving DecidableEq

def Keyword.text : Keyword → Text
  | .variable => "variable".toList
  | .output => "output".toList
  | .locals => "locals".toList
  | .module => "module".toList
  | .data => "data".toList

theorem Keyword.exists_cons (keyword : Keyword) :
    ∃ c rest, keyword.text = c :: rest ∧ isIndent c = false := by
  cases keyword <;> exact ⟨_, _, rfl, by decide⟩

/-- A block as it is written. -/
inductive Declaration
  | variable (name : Identifier) (lines : List Line)
  | output (name : Identifier) (lines : List Line)
  | locals (lines : List Line)
  | module (name : Identifier) (lines : List Line)
  | data (type name : Identifier) (lines : List Line)

/-- A quoted label, after a space. -/
def labelText (label : Identifier) : Text := ' ' :: '"' :: (label.text ++ ['"'])

namespace Declaration

def keyword : Declaration → Keyword
  | .variable _ _ => .variable
  | .output _ _ => .output
  | .locals _ => .locals
  | .module _ _ => .module
  | .data _ _ _ => .data

def labels : Declaration → List Identifier
  | .variable name _ => [name]
  | .output name _ => [name]
  | .locals _ => []
  | .module name _ => [name]
  | .data type name _ => [type, name]

def lines : Declaration → List Line
  | .variable _ lines => lines
  | .output _ lines => lines
  | .locals lines => lines
  | .module _ lines => lines
  | .data _ _ lines => lines

/-- The block up to its opening brace. -/
def front (declaration : Declaration) : Text :=
  declaration.keyword.text ++ (declaration.labels.flatMap labelText ++ [' '])

/-- What stands between the braces: a line break and the lines. -/
def body (declaration : Declaration) : Text := '\n' :: linesText declaration.lines

def text (declaration : Declaration) : Text :=
  declaration.front ++ ('{' :: (declaration.body ++ ['}', '\n']))

end Declaration

/-- The text of a file of declarations. -/
def configurationText (declarations : List Declaration) : Text :=
  declarations.flatMap Declaration.text

/-! ### Headers are read -/

theorem label?_quoted (label : Identifier) (rest : Text) :
    label? ('"' :: (label.text ++ '"' :: rest)) = some (label.text, label.text.length + 2) := by
  have htake : (label.text ++ '"' :: rest).takeWhile (fun c => c ≠ '"' && c ≠ '\n') =
      label.text := by
    rw [List.takeWhile_append_of_pos, List.takeWhile_cons_of_neg (by decide), List.append_nil]
    intro c hc
    have hne : ∀ {d}, isPathChar d = false → c ≠ d := ne_of_isPathChar (label.isPathChar c hc)
    simp [hne (d := '"') (by decide), hne (d := '\n') (by decide)]
  simp only [label?, htake, List.drop_left, List.head?_cons, if_true]

theorem takeWhile_isGap_space {text : Text} (h : ∀ c ∈ text.head?, isGap c = false) :
    (' ' :: text).takeWhile isGap = [' '] := by
  have hspace : ∀ c ∈ [' '], isGap c = true := forall_of_all (by decide)
  exact takeWhile_append_of_head? hspace h

theorem labels_append (ids : List Identifier) {rounds : Nat} (h : ids.length ≤ rounds)
    (rest : Text) : labels rounds (ids.flatMap labelText ++ (' ' :: '{' :: rest)) =
      (ids.map (·.text), (ids.flatMap labelText).length) := by
  induction ids generalizing rounds with
  | nil =>
    cases rounds with
    | zero => rfl
    | succ rounds => rfl
  | cons id ids ih =>
    obtain ⟨rounds, rfl⟩ : ∃ n, rounds = n + 1 := ⟨rounds - 1, by simp at h; omega⟩
    let more := ids.flatMap labelText ++ (' ' :: '{' :: rest)
    have htext :
        (id :: ids).flatMap labelText ++ (' ' :: '{' :: rest) = labelText id ++ more := by
      rw [List.flatMap_cons, List.append_assoc]
    have hgap : (labelText id ++ more).takeWhile isGap = [' '] :=
      takeWhile_isGap_space (by simp; decide)
    have hlabel : label? ((labelText id ++ more).drop 1) =
        some (id.text, id.text.length + 2) := by
      show label? ('"' :: (id.text ++ ['"'] ++ more)) = _
      rw [List.append_assoc, List.singleton_append, label?_quoted]
    have hdrop : (labelText id ++ more).drop (1 + (id.text.length + 2)) = more :=
      List.drop_left' (by simp [labelText]; omega)
    simp only [htext, labels, hgap, List.length_singleton, hlabel, hdrop, more,
      ih (Nat.le_of_succ_le_succ h)]
    simp [labelText]
    omega

variable (declaration : Declaration)

/-- The header of a declaration, read under its own keyword. -/
theorem blockHeader?_self (rest : Text) :
    blockHeader? declaration.keyword.text (declaration.front ++ ('{' :: rest)) =
      some {
        labels := declaration.labels.map (·.text)
        length := declaration.front.length + 1 } := by
  have htext : declaration.front ++ ('{' :: rest) = declaration.keyword.text ++
      (declaration.labels.flatMap labelText ++ (' ' :: '{' :: rest)) := by
    simp [Declaration.front]
  have hprefix :
      declaration.keyword.text.isPrefixOf (declaration.front ++ ('{' :: rest)) = true := by
    rw [htext]
    exact List.isPrefixOf_iff_prefix.mpr (List.prefix_append ..)
  have hcount : declaration.labels.length ≤
      (declaration.labels.flatMap labelText ++ (' ' :: '{' :: rest)).length := by
    have htwo : declaration.labels.length ≤ 2 := by
      cases declaration <;> simp [Declaration.labels]
    simp only [List.length_append, List.length_cons]
    omega
  have hgap : (' ' :: '{' :: rest).takeWhile isGap = [' '] :=
    takeWhile_isGap_space (by simp; decide)
  have hbrace : (declaration.labels.flatMap labelText ++ (' ' :: '{' :: rest)).drop
      ((declaration.labels.flatMap labelText).length + 1) = '{' :: rest := by
    rw [List.drop_append]
    simp
  rw [blockHeader?, if_pos hprefix, htext, List.drop_left]
  simp only [labels_append _ hcount, List.drop_left, hgap, List.length_singleton, hbrace,
    List.head?_cons, if_true]
  simp [Declaration.front, Nat.add_assoc]

/-- No other declaration begins with the keyword. -/
theorem blockHeader?_other {declaration : Declaration} {keyword : Keyword}
    (h : declaration.keyword ≠ keyword) (rest : Text) :
    blockHeader? keyword.text (declaration.front ++ rest) = none := by
  have hprefix : keyword.text.isPrefixOf (declaration.front ++ rest) = false := by
    rw [Declaration.front, List.append_assoc]
    generalize declaration.labels.flatMap labelText ++ [' '] ++ rest = more
    revert h
    generalize declaration.keyword = other
    intro h
    cases keyword <;> cases other <;> first | rfl | exact absurd rfl h
  rw [blockHeader?, hprefix]
  rfl

/-! ### The mask of a declaration -/

theorem isClosed_line (line : Line) : IsClosed (fun _ => True) (line.text ++ ['\n']) := by
  obtain ⟨after, hending, hbreak⟩ := line.shows_ending
  have hclosed : IsClosed (fun _ => True) (line.ending ++ ['\n']) := by
    refine ⟨_, hending.append hbreak, .of_forall (List.forall_mem_append.mpr ⟨fun c hc => ?_, ?_⟩)⟩
    · obtain ⟨-, -, rfl⟩ := List.mem_map.mp hc
      decide
    · exact forall_of_all (by decide)
  have hcode : IsClosed (fun _ => True) line.code :=
    (isClosed_of_class (p := isPathChar) (forall_of_all (by decide)) line.name.isPathChar).append <|
      .append (.of_forall (forall_of_all (by decide))) (line.isClosed_right.mono fun _ _ => trivial)
  have hindent := isClosed_of_class (p := isIndent) (forall_of_all (by decide)) line.indent.all
  simpa [Line.text] using hindent.append (hcode.append hclosed)

theorem isClosed_linesText (lines : List Line) : IsClosed (fun _ => True) (linesText lines) := by
  induction lines with
  | nil => exact .nil
  | cons line lines ih =>
    have hlines := (isClosed_line line).append ih
    rwa [linesText, List.flatMap_cons]

theorem Declaration.isClosed_body : IsClosed (fun _ => True) declaration.body := by
  have hbreak : IsClosed (fun _ => True) ['\n'] := .of_forall (forall_of_all (by decide))
  exact hbreak.append (isClosed_linesText _)

/-- A mask character that neither opens nor closes anything nor ends a line. -/
def IsQuiet (m : Char) : Prop := isOpener m = false ∧ isCloser m = false ∧ m ≠ '\n'

instance (m : Char) : Decidable (IsQuiet m) := inferInstanceAs (Decidable (_ ∧ _ ∧ _))

theorem shows_labelText (label : Identifier) : ∃ shown, Mask.Shows [] (labelText label) shown [] ∧
    ∀ m ∈ shown, IsQuiet m := by
  have hlabel : Mask.Shows [.string] label.text (label.text.map fun _ => ' ') [.string] :=
    .of_forall _ fun c hc =>
      have hne : ∀ {d}, isPathChar d = false → c ≠ d := ne_of_isPathChar (label.isPathChar c hc)
      Mask.shows_stringChar (hne (by decide)) (hne (by decide)) (hne (by decide)) (hne (by decide))
  have hspace : Mask.Shows [] [' '] [' '] [] :=
    Mask.shows_code (by decide)
  refine ⟨_, hspace.append ((Mask.shows_openQuote rfl).append
    (hlabel.append (Mask.shows_closeQuote []))), fun m hm => ?_⟩
  simp only [List.cons_append, List.nil_append, List.mem_cons, List.mem_append, List.mem_map,
    List.not_mem_nil, or_false] at hm
  rcases hm with rfl | rfl | ⟨-, -, rfl⟩ | rfl <;> decide

theorem shows_labels (ids : List Identifier) :
    ∃ shown, Mask.Shows [] (ids.flatMap labelText) shown [] ∧ ∀ m ∈ shown, IsQuiet m := by
  induction ids with
  | nil => exact ⟨[], .nil [], nofun⟩
  | cons id ids ih =>
    obtain ⟨shown, hshows, hquiet⟩ := shows_labelText id
    obtain ⟨shown', hshows', hquiet'⟩ := ih
    exact ⟨shown ++ shown', hshows.append hshows', List.forall_mem_append.mpr ⟨hquiet, hquiet'⟩⟩

/-- The keyword of a declaration stands as it is in the mask, and nothing before the
opening brace counts as a bracket. -/
theorem Declaration.shows_front : ∃ shown,
    Mask.Shows [] declaration.front (declaration.keyword.text ++ shown) [] ∧
      ∀ m ∈ declaration.keyword.text ++ shown, IsQuiet m := by
  obtain ⟨shown, hshows, hquiet⟩ := shows_labels declaration.labels
  have hkeyword : ∀ c ∈ declaration.keyword.text, IsClosed.IsPlain c ∧ IsQuiet c := by
    cases declaration.keyword <;> exact forall_of_all (by decide)
  have hspace : Mask.Shows [] [' '] [' '] [] :=
    Mask.shows_code (by decide)
  refine ⟨shown ++ [' '], ?_, List.forall_mem_append.mpr ⟨fun c hc => (hkeyword c hc).2,
    List.forall_mem_append.mpr ⟨hquiet, forall_of_all (by decide)⟩⟩⟩
  exact (IsClosed.shows_of_forall fun c hc => (hkeyword c hc).1).append (hshows.append hspace)

/-! ### The scan for blocks -/

section Scan

variable (keyword : Text) {first shown : Text}

theorem scanBlocks_skip (hlength : shown.length = first.length) (depth : Nat) (fresh : Bool)
    (pos : Nat) (text mask : Text) :
    scanBlocks keyword first.length depth fresh pos (first ++ text) (shown ++ mask) =
      scanBlocks keyword 0 depth fresh (pos + first.length) text mask := by
  induction first generalizing shown pos with
  | nil =>
    rw [List.length_eq_zero_iff.mp hlength]
    rfl
  | cons c first ih =>
    obtain ⟨m, shown, rfl⟩ := List.exists_cons_of_length_eq_add_one hlength
    rw [List.cons_append, List.cons_append, List.length_cons, scanBlocks,
      ih (Nat.succ.inj hlength), Nat.add_right_comm, Nat.add_assoc]

theorem scanBlocks_open (pos : Nat) (text mask : Text) :
    scanBlocks keyword 0 0 false pos ('{' :: text) ('{' :: mask) =
      scanBlocks keyword 0 1 false (pos + 1) text mask := rfl

/-- A block may begin after a line break. -/
theorem scanBlocks_break (pos : Nat) (text mask : Text) :
    scanBlocks keyword 0 0 false pos ('\n' :: text) ('\n' :: mask) =
      scanBlocks keyword 0 0 true (pos + 1) text mask := rfl

/-- A block is taken with all its characters. -/
theorem scanBlocks_take {block : Block} {pos : Nat} {text mask : Text}
    (hlength : shown.length = first.length) (hhead : ∀ m ∈ shown.head?, isIndent m = false)
    (hne : first ≠ []) (hread : blockAt? keyword pos (first ++ text) (shown ++ mask) =
      some (block, first.length)) :
    scanBlocks keyword 0 0 true pos (first ++ text) (shown ++ mask) =
      block :: scanBlocks keyword 0 0 false (pos + first.length) text mask := by
  obtain ⟨c, first, rfl⟩ := List.exists_cons_of_ne_nil hne
  obtain ⟨m, shown, rfl⟩ := List.exists_cons_of_length_eq_add_one hlength
  have hm : isIndent m = false := hhead m rfl
  rw [List.cons_append, List.cons_append] at hread
  rw [List.cons_append, List.cons_append, scanBlocks, if_pos (by decide), if_neg (by simp [hm]),
    hread]
  simp only [List.length_cons, Nat.add_sub_cancel]
  rw [scanBlocks_skip keyword (Nat.succ.inj hlength), Nat.add_right_comm, Nat.add_assoc]

/-- What is no block is passed over up to the end of what is quiet. -/
theorem scanBlocks_pass {pos : Nat} {text mask : Text} (hlength : shown.length = first.length)
    (hhead : ∀ m ∈ shown.head?, isIndent m = false) (hne : first ≠ []) (h : ∀ m ∈ shown, IsQuiet m)
    (hread : blockAt? keyword pos (first ++ text) (shown ++ mask) = none) :
    scanBlocks keyword 0 0 true pos (first ++ text) (shown ++ mask) =
      scanBlocks keyword 0 0 false (pos + first.length) text mask := by
  rw [← (Balanced.of_forall h).scanBlocks hlength fun _ _ hm => hm]
  obtain ⟨c, first, rfl⟩ := List.exists_cons_of_ne_nil hne
  obtain ⟨m, shown, rfl⟩ := List.exists_cons_of_length_eq_add_one hlength
  have hm : isIndent m = false := hhead m rfl
  rw [List.cons_append, List.cons_append] at hread ⊢
  rw [scanBlocks, if_pos (by decide), if_neg (by simp [hm]), hread, scanBlocks,
    if_neg (by decide)]
  simp

end Scan

namespace Declaration

variable (declaration : Declaration) {shown inside : Text}

/-- The block without the line break after it. -/
def block : Text := declaration.front ++ ('{' :: (declaration.body ++ ['}']))

theorem blockAt?_self
    (hshown : (declaration.keyword.text ++ shown).length = declaration.front.length)
    (hinside : inside.length = declaration.body.length)
    (hbalanced : Balanced (fun _ => True) inside) (pos : Nat) (text mask : Text) :
    blockAt? declaration.keyword.text pos (declaration.block ++ text)
        (declaration.keyword.text ++ shown ++ ('{' :: (inside ++ ['}'])) ++ mask) =
      some ({ labels := declaration.labels.map (·.text), body := declaration.body,
              start := pos, stop := pos + declaration.block.length },
            declaration.block.length) := by
  have htext : declaration.block ++ text =
      declaration.front ++ ('{' :: (declaration.body ++ '}' :: text)) := by simp [block]
  have hmask : declaration.keyword.text ++ shown ++ ('{' :: (inside ++ ['}'])) ++ mask =
      declaration.keyword.text ++ shown ++ ('{' :: (inside ++ '}' :: mask)) := by simp
  -- the header is visible by its first character and its brace
  have hvisible : BlockHeader.isVisible
      { labels := declaration.labels.map (·.text), length := declaration.front.length + 1 }
      (declaration.front ++ ('{' :: (declaration.body ++ '}' :: text)))
      (declaration.keyword.text ++ shown ++ ('{' :: (inside ++ '}' :: mask))) = true := by
    have hbrace : (declaration.keyword.text ++ shown ++ ('{' :: (inside ++ '}' :: mask)))[
        declaration.front.length]? = some '{' := by
      rw [← hshown, List.getElem?_append_right (Nat.le_refl _), Nat.sub_self]
      rfl
    obtain ⟨c, rest, hkeyword, -⟩ := declaration.keyword.exists_cons
    rw [BlockHeader.isVisible, Nat.add_sub_cancel, hbrace]
    simp [front, hkeyword]
  have hclose : closingBrace? 0 (inside ++ '}' :: mask) = some inside.length := by
    rw [hbalanced.closingBrace?]
    simp [closingBrace?]
  have hcut : (declaration.front ++ ('{' :: (declaration.body ++ '}' :: text))).drop
      (declaration.front.length + 1) = declaration.body ++ '}' :: text := by
    rw [List.drop_append]
    simp
  have hcut' : (declaration.keyword.text ++ shown ++ ('{' :: (inside ++ '}' :: mask))).drop
      (declaration.front.length + 1) = inside ++ '}' :: mask := by
    rw [← hshown, List.drop_append]
    simp
  rw [htext, hmask, blockAt?, blockHeader?_self, Option.bind_some, if_pos hvisible]
  have hlength : declaration.front.length + 1 + declaration.body.length + 1 =
      declaration.block.length := by
    simp [block]
    omega
  simp only [hcut, hcut', hclose, hinside, List.take_left, hlength]

theorem blockAt?_other {keyword : Keyword} (h : declaration.keyword ≠ keyword)
    (pos : Nat) (text mask : Text) :
    blockAt? keyword.text pos (declaration.front ++ text) mask = none := by
  rw [blockAt?, blockHeader?_other h]
  rfl

/-- The labels and the body of a block. -/
def content : List Text × Text := (declaration.labels.map (·.text), declaration.body)

end Declaration

/-- The labels and bodies of blocks. -/
def contents (blocks : List Block) : List (List Text × Text) :=
  blocks.map fun block => (block.labels, block.body)

/-- The scan for the blocks of a keyword takes a declaration as a whole, or passes over all
of it. -/
theorem scanBlocks_declaration (keyword : Keyword) (declaration : Declaration) {s : Mask.State}
    (hs : s.StandsIn []) (pos : Nat) (rest : Text) : ∃ (s' : Mask.State) (next : Nat),
      s'.StandsIn [] ∧
      contents (scanBlocks keyword.text 0 0 true pos (declaration.text ++ rest)
          (Mask.run s (declaration.text ++ rest))) =
        (if declaration.keyword = keyword then [declaration.content] else []) ++
          contents (scanBlocks keyword.text 0 0 true next rest (Mask.run s' rest)) := by
  obtain ⟨shown, hfront, hquiet⟩ := declaration.shows_front
  obtain ⟨inside, hbody, hbalanced⟩ := declaration.isClosed_body
  have hblock : Mask.Shows [] declaration.block
      (declaration.keyword.text ++ shown ++ ('{' :: (inside ++ ['}']))) [] :=
    hfront.append (.cons (Mask.shows_code (by decide)) (hbody.append (Mask.shows_code (by decide))))
  obtain ⟨s₁, hs₁, hrun₁⟩ := hblock s hs
  obtain ⟨s₂, hs₂, hrun₂⟩ := Mask.shows_code (c := '\n') (by decide) s₁ hs₁
  have htext : declaration.text ++ rest = declaration.block ++ (['\n'] ++ rest) := by
    simp [Declaration.text, Declaration.block]
  rw [htext, hrun₁, hrun₂]
  obtain ⟨c, more, hkeyword, hindent⟩ := declaration.keyword.exists_cons
  by_cases hsame : declaration.keyword = keyword
  · subst hsame
    have hread := declaration.blockAt?_self hfront.length_eq hbody.length_eq hbalanced pos
      (['\n'] ++ rest) (['\n'] ++ Mask.run s₂ rest)
    rw [if_pos rfl, scanBlocks_take _ hblock.length_eq (by simpa [hkeyword] using hindent)
      (by simp [Declaration.block]) hread]
    exact ⟨s₂, _, hs₂, rfl⟩
  -- the header is no block of the keyword, and inside the braces none begins
  · have hread := declaration.blockAt?_other hsame pos
      ('{' :: (declaration.body ++ '}' :: '\n' :: rest))
      (declaration.keyword.text ++ shown ++ ('{' :: (inside ++ '}' :: '\n' :: Mask.run s₂ rest)))
    have hpass := scanBlocks_pass keyword.text hfront.length_eq (by simpa [hkeyword] using hindent)
      (by simp [Declaration.front]) hquiet hread
    have hclose : nextDepth 1 '}' = 0 := rfl
    have hdeep : (1 : Nat) ≠ 0 := Nat.one_ne_zero
    rw [scanBlocks_open, hbalanced.scanBlocks hbody.length_eq (absurd · hdeep),
      scanBlocks_cons (absurd · hdeep), hclose, scanBlocks_break] at hpass
    rw [if_neg hsame]
    simp only [Declaration.block, List.append_assoc, List.cons_append, List.nil_append] at hpass ⊢
    exact ⟨s₂, _, hs₂, congrArg contents hpass⟩

/-- The blocks of a keyword are its declarations. -/
theorem contents_blocks (keyword : Keyword) (declarations : List Declaration) :
    contents (blocks (configurationText declarations) keyword.text) =
      (declarations.filter (·.keyword = keyword)).map Declaration.content := by
  suffices h : ∀ {s : Mask.State} (pos : Nat), s.StandsIn [] →
      contents (scanBlocks keyword.text 0 0 true pos (configurationText declarations)
          (Mask.run s (configurationText declarations))) =
        (declarations.filter (·.keyword = keyword)).map Declaration.content from h 0 ⟨rfl, rfl⟩
  induction declarations with
  | nil => exact fun _ _ => rfl
  | cons declaration declarations ih =>
    intro s pos hs
    obtain ⟨s', next, hs', hscan⟩ := scanBlocks_declaration keyword declaration hs pos
      (configurationText declarations)
    rw [configurationText, List.flatMap_cons, ← configurationText, hscan, ih next hs',
      List.filter_cons]
    by_cases hsame : declaration.keyword = keyword <;> simp [hsame]

/-! ### Bodies are read -/

variable (declaration : Declaration) (declarations : List Declaration)

/-- The body of a block reads like a file of its lines. -/
theorem pairs_body : pairs (assignments declaration.body) = declaration.lines.map Line.pair := by
  obtain ⟨s₁, hs₁, hrun⟩ := Mask.shows_code (c := '\n') (by decide) .start ⟨rfl, rfl⟩
  obtain ⟨s₂, next, -, hlines⟩ := pairs_linesText false declaration.lines hs₁ 1 []
  rw [List.append_nil] at hlines
  have hmask : mask declaration.body = '\n' :: Mask.run s₁ (linesText declaration.lines) :=
    hrun (linesText declaration.lines)
  rw [assignments, hmask]
  refine Eq.trans ?_ (hlines.trans (List.append_nil _))
  rfl

/-- The text of the first literal that a declaration gives a name. -/
def Declaration.value? (declaration : Declaration) (name : Text) : Option Text :=
  (declaration.lines.find? (·.name.text = name)).map (·.value.text)

theorem assignedValue?_body (name : Text) :
    assignedValue? declaration.body name = declaration.value? name :=
  assignedValue?_eq false (pairs_body declaration) name

/-! ### Look-ups -/

/-- Whether a declaration has this keyword and these labels. -/
def Declaration.isHeaded (keyword : Keyword) (labels : List Text) (declaration : Declaration) :
    Bool :=
  declaration.keyword = keyword && declaration.labels.map (·.text) = labels

theorem isPrefixOf_eq_of_length {labels own : List Text} (h : own.length = labels.length) :
    labels.isPrefixOf own = decide (own = labels) := by
  rw [Bool.eq_iff_iff, List.isPrefixOf_iff_prefix, decide_eq_true_eq]
  refine ⟨fun hbegins => (hbegins.eq_of_length h.symm).symm, ?_⟩
  rintro rfl
  exact List.prefix_rfl

/-- Labels that are as many as the keyword takes lead to the declaration that has them. -/
theorem argument?_eq (keyword : Keyword) {labels : List Text}
    (hcount : ∀ declaration : Declaration, declaration.keyword = keyword →
      declaration.labels.length = labels.length) (field : Text) :
    argument? (configurationText declarations) keyword.text labels field =
      (declarations.find? (·.isHeaded keyword labels)).bind (·.value? field) := by
  have hbody : blockBody? (configurationText declarations) keyword.text labels =
      (declarations.find? (·.isHeaded keyword labels)).map (·.body) := by
    have hfind : blockBody? (configurationText declarations) keyword.text labels =
        ((contents (blocks (configurationText declarations) keyword.text)).find?
          fun content => labels.isPrefixOf content.1).map (·.2) := by
      rw [contents, List.find?_map, Option.map_map]
      rfl
    rw [hfind, contents_blocks, List.find?_map, Option.map_map, List.find?_filter]
    refine congrArg (Option.map _ ·) (congrArg (List.find? · _) (funext fun declaration => ?_))
    by_cases hkeyword : declaration.keyword = keyword
    · have hlength : (declaration.labels.map (·.text)).length = labels.length := by
        rw [List.length_map, hcount declaration hkeyword]
      simp [Declaration.isHeaded, Declaration.content, hkeyword, isPrefixOf_eq_of_length hlength]
    · simp [Declaration.isHeaded, hkeyword]
  rw [argument?, hbody, Option.bind_map]
  exact congrArg _ (funext fun declaration => assignedValue?_body declaration field)

theorem localValue?_eq (name : Text) :
    localValue? (configurationText declarations) name =
      (declarations.filter (·.keyword = .locals)).findSome? (·.value? name) := by
  have hfind : localValue? (configurationText declarations) name =
      (contents (blocks (configurationText declarations) Keyword.locals.text)).findSome?
        fun content => assignedValue? content.2 name := by
    rw [contents, List.findSome?_map]
    rfl
  rw [hfind, contents_blocks, List.findSome?_map]
  exact congrArg (List.findSome? · _)
    (funext fun declaration => assignedValue?_body declaration name)

/-! ### Module calls -/

/-- A literal without its quotes, if it has any. -/
def Term.bare : Term → Text
  | .quoted content => content.content
  | term => term.text

theorem IsTrimmed.strip {text : Text} (h : IsTrimmed text) : Text.strip text = text := by
  have hleft : stripLeft text = text := by
    obtain ⟨c, rest, rfl, hc, -⟩ := h.first
    exact List.dropWhile_cons_of_neg (by simp [hc])
  have hright : stripRight (text ++ []) = text := stripRight_append h nofun
  rw [List.append_nil] at hright
  rw [Text.strip, hleft, hright]

theorem unquote_of_head?_ne {text : Text} (h : IsTrimmed text) (hhead : text.head? ≠ some '"') :
    unquote text = text := by
  rw [unquote, h.strip]
  exact if_neg (by simp [hhead])

theorem head?_ne_of_class {p : Char → Bool} {c : Char} {text : Text} (hc : p c = false)
    (h : ∀ d ∈ text, p d = true) : text.head? ≠ some c := fun hhead =>
  absurd (h c (List.mem_of_head? hhead)) (by simp [hc])

theorem Quoted.unquote_text (quoted : Quoted) (h : IsTrimmed quoted.text) :
    unquote quoted.text = quoted.content := by
  rw [unquote, h.strip]
  have hlast : quoted.text.getLast? = some '"' := by
    rw [Quoted.text, ← List.cons_append, List.getLast?_concat]
  rw [hlast, if_pos (by simp [Quoted.text])]
  simp [Quoted.text, inner]

theorem Term.unquote_text (term : Term) : unquote term.text = term.bare := by
  have htrimmed := term.isTrimmed
  cases term with
  | number text hnumber =>
    exact unquote_of_head?_ne htrimmed
      (head?_ne_of_class (by decide) (isNumberChar_of_numeral? hnumber).2)
  | boolean value => cases value <;> exact unquote_of_head?_ne htrimmed (by decide)
  | null => exact unquote_of_head?_ne htrimmed (by decide)
  | reference ref href =>
    exact unquote_of_head?_ne htrimmed (head?_ne_of_class (by decide) href.isPathChar)
  | quoted content => exact content.unquote_text htrimmed
  | list items => exact unquote_of_head?_ne htrimmed (by simp [Term.text])
  | object fields => exact unquote_of_head?_ne htrimmed (by simp [Term.text])

/-- The arguments of a block with these lines: the last literal of every name but the
source, in the order in which the names appear. -/
def lineInputs (lines : List Line) : Inputs :=
  Inputs.lastValues ((lines.filter (·.name.text ≠ "source".toList)).map Line.pair)

theorem moduleInputs_body : moduleInputs declaration.body = lineInputs declaration.lines := by
  have hfold : moduleInputs declaration.body =
      ((pairs (assignments declaration.body)).filter (·.1 ≠ "source".toList)).foldl
        (fun inputs pair => Inputs.put pair.1 pair.2 inputs) (Inputs.lastValues []) := by
    rw [pairs, List.filter_map, List.foldl_map]
    rfl
  rw [hfold, pairs_body, Inputs.foldl_put, List.nil_append, List.filter_map]
  rfl

/-- The call that a module block with a source makes. -/
def Declaration.call? (dir : Path) : Declaration → Option ModuleCall
  | .module name lines =>
    (lines.find? (·.name.text = "source".toList)).map fun line =>
      { name := name.text, source := line.value.bare, inputs := lineInputs lines, directory := dir }
  | _ => none

theorem moduleCalls_eq (dir : Path) :
    moduleCalls (configurationText declarations) dir = declarations.filterMap (·.call? dir) := by
  -- a call is read off the labels and the body of its block
  have hcalls : moduleCalls (configurationText declarations) dir =
      (contents (blocks (configurationText declarations) Keyword.module.text)).filterMap
        fun content => Block.moduleCall? ⟨content.1, content.2, 0, 0⟩ dir := by
    rw [contents, List.filterMap_map]
    rfl
  rw [hcalls, contents_blocks, List.filterMap_map, List.filterMap_filter]
  refine congrArg (List.filterMap · declarations) (funext fun declaration => ?_)
  cases declaration with
  | module name lines =>
    have hsource := assignedValue?_body (.module name lines) "source".toList
    simp only [Declaration.keyword, decide_true, if_true, Function.comp, Declaration.content,
      Declaration.labels, List.map_cons, List.map_nil, Block.moduleCall?, hsource,
      Declaration.value?, moduleInputs_body, Option.map_map, Declaration.call?, Term.unquote_text,
      Declaration.lines, Function.comp_def]
  | _ => rfl

/-- The look-ups recover the declarations that a file was written from: the value in the
first block with the labels, the first entry over all blocks of local values, and the
module calls in order, each with its source and the last value of every other argument.
What was not declared is not found. -/
theorem declarations_recovered (declarations : List Declaration) (dir : Path) :
    (∀ name, variableDefault? (configurationText declarations) name =
        (declarations.find? (·.isHeaded .variable [name])).bind (·.value? "default".toList)) ∧
      (∀ name, outputValue? (configurationText declarations) name =
        (declarations.find? (·.isHeaded .output [name])).bind (·.value? "value".toList)) ∧
      (∀ type name field, dataArgument? (configurationText declarations) type name field =
        (declarations.find? (·.isHeaded .data [type, name])).bind (·.value? field)) ∧
      (∀ name, localValue? (configurationText declarations) name =
        (declarations.filter (·.keyword = .locals)).findSome? (·.value? name)) ∧
      moduleCalls (configurationText declarations) dir = declarations.filterMap (·.call? dir) := by
  refine ⟨fun name => ?_, fun name => ?_, fun type name field => ?_, localValue?_eq declarations,
    moduleCalls_eq declarations dir⟩
  · exact argument?_eq declarations .variable (by rintro ⟨⟩ ⟨⟩; rfl) _
  · exact argument?_eq declarations .output (by rintro ⟨⟩ ⟨⟩; rfl) _
  · exact argument?_eq declarations .data (by rintro ⟨⟩ ⟨⟩; rfl) field

end TerraformTrace.Hcl
