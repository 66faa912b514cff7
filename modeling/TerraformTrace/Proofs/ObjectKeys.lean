import TerraformTrace.Proofs.JsonRoundTrip
import TerraformTrace.Proofs.MaskPath
import TerraformTrace.Proofs.ObjectScan

/-!
# TerraformTrace.Proofs.ObjectKeys

Which fields of a JSON object are kept when its text is read as a configuration literal. The
syntax of JSON is nearly a part of that of literals, and a JSON object is read without complaint.
But fields that the scan of assignments does not find are lost: **the keys of what is read are
those of the legible members** (`read_keeps_legible`), and reading fails only if no member at all
is legible or if the value of a legible one cannot be read.

All this is for objects whose strings are closed. An interpolation that a string opens and does
not close makes the value go on behind the string, and takes other members with it.
-/

namespace TerraformTrace

open Text Hcl

variable {text literal : Text} {members : List Member}

/-! ### Blanks at both ends -/

namespace Text

theorem stripLeft_of_head? (h : ∀ c ∈ text.head?, isBlank c = false) : stripLeft text = text := by
  cases text with
  | nil => rfl
  | cons c rest => exact List.dropWhile_cons_of_neg (by simp [h c rfl])

theorem head?_strip (text : Text) : ∀ c ∈ (strip text).head?, isBlank c = false := by
  intro c hc
  have hstart : strip text <+: stripLeft text := by
    rw [strip, stripRight, dropRightWhile, ← List.reverse_suffix, List.reverse_reverse]
    exact List.dropWhile_suffix _
  obtain ⟨rest, hrest⟩ := hstart
  refine not_of_head?_dropWhile (?_ : (text.dropWhile isBlank).head? = some c)
  rw [← stripLeft, ← hrest, List.head?_append, hc]
  rfl

/-- Blanks are cut off once and for all. -/
theorem strip_strip (text : Text) : strip (strip text) = strip text := by
  have hright : stripRight (strip text) = strip text := by
    have hdrop (text : Text) :
        (text.dropWhile isBlank).dropWhile isBlank = text.dropWhile isBlank :=
      stripLeft_of_head? fun _ hc => not_of_head?_dropWhile hc
    simp only [strip, stripRight, dropRightWhile, List.reverse_reverse, hdrop]
  rw [strip, stripLeft_of_head? (head?_strip text), hright]

end Text

/-! ### Literals are read field by field -/

namespace Literal

theorem read_eq (text : Text) : read text =
    if isBetween '{' '}' (strip text) = true then
      if (assignments (inner (strip text)) true).isEmpty &&
          !(strip (inner (strip text))).isEmpty then
        .error (.noFields (strip text))
      else
        ((pairs (assignments (inner (strip text)) true)).mapM readField).map
          fun fields => .object (Json.collect fields)
    else if isBetween '[' ']' (strip text) = true then
      ((items (inner (strip text))).mapM read).map .array
    else scalar (strip text) := by
  rw [read]
  split
  next =>
    rw [pairs, List.mapM_map]
    simp only [List.mapM_subtype, List.unattach_attach]
    rfl
  next =>
    split
    next =>
      simp only [List.mapM_subtype, List.unattach_attach]
      rfl
    next => rfl

/-- Blanks around a literal do not count. -/
theorem read_strip (text : Text) : read (strip text) = read text := by
  rw [read_eq, read_eq text, strip_strip]

theorem mapM_readings (found : List Assignment) :
    (pairs found).mapM readField = (Json.readings found).mapM readField := by
  rw [pairs, Json.readings, List.mapM_map, List.mapM_map]
  refine congrArg (found.mapM ·) (funext fun assignment => ?_)
  simp only [Function.comp, readField, read_strip]

/-- The keys are those of the fields, whatever their values are. -/
theorem keys_of_mapM {texts : List (Text × Text)} {fields : List (Runes × Json)}
    (h : texts.mapM readField = .ok fields) :
    fields.map (·.1) = texts.map fun field => Runes.ofText field.1 := by
  induction texts generalizing fields with
  | nil =>
    cases h
    rfl
  | cons text texts ih =>
    rw [List.mapM_cons] at h
    obtain ⟨first, hfirst, h⟩ := Direct.bind_ok h
    obtain ⟨more, hmore, h⟩ := Direct.bind_ok h
    obtain ⟨value, -, hvalue⟩ := Direct.bind_ok hfirst
    cases h
    cases hvalue
    rw [List.map_cons, List.map_cons, ih hmore]

theorem exists_mapM_iff {texts : List (Text × Text)} :
    (∃ fields, texts.mapM readField = .ok fields) ↔
      ∀ field ∈ texts, ∃ value, read field.2 = .ok value := by
  induction texts with
  | nil => exact ⟨fun _ => nofun, fun _ => ⟨[], rfl⟩⟩
  | cons text texts ih =>
    rw [List.forall_mem_cons, ← ih, List.mapM_cons]
    constructor
    · rintro ⟨fields, h⟩
      obtain ⟨first, hfirst, h⟩ := Direct.bind_ok h
      obtain ⟨more, hmore, -⟩ := Direct.bind_ok h
      obtain ⟨value, hvalue, -⟩ := Direct.bind_ok hfirst
      exact ⟨⟨value, hvalue⟩, more, hmore⟩
    · rintro ⟨⟨value, hvalue⟩, more, hmore⟩
      exact ⟨(Runes.ofText text.1, value) :: more, by rw [readField, hvalue, hmore]; rfl⟩

end Literal

/-! ### Members and keys -/

namespace Json

/-- The members of an object. -/
inductive HasMembers : Text → List Member → Prop
  | none {space : Text} (hspace : IsSpace space) : HasMembers ('{' :: (space ++ ['}'])) []
  | some {members : List Member} (hne : members ≠ [])
      (hvalues : ∀ member ∈ members, Spells member.item.literal member.item.value) :
      HasMembers ('{' :: (join [','] (members.map Member.text) ++ ['}'])) members

/-- What is read as an object has members, which make its fields. -/
theorem exists_hasMembers {fields : List (Runes × Json)} (h : read text = .ok (.object fields)) :
    ∃ members, HasMembers (strip text) members ∧ fields = fieldsOf members ∧
      strings (strip text) = strings text := by
  obtain ⟨before, literal, after, hbefore, hafter, rfl, hliteral⟩ := spells_of_read h
  have hstrip : strip (before ++ (literal ++ after)) = literal :=
    strip_between (fun c hc => isLayout_of_isSpace (hbefore c hc)) hliteral.isTrimmed
      fun c hc => isLayout_of_isSpace (hafter c hc)
  have hkept : strings literal = strings (before ++ (literal ++ after)) := by
    have hafter := strings_of_isSpace hafter []
    rw [List.append_nil] at hafter
    rw [strings_of_isSpace hbefore, hliteral.isClosedByStrings.isWhole, hafter]
    exact (List.append_nil _).symm
  rw [hstrip]
  generalize hvalue : Json.object fields = value at hliteral
  cases hliteral with
  | word hword =>
    subst hvalue
    simp [words] at hword
  | number hnumber =>
    subst hvalue
    obtain ⟨-, -, -, -, hvalue⟩ := hnumber
    unfold numberValue integer at hvalue
    split at hvalue
    next => split at hvalue <;> cases hvalue
    next => cases hvalue
  | string => cases hvalue
  | emptyArray => cases hvalue
  | array => cases hvalue
  | emptyObject hspace =>
    cases hvalue
    exact ⟨[], .none hspace, rfl, hkept⟩
  | object hne hvalues =>
    cases hvalue
    exact ⟨_, .some hne hvalues, rfl, hkept⟩

theorem mem_keys_collect {pairs : List (Runes × Json)} {key : Runes} :
    key ∈ (collect pairs).map (·.1) ↔ key ∈ pairs.map (·.1) := by
  suffices hfold : ∀ fields : List (Runes × Json),
      key ∈ (pairs.foldl (fun fields pair => put pair.1 pair.2 fields) fields).map (·.1) ↔
        key ∈ pairs.map (·.1) ∨ key ∈ fields.map (·.1) by
    exact (hfold []).trans (by simp)
  induction pairs with
  | nil => simp
  | cons pair pairs ih =>
    intro fields
    rw [List.foldl_cons, ih, mem_keys_put, List.map_cons, List.mem_cons, or_left_comm, or_assoc]

theorem mem_keys_fieldsOf {key : Runes} :
    key ∈ (fieldsOf members).map (·.1) ↔ ∃ member ∈ members, member.key = key := by
  rw [fieldsOf, mem_keys_collect, List.map_map, List.mem_map]
  rfl

/-- A string without escapes spells itself. -/
theorem SpellsRunes.eq_ofText {body : Text} {value : Runes} (h : SpellsRunes body value)
    (hescape : '\\' ∉ body) : value = Runes.ofText body := by
  induction h with
  | nil => rfl
  | cons hfirst _ ih =>
    rw [List.mem_append, not_or] at hescape
    rw [ih hescape.2]
    cases hfirst with
    | plain => rfl
    | _ => exact absurd List.mem_cons_self hescape.1

theorem Member.key_eq {member : Member} (h : member.isLegible = true) :
    Runes.ofText member.spelled = member.key := by
  simp only [isLegible, Bool.and_eq_true] at h
  exact (member.spellsRunes.eq_ofText (not_mem_of_isName (by decide) (by decide) h.1)).symm

/-- The members are closed if the strings of the object are. -/
theorem HasMembers.isClosed (h : HasMembers literal members)
    (hstrings : ∀ string ∈ strings literal, Hcl.IsClosed (endsValue · = false) string) :
    ∀ member ∈ members, member.IsClosed := by
  cases h with
  | none => exact nofun
  | some _ hvalues =>
    have hparts : ∀ member ∈ members, IsClosedByStrings (fun _ => True) member.text :=
      fun member hmember => Member.isClosedByStrings (hvalues member hmember).isClosedByStrings
    have hpieces : ∀ piece ∈ members.map Member.text,
        IsClosedByStrings (fun _ => True) piece := by
      intro piece hpiece
      obtain ⟨member, hmember, rfl⟩ := List.mem_map.mp hpiece
      exact hparts member hmember
    rw [(IsClosedByStrings.join hpieces).isWhole.strings_group .brace,
      strings_join fun piece hpiece => (hpieces piece hpiece).isWhole] at hstrings
    intro member hmember
    have hvalue := (hvalues member hmember).isClosedByStrings
    have hmem : ∀ string ∈ strings member.text, Hcl.IsClosed (endsValue · = false) string :=
      fun string hstring => hstrings string
        (List.mem_flatMap.mpr ⟨member.text, List.mem_map_of_mem hmember, hstring⟩)
    rw [Member.strings_text hvalue.isWhole, List.forall_mem_append] at hmem
    exact ⟨hvalues member hmember, (IsClosedByStrings.string member.spellsRunes).isClosed hmem.1,
      hvalue.isClosed hmem.2⟩

end Json

namespace Literal

open Json

theorem read_braces (body : Text) :
    read ('{' :: (body ++ ['}'])) =
      if strip body ≠ [] ∧ readings (assignments body true) = [] then
        .error (.noFields ('{' :: (body ++ ['}'])))
      else
        ((readings (assignments body true)).mapM readField).map
          fun fields => .object (collect fields) := by
  have htrimmed : IsTrimmed ('{' :: (body ++ ['}'])) := .between (by decide) body
  rw [read_eq, htrimmed.strip, isBetween_self, inner_between, mapM_readings, if_pos rfl]
  refine if_congr ?_ rfl rfl
  rw [Bool.and_eq_true, Bool.not_eq_true', ← Bool.not_eq_true, List.isEmpty_iff, List.isEmpty_iff,
    readings, List.map_eq_nil_iff, and_comm]

/-- An object is read from its legible members. -/
theorem read_members (h : HasMembers literal members)
    (hclosed : ∀ member ∈ members, member.IsClosed) :
    read literal =
      if members ≠ [] ∧ legibleTexts members = [] then .error (.noFields literal)
      else ((legibleTexts members).mapM readField).map fun fields => .object (collect fields) := by
  cases h with
  | @none space hspace =>
    have hlayout : ∀ c ∈ space, isLayout c = true := fun c hc => isLayout_of_isSpace (hspace c hc)
    have hstrip : strip space = [] := by
      have hleft : stripLeft space = [] := List.dropWhile_eq_nil_iff.mpr hspace.isBlank
      rw [strip, hleft]
      rfl
    have hreadings : readings (assignments space true) = legibleTexts [] := by
      obtain ⟨s, -, hrun⟩ := (shows_layout hlayout) Mask.State.start ⟨rfl, rfl⟩
      have hmask : mask space = space := by simpa [Mask.run, mask] using hrun []
      have hscan := scanAssignments_layout hlayout 0 [] []
      rw [List.append_nil] at hscan
      rw [assignments, hmask, hscan]
      rfl
    rw [read_braces, hreadings]
    exact if_congr (and_congr_left' (iff_of_false (· hstrip) (· rfl))) rfl rfl
  | some hne hvalues =>
    have hreadings := readings_members hclosed (s := Mask.State.start) ⟨rfl, rfl⟩ 0
    -- members that are not found still count as text
    have hstrip : strip (join [','] (members.map Member.text)) ≠ [] := by
      obtain ⟨member, more, rfl⟩ := List.exists_cons_of_ne_nil hne
      have hquote : '"' ∈ join [','] ((member :: more).map Member.text) := by
        rw [List.map_cons, join_cons]
        simp [Member.text]
      exact List.ne_nil_of_mem (Heredoc.mem_strip (by decide) hquote)
    have hscan : readings (assignments (join [','] (members.map Member.text)) true) =
        legibleTexts members := hreadings
    rw [read_braces, hscan]
    exact if_congr (and_congr_left' (iff_of_true hstrip hne)) rfl rfl

theorem legibleTexts_eq_nil_iff :
    legibleTexts members = [] ↔ ¬∃ member ∈ members, member.isLegible = true := by
  simp [legibleTexts]

/-- Reading fails only at a legible member, or for want of one. -/
theorem exists_read_iff (h : HasMembers literal members)
    (hclosed : ∀ member ∈ members, member.IsClosed) :
    (∃ value, read literal = .ok value) ↔
      (members = [] ∨ ∃ member ∈ members, member.isLegible = true) ∧
        ∀ member ∈ members, member.isLegible = true →
          ∃ value, read member.valueText = .ok value := by
  have hvalues : (∃ fields, (legibleTexts members).mapM readField = .ok fields) ↔
      ∀ member ∈ members, member.isLegible = true → ∃ value, read member.valueText = .ok value := by
    rw [exists_mapM_iff, legibleTexts, List.forall_mem_map]
    simp [List.mem_filter]
  rw [read_members h hclosed, ← hvalues]
  by_cases hnone : members ≠ [] ∧ legibleTexts members = []
  · rw [if_pos hnone]
    refine iff_of_false ?_ fun h => h.1.elim hnone.1 (legibleTexts_eq_nil_iff.mp hnone.2)
    rintro ⟨value, hvalue⟩
    cases hvalue
  · have hsome : members = [] ∨ ∃ member ∈ members, member.isLegible = true := by
      rw [legibleTexts_eq_nil_iff, not_and_or, not_not, not_not] at hnone
      exact hnone
    rw [if_neg hnone, and_iff_right hsome]
    cases (legibleTexts members).mapM readField with
    | error error =>
      constructor
      · rintro ⟨value, hvalue⟩
        cases hvalue
      · rintro ⟨fields, hfields⟩
        cases hfields
    | ok fields => exact iff_of_true ⟨_, rfl⟩ ⟨_, rfl⟩

/-- What is read has the keys of the legible members. -/
theorem keys_of_read (h : HasMembers literal members)
    (hclosed : ∀ member ∈ members, member.IsClosed) {value : Json}
    (hvalue : read literal = .ok value) :
    ∃ kept, value = .object kept ∧ ∀ key, key ∈ kept.map (·.1) ↔
      ∃ member ∈ members, member.isLegible = true ∧ member.key = key := by
  rw [read_members h hclosed] at hvalue
  split at hvalue
  next => cases hvalue
  next =>
    cases hfields : (legibleTexts members).mapM readField with
    | error error =>
      rw [hfields] at hvalue
      cases hvalue
    | ok fields =>
      rw [hfields] at hvalue
      cases hvalue
      refine ⟨collect fields, rfl, fun key => ?_⟩
      rw [mem_keys_collect, keys_of_mapM hfields, legibleTexts, List.map_map, List.mem_map]
      simp only [List.mem_filter, Function.comp_apply]
      constructor
      · rintro ⟨member, ⟨hmember, hlegible⟩, rfl⟩
        exact ⟨member, hmember, hlegible, (Member.key_eq hlegible).symm⟩
      · rintro ⟨member, hmember, hlegible, rfl⟩
        exact ⟨member, ⟨hmember, hlegible⟩, Member.key_eq hlegible⟩

/-- **The fields that are kept are those of the legible members.** If all members are legible, no
field is lost, and otherwise those that are not legible are lost without an error. -/
theorem read_keeps_legible {text : Text} {fields : List (Runes × Json)}
    (h : Json.read text = .ok (.object fields))
    (hstrings : ∀ string ∈ strings text, Hcl.IsClosed (endsValue · = false) string) :
    (∃ members, HasMembers (strip text) members ∧ fields = fieldsOf members) ∧
    ∀ members, HasMembers (strip text) members →
      ((∃ value, read text = .ok value) ↔
        (members = [] ∨ ∃ member ∈ members, member.isLegible = true) ∧
          ∀ member ∈ members, member.isLegible = true →
            ∃ value, read member.valueText = .ok value) ∧
      ∀ value, read text = .ok value → ∃ kept, value = .object kept ∧
        (∀ key, key ∈ kept.map (·.1) ↔
          ∃ member ∈ members, member.isLegible = true ∧ member.key = key) ∧
        (fields = fieldsOf members → (∀ member ∈ members, member.isLegible = true) →
          ∀ key, key ∈ kept.map (·.1) ↔ key ∈ fields.map (·.1)) := by
  obtain ⟨members, hmembers, hfields, hkept⟩ := exists_hasMembers h
  refine ⟨⟨members, hmembers, hfields⟩, fun members hmembers => ?_⟩
  rw [← hkept] at hstrings
  have hclosed := hmembers.isClosed hstrings
  rw [← read_strip text]
  refine ⟨exists_read_iff hmembers hclosed, fun value hvalue => ?_⟩
  obtain ⟨kept, rfl, hkeys⟩ := keys_of_read hmembers hclosed hvalue
  refine ⟨kept, rfl, hkeys, fun hfields hall key => ?_⟩
  rw [hkeys, hfields, mem_keys_fieldsOf]
  exact ⟨fun ⟨member, hmember, _, hkey⟩ => ⟨member, hmember, hkey⟩,
    fun ⟨member, hmember, hkey⟩ => ⟨member, hmember, hall member hmember, hkey⟩⟩

/-- A document with an interpolation, and with a key that is no name. -/
def serverDocument : Text :=
  "\x7b\"name\": \"$\x7bvar.env\x7d-1\", \"a b\": 1, \"size\": [1, 2]\x7d".toList

def serverFields : List (Runes × Json) :=
  [(Runes.ofText "name".toList, .ofText "$\x7bvar.env\x7d-1".toList),
    (Runes.ofText "a b".toList, .int 1), (Runes.ofText "size".toList, .array [.int 1, .int 2])]

theorem read_serverDocument : Json.read serverDocument = .ok (.object serverFields) := by
  have htext : serverDocument = Json.write (.object serverFields) := by decide +kernel
  rw [htext]
  refine Json.read_writeAt isLaidOut_compact (.object (by decide) (by decide) ?_) 0
  simp only [serverFields, List.forall_mem_cons]
  exact ⟨.string (by decide), .int (by decide +kernel),
    .array (List.forall_mem_cons.mpr ⟨.int (by decide +kernel),
      List.forall_mem_singleton.mpr (.int (by decide +kernel))⟩), nofun⟩

theorem isClosed_of_closesString (h : ClosesString text) :
    Hcl.IsClosed (endsValue · = false) ('"' :: text) := by
  obtain ⟨shown, hshows, hbalanced, -⟩ := h.isUncommented
  exact ⟨shown, hshows, hbalanced⟩

theorem isClosed_serverDocument :
    ∀ string ∈ strings serverDocument, Hcl.IsClosed (endsValue · = false) string := by
  have hstrings : strings serverDocument = ["\"name\"".toList, "\"$\x7bvar.env\x7d-1\"".toList,
      "\"a b\"".toList, "\"size\"".toList] := by decide +kernel
  have hquote : ClosesString ['"'] := ⟨['"'], Mask.shows_closeQuote [], by simp⟩
  rw [hstrings]
  simp only [List.forall_mem_cons]
  refine ⟨isClosed_of_closesString (hquote.chars "name".toList (forall_of_all (by decide))),
    isClosed_of_closesString (?_ : ClosesString (['$', '{'] ++ ("var.env".toList ++ ['}']) ++
      ("-1".toList ++ ['"']))),
    isClosed_of_closesString (hquote.chars "a b".toList (forall_of_all (by decide))),
    isClosed_of_closesString (hquote.chars "size".toList (forall_of_all (by decide))), nofun⟩
  exact (hquote.chars "-1".toList (forall_of_all (by decide))).interpolation
    (forall_of_all (by decide))

theorem exists_read_serverDocument : ∃ value, read serverDocument = .ok value := by
  have hpairs : pairs (assignments (inner serverDocument) true) =
      [("name".toList, "\"$\x7bvar.env\x7d-1\"".toList), ("size".toList, "[1, 2]".toList)] := by
    decide +kernel
  have hname : read "\"$\x7bvar.env\x7d-1\"".toList =
      .ok (.ofText "$\x7bvar.env\x7d-1".toList) := by
    have htrimmed : IsTrimmed "\"$\x7bvar.env\x7d-1\"".toList :=
      .between (by decide) "$\x7bvar.env\x7d-1".toList
    have hjoined : (Runes.ofText "$\x7bvar.env\x7d-1".toList).IsJoined := by decide
    rw [read_scalar htrimmed (by decide) (by decide)]
    exact scalar_writeString hjoined
  have hsize : read "[1, 2]".toList = .ok (.array [.int 1, .int 2]) := by
    have hliteral : IsLiteral (.array [.int 1, .int 2]) :=
      .array (List.forall_mem_cons.mpr ⟨.int (by decide +kernel),
        List.forall_mem_singleton.mpr (.int (by decide +kernel))⟩)
    exact read_writeAt isLaidOut_compact hliteral 0
  have htext : serverDocument = '{' :: (inner serverDocument ++ ['}']) := by decide
  have hfields : [("name".toList, "\"$\x7bvar.env\x7d-1\"".toList),
      ("size".toList, "[1, 2]".toList)].mapM readField =
        .ok [(Runes.ofText "name".toList, .ofText "$\x7bvar.env\x7d-1".toList),
          (Runes.ofText "size".toList, .array [.int 1, .int 2])] := by
    rw [List.mapM_cons, List.mapM_cons, List.mapM_nil, readField, hname, readField, hsize]
    rfl
  rw [htext]
  exact ⟨_, read_object hpairs (.inl (List.cons_ne_nil _ _)) hfields (by decide)⟩

/-- The document is read, and the key with a blank is not kept. -/
theorem read_keeps_server :
    Json.read serverDocument = .ok (.object serverFields) ∧
    (∀ string ∈ strings serverDocument, Hcl.IsClosed (endsValue · = false) string) ∧
    ∃ members, HasMembers (strip serverDocument) members ∧ serverFields = fieldsOf members ∧
      ∃ kept, read serverDocument = .ok (.object kept) ∧
        ∀ key, key ∈ kept.map (·.1) ↔
          ∃ member ∈ members, member.isLegible = true ∧ member.key = key := by
  refine ⟨read_serverDocument, isClosed_serverDocument, ?_⟩
  obtain ⟨⟨members, hmembers, hfields⟩, hall⟩ :=
    read_keeps_legible read_serverDocument isClosed_serverDocument
  obtain ⟨value, hvalue⟩ := exists_read_serverDocument
  obtain ⟨kept, rfl, hkeys, -⟩ := (hall members hmembers).2 value hvalue
  exact ⟨members, hmembers, hfields, kept, hvalue, hkeys⟩

theorem read_field {body name : Text} {value : Json}
    (hpairs : pairs (assignments body true) = [(name, text)]) (hvalue : read text = .ok value) :
    read ('{' :: (body ++ ['}'])) = .ok (.object [(Runes.ofText name, value)]) := by
  refine read_object hpairs (.inl (List.cons_ne_nil _ _)) ?_ (by simp)
  rw [List.mapM_cons, List.mapM_nil, readField, hvalue]
  rfl

/-- A key that is no name is lost without an error, and so is a key behind a string that opens an
interpolation. -/
theorem read_loses_fields :
    let spaced := "\x7b\"a b\": 1, \"c\": 2\x7d".toList
    let opened := "\x7b\"a\": \"$\x7b\", \"b\": \"\x7d\"\x7d".toList
    (Json.read spaced =
        .ok (.object [(Runes.ofText "a b".toList, .int 1), (Runes.ofText "c".toList, .int 2)]) ∧
      read spaced = .ok (.object [(Runes.ofText "c".toList, .int 2)])) ∧
    Json.read opened = .ok (.object [(Runes.ofText "a".toList, .ofText ['$', '{']),
        (Runes.ofText "b".toList, .ofText ['}'])]) ∧
      ∃ value, read opened = .ok (.object [(Runes.ofText "a".toList, value)]) := by
  intro spaced opened
  have hspaced : spaced = Json.write
      (.object [(Runes.ofText "a b".toList, .int 1), (Runes.ofText "c".toList, .int 2)]) := by
    decide +kernel
  have hopened : opened = Json.write (.object [(Runes.ofText "a".toList, .ofText ['$', '{']),
      (Runes.ofText "b".toList, .ofText ['}'])]) := by
    decide +kernel
  refine ⟨⟨?_, ?_⟩, ?_, ?_⟩
  · rw [hspaced]
    refine Json.read_writeAt isLaidOut_compact (.object (by decide) (by decide) ?_) 0
    exact List.forall_mem_cons.mpr ⟨.int (by decide +kernel),
      List.forall_mem_singleton.mpr (.int (by decide +kernel))⟩
  · have hpairs : pairs (assignments "\"a b\": 1, \"c\": 2".toList true) =
        [("c".toList, "2".toList)] := by
      decide +kernel
    have htwo : read "2".toList = .ok (.int 2) :=
      read_scalar (.of_class not_isBlank_of_isNumeralChar (by decide) (by decide)
        (forall_of_all (by decide))) (by decide) (by decide)
    exact read_field hpairs htwo
  · rw [hopened]
    refine Json.read_writeAt isLaidOut_compact (.object (by decide) (by decide) ?_) 0
    exact List.forall_mem_cons.mpr ⟨.string (by decide),
      List.forall_mem_singleton.mpr (.string (by decide))⟩
  · -- the mask takes everything up to the last quote for one string
    have hpairs : pairs (assignments "\"a\": \"$\x7b\", \"b\": \"\x7d\"".toList true) =
        [("a".toList, "\"$\x7b\", \"b\": \"\x7d\"".toList)] := by
      decide +kernel
    obtain ⟨value, hvalue⟩ : ∃ value, read "\"$\x7b\", \"b\": \"\x7d\"".toList = .ok value := by
      have htrimmed : IsTrimmed "\"$\x7b\", \"b\": \"\x7d\"".toList :=
        .between (by decide) "$\x7b\", \"b\": \"\x7d".toList
      rw [read_scalar htrimmed (by decide) (by decide), scalar, if_pos (by decide)]
      split <;> exact ⟨_, rfl⟩
    exact ⟨value, read_field hpairs hvalue⟩

end Literal

end TerraformTrace
