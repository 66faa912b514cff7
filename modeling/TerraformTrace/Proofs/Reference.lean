import TerraformTrace.Engine.Query
import TerraformTrace.Proofs.Text

/-!
# TerraformTrace.Proofs.Reference

A reference is *well-formed* when its segments are names. Every reference that is read
from a text is: both readers, of a whole text and of the references inside one, take
segments only as names. A reference put together by hand need not be.

Names hold no dots, so the canonical text of a well-formed reference determines it.
-/

namespace TerraformTrace

open Text

variable {text : Text} {kind : ReferenceKind} {ref : Reference} {name : Text}

/-! ### Names -/

theorem isName_of_leadingName? (h : leadingName? text = some name) : isName name = true := by
  unfold leadingName? at h
  split at h
  · split at h
    · rename_i c rest hstart
      cases h
      simp only [isName, hstart, Bool.true_and, List.all_eq_true]
      exact List.all_eq_true.mp List.all_takeWhile
    · cases h
  · cases h

theorem exists_append_of_leadingName? (h : leadingName? text = some name) :
    ∃ rest, text = name ++ rest ∧ ∀ c ∈ rest.head?, isNameRest c = false := by
  cases text with
  | nil => cases h
  | cons first text =>
    rw [leadingName?] at h
    split at h
    · cases h
      refine ⟨text.dropWhile isNameRest, ?_, fun c hc => not_of_head?_dropWhile hc⟩
      rw [List.cons_append, List.takeWhile_append_dropWhile]
    · cases h

/-- A character that no name may hold. -/
theorem not_mem_of_isName {c : Char} (hstart : isNameStart c = false)
    (hrest : isNameRest c = false) (h : isName name = true) : c ∉ name := by
  cases name with
  | nil => exact List.not_mem_nil
  | cons first rest =>
    simp only [isName, Bool.and_eq_true, List.all_eq_true] at h
    intro hmem
    rcases List.mem_cons.mp hmem with rfl | hmem
    · rw [hstart] at h
      exact absurd h.1 (by simp)
    · have hname := h.2 c hmem
      rw [hrest] at hname
      exact absurd hname (by simp)

theorem ne_nil_of_isName (h : isName name = true) : name ≠ [] := by
  rintro rfl
  simp [isName] at h

theorem ReferenceKind.word_inj {kind' : ReferenceKind} (h : kind.word = kind'.word) :
    kind = kind' := by
  revert h
  cases kind <;> cases kind' <;> decide

namespace Reference

variable {segments : List Text}

/-- The reference to an input. -/
def ofInput (name : Text) : Reference :=
  { kind := .input, segments := [name], enough := Nat.le_refl 1 }

/-- Every segment is a name. -/
def IsWellFormed (ref : Reference) : Prop := ∀ segment ∈ ref.segments, isName segment = true

instance (ref : Reference) : Decidable ref.IsWellFormed :=
  inferInstanceAs (Decidable (∀ segment ∈ ref.segments, isName segment = true))

/-! ### What is read is well-formed -/

theorem isName_of_mem_leadingPath {rounds : Nat} {segment : Text}
    (h : segment ∈ (leadingPath rounds text).1) : isName segment = true := by
  fun_induction leadingPath rounds text generalizing segment with
  | case1 => simp at h
  | case2 => simp at h
  | case3 rounds text name hname rest hrest hempty ih =>
    obtain rfl : segment = name := by simpa using h
    exact isName_of_leadingName? hname
  | case4 rounds text name hname rest hrest names read hne hpath ih =>
    rcases List.mem_cons.mp h with rfl | hmem
    · exact isName_of_leadingName? hname
    · exact ih (by rw [hpath]; exact hmem)
  | case5 rounds text name hname hrest =>
    obtain rfl : segment = name := by simpa using h
    exact isName_of_leadingName? hname

/-- What is read as a reference is the word of its kind, a dot, and a path that is not empty. -/
theorem exists_of_leadingReference? {length : Nat}
    (h : leadingReference? text = some (kind, segments, length)) :
    ∃ body read, text = kind.word ++ ['.'] ++ body ∧
      leadingPath body.length body = (segments, read) ∧ segments ≠ [] ∧
      length = (kind.word ++ ['.']).length + read := by
  obtain ⟨tried, -, hkind⟩ := List.exists_of_findSome?_eq_some h
  dsimp only at hkind
  split at hkind
  next hprefix =>
    obtain ⟨body, rfl⟩ := List.isPrefixOf_iff_prefix.mp hprefix
    rw [List.drop_left] at hkind
    split at hkind
    next => cases hkind
    next names read hne hpath =>
      cases hkind
      exact ⟨body, read, rfl, hpath, hne, rfl⟩
  next => cases hkind

theorem isName_of_mem_leadingReference? {length : Nat}
    (h : leadingReference? text = some (kind, segments, length)) :
    ∀ segment ∈ segments, isName segment = true := by
  obtain ⟨body, read, -, hpath, -⟩ := exists_of_leadingReference? h
  exact fun segment hmem => isName_of_mem_leadingPath (by rw [hpath]; exact hmem)

theorem make_eq_ok (h : make kind segments = .ok ref) :
    ref.kind = kind ∧ ref.segments = segments := by
  unfold make at h
  split at h
  · cases h; exact ⟨rfl, rfl⟩
  · cases h

theorem isWellFormed_of_parse {text : Option Text}
    (h : parse text = .ok ref) : ref.IsWellFormed := by
  unfold parse at h
  dsimp only at h
  split at h
  · rename_i hname
    obtain ⟨-, hsegments⟩ := make_eq_ok h
    intro segment hmem
    rw [hsegments, List.mem_singleton] at hmem
    rw [hmem]
    exact hname
  · split at h
    · rename_i kind segments read hleading
      split at h
      · obtain ⟨-, hsegments⟩ := make_eq_ok h
        intro segment hmem
        exact isName_of_mem_leadingReference? hleading segment (hsegments ▸ hmem)
      · cases h
    · cases h

theorem isWellFormed_of_mem_scan {skip pos : Nat} {before : Option Char}
    {occurrence : Occurrence} (h : occurrence ∈ Occurrence.scan skip before pos text) :
    occurrence.reference.IsWellFormed := by
  fun_induction Occurrence.scan skip before pos text with
  | case1 => simp at h
  | case2 _ _ _ _ _ ih => exact ih h
  | case3 _ _ _ _ _ ih => exact ih h
  | case4 before pos c rest kind segments length hleading more ref hmake ih =>
    rcases List.mem_cons.mp h with rfl | hmore
    · obtain ⟨-, hsegments⟩ := make_eq_ok hmake
      split at hleading
      · intro segment hmem
        exact isName_of_mem_leadingReference? hleading segment (hsegments ▸ hmem)
      · cases hleading
    · exact ih hmore
  | case5 _ _ _ _ _ _ _ _ _ _ _ ih => exact ih h

end Reference

theorem isWellFormed_of_mem_references (h : ref ∈ references text) : ref.IsWellFormed := by
  obtain ⟨occurrence, hmem, rfl⟩ := List.mem_map.mp (List.mem_eraseDups.mp h)
  exact Reference.isWellFormed_of_mem_scan hmem

theorem isWellFormed_of_mem_orderedReferences {value : Text}
    (h : ref ∈ orderedReferences value) : ref.IsWellFormed :=
  isWellFormed_of_mem_references (Text.mem_sortBy.mp h)

/-! ### Parts of a reference -/

namespace Reference

theorem IsWellFormed.base (h : ref.IsWellFormed) : ref.base.IsWellFormed :=
  fun segment hmem => h segment (List.mem_of_mem_take hmem)

@[simp]
theorem base_properties (ref : Reference) : ref.base.properties = [] := by
  simp [base, properties, symbol]

/-- The canonical text of a well-formed reference determines it. -/
theorem IsWellFormed.text_inj {r s : Reference} (hr : r.IsWellFormed) (hs : s.IsWellFormed)
    (h : r.text = s.text) : r = s := by
  have hpieces : ∀ t : Reference, t.IsWellFormed → ∀ p ∈ t.kind.word :: t.segments,
      p ≠ [] ∧ '.' ∉ p := by
    intro t ht p hp
    rcases List.mem_cons.mp hp with rfl | hp
    · cases t.kind <;> decide
    · exact ⟨ne_nil_of_isName (ht p hp), not_mem_of_isName (by decide) (by decide) (ht p hp)⟩
  have hjoin := Text.join_inj (hpieces r hr) (hpieces s hs) h
  obtain ⟨rkind, rsegments, renough⟩ := r
  obtain ⟨skind, ssegments, senough⟩ := s
  obtain ⟨hword, rfl⟩ := List.cons.inj hjoin
  obtain rfl := ReferenceKind.word_inj hword
  rfl

theorem length_join_append {mark : Char} {xs ys : List Text} (hxs : xs ≠ []) (hys : ys ≠ []) :
    (Text.join [mark] (xs ++ ys)).length =
      (Text.join [mark] xs).length + 1 + (Text.join [mark] ys).length := by
  induction xs with
  | nil => exact absurd rfl hxs
  | cons x xs ih =>
    cases xs with
    | nil =>
      cases ys with
      | nil => exact absurd rfl hys
      | cons y ys => simp [Text.join]; omega
    | cons next xs =>
      have hrest := ih (List.cons_ne_nil _ _)
      simp only [List.cons_append] at hrest ⊢
      rw [Text.join_cons _ x (next :: (xs ++ ys)), Text.join_cons _ x (next :: xs)]
      simp only [Text.joinRest, List.length_append, hrest]
      omega

/-- The symbol of a reference with properties has a shorter text. -/
theorem base_text_ne (h : ref.properties ≠ []) : ref.base.text ≠ ref.text := by
  have hsegments : ref.segments = ref.symbol ++ ref.properties := (List.take_append_drop _ _).symm
  have hlength : ref.text.length =
      ref.base.text.length + 1 + (Text.join ['.'] ref.properties).length := by
    unfold text dotted
    rw [hsegments, ← List.cons_append, length_join_append (List.cons_ne_nil _ _) h]
    rfl
  intro heq
  rw [heq] at hlength
  omega

end Reference

/-! ### Requests -/

namespace Wanted

/-- A ready-made reference has to be well-formed; a text may be anything. -/
def IsWellFormed : Wanted → Prop
  | .text _ => True
  | .reference known => known.IsWellFormed

instance (wanted : Wanted) : Decidable wanted.IsWellFormed :=
  match wanted with
  | .text _ => inferInstanceAs (Decidable True)
  | .reference known => inferInstanceAs (Decidable known.IsWellFormed)

theorem IsWellFormed.reference? {wanted : Wanted} (h : wanted.IsWellFormed)
    (hsome : wanted.reference? = some ref) : ref.IsWellFormed := by
  cases wanted with
  | text written =>
    cases hparse : Reference.parse written with
    | error error => simp [Wanted.reference?, hparse, Except.toOption] at hsome
    | ok parsed =>
      obtain rfl : parsed = ref := by
        simpa [Wanted.reference?, hparse, Except.toOption] using hsome
      exact Reference.isWellFormed_of_parse hparse
  | reference known =>
    obtain rfl : known = ref := by simpa [Wanted.reference?] using hsome
    exact h

end Wanted

end TerraformTrace
