import TerraformTrace.Proofs.Invalidation

/-!
# TerraformTrace.Proofs.KeyFragment

**The fragment of a kind stands in the keys of that kind and in no other key**, whatever their
parts hold. So all whole resolutions, and no look-up with them, can be dropped by searching the
keys for a fragment.

A quote inside a part is escaped, so a bracket directly before a quote is either the beginning
of the key or the end of a part that ends in a bracket. In the second case the quote closes the
part, and a comma or the closing bracket of the key comes next; the word of a kind begins with
neither (`head?_of_closing`).
-/

namespace TerraformTrace

/-! ### Substrings -/

theorem Text.exists_append_of_occursIn {fragment text : Text} (h : occursIn fragment text = true) :
    ∃ before after, text = before ++ (fragment ++ after) := by
  induction text with
  | nil =>
    simp only [occursIn, List.isEmpty_iff] at h
    exact ⟨[], [], by simp [h]⟩
  | cons c rest ih =>
    simp only [occursIn, Bool.or_eq_true, List.isPrefixOf_iff_prefix] at h
    rcases h with ⟨after, happend⟩ | hrest
    · exact ⟨[], after, happend.symm⟩
    · obtain ⟨before, after, rfl⟩ := ih hrest
      exact ⟨c :: before, after, rfl⟩

/-! ### Brackets in written strings -/

namespace Json

/-- A bracket is written as itself and stands in the code of no other character. -/
theorem writeRawChar_of_bracket_mem {c : Char} (h : '[' ∈ writeRawChar c) :
    writeRawChar c = ['['] := by
  unfold writeRawChar at h ⊢
  cases hshort : shortEscape? c with
  | some code =>
    rw [hshort] at h
    unfold shortEscape? at hshort
    split_ifs at hshort <;> cases hshort <;> simp at h
  | none =>
    simp only [hshort] at h ⊢
    split at h
    · -- a control character is written with hexadecimal digits
      rename_i hcontrol
      have hdigits : ∀ n : Fin 0x20, '[' ∉ unitEscape n.val := by decide +kernel
      exact absurd h (hdigits ⟨c.toNat, hcontrol⟩)
    · rename_i hcontrol
      rw [if_neg hcontrol, List.mem_singleton.mp h]

end Json

/-! ### The rest of a key -/

/-- The rest of a key from inside one of its strings: what is left of the string, and the
strings after it. -/
def closing : (text : Text) → (parts : List Text) → Text
  | c :: text, parts => Json.writeRawChar c ++ closing text parts
  | [], part :: parts => '"' :: ',' :: ' ' :: '"' :: closing part parts
  | [], [] => ['"', ']']
termination_by text parts => (parts.length, text.length)

theorem closing_eq (text : Text) (parts : List Text) :
    closing text parts = text.flatMap Json.writeRawChar ++
      '"' :: (Text.joinRest ", ".toList (parts.map Json.writeRawString) ++ [']']) := by
  fun_induction closing text parts with
  | case1 c text parts ih => simp [ih]
  | case2 part parts ih =>
    rw [ih, List.map_cons, Text.joinRest, Text.join_cons]
    simp [Json.writeRawString]
  | case3 => rfl

theorem cacheKey_eq_closing (kind : Text) (parts : List Text) :
    cacheKey kind parts = '[' :: '"' :: closing kind parts := by
  rw [closing_eq, cacheKey, List.map_cons, Text.join_cons]
  simp [Json.writeRawString]

/-- A quote behind the code of a character closes the string. -/
theorem head?_of_closing_eq_quote {text : Text} {parts : List Text} {rest : Text}
    (h : closing text parts = '"' :: rest) : rest.head? = some ',' ∨ rest.head? = some ']' := by
  unfold closing at h
  split at h
  next => exact absurd h (Json.writeRawChar_head_ne_quote _ _ _)
  next =>
    cases h
    exact Or.inl rfl
  next =>
    cases h
    exact Or.inr rfl

/-- A bracket directly before a quote ends its string, so the quote closes it. -/
theorem head?_of_closing {text : Text} {parts : List Text} {before rest : Text}
    (h : closing text parts = before ++ '[' :: '"' :: rest) :
    rest.head? = some ',' ∨ rest.head? = some ']' := by
  fun_induction closing text parts generalizing before with
  | case1 c text parts ih =>
    rcases List.append_eq_append_iff.mp h with ⟨more, -, hmore⟩ | ⟨more, hcode, hmore⟩
    · exact ih hmore
    · cases more with
      | nil => exact @ih [] hmore.symm
      | cons d more =>
        obtain ⟨rfl, hquote⟩ := List.cons.inj hmore
        -- the bracket is the whole code, so the quote comes right after it
        have hbracket := Json.writeRawChar_of_bracket_mem (c := c) (by simp [hcode])
        have hlength := congrArg List.length (hbracket.symm.trans hcode)
        simp only [List.length_append, List.length_cons, List.length_nil] at hlength
        obtain rfl : more = [] := List.eq_nil_of_length_eq_zero (by omega)
        exact head?_of_closing_eq_quote hquote.symm
  | case2 part parts ih =>
    rcases before with _ | ⟨_, _ | ⟨_, _ | ⟨_, _ | ⟨_, before⟩⟩⟩⟩ <;> simp at h
    exact ih h.2.2.2.2
  | case3 =>
    have hmem : '[' ∈ ['"', ']'] := by simp [h]
    simp at hmem

/-! ### The fragments of kinds -/

/-- The fragment of a kind whose word begins with neither a comma nor a bracket stands in the
keys of this kind only. -/
theorem eq_of_occursIn_cacheKey {word kind : Text} {parts : List Text}
    (hcomma : (word.flatMap Json.writeRawChar ++ ['"']).head? ≠ some ',')
    (hbracket : (word.flatMap Json.writeRawChar ++ ['"']).head? ≠ some ']')
    (h : Text.occursIn (kindFragment word) (cacheKey kind parts) = true) : kind = word := by
  obtain ⟨before, after, hkey⟩ := Text.exists_append_of_occursIn h
  rw [kindFragment_eq] at hkey
  cases before with
  | nil =>
    rw [cacheKey, List.map_cons, Text.join_cons] at hkey
    simp only [List.cons_append, List.nil_append, List.append_assoc, List.cons.injEq,
      true_and] at hkey
    exact (Json.writeRawString_append_inj hkey).1
  | cons first before =>
    rw [cacheKey_eq_closing] at hkey
    cases before with
    | nil => simp at hkey
    | cons second before =>
      have hclosing : closing kind parts = before ++ '[' :: '"' ::
          (word.flatMap Json.writeRawChar ++ ['"'] ++ after) := by
        simp only [List.cons_append, List.cons.injEq, Json.writeRawString] at hkey
        simpa using hkey.2.2
      have hhead : (word.flatMap Json.writeRawChar ++ ['"'] ++ after).head? =
          (word.flatMap Json.writeRawChar ++ ['"']).head? := by
        simp
      rcases head?_of_closing hclosing with hnext | hnext
      · exact absurd (hhead.symm.trans hnext) hcomma
      · exact absurd (hhead.symm.trans hnext) hbracket

/-- **Keys are unambiguous.** A key determines its kind and its parts; and the fragment by which
the keys of whole resolutions are found stands in the keys of its own kind only. -/
theorem cacheKey_unambiguous (kind : Text) (parts : List Text) :
    (∀ kind' parts', cacheKey kind parts = cacheKey kind' parts' ↔ kind = kind' ∧ parts = parts') ∧
    ∀ mode : SearchMode,
      Text.occursIn (kindFragment mode.kind.word) (cacheKey kind parts) = true ↔
        kind = mode.kind.word := by
  refine ⟨fun kind' parts' => ⟨cacheKey_inj, ?_⟩, fun mode => ⟨?_, ?_⟩⟩
  · rintro ⟨rfl, rfl⟩
    rfl
  · cases mode with
    | plain => exact eq_of_occursIn_cacheKey (by decide) (by decide)
    | enhanced => exact eq_of_occursIn_cacheKey (by decide) (by decide)
  · rintro rfl
    exact occursIn_cacheKey _ parts

end TerraformTrace
