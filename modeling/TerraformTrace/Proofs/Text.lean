import TerraformTrace.Text.Basic

/-!
# TerraformTrace.Proofs.Text

Joined texts can be taken apart again. Pieces that do not hold the separating
character are what `Text.splitAt` finds between its occurrences, so joining is
injective on them; likewise a decimal numeral determines its number. A sorted list of
texts has the same texts, in order, and what is left out of it may be left out before.
A run of characters of one class is cut off up to the first character of another.
-/

namespace TerraformTrace.Text

variable {mark : Char} {piece text : Text} {pieces texts : List Text}

/-! ### Splitting -/

theorem splitAt_of_not_mem (h : mark ∉ piece) : splitAt mark piece = [piece] := by
  induction piece with
  | nil => rfl
  | cons c rest ih =>
    have hc := List.ne_of_not_mem_cons h
    have hrest := List.not_mem_of_not_mem_cons h
    rw [splitAt, if_neg (Ne.symm hc), ih hrest]

/-- The piece before the first mark is split off. -/
theorem splitAt_append_cons (rest : Text) (h : mark ∉ piece) :
    splitAt mark (piece ++ mark :: rest) = piece :: splitAt mark rest := by
  induction piece with
  | nil => simp [splitAt]
  | cons c piece ih =>
    have hc := List.ne_of_not_mem_cons h
    have hpiece := List.not_mem_of_not_mem_cons h
    rw [List.cons_append, splitAt, if_neg (Ne.symm hc), ih hpiece]

theorem not_mem_of_mem_splitAt (h : piece ∈ splitAt mark text) : mark ∉ piece := by
  induction text generalizing piece with
  | nil =>
    obtain rfl : piece = [] := by simpa [splitAt] using h
    exact List.not_mem_nil
  | cons c rest ih =>
    unfold splitAt at h
    split at h
    · rcases List.mem_cons.mp h with rfl | hmem
      · exact List.not_mem_nil
      · exact ih hmem
    · rename_i hc
      cases hsplit : splitAt mark rest with
      | nil =>
        obtain rfl : piece = [c] := by simpa [hsplit] using h
        simpa using Ne.symm hc
      | cons first pieces =>
        rw [hsplit] at h ih
        rcases List.mem_cons.mp h with rfl | hmem
        · exact List.not_mem_cons_of_ne_of_not_mem (Ne.symm hc) (ih List.mem_cons_self)
        · exact ih (List.mem_cons_of_mem _ hmem)

/-! ### Joining -/

/-- What follows the first piece of a joined text. -/
def joinRest (separator : Text) : List Text → Text
  | [] => []
  | piece :: pieces => separator ++ join separator (piece :: pieces)

theorem join_cons (separator piece : Text) (pieces : List Text) :
    join separator (piece :: pieces) = piece ++ joinRest separator pieces := by
  cases pieces with
  | nil => simp [join, joinRest]
  | cons next pieces => simp [join, joinRest]

theorem join_cons_of_ne_nil (h : pieces ≠ []) (piece : Text) :
    join [mark] (piece :: pieces) = piece ++ mark :: join [mark] pieces := by
  cases pieces with
  | nil => exact absurd rfl h
  | cons next pieces => simp [join]

/-- Splitting at the separator undoes joining. -/
theorem splitAt_join (h : ∀ p ∈ piece :: pieces, mark ∉ p) :
    splitAt mark (join [mark] (piece :: pieces)) = piece :: pieces := by
  induction pieces generalizing piece with
  | nil => exact splitAt_of_not_mem (h piece List.mem_cons_self)
  | cons next pieces ih =>
    have hpiece := h piece List.mem_cons_self
    have hrest : ∀ p ∈ next :: pieces, mark ∉ p := (List.forall_mem_cons.mp h).2
    rw [join_cons, joinRest, List.singleton_append, splitAt_append_cons _ hpiece, ih hrest]

theorem join_eq_nil (hne : ∀ p ∈ pieces, p ≠ []) (h : join [mark] pieces = []) : pieces = [] := by
  cases pieces with
  | nil => rfl
  | cons piece pieces =>
    rw [join_cons, List.append_eq_nil_iff] at h
    exact absurd h.1 (hne piece List.mem_cons_self)

/-- Joining is injective on pieces that are not empty and do not hold the separator. -/
theorem join_inj {xs ys : List Text} (hxs : ∀ p ∈ xs, p ≠ [] ∧ mark ∉ p)
    (hys : ∀ p ∈ ys, p ≠ [] ∧ mark ∉ p) (h : join [mark] xs = join [mark] ys) : xs = ys := by
  cases xs with
  | nil => exact (join_eq_nil (fun p hp => (hys p hp).1) h.symm).symm
  | cons x xs =>
    cases ys with
    | nil => exact join_eq_nil (fun p hp => (hxs p hp).1) h
    | cons y ys =>
      rw [← splitAt_join (fun p hp => (hxs p hp).2), h,
        splitAt_join (fun p hp => (hys p hp).2)]

/-! ### Runs of a class -/

section Runs

variable {p : Char → Bool}

theorem drop_takeWhile (p : Char → Bool) (text : Text) :
    text.drop (text.takeWhile p).length = text.dropWhile p := by
  have hdrop {front back : Text} (h : front ++ back = text) : text.drop front.length = back := by
    rw [← h, List.drop_left]
  exact hdrop List.takeWhile_append_dropWhile

theorem takeWhile_append_drop (p : Char → Bool) (text : Text) :
    text.takeWhile p ++ text.drop (text.takeWhile p).length = text := by
  rw [drop_takeWhile, List.takeWhile_append_dropWhile]

theorem takeWhile_append_of_head? {front back : Text} (hfront : ∀ c ∈ front, p c = true)
    (hback : ∀ c ∈ back.head?, p c = false) : (front ++ back).takeWhile p = front := by
  rw [List.takeWhile_append_of_pos hfront]
  cases back with
  | nil => simp
  | cons c back => simp [hback c rfl]

/-- A run ends before a character that is not of its class. -/
theorem dropWhile_append_cons {c : Char} (h : p c = false) (text rest : Text) :
    (text ++ c :: rest).dropWhile p = text.dropWhile p ++ c :: rest := by
  induction text with
  | nil => simp [h]
  | cons d text ih => by_cases hd : p d = true <;> simp [hd, ih]

/-- What comes after a run is not of its class. -/
theorem not_of_head?_dropWhile {c : Char} (h : (text.dropWhile p).head? = some c) :
    p c = false := by
  have hhead := List.head?_dropWhile_not p text
  rw [h] at hhead
  exact hhead

end Runs

/-! ### Classes of characters -/

/-- Whether every character of a text is of a sort can be computed from the text alone. -/
theorem forall_of_all {P : Char → Prop} [DecidablePred P]
    (h : text.all (fun c => decide (P c)) = true) : ∀ c ∈ text, P c :=
  fun c hc => of_decide_eq_true (List.all_eq_true.mp h c hc)

/-! ### Order -/

theorem mem_insertBy {α : Type} {le : α → α → Bool} {x item : α} {items : List α} :
    x ∈ insertBy le item items ↔ x = item ∨ x ∈ items := by
  induction items with
  | nil => simp [insertBy]
  | cons head rest ih =>
    unfold insertBy
    split
    · simp
    · rw [List.mem_cons, ih, List.mem_cons]
      exact or_left_comm

theorem mem_sortBy {α : Type} {le : α → α → Bool} {x : α} {items : List α} :
    x ∈ sortBy le items ↔ x ∈ items := by
  induction items with
  | nil => simp [sortBy]
  | cons item rest ih => rw [sortBy, mem_insertBy, ih, List.mem_cons]

theorem le_total (s t : Text) : le s t = true ∨ le t s = true := by
  induction s generalizing t with
  | nil => exact .inl rfl
  | cons c s ih =>
    cases t with
    | nil => exact .inr rfl
    | cons d t =>
      simp only [le, Bool.or_eq_true, Bool.and_eq_true, decide_eq_true_eq,
        UInt32.lt_iff_toNat_lt]
      rcases Nat.lt_trichotomy c.val.toNat d.val.toNat with hlt | heq | hgt
      · exact .inl (.inl hlt)
      · obtain rfl : c = d := Char.ext (UInt32.toNat_inj.mp heq)
        exact (ih t).imp (fun h => .inr ⟨rfl, h⟩) (fun h => .inr ⟨rfl, h⟩)
      · exact .inr (.inl hgt)

theorem le_trans {s t u : Text} (hst : le s t = true) (htu : le t u = true) : le s u = true := by
  induction s generalizing t u with
  | nil => rfl
  | cons c s ih =>
    cases t with
    | nil => cases hst
    | cons d t =>
      cases u with
      | nil => cases htu
      | cons e u =>
        simp only [le, Bool.or_eq_true, Bool.and_eq_true, decide_eq_true_eq] at hst htu ⊢
        rcases hst with hcd | ⟨rfl, hst⟩
        · rcases htu with hde | ⟨rfl, -⟩
          · exact .inl (UInt32.lt_trans hcd hde)
          · exact .inl hcd
        · exact htu.imp id fun htu => ⟨htu.1, ih hst htu.2⟩

theorem pairwise_insertBy (h : texts.Pairwise fun s t => le s t = true) :
    (insertBy le text texts).Pairwise fun s t => le s t = true := by
  induction texts with
  | nil => exact List.pairwise_singleton _ _
  | cons head texts ih =>
    obtain ⟨hhead, htexts⟩ := List.pairwise_cons.mp h
    unfold insertBy
    split
    next hle =>
      refine List.pairwise_cons.mpr ⟨fun other hother => ?_, h⟩
      rcases List.mem_cons.mp hother with rfl | hother
      · exact hle
      · exact le_trans hle (hhead other hother)
    next hle =>
      refine List.pairwise_cons.mpr ⟨fun other hother => ?_, ih htexts⟩
      rcases mem_insertBy.mp hother with rfl | hother
      · exact (le_total other head).resolve_left hle
      · exact hhead other hother

theorem pairwise_sort (texts : List Text) : (sort texts).Pairwise fun s t => le s t = true := by
  induction texts with
  | nil => exact List.Pairwise.nil
  | cons text texts ih => exact pairwise_insertBy ih

theorem insertBy_of_le
    (h : ∀ other ∈ texts, le text other = true) : insertBy le text texts = text :: texts := by
  cases texts with
  | nil => rfl
  | cons head rest => rw [insertBy, if_pos (h head List.mem_cons_self)]

theorem filter_insertBy {keep : Text → Bool} (h : texts.Pairwise fun s t => le s t = true) :
    (insertBy le text texts).filter keep =
      if keep text then insertBy le text (texts.filter keep) else texts.filter keep := by
  induction texts with
  | nil => cases hkeep : keep text <;> simp [insertBy, hkeep]
  | cons head rest ih =>
    obtain ⟨hhead, hrest⟩ := List.pairwise_cons.mp h
    rw [insertBy]
    split
    next hle =>
      -- everything from here on comes after the new text
      have hafter : ∀ other ∈ (head :: rest).filter keep, le text other = true := by
        intro other hother
        rcases List.mem_cons.mp (List.mem_filter.mp hother).1 with rfl | hmem
        · exact hle
        · exact le_trans hle (hhead other hmem)
      rw [insertBy_of_le hafter, List.filter_cons]
    next hle =>
      rw [List.filter_cons, List.filter_cons, ih hrest]
      cases keep text <;> cases keep head <;> simp [insertBy, hle]

/-- What is left out may be left out before or after sorting. -/
theorem sort_filter (keep : Text → Bool) (texts : List Text) :
    sort (texts.filter keep) = (sort texts).filter keep := by
  induction texts with
  | nil => rfl
  | cons text texts ih =>
    have hinsert : sort (text :: texts) = insertBy le text (sort texts) := rfl
    rw [hinsert, filter_insertBy (pairwise_sort texts), ← ih, List.filter_cons]
    split <;> rfl

/-! ### Numerals -/

theorem ofNat_inj {m n : Nat} (h : ofNat m = ofNat n) : m = n := by
  calc
    m = Nat.ofDigitChars 10 (ofNat m) 0 := Nat.ofDigitChars_ten_toDigits.symm
    _ = Nat.ofDigitChars 10 (ofNat n) 0 := by rw [h]
    _ = n := Nat.ofDigitChars_ten_toDigits

end TerraformTrace.Text
