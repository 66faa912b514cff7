import TerraformTrace.Yaml.Document
import TerraformTrace.Proofs.JsonRoundTrip

/-!
# TerraformTrace.Proofs.NumberForm

The zeros among the numbers that are read. A significand of zero makes a zero whatever the exponent
is, but **rounding gives zero the least exponent** (`isNormal_ofRatio`): a number that is large
enough for a greater exponent is rounded to a significand that is not zero. So there is one zero of
each sign, and numbers may be tested for zero by comparing them with these two.

The numbers of a JSON document and of the entries of a YAML document are all made by rounding.
-/

namespace TerraformTrace

variable {text : Text}

/-! ### Rounding -/

namespace Binary64

variable {num : Nat}

/-- If the number is zero, its exponent is the least one. -/
def IsNormal : Binary64 → Prop
  | .finite _ significand exponent => significand = 0 → exponent = minExponent
  | _ => True

/-- Whether the fraction `num / den · 2 ^ shift` is at least one. -/
def ReachesOne (num den : Nat) (shift : Int) : Prop :=
  (scale num den shift).2 ≤ (scale num den shift).1

theorem ReachesOne.mono {den : Nat} {shift more : Int} (hle : shift ≤ more)
    (h : ReachesOne num den shift) : ReachesOne num den more := by
  unfold ReachesOne scale at h ⊢
  by_cases hmore : 0 ≤ more
  · rw [if_pos hmore]
    by_cases hshift : 0 ≤ shift
    · rw [if_pos hshift] at h
      have hpow : Nat.pow 2 shift.toNat ≤ Nat.pow 2 more.toNat :=
        Nat.pow_le_pow_right (by decide) (by omega)
      exact h.trans (Nat.mul_le_mul_left num hpow)
    · rw [if_neg hshift] at h
      calc
        den ≤ den * Nat.pow 2 shift.natAbs := Nat.le_mul_of_pos_right _ (Nat.two_pow_pos _)
        _ ≤ num := h
        _ ≤ num * Nat.pow 2 more.toNat := Nat.le_mul_of_pos_right _ (Nat.two_pow_pos _)
  · have hshift : ¬0 ≤ shift := by omega
    rw [if_neg hmore]
    rw [if_neg hshift] at h
    have hpow : Nat.pow 2 more.natAbs ≤ Nat.pow 2 shift.natAbs :=
      Nat.pow_le_pow_right (by decide) (by omega)
    exact (Nat.mul_le_mul_left den hpow).trans h

/-- The guess of the logarithm is at most one too great. -/
theorem reachesOne_log2 (den : Nat) (hnum : num ≠ 0) :
    ReachesOne num den (1 - ((num.log2 : Int) - den.log2)) := by
  have hlow : 2 ^ num.log2 ≤ num := Nat.log2_self_le hnum
  have hhigh : den ≤ 2 ^ (den.log2 + 1) := Nat.le_of_lt Nat.lt_log2_self
  unfold ReachesOne scale
  split
  next hshift =>
    have hexponent : den.log2 + 1 ≤ num.log2 + (1 - ((num.log2 : Int) - den.log2)).toNat := by
      omega
    calc
      den ≤ 2 ^ (den.log2 + 1) := hhigh
      _ ≤ 2 ^ (num.log2 + (1 - ((num.log2 : Int) - den.log2)).toNat) :=
        Nat.pow_le_pow_right (by decide) hexponent
      _ = 2 ^ num.log2 * 2 ^ (1 - ((num.log2 : Int) - den.log2)).toNat := Nat.pow_add ..
      _ ≤ num * 2 ^ (1 - ((num.log2 : Int) - den.log2)).toNat := Nat.mul_le_mul_right _ hlow
  next hshift =>
    have hexponent : den.log2 + 1 + (1 - ((num.log2 : Int) - den.log2)).natAbs = num.log2 := by
      omega
    calc
      den * 2 ^ (1 - ((num.log2 : Int) - den.log2)).natAbs
        ≤ 2 ^ (den.log2 + 1) * 2 ^ (1 - ((num.log2 : Int) - den.log2)).natAbs :=
          Nat.mul_le_mul_right _ hhigh
      _ = 2 ^ num.log2 := by rw [← Nat.pow_add, hexponent]
      _ ≤ num := hlow

theorem reachesOne_floorLog2 (den : Nat) (hnum : num ≠ 0) :
    ReachesOne num den (-floorLog2 num den) := by
  unfold floorLog2
  dsimp only
  split
  next h => exact h
  next =>
    rw [show -((num.log2 : Int) - den.log2 - 1) = 1 - ((num.log2 : Int) - den.log2) by omega]
    exact reachesOne_log2 den hnum

theorem roundDiv_pos {den : Nat} (hnum : 0 < num) (h : den ≤ num) : 0 < roundDiv num den := by
  unfold roundDiv
  rcases Nat.eq_zero_or_pos den with rfl | hden
  · simp [hnum]
  · have hquotient : 0 < num / den := Nat.div_pos h hden
    dsimp only
    split
    · exact hquotient
    · split <;> omega

/-- Only an exponent above the logarithm of a number can make its significand zero. -/
theorem roundDiv_scale_pos (den : Nat) (hnum : num ≠ 0) {exponent : Int}
    (h : exponent ≤ floorLog2 num den) :
    0 < roundDiv (scale num den (-exponent)).1 (scale num den (-exponent)).2 := by
  have hreaches : ReachesOne num den (-exponent) :=
    (reachesOne_floorLog2 den hnum).mono (Int.neg_le_neg h)
  have hpos : 0 < (scale num den (-exponent)).1 := by
    unfold scale
    split
    · exact Nat.mul_pos (Nat.pos_of_ne_zero hnum) (Nat.two_pow_pos _)
    · exact Nat.pos_of_ne_zero hnum
  exact roundDiv_pos hpos hreaches

/-- Rounding gives zero the least exponent. -/
theorem isNormal_ofRatio (negative : Bool) (num den : Nat) :
    (ofRatio negative num den).IsNormal := by
  unfold ofRatio
  split
  · exact fun _ => rfl
  · rename_i hnum
    dsimp only
    generalize hexponent : max minExponent (floorLog2 num den - 52) = exponent
    split
    · split
      · trivial
      · intro hzero
        exact absurd hzero (Nat.ne_of_gt (Nat.two_pow_pos 52))
    · split
      · trivial
      · intro hzero
        refine Classical.byContradiction fun hne => ?_
        have hle : exponent ≤ floorLog2 num den := by
          dsimp only at hne
          omega
        exact Nat.ne_of_gt (roundDiv_scale_pos den hnum hle) hzero

theorem isNormal_ofDecimal (negative : Bool) (digits : Nat) (exponent : Int) :
    (ofDecimal negative digits exponent).IsNormal := by
  unfold ofDecimal
  dsimp only
  split
  · exact fun _ => rfl
  · split
    · trivial
    · split
      · exact isNormal_ofRatio ..
      · exact isNormal_ofRatio ..

end Binary64

/-! ### Documents -/

namespace Json

variable {value : Json}

theorem isNormal_of_mem_words {word : Text} (h : (word, value) ∈ words) :
    ∀ x ∈ value.floats, x.IsNormal := by
  simp only [words, List.mem_cons, List.not_mem_nil, or_false, Prod.mk.injEq] at h
  rcases h with ⟨-, rfl⟩ | ⟨-, rfl⟩ | ⟨-, rfl⟩ | ⟨-, rfl⟩ | ⟨-, rfl⟩ | ⟨-, rfl⟩ <;>
    simp [floats, Binary64.IsNormal]

theorem isNormal_of_spellsNumber (h : SpellsNumber text value) :
    ∀ x ∈ value.floats, x.IsNormal := by
  rcases h.cases with ⟨_, _, -, -, rfl⟩ | ⟨_, _, _, rfl⟩
  · simp [floats]
  · simp [floats, Binary64.isNormal_ofDecimal]

/-- All numbers of a JSON text are rounded. -/
theorem isNormal_of_spells (h : Spells text value) : ∀ x ∈ value.floats, x.IsNormal := by
  induction h with
  | word hword => exact isNormal_of_mem_words hword
  | number hnumber => exact isNormal_of_spellsNumber hnumber
  | string => simp [floats]
  | emptyArray => simp [floats, floatsOfItems]
  | array _ _ ih =>
    intro x hx
    obtain ⟨value, hvalue, hx⟩ := mem_floats_array.mp hx
    obtain ⟨item, hitem, rfl⟩ := List.mem_map.mp hvalue
    exact ih item hitem x hx
  | emptyObject => simp [floats, floatsOfFields]
  | object _ _ ih =>
    intro x hx
    obtain ⟨field, hfield, hx⟩ := mem_floats_object.mp hx
    obtain ⟨member, hmember, rfl⟩ := List.mem_map.mp (mem_of_mem_collect field hfield)
    exact ih member hmember x hx

end Json

namespace Yaml

variable {x : Binary64}

theorem isNormal_of_named? (h : named? text = some x) : x.IsNormal := by
  unfold named? at h
  dsimp only at h
  split at h
  · cases h
    trivial
  · split at h
    · cases h
      trivial
    · cases h

theorem isNormal_of_value? {negative : Bool} {numeral : Numeral}
    (h : numeral.value? negative = some x) : x.IsNormal := by
  unfold Numeral.value? at h
  dsimp only at h
  split at h
  · cases h
  · cases h
    exact Binary64.isNormal_ofDecimal ..

theorem isNormal_of_ofPlain? (h : Atom.ofPlain? text = some (.number x)) : x.IsNormal := by
  unfold Atom.ofPlain? at h
  split at h
  next hfind =>
    -- none of the words is a number
    cases h
    have hmem := List.mem_of_find?_eq_some hfind
    simp [words] at hmem
  next =>
    split at h
    · cases h
    · split at h
      · cases h
      · dsimp only at h
        split at h
        next value _ _ _ hnamed =>
          cases h
          exact isNormal_of_named? hnamed
        next =>
          obtain ⟨value, hvalue, hx⟩ := Option.map_eq_some_iff.mp h
          cases hx
          exact isNormal_of_value? hvalue
        next =>
          obtain ⟨n, -, hx⟩ := Option.map_eq_some_iff.mp h
          cases hx
        next =>
          obtain ⟨time, -, hx⟩ := Option.map_eq_some_iff.mp h
          cases hx
        next => cases h

namespace Value

variable {entries : List (Key × Value)} {entry : Key × Value}

/-- The number that a node stands for is rounded. -/
theorem isNormal_of_ofNode? {node : Node}
    (h : ofNode? node = some (.atom (.number x))) : x.IsNormal := by
  cases node with
  | scalar text plain =>
    rw [ofNode?] at h
    obtain ⟨atom, hatom, hvalue⟩ := Option.map_eq_some_iff.mp h
    cases hvalue
    cases plain with
    | false => cases hatom
    | true => exact isNormal_of_ofPlain? hatom
  | sequence items =>
    rw [ofNode?] at h
    obtain ⟨values, -, hvalue⟩ := Option.map_eq_some_iff.mp h
    cases hvalue
  | mapping entries =>
    rw [ofNode?] at h
    obtain ⟨found, -, hvalue⟩ := Option.bind_eq_some_iff.mp h
    unfold Entries.map? at hvalue
    split at hvalue
    · split at hvalue <;> cases hvalue
    · cases hvalue

/-- The values of entries, if there are any, are those of nodes. -/
def AreFromNodes (found : Option (List (Key × Value))) : Prop :=
  ∀ entries, found = some entries → ∀ entry ∈ entries, ∃ node, ofNode? node = some entry.2

/-- The values of a mapping are those of nodes, also where they are taken over from other
mappings. -/
theorem areFromNodes_entriesOf? (nodes : List (Node × Node)) :
    AreFromNodes ((entriesOf? nodes).map Entries.all) := by
  induction nodes using entriesOf?.induct (fun _ => True) _
    (fun node => AreFromNodes (inheritedFrom? node))
    (fun nodes => AreFromNodes (inheritedFromAll? nodes)) (fun _ => True) with
  | case1 | case2 | case3 | case10 | case11 => trivial
  | case4 nodes ih =>
    intro others h
    rw [inheritedFrom?] at h
    obtain ⟨found, hfound, h⟩ := Option.bind_eq_some_iff.mp h
    cases h
    exact ih _ (by rw [hfound]; rfl)
  | case5 items ih =>
    rw [inheritedFrom?]
    exact ih
  | case6 text plain =>
    intro others h
    cases h
  | case7 =>
    intro others h
    cases h
    exact List.forall_mem_nil _
  | case8 nodes rest ihnodes ihrest =>
    intro others h
    rw [inheritedFromAll?] at h
    obtain ⟨first, hfirst, h⟩ := Option.bind_eq_some_iff.mp h
    obtain ⟨later, hlater, h⟩ := Option.bind_eq_some_iff.mp h
    cases h
    exact List.forall_mem_append.mpr ⟨ihrest later hlater, ihnodes _ (by rw [hfirst]; rfl)⟩
  | case9 head tail hhead =>
    intro others h
    rw [inheritedFromAll?] at h
    · cases h
    · exact hhead
  | case12 =>
    intro entries h
    cases h
    exact List.forall_mem_nil _
  | case13 key node rest hmerge ihnode ihrest =>
    intro entries h
    rw [entriesOf?, if_pos hmerge] at h
    obtain ⟨all, hall, rfl⟩ := Option.map_eq_some_iff.mp h
    obtain ⟨others, hothers, hall⟩ := Option.bind_eq_some_iff.mp hall
    obtain ⟨found, hfound, hall⟩ := Option.bind_eq_some_iff.mp hall
    split at hall
    · cases hall
    · cases hall
      have hrest := ihrest _ (by rw [hfound]; rfl)
      rw [Entries.all, Entries.inherit, List.append_assoc]
      exact List.forall_mem_append.mpr ⟨ihnode others hothers, hrest⟩
  | case14 key node rest hmerge ihnode ihrest =>
    intro entries h
    rw [entriesOf?, if_neg hmerge] at h
    obtain ⟨all, hall, rfl⟩ := Option.map_eq_some_iff.mp h
    obtain ⟨name, -, hall⟩ := Option.bind_eq_some_iff.mp hall
    obtain ⟨value, hvalue, hall⟩ := Option.bind_eq_some_iff.mp hall
    obtain ⟨found, hfound, hall⟩ := Option.bind_eq_some_iff.mp hall
    cases hall
    have hrest := List.forall_mem_append.mp (ihrest _ (by rw [hfound]; rfl))
    refine List.forall_mem_append.mpr ⟨hrest.1, List.forall_mem_cons.mpr ⟨?_, hrest.2⟩⟩
    exact ⟨node, hvalue⟩

theorem mem_putEntry {key : Key} {value : Value} (h : entry ∈ putEntry key value entries) :
    entry.2 = value ∨ entry ∈ entries := by
  induction entries with
  | nil =>
    rw [putEntry, List.mem_singleton] at h
    exact .inl (by rw [h])
  | cons other entries ih =>
    rw [putEntry] at h
    split at h
    · rcases List.mem_cons.mp h with rfl | h
      · exact .inl rfl
      · exact .inr (List.mem_cons_of_mem _ h)
    · rcases List.mem_cons.mp h with rfl | h
      · exact .inr List.mem_cons_self
      · exact (ih h).imp_right (List.mem_cons_of_mem _)

theorem mem_foldl_putEntry {done : List (Key × Value)}
    (h : entry ∈ entries.foldl (fun done entry => putEntry entry.1 entry.2 done) done) :
    (∃ other ∈ entries, other.2 = entry.2) ∨ entry ∈ done := by
  induction entries generalizing done with
  | nil => exact .inr h
  | cons first entries ih =>
    rcases ih h with ⟨other, hother, hvalue⟩ | h
    · exact .inl ⟨other, List.mem_cons_of_mem _ hother, hvalue⟩
    · rcases mem_putEntry h with hvalue | h
      · exact .inl ⟨first, List.mem_cons_self, hvalue.symm⟩
      · exact .inr h

/-- A mapping has no values but those of its entries. -/
theorem exists_of_map? {entries : Entries} {kept : List (Key × Value)}
    (h : entries.map? = some (.map kept)) (hentry : entry ∈ kept) :
    ∃ other ∈ entries.all, other.2 = entry.2 := by
  unfold Entries.map? at h
  split at h
  · split at h
    · cases h
    · cases h
      exact ⟨entry, List.mem_append_right _ hentry, rfl⟩
  · cases h
    exact (mem_foldl_putEntry hentry).resolve_right List.not_mem_nil

/-- The numbers of the entries of a mapping are rounded. -/
theorem isNormal_of_map {node : Node} (h : ofNode? node = some (.map entries))
    (hentry : entry ∈ entries) (hx : entry.2 = .atom (.number x)) : x.IsNormal := by
  cases node with
  | scalar text plain =>
    rw [ofNode?] at h
    obtain ⟨atom, -, hvalue⟩ := Option.map_eq_some_iff.mp h
    cases hvalue
  | sequence items =>
    rw [ofNode?] at h
    obtain ⟨values, -, hvalue⟩ := Option.map_eq_some_iff.mp h
    cases hvalue
  | mapping nodes =>
    rw [ofNode?] at h
    obtain ⟨found, hfound, hmap⟩ := Option.bind_eq_some_iff.mp h
    obtain ⟨other, hother, hvalue⟩ := exists_of_map? hmap hentry
    obtain ⟨node, hnode⟩ := areFromNodes_entriesOf? nodes _ (by rw [hfound]; rfl) other hother
    rw [hvalue, hx] at hnode
    exact isNormal_of_ofNode? hnode

end Value

end Yaml

end TerraformTrace
