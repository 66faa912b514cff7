import TerraformTrace.Engine.Session
import TerraformTrace.Proofs.Text

/-!
# TerraformTrace.Proofs.Path

The paths an engine works with are *normal*: absolute, without `..`, and with
components that could have been read from a text. Normalising a path that was read
from a text gives a normal path, normal paths are their own normal form, and the text
of a normal path determines it, which is why a directory's text can stand for the
directory in a key.
-/

namespace TerraformTrace

namespace Path

/-- The components of a path that was read from a text: not empty, without a slash, and
not the dot. -/
def IsTidy (path : Path) : Prop := ∀ part ∈ path.parts, part ≠ [] ∧ '/' ∉ part ∧ part ≠ ['.']

/-- An absolute path without `..`. -/
def IsNormal (path : Path) : Prop := path.anchor = .root ∧ path.IsTidy ∧ ['.', '.'] ∉ path.parts

instance (path : Path) : Decidable path.IsTidy :=
  inferInstanceAs (Decidable (∀ part ∈ path.parts, part ≠ [] ∧ '/' ∉ part ∧ part ≠ ['.']))

instance (path : Path) : Decidable path.IsNormal :=
  inferInstanceAs (Decidable (path.anchor = .root ∧ path.IsTidy ∧ ['.', '.'] ∉ path.parts))

/-! ### Reading and joining -/

theorem isTidy_ofText (text : Text) : (ofText text).IsTidy := by
  intro part hpart
  obtain ⟨hmem, hkept⟩ := List.mem_filter.mp hpart
  have hslash := Text.not_mem_of_mem_splitAt hmem
  simp only [ne_eq, Bool.and_eq_true, decide_eq_true_eq] at hkept
  exact ⟨hkept.1, hslash, hkept.2⟩

theorem IsTidy.join {dir path : Path} (hd : dir.IsTidy) (hp : path.IsTidy) :
    (dir.join path).IsTidy := by
  intro part hpart
  unfold Path.join at hpart
  split at hpart
  · exact hp part hpart
  · rcases List.mem_append.mp hpart with h | h
    · exact hd part h
    · exact hp part h

theorem IsNormal.parent {path : Path} (h : path.IsNormal) : path.parent.IsNormal :=
  ⟨h.1, fun part hpart => h.2.1 part (List.dropLast_subset _ hpart),
    fun hdots => h.2.2 (List.dropLast_subset _ hdots)⟩

/-! ### Normalising -/

variable {above parts : List Text}

theorem mem_foldParents {part : Text} (h : part ∈ foldParents above parts) :
    part ∈ above ∨ part ∈ parts := by
  induction parts generalizing above with
  | nil => exact Or.inl (List.mem_reverse.mp h)
  | cons first parts ih =>
    unfold foldParents at h
    split at h
    · rcases ih h with habove | hparts
      · exact Or.inl (List.mem_of_mem_tail habove)
      · exact Or.inr (List.mem_cons_of_mem _ hparts)
    · rcases ih h with habove | hparts
      · rcases List.mem_cons.mp habove with rfl | habove
        · exact Or.inr List.mem_cons_self
        · exact Or.inl habove
      · exact Or.inr (List.mem_cons_of_mem _ hparts)

theorem dots_not_mem_foldParents (h : ['.', '.'] ∉ above) :
    ['.', '.'] ∉ foldParents above parts := by
  induction parts generalizing above with
  | nil => exact fun hmem => h (List.mem_reverse.mp hmem)
  | cons first parts ih =>
    unfold foldParents
    split
    · exact ih fun hmem => h (List.mem_of_mem_tail hmem)
    · rename_i hfirst
      refine ih fun hmem => ?_
      rcases List.mem_cons.mp hmem with heq | habove
      · exact hfirst heq.symm
      · exact h habove

theorem isNormal_normalize {path : Path} (h : path.IsTidy) : path.normalize.IsNormal := by
  refine ⟨rfl, fun part hpart => ?_, dots_not_mem_foldParents List.not_mem_nil⟩
  rcases mem_foldParents hpart with hnil | hmem
  · exact absurd hnil List.not_mem_nil
  · exact h part hmem

theorem foldParents_of_not_mem (h : ['.', '.'] ∉ parts) :
    foldParents above parts = above.reverse ++ parts := by
  induction parts generalizing above with
  | nil => simp [foldParents]
  | cons first parts ih =>
    have hfirst := List.ne_of_not_mem_cons h
    have hparts := List.not_mem_of_not_mem_cons h
    rw [foldParents, if_neg (Ne.symm hfirst), ih hparts]
    simp

theorem normalize_normalize (path : Path) : path.normalize.normalize = path.normalize := by
  have hdots : ['.', '.'] ∉ foldParents [] path.parts := dots_not_mem_foldParents List.not_mem_nil
  simp [normalize, foldParents_of_not_mem hdots]

/-- A normal path is its own normal form. -/
theorem IsNormal.normalize_eq {path : Path} (h : path.IsNormal) : path.normalize = path := by
  obtain ⟨anchor, parts⟩ := path
  obtain ⟨rfl, -, hdots⟩ := h
  simp [normalize, foldParents_of_not_mem hdots]

theorem usable_cases (path : Path) :
    (path.hasNul = true ∧ path.usable = .error ⟨path⟩) ∨
      (¬path.hasNul = true ∧ path.usable = .ok path) := by
  unfold usable
  split
  · exact .inl ⟨‹_›, rfl⟩
  · exact .inr ⟨‹_›, rfl⟩

/-! ### Texts -/

/-- The text of a normal path determines the path. -/
theorem IsNormal.toText_inj {p q : Path} (hp : p.IsNormal) (hq : q.IsNormal)
    (h : p.toText = q.toText) : p = q := by
  obtain ⟨panchor, pparts⟩ := p
  obtain ⟨qanchor, qparts⟩ := q
  obtain ⟨rfl, hptidy, -⟩ := hp
  obtain ⟨rfl, hqtidy, -⟩ := hq
  have hjoin : Text.join ['/'] pparts = Text.join ['/'] qparts := by simpa [toText] using h
  have hparts : pparts = qparts :=
    Text.join_inj (fun part hpart => ⟨(hptidy part hpart).1, (hptidy part hpart).2.1⟩)
      (fun part hpart => ⟨(hqtidy part hpart).1, (hqtidy part hpart).2.1⟩) hjoin
  rw [hparts]

end Path

namespace Workspace

variable {ws : Workspace}

theorem isNormal_normalize (hroot : ws.root.IsNormal) {path : Path} (h : path.IsTidy) :
    (ws.normalize path).IsNormal :=
  Path.isNormal_normalize (hroot.2.1.join h)

/-- Normalising in a workspace leaves a normal path as it is. -/
theorem normalize_eq {path : Path} (h : path.IsNormal) : ws.normalize path = path := by
  have habsolute : path.isAbsolute = true := by simp [Path.isAbsolute, h.1]
  rw [normalize, Path.join, if_pos habsolute, h.normalize_eq]

end Workspace

end TerraformTrace
