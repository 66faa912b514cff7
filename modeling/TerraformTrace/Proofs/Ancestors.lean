import TerraformTrace.Proofs.Assignments

/-!
# TerraformTrace.Proofs.Ancestors

The way from a directory to the root of its workspace. A normal path that lies in the
workspace has the root's components at its start, so dropping its last component again
and again ends at the root (`Workspace.upToRoot`), and every directory on the way exists
if the first one does.
-/

namespace TerraformTrace

/-! ### Directories up to the root -/

/-- A directory and this many above it, one above the other. -/
def ancestors : Nat → Path → List Path
  | 0, dir => [dir]
  | steps + 1, dir => dir :: ancestors steps dir.parent

namespace Workspace

variable {ws : Workspace} {dir : Path}

/-- A directory, its parent, and so on up to the root of the workspace. -/
def upToRoot (ws : Workspace) (dir : Path) : List Path :=
  ancestors (dir.parts.length - ws.root.parts.length) dir

theorem upToRoot_root : ws.upToRoot ws.root = [ws.root] := by
  simp [upToRoot, ancestors]

theorem mem_upToRoot : dir ∈ ws.upToRoot dir := by
  unfold upToRoot
  cases dir.parts.length - ws.root.parts.length with
  | zero => exact List.mem_cons_self
  | succ steps => exact List.mem_cons_self

theorem length_le_of_mem_ancestors {steps : Nat} {above : Path}
    (h : above ∈ ancestors steps dir) : above.parts.length ≤ dir.parts.length := by
  induction steps generalizing dir with
  | zero =>
    obtain rfl := List.mem_singleton.mp h
    exact Nat.le_refl _
  | succ steps ih =>
    rcases List.mem_cons.mp h with rfl | habove
    · exact Nat.le_refl _
    · refine Nat.le_trans (ih habove) ?_
      simp only [Path.parent, List.length_dropLast]
      omega

section Below

variable (hroot : ws.root.IsNormal) (hdir : dir.IsNormal)

include hroot hdir

theorem contains_iff : ws.contains dir = true ↔ ws.root.parts <+: dir.parts := by
  simp [contains, normalize_eq hdir, Path.isWithin, hroot.1, hdir.1]

theorem eq_root_of_length (hcontains : ws.contains dir = true)
    (hlength : dir.parts.length ≤ ws.root.parts.length) :
    dir = ws.root := by
  have hparts := ((contains_iff hroot hdir).mp hcontains).eq_of_length_le hlength
  obtain ⟨anchor, parts⟩ := dir
  obtain ⟨hanchor, -⟩ := hdir
  simp only at hanchor hparts
  rw [hanchor, ← hparts, ← hroot.1]

section NotRoot

variable (hcontains : ws.contains dir = true)
  (hne : dir ≠ ws.root)

include hcontains hne

/-- Below the root there is a directory above. -/
theorem length_lt_of_ne_root : ws.root.parts.length < dir.parts.length :=
  Nat.lt_of_not_le fun hlength => hne (eq_root_of_length hroot hdir hcontains hlength)

theorem contains_parent : ws.contains dir.parent = true := by
  have hlength := length_lt_of_ne_root hroot hdir hcontains hne
  rw [contains_iff hroot hdir.parent]
  have hwithin := (contains_iff hroot hdir).mp hcontains
  refine List.prefix_of_prefix_length_le hwithin (List.dropLast_prefix _) ?_
  simp only [Path.parent, List.length_dropLast]
  omega

theorem upToRoot_of_ne : ws.upToRoot dir = dir :: ws.upToRoot dir.parent := by
  have hlength := length_lt_of_ne_root hroot hdir hcontains hne
  have hsteps : dir.parts.length - ws.root.parts.length =
      (dir.parent.parts.length - ws.root.parts.length) + 1 := by
    simp only [Path.parent, List.length_dropLast]
    omega
  unfold upToRoot
  rw [hsteps, ancestors]

theorem mem_upToRoot_of_parent {above : Path} (h : above ∈ ws.upToRoot dir.parent) :
    above ∈ ws.upToRoot dir := by
  rw [upToRoot_of_ne hroot hdir hcontains hne]
  exact List.mem_cons_of_mem _ h

theorem length_parent_lt : dir.parent.parts.length < dir.parts.length := by
  have hlength := length_lt_of_ne_root hroot hdir hcontains hne
  simp only [Path.parent, List.length_dropLast]
  omega

theorem parent_ne : dir.parent ≠ dir := by
  intro hself
  have hlength := length_parent_lt hroot hdir hcontains hne
  rw [hself] at hlength
  exact Nat.lt_irrefl _ hlength

end NotRoot

/-- A directory is not above itself. -/
theorem ne_of_mem_tail_upToRoot {above : Path} (hcontains : ws.contains dir = true)
    (h : above ∈ (ws.upToRoot dir).tail) : above ≠ dir := by
  by_cases hne : dir = ws.root
  · rw [hne, upToRoot_root] at h
    exact absurd h List.not_mem_nil
  · rw [upToRoot_of_ne hroot hdir hcontains hne] at h
    have hle := length_le_of_mem_ancestors h
    have hlt := length_parent_lt hroot hdir hcontains hne
    rintro rfl
    omega

end Below

end Workspace

/-! ### Directories above a directory exist -/

theorem FileTree.walk_dropLast {tree : FileTree} {place parts found : List Text} {node : Node}
    (hdots : ['.', '.'] ∉ parts) (hne : parts ≠ [])
    (h : tree.walk place parts = .ok (found, node)) :
    tree.walk place parts.dropLast = .ok (place ++ parts.dropLast, .directory) := by
  induction parts generalizing place with
  | nil => exact absurd rfl hne
  | cons part parts ih =>
    have hpart := List.ne_of_not_mem_cons hdots
    have hparts := List.not_mem_of_not_mem_cons hdots
    unfold walk at h
    split at h
    · cases h
    · cases h
    next hnode =>
      rw [if_neg (Ne.symm hpart)] at h
      split at h
      · cases h
      next hname =>
        cases parts with
        | nil =>
          simp only [List.dropLast_singleton, List.append_nil]
          unfold walk
          rw [hnode]
        | cons next parts =>
          have hrest := ih hparts (List.cons_ne_nil _ _) h
          rw [List.dropLast_cons_cons]
          unfold walk
          rw [hnode]
          simp only [if_neg (Ne.symm hpart), if_neg hname, hrest]
          simp

theorem Text.join_dropLast_prefix (separator : Text) (pieces : List Text) :
    join separator pieces.dropLast <+: join separator pieces := by
  induction pieces with
  | nil => exact List.prefix_refl _
  | cons piece pieces ih =>
    cases pieces with
    | nil => exact List.nil_prefix
    | cons next pieces =>
      rw [List.dropLast_cons_cons, join_cons, join_cons, List.prefix_append_right_inj]
      cases hrest : (next :: pieces).dropLast with
      | nil => exact List.nil_prefix
      | cons other others =>
        rw [hrest] at ih
        unfold joinRest
        rwa [List.prefix_append_right_inj]

theorem FileTree.nameBytes_le_of_prefix {name longer : Text} (h : name <+: longer) :
    nameBytes name ≤ nameBytes longer := by
  have hgrow : ∀ (rest : Text) (bytes : Nat),
      bytes ≤ rest.foldl (fun bytes c => bytes + c.utf8Size) bytes := by
    intro rest
    induction rest with
    | nil => exact fun bytes => Nat.le_refl bytes
    | cons c rest ih => exact fun bytes => Nat.le_trans (Nat.le_add_right _ _) (ih _)
  obtain ⟨rest, rfl⟩ := h
  unfold nameBytes
  rw [List.foldl_append]
  exact hgrow rest _

/-- A directory lies in a directory. -/
theorem Workspace.HasDirectory.parent {ws : Workspace} {dir : Path}
    (h : ws.HasDirectory dir) : ws.HasDirectory dir.parent := by
  refine ⟨h.normal.parent, ?_⟩
  have hdir := h.isDirectory
  by_cases hparts : dir.parts = []
  · have hself : dir.parent = dir := by
      rw [Path.parent, hparts, List.dropLast_nil, ← hparts]
    rwa [hself]
  · have hbytes : FileTree.nameBytes dir.parent.toText ≤ FileTree.nameBytes dir.toText := by
      refine FileTree.nameBytes_le_of_prefix ?_
      simp only [Path.toText, Path.parent, h.normal.1, List.prefix_cons_inj]
      exact Text.join_dropLast_prefix _ _
    unfold FileTree.isDirectory FileTree.find at hdir ⊢
    by_cases hlong : FileTree.maxPathBytes < FileTree.nameBytes dir.toText
    · simp [hlong] at hdir
    · rw [if_neg hlong] at hdir
      rw [if_neg (by omega)]
      cases hwalk : ws.disk.tree.walk [] dir.parts with
      | error error => simp [hwalk] at hdir
      | ok found => rw [Path.parent, FileTree.walk_dropLast h.normal.2.2 hparts hwalk]

/-- The directories above a directory of the workspace, up to the root, are directories of
the workspace. -/
theorem Workspace.HasDirectory.above {ws : Workspace} {dir above : Path}
    (hroot : ws.root.IsNormal) (h : ws.HasDirectory dir)
    (hcontains : ws.contains dir = true)
    (habove : above ∈ ws.upToRoot dir) :
    ws.HasDirectory above ∧ ws.contains above = true := by
  -- by induction on the number of components, which the root has the fewest of
  generalize hcount : dir.parts.length = count
  induction count using Nat.strongRecOn generalizing dir with
  | ind count ih =>
    by_cases hne : dir = ws.root
    · rw [hne, upToRoot_root] at habove
      rw [List.mem_singleton.mp habove, ← hne]
      exact ⟨h, hcontains⟩
    · rw [upToRoot_of_ne hroot h.normal hcontains hne] at habove
      rcases List.mem_cons.mp habove with rfl | habove
      · exact ⟨h, hcontains⟩
      · exact ih _ (hcount ▸ length_parent_lt hroot h.normal hcontains hne) h.parent
          (contains_parent hroot h.normal hcontains hne) habove rfl

end TerraformTrace
