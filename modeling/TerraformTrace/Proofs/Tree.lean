import TerraformTrace.Proofs.Coherent

/-!
# TerraformTrace.Proofs.Tree

Walks through trees of files. A walk along a normal path looks at the places that begin
the path and at nothing else, and a listing looks at the places right below the directory.
Two trees are compared through this: where they agree on those places, they give the same.
-/

namespace TerraformTrace

namespace FileTree

variable {tree other : FileTree} {path : Path} {node : Node} {place : List Text}

/-! ### Walks -/

/-- One step of a walk that does not go up. -/
theorem walk_cons (tree : FileTree) (place : List Text) {part : Text} (h : part ≠ ['.', '.'])
    (parts : List Text) :
    tree.walk place (part :: parts) =
      match tree.node? place with
      | none => .error .missing
      | some (.file _) => .error .notDirectory
      | some .directory =>
        if maxNameBytes < nameBytes part then .error .nameTooLong
        else tree.walk (place ++ [part]) parts := by
  rw [walk]
  cases tree.node? place with
  | none => rfl
  | some node =>
    cases node with
    | file content => rfl
    | directory => simp only [if_neg h]

/-- A walk depends on the places on its way alone. -/
theorem walk_congr {place parts : List Text} (hdots : ['.', '.'] ∉ parts)
    (h : ∀ way, way <+: parts → tree.node? (place ++ way) = other.node? (place ++ way)) :
    tree.walk place parts = other.walk place parts := by
  induction parts generalizing place with
  | nil =>
    have hplace := h [] (List.prefix_refl _)
    rw [List.append_nil] at hplace
    rw [walk, walk, hplace]
  | cons part parts ih =>
    have hpart := Ne.symm (List.ne_of_not_mem_cons hdots)
    have hplace := h [] (List.nil_prefix ..)
    rw [List.append_nil] at hplace
    -- what lies on the way from the next place lies on the way from this one
    have hrest : tree.walk (place ++ [part]) parts = other.walk (place ++ [part]) parts := by
      refine ih (List.not_mem_of_not_mem_cons hdots) fun way hway => ?_
      rw [List.append_assoc]
      exact h (part :: way) (List.cons_prefix_cons.mpr ⟨rfl, hway⟩)
    rw [walk_cons tree _ hpart, walk_cons other _ hpart, hplace, hrest]

/-- What a path leads to depends on the places that begin it alone. -/
theorem find_congr (hpath : path.IsNormal)
    (h : ∀ place, place <+: path.parts → tree.node? place = other.node? place) :
    tree.find path = other.find path := by
  unfold find
  rw [walk_congr hpath.2.2 fun way hway => h way hway]

/-- A normal path leads to the place that it spells. -/
theorem find_eq_ok (hpath : path.IsNormal) (h : tree.find path = .ok (place, node)) :
    place = path.parts ∧ tree.walk [] path.parts = .ok (place, node) := by
  unfold find at h
  split at h
  · cases h
  · exact ⟨(walk_eq_ok hpath.2.2 h).1, h⟩

/-- On the way to a directory there are only directories. -/
theorem node?_of_walk {place parts found : List Text} (hdots : ['.', '.'] ∉ parts)
    (h : tree.walk place parts = .ok (found, .directory)) {way : List Text} (hway : way <+: parts) :
    tree.node? (place ++ way) = some .directory := by
  induction parts generalizing place way with
  | nil =>
    obtain ⟨hfound, hnode⟩ := walk_eq_ok hdots h
    rw [List.prefix_nil.mp hway, ← hfound]
    exact hnode
  | cons part parts ih =>
    rw [walk_cons tree _ (Ne.symm (List.ne_of_not_mem_cons hdots))] at h
    split at h
    · cases h
    · cases h
    next hplace =>
      split at h
      · cases h
      · cases way with
        | nil => rw [List.append_nil, hplace]
        | cons first way =>
          obtain ⟨rfl, hrest⟩ := List.cons_prefix_cons.mp hway
          have hnode := ih (List.not_mem_of_not_mem_cons hdots) h hrest
          rwa [List.append_assoc] at hnode

/-! ### Parts of a tree -/

/-- Leaving out other places changes nothing at a place. -/
theorem node?_filter {keep : List Text × Node → Bool} (h : ∀ node, keep (place, node) = true) :
    FileTree.node? { places := tree.places.filter keep } place = tree.node? place := by
  have hlookup : ∀ places : List (List Text × Node),
      (places.filter keep).lookup place = places.lookup place := by
    intro places
    induction places with
    | nil => rfl
    | cons entry places ih =>
      obtain ⟨here, node⟩ := entry
      -- an entry of the place itself is kept, and any other does not answer for it
      by_cases hhere : here = place
      · subst hhere
        rw [List.filter_cons_of_pos (h node)]
        simp
      · have hne : (place == here) = false := by simpa using Ne.symm hhere
        rw [List.lookup_cons, hne, ← ih, List.filter_cons]
        split
        · rw [List.lookup_cons, hne]
        · rfl
  unfold node?
  rw [hlookup]

/-- Leaving out places that are not right below a directory does not change its listing. -/
theorem children_filter {keep : List Text × Node → Bool}
    (h : ∀ entry ∈ tree.places, entry.1.dropLast = place → keep entry = true) :
    FileTree.children { places := tree.places.filter keep } place = tree.children place := by
  have hkept : ∀ places : List (List Text × Node),
      (∀ entry ∈ places, entry.1.dropLast = place → keep entry = true) →
      ((places.filter keep).filterMap fun entry =>
        if entry.1.dropLast = place then entry.1.getLast? else none) =
      places.filterMap fun entry =>
        if entry.1.dropLast = place then entry.1.getLast? else none := by
    intro places hplaces
    induction places with
    | nil => rfl
    | cons entry places ih =>
      have hrest := ih (List.forall_mem_cons.mp hplaces).2
      by_cases hentry : entry.1.dropLast = place
      · rw [List.filter_cons_of_pos (hplaces entry List.mem_cons_self hentry),
          List.filterMap_cons, List.filterMap_cons, hrest]
      · rw [List.filterMap_cons_none (by exact if_neg hentry), ← hrest, List.filter_cons]
        split
        · rw [List.filterMap_cons_none (by exact if_neg hentry)]
        · rfl
  unfold children
  rw [hkept tree.places h]

/-! ### Putting something somewhere -/

section Put

variable {place : List Text}

theorem node?_of_ne_nil (h : place ≠ []) : tree.node? place = tree.places.lookup place := by
  unfold node?
  rw [if_neg (by simpa using h)]

theorem ne_nil_of_node? (h : tree.node? place ≠ some .directory) : place ≠ [] := by
  rintro rfl
  exact h rfl

theorem node?_put (hplace : place ≠ []) (node : Node) (here : List Text) :
    (tree.put place node).node? here = if here = place then some node else tree.node? here := by
  by_cases hhere : here = place
  · subst hhere
    rw [if_pos rfl, node?_of_ne_nil hplace]
    simp [put]
  · rw [if_neg hhere]
    have hrest : FileTree.node? ⟨tree.places.filter (·.1 ≠ place)⟩ here = tree.node? here :=
      node?_filter fun _ => by simpa using hhere
    rw [← hrest]
    unfold node? put
    have hne : (here == place) = false := by simpa using hhere
    rw [List.lookup_cons, hne]

/-- What is put somewhere is listed in its directory alone. -/
theorem children_put {here : List Text} (h : here ≠ place.dropLast) :
    (tree.put place node).children here = tree.children here := by
  have hrest : FileTree.children ⟨tree.places.filter (·.1 ≠ place)⟩ here = tree.children here := by
    refine children_filter fun entry _ hentry => ?_
    simpa using fun heq : entry.1 = place => h (heq ▸ hentry.symm)
  rw [← hrest]
  unfold children put
  rw [List.filterMap_cons_none (by exact if_neg (Ne.symm h))]

/-- Nothing stands at or below the place. -/
def IsVacant (tree : FileTree) (place : List Text) : Prop :=
  ∀ entry ∈ tree.places, ¬ place <+: entry.1

instance (tree : FileTree) (place : List Text) : Decidable (tree.IsVacant place) :=
  inferInstanceAs (Decidable (∀ entry ∈ tree.places, ¬ place <+: entry.1))

theorem IsVacant.node?_eq_none (h : tree.IsVacant place) (hplace : place ≠ []) {here : List Text}
    (hhere : place <+: here) : tree.node? here = none := by
  have hne : here ≠ [] := fun hnil => hplace (List.prefix_nil.mp (hnil ▸ hhere))
  rw [node?_of_ne_nil hne, List.lookup_eq_none_iff]
  intro entry hentry
  simpa using fun heq : here = entry.1 => h entry hentry (heq ▸ hhere)

/-- A new place is inserted into the listing of its directory. -/
theorem children_put_parent {above : List Text} {name : Text}
    (h : tree.IsVacant (above ++ [name])) :
    (tree.put (above ++ [name]) node).children above =
      Text.insertBy Text.le name (tree.children above) := by
  have hrest : FileTree.children ⟨tree.places.filter (·.1 ≠ above ++ [name])⟩ above =
      tree.children above := by
    refine children_filter fun entry hentry _ => ?_
    simpa using fun heq : entry.1 = above ++ [name] => h entry hentry (heq ▸ List.prefix_refl _)
  rw [← hrest]
  unfold children put Text.sort
  rw [List.filterMap_cons_some (b := name) (by simp)]
  rfl

end Put

/-! ### Listings -/

/-- The names of the entries of a directory, none where nothing can be listed. -/
def entries (tree : FileTree) (path : Path) : List Text :=
  match tree.list path with
  | .ok names => names
  | .error _ => []

/-- What a directory lists is right below it. -/
theorem list_congr (hpath : path.IsNormal) (hfind : tree.find path = other.find path)
    (hchildren : tree.children path.parts = other.children path.parts) :
    tree.list path = other.list path := by
  unfold list
  rw [← hfind]
  cases hfound : tree.find path with
  | error error => rfl
  | ok found =>
    obtain ⟨place, node⟩ := found
    cases node with
    | file content => rfl
    | directory =>
      dsimp only
      rw [(find_eq_ok hpath hfound).1, hchildren]

/-- Nothing is listed but what is right below a directory. -/
theorem entries_eq_nil (hpath : path.IsNormal)
    (h : tree.walk [] path.parts = .ok (path.parts, .directory) → tree.children path.parts = []) :
    tree.entries path = [] := by
  unfold entries list
  cases hfound : tree.find path with
  | error error => rfl
  | ok found =>
    obtain ⟨found, node⟩ := found
    cases node with
    | file content => rfl
    | directory =>
      obtain ⟨rfl, hwalk⟩ := find_eq_ok hpath hfound
      exact h hwalk

/-- Nothing is listed at or below a place without a directory. -/
theorem entries_of_node? (hpath : path.IsNormal) {place : List Text} (hplace : place <+: path.parts)
    (h : tree.node? place ≠ some .directory) : tree.entries path = [] :=
  entries_eq_nil hpath fun hwalk => absurd (node?_of_walk hpath.2.2 hwalk hplace) h

end FileTree

end TerraformTrace
