import TerraformTrace.Proofs.Confinement

/-!
# TerraformTrace.Proofs.FileChange

What a change of one file does to look-ups. Writing a file, with the directories above it
that are missing, or deleting one changes no look-up in any directory but that of the file:
elsewhere the same files are listed and read, but for new directories among the entries,
and a directory has no text, whatever the encoding is called, but for a name with a NUL
character: then reading it is an error, as reading a file is.
-/

namespace TerraformTrace

open Hcl

/-- The workspace with another tree. -/
def Workspace.withTree (ws : Workspace) (tree : FileTree) : Workspace :=
  ws.withDisk { ws.disk with tree }

/-! ### The same texts -/

/-- Files with the same texts before and after a change, but for files that were added and
have no text. -/
inductive SameTexts (before after : Workspace) : List Path → List Path → Prop
  | nil : SameTexts before after [] []
  | same {path : Path} {paths paths' : List Path} :
    Direct.text? after path = Direct.text? before path → SameTexts before after paths paths' →
    SameTexts before after (path :: paths) (path :: paths')
  | added {path : Path} {paths paths' : List Path} :
    Direct.text? after path = .ok none → SameTexts before after paths paths' →
    SameTexts before after paths (path :: paths')

namespace SameTexts

variable {before after : Workspace} {paths paths' : List Path}

theorem firstValue_eq (h : SameTexts before after paths paths')
    (extract : Path → Text → Except Abort (Option Text)) :
    Direct.firstValue after extract paths' = Direct.firstValue before extract paths := by
  induction h with
  | nil => rfl
  | same htext _ ih => rw [Direct.firstValue, Direct.firstValue, htext, ih]
  | added htext _ ih =>
    rw [Direct.firstValue, htext]
    exact ih

theorem callsIn_eq (h : SameTexts before after paths paths') (dir : Path) :
    Direct.callsIn after dir paths' = Direct.callsIn before dir paths := by
  induction h with
  | nil => rfl
  | same htext _ ih => rw [Direct.callsIn, Direct.callsIn, htext, ih]
  | added htext _ ih =>
    rw [Direct.callsIn, htext, ih]
    cases Direct.callsIn before dir _ with
    | error abort => rfl
    | ok calls => rfl

end SameTexts

/-- The files of a directory have the same texts before and after a change. -/
structure Workspace.SameIn (before after : Workspace) (dir : Path) : Prop where
  settings : after.settings = before.settings
  files : ∀ suffixes,
    (∃ abort, Direct.files before dir suffixes = .error abort ∧
      Direct.files after dir suffixes = .error abort) ∨
    ∃ paths paths', Direct.files before dir suffixes = .ok paths ∧
      Direct.files after dir suffixes = .ok paths' ∧ SameTexts before after paths paths'

namespace Workspace.SameIn

variable {before after : Workspace} {dir : Path}

theorem valueIn_eq (h : before.SameIn after dir) (suffixes : List Text)
    (extract : Path → Text → Except Abort (Option Text)) :
    Direct.valueIn after suffixes extract dir = Direct.valueIn before suffixes extract dir := by
  unfold Direct.valueIn
  rcases h.files suffixes with ⟨abort, hbefore, hafter⟩ | ⟨paths, paths', hbefore, hafter, hsame⟩
  · rw [hbefore, hafter]
    rfl
  · rw [hbefore, hafter]
    show (Direct.firstValue after extract paths' >>= _) =
      (Direct.firstValue before extract paths >>= _)
    rw [hsame.firstValue_eq extract]

theorem moduleCalls_eq (h : before.SameIn after dir) :
    Direct.moduleCalls after dir = Direct.moduleCalls before dir := by
  unfold Direct.moduleCalls
  rw [h.settings]
  rcases h.files before.settings.configurationSuffixes with
    ⟨abort, hbefore, hafter⟩ | ⟨paths, paths', hbefore, hafter, hsame⟩
  · rw [hbefore, hafter]
    rfl
  · rw [hbefore, hafter]
    exact hsame.callsIn_eq dir

/-- Every look-up comes to the same. -/
theorem recompute_eq (h : before.SameIn after dir) (lookup : Lookup) :
    lookup.recompute after dir = lookup.recompute before dir := by
  have hvalue : ∀ suffixes extract, Direct.valueIn after suffixes extract dir =
      Direct.valueIn before suffixes extract dir := h.valueIn_eq
  cases lookup with
  | calls => simp only [Lookup.recompute, h.moduleCalls_eq]
  | data ref =>
    simp only [Lookup.recompute, Direct.dataArgument, Direct.declared, h.settings, hvalue]
  | _ =>
    simp only [Lookup.recompute, Direct.override, Direct.localValue, Direct.output,
      Direct.default, Direct.declared, h.settings, hvalue]

end Workspace.SameIn

/-! ### Files and texts of a tree -/

section Reading

variable {ws : Workspace} {tree : FileTree} {dir path : Path}

/-- Whether a directory can be listed does not depend on the tree. Where it can, its files
are among its entries. -/
theorem Direct.files_cases (ws : Workspace) (dir : Path) :
    (∃ abort, ∀ tree suffixes, Direct.files (ws.withTree tree) dir suffixes = .error abort) ∨
    (∀ tree suffixes, Direct.files (ws.withTree tree) dir suffixes = .ok []) ∨
    dir.hasNul = false ∧ ∀ tree suffixes, Direct.files (ws.withTree tree) dir suffixes =
        .ok (((tree.entries dir).filter fun name =>
          suffixes.any (Text.endsWith · name)).map dir.entry) := by
  by_cases hbroken : dir ∈ ws.disk.outages.broken
  · exact .inl ⟨.access (.brokenListing dir), fun tree suffixes => by
      simp [Direct.files, Disk.list, Workspace.withTree, Workspace.withDisk, hbroken]⟩
  by_cases hunlistable : dir ∈ ws.disk.outages.unlistable
  · exact .inr (.inl fun tree suffixes => by
      simp [Direct.files, Disk.list, Workspace.withTree, Workspace.withDisk, hbroken, hunlistable])
  by_cases hnul : dir.hasNul = true
  · exact .inl ⟨.access (.unusablePath ⟨dir⟩), fun tree suffixes => by
      simp [Direct.files, Disk.list, Workspace.withTree, Workspace.withDisk, hbroken, hunlistable,
        hnul]⟩
  · refine .inr (.inr ⟨by simpa using hnul, fun tree suffixes => ?_⟩)
    simp only [Direct.files, Disk.list, Workspace.withTree, Workspace.withDisk, FileTree.entries,
      List.contains_eq_mem, hbroken, hunlistable, hnul, decide_false, Bool.false_eq_true, if_false]
    cases tree.list dir <;> rfl

theorem Direct.text?_withTree (h : tree.content path = ws.disk.tree.content path) :
    Direct.text? (ws.withTree tree) path = Direct.text? ws path := by
  simp only [Direct.text?, Disk.readText, Workspace.withTree, Workspace.withDisk, h]

/-- Where there is no file there is no text. -/
theorem Direct.text?_of_content {error : WalkError} (hencoding : '\x00' ∉ ws.disk.encoding)
    (hnul : path.hasNul = false) (h : ws.disk.tree.content path = .error error) :
    Direct.text? ws path = .ok none := by
  unfold Direct.text? Disk.readText
  by_cases hunreadable : ws.disk.outages.unreadable.contains path = true
  · rw [if_pos hunreadable]
  · rw [if_neg hunreadable, if_neg (by simpa using hencoding), if_neg (by simp [hnul]), h]

/-- The files have the same texts if the entries of the directory have. -/
theorem Workspace.SameIn.of_entries (h : ∀ keep : Text → Bool, SameTexts ws (ws.withTree tree)
      (((ws.disk.tree.entries dir).filter keep).map dir.entry)
      (((tree.entries dir).filter keep).map dir.entry)) :
    ws.SameIn (ws.withTree tree) dir := by
  refine ⟨rfl, fun suffixes => ?_⟩
  rcases Direct.files_cases ws dir with ⟨abort, hfiles⟩ | hfiles | ⟨-, hfiles⟩
  · exact .inl ⟨abort, hfiles ws.disk.tree suffixes, hfiles tree suffixes⟩
  · exact .inr ⟨_, _, hfiles ws.disk.tree suffixes, hfiles tree suffixes, .nil⟩
  · exact .inr ⟨_, _, hfiles ws.disk.tree suffixes, hfiles tree suffixes, h _⟩

/-- The same names with the same texts. -/
theorem SameTexts.of_names {names : List Text}
    (h : ∀ name ∈ names, Direct.text? (ws.withTree tree) (dir.entry name) =
      Direct.text? ws (dir.entry name)) (keep : Text → Bool) :
    SameTexts ws (ws.withTree tree) ((names.filter keep).map dir.entry)
      ((names.filter keep).map dir.entry) := by
  induction names with
  | nil => exact .nil
  | cons name names ih =>
    have hrest := ih (List.forall_mem_cons.mp h).2
    rw [List.filter_cons]
    split
    · exact .same (h name List.mem_cons_self) hrest
    · exact hrest

/-- One more name without a text, wherever it stands in the order. -/
theorem SameTexts.of_insertBy {names : List Text} {name : Text} {le : Text → Text → Bool}
    (h : ∀ name ∈ names, Direct.text? (ws.withTree tree) (dir.entry name) =
      Direct.text? ws (dir.entry name))
    (hname : Direct.text? (ws.withTree tree) (dir.entry name) = .ok none)
    (keep : Text → Bool) :
    SameTexts ws (ws.withTree tree) ((names.filter keep).map dir.entry)
      (((Text.insertBy le name names).filter keep).map dir.entry) := by
  -- where the new name comes first it is read and skipped
  have hhere : ∀ {names : List Text}, (∀ name ∈ names,
      Direct.text? (ws.withTree tree) (dir.entry name) = Direct.text? ws (dir.entry name)) →
      SameTexts ws (ws.withTree tree) ((names.filter keep).map dir.entry)
        (((name :: names).filter keep).map dir.entry) := by
    intro names hnames
    rw [List.filter_cons]
    split
    · exact .added hname (.of_names hnames keep)
    · exact .of_names hnames keep
  induction names with
  | nil => exact hhere h
  | cons first names ih =>
    unfold Text.insertBy
    split
    · exact hhere h
    · have hrest := ih (List.forall_mem_cons.mp h).2
      rw [List.filter_cons, List.filter_cons]
      split
      · exact .same (h first List.mem_cons_self) hrest
      · exact hrest

end Reading

/-! ### Trees that differ at one place -/

/-- Two trees that differ only at and right around a place: elsewhere the same stands and
the same is listed, and at or below it nothing is listed in either tree. -/
structure FileTree.DiffersAt (place : List Text) (tree other : FileTree) : Prop where
  node : ∀ here, ¬ place <+: here → other.node? here = tree.node? here
  children : ∀ here, ¬ place <+: here → here ≠ place.dropLast →
    other.children here = tree.children here
  entries : ∀ path : Path, path.IsNormal → place <+: path.parts →
    tree.entries path = [] ∧ other.entries path = []

namespace FileTree.DiffersAt

variable {place : List Text} {tree other : FileTree}

theorem find_eq (h : tree.DiffersAt place other) {path : Path} (hpath : path.IsNormal)
    (hplace : ¬ place <+: path.parts) : other.find path = tree.find path :=
  find_congr hpath fun here hhere => h.node here fun hbegins => hplace (hbegins.trans hhere)

theorem content_eq (h : tree.DiffersAt place other) {path : Path} (hpath : path.IsNormal)
    (hplace : ¬ place <+: path.parts) : other.content path = tree.content path := by
  unfold content
  rw [h.find_eq hpath hplace]

end FileTree.DiffersAt

/-- A place at or below an entry of a directory is that entry, if it is not at or below the
directory. -/
theorem eq_append_of_isPrefix {place here : List Text} {name : Text}
    (h : place <+: here ++ [name]) (hplace : ¬ place <+: here) : place = here ++ [name] := by
  rcases List.prefix_concat_iff.mp h with heq | hbegins
  · exact heq
  · exact absurd hbegins hplace

namespace FileTree

variable {tree : FileTree} {place : List Text}

/-- A new directory has no entries. -/
theorem entries_put_directory (h : tree.IsVacant place) (hplace : place ≠ []) {path : Path}
    (hpath : path.IsNormal) (hbegins : place <+: path.parts) :
    (tree.put place .directory).entries path = [] := by
  obtain ⟨rest, hrest⟩ := hbegins
  cases rest with
  | nil =>
    rw [List.append_nil] at hrest
    refine entries_eq_nil hpath fun _ => ?_
    have hlength := List.length_pos_iff.mpr hplace
    rw [← hrest,
      children_put fun heq => by have := congrArg List.length heq; simp at this; omega]
    refine List.eq_nil_iff_forall_not_mem.mpr fun name hname => ?_
    obtain ⟨node, hnode⟩ := mem_places_of_mem_children hname
    exact h _ hnode (List.prefix_append _ _)
  | cons name rest =>
    -- further down there is not even a place
    have hbelow : place ++ [name] <+: path.parts := ⟨rest, by simp [← hrest]⟩
    refine entries_of_node? hpath hbelow ?_
    rw [node?_put hplace, if_neg (by simp), h.node?_eq_none hplace (List.prefix_append _ _)]
    nofun

theorem differsAt_put_directory (h : tree.IsVacant place) (hplace : place ≠ []) :
    tree.DiffersAt place (tree.put place .directory) where
  node here hhere := by
    rw [node?_put hplace, if_neg fun heq : here = place => hhere (heq ▸ List.prefix_refl _)]
  children here _ hhere := children_put hhere
  entries path hpath hbegins := by
    refine ⟨entries_of_node? hpath hbegins ?_, entries_put_directory h hplace hpath hbegins⟩
    rw [h.node?_eq_none hplace (List.prefix_refl _)]
    nofun

/-- A directory has no text. -/
theorem content_put_directory {path : Path} (hpath : path.IsNormal) (hparts : path.parts ≠ []) :
    ∃ error, (tree.put path.parts .directory).content path = .error error := by
  unfold content
  split
  next found content hfile =>
    obtain ⟨hspelled, hwalk⟩ := find_eq_ok hpath hfile
    have hnode := (walk_eq_ok hpath.2.2 hwalk).2
    rw [hspelled, node?_put hparts, if_pos rfl] at hnode
    cases hnode
  · exact ⟨_, rfl⟩
  · exact ⟨_, rfl⟩

theorem isFileName_of_entries (hnames : tree.HasFileNames) {path : Path} {name : Text}
    (h : name ∈ tree.entries path) : isFileName name = true := by
  unfold entries at h
  cases hlist : tree.list path with
  | error error => simp [hlist] at h
  | ok names =>
    rw [hlist] at h
    exact isFileName_of_list hnames hlist name h

/-- What holds of all places, and of a new one, holds when it is put there. -/
theorem forall_places_put {P : List Text × Node → Prop} {node : Node} (hnew : P (place, node))
    (h : ∀ entry ∈ tree.places, P entry) : ∀ entry ∈ (tree.put place node).places, P entry :=
  List.forall_mem_cons.mpr ⟨hnew, fun entry hmem => h entry (List.mem_filter.mp hmem).1⟩

theorem HasFileNames.put (h : tree.HasFileNames) (hplace : ∀ name ∈ place, isFileName name = true)
    (node : Node) : (tree.put place node).HasFileNames :=
  forall_places_put hplace h

theorem IsVacant.put {other : List Text} (h : tree.IsVacant place) (hother : ¬ place <+: other)
    (node : Node) : (tree.put other node).IsVacant place :=
  forall_places_put hother h

end FileTree

/-! ### Look-ups elsewhere -/

namespace Workspace.SameIn

variable {ws : Workspace} {tree : FileTree} {place : List Text} {dir : Path}

/-- A change at a place makes no difference but in the directory of the place. -/
theorem of_differsAt (hnames : ws.disk.tree.HasFileNames)
    (h : ws.disk.tree.DiffersAt place tree) (hdir : dir.IsNormal)
    (hplace : dir.parts ≠ place.dropLast) :
    ws.SameIn (ws.withTree tree) dir := by
  refine .of_entries fun keep => ?_
  by_cases hbelow : place <+: dir.parts
  · obtain ⟨hbefore, hafter⟩ := h.entries dir hdir hbelow
    rw [hbefore, hafter]
    exact .nil
  · have hentries : tree.entries dir = ws.disk.tree.entries dir := by
      unfold FileTree.entries
      rw [FileTree.list_congr hdir (h.find_eq hdir hbelow)
        (h.children _ hbelow hplace)]
    rw [hentries]
    refine .of_names (fun name hname => Direct.text?_withTree ?_) keep
    have hfile := FileTree.isFileName_of_entries hnames hname
    refine h.content_eq (hdir.entry hfile) fun hbegins => hplace ?_
    rw [Path.entry_eq hfile] at hbegins
    rw [eq_append_of_isPrefix hbegins hbelow, List.dropLast_concat]

/-- A new directory makes no difference anywhere: in the directory above it is one more
entry without a text. -/
theorem of_put_directory (hnames : ws.disk.tree.HasFileNames)
    (hencoding : '\x00' ∉ ws.disk.encoding) {name : Text}
    (hname : isFileName name = true) (hnul : ∀ part ∈ place ++ [name], '\x00' ∉ part)
    (hvacant : ws.disk.tree.IsVacant (place ++ [name])) (hdir : dir.IsNormal) :
    ws.SameIn (ws.withTree (ws.disk.tree.put (place ++ [name]) .directory)) dir := by
  have hdiffers := FileTree.differsAt_put_directory hvacant (by simp)
  by_cases hplace : dir.parts = place
  · subst hplace
    have hhere : ¬ dir.parts ++ [name] <+: dir.parts :=
      fun hbegins => absurd hbegins.length_le (by simp)
    refine .of_entries fun keep => ?_
    unfold FileTree.entries FileTree.list
    rw [hdiffers.find_eq hdir hhere]
    cases hfound : ws.disk.tree.find dir with
    | error error => exact .nil
    | ok found =>
      obtain ⟨found, node⟩ := found
      cases node with
      | file content => exact .nil
      | directory =>
        obtain rfl := (FileTree.find_eq_ok hdir hfound).1
        dsimp only
        rw [FileTree.children_put_parent hvacant]
        refine .of_insertBy (fun other hother => Direct.text?_withTree ?_) ?_ keep
        · -- the old entries are not at or below a place where nothing was
          obtain ⟨node, hentry⟩ := FileTree.mem_places_of_mem_children hother
          have hfile := hnames _ hentry other (by simp)
          refine hdiffers.content_eq (hdir.entry hfile) fun hbegins => ?_
          rw [Path.entry_eq hfile] at hbegins
          exact hvacant _ hentry hbegins
        · have hparts : (dir.entry name).parts = dir.parts ++ [name] := by
            rw [Path.entry_eq hname]
          obtain ⟨error, herror⟩ := FileTree.content_put_directory
            (hdir.entry hname) (by simp [hparts])
          rw [hparts] at herror
          refine Direct.text?_of_content hencoding (Path.hasNul_eq_false.mpr ?_) herror
          rw [hparts]
          exact hnul
  · refine of_differsAt hnames hdiffers hdir ?_
    rwa [List.dropLast_concat]

end Workspace.SameIn

/-! ### Writing and deleting -/

/-- A directory can be made at the place: there is nothing at all, and the encoding has no NUL
character in its name, as it would be an error to read the directory then. -/
def Disk.CanMake (disk : Disk) (place : List Text) : Prop :=
  disk.tree.IsVacant place ∧ '\x00' ∉ disk.encoding
deriving Decidable

/-- A file can be written at the place: no name has a NUL character in it, the place is not
a directory, and above it there are directories or ones that can be made. -/
structure Disk.CanWrite (disk : Disk) (place : List Text) : Prop where
  nul : ∀ name ∈ place, '\x00' ∉ name
  target : disk.tree.node? place ≠ some .directory
  above : ∀ n < place.length,
    disk.tree.node? (place.take n) = some .directory ∨ disk.CanMake (place.take n)

/-- What has been reached after the first directories above a place were made. -/
structure Workspace.Prepared (ws : Workspace) (place : List Text) (n : Nat)
    (tree : FileTree) : Prop where
  names : tree.HasFileNames
  target : tree.node? place ≠ some .directory
  above : ∀ m, n ≤ m → m < place.length →
    tree.node? (place.take m) = some .directory ∨ (ws.withTree tree).disk.CanMake (place.take m)
  same : ∀ dir : Path, dir.IsNormal → ∀ lookup : Lookup,
    lookup.recompute (ws.withTree tree) dir = lookup.recompute ws dir

namespace Workspace.Prepared

variable {ws : Workspace} {place : List Text} {n : Nat} {tree : FileTree}

/-- One more directory is made, unless it is there. -/
theorem step (h : ws.Prepared place n tree) (hplace : ∀ name ∈ place, isFileName name = true)
    (hnul : ∀ name ∈ place, '\x00' ∉ name) (hn : n < place.length) :
    ws.Prepared place (n + 1) (if (tree.node? (place.take n)).isSome then tree
      else tree.put (place.take n) .directory) := by
  split
  next => exact ⟨h.names, h.target, fun m hm => h.above m (by omega), h.same⟩
  next hnone =>
    have hmissing : tree.node? (place.take n) = none := by simpa using hnone
    obtain ⟨hvacant, hencoding⟩ : (ws.withTree tree).disk.CanMake (place.take n) := by
      rcases h.above n (Nat.le_refl _) hn with hdir | hmake
      · rw [hmissing] at hdir
        cases hdir
      · exact hmake
    have hne : place.take n ≠ [] := by
      intro hnil
      rw [hnil] at hmissing
      cases hmissing
    -- what is still to come is further down, so it stays as it was
    have hdistinct : ∀ m, m ≤ place.length → n < m → place.take m ≠ place.take n := by
      intro m hm hlt heq
      have hlength := congrArg List.length heq
      simp only [List.length_take] at hlength
      omega
    have htaken : ∀ name ∈ place.take n, name ∈ place := fun _ => List.mem_of_mem_take
    refine ⟨h.names.put (fun name hname => hplace name (htaken name hname)) _, ?_,
      fun m hm hlt => ?_, fun dir hdir lookup => ?_⟩
    · have hother := hdistinct place.length (Nat.le_refl _) hn
      rw [List.take_length] at hother
      rw [FileTree.node?_put hne, if_neg hother]
      exact h.target
    · have hother := hdistinct m (by omega) (by omega)
      rcases h.above m (by omega) hlt with hdir | ⟨hfree, -⟩
      · left
        rw [FileTree.node?_put hne, if_neg hother]
        exact hdir
      · refine .inr ⟨hfree.put (fun hbegins => ?_) _, hencoding⟩
        have hlength := hbegins.length_le
        simp only [List.length_take] at hlength
        omega
    · obtain ⟨above, name, happend⟩ : ∃ above name, place.take n = above ++ [name] := by
        rcases List.eq_nil_or_concat (place.take n) with hnil | ⟨above, name, hconcat⟩
        · exact absurd hnil hne
        · exact ⟨above, name, by rw [hconcat, List.concat_eq_append]⟩
      rw [happend] at hvacant htaken ⊢
      have hsame : (ws.withTree tree).SameIn
          ((ws.withTree tree).withTree (tree.put (above ++ [name]) .directory)) dir :=
        .of_put_directory h.names hencoding (hplace name (htaken name (by simp)))
          (fun part hpart => hnul part (htaken part hpart)) hvacant hdir
      exact (hsame.recompute_eq lookup).trans (h.same dir hdir lookup)

/-- All missing directories above a place are made. -/
theorem of_canWrite (hnames : ws.disk.tree.HasFileNames)
    (hplace : ∀ name ∈ place, isFileName name = true) (h : ws.disk.CanWrite place) :
    ws.Prepared place place.length (ws.disk.tree.makeDirectory place.dropLast) := by
  have hsteps : ∀ k ≤ place.length, ws.Prepared place k (((List.range k).map place.take).foldl
        (fun tree above => if (tree.node? above).isSome then tree else tree.put above .directory)
        ws.disk.tree) := by
    intro k
    induction k with
    | zero => exact fun _ => ⟨hnames, h.target, fun m _ => h.above m, fun _ _ _ => rfl⟩
    | succ k ih =>
      intro hk
      rw [List.range_succ, List.map_append, List.foldl_append]
      exact (ih (by omega)).step hplace h.nul (by omega)
  -- the directories above a place are its beginnings, shortest first
  have hlength : place.dropLast.length + 1 = place.length := by
    have hpos := List.length_pos_iff.mpr (FileTree.ne_nil_of_node? h.target)
    rw [List.length_dropLast]
    omega
  have htakes : (List.range place.length).map place.dropLast.take =
      (List.range place.length).map place.take := by
    refine List.map_congr_left fun m hm => ?_
    have hlt := List.mem_range.mp hm
    rw [List.dropLast_eq_take, List.take_take, Nat.min_eq_left (by omega)]
  unfold FileTree.makeDirectory
  rw [hlength, htakes]
  exact hsteps place.length (Nat.le_refl _)

end Workspace.Prepared

section Changes

variable {ws : Workspace} {place : List Text}
  (hnames : ws.disk.tree.HasFileNames)

include hnames

theorem FileTree.HasFileNames.write (hplace : ∀ name ∈ place, isFileName name = true)
    (h : ws.disk.CanWrite place) (content : Bytes) :
    (ws.disk.tree.write place content).HasFileNames :=
  (Workspace.Prepared.of_canWrite hnames hplace h).names.put hplace _

end Changes

end TerraformTrace
