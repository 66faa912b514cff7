import TerraformTrace.Proofs.FileChange
import TerraformTrace.Proofs.Indistinct

/-!
# TerraformTrace.Proofs.Unreadable

A file that cannot be read is as good as absent. It is still listed, so an engine tries to read
it and reports that it cannot; but then it goes on with the next file, as it does where the file
does not exist. **Taking such files away changes no answer** (`replies_without_unreadable`).

**What counts as unreadable** is for the codec of the encoding to say, whatever codec it is: it
finds that the bytes are not text. A codec may also give up over a file, and that ends the
whole request. Such files are not as good as absent (`unmarked_answer_ne`).

**One directory at a time.** A walk to a place that stays is the same without the files that
are taken away (`walk_without`), so a directory lists the same names but those of the files. What
is left is to go through the names: a name that stays gives the same text, and one that is
taken away gave nothing.
-/

namespace TerraformTrace

open Hcl

variable {path : Path}

/-! ### Trees without some files -/

namespace FileTree

variable {place : List Text}

/-- The tree without what stands at some places. -/
def without (tree : FileTree) (places : List (List Text)) : FileTree :=
  { places := tree.places.filter fun entry => !places.contains entry.1 }

variable {tree : FileTree} {places : List (List Text)}

theorem node?_without_of_not_mem (h : place ∉ places) :
    (tree.without places).node? place = tree.node? place :=
  node?_filter fun _ => by simpa using h

theorem node?_without_of_mem (h : place ∈ places) (hne : place ≠ []) :
    (tree.without places).node? place = none := by
  rw [node?_of_ne_nil hne, List.lookup_eq_none_iff]
  intro entry hentry
  have hkept : entry.1 ∉ places := by simpa using (List.mem_filter.mp hentry).2
  simpa using fun heq : place = entry.1 => hkept (heq ▸ h)

/-- A directory lists the same but for the places taken away. -/
theorem children_without (place : List Text) :
    (tree.without places).children place =
      (tree.children place).filter fun name => !places.contains (place ++ [name]) := by
  unfold children without
  rw [← Text.sort_filter, List.filterMap_filter, List.filter_filterMap]
  refine congrArg (fun f => Text.sort (tree.places.filterMap f)) (funext fun entry => ?_)
  by_cases hplace : entry.1.dropLast = place
  · rw [if_pos hplace]
    cases hlast : entry.1.getLast? with
    | none => simp
    | some name =>
      obtain ⟨above, habove⟩ := List.getLast?_eq_some_iff.mp hlast
      rw [habove, List.dropLast_concat] at hplace
      rw [habove, hplace]
      rfl
  · simp [if_neg hplace]

section Walks

variable (hfiles : ∀ place ∈ places, ∃ content, tree.node? place = some (.file content))

include hfiles

/-- A walk ends the same without the files, or else it came to one of them and now misses it. -/
theorem walk_without (here parts : List Text) :
    (tree.without places).walk here parts = tree.walk here parts ∨
      (tree.without places).walk here parts = .error .missing ∧
        (tree.walk here parts = .error .notDirectory ∨
          ∃ place content, tree.walk here parts = .ok (place, .file content)) := by
  have hgone : ∀ place ∈ places, (tree.without places).node? place = none ∧
      ∃ content, tree.node? place = some (.file content) := by
    intro place hplace
    obtain ⟨content, hnode⟩ := hfiles place hplace
    have hne : place ≠ [] := by
      rintro rfl
      cases hnode
    exact ⟨node?_without_of_mem hplace hne, content, hnode⟩
  induction parts generalizing here with
  | nil =>
    rw [walk, walk]
    by_cases hhere : here ∈ places
    · obtain ⟨hnone, content, hnode⟩ := hgone here hhere
      rw [hnone, hnode]
      exact .inr ⟨rfl, .inr ⟨here, content, rfl⟩⟩
    · rw [node?_without_of_not_mem hhere]
      exact .inl rfl
  | cons part parts ih =>
    rw [walk, walk]
    -- a file on the way stops the walk, whether it is there or not
    by_cases hhere : here ∈ places
    · obtain ⟨hnone, content, hnode⟩ := hgone here hhere
      rw [hnone, hnode]
      exact .inr ⟨rfl, .inl rfl⟩
    · rw [node?_without_of_not_mem hhere]
      cases tree.node? here with
      | none => exact .inl rfl
      | some node =>
        cases node with
        | file content => exact .inl rfl
        | directory =>
          dsimp only
          split
          · exact ih _
          · split
            · exact .inl rfl
            · exact ih _

theorem find_without (path : Path) :
    (tree.without places).find path = tree.find path ∨
      (tree.without places).find path = .error .missing ∧
        (tree.find path = .error .notDirectory ∨
          ∃ place content, tree.find path = .ok (place, .file content)) := by
  unfold find
  split
  · exact .inl rfl
  · exact walk_without hfiles [] path.parts

theorem isDirectory_without (path : Path) :
    (tree.without places).isDirectory path = tree.isDirectory path := by
  unfold isDirectory
  rcases find_without hfiles path with hfind | ⟨hmissing, hfind | ⟨place, content, hfind⟩⟩
  · rw [hfind]
  · rw [hmissing, hfind]
  · rw [hmissing, hfind]

theorem find_without_of_directory (h : tree.find path = .ok (place, .directory)) :
    (tree.without places).find path = .ok (place, .directory) := by
  rcases find_without hfiles path with hfind | ⟨-, hfind | ⟨_, _, hfind⟩⟩
  · rw [hfind, h]
  · rw [h] at hfind
    cases hfind
  · rw [h] at hfind
    cases hfind

/-- What is listed is listed but for the places taken away, and where nothing is listed
nothing is listed then. -/
theorem entries_without (path : Path) :
    (∃ place, tree.find path = .ok (place, .directory) ∧
      tree.entries path = tree.children place ∧
      (tree.without places).entries path =
        (tree.children place).filter fun name => !places.contains (place ++ [name])) ∨
    tree.entries path = [] ∧ (tree.without places).entries path = [] := by
  unfold entries list
  rcases find_without hfiles path with hfind | ⟨hmissing, hfind | ⟨place, content, hfind⟩⟩
  · rw [hfind]
    cases hfound : tree.find path with
    | error error => exact .inr ⟨rfl, rfl⟩
    | ok found =>
      obtain ⟨place, node⟩ := found
      cases node with
      | file content => exact .inr ⟨rfl, rfl⟩
      | directory => exact .inl ⟨place, rfl, rfl, children_without place⟩
  · rw [hmissing, hfind]
    exact .inr ⟨rfl, rfl⟩
  · rw [hmissing, hfind]
    exact .inr ⟨rfl, rfl⟩

end Walks

/-! ### Entries of a directory -/

theorem walk_of_directory {here : List Text} (h : tree.node? here = some .directory) (part : Text)
    (parts : List Text) :
    tree.walk here (part :: parts) =
      if part = ['.', '.'] then tree.walk here.dropLast parts
      else if maxNameBytes < nameBytes part then .error .nameTooLong
      else tree.walk (here ++ [part]) parts := by
  rw [walk, h]

/-- A walk that comes to a directory goes on to its entries. -/
theorem walk_concat {here parts : List Text} (h : tree.walk here parts = .ok (place, .directory))
    {name : Text} (hname : name ≠ ['.', '.']) :
    tree.walk here (parts ++ [name]) =
      if maxNameBytes < nameBytes name then .error .nameTooLong
      else tree.walk (place ++ [name]) [] := by
  induction parts generalizing here with
  | nil =>
    rw [walk] at h
    split at h
    next node hnode =>
      cases h
      rw [List.nil_append, walk_of_directory hnode, if_neg hname]
    next => cases h
  | cons part parts ih =>
    cases hnode : tree.node? here with
    | none =>
      rw [walk, hnode] at h
      cases h
    | some node =>
      cases node with
      | file content =>
        rw [walk, hnode] at h
        cases h
      | directory =>
        rw [List.cons_append]
        rw [walk_of_directory hnode] at h ⊢
        split at h
        next hdots => rw [if_pos hdots, ih h]
        next hdots =>
          split at h
          · cases h
          next hlong => rw [if_neg hdots, if_neg hlong, ih h]

/-- The path of an entry leads to the entry, unless it is too long. -/
theorem find_entry {dir : Path} (h : tree.find dir = .ok (place, .directory))
    {name : Text} (hname : isFileName name = true) :
    tree.find (dir.entry name) =
      if maxPathBytes < nameBytes (dir.entry name).toText ∨ maxNameBytes < nameBytes name then
        .error .nameTooLong
      else tree.walk (place ++ [name]) [] := by
  have hdots : name ≠ ['.', '.'] := by
    simp only [isFileName, Bool.and_eq_true, decide_eq_true_eq] at hname
    exact hname.2
  unfold find at h ⊢
  split at h
  · cases h
  · rw [Path.entry_eq hname, walk_concat h hdots]
    by_cases hpath : maxPathBytes <
        nameBytes ({ dir with parts := dir.parts ++ [name] } : Path).toText
    · rw [if_pos hpath, if_pos (.inl hpath)]
    · by_cases hlong : maxNameBytes < nameBytes name
      · rw [if_neg hpath, if_pos hlong, if_pos (.inr hlong)]
      · rw [if_neg hpath, if_neg hlong, if_neg (by simp [hpath, hlong])]

end FileTree

/-! ### Files of which nothing comes -/

/-- The document is reported as malformed when a variable is looked up in it. -/
def Literal.IsMalformed (document : Text) : Prop :=
  ∃ name error, jsonVariable? document name = .error error ∧ error.report?.isSome = true

namespace Literal

/-- Which variable is looked up makes no difference: a document is malformed if it is not JSON or
not an object. An integer that is too long is another matter. -/
theorem isMalformed_iff {document : Text} : IsMalformed document ↔
    (match Json.read document with
    | .ok (.object _) => false
    | .error (.tooManyDigits _) => false
    | _ => true) = true := by
  unfold IsMalformed jsonVariable?
  cases Json.read document with
  | error fault =>
    cases fault with
    | bad fault rest => exact iff_of_true ⟨[], _, rfl, rfl⟩ rfl
    | tooManyDigits digits =>
      refine iff_of_false ?_ Bool.false_ne_true
      rintro ⟨name, error, herror, hreport⟩
      cases herror
      cases hreport
  | ok json =>
    cases json with
    | object fields =>
      refine iff_of_false ?_ Bool.false_ne_true
      rintro ⟨name, error, herror, -⟩
      cases herror
    | _ => exact iff_of_true ⟨[], _, rfl, rfl⟩ rfl

instance (document : Text) : Decidable (IsMalformed document) :=
  decidable_of_iff' _ isMalformed_iff

/-- A malformed document assigns nothing to any name. -/
theorem IsMalformed.overrideIn {document : Text} (h : IsMalformed document) (name : Text)
    (hpath : Text.endsWith ".json".toList path.name = true) :
    Direct.overrideIn name path document = .ok none := by
  have hread := isMalformed_iff.mp h
  unfold Direct.overrideIn jsonVariable?
  rw [if_pos hpath]
  cases hjson : Json.read document with
  | error fault =>
    cases fault with
    | bad fault rest => rfl
    | tooManyDigits digits =>
      rw [hjson] at hread
      cases hread
  | ok json =>
    cases json with
    | object fields =>
      rw [hjson] at hread
      cases hread
    | _ => rfl

end Literal

theorem endsWith_json {name : Text} (h : Text.endsWith ".tfvars.json".toList name = true) :
    Text.endsWith ".json".toList name = true := by
  have hsuffix : ".json".toList <:+ ".tfvars.json".toList := by decide
  exact List.isSuffixOf_iff_suffix.mpr (hsuffix.trans (List.isSuffixOf_iff_suffix.mp h))

/-- A file that is not text of the encoding, or a file of variables in JSON that is malformed. -/
inductive FileTree.IsUnreadable (tree : FileTree) (codec : Codec) (place : List Text) : Prop
  | undecodable (content : Bytes) (hfile : tree.node? place = some (.file content))
      (hdecode : codec content = .error .undecodable)
  | malformed (content : Bytes) (text : Text) (hfile : tree.node? place = some (.file content))
      (hdecode : codec content = .ok text)
      (hname : Text.endsWith ".tfvars.json".toList (place.getLast?.getD []) = true)
      (hmalformed : Literal.IsMalformed (Text.unifyLineEnds text))

theorem FileTree.IsUnreadable.exists_file {tree : FileTree} {codec : Codec}
    {place : List Text} (h : tree.IsUnreadable codec place) :
    ∃ content, tree.node? place = some (.file content) := by
  cases h with
  | undecodable content hfile => exact ⟨content, hfile⟩
  | malformed content text hfile => exact ⟨content, hfile⟩

/-- The file gives no text, or it is a file of variables in JSON and gives a malformed one. -/
def Workspace.GetsNothing (ws : Workspace) (path : Path) : Prop := Direct.text? ws path = .ok none ∨
    ∃ text, Direct.text? ws path = .ok (some text) ∧
      Text.endsWith ".tfvars.json".toList path.name = true ∧ Literal.IsMalformed text

/-- Two workspaces list the same files of a directory, but for some of which nothing comes in
the first one. -/
inductive ListsMore (ws other : Workspace) (suffixes : List Text) (dir : Path) : Prop
  | failed (abort : Abort) (hfiles : Direct.files ws dir suffixes = .error abort)
      (hother : Direct.files other dir suffixes = .error abort)
  | listed (paths : List Path) (keep : Path → Bool)
      (hfiles : Direct.files ws dir suffixes = .ok paths)
      (hother : Direct.files other dir suffixes = .ok (paths.filter keep))
      (hkept : ∀ path ∈ paths, keep path = true → Direct.text? other path = Direct.text? ws path)
      (hdropped : ∀ path ∈ paths, keep path = false → ws.GetsNothing path ∧
        suffixes.any (Text.endsWith · path.name) = true)

namespace ListsMore

variable {ws other : Workspace} {suffixes : List Text} {dir : Path}

/-- Files of variables assign the same: a malformed one assigns nothing. -/
theorem firstIn_overrideIn (h : ListsMore ws other suffixes dir) (name : Text) :
    Direct.firstIn ws suffixes (Direct.overrideIn name) dir =
      Direct.firstIn other suffixes (Direct.overrideIn name) dir := by
  unfold Direct.firstIn
  cases h with
  | failed abort hfiles hother =>
    rw [hfiles, hother]
    rfl
  | listed paths keep hfiles hother hkept hdropped =>
    rw [hfiles, hother]
    show Direct.firstValue ws (Direct.overrideIn name) paths =
      Direct.firstValue other (Direct.overrideIn name) (paths.filter keep)
    clear hfiles hother
    induction paths with
    | nil => rfl
    | cons path paths ih =>
      have hrest := ih (List.forall_mem_cons.mp hkept).2
        (List.forall_mem_cons.mp hdropped).2
      rw [Direct.firstValue, hrest]
      cases hkeep : keep path with
      | true =>
        rw [List.filter_cons_of_pos hkeep, Direct.firstValue,
          hkept path List.mem_cons_self hkeep]
      | false =>
        rw [List.filter_cons_of_neg (by simp [hkeep])]
        rcases (hdropped path List.mem_cons_self hkeep).1 with
          hnone | ⟨text, htext, hname, hmalformed⟩
        · rw [hnone]
          rfl
        · rw [htext]
          show (Direct.overrideIn name path text >>= _) = _
          rw [hmalformed.overrideIn name (endsWith_json hname)]
          rfl

/-- Files that are not files of variables in JSON come to the same in whatever way they are used,
as long as only their texts count. -/
theorem files_bind (h : ListsMore ws other suffixes dir)
    (hsuffixes : ∀ name, suffixes.any (Text.endsWith · name) = true →
      Text.endsWith ".tfvars.json".toList name = false)
    {α : Type} {use use' : List Path → Except Abort α}
    (huse : ∀ {paths paths' : List Path}, SameTexts other ws paths' paths →
      use paths = use' paths') :
    (Direct.files ws dir suffixes >>= use) = (Direct.files other dir suffixes >>= use') := by
  cases h with
  | failed abort hfiles hother =>
    rw [hfiles, hother]
    rfl
  | listed paths keep hfiles hother hkept hdropped =>
    rw [hfiles, hother]
    refine huse ?_
    clear hfiles hother
    induction paths with
    | nil => exact .nil
    | cons path paths ih =>
      have hrest := ih (List.forall_mem_cons.mp hkept).2
        (List.forall_mem_cons.mp hdropped).2
      cases hkeep : keep path with
      | true =>
        rw [List.filter_cons_of_pos hkeep]
        exact .same (hkept path List.mem_cons_self hkeep).symm hrest
      | false =>
        rw [List.filter_cons_of_neg (by simp [hkeep])]
        obtain ⟨hnothing, hsuffix⟩ := hdropped path List.mem_cons_self hkeep
        rcases hnothing with hnone | ⟨text, -, hname, -⟩
        · exact .added hnone hrest
        · rw [hsuffixes path.name hsuffix] at hname
          cases hname

end ListsMore

/-! ### Workspaces without the files -/

theorem Path.name_entry {dir : Path} {name : Text} (h : isFileName name = true) :
    (dir.entry name).name = name := by
  simp [Path.entry_eq h, Path.name]

/-- With a known encoding a file that can be named gives no text, or its codec says what is
read. -/
theorem Direct.text?_cases {ws : Workspace} {codec : Codec}
    (hcodec : ws.disk.codec? = some codec) (hpath : path.hasNul = false) :
    Direct.text? ws path = .ok none ∨ ∃ content, ws.disk.tree.content path = .ok content ∧
        ws.disk.readText path = decodedText path ws.disk.encoding (codec content) := by
  cases houtage : ws.disk.outages.unreadable.contains path with
  | true =>
    left
    rw [Direct.text?, Disk.readText, if_pos houtage]
  | false =>
    have hread := Disk.readText_eq hcodec houtage hpath
    cases hcontent : ws.disk.tree.content path with
    | error error =>
      left
      rw [Direct.text?, hread, hcontent]
    | ok content =>
      rw [hcontent] at hread
      exact .inr ⟨content, rfl, hread⟩

section Without

variable {ws : Workspace} {codec : Codec} {places : List (List Text)}
  (hcodec : ws.disk.codec? = some codec)
  (hplaces : ∀ place ∈ places, ws.disk.tree.IsUnreadable codec place)

section Entry

variable {dir : Path} {place : List Text} {name : Text}
  (hfind : ws.disk.tree.find dir = .ok (place, .directory))
  (hname : isFileName name = true)

include hplaces hfind hname

/-- A file that stays gives the same text. -/
theorem text?_of_kept (hkept : place ++ [name] ∉ places) :
    Direct.text? (ws.withTree (ws.disk.tree.without places)) (dir.entry name) =
      Direct.text? ws (dir.entry name) := by
  have hother := FileTree.find_without_of_directory (fun place h => (hplaces place h).exists_file)
    hfind
  refine Direct.text?_withTree ?_
  unfold FileTree.content
  rw [FileTree.find_entry hother hname, FileTree.find_entry hfind hname, FileTree.walk,
    FileTree.walk, FileTree.node?_without_of_not_mem hkept]

include hcodec

/-- A file that is taken away gave nothing. -/
theorem getsNothing_of_mem (hmem : place ++ [name] ∈ places)
    (hpath : (dir.entry name).hasNul = false) :
    ws.GetsNothing (dir.entry name) := by
  rcases Direct.text?_cases hcodec hpath with hnone | ⟨content, hcontent, hread⟩
  · exact .inl hnone
  · have hfile : ws.disk.tree.node? (place ++ [name]) = some (.file content) := by
      unfold FileTree.content at hcontent
      rw [FileTree.find_entry hfind hname, FileTree.walk] at hcontent
      split_ifs at hcontent
      cases hnode : ws.disk.tree.node? (place ++ [name]) with
      | none =>
        rw [hnode] at hcontent
        cases hcontent
      | some node =>
        rw [hnode] at hcontent
        cases node with
        | directory => cases hcontent
        | file bytes => cases hcontent; rfl
    cases hplaces _ hmem with
    | undecodable bytes hbytes hdecode =>
      obtain rfl : content = bytes := by simpa [hfile] using hbytes
      left
      rw [Direct.text?, hread, hdecode, decodedText]
    | malformed bytes text hbytes hdecode hsuffix hmalformed =>
      obtain rfl : content = bytes := by simpa [hfile] using hbytes
      rw [List.getLast?_concat] at hsuffix
      refine .inr ⟨_, ?_, by rw [Path.name_entry hname]; exact hsuffix, hmalformed⟩
      rw [Direct.text?, hread, hdecode, decodedText]

end Entry

variable (hnames : ws.disk.tree.HasFileNames)
  (hnul : ∀ place ∈ ws.disk.tree.places, ∀ name ∈ place.1, '\x00' ∉ name)

include hcodec hnames hnul hplaces

/-- Every directory lists the same files but those taken away. -/
theorem listsMore_without (suffixes : List Text) (dir : Path) :
    ListsMore ws (ws.withTree (ws.disk.tree.without places)) suffixes dir := by
  have hnone : ∀ {other : Workspace}, Direct.files ws dir suffixes = .ok [] →
      Direct.files other dir suffixes = .ok [] →
      ListsMore ws other suffixes dir :=
    fun hfiles hother => .listed [] (fun _ => true) hfiles hother nofun nofun
  rcases Direct.files_cases ws dir with ⟨abort, hfiles⟩ | hfiles | ⟨hpath, hfiles⟩
  · exact .failed abort (hfiles ws.disk.tree suffixes) (hfiles _ suffixes)
  · exact hnone (hfiles ws.disk.tree suffixes) (hfiles _ suffixes)
  have hlisted := hfiles ws.disk.tree suffixes
  have hlisted' := hfiles (ws.disk.tree.without places) suffixes
  rcases FileTree.entries_without (fun place h => (hplaces place h).exists_file) dir with
    ⟨place, hfind, hentries, hentries'⟩ | ⟨hentries, hentries'⟩
  · rw [hentries] at hlisted
    rw [hentries'] at hlisted'
    have hentry : ∀ name ∈ ws.disk.tree.children place,
        isFileName name = true ∧ (dir.entry name).hasNul = false := by
      intro name hmem
      obtain ⟨node, hplace⟩ := FileTree.mem_places_of_mem_children hmem
      have hname : '\x00' ∉ name := hnul _ hplace name (by simp)
      exact ⟨hnames _ hplace name (by simp), Path.hasNul_join hpath (Path.hasNul_ofText hname)⟩
    -- the paths that stay are told by their names, because the directory is at one place
    refine .listed _ (fun path => !places.contains (place ++ [path.name])) hlisted ?_ ?_ ?_
    · rw [hlisted', List.filter_map, List.filter_filter, List.filter_filter]
      refine congrArg (fun names : List Text => Except.ok (names.map dir.entry)) ?_
      refine List.filter_congr fun name hmem => ?_
      rw [Bool.and_comm, Function.comp_apply, Path.name_entry (hentry name hmem).1]
    · intro path hmem hkept
      obtain ⟨name, hname, rfl⟩ := List.mem_map.mp hmem
      obtain ⟨hfile, -⟩ := hentry name (List.mem_filter.mp hname).1
      rw [Path.name_entry hfile] at hkept
      exact text?_of_kept hplaces hfind hfile (by simpa using hkept)
    · intro path hmem hdropped
      obtain ⟨name, hname, rfl⟩ := List.mem_map.mp hmem
      obtain ⟨hlisted, hsuffix⟩ := List.mem_filter.mp hname
      obtain ⟨hfile, husable⟩ := hentry name hlisted
      rw [Path.name_entry hfile] at hdropped ⊢
      exact ⟨getsNothing_of_mem hcodec hplaces hfind hfile (by simpa using hdropped) husable,
        hsuffix⟩
  · rw [hentries] at hlisted
    rw [hentries'] at hlisted'
    exact hnone hlisted hlisted'

end Without

/-! ### Answers -/

/-- A configuration file is not a file of variables in JSON. -/
theorem endsWith_of_configurationSuffixes {name : Text}
    (h : ({} : Settings).configurationSuffixes.any (Text.endsWith · name) = true) :
    Text.endsWith ".tfvars.json".toList name = false := by
  have hname : ".tf".toList <:+ name := by simpa [Text.endsWith] using h
  refine Bool.eq_false_iff.mpr fun hjson => ?_
  rcases List.suffix_or_suffix_of_suffix hname (List.isSuffixOf_iff_suffix.mp hjson) with
    hsuffix | hsuffix
  · exact absurd hsuffix (by decide)
  · exact absurd hsuffix (by decide)

theorem length_eraseDups_le : (paths : List Path) → paths.eraseDups.length ≤ paths.length
  | [] => Nat.le_refl _
  | path :: paths => by
    rw [List.eraseDups_cons, List.length_cons, List.length_cons]
    exact Nat.succ_le_succ (Nat.le_trans (length_eraseDups_le _) (List.length_filter_le _ _))
termination_by paths => paths.length
decreasing_by exact Nat.lt_succ_of_le (List.length_filter_le _ _)

/-- Directories that are asked in turn anyway may as well be gathered. -/
theorem gatherInContexts_eq {gather : Gather} {count : Nat} (h : gather.AsksInTurn count)
    (ws : Workspace) (wanted : Wanted) {directories : List Path}
    (hcount : directories.length ≤ count) :
    gatherInContexts ws gather wanted directories = resolveInContexts ws wanted directories := by
  unfold resolveInContexts gatherInContexts
  rcases mapM_locate_cases ws directories with ⟨error, herror⟩ | hok
  · rw [herror]
  · have hlength := length_eraseDups_le (directories.map ws.normalize)
    rw [List.length_map] at hlength
    rw [hok]
    dsimp only
    rw [h ws wanted _ (Nat.le_trans hlength hcount)]

/-- No request is for values from more directories than this. -/
def AskAtMost (count : Nat) (requests : List Request) : Prop :=
  ∀ wanted directories, .contexts wanted directories ∈ requests → directories.length ≤ count

theorem repliesWith_eq {gather : Gather} {count : Nat} (h : gather.AsksInTurn count)
    (ws : Workspace) {requests : List Request} (hrequests : AskAtMost count requests)
    (s : Session) : repliesWith ws gather requests s = replies ws requests s := by
  induction requests generalizing s with
  | nil => rfl
  | cons request requests ih =>
    have hrespond : respondWith ws gather request = respond ws request := by
      cases request with
      | contexts wanted directories =>
        rw [respondWith, respond, gatherInContexts_eq h ws wanted
          (hrequests wanted directories List.mem_cons_self)]
      | _ => rfl
    rw [repliesWith, replies, hrespond, perform]
    exact congrArg _ (ih (fun wanted directories hmem =>
      hrequests wanted directories (List.mem_cons_of_mem _ hmem)) _)

/-- Files that are not text of the encoding and malformed files of variables in JSON are as good
as absent: whatever is remembered at first, every request is answered as it is without them.
The encoding must be one that exists, with whatever codec, configuration files must have their
default suffix, and names must be such as files can have. Values from several directories may be
gathered in any way, as long as no more are asked for at a time than are asked in turn; that is
one at least. -/
theorem replies_without_unreadable {ws : Workspace} {codec : Codec}
    (hcodec : ws.disk.codec? = some codec)
    (hsuffixes : ws.settings.configurationSuffixes = ({} : Settings).configurationSuffixes)
    (hnames : ws.disk.tree.HasFileNames)
    (hnul : ∀ place ∈ ws.disk.tree.places, ∀ name ∈ place.1, '\x00' ∉ name)
    {places : List (List Text)}
    (hplaces : ∀ place ∈ places, ws.disk.tree.IsUnreadable codec place)
    {gather : Gather} {count : Nat} (hgather : gather.AsksInTurn count)
    {requests : List Request} (hrequests : AskAtMost count requests) (s : Session) :
    repliesWith ws gather requests s =
      repliesWith (ws.withTree (ws.disk.tree.without places)) gather requests s := by
  have hlists := listsMore_without hcodec hplaces hnames hnul
  have hconfiguration : ∀ name,
      ws.settings.configurationSuffixes.any (Text.endsWith · name) = true →
      Text.endsWith ".tfvars.json".toList name = false := by
    rw [hsuffixes]
    exact fun name => endsWith_of_configurationSuffixes
  rw [repliesWith_eq hgather _ hrequests, repliesWith_eq hgather _ hrequests]
  refine replies_eq_of_comesTo ⟨fun path => ?_, fun name dir => ?_,
    fun extract dir => ?_, fun dir => ?_⟩ requests (.refl s)
  · have hsame := FileTree.isDirectory_without (fun place h => (hplaces place h).exists_file) path
    simp only [Direct.isDirectory, Disk.isDirectory, Workspace.withDisk, hsame]
  · exact (hlists _ dir).firstIn_overrideIn name
  · exact (hlists _ dir).files_bind hconfiguration fun hsame => hsame.firstValue_eq _
  · exact (hlists _ dir).files_bind hconfiguration fun hsame => hsame.callsIn_eq dir

theorem Encoding.codec_eq_ok {encoding : Encoding} {bytes : Bytes} {text : Text}
    (h : encoding.decode? bytes = some text) : encoding.codec bytes = .ok text := by
  rw [codec, h]

/-- Only the codec of UTF-16 can give up over bytes. -/
theorem Encoding.codec_eq_undecodable {encoding : Encoding} {bytes : Bytes}
    (hencoding : encoding ≠ .utf16) (h : encoding.decode? bytes = none) :
    encoding.codec bytes = .error .undecodable := by
  rw [codec, h]
  simp [hencoding]

/-- A JSON document that breaks off. -/
def brokenOff : String := "\x7b\"x\": 1"

/-- A declaration with a byte that is not UTF-8. -/
def garbled : String := "locals \x7b\n  y = \"\xff\"\n\x7d\n"

/-- Two files that cannot be read, each before one that can. -/
def damaged : Workspace := .ofFiles {} [
  (["a.tfvars.json"], brokenOff),
  (["b.tfvars"], "x = 2\n"),
  (["c.tf"], garbled),
  (["d.tf"], "locals \x7b\n  y = var.x\n\x7d\n")]

/-- The places of the two. -/
def damagedPlaces : List (List Text) :=
  [["w", "a.tfvars.json"], ["w", "c.tf"]].map (·.map String.toList)

theorem isUnreadable_of_mem_damagedPlaces :
    ∀ place ∈ damagedPlaces, damaged.disk.tree.IsUnreadable Encoding.utf8.codec place := by
  intro place hplace
  rcases List.mem_cons.mp hplace with rfl | hplace
  · refine .malformed (brokenOff.toList.map fun c => .ofNat c.toNat) brokenOff.toList
      (by decide +kernel) (Encoding.codec_eq_ok (by decide +kernel)) (by decide +kernel) ?_
    decide +kernel
  · rw [List.mem_singleton.mp hplace]
    exact .undecodable (garbled.toList.map fun c => .ofNat c.toNat) (by decide +kernel)
      (Encoding.codec_eq_undecodable nofun (by decide +kernel))

/-- A damaged workspace answers from what can be read, as it does without the damaged files. -/
theorem damaged_replies_eq :
    (resolveIn damaged .enhanced (written "local.y") here .fresh).1 = some "2".toList ∧
    repliesWith damaged resolveEach [.value .enhanced (written "local.y") here,
        .contexts (written "var.x") [here]] .fresh =
      repliesWith (damaged.withTree (damaged.disk.tree.without damagedPlaces)) resolveEach
        [.value .enhanced (written "local.y") here, .contexts (written "var.x") [here]] .fresh := by
  refine ⟨by decide +kernel, ?_⟩
  have hcodec : damaged.disk.codec? = some Encoding.utf8.codec := rfl
  have hgather : Gather.AsksInTurn resolveEach 1 := fun _ _ _ _ => rfl
  refine replies_without_unreadable hcodec rfl (by decide) (by decide)
    isUnreadable_of_mem_damagedPlaces hgather ?_ _
  simp [AskAtMost]

/-! ### Files over which a codec gives up -/

/-- The file that does not say its byte order is not text of the encoding. With it there is no
answer, as the codec gives up over it; without it the local value is found. -/
theorem unmarked_answer_ne :
    unmarked.disk.codec?.isSome = true ∧
    (unmarked.disk.tree.node? ["w".toList, "a.tf".toList]).bind (fun
      | .file content => some (Encoding.utf16.decode? content)
      | .directory => none) = some none ∧
    (resolveIn unmarked .plain (written "local.x") here .fresh).1 = none ∧
    (resolveIn (unmarked.withTree (unmarked.disk.tree.without [["w".toList, "a.tf".toList]]))
      .plain (written "local.x") here .fresh).1 = some "\"v\"".toList := by
  refine ⟨?_, ?_, ?_, ?_⟩
  all_goals decide +kernel

end TerraformTrace
