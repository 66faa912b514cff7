import TerraformTrace.Proofs.Frame

/-!
# TerraformTrace.Proofs.Assignments

What a directory assigns to an input, as a list. The list goes through the files of
variables, the local values, the outputs, the arguments of the calls of the directory as
a module, and the defaults, in this order, and through the files by their names each
time. Nothing in it is remembered, and nothing can be given up.

**Look-ups as lists.** On a disk that works (`Disk.Works`) a direct look-up comes to the
first text of its list, provided that none of the texts is empty; an empty text would
hide those after it.
-/

namespace TerraformTrace

open Hcl

variable {text : Text} {path : Path} {extract : Text → Option Text}

/-! ### Paths without NUL characters -/

theorem Text.mem_of_mem_splitAt {mark c : Char} {piece : Text}
    (hpiece : piece ∈ splitAt mark text) (hc : c ∈ piece) : c ∈ text := by
  induction text generalizing piece with
  | nil =>
    obtain rfl : piece = [] := by simpa [splitAt] using hpiece
    exact hc
  | cons first rest ih =>
    unfold splitAt at hpiece
    split at hpiece
    · rcases List.mem_cons.mp hpiece with rfl | hmem
      · exact absurd hc List.not_mem_nil
      · exact List.mem_cons_of_mem _ (ih hmem hc)
    · cases hsplit : splitAt mark rest with
      | nil =>
        obtain rfl : piece = [first] := by simpa [hsplit] using hpiece
        rw [List.mem_singleton.mp hc]
        exact List.mem_cons_self
      | cons start pieces =>
        rw [hsplit] at hpiece ih
        rcases List.mem_cons.mp hpiece with rfl | hmem
        · rcases List.mem_cons.mp hc with rfl | hc
          · exact List.mem_cons_self
          · exact List.mem_cons_of_mem _ (ih List.mem_cons_self hc)
        · exact List.mem_cons_of_mem _ (ih (List.mem_cons_of_mem _ hmem) hc)

theorem Text.mem_of_mem_strip {c : Char} (h : c ∈ strip text) : c ∈ text := by
  have hright : c ∈ (stripLeft text).reverse :=
    (List.dropWhile_suffix _).subset (List.mem_reverse.mp h)
  exact (List.dropWhile_suffix _).subset (List.mem_reverse.mp hright)

theorem mem_of_mem_unquote {c : Char} (h : c ∈ unquote text) : c ∈ text := by
  unfold unquote at h
  dsimp only at h
  split at h
  · exact Text.mem_of_mem_strip (List.mem_of_mem_tail (List.dropLast_subset _ h))
  · exact Text.mem_of_mem_strip h

namespace Path

theorem hasNul_eq_false : path.hasNul = false ↔ ∀ part ∈ path.parts, '\x00' ∉ part := by
  simp [hasNul]

theorem hasNul_ofText (h : '\x00' ∉ text) : (ofText text).hasNul = false := by
  rw [hasNul_eq_false]
  intro part hpart hnul
  exact h (Text.mem_of_mem_splitAt (List.mem_filter.mp hpart).1 hnul)

theorem hasNul_join {dir : Path} (hdir : dir.hasNul = false)
    (hpath : path.hasNul = false) : (dir.join path).hasNul = false := by
  rw [hasNul_eq_false] at hdir hpath ⊢
  intro part hpart
  unfold join at hpart
  split at hpart
  · exact hpath part hpart
  · rcases List.mem_append.mp hpart with hmem | hmem
    · exact hdir part hmem
    · exact hpath part hmem

theorem usable_of_hasNul (h : path.hasNul = false) : Direct.usable path = .ok path := by
  simp [Direct.usable, usable, h]

end Path

/-! ### Disks that work -/

/-- The entries of a directory are listed in the order of their names. -/
theorem Disk.pairwise_list {disk : Disk} {names : List Text}
    (h : disk.list path = .ok names) : names.Pairwise fun one next => Text.le one next = true := by
  unfold Disk.list FileTree.list at h
  split at h
  · cases h
  · split at h
    · cases h
    · split at h
      · cases h
      · split at h
        next place =>
          cases h
          exact Text.pairwise_sort _
        · cases h
        · cases h

/-- The codec that the files of a disk are read with; none if the encoding is not known. -/
def Disk.codec? (disk : Disk) : Option Codec :=
  if disk.encoding.contains '\x00' then none else disk.codecs disk.encoding

/-- Whether a codec gives up over a file, and does not just find that it is not text. -/
def Codec.refuses (codec : Codec) : Node → Bool
  | .directory => false
  | .file content =>
    match codec content with
    | .error (.refused _) => true
    | _ => false

/-- Whether the encoding of a disk is known and its codec gives up over no file. -/
def Disk.isLegible (disk : Disk) : Bool :=
  disk.codec?.any fun codec => disk.tree.places.all fun entry => !codec.refuses entry.2

/-- Every access to the disk works: nothing is out of order, the files are legible, and no
name has a NUL character in it. -/
structure Disk.Works (disk : Disk) : Prop where
  outages : disk.outages = {}
  encoding : disk.isLegible = true
  names : ∀ place ∈ disk.tree.places, ∀ name ∈ place.1, '\x00' ∉ name

/-- A normal path that leads to a directory. -/
structure Workspace.HasDirectory (ws : Workspace) (dir : Path) : Prop where
  normal : dir.IsNormal
  isDirectory : ws.disk.tree.isDirectory dir = true

theorem FileTree.list_of_isDirectory {tree : FileTree}
    (h : tree.isDirectory path = true) : ∃ place, tree.list path = .ok (tree.children place) := by
  unfold isDirectory at h
  unfold FileTree.list
  split at h
  next place hfind => exact ⟨place, by rw [hfind]⟩
  next => cases h

theorem FileTree.mem_places_of_mem_children {tree : FileTree} {place : List Text} {name : Text}
    (h : name ∈ tree.children place) : ∃ node, (place ++ [name], node) ∈ tree.places := by
  obtain ⟨⟨here, node⟩, hentry, hname⟩ := List.mem_filterMap.mp (Text.mem_sortBy.mp h)
  split at hname
  next hplace =>
    obtain ⟨above, habove⟩ := List.getLast?_eq_some_iff.mp hname
    dsimp only at hplace habove
    rw [habove, List.dropLast_concat] at hplace
    exact ⟨node, hplace ▸ habove ▸ hentry⟩
  next => cases hname

/-- What a path leads to stands at a place. -/
theorem FileTree.mem_places_of_walk {tree : FileTree} {here parts place : List Text}
    {content : Bytes} (h : tree.walk here parts = .ok (place, .file content)) :
    (place, .file content) ∈ tree.places := by
  fun_induction tree.walk here parts with
  | case1 here node hnode =>
    cases h
    unfold node? at hnode
    split at hnode
    · cases hnode
    · obtain ⟨before, after, hplaces, -⟩ := List.lookup_eq_some_iff.mp hnode
      simp [hplaces]
  | case5 here parts hnode ih => exact ih h
  | case7 here part parts hnode hdots hshort ih => exact ih h
  | _ => cases h

theorem FileTree.mem_places_of_content {tree : FileTree} {content : Bytes}
    (h : tree.content path = .ok content) : ∃ place, (place, .file content) ∈ tree.places := by
  unfold FileTree.content FileTree.find at h
  split at h
  next place found hfind =>
    cases h
    split at hfind
    · cases hfind
    · exact ⟨place, mem_places_of_walk hfind⟩
  next => cases h
  next => cases h

/-- With a codec a file that can be named is read in the way the codec says. -/
theorem Disk.readText_eq {disk : Disk} {codec : Codec} (hcodec : disk.codec? = some codec)
    (houtage : disk.outages.unreadable.contains path = false) (hpath : path.hasNul = false) :
    disk.readText path =
      match disk.tree.content path with
      | .error error => .error (.reported (.read path error))
      | .ok content => decodedText path disk.encoding (codec content) := by
  unfold codec? at hcodec
  split at hcodec
  next => cases hcodec
  next hname =>
    unfold readText
    rw [houtage, hpath, if_neg hname, hcodec]
    cases disk.tree.content path with
    | error error => rfl
    | ok content => rfl

namespace Disk.Works

variable {ws : Workspace} {dir : Path}

theorem hasNul (hworks : ws.disk.Works) (h : ws.HasDirectory dir) : dir.hasNul = false := by
  obtain ⟨place, hlist⟩ := FileTree.list_of_isDirectory h.isDirectory
  rw [Path.hasNul_eq_false]
  rcases FileTree.mem_places_of_list h.normal hlist with hnil | ⟨node, hmem⟩
  · simp [hnil]
  · exact hworks.names _ hmem

/-- A directory can be listed, and its entries can be named. -/
theorem list (hworks : ws.disk.Works) (h : ws.HasDirectory dir) :
    ∃ names, ws.disk.list dir = .ok names ∧ ∀ name ∈ names, '\x00' ∉ name := by
  obtain ⟨place, hlist⟩ := FileTree.list_of_isDirectory h.isDirectory
  refine ⟨ws.disk.tree.children place, ?_, fun name hmem => ?_⟩
  · simp [Disk.list, hworks.outages, hworks.hasNul h, hlist, Except.mapError]
  · obtain ⟨node, hentry⟩ := FileTree.mem_places_of_mem_children hmem
    exact hworks.names _ hentry name (by simp)

theorem isDirectory (hworks : ws.disk.Works) (path : Path) :
    Direct.isDirectory ws path = ws.disk.tree.isDirectory path := by
  simp [Direct.isDirectory, Disk.isDirectory, hworks.outages]

/-- A file that can be named is read, or counts as absent. -/
theorem text? (hworks : ws.disk.Works) (hpath : path.hasNul = false) :
    Direct.text? ws path = .ok (ws.disk.readText path).toOption := by
  obtain ⟨codec, hcodec, hlegible⟩ := (Option.any_eq_true _ _).mp hworks.encoding
  have hread := Disk.readText_eq hcodec (by rw [hworks.outages]; rfl) hpath
  rw [Direct.text?, hread]
  cases hcontent : ws.disk.tree.content path with
  | error error => rfl
  | ok content =>
    obtain ⟨place, hplace⟩ := FileTree.mem_places_of_content hcontent
    have hsettled := List.all_eq_true.mp hlegible _ hplace
    dsimp only
    cases hdecode : codec content with
    | ok text => rfl
    | error error =>
      cases error with
      | undecodable => rfl
      | refused reason => simp [Codec.refuses, hdecode] at hsettled

end Disk.Works

/-! ### What is assigned -/

namespace Workspace

/-- The files that can be read, each with its text. -/
def readable (ws : Workspace) (paths : List Path) : List (Path × Text) :=
  paths.filterMap fun path => (ws.disk.readText path).toOption.map (path, ·)

/-- The readable files of a directory with one of the suffixes, in the order of their
names. -/
def texts (ws : Workspace) (suffixes : List Text) (dir : Path) : List (Path × Text) :=
  match ws.disk.list dir with
  | .error _ => []
  | .ok names => ws.readable
      ((names.filter fun name => suffixes.any (Text.endsWith · name)).map dir.entry)

/-- The value a file of variables assigns to a name; a malformed JSON file assigns
nothing. -/
def overrideIn? (name : Text) (file : Path × Text) : Option Text :=
  if Text.endsWith ".json".toList file.1.name then
    (Literal.jsonVariable? file.2 name).toOption.join
  else assignedValue? file.2 name

/-- The values that files of variables assign to a name. -/
def overrides (ws : Workspace) (name : Text) (dir : Path) : List Text :=
  (ws.texts ws.settings.overrideSuffixes dir).filterMap (overrideIn? name)

/-- What configuration files declare. -/
def declarations (ws : Workspace) (extract : Text → Option Text) (dir : Path) : List Text :=
  (ws.texts ws.settings.configurationSuffixes dir).filterMap fun file => extract file.2

/-- The module calls of a directory. -/
def calls (ws : Workspace) (dir : Path) : List ModuleCall :=
  (ws.texts ws.settings.configurationSuffixes dir).flatMap fun file => moduleCalls file.2 dir

/-- The directory of the workspace that a module source names. -/
def moduleDirectory? (ws : Workspace) (source : Text) (dir : Path) : Option Path :=
  let place := (sourcePath ws (unquote source) dir).normalize
  if isRemote ws.settings (unquote source) then none
  else if ws.contains place && ws.disk.tree.isDirectory place then some place
  else none

/-- The calls, in the directory above, of the module that a directory is. -/
def callsInto (ws : Workspace) (dir : Path) : List ModuleCall :=
  if dir = ws.root then []
  else (ws.calls dir.parent).filter fun call =>
    ws.moduleDirectory? call.source dir.parent = some dir

/-- The arguments that calls of the directory as a module give a name; directory search
does not look at them. -/
def arguments (ws : Workspace) (mode : SearchMode) (name : Text) (dir : Path) : List Text :=
  match mode with
  | .plain => []
  | .enhanced => (ws.callsInto dir).filterMap (·.inputs.get? name)

/-- Everything that is assigned to a name in a directory, in the order in which it
counts. -/
def assignments (ws : Workspace) (mode : SearchMode) (name : Text) (dir : Path) : List Text :=
  ws.overrides name dir ++ ws.declarations (localValue? · name) dir ++
    ws.declarations (outputValue? · name) dir ++
    ws.arguments mode name dir ++
    ws.declarations (variableDefault? · name) dir

/-- A directory that declares something is there. -/
theorem hasDirectory_of_declarations {ws : Workspace} {dir : Path} (hnormal : dir.IsNormal)
    (h : (ws.declarations extract dir).head? = some text) :
    ws.HasDirectory dir := by
  refine ⟨hnormal, ?_⟩
  unfold declarations texts at h
  split at h
  · cases h
  next names hlist =>
    have htree := Disk.list_eq_ok hlist
    unfold FileTree.list at htree
    unfold FileTree.isDirectory
    split at htree
    next hfind => rw [hfind]
    next => cases htree
    next => cases htree

end Workspace

/-! ### Look-ups as lists -/

namespace Direct

variable {ws : Workspace} {dir : Path} {paths : List Path} {value : Path × Text → Option Text}

theorem readable_cons_none (h : (ws.disk.readText path).toOption = none) :
    ws.readable (path :: paths) = ws.readable paths :=
  List.filterMap_cons_none (by rw [h]; rfl)

theorem readable_cons_some (h : (ws.disk.readText path).toOption = some text) :
    ws.readable (path :: paths) = (path, text) :: ws.readable paths :=
  List.filterMap_cons_some (by rw [h]; rfl)

/-- The first value of some files, if reading none of them is given up. -/
theorem firstValue_eq {extract : Path → Text → Except Abort (Option Text)}
    (hread : ∀ path ∈ paths, text? ws path = .ok (ws.disk.readText path).toOption)
    (hextract : ∀ file ∈ ws.readable paths, extract file.1 file.2 = .ok (value file)) :
    firstValue ws extract paths = .ok ((ws.readable paths).filterMap value).head? := by
  induction paths with
  | nil => rfl
  | cons path paths ih =>
    have hpaths := fun other hmem => hread other (List.mem_cons_of_mem path hmem)
    unfold firstValue
    rw [hread path List.mem_cons_self]
    cases htext : (ws.disk.readText path).toOption with
    | none =>
      rw [readable_cons_none htext] at hextract ⊢
      exact ih hpaths hextract
    | some text =>
      rw [readable_cons_some htext] at hextract ⊢
      have hfirst := hextract (path, text) List.mem_cons_self
      have hrest := ih hpaths (List.forall_mem_cons.mp hextract).2
      simp only [Bind.bind, Except.bind, hfirst]
      cases hvalue : value (path, text) with
      | none =>
        rw [List.filterMap_cons_none hvalue]
        exact hrest
      | some found =>
        rw [List.filterMap_cons_some hvalue]
        rfl

theorem callsIn_eq (hread : ∀ path ∈ paths, text? ws path = .ok (ws.disk.readText path).toOption) :
    callsIn ws dir paths =
      .ok ((ws.readable paths).flatMap fun file => Hcl.moduleCalls file.2 dir) := by
  induction paths with
  | nil => rfl
  | cons path paths ih =>
    unfold callsIn
    rw [hread path List.mem_cons_self,
      ih fun other hmem => hread other (List.mem_cons_of_mem path hmem)]
    cases htext : (ws.disk.readText path).toOption with
    | none =>
      rw [readable_cons_none htext]
      rfl
    | some text =>
      rw [readable_cons_some htext]
      rfl

variable (hworks : ws.disk.Works)

include hworks

section InDirectory

variable (hdir : ws.HasDirectory dir)

include hdir

/-- The files of a directory, each of which is read or counts as absent. -/
theorem files_eq (suffixes : List Text) :
    ∃ paths, files ws dir suffixes = .ok paths ∧ ws.texts suffixes dir = ws.readable paths ∧
      ∀ path ∈ paths, text? ws path = .ok (ws.disk.readText path).toOption := by
  obtain ⟨names, hlist, hnames⟩ := hworks.list hdir
  refine ⟨_, by rw [files, hlist], by rw [Workspace.texts, hlist], fun path hmem => ?_⟩
  obtain ⟨name, hname, rfl⟩ := List.mem_map.mp hmem
  have hnul := Path.hasNul_ofText (hnames name (List.mem_filter.mp hname).1)
  exact hworks.text? (Path.hasNul_join (hworks.hasNul hdir) hnul)

/-- A look-up comes to the first text of its list, or to nothing if that text is empty. -/
theorem valueIn_eq_bind {suffixes : List Text}
    {extract : Path → Text → Except Abort (Option Text)}
    (hextract : ∀ file ∈ ws.texts suffixes dir, extract file.1 file.2 = .ok (value file)) :
    valueIn ws suffixes extract dir =
      .ok (((ws.texts suffixes dir).filterMap value).head?.bind present?) := by
  obtain ⟨paths, hfiles, htexts, hread⟩ := files_eq hworks hdir suffixes
  rw [htexts] at hextract ⊢
  have hfirst := firstValue_eq hread hextract
  unfold valueIn
  rw [hfiles]
  show (firstValue ws extract paths >>= fun value => .ok (value.bind present?)) = _
  rw [hfirst]
  rfl

/-- A look-up comes to the first text of its list if none of them is empty. -/
theorem valueIn_eq_head? {suffixes : List Text}
    {extract : Path → Text → Except Abort (Option Text)}
    (hextract : ∀ file ∈ ws.texts suffixes dir, extract file.1 file.2 = .ok (value file))
    (hne : ∀ text ∈ (ws.texts suffixes dir).filterMap value, text ≠ []) :
    valueIn ws suffixes extract dir = .ok ((ws.texts suffixes dir).filterMap value).head? := by
  rw [valueIn_eq_bind hworks hdir hextract]
  cases hhead : ((ws.texts suffixes dir).filterMap value).head? with
  | none => rfl
  | some text =>
    have htext : text ≠ [] := hne text (List.mem_of_mem_head? hhead)
    simp [present?, htext]

theorem override_eq {name : Text} (hdigits : ∀ file ∈ ws.texts ws.settings.overrideSuffixes dir,
      Text.endsWith ".json".toList file.1.name = true →
      ∀ digits, Json.read file.2 ≠ .error (.tooManyDigits digits))
    (hne : ∀ text ∈ ws.overrides name dir, text ≠ []) :
    override ws name dir = .ok (ws.overrides name dir).head? := by
  refine valueIn_eq_head? hworks hdir (fun file hfile => ?_) hne
  unfold overrideIn Workspace.overrideIn?
  split
  next hjson =>
    -- of all the ways to be malformed only the digits are not passed over
    unfold Literal.jsonVariable?
    cases hread : Json.read file.2 with
    | error error =>
      cases error with
      | tooManyDigits digits => exact absurd hread (hdigits file hfile hjson digits)
      | bad fault pos => rfl
    | ok json => cases json <;> rfl
  next => rfl

theorem declared_eq_bind :
    declared ws extract dir = .ok ((ws.declarations extract dir).head?.bind present?) :=
  valueIn_eq_bind hworks hdir fun _ _ => rfl

theorem declared_eq (hne : ∀ text ∈ ws.declarations extract dir, text ≠ []) :
    declared ws extract dir =
      .ok (ws.declarations extract dir).head? :=
  valueIn_eq_head? hworks hdir (fun _ _ => rfl) hne

theorem moduleCalls_eq : moduleCalls ws dir = .ok (ws.calls dir) := by
  obtain ⟨paths, hfiles, htexts, hread⟩ := files_eq hworks hdir ws.settings.configurationSuffixes
  unfold moduleCalls Workspace.calls
  rw [hfiles, htexts]
  exact callsIn_eq hread

end InDirectory

omit hworks in
theorem filterM_eq {ε α : Type} {keep : α → Except ε Bool} {p : α → Bool} {items : List α}
    (h : ∀ item ∈ items, keep item = .ok (p item)) : items.filterM keep = .ok (items.filter p) := by
  have hloop : ∀ (rest kept : List α), (∀ item ∈ rest, keep item = .ok (p item)) →
      rest.filterAuxM keep kept = .ok ((rest.filter p).reverse ++ kept) := by
    intro rest
    induction rest with
    | nil => exact fun kept _ => rfl
    | cons item rest ih =>
      intro kept hrest
      rw [List.filterAuxM, hrest item List.mem_cons_self]
      refine (ih _ (List.forall_mem_cons.mp hrest).2).trans ?_
      cases hitem : p item with
      | true => simp [hitem]
      | false => simp [hitem]
  unfold List.filterM
  rw [hloop items [] h]
  simp [Bind.bind, Except.bind, Pure.pure, Except.pure]

omit hworks in
theorem hasNul_sourcePath (hroot : ws.root.hasNul = false)
    (hdir : dir.hasNul = false) {source : Text} (hsource : '\x00' ∉ source) :
    (sourcePath ws source dir).hasNul = false := by
  unfold sourcePath
  split
  next rest =>
    refine Path.hasNul_join hroot (Path.hasNul_ofText fun hmem => hsource ?_)
    exact List.mem_cons_of_mem _ ((List.dropWhile_suffix _).subset hmem)
  next => exact Path.hasNul_join hdir (Path.hasNul_ofText hsource)

/-- The directory of a module whose source is remote or has no NUL character. -/
theorem modulePath_eq (hroot : ws.root.hasNul = false) (hdir : ws.HasDirectory dir) {source : Text}
    (hsource : isRemote ws.settings (unquote source) = false → '\x00' ∉ source) :
    modulePath ws source dir = .ok (ws.moduleDirectory? source dir) := by
  unfold modulePath Workspace.moduleDirectory?
  rw [Path.usable_of_hasNul (hworks.hasNul hdir)]
  show modulePlace ws (unquote source) (ws.normalize dir) = _
  rw [Workspace.normalize_eq hdir.normal]
  unfold modulePlace
  by_cases hremote : isRemote ws.settings (unquote source) = true
  · rw [if_pos hremote, if_pos hremote]
    rfl
  · have hunquoted : '\x00' ∉ unquote source := fun hmem =>
      hsource (Bool.eq_false_iff.mpr hremote) (mem_of_mem_unquote hmem)
    have hnul := hasNul_sourcePath hroot (hworks.hasNul hdir) hunquoted
    generalize sourcePath ws (unquote source) dir = path at hnul
    rw [if_neg hremote, if_neg hremote, Path.usable_of_hasNul hnul]
    simp only [Bind.bind, Except.bind, hworks.isDirectory]
    by_cases hcontains : ws.contains path.normalize = true
    · by_cases hplace : ws.disk.tree.isDirectory path.normalize = true
      · simp [hcontains, hplace, Pure.pure, Except.pure]
      · simp [hcontains, hplace, Pure.pure, Except.pure]
    · simp [hcontains, Pure.pure, Except.pure]

/-- The calls of a directory as a module, if the local sources of the calls above it have
no NUL character. -/
theorem callsInto_eq (hroot : ws.root.hasNul = false)
    (hparent : dir ≠ ws.root → ws.contains dir.parent = true ∧ ws.HasDirectory dir.parent)
    (hsources : dir ≠ ws.root → ∀ call ∈ ws.calls dir.parent,
      isRemote ws.settings (unquote call.source) = false → '\x00' ∉ call.source) :
    callsInto ws dir = .ok (ws.callsInto dir) := by
  unfold callsInto Workspace.callsInto
  by_cases hdir : dir = ws.root
  · simp [hdir, Pure.pure, Except.pure]
  · obtain ⟨hcontains, habove⟩ := hparent hdir
    dsimp only
    rw [if_neg (by simp [hdir, hcontains]), if_neg hdir, moduleCalls_eq hworks habove]
    refine filterM_eq fun call hcall => ?_
    rw [modulePath_eq hworks hroot habove (hsources hdir call hcall)]
    rfl

end Direct

end TerraformTrace
