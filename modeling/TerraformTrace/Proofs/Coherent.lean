import TerraformTrace.Proofs.Ancestors
import TerraformTrace.Proofs.Faithful

/-!
# TerraformTrace.Proofs.Coherent

What holds of a session at all times. `Coherent` says of the cache that every look-up in
it is what looking it up anew comes to, and of everything else that it lies in the
workspace: the directories of modules, the files that were read and the directories that
were listed. Nothing is said of the results of whole frames but what a parameter asks for,
so the references of a request may be of any kind.

**Since when.** A coherent session is watched from a point of its record on. A result of
a frame that is still there was stored after that point.
-/

namespace TerraformTrace

open Hcl

variable {name : Text} {lookup : Lookup}

/-! ### At or below the root -/

/-- A normal path at or below the root of the workspace. -/
structure Workspace.Inside (ws : Workspace) (path : Path) : Prop where
  normal : path.IsNormal
  below : ws.root.parts <+: path.parts

/-- Whether a text can be the name of a file or directory. -/
def isFileName (name : Text) : Bool :=
  name ≠ [] && '/' ∉ name && name ≠ ['.'] && name ≠ ['.', '.']

/-- Every name in the tree is the name of a file or directory. -/
def FileTree.HasFileNames (tree : FileTree) : Prop :=
  ∀ place ∈ tree.places, ∀ name ∈ place.1, isFileName name = true

instance (tree : FileTree) : Decidable tree.HasFileNames :=
  inferInstanceAs (Decidable (∀ place ∈ tree.places, ∀ name ∈ place.1, isFileName name = true))

theorem Path.entry_eq {dir : Path} (h : isFileName name = true) :
    dir.entry name = { dir with parts := dir.parts ++ [name] } := by
  simp only [isFileName, Bool.and_eq_true, decide_eq_true_eq] at h
  obtain ⟨⟨⟨hne, hslash⟩, hdot⟩, -⟩ := h
  have hanchor : Path.anchorOf name = .relative := by
    cases name with
    | nil => exact absurd rfl hne
    | cons c rest =>
      have hc : c ≠ '/' := fun heq => hslash (heq ▸ List.mem_cons_self)
      simp [Path.anchorOf, hc]
  have hparts : (Path.ofText name).parts = [name] := by
    simp [Path.ofText, Text.splitAt_of_not_mem hslash, hne, hdot]
  have hrelative : (Path.ofText name).isAbsolute = false := by
    simp [Path.isAbsolute, Path.ofText, hanchor]
  rw [Path.entry, Path.join, hrelative, hparts]
  rfl

theorem Path.IsNormal.entry {dir : Path} (h : dir.IsNormal)
    (hname : isFileName name = true) : (dir.entry name).IsNormal := by
  obtain ⟨hanchor, htidy, hdots⟩ := h
  have hparts := hname
  simp only [isFileName, Bool.and_eq_true, decide_eq_true_eq] at hparts
  rw [Path.entry_eq hname]
  refine ⟨hanchor, fun part hpart => ?_, fun hmem => ?_⟩
  · rcases List.mem_append.mp hpart with hold | hnew
    · exact htidy part hold
    · rw [List.mem_singleton.mp hnew]
      exact ⟨hparts.1.1.1, hparts.1.1.2, hparts.1.2⟩
  · rcases List.mem_append.mp hmem with hold | hnew
    · exact hdots hold
    · exact hparts.2 (List.mem_singleton.mp hnew).symm

namespace Workspace.Inside

variable {ws : Workspace} {path : Path}

theorem of_contains (hroot : ws.root.IsNormal) (hnormal : path.IsNormal)
    (h : ws.contains path = true) : ws.Inside path :=
  ⟨hnormal, (contains_iff hroot hnormal).mp h⟩

theorem entry (h : ws.Inside path) (hname : isFileName name = true) :
    ws.Inside (path.entry name) := by
  refine ⟨h.normal.entry hname, ?_⟩
  rw [Path.entry_eq hname]
  exact h.below.trans (List.prefix_append _ _)

end Workspace.Inside

/-- The names that a directory lists are those of files and directories. -/
theorem FileTree.isFileName_of_list {tree : FileTree} (hnames : tree.HasFileNames) {path : Path}
    {names : List Text} (h : tree.list path = .ok names) :
    ∀ name ∈ names, isFileName name = true := by
  unfold FileTree.list at h
  split at h
  next place hfind =>
    cases h
    intro name hname
    obtain ⟨node, hentry⟩ := FileTree.mem_places_of_mem_children hname
    exact hnames _ hentry name (by simp)
  next => cases h
  next => cases h

/-! ### Look-ups -/

/-- What is remembered under a key is what a look-up with this key comes to. -/
def Recalled (ws : Workspace) (key : Text) (value : Remembered) : Prop :=
  ∃ lookup dir, ws.Inside dir ∧ key = Lookup.key lookup dir ∧ lookup.recompute ws dir = .ok value

namespace Recalled

variable {ws : Workspace} {dir : Path} {known : Remembered}

/-- What is recalled, apart from data sources, is what the look-up comes to. -/
theorem recompute_eq (hdata : lookup.kind ≠ .data) (hdir : dir.IsNormal)
    (h : Recalled ws (lookup.key dir) known) :
    lookup.recompute ws dir = .ok known := by
  obtain ⟨other, place, hplace, hkey, hvalue⟩ := h
  obtain ⟨hkind, hlabel, rfl⟩ := Lookup.key_inj hdir hplace.normal hkey
  rwa [Lookup.eq_of_kind hdata hkind hlabel]

/-- Module calls are remembered as such. -/
theorem of_calls (hdir : dir.IsNormal) (h : Recalled ws (Lookup.calls.key dir) known) :
    ∃ calls, known = .calls calls ∧ Direct.moduleCalls ws dir = .ok calls := by
  obtain ⟨calls, hcalls, rfl⟩ := Lookup.map_eq_ok (h.recompute_eq (by nofun) hdir)
  exact ⟨calls, rfl, hcalls⟩

/-- What is looked up for a name is remembered as a text. -/
theorem exists_text (hlookup : lookup ≠ .calls) (hdir : dir.IsNormal)
    (h : Recalled ws (lookup.key dir) known) : ∃ text, known = .text text := by
  obtain ⟨other, place, hplace, hkey, hvalue⟩ := h
  obtain ⟨hkind, -, rfl⟩ := Lookup.key_inj hdir hplace.normal hkey
  cases other with
  | calls =>
    cases lookup with
    | calls => exact absurd rfl hlookup
    | _ => cases hkind
  | _ =>
    obtain ⟨value, -, rfl⟩ := Lookup.map_eq_ok hvalue
    exact ⟨_, rfl⟩

end Recalled

/-! ### Events in the workspace -/

/-- A context whose directory, calls and modules lie in the workspace. -/
structure Context.IsInside (ws : Workspace) (ctx : Context) : Prop where
  directory : ws.Inside ctx.directory
  stack : ∀ frame ∈ ctx.stack, ws.Inside frame.call.directory ∧ ws.Inside frame.directory

/-- An event about nothing that lies outside the workspace. -/
def Event.IsInside (ws : Workspace) : Event → Prop
  | .entered ctx => ctx.IsInside ws
  | .cycleCut ctx => ctx.IsInside ws
  | .depthReached _ ctx => ctx.IsInside ws
  | .stored _ => True
  | .returned _ ctx _ _ => ctx.IsInside ws
  | .threaded ctx call _ _ => ctx.IsInside ws ∧ ws.Inside call.directory
  | .listed dir => ws.Inside dir
  | .read path => ws.Inside path
  | .cannotList dir _ => ws.Inside dir
  | .cannotRead path _ => ws.Inside path
  | .cannotStat path _ => ws.Inside path
  | .malformed path _ => ws.Inside path
  | .gaveUp _ _ => True

/-! ### Coherent sessions -/

/-- Something was stored under a key after this point of the record. -/
def StoredSince (since events : List Event) (key : Text) : Prop :=
  ∃ added, events = added ++ since ∧ .stored key ∈ added

theorem StoredSince.cons {since events : List Event} {key : Text} (event : Event)
    (h : StoredSince since events key) : StoredSince since (event :: events) key := by
  obtain ⟨added, rfl, hmem⟩ := h
  exact ⟨event :: added, rfl, List.mem_cons_of_mem _ hmem⟩

/-- What may be remembered under a key: a look-up, or the result of a frame that was
stored since this point and that is of this sort. -/
def Remains (ws : Workspace) (since : List Event)
    (Allowed : SearchMode → List Text → Remembered → Prop) (events : List Event) (key : Text)
    (value : Remembered) : Prop :=
  Recalled ws key value ∨ ∃ mode parts, key = cacheKey mode.kind.word parts ∧
    Allowed mode parts value ∧ StoredSince since events key

/-- A session whose look-ups are up to date and in which nothing lies outside the
workspace. -/
structure Coherent (ws : Workspace) (since : List Event)
    (Allowed : SearchMode → List Text → Remembered → Prop) (s : Session) : Prop where
  grown : since <:+ s.events
  cache : s.cache.Holds (Remains ws since Allowed s.events)
  table : ∀ entry ∈ s.modulePaths, ws.Inside entry.2
  events : ∀ event ∈ s.events, event.IsInside ws

namespace Remains

variable {ws : Workspace} {since events : List Event}
  {Allowed : SearchMode → List Text → Remembered → Prop} {value : Remembered}

theorem cons {key : Text} (event : Event) (h : Remains ws since Allowed events key value) :
    Remains ws since Allowed (event :: events) key value := by
  rcases h with hrecalled | ⟨mode, parts, hkey, hallowed, hstored⟩
  · exact .inl hrecalled
  · exact .inr ⟨mode, parts, hkey, hallowed, hstored.cons event⟩

theorem recalled {dir : Path} (h : Remains ws since Allowed events (lookup.key dir) value) :
    Recalled ws (lookup.key dir) value := by
  rcases h with hrecalled | ⟨mode, parts, hkey, -, -⟩
  · exact hrecalled
  · exact absurd hkey (lookup.key_ne_frame dir mode parts)

theorem allowed {mode : SearchMode} {parts : List Text}
    (h : Remains ws since Allowed events (cacheKey mode.kind.word parts) value) :
    Allowed mode parts value ∧ StoredSince since events (cacheKey mode.kind.word parts) := by
  rcases h with ⟨lookup, dir, -, hkey, -⟩ | ⟨mode', parts', hkey, hallowed, hstored⟩
  · exact absurd hkey.symm (lookup.key_ne_frame dir mode parts)
  · obtain ⟨hword, rfl⟩ := cacheKey_inj hkey
    obtain rfl := SearchMode.kind_inj (ResultKind.word_inj hword)
    exact ⟨hallowed, hstored⟩

end Remains

namespace Coherent

variable {ws : Workspace} {since : List Event}
  {Allowed : SearchMode → List Text → Remembered → Prop} {s : Session}

theorem note {event : Event} (h : Coherent ws since Allowed s) (hevent : event.IsInside ws) :
    Coherent ws since Allowed { s with events := event :: s.events } where
  grown := h.grown.trans (List.suffix_cons _ _)
  cache key entry hmem := (h.cache key entry hmem).cons event
  table := h.table
  events other hmem := by
    rcases List.mem_cons.mp hmem with rfl | hmem
    · exact hevent
    · exact h.events other hmem

/-- Entries may be dropped at any time, and nothing else in a cache matters. -/
theorem of_subset (h : Coherent ws since Allowed s) {cache : Cache Binary64 Remembered}
    (hsubset : cache.entries ⊆ s.cache.entries) :
    Coherent ws since Allowed { s with cache } :=
  ⟨h.grown, h.cache.of_subset hsubset, h.table, h.events⟩

theorem lookUp (h : Coherent ws since Allowed s) (key : Text) :
    Coherent ws since Allowed { s with cache := (s.cache.get key).2 } :=
  ⟨h.grown, h.cache.get, h.table, h.events⟩

/-- What is remembered is a look-up that was just made, or the result of a frame. -/
theorem remember (h : Coherent ws since Allowed s) {key : Text} {value : Remembered}
    (hvalue : Recalled ws key value ∨
      ∃ mode parts, key = cacheKey mode.kind.word parts ∧ Allowed mode parts value) :
    Coherent ws since Allowed { s with
      cache := s.cache.set key value, events := .stored key :: s.events } where
  grown := h.grown.trans (List.suffix_cons _ _)
  cache := by
    have hremains : Remains ws since Allowed (.stored key :: s.events) key value := by
      obtain ⟨added, hadded⟩ := h.grown
      refine hvalue.imp_right fun ⟨mode, parts, hkey, hallowed⟩ => ?_
      exact ⟨mode, parts, hkey, hallowed, .stored key :: added, by rw [← hadded]; rfl,
        List.mem_cons_self⟩
    have hold : s.cache.Holds (Remains ws since Allowed (.stored key :: s.events)) :=
      fun other entry hmem => (h.cache other entry hmem).cons _
    exact hold.set hremains
  table := h.table
  events := (h.note (show Event.IsInside ws (.stored key) from trivial)).events

theorem enter (h : Coherent ws since Allowed s) {key : Text × Text} {place : Path}
    (hplace : ws.Inside place) :
    Coherent ws since Allowed { s with modulePaths := (key, place) :: s.modulePaths } where
  grown := h.grown
  cache := h.cache
  table entry hmem := by
    rcases List.mem_cons.mp hmem with rfl | hmem
    · exact hplace
    · exact h.table entry hmem
  events := h.events

/-- A session in which nothing happened yet is coherent. -/
theorem of_empty (hcache : s.cache.entries = []) (hpaths : s.modulePaths = [])
    (hevents : s.events = []) : Coherent ws [] Allowed s where
  grown := List.nil_suffix ..
  cache key entry hmem := by simp [hcache] at hmem
  table entry hmem := by simp [hpaths] at hmem
  events event hmem := by simp [hevents] at hmem

end Coherent

end TerraformTrace
