import Mathlib.Data.List.Induction
import Mathlib.Data.List.Nodup
import TerraformTrace.Proofs.Path
import TerraformTrace.Registry

/-!
# TerraformTrace.Proofs.Ownership

Which engine of a registry a path belongs to, after any commands. **The roots that are
open follow from the commands alone**: a root is open if it was opened, under whatever
name, and not closed since (`isOrderly_run`). No root has two engines, so among the open
roots around a path there is one that is deepest, and its engine is the one that is found
(`IsOrderly.find?_eq_some_iff`). When a file changes, it is this engine that forgets
results, and the others do not notice (`IsOrderly.fileChanged_of_owner`).

What one command does to the roots is said once, in `becomes_step`.
-/

namespace TerraformTrace

namespace Registry

/-! ### Places -/

/-- A path can be used, and to a program that runs in the directory it names the place. -/
def Names (dir path place : Path) : Prop := path.hasNul = false ∧ (dir.join path).normalize = place

variable {registry : Registry}

/-- A path that cannot be used names no place, and any other names one. -/
theorem locate_cases (registry : Registry) (path : Path) :
    (registry.locate path = .error ⟨path⟩ ∧ ∀ place, ¬ Names registry.directory path place) ∨
      ∃ place, registry.locate path = .ok place ∧ place.normalize = place ∧
        ∀ other, Names registry.directory path other ↔ place = other := by
  unfold locate
  rcases path.usable_cases with ⟨hnul, husable⟩ | ⟨hnul, husable⟩
  · rw [husable]
    refine .inl ⟨rfl, fun place hnames => ?_⟩
    rw [hnames.1] at hnul
    cases hnul
  · rw [husable]
    refine .inr ⟨_, rfl, Path.normalize_normalize _, fun other => ?_⟩
    simp [Names, hnul]

/-! ### Commands -/

/-- Whether a command opens a root. -/
def Command.Opens (dir root : Path) : Command → Prop
  | .openRoot given => Names dir given root
  | _ => False

/-- Whether a command closes a root. -/
def Command.Closes (dir root : Path) : Command → Prop
  | .close given => Names dir given root
  | .closeAll => True
  | _ => False

/-- A root was opened, under some name, and not closed since. -/
def StaysOpen (dir : Path) (commands : List Command) (root : Path) : Prop :=
  ∃ earlier command later, commands = earlier ++ command :: later ∧
    command.Opens dir root ∧ ∀ other ∈ later, ¬ other.Closes dir root

theorem run_concat (dir : Path) (settings : Settings) (commands : List Command)
    (command : Command) :
    run dir settings (commands ++ [command]) = (run dir settings commands).step command := by
  simp [run]

theorem staysOpen_concat {dir : Path} {commands : List Command} {command : Command} {root : Path} :
    StaysOpen dir (commands ++ [command]) root ↔ command.Opens dir root ∨
      StaysOpen dir commands root ∧ ¬ command.Closes dir root := by
  constructor
  · rintro ⟨earlier, opening, later, hcommands, hopens, hlater⟩
    rcases List.eq_nil_or_concat later with rfl | ⟨later, last, rfl⟩
    · -- the last command opened the root
      obtain ⟨-, hlast⟩ := List.append_inj' hcommands rfl
      cases hlast
      exact .inl hopens
    · have hsplit : commands ++ [command] = (earlier ++ opening :: later) ++ [last] := by
        simpa using hcommands
      obtain ⟨rfl, hlast⟩ := List.append_inj' hsplit rfl
      cases hlast
      refine .inr ⟨⟨earlier, opening, later, rfl, hopens, fun other hother => ?_⟩, ?_⟩
      · exact hlater other (by simp [hother])
      · exact hlater command (by simp)
  · rintro (hopens | ⟨⟨earlier, opening, later, rfl, hopens, hlater⟩, hcloses⟩)
    · exact ⟨commands, command, [], rfl, hopens, by simp⟩
    · refine ⟨earlier, opening, later ++ [command], by simp, hopens, fun other hother => ?_⟩
      rcases List.mem_append.mp hother with hother | hother
      · exact hlater other hother
      · rwa [List.mem_singleton.mp hother]

/-! ### Open roots -/

/-- The roots of the engines, in order. -/
def roots (registry : Registry) : List Path := registry.engines.map (·.root)

theorem mem_roots {root : Path} :
    root ∈ registry.roots ↔ ∃ engine ∈ registry.engines, engine.root = root := by
  simp [roots]

/-- No root has two engines, and every root is normal. -/
structure IsOrderly (registry : Registry) : Prop where
  nodup : registry.roots.Nodup
  normal : ∀ root ∈ registry.roots, root.normalize = root

/-- A registry that has become another one with these roots, in the same directory and with
the same settings. -/
structure Becomes (registry other : Registry) (roots : List Path) : Prop where
  roots_eq : other.roots = roots
  directory_eq : other.directory = registry.directory
  settings_eq : other.settings = registry.settings

theorem exists_openAt (registry : Registry) (hcapacity : 1 ≤ registry.settings.cacheMaxEntries)
    (place : Path) : ∃ engine opened, registry.openAt place = .ok (engine, opened) ∧
      registry.Becomes opened
        (if place ∈ registry.roots then registry.roots else registry.roots ++ [place]) := by
  unfold openAt
  cases hfound : registry.engineAt? place with
  | some engine =>
    have hroot : engine.root = place := by simpa using List.find?_some hfound
    have hmem : place ∈ registry.roots :=
      mem_roots.mpr ⟨engine, List.mem_of_find?_eq_some hfound, hroot⟩
    exact ⟨engine, registry, rfl, by rw [if_pos hmem], rfl, rfl⟩
  | none =>
    have hmem : place ∉ registry.roots := by
      intro hmem
      obtain ⟨engine, hengine, hroot⟩ := mem_roots.mp hmem
      simpa [hroot] using List.find?_eq_none.mp hfound engine hengine
    have hroom : ¬ ((registry.settings.cacheMaxEntries : Int) < 1) := by omega
    simp only [Session.create, Cache.create, if_neg hroom, if_neg hmem]
    exact ⟨_, _, rfl, by simp [roots], rfl, rfl⟩

theorem becomes_closeAt (registry : Registry) (place : Path) :
    registry.Becomes (registry.closeAt place).2 (registry.roots.filter (· ≠ place)) where
  roots_eq := by
    simp only [closeAt, roots, List.filter_map]
    rfl
  directory_eq := rfl
  settings_eq := rfl

theorem becomes_update (registry : Registry) (root : Path) (session : Session) :
    registry.Becomes (registry.update root session) registry.roots where
  roots_eq := by
    simp only [roots, update, List.map_map]
    refine List.map_congr_left fun engine _ => ?_
    simp only [Function.comp]
    split <;> rfl
  directory_eq := rfl
  settings_eq := rfl

/-- A request, of an engine that a path belongs to or of none, opens and closes nothing. -/
theorem becomes_ask {α : Type} {path : Path} {query : Engine → Query α} {answer : Option α}
    {other : Registry} (h : registry.ask path query = .ok (answer, other)) :
    registry.Becomes other registry.roots := by
  unfold ask at h
  cases hfind : registry.find? path with
  | error error =>
    rw [hfind] at h
    cases h
  | ok owner =>
    rw [hfind] at h
    cases owner with
    | none =>
      cases h
      exact ⟨rfl, rfl, rfl⟩
    | some engine =>
      cases h
      exact registry.becomes_update _ _

theorem becomes_fileChanged {tree : FileTree} {file : Path} {count : Nat} {other : Registry}
    (h : registry.fileChanged tree file = .ok (count, other)) :
    registry.Becomes other registry.roots := by
  unfold fileChanged at h
  cases hask : registry.ask file fun engine =>
      TerraformTrace.fileChanged (engine.workspace tree) file with
  | error error =>
    rw [hask] at h
    cases h
  | ok asked =>
    rw [hask] at h
    cases h
    exact becomes_ask hask

/-- What is left of a command that may fail. -/
theorem Becomes.of_toOption {ε α : Type} {result : Except ε (α × Registry)}
    (h : ∀ answer other, result = .ok (answer, other) → registry.Becomes other registry.roots) :
    registry.Becomes ((result.toOption.map (·.2)).getD registry) registry.roots := by
  cases result with
  | error error => exact ⟨rfl, rfl, rfl⟩
  | ok pair => exact h pair.1 pair.2 rfl

/-- The roots after a command. -/
def rootsAfter (registry : Registry) : Command → List Path
  | .openRoot given =>
    match registry.locate given with
    | .error _ => registry.roots
    | .ok place => if place ∈ registry.roots then registry.roots else registry.roots ++ [place]
  | .close given =>
    match registry.locate given with
    | .error _ => registry.roots
    | .ok place => registry.roots.filter (· ≠ place)
  | .closeAll => []
  | .notify .. | .refresh | .request .. => registry.roots

theorem becomes_step (registry : Registry) (hcapacity : 1 ≤ registry.settings.cacheMaxEntries)
    (command : Command) :
    registry.Becomes (registry.step command) (registry.rootsAfter command) := by
  cases command with
  | openRoot given =>
    rw [step, rootsAfter, openRoot]
    cases registry.locate given with
    | error error => exact ⟨rfl, rfl, rfl⟩
    | ok place =>
      obtain ⟨engine, opened, hopen, hbecomes⟩ := registry.exists_openAt hcapacity place
      show registry.Becomes
        ((((registry.openAt place).mapError OpenError.cache).toOption.map (·.2)).getD registry) _
      rw [hopen]
      exact hbecomes
  | close given =>
    rw [step, rootsAfter, close]
    cases registry.locate given with
    | error error => exact ⟨rfl, rfl, rfl⟩
    | ok place => exact registry.becomes_closeAt place
  | notify tree file => exact .of_toOption fun _ _ => becomes_fileChanged
  | refresh => exact ⟨by simp [step, refresh, roots, rootsAfter], rfl, rfl⟩
  | closeAll => exact ⟨rfl, rfl, rfl⟩
  | request path query => exact .of_toOption fun _ _ => becomes_ask

/-- After a command those roots are open that it opens, and those that were open and that
it does not close. -/
theorem mem_rootsAfter (registry : Registry) (command : Command) (root : Path) :
    root ∈ registry.rootsAfter command ↔ command.Opens registry.directory root ∨
      root ∈ registry.roots ∧ ¬ command.Closes registry.directory root := by
  cases command with
  | openRoot given =>
    simp only [rootsAfter, Command.Opens, Command.Closes, not_false_eq_true, and_true]
    rcases registry.locate_cases given with ⟨hlocate, hnames⟩ | ⟨place, hlocate, -, hnames⟩
    · simp [hlocate, hnames]
    · simp only [hlocate, hnames]
      split
      next hmem =>
        refine ⟨.inr, ?_⟩
        rintro (rfl | hroot)
        · exact hmem
        · exact hroot
      next => simp [or_comm, eq_comm]
  | close given =>
    simp only [rootsAfter, Command.Opens, Command.Closes, false_or]
    rcases registry.locate_cases given with ⟨hlocate, hnames⟩ | ⟨place, hlocate, -, hnames⟩
    · simp [hlocate, hnames]
    · simp only [hlocate, hnames, List.mem_filter, decide_eq_true_eq]
      rw [ne_comm]
  | closeAll => simp [rootsAfter, Command.Opens, Command.Closes]
  | notify | refresh | request => simp [rootsAfter, Command.Opens, Command.Closes]

theorem nodup_rootsAfter (h : registry.roots.Nodup) (command : Command) :
    (registry.rootsAfter command).Nodup := by
  cases command with
  | openRoot given =>
    rw [rootsAfter]
    cases registry.locate given with
    | error error => exact h
    | ok place =>
      dsimp only
      split
      next => exact h
      next hmem =>
        refine h.append (List.nodup_singleton _) ?_
        simpa using hmem
  | close given =>
    rw [rootsAfter]
    cases registry.locate given with
    | error error => exact h
    | ok place => exact h.filter _
  | closeAll => exact List.nodup_nil
  | notify | refresh | request => exact h

theorem IsOrderly.step (h : registry.IsOrderly)
    (hcapacity : 1 ≤ registry.settings.cacheMaxEntries) (command : Command) :
    (registry.step command).IsOrderly where
  nodup := by
    rw [(registry.becomes_step hcapacity command).roots_eq]
    exact nodup_rootsAfter h.nodup command
  normal := by
    intro root hroot
    rw [(registry.becomes_step hcapacity command).roots_eq, mem_rootsAfter] at hroot
    rcases hroot with hopens | ⟨hroot, -⟩
    · cases command with
      | openRoot given =>
        rcases registry.locate_cases given with ⟨-, hnames⟩ | ⟨place, -, hplace, hnames⟩
        · exact absurd hopens (hnames root)
        · rwa [← (hnames root).mp hopens]
      | close | notify | refresh | closeAll | request => exact hopens.elim
    · exact h.normal root hroot

section Run

variable {settings : Settings} (hcapacity : 1 ≤ settings.cacheMaxEntries) (dir : Path)
include hcapacity

/-- The open roots are those that were opened and not closed since, each with one engine. -/
theorem isOrderly_run (commands : List Command) :
    (run dir settings commands).IsOrderly ∧ (run dir settings commands).directory = dir ∧
      (run dir settings commands).settings = settings ∧
      ∀ root, root ∈ (run dir settings commands).roots ↔ StaysOpen dir commands root := by
  induction commands using List.reverseRecOn with
  | nil =>
    refine ⟨⟨List.nodup_nil, nofun⟩, rfl, rfl, fun root => ⟨nofun, ?_⟩⟩
    rintro ⟨earlier, command, later, hnil, -⟩
    simp at hnil
  | append_singleton commands command ih =>
    obtain ⟨horderly, hdir, hsettings, hroots⟩ := ih
    have hroom : 1 ≤ (run dir settings commands).settings.cacheMaxEntries := by
      rwa [hsettings]
    have hbecomes := becomes_step _ hroom command
    rw [run_concat]
    refine ⟨horderly.step hroom command, hbecomes.directory_eq.trans hdir,
      hbecomes.settings_eq.trans hsettings, fun root => ?_⟩
    rw [hbecomes.roots_eq, mem_rootsAfter, staysOpen_concat, hdir, hroots]

end Run

/-! ### The deepest root -/

/-- Of some roots, the one that a place lies in, component by component, and that is deeper
than all others in which it lies. -/
def IsDeepest (isOpen : Path → Prop) (place root : Path) : Prop :=
  isOpen root ∧ root.parts <+: place.parts ∧
    ∀ other, isOpen other → other.parts <+: place.parts → other ≠ root →
      other.parts.length < root.parts.length

/-- The search keeps one of the engines, and none is deeper. -/
theorem foldl_deeper (engines : List Engine) (best : Engine) : ∃ found,
    engines.foldl deeper (some best) = some found ∧ found ∈ best :: engines ∧
      ∀ other ∈ best :: engines, other.root.parts.length ≤ found.root.parts.length := by
  induction engines generalizing best with
  | nil => exact ⟨best, rfl, by simp, by simp⟩
  | cons engine engines ih =>
    rw [List.foldl_cons, deeper]
    by_cases hdeeper : best.root.parts.length < engine.root.parts.length
    · obtain ⟨found, hfold, hmem, hle⟩ := ih engine
      rw [if_pos hdeeper]
      refine ⟨found, hfold, List.mem_cons_of_mem _ hmem, ?_⟩
      have hengine := hle engine List.mem_cons_self
      exact List.forall_mem_cons.mpr ⟨by omega, hle⟩
    · obtain ⟨found, hfold, hmem, hle⟩ := ih best
      rw [if_neg hdeeper]
      obtain ⟨hbest, hrest⟩ := List.forall_mem_cons.mp hle
      refine ⟨found, hfold, ?_, ?_⟩
      · rcases List.mem_cons.mp hmem with rfl | hmem <;> simp [*]
      · exact List.forall_mem_cons.mpr ⟨hbest, List.forall_mem_cons.mpr ⟨by omega, hrest⟩⟩

section Owners

variable {place path : Path} {engine : Engine}

namespace IsOrderly

variable (h : registry.IsOrderly)
include h

/-- Of two roots around one place that are equally deep, there is one. -/
theorem root_eq {root other : Path} (hroot : root ∈ registry.roots)
    (hother : other ∈ registry.roots) (haround : root.parts <+: place.parts)
    (haround' : other.parts <+: place.parts)
    (hlength : other.parts.length = root.parts.length) : other = root := by
  have hparts : other.parts = root.parts :=
    (List.prefix_of_prefix_length_le haround' haround (Nat.le_of_eq hlength)).eq_of_length hlength
  rw [← h.normal root hroot, ← h.normal other hother, Path.normalize, Path.normalize, hparts]

theorem engine_eq {other : Engine} (hengine : engine ∈ registry.engines)
    (hother : other ∈ registry.engines) (hroot : other.root = engine.root) : other = engine :=
  List.inj_on_of_nodup_map h.nodup hother hengine hroot

section Owner

variable (hplace : place.normalize = place)
include hplace

theorem isWithin_iff (hengine : engine ∈ registry.engines) :
    engine.root.isWithin place = true ↔ engine.root.parts <+: place.parts := by
  have hroot := h.normal engine.root (mem_roots.mpr ⟨engine, hengine, rfl⟩)
  have hanchor : engine.root.anchor = place.anchor := by
    rw [← hroot, ← hplace]
    rfl
  simp [Path.isWithin, hanchor, List.isPrefixOf_iff_prefix]

theorem isDeepest_of_ownerOf? (hfind : registry.ownerOf? place = some engine) :
    engine ∈ registry.engines ∧ IsDeepest (· ∈ registry.roots) place engine.root := by
  unfold ownerOf? at hfind
  cases haround : registry.engines.filter (·.root.isWithin place) with
  | nil => simp [haround] at hfind
  | cons first rest =>
    obtain ⟨found, hfold, hmem, hle⟩ := foldl_deeper rest first
    rw [haround, List.foldl_cons, deeper, hfold] at hfind
    cases hfind
    rw [← haround] at hmem hle
    obtain ⟨hengine, hwithin⟩ := List.mem_filter.mp hmem
    have hinside := (h.isWithin_iff hplace hengine).mp hwithin
    have hroot := mem_roots.mpr ⟨engine, hengine, rfl⟩
    refine ⟨hengine, hroot, hinside, ?_⟩
    intro other hother haround' hne
    obtain ⟨otherEngine, hotherEngine, rfl⟩ := mem_roots.mp hother
    have hother' := (h.isWithin_iff hplace hotherEngine).mpr haround'
    have hlength := hle otherEngine (List.mem_filter.mpr ⟨hotherEngine, hother'⟩)
    refine Nat.lt_of_le_of_ne hlength fun hlength => hne ?_
    exact h.root_eq hroot hother hinside haround' hlength

theorem ownerOf?_eq_none_iff :
    registry.ownerOf? place = none ↔ ∀ root ∈ registry.roots, ¬ root.parts <+: place.parts := by
  have hnone : registry.ownerOf? place = none ↔
      registry.engines.filter (·.root.isWithin place) = [] := by
    unfold ownerOf?
    cases registry.engines.filter (·.root.isWithin place) with
    | nil => simp
    | cons first rest =>
      obtain ⟨found, hfold, -⟩ := foldl_deeper rest first
      simp [deeper, hfold]
  rw [hnone, List.filter_eq_nil_iff]
  constructor
  · intro hoff root hroot
    obtain ⟨engine, hengine, rfl⟩ := mem_roots.mp hroot
    exact fun haround => hoff engine hengine ((h.isWithin_iff hplace hengine).mpr haround)
  · intro hoff engine hengine hwithin
    exact hoff engine.root (mem_roots.mpr ⟨engine, hengine, rfl⟩)
      ((h.isWithin_iff hplace hengine).mp hwithin)

/-- A place belongs to the engine of the deepest root around it. -/
theorem ownerOf?_eq_some_iff : registry.ownerOf? place = some engine ↔
    engine ∈ registry.engines ∧ IsDeepest (· ∈ registry.roots) place engine.root := by
  refine ⟨h.isDeepest_of_ownerOf? hplace, ?_⟩
  rintro ⟨hengine, hroot, haround, hdeepest⟩
  cases hfind : registry.ownerOf? place with
  | none => exact absurd haround ((h.ownerOf?_eq_none_iff hplace).mp hfind _ hroot)
  | some found =>
    obtain ⟨hfound, hroot', haround', hdeepest'⟩ := h.isDeepest_of_ownerOf? hplace hfind
    -- each of two different roots would be deeper than the other
    by_cases hsame : found.root = engine.root
    · rw [h.engine_eq hengine hfound hsame]
    · have hlt := hdeepest _ hroot' haround' hsame
      have hgt := hdeepest' _ hroot haround (Ne.symm hsame)
      omega

end Owner

/-- A path belongs to the engine of the deepest root around the place it names. -/
theorem find?_eq_some_iff : registry.find? path = .ok (some engine) ↔
    ∃ place, Names registry.directory path place ∧ engine ∈ registry.engines ∧
      IsDeepest (· ∈ registry.roots) place engine.root := by
  rw [find?]
  rcases registry.locate_cases path with ⟨hlocate, hnames⟩ | ⟨place, hlocate, hplace, hnames⟩
  · rw [hlocate]
    exact ⟨nofun, fun ⟨place, hnamed, _⟩ => absurd hnamed (hnames place)⟩
  · rw [hlocate]
    show Except.ok (registry.ownerOf? place) = _ ↔ _
    simp only [hnames, exists_eq_left', ← h.ownerOf?_eq_some_iff hplace, Except.ok.injEq]

theorem find?_eq_none_iff : registry.find? path = .ok none ↔
    ∃ place, Names registry.directory path place ∧
      ∀ root ∈ registry.roots, ¬ root.parts <+: place.parts := by
  rw [find?]
  rcases registry.locate_cases path with ⟨hlocate, hnames⟩ | ⟨place, hlocate, hplace, hnames⟩
  · rw [hlocate]
    exact ⟨nofun, fun ⟨place, hnamed, _⟩ => absurd hnamed (hnames place)⟩
  · rw [hlocate]
    show Except.ok (registry.ownerOf? place) = _ ↔ _
    simp only [hnames, exists_eq_left', ← h.ownerOf?_eq_none_iff hplace, Except.ok.injEq]

end IsOrderly

theorem IsDeepest.congr {isOpen isOpen' : Path → Prop} {root : Path}
    (hopen : ∀ root, isOpen root ↔ isOpen' root) :
    IsDeepest isOpen path root ↔ IsDeepest isOpen' path root := by
  simp only [IsDeepest, hopen]

end Owners

/-- The root that a path belongs to depends on the directory and on the open roots only. -/
theorem IsOrderly.root_find?_congr {other : Registry} (h : registry.IsOrderly)
    (h' : other.IsOrderly) (hdir : other.directory = registry.directory)
    (hroots : ∀ root, root ∈ other.roots ↔ root ∈ registry.roots) (path : Path) :
    (other.find? path).map (·.map (·.root)) = (registry.find? path).map (·.map (·.root)) := by
  have hlocate : other.locate path = registry.locate path := by
    rw [locate, locate, hdir]
  rw [find?, find?, hlocate]
  rcases registry.locate_cases path with ⟨hlocated, -⟩ | ⟨place, hlocated, hplace, -⟩
  · rw [hlocated]
    rfl
  · rw [hlocated]
    have howner {registry : Registry} (h : registry.IsOrderly) (root : Path) :
        (registry.ownerOf? place).map (·.root) = some root ↔
          IsDeepest (· ∈ registry.roots) place root := by
      rw [Option.map_eq_some_iff]
      constructor
      · rintro ⟨engine, hfind, rfl⟩
        exact ((h.ownerOf?_eq_some_iff hplace).mp hfind).2
      · intro hdeepest
        obtain ⟨engine, hengine, rfl⟩ := mem_roots.mp hdeepest.1
        exact ⟨engine, (h.ownerOf?_eq_some_iff hplace).mpr ⟨hengine, hdeepest⟩, rfl⟩
    refine congrArg Except.ok (Option.ext fun root => ?_)
    rw [howner h', howner h]
    exact IsDeepest.congr hroots

/-! ### Changed files -/

/-- The engine with another cache. -/
def withCache (engine : Engine) (cache : Cache Binary64 Remembered) : Engine :=
  { engine with session := { engine.session with cache } }

/-- A changed file changes the cache of the engine that owns it, as the engine itself says,
and nothing else. -/
theorem IsOrderly.fileChanged_of_owner (h : registry.IsOrderly) (tree : FileTree) {file : Path}
    {owner : Engine} (hfind : registry.find? file = .ok (some owner)) : ∃ count cache,
      TerraformTrace.fileChanged (owner.workspace tree) file owner.session =
        (count, { owner.session with cache }) ∧
      registry.fileChanged tree file = .ok (count, { registry with
        engines := registry.engines.map fun engine =>
          if engine.root = owner.root then withCache owner cache else engine }) := by
  obtain ⟨-, -, howner, -⟩ := h.find?_eq_some_iff.mp hfind
  refine
    ⟨_, (TerraformTrace.fileChanged (owner.workspace tree) file owner.session).2.cache, rfl, ?_⟩
  rw [fileChanged, ask, hfind]
  refine congrArg (fun engines => Except.ok (_, { registry with engines })) ?_
  refine List.map_congr_left fun engine hengine => ?_
  split
  next hroot => rw [h.engine_eq howner hengine hroot]; rfl
  next => rfl

theorem fileChanged_of_none {tree : FileTree} {file : Path}
    (hfind : registry.find? file = .ok none) :
    registry.fileChanged tree file = .ok (0, registry) := by
  rw [fileChanged, ask, hfind]
  rfl

/-! ### Ownership -/

/-- After any commands to a program that runs in some directory, no root has two engines, the
open roots are those that were opened and not closed since, and a path belongs to the engine of
the deepest open root around the place it names, whatever the order in which the roots were
opened. When a file changes, the engine it belongs to drops results as it would if told itself,
and so many are counted. No other engine changes, and if the file belongs to none, nothing
does. -/
theorem run_ownership {settings : Settings} (hcapacity : 1 ≤ settings.cacheMaxEntries)
    (dir : Path) (commands : List Command) {registry : Registry}
    (hrun : run dir settings commands = registry) :
    (registry.engines.map (·.root)).Nodup ∧
    (∀ root, (∃ engine ∈ registry.engines, engine.root = root) ↔ StaysOpen dir commands root) ∧
    (∀ path engine, registry.find? path = .ok (some engine) ↔
      ∃ place, Names dir path place ∧ engine ∈ registry.engines ∧
        IsDeepest (StaysOpen dir commands) place engine.root) ∧
    (∀ path, registry.find? path = .ok none ↔
      ∃ place, Names dir path place ∧
        ∀ root, StaysOpen dir commands root → ¬ root.parts <+: place.parts) ∧
    (∀ others, (∀ root, StaysOpen dir others root ↔ StaysOpen dir commands root) →
      ∀ path, ((run dir settings others).find? path).map (·.map (·.root)) =
        (registry.find? path).map (·.map (·.root))) ∧
    (∀ tree file owner, registry.find? file = .ok (some owner) → ∃ count cache,
      TerraformTrace.fileChanged (owner.workspace tree) file owner.session =
        (count, { owner.session with cache }) ∧
      registry.fileChanged tree file = .ok (count, { registry with
        engines := registry.engines.map fun engine =>
          if engine.root = owner.root then withCache owner cache else engine })) ∧
    (∀ tree file, registry.find? file = .ok none →
      registry.fileChanged tree file = .ok (0, registry)) := by
  subst hrun
  obtain ⟨horderly, hdir, -, hopen⟩ := isOrderly_run hcapacity dir commands
  refine ⟨horderly.nodup, fun root => ?_, fun path engine => ?_, fun path => ?_,
    fun others hsame path => ?_, fun tree file owner => horderly.fileChanged_of_owner tree,
    fun tree file => fileChanged_of_none⟩
  · rw [← mem_roots, hopen]
  · simp only [horderly.find?_eq_some_iff, hdir, IsDeepest.congr hopen]
  · simp only [horderly.find?_eq_none_iff, hdir, hopen]
  · obtain ⟨hothers, hdir', -, hopen'⟩ := isOrderly_run hcapacity dir others
    refine horderly.root_find?_congr hothers (hdir'.trans hdir.symm) (fun root => ?_) path
    rw [hopen', hsame, hopen]

/-- A path that is written down. -/
def place (text : String) : Path := .ofText text.toList

/-- Nested roots: one is opened under two names, one of which is relative, and the innermost is
closed again. -/
def nested : List Command :=
  [.openRoot (place "/ws"), .openRoot (place "a/../b"), .openRoot (place "//ws/./b/"),
    .openRoot (place "/ws/b/c"), .close (place "/ws//b/c")]

/-- A file below the root that was closed belongs to the one around it. When it changes, so many
results are dropped as the engine of that root says. -/
theorem nested_ownership : 1 ≤ ({} : Settings).cacheMaxEntries ∧
    (run (place "/ws") {} nested).engines.map (·.root) = [place "/ws", place "/ws/b"] ∧
    ∃ owner count cache, owner.root = place "/ws/b" ∧
      (run (place "/ws") {} nested).find? (place "b/c/main.tf") = .ok (some owner) ∧
      IsDeepest (StaysOpen (place "/ws") nested) (place "/ws/b/c/main.tf") owner.root ∧
      TerraformTrace.fileChanged (owner.workspace {}) (place "b/c/main.tf") owner.session =
        (count, { owner.session with cache }) ∧
      (((run (place "/ws") {} nested).fileChanged {} (place "b/c/main.tf")).map (·.1)) =
        .ok count := by
  have hcapacity : 1 ≤ ({} : Settings).cacheMaxEntries := by decide
  obtain ⟨-, -, howner, -, -, hchanged, -⟩ := run_ownership hcapacity (place "/ws") nested rfl
  have hroot : ((run (place "/ws") {} nested).ownerOf? (place "/ws/b/c/main.tf")).map (·.root) =
      some (place "/ws/b") := by decide
  obtain ⟨owner, hfind, hengine⟩ := Option.map_eq_some_iff.mp hroot
  have hfound : (run (place "/ws") {} nested).find? (place "b/c/main.tf") = .ok (some owner) :=
    congrArg Except.ok hfind
  obtain ⟨named, hnamed, -, hdeepest⟩ := (howner _ _).mp hfound
  obtain rfl : named = place "/ws/b/c/main.tf" := hnamed.2.symm.trans (by decide)
  obtain ⟨count, cache, hcache, hafter⟩ := hchanged {} _ owner hfound
  refine ⟨hcapacity, by decide, owner, count, cache, hengine, hfound, hdeepest, hcache, ?_⟩
  rw [hafter]
  rfl

end Registry

end TerraformTrace
