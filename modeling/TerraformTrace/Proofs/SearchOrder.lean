import TerraformTrace.Proofs.DirectorySearch
import TerraformTrace.Proofs.Transparency

/-!
# TerraformTrace.Proofs.SearchOrder

Which of its values an input gets. A directory and those above it, up to the root of the
workspace and up to the bound on depth, each have a list of what they assign to the
input. **The value is the first text of these lists put together**, as long as no text
is empty or has references in it (`input_answer_eq_first`).

The search makes one frame for each directory. The frames differ in their directories,
so none is cut, and none comes to the empty text; this is why each of them can be
remembered (`answers_resolveFrame`).
-/

namespace TerraformTrace

/-! ### The way up -/

namespace Workspace

/-- The first text that is assigned to a name in a directory or above it, on this many
levels. -/
def firstAssigned (ws : Workspace) (mode : SearchMode) (name : Text) (levels : Nat)
    (dir : Path) : Option Text :=
  (((ws.upToRoot dir).take levels).flatMap (ws.assignments mode name)).head?

/-- The first text that is assigned above a directory on this many levels. -/
def firstAbove (ws : Workspace) (mode : SearchMode) (name : Text) (levels : Nat)
    (dir : Path) : Option Text :=
  if dir = ws.root then none
  else ws.firstAssigned mode name levels dir.parent

section Climb

variable {ws : Workspace} {mode : SearchMode} {name : Text} {dir : Path} (hroot : ws.root.IsNormal)

theorem firstAssigned_ne (levels : Nat)
    (h : ∀ above ∈ ws.upToRoot dir, ws.Settles mode name above) :
    ws.firstAssigned mode name levels dir ≠ some [] := by
  intro hempty
  obtain ⟨above, habove, hmem⟩ := List.mem_flatMap.mp (List.mem_of_mem_head? hempty)
  exact ((h above (List.mem_of_mem_take habove)).texts [] hmem).1 rfl

include hroot

/-- What a directory assigns comes before what is assigned above it. -/
theorem firstAssigned_succ (hdir : dir.IsNormal)
    (hcontains : ws.contains dir = true) (levels : Nat) :
    ws.firstAssigned mode name (levels + 1) dir =
      (ws.assignments mode name dir).head?.or (ws.firstAbove mode name levels dir) := by
  unfold firstAssigned firstAbove
  by_cases hne : dir = ws.root
  · rw [if_pos hne, hne, upToRoot_root]
    simp
  · rw [if_neg hne, upToRoot_of_ne hroot hdir hcontains hne, List.take_succ_cons,
      List.flatMap_cons, List.head?_append]
    rfl

end Climb

end Workspace

section Climb

variable {ws : Workspace} {mode : SearchMode} {name : Text}
  (hworks : ws.disk.Works) (hroot : ws.root.IsNormal)

include hworks hroot

/-- Above a directory that is not the root the search goes on. -/
theorem Direct.searchParent_eq {dir : Path} (h : ws.Settles mode name dir)
    {evaluate : Reference → Path → List ModuleFrame → Except Abort (Option Text)}
    {ref : Reference} {left : Nat}
    (habove : dir ≠ ws.root → evaluate ref dir.parent [] =
      .ok (ws.firstAssigned mode name left dir.parent)) :
    Direct.searchParent ws evaluate ref dir [] = .ok (ws.firstAbove mode name left dir) := by
  unfold Direct.searchParent Workspace.firstAbove
  by_cases hne : dir = ws.root
  · simp [hne, Pure.pure, Except.pure]
  · have hcontains := Workspace.contains_parent hroot h.exists_.normal h.inside hne
    have hself := Workspace.parent_ne hroot h.exists_.normal h.inside hne
    dsimp only
    rw [if_neg (by simp [hne, hself, hcontains]), hworks.isDirectory,
      if_neg (by simp [h.exists_.parent.isDirectory]), if_neg hne]
    exact habove hne

/-- Without memory an input has the first text that is assigned to it. -/
theorem evaluate_ofInput (left : Nat) {dir : Path}
    (h : ∀ above ∈ ws.upToRoot dir, ws.Settles mode name above) :
    evaluate ws mode left (.ofInput name) dir [] = .ok (ws.firstAssigned mode name left dir) := by
  induction left generalizing dir with
  | zero => rfl
  | succ left ih =>
    have hhere := h dir Workspace.mem_upToRoot
    have hsearch : Direct.searchDirectory ws mode (evaluate ws mode left)
        (.ofInput name) dir [] = .ok ((ws.assignments mode name dir).head?.map some) :=
      hhere.searchInput hworks hroot _
    have habove : Direct.searchParent ws (evaluate ws mode left) (.ofInput name)
        dir [] = .ok (ws.firstAbove mode name left dir) := by
      refine Direct.searchParent_eq hworks hroot hhere fun hne => ih fun above habove => ?_
      exact h above (Workspace.mem_upToRoot_of_parent hroot hhere.exists_.normal hhere.inside
        hne habove)
    rw [evaluate_of_properties rfl, Direct.searchSymbol, hsearch, habove,
      Workspace.firstAssigned_succ hroot hhere.exists_.normal hhere.inside]
    cases (ws.assignments mode name dir).head? with
    | some text => rfl
    | none => rfl

end Climb

/-! ### Frames on the way up -/

/-- A context on the way up: the frames above it are those of directories below its own. -/
def Context.Climbs (ctx : Context) : Prop :=
  ∀ pair ∈ ctx.visited, ∃ below : Path, below.IsNormal ∧ pair.1 = below.toText ∧
    ctx.directory.parts.length < below.parts.length

variable {ctx : Context}

theorem Context.Climbs.isCycle (h : ctx.Climbs)
    (hnormal : ctx.directory.IsNormal) : ctx.isCycle = false := by
  refine Bool.eq_false_iff.mpr fun hcycle => ?_
  obtain ⟨below, hbelow, htext, hlength⟩ := h _ (List.contains_iff_mem.mp hcycle)
  -- equal texts would make the two directories equal, but one has more components
  rw [hnormal.toText_inj hbelow htext] at hlength
  omega

theorem Context.Climbs.child (h : ctx.Climbs) (hnormal : ctx.directory.IsNormal)
    (hlength : ctx.directory.parent.parts.length < ctx.directory.parts.length)
    (ref : Reference) (stack : List ModuleFrame) :
    (ctx.child ref ctx.directory.parent stack).Climbs := by
  intro pair hpair
  rcases List.mem_insert_iff.mp hpair with rfl | hpair
  · exact ⟨ctx.directory, hnormal, rfl, hlength⟩
  · obtain ⟨below, hbelow, htext, hbelowLength⟩ := h pair hpair
    exact ⟨below, hbelow, htext, Nat.lt_trans hlength hbelowLength⟩

/-- A frame that is not cut comes to its meaning if its computation does. -/
theorem Answers.frame {ws : Workspace} {mode : SearchMode} {compute : Run Resolution}
    {value : Option Text} (hfound : ctx.IsFound ws mode)
    (hcycle : ctx.isCycle = false) (hmeaning : evaluateFrame ws mode ctx = .ok value)
    (hne : value ≠ some []) (hcompute : Answers (Faithful ws) compute (.ok { value })) :
    Answers (Faithful ws) (frame mode ctx compute) (.ok { value }) := by
  have hends : ∀ s, Faithful ws s →
      TerraformTrace.outcome (TerraformTrace.frame mode ctx compute) s = .ok { value } ∧
        Faithful ws (after (TerraformTrace.frame mode ctx compute) s) := by
    intro s hs
    refine frame_cases mode ctx compute s fun hends => ?_
    have hopened : Faithful ws (opened mode ctx s) := hs.opened
    have hout := hcompute.outcome _ hopened
    cases hends with
    | cut hcut => simp [hcycle] at hcut
    | hit hcycle known hget =>
      -- what is remembered in a faithful session is the meaning, so it is this value
      have hknown := Kept.of_frame hfound (hs.allowed hget)
      rw [hmeaning] at hknown
      cases hknown
      exact ⟨rfl, hopened.returned_frame hfound hmeaning⟩
    | aborted hcycle hget abort habort =>
      rw [hout] at habort
      cases habort
    | stored hcycle hget found hstored =>
      rw [hout] at hstored
      cases hstored
      exact ⟨rfl, (hcompute.keeps _ hopened).stored_frame hfound hmeaning hne⟩
    | unstored hcycle hget found hunstored =>
      rw [hout] at hunstored
      cases hunstored
  exact ⟨fun s hs => (hends s hs).1, fun s hs => (hends s hs).2⟩

section Climb

variable {ws : Workspace} {mode : SearchMode} {name : Text}
  (hworks : ws.disk.Works) (hroot : ws.root.IsNormal)

include hworks hroot

section Step

variable {ctx : Context} {nested : Context → Run Resolution} {left : Nat}
  (h : ws.Settles mode name ctx.directory)
  (hnested : ctx.directory ≠ ws.root → Answers (Faithful ws)
    (nested (ctx.child ctx.reference ctx.directory.parent ctx.stack))
    (.ok { value := ws.firstAssigned mode name left ctx.directory.parent }))

include h hnested

/-- What is found above a directory is found by the frame of the directory above it. -/
theorem answers_searchParent :
    Answers (Faithful ws) (searchParent ws nested ctx)
      (.ok { value := ws.firstAbove mode name left ctx.directory }) := by
  unfold searchParent Workspace.firstAbove
  by_cases hne : ctx.directory = ws.root
  · simp only [hne, decide_true, Bool.true_or, if_true]
    exact Answers.pure _
  · have hcontains := Workspace.contains_parent hroot h.exists_.normal h.inside hne
    have hself := Workspace.parent_ne hroot h.exists_.normal h.inside hne
    dsimp only
    rw [if_neg (by simp [hne, hself, hcontains]), if_neg hne]
    refine Answers.ok_bind (Answers.checkDirectory ctx.directory.parent) ?_
    rw [hworks.isDirectory, if_neg (by simp [h.exists_.parent.isDirectory])]
    exact hnested hne

/-- One step up: the texts of the directory come first, then what the frame of the
directory above comes to. -/
theorem answers_searchSymbol (href : ctx.reference = .ofInput name) (hstack : ctx.stack = []) :
    Answers (Faithful ws) (searchSymbol ws mode nested ctx)
      (.ok { value := ws.firstAssigned mode name (left + 1) ctx.directory }) := by
  have hsearch : Answers (Faithful ws) (searchDirectory ws mode nested ctx)
      (searched (.ok ((ws.assignments mode name ctx.directory).head?.map some))) := by
    unfold searchDirectory
    rw [href]
    exact h.answers_searchInput hworks hroot (by rw [href]; rfl) rfl (by rw [hstack]; nofun) nested
  have habove := answers_searchParent hworks hroot h hnested
  unfold searchSymbol
  rw [Workspace.firstAssigned_succ hroot h.exists_.normal h.inside]
  cases hhead : (ws.assignments mode name ctx.directory).head? with
  | some text =>
    rw [hhead] at hsearch
    exact Answers.ok_bind hsearch (Answers.pure _)
  | none =>
    rw [hhead] at hsearch
    exact Answers.ok_bind hsearch (Answers.ok_bind habove (Answers.pure _))

end Step

variable {ctx : Context}

omit hworks hroot in
theorem Context.isFound_ofInput (hname : Text.isName name = true)
    (href : ctx.reference = .ofInput name) (hstack : ctx.stack = [])
    (hnormal : ctx.directory.IsNormal) : ctx.IsFound ws mode := by
  refine ⟨?_, ?_⟩
  · rw [href]
    intro segment hsegment
    rwa [List.mem_singleton.mp hsegment]
  · rw [hstack]
    exact Reaches.start hnormal

theorem evaluateFrame_ofInput {left : Nat} (href : ctx.reference = .ofInput name)
    (hstack : ctx.stack = []) (hdepth : ctx.depth + left = ws.settings.maxDepth + 1)
    (h : ∀ above ∈ ws.upToRoot ctx.directory, ws.Settles mode name above) :
    evaluateFrame ws mode ctx = .ok (ws.firstAssigned mode name left ctx.directory) := by
  rw [evaluateFrame_of_depth hdepth, href, hstack]
  exact evaluate_ofInput hworks hroot left h

/-- The frames of the directories up to the root come to the first text that is assigned
on the way. -/
theorem answers_resolveFrame (hname : Text.isName name = true) (left : Nat)
    (href : ctx.reference = .ofInput name) (hstack : ctx.stack = [])
    (hclimbs : ctx.Climbs) (hdepth : ctx.depth + left = ws.settings.maxDepth + 1)
    (h : ∀ above ∈ ws.upToRoot ctx.directory, ws.Settles mode name above) :
    Answers (Faithful ws) (resolveFrame ws mode left ctx)
      (.ok { value := ws.firstAssigned mode name left ctx.directory }) := by
  induction left generalizing ctx with
  | zero =>
    have hhere := h ctx.directory Workspace.mem_upToRoot
    have hfound : ctx.IsFound ws mode :=
      Context.isFound_ofInput hname href hstack hhere.exists_.normal
    have hmeaning := evaluateFrame_ofInput hworks hroot href hstack hdepth h
    exact Answers.note_bind (by simp)
      ⟨fun s _ => rfl, fun s hs => hs.returned_frame hfound hmeaning⟩
  | succ left ih =>
    have hhere := h ctx.directory Workspace.mem_upToRoot
    have hnormal := hhere.exists_.normal
    have hfound : ctx.IsFound ws mode := Context.isFound_ofInput hname href hstack hnormal
    have hmeaning := evaluateFrame_ofInput hworks hroot href hstack hdepth h
    have hproperties : ctx.reference.properties = [] := by
      rw [href]
      rfl
    unfold resolveFrame
    dsimp only
    rw [hproperties]
    refine Answers.frame hfound (hclimbs.isCycle hnormal) hmeaning
      (Workspace.firstAssigned_ne _ h) ?_
    refine answers_searchSymbol hworks hroot hhere (fun hne => ?_) href hstack
    -- the directory above has fewer components, so its frame is new
    have hlength := Workspace.length_parent_lt hroot hnormal hhere.inside hne
    refine ih href hstack (hclimbs.child hnormal hlength _ _) ?_ fun above habove => ?_
    · show ctx.depth + 1 + left = _
      omega
    · exact h above (Workspace.mem_upToRoot_of_parent hroot hnormal hhere.inside hne habove)

/-! ### Answers -/

/-- A request for an input comes to the first text that is assigned to it. -/
theorem answers_sought (hname : Text.isName name = true) {wanted : Wanted}
    (hwanted : wanted.reference? = some (.ofInput name)) {start : Path}
    (hstart : start.hasNul = false) (hdir : ws.HasDirectory (ws.normalize start))
    (hcontains : ws.contains (ws.normalize start) = true)
    (h : ∀ above ∈ ws.upToRoot (ws.normalize start), ws.Legible mode name above) :
    Answers (Faithful ws) (sought ws mode wanted start)
      (.ok (ws.firstAssigned mode name (ws.settings.maxDepth + 1) (ws.normalize start))) := by
  have hsettles : ∀ above ∈ ws.upToRoot (ws.normalize start), ws.Settles mode name above := by
    intro above habove
    obtain ⟨hexists, hinside⟩ := hdir.above hroot hcontains habove
    exact ⟨h above habove, hexists, hinside⟩
  have hclimbs : Context.Climbs
      { reference := .ofInput name, directory := ws.normalize start } := nofun
  have hframe := answers_resolveFrame hworks hroot hname (ws.settings.maxDepth + 1)
    rfl rfl hclimbs (Nat.zero_add _) hsettles
  have husable : Answers (Faithful ws) (usablePath start) _ := Answers.usablePath start
  rw [Path.usable_of_hasNul hstart] at husable
  unfold sought
  rw [hwanted]
  refine Answers.ok_bind husable ?_
  rw [if_neg (by simp [hcontains])]
  refine Answers.ok_bind (Answers.checkDirectory _) ?_
  rw [hworks.isDirectory, if_neg (by simp [hdir.isDirectory])]
  exact Answers.ok_bind hframe (Answers.pure _)

end Climb

/-- A fresh engine answers a request for an input with the first text that is assigned to
it in a directory or above it, as far as the root of the workspace and the bound on depth
allow, in either mode. The files of a directory count in the order of their names. -/
theorem input_answer_eq_first {ws : Workspace} (hroot : ws.root.IsNormal)
    (hworks : ws.disk.Works) {fresh : Session}
    (hfresh : Session.create ws.settings = .ok fresh) {name : Text}
    (hname : Text.isName name = true) {wanted : Wanted}
    (hwanted : wanted.reference? = some (.ofInput name)) {start : Path} (hstart : start.IsTidy)
    (hnul : start.hasNul = false)
    (hcontains : ws.contains (ws.normalize start) = true)
    (hdir : ws.disk.tree.isDirectory (ws.normalize start) = true)
    {mode : SearchMode}
    (hlegible : ∀ above ∈ ws.upToRoot (ws.normalize start), ws.Legible mode name above) :
    (resolveIn ws mode wanted start fresh).1 = (((ws.upToRoot (ws.normalize start)).take
        (ws.settings.maxDepth + 1)).flatMap (ws.assignments mode name)).head? ∧
    ∀ dir names, ws.disk.list dir = .ok names →
      names.Pairwise fun one next => Text.le one next = true := by
  refine ⟨?_, fun dir names => Disk.pairwise_list⟩
  have hexists : ws.HasDirectory (ws.normalize start) :=
    ⟨Workspace.isNormal_normalize hroot hstart, hdir⟩
  have hsought := answers_sought hworks hroot hname hwanted hnul hexists hcontains hlegible
  rw [resolveIn_fst, hsought.outcome fresh (faithful_of_create hfresh)]
  rfl

/-- An input with a default at the root, an argument in a call, and a default in the
called module. -/
def layered (maxDepth : Nat) : Workspace := .ofFiles { maxDepth } [
  (["main.tf"], "variable \"x\" \x7b\n  default = \"root\"\n\x7d\n"),
  (["a", "main.tf"], "module \"m\" \x7b\n  source = \"./m\"\n  x = \"argument\"\n\x7d\n"),
  (["a", "m", "main.tf"], "variable \"x\" \x7b\n  default = \"module\"\n\x7d\n"),
  (["a", "m", "n", "b.tfvars.json"], "\x7b\"y\": 1\x7d")]

/-- A directory below the module. -/
def belowModule : Path := .ofText "a/m/n".toList

/-- The directory below the module takes the module's value, which is the argument where
calls are looked at. With no level to go up there is no value. -/
theorem layered_answer_eq_first :
    (resolveIn (layered 1) .plain (written "var.x") belowModule .fresh).1 =
      some "\"module\"".toList ∧
    (resolveIn (layered 1) .enhanced (written "var.x") belowModule .fresh).1 =
      some "\"argument\"".toList ∧
    (resolveIn (layered 0) .enhanced (written "var.x") belowModule .fresh).1 = none := by
  have hroot : ∀ maxDepth, (layered maxDepth).root.IsNormal :=
    fun _ => show (layered 0).root.IsNormal by decide
  have hworks : ∀ maxDepth, (layered maxDepth).disk.Works :=
    fun _ => show (layered 0).disk.Works from ⟨rfl, by decide +kernel, by decide⟩
  have hanswer : ∀ (maxDepth : Nat) (mode : SearchMode),
      (((layered maxDepth).upToRoot ((layered maxDepth).normalize belowModule)).all fun above =>
        (layered maxDepth).Legible mode "x".toList above) = true →
      (layered maxDepth).disk.tree.isDirectory ((layered maxDepth).normalize belowModule) = true →
      (resolveIn (layered maxDepth) mode (written "var.x") belowModule .fresh).1 =
        (layered maxDepth).firstAssigned mode "x".toList (maxDepth + 1)
          ((layered maxDepth).normalize belowModule) := by
    intro maxDepth mode hlegible hdir
    have habove := List.all_eq_true.mp hlegible
    exact (input_answer_eq_first (hroot maxDepth) (hworks maxDepth) rfl (by decide) rfl (by decide)
      rfl rfl hdir fun above hmem => of_decide_eq_true (habove above hmem)).1
  refine ⟨(hanswer 1 .plain ?_ ?_).trans ?_, (hanswer 1 .enhanced ?_ ?_).trans ?_,
    (hanswer 0 .enhanced ?_ ?_).trans ?_⟩
  all_goals decide +kernel

/-! ### Searches that are given up -/

/-- A default in a directory, and above it a call whose source has a NUL character. -/
def severed : Workspace := .ofFiles {} [
  (["main.tf"], "module \"m\" \x7b\n  source = \"./\x00\"\n\x7d\n"),
  (["d", "main.tf"], "variable \"x\" \x7b\n  default = \"v\"\n\x7d\n")]

/-- A default beside a file over which the codec of the encoding gives up. -/
def unmarkedInput : Workspace :=
  .withUnmarked [(["main.tf"], "variable \"x\" \x7b\n  default = \"v\"\n\x7d\n")]

/-- The default is all that is assigned, and it is not found: the search is given up over
the source of the call, and over the file. -/
theorem severed_answer_eq_none :
    references "\"v\"".toList = [] ∧
    (severed.disk.Works ∧
      (severed.upToRoot (severed.normalize (.ofText "d".toList))).flatMap
        (severed.texts severed.settings.overrideSuffixes) = [] ∧
      (severed.upToRoot (severed.normalize (.ofText "d".toList))).flatMap
        (severed.assignments .enhanced "x".toList) = ["\"v\"".toList] ∧
      (resolveIn severed .enhanced (written "var.x") (.ofText "d".toList) .fresh).1 = none) ∧
    unmarkedInput.disk.codec?.isSome = true ∧
      (unmarkedInput.upToRoot unmarkedInput.root).flatMap
        (unmarkedInput.texts unmarkedInput.settings.overrideSuffixes) = [] ∧
      (unmarkedInput.upToRoot unmarkedInput.root).flatMap
        (unmarkedInput.assignments .plain "x".toList) = ["\"v\"".toList] ∧
      (resolveIn unmarkedInput .plain (written "var.x") here .fresh).1 = none := by
  refine ⟨?_, ⟨⟨rfl, by decide +kernel, by decide⟩, ?_, ?_, ?_⟩, ?_, ?_, ?_, ?_⟩
  all_goals decide +kernel

end TerraformTrace
