import TerraformTrace.Proofs.Alias
import TerraformTrace.Proofs.SearchOrder

/-!
# TerraformTrace.Proofs.PassThrough

Inputs that stand in their own way. A local value or an output that does nothing but pass
on the input of its name comes before the default of the input, and it leads back to the
input: the frame is cut, and **the value that was found settles the search without a
value**. The default counts only where nothing passes the input on
(`passThrough_answer_eq`).
-/

namespace TerraformTrace

open Hcl

/-! ### Directories that are given up over digits -/

namespace Workspace

/-- Whether a file of variables is JSON and given up over the digits of an integer. -/
def isOverlongFile (file : Path × Text) : Bool :=
  Text.endsWith ".json".toList file.1.name && isOverlong file.2

/-- Whether a file of variables of a directory is given up over the digits of an
integer. -/
def hasOverlong (ws : Workspace) (dir : Path) : Bool :=
  (ws.texts ws.settings.overrideSuffixes dir).any isOverlongFile

theorem hasOverlong_eq_false {ws : Workspace} {dir : Path} :
    ws.hasOverlong dir = false ↔ ∀ file ∈ ws.texts ws.settings.overrideSuffixes dir,
        Text.endsWith ".json".toList file.1.name = true →
        ∀ digits, Json.read file.2 ≠ .error (.tooManyDigits digits) := by
  simp only [hasOverlong, isOverlongFile, List.any_eq_false, Bool.and_eq_true, not_and,
    Bool.not_eq_true, isOverlong_eq_false]

end Workspace

namespace Direct

variable {ws : Workspace} {dir : Path}

/-- Files without a value are all read, up to the first that is given up. -/
theorem firstValue_error {extract : Path → Text → Except Abort (Option Text)} {paths : List Path}
    (hread : ∀ path ∈ paths,
      text? ws path = .ok (ws.disk.readText path).toOption)
    (hextract : ∀ file ∈ ws.readable paths,
      extract file.1 file.2 = .ok none ∨ ∃ abort, extract file.1 file.2 = .error abort)
    (herror : ∃ file ∈ ws.readable paths, ∃ abort, extract file.1 file.2 = .error abort) :
    ∃ abort, firstValue ws extract paths = .error abort := by
  induction paths with
  | nil =>
    obtain ⟨file, hmem, -⟩ := herror
    exact absurd hmem List.not_mem_nil
  | cons path paths ih =>
    have hpaths := fun other hmem => hread other (List.mem_cons_of_mem path hmem)
    unfold firstValue
    rw [hread path List.mem_cons_self]
    cases htext : (ws.disk.readText path).toOption with
    | none =>
      rw [readable_cons_none htext] at hextract herror
      exact ih hpaths hextract herror
    | some text =>
      rw [readable_cons_some htext] at hextract herror
      simp only [Bind.bind, Except.bind]
      rcases hextract (path, text) List.mem_cons_self with hnone | ⟨abort, habort⟩
      · simp only [hnone]
        refine ih hpaths (List.forall_mem_cons.mp hextract).2 ?_
        obtain ⟨file, hmem, abort, habort⟩ := herror
        rcases List.mem_cons.mp hmem with rfl | hmem
        · rw [hnone] at habort
          cases habort
        · exact ⟨file, hmem, abort, habort⟩
      · simp only [habort]
        exact ⟨abort, rfl⟩

/-- A file of variables has the value it assigns, unless it is given up. -/
theorem overrideIn_eq (name : Text) (file : Path × Text) :
    (Workspace.isOverlongFile file = false ∧
      overrideIn name file.1 file.2 = .ok (Workspace.overrideIn? name file)) ∨
    (Workspace.isOverlongFile file = true ∧
      ∃ abort, overrideIn name file.1 file.2 = .error abort) := by
  unfold Workspace.isOverlongFile isOverlong overrideIn Workspace.overrideIn?
  by_cases hjson : Text.endsWith ".json".toList file.1.name = true
  · rw [if_pos hjson, if_pos hjson, hjson]
    unfold Literal.jsonVariable?
    cases Json.read file.2 with
    | error error =>
      cases error with
      | tooManyDigits digits => exact .inr ⟨rfl, _, rfl⟩
      | bad fault pos => exact .inl ⟨rfl, rfl⟩
    | ok json => cases json <;> exact .inl ⟨rfl, rfl⟩
  · rw [if_neg hjson, if_neg hjson, Bool.eq_false_iff.mpr hjson]
    exact .inl ⟨rfl, rfl⟩

/-- A name that no file of variables assigns is looked up in all of them. -/
theorem override_of_overrides_eq_nil (hworks : ws.disk.Works)
    (hdir : ws.HasDirectory dir) {name : Text}
    (h : ws.overrides name dir = []) :
    (ws.hasOverlong dir = false ∧ override ws name dir = .ok none) ∨
    (ws.hasOverlong dir = true ∧ ∃ abort, override ws name dir = .error abort) := by
  cases hoverlong : ws.hasOverlong dir with
  | false =>
    have hnone := override_eq hworks hdir (Workspace.hasOverlong_eq_false.mp hoverlong)
      (by rw [h]; simp)
    rw [h] at hnone
    exact .inl ⟨rfl, hnone⟩
  | true =>
    obtain ⟨paths, hfiles, htexts, hread⟩ := files_eq hworks hdir ws.settings.overrideSuffixes
    unfold Workspace.hasOverlong at hoverlong
    unfold Workspace.overrides at h
    rw [htexts] at hoverlong h
    obtain ⟨file, hmem, hfile⟩ := List.any_eq_true.mp hoverlong
    have hextract : ∀ file ∈ ws.readable paths,
        overrideIn name file.1 file.2 = .ok none ∨
          ∃ abort, overrideIn name file.1 file.2 = .error abort := by
      intro file hmem
      rcases overrideIn_eq name file with ⟨-, hvalue⟩ | ⟨-, herror⟩
      · rw [List.filterMap_eq_nil_iff.mp h file hmem] at hvalue
        exact .inl hvalue
      · exact .inr herror
    have herror : ∃ abort, overrideIn name file.1 file.2 = .error abort := by
      rcases overrideIn_eq name file with ⟨hshort, -⟩ | ⟨-, herror⟩
      · rw [hfile] at hshort
        cases hshort
      · exact herror
    obtain ⟨abort, habort⟩ := firstValue_error hread hextract ⟨file, hmem, herror⟩
    refine .inr ⟨rfl, abort, ?_⟩
    unfold override valueIn
    rw [hfiles]
    simp only [Bind.bind, Except.bind, habort]

end Direct

/-! ### The frame that leads back -/

theorem Reference.isWellFormed_ofInput {name : Text} (h : Text.isName name = true) :
    (Reference.ofInput name).IsWellFormed := by
  intro segment hsegment
  rwa [List.mem_singleton.mp hsegment]

/-- The frame of an input inside its own frame has no value: it is cut, unless it lies too
deep to be looked at. -/
theorem answers_selfFrame {ws : Workspace} {mode : SearchMode} {name : Text}
    (hname : Text.isName name = true) {dir : Path} (hnormal : dir.IsNormal) :
    ∃ cacheable, Answers (Faithful ws) (resolveFrame ws mode ws.settings.maxDepth
        (Context.child { reference := .ofInput name, directory := dir } (.ofInput name) dir []))
      (.ok { value := none, cacheable }) := by
  generalize hchild : Context.child { reference := .ofInput name, directory := dir } (.ofInput name)
    dir [] = child
  have hcycle : child.isCycle = true := by
    rw [← hchild]
    simp [Context.isCycle, Context.child, Context.key]
  cases hdepth : ws.settings.maxDepth with
  | zero =>
    have hfound : child.IsFound ws mode := by
      rw [← hchild]
      exact ⟨Reference.isWellFormed_ofInput hname, Reaches.start hnormal⟩
    have hmeaning : evaluateFrame ws mode child = .ok none := by
      rw [← hchild, evaluateFrame, hdepth]
      rfl
    exact ⟨true, Answers.note_bind (by simp)
      ⟨fun s _ => rfl, fun s hs => hs.returned_frame hfound hmeaning⟩⟩
  | succ left =>
    have hproperties : child.reference.properties = [] := by
      rw [← hchild]
      rfl
    unfold resolveFrame
    dsimp only
    rw [hproperties]
    refine ⟨false, fun s _ => ?_, fun s hs => ?_⟩
    · unfold outcome
      rw [List.isEmpty_nil, if_pos rfl, frame_of_isCycle mode _ s hcycle]
      rfl
    · unfold after
      rw [List.isEmpty_nil, if_pos rfl, frame_of_isCycle mode _ s hcycle]
      exact ((hs.note (by simp)).note (by simp)).note (by simp)

/-! ### The search -/

/-- An input that no file of variables of its directory assigns, that its local value and
its output pass on if there are such, and whose default has no references. -/
structure Workspace.PassesOn (ws : Workspace) (name : Text) (dir : Path) (value : Text) : Prop where
  overrides : ws.overrides name dir = []
  passed : ∀ text ∈ ws.declarations (localValue? · name) dir ++
    ws.declarations (outputValue? · name) dir, text = (Reference.ofInput name).text
  default : (ws.declarations (variableDefault? · name) dir).head? = some value
  nonempty : value ≠ []
  references : references value = []

/-- Whether a local value or an output of this name stands before the default. -/
def Workspace.isShadowed (ws : Workspace) (name : Text) (dir : Path) : Bool :=
  !(ws.declarations (localValue? · name) dir ++ ws.declarations (outputValue? · name) dir).isEmpty

namespace Workspace.PassesOn

variable {ws : Workspace} {name : Text} {dir : Path} {value : Text} (h : ws.PassesOn name dir value)

include h

theorem hasDirectory (hnormal : dir.IsNormal) : ws.HasDirectory dir :=
  hasDirectory_of_declarations hnormal h.default

theorem head?_of_mem {texts : List Text}
    (hsubset : texts ⊆ ws.declarations (localValue? · name) dir ++
      ws.declarations (outputValue? · name) dir) (hne : texts ≠ []) :
    texts.head?.bind present? = some (Reference.ofInput name).text := by
  cases texts with
  | nil => exact absurd rfl hne
  | cons text texts =>
    rw [h.passed text (hsubset List.mem_cons_self)]
    simp [present?, (Reference.ofInput name).text_ne_nil]

variable (hworks : ws.disk.Works) (hnormal : dir.IsNormal)

include hworks hnormal

/-- What is found before the call sites are asked: the input itself, if anything. -/
theorem firstFound (hshort : ws.hasOverlong dir = false) :
    Direct.firstFound [Direct.override ws name dir,
      Direct.localValue ws name dir, Direct.output ws name dir] =
      .ok (if ws.isShadowed name dir then some (Reference.ofInput name).text else none) := by
  have hdir := h.hasDirectory hnormal
  have hoverride : Direct.override ws name dir = .ok none := by
    rcases Direct.override_of_overrides_eq_nil hworks hdir h.overrides with
      ⟨-, hnone⟩ | ⟨hlong, -⟩
    · exact hnone
    · rw [hshort] at hlong
      cases hlong
  have hlocal : Direct.localValue ws name dir = _ := Direct.declared_eq_bind hworks hdir
  have houtput : Direct.output ws name dir = _ := Direct.declared_eq_bind hworks hdir
  have hheads : ∀ texts, texts ⊆ ws.declarations (localValue? · name) dir ++
      ws.declarations (outputValue? · name) dir → texts ≠ [] →
      texts.head?.bind present? = some (Reference.ofInput name).text :=
    fun texts => h.head?_of_mem
  unfold isShadowed
  rw [hoverride, hlocal, houtput]
  generalize ws.declarations (localValue? · name) dir = locals at hheads ⊢
  generalize ws.declarations (outputValue? · name) dir = outputs at hheads ⊢
  cases locals with
  | cons text texts =>
    rw [hheads (text :: texts) (by simp) (by simp)]
    rfl
  | nil =>
    cases outputs with
    | cons text texts =>
      rw [hheads (text :: texts) (by simp) (by simp)]
      rfl
    | nil => rfl

theorem default_eq : Direct.default ws name dir = .ok (some value) := by
  refine (Direct.declared_eq_bind hworks (h.hasDirectory hnormal)).trans ?_
  rw [h.default]
  simp [present?, h.nonempty]

variable {mode : SearchMode} {nested : Context → Run Resolution}

theorem answers_searchInput_of_hasOverlong (hlong : ws.hasOverlong dir = true) :
    ∃ abort, Answers (Faithful ws)
      (searchInput ws mode nested { reference := .ofInput name, directory := dir })
      (.error abort) := by
  obtain ⟨abort, habort⟩ : ∃ abort, Direct.override ws name dir = .error abort := by
    rcases Direct.override_of_overrides_eq_nil hworks (h.hasDirectory hnormal) h.overrides with
      ⟨hshort, -⟩ | ⟨-, herror⟩
    · rw [hlong] at hshort
      cases hshort
    · exact herror
  have hfound : Answers (Faithful ws) _ _ := Answers.firstFound_input hnormal name
  rw [habort] at hfound
  rw [searchInput_eq]
  exact ⟨abort, Answers.error_bind _ hfound⟩

/-- A value that passes the input on comes to what the input comes to inside its own
frame. -/
theorem answers_searchInput_of_isShadowed (hshort : ws.hasOverlong dir = false)
    (hname : Text.isName name = true) (hshadowed : ws.isShadowed name dir = true)
    {resolution : Resolution}
    (hnested : Answers (Faithful ws)
      (nested
        (Context.child { reference := .ofInput name, directory := dir } (.ofInput name) dir []))
      (.ok resolution)) :
    Answers (Faithful ws)
      (searchInput ws mode nested { reference := .ofInput name, directory := dir })
      (.ok (.settled resolution)) := by
  have hfound : Answers (Faithful ws) _ _ := Answers.firstFound_input hnormal name
  rw [h.firstFound hworks hnormal hshort, if_pos hshadowed] at hfound
  rw [searchInput_eq]
  refine Answers.ok_bind hfound ?_
  show Answers (Faithful ws) (settle nested _ (some _)) _
  unfold settle
  dsimp only
  rw [expand_text (Reference.isWellFormed_ofInput hname)]
  exact Answers.ok_bind hnested (Answers.pure _)

/-- Where nothing passes the input on, directory search finds the default. -/
theorem answers_searchInput_of_not_isShadowed (hshort : ws.hasOverlong dir = false)
    (hshadowed : ws.isShadowed name dir = false) :
    Answers (Faithful ws)
      (searchInput ws .plain nested { reference := .ofInput name, directory := dir })
      (.ok (.settled { value := some value })) := by
  have hfound : Answers (Faithful ws) _ _ := Answers.firstFound_input hnormal name
  have hdefault : Answers (Faithful ws) (lookupDefault ws name dir) _ :=
    Answers.lookupDefault hnormal name
  rw [h.default_eq hworks hnormal] at hdefault
  rw [h.firstFound hworks hnormal hshort, if_neg (Bool.eq_false_iff.mp hshadowed)] at hfound
  rw [searchInput_eq]
  refine Answers.ok_bind hfound (Answers.ok_bind (Answers.pure _) (Answers.ok_bind hdefault ?_))
  rw [settle_of_references h.references]
  exact Answers.pure _

end Workspace.PassesOn

/-! ### Answers -/

/-- A fresh engine answers with what the search in the directory comes to, if the search
is settled there or given up. -/
theorem fresh_answer_eq {ws : Workspace} (hworks : ws.disk.Works) {fresh : Session}
    (hfresh : Session.create ws.settings = .ok fresh) {mode : SearchMode} {wanted : Wanted}
    {name : Text} (hwanted : wanted.reference? = some (.ofInput name)) {start : Path}
    (hnul : start.hasNul = false)
    (hcontains : ws.contains (ws.normalize start) = true)
    (hdir : ws.disk.tree.isDirectory (ws.normalize start) = true)
    (result : Except Abort Resolution)
    (hsearch : Answers (Faithful ws)
      (searchInput ws mode (resolveFrame ws mode ws.settings.maxDepth)
        { reference := .ofInput name, directory := ws.normalize start })
      (SearchOutcome.settled <$> result)) :
    (resolveIn ws mode wanted start fresh).1 = answer (Resolution.value <$> result) := by
  have hsymbol : Answers (Faithful ws)
      (searchSymbol ws mode (resolveFrame ws mode ws.settings.maxDepth)
        { reference := .ofInput name, directory := ws.normalize start }) result := by
    cases result with
    | error abort => exact Answers.error_bind _ hsearch
    | ok resolution => exact Answers.ok_bind hsearch (Answers.pure _)
  rw [resolveIn_fst, sought_eq hworks hwanted hnul hcontains hdir, outcome_bind]
  have hframe : outcome (resolveFrom ws mode (.ofInput name) (ws.normalize start))
      fresh = result := by
    show outcome (frame mode _ _) fresh = _
    rw [outcome_frame_of_empty (Session.empty_of_create hfresh).1 rfl]
    exact hsymbol.outcome _ (faithful_of_create hfresh).opened
  rw [hframe]
  cases result with
  | error abort => rfl
  | ok resolution => rfl

/-- An input with a default of its own that local values and outputs of its name do no
more than pass on: a fresh engine finds the default only where there is no such local
value and no such output. Otherwise it finds nothing, in either mode, since the value
that comes first leads back to the input and is cut. -/
theorem passThrough_answer_eq {ws : Workspace} (hroot : ws.root.IsNormal)
    (hworks : ws.disk.Works) {fresh : Session}
    (hfresh : Session.create ws.settings = .ok fresh) {name : Text}
    (hname : Text.isName name = true) {wanted : Wanted}
    (hwanted : wanted.reference? = some (.ofInput name)) {start : Path} (hstart : start.IsTidy)
    (hnul : start.hasNul = false) {value : Text}
    (h : ws.PassesOn name (ws.normalize start) value) :
    (resolve ws wanted start fresh).1 =
      (if ws.contains (ws.normalize start) && !ws.hasOverlong (ws.normalize start) &&
          !ws.isShadowed name (ws.normalize start) then some value
        else none) ∧
    (ws.isShadowed name (ws.normalize start) = true →
      (resolveEnhanced ws wanted start fresh).1 = none) := by
  have hnormal := Workspace.isNormal_normalize hroot hstart
  have hdir := (h.hasDirectory hnormal).isDirectory
  have hanswer : ∀ mode, mode = .plain ∨ ws.isShadowed name (ws.normalize start) = true →
      (resolveIn ws mode wanted start fresh).1 =
        if ws.contains (ws.normalize start) && !ws.hasOverlong (ws.normalize start) &&
          !ws.isShadowed name (ws.normalize start) then some value
        else none := by
    intro mode hmode
    cases hcontains : ws.contains (ws.normalize start) with
    | false =>
      rw [resolveIn_fst, outcome_sought_of_not_contains hnul hcontains]
      rfl
    | true =>
      cases hlong : ws.hasOverlong (ws.normalize start) with
      | true =>
        obtain ⟨abort, hsearch⟩ := h.answers_searchInput_of_hasOverlong hworks hnormal hlong
        exact fresh_answer_eq hworks hfresh hwanted hnul hcontains hdir
          (.error abort) hsearch
      | false =>
        cases hshadowed : ws.isShadowed name (ws.normalize start) with
        | true =>
          obtain ⟨cacheable, hself⟩ := answers_selfFrame hname hnormal
          exact fresh_answer_eq hworks hfresh hwanted hnul hcontains hdir
            (.ok _)
            (h.answers_searchInput_of_isShadowed hworks hnormal hlong hname hshadowed hself)
        | false =>
          obtain rfl : mode = .plain := hmode.resolve_right (by simp [hshadowed])
          exact fresh_answer_eq hworks hfresh hwanted hnul hcontains hdir
            (.ok _)
            (h.answers_searchInput_of_not_isShadowed hworks hnormal hlong hshadowed)
  refine ⟨hanswer .plain (.inl rfl), fun hshadowed => ?_⟩
  refine (hanswer .enhanced (.inr hshadowed)).trans ?_
  rw [hshadowed]
  simp

/-- A directory with a default, and one in which a local value and an output of the same
name stand before it. -/
def passing : Workspace := .ofFiles {} [
  (["a", "main.tf"], "variable \"x\" \x7b\n  default = \"v\"\n\x7d\n"),
  (["b", "main.tf"], "locals \x7b\n  x = var.x\n\x7d
output \"x\" \x7b\n  value = var.x\n\x7d
variable \"x\" \x7b\n  default = \"v\"\n\x7d\n")]

/-- The default is found in the directory where nothing passes the input on. -/
theorem passing_answer_eq_default :
    passing.PassesOn "x".toList (passing.normalize (.ofText "a".toList)) "\"v\"".toList ∧
    (resolve passing (written "var.x") (.ofText "a".toList) .fresh).1 = some "\"v\"".toList := by
  have hpasses : passing.PassesOn "x".toList (passing.normalize (.ofText "a".toList))
      "\"v\"".toList :=
    ⟨by decide +kernel, by decide +kernel, by decide +kernel, by decide, by decide +kernel⟩
  have hwanted : (written "var.x").reference? = some (.ofInput "x".toList) := by decide +kernel
  have hfresh : Session.create passing.settings = .ok .fresh := rfl
  have hworks : passing.disk.Works := ⟨rfl, by decide +kernel, by decide⟩
  have hanswer := passThrough_answer_eq (by decide) hworks hfresh (by decide) hwanted
    (Path.isTidy_ofText _) rfl hpasses
  refine ⟨hpasses, hanswer.1.trans ?_⟩
  decide +kernel

/-- In the other directory the default is not found: the local value comes first. -/
theorem passing_answer_eq_none :
    passing.PassesOn "x".toList (passing.normalize (.ofText "b".toList)) "\"v\"".toList ∧
    (resolve passing (written "var.x") (.ofText "b".toList) .fresh).1 = none := by
  refine
    ⟨⟨by decide +kernel, by decide +kernel, by decide +kernel, by decide, by decide +kernel⟩, ?_⟩
  decide +kernel

end TerraformTrace
