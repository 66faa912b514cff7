import TerraformTrace.Proofs.Evaluation
import TerraformTrace.Proofs.Key
import TerraformTrace.Proofs.Path
import TerraformTrace.Proofs.Reference

/-!
# TerraformTrace.Proofs.Frame

The key of a frame stands for the frame. A key is made of texts: that of the reference,
that of the directory, the depth, and the calls of the modules around. `IsFound` says
what holds of the contexts an engine comes to, and on those the texts determine what
they were made from, so frames with one key have one meaning.

**The stack in a key.** A call is written as its directory and its name, and the calls
of a stack with bars between them. A bar in the name of a directory makes two stacks
look alike; this is why the workspace must not have one (`Workspace.HasNoBars`).
-/

namespace TerraformTrace

open Hcl

variable {names : List Text} {call : ModuleCall} {calls : List ModuleCall}

namespace Text

theorem mem_join {c mark : Char} {pieces : List Text} (h : c ∈ join [mark] pieces) :
    c = mark ∨ ∃ piece ∈ pieces, c ∈ piece := by
  induction pieces with
  | nil => exact absurd h List.not_mem_nil
  | cons piece pieces ih =>
    rw [join_cons] at h
    rcases List.mem_append.mp h with hpiece | hrest
    · exact Or.inr ⟨piece, List.mem_cons_self, hpiece⟩
    · cases pieces with
      | nil => exact absurd hrest List.not_mem_nil
      | cons next pieces =>
        rcases List.mem_cons.mp hrest with rfl | hjoin
        · exact Or.inl rfl
        · rcases ih hjoin with hmark | ⟨other, hmem, hother⟩
          · exact Or.inl hmark
          · exact Or.inr ⟨other, List.mem_cons_of_mem _ hmem, hother⟩

/-- What follows the last mark of a text determines where it starts. -/
theorem append_cons_inj {mark : Char} {x y xs ys : Text} (hxs : mark ∉ xs) (hys : mark ∉ ys)
    (h : x ++ mark :: xs = y ++ mark :: ys) : x = y ∧ xs = ys := by
  have hlast : ∀ (z zs : Text), mark ∉ zs →
      ((z ++ mark :: zs).reverse.takeWhile (· ≠ mark)) = zs.reverse := by
    intro z zs hzs
    have hkept : ∀ c ∈ zs.reverse, decide (c ≠ mark) = true := by
      intro c hc
      simpa using fun heq : c = mark => hzs (heq ▸ List.mem_reverse.mp hc)
    rw [List.reverse_append, List.reverse_cons, List.append_assoc,
      List.takeWhile_append_of_pos hkept]
    simp
  have htails : xs = ys := by
    have hreverse := hlast x xs hxs
    rw [h, hlast y ys hys] at hreverse
    exact (List.reverse_inj.mp hreverse).symm
  subst htails
  exact ⟨List.append_cancel_right h, rfl⟩

end Text

/-! ### Places without bars -/

/-- No name of a file or directory has a bar in it. -/
def Workspace.HasNoBars (ws : Workspace) : Prop :=
  ∀ place ∈ ws.disk.tree.places, ∀ part ∈ place.1, '|' ∉ part

instance (ws : Workspace) : Decidable ws.HasNoBars :=
  inferInstanceAs (Decidable (∀ place ∈ ws.disk.tree.places, ∀ part ∈ place.1, '|' ∉ part))

/-- Walking along components other than `..` ends at the place they spell. -/
theorem FileTree.walk_eq_ok {tree : FileTree} {place parts found : List Text} {node : Node}
    (hdots : ['.', '.'] ∉ parts) (h : tree.walk place parts = .ok (found, node)) :
    found = place ++ parts ∧ tree.node? found = some node := by
  induction parts generalizing place with
  | nil =>
    unfold walk at h
    split at h
    · cases h
      exact ⟨(List.append_nil _).symm, ‹_›⟩
    · cases h
  | cons part parts ih =>
    have hpart := List.ne_of_not_mem_cons hdots
    have hparts := List.not_mem_of_not_mem_cons hdots
    unfold walk at h
    split at h
    · cases h
    · cases h
    · rw [if_neg (Ne.symm hpart)] at h
      split at h
      · cases h
      · obtain ⟨hfound, hnode⟩ := ih hparts h
        exact ⟨by simpa using hfound, hnode⟩

/-- A listing comes from the tree. -/
theorem Disk.list_eq_ok {disk : Disk} {path : Path}
    (h : disk.list path = .ok names) : disk.tree.list path = .ok names := by
  unfold Disk.list at h
  split at h
  · cases h
  · split at h
    · cases h
    · split at h
      · cases h
      · cases hlist : disk.tree.list path with
        | error error => simp [hlist, Except.mapError] at h
        | ok found => simpa [hlist, Except.mapError] using h

/-- A normal path that can be listed is a place of the tree, or the root. -/
theorem FileTree.mem_places_of_list {tree : FileTree} {path : Path} (hpath : path.IsNormal)
    (h : tree.list path = .ok names) :
    path.parts = [] ∨ ∃ node, (path.parts, node) ∈ tree.places := by
  cases hfind : tree.find path with
  | error error => simp [FileTree.list, hfind] at h
  | ok found =>
    unfold FileTree.find at hfind
    split at hfind
    · cases hfind
    · obtain ⟨hplace, hnode⟩ := FileTree.walk_eq_ok hpath.2.2 hfind
      rw [hplace, List.nil_append] at hnode
      unfold FileTree.node? at hnode
      split at hnode
      · rename_i hempty
        exact Or.inl (List.isEmpty_iff.mp hempty)
      · obtain ⟨before, after, hsplit, -⟩ := List.lookup_eq_some_iff.mp hnode
        exact Or.inr ⟨found.2, by simp [hsplit]⟩

/-- A directory that can be listed has no bars in its name. -/
theorem Workspace.HasNoBars.of_list {ws : Workspace} (hbars : ws.HasNoBars)
    {dir : Path} (hdir : dir.IsNormal)
    (h : ws.disk.list dir = .ok names) : '|' ∉ dir.toText := by
  have hparts : ∀ part ∈ dir.parts, '|' ∉ part := by
    intro part hpart
    rcases FileTree.mem_places_of_list hdir (Disk.list_eq_ok h) with hnil | ⟨node, hplace⟩
    · rw [hnil] at hpart
      exact absurd hpart List.not_mem_nil
    · exact hbars _ hplace part hpart
  intro hbar
  unfold Path.toText at hbar
  rw [hdir.1] at hbar
  rcases List.mem_cons.mp hbar with heq | hjoin
  · exact absurd heq (by decide)
  · rcases Text.mem_join hjoin with heq | ⟨part, hpart, hmem⟩
    · exact absurd heq (by decide)
    · exact hparts part hpart hmem

/-! ### Frames an engine comes to -/

/-- A module boundary as an engine crosses it: the call is the first of its name in its
directory, and its source names the module's directory. -/
structure ModuleFrame.IsFound (ws : Workspace) (frame : ModuleFrame) : Prop where
  name : Text.isName frame.call.name = true
  directory : frame.call.directory.IsNormal
  bars : '|' ∉ frame.call.directory.toText
  call : ∃ calls, Direct.moduleCalls ws frame.call.directory = .ok calls ∧
    calls.find? (·.name = frame.call.name) = some frame.call
  place : Direct.modulePath ws frame.call.source frame.call.directory = .ok (some frame.directory)

/-- A directory and a stack as an engine comes to them. Plain resolution keeps no stack. -/
structure Reaches (ws : Workspace) (mode : SearchMode) (dir : Path)
    (stack : List ModuleFrame) : Prop where
  normal : dir.IsNormal
  frames : ∀ frame ∈ stack, frame.IsFound ws
  stackless : mode = .plain → stack = []

/-- A context as an engine comes to it. -/
structure Context.IsFound (ws : Workspace) (mode : SearchMode) (ctx : Context) : Prop where
  reference : ctx.reference.IsWellFormed
  place : Reaches ws mode ctx.directory ctx.stack

/-- The text of a call determines the text of its directory and its name. -/
theorem ModuleFrame.of_signature_eq {frame other : ModuleFrame}
    (hname : Text.isName frame.call.name = true) (hname' : Text.isName other.call.name = true)
    (heq : frame.signature = other.signature) :
    frame.call.directory.toText = other.call.directory.toText ∧
      frame.call.name = other.call.name := by
  have hsplit (f : ModuleFrame) :
      f.signature = (f.call.directory.toText ++ [':']) ++ ':' :: f.call.name := by
    simp [ModuleFrame.signature]
  have hcolon {name : Text} (h : Text.isName name = true) : ':' ∉ name :=
    not_mem_of_isName (by decide) (by decide) h
  rw [hsplit, hsplit] at heq
  -- a directory may have colons in it, but a name has none: the last colon separates them
  obtain ⟨htext, hname⟩ := Text.append_cons_inj (hcolon hname) (hcolon hname') heq
  exact ⟨List.append_cancel_right htext, hname⟩

namespace ModuleFrame.IsFound

variable {ws : Workspace} {frame other : ModuleFrame}

theorem bar_not_mem_signature (h : frame.IsFound ws) : '|' ∉ frame.signature := by
  unfold ModuleFrame.signature
  intro hbar
  rcases List.mem_append.mp hbar with hfirst | hname
  · rcases List.mem_append.mp hfirst with hdir | hmarks
    · exact h.bars hdir
    · exact absurd hmarks (by decide)
  · exact not_mem_of_isName (by decide) (by decide) h.name hname

/-- The text of a call determines the call and the directory of its module. -/
theorem signature_inj (h : frame.IsFound ws) (h' : other.IsFound ws)
    (heq : frame.signature = other.signature) : frame = other := by
  obtain ⟨htext, hname⟩ := of_signature_eq h.name h'.name heq
  have hdir := h.directory.toText_inj h'.directory htext
  -- both calls are the first of this name in this directory
  obtain ⟨calls, hcalls, hfind⟩ := h.call
  obtain ⟨calls', hcalls', hfind'⟩ := h'.call
  rw [hdir, hcalls'] at hcalls
  cases hcalls
  rw [hname, hfind'] at hfind
  have hcall : other.call = frame.call := Option.some.inj hfind
  have hplace := h.place
  rw [← hcall, h'.place] at hplace
  have hplaces : other.directory = frame.directory := Option.some.inj (Except.ok.inj hplace)
  obtain ⟨call, dir⟩ := frame
  obtain ⟨call', dir'⟩ := other
  cases hcall
  cases hplaces
  rfl

end ModuleFrame.IsFound

theorem stack_inj {ws : Workspace} {stack stack' : List ModuleFrame}
    (h : ∀ frame ∈ stack, frame.IsFound ws) (h' : ∀ frame ∈ stack', frame.IsFound ws)
    (heq : stack.map (·.signature) = stack'.map (·.signature)) : stack = stack' := by
  induction stack generalizing stack' with
  | nil => exact (List.map_eq_nil_iff.mp heq.symm).symm
  | cons frame stack ih =>
    cases stack' with
    | nil => cases heq
    | cons other stack' =>
      obtain ⟨hfirst, hrest⟩ := List.cons.inj heq
      rw [(h frame List.mem_cons_self).signature_inj (h' other List.mem_cons_self) hfirst,
        ih (List.forall_mem_cons.mp h).2
          (List.forall_mem_cons.mp h').2 hrest]

namespace Context.IsFound

variable {ws : Workspace} {mode : SearchMode} {ctx other : Context}

/-- The key of a frame determines everything that its result depends on. -/
theorem keyParts_inj (h : ctx.IsFound ws mode) (h' : other.IsFound ws mode)
    (heq : ctx.keyParts = other.keyParts) :
    ctx.reference = other.reference ∧ ctx.directory = other.directory ∧
      ctx.depth = other.depth ∧ ctx.stack = other.stack := by
  unfold Context.keyParts at heq
  simp only [List.cons.injEq, and_true] at heq
  obtain ⟨href, hdir, hdepth, hstack⟩ := heq
  refine ⟨h.reference.text_inj h'.reference href,
    h.place.normal.toText_inj h'.place.normal hdir, Text.ofNat_inj hdepth, ?_⟩
  have hpieces : ∀ stack : List ModuleFrame, (∀ frame ∈ stack, frame.IsFound ws) →
      ∀ piece ∈ stack.map (·.signature), piece ≠ [] ∧ '|' ∉ piece := by
    intro stack hfound piece hpiece
    obtain ⟨frame, hframe, rfl⟩ := List.mem_map.mp hpiece
    exact ⟨by simp [ModuleFrame.signature], (hfound frame hframe).bar_not_mem_signature⟩
  exact stack_inj h.place.frames h'.place.frames
    (Text.join_inj (hpieces _ h.place.frames) (hpieces _ h'.place.frames) hstack)

/-- Frames with one key have one meaning. -/
theorem evaluateFrame_eq (h : ctx.IsFound ws mode) (h' : other.IsFound ws mode)
    (heq : ctx.keyParts = other.keyParts) :
    evaluateFrame ws mode ctx = evaluateFrame ws mode other := by
  obtain ⟨href, hdir, hdepth, hstack⟩ := h.keyParts_inj h' heq
  unfold evaluateFrame
  rw [href, hdir, hdepth, hstack]

end Context.IsFound

/-! ### How frames are reached -/

namespace Direct

variable {ws : Workspace} {dir : Path} {source : Text} {place : Path}

theorem bind_ok {ε α β : Type} {x : Except ε α} {f : α → Except ε β} {result : β}
    (h : x >>= f = .ok result) : ∃ value, x = .ok value ∧ f value = .ok result := by
  cases x with
  | error error => cases h
  | ok value => exact ⟨value, rfl, h⟩

theorem directory_of_mem_moduleCalls {text : Text}
    (h : call ∈ Hcl.moduleCalls text dir) : call.directory = dir := by
  unfold Hcl.moduleCalls at h
  obtain ⟨block, -, hcall⟩ := List.mem_filterMap.mp h
  unfold Block.moduleCall? at hcall
  split at hcall
  · cases hcall
  · obtain ⟨source, -, rfl⟩ := Option.map_eq_some_iff.mp hcall
    rfl

/-- The calls of a directory know their directory. -/
theorem directory_of_mem_callsIn {paths : List Path} (hcalls : callsIn ws dir paths = .ok calls)
    (h : call ∈ calls) : call.directory = dir := by
  induction paths generalizing calls with
  | nil =>
    cases hcalls
    exact absurd h List.not_mem_nil
  | cons path paths ih =>
    unfold callsIn at hcalls
    obtain ⟨text, -, hrest⟩ := bind_ok hcalls
    obtain ⟨more, hmore, hresult⟩ := bind_ok hrest
    cases hresult
    rcases List.mem_append.mp h with hfirst | hmem
    · cases text with
      | none => exact absurd hfirst List.not_mem_nil
      | some text => exact directory_of_mem_moduleCalls hfirst
    · exact ih hmore hmem

theorem directory_of_mem (hcalls : moduleCalls ws dir = .ok calls)
    (h : call ∈ calls) : call.directory = dir := by
  obtain ⟨files, -, hrest⟩ := bind_ok hcalls
  exact directory_of_mem_callsIn hrest h

/-- A directory with a module call can be listed. -/
theorem list_of_mem (hcalls : moduleCalls ws dir = .ok calls)
    (h : call ∈ calls) : ∃ names, ws.disk.list dir = .ok names := by
  obtain ⟨files, hfiles, hrest⟩ := bind_ok hcalls
  unfold Direct.files at hfiles
  cases hlist : ws.disk.list dir with
  | ok names => exact ⟨names, rfl⟩
  | error failure =>
    cases failure with
    | reported error =>
      simp only [hlist] at hfiles
      cases hfiles
      cases hrest
      exact absurd h List.not_mem_nil
    | _ => simp [hlist] at hfiles

theorem mem_of_mem_filterM {ε α : Type} {keep : α → Except ε Bool} {items kept : List α}
    (h : items.filterM keep = .ok kept) {item : α} (hmem : item ∈ kept) : item ∈ items := by
  have hloop : ∀ (rest before result : List α), rest.filterAuxM keep before = .ok result →
      ∀ other ∈ result, other ∈ before ∨ other ∈ rest := by
    intro rest
    induction rest with
    | nil =>
      intro before result hresult other hother
      cases hresult
      exact Or.inl hother
    | cons first rest ih =>
      intro before result hresult other hother
      rw [List.filterAuxM] at hresult
      obtain ⟨verdict, -, hrest⟩ := bind_ok hresult
      rcases ih _ result hrest other hother with hbefore | hmem
      · cases verdict with
        | false => exact Or.inl hbefore
        | true =>
          rcases List.mem_cons.mp hbefore with rfl | hbefore
          · exact Or.inr List.mem_cons_self
          · exact Or.inl hbefore
      · exact Or.inr (List.mem_cons_of_mem _ hmem)
  unfold List.filterM at h
  obtain ⟨result, hresult, hkept⟩ := bind_ok h
  cases hkept
  rcases hloop items [] result hresult item (List.mem_reverse.mp hmem) with hnil | hitems
  · exact absurd hnil List.not_mem_nil
  · exact hitems

theorem eq_of_usable {path found : Path} (h : usable path = .ok found) : found = path := by
  unfold usable Path.usable at h
  split at h
  · rename_i hok
    split at hok
    · cases hok
    · cases hok
      cases h
      rfl
  · cases h

theorem isTidy_sourcePath (hroot : ws.root.IsNormal) (hdir : dir.IsTidy)
    (source : Text) : (sourcePath ws source dir).IsTidy := by
  unfold sourcePath
  split
  · exact hroot.2.1.join (Path.isTidy_ofText _)
  · exact hdir.join (Path.isTidy_ofText _)

/-- What has to hold for a source to name a directory. -/
theorem modulePlace_eq_some (h : modulePlace ws source dir = .ok (some place)) :
    place = (sourcePath ws source dir).normalize ∧
      ws.contains place = true ∧ isDirectory ws place = true := by
  unfold modulePlace at h
  split at h
  · cases h
  · obtain ⟨path, hpath, hrest⟩ := bind_ok h
    obtain rfl := eq_of_usable hpath
    dsimp only at hrest
    split at hrest
    · cases hrest
    next hcontains =>
      split at hrest
      · cases hrest
      next hisDirectory =>
        cases hrest
        exact ⟨rfl, by simpa using hcontains, by simpa using hisDirectory⟩

/-- The directory of a module is a normal path. -/
theorem isNormal_of_modulePlace (hroot : ws.root.IsNormal) (hdir : dir.IsTidy)
    (h : modulePlace ws source dir = .ok (some place)) : place.IsNormal := by
  obtain ⟨rfl, -, -⟩ := modulePlace_eq_some h
  exact Path.isNormal_normalize (isTidy_sourcePath hroot hdir source)

theorem isNormal_of_modulePath (hroot : ws.root.IsNormal) (hdir : dir.IsTidy)
    (h : modulePath ws source dir = .ok (some place)) : place.IsNormal := by
  obtain ⟨usable, husable, hplace⟩ := bind_ok h
  rw [eq_of_usable husable] at hplace
  exact isNormal_of_modulePlace hroot (Workspace.isNormal_normalize hroot hdir).2.1 hplace

theorem contains_of_modulePath (h : modulePath ws source dir = .ok (some place)) :
    ws.contains place = true := by
  obtain ⟨usable, -, hplace⟩ := bind_ok h
  exact (modulePlace_eq_some hplace).2.1

end Direct

/-- The stack inside a module; plain resolution does not record the call. -/
def insideModule (mode : SearchMode) (stack : List ModuleFrame) (frame : ModuleFrame) :
    List ModuleFrame :=
  match mode with
  | .plain => stack
  | .enhanced => stack ++ [frame]

namespace Reaches

variable {ws : Workspace} {mode : SearchMode} {dir : Path} {stack : List ModuleFrame}

theorem start (hdir : dir.IsNormal) : Reaches ws mode dir [] :=
  ⟨hdir, fun _ hmem => absurd hmem List.not_mem_nil, fun _ => rfl⟩

theorem parent (h : Reaches ws mode dir stack) : Reaches ws mode dir.parent stack :=
  ⟨h.normal.parent, h.frames, h.stackless⟩

/-- The module of an output that is chased. -/
theorem entering (hroot : ws.root.IsNormal)
    (hbars : mode = .enhanced → ws.HasNoBars) (h : Reaches ws mode dir stack)
    (hcalls : Direct.moduleCalls ws dir = .ok calls) {name : Text}
    (hname : Text.isName name = true) (hcall : calls.find? (·.name = name) = some call)
    {target : Path}
    (htarget : Direct.modulePath ws call.source call.directory = .ok (some target)) :
    Reaches ws mode target (insideModule mode stack { call, directory := target }) := by
  have hmem : call ∈ calls := List.mem_of_find?_eq_some hcall
  have hcallName : call.name = name := by simpa using List.find?_some hcall
  have hdir : call.directory = dir := Direct.directory_of_mem hcalls hmem
  have hnormal : target.IsNormal :=
    Direct.isNormal_of_modulePath hroot (hdir ▸ h.normal.2.1) htarget
  cases mode with
  | plain => exact ⟨hnormal, h.frames, h.stackless⟩
  | enhanced =>
    obtain ⟨names, hlist⟩ := Direct.list_of_mem hcalls hmem
    have hframe : ModuleFrame.IsFound ws { call, directory := target } := {
      name := hcallName ▸ hname
      directory := hdir ▸ h.normal
      bars := hdir ▸ (hbars rfl).of_list h.normal hlist
      call := ⟨calls, hdir ▸ hcalls, hcallName ▸ hcall⟩
      place := htarget }
    refine ⟨hnormal, fun frame hmem => ?_, nofun⟩
    rcases List.mem_append.mp hmem with hold | hnew
    · exact h.frames frame hold
    · rw [List.mem_singleton.mp hnew]
      exact hframe

/-- The call sites that may give a module its inputs. -/
theorem site (h : Reaches ws mode dir stack) {sites : List (ModuleCall × List ModuleFrame)}
    (hsites : Direct.callSites ws dir stack = .ok sites) {outside : List ModuleFrame}
    (hmem : (call, outside) ∈ sites) : Reaches ws mode call.directory outside := by
  have haround : ∀ {found}, (do
      let calls ← Direct.callsInto ws dir
      return calls.map fun call => (call, stack)) = Except.ok found →
      (call, outside) ∈ found → Reaches ws mode call.directory outside := by
    intro found hfound hmem
    obtain ⟨calls, hcalls, hresult⟩ := Direct.bind_ok hfound
    cases hresult
    obtain ⟨other, hother, heq⟩ := List.mem_map.mp hmem
    cases heq
    unfold Direct.callsInto at hcalls
    dsimp only at hcalls
    split at hcalls
    · cases hcalls
      exact absurd hother List.not_mem_nil
    · obtain ⟨all, hall, hfilter⟩ := Direct.bind_ok hcalls
      rw [Direct.directory_of_mem hall (Direct.mem_of_mem_filterM hfilter hother)]
      exact h.parent
  unfold Direct.callSites at hsites
  split at hsites
  next frame hlast =>
    split at hsites
    · cases hsites
      obtain ⟨rfl, rfl⟩ := Prod.mk.inj (List.mem_singleton.mp hmem)
      have hframe := h.frames frame (List.mem_of_getLast? hlast)
      exact ⟨hframe.directory, fun other hother => h.frames other (List.dropLast_subset _ hother),
        fun hmode => by rw [h.stackless hmode]; rfl⟩
    · exact haround hsites hmem
  next => exact haround hsites hmem

end Reaches

end TerraformTrace
