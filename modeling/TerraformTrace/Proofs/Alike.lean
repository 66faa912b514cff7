import TerraformTrace.Proofs.Coherent
import TerraformTrace.Proofs.Soundness
import TerraformTrace.Proofs.Walk

/-!
# TerraformTrace.Proofs.Alike

Two runs side by side. `Alike I x y P` says that in a session with the invariant `I` the
two runs do the same, that the invariant holds after them, and that what they come to has
the property `P`.

**One walk, two disks.** The engine is walked through once, over two disks that agree at
or below the root of the workspace: from a coherent session it does the same on both and
leaves the session coherent, because it never asks about anything else. With one disk in
both places the walk says what a coherent session is for. What the frames of a frame's
children are like is left open, so that each use can say more about its own frames.
-/

namespace TerraformTrace

open Hcl

variable {α β : Type}

/-! ### Runs side by side -/

/-- Under an invariant, two runs do the same and keep it, and come to values of a sort. -/
structure Alike (I : Session → Prop) (x y : Run α) (P : α → Prop) : Prop where
  same : ∀ s, I s → x s = y s
  keeps : ∀ s, I s → I (after x s)
  value : ∀ s value, I s → outcome x s = .ok value → P value

namespace Alike

variable {I : Session → Prop} {P Q : α → Prop} {x y : Run α}

theorem imp (h : Alike I x y P) (hPQ : ∀ value, P value → Q value) : Alike I x y Q :=
  ⟨h.same, h.keeps, fun s value hs hout => hPQ value (h.value s value hs hout)⟩

theorem any (h : Alike I x y P) : Alike I x y fun _ => True := h.imp fun _ _ => trivial

theorem pure {value : α} (h : P value) : Alike I (pure value) (pure value) P :=
  ⟨fun _ _ => rfl, fun _ hs => hs, fun _ _ _ hout => Except.ok.inj hout ▸ h⟩

theorem throw (abort : Abort) : Alike I (throw abort : Run α) (throw abort) P :=
  ⟨fun _ _ => rfl, fun _ hs => hs, fun _ _ _ hout => by cases hout⟩

theorem bind {R : β → Prop} {f g : α → Run β} (hx : Alike I x y P)
    (hf : ∀ value, P value → Alike I (f value) (g value) R) :
    Alike I (x >>= f) (y >>= g) R where
  same s hs := by
    have hsame := hx.same s hs
    have hkeeps := hx.keeps s hs
    have hvalue := hx.value s
    show EStateM.bind x f s = EStateM.bind y g s
    unfold EStateM.bind
    rw [← hsame]
    unfold after at hkeeps
    unfold outcome at hvalue
    cases hrun : x s with
    | error abort s' => rfl
    | ok value s' =>
      rw [hrun] at hkeeps hvalue
      exact (hf value (hvalue value hs rfl)).same s' hkeeps
  keeps s hs := by
    rcases bind_cases x f s with ⟨abort, -, -, hafter⟩ | ⟨value, hout, -, hafter⟩
    · rw [hafter]
      exact hx.keeps s hs
    · rw [hafter]
      exact (hf value (hx.value s value hs hout)).keeps _ (hx.keeps s hs)
  value s result hs hout := by
    obtain ⟨value, hfirst, hrest, -⟩ := bind_ok hout
    exact (hf value (hx.value s value hs hfirst)).value _ result (hx.keeps s hs) hrest

/-- Runs that go on from the session as it is. -/
theorem get_bind {f g : Session → Run α} (h : ∀ s, I s → Alike I (f s) (g s) P) :
    Alike I (get >>= f) (get >>= g) P :=
  ⟨fun s hs => (h s hs).same s hs, fun s hs => (h s hs).keeps s hs,
    fun s value hs hout => (h s hs).value s value hs hout⟩

theorem modify {f : Session → Session} (h : ∀ s, I s → I (f s)) :
    Alike I (modify f : Run Unit) (modify f) fun _ => True :=
  ⟨fun _ _ => rfl, h, fun _ _ _ _ => trivial⟩

theorem sequential (I : Session → Prop) : Sequential fun x y P => Alike I x y P :=
  ⟨pure, throw, bind⟩

theorem ite {c : Prop} [Decidable c] {x' y' : Run α} (hthen : c → Alike I x y P)
    (helse : ¬ c → Alike I x' y' P) : Alike I (if c then x else x') (if c then y else y') P :=
  (sequential I).ite hthen helse

end Alike

/-! ### Two disks -/

/-- A disk that agrees with that of the workspace on every path at or below the root. -/
structure Workspace.AgreesWith (ws : Workspace) (disk : Disk) : Prop where
  isDirectory : ∀ path, ws.Inside path → ws.disk.isDirectory path = disk.isDirectory path
  list : ∀ path, ws.Inside path → ws.disk.list path = disk.list path
  readText : ∀ path, ws.Inside path → ws.disk.readText path = disk.readText path

theorem Workspace.agreesWith_self (ws : Workspace) : ws.AgreesWith ws.disk :=
  ⟨fun _ _ => rfl, fun _ _ => rfl, fun _ _ => rfl⟩

namespace Alike

variable {ws : Workspace} {disk : Disk} {since : List Event}
  {Allowed : SearchMode → List Text → Remembered → Prop} {path dir : Path}

theorem note {event : Event} (h : event.IsInside ws) :
    Alike (Coherent ws since Allowed) (note event) (note event) fun _ => True :=
  ⟨fun _ _ => rfl, fun _ hs => hs.note h, fun _ _ _ _ => trivial⟩

/-- Something is done for the record only. -/
theorem note_bind {event : Event} (h : event.IsInside ws) {x y : Run α} {P : α → Prop}
    (hrun : Alike (Coherent ws since Allowed) x y P) :
    Alike (Coherent ws since Allowed) (TerraformTrace.note event >>= fun _ => x)
      (TerraformTrace.note event >>= fun _ => y) P :=
  bind (note h) fun _ _ => hrun

theorem lookUp (key : Text) :
    Alike (Coherent ws since Allowed) (lookUp key) (lookUp key) fun found =>
      ∀ known, found = some known → ∃ events, Remains ws since Allowed events key known :=
  ⟨fun _ _ => rfl, fun _ hs => hs.lookUp key, fun s found hs hout known hknown => by
    cases hout
    exact ⟨s.events, hs.cache.of_get hknown⟩⟩

theorem remember {key : Text} {value : Remembered}
    (h : Recalled ws key value ∨
      ∃ mode parts, key = cacheKey mode.kind.word parts ∧ Allowed mode parts value) :
    Alike (Coherent ws since Allowed) (remember key value) (remember key value) fun _ => True :=
  ⟨fun _ _ => rfl, fun _ hs => hs.remember h, fun _ _ _ _ => trivial⟩

theorem usablePath (path : Path) :
    Alike (Coherent ws since Allowed) (usablePath path) (usablePath path) (· = path) := by
  unfold TerraformTrace.usablePath Path.usable
  cases path.hasNul with
  | true => exact throw _
  | false => exact pure rfl

/-! ### Files -/

variable (hagrees : ws.AgreesWith disk) (hnames : ws.disk.tree.HasFileNames) (name : Text)

include hagrees

theorem checkDirectory (h : ws.Inside path) :
    Alike (Coherent ws since Allowed) (checkDirectory ws path)
      (checkDirectory (ws.withDisk disk) path) fun _ => True := by
  unfold TerraformTrace.checkDirectory
  rw [show (ws.withDisk disk).disk.isDirectory path = _ from (hagrees.isDirectory path h).symm]
  cases ws.disk.isDirectory path with
  | ok answer => exact pure trivial
  | error error => exact note_bind (by exact h) (pure trivial)

theorem readFile (h : ws.Inside path) : Alike (Coherent ws since Allowed) (readFile ws path)
      (readFile (ws.withDisk disk) path)
      fun text => Direct.text? ws path = .ok text := by
  unfold TerraformTrace.readFile Direct.text?
  rw [show (ws.withDisk disk).disk.readText path = _ from (hagrees.readText path h).symm]
  refine note_bind (by exact h) ?_
  cases ws.disk.readText path with
  | ok text => exact pure rfl
  | error failure =>
    cases failure with
    | reported error => exact note_bind (by exact h) (pure rfl)
    | _ => exact throw _

include hnames

theorem filesIn (h : ws.Inside dir) (suffixes : List Text) :
    Alike (Coherent ws since Allowed) (filesIn ws dir suffixes)
      (filesIn (ws.withDisk disk) dir suffixes) fun paths =>
        Direct.files ws dir suffixes = .ok paths ∧ ∀ path ∈ paths, ws.Inside path := by
  unfold TerraformTrace.filesIn Direct.files
  rw [show (ws.withDisk disk).disk.list dir = _ from (hagrees.list dir h).symm]
  refine note_bind (by exact h) ?_
  cases hlist : ws.disk.list dir with
  | ok names =>
    refine pure ⟨rfl, fun path hpath => ?_⟩
    obtain ⟨name, hname, rfl⟩ := List.mem_map.mp hpath
    exact h.entry (FileTree.isFileName_of_list hnames (Disk.list_eq_ok hlist) name
      (List.mem_filter.mp hname).1)
  | error failure =>
    cases failure with
    | reported error => exact note_bind (by exact h) (pure ⟨rfl, nofun⟩)
    | _ => exact throw _

/-! ### Values -/

omit hnames in
theorem firstValue {extract : Path → Text → Run (Option Text)}
    {direct : Path → Text → Except Abort (Option Text)} {paths : List Path}
    (hpaths : ∀ path ∈ paths, ws.Inside path)
    (hextract : ∀ path ∈ paths, ∀ text,
      Alike (Coherent ws since Allowed) (extract path text) (extract path text)
        fun value => direct path text = .ok value) :
    Alike (Coherent ws since Allowed) (firstValue ws extract paths)
      (firstValue (ws.withDisk disk) extract paths)
      fun value => Direct.firstValue ws direct paths = .ok value := by
  induction paths with
  | nil => exact pure rfl
  | cons path paths ih =>
    have hrest := ih (List.forall_mem_cons.mp hpaths).2
      (List.forall_mem_cons.mp hextract).2
    have hpath : path ∈ path :: paths := List.mem_cons_self
    unfold TerraformTrace.firstValue Direct.firstValue
    refine bind (readFile hagrees (hpaths path hpath)) fun text htext => ?_
    rw [htext]
    cases text with
    | none => exact hrest
    | some text =>
      refine bind (hextract path hpath text) fun value hvalue => ?_
      simp only [Bind.bind, Except.bind, hvalue]
      cases value with
      | none => exact hrest
      | some value => exact pure rfl

omit hagrees hnames in
theorem overrideIn (h : ws.Inside path) (text : Text) :
    Alike (Coherent ws since Allowed) (overrideIn name path text)
      (overrideIn name path text)
      fun value => Direct.overrideIn name path text = .ok value := by
  unfold TerraformTrace.overrideIn Direct.overrideIn
  split
  · cases Literal.jsonVariable? text name with
    | ok value => exact pure rfl
    | error error =>
      cases error with
      | tooManyDigits digits => exact throw _
      | _ => exact note_bind (by exact h) (pure rfl)
  · exact pure rfl

omit hagrees hnames in
/-- What is looked up for a name is what some look-up with its key comes to. -/
theorem rememberedLookup (lookup : Lookup) (hlookup : lookup ≠ .calls) {name : Text}
    (hlabel : lookup.label = [name]) (h : ws.Inside dir)
    {compute compute' : Run (Option Text)}
    (hcompute : Alike (Coherent ws since Allowed) compute compute' fun value =>
      lookup.recompute ws dir = .ok (Lookup.ofValue value)) :
    Alike (Coherent ws since Allowed)
      (rememberedLookup lookup.kind name dir compute)
      (rememberedLookup lookup.kind name dir compute') fun value =>
        Recalled ws (lookup.key dir) (Lookup.ofValue value) ∧ value ≠ some [] := by
  have hkey : cacheKey lookup.kind.word [name, dir.toText] = lookup.key dir := by
    rw [Lookup.key, hlabel]
    rfl
  unfold TerraformTrace.rememberedLookup
  rw [hkey]
  refine bind (lookUp _) fun found hfound => ?_
  cases found with
  | some known =>
    obtain ⟨events, hremains⟩ := hfound known rfl
    obtain ⟨text, rfl⟩ := hremains.recalled.exists_text hlookup h.normal
    have hgetD := getD_bind_present? (some text)
    refine pure ⟨?_, bind_present?_ne (some text)⟩
    show Recalled ws _ (.text (((some text).bind present?).getD []))
    rw [hgetD]
    exact hremains.recalled
  | none =>
    refine bind hcompute fun value hvalue => ?_
    have hrecalled : Recalled ws (lookup.key dir) (Lookup.ofValue value) :=
      ⟨lookup, dir, h, rfl, hvalue⟩
    refine bind (remember (.inl hrecalled)) fun _ _ => pure ⟨?_, bind_present?_ne value⟩
    rwa [Lookup.ofValue, getD_bind_present?]

/-- The files of a directory give a value. -/
theorem valueIn {extract : Path → Text → Run (Option Text)}
    {direct : Path → Text → Except Abort (Option Text)} (h : ws.Inside dir)
    (suffixes : List Text)
    (hextract : ∀ path, ws.Inside path → ∀ text,
      Alike (Coherent ws since Allowed) (extract path text) (extract path text)
        fun value => direct path text = .ok value) :
    Alike (Coherent ws since Allowed)
      (do
        let files ← TerraformTrace.filesIn ws dir suffixes
        TerraformTrace.firstValue ws extract files)
      (do
        let files ← TerraformTrace.filesIn (ws.withDisk disk) dir suffixes
        TerraformTrace.firstValue (ws.withDisk disk) extract files)
      fun value => Lookup.ofValue <$> Direct.valueIn ws suffixes direct dir =
        .ok (Lookup.ofValue value) := by
  refine bind (filesIn hagrees hnames h suffixes) fun files hfiles => ?_
  refine (firstValue hagrees hfiles.2 fun path hpath => hextract path (hfiles.2 path hpath)).imp
    fun value hvalue => ?_
  rw [Direct.valueIn_eq, hfiles.1]
  simp only [Bind.bind, Except.bind, hvalue]
  rw [Lookup.ofValue, ← getD_bind_present?]
  rfl

theorem lookupOverride (h : ws.Inside dir) :
    Alike (Coherent ws since Allowed) (lookupOverride ws name dir)
      (lookupOverride (ws.withDisk disk) name dir) fun value =>
        Recalled ws ((Lookup.override name).key dir) (Lookup.ofValue value) ∧ value ≠ some [] :=
  rememberedLookup (.override name) nofun rfl h
    (valueIn hagrees hnames h _ fun _ hpath text => overrideIn name hpath text)

theorem lookupLocal (h : ws.Inside dir) :
    Alike (Coherent ws since Allowed) (lookupLocal ws name dir)
      (lookupLocal (ws.withDisk disk) name dir) fun value =>
        Recalled ws ((Lookup.localValue name).key dir) (Lookup.ofValue value) ∧ value ≠ some [] :=
  rememberedLookup (.localValue name) nofun rfl h
    (valueIn hagrees hnames h _ fun _ _ _ => pure rfl)

theorem lookupOutput (h : ws.Inside dir) :
    Alike (Coherent ws since Allowed) (lookupOutput ws name dir)
      (lookupOutput (ws.withDisk disk) name dir) fun _ => True :=
  (rememberedLookup (.output name) nofun rfl h
    (valueIn hagrees hnames h _ fun _ _ _ => pure rfl)).any

theorem lookupDefault (h : ws.Inside dir) :
    Alike (Coherent ws since Allowed) (lookupDefault ws name dir)
      (lookupDefault (ws.withDisk disk) name dir) fun _ => True :=
  (rememberedLookup (.default name) nofun rfl h
    (valueIn hagrees hnames h _ fun _ _ _ => pure rfl)).any

theorem lookupData (ref : Reference) (h : ws.Inside dir) :
    Alike (Coherent ws since Allowed) (lookupData ws ref dir)
      (lookupData (ws.withDisk disk) ref dir) fun _ => True := by
  unfold TerraformTrace.lookupData
  cases haddress : ref.dataAddress? with
  | none => exact pure trivial
  | some address =>
    obtain ⟨type, name, field⟩ := address
    refine (rememberedLookup (.data ref) nofun rfl h ?_).any
    refine (valueIn hagrees hnames h _ fun _ _ _ => pure rfl).imp fun value hvalue => ?_
    rw [Lookup.recompute, Direct.dataArgument, haddress]
    exact hvalue

/-! ### Modules -/

omit hnames in
theorem callsIn (dir : Path) {paths : List Path} (hpaths : ∀ path ∈ paths, ws.Inside path) :
    Alike (Coherent ws since Allowed) (callsIn ws dir paths) (callsIn (ws.withDisk disk) dir paths)
      fun calls => Direct.callsIn ws dir paths = .ok calls := by
  induction paths with
  | nil => exact pure rfl
  | cons path paths ih =>
    unfold TerraformTrace.callsIn Direct.callsIn
    refine bind (readFile hagrees (hpaths path List.mem_cons_self)) fun text htext => ?_
    refine bind (ih (List.forall_mem_cons.mp hpaths).2)
      fun more hmore => pure ?_
    rw [htext, hmore]
    rfl

theorem moduleCallsOf (h : ws.Inside dir) : Alike (Coherent ws since Allowed) (moduleCallsOf ws dir)
      (moduleCallsOf (ws.withDisk disk) dir)
      fun calls => Direct.moduleCalls ws dir = .ok calls := by
  unfold TerraformTrace.moduleCallsOf
  refine bind (lookUp (Lookup.calls.key dir)) fun found hfound => ?_
  cases found with
  | some known =>
    obtain ⟨events, hremains⟩ := hfound known rfl
    obtain ⟨calls, rfl, hcalls⟩ := hremains.recalled.of_calls h.normal
    exact pure hcalls
  | none =>
    refine bind (filesIn hagrees hnames h _) fun files hfiles => ?_
    refine bind (callsIn hagrees dir hfiles.2) fun calls hcalls => ?_
    have hdirect : Direct.moduleCalls ws dir = .ok calls := by
      rw [Direct.moduleCalls, hfiles.1]
      exact hcalls
    have hrecalled : Recalled ws (Lookup.calls.key dir) (.calls calls) :=
      ⟨.calls, dir, h, rfl, by rw [Lookup.recompute, hdirect]; rfl⟩
    exact bind (remember (.inl hrecalled)) fun _ _ => pure hdirect

variable (hroot : ws.root.IsNormal)

include hroot

omit hnames in
theorem modulePath (source : Text) (h : dir.IsTidy) :
    Alike (Coherent ws since Allowed) (modulePath ws source dir)
      (modulePath (ws.withDisk disk) source dir)
      fun found => ∀ place, found = some place → ws.Inside place := by
  unfold TerraformTrace.modulePath
  refine bind (usablePath dir) fun usable husable => ?_
  subst husable
  simp only [Workspace.withDisk_normalize, Workspace.withDisk_settings,
    Workspace.withDisk_contains, sourcePath_withDisk]
  refine get_bind fun s hs => ?_
  cases hlookup : s.modulePaths.lookup (unquote source, (ws.normalize usable).toText) with
  | some place =>
    -- what is in the table was put there
    obtain ⟨before, after, hentries, -⟩ := List.lookup_eq_some_iff.mp hlookup
    have hplace : ws.Inside place := by
      refine hs.table ((unquote source, (ws.normalize usable).toText), place) ?_
      rw [hentries]
      simp
    exact pure fun other hother => Option.some.inj hother ▸ hplace
  | none =>
    refine ite (fun _ => pure nofun) fun _ => ?_
    refine bind (usablePath _) fun path hpath => ?_
    subst hpath
    refine ite (fun _ => pure nofun) fun hcontains => ?_
    have htidy := (Workspace.isNormal_normalize hroot h).2.1
    have hplace := Workspace.Inside.of_contains hroot
      (Path.isNormal_normalize (Direct.isTidy_sourcePath hroot htidy (unquote source)))
      (by simpa using hcontains)
    refine bind (checkDirectory hagrees hplace) fun isDirectory _ => ?_
    refine ite (fun _ => pure nofun) fun _ => ?_
    refine bind (modify fun s hs => hs.enter hplace) fun _ _ => ?_
    exact pure fun other hother => Option.some.inj hother ▸ hplace

/-- Look-ups at or below the root are alike on both disks and do not lead out of it. -/
theorem ofLookups : OfLookups (fun x y P => Alike (Coherent ws since Allowed) x y P) ws disk
      ws.Inside where
  toSequential := sequential _
  parent h hcontains := .of_contains hroot h.normal.parent hcontains
  isDirectory := checkDirectory hagrees
  override name _ h := (lookupOverride hagrees hnames name h).any
  localValue name _ h := (lookupLocal hagrees hnames name h).any
  output name _ h := lookupOutput hagrees hnames name h
  default name _ h := lookupDefault hagrees hnames name h
  data ref _ h := lookupData hagrees hnames ref h
  calls h := (moduleCallsOf hagrees hnames h).imp fun calls hcalls call hcall => by
    rw [Direct.directory_of_mem hcalls hcall]
    exact h
  place source _ h := modulePath hagrees hroot source h.normal.2.1

end Alike

end TerraformTrace
