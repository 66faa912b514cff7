import TerraformTrace.Proofs.Alias
import TerraformTrace.Proofs.Confinement
import TerraformTrace.Proofs.DirectorySearch

/-!
# TerraformTrace.Proofs.AliasChain

Local values that stand for one another. Where every local value at the root is either the
name of another one or a text without references, **asking for one follows the names to
the text at their end** (`alias_answer_eq_some_iff`): the answer is that text if it is no
more names away than frames may nest, and nothing otherwise, in particular on a circle.
What was asked before makes no difference, though chains that were cut or too deep may
have left their results in the cache.

**Frames of their own.** The frame of such a local value leads to such frames only. So its
result depends on the number of levels that are left and on nothing else, and this is what
may be remembered of it. All other frames are as in `TerraformTrace.Proofs.Confinement`.
-/

namespace TerraformTrace

open Hcl

variable {value : Option Text} {other : Text}

/-! ### Runs that come to a value -/

/-- Under an invariant, a run comes to a value of a sort, and keeps the invariant. -/
def Yields {α : Type} (I : Session → Prop) (x : Run α) (P : α → Prop) : Prop :=
  ∀ s, I s → ∃ value, outcome x s = .ok value ∧ P value ∧ I (after x s)

namespace Yields

variable {α β : Type} {I : Session → Prop} {P : α → Prop} {x y : Run α}

theorem of_alike (h : Alike I x y P) (hok : ∀ s, I s → ∃ value, outcome x s = .ok value) :
    Yields I x P := by
  intro s hs
  obtain ⟨value, hvalue⟩ := hok s hs
  exact ⟨value, hvalue, h.value s value hs hvalue, h.keeps s hs⟩

theorem alike (h : Yields I x P) : Alike I x x P where
  same _ _ := rfl
  keeps s hs := by
    obtain ⟨_, -, -, hkeeps⟩ := h s hs
    exact hkeeps
  value s value hs hout := by
    obtain ⟨found, hfound, hvalue, -⟩ := h s hs
    rw [hfound] at hout
    cases hout
    exact hvalue

theorem pure {value : α} (h : P value) : Yields I (pure value) P :=
  fun _ hs => ⟨value, rfl, h, hs⟩

theorem bind {R : β → Prop} {f : α → Run β} (hx : Yields I x P)
    (hf : ∀ value, P value → Yields I (f value) R) : Yields I (x >>= f) R := by
  intro s hs
  obtain ⟨value, hvalue, hP, hkeeps⟩ := hx s hs
  rw [outcome_bind, hvalue, after_bind_of_ok hvalue]
  exact hf value hP _ hkeeps

end Yields

/-! ### Look-ups come to a value -/

section Outcomes

variable {ws : Workspace} {dir : Path}

/-- A look-up that can be made anew comes to a value, remembered or not. -/
theorem exists_outcome_lookupDeclared {kind : ResultKind} {name : Text}
    {extract : Text → Option Text} (h : Direct.declared ws extract dir = .ok value)
    (s : Session) :
    ∃ found, outcome (lookupDeclared ws kind name dir extract) s = .ok found := by
  have hcompute := Observes.valueIn ws (fun _ text => Observes.pure (extract text)) dir
    ws.settings.configurationSuffixes
  obtain ⟨paths, hpaths, hrest⟩ := Direct.bind_ok h
  obtain ⟨first, hfirst, -⟩ := Direct.bind_ok hrest
  rw [hpaths] at hcompute
  unfold lookupDeclared rememberedLookup
  rw [outcome_bind, outcome_lookUp]
  cases (s.cache.get (cacheKey kind.word [name, dir.toText])).1 with
  | some known => exact ⟨_, rfl⟩
  | none =>
    refine ⟨first.bind present?, ?_⟩
    show outcome (_ >>= _) _ = _
    rw [outcome_bind, (hcompute _).1]
    show Direct.firstValue _ _ paths >>= _ = _
    rw [hfirst]
    rfl

end Outcomes

/-! ### Chains of names -/

/-- The reference to a local value. -/
def Reference.ofLocal (name : Text) : Reference :=
  { kind := .localValue, segments := [name], enough := by simp [ReferenceKind.arity] }

namespace Reference

theorem isWellFormed_ofLocal {name : Text} (h : Text.isName name = true) :
    (ofLocal name).IsWellFormed := by
  intro segment hsegment
  rwa [List.mem_singleton.mp hsegment]

theorem ofLocal_inj {name : Text} (h : ofLocal name = ofLocal other) : name = other :=
  (List.cons.inj (congrArg segments h)).1

/-- The text of a local value tells it from all other references, also from those that
cannot be written down. -/
theorem eq_ofLocal_of_text {ref : Reference} {name : Text} (hname : Text.isName name = true)
    (h : ref.text = (ofLocal name).text) : ref = ofLocal name := by
  have hdot : '.' ∉ name := not_mem_of_isName (by decide) (by decide) hname
  obtain ⟨kind, segments, enough⟩ := ref
  have hsegments : segments ≠ [] := by
    rintro rfl
    have hpos := kind.arity_pos
    simp only [List.length_nil] at enough
    omega
  obtain ⟨first, rest, rfl⟩ := List.exists_cons_of_ne_nil hsegments
  have hpieces : kind.word ++ '.' :: Text.join ['.'] (first :: rest) =
      ReferenceKind.localValue.word ++ '.' :: name := by
    have hwritten : Text.join ['.'] (kind.word :: first :: rest) =
      Text.join ['.'] [ReferenceKind.localValue.word, name] := h
    rwa [Text.join_cons, Text.join_cons] at hwritten
  cases kind with
  | localValue =>
    have hjoin : Text.join ['.'] (first :: rest) = name := by simpa using hpieces
    cases rest with
    | nil =>
      rw [Text.join] at hjoin
      subst hjoin
      rfl
    | cons next rest =>
      refine absurd ?_ hdot
      rw [← hjoin, Text.join_cons]
      simp [Text.joinRest]
  | _ => simp [ReferenceKind.word] at hpieces

end Reference

namespace Workspace

variable {ws : Workspace} {name : Text} {count : Nat} {text : Text}

/-- The text of a local value at the root. -/
def localText? (ws : Workspace) (name : Text) : Option Text :=
  (ws.declarations (localValue? · name) ws.root).head?

/-- A local value that is nothing but the name of another one. -/
def IsAlias (ws : Workspace) (name other : Text) : Prop :=
  Text.isName other = true ∧ ws.localText? name = some (Reference.ofLocal other).text

/-- The text at the end of a chain of this many names. -/
inductive Denotes (ws : Workspace) : Nat → Text → Text → Prop
  | text {name text : Text} :
    ws.localText? name = some text → references text = [] → Denotes ws 0 name text
  | step {count : Nat} {name other text : Text} :
    ws.IsAlias name other → Denotes ws count other text →
    Denotes ws (count + 1) name text

/-- The texts of all local values at the root. -/
def localTexts (ws : Workspace) : List Text :=
  (ws.texts ws.settings.configurationSuffixes ws.root).flatMap fun file =>
    (blocks file.2 "locals".toList).flatMap fun block =>
      (Hcl.assignments block.body).map (·.value)

/-- Every local value at the root is the name of another one or a text without
references. -/
def HasAliases (ws : Workspace) : Prop :=
  ∀ text ∈ ws.localTexts,
    (∃ other, Text.isName other = true ∧ text = (Reference.ofLocal other).text) ∨
      (text ≠ [] ∧ references text = [])

theorem mem_localTexts (h : ws.localText? name = some text) : text ∈ ws.localTexts := by
  obtain ⟨file, hfile, hvalue⟩ := List.mem_filterMap.mp (List.mem_of_head? h)
  obtain ⟨block, hblock, hassigned⟩ := List.exists_of_findSome?_eq_some hvalue
  obtain ⟨assignment, hfind, htext⟩ := Option.map_eq_some_iff.mp hassigned
  refine List.mem_flatMap.mpr ⟨file, hfile, List.mem_flatMap.mpr ⟨block, hblock, ?_⟩⟩
  exact List.mem_map.mpr ⟨assignment, List.mem_of_find?_eq_some hfind, htext⟩

theorem HasAliases.cases (haliases : ws.HasAliases) (h : ws.localText? name = some text) :
    (∃ other, ws.IsAlias name other) ∨ (text ≠ [] ∧ references text = []) := by
  rcases haliases text (mem_localTexts h) with ⟨other, hname, rfl⟩ | hplain
  · exact .inl ⟨other, hname, h⟩
  · exact .inr hplain

theorem IsAlias.unique {other' : Text} (h : ws.IsAlias name other)
    (h' : ws.IsAlias name other') : other = other' := by
  have htext := Option.some.inj (h.2.symm.trans h'.2)
  exact Reference.ofLocal_inj (Reference.eq_ofLocal_of_text h'.1 htext)

theorem IsAlias.references_ne (h : ws.IsAlias name other)
    (htext : ws.localText? name = some text) : references text ≠ [] := by
  rw [h.2] at htext
  cases htext
  rw [references_text (Reference.isWellFormed_ofLocal h.1)]
  nofun

theorem Denotes.exists_text (h : ws.Denotes count name text) :
    ∃ first, ws.localText? name = some first := by
  cases h with
  | text htext _ => exact ⟨_, htext⟩
  | step halias _ => exact ⟨_, halias.2⟩

/-- A chain goes on from the next name. -/
theorem Denotes.of_isAlias (h : ws.Denotes count name text) (halias : ws.IsAlias name other) :
    ∃ fewer, count = fewer + 1 ∧ ws.Denotes fewer other text := by
  cases h with
  | text htext hreferences => exact absurd hreferences (halias.references_ne htext)
  | step hnext hrest =>
    obtain rfl := hnext.unique halias
    exact ⟨_, rfl, hrest⟩

/-- From a name that is reached later on, the chain is shorter. -/
theorem Denotes.of_transGen (h : ws.Denotes count name text)
    (hleads : Relation.TransGen ws.IsAlias name other) :
    ∃ fewer < count, ws.Denotes fewer other text := by
  induction hleads with
  | single halias =>
    obtain ⟨fewer, rfl, hrest⟩ := h.of_isAlias halias
    exact ⟨fewer, Nat.lt_succ_self _, hrest⟩
  | tail _ halias ih =>
    obtain ⟨fewer, hlt, hrest⟩ := ih
    obtain ⟨least, rfl, hlast⟩ := hrest.of_isAlias halias
    exact ⟨least, by omega, hlast⟩

/-- A circle of names has no end. -/
theorem not_denotes_of_circle (hcircle : Relation.TransGen ws.IsAlias name name)
    (count : Nat) (text : Text) : ¬ ws.Denotes count name text := by
  induction count using Nat.strongRecOn with
  | _ count ih =>
    intro h
    obtain ⟨fewer, hlt, hagain⟩ := h.of_transGen hcircle
    exact ih fewer hlt hagain

/-- The value that following at most this many names, less one, comes to. -/
def Ends (ws : Workspace) (left : Nat) (name : Text) (value : Option Text) : Prop :=
  ∀ text, value = some text ↔ ∃ count < left, ws.Denotes count name text

theorem ends_none {left : Nat} (h : ∀ count < left, ∀ text, ¬ ws.Denotes count name text) :
    ws.Ends left name none :=
  fun text => ⟨nofun, fun ⟨count, hlt, hdenotes⟩ => absurd hdenotes (h count hlt text)⟩

theorem ends_text {left : Nat} (htext : ws.localText? name = some text)
    (hreferences : references text = []) : ws.Ends (left + 1) name (some text) := by
  intro other
  constructor
  · intro heq
    cases heq
    exact ⟨0, Nat.succ_pos _, .text htext hreferences⟩
  · rintro ⟨count, -, hdenotes⟩
    cases hdenotes with
    | text hother _ => rw [← htext, hother]
    | step hnext _ => exact absurd hreferences (hnext.references_ne htext)

theorem ends_alias {left : Nat} (halias : ws.IsAlias name other)
    (h : ws.Ends left other value) : ws.Ends (left + 1) name value := by
  intro text
  rw [h text]
  constructor
  · rintro ⟨count, hlt, hdenotes⟩
    exact ⟨count + 1, by omega, .step halias hdenotes⟩
  · rintro ⟨count, hlt, hdenotes⟩
    obtain ⟨fewer, rfl, hrest⟩ := hdenotes.of_isAlias halias
    exact ⟨fewer, by omega, hrest⟩

/-- No text at the end of a chain is empty. -/
theorem Denotes.ne_nil (haliases : ws.HasAliases) (h : ws.Denotes count name text) : text ≠ [] := by
  induction h with
  | text htext hreferences =>
    rcases haliases.cases htext with ⟨other, halias⟩ | ⟨hne, -⟩
    · exact absurd hreferences (halias.references_ne htext)
    · exact hne
  | step _ _ ih => exact ih

end Workspace

/-! ### The frames of local values at the root -/

/-- What may be remembered of the frame of a local value at the root: what following names
comes to in the levels that are left. Of other frames anything may be remembered. -/
def Workspace.FollowsAliases (ws : Workspace) (_mode : SearchMode) (parts : List Text)
    (value : Remembered) : Prop :=
  ∀ name depth calls, Text.isName name = true →
    parts = [(Reference.ofLocal name).text, ws.root.toText, Text.ofNat depth, calls] →
    ws.Ends (ws.settings.maxDepth + 1 - depth) name (present? value.asText)

/-- The frame of a local value at the root. -/
structure Context.IsLocal (ws : Workspace) (ctx : Context) (name : Text) : Prop where
  isName : Text.isName name = true
  reference : ctx.reference = .ofLocal name
  directory : ctx.directory = ws.root

/-- If frames of local values at the root stand above, then all there is above is a chain to
this one. -/
def Context.IsTracked (ws : Workspace) (ctx : Context) : Prop :=
  ∀ earlier, Text.isName earlier = true →
    (ws.root.toText, (Reference.ofLocal earlier).text) ∈ ctx.visited →
    ∃ name, ctx.IsLocal ws name ∧ Relation.TransGen ws.IsAlias earlier name

section AliasFrames

variable {ws : Workspace} {since : List Event} {mode : SearchMode} {ctx : Context} {name : Text}

namespace Context

theorem IsLocal.unique (h : ctx.IsLocal ws name) (h' : ctx.IsLocal ws other) : name = other :=
  Reference.ofLocal_inj (h.reference.symm.trans h'.reference)

theorem IsLocal.properties (h : ctx.IsLocal ws name) : ctx.reference.properties = [] := by
  rw [h.reference]
  rfl

theorem IsLocal.key (h : ctx.IsLocal ws name) :
    ctx.key = (ws.root.toText, (Reference.ofLocal name).text) := by
  rw [Context.key, h.reference, h.directory]

/-- The place of a frame on a path tells whether it is that of a local value at the root. -/
theorem isLocal_of_key (hroot : ws.root.IsNormal) (hdir : ctx.directory.IsNormal)
    (hname : Text.isName name = true)
    (h : ctx.key = (ws.root.toText, (Reference.ofLocal name).text)) :
    ctx.IsLocal ws name := by
  obtain ⟨hplace, htext⟩ := Prod.mk.inj h
  exact ⟨hname, Reference.eq_ofLocal_of_text hname htext, hdir.toText_inj hroot hplace⟩

/-- So does its key in the cache, which tells its depth as well. -/
theorem isLocal_of_keyParts (hroot : ws.root.IsNormal)
    (hdir : ctx.directory.IsNormal) (hname : Text.isName name = true) {depth : Nat}
    {calls : Text}
    (h : ctx.keyParts = [(Reference.ofLocal name).text, ws.root.toText, Text.ofNat depth, calls]) :
    ctx.IsLocal ws name ∧ ctx.depth = depth := by
  simp only [Context.keyParts, List.cons.injEq] at h
  obtain ⟨htext, hplace, hdepth, -⟩ := h
  exact ⟨isLocal_of_key hroot hdir hname (Prod.ext hplace htext), Text.ofNat_inj hdepth⟩

/-- Nothing is asked of the results of other frames. -/
theorem followsAliases_of_not_isLocal (hroot : ws.root.IsNormal)
    (hdir : ctx.directory.IsNormal) (h : ∀ name, ¬ ctx.IsLocal ws name)
    (value : Remembered) : ws.FollowsAliases mode ctx.keyParts value := by
  intro name depth calls hname hparts
  exact absurd (isLocal_of_keyParts hroot hdir hname hparts).1 (h name)

/-- No frame of a local value at the root stands above a child of another frame. -/
theorem IsTracked.child_of_not_isLocal (htracked : ctx.IsTracked ws)
    (hroot : ws.root.IsNormal) (hdir : ctx.directory.IsNormal)
    (h : ∀ name, ¬ ctx.IsLocal ws name) (ref : Reference) (dir : Path)
    (stack : List ModuleFrame) : (ctx.child ref dir stack).IsTracked ws := by
  intro earlier hearlier hmem
  rcases List.mem_insert_iff.mp hmem with hkey | hvisited
  · exact absurd (isLocal_of_key hroot hdir hearlier hkey.symm) (h earlier)
  · obtain ⟨name, hlocal, -⟩ := htracked earlier hearlier hvisited
    exact absurd hlocal (h name)

/-- Whatever led to a name leads to the next one, and so does the name itself. -/
theorem IsTracked.child_of_isAlias (htracked : ctx.IsTracked ws)
    (h : ctx.IsLocal ws name) (halias : ws.IsAlias name other) :
    (ctx.child (.ofLocal other) ws.root ctx.stack).IsTracked ws := by
  intro earlier hearlier hmem
  refine ⟨other, ⟨halias.1, rfl, rfl⟩, ?_⟩
  rcases List.mem_insert_iff.mp hmem with hkey | hvisited
  · rw [h.key] at hkey
    have htext := (Prod.mk.inj hkey).2
    obtain rfl := Reference.ofLocal_inj (Reference.eq_ofLocal_of_text h.isName htext)
    exact .single halias
  · obtain ⟨last, hlast, hleads⟩ := htracked earlier hearlier hvisited
    obtain rfl := hlast.unique h
    exact hleads.tail halias

/-- A frame on its own path is cut, and rightly so: the chain leads back to it. -/
theorem IsLocal.ends_of_isCycle (h : ctx.IsLocal ws name)
    (htracked : ctx.IsTracked ws) (hcycle : ctx.isCycle = true) (left : Nat) :
    ws.Ends left name none := by
  have hmem : ctx.key ∈ ctx.visited := by simpa [Context.isCycle] using hcycle
  rw [h.key] at hmem
  obtain ⟨other, hother, hcircle⟩ := htracked name h.isName hmem
  rw [← h.unique hother] at hcircle
  exact Workspace.ends_none fun count _ text => Workspace.not_denotes_of_circle hcircle count text

variable {left : Nat} (hdepth : ctx.depth + left = ws.settings.maxDepth + 1)

include hdepth

/-- What is remembered of a frame is what it comes to. -/
theorem IsLocal.ends_of_followsAliases (h : ctx.IsLocal ws name) {known : Remembered}
    (hknown : ws.FollowsAliases mode ctx.keyParts known) :
    ws.Ends left name (present? known.asText) := by
  have hends := hknown name ctx.depth _ h.isName
    (by rw [Context.keyParts, h.reference, h.directory])
  rwa [show ws.settings.maxDepth + 1 - ctx.depth = left by omega] at hends

/-- What a frame comes to may be remembered of it. -/
theorem IsLocal.followsAliases_of_ends (h : ctx.IsLocal ws name)
    (hroot : ws.root.IsNormal) (hctx : ctx.directory.IsNormal)
    (haliases : ws.HasAliases) (hends : ws.Ends left name value) :
    ws.FollowsAliases mode ctx.keyParts (.text (value.getD [])) := by
  intro other depth calls hother hparts
  obtain ⟨hsame, rfl⟩ := isLocal_of_keyParts hroot hctx hother hparts
  obtain rfl := hsame.unique h
  have hne : value ≠ some [] := by
    rintro rfl
    obtain ⟨count, -, hdenotes⟩ := (hends []).mp rfl
    exact hdenotes.ne_nil haliases rfl
  rw [show ws.settings.maxDepth + 1 - ctx.depth = left by omega]
  show ws.Ends left other (present? (value.getD []))
  rw [present?_getD hne]
  exact hends

end Context

/-- A local value that is recalled is what it comes to anew. -/
theorem Recalled.localValue_eq {dir : Path} (hdir : dir.IsNormal) (hvalue : value ≠ some [])
    (h : Recalled ws ((Lookup.localValue name).key dir) (Lookup.ofValue value)) :
    Direct.localValue ws name dir = .ok value := by
  obtain ⟨found, hfound, heq⟩ := Lookup.map_eq_ok (h.recompute_eq (by nofun) hdir)
  have hne : found ≠ some [] := Direct.valueIn_ne hfound
  rw [hfound, ← present?_getD hne, ← present?_getD hvalue, Remembered.text.inj heq]

/-- A frame comes to a value if its computation does. -/
theorem Yields.frame {Allowed : SearchMode → List Text → Remembered → Prop}
    {compute : Run Resolution} {P : Option Text → Prop} (hctx : ctx.IsInside ws)
    (hcut : ctx.isCycle = true → P none)
    (hhit : ∀ known, Allowed mode ctx.keyParts known → P (present? known.asText))
    (hstore : ∀ value, P value → Allowed mode ctx.keyParts (.text (value.getD [])))
    (hcompute : Yields (Coherent ws since Allowed) compute fun result => P result.value) :
    Yields (Coherent ws since Allowed) (frame mode ctx compute) fun result => P result.value := by
  refine .of_alike (.frame hctx hcut hhit hstore hcompute.alike) fun s hs => ?_
  have hopened : Coherent ws since Allowed (opened mode ctx s) :=
    (hs.lookUp (frameKey mode ctx)).note (by exact hctx)
  obtain ⟨result, hresult, -⟩ := hcompute _ hopened
  refine frame_cases mode ctx compute s fun hends => ?_
  cases hends with
  | cut _ => exact ⟨_, rfl⟩
  | hit _ _ _ => exact ⟨_, rfl⟩
  | aborted _ _ abort habort =>
    rw [hresult] at habort
    cases habort
  | stored _ _ _ _ => exact ⟨_, rfl⟩
  | unstored _ _ _ _ => exact ⟨_, rfl⟩

variable (hworks : ws.disk.Works) (hnames : ws.disk.tree.HasFileNames)
  (hdir : ws.HasDirectory ws.root) (haliases : ws.HasAliases)

include hworks hnames hdir

/-- The text of a local value at the root is looked up. -/
theorem yields_lookupLocal (name : Text) : Yields (Coherent ws since ws.FollowsAliases)
      (lookupLocal ws name ws.root)
      (· = (ws.localText? name).bind present?) := by
  have hinside : ws.Inside ws.root := ⟨hdir.normal, List.prefix_refl _⟩
  have hdirect : Direct.localValue ws name ws.root = .ok ((ws.localText? name).bind present?) :=
    Direct.declared_eq_bind hworks hdir
  have hlookup : Alike (Coherent ws since ws.FollowsAliases) (lookupLocal ws name ws.root) _ _ :=
    Alike.lookupLocal ws.agreesWith_self hnames name hinside
  refine .of_alike (hlookup.imp fun value hvalue => ?_) fun s _ =>
    exists_outcome_lookupDeclared hdirect s
  have hrecalled := hvalue.1.localValue_eq hdir.normal hvalue.2
  rw [hdirect] at hrecalled
  exact (Except.ok.inj hrecalled).symm

include haliases

section Search

variable {left : Nat} {nested : Context → Run Resolution}
  (hlocal : ctx.IsLocal ws name)
  (hnested : ∀ other, ws.IsAlias name other → Yields (Coherent ws since ws.FollowsAliases)
      (nested (ctx.child (.ofLocal other) ws.root ctx.stack))
      fun result => ws.Ends left other result.value)

include hlocal hnested

/-- The search in the root for a local value follows one name. -/
theorem yields_searchDirectory :
    Yields (Coherent ws since ws.FollowsAliases) (searchDirectory ws mode nested ctx) fun found =>
        (∃ resolution, found = .settled resolution ∧ ws.Ends (left + 1) name resolution.value) ∨
        (found = .missed true ∧ ws.localText? name = none) := by
  have hsearch : searchDirectory ws mode nested ctx =
      lookupLocal ws name ws.root >>= settle nested ctx := by
    unfold searchDirectory
    rw [hlocal.reference, hlocal.directory]
    rfl
  rw [hsearch]
  refine Yields.bind (yields_lookupLocal hworks hnames hdir name) fun found hfound => ?_
  cases htext : ws.localText? name with
  | none =>
    rw [htext] at hfound
    subst hfound
    exact Yields.pure (.inr ⟨rfl, rfl⟩)
  | some text =>
    -- the empty text would count as nothing found
    have hne : text ≠ [] := by
      rcases haliases.cases htext with ⟨other, halias⟩ | ⟨hne, -⟩
      · rw [halias.2] at htext
        cases htext
        exact Reference.text_ne_nil _
      · exact hne
    obtain rfl : found = some text := by
      rw [hfound, htext]
      simp [present?, hne]
    unfold settle
    dsimp only
    rw [hlocal.directory]
    rcases haliases.cases htext with ⟨other, halias⟩ | ⟨-, hreferences⟩
    · have hother := halias.2
      rw [htext] at hother
      rw [Option.some.inj hother, expand_text (Reference.isWellFormed_ofLocal halias.1)]
      refine Yields.bind (hnested other halias) fun result hresult => ?_
      exact Yields.pure (.inl ⟨result, rfl, Workspace.ends_alias halias hresult⟩)
    · rw [expand_of_references hreferences, pure_bind]
      exact Yields.pure (.inl ⟨_, rfl, Workspace.ends_text htext hreferences⟩)

/-- There is nothing above the root to go on with. -/
theorem yields_searchSymbol :
    Yields (Coherent ws since ws.FollowsAliases) (searchSymbol ws mode nested ctx)
      fun result => ws.Ends (left + 1) name result.value := by
  have hparent : searchParent ws nested ctx = pure .notFound := by
    unfold searchParent
    rw [hlocal.directory]
    simp
  refine Yields.bind (yields_searchDirectory hworks hnames hdir haliases hlocal hnested)
    fun found hfound => ?_
  rcases hfound with ⟨resolution, rfl, hends⟩ | ⟨rfl, hmissing⟩
  · exact Yields.pure hends
  · dsimp only
    rw [hparent, pure_bind]
    refine Yields.pure (Workspace.ends_none fun count _ text hdenotes => ?_)
    obtain ⟨text, htext⟩ := hdenotes.exists_text
    rw [hmissing] at htext
    cases htext

end Search

/-- The frame of a local value at the root comes to the text at the end of its chain, if
the levels that are left are enough to get there. -/
theorem yields_aliasFrame (left : Nat) (hlocal : ctx.IsLocal ws name)
    (hctx : ctx.IsInside ws) (htracked : ctx.IsTracked ws)
    (hdepth : ctx.depth + left = ws.settings.maxDepth + 1) :
    Yields (Coherent ws since ws.FollowsAliases) (resolveFrame ws mode left ctx)
      fun result => ws.Ends left name result.value := by
  induction left generalizing ctx name with
  | zero =>
    refine .of_alike (x := resolveFrame ws mode 0 ctx) (.note_bind (by exact hctx)
      (.note_bind (by exact hctx) (.pure ?_))) fun s _ => ⟨_, rfl⟩
    exact Workspace.ends_none fun count hlt => absurd hlt (Nat.not_lt_zero _)
  | succ left ih =>
    unfold resolveFrame
    dsimp only
    rw [hlocal.properties, List.isEmpty_nil, if_pos rfl]
    refine .frame (P := ws.Ends (left + 1) name) hctx
      (fun hcycle => hlocal.ends_of_isCycle htracked hcycle _)
      (fun _ hknown => hlocal.ends_of_followsAliases hdepth hknown)
      (fun _ hends => hlocal.followsAliases_of_ends hdepth hdir.normal
        hctx.directory.normal haliases hends) ?_
    refine yields_searchSymbol hworks hnames hdir haliases hlocal fun other halias => ?_
    refine ih ⟨halias.1, rfl, rfl⟩ ⟨⟨hdir.normal, List.prefix_refl _⟩, hctx.stack⟩
      (htracked.child_of_isAlias hlocal halias) ?_
    show ctx.depth + 1 + left = _
    omega

/-- The frame of a symbol keeps what is remembered of local values at the root as it should
be, if the frames of its children do. -/
theorem alike_symbolFrame {left : Nat} (hctx : ctx.IsInside ws) (htracked : ctx.IsTracked ws)
    (hdepth : ctx.depth + (left + 1) = ws.settings.maxDepth + 1)
    (hproperties : ctx.reference.properties = [])
    (hnested : ∀ child : Context, child.IsInside ws → child.IsTracked ws →
      child.depth + left = ws.settings.maxDepth + 1 →
      Alike (Coherent ws since ws.FollowsAliases)
        (resolveFrame ws mode left child) (resolveFrame ws mode left child)
        fun _ => True) :
    Alike (Coherent ws since ws.FollowsAliases)
      (frame mode ctx (searchSymbol ws mode (resolveFrame ws mode left) ctx))
      (frame mode ctx (searchSymbol ws mode (resolveFrame ws mode left) ctx))
      fun _ => True := by
  by_cases hlocal : ∃ name, ctx.IsLocal ws name
  · obtain ⟨name, hlocal⟩ := hlocal
    have hframe : Yields (Coherent ws since ws.FollowsAliases)
        (resolveFrame ws mode (left + 1) ctx) _ :=
      yields_aliasFrame hworks hnames hdir haliases _ hlocal hctx htracked hdepth
    unfold resolveFrame at hframe
    dsimp only at hframe
    rw [hproperties, List.isEmpty_nil, if_pos rfl] at hframe
    exact hframe.alike.any
  · have hother : ∀ name, ¬ ctx.IsLocal ws name :=
      fun name hname => hlocal ⟨name, hname⟩
    have hnormal := hctx.directory.normal
    refine .frame (P := fun _ => True) hctx (fun _ => trivial) (fun _ _ => trivial)
      (fun _ _ => Context.followsAliases_of_not_isLocal hdir.normal hnormal hother _) ?_
    refine Alike.searchSymbol ws.agreesWith_self hnames hdir.normal hctx
      (fun ref dir stack hchild => hnested _ hchild
        (htracked.child_of_not_isLocal hdir.normal hnormal hother _ _ _) ?_) mode
    show ctx.depth + 1 + left = _
    omega

/-- Every frame keeps what is remembered of local values at the root as it should be. -/
theorem alike_resolveFrame (left : Nat) (hctx : ctx.IsInside ws) (htracked : ctx.IsTracked ws)
    (hdepth : ctx.depth + left = ws.settings.maxDepth + 1) :
    Alike (Coherent ws since ws.FollowsAliases)
      (resolveFrame ws mode left ctx) (resolveFrame ws mode left ctx)
      fun _ => True := by
  induction left generalizing ctx with
  | zero =>
    exact Alike.note_bind (by exact hctx) (.note_bind (by exact hctx) (.pure trivial))
  | succ left ih =>
    have hnested : ∀ child : Context, child.IsInside ws → child.IsTracked ws →
        child.depth + left = ws.settings.maxDepth + 1 → _ := fun _ => ih
    unfold resolveFrame
    refine .ite (fun hempty => ?_) fun hproperties => ?_
    · exact alike_symbolFrame hworks hnames hdir haliases hctx htracked hdepth
        (List.isEmpty_iff.mp hempty) hnested
    · -- with properties the reference is not that of a local value itself
      have hother : ∀ name, ¬ ctx.IsLocal ws name := by
        intro name hlocal
        rw [hlocal.properties] at hproperties
        exact hproperties rfl
      refine .frame (P := fun _ => True) hctx (fun _ => trivial) (fun _ _ => trivial)
        (fun _ _ => Context.followsAliases_of_not_isLocal hdir.normal
          hctx.directory.normal hother _) ?_
      have hsymbol : (ctx.withReference ctx.reference.base).IsTracked ws := by
        intro earlier hearlier hmem
        obtain ⟨name, hlocal, -⟩ := htracked earlier hearlier hmem
        exact absurd hlocal (hother name)
      refine .bind (alike_symbolFrame hworks hnames hdir haliases
        ⟨hctx.directory, hctx.stack⟩ hsymbol hdepth (Reference.base_properties _) hnested)
        fun base _ => ?_
      exact .bind (.project _ _) fun _ _ => .pure trivial

end AliasFrames

/-! ### Answers -/

/-- Where every local value at the root is the name of another one or a text without
references, the answer to a request for one, in either mode and after any other requests,
is the text at the end of its chain of names if the chain is no longer than the bound on
nesting. In all other cases there is no answer: if the chain is longer, if it ends at a
name that is not there, and if it is a circle. -/
theorem alias_answer_eq_some_iff {ws : Workspace} (hroot : ws.root.IsNormal)
    (hworks : ws.disk.Works) (hnames : ws.disk.tree.HasFileNames)
    (haliases : ws.HasAliases) {fresh : Session}
    (hfresh : Session.create ws.settings = .ok fresh) {requests : List Request}
    (hrequests : ∀ request ∈ requests, request.HasTidyPaths) (mode : SearchMode) {name : Text}
    (hname : Text.isName name = true) {wanted : Wanted}
    (hwanted : wanted.reference? = some (.ofLocal name)) {start : Path}
    (hnul : start.hasNul = false) (hstart : ws.normalize start = ws.root)
    (text : Text) :
    (resolveIn ws mode wanted start (performAll ws requests fresh)).1 = some text ↔
      ∃ count ≤ ws.settings.maxDepth, ws.Denotes count name text := by
  rw [resolveIn_fst]
  cases hisDirectory : ws.disk.tree.isDirectory ws.root with
  | false =>
    rw [outcome_sought_of_not_isDirectory hworks hnul (by rw [hstart]; exact hisDirectory)]
    refine ⟨nofun, fun ⟨count, _, hdenotes⟩ => ?_⟩
    obtain ⟨first, hfirst⟩ := hdenotes.exists_text
    have hexists := Workspace.hasDirectory_of_declarations hroot hfirst
    rw [hexists.isDirectory] at hisDirectory
    cases hisDirectory
  | true =>
    have hdir : ws.HasDirectory ws.root := ⟨hroot, hisDirectory⟩
    have hcontains : ws.contains (ws.normalize start) = true := by
      rw [hstart]
      exact (Workspace.contains_iff hroot hroot).mpr (List.prefix_refl _)
    obtain ⟨hcache, hpaths, hevents⟩ := Session.empty_of_create hfresh
    have hframes : ∀ mode ref dir, ws.Inside dir →
        Alike (Coherent ws [] ws.FollowsAliases) (resolveFrom ws mode ref dir)
          (resolveFrom (ws.withDisk ws.disk) mode ref dir)
          fun _ => True :=
      fun mode ref dir hinside => alike_resolveFrame hworks hnames hdir
        haliases _ ⟨hinside, nofun⟩ nofun (Nat.zero_add _)
    have hcoherent := AlikeQuery.performAll ws.agreesWith_self hroot hframes hrequests
      (.of_empty hcache hpaths hevents)
    have hyields : Yields (Coherent ws [] ws.FollowsAliases)
        (resolveFrom ws mode (.ofLocal name) ws.root) _ :=
      yields_aliasFrame hworks hnames hdir haliases _ ⟨hname, rfl, rfl⟩
        ⟨⟨hroot, List.prefix_refl _⟩, nofun⟩ nofun (Nat.zero_add _)
    obtain ⟨result, hresult, hends, -⟩ := hyields _ hcoherent
    rw [sought_eq hworks hwanted hnul hcontains (by rw [hstart]; exact hisDirectory), outcome_bind,
      hstart, hresult]
    show result.value = some text ↔ _
    rw [hends text]
    simp only [Nat.lt_succ_iff]

/-- A chain of two names and a local value that is its own name, with frames that may nest
one level deep. -/
def chained : Workspace := .ofFiles { maxDepth := 1 } [(["main.tf"],
  "locals \x7b\n  a = local.b\n  b = \"v\"\n  c = local.a\n  d = local.d\n\x7d\n")]

theorem hasAliases_chained : chained.HasAliases := by
  have htexts : chained.localTexts =
      ["local.b".toList, "\"v\"".toList, "local.a".toList, "local.d".toList] := by
    decide +kernel
  intro text htext
  rw [htexts] at htext
  simp only [List.mem_cons, List.not_mem_nil, or_false] at htext
  rcases htext with rfl | rfl | rfl | rfl
  · exact .inl ⟨"b".toList, by decide, by decide⟩
  · exact .inr ⟨by decide, by decide +kernel⟩
  · exact .inl ⟨"a".toList, by decide, by decide⟩
  · exact .inl ⟨"d".toList, by decide, by decide⟩

/-- The requests before: round the circle, and down the chain that is too long. -/
def chainedRequests : List Request :=
  [.value .plain (written "local.d") here, .value .enhanced (written "local.c") here]

/-- After these requests the text one name away is found, and nothing on the circle. -/
theorem chained_answer_eq :
    (resolveIn chained .enhanced (written "local.a") here
      (performAll chained chainedRequests .fresh)).1 = some "\"v\"".toList ∧
    ∀ text, (resolveIn chained .enhanced (written "local.d") here
      (performAll chained chainedRequests .fresh)).1 ≠ some text := by
  have hrequests : ∀ request ∈ chainedRequests, request.HasTidyPaths := by decide
  have hfresh : Session.create chained.settings = .ok .fresh := rfl
  have hworks : chained.disk.Works := ⟨rfl, by decide +kernel, by decide⟩
  have hdenotes : chained.Denotes 1 "a".toList "\"v\"".toList := by
    have hab : chained.IsAlias "a".toList "b".toList := ⟨by decide, by decide +kernel⟩
    exact .step hab (.text (by decide +kernel) (by decide +kernel))
  refine ⟨(alias_answer_eq_some_iff (by decide) hworks (by decide)
    hasAliases_chained hfresh hrequests .enhanced (by decide) (by decide +kernel) rfl (by decide)
    _).mpr ⟨1, by decide, hdenotes⟩, ?_⟩
  intro text hanswer
  have hwanted : (written "local.d").reference? = some (.ofLocal "d".toList) := by decide +kernel
  have hcircle : chained.IsAlias "d".toList "d".toList := ⟨by decide, by decide +kernel⟩
  obtain ⟨count, -, hcount⟩ := (alias_answer_eq_some_iff (by decide) hworks
    (by decide) hasAliases_chained hfresh hrequests .enhanced (by decide) hwanted rfl (by decide)
    text).mp hanswer
  exact Workspace.not_denotes_of_circle (.single hcircle) count text hcount

/-- Where the codec of the encoding gives up over a file at the root, even a local value that
is a text itself is not found. -/
theorem unmarked_answer_eq_none :
    unmarked.disk.codec?.isSome = true ∧ unmarked.HasAliases ∧
    unmarked.Denotes 0 "x".toList "\"v\"".toList ∧
    (resolveIn unmarked .plain (written "local.x") here .fresh).1 = none := by
  have htexts : unmarked.localTexts = ["\"v\"".toList] := by decide +kernel
  refine ⟨by decide +kernel, fun text htext => ?_, .text (by decide +kernel) (by decide +kernel),
    by decide +kernel⟩
  rw [htexts] at htext
  rw [List.mem_singleton.mp htext]
  exact .inr ⟨by decide, by decide +kernel⟩

end TerraformTrace
