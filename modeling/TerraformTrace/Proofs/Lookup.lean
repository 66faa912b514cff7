import TerraformTrace.Proofs.Frame
import TerraformTrace.Proofs.Observation

/-!
# TerraformTrace.Proofs.Lookup

Look-ups and what is remembered of them. A look-up is made once and remembered, and read again
the next time; the directories of modules are kept in a table. So what a look-up comes to depends
on the session.

**Look-ups answer.** They ask only that what is remembered of a look-up is what looking it up
anew comes to, and that the table is right (`Recalls`). Under every invariant with these
properties a look-up gives the direct value, whether it finds an entry or makes one, and keeps
the invariant (`Answers`). Entries may be missing, expire or be displaced at any time.

`Recollects` is the least that is asked of a session, with a parameter for the results of frames.
-/

namespace TerraformTrace

open Hcl

variable {name : Text} {value : Option Text} {dir : Path} {known : Remembered} {lookup : Lookup}

/-! ### Entries of a cache -/

namespace Cache

variable {τ α : Type}

/-- Every entry has this property, whether or not it is expired. -/
def Holds (cache : Cache τ α) (P : Text → α → Prop) : Prop :=
  ∀ key entry, (key, entry) ∈ cache.entries → P key entry.value

variable {cache : Cache τ α} {P : Text → α → Prop}

theorem Holds.of_subset {other : Cache τ α} (h : cache.Holds P)
    (hsubset : other.entries ⊆ cache.entries) : other.Holds P :=
  fun key entry hmem => h key entry (hsubset hmem)

theorem Holds.set {key : Text} {value : α} (h : cache.Holds P) (hvalue : P key value) :
    (cache.set key value).Holds P := by
  intro other entry hmem
  unfold Cache.set at hmem
  dsimp only at hmem
  rcases List.mem_append.mp hmem with hold | hnew
  · have hroom := (List.mem_filter.mp hold).1
    split at hroom
    · exact h other entry (List.mem_of_mem_tail hroom)
    · exact h other entry hroom
  · obtain ⟨rfl, rfl⟩ := Prod.mk.inj (List.mem_singleton.mp hnew)
    exact hvalue

section Expiry

variable [Sub τ] [LT τ] [DecidableLT τ]

/-- What a cache gives for a key is the value of an entry of that key. -/
theorem Holds.of_get {key : Text} {value : α} (h : cache.Holds P)
    (hget : (cache.get key).1 = some value) : P key value := by
  unfold Cache.get at hget
  split at hget
  · cases hget
  next entry hlookup =>
    split at hget
    · cases hget
    · cases hget
      obtain ⟨before, after, hentries, -⟩ := List.lookup_eq_some_iff.mp hlookup
      exact h key entry (by simp [hentries])

theorem Holds.get {key : Text} (h : cache.Holds P) : (cache.get key).2.Holds P := by
  unfold Cache.get
  split
  · exact h
  next entry hlookup =>
    split
    · exact h.of_subset fun _ hmem => (List.mem_filter.mp hmem).1
    · intro other found hmem
      rcases List.mem_append.mp hmem with hold | hused
      · exact h other found (List.mem_filter.mp hold).1
      · obtain ⟨rfl, rfl⟩ := Prod.mk.inj (List.mem_singleton.mp hused)
        obtain ⟨before, after, hentries, -⟩ := List.lookup_eq_some_iff.mp hlookup
        exact h other entry (by simp [hentries])

end Expiry

end Cache

/-! ### Values as they are remembered -/

/-- Remembered and read again, a value that is not the empty text is itself. -/
theorem present?_getD (h : value ≠ some []) : present? (value.getD []) = value := by
  cases value with
  | none => rfl
  | some text =>
    have htext : text ≠ [] := fun hnil => h (by rw [hnil])
    simp [present?, htext]

theorem bind_present?_ne (value : Option Text) : value.bind present? ≠ some [] := by
  cases value with
  | none => simp
  | some text =>
    unfold present?
    simp only [Option.bind_some]
    split
    · simp
    · rename_i hempty
      simpa using hempty

theorem getD_bind_present? (value : Option Text) :
    (value.bind present?).getD [] = value.getD [] := by
  cases value with
  | none => rfl
  | some text =>
    simp only [Option.bind_some, present?, Option.getD_some]
    split
    · rename_i hempty
      exact (List.isEmpty_iff.mp hempty).symm
    · rfl

section Direct

variable {ws : Workspace} {suffixes : List Text} {direct : Path → Text → Except Abort (Option Text)}

/-- A value that was looked up is not the empty text. -/
theorem Direct.valueIn_ne
    (h : Direct.valueIn ws suffixes direct dir = .ok value) : value ≠ some [] := by
  unfold Direct.valueIn at h
  cases hfiles : Direct.files ws dir suffixes with
  | error abort => simp [hfiles, bind, Except.bind] at h
  | ok files =>
    cases hfirst : Direct.firstValue ws direct files with
    | error abort => simp [hfiles, hfirst, bind, Except.bind] at h
    | ok found =>
      simp only [hfiles, hfirst, bind, Except.bind, pure, Except.pure] at h
      cases h
      exact bind_present?_ne found

theorem Direct.valueIn_eq :
    Direct.valueIn ws suffixes direct dir =
      (do
        let files ← Direct.files ws dir suffixes
        Direct.firstValue ws direct files) >>= fun value => .ok (value.bind present?) := by
  unfold Direct.valueIn
  rw [bind_assoc]
  rfl

end Direct

/-- The attributes of data sources are told apart by the texts of their references. -/
theorem Reference.dataAddress?_base (ref : Reference) :
    ref.base.dataAddress? = ref.dataAddress? := by
  obtain ⟨kind, segments, enough⟩ := ref
  cases kind with
  | dataAttribute =>
    match segments, enough with
    | type :: name :: field :: rest, _ => rfl
  | _ => rfl

/-! ### Look-ups -/

/-- What can be looked up in a directory. -/
inductive Lookup
  /-- What files of variables assign to a name. -/
  | override (name : Text)
  | localValue (name : Text)
  | output (name : Text)
  /-- The default of a variable. -/
  | default (name : Text)
  /-- The argument of a data source that a reference names. -/
  | data (ref : Reference)
  /-- The module calls of the directory. -/
  | calls
deriving DecidableEq, Repr

namespace Lookup

/-- The kind under which a look-up is remembered. -/
def kind : Lookup → ResultKind
  | .override _ => .overrides
  | .localValue _ => .locals
  | .output _ => .outputs
  | .default _ => .variables
  | .data _ => .data
  | .calls => .modules

/-- What is looked up, as it stands in a key. -/
def label : Lookup → List Text
  | .override name => [name]
  | .localValue name => [name]
  | .output name => [name]
  | .default name => [name]
  | .data ref => [ref.base.text]
  | .calls => []

/-- What a look-up in a directory is remembered under. -/
def key (lookup : Lookup) (dir : Path) : Text :=
  cacheKey lookup.kind.word (lookup.label ++ [dir.toText])

/-- A value in the form in which it is remembered. -/
def ofValue (value : Option Text) : Remembered := .text (value.getD [])

/-- What a look-up in a directory comes to when it is made anew. -/
def recompute (ws : Workspace) (dir : Path) : Lookup → Except Abort Remembered
  | .override name => ofValue <$> Direct.override ws name dir
  | .localValue name => ofValue <$> Direct.localValue ws name dir
  | .output name => ofValue <$> Direct.output ws name dir
  | .default name => ofValue <$> Direct.default ws name dir
  | .data ref => ofValue <$> Direct.dataArgument ws ref dir
  | .calls => .calls <$> Direct.moduleCalls ws dir

theorem kind_isLookup (lookup : Lookup) : lookup.kind.IsLookup := by
  cases lookup <;> exact ⟨nofun, nofun⟩

/-- The key of a look-up is not that of a frame. -/
theorem key_ne_frame (lookup : Lookup) (dir : Path) (mode : SearchMode)
    (parts : List Text) : lookup.key dir ≠ cacheKey mode.kind.word parts :=
  lookup.kind_isLookup.cacheKey_ne _ mode parts

/-- A key tells what kind of look-up it is for, what is looked up and where. -/
theorem key_inj {other : Lookup} {dir place : Path} (hdir : dir.IsNormal)
    (hplace : place.IsNormal) (h : lookup.key dir = other.key place) :
    lookup.kind = other.kind ∧ lookup.label = other.label ∧ dir = place := by
  obtain ⟨hword, hparts⟩ := cacheKey_inj h
  obtain ⟨hlabel, htext⟩ := List.append_inj' hparts rfl
  exact ⟨ResultKind.word_inj hword, hlabel,
    hdir.toText_inj hplace (List.cons.inj htext).1⟩

/-- Apart from data sources, the kind of a look-up and what is looked up tell the look-up. -/
theorem eq_of_kind {other : Lookup} (hdata : lookup.kind ≠ .data)
    (hkind : lookup.kind = other.kind) (hlabel : lookup.label = other.label) : lookup = other := by
  cases lookup <;> cases other <;> simp_all [kind, label]

/-- A look-up that its key tells from all others. -/
def IsWellFormed : Lookup → Prop
  | .data ref => ref.IsWellFormed
  | _ => True

theorem recompute_eq {other : Lookup} (h : lookup.IsWellFormed) (h' : other.IsWellFormed)
    (hkind : lookup.kind = other.kind) (hlabel : lookup.label = other.label)
    (ws : Workspace) (dir : Path) :
    lookup.recompute ws dir = other.recompute ws dir := by
  by_cases hdata : lookup.kind = .data
  · cases lookup with
    | data ref =>
      cases other with
      | data ref' =>
        have hbase := Reference.IsWellFormed.text_inj h.base h'.base (List.cons.inj hlabel).1
        have haddress : ref.dataAddress? = ref'.dataAddress? := by
          rw [← Reference.dataAddress?_base, hbase, Reference.dataAddress?_base]
        rw [recompute, recompute, Direct.dataArgument, haddress]
        rfl
      | _ => cases hkind
    | _ => cases hdata
  · rw [eq_of_kind hdata hkind hlabel]

theorem map_eq_ok {ε α β : Type} {f : α → β} {x : Except ε α} {result : β}
    (h : f <$> x = .ok result) : ∃ value, x = .ok value ∧ f value = result := by
  cases x with
  | error error => cases h
  | ok value => exact ⟨value, rfl, Except.ok.inj h⟩

end Lookup

/-! ### Runs that answer -/

/-- In a session with an invariant the run comes to this, and keeps the invariant. -/
structure Answers {α : Type} (I : Session → Prop) (run : Run α) (result : Except Abort α) :
    Prop where
  outcome : ∀ s, I s → outcome run s = result
  keeps : ∀ s, I s → I (after run s)

namespace Answers

variable {α β : Type} {I : Session → Prop}

theorem pure (value : α) : Answers I (pure value) (.ok value) :=
  ⟨fun _ _ => rfl, fun _ h => h⟩

theorem throw (abort : Abort) : Answers I (throw abort : Run α) (.error abort) :=
  ⟨fun _ _ => rfl, fun _ h => h⟩

theorem bind {x : Run α} {f : α → Run β} {result : Except Abort α}
    {next : α → Except Abort β} (hx : Answers I x result)
    (hf : ∀ value, result = .ok value → Answers I (f value) (next value)) :
    Answers I (x >>= f) (result >>= next) where
  outcome s hs := by
    have hout := hx.outcome s hs
    rw [outcome_bind, hout]
    cases result with
    | error abort => rfl
    | ok value => exact (hf value rfl).outcome _ (hx.keeps s hs)
  keeps s hs := by
    have hout := hx.outcome s hs
    cases result with
    | error abort =>
      rw [after_bind_of_error hout]
      exact hx.keeps s hs
    | ok value =>
      rw [after_bind_of_ok hout]
      exact (hf value rfl).keeps _ (hx.keeps s hs)

theorem ok_bind {x : Run α} {value : α} {f : α → Run β} {result : Except Abort β}
    (hx : Answers I x (.ok value)) (hf : Answers I (f value) result) :
    Answers I (x >>= f) result := by
  have h : Answers I (x >>= f) (Except.ok value >>= fun _ => result) :=
    bind hx fun found hfound => by
      cases hfound
      exact hf
  exact h

/-- A sequence whose first part is given up. -/
theorem error_bind {x : Run α} {abort : Abort} (f : α → Run β)
    (hx : Answers I x (.error abort)) : Answers I (x >>= f) (.error abort) where
  outcome s hs := by
    rw [outcome_bind, hx.outcome s hs]
    rfl
  keeps s hs := by
    rw [after_bind_of_error (hx.outcome s hs)]
    exact hx.keeps s hs

/-- A run that starts from the session as it is. -/
theorem get_bind {f : Session → Run α} {result : Except Abort α}
    (h : ∀ s, I s → TerraformTrace.outcome (f s) s = result ∧ I (after (f s) s)) :
    Answers I (get >>= f) result :=
  ⟨fun s hs => (h s hs).1, fun s hs => (h s hs).2⟩

theorem usablePath (path : Path) : Answers I (usablePath path) (Direct.usable path) := by
  unfold TerraformTrace.usablePath Direct.usable
  cases path.usable with
  | ok path => exact pure path
  | error error => exact throw _

theorem filterM {keep : α → Run Bool} {direct : α → Except Abort Bool} {items : List α}
    (hkeep : ∀ item ∈ items, Answers I (keep item) (direct item)) :
    Answers I (items.filterM keep) (items.filterM direct) := by
  have hloop : ∀ (rest kept : List α), (∀ item ∈ rest, item ∈ items) →
      Answers I (rest.filterAuxM keep kept) (rest.filterAuxM direct kept) := by
    intro rest
    induction rest with
    | nil => exact fun kept _ => pure _
    | cons item rest ih =>
      intro kept hrest
      rw [List.filterAuxM, List.filterAuxM]
      exact bind (hkeep item (hrest item List.mem_cons_self)) fun _ _ =>
        ih _ (List.forall_mem_cons.mp hrest).2
  exact bind (hloop items [] fun _ h => h) fun _ _ => pure _

theorem firstFound_cons {lookup : Run (Option Text)} {rest : List (Run (Option Text))}
    {direct : Except Abort (Option Text)} {directs : List (Except Abort (Option Text))}
    (hlookup : Answers I lookup direct)
    (hrest : Answers I (firstFound rest) (Direct.firstFound directs)) :
    Answers I (firstFound (lookup :: rest)) (Direct.firstFound (direct :: directs)) := by
  unfold TerraformTrace.firstFound Direct.firstFound
  refine bind hlookup fun value _ => ?_
  cases value with
  | some value => exact pure _
  | none => exact hrest

theorem project (properties : List Text) (value : Option Text) :
    Answers I (project value properties) (Direct.project value properties) := by
  induction properties generalizing value with
  | nil => cases value <;> exact pure _
  | cons property properties ih =>
    cases value with
    | none => exact pure none
    | some value =>
      unfold TerraformTrace.project Direct.project
      cases Literal.property? value property with
      | ok value => exact ih value
      | error error =>
        cases error with
        | tooManyDigits digits => exact throw _
        | _ => exact pure none

end Answers

/-! ### Sessions that recall look-ups -/

/-- An invariant under which look-ups and directories of modules are remembered as they are, and
which may remember them. -/
class Recalls (ws : outParam Workspace) (I : Session → Prop) : Prop where
  noted : ∀ {s : Session} {event : Event}, I s →
    (∀ mode ctx value, event ≠ .returned mode ctx value true) →
    I { s with events := event :: s.events }
  lookedUp : ∀ {s : Session} (key : Text), I s → I { s with cache := (s.cache.get key).2 }
  recalled : ∀ {s : Session} {lookup : Lookup} {dir : Path} {known : Remembered}, I s →
    lookup.IsWellFormed → dir.IsNormal →
    (s.cache.get (lookup.key dir)).1 = some known →
    lookup.recompute ws dir = .ok known
  remembered : ∀ {s : Session} {lookup : Lookup} {dir : Path} {value : Remembered}, I s →
    lookup.IsWellFormed → dir.IsNormal → lookup.recompute ws dir = .ok value →
    I { s with cache := s.cache.set (lookup.key dir) value }
  found : ∀ {s : Session} {source : Text} {dir place : Path}, I s → dir.IsNormal →
    s.modulePaths.lookup (source, dir.toText) = some place →
    Direct.modulePlace ws source dir = .ok (some place)
  entered : ∀ {s : Session} {source : Text} {dir place : Path}, I s → dir.IsNormal →
    Direct.modulePlace ws source dir = .ok (some place) →
    I { s with modulePaths := ((source, dir.toText), place) :: s.modulePaths }

namespace Answers

variable {α β : Type} {ws : Workspace} {I : Session → Prop} [Recalls ws I]

include ws in
/-- What is only looked at is what it comes to without memory. -/
theorem of_observes {x : Run α} {result : Except Abort α} (h : Observes x result) :
    Answers I x result where
  outcome s _ := (h s).1
  keeps s hs := by
    obtain ⟨-, added, hafter, hadded⟩ := h s
    rw [hafter]
    clear hafter
    induction added with
    | nil => exact hs
    | cons event added ih =>
      obtain ⟨hevent, hrest⟩ := List.forall_mem_cons.mp hadded
      exact Recalls.noted (ih hrest) (by rintro _ _ _ rfl; exact hevent)

include ws in
/-- Something is done for the record only. -/
theorem note_bind {event : Event}
    (h : ∀ mode ctx value, event ≠ .returned mode ctx value true) {run : Run α}
    {result : Except Abort α} (hrun : Answers I run result) :
    Answers I (note event >>= fun _ => run) result := by
  have hnote : Answers I (note event) (.ok ()) :=
    ⟨fun _ _ => rfl, fun _ hs => Recalls.noted hs h⟩
  exact ok_bind hnote hrun

theorem checkDirectory (path : Path) :
    Answers I (checkDirectory ws path) (.ok (Direct.isDirectory ws path)) :=
  of_observes (Observes.checkDirectory ws path)

section Remembered

variable (lookup : Lookup) (hlookup : lookup.IsWellFormed) (hdir : dir.IsNormal)

include hlookup hdir

/-- What is remembered of a look-up is read, or else made. -/
theorem lookUp_bind {hit : Remembered → Run α} {miss : Run α} {result : Except Abort α}
    (hhit : ∀ known, lookup.recompute ws dir = .ok known → Answers I (hit known) result)
    (hmiss : Answers I miss result) :
    Answers I (do
      match ← lookUp (lookup.key dir) with
      | some known => hit known
      | none => miss) result := by
  constructor
  · intro s hs
    have hlookedUp := Recalls.lookedUp (lookup.key dir) hs
    rw [outcome_bind, outcome_lookUp]
    cases hget : (s.cache.get (lookup.key dir)).1 with
    | none => exact hmiss.outcome _ hlookedUp
    | some known =>
      exact (hhit known (Recalls.recalled hs hlookup hdir hget)).outcome _ hlookedUp
  · intro s hs
    have hlookedUp := Recalls.lookedUp (lookup.key dir) hs
    rw [after_bind_of_ok (outcome_lookUp _ s)]
    cases hget : (s.cache.get (lookup.key dir)).1 with
    | none => exact hmiss.keeps _ hlookedUp
    | some known =>
      exact (hhit known (Recalls.recalled hs hlookup hdir hget)).keeps _ hlookedUp

theorem remember_bind {value : Remembered}
    (hvalue : lookup.recompute ws dir = .ok value) {run : Run α}
    {result : Except Abort α} (hrun : Answers I run result) :
    Answers I (remember (lookup.key dir) value >>= fun _ => run) result := by
  have hremember : Answers I (remember (lookup.key dir) value) (.ok ()) :=
    ⟨fun _ _ => rfl, fun _ hs => Recalls.remembered (Recalls.noted hs nofun) hlookup hdir hvalue⟩
  exact ok_bind hremember hrun

/-- A look-up in files is made once and remembered, or read again. -/
theorem valueIn (hlabel : lookup.label = [name]) {suffixes : List Text}
    {extract : Path → Text → Run (Option Text)}
    {direct : Path → Text → Except Abort (Option Text)}
    (hextract : ∀ path text, Observes (extract path text) (direct path text))
    (hrecompute : lookup.recompute ws dir =
      Lookup.ofValue <$> Direct.valueIn ws suffixes direct dir) :
    Answers I
      (rememberedLookup lookup.kind name dir do
        let files ← filesIn ws dir suffixes
        firstValue ws extract files)
      (Direct.valueIn ws suffixes direct dir) := by
  have hkey : cacheKey lookup.kind.word [name, dir.toText] = lookup.key dir := by
    rw [Lookup.key, hlabel]
    rfl
  unfold rememberedLookup
  rw [hkey]
  refine lookUp_bind lookup hlookup hdir (fun known hknown => ?_) ?_
  · obtain ⟨value, hvalue, rfl⟩ := Lookup.map_eq_ok (hrecompute.symm.trans hknown)
    have hpresent : present? (Lookup.ofValue value).asText = value :=
      present?_getD (Direct.valueIn_ne hvalue)
    rw [hvalue, hpresent]
    exact pure value
  · rw [Direct.valueIn_eq]
    refine bind (of_observes (Observes.valueIn ws hextract dir suffixes))
      fun value hvalue => remember_bind lookup hlookup hdir ?_ (pure _)
    rw [hrecompute, Direct.valueIn_eq, hvalue]
    exact congrArg (fun text => Except.ok (Remembered.text text)) (getD_bind_present? value)

end Remembered

section Directory

variable (hdir : dir.IsNormal) (name : Text)

include hdir

theorem lookupOverride : Answers I (lookupOverride ws name dir) (Direct.override ws name dir) :=
  valueIn (.override name) trivial hdir rfl (Observes.overrideIn name) rfl

theorem lookupLocal :
    Answers I (lookupLocal ws name dir)
      (Direct.localValue ws name dir) :=
  valueIn (.localValue name) trivial hdir rfl (fun _ _ => Observes.pure _) rfl

theorem lookupOutput : Answers I (lookupOutput ws name dir) (Direct.output ws name dir) :=
  valueIn (.output name) trivial hdir rfl (fun _ _ => Observes.pure _) rfl

theorem lookupDefault : Answers I (lookupDefault ws name dir) (Direct.default ws name dir) :=
  valueIn (.default name) trivial hdir rfl (fun _ _ => Observes.pure _) rfl

theorem lookupData {ref : Reference} (href : ref.IsWellFormed) :
    Answers I (lookupData ws ref dir) (Direct.dataArgument ws ref dir) := by
  have hdata : Lookup.recompute ws dir (.data ref) =
    Lookup.ofValue <$> Direct.dataArgument ws ref dir := rfl
  unfold TerraformTrace.lookupData
  unfold Direct.dataArgument at hdata ⊢
  cases haddress : ref.dataAddress? with
  | none => exact pure none
  | some address =>
    obtain ⟨type, name, field⟩ := address
    rw [haddress] at hdata
    exact valueIn (.data ref) href hdir rfl (fun _ _ => Observes.pure _) hdata

/-- The look-ups that come first in the search for an input. -/
theorem firstFound_input :
    Answers I
      (firstFound [TerraformTrace.lookupOverride ws name dir,
        TerraformTrace.lookupLocal ws name dir,
        TerraformTrace.lookupOutput ws name dir])
      (Direct.firstFound [Direct.override ws name dir,
        Direct.localValue ws name dir, Direct.output ws name dir]) :=
  firstFound_cons (lookupOverride hdir name) <| firstFound_cons (lookupLocal hdir name) <|
      firstFound_cons (lookupOutput hdir name) (pure none)

/-! ### Modules -/

theorem moduleCallsOf : Answers I (moduleCallsOf ws dir) (Direct.moduleCalls ws dir) := by
  refine lookUp_bind .calls trivial hdir (fun known hknown => ?_) ?_
  · obtain ⟨calls, hcalls, rfl⟩ := Lookup.map_eq_ok hknown
    rw [hcalls]
    exact pure calls
  · have hcalls : Answers I _ _ := of_observes (Observes.moduleCalls ws dir)
    have hstored := bind hcalls fun calls hvalue =>
      remember_bind .calls trivial hdir (by rw [Lookup.recompute, hvalue]; rfl) (pure calls)
    rw [bind_assoc] at hstored
    cases hdirect : Direct.moduleCalls ws dir with
    | error abort => rwa [hdirect] at hstored
    | ok calls => rwa [hdirect] at hstored

/-- A directory that is asked for is entered in the table if it is one. -/
theorem modulePlace (source : Text) :
    Answers I (do
      if isRemote ws.settings source then return none
      let place := (← TerraformTrace.usablePath (sourcePath ws source dir)).normalize
      if !ws.contains place then return none
      if !(← TerraformTrace.checkDirectory ws place) then return none
      modify fun session => { session with
        modulePaths := ((source, dir.toText), place) :: session.modulePaths }
      return some place)
      (Direct.modulePlace ws source dir) := by
  generalize hplace : Direct.modulePlace ws source dir = found
  have hdirect := hplace
  unfold Direct.modulePlace at hdirect
  rw [← hdirect]
  split
  · exact pure none
  next hremote =>
    refine bind (usablePath _) fun path hpath => ?_
    dsimp only
    split
    · exact pure none
    next hcontains =>
      refine ok_bind (checkDirectory path.normalize) ?_
      split
      · exact pure none
      next hisDirectory =>
        -- what is entered is what was asked for
        have hentry : Direct.modulePlace ws source dir = .ok (some path.normalize) := by
          rw [hplace, ← hdirect, if_neg hremote, hpath]
          simp only [Bind.bind, Except.bind]
          rw [if_neg hcontains, if_neg hisDirectory]
          rfl
        exact ⟨fun s _ => rfl, fun s hs => Recalls.entered hs hdir hentry⟩

end Directory

/-- A directory is found in the table, or else asked for. -/
theorem modulePath (hroot : ws.root.IsNormal) (source : Text) (hdir : dir.IsTidy) :
    Answers I (modulePath ws source dir) (Direct.modulePath ws source dir) := by
  unfold TerraformTrace.modulePath Direct.modulePath
  refine bind (usablePath dir) fun usable husable => ?_
  have hnormal : (ws.normalize usable).IsNormal := by
    rw [Direct.eq_of_usable husable]
    exact Workspace.isNormal_normalize hroot hdir
  have hmiss : Answers I _ (Direct.modulePlace ws (unquote source)
    (ws.normalize usable)) := modulePlace hnormal (unquote source)
  refine get_bind fun s hs => ?_
  split
  next place hlookup => exact ⟨(Recalls.found hs hnormal hlookup).symm, hs⟩
  next => exact ⟨hmiss.outcome s hs, hmiss.keeps s hs⟩

theorem callsInto (hroot : ws.root.IsNormal) (hdir : dir.IsNormal) :
    Answers I (callsInto ws dir) (Direct.callsInto ws dir) := by
  unfold TerraformTrace.callsInto Direct.callsInto
  dsimp only
  split
  · exact pure []
  · refine bind (moduleCallsOf hdir.parent) fun calls _ => filterM fun call _ => ?_
    exact bind (modulePath hroot call.source hdir.parent.2.1) fun _ _ => pure _

theorem callSites (hroot : ws.root.IsNormal) (hdir : ctx.directory.IsNormal) :
    Answers I (callSites ws ctx) (Direct.callSites ws ctx.directory ctx.stack) := by
  have haround : Answers I (do
      return (← TerraformTrace.callsInto ws ctx.directory).map fun call => (call, ctx.stack))
      (do
      return (← Direct.callsInto ws ctx.directory).map fun call => (call, ctx.stack)) :=
    bind (callsInto hroot hdir) fun _ _ => pure _
  unfold TerraformTrace.callSites Direct.callSites Context.currentModule?
  cases ctx.stack.getLast? with
  | none => exact haround
  | some frame =>
    dsimp only
    split
    · exact pure _
    · exact haround

end Answers

/-! ### Sessions that recollect -/

/-- What is remembered under a key is what a look-up with this key comes to. -/
def IsKnown (ws : Workspace) (key : Text) (value : Remembered) : Prop :=
  ∃ lookup dir, Lookup.IsWellFormed lookup ∧ Path.IsNormal dir ∧
    key = lookup.key dir ∧ lookup.recompute ws dir = .ok value

/-- A session that remembers look-ups and directories of modules as they are, and of frames
only results of this sort. -/
structure Recollects (ws : Workspace)
    (Allowed : SearchMode → List Text → Remembered → Prop) (s : Session) : Prop where
  cache : s.cache.Holds fun key value => IsKnown ws key value ∨
    ∃ mode parts, key = cacheKey mode.kind.word parts ∧ Allowed mode parts value
  table : ∀ source text place, ((source, text), place) ∈ s.modulePaths →
    ∃ dir : Path, dir.IsNormal ∧ text = dir.toText ∧
      Direct.modulePlace ws source dir = .ok (some place)

namespace Recollects

variable {ws : Workspace} {Allowed Later : SearchMode → List Text → Remembered → Prop}
  {s : Session} {mode : SearchMode} {source : Text} {place : Path}

/-- What is remembered under the key of a frame is of the sort. -/
theorem allowed_of_key {parts : List Text}
    (hknown : IsKnown ws (cacheKey mode.kind.word parts) known ∨
      ∃ mode' parts', cacheKey mode.kind.word parts = cacheKey mode'.kind.word parts' ∧
        Allowed mode' parts' known) : Allowed mode parts known := by
  rcases hknown with ⟨lookup, dir, -, -, hkey, -⟩ | ⟨mode', parts', hkey, hallowed⟩
  · exact absurd hkey.symm (lookup.key_ne_frame dir mode _)
  · obtain ⟨hword, rfl⟩ := cacheKey_inj hkey
    obtain rfl := SearchMode.kind_inj (ResultKind.word_inj hword)
    exact hallowed

theorem of_empty (hcache : s.cache.entries = []) (hpaths : s.modulePaths = []) :
    Recollects ws Allowed s where
  cache key entry hmem := by simp [hcache] at hmem
  table source text place hmem := by simp [hpaths] at hmem

section Session

variable (h : Recollects ws Allowed s)

include h

/-- Entries may be dropped at any time, and nothing else in a cache matters. -/
theorem of_subset {cache : Cache Binary64 Remembered}
    (hsubset : cache.entries ⊆ s.cache.entries) : Recollects ws Allowed { s with cache } :=
  ⟨h.cache.of_subset hsubset, h.table⟩

theorem of_events (events : List Event) :
    Recollects ws Allowed { s with events } := ⟨h.cache, h.table⟩

theorem lookUp (key : Text) : Recollects ws Allowed { s with cache := (s.cache.get key).2 } :=
  ⟨h.cache.get, h.table⟩

theorem remember {key : Text} {value : Remembered}
    (hvalue : IsKnown ws key value ∨
      ∃ mode parts, key = cacheKey mode.kind.word parts ∧ Allowed mode parts value) :
    Recollects ws Allowed { s with cache := s.cache.set key value } :=
  ⟨h.cache.set hvalue, h.table⟩

/-- What is remembered of a look-up is what it comes to. -/
theorem recalled (hlookup : lookup.IsWellFormed) (hdir : dir.IsNormal)
    (hget : (s.cache.get (lookup.key dir)).1 = some known) :
    lookup.recompute ws dir = .ok known := by
  rcases h.cache.of_get hget with ⟨other, place, hother, hplace, hkey, hvalue⟩ |
    ⟨mode, parts, hkey, -⟩
  · obtain ⟨hkind, hlabel, rfl⟩ := Lookup.key_inj hdir hplace hkey
    rwa [Lookup.recompute_eq hlookup hother hkind hlabel]
  · exact absurd hkey (lookup.key_ne_frame dir mode parts)

/-- What is remembered of a frame is of the sort. -/
theorem allowed {ctx : Context} (hget : (s.cache.get (frameKey mode ctx)).1 = some known) :
    Allowed mode ctx.keyParts known := allowed_of_key (h.cache.of_get hget)

theorem widen (hlater : ∀ mode parts value, Allowed mode parts value → Later mode parts value) :
    Recollects ws Later s where
  cache key entry hmem := (h.cache key entry hmem).imp_right
    fun ⟨mode, parts, hkey, hallowed⟩ => ⟨mode, parts, hkey, hlater _ _ _ hallowed⟩
  table := h.table

/-- What the table has for a source is the directory of the module. -/
theorem found (hdir : dir.IsNormal)
    (hlookup : s.modulePaths.lookup (source, dir.toText) = some place) :
    Direct.modulePlace ws source dir = .ok (some place) := by
  obtain ⟨before, after, hentries, -⟩ := List.lookup_eq_some_iff.mp hlookup
  obtain ⟨other, hother, htext, hplace⟩ := h.table source dir.toText place (by simp [hentries])
  rwa [hdir.toText_inj hother htext]

theorem enter (hdir : dir.IsNormal) (hplace : Direct.modulePlace ws source dir = .ok (some place)) :
    Recollects ws Allowed
      { s with modulePaths := ((source, dir.toText), place) :: s.modulePaths } where
  cache := h.cache
  table other text found hmem := by
    rcases List.mem_cons.mp hmem with heq | hmem
    · cases heq
      exact ⟨dir, hdir, rfl, hplace⟩
    · exact h.table other text found hmem

end Session

instance : Recalls ws (Recollects ws Allowed) where
  noted h _ := h.of_events _
  lookedUp key h := h.lookUp key
  recalled h := h.recalled
  remembered h hlookup hdir hvalue := h.remember (.inl ⟨_, _, hlookup, hdir, rfl, hvalue⟩)
  found h := h.found
  entered h := h.enter

end Recollects

end TerraformTrace
