import TerraformTrace.Proofs.Confinement

/-!
# TerraformTrace.Proofs.Indistinct

Two disks that an engine cannot tell apart, although it does not do the same on both. Which
files are read, and which of them cannot be, goes into the record of a session and nowhere
else. **What counts is what the files of a directory come to**: if on both disks the same
places are directories, and every directory assigns, declares and calls the same, then every
sequence of requests has the same answers (`replies_eq_of_comesTo`).

**Memory.** The walk over the engine is from sessions that remember the same to sessions that
remember the same. How often the cache was asked is not part of that: no run can see it. Runs
that only look at the disk have nothing to remember, so for these it is enough that they come to
the same (`Indistinct.of_observes`).
-/

namespace TerraformTrace

open Hcl

variable {α β : Type}

/-! ### Caches without their counters -/

namespace Cache

variable {τ : Type}

/-- A cache that was never asked. -/
def uncounted (cache : Cache τ α) : Cache τ α := { cache with hits := 0, misses := 0 }

/-- What is done with a cache does not depend on its counters. -/
def IgnoresCounters (act : Cache τ α → β × Cache τ α) : Prop :=
  ∀ cache, (act cache.uncounted).1 = (act cache).1 ∧
    (act cache.uncounted).2.uncounted = (act cache).2.uncounted

theorem IgnoresCounters.eq {act : Cache τ α → β × Cache τ α} (h : IgnoresCounters act)
    {cache other : Cache τ α} (hsame : cache.uncounted = other.uncounted) :
    (act cache).1 = (act other).1 ∧ (act cache).2.uncounted = (act other).2.uncounted := by
  rw [← (h cache).1, ← (h cache).2, ← (h other).1, ← (h other).2, hsame]
  exact ⟨rfl, rfl⟩

section Expiry

variable [Sub τ] [LT τ] [DecidableLT τ]

theorem ignoresCounters_get (key : Text) :
    IgnoresCounters fun cache : Cache τ α => cache.get key := by
  intro cache
  have hentries : cache.uncounted.entries = cache.entries := rfl
  have hexpired (entry : CacheEntry τ α) :
      cache.uncounted.isExpired entry = cache.isExpired entry := rfl
  simp only [get, hentries, hexpired]
  cases cache.entries.lookup key with
  | none => exact ⟨rfl, rfl⟩
  | some entry =>
    dsimp only
    split
    · exact ⟨rfl, rfl⟩
    · exact ⟨rfl, rfl⟩

theorem ignoresCounters_tick : IgnoresCounters fun cache : Cache τ α => ((), cache.tick) := by
  intro cache
  have hsweeping : cache.uncounted.sweeping = cache.sweeping := rfl
  refine ⟨rfl, ?_⟩
  simp only [tick, hsweeping]
  split
  · rfl
  · rfl

end Expiry

theorem ignoresCounters_set (key : Text) (value : α) :
    IgnoresCounters fun cache : Cache τ α => ((), cache.set key value) := by
  intro cache
  refine ⟨rfl, ?_⟩
  by_cases hfull : (!cache.contains key && cache.capacity ≤ cache.size) = true
  · have hsame : (!cache.uncounted.contains key &&
        cache.uncounted.capacity ≤ cache.uncounted.size) = true := hfull
    simp only [set, if_pos hfull, if_pos hsame]
    rfl
  · have hsame : ¬(!cache.uncounted.contains key &&
        cache.uncounted.capacity ≤ cache.uncounted.size) = true := hfull
    simp only [set, if_neg hfull, if_neg hsame]
    rfl

theorem ignoresCounters_invalidate (fragment : Text) :
    IgnoresCounters fun cache : Cache τ α => cache.invalidate fragment := by
  intro cache
  unfold invalidate
  split
  · exact ⟨rfl, rfl⟩
  · exact ⟨rfl, rfl⟩

end Cache

/-- Sessions with the same cache, its counters aside, and the same table of module directories.
What happened in them may differ. -/
structure Session.RemembersAs (s t : Session) : Prop where
  cache : s.cache.uncounted = t.cache.uncounted
  modulePaths : s.modulePaths = t.modulePaths

theorem Session.RemembersAs.refl (s : Session) : s.RemembersAs s := ⟨rfl, rfl⟩

/-! ### Runs side by side -/

/-- From sessions that remember the same, two runs come to the same and lead to sessions that
remember the same. -/
def Indistinct (x y : Run α) : Prop :=
  ∀ s t, s.RemembersAs t → outcome x s = outcome y t ∧ (after x s).RemembersAs (after y t)

namespace Indistinct

theorem pure (value : α) : Indistinct (pure value) (pure value) := fun _ _ h => ⟨rfl, h⟩

theorem throw (abort : Abort) : Indistinct (throw abort : Run α) (throw abort) :=
  fun _ _ h => ⟨rfl, h⟩

variable {x y : Run α}

theorem bind_of_ok {f g : α → Run β} (hx : Indistinct x y)
    (hf : ∀ s value, outcome x s = .ok value → Indistinct (f value) (g value)) :
    Indistinct (x >>= f) (y >>= g) := by
  intro s t h
  obtain ⟨hout, hafter⟩ := hx s t h
  rw [outcome_bind, outcome_bind, ← hout]
  cases hresult : outcome x s with
  | error abort =>
    rw [after_bind_of_error hresult, after_bind_of_error (hout ▸ hresult)]
    exact ⟨rfl, hafter⟩
  | ok value =>
    rw [after_bind_of_ok hresult, after_bind_of_ok (hout ▸ hresult)]
    exact hf s value hresult _ _ hafter

theorem bind {f g : α → Run β} (hx : Indistinct x y)
    (hf : ∀ value, Indistinct (f value) (g value)) : Indistinct (x >>= f) (y >>= g) :=
  bind_of_ok hx fun _ value _ => hf value

theorem sequential : Sequential fun x y P => Valued Indistinct x y P :=
  Valued.sequential pure throw bind_of_ok

theorem ite {c : Prop} [Decidable c] {x y x' y' : Run α} (hthen : Indistinct x y)
    (helse : Indistinct x' y') : Indistinct (if c then x else x') (if c then y else y') := by
  split
  · exact hthen
  · exact helse

theorem note {event : Event} : Indistinct (note event) (note event) :=
  fun _ _ h => ⟨rfl, ⟨h.cache, h.modulePaths⟩⟩

theorem note_bind {event : Event} (h : Indistinct x y) :
    Indistinct (TerraformTrace.note event >>= fun _ => x)
      (TerraformTrace.note event >>= fun _ => y) :=
  bind note fun _ => h

/-- Runs that go on from the session as it is. -/
theorem get_bind {f g : Session → Run α}
    (h : ∀ s t : Session, s.RemembersAs t → Indistinct (f s) (g t)) :
    Indistinct (get >>= f) (get >>= g) := fun s t hst => h s t hst s t hst

/-- Runs that only look are told apart by what they come to alone. -/
theorem of_observes {result : Except Abort α} (hx : Observes x result)
    (hy : Observes y result) : Indistinct x y := by
  intro s t h
  obtain ⟨hout, added, hafter, -⟩ := hx s
  obtain ⟨hout', added', hafter', -⟩ := hy t
  rw [hout, hout', hafter, hafter']
  exact ⟨rfl, ⟨h.cache, h.modulePaths⟩⟩

/-! ### Memory -/

theorem lookUp (key : Text) : Indistinct (lookUp key) (lookUp key) := by
  intro s t h
  obtain ⟨hvalue, hcache⟩ := (Cache.ignoresCounters_get key).eq h.cache
  rw [outcome_lookUp, outcome_lookUp, hvalue]
  exact ⟨rfl, ⟨hcache, h.modulePaths⟩⟩

theorem remember (key : Text) (value : Remembered) :
    Indistinct (remember key value) (remember key value) := by
  refine note_bind fun s t h => ⟨rfl, ⟨?_, h.modulePaths⟩⟩
  exact ((Cache.ignoresCounters_set key value).eq h.cache).2

theorem usablePath (path : Path) : Indistinct (usablePath path) (usablePath path) := by
  unfold TerraformTrace.usablePath
  cases path.usable with
  | ok path => exact pure path
  | error error => exact throw _

end Indistinct

/-! ### Two disks -/

namespace Direct

/-- The first value that the files of a directory with one of the suffixes have. -/
def firstIn (ws : Workspace) (suffixes : List Text)
    (extract : Path → Text → Except Abort (Option Text)) (dir : Path) :
    Except Abort (Option Text) := do
  let files ← files ws dir suffixes
  firstValue ws extract files

end Direct

/-- On the other disk the same places are directories, and every directory assigns, declares
and calls the same. -/
structure Workspace.ComesTo (ws : Workspace) (disk : Disk) : Prop where
  isDirectory : ∀ path, Direct.isDirectory ws path = Direct.isDirectory (ws.withDisk disk) path
  assigned : ∀ name dir,
    Direct.firstIn ws ws.settings.overrideSuffixes (Direct.overrideIn name) dir =
    Direct.firstIn (ws.withDisk disk) ws.settings.overrideSuffixes (Direct.overrideIn name) dir
  declared : ∀ (extract : Text → Option Text) (dir : Path),
    Direct.firstIn ws ws.settings.configurationSuffixes (fun _ text => .ok (extract text)) dir =
    Direct.firstIn (ws.withDisk disk) ws.settings.configurationSuffixes
      (fun _ text => .ok (extract text)) dir
  calls : ∀ dir,
    Direct.moduleCalls ws dir =
      Direct.moduleCalls (ws.withDisk disk) dir

namespace Indistinct

/-! ### Look-ups -/

theorem rememberedLookup {compute compute' : Run (Option Text)}
    (hcompute : Indistinct compute compute') (kind : ResultKind) (name : Text) (dir : Path) :
    Indistinct (rememberedLookup kind name dir compute)
      (rememberedLookup kind name dir compute') := by
  unfold TerraformTrace.rememberedLookup
  refine bind (lookUp _) fun found => ?_
  cases found with
  | some known => exact pure _
  | none => exact bind hcompute fun value => bind (remember _ _) fun _ => pure _

section Lookups

variable {ws : Workspace} {disk : Disk} (h : ws.ComesTo disk)

include h

theorem checkDirectory (path : Path) :
    Indistinct (checkDirectory ws path)
      (checkDirectory (ws.withDisk disk) path) := by
  have hother := Observes.checkDirectory (ws.withDisk disk) path
  rw [← h.isDirectory] at hother
  exact of_observes (Observes.checkDirectory ws path) hother

theorem lookupOverride (name : Text) (dir : Path) : Indistinct (lookupOverride ws name dir)
      (lookupOverride (ws.withDisk disk) name dir) := by
  refine rememberedLookup ?_ .overrides name dir
  have hother := Observes.valueIn (ws.withDisk disk)
    (Observes.overrideIn name) dir ws.settings.overrideSuffixes
  have hassigned := h.assigned name dir
  unfold Direct.firstIn at hassigned
  rw [← hassigned] at hother
  exact of_observes (Observes.valueIn ws (Observes.overrideIn name) dir _) hother

theorem lookupDeclared (kind : ResultKind) (name : Text) (dir : Path)
    (extract : Text → Option Text) :
    Indistinct (lookupDeclared ws kind name dir extract)
      (lookupDeclared (ws.withDisk disk) kind name dir extract) := by
  refine rememberedLookup ?_ kind name dir
  have hextract : ∀ (path : Path) (text : Text),
      Observes (Pure.pure (extract text) : Run (Option Text)) (.ok (extract text)) :=
    fun _ text => Observes.pure (extract text)
  have hother := Observes.valueIn (ws.withDisk disk) hextract dir ws.settings.configurationSuffixes
  have hdeclared := h.declared extract dir
  unfold Direct.firstIn at hdeclared
  rw [← hdeclared] at hother
  exact of_observes (Observes.valueIn ws hextract dir _) hother

theorem lookupData (ref : Reference) (dir : Path) : Indistinct (lookupData ws ref dir)
      (lookupData (ws.withDisk disk) ref dir) := by
  unfold TerraformTrace.lookupData
  cases ref.dataAddress? with
  | none => exact pure none
  | some address => exact lookupDeclared h _ _ _ _

theorem moduleCallsOf (dir : Path) :
    Indistinct (moduleCallsOf ws dir) (moduleCallsOf (ws.withDisk disk) dir) := by
  have hother := Observes.moduleCalls (ws.withDisk disk) dir
  rw [← h.calls] at hother
  have hcalls := of_observes (Observes.moduleCalls ws dir) hother
  unfold TerraformTrace.moduleCallsOf
  refine bind (lookUp _) fun found => ?_
  cases found with
  | some known =>
    dsimp only
    cases known.asCalls? with
    | some calls => exact pure calls
    | none => exact throw _
  | none =>
    simp only [← bind_assoc]
    exact bind hcalls fun calls => bind (remember _ _) fun _ => pure _

theorem modulePath (source : Text) (dir : Path) : Indistinct (modulePath ws source dir)
      (modulePath (ws.withDisk disk) source dir) := by
  unfold TerraformTrace.modulePath
  simp only [Workspace.withDisk_normalize, Workspace.withDisk_settings,
    Workspace.withDisk_contains, sourcePath_withDisk]
  refine bind (usablePath dir) fun usable => get_bind fun s t hst => ?_
  rw [hst.modulePaths]
  cases t.modulePaths.lookup (unquote source, (ws.normalize usable).toText) with
  | some place => exact pure _
  | none =>
    refine ite (pure none) (bind (usablePath _) fun path => ite (pure none) ?_)
    refine bind (checkDirectory h _) fun isDirectory => ite (pure none) ?_
    refine bind (fun s t hst => ⟨rfl, ⟨hst.cache, ?_⟩⟩) fun _ => pure _
    exact congrArg (_ :: ·) hst.modulePaths

/-- No look-up can tell the disks apart, wherever it is made. -/
theorem ofLookups : OfLookups (fun x y P => Valued Indistinct x y P) ws disk fun _ => True where
  toSequential := sequential
  parent _ _ := trivial
  isDirectory _ := .of (checkDirectory h _) fun _ => trivial
  override name _ _ := .of (lookupOverride h name _) fun _ => trivial
  localValue name _ _ := .of (lookupDeclared h _ name _ _) fun _ => trivial
  output name _ _ := .of (lookupDeclared h _ name _ _) fun _ => trivial
  default name _ _ := .of (lookupDeclared h _ name _ _) fun _ => trivial
  data ref _ _ := .of (lookupData h ref _) fun _ => trivial
  calls _ := .of (moduleCallsOf h _) fun _ _ _ => trivial
  place source _ _ := .of (modulePath h source _) fun _ _ _ => trivial

/-- A search cannot tell the disks apart if the frames below it cannot. -/
theorem searchSymbol {nested nested' : Context → Run Resolution}
    (hnested : ∀ ctx, Indistinct (nested ctx) (nested' ctx)) (mode : SearchMode)
    (ctx : Context) :
    Indistinct (searchSymbol ws mode nested ctx)
      (searchSymbol (ws.withDisk disk) mode nested' ctx) :=
  ((ofLookups h).searchSymbol trivial (fun _ _ => ⟨trivial, trivial⟩)
    (fun _ _ _ _ _ => .of (hnested _) fun _ => trivial)
    (fun _ _ _ _ => .of note fun _ => trivial) mode).1

end Lookups

/-! ### Frames -/

theorem frame {compute compute' : Run Resolution} (hcompute : Indistinct compute compute')
    (mode : SearchMode) (ctx : Context) :
    Indistinct (frame mode ctx compute) (frame mode ctx compute') := by
  have hremembered : Indistinct (remembered mode ctx compute) (remembered mode ctx compute') := by
    unfold remembered
    refine bind (lookUp _) fun found => ?_
    cases found with
    | some known => exact pure _
    | none =>
      exact bind hcompute fun result => ite (bind (remember _ _) fun _ => pure _) (pure _)
  unfold TerraformTrace.frame
  exact note_bind (ite (note_bind (note_bind (pure _)))
    (bind hremembered fun result => note_bind (pure _)))

/-- Frames cannot tell the disks apart, whatever the number of levels left. -/
theorem resolveFrame {ws : Workspace} {disk : Disk} (h : ws.ComesTo disk)
    (mode : SearchMode) (left : Nat) (ctx : Context) :
    Indistinct (resolveFrame ws mode left ctx) (resolveFrame (ws.withDisk disk) mode left ctx) := by
  induction left generalizing ctx with
  | zero => exact note_bind (note_bind (pure _))
  | succ left ih =>
    unfold TerraformTrace.resolveFrame
    refine ite (frame (searchSymbol h ih mode ctx) mode ctx) ?_
    -- the frame of the symbol stands inside that of the whole reference
    refine frame (bind (frame (searchSymbol h ih mode _) mode _) fun base => ?_) mode ctx
    exact bind (sequential.project _ _).1 fun _ => pure _

end Indistinct

/-! ### Requests -/

/-- From sessions that remember the same, two requests have the same answer and lead to
sessions that remember the same. -/
def IndistinctQuery (x y : Query α) : Prop :=
  ∀ s t, s.RemembersAs t → (x s).1 = (y t).1 ∧ (x s).2.RemembersAs (y t).2

namespace IndistinctQuery

theorem pure (value : α) : IndistinctQuery (pure value) (pure value) := fun _ _ h => ⟨rfl, h⟩

theorem bind {x y : Query α} {f g : α → Query β} (hx : IndistinctQuery x y)
    (hf : ∀ value, IndistinctQuery (f value) (g value)) : IndistinctQuery (x >>= f) (y >>= g) := by
  intro s t h
  obtain ⟨hanswer, hafter⟩ := hx s t h
  rw [query_bind, query_bind, ← hanswer]
  exact hf _ _ _ hafter

theorem map {x y : Query α} (f : α → β) (hx : IndistinctQuery x y) :
    IndistinctQuery (f <$> x) (f <$> y) :=
  bind hx fun value => pure (f value)

theorem answered {x y : Run (Option α)} (h : Indistinct x y) (onFailure : Text) :
    IndistinctQuery (answered onFailure x) (answered onFailure y) := by
  intro s t hst
  obtain ⟨hout, hafter⟩ := h s t hst
  rw [answered_apply, answered_apply, ← hout]
  cases outcome x s with
  | ok value => exact ⟨rfl, hafter⟩
  | error abort => exact ⟨rfl, ⟨hafter.cache, hafter.modulePaths⟩⟩

/-- What is done with the cache alone. -/
theorem of_cache (act : Cache Binary64 Remembered → α × Cache Binary64 Remembered)
    (hact : Cache.IgnoresCounters act) :
    IndistinctQuery (fun s => ((act s.cache).1, { s with cache := (act s.cache).2 }))
      (fun s => ((act s.cache).1, { s with cache := (act s.cache).2 })) := by
  intro s t h
  obtain ⟨hanswer, hcache⟩ := hact.eq h.cache
  exact ⟨hanswer, ⟨hcache, h.modulePaths⟩⟩

theorem clear : IndistinctQuery clear clear := by
  intro s t h
  refine ⟨rfl, ⟨?_, rfl⟩⟩
  show s.cache.uncounted.clear = t.cache.uncounted.clear
  rw [h.cache]

section Requests

variable {ws : Workspace} {disk : Disk} (h : ws.ComesTo disk)

include h

theorem resolveIn (mode : SearchMode) (wanted : Wanted) (start : Path) :
    IndistinctQuery (resolveIn ws mode wanted start)
      (resolveIn (ws.withDisk disk) mode wanted start) := by
  have hsought : Indistinct (sought ws mode wanted start)
      (sought (ws.withDisk disk) mode wanted start) := by
    unfold sought
    cases wanted.reference? with
    | none => exact Indistinct.pure none
    | some ref =>
      refine Indistinct.bind (Indistinct.usablePath start) fun usable => ?_
      simp only [Workspace.withDisk_normalize, Workspace.withDisk_contains]
      refine Indistinct.ite (Indistinct.pure none) ?_
      refine Indistinct.bind (Indistinct.checkDirectory h _) fun isDirectory => ?_
      refine Indistinct.ite (Indistinct.pure none) ?_
      exact Indistinct.bind (Indistinct.resolveFrame h mode _ _) fun _ => Indistinct.pure _
  rw [resolveIn_eq, resolveIn_eq]
  exact answered hsought _

theorem resolveEach (wanted : Wanted) (directories : List Path) :
    IndistinctQuery (resolveEach ws wanted directories)
      (resolveEach (ws.withDisk disk) wanted directories) := by
  induction directories with
  | nil => exact pure []
  | cons dir directories ih =>
    refine bind (resolveIn h .enhanced wanted dir) fun value => bind ih fun more => ?_
    cases value.bind present? with
    | none => exact pure more
    | some value => exact pure _

/-- Requests cannot tell the disks apart. -/
theorem respond (request : Request) :
    IndistinctQuery (respond ws request)
      (respond (ws.withDisk disk) request) := by
  cases request with
  | value mode wanted start => exact map _ (resolveIn h mode wanted start)
  | property wanted property start =>
    refine map _ (bind (resolveIn h .enhanced wanted start) fun found => ?_)
    cases found with
    | none => exact pure none
    | some base => exact answered (Indistinct.sequential.project [property] _).1 _
  | contexts wanted directories =>
    refine map _ ?_
    rcases resolveInContexts_cases ws wanted directories with ⟨error, hout⟩ | hout
    · rw [hout ws rfl, hout (ws.withDisk disk) rfl]
      exact pure _
    · rw [hout ws rfl, hout (ws.withDisk disk) rfl]
      exact map _ (resolveEach h wanted _)
  | modulePath source start =>
    refine map _ fun s t hst => ?_
    rw [resolveModulePath_apply, resolveModulePath_apply]
    exact Indistinct.modulePath h source start s t hst
  | changed file =>
    have hinvalidate : ∀ fragment, IndistinctQuery (invalidate fragment) (invalidate fragment) :=
      fun fragment => of_cache _ (Cache.ignoresCounters_invalidate fragment)
    show IndistinctQuery (Reply.removed <$> notify ws file) (Reply.removed <$> notify ws file)
    refine map _ ?_
    unfold notify
    split
    · exact pure _
    refine map _ (bind (hinvalidate _) fun ofFile => bind (hinvalidate _) fun ofDirectory => ?_)
    exact bind (hinvalidate _) fun plain => bind (hinvalidate _) fun enhanced => pure _
  | clear => exact map _ clear
  | start =>
    exact of_cache (fun cache => (Reply.done, { cache with sweeping := true }))
      fun _ => ⟨rfl, rfl⟩
  | dispose =>
    have hstop := of_cache (fun cache => ((), cache.stopSweeper)) fun _ => ⟨rfl, rfl⟩
    exact map _ (bind hstop fun _ => clear)
  | wait time =>
    exact of_cache (fun cache => (Reply.done, cache.advance time)) fun _ => ⟨rfl, rfl⟩
  | sweep =>
    exact of_cache (fun cache => (Reply.removed (.ok cache.sweep.1), cache.sweep.2))
      fun _ => ⟨rfl, rfl⟩
  | tick =>
    exact of_cache (fun cache => (Reply.done, cache.tick)) fun cache =>
      ⟨rfl, (Cache.ignoresCounters_tick cache).2⟩

end Requests

end IndistinctQuery

/-- Disks on which the files of every directory come to the same cannot be told apart by any
sequence of requests to engines that remember the same. -/
theorem replies_eq_of_comesTo {ws : Workspace} {disk : Disk} (h : ws.ComesTo disk)
    (requests : List Request) {s t : Session} (hst : s.RemembersAs t) :
    replies ws requests s = replies (ws.withDisk disk) requests t := by
  induction requests generalizing s t with
  | nil => rfl
  | cons request requests ih =>
    obtain ⟨hanswer, hafter⟩ := IndistinctQuery.respond h request s t hst
    rw [replies, replies, hanswer, perform, perform, ih hafter]

end TerraformTrace
