import TerraformTrace.Proofs.Invalidation

/-!
# TerraformTrace.Proofs.Notification

What is dropped when an engine is told of a changed file, and how much of it. Four fragments are
looked for in the keys (`changeFragments`), and the entries with one of them are dropped and
counted, each of them once (`fileChanged_eq`).

A key is JSON, and the fragment of a directory is its path as it is. **Every look-up of the
directory is reached if its path stands in what is written for it** (`fileChanged_reaches`). This
is so for paths without quotes, backslashes and control characters, and also if backslashes stand
at the very end, since they are only doubled. In other paths an escape parts the text, and the
look-ups of the directory outlive the change (`fileChanged_misses`).
-/

namespace TerraformTrace

/-! ### Paths in keys -/

namespace Text

/-- A plain text, or one with nothing but backslashes behind it. -/
def IsSpelledOut (text : Text) : Prop :=
  ∃ plain count, IsPlain plain ∧ text = plain ++ List.replicate count '\\'

/-- Such a text stands in what is written for it. -/
theorem IsSpelledOut.exists_writeRawString {text : Text} (h : text.IsSpelledOut) :
    ∃ after, Json.writeRawString text = '"' :: (text ++ after) := by
  obtain ⟨plain, count, hplain, rfl⟩ := h
  have hbody : plain.flatMap Json.writeRawChar = plain := by
    simpa [Json.writeRawString] using hplain.writeRawString_eq
  have hdoubled : (List.replicate count '\\').flatMap Json.writeRawChar =
      List.replicate (count + count) '\\' := by
    induction count with
    | zero => rfl
    | succ count ih =>
      rw [List.replicate_succ, List.flatMap_cons, ih,
        show count + 1 + (count + 1) = count + count + 1 + 1 by omega]
      rfl
  refine ⟨List.replicate count '\\' ++ ['"'], ?_⟩
  rw [Json.writeRawString, List.flatMap_append, hbody, hdoubled, ← List.replicate_append_replicate]
  simp only [List.append_assoc, List.cons_append]

end Text

/-- A look-up has the path of its directory in its key, if the path is spelled out there. -/
theorem Lookup.occursIn_key_of_isSpelledOut {dir : Path} (h : dir.toText.IsSpelledOut)
    (lookup : Lookup) : Text.occursIn dir.toText (lookup.key dir) = true := by
  obtain ⟨rest, hwritten⟩ := h.exists_writeRawString
  exact lookup.occursIn_key_of_written hwritten

/-! ### What is dropped -/

/-- What is looked for in keys when a file has changed. -/
def changeFragments (file : Path) : List Text :=
  [file.toText, file.parent.toText, kindFragment ResultKind.resolve.word,
    kindFragment ResultKind.enhanced.word]

/-- The entries that have nothing to do with a change. -/
def untouched (file : Path) (entries : List (Text × CacheEntry Binary64 Remembered)) :
    List (Text × CacheEntry Binary64 Remembered) :=
  entries.filter fun entry => (changeFragments file).all fun fragment =>
    !Text.occursIn fragment entry.1

/-- The entries without a fragment in their keys. -/
def withoutFragment {α : Type} (fragment : Text) (entries : List (Text × α)) : List (Text × α) :=
  entries.filter fun entry => !Text.occursIn fragment entry.1

theorem Cache.invalidate_eq {τ α : Type} (cache : Cache τ α) {fragment : Text} (h : fragment ≠ []) :
    cache.invalidate fragment =
      (cache.entries.length - (withoutFragment fragment cache.entries).length,
        { cache with entries := withoutFragment fragment cache.entries }) := by
  rw [invalidate, if_neg (by simpa using h)]
  rfl

theorem untouched_eq (file : Path) (entries : List (Text × CacheEntry Binary64 Remembered)) :
    untouched file entries =
      withoutFragment (kindFragment ResultKind.enhanced.word)
        (withoutFragment (kindFragment ResultKind.resolve.word)
          (withoutFragment file.parent.toText (withoutFragment file.toText entries))) := by
  simp only [untouched, withoutFragment, changeFragments, List.filter_filter, List.all_cons,
    List.all_nil, Bool.and_true]
  congr 1
  funext entry
  ac_rfl

/-- Nothing of the session changes but the entries, and those that are gone are counted. -/
theorem fileChanged_eq (ws : Workspace) {file : Path} (h : file.IsNormal) (s : Session) :
    fileChanged ws file s = (s.cache.entries.length - (untouched file s.cache.entries).length,
        { s with cache := { s.cache with entries := untouched file s.cache.entries } }) := by
  have hresolve : kindFragment ResultKind.resolve.word ≠ [] := by decide
  have henhanced : kindFragment ResultKind.enhanced.word ≠ [] := by decide
  have hshorter : ∀ fragment (entries : List (Text × CacheEntry Binary64 Remembered)),
      (withoutFragment fragment entries).length ≤ entries.length :=
    fun _ _ => List.length_filter_le ..
  rw [untouched_eq]
  have hpure (dropped : Nat) (s : Session) :
      (pure dropped : StateT Session Id Nat) s = (dropped, s) := rfl
  simp only [fileChanged, ws.normalize_eq h, invalidate, bind, StateT.bind, hpure,
    Cache.invalidate_eq _ (Path.toText_ne_nil _), Cache.invalidate_eq _ hresolve,
    Cache.invalidate_eq _ henhanced]
  -- each entry is counted by the first fragment in its key
  generalize hfile : withoutFragment file.toText s.cache.entries = ofFile
  generalize hdir : withoutFragment file.parent.toText ofFile = ofDirectory
  generalize hplain : withoutFragment (kindFragment ResultKind.resolve.word) ofDirectory = plain
  have h1 := hshorter file.toText s.cache.entries
  have h2 := hshorter file.parent.toText ofFile
  have h3 := hshorter (kindFragment ResultKind.resolve.word) ofDirectory
  have h4 := hshorter (kindFragment ResultKind.enhanced.word) plain
  rw [hfile] at h1
  rw [hdir] at h2
  rw [hplain] at h3
  refine congrArg (·, _) ?_
  omega

/-! ### What is left -/

/-- **A change of a file reaches every look-up of its directory and every result of a frame.**
The entries that are left are those without any fragment of the change in their keys; none of them
is a look-up of the directory or the result of a frame, and the number that is answered is the
number of the others. -/
theorem fileChanged_reaches (ws : Workspace) {file : Path} (hfile : file.IsNormal)
    (hdir : file.parent.toText.IsSpelledOut) (s : Session) :
    fileChanged ws file s = (s.cache.entries.length - (untouched file s.cache.entries).length,
        { s with cache := { s.cache with entries := untouched file s.cache.entries } }) ∧
    ∀ entry ∈ untouched file s.cache.entries,
      (∀ lookup : Lookup, entry.1 ≠ lookup.key file.parent) ∧
      ∀ (mode : SearchMode) (parts : List Text), entry.1 ≠ cacheKey mode.kind.word parts := by
  refine ⟨fileChanged_eq ws hfile s, fun entry hmem => ?_⟩
  have hfree := (List.mem_filter.mp hmem).2
  simp only [changeFragments, List.all_cons, List.all_nil, Bool.and_true, Bool.and_eq_true,
    Bool.not_eq_true'] at hfree
  obtain ⟨-, hparent, hresolve, henhanced⟩ := hfree
  refine ⟨fun lookup hkey => ?_, fun mode parts hkey => ?_⟩
  · rw [hkey, lookup.occursIn_key_of_isSpelledOut hdir] at hparent
    cases hparent
  · rw [hkey] at hresolve henhanced
    have hkind := occursIn_cacheKey mode.kind.word parts
    cases mode with
    | plain => exact Bool.false_ne_true (hresolve.symm.trans hkind)
    | enhanced => exact Bool.false_ne_true (henhanced.symm.trans hkind)

/-- A session that remembers the module calls of a directory. -/
def Session.ofCalls (dir : Path) : Session :=
  { Session.fresh with cache := { Session.fresh.cache with entries :=
    [(Lookup.calls.key dir, ⟨.calls [], .zero, 1, .zero⟩)] } }

/-- The file `main.tf` of a directory in the root. -/
def mainFile (dir : String) : Path := ⟨.root, [dir.toList, "main.tf".toList]⟩

/-- What comes of a change of the file, if the calls of its directory are remembered. -/
def afterChange (dir : String) : Nat × Session :=
  fileChanged (.ofFiles {} []) (mainFile dir) (.ofCalls (mainFile dir).parent)

/-- A backslash at the end of the path does no harm. -/
theorem fileChanged_reaches_backslash :
    (mainFile "a\\").IsNormal ∧ (mainFile "a\\").parent.toText.IsSpelledOut ∧
      (afterChange "a\\").1 = 1 ∧ (afterChange "a\\").2.cache.entries = [] := by
  have hnormal : (mainFile "a\\").IsNormal := by decide
  have hspelled : (mainFile "a\\").parent.toText.IsSpelledOut :=
    ⟨"/a".toList, 1, by decide, by decide⟩
  have huntouched : untouched (mainFile "a\\")
      (Session.ofCalls (mainFile "a\\").parent).cache.entries = [] := by decide +kernel
  obtain ⟨hchanged, -⟩ := fileChanged_reaches (.ofFiles {} []) hnormal hspelled
    (.ofCalls (mainFile "a\\").parent)
  rw [huntouched] at hchanged
  rw [afterChange, hchanged]
  exact ⟨hnormal, hspelled, rfl, rfl⟩

/-- The calls of the directory are remembered after the change, and nothing is counted. -/
def IsMissed (dir : String) : Prop := (mainFile dir).IsNormal ∧ (afterChange dir).1 = 0 ∧
    (afterChange dir).2.cache.entries.map (·.1) = [Lookup.calls.key (mainFile dir).parent]

/-- A quote, a backslash or a line break inside the path keeps the look-ups of the directory. -/
theorem fileChanged_misses : IsMissed "a\"b" ∧ IsMissed "a\\b" ∧ IsMissed "a\nb" := by
  unfold IsMissed
  decide +kernel

end TerraformTrace
