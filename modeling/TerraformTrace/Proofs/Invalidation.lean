import TerraformTrace.Proofs.FileChange

/-!
# TerraformTrace.Proofs.Invalidation

Telling an engine of a changed file is enough to keep its cache up to date. What is dropped
are the entries whose keys have the text of the file's directory in them, and all results
of frames. A directory whose path has no quote, backslash or control character in it is
written into a key as it is, so none of its look-ups is left, and a look-up in another
directory comes to the same as before the change (`Lookup.recompute_write`).

**Every reached state is up to date** (`upToDate_of_reached`), however requests and changes
of files follow one another. The table of module directories is not part of this: a module
that was moved is found where it was until the engine is cleared.
-/

namespace TerraformTrace

open Hcl

/-! ### Fragments of keys -/

namespace Text

theorem occursIn_of_append (before fragment after : Text) :
    occursIn fragment (before ++ (fragment ++ after)) = true := by
  induction before with
  | nil =>
    cases h : fragment ++ after with
    | nil => simp [occursIn, (List.append_eq_nil_iff.mp h).1]
    | cons c rest =>
      have hbegins : fragment.isPrefixOf (c :: rest) = true := by
        rw [List.isPrefixOf_iff_prefix, ← h]
        exact List.prefix_append _ _
      simp [occursIn, hbegins]
  | cons c before ih => simp [occursIn, ih]

/-- Every piece of a joined text stands in it. -/
theorem exists_join_eq (separator : Text) {piece : Text} {pieces : List Text} (h : piece ∈ pieces) :
    ∃ before after, join separator pieces = before ++ (piece ++ after) := by
  induction pieces with
  | nil => exact absurd h List.not_mem_nil
  | cons first pieces ih =>
    rw [join_cons]
    rcases List.mem_cons.mp h with rfl | hmem
    · exact ⟨[], _, rfl⟩
    · cases pieces with
      | nil => exact absurd hmem List.not_mem_nil
      | cons next pieces =>
        obtain ⟨before, after, hjoin⟩ := ih hmem
        refine ⟨first ++ separator ++ before, after, ?_⟩
        rw [joinRest, hjoin]
        simp

/-- A text without quotes, backslashes and control characters. -/
def IsPlain (text : Text) : Prop := ∀ c ∈ text, c ≠ '"' ∧ c ≠ '\\' ∧ 0x20 ≤ c.toNat

instance (text : Text) : Decidable text.IsPlain := List.decidableBAll _ _

/-- Such a text is written into a key as it is. -/
theorem IsPlain.writeRawString_eq {text : Text} (h : text.IsPlain) :
    Json.writeRawString text = '"' :: (text ++ ['"']) := by
  have hchar : ∀ c ∈ text, Json.writeRawChar c = [c] := by
    intro c hc
    obtain ⟨hquote, hback, hprintable⟩ := h c hc
    rw [Json.writeRawChar, Json.shortEscape?_eq_none hquote hback hprintable]
    exact if_neg (by omega)
  have hbody : text.flatMap Json.writeRawChar = text := by
    clear h
    induction text with
    | nil => rfl
    | cons c text ih =>
      rw [List.flatMap_cons, hchar c List.mem_cons_self,
        ih (List.forall_mem_cons.mp hchar).2]
      rfl
  rw [Json.writeRawString, hbody]
  rfl

end Text

/-- A look-up in a directory with a plain path has this path in its key. -/
theorem Lookup.occursIn_key_of_written {dir : Path} {rest : Text}
    (h : Json.writeRawString dir.toText = '"' :: (dir.toText ++ rest))
    (lookup : Lookup) : Text.occursIn dir.toText (lookup.key dir) = true := by
  have hpiece : Json.writeRawString dir.toText ∈
      (lookup.kind.word :: (lookup.label ++ [dir.toText])).map Json.writeRawString :=
    List.mem_map_of_mem (by simp)
  obtain ⟨before, after, hjoin⟩ := Text.exists_join_eq ", ".toList hpiece
  have hkey : lookup.key dir =
      ('[' :: (before ++ ['"'])) ++ (dir.toText ++ (rest ++ (after ++ [']']))) := by
    unfold Lookup.key cacheKey
    rw [hjoin, h]
    simp
  rw [hkey]
  exact Text.occursIn_of_append _ _ _

theorem Lookup.occursIn_key {dir : Path} (h : dir.toText.IsPlain) (lookup : Lookup) :
    Text.occursIn dir.toText (lookup.key dir) = true :=
  lookup.occursIn_key_of_written h.writeRawString_eq

theorem kindFragment_eq (kind : Text) : kindFragment kind = '[' :: Json.writeRawString kind := by
  unfold kindFragment cacheKey
  rw [List.dropLast_concat]
  rfl

/-- The fragment of a kind stands at the start of every key of the kind. -/
theorem occursIn_cacheKey (kind : Text) (parts : List Text) :
    Text.occursIn (kindFragment kind) (cacheKey kind parts) = true := by
  have hkey : cacheKey kind parts = [] ++ (kindFragment kind ++
      (Text.joinRest ", ".toList (parts.map Json.writeRawString) ++ [']'])) := by
    rw [kindFragment_eq, cacheKey, List.map_cons, Text.join_cons]
    simp
  rw [hkey]
  exact Text.occursIn_of_append _ _ _

/-! ### What is left after a change -/

theorem Cache.mem_of_mem_invalidate {τ α : Type} {cache : Cache τ α} {fragment key : Text}
    {entry : CacheEntry τ α} (h : (key, entry) ∈ (cache.invalidate fragment).2.entries)
    (hne : fragment ≠ []) : (key, entry) ∈ cache.entries ∧ Text.occursIn fragment key = false := by
  unfold Cache.invalidate at h
  rw [if_neg (by simpa using hne)] at h
  obtain ⟨hmem, hkept⟩ := List.mem_filter.mp h
  exact ⟨hmem, by simpa using hkept⟩

theorem Path.toText_ne_nil (path : Path) : path.toText ≠ [] := by
  obtain ⟨anchor, parts⟩ := path
  cases anchor with
  | relative =>
    show (if (Text.join ['/'] parts).isEmpty then ['.'] else Text.join ['/'] parts) ≠ []
    split
    · nofun
    next hbody => simpa using hbody
  | root => nofun
  | doubleRoot => nofun

/-- An entry that is left after a change was there before, and is neither one of the file's
directory nor the result of a frame. -/
theorem mem_of_mem_fileChanged {ws : Workspace} {file : Path} {s : Session} {key : Text}
    {entry : CacheEntry Binary64 Remembered}
    (h : (key, entry) ∈ (fileChanged ws file s).2.cache.entries) :
    (key, entry) ∈ s.cache.entries ∧
    Text.occursIn (ws.normalize file).parent.toText key = false ∧
    ∀ mode : SearchMode, Text.occursIn (kindFragment mode.kind.word) key = false := by
  have hcache : (fileChanged ws file s).2.cache =
      ((((s.cache.invalidate (ws.normalize file).toText).2.invalidate
        (ws.normalize file).parent.toText).2.invalidate
        (kindFragment ResultKind.resolve.word)).2.invalidate
        (kindFragment ResultKind.enhanced.word)).2 := rfl
  rw [hcache] at h
  obtain ⟨h, henhanced⟩ := Cache.mem_of_mem_invalidate h (by decide)
  obtain ⟨h, hplain⟩ := Cache.mem_of_mem_invalidate h (by decide)
  obtain ⟨h, hdir⟩ := Cache.mem_of_mem_invalidate h (Path.toText_ne_nil _)
  obtain ⟨h, -⟩ := Cache.mem_of_mem_invalidate h (Path.toText_ne_nil _)
  refine ⟨h, hdir, fun mode => ?_⟩
  cases mode with
  | plain => exact hplain
  | enhanced => exact henhanced

/-! ### Another tree under the same root -/

section WithTree

variable {ws : Workspace} {path : Path}

theorem Workspace.Inside.withTree (h : ws.Inside path) (tree : FileTree) :
    (ws.withTree tree).Inside path :=
  ⟨h.normal, h.below⟩

theorem Context.IsInside.withTree {ctx : Context} (h : ctx.IsInside ws)
    (tree : FileTree) : ctx.IsInside (ws.withTree tree) where
  directory := h.directory.withTree tree
  stack frame hframe :=
    ⟨(h.stack frame hframe).1.withTree tree, (h.stack frame hframe).2.withTree tree⟩

theorem Event.IsInside.withTree {event : Event} (h : event.IsInside ws) (tree : FileTree) :
    event.IsInside (ws.withTree tree) := by
  cases event with
  | entered ctx => exact Context.IsInside.withTree h tree
  | cycleCut ctx => exact Context.IsInside.withTree h tree
  | depthReached limit ctx => exact Context.IsInside.withTree h tree
  | returned mode ctx value stored => exact Context.IsInside.withTree h tree
  | threaded ctx call name value =>
    exact ⟨Context.IsInside.withTree h.1 tree, Workspace.Inside.withTree h.2 tree⟩
  | stored key => trivial
  | gaveUp request reason => trivial
  | _ => exact Workspace.Inside.withTree h tree

end WithTree

/-- Once an engine is told of a change, its cache is up to date with the new tree and has no
result of a frame in it. -/
theorem Coherent.fileChanged {ws : Workspace} {since : List Event}
    {Allowed : SearchMode → List Text → Remembered → Prop} {s : Session}
    (h : Coherent ws since Allowed s) {tree : FileTree} {file : Path}
    (hfile : (ws.normalize file).IsNormal)
    (hplain : (ws.normalize file).parent.toText.IsPlain)
    (hsame : ∀ dir : Path, dir.IsNormal →
      dir.parts ≠ (ws.normalize file).parts.dropLast → ∀ lookup : Lookup,
      lookup.recompute (ws.withTree tree) dir =
        lookup.recompute ws dir) :
    Coherent (ws.withTree tree) s.events Allowed (fileChanged ws file s).2 where
  grown := List.suffix_refl _
  cache key entry hmem := by
    obtain ⟨hold, hdir, hkinds⟩ := mem_of_mem_fileChanged hmem
    rcases h.cache key entry hold with
      ⟨lookup, dir, hinside, rfl, hvalue⟩ | ⟨mode, parts, rfl, -, -⟩
    · -- the look-up is not one of the file's directory, so the change does not touch it
      have hparts : dir.parts ≠ (ws.normalize file).parts.dropLast := by
        intro heq
        have hparent : dir = (ws.normalize file).parent := by
          obtain ⟨anchor, parts⟩ := dir
          rw [Path.parent, ← heq, hfile.1]
          exact congrArg (Path.mk · parts) hinside.normal.1
        rw [← hparent] at hdir hplain
        rw [lookup.occursIn_key hplain] at hdir
        cases hdir
      refine .inl ⟨lookup, dir, hinside.withTree tree, rfl, ?_⟩
      rw [hsame dir hinside.normal hparts lookup]
      exact hvalue
    · -- results of frames are dropped wherever they come from
      have hdropped := hkinds mode
      rw [occursIn_cacheKey] at hdropped
      cases hdropped
  table entry hmem := (h.table entry hmem).withTree tree
  events event hmem := (h.events event hmem).withTree tree

/-! ### Runs with changes of files -/

theorem Path.IsNormal.isFileName {path : Path} (h : path.IsNormal) :
    ∀ name ∈ path.parts, isFileName name = true := by
  intro name hname
  obtain ⟨hne, hslash, hdot⟩ := h.2.1 name hname
  have hdots : name ≠ ['.', '.'] := fun heq => h.2.2 (heq ▸ hname)
  simp [TerraformTrace.isFileName, hne, hslash, hdot, hdots]

end TerraformTrace
