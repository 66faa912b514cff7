import TerraformTrace.Proofs.Alike
import TerraformTrace.Proofs.Transparency
import TerraformTrace.Proofs.Tree

/-!
# TerraformTrace.Proofs.Confinement

An engine never looks outside the root of its workspace. What holds for look-ups on two
disks holds for searches, and is carried on to frames and to requests.
**Two trees that agree at or below the root cannot be told apart** by any sequence of
requests, whatever the references, directories and module sources in them, and the record
of the requests has nothing in it that lies outside (`replies_eq_of_agree`).
-/

namespace TerraformTrace

open Hcl

namespace Alike

variable {ws : Workspace} {disk : Disk} {since : List Event}
  {Allowed : SearchMode → List Text → Remembered → Prop}
  {nested nested' : Context → Run Resolution} {ctx : Context}

/-! ### Frames -/

section Search

variable (hagrees : ws.AgreesWith disk) (hnames : ws.disk.tree.HasFileNames)
  (hroot : ws.root.IsNormal) (hctx : ctx.IsInside ws)
  (hnested : ∀ ref dir stack, (ctx.child ref dir stack).IsInside ws →
    Alike (Coherent ws since Allowed) (nested (ctx.child ref dir stack))
      (nested' (ctx.child ref dir stack)) fun _ => True)

include hagrees hnames hroot hctx hnested

/-- A search is alike on both disks if the frames of the children are. -/
theorem searchSymbol (mode : SearchMode) :
    Alike (Coherent ws since Allowed) (searchSymbol ws mode nested ctx)
      (searchSymbol (ws.withDisk disk) mode nested' ctx) fun _ => True :=
  (ofLookups hagrees hnames hroot).searchSymbol hctx.directory hctx.stack
    (fun ref dir stack hdir hstack => hnested ref dir stack ⟨hdir, hstack⟩)
    (fun _ _ _ hcall => note ⟨hctx, hcall⟩) mode

end Search

theorem project (properties : List Text) (value : Option Text) :
    Alike (Coherent ws since Allowed) (project value properties)
      (project value properties) fun _ => True :=
  (sequential _).project properties value

/-- A frame is alike on both disks if its computation is; its result must be one that may
be remembered. -/
theorem frame {mode : SearchMode} {compute compute' : Run Resolution} {P : Option Text → Prop}
    (hctx : ctx.IsInside ws)
    (hcut : ctx.isCycle = true → P none)
    (hhit : ∀ known, Allowed mode ctx.keyParts known → P (present? known.asText))
    (hstore : ∀ value, P value → Allowed mode ctx.keyParts (.text (value.getD [])))
    (hcompute : Alike (Coherent ws since Allowed) compute compute' fun result => P result.value) :
    Alike (Coherent ws since Allowed) (frame mode ctx compute)
      (frame mode ctx compute') fun result => P result.value := by
  have hremembered : Alike (Coherent ws since Allowed) (remembered mode ctx compute)
      (remembered mode ctx compute') fun result => P result.value := by
    unfold remembered
    refine bind (lookUp _) fun found hfound => ?_
    cases found with
    | some known =>
      obtain ⟨events, hremains⟩ := hfound known rfl
      exact pure (hhit known hremains.allowed.1)
    | none =>
      refine bind hcompute fun result hresult => ?_
      refine ite (fun _ => ?_) fun _ => pure hresult
      refine bind (remember (.inr ⟨mode, ctx.keyParts, rfl, hstore _ hresult⟩)) fun _ _ => ?_
      exact pure hresult
  unfold TerraformTrace.frame
  refine note_bind (by exact hctx) (ite (fun hcycle => ?_) fun _ => ?_)
  · exact note_bind (by exact hctx) (note_bind (by exact hctx) (pure (hcut hcycle)))
  · exact bind hremembered fun result hresult => note_bind (by exact hctx) (pure hresult)

section Frames

variable (hagrees : ws.AgreesWith disk) (hnames : ws.disk.tree.HasFileNames)
  (hroot : ws.root.IsNormal)

include hagrees hnames hroot

/-- Frames are alike on both disks if any of their results may be remembered. -/
theorem resolveFrame (hallowed : ∀ mode parts value, Allowed mode parts value) (mode : SearchMode)
    (left : Nat) (hctx : ctx.IsInside ws) :
    Alike (Coherent ws since Allowed) (resolveFrame ws mode left ctx)
      (resolveFrame (ws.withDisk disk) mode left ctx) fun _ => True := by
  induction left generalizing ctx with
  | zero =>
    exact note_bind (by exact hctx) (note_bind (by exact hctx) (pure trivial))
  | succ left ih =>
    have hframe : ∀ (symbol : Context) {compute compute' : Run Resolution}, symbol.IsInside ws →
        Alike (Coherent ws since Allowed) compute compute' (fun _ => True) →
        Alike (Coherent ws since Allowed) (TerraformTrace.frame mode symbol compute)
          (TerraformTrace.frame mode symbol compute') fun _ => True :=
      fun symbol _ _ hsymbol hcompute => frame (P := fun _ => True) hsymbol (fun _ => trivial)
        (fun _ _ => trivial) (fun _ _ => hallowed ..) hcompute
    have hsearch : ∀ symbol : Context, symbol.IsInside ws → Alike (Coherent ws since Allowed)
          (TerraformTrace.searchSymbol ws mode (TerraformTrace.resolveFrame ws mode left) symbol)
          (TerraformTrace.searchSymbol (ws.withDisk disk) mode
            (TerraformTrace.resolveFrame (ws.withDisk disk) mode left) symbol)
          fun _ => True :=
      fun symbol hsymbol => searchSymbol hagrees hnames hroot hsymbol
        (fun _ _ _ hchild => ih hchild) mode
    unfold TerraformTrace.resolveFrame
    refine ite (fun _ => hframe ctx hctx (hsearch ctx hctx)) fun _ => ?_
    -- the frame of the symbol stands inside that of the whole reference
    have hsymbol : (ctx.withReference ctx.reference.base).IsInside ws :=
      ⟨hctx.directory, hctx.stack⟩
    refine hframe ctx hctx (bind (hframe _ hsymbol (hsearch _ hsymbol)) fun base _ => ?_)
    exact bind (project _ _) fun _ _ => pure trivial

end Frames

end Alike

/-! ### Requests -/

/-- The paths of the request are without empty components and components with slashes, as
every path is that was written down. -/
def Request.HasTidyPaths : Request → Prop
  | .value _ _ place => place.IsTidy
  | .property _ _ place => place.IsTidy
  | .contexts _ directories => ∀ dir ∈ directories, dir.IsTidy
  | .modulePath _ place => place.IsTidy
  | _ => True

instance (request : Request) : Decidable request.HasTidyPaths :=
  match request with
  | .value _ _ place => inferInstanceAs (Decidable place.IsTidy)
  | .property _ _ place => inferInstanceAs (Decidable place.IsTidy)
  | .contexts _ directories =>
    inferInstanceAs (Decidable (∀ dir ∈ directories, dir.IsTidy))
  | .modulePath _ place => inferInstanceAs (Decidable place.IsTidy)
  | .changed _ | .clear | .start | .dispose | .wait _ | .sweep | .tick => .isTrue trivial

/-- Under an invariant, two requests do the same and keep it. -/
structure AlikeQuery {α : Type} (I : Session → Prop) (x y : Query α) : Prop where
  same : ∀ s, I s → x s = y s
  keeps : ∀ s, I s → I (x s).2

namespace AlikeQuery

variable {α β : Type} {I : Session → Prop}

theorem pure (value : α) : AlikeQuery I (pure value) (pure value) :=
  ⟨fun _ _ => rfl, fun _ hs => hs⟩

theorem bind {x y : Query α} {f g : α → Query β} (hx : AlikeQuery I x y)
    (hf : ∀ value, AlikeQuery I (f value) (g value)) : AlikeQuery I (x >>= f) (y >>= g) where
  same s hs := by
    rw [query_bind, query_bind, ← hx.same s hs]
    exact (hf _).same _ (hx.keeps s hs)
  keeps s hs := (hf _).keeps _ (hx.keeps s hs)

theorem map {x y : Query α} (f : α → β) (hx : AlikeQuery I x y) :
    AlikeQuery I (f <$> x) (f <$> y) :=
  bind hx fun value => pure (f value)

theorem answered {onFailure : Text} {x y : Run (Option α)} {P : Option α → Prop} (h : Alike I x y P)
    (hgaveUp : ∀ s reason, I s → I { s with events := .gaveUp onFailure reason :: s.events }) :
    AlikeQuery I (answered onFailure x) (answered onFailure y) where
  same s hs := by
    unfold TerraformTrace.answered
    rw [h.same s hs]
  keeps s hs := by
    have hkeeps := h.keeps s hs
    rw [answered_apply]
    cases outcome x s with
    | ok value => exact hkeeps
    | error abort => exact hgaveUp _ _ hkeeps

section Requests

variable {ws : Workspace} {disk : Disk} {since : List Event}
  {Allowed : SearchMode → List Text → Remembered → Prop}
  (hagrees : ws.AgreesWith disk) (hroot : ws.root.IsNormal)
  (hframes : ∀ mode ref dir, ws.Inside dir →
    Alike (Coherent ws since Allowed) (resolveFrom ws mode ref dir)
      (resolveFrom (ws.withDisk disk) mode ref dir) fun _ => True)
  {request : Request} {s : Session}

theorem gaveUp (onFailure : Text) (s : Session) (reason : Text)
    (hs : Coherent ws since Allowed s) : Coherent ws since Allowed
      { s with events := .gaveUp onFailure reason :: s.events } :=
  hs.note trivial

include hagrees hroot hframes

theorem resolveIn (mode : SearchMode) (wanted : Wanted) {start : Path} (hstart : start.IsTidy) :
    AlikeQuery (Coherent ws since Allowed) (resolveIn ws mode wanted start)
      (resolveIn (ws.withDisk disk) mode wanted start) := by
  have hsought : Alike (Coherent ws since Allowed) (sought ws mode wanted start)
      (sought (ws.withDisk disk) mode wanted start) fun _ => True := by
    unfold sought
    cases wanted.reference? with
    | none => exact Alike.pure trivial
    | some ref =>
      refine Alike.bind (Alike.usablePath start) fun usable husable => ?_
      subst husable
      simp only [Workspace.withDisk_normalize, Workspace.withDisk_contains]
      refine Alike.ite (fun _ => Alike.pure trivial) fun hcontains => ?_
      have hinside : ws.Inside (ws.normalize usable) :=
        .of_contains hroot (Workspace.isNormal_normalize hroot hstart) (by simpa using hcontains)
      refine Alike.bind (Alike.checkDirectory hagrees hinside) fun isDirectory _ => ?_
      refine Alike.ite (fun _ => Alike.pure trivial) fun _ => ?_
      exact Alike.bind (hframes mode ref _ hinside) fun _ _ => Alike.pure trivial
  rw [resolveIn_eq, resolveIn_eq]
  exact answered hsought (gaveUp _)

theorem resolveProperty (wanted : Wanted) (property : Text) {start : Path} (hstart : start.IsTidy) :
    AlikeQuery (Coherent ws since Allowed)
      (resolveProperty ws wanted property start)
      (resolveProperty (ws.withDisk disk) wanted property start) := by
  refine bind (resolveIn hagrees hroot hframes .enhanced wanted hstart) fun found => ?_
  cases found with
  | none => exact pure none
  | some base => exact answered (Alike.project [property] (some base)) (gaveUp _)

theorem resolveEach (wanted : Wanted) {directories : List Path}
    (hdirectories : ∀ dir ∈ directories, dir.IsTidy) :
    AlikeQuery (Coherent ws since Allowed) (resolveEach ws wanted directories)
      (resolveEach (ws.withDisk disk) wanted directories) := by
  induction directories with
  | nil => exact pure []
  | cons dir directories ih =>
    have hdir := hdirectories dir List.mem_cons_self
    refine bind (resolveIn hagrees hroot hframes .enhanced wanted hdir) fun value => ?_
    refine bind (ih (List.forall_mem_cons.mp hdirectories).2)
      fun more => ?_
    cases value.bind present? with
    | none => exact pure more
    | some value => exact pure _

/-- Requests are alike on both disks if frames in the workspace are. -/
theorem respond (hrequest : request.HasTidyPaths) :
    AlikeQuery (Coherent ws since Allowed) (respond ws request)
      (respond (ws.withDisk disk) request) := by
  have hupkeep : request.isUpkeep = true → ∀ s, Coherent ws since Allowed s →
      Coherent ws since Allowed (TerraformTrace.respond ws request s).2 := by
    intro hrequest s hs
    exact perform_of_isUpkeep ws hrequest (fun hs hsubset => hs.of_subset hsubset)
      (fun hs => ⟨hs.grown, nofun, nofun, hs.events⟩) hs
  cases request with
  | value mode wanted start => exact map _ (resolveIn hagrees hroot hframes mode wanted hrequest)
  | property wanted property start =>
    exact map _ (resolveProperty hagrees hroot hframes wanted property hrequest)
  | contexts wanted directories =>
    refine map _ ?_
    rcases resolveInContexts_cases ws wanted directories with ⟨error, hout⟩ | hout
    · rw [hout ws rfl, hout (ws.withDisk disk) rfl]
      exact pure _
    · rw [hout ws rfl, hout (ws.withDisk disk) rfl]
      refine map _ (resolveEach hagrees hroot hframes wanted fun dir hmem => ?_)
      obtain ⟨given, hgiven, rfl⟩ := List.mem_map.mp (List.mem_eraseDups.mp hmem)
      exact (Workspace.isNormal_normalize hroot (hrequest given hgiven)).2.1
  | modulePath source start =>
    refine map _ ⟨fun s hs => ?_, fun s hs => ?_⟩
    · unfold resolveModulePath
      rw [(Alike.modulePath hagrees hroot source hrequest).same s hs]
    · rw [resolveModulePath_apply]
      exact (Alike.modulePath hagrees hroot source hrequest).keeps s hs
  | changed | clear | start | dispose | wait | sweep | tick =>
    exact ⟨fun _ _ => rfl, hupkeep rfl⟩

theorem perform (hrequest : request.HasTidyPaths) (hs : Coherent ws since Allowed s) :
    Coherent ws since Allowed (perform ws request s) :=
  (respond hagrees hroot hframes hrequest).keeps s hs

theorem perform_eq (hrequest : request.HasTidyPaths) (hs : Coherent ws since Allowed s) :
    TerraformTrace.perform ws request s = TerraformTrace.perform (ws.withDisk disk) request s :=
  congrArg Prod.snd ((respond hagrees hroot hframes hrequest).same s hs)

/-- A coherent session is coherent after any requests. -/
theorem performAll {requests : List Request}
    (hrequests : ∀ request ∈ requests, request.HasTidyPaths)
    (hs : Coherent ws since Allowed s) :
    Coherent ws since Allowed (performAll ws requests s) := by
  induction requests generalizing s with
  | nil => exact hs
  | cons request requests ih =>
    rw [performAll_cons]
    exact ih (List.forall_mem_cons.mp hrequests).2
      (perform hagrees hroot hframes (hrequests request List.mem_cons_self) hs)

/-- A sequence of requests is answered alike on both disks, and leads to the same session. -/
theorem replies_eq {requests : List Request}
    (hrequests : ∀ request ∈ requests, request.HasTidyPaths)
    (hs : Coherent ws since Allowed s) :
    replies ws requests s = replies (ws.withDisk disk) requests s ∧
    TerraformTrace.performAll ws requests s =
      TerraformTrace.performAll (ws.withDisk disk) requests s := by
  induction requests generalizing s with
  | nil =>
    rw [replies, replies, performAll_nil, performAll_nil]
    exact ⟨rfl, rfl⟩
  | cons request requests ih =>
    have hrequest := hrequests request List.mem_cons_self
    have hsame := (respond hagrees hroot hframes hrequest).same s hs
    have hsession := perform_eq hagrees hroot hframes hrequest hs
    obtain ⟨hreplies, hperform⟩ :=
      ih (List.forall_mem_cons.mp hrequests).2
        (perform hagrees hroot hframes hrequest hs)
    rw [replies, replies, performAll_cons, performAll_cons, hsame, hreplies, hperform, hsession]
    exact ⟨rfl, rfl⟩

end Requests

end AlikeQuery

/-! ### Trees that agree -/

/-- Every path at or below the root leads to the same in both trees, and every directory
there lists the same. -/
structure FileTree.AgreesBelow (root : Path) (tree other : FileTree) : Prop where
  find : ∀ path : Path, path.IsNormal → root.parts <+: path.parts →
    tree.find path = other.find path
  list : ∀ path : Path, path.IsNormal → root.parts <+: path.parts →
    tree.list path = other.list path

namespace FileTree

variable {tree other : FileTree} {root : Path}

/-- Trees with the same places at or below the root agree there, if there are directories
on the way to the root. -/
theorem agreesBelow_of_places
    (habove : ∀ n < root.parts.length, tree.node? (root.parts.take n) = some .directory ∧
      other.node? (root.parts.take n) = some .directory)
    (hbelow : tree.places.filter (root.parts.isPrefixOf ·.1) =
      other.places.filter (root.parts.isPrefixOf ·.1)) :
    tree.AgreesBelow root other := by
  have hnode : ∀ place, root.parts <+: place → tree.node? place = other.node? place := by
    intro place hplace
    have hkept : ∀ t : FileTree,
        FileTree.node? ⟨t.places.filter (root.parts.isPrefixOf ·.1)⟩ place = t.node? place :=
      fun _ => node?_filter fun _ => List.isPrefixOf_iff_prefix.mpr hplace
    rw [← hkept tree, hbelow, hkept other]
  have hchildren : ∀ place, root.parts <+: place → tree.children place = other.children place := by
    intro place hplace
    have hkept : ∀ t : FileTree,
        FileTree.children ⟨t.places.filter (root.parts.isPrefixOf ·.1)⟩ place = t.children place :=
      fun _ => children_filter fun _ _ hentry => List.isPrefixOf_iff_prefix.mpr
        (hplace.trans (hentry ▸ List.dropLast_prefix _))
    rw [← hkept tree, hbelow, hkept other]
  have hfind : ∀ path : Path, path.IsNormal → root.parts <+: path.parts →
      tree.find path = other.find path := by
    intro path hpath hbegins
    refine find_congr hpath fun place hplace => ?_
    -- above the root the walk meets directories in both trees
    rcases List.prefix_or_prefix_of_prefix hplace hbegins with hup | hdown
    · rcases Nat.lt_or_ge place.length root.parts.length with hlt | hge
      · have hnodes := habove place.length hlt
        rw [← List.prefix_iff_eq_take.mp hup] at hnodes
        rw [hnodes.1, hnodes.2]
      · exact hnode place (hup.eq_of_length_le hge ▸ List.prefix_refl _)
    · exact hnode place hdown
  exact ⟨hfind, fun path hpath hbegins =>
    list_congr hpath (hfind path hpath hbegins) (hchildren _ hbegins)⟩

end FileTree

theorem Workspace.agreesWith_of_agreesBelow {ws : Workspace} {tree : FileTree}
    (h : ws.disk.tree.AgreesBelow ws.root tree) :
    ws.AgreesWith { ws.disk with tree } where
  isDirectory path hpath := by
    have hfind := h.find path hpath.normal hpath.below
    simp only [Disk.isDirectory, FileTree.isDirectory, hfind]
  list path hpath := by
    have hlist := h.list path hpath.normal hpath.below
    simp only [Disk.list, hlist]
  readText path hpath := by
    have hfind := h.find path hpath.normal hpath.below
    simp only [Disk.readText, FileTree.content, hfind]

/-- Trees that agree at or below the root cannot be told apart: a fresh engine gives the
same answers on both to any sequence of requests and ends in the same session. Every
directory it listed, every file it read, every directory of a context and every entry of
the table of module directories lies at or below the root. -/
theorem replies_eq_of_agree {ws : Workspace} (hroot : ws.root.IsNormal)
    (hnames : ws.disk.tree.HasFileNames) {tree : FileTree}
    (hagree : ws.disk.tree.AgreesBelow ws.root tree) {fresh : Session}
    (hfresh : Session.create ws.settings = .ok fresh) {requests : List Request}
    (hrequests : ∀ request ∈ requests, request.HasTidyPaths) :
    replies ws requests fresh = replies (ws.withDisk { ws.disk with tree }) requests fresh ∧
    performAll ws requests fresh = performAll (ws.withDisk { ws.disk with tree }) requests fresh ∧
    (∀ event ∈ (performAll ws requests fresh).events, event.IsInside ws) ∧
    ∀ entry ∈ (performAll ws requests fresh).modulePaths, ws.Inside entry.2 := by
  obtain ⟨hcache, hpaths, hevents⟩ := Session.empty_of_create hfresh
  have hcoherent : Coherent ws [] (fun _ _ _ => True) fresh := .of_empty hcache hpaths hevents
  have hagrees := Workspace.agreesWith_of_agreesBelow hagree
  have hframes : ∀ mode ref dir, ws.Inside dir →
      Alike (Coherent ws [] fun _ _ _ => True) (resolveFrom ws mode ref dir)
        (resolveFrom (ws.withDisk { ws.disk with tree }) mode ref dir)
        fun _ => True :=
    fun mode ref dir hdir =>
      Alike.resolveFrame hagrees hnames hroot (fun _ _ _ => trivial) mode _ ⟨hdir, nofun⟩
  obtain ⟨hreplies, hsession⟩ :=
    AlikeQuery.replies_eq hagrees hroot hframes hrequests hcoherent
  have hafter := AlikeQuery.performAll hagrees hroot hframes hrequests hcoherent
  exact ⟨hreplies, hsession, hafter.events, hafter.table⟩

/-- A module whose source leads out of the workspace. -/
def enclosed : Workspace := .ofFiles {} [(["main.tf"],
  "module \"m\" \x7b\n  source = \"../out\"\n\x7d\nlocals \x7b\n  a = module.m.o\n\x7d\n")]

/-- The same tree with a module where the source leads. -/
def enclosedTree : FileTree := enclosed.disk.tree.write ["out".toList, "main.tf".toList]
  ("output \"o\" \x7b\n  value = \"1\"\n\x7d\n".toList.map fun c => .ofNat c.toNat)

/-- Requests that try to get out. -/
def enclosedRequests : List Request := [
  .value .enhanced (written "local.a") here,
  .value .plain (written "module.m.o") here,
  .property (written "var.o") "p".toList (.ofText "../out".toList),
  .contexts (written "var.o") [.ofText "/out".toList, here],
  .modulePath "\"../out\"".toList here]

/-- What lies outside makes no difference to the answers. -/
theorem enclosed_replies_eq :
    enclosed.disk.tree.isDirectory (.ofText "/out".toList) = false ∧
    enclosedTree.isDirectory (.ofText "/out".toList) = true ∧
    replies enclosed enclosedRequests .fresh =
      replies (enclosed.withDisk { enclosed.disk with tree := enclosedTree }) enclosedRequests
        .fresh := by
  have hagree : enclosed.disk.tree.AgreesBelow enclosed.root enclosedTree :=
    FileTree.agreesBelow_of_places (by decide) (by decide)
  have hreplies := replies_eq_of_agree (by decide) (by decide) hagree
    (show Session.create enclosed.settings = .ok .fresh from rfl)
    (show ∀ request ∈ enclosedRequests, request.HasTidyPaths by decide)
  exact ⟨by decide, by decide, hreplies.1⟩

end TerraformTrace
