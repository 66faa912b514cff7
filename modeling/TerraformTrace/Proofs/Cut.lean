import TerraformTrace.Proofs.Reference
import TerraformTrace.Proofs.Tally

/-!
# TerraformTrace.Proofs.Cut

Which results are remembered although a cycle was cut while they were computed. A frame
that is stored was entered before, and what happened in between happened on its behalf:
no frame with the same key was entered meanwhile, because the frames below it are deeper
or have other properties (`Enters`). `Accounted` carries the tally of a frame from there
to **everything that is stored in a run**, and `stored_over_cut_iff` states it for every
sequence of requests.
-/

namespace TerraformTrace

open Hcl

variable {mode : SearchMode} {ctx : Context}

/-! ### The frames entered on behalf of a frame -/

/-- The frames that were entered are all of this sort. -/
def Enters (P : Context → Prop) (before after : List Event) : Prop :=
  ∃ added, after = added ++ before ∧ ∀ ctx, .entered ctx ∈ added → P ctx

namespace Enters

variable {P Q : Context → Prop}

theorem mono (hPQ : ∀ ctx, P ctx → Q ctx) {before after : List Event}
    (h : Enters P before after) : Enters Q before after := by
  obtain ⟨added, rfl, hadded⟩ := h
  exact ⟨added, rfl, fun ctx hmem => hPQ ctx (hadded ctx hmem)⟩

theorem cons {event : Event} (events : List Event) (hevent : ∀ ctx, event = .entered ctx → P ctx) :
    Enters P events (event :: events) :=
  ⟨[event], rfl, fun ctx hmem => hevent ctx (List.mem_singleton.mp hmem).symm⟩

theorem admits (P : Context → Prop) : AdmitsSearch (Enters P) where
  refl events := ⟨[], rfl, by simp⟩
  trans := by
    rintro first second third ⟨early, rfl, hearly⟩ ⟨late, rfl, hlate⟩
    refine ⟨late ++ early, by simp, fun ctx hmem => ?_⟩
    rcases List.mem_append.mp hmem with hmem | hmem
    · exact hlate ctx hmem
    · exact hearly ctx hmem
  aside events haside := cons events fun ctx heq => by
    subst heq
    exact haside.elim
  threaded events ctx call value cacheable := cons events fun other heq => by cases heq

theorem frame {compute : Run Resolution} (hown : P ctx) (hcompute : Keeps (Enters P) compute) :
    Keeps (Enters P) (frame mode ctx compute) := by
  refine (admits P).frame (fun events => cons events fun other heq => ?_)
    (fun events => cons events nofun) (fun events => cons events nofun)
    (fun events _ _ => cons events nofun) hcompute
  cases heq
  exact hown

end Enters

variable (ws : Workspace)

/-- No frame above the depth of a frame is entered on its behalf. -/
theorem enters_resolveFrame (mode : SearchMode) (left : Nat) (ctx : Context) :
    Keeps (Enters (ctx.depth ≤ ·.depth)) (resolveFrame ws mode left ctx) := by
  induction left generalizing ctx with
  | zero =>
    have hR := Enters.admits (ctx.depth ≤ ·.depth)
    exact fun s => hR.trans (Enters.cons _ fun other heq => by cases heq)
      (Enters.cons _ fun other heq => by cases heq)
  | succ left ih =>
    have hsearch : ∀ symbol : Context, symbol.depth = ctx.depth →
        Keeps (Enters (ctx.depth ≤ ·.depth))
          (searchSymbol ws mode (resolveFrame ws mode left) symbol) := by
      intro symbol hdepth
      refine (Enters.admits _).searchSymbol ws mode fun ref dir stack s => ?_
      refine (ih (symbol.child ref dir stack) s).mono fun other hother => ?_
      have hchild : symbol.depth + 1 ≤ other.depth := hother
      omega
    unfold resolveFrame
    dsimp only
    split
    · exact Enters.frame (Nat.le_refl _) (hsearch ctx rfl)
    · refine Enters.frame (Nat.le_refl _) ?_
      have hR := Enters.admits (ctx.depth ≤ ·.depth)
      exact hR.bind (Enters.frame (Nat.le_refl _) (hsearch _ rfl)) fun base =>
        hR.bind (hR.project _ _) fun _ => hR.pure _

theorem enters_searchSymbol (mode : SearchMode) (left : Nat) (ctx : Context) :
    Keeps (Enters (ctx.depth < ·.depth)) (searchSymbol ws mode (resolveFrame ws mode left) ctx) :=
  (Enters.admits _).searchSymbol ws mode fun ref dir stack =>
    enters_resolveFrame ws mode left (ctx.child ref dir stack)

theorem keyParts_ne_of_depth_lt {other : Context} (h : ctx.depth < other.depth) :
    other.keyParts ≠ ctx.keyParts := by
  intro hparts
  unfold Context.keyParts at hparts
  simp only [List.cons.injEq] at hparts
  exact absurd (Text.ofNat_inj hparts.2.2.1) (by omega)

/-- The search of a frame does not enter a frame with the same key. -/
theorem enters_others_searchSymbol (mode : SearchMode) (left : Nat)
    (ctx : Context) {parts : List Text}
    (hparts : ∀ other : Context, ctx.depth < other.depth → other.keyParts ≠ parts) :
    Keeps (Enters (·.keyParts ≠ parts)) (searchSymbol ws mode (resolveFrame ws mode left) ctx) :=
  fun s => (enters_searchSymbol ws mode left ctx s).mono hparts

theorem keyParts_withReference_base_ne (h : ctx.reference.properties ≠ []) :
    (ctx.withReference ctx.reference.base).keyParts ≠ ctx.keyParts := by
  intro hparts
  unfold Context.keyParts at hparts
  simp only [List.cons.injEq] at hparts
  exact Reference.base_text_ne h hparts.1

/-! ### What is stored -/

/-- Whether a frame with this key is entered. -/
def Event.enters (parts : List Text) : Event → Bool
  | .entered ctx => ctx.keyParts = parts
  | _ => false

/-- The events since a frame with this key was last entered. -/
def sinceEntered (parts : List Text) (events : List Event) : List Event :=
  events.takeWhile fun event => !event.enters parts

theorem sinceEntered_eq {during before : List Event}
    (h : ∀ other, .entered other ∈ during → other.keyParts ≠ ctx.keyParts) :
    sinceEntered ctx.keyParts (during ++ .entered ctx :: before) = during := by
  have hduring : ∀ event ∈ during, (!event.enters ctx.keyParts) = true := by
    intro event hmem
    cases event with
    | entered other => simpa [Event.enters] using h other hmem
    | _ => rfl
  unfold sinceEntered
  rw [List.takeWhile_append_of_pos hduring]
  simp [Event.enters]

/-- The result stored after `rest` is that of a frame entered after `before`. Since then
a frame was cut if and only if, in enhanced mode, an argument was lost. -/
def Settles (mode : SearchMode) (parts : List Text) (before rest : List Event) : Prop :=
  (∃ ctx earlier, ctx.keyParts = parts ∧ before <:+ earlier ∧
    rest = sinceEntered parts rest ++ .entered ctx :: earlier) ∧
  ((∃ event ∈ sinceEntered parts rest, event.isCut) ↔
    mode = .enhanced ∧ ∃ event ∈ sinceEntered parts rest, event.isLost)

/-- Every result of a frame that was stored between two points of a run is settled. -/
def Accounted (before after : List Event) : Prop :=
  before <:+ after ∧ ∀ later mode parts rest,
    after = later ++ .stored (cacheKey mode.kind.word parts) :: rest → before <:+ rest →
    Settles mode parts before rest

namespace Accounted

theorem cons {event : Event} (events : List Event)
    (hevent : ∀ (mode : SearchMode) parts, event ≠ .stored (cacheKey mode.kind.word parts)) :
    Accounted events (event :: events) := by
  refine ⟨List.suffix_cons event events, fun later mode parts rest heq hsuffix => ?_⟩
  cases later with
  | nil => exact absurd (List.cons.inj heq).1 (hevent mode parts)
  | cons other later =>
    -- the stored event would stand among the events before
    have hlength := hsuffix.length_le
    have htail : events = later ++ .stored (cacheKey mode.kind.word parts) :: rest :=
      (List.cons.inj heq).2
    have hevents := congrArg List.length htail
    simp only [List.length_append, List.length_cons] at hevents
    omega

theorem trans {first second third : List Event} (h : Accounted first second)
    (h' : Accounted second third) : Accounted first third := by
  refine ⟨h.1.trans h'.1, fun later mode parts rest heq hsuffix => ?_⟩
  have hthird : .stored (cacheKey mode.kind.word parts) :: rest <:+ third := ⟨later, heq.symm⟩
  have hsplit : (.stored (cacheKey mode.kind.word parts) :: rest <:+ second) ∨ second <:+ rest := by
    rcases List.suffix_or_suffix_of_suffix hthird h'.1 with hsecond | hsecond
    · exact Or.inl hsecond
    · rcases List.suffix_cons_iff.mp hsecond with rfl | hrest
      · exact Or.inl (List.suffix_refl _)
      · exact Or.inr hrest
  rcases hsplit with ⟨later', hsecond⟩ | hsecond
  · exact h.2 later' mode parts rest hsecond.symm hsuffix
  · obtain ⟨⟨ctx, earlier, hparts, hbefore, hrest⟩, hiff⟩ := h'.2 later mode parts rest heq hsecond
    exact ⟨⟨ctx, earlier, hparts, h.1.trans hbefore, hrest⟩, hiff⟩

theorem admits : AdmitsSearch Accounted where
  refl events := by
    refine ⟨List.suffix_refl events, fun later mode parts rest heq hsuffix => ?_⟩
    have hlength := hsuffix.length_le
    have hevents := congrArg List.length heq
    simp only [List.length_append, List.length_cons] at hevents
    omega
  trans := trans
  aside events haside := cons events fun mode parts heq => by
    subst heq
    exact haside mode parts rfl
  threaded events ctx call value cacheable := cons events fun mode parts heq => by cases heq

/-- A frame stores its result last, after everything that was done on its behalf. -/
theorem store {before after : List Event} (h : Accounted (.entered ctx :: before) after)
    (hothers : Enters (·.keyParts ≠ ctx.keyParts) (.entered ctx :: before) after)
    (htally : Tally mode true (.entered ctx :: before) after true) :
    Accounted before (.stored (frameKey mode ctx) :: after) := by
  have hbefore : Accounted before after := (cons before fun _ _ heq => by cases heq).trans h
  refine ⟨hbefore.1.trans (List.suffix_cons _ _), fun later mode' parts rest heq hsuffix => ?_⟩
  cases later with
  | cons event later => exact hbefore.2 later mode' parts rest (List.cons.inj heq).2 hsuffix
  | nil =>
    -- the entry is the one just made, and its key gives back the mode and the frame
    obtain ⟨hkey, rfl⟩ := List.cons.inj heq
    obtain ⟨hword, rfl⟩ := cacheKey_inj (Event.stored.inj hkey)
    obtain rfl := SearchMode.kind_inj (ResultKind.word_inj hword)
    obtain ⟨during, rfl, hothers⟩ := hothers
    have hiff := htally.cut_iff
    rw [Occurs.append_iff, Occurs.append_iff] at hiff
    unfold Settles
    rw [sinceEntered_eq hothers]
    exact ⟨⟨ctx, before, rfl, List.suffix_refl before, rfl⟩, hiff⟩

theorem frame {compute : Run Resolution} (hcompute : Keeps Accounted compute)
    (hothers : Keeps (Enters (·.keyParts ≠ ctx.keyParts)) compute)
    (htallies : Tallies mode true Resolution.cacheable compute) :
    Keeps Accounted (frame mode ctx compute) := by
  intro s
  have hentered : Accounted s.events (.entered ctx :: s.events) :=
    cons _ fun _ _ heq => by cases heq
  have hother : ∀ {event : Event} {events : List Event},
      (∀ key, event ≠ .stored key) → Accounted events (event :: events) :=
    fun hevent => cons _ fun mode parts => hevent _
  refine frame_cases mode ctx compute s fun hends => ?_
  cases hends with
  | cut hcycle => exact hentered.trans ((hother (by simp)).trans (hother (by simp)))
  | hit hcycle known hget => exact hentered.trans (hother (by simp))
  | aborted hcycle hget abort hout => exact hentered.trans (hcompute (opened mode ctx s))
  | stored hcycle hget value hout =>
    exact (store (hcompute (opened mode ctx s)) (hothers (opened mode ctx s))
      (htallies _ _ hout)).trans (hother (by simp))
  | unstored hcycle hget value hout =>
    exact hentered.trans ((hcompute (opened mode ctx s)).trans (hother (by simp)))

end Accounted

/-- Every result that a frame stores, and that is stored on its behalf, is settled. -/
theorem accounted_resolveFrame (ws : Workspace) (mode : SearchMode) (left : Nat)
    (ctx : Context) : Keeps Accounted (resolveFrame ws mode left ctx) := by
  have hR := Accounted.admits
  induction left generalizing ctx with
  | zero =>
    exact fun s => (Accounted.cons _ fun _ _ heq => by cases heq).trans
      (Accounted.cons _ fun _ _ heq => by cases heq)
  | succ left ih =>
    have hsearch : ∀ symbol, Keeps Accounted
        (searchSymbol ws mode (resolveFrame ws mode left) symbol) :=
      fun symbol => hR.searchSymbol ws mode fun ref dir stack => ih _
    have htallies : ∀ symbol, Tallies mode true Resolution.cacheable
        (searchSymbol ws mode (resolveFrame ws mode left) symbol) :=
      fun symbol => Tallies.searchSymbol (tallies_resolveFrame ws mode left) ws
    unfold resolveFrame
    dsimp only
    split
    next hproperties =>
      exact Accounted.frame (hsearch ctx)
        (enters_others_searchSymbol ws mode left ctx fun _ => keyParts_ne_of_depth_lt)
        (htallies ctx)
    next hproperties =>
      have hne : ctx.reference.properties ≠ [] := by simpa using hproperties
      have hbase := Accounted.frame (hsearch (ctx.withReference ctx.reference.base))
        (enters_others_searchSymbol ws mode left _ fun _ => keyParts_ne_of_depth_lt)
        (htallies _)
      have hothers := Enters.admits (·.keyParts ≠ ctx.keyParts)
      refine Accounted.frame ?_ ?_ (Tallies.projected (Tallies.frame (htallies _)) _)
      · exact hR.bind hbase fun base => hR.bind (hR.project _ _) fun _ => hR.pure _
      · refine hothers.bind (Enters.frame (keyParts_withReference_base_ne hne) ?_) fun base =>
          hothers.bind (hothers.project _ _) fun _ => hothers.pure _
        exact enters_others_searchSymbol ws mode left _
          fun other (hdepth : ctx.depth < other.depth) => keyParts_ne_of_depth_lt hdepth

theorem accounted_performAll (ws : Workspace) (requests : List Request) (s : Session) :
    Accounted s.events (performAll ws requests s).events :=
  Accounted.admits.performAll
    (fun mode _ _ => accounted_resolveFrame ws mode _ _) requests s

/-- Whenever a result is stored under the key of a frame, in whatever sequence of
requests, it is the result of the frame with that key that was entered last. Since it
was entered no frame was cut, except in enhanced mode when the argument of a call came
to nothing over a cut. -/
theorem stored_over_cut_iff (ws : Workspace) (requests : List Request) {s : Session}
    (hs : s.events = []) {mode : SearchMode} {parts : List Text} {rest : List Event}
    (h : .stored (cacheKey mode.kind.word parts) :: rest <:+ (performAll ws requests s).events) :
    (∃ ctx before, ctx.keyParts = parts ∧
      rest = sinceEntered parts rest ++ .entered ctx :: before) ∧
    ((∃ cut, .cycleCut cut ∈ sinceEntered parts rest) ↔
      mode = .enhanced ∧
        ∃ frame call, .threaded frame call none false ∈ sinceEntered parts rest) := by
  have hevents := accounted_performAll ws requests s
  rw [hs] at hevents
  obtain ⟨later, hlater⟩ := h
  obtain ⟨⟨ctx, before, hparts, -, hrest⟩, hiff⟩ :=
    hevents.2 later mode parts rest hlater.symm (List.nil_suffix ..)
  rw [exists_isCut, exists_isLost] at hiff
  exact ⟨⟨ctx, before, hparts, hrest⟩, hiff⟩

/-! ### A cut that is forgotten -/

/-- What happened before something was last stored under a key. -/
def beforeStored? (key : Text) : List Event → Option (List Event)
  | [] => none
  | .stored other :: events => if other = key then some events else beforeStored? key events
  | _ :: events => beforeStored? key events

theorem suffix_of_beforeStored? {key : Text} {events rest : List Event}
    (h : beforeStored? key events = some rest) : .stored key :: rest <:+ events := by
  fun_induction beforeStored? key events with
  | case1 => cases h
  | case2 events =>
    cases h
    exact List.suffix_refl _
  | case3 other events hne ih => exact (ih h).trans (List.suffix_cons _ _)
  | case4 events event hne ih => exact (ih h).trans (List.suffix_cons _ _)

/-- A workspace with some files, each character of which stands for a byte. -/
def Workspace.ofFiles (settings : Settings) (files : List (List String × String)) : Workspace :=
  { root := .ofText "/w".toList
    settings
    disk := {
      tree := files.foldl (fun tree file =>
        tree.write ("w".toList :: file.1.map String.toList)
          (file.2.toList.map fun c => .ofNat c.toNat)) {}
      encoding := settings.encoding } }

/-- A text of ASCII in UTF-16, after a byte order mark. -/
def marked (text : String) : String :=
  .ofList ('\xff' :: '\xfe' :: text.toList.flatMap fun c => [c, '\x00'])

/-- A workspace with some files in UTF-16, and at its root one more that does not say its byte
order. -/
def Workspace.withUnmarked (files : List (List String × String)) : Workspace :=
  .ofFiles { encoding := "utf-16".toList }
    ((["a.tf"], "ab") :: files.map fun file => (file.1, marked file.2))

/-- A local value beside the file that does not say its byte order. -/
def unmarked : Workspace :=
  .withUnmarked [(["main.tf"], "locals \x7b\n  x = \"v\"\n\x7d\n")]

/-- A session in which nothing happened yet. -/
def Session.fresh : Session := { cache := { ttl := .ofNat 60, capacity := 1000, now := .zero } }

/-- A directory that is a module of itself: it takes its input from a local value whose
value goes back to the input, and another local value is its output. -/
def selfCalling : Workspace := .ofFiles {} [(["main.tf"],
  "module \"m\" \x7b\n  source = \".\"\n  x = local.s\n\x7d
locals \x7b\n  s = \"S-$\x7bmodule.m.o\x7d\"\n  t = module.m.o\n\x7d
output \"o\" \x7b\n  value = var.x\n\x7d
variable \"x\" \x7b\n  default = \"d\"\n\x7d\n")]

/-- The request for the local value. -/
def selfCallingRequests : List Request :=
  [.value .enhanced (.text (some "local.s".toList)) (.ofText ".".toList)]

/-- The frame of the module's input. -/
def selfCallingInput : List Text :=
  ["var.x".toList, "/w".toList, "2".toList, "/w::m".toList]

/-- The default is remembered as the value of the input, although the argument of the
call was cut: for a request that starts at the input, the argument would count. -/
theorem default_stored_over_cut :
    ∃ rest, .stored (cacheKey SearchMode.enhanced.kind.word selfCallingInput) :: rest <:+
        (performAll selfCalling selfCallingRequests .fresh).events ∧
      (∃ cut, .cycleCut cut ∈ sinceEntered selfCallingInput rest) ∧
      ∃ frame call, .threaded frame call none false ∈ sinceEntered selfCallingInput rest := by
  have hrun : (beforeStored? (cacheKey SearchMode.enhanced.kind.word selfCallingInput)
      (performAll selfCalling selfCallingRequests .fresh).events).map
        (fun rest => (sinceEntered selfCallingInput rest).any Event.isCut) = some true := by
    decide +kernel
  obtain ⟨rest, hrest, hany⟩ := Option.map_eq_some_iff.mp hrun
  have hstored := suffix_of_beforeStored? hrest
  have hcut := exists_isCut.mp (List.any_eq_true.mp hany)
  have hiff := stored_over_cut_iff selfCalling selfCallingRequests rfl hstored
  exact ⟨rest, hstored, hcut, (hiff.2.mp hcut).2⟩

end TerraformTrace
