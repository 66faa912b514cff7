import TerraformTrace.Proofs.Keeps

/-!
# TerraformTrace.Proofs.Tally

The flag of a result against the record of the run. A frame decides by the flag of its
result whether the result is remembered. `Tally` compares the flag with the events of the
same stretch of the run: **a lowered flag always has a cut behind it, and a flag that stays
up has none except in one case**. In enhanced mode the argument of a call can come to
nothing over a cut; when another call or the default then gives the input a value, that
value's flag is the one that counts, and the cut is forgotten.
-/

namespace TerraformTrace

open Hcl

/-! ### Events of a stretch of a run -/

/-- An event of this sort was added between two points of a run. -/
def Occurs (P : Event → Bool) (before after : List Event) : Prop :=
  ∃ added, after = added ++ before ∧ ∃ event ∈ added, P event

namespace Occurs

variable {P : Event → Bool} {first second third fourth : List Event} {event : Event}

theorem widen (hearly : first <:+ second) (h : Occurs P second third) (hlate : third <:+ fourth) :
    Occurs P first fourth := by
  obtain ⟨early, rfl⟩ := hearly
  obtain ⟨added, rfl, event, hmem, hP⟩ := h
  obtain ⟨late, rfl⟩ := hlate
  exact ⟨late ++ (added ++ early), by simp, event, by simp [hmem], hP⟩

theorem split (hearly : first <:+ second) (hlate : second <:+ third) (h : Occurs P first third) :
    Occurs P first second ∨ Occurs P second third := by
  obtain ⟨early, rfl⟩ := hearly
  obtain ⟨late, rfl⟩ := hlate
  obtain ⟨added, hadded, event, hmem, hP⟩ := h
  have hparts : late ++ early = added := by
    rw [← List.append_assoc] at hadded
    exact List.append_cancel_right hadded
  subst hparts
  rcases List.mem_append.mp hmem with hlate | hearly
  · exact Or.inr ⟨late, rfl, event, hlate, hP⟩
  · exact Or.inl ⟨early, rfl, event, hearly, hP⟩

theorem not_self (events : List Event) : ¬ Occurs P events events := by
  rintro ⟨added, hadded, event, hmem, -⟩
  have hnil : added = [] := by simpa using hadded.symm
  simp [hnil] at hmem

theorem cons (hP : P event) : Occurs P first (event :: first) :=
  ⟨[event], rfl, event, List.mem_singleton_self event, hP⟩

theorem not_cons (hP : ¬ P event) : ¬ Occurs P first (event :: first) := by
  rintro ⟨added, hadded, other, hmem, hother⟩
  have hone : [event] = added := List.append_cancel_right (by simpa using hadded)
  subst hone
  exact hP (List.mem_singleton.mp hmem ▸ hother)

/-- In terms of the events that were added. -/
theorem append_iff {added : List Event} :
    Occurs P first (added ++ first) ↔ ∃ event ∈ added, P event := by
  refine ⟨?_, fun h => ⟨added, rfl, h⟩⟩
  rintro ⟨other, hother, h⟩
  rwa [List.append_cancel_right hother]

end Occurs

/-- Whether a frame was cut. -/
def Event.isCut : Event → Bool
  | .cycleCut _ => true
  | _ => false

/-- Whether the argument of a call came to nothing over a cut. -/
def Event.isLost : Event → Bool
  | .threaded _ _ none false => true
  | _ => false

variable {event : Event}

theorem Event.isCut_iff : event.isCut ↔ ∃ ctx, event = .cycleCut ctx := by
  cases event <;> simp [Event.isCut]

theorem Event.isLost_iff : event.isLost ↔ ∃ ctx call, event = .threaded ctx call none false := by
  cases event with
  | threaded ctx call value cacheable =>
    cases value <;> cases cacheable <;> simp [Event.isLost]
  | _ => simp [Event.isLost]

theorem exists_isCut {events : List Event} :
    (∃ event ∈ events, event.isCut) ↔ ∃ ctx, .cycleCut ctx ∈ events := by
  constructor
  · rintro ⟨event, hmem, hcut⟩
    obtain ⟨ctx, rfl⟩ := Event.isCut_iff.mp hcut
    exact ⟨ctx, hmem⟩
  · rintro ⟨ctx, hmem⟩
    exact ⟨_, hmem, rfl⟩

theorem exists_isLost {events : List Event} :
    (∃ event ∈ events, event.isLost) ↔ ∃ ctx call, .threaded ctx call none false ∈ events := by
  constructor
  · rintro ⟨event, hmem, hlost⟩
    obtain ⟨ctx, call, rfl⟩ := Event.isLost_iff.mp hlost
    exact ⟨ctx, call, hmem⟩
  · rintro ⟨ctx, call, hmem⟩
    exact ⟨_, hmem, rfl⟩

theorem Event.IsAside.not_isCut (h : event.IsAside) : ¬ event.isCut := by
  intro hcut
  obtain ⟨ctx, rfl⟩ := Event.isCut_iff.mp hcut
  exact h

theorem Event.IsAside.not_isLost (h : event.IsAside) : ¬ event.isLost := by
  intro hlost
  obtain ⟨ctx, call, rfl⟩ := Event.isLost_iff.mp hlost
  exact h

/-- Only events apart from frames were added. -/
def Quiet (before after : List Event) : Prop :=
  ∃ added, after = added ++ before ∧ ∀ event ∈ added, event.IsAside

theorem Quiet.suffix {before after : List Event} (h : Quiet before after) : before <:+ after := by
  obtain ⟨added, rfl, -⟩ := h
  exact List.suffix_append added before

theorem Quiet.not_occurs {before after : List Event} (h : Quiet before after)
    {P : Event → Bool} (hP : ∀ event, event.IsAside → ¬ P event) : ¬ Occurs P before after := by
  obtain ⟨added, rfl, haside⟩ := h
  rw [Occurs.append_iff]
  rintro ⟨event, hmem, hevent⟩
  exact hP event (haside event hmem) hevent

theorem admits_quiet : Admits Quiet where
  refl events := ⟨[], rfl, by simp⟩
  trans := by
    rintro first second third ⟨early, rfl, hearly⟩ ⟨late, rfl, hlate⟩
    refine ⟨late ++ early, by simp, fun event hmem => ?_⟩
    rcases List.mem_append.mp hmem with hmem | hmem
    · exact hlate event hmem
    · exact hearly event hmem
  aside events h := ⟨[_], rfl, by simpa using h⟩

/-! ### The flag against the record -/

/-- The flag of a result against the events of a stretch of a run in which it went from
`start` to `flag`. -/
structure Tally (mode : SearchMode) (start : Bool) (before after : List Event) (flag : Bool) :
    Prop where
  grows : before <:+ after
  lowered : flag = false → start = false ∨ Occurs Event.isCut before after
  kept : flag = true → start = true ∧
    (Occurs Event.isCut before after → mode = .enhanced ∧ Occurs Event.isLost before after)
  lost : Occurs Event.isLost before after → Occurs Event.isCut before after

namespace Tally

variable {mode : SearchMode} {start flag final : Bool} {first second third : List Event}

/-- A stretch without cuts and lost arguments leaves the flag as it is. -/
theorem silent (hgrows : first <:+ second) (hcut : ¬ Occurs Event.isCut first second)
    (hlost : ¬ Occurs Event.isLost first second) : Tally mode flag first second flag where
  grows := hgrows
  lowered h := Or.inl h
  kept h := ⟨h, fun hoccurs => absurd hoccurs hcut⟩
  lost h := absurd h hlost

theorem quiet (h : Quiet first second) : Tally mode flag first second flag :=
  silent h.suffix (h.not_occurs fun _ => Event.IsAside.not_isCut)
    (h.not_occurs fun _ => Event.IsAside.not_isLost)

theorem refl (events : List Event) : Tally mode flag events events flag :=
  silent (List.suffix_refl events) (Occurs.not_self events) (Occurs.not_self events)

theorem cons {event : Event} (hcut : ¬ event.isCut) (hlost : ¬ event.isLost) :
    Tally mode flag first (event :: first) flag :=
  silent (List.suffix_cons event first) (Occurs.not_cons hcut) (Occurs.not_cons hlost)

theorem trans (h : Tally mode start first second flag) (h' : Tally mode flag second third final) :
    Tally mode start first third final where
  grows := h.grows.trans h'.grows
  lowered hfinal := by
    rcases h'.lowered hfinal with hflag | hcut
    · rcases h.lowered hflag with hstart | hcut
      · exact Or.inl hstart
      · exact Or.inr (hcut.widen (List.suffix_refl _) h'.grows)
    · exact Or.inr (hcut.widen h.grows (List.suffix_refl _))
  kept hfinal := by
    obtain ⟨hflag, hsecond⟩ := h'.kept hfinal
    obtain ⟨hstart, hfirst⟩ := h.kept hflag
    refine ⟨hstart, fun hcut => ?_⟩
    rcases hcut.split h.grows h'.grows with hcut | hcut
    · obtain ⟨hmode, hlost⟩ := hfirst hcut
      exact ⟨hmode, hlost.widen (List.suffix_refl _) h'.grows⟩
    · obtain ⟨hmode, hlost⟩ := hsecond hcut
      exact ⟨hmode, hlost.widen h.grows (List.suffix_refl _)⟩
  lost hlost := by
    rcases hlost.split h.grows h'.grows with hlost | hlost
    · exact (h.lost hlost).widen (List.suffix_refl _) h'.grows
    · exact (h'.lost hlost).widen h.grows (List.suffix_refl _)

/-- A result of its own joins a flag that stands already. -/
theorem and (start : Bool) (h : Tally mode true first second flag) :
    Tally mode start first second (start && flag) where
  grows := h.grows
  lowered hboth := by
    rcases Bool.and_eq_false_iff.mp hboth with hstart | hflag
    · exact Or.inl hstart
    · exact Or.inr ((h.lowered hflag).resolve_left (by decide))
  kept hboth := by
    obtain ⟨hstart, hflag⟩ := Bool.and_eq_true_iff.mp hboth
    exact ⟨hstart, (h.kept hflag).2⟩
  lost := h.lost

/-- Where a lowered flag means a lost argument, the flag may be dropped: what comes next
is judged by its own flag. -/
theorem supersede (h : Tally mode true first second flag)
    (hdropped : flag = false → mode = .enhanced ∧ Occurs Event.isLost first second)
    (h' : Tally mode true second third final) : Tally mode true first third final where
  grows := h.grows.trans h'.grows
  lowered hfinal :=
    Or.inr (((h'.lowered hfinal).resolve_left (by decide)).widen h.grows (List.suffix_refl _))
  kept hfinal := by
    refine ⟨rfl, fun hcut => ?_⟩
    -- the dropped flag cannot speak for the first stretch, but the record of it can
    have hfirst : Occurs Event.isCut first second →
        mode = .enhanced ∧ Occurs Event.isLost first second := by
      intro hcut
      cases hflag : flag with
      | false => exact hdropped hflag
      | true => exact (h.kept hflag).2 hcut
    rcases hcut.split h.grows h'.grows with hcut | hcut
    · obtain ⟨hmode, hlost⟩ := hfirst hcut
      exact ⟨hmode, hlost.widen (List.suffix_refl _) h'.grows⟩
    · obtain ⟨hmode, hlost⟩ := (h'.kept hfinal).2 hcut
      exact ⟨hmode, hlost.widen h.grows (List.suffix_refl _)⟩
  lost := ((h.and true).trans (h'.and _)).lost

theorem cut (ctx : Context) : Tally mode start first (.cycleCut ctx :: first) false where
  grows := List.suffix_cons _ first
  lowered _ := Or.inr (Occurs.cons rfl)
  kept h := by cases h
  lost hlost := absurd hlost (Occurs.not_cons (by simp [Event.isLost]))

/-- The record of an argument is made after its value was computed. -/
theorem threaded (ctx : Context) (call : ModuleCall) (value : Option Text)
    (h : Tally mode true first second flag) :
    Tally mode true first (.threaded ctx call value flag :: second) flag := by
  cases flag with
  | true => exact h.trans (cons (by simp [Event.isCut]) (by cases value <;> simp [Event.isLost]))
  | false =>
    have hcut := (h.lowered rfl).resolve_left (by decide)
    have hwide := hcut.widen (List.suffix_refl _)
      (List.suffix_cons (.threaded ctx call value false) second)
    exact {
      grows := h.grows.trans (List.suffix_cons _ second)
      lowered := fun _ => Or.inr hwide
      kept := fun h => by cases h
      lost := fun _ => hwide }

/-- A flag that is up says that nothing was cut, or that an argument was lost. -/
theorem cut_iff (h : Tally mode start first second true) :
    Occurs Event.isCut first second ↔ mode = .enhanced ∧ Occurs Event.isLost first second :=
  ⟨(h.kept rfl).2, fun hlost => h.lost hlost.2⟩

end Tally

/-! ### Along the search -/

/-- Whether what a search in one directory came to may be remembered. -/
def SearchOutcome.cacheable : SearchOutcome → Bool
  | .settled resolution => resolution.cacheable
  | .missed cacheable => cacheable

/-- A run whose result has a flag, which stood at `start` before. -/
def Tallies {α : Type} (mode : SearchMode) (start : Bool) (flag : α → Bool) (run : Run α) : Prop :=
  ∀ s value, outcome run s = .ok value →
    Tally mode start s.events (after run s).events (flag value)

namespace Tallies

variable {α β : Type} {mode : SearchMode} {start : Bool} {flag : α → Bool} {flag' : β → Bool}

theorem pure {value : α} (h : flag value = start) :
    Tallies mode start flag (pure value : Run α) := by
  intro s found hout
  cases hout
  rw [h]
  exact Tally.refl s.events

theorem bind {x : Run α} {f : α → Run β} (hx : Tallies mode start flag x)
    (hf : ∀ value, Tallies mode (flag value) flag' (f value)) :
    Tallies mode start flag' (x >>= f) := by
  intro s result hout
  obtain ⟨value, hvalue, hresult, hafter⟩ := bind_ok hout
  rw [hafter]
  exact (hx s value hvalue).trans (hf value _ result hresult)

/-- Look-ups leave the flag alone. -/
theorem quiet_bind {x : Run α} {f : α → Run β} (hx : Keeps Quiet x)
    (hf : ∀ value, Tallies mode start flag' (f value)) : Tallies mode start flag' (x >>= f) := by
  intro s result hout
  obtain ⟨value, -, hresult, hafter⟩ := bind_ok hout
  rw [hafter]
  exact (Tally.quiet (hx s)).trans (hf value _ result hresult)

/-- The result of a run with its flag joined to one that stands already. -/
theorem map_and {x : Run α} {f : α → β} (hx : Tallies mode true flag x)
    (hf : ∀ value, flag' (f value) = (start && flag value)) :
    Tallies mode start flag' (x >>= fun value => Pure.pure (f value)) := by
  intro s result hout
  obtain ⟨value, hvalue, hresult, hafter⟩ := bind_ok hout
  cases hresult
  rw [hafter, hf value]
  exact (hx s value hvalue).and start

theorem foldlM {step : β → α → Run β}
    (hstep : ∀ state item, Tallies mode (flag' state) flag' (step state item)) (items : List α)
    (state : β) : Tallies mode (flag' state) flag' (items.foldlM step state) := by
  induction items generalizing state with
  | nil => exact pure rfl
  | cons item items ih =>
    rw [List.foldlM_cons]
    exact bind (hstep state item) fun next => ih next

variable {nested : Context → Run Resolution} {ctx : Context} {dir : Path} {stack : List ModuleFrame}

section Search

variable (hnested : ∀ child, Tallies mode true Resolution.cacheable (nested child)) {s : Session}
  (ws : Workspace)

include hnested

theorem expandOne (expansion : Expansion) (ref : Reference) :
    Tallies mode expansion.cacheable Expansion.cacheable
      (expandOne nested ctx dir stack expansion ref) := by
  intro s result hout
  unfold TerraformTrace.expandOne at hout ⊢
  obtain ⟨found, hfound, hresult, hafter⟩ := bind_ok hout
  have htally := (hnested _ s found hfound).and expansion.cacheable
  rw [hafter]
  cases hvalue : found.value with
  | some value =>
    simp only [hvalue] at hresult ⊢
    cases hresult
    exact htally
  | none =>
    simp only [hvalue] at hresult ⊢
    cases hresult
    exact htally

theorem expand (value : Text) :
    Tallies mode true Resolution.cacheable (expand nested ctx dir stack value) := by
  unfold TerraformTrace.expand
  refine bind (foldlM (expandOne hnested) _ _) fun expansion => ?_
  split
  · split
    · exact pure rfl
    · exact pure rfl
  · exact pure rfl

theorem settle (found : Option Text) :
    Tallies mode true SearchOutcome.cacheable (settle nested ctx found) := by
  cases found with
  | none => exact pure rfl
  | some value => exact bind (expand hnested value) fun _ => pure rfl

omit hnested in
theorem cacheable_of_settle_missed {found : Option Text} {cacheable : Bool}
    (hout : outcome (TerraformTrace.settle nested ctx found) s = .ok (.missed cacheable)) :
    cacheable = true := by
  cases found with
  | none =>
    cases hout
    rfl
  | some value =>
    obtain ⟨resolution, -, hresult, -⟩ := bind_ok hout
    cases hresult

theorem chaseOutput : Tallies mode true Resolution.cacheable (chaseOutput ws mode nested ctx) := by
  unfold TerraformTrace.chaseOutput
  split
  · exact pure rfl
  · refine quiet_bind (admits_quiet.moduleCallsOf ws _) fun calls => ?_
    split
    · exact pure rfl
    · refine quiet_bind (admits_quiet.modulePath ws _ _) fun target => ?_
      split
      · exact pure rfl
      · refine quiet_bind (admits_quiet.lookupDeclared ws (by decide) _ _ _) fun output => ?_
        split
        · exact pure rfl
        · exact expand hnested _

theorem searchParent : Tallies mode true Resolution.cacheable (searchParent ws nested ctx) := by
  unfold TerraformTrace.searchParent
  dsimp only
  split
  · exact pure rfl
  · refine quiet_bind (admits_quiet.checkDirectory ws _) fun isDirectory => ?_
    split
    · exact pure rfl
    · exact hnested _

/-! Call sites are tried one after the other. `first` is the point where the first one
was tried; that the flag is down means from there on that an argument was lost. -/

omit hnested in
theorem threadArguments
    (hnested : ∀ child, Tallies .enhanced true Resolution.cacheable (nested child))
    (sites : List (ModuleCall × List ModuleFrame)) {cacheable : Bool} {first : List Event}
    {result : Resolution} (h : Tally .enhanced true first s.events cacheable)
    (hdropped : cacheable = false → Occurs Event.isLost first s.events)
    (hout : outcome (threadArguments nested ctx cacheable sites) s = .ok result) :
    Tally .enhanced true first (after (threadArguments nested ctx cacheable sites) s).events
        result.cacheable ∧
      (result.value = none → result.cacheable = false →
        Occurs Event.isLost first
          (after (threadArguments nested ctx cacheable sites) s).events) := by
  induction sites generalizing cacheable s with
  | nil =>
    cases hout
    exact ⟨h, fun _ => hdropped⟩
  | cons site sites ih =>
    obtain ⟨call, stack⟩ := site
    unfold TerraformTrace.threadArguments at hout ⊢
    split at hout
    · exact ih h hdropped hout
    next argument hargument =>
      obtain ⟨threaded, hthreaded, hrest, hafter⟩ := bind_ok hout
      obtain ⟨-, -, hrest, hafter'⟩ := bind_ok hrest
      rw [hafter, hafter']
      have htally := (expand hnested argument s threaded hthreaded).threaded ctx call threaded.value
      by_cases hvalue : threaded.value.isSome = true
      · -- a value is returned with its own flag, whatever the sites before it came to
        rw [if_pos hvalue] at hrest ⊢
        cases hrest
        refine ⟨h.supersede (fun hflag => ⟨rfl, hdropped hflag⟩) htally, fun hnone => ?_⟩
        rw [hnone] at hvalue
        cases hvalue
      · rw [if_neg hvalue] at hrest ⊢
        refine ih (h.trans (htally.and cacheable)) (fun hflag => ?_) hrest
        rcases Bool.and_eq_false_iff.mp hflag with hflag | hflag
        · exact (hdropped hflag).widen (List.suffix_refl _) htally.grows
        · -- the argument that was just tried is the lost one
          have hlost : (Event.threaded ctx call threaded.value threaded.cacheable).isLost := by
            rw [Option.not_isSome_iff_eq_none.mp hvalue, hflag]
            rfl
          have hgrows := (expand hnested argument s threaded hthreaded).grows
          exact (Occurs.cons hlost).widen (h.grows.trans hgrows) (List.suffix_refl _)

theorem threadedInput {result : Resolution}
    (hout : outcome (threadedInput ws mode nested ctx) s = .ok result) :
    Tally mode true s.events (after (threadedInput ws mode nested ctx) s).events result.cacheable ∧
      (result.value = none → result.cacheable = false → mode = .enhanced ∧
        Occurs Event.isLost s.events (after (threadedInput ws mode nested ctx) s).events) := by
  cases mode with
  | plain =>
    cases hout
    exact ⟨Tally.refl _, fun _ hflag => by cases hflag⟩
  | enhanced =>
    unfold TerraformTrace.threadedInput threadInput at hout ⊢
    obtain ⟨sites, -, hrest, hafter⟩ := bind_ok hout
    have hquiet := admits_quiet.callSites ws ctx s
    dsimp only at hafter ⊢
    rw [hafter]
    obtain ⟨htally, hlost⟩ := threadArguments hnested sites (Tally.quiet hquiet)
      (fun hflag => by cases hflag) hrest
    exact ⟨htally, fun hnone hflag => ⟨rfl, hlost hnone hflag⟩⟩

theorem searchDefault {first : List Event} {threaded : Resolution}
    {result : SearchOutcome} (h : Tally mode true first s.events threaded.cacheable)
    (hdropped : threaded.value = none → threaded.cacheable = false →
      mode = .enhanced ∧ Occurs Event.isLost first s.events)
    (hout : outcome (searchDefault ws nested ctx threaded) s = .ok result) :
    Tally mode true first (after (searchDefault ws nested ctx threaded) s).events
      result.cacheable := by
  unfold TerraformTrace.searchDefault at hout ⊢
  by_cases hvalue : threaded.value.isSome = true
  · rw [if_pos hvalue] at hout ⊢
    cases hout
    exact h
  · rw [if_neg hvalue] at hout ⊢
    obtain ⟨default, -, hrest, hafter⟩ := bind_ok hout
    obtain ⟨found, hfound, hrest, hafter'⟩ := bind_ok hrest
    have hkind : ResultKind.variables.IsLookup := by decide
    have hquiet := admits_quiet.lookupDeclared ws hkind ctx.reference.name
      ctx.directory (variableDefault? · ctx.reference.name) s
    have hsettled := (Tally.quiet hquiet).trans (settle hnested default _ found hfound)
    rw [hafter, hafter']
    cases found with
    | settled resolution =>
      cases hrest
      exact h.supersede (hdropped (Option.not_isSome_iff_eq_none.mp hvalue)) hsettled
    | missed cacheable =>
      cases hrest
      have hflag : cacheable = true := cacheable_of_settle_missed hfound
      have hboth := h.trans (hsettled.and threaded.cacheable)
      rw [show (SearchOutcome.missed cacheable).cacheable = true from hflag, Bool.and_true]
        at hboth
      exact hboth

theorem searchInput :
    Tallies mode true SearchOutcome.cacheable (searchInput ws mode nested ctx) := by
  rw [searchInput_eq]
  refine quiet_bind (admits_quiet.firstFound_input ws _ _) fun found => ?_
  split
  · exact settle hnested found
  · intro s result hout
    obtain ⟨threaded, hthreaded, hrest, hafter⟩ := bind_ok hout
    obtain ⟨htally, hdropped⟩ := threadedInput hnested ws hthreaded
    rw [hafter]
    exact searchDefault hnested ws htally hdropped hrest

theorem searchDirectory :
    Tallies mode true SearchOutcome.cacheable (searchDirectory ws mode nested ctx) := by
  unfold TerraformTrace.searchDirectory
  split
  · exact searchInput hnested ws
  · exact quiet_bind (admits_quiet.lookupDeclared ws (by decide) _ _ _) (settle hnested)
  · refine bind (chaseOutput hnested ws) fun chased => ?_
    split
    · exact pure rfl
    · exact pure rfl
  · exact quiet_bind (admits_quiet.lookupData ws _ _) (settle hnested)

theorem searchSymbol :
    Tallies mode true Resolution.cacheable (searchSymbol ws mode nested ctx) := by
  unfold TerraformTrace.searchSymbol
  refine bind (searchDirectory hnested ws) fun found => ?_
  split
  · exact pure rfl
  · exact map_and (searchParent hnested ws) fun above => Bool.and_comm _ _

end Search

theorem frame {compute : Run Resolution}
    (hcompute : Tallies mode true Resolution.cacheable compute) :
    Tallies mode true Resolution.cacheable (frame mode ctx compute) := by
  intro s result hout
  have hends := frameEnds mode ctx compute s
  rw [hout] at hends
  generalize hs' : after (TerraformTrace.frame mode ctx compute) s = s' at hends
  have hentered : Tally mode true s.events (.entered ctx :: s.events) true :=
    Tally.cons (by simp [Event.isCut]) (by simp [Event.isLost])
  have hreturned : ∀ {events value flag}, Tally mode flag events
      (.returned mode ctx value flag :: events) flag :=
    Tally.cons (by simp [Event.isCut]) (by simp [Event.isLost])
  cases hends with
  | cut hcycle => exact hentered.trans ((Tally.cut ctx).trans hreturned)
  | hit hcycle known hget => exact hentered.trans hreturned
  | stored hcycle hget value hvalue =>
    have hstored : Tally mode true (after compute (opened mode ctx s)).events
        (.stored (frameKey mode ctx) :: (after compute (opened mode ctx s)).events)
        true := Tally.cons (by simp [Event.isCut]) (by simp [Event.isLost])
    exact hentered.trans ((hcompute _ _ hvalue).trans (hstored.trans hreturned))
  | unstored hcycle hget value hvalue =>
    exact hentered.trans ((hcompute _ _ hvalue).trans hreturned)

/-- The computation of a frame whose reference has properties. -/
theorem projected {compute : Run Resolution}
    (hcompute : Tallies mode true Resolution.cacheable compute) (properties : List Text) :
    Tallies mode true Resolution.cacheable (do
      let base ← compute
      let value ← project base.value properties
      return { value, cacheable := base.cacheable }) :=
  bind hcompute fun _ => quiet_bind (admits_quiet.project properties _) fun _ => pure rfl

end Tallies

/-- The flag of every frame agrees with the record. -/
theorem tallies_resolveFrame (ws : Workspace) (mode : SearchMode) (left : Nat) (ctx : Context) :
    Tallies mode true Resolution.cacheable (resolveFrame ws mode left ctx) := by
  induction left generalizing ctx with
  | zero =>
    intro s result hout
    cases hout
    exact (Tally.cons (by simp [Event.isCut]) (by simp [Event.isLost])).trans
      (Tally.cons (by simp [Event.isCut]) (by simp [Event.isLost]))
  | succ left ih =>
    unfold resolveFrame
    dsimp only
    split
    · exact Tallies.frame (Tallies.searchSymbol ih ws)
    · exact Tallies.frame (Tallies.projected
        (Tallies.frame (Tallies.searchSymbol ih ws)) _)

end TerraformTrace
