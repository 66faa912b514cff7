import TerraformTrace.Proofs.Indistinct
import TerraformTrace.Proofs.ReferenceSyntax

/-!
# TerraformTrace.Proofs.PropertyPaths

Two ways to a property. It can be taken of the value that a request came to, or it can be written
at the end of the reference that is asked for. In the second case the engine takes it in a frame of
its own, inside of which the symbol has another. **Both ways lead to the same**
(`property_paths_agree`), if nothing is remembered yet.

The frame of the whole reference then only asks the cache in vain, which no run can see
(`Session.RemembersAs`). So **a reference comes to the projected value of its symbol**
(`value_resolveFrame`), and one more property is one more projection.
-/

namespace TerraformTrace

open Text

/-! ### One more property -/

namespace Reference

variable {ref : Reference} {property : Text}

/-- The reference to a property of what a reference stands for. -/
def select (ref : Reference) (property : Text) : Reference :=
  { kind := ref.kind
    segments := ref.segments ++ [property]
    enough := by
      have := ref.enough
      simp
      omega }

theorem properties_select : (ref.select property).properties = ref.properties ++ [property] :=
  List.drop_append_of_le_length ref.enough

theorem base_select : (ref.select property).base = ref.base := by
  have hsymbol : (ref.select property).symbol = ref.symbol :=
    List.take_append_of_le_length ref.enough
  simp only [base, hsymbol]
  rfl

theorem text_select : (ref.select property).text = ref.text ++ '.' :: property := by
  have hjoin (first : Text) (segments : List Text) :
      join ['.'] (first :: (segments ++ [property])) =
        join ['.'] (first :: segments) ++ '.' :: property := by
    induction segments generalizing first with
    | nil => simp [join]
    | cons next segments ih =>
      rw [List.cons_append, join_cons_of_ne_nil (List.cons_ne_nil _ _), ih,
        join_cons_of_ne_nil (List.cons_ne_nil _ _), List.append_assoc, List.cons_append]
  exact hjoin ref.kind.word ref.segments

theorem parse_select (href : ref.IsWellFormed) (hproperty : IsSegment property) :
    parse (some (ref.text ++ '.' :: property)) = .ok (ref.select property) := by
  have hformed : (ref.select property).IsWellFormed := by
    intro segment hsegment
    rcases List.mem_append.mp hsegment with hsegment | hsegment
    · exact href segment hsegment
    · obtain rfl := List.mem_singleton.mp hsegment
      exact isName_iff_isSegment.mpr hproperty
  rw [← text_select]
  exact hformed.parse_text

end Reference

/-! ### Projection -/

theorem outcome_project (value : Option Text) (properties : List Text) (s : Session) :
    outcome (project value properties) s = Direct.project value properties := by
  induction properties generalizing value with
  | nil => cases value <;> rfl
  | cons property properties ih =>
    cases value with
    | none => rfl
    | some value =>
      unfold project Direct.project
      cases Literal.property? value property with
      | ok value => exact ih value
      | error error => cases error <;> rfl

theorem Direct.project_append (value : Option Text) (properties more : List Text) :
    Direct.project value (properties ++ more) =
      Direct.project value properties >>= fun value => Direct.project value more := by
  induction properties generalizing value with
  | nil => cases value <;> rfl
  | cons property properties ih =>
    cases value with
    | none => cases more <;> rfl
    | some value =>
      rw [List.cons_append, Direct.project, Direct.project]
      cases Literal.property? value property with
      | ok value => exact ih value
      | error error => cases error <;> cases more <;> rfl

/-! ### Frames without memory -/

section Frames

variable {s : Session} (hempty : s.cache.entries = []) (mode : SearchMode)

include hempty

theorem opened_remembersAs (ctx : Context) : (opened mode ctx s).RemembersAs s := by
  refine ⟨?_, rfl⟩
  rw [opened, Cache.get_of_empty hempty]
  rfl

variable (ws : Workspace)

omit hempty in
theorem comesTo_refl : ws.ComesTo ws.disk :=
  ⟨fun _ => rfl, fun _ _ => rfl, fun _ _ => rfl, fun _ => rfl⟩

omit hempty in
/-- The frame of a reference with properties stands around that of its symbol. -/
theorem resolveFrame_of_properties (left : Nat) {ctx : Context}
    (h : ctx.reference.properties ≠ []) :
    resolveFrame ws mode (left + 1) ctx = frame mode ctx (do
      let base ← resolveFrame ws mode (left + 1) (ctx.withReference ctx.reference.base)
      let value ← project base.value ctx.reference.properties
      return { value, cacheable := base.cacheable }) := by
  have hsymbol : (ctx.withReference ctx.reference.base).reference.properties = [] :=
    ctx.reference.base_properties
  rw [resolveFrame, if_neg (by simpa using h), resolveFrame, if_pos (by simp [hsymbol])]

/-- **A reference comes to the projected value of its symbol.** -/
theorem value_resolveFrame (left : Nat) {ctx : Context} (hvisited : ctx.visited = []) :
    Resolution.value <$> outcome (resolveFrame ws mode (left + 1) ctx) s =
      outcome (resolveFrame ws mode (left + 1)
        (ctx.withReference ctx.reference.base)) s >>= fun base =>
        Direct.project base.value ctx.reference.properties := by
  by_cases hproperties : ctx.reference.properties = []
  · have hbase : ctx.withReference ctx.reference.base = ctx := by
      rw [Reference.base_eq hproperties]
      rfl
    rw [hbase, hproperties]
    cases outcome (resolveFrame ws mode (left + 1) ctx) s with
    | error abort => rfl
    | ok resolution => exact (Direct.project_nil resolution.value).symm
  · let symbol := resolveFrame ws mode (left + 1) (ctx.withReference ctx.reference.base)
    -- The frame around asks the cache, and the symbol cannot tell.
    have hsymbol : outcome symbol (opened mode ctx s) = outcome symbol s :=
      (Indistinct.resolveFrame (comesTo_refl ws) mode (left + 1) _ _ _
        (opened_remembersAs hempty mode ctx)).1
    rw [resolveFrame_of_properties mode ws left hproperties,
      outcome_frame_of_empty hempty hvisited, outcome_bind, hsymbol]
    show _ = outcome symbol s >>= _
    cases outcome symbol s with
    | error abort => rfl
    | ok base =>
      show Resolution.value <$> outcome
        (project base.value ctx.reference.properties >>= fun value =>
          pure { value, cacheable := base.cacheable }) _ = _
      rw [outcome_bind, outcome_project]
      show _ = Direct.project base.value ctx.reference.properties
      cases Direct.project base.value ctx.reference.properties <;> rfl

/-- One more property is one more projection. -/
theorem value_resolveFrom_select (ref : Reference) (property : Text) (dir : Path) :
    Resolution.value <$> outcome (resolveFrom ws mode (ref.select property) dir) s =
      (Resolution.value <$> outcome (resolveFrom ws mode ref dir) s) >>=
        fun value => Direct.project value [property] := by
  unfold resolveFrom
  rw [value_resolveFrame hempty mode ws _ rfl, value_resolveFrame hempty mode ws _ rfl]
  simp only [Context.withReference, Reference.base_select, Reference.properties_select,
    Direct.project_append, bind_assoc]

end Frames

/-! ### Requests -/

section Requests

variable {ws : Workspace} {mode : SearchMode} {wanted wanted' : Wanted}
  {ref : Reference} {property : Text}

theorem outcome_map {α β : Type} (x : Run α) (f : α → β) (s : Session) :
    outcome (x >>= fun value => pure (f value)) s = f <$> outcome x s := by
  rw [outcome_bind]
  cases outcome x s <;> rfl

theorem outcome_sought_select {s : Session} (hempty : s.cache.entries = [])
    (hwanted : wanted.reference? = some ref)
    (hwanted' : wanted'.reference? = some (ref.select property)) (start : Path) :
    outcome (sought ws mode wanted' start) s =
      outcome (sought ws mode wanted start) s >>= fun value => Direct.project value [property] := by
  unfold sought
  rw [hwanted, hwanted']
  dsimp only
  unfold usablePath
  cases start.usable with
  | error error => rfl
  | ok place =>
    simp only [pure_bind]
    split
    · rfl
    · obtain ⟨hdir, added, hafter, -⟩ := Observes.checkDirectory ws (ws.normalize place) s
      rw [outcome_bind, outcome_bind, hdir, hafter]
      cases Direct.isDirectory ws (ws.normalize place) with
      | false => rfl
      | true =>
        show outcome (_ >>= fun resolution => pure (Resolution.value resolution)) _ =
          outcome (_ >>= fun resolution => pure (Resolution.value resolution)) _ >>= _
        rw [outcome_map, outcome_map]
        have hunchanged :
            ({ s with events := added ++ s.events } : Session).cache.entries = [] := hempty
        exact value_resolveFrom_select hunchanged mode ws ref property _

/-- The answer to a request for a property. -/
theorem resolveProperty_fst (start : Path) (s : Session) :
    (resolveProperty ws wanted property start s).1 =
      answer (outcome (sought ws .enhanced wanted start) s >>= fun value =>
        Direct.project value [property]) := by
  have hbase : (resolveEnhanced ws wanted start s).1 = _ := resolveIn_fst
  rw [resolveProperty, query_bind, hbase]
  cases outcome (sought ws .enhanced wanted start) s with
  | error abort => rfl
  | ok value =>
    cases value with
    | none => rfl
    | some base =>
      show (answered _ (project (some base) [property]) _).1 =
        answer (Direct.project (some base) [property])
      rw [answered_apply, outcome_project]
      cases Direct.project (some base) [property] <;> rfl

end Requests

/-- **Two ways to a property lead to the same.** A fresh engine that is asked for a property of a
reference answers as one that is asked for the reference with the property at its end, from every
directory and for references of every kind, with properties of their own or without. -/
theorem property_paths_agree {ws : Workspace} {fresh : Session}
    (hfresh : Session.create ws.settings = .ok fresh) {wanted : Wanted}
    {ref : Reference} (hwanted : wanted.reference? = some ref)
    (href : ∀ segment ∈ ref.segments, Reference.IsSegment segment) {property : Text}
    (hproperty : Reference.IsSegment property) (start : Path) :
    (resolveProperty ws wanted property start fresh).1 =
      (resolveEnhanced ws (.text (some (ref.text ++ '.' :: property))) start fresh).1 := by
  have hempty : fresh.cache.entries = [] := (Session.empty_of_create hfresh).1
  have hlonger : (Wanted.text (some (ref.text ++ '.' :: property))).reference? =
      some (ref.select property) := by
    rw [Wanted.reference?, Reference.parse_select (Reference.isWellFormed_iff.mpr href) hproperty]
    rfl
  calc (resolveProperty ws wanted property start fresh).1
    _ = answer (outcome (sought ws .enhanced wanted start) fresh >>= fun value =>
        Direct.project value [property]) := resolveProperty_fst start fresh
    _ = answer (outcome (sought ws .enhanced
        (.text (some (ref.text ++ '.' :: property))) start) fresh) := by
      rw [outcome_sought_select hempty hwanted hlonger]
    _ = (resolveEnhanced ws (.text (some (ref.text ++ '.' :: property))) start
        fresh).1 := resolveIn_fst.symm

/-- A workspace whose tags have a field with fields of its own. -/
def tagged : Workspace := .ofFiles {} [(["main.tf"],
  "locals \x7b\n  zone = \"eu\"\n  tags = \x7b place = \x7b zone = local.zone \x7d \x7d\n\x7d\n")]

/-- The field of a field is found in both ways. -/
theorem tagged_paths_agree :
    (resolveProperty tagged (written "local.tags.place") "zone".toList here .fresh).1 =
      some "\"eu\"".toList ∧
    (resolveProperty tagged (written "local.tags.place") "zone".toList here .fresh).1 =
      (resolveEnhanced tagged (written "local.tags.place.zone") here .fresh).1 := by
  let ref : Reference := ⟨.localValue, ["tags".toList, "place".toList], by decide⟩
  have hwanted : (written "local.tags.place").reference? = some ref := by decide +kernel
  have hsegments : ∀ segment ∈ ref.segments, Reference.IsSegment segment :=
    Reference.isWellFormed_iff.mp (by decide)
  have hzone : Reference.IsSegment "zone".toList := Reference.isName_iff_isSegment.mp (by decide)
  exact ⟨by decide +kernel, property_paths_agree rfl hwanted hsegments hzone here⟩

end TerraformTrace
