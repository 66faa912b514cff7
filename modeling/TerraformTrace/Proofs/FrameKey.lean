import TerraformTrace.Proofs.Frame

/-!
# TerraformTrace.Proofs.FrameKey

What the key of a frame tells of the frame, whatever workspace it is in. In a key the calls of a
stack are one text: the directory and the name of each call with two colons between them, and bars
between the calls. Nothing is escaped, so a directory whose path starts like a call, a bar and
another directory makes one call look like two (`join_signature_eq`).

**Without such a directory a key tells its frame** (`frame_of_keyParts`). What a path has to
imitate depends on how all the directories begin, the *opening*. If nothing is known of them, a
call and a bar are enough. If they are all absolute, a slash has to follow, and if they are all in
one place, the path of that place.
-/

namespace TerraformTrace

open Hcl

namespace Text

/-- A text without the mark that starts a text with it ends before the mark. -/
theorem prefix_of_prefix_append_cons {mark : Char} {opening front rest : Text}
    (hmark : mark ∉ opening) (h : opening <+: front ++ mark :: rest) : opening <+: front := by
  rcases List.prefix_or_prefix_of_prefix h (List.prefix_append front _) with hfront | ⟨tail, rfl⟩
  · exact hfront
  · cases tail with
    | nil => simp
    | cons c tail =>
      obtain ⟨rfl, -⟩ := List.cons_prefix_cons.mp ((List.prefix_append_right_inj front).mp h)
      simp at hmark

theorem join_eq_of_joinRest_eq {mark : Char} {xs ys : List Text}
    (h : joinRest [mark] xs = joinRest [mark] ys) : join [mark] xs = join [mark] ys := by
  cases xs with
  | nil =>
    cases ys with
    | nil => rfl
    | cons y ys => cases h
  | cons x xs =>
    cases ys with
    | nil => cases h
    | cons y ys => exact List.append_cancel_left h

end Text

/-! ### Paths and their texts -/

namespace Path

variable {parts : List Text}

theorem head?_join_ne (h : ∀ part ∈ parts, part ≠ [] ∧ '/' ∉ part ∧ part ≠ ['.']) :
    (Text.join ['/'] parts).head? ≠ some '/' := by
  cases parts with
  | nil => nofun
  | cons part parts =>
    obtain ⟨hne, hslash, -⟩ := h part List.mem_cons_self
    rw [Text.join_cons]
    cases part with
    | nil => exact absurd rfl hne
    | cons c part =>
      intro heq
      exact hslash (Option.some.inj heq ▸ List.mem_cons_self)

theorem takeWhile_slash_join (h : ∀ part ∈ parts, part ≠ [] ∧ '/' ∉ part ∧ part ≠ ['.']) :
    (Text.join ['/'] parts).takeWhile (· = '/') = [] := by
  have hhead := head?_join_ne h
  cases hbody : Text.join ['/'] parts with
  | nil => rfl
  | cons c body =>
    rw [hbody] at hhead
    exact List.takeWhile_cons_of_neg (by simpa using hhead)

/-- The components are read back from between the slashes. -/
theorem filter_splitAt_join (h : ∀ part ∈ parts, part ≠ [] ∧ '/' ∉ part ∧ part ≠ ['.']) :
    ((Text.splitAt '/' (Text.join ['/'] parts)).filter fun part => part ≠ [] && part ≠ ['.']) =
      parts := by
  cases parts with
  | nil => rfl
  | cons part parts =>
    rw [Text.splitAt_join fun other hmem => (h other hmem).2.1, List.filter_eq_self]
    intro other hmem
    simp [(h other hmem).1, (h other hmem).2.2]

/-- A path is read back from its text. -/
theorem IsTidy.ofText_toText {path : Path} (h : path.IsTidy) : ofText path.toText = path := by
  obtain ⟨anchor, parts⟩ := path
  have hslashes := takeWhile_slash_join h
  have hparts := filter_splitAt_join h
  -- a leading slash only adds an empty component, which does not count
  have hslash : ∀ text : Text, Text.splitAt '/' ('/' :: text) = [] :: Text.splitAt '/' text :=
    fun text => Text.splitAt_append_cons text List.not_mem_nil
  cases anchor with
  | relative =>
    cases hbody : Text.join ['/'] parts with
    | nil =>
      obtain rfl := Text.join_eq_nil (fun part hmem => (h part hmem).1) hbody
      rfl
    | cons c body =>
      rw [hbody] at hslashes hparts
      simpa [toText, ofText, anchorOf, hbody, hslashes] using hparts
  | root =>
    simpa [toText, ofText, anchorOf, hslashes, hslash] using hparts
  | doubleRoot =>
    simpa [toText, ofText, anchorOf, hslashes, hslash] using hparts

/-- The text of a path determines the path. -/
theorem IsTidy.toText_inj {p q : Path} (hp : p.IsTidy) (hq : q.IsTidy)
    (h : p.toText = q.toText) : p = q := by
  rw [← hp.ofText_toText, h, hq.ofText_toText]

end Path

/-! ### Calls in the text of a stack -/

namespace ModuleFrame

/-- The call of a frame: the directory it stands in and the name of the module. -/
def caller (frame : ModuleFrame) : Path × Text := (frame.call.directory, frame.call.name)

/-- A call that cannot be mistaken for two. Its directory begins with the opening, and its path
does not start like another call, a bar and the opening again. -/
structure IsLegible (opening : Text) (frame : ModuleFrame) : Prop where
  name : Text.isName frame.call.name = true
  tidy : frame.call.directory.IsTidy
  opens : opening <+: frame.call.directory.toText
  single : ∀ other : ModuleFrame, Text.isName other.call.name = true →
    other.call.directory.IsTidy →
    ¬ other.signature ++ '|' :: opening <+: frame.call.directory.toText

/-- A directory that starts like a call makes one call look like two. -/
theorem join_signature_eq {outer inner both : ModuleFrame} (hdir : both.call.directory.toText =
      outer.signature ++ '|' :: inner.call.directory.toText)
    (hname : both.call.name = inner.call.name) :
    Text.join ['|'] [both.signature] = Text.join ['|'] [outer.signature, inner.signature] := by
  simp [Text.join, signature, hdir, hname]

variable {opening : Text} {frame other : ModuleFrame}

namespace IsLegible

/-- It is enough that no bar in the path comes before the opening. -/
theorem of_no_bar (hname : Text.isName frame.call.name = true)
    (htidy : frame.call.directory.IsTidy) (hopens : opening <+: frame.call.directory.toText)
    (hbar : ¬ '|' :: opening <:+: frame.call.directory.toText) : frame.IsLegible opening where
  name := hname
  tidy := htidy
  opens := hopens
  single _ _ _ hstart := hbar ((List.suffix_append ..).isInfix.trans hstart.isInfix)

theorem bar_not_mem_name (h : frame.IsLegible opening) : '|' ∉ frame.call.name :=
  not_mem_of_isName (by decide) (by decide) h.name

/-- The text of a call determines the call. -/
theorem caller_eq (h : frame.IsLegible opening) (h' : other.IsLegible opening)
    (heq : frame.signature = other.signature) : frame.caller = other.caller := by
  obtain ⟨htext, hname⟩ := of_signature_eq h.name h'.name heq
  exact Prod.ext (h.tidy.toText_inj h'.tidy htext) hname

/-- The text of a call is not that of another call followed by a bar and more, if what follows
can be the beginning of a directory. -/
theorem signature_ne (hcolon : ':' ∉ opening) (h : frame.IsLegible opening)
    (h' : other.IsLegible opening) {more rest : Text} (hopening : opening <+: more ++ rest) :
    other.signature ≠ frame.signature ++ '|' :: more := by
  intro heq
  have hsplit : other.call.directory.toText ++ (':' :: ':' :: other.call.name) =
      frame.signature ++ '|' :: more := by
    rw [← heq]
    simp [signature]
  rcases List.append_eq_append_iff.mp hsplit with ⟨front, -, hfront⟩ | ⟨back, hback, hmore⟩
  · -- the bar would be in the name
    have hbar : '|' ∈ ':' :: ':' :: other.call.name := hfront ▸ by simp
    simp [h'.bar_not_mem_name] at hbar
  · cases back with
    | nil => simp at hmore
    | cons c back =>
      obtain ⟨rfl, rfl⟩ := List.cons.inj hmore
      -- the bar is in the directory, and the opening after it as well
      have hcolons : opening <+: back ++ ':' :: (':' :: other.call.name ++ rest) := by
        simpa using hopening
      have hopens := Text.prefix_of_prefix_append_cons hcolon hcolons
      refine h'.single frame h.name h.tidy ?_
      rw [hback]
      exact (List.prefix_append_right_inj _).mpr ((List.prefix_cons_inj _).mpr hopens)

end IsLegible

/-- What follows a call in the text of a stack is nothing, or a bar and a directory. -/
theorem opens_of_joinRest {stack : List ModuleFrame}
    (hstack : ∀ frame ∈ stack, frame.IsLegible opening) {more rest : Text}
    (h : Text.joinRest ['|'] (stack.map (·.signature)) = more ++ rest) :
    more = [] ∨ ∃ after, more = '|' :: after ∧ opening <+: after ++ rest := by
  cases more with
  | nil => exact Or.inl rfl
  | cons c after =>
    cases stack with
    | nil => cases h
    | cons frame stack =>
      rw [List.map_cons, Text.joinRest, Text.join_cons] at h
      obtain ⟨rfl, hafter⟩ := List.cons.inj h
      have hopens := (hstack frame List.mem_cons_self).opens
      refine Or.inr ⟨after, rfl, ?_⟩
      change opening <+: after.append rest
      rw [← hafter]
      simpa [signature] using hopens.trans (List.prefix_append _ _)

/-- The text of a stack determines the text of its first call, and what follows it. -/
theorem signature_eq_of_join_eq (hcolon : ':' ∉ opening) {stack stack' : List ModuleFrame}
    (h : ∀ f ∈ frame :: stack, f.IsLegible opening)
    (h' : ∀ f ∈ other :: stack', f.IsLegible opening)
    (heq : Text.join ['|'] ((frame :: stack).map (·.signature)) =
      Text.join ['|'] ((other :: stack').map (·.signature))) :
    frame.signature = other.signature ∧
      Text.joinRest ['|'] (stack.map (·.signature)) =
        Text.joinRest ['|'] (stack'.map (·.signature)) := by
  obtain ⟨hframe, hstack⟩ := List.forall_mem_cons.mp h
  obtain ⟨hother, hstack'⟩ := List.forall_mem_cons.mp h'
  rw [List.map_cons, List.map_cons, Text.join_cons, Text.join_cons] at heq
  -- one of the two calls starts the other; what it lacks starts what follows it
  rcases List.append_eq_append_iff.mp heq with ⟨more, hmore, hrest⟩ | ⟨more, hmore, hrest⟩
  · rcases opens_of_joinRest hstack hrest with rfl | ⟨after, rfl, hopens⟩
    · exact ⟨by simpa using hmore.symm, by simpa using hrest⟩
    · exact absurd hmore (hframe.signature_ne hcolon hother hopens)
  · rcases opens_of_joinRest hstack' hrest with rfl | ⟨after, rfl, hopens⟩
    · exact ⟨by simpa using hmore, by simpa using hrest.symm⟩
    · exact absurd hmore (hother.signature_ne hcolon hframe hopens)

/-- The text of a stack determines its calls. -/
theorem callers_eq_of_join_eq (hcolon : ':' ∉ opening) {stack stack' : List ModuleFrame}
    (h : ∀ f ∈ stack, f.IsLegible opening) (h' : ∀ f ∈ stack', f.IsLegible opening)
    (heq : Text.join ['|'] (stack.map (·.signature)) = Text.join ['|'] (stack'.map (·.signature))) :
    stack.map caller = stack'.map caller := by
  have hne : ∀ (stack : List ModuleFrame), ∀ piece ∈ stack.map (·.signature), piece ≠ [] := by
    intro stack piece hpiece
    obtain ⟨f, -, rfl⟩ := List.mem_map.mp hpiece
    simp [signature]
  induction stack generalizing stack' with
  | nil =>
    have hnil := Text.join_eq_nil (hne stack') heq.symm
    rw [List.map_eq_nil_iff.mp hnil]
  | cons frame stack ih =>
    cases stack' with
    | nil => cases Text.join_eq_nil (hne _) heq
    | cons other stack' =>
      obtain ⟨hfirst, hrest⟩ := signature_eq_of_join_eq hcolon h h' heq
      obtain ⟨hframe, hstack⟩ := List.forall_mem_cons.mp h
      obtain ⟨hother, hstack'⟩ := List.forall_mem_cons.mp h'
      rw [List.map_cons, List.map_cons, hframe.caller_eq hother hfirst,
        ih hstack hstack' (Text.join_eq_of_joinRest_eq hrest)]

end ModuleFrame

/-! ### Keys -/

namespace Context

/-- A context of a well-formed reference in a directory, reached through calls that cannot be
mistaken. -/
structure IsLegible (opening : Text) (ctx : Context) : Prop where
  reference : ctx.reference.IsWellFormed
  directory : ctx.directory.IsTidy
  calls : ∀ frame ∈ ctx.stack, frame.IsLegible opening

/-- Frames with one key have one reference, one directory, one depth and the same calls around
them, if no directory of a call starts like a call, a bar and the opening of the directories. -/
theorem frame_of_keyParts {opening : Text} (hcolon : ':' ∉ opening) {ctx other : Context}
    (h : ctx.IsLegible opening) (h' : other.IsLegible opening)
    (heq : ctx.keyParts = other.keyParts) :
    ctx.reference = other.reference ∧ ctx.directory = other.directory ∧ ctx.depth = other.depth ∧
      ctx.stack.map ModuleFrame.caller = other.stack.map ModuleFrame.caller := by
  unfold keyParts at heq
  simp only [List.cons.injEq, and_true] at heq
  obtain ⟨href, hdir, hdepth, hstack⟩ := heq
  exact ⟨h.reference.text_inj h'.reference href,
    h.directory.toText_inj h'.directory hdir, Text.ofNat_inj hdepth,
    ModuleFrame.callers_eq_of_join_eq hcolon h.calls h'.calls hstack⟩

/-- A frame of the variable `x` in the directory `/d`, one below the frame it is resolved for. -/
def nested (visited : List (Text × Text)) (stack : List ModuleFrame) : Context where
  reference := .ofInput "x".toList
  directory := Path.ofText "/d".toList
  depth := 1
  visited
  stack

/-- A call of the module in `/d`. -/
def calling (dir name : Text) : ModuleFrame :=
  ⟨⟨name, "/d".toList, [], Path.ofText dir⟩, Path.ofText "/d".toList⟩

/-- The directories may have bars and pairs of colons in them. -/
theorem frame_of_keyParts_bars :
    let stack := [calling "/a|b::c".toList "m".toList, calling "/a|b::c|d:".toList "n".toList]
    let ctx := nested [] stack
    let other := nested [("/".toList, "var.y".toList)] stack
    ctx ≠ other ∧ ctx.IsLegible ['/'] ∧ other.IsLegible ['/'] ∧ ctx.keyParts = other.keyParts ∧
      ctx.reference = other.reference ∧ ctx.directory = other.directory ∧
      ctx.depth = other.depth ∧
      ctx.stack.map ModuleFrame.caller = other.stack.map ModuleFrame.caller := by
  intro stack ctx other
  have hcalls : ∀ frame ∈ stack, frame.IsLegible ['/'] := by
    intro frame hframe
    have hall : ∀ f ∈ stack, Text.isName f.call.name = true ∧ f.call.directory.IsTidy ∧
        ['/'] <+: f.call.directory.toText ∧ ¬ ['|', '/'] <:+: f.call.directory.toText := by
      decide +kernel
    obtain ⟨hname, htidy, hopens, hbar⟩ := hall frame hframe
    exact .of_no_bar hname htidy hopens hbar
  have hctx : ctx.IsLegible ['/'] := ⟨by decide, by decide, hcalls⟩
  have hother : other.IsLegible ['/'] := ⟨by decide, by decide, hcalls⟩
  have hkeys : ctx.keyParts = other.keyParts := rfl
  exact ⟨by decide, hctx, hother, hkeys,
    frame_of_keyParts (by decide) hctx hother hkeys⟩

/-- Two calls, one inside the other, have the key of a single call in a third directory. -/
theorem keyParts_alike :
    let outer := calling "/a".toList "m".toList
    let inner := calling "/b".toList "n".toList
    let both := calling "/a::m|/b".toList "n".toList
    let ctx := nested [] [outer, inner]
    let other := nested [] [both]
    ctx.reference.IsWellFormed ∧ other.reference.IsWellFormed ∧ (∀ frame ∈ ctx.stack ++ other.stack,
        Text.isName frame.call.name = true ∧ frame.call.directory.IsNormal) ∧
      ctx.keyParts = other.keyParts ∧
      ctx.stack.map ModuleFrame.caller ≠ other.stack.map ModuleFrame.caller := by
  intro outer inner both ctx other
  have hdir : both.call.directory.toText =
      outer.signature ++ '|' :: inner.call.directory.toText := by
    decide +kernel
  have hstack := ModuleFrame.join_signature_eq hdir rfl
  have hkeys : ctx.keyParts = other.keyParts := by
    simp only [ctx, other, keyParts, nested, List.map_cons, List.map_nil, hstack]
  exact ⟨by decide, by decide, by decide +kernel, hkeys, by decide +kernel⟩

end Context

end TerraformTrace
