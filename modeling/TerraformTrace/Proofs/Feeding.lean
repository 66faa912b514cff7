import TerraformTrace.Proofs.CallSite

/-!
# TerraformTrace.Proofs.Feeding

Modules that feed each other. A *feed* is a line of passages, each of which passes on the output
of the next, and the last one passes a text. The text comes through to the first output as long
as the passages lead through different inputs (`feed_answer_eq`).

**An input that is met again is cut.** The cycle test knows a frame by its directory and its
reference and does not look at the calls around it. So the second of two calls of one module does
not get the output of the first: the input of the first call counts as the one that is being
looked for, and what is passed to it is not seen. What is left is the default of an input on the
way, and the innermost one counts.

**What may be remembered.** A fresh engine remembers no frames, and as long as all frames have
come to nothing it remembers nothing else. Once a frame has a value, no other frame is entered
(`Comes`).
-/

namespace TerraformTrace

open Hcl

variable {nested : Context → Run Resolution}

/-! ### Runs from a fresh engine -/

/-- No result of a frame. -/
def NoFrames (_ : SearchMode) (_ : List Text) (_ : Remembered) : Prop := False

/-- The result of a frame that came to nothing. -/
def OnlyMisses (_ : SearchMode) (_ : List Text) (value : Remembered) : Prop := value = .text []

/-- Any result of a frame. -/
def AnyFrames (_ : SearchMode) (_ : List Text) (_ : Remembered) : Prop := True

/-- A run comes to a value on an engine on which no frame came to a value before. -/
def Comes (ws : Workspace) (x : Run Resolution) : Option Text → Prop
  | none => Leads (Recollects ws OnlyMisses) (Recollects ws OnlyMisses) x (·.value = none)
  | some text => Leads (Recollects ws NoFrames) (Recollects ws AnyFrames) x (·.value = some text)

namespace Comes

variable {ws : Workspace} {x : Run Resolution} {value : Option Text} {ctx : Context}

/-- A session without frames is one in which all frames came to nothing. -/
theorem leads_of_misses {P : Resolution → Prop} (h : LeadsOn ws OnlyMisses OnlyMisses x P) :
    LeadsOn ws NoFrames AnyFrames x P := by
  intro s hs
  obtain ⟨result, hresult, hP, hnext⟩ := h s (hs.widen nofun)
  exact ⟨result, hresult, hP, hnext.widen fun _ _ _ _ => trivial⟩

theorem leads (h : Comes ws x value) : LeadsOn ws NoFrames AnyFrames x (·.value = value) := by
  cases value with
  | some text => exact h
  | none => exact leads_of_misses h

theorem of_misses (h : LeadsOn ws OnlyMisses OnlyMisses x (·.value = value)) :
    Comes ws x value := by
  cases value with
  | none => exact h
  | some text => exact leads_of_misses h

theorem frame (hcut : ctx.isCycle = true → value = none) (h : Comes ws x value) :
    Comes ws (frame .enhanced ctx x) value := by
  cases value with
  | none =>
    refine Recollects.frame (P := (· = none)) (fun _ _ _ hmiss => hmiss) (fun _ => rfl)
      (fun known hknown => ?_) (fun found hfound => ?_) h
    · rw [show known = .text [] from hknown]
      rfl
    · rw [hfound]
      rfl
  | some text =>
    exact Recollects.frame (P := (· = some text)) nofun (fun hcycle => nomatch hcut hcycle) nofun
      (fun _ _ => trivial) h

theorem frame_of_isCycle (hcycle : ctx.isCycle = true) :
    Comes ws (TerraformTrace.frame .enhanced ctx x) none := by
  intro s hs
  unfold outcome after
  rw [TerraformTrace.frame_of_isCycle .enhanced x s hcycle]
  exact ⟨_, rfl, rfl, hs.of_events _⟩

/-- At the bound on depth a frame comes to nothing. -/
theorem resolveFrame_zero (mode : SearchMode) : Comes ws (resolveFrame ws mode 0 ctx) none :=
  Recollects.note_bind _ (Recollects.note_bind _ (Leads.pure rfl))

theorem resolveFrame_succ {left : Nat} (hproperties : ctx.reference.properties = [])
    (hcut : ctx.isCycle = true → value = none)
    (h : Comes ws (searchSymbol ws .enhanced (resolveFrame ws .enhanced left) ctx) value) :
    Comes ws (resolveFrame ws .enhanced (left + 1) ctx) value := by
  unfold resolveFrame
  dsimp only
  rw [hproperties, List.isEmpty_nil, if_pos rfl]
  exact frame hcut h

theorem resolveFrame_of_isCycle {left : Nat} (hproperties : ctx.reference.properties = [])
    (hcycle : ctx.isCycle = true) :
    Comes ws (resolveFrame ws .enhanced (left + 1) ctx) none := by
  unfold resolveFrame
  dsimp only
  rw [hproperties, List.isEmpty_nil, if_pos rfl]
  exact frame_of_isCycle hcycle

end Comes

/-! ### Directories that do not have a symbol -/

/-- The search for a symbol in a directory misses it. -/
def Workspace.Misses (ws : Workspace) (ref : Reference) (stack : List ModuleFrame)
    (dir : Path) : Prop :=
  ∀ (nested : Context → Run Resolution) (ctx : Context), ctx.reference = ref →
    ctx.directory = dir → ctx.stack = stack →
    Leads (Recollects ws OnlyMisses) (Recollects ws OnlyMisses)
      (searchDirectory ws .enhanced nested ctx) fun found => ∃ cacheable, found = .missed cacheable

/-- What a directory misses comes to nothing if it comes to nothing above. -/
theorem Comes.searchSymbol {ws : Workspace} {ctx : Context}
    (hmissed : LeadsOn ws OnlyMisses OnlyMisses
      (searchDirectory ws .enhanced nested ctx) fun found => ∃ cacheable, found = .missed cacheable)
    (hparent : Comes ws (searchParent ws nested ctx) none) :
    Comes ws (searchSymbol ws .enhanced nested ctx) none := by
  refine Leads.bind hmissed fun found hfound => ?_
  obtain ⟨cacheable, rfl⟩ := hfound
  exact Leads.bind hparent fun result hresult => Leads.pure hresult

section Above

variable {ws : Workspace} {ctx : Context}

theorem comes_searchParent (hat : ws.IsPlace ctx.directory)
    (hnested : ctx.directory ≠ ws.root → Comes ws
      (nested (ctx.child ctx.reference ctx.directory.parent ctx.stack)) none) :
    Comes ws (searchParent ws nested ctx) none := by
  unfold searchParent
  by_cases hne : ctx.directory = ws.root
  · rw [if_pos (by simp [hne])]
    exact Leads.pure rfl
  · have hparent := hat.parent hne
    have hself := Workspace.parent_ne hat.root hat.exists_.normal hat.contains hne
    dsimp only
    rw [if_neg (by simp [hne, hself, hparent.contains]), checkDirectory_of_works hat.works,
      hparent.exists_.isDirectory]
    exact hnested hne

/-- A symbol that a directory and all above it miss comes to nothing. -/
theorem comes_resolveFrame_of_misses (hproperties : ctx.reference.properties = [])
    (hat : ws.IsPlace ctx.directory)
    (hmisses : ∀ above ∈ ws.upToRoot ctx.directory,
      ws.Misses ctx.reference ctx.stack above) (left : Nat) :
    Comes ws (resolveFrame ws .enhanced left ctx) none := by
  induction left generalizing ctx with
  | zero => exact Comes.resolveFrame_zero .enhanced
  | succ left ih =>
    refine Comes.resolveFrame_succ hproperties (fun _ => rfl) ?_
    refine Comes.searchSymbol (hmisses _ Workspace.mem_upToRoot _ ctx rfl rfl rfl) ?_
    refine comes_searchParent hat fun hne => ?_
    refine ih hproperties (hat.parent hne) fun above habove => hmisses above ?_
    exact Workspace.mem_upToRoot_of_parent hat.root hat.exists_.normal hat.contains hne habove

/-- The same above a directory. -/
theorem comes_searchParent_of_misses (hproperties : ctx.reference.properties = [])
    (hat : ws.IsPlace ctx.directory)
    (hmisses : ∀ above ∈ (ws.upToRoot ctx.directory).tail,
      ws.Misses ctx.reference ctx.stack above) (left : Nat) :
    Comes ws (searchParent ws (resolveFrame ws .enhanced left) ctx) none := by
  refine comes_searchParent hat fun hne => ?_
  rw [Workspace.upToRoot_of_ne hat.root hat.exists_.normal hat.contains hne] at hmisses
  refine comes_resolveFrame_of_misses ?_ ?_ ?_ left
  · exact hproperties
  · exact hat.parent hne
  · exact hmisses

/-- A directory without a call of this name misses its outputs. -/
theorem misses_ofOutput {dir : Path} (hat : ws.IsPlace dir) {name : Text}
    (hcalls : ∀ call ∈ ws.calls dir, call.name ≠ name) (output : Text)
    (stack : List ModuleFrame) : ws.Misses (.ofOutput name output) stack dir := by
  rintro nested ctx href rfl -
  have hfind : (ws.calls ctx.directory).find? (·.name = name) = none := by
    simpa [List.find?_eq_none] using hcalls
  have hchase : LeadsOn ws OnlyMisses OnlyMisses
      (chaseOutput ws .enhanced nested ctx) (· = .notFound) := by
    unfold chaseOutput
    rw [href]
    refine Leads.answer_bind (Answers.moduleCallsOf hat.exists_.normal) hat.moduleCalls_eq ?_
    simp only [hfind]
    exact Leads.pure rfl
  unfold searchDirectory
  rw [href]
  exact Leads.eq_bind hchase (Leads.pure ⟨true, rfl⟩)

/-- A directory that assigns nothing to an input misses it. -/
theorem misses_ofInput (hroot : ws.root.IsNormal) (hworks : ws.disk.Works)
    {name : Text} {dir : Path} (h : ws.Settles .enhanced name dir)
    (hnone : ws.assignments .enhanced name dir = []) {stack : List ModuleFrame}
    (hstack : ∀ frame, stack.getLast? = some frame → frame.directory ≠ dir) :
    ws.Misses (.ofInput name) stack dir := by
  rintro nested ctx href hdir rfl s hs
  have hname : ctx.reference.name = name := by rw [href]; rfl
  -- the module around is another one, so the calls of this directory are asked
  have hsearch : Answers (Recollects ws OnlyMisses) _ _ :=
    h.answers_searchInput hworks hroot hname hdir hstack nested
  rw [hnone] at hsearch
  unfold searchDirectory
  rw [href]
  exact ⟨_, hsearch.outcome s hs, ⟨true, rfl⟩, hsearch.keeps s hs⟩

end Above

/-! ### One passage -/

/-- The default of the input that a passage leads through. -/
def Workspace.defaultOf (ws : Workspace) (passage : Passage) : Option Text :=
  (ws.declarations (variableDefault? · passage.input) passage.target).head?

/-- Only its call and its default give the input of a passage a value: the directories above that
of the call have no call of this name, and those above the module assign nothing to the input. -/
structure Workspace.IsAlone (ws : Workspace) (dir : Path) (passage : Passage) : Prop where
  outside : ∀ above ∈ (ws.upToRoot dir).tail, ∀ call ∈ ws.calls above, call.name ≠ passage.call.name
  legible : ∀ above ∈ (ws.upToRoot passage.target).tail, ws.Legible .enhanced passage.input above
  unassigned : ∀ above ∈ (ws.upToRoot passage.target).tail,
    ws.assignments .enhanced passage.input above = []
  default : ∀ text ∈ ws.defaultOf passage, text ≠ [] ∧ references text = []

section Passages

variable {ws : Workspace} {dir : Path} {passage : Passage} {ctx : Context}
  {left : Nat} (hat : ws.IsPlace dir) (h : ws.HasPassage dir passage)

include hat

namespace Workspace.IsAlone

variable (halone : ws.IsAlone dir passage) {above : Path}

include halone

theorem misses_outside (habove : above ∈ (ws.upToRoot dir).tail)
    (stack : List ModuleFrame) : ws.Misses passage.reference stack above := by
  have habove' := hat.above (List.mem_of_mem_tail habove)
  exact misses_ofOutput habove' (halone.outside above habove) _ _

include h

theorem misses_above (habove : above ∈ (ws.upToRoot passage.target).tail)
    {stack : List ModuleFrame} (hstack : stack.getLast? = some passage.frame) :
    ws.Misses (.ofInput passage.input) stack above := by
  have htarget := h.isPlace hat
  have habove' := htarget.above (List.mem_of_mem_tail habove)
  refine misses_ofInput hat.root hat.works
    ⟨halone.legible above habove, habove'.exists_, habove'.contains⟩
    (halone.unassigned above habove) fun frame hframe => ?_
  cases hstack.symm.trans hframe
  exact (ne_of_mem_tail_upToRoot hat.root htarget.exists_.normal htarget.contains habove).symm

theorem default_eq : Direct.default ws passage.input passage.target =
    .ok (ws.defaultOf passage) := by
  refine (Direct.declared_eq_bind hat.works (h.isPlace hat).exists_).trans (congrArg Except.ok ?_)
  show (ws.defaultOf passage).bind present? = ws.defaultOf passage
  cases hfound : ws.defaultOf passage with
  | none => rfl
  | some text => simp [present?, (halone.default text hfound).1]

end Workspace.IsAlone

include h

/-- Inside the module the input has what is passed for it, or else its default. -/
theorem comes_inner (href : ctx.reference = .ofInput passage.input)
    (hplace : ctx.directory = passage.target)
    (hmodule : ctx.currentModule? = some passage.frame) {argument : Text}
    (hargument : passage.argument? = some argument) {below : Option Text}
    (hbelow : Comes ws (expand (resolveFrame ws .enhanced left) ctx dir ctx.leaving argument) below)
    (halone : below = none → ws.IsAlone dir passage) :
    Comes ws (searchSymbol ws .enhanced (resolveFrame ws .enhanced left)
      ctx) (below.or (ws.defaultOf passage)) := by
  cases below with
  | some text =>
    exact leads_searchSymbol_of_argument hat h href hplace hmodule hargument hbelow
  | none =>
    have halone := halone rfl
    have htarget := h.isPlace hat
    have hdefault := halone.default_eq hat h
    rw [Option.none_or]
    cases hfound : ws.defaultOf passage with
    | some text =>
      have hsearch : LeadsOn ws OnlyMisses OnlyMisses
          (searchDirectory ws .enhanced (resolveFrame ws .enhanced left) ctx)
          (· = .settled { value := some text }) := by
        refine leads_searchDirectory hat h href hplace hmodule hargument hbelow
          fun threaded hthreaded => ?_
        unfold searchDefault
        rw [hthreaded, href, hplace]
        refine Leads.answer_bind (Answers.lookupDefault htarget.exists_.normal _) hdefault ?_
        rw [hfound, settle_of_references (halone.default text hfound).2]
        exact Leads.pure rfl
      exact Comes.of_misses (Leads.eq_bind hsearch (Leads.pure rfl))
    | none =>
      refine Comes.searchSymbol (leads_searchDirectory hat h href hplace hmodule
        hargument hbelow fun threaded hthreaded => ?_) ?_
      · unfold searchDefault
        rw [hthreaded, href, hplace]
        refine Leads.answer_bind (Answers.lookupDefault htarget.exists_.normal _) hdefault ?_
        rw [hfound]
        exact Leads.pure ⟨threaded.cacheable, rfl⟩
      · refine comes_searchParent_of_misses (by rw [href]; rfl) (hplace ▸ htarget)
          (fun above habove => ?_) left
        rw [hplace] at habove
        rw [href]
        exact halone.misses_above hat h habove hmodule

/-- The output has what the input has. -/
theorem comes_outer (href : ctx.reference = passage.reference)
    (hplace : ctx.directory = dir) {value : Option Text}
    (hnested : Comes ws (resolveFrame ws .enhanced left
      (ctx.child (.ofInput passage.input) passage.target (ctx.entering passage.frame))) value)
    (halone : value = none → ws.IsAlone dir passage) :
    Comes ws (searchSymbol ws .enhanced (resolveFrame ws .enhanced left) ctx) value := by
  cases value with
  | some text =>
    exact leads_searchSymbol_of_nested hat h href hplace hnested
  | none =>
    have hchase := leads_chaseOutput hat h href hplace hnested
    have hparent : Comes ws (searchParent ws (resolveFrame ws .enhanced left) ctx) none := by
      refine comes_searchParent_of_misses (by rw [href]; rfl) (hplace ▸ hat)
        (fun above habove => ?_) left
      rw [hplace] at habove
      rw [href]
      exact (halone rfl).misses_outside hat habove _
    have hkind : ctx.reference.kind = .moduleOutput := by rw [href]; rfl
    refine Comes.searchSymbol ?_ hparent
    unfold searchDirectory
    rw [hkind]
    refine Leads.bind hchase fun chased hchased => ?_
    rw [hchased]
    exact Leads.pure ⟨chased.cacheable, rfl⟩

end Passages

/-! ### Frames on the way -/

/-- The input that a passage leads through, and the directory of its module. -/
def Passage.inlet (passage : Passage) : Path × Text := (passage.target, passage.input)

namespace Workspace.HasPassage

variable {ws : Workspace} {dir : Path} {passage other : Passage}
  (h : ws.HasPassage dir passage) (h' : ws.HasPassage dir other)

include h h'

theorem inlet_eq_of_outer (hkey : (passage.outer dir).key = (other.outer dir).key) :
    passage.inlet = other.inlet := by
  obtain ⟨hname, houtput⟩ := h.names_eq h' (Prod.mk.inj hkey).2
  exact Prod.ext (h.target_eq h' hname) (h.input_eq h' hname houtput)

theorem inlet_eq_of_inner (hat : ws.IsPlace dir)
    (hkey : (passage.inner dir).key = (other.inner dir).key) :
    passage.inlet = other.inlet := by
  obtain ⟨htarget, hinput⟩ := Prod.mk.inj hkey
  have href := (Reference.isWellFormed_ofInput h.inputName).text_inj
    (Reference.isWellFormed_ofInput h'.inputName) hinput
  exact Prod.ext
    ((h.isPlace hat).exists_.normal.toText_inj (h'.isPlace hat).exists_.normal htarget)
    (List.cons.inj (congrArg Reference.segments href)).1

theorem outer_ne_inner : (passage.outer dir).key ≠ (other.inner dir).key :=
  fun hkey => h.text_ne h'.inputName (Prod.mk.inj hkey).2

end Workspace.HasPassage

/-- The frames above a context are those of some passages. -/
structure Context.CameThrough (ctx : Context) (ws : Workspace) (dir : Path)
    (seen : List Passage) : Prop where
  passages : ∀ passage ∈ seen, ws.HasPassage dir passage
  visited : ∀ key ∈ ctx.visited, ∃ passage ∈ seen,
    key = (passage.outer dir).key ∨ key = (passage.inner dir).key
  entered : ∀ passage ∈ seen, (passage.inner dir).key ∈ ctx.visited

namespace Context.CameThrough

variable {ws : Workspace} {dir : Path} {passage : Passage} {ctx : Context}
  {seen : List Passage} (hthrough : ctx.CameThrough ws dir seen)
  (h : ws.HasPassage dir passage)

include hthrough h

theorem outer_not_mem (hinlet : passage.inlet ∉ seen.map Passage.inlet) :
    (passage.outer dir).key ∉ ctx.visited := by
  intro hmem
  obtain ⟨other, hother, houter | hinner⟩ := hthrough.visited _ hmem
  · refine hinlet (List.mem_map.mpr ⟨other, hother, ?_⟩)
    exact ((h.inlet_eq_of_outer (hthrough.passages other hother)) houter).symm
  · exact h.outer_ne_inner (hthrough.passages other hother) hinner

/-- The input of a passage is on the way exactly if a passage before led through it. -/
theorem inner_mem_iff (hat : ws.IsPlace dir) : (passage.inner dir).key ∈ ctx.visited ↔
      passage.inlet ∈ seen.map Passage.inlet := by
  constructor
  · intro hmem
    obtain ⟨other, hother, houter | hinner⟩ := hthrough.visited _ hmem
    · exact absurd houter.symm ((hthrough.passages other hother).outer_ne_inner h)
    · refine List.mem_map.mpr ⟨other, hother, ?_⟩
      exact (h.inlet_eq_of_inner (hthrough.passages other hother) hat hinner).symm
  · intro hmem
    obtain ⟨other, hother, hinlet⟩ := List.mem_map.mp hmem
    obtain ⟨htarget, hinput⟩ := Prod.mk.inj hinlet
    have hkey : (passage.inner dir).key = (other.inner dir).key := by
      show (passage.target.toText, (Reference.ofInput passage.input).text) =
        (other.target.toText, (Reference.ofInput other.input).text)
      rw [htarget, hinput]
    rw [hkey]
    exact hthrough.entered other hother

/-- Inside the module of a passage its own frames are on the way too. -/
theorem enter (href : ctx.reference = passage.reference)
    (hplace : ctx.directory = dir) (stack : List ModuleFrame) (ref : Reference)
    (stack' : List ModuleFrame) :
    ((ctx.child (.ofInput passage.input) passage.target stack).child ref dir
      stack').CameThrough ws dir (passage :: seen) where
  passages other hother := by
    rcases List.mem_cons.mp hother with rfl | hother
    · exact h
    · exact hthrough.passages other hother
  visited key hmem := by
    have houter : ctx.key = (passage.outer dir).key := by
      rw [Context.key, href, hplace]
      rfl
    rcases List.mem_insert_iff.mp hmem with rfl | hmem
    · exact ⟨passage, List.mem_cons_self, .inr rfl⟩
    · rcases List.mem_insert_iff.mp hmem with rfl | hmem
      · exact ⟨passage, List.mem_cons_self, .inl houter⟩
      · obtain ⟨other, hother, hkey⟩ := hthrough.visited key hmem
        exact ⟨other, List.mem_cons_of_mem _ hother, hkey⟩
  entered other hother := by
    rcases List.mem_cons.mp hother with rfl | hother
    · exact List.mem_insert_self ..
    · exact List.mem_insert_of_mem (List.mem_insert_of_mem (hthrough.entered other hother))

end Context.CameThrough

/-! ### Feeds -/

/-- Passages, each of which passes on the output of the next; the last one passes a text. -/
inductive Workspace.Feeds (ws : Workspace) (dir : Path) :
    List Passage → Text → Prop
  | text {passage : Passage} {text : Text} (h : ws.Delivers dir passage text) :
    Feeds ws dir [passage] text
  | step {passage next : Passage} {rest : List Passage} {text : Text}
    (h : ws.HasPassage dir passage)
    (hargument : passage.argument? = some next.reference.text)
    (hrest : Feeds ws dir (next :: rest) text) :
    Feeds ws dir (passage :: next :: rest) text

theorem Workspace.Feeds.isWellFormed {ws : Workspace} {dir : Path}
    {passage : Passage} {rest : List Passage} {text : Text}
    (h : ws.Feeds dir (passage :: rest) text) : passage.reference.IsWellFormed := by
  cases h with
  | text h => exact h.isWellFormed
  | step h _ _ => exact h.isWellFormed

/-- The passages up to the first that leads through an input again. -/
def untilRepeated (seen : List (Path × Text)) : List Passage → List Passage
  | [] => []
  | passage :: rest =>
    if passage.inlet ∈ seen then []
    else passage :: untilRepeated (passage.inlet :: seen) rest

/-- What a feed comes to after some inputs: its text if it leads through none of them and through
no input twice, and otherwise the innermost default before the repeated input. -/
def Workspace.feedValue (ws : Workspace) (seen : List (Path × Text))
    (passages : List Passage) (text : Text) : Option Text :=
  if untilRepeated seen passages = passages then some text
  else (untilRepeated seen passages).reverse.findSome? ws.defaultOf

section Feeds

variable {ws : Workspace} {seen : List (Path × Text)} {passage : Passage}
  {passages : List Passage} {text : Text}

theorem untilRepeated_cons : untilRepeated seen (passage :: passages) =
    if passage.inlet ∈ seen then []
    else passage :: untilRepeated (passage.inlet :: seen) passages := rfl

theorem untilRepeated_cons_eq_self_iff :
    untilRepeated seen (passage :: passages) = passage :: passages ↔
      passage.inlet ∉ seen ∧ untilRepeated (passage.inlet :: seen) passages = passages := by
  rw [untilRepeated_cons]
  by_cases hinlet : passage.inlet ∈ seen
  · simp [hinlet]
  · simp [hinlet]

/-- A feed comes to nothing at an input that is on the way, and otherwise to what the rest of it
comes to or to the default. -/
theorem feedValue_cons : ws.feedValue seen (passage :: passages) text =
    if passage.inlet ∈ seen then none
    else (ws.feedValue (passage.inlet :: seen) passages text).or (ws.defaultOf passage) := by
  unfold Workspace.feedValue
  by_cases hinlet : passage.inlet ∈ seen
  · rw [if_pos hinlet, if_neg fun hwhole => (untilRepeated_cons_eq_self_iff.mp hwhole).1 hinlet,
      untilRepeated_cons, if_pos hinlet]
    rfl
  · rw [if_neg hinlet]
    by_cases hwhole : untilRepeated (passage.inlet :: seen) passages = passages
    · rw [if_pos hwhole, if_pos (untilRepeated_cons_eq_self_iff.mpr ⟨hinlet, hwhole⟩),
        Option.some_or]
    · rw [if_neg hwhole, if_neg fun h => hwhole (untilRepeated_cons_eq_self_iff.mp h).2,
        untilRepeated_cons, if_neg hinlet, List.reverse_cons, List.findSome?_append]
      simp

/-- Nothing is repeated where all inputs are different. -/
theorem untilRepeated_eq_self_iff : untilRepeated seen passages = passages ↔
    (passages.map Passage.inlet).Nodup ∧ ∀ passage ∈ passages, passage.inlet ∉ seen := by
  induction passages generalizing seen with
  | nil => simp [untilRepeated]
  | cons passage passages ih =>
    rw [untilRepeated_cons_eq_self_iff, ih]
    simp only [List.map_cons, List.nodup_cons, List.mem_cons, not_or, List.mem_map,
      not_exists, not_and, forall_eq_or_imp]
    refine ⟨fun ⟨hinlet, hnodup, hrest⟩ => ?_, fun ⟨⟨hself, hnodup⟩, hinlet, hrest⟩ => ?_⟩
    · exact ⟨⟨fun other hmem => (hrest other hmem).1, hnodup⟩, hinlet,
        fun other hmem => (hrest other hmem).2⟩
    · exact ⟨hinlet, hnodup, fun other hmem => ⟨hself other hmem, hrest other hmem⟩⟩

end Feeds

section Feeds

variable {ws : Workspace} {dir : Path} (hat : ws.IsPlace dir)

include hat

/-- A passage comes to nothing if its input is on the way already. Otherwise it comes to what is
passed on the other side, or to the default. -/
theorem comes_passage {passage : Passage} (h : ws.HasPassage dir passage)
    {argument : Text} (hargument : passage.argument? = some argument) {ctx : Context}
    (href : ctx.reference = passage.reference) (hplace : ctx.directory = dir)
    {seen : List Passage} (hthrough : ctx.CameThrough ws dir seen) {left : Nat}
    {below : Option Text}
    (hbelow : passage.inlet ∉ seen.map Passage.inlet →
      Comes ws (expand (resolveFrame ws .enhanced left)
        (ctx.child (.ofInput passage.input) passage.target (ctx.entering passage.frame))
        dir ctx.stack argument) below)
    (halone : passage.inlet ∈ seen.map Passage.inlet ∨ below = none → ws.IsAlone dir passage) :
    Comes ws (resolveFrame ws .enhanced (left + 2) ctx)
      (if passage.inlet ∈ seen.map Passage.inlet then none
        else below.or (ws.defaultOf passage)) := by
  have hkey : ctx.key = (passage.outer dir).key := by
    rw [Context.key, href, hplace]
    rfl
  have hproperties : ctx.reference.properties = [] := by rw [href]; rfl
  generalize hinner : ctx.child (.ofInput passage.input) passage.target
    (ctx.entering passage.frame) = inner at hbelow
  have hleaving : inner.leaving = ctx.stack := by
    rw [← hinner]
    exact List.dropLast_concat
  have hmodule : inner.currentModule? = some passage.frame := by
    rw [← hinner]
    exact List.getLast?_concat
  -- the frame of the input is cut exactly if a passage before led through the input
  have hcycle : inner.isCycle = true ↔ passage.inlet ∈ seen.map Passage.inlet := by
    rw [← hthrough.inner_mem_iff h hat, ← hinner]
    refine List.contains_iff_mem.trans (List.mem_insert_iff.trans ⟨?_, .inr⟩)
    rintro (houter | hmem)
    · exact absurd (hkey.symm.trans houter.symm) (h.outer_ne_inner h)
    · exact hmem
  by_cases hinlet : passage.inlet ∈ seen.map Passage.inlet
  · rw [if_pos hinlet]
    refine Comes.resolveFrame_succ hproperties (fun _ => rfl) ?_
    refine comes_outer hat h href hplace ?_ fun _ => halone (.inl hinlet)
    rw [hinner]
    exact Comes.resolveFrame_of_isCycle (by rw [← hinner]; rfl) (hcycle.mpr hinlet)
  · rw [if_neg hinlet]
    have houter : ctx.isCycle = true → below.or (ws.defaultOf passage) = none := by
      intro hcut
      have hmem := List.contains_iff_mem.mp hcut
      rw [hkey] at hmem
      exact absurd hmem (hthrough.outer_not_mem h hinlet)
    refine Comes.resolveFrame_succ hproperties houter ?_
    refine comes_outer hat h href hplace ?_
      fun hnone => halone (.inr (Option.or_eq_none_iff.mp hnone).1)
    rw [hinner]
    refine Comes.resolveFrame_succ (by rw [← hinner]; rfl)
      (fun hcut => absurd (hcycle.mp hcut) hinlet) ?_
    refine comes_inner hat h (by rw [← hinner]; rfl) (by rw [← hinner]; rfl) hmodule hargument ?_
      fun hnone => halone (.inr hnone)
    rw [hleaving]
    exact hbelow hinlet

/-- A feed comes to its value, whatever passages came before. -/
theorem comes_feed {passages : List Passage} {text : Text}
    (hfeeds : ws.Feeds dir passages text) {ctx : Context} {seen : List Passage}
    (hthrough : ctx.CameThrough ws dir seen)
    (href : passages.head?.map Passage.reference = some ctx.reference)
    (hplace : ctx.directory = dir) {left : Nat} (hleft : 2 * passages.length ≤ left)
    (halone : untilRepeated (seen.map Passage.inlet) passages ≠ passages →
      ∀ passage ∈ passages, ws.IsAlone dir passage) :
    Comes ws (resolveFrame ws .enhanced left ctx)
      (ws.feedValue (seen.map Passage.inlet) passages text) := by
  -- a passage needs to be alone only where the way is cut at it or behind it
  have hcons : ∀ {passage : Passage} {rest : List Passage} {seen : List Passage},
      (untilRepeated (seen.map Passage.inlet) (passage :: rest) ≠ passage :: rest →
        ∀ other ∈ passage :: rest, ws.IsAlone dir other) →
      passage.inlet ∈ seen.map Passage.inlet ∨
        ws.feedValue (passage.inlet :: seen.map Passage.inlet) rest text = none →
      ws.IsAlone dir passage := by
    intro passage rest seen halone hcut
    refine halone (fun hwhole => ?_) passage List.mem_cons_self
    obtain ⟨hinlet, hrest⟩ := untilRepeated_cons_eq_self_iff.mp hwhole
    rcases hcut with hmem | hnone
    · exact hinlet hmem
    · rw [Workspace.feedValue, if_pos hrest] at hnone
      cases hnone
  induction hfeeds generalizing ctx seen left with
  | @text passage text h =>
    obtain ⟨left, rfl⟩ := Nat.exists_eq_add_of_le' (show 2 ≤ left from hleft)
    rw [feedValue_cons]
    refine comes_passage hat h.toHasPassage h.argument
      (Option.some.inj href).symm hplace hthrough (fun _ => ?_) (hcons halone)
    rw [expand_of_references h.references]
    exact Comes.of_misses (Leads.pure rfl)
  | @step passage next rest text h hargument hrest ih =>
    have hlength : 2 * (next :: rest).length + 2 ≤ left := by
      simpa [Nat.mul_add] using hleft
    obtain ⟨left, rfl⟩ := Nat.exists_eq_add_of_le' (show 2 ≤ left by omega)
    have href := (Option.some.inj href).symm
    rw [feedValue_cons]
    refine comes_passage hat h hargument href hplace hthrough (fun hinlet => ?_) (hcons halone)
    rw [expand_text hrest.isWellFormed]
    refine ih (hthrough.enter h href hplace _ _ _) rfl rfl (by omega) (fun hrepeated => ?_) hcons
    intro other hmem
    refine halone (fun hwhole => ?_) other (List.mem_cons_of_mem _ hmem)
    exact hrepeated (untilRepeated_cons_eq_self_iff.mp hwhole).2

end Feeds

/-! ### Answers -/

/-- A fresh engine finds the text of a feed at its first output if the passages lead through
different inputs, and this is what calls of different modules do. Where an input occurs twice, as
with two calls of one module, the way is cut there, and the text is not found: the answer is the
default of the innermost passage before the repetition that has one, and nothing if none has. -/
theorem feed_answer_eq {ws : Workspace} (hroot : ws.root.IsNormal)
    (hworks : ws.disk.Works) {fresh : Session}
    (hfresh : Session.create ws.settings = .ok fresh) {dir : Path}
    (hdir : ws.HasDirectory dir)
    (hcontains : ws.contains dir = true) {passages : List Passage} {text : Text}
    (hfeeds : ws.Feeds dir passages text)
    (hdepth : 2 * passages.length ≤ ws.settings.maxDepth + 1)
    (halone : ¬ (passages.map Passage.inlet).Nodup → ∀ passage ∈ passages, ws.IsAlone dir passage)
    {first : Passage} (hfirst : passages.head? = some first) {wanted : Wanted}
    (hwanted : wanted.reference? = some first.reference) {start : Path}
    (hnul : start.hasNul = false) (hstart : ws.normalize start = dir) :
    (resolveEnhanced ws wanted start fresh).1 =
      if (passages.map Passage.inlet).Nodup then some text
      else (untilRepeated [] passages).reverse.findSome? ws.defaultOf := by
  have hdistinct : untilRepeated [] passages = passages ↔ (passages.map Passage.inlet).Nodup := by
    simp [untilRepeated_eq_self_iff]
  have hvalue : ws.feedValue [] passages text =
      if (passages.map Passage.inlet).Nodup then some text
      else (untilRepeated [] passages).reverse.findSome? ws.defaultOf := by
    unfold Workspace.feedValue
    simp only [hdistinct]
  have hthrough : (first.outer dir).CameThrough ws dir [] := ⟨nofun, nofun, nofun⟩
  have hcomes : Comes ws (resolveFrom ws .enhanced first.reference dir)
      (ws.feedValue [] passages text) :=
    comes_feed ⟨hroot, hworks, hdir, hcontains⟩ hfeeds hthrough (by rw [hfirst]; rfl) rfl hdepth
      fun hrepeated => halone fun h => hrepeated (hdistinct.mpr h)
  obtain ⟨hcache, hpaths, -⟩ := Session.empty_of_create hfresh
  subst hstart
  rw [← hvalue]
  exact (Recollects.resolveIn hworks hwanted hnul hcontains hdir.isDirectory hcomes.leads
    (.of_empty hcache hpaths)).1

/-- The first call feeds another call of its own module and one of the other module. -/
theorem feeds_sharing (name dir : String) (h : (name, dir) ∈ [("c", "m"), ("d", "n")]) :
    sharing.Feeds sharing.root
      [sharingPassage name dir "module.a.o", sharingPassage "a" "m" "\"A\""]
      "\"A\"".toList := by
  have hlast := delivers_sharing "a" "\"A\"" (by simp)
  simp only [List.mem_cons, List.not_mem_nil, or_false, Prod.mk.injEq] at h
  rcases h with ⟨rfl, rfl⟩ | ⟨rfl, rfl⟩
  · exact .step (hasPassage_sharing (by decide)) (by decide) (.text hlast)
  · exact .step (hasPassage_sharing (by decide)) (by decide) (.text hlast)

/-- The other module is fed, and the second call of the same module is not. -/
theorem sharing_feed_answer_eq :
    (resolveEnhanced sharing (written "module.d.o") here .fresh).1 = some "\"A\"".toList ∧
    (resolveEnhanced sharing (written "module.c.o") here .fresh).1 = none := by
  have hfresh : Session.create sharing.settings = .ok .fresh := rfl
  have hroot : sharing.Legible .enhanced "x".toList sharing.root ∧
      sharing.assignments .enhanced "x".toList sharing.root = [] := by
    decide +kernel
  have habove : (sharing.upToRoot (sharing.normalize (.ofText "m".toList))).tail =
      [sharing.root] := by
    decide
  have hfacts : ∀ passage ∈ [sharingPassage "c" "m" "module.a.o", sharingPassage "a" "m" "\"A\""],
      passage.target = sharing.normalize (.ofText "m".toList) ∧ passage.input = "x".toList ∧
      sharing.defaultOf passage = none := by
    decide +kernel
  have halone : ∀ passage ∈ [sharingPassage "c" "m" "module.a.o", sharingPassage "a" "m" "\"A\""],
      sharing.IsAlone sharing.root passage := by
    intro passage hmem
    obtain ⟨htarget, hinput, hdefault⟩ := hfacts passage hmem
    refine ⟨nofun, ?_, ?_, ?_⟩
    · rw [htarget, hinput, habove]
      exact fun above h => List.mem_singleton.mp h ▸ hroot.1
    · rw [htarget, hinput, habove]
      exact fun above h => List.mem_singleton.mp h ▸ hroot.2
    · rw [hdefault]
      exact nofun
  refine ⟨(feed_answer_eq (by decide) works_sharing hfresh hasDirectory_sharing (by decide)
    (feeds_sharing "d" "n" (by decide)) (by decide) (fun h => absurd ?_ h) rfl ?_ rfl
    (by decide)).trans ?_, (feed_answer_eq (by decide) works_sharing hfresh
    hasDirectory_sharing (by decide) (feeds_sharing "c" "m" (by decide)) (by decide)
    (fun _ => halone) rfl ?_ rfl (by decide)).trans ?_⟩
  all_goals decide +kernel

/-- A feed through two calls of one module that does not come through. -/
theorem sharing_feed_answer_ne :
    sharing.Feeds sharing.root
      [sharingPassage "c" "m" "module.a.o", sharingPassage "a" "m" "\"A\""] "\"A\"".toList ∧
    2 * 2 ≤ sharing.settings.maxDepth + 1 ∧
    (written "module.c.o").reference? = some (sharingPassage "c" "m" "module.a.o").reference ∧
    (resolveEnhanced sharing (written "module.c.o") here .fresh).1 ≠ some "\"A\"".toList := by
  refine ⟨feeds_sharing "c" "m" (by decide), by decide, by decide +kernel, ?_⟩
  decide +kernel

end TerraformTrace
