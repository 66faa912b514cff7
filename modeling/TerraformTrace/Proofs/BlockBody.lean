import TerraformTrace.Proofs.MaskBrace

/-!
# TerraformTrace.Proofs.BlockBody

The bodies of blocks. A body is cut out of a text and searched as a text of its own, and a block
may begin deep in strings, interpolations and heredocs. **The mask of the body is the part of the
mask of the text that shows it** (`mask_body`): its first brace is shown, so it stands in code,
and what is around the code does not count before the brace is closed again
(`Mask.run_eq_mask_of_inBraces`).
-/

namespace TerraformTrace.Hcl

open Text

/-! ### Closing braces -/

/-- The closing brace is shown, and what comes before it closes nothing. -/
theorem exists_of_closingBrace? {depth n : Nat} {shown : Text}
    (h : closingBrace? depth shown = some n) :
    ∃ inside rest, shown = inside ++ '}' :: rest ∧ inside.length = n ∧
      closingBrace? depth inside = none := by
  induction shown generalizing depth n with
  | nil => cases h
  | cons c shown ih =>
    by_cases hopen : c = '{'
    · subst hopen
      rw [Mask.closingBrace?_open] at h
      obtain ⟨n, hn, rfl⟩ := Option.map_eq_some_iff.mp h
      obtain ⟨inside, rest, rfl, rfl, hnone⟩ := ih hn
      exact ⟨'{' :: inside, rest, rfl, rfl, by rw [Mask.closingBrace?_open, hnone]; rfl⟩
    by_cases hclose : c = '}'
    · subst hclose
      cases depth with
      | zero =>
        cases h
        exact ⟨[], shown, rfl, rfl, rfl⟩
      | succ depth =>
        rw [Mask.closingBrace?_close] at h
        obtain ⟨n, hn, rfl⟩ := Option.map_eq_some_iff.mp h
        obtain ⟨inside, rest, rfl, rfl, hnone⟩ := ih hn
        exact ⟨'}' :: inside, rest, rfl, rfl, by rw [Mask.closingBrace?_close, hnone]; rfl⟩
    · rw [closingBrace?_char hopen hclose] at h
      obtain ⟨n, hn, rfl⟩ := Option.map_eq_some_iff.mp h
      obtain ⟨inside, rest, rfl, rfl, hnone⟩ := ih hn
      exact ⟨c :: inside, rest, rfl, rfl, by rw [closingBrace?_char hopen hclose, hnone]; rfl⟩

/-! ### Bodies -/

namespace Mask

theorem exists_append_cons {text : Text} {pos : Nat} (h : pos < text.length) :
    ∃ front c rest, text = front ++ c :: rest ∧ front.length = pos :=
  ⟨text.take pos, text[pos], text.drop (pos + 1),
    by rw [← List.drop_eq_getElem_cons h, List.take_append_drop],
    List.length_take_of_le (Nat.le_of_lt h)⟩

/-- A brace that is seen was kept. -/
theorem eq_of_apply_eq {cover : Cover} {c d : Char} (hd : isBrace d = true)
    (h : cover.apply c = d) : cover = .keep ∧ c = d := by
  subst h
  cases cover with
  | keep => exact ⟨rfl, rfl⟩
  | blank => cases hd
  | hide => cases hd

theorem getElem?_run (s : State) (front : Text) (c : Char) (rest : Text) :
    (run s (front ++ c :: rest))[front.length]? =
      some ((step (stateBefore s front (c :: rest)) c rest).1.apply c) := by
  rw [run_append, List.getElem?_append_right (by simp), length_shownBefore, Nat.sub_self]
  rfl

/-- Behind a brace that is shown the rest of a text is read between braces. -/
theorem exists_drop_mask {text : Text} {pos : Nat}
    (h : (mask text)[pos]? = some '{') :
    ∃ s : State, s.IsSound ∧ s.InBraces ∧
      (mask text).drop (pos + 1) = run s (text.drop (pos + 1)) := by
  obtain ⟨hposition, -⟩ := List.getElem?_eq_some_iff.mp h
  rw [length_mask] at hposition
  obtain ⟨front, c, rest, rfl, rfl⟩ := exists_append_cons hposition
  rw [mask, getElem?_run, Option.some_inj] at h
  obtain ⟨hkeep, rfl⟩ := eq_of_apply_eq rfl h
  have hs := State.IsSound.start.stateBefore front ('{' :: rest)
  have howes : (stateBefore .start front ('{' :: rest)).OwesLine ('{' :: rest) :=
    .stateBefore .start (.of_owed rfl)
  refine ⟨_, (isSoundStep hs '{' rest).sound, inBraces_step hs howes hkeep, ?_⟩
  rw [mask, ← List.drop_drop, ← List.drop_drop, drop_run, List.drop_left' rfl]
  rfl

variable {s : State} {text : Text}

/-- What stands before the brace that closes it is masked as a text of its own. -/
theorem take_run_eq_mask {n : Nat} (hs : s.IsSound) (hin : s.InBraces)
    (h : closingBrace? 0 (run s text) = some n) : (run s text).take n = mask (text.take n) := by
  obtain ⟨inside, more, hrun, rfl, hnone⟩ := exists_of_closingBrace? h
  have hposition : inside.length < text.length := by
    rw [← length_run s text, hrun]
    simp
  obtain ⟨body, c, rest, rfl, hlength⟩ := exists_append_cons hposition
  rw [← hlength, take_run, List.take_left' rfl]
  have hshown : shownBefore s body (c :: rest) = inside := by
    rw [← take_run, hrun, List.take_left' hlength.symm]
  have hclose : (step (stateBefore s body (c :: rest)) c rest).1.apply c = '}' := by
    have hget := getElem?_run s body c rest
    rw [hrun, hlength] at hget
    simpa using hget.symm
  obtain ⟨hkeep, rfl⟩ := eq_of_apply_eq rfl hclose
  have hcut : IsCut s body ('}' :: rest) := by
    refine ⟨.inl fun d hd => ?_, .inr ⟨'}', rest, rfl, by decide, by decide, ?_⟩⟩
    · cases hd
      decide
    · rw [hkeep]
      nofun
  have hbody := shownBefore_eq_run hs hcut
  rw [hbody]
  exact run_eq_mask_of_inBraces hin (by rw [← hbody, hshown]; exact hnone)

end Mask

/-! ### Blocks -/

theorem blockHeader?_length_pos {keyword text : Text} {header : BlockHeader}
    (h : blockHeader? keyword text = some header) : 0 < header.length := by
  unfold blockHeader? at h
  split at h
  · dsimp only at h
    split at h
    · cases h
      exact Nat.succ_pos _
    · cases h
  · cases h

/-- How a block is read: its header ends with a brace that is shown, and its body goes up to the
brace that closes it, or to the end. -/
theorem exists_of_blockAt? {keyword text mask : Text} {start length : Nat} {block : Block}
    (h : blockAt? keyword start text mask = some (block, length)) :
    ∃ header, blockHeader? keyword text = some header ∧ block.start = start ∧
      block.labels = header.labels ∧ block.stop = start + length ∧
      mask[header.length - 1]? = some '{' ∧
      ((∃ n, closingBrace? 0 (mask.drop header.length) = some n ∧
          block.body = (text.drop header.length).take n ∧ length = header.length + n + 1) ∨
        (closingBrace? 0 (mask.drop header.length) = none ∧
          block.body = text.drop header.length ∧ length = text.length)) := by
  rw [blockAt?] at h
  obtain ⟨header, hheader, h⟩ := Option.bind_eq_some_iff.mp h
  split at h
  next hvisible =>
    rw [BlockHeader.isVisible, Bool.and_eq_true, decide_eq_true_eq, decide_eq_true_eq] at hvisible
    refine ⟨header, hheader, ?_⟩
    cases hclose : closingBrace? 0 (mask.drop header.length) with
    | some n =>
      rw [hclose] at h
      cases h
      exact ⟨rfl, rfl, rfl, hvisible.2, .inl ⟨n, rfl, rfl, rfl⟩⟩
    | none =>
      rw [hclose] at h
      cases h
      exact ⟨rfl, rfl, rfl, hvisible.2, .inr ⟨rfl, rfl, rfl⟩⟩
  next => cases h

/-- A block is read where the scan stands. -/
theorem exists_of_mem_scanBlocks {keyword text mask : Text} {skip depth pos : Nat}
    {fresh : Bool} {block : Block} (front shown : Text) (hfront : front.length = pos)
    (hshown : shown.length = pos)
    (h : block ∈ scanBlocks keyword skip depth fresh pos text mask) :
    ∃ length, blockAt? keyword block.start ((front ++ text).drop block.start)
      ((shown ++ mask).drop block.start) = some (block, length) := by
  fun_induction scanBlocks keyword skip depth fresh pos text mask
    generalizing front shown with
  | case1 => cases h
  | case2 => cases h
  | case5 depth fresh pos c text m mask hstart hindent found length hread ih =>
    rcases List.mem_cons.mp h with rfl | h
    · obtain ⟨-, -, hposition, -⟩ := exists_of_blockAt? hread
      rw [hposition, List.drop_left' hfront, List.drop_left' hshown]
      exact ⟨length, hread⟩
    · rw [List.append_cons front, List.append_cons shown]
      exact ih (front ++ [c]) (shown ++ [m]) (by simp [hfront]) (by simp [hshown]) h
  | case3 depth fresh pos skip c text m mask ih
  | case4 depth fresh pos c text m mask _ _ ih
  | case6 depth fresh pos c text m mask _ _ _ ih
  | case7 depth fresh pos c text m mask _ ih =>
    rw [List.append_cons front, List.append_cons shown]
    exact ih (front ++ [c]) (shown ++ [m]) (by simp [hfront]) (by simp [hshown]) h

/-- **The body of a block is masked as it is in the text.** Its span begins behind the brace that
ends the header, and it ends before the brace that closes it, which is shown, or, if there is
none, with the text. -/
theorem mask_body {text keyword : Text} {block : Block} (h : block ∈ blocks text keyword) :
    ∃ header, blockHeader? keyword (text.drop block.start) = some header ∧
      block.labels = header.labels ∧
      block.body = (text.drop (block.start + header.length)).take block.body.length ∧
      mask block.body =
        ((mask text).drop (block.start + header.length)).take block.body.length ∧
      ((block.stop = block.start + header.length + block.body.length + 1 ∧
          (mask text)[block.start + header.length + block.body.length]? = some '}') ∨
        (block.stop = text.length ∧
          block.start + header.length + block.body.length = text.length)) := by
  obtain ⟨length, hread⟩ := exists_of_mem_scanBlocks [] [] rfl rfl h
  rw [List.nil_append, List.nil_append] at hread
  obtain ⟨header, hheader, -, hlabels, hstop, hbrace, hbody⟩ := exists_of_blockAt? hread
  have hpos := blockHeader?_length_pos hheader
  rw [List.getElem?_drop] at hbrace
  obtain ⟨s, hs, hin, hrest⟩ := Mask.exists_drop_mask hbrace
  rw [show block.start + (header.length - 1) + 1 = block.start + header.length by omega] at hrest
  rw [List.drop_drop, List.drop_drop, hrest] at hbody
  refine ⟨header, hheader, hlabels, ?_⟩
  rw [hrest]
  rcases hbody with ⟨n, hclose, hbody, hlength⟩ | ⟨hclose, hbody, hlength⟩
  · obtain ⟨inside, more, hrun, rfl, -⟩ := exists_of_closingBrace? hclose
    have hinside : inside.length < (text.drop (block.start + header.length)).length := by
      have hlength := Mask.length_run s (text.drop (block.start + header.length))
      rw [hrun, List.length_append, List.length_cons] at hlength
      omega
    have hcount : block.body.length = inside.length := by
      rw [hbody, List.length_take_of_le (Nat.le_of_lt hinside)]
    rw [hcount]
    refine ⟨hbody, ?_, .inl ⟨by omega, ?_⟩⟩
    · rw [Mask.take_run_eq_mask hs hin hclose, hbody]
    · rw [← List.getElem?_drop, hrest, hrun, List.getElem?_append_right (Nat.le_refl _),
        Nat.sub_self]
      rfl
  · have hstart : block.start + (header.length - 1) < text.length := by
      rw [← length_mask]
      exact (List.getElem?_eq_some_iff.mp hbrace).1
    have hcount : block.body.length = text.length - (block.start + header.length) := by
      rw [hbody, List.length_drop]
    rw [List.length_drop] at hlength
    refine ⟨?_, ?_, .inr ⟨by omega, by omega⟩⟩
    · rw [hcount, ← List.length_drop, List.take_length]
      exact hbody
    · rw [hcount, ← List.length_drop, ← Mask.length_run s, List.take_length, hbody]
      exact (Mask.run_eq_mask_of_inBraces hin hclose).symm

/-- A block inside an interpolation that spans lines, with a closing brace in a string and one in
a comment. -/
def nestedText : Text :=
  "x = \"$\x7b\nlocals \x7b\n  a = \"\x7d $\x7bvar.b\x7d\" # \x7d\n\x7d\n\x7d\"\n".toList

def nestedBlock : Block where
  labels := []
  body := "\n  a = \"\x7d $\x7bvar.b\x7d\" # \x7d\n".toList
  start := 8
  stop := 41

theorem mask_nestedBlock :
    nestedBlock ∈ blocks nestedText "locals".toList ∧
      ∃ header, blockHeader? "locals".toList (nestedText.drop 8) = some header ∧
        mask nestedBlock.body =
          ((mask nestedText).drop (8 + header.length)).take nestedBlock.body.length := by
  have hmem : nestedBlock ∈ blocks nestedText "locals".toList := by decide +kernel
  obtain ⟨header, hheader, -, -, hmask, -⟩ := mask_body hmem
  exact ⟨hmem, header, hheader, hmask⟩

end TerraformTrace.Hcl
