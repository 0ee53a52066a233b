import Impulse.Proofs.Listing
import Impulse.Proofs.Shadowing

/-!
# Where cases and jumps stand

Directly in a switch there are only cases and bare blocks, and whatever a jump leaves is open in its own function.
Both hold for the statements of deferred blocks wherever they are listed, since these can only leave what the
deferred block itself opened.
-/

namespace Impulse

open List

open Program (Reads readAll pairs nodeOpens nodeCloses)

theorem Program.readAll_append_base (h : readAll stack p = some final) (base : List Node) :
    readAll (stack ++ base) p = some (final ++ base) := by
  induction p generalizing stack with
  | nil =>
    cases h
    rfl
  | cons e p ih =>
    rw [readAll, foldlM_cons] at h ⊢
    obtain ⟨mid, hread, hrest⟩ := Option.bind_eq_some_iff.mp h
    rw [read_append_base hread base]
    exact ih hrest

theorem Program.Reads.exists_end {inner}
    (h : Reads fits (inner ++ opener :: base) (p.map (·.node)) final) (short : final.length ≤ base.length) :
    ∃ body close rest, p = body ++ close :: rest ∧ readAll inner body = some [] ∧
      nodeCloses close.node = true ∧ pairs opener close.node = true := by
  -- Along the entries, `inner` are the openers on `opener` that are still open. The end is found where there are none.
  induction p generalizing inner with
  | nil =>
    cases h
    rw [length_append, length_cons] at short
    omega
  | cons e p ih =>
    cases h with
    | @cons _ mid _ _ _ place next rest =>
      have more : ∀ inner', read inner e.node = some inner' → mid = inner' ++ opener :: base →
          ∃ body close rest, e :: p = body ++ close :: rest ∧ readAll inner body = some [] ∧
            nodeCloses close.node = true ∧ pairs opener close.node = true := by
        rintro inner' hread rfl
        obtain ⟨body, close, after, rfl, balanced, ends⟩ := ih rest
        refine ⟨e :: body, close, after, rfl, ?_, ends⟩
        rw [readAll, foldlM_cons, hread]
        exact balanced
      rcases read_cases next with
        ⟨opens, -, rfl⟩ | ⟨stays, closes, top, same, paired⟩ | ⟨stays, keeps, rfl⟩
      · exact more _ (read_of_opens opens _) rfl
      · cases inner with
        | nil =>
          cases same
          exact ⟨[], e, p, rfl, rfl, closes, paired⟩
        | cons m inner =>
          cases same
          exact more _ (read_of_pairs stays closes paired _) rfl
      · exact more _ (read_of_stays stays keeps _) rfl

theorem placed_of_split (accepted : (compile settings library path text).stop = none) {before after : Program} (split : (compile settings library path text).program = before ++ e :: after) :
    ∃ stack mid, readAll [] before = some stack ∧
      e.node.Placed (settings.feature .strictTypes = true) stack ∧
      Program.read stack e.node = some mid ∧
      Reads (Node.Placed (settings.feature .strictTypes = true)) mid (after.map (·.node)) [] := by
  have reads := compile_listed accepted
  rw [split, map_append] at reads
  obtain ⟨stack, first, second⟩ := reads.of_append
  cases second with
  | cons place next rest => exact ⟨stack, _, first.readAll_eq, place, next, rest⟩

theorem Node.opens_of_isSwitch (h : n.isSwitch = true) : nodeOpens n = true := by
  unfold Node.isSwitch at h
  split at h
  · rfl
  · cases h

/-- Behind a switch of an accepted program there is its body and the end of its block. An entry of the body that
stands in none of the blocks of the body is a case or a bare block. -/
theorem compile_switch_parts (accepted : (compile settings library path text).stop = none)
    {before after : Program} {e : Entry} (split : (compile settings library path text).program = before ++ e :: after)
    (isSwitch : e.node.isSwitch = true) :
    ∃ body close rest, after = body ++ close :: rest ∧ Program.WellBracketed body ∧
      nodeCloses close.node = true ∧ pairs e.node close.node = true ∧
      ∀ inner x outer, body = inner ++ x :: outer → Program.WellBracketed inner →
        (x.node.isArm || x.node.isBare) = true := by
  obtain ⟨stack, mid, hbefore, -, next, reads⟩ := placed_of_split accepted split
  have opened := Program.read_of_opens (Node.opens_of_isSwitch isSwitch) stack
  rw [opened] at next
  cases next
  have inside : Reads _ ([] ++ e.node :: stack) (after.map (·.node)) [] := reads
  obtain ⟨body, close, rest, rfl, balanced, closes, paired⟩ := inside.exists_end (Nat.zero_le _)
  refine ⟨body, close, rest, rfl, balanced, closes, paired, ?_⟩
  rintro inner x outer rfl level
  have split' : (compile settings library path text).program
      = (before ++ e :: inner) ++ x :: (outer ++ close :: rest) := by
    rw [split]
    simp
  obtain ⟨stack', -, hinner, place, -, -⟩ := placed_of_split accepted split'
  -- What stands between the switch and the entry leaves nothing on the stack.
  have top : readAll [] (before ++ e :: inner) = some (e.node :: stack) := by
    rw [Program.readAll_append, hbefore, Option.bind_some, readAll, foldlM_cons, opened]
    exact Program.readAll_append_base level (e.node :: stack)
  rw [top] at hinner
  cases hinner
  rcases Bool.or_eq_true_iff.mp (place.inSwitch isSwitch) with part | ends
  · exact part
  · have deep := Program.WellBracketed.depth_pos balanced rfl ends
    rw [level.depth_eq_zero] at deep
    cases deep

/-- A deferred switch that is listed before the return in the case of another one. -/
def deferredSwitch : String :=
  "f :: (n: int) \x7b defer \x7b switch (n) \x7b case (1) \x7b break; \x7d \x7d \x7d " ++
    "switch (n) \x7b case (2) \x7b return; \x7d \x7b @c \"a\"; \x7d default \x7b \x7d \x7d \x7d"

theorem deferredSwitch_accepted : (compile Settings.plain (.memory []) "main.imp" deferredSwitch).stop = none :=
  Option.isNone_iff_eq_none.mp (by decide +kernel)

theorem compile_switch_parts_deferredSwitch :
    ∃ before e after, (compile Settings.plain (.memory []) "main.imp" deferredSwitch).stop = none ∧
      (compile Settings.plain (.memory []) "main.imp" deferredSwitch).program = before ++ e :: after ∧
      e.node.isSwitch = true ∧ ∃ body close rest, after = body ++ close :: rest ∧ Program.WellBracketed body ∧
        ∀ inner x outer, body = inner ++ x :: outer → Program.WellBracketed inner →
          (x.node.isArm || x.node.isBare) = true := by
  have accepted := deferredSwitch_accepted
  have found : ((compile Settings.plain (.memory []) "main.imp" deferredSwitch).program.any
      (·.node.isSwitch)) = true := by decide +kernel
  obtain ⟨e, he, isSwitch⟩ := any_eq_true.mp found
  obtain ⟨before, after, split⟩ := append_of_mem he
  obtain ⟨body, close, rest, hafter, balanced, -, -, parts⟩ := compile_switch_parts accepted split isSwitch
  exact ⟨before, e, after, accepted, split, isSwitch, body, close, rest, hafter, balanced, parts⟩

def bareInSwitch : String :=
  "f :: (n: int) \x7b switch (n) \x7b \x7b \x7d \x7d \x7d"

/-- A block that is no case is accepted directly in a switch. -/
theorem compile_bareInSwitch :
    (compile Settings.plain (.memory []) "main.imp" bareInSwitch).stop = none ∧
    ((compile Settings.plain (.memory []) "main.imp" bareInSwitch).program.map fun e =>
        (e.node.isSwitch, e.node.isArm, nodeOpens e.node))
      = [(false, false, true), (true, false, true), (false, false, true), (false, false, false),
        (false, false, false), (false, false, false)] :=
  ⟨Option.isNone_iff_eq_none.mp (by decide +kernel), by decide +kernel⟩

theorem Moment.listed (h : Moment settings library path text fuel s toks) :
    s.Listed (settings.feature .strictTypes = true) := by
  refine (invariant (P := fun s => s.Complete ∧ s.Listed _) (fun last => ⟨.start .., .start ..⟩) ?_ ?_ h).2
  · intro s s' nested ⟨complete, listed⟩ steps
    exact ⟨complete.steps steps, listed.steps complete nested steps⟩
  · intro s t source last ⟨complete, _⟩ _
    exact ⟨complete.child t source last, .child ..⟩

/-- Before every jump of an accepted program, the header of a loop, of an iteration or of a switch is open inside
of the innermost open function. In the statements of a deferred block, at any moment of the reading, such a
header stands before the jump in the block itself: it is open there if the statements are read alone in a
function. -/
theorem compile_jump_targets (accepted : (compile settings library path text).stop = none) :
    (∀ before e after, (compile settings library path text).program = before ++ e :: after →
      (e.node.isContinue || e.node.isBreak) = true →
      ∃ stack, readAll [] before = some stack ∧
        (stack.takeWhile fun m => !m.isFunction).any Node.isTarget = true ∧
        stack.any Node.isFunction = true) ∧
    ∀ fuel s toks, Moment settings library path text fuel s toks →
      ∀ group ∈ s.deferral.recording.toList ++ s.deferral.groups.map (·.2),
      ∀ before n after, group = before ++ n :: after → (n.isContinue || n.isBreak) = true →
      ∀ f : Node, f.isFunction = true → ∃ stack, before.foldlM Program.read [f] = some stack ∧
        (stack.takeWhile fun m => !m.isFunction).any Node.isTarget = true := by
  refine ⟨?_, ?_⟩
  · intro before e after split jump
    obtain ⟨stack, -, hbefore, place, -, -⟩ := placed_of_split accepted split
    exact ⟨stack, hbefore, place.target jump⟩
  · intro fuel s toks moment group member before n after split jump f function
    -- A function alone is no target, so the one that is found was opened by the statements themselves.
    obtain ⟨final, reads⟩ := moment.listed.reads_group member (.single function)
    rw [split] at reads
    obtain ⟨stack, first, second⟩ := reads.of_append
    cases second with
    | cons place _ _ => exact ⟨stack, first.foldlM_eq, (place.target jump).1⟩

theorem compile_jump_targets_deferredSwitch :
    (compile Settings.plain (.memory []) "main.imp" deferredSwitch).stop = none ∧
    (∃ before e after stack,
      (compile Settings.plain (.memory []) "main.imp" deferredSwitch).program = before ++ e :: after ∧
      e.node.isBreak = true ∧ readAll [] before = some stack ∧
      (stack.takeWhile fun m => !m.isFunction).any Node.isTarget = true) ∧
    ∃ fuel s toks before n after, Moment Settings.plain (.memory []) "main.imp" deferredSwitch fuel s toks ∧
      before ++ n :: after ∈ s.deferral.groups.map (·.2) ∧ n.isBreak = true ∧
      ∀ f : Node, f.isFunction = true → ∃ stack, before.foldlM Program.read [f] = some stack ∧
        (stack.takeWhile fun m => !m.isFunction).any Node.isTarget = true := by
  have accepted := deferredSwitch_accepted
  have jumps : ((compile Settings.plain (.memory []) "main.imp" deferredSwitch).program.any
      (·.node.isBreak)) = true := by decide +kernel
  have run : ((stateBefore? Settings.plain (.memory []) "main.imp" deferredSwitch 26).map fun s =>
      (s.deferral.groups.map (·.2)).any (·.any Node.isBreak)) = some true := by decide +kernel
  obtain ⟨listed, deferred⟩ := compile_jump_targets accepted
  refine ⟨accepted, ?_, ?_⟩
  · obtain ⟨e, he, jump⟩ := any_eq_true.mp jumps
    obtain ⟨before, after, split⟩ := append_of_mem he
    obtain ⟨stack, reads, target, -⟩ := listed before e after split (by simp [jump])
    exact ⟨before, e, after, stack, split, jump, reads, target⟩
  · obtain ⟨s, before?, some⟩ := Option.map_eq_some_iff.mp run
    obtain ⟨toks, moment⟩ := Moment.of_stateBefore? (by decide) before?
    obtain ⟨group, member, inside⟩ := any_eq_true.mp some
    obtain ⟨n, hn, jump⟩ := any_eq_true.mp inside
    obtain ⟨before, after, rfl⟩ := append_of_mem hn
    exact ⟨_, s, toks, before, n, after, moment, member, jump, fun f function =>
      deferred _ s toks moment _ (mem_append_right _ member) before n after rfl (by simp [jump]) f function⟩

/-- A case that is to be gone through again. -/
def continuingSwitch : String :=
  "f :: (n: int) \x7b switch (n) \x7b case (1) \x7b continue; \x7d \x7d \x7d"

/-- A jump to the next turn of a loop is accepted where there is no loop, but only a switch. -/
theorem compile_continuingSwitch :
    (compile Settings.plain (.memory []) "main.imp" continuingSwitch).stop = none ∧
    (((compile Settings.plain (.memory []) "main.imp" continuingSwitch).program.drop 3).head?.map
      (·.node.isContinue)) = some true ∧
    (readAll [] ((compile Settings.plain (.memory []) "main.imp" continuingSwitch).program.take 3)).map
      (·.map fun m => (m.isTarget, m.isSwitch)) = some [(false, false), (true, true), (false, false)] :=
  ⟨Option.isNone_iff_eq_none.mp (by decide +kernel), by decide +kernel, by decide +kernel⟩

end Impulse
