import Impulse.Proofs.FileSteps
import Impulse.Proofs.Headers

/-!
# Accepted programs are well bracketed

In a program that was accepted, everything that is opened is closed in the right order. This holds across
imported files, for structs whose end comes before their methods, and for deferred statements, which are listed
at the end of their block and once more before every return.
-/

namespace Impulse

theorem State.Listed.start (library : Library) (path text : String) (last : Token) :
    (State.start library path text last).Listed strict :=
  ⟨⟨[], none⟩, .empty, .nil _, .none, by simp [State.start]⟩

theorem compile_listed (accepted : (compile settings library path text).stop = none) :
    Program.Reads (Node.Placed (settings.feature .strictTypes = true)) []
      ((compile settings library path text).program.map (·.node)) [] := by
  obtain ⟨last, s, steps, blocks, program, -⟩ := compile_ok accepted
  have listed := State.Listed.steps (.start ..) (.start library path text last) (.start ..) steps
  rw [program]
  exact listed.of_blocks_nil blocks

/-- An accepted program is well bracketed. So its listing, whose lines behind any entries start at the depth
behind these entries, closes no block at depth zero and ends at depth zero. -/
theorem compile_bracketed (accepted : (compile settings library path text).stop = none) :
    (compile settings library path text).program.WellBracketed ∧
    (∀ before after, (compile settings library path text).program = before ++ after →
      Program.dumpLines 0 (compile settings library path text).program
        = Program.dumpLines 0 before ++ Program.dumpLines (Program.depthAfter 0 before) after) ∧
    (∀ before e after, (compile settings library path text).program = before ++ e :: after →
      Program.nodeCloses e.node = true → 0 < Program.depthAfter 0 before) ∧
    Program.depthAfter 0 (compile settings library path text).program = 0 := by
  have bracketed : (compile settings library path text).program.WellBracketed :=
    (compile_listed accepted).readAll_eq
  refine ⟨bracketed, ?_, ?_, bracketed.depth_eq_zero⟩
  · intro before after split
    rw [split]
    exact Program.dumpLines_append 0 before after
  · intro before e after split closes
    exact bracketed.depth_pos split closes

/-- A struct whose end comes before its method, and a deferred branch that is listed twice. -/
def deferringMethod : String :=
  "P :: struct \x7b x: int; f :: () \x7b defer \x7b if (true) \x7b @c \"a\"; \x7d \x7d return; \x7d \x7d"

theorem compile_bracketed_deferringMethod :
    (compile Settings.plain (.memory []) "main.imp" deferringMethod).stop = none ∧
    (compile Settings.plain (.memory []) "main.imp" deferringMethod).program.WellBracketed := by
  have accepted : (compile Settings.plain (.memory []) "main.imp" deferringMethod).stop = none :=
    Option.isNone_iff_eq_none.mp (by decide +kernel)
  exact ⟨accepted, (compile_bracketed accepted).1⟩

end Impulse
