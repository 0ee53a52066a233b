import Impulse.Proofs.Shadowing

/-!
# Every reader of an expression ends

The readers of expressions, types and arithmetic read smaller parts by a reader that is handed to them, and each knot
is tied with a guard: a part that is not smaller is a fault. Here no reader ever meets that guard, because each of
them ends as soon as the reader it is handed ends on what is smaller.
-/

namespace Impulse

open Infer

/-- The reading ends with a value or with a diagnostic, whatever was noticed before. -/
def Infer.Ends {α : Type} (v : View) (x : Infer α) : Prop :=
  ∀ before, (∃ a after, x v before = .ok a after) ∨ ∃ t p after, x v before = .error (.problem t p) after

theorem Infer.Ensures.ends {α : Type} {v : View} {x : Infer α} {post : α → Prop} (h : Ensures v x post) :
    Infer.Ends v x := by
  intro before
  have result := h before
  cases run : x v before with
  | ok a after => exact .inl ⟨a, after, rfl⟩
  | error e after =>
    rw [run] at result
    cases e with
    | problem t p => exact .inr ⟨t, p, after, rfl⟩
    | fault f => exact result.1.elim

/-- In every state that a reading comes through, all types are complete. In every view with complete types, the
readers of expressions, conditions, types and arithmetic end. Each reader makes do with a reader of its parts that is
known to end on smaller parts only: on tokens of less weight, on fewer tokens, and on fewer units. -/
theorem readers_end (settings : Settings) (library : Library) (path text : String) :
    (∀ fuel s toks s', Moment settings library path text fuel s toks → State.Steps settings s s' →
      (s'.view settings).Complete) ∧
    ∀ v : View, v.Complete → ∀ toks : List Token,
      (∀ want : Ty, want.Wanted → Ends v (expression toks want)) ∧ (∀ opened, Ends v (condition opened toks)) ∧
      (∀ header, Ends v (Infer.ofExcept (TypeExpr.ofTokens v header toks))) ∧
      (∀ t raw want, Ends v (arithmetic t raw want)) ∧
      (∀ sub (want : Ty), want.Wanted → SubBuilds v sub (Token.totalWeight toks) → Ends v (step sub toks want)) ∧
      (∀ header args final, TypeExpr.ArgumentsFormed v (fun _ => True) args toks.length →
        Ends v (Infer.ofExcept (TypeExpr.one v header args final toks))) ∧
      ∀ sum units, (∀ inner : List Arith.Lexeme, inner.length < units.length → Arith.Written inner →
        Arith.Reads inner (sum inner)) → Arith.Written units → Arith.Reads units (Arith.product sum units) := by
  constructor
  · intro fuel s toks s' moment steps
    have ready : s.Ready True fuel := moment.ready (.inl trivial)
    exact (ready.complete.steps steps).view settings
  · intro v complete toks
    refine ⟨fun want wanted => ?_, fun opened => ?_, fun header => ?_, fun t raw want => ?_, fun sub want wanted below => ?_,
      fun header args final below => ?_, fun sum units below written => ?_⟩
    · exact (expression_builds complete toks wanted).ends
    · exact (condition_builds complete opened toks).ends
    · exact (Ensures.ofExcept (TypeExpr.ofTokens_settled v header toks)).ends
    · exact (arithmetic_builds t raw want).ends
    · exact (step_builds complete toks below wanted).ends
    · exact (Ensures.ofExcept (TypeExpr.one_formed v header final (fun _ _ _ => trivial) below)).ends
    · exact Arith.product_reads below (Nat.le_refl _) written

/-- Where a pointer is visible in a program, a list in brackets that holds another one is read to an end, also by a
reader that reads its parts without a guard. -/
theorem readers_end_list :
    ∃ (s : State) (x : Variable), s.context.resolve? s.scope "p" = some x ∧ x.ty.isPointer = true ∧
      Ends (s.view Settings.plain) (expression [⟨.number, "1, [2, p^]", 0, 1, 1, 12⟩] .absent) ∧
      Ends (s.view Settings.plain) (step expression [⟨.number, "1, [2, p^]", 0, 1, 1, 12⟩] .absent) := by
  obtain ⟨s, toks, x, y, moment, visible, -, -, pointer, -⟩ := exists_moment_seesShadowed
  obtain ⟨reached, ends⟩ := readers_end Settings.plain (.memory []) "main.imp" shadowing
  have complete := reached _ s toks s moment (.refl s)
  obtain ⟨reads, -, -, -, steps, -⟩ := ends (s.view Settings.plain) complete [⟨.number, "1, [2, p^]", 0, 1, 1, 12⟩]
  refine ⟨s, x, visible, pointer, reads .absent .absent, steps expression .absent .absent ?_⟩
  exact fun inner want wanted _ => expression_takes complete inner wanted

end Impulse
