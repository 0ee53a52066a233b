import Impulse.Proofs.Occurrences
import Impulse.Proofs.Shadowing

/-!
# Every variable is stored under its own name

A name is spelled by looking up its first parts, and what it was spelled to is looked up again later: a loop
counter and a captured variable are both spelled twice. The second spelling changes nothing wherever a lookup
returns variables by their own names, and the frames and the global variables of a reading are such lookups.
-/

namespace Impulse

open List

theorem Scope.DeclaredBy.name_of_find? {s : Scope} {frames : List (List Declaration)} (h : s.DeclaredBy frames)
    {f : Frame} (mem : f ∈ s.top :: s.below) {name : String} {x : Variable} (found : f.find? name = some x) :
    x.name = name := by
  induction h generalizing f with
  | empty =>
    obtain rfl := mem_singleton.mp mem
    cases found
  | push h kind ih =>
    rcases mem_cons.mp mem with rfl | outer
    · exact ih (.head _) found
    · exact ih outer found
  | @declare s s' d own outer h declared ih =>
    rcases mem_cons.mp mem with rfl | outer
    · have seen : s'.find? name = some x := found
      rw [find?_declareList? declared] at seen
      rcases Option.or_eq_some_iff.mp seen with new | ⟨-, old⟩
      · exact (Declaration.mem_of_find? new).2
      · exact ih (.head _) old
    · rw [below_declareList? declared] at outer
      exact ih (.tail _ outer) found

/-- A lookup that returns each variable under its own name spells every name once and for all. Every moment of a
reading is in a state that is reached. In such a state every frame of the scope, and the table of global
variables, holds each variable under its own name. -/
theorem spelling_idempotent (settings : Settings) (library : Library) (path text : String) :
    (∀ look : String → Option Variable, (∀ n x, look n = some x → x.name = n) →
      ∀ name, spelling look (spelling look name) = spelling look name) ∧
    (∀ fuel s toks, Moment settings library path text fuel s toks → ∃ h, State.Reached settings library path text s h) ∧
    ∀ s h, State.Reached settings library path text s h →
      (∀ name x, s.context.globals.get? name = some x → x.name = name) ∧
      ∀ f ∈ s.scope.top :: s.scope.below, ∀ name x, f.find? name = some x → x.name = name := by
  refine ⟨fun look named => spelling_spelling look named, fun _ _ _ moment => moment.reached, ?_⟩
  intro s h reached
  have declared := reached.declaredBy
  exact ⟨fun name x found => (declared.globals.origin name x found).1,
    fun f mem name x => declared.scope.name_of_find? mem⟩

theorem spelling_idempotent_shadowing :
    ∃ s h x, State.Reached Settings.plain (.memory []) "main.imp" shadowing s h ∧
      s.context.resolve? s.scope "p" = some x ∧ x.ty.isPointer = true ∧
      spelling s.scope.find? (spelling s.scope.find? "p.x") = spelling s.scope.find? "p.x" := by
  obtain ⟨s, toks, x, y, moment, visible, -, -, pointer, -⟩ := exists_moment_seesShadowed
  obtain ⟨once, reach, stored⟩ := spelling_idempotent Settings.plain (.memory []) "main.imp" shadowing
  obtain ⟨h, reached⟩ := reach _ s toks moment
  have named := (stored s h reached).2 s.scope.top (.head _)
  exact ⟨s, h, x, reached, visible, pointer, once s.scope.find? named "p.x"⟩

end Impulse
