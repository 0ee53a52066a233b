import Impulse.Proofs.Chronicle

/-!
# What is written to constants

A constant gets its value where it is declared. An assignment is refused if its target leads to a constant, also
through indexing and through the fields of a constant that holds a struct. The header of a loop is not checked in
this way: a loop that counts must have a numeric counter, but unless the loop introduces the counter itself, that can
be a constant.
-/

namespace Impulse

namespace State.DeclaredBy

variable {s : State}

theorem origin (declared : s.DeclaredBy h) (found : s.context.resolve? s.scope name = some x) :
    (∃ d ∈ h.inForce, x ∈ d.introduced) ∨ ∃ e ∈ h.enums, x ∈ Parse.enumConstants e := by
  rcases resolve?_eq _ _ found with inScope | ⟨-, inGlobals⟩
  · obtain ⟨-, nearer, d, outer, split, brought, -⟩ := declared.of_scope inScope
    exact .inl ⟨d, by simp [History.inForce, split], brought⟩
  · obtain ⟨-, ⟨d, mem, brought⟩ | constant⟩ := declared.globals.origin name x inGlobals
    · exact .inl ⟨d, List.mem_append_right _ mem, brought⟩
    · exact .inr constant

end State.DeclaredBy

end Impulse
