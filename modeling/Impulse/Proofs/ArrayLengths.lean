import Impulse.Proofs.Formulas
import Impulse.Proofs.Recheck

/-!
# The lengths of arrays

A list that is put into an array where the array is declared has at most as many elements as the array. Nothing else
compares the two: an assignment, an argument or a returned value may be a list that is longer than the array it is for.
-/

namespace Impulse

open List

/-- No declaration in the tree gives an array a list that is longer than the array. -/
def Node.ListsHeld (n : Node) : Prop :=
  ∀ t own name ty value const global flat,
    .node t own (.declare name ty value const global flat) ∈ n.walk → ty.Holds value

theorem Ty.holds_numeral (ty : Ty) (t : Token) (text : String) (own : Ty) : ty.Holds (.numeral t text own) := by
  intro _ _ _ _ _ _ _ list
  cases list

theorem View.Initial.holds {v : View} {value : Node} (h : v.Initial written ty value) :
    ty.Holds value := by
  cases h with
  | none =>
    intro _ _ _ _ _ _ _ list
    cases list
  | value _ length _ =>
    cases length with
    | same holds => exact holds
    | @counted _ _ _ elems _ list =>
      subst list
      intro _ _ _ _ _ size array same known
      cases array
      cases same
      obtain ⟨read, -⟩ := Option.filter_eq_some_iff.mp known
      have counted : Text.integer? (toString elems.length) = some (elems.length : Int) :=
        Text.integer?_toString (elems.length : Int)
      exact Int.le_of_eq (Option.some.inj (counted.symm.trans read))

namespace State

variable {s s' : State}

theorem News.listsHeld (hs : s.Complete) (h : s.News settings s' n) : n.ListsHeld := by
  intro t own name ty value const global flat below
  rcases h.walk hs _ below with root | ⟨_, _, counter⟩ | ⟨v, -, -, part⟩
  · cases h with
    | define t typed initial =>
      cases root
      exact initial.holds
    | enumCount d =>
      cases root
      exact Ty.holds_numeral _ _ _ _
    | write h | begin h => cases h <;> cases root
    | _ => cases root
  · cases counter
    exact Ty.holds_numeral _ _ _ _
  · cases part with
    | operand built => cases built

/-- What holds of all new nodes, and of the nodes that name imported files, holds of everything that is listed. -/
theorem Steps.forall_nodes {P : Node → Prop} (news : ∀ {s s' : State} {n}, s.Complete → s.News settings s' n → P n)
    (source : ∀ t path, P (.plain t (.source path))) (complete : s.Complete) (hs : ∀ n ∈ s.nodes, P n)
    (h : Steps settings s s') : ∀ n ∈ s'.nodes, P n := by
  have keeps : ∀ {s s'}, (s.Complete ∧ ∀ n ∈ s.nodes, P n) → Step settings s s' → s'.Complete ∧ ∀ n ∈ s'.nodes, P n := by
    intro s s' ⟨complete, hs⟩ h
    have adds : s.Adds P s' := .step h (fun n hn => hs n (mem_append_right _ hn)) fun n => news complete
    exact ⟨complete.step h, fun n hn => (adds.nodes hn).elim (hs n) id⟩
  refine (Steps.invariant keeps ?_ ?_ h ⟨complete, hs⟩).2
  · intro s t file last ⟨complete, _⟩ _
    exact ⟨complete.child t file last, forall_mem_nil _⟩
  · intro s t file last c merged ⟨complete, hs⟩ _ _ ⟨completeChild, inside⟩ _ taken
    refine ⟨complete.absorbed completeChild taken, fun n hn => ?_⟩
    have origin : n ∈ (s.noted t file).nodes ∨ n ∈ c.program.map (·.node) := by
      simp only [State.nodes, State.absorbed, map_append, mem_append] at hn ⊢
      grind
    rcases origin with here | listed
    · rcases mem_nodes_emitted here with old | rfl
      · exact hs n old
      · exact source t _
    · exact inside n (mem_append_left _ listed)

end State

/-- In every accepted program the list that a declaration gives an array has at most as many elements as the array. -/
theorem compile_listsHeld {settings : Settings} {library : Library} {path text : String}
    (accepted : (compile settings library path text).stop = none) :
    ∀ e ∈ (compile settings library path text).program, e.node.ListsHeld := by
  obtain ⟨last, s, steps, -, program, -⟩ := compile_ok accepted
  have source (t : Token) (path : String) : (Node.plain t (.source path)).ListsHeld := by
    intro _ _ _ _ _ _ _ _ below
    cases mem_singleton.mp (Node.walk_node .. ▸ below)
  rw [program]
  intro e he
  refine steps.forall_nodes State.News.listsHeld source (.start library path text last) (forall_mem_nil _) e.node ?_
  exact mem_append_left _ (mem_map_of_mem he)

def filled : String :=
  "f :: () \x7b c: int[2] = [1, 2]; \x7d"

theorem compile_listsHeld_filled :
    (compile Settings.plain (.memory []) "main.imp" filled).stop = none ∧
    ∃ e ∈ (compile Settings.plain (.memory []) "main.imp" filled).program,
      e.node.text = "VarDecl c: int[2] = [1, 2]" ∧ e.node.ListsHeld := by
  have read : (compile Settings.plain (.memory []) "main.imp" filled).stop.isNone = true ∧
      (compile Settings.plain (.memory []) "main.imp" filled).program.any
        (·.node.text == "VarDecl c: int[2] = [1, 2]") = true := by
    decide +kernel
  have accepted := Option.isNone_iff_eq_none.mp read.1
  obtain ⟨e, mem, same⟩ := any_eq_true.mp read.2
  exact ⟨accepted, e, mem, beq_iff_eq.mp same, compile_listsHeld accepted e mem⟩

/-- An assignment, a return and a call with lists that are longer than the arrays they are for. -/
def overlong : String :=
  "g :: (a: int[1]): int[1] \x7b a = [1, 2]; return [1, 2]; \x7d f :: () \x7b g([1, 2]); \x7d"

/-- Outside of declarations longer lists are accepted. -/
theorem compile_overlong :
    (compile Settings.plain (.memory []) "main.imp" overlong).stop = none ∧
    (compile Settings.plain (.memory []) "main.imp" overlong).program.map (·.node.text) =
      ["FuncDef g(a: int[1]): int[1]", "Reassign a = [1, 2]", "Return [1, 2]", "EndBlock", "FuncDef f(): void",
       "g([1, 2])", "EndBlock"] := by
  have accepted : (compile Settings.plain (.memory []) "main.imp" overlong).stop.isNone = true := by decide +kernel
  exact ⟨Option.isNone_iff_eq_none.mp accepted, by decide +kernel⟩

end Impulse
