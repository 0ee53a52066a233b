import Impulse.Proofs.ConcreteCalls

/-!
# Putting types in the place of placeholders

Bindings are put into a type all at once: a placeholder inside of a bound type is not looked up again. Doing so with
one set of bindings and then with another one is doing it once with both of them combined. Nothing changes where
nothing is bound, and what remains open is open in a bound type or was not bound.
-/

namespace Impulse

namespace Bindings

/-- The bindings that do at once what `b` and then `c` do: what `b` binds gets the bindings of `c` put in, and `c`
binds what `b` does not. -/
def andThen (b c : Bindings) : Bindings :=
  b.map (fun e => (e.1, e.2.subst c)) ++ c

theorem find?_andThen (b c : Bindings) (x : String) :
    (b.andThen c).find? x = ((b.find? x).map (Ty.subst c)).or (c.find? x) := by
  unfold andThen find?
  rw [List.find?_append, List.find?_map]
  cases h : List.find? (fun e => e.1 == x) b with
  | none | some e => simp [h]

end Bindings

namespace Ty

theorem subst_subst (b c : Bindings) (t : Ty) : (t.subst b).subst c = t.subst (b.andThen c) := by
  induction t with
  | absent | prim => rfl
  | pointer elem ih | array elem _ ih | view elem _ ih => rw [subst, subst, subst, ih]
  | named name args ih =>
    rw [subst, subst, subst, substAll_eq_map, substAll_eq_map, substAll_eq_map, List.map_map]
    exact congrArg _ (List.map_congr_left ih)
  | placeholder x =>
    rw [subst, subst, Bindings.find?_andThen]
    cases b.find? x with
    | none => rw [Option.getD_none, subst, Option.map_none, Option.none_or]
    | some bound => rfl

theorem subst_nil (t : Ty) : t.subst [] = t := by
  induction t with
  | absent | prim | placeholder => rfl
  | pointer elem ih | array elem _ ih | view elem _ ih => rw [subst, ih]
  | named name args ih =>
    rw [subst, substAll_eq_map]
    exact congrArg _ ((List.map_congr_left ih).trans (List.map_id _))

theorem subst_of_unbound {t : Ty} (unbound : ∀ x ∈ t.placeholders, b.find? x = none) :
    t.subst b = t := by
  have none : t.subst b = t.subst [] := subst_congr t fun x mem => (unbound x mem).trans rfl
  exact none.trans (subst_nil t)

theorem hasPlaceholder_subst {t : Ty} : (t.subst b).hasPlaceholder = true ↔
    ∃ x ∈ t.placeholders, b.find? x = none ∨ ∃ bound, b.find? x = some bound ∧ bound.hasPlaceholder = true := by
  rw [← not_iff_not, Bool.not_eq_true, hasPlaceholder_subst_iff]
  push Not
  refine forall₂_congr fun x _ => ?_
  cases b.find? x with
  | none | some bound => simp

/-- Two substitutions are one with the combined bindings, in which a placeholder has its first binding with the second
ones put in, or else its second one. Bindings of other names leave a type alone. And something remains open exactly if
a placeholder of the type is not bound, or bound to a type in which something is open. -/
theorem subst_laws (t : Ty) (b c : Bindings) :
    (∃ d : Bindings, ∀ x, d.find? x = ((b.find? x).map (subst c)).or (c.find? x)) ∧
    (∀ d : Bindings, (∀ x, d.find? x = ((b.find? x).map (subst c)).or (c.find? x)) → (t.subst b).subst c = t.subst d) ∧
    ((∀ x ∈ t.placeholders, b.find? x = none) → t.subst b = t) ∧
    ((t.subst b).hasPlaceholder = true ↔ ∃ x ∈ t.placeholders,
      b.find? x = none ∨ ∃ bound, b.find? x = some bound ∧ bound.hasPlaceholder = true) := by
  refine ⟨⟨b.andThen c, b.find?_andThen c⟩, ?_, subst_of_unbound, hasPlaceholder_subst⟩
  intro d combined
  rw [subst_subst]
  exact subst_congr t fun x _ => (b.find?_andThen c x).trans (combined x).symm

def pairOfOpen : Ty :=
  .named "Pair" [.pointer (.placeholder "T"), .array (.placeholder "U") "3"]

/-- The first bindings give `$T` a type in which `$U` is open, and the second ones give `$U` a type and `$T` another
one, which comes too late. -/
theorem subst_laws_pairOfOpen :
    (pairOfOpen.subst [("T", .named "Box" [.placeholder "U"])]).subst [("T", .bool), ("U", .int)]
      = pairOfOpen.subst [("T", .named "Box" [.int]), ("T", .bool), ("U", .int)] ∧
    pairOfOpen.subst [("V", .bool)] = pairOfOpen ∧
    (pairOfOpen.subst [("T", .named "Box" [.placeholder "U"])]).hasPlaceholder = true := by
  refine ⟨?_, ?_, ?_⟩
  · refine (subst_laws pairOfOpen _ _).2.1 _ fun x => ?_
    exact Bindings.find?_andThen [("T", .named "Box" [.placeholder "U"])] [("T", .bool), ("U", .int)] x
  · exact (subst_laws pairOfOpen [("V", .bool)] []).2.2.1 (by decide)
  · exact (subst_laws pairOfOpen _ []).2.2.2.mpr ⟨"U", by decide, .inl (by decide)⟩

end Ty

end Impulse
