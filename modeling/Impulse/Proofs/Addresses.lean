import Impulse.Proofs.FittingArguments
import Impulse.Proofs.Shadowing

/-!
# Addresses of places

The address of a place has the type of a pointer to the type that the place is written with. The place `xs|0|` is written
with the view `int[3]|0|`, which shows an `int`, and pointers do not look through views: an address fits a pointer to
what the place shows only if the place has that type itself, or if the pointers end in `void` or in an open type, which
go with everything.
-/

namespace Impulse

namespace Ty

mutual

theorem eq_of_same : {a b : Ty} → a.same b = true → a = b
  | .prim p, .prim q, h => by
    rw [same, beq_iff_eq] at h
    rw [h]
  | .pointer a, .pointer b, h => by
    rw [same] at h
    rw [eq_of_same h]
  | .array a m, .array b n, h => by
    rw [same, Bool.and_eq_true, beq_iff_eq] at h
    rw [h.1, eq_of_same h.2]
  | .named x as, .named y bs, h => by
    rw [same, Bool.and_eq_true, beq_iff_eq] at h
    rw [h.1, eq_of_sameAll h.2]
  | .placeholder x, .placeholder y, h => by
    rw [same, beq_iff_eq] at h
    rw [h]
  | .view a i, .view b j, h => by
    rw [same, Bool.and_eq_true, beq_iff_eq] at h
    rw [h.1, eq_of_same h.2]

theorem eq_of_sameAll : {as bs : List Ty} → sameAll as bs = true → as = bs
  | [], [], _ => rfl
  | a :: as, b :: bs, h => by
    rw [sameAll, Bool.and_eq_true] at h
    rw [eq_of_same h.1, eq_of_sameAll h.2]

end

theorem sizeOf_pointee_le (t : Ty) : sizeOf t.pointee ≤ sizeOf t := by
  fun_induction pointee t with
  | case1 elem ih =>
    rw [pointer.sizeOf_spec]
    omega
  | case2 t => exact Nat.le_refl _

theorem exists_view_of_resolved_ne {t : Ty} (h : t.resolved ≠ t) :
    ∃ base index, t = .view base index ∧ sizeOf t.resolved < sizeOf t := by
  cases t with
  | view base index =>
    refine ⟨base, index, rfl, ?_⟩
    cases elem : base.element? with
    | none => exact absurd (by rw [resolved, elem, Option.getD_none]) h
    | some e =>
      have := sizeOf_element?_le elem
      rw [resolved, elem, Option.getD_some, view.sizeOf_spec]
      omega
  | absent | prim | pointer | array | named | placeholder => exact absurd rfl h

theorem resolved_view_ne (index : String) (h : base.element?.isSome = true) :
    (view base index).resolved ≠ view base index := by
  intro same
  obtain ⟨e, elem⟩ := Option.isSome_iff_exists.mp h
  have smaller := sizeOf_element?_le elem
  rw [resolved, elem, Option.getD_some] at same
  rw [same, view.sizeOf_spec] at smaller
  omega

theorem pointeesCompatible_view {a base : Ty} (smaller : sizeOf a < sizeOf (view base index)) :
    a.pointeesCompatible (.view base index) = (a.isVoid || a.isPlaceholder) := by
  unfold pointeesCompatible
  have differ : a.same (.view base index) = false := by
    refine Bool.eq_false_iff.mpr fun same => ?_
    rw [eq_of_same same] at smaller
    exact Nat.lt_irrefl _ smaller
  cases void : a.isVoid with
  | true => rfl
  | false =>
    cases opened : a.isPlaceholder with
    | true => rfl
    | false =>
      simp only [isVoid, isPlaceholder, Bool.or_self, Bool.false_eq_true, if_false]
      cases a with
      | named => rfl
      | absent | prim | pointer | array | placeholder | view => exact differ

theorem compatible_pointer (a b : Ty) :
    (pointer a).compatible (.pointer b) = a.pointee.pointeesCompatible b.pointee := by
  rw [compatible]
  rfl

theorem accepts_addressOf {n : Node} (complete : n.ty.isComplete = true) (t : Token) :
    (pointer n.ty.resolved).accepts (.addressOf t n) = true ↔
      n.ty.resolved = n.ty ∨ n.ty.resolved.pointee.isVoid = true ∨ n.ty.resolved.pointee.isPlaceholder = true := by
  have fits : (pointer n.ty.resolved).accepts (.addressOf t n)
      = n.ty.resolved.pointee.pointeesCompatible n.ty.pointee :=
    compatible_pointer n.ty.resolved n.ty
  rw [fits]
  by_cases same : n.ty.resolved = n.ty
  · have self := pointeesCompatible_self (isComplete_pointee complete)
    rw [same]
    exact ⟨fun _ => .inl rfl, fun _ => self⟩
  · obtain ⟨base, index, view, smaller⟩ := exists_view_of_resolved_ne same
    have pointeeSmaller := Nat.lt_of_le_of_lt (sizeOf_pointee_le n.ty.resolved) smaller
    have behind : n.ty.pointee = .view base index := by rw [view, pointee]; simp
    rw [view] at pointeeSmaller
    rw [behind, view, pointeesCompatible_view pointeeSmaller, Bool.or_eq_true, ← view]
    exact ⟨.inr, fun h => h.resolve_left same⟩

end Ty

namespace View

theorem Builds.resolved_ne_of_index {v : View}
    (h : v.Builds (.node token ty (.index base position))) : ty.resolved ≠ ty := by
  cases h with
  | index _ _ _ indexable => exact Ty.resolved_view_ne _ indexable

/-- At every moment of a reading no type in sight has a missing part. Where that holds, let an expression be read into a
place: a variable, a field, a dereference or an index. The address of the place fits a pointer to what the place shows
exactly if the type of the place is what it shows, or if the pointers of that type end in `void` or in an open type. An
index never has the type of what it shows. -/
theorem address_fits (settings : Settings) (library : Library) (path text : String) :
    (∀ fuel s toks, Moment settings library path text fuel s toks → (s.view settings).Complete) ∧
    ∀ v : View, v.Complete → ∀ toks want n, want.Wanted → Infer.Gives v (Infer.expression toks want) n →
      n.isPlace = true → (∀ t, (Ty.pointer n.ty.resolved).accepts (.addressOf t n) = true ↔
        n.ty.resolved = n.ty ∨ n.ty.resolved.pointee.isVoid = true ∨ n.ty.resolved.pointee.isPlaceholder = true) ∧
      ∀ token ty base position, n = .node token ty (.index base position) → n.ty.resolved ≠ n.ty := by
  refine ⟨fun fuel s toks moment => ?_, fun v complete toks want n wanted read _ => ?_⟩
  · have ready : s.Ready True fuel := moment.ready (.inl trivial)
    exact ready.complete.view settings
  · have built : v.Builds n := (Infer.expression_builds complete toks wanted).of_gives read
    refine ⟨Ty.accepts_addressOf (built.completeArg complete).1, ?_⟩
    rintro token ty base position rfl
    exact built.resolved_ne_of_index

end View

/-- What an expression is read into, in the state before a token of a program. -/
def valueBefore? (text : String) (number : Nat) (written : String) (want : Ty) : Option Node :=
  (stateBefore? Settings.plain (.memory []) "main.imp" text number).bind fun s =>
    (Infer.expression (tokenize false 0 written).tokens.dropLast want (s.view Settings.plain)).run' []

theorem exists_moment_of_valueBefore?
    (h : valueBefore? text number written want = some n) :
    ∃ fuel s toks, Moment Settings.plain (.memory []) "main.imp" text fuel s toks ∧
      Infer.Gives (s.view Settings.plain) (Infer.expression (tokenize false 0 written).tokens.dropLast want) n := by
  obtain ⟨s, before, read⟩ := Option.bind_eq_some_iff.mp h
  obtain ⟨toks, moment⟩ := Moment.of_stateBefore? (by decide) before
  refine ⟨_, s, toks, moment, [], ?_⟩
  unfold EStateM.run' at read
  split at read
  · next n' after given =>
    cases read
    exact ⟨after, given⟩
  · cases read

/-- A function with an array and a pointer. -/
def pointing : String :=
  "main :: () \x7b xs: int[3]; p: ^int; \x7d"

/-- The pointer leads to a place of type `int`, and the place of an element has the type of a view. The first 15 tokens
end behind the declarations. -/
theorem pointing_read :
    (valueBefore? pointing 15 "p^" .absent).any (fun n => n.isPlace && n.ty.same .int) = true ∧
      (valueBefore? pointing 15 "xs|0|" .absent).any
        (fun n => n.isPlace && n.ty.same (.view (.array .int "3") "0")) = true := by
  decide +kernel

theorem exists_place
    (h : (valueBefore? text number written .absent).any (fun n => n.isPlace && n.ty.same ty) = true) :
    ∃ n, (∃ fuel s toks, Moment Settings.plain (.memory []) "main.imp" text fuel s toks ∧ ∃ words,
      Infer.Gives (s.view Settings.plain) (Infer.expression words .absent) n) ∧ n.isPlace = true ∧ n.ty = ty := by
  obtain ⟨n, value, test⟩ := (Option.any_eq_true _ _).mp h
  rw [Bool.and_eq_true] at test
  obtain ⟨fuel, s, toks, moment, read⟩ := exists_moment_of_valueBefore? value
  exact ⟨n, ⟨fuel, s, toks, moment, _, read⟩, test.1, Ty.eq_of_same test.2⟩

/-- The address of what the pointer leads to fits a pointer to integers. -/
theorem address_fits_pointing :
    ∃ n, (∃ fuel s toks, Moment Settings.plain (.memory []) "main.imp" pointing fuel s toks ∧ ∃ words,
      Infer.Gives (s.view Settings.plain) (Infer.expression words .absent) n) ∧ n.isPlace = true ∧
      ∀ t, (Ty.pointer n.ty.resolved).accepts (.addressOf t n) = true := by
  obtain ⟨n, ⟨fuel, s, toks, moment, words, read⟩, place, ty⟩ := exists_place pointing_read.1
  obtain ⟨completes, fits⟩ := View.address_fits Settings.plain (.memory []) "main.imp" pointing
  obtain ⟨accepted, -⟩ := fits _ (completes _ _ _ moment) words .absent n .absent read place
  exact ⟨n, ⟨fuel, s, toks, moment, words, read⟩, place, fun t => (accepted t).mpr (.inl (by rw [ty]; rfl))⟩

/-- The address of an element does not fit a pointer to what the element shows, an integer. -/
theorem address_misfits_element :
    ∃ n, (∃ fuel s toks, Moment Settings.plain (.memory []) "main.imp" pointing fuel s toks ∧ ∃ words,
      Infer.Gives (s.view Settings.plain) (Infer.expression words .absent) n) ∧ n.isPlace = true ∧
      n.ty.resolved = .int ∧ ∀ t, (Ty.pointer .int).accepts (.addressOf t n) = false := by
  obtain ⟨n, read, place, ty⟩ := exists_place pointing_read.2
  have shown : n.ty.resolved = .int := by rw [ty]; rfl
  have complete : n.ty.isComplete = true := by rw [ty]; rfl
  refine ⟨n, read, place, shown, fun t => Bool.eq_false_iff.mpr fun accepted => ?_⟩
  have fits := (Ty.accepts_addressOf complete t).mp (by rw [shown]; exact accepted)
  rw [shown, ty] at fits
  simp [Ty.int, Ty.pointee, Ty.isVoid, Ty.isPlaceholder] at fits

end Impulse
