import Impulse.Proofs.Completeness

/-!
# What the arguments of a call bind

A call checks its arguments from the left and binds placeholders on the way. An argument binds the placeholder of a
parameter that takes a type, or a placeholder that is inferred, or nothing. The placeholders of the function itself and
those the arguments bring along are kept in the same bindings, so a call can bind both.
-/

namespace Impulse

def Signature.placeholders (sig : Signature) : List String :=
  sig.params.flatMap (·.ty.placeholders)

/-- The types that an argument can bind a placeholder to: the type it stands for, and the type it has. -/
def Node.Offers (n : Node) (ty : Ty) : Prop :=
  n.typeValue? = some ty ∨ n.ty.resolved = ty

theorem Ty.subst_eq_placeholder {ty : Ty} (h : ty.subst b = .placeholder x) :
    ∃ y, ty = .placeholder y ∧ (y = x ∧ b.find? y = none ∨ b.find? y = some (.placeholder x)) := by
  cases ty with
  | placeholder y =>
    refine ⟨y, rfl, ?_⟩
    rw [subst] at h
    cases found : b.find? y with
    | none =>
      rw [found] at h
      exact .inl ⟨Ty.placeholder.inj h, rfl⟩
    | some bound =>
      rw [found] at h
      exact .inr (congrArg some h)
  | absent | prim | pointer | array | named | view =>
    rw [subst] at h
    cases h

namespace Call

theorem takesType_iff : takesType p = true ↔ p.ty = .placeholder p.name := by
  unfold takesType
  cases p.ty with
  | placeholder name => simp only [beq_iff_eq, Ty.placeholder.injEq, eq_comm (a := p.name)]
  | absent | prim | pointer | array | named | view => simp

theorem mem_typePlaceholders :
    x ∈ typePlaceholders params ↔ ∃ p ∈ params, takesType p = true ∧ p.name = x := by
  simp [typePlaceholders, and_assoc]

theorem checkArg_cases (h : checkArg callee declared position p arg b = .ok b') :
    (takesType p = true ∧ ∃ bound, arg.typeValue? = some bound ∧ b' = b.bind p.name bound) ∨
      (takesType p = false ∧ missing? declared b p.ty = none ∧
        ((∃ x, p.ty.subst b = .placeholder x ∧ x ∉ declared ∧ b' = b.bind x arg.ty.resolved) ∨
          ((∀ x, p.ty.subst b = .placeholder x → x ∈ declared) ∧ (p.ty.subst b).accepts arg = true ∧ b' = b))) := by
  have accepted {c : Bool} {e : CallProblem}
      (h : (if c = true then Except.ok b else .error e) = Except.ok b') : c = true ∧ b' = b := by
    cases c with
    | true => exact ⟨rfl, (Except.ok.inj h).symm⟩
    | false => cases h
  unfold checkArg at h
  cases takes : takesType p with
  | true =>
    rw [takes, if_pos rfl] at h
    cases missing : arg.isAbsent with
    | true =>
      rw [missing] at h
      cases h
    | false =>
      rw [missing, if_neg Bool.false_ne_true] at h
      cases bound : arg.typeValue? with
      | none =>
        rw [bound] at h
        cases h
      | some ty =>
        rw [bound] at h
        exact .inl ⟨rfl, ty, rfl, (Except.ok.inj h).symm⟩
  | false =>
    rw [takes, if_neg Bool.false_ne_true] at h
    refine .inr ⟨rfl, ?_⟩
    cases missing : missing? declared b p.ty with
    | some name =>
      rw [missing] at h
      cases h
    | none =>
      refine ⟨rfl, ?_⟩
      rw [missing] at h
      dsimp only at h
      split at h
      · cases h
      · split at h
        · next x open' =>
          by_cases known : x ∈ declared
          · rw [if_pos (List.contains_iff_mem.mpr known)] at h
            refine .inr ⟨fun y same => ?_, accepted h⟩
            exact Ty.placeholder.inj (open'.symm.trans same) ▸ known
          · rw [if_neg (by simpa using known)] at h
            exact .inl ⟨x, open', known, (Except.ok.inj h).symm⟩
        · next closed => exact .inr ⟨fun y same => absurd same (closed y), accepted h⟩

theorem checkArgs_preserves {P : Bindings → Prop} (start : P b)
    (step : ∀ position p arg b b', (p, arg) ∈ pairs → P b → checkArg callee declared position p arg b = .ok b' → P b')
    (h : checkArgs callee declared position b pairs = .ok b') : P b' := by
  induction pairs generalizing position b with
  | nil =>
    cases h
    exact start
  | cons pair pairs ih =>
    obtain ⟨p, arg⟩ := pair
    rw [checkArgs] at h
    split at h
    · cases h
    · next b₁ first =>
      exact ih (step _ _ _ _ _ (.head _) start first)
        (fun position p arg b b' mem => step position p arg b b' (.tail _ mem)) h

theorem checkArgs_append
    (h : checkArgs callee declared position b (before ++ after) = .ok b') :
    ∃ mid, checkArgs callee declared position b before = .ok mid ∧
      checkArgs callee declared (position + before.length) mid after = .ok b' := by
  induction before generalizing position b with
  | nil => exact ⟨b, rfl, h⟩
  | cons pair before ih =>
    obtain ⟨p, arg⟩ := pair
    rw [List.cons_append, checkArgs] at h
    rw [checkArgs]
    split at h
    · cases h
    · next b₁ first =>
      obtain ⟨mid, front, back⟩ := ih h
      refine ⟨mid, front, ?_⟩
      rwa [List.length_cons, Nat.add_comm before.length 1, ← Nat.add_assoc]

theorem check_ok (h : check functions callee args = .ok b) :
    ∃ sig, functions.get? callee = some sig ∧ (sig.variadic = true ∧ b = [] ∨
      sig.variadic = false ∧ args.length = sig.params.length ∧
        checkArgs callee (typePlaceholders sig.params) 1 [] (sig.params.zip args) = .ok b) := by
  unfold check at h
  cases known : functions.get? callee with
  | none =>
    rw [known] at h
    cases h
  | some sig =>
    simp only [known] at h
    refine ⟨sig, rfl, ?_⟩
    cases variadic : sig.variadic with
    | true =>
      rw [variadic, if_pos rfl] at h
      exact .inl ⟨rfl, (Except.ok.inj h).symm⟩
    | false =>
      rw [variadic, if_neg Bool.false_ne_true] at h
      split at h
      · cases h
      · next counted => exact .inr ⟨rfl, Decidable.not_not.mp counted, h⟩

/-- Where bindings come from: a bound name is a placeholder of a parameter, or an open type that an argument offers, and
whatever is bound is a type that an argument offers. -/
structure Names (pairs : List (Param × Node)) (b : Bindings) : Prop where
  bound : ∀ x, (b.find? x).isSome = true →
    (∃ q ∈ pairs, x ∈ q.1.ty.placeholders) ∨ ∃ q ∈ pairs, q.2.Offers (.placeholder x)
  values : ∀ x ty, b.find? x = some ty → ∃ q ∈ pairs, q.2.Offers ty

namespace Names

theorem mono (h : Names pairs b) (sub : pairs ⊆ pairs') : Names pairs' b := by
  constructor
  · intro x found
    rcases h.bound x found with ⟨q, mem, here⟩ | ⟨q, mem, offers⟩
    · exact .inl ⟨q, sub mem, here⟩
    · exact .inr ⟨q, sub mem, offers⟩
  · intro x ty found
    obtain ⟨q, mem, offers⟩ := h.values x ty found
    exact ⟨q, sub mem, offers⟩

theorem nil : Names pairs [] := by
  constructor
  · intro x found
    cases found
  · intro x ty found
    cases found

theorem bind (h : Names pairs b)
    (name : (∃ q ∈ pairs, x ∈ q.1.ty.placeholders) ∨ ∃ q ∈ pairs, q.2.Offers (.placeholder x))
    (value : ∃ q ∈ pairs, q.2.Offers ty) : Names pairs (b.bind x ty) := by
  constructor
  · intro y found
    rw [Bindings.find?_bind] at found
    split at found
    · next same => exact same ▸ name
    · exact h.bound y found
  · intro y ty' found
    rw [Bindings.find?_bind] at found
    split at found
    · exact Option.some.inj found ▸ value
    · exact h.values y ty' found

theorem step (mem : (p, arg) ∈ pairs) (h : Names pairs b)
    (checked : checkArg callee declared position p arg b = .ok b') : Names pairs b' := by
  rcases checkArg_cases checked with ⟨takes, ty, value, rfl⟩ | ⟨-, -, ⟨x, open', -, rfl⟩ | ⟨-, -, rfl⟩⟩
  · refine h.bind (.inl ⟨_, mem, ?_⟩) ⟨_, mem, .inl value⟩
    rw [takesType_iff.mp takes]
    exact List.mem_singleton_self _
  · refine h.bind ?_ ⟨_, mem, .inr rfl⟩
    obtain ⟨y, type, ⟨rfl, -⟩ | found⟩ := Ty.subst_eq_placeholder open'
    · refine .inl ⟨_, mem, ?_⟩
      rw [type]
      exact List.mem_singleton_self _
    · exact .inr (h.values y _ found)
  · exact h

end Names

theorem checkArgs_names (h : checkArgs callee declared position [] pairs = .ok b) : Names pairs b :=
  checkArgs_preserves .nil (fun _ _ _ _ _ mem names checked => names.step mem checked) h

theorem check_names
    (known : functions.get? callee = some sig) (h : check functions callee args = .ok b) :
    (∀ x, (b.find? x).isSome = true → x ∈ sig.placeholders ∨ ∃ arg ∈ args, arg.Offers (.placeholder x)) ∧
      ∀ x ty, b.find? x = some ty → ∃ arg ∈ args, arg.Offers ty := by
  obtain ⟨sig', known', from'⟩ := check_ok h
  obtain rfl := Option.some.inj (known.symm.trans known')
  have names : Names (sig.params.zip args) b := by
    rcases from' with ⟨-, rfl⟩ | ⟨-, -, checked⟩
    · exact .nil
    · exact checkArgs_names checked
  constructor
  · intro x found
    rcases names.bound x found with ⟨q, mem, here⟩ | ⟨q, mem, offers⟩
    · exact .inl (List.mem_flatMap.mpr ⟨q.1, (List.of_mem_zip mem).1, here⟩)
    · exact .inr ⟨q.2, (List.of_mem_zip mem).2, offers⟩
  · intro x ty found
    obtain ⟨q, mem, offers⟩ := names.values x ty found
    exact ⟨q.2, (List.of_mem_zip mem).2, offers⟩

end Call

end Impulse
