import Impulse.Proofs.TokenWeight

/-!
# Matching parentheses

What is read from the front of some tokens, a type or a value, takes parentheses in pairs.
-/

namespace Impulse.Token

/-- The number of parentheses that are open behind some signs, if `depth` are open in front of them. There is none if
one is closed that was not opened. What is no sign is an operand. -/
def depth? (depth : Nat) : List (Option Kind) → Option Nat
  | [] => some depth
  | sign :: signs =>
    if sign = some .lparen then depth? (depth + 1) signs
    else if sign = some .rparen then if depth = 0 then none else depth? (depth - 1) signs
    else depth? depth signs

theorem depth?_append (depth : Nat) (front back : List (Option Kind)) :
    depth? depth (front ++ back) = (depth? depth front).bind (depth? · back) := by
  fun_induction depth? depth front <;> simp_all [depth?]

/-- As many parentheses are open behind the signs as in front of them. -/
def Nested (signs : List (Option Kind)) : Prop :=
  ∀ depth, depth? depth signs = some depth

namespace Nested

theorem depth?_append (h : Nested signs) (depth : Nat) (more : List (Option Kind)) :
    depth? depth (signs ++ more) = depth? depth more := by
  rw [Token.depth?_append, h depth]
  rfl

theorem nil : Nested [] :=
  fun _ => rfl

theorem append (h : Nested signs) (h' : Nested more) : Nested (signs ++ more) :=
  fun depth => (h.depth?_append depth more).trans (h' depth)

theorem cons (plain : sign ≠ some .lparen ∧ sign ≠ some .rparen) (h : Nested signs) :
    Nested (sign :: signs) := by
  intro depth
  rw [depth?, if_neg plain.1, if_neg plain.2, h depth]

theorem group (h : Nested signs) : Nested (some .lparen :: (signs ++ [some .rparen])) := by
  intro depth
  rw [depth?, if_pos rfl, h.depth?_append]
  rfl

end Nested

def signs (toks : List Token) : List (Option Kind) :=
  toks.map fun t => some t.kind

theorem signs_append (toks rest : List Token) : signs (toks ++ rest) = signs toks ++ signs rest :=
  List.map_append

theorem nested_of_untilClose {inner}
    (h : untilClose depth toks = some (inner, rest)) (d : Nat) : depth? (d + depth) (signs inner) = some d := by
  induction toks generalizing depth inner with
  | nil => cases h
  | cons t toks ih =>
    have step {e : Nat} (h : (untilClose e toks).map (consFst t) = some (inner, rest))
        (here : ∀ ts, depth? (d + depth) (signs (t :: ts)) = depth? (d + e) (signs ts)) :
        depth? (d + depth) (signs inner) = some d := by
      obtain ⟨⟨ts, us⟩, found, same⟩ := Option.map_eq_some_iff.mp h
      cases same
      exact (here ts).trans (ih found)
    rw [untilClose.eq_def] at h
    dsimp only at h
    split at h
    · next closes =>
      split at h
      · cases h
        rfl
      · exact step h fun ts => by simp [signs, depth?, closes, ← Nat.add_assoc]
    · next noClose =>
      split at h
      · next opens => exact step h fun ts => by simp [signs, depth?, opens, Nat.add_assoc]
      · next noOpen => exact step h fun ts => by simp [signs, depth?, noClose, noOpen]

/-- The tokens are `rest` behind others in which parentheses match. -/
def Takes (toks rest : List Token) : Prop :=
  ∃ front, toks = front ++ rest ∧ Nested (signs front)

namespace Takes

variable {kind : Kind}

theorem refl (toks : List Token) : Takes toks toks :=
  ⟨[], rfl, .nil⟩

theorem trans (h : Takes toks rest) (h' : Takes rest last) : Takes toks last := by
  obtain ⟨front, rfl, nested⟩ := h
  obtain ⟨front', rfl, nested'⟩ := h'
  refine ⟨front ++ front', (List.append_assoc ..).symm, ?_⟩
  rw [signs_append]
  exact nested.append nested'

theorem one (toks : List Token) (h : t.kind = kind) (plain : kind ≠ .lparen ∧ kind ≠ .rparen) :
    Takes (t :: toks) toks := by
  refine ⟨[t], rfl, .cons ?_ .nil⟩
  subst h
  exact ⟨fun same => plain.1 (Option.some.inj same), fun same => plain.2 (Option.some.inj same)⟩

theorem group {inner} (opens : t.kind = .lparen) (h : untilClose 0 toks = some (inner, rest)) : Takes (t :: toks) rest := by
  obtain ⟨u, closes, rfl⟩ := untilClose_eq h
  refine ⟨t :: (inner ++ [u]), by simp, ?_⟩
  have between : Nested (signs inner) := nested_of_untilClose h
  simpa [signs, opens, closes] using between.group

theorem skip (kind : Kind) (toks : List Token) (plain : kind ≠ .lparen ∧ kind ≠ .rparen) :
    Takes toks (toks.drop (toks.takeWhile (·.kind = kind)).length) := by
  induction toks with
  | nil => exact refl []
  | cons t toks ih =>
    rw [List.takeWhile_cons]
    split
    · next h => exact (one toks (of_decide_eq_true h) plain).trans ih
    · exact refl _

theorem suffix (h : Takes toks rest) : rest <:+ toks := by
  obtain ⟨front, rfl, -⟩ := h
  exact List.suffix_append front rest

theorem nested (h : Takes toks []) : Nested (signs toks) := by
  obtain ⟨front, rfl, nested⟩ := h
  rwa [List.append_nil]

theorem weight_le (h : Takes toks rest) : totalWeight rest ≤ totalWeight toks :=
  totalWeight_le_of_suffix h.suffix

end Takes

end Impulse.Token
