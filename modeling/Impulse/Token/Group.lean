import Impulse.Token

/-!
# Groups of tokens

Cutting a list of tokens at matching parentheses, at bars and at separators outside of both.
-/

namespace Impulse.Token

def consFst (t : Token) (p : List Token × List Token) : List Token × List Token :=
  (t :: p.1, p.2)

/-- The tokens before and behind the parenthesis that closes an open one. `depth` more are open. -/
def untilClose (depth : Nat) : List Token → Option (List Token × List Token)
  | [] => none
  | t :: ts =>
    if t.kind = .rparen then
      match depth with
      | 0 => some ([], ts)
      | depth + 1 => (untilClose depth ts).map (consFst t)
    else if t.kind = .lparen then (untilClose (depth + 1) ts).map (consFst t)
    else (untilClose depth ts).map (consFst t)

/-- The tokens before and behind the next bar outside of parentheses. -/
def untilBar (depth : Int) : List Token → Option (List Token × List Token)
  | [] => none
  | t :: ts =>
    if t.kind = .pipe ∧ depth = 0 then some ([], ts)
    else if t.kind = .lparen then (untilBar (depth + 1) ts).map (consFst t)
    else if t.kind = .rparen then (untilBar (depth - 1) ts).map (consFst t)
    else (untilBar depth ts).map (consFst t)

def consHead (t : Token) : List (List Token) → List (List Token)
  | [] => [[t]]
  | part :: parts => (t :: part) :: parts

/-- The parts between the separators of the given kind that stand outside of parentheses and bars. -/
def splitFrom (sep : Kind) (depth : Int) (barred : Bool) : List Token → List (List Token)
  | [] => [[]]
  | t :: ts =>
    if t.kind = .lparen then consHead t (splitFrom sep (depth + 1) barred ts)
    else if t.kind = .rparen then consHead t (splitFrom sep (depth - 1) barred ts)
    else if t.kind = .pipe then consHead t (splitFrom sep depth (!barred) ts)
    else if t.kind = sep ∧ depth = 0 ∧ barred = false then [] :: splitFrom sep depth barred ts
    else consHead t (splitFrom sep depth barred ts)

/-- The parts between separators. There are none if there are no tokens. -/
def splitTop (sep : Kind) (toks : List Token) : List (List Token) :=
  if toks.isEmpty then [] else splitFrom sep 0 false toks

/-- What stands before the first token of the given kind outside of parentheses, that token, and what
stands behind it. -/
def cutFrom (kind : Kind) (depth : Int) : List Token → Option (List Token × Token × List Token)
  | [] => none
  | t :: ts =>
    if t.kind = .lparen then (cutFrom kind (depth + 1) ts).map fun (a, b) => (t :: a, b)
    else if t.kind = .rparen then (cutFrom kind (depth - 1) ts).map fun (a, b) => (t :: a, b)
    else if t.kind = kind ∧ depth = 0 then some ([], t, ts)
    else (cutFrom kind depth ts).map fun (a, b) => (t :: a, b)

/-- The first token of a kind outside of parentheses, with what stands before and behind it. -/
def cutTop? (kind : Kind) (toks : List Token) : Option (List Token × Token × List Token) :=
  cutFrom kind 0 toks

def placeholderNames : List Token → List String
  | [] => []
  | t :: ts =>
    match ts with
    | [] => []
    | name :: _ => if t.kind = .dollar then name.value :: placeholderNames ts else placeholderNames ts

/-- A group ends at a closing parenthesis, and what follows stands behind that. -/
theorem untilClose_eq {depth : Nat} {toks inner rest : List Token}
    (h : untilClose depth toks = some (inner, rest)) :
    ∃ t : Token, t.kind = .rparen ∧ toks = inner ++ t :: rest := by
  induction toks generalizing depth inner rest with
  | nil => simp [untilClose] at h
  | cons t ts ih =>
    have step : ∀ depth', (untilClose depth' ts).map (consFst t) = some (inner, rest) →
        ∃ u : Token, u.kind = .rparen ∧ t :: ts = inner ++ u :: rest := by
      intro depth' h'
      obtain ⟨⟨a, b⟩, hp, he⟩ := Option.map_eq_some_iff.mp h'
      cases he
      obtain ⟨u, hu, rfl⟩ := ih hp
      exact ⟨u, hu, rfl⟩
    rw [untilClose.eq_def] at h
    dsimp only at h
    split at h
    · next hk =>
      split at h
      · cases h
        exact ⟨t, hk, rfl⟩
      · exact step _ h
    · split at h
      · exact step _ h
      · exact step _ h

/-- What stands before a matching parenthesis and what stands behind it are less than the whole. -/
theorem untilClose_length {depth : Nat} {toks inner rest : List Token}
    (h : untilClose depth toks = some (inner, rest)) : inner.length + rest.length < toks.length := by
  obtain ⟨t, -, rfl⟩ := untilClose_eq h
  simp

theorem untilBar_eq {depth : Int} {toks inner rest : List Token}
    (h : untilBar depth toks = some (inner, rest)) :
    ∃ t : Token, t.kind = .pipe ∧ toks = inner ++ t :: rest := by
  induction toks generalizing depth inner rest with
  | nil => simp [untilBar] at h
  | cons t ts ih =>
    have step : ∀ depth', (untilBar depth' ts).map (consFst t) = some (inner, rest) →
        ∃ u : Token, u.kind = .pipe ∧ t :: ts = inner ++ u :: rest := by
      intro depth' h'
      obtain ⟨⟨a, b⟩, hp, he⟩ := Option.map_eq_some_iff.mp h'
      cases he
      obtain ⟨u, hu, rfl⟩ := ih hp
      exact ⟨u, hu, rfl⟩
    rw [untilBar] at h
    split at h
    · next hk =>
      cases h
      exact ⟨t, hk.1, rfl⟩
    · split at h
      · exact step _ h
      · split at h
        · exact step _ h
        · exact step _ h

/-- What stands before a bar and what stands behind it are less than the whole. -/
theorem untilBar_length {depth : Int} {toks inner rest : List Token}
    (h : untilBar depth toks = some (inner, rest)) : inner.length + rest.length < toks.length := by
  obtain ⟨t, -, rfl⟩ := untilBar_eq h
  simp

end Impulse.Token
