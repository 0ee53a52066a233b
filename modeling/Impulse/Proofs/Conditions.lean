import Impulse.Proofs.FileSteps
import Mathlib.Data.List.Chain

/-!
# The signs of a condition

A condition is read into operands and signs: comparisons, `and`, `or`, `!` and parentheses. It is never empty, operands
never stand side by side, parentheses match, and no sign that needs an operand stands last. It follows the grammar
`cond := term (op term)*`, `term := '!' term | '(' cond ')' | operand` exactly if, moreover, what begins a term stands
where no term has ended. That is not checked: two operators may stand side by side, or nothing between parentheses.
-/

namespace Impulse

open List

open Token (depth? Nested)

namespace Condition

def isConnective (kind : Token.Kind) : Bool :=
  [Token.Kind.equals, .less, .greater, .kwAnd, .kwOr].contains kind

def isSign (kind : Token.Kind) : Bool :=
  isConnective kind || [Token.Kind.bang, .lparen, .rparen].contains kind

inductive Part
  | whole
  | term

/-- The sequences that the grammar derives, where `none` stands for an operand. -/
inductive Derives : Part → List (Option Token.Kind) → Prop
  | single {w : List (Option Token.Kind)} (h : Derives .term w) : Derives .whole w
  | join {w w' : List (Option Token.Kind)} {kind : Token.Kind} (h : Derives .term w) (op : isConnective kind = true)
      (h' : Derives .whole w') : Derives .whole (w ++ some kind :: w')
  | operand : Derives .term [none]
  | negation {w : List (Option Token.Kind)} (h : Derives .term w) : Derives .term (some .bang :: w)
  | group {w : List (Option Token.Kind)} (h : Derives .whole w) :
      Derives .term (some .lparen :: (w ++ [some .rparen]))

/-- The sign may stand behind a term that has `ended`, or where none has. -/
def follows (ended : Bool) : Option Token.Kind → Bool
  | none => !ended
  | some kind => if ended then isConnective kind || kind == .rparen else kind == .bang || kind == .lparen

/-- Every sign may stand where it does, and a term has ended at the end. -/
def orderly (ended : Bool) : List (Option Token.Kind) → Bool
  | [] => ended
  | sign :: w => follows ended sign && orderly (sign == none || sign == some .rparen) w

theorem orderly_connective (op : isConnective kind = true) (w : List (Option Token.Kind)) :
    orderly true (some kind :: w) = orderly false w := by
  cases kind <;> first | rfl | cases op

theorem plain_of_isConnective (op : isConnective kind = true) :
    some kind ≠ some .lparen ∧ some kind ≠ some .rparen := by
  constructor <;> rintro ⟨⟩ <;> cases op

theorem Derives.orderly_append (h : Derives part w) (rest : List (Option Token.Kind)) :
    orderly false (w ++ rest) = orderly true rest := by
  induction h generalizing rest with
  | single _ ih | negation _ ih => exact ih rest
  | join _ op _ ih ih' => rw [append_assoc, ih, cons_append, orderly_connective op, ih']
  | operand => rfl
  | group _ ih =>
    rw [cons_append, append_assoc]
    exact ih (some .rparen :: rest)

theorem Derives.nested (h : Derives part w) : Nested w := by
  induction h with
  | single _ ih => exact ih
  | join _ op _ ih ih' => exact ih.append (ih'.cons (plain_of_isConnective op))
  | operand => exact .cons (by decide) .nil
  | negation _ ih => exact ih.cons (by decide)
  | group _ ih => exact ih.group

/-- The signs begin with a condition, behind which they end or a parenthesis is closed. -/
def BeginsWhole (w : List (Option Token.Kind)) : Prop :=
  ∃ first rest, w = first ++ rest ∧ Derives .whole first ∧ (rest = [] ∨ ∃ more, rest = some .rparen :: more)

theorem exists_term
    (shorter : ∀ w depth, w.length < n → orderly false w = true → depth? depth w = some 0 → BeginsWhole w)
    (w : List (Option Token.Kind)) (depth : Nat) (short : w.length ≤ n) (order : orderly false w = true)
    (balanced : depth? depth w = some 0) : ∃ first rest, w = first ++ rest ∧ Derives .term first := by
  induction w with
  | nil => cases order
  | cons sign w ih =>
    rw [orderly, Bool.and_eq_true] at order
    rw [length_cons] at short
    cases sign with
    | none => exact ⟨[none], w, rfl, .operand⟩
    | some kind =>
      obtain ⟨first, order⟩ := order
      simp only [follows, Bool.false_eq_true, if_false, Bool.or_eq_true, beq_iff_eq] at first
      obtain rfl | rfl := first
      · obtain ⟨first, rest, rfl, term⟩ := ih (by omega) order balanced
        exact ⟨_, rest, rfl, term.negation⟩
      · change depth? (depth + 1) w = some 0 at balanced
        obtain ⟨first, rest, rfl, whole, behind⟩ := shorter w (depth + 1) (by omega) order balanced
        rw [whole.nested.depth?_append] at balanced
        obtain rfl | ⟨rest, rfl⟩ := behind
        · cases balanced
        · exact ⟨some .lparen :: (first ++ [some .rparen]), rest, by simp, whole.group⟩

theorem exists_whole (w : List (Option Token.Kind)) (depth : Nat) (order : orderly false w = true)
    (balanced : depth? depth w = some 0) : BeginsWhole w := by
  -- The condition begins with a term. A connective behind that is followed by a shorter condition.
  induction size : w.length using Nat.strongRecOn generalizing w depth with
  | _ n ih =>
    subst size
    obtain ⟨first, rest, rfl, term⟩ :=
      exists_term (fun w depth short order balanced => ih _ short w depth order balanced rfl) w depth (Nat.le_refl _)
        order balanced
    rw [term.orderly_append] at order
    rw [term.nested.depth?_append] at balanced
    cases rest with
    | nil => exact ⟨first, [], rfl, .single term, .inl rfl⟩
    | cons sign rest =>
      have here := (Bool.and_eq_true_iff.mp order).1
      cases sign with
      | none => cases here
      | some kind =>
        simp only [follows, if_true, Bool.or_eq_true, beq_iff_eq] at here
        obtain op | rfl := here
        · rw [orderly_connective op] at order
          rw [depth?, if_neg (plain_of_isConnective op).1, if_neg (plain_of_isConnective op).2] at balanced
          have short : rest.length < (first ++ some kind :: rest).length := by
            rw [length_append, length_cons]
            omega
          obtain ⟨second, last, rfl, whole, behind⟩ := ih _ short rest depth order balanced rfl
          exact ⟨first ++ some kind :: second, last, by simp, .join term op whole, behind⟩
        · exact ⟨first, _, rfl, .single term, .inr ⟨rest, rfl⟩⟩

theorem derives_iff (balanced : depth? 0 w = some 0) : Derives .whole w ↔ orderly false w = true := by
  constructor
  · intro h
    rw [← append_nil w, h.orderly_append]
    rfl
  · intro order
    obtain ⟨first, rest, rfl, whole, rfl | ⟨rest, rfl⟩⟩ := exists_whole w 0 order balanced
    · rwa [append_nil]
    · rw [whole.nested.depth?_append] at balanced
      cases balanced

/-- How tokens are cut into pieces, behind the tokens of an operand: at a sign, or not at all. -/
inductive Cuts : List Token → List Token → List Piece → Prop
  | done (pending : List Token) : Cuts pending [] (operandOf pending)
  | sign (pending : List Token) {t : Token} {rest : List Token} {ps : List Piece} (known : isSign t.kind = true)
      (h : Cuts [] rest ps) : Cuts pending (t :: rest) (operandOf pending ++ .operator t :: ps)
  | stop (pending toks : List Token) (t : Token) (sign : String) : Cuts pending toks [.unmatched t sign]
  | more {pending toks pending' rest : List Token} {ps : List Piece} (same : pending' ++ rest = pending ++ toks)
      (h : Cuts pending' rest ps) : Cuts pending toks ps

theorem isSign_of_isOperator (h : isOperator t = true) : isSign t.kind = true := by
  revert h
  unfold isOperator
  cases t.kind <;> decide

theorem pieces_cuts (pending toks : List Token) : Cuts pending toks (pieces pending toks) := by
  fun_induction pieces pending toks with
  | case1 pending => exact .done pending
  | case2 pending t rest sign ih =>
    refine .sign pending ?_ ih
    rw [Bool.or_eq_true, decide_eq_true_eq] at sign
    exact sign.elim isSign_of_isOperator fun closes => closes ▸ rfl
  | case3 pending t rest => exact .stop pending _ t "("
  | case4 pending t rest _ opens _ inner after closed ih =>
    obtain ⟨u, -, rfl⟩ := Token.untilClose_eq closed
    refine .more ?_ ih
    simp [take_append, take_of_length_le]
  | case5 pending t rest _ opens _ ih => exact .sign pending (opens ▸ rfl) ih
  | case6 pending t rest => exact .stop pending _ t "|"
  | case7 pending t rest _ _ _ inner bar after cut ih =>
    refine .more ?_ ih
    have whole : inner ++ bar :: after = rest := by
      rw [← cut]
      exact (prefix_iff_eq_append.mp (List.takeWhile_prefix _))
    rw [← whole]
    simp
  | case8 pending t rest _ _ _ ih => exact .more (by simp) ih

def Piece.sign? : Piece → Option Token.Kind
  | .operator t => some t.kind
  | _ => none

/-- Parentheses match in the tokens of the operand. -/
def Piece.Nested : Piece → Prop
  | .operand toks => Token.Nested (Token.signs toks)
  | .operator _ => True
  | .unmatched _ _ => False

namespace Cuts

theorem ne_nil (h : Cuts pending toks ps) (some : pending ++ toks ≠ []) : ps ≠ [] := by
  induction h with
  | done pending =>
    cases pending with
    | nil => exact absurd rfl some
    | cons t ts => exact cons_ne_nil _ _
  | sign => exact append_ne_nil_of_right_ne_nil _ (cons_ne_nil _ _)
  | stop => exact cons_ne_nil _ _
  | more same _ ih => exact ih (same ▸ some)

theorem isSign (h : Cuts pending toks ps) : ∀ kind, some kind ∈ ps.map Piece.sign? → isSign kind = true := by
  have operand (pending : List Token) (kind : Token.Kind) : some kind ∉ (operandOf pending).map Piece.sign? := by
    cases pending <;> simp [operandOf, Piece.sign?]
  intro kind hk
  induction h with
  | done pending => exact absurd hk (operand pending kind)
  | sign pending known _ ih =>
    rw [map_append, mem_append, map_cons, mem_cons] at hk
    obtain hk | same | hk := hk
    · exact absurd hk (operand pending kind)
    · cases same
      exact known
    · exact ih hk
  | stop => simp [Piece.sign?] at hk
  | more _ _ ih => exact ih hk

theorem separated (h : Cuts pending toks ps) : (ps.map Piece.sign?).IsChain fun a b => a ≠ none ∨ b ≠ none := by
  induction h with
  | done pending => cases pending <;> simp [operandOf]
  | @sign pending t rest ps known _ ih =>
    have further : (some t.kind :: ps.map Piece.sign?).IsChain fun a b => a ≠ none ∨ b ≠ none :=
      isChain_cons.mpr ⟨fun _ _ => .inl (Option.some_ne_none _), ih⟩
    cases pending with
    | nil => exact further
    | cons => exact isChain_cons_cons.mpr ⟨.inr (Option.some_ne_none _), further⟩
  | stop => exact .singleton _
  | more _ _ ih => exact ih

theorem depth? (h : Cuts pending toks ps) (nested : ∀ p ∈ ps, p.Nested) (depth : Nat) :
    Token.depth? depth (ps.map Piece.sign?) = Token.depth? depth (Token.signs (pending ++ toks)) := by
  have operand (pending : List Token) (nested : ∀ p ∈ operandOf pending, p.Nested) (depth : Nat) :
      Token.depth? depth ((operandOf pending).map Piece.sign?) = Token.depth? depth (Token.signs pending) := by
    cases pending with
    | nil => rfl
    | cons t ts => exact (nested _ (.head _) depth).symm
  induction h generalizing depth with
  | done pending => rw [operand pending nested, append_nil]
  | @sign pending t rest ps known _ ih =>
    rw [forall_mem_append, forall_mem_cons] at nested
    have behind : (fun d => Token.depth? d (some t.kind :: ps.map Piece.sign?)) =
        fun d => Token.depth? d (some t.kind :: Token.signs rest) := by
      funext d
      simp only [Token.depth?, ih nested.2.2, nil_append]
    rw [map_append, Token.depth?_append, operand pending nested.1, Token.signs_append, Token.depth?_append]
    exact congrArg _ behind
  | stop _ _ t sign => exact (nested _ (.head _)).elim
  | more same _ ih => rw [← same, ih nested]

end Cuts

end Condition

/-- The sign of a node of a condition. Operands have none. -/
def Node.sign? : Node → Option Token.Kind
  | .node _ _ (.operator kind) => some kind
  | _ => none

namespace Infer

open Condition

variable {v : View}

theorem sign?_of_builds (h : v.Builds n) : n.sign? = none := by
  cases h <;> rfl

theorem BuildsPiece.sign? (h : BuildsPiece v p n) : n.sign? = p.sign? ∧ p.Nested := by
  cases h with
  | operand h => exact ⟨sign?_of_builds h.1, h.2.nested⟩
  | operator => exact ⟨rfl, trivial⟩

theorem signs_of_builds (h : List.Forall₂ (BuildsPiece v) ps ns) :
    ns.map Node.sign? = ps.map Piece.sign? ∧ ∀ p ∈ ps, p.Nested := by
  induction h with
  | nil => exact ⟨rfl, forall_mem_nil _⟩
  | cons first _ ih =>
    rw [map_cons, map_cons, first.sign?.1, ih.1, forall_mem_cons]
    exact ⟨rfl, first.sign?.2, ih.2⟩

theorem getLast?_of_dangling (filled : ns ≠ []) (ended : dangling? ns = none) :
    (ns.map Node.sign?).getLast? = some none ∨ (ns.map Node.sign?).getLast? = some (some .rparen) := by
  rw [List.getLast?_map]
  rw [dangling?, List.getLast?_eq_some_getLast filled] at ended
  rw [List.getLast?_eq_some_getLast filled, Option.map_some]
  generalize ns.getLast filled = last at ended ⊢
  unfold Node.sign?
  split
  · next t _ kind =>
    dsimp only at ended
    split at ended
    · next closes => exact .inr (closes ▸ rfl)
    · cases ended
  · exact .inl rfl

/-- The nodes of a condition that stands between parentheses: there are some, of the signs and operands that conditions
have, operands never stand side by side, parentheses match, and an operand or a parenthesis stands last. They follow
the grammar exactly if every sign may stand behind the one in front of it. -/
theorem condition_signs (hv : v.Complete) {opened : Token} {toks inner rest : List Token}
    (between : Token.untilClose 0 toks = some (inner, rest)) {nodes : List Node}
    (read : Gives v (condition opened inner) nodes) :
    let w := nodes.map Node.sign?
    w ≠ [] ∧ (∀ kind, some kind ∈ w → isSign kind = true) ∧ (w.IsChain fun a b => a ≠ none ∨ b ≠ none) ∧
      depth? 0 w = some 0 ∧ (w.getLast? = some none ∨ w.getLast? = some (some .rparen)) ∧
      (Derives .whole w ↔ orderly false w = true) := by
  obtain ⟨filled, ended, built⟩ := (condition_pieces hv opened inner).of_gives read
  obtain ⟨signs, nested⟩ := signs_of_builds built
  have cuts := pieces_cuts [] inner
  have balanced : depth? 0 ((pieces [] inner).map Piece.sign?) = some 0 :=
    (cuts.depth? nested 0).trans (Token.nested_of_untilClose between 0)
  have some : nodes.map Node.sign? ≠ [] := by
    rw [signs, Ne, map_eq_nil_iff]
    exact cuts.ne_nil filled
  have last := getLast?_of_dangling (fun empty => some (map_eq_nil_iff.mpr empty)) ended
  rw [signs] at some last ⊢
  exact ⟨some, cuts.isSign, cuts.separated, balanced, last, derives_iff balanced⟩

theorem condition_signs_negated :
    let token (kind : Token.Kind) : Token := { (default : Token) with kind := kind }
    let inner := [Token.Kind.bang, .lparen, .kwTrue, .rparen, .kwAnd, .kwFalse].map token
    let v : View := { settings := .plain, context := .initial, scope := .empty, last := default }
    ∃ nodes, Gives v (condition default inner) nodes ∧ Derives .whole (nodes.map Node.sign?) := by
  intro token inner v
  have hv : v.Complete := ⟨Context.complete_initial, by rintro x ⟨⟩⟩
  have run : (match condition default inner v [] with
      | .ok nodes _ => orderly false (nodes.map Node.sign?)
      | .error _ _ => false) = true := by decide +kernel
  split at run
  · next nodes after read =>
    have closed : Token.untilClose 0 (inner ++ [token .rparen]) = some (inner, []) := rfl
    obtain ⟨-, -, -, -, -, derives⟩ := condition_signs hv closed ⟨[], after, read⟩
    exact ⟨nodes, ⟨[], after, read⟩, derives.mpr run⟩
  · cases run

end Infer

/-- A condition with two operators side by side. -/
def doubledOperator : String :=
  "f :: (a: int) \x7b if (a = = a) \x7b \x7d \x7d"

/-- The condition is let through, and no condition of the grammar is like it. -/
theorem compile_doubledOperator :
    (compile Settings.plain (.memory []) "main.imp" doubledOperator).stop = none ∧
    ∃ e ∈ (compile Settings.plain (.memory []) "main.imp" doubledOperator).program, e.node.isConditional = true ∧
      ¬Condition.Derives .whole (e.node.children.map Node.sign?) := by
  have accepted : (compile Settings.plain (.memory []) "main.imp" doubledOperator).stop.isNone = true := by
    decide +kernel
  have found : ((compile Settings.plain (.memory []) "main.imp" doubledOperator).program.any fun e =>
      e.node.isConditional && !Condition.orderly false (e.node.children.map Node.sign?)) = true := by decide +kernel
  obtain ⟨e, he, conditional⟩ := any_eq_true.mp found
  rw [Bool.and_eq_true, Bool.not_eq_true'] at conditional
  refine ⟨Option.isNone_iff_eq_none.mp accepted, e, he, conditional.1, fun derives => ?_⟩
  have order := derives.orderly_append []
  rw [append_nil, conditional.2] at order
  cases order

end Impulse
