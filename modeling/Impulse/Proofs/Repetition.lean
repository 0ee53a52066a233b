import Impulse.Proofs.AgreedExpressions
import Impulse.Proofs.Reduction

/-!
# Reading again

What an expression is read into does not depend on the notices that were raised before, so it can be read twice in a row
with the same result. Arithmetic does not depend on the token it stands in either, up to the tokens of its nodes.
-/

namespace Impulse

namespace Infer

/-- If reading `x` gives a result, reading `y` gives one that corresponds, whatever was noticed before. -/
def Repeats (v : View) (x : Infer α) (y : Infer β) (R : α → β → Prop) : Prop :=
  ∀ a before after, x v before = .ok a after → ∀ before', ∃ b after', y v before' = .ok b after' ∧ R a b

namespace Repeats

theorem pure (h : R a b) : Repeats v (Pure.pure a) (Pure.pure b) R := by
  intro a' before after given before'
  cases given
  exact ⟨b, before', rfl, h⟩

theorem throw {e : Stop} : Repeats v (MonadExcept.throw e : Infer α) y R := by
  intro a before after given
  cases given

theorem fail {p : Problem} : Repeats v (Infer.fail t p : Infer α) y R :=
  throw

theorem fault {f : Fault} : Repeats v (Infer.fault f : Infer α) y R :=
  throw

theorem bind (hx : Repeats v x y R)
    (hf : ∀ a b, R a b → Repeats v (f a) (g b) S) : Repeats v (x >>= f) (y >>= g) S := by
  intro c before after given before'
  obtain ⟨a, between, first, second⟩ := of_bind given
  obtain ⟨b, between', first', related⟩ := hx a before between first before'
  obtain ⟨d, after', second', related'⟩ := hf a b related c between after second between'
  refine ⟨d, after', ?_, related'⟩
  rw [reading_bind, first']
  exact second'

theorem read (h : Repeats v (f v) (g v) R) :
    Repeats v (MonadReader.read >>= f) (MonadReader.read >>= g) R :=
  h

theorem ite [Decidable c] (hx : c → Repeats v x y R)
    (hx' : ¬c → Repeats v x' y' R) : Repeats v (if c then x else x') (if c then y else y') R :=
  ite_rel (P := fun x y => Repeats v x y R) hx hx'

end Repeats

end Infer

/-- The second reading is given the same tokens again, or others whose places and texts do not matter. -/
def Comparison.ofTexts (settings : Settings) : Comparison :=
  { ofLines settings with
    shown := fun _ _ _ => True
    growShown := fun _ _ => trivial
    toShown := fun _ => trivial }

namespace Infer

theorem Agrees.repeats {R : α → β → Prop}
    (h : Agrees (.ofTexts v.settings) [] x y R) : Repeats v x y R := by
  intro a before after given before'
  have view : v.Alike (.ofTexts v.settings) [] v := ⟨rfl, rfl, rfl, rfl, rfl, rfl, trivial⟩
  have met := (h v v view before').2 (fun _ _ => True) (fun _ _ _ => trivial) before trivial
  rw [given] at met
  generalize y v before' = r at met ⊢
  cases met with
  | ok result _ => exact ⟨_, _, rfl, result⟩

theorem arithmetic_repeats (named : ∀ {t u} value, R t u → R { t with value := value } { u with value := value })
    (ht : R t u) (raw : String) (want : Ty) :
    Repeats v (arithmetic t raw want) (arithmetic u raw want) (Node.Twins R) :=
  (arithmetic_agrees ⟨fun _ => trivial, fun _ => trivial, named⟩ ht raw want).repeats

end Infer

namespace Infer

theorem Repeats.eq_of_twins {x y : Infer Node} (h : Repeats v x y (Node.Twins (· = ·))) : Repeats v x y (· = ·) := by
  intro n before after given before'
  obtain ⟨m, after', given', twins⟩ := h n before after given before'
  exact ⟨m, after', given', (twins.alike.eq fun _ _ same => same.symm).symm⟩

/-- How smaller expressions are read does not depend on notices. -/
def RepeatsSub (v : View) (sub : Sub) : Prop :=
  ∀ toks want, Repeats v (sub toks want) (sub toks want) (· = ·)

theorem innerTokens_repeats (text : String) : Repeats v (innerTokens t text) (innerTokens t text) (· = ·) := by
  unfold innerTokens
  refine .read ?_
  dsimp only
  split
  · exact .fail
  · exact .pure rfl

theorem element_repeats (hsub : RepeatsSub v sub) (want : Ty) (position position' : Nat) (text : String) :
    Repeats v (element sub t want position text) (element sub t want position' text) (· = ·) := by
  unfold element
  have renamed {t u : Token} (value : String) (same : t = u) : { t with value := value } = { u with value := value } :=
    congrArg (fun t : Token => { t with value := value }) same
  refine .ite (fun _ => (arithmetic_repeats renamed rfl text want).eq_of_twins) fun _ => ?_
  refine (innerTokens_repeats text).bind fun toks _ same => ?_
  subst same
  exact .ite (fun _ => .fail) fun _ => hsub toks want

theorem expression_repeats (toks : List Token) (want : Ty) :
    Repeats v (expression toks want) (expression toks want) (· = ·) := by
  have same : (Comparison.ofTexts v.settings).Tokens [] toks toks := List.forall₂_same.mpr fun _ _ => rfl
  intro n before after given before'
  obtain ⟨m, after', given', twins⟩ := (expression_agrees want same).repeats n before after given before'
  exact ⟨m, after', given', (twins.alike.eq fun _ _ same => same).symm⟩

end Infer

end Impulse
