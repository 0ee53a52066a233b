import Impulse.Condition
import Impulse.Proofs.BuiltNode
import Mathlib.Data.List.Forall2

/-!
# Reading expressions

Reading an expression always comes to an end, with a node that was built as `View.Builds` says or with a
problem that can be reported. The parts of an expression are read by a parameter, and every part weighs less
than the whole; so the reader that stands for the parameter is never asked for an expression that is not
smaller.
-/

namespace Impulse

open List

/-- The types that can be wanted: none, or a complete one. -/
def Ty.Wanted (t : Ty) : Prop :=
  t = .absent ∨ t.isComplete = true

namespace Ty.Wanted

theorem absent : Ty.Wanted .absent :=
  .inl rfl

theorem of_complete {t : Ty} (h : t.isComplete = true) : t.Wanted :=
  .inr h

theorem complete {t : Ty} (h : t.Wanted) (present : t.isAbsent = false) : t.isComplete = true := by
  rcases h with rfl | h
  · cases present
  · exact h

theorem element {t : Ty} (h : t.Wanted) : (t.resolved.element?.getD .absent).Wanted := by
  rcases h with rfl | h
  · exact absent
  · cases he : t.resolved.element? with
    | none => exact absent
    | some e => exact of_complete (Ty.isComplete_element? (Ty.isComplete_resolved h) he)

theorem param {params : List Param} (h : ∀ p ∈ params, p.ty.isComplete = true) :
    ((params.head?.map fun p => p.ty).getD Ty.absent).Wanted := by
  cases params with
  | nil => exact absent
  | cons p params => exact of_complete (h p (.head _))

end Ty.Wanted

namespace Infer

/-- What a reader of a part of an expression gives: a node, and the tokens behind those it took. -/
def BuildsFrom (v : View) (toks : List Token) (r : Node × List Token) : Prop :=
  v.Builds r.1 ∧ Token.Takes toks r.2

/-- The reader `sub` reads every expression that weighs less than `size`. -/
def SubBuilds (v : View) (sub : Sub) (size : Nat) : Prop :=
  ∀ inner want, want.Wanted → Token.totalWeight inner < size →
    Ensures v (sub inner want) fun n => BuildsFrom v inner (n, [])

/-- A text that is cut at a comma, and so is a list of elements. -/
def IsList (raw : String) : Prop :=
  1 < (splitElements 0 none raw.toList).length

theorem isList_of_not_single (h : ¬(splitElements 0 none raw.toList).length ≤ 1) : IsList raw := by
  unfold IsList
  omega

theorem element_builds (hsub : SubBuilds v sub size) (hkind : t.kind = .number) (hsize : t.weight ≤ size)
    (hwant : want.Wanted) (position : Nat) (hmany : IsList (Text.trim t.value))
    (htext : text ∈ elementTexts (Text.trim t.value)) : Ensures v (element sub t want position text) v.Builds := by
  unfold element
  split
  · exact arithmetic_builds t text want
  · have tokens : Ensures v (innerTokens t text) fun toks => Token.totalWeight toks < size := by
      unfold innerTokens
      refine .read ?_
      dsimp only
      split
      · exact .fail trivial
      · refine .pure (Nat.lt_of_lt_of_le ?_ hsize)
        exact totalWeight_element_lt _ _ hkind hmany htext _ fun u => ⟨rfl, rfl⟩
    refine tokens.bind fun toks htoks => ?_
    split
    · exact .fail trivial
    · exact (hsub toks want hwant htoks).mono fun _ hn => hn.1

theorem elements_builds (hsub : SubBuilds v sub size) (hkind : t.kind = .number)
    (hsize : t.weight ≤ size) (hwant : want.Wanted) (hmany : IsList (Text.trim t.value)) (texts : List String)
    (htexts : ∀ text ∈ texts, text ∈ elementTexts (Text.trim t.value)) (position : Nat) :
    Ensures v (elements sub t want position texts) fun ns => ns.length = texts.length ∧ ∀ n ∈ ns, v.Builds n := by
  induction texts generalizing position with
  | nil => exact .pure ⟨rfl, by simp⟩
  | cons text texts ih =>
    rw [elements]
    refine (element_builds hsub hkind hsize hwant position hmany (htexts text (.head _))).bind fun n hn => ?_
    refine (ih (fun text h => htexts text (.tail _ h)) _).bind fun ns hns => ?_
    exact .pure ⟨by simp [hns.1], by simpa using ⟨hn, hns.2⟩⟩

theorem checkElements_ensures (t : Token) (want : Ty) (nodes : List Node) (position : Nat) :
    Ensures v (checkElements t want position nodes) fun _ => ∀ n ∈ nodes, want.accepts n = true ∨ v.Lax := by
  induction nodes generalizing position with
  | nil => exact .pure (by simp)
  | cons n nodes ih =>
    rw [checkElements]
    refine .check trivial fun fits => ?_
    refine (ih (position + 1)).mono fun _ hnodes => ?_
    intro m hm
    rcases mem_cons.mp hm with rfl | hm
    · exact fits
    · exact hnodes m hm

theorem elementTexts_ne_nil (hmany : IsList raw) : elementTexts raw ≠ [] := by
  unfold elementTexts
  dsimp only
  intro h
  have hlen := congrArg List.length h
  unfold IsList at hmany
  split at hlen
  · simp only [length_dropLast, length_map, length_nil] at hlen
    omega
  · simp only [length_map, length_nil] at hlen
    omega

theorem listLiteral_builds (hv : v.Complete) (hsub : SubBuilds v sub size) (hkind : t.kind = .number)
    (hsize : t.weight ≤ size) (hwant : want.Wanted) (hmany : IsList (Text.trim t.value)) {texts : List String}
    (htexts : texts = elementTexts (Text.trim t.value)) : Ensures v (listLiteral sub t texts want) v.Builds := by
  have hne : texts ≠ [] := htexts ▸ elementTexts_ne_nil hmany
  have hmem : ∀ text ∈ texts, text ∈ elementTexts (Text.trim t.value) := fun _ h => htexts ▸ h
  unfold listLiteral
  dsimp only
  have hwant := hwant.element
  generalize want.resolved.element?.getD .absent = elemWant at hwant ⊢
  refine (elements_builds hsub hkind hsize hwant hmany texts hmem 1).bind fun nodes hnodes => ?_
  -- The first element settles the type if none is wanted.
  have hcomplete : (if (elemWant.isAbsent || elemWant.hasPlaceholder) = true
      then (nodes.headD .absent).ty else elemWant).isComplete = true := by
    split
    · cases nodes with
      | nil => exact absurd (length_eq_zero_iff.mp hnodes.1.symm) hne
      | cons n nodes => exact ((hnodes.2 n (.head _)).completeArg hv).1
    · next present =>
      simp only [Bool.or_eq_true, not_or, Bool.not_eq_true] at present
      exact hwant.complete present.1
  generalize (if (elemWant.isAbsent || elemWant.hasPlaceholder) = true
    then (nodes.headD .absent).ty else elemWant) = elem at hcomplete ⊢
  refine (checkElements_ensures t elem nodes 1).bind fun _ fits => ?_
  exact .pure (.list t hcomplete hnodes.2 fits)

theorem literal_builds (hv : v.Complete) (hsub : SubBuilds v sub size) (hkind : t.kind = .number)
    (hsize : t.weight ≤ size) (hwant : want.Wanted) : Ensures v (literal sub t want) v.Builds := by
  unfold literal
  dsimp only
  split
  · exact .fail trivial
  · split
    · exact arithmetic_builds t _ want
    · next hmany =>
      -- The elements are named: the text of a token is nothing to compute with.
      obtain ⟨texts, htexts⟩ : ∃ texts, texts = elementTexts (Text.trim t.value) := ⟨_, rfl⟩
      rw [← htexts]
      exact listLiteral_builds hv hsub hkind hsize hwant (isList_of_not_single hmany) htexts

theorem arguments_builds (hsub : SubBuilds v sub size) (t : Token) (name : String)
    (parts : List (List Token)) (hparts : ∀ toks ∈ parts, Token.totalWeight toks < size)
    (params : List Param) (hparams : ∀ p ∈ params, p.ty.isComplete = true) (position : Nat) :
    Ensures v (arguments sub t name position params parts) fun ns => ∀ n ∈ ns, v.Builds n := by
  induction parts generalizing params position with
  | nil => exact .pure (by simp)
  | cons toks parts ih =>
    rw [arguments]
    split
    · exact .fail trivial
    · refine (hsub toks _ (.param hparams) (hparts toks (.head _))).bind fun n hn => ?_
      refine (ih (fun toks h => hparts toks (.tail _ h)) params.tail
        (fun p h => hparams p (mem_of_mem_tail h)) _).bind fun ns hns => ?_
      exact .pure (by simpa using ⟨hn.1, hns⟩)

theorem callExpr_builds {inner} (hv : v.Complete) (hsub : SubBuilds v sub size) (t : Token)
    (hinner : Token.totalWeight inner < size) : Ensures v (callExpr sub t inner) v.Builds := by
  unfold callExpr
  refine (callee_builds t).bind fun r hr => ?_
  obtain ⟨name, callee⟩ := r
  have hparams : ∀ p ∈ callee.sig.params.drop callee.receiver.toList.length,
      p.ty.isComplete = true := fun p hp =>
    (hv.context.functions _ _ hr.1).params p (mem_of_mem_drop hp)
  dsimp only
  refine (arguments_builds hsub t name _ (fun toks h => ?_) _ hparams 1).bind fun ns hns => ?_
  · exact Nat.lt_of_le_of_lt (Token.totalWeight_splitTop_le h) hinner
  · refine (call_builds t hr.1 ?_).mono fun _ called => called.builds
    intro n hn
    rcases mem_append.mp hn with receiver | arg
    · exact hr.2 n receiver
    · exact hns n arg

theorem nameExpr_builds (final : Token) (ident : t.kind = .ident) (rest : List Token) :
    Ensures v (nameExpr final t rest) (BuildsFrom v (t :: rest)) := by
  unfold nameExpr
  refine .read ?_
  split
  · next x found => exact .pure ⟨.name t found, .one rest ident (by decide)⟩
  · split
    · refine (Ensures.ofExcept (TypeExpr.read_settled v false final (t :: rest)).with_eq).bind
        fun r hr => .pure ⟨.typeName t hr.2, hr.1.2⟩
    · exact .fail trivial

theorem primary_builds (hv : v.Complete) (hsub : SubBuilds v sub size) (final : Token)
    (hwant : want.Wanted) (toks : List Token) (hsize : Token.totalWeight toks ≤ size) :
    Ensures v (primary sub final want toks) (BuildsFrom v toks) := by
  cases toks with
  | nil => exact .fail trivial
  | cons t rest =>
    have taken {kind : Token.Kind} (hkind : t.kind = kind) (plain : kind ≠ .lparen ∧ kind ≠ .rparen) :
        Token.Takes (t :: rest) rest := .one rest hkind plain
    rw [Token.totalWeight_cons] at hsize
    unfold primary
    dsimp only
    split
    · next hkind =>
      exact (literal_builds hv hsub hkind (by omega) hwant).bind fun n hn => .pure ⟨hn, taken hkind (by decide)⟩
    · next hkind => exact .pure ⟨.string t _, taken hkind (by decide)⟩
    · next hkind => exact .pure ⟨.char t _, taken hkind (by decide)⟩
    · next hkind => exact .pure ⟨.bool t true, taken hkind (by decide)⟩
    · next hkind => exact .pure ⟨.bool t false, taken hkind (by decide)⟩
    · next hkind =>
      refine (Ensures.ofExcept (expect_settled final .ident (by trivial) rest)).bind ?_
      rintro ⟨name, following⟩ ⟨rfl, ident⟩
      dsimp only at ident ⊢
      split
      · exact .fail trivial
      · refine (Ensures.ofExcept (expect_settled final .string (by trivial) following)).bind ?_
        rintro ⟨code, last⟩ ⟨rfl, string⟩
        exact .pure ⟨.embed t _, ((taken hkind (by decide)).trans (.one _ ident (by decide))).trans
          (.one _ string (by decide))⟩
    · next hkind =>
      split
      · next opened after =>
        split
        · next opens =>
          refine (Ensures.ofExcept (closing_settled opened after)).bind fun parts closed => ?_
          obtain ⟨close, -, hafter⟩ := Token.untilClose_eq closed
          have hclose := close.weight_pos
          rw [hafter] at hsize
          simp only [Token.totalWeight_cons, Token.totalWeight_append] at hsize
          refine (callExpr_builds hv hsub t (by omega)).bind fun n hn => .pure ⟨hn, ?_⟩
          exact (taken hkind (by decide)).trans (.group opens closed)
        · exact nameExpr_builds final hkind _
      · exact nameExpr_builds final hkind _
    · exact .fail trivial

theorem postfixes_builds (hsub : SubBuilds v sub size) (hn : v.Builds n) (toks : List Token)
    (hsize : Token.totalWeight toks ≤ size) : Ensures v (postfixes sub n toks) (BuildsFrom v toks) := by
  match toks with
  | [] =>
    rw [postfixes]
    exact .pure ⟨hn, .refl _⟩
  | t :: rest =>
    have ht := t.weight_pos
    rw [postfixes]
    rw [Token.totalWeight_cons] at hsize
    split
    · next caret =>
      refine (deref_builds t hn).bind fun m hm => ?_
      exact (postfixes_builds hsub hm.builds rest (by omega)).mono fun r hr =>
        ⟨hr.1, .trans (.one rest caret (by decide)) hr.2⟩
    · split
      · next opens =>
        split
        · exact .fail trivial
        · next inner after hbar =>
          obtain ⟨bar, closes, hrest⟩ := Token.untilBar_eq hbar
          have hlength := Token.untilBar_length hbar
          rw [hrest, Token.totalWeight_append, Token.totalWeight_cons] at hsize
          refine (hsub inner .usize (.of_complete rfl) (by omega)).bind fun i hi => ?_
          refine (index_builds t hn hi.1).bind fun m hm => ?_
          refine (postfixes_builds hsub hm.builds after (by omega)).mono fun r hr => ⟨hr.1, ?_⟩
          have between : Token.Takes rest (bar :: after) := ⟨inner, hrest, hi.2.nested⟩
          exact ((Token.Takes.one _ opens (by decide)).trans between).trans (.trans (.one after closes (by decide)) hr.2)
      · exact .pure ⟨hn, .refl _⟩
termination_by toks.length

theorem postfixed_builds (hv : v.Complete) (hsub : SubBuilds v sub size) (final : Token)
    (hwant : want.Wanted) (toks : List Token) (hsize : Token.totalWeight toks ≤ size) :
    Ensures v (postfixed sub final want toks) (BuildsFrom v toks) := by
  unfold postfixed
  refine (primary_builds hv hsub final hwant toks hsize).bind fun r hr => ?_
  exact (postfixes_builds hsub hr.1 r.2 (Nat.le_trans hr.2.weight_le hsize)).mono fun _ hr' => ⟨hr'.1, hr.2.trans hr'.2⟩

theorem unary_builds (hv : v.Complete) (hsub : SubBuilds v sub size) (final : Token)
    (hwant : want.Wanted) (toks : List Token) (hsize : Token.totalWeight toks ≤ size) :
    Ensures v (unary sub final want toks) (BuildsFrom v toks) := by
  cases toks with
  | nil => exact postfixed_builds hv hsub final hwant [] hsize
  | cons t rest =>
    rw [unary]
    split
    · next ampersand =>
      rw [Token.totalWeight_cons] at hsize
      refine (postfixed_builds hv hsub final .absent rest (by omega)).bind fun r hr => ?_
      obtain ⟨operand, after⟩ := r
      dsimp only
      split
      · exact .fail trivial
      · next place =>
        exact .pure ⟨.address t hr.1 (by simpa using place), .trans (.one rest ampersand (by decide)) hr.2⟩
    · split
      · refine .read ?_
        exact (Ensures.ofExcept (TypeExpr.read_settled v false final (t :: rest)).with_eq).bind
          fun r hr => .pure ⟨.typeName t hr.2, hr.1.2⟩
      · exact postfixed_builds hv hsub final hwant (t :: rest) hsize

theorem step_builds (hv : v.Complete) (toks : List Token) (hsub : SubBuilds v sub (Token.totalWeight toks))
    (hwant : want.Wanted) : Ensures v (step sub toks want) fun n => BuildsFrom v toks (n, []) := by
  unfold step
  refine .read ?_
  dsimp only
  split
  · exact .fail trivial
  · refine (unary_builds hv hsub _ hwant toks (Nat.le_refl _)).bind fun r hr => ?_
    exact (Ensures.ofExcept (nothingMore_settled _ r.2)).bind fun _ none => .pure (none ▸ hr)

theorem expression_takes (hv : v.Complete) (toks : List Token) {want : Ty} (hwant : want.Wanted) :
    Ensures v (expression toks want) fun n => BuildsFrom v toks (n, []) := by
  rw [expression]
  refine step_builds hv toks ?_ hwant
  -- The knot is tied at smaller expressions only, so the other branch is never taken.
  intro inner want' hwant' hlt
  dsimp only
  rw [dif_pos hlt]
  exact expression_takes hv inner hwant'
termination_by Token.totalWeight toks

theorem expression_builds (hv : v.Complete) (toks : List Token) (hwant : want.Wanted) :
    Ensures v (expression toks want) v.Builds :=
  (expression_takes hv toks hwant).mono fun _ hn => hn.1

/-- The nodes of a condition: expressions, and operators between them. -/
inductive BuildsPart (v : View) : Node → Prop
  | operand {n : Node} (h : v.Builds n) : BuildsPart v n
  | operator (t : Token) : BuildsPart v (.plain t (.operator t.kind))

/-- The nodes that the pieces of a condition are read into. -/
inductive BuildsPiece (v : View) : Condition.Piece → Node → Prop
  | operand {toks : List Token} {n : Node} (h : BuildsFrom v toks (n, [])) : BuildsPiece v (.operand toks) n
  | operator (t : Token) : BuildsPiece v (.operator t) (.plain t (.operator t.kind))

theorem BuildsPiece.part (h : BuildsPiece v piece n) : BuildsPart v n := by
  cases h with
  | operand h => exact .operand h.1
  | operator t => exact .operator t

theorem conditionNodes_builds (hv : v.Complete) (pieces : List Condition.Piece) :
    Ensures v (conditionNodes pieces) (List.Forall₂ (BuildsPiece v) pieces) := by
  induction pieces with
  | nil => exact .pure .nil
  | cons piece pieces ih =>
    have goesOn (n : Node) (hn : BuildsPiece v piece n) : Ensures v (conditionNodes pieces >>= fun ns => pure (n :: ns))
        (List.Forall₂ (BuildsPiece v) (piece :: pieces)) := ih.bind fun ns hns => .pure (.cons hn hns)
    cases piece with
    | operand toks => exact (expression_takes hv toks .absent).bind fun n hn => goesOn n (.operand hn)
    | operator t => exact goesOn _ (.operator t)
    | unmatched t sign =>
      have stops : Ensures v (fail t (.unmatched sign) : Infer Node) (BuildsPiece v (.unmatched t sign)) := .fail trivial
      exact stops.bind goesOn

theorem condition_pieces (hv : v.Complete) (opened : Token) (toks : List Token) :
    Ensures v (condition opened toks) fun ns => toks ≠ [] ∧ Condition.dangling? ns = none ∧
      List.Forall₂ (BuildsPiece v) (Condition.pieces [] toks) ns := by
  unfold condition
  split
  · exact .fail trivial
  · next some =>
    refine (conditionNodes_builds hv _).bind fun ns hns => ?_
    split
    · exact .fail trivial
    · next ended => exact .pure ⟨by simpa using some, ended, hns⟩

theorem condition_builds (hv : v.Complete) (opened : Token) (toks : List Token) :
    Ensures v (condition opened toks) fun ns => ∀ n ∈ ns, BuildsPart v n := by
  refine (condition_pieces hv opened toks).mono fun ns h => ?_
  obtain ⟨-, -, h⟩ := h
  generalize Condition.pieces [] toks = pieces at h
  induction h with
  | nil => exact forall_mem_nil _
  | cons first _ ih => exact forall_mem_cons.mpr ⟨first.part, ih⟩

end Infer

end Impulse
