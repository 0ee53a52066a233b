import Impulse.Proofs.Agreement

/-!
# Expressions that are read twice

Reading corresponding tokens gives corresponding types and trees. What is looked up in the context and in the scope
is the same for both readings, and everything else depends on the kinds and texts of tokens, never on their places.
-/

namespace Impulse

open List

variable {K : Comparison}

namespace Infer

def AlikeFirst (K : Comparison) (files : List SourceFile) (p q : Token × List Token) : Prop :=
  K.token files p.1 q.1 ∧ K.Tokens files p.2 q.2

theorem expect_agrees (h : K.Tokens files toks toks') (hfinal : K.place files final final')
    (kind : Token.Kind) (p : Problem) :
    SameResult K files (AlikeFirst K files) (expect final kind p toks) (expect final' kind p toks') := by
  cases h with
  | nil => exact .error (.problem hfinal p)
  | cons ht hrest =>
    rw [expect, expect, K.kind ht]
    split
    · exact .ok ⟨ht, hrest⟩
    · exact .problem ht p

theorem closing_agrees (ht : K.token files t u) (h : K.Tokens files toks toks') :
    SameResult K files (Comparison.Tokens.Pair K files) (closing t toks) (closing u toks') := by
  unfold closing
  generalize hp : Token.untilClose 0 toks = p
  generalize hq : Token.untilClose 0 toks' = q
  have same := h.untilClose 0
  rw [hp, hq] at same
  cases same with
  | none => exact .problem ht _
  | some parts => exact .ok parts

theorem nothingMore_agrees (region : Region) (h : K.Tokens files toks toks') :
    SameResult K files (· = ·) (nothingMore region toks) (nothingMore region toks') := by
  cases h with
  | nil => exact .ok rfl
  | cons ht _ =>
    rw [nothingMore, nothingMore, K.text ht]
    exact .problem ht _

end Infer

namespace TypeExpr

def AlikeRest (K : Comparison) (files : List SourceFile) (p q : Ty × List Token) : Prop :=
  q.1 = p.1 ∧ K.Tokens files p.2 q.2

def AgreedArguments (K : Comparison) (files : List SourceFile)
    (args args' : Token → List Token → Except Stop (List Ty)) : Prop :=
  ∀ {t u toks toks'}, K.token files t u → K.Tokens files toks toks' →
    SameResult K files (· = ·) (args t toks) (args' u toks')

theorem placeholder_agrees (hv : v.Alike K files w) (ht : K.token files t u) :
    SameResult K files (· = ·) (placeholder v header t) (placeholder w header u) := by
  unfold placeholder
  rw [hv.placeholders, K.value ht]
  split
  · exact .ok rfl
  · exact .problem ht _

theorem arrayLength_agrees (hv : v.Alike K files w) (ht : K.token files t u) :
    SameResult K files (· = ·) (arrayLength v t) (arrayLength w u) := by
  unfold arrayLength
  simp only [hv.context, hv.scope, K.value ht]
  split
  · exact .ok rfl
  · split
    · exact .problem ht _
    · split
      · exact .problem ht _
      · exact .ok rfl

theorem structArguments_agrees (hargs : AgreedArguments K files args args') (h : K.Tokens files toks toks') :
    SameResult K files (fun p q => q.1 = p.1 ∧ K.Tokens files p.2 q.2) (structArguments args toks)
      (structArguments args' toks') := by
  cases h with
  | nil => exact .ok ⟨rfl, .nil⟩
  | cons ht hrest =>
    rw [structArguments, structArguments, K.kind ht]
    split
    · refine (Infer.closing_agrees ht hrest).bind fun parts parts' hparts => ?_
      refine (hargs ht hparts.1).bind fun tys tys' same => ?_
      exact .ok ⟨same.symm, hparts.2⟩
    · exact .ok ⟨rfl, .cons ht hrest⟩

theorem named_agrees (hv : v.Alike K files w) (hargs : AgreedArguments K files args args')
    (ht : K.token files t u) (h : K.Tokens files toks toks') :
    SameResult K files (AlikeRest K files) (named v args t toks) (named w args' u toks') := by
  unfold named
  simp only [hv.context, hv.scope, hv.self?, K.value ht]
  split
  · exact .ok ⟨rfl, h⟩
  · exact .ok ⟨rfl, h⟩
  · refine (structArguments_agrees hargs h).bind fun p q same => ?_
    obtain ⟨tys, rest⟩ := p
    obtain ⟨tys', rest'⟩ := q
    obtain ⟨rfl, hrest⟩ : tys' = tys ∧ K.Tokens files rest rest' := same
    dsimp only
    split
    · exact .problem ht _
    · exact .ok ⟨rfl, hrest⟩
  · split
    · exact .ok ⟨rfl, h⟩
    · split
      · split
        · exact .ok ⟨rfl, h⟩
        · exact .problem ht _
      · exact .problem ht _

theorem baseAt_agrees (hv : v.Alike K files w) (hargs : AgreedArguments K files args args')
    (hfinal : K.token files final final') (h : K.Tokens files toks toks') :
    SameResult K files (AlikeRest K files) (baseAt v header args final toks) (baseAt w header args' final' toks') := by
  cases h with
  | nil =>
    simp only [baseAt, K.text hfinal]
    exact .problem hfinal _
  | cons ht hrest =>
    simp only [baseAt, List.head?_cons, Option.elim_some, tail_cons, K.kind ht, K.text ht]
    split
    · refine (Infer.expect_agrees hrest (K.atToken hfinal) _ _).bind fun p q both => ?_
      exact (placeholder_agrees hv both.1).bind fun base base' same => .ok ⟨same.symm, both.2⟩
    · split
      · exact named_agrees hv hargs ht hrest
      · exact .problem ht _

theorem withLength_agrees (hv : v.Alike K files w) (ty : Ty) (h : K.Tokens files toks toks') :
    SameResult K files (AlikeRest K files) (withLength v ty toks) (withLength w ty toks') := by
  cases h with
  | nil => exact .ok ⟨rfl, .nil⟩
  | cons ht hrest =>
    simp only [withLength, List.head?_cons, Option.elim_some, tail_cons, K.kind ht]
    split
    · exact (arrayLength_agrees hv ht).bind fun length length' same => .ok ⟨by rw [same], hrest⟩
    · exact .ok ⟨rfl, .cons ht hrest⟩

theorem one_agrees (hv : v.Alike K files w) (hargs : AgreedArguments K files args args')
    (hfinal : K.token files final final') (h : K.Tokens files toks toks') :
    SameResult K files (AlikeRest K files) (one v header args final toks) (one w header args' final' toks') := by
  have carets : (toks'.takeWhile (·.kind = .caret)).length = (toks.takeWhile (·.kind = .caret)).length :=
    (h.takeWhile fun kind => kind = .caret).length_eq.symm
  rw [one_eq, one_eq, carets]
  refine (baseAt_agrees hv hargs hfinal (h.drop _)).bind ?_
  rintro ⟨base, after⟩ ⟨base', after'⟩ ⟨same, hafter⟩
  obtain rfl : base' = base := same
  exact withLength_agrees hv _ hafter

theorem many_agrees {one one' : List Token → Except Stop (Ty × List Token)}
    (hone : ∀ {toks toks'}, K.Tokens files toks toks' → SameResult K files (AlikeRest K files) (one toks) (one' toks'))
    {toks toks' : List Token} (h : K.Tokens files toks toks') :
    SameResult K files (· = ·) (many one toks) (many one' toks') := by
  cases h with
  | nil =>
    rw [many, many]
    exact .ok rfl
  | @cons t u toks toks' ht hrest =>
    have first := hone (.cons ht hrest)
    rw [many, many.eq_def one']
    dsimp only
    rw [K.kind ht]
    split
    · exact many_agrees hone hrest
    · generalize one (t :: toks) = p at first ⊢
      generalize one' (u :: toks') = q at first ⊢
      cases first with
      | error h => exact .error h
      | @ok a b h =>
        obtain ⟨ty, rest⟩ := a
        obtain ⟨ty', rest'⟩ := b
        obtain ⟨same, hrest'⟩ := h
        obtain rfl : ty' = ty := same
        dsimp only
        have lengths : rest'.length ≤ toks'.length ↔ rest.length ≤ toks.length := by
          rw [hrest'.length_eq, hrest.length_eq]
        by_cases shorter : rest.length ≤ toks.length
        · rw [dif_pos shorter, dif_pos (lengths.mpr shorter)]
          have others := many_agrees hone hrest'
          generalize many one rest = p at others ⊢
          generalize many one' rest' = q at others ⊢
          cases others with
          | ok h => exact .ok (congrArg _ h)
          | error h => exact .error h
        · rw [dif_neg shorter, dif_neg fun le => shorter (lengths.mp le)]
          exact .error (.fault _)
termination_by toks.length

theorem arguments_agrees (hv : v.Alike K files w) {t u : Token} (ht : K.token files t u)
    {toks toks' : List Token} (h : K.Tokens files toks toks') :
    SameResult K files (· = ·) (arguments v header t toks) (arguments w header u toks') := by
  -- Arguments inside of arguments are read by the same function, from fewer tokens.
  have nested : AgreedArguments K files (argumentsBelow v header toks.length)
      (argumentsBelow w header toks'.length) := by
    intro opened opened' inner inner' hopened hinner
    rw [argumentsBelow, argumentsBelow, ← hinner.length_eq, ← h.length_eq]
    split
    · exact arguments_agrees hv hopened hinner
    · exact .error (.fault _)
  rw [arguments_eq, arguments_eq]
  refine (many_agrees (fun hts => one_agrees hv nested (h.getLastD ht) hts) h).bind fun tys tys' same => ?_
  obtain rfl : tys = tys' := same
  split
  · exact .problem ht _
  · exact .ok rfl
termination_by toks.length

theorem read_agrees (hv : v.Alike K files w) (hfinal : K.token files final final') (h : K.Tokens files toks toks') :
    SameResult K files (AlikeRest K files) (read v header final toks) (read w header final' toks') :=
  one_agrees hv (fun ht hts => arguments_agrees hv ht hts) hfinal h

theorem ofTokens_agrees (hv : v.Alike K files w) (h : K.Tokens files toks toks') :
    SameResult K files (· = ·) (ofTokens v header toks) (ofTokens w header toks') := by
  cases h with
  | nil => exact .error (.problem hv.last _)
  | cons ht hrest =>
    unfold ofTokens
    rw [getLastD_cons, getLastD_cons]
    refine (read_agrees hv (Comparison.Tokens.getLastD hrest ht) (.cons ht hrest)).bind ?_
    rintro ⟨ty, rest⟩ ⟨ty', rest'⟩ ⟨same, hrest⟩
    exact (Infer.nothingMore_agrees .typeExpr hrest).bind fun _ _ _ => .ok same.symm

end TypeExpr

namespace Call

theorem checkArg_eq (h : n.Alike R m) (callee : String) (declared : List String) (position : Nat) (p : Param)
    (b : Bindings) : checkArg callee declared position p m b = checkArg callee declared position p n b := by
  unfold checkArg
  simp only [h.isAbsent_eq, h.typeValue?_eq, h.ty_eq, h.accepts_eq]

theorem checkArgs_eq (h : Node.AlikeAll R args args') (callee : String) (declared : List String)
    (params : List Param) (position : Nat) (b : Bindings) :
    checkArgs callee declared position b (params.zip args')
      = checkArgs callee declared position b (params.zip args) := by
  induction h generalizing params position b with
  | nil => rfl
  | cons hn _ ih =>
    cases params with
    | nil => rfl
    | cons p params =>
      rw [zip_cons_cons, zip_cons_cons, checkArgs, checkArgs, checkArg_eq hn]
      split
      · rfl
      · exact ih params _ _

theorem check_eq (h : Node.AlikeAll R args args') (functions : Table Signature) (callee : String) :
    check functions callee args' = check functions callee args := by
  unfold check
  simp only [h.length_eq, checkArgs_eq h]

end Call

abbrev Comparison.Nodes (K : Comparison) (files : List SourceFile) : Node → Node → Prop :=
  Node.Twins (K.token files)

abbrev Comparison.NodeLists (K : Comparison) (files : List SourceFile) : List Node → List Node → Prop :=
  List.Forall₂ (K.Nodes files)

theorem Comparison.NodeLists.alike (h : K.NodeLists files ns ms) :
    Node.AlikeAll (K.token files) ns ms :=
  h.imp fun _ _ same => same.alike

/-- A relation of tokens under which two readings stop at corresponding places, and show corresponding tokens. It does
not depend on the texts of tokens. -/
structure Comparison.Marks (K : Comparison) (files : List SourceFile) (R : Token → Token → Prop) : Prop where
  place {t u : Token} : R t u → K.place files t u
  shown {t u : Token} : R t u → K.shown files t u
  renamed {t u : Token} (value : String) : R t u → R { t with value := value } { u with value := value }

theorem Comparison.marks (K : Comparison) (files : List SourceFile) : K.Marks files (K.token files) where
  place := K.atToken
  shown := K.toShown
  renamed {t u} value ht := by
    rw [K.kind ht]
    exact K.retag t.kind value ht

section Marks

theorem Arith.numeral_agrees (ht : R t u) (value : String) (ty : Ty) :
    Node.Twins R (.numeral t value ty) (.numeral u value ty) :=
  .node (.number value (.absent, .absent)) ht (forall_mem_singleton.mpr .absent)

theorem Arith.resultTy_agrees (hleft : Node.Twins R left left') (hright : Node.Twins R right right') :
    resultTy left' right' = resultTy left right := by
  unfold resultTy
  simp only [hleft.alike.ty_eq, hright.alike.ty_eq, hleft.alike.isNumber_eq, hright.alike.isNumber_eq]

theorem Infer.method?_eq (hv : v.Alike K files w) (name : String) : method? w name = method? v name := by
  unfold method?
  rw [hv.find?_eq, hv.context]

structure Infer.AlikeCallee (R : Token → Token → Prop) (p q : String × Callee) : Prop where
  name : q.1 = p.1
  sig : q.2.sig = p.2.sig
  receiver : List.Forall₂ (Node.Twins R) p.2.receiver.toList q.2.receiver.toList

variable (marks : K.Marks files R) (ht : R t u)

include marks ht

namespace Infer

theorem deref_agrees (hn : Node.Twins R n m) : Agrees K files (deref t n) (deref u m) (Node.Twins R) := by
  unfold deref
  rw [hn.alike.ty_eq, hn.alike.text_eq]
  split
  · exact .pure (.node (.deref (n, m)) ht (forall_mem_singleton.mpr hn.alike))
  · exact .fail (marks.place ht)

theorem index_agrees (hn : Node.Twins R n m) (hi : Node.Twins R i j) :
    Agrees K files (index t n i) (index u m j) (Node.Twins R) := by
  unfold index
  simp only [hn.alike.ty_eq, hn.alike.text_eq, hi.alike.ty_eq, hi.alike.text_eq, hi.alike.isNumber_eq]
  refine .ite (fun _ => .fail (marks.place ht)) fun _ => .ite (fun _ => .fail (marks.place ht)) fun _ => ?_
  refine .pure (.node (.index (n, m) (i, j)) ht ?_)
  exact forall_mem_cons.mpr ⟨hn.alike, forall_mem_singleton.mpr hi.alike⟩

theorem callee_agrees (same : u.value = t.value) : Agrees K files (callee t) (callee u) (AlikeCallee R) := by
  unfold callee
  refine .read fun v w hv => ?_
  simp only [hv.context, same, method?_eq hv, hv.feature_eq (f := .methodCalls) (by decide)]
  split
  · exact .pure ⟨rfl, rfl, .nil⟩
  · split
    · exact .fail (marks.place ht)
    · next x isPointer full sig _ =>
      refine .ite (fun _ => .fail (marks.place ht)) fun _ => .pure ⟨rfl, rfl, .cons ?_ .nil⟩
      have self : Node.Twins R (.node t x.ty (.name x.name x.flat)) (.node u x.ty (.name x.name x.flat)) :=
        .leaf rfl ht
      cases isPointer with
      | true => exact self
      | false => exact .node (.address (_, _)) ht (forall_mem_singleton.mpr self.alike)

theorem call_agrees (name : String) (sig : Signature)
    (hargs : List.Forall₂ (Node.Twins R) args args') :
    Agrees K files (call t name sig args) (call u name sig args') (Node.Twins R) := by
  have alike : Node.AlikeAll R args args' := hargs.imp fun _ _ same => same.alike
  have node : ∀ ty, Node.Twins R (.node t ty (.call name args)) (.node u ty (.call name args')) := by
    intro ty
    obtain ⟨ps, rfl, rfl, hps⟩ := exists_pairs alike
    exact .node (.call name ps) ht hps
  unfold call
  refine .read fun v w hv => ?_
  rw [hv.context, Call.check_eq alike]
  cases Call.check v.context.functions name args with
  | ok b => exact .pure (node _)
  | error e => exact (Agrees.mismatch (marks.place ht) (marks.shown ht) (.call e)).bind fun _ _ _ => .pure (node _)

end Infer

namespace Arith

open Infer (Agrees)

variable (op : Char)

theorem requireNumeric_agrees (hn : Node.Twins R n m) :
    Agrees K files (requireNumeric t op n) (requireNumeric u op m) (· = ·) := by
  unfold requireNumeric
  rw [hn.alike.ty_eq, hn.alike.text_eq]
  exact .ite (fun _ => .pure rfl) fun _ => .fail (marks.place ht)

theorem requireClosed_agrees (sign : String) (closed : Bool) :
    Agrees K files (requireClosed t sign closed) (requireClosed u sign closed) (· = ·) := by
  unfold requireClosed
  exact .ite (fun _ => .pure rfl) fun _ => .fail (marks.place ht)

theorem foldOp_agrees (ty : Ty) (a b : Int) :
    Agrees K files (foldOp t op ty a b) (foldOp u op ty a b) (Node.Twins R) := by
  unfold foldOp
  split
  · exact .fail (marks.place ht)
  · refine .read fun v w hv => ?_
    simp only [hv.first, hv.second, K.wordSize]
    refine .ite (fun _ => ?_) fun _ => .pure (numeral_agrees ht _ _)
    exact (Agrees.warn (marks.shown ht) rfl).bind fun _ _ _ => .pure (numeral_agrees ht _ _)

theorem combine_agrees (hleft : Node.Twins R left left') (hright : Node.Twins R right right') :
    Agrees K files (combine t op left right) (combine u op left' right') (Node.Twins R) := by
  unfold combine
  refine (requireNumeric_agrees marks ht op hleft).bind fun _ _ _ => ?_
  refine (requireNumeric_agrees marks ht op hright).bind fun _ _ _ => ?_
  refine .read fun v w hv => ?_
  simp only [resultTy_agrees hleft hright, hv.feature_eq (f := .fold) (by decide), hleft.alike.integer?_eq,
    hright.alike.integer?_eq]
  split
  · exact foldOp_agrees marks ht op _ _ _
  · refine .ite (fun _ => .fail (marks.place ht)) fun _ => ?_
    refine .pure (.node (.binary op (left, left') (right, right')) ht ?_)
    exact forall_mem_cons.mpr ⟨hleft.alike, forall_mem_singleton.mpr hright.alike⟩

theorem nameNode_agrees (name : String) : Agrees K files (nameNode t name) (nameNode u name) (Node.Twins R) := by
  unfold nameNode
  refine .read fun v w hv => ?_
  simp only [hv.find?_eq, hv.feature_eq (f := .fold) (by decide)]
  split
  · exact .fail (marks.place ht)
  · exact .ite (fun _ => .pure (numeral_agrees ht _ _)) fun _ => .pure (.leaf rfl ht)

omit marks ht

mutual

theorem reduce_agrees (marks : K.Marks files R) (ht : R t u) : ∀ a : Arith,
    Agrees K files (reduce t a) (reduce u a) (Node.Twins R)
  | number text => by
    rw [reduce, reduce]
    exact .pure (numeral_agrees ht _ _)
  | name text => by
    rw [reduce, reduce]
    exact nameNode_agrees marks ht text
  | call f args closed => by
    rw [reduce, reduce]
    refine (Infer.callee_agrees marks (marks.renamed f ht) rfl).bind fun p q same => ?_
    refine (reduceAll_agrees marks ht args).bind fun ns ms hns => ?_
    refine (requireClosed_agrees marks ht ")" closed).bind fun _ _ _ => ?_
    rw [same.name, same.sig]
    exact Infer.call_agrees marks (marks.renamed f ht) p.1 p.2.sig (rel_append same.receiver hns)
  | negate operand => by
    rw [reduce, reduce]
    exact (reduce_agrees marks ht operand).bind fun n m hn =>
      combine_agrees marks ht '-' (numeral_agrees ht "0" .int) hn
  | binary op left right => by
    rw [reduce, reduce]
    exact (reduce_agrees marks ht left).bind fun n m hn => (reduce_agrees marks ht right).bind fun i j hi =>
      combine_agrees marks ht op hn hi
  | deref operand => by
    rw [reduce, reduce]
    exact (reduce_agrees marks ht operand).bind fun n m hn => Infer.deref_agrees marks ht hn
  | index base position closed => by
    rw [reduce, reduce]
    refine (reduce_agrees marks ht base).bind fun n m hn => (reduce_agrees marks ht position).bind fun i j hi => ?_
    exact (requireClosed_agrees marks ht "|" closed).bind fun _ _ _ => Infer.index_agrees marks ht hn hi
  | paren inner closed => by
    rw [reduce, reduce]
    exact (reduce_agrees marks ht inner).bind fun n m hn =>
      (requireClosed_agrees marks ht ")" closed).bind fun _ _ _ => .pure hn
  | broken p => by
    rw [reduce, reduce]
    exact .fail (marks.place ht)
  | stuck => by
    rw [reduce, reduce]
    exact .fault _

theorem reduceAll_agrees (marks : K.Marks files R) (ht : R t u) : ∀ as : List Arith,
    Agrees K files (reduceAll t as) (reduceAll u as) (List.Forall₂ (Node.Twins R))
  | [] => by
    rw [reduceAll, reduceAll]
    exact .pure .nil
  | a :: as => by
    rw [reduceAll, reduceAll]
    exact (reduce_agrees marks ht a).bind fun n m hn => (reduceAll_agrees marks ht as).bind fun ns ms hns =>
      .pure (.cons hn hns)

end

end Arith

theorem Infer.arithmetic_agrees (raw : String) (want : Ty) :
    Agrees K files (arithmetic t raw want) (arithmetic u raw want) (Node.Twins R) := by
  unfold arithmetic
  split
  · exact .fail (marks.place ht)
  · next units _ =>
    dsimp only
    generalize Arith.sum units = parsed
    obtain ⟨tree, rest⟩ := parsed
    refine (Arith.reduce_agrees marks ht tree).bind fun n m hn => ?_
    cases rest with
    | cons unit _ => exact .fail (marks.place ht)
    | nil =>
      have other : Agrees K files
          (if (!n.ty.isArithmetic) = true then fail t (.literal (.notNumeric raw n.text n.ty))
            else pure (.node t n.ty (.number n.text n)))
          (if (!m.ty.isArithmetic) = true then fail u (.literal (.notNumeric raw m.text m.ty))
            else pure (.node u m.ty (.number m.text m))) (Node.Twins R) := by
        rw [hn.alike.ty_eq, hn.alike.text_eq]
        refine .ite (fun _ => .fail (marks.place ht)) fun _ => ?_
        exact .pure (.node (.number n.text (n, m)) ht (forall_mem_singleton.mpr hn.alike))
      have same := hn
      obtain ⟨alike, present⟩ := hn
      cases alike with
      | absent => cases present
      | node ty form _ _ =>
        cases form with
        | number value expr => exact .ite (fun _ => .pure (Arith.numeral_agrees ht _ _)) fun _ => .pure same
        | _ => exact other

end Marks

theorem Tokens.scan_file (comments : Bool) (file : Nat) (p : Place) (cs : List Char) :
    (∀ t ∈ (scan comments file p cs).tokens, t.file = file) ∧
      ∀ t e, (scan comments file p cs).failure = some (t, e) → t.file = file := by
  fun_induction scan comments file p cs with
  | case1 =>
    refine ⟨fun t ht => ?_, fun t e failed => ?_⟩
    · obtain rfl := mem_singleton.mp ht
      rfl
    · cases failed
  | case2 =>
    refine ⟨forall_mem_nil _, fun t e failed => ?_⟩
    cases failed
    rfl
  | case3 p cs blanks p' c rest h lexeme read token ih =>
    exact ⟨forall_mem_cons.mpr ⟨rfl, ih.1⟩, ih.2⟩

namespace Infer

theorem innerTokens_agrees (ht : K.token files t u) (part : text ∈ elementTexts (Text.trim t.value)) :
    Agrees K files (innerTokens t text) (innerTokens u text) (K.Tokens files) := by
  unfold innerTokens
  refine .read fun v w hv => ?_
  rw [hv.feature_eq (f := .comments) (by decide), K.file ht]
  have own := (Tokens.scan_file (v.settings.feature .comments) t.file .start text.toList).1
  dsimp only
  split
  · next place e failed =>
    rw [hv.first] at failed
    exact .throw (.piece ht part failed)
  · refine .pure ?_
    unfold Comparison.Tokens
    rw [forall₂_map_left_iff, forall₂_map_right_iff, forall₂_same]
    intro x hx
    have moved := K.retag x.kind x.value ht
    have file := own x (mem_of_mem_filter hx)
    rw [K.file ht, ← file] at moved
    exact moved

def AgreedSub (K : Comparison) (files : List SourceFile) (sub sub' : Sub) : Prop :=
  ∀ {toks toks'} (want : Ty), K.Tokens files toks toks' →
    Agrees K files (sub toks want) (sub' toks' want) (K.Nodes files)

theorem element_agrees (hsub : AgreedSub K files sub sub') (ht : K.token files t u) (want : Ty)
    (position : Nat) (part : text ∈ elementTexts (Text.trim t.value)) :
    Agrees K files (element sub t want position text) (element sub' u want position text) (K.Nodes files) := by
  unfold element
  refine .ite (fun _ => arithmetic_agrees (K.marks files) ht text want) fun _ => ?_
  refine (innerTokens_agrees ht part).bind fun toks toks' htoks => ?_
  rw [htoks.isEmpty_eq]
  exact .ite (fun _ => .failAt ht) fun _ => hsub want htoks

theorem elements_agrees (hsub : AgreedSub K files sub sub') (ht : K.token files t u) (want : Ty)
    (position : Nat) (parts : ∀ text ∈ texts, text ∈ elementTexts (Text.trim t.value)) :
    Agrees K files (elements sub t want position texts) (elements sub' u want position texts) (K.NodeLists files) := by
  induction texts generalizing position with
  | nil => exact .pure .nil
  | cons text texts ih =>
    rw [elements, elements]
    rw [forall_mem_cons] at parts
    exact (element_agrees hsub ht want position parts.1).bind fun n m hn => (ih _ parts.2).bind fun ns ms hns =>
      .pure (.cons hn hns)

theorem checkElements_agrees (ht : K.token files t u) (want : Ty) (position : Nat)
    (h : K.NodeLists files ns ms) :
    Agrees K files (checkElements t want position ns) (checkElements u want position ms) (· = ·) := by
  induction h generalizing position with
  | nil => exact .pure rfl
  | cons hn _ ih =>
    rw [checkElements, checkElements, hn.alike.accepts_eq, hn.alike.ty_eq]
    exact .check ht _ (ih _)

section

variable (hsub : AgreedSub K files sub sub')
include hsub

variable (ht : K.token files t u)
include ht

theorem listLiteral_agrees (parts : ∀ text ∈ texts, text ∈ elementTexts (Text.trim t.value)) (want : Ty) :
    Agrees K files (listLiteral sub t texts want) (listLiteral sub' u texts want) (K.Nodes files) := by
  unfold listLiteral
  dsimp only
  refine (elements_agrees hsub ht _ 1 parts).bind fun ns ms hns => ?_
  have first : (ms.headD .absent).ty = (ns.headD .absent).ty := by
    cases hns with
    | nil => rfl
    | cons hn _ => exact hn.alike.ty_eq
  rw [first, ← hns.length_eq]
  refine (checkElements_agrees ht _ 1 hns).bind fun _ _ _ => .pure ?_
  obtain ⟨ps, rfl, rfl, hps⟩ := exists_pairs hns.alike
  rw [length_map]
  exact .node (.list ps) ht hps

theorem literal_agrees (want : Ty) : Agrees K files (literal sub t want) (literal sub' u want) (K.Nodes files) := by
  unfold literal
  rw [K.value ht]
  dsimp only
  refine .ite (fun _ => .failAt ht) fun _ => ?_
  exact .ite (fun _ => arithmetic_agrees (K.marks files) ht _ want) fun _ =>
    listLiteral_agrees hsub ht (fun _ part => part) want

theorem arguments_agrees (name : String) (position : Nat) (params : List Param)
    (h : K.Parts files parts parts') :
    Agrees K files (arguments sub t name position params parts)
      (arguments sub' u name position params parts') (K.NodeLists files) := by
  induction h generalizing position params with
  | nil => exact .pure .nil
  | cons htoks _ ih =>
    rw [arguments, arguments, Comparison.Tokens.isEmpty_eq htoks]
    refine .ite (fun _ => .failAt ht) fun _ => ?_
    exact (hsub _ htoks).bind fun n m hn => (ih _ _).bind fun ns ms hns => .pure (.cons hn hns)

theorem callExpr_agrees (h : K.Tokens files toks toks') :
    Agrees K files (callExpr sub t toks) (callExpr sub' u toks') (K.Nodes files) := by
  unfold callExpr
  refine (callee_agrees (K.marks files) ht (K.value ht)).bind fun p q same => ?_
  obtain ⟨name, callee⟩ := p
  obtain ⟨name', callee'⟩ := q
  obtain ⟨rfl, sig, receiver⟩ : AlikeCallee (K.token files) (name, callee) (name', callee') := same
  dsimp only at sig receiver ⊢
  rw [sig, ← receiver.length_eq]
  refine (arguments_agrees hsub ht _ 1 _ (h.splitTop .comma)).bind fun ns ms hns => ?_
  exact call_agrees (K.marks files) ht _ callee.sig (rel_append receiver hns)

end

def AlikeBefore (K : Comparison) (files : List SourceFile) (p q : Node × List Token) : Prop :=
  K.Nodes files p.1 q.1 ∧ K.Tokens files p.2 q.2

theorem typeLit_agrees (ht : K.token files t u) (hv : v.Alike K files w)
    (hfinal : K.token files final final') (h : K.Tokens files toks toks') :
    Agrees K files (ofExcept (TypeExpr.read v false final toks) >>= fun p => pure (Node.typeLit t p.1, p.2))
      (ofExcept (TypeExpr.read w false final' toks') >>= fun p => pure (Node.typeLit u p.1, p.2))
      (AlikeBefore K files) := by
  refine (Agrees.ofExcept (TypeExpr.read_agrees hv hfinal h)).bind fun p q same => .pure ⟨?_, same.2⟩
  rw [same.1]
  exact .leaf rfl ht

theorem nameExpr_agrees (hfinal : K.token files final final') (ht : K.token files t u) (h : K.Tokens files toks toks') :
    Agrees K files (nameExpr final t toks) (nameExpr final' u toks') (AlikeBefore K files) := by
  unfold nameExpr
  refine .read fun v w hv => ?_
  simp only [hv.find?_eq, hv.isTypeName_eq, K.value ht]
  split
  · exact .pure ⟨.leaf rfl ht, h⟩
  · refine .ite (fun _ => ?_) fun _ => .failAt ht
    exact typeLit_agrees ht hv hfinal (.cons ht h)

theorem primary_agrees (hsub : AgreedSub K files sub sub') (hfinal : K.token files final final')
    (want : Ty) (h : K.Tokens files toks toks') :
    Agrees K files (primary sub final want toks) (primary sub' final' want toks') (AlikeBefore K files) := by
  cases h with
  | nil =>
    rw [primary, primary, K.text hfinal]
    exact .failAt hfinal
  | @cons t u toks toks' ht hrest =>
    rw [primary.eq_def, primary.eq_def sub']
    dsimp only
    rw [K.kind ht, K.text ht, K.value ht]
    split
    · exact (literal_agrees hsub ht want).bind fun n m hn => .pure ⟨hn, hrest⟩
    · exact .pure ⟨.leaf rfl ht, hrest⟩
    · exact .pure ⟨.leaf rfl ht, hrest⟩
    · exact .pure ⟨.leaf rfl ht, hrest⟩
    · exact .pure ⟨.leaf rfl ht, hrest⟩
    · refine (Agrees.ofExcept (expect_agrees hrest (K.atToken hfinal) _ _)).bind fun p q hname => ?_
      rw [K.value hname.1]
      refine .ite (fun _ => .failAt hname.1) fun _ => ?_
      refine (Agrees.ofExcept (expect_agrees hname.2 (K.atToken hfinal) _ _)).bind fun p q hcode => ?_
      rw [K.value hcode.1]
      exact .pure ⟨.leaf rfl ht, hcode.2⟩
    · cases hrest with
      | nil => exact nameExpr_agrees hfinal ht .nil
      | cons hopened hafter =>
        dsimp only
        rw [K.kind hopened]
        refine .ite (fun _ => ?_) fun _ => nameExpr_agrees hfinal ht (.cons hopened hafter)
        refine (Agrees.ofExcept (closing_agrees hopened hafter)).bind fun parts parts' hparts => ?_
        exact (callExpr_agrees hsub ht hparts.1).bind fun n m hn => .pure ⟨hn, hparts.2⟩
    · exact .failAt ht

theorem postfixes_agrees (hsub : AgreedSub K files sub sub') (hn : K.Nodes files n m)
    {toks toks' : List Token} (h : K.Tokens files toks toks') :
    Agrees K files (postfixes sub n toks) (postfixes sub' m toks') (AlikeBefore K files) := by
  cases h with
  | nil =>
    rw [postfixes, postfixes]
    exact .pure ⟨hn, .nil⟩
  | @cons t u toks toks' ht hrest =>
    have bars := Comparison.Tokens.untilBar hrest 0
    rw [postfixes, postfixes.eq_def sub']
    dsimp only
    rw [K.kind ht]
    refine .ite (fun _ => ?_) fun _ => .ite (fun _ => ?_) fun _ => .pure ⟨hn, .cons ht hrest⟩
    · exact (deref_agrees (K.marks files) ht hn).bind fun a b hab => postfixes_agrees hsub hab hrest
    · generalize found : Token.untilBar 0 toks = p at bars ⊢
      generalize Token.untilBar 0 toks' = q at bars ⊢
      cases bars with
      | none => exact .failAt ht
      | some parts =>
        have shorter := Token.untilBar_length found
        refine (hsub _ parts.1).bind fun i j hi => ?_
        exact (index_agrees (K.marks files) ht hn hi).bind fun a b hab => postfixes_agrees hsub hab parts.2
termination_by toks.length

theorem postfixed_agrees (hsub : AgreedSub K files sub sub') (hfinal : K.token files final final')
    (want : Ty) (h : K.Tokens files toks toks') :
    Agrees K files (postfixed sub final want toks) (postfixed sub' final' want toks') (AlikeBefore K files) := by
  unfold postfixed
  exact (primary_agrees hsub hfinal want h).bind fun p q same => postfixes_agrees hsub same.1 same.2

theorem unary_agrees (hsub : AgreedSub K files sub sub') (hfinal : K.token files final final')
    (want : Ty) (h : K.Tokens files toks toks') :
    Agrees K files (unary sub final want toks) (unary sub' final' want toks') (AlikeBefore K files) := by
  cases h with
  | nil => exact postfixed_agrees hsub hfinal want .nil
  | cons ht hrest =>
    rw [unary, unary, K.kind ht]
    refine .ite (fun _ => ?_) fun _ => .ite (fun _ => ?_) fun _ => ?_
    · refine (postfixed_agrees hsub hfinal .absent hrest).bind fun p q same => ?_
      dsimp only
      rw [same.1.alike.isPlace_eq, same.1.alike.text_eq]
      refine .ite (fun _ => .failAt ht) fun _ => .pure ⟨?_, same.2⟩
      unfold Node.addressOf
      rw [same.1.alike.ty_eq]
      exact .node (.address (p.1, q.1)) ht (forall_mem_singleton.mpr same.1.alike)
    · exact .read fun v w hv => typeLit_agrees ht hv hfinal (.cons ht hrest)
    · exact postfixed_agrees hsub hfinal want (.cons ht hrest)

theorem step_agrees (hsub : AgreedSub K files sub sub') (want : Ty) (h : K.Tokens files toks toks') :
    Agrees K files (step sub toks want) (step sub' toks' want) (K.Nodes files) := by
  unfold step
  refine .read fun v w hv => ?_
  cases h with
  | nil => exact .fail hv.last
  | cons ht hrest =>
    dsimp only
    rw [getLastD_cons, getLastD_cons]
    refine (unary_agrees hsub (Comparison.Tokens.getLastD hrest ht) want (.cons ht hrest)).bind fun p q same => ?_
    rw [same.1.alike.text_eq]
    exact (Agrees.ofExcept (nothingMore_agrees _ same.2)).bind fun _ _ _ => .pure same.1

theorem expression_agrees (want : Ty) {toks toks' : List Token} (h : K.Tokens files toks toks') :
    Agrees K files (expression toks want) (expression toks' want) (K.Nodes files) := by
  rw [expression, expression.eq_def toks']
  refine step_agrees (fun want' hinner => ?_) want h
  rw [hinner.totalWeight_eq, h.totalWeight_eq]
  split
  · exact expression_agrees want' hinner
  · exact .fault _
termination_by Token.totalWeight toks

end Infer

namespace Condition

inductive Piece.Alike (K : Comparison) (files : List SourceFile) : Piece → Piece → Prop
  | operand {toks toks' : List Token} (h : K.Tokens files toks toks') :
      Alike K files (.operand toks) (.operand toks')
  | operator {t u : Token} (h : K.token files t u) : Alike K files (.operator t) (.operator u)
  | unmatched {t u : Token} (h : K.token files t u) (sign : String) :
      Alike K files (.unmatched t sign) (.unmatched u sign)

theorem operandOf_agrees (h : K.Tokens files toks toks') :
    List.Forall₂ (Piece.Alike K files) (operandOf toks) (operandOf toks') := by
  unfold operandOf
  rw [h.isEmpty_eq]
  split
  · exact .nil
  · exact .cons (.operand h) .nil

theorem pieces_agrees (hpending : K.Tokens files pending pending')
    {toks toks' : List Token} (h : K.Tokens files toks toks') :
    List.Forall₂ (Piece.Alike K files) (pieces pending toks) (pieces pending' toks') := by
  cases h with
  | nil =>
    rw [pieces, pieces]
    exact operandOf_agrees hpending
  | @cons t u toks toks' ht hrest =>
    have operator : List.Forall₂ (Piece.Alike K files) (operandOf pending ++ .operator t :: pieces [] toks)
        (operandOf pending' ++ .operator u :: pieces [] toks') :=
      rel_append (operandOf_agrees hpending) (.cons (.operator ht) (pieces_agrees .nil hrest))
    have sameOperator : isOperator u = isOperator t := by
      unfold isOperator
      rw [K.kind ht]
    have sameLast : pending'.getLast?.map (·.kind) = pending.getLast?.map (·.kind) := by
      have last := getLast?_rel hpending
      generalize pending.getLast? = a at last ⊢
      generalize pending'.getLast? = b at last ⊢
      cases last with
      | none => rfl
      | some h => exact congrArg some (K.kind h)
    rw [pieces, pieces.eq_def pending']
    dsimp only
    rw [sameOperator, K.kind ht, sameLast]
    split
    · exact operator
    · split
      · split
        · have closed := Comparison.Tokens.untilClose hrest 0
          generalize found : Token.untilClose 0 toks = p at closed ⊢
          generalize Token.untilClose 0 toks' = q at closed ⊢
          cases closed with
          | none => exact .cons (.unmatched ht _) .nil
          | some parts =>
            have shorter := Token.untilClose_length found
            dsimp only
            rw [← List.Forall₂.length_eq parts.1]
            exact pieces_agrees (hpending.append (.cons ht (Comparison.Tokens.take hrest _))) parts.2
        · exact operator
      · split
        · have hinner := Comparison.Tokens.takeWhile hrest (· != .pipe)
          have hdrop := Comparison.Tokens.drop hrest (toks.takeWhile (·.kind != .pipe)).length
          rw [← hinner.length_eq]
          generalize found : toks.drop (toks.takeWhile (·.kind != .pipe)).length = p at hdrop ⊢
          generalize toks'.drop (toks.takeWhile (·.kind != .pipe)).length = q at hdrop ⊢
          cases hdrop with
          | nil => exact .cons (.unmatched ht _) .nil
          | @cons _ _ after _ hbar hafter =>
            have shorter : after.length < toks.length := by
              have lengths := congrArg List.length found
              simp only [length_drop, length_cons] at lengths
              omega
            exact pieces_agrees ((hpending.append (.cons ht hinner)).append (.single hbar)) hafter
        · exact pieces_agrees (hpending.append (.single ht)) hrest
termination_by toks.length

theorem dangling?_agrees (h : K.NodeLists files ns ms) :
    Option.Rel (K.token files) (dangling? ns) (dangling? ms) := by
  have last := getLast?_rel h
  unfold dangling?
  generalize ns.getLast? = a at last ⊢
  generalize ms.getLast? = b at last ⊢
  cases last with
  | none => exact .none
  | some hn =>
    obtain ⟨alike, present⟩ := hn
    cases alike with
    | absent => cases present
    | node ty form ht _ =>
      cases form with
      | operator kind =>
        show Option.Rel _ (if kind = .rparen then none else some _) (if kind = .rparen then none else some _)
        split
        · exact .none
        · exact .some ht
      | _ => exact .none

end Condition

namespace Infer

theorem conditionNodes_agrees (h : List.Forall₂ (Condition.Piece.Alike K files) ps qs) :
    Agrees K files (conditionNodes ps) (conditionNodes qs) (K.NodeLists files) := by
  induction h with
  | nil => exact .pure .nil
  | cons piece _ ih =>
    have goesOn : ∀ {x y : Infer Node}, Agrees K files x y (K.Nodes files) →
        Agrees K files (x >>= fun n => conditionNodes _ >>= fun ns => pure (n :: ns))
          (y >>= fun n => conditionNodes _ >>= fun ns => pure (n :: ns)) (K.NodeLists files) :=
      fun hx => hx.bind fun n m hn => ih.bind fun ns ms hns => .pure (.cons hn hns)
    cases piece with
    | operand htoks => exact goesOn (expression_agrees .absent htoks)
    | operator ht =>
      rw [conditionNodes, conditionNodes]
      dsimp only
      rw [K.kind ht]
      exact goesOn (.pure (.leaf rfl ht))
    | unmatched ht sign => exact goesOn (.failAt ht)

theorem condition_agrees (ht : K.token files t u) (h : K.Tokens files toks toks') :
    Agrees K files (condition t toks) (condition u toks') (K.NodeLists files) := by
  unfold condition
  rw [h.isEmpty_eq]
  refine .ite (fun _ => .failAt ht) fun _ => ?_
  refine (conditionNodes_agrees (Condition.pieces_agrees .nil h)).bind fun ns ms hns => ?_
  have dangling := Condition.dangling?_agrees hns
  generalize Condition.dangling? ns = a at dangling ⊢
  generalize Condition.dangling? ms = b at dangling ⊢
  cases dangling with
  | none => exact .pure hns
  | some hlast =>
    dsimp only
    rw [K.text hlast]
    exact .failAt hlast

end Infer

end Impulse
