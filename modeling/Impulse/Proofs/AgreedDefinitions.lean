import Impulse.Proofs.AgreedExpressions

/-!
# Declarations and definitions that are read twice

Declarations, and the headers and fields of definitions, lead corresponding states to corresponding states. Contexts and
scopes hold no tokens, so they stay equal; the program, the open blocks and the record that is open differ in
corresponding tokens only.
-/

namespace Impulse.Parse

open List

variable {K : Comparison} (const : Bool)

theorem expression_agrees (want : Ty) (h : K.Tokens files toks toks') :
    AgreesHere K files (expression toks want) (expression toks' want) (K.Nodes files) :=
  .infer (Infer.expression_agrees want h)

theorem typeOf_agrees (header : Bool) (h : K.Tokens files toks toks') :
    AgreesHere K files (typeOf header toks) (typeOf header toks') (· = ·) :=
  .get fun _ _ hs => .read (.ofExcept (TypeExpr.ofTokens_agrees hs.view h))

theorem finalOf_agrees (h : K.Tokens files toks toks') :
    AgreesHere K files (finalOf toks) (finalOf toks') (K.place files) :=
  .get fun _ _ hs => .done (h.getLastD_place hs.last)

theorem expect_agrees (h : K.Tokens files toks toks') (hfinal : K.place files final final')
    (kind : Token.Kind) (p : Problem) :
    AgreesHere K files (expect final kind p toks) (expect final' kind p toks') (Infer.AlikeFirst K files) :=
  .ofExcept (Infer.expect_agrees h hfinal kind p)

theorem closing_agrees (ht : K.token files t u) (h : K.Tokens files toks toks') :
    AgreesHere K files (closing t toks) (closing u toks') (Comparison.Tokens.Pair K files) :=
  .ofExcept (Infer.closing_agrees ht h)

theorem nothingMore_agrees (region : Region) (h : K.Tokens files toks toks') :
    AgreesHere K files (nothingMore region toks) (nothingMore region toks') (· = ·) :=
  .ofExcept (Infer.nothingMore_agrees region h)

theorem newName_agrees (ht : K.token files t u) : AgreesHere K files (newName t) (newName u) (· = ·) := by
  unfold newName
  rw [K.kind ht, K.value ht, K.text ht]
  exact .ite (fun _ => .failAt ht) fun _ =>
    .ite (fun _ => .failAt ht) fun _ => .done rfl

theorem emitShown_agrees (hn : n.Alike (K.shown files) m) : AgreesHere K files (emit n) (emit m) (· = ·) := by
  refine .change fun s s' hs => ?_
  have recording := hs.deferral.recording
  dsimp only
  generalize left : s.deferral.recording = r at recording ⊢
  generalize right : s'.deferral.recording = r' at recording ⊢
  cases recording with
  | none =>
    refine ⟨{ hs with program := rel_append hs.program (.cons ?_ .nil) }, rfl, rfl⟩
    rw [hs.file]
    exact .of hn s.file
  | some group =>
    refine ⟨{ hs with deferral := ⟨.some ?_, hs.deferral.groups⟩ }, rfl, rfl⟩
    exact rel_append group (.cons hn .nil)

theorem emit_agrees (hn : n.Alike (K.token files) m) : AgreesHere K files (emit n) (emit m) (· = ·) :=
  emitShown_agrees (hn.imp fun _ _ => K.toShown)

theorem emitLeaf_agrees (none : form.children = []) (ht : K.token files t u) :
    AgreesHere K files (emit (.node t ty form)) (emit (.node u ty form)) (· = ·) :=
  emit_agrees (Node.Twins.leaf none ht).alike

theorem emitAll_agrees (h : Node.AlikeAll (K.shown files) ns ms) :
    AgreesHere K files (emitAll ns) (emitAll ms) (· = ·) := by
  induction h with
  | nil => exact .done rfl
  | cons hn _ ih => exact (emitShown_agrees hn).same fun _ => ih

theorem openBlock_agrees (ht : K.token files t u) :
    AgreesHere K files (openBlock ⟨kind, t, framed, value⟩) (openBlock ⟨kind, u, framed, value⟩) (· = ·) := by
  refine .change fun s s' hs => ?_
  refine ⟨{ hs with scope := ?_, blocks := .cons ⟨rfl, ht, rfl, rfl⟩ hs.blocks }, rfl, rfl⟩
  dsimp only
  rw [hs.scope]

theorem setScope_agrees (scope : Scope) :
    AgreesHere K files (modify fun s => { s with scope := scope }) (modify fun s => { s with scope := scope })
      (· = ·) :=
  .change fun _ _ hs => ⟨{ hs with scope := rfl }, rfl, rfl⟩

theorem popFrame_agrees : AgreesHere K files popFrame popFrame (· = ·) := by
  refine .get fun s s' hs => ?_
  rw [hs.scope]
  split
  · exact .fault _
  · exact setScope_agrees _

theorem requireFunction_agrees (ht : K.token files t u) :
    AgreesHere K files (requireFunction t) (requireFunction u) (· = ·) := by
  refine .get fun s s' hs => ?_
  rw [hs.function, K.text ht]
  refine .ite (fun _ => .done rfl) fun _ => ?_
  have record := hs.record
  generalize s.record = r at record ⊢
  generalize s'.record = r' at record ⊢
  cases record with
  | none => exact .failAt ht
  | some same =>
    cases same with
    | struct | enum => exact .failAt ht

def AgreedHeader (K : Comparison) (files : List SourceFile) (header : Token → Token → List Token → Parse Unit) : Prop :=
  ∀ {brace brace' t u toks toks'}, K.token files brace brace' → K.token files t u → K.Tokens files toks toks' →
    AgreesHere K files (header brace t toks) (header brace' u toks') (· = ·)

section

variable (ht : K.token files t u) (x : Variable)
include ht

theorem declareFieldsOf_agrees (c : Context) (scope : Scope) (x : Variable) :
    AgreesHere K files (declareFieldsOf t c scope x) (declareFieldsOf u c scope x) (· = ·) := by
  unfold declareFieldsOf
  split
  · exact .done rfl
  · refine .ite (fun _ => .done rfl) fun _ => ?_
    split
    · exact .done rfl
    · exact .failAt ht

theorem declareGlobal_agrees : AgreesHere K files (declareGlobal t x) (declareGlobal u x) (· = ·) := by
  refine .get fun s s' hs => ?_
  rw [hs.context]
  split
  · exact .failAt ht
  · refine (declareFieldsOf_agrees ht _ _ x).same fun scope => ?_
    refine .change fun s s' hs => ⟨{ hs with context := ?_ }, rfl, rfl⟩
    dsimp only
    rw [hs.context, hs.file]

theorem declareLocal_agrees : AgreesHere K files (declareLocal t x) (declareLocal u x) (· = ·) := by
  refine .get fun s s' hs => ?_
  rw [hs.context, hs.scope]
  split
  · exact .failAt ht
  · next hides scope _ =>
    have goesOn : AgreesHere K files
        (declareFieldsOf t s.context scope x >>= fun scope => modify fun s => { s with scope := scope })
        (declareFieldsOf u s.context scope x >>= fun scope => modify fun s => { s with scope := scope })
        (· = ·) := by
      refine (declareFieldsOf_agrees ht _ _ x).same fun scope => ?_
      exact setScope_agrees scope
    exact .ite (fun _ => (Agrees.warn ht rfl).same fun _ => goesOn) fun _ => goesOn

theorem declare_agrees : AgreesHere K files (declare t x) (declare u x) (· = ·) := by
  refine .get fun s s' hs => ?_
  rw [hs.context, hs.scope, hs.function, hs.depth_eq]
  have undefined : AgreesHere K files
      (if (s.function.isNone && decide (s.depth = 0)) = true then declareGlobal t x else declareLocal t x)
      (if (s.function.isNone && decide (s.depth = 0)) = true then declareGlobal u x else declareLocal u x)
      (· = ·) :=
    .ite (fun _ => declareGlobal_agrees ht x) fun _ => declareLocal_agrees ht x
  cases s.context.resolve? s.scope x.name with
  | some y =>
    refine .ite (fun _ => .fail_bind ht) fun _ => ?_
    cases s.context.definedIn? x.name with
    | some origin => exact .failAt ht
    | none => exact undefined
  | none =>
    cases s.context.definedIn? x.name with
    | some origin => exact .failAt ht
    | none => exact undefined

theorem inferLength_agrees (ty : Ty) (hn : n.Alike (K.token files) m) :
    AgreesHere K files (inferLength t ty n) (inferLength u ty m) (· = ·) := by
  have other : AgreesHere K files (pure ty) (pure ty) (· = ·) := .done rfl
  cases ty with
  | array elem length =>
    cases hn with
    | absent => exact other
    | node _ form =>
      cases form with
      | list elems =>
        unfold inferLength
        dsimp only [Form.map]
        rw [length_map, length_map]
        refine .ite (fun _ => .done rfl) fun _ => ?_
        cases Text.size? length with
        | none => exact other
        | some size => exact .ite (fun _ => .failAt ht) fun _ => other
      | _ => exact other
  | _ => exact other

end

theorem constantText_eq (hn : n.Alike R m) (const : Bool) :
    constantText const m = constantText const n := by
  cases const with
  | false => rfl
  | true =>
    cases hn with
    | absent => rfl
    | node _ form _ children =>
      cases form with
      | number text expr =>
        obtain ⟨a, b⟩ := expr
        have inner : a.Alike R b := children (a, b) (.head _)
        cases inner <;> rfl
      | _ => rfl

def AlikeValue (K : Comparison) (files : List SourceFile) (p q : Ty × Node) : Prop :=
  q.1 = p.1 ∧ p.2.Alike (K.token files) q.2

theorem initialValue_agrees (ht : K.token files t u) (name : String) (ty : Ty) (h : K.Tokens files toks toks') :
    AgreesHere K files (initialValue t name ty toks) (initialValue u name ty toks') (AlikeValue K files) := by
  unfold initialValue
  refine (expression_agrees ty h).bind fun value value' hvalue => ?_
  refine (inferLength_agrees ht ty hvalue.alike).same fun ty => ?_
  simp only [hvalue.alike.accepts_eq, hvalue.alike.text_eq, hvalue.alike.ty_eq]
  exact .check (h.headD ht) _ (.done ⟨rfl, hvalue.alike⟩)

def AlikeParts (K : Comparison) (files : List SourceFile) (p q : List Token × Option (List Token)) : Prop :=
  K.Tokens files p.1 q.1 ∧ Option.Rel (K.Tokens files) p.2 q.2

theorem declarationParts_agrees (ht : K.token files t u) (h : K.Tokens files toks toks') :
    AgreesHere K files (declarationParts t const toks) (declarationParts u const toks') (AlikeParts K files) := by
  have cut := h.cutTop? .equals
  unfold declarationParts
  rw [K.value ht]
  generalize Token.cutTop? .equals toks = p at cut ⊢
  generalize Token.cutTop? .equals toks' = q at cut ⊢
  cases cut with
  | none => exact .ite (fun _ => .failAt ht) fun _ => .done ⟨h, .none⟩
  | @some a b parts =>
    obtain ⟨before, eq, behind⟩ := a
    obtain ⟨before', eq', behind'⟩ := b
    obtain ⟨hbefore, heq, hbehind⟩ := parts
    cases hbehind with
    | nil => exact .failAt heq
    | cons hfirst hrest => exact .done ⟨hbefore, .some (.cons hfirst hrest)⟩

theorem variableDeclaration_agrees (ht : K.token files t u)
    (hsign : K.token files final final') (h : K.Tokens files toks toks') :
    AgreesHere K files (variableDeclaration const t final toks) (variableDeclaration const u final' toks')
      (· = ·) := by
  unfold variableDeclaration
  refine (newName_agrees ht).same fun name => ?_
  refine .guard ht ?_
  refine (declarationParts_agrees const ht h).bind ?_
  rintro ⟨typeToks, valueToks⟩ ⟨typeToks', valueToks'⟩ ⟨htype, hvalue⟩
  dsimp only at htype hvalue ⊢
  rw [htype.isEmpty_eq]
  refine .guard hsign ?_
  refine (typeOf_agrees false htype).same fun ty => ?_
  refine .guard ht ?_
  have goesOn : ∀ p q, AlikeValue K files p q → AgreesHere K files
      (get >>= fun s => declare t { name := name, ty := p.1, const := const, value := constantText const p.2 }
        >>= fun _ => emit (.declaration t name p.1 p.2 const s.function.isNone false))
      (get >>= fun s => declare u { name := name, ty := q.1, const := const, value := constantText const q.2 }
        >>= fun _ => emit (.declaration u name q.1 q.2 const s.function.isNone false)) (· = ·) := by
    rintro ⟨ty, value⟩ ⟨ty', value'⟩ ⟨same, halike⟩
    obtain rfl : ty' = ty := same
    refine .get fun s s' hs => ?_
    rw [hs.function, constantText_eq halike]
    refine (declare_agrees ht _).same fun _ => emit_agrees ?_
    exact .node ty' (.declare name ty' (value, value') const _ false) ht (forall_mem_singleton.mpr halike)
  cases hvalue with
  | none => exact goesOn _ _ ⟨rfl, .absent⟩
  | some htoks => exact (initialValue_agrees ht name ty htoks).bind goesOn

theorem finishFields_agrees (h : Record.Alike (K.token files) (.struct d) (.struct e)) :
    AgreesHere K files (finishFields d) (finishFields e) (· = ·) := by
  cases h with
  | struct name generics fields fieldsOpen ht =>
    refine AgreesHere.bind (.change fun s s' hs => ⟨{ hs with record := ?_, context := ?_ }, rfl, rfl⟩)
      fun _ _ _ => ?_
    · dsimp only
      rw [hs.context, hs.file]
    · exact .some (.struct name generics fields false ht)
    · exact (emitLeaf_agrees rfl ht).same fun _ =>
        emitLeaf_agrees rfl ht

def AlikeAttributes (K : Comparison) (files : List SourceFile) (p q : Bool × Bool × List Token) : Prop :=
  q.1 = p.1 ∧ q.2.1 = p.2.1 ∧ K.Tokens files p.2.2 q.2.2

theorem attributes_agrees (hfinal : K.place files final final') (inlined shared : Bool)
    {toks toks' : List Token} (h : K.Tokens files toks toks') :
    AgreesHere K files (attributes final inlined shared toks) (attributes final' inlined shared toks')
      (AlikeAttributes K files) := by
  cases h with
  | nil => exact .done ⟨rfl, rfl, .nil⟩
  | cons ht hrest =>
    cases hrest with
    | nil =>
      rw [attributes, attributes, K.kind ht]
      exact .ite (fun _ => .fail hfinal) fun _ => .done ⟨rfl, rfl, .cons ht .nil⟩
    | cons hname hrest =>
      rw [attributes, attributes, K.kind ht, K.kind hname, K.value hname]
      refine .ite (fun _ => .done ⟨rfl, rfl, .cons ht (.cons hname hrest)⟩) fun _ => ?_
      refine .ite (fun _ => .failAt hname) fun _ => ?_
      split
      · exact .failAt hname
      · exact attributes_agrees hfinal true shared hrest
      · exact attributes_agrees hfinal inlined true hrest
      · exact .failAt hname
termination_by toks.length

theorem typeParameter_agrees (hfinal : K.place files final final') (h : K.Tokens files toks toks') :
    AgreesHere K files (typeParameter final toks) (typeParameter final' toks') (· = ·) := by
  unfold typeParameter
  refine (expect_agrees h hfinal _ _).bind fun p q hname => ?_
  refine (expect_agrees hname.2 hfinal _ _).bind fun p q hcolon => ?_
  refine (expect_agrees hcolon.2 hfinal _ _).bind fun p q hkind => ?_
  dsimp only
  rw [K.value hkind.1, hkind.2.isEmpty_eq, K.value hname.1]
  exact .ite (fun _ => .failAt hkind.1) fun _ => .done rfl

theorem valueParameter_agrees (hfinal : K.place files final final') (h : K.Tokens files toks toks') :
    AgreesHere K files (valueParameter final toks) (valueParameter final' toks') (· = ·) := by
  unfold valueParameter
  refine (expect_agrees h hfinal _ _).bind fun p q ht => ?_
  refine (newName_agrees ht.1).same fun name => ?_
  refine (expect_agrees ht.2 hfinal _ _).bind fun p q hcolon => ?_
  refine (typeOf_agrees true hcolon.2).same fun ty => ?_
  exact .ite (fun _ => .failAt ht.1) fun _ => .done rfl

theorem parameter_agrees (ht : K.token files t u) (h : K.Tokens files toks toks') :
    AgreesHere K files (parameter t toks) (parameter u toks') (· = ·) := by
  cases h with
  | nil => exact .failAt ht
  | cons hfirst hrest =>
    have hfinal := K.atToken (Comparison.Tokens.getLastD (.cons hfirst hrest) hfirst)
    rw [parameter, parameter, K.kind hfirst]
    exact .ite (fun _ => typeParameter_agrees hfinal hrest) fun _ =>
      valueParameter_agrees hfinal (.cons hfirst hrest)

abbrev AlikeParameters (K : Comparison) (files : List SourceFile) :
    List (Token × Param) → List (Token × Param) → Prop :=
  List.Forall₂ fun p q => K.token files p.1 q.1 ∧ q.2 = p.2

theorem parameters_agrees (ht : K.token files t u) (taken : List String)
    (h : K.Parts files parts parts') :
    AgreesHere K files (parameters t taken parts) (parameters u taken parts') (AlikeParameters K files) := by
  induction h generalizing taken with
  | nil => exact .done .nil
  | cons htoks _ ih =>
    rw [parameters, parameters]
    refine (parameter_agrees ht htoks).bind fun p q same => ?_
    obtain rfl : p = q := same
    have hfirst := Comparison.Tokens.headD htoks ht
    refine .ite (fun _ => .failAt hfirst) fun _ => ?_
    exact (ih _).bind fun ps qs hps => .done (.cons ⟨hfirst, rfl⟩ hps)

theorem AlikeParameters.map_snd (h : AlikeParameters K files ps qs) :
    qs.map (·.2) = ps.map (·.2) := by
  induction h with
  | nil => rfl
  | cons same _ ih => rw [map_cons, map_cons, same.2, ih]

abbrev AlikeStruct (K : Comparison) (files : List SourceFile) (d e : Option StructDraft) : Prop :=
  Option.Rel (fun d e => Record.Alike (K.token files) (.struct d) (.struct e)) d e

namespace AlikeStruct

theorem map_eq (h : AlikeStruct K files d e) (f : String → List String → α) :
    (e.map fun e => f e.name e.generics) = d.map fun d => f d.name d.generics := by
  cases h with
  | none => rfl
  | some same =>
    cases same
    rfl

theorem self (h : AlikeStruct K files d e) (ht : K.token files t u) :
    AlikeParameters K files (d.map fun d => (t, selfParameter d)).toList
      (e.map fun e => (u, selfParameter e)).toList := by
  cases h with
  | none => exact .nil
  | some same =>
    cases same
    exact .cons ⟨ht, rfl⟩ .nil

end AlikeStruct

theorem methodOf?_agrees (ht : K.token files t u) :
    AgreesHere K files (methodOf? t) (methodOf? u) (AlikeStruct K files) := by
  refine .get fun s s' hs => ?_
  have record := hs.record
  rw [hs.depth_eq]
  generalize s.record = r at record ⊢
  generalize s'.record = r' at record ⊢
  cases record with
  | none => exact .ite (fun _ => .failAt ht) fun _ => .done .none
  | some same =>
    cases same with
    | enum => exact .failAt ht
    | struct name generics fields fieldsOpen hd =>
      have draft := Record.Alike.struct name generics fields fieldsOpen hd
      exact .ite (fun _ => (finishFields_agrees draft).same fun _ => .done (.some draft)) fun _ =>
        .done (.some draft)

theorem resultType_agrees (h : K.Tokens files toks toks') :
    AgreesHere K files (resultType toks) (resultType toks') (fun p q => q.1 = p.1 ∧ K.Tokens files p.2 q.2) := by
  cases h with
  | nil => exact .done ⟨rfl, .nil⟩
  | cons ht hrest =>
    rw [resultType, resultType, K.kind ht, K.text ht]
    refine .ite (fun _ => ?_) fun _ => .failAt ht
    exact (typeOf_agrees true hrest).bind fun ty ty' same => .done ⟨same.symm, hrest⟩

theorem register_agrees (sig : Signature) : AgreesHere K files (register sig) (register sig) (· = ·) := by
  refine .change fun s s' hs => ⟨{ hs with context := ?_ }, rfl, rfl⟩
  dsimp only
  rw [hs.context, hs.file]

theorem declareParameters_agrees (h : AlikeParameters K files ps qs) :
    AgreesHere K files (declareParameters ps) (declareParameters qs) (· = ·) := by
  induction h with
  | nil => exact .done rfl
  | @cons p q _ _ same _ ih =>
    obtain ⟨t, p⟩ := p
    obtain ⟨u, q⟩ := q
    obtain ⟨ht, rfl⟩ : K.token files t u ∧ q = p := same
    rw [declareParameters, declareParameters]
    exact (declare_agrees ht _).same fun _ => ih

theorem openFunction_agrees (name : String) (ret : Ty) (placeholders : List String) :
    AgreesHere K files
      (modify fun s =>
        let info : FunctionInfo :=
          { name := name, ret := ret, placeholders := placeholders, depth := s.depth }
        { s with function := some info })
      (modify fun s =>
        let info : FunctionInfo :=
          { name := name, ret := ret, placeholders := placeholders, depth := s.depth }
        { s with function := some info }) (· = ·) := by
  refine .change fun s s' hs => ⟨{ hs with function := ?_ }, rfl, rfl⟩
  dsimp only
  rw [hs.depth_eq]

theorem functionDefinition_agrees (hbrace : K.token files t u) (h : K.Tokens files toks toks') :
    AgreesHere K files (functionDefinition t toks) (functionDefinition u toks') (· = ·) := by
  unfold functionDefinition
  refine (finalOf_agrees h).bind fun final final' hfinal => ?_
  refine (attributes_agrees hfinal false false h).bind ?_
  rintro ⟨inlined, shared, toks⟩ ⟨inlined', shared', toks'⟩ ⟨same, same', h⟩
  obtain rfl : inlined' = inlined := same
  obtain rfl : shared' = shared := same'
  refine (expect_agrees h hfinal _ _).bind fun p q ht => ?_
  refine (newName_agrees ht.1).same fun own => ?_
  refine (expect_agrees ht.2 hfinal _ _).bind fun _ _ hsign => ?_
  refine (expect_agrees hsign.2 hfinal _ _).bind fun opened opened' hopened => ?_
  refine (closing_agrees hopened.1 hopened.2).bind fun parts parts' hparts => ?_
  refine .get fun s s' hs => ?_
  rw [hs.function]
  refine .guard ht.1 <| .guard ht.1 ?_
  refine (methodOf?_agrees ht.1).bind fun struct struct' hstruct => ?_
  have sameMethod := hstruct.map_eq fun name _ => name
  have sameName := hstruct.map_eq fun name _ => name ++ "." ++ own
  have sameGenerics := hstruct.map_eq fun _ generics => generics
  have hself := hstruct.self ht.1
  dsimp only at sameMethod sameName sameGenerics ⊢
  rw [sameMethod, sameName, sameGenerics]
  generalize (struct.map fun d => (p.1, selfParameter d)).toList = self at hself ⊢
  generalize (struct'.map fun d => (q.1, selfParameter d)).toList = self' at hself ⊢
  generalize (struct.map fun d => d.name ++ "." ++ own).getD own = name
  have names : self'.map (·.2.name) = self.map (·.2.name) := by
    have same := congrArg (List.map (·.name)) hself.map_snd
    rwa [map_map, map_map] at same
  rw [names]
  refine (parameters_agrees hopened.1 _ (hparts.1.splitTop .comma)).bind fun written written' hwritten => ?_
  refine (resultType_agrees hparts.2).bind ?_
  rintro ⟨ret, retToks⟩ ⟨ret', retToks'⟩ ⟨same, hret⟩
  obtain rfl : ret' = ret := same
  have hparams : AlikeParameters K files (self ++ written) (self' ++ written') := rel_append hself hwritten
  dsimp only at hret ⊢
  generalize self ++ written = params at hparams ⊢
  generalize self' ++ written' = params' at hparams ⊢
  have generic : (params'.any fun p => p.2.ty.hasPlaceholder) = params.any fun p => p.2.ty.hasPlaceholder := by
    have same := congrArg (List.any · fun p => p.ty.hasPlaceholder) hparams.map_snd
    rwa [any_map, any_map] at same
  refine .get fun s s' hs => ?_
  rw [hs.context, hparams.map_snd, generic, hparts.1.placeholderNames_eq, hret.placeholderNames_eq]
  split
  · exact .failAt ht.1
  · refine (register_agrees _).same fun _ => ?_
    refine (emitLeaf_agrees rfl ht.1).same fun _ => ?_
    refine (openBlock_agrees hbrace).same fun _ => ?_
    exact (openFunction_agrees name ret' _).same fun _ => declareParameters_agrees hparams

theorem structPlaceholders_agrees (hfinal : K.place files final final') {toks toks' : List Token}
    (h : K.Tokens files toks toks') :
    AgreesHere K files (structPlaceholders final toks) (structPlaceholders final' toks') (· = ·) := by
  cases h with
  | nil => exact .done rfl
  | cons ht hrest =>
    cases hrest with
    | nil =>
      rw [structPlaceholders, structPlaceholders, structPlaceholders, structPlaceholders, K.kind ht]
      refine .ite (fun _ => .done rfl) fun _ => ?_
      exact .ite (fun _ => .failAt ht) fun _ => .fail hfinal
    | cons hname hrest =>
      rw [structPlaceholders, structPlaceholders, K.kind ht, K.kind hname, K.value hname]
      refine .ite (fun _ => structPlaceholders_agrees hfinal (.cons hname hrest)) fun _ => ?_
      refine .ite (fun _ => .failAt ht) fun _ => ?_
      refine .ite (fun _ => .failAt hname) fun _ => ?_
      exact (structPlaceholders_agrees hfinal hrest).bind fun names names' same => .done (congrArg _ same)
termination_by toks.length

theorem structGenerics_agrees (h : K.Tokens files toks toks') :
    AgreesHere K files (structGenerics toks) (structGenerics toks') (· = ·) := by
  cases h with
  | nil => exact .done rfl
  | cons ht hrest =>
    rw [structGenerics, structGenerics, K.kind ht, K.text ht]
    refine .ite (fun _ => .failAt ht) fun _ => ?_
    refine (closing_agrees ht hrest).bind fun parts parts' hparts => ?_
    refine (finalOf_agrees hparts.1).bind fun final final' hfinal => ?_
    refine (structPlaceholders_agrees hfinal hparts.1).same fun names => ?_
    refine .guard ht ?_
    exact (nothingMore_agrees .structHeader hparts.2).same fun _ => .done rfl

theorem requireFresh_agrees (ht : K.token files t u) (name : String) :
    AgreesHere K files (requireFresh t name) (requireFresh u name) (· = ·) := by
  refine .get fun s s' hs => ?_
  rw [hs.context]
  split
  · exact .failAt ht
  · exact .done rfl

theorem setRecord_agrees (h : r.Alike (K.token files) r') :
    AgreesHere K files (modify fun s => { s with record := some r }) (modify fun s => { s with record := some r' })
      (· = ·) :=
  .change fun _ _ hs => ⟨{ hs with record := .some h }, rfl, rfl⟩

theorem structDefinition_agrees : AgreedHeader K files structDefinition := by
  intro brace brace' t u toks toks' hbrace ht h
  unfold structDefinition
  refine (newName_agrees ht).same fun name => ?_
  refine .get fun s s' hs => ?_
  have record : s'.record.isSome = s.record.isSome := Record.Alike.isSome_eq hs.record
  rw [hs.function, record]
  refine .guard ht <| .guard ht <| .guard ht ?_
  refine (requireFresh_agrees ht name).same fun _ => ?_
  refine (structGenerics_agrees h).same fun generics => ?_
  refine (setRecord_agrees (.struct name generics [] true ht)).same fun _ => ?_
  refine (emitLeaf_agrees rfl ht).same fun _ => ?_
  exact openBlock_agrees hbrace

theorem enumDefinition_agrees : AgreedHeader K files enumDefinition := by
  intro brace brace' t u toks toks' hbrace ht h
  unfold enumDefinition
  refine (newName_agrees ht).same fun name => ?_
  refine .get fun s s' hs => ?_
  have record : s'.record.isSome = s.record.isSome := Record.Alike.isSome_eq hs.record
  rw [hs.function, record]
  refine .guard ht <| .guard ht <| .guard ht ?_
  refine (nothingMore_agrees .enumHeader h).same fun _ => ?_
  refine (requireFresh_agrees ht name).same fun _ => ?_
  refine (setRecord_agrees (.enum name [] ht)).same fun _ => ?_
  refine (emitLeaf_agrees rfl ht).same fun _ => ?_
  exact openBlock_agrees hbrace

theorem finishEnum_agrees (h : Record.Alike (K.token files) (.enum d) (.enum e)) :
    AgreesHere K files (finishEnum d) (finishEnum e) (· = ·) := by
  cases h with
  | @enum name t u fields ht =>
    have constants : enumConstants ⟨name, u, fields⟩ = enumConstants ⟨name, t, fields⟩ := rfl
    refine AgreesHere.same (.change fun s s' hs => ⟨{ hs with context := ?_ }, rfl, rfl⟩) fun _ => ?_
    · dsimp only
      rw [hs.context, hs.file, constants]
    · refine (emitLeaf_agrees rfl ht).same fun _ => ?_
      refine AgreesHere.same (emit_agrees ?_) fun _ => emitLeaf_agrees rfl ht
      have count := (Arith.numeral_agrees ht (toString fields.length) .int).alike
      exact .node .int (.declare _ .int (_, _) true true true) ht (forall_mem_singleton.mpr count)

theorem enumField_agrees (hd : Record.Alike (K.token files) (.enum d) (.enum e))
    (ht : K.token files t u) (h : K.Tokens files toks toks') :
    AgreesHere K files (enumField d t toks) (enumField e u toks') (· = ·) := by
  cases hd with
  | enum enumName fields hd =>
    unfold enumField
    rw [h.isEmpty_eq, K.kind ht]
    refine .guard ht ?_
    refine (newName_agrees ht).same fun name => ?_
    refine .guard ht ?_
    exact setRecord_agrees (.enum enumName (fields ++ [name]) hd)

theorem structField_agrees (hd : Record.Alike (K.token files) (.struct d) (.struct e))
    (ht : K.token files t u) (h : K.Tokens files toks toks') :
    AgreesHere K files (structField d t toks) (structField e u toks') (· = ·) := by
  cases hd with
  | struct structName generics fields fieldsOpen hd =>
    unfold structField
    refine .guard ht ?_
    cases h with
    | nil => exact .failAt ht
    | cons hcolon htype =>
      dsimp only
      rw [Comparison.Tokens.isEmpty_eq htype, K.kind hcolon]
      refine .guard ht ?_
      refine (newName_agrees ht).same fun name => ?_
      refine .guard ht <| .guard ht ?_
      refine (typeOf_agrees false htype).same fun ty => ?_
      refine .guard ht ?_
      exact setRecord_agrees (.struct structName generics (fields ++ [⟨name, ty⟩]) fieldsOpen hd)

theorem recordField_agrees (hr : r.Alike (K.token files) r') (ht : K.token files t u)
    (h : K.Tokens files toks toks') : AgreesHere K files (recordField r t toks) (recordField r' u toks') (· = ·) := by
  cases hr with
  | struct name generics fields fieldsOpen hd =>
    exact structField_agrees (.struct name generics fields fieldsOpen hd) ht h
  | enum name fields hd => exact enumField_agrees (.enum name fields hd) ht h

end Impulse.Parse
