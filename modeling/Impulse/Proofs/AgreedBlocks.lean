import Impulse.Proofs.AgreedDefinitions

/-!
# Blocks that are read twice

The headers and the ends of blocks lead corresponding states to corresponding states. What is deferred differs in
corresponding tokens only, and is repeated in both readings at the same places.
-/

namespace Impulse

open List

namespace Deferral.Alike

variable {d e : Deferral}

variable (h : d.Alike R e) (depth : Nat)
include h

theorem isRecording_eq : e.isRecording = d.isRecording := by
  have recording := h.recording
  unfold isRecording
  generalize d.recording = r at recording ⊢
  generalize e.recording = r' at recording ⊢
  cases recording <;> rfl

theorem start : d.start.Alike R e.start :=
  ⟨.some .nil, h.groups⟩

theorem finish : (d.finish depth).Alike R (e.finish depth) := by
  obtain ⟨r, groups⟩ := d
  obtain ⟨r', groups'⟩ := e
  obtain ⟨recording, same⟩ := h
  cases recording with
  | none => exact ⟨.none, same⟩
  | some nodes =>
    cases nodes with
    | nil => exact ⟨.none, same⟩
    | cons hn hns => exact ⟨.none, rel_append same (.cons ⟨rfl, .cons hn hns⟩ .nil)⟩

theorem filter (p : Nat → Bool) :
    List.Forall₂ (fun g h => h.1 = g.1 ∧ Node.AlikeAll R g.2 h.2) (d.groups.filter fun g => p g.1)
      (e.groups.filter fun g => p g.1) :=
  rel_filter (fun _ _ same => by dsimp only; rw [same.1]) h.groups

theorem without : (d.without depth).Alike R (e.without depth) :=
  ⟨h.recording, h.filter (· != depth)⟩

theorem below : (d.below depth).Alike R (e.below depth) :=
  ⟨h.recording, h.filter (decide <| · < depth)⟩

theorem statementsAt : Node.AlikeAll R (d.statementsAt depth) (e.statementsAt depth) := by
  have chosen := forall₂_reverse_iff.mpr (h.filter (· == depth))
  exact rel_flatten (rel_map (fun _ _ same => same.2) chosen)

theorem pending (bottom : Nat) : Node.AlikeAll R (d.pending depth bottom) (e.pending depth bottom) := by
  refine rel_flatMap (R := fun i j => i = j) (forall₂_same.mpr fun _ _ => rfl) fun i j same => ?_
  subst same
  exact h.statementsAt (depth - i)

end Deferral.Alike

namespace Parse

variable {K : Comparison}

structure AlikeGroup (K : Comparison) (files : List SourceFile) (p q : Token × List Token × List Token) :
    Prop where
  opened : K.token files p.1 q.1
  inner : K.Tokens files p.2.1 q.2.1
  rest : K.Tokens files p.2.2 q.2.2

theorem parenthesized_agrees (word : String) (h : K.Tokens files toks toks') :
    AgreesHere K files (parenthesized word toks) (parenthesized word toks') (AlikeGroup K files) := by
  unfold parenthesized
  refine (finalOf_agrees h).bind fun final final' hfinal => ?_
  refine (expect_agrees h hfinal _ _).bind fun p q hopened => ?_
  exact (closing_agrees hopened.1 hopened.2).bind fun parts parts' hparts =>
    .done ⟨hopened.1, hparts.1, hparts.2⟩

theorem bareBlock_agrees (hbrace : K.token files brace brace') :
    AgreesHere K files (bareBlock brace) (bareBlock brace') (· = ·) := by
  refine .get fun s s' hs => ?_
  rw [hs.function]
  refine .guard hbrace ?_
  exact (emitLeaf_agrees rfl hbrace).same fun _ =>
    openBlock_agrees hbrace

def AlikeCapture (K : Comparison) (files : List SourceFile) (p q : Option Token × List Token) : Prop :=
  Option.Rel (K.token files) p.1 q.1 ∧ K.Tokens files p.2 q.2

theorem captureName?_agrees (hfinal : K.place files final final') (h : K.Tokens files toks toks') :
    AgreesHere K files (captureName? final toks) (captureName? final' toks') (AlikeCapture K files) := by
  cases h with
  | nil => exact .done ⟨.none, .nil⟩
  | cons ht hrest =>
    rw [captureName?, captureName?, K.kind ht]
    refine .ite (fun _ => .done ⟨.none, .cons ht hrest⟩) fun _ => ?_
    refine (expect_agrees hrest hfinal _ _).bind fun p q hname => ?_
    exact (expect_agrees hname.2 hfinal _ _).bind fun _ _ hbar => .done ⟨.some hname.1, hbar.2⟩

theorem captureType_agrees (ht : K.token files t u) (h : K.NodeLists files ns ms) :
    AgreesHere K files (captureType t ns) (captureType u ms) (· = ·) := by
  have other : AgreesHere K files (fail t (.block .captureCondition) : Parse Ty)
      (fail u (.block .captureCondition)) (· = ·) :=
    .failAt ht
  cases h with
  | nil => exact other
  | cons hn hrest =>
    obtain ⟨alike, present⟩ := hn
    cases alike with
    | absent => cases present
    | node ty form hplace _ =>
      cases form with
      | name x flat =>
        cases hrest with
        | nil =>
          unfold captureType
          dsimp only [Form.map]
          split
          · refine .get fun s s' hs => ?_
            rw [hs.context, hs.scope]
            split
            · exact .done rfl
            · exact .failAt hplace
          · exact .failAt hplace
        | cons => exact other
      | _ => exact other

theorem conditionalBranch_agrees (kind : BranchKind) : AgreedHeader K files (conditionalBranch kind) := by
  intro brace brace' t u toks toks' hbrace ht h
  unfold conditionalBranch
  refine (requireFunction_agrees ht).same fun _ => ?_
  refine (finalOf_agrees h).bind fun final final' hfinal => ?_
  rw [K.text ht]
  refine (parenthesized_agrees _ h).bind fun p q group => ?_
  refine (captureName?_agrees hfinal group.rest).bind ?_
  rintro ⟨capture, rest⟩ ⟨capture', rest'⟩ ⟨hcapture, hrest⟩
  refine AgreesHere.bind (.infer (Infer.condition_agrees group.opened group.inner)) fun cond cond' hcond => ?_
  -- A captured name is part of the node, and is declared once the block is open.
  have opens (name : String) (ty : Ty) {f g : Parse Unit} (hf : AgreesHere K files f g (· = ·)) :
      AgreesHere K files
        (nothingMore .afterCondition rest >>= fun _ => emit (.plain t (.branch kind cond name ty)) >>= fun _ =>
          openBlock { kind := .branch, token := brace, framed := true } >>= fun _ => f)
        (nothingMore .afterCondition rest' >>= fun _ => emit (.plain u (.branch kind cond' name ty)) >>= fun _ =>
          openBlock { kind := .branch, token := brace', framed := true } >>= fun _ => g) (· = ·) := by
    refine (nothingMore_agrees .afterCondition hrest).same fun _ => ?_
    obtain ⟨ps, rfl, rfl, hps⟩ := exists_pairs hcond.alike
    refine AgreesHere.same (emit_agrees (.node .absent (.branch kind ps name ty) ht hps)) fun _ => ?_
    exact (openBlock_agrees hbrace).same fun _ => hf
  dsimp only at hcapture
  cases hcapture with
  | none => exact opens _ _ (.done rfl)
  | some hname =>
    refine (newName_agrees hname).same fun _ => ?_
    refine (captureType_agrees hname hcond).same fun ty => ?_
    dsimp only [Option.map_some, Option.getD_some]
    rw [K.value hname]
    refine opens _ ty ?_
    show AgreesHere K files (declare _ { name := _, ty := ty }) (declare _ { name := _, ty := ty }) _
    rw [K.value hname]
    exact declare_agrees hname _

theorem otherwiseBranch_agrees : AgreedHeader K files otherwiseBranch := by
  intro brace brace' t u toks toks' hbrace ht h
  unfold otherwiseBranch
  refine (requireFunction_agrees ht).same fun _ => ?_
  refine (nothingMore_agrees .afterCondition h).same fun _ => ?_
  refine (emitLeaf_agrees rfl ht).same fun _ => ?_
  exact openBlock_agrees hbrace

theorem switchBlock_agrees : AgreedHeader K files switchBlock := by
  intro brace brace' t u toks toks' hbrace ht h
  unfold switchBlock
  refine (requireFunction_agrees ht).same fun _ => ?_
  refine (parenthesized_agrees _ h).bind fun p q group => ?_
  refine (nothingMore_agrees .afterSwitchValue group.rest).same fun _ => ?_
  refine (expression_agrees .absent group.inner).bind fun value value' hvalue => ?_
  rw [hvalue.alike.ty_eq]
  refine AgreesHere.same (emit_agrees ?_) fun _ => openBlock_agrees hbrace
  exact .node .absent (.switch (value, value')) ht (forall_mem_singleton.mpr hvalue.alike)

theorem armValues_agrees (want : Ty) (h : K.Parts files parts parts') :
    AgreesHere K files (armValues want parts) (armValues want parts') (K.NodeLists files) := by
  induction h with
  | nil => exact .done .nil
  | cons htoks _ ih =>
    rw [armValues, armValues]
    refine (expression_agrees want htoks).bind fun n m hn => ?_
    rw [hn.alike.accepts_eq, hn.alike.text_eq, hn.alike.ty_eq]
    have goesOn : AgreesHere K files (armValues want _ >>= fun ns => pure (n :: ns))
        (armValues want _ >>= fun ms => pure (m :: ms)) (K.NodeLists files) :=
      ih.bind fun ns ms hns => .done (.cons hn hns)
    exact .ite (fun _ => (Agrees.mismatch hn.token _).same fun _ => goesOn) fun _ => goesOn

theorem armBlock_agrees : AgreedHeader K files armBlock := by
  intro brace brace' t u toks toks' hbrace ht h
  unfold armBlock
  refine .get fun s s' hs => ?_
  have blocks := hs.blocks
  generalize s.blocks = bs at blocks ⊢
  generalize s'.blocks = cs at blocks ⊢
  cases blocks with
  | nil =>
    dsimp only
    rw [K.text ht]
    exact .failAt ht
  | cons hb _ =>
    have opens {ns ms : List Node} (hns : K.NodeLists files ns ms) : AgreesHere K files
        (emit (.plain t (.arm ns (t.kind = .kwFallthrough) (t.kind = .kwDefault))) >>= fun _ =>
          openBlock { kind := .arm, token := brace, framed := true })
        (emit (.plain u (.arm ms (t.kind = .kwFallthrough) (t.kind = .kwDefault))) >>= fun _ =>
          openBlock { kind := .arm, token := brace', framed := true }) (· = ·) := by
      obtain ⟨ps, rfl, rfl, hps⟩ := exists_pairs hns.alike
      refine AgreesHere.same (emit_agrees (.node .absent (.arm ps _ _) ht hps)) fun _ => ?_
      exact openBlock_agrees hbrace
    dsimp only
    rw [hb.kind, hb.value, K.kind ht, K.text ht]
    refine .guard ht <| .ite (fun _ => ?_) fun _ => ?_
    · cases h with
      | nil => exact opens .nil
      | cons hextra _ => exact .fail_bind hextra
    · refine (parenthesized_agrees _ h).bind fun p q group => ?_
      refine (nothingMore_agrees .afterCaseValues group.rest).same fun _ => ?_
      rw [group.inner.isEmpty_eq]
      refine .guard group.opened ?_
      exact (armValues_agrees _ (group.inner.splitTop .comma)).bind fun ns ms hns => opens hns

theorem loopStep_agrees (h : K.Tokens files toks toks') :
    AgreesHere K files (loopStep toks) (loopStep toks') (fun p q => q.1 = p.1 ∧ K.Tokens files p.2 q.2) := by
  cases h with
  | nil => exact .done ⟨rfl, .nil⟩
  | cons ht hrest =>
    rw [loopStep, loopStep, K.kind ht, K.value ht]
    refine .ite (fun _ => .done ⟨rfl, .cons ht hrest⟩) fun _ => ?_
    dsimp only
    refine .ite (fun _ => .done ⟨rfl, hrest⟩) fun _ => .ite (fun _ => .done ⟨rfl, hrest⟩) fun _ => ?_
    exact .ite (fun _ => .done ⟨rfl, hrest⟩) fun _ => .failAt ht

theorem startsWithName_eq (h : K.Tokens files toks toks') : startsWithName toks' = startsWithName toks := by
  cases h with
  | nil => rfl
  | cons ht hrest =>
    rw [startsWithName, startsWithName, K.kind ht]
    cases hrest with
    | nil => rfl
    | cons hsecond _ => rw [List.head?_cons, List.head?_cons, Option.map_some, Option.map_some, K.kind hsecond]

def AlikeCounter (K : Comparison) (files : List SourceFile) (p q : Node × String) : Prop :=
  p.1.Alike (K.token files) q.1 ∧ q.2 = p.2

theorem loopCounter_agrees (ht : K.token files t u) :
    AgreesHere K files (loopCounter t) (loopCounter u) (AlikeCounter K files) := by
  unfold loopCounter
  refine .get fun s s' hs => .read ?_
  have spells {init init' : Node} (hinit : init.Alike (K.token files) init') : AgreesHere K files
      (get >>= fun s => pure (init, s.context.spell s.scope t.value))
      (get >>= fun s => pure (init', s.context.spell s.scope t.value)) (AlikeCounter K files) := by
    refine .get fun s s' hs => ?_
    rw [hs.context, hs.scope]
    exact .done ⟨hinit, rfl⟩
  dsimp only
  rw [hs.view.find?_eq, hs.view.isTypeName_eq, K.value ht]
  refine .ite (fun _ => ?_) fun _ => spells .absent
  refine (newName_agrees ht).same fun name => ?_
  refine (declare_agrees ht _).same fun _ => spells ?_
  have zero := (Arith.numeral_agrees ht "0" .usize).alike
  exact .node .usize (.declare name .usize (_, _) false false false) ht (forall_mem_singleton.mpr zero)

theorem requireCounter_agrees (ht : K.token files t u) (counter : String) :
    AgreesHere K files (requireCounter t counter) (requireCounter u counter) (· = ·) := by
  refine .get fun s s' hs => ?_
  rw [hs.context, hs.scope]
  exact .ite (fun _ => .failAt ht) fun _ => .done rfl

theorem loopHeader_agrees
    (ht : K.token files t u) (hfirst : K.token files first first') (hinit : init.Alike (K.token files) init')
    (counter : String) (step : Step) (condition : Infer.Agrees K files x y (K.NodeLists files)) :
    AgreesHere K files
      (infer x >>= fun cond =>
        if step ≠ .stay then requireCounter first counter >>= fun _ =>
          emit (.plain t (.loop init counter cond step))
        else emit (.plain t (.loop init counter cond step)))
      (infer y >>= fun cond =>
        if step ≠ .stay then requireCounter first' counter >>= fun _ =>
          emit (.plain u (.loop init' counter cond step))
        else emit (.plain u (.loop init' counter cond step))) (· = ·) := by
  refine AgreesHere.bind (.infer condition) fun cond cond' hcond => ?_
  obtain ⟨ps, rfl, rfl, hps⟩ := exists_pairs hcond.alike
  have node : Node.Alike (K.token files) (.plain t (.loop init counter (ps.map Prod.fst) step))
      (.plain u (.loop init' counter (ps.map Prod.snd) step)) :=
    .node .absent (.loop (init, init') counter ps step) ht (forall_mem_cons.mpr ⟨hinit, hps⟩)
  exact .ite (fun _ => (requireCounter_agrees hfirst counter).same fun _ => emit_agrees node) fun _ =>
    emit_agrees node

theorem loopBlock_agrees : AgreedHeader K files loopBlock := by
  intro brace brace' t u toks toks' hbrace ht h
  unfold loopBlock
  refine (requireFunction_agrees ht).same fun _ => ?_
  refine (parenthesized_agrees _ h).bind ?_
  rintro ⟨opened, inner, rest⟩ ⟨opened', inner', rest'⟩ ⟨hopened, hinner, hrest⟩
  dsimp only at hopened hinner hrest ⊢
  refine (loopStep_agrees hrest).bind ?_
  rintro ⟨step, rest⟩ ⟨step', rest'⟩ ⟨same, hrest⟩
  obtain rfl : step' = step := same
  refine (nothingMore_agrees .afterLoopCondition hrest).same fun _ => ?_
  have starts := startsWithName_eq hinner
  have condition := Infer.condition_agrees hopened hinner
  cases hinner with
  | nil => exact .failAt hopened
  | cons hfirst hafter =>
    dsimp only
    rw [starts]
    refine (openBlock_agrees hbrace).same fun _ => ?_
    refine .ite (fun _ => ?_) fun _ => loopHeader_agrees ht hfirst .absent "" step' condition
    refine (loopCounter_agrees hfirst).bind ?_
    rintro ⟨init, counter⟩ ⟨init', counter'⟩ ⟨hinit, same⟩
    obtain rfl : counter' = counter := same
    exact loopHeader_agrees ht hfirst hinit counter' step' condition

theorem iterationNames_agrees (hfinal : K.place files final final') (h : K.Tokens files toks toks') :
    AgreesHere K files (iterationNames final toks) (iterationNames final' toks')
      (fun p q => K.token files p.1 q.1 ∧ AlikeCapture K files p.2 q.2) := by
  unfold iterationNames
  refine (expect_agrees h hfinal _ _).bind ?_
  rintro ⟨elem, toks⟩ ⟨elem', toks'⟩ ⟨helem, htoks⟩
  dsimp only at helem htoks ⊢
  refine (newName_agrees helem).same fun _ => ?_
  cases htoks with
  | nil => exact .done ⟨helem, .none, .nil⟩
  | cons ht hrest =>
    dsimp only
    rw [K.kind ht, K.value helem]
    refine .ite (fun _ => .done ⟨helem, .none, .cons ht hrest⟩) fun _ => ?_
    refine (expect_agrees hrest hfinal _ _).bind fun p q hindex => ?_
    refine (newName_agrees hindex.1).same fun _ => ?_
    rw [K.value hindex.1]
    exact .ite (fun _ => .failAt hindex.1) fun _ => .done ⟨helem, .some hindex.1, hindex.2⟩

theorem iterationElement_agrees (hn : K.Nodes files n m) :
    AgreesHere K files (iterationElement n) (iterationElement m) (· = ·) := by
  unfold iterationElement
  rw [hn.alike.ty_eq, hn.alike.text_eq]
  dsimp only
  split
  · exact .done rfl
  · exact .failAt hn.token

theorem iterateBlock_agrees : AgreedHeader K files iterateBlock := by
  intro brace brace' t u toks toks' hbrace ht h
  unfold iterateBlock
  refine (requireFunction_agrees ht).same fun _ => ?_
  refine (parenthesized_agrees _ h).bind fun p q group => ?_
  refine (nothingMore_agrees .afterIteratorHeader group.rest).same fun _ => ?_
  refine (finalOf_agrees group.inner).bind fun final final' hfinal => ?_
  refine (iterationNames_agrees hfinal group.inner).bind ?_
  rintro ⟨elem, index, toks⟩ ⟨elem', index', toks'⟩ ⟨helem, hindex, htoks⟩
  dsimp only at helem hindex htoks ⊢
  refine (expect_agrees htoks hfinal _ _).bind ?_
  rintro ⟨_, toks⟩ ⟨_, toks'⟩ hin
  dsimp only
  rw [hin.2.isEmpty_eq]
  refine .guard group.opened ?_
  refine (expression_agrees .absent hin.2).bind fun subject subject' hsubject => ?_
  refine (iterationElement_agrees hsubject).same fun ty => ?_
  -- The index may be missing; then nothing is declared behind the element.
  have opens (name : String) {f g : Parse Unit} (hf : AgreesHere K files f g (· = ·)) : AgreesHere K files
      (emit (.plain t (.iterate elem.value name ty subject)) >>= fun _ =>
        openBlock { kind := .iterate, token := brace, framed := true } >>= fun _ =>
        declare elem { name := elem.value, ty := ty } >>= fun _ => f)
      (emit (.plain u (.iterate elem.value name ty subject')) >>= fun _ =>
        openBlock { kind := .iterate, token := brace', framed := true } >>= fun _ =>
        declare elem' { name := elem.value, ty := ty } >>= fun _ => g) (· = ·) := by
    refine AgreesHere.same (emit_agrees ?_) fun _ => ?_
    · exact .node .absent (.iterate _ _ _ (subject, subject')) ht (forall_mem_singleton.mpr hsubject.alike)
    refine (openBlock_agrees hbrace).same fun _ => ?_
    exact (declare_agrees helem _).same fun _ => hf
  rw [K.value helem]
  cases hindex with
  | none => exact opens _ (.done rfl)
  | some hname =>
    dsimp only [Option.map_some, Option.getD_some]
    rw [K.value hname]
    exact opens _ (declare_agrees hname _)

theorem deferBlock_agrees : AgreedHeader K files deferBlock := by
  intro brace brace' t u toks toks' hbrace ht h
  unfold deferBlock
  refine (requireFunction_agrees ht).same fun _ => ?_
  refine (nothingMore_agrees _ h).same fun _ => ?_
  refine .get fun s s' hs => ?_
  rw [hs.deferral.isRecording_eq]
  refine .guard ht ?_
  refine (openBlock_agrees hbrace).same fun _ => ?_
  exact .change fun s s' hs => ⟨{ hs with deferral := hs.deferral.start }, rfl, rfl⟩

theorem clearRecord_agrees :
    AgreesHere K files (modify fun s => { s with record := none }) (modify fun s => { s with record := none })
      (· = ·) :=
  .change fun _ _ hs => ⟨{ hs with record := .none }, rfl, rfl⟩

theorem closeStruct_agrees : AgreesHere K files closeStruct closeStruct (· = ·) := by
  refine .get fun s s' hs => ?_
  have record := hs.record
  generalize s.record = r at record ⊢
  generalize s'.record = r' at record ⊢
  cases record with
  | none => exact .fault _
  | some same =>
    cases same with
    | struct name generics fields fieldsOpen hd =>
      exact .ite (fun _ => (finishFields_agrees (.struct name generics fields fieldsOpen hd)).same fun _ =>
        clearRecord_agrees) fun _ => clearRecord_agrees
    | enum => exact .fault _

theorem closeEnum_agrees : AgreesHere K files closeEnum closeEnum (· = ·) := by
  refine .get fun s s' hs => ?_
  have record := hs.record
  generalize s.record = r at record ⊢
  generalize s'.record = r' at record ⊢
  cases record with
  | none => exact .fault _
  | some same =>
    cases same with
    | struct => exact .fault _
    | enum name fields hd =>
      exact (finishEnum_agrees (.enum name fields hd)).same fun _ => clearRecord_agrees

theorem closeDeferred_agrees : AgreesHere K files closeDeferred closeDeferred (· = ·) := by
  refine AgreesHere.same (.change fun s s' hs => ⟨{ hs with deferral := ?_ }, rfl, rfl⟩) fun _ =>
    popFrame_agrees
  rw [hs.depth_eq]
  exact hs.deferral.finish s.depth

theorem closeOther_agrees (hb : b.Alike (K.token files) c) (ht : K.token files t u) :
    AgreesHere K files (closeOther b t) (closeOther c u) (· = ·) := by
  refine .get fun s s' hs => ?_
  dsimp only
  rw [hs.depth_eq, hb.framed, hb.kind]
  refine AgreesHere.bind (.change fun s s' hs => ⟨{ hs with deferral := hs.deferral.without _ }, rfl, rfl⟩)
    fun _ _ _ => ?_
  -- The statements were chosen before the groups of the block were dropped.
  refine (emitAll_agrees (hs.deferral.statementsAt _)).same fun _ => ?_
  refine (emitLeaf_agrees rfl ht).same fun _ => ?_
  have leaves : AgreesHere K files
      (if b.kind = .function then
        modify fun r => { r with deferral := r.deferral.below (s.depth + 1), function := none } else pure ())
      (if b.kind = .function then
        modify fun r => { r with deferral := r.deferral.below (s.depth + 1), function := none } else pure ())
      (· = ·) := by
    refine .ite (fun _ => .change fun r r' hr => ?_) fun _ => .done rfl
    exact ⟨{ hr with deferral := hr.deferral.below _, function := rfl }, rfl, rfl⟩
  exact .ite (fun _ => popFrame_agrees.same fun _ => leaves) fun _ => leaves

theorem closeBlock_agrees (ht : K.token files t u) : AgreesHere K files (closeBlock t) (closeBlock u) (· = ·) := by
  refine .get fun s s' hs => ?_
  have blocks := hs.blocks
  generalize s.blocks = bs at blocks ⊢
  generalize s'.blocks = cs at blocks ⊢
  cases blocks with
  | nil => exact .failAt ht
  | cons hb hrest =>
    dsimp only
    rw [hb.kind]
    refine AgreesHere.bind (.change fun s s' hs => ⟨{ hs with blocks := hrest, afterBranch := rfl }, rfl, rfl⟩)
      fun _ _ _ => ?_
    split
    · exact closeStruct_agrees
    · exact closeEnum_agrees
    · exact closeDeferred_agrees
    · exact closeOther_agrees hb ht

end Parse

end Impulse
