import Impulse.Proofs.AgreedBlocks
import Impulse.Proofs.Balance

/-!
# Programs that are read twice

Statements and headers lead corresponding states to corresponding states, and so do tokens and whole files. A file that
is imported is the same in both readings, so its tokens correspond to themselves.
-/

namespace Impulse.Parse

open List

variable
  (fuel : Nat) (path : String)

def AgreedImporter (K : Comparison) (files : List SourceFile) (importer importer' : Importer) : Prop :=
  ∀ {more t u}, files <+: more → K.token more t u → ∀ path,
    Agrees K more (importer t path) (importer' u path) fun _ _ _ => True

theorem Agrees.ofHere {α β : Type} {x : Parse α} {y : Parse β} {R : α → β → Prop}
    (h : AgreesHere K files x y R) : Agrees K files x y fun _ _ _ => True :=
  Agrees.mono h fun _ _ _ _ _ => trivial

theorem directive_agrees (himporter : AgreedImporter K files importer importer') (ht : K.token files t u)
    (h : K.Tokens files toks toks') :
    Agrees K files (directive importer t toks) (directive importer' u toks') fun _ _ _ => True := by
  unfold directive
  have hfinal := K.atToken (Comparison.Tokens.getLastD (.cons ht h) ht)
  refine (expect_agrees h hfinal _ _).bind ?_
  rintro ⟨name, args⟩ ⟨name', args'⟩ ⟨hname, hargs⟩
  dsimp only at hname hargs ⊢
  rw [K.value hname]
  split
  · exact .failAt hname
  · exact .failAt hname
  · exact .failAt hname
  · next d _ _ _ =>
    cases hargs with
    | nil => exact .failAt hname
    | cons harg hrest =>
      cases hrest with
      | cons => exact .failAt hname
      | nil =>
        dsimp only
        rw [K.kind harg, K.value harg]
        refine .ite (fun _ => .failAt hname) fun _ => .ite (fun _ => ?_) fun _ => ?_
        · refine .get fun s s' hs => ?_
          rw [hs.depth_eq]
          exact .ite (fun _ => .failAt hname) fun _ =>
            himporter (prefix_refl _) harg _
        · exact .ofHere (emitLeaf_agrees rfl hname)

theorem assign_agrees {first first' : Token}
    (ht : K.token files t u) (hfirst : K.token files first first') (htarget : K.Nodes files target target')
    (hright : K.Tokens files right right') :
    AgreesHere K files
      (expression right target.ty.resolved >>= fun value =>
        if (!target.ty.resolved.accepts value) = true then
          mismatch (right.headD t) (.assignment value.text value.ty target.text target.ty.resolved) >>= fun _ =>
            emit (.assignment first target value)
        else emit (.assignment first target value))
      (expression right' target.ty.resolved >>= fun value =>
        if (!target.ty.resolved.accepts value) = true then
          mismatch (right'.headD u) (.assignment value.text value.ty target.text target.ty.resolved) >>= fun _ =>
            emit (.assignment first' target' value)
        else emit (.assignment first' target' value)) (· = ·) := by
  refine (expression_agrees _ hright).bind fun value value' hvalue => ?_
  rw [hvalue.alike.accepts_eq, hvalue.alike.text_eq, hvalue.alike.ty_eq]
  refine .check (hright.headD ht) _ (emit_agrees ?_)
  unfold Node.assignment
  rw [htarget.alike.ty_eq]
  exact .node _ (.assign (target, target') (value, value')) hfirst
    (forall_mem_cons.mpr ⟨htarget.alike, forall_mem_singleton.mpr hvalue.alike⟩)

theorem assignment_agrees {left left' right right' : List Token} (ht : K.token files t u)
    (hleft : K.Tokens files left left') (hright : K.Tokens files right right') :
    AgreesHere K files (assignment t left right) (assignment u left' right') (· = ·) := by
  unfold assignment
  cases hleft with
  | nil => exact .failAt ht
  | cons hfirst hrest =>
    dsimp only
    refine (requireFunction_agrees hfirst).same fun _ => ?_
    rw [hright.isEmpty_eq]
    refine .guard ht ?_
    refine (expression_agrees .absent (.cons hfirst hrest)).bind fun target target' htarget => ?_
    rw [htarget.alike.isPlace_eq, htarget.alike.text_eq, htarget.alike.rootName?_eq, htarget.alike.ty_eq]
    refine .guard hfirst ?_
    refine .get fun s s' hs => ?_
    rw [hs.context, hs.scope]
    have assigns := assign_agrees ht hfirst htarget hright
    cases target.rootName? with
    | none => exact assigns
    | some root =>
      dsimp only
      cases s.context.resolve? s.scope root with
      | none => exact assigns
      | some x => exact .guard hfirst assigns

theorem effect_agrees (ht : K.token files t u) (h : K.Tokens files toks toks') :
    AgreesHere K files (effect t toks) (effect u toks') (· = ·) := by
  unfold effect
  refine (requireFunction_agrees ht).same fun _ => ?_
  refine (expression_agrees .absent h).bind fun n m hn => ?_
  have other : AgreesHere K files (warn t (.noEffect n.text)) (warn u (.noEffect m.text)) (· = ·) := by
    rw [hn.alike.text_eq]
    exact .warn ht rfl
  have emits := emit_agrees hn.alike
  obtain ⟨alike, present⟩ := hn
  cases alike with
  | absent => cases present
  | node ty form _ _ =>
    cases form with
    | call | embed => exact emits
    | _ => exact other

theorem resultValue_agrees (f : FunctionInfo) (ht : K.token files t u) (h : K.Tokens files toks toks') :
    AgreesHere K files (resultValue f t toks) (resultValue f u toks') (Node.Alike (K.token files)) := by
  unfold resultValue
  cases h with
  | nil => exact .check ht _ (.done .absent)
  | cons hfirst hrest =>
    refine (expression_agrees f.ret (.cons hfirst hrest)).bind fun value value' hvalue => ?_
    have returned : AgreesHere K files (pure value) (pure value') (Node.Alike (K.token files)) :=
      .done hvalue.alike
    simp only [hvalue.alike.accepts_eq, hvalue.alike.text_eq, hvalue.alike.ty_eq]
    exact .ite (fun _ => (Agrees.mismatch ht _).same fun _ => returned) fun _ =>
      .check hfirst _ returned

theorem returnStatement_agrees (ht : K.token files t u) (h : K.Tokens files toks toks') :
    AgreesHere K files (returnStatement t toks) (returnStatement u toks') (· = ·) := by
  refine .get fun s s' hs => ?_
  rw [hs.function, hs.deferral.isRecording_eq]
  split
  · exact .failAt ht
  · next f _ =>
    refine .guard ht ?_
    refine (resultValue_agrees f ht h).bind fun value value' hvalue => .read ?_
    have returned : AgreesHere K files (emit (.returned t value)) (emit (.returned u value')) (· = ·) := by
      refine emit_agrees ?_
      unfold Node.returned
      rw [hvalue.isAbsent_eq, hvalue.ty_eq]
      exact .node _ (.result (value, value')) ht (forall_mem_singleton.mpr hvalue)
    rw [K.feature (f := .deferReturn) (by decide)]
    refine .ite (fun _ => .get fun s s' hs => ?_) fun _ => returned
    rw [hs.depth_eq]
    exact (emitAll_agrees (hs.deferral.pending _ _)).same fun _ => returned

theorem canJump_eq {R : Token → Token → Prop} (h : List.Forall₂ (Block.Alike R) bs cs) :
    State.canJump cs = State.canJump bs := by
  induction h with
  | nil => rfl
  | cons hb _ ih =>
    rw [State.canJump, State.canJump.eq_def (_ :: _)]
    dsimp only
    rw [hb.kind, ih]

theorem jump_agrees (ht : K.token files t u) (h : K.Tokens files toks toks') :
    AgreesHere K files (jump t toks) (jump u toks') (· = ·) := by
  unfold jump
  rw [K.text ht, K.kind ht]
  refine (requireFunction_agrees ht).same fun _ => ?_
  refine (nothingMore_agrees _ h).same fun _ => ?_
  refine .get fun s s' hs => ?_
  rw [canJump_eq hs.blocks]
  refine .guard ht (emitLeaf_agrees ?_ ht)
  split <;> rfl

theorem assignmentOrEffect_agrees (ht : K.token files t u) (h : K.Tokens files toks toks') :
    AgreesHere K files
      (match Token.cutTop? .equals toks with
        | some (left, eq, right) => assignment eq left right
        | none => effect t toks)
      (match Token.cutTop? .equals toks' with
        | some (left, eq, right) => assignment eq left right
        | none => effect u toks') (· = ·) := by
  have cut := h.cutTop? .equals
  generalize Token.cutTop? .equals toks = p at cut ⊢
  generalize Token.cutTop? .equals toks' = q at cut ⊢
  cases cut with
  | none => exact effect_agrees ht h
  | some parts => exact assignment_agrees parts.token parts.before parts.behind

theorem plainStatement_agrees (himporter : AgreedImporter K files importer importer')
    (ht : K.token files t u) (h : K.Tokens files toks toks') :
    Agrees K files (plainStatement importer t toks) (plainStatement importer' u toks') fun _ _ _ => True := by
  have other := Agrees.ofHere (assignmentOrEffect_agrees ht (.cons ht h))
  unfold plainStatement
  rw [K.kind ht]
  generalize t.kind = kind
  cases kind with
  | atSign => exact directive_agrees himporter ht h
  | kwReturn => exact .ofHere (returnStatement_agrees ht h)
  | kwBreak | kwContinue => exact .ofHere (jump_agrees ht h)
  | ident =>
    cases h with
    | nil => exact other
    | cons hsign hafter =>
      dsimp only
      rw [K.kind hsign]
      refine .ite (fun _ => .ofHere (variableDeclaration_agrees false ht hsign hafter)) fun _ => ?_
      exact .ite (fun _ => .ofHere (variableDeclaration_agrees true ht hsign hafter)) fun _ => other
  | _ =>
    cases h with
    | nil | cons => exact other

theorem clearBranch_agrees :
    AgreesHere K files (modify fun s => { s with afterBranch := false })
      (modify fun s => { s with afterBranch := false }) (· = ·) :=
  .change fun _ _ hs => ⟨{ hs with afterBranch := rfl }, rfl, rfl⟩

theorem inSwitch_eq {s s' : State} (hs : s.Alike K files s') : s'.inSwitch = s.inSwitch := by
  have blocks := hs.blocks
  unfold State.inSwitch
  generalize s.blocks = bs at blocks ⊢
  generalize s'.blocks = cs at blocks ⊢
  cases blocks with
  | nil => rfl
  | cons hb _ => rw [List.head?_cons, List.head?_cons, Option.map_some, Option.map_some, hb.kind]

theorem statement_agrees (himporter : AgreedImporter K files importer importer') (h : K.Tokens files toks toks') :
    Agrees K files (statement importer toks) (statement importer' toks') fun _ _ _ => True := by
  unfold statement
  refine clearBranch_agrees.same fun _ => ?_
  cases h with
  | nil => exact .pure trivial
  | cons ht hrest =>
    refine .get fun s s' hs => ?_
    have plain := plainStatement_agrees himporter ht hrest
    have record := hs.record
    dsimp only
    rw [inSwitch_eq hs, hs.function]
    generalize s.record = r at record ⊢
    generalize s'.record = r' at record ⊢
    cases record with
    | none => exact .guard ht plain
    | some same =>
      cases s.function with
      | none => exact .ofHere (recordField_agrees same ht hrest)
      | some f => exact .guard ht plain

theorem namedHeader_agrees : AgreedHeader K files namedHeader := by
  intro brace brace' t u toks toks' hbrace ht h
  have other : AgreesHere K files (fail t (.block (.noHeader t.value)) : Parse Unit)
      (fail u (.block (.noHeader u.value))) (· = ·) := by
    rw [K.value ht]
    exact .failAt ht
  cases h with
  | nil => exact other
  | cons hsign hrest =>
    cases hrest with
    | nil => exact other
    | cons hword hafter =>
      rw [namedHeader, namedHeader, K.kind hsign, K.kind hword]
      refine .ite (fun _ => other) fun _ => ?_
      refine .ite (fun _ => structDefinition_agrees hbrace ht hafter) fun _ => ?_
      refine .ite (fun _ => enumDefinition_agrees hbrace ht hafter) fun _ => ?_
      refine .ite (fun _ => ?_) fun _ => .failAt hword
      exact functionDefinition_agrees hbrace (.cons ht (.cons hsign (.cons hword hafter)))

theorem headerOf_agrees (afterBranch : Bool) : AgreedHeader K files (headerOf afterBranch) := by
  intro brace brace' t u toks toks' hbrace ht h
  unfold headerOf
  rw [K.kind ht, K.text ht]
  refine .ite (fun _ => .failAt ht) fun _ => ?_
  split
  · exact functionDefinition_agrees hbrace (.cons ht h)
  · exact conditionalBranch_agrees .when hbrace ht h
  · exact conditionalBranch_agrees .orWhen hbrace ht h
  · exact otherwiseBranch_agrees hbrace ht h
  · exact switchBlock_agrees hbrace ht h
  · exact armBlock_agrees hbrace ht h
  · exact armBlock_agrees hbrace ht h
  · exact armBlock_agrees hbrace ht h
  · exact loopBlock_agrees hbrace ht h
  · exact iterateBlock_agrees hbrace ht h
  · exact deferBlock_agrees hbrace ht h
  · exact namedHeader_agrees hbrace ht h
  · exact .failAt ht

theorem header_agrees (hbrace : K.token files brace brace') (h : K.Tokens files toks toks') :
    AgreesHere K files (header brace toks) (header brace' toks') (· = ·) := by
  refine .get fun s s' hs => ?_
  refine clearBranch_agrees.same fun _ => ?_
  cases h with
  | nil => exact bareBlock_agrees hbrace
  | cons ht hrest =>
    have opens := headerOf_agrees s.afterBranch hbrace ht hrest
    have record := hs.record
    dsimp only
    rw [inSwitch_eq hs, hs.afterBranch]
    have arm : startsArm _ = startsArm _ := congrArg
      (fun kind => kind = Token.Kind.kwCase || kind = .kwFallthrough || kind = .kwDefault) (K.kind ht)
    rw [arm]
    generalize s.record = r at record ⊢
    generalize s'.record = r' at record ⊢
    cases record with
    | none => exact .guard ht opens
    | some same =>
      cases same with
      | struct => exact .guard ht opens
      | enum => exact .fail_bind ht


theorem finishFile_agrees : AgreesHere K files finishFile finishFile (· = ·) := by
  refine .get fun s s' hs => ?_
  have last := getLast?_rel hs.buffer
  have blocks := hs.blocks
  rw [hs.depth_eq]
  generalize s.buffer.getLast? = a at last ⊢
  generalize s'.buffer.getLast? = b at last ⊢
  cases last with
  | some ht => exact .failAt ht
  | none =>
    generalize s.blocks = bs at blocks ⊢
    generalize s'.blocks = cs at blocks ⊢
    cases blocks with
    | nil => exact .done rfl
    | cons hb _ =>
      dsimp only
      rw [hb.kind]
      exact .failAt hb.token

theorem takeBuffer_agrees : AgreesHere K files takeBuffer takeBuffer (K.Tokens files) :=
  .update (prefix_refl _) (fun _ _ hs => ⟨{ hs with buffer := .nil }, rfl, rfl⟩) fun _ _ hs =>
    .done hs.buffer

theorem token_agrees (himporter : AgreedImporter K files importer importer') (ht : K.token files t u) :
    Agrees K files (token importer t) (token importer' u) fun _ _ _ => True := by
  unfold token
  have trivia : u.isTrivia = t.isTrivia := by
    unfold Token.isTrivia
    rw [K.kind ht]
  rw [trivia, K.kind ht]
  refine .ite (fun _ => .pure trivial) fun _ => ?_
  split
  · exact takeBuffer_agrees.bind fun toks toks' h => .ofHere (header_agrees ht h)
  · refine takeBuffer_agrees.bind fun toks toks' h => ?_
    rw [h.isEmpty_eq]
    exact .ite (fun _ => statement_agrees himporter h) fun _ => .pure trivial
  · refine .get fun s s' hs => ?_
    have last := getLast?_rel hs.buffer
    generalize s.buffer.getLast? = a at last ⊢
    generalize s'.buffer.getLast? = b at last ⊢
    cases last with
    | some hlast => exact .failAt hlast
    | none => exact .ofHere (closeBlock_agrees ht)
  · exact .ofHere finishFile_agrees
  · refine .ofHere (.change fun s s' hs => ⟨{ hs with buffer := ?_ }, rfl, rfl⟩)
    exact hs.buffer.append (.single ht)

theorem AgreedImporter.grow {more : List SourceFile} (h : AgreedImporter K files importer importer')
    (sub : files <+: more) : AgreedImporter K more importer importer' :=
  fun sub' => h (sub.trans sub')

theorem tokens_agrees (himporter : AgreedImporter K files importer importer') (h : K.Tokens files toks toks') :
    Agrees K files (tokens importer toks) (tokens importer' toks') fun _ _ _ => True := by
  induction toks generalizing files toks' with
  | nil =>
    cases h
    exact .pure trivial
  | cons t toks ih =>
    cases h with
    | cons ht hrest =>
      exact (token_agrees himporter ht).bind fun more _ _ sub _ =>
        ih (himporter.grow sub) (Comparison.Tokens.grow hrest sub)

theorem markImported_agrees (key : UInt64) : AgreesHere K files (markImported key) (markImported key) (· = ·) := by
  have changes : markImported key = (get >>= fun s =>
      set { s with context := (s.context.markImported key).2 } >>= fun _ =>
        pure (s.context.markImported key).1) := rfl
  rw [changes]
  refine .update (prefix_refl _) (fun s s' hs => ⟨{ hs with context := ?_ }, rfl, rfl⟩) fun s s' hs => ?_
  · dsimp only
    rw [hs.context]
  · rw [hs.context]
    exact .done rfl

theorem loadFile_agrees (ht : K.token files t u) (path : String) :
    AgreesHere K files (loadFile t path) (loadFile u path) (· = ·) := by
  have changes (t : Token) : loadFile t path = (get >>= fun s =>
      set { s with session := { s.session with library := (s.session.library.load s.file path).2 } } >>= fun _ =>
        (s.session.library.load s.file path).1.casesOn (fun e => fail t (.directive (.noFile path e))) pure) := by
    unfold loadFile
    refine bind_congr fun s => ?_
    generalize s.session.library.load s.file path = found
    obtain ⟨result, library⟩ := found
    cases result <;> rfl
  rw [changes, changes]
  refine .update (prefix_refl _) (fun s s' hs => ⟨{ hs with library := ?_ }, rfl, rfl⟩) fun s s' hs => ?_
  · dsimp only
    rw [hs.library, hs.file]
  · rw [hs.library, hs.file]
    cases (s.session.library.load s.file path).1 with
    | ok source => exact .done rfl
    | error e => exact .failAt ht

def AlikeFile (K : Comparison) (files : List SourceFile) (p q : Program × Context) : Prop :=
  List.Forall₂ (Entry.Alike (K.shown files)) p.1 q.1 ∧ q.2 = p.2

theorem readChild_agrees {x y : Parse Unit} (h : Agrees K files x y fun _ _ _ => True) (place : K.place files t u)
    (opens : ∀ c : State, x K.first { c with last := t } = x K.first c)
    (opens' : ∀ c : State, y K.second { c with last := u } = y K.second c) :
    Agrees K files (readChild x) (readChild y) (AlikeFile K) := by
  intro s s' hs
  have both := h _ _ (hs.child place)
  rw [opens { session := s.session, context := s.context },
    opens' { session := s'.session, context := s'.context }] at both
  obtain ⟨steady, meets⟩ := both
  unfold readChild
  refine ⟨?_, fun notices => ?_⟩
  · generalize y K.second _ = q at steady
    cases q with
    | ok b c' =>
      refine ⟨fun r after same => ?_, steady.notices, steady.names⟩
      cases same
      obtain ⟨more, _, c, sub, _, hc⟩ := steady.result b c' rfl
      exact ⟨more, (c.program, c.context), _, sub, ⟨hc.program, hc.context⟩, hs.withSession sub hc.toShown⟩
    | error e c' =>
      refine ⟨fun r after same => ?_, steady.notices, steady.names⟩
      cases same
  · have met := meets notices
    generalize x K.first _ = p at met
    generalize y K.second _ = q at met
    cases met with
    | ok sub _ hc notices =>
      exact .ok sub ⟨hc.program, hc.context⟩ (hs.withSession sub hc.toShown) notices
    | stop sub stop hc notices => exact .stop sub stop (hs.withSession sub hc).toShown notices
    | early mixed token notices raised names =>
      cases q with
      | ok b c' | error e c' => exact .early mixed token notices raised names

theorem absorb_agrees (ht : K.token files t u) {program program' : Program}
    (h : List.Forall₂ (Entry.Alike (K.shown files)) program program') (context : Context) :
    AgreesHere K files (absorb t program context) (absorb u program' context) (· = ·) := by
  have changes (t : Token) (program : Program) : absorb t program context = (get >>= fun s =>
      set { s with program := s.program ++ program, context := (s.context.absorb context).1 } >>= fun _ =>
        (s.context.absorb context).2.elim (pure ()) fun d => fail t (.directive (.duplicate d))) := by
    unfold absorb
    refine bind_congr fun s => ?_
    generalize s.context.absorb context = found
    obtain ⟨merged, conflict⟩ := found
    cases conflict <;> rfl
  rw [changes, changes]
  refine .update (prefix_refl _) (fun s s' hs => ?_) fun s s' hs => ?_
  · refine ⟨{ hs with program := rel_append hs.program h, context := ?_ }, rfl, rfl⟩
    dsimp only
    rw [hs.context]
  · rw [hs.context]
    cases (s.context.absorb context).2 with
    | none => exact .done rfl
    | some d => exact .failAt ht

def openedFile (s : State) (path text : String) (found : Tokens) : State :=
  { s with
    session := { s.session with files := s.session.files ++ [⟨path, text⟩] }
    file := path
    last := found.tokens.getLastD default }

theorem openFile_eq (text : String) (settings : Settings) (s : State) :
    let found := tokenize (settings.feature .comments) s.session.files.length text
    openFile path text settings s = found.failure.elim (.ok found.tokens (openedFile s path text found))
      fun p => .error (.problem p.1 (.lexical p.2)) (openedFile s path text found) := by
  intro found
  have got : (get : Parse State) settings s = .ok s s := rfl
  have asked : (read : Parse Settings) settings s = .ok settings s := rfl
  have stored (s' : State) : (set s' : Parse PUnit) settings s = .ok ⟨⟩ s' := rfl
  unfold openFile
  rw [reading_bind, got]
  dsimp only
  rw [reading_bind, asked]
  dsimp only
  rw [reading_bind, stored]
  dsimp only
  cases (tokenize (settings.feature .comments) s.session.files.length text).failure <;> rfl

theorem openFile_agrees {text' : String} (source : K.source ⟨path, text⟩ ⟨path, text'⟩)
    (hfound : tokenize (K.first.feature .comments) files.length text = found)
    (hfound' : tokenize (K.first.feature .comments) files.length text' = found')
    (failure : Option.Rel (fun p q => K.place (files ++ [⟨path, text⟩]) p.1 q.1 ∧ q.2 = p.2)
      found.failure found'.failure) (last : found.failure = none →
      K.place (files ++ [⟨path, text⟩]) (found.tokens.getLastD default) (found'.tokens.getLastD default)) :
    Agrees K files (openFile path text) (openFile path text') fun more toks toks' =>
      more = files ++ [⟨path, text⟩] ∧ toks = found.tokens ∧ toks' = found'.tokens := by
  intro s s' hs
  have left : tokenize (K.first.feature .comments) s.session.files.length text = found := by
    rw [hs.opened, hfound]
  -- Equally many files were opened before, so the tokens of both texts get the same number.
  have right : tokenize (K.second.feature .comments) s'.session.files.length text' = found' := by
    have length := congrArg List.length hs.names
    rw [length_map, length_map] at length
    rw [length, K.feature (f := .comments) (by decide), hfound']
  have sub : files <+: files ++ [⟨path, text⟩] := prefix_append _ _
  have shown : State.Shown K (files ++ [⟨path, text⟩]) (openedFile s path text found)
      (openedFile s' path text' found') := by
    refine ⟨hs.context, ?_, congrArg (· ++ _) hs.opened, rel_append hs.sources (.cons source .nil), hs.library⟩
    exact hs.program.imp fun _ _ same => same.imp fun _ _ => K.growShown sub
  have names : s'.session.files.map (·.name) <+: (openedFile s' path text' found').session.files.map (·.name) :=
    (prefix_append _ _).map _
  rw [openFile_eq, openFile_eq, left, right]
  generalize failed : found.failure = a at failure last
  generalize found'.failure = b at failure
  cases failure with
  | none =>
    have states : State.Alike K (files ++ [⟨path, text⟩]) (openedFile s path text found)
        (openedFile s' path text' found') :=
      { hs.withSession sub shown with file := rfl, last := last rfl }
    refine ⟨⟨fun toks after same => ?_, prefix_refl _, names⟩, fun notices => ?_⟩
    · cases same
      exact ⟨_, _, _, sub, ⟨rfl, rfl, rfl⟩, states⟩
    · exact .ok sub ⟨rfl, rfl, rfl⟩ states (notices.grow sub)
  | @some p q h =>
    obtain ⟨t, e⟩ := p
    obtain ⟨u, e'⟩ := q
    obtain ⟨place, rfl⟩ : K.place _ t u ∧ e' = e := h
    refine ⟨⟨fun toks after same => ?_, prefix_refl _, names⟩, fun notices => ?_⟩
    · cases same
    · exact .stop sub (.problem place _) shown (notices.grow sub)

theorem tokenize_last {comments : Bool} (whole : (tokenize comments file text).failure = none) :
    (tokenize comments file text).tokens.getLastD default ∈ (tokenize comments file text).tokens := by
  obtain ⟨body, final, ends, -⟩ := Tokens.scan_ends _ _ _ _ whole
  unfold tokenize
  rw [ends, getLastD_concat]
  exact mem_append_right _ (.head _)

theorem openSame_agrees {path : String}
    (hfound : tokenize (K.first.feature .comments) files.length text = found)
    (opened : K.Tokens (files ++ [⟨path, text⟩]) found.tokens found.tokens)
    (unopened : ∀ t e, found.failure = some (t, e) → K.place (files ++ [⟨path, text⟩]) t t) :
    Agrees K files (openFile path text) (openFile path text) fun more toks toks' =>
      more = files ++ [⟨path, text⟩] ∧ K.Tokens more toks toks' := by
  have failure : Option.Rel (fun p q => K.place (files ++ [⟨path, text⟩]) p.1 q.1 ∧ q.2 = p.2) found.failure
      found.failure := by
    generalize found.failure = failure at unopened
    cases failure with
    | none => exact .none
    | some p => exact .some ⟨unopened p.1 p.2 rfl, rfl⟩
  have last (whole : found.failure = none) :
      K.place (files ++ [⟨path, text⟩]) (found.tokens.getLastD default) (found.tokens.getLastD default) := by
    subst hfound
    exact K.atToken (forall₂_same.mp opened _ (tokenize_last whole))
  refine (openFile_agrees path (K.sourceSame _) hfound hfound failure last).mono fun more toks toks' _ h => ?_
  obtain ⟨rfl, rfl, rfl⟩ := h
  exact ⟨rfl, opened⟩

theorem readImported_agrees {n : Nat} (himporter : ∀ files, AgreedImporter K files (importFile n) (importFile n))
    (ht : K.token files t u) (source : Source) :
    Agrees K files
      (do
        let (program, context) ← readChild do
          let toks ← openFile source.path source.text
          tokens (importFile n) toks
        absorb t program context)
      (do
        let (program, context) ← readChild do
          let toks ← openFile source.path source.text
          tokens (importFile n) toks
        absorb u program context) fun _ _ _ => True := by
  have child : Agrees K files
      (openFile source.path source.text >>= fun toks => tokens (importFile n) toks)
      (openFile source.path source.text >>= fun toks => tokens (importFile n) toks) fun _ _ _ => True :=
    (openSame_agrees rfl (forall₂_same.mpr fun _ => K.opened ht) fun _ _ => K.unopened ht).bind fun more _ _ _ h =>
      tokens_agrees (himporter more) h.2
  refine (readChild_agrees child (K.atToken ht) (fun _ => rfl) fun _ => rfl).bind fun more p q sub h => ?_
  obtain ⟨program, context⟩ := p
  obtain ⟨program', context'⟩ := q
  obtain ⟨hprogram, rfl⟩ : List.Forall₂ _ program program' ∧ context' = context := h
  exact .ofHere (absorb_agrees (K.grow sub ht) hprogram context')

theorem importFile_agrees_of {fuel : Nat}
    (himporter : ∀ n, fuel = n + 1 → ∀ files, AgreedImporter K files (importFile n) (importFile n))
    (ht : K.token files t u) (path : String) :
    Agrees K files (importFile fuel t path) (importFile fuel u path) fun _ _ _ => True := by
  have node {form : Form Node} (none : form.children = []) :
      Node.Alike (K.token files) (.plain t form) (.plain u form) :=
    (Node.Twins.leaf none ht).alike
  unfold importFile
  refine .ite (fun _ => ?_) fun _ => ?_
  · refine (markImported_agrees _).same fun isNew => ?_
    exact .ite (fun _ => .ofHere (emit_agrees (node rfl))) fun _ => .pure trivial
  · refine (loadFile_agrees ht path).same fun source => ?_
    refine (markImported_agrees _).same fun isNew => ?_
    refine .ite (fun _ => ?_) fun _ => .ofHere (.warn ht rfl)
    refine (emit_agrees (node rfl)).same fun _ => ?_
    cases fuel with
    | zero => exact .fault _
    | succ n => exact readImported_agrees (himporter n rfl) ht source

theorem importFile_agrees (files : List SourceFile) : AgreedImporter K files (importFile fuel) (importFile fuel) := by
  induction fuel generalizing files with
  | zero => exact fun _ ht path => importFile_agrees_of (fun n h => absurd h.symm n.succ_ne_zero) ht path
  | succ fuel ih =>
    -- The files that an imported file imports have one step less.
    refine fun _ ht path => importFile_agrees_of (fun n h => ?_) ht path
    obtain rfl := Nat.succ.inj h
    exact ih

/-- What comes before the tokens of the main file: it is opened, and the builtin module is imported. -/
def enterMain (fuel : Nat) (path text : String) : Parse (List Token) := do
  let toks ← openMain path text
  if (← read).feature .builtin then
    importFile fuel (builtinToken (← get)) Standard.builtinPath
  return toks

theorem mainFile_eq_enterMain (text : String) :
    mainFile fuel path text = enterMain fuel path text >>= tokens (importFile fuel) := by
  unfold mainFile enterMain openMain
  generalize Standard.builtinPath = builtin
  simp only [bind_assoc]
  refine bind_congr fun _ => bind_congr fun toks => bind_congr fun settings => ?_
  split
  · simp only [bind_assoc, pure_bind]
    rfl
  · rfl

theorem enterMain_agrees {text' : String} {R : List Token → List Token → Prop}
    (opens : Agrees K [] (openFile path text) (openFile path text') fun more toks toks' =>
      more = [⟨path, text⟩] ∧ R toks toks')
    (builtin : K.token [⟨path, text⟩] ⟨.endOfFile, "", 0, 1, 1, 0⟩ ⟨.endOfFile, "", 0, 1, 1, 0⟩) :
    Agrees K [] (enterMain fuel path text) (enterMain fuel path text') fun more toks toks' =>
      [⟨path, text⟩] <+: more ∧ R toks toks' := by
  have main : Agrees K [] (openMain path text) (openMain path text') _ :=
    (markImported_agrees _).same fun _ => opens
  unfold enterMain
  refine main.bind fun more toks toks' _ h => .read ?_
  obtain ⟨rfl, found⟩ := h
  rw [K.feature (f := .builtin) (by decide)]
  refine .ite (fun _ => .get fun s s' hs => ?_) fun _ => .pure ⟨prefix_refl _, found⟩
  have length : s'.session.files.length = s.session.files.length := by
    rw [← length_map (f := fun file => file.name), hs.names, length_map, hs.opened]
  unfold builtinToken
  rw [length, hs.opened]
  refine (importFile_agrees fuel _ (prefix_refl _) builtin _).bind fun more _ _ sub _ => ?_
  exact .pure ⟨sub, found⟩

theorem mainFile_agrees {path : String}
    (opened : ∀ t ∈ (tokenize (K.first.feature .comments) 0 text).tokens, K.token [⟨path, text⟩] t t)
    (unopened : ∀ t e, (tokenize (K.first.feature .comments) 0 text).failure = some (t, e) → K.place [⟨path, text⟩] t t)
    (builtin : K.token [⟨path, text⟩] ⟨.endOfFile, "", 0, 1, 1, 0⟩ ⟨.endOfFile, "", 0, 1, 1, 0⟩) :
    Agrees K [] (mainFile fuel path text) (mainFile fuel path text) fun _ _ _ => True := by
  have opens : Agrees K [] (openFile path text) (openFile path text) fun more toks toks' =>
      more = [⟨path, text⟩] ∧ K.Tokens [⟨path, text⟩] toks toks' := by
    refine (openSame_agrees rfl (forall₂_same.mpr opened) unopened).mono fun more toks toks' _ h => ?_
    obtain ⟨rfl, found⟩ := h
    exact ⟨rfl, found⟩
  rw [mainFile_eq_enterMain]
  exact (enterMain_agrees fuel path opens builtin).bind fun more toks toks' _ h =>
    tokens_agrees (importFile_agrees fuel more) (h.2.grow h.1)

end Impulse.Parse
