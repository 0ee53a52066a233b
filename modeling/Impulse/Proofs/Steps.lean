import Impulse.Proofs.Change
import Impulse.Proofs.Names
import Impulse.Reading

/-!
# Everything that reading a file can do

Reading a file changes its state in a fixed number of ways. `State.Step` lists them, each with what was tested
before: a statement that stands alone, a declaration, the beginning of a block, the fields of a record, and the
end of a block. `State.Steps` closes the list under sequences and imports. What holds of every state of every
reading is shown once for each way, and follows for sequences of them by `State.Steps.invariant`.

## Design notes

Expressions appear in the steps by what reading them gives, so that nothing that was known when a node was
built is lost. A step that adds a node and opens a block is one step: between the two the program and the open
blocks do not fit together.
-/

namespace Impulse

variable {s : State}

def Context.registered (c : Context) (sig : Signature) (file : String) : Context :=
  let c := { c with functions := c.functions.add sig.name sig file }
  if sig.method = "" then c
  else
    let d := (c.structs.get? sig.method).getD { name := "" }
    let d := { d with methods := d.methods ++ [sig.name] }
    { c with structs := c.structs.add sig.method d ((c.structs.origin? sig.method).getD "") }

/-- A list is not longer than the array it is put into, if the length of the array is a numeral. -/
def Ty.Holds (ty : Ty) (value : Node) : Prop :=
  ∀ elem length t listTy elems size, ty = .array elem length → value = .node t listTy (.list elems) →
    Text.size? length = some size → (elems.length : Int) ≤ size

/-- How the type of a variable follows from its written type and its value: a list gives an open array its
length. -/
inductive Ty.Lengthened (ty : Ty) (value : Node) : Ty → Prop
  | same (holds : ty.Holds value) : Lengthened ty value ty
  | counted {elem listTy : Ty} {t : Token} {elems : List Node} (open' : ty = .array elem "")
      (list : value = .node t listTy (.list elems)) :
      Lengthened ty value (.array elem (toString elems.length))

/-- What a return gives back: nothing, or a value that fits the result type of the function. -/
inductive View.Results (v : View) (f : FunctionInfo) : Node → Prop
  | nothing (fits : f.ret.isVoid = true ∨ v.Lax) : Results v f .absent
  | value {toks : List Token} {value : Node}
      (read : Infer.Gives v (Infer.expression toks f.ret) value)
      (fits : f.ret.isVoid = false ∧ f.ret.accepts value = true ∨ v.Lax) : Results v f value

/-- The type and the value that a declaration gives a variable whose written type is `written`. -/
inductive View.Initial (v : View) (written : Ty) : Ty → Node → Prop
  | none : Initial v written written .absent
  | value {toks : List Token} {value : Node} {ty : Ty}
      (read : Infer.Gives v (Infer.expression toks written) value)
      (length : written.Lengthened value ty) (fits : ty.accepts value = true ∨ v.Lax) :
      Initial v written ty value

def Node.isConditional : Node → Bool
  | .node _ _ (.branch kind _ _ _) => kind != .otherwise
  | _ => false

def Node.isAlternative : Node → Bool
  | .node _ _ (.branch kind _ _ _) => kind != .when
  | _ => false

namespace State

def finishedFields (s : State) (d : StructDraft) : State :=
  let known : State := { s with
    record := some (.struct { d with fieldsOpen := false })
    context := { s.context with
      structs := s.context.structs.add d.name
        { name := d.name, fields := d.fields, generics := d.generics } s.file } }
  (known.emitted (.plain d.token (.structBody d.name d.generics d.fields))).emitted
    (.plain d.token (.structEnd d.name))

def finishedEnum (s : State) (d : EnumDraft) : State :=
  let known : State := { s with context := { s.context with
    enums := s.context.enums.add d.name { name := d.name, fields := d.fields } s.file
    globals := (Parse.enumConstants d).foldl (fun t x => t.add x.name x s.file)
      s.context.globals } }
  ((known.emitted (.plain d.token (.enumBody d.name d.fields))).emitted
    (.declaration d.token (d.name ++ ".field_count") .int
      (.numeral d.token (toString d.fields.length) .int) true true true)).emitted
    (.plain d.token (.enumEnd d.name))

def entered (s : State) (t brace : Token) (sig : Signature) (placeholders : List String) : State :=
  let known : State := { s with context := s.context.registered sig s.file }
  let inside := (known.emitted (.functionOf t sig)).opened
    { kind := .function, token := brace, framed := true }
  { inside with
    function := some
      { name := sig.name, ret := sig.ret, placeholders := placeholders, depth := inside.depth } }

def recorded (s : State) (r : Record) (t brace : Token) (form : Form Node) : State :=
  let known : State := { s with record := some r }
  (known.emitted (.plain t form)).opened { kind := r.kind, token := brace, framed := false }

/-- The state after a block that is neither a record nor deferred was closed. `scope` is what remains of the
scope. -/
def closed (s : State) (b : Block) (rest : List Block) (t : Token) (scope : Scope) : State :=
  let depth := rest.length + 1
  let shut : State := { s with
    blocks := rest
    afterBranch := b.kind = .branch
    deferral := s.deferral.without depth }
  let ended := (shut.emittedAll (s.deferral.statementsAt depth)).emitted (.plain t .blockEnd)
  if b.kind = .function then
    { ended with scope := scope, deferral := ended.deferral.below depth, function := none }
  else { ended with scope := scope }

def noted (s : State) (t : Token) (source : Source) : State :=
  let marked : State := { s with context := (s.context.markImported source.key).2 }
  marked.emitted (.plain t (.source source.path))

/-- Nothing is read yet. -/
abbrev unread (library : Library) : State :=
  { session := { library := library }, context := .initial }

def child (s : State) (source : Source) (last : Token) : State :=
  { session := { s.session with files := s.session.files ++ [⟨source.path, source.text⟩] }
    context := s.context
    file := source.path
    last := last }

def absorbed (s c : State) (merged : Context) : State :=
  { s with session := c.session, program := s.program ++ c.program, context := merged }

theorem noted_direct (h : s.deferral.recording = none) (t : Token) (source : Source) :
    s.noted t source = { s with
      context := (s.context.markImported source.key).2
      program := s.program ++ [Entry.of (.plain t (.source source.path)) s.file] } :=
  emitted_direct (s := { s with context := (s.context.markImported source.key).2 }) _ h

@[simp] theorem finishedEnum_blocks (s : State) (d : EnumDraft) : (s.finishedEnum d).blocks = s.blocks := by
  simp [finishedEnum]

section Closed

variable (s : State) (b : Block) (rest : List Block) (t : Token) (scope : Scope)

@[simp] theorem closed_blocks : (s.closed b rest t scope).blocks = rest := by
  unfold closed
  split <;> simp

@[simp] theorem closed_scope : (s.closed b rest t scope).scope = scope := by
  unfold closed
  split <;> rfl

@[simp] theorem closed_record : (s.closed b rest t scope).record = s.record := by
  unfold closed
  split <;> simp

@[simp] theorem closed_context : (s.closed b rest t scope).context = s.context := by
  unfold closed
  split <;> simp

@[simp] theorem closed_buffer : (s.closed b rest t scope).buffer = s.buffer := by
  unfold closed
  split <;> simp

@[simp] theorem closed_session : (s.closed b rest t scope).session = s.session := by
  unfold closed
  split <;> simp

theorem closed_function : (s.closed b rest t scope).function = if b.kind = .function then none else s.function := by
  unfold closed
  split <;> simp

@[simp] theorem closed_isRecording : (s.closed b rest t scope).deferral.isRecording = s.deferral.isRecording := by
  unfold closed
  split
  · exact (emitted_isRecording _ _).trans (emittedAll_isRecording _ _)
  · exact (emitted_isRecording _ _).trans (emittedAll_isRecording _ _)

theorem closed_groups : (s.closed b rest t scope).deferral.groups = if b.kind = .function
      then ((s.deferral.without (rest.length + 1)).below (rest.length + 1)).groups
      else (s.deferral.without (rest.length + 1)).groups := by
  unfold closed
  split
  · simp only [Deferral.below, emitted_groups, emittedAll_groups]
  · simp only [emitted_groups, emittedAll_groups]

end Closed

variable (settings : Settings)

inductive Writes (s : State) : Node → Prop
  | embed (t : Token) (code : String) : Writes s (.embedded t code)
  | assign (t : Token) {left right : List Token} {target value : Node} (inside : s.function ≠ none)
      (readTarget : Infer.Gives (s.view settings) (Infer.expression left .absent) target)
      (place : target.isPlace = true)
      (noConstant : ∀ root x, target.rootName? = some root →
        s.context.resolve? s.scope root = some x → x.const = false)
      (readValue : Infer.Gives (s.view settings) (Infer.expression right target.ty.resolved) value)
      (fits : target.ty.resolved.accepts value = true ∨ (s.view settings).Lax) :
      Writes s (.assignment t target value)
  | call {toks : List Token} {t : Token} {ty : Ty} {f : String} {args : List Node}
      (inside : s.function ≠ none)
      (read : Infer.Gives (s.view settings) (Infer.expression toks .absent)
        (.node t ty (.call f args))) : Writes s (.node t ty (.call f args))
  | code {toks : List Token} {t : Token} {ty : Ty} {text : String} (inside : s.function ≠ none)
      (read : Infer.Gives (s.view settings) (Infer.expression toks .absent)
        (.node t ty (.embed text))) : Writes s (.node t ty (.embed text))
  | leave (t : Token) (inside : s.function ≠ none) (target : canJump s.blocks = true) :
      Writes s (.plain t .leave)
  | again (t : Token) (inside : s.function ≠ none) (target : canJump s.blocks = true) :
      Writes s (.plain t .again)

inductive Opens (s : State) : Node → Block → Prop
  | bare (brace : Token) (inside : s.function ≠ none) :
      Opens s (.plain brace .blockStart) { kind := .bare, token := brace, framed := true }
  | branch (brace t : Token) (kind : BranchKind) (capture : String) (captureTy : Ty)
      {opened : Token} {toks : List Token} {cond : List Node} (inside : s.function ≠ none)
      (noSwitch : s.inSwitch = false) (conditional : kind ≠ .otherwise)
      (read : Infer.Gives (s.view settings) (Infer.condition opened toks) cond) :
      Opens s (.plain t (.branch kind cond capture captureTy))
        { kind := .branch, token := brace, framed := true }
  | otherwise (brace t : Token) (inside : s.function ≠ none) (noSwitch : s.inSwitch = false) :
      Opens s (.plain t (.branch .otherwise [] "" .absent))
        { kind := .otherwise, token := brace, framed := true }
  | switch (brace t : Token) {toks : List Token} {value : Node} (inside : s.function ≠ none)
      (noSwitch : s.inSwitch = false)
      (read : Infer.Gives (s.view settings) (Infer.expression toks .absent) value) :
      Opens s (.plain t (.switch value))
        { kind := .switch, token := brace, framed := true, value := value.ty.resolved }
  | arm (brace t : Token) (fall isDefault : Bool) {b : Block} {rest : List Block}
      {values : List Node} (blocks : s.blocks = b :: rest) (kind : b.kind = .switch)
      (read : ∀ n ∈ values, ∃ toks, Infer.Gives (s.view settings) (Infer.expression toks b.value) n)
      (fits : ∀ n ∈ values, b.value.isAbsent = true ∨ b.value.accepts n = true ∨
        (s.view settings).Lax) :
      Opens s (.plain t (.arm values fall isDefault)) { kind := .arm, token := brace, framed := true }
  | iterate (brace t : Token) (elem index : String) {elemTy : Ty} {toks : List Token}
      {subject : Node} (inside : s.function ≠ none) (noSwitch : s.inSwitch = false)
      (read : Infer.Gives (s.view settings) (Infer.expression toks .absent) subject)
      (element : subject.ty.resolved.element? = some elemTy) :
      Opens s (.plain t (.iterate elem index elemTy subject))
        { kind := .iterate, token := brace, framed := true }

theorem Opens.unmarked (h : s.Opens settings n b) :
    State.Opens settings { s with afterBranch := false } n b := by
  cases h <;> constructor <;> assumption

/-- The node that declares the counter of a loop, if the loop introduces it, the name of the counter, which is empty
if the loop has none, and the state afterwards. -/
inductive Counts (s : State) : Node → String → State → Prop
  | known {counter : String}
      (spelled : counter = "" ∨ ∃ path, counter = s.context.spell s.scope path) :
      Counts s .absent counter s
  | introduced (t : Token) {s' : State}
      (declared : s.Declares { name := t.value, ty := .usize } s')
      (noPoint : Text.contains t.value '.' = false) :
      Counts s (.declaration t t.value .usize (.numeral t "0" .usize) false false false) t.value s'

/-- One change that reading a file makes to its state. -/
inductive Step : State → State → Prop
  | idle (s : State) (notices : List Notice) (buffer : List Token) (marked : Bool)
      (lexed : ∀ t ∈ buffer, t ∈ s.buffer ∨ t.Lexed) :
      Step s { Parse.withNotices s notices with
        buffer := buffer, afterBranch := marked && s.afterBranch }
  | load (s : State) (path : String) :
      Step s { s with session := { s.session with
        library := (s.session.library.load s.file path).2 } }
  | mark (s : State) (key : UInt64) : Step s { s with context := (s.context.markImported key).2 }
  | header {s : State} (t : Token) (path : String) (bottom : s.blocks = [])
      (isNew : (s.context.markImported (sourceKey path)).1 = true) :
      Step s (State.emitted { s with context := (s.context.markImported (sourceKey path)).2 }
        (.plain t (.header path)))
  | write {s : State} {n : Node} (h : s.Writes settings n) (noSwitch : s.inSwitch = false)
      (unmarked : s.afterBranch = false) : Step s (s.emitted n)
  | result {s : State} (t : Token) {f : FunctionInfo} {value : Node} {pending : List Node}
      (inside : s.function = some f) (direct : s.deferral.isRecording = false)
      (noSwitch : s.inSwitch = false) (h : (s.view settings).Results f value)
      (deferred : settings.feature .deferReturn = false ∧ pending = [] ∨
        settings.feature .deferReturn = true ∧ pending = s.deferral.pending s.depth f.depth)
      (unmarked : s.afterBranch = false) : Step s ((s.emittedAll pending).emitted (.returned t value))
  | declare {s s' : State} {x : Variable} (complete : x.ty.isComplete = true)
      (h : s.Declares x s') (inside : s.function ≠ none) (unknown : x.value = "") : Step s s'
  | define {s s' : State} (t : Token) {x : Variable} {toks : List Token} {written : Ty}
      {value : Node} (h : s.Declares x s') (noSwitch : s.inSwitch = false)
      (noRecord : s.record = none ∨ s.function ≠ none)
      (typed : TypeExpr.ofTokens (s.view settings) false toks = .ok written)
      (initial : (s.view settings).Initial written x.ty value) (plain : PlainName x.name)
      (unmarked : s.afterBranch = false) (valued : x.value = Parse.constantText x.const value) :
      Step s (s'.emitted (.declaration t x.name x.ty value x.const s.function.isNone false))
  | begin {s : State} {n : Node} {b : Block} (h : s.Opens settings n b)
      (follows : n.isAlternative = true → s.afterBranch = true) :
      Step s ((State.emitted { s with afterBranch := false } n).opened b)
  | loop {s s' : State} (brace t opened : Token) (counter : String) (step : Impulse.Step)
      {toks : List Token} {init : Node} {cond : List Node} (inside : s.function ≠ none)
      (noSwitch : s.inSwitch = false)
      (counts : (s.opened { kind := .loop, token := brace, framed := true }).Counts init counter s')
      (read : Infer.Gives (s'.view settings) (Infer.condition opened toks) cond)
      (counted : step ≠ .stay → counter ≠ "" ∧
        ∃ x, s'.context.resolvePath? s'.scope counter = some x ∧ x.ty.isNumeric = true)
      (unmarked : s.afterBranch = false) :
      Step s (s'.emitted (.plain t (.loop init counter cond step)))
  | defer {s : State} (brace : Token) (inside : s.function ≠ none)
      (direct : s.deferral.isRecording = false) (noSwitch : s.inSwitch = false)
      (unmarked : s.afterBranch = false) :
      Step s { s.opened { kind := .deferred, token := brace, framed := true } with
        deferral := s.deferral.start }
  | fields {s : State} {d : StructDraft} (record : s.record = some (.struct d))
      (openFields : d.fieldsOpen = true) (outside : s.function = none) : Step s (s.finishedFields d)
  | function {s : State} (t brace : Token) {sig : Signature} (placeholders : List String)
      (outside : s.function = none)
      (place : s.record = none ∧ s.blocks = [] ∧ sig.method = "" ∨
        ∃ d, s.record = some (.struct d) ∧ d.fieldsOpen = false ∧ sig.method = d.name)
      (fresh : s.context.definedIn? sig.name = none) (complete : sig.Complete)
      (named : (s.record = none → PlainName sig.name) ∧
        ∀ d, s.record = some (.struct d) → ∃ own, PlainName own ∧ sig.name = d.name ++ "." ++ own) :
      Step s (s.entered t brace sig placeholders)
  | struct {s : State} (t brace : Token) {name : String} (generics : List String)
      (outside : s.function = none) (noRecord : s.record = none)
      (fresh : s.context.definedIn? name = none) (plain : PlainName name) :
      Step s (s.recorded (.struct { name := name, token := t, generics := generics }) t brace
        (.structName name))
  | enum {s : State} (t brace : Token) {name : String} (outside : s.function = none)
      (noRecord : s.record = none) (fresh : s.context.definedIn? name = none)
      (plain : PlainName name) :
      Step s (s.recorded (.enum { name := name, token := t }) t brace (.enumName name))
  | structField {s : State} {d : StructDraft} {name : String} {toks : List Token} {ty : Ty}
      (record : s.record = some (.struct d)) (outside : s.function = none)
      (openFields : d.fieldsOpen = true)
      (typed : TypeExpr.ofTokens (s.view settings) false toks = .ok ty) :
      Step s { s with record := some (.struct { d with fields := d.fields ++ [⟨name, ty⟩] }) }
  | enumField {s : State} {d : EnumDraft} {name : String} (record : s.record = some (.enum d))
      (outside : s.function = none) (fresh : name ∉ d.fields) :
      Step s { s with record := some (.enum { d with fields := d.fields ++ [name] }) }
  | closeStruct {s : State} {b : Block} {rest : List Block} {d : StructDraft}
      (blocks : s.blocks = b :: rest) (kind : b.kind = .struct)
      (record : s.record = some (.struct d)) (complete : d.fieldsOpen = false) :
      Step s { s with blocks := rest, afterBranch := false, record := none }
  | closeEnum {s : State} {b : Block} {rest : List Block} {d : EnumDraft}
      (blocks : s.blocks = b :: rest) (kind : b.kind = .enum)
      (record : s.record = some (.enum d)) :
      Step s { s.finishedEnum d with blocks := rest, afterBranch := false, record := none }
  | closeDeferred {s : State} {b : Block} {rest : List Block} {scope : Scope}
      (blocks : s.blocks = b :: rest) (kind : b.kind = .deferred)
      (popped : s.scope.pop? = some scope) :
      Step s { s with
        blocks := rest, afterBranch := false, scope := scope
        deferral := s.deferral.finish rest.length }
  | closeOther {s : State} (t : Token) {b : Block} {rest : List Block} {scope : Scope}
      (blocks : s.blocks = b :: rest)
      (kind : b.kind ≠ .struct ∧ b.kind ≠ .enum ∧ b.kind ≠ .deferred)
      (popped : if b.framed then s.scope.pop? = some scope else scope = s.scope) :
      Step s (s.closed b rest t scope)

/-- Sequences of changes, with the imports between them. An imported file is read in a state of its own, and
what it found is taken over when nothing is open in it. -/
inductive Steps : State → State → Prop
  | refl (s : State) : Steps s s
  | step {s s₁ s₂ : State} (h : Steps s s₁) (h' : Step settings s₁ s₂) : Steps s s₂
  | imports {s s₁ c : State} {t last : Token} {source : Source} {merged : Context}
      (h : Steps s s₁) (bottom : s₁.blocks = [])
      (isNew : (s₁.context.markImported source.key).1 = true)
      (inner : Steps ((s₁.noted t source).child source last) c) (done : c.blocks = [])
      (read : c.buffer = [])
      (taken : (s₁.noted t source).context.absorb c.context = (merged, none)) :
      Steps s ((s₁.noted t source).absorbed c merged)

namespace Steps

variable {settings}

theorem single (h : Step settings s s') : Steps settings s s' :=
  .step (.refl s) h

theorem trans (h : Steps settings s s₁) (h' : Steps settings s₁ s₂) : Steps settings s s₂ := by
  induction h' with
  | refl => exact h
  | step _ h' ih => exact .step (ih h) h'
  | imports _ bottom isNew inner done read taken ih _ =>
    exact .imports (ih h) bottom isNew inner done read taken

/-- What every change keeps, what holds at the start of an imported file, and what is kept when it is taken
over, is kept by every reading. -/
theorem invariant {P : State → Prop} (step : ∀ {s s'}, P s → Step settings s s' → P s')
    (start : ∀ {s t source last}, P s → s.blocks = [] → P ((s.noted t source).child source last))
    (absorb : ∀ {s t source last c merged}, P s → s.blocks = [] →
      Steps settings ((s.noted t source).child source last) c → P c → c.blocks = [] →
      (s.noted t source).context.absorb c.context = (merged, none) → P ((s.noted t source).absorbed c merged))
    (h : Steps settings s s') (hs : P s) : P s' := by
  induction h with
  | refl => exact hs
  | step _ h' ih => exact step (ih hs) h'
  | imports _ bottom _ inner done _ taken ih ihChild =>
    exact absorb (ih hs) bottom inner (ihChild (start (ih hs) bottom)) done taken

end Steps

end State

end Impulse
