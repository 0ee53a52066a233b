import Impulse.Reading.Block

/-!
# Statements

What ends with a semicolon: declarations, assignments, calls, returns, jumps and directives. How files are
imported is a parameter here.
-/

namespace Impulse.Parse

abbrev Importer := Token → String → Parse Unit

def directive (importer : Importer) (t : Token) (toks : List Token) : Parse Unit := do
  let (name, args) ← expect ((t :: toks).getLastD t) .ident (.expected "a macro name after '@'") toks
  match Directive.ofName? name.value with
  | none => fail name (.directive (.unknown name.value))
  | some .inlined | some .shared => fail name (.directive (.beforeFunction name.value))
  | some d =>
    match args with
    | [arg] =>
      if arg.kind ≠ .string then fail name (.directive (.oneString name.value))
      else if d = .importing then
        if (← get).depth > 0 then fail name (.directive .importNotAtTop)
        else importer arg arg.value
      else emit (.embedded name arg.value)
    | _ => fail name (.directive (.oneString name.value))

def assignment (eq : Token) (left right : List Token) : Parse Unit := do
  match left, right with
  | [], _ => fail eq (.expected "a target before '='")
  | t :: _, right =>
    requireFunction t
    if right.isEmpty then fail eq (.expected "a value after '='")
    let target ← expression left .absent
    if !target.isPlace then fail t (.block (.notAssignable target.text))
    let s ← get
    match target.rootName? with
    | none => pure ()
    | some root =>
      match s.context.resolve? s.scope root with
      | some x => if x.const then fail t (.block (.constantAssigned root))
      | none => pure ()
    let want := target.ty.resolved
    let value ← expression right want
    if !want.accepts value then
      mismatch (right.headD eq) (.assignment value.text value.ty target.text want)
    emit (.assignment t target value)

/-- An expression as a statement. Only calls and embedded code do something. -/
def effect (t : Token) (toks : List Token) : Parse Unit := do
  requireFunction t
  let n ← expression toks .absent
  match n with
  | .node _ _ (.call _ _) | .node _ _ (.embed _) => emit n
  | _ => warn t (.noEffect n.text)

/-- The value of a return, checked against the result type of the function. -/
def resultValue (f : FunctionInfo) (t : Token) (toks : List Token) : Parse Node := do
  match toks with
  | [] =>
    if !f.ret.isVoid then mismatch t (.missingResult f.name f.ret)
    return .absent
  | first :: _ =>
    let value ← expression toks f.ret
    if f.ret.isVoid then mismatch t (.superfluousResult f.name)
    else if !f.ret.accepts value then
      mismatch first (.result value.text value.ty f.name f.ret)
    return value

/-- A return. What is deferred in the open blocks of the function runs before it. -/
def returnStatement (t : Token) (toks : List Token) : Parse Unit := do
  let s ← get
  match s.function with
  | none => fail t (.block .resultOutsideFunction)
  | some f =>
    if s.deferral.isRecording then fail t (.block .resultInDefer)
    let value ← resultValue f t toks
    if (← read).feature .deferReturn then
      let s ← get
      emitAll (s.deferral.pending s.depth f.depth)
    emit (.returned t value)

def jump (t : Token) (toks : List Token) : Parse Unit := do
  requireFunction t
  nothingMore (.afterWord t.text) toks
  if !State.canJump (← get).blocks then fail t (.block (.outsideLoop t.text))
  emit (.plain t (if t.kind = .kwBreak then .leave else .again))

/-- A statement that is neither a field nor stands in a switch. -/
def plainStatement (importer : Importer) (t : Token) (rest : List Token) : Parse Unit := do
  let toks := t :: rest
  match t.kind, rest with
  | .atSign, _ => directive importer t rest
  | .kwReturn, _ => returnStatement t rest
  | .kwBreak, _ | .kwContinue, _ => jump t rest
  | kind, sign :: after =>
    if kind = .ident && sign.kind = .colon then variableDeclaration false t sign after
    else if kind = .ident && sign.kind = .doubleColon then variableDeclaration true t sign after
    else match Token.cutTop? .equals toks with
      | some (left, eq, right) => assignment eq left right
      | none => effect t toks
  | _, [] =>
    match Token.cutTop? .equals toks with
    | some (left, eq, right) => assignment eq left right
    | none => effect t toks

def statement (importer : Importer) (toks : List Token) : Parse Unit := do
  modify fun s => { s with afterBranch := false }
  match toks with
  | [] => return
  | t :: rest =>
    let s ← get
    match s.record, s.function with
    | some r, none => recordField r t rest
    | _, _ =>
      if s.inSwitch then fail t (.block .statementInSwitch)
      plainStatement importer t rest

/-- A header that begins with a name: a struct, an enum or a function. -/
def namedHeader (brace t : Token) (rest : List Token) : Parse Unit :=
  match rest with
  | sign :: word :: after =>
    if sign.kind ≠ .doubleColon then fail t (.block (.noHeader t.value))
    else if word.kind = .kwStruct then structDefinition brace t after
    else if word.kind = .kwEnum then enumDefinition brace t after
    else if word.kind = .lparen then functionDefinition brace (t :: rest)
    else fail word (.expected "'struct', 'enum' or a parameter list after '::'")
  | _ => fail t (.block (.noHeader t.value))

def startsArm (t : Token) : Bool :=
  t.kind = .kwCase || t.kind = .kwFallthrough || t.kind = .kwDefault

/-- What the header of a block does, by its first token. -/
def headerOf (afterBranch : Bool) (brace t : Token) (rest : List Token) : Parse Unit :=
  if (t.kind = .kwOrIf || t.kind = .kwElse) && !afterBranch then
    fail t (.block (.noBranchBefore t.text))
  else match t.kind with
    | .atSign => functionDefinition brace (t :: rest)
    | .kwIf => conditionalBranch .when brace t rest
    | .kwOrIf => conditionalBranch .orWhen brace t rest
    | .kwElse => otherwiseBranch brace t rest
    | .kwSwitch => switchBlock brace t rest
    | .kwCase | .kwFallthrough | .kwDefault => armBlock brace t rest
    | .kwLoop => loopBlock brace t rest
    | .kwFor => iterateBlock brace t rest
    | .kwDefer => deferBlock brace t rest
    | .ident => namedHeader brace t rest
    | _ => fail t (.unexpected t.text .beforeBlock)

def header (brace : Token) (toks : List Token) : Parse Unit := do
  let s ← get
  modify fun s => { s with afterBranch := false }
  match toks with
  | [] => bareBlock brace
  | t :: rest =>
    match s.record with
    | some (.enum d) => fail t (.block (.nestedInEnum d.name))
    | _ => pure ()
    if s.inSwitch && !startsArm t then fail t (.block .onlyCasesInSwitch)
    headerOf s.afterBranch brace t rest

end Impulse.Parse
