import Impulse.Condition
import Impulse.Reading.Definition

/-!
# Blocks of control flow

The headers of branches, switches, loops, iterations and deferred blocks, and the end of every block.
-/

namespace Impulse.Parse

/-- The tokens between the parentheses behind a word, the open parenthesis, and the tokens behind. -/
def parenthesized (word : String) (toks : List Token) :
    Parse (Token × List Token × List Token) := do
  let (opened, toks) ← expect (← finalOf toks) .lparen (.expected ("'(' after '" ++ word ++ "'")) toks
  let (inner, rest) ← closing opened toks
  return (opened, inner, rest)

def bareBlock (brace : Token) : Parse Unit := do
  if (← get).function.isNone then fail brace (.block .blockOutsideFunction)
  emit (.plain brace .blockStart)
  openBlock { kind := .bare, token := brace, framed := true }

def captureName? (final : Token) (toks : List Token) : Parse (Option Token × List Token) := do
  match toks with
  | [] => return (none, [])
  | t :: rest =>
    if t.kind ≠ .pipe then return (none, toks)
    else
      let (name, rest) ← expect final .ident (.expected "a capture name between '|'") rest
      let (_, rest) ← expect final .pipe (.expected "'|' after the capture name") rest
      return (some name, rest)

/-- The type of what is captured: the condition is one variable of type `Option`, and its value is
captured. -/
def captureType (t : Token) (cond : List Node) : Parse Ty := do
  match cond with
  | [.node place ty (.name x flat)] =>
    match ty with
    | .named "Option" _ =>
      let s ← get
      match s.context.resolvePath? s.scope (x ++ ".value") with
      | some v => return v.ty
      | none => fail place (.block (.captureNoValue x))
    | _ => fail place (.block (.captureNoOption (Node.node place ty (.name x flat)).text ty))
  | _ => fail t (.block .captureCondition)

def conditionalBranch (kind : BranchKind) (brace t : Token) (toks : List Token) : Parse Unit := do
  requireFunction t
  let final ← finalOf toks
  let (opened, inner, rest) ← parenthesized t.text toks
  let (capture?, rest) ← captureName? final rest
  let cond ← infer (Infer.condition opened inner)
  let captured ←
    match capture? with
    | none => pure none
    | some name => do
      let _ ← newName name
      let ty ← captureType name cond
      pure (some (name, ty))
  nothingMore .afterCondition rest
  emit (.plain t (.branch kind cond ((capture?.map (·.value)).getD "")
    ((captured.map (·.2)).getD .absent)))
  openBlock { kind := .branch, token := brace, framed := true }
  match captured with
  | none => return
  | some (name, ty) => declare name { name := name.value, ty := ty }

def otherwiseBranch (brace t : Token) (toks : List Token) : Parse Unit := do
  requireFunction t
  nothingMore .afterCondition toks
  emit (.plain t (.branch .otherwise [] "" .absent))
  openBlock { kind := .otherwise, token := brace, framed := true }

/-- A switch. Its cases are checked against the type of its value. -/
def switchBlock (brace t : Token) (toks : List Token) : Parse Unit := do
  requireFunction t
  let (_, inner, rest) ← parenthesized "switch" toks
  nothingMore .afterSwitchValue rest
  let value ← expression inner .absent
  emit (.plain t (.switch value))
  openBlock { kind := .switch, token := brace, framed := true, value := value.ty.resolved }

def armValues (want : Ty) : List (List Token) → Parse (List Node)
  | [] => pure []
  | toks :: parts => do
    let n ← expression toks want
    if !want.isAbsent && !want.accepts n then
      mismatch n.token (.caseValue n.text n.ty want)
    let ns ← armValues want parts
    return n :: ns

def armBlock (brace t : Token) (toks : List Token) : Parse Unit := do
  match (← get).blocks with
  | [] => fail t (.block (.outsideSwitch t.text))
  | b :: _ =>
    if b.kind ≠ .switch then fail t (.block (.outsideSwitch t.text))
    let values ←
      if t.kind = .kwDefault then
        match toks with
        | [] => pure []
        | extra :: _ => fail extra (.block .defaultWithValues)
      else do
        let (opened, inner, rest) ← parenthesized t.text toks
        nothingMore .afterCaseValues rest
        if inner.isEmpty then fail opened (.block (.noCaseValues t.text))
        armValues b.value (Token.splitTop .comma inner)
    emit (.plain t (.arm values (t.kind = .kwFallthrough) (t.kind = .kwDefault)))
    openBlock { kind := .arm, token := brace, framed := true }

/-- What a loop does to its counter, from the group behind its condition. -/
def loopStep (toks : List Token) : Parse (Step × List Token) :=
  match toks with
  | [] => pure (.stay, [])
  | t :: rest =>
    if t.kind ≠ .number then pure (.stay, toks)
    else
      let sign := Text.trim t.value
      if sign = "+" then pure (.up, rest)
      else if sign = "-" then pure (.down, rest)
      else if sign = "_" || sign = "" then pure (.stay, rest)
      else fail t (.block (.loopStep t.value))

/-- Whether a condition begins with a name that is not called. -/
def startsWithName (toks : List Token) : Bool :=
  match toks with
  | [] => false
  | first :: rest => first.kind = .ident && (rest.head?.map (·.kind)) ≠ some .lparen

/-- The counter of a loop: the name its condition begins with. A name that is not known yet is declared,
and starts at zero. -/
def loopCounter (first : Token) : Parse (Node × String) := do
  let s ← get
  let v := s.view (← read)
  let init ←
    if (v.find? first.value).isNone && !Text.contains first.value '.' && !v.isTypeName first.value then do
      let name ← newName first
      declare first { name := name, ty := .usize }
      pure (Node.declaration first name .usize (.numeral first "0" .usize) false false false)
    else pure Node.absent
  let s ← get
  return (init, s.context.spell s.scope first.value)

/-- A loop with a step must count with a numeric variable. -/
def requireCounter (first : Token) (counter : String) : Parse Unit := do
  let s ← get
  let isNumeric :=
    match s.context.resolvePath? s.scope counter with
    | some x => x.ty.isNumeric
    | none => false
  if counter = "" || !isNumeric then fail first (.block .loopCounter)

def loopBlock (brace t : Token) (toks : List Token) : Parse Unit := do
  requireFunction t
  let (opened, inner, rest) ← parenthesized "loop" toks
  let (step, rest) ← loopStep rest
  nothingMore .afterLoopCondition rest
  match inner with
  | [] => fail opened (.block .emptyLoopCondition)
  | first :: _ =>
    openBlock { kind := .loop, token := brace, framed := true }
    let (init, counter) ←
      if startsWithName inner then loopCounter first else pure (Node.absent, "")
    let cond ← infer (Infer.condition opened inner)
    if step ≠ .stay then requireCounter first counter
    emit (.plain t (.loop init counter cond step))

/-- The names of an iteration: the element and, behind a comma, the index. -/
def iterationNames (final : Token) (toks : List Token) :
    Parse (Token × Option Token × List Token) := do
  let (elem, toks) ← expect final .ident (.expected "a loop variable after 'for ('") toks
  let _ ← newName elem
  match toks with
  | t :: rest =>
    if t.kind ≠ .comma then return (elem, none, toks)
    else
      let (index, rest) ← expect final .ident (.expected "an index name after ','") rest
      let _ ← newName index
      if index.value = elem.value then fail index (.block (.sameIterationNames elem.value))
      else return (elem, some index, rest)
  | [] => return (elem, none, [])

/-- The type of the elements of what is iterated over: an array or a container. -/
def iterationElement (subject : Node) : Parse Ty :=
  let ty := subject.ty.resolved
  let elem? :=
    match ty with
    | .array elem _ => some elem
    | .named _ _ => ty.element?
    | _ => none
  match elem? with
  | some elem => pure elem
  | none => fail subject.token (.block (.notIterable subject.text ty))

def iterateBlock (brace t : Token) (toks : List Token) : Parse Unit := do
  requireFunction t
  let (opened, inner, rest) ← parenthesized "for" toks
  nothingMore .afterIteratorHeader rest
  let final ← finalOf inner
  let (elem, index?, toks) ← iterationNames final inner
  let (_, toks) ← expect final .kwIn (.expected "'in' in iterator header") toks
  if toks.isEmpty then fail opened (.expected "a value to iterate over")
  let subject ← expression toks .absent
  let elemTy ← iterationElement subject
  emit (.plain t (.iterate elem.value ((index?.map (·.value)).getD "") elemTy subject))
  openBlock { kind := .iterate, token := brace, framed := true }
  declare elem { name := elem.value, ty := elemTy }
  match index? with
  | none => return
  | some index => declare index { name := index.value, ty := .usize }

def deferBlock (brace t : Token) (toks : List Token) : Parse Unit := do
  requireFunction t
  nothingMore (.afterWord "defer") toks
  if (← get).deferral.isRecording then fail t (.block .nestedDefer)
  openBlock { kind := .deferred, token := brace, framed := true }
  modify fun s => { s with deferral := s.deferral.start }

def closeStruct : Parse Unit := do
  match (← get).record with
  | some (.struct d) => if d.fieldsOpen then finishFields d
  | _ => fault .noRecord
  modify fun s => { s with record := none }

def closeEnum : Parse Unit := do
  match (← get).record with
  | some (.enum d) => finishEnum d
  | _ => fault .noRecord
  modify fun s => { s with record := none }

/-- The end of a deferred block: its group belongs to the block around it. -/
def closeDeferred : Parse Unit := do
  modify fun s => { s with deferral := s.deferral.finish s.depth }
  popFrame

/-- The end of any other block. What was deferred in it comes before its end. -/
def closeOther (b : Block) (t : Token) : Parse Unit := do
  let s ← get
  let depth := s.depth + 1
  modify fun s => { s with deferral := s.deferral.without depth }
  emitAll (s.deferral.statementsAt depth)
  emit (.plain t .blockEnd)
  if b.framed then popFrame
  if b.kind = .function then
    modify fun s => { s with deferral := s.deferral.below depth, function := none }

def closeBlock (t : Token) : Parse Unit := do
  match (← get).blocks with
  | [] => fail t (.unmatched "\x7d")
  | b :: rest =>
    modify fun s => { s with blocks := rest, afterBranch := b.kind = .branch }
    match b.kind with
    | .struct => closeStruct
    | .enum => closeEnum
    | .deferred => closeDeferred
    | _ => closeOther b t

end Impulse.Parse
