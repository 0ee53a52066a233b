import Impulse.Reading.Declaration

/-!
# Definitions of functions, structs and enums

The headers and the fields of definitions. A struct is registered when its fields are complete, which is at
its first method or at its end; an enum is registered at its end, together with a constant for each of its
fields and their number.
-/

namespace Impulse

inductive Directive
  | importing
  | embed
  | inlined
  | shared
  deriving DecidableEq, Repr

def Directive.ofName? (name : String) : Option Directive :=
  if name = "import" then some importing
  else if name = "c" then some embed
  else if name = "inline" then some inlined
  else if name = "shared" then some shared
  else none

namespace Parse

def finishFields (d : StructDraft) : Parse Unit := do
  modify fun s =>
    { s with
      record := some (.struct { d with fieldsOpen := false })
      context := { s.context with
        structs := s.context.structs.add d.name
          { name := d.name, fields := d.fields, generics := d.generics } s.file } }
  emit (.plain d.token (.structBody d.name d.generics d.fields))
  emit (.plain d.token (.structEnd d.name))

/-- The directives in front of a function: whether it is inlined and whether it is shared. -/
def attributes (final : Token) (inlined shared : Bool) (toks : List Token) :
    Parse (Bool × Bool × List Token) :=
  match toks with
  | t :: name :: rest =>
    if t.kind ≠ .atSign then pure (inlined, shared, toks)
    else if name.kind ≠ .ident then fail name (.expected "a macro name after '@'")
    else match Directive.ofName? name.value with
      | none => fail name (.directive (.unknown name.value))
      | some .inlined => attributes final true shared rest
      | some .shared => attributes final inlined true rest
      | some _ => fail name (.directive (.notBeforeFunction name.value))
  | [t] =>
    if t.kind = .atSign then fail final (.expected "a macro name after '@'")
    else pure (inlined, shared, toks)
  | [] => pure (inlined, shared, toks)

/-- A parameter `$T: typeid`, whose dollar sign is already read. -/
def typeParameter (final : Token) (toks : List Token) : Parse Param := do
  let (name, toks) ← expect final .ident (.expected "a generic name after '$'") toks
  let (_, toks) ← expect final .colon (.expected "':' after the generic name") toks
  let (kind, toks) ← expect final .ident (.expected "'typeid'") toks
  if kind.value ≠ "typeid" || !toks.isEmpty then
    fail kind (.definition (.parameterNotTypeid name.value))
  else return ⟨name.value, .placeholder name.value⟩

def valueParameter (final : Token) (toks : List Token) : Parse Param := do
  let (t, toks) ← expect final .ident (.expected "a parameter name") toks
  let name ← newName t
  let (_, toks) ← expect final .colon (.expected "':' after the parameter name") toks
  let ty ← typeOf true toks
  if ty.isVoid then fail t (.definition (.voidParameter name))
  else return ⟨name, ty⟩

def parameter (opened : Token) (toks : List Token) : Parse Param :=
  match toks with
  | [] => fail opened (.definition .emptyParameter)
  | t :: rest =>
    let final := toks.getLastD t
    if t.kind = .dollar then typeParameter final rest else valueParameter final toks

/-- The parameters of a function, each with the token where it begins. `taken` holds the names that
cannot be used. -/
def parameters (opened : Token) (taken : List String) :
    List (List Token) → Parse (List (Token × Param))
  | [] => pure []
  | toks :: parts => do
    let p ← parameter opened toks
    let t := toks.headD opened
    if taken.contains p.name then fail t (.definition (.duplicateParameter p.name))
    else
      let rest ← parameters opened (p.name :: taken) parts
      return (t, p) :: rest

/-- The struct a function is a method of. Its fields are complete now. -/
def methodOf? (t : Token) : Parse (Option StructDraft) := do
  let s ← get
  match s.record with
  | some (.enum d) => fail t (.definition (.functionInEnum d.name))
  | some (.struct d) =>
    if d.fieldsOpen then finishFields d
    return some d
  | none =>
    if s.depth > 0 then fail t (.definition .functionNotAtTop)
    else return none

/-- A method takes a pointer to its struct in front of its own parameters. -/
def selfParameter (d : StructDraft) : Param :=
  ⟨"self", .pointer (.named d.name (d.generics.map .placeholder))⟩

/-- The result type behind a parameter list, and the tokens that give it. -/
def resultType (toks : List Token) : Parse (Ty × List Token) := do
  match toks with
  | [] => return (.void, [])
  | t :: rest =>
    if t.kind = .colon then return (← typeOf true rest, rest)
    else fail t (.unexpected t.text .functionHeader)

/-- Adds a function to the registry and, if it is a method, to its struct. -/
def register (sig : Signature) : Parse Unit :=
  modify fun s =>
    let c := { s.context with functions := s.context.functions.add sig.name sig s.file }
    let c :=
      if sig.method = "" then c
      else
        let d := (c.structs.get? sig.method).getD { name := "" }
        let d := { d with methods := d.methods ++ [sig.name] }
        let origin := (c.structs.origin? sig.method).getD ""
        { c with structs := c.structs.add sig.method d origin }
    { s with context := c }

/-- Declares the parameters of a function whose body was opened. One that takes a type is a variable that
holds a type. -/
def declareParameters : List (Token × Param) → Parse Unit
  | [] => pure ()
  | (t, p) :: rest => do
    declare t { name := p.name, ty := if Call.takesType p then .typeid else p.ty }
    declareParameters rest

def functionDefinition (brace : Token) (header : List Token) : Parse Unit := do
  let final ← finalOf header
  let (inlined, shared, toks) ← attributes final false false header
  let (t, toks) ← expect final .ident (.expected "a function name") toks
  let own ← newName t
  let (_, toks) ← expect final .doubleColon (.expected "'::' after the function name") toks
  let (opened, toks) ← expect final .lparen (.expected "'(' to start the parameter list") toks
  let (paramToks, toks) ← closing opened toks
  if (← get).function.isSome then fail t (.definition .nestedFunction)
  if Text.contains own '.' then fail t (.definition (.functionName own))
  let struct ← methodOf? t
  let method := (struct.map (·.name)).getD ""
  let name := (struct.map fun d => d.name ++ "." ++ own).getD own
  let self := (struct.map fun d => (t, selfParameter d)).toList
  let written ← parameters opened (self.map (·.2.name)) (Token.splitTop .comma paramToks)
  let params := self ++ written
  let (ret, retToks) ← resultType toks
  match (← get).context.definedIn? name with
  | some origin => fail t (.definition (.alreadyDefined name origin))
  | none =>
    let sig : Signature :=
      { name := name, ret := ret, params := params.map (·.2), inlined := inlined, shared := shared,
        method := method
        generic := ret.hasPlaceholder || params.any (·.2.ty.hasPlaceholder) }
    register sig
    emit (.functionOf t sig)
    openBlock { kind := .function, token := brace, framed := true }
    let placeholders := ((struct.map (·.generics)).getD [])
      ++ Token.placeholderNames paramToks ++ Token.placeholderNames retToks
    modify fun s =>
      let info : FunctionInfo :=
        { name := name, ret := ret, placeholders := placeholders, depth := s.depth }
      { s with function := some info }
    declareParameters params

/-- The placeholders of a struct. Commas between them are skipped. -/
def structPlaceholders (final : Token) (toks : List Token) : Parse (List String) :=
  match toks with
  | [] => pure []
  | t :: rest =>
    if t.kind = .comma then structPlaceholders final rest
    else if t.kind ≠ .dollar then fail t (.definition .placeholderSign)
    else match rest with
      | [] => fail final (.expected "a generic name after '$'")
      | name :: rest => do
        if name.kind ≠ .ident then fail name (.expected "a generic name after '$'")
        else
          let names ← structPlaceholders final rest
          return name.value :: names

/-- The placeholders in the header of a struct, if there are any. -/
def structGenerics (toks : List Token) : Parse (List String) := do
  match toks with
  | [] => return []
  | opened :: rest =>
    if opened.kind ≠ .lparen then fail opened (.unexpected opened.text .structHeader)
    else
      let (inner, rest) ← closing opened rest
      let names ← structPlaceholders (← finalOf inner) inner
      if names.isEmpty then fail opened (.definition .emptyPlaceholders)
      nothingMore .structHeader rest
      return names

def requireFresh (t : Token) (name : String) : Parse Unit := do
  match (← get).context.definedIn? name with
  | some origin => fail t (.definition (.alreadyDefined name origin))
  | none => return

def structDefinition (brace t : Token) (toks : List Token) : Parse Unit := do
  let name ← newName t
  let s ← get
  if s.function.isSome then fail t (.definition .structInFunction)
  if s.record.isSome then fail t (.definition .nestedStruct)
  if Text.contains name '.' then fail t (.definition (.structName name))
  requireFresh t name
  let generics ← structGenerics toks
  modify fun s => { s with record := some (.struct { name := name, token := t, generics := generics }) }
  emit (.plain t (.structName name))
  openBlock { kind := .struct, token := brace, framed := false }

def enumDefinition (brace t : Token) (toks : List Token) : Parse Unit := do
  let name ← newName t
  let s ← get
  if s.function.isSome then fail t (.definition .enumInFunction)
  if s.record.isSome then fail t (.definition .nestedEnum)
  if Text.contains name '.' then fail t (.definition (.enumName name))
  nothingMore .enumHeader toks
  requireFresh t name
  modify fun s => { s with record := some (.enum { name := name, token := t }) }
  emit (.plain t (.enumName name))
  openBlock { kind := .enum, token := brace, framed := false }

/-- The constants an enum brings: one for each field, and their number. -/
def enumConstants (d : EnumDraft) : List Variable :=
  d.fields.map (fun f =>
      { name := d.name ++ "." ++ f, ty := .named d.name [], const := true, flat := true })
    ++ [{ name := d.name ++ ".field_count", ty := .int, const := true, flat := true
          value := toString d.fields.length }]

def finishEnum (d : EnumDraft) : Parse Unit := do
  modify fun s =>
    { s with context := { s.context with
        enums := s.context.enums.add d.name { name := d.name, fields := d.fields } s.file
        globals := (enumConstants d).foldl (fun t x => t.add x.name x s.file) s.context.globals } }
  emit (.plain d.token (.enumBody d.name d.fields))
  emit (.declaration d.token (d.name ++ ".field_count") .int
    (.numeral d.token (toString d.fields.length) .int) true true true)
  emit (.plain d.token (.enumEnd d.name))

def enumField (d : EnumDraft) (t : Token) (rest : List Token) : Parse Unit := do
  if !rest.isEmpty || t.kind ≠ .ident then fail t (.definition .enumField)
  let name ← newName t
  if d.fields.contains name then fail t (.definition (.duplicateEnumField name d.name))
  modify fun s => { s with record := some (.enum { d with fields := d.fields ++ [name] }) }

def structField (d : StructDraft) (t : Token) (rest : List Token) : Parse Unit := do
  if !d.fieldsOpen then fail t (.definition (.fieldAfterMethods d.name))
  match rest with
  | colon :: typeToks =>
    if typeToks.isEmpty || colon.kind ≠ .colon then fail t (.definition .structField)
    let name ← newName t
    if Text.contains name '.' then fail t (.definition (.fieldName name))
    if d.fields.any (·.name == name) then fail t (.definition (.duplicateField name d.name))
    let ty ← typeOf false typeToks
    if ty.isVoid then fail t (.definition (.voidField name))
    modify fun s => { s with record := some (.struct { d with fields := d.fields ++ [⟨name, ty⟩] }) }
  | [] => fail t (.definition .structField)

def recordField (r : Record) (t : Token) (rest : List Token) : Parse Unit :=
  match r with
  | .enum d => enumField d t rest
  | .struct d => structField d t rest

end Parse

end Impulse
