import Impulse.Text.Decimal
import Impulse.View

/-!
# Type expressions

A type is written as carets for pointer levels, a base, and the length of an array in brackets. The base
is a keyword, a placeholder `$T`, a struct with its generic arguments, an enum, or a variable that holds a
type. In the header of a function every placeholder is welcome; elsewhere it must be in force.
-/

namespace Impulse.TypeExpr

/-- The type a placeholder stands for. `header` tells that a header of a function is read. -/
def placeholder (v : View) (header : Bool) (t : Token) : Except Stop Ty :=
  if header || v.placeholders.contains t.value then .ok (.placeholder t.value)
  else .error (.problem t (.type (.unresolvedPlaceholder t.value)))

/-- The length of an array: empty, a number, or an integer constant, which gives its value if it is
known. -/
def arrayLength (v : View) (t : Token) : Except Stop String :=
  let raw := Text.trim t.value
  if raw = "" || Text.isNumber raw then .ok raw
  else match v.context.resolve? v.scope raw with
    | none => .error (.problem t (.type (.unknownLength raw)))
    | some x =>
      if !x.const || !x.ty.isInteger then .error (.problem t (.type (.lengthNotConstant raw)))
      else .ok (if x.value = "" then raw else x.value)

/-- The generic arguments behind the name of a struct, if a parenthesis opens there. -/
def structArguments (arguments : Token → List Token → Except Stop (List Ty)) :
    List Token → Except Stop (List Ty × List Token)
  | t :: ts =>
    if t.kind = .lparen then do
      let (inner, rest) ← Infer.closing t ts
      return (← arguments t inner, rest)
    else .ok ([], t :: ts)
  | [] => .ok ([], [])

/-- The type that the name `t` stands for. The struct whose body is open is known by its name alone. -/
def named (v : View) (arguments : Token → List Token → Except Stop (List Ty)) (t : Token)
    (rest : List Token) : Except Stop (Ty × List Token) :=
  let name := t.value
  let inBody := v.self?.filter (·.1 == name)
  match Ty.ofKeyword? name, v.context.structs.get? name, inBody with
  | some ty, none, _ => .ok (ty, rest)
  | _, _, some (_, generics) => .ok (.named name (generics.map .placeholder), rest)
  | _, some d, none => do
    let (args, rest) ← structArguments arguments rest
    if args.length ≠ d.generics.length then
      .error (.problem t (.type (.argumentCount name d.generics.length args.length)))
    else .ok (.named name args, rest)
  | none, none, none =>
    if v.context.enums.has name then .ok (.named name [], rest)
    else match v.context.resolve? v.scope name with
      | some x =>
        if x.ty.isTypeid then .ok (.placeholder name, rest)
        else .error (.problem t (.type (.unknownName name)))
      | none => .error (.problem t (.type (.unknownName name)))

/-- Reads one type from the front of some tokens, given how generic arguments are read. `final` is where
an error about missing tokens is put. -/
def one (v : View) (header : Bool) (arguments : Token → List Token → Except Stop (List Ty))
    (final : Token) (toks : List Token) : Except Stop (Ty × List Token) := do
  let levels := (toks.takeWhile (·.kind = .caret)).length
  let (base, rest) ←
    match toks.drop levels with
    | t :: ts =>
      if t.kind = .dollar then do
        let (name, ts) ← Infer.expect final .ident (.expected "a generic name after '$'") ts
        pure (← placeholder v header name, ts)
      else if t.kind = .ident then named v arguments t ts
      else .error (.problem t (.type (.noType t.text)))
    | [] => .error (.problem final (.type (.noType final.text)))
  let ty := base.pointerTo levels
  match rest with
  | t :: ts =>
    if t.kind = .number then return (.array ty (← arrayLength v t), ts)
    else return (ty, rest)
  | [] => return (ty, [])

/-- Reads types until no tokens are left. Commas between them are skipped. -/
def many (one : List Token → Except Stop (Ty × List Token)) : List Token → Except Stop (List Ty)
  | [] => .ok []
  | t :: ts =>
    if t.kind = .comma then many one ts
    else match one (t :: ts) with
      | .error e => .error e
      | .ok (ty, rest) =>
        if _h : rest.length ≤ ts.length then
          match many one rest with
          | .error e => .error e
          | .ok tys => .ok (ty :: tys)
        else .error (.fault .notSmaller)
termination_by toks => toks.length

/-- Reads the generic arguments between the parenthesis `opened` and the one that closes it. There is at
least one. -/
def arguments (v : View) (header : Bool) (opened : Token) (toks : List Token) :
    Except Stop (List Ty) :=
  let nested (opened : Token) (inner : List Token) : Except Stop (List Ty) :=
    if _h : inner.length < toks.length then arguments v header opened inner
    else .error (.fault .notSmaller)
  match many (one v header nested (toks.getLastD opened)) toks with
  | .error e => .error e
  | .ok [] => .error (.problem opened (.type .emptyArguments))
  | .ok tys => .ok tys
termination_by toks.length

def read (v : View) (header : Bool) (final : Token) (toks : List Token) :
    Except Stop (Ty × List Token) :=
  one v header (arguments v header) final toks

def ofTokens (v : View) (header : Bool) (toks : List Token) : Except Stop Ty := do
  if toks.isEmpty then .error (.problem v.last (.expected "a type"))
  else
    let (ty, rest) ← read v header (toks.getLastD v.last) toks
    Infer.nothingMore .typeExpr rest
    return ty

end Impulse.TypeExpr
