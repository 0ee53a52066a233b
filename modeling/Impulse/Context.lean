import Impulse.Node
import Impulse.Scope.Spelling
import Impulse.Table

/-!
# Compilation contexts

Everything a compilation knows about names outside functions: the functions, structs, enums and global
variables with the files that define them, and the keys of the files that were imported.
-/

namespace Impulse

/-- A struct with its fields, its placeholders and the names of its methods. -/
structure StructDef where
  name : String
  fields : List Param := []
  generics : List String := []
  methods : List String := []

namespace StructDef

def field? (d : StructDef) (name : String) : Option Ty :=
  (d.fields.find? (·.name == name)).map (·.ty)

/-- The placeholders of the struct bound to the given arguments, one by one. -/
def bindings (d : StructDef) (args : List Ty) : Bindings :=
  (d.generics.zip args).foldl (fun b e => b.bind e.1 e.2) []

end StructDef

structure EnumDef where
  name : String
  fields : List String := []

structure Context where
  functions : Table Signature := {}
  structs : Table StructDef := {}
  enums : Table EnumDef := {}
  globals : Table Variable := {}
  imported : List UInt64 := []

/-- One name, defined by two files. `kind` tells what it defines. -/
structure Duplicate where
  kind : String
  conflict : Conflict

def Duplicate.message (d : Duplicate) : String :=
  d.kind ++ " '" ++ d.conflict.name ++ "' already defined in " ++ d.conflict.known
    ++ " (redefined in " ++ d.conflict.got ++ ")"

namespace Context

def builtinOrigin : String :=
  "<builtin>"

/-- The functions that need no definition. They take any arguments. -/
def builtins : List Signature :=
  [{ name := "print", ret := .void, variadic := true },
   { name := "println", ret := .void, variadic := true }]

def initial : Context :=
  { functions := builtins.foldl (fun t sig => t.add sig.name sig builtinOrigin) {} }

/-- Records an imported key, and tells whether it is new. -/
def markImported (c : Context) (key : UInt64) : Bool × Context :=
  if c.imported.contains key then (false, c)
  else (true, { c with imported := c.imported ++ [key] })

/-- The file that defines a struct, an enum or a function of the given name. -/
def definedIn? (c : Context) (name : String) : Option String :=
  c.structs.origin? name <|> c.enums.origin? name <|> c.functions.origin? name

/-- The variable a name stands for: one in scope, or a global one. -/
def resolve? (c : Context) (scope : Scope) (name : String) : Option Variable :=
  scope.find? name <|> c.globals.get? name

def spell (c : Context) (scope : Scope) (name : String) : String :=
  spelling (c.resolve? scope) name

/-- The variable a path stands for, under its spelling. -/
def resolvePath? (c : Context) (scope : Scope) (name : String) : Option Variable :=
  c.resolve? scope (c.spell scope name)

/-- Takes over the entries of `child`: structs, enums, functions and globals, then the imported keys.
At a conflict what was taken over so far stays. -/
def absorb (c child : Context) : Context × Option Duplicate :=
  let (structs, conflict) := c.structs.absorb child.structs
  let c := { c with structs := structs }
  match conflict with
  | some e => (c, some ⟨"struct", e⟩)
  | none =>
    let (enums, conflict) := c.enums.absorb child.enums
    let c := { c with enums := enums }
    match conflict with
    | some e => (c, some ⟨"enum", e⟩)
    | none =>
      let (functions, conflict) := c.functions.absorb child.functions
      let c := { c with functions := functions }
      match conflict with
      | some e => (c, some ⟨"function", e⟩)
      | none =>
        let (globals, conflict) := c.globals.absorb child.globals
        let c := { c with globals := globals }
        match conflict with
        | some e => (c, some ⟨"global", e⟩)
        | none =>
          let new := child.imported.filter fun key => !c.imported.contains key
          ({ c with imported := c.imported ++ new }, none)

end Context

end Impulse
