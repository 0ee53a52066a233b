/-!
# Types

The types of the language: keyword types, pointers, fixed arrays, structs and enums with their generic
arguments, placeholders for types that are not known yet, and the view `base|index|` that an index
expression has until its element type is asked for.
-/

namespace Impulse

/-- The keyword types. `none` marks a type that was not set. -/
inductive Primitive
  | none
  | u8
  | i8
  | u16
  | i16
  | u32
  | i32
  | u64
  | i64
  | uint
  | int
  | usize
  | f32
  | f64
  | bool
  | char
  | void
  | any
  | typeid
  deriving DecidableEq, Repr

namespace Primitive

def text : Primitive → String
  | none => "none"
  | u8 => "u8"
  | i8 => "i8"
  | u16 => "u16"
  | i16 => "i16"
  | u32 => "u32"
  | i32 => "i32"
  | u64 => "u64"
  | i64 => "i64"
  | uint => "uint"
  | int => "int"
  | usize => "usize"
  | f32 => "f32"
  | f64 => "f64"
  | bool => "bool"
  | char => "char"
  | void => "void"
  | any => "any"
  | typeid => "typeid"

/-- The types that can be written: all but the unset one. -/
def written : List Primitive :=
  [u8, i8, u16, i16, u32, i32, u64, i64, uint, int, usize, f32, f64, bool, char, void, any, typeid]

def ofKeyword? (word : String) : Option Primitive :=
  written.find? (·.text == word)

def isInteger : Primitive → Bool
  | u8 | i8 | u16 | i16 | u32 | i32 | u64 | i64 | uint | int | usize => true
  | _ => false

def isFloat : Primitive → Bool
  | f32 | f64 => true
  | _ => false

def isNumeric (p : Primitive) : Bool :=
  p.isInteger || p.isFloat || p == char

end Primitive

inductive Ty
  /-- There is no type, or it is not known. -/
  | absent
  | prim (p : Primitive)
  | pointer (elem : Ty)
  /-- A fixed array. Its length is kept as written: empty, a numeral or the name of a constant. -/
  | array (elem : Ty) (length : String)
  /-- A struct or an enum with its generic arguments. -/
  | named (name : String) (args : List Ty)
  /-- A type that is still open, written `$name`. -/
  | placeholder (name : String)
  /-- The type of `base|index|`. -/
  | view (base : Ty) (index : String)
  deriving Inhabited

namespace Ty

def int : Ty := .prim .int

def usize : Ty := .prim .usize

def f64 : Ty := .prim .f64

def bool : Ty := .prim .bool

def char : Ty := .prim .char

def void : Ty := .prim .void

def any : Ty := .prim .any

def typeid : Ty := .prim .typeid

def string : Ty := .named "string" []

def isAbsent : Ty → Bool
  | absent => true
  | _ => false

def isVoid : Ty → Bool
  | prim .void => true
  | _ => false

/-- Whether this is the type that goes with every other. -/
def isAny : Ty → Bool
  | prim .any => true
  | _ => false

def isTypeid : Ty → Bool
  | prim .typeid => true
  | _ => false

def isPlaceholder : Ty → Bool
  | placeholder _ => true
  | _ => false

def isPointer : Ty → Bool
  | pointer _ => true
  | _ => false

def isNumeric : Ty → Bool
  | prim p => p.isNumeric
  | _ => false

def isInteger : Ty → Bool
  | prim p => p.isInteger
  | _ => false

/-- The type a keyword stands for. The word `string` names the builtin struct. -/
def ofKeyword? (word : String) : Option Ty :=
  match Primitive.ofKeyword? word with
  | some p => some (.prim p)
  | none => if word = "string" then some string else none

def isKeyword (word : String) : Bool :=
  (Primitive.ofKeyword? word).isSome

mutual

/-- The text of a type. Generic arguments are set apart by spaces. -/
def text : Ty → String
  | absent => "none"
  | prim p => p.text
  | pointer elem => "^" ++ elem.text
  | array elem length => elem.text ++ "[" ++ length ++ "]"
  | named name [] => name
  | named name (arg :: args) => name ++ "(" ++ arg.text ++ restText args ++ ")"
  | placeholder name => "$" ++ name
  | view base index => base.text ++ "|" ++ index ++ "|"

def restText : List Ty → String
  | [] => ""
  | arg :: args => " " ++ arg.text ++ restText args

end

mutual

def isComplete : Ty → Bool
  | absent => false
  | prim _ => true
  | pointer elem => elem.isComplete
  | array elem _ => elem.isComplete
  | named _ args => allComplete args
  | placeholder _ => true
  | view base _ => base.isComplete

def allComplete : List Ty → Bool
  | [] => true
  | t :: ts => t.isComplete && allComplete ts

end

mutual

/-- Structural equality. A missing type equals nothing, not even another missing one. -/
def same : Ty → Ty → Bool
  | prim p, prim q => p == q
  | pointer a, pointer b => a.same b
  | array a m, array b n => m == n && a.same b
  | named x as, named y bs => x == y && sameAll as bs
  | placeholder x, placeholder y => x == y
  | view a i, view b j => i == j && a.same b
  | _, _ => false

def sameAll : List Ty → List Ty → Bool
  | [], [] => true
  | a :: as, b :: bs => a.same b && sameAll as bs
  | _, _ => false

end

def pointee : Ty → Ty
  | pointer elem => elem.pointee
  | t => t

def pointerTo (t : Ty) : Nat → Ty
  | 0 => t
  | levels + 1 => .pointer (t.pointerTo levels)

/-- The builtin generic structs that can be indexed and iterated. -/
def isContainer (name : String) : Bool :=
  name == "array" || name == "dynam"

/-- What indexing or iterating a value of the type gives. -/
def element? : Ty → Option Ty
  | array elem _ => some elem
  | pointer elem => some elem
  | named name [] => if name = "string" then some char else none
  | named name [arg] => if isContainer name then some arg else none
  | view base _ => base.element?
  | _ => none

def resolved (t : Ty) : Ty :=
  match t with
  | view base _ => base.element?.getD t
  | _ => t

mutual

def hasPlaceholder : Ty → Bool
  | placeholder _ => true
  | pointer elem => elem.hasPlaceholder
  | array elem _ => elem.hasPlaceholder
  | named _ args => anyPlaceholder args
  | view base _ => base.hasPlaceholder
  | absent | prim _ => false

def anyPlaceholder : List Ty → Bool
  | [] => false
  | t :: ts => t.hasPlaceholder || anyPlaceholder ts

end

mutual

/-- The names of the placeholders of a type, in the order they are written. -/
def placeholders : Ty → List String
  | placeholder name => [name]
  | pointer elem => elem.placeholders
  | array elem _ => elem.placeholders
  | named _ args => placeholdersAll args
  | view base _ => base.placeholders
  | absent | prim _ => []

/-- The names of the placeholders of the types, in the order they are written. -/
def placeholdersAll : List Ty → List String
  | [] => []
  | t :: ts => t.placeholders ++ placeholdersAll ts

end

end Ty

abbrev Bindings := List (String × Ty)

namespace Bindings

def find? (b : Bindings) (name : String) : Option Ty :=
  (List.find? (·.1 == name) b).map (·.2)

/-- Binds `name` to `t`, in the place of an older binding if there is one. -/
def bind (b : Bindings) (name : String) (t : Ty) : Bindings :=
  if b.any (·.1 == name) then b.map fun e => if e.1 == name then (name, t) else e
  else b ++ [(name, t)]

end Bindings

namespace Ty

mutual

/-- The type with every bound placeholder replaced by its binding. -/
def subst (b : Bindings) : Ty → Ty
  | absent => absent
  | prim p => prim p
  | pointer elem => pointer (elem.subst b)
  | array elem length => array (elem.subst b) length
  | named name args => named name (substAll b args)
  | placeholder name => (b.find? name).getD (placeholder name)
  | view base index => view (base.subst b) index

/-- The types with every bound placeholder replaced by its binding. -/
def substAll (b : Bindings) : List Ty → List Ty
  | [] => []
  | t :: ts => t.subst b :: substAll b ts

end

end Ty

end Impulse
