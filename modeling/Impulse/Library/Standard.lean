/-!
# The standard tree

The files every compilation can import under `base/`. `base/builtin.imp` is imported into every program
unless the feature is switched off.
-/

namespace Impulse.Standard

def ofLines (lines : List String) : String :=
  String.join (lines.map (· ++ "\n"))

def builtin : String := ofLines
  ["// Builtin types and helpers. Imported implicitly into every program.",
   "@import \"base/dynamic.h\";",
   "",
   "string :: struct \x7b",
   "    data: ^char;",
   "    cap: usize;",
   "    len: usize;",
   "",
   "    length :: (): usize \x7b",
   "        return self.len;",
   "    \x7d",
   "",
   "    push :: (c: char) \x7b",
   "        @c \"string_push(self, c);\";",
   "    \x7d",
   "\x7d",
   "",
   "dynam :: struct($T) \x7b",
   "    data: ^$T;",
   "    cap: usize;",
   "    len: usize;",
   "\x7d",
   "",
   "array :: struct($T) \x7b",
   "    data: ^$T;",
   "    len: usize;",
   "\x7d",
   "",
   "Option :: struct($T) \x7b",
   "    value: $T;",
   "    ok: bool;",
   "\x7d",
   "",
   "str :: (s: ^char): string \x7b",
   "    return @c \"string_from(s)\";",
   "\x7d",
   "",
   "some :: ($T: typeid, v: $T): Option($T) \x7b",
   "    o: Option($T);",
   "    o.value = v;",
   "    o.ok = true;",
   "    return o;",
   "\x7d",
   "",
   "nothing :: ($T: typeid): Option($T) \x7b",
   "    o: Option($T);",
   "    o.ok = false;",
   "    return o;",
   "\x7d"]

def dynamic : String := ofLines
  ["#ifndef IMPULSE_DYNAMIC_H",
   "#define IMPULSE_DYNAMIC_H",
   "",
   "#include <stddef.h>",
   "",
   "typedef struct string \x7b",
   "    char *data;",
   "    size_t cap;",
   "    size_t len;",
   "\x7d string;",
   "",
   "string string_new(void);",
   "string string_from(const char *s);",
   "void string_push(string *s, char c);",
   "int string_cmp(string a, string b);",
   "void print_s(string s);",
   "string readin(void);",
   "",
   "#endif"]

def io : String := ofLines
  ["@import \"base/dynamic.h\";",
   "",
   "readin :: (): string \x7b",
   "    return @c \"readin()\";",
   "\x7d",
   "",
   "prints :: (s: string) \x7b",
   "    @c \"print_s(s);\";",
   "\x7d"]

/-- The paths of all files of the tree in order, with their texts. -/
def files : List (String × String) :=
  [("base/builtin.imp", builtin), ("base/dynamic.h", dynamic), ("base/io.imp", io)]

def lead : String :=
  "base/"

def builtinPath : String :=
  "base/builtin.imp"

/-- The text of a file of the tree. Only its exact path finds it. -/
def find? (path : String) : Option String :=
  (files.find? (·.1 == path)).map (·.2)

end Impulse.Standard
