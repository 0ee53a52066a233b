import Impulse.Proofs.Shadowing
import Impulse.Proofs.Sharing

/-!
# One name, one definition

Structs, enums and functions never share a name. A global variable, together with its field variables, takes names
that nobody has: the names of its field variables are paths into it, and names in a text are not paths. The other
way round it is different. Structs, enums and functions are not compared with global variables, so they can take
the name of a global variable that was declared before, and the constants of such an enum replace the field
variables of the same name. These are the only names with two definitions, and the only global variables that are
ever replaced.
-/

namespace Impulse

open List

namespace Context

variable {c c' : Context}

/-- The name belongs to a struct, an enum or a function. -/
def Defines (c : Context) (name : String) : Prop :=
  ∃ r, r ≠ .globals ∧ name ∈ c.names r

theorem definedIn?_eq_none : c.definedIn? name = none ↔ ¬c.Defines name := by
  have known : ∀ {α : Type} (t : Table α), t.origin? name = none ↔ name ∉ t.names := by
    intro α t
    rw [t.mem_names_iff_origin?, Option.not_isSome_iff_eq_none]
  have each : c.definedIn? name = none ↔
      name ∉ c.structs.names ∧ name ∉ c.enums.names ∧ name ∉ c.functions.names := by
    rw [← known, ← known, ← known]
    unfold definedIn?
    cases c.structs.origin? name <;> cases c.enums.origin? name <;> simp
  rw [each]
  constructor
  · rintro ⟨noStruct, noEnum, noFunction⟩ ⟨r, kind, mem⟩
    cases r with
    | structs => exact noStruct mem
    | enums => exact noEnum mem
    | functions => exact noFunction mem
    | globals => exact kind rfl
  · exact fun free => ⟨fun mem => free ⟨.structs, nofun, mem⟩, fun mem => free ⟨.enums, nofun, mem⟩,
      fun mem => free ⟨.functions, nofun, mem⟩⟩

theorem mem_names_performAll (r : Registry) : name ∈ (c.performAll ops).names r ↔
    name ∈ c.names r ∨ ∃ op ∈ ops, op.name? r = some name := by
  rw [names_performAll]
  by_cases known : name ∈ c.names r
  · simp [known]
  · simp [known, mem_eraseDups]

theorem mem_globals_performAll (known : e ∈ c.globals.entries)
    (others : ∀ op ∈ ops, op.name? .globals ≠ some e.name) : e ∈ (c.performAll ops).globals.entries := by
  unfold performAll
  induction ops generalizing c with
  | nil => exact known
  | cons op ops ih =>
    refine ih ?_ fun op' h => others op' (.tail _ h)
    cases op with
    | addGlobal name x origin =>
      have differs : e.name ≠ name := fun same => others _ (.head _) (congrArg some same.symm)
      unfold perform Table.add
      dsimp only
      split
      · exact mem_map.mpr ⟨e, known, by simp [differs]⟩
      · exact mem_append_left _ known
    | mark key =>
      rw [perform, markImported_imported]
      exact known
    | _ => exact known

/-- What the names of a context look like. Structs, enums and functions have different names. Names of structs and
enums are plain, a function with another name is a method, and a global variable with another name is a field
variable or a constant. -/
structure Rooted (c : Context) : Prop where
  unique : ∀ n r r', r ≠ .globals → r' ≠ .globals → n ∈ c.names r → n ∈ c.names r' → r = r'
  structs : ∀ n ∈ c.names .structs, PlainName n
  enums : ∀ n ∈ c.names .enums, PlainName n
  functions : ∀ n ∈ c.names .functions, PlainName n ∨ ∃ b ∈ c.names .structs, PathInto b n
  globals : ∀ n ∈ c.names .globals, PlainName n ∨
    ∃ b, PlainName b ∧ PathInto b n ∧ (b ∈ c.names .globals ∨ b ∈ c.names .enums)

namespace Rooted

theorem struct_of_path (h : c.Rooted) (plain : PlainName b) (into : PathInto b n)
    (defined : c.Defines n) : b ∈ c.names .structs := by
  obtain ⟨r, kind, mem⟩ := defined
  cases r with
  | structs => exact absurd (h.structs n mem) into.not_plain
  | enums => exact absurd (h.enums n mem) into.not_plain
  | functions =>
    rcases h.functions n mem with plain' | ⟨b', struct, into'⟩
    · exact absurd plain' into.not_plain
    · rwa [plain.base_unique (h.structs b' struct) into into'] at struct
  | globals => exact absurd rfl kind

theorem global_of_path (h : c.Rooted) (plain : PlainName b) (into : PathInto b n)
    (global : n ∈ c.names .globals) : b ∈ c.names .globals ∨ b ∈ c.names .enums := by
  rcases h.globals n global with plain' | ⟨b', plain', into', known⟩
  · exact absurd plain' into.not_plain
  · rwa [plain.base_unique plain' into into'] at known

end Rooted

/-- Which names can have two definitions. Structs, enums and functions have different names. What shares its name
with a global variable is called like a global variable that was declared itself, or by a path into one. -/
structure Separated (c : Context) : Prop where
  unique : ∀ n r r', r ≠ .globals → r' ≠ .globals → n ∈ c.names r → n ∈ c.names r' → r = r'
  shared : ∀ n ∈ c.names .globals, c.Defines n →
    ∃ b ∈ c.names .globals, PlainName b ∧ c.Defines b ∧ (n = b ∨ PathInto b n)

theorem Rooted.separated (h : c.Rooted) : c.Separated where
  unique := h.unique
  shared n global defined := by
    rcases h.globals n global with plain | ⟨b, plain, into, known⟩
    · exact ⟨n, global, plain, defined, .inl rfl⟩
    · -- The path is a method of a struct, which has not the name of an enum.
      have struct := h.struct_of_path plain into defined
      refine ⟨b, known.resolve_right fun enum => ?_, plain, ⟨.structs, nofun, struct⟩, .inr into⟩
      cases h.unique b .structs .enums nofun nofun struct enum

theorem Separated.disjoint_iff (h : c.Separated) :
    (∀ r r', r ≠ r' → (c.names r).Disjoint (c.names r')) ↔ ∀ b ∈ c.names .globals, PlainName b → ¬c.Defines b := by
  constructor
  · rintro disjoint b global - ⟨r, kind, mem⟩
    exact disjoint r .globals kind mem global
  · intro free r r' differ n mem mem'
    have apart : ∀ r, n ∈ c.names r → r ≠ .globals → n ∉ c.names .globals := by
      intro r mem kind global
      obtain ⟨b, known, plain, defined, -⟩ := h.shared n global ⟨r, kind, mem⟩
      exact free b known plain defined
    by_cases kind : r = .globals
    · subst kind
      exact apart r' mem' (Ne.symm differ) mem
    · by_cases kind' : r' = .globals
      · subst kind'
        exact apart r mem kind mem'
      · exact differ (h.unique n r r' kind kind' mem mem')

/-- The operations add the name to the registry. -/
def Adds (ops : List Operation) (r : Registry) (name : String) : Prop :=
  ∃ op ∈ ops, op.name? r = some name

/-- The operations define the name `n` in the registry `r`: nothing else has the name, and it is plain or belongs
to a method. What they add besides are structs that are known, and global variables that come with a global
variable or an enum. -/
structure Defining (c : Context) (r : Registry) (n : String) (ops : List Operation) : Prop where
  fresh : ¬c.Defines n
  unknown : r = .globals → n ∉ c.names .globals
  named : PlainName n ∨ r = .functions ∧ ∃ b ∈ c.names .structs, PathInto b n
  own : Adds ops r n
  others : ∀ r' m, Adds ops r' m → r' = r ∧ m = n ∨ r' = .structs ∧ m ∈ c.names .structs ∨
    r' = .globals ∧ PathInto n m ∧ (r = .enums ∨ r = .globals)

namespace Defining

variable (h : c.Defining r n ops)
include h

theorem plain (kind : r ≠ .functions) : PlainName n :=
  h.named.resolve_right fun method => kind method.1

theorem own_mem : n ∈ (c.performAll ops).names r :=
  (mem_names_performAll r).mpr (.inr h.own)

theorem mem_names (mem : m ∈ (c.performAll ops).names r')
    (kind : r' ≠ .globals) : m ∈ c.names r' ∨ r' = r ∧ m = n := by
  rcases (mem_names_performAll r').mp mem with old | added
  · exact .inl old
  · rcases h.others r' m added with own | ⟨rfl, known⟩ | ⟨global, -⟩
    · exact .inr own
    · exact .inl known
    · exact absurd global kind

theorem global (added : Adds ops .globals m) :
    r = .globals ∧ m = n ∨ PathInto n m ∧ PlainName n ∧ (r = .enums ∨ r = .globals) := by
  rcases h.others .globals m added with ⟨kind, same⟩ | ⟨kind, -⟩ | ⟨-, into, kind⟩
  · exact .inl ⟨kind.symm, same⟩
  · cases kind
  · refine .inr ⟨into, h.plain ?_, kind⟩
    rcases kind with rfl | rfl <;> exact nofun

end Defining

theorem Rooted.define (hc : c.Rooted) (h : c.Defining r n ops) : (c.performAll ops).Rooted := by
  have old : ∀ {r m}, m ∈ c.names r → m ∈ (c.performAll ops).names r :=
    fun mem => (mem_names_performAll _).mpr (.inl mem)
  constructor
  · intro m r₁ r₂ kind₁ kind₂ mem₁ mem₂
    rcases h.mem_names mem₁ kind₁ with old₁ | ⟨rfl, rfl⟩
    · rcases h.mem_names mem₂ kind₂ with old₂ | ⟨rfl, rfl⟩
      · exact hc.unique m r₁ r₂ kind₁ kind₂ old₁ old₂
      · exact absurd ⟨r₁, kind₁, old₁⟩ h.fresh
    · rcases h.mem_names mem₂ kind₂ with old₂ | ⟨rfl, -⟩
      · exact absurd ⟨r₂, kind₂, old₂⟩ h.fresh
      · rfl
  · intro m mem
    rcases h.mem_names mem nofun with known | ⟨rfl, rfl⟩
    · exact hc.structs m known
    · exact h.plain nofun
  · intro m mem
    rcases h.mem_names mem nofun with known | ⟨rfl, rfl⟩
    · exact hc.enums m known
    · exact h.plain nofun
  · intro m mem
    have named : PlainName m ∨ ∃ b ∈ c.names .structs, PathInto b m := by
      rcases h.mem_names mem nofun with known | ⟨rfl, rfl⟩
      · exact hc.functions m known
      · exact h.named.imp_right And.right
    exact named.imp_right fun ⟨b, known, into⟩ => ⟨b, old known, into⟩
  · intro m mem
    rcases (mem_names_performAll .globals).mp mem with known | added
    · refine (hc.globals m known).imp_right ?_
      exact fun ⟨b, plain, into, from'⟩ => ⟨b, plain, into, from'.imp old old⟩
    · rcases h.global added with ⟨rfl, rfl⟩ | ⟨into, plain, rfl | rfl⟩
      · exact .inl (h.plain nofun)
      · exact .inr ⟨n, plain, into, .inr h.own_mem⟩
      · exact .inr ⟨n, plain, into, .inl h.own_mem⟩

/-- What stays when definitions follow. The names of each registry stay in their order. Names that get global were
not those of structs, enums or functions. Global variables stay as they are, except that the constants of a new
enum can replace the field variables of a global variable that is called like it. -/
structure GrowsTo (c c' : Context) : Prop where
  names : ∀ r, c.names r <+: c'.names r
  fresh : ∀ n ∈ c'.names .globals, n ∉ c.names .globals → ¬c.Defines n
  kept : ∀ e ∈ c.globals.entries, e ∈ c'.globals.entries ∨
    ∃ b ∈ c.names .globals, PlainName b ∧ PathInto b e.name ∧ b ∉ c.names .enums ∧ b ∈ c'.names .enums

namespace GrowsTo

theorem defines (h : c.GrowsTo c') (defined : c.Defines n) : c'.Defines n := by
  obtain ⟨r, kind, mem⟩ := defined
  exact ⟨r, kind, (h.names r).subset mem⟩

theorem refl (c : Context) : c.GrowsTo c where
  names _ := prefix_refl _
  fresh _ mem new := absurd mem new
  kept _ he := .inl he

theorem trans (hc : c.Rooted) (h : c.GrowsTo c') (h' : c'.GrowsTo c'') : c.GrowsTo c'' where
  names r := (h.names r).trans (h'.names r)
  fresh n mem new defined := by
    by_cases known : n ∈ c'.names .globals
    · exact h.fresh n known new defined
    · exact h'.fresh n mem known (h.defines defined)
  kept e he := by
    rcases h.kept e he with here | ⟨b, global, plain, into, noEnum, enum⟩
    · rcases h'.kept e here with there | ⟨b, -, plain, into, noEnum, enum⟩
      · exact .inl there
      · have noEnum' : b ∉ c.names .enums := fun mem => noEnum ((h.names .enums).subset mem)
        have global := hc.global_of_path plain into (mem_map_of_mem he)
        exact .inr ⟨b, global.resolve_right noEnum', plain, into, noEnum', enum⟩
    · exact .inr ⟨b, global, plain, into, noEnum, (h'.names .enums).subset enum⟩

theorem define (hc : c.Rooted) (h : c.Defining r n ops) : c.GrowsTo (c.performAll ops) where
  names := names_prefix_performAll c ops
  fresh m mem new defined := by
    rcases (mem_names_performAll .globals).mp mem with known | added
    · exact new known
    · rcases h.global added with ⟨-, rfl⟩ | ⟨into, plain, -⟩
      · exact h.fresh defined
      · exact h.fresh ⟨.structs, nofun, hc.struct_of_path plain into defined⟩
  kept e he := by
    have global : e.name ∈ c.names .globals := mem_map_of_mem he
    by_cases added : Adds ops .globals e.name
    · rcases h.global added with ⟨kind, same⟩ | ⟨into, plain, kind⟩
      · exact absurd (same ▸ global) (h.unknown kind)
      · -- The base is new, so it was not the name of an enum.
        have noEnum : n ∉ c.names .enums := fun mem => h.fresh ⟨.enums, nofun, mem⟩
        have base := (hc.global_of_path plain into global).resolve_right noEnum
        rcases kind with rfl | rfl
        · exact .inr ⟨n, base, plain, into, noEnum, h.own_mem⟩
        · exact absurd base (h.unknown rfl)
    · exact .inl (mem_globals_performAll he fun op mem named => added ⟨op, mem, named⟩)

theorem marked (c : Context) (imported : List UInt64) :
    c.GrowsTo { c with imported := imported } where
  names _ := prefix_refl _
  fresh _ mem new := absurd mem new
  kept _ he := .inl he

end GrowsTo

end Context

namespace Table

variable {t other merged : Table α}

theorem entries_prefix_absorbEntries (t : Table α) (es : List (Entry α)) :
    t.entries <+: (t.absorbEntries es).1.entries := by
  induction es generalizing t with
  | nil => exact prefix_refl _
  | cons e es ih =>
    rw [absorbEntries]
    split
    · split
      · exact ih t
      · exact prefix_refl _
    · next new =>
      have behind : (t.add e.name e.item e.origin).entries
          = t.entries ++ [⟨e.name, e.item, e.origin⟩] := by
        rw [add, if_neg (by simp [has_eq_isSome, new])]
      exact (prefix_append _ _).trans (behind ▸ ih _)

theorem mem_names_iff_get? (t : Table α) (name : String) : name ∈ t.names ↔ t.get? name ≠ none := by
  rw [t.mem_names, get?, ← Option.isSome_iff_ne_none, Option.isSome_map]

theorem mem_names_absorb (taken : t.absorb other = (merged, none)) (name : String) :
    name ∈ merged.names ↔ name ∈ t.names ∨ name ∈ other.names := by
  rw [mem_names_iff_get?, mem_names_iff_get?, mem_names_iff_get?]
  constructor
  · intro found
    obtain ⟨item, found⟩ := Option.ne_none_iff_exists'.mp found
    refine (get?_absorb taken found).imp ?_ ?_ <;> exact fun found => found ▸ Option.some_ne_none _
  · rintro (old | new)
    · obtain ⟨item, old⟩ := Option.ne_none_iff_exists'.mp old
      rw [within_absorb taken name item old]
      exact Option.some_ne_none _
    · exact get?_absorb_ne_none taken new

end Table

namespace Context

variable {c child merged : Context}

theorem names_absorb (taken : c.absorb child = (merged, none)) (r : Registry) :
    c.names r <+: merged.names r ∧ ∀ name, name ∈ merged.names r ↔ name ∈ c.names r ∨ name ∈ child.names r := by
  have each : ∀ {α : Type} {t other merged : Table α}, t.absorb other = (merged, none) →
      t.names <+: merged.names ∧ ∀ name, name ∈ merged.names ↔ name ∈ t.names ∨ name ∈ other.names := by
    intro α t other merged taken
    refine ⟨List.IsPrefix.map _ ?_, Table.mem_names_absorb taken⟩
    have behind := t.entries_prefix_absorbEntries other.entries
    rwa [show t.absorbEntries other.entries = (merged, none) from taken] at behind
  obtain ⟨functions, structs, enums, globals⟩ := absorb_tables taken
  cases r with
  | structs => exact each structs
  | enums => exact each enums
  | functions => exact each functions
  | globals => exact each globals

theorem Rooted.marked (h : c.Rooted) (imported : List UInt64) : Rooted { c with imported := imported } :=
  ⟨h.unique, h.structs, h.enums, h.functions, h.globals⟩

theorem rooted_initial : initial.Rooted := by
  have known : ∀ {r n}, n ∈ initial.names r → r = .functions := by
    intro r n mem
    cases r with
    | functions => rfl
    | _ => cases mem
  constructor
  · exact fun n r r' _ _ mem mem' => (known mem).trans (known mem').symm
  · exact fun n mem => nomatch known mem
  · exact fun n mem => nomatch known mem
  · intro n mem
    rw [show initial.names .functions = ["print", "println"] from rfl] at mem
    have two : n = "print" ∨ n = "println" := by simpa using mem
    rcases two with rfl | rfl <;> exact .inl ⟨by decide, by decide⟩
  · exact fun n mem => nomatch known mem

theorem Rooted.absorb (h : child.Rooted) (grown : c.GrowsTo child)
    (taken : c.absorb child = (merged, none)) : merged.Rooted := by
  have same : ∀ {r n}, n ∈ merged.names r ↔ n ∈ child.names r := by
    intro r n
    rw [(names_absorb taken r).2, or_iff_right_of_imp fun mem => (grown.names r).subset mem]
  constructor
  · intro n r r' kind kind' mem mem'
    exact h.unique n r r' kind kind' (same.mp mem) (same.mp mem')
  · exact fun n mem => h.structs n (same.mp mem)
  · exact fun n mem => h.enums n (same.mp mem)
  · intro n mem
    refine (h.functions n (same.mp mem)).imp_right ?_
    exact fun ⟨b, struct, into⟩ => ⟨b, same.mpr struct, into⟩
  · intro n mem
    refine (h.globals n (same.mp mem)).imp_right ?_
    exact fun ⟨b, plain, into, known⟩ => ⟨b, plain, into, known.imp same.mpr same.mpr⟩

theorem GrowsTo.absorb (grown : c.GrowsTo child) (taken : c.absorb child = (merged, none)) :
    c.GrowsTo merged where
  names r := (names_absorb taken r).1
  fresh n mem new := by
    rcases ((names_absorb taken .globals).2 n).mp mem with known | found
    · exact absurd known new
    · exact grown.fresh n found new
  kept e he := by
    have behind := c.globals.entries_prefix_absorbEntries child.globals.entries
    obtain ⟨-, -, -, globals⟩ := absorb_tables taken
    rw [show c.globals.absorbEntries child.globals.entries = _ from globals] at behind
    exact .inl (behind.subset he)

/-- What holds of the record that is open: its name is plain, and it belongs to nothing until the fields are
complete. No field of an enum occurs twice. -/
def Awaits (c : Context) : Option Record → Prop
  | none => True
  | some (.enum d) => PlainName d.name ∧ ¬c.Defines d.name ∧ d.fields.Nodup
  | some (.struct d) => PlainName d.name ∧
      if d.fieldsOpen then ¬c.Defines d.name else d.name ∈ c.names .structs

namespace Awaits

theorem enum (h : c.Awaits r) (record : r = some (.enum d)) :
    PlainName d.name ∧ ¬c.Defines d.name ∧ d.fields.Nodup := by
  subst record
  exact h

theorem struct {d : StructDraft} (h : c.Awaits r) (record : r = some (.struct d))
    (openFields : d.fieldsOpen = true) : PlainName d.name ∧ ¬c.Defines d.name := by
  subst record
  rwa [Awaits, if_pos openFields] at h

theorem known {d : StructDraft} (h : c.Awaits r) (record : r = some (.struct d))
    (complete : d.fieldsOpen = false) : PlainName d.name ∧ d.name ∈ c.names .structs := by
  subst record
  rwa [Awaits, if_neg (by simp [complete])] at h

theorem congr {c' : Context} (h : c.Awaits r) (same : ∀ r, r ≠ .globals → c'.names r = c.names r) : c'.Awaits r := by
  have defines : ∀ n, c'.Defines n ↔ c.Defines n := by
    intro n
    refine exists_congr fun r => and_congr_right fun kind => ?_
    rw [same r kind]
  match r with
  | none => trivial
  | some (.enum d) => exact ⟨h.1, fun defined => h.2.1 ((defines _).mp defined), h.2.2⟩
  | some (.struct d) =>
    refine ⟨h.1, ?_⟩
    rw [defines, same .structs nofun]
    exact h.2

end Awaits

theorem defining_struct (plain : PlainName name) (fresh : ¬c.Defines name)
    (d : StructDef) (file : String) : c.Defining .structs name [.addStruct name d file] where
  fresh := fresh
  unknown := nofun
  named := .inl plain
  own := ⟨_, .head _, rfl⟩
  others r m h := by
    obtain ⟨op, mem, named⟩ := h
    obtain rfl := mem_singleton.mp mem
    cases r with
    | structs => exact .inl ⟨rfl, (Option.some.inj named).symm⟩
    | _ => cases named

theorem defining_function (fresh : ¬c.Defines sig.name)
    (named : PlainName sig.name ∨ ∃ b ∈ c.names .structs, PathInto b sig.name) (file : String)
    (method : ∀ op ∈ noted, sig.method ∈ c.names .structs ∧ ∃ d origin, op = .addStruct sig.method d origin) :
    c.Defining .functions sig.name (.addFunction sig.name sig file :: noted) where
  fresh := fresh
  unknown := nofun
  named := named.imp_right fun h => ⟨rfl, h⟩
  own := ⟨_, .head _, rfl⟩
  others r m h := by
    obtain ⟨op, mem, named⟩ := h
    rcases mem_cons.mp mem with rfl | mem
    · cases r with
      | functions => exact .inl ⟨rfl, (Option.some.inj named).symm⟩
      | _ => cases named
    · obtain ⟨known, d, origin, rfl⟩ := method op mem
      cases r with
      | structs => exact .inr (.inl ⟨rfl, Option.some.inj named ▸ known⟩)
      | _ => cases named

theorem mem_of_adds {xs : List Variable} (h : Adds (xs.map fun x => .addGlobal x.name x file) r n) :
    r = .globals ∧ ∃ x ∈ xs, x.name = n := by
  obtain ⟨op, mem, named⟩ := h
  obtain ⟨x, hx, rfl⟩ := mem_map.mp mem
  cases r with
  | globals => exact ⟨rfl, x, hx, Option.some.inj named⟩
  | _ => cases named

theorem pathInto_of_mem_enumConstants (h : x ∈ Parse.enumConstants d) : PathInto d.name x.name := by
  unfold Parse.enumConstants at h
  rcases mem_append.mp h with field | count
  · obtain ⟨f, -, rfl⟩ := mem_map.mp field
    exact ⟨f, .inl rfl⟩
  · obtain rfl := mem_singleton.mp count
    exact ⟨"field_count", .inl (by simp [String.append_assoc])⟩

theorem names_enumConstants (d : EnumDraft) :
    (Parse.enumConstants d).map (·.name) = (d.fields ++ ["field_count"]).map (d.name ++ "." ++ ·) := by
  simp [Parse.enumConstants, Function.comp_def, String.append_assoc]

theorem nodup_enumConstants (distinct : d.fields.Nodup) :
    ((Parse.enumConstants d).map (·.name)).Nodup ↔ "field_count" ∉ d.fields := by
  rw [names_enumConstants, nodup_map_iff fun f g same => (String.append_right_inj _).mp same,
    nodup_append_comm, singleton_append, nodup_cons, and_iff_left distinct]

theorem defining_enum (plain : PlainName d.name) (fresh : ¬c.Defines d.name)
    (e : EnumDef) (file : String) :
    c.Defining .enums d.name (.addEnum d.name e file ::
      (Parse.enumConstants d).map fun x => .addGlobal x.name x file) where
  fresh := fresh
  unknown := nofun
  named := .inl plain
  own := ⟨_, .head _, rfl⟩
  others r m h := by
    obtain ⟨op, mem, named⟩ := h
    rcases mem_cons.mp mem with rfl | mem
    · cases r with
      | enums => exact .inl ⟨rfl, (Option.some.inj named).symm⟩
      | _ => cases named
    · obtain ⟨rfl, x, hx, rfl⟩ := mem_of_adds ⟨op, mem, named⟩
      exact .inr (.inr ⟨rfl, pathInto_of_mem_enumConstants hx, .inl rfl⟩)

theorem defining_global {x : Variable} (plain : PlainName x.name) (fresh : ¬c.Defines x.name)
    (unknown : x.name ∉ c.names .globals) (file : String) :
    c.Defining .globals x.name ((c.introduced x).map fun y => .addGlobal y.name y file) where
  fresh := fresh
  unknown _ := unknown
  named := .inl plain
  own := ⟨_, mem_map_of_mem (.head _), rfl⟩
  others r m h := by
    obtain ⟨rfl, y, hy, rfl⟩ := mem_of_adds h
    have brought : y ∈ (Declaration.mk c x).introduced := hy
    rcases Declaration.name_of_mem_introduced brought with same | into
    · exact .inl ⟨rfl, same⟩
    · exact .inr (.inr ⟨rfl, into, .inr rfl⟩)

theorem performAll_addGlobal (c : Context) (xs : List Variable) (file : String) :
    c.performAll (xs.map fun x => .addGlobal x.name x file)
      = { c with globals := xs.foldl (fun t x => t.add x.name x file) c.globals } := by
  induction xs generalizing c with
  | nil => rfl
  | cons x xs ih => exact ih (c.perform (.addGlobal x.name x file))

theorem registered_eq (c : Context) (sig : Signature) (file : String) :
    ∃ noted : List Operation, c.registered sig file = c.performAll (.addFunction sig.name sig file :: noted) ∧
      ∀ op ∈ noted, sig.method ≠ "" ∧ ∃ d origin, op = .addStruct sig.method d origin := by
  unfold registered
  dsimp only
  split
  · exact ⟨[], rfl, forall_mem_nil _⟩
  · next method =>
    refine ⟨[.addStruct sig.method _ _], rfl, fun op mem => ⟨method, _, _, mem_singleton.mp mem⟩⟩

end Context

namespace State

variable {s s' : State}

/-- What holds of the names wherever a file is read. -/
structure Apart (s : State) : Prop where
  rooted : s.context.Rooted
  awaits : s.context.Awaits s.record

theorem Step.defining (hs : s.Apart) (h : Step settings s s') :
    (∃ imported, s'.context = { s.context with imported := imported }) ∨
      ∃ r n ops, s.context.Defining r n ops ∧ s'.context = s.context.performAll ops := by
  have same : ∀ {s' : State}, s'.context = s.context →
      (∃ imported, s'.context = { s.context with imported := imported }) ∨
      ∃ r n ops, s.context.Defining r n ops ∧ s'.context = s.context.performAll ops :=
    fun h => .inl ⟨s.context.imported, h⟩
  cases h with
  | idle | load | defer | structField | enumField | closeStruct | closeDeferred => exact same rfl
  | mark key => exact .inl ⟨_, s.context.markImported_imported key⟩
  | header =>
    rw [emitted_context]
    exact .inl ⟨_, s.context.markImported_imported _⟩
  | write | result | closeOther => exact same (by simp)
  | declare _ h inside =>
    cases h with
    | asGlobal _ outside => exact absurd outside inside
    | asLocal => exact same rfl
  | @define _ _ x _ _ _ h _ _ _ _ plain =>
    rw [emitted_context]
    cases h with
    | asGlobal may outside bottom fresh declared =>
      refine .inr ⟨_, _, _, Context.defining_global plain ?_ ?_ s.file, ?_⟩
      · exact Context.definedIn?_eq_none.mp may.undefined
      · exact fun known => (Table.mem_names_iff_get? _ _).mp known fresh
      · exact (Context.performAll_addGlobal _ _ _).symm
    | asLocal => exact .inl ⟨_, rfl⟩
  | begin => exact same (by simp [State.opened])
  | loop _ _ _ _ _ inside _ counts _ =>
    rw [emitted_context]
    cases counts with
    | known => exact .inl ⟨_, rfl⟩
    | introduced _ h =>
      cases h with
      | asGlobal _ outside => exact absurd outside inside
      | asLocal => exact .inl ⟨_, rfl⟩
  | @fields d record openFields =>
    obtain ⟨plain, fresh⟩ := hs.awaits.struct record openFields
    refine .inr ⟨_, _, _, Context.defining_struct plain fresh
      { name := d.name, fields := d.fields, generics := d.generics } s.file, ?_⟩
    rw [finishedFields, emitted_context, emitted_context]
    rfl
  | @function t brace sig placeholders outside place fresh _ named =>
    obtain ⟨noted, registered, methods⟩ := s.context.registered_eq sig s.file
    have context : (s.entered t brace sig placeholders).context = s.context.registered sig s.file := by
      simp [State.entered, State.opened]
    refine .inr ⟨_, _, _, Context.defining_function (Context.definedIn?_eq_none.mp fresh) ?_ s.file ?_,
      context.trans registered⟩
    · rcases place with ⟨noRecord, -⟩ | ⟨d, record, complete, -⟩
      · exact .inl (named.1 noRecord)
      · obtain ⟨own, -, path⟩ := named.2 d record
        exact .inr ⟨d.name, (hs.awaits.known record complete).2, own, .inl path⟩
    · intro op mem
      obtain ⟨method, added⟩ := methods op mem
      rcases place with ⟨-, -, none⟩ | ⟨d, record, complete, same⟩
      · exact absurd none method
      · exact ⟨same ▸ (hs.awaits.known record complete).2, added⟩
  | struct | enum => exact same (by simp [State.recorded, State.opened])
  | @closeEnum _ _ d _ _ record =>
    obtain ⟨plain, fresh, -⟩ := hs.awaits.enum record
    refine .inr ⟨_, _, _, Context.defining_enum plain fresh { name := d.name, fields := d.fields } s.file, ?_⟩
    change (s.finishedEnum d).context = _
    rw [finishedEnum, emitted_context, emitted_context, emitted_context]
    exact (Context.performAll_addGlobal (s.context.perform (.addEnum d.name _ s.file)) _ _).symm

namespace Apart

theorem rooted_step (hs : s.Apart) (h : Step settings s s') : s'.context.Rooted ∧ s.context.GrowsTo s'.context := by
  rcases h.defining hs with ⟨imported, same⟩ | ⟨r, n, ops, defining, same⟩
  · rw [same]
    exact ⟨hs.rooted.marked imported, .marked _ _⟩
  · rw [same]
    exact ⟨hs.rooted.define defining, .define hs.rooted defining⟩

theorem step (hs : s.Apart) (h : Step settings s s') : s'.Apart := by
  obtain ⟨rooted, grown⟩ := hs.rooted_step h
  refine ⟨rooted, ?_⟩
  have same : ∀ {s' : State}, s'.context = s.context → s'.record = s.record →
      s'.context.Awaits s'.record := by
    intro s' context record
    rw [context, record]
    exact hs.awaits
  have marked : ∀ key, ((s.context.markImported key).2).Awaits s.record := by
    intro key
    refine hs.awaits.congr fun r _ => ?_
    rw [Context.markImported_imported]
    rfl
  have declared : ∀ {x s'}, s.Declares x s' → s'.context.Awaits s'.record := by
    intro x s' h
    cases h with
    | asGlobal =>
      refine hs.awaits.congr fun r kind => ?_
      cases r with
      | globals => exact absurd rfl kind
      | _ => rfl
    | asLocal => exact hs.awaits
  cases h with
  | idle | load | defer | closeDeferred => exact hs.awaits
  | mark key => exact marked key
  | header => simpa using marked _
  | write | result | closeOther => exact same (by simp) (by simp)
  | declare _ h => exact declared h
  | define _ h => simpa using declared h
  | begin => exact same (by simp [State.opened]) (by simp [State.opened])
  | loop _ _ _ _ _ inside _ counts _ =>
    rw [emitted_context, emitted_record]
    cases counts with
    | known => exact hs.awaits
    | introduced _ h =>
      cases h with
      | asGlobal _ outside => exact absurd outside inside
      | asLocal => exact hs.awaits
  | @fields d record openFields =>
    obtain ⟨plain, fresh⟩ := hs.awaits.struct record openFields
    simp only [State.finishedFields, emitted_context, emitted_record]
    exact ⟨plain, (Context.defining_struct plain fresh _ s.file).own_mem⟩
  | @function t brace sig placeholders _ place =>
    have kept : (s.entered t brace sig placeholders).record = s.record := by
      simp [State.entered, State.opened]
    rw [kept]
    rcases place with ⟨noRecord, -⟩ | ⟨d, record, complete, -⟩
    · rw [noRecord]
      exact trivial
    · obtain ⟨plain, known⟩ := hs.awaits.known record complete
      rw [record, Context.Awaits, if_neg (by simp [complete])]
      exact ⟨plain, (grown.names .structs).subset known⟩
  | struct _ _ _ _ _ fresh plain =>
    simp only [State.recorded, State.opened, emitted_context, emitted_record]
    exact ⟨plain, Context.definedIn?_eq_none.mp fresh⟩
  | enum _ _ _ _ fresh plain =>
    simp only [State.recorded, State.opened, emitted_context, emitted_record]
    exact ⟨plain, Context.definedIn?_eq_none.mp fresh, nodup_nil⟩
  | structField record =>
    have awaits := hs.awaits
    rw [record] at awaits
    exact awaits
  | enumField record _ fresh =>
    obtain ⟨plain, undefined, distinct⟩ := hs.awaits.enum record
    exact ⟨plain, undefined, by simpa using distinct.concat fresh⟩
  | closeStruct | closeEnum => exact trivial

theorem child (hs : s.Apart) (t : Token) (source : Source) (last : Token) :
    ((s.noted t source).child source last).Apart := by
  refine ⟨?_, trivial⟩
  simp only [State.child, State.noted, emitted_context]
  rw [Context.markImported_imported]
  exact hs.rooted.marked _

end Apart

theorem Steps.growsTo (nested : s.Nested) (hs : s.Apart) (h : Steps settings s s') :
    s'.Apart ∧ s.context.GrowsTo s'.context := by
  induction h with
  | refl => exact ⟨hs, .refl _⟩
  | step _ h' ih =>
    obtain ⟨hs₁, grown⟩ := ih nested hs
    exact ⟨hs₁.step h', grown.trans hs.rooted (hs₁.rooted_step h').2⟩
  | @imports s s₁ c t last source merged h bottom _ _ _ _ taken ih ihInside =>
    obtain ⟨hs₁, grown⟩ := ih nested hs
    obtain ⟨hc, inside⟩ := ihInside (.child ..) (hs₁.child t source last)
    have begun : s₁.context.GrowsTo (s₁.noted t source).context := by
      simp only [State.noted, emitted_context]
      rw [Context.markImported_imported]
      exact .marked _ _
    have noRecord : ((s₁.noted t source).absorbed c merged).record = none := by
      have none := ((nested.steps h).of_blocks_nil bottom).2.1
      simpa [State.absorbed, State.noted] using none
    refine ⟨⟨hc.rooted.absorb inside taken, ?_⟩, ?_⟩
    · rw [noRecord]
      exact trivial
    · exact grown.trans hs.rooted (begun.trans hs₁.rooted (inside.absorb taken))

theorem Apart.start (library : Library) (path text : String) (last : Token) :
    (State.start library path text last).Apart := by
  refine ⟨?_, trivial⟩
  simp only [State.start]
  rw [Context.markImported_imported]
  exact Context.rooted_initial.marked _

end State

theorem Moment.apart (h : Moment settings library path text fuel s toks) : s.Apart := by
  refine invariant (P := State.Apart) ?_ ?_ ?_ h
  · exact fun last => .start library path text last
  · exact fun nested hs steps => (steps.growsTo nested hs).1
  · exact fun hs _ => hs.child _ _ _

/-- At every moment of reading a program, in the main file and in the imported ones, structs, enums and functions
have different names, and they share names with global variables only where they are called like a global variable,
or by paths into one. Every token keeps the names in their order. What gets global at a token was not the name of a
struct, an enum or a function before; global variables stay as they are, except that an enum that is called like a
global variable can replace the field variables of it. The constants of an enum have different names, unless a field
is called like their number. So if a program is accepted, and nothing is called like one of its global variables, no
name has two definitions. -/
theorem compile_separated (settings : Settings) (library : Library) (path text : String) :
    (∀ fuel s toks, Moment settings library path text fuel s toks → s.context.Separated) ∧
    (∀ fuel s t toks s', Moment settings library path text fuel s (t :: toks) →
      Parse.token (Parse.importFile fuel) t settings s = .ok () s' → s.context.GrowsTo s'.context) ∧
    (∀ fuel s toks d, Moment settings library path text fuel s toks → s.record = some (.enum d) →
      "field_count" ∉ d.fields → ((Parse.enumConstants d).map (·.name)).Nodup) ∧
    ((compile settings library path text).stop = none →
      (compile settings library path text).context.Separated ∧
      ((∀ r r', r ≠ r' → ((compile settings library path text).context.names r).Disjoint
          ((compile settings library path text).context.names r')) ↔
        ∀ b ∈ (compile settings library path text).context.names .globals, PlainName b →
          ¬(compile settings library path text).context.Defines b)) := by
  refine ⟨fun _ _ _ h => h.apart.rooted.separated, ?_, ?_, ?_⟩
  · intro fuel s t toks s' h read
    have ready : s.Ready True fuel := h.ready (.inl trivial)
    exact ((h.steps_of_token read).growsTo ready.nested h.apart).2
  · intro fuel s toks d h record others
    obtain ⟨-, -, distinct⟩ := h.apart.awaits.enum record
    exact (Context.nodup_enumConstants distinct).mpr others
  · intro accepted
    obtain ⟨last, s, steps, -, -, context⟩ := compile_ok accepted
    have apart := (steps.growsTo (.start ..) (.start library path text last)).1
    rw [context]
    exact ⟨apart.rooted.separated, apart.rooted.separated.disjoint_iff⟩

/-- Whether a program without imports is accepted, and what is known in the end passes a test. -/
def acceptedWith (text : String) (test : Context → Bool) : Bool :=
  let found := compile Settings.plain (.memory []) "main.imp" text
  found.stop.isNone && test found.context

theorem of_acceptedWith (h : acceptedWith text test = true) :
    (compile Settings.plain (.memory []) "main.imp" text).stop = none ∧
      test (compile Settings.plain (.memory []) "main.imp" text).context = true := by
  obtain ⟨accepted, passed⟩ := Bool.and_eq_true_iff.mp h
  exact ⟨Option.isNone_iff_eq_none.mp accepted, passed⟩

def coloring : String :=
  "P :: struct \x7b Red: int; \x7d c: P; Color :: enum \x7b Red; \x7d f :: () \x7b \x7d"

theorem compile_separated_coloring :
    (compile Settings.plain (.memory []) "main.imp" coloring).stop = none ∧
    ∀ r r', r ≠ r' → ((compile Settings.plain (.memory []) "main.imp" coloring).context.names r).Disjoint
      ((compile Settings.plain (.memory []) "main.imp" coloring).context.names r') := by
  have run : acceptedWith coloring (fun c => (c.names .globals).all fun b => (c.definedIn? b).isNone)
      = true := by decide +kernel
  obtain ⟨accepted, free⟩ := of_acceptedWith run
  obtain ⟨-, -, -, whole⟩ := compile_separated Settings.plain (.memory []) "main.imp" coloring
  refine ⟨accepted, (whole accepted).2.mpr fun b mem _ => ?_⟩
  have unknown := all_eq_true.mp free b mem
  exact Context.definedIn?_eq_none.mp (Option.isNone_iff_eq_none.mp unknown)

def sharing : String :=
  "x: int; x :: () \x7b \x7d"

/-- An enum that is called like a global variable, with a constant that is called like a field. -/
def recoloring : String :=
  "P :: struct \x7b Red: int; \x7d Color: P; Color :: enum \x7b Red; \x7d"

def redIsConstant (c : Context) : Option Bool :=
  (c.globals.get? "Color.Red").map (·.const)

/-- Two definitions can share a name: a function can be called like a global variable that was declared before. And
global variables can be replaced: the constant of an enum takes the place of a field variable. -/
theorem exists_sharing_and_recoloring :
    (compile Settings.plain (.memory []) "main.imp" sharing).stop = none ∧
    "x" ∈ (compile Settings.plain (.memory []) "main.imp" sharing).context.names .globals ∧
    "x" ∈ (compile Settings.plain (.memory []) "main.imp" sharing).context.names .functions ∧
    ∃ fuel s toks, Moment Settings.plain (.memory []) "main.imp" recoloring fuel s toks ∧
      redIsConstant s.context = some false ∧ (compile Settings.plain (.memory []) "main.imp" recoloring).stop = none ∧
      redIsConstant (compile Settings.plain (.memory []) "main.imp" recoloring).context = some true := by
  have shared : acceptedWith sharing (fun c =>
      decide ("x" ∈ c.names .globals ∧ "x" ∈ c.names .functions)) = true := by decide +kernel
  have replaced : acceptedWith recoloring (fun c => redIsConstant c == some true) = true := by
    decide +kernel
  -- The first 13 tokens end behind the declaration of the variable.
  have run : (stateBefore? Settings.plain (.memory []) "main.imp" recoloring 13).map
      (fun s => redIsConstant s.context) = some (some false) := by decide +kernel
  obtain ⟨s, before, isVariable⟩ := Option.map_eq_some_iff.mp run
  obtain ⟨toks, moment⟩ := Moment.of_stateBefore? (by decide) before
  obtain ⟨accepted, both⟩ := of_acceptedWith shared
  obtain ⟨accepted', constant⟩ := of_acceptedWith replaced
  obtain ⟨global, function⟩ := of_decide_eq_true both
  exact ⟨accepted, global, function, _, s, toks, moment, isVariable, accepted', by simpa using constant⟩

end Impulse
