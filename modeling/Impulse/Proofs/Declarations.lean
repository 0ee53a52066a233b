import Impulse.Proofs.FieldVariables
import Impulse.Proofs.Names
import Impulse.Reading.Definition

/-!
# The declarations behind what can be seen

A frame shows the variables of its own declarations and of those around it, and forgets which declaration a
variable came with. Here the declarations that are in force are listed beside a scope and beside the global
variables, and looking up a name is looking for it in these declarations, the nearest first.
-/

namespace Impulse

open List

variable {d : Declaration} {xs : List Variable} {t : Table Variable}

/-- A variable with the context in which it was declared. -/
structure Declaration where
  context : Context
  var : Variable

namespace Declaration

def fields (d : Declaration) : List Variable :=
  d.context.fieldsOf d.var

def introduced (d : Declaration) : List Variable :=
  d.context.introduced d.var

def find? (d : Declaration) (name : String) : Option Variable :=
  d.introduced.find? (·.name == name)

theorem mem_introduced : y ∈ d.introduced ↔ y = d.var ∨ y ∈ d.fields :=
  mem_cons

theorem var_mem (d : Declaration) : d.var ∈ d.introduced :=
  .head _

theorem mem_of_find? (h : d.find? name = some y) : y ∈ d.introduced ∧ y.name = name :=
  ⟨mem_of_find?_eq_some h, by simpa using List.find?_some h⟩

theorem find?_eq_none : d.find? name = none ↔ ∀ z ∈ d.introduced, z.name ≠ name := by
  simp [find?]

end Declaration

namespace Declaration

theorem pathInto_of_mem_fields (h : y ∈ d.fields) : PathInto d.var.name y.name := by
  obtain ⟨rest, named⟩ := (Context.field_of_mem_fieldsOf h).name_eq
  refine ⟨rest, ?_⟩
  split at named
  · exact .inr named
  · exact .inl named

theorem name_of_mem_introduced (h : y ∈ d.introduced) : y.name = d.var.name ∨ PathInto d.var.name y.name := by
  rcases mem_introduced.mp h with rfl | field
  · exact .inl rfl
  · exact .inr (pathInto_of_mem_fields field)

theorem var_of_plain (h : y ∈ d.introduced) (plain : PlainName y.name) : y = d.var := by
  rcases mem_introduced.mp h with rfl | field
  · rfl
  · exact absurd plain (pathInto_of_mem_fields field).not_plain

end Declaration

theorem PlainName.field_or_longer (plain : PlainName b) (into : PathInto b y.name) (brought : y ∈ d.introduced) :
    d.var.name = b ∧ y ∈ d.fields ∨ ∃ more, more ≠ "" ∧ d.var.name = b ++ more := by
  refine (plain.eq_or_extends into (Declaration.name_of_mem_introduced brought)).imp_left ?_
  intro same
  refine ⟨same, (Declaration.mem_introduced.mp brought).resolve_left ?_⟩
  rintro rfl
  exact into.ne same

/-- The scope was built by declarations. Each frame has a list of those that are its own, and the latest ones
come first. -/
inductive Scope.DeclaredBy : Scope → List (List Declaration) → Prop
  | empty : DeclaredBy .empty [[]]
  | push {s : Scope} {frames : List (List Declaration)} (h : DeclaredBy s frames) (kind : FrameKind) :
      DeclaredBy (s.push kind) ([] :: frames)
  | declare {s s' : Scope} {d : Declaration} {own : List Declaration}
      {outer : List (List Declaration)} (h : DeclaredBy s (own :: outer))
      (declared : s.declareList? d.introduced = some s') : DeclaredBy s' ((d :: own) :: outer)

namespace Scope

theorem find?_declareList? {s s' : Scope} (h : s.declareList? xs = some s') (name : String) :
    s'.find? name = (xs.find? (·.name == name)).or (s.find? name) := by
  cases found : xs.find? (·.name == name) with
  | some x =>
    have named : x.name = name := by simpa using List.find?_some found
    rw [← named]
    exact find?_declareList?_of_mem h (mem_of_find?_eq_some found)
  | none =>
    refine find?_declareList?_of_not_mem h ?_
    simpa using found

namespace DeclaredBy

variable {s s' : Scope}

theorem find?_eq {frames} (h : s.DeclaredBy frames) (name : String) :
    s.find? name = frames.flatten.findSome? (·.find? name) := by
  induction h with
  | empty => rfl
  | push h kind ih => exact ih
  | @declare s s' d own outer h declared ih =>
    rw [find?_declareList? declared, ih, flatten_cons, flatten_cons, cons_append, List.findSome?_cons]
    unfold Declaration.find?
    cases d.introduced.find? (·.name == name) with
    | none | some x => rfl

theorem pop {frames} (h : s.DeclaredBy frames) (popped : s.pop? = some s') : s'.DeclaredBy frames.tail := by
  induction h with
  | empty => cases popped
  | push h kind _ =>
    cases popped
    exact h
  | declare h declared ih =>
    refine ih ?_
    unfold Scope.pop? at popped ⊢
    rw [below_declareList? declared] at popped
    exact popped

theorem modifyHead {frames} (h : s.DeclaredBy frames) (declared : s.declareList? d.introduced = some s') :
    s'.DeclaredBy (frames.modifyHead (d :: ·)) := by
  cases frames with
  | nil => cases h
  | cons own outer => exact .declare h declared

end DeclaredBy

end Scope

/-- The global variables come from declarations and enums, and all declarations have different names. -/
structure Table.DeclaredBy (t : Table Variable) (declarations : List Declaration)
    (enums : List EnumDraft) : Prop where
  origin : ∀ name y, t.get? name = some y → y.name = name ∧
    ((∃ d ∈ declarations, y ∈ d.introduced) ∨ ∃ e ∈ enums, y ∈ Parse.enumConstants e)
  present : ∀ d ∈ declarations, t.get? d.var.name ≠ none
  distinct : (declarations.map (·.var.name)).Nodup

namespace Table

theorem get?_foldl_add (xs : List Variable) (t : Table Variable) (origin name : String) :
    (xs.foldl (fun t x => t.add x.name x origin) t).get? name =
      (xs.reverse.find? (·.name == name)).or (t.get? name) := by
  induction xs generalizing t with
  | nil => rfl
  | cons x xs ih =>
    rw [foldl_cons, ih, get?_add, reverse_cons, List.find?_append, Option.or_assoc]
    by_cases same : name = x.name
    · simp [same]
    · simp [same, Ne.symm same]

theorem mem_of_get?_foldl_add (h : (xs.foldl (fun t x => t.add x.name x origin) t).get? name = some y) :
    y ∈ xs ∧ y.name = name ∨ t.get? name = some y := by
  rw [get?_foldl_add, Option.or_eq_some_iff] at h
  refine h.imp (fun new => ?_) And.right
  exact ⟨mem_reverse.mp (mem_of_find?_eq_some new), by simpa using List.find?_some new⟩

theorem get?_foldl_add_ne_none (h : t.get? name ≠ none ∨ name ∈ xs.map (·.name)) :
    (xs.foldl (fun t x => t.add x.name x origin) t).get? name ≠ none := by
  rw [get?_foldl_add, ne_eq, Option.or_eq_none_iff, List.find?_eq_none]
  rintro ⟨new, old⟩
  obtain ⟨x, mem, same⟩ := mem_map.mp (h.resolve_left (absurd old))
  exact new x (mem_reverse.mpr mem) (beq_iff_eq.mpr same)

namespace DeclaredBy

theorem empty : DeclaredBy {} [] [] where
  origin _ _ h := by cases h
  present := nofun
  distinct := .nil

variable (h : t.DeclaredBy declarations enums)
include h

theorem declare (fresh : t.get? d.var.name = none) (origin : String) :
    DeclaredBy (d.introduced.foldl (fun t x => t.add x.name x origin) t) (d :: declarations) enums where
  origin name y hy := by
    rcases mem_of_get?_foldl_add hy with ⟨mem, named⟩ | old
    · exact ⟨named, .inl ⟨d, .head _, mem⟩⟩
    · obtain ⟨named, source⟩ := h.origin name y old
      exact ⟨named, source.imp_left fun ⟨d', hd', mem⟩ => ⟨d', .tail _ hd', mem⟩⟩
  present d' hd' := by
    refine get?_foldl_add_ne_none ?_
    rcases mem_cons.mp hd' with rfl | hd'
    · exact .inr (mem_map_of_mem d'.var_mem)
    · exact .inl (h.present d' hd')
  distinct := by
    refine nodup_cons.mpr ⟨fun mem => ?_, h.distinct⟩
    obtain ⟨d', hd', same⟩ := mem_map.mp mem
    refine h.present d' hd' ?_
    rw [same]
    exact fresh

theorem enum (e : EnumDraft) (origin : String) :
    DeclaredBy ((Parse.enumConstants e).foldl (fun t x => t.add x.name x origin) t) declarations (e :: enums) where
  origin name y hy := by
    rcases mem_of_get?_foldl_add hy with ⟨mem, named⟩ | old
    · exact ⟨named, .inr ⟨e, .head _, mem⟩⟩
    · obtain ⟨named, source⟩ := h.origin name y old
      exact ⟨named, source.imp_right fun ⟨e', he', mem⟩ => ⟨e', .tail _ he', mem⟩⟩
  present d hd := get?_foldl_add_ne_none (.inl (h.present d hd))
  distinct := h.distinct

theorem absorb (ho : other.DeclaredBy more moreEnums)
    (declarations_sub : declarations ⊆ more) (enums_sub : enums ⊆ moreEnums)
    (taken : t.absorb other = (merged, none)) : merged.DeclaredBy more moreEnums where
  origin name y hy := by
    rcases get?_absorb taken hy with old | new
    · obtain ⟨named, source⟩ := h.origin name y old
      refine ⟨named, source.imp ?_ ?_⟩
      · exact fun ⟨d, hd, mem⟩ => ⟨d, declarations_sub hd, mem⟩
      · exact fun ⟨e, he, mem⟩ => ⟨e, enums_sub he, mem⟩
    · exact ho.origin name y new
  present d hd := get?_absorb_ne_none taken (ho.present d hd)
  distinct := ho.distinct

theorem of_plain (plain : PlainName b) (found : t.get? b = some x) : ∃ d ∈ declarations, d.var = x := by
  obtain ⟨named, ⟨d, hd, mem⟩ | ⟨e, -, mem⟩⟩ := h.origin b x found
  · exact ⟨d, hd, (Declaration.var_of_plain mem (named.symm ▸ plain)).symm⟩
  · exfalso
    -- The names of constants hold a point.
    have point : '.' ∈ x.name.toList := by
      unfold Parse.enumConstants at mem
      rcases mem_append.mp mem with field | count
      · obtain ⟨f, -, rfl⟩ := mem_map.mp field
        simp
      · obtain rfl := mem_singleton.mp count
        simp
    rw [named] at point
    exact plain.noPoint point

end DeclaredBy

end Table

end Impulse
