import Impulse.Proofs.FieldPaths

/-!
# Flattening structs

Declaring the fields of a variable walks over the definitions of structs, depth first, and stops where a struct is being
unfolded already. The walk is compared here with all the paths there are through the fields of a type: a path gets a
variable exactly if no struct is unfolded twice along it. That ends the walk for structs that point to themselves, and it
also ends it inside of a generic struct that is held by itself with other arguments, where the paths come to an end.
-/

namespace Impulse

open List

variable {c : Context}

namespace Scope

theorem declareUntil_cases {s : Scope} (distinct : (xs.map (·.name)).Nodup) :
    (∃ s', (∀ x ∈ xs, x.name ∉ s.top.own) ∧ s.declareList? xs = some s' ∧ s.declareUntil xs = (s', none)) ∨
    ∃ front x back s', xs = front ++ x :: back ∧ (∀ y ∈ front, y.name ∉ s.top.own) ∧ x.name ∈ s.top.own ∧
      s.declareList? front = some s' ∧ s.declareUntil xs = (s', some (.redeclared x.name)) := by
  by_cases new : ∀ x ∈ xs, x.name ∉ s.top.own
  · obtain ⟨s', all⟩ := exists_declareList? new distinct
    exact .inl ⟨s', new, all, declareUntil_eq_none.mpr all⟩
  · -- the list splits at the first variable whose name is taken
    have taken : ∃ x ∈ xs, s.top.own.contains x.name = true := by simpa using new
    obtain ⟨x, found⟩ := Option.isSome_iff_exists.mp (List.find?_isSome.mpr taken)
    obtain ⟨owned, front, back, rfl, free⟩ := List.find?_eq_some_iff_append.mp found
    have new' : ∀ y ∈ front, y.name ∉ s.top.own := fun y hy => by simpa using free y hy
    rw [map_append] at distinct
    obtain ⟨s', all⟩ := exists_declareList? new' (nodup_append.mp distinct).1
    have owned' : s'.top.own.contains x.name = true := by
      rw [(own_declareList? all).1]
      simp only [contains_append, owned, Bool.true_or]
    refine .inr ⟨front, x, back, s', rfl, new', by simpa using owned, all, ?_⟩
    rw [declareUntil_append, declareUntil_eq_none.mpr all]
    show s'.declareUntil (x :: back) = _
    rw [declareUntil, declare?, if_pos owned']
    rfl

/-- The top frame gets more variables of its own, in order, and nothing else changes. -/
structure Adds (s : Scope) (xs : List Variable) (s' : Scope) : Prop where
  below : s'.below = s.below
  own : s'.top.own = s.top.own ++ xs.map (·.name)
  declared : s'.top.declared = s.top.declared ++ xs
  others : ∀ n, n ∉ xs.map (·.name) → s'.find? n = s.find? n

theorem adds_of_declareList? {s s' : Scope} (h : s.declareList? xs = some s') : s.Adds xs s' where
  below := below_declareList? h
  own := (own_declareList? h).1
  declared := declared_declareList? h
  others _ := find?_declareList?_of_not_mem h

end Scope

namespace Context

/-- One link of a path: the field at a position of a struct, which is held or pointed to. -/
structure Link where
  struct : String
  args : List Ty
  pointer : Bool
  field : Nat

/-- The paths through the fields of a type: the links, how the path is spelled, and the type it leads to. A struct can be
unfolded again inside of itself. -/
inductive FieldPath (c : Context) : Ty → List Link → String → Ty → Prop
  | nil {ty : Ty} : FieldPath c ty [] "" ty
  | cons {ty ty' : Ty} {l : Link} {links : List Link} {d : StructDef} {f : Param} {rest : String}
      (target : ty.structTarget? = some (l.pointer, l.struct, l.args))
      (known : c.structs.get? l.struct = some d) (field : d.fields[l.field]? = some f)
      (h : FieldPath c (f.ty.subst (d.bindings l.args)) links rest ty') :
      FieldPath c ty (l :: links) (signText l.pointer ++ f.name ++ rest) ty'

/-- No struct is unfolded twice along a path, and none that is open already. -/
def Unrepeated (opened : List String) (links : List Link) : Prop :=
  (links.map (·.struct)).Nodup ∧ ∀ l ∈ links, l.struct ∉ opened

theorem unrepeated_cons :
    Unrepeated opened (l :: links) ↔ l.struct ∉ opened ∧ Unrepeated (l.struct :: opened) links := by
  unfold Unrepeated
  rw [map_cons, nodup_cons, forall_mem_cons]
  constructor
  · rintro ⟨⟨once, distinct⟩, closed, apart⟩
    refine ⟨closed, distinct, fun l' hl' again => ?_⟩
    rcases mem_cons.mp again with same | old
    · exact once (mem_map.mpr ⟨l', hl', same⟩)
    · exact apart l' hl' old
  · rintro ⟨closed, distinct, apart⟩
    refine ⟨⟨fun again => ?_, distinct⟩, closed, fun l' hl' old => apart l' hl' (.tail _ old)⟩
    obtain ⟨l', hl', same⟩ := mem_map.mp again
    exact apart l' hl' (same ▸ .head _)

/-- A path that leads from a variable to one of its field variables, along which no struct is unfolded twice. -/
def Leads (c : Context) (opened : List String) (x : Variable) (links : List Link) (y : Variable) : Prop :=
  links ≠ [] ∧ Unrepeated opened links ∧ ∃ suffix ty, c.FieldPath x.ty links suffix ty ∧
    y = { name := x.name ++ suffix, ty := ty, const := x.const }

theorem leads_cons (target : x.ty.structTarget? = some (pointer, name, args))
    (known : c.structs.get? name = some d) (closed : name ∉ opened) :
    c.Leads opened x (l :: links) y ↔ ∃ i f, l = ⟨name, args, pointer, i⟩ ∧ d.fields[i]? = some f ∧
      (links = [] ∧ y = fieldVariable (x.name ++ signText pointer) x.const (d.bindings args) f ∨
        c.Leads (name :: opened) (fieldVariable (x.name ++ signText pointer) x.const (d.bindings args) f) links y) := by
  unfold Leads
  rw [unrepeated_cons]
  constructor
  · rintro ⟨-, ⟨-, unrepeated⟩, _, ty, path, rfl⟩
    cases path with
    | @cons _ _ _ _ d' f rest target' known' field path =>
      obtain ⟨struct, args', pointer', i⟩ := l
      cases target.symm.trans target'
      cases known.symm.trans known'
      refine ⟨i, f, rfl, field, ?_⟩
      by_cases ends : links = []
      · subst ends
        cases path
        exact .inl ⟨rfl, by simp [fieldVariable, String.append_assoc]⟩
      · refine .inr ⟨ends, unrepeated, rest, ty, path, by simp [fieldVariable, String.append_assoc]⟩
  · rintro ⟨i, f, rfl, field, ⟨rfl, rfl⟩ | ⟨-, unrepeated, rest, ty, path, rfl⟩⟩
    · refine ⟨cons_ne_nil _ _, ⟨closed, nodup_nil, forall_mem_nil _⟩, _, _,
        .cons target known field .nil, by simp [fieldVariable, String.append_assoc]⟩
    · exact ⟨cons_ne_nil _ _, ⟨closed, unrepeated⟩, _, _, .cons target known field path,
        by simp [fieldVariable, String.append_assoc]⟩

/-- The positions of the fields along a path. Depth-first order is the lexicographic order of these lists: a field comes
in front of those it leads to, and those come in front of the next field. -/
def positions (links : List Link) : List Nat :=
  links.map (·.field)

section

variable (link : Nat → Link) (var : Param → Variable) (inner : Param → List (List Link × Variable))

/-- The paths of the fields of a struct: the link to each field, and behind it the paths of the field. -/
def fieldPaths (fields : List Param) : List (List Link × Variable) :=
  fields.zipIdx.flatMap fun p => ([link p.2], var p.1) :: (inner p.1).map fun q => (link p.2 :: q.1, q.2)

variable {link var inner}

theorem map_fieldPaths :
    (fieldPaths link var inner fields).map (·.2) = fields.flatMap fun f => var f :: (inner f).map (·.2) := by
  have behind : ∀ p : Param × Nat, ((([link p.2], var p.1) : List Link × Variable) ::
      (inner p.1).map fun q => (link p.2 :: q.1, q.2)).map (·.2) = var p.1 :: (inner p.1).map (·.2) := by
    intro p
    simp [Function.comp_def]
  unfold fieldPaths
  rw [map_flatMap]
  simp only [behind]
  rw [← flatMap_map Prod.fst fun f => var f :: (inner f).map (·.2), zipIdx_map_fst]

theorem mem_fieldPaths :
    (links, y) ∈ fieldPaths link var inner fields ↔ ∃ i f, fields[i]? = some f ∧
      (links = [link i] ∧ y = var f ∨ ∃ rest, links = link i :: rest ∧ (rest, y) ∈ inner f) := by
  unfold fieldPaths
  rw [mem_flatMap]
  constructor
  · rintro ⟨⟨f, i⟩, here, mem⟩
    refine ⟨i, f, mem_zipIdx_iff_getElem?.mp here, ?_⟩
    rcases mem_cons.mp mem with own | deeper
    · cases own
      exact .inl ⟨rfl, rfl⟩
    · obtain ⟨⟨rest, z⟩, hq, same⟩ := mem_map.mp deeper
      cases same
      exact .inr ⟨rest, rfl, hq⟩
  · rintro ⟨i, f, here, ⟨rfl, rfl⟩ | ⟨rest, rfl, deeper⟩⟩
    · exact ⟨(f, i), mem_zipIdx_iff_getElem?.mpr here, .head _⟩
    · exact ⟨(f, i), mem_zipIdx_iff_getElem?.mpr here,
        mem_cons_of_mem _ (mem_map.mpr ⟨(rest, y), deeper, rfl⟩)⟩

theorem pairwise_fieldPaths (field : ∀ i, (link i).field = i) (nonempty : ∀ f, ∀ q ∈ inner f, q.1 ≠ [])
    (ordered : ∀ f, (inner f).Pairwise fun p q => positions p.1 < positions q.1) :
    (fieldPaths link var inner fields).Pairwise fun p q => positions p.1 < positions q.1 := by
  have first : ∀ p : Param × Nat, ∀ q ∈ ((([link p.2], var p.1) : List Link × Variable) ::
      (inner p.1).map fun q => (link p.2 :: q.1, q.2)), ∃ rest, positions q.1 = p.2 :: rest := by
    intro p q mem
    rcases mem_cons.mp mem with rfl | deeper
    · exact ⟨[], by simp [positions, field]⟩
    · obtain ⟨q', -, rfl⟩ := mem_map.mp deeper
      exact ⟨positions q'.1, by simp [positions, field]⟩
  unfold fieldPaths
  rw [pairwise_flatMap]
  constructor
  · intro p _
    rw [pairwise_cons, pairwise_map]
    constructor
    · intro q mem
      obtain ⟨⟨links, y⟩, hq, rfl⟩ := mem_map.mp mem
      obtain ⟨l, links, rfl⟩ := exists_cons_of_ne_nil (nonempty p.1 _ hq)
      simp [positions]
    · refine (ordered p.1).imp fun {q q'} smaller => ?_
      simpa [positions] using smaller
  · -- the first position decides between two fields
    have indices : (fields.zipIdx.map Prod.snd).Pairwise (· < ·) := by
      rw [zipIdx_map_snd]
      exact pairwise_lt_range'
    refine (pairwise_map.mp indices).imp fun {p p'} smaller q hq q' hq' => ?_
    obtain ⟨rest, front⟩ := first p q hq
    obtain ⟨rest', front'⟩ := first p' q' hq'
    rw [front, front', cons_lt_cons_iff]
    exact .inl smaller

end

theorem exists_paths (apart : ∀ name, c.structs.has name = true → ¬c.enums.has name = true)
    (opened : List String) (x : Variable) :
    ∃ paths : List (List Link × Variable), paths.map (·.2) = c.innerFields opened x ∧
      paths.Pairwise (fun p q => positions p.1 < positions q.1) ∧
      ∀ links y, (links, y) ∈ paths ↔ c.Leads opened x links y := by
  -- each struct on the way leaves fewer that can still be unfolded
  induction measure : c.unopened opened using Nat.strongRecOn generalizing opened x with
  | ind n ih =>
    by_cases unfolds : ∃ pointer name args d, x.ty.structTarget? = some (pointer, name, args) ∧
        c.structs.get? name = some d ∧ name ∉ opened
    · obtain ⟨pointer, name, args, d, target, known, closed⟩ := unfolds
      have registered := Table.has_iff.mpr ⟨d, known⟩
      have fewer : c.unopened (name :: opened) < n := by
        rw [← measure]
        exact c.unopened_cons_lt registered (by simpa using closed)
      choose inner listed ordered leads using fun f : Param => ih _ fewer (name :: opened)
        (fieldVariable (x.name ++ signText pointer) x.const (d.bindings args) f) rfl
      refine ⟨fieldPaths (fun i => ⟨name, args, pointer, i⟩)
        (fieldVariable (x.name ++ signText pointer) x.const (d.bindings args)) inner d.fields, ?_, ?_, ?_⟩
      · rw [map_fieldPaths, innerFields_of_struct target (apart name registered) known closed]
        simp only [listed]
      · exact pairwise_fieldPaths (fun _ => rfl) (fun f q hq => ((leads f _ _).mp hq).1) ordered
      · intro links y
        rw [mem_fieldPaths]
        cases links with
        | nil => simp [Leads]
        | cons l links =>
          rw [leads_cons target known closed]
          simp only [leads]
          grind
    · have empty : c.innerFields opened x = [] := by
        by_contra filled
        obtain ⟨pointer, name, args, d, target, -, known, closed⟩ := exists_struct_of_innerFields filled
        exact unfolds ⟨pointer, name, args, d, target, known, closed⟩
      refine ⟨[], empty.symm, .nil, fun links y => ⟨fun mem => absurd mem not_mem_nil, ?_⟩⟩
      rintro ⟨nonempty, unrepeated, suffix, ty, path, -⟩
      cases path with
      | nil => exact absurd rfl nonempty
      | cons target known =>
        exact absurd ⟨_, _, _, _, target, known, (unrepeated_cons.mp unrepeated).1⟩ unfolds

/-- The type of a variable that holds, or points to, a struct. -/
def holding (pointer : Bool) (name : String) (args : List Ty) : Ty :=
  if pointer then .pointer (.named name args) else .named name args

theorem structTarget?_holding (pointer : Bool) (name : String) (args : List Ty) :
    (holding pointer name args).structTarget? = some (pointer, name, args) := by
  cases pointer <;> rfl

theorem structFields_eq_innerFields (registered : c.structs.has name = true)
    (base : String) (pointer const : Bool) (args : List Ty) :
    c.structFields [] base pointer const name args
      = c.innerFields [] { name := base, ty := holding pointer name args, const := const } := by
  unfold innerFields
  dsimp only
  rw [structTarget?_holding]
  exact (if_pos ⟨registered, rfl⟩).symm

theorem exists_declareUntil (plain : c.structs.All StructDef.PlainFields)
    (apart : ∀ name, c.structs.has name = true → ¬c.enums.has name = true)
    (registered : c.structs.has name = true) (base : String) (pointer const : Bool) (args : List Ty) :
    ∃ paths : List (List Link × Variable), paths.Pairwise (fun p q => positions p.1 < positions q.1) ∧
      ((paths.map (·.2)).map (·.name)).Nodup ∧
      (∀ links y, (links, y) ∈ paths ↔ links ≠ [] ∧ (links.map (·.struct)).Nodup ∧ ∃ suffix ty,
        c.FieldPath (holding pointer name args) links suffix ty ∧
          y = { name := base ++ suffix, ty := ty, const := const }) ∧
      ∀ scope : Scope, c.declareFields scope base pointer const name args = scope.declareUntil (paths.map (·.2)) := by
  obtain ⟨paths, listed, ordered, leads⟩ :=
    exists_paths apart [] { name := base, ty := holding pointer name args, const := const }
  refine ⟨paths, ordered, ?_, fun links y => ?_, fun scope => ?_⟩
  · rw [listed]
    exact nodup_innerFields plain [] _
  · rw [leads, Leads, Unrepeated]
    simp
  · rw [declareFields, declareStruct_eq c _ _ _ _ _ _ _ registered, structFields_eq_innerFields registered, listed]

/-- Let the fields of each struct have different names without signs, and let no name be both that of a struct and that
of an enum. Then declaring the fields of a variable does nothing for an enum, fails at the variable for an unknown struct,
and for a struct it declares one variable for each field path along which no struct is unfolded twice, in depth-first
order, with the type at the end of the path. It fails exactly if the top frame owns one of the names already, at the
first such name, and what stands in front of that is declared. -/
theorem declareFields_flattens {c : Context} (plain : c.structs.All StructDef.PlainFields)
    (apart : ∀ name, c.structs.has name = true → ¬c.enums.has name = true) (scope : Scope) (base : String)
    (pointer const : Bool) (name : String) (args : List Ty) :
    (c.enums.has name = true → c.declareFields scope base pointer const name args = (scope, none)) ∧
    (¬c.enums.has name = true → ¬c.structs.has name = true →
      c.declareFields scope base pointer const name args = (scope, some (.unknownStruct base))) ∧
    (c.structs.has name = true → ∃ paths : List (List Link × Variable),
      paths.Pairwise (fun p q => positions p.1 < positions q.1) ∧
      (paths.map (·.2.name)).Nodup ∧
      (∀ links y, (links, y) ∈ paths ↔ links ≠ [] ∧ (links.map (·.struct)).Nodup ∧ ∃ suffix ty,
        c.FieldPath (holding pointer name args) links suffix ty ∧
          y = { name := base ++ suffix, ty := ty, const := const }) ∧
      ((∃ scope', (∀ p ∈ paths, p.2.name ∉ scope.top.own) ∧ scope.Adds (paths.map (·.2)) scope' ∧
          c.declareFields scope base pointer const name args = (scope', none)) ∨
        ∃ front p back scope', paths = front ++ p :: back ∧ (∀ q ∈ front, q.2.name ∉ scope.top.own) ∧
          p.2.name ∈ scope.top.own ∧ scope.Adds (front.map (·.2)) scope' ∧
          c.declareFields scope base pointer const name args = (scope', some (.redeclared p.2.name)))) := by
  refine ⟨fun isEnum => ?_, fun noEnum unknown => ?_, fun registered => ?_⟩
  · rw [declareFields, declareStruct, if_pos isEnum]
  · rw [declareFields, declareStruct, if_neg noEnum]
    split
    · rfl
    · next d known => exact absurd (Table.has_iff.mpr ⟨d, known⟩) unknown
  · obtain ⟨paths, ordered, distinct, leads, result⟩ := exists_declareUntil plain apart registered base pointer const args
    refine ⟨paths, ordered, by simpa [Function.comp_def] using distinct, leads, ?_⟩
    rw [result]
    rcases Scope.declareUntil_cases distinct with ⟨scope', new, all, done⟩ | stopped
    · refine .inl ⟨scope', fun p hp => new _ (mem_map_of_mem hp), Scope.adds_of_declareList? all, done⟩
    · obtain ⟨front, x, back, scope', split, new, owned, some, failed⟩ := stopped
      obtain ⟨front', rest, rfl, rfl, rest_eq⟩ := map_eq_append_iff.mp split
      obtain ⟨p, back', rfl, rfl, rfl⟩ := map_eq_cons_iff.mp rest_eq
      exact .inr ⟨front', p, back', scope', rfl, fun q hq => new _ (mem_map_of_mem hq), owned,
        Scope.adds_of_declareList? some, failed⟩

theorem linked_plain : linked.structs.All StructDef.PlainFields := by
  have free : ∀ n ∈ ["x", "item", "at", "next"], '.' ∉ n.toList ∧ ¬['-', '>'] <:+: n.toList := by decide
  have fieldName : ∀ n ∈ ["x", "item", "at", "next"], FieldName n := fun n hn => ⟨(free n hn).1, (free n hn).2⟩
  have empty : ({} : Table StructDef).All StructDef.PlainFields := fun _ _ h => by cases h
  refine (empty.add ⟨by decide, ?_⟩ _ _).add ⟨by decide, ?_⟩ _ _
  · simp [place, fieldName]
  · simp [link, fieldName]

theorem linked_apart (name : String) (_ : linked.structs.has name = true) : ¬linked.enums.has name = true := by
  intro isEnum
  cases isEnum

/-- A pointer to a link brings the field of the place that the link points to. -/
theorem declareFields_flattens_linked :
    ∃ (paths : List (List Link × Variable)) (scope' : Scope),
      linked.declareFields .empty "v" true true "Link" [.named "Place" []] = (scope', none) ∧
      Scope.empty.Adds (paths.map (·.2)) scope' ∧
      ([⟨"Link", [.named "Place" []], true, 1⟩, ⟨"Place", [], true, 0⟩],
        { name := "v->at->x", ty := .int, const := true }) ∈ paths := by
  obtain ⟨-, -, flattens⟩ := declareFields_flattens linked_plain linked_apart .empty "v" true true "Link"
    [.named "Place" []]
  obtain ⟨paths, -, -, leads, ⟨scope', -, adds, done⟩ | ⟨_, _, _, _, -, -, owned, -⟩⟩ := flattens rfl
  · refine ⟨paths, scope', done, adds, (leads _ _).mpr ⟨cons_ne_nil _ _, by decide, "->at->x", .int, ?_, rfl⟩⟩
    exact .cons (d := link) (f := ⟨"at", .pointer (.named "Place" [])⟩) rfl rfl rfl
      (.cons (d := place) (f := ⟨"x", .int⟩) rfl rfl rfl .nil)
  · cases owned

/-- The path goes through structs that are held, not through pointers. -/
def ByValue (links : List Link) : Prop :=
  ∀ l ∈ links, l.pointer = false

/-- The paths of a type by value do not become longer and longer. -/
def Bounded (c : Context) (ty : Ty) : Prop :=
  ∃ bound, ∀ links suffix ty', c.FieldPath ty links suffix ty' → ByValue links → links.length ≤ bound

/-- No struct occurs on the path with different arguments. -/
def SingleInstances (links : List Link) : Prop :=
  ∀ l ∈ links, ∀ l' ∈ links, l.struct = l'.struct → l.args = l'.args

namespace FieldPath

theorem append (h : c.FieldPath ty links suffix t) (h' : c.FieldPath t more suffix' ty') :
    c.FieldPath ty (links ++ more) (suffix ++ suffix') ty' := by
  induction h with
  | nil => simpa using h'
  | cons target known field _ ih =>
    rw [String.append_assoc]
    exact .cons target known field (ih h')

theorem cut (h : c.FieldPath ty (links ++ more) suffix ty') :
    ∃ front t back, c.FieldPath ty links front t ∧ c.FieldPath t more back ty' ∧ suffix = front ++ back := by
  induction links generalizing ty suffix with
  | nil => exact ⟨"", ty, suffix, .nil, h, by simp⟩
  | cons l links ih =>
    cases h with
    | cons target known field h =>
      obtain ⟨front, t, back, h₁, h₂, rfl⟩ := ih h
      exact ⟨_, t, back, .cons target known field h₁, h₂, by simp only [String.append_assoc]⟩

theorem eq_named (h : c.FieldPath ty (l :: links) suffix ty') (value : l.pointer = false) :
    ty = .named l.struct l.args := by
  cases h with
  | cons target _ _ _ =>
    rw [value] at target
    unfold Ty.structTarget? at target
    split at target <;> cases target
    rfl

theorem exists_longer (h : c.FieldPath ty links suffix ty) (filled : links ≠ []) (value : ByValue links) (n : Nat) :
    ∃ links' suffix', c.FieldPath ty links' suffix' ty ∧ ByValue links' ∧ n ≤ links'.length := by
  induction n with
  | zero => exact ⟨[], "", .nil, forall_mem_nil _, Nat.le_refl _⟩
  | succ n ih =>
    obtain ⟨links', suffix', again, value', long⟩ := ih
    have positive := length_pos_iff.mpr filled
    refine ⟨links ++ links', suffix ++ suffix', h.append again, forall_mem_append.mpr ⟨value, value'⟩, ?_⟩
    rw [length_append]
    omega

theorem pairwise_of_bounded (h : c.FieldPath ty links suffix ty') (value : ByValue links) (bounded : c.Bounded ty) :
    links.Pairwise fun l l' => ¬(l.struct = l'.struct ∧ l.args = l'.args) := by
  induction h with
  | nil => exact .nil
  | @cons ty ty' l links d f rest target known field h ih =>
    obtain ⟨here, value'⟩ := forall_mem_cons.mp value
    have whole : c.FieldPath ty (l :: links) _ ty' := .cons target known field h
    obtain rfl := whole.eq_named here
    refine pairwise_cons.mpr ⟨?_, ih value' ?_⟩
    · rintro l' hl' ⟨struct, args⟩
      -- the path from the first occurrence to the second one comes back to the same type
      obtain ⟨between, behind, rfl⟩ := append_of_mem hl'
      obtain ⟨front, t, back, h₁, h₂, -⟩ := h.cut
      obtain rfl : t = .named l.struct l.args := by
        rw [h₂.eq_named (value' l' hl'), struct, args]
      have round : c.FieldPath (.named l.struct l.args) (l :: between) _ (.named l.struct l.args) :=
        .cons target known field h₁
      obtain ⟨bound, short⟩ := bounded
      obtain ⟨links', suffix', longer, value'', long⟩ := round.exists_longer (cons_ne_nil _ _)
        (forall_mem_cons.mpr ⟨here, fun x hx => value' x (mem_append_left _ hx)⟩) (bound + 1)
      have := short links' suffix' _ longer value''
      omega
    · obtain ⟨bound, short⟩ := bounded
      refine ⟨bound, fun links' suffix' t inner value'' => ?_⟩
      have := short (l :: links') _ t (.cons target known field inner) (forall_mem_cons.mpr ⟨here, value''⟩)
      rw [length_cons] at this
      omega

theorem nodup_iff (h : c.FieldPath ty links suffix ty') (value : ByValue links) (bounded : c.Bounded ty) :
    (links.map (·.struct)).Nodup ↔ SingleInstances links := by
  constructor
  · intro distinct l hl l' hl' same
    rw [inj_on_of_nodup_map distinct hl hl' same]
  · intro single
    rw [List.Nodup, pairwise_map]
    refine (h.pairwise_of_bounded value bounded).imp_of_mem fun {l l'} hl hl' differ same => ?_
    exact differ ⟨same, single l hl l' hl' same⟩

variable (plain : c.structs.All StructDef.PlainFields)

include plain

theorem spelled (h : c.FieldPath ty links suffix ty') : ∃ path, Spelled path suffix ∧ path.length = links.length := by
  induction h with
  | nil => exact ⟨[], .nil, rfl⟩
  | @cons _ _ l _ d f _ _ known field _ ih =>
    obtain ⟨path, spelled, length⟩ := ih
    have name := (plain _ d known).fieldName f (mem_of_getElem? field)
    exact ⟨f.name :: path, .cons l.pointer name spelled, congrArg Nat.succ length⟩

theorem afterName (h : c.FieldPath ty links suffix ty') : AfterName suffix.toList := by
  obtain ⟨path, spelled, -⟩ := h.spelled plain
  exact spelled.afterName

theorem length_unique (h : c.FieldPath ty links suffix t) (h' : c.FieldPath ty more suffix ty') :
    more.length = links.length := by
  obtain ⟨path, spelled, length⟩ := h.spelled plain
  obtain ⟨path', spelled', length'⟩ := h'.spelled plain
  rw [← length, ← length', spelled.path_unique spelled']

theorem links_unique (h : c.FieldPath ty links suffix t) (h' : c.FieldPath ty more suffix ty') : links = more := by
  have lengths := h.length_unique plain h'
  induction h generalizing more ty' with
  | nil => exact (length_eq_zero_iff.mp lengths).symm
  | @cons ty t l links d f rest target known field h ih =>
    generalize text : signText l.pointer ++ f.name ++ rest = suffix at h'
    cases h' with
    | nil => cases lengths
    | @cons _ _ l' links' d' f' rest' target' known' field' h' =>
      obtain ⟨struct, args, pointer, i⟩ := l
      obtain ⟨struct', args', pointer', i'⟩ := l'
      cases target.symm.trans target'
      cases known.symm.trans known'
      dsimp only at text field field'
      rw [String.append_assoc, String.append_assoc] at text
      have fieldName := (plain struct d known).fieldName
      obtain ⟨names, rfl⟩ := (fieldName f (mem_of_getElem? field)).append_inj
        (fieldName f' (mem_of_getElem? field')) (h.afterName plain) (h'.afterName plain) (signText_append_inj text).2
      obtain rfl : i = i' := by
        refine (List.getElem?_inj ?_ (plain struct d known).distinct).mp ?_
        · rw [length_map]
          exact (List.getElem?_eq_some_iff.mp field).1
        · rw [List.getElem?_map, List.getElem?_map, field, field', Option.map_some, Option.map_some, names]
      cases field.symm.trans field'
      rw [ih h' (Nat.succ.inj lengths)]

end FieldPath

/-- If the paths of a struct by value are bounded, a path by value gets its variable exactly if no struct occurs on it with
different arguments. -/
theorem declareFields_byValue {c : Context} (plain : c.structs.All StructDef.PlainFields)
    (apart : ∀ name, c.structs.has name = true → ¬c.enums.has name = true) {name : String} {args : List Ty}
    (registered : c.structs.has name = true) (bounded : c.Bounded (.named name args)) {scope : Scope} {base : String}
    (free : ∀ links suffix ty, links ≠ [] → c.FieldPath (.named name args) links suffix ty →
      base ++ suffix ∉ scope.top.own) (const : Bool) :
    ∃ scope' xs, c.declareFields scope base false const name args = (scope', none) ∧ scope.Adds xs scope' ∧
      ∀ links suffix ty, links ≠ [] → c.FieldPath (.named name args) links suffix ty → ByValue links →
        (SingleInstances links → ({ name := base ++ suffix, ty := ty, const := const } : Variable) ∈ xs) ∧
        (¬SingleInstances links → base ++ suffix ∉ scope'.top.own) := by
  obtain ⟨paths, -, distinct, leads, result⟩ := exists_declareUntil plain apart registered base false const args
  have new : ∀ x ∈ paths.map (·.2), x.name ∉ scope.top.own := by
    intro x hx
    obtain ⟨⟨links, y⟩, mem, rfl⟩ := mem_map.mp hx
    obtain ⟨filled, -, suffix, ty, path, rfl⟩ := (leads links y).mp mem
    exact free links suffix ty filled path
  obtain ⟨scope', all⟩ := Scope.exists_declareList? new distinct
  have adds := Scope.adds_of_declareList? all
  refine ⟨scope', paths.map (·.2), (result scope).trans (Scope.declareUntil_eq_none.mpr all), adds, ?_⟩
  intro links suffix ty filled path value
  rw [← path.nodup_iff value bounded]
  constructor
  · intro once
    exact mem_map.mpr ⟨(links, _), (leads links _).mpr ⟨filled, once, suffix, ty, path, rfl⟩, rfl⟩
  · intro twice owned
    rw [adds.own] at owned
    rcases mem_append.mp owned with old | declared
    · exact free links suffix ty filled path old
    · -- the variable would belong to another path with the same spelling
      obtain ⟨x, hx, same⟩ := mem_map.mp declared
      obtain ⟨⟨links', y⟩, mem, rfl⟩ := mem_map.mp hx
      obtain ⟨-, once, suffix', ty', path', rfl⟩ := (leads links' y).mp mem
      obtain rfl : suffix' = suffix := String.append_right_inj _ |>.mp same
      exact twice (path'.links_unique plain path ▸ once)

section

theorem bounded_of_leaf (leaf : ∀ name args, ty ≠ .named name args) : c.Bounded ty := by
  refine ⟨0, fun links suffix ty' path value => ?_⟩
  cases links with
  | nil => exact Nat.le_refl _
  | cons l links => exact absurd (path.eq_named (value l (.head _))) (leaf _ _)

theorem bounded_of_fields (known : c.structs.get? name = some d)
    (fields : ∀ f ∈ d.fields, c.Bounded (f.ty.subst (d.bindings args))) : c.Bounded (.named name args) := by
  have common : ∃ bound, ∀ f ∈ d.fields, ∀ links suffix ty',
      c.FieldPath (f.ty.subst (d.bindings args)) links suffix ty' → ByValue links → links.length ≤ bound := by
    generalize d.fields = fs at fields
    induction fs with
    | nil => exact ⟨0, forall_mem_nil _⟩
    | cons f fs ih =>
      obtain ⟨first, others⟩ := forall_mem_cons.mp fields
      obtain ⟨bound, short⟩ := ih others
      obtain ⟨bound', short'⟩ := first
      refine ⟨max bound bound', forall_mem_cons.mpr ⟨fun links suffix ty' path value => ?_, ?_⟩⟩
      · exact Nat.le_trans (short' links suffix ty' path value) (Nat.le_max_right _ _)
      · exact fun f hf links suffix ty' path value =>
          Nat.le_trans (short f hf links suffix ty' path value) (Nat.le_max_left _ _)
  obtain ⟨bound, short⟩ := common
  refine ⟨bound + 1, fun links suffix ty' path value => ?_⟩
  cases path with
  | nil => exact Nat.zero_le _
  | @cons _ _ l _ _ _ _ target known' field path =>
    obtain ⟨struct, args', pointer, i⟩ := l
    cases target
    cases known.symm.trans known'
    exact Nat.succ_le_succ (short _ (mem_of_getElem? field) _ _ _ path fun l hl => value l (.tail _ hl))

end

theorem linked_bounded (bounded : linked.Bounded item) : linked.Bounded (.named "Link" [item]) := by
  refine bounded_of_fields (d := link) rfl ?_
  refine forall_mem_cons.mpr ⟨bounded, forall_mem_cons.mpr ⟨?_, forall_mem_singleton.mpr ?_⟩⟩
  · exact bounded_of_leaf fun name args h => by cases h
  · exact bounded_of_leaf fun name args h => by cases h

theorem place_bounded : linked.Bounded (.named "Place" []) :=
  bounded_of_fields (d := place) rfl (forall_mem_singleton.mpr (bounded_of_leaf fun _ _ h => by cases h))

/-- A link that holds a place brings the field of the place. -/
theorem declareFields_byValue_linked :
    ∃ (scope' : Scope) (xs : List Variable),
      linked.declareFields .empty "v" false true "Link" [.named "Place" []] = (scope', none) ∧
      Scope.empty.Adds xs scope' ∧ ({ name := "v.item.x", ty := .int, const := true } : Variable) ∈ xs := by
  obtain ⟨scope', xs, done, adds, flattens⟩ := declareFields_byValue linked_plain linked_apart rfl
    (linked_bounded place_bounded) (show ∀ links suffix ty, links ≠ [] → linked.FieldPath _ links suffix ty →
      "v" ++ suffix ∉ Scope.empty.top.own from fun _ _ _ _ _ owned => by cases owned) true
  have path : linked.FieldPath (.named "Link" [.named "Place" []])
      [⟨"Link", [.named "Place" []], false, 0⟩, ⟨"Place", [], false, 0⟩] ".item.x" .int :=
    .cons (d := link) (f := ⟨"item", .placeholder "T"⟩) rfl rfl rfl
      (.cons (d := place) (f := ⟨"x", .int⟩) rfl rfl rfl .nil)
  refine ⟨scope', xs, done, adds, (flattens _ _ _ (cons_ne_nil _ _) path ?_).1 ?_⟩
  · simp [ByValue]
  · simp [SingleInstances]

/-- The fields of a link that is held inside of another link get no variables, though its paths come to an end. -/
theorem declareFields_misses_instance :
    linked.Bounded (.named "Link" [.named "Link" [.int]]) ∧
    (∃ links, ByValue links ∧ linked.FieldPath (.named "Link" [.named "Link" [.int]]) links ".item.item" .int) ∧
    (linked.declareFields .empty "v" false false "Link" [.named "Link" [.int]]).2.isNone = true ∧
    (linked.declareFields .empty "v" false false "Link" [.named "Link" [.int]]).1.top.own
      = ["v.item", "v.at", "v.at->x", "v.next"] := by
  have bounded : linked.Bounded .int := bounded_of_leaf fun _ _ h => by cases h
  refine ⟨linked_bounded (linked_bounded bounded), ?_, by decide +kernel, by decide +kernel⟩
  refine ⟨[⟨"Link", [.named "Link" [.int]], false, 0⟩, ⟨"Link", [.int], false, 0⟩], by simp [ByValue], ?_⟩
  exact .cons (d := link) (f := ⟨"item", .placeholder "T"⟩) rfl rfl rfl
    (.cons (d := link) (f := ⟨"item", .placeholder "T"⟩) rfl rfl rfl .nil)

end Context

end Impulse
