import Mathlib.Data.List.Nodup
import Impulse.Proofs.Chain
import Impulse.Proofs.Shadowing

/-!
# Field paths

The fields of a variable are declared by one walk, over the definitions of structs, and their spellings are found by
another one, over the text of a path. The two choose the same sign at every link: an arrow behind a pointer and a
point behind everything else.
-/

namespace Impulse

open List

variable {c : Context} (b : String)

def signText (pointer : Bool) : String :=
  if pointer then "->" else "."

/-- The name of a field, without points and arrows. -/
structure FieldName (f : String) : Prop where
  noPoint : '.' ∉ f.toList
  noArrow : ¬['-', '>'] <:+: f.toList

/-- The struct has fields of different names, and no sign in any of them. -/
structure StructDef.PlainFields (d : StructDef) : Prop where
  distinct : (d.fields.map (·.name)).Nodup
  fieldName : ∀ f ∈ d.fields, FieldName f.name

/-- A text of signs and names of fields, and the names in it. -/
inductive Spelled : List String → String → Prop
  | nil : Spelled [] ""
  | cons (pointer : Bool) {f : String} {path : List String} {rest : String} (name : FieldName f)
      (h : Spelled path rest) : Spelled (f :: path) (signText pointer ++ f ++ rest)

/-- What stands behind the name of a field: nothing, a point or an arrow. -/
def AfterName (cs : List Char) : Prop :=
  cs = [] ∨ (∃ rest, cs = '.' :: rest) ∨ ∃ rest, cs = '-' :: '>' :: rest

theorem toList_signText (pointer : Bool) : (signText pointer).toList = if pointer then ['-', '>'] else ['.'] := by
  cases pointer <;> rfl

theorem Spelled.afterName (h : Spelled path text) : AfterName text.toList := by
  cases h with
  | nil => exact .inl rfl
  | cons pointer name h =>
    simp only [String.toList_append, toList_signText]
    cases pointer with
    | false => exact .inr (.inl ⟨_, rfl⟩)
    | true => exact .inr (.inr ⟨_, rfl⟩)

theorem FieldName.eq_nil_of_append (noPoint : '.' ∉ f ++ more)
    (noArrow : ¬['-', '>'] <:+: f ++ more) (after : AfterName (more ++ t)) (after' : AfterName t) : more = [] := by
  cases more with
  | nil => rfl
  | cons c more =>
    exfalso
    rcases after with empty | ⟨rest, point⟩ | ⟨rest, arrow⟩
    · cases empty
    · cases point
      exact noPoint (by simp)
    · -- The arrow stands in the name, or its second half is behind it.
      cases more with
      | nil =>
        have second : t = '>' :: rest := (List.cons.inj arrow).2
        rcases after' with empty | ⟨rest, point⟩ | ⟨rest, arrow⟩
        · cases empty.symm.trans second
        · cases point.symm.trans second
        · cases arrow.symm.trans second
      | cons c' more =>
        cases arrow
        exact noArrow ⟨f, more, by simp⟩

theorem FieldName.append_inj {f f' rest rest' : String} (name : FieldName f) (name' : FieldName f')
    (after : AfterName rest.toList) (after' : AfterName rest'.toList) (h : f ++ rest = f' ++ rest') :
    f = f' ∧ rest = rest' := by
  have chars : f.toList ++ rest.toList = f'.toList ++ rest'.toList := by
    rw [← String.toList_append, ← String.toList_append, h]
  suffices same : f = f' by
    subst same
    exact ⟨rfl, String.toList_inj.mp (append_cancel_left chars)⟩
  apply String.toList_inj.mp
  rcases append_eq_append_iff.mp chars with ⟨more, hf', hrest⟩ | ⟨more, hf, hrest'⟩
  · have empty : more = [] := FieldName.eq_nil_of_append (hf' ▸ name'.noPoint) (hf' ▸ name'.noArrow)
      (hrest ▸ after) after'
    rw [hf', empty, append_nil]
  · have empty : more = [] := FieldName.eq_nil_of_append (hf ▸ name.noPoint) (hf ▸ name.noArrow)
      (hrest' ▸ after') after
    rw [hf, empty, append_nil]

theorem signText_append_inj
    (h : signText pointer ++ rest = signText pointer' ++ rest') : pointer = pointer' ∧ rest = rest' := by
  have chars := congrArg String.toList h
  simp only [String.toList_append, toList_signText] at chars
  cases pointer <;> cases pointer'
  · exact ⟨rfl, String.toList_inj.mp (by simpa using chars)⟩
  · simp at chars
  · simp at chars
  · exact ⟨rfl, String.toList_inj.mp (by simpa using chars)⟩

theorem Spelled.path_unique {path' : List String} (h : Spelled path text) (h' : Spelled path' text) : path' = path := by
  induction h generalizing path' with
  | nil =>
    generalize hempty : "" = text at h'
    cases h' with
    | nil => rfl
    | cons pointer _ _ =>
      have chars := congrArg String.toList hempty
      rw [String.append_assoc, String.toList_append, toList_signText] at chars
      cases pointer <;> simp at chars
  | @cons pointer f path rest name h ih =>
    generalize htext : signText pointer ++ f ++ rest = text at h'
    cases h' with
    | nil =>
      have chars := congrArg String.toList htext
      rw [String.append_assoc, String.toList_append, toList_signText] at chars
      cases pointer <;> simp at chars
    | @cons pointer' f' path' rest' name' h' =>
      rw [String.append_assoc, String.append_assoc] at htext
      obtain ⟨-, same⟩ := signText_append_inj htext
      obtain ⟨rfl, rfl⟩ := name.append_inj name' h.afterName h'.afterName same
      rw [ih h']

theorem Spelled.names (h : Spelled path text) : ∀ f ∈ path, FieldName f := by
  induction h with
  | nil => exact forall_mem_nil _
  | cons _ name _ ih => exact forall_mem_cons.mpr ⟨name, ih⟩

theorem Spelled.pathInto (h : Spelled path text) (b : String) (hpath : path ≠ []) : PathInto b (b ++ text) := by
  cases h with
  | nil => exact absurd rfl hpath
  | @cons pointer f _ rest _ _ =>
    refine ⟨f ++ rest, ?_⟩
    rw [String.append_assoc, ← String.append_assoc]
    cases pointer with
    | false => exact .inl rfl
    | true => exact .inr rfl

def dotted (b : String) (path : List String) : String :=
  path.foldl (fun p f => p ++ "." ++ f) b

theorem dotted_eq (names : ∀ f ∈ path, FieldName f) : ∃ text, Spelled path text ∧ dotted b path = b ++ text := by
  induction path generalizing b with
  | nil => exact ⟨"", .nil, by simp [dotted]⟩
  | cons f path ih =>
    obtain ⟨text, spelled, eq⟩ := ih (b ++ "." ++ f) fun g hg => names g (.tail _ hg)
    refine ⟨_, .cons false (names f (.head _)) spelled, ?_⟩
    show dotted (b ++ "." ++ f) path = _
    rw [eq]
    simp only [signText, String.append_assoc]
    rfl

theorem toList_dotted (path : List String) :
    (dotted b path).toList = b.toList ++ path.flatMap fun f => '.' :: f.toList := by
  induction path generalizing b with
  | nil => simp [dotted]
  | cons f path ih =>
    show (dotted (b ++ "." ++ f) path).toList = _
    rw [ih]
    simp

theorem splitOn_dotted {b : String} (hb : '.' ∉ b.toList)
    (names : ∀ f ∈ path, FieldName f) : Text.splitOn '.' (dotted b path) = b :: path := by
  have free : ∀ {n : String}, '.' ∉ n.toList → ∀ c ∈ n.toList, (c == '.') = false := by
    intro n hn c hc
    rw [beq_eq_false_iff_ne]
    rintro rfl
    exact hn hc
  have cut : ∀ b : String, '.' ∉ b.toList → Text.splitWhere (· == '.')
      (b.toList ++ path.flatMap fun f => '.' :: f.toList) = b.toList :: path.map String.toList := by
    induction path with
    | nil =>
      intro b hb
      simpa using Text.splitWhere_of_none (free hb)
    | cons f path ih =>
      intro b hb
      rw [flatMap_cons, cons_append, Text.splitWhere_append (free hb) rfl,
        ih (fun g hg => names g (.tail _ hg)) f (names f (.head _)).noPoint]
      rfl
  unfold Text.splitOn
  rw [toList_dotted, cut b hb]
  simp [Function.comp_def]

namespace Context

/-- The field paths of a type, with their spellings and the types they lead to. A struct in `opened` is not unfolded
once more, and a name that is an enum's is none of a struct. The arguments of a struct are put into the types of its
fields at every link. -/
inductive Unfolds (c : Context) : List String → Ty → List String → String → Ty → Prop
  | nil {opened : List String} {ty : Ty} : Unfolds c opened ty [] "" ty
  | cons {opened : List String} {ty ty' : Ty} {pointer : Bool} {name rest : String} {args : List Ty}
      {d : StructDef} {f : Param} {path : List String}
      (target : ty.structTarget? = some (pointer, name, args)) (noEnum : ¬c.enums.has name = true)
      (known : c.structs.get? name = some d) (closed : name ∉ opened) (mem : f ∈ d.fields)
      (h : Unfolds c (name :: opened) (f.ty.subst (d.bindings args)) path rest ty') :
      Unfolds c opened ty (f.name :: path) (signText pointer ++ f.name ++ rest) ty'

def innerFields (c : Context) (opened : List String) (x : Variable) : List Variable :=
  match x.ty.structTarget? with
  | none => []
  | some (pointer, name, args) =>
    if c.structs.has name = true ∧ opened.contains name = false then
      c.structFields opened x.name pointer x.const name args
    else []

def fieldVariable (stem : String) (const : Bool) (b : Bindings) (f : Param) : Variable :=
  { name := stem ++ f.name, ty := f.ty.subst b, const := const }

theorem eachField_eq_flatMap (c : Context) (opened : List String) (stem : String) (const : Bool)
    (b : Bindings) (fields : List Param) :
    c.eachField opened stem const b fields = fields.flatMap fun f =>
      fieldVariable stem const b f :: c.innerFields opened (fieldVariable stem const b f) := by
  induction fields with
  | nil => rw [eachField, flatMap_nil]
  | cons f fs ih =>
    rw [eachField, flatMap_cons, ih]
    rfl

theorem innerFields_of_struct
    (target : x.ty.structTarget? = some (pointer, name, args)) (noEnum : ¬c.enums.has name = true)
    (known : c.structs.get? name = some d) (closed : name ∉ opened) :
    c.innerFields opened x = d.fields.flatMap fun f =>
      fieldVariable (x.name ++ signText pointer) x.const (d.bindings args) f :: c.innerFields (name :: opened)
          (fieldVariable (x.name ++ signText pointer) x.const (d.bindings args) f) := by
  have opens : c.structs.has name = true ∧ opened.contains name = false :=
    ⟨Table.has_iff.mpr ⟨d, known⟩, by simpa using closed⟩
  unfold innerFields
  rw [target]
  dsimp only
  rw [if_pos opens, structFields_of_struct noEnum known]
  exact eachField_eq_flatMap ..

theorem exists_struct_of_innerFields (h : c.innerFields opened x ≠ []) :
    ∃ pointer name args d, x.ty.structTarget? = some (pointer, name, args) ∧
      ¬c.enums.has name = true ∧ c.structs.get? name = some d ∧ name ∉ opened := by
  unfold innerFields at h
  split at h
  · exact absurd rfl h
  · next pointer name args target =>
    split at h
    · next opens =>
      obtain ⟨d, known⟩ := Table.has_iff.mp opens.1
      refine ⟨pointer, name, args, d, target, fun isEnum => h ?_, known, by simpa using opens.2⟩
      exact structFields_of_enum isEnum
    · exact absurd rfl h

theorem unfolds_of_mem_innerFields (h : y ∈ c.innerFields opened x) :
    ∃ path suffix ty, path ≠ [] ∧ c.Unfolds opened x.ty path suffix ty ∧
      y = { name := x.name ++ suffix, ty := ty, const := x.const } := by
  -- each struct on the way leaves fewer that can still be unfolded
  induction measure : c.unopened opened using Nat.strongRecOn generalizing opened x with
  | ind n ih =>
    obtain ⟨pointer, name, args, d, target, noEnum, known, closed⟩ :=
      exists_struct_of_innerFields (ne_nil_of_mem h)
    rw [innerFields_of_struct target noEnum known closed, mem_flatMap] at h
    obtain ⟨f, hf, h⟩ := h
    rcases mem_cons.mp h with rfl | inner
    · refine ⟨_, _, _, cons_ne_nil _ _, .cons target noEnum known closed hf .nil, ?_⟩
      simp [fieldVariable, String.append_assoc]
    · have fewer : c.unopened (name :: opened) < n := by
        rw [← measure]
        exact c.unopened_cons_lt (Table.has_iff.mpr ⟨d, known⟩) (by simpa using closed)
      obtain ⟨path, suffix, ty, -, unfolds, rfl⟩ := ih _ fewer inner rfl
      refine ⟨_, _, _, cons_ne_nil _ _, .cons target noEnum known closed hf unfolds, ?_⟩
      simp [fieldVariable, String.append_assoc]

theorem Unfolds.mem_innerFields (h : c.Unfolds opened ty path suffix ty') (hty : x.ty = ty) (hpath : path ≠ []) :
    ({ name := x.name ++ suffix, ty := ty', const := x.const } : Variable) ∈ c.innerFields opened x := by
  induction h generalizing x with
  | nil => exact absurd rfl hpath
  | @cons opened ty ty' pointer name rest args d f path target noEnum known closed mem h ih =>
    subst hty
    rw [innerFields_of_struct target noEnum known closed, mem_flatMap]
    refine ⟨f, mem, ?_⟩
    cases h with
    | nil => simp [fieldVariable, String.append_assoc]
    | cons =>
      have deeper := ih (x := fieldVariable (x.name ++ signText pointer) x.const (d.bindings args) f)
        rfl (cons_ne_nil _ _)
      refine mem_cons_of_mem _ ?_
      simpa only [fieldVariable, String.append_assoc] using deeper

theorem mem_innerFields :
    y ∈ c.innerFields opened x ↔ ∃ path suffix ty, path ≠ [] ∧ c.Unfolds opened x.ty path suffix ty ∧
      y = { name := x.name ++ suffix, ty := ty, const := x.const } := by
  constructor
  · exact unfolds_of_mem_innerFields
  · rintro ⟨path, suffix, ty, hpath, unfolds, rfl⟩
    exact unfolds.mem_innerFields rfl hpath

section

variable (plain : c.structs.All StructDef.PlainFields)

include plain

theorem Unfolds.spelled (h : c.Unfolds opened ty path suffix ty') : Spelled path suffix := by
  induction h with
  | nil => exact .nil
  | @cons _ _ _ pointer name _ _ d f _ _ _ known _ mem _ ih =>
    exact .cons pointer ((plain name d known).fieldName f mem) ih

theorem Unfolds.unique (h : c.Unfolds opened ty path suffix t)
    (h' : c.Unfolds opened ty path suffix' t') : suffix' = suffix ∧ t' = t := by
  induction h generalizing suffix' t' with
  | nil =>
    cases h'
    exact ⟨rfl, rfl⟩
  | @cons opened ty t pointer name rest args d f path target noEnum known closed mem h ih =>
    generalize hpath : f.name :: path = whole at h'
    cases h' with
    | nil => cases hpath
    | @cons _ _ _ _ _ _ _ _ f' _ target' _ known' _ mem' h' =>
      obtain ⟨same, rfl⟩ := List.cons.inj hpath
      cases target.symm.trans target'
      cases known.symm.trans known'
      obtain rfl : f = f' := inj_on_of_nodup_map (plain name d known).distinct mem mem' same
      obtain ⟨rfl, rfl⟩ := ih h'
      exact ⟨rfl, rfl⟩

theorem exists_spelled (h : y ∈ c.innerFields opened x) :
    ∃ path suffix, path ≠ [] ∧ Spelled path suffix ∧ y.name = x.name ++ suffix := by
  obtain ⟨path, suffix, ty, hpath, unfolds, rfl⟩ := mem_innerFields.mp h
  exact ⟨path, suffix, hpath, unfolds.spelled plain, rfl⟩

theorem exists_spelled_of_field {b : Bindings}
    (h : n ∈ (fieldVariable stem const b f :: c.innerFields opened (fieldVariable stem const b f)).map (·.name)) :
    ∃ path suffix, Spelled path suffix ∧ n = stem ++ (f.name ++ suffix) := by
  obtain ⟨y, hy, rfl⟩ := mem_map.mp h
  rcases mem_cons.mp hy with rfl | inner
  · exact ⟨[], "", .nil, by simp [fieldVariable]⟩
  · obtain ⟨path, suffix, -, spelled, hname⟩ := exists_spelled plain inner
    exact ⟨path, suffix, spelled, by rw [hname, fieldVariable, String.append_assoc]⟩

theorem nodup_innerFields (opened : List String) (x : Variable) : ((c.innerFields opened x).map (·.name)).Nodup := by
  induction measure : c.unopened opened using Nat.strongRecOn generalizing opened x with
  | ind n ih =>
    by_cases empty : c.innerFields opened x = []
    · simp [empty]
    obtain ⟨pointer, name, args, d, target, noEnum, known, closed⟩ := exists_struct_of_innerFields empty
    have fewer : c.unopened (name :: opened) < n := by
      rw [← measure]
      exact c.unopened_cons_lt (Table.has_iff.mpr ⟨d, known⟩) (by simpa using closed)
    rw [innerFields_of_struct target noEnum known closed, map_flatMap, nodup_flatMap]
    constructor
    · -- a field comes before the fields it leads to
      intro f _
      refine nodup_cons.mpr ⟨fun again => ?_, ih _ fewer _ _ rfl⟩
      obtain ⟨y, hy, same⟩ := mem_map.mp again
      obtain ⟨path, suffix, hpath, spelled, hname⟩ := exists_spelled plain hy
      rw [hname, String.append_eq_left_iff] at same
      subst same
      exact hpath (Spelled.nil.path_unique spelled)
    · -- two fields differ in the part that belongs to their struct
      have distinct := (plain name d known).distinct
      rw [List.Nodup, pairwise_map] at distinct
      refine distinct.imp_of_mem fun {f f'} hf hf' differ n hn hn' => differ ?_
      obtain ⟨path, suffix, spelled, eq⟩ := exists_spelled_of_field plain hn
      obtain ⟨path', suffix', spelled', eq'⟩ := exists_spelled_of_field plain hn'
      have same : f.name ++ suffix = f'.name ++ suffix' :=
        String.append_right_inj _ |>.mp (eq.symm.trans eq')
      exact ((plain name d known).fieldName f hf).append_inj ((plain name d known).fieldName f' hf')
        spelled.afterName spelled'.afterName same |>.1

end

end Context

namespace Scope

theorem exists_declareList? {s : Scope} (new : ∀ x ∈ xs, x.name ∉ s.top.own)
    (distinct : (xs.map (·.name)).Nodup) : ∃ s', s.declareList? xs = some s' := by
  induction xs generalizing s with
  | nil => exact ⟨s, rfl⟩
  | cons x xs ih =>
    obtain ⟨first, distinct⟩ := nodup_cons.mp distinct
    have unknown : ¬s.top.own.contains x.name = true := by simpa using new x (.head _)
    have declared : s.declare? x = some ((s.find? x.name).isSome,
        { s with top := { s.top.reveal x with own := s.top.own ++ [x.name] } }) := by
      rw [declare?, if_neg unknown]
    rw [declareList?, declared]
    refine ih (fun y hy own => ?_) distinct
    rcases mem_append.mp own with old | same
    · exact new y (.tail _ hy) old
    · exact first (mem_map.mpr ⟨y, hy, mem_singleton.mp same⟩)

theorem declared_declareList? {s s' : Scope} (h : s.declareList? xs = some s') :
    s'.top.declared = s.top.declared ++ xs := by
  obtain ⟨own, -, new⟩ := own_declareList? h
  have old : ∀ n ∈ s.top.own, s'.top.find? n = s.top.find? n := by
    intro n hn
    refine find?_declareList?_of_not_mem h fun mem => ?_
    obtain ⟨x, hx, rfl⟩ := mem_map.mp mem
    exact new x hx hn
  have found : ∀ x ∈ xs, s'.top.find? x.name = some x := fun x hx => find?_declareList?_of_mem h hx
  unfold Frame.declared
  rw [own, filterMap_append, filterMap_congr old, Frame.filterMap_find? found]

end Scope

namespace Context

theorem foldl_unfolds (h : c.Unfolds opened ty path suffix ty') {p : String}
    (found : ∀ path' suffix' t, c.Unfolds opened ty path' suffix' t → ∃ y, look (p ++ suffix') = some y ∧ y.ty = t) :
    path.foldl (fun q part => q ++ linkSign look q ++ part) p = p ++ suffix := by
  induction h generalizing p with
  | nil => simp
  | @cons opened ty ty' pointer name rest args d f path target noEnum known closed mem h ih =>
    have sign : linkSign look p = signText pointer := by
      obtain ⟨y, here, hty⟩ := found [] "" ty .nil
      rw [String.append_empty] at here
      unfold linkSign
      rw [here]
      dsimp only
      rw [hty, isPointer_of_structTarget? target]
      rfl
    rw [foldl_cons, sign, ih, String.append_assoc, String.append_assoc, String.append_assoc]
    · intro path' suffix' t unfolds
      have next := found _ _ t (.cons target noEnum known closed mem unfolds)
      rwa [String.append_assoc, ← String.append_assoc, ← String.append_assoc] at next

theorem spelling_dotted (plain : c.structs.All StructDef.PlainFields) {b : String}
    (noPoint : '.' ∉ b.toList) (hpath : path ≠ []) (h : c.Unfolds opened ty path suffix ty')
    (found : ∀ path' suffix' t, c.Unfolds opened ty path' suffix' t → ∃ y, look (b ++ suffix') = some y ∧ y.ty = t)
    (only : ∀ n y, PathInto b n → look n = some y →
      y.name = n ∧ ∃ path' suffix' t, c.Unfolds opened ty path' suffix' t ∧ n = b ++ suffix') :
    spelling look (dotted b path) = b ++ suffix := by
  have names := (h.spelled plain).names
  obtain ⟨text, spelled, eq⟩ := dotted_eq b names
  have into : PathInto b (dotted b path) := eq ▸ spelled.pathInto b hpath
  have point : Text.contains (dotted b path) '.' = true := by
    obtain ⟨f, rest, rfl⟩ := exists_cons_of_ne_nil hpath
    simp [Text.contains, toList_dotted]
  unfold spelling
  rw [if_neg (by simp [point])]
  split
  · -- the path is known as it stands, so all its links are points
    next v known =>
    obtain ⟨hname, path', suffix', t, unfolds, eq'⟩ := only _ v into known
    have same : text = suffix' := String.append_right_inj _ |>.mp (eq.symm.trans eq')
    subst same
    obtain rfl := spelled.path_unique (unfolds.spelled plain)
    rw [hname, eq, (h.unique plain unfolds).1]
  · rw [splitOn_dotted noPoint names]
    exact foldl_unfolds h found

/-- The scope shows a variable, its field variables, and nothing else behind its name. -/
structure Shows (c : Context) (s : Scope) (x : Variable) : Prop where
  own : c.resolve? s x.name = some x
  fields : ∀ y ∈ c.innerFields [] x, c.resolve? s y.name = some y
  only : ∀ n y, PathInto x.name n → c.resolve? s n = some y → y ∈ c.innerFields [] x ∧ y.name = n

section

variable (plain : c.structs.All StructDef.PlainFields)

include plain

theorem pathInto_of_mem_innerFields (h : y ∈ c.innerFields [] x) : PathInto x.name y.name := by
  obtain ⟨path, suffix, hpath, spelled, hname⟩ := exists_spelled plain h
  rw [hname]
  exact spelled.pathInto x.name hpath

theorem exists_declareList?_innerFields
    (reached : Scope.frames.run? .empty ops = some (answers, s)) (free : ∀ n, PathInto x.name n → c.resolve? s n = none)
    (declared : s.declare? x = some (hides, s')) : ∃ s'', s'.declareList? (c.innerFields [] x) = some s'' := by
  refine Scope.exists_declareList? (fun y hy own => ?_) (nodup_innerFields plain [] x)
  have into := pathInto_of_mem_innerFields plain hy
  obtain ⟨-, -, rfl⟩ := Scope.declare?_eq_some declared
  rcases mem_append.mp own with old | same
  · -- a frame sees whatever it declared
    obtain ⟨z, seen⟩ := Scope.exists_find?_of_mem_own reached old
    have unseen := free y.name into
    rw [resolve?, seen] at unseen
    cases unseen
  · exact into.ne (mem_singleton.mp same)

theorem shows_of_declareList? {s'' : Scope} (free : ∀ n, PathInto x.name n → c.resolve? s n = none)
    (declared : s.declare? x = some (hides, s'))
    (all : s'.declareList? (c.innerFields [] x) = some s'') : c.Shows s'' x := by
  have before : ∀ n, c.resolve? s' n = if n = x.name then some x else c.resolve? s n := by
    intro n
    rw [resolve?, Scope.find?_declare? declared]
    split <;> rfl
  have other : ∀ n, n ∉ (c.innerFields [] x).map (·.name) → c.resolve? s'' n = c.resolve? s' n := by
    intro n hn
    rw [resolve?, resolve?, Scope.find?_declareList?_of_not_mem all hn]
  have fields : ∀ y ∈ c.innerFields [] x, c.resolve? s'' y.name = some y := by
    intro y hy
    rw [resolve?, Scope.find?_declareList?_of_mem all hy]
    rfl
  refine ⟨?_, fields, fun n y into known => ?_⟩
  · rw [other, before, if_pos rfl]
    intro mem
    obtain ⟨y, hy, same⟩ := mem_map.mp mem
    exact (pathInto_of_mem_innerFields plain hy).ne same
  · by_cases mem : n ∈ (c.innerFields [] x).map (·.name)
    · obtain ⟨z, hz, rfl⟩ := mem_map.mp mem
      cases (fields z hz).symm.trans known
      exact ⟨hz, rfl⟩
    · rw [other n mem, before, if_neg into.ne, free n into] at known
      cases known

theorem Shows.spell_dotted (h : c.Shows s x) (noPoint : '.' ∉ x.name.toList) (hpath : path ≠ [])
    (unfolds : c.Unfolds [] x.ty path suffix ty) : c.spell s (dotted x.name path) = x.name ++ suffix := by
  refine spelling_dotted plain noPoint hpath unfolds ?_ ?_
  · intro path' suffix' t unfolds'
    by_cases empty : path' = []
    · subst empty
      cases unfolds'
      exact ⟨x, by rw [String.append_empty, h.own], rfl⟩
    · exact ⟨_, h.fields _ (unfolds'.mem_innerFields rfl empty), rfl⟩
  · intro n y into known
    obtain ⟨mem, rfl⟩ := h.only n y into known
    obtain ⟨path', suffix', t, -, unfolds', rfl⟩ := mem_innerFields.mp mem
    exact ⟨rfl, path', suffix', t, unfolds', rfl⟩

end

/-- Declare `x`, whose type is a registered struct or a pointer to one, in a scope where no name goes on behind its
name with a point or an arrow, and then its fields. They can all be declared, and are the variables of the field
paths of its type. Each path, written with points throughout, is spelled as its variable is declared, and stands for
that variable: its type is the one the path leads to, and it is constant if `x` is. -/
theorem spell_fieldPath {c : Context} {ops : List ScopeOp} {answers : List ScopeAnswer} {s s₁ : Scope} {x : Variable}
    {hides pointer : Bool} {name : String} {args : List Ty} (plain : c.structs.All StructDef.PlainFields)
    (reached : Scope.frames.run? .empty ops = some (answers, s)) (noPoint : '.' ∉ x.name.toList)
    (free : ∀ n, PathInto x.name n → c.resolve? s n = none) (target : x.ty.structTarget? = some (pointer, name, args))
    (registered : c.structs.has name = true) (declared : s.declare? x = some (hides, s₁)) :
    ∃ s', c.declareFields s₁ x.name pointer x.const name args = (s', none) ∧
      (∃ ys, s'.top.declared = s₁.top.declared ++ ys ∧
        ∀ y, y ∈ ys ↔ ∃ path suffix ty, path ≠ [] ∧ c.Unfolds [] x.ty path suffix ty ∧
          y = { name := x.name ++ suffix, ty := ty, const := x.const }) ∧
      ∀ path suffix ty, path ≠ [] → c.Unfolds [] x.ty path suffix ty →
        c.spell s' (dotted x.name path) = x.name ++ suffix ∧
        c.resolvePath? s' (dotted x.name path) =
          some { name := x.name ++ suffix, ty := ty, const := x.const } := by
  have fields : c.structFields [] x.name pointer x.const name args = c.innerFields [] x := by
    unfold innerFields
    rw [target]
    simp [registered]
  obtain ⟨s', all⟩ := exists_declareList?_innerFields plain reached free declared
  have shows := shows_of_declareList? plain free declared all
  refine ⟨s', ?_, ⟨_, Scope.declared_declareList? all, fun y => mem_innerFields⟩, ?_⟩
  · exact (declareStruct_eq c [] _ _ _ _ _ _ registered).trans (Scope.declareUntil_eq_none.mpr (fields ▸ all))
  · intro path suffix ty hpath unfolds
    have spelled := shows.spell_dotted plain noPoint hpath unfolds
    refine ⟨spelled, ?_⟩
    rw [resolvePath?, spelled]
    exact shows.fields _ (unfolds.mem_innerFields rfl hpath)

def place : StructDef :=
  { name := "Place", fields := [⟨"x", .int⟩] }

/-- A link of a list, which holds an item of any type and points to a place. -/
def link : StructDef :=
  { name := "Link"
    fields := [⟨"item", .placeholder "T"⟩, ⟨"at", .pointer (.named "Place" [])⟩,
      ⟨"next", .pointer (.named "Link" [.placeholder "T"])⟩]
    generics := ["T"] }

def linked : Context :=
  { structs := (({} : Table StructDef).add "Place" place "main.imp").add "Link" link "main.imp" }

/-- A constant that points to a link with a place in it. -/
def linkToPlace : Variable :=
  ⟨"v", .pointer (.named "Link" [.named "Place" []]), true, false, ""⟩

theorem spell_fieldPath_linked :
    ∃ s₁ s', Scope.empty.declare? linkToPlace = some (false, s₁) ∧
      linked.declareFields s₁ "v" true true "Link" [.named "Place" []] = (s', none) ∧
      linked.spell s' "v.at.x" = "v->at->x" ∧ linked.resolvePath? s' "v.item.x" =
        some { name := "v->item.x", ty := .int, const := true } := by
  have fieldName : ∀ n ∈ ["x", "item", "at", "next"], FieldName n := by
    have free : ∀ n ∈ ["x", "item", "at", "next"],
        '.' ∉ n.toList ∧ ¬['-', '>'] <:+: n.toList := by decide
    exact fun n hn => ⟨(free n hn).1, (free n hn).2⟩
  have plain : linked.structs.All StructDef.PlainFields := by
    refine Table.All.add (Table.All.add (fun _ _ h => nomatch h) ⟨by decide, ?_⟩ _ _) ⟨by decide, ?_⟩ _ _
    · simp [place, fieldName]
    · simp [link, fieldName]
  obtain ⟨s', success, -, paths⟩ := spell_fieldPath plain
    (show Scope.frames.run? .empty [] = some ([], .empty) from rfl)
    (show '.' ∉ linkToPlace.name.toList by decide) (fun n _ => rfl) rfl (by decide) rfl
  have behind : ∀ pointer ty, ty.structTarget? = some (pointer, "Place", []) →
      linked.Unfolds ["Link"] ty ["x"] (signText pointer ++ "x" ++ "") .int := fun pointer ty target =>
    .cons (d := place) (f := ⟨"x", .int⟩) target (by decide) rfl (by decide) (.head _) .nil
  have holds : linkToPlace.ty.structTarget? = some (true, "Link", [.named "Place" []]) := rfl
  refine ⟨_, s', rfl, success, ?_, ?_⟩
  · exact (paths _ _ _ (cons_ne_nil _ _) (.cons (d := link) (f := ⟨"at", .pointer (.named "Place" [])⟩) holds
      (by decide) rfl (by decide) (.tail _ (.head _)) (behind true _ rfl))).1
  · exact (paths _ _ _ (cons_ne_nil _ _) (.cons (d := link) (f := ⟨"item", .placeholder "T"⟩) holds
      (by decide) rfl (by decide) (.head _) (behind false _ rfl))).2

end Context

end Impulse
