import Impulse.Proofs.Lookup
import Mathlib.Data.List.Nodup

/-!
# Copies of a context that are taken back

An imported file is read with a copy of what is known, and what it found is taken over afterwards. Here the copy
is changed in any way a context can be changed, and taking it over is compared with having changed the one
context all along. The names of a registry are different from each other, and the names of the copy are those of
the context followed by the new ones. So taking over stops at the first name whose origin the copy has changed,
and otherwise gives back the copy, as long as the copy did not replace what it began with.
-/

namespace Impulse

open List

namespace Table

variable {t u : Table α}

/-- The names are different, and each of them has an item and an origin, and nothing else has. -/
structure Indexed (t : Table α) : Prop where
  nodup : t.names.Nodup
  item : ∀ name, name ∈ t.names ↔ (t.get? name).isSome
  origin : ∀ name, name ∈ t.names ↔ (t.origin? name).isSome

/-- Every entry of `t` is found in `u` as it is. -/
def KeptIn (t u : Table α) : Prop :=
  ∀ name e, t.find? name = some e → u.find? name = some e

theorem mem_names (t : Table α) (name : String) : name ∈ t.names ↔ (t.find? name).isSome := by
  rw [← has_eq_isSome]
  simp [names, has]

theorem not_mem_names : name ∉ t.names ↔ t.find? name = none := by
  rw [mem_names, Option.not_isSome_iff_eq_none]

theorem mem_names_iff_origin? (t : Table α) (name : String) : name ∈ t.names ↔ (t.origin? name).isSome := by
  rw [mem_names, origin?, Option.isSome_map]

theorem indexed_of_nodup (h : t.names.Nodup) : t.Indexed where
  nodup := h
  item name := by rw [mem_names, get?, Option.isSome_map]
  origin := t.mem_names_iff_origin?

theorem find?_of_mem (h : t.names.Nodup) (he : e ∈ t.entries) : t.find? e.name = some e := by
  obtain ⟨entries⟩ := t
  unfold find?
  unfold names at h
  induction entries with
  | nil => cases he
  | cons e' entries ih =>
    obtain ⟨fresh, distinct⟩ := nodup_cons.mp h
    rcases mem_cons.mp he with rfl | he
    · simp
    · have differs : e'.name ≠ e.name := fun same => fresh (mem_map.mpr ⟨e, he, same.symm⟩)
      rw [List.find?_cons, beq_false_of_ne differs]
      exact ih distinct he

theorem names_add (t : Table α) (name : String) (item : α) (origin : String) :
    (t.add name item origin).names = if name ∈ t.names then t.names else t.names ++ [name] := by
  have known : t.has name = true ↔ name ∈ t.names := by rw [mem_names, has_eq_isSome]
  unfold add
  by_cases h : name ∈ t.names
  · rw [if_pos (known.mpr h), if_pos h]
    simp only [names, map_map]
    refine map_congr_left fun e _ => ?_
    by_cases same : e.name = name
    · simp [same]
    · simp [same]
  · rw [if_neg (fun has => h (known.mp has)), if_neg h]
    simp [names]

theorem nodup_add (h : t.names.Nodup) (name : String) (item : α) (origin : String) :
    (t.add name item origin).names.Nodup := by
  rw [names_add]
  split
  · exact h
  · next fresh => simpa using h.concat fresh

/-- The names of `t` that have another origin in `u`, in the order of `t`. -/
def conflicts (t u : Table α) : List Conflict :=
  t.names.filterMap fun name =>
    match t.origin? name, u.origin? name with
    | some known, some got => if known = got then none else some ⟨name, known, got⟩
    | _, _ => none

/-- The conflict that an entry makes with what is known. -/
def conflictOf (t : Table α) (e : Entry α) : Option Conflict :=
  match t.origin? e.name with
  | some known => if known = e.origin then none else some ⟨e.name, known, e.origin⟩
  | none => none

theorem conflictOf_add {e e' : Entry α} (differs : e'.name ≠ e.name) :
    (t.add e.name e.item e.origin).conflictOf e' = t.conflictOf e' := by
  unfold conflictOf origin?
  rw [find?_add, if_neg differs]

theorem absorbEntries_eq (t : Table α) (h : (es.map (·.name)).Nodup) :
    (t.absorbEntries es).2 = (es.filterMap t.conflictOf).head? ∧
      ((t.absorbEntries es).2 = none →
        (t.absorbEntries es).1.entries = t.entries ++ es.filter fun e => (t.find? e.name).isNone) := by
  induction es generalizing t with
  | nil => exact ⟨rfl, fun _ => by simp [absorbEntries]⟩
  | cons e es ih =>
    obtain ⟨fresh, distinct⟩ := nodup_cons.mp h
    rw [absorbEntries]
    cases hfind : t.find? e.name with
    | some known =>
      have horigin : t.origin? e.name = some known.origin := by rw [origin?, hfind]; rfl
      dsimp only
      by_cases same : known.origin = e.origin
      · rw [if_pos same, filterMap_cons_none (by simp [conflictOf, horigin, same])]
        refine ⟨(ih t distinct).1, fun done => ?_⟩
        rw [(ih t distinct).2 done, filter_cons_of_neg (by simp [hfind])]
      · rw [if_neg same, filterMap_cons_some (b := ⟨e.name, known.origin, e.origin⟩)
            (by simp [conflictOf, horigin, same])]
        refine ⟨rfl, fun done => ?_⟩
        cases done
    | none =>
      have unknown : t.has e.name = false := by rw [has_eq_isSome, hfind]; rfl
      have entries : (t.add e.name e.item e.origin).entries = t.entries ++ [e] := by
        rw [add, if_neg (by simp [unknown])]
      -- The added entry has another name than those that follow, so it makes no difference to them.
      have others : ∀ e' ∈ es, e'.name ≠ e.name := fun e' he' same =>
        fresh (mem_map.mpr ⟨e', he', same⟩)
      obtain ⟨stops, takes⟩ := ih (t.add e.name e.item e.origin) distinct
      have sameConflicts : es.filterMap (t.add e.name e.item e.origin).conflictOf
          = es.filterMap t.conflictOf :=
        filterMap_congr fun e' he' => conflictOf_add (others e' he')
      have sameNew : (es.filter fun e' => ((t.add e.name e.item e.origin).find? e'.name).isNone)
          = es.filter fun e' => (t.find? e'.name).isNone := by
        refine filter_congr fun e' he' => ?_
        rw [find?_add, if_neg (others e' he')]
      dsimp only
      rw [filterMap_cons_none (by simp [conflictOf, origin?, hfind])]
      refine ⟨stops.trans (by rw [sameConflicts]), fun done => ?_⟩
      rw [takes done, entries, sameNew, filter_cons_of_pos (by simp [hfind])]
      simp

theorem entries_split (hu : u.names.Nodup) (grown : t.names <+: u.names) :
    ∃ old new, u.entries = old ++ new ∧ old.map (·.name) = t.names ∧
      ∀ e ∈ new, t.find? e.name = none := by
  refine ⟨u.entries.take t.names.length, u.entries.drop t.names.length, (take_append_drop _ _).symm, ?_, ?_⟩
  · rw [map_take]
    exact (prefix_iff_eq_take.mp grown).symm
  · obtain ⟨rest, hrest⟩ := grown
    intro e he
    have inRest : e.name ∈ rest := by
      have : e.name ∈ u.names.drop t.names.length := by
        unfold Table.names
        rw [← map_drop]
        exact mem_map_of_mem he
      rwa [← hrest, drop_left] at this
    rw [← not_mem_names]
    rw [← hrest] at hu
    exact fun old => disjoint_of_nodup_append hu old inRest

theorem absorb_conflict (hu : u.names.Nodup) (grown : t.names <+: u.names) :
    (t.absorb u).2 = (t.conflicts u).head? := by
  obtain ⟨old, new, entries, oldNames, unknown⟩ := entries_split hu grown
  rw [absorb, (t.absorbEntries_eq hu).1, entries, filterMap_append]
  have none : new.filterMap t.conflictOf = [] := by
    refine filterMap_eq_nil_iff.mpr fun e he => ?_
    simp [conflictOf, origin?, unknown e he]
  have all : old.filterMap t.conflictOf = t.conflicts u := by
    rw [conflicts, ← oldNames, filterMap_map]
    refine filterMap_congr fun e he => ?_
    have found : u.origin? e.name = some e.origin := by
      rw [origin?, find?_of_mem hu (entries ▸ mem_append_left _ he)]
      rfl
    simp only [Function.comp_apply, found, conflictOf]
    cases t.origin? e.name <;> rfl
  rw [none, all, append_nil]

theorem absorb_of_keptIn (ht : t.names.Nodup) (hu : u.names.Nodup) (grown : t.names <+: u.names)
    (kept : t.KeptIn u) : t.absorb u = (u, none) := by
  obtain ⟨old, new, entries, oldNames, unknown⟩ := entries_split hu grown
  have agree : (t.absorb u).2 = none := by
    rw [absorb_conflict hu grown, List.head?_eq_none_iff, conflicts, filterMap_eq_nil_iff]
    intro name hname
    obtain ⟨e, he⟩ := Option.isSome_iff_exists.mp ((mem_names t name).mp hname)
    simp [origin?, he, kept name e he]
  -- The old entries have the names of `t`, and under each name both registries have the same entry.
  have same : old = t.entries := by
    refine ext_getElem? fun i => ?_
    have names : (old.map (·.name))[i]? = (t.entries.map (·.name))[i]? := by rw [oldNames]; rfl
    rw [List.getElem?_map, List.getElem?_map] at names
    cases hi : t.entries[i]? with
    | none => simpa [hi] using names
    | some e =>
      obtain ⟨e', he', hname⟩ : ∃ e', old[i]? = some e' ∧ e'.name = e.name := by
        simpa [hi] using names
      have inT := find?_of_mem ht (mem_of_getElem? hi)
      have inU := find?_of_mem hu (entries ▸ mem_append_left new (mem_of_getElem? he'))
      rw [hname, kept _ _ inT] at inU
      rw [he', ← Option.some.inj inU]
  have taken : (t.absorb u).1.entries = u.entries := by
    rw [absorb, (t.absorbEntries_eq hu).2 agree, entries, ← same, filter_append]
    have skipped : (old.filter fun e => (t.find? e.name).isNone) = [] := by
      refine filter_eq_nil_iff.mpr fun e he => ?_
      rw [find?_of_mem ht (same ▸ he)]
      simp
    have all : (new.filter fun e => (t.find? e.name).isNone) = new :=
      filter_eq_self.mpr fun e he => by rw [unknown e he]; rfl
    rw [skipped, all, nil_append]
  have first : (t.absorb u).1 = u := by
    cases hmerged : (t.absorb u).1
    cases u
    rw [hmerged] at taken
    exact congrArg Table.mk taken
  exact Prod.ext first agree

theorem nodup_absorb (ht : t.names.Nodup) (u : Table α) : (t.absorb u).1.names.Nodup := by
  unfold absorb
  generalize u.entries = es
  induction es generalizing t with
  | nil => exact ht
  | cons e es ih =>
    rw [absorbEntries]
    split
    · split
      · exact ih ht
      · exact ht
    · exact ih (nodup_add ht _ _ _)

end Table

inductive Registry
  | structs
  | enums
  | functions
  | globals
  deriving DecidableEq, Repr

namespace Registry

def all : List Registry :=
  [structs, enums, functions, globals]

def text : Registry → String
  | structs => "struct"
  | enums => "enum"
  | functions => "function"
  | globals => "global"

end Registry

namespace Context

def names (c : Context) : Registry → List String
  | .structs => c.structs.names
  | .enums => c.enums.names
  | .functions => c.functions.names
  | .globals => c.globals.names

def origin? (c : Context) (name : String) : Registry → Option String
  | .structs => c.structs.origin? name
  | .enums => c.enums.origin? name
  | .functions => c.functions.origin? name
  | .globals => c.globals.origin? name

/-- The names are different in each registry, and are exactly those that have an item and an origin. No file is
marked twice. -/
structure Indexed (c : Context) : Prop where
  structs : c.structs.Indexed
  enums : c.enums.Indexed
  functions : c.functions.Indexed
  globals : c.globals.Indexed
  imported : c.imported.Nodup

/-- A change of a context: an item is added to a registry, or a file is marked as imported. -/
inductive Operation
  | addStruct (name : String) (d : StructDef) (origin : String)
  | addEnum (name : String) (d : EnumDef) (origin : String)
  | addFunction (name : String) (sig : Signature) (origin : String)
  | addGlobal (name : String) (x : Variable) (origin : String)
  | mark (key : UInt64)

/-- The name that a change adds to a registry. -/
def Operation.name? : Operation → Registry → Option String
  | .addStruct name _ _, .structs => some name
  | .addEnum name _ _, .enums => some name
  | .addFunction name _ _, .functions => some name
  | .addGlobal name _ _, .globals => some name
  | _, _ => none

def perform (c : Context) : Operation → Context
  | .addStruct name d origin => { c with structs := c.structs.add name d origin }
  | .addEnum name d origin => { c with enums := c.enums.add name d origin }
  | .addFunction name sig origin => { c with functions := c.functions.add name sig origin }
  | .addGlobal name x origin => { c with globals := c.globals.add name x origin }
  | .mark key => (c.markImported key).2

def performAll (c : Context) (ops : List Operation) : Context :=
  ops.foldl perform c

/-- The contexts that can come up: the one before the first file, and those that follow from it by changes and by
taking over another context, also if that stops at a conflict. -/
inductive Built : Context → Prop
  | initial : Built .initial
  | perform {c : Context} (h : Built c) (op : Operation) : Built (c.perform op)
  | absorb {c child : Context} (h : Built c) (h' : Built child) : Built (c.absorb child).1

/-- The names of `c` that have another origin in `child`, in the order in which they are taken over. -/
def conflicts (c child : Context) : List Duplicate :=
  Registry.all.flatMap fun r =>
    (c.names r).filterMap fun name =>
      match c.origin? name r, child.origin? name r with
      | some known, some got => if known = got then none else some ⟨r.text, ⟨name, known, got⟩⟩
      | _, _ => none

/-- Nothing that `c` knows is replaced in `child`. -/
structure KeptIn (c child : Context) : Prop where
  structs : c.structs.KeptIn child.structs
  enums : c.enums.KeptIn child.enums
  functions : c.functions.KeptIn child.functions
  globals : c.globals.KeptIn child.globals

variable {c child : Context}

theorem Indexed.perform (h : c.Indexed) (op : Operation) : (c.perform op).Indexed := by
  cases op with
  | addStruct name d origin =>
    exact { h with structs := Table.indexed_of_nodup (Table.nodup_add h.structs.nodup _ _ _) }
  | addEnum name d origin =>
    exact { h with enums := Table.indexed_of_nodup (Table.nodup_add h.enums.nodup _ _ _) }
  | addFunction name sig origin =>
    exact { h with functions := Table.indexed_of_nodup (Table.nodup_add h.functions.nodup _ _ _) }
  | addGlobal name x origin =>
    exact { h with globals := Table.indexed_of_nodup (Table.nodup_add h.globals.nodup _ _ _) }
  | mark key =>
    rw [Context.perform, markImported_imported]
    refine { h with imported := ?_ }
    dsimp only
    split
    · exact h.imported
    · next isNew => simpa using h.imported.concat isNew

theorem Indexed.performAll (h : c.Indexed) (ops : List Operation) : (c.performAll ops).Indexed := by
  unfold Context.performAll
  induction ops generalizing c with
  | nil => exact h
  | cons op ops ih => exact ih (h.perform op)

theorem names_perform (c : Context) (op : Operation) (r : Registry) :
    (c.perform op).names r = match op.name? r with
      | some name => if name ∈ c.names r then c.names r else c.names r ++ [name]
      | none => c.names r := by
  cases op with
  | addStruct name d origin =>
    cases r with
    | structs => exact Table.names_add _ _ _ _
    | _ => rfl
  | addEnum name d origin =>
    cases r with
    | enums => exact Table.names_add _ _ _ _
    | _ => rfl
  | addFunction name sig origin =>
    cases r with
    | functions => exact Table.names_add _ _ _ _
    | _ => rfl
  | addGlobal name x origin =>
    cases r with
    | globals => exact Table.names_add _ _ _ _
    | _ => rfl
  | mark key =>
    rw [perform, markImported_imported]
    cases r <;> rfl

theorem names_performAll (c : Context) (ops : List Operation) (r : Registry) :
    (c.performAll ops).names r = c.names r ++
      ((ops.filterMap (·.name? r)).filter fun name => !(c.names r).contains name).eraseDups := by
  unfold performAll
  induction ops generalizing c with
  | nil => simp
  | cons op ops ih =>
    have first := names_perform c op r
    rw [foldl_cons, ih, filterMap_cons]
    cases hname : op.name? r with
    | none =>
      rw [hname] at first
      rw [first]
    | some name =>
      rw [hname] at first
      dsimp only at first ⊢
      by_cases known : name ∈ c.names r
      · rw [if_pos known] at first
        rw [first, filter_cons_of_neg (by simpa using known)]
      · rw [if_neg known] at first
        have others : ∀ names : List String,
            (names.filter fun n => !(c.names r ++ [name]).contains n)
              = names.filter fun n => !n == name && !(c.names r).contains n := by
          intro names
          refine filter_congr fun n _ => ?_
          by_cases same : n = name <;> simp [same]
        rw [first, filter_cons_of_pos (by simpa using known), eraseDups_cons,
          filter_filter, append_assoc, others]
        rfl

theorem names_prefix_performAll (c : Context) (ops : List Operation) (r : Registry) :
    c.names r <+: (c.performAll ops).names r := by
  rw [names_performAll]
  exact prefix_append _ _

theorem imported_performAll (c : Context) (ops : List Operation) :
    ∃ new, (c.performAll ops).imported = c.imported ++ new := by
  unfold performAll
  induction ops generalizing c with
  | nil => exact ⟨[], by simp⟩
  | cons op ops ih =>
    obtain ⟨new, hnew⟩ := ih (c.perform op)
    rw [foldl_cons, hnew]
    have marked : ∃ first, (c.perform op).imported = c.imported ++ first := by
      cases op with
      | mark key =>
        rw [perform, markImported_imported]
        dsimp only
        split
        · exact ⟨[], by simp⟩
        · exact ⟨[key], rfl⟩
      | _ => exact ⟨[], by simp [perform]⟩
    obtain ⟨first, hfirst⟩ := marked
    exact ⟨first ++ new, by rw [hfirst, append_assoc]⟩

theorem absorb_eq (c child : Context) :
    (c.absorb child).2 = ((c.structs.absorb child.structs).2.map (Duplicate.mk "struct")).or
        (((c.enums.absorb child.enums).2.map (Duplicate.mk "enum")).or
          (((c.functions.absorb child.functions).2.map (Duplicate.mk "function")).or
            ((c.globals.absorb child.globals).2.map (Duplicate.mk "global")))) := by
  unfold absorb
  dsimp only
  split
  · next e he => simp [he]
  · next h₁ =>
    split
    · next e he => simp [h₁, he]
    · next h₂ =>
      split
      · next e he => simp [h₁, h₂, he]
      · next h₃ =>
        split
        · next e he => simp [h₁, h₂, h₃, he]
        · next h₄ => simp [h₁, h₂, h₃, h₄]

theorem Indexed.absorb (h : c.Indexed) (h' : child.Indexed) : (c.absorb child).1.Indexed := by
  have structs := Table.indexed_of_nodup (Table.nodup_absorb h.structs.nodup child.structs)
  have enums := Table.indexed_of_nodup (Table.nodup_absorb h.enums.nodup child.enums)
  have functions := Table.indexed_of_nodup (Table.nodup_absorb h.functions.nodup child.functions)
  have globals := Table.indexed_of_nodup (Table.nodup_absorb h.globals.nodup child.globals)
  have imported : (c.imported ++ child.imported.filter fun key => !c.imported.contains key).Nodup := by
    refine nodup_append.mpr ⟨h.imported, h'.imported.filter _, ?_⟩
    rintro key old _ new rfl
    simp [old] at new
  unfold Context.absorb
  dsimp only
  split
  · exact { h with structs := structs }
  · split
    · exact { h with structs := structs, enums := enums }
    · split
      · exact { h with structs := structs, enums := enums, functions := functions }
      · split
        · exact { h with structs := structs, enums := enums, functions := functions, globals := globals }
        · exact ⟨structs, enums, functions, globals, imported⟩

theorem indexed_initial : Context.initial.Indexed :=
  ⟨Table.indexed_of_nodup (by simp [initial, Table.names]),
    Table.indexed_of_nodup (by simp [initial, Table.names]),
    Table.indexed_of_nodup (by decide), Table.indexed_of_nodup (by simp [initial, Table.names]),
    by simp [initial]⟩

theorem Built.performAll (h : c.Built) (ops : List Operation) : (c.performAll ops).Built := by
  unfold Context.performAll
  induction ops generalizing c with
  | nil => exact h
  | cons op ops ih => exact ih (h.perform op)

theorem Built.indexed (h : c.Built) : c.Indexed := by
  induction h with
  | initial => exact indexed_initial
  | perform _ op ih => exact ih.perform op
  | absorb _ _ ih ih' => exact ih.absorb ih'

theorem absorb_conflict (h' : child.Indexed) (grown : ∀ r, c.names r <+: child.names r) :
    (c.absorb child).2 = (c.conflicts child).head? := by
  have structs := Table.absorb_conflict h'.structs.nodup (grown .structs)
  have enums := Table.absorb_conflict h'.enums.nodup (grown .enums)
  have functions := Table.absorb_conflict h'.functions.nodup (grown .functions)
  have globals := Table.absorb_conflict h'.globals.nodup (grown .globals)
  have named : ∀ {α : Type} (t u : Table α) (kind : String), (t.conflicts u).map (Duplicate.mk kind)
      = t.names.filterMap fun name => match t.origin? name, u.origin? name with
        | some known, some got => if known = got then none else some ⟨kind, ⟨name, known, got⟩⟩
        | _, _ => none := by
    intro α t u kind
    rw [Table.conflicts, map_filterMap]
    refine filterMap_congr fun name _ => ?_
    cases t.origin? name <;> cases u.origin? name <;> simp only [Option.map_none]
    split <;> rfl
  rw [absorb_eq, structs, enums, functions, globals, conflicts]
  simp only [Registry.all, flatMap_cons, flatMap_nil, append_nil, List.head?_append,
    ← List.head?_map, named]
  rfl

theorem absorb_of_keptIn (h : c.Indexed) (h' : child.Indexed) (grown : ∀ r, c.names r <+: child.names r)
    (marked : ∃ new, child.imported = c.imported ++ new) (kept : c.KeptIn child) : c.absorb child = (child, none) := by
  have structs := Table.absorb_of_keptIn h.structs.nodup h'.structs.nodup (grown .structs) kept.structs
  have enums := Table.absorb_of_keptIn h.enums.nodup h'.enums.nodup (grown .enums) kept.enums
  have functions :=
    Table.absorb_of_keptIn h.functions.nodup h'.functions.nodup (grown .functions) kept.functions
  have globals := Table.absorb_of_keptIn h.globals.nodup h'.globals.nodup (grown .globals) kept.globals
  obtain ⟨new, hnew⟩ := marked
  have imported : c.imported ++ (child.imported.filter fun key => !c.imported.contains key)
      = child.imported := by
    have distinct := h'.imported
    rw [hnew] at distinct ⊢
    have old : (c.imported.filter fun key => !c.imported.contains key) = [] :=
      filter_eq_nil_iff.mpr fun key hkey => by simpa using hkey
    have fresh : (new.filter fun key => !c.imported.contains key) = new := by
      refine filter_eq_self.mpr fun key hkey => ?_
      simpa using fun old => disjoint_of_nodup_append distinct old hkey
    rw [filter_append, old, fresh, nil_append]
  unfold absorb
  simp only [structs, enums, functions, globals, imported]

theorem conflicts_eq_nil (c child : Context) : c.conflicts child = [] ↔
    ∀ r name known got, c.origin? name r = some known → child.origin? name r = some got → known = got := by
  have named : ∀ r name known, c.origin? name r = some known → name ∈ c.names r := by
    intro r name known h
    cases r <;> exact (Table.mem_names_iff_origin? _ _).mpr (Option.isSome_of_eq_some h)
  have listed : ∀ r : Registry, r ∈ Registry.all := by
    intro r
    cases r <;> decide
  unfold conflicts
  rw [flatMap_eq_nil_iff]
  simp only [filterMap_eq_nil_iff]
  constructor
  · intro none r name known got hknown hgot
    have := none r (listed r) name (named r name known hknown)
    rw [hknown, hgot] at this
    simpa using this
  · intro agree r _ name _
    cases hknown : c.origin? name r with
    | none => rfl
    | some known =>
      cases hgot : child.origin? name r with
      | none => rfl
      | some got => simp [agree r name known got hknown hgot]

/-- A context is copied, the copy is changed in any way, and then it is taken over. All along, the names in each
registry are different and are those that have an item and an origin. Taking over stops exactly if a name that
the context knows has another origin in the copy, and tells the first such name: by registry, and in the order
in which names were added. The names of the copy are the old ones, followed by the new ones in the order in
which they were found; and if nothing old was replaced, the result is the copy itself. -/
theorem absorb_performAll (built : c.Built) (ops : List Operation) :
    (∀ done, done <+: ops → (c.performAll done).Indexed) ∧
    (c.absorb (c.performAll ops)).1.Indexed ∧
    ((c.absorb (c.performAll ops)).2 ≠ none ↔
      ∃ r name known got, c.origin? name r = some known ∧
        (c.performAll ops).origin? name r = some got ∧ known ≠ got) ∧
    (c.absorb (c.performAll ops)).2 = (c.conflicts (c.performAll ops)).head? ∧
    (∀ r, (c.performAll ops).names r = c.names r ++
      ((ops.filterMap (·.name? r)).filter fun name => !(c.names r).contains name).eraseDups) ∧
    (c.KeptIn (c.performAll ops) → c.absorb (c.performAll ops) = (c.performAll ops, none)) := by
  have indexed := built.indexed
  have copied := indexed.performAll ops
  have grown := names_prefix_performAll c ops
  have first := absorb_conflict copied grown
  refine ⟨fun done _ => indexed.performAll done, indexed.absorb copied, ?_, first, names_performAll c ops, ?_⟩
  · rw [first, Ne, List.head?_eq_none_iff, conflicts_eq_nil]
    simp only [not_forall, exists_prop, ne_eq]
  · exact absorb_of_keptIn indexed copied grown (imported_performAll c ops)

def drawing : Context :=
  Context.initial.performAll
    [.addStruct "Point" { name := "Point" } "a.imp", .addEnum "Color" { name := "Color" } "a.imp", .mark 7]

/-- Changes that define functions and give the enum another origin. -/
def recoloring : List Operation :=
  [.addFunction "b" { name := "b", ret := .void } "b.imp",
   .addFunction "a" { name := "a", ret := .void } "b.imp",
   .addEnum "Color" { name := "Color" } "b.imp"]

theorem absorb_performAll_recoloring :
    drawing.Built ∧ (drawing.absorb (drawing.performAll recoloring)).2 = some ⟨"enum", ⟨"Color", "a.imp", "b.imp"⟩⟩ ∧
    (drawing.performAll recoloring).names .functions = ["print", "println", "b", "a"] := by
  have built : drawing.Built := Built.initial.performAll _
  obtain ⟨-, -, -, first, names, -⟩ := absorb_performAll built recoloring
  refine ⟨built, first.trans ?_, (names .functions).trans ?_⟩
  · rfl
  · decide

end Context

end Impulse
