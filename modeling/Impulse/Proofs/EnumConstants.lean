import Impulse.Proofs.Definitions

/-!
# The constants of an enum

When the body of an enum is closed, its fields become global constants, and so does their number. The names of these
constants are paths into the name of the enum. They are new unless a field is called like the number, or the enum is
called like a global variable, whose fields may be there already.
-/

namespace Impulse

open List

theorem Table.size_foldl_add (t : Table Variable) (xs : List Variable) (origin : String) :
    (xs.foldl (fun t x => t.add x.name x origin) t).size ≤ t.size + xs.length ∧
      ((xs.foldl (fun t x => t.add x.name x origin) t).size = t.size + xs.length ↔
        (xs.map (·.name)).Nodup ∧ ∀ n ∈ xs.map (·.name), n ∉ t.names) := by
  induction xs generalizing t with
  | nil => simp
  | cons x xs ih =>
    obtain ⟨bound, exactly⟩ := ih (t.add x.name x origin)
    have length (u : Table Variable) : u.size = u.names.length := (length_map _).symm
    have names := t.names_add x.name x origin
    have size := congrArg List.length names
    rw [← length] at size
    rw [foldl_cons, length_cons]
    by_cases known : x.name ∈ t.names
    · rw [if_pos known, ← length] at size
      exact ⟨by omega, fun same => by omega, fun new => absurd known (new.2 _ (.head _))⟩
    · rw [if_neg known] at size names
      rw [length_append, length_singleton, ← length] at size
      rw [size] at bound exactly
      rw [names] at exactly
      refine ⟨by omega, ?_⟩
      rw [show t.size + (xs.length + 1) = t.size + 1 + xs.length by omega, exactly]
      grind

namespace Parse

theorem closeBlock_enum (settings : Settings)
    (blocks : s.blocks = b :: rest) (kind : b.kind = .enum) (record : s.record = some (.enum d)) (t : Token) :
    ∃ s', closeBlock t settings s = .ok () s' ∧ s'.context.globals =
      (enumConstants d).foldl (fun t x => t.add x.name x s.file) s.context.globals := by
  obtain ⟨_, token, framed, value⟩ := b
  cases kind
  obtain ⟨u, rfl⟩ : ∃ u : State,
      s = { u with blocks := ⟨.enum, token, framed, value⟩ :: rest, record := some (.enum d) } :=
    ⟨s, by rw [← blocks, ← record]⟩
  let shut : State := { u with blocks := rest, afterBranch := false, record := some (.enum d) }
  exact ⟨{ shut.finishedEnum d with record := none }, rfl, by simp [State.finishedEnum, shut]⟩

end Parse

open Parse

section

variable (d) (t : Table Variable) (origin : String)

theorem get?_fieldCount :
    ((enumConstants d).foldl (fun t x => t.add x.name x origin) t).get? (d.name ++ "." ++ "field_count") =
      some { name := d.name ++ ".field_count", ty := .int, const := true, flat := true
             value := toString d.fields.length } := by
  rw [Table.get?_foldl_add, enumConstants, reverse_append]
  simp [String.append_assoc]

variable {d}

theorem get?_enumField (field : f ∈ d.fields) (other : f ≠ "field_count") :
    ∃ x, ((enumConstants d).foldl (fun t x => t.add x.name x origin) t).get? (d.name ++ "." ++ f) = some x ∧
      x.const = true ∧ x.ty = .named d.name [] := by
  have cancel {g : String} (same : d.name ++ "." ++ g = d.name ++ "." ++ f) : g = f := String.append_right_inj _ |>.mp same
  have known : d.name ++ "." ++ f ∈ (enumConstants d).map (·.name) := by
    rw [Context.names_enumConstants]
    exact mem_map_of_mem (mem_append_left _ field)
  rw [Table.get?_foldl_add]
  cases found : (enumConstants d).reverse.find? (·.name == d.name ++ "." ++ f) with
  | none =>
    obtain ⟨x, mem, same⟩ := mem_map.mp known
    exact absurd (beq_iff_eq.mpr same) (List.find?_eq_none.mp found x (mem_reverse.mpr mem))
  | some x =>
    refine ⟨x, rfl, ?_⟩
    have same : x.name = d.name ++ "." ++ f := by simpa using List.find?_some found
    rcases mem_append.mp (mem_reverse.mp (mem_of_find?_eq_some found)) with mem | mem
    · obtain ⟨g, -, rfl⟩ := mem_map.mp mem
      exact ⟨rfl, rfl⟩
    · obtain rfl := mem_singleton.mp mem
      exact absurd (cancel (by simpa [String.append_assoc] using same)).symm other

end

/-- Wherever the body of an enum is open, it can be closed. Then a field is a global constant of the type of the enum,
unless it is called like the number of fields, and this number is a constant. There is one new global variable for each
field and for the number exactly if no field is called like the number, and no path into the enum was known, as it is
when no global variable is called like the enum. -/
theorem closeBlock_declares {settings : Settings} {library : Library} {path text : String} {fuel : Nat} {s : State}
    {toks : List Token} (moment : Moment settings library path text fuel s toks) {b : Block} {rest : List Block}
    (blocks : s.blocks = b :: rest) (kind : b.kind = .enum) (t : Token) :
    ∃ d s', s.record = some (.enum d) ∧ closeBlock t settings s = .ok () s' ∧
      (∀ f ∈ d.fields, f ≠ "field_count" → ∃ x, s'.context.globals.get? (d.name ++ "." ++ f) = some x ∧
        x.const = true ∧ x.ty = .named d.name []) ∧
      (∃ x, s'.context.globals.get? (d.name ++ "." ++ "field_count") = some x ∧ x.const = true ∧ x.ty = .int ∧
        x.value = toString d.fields.length) ∧
      (s'.context.globals.size = s.context.globals.size + (d.fields.length + 1) ↔ "field_count" ∉ d.fields ∧
        ∀ f ∈ d.fields ++ ["field_count"], d.name ++ "." ++ f ∉ s.context.globals.names) ∧
      (d.name ∉ s.context.globals.names → ∀ f, d.name ++ "." ++ f ∉ s.context.globals.names) := by
  have ready : s.Ready True fuel := moment.ready (.inl trivial)
  obtain ⟨-, -, ⟨r, record, same⟩, -⟩ := ready.nested.close_record blocks (.inr kind)
  cases r with
  | struct => cases kind.symm.trans same
  | enum d =>
    obtain ⟨s', closed, globals⟩ := closeBlock_enum settings blocks kind record t
    obtain ⟨plain, undefined, distinct⟩ := moment.apart.awaits.enum record
    refine ⟨d, s', record, closed, ?_, ?_, ?_, fun free f known => ?_⟩
    · rw [globals]
      exact fun f => get?_enumField _ _
    · rw [globals]
      exact ⟨_, get?_fieldCount d _ _, rfl, rfl, rfl⟩
    · have count : (enumConstants d).length = d.fields.length + 1 := by simp [enumConstants]
      have new := (Table.size_foldl_add s.context.globals (enumConstants d) s.file).2
      rw [count, Context.nodup_enumConstants distinct, Context.names_enumConstants, forall_mem_map] at new
      rw [globals, new]
    · rcases moment.apart.rooted.global_of_path plain ⟨f, .inl rfl⟩ known with global | enum
      · exact free global
      · exact undefined ⟨.enums, by decide, enum⟩

/-- A variable of a struct type, and an enum with other names for its fields. -/
def twoColors : String :=
  "P :: struct \x7b x: int; \x7d c: P; Color :: enum \x7b Red; Blue; \x7d"

theorem closeBlock_declares_twoColors :
    ∃ fuel s toks d s', Moment Settings.plain (.memory []) "main.imp" twoColors fuel s toks ∧
      s.record = some (.enum d) ∧ (d.name, d.fields) = ("Color", ["Red", "Blue"]) ∧
      closeBlock default Settings.plain s = .ok () s' ∧
      s'.context.globals.size = s.context.globals.size + 3 := by
  -- The first 21 tokens end behind the second field.
  have run : ((stateBefore? Settings.plain (.memory []) "main.imp" twoColors 21).map fun s =>
      (s.blocks.map (·.kind), s.record.map fun r => r.casesOn (fun d => (d.name, [])) (fun d => (d.name, d.fields)),
        s.context.globals.names)) = some ([.enum], some ("Color", ["Red", "Blue"]), ["c", "c.x"]) := by
    decide +kernel
  obtain ⟨s, before, sees⟩ := Option.map_eq_some_iff.mp run
  obtain ⟨toks, moment⟩ := Moment.of_stateBefore? (by decide) before
  simp only [Prod.mk.injEq, map_eq_singleton_iff] at sees
  obtain ⟨⟨b, blocks, kind⟩, record, names⟩ := sees
  obtain ⟨d, s', current, closed, -, -, size, free⟩ := closeBlock_declares moment blocks kind default
  rw [current] at record
  obtain enum : (d.name, d.fields) = ("Color", ["Red", "Blue"]) := Option.some.inj record
  obtain ⟨name, fields⟩ := Prod.mk.inj enum
  refine ⟨_, s, toks, d, s', moment, current, enum, closed, ?_⟩
  rw [fields] at size
  exact size.mpr ⟨by decide, fun f _ => free (by rw [name, names]; decide) f⟩

/-- The last constant counts the fields, so a field of that name has no constant of its own. -/
theorem enumConstants_fieldCount :
    (compile Settings.plain (.memory []) "main.imp" "E :: enum \x7b field_count; \x7d").stop = none ∧
    (compile Settings.plain (.memory []) "main.imp" "E :: enum \x7b field_count; \x7d").context.globals.names
      = ["E.field_count"] := by
  decide +kernel

end Impulse
