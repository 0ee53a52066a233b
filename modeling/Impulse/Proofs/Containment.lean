import Impulse.Proofs.Addresses
import Impulse.Proofs.Definitions
import Mathlib.Logic.Relation

/-!
# Layouts of structs

A struct is written with the structs that are defined before it, so the structs that are stored inside of others form no
cycle, with two exceptions. The name of a struct stands for it inside of its own body, under a pointer or not, so a struct
can be stored in itself. And the word `string` is a type before there is a struct of the name, so a struct can store the
strings of a struct that follows and stores the first.
-/

namespace Impulse

open List

/-- The values of the type store values of the other one: a type stores itself, an array its elements, and a generic
struct the arguments that its fields store. Behind a pointer nothing is stored. -/
inductive Ty.Stores (c : Context) : Ty → Ty → Prop
  | self (ty : Ty) : Stores c ty ty
  | element {elem part : Ty} (length : String) (h : Stores c elem part) : Stores c (.array elem length) part
  | argument {name generic : String} {args : List Ty} {d : StructDef} {f : Param} {arg part : Ty}
      (known : c.structs.get? name = some d) (mem : f ∈ d.fields) (stored : Stores c f.ty (.placeholder generic))
      (bound : (d.bindings args).find? generic = some arg) (h : Stores c arg part) : Stores c (.named name args) part

/-- The struct `a` has a field that stores the struct `b`. -/
def Context.Holds (c : Context) (a b : String) : Prop :=
  b ∈ c.names .structs ∧ ∃ d f args, c.structs.get? a = some d ∧ f ∈ d.fields ∧ f.ty.Stores c (.named b args)

/-- The struct `a` is defined before the struct `b`. -/
def Context.Before (c : Context) (a b : String) : Prop :=
  (c.names .structs).idxOf a < (c.names .structs).idxOf b

namespace Context.Before

variable {c c' : Context}

theorem mem (h : c.Before a b) : a ∈ c.names .structs :=
  idxOf_lt_length_iff.mp (Nat.lt_of_lt_of_le h idxOf_le_length)

theorem of_new (known : a ∈ c.names .structs) (new : b ∉ c.names .structs) : c.Before a b := by
  rw [Before, idxOf_eq_length new]
  exact idxOf_lt_length_iff.mpr known

theorem mono (h : c.Before a b) (grown : c.names .structs <+: c'.names .structs) : c'.Before a b := by
  obtain ⟨rest, same⟩ := grown
  have known := h.mem
  unfold Before at h ⊢
  rw [← same, idxOf_append_of_mem known]
  by_cases other : b ∈ c.names .structs
  · rwa [idxOf_append_of_mem other]
  · rw [idxOf_append_of_notMem other]
    have := idxOf_lt_length_iff.mpr known
    omega

theorem total (differ : a ≠ b) (known : b ∈ c.names .structs) (last : ¬c.Before a b) : c.Before b a := by
  refine Nat.lt_of_le_of_ne (Nat.le_of_not_lt last) fun same => differ ?_
  exact ((idxOf_inj known).mp same).symm

end Context.Before

/-- What a field of the struct `a` can store: the struct itself, strings, enums and structs that are defined before. -/
def Context.Allows (c : Context) (a b : String) : Prop :=
  b = a ∨ b = "string" ∨ b ∈ c.names .enums ∨ c.Before b a

theorem Context.Allows.mono {c c' : Context} (h : c.Allows a b) (structs : c.names .structs <+: c'.names .structs)
    (enums : c.names .enums ⊆ c'.names .enums) : c'.Allows a b :=
  h.imp_right (.imp_right (.imp (fun mem => enums mem) fun before => before.mono structs))

namespace TypeExpr

/-- The structs and enums that a written type stores are those of the word `string`, of the open body, or known. -/
theorem Formed.stored (h : Formed v P whole ty) (stores : ty.Stores c (.named b args)) :
    b = "string" ∨ (∃ generics, v.self? = some (b, generics)) ∨ b ∈ v.context.names .structs ∨
      b ∈ v.context.names .enums := by
  induction h generalizing args with
  | keyword _ known _ =>
    obtain ⟨p, rfl⟩ | ⟨-, rfl⟩ := Ty.ofKeyword?_cases known
    · cases stores
    · cases stores with
      | self => exact .inl rfl
      | argument _ _ _ bound => cases StructDef.mem_of_bindings _ bound
  | @self name generics inBody =>
    cases stores with
    | self => exact .inr (.inl ⟨generics, inBody⟩)
    | argument _ _ _ bound inner =>
      obtain ⟨g, -, rfl⟩ := mem_map.mp (StructDef.mem_of_bindings _ bound)
      cases inner
  | @struct name d args _ known _ _ ih =>
    cases stores with
    | self => exact .inr (.inr (.inl ((Table.mem_names_iff_get? _ _).mpr (known ▸ Option.some_ne_none d))))
    | argument _ _ _ bound inner => exact ih _ (StructDef.mem_of_bindings _ bound) inner
  | enum _ _ _ known =>
    cases stores with
    | self => exact .inr (.inr (.inr ((Table.mem_names _ _).mpr (Table.has_eq_isSome _ _ ▸ known))))
    | argument _ _ _ bound => cases StructDef.mem_of_bindings _ bound
  | placeholder => cases stores
  | pointer levels _ ih =>
    cases levels with
    | zero => exact ih stores
    | succ n => cases stores
  | array levels _ _ ih =>
    cases stores with
    | element _ inner =>
      cases levels with
      | zero => exact ih inner
      | succ n => cases inner

end TypeExpr

theorem Table.names_of_absorb {t u merged : Table α} (hu : u.names.Nodup) (grown : t.names <+: u.names)
    (taken : t.absorb u = (merged, none)) : merged.names = u.names := by
  obtain ⟨old, new, entries, oldNames, unknown⟩ := entries_split hu grown
  have whole := (t.absorbEntries_eq hu).2 (congrArg Prod.snd taken)
  rw [show t.absorbEntries u.entries = (merged, none) from taken, entries, filter_append] at whole
  have skipped : (old.filter fun e => (t.find? e.name).isNone) = [] := by
    refine filter_eq_nil_iff.mpr fun e he => ?_
    have known : e.name ∈ t.names := oldNames ▸ mem_map_of_mem he
    simpa [Option.isNone_iff_eq_none, ← not_mem_names] using known
  have all : (new.filter fun e => (t.find? e.name).isNone) = new :=
    filter_eq_self.mpr fun e he => by rw [unknown e he]; rfl
  rw [names, whole, skipped, all, nil_append, map_append, names, entries, map_append, oldNames, names]

theorem Context.nodup_performAll {c : Context} (h : (c.names r).Nodup) (ops : List Operation) :
    ((c.performAll ops).names r).Nodup := by
  unfold performAll
  induction ops generalizing c with
  | nil => exact h
  | cons op ops ih =>
    refine ih ?_
    rw [names_perform]
    split
    · split
      · exact h
      · next fresh => simpa using h.concat fresh
    · exact h

namespace State

structure Layered (s : State) : Prop where
  distinct : (s.context.names .structs).Nodup
  stored : ∀ a f, s.HasField a f → ∀ c b args, f.ty.Stores c (.named b args) → s.context.Allows a b

theorem GetsField.allows {s : State} (h : s.GetsField settings a ty) (apart : s.Apart)
    (stores : ty.Stores c (.named b args)) : s.context.Allows a b := by
  obtain ⟨d, toks, record, openFields, rfl, typed⟩ := h
  have formed := (TypeExpr.ofTokens_formed (s.view settings) false (P := fun _ => True) fun _ _ _ => trivial).of_ok typed
  rcases formed.stored stores with word | ⟨generics, self⟩ | struct | enum
  · exact .inr (.inl word)
  · simp only [view, record, Option.bind_some, Record.self?, Option.some.injEq, Prod.mk.injEq] at self
    exact .inl self.1.symm
  · have new : d.name ∉ s.context.names .structs :=
      fun mem => (apart.awaits.struct record openFields).2 ⟨.structs, by decide, mem⟩
    exact .inr (.inr (.inr (.of_new struct new)))
  · exact .inr (.inr (.inl enum))

theorem noted_names (s : State) (t : Token) (source : Source) (r : Registry) :
    (s.noted t source).context.names r = s.context.names r := by
  simp only [State.noted, emitted_context]
  rw [Context.markImported_imported]
  cases r <;> rfl

namespace Layered

variable {s s' c : State}

theorem step (hs : s.Layered) (apart : s.Apart) (h : Step settings s s') : s'.Layered where
  distinct := by
    rcases h.defining apart with ⟨imported, same⟩ | ⟨r, n, ops, -, same⟩
    · rw [same]
      exact hs.distinct
    · rw [same]
      exact Context.nodup_performAll hs.distinct ops
  stored a f has d b args stores := by
    have names := (apart.rooted_step h).2.names
    refine Context.Allows.mono ?_ (names .structs) (names .enums).subset
    rcases h.hasField has with old | gets
    · exact hs.stored a f old d b args stores
    · exact gets.allows apart stores

theorem child (hs : s.Layered) (t : Token) (source : Source) (last : Token) :
    ((s.noted t source).child source last).Layered := by
  have same : ∀ r, ((s.noted t source).child source last).context.names r = s.context.names r := noted_names s t source
  refine ⟨same .structs ▸ hs.distinct, fun a f has d b args stores => ?_⟩
  exact (hs.stored a f has.of_child d b args stores).mono (same .structs ▸ prefix_refl _) (same .enums ▸ Subset.refl _)

theorem absorbed (hs : s.Layered) (hc : c.Layered)
    (grown : (s.noted t source).context.GrowsTo c.context)
    (taken : (s.noted t source).context.absorb c.context = (merged, none)) :
    ((s.noted t source).absorbed c merged).Layered := by
  have same : merged.names .structs = c.context.names .structs :=
    Table.names_of_absorb hc.distinct (grown.names .structs) (Context.absorb_tables taken).2.1
  refine ⟨same ▸ hc.distinct, fun a f has d b args stores => ?_⟩
  rcases has.of_absorbed taken with old | new
  · have names (r : Registry) := noted_names s t source r ▸ (Context.names_absorb taken r).1
    exact (hs.stored a f old d b args stores).mono (names .structs) (names .enums).subset
  · have enums : c.context.names .enums ⊆ merged.names .enums :=
      fun b enum => ((Context.names_absorb taken .enums).2 b).mpr (.inr enum)
    exact (hc.stored a f new d b args stores).mono (same ▸ prefix_refl _) enums

theorem start (library : Library) (path text : String) (last : Token) :
    (State.start library path text last).Layered := by
  refine ⟨?_, fun a f has => absurd has (not_hasField_start library path text last a f)⟩
  simp only [State.start]
  rw [Context.markImported_imported]
  exact nodup_nil

theorem steps (hs : s.Layered) (nested : s.Nested) (apart : s.Apart) (h : Steps settings s s') : s'.Layered := by
  induction h with
  | refl => exact hs
  | step h h' ih => exact (ih hs nested apart).step (h.growsTo nested apart).1 h'
  | @imports s s₁ c t last source merged h _ _ inner _ _ taken ih ihInner =>
    have begun := (h.growsTo nested apart).1.child t source last
    have hs₁ := ih hs nested apart
    have hc := ihInner (hs₁.child t source last) (.child ..) begun
    exact hs₁.absorbed hc (inner.growsTo (.child ..) begun).2 taken

end Layered

end State

/-- The struct `a` stores the struct `b`, but not as one that stores itself, and not as a string whose struct follows. -/
def Context.HoldsOther (c : Context) (a b : String) : Prop :=
  c.Holds a b ∧ a ≠ b ∧ ¬(b = "string" ∧ c.Before a b)

/-- In every accepted program, no struct stores itself by way of others, except by way of strings whose struct is defined
behind the one that stores them. -/
theorem compile_layouts (accepted : (compile settings library path text).stop = none) (a : String) :
    ¬Relation.TransGen (compile settings library path text).context.HoldsOther a a := by
  obtain ⟨last, s, steps, -, -, context⟩ := compile_ok accepted
  have apart := State.Apart.start library path text last
  have layered := (State.Layered.start library path text last).steps (.start ..) apart steps
  have rooted := (steps.growsTo (.start ..) apart).1.rooted
  rw [context]
  have one : ∀ {a b}, s.context.HoldsOther a b → s.context.Before b a := by
    rintro a b ⟨⟨struct, d, f, args, known, mem, stores⟩, differ, noString⟩
    rcases layered.stored a f (.known known mem) _ b args stores with same | word | enum | before
    · exact absurd same.symm differ
    · exact .total differ struct fun before => noString ⟨word, before⟩
    · cases rooted.unique b .structs .enums (by decide) (by decide) struct enum
    · exact before
  have many : ∀ {a b}, Relation.TransGen s.context.HoldsOther a b → s.context.Before b a := by
    intro a b cycle
    induction cycle with
    | single h => exact one h
    | tail _ h ih => exact Nat.lt_trans (one h) ih
  exact fun cycle => Nat.lt_irrefl _ (many cycle)

/-- Whether the struct has a field of the type. -/
def Context.hasField (c : Context) (a : String) (ty : Ty) : Bool :=
  (c.structs.get? a).any fun d => d.fields.any fun f => f.ty.same ty

theorem Context.exists_of_hasField {c : Context} (h : c.hasField a ty = true) :
    ∃ d f, c.structs.get? a = some d ∧ f ∈ d.fields ∧ f.ty = ty := by
  obtain ⟨d, known, some⟩ := (Option.any_eq_true _ _).mp h
  obtain ⟨f, mem, same⟩ := any_eq_true.mp some
  exact ⟨d, f, known, mem, Ty.eq_of_same same⟩

theorem Context.holds_of_hasField {c : Context} (h : c.hasField a ty = true) (known : b ∈ c.names .structs)
    (stores : ty.Stores c (.named b args)) : c.Holds a b := by
  obtain ⟨d, f, found, mem, rfl⟩ := exists_of_hasField h
  exact ⟨known, d, f, args, found, mem, stores⟩

def boxing : String :=
  "Box :: struct($T) \x7b v: $T; \x7d A :: struct \x7b n: int; \x7d B :: struct \x7b as: Box(A)[2]; next: ^B; \x7d"

theorem compile_layouts_boxing :
    (compile Settings.plain (.memory []) "main.imp" boxing).stop = none ∧
    (compile Settings.plain (.memory []) "main.imp" boxing).context.HoldsOther "B" "A" ∧
    ¬Relation.TransGen (compile Settings.plain (.memory []) "main.imp" boxing).context.HoldsOther "B" "B" := by
  have run : acceptedWith boxing (fun c => c.hasField "B" (.array (.named "Box" [.named "A" []]) "2") &&
      c.hasField "Box" (.placeholder "T") && ((c.structs.get? "Box").any fun d => d.generics == ["T"]) &&
      c.names .structs == ["Box", "A", "B"]) = true := by decide +kernel
  obtain ⟨accepted, found⟩ := of_acceptedWith run
  simp only [Bool.and_eq_true, beq_iff_eq, Option.any_eq_true] at found
  obtain ⟨⟨⟨field, box⟩, d, known, generics⟩, names⟩ := found
  obtain ⟨d', f, known', mem, open'⟩ := Context.exists_of_hasField box
  obtain rfl : d' = d := Option.some.inj (known'.symm.trans known)
  have bound : (d'.bindings [.named "A" []]).find? "T" = some (.named "A" []) := by
    rw [StructDef.bindings, generics]
    rfl
  have stored := Ty.Stores.element "2" (.argument known' mem (open' ▸ .self _) bound (.self (.named "A" [])))
  refine ⟨accepted, ⟨Context.holds_of_hasField field ?_ stored, by decide, by simp⟩, compile_layouts accepted "B"⟩
  rw [names]
  decide

def looping : String :=
  "A :: struct \x7b a: A; s: string; \x7d string :: struct \x7b a: A; \x7d"

/-- A struct that stores itself, and one that stores it by way of strings. -/
theorem compile_holds_looping :
    (compile Settings.plain (.memory []) "main.imp" looping).stop = none ∧
    (compile Settings.plain (.memory []) "main.imp" looping).context.Holds "A" "A" ∧
    (compile Settings.plain (.memory []) "main.imp" looping).context.Holds "A" "string" ∧
    (compile Settings.plain (.memory []) "main.imp" looping).context.Holds "string" "A" := by
  have run : acceptedWith looping (fun c => c.hasField "A" (.named "A" []) && c.hasField "A" .string &&
      c.hasField "string" (.named "A" []) && c.names .structs == ["A", "string"]) = true := by decide +kernel
  obtain ⟨accepted, found⟩ := of_acceptedWith run
  simp only [Bool.and_eq_true, beq_iff_eq] at found
  obtain ⟨⟨⟨itself, word⟩, back⟩, names⟩ := found
  refine ⟨accepted, ?_, ?_, ?_⟩
  · exact Context.holds_of_hasField itself (by rw [names]; decide) (.self (.named "A" []))
  · exact Context.holds_of_hasField word (by rw [names]; decide) (.self (.named "string" []))
  · exact Context.holds_of_hasField back (by rw [names]; decide) (.self (.named "A" []))

end Impulse
