import Impulse.Proofs.DefinedBefore
import Impulse.Proofs.Definitions
import Mathlib.Data.List.Chain

/-!
# Names that stay apart when they are made flat

Flat names have two underscores for every point, and underscores are allowed in names. So definitions with different
names can get the same flat name, and nothing in the reading of a program prevents it. Which ones do is known: a
plain name meets a path if it is written like the flat path, and two paths meet if one of them has the longer base
and takes it from the underscores that the other one has behind its base. In all these cases one of the names has two
underscores or points next to each other. Functions whose names do not have that stay apart from each other, from
global variables and from the constants of enums.
-/

namespace Impulse

open List

variable (n : String)

theorem toList_flatName : (flatName n).toList = n.toList.flatMap fun c => if c = '.' then ['_', '_'] else [c] := by
  simp [flatName, Text.replaceChar]

theorem flatName_append (a b : String) : flatName (a ++ b) = flatName a ++ flatName b := by
  rw [← String.toList_inj]
  simp [toList_flatName]

theorem flatName_of_noPoint {n : String} (h : '.' ∉ n.toList) : flatName n = n := by
  have same : ∀ cs : List Char, '.' ∉ cs →
      (cs.flatMap fun c => if c = '.' then ['_', '_'] else [c]) = cs := by
    intro cs noPoint
    induction cs with
    | nil => rfl
    | cons c cs ih =>
      obtain ⟨first, rest⟩ := ne_and_not_mem_of_not_mem_cons noPoint
      rw [flatMap_cons, ih rest, if_neg (Ne.symm first), singleton_append]
  rw [← String.toList_inj, toList_flatName, same _ h]

theorem noPoint_flatName : '.' ∉ (flatName n).toList := by
  rw [toList_flatName, mem_flatMap]
  rintro ⟨c, -, mem⟩
  split at mem
  · simp at mem
  · next other => exact other (mem_singleton.mp mem).symm

@[simp] theorem flatName_flatName : flatName (flatName n) = flatName n :=
  flatName_of_noPoint (noPoint_flatName n)

theorem flatName_path (b x : String) : flatName (b ++ "." ++ x) = flatName b ++ "__" ++ flatName x := by
  rw [flatName_append, flatName_append]
  rfl

/-- Two ways to read a text as a base, two underscores and a rest. The second base is longer than the first one, by one
of the underscores, or by both of them and a part of the rest. -/
inductive Overlaps : String → String → String → String → Prop
  | one (b y : String) : Overlaps b ("_" ++ y) (b ++ "_") y
  | two (b w y : String) : Overlaps b (w ++ "__" ++ y) (b ++ "__" ++ w) y

theorem Overlaps.eq {b x b' y : String} (h : Overlaps b x b' y) : b ++ "__" ++ x = b' ++ "__" ++ y := by
  rw [← String.toList_inj]
  cases h <;> simp

theorem overlaps_of_eq {b x b' y : String} (same : b ++ "__" ++ x = b' ++ "__" ++ y) (differ : b ≠ b') :
    Overlaps b x b' y ∨ Overlaps b' y b x := by
  -- The longer base goes on with the underscores that follow the shorter one.
  have longer : ∀ {b x b' y : String} {more : List Char}, b ≠ b' → b'.toList = b.toList ++ more →
      '_' :: '_' :: x.toList = more ++ '_' :: '_' :: y.toList → Overlaps b x b' y := by
    intro b x b' y more differ base rest
    cases more with
    | nil => exact absurd (String.toList_inj.mp (by simpa using base)).symm differ
    | cons c more =>
      simp only [cons_append, List.cons.injEq] at rest
      obtain ⟨rfl, rest⟩ := rest
      cases more with
      | nil =>
        have base : b' = b ++ "_" := String.toList_inj.mp (by simp [base])
        have rest : x = "_" ++ y := String.toList_inj.mp (by simpa using rest)
        rw [base, rest]
        exact .one b y
      | cons d w =>
        simp only [cons_append, List.cons.injEq] at rest
        obtain ⟨rfl, rest⟩ := rest
        have base : b' = b ++ "__" ++ String.ofList w := String.toList_inj.mp (by simp [base])
        have rest : x = String.ofList w ++ "__" ++ y := String.toList_inj.mp (by simp [rest])
        rw [base, rest]
        exact .two b (String.ofList w) y
  have lists : b.toList ++ '_' :: '_' :: x.toList = b'.toList ++ '_' :: '_' :: y.toList := by
    simpa using congrArg String.toList same
  rcases append_eq_append_iff.mp lists with ⟨more, base, rest⟩ | ⟨more, base, rest⟩
  · exact .inl (longer differ base rest)
  · exact .inr (longer (Ne.symm differ) base rest)

/-- Names that are written alike when they are flat: a name and a path that it repeats with underscores, or two paths
whose bases overlap. -/
inductive Clash : String → String → Prop
  | written (b x : String) : Clash (b ++ "__" ++ flatName x) (b ++ "." ++ x)
  | shifted {b x b' y : String} (h : Overlaps b (flatName x) b' (flatName y)) :
      Clash (b ++ "." ++ x) (b' ++ "." ++ y)
  | symm {n m : String} (h : Clash n m) : Clash m n

/-- No two underscores or points of the name stand next to each other. -/
def Spaced (n : String) : Prop :=
  n.toList.IsChain fun c d => ¬((c = '_' ∨ c = '.') ∧ (d = '_' ∨ d = '.'))

instance (n : String) : Decidable (Spaced n) :=
  inferInstanceAs (Decidable (List.IsChain _ _))

theorem Spaced.apart {n : String} (h : Spaced n)
    (split : n.toList = front ++ c :: d :: back) : ¬((c = '_' ∨ c = '.') ∧ (d = '_' ∨ d = '.')) :=
  isChain_iff_forall_rel_of_append_cons_cons.mp h split

namespace Clash

variable {n m : String}

theorem flatName_eq (h : Clash n m) : flatName n = flatName m := by
  induction h with
  | written b x =>
    rw [flatName_path, flatName_append, flatName_append, flatName_flatName]
    rfl
  | @shifted b x b' y overlaps =>
    have alike := congrArg flatName overlaps.eq
    simp only [flatName_append, flatName_flatName] at alike
    rw [flatName_path, flatName_path]
    exact alike
  | symm _ ih => exact ih.symm

theorem not_spaced (h : Clash n m) : ¬(Spaced n ∧ Spaced m) := by
  induction h with
  | written b x =>
    rintro ⟨spaced, -⟩
    have split : (b ++ "__" ++ flatName x).toList = b.toList ++ '_' :: '_' :: (flatName x).toList := by simp
    exact spaced.apart split ⟨.inl rfl, .inl rfl⟩
  | @shifted b x b' y overlaps =>
    rintro ⟨-, spaced⟩
    generalize flatName x = x', flatName y = y' at overlaps
    cases overlaps with
    | one =>
      have split : (b ++ "_" ++ "." ++ y).toList = b.toList ++ '_' :: '.' :: y.toList := by simp
      exact spaced.apart split ⟨.inl rfl, .inr rfl⟩
    | two w =>
      have split : (b ++ "__" ++ w ++ "." ++ y).toList
          = b.toList ++ '_' :: '_' :: (w.toList ++ '.' :: y.toList) := by simp
      exact spaced.apart split ⟨.inl rfl, .inl rfl⟩
  | symm _ ih => exact fun spaced => ih spaced.symm

end Clash

namespace Context

variable {c c' : Context} {n m : String}

/-- A plain name, or a path into a name of the registry. Paths into structs have one step. -/
inductive Outer (c : Context) (r : Registry) : String → Prop
  | plain {n : String} (h : PlainName n) : Outer c r n
  | path {b x : String} (base : b ∈ c.names r) (step : r = .structs → PlainName x) :
      Outer c r (b ++ "." ++ x)

theorem Outer.mono (h : c.Outer r n) (grown : c.names r ⊆ c'.names r) : c'.Outer r n := by
  cases h with
  | plain h => exact .plain h
  | path base step => exact .path (grown base) step

theorem Rooted.clash (hc : c.Rooted) (h : c.Outer .structs n) (h' : c.Outer r m)
    (kind : r = .structs ∨ r = .enums) (differ : n ≠ m) (same : flatName n = flatName m) : Clash n m := by
  have basePlain : ∀ {b r}, r = .structs ∨ r = .enums → b ∈ c.names r → PlainName b := by
    rintro b r (rfl | rfl) mem
    · exact hc.structs b mem
    · exact hc.enums b mem
  have flatPath : ∀ {b x r}, r = .structs ∨ r = .enums → b ∈ c.names r →
      flatName (b ++ "." ++ x) = b ++ "__" ++ flatName x := by
    intro b x r kind mem
    rw [flatName_path, flatName_of_noPoint (basePlain kind mem).noPoint]
  cases h with
  | plain plain =>
    rw [flatName_of_noPoint plain.noPoint] at same
    cases h' with
    | plain plain' => exact absurd (same.trans (flatName_of_noPoint plain'.noPoint)) differ
    | @path b x base =>
      rw [same, flatPath kind base]
      exact .written b x
  | @path b x base step =>
    rw [flatPath (.inl rfl) base] at same
    cases h' with
    | plain plain' =>
      rw [← flatName_of_noPoint plain'.noPoint, ← same]
      exact .symm (.written b x)
    | @path b' y base' step' =>
      rw [flatPath kind base'] at same
      by_cases bases : b = b'
      · -- Only methods of one struct have the same base, and their names behind it are plain.
        subst bases
        have one : r = .structs := by
          refine (hc.unique b .structs r nofun ?_ base base').symm
          rcases kind with rfl | rfl <;> exact nofun
        have rests : flatName x = flatName y := by simpa using same
        rw [flatName_of_noPoint (step rfl).noPoint, flatName_of_noPoint (step' one).noPoint] at rests
        exact absurd (congrArg (b ++ "." ++ ·) rests) differ
      · exact (overlaps_of_eq same bases).elim .shifted fun overlaps => .symm (.shifted overlaps)

end Context

namespace Node

def global? : Node → Option String
  | .node _ _ (.declare x _ _ _ true _) => some x
  | _ => none

def constants : Node → List Variable
  | .node t _ (.enumBody b fields) => Parse.enumConstants { name := b, token := t, fields := fields }
  | _ => []

/-- What the names of an entry look like: a function is plain or a method, a global variable is plain unless it is a
constant of an enum, and an enum is known. -/
def NamedIn (c : Context) : Node → Prop
  | .node _ _ (.function sig) => c.Outer .structs sig.name
  | .node _ _ (.declare x _ _ _ global isFlat) =>
    global = true → if isFlat then c.Outer .enums x else PlainName x
  | .node _ _ (.enumBody b _) => b ∈ c.names .enums
  | _ => True

theorem NamedIn.mono {n : Node} (h : n.NamedIn c) (grown : ∀ r, c.names r ⊆ c'.names r) : n.NamedIn c' := by
  unfold NamedIn at h ⊢
  split at h
  · exact Context.Outer.mono h (grown _)
  · intro global
    have shape := h global
    split
    · next isFlat => exact Context.Outer.mono (by rwa [if_pos isFlat] at shape) (grown _)
    · next isFlat => rwa [if_neg isFlat] at shape
  · exact grown _ h
  · trivial

theorem flat_signature? (n : Node) :
    n.flat.signature? = n.signature?.map fun sig => { sig with name := flatName sig.name } := by
  cases n with
  | absent => rfl
  | node token ty form => cases form <;> rfl

end Node

namespace State

variable {s s' : State}

/-- The names of all nodes that were listed or deferred look as they should. -/
def NodesNamed (s : State) : Prop :=
  ∀ n ∈ s.nodes, n.NamedIn s.context

theorem mem_enums_finishedEnum (s : State) (d : EnumDraft) : d.name ∈ (s.finishedEnum d).context.names .enums := by
  rw [finishedEnum, emitted_context, emitted_context, emitted_context]
  show d.name ∈ (s.context.enums.add d.name _ s.file).names
  rw [Table.names_add]
  split
  · next known => exact known
  · exact mem_append_right _ (.head _)

theorem News.named (apart : s.Apart) (grown : s.context.GrowsTo s'.context) (h : s.News settings s' m) :
    m.NamedIn s'.context := by
  cases h with
  | write h | begin h => cases h <;> trivial
  | define _ _ _ plain => exact fun _ => plain
  | @function t brace sig placeholders _ place _ named =>
    rcases place with ⟨noRecord, -⟩ | ⟨d, record, complete, -⟩
    · exact .plain (named.1 noRecord)
    · obtain ⟨own, plain, path⟩ := named.2 d record
      have struct := (apart.awaits.known record complete).2
      show Context.Outer _ .structs sig.name
      rw [path]
      exact .path ((grown.names .structs).subset struct) fun _ => plain
  | enumBody d after => exact after ▸ mem_enums_finishedEnum s d
  | enumCount d after =>
    have number : d.name ++ ".field_count" = d.name ++ "." ++ "field_count" := by simp [String.append_assoc]
    exact fun _ => number ▸ .path (after ▸ mem_enums_finishedEnum s d) nofun
  | _ => trivial

theorem Step.mem_nodes (apart : s.Apart) (h : Step settings s s') (hm : m ∈ s'.nodes) :
    m ∈ s.nodes ∨ m.NamedIn s'.context := by
  have adds : s.Adds (fun m => m ∈ s.nodes ∨ m.NamedIn s'.context) s' :=
    .step h (fun _ deferred => .inl (mem_append_right _ deferred))
      fun _ new => .inr (new.named apart (apart.rooted_step h).2)
  exact (adds.nodes hm).elim .inl id

namespace NodesNamed

theorem grow (hs : s.NodesNamed) (grown : s.context.GrowsTo s'.context)
    (added : ∀ m ∈ s'.nodes, m ∈ s.nodes ∨ m.NamedIn s'.context) : s'.NodesNamed := by
  intro m hm
  rcases added m hm with old | new
  · exact (hs m old).mono fun r => (grown.names r).subset
  · exact new

theorem step (hs : s.NodesNamed) (apart : s.Apart) (h : Step settings s s') : s'.NodesNamed :=
  hs.grow (apart.rooted_step h).2 fun _ => h.mem_nodes apart

theorem child (s : State) (source : Source) (last : Token) : (s.child source last).NodesNamed :=
  fun _ hm => absurd hm not_mem_nil

theorem start (library : Library) (path text : String) (last : Token) :
    (State.start library path text last).NodesNamed :=
  fun _ hm => absurd hm not_mem_nil

end NodesNamed

theorem Steps.nodesNamed (nested : s.Nested) (apart : s.Apart) (hs : s.NodesNamed)
    (h : Steps settings s s') : s'.NodesNamed := by
  induction h with
  | refl => exact hs
  | step h h' ih => exact (ih nested apart hs).step (h.growsTo nested apart).1 h'
  | @imports s s₁ c t last source merged h bottom isNew inner done read taken ih ihInside =>
    have apart₁ := (h.growsTo nested apart).1
    have grown : s₁.context.GrowsTo ((s₁.noted t source).absorbed c merged).context :=
      ((Steps.imports (.refl s₁) bottom isNew inner done read taken).growsTo (nested.steps h) apart₁).2
    refine (ih nested apart hs).grow grown fun m hm => ?_
    have origin : m ∈ (s₁.noted t source).nodes ∨ m ∈ c.program.map (·.node) := by
      simp only [nodes, State.absorbed, map_append, mem_append] at hm ⊢
      grind
    rcases origin with here | inside
    · rcases mem_nodes_emitted here with old | rfl
      · exact .inl old
      · exact .inr trivial
    · -- The file knows all names of its entries, and they are taken over.
      have named := ihInside (.child ..) (apart₁.child t source last) (.child _ source last) m
        (mem_append_left _ inside)
      exact .inr (named.mono fun r n mem => ((Context.names_absorb taken r).2 n).mpr (.inr mem))

end State

namespace Node

variable {n : Node}

theorem NamedIn.flat_global? (h : n.NamedIn c) : n.flat.global? = n.global?.map flatName := by
  cases n with
  | absent => rfl
  | node token ty form =>
    cases form with
    | declare x _ _ _ global isFlat =>
      cases global with
      | false => rfl
      | true =>
        cases isFlat with
        | true => rfl
        | false =>
          have plain : PlainName x := h rfl
          exact congrArg some (flatName_of_noPoint plain.noPoint).symm
    | _ => rfl

theorem NamedIn.outer_signature? (h : n.NamedIn c) {sig : Signature} (defines : n.signature? = some sig) :
    c.Outer .structs sig.name := by
  unfold signature? at defines
  split at defines
  · cases defines
    exact h
  · cases defines

theorem NamedIn.outer_global? (h : n.NamedIn c) {x : String} (declares : n.global? = some x) : c.Outer .enums x := by
  unfold global? at declares
  split at declares
  · next isFlat =>
    cases declares
    have shape := h rfl
    split at shape
    · exact shape
    · exact .plain shape
  · cases declares

theorem NamedIn.outer_constants (h : n.NamedIn c) {x : Variable} (mem : x ∈ n.constants) : c.Outer .enums x.name := by
  unfold constants at mem
  split at mem
  · rcases mem_append.mp mem with field | number
    · obtain ⟨f, -, rfl⟩ := mem_map.mp field
      exact .path h nofun
    · obtain rfl := mem_singleton.mp number
      have path : ∀ b : String, b ++ ".field_count" = b ++ "." ++ "field_count" := by simp [String.append_assoc]
      rw [path]
      exact .path h nofun
  · cases mem

end Node

namespace Program

variable {p : Program} {n : String}

def globalNames (p : Program) : List String :=
  p.filterMap (·.node.global?)

def constantNames (p : Program) : List String :=
  p.flatMap fun e => e.node.constants.map (·.name)

theorem definedNames_flat (p : Program) : p.flat.definedNames = p.definedNames.map flatName := by
  unfold definedNames signatures flat
  rw [filterMap_map, map_filterMap, map_filterMap, map_filterMap]
  refine filterMap_congr fun e _ => ?_
  rw [Function.comp_apply, Node.flat_signature?]
  cases e.node.signature? <;> rfl

theorem globalNames_flat (named : ∀ e ∈ p, e.node.NamedIn c) : p.flat.globalNames = p.globalNames.map flatName := by
  unfold globalNames flat
  rw [filterMap_map, map_filterMap]
  exact filterMap_congr fun e he => (named e he).flat_global?

theorem outer_of_mem_definedNames (named : ∀ e ∈ p, e.node.NamedIn c) (mem : n ∈ p.definedNames) :
    c.Outer .structs n := by
  obtain ⟨sig, listed, rfl⟩ := mem_map.mp mem
  obtain ⟨e, he, defines⟩ := mem_filterMap.mp listed
  exact (named e he).outer_signature? defines

theorem outer_of_mem_globalNames (named : ∀ e ∈ p, e.node.NamedIn c) (mem : n ∈ p.globalNames) : c.Outer .enums n := by
  obtain ⟨e, he, declares⟩ := mem_filterMap.mp mem
  exact (named e he).outer_global? declares

theorem outer_of_mem_constantNames (named : ∀ e ∈ p, e.node.NamedIn c) (mem : n ∈ p.constantNames) :
    c.Outer .enums n := by
  obtain ⟨e, he, mem⟩ := mem_flatMap.mp mem
  obtain ⟨x, constant, rfl⟩ := mem_map.mp mem
  exact (named e he).outer_constants constant

end Program

/-- When an accepted program is made flat, its functions and its global variables keep their order and get flat names.
A function gets the name of another function, of a global variable or of a constant that was called differently if,
and only if, the two names clash. Names that are spaced do not clash, so they stay apart. -/
theorem compile_flatNames (accepted : (compile settings library path text).stop = none) :
    let p := (compile settings library path text).program
    p.flat.definedNames = p.definedNames.map flatName ∧
    p.flat.globalNames = p.globalNames.map flatName ∧
    ∀ f ∈ p.definedNames, ∀ n ∈ p.definedNames ++ p.globalNames ++ p.constantNames, f ≠ n →
      (flatName f = flatName n ↔ Clash f n) ∧ (Spaced f → Spaced n → flatName f ≠ flatName n) := by
  obtain ⟨last, s, steps, -, program, -⟩ := compile_ok accepted
  rw [program]
  have apart : (State.start library path text last).Apart := .start library path text last
  have rooted := (steps.growsTo (.start ..) apart).1.rooted
  have named : ∀ e ∈ s.program, e.node.NamedIn s.context := by
    intro e he
    refine steps.nodesNamed (.start ..) apart (.start library path text last) e.node (mem_append_left _ ?_)
    exact mem_map_of_mem he
  refine ⟨Program.definedNames_flat _, Program.globalNames_flat named, fun f hf n hn differ => ?_⟩
  have outer := Program.outer_of_mem_definedNames named hf
  -- Functions lead into structs, all the others into enums, unless their names are plain.
  have clash : flatName f = flatName n → Clash f n := by
    rcases mem_append.mp hn with hn | constant
    · rcases mem_append.mp hn with function | global
      · exact rooted.clash outer (Program.outer_of_mem_definedNames named function) (.inl rfl) differ
      · exact rooted.clash outer (Program.outer_of_mem_globalNames named global) (.inr rfl) differ
    · exact rooted.clash outer (Program.outer_of_mem_constantNames named constant) (.inr rfl) differ
  exact ⟨⟨clash, Clash.flatName_eq⟩, fun spaced spaced' same => (clash same).not_spaced ⟨spaced, spaced'⟩⟩

/-- A method, a function, a variable and the constants of an enum, all with spaced names. -/
def spacedNames : String :=
  "P :: struct \x7b x: int; len :: () \x7b \x7d \x7d E :: enum \x7b A; \x7d P_len: int; len :: () \x7b \x7d"

theorem compile_flatNames_spaced :
    let done := compile Settings.plain (.memory []) "main.imp" spacedNames
    let others := done.program.globalNames ++ done.program.constantNames
    done.stop = none ∧ done.program.definedNames = ["P.len", "len"] ∧
      others = ["E.field_count", "P_len", "E.A", "E.field_count"] ∧
      ∀ f ∈ done.program.definedNames, ∀ n ∈ done.program.definedNames ++ others, f ≠ n →
        flatName f ≠ flatName n := by
  have run : (let done := compile Settings.plain (.memory []) "main.imp" spacedNames
      done.stop.isNone && done.program.definedNames == ["P.len", "len"] &&
        done.program.globalNames ++ done.program.constantNames
          == ["E.field_count", "P_len", "E.A", "E.field_count"]) = true := by decide +kernel
  simp only [Bool.and_eq_true, Option.isNone_iff_eq_none, beq_iff_eq] at run
  obtain ⟨⟨accepted, functions⟩, rest⟩ := run
  refine ⟨accepted, functions, rest, fun f hf n hn differ => ?_⟩
  have spaced : ∀ m ∈ ["P.len", "len"] ++ ["E.field_count", "P_len", "E.A", "E.field_count"], Spaced m := by
    decide
  have mem : n ∈ ["P.len", "len"] ++ ["E.field_count", "P_len", "E.A", "E.field_count"] := by
    rwa [functions, rest] at hn
  rw [← append_assoc] at hn
  refine ((compile_flatNames accepted).2.2 f hf n hn differ).2 (spaced f ?_) (spaced n mem)
  exact mem_append_left _ (functions ▸ hf)

/-- Functions that are called like a method, a variable and the constants of an enum when all of them are flat. -/
def flatTwins : String :=
  "P :: struct \x7b x: int; len :: () \x7b \x7d size :: () \x7b \x7d \x7d P__len :: () \x7b \x7d P__size: int; " ++
  "E :: enum \x7b A; \x7d E__A :: () \x7b \x7d E__field_count :: () \x7b \x7d"

/-- Definitions with different names can get the same name: a method and a function, a method and a global variable,
and a function and a constant. -/
theorem exists_flatNames_eq :
    let done := compile Settings.plain (.memory []) "main.imp" flatTwins
    done.stop = none ∧
      done.program.definedNames = ["P.len", "P.size", "P__len", "E__A", "E__field_count"] ∧
      done.program.globalNames = ["P__size", "E.field_count"] ∧
      done.program.constantNames = ["E.A", "E.field_count"] ∧
      done.program.flat.definedNames = ["P__len", "P__size", "P__len", "E__A", "E__field_count"] ∧
      done.program.flat.globalNames = ["P__size", "E__field_count"] ∧ flatName "E.A" = "E__A" := by
  have run : (let done := compile Settings.plain (.memory []) "main.imp" flatTwins
      done.stop.isNone &&
        (done.program.definedNames, done.program.globalNames, done.program.constantNames)
          == (["P.len", "P.size", "P__len", "E__A", "E__field_count"], ["P__size", "E.field_count"],
            ["E.A", "E.field_count"]) &&
        (done.program.flat.definedNames, done.program.flat.globalNames)
          == (["P__len", "P__size", "P__len", "E__A", "E__field_count"], ["P__size", "E__field_count"])) = true := by
    decide +kernel
  simp only [Bool.and_eq_true, Option.isNone_iff_eq_none, beq_iff_eq, Prod.mk.injEq] at run
  obtain ⟨⟨accepted, functions, globals, constants⟩, flatFunctions, flatGlobals⟩ := run
  exact ⟨accepted, functions, globals, constants, flatFunctions, flatGlobals, by decide⟩

end Impulse
