import Impulse.Proofs.Expressions
import Impulse.Reading.Block

/-!
# What the parts of statements change

The readings that statements are made of, each with the change it makes to the state. Changes are written as
functions on states or, for declarations, as a relation; the rules for `Parse.Ensures` then say that a reading
makes its change and goes on.
-/

namespace Impulse

open List

variable {d : Deferral} (t : Token)

namespace Deferral

/-- The nodes that are deferred: those of the group that is being collected, and those of all groups. -/
def nodes (d : Deferral) : List Node :=
  d.recording.getD [] ++ d.groups.flatMap (·.2)

theorem mem_nodes_of_statementsAt {depth : Nat} (h : n ∈ d.statementsAt depth) : n ∈ d.nodes := by
  obtain ⟨group, hgroup, hn⟩ := mem_flatten.mp h
  obtain ⟨e, he, rfl⟩ := mem_map.mp hgroup
  have mem := (mem_filter.mp (mem_reverse.mp he)).1
  exact mem_append_right _ (mem_flatMap.mpr ⟨e, mem, hn⟩)

theorem mem_nodes_of_pending {depth bottom : Nat} (h : n ∈ d.pending depth bottom) : n ∈ d.nodes := by
  obtain ⟨i, -, hn⟩ := mem_flatMap.mp h
  exact mem_nodes_of_statementsAt hn

theorem nodes_start (d : Deferral) : d.start.nodes ⊆ d.nodes :=
  fun _ hn => mem_append_right _ hn

theorem nodes_finish (d : Deferral) (depth : Nat) : (d.finish depth).nodes ⊆ d.nodes := by
  unfold nodes finish
  intro n hn
  split at hn
  · next recording =>
    rw [recording]
    simpa [or_assoc, or_comm, or_left_comm] using hn
  · exact mem_append_right _ hn

theorem nodes_withGroups {groups : List (Nat × List Node)} (sub : groups ⊆ d.groups) :
    nodes { d with groups := groups } ⊆ d.nodes := by
  intro n hn
  simp only [nodes, mem_append, mem_flatMap] at hn ⊢
  rcases hn with recorded | ⟨group, mem, deferred⟩
  · exact .inl recorded
  · exact .inr ⟨group, sub mem, deferred⟩

end Deferral

namespace State

/-- The state with a node added to the program, or to the group that is being deferred. -/
def emitted (s : State) (n : Node) : State :=
  match s.deferral.recording with
  | some group => { s with deferral := { s.deferral with recording := some (group ++ [n]) } }
  | none => { s with program := s.program ++ [Entry.of n s.file] }

def emittedAll (s : State) : List Node → State
  | [] => s
  | n :: ns => (s.emitted n).emittedAll ns

def opened (s : State) (b : Block) : State :=
  { s with
    scope := if b.framed then s.scope.push (if b.kind = .function then .function else .block)
      else s.scope
    blocks := b :: s.blocks }

section Emitted

variable (s : State) (n : Node) (ns : List Node)

theorem emitted_eq : s.emitted n = { s with program := (s.emitted n).program, deferral := (s.emitted n).deferral } := by
  unfold emitted
  split <;> rfl

theorem emittedAll_eq : s.emittedAll ns =
    { s with program := (s.emittedAll ns).program, deferral := (s.emittedAll ns).deferral } := by
  induction ns generalizing s with
  | nil => rfl
  | cons n ns ih =>
    rw [emittedAll, ih, emitted_eq]

@[simp] theorem emitted_session : (s.emitted n).session = s.session := by rw [emitted_eq]
@[simp] theorem emitted_context : (s.emitted n).context = s.context := by rw [emitted_eq]
@[simp] theorem emitted_scope : (s.emitted n).scope = s.scope := by rw [emitted_eq]
@[simp] theorem emitted_file : (s.emitted n).file = s.file := by rw [emitted_eq]
@[simp] theorem emitted_blocks : (s.emitted n).blocks = s.blocks := by rw [emitted_eq]
@[simp] theorem emitted_buffer : (s.emitted n).buffer = s.buffer := by rw [emitted_eq]
@[simp] theorem emitted_function : (s.emitted n).function = s.function := by rw [emitted_eq]
@[simp] theorem emitted_record : (s.emitted n).record = s.record := by rw [emitted_eq]
@[simp] theorem emitted_afterBranch : (s.emitted n).afterBranch = s.afterBranch := by rw [emitted_eq]

@[simp] theorem emittedAll_session : (s.emittedAll ns).session = s.session := by rw [emittedAll_eq]
@[simp] theorem emittedAll_context : (s.emittedAll ns).context = s.context := by rw [emittedAll_eq]
@[simp] theorem emittedAll_scope : (s.emittedAll ns).scope = s.scope := by rw [emittedAll_eq]
@[simp] theorem emittedAll_blocks : (s.emittedAll ns).blocks = s.blocks := by rw [emittedAll_eq]
@[simp] theorem emittedAll_buffer : (s.emittedAll ns).buffer = s.buffer := by rw [emittedAll_eq]
@[simp] theorem emittedAll_function : (s.emittedAll ns).function = s.function := by
  rw [emittedAll_eq]
@[simp] theorem emittedAll_record : (s.emittedAll ns).record = s.record := by rw [emittedAll_eq]
@[simp] theorem emittedAll_afterBranch : (s.emittedAll ns).afterBranch = s.afterBranch := by rw [emittedAll_eq]

@[simp] theorem emitted_groups : (s.emitted n).deferral.groups = s.deferral.groups := by
  unfold emitted
  split <;> rfl

@[simp] theorem emittedAll_groups : (s.emittedAll ns).deferral.groups = s.deferral.groups := by
  induction ns generalizing s with
  | nil => rfl
  | cons n ns ih => rw [emittedAll, ih, emitted_groups]

@[simp] theorem emitted_isRecording : (s.emitted n).deferral.isRecording = s.deferral.isRecording := by
  unfold emitted Deferral.isRecording
  split
  · next group h => simp [h]
  · rfl

@[simp] theorem emittedAll_isRecording : (s.emittedAll ns).deferral.isRecording = s.deferral.isRecording := by
  induction ns generalizing s with
  | nil => rfl
  | cons n ns ih => rw [emittedAll, ih, emitted_isRecording]

theorem emittedAll_append (ms : List Node) : s.emittedAll (ns ++ ms) = (s.emittedAll ns).emittedAll ms := by
  induction ns generalizing s with
  | nil => rfl
  | cons n ns ih => exact ih (s.emitted n)

variable {s} in
theorem emitted_direct (h : s.deferral.recording = none) :
    s.emitted n = { s with program := s.program ++ [Entry.of n s.file] } := by
  unfold emitted
  rw [h]

variable {s} in
theorem emittedAll_direct (h : s.deferral.recording = none) :
    s.emittedAll ns = { s with program := s.program ++ ns.map (Entry.of · s.file) } := by
  induction ns generalizing s with
  | nil => simp [emittedAll]
  | cons n ns ih =>
    have rest := ih (s := { s with program := s.program ++ [Entry.of n s.file] }) h
    rw [emittedAll, emitted_direct n h, rest]
    simp

variable {s} in
theorem emittedAll_deferred {group : List Node} (h : s.deferral.recording = some group) :
    s.emittedAll ns = { s with deferral := { s.deferral with recording := some (group ++ ns) } } := by
  induction ns generalizing s group with
  | nil =>
    rw [append_nil, ← h]
    rfl
  | cons n ns ih =>
    rw [emittedAll, emitted, h]
    dsimp only
    rw [ih rfl, append_assoc]
    rfl

theorem emitted_withNotices (notices : List Notice) :
    (Parse.withNotices s notices).emitted n = Parse.withNotices (s.emitted n) notices := by
  unfold emitted Parse.withNotices
  dsimp only
  split <;> rfl

end Emitted

/-- What must hold where a variable is declared: its name belongs to no constant, function, struct or enum. -/
structure MayDeclare (s : State) (x : Variable) : Prop where
  noConstant : ∀ y, s.context.resolve? s.scope x.name = some y → y.const = false
  undefined : s.context.definedIn? x.name = none

/-- What declaring the variable `x` in the state `s` leads to: a global variable outside of all blocks, and a
variable of the top frame otherwise. -/
inductive Declares (s : State) (x : Variable) : State → Prop
  | asGlobal {scope : Scope} (may : s.MayDeclare x) (outside : s.function = none)
      (bottom : s.blocks = []) (fresh : s.context.globals.get? x.name = none)
      (declared : Scope.empty.declareList? (s.context.introduced x) = some scope) :
      Declares s x { s with context := { s.context with
        globals := (s.context.introduced x).foldl (fun t y => t.add y.name y s.file)
          s.context.globals } }
  | asLocal {scope : Scope} (may : s.MayDeclare x) (inside : s.function ≠ none ∨ s.blocks ≠ [])
      (declared : s.scope.declareList? (s.context.introduced x) = some scope) :
      Declares s x { s with scope := scope }

theorem Declares.inside {s s' : State} (h : s.Declares x s')
    (inside : s.function ≠ none) : s'.function ≠ none := by
  cases h <;> exact inside

end State

namespace Parse

theorem Ensures.settled {x : Except Stop α} {k : α → Parse β} {post : β → State → Prop}
    (h : Settled x mid) (hk : ∀ a, mid a → x = .ok a → Ensures unbounded settings s (k a) post) :
    Ensures unbounded settings s (Parse.ofExcept x >>= k) post := by
  refine (Ensures.ofExcept h).bind fun a s' hs' => ?_
  obtain ⟨rfl, ha, hx⟩ := hs'
  exact hk a ha hx

theorem Ensures.typeOf {header : Bool} {k : Ty → Parse β} {post : β → State → Prop}
    (hk : ∀ ty, ty.isComplete = true → TypeExpr.ofTokens (s.view settings) header toks = .ok ty →
      Ensures unbounded settings s (k ty) post) :
    Ensures unbounded settings s (Parse.typeOf header toks >>= k) post := by
  have typed : Ensures unbounded settings s (Parse.typeOf header toks) fun ty s' => s' = s ∧
      ty.isComplete = true ∧ TypeExpr.ofTokens (s.view settings) header toks = .ok ty := by
    unfold Parse.typeOf
    refine .get (.read ?_)
    exact .ofExcept (TypeExpr.ofTokens_settled (s.view settings) header toks)
  refine typed.bind fun ty s' h => ?_
  obtain ⟨rfl, complete, read⟩ := h
  exact hk ty complete read

theorem Ensures.finalOf {k : Token → Parse β} {post : β → State → Prop}
    (hk : ∀ final, Ensures unbounded settings s (k final) post) :
    Ensures unbounded settings s (Parse.finalOf toks >>= k) post :=
  hk _

theorem Ensures.newName {t : Token} {k : String → Parse β} {post : β → State → Prop}
    (hk : t.kind = .ident → Ensures unbounded settings s (k t.value) post) :
    Ensures unbounded settings s (Parse.newName t >>= k) post := by
  have named : Ensures unbounded settings s (Parse.newName t) fun name s' =>
      s' = s ∧ name = t.value ∧ t.kind = .ident := by
    unfold Parse.newName
    split
    · exact .fail trivial
    · next kind =>
      split
      · exact .fail trivial
      · exact .pure ⟨rfl, rfl, by simpa using kind⟩
  refine named.bind fun name s' h => ?_
  obtain ⟨rfl, rfl, kind⟩ := h
  exact hk kind

theorem Ensures.requireFunction {t : Token} {post : β → State → Prop}
    (hk : s.function ≠ none → Ensures unbounded settings s (k ()) post) :
    Ensures unbounded settings s (Parse.requireFunction t >>= k) post := by
  have required : Ensures unbounded settings s (Parse.requireFunction t) fun _ s' =>
      s' = s ∧ s.function ≠ none := by
    unfold Parse.requireFunction
    refine .get ?_
    split
    · next inside => exact .pure ⟨rfl, by simpa [Option.isSome_iff_ne_none] using inside⟩
    · split <;> exact .fail trivial
  refine required.bind fun _ s' h => ?_
  obtain ⟨rfl, inside⟩ := h
  exact hk inside

theorem Ensures.expression (hs : (s.view settings).Complete) {want : Ty}
    (hwant : want.Wanted) {k : Node → Parse β} {post : β → State → Prop}
    (hk : ∀ n notices, Infer.Gives (s.view settings) (Infer.expression toks want) n →
      Ensures unbounded settings (withNotices s notices) (k n) post) :
    Ensures unbounded settings s (Parse.expression toks want >>= k) post :=
  Ensures.infer (Infer.expression_builds hs toks hwant) fun n notices _ h => hk n notices h

theorem Ensures.condition (hs : (s.view settings).Complete) {opened : Token}
    {k : List Node → Parse β} {post : β → State → Prop}
    (hk : ∀ ns notices, Infer.Gives (s.view settings) (Infer.condition opened toks) ns →
      Ensures unbounded settings (withNotices s notices) (k ns) post) :
    Ensures unbounded settings s (Parse.infer (Infer.condition opened toks) >>= k) post :=
  Ensures.infer (Infer.condition_builds hs opened toks) fun ns notices _ h => hk ns notices h

theorem Ensures.emit (h : post () (s.emitted n)) : Ensures unbounded settings s (Parse.emit n) post := by
  refine Ensures.change ?_ h
  exact congrArg Session.notices (State.emitted_session s n)

theorem Ensures.emit_bind {post : β → State → Prop} (h : Ensures unbounded settings (s.emitted n) (k ()) post) :
    Ensures unbounded settings s (Parse.emit n >>= k) post := by
  have added : Ensures unbounded settings s (Parse.emit n) fun _ s' => s' = s.emitted n :=
    Ensures.emit rfl
  exact added.bind fun _ _ hs => hs ▸ h

theorem Ensures.emitAll_bind {ns : List Node} {post : β → State → Prop}
    (h : Ensures unbounded settings (s.emittedAll ns) (k ()) post) :
    Ensures unbounded settings s (Parse.emitAll ns >>= k) post := by
  have added : ∀ (ns : List Node) (s : State),
      Ensures unbounded settings s (Parse.emitAll ns) fun _ s' => s' = s.emittedAll ns := by
    intro ns
    induction ns with
    | nil => exact fun s => Ensures.pure rfl
    | cons n ns ih => exact fun s => Ensures.emit_bind (ih _)
  exact (added ns s).bind fun _ _ hs => hs ▸ h

theorem Ensures.openBlock {b : Block} (h : post () (s.opened b)) :
    Ensures unbounded settings s (Parse.openBlock b) post :=
  Ensures.change rfl h

theorem Ensures.openBlock_bind {b : Block} {post : β → State → Prop}
    (h : Ensures unbounded settings (s.opened b) (k ()) post) :
    Ensures unbounded settings s (Parse.openBlock b >>= k) post :=
  Ensures.change_bind rfl h

theorem declareFieldsOf_ensures (c : Context) (scope : Scope) (x : Variable) :
    Ensures unbounded settings s (declareFieldsOf t c scope x) fun scope' s' =>
      s' = s ∧ scope.declareList? (c.fieldsOf x) = some scope' := by
  unfold declareFieldsOf Context.fieldsOf
  cases target : x.ty.structTarget? with
  | none => exact .pure ⟨rfl, rfl⟩
  | some found =>
    obtain ⟨pointer, name, args⟩ := found
    dsimp only
    by_cases known : c.structs.has name = true
    · rw [if_neg (by simp [known]), if_pos known]
      split
      · next scope' declared => exact .pure ⟨rfl, Context.declareList?_of_declareFields declared⟩
      · exact .fail trivial
    · rw [if_pos (by simpa using known), if_neg known]
      exact .pure ⟨rfl, rfl⟩

theorem declareGlobal_ensures (may : s.MayDeclare x) (outside : s.function = none) (bottom : s.blocks = []) :
    Ensures unbounded settings s (declareGlobal t x) fun _ s' => s.Declares x s' := by
  unfold declareGlobal
  refine .get ?_
  split
  · exact .fail trivial
  · next fresh =>
    refine (declareFieldsOf_ensures t s.context _ x).bind fun scope s' h => ?_
    obtain ⟨rfl, declared⟩ := h
    have all : Scope.empty.declareList? (s'.context.introduced x) = some scope := declared
    have globals := Scope.declared_of_declareList? all
    refine Ensures.change rfl ?_
    rw [globals]
    exact .asGlobal may outside bottom (Table.origin?_eq_none_iff.mp fresh) all

theorem declareLocal_ensures (may : s.MayDeclare x) (inside : s.function ≠ none ∨ s.blocks ≠ []) :
    Ensures unbounded settings s (declareLocal t x) fun _ s' => ∃ notices, (withNotices s notices).Declares x s' := by
  unfold declareLocal
  refine .get ?_
  split
  · exact .fail trivial
  · next hides scope declared =>
    have goesOn : ∀ notices, Ensures unbounded settings (withNotices s notices)
        (declareFieldsOf t s.context scope x >>= fun scope =>
          modify fun s => { s with scope := scope }) fun _ s' =>
        ∃ notices, (withNotices s notices).Declares x s' := by
      intro notices
      refine (declareFieldsOf_ensures t s.context scope x).bind fun scope' s' h => ?_
      obtain ⟨rfl, fields⟩ := h
      have all : s.scope.declareList? (s.context.introduced x) = some scope' := by
        rw [Context.introduced, Scope.declareList?, declared]
        exact fields
      exact Ensures.change rfl ⟨notices, .asLocal ⟨may.noConstant, may.undefined⟩ inside all⟩
    dsimp only
    split
    · exact Ensures.infer (Infer.Ensures.warn (by trivial)) fun _ notices _ _ => goesOn notices
    · exact goesOn s.session.notices

theorem Ensures.declare {t : Token}
    (h : ∀ notices s', (withNotices s notices).Declares x s' → post () s') :
    Ensures unbounded settings s (Parse.declare t x) post := by
  unfold Parse.declare
  refine .get ?_
  have declared : s.MayDeclare x → Ensures unbounded settings s
      (if (s.function.isNone && decide (s.depth = 0)) = true then declareGlobal t x
        else declareLocal t x) post := by
    intro may
    split
    · next bottom =>
      simp only [Bool.and_eq_true, Option.isNone_iff_eq_none, decide_eq_true_eq] at bottom
      refine (declareGlobal_ensures t may bottom.1 (length_eq_zero_iff.mp bottom.2)).mono ?_
      exact fun _ s' hs' => h s.session.notices s' hs'
    · next inside =>
      refine (declareLocal_ensures t may ?_).mono ?_
      · simp only [Bool.and_eq_true, Option.isNone_iff_eq_none, decide_eq_true_eq] at inside
        by_cases outside : s.function = none
        · exact .inr fun bottom => inside ⟨outside, length_eq_zero_iff.mpr bottom⟩
        · exact .inl outside
      · rintro _ s' ⟨notices, hs'⟩
        exact h notices s' hs'
  dsimp only
  split
  · next y known =>
    refine Ensures.guard (by trivial) fun changes => ?_
    have noConstant : ∀ z, s.context.resolve? s.scope x.name = some z → z.const = false := by
      intro z hz
      rw [known] at hz
      cases hz
      simpa using changes
    split
    · exact .fail trivial
    · next undefined => exact declared ⟨noConstant, undefined⟩
  · next unknown =>
    have noConstant : ∀ z, s.context.resolve? s.scope x.name = some z → z.const = false := by
      intro z hz
      rw [unknown] at hz
      cases hz
    split
    · exact .fail trivial
    · next undefined => exact declared ⟨noConstant, undefined⟩

theorem Ensures.declare_bind {t : Token} {post : β → State → Prop}
    (h : ∀ notices s', (withNotices s notices).Declares x s' → Ensures unbounded settings s' (k ()) post) :
    Ensures unbounded settings s (Parse.declare t x >>= k) post := by
  have declared : Ensures unbounded settings s (Parse.declare t x) fun _ s' =>
      ∃ notices, (withNotices s notices).Declares x s' :=
    Ensures.declare fun notices s' hs' => ⟨notices, hs'⟩
  exact declared.bind fun _ s' ⟨notices, hs'⟩ => h notices s' hs'

end Parse

end Impulse
