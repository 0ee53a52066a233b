import Impulse.Proofs.Occurrences
import Impulse.Proofs.Scheduling

/-!
# Where the statements of a program were read

The schedule moves statements: what is deferred is listed in another place than the one where it was read, and
perhaps more than once. Here every node that is told to the schedule carries the state in which it was read and the
declarations that were in force there, so both can be compared with the place where the node is listed.

## Design notes

A header that opens a block is read before the block is open, except that the condition of a loop is read where its
counter is known. An open frame without declarations shows what was seen before, so such nodes carry the state behind
the header, and all others the state before them.
-/

namespace Impulse

open List

variable {n init : Node}

def Node.assigned? : Node → Option Node
  | .node _ _ (.assign target _) => some target
  | _ => none

/-- The counter that a loop changes, behind the node that declares it. -/
def Node.counting? : Node → Option (Node × String)
  | .node _ _ (.loop init counter _ step) => if step = .stay then none else some (init, counter)
  | _ => none

/-- A node with the state in which it was read and the declarations in force there. -/
structure Written where
  node : Node
  state : State
  history : History

namespace Written

def look (w : Written) (name : String) : Option Variable :=
  w.state.context.resolve? w.state.scope name

@[simp] theorem look_mk (n : Node) (s : State) (h : History) : look ⟨n, s, h⟩ = s.context.resolve? s.scope :=
  rfl

/-- The variables of the node were found where it was read. An assignment does not go to a constant. A loop that counts
has a numeric counter, which is no constant if the loop introduces it. -/
structure Sound (w : Written) : Prop where
  declaredBy : w.state.DeclaredBy w.history
  resolved : w.node.ResolvedBy w.look
  target : ∀ target root, w.node.assigned? = some target → target.rootName? = some root →
    ∃ x, w.look root = some x ∧ x.const = false
  counter : ∀ init counter, w.node.counting? = some (init, counter) →
    ∃ x, w.look counter = some x ∧ x.ty.isNumeric = true ∧ (init.isAbsent = false → x.const = false)

end Written

/-- The event with the states before and behind it: a header that opens a block was read behind it, and everything
else before it. -/
def Event.written (s : State) (h : History) (s' : State) (h' : History) : Event Node → Event Written
  | .lists n => .lists ⟨n, s, h⟩
  | .opens n => .opens ⟨n, s', h'⟩
  | .closes n => .closes ⟨n, s, h⟩
  | .returns n => .returns ⟨n, s, h⟩
  | .defers => .defers
  | .collects => .collects

theorem Event.map_written (s : State) (h : History) (s' : State) (h' : History) (e : Event Node) :
    (e.written s h s' h').map (·.node) = e := by
  cases e <;> rfl

namespace State

variable {s s' : State}

variable (settings) in
/-- Readings as in `State.Steps`, with the declarations in force and with the events that are told to the schedule.
The global variables stay as they are inside of functions. -/
inductive Chronicle : State → History → List (Event Written) → State → History → Prop
  | refl (s : State) (h : History) : Chronicle s h [] s h
  | step {s s₁ s₂ : State} {h h₁ h₂ : History} {log : List (Event Written)} {es : List (Event Node)}
      (earlier : Chronicle s h log s₁ h₁) (change : Step settings s₁ s₂)
      (after : History.After s₁ s₂ h₁ h₂)
      (inside : s₁.function ≠ none → h₂.globals = h₁.globals ∧ h₂.enums = h₁.enums)
      (tells : Tells settings s₁ es s₂) (told : ∀ e ∈ es, Told settings s₁ s₂ e) :
      Chronicle s h (log ++ es.map (Event.written s₁ h₁ s₂ h₂)) s₂ h₂
  | imports {s s₁ c : State} {h h₁ hc : History} {t last : Token} {source : Source} {merged : Context}
      {log inner : List (Event Written)} (earlier : Chronicle s h log s₁ h₁) (bottom : s₁.blocks = [])
      (isNew : (s₁.context.markImported source.key).1 = true)
      (inside : Chronicle ((s₁.noted t source).child source last) h₁.inChild inner c hc)
      (done : c.blocks = []) (read : c.buffer = [])
      (taken : (s₁.noted t source).context.absorb c.context = (merged, none)) :
      Chronicle s h (log ++ .lists ⟨.plain t (.source source.path), s₁, h₁⟩ :: inner)
        ((s₁.noted t source).absorbed c merged) (h₁.behind hc)

namespace Chronicle

theorem logs (chronicle : Chronicle settings s h log s' h') : Logs settings s (log.map (Event.map (·.node))) s' := by
  induction chronicle with
  | refl => exact .refl _
  | @step s s₁ s₂ h h₁ h₂ log es _ change _ _ tells _ ih =>
    have nodes : (es.map (Event.written s₁ h₁ s₂ h₂)).map (Event.map (·.node)) = es := by
      rw [map_map]
      exact (map_congr_left fun e _ => Event.map_written ..).trans (map_id es)
    rw [map_append, nodes]
    exact .step ih change tells
  | imports _ bottom isNew _ done read taken ih ihInside =>
    rw [map_append, map_cons]
    exact .imports ih bottom isNew ihInside done read taken

theorem run (chronicle : Chronicle settings s h log s' h') : Run settings s h s' h' := by
  induction chronicle with
  | refl => exact .refl _ _
  | step _ change after _ _ _ ih => exact .step ih change after
  | imports _ _ _ _ _ _ taken ih ihInside => exact .imports ih ihInside taken

theorem steps (chronicle : Chronicle settings s h log s' h') : Steps settings s s' :=
  chronicle.logs.steps

end Chronicle

theorem Step.globals_eq (nested : s.Nested) (step : Step settings s s') (inside : s.function ≠ none) :
    s'.context.globals = s.context.globals := by
  cases step with
  | mark key => simp
  | declare _ declared =>
    cases declared with
    | asGlobal _ outside => exact absurd outside inside
    | asLocal => rfl
  | define t declared =>
    cases declared with
    | asGlobal _ outside => exact absurd outside inside
    | asLocal => simp
  | loop _ _ _ _ _ inside' _ counts =>
    cases counts with
    | known => simp [State.opened]
    | introduced _ declared =>
      cases declared with
      | asGlobal _ outside => exact absurd outside inside'
      | asLocal => simp [State.opened]
  | fields _ _ outside | function _ _ _ outside | struct _ _ _ outside | enum _ _ outside => exact absurd outside inside
  | closeEnum blocks kind => exact absurd (nested.close_record blocks (.inr kind)).2.1 inside
  | _ => simp [Parse.withNotices, State.opened]

theorem Step.after_inside (nested : s.Nested) (step : Step settings s s') (h : History) :
    ∃ h', History.After s s' h h' ∧ (s.function ≠ none → h'.globals = h.globals ∧ h'.enums = h.enums) := by
  obtain ⟨h', after⟩ := step.after h
  by_cases inside : s.function = none
  · exact ⟨h', after, fun inside' => absurd inside inside'⟩
  have globals := step.globals_eq nested inside
  cases after with
  | same scope globals => exact ⟨h, .same scope globals, fun _ => ⟨rfl, rfl⟩⟩
  | opened scope globals => exact ⟨_, .opened scope globals, fun _ => ⟨rfl, rfl⟩⟩
  | closed scope globals => exact ⟨_, .closed scope globals, fun _ => ⟨rfl, rfl⟩⟩
  | addLocal scope globals => exact ⟨_, .addLocal scope globals, fun _ => ⟨rfl, rfl⟩⟩
  | addCounter scope globals => exact ⟨_, .addCounter scope globals, fun _ => ⟨rfl, rfl⟩⟩
  -- what would be added is there already
  | addGlobal scope => exact ⟨h, .same scope globals, fun _ => ⟨rfl, rfl⟩⟩
  | addEnum scope => exact ⟨h, .same scope globals, fun _ => ⟨rfl, rfl⟩⟩

theorem Steps.chronicle (nested : s.Nested) (steps : Steps settings s s') (h : History) :
    ∃ log h', Chronicle settings s h log s' h' := by
  induction steps generalizing h with
  | refl => exact ⟨[], h, .refl _ h⟩
  | step steps change ih =>
    obtain ⟨log, h₁, earlier⟩ := ih nested h
    have nested₁ := nested.steps steps
    obtain ⟨h₂, after, inside⟩ := change.after_inside nested₁ h₁
    obtain ⟨es, tells, told⟩ := Tells.of_step nested₁ change
    exact ⟨_, h₂, earlier.step change after inside tells told⟩
  | imports _ bottom isNew _ done read taken ih ihInside =>
    obtain ⟨log, h₁, earlier⟩ := ih nested h
    obtain ⟨inner, hc, inside⟩ := ihInside (.child ..) h₁.inChild
    exact ⟨_, _, earlier.imports bottom isNew inside done read taken⟩

theorem DeclaredBy.named (declared : s.DeclaredBy h) : (s.view settings).Named :=
  fun _ _ found => declared.name_of_resolve? found

section Resolved

variable (hs : s.Complete) (named : (s.view settings).Named)

include hs named

omit hs in
theorem resolvedBy_of_walk (root : n.usedName? = none)
    (walk : ∀ m ∈ n.walk, m = n ∨ Infer.BuildsPart (s.view settings) m) :
    n.ResolvedBy (s.context.resolve? s.scope) := by
  intro name mem
  obtain ⟨m, hm, used⟩ := mem_filterMap.mp mem
  rcases walk m hm with rfl | part
  · rw [root] at used
    cases used
  · exact part.usedName? named used

theorem Writes.resolvedBy (h : s.Writes settings n) : n.ResolvedBy (s.context.resolve? s.scope) := by
  refine resolvedBy_of_walk named ?_ (h.walk hs)
  cases h <;> rfl

theorem Opens.resolvedBy (h : s.Opens settings n b) : n.ResolvedBy (s.context.resolve? s.scope) := by
  refine resolvedBy_of_walk named ?_ (h.walk hs)
  cases h <;> rfl

end Resolved

theorem find?_opened (b : Block) (name : String) : (s.opened b).scope.find? name = s.scope.find? name := by
  unfold State.opened
  dsimp only
  split <;> rfl

theorem Counts.counter_found (counts : s.Counts init counter s')
    (inside : s.function ≠ none) (named : (s'.view settings).Named) (given : counter ≠ "")
    (found : s'.context.resolvePath? s'.scope counter = some x) :
    s'.context.resolve? s'.scope counter = some x ∧ (init.isAbsent = false → x.const = false) := by
  unfold Context.resolvePath? Context.spell at found
  cases counts with
  | known spelled =>
    obtain ⟨path, rfl⟩ := spelled.resolve_left given
    rw [Context.spell, spelling_spelling (s.context.resolve? s.scope) named] at found
    exact ⟨found, fun present => by cases present⟩
  | introduced t declared noPoint =>
    have own : spelling (s'.context.resolve? s'.scope) t.value = t.value := by
      simp [spelling, noPoint]
    rw [own] at found
    refine ⟨found, fun _ => ?_⟩
    cases declared with
    | asGlobal _ outside => exact absurd outside inside
    | asLocal _ _ all =>
      have seen := Scope.find?_declareList?_of_mem all (.head _)
      rw [Context.resolve?, seen] at found
      cases found
      rfl

end State

theorem Node.ResolvedBy.of_isSilent (h : n.isSilent = true) : n.ResolvedBy look := by
  unfold Node.isSilent at h
  split at h
  case h_8 =>
    refine .of_children rfl ?_
    simp only [Form.children, mem_singleton, forall_eq]
    exact .of_children rfl (by simp [Form.children, absent])
  case h_11 => cases h
  all_goals exact .leaf rfl rfl

theorem Node.writes_of_isSilent (h : n.isSilent = true) : n.assigned? = none ∧ n.counting? = none := by
  unfold Node.isSilent at h
  split at h
  case h_11 => cases h
  all_goals exact ⟨rfl, rfl⟩

namespace State

variable {s s' : State}

theorem Counts.init_resolvedBy
    (counts : s.Counts init counter s') : init.ResolvedBy look := by
  cases counts with
  | known => exact .absent
  | introduced t => exact .of_isSilent rfl

namespace Told

theorem resolved (told : Told settings s s' e) (labels : (e.written s h s' h').node? = some w) (hs : s.Complete)
    (declared : s.DeclaredBy h) (declared' : s'.DeclaredBy h') : w.node.ResolvedBy w.look := by
  have named : (s.view settings).Named := declared.named
  cases told with
  | silent silent =>
    refine .of_isSilent (silent _ ?_)
    cases e <;> cases labels <;> rfl
  | write written =>
    cases labels
    exact written.resolvedBy hs named
  | define t name const global typed initial =>
    cases labels
    have part := Initial.part hs typed initial
    exact resolvedBy_of_walk named rfl (Infer.BuildsPart.walk_cases (forall_mem_singleton.mpr part))
  | result t inside results =>
    cases labels
    have part := Results.part hs inside results
    exact resolvedBy_of_walk named rfl (Infer.BuildsPart.walk_cases (forall_mem_singleton.mpr part))
  | @begin n b opens scope context =>
    cases labels
    have same : s'.context.resolve? s'.scope = s.context.resolve? s.scope := by
      funext name
      rw [Context.resolve?, Context.resolve?, context, scope, find?_opened]
    rw [Written.look_mk, same]
    exact opens.resolvedBy hs named
  | @loop brace t opened counter step _ init cond s₁ inside counts read counted scope context =>
    cases labels
    have complete₁ := hs.looped counts
    have named₁ : (s₁.view settings).Named := by
      intro n x found
      refine declared'.name_of_resolve? (n := n) ?_
      rw [context, scope]
      exact found
    rw [Written.look_mk, context, scope]
    intro name mem
    rcases Node.mem_usedNames_node.mp mem with used | ⟨child, hchild, inner⟩
    · -- the loop changes its counter
      unfold Node.usedName? at used
      dsimp only at used
      split at used
      · cases used
      · next steps =>
        cases used
        obtain ⟨given, x, found, -⟩ := counted steps
        exact ⟨x, (counts.counter_found inside named₁ given found).1⟩
    · rcases mem_cons.mp hchild with rfl | hchild
      · exact counts.init_resolvedBy name inner
      · exact (complete₁.condition_part read child hchild).resolvedBy named₁ name inner

theorem target (told : Told settings s s' e) (labels : (e.written s h s' h').node? = some w) (hs : s.Complete)
    (declared : s.DeclaredBy h) {target : Node} (assigns : w.node.assigned? = some target)
    (leads : target.rootName? = some root) : ∃ x, w.look root = some x ∧ x.const = false := by
  have named : (s.view settings).Named := declared.named
  cases told with
  | silent silent =>
    have quiet : w.node.isSilent = true := silent _ (by cases e <;> cases labels <;> rfl)
    rw [(Node.writes_of_isSilent quiet).1] at assigns
    cases assigns
  | write written =>
    cases labels
    cases written with
    | assign t _ readTarget _ noConstant =>
      cases assigns
      have built := Infer.BuildsPart.operand (hs.builds .absent readTarget)
      obtain ⟨x, found⟩ := built.resolvedBy named root (target.rootName?_mem_usedNames leads)
      exact ⟨x, found, noConstant root x leads found⟩
    | _ => cases assigns
  | begin opens =>
    cases labels
    cases opens <;> cases assigns
  | _ =>
    cases labels
    cases assigns

theorem counter (told : Told settings s s' e) (labels : (e.written s h s' h').node? = some w)
    (declared' : s'.DeclaredBy h') {counter : String}
    (loops : w.node.counting? = some (init, counter)) : ∃ x, w.look counter = some x ∧
      x.ty.isNumeric = true ∧ (init.isAbsent = false → x.const = false) := by
  cases told with
  | silent silent =>
    have quiet : w.node.isSilent = true := silent _ (by cases e <;> cases labels <;> rfl)
    rw [(Node.writes_of_isSilent quiet).2] at loops
    cases loops
  | write written =>
    cases labels
    cases written <;> cases loops
  | begin opens =>
    cases labels
    cases opens <;> cases loops
  | @loop brace t opened counter step _ init cond s₁ inside counts read counted scope context =>
    cases labels
    unfold Node.counting? at loops
    dsimp only [Node.plain] at loops
    split at loops
    · cases loops
    · next steps =>
      cases loops
      obtain ⟨given, x, found, numeric⟩ := counted steps
      have named₁ : (s₁.view settings).Named := by
        intro n x found
        refine declared'.name_of_resolve? (n := n) ?_
        rw [context, scope]
        exact found
      obtain ⟨seen, own⟩ := counts.counter_found inside named₁ given found
      refine ⟨x, ?_, numeric, own⟩
      rw [Written.look_mk, context, scope]
      exact seen
  | _ =>
    cases labels
    cases loops

theorem sound (told : Told settings s s' e) (labels : (e.written s h s' h').node? = some w)
    (hs : s.Complete) (declared : s.DeclaredBy h) (declared' : s'.DeclaredBy h') : w.Sound where
  declaredBy := by
    cases e <;> cases labels
    · exact declared
    · exact declared'
    · exact declared
    · exact declared
  resolved := told.resolved labels hs declared declared'
  target _ _ assigns leads := told.target labels hs declared assigns leads
  counter _ _ loops := told.counter labels declared' loops

end Told

theorem Chronicle.sound (chronicle : Chronicle settings s h log s' h') (hs : s.Complete)
    (declared : s.DeclaredBy h) : ∀ e ∈ log, ∀ w, e.node? = some w → w.Sound := by
  induction chronicle with
  | refl => exact forall_mem_nil _
  | step earlier _ after _ _ told ih =>
    intro e he w hw
    rcases mem_append.mp he with old | new
    · exact ih hs declared e old w hw
    · obtain ⟨e, own, rfl⟩ := mem_map.mp new
      have declared₁ := earlier.run.declaredBy declared
      exact (told e own).sound hw (hs.steps earlier.steps) declared₁ (after.declaredBy declared₁)
  | @imports s s₁ c h h₁ hc t last source _ _ _ earlier _ _ _ _ _ _ ih ihInside =>
    intro e he w hw
    have declared₁ := earlier.run.declaredBy declared
    rcases mem_append.mp he with old | new
    · exact ih hs declared e old w hw
    · rcases mem_cons.mp new with rfl | inner
      · cases hw
        exact ⟨declared₁, .leaf rfl rfl, nofun, nofun⟩
      · exact ihInside ((hs.steps earlier.steps).child t source last) (declared₁.child t source last) e inner w hw

end State

end Impulse
