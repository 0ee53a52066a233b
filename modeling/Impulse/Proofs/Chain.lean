import Mathlib.Data.List.Induction
import Impulse.Proofs.Lookup

/-!
# Scopes are chains of levels

A scope copies everything that can be seen into every new frame, and looks a name up in the top frame alone. The
plain way copies nothing: each level of a chain holds what was declared there, and a name is looked up level by
level, the innermost first. Here both are run side by side, over any operations in any order.
-/

namespace Impulse

open List

variable {s : Scope}

/-- A level of a chain, with the variables that were declared there in order. -/
structure Level where
  kind : FrameKind
  own : List Variable := []

def Level.find? (l : Level) (name : String) : Option Variable :=
  l.own.find? (·.name == name)

structure Chain where
  top : Level
  below : List Level := []

namespace Chain

def empty : Chain :=
  { top := { kind := .global } }

def push (c : Chain) (kind : FrameKind) : Chain :=
  { top := { kind := kind }, below := c.top :: c.below }

def pop? (c : Chain) : Option Chain :=
  match c.below with
  | [] => none
  | l :: ls => some { top := l, below := ls }

def find? (c : Chain) (name : String) : Option Variable :=
  (c.top :: c.below).findSome? (·.find? name)

/-- Declares `x` at the top level, and tells whether a level around it declares the name as well. A level declares
a name at most once. -/
def declare? (c : Chain) (x : Variable) : Option (Bool × Chain) :=
  if c.top.own.any (·.name == x.name) then none
  else some (c.below.any fun l => l.own.any (·.name == x.name),
    { c with top := { c.top with own := c.top.own ++ [x] } })

variable {c c' : Chain}

theorem declare?_eq_none_iff : c.declare? x = none ↔ ∃ y ∈ c.top.own, y.name = x.name := by
  unfold declare?
  split <;> simp_all

theorem hides_iff (h : c.declare? x = some (hides, c')) :
    hides = true ↔ ∃ l ∈ c.below, ∃ y ∈ l.own, y.name = x.name := by
  unfold declare? at h
  split at h
  · cases h
  · cases h
    simp

end Chain

inductive ScopeOp
  | push (kind : FrameKind)
  | pop
  | declare (x : Variable)

inductive ScopeAnswer
  | done
  /-- The variable is declared. `hides` tells whether it hides an outer one. -/
  | declared (hides : Bool)
  /-- The variable cannot be declared, and nothing changes. -/
  | refused
  deriving DecidableEq, Repr

/-- Something that has frames. -/
structure FrameStack (σ : Type) where
  push : σ → FrameKind → σ
  pop? : σ → Option σ
  declare? : σ → Variable → Option (Bool × σ)

namespace FrameStack

/-- What an operation answers and does. It fails if it closes the global frame. -/
def perform? (m : FrameStack σ) (s : σ) : ScopeOp → Option (ScopeAnswer × σ)
  | .push kind => some (.done, m.push s kind)
  | .pop => (m.pop? s).map fun s' => (.done, s')
  | .declare x =>
    match m.declare? s x with
    | none => some (.refused, s)
    | some (hides, s') => some (.declared hides, s')

def run? (m : FrameStack σ) : σ → List ScopeOp → Option (List ScopeAnswer × σ)
  | s, [] => some ([], s)
  | s, op :: ops =>
    (m.perform? s op).bind fun (answer, s') =>
      (m.run? s' ops).map fun (answers, s'') => (answer :: answers, s'')

variable {m : FrameStack σ} {s s' : σ}

theorem run?_cons_eq_some :
    m.run? s (op :: ops) = some (answers, s') ↔
      ∃ answer s₁ rest, m.perform? s op = some (answer, s₁) ∧ m.run? s₁ ops = some (rest, s') ∧
        answers = answer :: rest := by
  constructor
  · intro h
    obtain ⟨⟨answer, s₁⟩, first, h⟩ := Option.bind_eq_some_iff.mp h
    obtain ⟨⟨rest, s₂⟩, later, h⟩ := Option.map_eq_some_iff.mp h
    cases h
    exact ⟨answer, s₁, rest, first, later, rfl⟩
  · rintro ⟨answer, s₁, rest, first, later, rfl⟩
    simp [run?, first, later]

theorem run?_append_eq_some :
    m.run? s (ops ++ more) = some (answers, s') ↔
      ∃ first s₁ rest, m.run? s ops = some (first, s₁) ∧ m.run? s₁ more = some (rest, s') ∧
        answers = first ++ rest := by
  induction ops generalizing s answers with
  | nil =>
    constructor
    · exact fun h => ⟨[], s, answers, rfl, h, rfl⟩
    · rintro ⟨_, _, rest, ⟨⟩, h, rfl⟩
      exact h
  | cons op ops ih =>
    rw [cons_append, run?_cons_eq_some]
    constructor
    · rintro ⟨answer, s₁, _, hop, later, rfl⟩
      obtain ⟨first, s₂, rest, hops, hmore, rfl⟩ := ih.mp later
      exact ⟨answer :: first, s₂, rest, run?_cons_eq_some.mpr ⟨_, _, _, hop, hops, rfl⟩, hmore, rfl⟩
    · rintro ⟨_, s₂, rest, hfirst, hmore, rfl⟩
      obtain ⟨answer, s₁, first, hop, hops, rfl⟩ := run?_cons_eq_some.mp hfirst
      exact ⟨answer, s₁, first ++ rest, hop, ih.mpr ⟨first, s₂, rest, hops, hmore, rfl⟩, rfl⟩

end FrameStack

/-- Operations that close every frame they open, and no other one. -/
inductive ScopeOp.Balanced : List ScopeOp → Prop
  | nil : Balanced []
  | declare (x : Variable) {ops : List ScopeOp} (h : Balanced ops) : Balanced (.declare x :: ops)
  | block (kind : FrameKind) {inner ops : List ScopeOp} (hinner : Balanced inner)
      (h : Balanced ops) : Balanced (.push kind :: (inner ++ .pop :: ops))

def Scope.frames : FrameStack Scope :=
  ⟨Scope.push, Scope.pop?, Scope.declare?⟩

def Chain.frames : FrameStack Chain :=
  ⟨Chain.push, Chain.pop?, Chain.declare?⟩

/-- The frames copy the levels: each one has the kind and the names of its level, and shows what can be seen from
there. -/
inductive Scope.CopiesAll : List Frame → List Level → Prop
  | nil : CopiesAll [] []
  | cons {f : Frame} {l : Level} {fs : List Frame} {ls : List Level} (kind : f.kind = l.kind)
      (own : f.own = l.own.map (·.name)) (distinct : (l.own.map (·.name)).Nodup)
      (seen : ∀ name, f.find? name = (l :: ls).findSome? (·.find? name))
      (outer : CopiesAll fs ls) : CopiesAll (f :: fs) (l :: ls)

/-- The scope copies the chain, frame by frame. -/
def Scope.Copies (s : Scope) (c : Chain) : Prop :=
  Scope.CopiesAll (s.top :: s.below) (c.top :: c.below)

namespace Level

variable {l : Level}

theorem any_eq_isSome (l : Level) (name : String) : (l.own.any (·.name == name)) = (l.find? name).isSome := by
  rw [find?, Bool.eq_iff_iff, List.find?_isSome]
  simp

theorem find?_concat (fresh : l.find? x.name = none) (name : String) :
    find? { l with own := l.own ++ [x] } name = if name = x.name then some x else l.find? name := by
  unfold find? at fresh ⊢
  dsimp only
  rw [List.find?_append]
  by_cases same : name = x.name
  · subst same
    simp [fresh]
  · have other : (x.name == name) = false := by simpa using Ne.symm same
    simp [same, other]

end Level

namespace Scope.Copies

theorem empty : Scope.empty.Copies Chain.empty :=
  .cons rfl rfl .nil (fun _ => rfl) .nil

section

variable (h : s.Copies c)
include h

theorem find?_eq (name : String) : s.find? name = c.find? name := by
  cases h with
  | cons _ _ _ seen _ => exact seen name

theorem own_eq : s.top.own = c.top.own.map (·.name) ∧ (c.top.own.map (·.name)).Nodup := by
  cases h with
  | cons _ own distinct _ _ => exact ⟨own, distinct⟩

theorem find?_own (mem : x ∈ c.top.own) : s.top.find? x.name = some x := by
  have distinct := h.own_eq.2
  have found : c.top.find? x.name = some x := by
    unfold Level.find?
    generalize c.top.own = own at mem distinct
    induction own with
    | nil => cases mem
    | cons y own ih =>
      obtain ⟨fresh, distinct⟩ := nodup_cons.mp distinct
      rcases mem_cons.mp mem with rfl | mem
      · simp
      · have other : (y.name == x.name) = false := by
          rw [beq_eq_false_iff_ne]
          exact fun same => fresh (mem_map.mpr ⟨x, mem, same.symm⟩)
        rw [List.find?_cons, other]
        exact ih mem distinct
  have seen : s.top.find? x.name = c.find? x.name := h.find?_eq x.name
  rw [seen, Chain.find?, List.findSome?_cons, found]

theorem declared_eq : s.top.declared = c.top.own := by
  unfold Frame.declared
  rw [h.own_eq.1]
  exact Frame.filterMap_find? fun x mem => h.find?_own mem

theorem exists_find?_of_mem_own (own : name ∈ s.top.own) : ∃ x, s.find? name = some x := by
  rw [h.own_eq.1] at own
  obtain ⟨x, mem, rfl⟩ := mem_map.mp own
  exact ⟨x, h.find?_own mem⟩

theorem push (kind : FrameKind) : (s.push kind).Copies (c.push kind) := by
  refine .cons rfl rfl .nil (fun name => ?_) h
  exact h.find?_eq name

end

theorem pop? (h : s.Copies c) :
    s.pop? = none ∧ c.pop? = none ∨ ∃ s' c', s.pop? = some s' ∧ c.pop? = some c' ∧ s'.Copies c' := by
  obtain ⟨top, below⟩ := s
  obtain ⟨level, levels⟩ := c
  unfold Scope.pop? Chain.pop?
  cases h with
  | cons _ _ _ _ outer =>
    cases outer with
    | nil => exact .inl ⟨rfl, rfl⟩
    | cons kind own distinct seen outer =>
      exact .inr ⟨_, _, rfl, rfl, .cons kind own distinct seen outer⟩

theorem declare? (h : s.Copies c) (x : Variable) :
    s.declare? x = none ∧ c.declare? x = none ∨
      ∃ hides s' c', s.declare? x = some (hides, s') ∧ c.declare? x = some (hides, c') ∧ s'.Copies c' := by
  have own := h.own_eq.1
  have known : s.top.own.contains x.name = c.top.own.any (·.name == x.name) := by
    rw [own, Bool.eq_iff_iff]
    simp
  unfold Scope.declare? Chain.declare?
  rw [known]
  by_cases taken : (c.top.own.any (·.name == x.name)) = true
  · rw [if_pos taken, if_pos taken]
    exact .inl ⟨rfl, rfl⟩
  · rw [if_neg taken, if_neg taken]
    have fresh : c.top.find? x.name = none := by simpa [Level.any_eq_isSome] using taken
    have hides : (s.find? x.name).isSome = c.below.any fun l => l.own.any (·.name == x.name) := by
      rw [h.find?_eq, Chain.find?, List.findSome?_cons, fresh, Bool.eq_iff_iff]
      simp [Level.any_eq_isSome]
    refine .inr ⟨_, _, _, rfl, by rw [hides], ?_⟩
    cases h with
    | cons kind own distinct seen outer =>
      refine .cons ?_ ?_ ?_ (fun name => ?_) outer
      · unfold Frame.reveal
        split <;> exact kind
      · simp [own]
      · have new : x.name ∉ c.top.own.map (·.name) := by simpa using taken
        rw [map_append, nodup_append]
        refine ⟨distinct, by simp, fun n hn n' hn' same => new ?_⟩
        obtain rfl : n' = x.name := mem_singleton.mp hn'
        exact same ▸ hn
      · have shown : (s.top.reveal x).find? name = if name = x.name then some x else s.top.find? name :=
          s.top.find?_reveal x name
        rw [List.findSome?_cons, Level.find?_concat fresh]
        refine shown.trans ?_
        rw [seen, List.findSome?_cons]
        by_cases same : name = x.name
        · simp [same]
        · simp [same]

theorem perform? (h : s.Copies c) (op : ScopeOp) :
    Scope.frames.perform? s op = none ∧ Chain.frames.perform? c op = none ∨
      ∃ answer s' c', Scope.frames.perform? s op = some (answer, s') ∧
        Chain.frames.perform? c op = some (answer, c') ∧ s'.Copies c' := by
  cases op with
  | push kind => exact .inr ⟨.done, _, _, rfl, rfl, h.push kind⟩
  | pop =>
    rcases h.pop? with ⟨hs, hc⟩ | ⟨s', c', hs, hc, copies⟩
    · simp [FrameStack.perform?, Scope.frames, Chain.frames, hs, hc]
    · simp [FrameStack.perform?, Scope.frames, Chain.frames, hs, hc, copies]
  | declare x =>
    rcases h.declare? x with ⟨hs, hc⟩ | ⟨hides, s', c', hs, hc, copies⟩
    · simp [FrameStack.perform?, Scope.frames, Chain.frames, hs, hc, h]
    · simp [FrameStack.perform?, Scope.frames, Chain.frames, hs, hc, copies]

theorem run? (h : s.Copies c) (ops : List ScopeOp) :
    Scope.frames.run? s ops = none ∧ Chain.frames.run? c ops = none ∨
      ∃ answers s' c', Scope.frames.run? s ops = some (answers, s') ∧
        Chain.frames.run? c ops = some (answers, c') ∧ s'.Copies c' := by
  induction ops generalizing s c with
  | nil => exact .inr ⟨[], s, c, rfl, rfl, h⟩
  | cons op ops ih =>
    rw [FrameStack.run?, FrameStack.run?]
    rcases h.perform? op with ⟨hs, hc⟩ | ⟨answer, s₁, c₁, hs, hc, copies⟩
    · exact .inl ⟨by simp [hs], by simp [hc]⟩
    · rcases ih copies with ⟨hs', hc'⟩ | ⟨answers, s', c', hs', hc', copies'⟩
      · exact .inl ⟨by simp [hs, hs'], by simp [hc, hc']⟩
      · exact .inr ⟨answer :: answers, s', c', by simp [hs, hs'], by simp [hc, hc'], copies'⟩

end Scope.Copies

theorem Scope.exists_find?_of_mem_own
    (h : frames.run? empty ops = some (answers, s)) (own : name ∈ s.top.own) :
    ∃ x, s.find? name = some x := by
  rcases Copies.empty.run? ops with ⟨failed, -⟩ | ⟨_, s', c, hs, -, copies⟩
  · cases failed.symm.trans h
  · cases hs.symm.trans h
    exact copies.exists_find?_of_mem_own own

namespace ScopeOp.Balanced

theorem append (h : Balanced ops) (hmore : Balanced more) : Balanced (ops ++ more) := by
  induction h with
  | nil => exact hmore
  | declare x _ ih => exact .declare x ih
  | block kind hinner _ _ ih =>
    rw [cons_append, append_assoc, cons_append]
    exact .block kind hinner ih

end ScopeOp.Balanced

namespace Scope

theorem perform?_declare (s : Scope) (x : Variable) :
    ∃ answer s', frames.perform? s (.declare x) = some (answer, s') ∧ s'.below = s.below := by
  cases h : s.declare? x with
  | none => exact ⟨.refused, s, by simp [FrameStack.perform?, frames, h], rfl⟩
  | some r =>
    obtain ⟨hides, s'⟩ := r
    refine ⟨.declared hides, s', by simp [FrameStack.perform?, frames, h], ?_⟩
    obtain ⟨-, -, rfl⟩ := Scope.declare?_eq_some h
    rfl

theorem run?_block {inner} {more : List ScopeAnswer} (inside : frames.run? (s.push kind) inner = some (more, s₁))
    (same : s₁.below = (s.push kind).below) (later : frames.run? s ops = some (answers, s')) :
    frames.run? s (.push kind :: (inner ++ .pop :: ops)) = some (.done :: (more ++ .done :: answers), s') := by
  have closes : frames.perform? s₁ .pop = some (.done, s) := by
    simp [FrameStack.perform?, frames, Scope.pop?, same, Scope.push]
  have rest : frames.run? s₁ (.pop :: ops) = some (.done :: answers, s') :=
    FrameStack.run?_cons_eq_some.mpr ⟨.done, s, answers, closes, later, rfl⟩
  refine FrameStack.run?_cons_eq_some.mpr ⟨.done, s.push kind, _, rfl, ?_, rfl⟩
  exact FrameStack.run?_append_eq_some.mpr ⟨more, s₁, _, inside, rest, rfl⟩

theorem run?_balanced (h : ScopeOp.Balanced ops) (s : Scope) :
    ∃ answers s', frames.run? s ops = some (answers, s') ∧ s'.below = s.below := by
  induction h generalizing s with
  | nil => exact ⟨[], s, rfl, rfl⟩
  | declare x _ ih =>
    obtain ⟨answer, s₁, first, same⟩ := s.perform?_declare x
    obtain ⟨answers, s', later, same'⟩ := ih s₁
    exact ⟨_, s', FrameStack.run?_cons_eq_some.mpr ⟨answer, s₁, answers, first, later, rfl⟩, same'.trans same⟩
  | block kind _ _ ihinner ih =>
    obtain ⟨more, s₁, inside, same⟩ := ihinner (s.push kind)
    obtain ⟨answers, s', later, same'⟩ := ih s
    exact ⟨_, s', run?_block inside same later, same'⟩

/-- Each frame below the top one is the top of the scope in which a frame was opened that is still open. -/
inductive Opened : List ScopeOp → List Frame → Prop
  | bottom {ops : List ScopeOp} (h : ScopeOp.Balanced ops) : Opened ops []
  | inside {before inner : List ScopeOp} {earlier : List ScopeAnswer} {s : Scope} (kind : FrameKind)
      (reached : frames.run? empty before = some (earlier, s)) (outer : Opened before s.below)
      (h : ScopeOp.Balanced inner) : Opened (before ++ .push kind :: inner) (s.top :: s.below)

theorem Opened.append (h : Opened ops fs)
    (hmore : ScopeOp.Balanced more) : Opened (ops ++ more) fs := by
  cases h with
  | bottom h => exact .bottom (h.append hmore)
  | inside kind reached outer h =>
    rw [append_assoc, cons_append]
    exact .inside kind reached outer (h.append hmore)

theorem Opened.perform? (h : Opened ops s.below)
    (reached : frames.run? empty ops = some (earlier, s))
    (hop : frames.perform? s op = some (answer, s')) : Opened (ops ++ [op]) s'.below := by
  cases op with
  | push kind =>
    cases hop
    exact .inside kind reached h .nil
  | declare x =>
    obtain ⟨answer', s'', hop', same⟩ := s.perform?_declare x
    cases hop.symm.trans hop'
    rw [same]
    exact h.append (.declare x .nil)
  | pop =>
    obtain ⟨s₁, closed, hs₁⟩ := Option.map_eq_some_iff.mp hop
    cases hs₁
    generalize hbelow : s.below = below at h
    cases h with
    | bottom _ => simp [frames, Scope.pop?, hbelow] at closed
    | @inside before inner _ s₀ kind _ outer h =>
      obtain rfl : s₀ = s' := by simpa [frames, Scope.pop?, hbelow] using closed
      rw [append_assoc, cons_append]
      exact outer.append (.block kind h .nil)

theorem opened_of_run? (h : frames.run? empty ops = some (answers, s)) : Opened ops s.below := by
  induction ops using List.reverseRecOn generalizing answers s with
  | nil =>
    cases h
    exact .bottom .nil
  | append_singleton ops op ih =>
    obtain ⟨earlier, s₁, rest, reached, last, -⟩ := FrameStack.run?_append_eq_some.mp h
    obtain ⟨answer, s₂, _, hop, done, -⟩ := FrameStack.run?_cons_eq_some.mp last
    cases done
    exact (ih reached).perform? reached hop

theorem pop?_matches (h : frames.run? empty ops = some (answers, s)) (closed : s.pop? = some s') :
    ∃ before kind inner earlier, ops = before ++ .push kind :: inner ∧ ScopeOp.Balanced inner ∧
      frames.run? empty before = some (earlier, s') := by
  have opened := opened_of_run? h
  generalize hbelow : s.below = below at opened
  cases opened with
  | bottom _ => simp [Scope.pop?, hbelow] at closed
  | @inside before inner earlier s₀ kind reached _ balanced =>
    obtain rfl : s₀ = s' := by simpa [Scope.pop?, hbelow] using closed
    exact ⟨before, kind, inner, earlier, rfl, balanced, reached⟩

/-- The scope answers as the chain does. -/
structure Refines (s : Scope) (c : Chain) : Prop where
  kind : s.top.kind = c.top.kind
  /-- A name is looked up level by level, the innermost first. -/
  lookup : ∀ name, s.find? name = c.find? name
  /-- A variable is refused if and only if the top level has declared its name. -/
  refused_iff : ∀ x, s.declare? x = none ↔ ∃ y ∈ c.top.own, y.name = x.name
  /-- Any other variable hides one if and only if a level around the top one has declared its name. -/
  hides_iff : ∀ x hides s', s.declare? x = some (hides, s') →
    (hides = true ↔ ∃ l ∈ c.below, ∃ y ∈ l.own, y.name = x.name)
  /-- The top frame lists its own variables in order, and each name once. -/
  declared : s.top.declared = c.top.own
  distinct : (c.top.own.map (·.name)).Nodup

theorem Copies.refines (h : s.Copies c) : s.Refines c where
  kind := by
    cases h with
    | cons kind _ _ _ _ => exact kind
  lookup := h.find?_eq
  refused_iff x := by
    rw [← Chain.declare?_eq_none_iff]
    rcases h.declare? x with ⟨hs, hc⟩ | ⟨_, _, _, hs, hc, _⟩
    · simp [hs, hc]
    · simp [hs, hc]
  hides_iff x hides s' declared := by
    rcases h.declare? x with ⟨hs, -⟩ | ⟨_, _, _, hs, hc, _⟩
    · cases hs.symm.trans declared
    · cases hs.symm.trans declared
      exact Chain.hides_iff hc
  declared := h.declared_eq
  distinct := h.own_eq.2

/-- Whatever is done from the start, a scope gives the answers that a chain gives, and stands for the chain that is
reached. What lies below its top frame is the scope from before the push that the next pop belongs to, and no
balanced operations in a new frame change the scope. -/
theorem run?_chain (ops : List ScopeOp) :
    frames.run? empty ops = none ∧ Chain.frames.run? .empty ops = none ∨
      ∃ answers s c, frames.run? empty ops = some (answers, s) ∧
        Chain.frames.run? .empty ops = some (answers, c) ∧ s.Refines c ∧
        (∀ s', s.pop? = some s' → ∃ before kind inner earlier,
          ops = before ++ .push kind :: inner ∧ ScopeOp.Balanced inner ∧
            frames.run? empty before = some (earlier, s')) ∧ ∀ kind inner, ScopeOp.Balanced inner →
          ∃ more, frames.run? s (.push kind :: (inner ++ [.pop])) = some (more, s) := by
  rcases Copies.empty.run? ops with failed | ⟨answers, s, c, hs, hc, copies⟩
  · exact .inl failed
  · refine .inr ⟨answers, s, c, hs, hc, copies.refines, fun s' => pop?_matches hs, ?_⟩
    intro kind inner balanced
    obtain ⟨more, s₁, inside, same⟩ := run?_balanced balanced (s.push kind)
    exact ⟨_, run?_block inside same (show frames.run? s [] = some ([], s) from rfl)⟩

/-- A variable that is hidden in a block, where its name can be declared only once, and seen again behind it. -/
def redeclaring : List ScopeOp :=
  [.declare ⟨"x", .int, false, false, ""⟩, .push .block, .declare ⟨"x", .usize, true, false, ""⟩,
    .declare ⟨"x", .f64, false, false, ""⟩, .pop, .declare ⟨"y", .int, false, false, ""⟩, .push .block]

theorem run?_chain_redeclaring :
    ∃ s c, frames.run? empty redeclaring =
        some ([.declared false, .done, .declared true, .refused, .done, .declared false, .done], s) ∧
      Chain.frames.run? .empty redeclaring =
        some ([.declared false, .done, .declared true, .refused, .done, .declared false, .done], c) ∧
      s.Refines c ∧ ∃ s', s.pop? = some s' := by
  have answered : (frames.run? empty redeclaring).map (·.1) =
      some [.declared false, .done, .declared true, .refused, .done, .declared false, .done] := by decide
  rcases run?_chain redeclaring with ⟨failed, -⟩ | ⟨answers, s, c, hs, hc, refines, -, -⟩
  · rw [failed] at answered
    cases answered
  · rw [hs] at answered
    cases answered
    have closes : ((frames.run? empty redeclaring).bind fun r => r.2.pop?).isSome = true := by decide
    rw [hs] at closes
    exact ⟨s, c, hs, hc, refines, Option.isSome_iff_exists.mp closes⟩

end Scope

end Impulse
