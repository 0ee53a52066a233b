import Impulse.Proofs.KnownTypes

/-!
# What a change adds

A change adds nodes to the end of the program, or to the statements that are deferred. Each of them was deferred before,
or it is new, and `State.News` lists the new ones with what was tested for them. What holds of all nodes is shown for the
new ones, and follows for everything that is listed by `State.Adds.step`.

Below the root of a new node there are expressions and the signs of conditions, so what holds of all nodes of a tree is
shown for the roots of statements and for `View.Builds`.
-/

namespace Impulse

open List

namespace Form

theorem map_map (g : β → γ) (f : α → β) (form : Form α) : (form.map f).map g = form.map fun a => g (f a) := by
  cases form <;> simp [map]

theorem children_map (f : α → β) (form : Form α) : (form.map f).children = form.children.map f := by
  cases form <;> simp [map, children]

theorem map_eq_self {form : Form α} (h : ∀ a ∈ form.children, f a = a) : form.map f = form := by
  have keeps : ∀ as : List α, (∀ a ∈ as, f a = a) → as.map f = as := fun as has =>
    (map_congr_left has).trans (map_id' as)
  cases form <;> simp_all [map, children]

end Form

namespace Node

theorem induct {P : Node → Prop} (empty : P .absent)
    (step : ∀ token ty form, (∀ n ∈ form.children, P n) → P (.node token ty form)) (n : Node) : P n := by
  apply @Node.rec P (fun form => ∀ n ∈ form.children, P n) (fun ns => ∀ n ∈ ns, P n) empty step
  all_goals clear empty step
  all_goals simp_all [Form.children]

theorem walk_self (n : Node) : (n.fold (absent, []) walkStep).1 = n := by
  induction n using induct with
  | empty => rfl
  | step token ty form ih =>
    rw [fold_node, walkStep, Form.map_map, Form.map_eq_self ih]

@[simp] theorem walk_absent : absent.walk = [] :=
  rfl

theorem walk_node (token : Token) (ty : Ty) (form : Form Node) :
    (node token ty form).walk = node token ty form :: form.children.flatMap walk := by
  have self := walk_self (node token ty form)
  rw [fold_node] at self
  unfold walk
  rw [fold_node]
  unfold walkStep at self ⊢
  dsimp only at self ⊢
  rw [self, Form.children_map, flatMap_map]

end Node

namespace View.Builds

variable {v : View}

theorem of_mem_walk (h : v.Builds n) : ∀ m ∈ n.walk, v.Builds m := by
  -- A node is itself an expression, and so are the nodes of its children.
  have up : ∀ {token ty form}, v.Builds (.node token ty form) →
      (∀ n ∈ form.children, ∀ m ∈ n.walk, v.Builds m) →
      ∀ m ∈ (Node.node token ty form).walk, v.Builds m := by
    intro token ty form root children m hm
    rw [Node.walk_node] at hm
    rcases mem_cons.mp hm with rfl | hm
    · exact root
    · obtain ⟨n, hn, hm⟩ := mem_flatMap.mp hm
      exact children n hn m hm
  induction h with
  | numeral t numeric spelled => exact up (.numeral t numeric spelled) (by simp [Form.children])
  | constant t found const => exact up (.constant t found const) (by simp [Form.children])
  | computed t inner numeric ih => exact up (.computed t inner numeric) (by simpa [Form.children] using ih)
  | name t found => exact up (.name t found) (by simp [Form.children])
  | string t value => exact up (.string t value) (by simp [Form.children])
  | char t value => exact up (.char t value) (by simp [Form.children])
  | bool t value => exact up (.bool t value) (by simp [Form.children])
  | embed t code => exact up (.embed t code) (by simp [Form.children])
  | typeName t read => exact up (.typeName t read) (by simp [Form.children])
  | list t complete inner fits ih => exact up (.list t complete inner fits) ih
  | index t base position indexable ihBase ihPosition =>
    exact up (.index t base position indexable) (by simpa [Form.children] using ⟨ihBase, ihPosition⟩)
  | deref t inner pointer ih => exact up (.deref t inner pointer) (by simpa [Form.children] using ih)
  | address t inner place ih => exact up (.address t inner place) (by simpa [Form.children] using ih)
  | call t known inner fits ih => exact up (.call t known inner fits) ih
  | binary t op hleft hright numericLeft numericRight ihLeft ihRight =>
    exact up (.binary t op hleft hright numericLeft numericRight) (by simpa [Form.children] using ⟨ihLeft, ihRight⟩)

end View.Builds

namespace Infer.BuildsPart

theorem of_mem_walk (h : BuildsPart v n) (hm : m ∈ n.walk) : BuildsPart v m := by
  cases h with
  | operand h => exact .operand (h.of_mem_walk m hm)
  | operator t =>
    obtain rfl := mem_singleton.mp (Node.walk_node .. ▸ hm)
    exact .operator t

theorem walk_cases
    (children : ∀ n ∈ form.children, n = .absent ∨ BuildsPart v n) :
    ∀ m ∈ (Node.node t ty form).walk, m = .node t ty form ∨ BuildsPart v m := by
  intro m hm
  rw [Node.walk_node] at hm
  rcases mem_cons.mp hm with root | hm
  · exact .inl root
  · obtain ⟨n, hn, hm⟩ := mem_flatMap.mp hm
    rcases children n hn with rfl | part
    · cases hm
    · exact .inr (part.of_mem_walk hm)

end Infer.BuildsPart

namespace State

variable {s s' s₁ : State}

section Parts

open Infer (BuildsPart)
open Infer.BuildsPart (walk_cases)

variable (hs : s.Complete)

include hs

theorem Complete.condition_part {opened : Token} {cond : List Node}
    (read : Infer.Gives (s.view settings) (Infer.condition opened toks) cond) :
    ∀ n ∈ cond, BuildsPart (s.view settings) n :=
  (Infer.condition_builds (hs.view settings) opened toks).of_gives read

theorem Writes.walk (h : s.Writes settings n) : ∀ m ∈ n.walk, m = n ∨ BuildsPart (s.view settings) m := by
  cases h with
  | assign t _ readTarget _ _ readValue =>
    have target := hs.builds .absent readTarget
    have complete := Ty.isComplete_resolved (target.completeArg (hs.view settings)).1
    have value := hs.builds (.of_complete complete) readValue
    exact walk_cases (by simpa [Form.children] using ⟨.inr (.operand target), .inr (.operand value)⟩)
  | call _ read | code _ read => exact fun m hm => .inr (.operand ((hs.builds .absent read).of_mem_walk m hm))
  | embed | leave | again => exact walk_cases (forall_mem_nil _)

theorem Opens.walk (h : s.Opens settings n b) : ∀ m ∈ n.walk, m = n ∨ BuildsPart (s.view settings) m := by
  cases h with
  | bare | otherwise => exact walk_cases (forall_mem_nil _)
  | branch _ _ _ _ _ _ _ _ read => exact walk_cases fun m hm => .inr (hs.condition_part read m hm)
  | switch _ _ _ _ read | iterate _ _ _ _ _ _ read =>
    exact walk_cases (forall_mem_singleton.mpr (.inr (.operand (hs.builds .absent read))))
  | @arm _ _ _ _ b _ _ blocks kind read =>
    refine walk_cases fun m hm => .inr (.operand ?_)
    obtain ⟨toks, gives⟩ := read m hm
    have complete := hs.blocks b (by rw [blocks]; exact .head _) kind
    exact hs.builds (.of_complete complete) gives

theorem Results.part (inside : s.function = some f)
    (h : (s.view settings).Results f value) : value = .absent ∨ BuildsPart (s.view settings) value := by
  cases h with
  | nothing => exact .inl rfl
  | value read => exact .inr (.operand (hs.builds (.of_complete (hs.function f inside)) read))

theorem Initial.part (typed : TypeExpr.ofTokens (s.view settings) false toks = .ok written)
    (h : (s.view settings).Initial written ty value) : value = .absent ∨ BuildsPart (s.view settings) value := by
  have complete := (TypeExpr.ofTokens_settled (s.view settings) false toks).of_ok typed
  cases h with
  | none => exact .inl rfl
  | value read => exact .inr (.operand (hs.builds (.of_complete complete) read))

end Parts

theorem Counts.walk (h : s.Counts init counter s') (hm : m ∈ init.walk) :
    m = init ∨ ∃ t, m = .numeral t "0" .usize := by
  cases h with
  | known => cases hm
  | introduced t =>
    rw [Node.declaration, Node.walk_node, Form.children, flatMap_singleton, Node.numeral, Node.walk_node] at hm
    rcases mem_cons.mp hm with root | value
    · exact .inl root
    · exact .inr ⟨t, mem_singleton.mp value⟩

theorem Declares.functions_eq (h : s.Declares x s') : s'.context.functions = s.context.functions := by
  cases h <;> rfl

theorem Counts.functions_eq (h : s.Counts init counter s') :
    s'.context.functions = s.context.functions := by
  cases h with
  | known => rfl
  | introduced t declared => exact declared.functions_eq

variable (settings) in
/-- The nodes that a change from `s` to `s'` makes. -/
inductive News (s s' : State) : Node → Prop
  | header (t : Token) {path : String} (bottom : s.blocks = [])
      (isNew : (s.context.markImported (sourceKey path)).1 = true)
      (after : s' = State.emitted { s with context := (s.context.markImported (sourceKey path)).2 }
        (.plain t (.header path))) : News s s' (.plain t (.header path))
  | write {n : Node} (h : s.Writes settings n) : News s s' n
  | result (t : Token) {f : FunctionInfo} {value : Node} (inside : s.function = some f)
      (h : (s.view settings).Results f value) : News s s' (.returned t value)
  | define (t : Token) {x : Variable} {toks : List Token} {written : Ty} {value : Node}
      (typed : TypeExpr.ofTokens (s.view settings) false toks = .ok written)
      (initial : (s.view settings).Initial written x.ty value) (plain : PlainName x.name) :
      News s s' (.declaration t x.name x.ty value x.const s.function.isNone false)
  | begin {n : Node} {b : Block} (h : s.Opens settings n b) : News s s' n
  | loop (brace t opened : Token) (counter : String) (step : Impulse.Step) {toks : List Token} {init : Node}
      {cond : List Node} {s₁ : State}
      (counts : (s.opened { kind := .loop, token := brace, framed := true }).Counts init counter s₁)
      (read : Infer.Gives (s₁.view settings) (Infer.condition opened toks) cond) :
      News s s' (.plain t (.loop init counter cond step))
  | function (t brace : Token) {sig : Signature} (placeholders : List String) (outside : s.function = none)
      (place : s.record = none ∧ s.blocks = [] ∧ sig.method = "" ∨
        ∃ d, s.record = some (.struct d) ∧ d.fieldsOpen = false ∧ sig.method = d.name)
      (fresh : s.context.definedIn? sig.name = none)
      (named : (s.record = none → PlainName sig.name) ∧
        ∀ d, s.record = some (.struct d) → ∃ own, PlainName own ∧ sig.name = d.name ++ "." ++ own)
      (after : s' = s.entered t brace sig placeholders) : News s s' (.functionOf t sig)
  | structName (t : Token) (name : String) : News s s' (.plain t (.structName name))
  | structBody (d : StructDraft) : News s s' (.plain d.token (.structBody d.name d.generics d.fields))
  | structEnd (t : Token) (name : String) : News s s' (.plain t (.structEnd name))
  | enumName (t : Token) (name : String) : News s s' (.plain t (.enumName name))
  | enumBody (d : EnumDraft) (after : s'.context = (s.finishedEnum d).context) :
      News s s' (.plain d.token (.enumBody d.name d.fields))
  | enumCount (d : EnumDraft) (after : s'.context = (s.finishedEnum d).context) :
      News s s' (.declaration d.token (d.name ++ ".field_count") .int
        (.numeral d.token (toString d.fields.length) .int) true true true)
  | enumEnd (t : Token) (name : String) : News s s' (.plain t (.enumEnd name))
  | blockEnd (t : Token) : News s s' (.plain t .blockEnd)

open Infer.BuildsPart (walk_cases) in
/-- Below a new node there are the declaration of a counter and parts of expressions. These are read where the same
functions are known. -/
theorem News.walk (hs : s.Complete) (h : s.News settings s' n) : ∀ m ∈ n.walk, m = n ∨
    (∃ t name, m = .declaration t name .usize (.numeral t "0" .usize) false false false) ∨
    ∃ v : View, v.settings = settings ∧ v.context.functions = s.context.functions ∧ Infer.BuildsPart v m := by
  have zero (v : View) (t : Token) (z : Nat) (ty : Ty) (numeric : (ty.isPlaceholder || ty.isNumeric) = true) :
      Infer.BuildsPart v (.numeral t (toString z) ty) := .operand (.numeral t numeric (.computed (.ofNat z)))
  have here (walk : ∀ m ∈ n.walk, m = n ∨ Infer.BuildsPart (s.view settings) m) : ∀ m ∈ n.walk, m = n ∨
      (∃ t name, m = .declaration t name .usize (.numeral t "0" .usize) false false false) ∨
      ∃ v : View, v.settings = settings ∧ v.context.functions = s.context.functions ∧ Infer.BuildsPart v m :=
    fun m hm => (walk m hm).imp_right fun part => .inr ⟨_, rfl, rfl, part⟩
  cases h with
  | write h | begin h => exact here (h.walk hs)
  | result t inside h => exact here (walk_cases (forall_mem_singleton.mpr (Results.part hs inside h)))
  | define t typed initial =>
    exact here (walk_cases (forall_mem_singleton.mpr (Initial.part hs typed initial)))
  | enumCount d => exact here (walk_cases (forall_mem_singleton.mpr (.inr (zero _ _ _ _ rfl))))
  | loop brace t opened counter step counts read =>
    have inside := hs.looped counts
    intro m hm
    rw [Node.plain, Node.walk_node] at hm
    rcases mem_cons.mp hm with root | hm
    · exact .inl root
    refine .inr ?_
    obtain ⟨child, hchild, inner⟩ := mem_flatMap.mp hm
    rcases mem_cons.mp hchild with rfl | hchild
    · rcases counts.walk inner with rfl | ⟨t, rfl⟩
      · cases counts with
        | known => cases inner
        | introduced t => exact .inl ⟨t, _, rfl⟩
      · exact .inr ⟨s.view settings, rfl, rfl, zero _ t 0 .usize rfl⟩
    · refine .inr ⟨_, rfl, ?_, (inside.condition_part read child hchild).of_mem_walk inner⟩
      exact counts.functions_eq
  | _ => exact here (walk_cases (forall_mem_nil _))

def nodes (s : State) : List Node :=
  s.program.map (·.node) ++ (s.deferral.recording.getD [] ++ s.deferral.groups.flatMap (·.2))

theorem mem_nodes_emitted (h : m ∈ (s.emitted n).nodes) : m ∈ s.nodes ∨ m = n := by
  unfold emitted at h
  split at h
  · next group recording =>
    simp only [nodes, recording, Option.getD_some, mem_append, mem_singleton] at h ⊢
    grind
  · simp only [nodes, map_append, map_cons, map_nil, mem_append,
      mem_singleton, Entry.of] at h ⊢
    grind

/-- Nodes with the property `P` were added to `s`, and everything that is deferred now has it. -/
structure Adds (P : Node → Prop) (s s' : State) : Prop where
  file : s'.file = s.file
  listed : ∃ ns : List Node, s'.program = s.program ++ ns.map (Entry.of · s.file) ∧ ∀ n ∈ ns, P n
  deferred : ∀ n ∈ s'.deferral.nodes, P n

namespace Adds

theorem shrink (h : s.Adds P s₁) (file : s'.file = s₁.file) (program : s'.program = s₁.program)
    (deferred : s'.deferral.nodes ⊆ s₁.deferral.nodes) : s.Adds P s' := by
  obtain ⟨ns, listed, added⟩ := h.listed
  exact ⟨file.trans h.file, ⟨ns, program.trans listed, added⟩, fun n hn => h.deferred n (deferred hn)⟩

theorem congr (h : s.Adds P s₁) (file : s'.file = s₁.file) (program : s'.program = s₁.program)
    (deferral : s'.deferral = s₁.deferral) : s.Adds P s' :=
  h.shrink file program (deferral ▸ List.Subset.refl _)

theorem emitted (h : s.Adds P s₁) (hn : P n) : s.Adds P (s₁.emitted n) := by
  obtain ⟨file, ⟨ns, listed, added⟩, deferred⟩ := h
  unfold State.emitted
  split
  · next group recording =>
    refine ⟨file, ⟨ns, listed, added⟩, fun m hm => ?_⟩
    have known : m ∈ s₁.deferral.nodes ∨ m = n := by
      simp only [Deferral.nodes, recording, Option.getD_some, mem_append, mem_singleton] at hm ⊢
      grind
    rcases known with old | rfl
    · exact deferred m old
    · exact hn
  · refine ⟨file, ⟨ns ++ [n], by simp [listed, file], fun m hm => ?_⟩, deferred⟩
    rcases mem_append.mp hm with old | new
    · exact added m old
    · obtain rfl := mem_singleton.mp new
      exact hn

theorem emittedAll (h : s.Adds P s₁) (hns : ∀ n ∈ ns, P n) : s.Adds P (s₁.emittedAll ns) := by
  induction ns generalizing s₁ with
  | nil => exact h
  | cons n ns ih => exact ih (h.emitted (hns n (.head _))) fun m hm => hns m (.tail _ hm)

theorem opened (h : s.Adds P s₁) (b : Block) : s.Adds P (s₁.opened b) :=
  h.congr rfl rfl rfl

theorem declares (h : s.Adds P s₁) (declared : s₁.Declares x s') : s.Adds P s' := by
  cases declared <;> exact h.congr rfl rfl rfl

theorem counts (h : s.Adds P s₁) (counts : s₁.Counts init counter s') :
    s.Adds P s' := by
  cases counts with
  | known => exact h
  | introduced _ declared => exact h.declares declared

theorem closed (start : s.Adds P s) (b : Block) (rest : List Block) (ends : P (.plain t .blockEnd))
    (scope : Scope) : s.Adds P (s.closed b rest t scope) := by
  have shut : s.Adds P { s with
      blocks := rest
      afterBranch := b.kind = .branch
      deferral := s.deferral.without (rest.length + 1) } :=
    start.shrink rfl rfl (Deferral.nodes_withGroups filter_sublist.subset)
  have deferred : ∀ n ∈ s.deferral.statementsAt (rest.length + 1), P n :=
    fun n hn => start.deferred n (Deferral.mem_nodes_of_statementsAt hn)
  have ended := (shut.emittedAll deferred).emitted ends
  unfold State.closed
  dsimp only
  split
  · exact ended.shrink rfl rfl (Deferral.nodes_withGroups filter_sublist.subset)
  · exact ended.congr rfl rfl rfl

/-- What holds of everything that is deferred, and of the new nodes, holds of everything that a change adds. -/
theorem step (h : Step settings s s') (deferred : ∀ n ∈ s.deferral.nodes, P n)
    (new : ∀ n, s.News settings s' n → P n) : s.Adds P s' := by
  have start : s.Adds P s := ⟨rfl, ⟨[], by simp, forall_mem_nil _⟩, deferred⟩
  cases h with
  | idle | load | mark | structField | enumField | closeStruct => exact start.congr rfl rfl rfl
  | header t path bottom isNew =>
    refine emitted ?_ (new _ (.header t bottom isNew rfl))
    exact start.congr rfl rfl rfl
  | write h => exact start.emitted (new _ (.write h))
  | result t inside _ _ h pending =>
    refine (start.emittedAll fun n hn => ?_).emitted (new _ (.result t inside h))
    rcases pending with ⟨-, rfl⟩ | ⟨-, rfl⟩
    · cases hn
    · exact deferred n (Deferral.mem_nodes_of_pending hn)
  | declare _ h => exact start.declares h
  | define t h _ _ typed initial plain => exact (start.declares h).emitted (new _ (.define t typed initial plain))
  | begin h =>
    refine opened (emitted ?_ (new _ (.begin h))) _
    exact start.congr rfl rfl rfl
  | loop brace t opened counter step _ _ counts read =>
    exact ((start.opened _).counts counts).emitted (new _ (.loop brace t opened counter step counts read))
  | defer => exact start.shrink rfl rfl (Deferral.nodes_start _)
  | fields =>
    refine emitted (emitted ?_ (new _ (.structBody _))) (new _ (.structEnd _ _))
    exact start.congr rfl rfl rfl
  | function t brace placeholders outside place fresh _ named =>
    refine congr (emitted ?_ (new _ (.function t brace placeholders outside place fresh named rfl))) rfl rfl rfl
    exact start.congr rfl rfl rfl
  | struct =>
    refine opened (emitted ?_ (new _ (.structName _ _))) _
    exact start.congr rfl rfl rfl
  | enum =>
    refine opened (emitted ?_ (new _ (.enumName _ _))) _
    exact start.congr rfl rfl rfl
  | closeEnum =>
    refine congr (emitted (emitted (emitted ?_ (new _ (.enumBody _ rfl))) (new _ (.enumCount _ rfl)))
      (new _ (.enumEnd _ _))) rfl rfl rfl
    exact start.congr rfl rfl rfl
  | closeDeferred => exact start.shrink rfl rfl (Deferral.nodes_finish _ _)
  | closeOther t => exact start.closed _ _ (new _ (.blockEnd t)) _

theorem nodes (h : s.Adds P s') (hn : n ∈ s'.nodes) : n ∈ s.nodes ∨ P n := by
  obtain ⟨ns, listed, added⟩ := h.listed
  rcases mem_append.mp hn with hn | hn
  · rw [listed, map_append] at hn
    rcases mem_append.mp hn with old | new
    · exact .inl (mem_append_left _ old)
    · exact .inr (added n (by simpa [Entry.of] using new))
  · exact .inr (h.deferred n hn)

end Adds

end State

end Impulse
