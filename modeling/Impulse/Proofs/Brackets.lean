import Impulse.Program

/-!
# Reading a program with a stack

The entries of a program are read in order with a stack of the nodes that opened a block and were not closed
yet. A node that closes a block takes its opener from the stack, and fails if the stack is empty or its top
opened something else. The depth of the listing is the height of the stack.
-/

namespace Impulse.Program

/-- Whether `closer` closes what `opener` opened: a struct and an enum are closed by their own names, and
everything else by the end of a block. -/
def pairs (opener closer : Node) : Bool :=
  match opener, closer with
  | .node _ _ (.structName x), .node _ _ (.structEnd y) => x == y
  | .node _ _ (.enumName x), .node _ _ (.enumEnd y) => x == y
  | .node _ _ (.structName _), .node _ _ .blockEnd => false
  | .node _ _ (.enumName _), .node _ _ .blockEnd => false
  | _, .node _ _ .blockEnd => true
  | _, _ => false

/-- Reads one node: an opener is put on the stack, and a closer takes the opener it matches. -/
def read (stack : List Node) (n : Node) : Option (List Node) :=
  if nodeOpens n then some (n :: stack)
  else if nodeCloses n then
    match stack with
    | [] => none
    | opener :: rest => if pairs opener n then some rest else none
  else some stack

theorem read_of_opens (opens : nodeOpens n = true) (stack : List Node) : read stack n = some (n :: stack) := by
  unfold read
  rw [if_pos opens]

theorem read_of_pairs (stays : nodeOpens n = false) (closes : nodeCloses n = true)
    (hpairs : pairs opener n = true) (stack : List Node) : read (opener :: stack) n = some stack := by
  unfold read
  rw [stays, closes]
  dsimp only
  rw [hpairs]
  rfl

theorem read_of_stays (stays : nodeOpens n = false) (keeps : nodeCloses n = false)
    (stack : List Node) : read stack n = some stack := by
  unfold read
  rw [stays, keeps]
  rfl

def readAll (stack : List Node) (p : Program) : Option (List Node) :=
  p.foldlM (fun stack e => read stack e.node) stack

/-- Every closer matches the opener on top of the stack, and no opener is left. -/
def WellBracketed (p : Program) : Prop :=
  readAll [] p = some []

/-- The depth of the listing behind some entries, if it was `depth` before them. -/
def depthAfter (depth : Nat) : Program → Nat
  | [] => depth
  | e :: p =>
    let depth := if nodeCloses e.node then depth - 1 else depth
    depthAfter (if nodeOpens e.node then depth + 1 else depth) p

theorem dumpLines_append (depth : Nat) (p q : Program) :
    dumpLines depth (p ++ q) = dumpLines depth p ++ dumpLines (depthAfter depth p) q := by
  induction p generalizing depth with
  | nil => rfl
  | cons e p ih =>
    rw [List.cons_append, dumpLines, dumpLines, depthAfter, ih]
    rfl

theorem not_opens_of_closes (h : nodeCloses n = true) : nodeOpens n = false := by
  cases n with
  | absent => rfl
  | node token ty form => cases form <;> first | rfl | cases h

theorem read_cases (h : read stack n = some mid) :
    nodeOpens n = true ∧ nodeCloses n = false ∧ mid = n :: stack ∨
    nodeOpens n = false ∧ nodeCloses n = true ∧ (∃ opener, stack = opener :: mid ∧ pairs opener n = true) ∨
    nodeOpens n = false ∧ nodeCloses n = false ∧ mid = stack := by
  unfold read at h
  split at h
  · next opens =>
    cases h
    refine .inl ⟨opens, Bool.eq_false_iff.mpr fun closes => ?_, rfl⟩
    rw [not_opens_of_closes closes] at opens
    cases opens
  · next stays =>
    rw [Bool.not_eq_true] at stays
    split at h
    · next closes =>
      cases stack with
      | nil => cases h
      | cons opener rest =>
        obtain ⟨paired, same⟩ := Option.ite_none_right_eq_some.mp h
        cases same
        exact .inr (.inl ⟨stays, closes, opener, rfl, paired⟩)
    · next keeps =>
      cases h
      exact .inr (.inr ⟨stays, Bool.eq_false_iff.mpr keeps, rfl⟩)

theorem depthAfter_eq_length
    (h : readAll stack p = some stack') : depthAfter stack.length p = stack'.length := by
  induction p generalizing stack with
  | nil =>
    cases h
    rfl
  | cons e p ih =>
    rw [readAll, List.foldlM_cons] at h
    obtain ⟨mid, hread, hrest⟩ := Option.bind_eq_some_iff.mp h
    rw [depthAfter, ← ih hrest]
    rcases read_cases hread with
      ⟨opens, closes, rfl⟩ | ⟨opens, closes, opener, rfl, -⟩ | ⟨opens, closes, rfl⟩ <;>
    · rw [opens, closes]
      rfl

theorem readAll_append (stack : List Node) (p q : Program) :
    readAll stack (p ++ q) = (readAll stack p).bind fun mid => readAll mid q :=
  List.foldlM_append

namespace WellBracketed

theorem depth_eq_zero (h : WellBracketed p) : depthAfter 0 p = 0 :=
  depthAfter_eq_length h

theorem depth_pos (h : WellBracketed p) (hp : p = before ++ e :: after)
    (closes : nodeCloses e.node = true) : 0 < depthAfter 0 before := by
  rw [WellBracketed, hp, readAll_append] at h
  obtain ⟨stack, hbefore, hrest⟩ := Option.bind_eq_some_iff.mp h
  have depth : depthAfter 0 before = stack.length := depthAfter_eq_length hbefore
  rw [depth]
  cases stack with
  | cons opener rest => exact Nat.succ_pos _
  | nil =>
    rw [readAll, List.foldlM_cons, read, if_neg (by rw [not_opens_of_closes closes]; nofun),
      if_pos closes] at hrest
    cases hrest

end WellBracketed

/-- Reading `nodes` with a stack leads from one stack to another, and every node fits to the stack it is read
with. -/
inductive Reads (fits : List Node → Node → Prop) : List Node → List Node → List Node → Prop
  | nil (stack : List Node) : Reads fits stack [] stack
  | cons {stack mid final nodes : List Node} {n : Node} (place : fits stack n)
      (next : read stack n = some mid) (rest : Reads fits mid nodes final) :
      Reads fits stack (n :: nodes) final

theorem read_append_base (h : read stack n = some mid)
    (base : List Node) : read (stack ++ base) n = some (mid ++ base) := by
  rcases read_cases h with
    ⟨opens, closes, rfl⟩ | ⟨opens, closes, opener, rfl, paired⟩ | ⟨opens, closes, rfl⟩
  · exact read_of_opens opens _
  · exact read_of_pairs opens closes paired _
  · exact read_of_stays opens closes _

namespace Reads

theorem append (h : Reads fits stack nodes mid) (h' : Reads fits mid nodes' final) :
    Reads fits stack (nodes ++ nodes') final := by
  induction h with
  | nil => exact h'
  | cons place next _ ih => exact .cons place next (ih h')

theorem single (place : fits stack n) (next : read stack n = some final) : Reads fits stack [n] final :=
  .cons place next (.nil _)

theorem of_append (h : Reads fits stack (nodes ++ nodes') final) :
    ∃ mid, Reads fits stack nodes mid ∧ Reads fits mid nodes' final := by
  induction nodes generalizing stack with
  | nil => exact ⟨stack, .nil _, h⟩
  | cons n nodes ih =>
    cases h with
    | cons place next rest =>
      obtain ⟨mid, first, second⟩ := ih rest
      exact ⟨mid, .cons place next first, second⟩

theorem foldlM_eq (h : Reads fits stack nodes final) : nodes.foldlM read stack = some final := by
  induction h with
  | nil => rfl
  | cons place next _ ih =>
    rw [List.foldlM_cons, next]
    exact ih

theorem readAll_eq (h : Reads fits stack (p.map (·.node)) final) : readAll stack p = some final := by
  rw [readAll, ← List.foldlM_map]
  exact h.foldlM_eq

end Reads

end Impulse.Program
