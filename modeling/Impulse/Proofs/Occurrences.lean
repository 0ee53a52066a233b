import Impulse.Proofs.Recheck
import Impulse.Proofs.Shadowing

/-!
# The variables that occur in a statement

A statement names variables: those of its expressions and, if it is a loop that counts, its counter. Each of them
could be seen where the statement was read.
-/

namespace Impulse

open List

namespace Node

/-- The variable that a node uses itself: the one it names, or the counter that a loop changes. -/
def usedName? : Node → Option String
  | .node _ _ (.name x _) => some x
  | .node _ _ (.loop _ counter _ step) => if step = .stay then none else some counter
  | _ => none

def usedNames (n : Node) : List String :=
  n.walk.filterMap usedName?

/-- The look-up finds every variable of the tree. -/
def ResolvedBy (look : String → Option Variable) (n : Node) : Prop :=
  ∀ name ∈ n.usedNames, ∃ x, look name = some x

theorem mem_usedNames_node {token : Token} {ty : Ty} :
    name ∈ (node token ty form).usedNames ↔
      (node token ty form).usedName? = some name ∨ ∃ m ∈ form.children, name ∈ m.usedNames := by
  unfold usedNames
  rw [walk_node, mem_filterMap]
  constructor
  · rintro ⟨m, hm, used⟩
    rcases mem_cons.mp hm with rfl | hm
    · exact .inl used
    · obtain ⟨child, hchild, hm⟩ := mem_flatMap.mp hm
      exact .inr ⟨child, hchild, mem_filterMap.mpr ⟨m, hm, used⟩⟩
  · rintro (used | ⟨child, hchild, mem⟩)
    · exact ⟨_, .head _, used⟩
    · obtain ⟨m, hm, used⟩ := mem_filterMap.mp mem
      exact ⟨m, .tail _ (mem_flatMap.mpr ⟨child, hchild, hm⟩), used⟩

theorem rootName?_mem_usedNames (n : Node) (h : n.rootName? = some root) : root ∈ n.usedNames := by
  induction n using induct with
  | empty => cases h
  | step token ty form ih =>
    rw [mem_usedNames_node]
    unfold rootName? at h
    split at h
    · next same =>
      cases same
      exact .inl h
    · next base position same =>
      cases same
      exact .inr ⟨base, .head _, ih base (.head _) h⟩
    · cases h

namespace ResolvedBy

variable {token : Token} {ty : Ty}

theorem absent : ResolvedBy look .absent :=
  nofun

theorem of_children (own : (node token ty form).usedName? = none)
    (children : ∀ n ∈ form.children, n.ResolvedBy look) : (node token ty form).ResolvedBy look := by
  intro name mem
  rcases mem_usedNames_node.mp mem with used | ⟨child, hchild, inner⟩
  · rw [own] at used
    cases used
  · exact children child hchild name inner

theorem leaf (children : form.children = []) (own : (node token ty form).usedName? = none) :
    (node token ty form).ResolvedBy look := by
  refine .of_children own ?_
  rw [children]
  exact nofun

end ResolvedBy

end Node

/-- Every variable that can be seen is found under its own name. -/
def View.Named (v : View) : Prop :=
  ∀ n x, v.context.resolve? v.scope n = some x → x.name = n

theorem Infer.BuildsPart.usedName? (named : v.Named) (h : BuildsPart v n)
    (used : n.usedName? = some name) : ∃ x, v.context.resolve? v.scope name = some x := by
  cases h with
  | operand h =>
    cases h with
    | @name t path x found =>
      cases used
      refine ⟨x, ?_⟩
      rw [named _ x found]
      exact found
    | _ => cases used
  | operator => cases used

theorem Infer.BuildsPart.resolvedBy (named : v.Named) (h : BuildsPart v n) :
    n.ResolvedBy (v.context.resolve? v.scope) := by
  intro name mem
  obtain ⟨m, hm, used⟩ := mem_filterMap.mp mem
  exact (h.of_mem_walk hm).usedName? named used

namespace Text

theorem splitWhere_free (h : piece ∈ splitWhere sep cs) : ∀ c ∈ piece, sep c = false := by
  induction cs generalizing piece with
  | nil =>
    cases mem_singleton.mp h
    exact nofun
  | cons d cs ih =>
    rw [splitWhere] at h
    split at h
    · rcases mem_cons.mp h with rfl | h
      · exact nofun
      · exact ih h
    · next free =>
      have free : sep d = false := by simpa using free
      split at h
      · cases mem_singleton.mp h
        simpa using free
      · next first pieces cut =>
        rcases mem_cons.mp h with rfl | h
        · refine forall_mem_cons.mpr ⟨free, ih ?_⟩
          rw [cut]
          exact .head _
        · refine ih ?_
          rw [cut]
          exact .tail _ h

theorem splitWhere_append_free (hmore : ∀ c ∈ more, sep c = false) (front : List Char) :
    ∃ pieces last, splitWhere sep front = pieces ++ [last] ∧
      splitWhere sep (front ++ more) = pieces ++ [last ++ more] := by
  induction front with
  | nil => exact ⟨[], [], rfl, splitWhere_of_none hmore⟩
  | cons d front ih =>
    obtain ⟨pieces, last, cut, cut'⟩ := ih
    rw [cons_append, splitWhere, splitWhere, cut, cut']
    by_cases hd : sep d = true
    · exact ⟨[] :: pieces, last, by simp [hd], by simp [hd]⟩
    · cases pieces with
      | nil => exact ⟨[], d :: last, by simp [hd], by simp [hd]⟩
      | cons piece pieces => exact ⟨(d :: piece) :: pieces, last, by simp [hd], by simp [hd]⟩

end Text

/-- Whether a part of a path holds no point. -/
def PointFree (part : String) : Prop :=
  ∀ c ∈ part.toList, (c == '.') = false

section Spelling

variable (look : String → Option Variable)

def follow (path part : String) : String :=
  path ++ linkSign look path ++ part

/-- The spelling of a path that is found part by part. -/
def respell (path : String) : String :=
  match Text.splitOn '.' path with
  | [] => path
  | first :: parts => parts.foldl (follow look) first

theorem spelling_eq (name : String) : spelling look name =
    if !Text.contains name '.' then name
    else match look name with
      | some v => v.name
      | none => respell look name :=
  rfl

theorem respell_of_pointFree (h : PointFree part) : respell look part = part := by
  have one : Text.splitOn '.' part = [part] := by
    simp [Text.splitOn, Text.splitWhere_of_none h]
  simp [respell, one]

theorem respell_follow (h : respell look path = path) (hpart : PointFree part) :
    respell look (follow look path part) = follow look path part := by
  rcases linkSign_eq look path with sign | sign
  · -- behind a point the part is a piece of its own
    have cut : Text.splitOn '.' (path ++ "." ++ part) = Text.splitOn '.' path ++ [part] := by
      have pieces : Text.splitWhere (· == '.') (path.toList ++ '.' :: part.toList) = _ :=
        Text.splitWhere_append_sep rfl path.toList part.toList
      rw [Text.splitWhere_of_none hpart] at pieces
      simp [Text.splitOn, pieces]
    rw [respell] at h
    rw [follow, sign, respell, cut]
    cases first : Text.splitOn '.' path with
    | nil => exact absurd (map_eq_nil_iff.mp first) (Text.splitWhere_ne_nil _ _)
    | cons piece pieces =>
      rw [first] at h
      dsimp only at h
      rw [cons_append]
      dsimp only
      rw [foldl_append, h, foldl_cons, foldl_nil, follow, sign]
  · -- behind an arrow it belongs to the last piece
    have free : ∀ c ∈ ("->" ++ part).toList, (c == '.') = false := by
      intro c hc
      rw [String.toList_append, mem_append] at hc
      rcases hc with arrow | mem
      · have sides : ∀ c ∈ "->".toList, (c == '.') = false := by simp
        exact sides c arrow
      · exact hpart c mem
    obtain ⟨pieces, last, cut, cut'⟩ := Text.splitWhere_append_free free path.toList
    have old : Text.splitOn '.' path = pieces.map String.ofList ++ [String.ofList last] := by
      simp [Text.splitOn, cut]
    have new : Text.splitOn '.' (path ++ ("->" ++ part))
        = pieces.map String.ofList ++ [String.ofList last ++ ("->" ++ part)] := by
      rw [Text.splitOn, String.toList_append, cut', map_append, map_singleton,
        String.ofList_append, String.ofList_toList]
    rw [respell, old] at h
    rw [follow, sign, String.append_assoc, respell, new]
    cases pieces with
    | nil =>
      have whole : String.ofList last = path := h
      show String.ofList last ++ ("->" ++ part) = path ++ ("->" ++ part)
      rw [whole]
    | cons piece pieces =>
      rw [map_cons, cons_append] at h ⊢
      dsimp only at h ⊢
      rw [foldl_append, foldl_cons, foldl_nil, follow] at h ⊢
      rw [← String.append_assoc, h]

theorem respell_foldl (h : respell look path = path) {parts : List String}
    (free : ∀ part ∈ parts, PointFree part) :
    respell look (parts.foldl (follow look) path) = parts.foldl (follow look) path := by
  induction parts generalizing path with
  | nil => exact h
  | cons part parts ih =>
    exact ih (respell_follow look h (free part (.head _))) fun p hp => free p (.tail _ hp)

theorem respell_respell (name : String) : respell look (respell look name) = respell look name := by
  have free : ∀ part ∈ Text.splitOn '.' name, PointFree part := by
    intro part hpart
    obtain ⟨piece, hpiece, rfl⟩ := mem_map.mp hpart
    intro c hc
    exact Text.splitWhere_free hpiece c (by simpa using hc)
  cases cut : Text.splitOn '.' name with
  | nil => exact absurd (map_eq_nil_iff.mp cut) (Text.splitWhere_ne_nil _ _)
  | cons first parts =>
    rw [cut] at free
    have whole : respell look name = parts.foldl (follow look) first := by rw [respell, cut]
    rw [whole]
    exact respell_foldl look (respell_of_pointFree look (free first (.head _))) fun p hp =>
      free p (.tail _ hp)

theorem spelling_spelling (named : ∀ n x, look n = some x → x.name = n) (name : String) :
    spelling look (spelling look name) = spelling look name := by
  have kept : spelling look name = name → spelling look (spelling look name) = spelling look name :=
    fun same => by rw [same, same]
  by_cases point : Text.contains name '.' = true
  · cases known : look name with
    | some v =>
      refine kept ?_
      rw [spelling_eq, if_neg (by simp [point]), known]
      exact named name v known
    | none =>
      have parts : spelling look name = respell look name := by
        rw [spelling_eq, if_neg (by simp [point]), known]
      rw [parts, spelling_eq]
      split
      · rfl
      · split
        · next v known' => exact named _ v known'
        · exact respell_respell look name
  · exact kept (by rw [spelling_eq, if_pos (by simp [point])])

end Spelling

end Impulse
