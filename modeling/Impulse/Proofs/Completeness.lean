import Impulse.Proofs.FieldVariables
import Impulse.View

/-!
# Complete types

A type is complete if no part of it is missing. Everything that is computed from complete types is complete:
elements, views, generic types with their arguments put in, and the variables of fields.
-/

namespace Impulse

open List

variable {b : Bindings} {t : Ty}

namespace Ty

/-- Induction on the structure of a type, with a hypothesis for every generic argument. -/
@[induction_eliminator]
theorem induction {P : Ty → Prop} (absent : P .absent) (prim : ∀ p, P (.prim p))
    (pointer : ∀ elem, P elem → P (.pointer elem)) (array : ∀ elem length, P elem → P (.array elem length))
    (named : ∀ name args, (∀ arg ∈ args, P arg) → P (.named name args)) (placeholder : ∀ name, P (.placeholder name))
    (view : ∀ base index, P base → P (.view base index)) (t : Ty) : P t :=
  @Ty.rec P (fun ts => ∀ t ∈ ts, P t) absent prim pointer array named placeholder view (forall_mem_nil P)
    (fun _ _ first rest => forall_mem_cons.mpr ⟨first, rest⟩) t

theorem isComplete_pointerTo (h : t.isComplete = true) (levels : Nat) : (t.pointerTo levels).isComplete = true := by
  induction levels with
  | zero => exact h
  | succ levels ih => simpa only [pointerTo, isComplete] using ih

theorem allComplete_eq_all (ts : List Ty) : allComplete ts = ts.all isComplete := by
  induction ts with
  | nil => rfl
  | cons t ts ih => simp [allComplete, ih]

theorem substAll_eq_map (b : Bindings) (ts : List Ty) : substAll b ts = ts.map (subst b) := by
  induction ts with
  | nil => rfl
  | cons t ts ih => rw [substAll, ih, map_cons]

theorem placeholdersAll_eq_flatMap (ts : List Ty) : placeholdersAll ts = ts.flatMap placeholders := by
  induction ts with
  | nil => rfl
  | cons t ts ih => rw [placeholdersAll, ih, flatMap_cons]

theorem placeholders_subset_named (name : String) (mem : t ∈ args) :
    t.placeholders ⊆ (named name args).placeholders := by
  intro x here
  rw [placeholders, placeholdersAll_eq_flatMap]
  exact mem_flatMap.mpr ⟨t, mem, here⟩

theorem ofKeyword?_cases (h : ofKeyword? word = some t) :
    (∃ p, t = prim p) ∨ word = "string" ∧ t = string := by
  unfold ofKeyword? at h
  split at h
  · exact .inl ⟨_, (Option.some.inj h).symm⟩
  · split at h
    · next word => exact .inr ⟨word, (Option.some.inj h).symm⟩
    · cases h

theorem isComplete_element? (ht : t.isComplete = true) (h : t.element? = some e) : e.isComplete = true := by
  fun_induction element? t with
  | case1 elem length | case2 elem =>
    cases h
    exact ht
  | case3 =>
    cases h
    rfl
  | case4 | case6 | case8 => cases h
  | case5 name arg =>
    cases h
    simpa [isComplete, allComplete] using ht
  | case7 base index ih => exact ih ht h

theorem isComplete_resolved (ht : t.isComplete = true) : t.resolved.isComplete = true := by
  unfold resolved
  split
  · next base index =>
    cases h : base.element? with
    | none => exact ht
    | some e => exact isComplete_element? (t := base) ht h
  · exact ht

theorem ne_absent_of_isComplete (ht : t.isComplete = true) : t.isAbsent = false := by
  cases t <;> first | rfl | cases ht

theorem same_self (h : t.isComplete = true) : t.same t = true := by
  induction t with
  | absent => cases h
  | prim | placeholder => simp [same]
  | pointer elem ih => exact ih h
  | array elem _ ih | view elem _ ih => simp [same, ih h]
  | named name args ih =>
    rw [isComplete, allComplete_eq_all, all_eq_true] at h
    have all : sameAll args args = true := by
      induction args with
      | nil => rfl
      | cons t ts rest =>
        rw [forall_mem_cons] at ih h
        rw [sameAll, ih.1 h.1, rest ih.2 h.2]
        rfl
    simp [same, all]

end Ty

def Bindings.Complete (b : Bindings) : Prop :=
  ∀ name ty, b.find? name = some ty → ty.isComplete = true

namespace Bindings

theorem find?_bind (b : Bindings) (name : String) (t : Ty) (n : String) :
    (b.bind name t).find? n = if n = name then some t else b.find? n := by
  have put := find?_put (fun e : String × Ty => e.1) (name, t) b n
  unfold bind find?
  rw [apply_ite (List.find? (fun e : String × Ty => e.1 == n))] at put
  rw [apply_ite (List.find? (fun e : String × Ty => e.1 == n)), put]
  split <;> rfl

theorem Complete.bind (h : b.Complete) (ht : t.isComplete = true) (name : String) : (b.bind name t).Complete := by
  intro n ty hty
  rw [find?_bind] at hty
  split at hty
  · cases hty
    exact ht
  · exact h n ty hty

end Bindings

namespace Ty

theorem isComplete_subst (hb : b.Complete) (t : Ty) (h : t.isComplete = true) : (t.subst b).isComplete = true := by
  induction t with
  | absent => cases h
  | prim => rfl
  | pointer elem ih | array elem _ ih | view elem _ ih => exact ih h
  | named name args ih =>
    rw [isComplete, allComplete_eq_all, all_eq_true] at h
    simp only [subst, isComplete, substAll_eq_map, allComplete_eq_all, all_map, all_eq_true]
    exact fun arg mem => ih arg mem (h arg mem)
  | placeholder name =>
    rw [subst]
    cases found : b.find? name with
    | none => rfl
    | some ty => exact hb name ty found

end Ty

structure Signature.Complete (sig : Signature) : Prop where
  ret : sig.ret.isComplete = true
  params : ∀ p ∈ sig.params, p.ty.isComplete = true

def StructDef.Complete (d : StructDef) : Prop :=
  ∀ f ∈ d.fields, f.ty.isComplete = true

theorem StructDef.mem_of_bindings (d : StructDef) (bound : (d.bindings args).find? generic = some arg) :
    arg ∈ args := by
  have step : ∀ (pairs : List (String × Ty)) (b : Bindings),
      Bindings.find? (pairs.foldl (fun b e => b.bind e.1 e.2) b) generic = some arg →
      b.find? generic = some arg ∨ ∃ e ∈ pairs, e.2 = arg := by
    intro pairs
    induction pairs with
    | nil => exact fun b bound => .inl bound
    | cons e pairs ih =>
      intro b bound
      rcases ih _ bound with first | ⟨e', mem, same⟩
      · rw [Bindings.find?_bind] at first
        split at first
        · exact .inr ⟨e, .head _, Option.some.inj first⟩
        · exact .inl first
      · exact .inr ⟨e', .tail _ mem, same⟩
  rcases step _ [] bound with none | ⟨e, mem, rfl⟩
  · cases none
  · exact (of_mem_zip mem).2

theorem StructDef.complete_bindings (d : StructDef)
    (hargs : Ty.allComplete args = true) : (d.bindings args).Complete := by
  intro name arg bound
  rw [Ty.allComplete_eq_all] at hargs
  exact all_eq_true.mp hargs arg (d.mem_of_bindings bound)

def Frame.Complete (f : Frame) : Prop :=
  ∀ x ∈ f.visible, x.ty.isComplete = true

structure Context.Complete (c : Context) : Prop where
  functions : c.functions.All Signature.Complete
  structs : c.structs.All StructDef.Complete
  globals : c.globals.All fun x => x.ty.isComplete = true

structure View.Complete (v : View) : Prop where
  context : v.context.Complete
  scope : v.scope.top.Complete

namespace Context

theorem Complete.resolve? {c : Context} (hc : c.Complete) (hs : scope.top.Complete) (h : c.resolve? scope name = some x) : x.ty.isComplete = true := by
  unfold Context.resolve? at h
  cases hf : scope.find? name with
  | none =>
    rw [hf] at h
    exact hc.globals name x h
  | some y =>
    rw [hf] at h
    cases h
    exact hs x (mem_of_find?_eq_some hf)

theorem allComplete_of_structTarget? {ty : Ty}
    (hty : ty.isComplete = true) (h : ty.structTarget? = some (pointer, name, args)) : Ty.allComplete args = true := by
  unfold Ty.structTarget? at h
  split at h
  · cases h
    exact hty
  · cases h
    exact hty
  · cases h

theorem Complete.field {c : Context} (hc : c.Complete)
    (h : c.Field const base ty y) (hty : ty.isComplete = true) : y.ty.isComplete = true := by
  induction h with
  | direct target known mem =>
    exact Ty.isComplete_subst (StructDef.complete_bindings _ (allComplete_of_structTarget? hty target)) _
      (hc.structs _ _ known _ mem)
  | deeper outer inner ihOuter ihInner => exact ihInner (ihOuter hty)

theorem complete_of_mem_fieldsOf {c : Context} (hc : c.Complete)
    (hx : x.ty.isComplete = true) (h : y ∈ c.fieldsOf x) : y.ty.isComplete = true :=
  hc.field (field_of_mem_fieldsOf h) hx

theorem complete_initial : Context.initial.Complete := by
  refine ⟨?_, ?_, ?_⟩
  · have void : ∀ name, Signature.Complete { name := name, ret := .void, variadic := true } :=
      fun name => ⟨rfl, by simp⟩
    have empty : (({} : Table Signature)).All Signature.Complete := by
      intro n sig h
      cases h
    have printing := empty.add (void "print") "print" builtinOrigin
    exact printing.add (void "println") "println" builtinOrigin
  · intro n d h
    cases h
  · intro n x h
    cases h

end Context

theorem View.Complete.find? {v : View} (hv : v.Complete)
    (h : v.find? path = some x) : x.ty.isComplete = true :=
  hv.context.resolve? hv.scope h

namespace Call

/-- A value whose type, and the type it stands for as a value, are complete. -/
def CompleteArg (n : Node) : Prop :=
  n.ty.isComplete = true ∧ ∀ ty, n.typeValue? = some ty → ty.isComplete = true

theorem complete_checkArg (hb : b.Complete) (harg : CompleteArg arg)
    (h : checkArg callee declared position p arg b = .ok b') : b'.Complete := by
  unfold checkArg at h
  split at h
  · split at h
    · cases h
    · split at h
      · next bound hbound =>
        cases h
        exact hb.bind (harg.2 bound hbound) _
      · cases h
  · split at h
    · cases h
    · dsimp only at h
      have accepted : ∀ {c : Bool} {e : CallProblem},
          (if c = true then Except.ok b else Except.error e) = .ok b' → b'.Complete := by
        intro c e hc
        split at hc
        · cases hc
          exact hb
        · cases hc
      split at h
      · cases h
      · split at h
        · split at h
          · exact accepted h
          · cases h
            exact hb.bind (Ty.isComplete_resolved harg.1) _
        · exact accepted h

theorem complete_check (hargs : ∀ a ∈ args, CompleteArg a)
    (h : check functions callee args = .ok b) : b.Complete := by
  have step : ∀ (pairs : List (Param × Node)) (declared : List String) (position : Nat)
      (b₀ : Bindings), b₀.Complete → (∀ e ∈ pairs, CompleteArg e.2) →
      checkArgs callee declared position b₀ pairs = .ok b → b.Complete := by
    intro pairs declared
    induction pairs with
    | nil =>
      intro position b₀ hb _ h
      cases h
      exact hb
    | cons e pairs ih =>
      obtain ⟨p, arg⟩ := e
      intro position b₀ hb hpairs h
      rw [checkArgs] at h
      split at h
      · cases h
      · next b₁ hb₁ =>
        exact ih _ b₁ (complete_checkArg hb (hpairs (p, arg) (.head _)) hb₁) (fun e he => hpairs e (.tail _ he)) h
  have empty : Bindings.Complete [] := by
    intro name ty hfind
    cases hfind
  unfold check at h
  split at h
  · cases h
  · split at h
    · cases h
      exact empty
    · split at h
      · cases h
      · exact step _ _ 1 [] empty (fun e he => hargs e.2 (of_mem_zip he).2) h

end Call

end Impulse
