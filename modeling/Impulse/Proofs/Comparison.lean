import Impulse.Proofs.Recheck

/-!
# Two readings side by side

Two readings are compared that differ in their settings, or in the tokens they are given. A `Comparison` says which
tokens correspond to each other, in the order in which files are opened; they have the same kind and text, and may
stand at different places. Trees correspond if they differ in corresponding tokens only, and states if all that was
found does.

The settings may differ in whether types are strict, and in what is not read while a program is compiled. The first
reading is at least as strict as the second one.

## Design notes

Correspondence is indexed by the files that were opened so far, so that a comparison can say where tokens come from.
Where a reading stops, a weaker correspondence of places is enough: errors about nothing at all are put at the end of
the file, which need not be a token that corresponds to anything.
-/

namespace Impulse

open List

/-- Which files and tokens of two readings correspond to each other, once the given files were opened, which places
may differ where both stop, and which tokens where something is shown. The first reading is at least as strict as the
second one. -/
structure Comparison where
  first : Settings
  second : Settings
  source : SourceFile → SourceFile → Prop
  token : List SourceFile → Token → Token → Prop
  place : List SourceFile → Token → Token → Prop
  /-- The tokens of entries and notices. -/
  shown : List SourceFile → Token → Token → Prop
  feature {f : Feature} : f ≠ .strictTypes → second.feature f = first.feature f
  wordSize : second.wordSize = first.wordSize
  stricter : second.feature .strictTypes = true → first.feature .strictTypes = true
  sourceSame (file : SourceFile) : source file file
  sourceName {file file' : SourceFile} : source file file' → file'.name = file.name
  kind {files : List SourceFile} {t u : Token} : token files t u → u.kind = t.kind
  value {files : List SourceFile} {t u : Token} : token files t u → u.value = t.value
  file {files : List SourceFile} {t u : Token} : token files t u → u.file = t.file
  /-- Only places matter, and what is made of a token stands at its place. -/
  retag {files : List SourceFile} {t u : Token} (kind : Token.Kind) (value : String) :
    token files t u → token files { t with kind := kind, value := value }
      { u with kind := kind, value := value }
  grow {files more : List SourceFile} {t u : Token} :
    files <+: more → token files t u → token more t u
  growPlace {files more : List SourceFile} {t u : Token} :
    files <+: more → place files t u → place more t u
  growShown {files more : List SourceFile} {t u : Token} :
    files <+: more → shown files t u → shown more t u
  atToken {files : List SourceFile} {t u : Token} : token files t u → place files t u
  toShown {files : List SourceFile} {t u : Token} : token files t u → shown files t u
  /-- A file that is imported at a token is the same in both readings. -/
  opened {files : List SourceFile} {path text : String} {t u w : Token} : token files t u →
    w ∈ (tokenize (first.feature .comments) files.length text).tokens → token (files ++ [⟨path, text⟩]) w w
  unopened {files : List SourceFile} {path text : String} {t u w : Token} {e : LexProblem} : token files t u →
    (tokenize (first.feature .comments) files.length text).failure = some (w, e) →
      place (files ++ [⟨path, text⟩]) w w

variable {K : Comparison}

namespace Comparison

theorem text (h : K.token files t u) : u.text = t.text := by
  unfold Token.text
  rw [K.kind h, K.value h]

abbrev Tokens (K : Comparison) (files : List SourceFile) : List Token → List Token → Prop :=
  List.Forall₂ (K.token files)

abbrev Parts (K : Comparison) (files : List SourceFile) : List (List Token) → List (List Token) → Prop :=
  List.Forall₂ (K.Tokens files)

/-- The first reading is strict, and the second one is not. -/
def Mixed (K : Comparison) : Prop :=
  K.first.feature .strictTypes = true ∧ K.second.feature .strictTypes = false

end Comparison

/-- The second reading is given the same tokens again, or more lines of the main file. Errors that are put at the end
of the file can stand at different places. -/
def Comparison.ofLines (settings : Settings) : Comparison where
  first := settings
  second := settings
  source file file' := file'.name = file.name
  token _ t u := u = t
  place _ _ _ := True
  shown _ t u := u = t
  feature _ := rfl
  wordSize := rfl
  stricter strict := strict
  sourceSame _ := rfl
  sourceName same := same
  kind same := congrArg _ same
  value same := congrArg _ same
  file same := congrArg _ same
  retag kind value same := congrArg (fun t : Token => { t with kind := kind, value := value }) same
  grow _ same := same
  growPlace _ _ := trivial
  growShown _ same := same
  atToken _ := trivial
  toShown same := same
  opened _ _ := rfl
  unopened _ _ := trivial

theorem Comparison.tokens_ofLines (settings : Settings) (files : List SourceFile) (toks : List Token) :
    (ofLines settings).Tokens files toks toks :=
  forall₂_same.mpr fun _ _ => rfl

theorem getLast?_rel (h : List.Forall₂ R as bs) :
    Option.Rel R as.getLast? bs.getLast? := by
  have reversed := forall₂_reverse_iff.mpr h
  rw [List.getLast?_eq_head?_reverse, List.getLast?_eq_head?_reverse]
  generalize as.reverse = cs at reversed ⊢
  generalize bs.reverse = ds at reversed ⊢
  cases reversed with
  | nil => exact .none
  | cons last _ => exact .some last

theorem optionRel_imp {R S : α → β → Prop} (h : Option.Rel R a b)
    (weaker : ∀ a b, R a b → S a b) : Option.Rel S a b := by
  cases h with
  | none => exact .none
  | some same => exact .some (weaker _ _ same)

theorem ite_rel [Decidable c] {P : α → β → Prop} (hx : c → P x y)
    (hx' : ¬c → P x' y') : P (if c then x else x') (if c then y else y') := by
  by_cases hc : c
  · rw [if_pos hc, if_pos hc]
    exact hx hc
  · rw [if_neg hc, if_neg hc]
    exact hx' hc

namespace Comparison.Tokens

theorem grow (h : K.Tokens files toks toks') (sub : files <+: more) : K.Tokens more toks toks' :=
  h.imp fun _ _ ht => K.grow sub ht

theorem isEmpty_eq (h : K.Tokens files toks toks') : toks'.isEmpty = toks.isEmpty := by
  cases h <;> rfl

theorem append {toks₁ toks₁' : List Token} (h : K.Tokens files toks toks')
    (h₁ : K.Tokens files toks₁ toks₁') : K.Tokens files (toks ++ toks₁) (toks' ++ toks₁') :=
  rel_append h h₁

theorem single (h : K.token files t u) : K.Tokens files [t] [u] :=
  .cons h .nil

section

variable (h : K.Tokens files toks toks')
include h

theorem headD (ht : K.token files t u) : K.token files (toks.headD t) (toks'.headD u) := by
  cases h with
  | nil => exact ht
  | cons first _ => exact first

theorem getLastD (ht : K.token files t u) : K.token files (toks.getLastD t) (toks'.getLastD u) := by
  induction h generalizing t u with
  | nil => exact ht
  | cons first _ ih =>
    rw [getLastD_cons, getLastD_cons]
    exact ih first

theorem getLastD_place (ht : K.place files t u) : K.place files (toks.getLastD t) (toks'.getLastD u) := by
  cases h with
  | nil => exact ht
  | cons first rest =>
    rw [getLastD_cons, getLastD_cons]
    exact K.atToken (getLastD rest first)

theorem takeWhile (p : Token.Kind → Bool) :
    K.Tokens files (toks.takeWhile fun t => p t.kind) (toks'.takeWhile fun t => p t.kind) := by
  induction h with
  | nil => exact .nil
  | cons ht _ ih =>
    rw [takeWhile_cons, takeWhile_cons, K.kind ht]
    split
    · exact .cons ht ih
    · exact .nil

theorem drop (n : Nat) : K.Tokens files (toks.drop n) (toks'.drop n) :=
  forall₂_drop n h

theorem take (n : Nat) : K.Tokens files (toks.take n) (toks'.take n) :=
  forall₂_take n h

end

def Pair (K : Comparison) (files : List SourceFile) (p q : List Token × List Token) : Prop :=
  K.Tokens files p.1 q.1 ∧ K.Tokens files p.2 q.2

theorem consFst (ht : K.token files t u) {p q : Option (List Token × List Token)} (h : Option.Rel (Pair K files) p q) :
    Option.Rel (Pair K files) (p.map (Token.consFst t)) (q.map (Token.consFst u)) := by
  cases h with
  | none => exact .none
  | some h => exact .some ⟨.cons ht h.1, h.2⟩

theorem untilClose (h : K.Tokens files toks toks') (depth : Nat) :
    Option.Rel (Pair K files) (Token.untilClose depth toks) (Token.untilClose depth toks') := by
  induction h generalizing depth with
  | nil => exact .none
  | @cons t u toks toks' ht hrest ih =>
    rw [Token.untilClose.eq_def, Token.untilClose.eq_def depth (u :: toks')]
    simp only [K.kind ht]
    split
    · cases depth with
      | zero => exact .some ⟨.nil, hrest⟩
      | succ depth => exact consFst ht (ih depth)
    · split
      · exact consFst ht (ih (depth + 1))
      · exact consFst ht (ih depth)

theorem untilBar (h : K.Tokens files toks toks') (depth : Int) :
    Option.Rel (Pair K files) (Token.untilBar depth toks) (Token.untilBar depth toks') := by
  induction h generalizing depth with
  | nil => exact .none
  | @cons t u toks toks' ht hrest ih =>
    rw [Token.untilBar, Token.untilBar, K.kind ht]
    split
    · exact .some ⟨.nil, hrest⟩
    · split
      · exact consFst ht (ih _)
      · split
        · exact consFst ht (ih _)
        · exact consFst ht (ih _)

theorem consHead (ht : K.token files t u) {parts parts' : List (List Token)} (h : K.Parts files parts parts') :
    K.Parts files (Token.consHead t parts) (Token.consHead u parts') := by
  cases h with
  | nil => exact .cons (single ht) .nil
  | cons first rest => exact .cons (.cons ht first) rest

theorem splitFrom (h : K.Tokens files toks toks') (sep : Token.Kind) (depth : Int) (barred : Bool) :
    K.Parts files (Token.splitFrom sep depth barred toks) (Token.splitFrom sep depth barred toks') := by
  induction h generalizing depth barred with
  | nil => exact .cons .nil .nil
  | cons ht _ ih =>
    rw [Token.splitFrom, Token.splitFrom, K.kind ht]
    split
    · exact consHead ht (ih _ _)
    · split
      · exact consHead ht (ih _ _)
      · split
        · exact consHead ht (ih _ _)
        · split
          · exact .cons .nil (ih _ _)
          · exact consHead ht (ih _ _)

theorem splitTop (h : K.Tokens files toks toks') (sep : Token.Kind) :
    K.Parts files (Token.splitTop sep toks) (Token.splitTop sep toks') := by
  unfold Token.splitTop
  rw [isEmpty_eq h]
  split
  · exact .nil
  · exact splitFrom h sep 0 false

structure Cut (K : Comparison) (files : List SourceFile) (p q : List Token × Token × List Token) :
    Prop where
  before : K.Tokens files p.1 q.1
  token : K.token files p.2.1 q.2.1
  behind : K.Tokens files p.2.2 q.2.2

theorem cutFrom (h : K.Tokens files toks toks') (kind : Token.Kind) (depth : Int) :
    Option.Rel (Cut K files) (Token.cutFrom kind depth toks) (Token.cutFrom kind depth toks') := by
  have goesOn : ∀ {t u p q}, K.token files t u → Option.Rel (Cut K files) p q →
      Option.Rel (Cut K files) (p.map fun c => (t :: c.1, c.2)) (q.map fun c => (u :: c.1, c.2)) := by
    intro t u p q ht h
    cases h with
    | none => exact .none
    | some h => exact .some ⟨.cons ht h.before, h.token, h.behind⟩
  induction h generalizing depth with
  | nil => exact .none
  | cons ht hrest ih =>
    rw [Token.cutFrom, Token.cutFrom, K.kind ht]
    split
    · exact goesOn ht (ih _)
    · split
      · exact goesOn ht (ih _)
      · split
        · exact .some ⟨.nil, ht, hrest⟩
        · exact goesOn ht (ih _)

variable (h : K.Tokens files toks toks')
include h

theorem cutTop? (kind : Token.Kind) : Option.Rel (Cut K files) (Token.cutTop? kind toks) (Token.cutTop? kind toks') :=
  cutFrom h kind 0

theorem placeholderNames_eq : Token.placeholderNames toks' = Token.placeholderNames toks := by
  induction h with
  | nil => rfl
  | cons ht hrest ih =>
    cases hrest with
    | nil => rfl
    | cons hname _ =>
      rw [Token.placeholderNames, Token.placeholderNames, ih, K.kind ht, K.value hname]

theorem totalWeight_eq : Token.totalWeight toks' = Token.totalWeight toks := by
  induction h with
  | nil => rfl
  | cons ht _ ih =>
    rw [Token.totalWeight, Token.totalWeight, ih, Token.weight, Token.weight, K.kind ht, K.value ht]

end Comparison.Tokens

namespace Form

theorem map_congr {form : Form α} (h : ∀ a ∈ form.children, f a = g a) : form.map f = form.map g := by
  have same : ∀ as : List α, (∀ a ∈ as, f a = g a) → as.map f = as.map g := fun as has =>
    map_congr_left has
  cases form <;> simp_all [map, children]

end Form

/-- The trees differ in tokens only, and these correspond. -/
inductive Node.Alike (R : Token → Token → Prop) : Node → Node → Prop
  | absent : Alike R .absent .absent
  | node {t u : Token} (ty : Ty) (form : Form (Node × Node)) (token : R t u)
      (children : ∀ q ∈ form.children, Alike R q.1 q.2) :
      Alike R (.node t ty (form.map Prod.fst)) (.node u ty (form.map Prod.snd))

/-- Two trees that are not empty, and differ in corresponding tokens only. -/
structure Node.Twins (R : Token → Token → Prop) (n m : Node) : Prop where
  alike : n.Alike R m
  present : n.isAbsent = false

abbrev Node.AlikeAll (R : Token → Token → Prop) : List Node → List Node → Prop :=
  List.Forall₂ (Node.Alike R)

theorem exists_pairs {as : List α} {bs : List β} (h : List.Forall₂ R as bs) :
    ∃ ps : List (α × β), ps.map Prod.fst = as ∧ ps.map Prod.snd = bs ∧ ∀ q ∈ ps, R q.1 q.2 := by
  induction h with
  | nil => exact ⟨[], rfl, rfl, forall_mem_nil _⟩
  | @cons a b _ _ hab _ ih =>
    obtain ⟨ps, rfl, rfl, hps⟩ := ih
    exact ⟨(a, b) :: ps, rfl, rfl, forall_mem_cons.mpr ⟨hab, hps⟩⟩

namespace Node.Alike

variable {n m : Node}

theorem imp (h : n.Alike R m) (weaker : ∀ t u, R t u → S t u) : n.Alike S m := by
  induction h with
  | absent => exact .absent
  | node ty form token _ ih => exact .node ty form (weaker _ _ token) ih

theorem ty_eq (h : n.Alike R m) : m.ty = n.ty := by
  cases h <;> rfl

theorem isAbsent_eq (h : n.Alike R m) : m.isAbsent = n.isAbsent := by
  cases h <;> rfl

theorem token (h : n.Alike R m) (present : n.isAbsent = false) : R n.token m.token := by
  cases h with
  | absent => cases present
  | node _ _ token _ => exact token

variable (h : n.Alike R m)
include h

theorem fold_eq {empty : β} :
    m.fold empty (fun _ => step) = n.fold empty (fun _ => step) := by
  induction h with
  | absent => rfl
  | node ty form _ _ ih =>
    rw [fold_node, fold_node, Form.map_map, Form.map_map, Form.map_congr ih]

theorem text?_eq : m.text? = n.text? :=
  fold_eq h

theorem text_eq : m.text = n.text := by
  unfold text
  rw [h.text?_eq]

theorem isNumber_eq : m.isNumber = n.isNumber := by
  cases h with
  | absent => rfl
  | node _ form => cases form <;> rfl

theorem isPlace_eq : m.isPlace = n.isPlace := by
  cases h with
  | absent => rfl
  | node _ form => cases form <;> rfl

theorem typeValue?_eq : m.typeValue? = n.typeValue? := by
  cases h with
  | absent => rfl
  | node ty form =>
    cases form with
    | name x flat =>
      cases ty with
      | prim p => cases p <;> rfl
      | _ => rfl
    | _ => rfl

theorem accepts_eq (want : Ty) : want.accepts m = want.accepts n := by
  unfold Ty.accepts
  rw [h.typeValue?_eq, h.ty_eq]
  cases h with
  | absent => rfl
  | node _ form => cases form <;> rfl

theorem rootName?_eq : m.rootName? = n.rootName? := by
  induction h with
  | absent => rfl
  | node _ form _ _ ih =>
    cases form with
    | index base position => exact ih base (.head _)
    | _ => rfl

theorem integer?_eq : m.integer? = n.integer? := by
  cases h with
  | absent => rfl
  | node _ form _ children =>
    cases form with
    | number value expr =>
      obtain ⟨a, b⟩ := expr
      have inner : a.Alike R b := children (a, b) (.head _)
      cases inner <;> rfl
    | _ => rfl

theorem eq (same : ∀ t u, R t u → u = t) : m = n := by
  induction h with
  | absent => rfl
  | node ty form token _ ih => rw [same _ _ token, Form.map_congr ih]

end Node.Alike

namespace Node.Twins

variable {n m : Node}

theorem token (h : n.Twins R m) : R n.token m.token :=
  h.alike.token h.present

theorem node {ty : Ty} (form : Form (Node × Node)) (token : R t u) (children : ∀ q ∈ form.children, q.1.Alike R q.2) :
    Twins R (.node t ty (form.map Prod.fst)) (.node u ty (form.map Prod.snd)) :=
  ⟨.node ty form token children, rfl⟩

theorem leaf {ty : Ty} (none : form.children = []) (token : R t u) :
    Twins R (.node t ty form) (.node u ty form) := by
  have twins : Twins R (.node t ty ((form.map fun n => (n, n)).map Prod.fst))
      (.node u ty ((form.map fun n => (n, n)).map Prod.snd)) :=
    node _ token (by simp [Form.children_map, none])
  rwa [Form.map_map, Form.map_map, Form.map_eq_self fun _ _ => rfl] at twins

end Node.Twins

def Caution.mismatch? : Caution → Option Mismatch
  | .mismatch m => some m
  | _ => none

/-- Two readings stop for the same reason, at corresponding places. -/
inductive Stop.Alike (K : Comparison) (files : List SourceFile) : Stop → Stop → Prop
  | problem {t u : Token} (place : K.place files t u) (p : Problem) : Alike K files (.problem t p) (.problem u p)
  /-- A piece of a bracket group is cut into tokens like a text of its own, so its places are not mapped back. -/
  | piece {t u w : Token} {text : String} {e : LexProblem} (token : K.token files t u)
      (part : text ∈ Infer.elementTexts (Text.trim t.value))
      (failed : (tokenize (K.first.feature .comments) t.file text).failure = some (w, e)) :
      Alike K files (.problem w (.lexical e)) (.problem w (.lexical e))
  | fault (f : Fault) : Alike K files (.fault f) (.fault f)

structure Notice.Alike (K : Comparison) (files : List SourceFile) (a b : Notice) : Prop where
  token : K.shown files a.token b.token
  caution : b.caution = a.caution

/-- The notices of two readings correspond, and a strict reading has raised none about types. -/
structure Notices.Alike (K : Comparison) (files : List SourceFile) (ns ms : List Notice) : Prop where
  each : List.Forall₂ (Notice.Alike K files) ns ms
  fits : K.first.feature .strictTypes = true → ∀ a ∈ ns, a.caution.mismatch? = none

namespace Notices.Alike

variable (h : Notices.Alike K files ns ms)
include h

theorem grow (sub : files <+: more) : Notices.Alike K more ns ms :=
  ⟨h.each.imp fun _ _ same => ⟨K.growShown sub same.token, same.caution⟩, h.fits⟩

theorem concat (ht : K.shown files t u) {c : Caution}
    (allowed : K.first.feature .strictTypes = true → c.mismatch? = none) :
    Notices.Alike K files (ns ++ [⟨t, c⟩]) (ms ++ [⟨u, c⟩]) := by
  refine ⟨rel_append h.each (.cons ⟨ht, rfl⟩ .nil), fun strict a ha => ?_⟩
  rcases mem_append.mp ha with old | new
  · exact h.fits strict a old
  · obtain rfl := mem_singleton.mp new
    exact allowed strict

theorem eq (same : ∀ t u, K.shown files t u → u = t) : ms = ns := by
  have each := h.each
  clear h
  induction each with
  | nil => rfl
  | @cons a b _ _ hab _ ih =>
    obtain ⟨t, c⟩ := a
    obtain ⟨u, d⟩ := b
    obtain rfl : u = t := same _ _ hab.token
    obtain rfl : d = c := hab.caution
    rw [ih]

end Notices.Alike

structure View.Alike (K : Comparison) (files : List SourceFile) (v w : View) : Prop where
  first : v.settings = K.first
  second : w.settings = K.second
  context : w.context = v.context
  scope : w.scope = v.scope
  self? : w.self? = v.self?
  placeholders : w.placeholders = v.placeholders
  last : K.place files v.last w.last

namespace View.Alike

variable {v w : View}

theorem find?_eq (h : v.Alike K files w) : w.find? = v.find? := by
  funext path
  unfold View.find?
  rw [h.context, h.scope]

theorem isTypeName_eq (h : v.Alike K files w) : w.isTypeName = v.isTypeName := by
  funext name
  unfold View.isTypeName
  rw [h.context]

theorem feature_eq (h : v.Alike K files w) {f : Feature} (other : f ≠ .strictTypes) :
    w.settings.feature f = v.settings.feature f := by
  rw [h.first, h.second]
  exact K.feature other

end View.Alike

structure Block.Alike (R : Token → Token → Prop) (b c : Block) : Prop where
  kind : c.kind = b.kind
  token : R b.token c.token
  framed : c.framed = b.framed
  value : c.value = b.value

theorem Block.Alike.imp {b c : Block} (h : b.Alike R c)
    (weaker : ∀ t u, R t u → S t u) : b.Alike S c :=
  { h with token := weaker _ _ h.token }

inductive Record.Alike (R : Token → Token → Prop) : Record → Record → Prop
  | struct (name : String) {t u : Token} (generics : List String) (fields : List Param)
      (fieldsOpen : Bool) (token : R t u) :
      Alike R (.struct ⟨name, t, generics, fields, fieldsOpen⟩)
        (.struct ⟨name, u, generics, fields, fieldsOpen⟩)
  | enum (name : String) {t u : Token} (fields : List String) (token : R t u) :
      Alike R (.enum ⟨name, t, fields⟩) (.enum ⟨name, u, fields⟩)

namespace Record.Alike

theorem imp {r r' : Record} (h : r.Alike R r') (weaker : ∀ t u, R t u → S t u) : r.Alike S r' := by
  cases h with
  | struct name generics fields fieldsOpen token => exact .struct name generics fields fieldsOpen (weaker _ _ token)
  | enum name fields token => exact .enum name fields (weaker _ _ token)

variable (h : Option.Rel (Record.Alike R) r r')
include h

theorem isSome_eq : r'.isSome = r.isSome := by
  cases h <;> rfl

theorem self?_eq : r'.bind self? = r.bind self? := by
  cases h with
  | none => rfl
  | some same => cases same <;> rfl

theorem placeholders_eq : r'.map placeholders = r.map placeholders := by
  cases h with
  | none => rfl
  | some same => cases same <;> rfl

end Record.Alike

inductive Entry.Alike (R : Token → Token → Prop) : Entry → Entry → Prop
  | of {n m : Node} (node : n.Alike R m) (file : String) : Alike R (.of n file) (.of m file)

theorem Entry.Alike.imp {e e' : Entry} (h : e.Alike R e')
    (weaker : ∀ t u, R t u → S t u) : e.Alike S e' := by
  cases h with
  | of node file => exact .of (node.imp weaker) file

theorem Entry.Alike.eq {e e' : Entry} (h : e.Alike R e')
    (same : ∀ t u, R t u → u = t) : e' = e := by
  cases h with
  | of node file => rw [node.eq same]

structure Deferral.Alike (R : Token → Token → Prop) (d e : Deferral) : Prop where
  recording : Option.Rel (Node.AlikeAll R) d.recording e.recording
  groups : List.Forall₂ (fun g h => h.1 = g.1 ∧ Node.AlikeAll R g.2 h.2) d.groups e.groups

theorem Deferral.Alike.imp {d e : Deferral} (h : d.Alike R e)
    (weaker : ∀ t u, R t u → S t u) : d.Alike S e where
  recording := optionRel_imp h.recording fun _ _ group => group.imp fun _ _ same => same.imp weaker
  groups := h.groups.imp fun _ _ same => ⟨same.1, same.2.imp fun _ _ same => same.imp weaker⟩

/-- What two readings show of their states when they end: what is known, the entries, and the files. -/
structure State.Shown (K : Comparison) (files : List SourceFile) (s s' : State) : Prop where
  context : s'.context = s.context
  program : List.Forall₂ (Entry.Alike (K.shown files)) s.program s'.program
  opened : s.session.files = files
  sources : List.Forall₂ K.source files s'.session.files
  library : s'.session.library = s.session.library

theorem State.Shown.names {s s' : State} (h : s.Shown K files s') :
    s'.session.files.map (·.name) = files.map (·.name) := by
  have sources := h.sources
  clear h
  generalize s'.session.files = files' at sources ⊢
  induction sources with
  | nil => rfl
  | cons same _ ih => rw [map_cons, map_cons, K.sourceName same, ih]

theorem State.Shown.program_eq {s s' : State} (h : s.Shown K files s')
    (same : ∀ t u, K.shown files t u → u = t) : s'.program = s.program :=
  forall₂_eq_eq_eq ▸ h.program.flip.imp fun _ _ alike => alike.eq same

/-- The states of two readings after the given files were opened. -/
structure State.Alike (K : Comparison) (files : List SourceFile) (s s' : State) : Prop
    extends State.Shown K files s s' where
  scope : s'.scope = s.scope
  file : s'.file = s.file
  last : K.place files s.last s'.last
  buffer : K.Tokens files s.buffer s'.buffer
  blocks : List.Forall₂ (Block.Alike (K.token files)) s.blocks s'.blocks
  afterBranch : s'.afterBranch = s.afterBranch
  function : s'.function = s.function
  record : Option.Rel (Record.Alike (K.token files)) s.record s'.record
  deferral : s.deferral.Alike (K.shown files) s'.deferral

namespace State.Alike

variable {s s' c c' : State}

theorem depth_eq (h : s.Alike K files s') : s'.depth = s.depth :=
  h.blocks.length_eq.symm

theorem initial (K : Comparison) (library : Library) (unread : K.place [] default default) :
    State.Alike K [] (.unread library) (.unread library) where
  context := rfl
  program := .nil
  opened := rfl
  sources := .nil
  library := rfl
  scope := rfl
  file := rfl
  last := unread
  buffer := .nil
  blocks := .nil
  afterBranch := rfl
  function := rfl
  record := .none
  deferral := ⟨.none, .nil⟩

theorem withSession (h : s.Alike K files s') (sub : files <+: more) (hc : c.Shown K more c') :
    State.Alike K more { s with session := c.session } { s' with session := c'.session } where
  context := h.context
  program := h.program.imp fun _ _ same => same.imp fun _ _ => K.growShown sub
  opened := hc.opened
  sources := hc.sources
  library := hc.library
  scope := h.scope
  file := h.file
  last := K.growPlace sub h.last
  buffer := h.buffer.imp fun _ _ => K.grow sub
  blocks := h.blocks.imp fun _ _ same => same.imp fun _ _ => K.grow sub
  afterBranch := h.afterBranch
  function := h.function
  record := optionRel_imp h.record fun _ _ same => same.imp fun _ _ => K.grow sub
  deferral := h.deferral.imp fun _ _ => K.growShown sub

theorem child (h : s.Alike K files s') (place : K.place files t u) :
    State.Alike K files { session := s.session, context := s.context, last := t }
      { session := s'.session, context := s'.context, last := u } where
  context := h.context
  program := .nil
  opened := h.opened
  sources := h.sources
  library := h.library
  scope := rfl
  file := rfl
  last := place
  buffer := .nil
  blocks := .nil
  afterBranch := rfl
  function := rfl
  record := .none
  deferral := ⟨.none, .nil⟩

end State.Alike

end Impulse
