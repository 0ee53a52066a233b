import Impulse.Proofs.Completeness
import Impulse.Proofs.Outcome
import Impulse.Proofs.TokenNesting

/-!
# Types as they are written

Reading a type expression always comes to an end with a type or with a problem that can be reported: every
recursion works on fewer tokens than it was given. The type that is read is formed of what the view knows, and has no
missing part.
-/

namespace Impulse

open List

variable (v : View) (header : Bool) (t : Token)

namespace Infer

theorem expect_settled (final : Token) (kind : Token.Kind) (hp : p.Reportable) (toks : List Token) :
    Settled (expect final kind p toks) fun r => toks = r.1 :: r.2 ∧ r.1.kind = kind := by
  cases toks with
  | nil => exact hp
  | cons t ts =>
    rw [expect]
    split
    · next hk => exact ⟨rfl, hk⟩
    · exact hp

theorem closing_settled (opened : Token) (toks : List Token) :
    Settled (closing opened toks) fun r => Token.untilClose 0 toks = some r := by
  unfold closing
  split
  · assumption
  · exact trivial

theorem nothingMore_settled (region : Region) (toks : List Token) :
    Settled (nothingMore region toks) fun _ => toks = [] := by
  cases toks with
  | nil => rfl
  | cons t ts => exact trivial

end Infer

def Token.Names (P : String → Prop) (toks : List Token) : Prop :=
  ∀ t ∈ toks, t.kind = .ident → P t.value

namespace TypeExpr

variable (toks : List Token)

/-- The types that can be written in the view with names that satisfy `P`. A base, in contrast to a whole type, has no
carets in front and no length behind. -/
inductive Formed (v : View) (P : String → Prop) : (whole : Bool) → Ty → Prop
  | keyword {name : String} {ty : Ty} (spelled : P name) (known : Ty.ofKeyword? name = some ty)
      (noStruct : v.context.structs.get? name = none) : Formed v P false ty
  | self {name : String} {generics : List String} (inBody : v.self? = some (name, generics)) :
      Formed v P false (.named name (generics.map .placeholder))
  | struct {name : String} {d : StructDef} {args : List Ty} (spelled : P name)
      (known : v.context.structs.get? name = some d) (count : args.length = d.generics.length)
      (each : ∀ ty ∈ args, Formed v P true ty) : Formed v P false (.named name args)
  | enum {name : String} (spelled : P name) (noKeyword : Ty.ofKeyword? name = none)
      (noStruct : v.context.structs.get? name = none) (known : v.context.enums.has name = true) :
      Formed v P false (.named name [])
  | placeholder {name : String} (spelled : P name) : Formed v P false (.placeholder name)
  | pointer {base : Ty} (levels : Nat) (h : Formed v P false base) : Formed v P true (base.pointerTo levels)
  | array {base : Ty} (levels : Nat) (h : Formed v P false base) {t : Token} {length : String}
      (sized : arrayLength v t = .ok length) : Formed v P true (.array (base.pointerTo levels) length)

theorem Formed.isComplete (h : Formed v P whole ty) :
    ty.isComplete = true := by
  induction h with
  | keyword spelled known noStruct => obtain ⟨p, rfl⟩ | ⟨-, rfl⟩ := Ty.ofKeyword?_cases known <;> rfl
  | self inBody => simp [Ty.isComplete, Ty.allComplete_eq_all]
  | struct spelled known count each ih =>
    rw [Ty.isComplete, Ty.allComplete_eq_all]
    exact all_eq_true.mpr ih
  | enum | placeholder => rfl
  | pointer levels h ih => exact Ty.isComplete_pointerTo ih levels
  | array levels h sized ih => simpa only [Ty.isComplete] using Ty.isComplete_pointerTo ih levels

def baseAt (v : View) (header : Bool) (arguments : Token → List Token → Except Stop (List Ty)) (final : Token)
    (toks : List Token) : Except Stop (Ty × List Token) :=
  toks.head?.elim (.error (.problem final (.type (.noType final.text)))) fun t =>
    if t.kind = .dollar then
      (Infer.expect final .ident (.expected "a generic name after '$'") toks.tail).bind fun r =>
        (placeholder v header r.1).bind fun ty => .ok (ty, r.2)
    else if t.kind = .ident then named v arguments t toks.tail
    else .error (.problem t (.type (.noType t.text)))

def withLength (v : View) (ty : Ty) (rest : List Token) : Except Stop (Ty × List Token) :=
  rest.head?.elim (.ok (ty, rest)) fun t =>
    if t.kind = .number then (arrayLength v t).bind fun length => .ok (.array ty length, rest.tail) else .ok (ty, rest)

def argumentsBelow (v : View) (header : Bool) (n : Nat) (opened : Token) (inner : List Token) : Except Stop (List Ty) :=
  if inner.length < n then arguments v header opened inner else .error (.fault .notSmaller)

theorem argumentsBelow_of_lt {inner : List Token} (h : inner.length < n) :
    argumentsBelow v header n opened inner = arguments v header opened inner :=
  if_pos h

theorem arguments_eq (opened : Token) : arguments v header opened toks =
    (many (one v header (argumentsBelow v header toks.length) (toks.getLastD opened)) toks).bind fun tys =>
      if tys.isEmpty then .error (.problem opened (.type .emptyArguments)) else .ok tys := by
  have nested : argumentsBelow v header toks.length = fun opened inner =>
      if _h : inner.length < toks.length then arguments v header opened inner else .error (.fault .notSmaller) := by
    funext opened inner
    rw [argumentsBelow]
    split <;> rfl
  rw [arguments, nested]
  split
  · next e found => rw [found]; rfl
  · next found => rw [found]; rfl
  · next tys some found =>
    rw [found]
    cases tys with
    | nil => cases some rfl
    | cons ty tys => rfl

variable {toks}

theorem one_eq (final : Token) : one v header args final toks =
    (baseAt v header args final (toks.drop (toks.takeWhile (·.kind = .caret)).length)).bind fun r =>
      withLength v (r.1.pointerTo (toks.takeWhile (·.kind = .caret)).length) r.2 := by
  unfold one
  dsimp only
  generalize (toks.takeWhile _).length = levels
  cases toks.drop levels with
  | nil => rfl
  | cons t ts =>
    dsimp only [baseAt, List.head?_cons, Option.elim_some, tail_cons]
    by_cases dollar : t.kind = .dollar
    · rw [if_pos dollar, if_pos dollar]
      cases Infer.expect final .ident (.expected "a generic name after '$'") ts with
      | error e => rfl
      | ok r =>
        obtain ⟨name, rest⟩ := r
        cases found : placeholder v header name with
        | error e => simp only [Bind.bind, Except.bind, found]
        | ok base =>
          simp only [Bind.bind, Except.bind, found]
          cases rest <;> rfl
    · rw [if_neg dollar, if_neg dollar]
      by_cases ident : t.kind = .ident
      · rw [if_pos ident, if_pos ident]
        cases named v args t ts with
        | error e => rfl
        | ok r =>
          obtain ⟨base, rest⟩ := r
          cases rest <;> rfl
      · rw [if_neg ident, if_neg ident]
        rfl

theorem placeholder_formed (spelled : P t.value) : Settled (placeholder v header t) (Formed v P false) := by
  unfold placeholder
  split
  · exact .placeholder spelled
  · exact trivial

theorem arrayLength_settled : Settled (arrayLength v t) fun _ => True := by
  unfold arrayLength
  dsimp only
  split
  · exact trivial
  · split
    · exact trivial
    · split <;> exact trivial

/-- Arguments that are read from fewer than `n` tokens, with names that satisfy `P`, are formed. -/
def ArgumentsFormed (v : View) (P : String → Prop) (args : Token → List Token → Except Stop (List Ty)) (n : Nat) :
    Prop :=
  ∀ opened inner, inner.length < n → Token.Names P inner →
    Settled (args opened inner) fun tys => ∀ ty ∈ tys, Formed v P true ty

theorem structArguments_formed (names : Token.Names P toks) (hargs : ArgumentsFormed v P args toks.length) :
    Settled (structArguments args toks) fun r => (∀ ty ∈ r.1, Formed v P true ty) ∧ Token.Takes toks r.2 := by
  cases toks with
  | nil => exact ⟨forall_mem_nil _, .refl _⟩
  | cons t ts =>
    rw [structArguments]
    split
    · next opens =>
      refine (Infer.closing_settled t ts).bind ?_
      rintro ⟨inner, rest⟩ closed
      obtain ⟨u, -, parts⟩ := Token.untilClose_eq closed
      have inside : Token.Names P inner := fun w mem =>
        names w (mem_cons_of_mem t (parts ▸ mem_append_left _ mem))
      have hinner := Token.untilClose_length closed
      refine (hargs t inner (by rw [length_cons]; omega) inside).bind fun tys htys => ?_
      exact ⟨htys, .group opens closed⟩
    · exact ⟨forall_mem_nil _, .refl _⟩

theorem named_formed (spelled : P t.value) (names : Token.Names P toks)
    (hargs : ArgumentsFormed v P args toks.length) :
    Settled (named v args t toks) fun r => Formed v P false r.1 ∧ Token.Takes toks r.2 := by
  unfold named
  dsimp only
  split
  · next ty keyword noStruct => exact ⟨.keyword spelled keyword noStruct, .refl _⟩
  · next name generics inBody _ =>
    obtain ⟨self, same⟩ := Option.filter_eq_some_iff.mp inBody
    obtain rfl : name = t.value := beq_iff_eq.mp same
    exact ⟨.self self, .refl _⟩
  · next d known _ =>
    refine (structArguments_formed v names hargs).bind ?_
    rintro ⟨tys, rest⟩ ⟨htys, hrest⟩
    dsimp only
    split
    · exact trivial
    · next count => exact ⟨.struct spelled known (Decidable.not_not.mp count) htys, hrest⟩
  · next noKeyword noStruct _ =>
    split
    · next enum => exact ⟨.enum spelled noKeyword noStruct enum, .refl _⟩
    · split
      · split
        · exact ⟨.placeholder spelled, .refl _⟩
        · exact trivial
      · exact trivial

theorem baseAt_formed (final : Token) (names : Token.Names P toks) (hargs : ArgumentsFormed v P args toks.length) :
    Settled (baseAt v header args final toks) fun r =>
      Formed v P false r.1 ∧ Token.Takes toks r.2 ∧ r.2.length < toks.length := by
  cases toks with
  | nil => exact trivial
  | cons t ts =>
    obtain ⟨first, others⟩ := forall_mem_cons.mp names
    simp only [baseAt, List.head?_cons, Option.elim_some, tail_cons, length_cons]
    split
    · next dollar =>
      refine (Infer.expect_settled final .ident (by trivial) ts).bind ?_
      rintro ⟨name, rest⟩ ⟨rfl, ident⟩
      refine (placeholder_formed v header name (others name mem_cons_self ident)).bind fun base hbase => ?_
      exact ⟨hbase, (Token.Takes.one _ dollar (by decide)).trans (.one _ ident (by decide)), Nat.lt_succ_of_lt (Nat.lt_succ_self _)⟩
    · split
      · next ident =>
        refine (named_formed v t (first ident) others fun opened inner short => ?_).mono fun r hr => ?_
        · exact hargs opened inner (Nat.lt_succ_of_lt short)
        · exact ⟨hr.1, (Token.Takes.one _ ident (by decide)).trans hr.2, Nat.lt_succ_of_le hr.2.suffix.length_le⟩
      · exact trivial

theorem withLength_formed (hbase : Formed v P false base) (levels : Nat) (rest : List Token) :
    Settled (withLength v (base.pointerTo levels) rest) fun r => Formed v P true r.1 ∧ Token.Takes rest r.2 := by
  cases rest with
  | nil => exact ⟨.pointer levels hbase, .refl _⟩
  | cons t ts =>
    simp only [withLength, List.head?_cons, Option.elim_some, tail_cons]
    split
    · next number =>
      refine (arrayLength_settled v t).with_eq.bind ?_
      rintro length ⟨-, sized⟩
      exact ⟨.array levels hbase sized, .one ts number (by decide)⟩
    · exact ⟨.pointer levels hbase, .refl _⟩

theorem one_formed (final : Token) (names : Token.Names P toks) (hargs : ArgumentsFormed v P args toks.length) :
    Settled (one v header args final toks) fun r =>
      Formed v P true r.1 ∧ Token.Takes toks r.2 ∧ r.2.length < toks.length := by
  rw [one_eq]
  have skipped := Token.Takes.skip .caret toks (by decide)
  generalize (toks.takeWhile _).length = levels at skipped ⊢
  have shorter := skipped.suffix.length_le
  refine (baseAt_formed v header final (fun t mem => names t (skipped.suffix.subset mem)) ?_).bind ?_
  · exact fun opened inner short => hargs opened inner (Nat.lt_of_lt_of_le short shorter)
  · rintro ⟨base, rest⟩ ⟨hbase, taken, fewer⟩
    refine (withLength_formed v hbase levels rest).mono fun r hr => ?_
    exact ⟨hr.1, (skipped.trans taken).trans hr.2,
      Nat.lt_of_le_of_lt hr.2.suffix.length_le (Nat.lt_of_lt_of_le fewer shorter)⟩

theorem many_formed {one : List Token → Except Stop (Ty × List Token)} (names : Token.Names P toks)
    (hone : ∀ ts, ts.length ≤ toks.length → Token.Names P ts →
      Settled (one ts) fun r => Formed v P true r.1 ∧ Token.Takes ts r.2 ∧ r.2.length < ts.length) :
    Settled (many one toks) fun tys => ∀ ty ∈ tys, Formed v P true ty := by
  fun_induction many one toks with
  | case1 => exact forall_mem_nil _
  | case2 t ts _ ih =>
    exact ih (forall_mem_cons.mp names).2 fun us hus => hone us (Nat.le_succ_of_le hus)
  | case3 t ts _ e he =>
    have := hone (t :: ts) (Nat.le_refl _) names
    rwa [he] at this
  | case4 t ts _ ty rest hr hlen e he ih =>
    have taken := ((hone (t :: ts) (Nat.le_refl _) names).of_ok hr).2.1
    have := ih (fun u mem => names u (taken.suffix.subset mem)) fun us hus =>
      hone us (Nat.le_succ_of_le (Nat.le_trans hus hlen))
    rwa [he] at this
  | case5 t ts _ ty rest hr hlen tys htys ih =>
    obtain ⟨hty, taken, -⟩ := (hone (t :: ts) (Nat.le_refl _) names).of_ok hr
    have hrest := ih (fun u mem => names u (taken.suffix.subset mem)) fun us hus =>
      hone us (Nat.le_succ_of_le (Nat.le_trans hus hlen))
    rw [htys] at hrest
    exact forall_mem_cons.mpr ⟨hty, hrest⟩
  | case6 t ts _ ty rest hr hlen =>
    have fewer := ((hone (t :: ts) (Nat.le_refl _) names).of_ok hr).2.2
    exact absurd (Nat.le_of_lt_succ fewer) hlen

theorem arguments_formed (n : Nat) : ArgumentsFormed v P (arguments v header) n := by
  -- The induction is on a bound for the tokens: arguments are read inside of arguments, from fewer tokens.
  induction n with
  | zero => exact fun _ _ short => absurd short (Nat.not_lt_zero _)
  | succ n ih =>
    intro opened inner short names
    rw [arguments_eq]
    refine (many_formed v names fun ts fewer named => one_formed v header _ named ?_).bind fun tys htys => ?_
    · intro inside deeper lower
      rw [argumentsBelow_of_lt v header (Nat.lt_of_lt_of_le lower fewer)]
      exact ih inside deeper (by omega)
    · split
      · exact trivial
      · exact htys

theorem read_formed (final : Token) (names : Token.Names P toks) :
    Settled (read v header final toks) fun r =>
      Formed v P true r.1 ∧ Token.Takes toks r.2 ∧ r.2.length < toks.length :=
  one_formed v header final names (arguments_formed v header _)

theorem read_settled (final : Token) (toks : List Token) :
    Settled (read v header final toks) fun r => r.1.isComplete = true ∧ Token.Takes toks r.2 :=
  (read_formed v header (P := fun _ => True) final fun _ _ _ => trivial).mono fun _ hr => ⟨hr.1.isComplete, hr.2.1⟩

theorem ofTokens_formed (names : Token.Names P toks) : Settled (ofTokens v header toks) (Formed v P true) := by
  unfold ofTokens
  split
  · exact trivial
  · refine (read_formed v header _ names).bind ?_
    rintro ⟨ty, rest⟩ ⟨hty, -⟩
    exact (Infer.nothingMore_settled .typeExpr rest).bind fun _ _ => hty

theorem ofTokens_settled (toks : List Token) : Settled (ofTokens v header toks) fun ty => ty.isComplete = true :=
  (ofTokens_formed v header (P := fun _ => True) fun _ _ _ => trivial).mono fun _ hty => hty.isComplete

end TypeExpr

end Impulse
