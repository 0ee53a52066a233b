import Impulse.Proofs.ConstantValues
import Impulse.Proofs.TypeText

/-!
# Types read again

The type that tokens of a header stand for is written as a text, the text is read as tokens, and these tokens stand for
the same type. Commas between generic arguments are dropped on the way, a variable that holds a type becomes a
placeholder, and a constant whose value is known becomes its value; none of this happens a second time.
-/

namespace Impulse

open List Text

variable {s length : String} {parts : List Parts} {p : Parts}

namespace Text

theorem trim_trim (s : String) : trim (trim s) = trim s := by
  unfold trim
  rw [String.toList_ofList, (tight_trimChars s.toList).trimChars]

theorem isBlank_of_isAsciiDigit (h : isAsciiDigit c = true) : isBlank c = false := by
  have high : c ≤ '9' := of_decide_eq_true (Bool.and_eq_true_iff.mp h).2
  have ascii : c.toNat < 128 := Nat.lt_of_le_of_lt (show c.toNat ≤ '9'.toNat from high) (by decide)
  refine isBlank_of_isDigit ?_
  rw [isDigit, if_pos ascii]
  exact h

theorem mem_isNumberTail (h : isNumberTail point cs = true) :
    ∀ c ∈ cs, isAsciiDigit c = true ∨ c = '.' := by
  induction cs generalizing point with
  | nil => simp
  | cons c cs ih =>
    rw [isNumberTail] at h
    split at h
    · next digit => exact forall_mem_cons.mpr ⟨.inl digit, ih h⟩
    · simp only [Bool.and_eq_true, beq_iff_eq] at h
      exact forall_mem_cons.mpr ⟨.inr h.1.1, ih h.2⟩

theorem mem_isNumber (h : isNumber s = true) : ∀ c ∈ s.toList, isAsciiDigit c = true ∨ c = '.' := by
  unfold isNumber at h
  cases text : s.toList with
  | nil => simp
  | cons c cs =>
    simp only [text, Bool.and_eq_true] at h
    exact forall_mem_cons.mpr ⟨.inl h.1, mem_isNumberTail h.2⟩

theorem isPlain_of_isNumber (h : isNumber s = true) : Lexeme.IsPlain s := by
  have chars := mem_isNumber h
  have noBlank : ∀ c ∈ s.toList, isBlank c = false := by
    intro c mem
    rcases chars c mem with digit | rfl
    · exact isBlank_of_isAsciiDigit digit
    · decide
  refine ⟨fun c mem => ?_, fun c mem => ?_, ?_⟩
  · rcases chars c mem with digit | rfl
    · constructor <;> rintro rfl <;> cases digit
    · decide
  · rcases chars c mem with digit | rfl
    · constructor <;> rintro rfl <;> cases digit
    · decide
  · have tight : Tight s.toList := ⟨fun c first => noBlank c (mem_of_mem_head? first),
      fun c last => noBlank c (mem_of_getLast? last)⟩
    rw [trim, tight.trimChars, String.ofList_toList]

end Text

mutual

def Ty.lengths : Ty → List String
  | .absent => []
  | .prim _ => []
  | .pointer elem => elem.lengths
  | .array elem length => length :: elem.lengths
  | .named _ args => Ty.allLengths args
  | .placeholder _ => []
  | .view base _ => base.lengths

def Ty.allLengths : List Ty → List String
  | [] => []
  | ty :: tys => ty.lengths ++ Ty.allLengths tys

end

theorem Ty.lengths_pointerTo (ty : Ty) (levels : Nat) : (ty.pointerTo levels).lengths = ty.lengths := by
  induction levels with
  | zero => rfl
  | succ levels ih => rw [Ty.pointerTo, Ty.lengths, ih]

theorem Ty.allLengths_eq (tys : List Ty) : Ty.allLengths tys = tys.flatMap Ty.lengths := by
  induction tys with
  | nil => rw [Ty.allLengths, flatMap_nil]
  | cons ty tys ih => rw [Ty.allLengths, flatMap_cons, ih]

/-- What is needed of the variables that can be array lengths: their names are paths, and the known values of integer
constants are numbers or have a sign in front. -/
structure View.Spelled (v : View) : Prop where
  names : ∀ name x, v.context.resolve? v.scope name = some x →
    ∀ c ∈ name.toList, Lexeme.isNamePart c = true ∨ c = '-' ∨ c = '>'
  values : ∀ name x, v.context.resolve? v.scope name = some x → x.const = true → x.ty.isInteger = true →
    IsValue x.value

namespace TypeExpr

variable {v : View}

theorem stays_of_isNumber (number : isNumber length = true) : Stays v length where
  plain := isPlain_of_isNumber number
  read t value := by
    rw [arrayLength, value, (isPlain_of_isNumber number).trimmed]
    exact if_pos (by simp [number])

theorem isPlain_of_resolve? (spelled : v.Spelled)
    (found : v.context.resolve? v.scope name = some x) (trimmed : trim name = name) : Lexeme.IsPlain name := by
  have chars := spelled.names name x found
  refine ⟨fun c mem => ?_, fun c mem => ?_, trimmed⟩ <;>
  · rcases chars c mem with part | rfl | rfl
    · constructor <;> rintro rfl <;> cases part
    · decide
    · decide

theorem arrayLength_written (spelled : v.Spelled) (read : arrayLength v t = .ok length)
    (unsigned : length.toList.head? ≠ some '-') : Stays v length := by
  have trimmed := trim_trim t.value
  unfold arrayLength at read
  dsimp only at read
  generalize trim t.value = raw at read trimmed
  split at read
  · next written =>
    obtain rfl := Except.ok.inj read
    rcases Bool.or_eq_true_iff.mp written with empty | number
    · obtain rfl : raw = "" := of_decide_eq_true empty
      exact ⟨⟨by simp, by simp, by decide⟩, fun u value => by rw [arrayLength, value]; rfl⟩
    · exact stays_of_isNumber number
  · next written =>
    cases found : v.context.resolve? v.scope raw with
    | none =>
      simp only [found] at read
      cases read
    | some x =>
      simp only [found] at read
      split at read
      · cases read
      · next constant =>
        obtain ⟨const, integer⟩ : x.const = true ∧ x.ty.isInteger = true := by simpa using constant
        -- Without a known value the name is kept, and is looked up again; a known value is kept as a number.
        by_cases unknown : x.value = ""
        · obtain rfl : raw = length := by simpa [unknown] using read
          refine ⟨isPlain_of_resolve? spelled found trimmed, fun u value => ?_⟩
          rw [arrayLength, value, trimmed, if_neg written]
          simp only [found, if_neg constant, if_pos unknown]
        · obtain rfl : x.value = length := by simpa [unknown] using read
          rcases spelled.values raw x found const integer with empty | number | sign
          · exact absurd empty unknown
          · exact stays_of_isNumber number
          · exact absurd sign unsigned

section Steps

theorem one_carets (levels : ∀ t ∈ carets, t.kind = .caret) (other : t.kind ≠ .caret)
    (ts : List Token) : one v header args final (carets ++ t :: ts) =
      (baseAt v header args final (t :: ts)).bind fun r => withLength v (r.1.pointerTo carets.length) r.2 := by
  have counted : (carets ++ t :: ts).takeWhile (fun t => decide (t.kind = .caret)) = carets := by
    rw [takeWhile_append_of_pos (by simpa using levels)]
    simp [other]
  rw [one_eq, counted, drop_left]

theorem named_struct (outside : v.self? = none)
    (struct : v.context.structs.get? t.value = some d) (toks : List Token) : named v args t toks =
      (structArguments args toks).bind fun r => if r.1.length ≠ d.generics.length then
          .error (.problem t (.type (.argumentCount t.value d.generics.length r.1.length)))
        else .ok (.named t.value r.1, r.2) := by
  cases keyword : Ty.ofKeyword? t.value <;> simp only [named, outside, struct, keyword, Option.filter_none] <;> rfl

end Steps

def Written (v : View) (ty : Ty) : Prop :=
  ∃ p : Parts, p.ty = ty ∧ Base v p.base p.inner ∧ ∀ length ∈ p.length?, Stays v length

/-- No length in the type begins with a sign. -/
def Unsigned (ty : Ty) : Prop :=
  ∀ length ∈ ty.lengths, length.toList.head? ≠ some '-'

theorem Unsigned.of_named (h : Unsigned (.named name tys)) : ∀ ty ∈ tys, Unsigned ty := by
  intro ty mem length here
  refine h length ?_
  rw [Ty.lengths, Ty.allLengths_eq]
  exact mem_flatMap.mpr ⟨ty, mem, here⟩

theorem exists_parts (h : ∀ ty ∈ tys, Written v ty) : ∃ parts : List Parts, parts.map Parts.ty = tys ∧
    (∀ p ∈ parts, Base v p.base p.inner) ∧ ∀ p ∈ parts, ∀ length ∈ p.length?, Stays v length := by
  induction tys with
  | nil => exact ⟨[], rfl, by simp, by simp⟩
  | cons ty tys ih =>
    obtain ⟨first, rest⟩ := forall_mem_cons.mp h
    obtain ⟨p, rfl, base, length⟩ := first
    obtain ⟨parts, rfl, bases, lengths⟩ := ih rest
    exact ⟨p :: parts, rfl, forall_mem_cons.mpr ⟨base, bases⟩, forall_mem_cons.mpr ⟨length, lengths⟩⟩

theorem base_of_arguments (named : Lexeme.IsName name)
    (known : v.context.structs.get? name = some d) (count : tys.length = d.generics.length)
    (written : ∀ ty ∈ tys, Written v ty) : ∃ units, Base v (.named name tys) units := by
  obtain ⟨parts, rfl, bases, lengths⟩ := exists_parts written
  rw [length_map] at count
  cases parts with
  | nil => exact ⟨_, .struct named known count.symm⟩
  | cons first more => exact ⟨_, .generic named known count bases lengths⟩

/-- A base can be written as tokens, and a whole type with the lengths in it. -/
theorem Formed.written (spelled : v.Spelled) (outside : v.self? = none)
    (h : Formed v Lexeme.IsName whole ty) (unsigned : Unsigned ty) :
    if whole then Written v ty else ∃ units, Base v ty units := by
  induction h with
  | keyword name keyword noStruct => exact ⟨_, .keyword name keyword noStruct⟩
  | self inBody => cases outside.symm.trans inBody
  | struct name known count each ih =>
    exact base_of_arguments name known count fun ty mem => ih ty mem (unsigned.of_named ty mem)
  | enum name noKeyword noStruct known => exact ⟨_, .enum name noKeyword noStruct known⟩
  | placeholder name => exact ⟨_, .placeholder name⟩
  | pointer levels h ih =>
    obtain ⟨units, base⟩ := ih fun length mem => unsigned length (by rwa [Ty.lengths_pointerTo])
    exact ⟨⟨levels, _, units, none⟩, rfl, base, by simp⟩
  | array levels h sized ih =>
    obtain ⟨units, base⟩ := ih fun length mem => unsigned length (by
      rw [Ty.lengths, Ty.lengths_pointerTo]
      exact mem_cons_of_mem _ mem)
    have stays := arrayLength_written spelled sized (unsigned _ (by simp [Ty.lengths]))
    exact ⟨⟨levels, _, units, some _⟩, rfl, base, by simpa using stays⟩

/-- Parentheses in the tokens are closed, so that a group which is open before them stays open. -/
def Balanced (units : List (Token.Kind × String)) : Prop :=
  ∀ (toks following : List Token) (depth : Nat), toks.map Token.unit = units →
    Token.untilClose depth (toks ++ following) = (Token.untilClose depth following).map fun r => (toks ++ r.1, r.2)

namespace Balanced

theorem nil : Balanced [] := by
  intro toks following depth shown
  obtain rfl := map_eq_nil_iff.mp shown
  exact Option.map_id'.symm

theorem append (front : Balanced units) (back : Balanced more) : Balanced (units ++ more) := by
  intro toks following depth shown
  obtain ⟨xs, ys, rfl, first, second⟩ := map_eq_append_iff.mp shown
  rw [append_assoc, front xs _ depth first, back ys following depth second, Option.map_map]
  simp only [Function.comp_def, append_assoc]

theorem single (noOpen : kind ≠ .lparen) (noClose : kind ≠ .rparen) : Balanced [(kind, value)] := by
  intro toks following depth shown
  obtain ⟨t, rfl, only⟩ := map_eq_singleton_iff.mp shown
  obtain ⟨rfl, -⟩ := Prod.mk.inj only
  rw [singleton_append, Token.untilClose.eq_def]
  simp only [if_neg noOpen, if_neg noClose]
  rfl

theorem flatMap (each : ∀ p ∈ parts, Balanced p.units) : Balanced (parts.flatMap Parts.units) := by
  induction parts with
  | nil => exact nil
  | cons p parts ih =>
    rw [flatMap_cons]
    exact (each p mem_cons_self).append (ih fun q mem => each q (mem_cons_of_mem p mem))

theorem group (inner : Balanced units) : Balanced ((.lparen, value) :: (units ++ [(.rparen, value)])) := by
  intro toks following depth shown
  obtain ⟨l, rest, rfl, opens, between⟩ := map_eq_cons_iff.mp shown
  obtain ⟨xs, last, rfl, inside, closed⟩ := map_eq_append_iff.mp between
  obtain ⟨r, rfl, closes⟩ := map_eq_singleton_iff.mp closed
  obtain ⟨opening, -⟩ := Prod.mk.inj opens
  obtain ⟨closing, -⟩ := Prod.mk.inj closes
  have closed : Token.untilClose (depth + 1) (r :: following) =
      (Token.untilClose depth following).map (Token.consFst r) := by
    rw [Token.untilClose.eq_def]
    simp only [if_pos closing]
  have whole : l :: (xs ++ [r]) ++ following = l :: (xs ++ r :: following) := by simp
  rw [whole, Token.untilClose.eq_def]
  simp only [opening, inner xs (r :: following) (depth + 1) inside, closed, Option.map_map]
  cases Token.untilClose depth following <;> simp [Token.consFst]

end Balanced

theorem Parts.balanced (p : Parts) (base : Balanced p.inner) : Balanced p.units := by
  refine .append ?_ (base.append ?_)
  · generalize p.levels = levels
    induction levels with
    | zero => exact .nil
    | succ levels ih => exact .append (.single (by decide) (by decide)) ih
  · cases p.length? with
    | none => exact .nil
    | some length => exact .single (by decide) (by decide)

theorem Base.balanced (h : Base v ty units) : Balanced units := by
  induction h with
  | keyword | struct | enum => exact .single (by decide) (by decide)
  | generic named known count bases lengths ih =>
    exact .append (.single (by decide) (by decide)) (.group (.flatMap fun p mem => p.balanced (ih p mem)))
  | placeholder named => exact .append (.single (by decide) (by decide)) (.single (by decide) (by decide))

/-- The kinds of tokens that a type begins with. -/
def Begins (kind : Token.Kind) : Prop :=
  kind = .caret ∨ kind = .dollar ∨ kind = .ident

theorem Base.begins (h : Base v ty units) :
    ∃ unit more, units = unit :: more ∧ (unit.1 = .dollar ∨ unit.1 = .ident) := by
  cases h with
  | keyword | struct | enum | generic => exact ⟨_, _, rfl, .inr rfl⟩
  | placeholder => exact ⟨_, _, rfl, .inl rfl⟩

theorem Parts.begins (p : Parts) (base : Base v p.base p.inner) :
    ∃ unit more, p.units = unit :: more ∧ Begins unit.1 := by
  unfold Parts.units
  cases p.levels with
  | zero =>
    obtain ⟨unit, more, first, kind⟩ := base.begins
    rw [first]
    exact ⟨unit, _, rfl, .inr kind⟩
  | succ levels => exact ⟨_, _, rfl, .inl rfl⟩

/-- A type in front of the tokens does not go on with them. -/
def Ends (rest : List Token) : Prop :=
  ∀ t ∈ rest.head?, t.kind ≠ .lparen ∧ t.kind ≠ .number

/-- Arguments are read as they are where there are fewer than `n` tokens. -/
def ReadsBelow (v : View) (args : Token → List Token → Except Stop (List Ty)) (n : Nat) : Prop :=
  ∀ opened inner, inner.length < n → args opened inner = arguments v true opened inner

/-- The tokens of the base are read as the base, whatever follows. -/
def BaseRead (v : View) (ty : Ty) (units : List (Token.Kind × String)) : Prop :=
  ∀ (t : Token) (ts rest : List Token) (args : Token → List Token → Except Stop (List Ty)) (final : Token),
    (t :: ts).map Token.unit = units → (∀ u ∈ rest.head?, u.kind ≠ .lparen) → ReadsBelow v args ts.length →
      baseAt v true args final (t :: (ts ++ rest)) = .ok (ty, rest)

/-- The tokens of the type are read as the type, whatever follows. -/
def PartsRead (v : View) (p : Parts) : Prop :=
  ∀ (toks rest : List Token) (args : Token → List Token → Except Stop (List Ty)) (final : Token),
    toks.map Token.unit = p.units → Ends rest → ReadsBelow v args toks.length →
      one v true args final (toks ++ rest) = .ok (p.ty, rest)

theorem withLength_of_ends (ends : Ends rest) : withLength v ty rest = .ok (ty, rest) := by
  cases rest with
  | nil => rfl
  | cons t ts =>
    simp only [withLength, List.head?_cons, Option.elim_some]
    rw [if_neg (ends t rfl).2]

theorem withLength_number (stays : Stays v length) (shown : t.unit = (.number, length)) (rest : List Token) :
    withLength v ty (t :: rest) = .ok (.array ty length, rest) := by
  obtain ⟨number, value⟩ := Prod.mk.inj shown
  simp only [withLength, List.head?_cons, Option.elim_some]
  rw [if_pos number, stays.read t value]
  rfl

theorem Parts.read (p : Parts) (base : Base v p.base p.inner) (read : BaseRead v p.base p.inner)
    (stays : ∀ length ∈ p.length?, Stays v length) : PartsRead v p := by
  obtain ⟨levels, ty, inner, length?⟩ := p
  intro toks rest args final shown ends below
  obtain ⟨carets, more, rfl, front, back⟩ := map_eq_append_iff.mp shown
  obtain ⟨body, last, rfl, middle, behind⟩ := map_eq_append_iff.mp back
  obtain ⟨counted, alike⟩ := eq_replicate_iff.mp front
  rw [length_map] at counted
  have kinds : ∀ t ∈ carets, t.kind = .caret := by
    intro t mem
    exact congrArg Prod.fst (alike t.unit (mem_map_of_mem mem))
  obtain ⟨unit, units, first, kind⟩ := base.begins
  obtain ⟨t, ts, rfl, head, -⟩ := map_eq_cons_iff.mp (middle.trans first)
  have other : t.kind ≠ .caret := by
    have same : t.kind = unit.1 := congrArg Prod.fst head
    rw [same]
    rcases kind with kind | kind <;> rw [kind] <;> decide
  have split : carets ++ (t :: ts ++ last) ++ rest = carets ++ t :: (ts ++ (last ++ rest)) := by simp
  have fewer : ReadsBelow v args ts.length := by
    intro opened inner short
    refine below opened inner (Nat.lt_of_lt_of_le short ?_)
    simp only [length_append, length_cons]
    omega
  -- Behind the base stands its length or what follows the type; neither opens arguments.
  have found : baseAt v true args final (t :: (ts ++ (last ++ rest))) = .ok (ty, last ++ rest) := by
    refine read t ts (last ++ rest) args final middle ?_ fewer
    cases length? with
    | none =>
      obtain rfl := map_eq_nil_iff.mp behind
      exact fun u mem => (ends u mem).1
    | some length =>
      obtain ⟨n, rfl, number⟩ := map_eq_singleton_iff.mp behind
      obtain ⟨number, -⟩ := Prod.mk.inj number
      simp [number]
  rw [split, one_carets kinds other, found, counted]
  cases length? with
  | none =>
    obtain rfl := map_eq_nil_iff.mp behind
    exact withLength_of_ends ends
  | some length =>
    obtain ⟨n, rfl, number⟩ := map_eq_singleton_iff.mp behind
    exact withLength_number (stays length rfl) number rest

theorem many_cons {one : List Token → Except Stop (Ty × List Token)}
    (kind : t.kind ≠ .comma) (first : one (t :: ts) = .ok (ty, rest))
    (shorter : rest.length ≤ ts.length) (others : many one rest = .ok tys) : many one (t :: ts) = .ok (ty :: tys) := by
  rw [many, if_neg kind]
  simp only [first, shorter, others]
  rfl

theorem many_parts (bases : ∀ p ∈ parts, Base v p.base p.inner) (each : ∀ p ∈ parts, PartsRead v p)
    (shown : toks.map Token.unit = parts.flatMap Parts.units) (below : ReadsBelow v args toks.length) (final : Token) :
    many (one v true args final) toks = .ok (parts.map Parts.ty) ∧ Ends toks := by
  induction parts generalizing toks with
  | nil =>
    obtain rfl := map_eq_nil_iff.mp shown
    rw [many]
    exact ⟨rfl, by simp [Ends]⟩
  | cons p parts ih =>
    rw [flatMap_cons] at shown
    obtain ⟨front, rest, rfl, first, others⟩ := map_eq_append_iff.mp shown
    -- What the next type begins with goes on with no type, so the first one ends in front of it.
    obtain ⟨more, ends⟩ := ih (fun q mem => bases q (mem_cons_of_mem p mem))
      (fun q mem => each q (mem_cons_of_mem p mem)) others
      fun opened inner short => below opened inner (by rw [length_append]; omega)
    have read := each p mem_cons_self front rest args final first ends
      fun opened inner short => below opened inner (by rw [length_append]; omega)
    obtain ⟨unit, units, begins, kind⟩ := p.begins (bases p mem_cons_self)
    obtain ⟨t, ts, rfl, head, -⟩ := map_eq_cons_iff.mp (first.trans begins)
    have kind : Begins t.kind := by
      have same : t.kind = unit.1 := congrArg Prod.fst head
      rwa [same]
    refine ⟨many_cons ?_ read (by simp) more, ?_⟩
    · rcases kind with kind | kind | kind <;> rw [kind] <;> decide
    · intro u mem
      obtain rfl : t = u := by simpa using mem
      rcases kind with kind | kind | kind <;> rw [kind] <;> decide

theorem arguments_parts (bases : ∀ p ∈ first :: more, Base v p.base p.inner)
    (each : ∀ p ∈ first :: more, PartsRead v p) (shown : toks.map Token.unit = (first :: more).flatMap Parts.units)
    (opened : Token) : arguments v true opened toks = .ok ((first :: more).map Parts.ty) := by
  rw [arguments_eq, (many_parts bases each shown (fun opened inner => argumentsBelow_of_lt v true) _).1]
  rfl

theorem structArguments_nil
    (other : ∀ u ∈ rest.head?, u.kind ≠ .lparen) : structArguments args rest = .ok ([], rest) := by
  cases rest with
  | nil => rfl
  | cons t ts =>
    rw [structArguments]
    exact if_neg (other t rfl)

theorem structArguments_group {inner : List Token} {l r : Token} (opening : l.kind = .lparen)
    (closing : r.kind = .rparen) (balanced : Balanced (inner.map Token.unit)) (read : args l inner = .ok tys) :
    structArguments args (l :: (inner ++ r :: rest)) = .ok (tys, rest) := by
  have closed : Infer.closing l (inner ++ r :: rest) = .ok (inner, rest) := by
    have last : Token.untilClose 0 (r :: rest) = some ([], rest) := by
      rw [Token.untilClose.eq_def]
      exact if_pos closing
    have whole := balanced inner (r :: rest) 0 rfl
    rw [last, Option.map_some, append_nil] at whole
    simp only [Infer.closing, whole]
  rw [structArguments, if_pos opening, closed]
  change (args l inner).bind _ = _
  rw [read]
  rfl

theorem baseAt_ident (ident : t.kind = .ident)
    (final : Token) (ts : List Token) : baseAt v true args final (t :: ts) = named v args t ts := by
  simp [baseAt, ident]

theorem baseRead_name
    (known : ∀ (args : Token → List Token → Except Stop (List Ty)) (t : Token) (rest : List Token), t.value = name →
      (∀ u ∈ rest.head?, u.kind ≠ .lparen) → named v args t rest = .ok (ty, rest)) :
    BaseRead v ty [(.ident, name)] := by
  intro t ts rest args final shown other _
  obtain ⟨only, none⟩ := List.cons.inj shown
  obtain ⟨ident, value⟩ := Prod.mk.inj only
  obtain rfl := map_eq_nil_iff.mp none
  rw [baseAt_ident ident]
  exact known args t rest value other

theorem Base.read (outside : v.self? = none) {ty : Ty} (h : Base v ty units) :
    BaseRead v ty units := by
  induction h with
  | keyword isName known noStruct =>
    refine baseRead_name ?_
    rintro args t rest rfl -
    simp only [named, known, noStruct]
  | struct isName known noGenerics =>
    refine baseRead_name ?_
    rintro args t rest rfl other
    rw [named_struct outside known, structArguments_nil other]
    exact if_neg (by simp [noGenerics])
  | @generic name d first more isName known count bases lengths ih =>
    intro t ts rest args final shown _ below
    obtain ⟨only, others⟩ := List.cons.inj shown
    obtain ⟨ident, rfl⟩ := Prod.mk.inj only
    obtain ⟨l, behind, rfl, opens, between⟩ := map_eq_cons_iff.mp others
    obtain ⟨inner, last, rfl, inside, closed⟩ := map_eq_append_iff.mp between
    obtain ⟨r, rfl, closes⟩ := map_eq_singleton_iff.mp closed
    have each : ∀ p ∈ first :: more, PartsRead v p := fun p mem => p.read (bases p mem) (ih p mem) (lengths p mem)
    have shorter : inner.length < (l :: (inner ++ [r])).length := by
      simp only [length_cons, length_append, length_nil]
      omega
    have read : args l inner = .ok _ := (below l inner shorter).trans (arguments_parts bases each inside l)
    -- The group is closed behind the last argument, since the arguments close what they open.
    have balanced : Balanced (inner.map Token.unit) := by
      rw [inside]
      exact .flatMap fun p mem => p.balanced (bases p mem).balanced
    have whole : l :: (inner ++ [r]) ++ rest = l :: (inner ++ r :: rest) := by simp
    rw [baseAt_ident ident, named_struct outside known, whole,
      structArguments_group (Prod.mk.inj opens).1 (Prod.mk.inj closes).1 balanced read]
    exact if_neg (by simp [count])
  | enum isName noKeyword noStruct known =>
    refine baseRead_name ?_
    rintro args t rest rfl -
    simp only [named, outside, noKeyword, noStruct, Option.filter_none, if_pos known]
  | placeholder isName =>
    intro t ts rest args final shown _ _
    obtain ⟨sign, others⟩ := List.cons.inj shown
    obtain ⟨dollar, -⟩ := Prod.mk.inj sign
    obtain ⟨n, rfl, name⟩ := map_eq_singleton_iff.mp others
    obtain ⟨ident, rfl⟩ := Prod.mk.inj name
    simp only [baseAt, List.head?_cons, Option.elim_some, tail_cons, if_pos dollar, singleton_append,
      Infer.expect, if_pos ident]
    rfl

theorem ofTokens_parts (outside : v.self? = none) (base : Base v p.base p.inner)
    (length : ∀ length ∈ p.length?, Stays v length) (shown : toks.map Token.unit = p.units) :
    ofTokens v true toks = .ok p.ty := by
  have read := p.read base (base.read outside) length toks [] (arguments v true) (toks.getLastD v.last) shown
    (by simp [Ends]) fun _ _ _ => rfl
  rw [append_nil] at read
  obtain ⟨unit, more, begins, -⟩ := p.begins base
  rw [begins] at shown
  obtain ⟨t, ts, rfl, -, -⟩ := map_eq_cons_iff.mp shown
  rw [ofTokens, if_neg (by simp), TypeExpr.read, read]
  rfl

theorem tokenize_parts (base : Base v p.base p.inner) (length : ∀ length ∈ p.length?, Stays v length)
    (comments : Bool) (file : Nat) : (tokenize comments file p.ty.text).failure = none ∧
      (tokenize comments file p.ty.text).tokens.map Token.unit = p.units ++ [(.endOfFile, "")] := by
  have scans := p.scansAs base.scansAs (fun _ mem => (length _ mem).plain) comments [] [] (by simp [Apart]) .nil
  rw [append_nil, append_nil] at scans
  exact scans file Place.start

/-- A type that is read from the header of a function, where no record is open, is written as a text that is read as the
same type. -/
theorem ofTokens_text (spelled : v.Spelled) (outside : v.self? = none) {toks : List Token} (names : Token.Named toks)
    {ty : Ty} (read : ofTokens v true toks = .ok ty) (unsigned : ∀ length ∈ ty.lengths, length.toList.head? ≠ some '-')
    (comments : Bool) (file : Nat) :
    ∃ again final, (tokenize comments file ty.text).failure = none ∧
      (tokenize comments file ty.text).tokens = again ++ [final] ∧ final.kind = .endOfFile ∧
      ofTokens v true again = .ok ty ∧ ty.same ty = true := by
  obtain ⟨p, rfl, base, length⟩ := ((ofTokens_formed v true names).of_ok read).written spelled outside unsigned
  obtain ⟨complete, tokens⟩ := tokenize_parts base length comments file
  obtain ⟨again, last, split, units, eof⟩ := map_eq_append_iff.mp tokens
  obtain ⟨final, rfl, kind⟩ := map_eq_singleton_iff.mp eof
  refine ⟨again, final, complete, split, (Prod.mk.inj kind).1, ofTokens_parts outside base length units, ?_⟩
  exact Ty.same_self ((ofTokens_settled v true toks).of_ok read)

/-- A view in which a struct with two parameters, an enum, two constants and a variable that holds a type are known. -/
def headerView : View where
  settings := {}
  context := {
    structs := ⟨[⟨"pair", { name := "pair", generics := ["A", "B"] }, "main.imp"⟩]⟩
    enums := ⟨[⟨"color", { name := "color", fields := ["red"] }, "main.imp"⟩]⟩
    globals := ⟨[⟨"N", { name := "N", ty := .int, const := true, value := "4" }, "main.imp"⟩,
      ⟨"M", { name := "M", ty := .int, const := true }, "main.imp"⟩,
      ⟨"T", { name := "T", ty := .typeid }, "main.imp"⟩]⟩ }
  scope := { top := { kind := .global } }
  last := default

theorem headerView_spelled : headerView.Spelled := by
  have known : ∀ name x, headerView.context.resolve? headerView.scope name = some x →
      ∃ e ∈ headerView.context.globals.entries, e.name = name ∧ e.item = x := by
    intro name x found
    change headerView.context.globals.get? name = some x at found
    obtain ⟨e, entry, item⟩ := Option.map_eq_some_iff.mp found
    unfold Table.find? at entry
    exact ⟨e, mem_of_find?_eq_some entry, by simpa using List.find?_some entry, item⟩
  have names : (headerView.context.globals.entries.all fun e => e.name.toList.all Lexeme.isNamePart) = true := by
    decide
  have values : (headerView.context.globals.entries.all fun e =>
      e.item.value == "" || isNumber e.item.value) = true := by
    decide
  constructor
  · intro name x found c mem
    obtain ⟨e, entry, rfl, -⟩ := known name x found
    exact .inl (all_eq_true.mp (all_eq_true.mp names e entry) c mem)
  · intro name x found _ _
    obtain ⟨e, entry, -, rfl⟩ := known name x found
    have value := all_eq_true.mp values e entry
    simp only [Bool.or_eq_true, beq_iff_eq] at value
    exact value.imp_right .inl

/-- A comma is dropped, a constant becomes its value, and a variable that holds a type becomes a placeholder. -/
theorem ofTokens_text_nested :
    let toks := (tokenize false 0 "^pair(^int[N], pair(T, color[ M ]))[3]").tokens.dropLast
    ∃ ty, ofTokens headerView true toks = .ok ty ∧ ty.text = "^pair(^int[4] pair($T color[M]))[3]" ∧
      ∃ again final, (tokenize true 1 ty.text).failure = none ∧
        (tokenize true 1 ty.text).tokens = again ++ [final] ∧ final.kind = .endOfFile ∧
        ofTokens headerView true again = .ok ty ∧ ty.same ty = true := by
  intro toks
  have names : Token.Named toks := fun t mem => Tokens.scan_named false 0 _ _ t ((dropLast_subset _) mem)
  have shown : ((ofTokens headerView true toks).toOption.map fun ty => (ty.text, ty.lengths)) =
      some ("^pair(^int[4] pair($T color[M]))[3]", ["3", "4", "M"]) := by
    decide +kernel
  cases read : ofTokens headerView true toks with
  | error e =>
    rw [read] at shown
    cases shown
  | ok ty =>
    rw [read] at shown
    obtain ⟨text, lengths⟩ := Prod.mk.inj (Option.some.inj shown)
    have noSign : (ty.lengths.all fun length => length.toList.head? != some '-') = true := by
      rw [lengths]
      decide
    have unsigned : ∀ length ∈ ty.lengths, length.toList.head? ≠ some '-' :=
      fun length mem => bne_iff_ne.mp (all_eq_true.mp noSign length mem)
    exact ⟨ty, rfl, text, ofTokens_text headerView_spelled rfl names read unsigned true 1⟩

end TypeExpr

end Impulse
