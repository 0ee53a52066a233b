import Impulse.Proofs.Names
import Impulse.Proofs.TokenWeight

/-!
# The text of a type

The text of a type that was read from tokens can be read again as tokens. Names are set off by the signs between them,
and the length of an array stands in a bracket group of its own.
-/

namespace Impulse

open List Text

namespace Lexeme

/-- A name: it begins with a letter or an underscore, goes on with parts of names, and is no keyword. -/
def IsName (s : String) : Prop :=
  ∃ c cs, s.toList = c :: cs ∧ (isLetter c || c == '_') = true ∧ (∀ d ∈ cs, isNamePart d = true) ∧
    Token.keyword? s = none

/-- What can stand in a bracket group as it is: no brackets, no quotes, and no blanks around it. -/
structure IsPlain (s : String) : Prop where
  noBracket : ∀ c ∈ s.toList, c ≠ '[' ∧ c ≠ ']'
  noQuote : ∀ c ∈ s.toList, c ≠ '"' ∧ c ≠ '\''
  trimmed : trim s = s

/-- The text `cs` is read as one token in front of `rest`. -/
def Reads (comments : Bool) (cs rest : List Char) (kind : Token.Kind) (value : String) : Prop :=
  ∃ c cs' lexeme, cs = c :: cs' ∧ isSeparator c = false ∧ read comments c (cs' ++ rest) = .ok lexeme ∧
    lexeme.kind = kind ∧ lexeme.value = value ∧ lexeme.size = cs.length

theorem reads_name (name : IsName s) (apart : ∀ c ∈ rest.head?, isNamePart c = false) :
    Reads comments s.toList rest .ident s := by
  obtain ⟨c, cs, text, first, parts, noKeyword⟩ := name
  have tail : (cs ++ rest).takeWhile isNamePart = cs := by
    rw [List.takeWhile_append_of_pos parts]
    cases rest with
    | nil => simp
    | cons d rest => simp [apart d rfl]
  have shown : word c (cs ++ rest) = { kind := .ident, value := s, size := cs.length + 1 } := by
    have whole : String.ofList (c :: cs) = s := by rw [← text, String.ofList_toList]
    simp only [word, tail, whole, noKeyword]
  have noSeparator : isSeparator c = false := by
    rw [Bool.eq_false_iff]
    intro separator
    simp only [isSeparator, Bool.or_eq_true, beq_iff_eq] at separator
    rcases separator with (rfl | rfl) | rfl <;> cases first
  refine ⟨c, cs, { kind := .ident, value := s, size := cs.length + 1 }, text, noSeparator, ?_, rfl, rfl, ?_⟩
  · rw [(Shape.word first).read, shown]
  · rw [text]
    rfl

theorem isName_of_ident (h : read comments c cs = .ok x)
    (kind : x.kind = .ident) : IsName x.value := by
  obtain ⟨first, rfl⟩ := word_of_ident h kind
  unfold word at kind ⊢
  dsimp only at kind ⊢
  cases keyword : Token.keyword? (String.ofList (c :: cs.takeWhile isNamePart)) with
  | some k =>
    simp only [keyword] at kind
    exact absurd kind (keyword?_kind keyword).1
  | none =>
    refine ⟨c, cs.takeWhile isNamePart, String.toList_ofList .., first, ?_, keyword⟩
    exact List.all_eq_true.mp List.all_takeWhile

theorem reads_symbol {kind : Token.Kind} (known : symbol? c = some kind)
    (noSeparator : isSeparator c = false) : Reads comments [c] rest kind "" :=
  ⟨c, [], _, rfl, noSeparator, (Shape.symbol known).read, rfl, rfl, rfl⟩

theorem groupSize_plain (noBracket : ∀ c ∈ cs, c ≠ '[' ∧ c ≠ ']')
    (noQuote : ∀ c ∈ cs, c ≠ '"' ∧ c ≠ '\'') : groupSize 1 none (cs ++ ']' :: rest) = some (cs.length + 1) := by
  induction cs with
  | nil => simp [groupSize]
  | cons c cs ih =>
    obtain ⟨noOpen, noClose⟩ := noBracket c mem_cons_self
    obtain ⟨noDouble, noSingle⟩ := noQuote c mem_cons_self
    rw [cons_append, groupSize]
    simp [noOpen, noClose, noDouble, noSingle,
      ih (fun d mem => noBracket d (mem_cons_of_mem c mem)) fun d mem => noQuote d (mem_cons_of_mem c mem)]

theorem reads_group (plain : IsPlain s) : Reads comments ('[' :: (s.toList ++ [']'])) rest .number s := by
  have size : groupSize 1 none (s.toList ++ [']'] ++ rest) = some (s.toList.length + 1) := by
    rw [append_assoc]
    exact groupSize_plain plain.noBracket plain.noQuote
  have value : String.ofList (trimChars ((s.toList ++ [']'] ++ rest).take s.toList.length)) = s := by
    rw [append_assoc, take_left]
    exact plain.trimmed
  exact ⟨'[', s.toList ++ [']'], _, rfl, by decide, (Shape.group rfl size).read, rfl, value, by simp⟩

end Lexeme

/-- The tokens that are names are names as they are read from a text. -/
def Token.Named (toks : List Token) : Prop :=
  ∀ t ∈ toks, t.kind = .ident → Lexeme.IsName t.value

theorem Tokens.scan_named (comments : Bool) (file : Nat) (p : Place) (cs : List Char) :
    Token.Named (scan comments file p cs).tokens := by
  fun_induction scan comments file p cs with
  | case1 =>
    intro t mem kind
    obtain rfl := mem_singleton.mp mem
    cases kind
  | case2 => exact forall_mem_nil _
  | case3 p cs blanks p' c rest h lexeme read token ih =>
    exact forall_mem_cons.mpr ⟨fun kind => Lexeme.isName_of_ident read kind, ih⟩

def Token.unit (t : Token) : Token.Kind × String :=
  (t.kind, t.value)

/-- The text is read as tokens of these kinds and values, wherever it stands. -/
def Scans (comments : Bool) (cs : List Char) (units : List (Token.Kind × String)) : Prop :=
  ∀ file p, (Tokens.scan comments file p cs).failure = none ∧
    (Tokens.scan comments file p cs).tokens.map Token.unit = units ++ [(.endOfFile, "")]

namespace Scans

variable {comments : Bool} {cs rest : List Char} {units : List (Token.Kind × String)}

theorem nil : Scans comments [] [] := by
  intro file p
  rw [Tokens.scan]
  exact ⟨rfl, rfl⟩

theorem separator (h : Scans comments cs units) : Scans comments (' ' :: cs) units := by
  intro file p
  have skipped : Tokens.scan comments file p (' ' :: cs) = Tokens.scan comments file (p.next ' ') cs := by
    rw [Tokens.scan, Tokens.scan]
    rfl
  rw [skipped]
  exact h file _

theorem cons (first : Lexeme.Reads comments cs rest kind value)
    (h : Scans comments rest units) : Scans comments (cs ++ rest) ((kind, value) :: units) := by
  obtain ⟨c, cs, lexeme, rfl, noSeparator, read, rfl, rfl, size⟩ := first
  intro file p
  have stays : (c :: (cs ++ rest)).dropWhile isSeparator = c :: (cs ++ rest) := by
    simp [noSeparator]
  have behind : (c :: (cs ++ rest)).drop lexeme.size = rest := by
    rw [size, ← cons_append, drop_left]
  rw [cons_append, Tokens.scan]
  split
  · next none =>
    rw [stays] at none
    cases none
  · next d rest' found =>
    rw [stays] at found
    obtain ⟨rfl, rfl⟩ := List.cons.inj found
    simp only [read, behind]
    obtain ⟨complete, tokens⟩ := h file (((p.after _).after _))
    exact ⟨complete, congrArg (_ :: ·) tokens⟩

end Scans

namespace TypeExpr

/-- A type as it is written: pointer levels, a base with the kinds and the values of its tokens, and the length of an
array. -/
structure Parts where
  levels : Nat
  base : Ty
  inner : List (Token.Kind × String)
  length? : Option String

namespace Parts

def ty (p : Parts) : Ty :=
  p.length?.elim (p.base.pointerTo p.levels) fun length => .array (p.base.pointerTo p.levels) length

def units (p : Parts) : List (Token.Kind × String) :=
  List.replicate p.levels (.caret, "") ++ (p.inner ++ (p.length?.map fun length => (.number, length)).toList)

end Parts

/-- A length that is plain and is read as itself. -/
structure Stays (v : View) (length : String) : Prop where
  plain : Lexeme.IsPlain length
  read : ∀ t : Token, t.value = length → arrayLength v t = .ok length

/-- The bases of types that can be read where no struct is open, with the kinds and the values of their tokens. -/
inductive Base (v : View) : Ty → List (Token.Kind × String) → Prop
  | keyword {name : String} {ty : Ty} (named : Lexeme.IsName name) (known : Ty.ofKeyword? name = some ty)
      (noStruct : v.context.structs.get? name = none) : Base v ty [(.ident, name)]
  | struct {name : String} {d : StructDef} (named : Lexeme.IsName name) (known : v.context.structs.get? name = some d)
      (noGenerics : d.generics.length = 0) : Base v (.named name []) [(.ident, name)]
  | generic {name : String} {d : StructDef} {first : Parts} {more : List Parts} (named : Lexeme.IsName name)
      (known : v.context.structs.get? name = some d) (count : more.length + 1 = d.generics.length)
      (bases : ∀ p ∈ first :: more, Base v p.base p.inner)
      (lengths : ∀ p ∈ first :: more, ∀ length ∈ p.length?, Stays v length) :
      Base v (.named name ((first :: more).map Parts.ty))
        ((.ident, name) :: (.lparen, "") :: ((first :: more).flatMap Parts.units ++ [(.rparen, "")]))
  | enum {name : String} (named : Lexeme.IsName name) (noKeyword : Ty.ofKeyword? name = none)
      (noStruct : v.context.structs.get? name = none) (known : v.context.enums.has name = true) :
      Base v (.named name []) [(.ident, name)]
  | placeholder {name : String} (named : Lexeme.IsName name) :
      Base v (.placeholder name) [(.dollar, ""), (.ident, name)]

/-- No name goes on in the text. -/
def Apart (rest : List Char) : Prop :=
  ∀ c ∈ rest.head?, Lexeme.isNamePart c = false

/-- In front of other text, the type is read as its tokens. -/
def ScansAs (ty : Ty) (units : List (Token.Kind × String)) : Prop :=
  ∀ comments rest following, Apart rest → Scans comments rest following →
    Scans comments (ty.text.toList ++ rest) (units ++ following)

theorem text_of_ofKeyword? (h : Ty.ofKeyword? name = some ty) : ty.text = name := by
  unfold Ty.ofKeyword? at h
  cases found : Primitive.ofKeyword? name with
  | some p =>
    simp only [found] at h
    cases h
    rw [Ty.text]
    simpa using List.find?_some found
  | none =>
    simp only [found] at h
    split at h
    · next word =>
      cases h
      rw [word]
      rfl
    · cases h

theorem scansAs_name (named : Lexeme.IsName name) (text : ty.text = name) : ScansAs ty [(.ident, name)] := by
  intro comments rest following apart scans
  rw [text]
  exact .cons (Lexeme.reads_name named apart) scans

theorem scansAs_placeholder (named : Lexeme.IsName name) :
    ScansAs (.placeholder name) [(.dollar, ""), (.ident, name)] := by
  intro comments rest following apart scans
  have text : (Ty.placeholder name).text.toList ++ rest = ['$'] ++ (name.toList ++ rest) := by
    simp [Ty.text]
  rw [text]
  exact .cons (Lexeme.reads_symbol rfl (by decide)) (.cons (Lexeme.reads_name named apart) scans)

theorem scansAs_pointerTo {units : List (Token.Kind × String)} (h : ScansAs ty units) (levels : Nat) :
    ScansAs (ty.pointerTo levels) (List.replicate levels (.caret, "") ++ units) := by
  induction levels with
  | zero => exact h
  | succ levels ih =>
    intro comments rest following apart scans
    have text : (ty.pointerTo (levels + 1)).text.toList ++ rest =
        ['^'] ++ ((ty.pointerTo levels).text.toList ++ rest) := by
      simp [Ty.pointerTo, Ty.text]
    rw [text, replicate_succ]
    exact .cons (Lexeme.reads_symbol rfl (by decide)) (ih comments rest following apart scans)

theorem scansAs_array (h : ScansAs ty units) {length : String}
    (plain : Lexeme.IsPlain length) : ScansAs (.array ty length) (units ++ [(.number, length)]) := by
  intro comments rest following apart scans
  have text : (Ty.array ty length).text.toList ++ rest =
      ty.text.toList ++ ('[' :: (length.toList ++ [']']) ++ rest) := by
    simp [Ty.text]
  rw [text, append_assoc]
  refine h comments _ _ ?_ (.cons (Lexeme.reads_group plain) scans)
  intro c first
  obtain rfl : '[' = c := by simpa using first
  decide

theorem Parts.scansAs (p : Parts) (base : ScansAs p.base p.inner)
    (plain : ∀ length ∈ p.length?, Lexeme.IsPlain length) :
    ScansAs p.ty p.units := by
  obtain ⟨levels, ty, inner, length?⟩ := p
  cases length? with
  | none => simpa [Parts.ty, Parts.units] using scansAs_pointerTo base levels
  | some length => simpa [Parts.ty, Parts.units] using scansAs_array (scansAs_pointerTo base levels) (plain length rfl)

theorem scans_restText
    {parts : List Parts} (each : ∀ p ∈ parts, ScansAs p.ty p.units) (scans : Scans comments (')' :: rest) following) :
    Scans comments ((Ty.restText (parts.map Parts.ty)).toList ++ ')' :: rest) (parts.flatMap Parts.units ++ following) ∧
      Apart ((Ty.restText (parts.map Parts.ty)).toList ++ ')' :: rest) := by
  induction parts with
  | nil =>
    refine ⟨by simpa [Ty.restText] using scans, ?_⟩
    intro c first
    obtain rfl : ')' = c := by simpa [Ty.restText] using first
    decide
  | cons p parts ih =>
    obtain ⟨further, apart⟩ := ih fun q mem => each q (mem_cons_of_mem p mem)
    have text : (Ty.restText ((p :: parts).map Parts.ty)).toList ++ ')' :: rest =
        ' ' :: (p.ty.text.toList ++ ((Ty.restText (parts.map Parts.ty)).toList ++ ')' :: rest)) := by
      simp [Ty.restText]
    rw [text, flatMap_cons, append_assoc]
    refine ⟨(each p mem_cons_self comments _ _ apart further).separator, ?_⟩
    intro c first
    obtain rfl : ' ' = c := by simpa using first
    decide

theorem scansAs_generic (named : Lexeme.IsName name) {more : List Parts}
    (each : ∀ p ∈ first :: more, ScansAs p.ty p.units) : ScansAs (.named name ((first :: more).map Parts.ty))
      ((.ident, name) :: (.lparen, "") :: ((first :: more).flatMap Parts.units ++ [(.rparen, "")])) := by
  intro comments rest following apart scans
  have closed : Scans comments (')' :: rest) ((.rparen, "") :: following) :=
    @Scans.cons comments [')'] rest following .rparen "" (Lexeme.reads_symbol rfl (by decide)) scans
  obtain ⟨further, apartMore⟩ := scans_restText (fun p mem => each p (mem_cons_of_mem first mem)) closed
  have text : (Ty.named name ((first :: more).map Parts.ty)).text.toList ++ rest = name.toList ++ (['('] ++
      (first.ty.text.toList ++ ((Ty.restText (more.map Parts.ty)).toList ++ ')' :: rest))) := by
    simp [Ty.text]
  have units :
      ((.ident, name) :: (.lparen, "") :: ((first :: more).flatMap Parts.units ++ [(.rparen, "")])) ++ following =
      (Token.Kind.ident, name) :: (.lparen, "") ::
        (first.units ++ (more.flatMap Parts.units ++ (.rparen, "") :: following)) := by
    simp
  rw [text, units]
  refine .cons (Lexeme.reads_name named ?_) (.cons (Lexeme.reads_symbol rfl (by decide)) ?_)
  · intro c first
    obtain rfl : '(' = c := by simpa using first
    decide
  · exact each first mem_cons_self comments _ _ apartMore further

theorem Base.scansAs (h : Base v ty units) :
    ScansAs ty units := by
  induction h with
  | keyword named known noStruct => exact scansAs_name named (text_of_ofKeyword? known)
  | struct named known noGenerics | enum named noKeyword noStruct known => exact scansAs_name named (by rw [Ty.text])
  | generic named known count bases lengths ih =>
    exact scansAs_generic named fun p mem => p.scansAs (ih p mem) fun length here => (lengths p mem length here).plain
  | placeholder named => exact scansAs_placeholder named

end TypeExpr

end Impulse
