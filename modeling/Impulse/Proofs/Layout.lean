import Impulse.Proofs.SinglePass
import Impulse.Proofs.Switches

/-!
# Layout does not matter

Two texts of the main file that differ in blanks, line ends and comments only are read to the same end: both are
accepted with the same entries and the same context, or both are refused with the same message. What differs is where
tokens stand, and nothing that is decided depends on it.
-/

namespace Impulse

open List

def Token.unplaced (t : Token) : Token :=
  { t with line := 0, column := 0, length := 0 }

def Node.unplaced (n : Node) : Node :=
  n.fold .absent fun t => .node t.unplaced

def Entry.unplaced (e : Entry) : Entry :=
  { node := e.node.unplaced, file := e.file, line := 0 }

def Notice.unplaced (n : Notice) : Notice :=
  { n with token := n.token.unplaced }

def Stop.unplaced : Stop → Stop
  | problem t p => problem t.unplaced p
  | fault f => fault f

/-- The kinds and texts of the tokens that are neither comments nor line ends. -/
def Token.words (toks : List Token) : List (Token.Kind × String) :=
  (toks.filter fun t => !t.isTrivia).map fun t => (t.kind, t.value)

/-- Tokens of one file that differ in their places only. -/
structure Token.SameWord (t u : Token) : Prop where
  kind : u.kind = t.kind
  value : u.value = t.value
  file : u.file = t.file

namespace Token.SameWord

variable {t u : Token}

theorem refl (t : Token) : t.SameWord t :=
  ⟨rfl, rfl, rfl⟩

theorem unplaced_eq (h : t.SameWord u) : u.unplaced = t.unplaced := by
  unfold unplaced
  rw [h.kind, h.value, h.file]

end Token.SameWord

theorem Token.sameWords_of_words_eq {file : Nat} (own : ∀ t ∈ toks, t.file = file)
    (own' : ∀ t ∈ toks', t.file = file) (same : words toks' = words toks) :
    List.Forall₂ SameWord (toks.filter fun t => !t.isTrivia) (toks'.filter fun t => !t.isTrivia) := by
  replace own : ∀ t ∈ toks.filter fun t => !t.isTrivia, t.file = file := fun t ht => own t (mem_of_mem_filter ht)
  replace own' : ∀ t ∈ toks'.filter fun t => !t.isTrivia, t.file = file :=
    fun t ht => own' t (mem_of_mem_filter ht)
  unfold words at same
  generalize toks.filter _ = us at own same ⊢
  generalize toks'.filter _ = us' at own' same ⊢
  induction us generalizing us' with
  | nil =>
    obtain rfl := map_eq_nil_iff.mp same
    exact .nil
  | cons t us ih =>
    obtain ⟨u, us', rfl, word, rest⟩ := map_eq_cons_iff.mp same
    obtain ⟨kind, value⟩ := Prod.mk.inj word
    rw [forall_mem_cons] at own own'
    exact .cons ⟨kind, value, own'.1.trans own.1.symm⟩ (ih own.2 us' own'.2 rest)

theorem Node.Alike.unplaced_eq {n m : Node} (h : n.Alike Token.SameWord m) : m.unplaced = n.unplaced := by
  unfold unplaced
  induction h with
  | absent => rfl
  | node ty form token _ ih =>
    rw [fold_node, fold_node, Form.map_map, Form.map_map, Form.map_congr ih, token.unplaced_eq]

theorem Entry.Alike.unplaced_eq {e e' : Entry} (h : e.Alike Token.SameWord e') : e'.unplaced = e.unplaced := by
  cases h with
  | of node file => exact congrArg (fun n => Entry.mk n file 0) node.unplaced_eq

theorem map_eq_of_forall₂ (same : ∀ a b, R a b → f b = f a) (h : List.Forall₂ R as bs) : bs.map f = as.map f := by
  have each : List.Forall₂ (· = ·) (bs.map f) (as.map f) :=
    forall₂_map_left_iff.mpr (forall₂_map_right_iff.mpr (h.flip.imp fun b a hab => same a b hab))
  exact forall₂_eq_eq_eq ▸ each

/-- The second reading is given another layout of the main file. Files correspond as they do where lines are added.
Tokens correspond if they differ in their places only, and so do the tokens at which both readings stop. -/
def Comparison.ofLayout (settings : Settings) : Comparison :=
  { ofLines settings with
    token := fun _ => Token.SameWord
    place := fun _ => Token.SameWord
    shown := fun _ => Token.SameWord
    kind := Token.SameWord.kind
    value := Token.SameWord.value
    file := Token.SameWord.file
    retag := fun _ _ same => ⟨rfl, rfl, same.file⟩
    grow := fun _ same => same
    growPlace := fun _ same => same
    growShown := fun _ same => same
    atToken := fun same => same
    toShown := fun same => same
    opened := fun _ _ => .refl _
    unopened := fun _ _ => .refl _ }

namespace Parse

theorem tokens_filter (importer : Importer) (toks : List Token) :
    tokens importer toks = tokens importer (toks.filter fun t => !t.isTrivia) := by
  induction toks with
  | nil => rfl
  | cons t toks ih =>
    rw [filter_cons, tokens, ih]
    cases trivia : t.isTrivia with
    | true =>
      have idle : token importer t = pure () := by
        unfold token
        rw [if_pos trivia]
      rw [idle, pure_bind, if_neg (by decide)]
    | false => rw [if_pos (by decide), tokens]

theorem mainFile_agrees_ofLayout (fuel : Nat) (path : String)
    (whole : (tokenize (settings.feature .comments) 0 text).failure = none)
    (whole' : (tokenize (settings.feature .comments) 0 text').failure = none)
    (same : Token.words (tokenize (settings.feature .comments) 0 text').tokens
      = Token.words (tokenize (settings.feature .comments) 0 text).tokens) :
    Agrees (.ofLayout settings) [] (mainFile fuel path text) (mainFile fuel path text') fun _ _ _ => True := by
  have own := (Tokens.scan_file (settings.feature .comments) 0 .start text.toList).1
  have own' := (Tokens.scan_file (settings.feature .comments) 0 .start text'.toList).1
  have words : (Comparison.ofLayout settings).Tokens [] _ _ := Token.sameWords_of_words_eq own own' same
  have failure {R : Token × LexProblem → Token × LexProblem → Prop} :
      Option.Rel R (tokenize (settings.feature .comments) 0 text).failure
        (tokenize (settings.feature .comments) 0 text').failure := by
    rw [whole, whole']
    exact .none
  have source : (Comparison.ofLayout settings).source ⟨path, text⟩ ⟨path, text'⟩ := rfl
  -- Both texts end with the end of the file, where errors about nothing at all are put.
  have last : ((tokenize (settings.feature .comments) 0 text).tokens.getLastD default).SameWord
      ((tokenize (settings.feature .comments) 0 text').tokens.getLastD default) := by
    obtain ⟨body, q, ends, -⟩ := Tokens.scan_append _ 0 .start text.toList [] whole
    obtain ⟨body', q', ends', -⟩ := Tokens.scan_append _ 0 .start text'.toList [] whole'
    unfold tokenize
    rw [ends, ends', getLastD_concat, getLastD_concat]
    exact ⟨rfl, rfl, rfl⟩
  rw [mainFile_eq_enterMain, mainFile_eq_enterMain]
  refine (enterMain_agrees fuel path (openFile_agrees path source rfl rfl failure fun _ => last) (.refl _)).bind
    fun more toks toks' sub found => ?_
  obtain ⟨-, rfl, rfl⟩ := found
  rw [tokens_filter, tokens_filter _ (tokenize _ _ text').tokens]
  exact tokens_agrees (importFile_agrees fuel more) (words.grow sub)

end Parse

theorem State.Shown.unplaced_eq {s s' : State}
    (shown : s.Shown (.ofLayout settings) files s')
    (notices : Notices.Alike (.ofLayout settings) files s.session.notices s'.session.notices) :
    s'.program.map Entry.unplaced = s.program.map Entry.unplaced ∧ s'.context = s.context ∧
      s'.session.notices.map Notice.unplaced = s.session.notices.map Notice.unplaced := by
  refine ⟨map_eq_of_forall₂ (R := Entry.Alike Token.SameWord) (fun _ _ alike => alike.unplaced_eq)
    shown.program, shown.context, ?_⟩
  refine map_eq_of_forall₂ (fun a b alike => ?_) notices.each
  have place : b.token.unplaced = a.token.unplaced := alike.token.unplaced_eq
  unfold Notice.unplaced
  rw [alike.caution, place]

theorem Report.fileName_congr (names : files'.map (·.name) = files.map (·.name))
    (i : Int) : fileName files' i = fileName files i := by
  unfold fileName file?
  split
  · rfl
  · rw [← List.getElem?_map, ← List.getElem?_map, names]

/-- Two layouts of a program are compiled to the same end: both are accepted with the same entries and the same
context, or both are refused for the same reason; and the same notices are raised. -/
theorem compile_layout (settings : Settings) (library : Library) (path : String) {text text' : String}
    (whole : (tokenize (settings.feature .comments) 0 text).failure = none)
    (whole' : (tokenize (settings.feature .comments) 0 text').failure = none)
    (same : Token.words (tokenize (settings.feature .comments) 0 text').tokens
      = Token.words (tokenize (settings.feature .comments) 0 text).tokens) :
    let first := compile settings library path text
    let second := compile settings library path text'
    second.stop.map Stop.unplaced = first.stop.map Stop.unplaced ∧
      (second.diagnostic?.map fun d => (d.file, d.message)) = (first.diagnostic?.map fun d => (d.file, d.message)) ∧
      second.program.map Entry.unplaced = first.program.map Entry.unplaced ∧
      second.context = first.context ∧
      second.session.notices.map Notice.unplaced = first.session.notices.map Notice.unplaced := by
  have met := (Parse.mainFile_agrees_ofLayout (library.bound + 1) path whole whole' same _ _
    (.initial _ library (.refl _))).2 ⟨.nil, fun _ => forall_mem_nil _⟩
  rw [compile_eq, compile_eq]
  change Parse.Meets _ _ _ (Parse.mainFile _ _ _ settings _) (Parse.mainFile _ _ _ settings _) at met
  generalize Parse.mainFile _ _ text settings _ = p at met ⊢
  generalize Parse.mainFile _ _ text' settings _ = q at met ⊢
  cases met with
  | ok _ _ states notices =>
    obtain ⟨program, context, raised⟩ := states.toShown.unplaced_eq notices
    exact ⟨rfl, rfl, program, context, raised⟩
  | @stop _ e e' s s' _ stop shown notices =>
    obtain ⟨program, context, raised⟩ := shown.unplaced_eq notices
    have names : s'.session.files.map (·.name) = s.session.files.map (·.name) := by
      rw [shown.names, shown.opened]
    cases stop with
    | @problem t u place p =>
      have place : t.SameWord u := place
      refine ⟨congrArg (fun t => some (Stop.problem t p)) place.unplaced_eq, ?_, program, context, raised⟩
      show some (Report.fileName s'.session.files u.file, p.message)
        = some (Report.fileName s.session.files t.file, p.message)
      rw [Report.fileName_congr names, place.file]
    | piece =>
      refine ⟨rfl, ?_, program, context, raised⟩
      exact congrArg (fun name => some (name, _)) (Report.fileName_congr names _)
    | fault f => exact ⟨rfl, rfl, program, context, raised⟩
  | early mixed =>
    have strict : settings.feature .strictTypes = true := mixed.1
    have lax : settings.feature .strictTypes = false := mixed.2
    rw [strict] at lax
    cases lax

/-- A program on one line. -/
def dense : String :=
  "P :: struct \x7b x: int; \x7d @import \"lib.imp\"; f :: (p: P): int \x7b return p.x; \x7d"

/-- The same program with comments, on many lines. -/
def spread : String :=
  "// A point on a line.\nP :: struct \x7b\n\tx: int; // where it is\n\x7d\n\n@import \"lib.imp\";\n"
    ++ "f :: (p: P)\n\t: int \x7b\n\treturn p.x;\n\x7d\n"

theorem compile_layout_spread :
    let library := Library.memory [("lib.imp", "n: int = 1;")]
    let first := compile Settings.plain library "main.imp" dense
    let second := compile Settings.plain library "main.imp" spread
    Token.words (tokenize true 0 spread).tokens = Token.words (tokenize true 0 dense).tokens ∧
      first.stop = none ∧ first.program.map (·.line) = [1, 1, 1, 1, 1, 1, 1, 1] ∧
      second.program.map (·.line) = [2, 2, 2, 6, 1, 7, 9, 10] ∧
      second.program.map Entry.unplaced = first.program.map Entry.unplaced ∧ second.context = first.context := by
  intro library first second
  have words : (let tokens := tokenize true 0 dense
      let tokens' := tokenize true 0 spread
      tokens.failure.isNone && tokens'.failure.isNone &&
        Token.words tokens'.tokens == Token.words tokens.tokens) = true := by decide +kernel
  have lines : (first.stop.isNone && first.program.map (·.line) == [1, 1, 1, 1, 1, 1, 1, 1] &&
      second.program.map (·.line) == [2, 2, 2, 6, 1, 7, 9, 10]) = true := by decide +kernel
  simp only [Bool.and_eq_true, Option.isNone_iff_eq_none, beq_iff_eq] at words lines
  obtain ⟨⟨whole, whole'⟩, same⟩ := words
  obtain ⟨⟨accepted, ofFirst⟩, ofSecond⟩ := lines
  obtain ⟨-, -, program, context, -⟩ := compile_layout Settings.plain library "main.imp" whole whole' same
  exact ⟨same, accepted, ofFirst, ofSecond, program, context⟩

end Impulse
