import Impulse.Proofs.Comparison

/-!
# Rules for two readings

Two readings agree if they come to the same end: both go on with corresponding results in corresponding states, or
both stop for the same reason. There is one exception, where the first reading is strict and the second one is not:
at the first types that do not fit the strict reading stops, and the other one raises a notice and goes on. From
there on nothing is compared; it is only used that the second reading never takes back a notice or a file.
-/

namespace Impulse

open List

def finalState {ε σ α : Type} : EStateM.Result ε σ α → σ
  | .ok _ s => s
  | .error _ s => s

/-- Both results are given, and correspond, or both are reasons to stop that do. -/
inductive SameResult (K : Comparison) (files : List SourceFile) (R : α → β → Prop) :
    Except Stop α → Except Stop β → Prop
  | ok {a : α} {b : β} (h : R a b) : SameResult K files R (.ok a) (.ok b)
  | error {e e' : Stop} (h : e.Alike K files e') : SameResult K files R (.error e) (.error e')

namespace SameResult

variable {R : α → β → Prop}

theorem problem (h : K.token files t u) (p : Problem) :
    SameResult K files R (.error (.problem t p)) (.error (.problem u p)) :=
  .error (.problem (K.atToken h) p)

theorem bind (h : SameResult K files R x y) {f : α → Except Stop γ} {g : β → Except Stop δ}
    (hf : ∀ a b, R a b → SameResult K files S (f a) (g b)) : SameResult K files S (x >>= f) (y >>= g) := by
  cases h with
  | ok h => exact hf _ _ h
  | error h => exact .error h

end SameResult

namespace Infer

/-- Adding corresponding notices keeps a relation between the notices of two readings. -/
def Kept (K : Comparison) (files : List SourceFile) (N : List Notice → List Notice → Prop) : Prop :=
  ∀ {ns ms t u c}, N ns ms → K.shown files t u → (K.first.feature .strictTypes = true → c.mismatch? = none) →
    N (ns ++ [⟨t, c⟩]) (ms ++ [⟨u, c⟩])

/-- How two readings of an expression end: with the same result, for the same reason, or where the first one
insists on a type and the second one goes on. Their notices are related by `N`. -/
inductive Meets (K : Comparison) (files : List SourceFile) (N : List Notice → List Notice → Prop) (R : α → β → Prop) :
    EStateM.Result Stop (List Notice) α → EStateM.Result Stop (List Notice) β → Prop
  | ok {a : α} {b : β} {ns ms : List Notice} (result : R a b) (notices : N ns ms) :
      Meets K files N R (.ok a ns) (.ok b ms)
  | stop {e e' : Stop} {ns ms : List Notice} (stop : e.Alike K files e') (notices : N ns ms) :
      Meets K files N R (.error e ns) (.error e' ms)
  | early {t u : Token} {m : Mismatch} {ns ms : List Notice} {r : EStateM.Result Stop (List Notice) β}
      (mixed : K.Mixed) (token : K.shown files t u) (notices : N ns ms)
      (raised : ms ++ [⟨u, .mismatch m⟩] <+: finalState r) :
      Meets K files N R (.error (.problem t (.mismatch m)) ns) r

/-- What the second reading does alone: its result could be met, and no notice is taken back. -/
structure Steady (R : α → β → Prop) (ms : List Notice) (r : EStateM.Result Stop (List Notice) β) :
    Prop where
  result : ∀ b after, r = .ok b after → ∃ a, R a b
  notices : ms <+: finalState r

/-- Reading `x` and reading `y` come to the same end, in views that correspond, whatever was noticed before. -/
def Agrees (K : Comparison) (files : List SourceFile) (x : Infer α) (y : Infer β) (R : α → β → Prop) :
    Prop :=
  ∀ v w, v.Alike K files w → ∀ ms, Steady R ms (y w ms) ∧
    ∀ N, Kept K files N → ∀ ns, N ns ms → Meets K files N R (x v ns) (y w ms)

namespace Agrees

theorem pure (h : R a b) : Agrees K files (Pure.pure a) (Pure.pure b) R := by
  intro v w _ ms
  refine ⟨⟨fun b' _ same => ?_, prefix_refl _⟩, fun _ _ ns hns => .ok h hns⟩
  cases same
  exact ⟨a, h⟩

theorem throw (h : e.Alike K files e') :
    Agrees K files (MonadExcept.throw e : Infer α) (MonadExcept.throw e' : Infer β) R := by
  intro v w _ ms
  refine ⟨⟨fun b _ same => ?_, prefix_refl _⟩, fun _ _ ns hns => .stop h hns⟩
  cases same

theorem fail (h : K.place files t u) : Agrees K files (Infer.fail t p : Infer α) (Infer.fail u p : Infer β) R :=
  throw (.problem h p)

theorem failAt (ht : K.token files t u) : Agrees K files (Infer.fail t p : Infer α) (Infer.fail u p : Infer β) R :=
  fail (K.atToken ht)

theorem fault (f : Fault) : Agrees K files (Infer.fault f : Infer α) (Infer.fault f : Infer β) R :=
  throw (.fault f)

theorem ofExcept (h : SameResult K files R x y) :
    Agrees K files (Infer.ofExcept x) (Infer.ofExcept y) R := by
  cases h with
  | ok h => exact pure h
  | error h => exact throw h

theorem bind {f : α → Infer γ} {g : β → Infer δ} (hx : Agrees K files x y R)
    (hf : ∀ a b, R a b → Agrees K files (f a) (g b) S) : Agrees K files (x >>= f) (y >>= g) S := by
  intro v w hv ms
  obtain ⟨steady, meets⟩ := hx v w hv ms
  -- Whatever the second reading goes on with could be met, so it goes on steadily.
  have goesOn : ∀ {b after}, y w ms = .ok b after → Steady S after (g b w after) := by
    intro b after same
    obtain ⟨a, hab⟩ := steady.result b after same
    exact (hf a b hab v w hv after).1
  refine ⟨?_, fun N kept ns hns => ?_⟩
  · rw [reading_bind]
    cases same : y w ms with
    | ok b after =>
      rw [same] at steady
      exact ⟨(goesOn same).result, steady.notices.trans (goesOn same).notices⟩
    | error e after =>
      rw [same] at steady
      refine ⟨fun b last other => ?_, steady.notices⟩
      cases other
  · have met := meets N kept ns hns
    rw [reading_bind, reading_bind]
    generalize x v ns = p at met
    generalize same : y w ms = q at met
    cases met with
    | ok result notices => exact (hf _ _ result v w hv _).2 N kept _ notices
    | stop stop notices => exact .stop stop notices
    | early mixed token notices raised =>
      refine .early mixed token notices ?_
      cases q with
      | ok b after => exact raised.trans (goesOn same).notices
      | error e after => exact raised

theorem read {f : View → Infer α} {g : View → Infer β} (h : ∀ v w, v.Alike K files w → Agrees K files (f v) (g w) R) :
    Agrees K files (MonadReader.read >>= f) (MonadReader.read >>= g) R :=
  fun v w hv => h v w hv v w hv

theorem ite [Decidable c] (hx : c → Agrees K files x y R)
    (hx' : ¬c → Agrees K files x' y' R) : Agrees K files (if c then x else x') (if c then y else y') R :=
  ite_rel (P := fun x y => Agrees K files x y R) hx hx'

theorem warn (ht : K.shown files t u) (other : c.mismatch? = none) :
    Agrees K files (Infer.warn t c) (Infer.warn u c) (· = ·) := by
  intro v w _ ms
  refine ⟨⟨fun b _ _ => ⟨b, rfl⟩, prefix_append _ _⟩, fun N kept ns hns => ?_⟩
  exact .ok rfl (kept hns ht fun _ => other)

theorem mismatch (place : K.place files t u) (ht : K.shown files t u) (m : Mismatch) :
    Agrees K files (Infer.mismatch t m) (Infer.mismatch u m) (· = ·) := by
  intro v w hv ms
  have left : Infer.mismatch t m v
      = (if K.first.feature .strictTypes then Infer.fail t (.mismatch m) else Infer.warn t (.mismatch m)) v := by
    rw [← hv.first]
    rfl
  have right : Infer.mismatch u m w
      = (if K.second.feature .strictTypes then Infer.fail u (.mismatch m) else Infer.warn u (.mismatch m)) w := by
    rw [← hv.second]
    rfl
  rw [left, right]
  cases second : K.second.feature .strictTypes with
  | true =>
    rw [K.stricter second]
    exact fail place v w hv ms
  | false =>
    refine ⟨⟨fun b _ _ => ⟨b, rfl⟩, prefix_append _ _⟩, fun N kept ns hns => ?_⟩
    cases first : K.first.feature .strictTypes with
    | true => exact .early ⟨first, second⟩ ht hns (prefix_refl _)
    | false =>
      refine .ok rfl (kept hns ht fun strict => ?_)
      rw [first] at strict
      cases strict

theorem check (ht : K.token files t u) (m : Mismatch) {f : Unit → Infer α} {g : Unit → Infer β}
    (h : Agrees K files (f ()) (g ()) R) :
    Agrees K files (if (!c) = true then Infer.mismatch t m >>= f else f ())
      (if (!c) = true then Infer.mismatch u m >>= g else g ()) R :=
  .ite (fun _ => (mismatch (K.atToken ht) (K.toShown ht) m).bind fun _ _ _ => h) fun _ => h

end Agrees

end Infer

namespace Parse

/-- How two readings of statements end: with the same result in corresponding states, for the same reason, or where
the first one insists on a type and the second one goes on. -/
inductive Meets (K : Comparison) (files : List SourceFile) (R : List SourceFile → α → β → Prop) :
    EStateM.Result Stop State α → EStateM.Result Stop State β → Prop
  | ok {more : List SourceFile} {a : α} {b : β} {s s' : State} (sub : files <+: more)
      (result : R more a b) (states : s.Alike K more s')
      (notices : Notices.Alike K more s.session.notices s'.session.notices) :
      Meets K files R (.ok a s) (.ok b s')
  | stop {more : List SourceFile} {e e' : Stop} {s s' : State} (sub : files <+: more)
      (stop : e.Alike K more e') (shown : s.Shown K more s')
      (notices : Notices.Alike K more s.session.notices s'.session.notices) :
      Meets K files R (.error e s) (.error e' s')
  | early {t u : Token} {m : Mismatch} {s : State} {ms : List Notice} {r : EStateM.Result Stop State β}
      (mixed : K.Mixed) (token : K.shown s.session.files t u)
      (notices : Notices.Alike K s.session.files s.session.notices ms)
      (raised : ms ++ [⟨u, .mismatch m⟩] <+: (finalState r).session.notices)
      (names : s.session.files.map (·.name) <+: (finalState r).session.files.map (·.name)) :
      Meets K files R (.error (.problem t (.mismatch m)) s) r

theorem Meets.mono {p : EStateM.Result Stop State α} (h : Meets K files R p q)
    (weaker : ∀ more a b, files <+: more → R more a b → R' more a b) : Meets K files R' p q := by
  cases h with
  | ok sub result states notices => exact .ok sub (weaker _ _ _ sub result) states notices
  | stop sub stop shown notices => exact .stop sub stop shown notices
  | early mixed token notices raised names => exact .early mixed token notices raised names

theorem Meets.after {p : EStateM.Result Stop State α} (h : Meets K more R p q) (sub : files <+: more) :
    Meets K files R p q := by
  cases h with
  | ok sub' result states notices => exact .ok (sub.trans sub') result states notices
  | stop sub' stop shown notices => exact .stop (sub.trans sub') stop shown notices
  | early mixed token notices raised names => exact .early mixed token notices raised names

/-- What the second reading does alone: its result and its state could be met, and neither a notice nor a file is
taken back. -/
structure Steady (K : Comparison) (files : List SourceFile) (R : List SourceFile → α → β → Prop)
    (s' : State) (r : EStateM.Result Stop State β) : Prop where
  result : ∀ b after, r = .ok b after →
    ∃ (more : List SourceFile) (a : α) (s : State), files <+: more ∧ R more a b ∧ s.Alike K more after
  notices : s'.session.notices <+: (finalState r).session.notices
  names : s'.session.files.map (·.name) <+: (finalState r).session.files.map (·.name)

/-- Reading `x` and reading `y` come to the same end, in states that correspond. -/
def Agrees (K : Comparison) (files : List SourceFile) (x : Parse α) (y : Parse β)
    (R : List SourceFile → α → β → Prop) : Prop :=
  ∀ s s', s.Alike K files s' → Steady K files R s' (y K.second s') ∧
    (Notices.Alike K files s.session.notices s'.session.notices →
      Meets K files R (x K.first s) (y K.second s'))

abbrev AgreesHere (K : Comparison) (files : List SourceFile) (x : Parse α) (y : Parse β) (R : α → β → Prop) :
    Prop :=
  Agrees K files x y fun more a b => more = files ∧ R a b

namespace Agrees

theorem pure (h : R files a b) : Agrees K files (Pure.pure a) (Pure.pure b) R := by
  intro s s' hs
  refine ⟨⟨fun b' after same => ?_, prefix_refl _, prefix_refl _⟩, fun notices => ?_⟩
  · cases same
    exact ⟨files, a, s, prefix_refl _, h, hs⟩
  · exact .ok (prefix_refl _) h hs notices

theorem throw (h : e.Alike K files e') :
    Agrees K files (MonadExcept.throw e : Parse α) (MonadExcept.throw e' : Parse β) R := by
  intro s s' hs
  refine ⟨⟨fun b after same => ?_, prefix_refl _, prefix_refl _⟩, fun notices => ?_⟩
  · cases same
  · exact .stop (prefix_refl _) h hs.toShown notices

theorem fail (h : K.place files t u) : Agrees K files (Parse.fail t p : Parse α) (Parse.fail u p : Parse β) R :=
  throw (.problem h p)

theorem failAt (ht : K.token files t u) : Agrees K files (Parse.fail t p : Parse α) (Parse.fail u p : Parse β) R :=
  fail (K.atToken ht)

theorem fault (f : Fault) : Agrees K files (Parse.fault f : Parse α) (Parse.fault f : Parse β) R :=
  throw (.fault f)

theorem fail_bind (ht : K.token files t u) : Agrees K files (Parse.fail t p >>= f) (Parse.fail u p >>= g) R :=
  throw (.problem (K.atToken ht) p)

theorem bind {f : α → Parse γ} {g : β → Parse δ} (hx : Agrees K files x y R)
    (hf : ∀ more a b, files <+: more → R more a b → Agrees K more (f a) (g b) S) :
    Agrees K files (x >>= f) (y >>= g) S := by
  intro s s' hs
  obtain ⟨steady, meets⟩ := hx s s' hs
  -- Whatever the second reading goes on with could be met, so it goes on steadily.
  have goesOn : ∀ {b after}, y K.second s' = .ok b after →
      Steady K files S after (g b K.second after) := by
    intro b after same
    obtain ⟨more, a, s₁, sub, hab, hs₁⟩ := steady.result b after same
    have next := (hf more a b sub hab s₁ after hs₁).1
    refine ⟨fun d last same => ?_, next.notices, next.names⟩
    obtain ⟨most, c, s₂, sub', hcd, hs₂⟩ := next.result d last same
    exact ⟨most, c, s₂, sub.trans sub', hcd, hs₂⟩
  refine ⟨?_, fun notices => ?_⟩
  · rw [reading_bind]
    cases same : y K.second s' with
    | ok b after =>
      rw [same] at steady
      have next := goesOn same
      exact ⟨next.result, steady.notices.trans next.notices, steady.names.trans next.names⟩
    | error e after =>
      rw [same] at steady
      refine ⟨fun b last other => ?_, steady.notices, steady.names⟩
      cases other
  · have met := meets notices
    rw [reading_bind, reading_bind]
    generalize x K.first s = p at met
    generalize same : y K.second s' = q at met
    cases met with
    | ok sub result states notices =>
      exact ((hf _ _ _ sub result _ _ states).2 notices).after sub
    | stop sub stop shown notices => exact .stop sub stop shown notices
    | early mixed token notices raised names =>
      cases q with
      | ok b after =>
        exact .early mixed token notices (raised.trans (goesOn same).notices) (names.trans (goesOn same).names)
      | error e after => exact .early mixed token notices raised names

theorem mono (h : Agrees K files x y R)
    (weaker : ∀ more a b, files <+: more → R more a b → R' more a b) : Agrees K files x y R' := by
  intro s s' hs
  obtain ⟨steady, meets⟩ := h s s' hs
  refine ⟨⟨fun b after same => ?_, steady.notices, steady.names⟩, fun notices => (meets notices).mono weaker⟩
  obtain ⟨more, a, s₁, sub, hab, hs₁⟩ := steady.result b after same
  exact ⟨more, a, s₁, sub, weaker more a b sub hab, hs₁⟩

theorem get {f g : State → Parse β} {R : List SourceFile → β → β → Prop}
    (h : ∀ s s', s.Alike K files s' → Agrees K files (f s) (g s') R) :
    Agrees K files (MonadState.get >>= f) (MonadState.get >>= g) R :=
  fun s s' hs => h s s' hs s s' hs

theorem read {f g : Settings → Parse β} {R : List SourceFile → β → β → Prop}
    (h : Agrees K files (f K.first) (g K.second) R) :
    Agrees K files (MonadReader.read >>= f) (MonadReader.read >>= g) R :=
  h

theorem ite [Decidable c] (hx : c → Agrees K files x y R)
    (hx' : ¬c → Agrees K files x' y' R) : Agrees K files (if c then x else x') (if c then y else y') R :=
  ite_rel (P := fun x y => Agrees K files x y R) hx hx'

theorem guard [Decidable c] (ht : K.token files t u) (hx : Agrees K files x y R) :
    Agrees K files (if c then Parse.fail t p >>= f else x) (if c then Parse.fail u p >>= g else y) R :=
  .ite (fun _ => .fail_bind ht) fun _ => hx

end Agrees

section

theorem Agrees.done (h : R a b) : AgreesHere K files (Pure.pure a) (Pure.pure b) R :=
  Agrees.pure ⟨rfl, h⟩

theorem AgreesHere.bind {f : α → Parse γ} {g : β → Parse δ} (hx : AgreesHere K files x y R)
    (hf : ∀ a b, R a b → Agrees K files (f a) (g b) S) : Agrees K files (x >>= f) (y >>= g) S := by
  refine Agrees.bind hx fun more a b _ hab => ?_
  obtain ⟨rfl, hab⟩ := hab
  exact hf a b hab

theorem AgreesHere.same {x y : Parse α} {f : α → Parse γ} {g : α → Parse δ} (hx : AgreesHere K files x y (· = ·))
    (hf : ∀ a, Agrees K files (f a) (g a) S) : Agrees K files (x >>= f) (y >>= g) S := by
  refine hx.bind fun a b same => ?_
  obtain rfl : a = b := same
  exact hf a

theorem Agrees.ofExcept {x : Except Stop α} {y : Except Stop β} (h : SameResult K files R x y) :
    AgreesHere K files (Parse.ofExcept x) (Parse.ofExcept y) R := by
  cases h with
  | ok h => exact Agrees.done h
  | error h => exact Agrees.throw h

theorem Agrees.change {f g : State → State}
    (h : ∀ s s', s.Alike K files s' → (f s).Alike K files (g s') ∧
      (f s).session = s.session ∧ (g s').session = s'.session) :
    AgreesHere K files (modify f) (modify g) (· = ·) := by
  intro s s' hs
  obtain ⟨states, left, right⟩ := h s s' hs
  refine ⟨⟨fun b after same => ?_, ?_, ?_⟩, fun notices => ?_⟩
  · cases same
    exact ⟨files, (), f s, prefix_refl _, ⟨rfl, rfl⟩, states⟩
  · show s'.session.notices <+: (g s').session.notices
    simp only [right, prefix_refl]
  · show s'.session.files.map (·.name) <+: (g s').session.files.map (·.name)
    simp only [right, prefix_refl]
  · refine .ok (prefix_refl _) ⟨rfl, rfl⟩ states ?_
    rw [left, right]
    exact notices

theorem Agrees.update {f g : State → State} {k : State → Parse γ} {k' : State → Parse δ} (sub : files <+: more)
    (h : ∀ s s', s.Alike K files s' → (f s).Alike K more (g s') ∧
      (f s).session.notices = s.session.notices ∧ (g s').session.notices = s'.session.notices)
    (hk : ∀ s s', s.Alike K files s' → Agrees K more (k s) (k' s') S) :
    Agrees K files (MonadState.get >>= fun s => set (f s) >>= fun _ => k s)
      (MonadState.get >>= fun s => set (g s) >>= fun _ => k' s) S := by
  intro s s' hs
  obtain ⟨states, left, right⟩ := h s s' hs
  obtain ⟨steady, meets⟩ := hk s s' hs (f s) (g s') states
  have names : s'.session.files.map (·.name) <+: (g s').session.files.map (·.name) := by
    rw [hs.names, states.names]
    exact sub.map _
  refine ⟨⟨fun b after same => ?_, ?_, names.trans steady.names⟩, fun notices => ?_⟩
  · obtain ⟨most, a, s₁, sub', hab, hs₁⟩ := steady.result b after same
    exact ⟨most, a, s₁, sub.trans sub', hab, hs₁⟩
  · rw [← right]
    exact steady.notices
  · refine (meets ?_).after sub
    rw [left, right]
    exact notices.grow sub

end

end Parse

theorem State.Alike.view {s s' : State} (h : s.Alike K files s') :
    (s.view K.first).Alike K files (s'.view K.second) where
  first := rfl
  second := rfl
  context := h.context
  scope := h.scope
  self? := Record.Alike.self?_eq h.record
  placeholders := by
    show ((s'.record.map Record.placeholders).getD []) ++ ((s'.function.map (·.placeholders)).getD [])
      = ((s.record.map Record.placeholders).getD []) ++ ((s.function.map (·.placeholders)).getD [])
    rw [h.function, Record.Alike.placeholders_eq h.record]
  last := h.last

namespace Parse

theorem withNotices_alike (h : s.Alike K files s') (ns ms : List Notice) :
    (withNotices s ns).Alike K files (withNotices s' ms) :=
  { h with }

theorem Agrees.infer {R : α → β → Prop} (h : Infer.Agrees K files x y R) :
    AgreesHere K files (Parse.infer x) (Parse.infer y) R := by
  intro s s' hs
  obtain ⟨steady, meets⟩ := h _ _ hs.view s'.session.notices
  refine ⟨?_, fun notices => ?_⟩
  · unfold Parse.infer
    cases same : y (s'.view K.second) s'.session.notices with
    | ok b after =>
      rw [same] at steady
      obtain ⟨a, hab⟩ := steady.result b after rfl
      refine ⟨fun b' last other => ?_, steady.notices, prefix_refl _⟩
      cases other
      exact ⟨files, a, s, prefix_refl _, ⟨rfl, hab⟩, withNotices_alike hs s.session.notices after⟩
    | error e after =>
      rw [same] at steady
      refine ⟨fun b last other => ?_, steady.notices, prefix_refl _⟩
      cases other
  · have met := meets _ (fun before token fits => before.concat token fits) _ notices
    unfold Parse.infer
    generalize x (s.view K.first) s.session.notices = p at met
    generalize y (s'.view K.second) s'.session.notices = q at met
    cases met with
    | ok result notices =>
      exact .ok (prefix_refl _) ⟨rfl, result⟩ (withNotices_alike hs _ _) notices
    | stop stop notices =>
      exact .stop (prefix_refl _) stop (withNotices_alike hs _ _).toShown notices
    | early mixed token notices raised =>
      have same : s'.session.files.map (·.name) = s.session.files.map (·.name) := by
        rw [hs.names, hs.opened]
      obtain rfl := hs.opened
      refine .early mixed token notices ?_ ?_
      · cases q <;> exact raised
      · cases q <;> exact same ▸ prefix_refl _

theorem Agrees.warn (ht : K.token files t u) {c : Caution} (other : c.mismatch? = none) :
    AgreesHere K files (Parse.warn t c) (Parse.warn u c) (· = ·) :=
  .infer (.warn (K.toShown ht) other)

theorem Agrees.mismatch (ht : K.token files t u) (m : Mismatch) :
    AgreesHere K files (Parse.mismatch t m) (Parse.mismatch u m) (· = ·) :=
  .infer (.mismatch (K.atToken ht) (K.toShown ht) m)

theorem Agrees.check (ht : K.token files t u) (m : Mismatch) {f : Unit → Parse α}
    {g : Unit → Parse β} (h : Agrees K files (f ()) (g ()) R) :
    Agrees K files (if (!c) = true then Parse.mismatch t m >>= f else f ())
      (if (!c) = true then Parse.mismatch u m >>= g else g ()) R :=
  .ite (fun _ => (Agrees.mismatch ht m).bind fun _ _ _ => h) fun _ => h

end Parse

end Impulse
