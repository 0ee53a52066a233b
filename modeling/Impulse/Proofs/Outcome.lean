import Impulse.Reading.State

/-!
# What readings guarantee

Triples for the two kinds of readings. `Infer.Ensures` speaks about expressions, which are read in a fixed
view; `Parse.Ensures` speaks about statements, which change the state. Both say two things at once: what holds
of the result, and that a reading which stops early stops for a reason that can be reported.
-/

namespace Impulse

/-- A mismatch that can be reported: it is about something that was written. -/
def Mismatch.Reportable : Mismatch → Prop
  | .call (.absentArgument _) => False
  | _ => True

def Problem.Reportable : Problem → Prop
  | .mismatch m => m.Reportable
  | _ => True

def Caution.Reportable : Caution → Prop
  | .mismatch m => m.Reportable
  | _ => True

/-- A reason to stop that can be reported as a diagnostic. Faults cannot. -/
def Stop.Reportable : Stop → Prop
  | .problem _ p => p.Reportable
  | .fault _ => False

/-- `after` holds the notices `before` and, behind them, new ones that can be reported. -/
def Notices.Extend (before after : List Notice) : Prop :=
  ∃ new, after = before ++ new ∧ ∀ n ∈ new, n.caution.Reportable

namespace Notices.Extend

theorem refl (notices : List Notice) : Notices.Extend notices notices :=
  ⟨[], by simp, by simp⟩

theorem trans {a b c : List Notice} (hab : Notices.Extend a b) (hbc : Notices.Extend b c) : Notices.Extend a c := by
  obtain ⟨new₁, rfl, h₁⟩ := hab
  obtain ⟨new₂, rfl, h₂⟩ := hbc
  refine ⟨new₁ ++ new₂, by simp, ?_⟩
  intro n hn
  rcases List.mem_append.mp hn with hn | hn
  · exact h₁ n hn
  · exact h₂ n hn

theorem single (notices : List Notice) {n : Notice} (h : n.caution.Reportable) :
    Notices.Extend notices (notices ++ [n]) :=
  ⟨[n], rfl, by simpa using h⟩

theorem reportable {after : List Notice} (h : Notices.Extend [] after) : ∀ n ∈ after, n.caution.Reportable := by
  obtain ⟨new, rfl, hnew⟩ := h
  exact hnew

end Notices.Extend

theorem reading_bind {ρ ε σ α β : Type} (x : ReaderT ρ (EStateM ε σ) α)
    (f : α → ReaderT ρ (EStateM ε σ) β) (r : ρ) (s : σ) :
    (x >>= f) r s = match x r s with
      | .ok a s' => f a r s'
      | .error e s' => .error e s' :=
  rfl

/-- The result `x` satisfies `post`, or is a reason to stop that can be reported. -/
def Settled {α : Type} (x : Except Stop α) (post : α → Prop) : Prop :=
  match x with
  | .ok a => post a
  | .error e => e.Reportable

namespace Settled

theorem of_ok {a : α} (h : Settled x post) (hx : x = .ok a) : post a := by
  subst hx
  exact h

theorem mono {post' : α → Prop} (h : Settled x post) (hpost : ∀ a, post a → post' a) : Settled x post' := by
  cases x with
  | ok a => exact hpost a h
  | error e => exact h

theorem bind {post : β → Prop}
    (hx : Settled x mid) (hf : ∀ a, mid a → Settled (f a) post) : Settled (x >>= f) post := by
  cases x with
  | ok a => exact hf a hx
  | error e => exact hx

theorem with_eq (h : Settled x post) : Settled x fun a => post a ∧ x = .ok a := by
  cases x with
  | ok a => exact ⟨h, rfl⟩
  | error e => exact h

end Settled

namespace Infer

/-- Reading `x` in the view `v` ends with a value that satisfies `post`, or stops for a reason that can be
reported. The notices that were there stay, and the new ones can be reported. -/
def Ensures (v : View) (x : Infer α) (post : α → Prop) : Prop :=
  ∀ notices, match x v notices with
    | .ok a after => post a ∧ Notices.Extend notices after
    | .error e after => e.Reportable ∧ Notices.Extend notices after

/-- Reading `x` in the view `v` can end with the value `a`. -/
def Gives (v : View) (x : Infer α) (a : α) : Prop :=
  ∃ before after, x v before = .ok a after

theorem Ensures.of_gives {a : α} (h : Ensures v x post) (ha : Gives v x a) : post a := by
  obtain ⟨before, after, hx⟩ := ha
  have := h before
  rw [hx] at this
  exact this.1

theorem Ensures.mono {post' : α → Prop} (h : Ensures v x post) (hpost : ∀ a, post a → post' a) : Ensures v x post' := by
  intro notices
  have hx := h notices
  cases hr : x v notices with
  | ok a after =>
    rw [hr] at hx
    exact ⟨hpost a hx.1, hx.2⟩
  | error e after =>
    rw [hr] at hx
    exact hx

theorem Ensures.pure {a : α} (h : post a) : Ensures v (Pure.pure a) post :=
  fun notices => ⟨h, .refl notices⟩

theorem Ensures.bind {post : β → Prop}
    (hx : Ensures v x mid) (hf : ∀ a, mid a → Ensures v (f a) post) : Ensures v (x >>= f) post := by
  intro notices
  have hx := hx notices
  rw [reading_bind]
  cases hr : x v notices with
  | error e after =>
    rw [hr] at hx
    exact hx
  | ok a after =>
    rw [hr] at hx
    have hfa := hf a hx.1 after
    dsimp only
    cases hr' : f a v after with
    | ok b last | error e last =>
      rw [hr'] at hfa
      exact ⟨hfa.1, hx.2.trans hfa.2⟩

theorem Ensures.fail (h : p.Reportable) : Ensures v (Infer.fail t p : Infer α) post :=
  fun notices => ⟨h, .refl notices⟩

theorem Ensures.read (h : Ensures v (f v) post) :
    Ensures v (MonadReader.read >>= f) post :=
  h

theorem Ensures.ofExcept {x : Except Stop α} (h : Settled x post) : Ensures v (Infer.ofExcept x) post := by
  cases x with
  | ok a => exact Ensures.pure h
  | error e => exact fun notices => ⟨h, .refl notices⟩

theorem Ensures.warn {c : Caution} (h : c.Reportable) : Ensures v (Infer.warn t c) fun _ => True :=
  fun notices => ⟨trivial, .single notices h⟩

theorem Ensures.mismatch (h : m.Reportable) :
    Ensures v (Infer.mismatch t m) fun _ => v.settings.feature .strictTypes = false := by
  unfold Infer.mismatch
  refine Ensures.read ?_
  split
  · exact Ensures.fail h
  · next lax =>
    have warned : Ensures v (Infer.warn t (.mismatch m)) fun _ => True := Ensures.warn h
    exact warned.mono fun _ _ => by simpa using lax

theorem Ensures.check {k : Unit → Infer β} {post : β → Prop} (h : m.Reportable)
    (hk : (c = true ∨ v.settings.feature .strictTypes = false) → Ensures v (k ()) post) :
    Ensures v (if (!c) = true then Infer.mismatch t m >>= k else k ()) post := by
  cases c with
  | true => exact hk (.inl rfl)
  | false => exact (Ensures.mismatch h).bind fun _ lax => hk (.inr lax)

end Infer

/-- A reason to stop that is reportable or, if imports may nest without a bound, that they do. -/
def Stop.Allowed (unbounded : Prop) (e : Stop) : Prop :=
  e.Reportable ∨ unbounded ∧ e = .fault .endlessImports

namespace Parse

/-- Reading `x` in the state `s` ends with a value and a state that satisfy `post`, or stops for a reason that
is allowed. The notices that were there stay, and the new ones can be reported. -/
def Ensures (unbounded : Prop) (settings : Settings) (s : State) (x : Parse α)
    (post : α → State → Prop) : Prop :=
  match x settings s with
  | .ok a s' => post a s' ∧ Notices.Extend s.session.notices s'.session.notices
  | .error e s' => e.Allowed unbounded ∧ Notices.Extend s.session.notices s'.session.notices

theorem Ensures.of_ok {post : α → State → Prop} {s' : State}
    (h : Ensures unbounded settings s x post) (hx : x settings s = .ok a s') : post a s' := by
  unfold Ensures at h
  rw [hx] at h
  exact h.1

theorem Ensures.of_error {post : α → State → Prop} {s' : State} (h : Ensures unbounded settings s x post)
    (hx : x settings s = .error e s') : e.Allowed unbounded := by
  unfold Ensures at h
  rw [hx] at h
  exact h.1

theorem Ensures.notices {post : α → State → Prop}
    (h : Ensures unbounded settings s x post) :
    match x settings s with
    | .ok _ s' | .error _ s' => Notices.Extend s.session.notices s'.session.notices := by
  unfold Ensures at h
  cases hx : x settings s with
  | ok a s' | error e s' =>
    rw [hx] at h
    exact h.2

theorem Ensures.mono {post post' : α → State → Prop} (h : Ensures unbounded settings s x post)
    (hpost : ∀ a s', post a s' → post' a s') : Ensures unbounded settings s x post' := by
  unfold Ensures at h ⊢
  cases hr : x settings s with
  | ok a s' =>
    rw [hr] at h
    exact ⟨hpost a s' h.1, h.2⟩
  | error e s' =>
    rw [hr] at h
    exact h

theorem Ensures.pure {post : α → State → Prop} (h : post a s) :
    Ensures unbounded settings s (Pure.pure a) post :=
  ⟨h, .refl _⟩

theorem Ensures.bind (hx : Ensures unbounded settings s x mid)
    (hf : ∀ a s', mid a s' → Ensures unbounded settings s' (f a) post) :
    Ensures unbounded settings s (x >>= f) post := by
  unfold Ensures at hx ⊢
  rw [reading_bind]
  cases hr : x settings s with
  | error e s' =>
    rw [hr] at hx
    exact hx
  | ok a s' =>
    rw [hr] at hx
    have hfa := hf a s' hx.1
    unfold Ensures at hfa
    dsimp only
    cases hr' : f a settings s' with
    | ok b last | error e last =>
      rw [hr'] at hfa
      exact ⟨hfa.1, hx.2.trans hfa.2⟩

theorem Ensures.fail {post : α → State → Prop} (h : p.Reportable) :
    Ensures unbounded settings s (Parse.fail t p : Parse α) post :=
  ⟨.inl h, .refl _⟩

theorem Ensures.fail_bind (h : p.Reportable) {k : α → Parse β}
    : Ensures unbounded settings s (Parse.fail t p >>= k) post :=
  ⟨.inl h, .refl _⟩

theorem Ensures.get {f : State → Parse β} (h : Ensures unbounded settings s (f s) post) :
    Ensures unbounded settings s (MonadState.get >>= f) post :=
  h

theorem Ensures.read {f : Settings → Parse β} (h : Ensures unbounded settings s (f settings) post) :
    Ensures unbounded settings s (MonadReader.read >>= f) post :=
  h

theorem Ensures.change {post : Unit → State → Prop} (same : (g s).session.notices = s.session.notices)
    (h : post () (g s)) : Ensures unbounded settings s (modify g) post := by
  refine ⟨h, ?_⟩
  rw [same]
  exact .refl _

theorem Ensures.change_bind (same : (g s).session.notices = s.session.notices)
    (h : Ensures unbounded settings (g s) (k ()) post) : Ensures unbounded settings s (modify g >>= k) post := by
  have changed : Ensures unbounded settings s (modify g) fun _ s' => s' = g s :=
    Ensures.change same rfl
  exact changed.bind fun _ _ hs => hs ▸ h

theorem Ensures.ofExcept {x : Except Stop α} (h : Settled x mid) :
    Ensures unbounded settings s (Parse.ofExcept x) fun a s' => s' = s ∧ mid a ∧ x = .ok a := by
  cases x with
  | ok a => exact Ensures.pure ⟨rfl, h, rfl⟩
  | error e => exact ⟨.inl h, .refl _⟩

theorem Ensures.infer {x : Infer α} {k : α → Parse β}
    (hx : Infer.Ensures (s.view settings) x mid) (hk : ∀ a notices, mid a → Infer.Gives (s.view settings) x a →
      Ensures unbounded settings (withNotices s notices) (k a) post) :
    Ensures unbounded settings s (Parse.infer x >>= k) post := by
  have hx := hx s.session.notices
  unfold Ensures
  rw [reading_bind]
  unfold Parse.infer
  cases hr : x (s.view settings) s.session.notices with
  | error e after =>
    rw [hr] at hx
    exact ⟨.inl hx.1, hx.2⟩
  | ok a after =>
    rw [hr] at hx
    have hka := hk a after hx.1 ⟨_, _, hr⟩
    unfold Ensures at hka
    dsimp only
    cases hr' : k a settings (withNotices s after) with
    | ok b last | error e last =>
      rw [hr'] at hka
      exact ⟨hka.1, hx.2.trans hka.2⟩

theorem Ensures.ite [Decidable c] {x y : Parse β} (hx : c → Ensures unbounded settings s x post)
    (hy : ¬c → Ensures unbounded settings s y post) : Ensures unbounded settings s (if c then x else y) post := by
  by_cases hc : c
  · rw [if_pos hc]
    exact hx hc
  · rw [if_neg hc]
    exact hy hc

theorem Ensures.guard [Decidable c] {k : Parse β} (h : p.Reportable)
    (hk : ¬c → Ensures unbounded settings s k post) :
    Ensures unbounded settings s (if c then Parse.fail t p >>= j else k) post := by
  exact Ensures.ite (fun _ => Ensures.fail_bind h) hk

theorem Ensures.check (h : m.Reportable)
    (hk : ∀ notices, (c = true ∨ settings.feature .strictTypes = false) →
      Ensures unbounded settings (withNotices s notices) (k ()) post) :
    Ensures unbounded settings s (if (!c) = true then Parse.mismatch t m >>= k else k ()) post := by
  cases c with
  | true => exact hk s.session.notices (.inl rfl)
  | false => exact Ensures.infer (Infer.Ensures.mismatch h) fun _ notices lax _ => hk notices (.inr lax)

end Parse

end Impulse
