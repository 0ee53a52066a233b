import Impulse.Context

/-!
# Looking up names

What a lookup finds after registries and scopes were changed. A registry that takes over another one keeps
everything it knew, and knows otherwise only what the other one knew. A scope that declares a variable shows
it, and shows everything else as before.
-/

namespace Impulse

open List

variable {xs : List Variable}

theorem find?_put {β : Type} (key : β → String) (x : β) (l : List β) (n : String) :
    (if l.any (key · == key x) then l.map fun y => if key y == key x then x else y
      else l ++ [x]).find? (key · == n)
      = if n = key x then some x else l.find? (key · == n) := by
  have replaced : ∀ l : List β, (l.map fun y => if key y == key x then x else y).find? (key · == n)
      = if n = key x then (if l.any (key · == key x) then some x else none)
        else l.find? (key · == n) := by
    intro l
    induction l with
    | nil => simp
    | cons y l ih =>
      rw [map_cons, List.find?_cons, List.find?_cons, any_cons, ih]
      by_cases hn : n = key x
      · subst hn
        by_cases hy : key y = key x
        · simp [hy]
        · have hb : (key y == key x) = false := by simpa using hy
          simp [hb]
      · by_cases hy : key y = key x
        · have hx : (key x == n) = false := by simpa using Ne.symm hn
          simp [hy, hn, hx]
        · simp [hy, hn]
  split
  · next known => rw [replaced, if_pos known]
  · next unknown =>
    rw [List.find?_append]
    by_cases hn : n = key x
    · subst hn
      have : l.find? (key · == key x) = none := by simpa using unknown
      simp [this]
    · simp [hn, Ne.symm hn]

namespace Table

variable {t : Table α} (es : List (Entry α))

def All (P : α → Prop) (t : Table α) : Prop :=
  ∀ name item, t.get? name = some item → P item

def Within (t u : Table α) : Prop :=
  ∀ name item, t.get? name = some item → u.get? name = some item

theorem has_eq_isSome (t : Table α) (name : String) : t.has name = (t.find? name).isSome := by
  unfold has find?
  rw [Bool.eq_iff_iff, List.find?_isSome]
  simp

theorem origin?_eq_none_iff : t.origin? name = none ↔ t.get? name = none := by
  simp [origin?, get?]

theorem find?_add (t : Table α) (name : String) (item : α) (origin : String) (n : String) :
    (t.add name item origin).find? n = if n = name then some ⟨name, item, origin⟩ else t.find? n := by
  have put := find?_put (fun e : Entry α => e.name) ⟨name, item, origin⟩ t.entries n
  unfold add has find?
  split
  · next known =>
    rw [if_pos known] at put
    exact put
  · next unknown =>
    rw [if_neg unknown] at put
    exact put

theorem get?_add (t : Table α) (name : String) (item : α) (origin : String) (n : String) :
    (t.add name item origin).get? n = if n = name then some item else t.get? n := by
  unfold get?
  rw [find?_add]
  split <;> rfl

theorem All.add (h : t.All P) (hitem : P item) (name origin : String) : (t.add name item origin).All P := by
  intro n i hi
  rw [get?_add] at hi
  split at hi
  · cases hi
    exact hitem
  · exact h n i hi

theorem Within.refl (t : Table α) : t.Within t :=
  fun _ _ h => h

theorem Within.trans {u w : Table α} (htu : t.Within u) (huw : u.Within w) : t.Within w :=
  fun name item h => huw name item (htu name item h)

theorem within_add (h : t.get? name = none) (item : α) (origin : String) : t.Within (t.add name item origin) := by
  intro n i hi
  rw [get?_add]
  split
  · next heq =>
    subst heq
    rw [h] at hi
    cases hi
  · exact hi

theorem find?_absorbEntries_of_known (h : t.find? name = some e) : (t.absorbEntries es).1.find? name = some e := by
  induction es generalizing t with
  | nil => exact h
  | cons e' es ih =>
    rw [absorbEntries]
    split
    · split
      · exact ih h
      · exact h
    · next hnone =>
      refine ih ?_
      rw [find?_add]
      split
      · next heq =>
        rw [heq, hnone] at h
        cases h
      · exact h

theorem find?_absorbEntries (h : (t.absorbEntries es).1.find? name = some e) :
    t.find? name = some e ∨ es.find? (·.name == name) = some e := by
  induction es generalizing t with
  | nil => exact .inl h
  | cons e' es ih =>
    rw [absorbEntries] at h
    split at h
    · next known hknown =>
      split at h
      · rcases ih h with old | new
        · exact .inl old
        · by_cases hname : e'.name = name
          · rw [hname] at hknown
            rw [find?_absorbEntries_of_known es hknown] at h
            exact .inl (hknown.trans h)
          · exact .inr (by simpa [List.find?_cons, hname] using new)
      · exact .inl h
    · next hnone =>
      by_cases hname : e'.name = name
      · have added : (t.add e'.name e'.item e'.origin).find? name = some e' := by
          rw [find?_add, if_pos hname.symm]
        rw [find?_absorbEntries_of_known es added] at h
        exact .inr (by simpa [List.find?_cons, hname] using h)
      · rcases ih h with old | new
        · rw [find?_add, if_neg (Ne.symm hname)] at old
          exact .inl old
        · exact .inr (by simpa [List.find?_cons, hname] using new)

theorem find?_absorbEntries_of_new {es : List (Entry α)}
    (agree : (t.absorbEntries es).2 = none) (unknown : t.find? name = none)
    (h : es.find? (·.name == name) = some e) : (t.absorbEntries es).1.find? name = some e := by
  induction es generalizing t with
  | nil => cases h
  | cons e' es ih =>
    by_cases hname : e'.name = name
    · have first : e' = e := by simpa [List.find?_cons, hname] using h
      subst first
      have added : (t.add e'.name e'.item e'.origin).find? name = some e' := by
        rw [find?_add, if_pos hname.symm]
      rw [absorbEntries, hname, unknown]
      dsimp only
      rw [← hname] at added ⊢
      exact find?_absorbEntries_of_known es added
    · have later : es.find? (·.name == name) = some e := by simpa [List.find?_cons, hname] using h
      rw [absorbEntries] at agree ⊢
      split at agree
      · split at agree
        · next same =>
          rw [if_pos same]
          exact ih agree unknown later
        · cases agree
      · refine ih agree ?_ later
        rw [find?_add, if_neg (Ne.symm hname)]
        exact unknown

theorem within_absorb (h : t.absorb other = (merged, conflict)) : t.Within merged := by
  intro n i hi
  obtain ⟨e, he, rfl⟩ := Option.map_eq_some_iff.mp hi
  have known := find?_absorbEntries_of_known other.entries he
  unfold absorb at h
  rw [h] at known
  rw [get?, known]
  rfl

theorem get?_absorb_of_new (h : t.absorb other = (merged, none)) (unknown : t.get? name = none)
    (new : other.get? name = some item) : merged.get? name = some item := by
  obtain ⟨e, he, rfl⟩ := Option.map_eq_some_iff.mp new
  have unknown : t.find? name = none := by simpa [get?] using unknown
  unfold absorb at h
  have found := find?_absorbEntries_of_new (by rw [h]) unknown he
  rw [h] at found
  rw [get?, found]
  rfl

theorem Within.absorb (within : t.Within other) (h : t.absorb other = (merged, none)) : other.Within merged := by
  intro n i hi
  cases known : t.get? n with
  | some j =>
    -- The registry that takes over is a part of the other, so both have the same item.
    have same := within n j known
    rw [hi] at same
    cases same
    exact within_absorb h n i known
  | none => exact get?_absorb_of_new h known hi

theorem get?_absorb_ne_none (h : t.absorb other = (merged, none)) (known : other.get? name ≠ none) :
    merged.get? name ≠ none := by
  cases mine : t.get? name with
  | some j =>
    rw [within_absorb h name j mine]
    exact nofun
  | none =>
    obtain ⟨i, hi⟩ := Option.ne_none_iff_exists'.mp known
    rw [get?_absorb_of_new h mine hi]
    exact nofun

theorem get?_absorb (h : t.absorb other = (merged, conflict)) (found : merged.get? name = some item) :
    t.get? name = some item ∨ other.get? name = some item := by
  obtain ⟨e, he, rfl⟩ := Option.map_eq_some_iff.mp found
  unfold absorb at h
  have entry : (t.absorbEntries other.entries).1.find? name = some e := by rw [h]; exact he
  rcases find?_absorbEntries other.entries entry with old | new
  · exact .inl (by rw [get?, old]; rfl)
  · exact .inr (by rw [get?, find?, new]; rfl)

theorem All.absorb (ht : t.All P) (ho : other.All P) (h : t.absorb other = (merged, conflict)) : merged.All P := by
  intro n i hi
  rcases get?_absorb h hi with old | new
  · exact ht n i old
  · exact ho n i new

end Table

namespace Frame

theorem find?_reveal (f : Frame) (x : Variable) (n : String) :
    (f.reveal x).find? n = if n = x.name then some x else f.find? n := by
  have put := find?_put Variable.name x f.visible n
  unfold reveal find?
  split
  · next known =>
    rw [if_pos known] at put
    exact put
  · next unknown =>
    rw [if_neg unknown] at put
    exact put

theorem mem_visible_reveal {f : Frame} (h : y ∈ (f.reveal x).visible) : y = x ∨ y ∈ f.visible := by
  unfold reveal at h
  split at h
  · obtain ⟨z, hz, rfl⟩ := mem_map.mp h
    split
    · exact .inl rfl
    · exact .inr hz
  · rcases mem_append.mp h with old | new
    · exact .inr old
    · exact .inl (mem_singleton.mp new)

theorem filterMap_find? {f : Frame}
    (found : ∀ x ∈ xs, f.find? x.name = some x) : (xs.map (·.name)).filterMap f.find? = xs := by
  induction xs with
  | nil => rfl
  | cons x xs ih =>
    rw [map_cons, filterMap_cons, found x (.head _), ih fun y hy => found y (.tail _ hy)]

end Frame

namespace Scope

variable {s s' : Scope}

theorem declare?_eq_some (h : s.declare? x = some (hides, s')) :
    x.name ∉ s.top.own ∧ hides = (s.find? x.name).isSome ∧
      s' = { s with top := { s.top.reveal x with own := s.top.own ++ [x.name] } } := by
  unfold declare? at h
  split at h
  · cases h
  · next fresh =>
    simp only [Option.some.injEq, Prod.mk.injEq] at h
    obtain ⟨rfl, rfl⟩ := h
    exact ⟨by simpa using fresh, rfl, rfl⟩

theorem find?_declare? (h : s.declare? x = some (hides, s')) (n : String) :
    s'.find? n = if n = x.name then some x else s.find? n := by
  obtain ⟨-, -, rfl⟩ := declare?_eq_some h
  exact Frame.find?_reveal s.top x n

/-- Declares some variables in order, if the top frame has none of them as its own. -/
def declareList? (s : Scope) : List Variable → Option Scope
  | [] => some s
  | x :: xs =>
    match s.declare? x with
    | none => none
    | some (_, s) => s.declareList? xs

theorem declareList?_cons (h : s.declareList? (x :: xs) = some s') :
    ∃ hides s₁, s.declare? x = some (hides, s₁) ∧ s₁.declareList? xs = some s' := by
  rw [declareList?] at h
  split at h
  · cases h
  · next hides s₁ declared => exact ⟨hides, s₁, declared, h⟩

theorem below_declareList? (h : s.declareList? xs = some s') : s'.below = s.below := by
  induction xs generalizing s with
  | nil =>
    cases h
    rfl
  | cons x xs ih =>
    obtain ⟨hides, s₁, hs, h⟩ := declareList?_cons h
    rw [ih h, (declare?_eq_some hs).2.2]

theorem mem_visible_declareList? (h : s.declareList? xs = some s') {y : Variable}
    (hy : y ∈ s'.top.visible) : y ∈ xs ∨ y ∈ s.top.visible := by
  induction xs generalizing s with
  | nil =>
    cases h
    exact .inr hy
  | cons x xs ih =>
    obtain ⟨hides, s₁, hs, h⟩ := declareList?_cons h
    obtain ⟨-, -, rfl⟩ := declare?_eq_some hs
    rcases ih h with new | old
    · exact .inl (.tail _ new)
    · rcases Frame.mem_visible_reveal old with rfl | old
      · exact .inl (.head _)
      · exact .inr old

theorem find?_declareList?_of_not_mem (h : s.declareList? xs = some s')
    {n : String} (hn : n ∉ xs.map (·.name)) : s'.find? n = s.find? n := by
  induction xs generalizing s with
  | nil =>
    cases h
    rfl
  | cons x xs ih =>
    obtain ⟨hides, s₁, hs, h⟩ := declareList?_cons h
    simp only [map_cons, mem_cons, not_or] at hn
    rw [ih h hn.2, find?_declare? hs, if_neg hn.1]

theorem own_declareList? (h : s.declareList? xs = some s') :
    s'.top.own = s.top.own ++ xs.map (·.name) ∧ (xs.map (·.name)).Nodup ∧
      ∀ x ∈ xs, x.name ∉ s.top.own := by
  induction xs generalizing s with
  | nil =>
    cases h
    simp
  | cons x xs ih =>
    obtain ⟨hides, s₁, hs, h⟩ := declareList?_cons h
    obtain ⟨fresh, -, hs₁⟩ := declare?_eq_some hs
    have own₁ : s₁.top.own = s.top.own ++ [x.name] := by rw [hs₁]
    obtain ⟨hown, hnodup, hnew⟩ := ih h
    rw [own₁] at hown hnew
    refine ⟨by simp [hown], ?_, ?_⟩
    · refine nodup_cons.mpr ⟨?_, hnodup⟩
      intro hmem
      obtain ⟨y, hy, hname⟩ := mem_map.mp hmem
      exact hnew y hy (by simp [hname])
    · intro y hy
      rcases mem_cons.mp hy with rfl | hy
      · exact fresh
      · exact fun hold => hnew y hy (mem_append_left _ hold)

theorem find?_declareList?_of_mem (h : s.declareList? xs = some s') (hx : x ∈ xs) : s'.find? x.name = some x := by
  induction xs generalizing s with
  | nil => cases hx
  | cons y xs ih =>
    have hnodup := (own_declareList? h).2.1
    obtain ⟨hides, s₁, hs, later⟩ := declareList?_cons h
    rcases mem_cons.mp hx with rfl | hx
    · rw [find?_declareList?_of_not_mem later (nodup_cons.mp hnodup).1, find?_declare? hs, if_pos rfl]
    · exact ih later hx

theorem declared_of_declareList? (h : Scope.empty.declareList? xs = some s') : s'.top.declared = xs := by
  have own : s'.top.own = xs.map (·.name) := (own_declareList? h).1
  unfold Frame.declared
  rw [own]
  exact Frame.filterMap_find? fun x hx => find?_declareList?_of_mem h hx

end Scope

@[simp] theorem Context.markImported_imported (c : Context) (key : UInt64) :
    (c.markImported key).2 = { c with imported := if key ∈ c.imported then c.imported else c.imported ++ [key] } := by
  unfold Context.markImported
  by_cases known : key ∈ c.imported
  · rw [if_pos (by simpa using known), if_pos known]
  · rw [if_neg (by simpa using known), if_neg known]

end Impulse
