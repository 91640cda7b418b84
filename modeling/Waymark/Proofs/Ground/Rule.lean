import Mathlib.Data.Set.Image
import Mathlib.Tactic

/-!
# Rules over sets of facts

What an action needs and does, said over facts of any type: signed facts that it needs, signed facts
that it causes, and signed facts that it causes under a condition. A state is a set of facts. Deletes
come before adds, so a fact that is both caused and prevented holds afterwards.

* `Rule.Allows`, `Rule.next`: when a rule applies to a set, and what it makes of it;
* `Rule.allows_append_map`, `Rule.next_append_map`: rules over disjoint facts act side by side;
* `Rule.resolve`: a rule less what is decided by facts that never change, and
  `Rule.allows_of_resolve`, `Rule.next_of_resolve`: it acts like the rule itself.
-/

namespace Waymark.Ground

/-- A fact with a sign: positive if it is needed or caused, negative if it is excluded. -/
abbrev Signed (α : Type) := Bool × α

/-- The fact is in the set if it is positive, and not if it is negative. -/
def Signed.Holds {α : Type} (S : Set α) (x : Signed α) : Prop := x.2 ∈ S ↔ x.1 = true

/-- All of the signed facts hold. -/
def AllHold {α : Type} (S : Set α) (xs : List (Signed α)) : Prop := ∀ x ∈ xs, Signed.Holds S x

/-- What an action needs and does. -/
structure Rule (α : Type) where
  condition : List (Signed α) := []
  effect : List (Signed α) := []
  /-- Conditions with the effects that they trigger. -/
  conditional : List (List (Signed α) × List (Signed α)) := []

namespace Rule

variable {α β : Type}

/-- The condition holds. -/
def Allows (r : Rule α) (S : Set α) : Prop := AllHold S r.condition

/-- An effect that takes place in `S` mentions the signed fact. -/
def Causes (r : Rule α) (S : Set α) (x : Signed α) : Prop :=
  x ∈ r.effect ∨ ∃ c ∈ r.conditional, AllHold S c.1 ∧ x ∈ c.2

/-- The facts that hold after the rule has been applied. -/
def next (r : Rule α) (S : Set α) : Set α :=
  {a | r.Causes S (true, a) ∨ a ∈ S ∧ ¬ r.Causes S (false, a)}

/-- The facts that some effect of the rule mentions. -/
def changed (r : Rule α) : Set α := {a | ∃ x, (x ∈ r.effect ∨ ∃ c ∈ r.conditional, x ∈ c.2) ∧ x.2 = a}

/-- Two rules at once. -/
def append (r s : Rule α) : Rule α :=
  ⟨r.condition ++ s.condition, r.effect ++ s.effect, r.conditional ++ s.conditional⟩

/-- The rule over the images of its facts. -/
def map (f : α → β) (r : Rule α) : Rule β :=
  ⟨r.condition.map (Prod.map id f), r.effect.map (Prod.map id f),
    r.conditional.map fun c => (c.1.map (Prod.map id f), c.2.map (Prod.map id f))⟩

theorem mem_next {r : Rule α} {S : Set α} {a : α} :
    a ∈ r.next S ↔ r.Causes S (true, a) ∨ a ∈ S ∧ ¬ r.Causes S (false, a) := Iff.rfl

theorem Causes.changed {r : Rule α} {S : Set α} {x : Signed α} (h : r.Causes S x) :
    x.2 ∈ r.changed := by
  rcases h with h | ⟨c, hc, -, h⟩
  · exact ⟨x, .inl h, rfl⟩
  · exact ⟨x, .inr ⟨c, hc, h⟩, rfl⟩

/-- A rule leaves the facts alone that its effects do not mention. -/
theorem mem_next_of_not_changed {r : Rule α} {S : Set α} {a : α} (h : a ∉ r.changed) :
    a ∈ r.next S ↔ a ∈ S := by
  have hc (b : Bool) : ¬ r.Causes S (b, a) := fun hb => h hb.changed
  simp [mem_next, hc]

/-! ## Rules side by side -/

/-- The rule mentions no fact of the set. -/
structure Avoids (r : Rule α) (F : Set α) : Prop where
  condition : ∀ x ∈ r.condition, x.2 ∉ F
  effect : ∀ x ∈ r.effect, x.2 ∉ F
  conditional : ∀ c ∈ r.conditional, (∀ x ∈ c.1, x.2 ∉ F) ∧ ∀ x ∈ c.2, x.2 ∉ F

theorem Avoids.mono {r : Rule α} {F G : Set α} (h : r.Avoids F) (hG : G ⊆ F) : r.Avoids G where
  condition x hx hmem := h.condition x hx (hG hmem)
  effect x hx hmem := h.effect x hx (hG hmem)
  conditional c hc := ⟨fun x hx hmem => (h.conditional c hc).1 x hx (hG hmem),
    fun x hx hmem => (h.conditional c hc).2 x hx (hG hmem)⟩

section SideBySide

variable {f : α → β} {S : Set β} {M : Set α}

theorem allHold_append {S : Set α} {xs ys : List (Signed α)} :
    AllHold S (xs ++ ys) ↔ AllHold S xs ∧ AllHold S ys := by
  simp [AllHold, or_imp, forall_and]

/-- Facts outside the image are as they are without the image. -/
theorem allHold_union_of_avoids {xs : List (Signed β)} (h : ∀ x ∈ xs, x.2 ∉ Set.range f) :
    AllHold (S ∪ f '' M) xs ↔ AllHold S xs := by
  refine forall₂_congr fun x hx => ?_
  have hn : x.2 ∉ f '' M := fun hm => h x hx (Set.image_subset_range f M hm)
  simp [Signed.Holds, hn]

/-- Facts of the image are as they are in the set that it is the image of. -/
theorem allHold_union_map (hf : Function.Injective f) (hS : ∀ a, f a ∉ S)
    {xs : List (Signed α)} :
    AllHold (S ∪ f '' M) (xs.map (Prod.map id f)) ↔ AllHold M xs := by
  simp only [AllHold, List.forall_mem_map]
  refine forall₂_congr fun x _ => ?_
  show (f x.2 ∈ S ∪ f '' M ↔ x.1 = true) ↔ (x.2 ∈ M ↔ x.1 = true)
  rw [Set.mem_union, hf.mem_set_image, or_iff_right (hS x.2)]

theorem mem_map_signed {xs : List (Signed α)} {b : Bool} {y : β} :
    (b, y) ∈ xs.map (Prod.map id f) ↔ ∃ a, (b, a) ∈ xs ∧ f a = y := by
  constructor
  · intro h
    obtain ⟨⟨_, a⟩, hx, he⟩ := List.mem_map.1 h
    obtain ⟨rfl, rfl⟩ := Prod.mk.inj he
    exact ⟨a, hx, rfl⟩
  · rintro ⟨a, hx, rfl⟩
    exact List.mem_map_of_mem (f := Prod.map id f) hx

theorem Avoids.not_causes {r : Rule β} {F : Set β} (h : r.Avoids F) {T : Set β} {b : Bool} {a : β}
    (ha : a ∈ F) : ¬ r.Causes T (b, a) := by
  rintro (hx | ⟨c, hc, -, hx⟩)
  · exact h.effect _ hx ha
  · exact (h.conditional c hc).2 _ hx ha

theorem allows_append_map (hf : Function.Injective f) (hS : ∀ a, f a ∉ S) {r : Rule β}
    (hr : r.Avoids (Set.range f)) {s : Rule α} :
    (r.append (s.map f)).Allows (S ∪ f '' M) ↔ r.Allows S ∧ s.Allows M := by
  simp only [Allows, append, map, allHold_append]
  rw [allHold_union_of_avoids hr.condition, allHold_union_map hf hS]

theorem causes_append_map (hf : Function.Injective f) (hS : ∀ a, f a ∉ S) {r : Rule β}
    (hr : r.Avoids (Set.range f)) {s : Rule α} {x : Signed β} :
    (r.append (s.map f)).Causes (S ∪ f '' M) x ↔
      r.Causes S x ∨ ∃ a, s.Causes M (x.1, a) ∧ f a = x.2 := by
  obtain ⟨b, y⟩ := x
  have hbase : (∃ c ∈ r.conditional, AllHold (S ∪ f '' M) c.1 ∧ (b, y) ∈ c.2) ↔
      ∃ c ∈ r.conditional, AllHold S c.1 ∧ (b, y) ∈ c.2 := by
    refine exists_congr fun c => and_congr_right fun hc => ?_
    rw [allHold_union_of_avoids (hr.conditional c hc).1]
  have hcond : (∃ c ∈ (s.map f).conditional, AllHold (S ∪ f '' M) c.1 ∧ (b, y) ∈ c.2) ↔
      ∃ c ∈ s.conditional, AllHold M c.1 ∧ ∃ a, (b, a) ∈ c.2 ∧ f a = y := by
    constructor
    · rintro ⟨_, hmem, hh, hx⟩
      obtain ⟨c, hc, rfl⟩ := List.mem_map.1 hmem
      exact ⟨c, hc, (allHold_union_map hf hS).1 hh, mem_map_signed.1 hx⟩
    · rintro ⟨c, hc, hh, hx⟩
      exact ⟨(c.1.map (Prod.map id f), c.2.map (Prod.map id f)), List.mem_map.2 ⟨c, hc, rfl⟩,
        (allHold_union_map hf hS).2 hh, mem_map_signed.2 hx⟩
  have heff : (b, y) ∈ (s.map f).effect ↔ ∃ a, (b, a) ∈ s.effect ∧ f a = y := mem_map_signed
  have happ : (r.append (s.map f)).Causes (S ∪ f '' M) (b, y) ↔
      ((b, y) ∈ r.effect ∨ (b, y) ∈ (s.map f).effect) ∨
        (∃ c ∈ r.conditional, AllHold (S ∪ f '' M) c.1 ∧ (b, y) ∈ c.2) ∨
        ∃ c ∈ (s.map f).conditional, AllHold (S ∪ f '' M) c.1 ∧ (b, y) ∈ c.2 := by
    simp only [Causes, append, List.mem_append, or_and_right, exists_or]
  rw [happ, hbase, hcond, heff]
  simp only [Causes]
  constructor
  · rintro ((h | ⟨a, h, rfl⟩) | h | ⟨c, hc, hh, a, h, rfl⟩)
    · exact .inl (.inl h)
    · exact .inr ⟨a, .inl h, rfl⟩
    · exact .inl (.inr h)
    · exact .inr ⟨a, .inr ⟨c, hc, hh, h⟩, rfl⟩
  · rintro ((h | h) | ⟨a, h | ⟨c, hc, hh, h⟩, rfl⟩)
    · exact .inl (.inl h)
    · exact .inr (.inl h)
    · exact .inl (.inr ⟨a, h, rfl⟩)
    · exact .inr (.inr ⟨c, hc, hh, a, h, rfl⟩)

theorem next_append_map (hf : Function.Injective f) (hS : ∀ a, f a ∉ S) {r : Rule β}
    (hr : r.Avoids (Set.range f)) {s : Rule α} :
    (r.append (s.map f)).next (S ∪ f '' M) = r.next S ∪ f '' s.next M := by
  ext y
  by_cases hy : y ∈ Set.range f
  · obtain ⟨a, rfl⟩ := hy
    have hbase (b : Bool) : ¬ r.Causes S (b, f a) := hr.not_causes ⟨a, rfl⟩
    have hmap (b : Bool) : (∃ c, s.Causes M (b, c) ∧ f c = f a) ↔ s.Causes M (b, a) :=
      ⟨fun ⟨c, hc, he⟩ => hf he ▸ hc, fun h => ⟨a, h, rfl⟩⟩
    have hnext : f a ∉ r.next S := by simp [mem_next, hbase, hS]
    rw [mem_next, causes_append_map hf hS hr, causes_append_map hf hS hr]
    simp [hbase, hmap, hS, hnext, hf.mem_set_image, mem_next]
  · have hmap (b : Bool) : ¬ ∃ c, s.Causes M (b, c) ∧ f c = y := fun ⟨c, _, he⟩ => hy ⟨c, he⟩
    have himg (M : Set α) : y ∉ f '' M := fun h => hy (Set.image_subset_range f M h)
    rw [mem_next, causes_append_map hf hS hr, causes_append_map hf hS hr]
    simp [hmap, himg, mem_next]

/-- A rule that avoids some facts brings none of them about. -/
theorem Avoids.not_mem_next {r : Rule β} (hr : r.Avoids (Set.range f)) (hS : ∀ a, f a ∉ S) (a : α) :
    f a ∉ r.next S := by
  simp [mem_next, hr.not_causes (Set.mem_range_self a), hS]

end SideBySide

/-! ## Facts that never change -/

/-- What is known of facts is right in `S`. -/
def Agrees (known : α → Option Bool) (S : Set α) : Prop :=
  ∀ a b, known a = some b → (a ∈ S ↔ b = true)

/-- The signed facts that are left when those that are known to hold are dropped, none if one is
known not to hold. -/
def resolveAll (known : α → Option Bool) : List (Signed α) → Option (List (Signed α))
  | [] => some []
  | x :: xs => match known x.2 with
    | some b => if b == x.1 then resolveAll known xs else none
    | none => (x :: ·) <$> resolveAll known xs

/-- The rule less what is known of its conditions, none if it can never apply. -/
def resolve (known : α → Option Bool) (r : Rule α) : Option (Rule α) :=
  (resolveAll known r.condition).map fun condition =>
    { condition
      effect := r.effect
      conditional := r.conditional.filterMap fun c => (resolveAll known c.1).map (·, c.2) }

variable {known : α → Option Bool} {S : Set α}

theorem allHold_iff_of_resolveAll (hk : Agrees known S) (xs : List (Signed α)) :
    AllHold S xs ↔ ∃ ys, resolveAll known xs = some ys ∧ AllHold S ys := by
  induction xs with
  | nil => simp [resolveAll, AllHold]
  | cons x xs ih =>
    have hcons : AllHold S (x :: xs) ↔ x.Holds S ∧ AllHold S xs := by simp [AllHold]
    rw [hcons, ih]
    cases hx : known x.2 with
    | none =>
      simp only [resolveAll, hx, Option.map_eq_map, Option.map_eq_some_iff]
      constructor
      · rintro ⟨hh, ys, hys, hall⟩
        exact ⟨x :: ys, ⟨ys, hys, rfl⟩, List.forall_mem_cons.2 ⟨hh, hall⟩⟩
      · rintro ⟨_, ⟨ys, hys, rfl⟩, hall⟩
        obtain ⟨hh, hall⟩ := List.forall_mem_cons.1 hall
        exact ⟨hh, ys, hys, hall⟩
    | some b =>
      have hb := hk x.2 b hx
      obtain ⟨p, a⟩ := x
      cases p <;> cases b <;> simp_all [resolveAll, Signed.Holds]

theorem allows_of_resolve (hk : Agrees known S) {r r' : Rule α} (h : r.resolve known = some r') :
    r'.Allows S ↔ r.Allows S := by
  obtain ⟨ys, hys, rfl⟩ := Option.map_eq_some_iff.1 h
  rw [Allows, Allows, allHold_iff_of_resolveAll hk r.condition]
  simp [hys]

theorem not_allows_of_resolve (hk : Agrees known S) {r : Rule α} (h : r.resolve known = none) :
    ¬ r.Allows S := by
  rw [Allows, allHold_iff_of_resolveAll hk r.condition]
  simp [Option.map_eq_none_iff.1 h]

theorem next_of_resolve (hk : Agrees known S) {r r' : Rule α} (h : r.resolve known = some r') :
    r'.next S = r.next S := by
  obtain ⟨ys, -, rfl⟩ := Option.map_eq_some_iff.1 h
  have hc (x : Signed α) : Causes
      { condition := ys
        effect := r.effect
        conditional := r.conditional.filterMap fun c => (resolveAll known c.1).map (·, c.2) } S x ↔
      r.Causes S x := by
    refine or_congr Iff.rfl ?_
    simp only [List.mem_filterMap, Option.map_eq_some_iff]
    constructor
    · rintro ⟨_, ⟨c, hc, zs, hzs, rfl⟩, hh, hx⟩
      exact ⟨c, hc, (allHold_iff_of_resolveAll hk c.1).2 ⟨zs, hzs, hh⟩, hx⟩
    · rintro ⟨c, hc, hh, hx⟩
      obtain ⟨zs, hzs, hz⟩ := (allHold_iff_of_resolveAll hk c.1).1 hh
      exact ⟨(zs, c.2), ⟨c, hc, zs, hzs, rfl⟩, hz, hx⟩
  ext a
  rw [mem_next, mem_next, hc, hc]

/-- What is known stays right while rules do not touch it. -/
theorem Agrees.next (hk : Agrees known S) {r : Rule α}
    (hr : ∀ a, (known a).isSome → a ∉ r.changed) : Agrees known (r.next S) := by
  intro a b hab
  rw [mem_next_of_not_changed (hr a (by simp [hab])), hk a b hab]

end Rule

end Waymark.Ground
