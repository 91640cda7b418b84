import Mathlib.Data.List.Forall2
import Mathlib.Tactic
import Waymark.Failure

/-!
# Computations that can fail

What it means that a computation made of others succeeds, and computations that succeed together.

* `bind_eq_ok`, `map_eq_ok`, `toOption_eq_some`, `mapM_eq_ok`: when a composed computation has a value;
* `foldlM_ok`: a property that each step of a fold keeps;
* `mem_of_collect`: what is collected from the members of a list;
* `Matches`: both fail, or both succeed with related results;
* `FailsOnly`: all failures are of a kind.
-/

namespace Waymark

variable {ε α β γ δ : Type}

theorem bind_eq_ok {x : Except ε α} {f : α → Except ε β} {b : β} :
    x >>= f = .ok b ↔ ∃ a, x = .ok a ∧ f a = .ok b := by
  cases x with
  | error e => exact ⟨nofun, nofun⟩
  | ok a => exact ⟨fun h => ⟨a, rfl, h⟩, by rintro ⟨_, ⟨⟩, h⟩; exact h⟩

theorem map_eq_ok {x : Except ε α} {f : α → β} {b : β} :
    f <$> x = .ok b ↔ ∃ a, x = .ok a ∧ f a = b := by
  cases x with
  | error e => exact ⟨nofun, nofun⟩
  | ok a => exact ⟨fun h => ⟨a, rfl, Except.ok.inj h⟩, by rintro ⟨_, ⟨⟩, rfl⟩; rfl⟩

theorem toOption_eq_some {x : Except ε α} {a : α} : x.toOption = some a ↔ x = .ok a := by
  cases x with
  | error e => exact ⟨nofun, nofun⟩
  | ok b => exact ⟨fun h => congrArg Except.ok (Option.some.inj h), fun h => congrArg some (Except.ok.inj h)⟩

theorem mapM_eq_ok {f : α → Except ε β} {xs : List α} {ys : List β} :
    xs.mapM f = .ok ys ↔ List.Forall₂ (fun x y => f x = .ok y) xs ys := by
  induction xs generalizing ys with
  | nil =>
    rw [List.mapM_nil, List.forall₂_nil_left_iff]
    exact ⟨fun h => (Except.ok.inj h).symm, fun h => congrArg Except.ok h.symm⟩
  | cons x xs ih =>
    rw [List.mapM_cons, bind_eq_ok]
    constructor
    · rintro ⟨y, hy, h⟩
      obtain ⟨zs, hzs, h⟩ := bind_eq_ok.1 h
      obtain rfl := Except.ok.inj h
      exact .cons hy (ih.1 hzs)
    · rintro (_ | ⟨hy, h⟩)
      exact ⟨_, hy, bind_eq_ok.2 ⟨_, ih.2 h, rfl⟩⟩

/-- What is related to a list comes from its members. -/
theorem exists_rel_of_mem {R : α → β → Prop} {as : List α} {bs : List β} {b : β}
    (hR : List.Forall₂ R as bs) (hb : b ∈ bs) : ∃ a ∈ as, R a b := by
  induction hR with
  | nil => simp at hb
  | cons hab _ ih =>
    rcases List.mem_cons.1 hb with rfl | hb
    · exact ⟨_, List.mem_cons_self, hab⟩
    · obtain ⟨a, ha, hR⟩ := ih hb
      exact ⟨a, List.mem_cons_of_mem _ ha, hR⟩

/-- If each member of a list is related to something, the list is related to a list. -/
theorem exists_forall₂ {R : α → β → Prop} {as : List α} (h : ∀ a ∈ as, ∃ b, R a b) : ∃ bs, List.Forall₂ R as bs := by
  induction as with
  | nil => exact ⟨[], .nil⟩
  | cons a as ih =>
    obtain ⟨⟨b, hb⟩, has⟩ := List.forall_mem_cons.1 h
    obtain ⟨bs, hbs⟩ := ih has
    exact ⟨b :: bs, .cons hb hbs⟩

/-- What each step of a fold keeps, the fold keeps. -/
theorem foldlM_ok {f : β → α → Except ε β} {P : β → Prop} {xs : List α} {b b' : β}
    (hf : ∀ x ∈ xs, ∀ b b', P b → f b x = .ok b' → P b') (hb : P b)
    (h : xs.foldlM f b = .ok b') : P b' := by
  induction xs generalizing b with
  | nil =>
    obtain rfl := Except.ok.inj h
    exact hb
  | cons x xs ih =>
    rw [List.foldlM_cons] at h
    obtain ⟨c, hc, h⟩ := bind_eq_ok.1 h
    exact ih (fun y hy => hf y (List.mem_cons_of_mem _ hy)) (hf x List.mem_cons_self b c hb hc) h

/-- What is collected from a list comes from its members, and each member gives something or is passed
over. -/
theorem mem_of_collect (collect : List α → Except ε (List β)) (passed : α → Prop) (gives : α → β → Prop)
    (hnil : collect [] = .ok [])
    (hcons : ∀ x xs ys, collect (x :: xs) = .ok ys → (passed x ∧ collect xs = .ok ys) ∨
      ∃ y rest, gives x y ∧ collect xs = .ok rest ∧ y :: rest = ys)
    {xs : List α} {ys : List β} (h : collect xs = .ok ys) :
    (∀ y ∈ ys, ∃ x ∈ xs, gives x y) ∧ ∀ x ∈ xs, passed x ∨ ∃ y ∈ ys, gives x y := by
  induction xs generalizing ys with
  | nil =>
    obtain rfl := Except.ok.inj (hnil.symm.trans h)
    exact ⟨nofun, nofun⟩
  | cons x xs ih =>
    rcases hcons x xs ys h with ⟨hx, hxs⟩ | ⟨y, rest, hx, hxs, rfl⟩
    · obtain ⟨hleft, hright⟩ := ih hxs
      refine ⟨fun y hy => ?_, List.forall_mem_cons.2 ⟨.inl hx, hright⟩⟩
      obtain ⟨x', hx', hy⟩ := hleft y hy
      exact ⟨x', List.mem_cons_of_mem _ hx', hy⟩
    · obtain ⟨hleft, hright⟩ := ih hxs
      refine ⟨List.forall_mem_cons.2 ⟨⟨x, List.mem_cons_self, hx⟩, fun z hz => ?_⟩,
        List.forall_mem_cons.2 ⟨.inr ⟨y, List.mem_cons_self, hx⟩, fun x' hx' => ?_⟩⟩
      · obtain ⟨x', hx', hz⟩ := hleft z hz
        exact ⟨x', List.mem_cons_of_mem _ hx', hz⟩
      · exact (hright x' hx').imp id fun ⟨z, hz, hx'⟩ => ⟨z, List.mem_cons_of_mem _ hz, hx'⟩

/-! ## Failures of a kind -/

section FailsOnly

variable {P : ε → Prop}

/-- If the computation fails, its failure is of the kind. -/
def FailsOnly (P : ε → Prop) (x : Except ε α) : Prop := ∀ e, x = .error e → P e

theorem FailsOnly.imp {Q : ε → Prop} {x : Except ε α} (h : FailsOnly P x) (hPQ : ∀ e, P e → Q e) : FailsOnly Q x :=
  fun e he => hPQ e (h e he)

@[simp] theorem failsOnly_ok (a : α) : FailsOnly P (.ok a) := nofun

@[simp] theorem failsOnly_pure (a : α) : FailsOnly P (pure a) := nofun

@[simp] theorem failsOnly_error {e : ε} : FailsOnly P (.error e : Except ε α) ↔ P e := by
  constructor
  · exact fun h => h e rfl
  · rintro h _ ⟨⟩
    exact h

@[simp] theorem failsOnly_throw {e : ε} : FailsOnly P (throw e : Except ε α) ↔ P e := failsOnly_error

@[simp] theorem failsOnly_bind {x : Except ε α} {f : α → Except ε β} :
    FailsOnly P (x >>= f) ↔ FailsOnly P x ∧ ∀ a, x = .ok a → FailsOnly P (f a) := by
  cases x with
  | error e =>
    have herror : Except.error e >>= f = .error e := rfl
    rw [herror, failsOnly_error, failsOnly_error]
    exact (and_iff_left nofun).symm
  | ok a =>
    constructor
    · rintro h
      exact ⟨failsOnly_ok a, by rintro _ ⟨⟩; exact h⟩
    · exact fun h => h.2 a rfl

@[simp] theorem failsOnly_map {x : Except ε α} {f : α → β} : FailsOnly P (f <$> x) ↔ FailsOnly P x := by
  cases x with
  | error e => exact failsOnly_error.trans failsOnly_error.symm
  | ok a => exact iff_of_true (failsOnly_ok (f a)) (failsOnly_ok a)

theorem FailsOnly.mapM {f : α → Except ε β} {xs : List α} (h : ∀ x ∈ xs, FailsOnly P (f x)) :
    FailsOnly P (xs.mapM f) := by
  induction xs with
  | nil => exact failsOnly_ok []
  | cons x xs ih =>
    obtain ⟨hx, hxs⟩ := List.forall_mem_cons.1 h
    rw [List.mapM_cons, failsOnly_bind]
    refine ⟨hx, fun y _ => ?_⟩
    rw [failsOnly_bind]
    exact ⟨ih hxs, fun ys _ => failsOnly_pure _⟩

theorem FailsOnly.foldlM {f : β → α → Except ε β} {xs : List α} {b : β} (h : ∀ x ∈ xs, ∀ b, FailsOnly P (f b x)) :
    FailsOnly P (xs.foldlM f b) := by
  induction xs generalizing b with
  | nil => exact failsOnly_ok b
  | cons x xs ih =>
    obtain ⟨hx, hxs⟩ := List.forall_mem_cons.1 h
    rw [List.foldlM_cons, failsOnly_bind]
    exact ⟨hx b, fun c _ => ih hxs⟩

end FailsOnly

/-! ## Success together -/

/-- Both fail, or both succeed with related results. -/
def Matches (rel : α → β → Prop) : Except ε α → Except ε β → Prop
  | .ok a, .ok b => rel a b
  | .error _, .error _ => True
  | _, _ => False

theorem Matches.imp {rel rel' : α → β → Prop} {x : Except ε α} {y : Except ε β}
    (h : Matches rel x y) (hr : ∀ a b, rel a b → rel' a b) : Matches rel' x y := by
  rcases x with e | a <;> rcases y with e' | b
  · trivial
  · exact h
  · exact h
  · exact hr a b h

theorem Matches.exists_right {rel : α → β → Prop} {x : Except ε α} {y : Except ε β} {a : α}
    (h : Matches rel x y) (hx : x = .ok a) : ∃ b, y = .ok b ∧ rel a b := by
  subst hx
  rcases y with e | b
  · exact h.elim
  · exact ⟨b, rfl, h⟩

theorem Matches.exists_left {rel : α → β → Prop} {x : Except ε α} {y : Except ε β} {b : β}
    (h : Matches rel x y) (hy : y = .ok b) : ∃ a, x = .ok a ∧ rel a b := by
  subst hy
  rcases x with e | a
  · exact h.elim
  · exact ⟨a, rfl, h⟩

end Waymark
