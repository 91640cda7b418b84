import Mathlib.Tactic
import Waymark.Proofs.Outcome
import Waymark.Proofs.Planning.Lifted
import Waymark.Proofs.Planning.SchemaName

/-!
# Literals mean what expressions mean

Reading a condition or an effect keeps its meaning: a condition holds exactly if its literals do, and an
effect adds and deletes what its literals say, those of its conditional parts if their conditions hold.
What is read from words is made of words.

* `Atom.Proper`: atoms that are made of words;
* `Literal.Holds`, `Literal.Causes`, `Effect.Causes`: the meaning of literals and effects;
* `ReadsAs`, `readsAs_readCondition`: conditions and their literals;
* `ActsAs`, `actsAs_readSimpleEffect`: effects under a condition and their literals;
* `Effect.Renders`, `Effect.renders_read`: effects and their parts.
-/

namespace Waymark.Planning

/-- The atom is made of words and is no equality. -/
structure Atom.Proper (a : Atom) : Prop where
  predicate : IsWord a.predicate
  args : ∀ x ∈ a.args, IsWord x
  ne_eq : a.predicate ≠ "="

/-- Atoms that are made of words differ in their texts. -/
theorem Atom.Proper.text_inj {a b : Atom} (ha : a.Proper) (hb : b.Proper) (h : a.text = b.text) : a = b := by
  obtain ⟨p, xs⟩ := a
  obtain ⟨q, ys⟩ := b
  obtain ⟨rfl, rfl⟩ := atomName_inj ha.predicate hb.predicate ha.args hb.args h
  rfl

/-- The values of a proper atom are a proper atom. -/
theorem Atom.Proper.map {σ : Valuation} (hσ : ∀ w, IsWord w → IsWord (σ w)) {predicate : String}
    {args : List String} (h : Atom.Proper ⟨predicate, args⟩) : Atom.Proper ⟨predicate, args.map σ⟩ :=
  ⟨h.predicate, List.forall_mem_map.2 fun x hx => hσ x (h.args x hx), h.ne_eq⟩

end Waymark.Planning

namespace Waymark.Ground

open Planning

variable {σ : Valuation} {S : Set Atom} {adds : Bool} {a : Atom}

/-! ## Literals -/

/-- The literal holds in a state. -/
def Literal.Holds (σ : Valuation) (S : Set Atom) : Literal → Prop
  | .atom positive predicate args => Atom.mk predicate (args.map σ) ∈ S ↔ positive = true
  | .equality positive x y => σ x = σ y ↔ positive = true

/-- The literal adds an atom, or deletes it. -/
def Literal.Causes (σ : Valuation) (adds : Bool) (a : Atom) : Literal → Prop
  | .atom positive predicate args => adds = positive ∧ a = ⟨predicate, args.map σ⟩
  | .equality positive x y => adds = positive ∧ a = ⟨"=", [σ x, σ y]⟩

/-- The names of a literal are words, and its predicate is no equality. -/
def Literal.Worded : Literal → Prop
  | .atom _ predicate args => Atom.Proper ⟨predicate, args⟩
  | .equality _ x y => IsWord x ∧ IsWord y

theorem holds_equality {positive : Bool} {x y : String} :
    (Literal.equality positive x y).Holds σ S ↔ ((σ x == σ y) == positive) = true := by
  rw [beq_iff_eq, Bool.eq_iff_iff, beq_iff_eq]
  exact Iff.rfl

theorem readArgs_eq_ok {whole items : List Expr} {args : List String} (h : readArgs whole items = .ok args) :
    items = args.map .atom := by
  rw [← List.forall₂_eq_eq_eq, List.forall₂_map_right_iff]
  refine (mapM_eq_ok.1 h).imp fun x arg hx => ?_
  cases x with
  | atom a => rw [Except.ok.inj hx]
  | list xs => cases hx

theorem filterMap_atom? (args : List String) : (args.map Expr.atom).filterMap Expr.atom? = args := by
  rw [List.filterMap_map]
  exact List.filterMap_some

/-- A literal is an equality of two names, or an atom of another predicate and names. -/
theorem cases_of_readLiteral {positive : Bool} {predicate : String} {items : List Expr} {l : Literal}
    (h : readLiteral positive (.atom predicate :: items) = .ok l) :
    (predicate = "=" ∧ ∃ x y, items = [.atom x, .atom y] ∧ l = .equality positive x y) ∨
      predicate ≠ "=" ∧ ∃ args, items = args.map .atom ∧ l = .atom positive predicate args := by
  rw [readLiteral] at h
  split at h
  · rename_i heq
    obtain ⟨args, hargs, hrest⟩ := bind_eq_ok.1 h
    split at hrest
    · exact .inl ⟨heq, _, _, readArgs_eq_ok hargs, (Except.ok.inj hrest).symm⟩
    · cases hrest
  · rename_i hne
    split at h
    · obtain ⟨args, -, h⟩ := bind_eq_ok.1 h
      cases h
    · obtain ⟨args, hargs, h⟩ := bind_eq_ok.1 h
      exact .inr ⟨hne, args, readArgs_eq_ok hargs, (Except.ok.inj h).symm⟩

theorem eq_cons_of_readLiteral {positive : Bool} {items : List Expr} {l : Literal}
    (h : readLiteral positive items = .ok l) : ∃ predicate rest, items = .atom predicate :: rest := by
  unfold readLiteral at h
  split at h
  · exact ⟨_, _, rfl⟩
  · cases h

section Literals

variable {positive : Bool} {predicate : String} {items : List Expr} {l : Literal}
  (h : readLiteral positive (.atom predicate :: items) = .ok l)
include h

theorem holds_of_readLiteral (hand : predicate ≠ "and") (hnot : predicate ≠ "not") :
    l.Holds σ S ↔ ((Expr.list (.atom predicate :: items)).Holds σ S ↔ positive = true) := by
  rw [Expr.Holds, if_neg hand, if_neg hnot]
  rcases cases_of_readLiteral h with ⟨rfl, x, y, rfl, rfl⟩ | ⟨hne, args, rfl, rfl⟩
  · rw [if_pos rfl]
    exact Iff.rfl
  · rw [if_neg hne, groundAtom, filterMap_atom?]
    exact Iff.rfl

theorem causes_of_readLiteral :
    l.Causes σ adds a ↔ adds = positive ∧ a = groundAtom σ predicate items := by
  rcases cases_of_readLiteral h with ⟨rfl, x, y, rfl, rfl⟩ | ⟨-, args, rfl, rfl⟩
  · exact Iff.rfl
  · rw [groundAtom, filterMap_atom?]
    exact Iff.rfl

theorem worded_of_readLiteral (hitems : ∀ x ∈ Expr.atom predicate :: items, Planning.Worded x) :
    l.Worded := by
  obtain ⟨hpredicate, hitems⟩ := List.forall_mem_cons.1 hitems
  rcases cases_of_readLiteral h with ⟨-, x, y, rfl, rfl⟩ | ⟨hne, args, rfl, rfl⟩
  · obtain ⟨hx, hitems⟩ := List.forall_mem_cons.1 hitems
    exact ⟨isWord_of_worded hx, isWord_of_worded (hitems _ (List.mem_singleton_self _))⟩
  · exact ⟨isWord_of_worded hpredicate, fun x hx => isWord_of_worded (hitems _ (List.mem_map_of_mem hx)), hne⟩

end Literals

/-- A negation is read as a negated literal of its first part. -/
theorem cases_of_readNegation {items : List Expr} {l : Literal} (h : readNegation items = .ok l) :
    ∃ predicate inner rest, items = .list (.atom predicate :: inner) :: rest ∧ predicate ≠ "and" ∧
      predicate ≠ "not" ∧ readLiteral false (.atom predicate :: inner) = .ok l := by
  unfold readNegation at h
  split at h
  · rename_i op inner rest
    split at h
    · cases h
    · rename_i hop
      have hmem : op ∉ ["and", "or", "not"] := fun hmem => hop (List.contains_iff_mem.2 hmem)
      exact ⟨op, inner, rest, rfl, fun he => hmem (by simp [he]), fun he => hmem (by simp [he]), h⟩
  · rename_i inner rest hne
    obtain ⟨predicate, others, rfl⟩ := eq_cons_of_readLiteral h
    exact (hne predicate others rfl).elim
  · cases h

/-! ## Conditions -/

/-- The condition holds exactly if the literals do. -/
structure ReadsAs (x : Expr) (ls : List Literal) : Prop where
  holds : ∀ σ S, x.Holds σ S ↔ ∀ l ∈ ls, l.Holds σ S
  worded : Planning.Worded x → ∀ l ∈ ls, l.Worded

/-- All of the conditions hold exactly if the literals do. -/
structure ReadAllAs (xs : List Expr) (ls : List Literal) : Prop where
  holds : ∀ σ S, Expr.HoldAll σ S xs ↔ ∀ l ∈ ls, l.Holds σ S
  worded : (∀ x ∈ xs, Planning.Worded x) → ∀ l ∈ ls, l.Worded

theorem readsAs_literal {op : String} {items : List Expr} {l : Literal} (hand : op ≠ "and")
    (hnot : op ≠ "not") (h : readLiteral true (.atom op :: items) = .ok l) :
    ReadsAs (.list (.atom op :: items)) [l] where
  holds σ S := by
    rw [List.forall_mem_singleton, holds_of_readLiteral h hand hnot]
    simp
  worded hw := List.forall_mem_singleton.2 (worded_of_readLiteral h (forall_worded hw))

theorem readsAs_negation {items : List Expr} {l : Literal} (h : readNegation items = .ok l) :
    ReadsAs (.list (.atom "not" :: items)) [l] := by
  obtain ⟨predicate, inner, rest, rfl, hand, hnot, hl⟩ := cases_of_readNegation h
  refine ⟨fun σ S => ?_, fun hw => ?_⟩
  · rw [List.forall_mem_singleton, holds_of_readLiteral hl hand hnot, Expr.Holds, if_neg (by decide),
      if_pos rfl, Expr.HoldsFirst]
    simp
  · have hinner := forall_worded hw _ (List.mem_cons_of_mem _ List.mem_cons_self)
    exact List.forall_mem_singleton.2 (worded_of_readLiteral hl (forall_worded hinner))

mutual

/-- A condition is read as literals that mean the same. -/
theorem readsAs_readCondition : ∀ (x : Expr) {ls : List Literal}, readCondition x = .ok ls → ReadsAs x ls
  | .atom a, ls, h => by cases h
  | .list [], ls, h => by
    obtain rfl := Except.ok.inj h
    exact ⟨fun σ S => by simp [Expr.Holds], fun _ => by simp⟩
  | .list (.atom op :: items), ls, h => by
    unfold readCondition at h
    split at h
    · rename_i hop
      subst hop
      have hall := readAllAs_readConditions items h
      refine ⟨fun σ S => ?_, fun hw => hall.worded fun x hx => ?_⟩
      · rw [Expr.Holds, if_pos rfl, hall.holds]
      · exact forall_worded hw x (List.mem_cons_of_mem _ hx)
    · rename_i hand
      split at h
      · rename_i hop
        subst hop
        obtain ⟨l, hl, rfl⟩ := map_eq_ok.1 h
        exact readsAs_negation hl
      · rename_i hnot
        split at h
        · cases h
        · obtain ⟨l, hl, rfl⟩ := map_eq_ok.1 h
          exact readsAs_literal hand hnot hl
  | .list (.list xs :: items), ls, h => by cases h

theorem readAllAs_readConditions :
    ∀ (xs : List Expr) {ls : List Literal}, readConditions xs = .ok ls → ReadAllAs xs ls
  | [], ls, h => by
    obtain rfl := Except.ok.inj h
    exact ⟨fun σ S => by simp [Expr.HoldAll], fun _ => by simp⟩
  | x :: xs, ls, h => by
    obtain ⟨as, has, h⟩ := bind_eq_ok.1 h
    obtain ⟨bs, hbs, h⟩ := bind_eq_ok.1 h
    obtain rfl := Except.ok.inj h
    have hx := readsAs_readCondition x has
    have hxs := readAllAs_readConditions xs hbs
    refine ⟨fun σ S => ?_, fun hw => ?_⟩
    · rw [Expr.HoldAll, hx.holds, hxs.holds, List.forall_mem_append]
    · obtain ⟨hwx, hwxs⟩ := List.forall_mem_cons.1 hw
      exact List.forall_mem_append.2 ⟨hx.worded hwx, hxs.worded hwxs⟩

end

/-! ## Effects under a condition -/

/-- The effect adds and deletes what the literals say. -/
structure ActsAs (x : Expr) (ls : List Literal) : Prop where
  causes : ∀ σ S adds a, x.Causes σ S adds a ↔ ∃ l ∈ ls, l.Causes σ adds a
  worded : Planning.Worded x → ∀ l ∈ ls, l.Worded

/-- The effects together add and delete what the literals say. -/
structure ActAllAs (xs : List Expr) (ls : List Literal) : Prop where
  causes : ∀ σ S adds a, Expr.CausesAny σ S adds a xs ↔ ∃ l ∈ ls, l.Causes σ adds a
  worded : (∀ x ∈ xs, Planning.Worded x) → ∀ l ∈ ls, l.Worded

/-- A condition other than a conjunction, taken as an effect, acts as its literal. -/
theorem actsAs_readCondition {op : String} {items : List Expr} {ls : List Literal} (hand : op ≠ "and")
    (hwhen : op ≠ "when") (hincrease : op ≠ "increase")
    (h : readCondition (.list (.atom op :: items)) = .ok ls) : ActsAs (.list (.atom op :: items)) ls := by
  refine ⟨fun σ S adds a => ?_, (readsAs_readCondition _ h).worded⟩
  rw [Expr.Causes, if_neg hand, if_neg hwhen, if_neg hincrease]
  unfold readCondition at h
  rw [if_neg hand] at h
  split at h
  · rename_i hop
    subst hop
    obtain ⟨l, hl, rfl⟩ := map_eq_ok.1 h
    obtain ⟨predicate, inner, rest, rfl, -, -, hl⟩ := cases_of_readNegation hl
    rw [if_pos rfl, Expr.Negates]
    simp [causes_of_readLiteral hl]
  · rename_i hnot
    rw [if_neg hnot]
    split at h
    · cases h
    · obtain ⟨l, hl, rfl⟩ := map_eq_ok.1 h
      simp [causes_of_readLiteral hl]

mutual

theorem actsAs_readSimpleEffect :
    ∀ (x : Expr) {ls : List Literal}, readSimpleEffect x = .ok ls → ActsAs x ls
  | .atom a, ls, h => by cases h
  | .list [], ls, h => by
    obtain rfl := Except.ok.inj h
    exact ⟨fun σ S adds a => by simp [Expr.Causes], fun _ => by simp⟩
  | .list (.atom op :: items), ls, h => by
    unfold readSimpleEffect at h
    split at h
    · rename_i hop
      subst hop
      have hall := actAllAs_readSimpleEffects items h
      refine ⟨fun σ S adds a => ?_, fun hw => hall.worded fun x hx => ?_⟩
      · rw [Expr.Causes, if_pos rfl, hall.causes]
      · exact forall_worded hw x (List.mem_cons_of_mem _ hx)
    · rename_i hand
      split at h
      · cases h
      · rename_i hop
        have hmem : op ∉ ["when", "forall", "increase"] := fun hmem => hop (List.contains_iff_mem.2 hmem)
        exact actsAs_readCondition hand (fun he => hmem (by simp [he])) (fun he => hmem (by simp [he])) h
  | .list (.list xs :: items), ls, h => by cases h

theorem actAllAs_readSimpleEffects :
    ∀ (xs : List Expr) {ls : List Literal}, readSimpleEffects xs = .ok ls → ActAllAs xs ls
  | [], ls, h => by
    obtain rfl := Except.ok.inj h
    exact ⟨fun σ S adds a => by simp [Expr.CausesAny], fun _ => by simp⟩
  | x :: xs, ls, h => by
    obtain ⟨as, has, h⟩ := bind_eq_ok.1 h
    obtain ⟨bs, hbs, h⟩ := bind_eq_ok.1 h
    obtain rfl := Except.ok.inj h
    have hx := actsAs_readSimpleEffect x has
    have hxs := actAllAs_readSimpleEffects xs hbs
    refine ⟨fun σ S adds a => ?_, fun hw => ?_⟩
    · rw [Expr.CausesAny, hx.causes, hxs.causes]
      simp only [List.mem_append, or_and_right, exists_or]
    · obtain ⟨hwx, hwxs⟩ := List.forall_mem_cons.1 hw
      exact List.forall_mem_append.2 ⟨hx.worded hwx, hxs.worded hwxs⟩

end

/-! ## Effects -/

namespace Effect

variable {κ : Type}

/-- The effect adds an atom, or deletes it, if it takes place in a state. -/
def Causes (σ : Valuation) (S : Set Atom) (adds : Bool) (a : Atom) (e : Effect κ) : Prop :=
  (∃ l ∈ e.literals, l.Causes σ adds a) ∨
    ∃ c ∈ e.conditional, (∀ l ∈ c.1, l.Holds σ S) ∧ ∃ l ∈ c.2, l.Causes σ adds a

/-- The names in an effect are words. -/
structure Worded (e : Effect κ) : Prop where
  literals : ∀ l ∈ e.literals, l.Worded
  conditional : ∀ c ∈ e.conditional, (∀ l ∈ c.1, l.Worded) ∧ ∀ l ∈ c.2, l.Worded

/-- The effect adds and deletes what its parts say. -/
structure Renders (x : Expr) (e : Effect κ) : Prop where
  causes : ∀ σ S adds a, x.Causes σ S adds a ↔ e.Causes σ S adds a
  worded : Planning.Worded x → e.Worded

/-- The effects together add and delete what the parts say. -/
structure RendersAll (xs : List Expr) (e : Effect κ) : Prop where
  causes : ∀ σ S adds a, Expr.CausesAny σ S adds a xs ↔ e.Causes σ S adds a
  worded : (∀ x ∈ xs, Planning.Worded x) → e.Worded

theorem causes_append {e f : Effect κ} :
    (e.append f).Causes σ S adds a ↔ e.Causes σ S adds a ∨ f.Causes σ S adds a := by
  simp only [Causes, append, List.mem_append, or_and_right, exists_or]
  exact or_or_or_comm

theorem Worded.append {e f : Effect κ} (he : e.Worded) (hf : f.Worded) : (e.append f).Worded :=
  ⟨List.forall_mem_append.2 ⟨he.literals, hf.literals⟩,
    List.forall_mem_append.2 ⟨he.conditional, hf.conditional⟩⟩

theorem not_causes_empty (cost : Option (CostTerm κ)) :
    ¬ Causes σ S adds a ({ cost } : Effect κ) := by
  simp [Causes]

theorem worded_empty (cost : Option (CostTerm κ)) : ({ cost } : Effect κ).Worded :=
  ⟨by simp, by simp⟩

theorem renders_readWhen {items : List Expr} {e : Effect κ} (h : readWhen items = .ok e) :
    Renders (.list (.atom "when" :: items)) e := by
  unfold readWhen at h
  split at h
  · rename_i condition body
    obtain ⟨cs, hcs, h⟩ := bind_eq_ok.1 h
    obtain ⟨ls, hls, h⟩ := bind_eq_ok.1 h
    obtain rfl := Except.ok.inj h
    have hcondition := readsAs_readCondition condition hcs
    have hbody := actsAs_readSimpleEffect body hls
    refine ⟨fun σ S adds a => ?_, fun hw => ⟨by simp, List.forall_mem_singleton.2 ?_⟩⟩
    · rw [Expr.Causes, if_neg (by decide), if_pos rfl, Expr.CausesWhen, hcondition.holds, hbody.causes]
      simp [Causes]
    · have hitems := forall_worded hw
      exact ⟨hcondition.worded (hitems _ (by simp)), hbody.worded (hitems _ (by simp))⟩
  · cases h

variable [Number.Scale κ]

theorem renders_readIncrease {items : List Expr} {e : Effect κ} (h : readIncrease items = .ok e) :
    Renders (.list (.atom "increase" :: items)) e := by
  unfold readIncrease at h
  split at h
  · split at h
    · obtain ⟨cost, -, rfl⟩ := map_eq_ok.1 h
      refine ⟨fun σ S adds a => ?_, fun _ => worded_empty _⟩
      rw [Expr.Causes, if_neg (by decide), if_neg (by decide), if_pos rfl]
      exact iff_of_false not_false (not_causes_empty _)
    · cases h
  · cases h

mutual

/-- An effect is read as parts that mean the same. -/
theorem renders_read : ∀ (x : Expr) {e : Effect κ}, read x = .ok e → Renders x e
  | .atom a, e, h => by cases h
  | .list [], e, h => by
    obtain rfl := Except.ok.inj h
    exact ⟨fun σ S adds a => by simp [Expr.Causes, Causes], fun _ => worded_empty none⟩
  | .list (.atom op :: items), e, h => by
    unfold read at h
    split at h
    · rename_i hop
      subst hop
      have hall := rendersAll_readAll items h
      refine ⟨fun σ S adds a => ?_, fun hw => hall.worded fun x hx => ?_⟩
      · rw [Expr.Causes, if_pos rfl, hall.causes]
      · exact forall_worded hw x (List.mem_cons_of_mem _ hx)
    · rename_i hand
      split at h
      · rename_i hop
        exact hop ▸ renders_readWhen h
      · rename_i hwhen
        split at h
        · rename_i hop
          exact hop ▸ renders_readIncrease h
        · rename_i hincrease
          split at h
          · cases h
          · obtain ⟨ls, hls, rfl⟩ := map_eq_ok.1 h
            have hacts := actsAs_readCondition hand hwhen hincrease hls
            refine ⟨fun σ S adds a => ?_, fun hw => ⟨hacts.worded hw, by simp⟩⟩
            rw [hacts.causes]
            simp [Causes]
  | .list (.list xs :: items), e, h => by cases h

theorem rendersAll_readAll : ∀ (xs : List Expr) {e : Effect κ}, readAll xs = .ok e → RendersAll xs e
  | [], e, h => by
    obtain rfl := Except.ok.inj h
    exact ⟨fun σ S adds a => by simp [Expr.CausesAny, Causes], fun _ => worded_empty none⟩
  | x :: xs, e, h => by
    obtain ⟨f, hf, h⟩ := bind_eq_ok.1 h
    obtain ⟨g, hg, h⟩ := bind_eq_ok.1 h
    obtain rfl := Except.ok.inj h
    have hx := renders_read x hf
    have hxs := rendersAll_readAll xs hg
    refine ⟨fun σ S adds a => ?_, fun hw => ?_⟩
    · rw [Expr.CausesAny, hx.causes, hxs.causes, causes_append]
    · obtain ⟨hwx, hwxs⟩ := List.forall_mem_cons.1 hw
      exact (hx.worded hwx).append (hxs.worded hwxs)

end

end Effect

end Waymark.Ground
