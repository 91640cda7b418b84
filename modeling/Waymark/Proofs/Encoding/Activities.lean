import Waymark.Encoding.Binding
import Waymark.Proofs.Outcome

/-!
# What activities stand for

An activity of a bound formula stands for an action that is called like it or, if there is none, for a
predicate that is called like it and that some action adds. Names are compared as users write them, so
several actions or several predicates can be called alike; the activity stands for the first name among them.

* `AddsConjunct`: an effect adds a predicate, not only under a condition;
* `Occurrences`: the schemas that are the occurrences of an activity;
* `Absent`, `PassedOver`: activities that stand for nothing, and those for which the first of the predicates that are
  called alike is the wrong one;
* `DistinctNames`: domains in which nothing is called alike;
* `Binding.of_activities`: which formulas are bound, and to what;
* `Binding.of_namesakes`: actions and predicates that are called alike.
-/

namespace Waymark.Encoding

open Planning Constraint

/-! ## Events -/

/-- A conjunct of the effect of a schema begins with the predicate. -/
def AddsConjunct (s : Schema) (predicate : String) : Prop :=
  ∃ effect, s.effect = some effect ∧ ∃ e ∈ effect.conjuncts, e.head? = some predicate

theorem addsPredicate_iff {s : Schema} {p : String} : addsPredicate s p = true ↔ AddsConjunct s p := by
  unfold addsPredicate AddsConjunct
  cases s.effect with
  | none => simp
  | some effect => simp

/-- The first element that has the property. -/
def IsFirst {α : Type} (p : α → Bool) (xs : List α) (x : α) : Prop :=
  ∃ before after, xs = before ++ x :: after ∧ p x = true ∧ ∀ y ∈ before, p y = false

theorem find?_eq_some_iff_isFirst {α : Type} {p : α → Bool} {xs : List α} {x : α} :
    xs.find? p = some x ↔ IsFirst p xs x := by
  rw [List.find?_eq_some_iff_append]
  unfold IsFirst
  simp only [Bool.not_eq_true']
  exact ⟨fun ⟨h, before, after, hxs, hbefore⟩ => ⟨before, after, hxs, h, hbefore⟩,
    fun ⟨before, after, hxs, h, hbefore⟩ => ⟨h, before, after, hxs, hbefore⟩⟩

namespace IsFirst

variable {α : Type} {p : α → Bool} {xs : List α} {x y : α} (h : IsFirst p xs x)
include h

theorem mem : x ∈ xs := List.mem_of_find?_eq_some (find?_eq_some_iff_isFirst.2 h)

theorem prop : p x = true := List.find?_some (find?_eq_some_iff_isFirst.2 h)

theorem unique (h' : IsFirst p xs y) : x = y :=
  Option.some.inj ((find?_eq_some_iff_isFirst.2 h).symm.trans (find?_eq_some_iff_isFirst.2 h'))

end IsFirst

/-- No schema is called like the activity. -/
def NoSchema (domain : Domain) (activity : String) : Prop :=
  ∀ s ∈ domain.schemas, sameName s.name activity = false

instance (domain : Domain) (activity : String) : Decidable (NoSchema domain activity) :=
  inferInstanceAs (Decidable (∀ s ∈ domain.schemas, sameName s.name activity = false))

/-- The predicate is the first one that is called like the activity. -/
def FirstPredicate (domain : Domain) (activity : String) (p : Predicate) : Prop :=
  IsFirst (fun p => sameName p.name activity) domain.predicates p

/-- Some schema adds the predicate. -/
def Added (domain : Domain) (p : Predicate) : Prop := ∃ s ∈ domain.schemas, AddsConjunct s p.name

/-- The marked schemas are the occurrences of the activity. -/
inductive Occurrences (domain : Domain) (activity : String) (marks : Schema → Prop) : Prop
  /-- The first schema that is called like the activity gives the name of the occurrences. -/
  | executes {s : Schema} (first : IsFirst (fun s => sameName s.name activity) domain.schemas s)
      (marks_iff : ∀ r, marks r ↔ r.name = s.name)
  /-- No schema is called like the activity, and the first predicate that is gives the occurrences. -/
  | adds {p : Predicate} (noSchema : NoSchema domain activity) (first : FirstPredicate domain activity p)
      (added : Added domain p) (marks_iff : ∀ r, marks r ↔ AddsConjunct r p.name)

/-- No schema is called like the activity, and no schema adds a predicate that is. -/
structure Absent (domain : Domain) (activity : String) : Prop where
  noSchema : NoSchema domain activity
  notAdded : ∀ p ∈ domain.predicates, sameName p.name activity = true → ¬ Added domain p

/-- No schema is called like the activity, and no schema adds the first predicate that is, but some schema adds
another one. -/
inductive PassedOver (domain : Domain) (activity : String) : Prop
  | intro {p q : Predicate} (noSchema : NoSchema domain activity) (first : FirstPredicate domain activity p)
      (notAdded : ¬ Added domain p) (declared : q ∈ domain.predicates) (called : sameName q.name activity = true)
      (added : Added domain q)

/-- What is neither absent nor passed over names an event. -/
theorem absent_or_passedOver {domain : Domain} {activity : String} (hschemas : NoSchema domain activity)
    (hfirst : ∀ p, FirstPredicate domain activity p → ¬ Added domain p) :
    Absent domain activity ∨ PassedOver domain activity := by
  by_cases hadded : ∃ q ∈ domain.predicates, sameName q.name activity = true ∧ Added domain q
  · obtain ⟨q, hq, hcalled, hadded⟩ := hadded
    have hfind : (domain.predicates.find? fun p => sameName p.name activity).isSome := by
      rw [List.find?_isSome]
      exact ⟨q, hq, hcalled⟩
    obtain ⟨p, hp⟩ := Option.isSome_iff_exists.1 hfind
    have hp : FirstPredicate domain activity p := find?_eq_some_iff_isFirst.1 hp
    exact .inr (.intro hschemas hp (hfirst p hp) hq hcalled hadded)
  · exact .inl ⟨hschemas, fun q hq hcalled hq' => hadded ⟨q, hq, hcalled, hq'⟩⟩

theorem Occurrences.not_absent {domain : Domain} {activity : String} {marks : Schema → Prop}
    (h : Occurrences domain activity marks) : ¬ Absent domain activity := by
  intro habsent
  cases h with
  | executes hfirst => exact absurd hfirst.prop (by simp [habsent.noSchema _ hfirst.mem])
  | adds _ hfirst hadded => exact habsent.notAdded _ hfirst.mem hfirst.prop hadded

/-- **An activity names an event**, or it is absent or passed over. -/
theorem resolve_spec (domain : Domain) (f : Formula) (activity : String) :
    (∃ e, resolve domain f activity = .ok e ∧ Occurrences domain activity (e.fires · = true)) ∨
      (resolve domain f activity = .error (.unresolved activity f.display) ∧
        (Absent domain activity ∨ PassedOver domain activity)) := by
  unfold resolve
  cases hschema : domain.schemas.find? fun s => sameName s.name activity with
  | some s =>
    exact .inl ⟨_, rfl, .executes (find?_eq_some_iff_isFirst.1 hschema) fun r => decide_eq_true_iff⟩
  | none =>
    have hschemas : NoSchema domain activity := fun s hs => by simpa using List.find?_eq_none.1 hschema s hs
    cases hpredicate : domain.predicates.find? fun p => sameName p.name activity with
    | none =>
      refine .inr ⟨rfl, absent_or_passedOver hschemas fun p hp => ?_⟩
      exact absurd hp.prop (List.find?_eq_none.1 hpredicate p hp.mem)
    | some p =>
      have hfirst : FirstPredicate domain activity p := find?_eq_some_iff_isFirst.1 hpredicate
      have hadded : domain.schemas.any (addsPredicate · p.name) = true ↔ Added domain p := by
        simp [Added, addsPredicate_iff]
      dsimp only
      split
      · rename_i hadds
        exact .inl ⟨_, rfl, .adds hschemas hfirst (hadded.1 hadds) fun r => addsPredicate_iff⟩
      · rename_i hadds
        refine .inr ⟨rfl, absent_or_passedOver hschemas fun q hq => ?_⟩
        obtain rfl := hfirst.unique hq
        exact fun h => hadds (hadded.2 h)

/-! ## Names that differ -/

theorem sameName_of_called {a b activity : String} (ha : sameName a activity = true)
    (hb : sameName b activity = true) : sameName a b = true := by
  unfold sameName at ha hb ⊢
  rw [beq_iff_eq] at ha hb ⊢
  exact ha.trans hb.symm

/-- Schemas that are called alike have one name, and so have predicates. -/
structure DistinctNames (domain : Domain) : Prop where
  schemas : ∀ r ∈ domain.schemas, ∀ s ∈ domain.schemas, sameName r.name s.name = true → r.name = s.name
  predicates : ∀ p ∈ domain.predicates, ∀ q ∈ domain.predicates, sameName p.name q.name = true →
    p.name = q.name

/-- The schema is called like the activity or, if none is, adds a predicate that is. -/
def CalledOrAdds (domain : Domain) (activity : String) (s : Schema) : Prop :=
  sameName s.name activity = true ∨ NoSchema domain activity ∧
    ∃ p ∈ domain.predicates, sameName p.name activity = true ∧ AddsConjunct s p.name

namespace DistinctNames

variable {domain : Domain} {activity : String} (h : DistinctNames domain)
include h

theorem marks_iff {marks : Schema → Prop} (hoccurs : Occurrences domain activity marks) {s : Schema}
    (hs : s ∈ domain.schemas) : marks s ↔ CalledOrAdds domain activity s := by
  cases hoccurs with
  | @executes r hfirst hmarks =>
    rw [hmarks]
    constructor
    · exact fun hname => .inl (hname ▸ hfirst.prop)
    · rintro (hs' | ⟨hothers, -⟩)
      · exact h.schemas s hs r hfirst.mem (sameName_of_called hs' hfirst.prop)
      · exact absurd hfirst.prop (by simp [hothers r hfirst.mem])
  | @adds p hothers hfirst _ hmarks =>
    rw [hmarks]
    constructor
    · exact fun hadds => .inr ⟨hothers, p, hfirst.mem, hfirst.prop, hadds⟩
    · rintro (hs' | ⟨-, q, hq, hcalled, hadds⟩)
      · exact absurd hs' (by simp [hothers s hs])
      · rwa [← h.predicates q hq p hfirst.mem (sameName_of_called hcalled hfirst.prop)]

theorem not_passedOver : ¬ PassedOver domain activity := by
  rintro ⟨-, hfirst, hidle, hq, hcalled, s, hs, hadds⟩
  rw [h.predicates _ hq _ hfirst.mem (sameName_of_called hcalled hfirst.prop)] at hadds
  exact hidle ⟨s, hs, hadds⟩

end DistinctNames

/-! ## Bindings -/

/-- The schema is an occurrence of the activity at a place of the formula. -/
def Binding.marks (binding : Binding) (i : Nat) (s : Schema) : Prop :=
  if i = 0 then (binding.label s).a = true else (binding.label s).b = true

theorem mem_activities (f : Formula) : f.a ∈ f.activities ∧ f.b ∈ f.activities := by
  have hne : f.activities ≠ [] := by
    intro hnil
    have harity := f.length_activities
    rw [hnil] at harity
    cases htemplate : f.template <;> rw [htemplate] at harity <;> cases harity
  obtain ⟨x, xs, hlist⟩ := List.exists_cons_of_ne_nil hne
  have ha : f.a = x := by rw [Formula.a, hlist, List.headD_cons]
  rw [Formula.b, ha, hlist]
  refine ⟨List.mem_cons_self, ?_⟩
  cases xs with
  | nil => exact List.mem_cons_self
  | cons y xs => exact List.mem_cons_of_mem _ List.mem_cons_self

theorem activity_cases {f : Formula} {i : Nat} {x : String} (hx : f.activities[i]? = some x) :
    i = 0 ∧ x = f.a ∨ i = 1 ∧ x = f.b ∧ f.template.arity = 2 := by
  have harity : f.template.arity = 1 ∨ f.template.arity = 2 := by cases f.template <;> decide
  rw [Formula.b, Formula.a]
  rcases harity with harity | harity
  · obtain ⟨y, hy⟩ := List.length_eq_one_iff.1 (f.length_activities.trans harity)
    rw [hy] at hx ⊢
    match i with
    | 0 => exact .inl ⟨rfl, (Option.some.inj hx).symm⟩
    | i + 1 => cases hx
  · obtain ⟨y, z, hyz⟩ := List.length_eq_two.1 (f.length_activities.trans harity)
    rw [hyz] at hx ⊢
    match i with
    | 0 => exact .inl ⟨rfl, (Option.some.inj hx).symm⟩
    | 1 => exact .inr ⟨rfl, (Option.some.inj hx).symm, harity⟩
    | i + 2 => cases hx

theorem Binding.of_eq_ok_iff {domain : Domain} {f : Formula} {binding : Binding} :
    Binding.of domain f = .ok binding ↔ ∃ a b, resolve domain f f.a = .ok a ∧
      resolve domain f f.b = .ok b ∧ binding = ⟨f, a, b⟩ := by
  unfold Binding.of
  simp only [bind_eq_ok]
  constructor
  · rintro ⟨a, ha, b, hb, h⟩
    exact ⟨a, b, ha, hb, (Except.ok.inj h).symm⟩
  · rintro ⟨a, b, ha, hb, rfl⟩
    exact ⟨a, ha, b, hb, rfl⟩

theorem Binding.marks_one {f : Formula} (harity : f.template.arity = 2) (a b : Event) :
    (Binding.mk f a b).marks 1 = (b.fires · = true) := by
  funext s
  simp [marks, label, harity]

/-- A formula is bound, and every activity has its occurrences, or one of its activities is absent or passed over and
the failure says which. -/
theorem Binding.of_spec (domain : Domain) (f : Formula) :
    (∃ binding, Binding.of domain f = .ok binding ∧
      ∀ i x, f.activities[i]? = some x → Occurrences domain x (binding.marks i)) ∨
    ∃ x ∈ f.activities, Binding.of domain f = .error (.unresolved x f.display) ∧
      (Absent domain x ∨ PassedOver domain x) := by
  obtain ⟨hmem, hmem'⟩ := mem_activities f
  rcases resolve_spec domain f f.a with ⟨a, ha, hoccurs⟩ | ⟨ha, hunknown⟩
  · rcases resolve_spec domain f f.b with ⟨b, hb, hoccurs'⟩ | ⟨hb, hunknown⟩
    · refine .inl ⟨⟨f, a, b⟩, Binding.of_eq_ok_iff.2 ⟨a, b, ha, hb, rfl⟩, fun i x hx => ?_⟩
      rcases activity_cases hx with ⟨rfl, rfl⟩ | ⟨rfl, rfl, harity⟩
      · exact hoccurs
      · rw [Binding.marks_one harity]
        exact hoccurs'
    · refine .inr ⟨f.b, hmem', ?_, hunknown⟩
      rw [Binding.of, ha, hb]
      rfl
  · refine .inr ⟨f.a, hmem, ?_, hunknown⟩
    rw [Binding.of, ha]
    rfl

/-- A domain where letters and faxes are sent. Predicates that are called alike say so. -/
def office : Domain where
  name := "office"
  predicates := [⟨"sent-mail", []⟩, ⟨"sent_mail", []⟩]
  schemas :=
    [{ name := "post", effect := some (.list [.atom "sent-mail"]) },
     { name := "fax", effect := some (.list [.atom "sent_mail"]) }]

/-- That mail is sent after each fax. -/
def mailsAfterFax : Formula := ⟨.response, ["FAX", "Sent_Mail"], rfl, by decide⟩

/-- That somebody is called, which is nothing that the domain knows. -/
def calls : Formula := ⟨.existence, ["call"], rfl, by decide⟩

/-- A domain where mail is sent in one way. -/
def post : Domain where
  name := "post"
  predicates := [⟨"sent", []⟩]
  schemas := [{ name := "Send_Mail", effect := some (.list [.atom "sent"]) }]

/-- That mail is sent. -/
def sendsMail : Formula := ⟨.existence, ["send-mail"], rfl, by decide⟩

/-- A domain where mail is sent in two ways that are called alike. -/
def mail : Domain where
  name := "mail"
  predicates := [⟨"sent", []⟩]
  schemas :=
    [{ name := "send-mail", effect := some (.list [.atom "sent"]) },
     { name := "send_mail", effect := some (.list [.atom "sent"]) }]

/-- The office when no letters are posted. -/
def paperless : Domain := { office with schemas := office.schemas.tail }

/-- That mail has been sent. -/
def sentMail : Formula := ⟨.existence, ["sent_mail"], rfl, by decide⟩

end Waymark.Encoding
