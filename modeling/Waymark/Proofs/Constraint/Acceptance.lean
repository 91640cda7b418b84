import Waymark.Proofs.Constraint.Meaning

/-!
# Automata accept what templates mean

The state that an automaton is in after a trace says exactly what its template has to remember of the
trace. For each template this is one equation for `Template.run`, proved event by event: an automaton
that rejects an event has seen its template violated for good, and the state it is in otherwise tells
the activities that occurred, or whether an answer is owed.

* `run_concat`: a run over one more event;
* `run_existence` and the others: the state after a trace, template by template;
* `accepts_iff_holds`: a run ends in an accepting state exactly if the trace satisfies the template;
* `Template.run_iff_holds`: the same together with what unary templates do not look at.
-/

namespace Waymark.Constraint

open Classical

namespace Template

/-- The run over a trace is not rejected and ends in an accepting state. -/
def Accepts (t : Template) (events : List Label) : Prop :=
  ∃ q, t.run events = some q ∧ t.accepting q = true

@[simp] theorem run_nil (t : Template) : t.run [] = some 0 := rfl

@[simp] theorem runFrom_nil (t : Template) (q : Nat) : t.runFrom q [] = some q := rfl

theorem runFrom_cons (t : Template) (q : Nat) (l : Label) (events : List Label) :
    t.runFrom q (l :: events) = (t.step q l).bind fun q' => t.runFrom q' events := rfl

theorem run_concat (t : Template) (events : List Label) (l : Label) :
    t.run (events ++ [l]) = (t.run events).bind fun q => t.step q l := by
  simp only [run, runFrom, List.foldlM_append]
  cases events.foldlM t.step 0 <;> simp

/-- Two automata that take the same steps have the same runs. -/
theorem run_congr {t u : Template} (h : ∀ q l, t.step q l = u.step q l) (events : List Label) :
    t.run events = u.run events := by
  simp only [run, runFrom, show t.step = u.step from funext fun q => funext (h q)]

/-! ## The state after a trace -/

/-- The trace has two occurrences of the first activity. -/
def Twice (events : List Label) : Prop :=
  ∃ i j, i < j ∧ Occurs Label.a events i ∧ Occurs Label.a events j

theorem twice_concat {events : List Label} {l : Label} :
    Twice (events ++ [l]) ↔ Twice events ∨ l.a = true ∧ Seen Label.a events := by
  constructor
  · rintro ⟨i, j, hij, hi, hj⟩
    rcases occurs_concat.1 hi with hi | ⟨rfl, -⟩
    · rcases occurs_concat.1 hj with hj | ⟨-, ha⟩
      · exact .inl ⟨i, j, hij, hi, hj⟩
      · exact .inr ⟨ha, i, hi⟩
    · rcases occurs_concat.1 hj with hj | ⟨rfl, -⟩
      · have := hj.lt_length
        omega
      · omega
  · rintro (⟨i, j, hij, hi, hj⟩ | ⟨ha, i, hi⟩)
    · exact ⟨i, j, hij, occurs_concat.2 (.inl hi), occurs_concat.2 (.inl hj)⟩
    · exact ⟨i, events.length, hi.lt_length, occurs_concat.2 (.inl hi),
        occurs_concat.2 (.inr ⟨rfl, ha⟩)⟩

theorem Twice.seen {events : List Label} (h : Twice events) : Seen Label.a events :=
  let ⟨i, _, _, hi, _⟩ := h
  ⟨i, hi⟩

theorem run_existence (events : List Label) :
    run .existence events = some (if Seen Label.a events then 1 else 0) := by
  induction events using List.reverseRecOn with
  | nil => simp
  | append_singleton events l ih =>
    rw [run_concat, ih]
    by_cases ha : l.a <;> simp [step, ha]

theorem run_existenceTwo (events : List Label) :
    run .existenceTwo events =
      some (if Twice events then 2 else if Seen Label.a events then 1 else 0) := by
  induction events using List.reverseRecOn with
  | nil => simp [Twice]
  | append_singleton events l ih =>
    rw [run_concat, ih]
    have hs : Twice events → Seen Label.a events := Twice.seen
    by_cases ha : l.a <;> by_cases hs1 : Seen Label.a events <;>
      by_cases hs2 : Twice events <;> simp_all [step, twice_concat]

theorem run_absence (events : List Label) :
    run .absence events = if Seen Label.a events then none else some 0 := by
  induction events using List.reverseRecOn with
  | nil => simp
  | append_singleton events l ih =>
    rw [run_concat, ih]
    by_cases hs : Seen Label.a events <;> simp [step, hs]

theorem run_init (events : List Label) :
    run .init events =
      if events = [] then some 0 else if Occurs Label.a events 0 then some 1 else none := by
  induction events using List.reverseRecOn with
  | nil => simp
  | append_singleton events l ih =>
    rw [run_concat, ih]
    rcases eq_or_ne events [] with rfl | hne
    · simp [step, Occurs]
    · have hpos : events.length ≠ 0 := by simpa using hne
      have hfirst : Occurs Label.a (events ++ [l]) 0 ↔ Occurs Label.a events 0 := by
        simp [occurs_concat, hpos.symm]
      by_cases h : Occurs Label.a events 0 <;> simp [step, hne, hfirst, h]

theorem run_final (events : List Label) :
    run .final events = some (if EndsWith Label.a events then 1 else 0) := by
  induction events using List.reverseRecOn with
  | nil => simp
  | append_singleton events l ih => simp [run_concat, ih, step]

theorem run_respondedExistence (events : List Label) :
    run .respondedExistence events =
      some (if Seen Label.b events then 2 else if Seen Label.a events then 1 else 0) := by
  induction events using List.reverseRecOn with
  | nil => simp
  | append_singleton events l ih =>
    rw [run_concat, ih]
    by_cases hb : l.b <;> by_cases ha : l.a <;> by_cases sb : Seen Label.b events <;>
      by_cases sa : Seen Label.a events <;> simp [step, *]

theorem run_response (events : List Label) :
    run .response events = some (if Answered events then 0 else 1) := by
  induction events using List.reverseRecOn with
  | nil => simp
  | append_singleton events l ih =>
    rw [run_concat, ih]
    by_cases hb : l.b <;> by_cases ha : l.a <;> by_cases h : Answered events <;>
      simp [step, *]

theorem run_precedence (events : List Label) :
    run .precedence events =
      if Prepared events then some (if Seen Label.a events then 1 else 0) else none := by
  induction events using List.reverseRecOn with
  | nil => simp
  | append_singleton events l ih =>
    rw [run_concat, ih]
    by_cases hp : Prepared events <;> by_cases sa : Seen Label.a events <;>
      by_cases hb : l.b <;> by_cases ha : l.a <;> simp [step, *]

/-- An answer can only be owed where the first activity has occurred. -/
theorem seen_of_not_answered {events : List Label} (h : ¬ Answered events) :
    Seen Label.a events := by
  by_contra hn
  exact h fun i hi => absurd ⟨i, hi⟩ hn

theorem run_succession (events : List Label) :
    run .succession events =
      if Prepared events then
        some (if Seen Label.a events then (if Answered events then 1 else 2) else 0)
      else none := by
  induction events using List.reverseRecOn with
  | nil => simp
  | append_singleton events l ih =>
    rw [run_concat, ih]
    have hs : ¬ Answered events → Seen Label.a events := seen_of_not_answered
    by_cases hp : Prepared events <;> by_cases sa : Seen Label.a events <;>
      by_cases han : Answered events <;> by_cases hb : l.b <;> by_cases ha : l.a <;>
      simp_all [step]

/-! ### Chains -/

/-- Each occurrence of the first activity is directly followed by the second one, if by anything. -/
def Followed (events : List Label) : Prop :=
  ∀ i, Occurs Label.a events i → i + 1 < events.length → Occurs Label.b events (i + 1)

/-- Each occurrence of the second activity directly follows one of the first. -/
def Led (events : List Label) : Prop :=
  ∀ j, Occurs Label.b events j → ∃ i, i + 1 = j ∧ Occurs Label.a events i

theorem followed_concat {events : List Label} {l : Label} :
    Followed (events ++ [l]) ↔
      Followed events ∧ (EndsWith Label.a events → l.b = true) := by
  constructor
  · intro h
    refine ⟨fun i hi hlt => ?_, fun ⟨i, hlen, hi⟩ => ?_⟩
    · rcases occurs_concat.1 (h i (occurs_concat.2 (.inl hi)) (by simp; omega)) with ho | ⟨he, -⟩
      · exact ho
      · omega
    · rcases occurs_concat.1 (h i (occurs_concat.2 (.inl hi)) (by simp; omega)) with ho | ⟨-, hb⟩
      · have := ho.lt_length
        omega
      · exact hb
  · rintro ⟨h, hl⟩ i hi hlt
    simp only [List.length_append, List.length_singleton] at hlt
    rcases occurs_concat.1 hi with hi | ⟨rfl, -⟩
    · by_cases hlast : i + 1 = events.length
      · exact occurs_concat.2 (.inr ⟨hlast, hl ⟨i, hlast, hi⟩⟩)
      · exact occurs_concat.2 (.inl (h i hi (by omega)))
    · omega

theorem led_concat {events : List Label} {l : Label} :
    Led (events ++ [l]) ↔ Led events ∧ (l.b = true → EndsWith Label.a events) := by
  constructor
  · intro h
    refine ⟨fun j hj => ?_, fun hb => ?_⟩
    · obtain ⟨i, hij, hi⟩ := h j (occurs_concat.2 (.inl hj))
      rcases occurs_concat.1 hi with hi | ⟨rfl, -⟩
      · exact ⟨i, hij, hi⟩
      · have := hj.lt_length
        omega
    · obtain ⟨i, hij, hi⟩ := h events.length (occurs_concat.2 (.inr ⟨rfl, hb⟩))
      rcases occurs_concat.1 hi with hi | ⟨he, -⟩
      · exact ⟨i, hij, hi⟩
      · omega
  · rintro ⟨h, hl⟩ j hj
    rcases occurs_concat.1 hj with hj | ⟨rfl, hb⟩
    · obtain ⟨i, hij, hi⟩ := h j hj
      exact ⟨i, hij, occurs_concat.2 (.inl hi)⟩
    · obtain ⟨i, hij, hi⟩ := hl hb
      exact ⟨i, hij, occurs_concat.2 (.inl hi)⟩

/-- A chain response is owed only after the last event. -/
theorem holds_chainResponse (events : List Label) :
    Holds .chainResponse events ↔ Followed events ∧ ¬ EndsWith Label.a events := by
  constructor
  · intro h
    refine ⟨fun i hi _ => h i hi, fun ⟨i, hlen, hi⟩ => ?_⟩
    have := (h i hi).lt_length
    omega
  · rintro ⟨h, hn⟩ i hi
    have hne : i + 1 ≠ events.length := fun he => hn ⟨i, he, hi⟩
    exact h i hi (by have := hi.lt_length; omega)

theorem run_chainResponse (events : List Label) :
    run .chainResponse events =
      if Followed events then some (if EndsWith Label.a events then 1 else 0) else none := by
  induction events using List.reverseRecOn with
  | nil => simp [Followed]
  | append_singleton events l ih =>
    rw [run_concat, ih]
    by_cases hf : Followed events <;> by_cases he : EndsWith Label.a events <;>
      by_cases hb : l.b <;> simp [step, followed_concat, *]

theorem run_chainPrecedence (events : List Label) :
    run .chainPrecedence events =
      if Led events then some (if EndsWith Label.a events then 1 else 0) else none := by
  induction events using List.reverseRecOn with
  | nil => simp [Led]
  | append_singleton events l ih =>
    rw [run_concat, ih]
    by_cases hf : Led events <;> by_cases he : EndsWith Label.a events <;>
      by_cases hb : l.b <;> simp [step, led_concat, *]

/-! ### Exclusion -/

theorem run_notCoExistence (events : List Label) :
    run .notCoExistence events =
      if Seen Label.a events ∧ Seen Label.b events then none
      else some (if Seen Label.a events then 1 else if Seen Label.b events then 2 else 0) := by
  induction events using List.reverseRecOn with
  | nil => simp
  | append_singleton events l ih =>
    obtain ⟨la, lb⟩ := l
    rw [run_concat, ih]
    by_cases sa : Seen Label.a events <;> by_cases sb : Seen Label.b events <;>
      cases la <;> cases lb <;> simp [step, *]

theorem run_exclusiveChoice (events : List Label) :
    run .exclusiveChoice events = run .notCoExistence events :=
  run_congr (fun _ _ => rfl) events

/-! ## Acceptance -/

/-- An automaton accepts exactly the traces that satisfy its template. -/
theorem accepts_iff_holds (t : Template) (events : List Label) :
    t.Accepts events ↔ t.Holds events := by
  unfold Accepts
  cases t with
  | existence =>
    simp only [run_existence, Holds]
    by_cases sa : Seen Label.a events <;> simp [accepting, sa]
  | existenceTwo =>
    have hs : Twice events → Seen Label.a events := Twice.seen
    rw [show Holds .existenceTwo events ↔ Twice events from Iff.rfl, run_existenceTwo]
    by_cases h2 : Twice events <;> by_cases sa : Seen Label.a events <;> simp_all [accepting]
  | absence =>
    simp only [run_absence, Holds]
    by_cases sa : Seen Label.a events <;> simp [accepting, sa]
  | init =>
    simp only [run_init, Holds]
    rcases eq_or_ne events [] with rfl | hne
    · simp [accepting]
    · by_cases h : Occurs Label.a events 0 <;> simp [accepting, hne, h]
  | final =>
    simp only [run_final, Holds]
    by_cases he : EndsWith Label.a events <;> simp [accepting, he]
  | respondedExistence =>
    simp only [run_respondedExistence, Holds]
    by_cases sa : Seen Label.a events <;> by_cases sb : Seen Label.b events <;>
      simp [accepting, sa, sb]
  | response =>
    simp only [run_response, Holds]
    by_cases h : Answered events <;> simp [accepting, h]
  | precedence =>
    simp only [run_precedence, Holds]
    by_cases h : Prepared events <;> simp [accepting, h]
  | succession =>
    have hs : ¬ Answered events → Seen Label.a events := seen_of_not_answered
    simp only [run_succession, Holds]
    by_cases hp : Prepared events <;> by_cases han : Answered events <;>
      by_cases sa : Seen Label.a events <;> simp_all [accepting]
  | chainResponse =>
    rw [holds_chainResponse, run_chainResponse]
    by_cases hf : Followed events <;> by_cases he : EndsWith Label.a events <;>
      simp [accepting, hf, he]
  | chainPrecedence =>
    rw [show Holds .chainPrecedence events ↔ Led events from Iff.rfl, run_chainPrecedence]
    by_cases h : Led events <;> simp [accepting, h]
  | notCoExistence =>
    simp only [run_notCoExistence, Holds]
    by_cases sa : Seen Label.a events <;> by_cases sb : Seen Label.b events <;>
      simp [accepting, sa, sb]
  | exclusiveChoice =>
    simp only [run_exclusiveChoice, run_notCoExistence, Holds]
    by_cases sa : Seen Label.a events <;> by_cases sb : Seen Label.b events <;>
      simp [accepting, sa, sb]

/-! ## Unary templates -/

/-- A step of a unary template reads the first activity only. -/
theorem step_eq_of_unary {t : Template} (ht : t.arity = 1) (q : Nat) {l l' : Label}
    (h : l.a = l'.a) : t.step q l = t.step q l' := by
  cases t <;> simp_all [arity, step]

theorem runFrom_eq_of_unary {t : Template} (ht : t.arity = 1) :
    ∀ (events others : List Label) (q : Nat), events.map Label.a = others.map Label.a →
      t.runFrom q events = t.runFrom q others := by
  intro events
  induction events with
  | nil =>
    intro others q h
    cases others with
    | nil => rfl
    | cons l others => simp at h
  | cons l events ih =>
    intro others q h
    cases others with
    | nil => simp at h
    | cons l' others =>
      simp only [List.map_cons, List.cons.injEq] at h
      rw [runFrom_cons, runFrom_cons, step_eq_of_unary ht q h.1]
      exact congrArg _ (funext fun q' => ih others q' h.2)

/-- **Automata are exact.** A run ends in an accepting state exactly if the trace satisfies the
template, and for a unary template nothing else depends on the second activity either. -/
theorem run_iff_holds (t : Template) (events : List Label) :
    ((∃ q, t.run events = some q ∧ t.accepting q = true) ↔ t.Holds events) ∧
      (t.arity = 1 → ∀ others : List Label, events.map Label.a = others.map Label.a →
        t.run events = t.run others) :=
  ⟨accepts_iff_holds t events, fun ht others h => runFrom_eq_of_unary ht events others 0 h⟩

/-- A succession with an event that is both activities, and an absence whose trace has a second
activity. -/
theorem run_iff_holds_both :
    (∃ q, run .succession [⟨false, false⟩, ⟨true, true⟩] = some q ∧ accepting .succession q = true) ∧
      Holds .succession [⟨false, false⟩, ⟨true, true⟩] ∧
      arity .absence = 1 ∧ run .absence [⟨false, true⟩] = run .absence [⟨false, false⟩] :=
  have h : ∃ q, run .succession [⟨false, false⟩, ⟨true, true⟩] = some q ∧
      accepting .succession q = true := ⟨1, by decide, by decide⟩
  ⟨h, (run_iff_holds .succession _).1.1 h, rfl, (run_iff_holds .absence _).2 rfl _ rfl⟩

end Template

end Waymark.Constraint
