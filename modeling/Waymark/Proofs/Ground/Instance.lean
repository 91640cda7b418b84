import Mathlib.Tactic
import Waymark.Proofs.Ground.Assignment
import Waymark.Proofs.Ground.Execution

/-!
# Ground actions mean what their schemas mean

The ground action of a schema and its arguments can be applied exactly if the schema can be applied to
them, and leads to the state whose atoms are those that the schema leads to. Literals that were decided
while grounding are left out without loss, because no schema changes them.

* `Setting.holds_of_conditionNamed`: a condition and its signed facts;
* `Effect.causes_of_named`, `Effect.proper_of_causes`: an effect and its signed facts;
* `next_texts`, `Setting.Fits.next`: what becomes of a state;
* `LiftedAction.Renders`, `LiftedAction.renders_of_read`: a schema and what it is read as;
* `Setting.Instantiates`, `Setting.instantiates_of_named`: a schema with its arguments and its ground
  action;
* `Setting.exists_instance`, `Setting.instantiates_of_mem`: the steps of a schema and its ground actions.
-/

namespace Waymark.Ground

open Planning Number

variable {κ : Type} {setting : Setting κ} {S : Set Atom} {σ : Valuation} {binding : Binding}

/-! ## Facts -/

/-- The text of a proper atom is that of an atom of the state exactly if the atom is in the state. -/
theorem mem_texts (hS : ∀ b ∈ S, b.Proper) {a : Atom} (ha : a.Proper) : a.text ∈ Atom.text '' S ↔ a ∈ S := by
  constructor
  · rintro ⟨b, hb, htext⟩
    rwa [← (hS b hb).text_inj ha htext]
  · exact fun h => ⟨a, h, rfl⟩

/-- Only atoms have facts. -/
theorem cases_of_named (hbinding : binding.Agrees σ) {l : Literal} {x : Signed String}
    (h : l.named binding = .ok x) : ∃ positive predicate args,
      l = .atom positive predicate args ∧ x = (positive, Atom.text ⟨predicate, args.map σ⟩) := by
  cases l with
  | equality => cases h
  | atom positive predicate args =>
    obtain ⟨values, hvalues, h⟩ := bind_eq_ok.1 h
    obtain rfl := hbinding.resolveAll hvalues
    exact ⟨positive, predicate, args, rfl, (Except.ok.inj h).symm⟩

section Parts

variable (hS : setting.Fits S) (hbinding : binding.Agrees σ) (hσ : ∀ w, IsWord w → IsWord (σ w))
include hS hbinding hσ

/-! ## Conditions -/

/-- A condition holds exactly if it is possible and its signed facts hold. -/
theorem Setting.holds_of_conditionNamed {ls : List Literal} (hls : ∀ l ∈ ls, l.Worded)
    {r : Option (List (Signed String))} (h : setting.conditionNamed binding ls = .ok r) :
    (∀ l ∈ ls, l.Holds σ S) ↔ ∃ xs, r = some xs ∧ AllHold (Atom.text '' S) xs := by
  induction ls generalizing r with
  | nil =>
    obtain rfl := Except.ok.inj h
    simp [AllHold]
  | cons l ls ih =>
    obtain ⟨hl, htail⟩ := List.forall_mem_cons.1 hls
    obtain ⟨verdict, hverdict, h⟩ := bind_eq_ok.1 h
    rw [List.forall_mem_cons]
    cases verdict with
    | some b =>
      rw [holds_of_decide hS hbinding hσ hl hverdict]
      cases b with
      | true =>
        rw [← ih htail h]
        exact and_iff_right rfl
      | false =>
        obtain rfl := Except.ok.inj h
        simp
    | none =>
      obtain ⟨x, hx, h⟩ := bind_eq_ok.1 h
      obtain ⟨r', hr', h⟩ := bind_eq_ok.1 h
      obtain rfl := Except.ok.inj h
      obtain ⟨positive, predicate, args, rfl, rfl⟩ := cases_of_named hbinding hx
      have hfirst : (Literal.atom positive predicate args).Holds σ S ↔
          Signed.Holds (Atom.text '' S) (positive, Atom.text ⟨predicate, args.map σ⟩) :=
        iff_congr (mem_texts hS.proper (Atom.Proper.map hσ hl)).symm Iff.rfl
      rw [ih htail hr', hfirst]
      constructor
      · rintro ⟨hhead, xs, rfl, hxs⟩
        exact ⟨_, rfl, List.forall_mem_cons.2 ⟨hhead, hxs⟩⟩
      · rintro ⟨_, hmap, hall⟩
        obtain ⟨xs, rfl, rfl⟩ := Option.map_eq_some_iff.1 hmap
        obtain ⟨hhead, hxs⟩ := List.forall_mem_cons.1 hall
        exact ⟨hhead, xs, rfl, hxs⟩

/-! ## Effects -/

omit hS hσ in
/-- The signed facts of literals are the texts of the atoms that they cause. -/
theorem mem_of_mapM_named {ls : List Literal} {xs : List (Signed String)}
    (h : ls.mapM (Literal.named binding) = .ok xs) {adds : Bool} {m : String} :
    (adds, m) ∈ xs ↔ ∃ b : Atom, b.text = m ∧ ∃ l ∈ ls, l.Causes σ adds b := by
  have hall := mapM_eq_ok.1 h
  clear h
  induction hall with
  | nil => simp
  | cons hl _ ih =>
    obtain ⟨positive, predicate, args, rfl, rfl⟩ := cases_of_named hbinding hl
    refine (List.mem_cons.trans (or_congr_right ih)).trans ?_
    simp only [List.exists_mem_cons_iff, and_or_left, exists_or]
    refine or_congr_left ⟨fun he => ?_, ?_⟩
    · obtain ⟨rfl, rfl⟩ := Prod.mk.inj he
      exact ⟨_, rfl, rfl, rfl⟩
    · rintro ⟨_, rfl, rfl, rfl⟩
      rfl

omit hS in
/-- What literals with facts cause is proper. -/
theorem proper_of_mapM_named {ls : List Literal} {xs : List (Signed String)} (hls : ∀ l ∈ ls, l.Worded)
    (h : ls.mapM (Literal.named binding) = .ok xs) {l : Literal} (hl : l ∈ ls) {adds : Bool} {b : Atom}
    (hb : l.Causes σ adds b) : b.Proper ∧ l.predicate? = some b.predicate := by
  obtain ⟨x, -, hx⟩ := exists_rel_of_mem (mapM_eq_ok.1 h).flip hl
  obtain ⟨positive, predicate, args, rfl, -⟩ := cases_of_named hbinding hx
  obtain ⟨-, rfl⟩ := hb
  exact ⟨Atom.Proper.map hσ (hls _ hl), rfl⟩

omit hS hbinding hσ in
/-- The conditional effects that are left are those whose conditions are possible. -/
theorem mem_conditionalNamed {cs : List (List Literal × List Literal)}
    {es : List (List (Signed String) × List (Signed String))}
    (h : setting.conditionalNamed binding cs = .ok es) :
    (∀ e ∈ es, ∃ c ∈ cs, setting.conditionNamed binding c.1 = .ok (some e.1) ∧
      c.2.mapM (Literal.named binding) = .ok e.2) ∧
    ∀ c ∈ cs, setting.conditionNamed binding c.1 = .ok none ∨
      ∃ e ∈ es, setting.conditionNamed binding c.1 = .ok (some e.1) ∧
        c.2.mapM (Literal.named binding) = .ok e.2 := by
  refine mem_of_collect (setting.conditionalNamed binding)
    (fun c => setting.conditionNamed binding c.1 = .ok none)
    (fun c e => setting.conditionNamed binding c.1 = .ok (some e.1) ∧
      c.2.mapM (Literal.named binding) = .ok e.2) rfl (fun c cs es h => ?_) h
  obtain ⟨r, hr, h⟩ := bind_eq_ok.1 h
  cases r with
  | none => exact .inl ⟨hr, h⟩
  | some xs =>
    obtain ⟨ys, hys, h⟩ := bind_eq_ok.1 h
    obtain ⟨rest, hrest, h⟩ := bind_eq_ok.1 h
    exact .inr ⟨(xs, ys), rest, ⟨hr, hys⟩, hrest, Except.ok.inj h⟩

variable {e : Effect κ} (he : e.Worded) {literals : List (Signed String)}
  {conditional : List (List (Signed String) × List (Signed String))}
  (hliterals : e.literals.mapM (Literal.named binding) = .ok literals)
  (hconditional : setting.conditionalNamed binding e.conditional = .ok conditional)
include he hliterals hconditional

/-- The signed facts that an effect causes are the texts of the atoms that it causes. -/
theorem Effect.causes_of_named {condition : List (Signed String)} {adds : Bool} {m : String} :
    Rule.Causes ⟨condition, literals, conditional⟩ (Atom.text '' S) (adds, m) ↔
      ∃ b : Atom, b.text = m ∧ e.Causes σ S adds b := by
  obtain ⟨hleft, hright⟩ := mem_conditionalNamed hconditional
  have hholds {c : List Literal × List Literal} (hc : c ∈ e.conditional)
      {r : Option (List (Signed String))} (hr : setting.conditionNamed binding c.1 = .ok r) :
      (∀ l ∈ c.1, l.Holds σ S) ↔ ∃ xs, r = some xs ∧ AllHold (Atom.text '' S) xs :=
    Setting.holds_of_conditionNamed hS hbinding hσ (he.conditional c hc).1 hr
  simp only [Effect.Causes, and_or_left, exists_or]
  refine or_congr (mem_of_mapM_named hbinding hliterals) ⟨?_, ?_⟩
  · rintro ⟨d, hd, hall, hx⟩
    obtain ⟨c, hc, hcondition, hdoes⟩ := hleft d hd
    obtain ⟨b, rfl, hb⟩ := (mem_of_mapM_named hbinding hdoes).1 hx
    exact ⟨b, rfl, c, hc, (hholds hc hcondition).2 ⟨_, rfl, hall⟩, hb⟩
  · rintro ⟨b, rfl, c, hc, hfires, hb⟩
    rcases hright c hc with hnone | ⟨d, hd, hcondition, hdoes⟩
    · obtain ⟨_, hnever, -⟩ := (hholds hc hnone).1 hfires
      cases hnever
    · obtain ⟨_, hxs, hall⟩ := (hholds hc hcondition).1 hfires
      obtain rfl := Option.some.inj hxs
      exact ⟨d, hd, hall, (mem_of_mapM_named hbinding hdoes).2 ⟨b, rfl, hb⟩⟩

/-- What an effect with signed facts causes is proper, and the effect mentions its predicate. -/
theorem Effect.proper_of_causes {adds : Bool} {b : Atom} (hb : e.Causes σ S adds b) :
    b.Proper ∧ ∃ l ∈ e.allLiterals, l.predicate? = some b.predicate := by
  rcases hb with ⟨l, hl, hb⟩ | ⟨c, hc, hfires, l, hl, hb⟩
  · obtain ⟨hproper, hpredicate⟩ := proper_of_mapM_named hbinding hσ he.literals hliterals hl hb
    exact ⟨hproper, l, List.mem_append_left _ hl, hpredicate⟩
  · have hwords := he.conditional c hc
    rcases (mem_conditionalNamed hconditional).2 c hc with hnone | ⟨d, -, -, hdoes⟩
    · obtain ⟨_, hnever, -⟩ := (Setting.holds_of_conditionNamed hS hbinding hσ hwords.1 hnone).1 hfires
      cases hnever
    · obtain ⟨hproper, hpredicate⟩ := proper_of_mapM_named hbinding hσ hwords.2 hdoes hl hb
      exact ⟨hproper, l, List.mem_append_right _ (List.mem_flatMap.2 ⟨c, hc, hl⟩), hpredicate⟩

end Parts

/-! ## Changes -/

section Changes

variable {C : Bool → Atom → Prop}

/-- A rule that causes the texts of atoms leads to the texts of the atoms that are left and caused, because
the texts of proper atoms differ. -/
theorem next_texts {r : Rule String} (hS : ∀ b ∈ S, b.Proper) (hC : ∀ adds b, C adds b → b.Proper)
    (hcauses : ∀ adds m, r.Causes (Atom.text '' S) (adds, m) ↔ ∃ b : Atom, b.text = m ∧ C adds b) :
    r.next (Atom.text '' S) = Atom.text '' {b | C true b ∨ b ∈ S ∧ ¬ C false b} := by
  ext m
  rw [Rule.mem_next, hcauses, hcauses]
  constructor
  · rintro (⟨b, rfl, hb⟩ | ⟨⟨b, hb, rfl⟩, hkept⟩)
    · exact ⟨b, .inl hb, rfl⟩
    · exact ⟨b, .inr ⟨hb, fun hdeleted => hkept ⟨b, rfl, hdeleted⟩⟩, rfl⟩
  · rintro ⟨b, hb | ⟨hb, hkept⟩, rfl⟩
    · exact .inl ⟨b, rfl, hb⟩
    · refine .inr ⟨⟨b, hb, rfl⟩, ?_⟩
      rintro ⟨c, htext, hdeleted⟩
      rw [(hC false c hdeleted).text_inj (hS b hb) htext] at hdeleted
      exact hkept hdeleted

/-- A state still fits after proper atoms of predicates that are not static have been deleted and added. -/
theorem Setting.Fits.next (hS : setting.Fits S)
    (hC : ∀ adds b, C adds b → b.Proper ∧ setting.statics.contains b.predicate = false) :
    setting.Fits {b | C true b ∨ b ∈ S ∧ ¬ C false b} where
  proper b hb := hb.elim (fun hb => (hC true b hb).1) fun hb => hS.proper b hb.1
  statics b hb hstatic := by
    have hnone {adds : Bool} : ¬ C adds b := by
      intro hcaused
      rw [(hC adds b hcaused).2] at hstatic
      cases hstatic
    rw [← hS.statics b hb hstatic]
    exact ⟨fun h => (h.resolve_left hnone).1, fun h => .inr ⟨h, hnone⟩⟩

end Changes

/-! ## Schemas -/

/-- What a schema is read as means the same, and is made of words. -/
structure LiftedAction.Renders (a : LiftedAction κ) (s : Schema) : Prop where
  name : a.name = s.name
  params : a.params = s.params
  allows : ∀ args S, s.Allows args S ↔ ∀ l ∈ a.condition, l.Holds (s.valuation args) S
  causes : ∀ args S adds b, s.Causes args S adds b ↔ a.effect.Causes (s.valuation args) S adds b
  condition : ∀ l ∈ a.condition, l.Worded
  effect : a.effect.Worded

variable [Scale κ]

theorem LiftedAction.read_eq_elim (s : Schema) :
    LiftedAction.read (κ := κ) s =
      (do
        let condition ← s.condition.elim (.ok []) readCondition
        let effect ← s.effect.elim (.ok {}) Effect.read
        return { name := s.name, params := s.params, condition, effect }) := by
  unfold LiftedAction.read
  rcases s.condition with _ | c <;> rcases s.effect with _ | e <;> rfl

theorem LiftedAction.renders_of_read {s : Schema} {a : LiftedAction κ} (hs : s.Worded)
    (h : LiftedAction.read s = .ok a) : a.Renders s := by
  rw [read_eq_elim] at h
  obtain ⟨condition, hcondition, h⟩ := bind_eq_ok.1 h
  obtain ⟨effect, heffect, h⟩ := bind_eq_ok.1 h
  obtain rfl := Except.ok.inj h
  have hallows : (∀ σ S, (∀ x ∈ s.condition, x.Holds σ S) ↔ ∀ l ∈ condition, l.Holds σ S) ∧
      ∀ l ∈ condition, l.Worded := by
    have hwords := hs.condition
    cases hc : s.condition with
    | none =>
      rw [hc] at hcondition
      obtain rfl := Except.ok.inj hcondition
      exact ⟨fun σ S => by simp, nofun⟩
    | some x =>
      rw [hc] at hcondition hwords
      have hreads := readsAs_readCondition x hcondition
      exact ⟨fun σ S => by simpa using hreads.holds σ S, hreads.worded (hwords x rfl)⟩
  have hcauses : (∀ σ S adds b, (∃ x ∈ s.effect, x.Causes σ S adds b) ↔ effect.Causes σ S adds b) ∧
      effect.Worded := by
    have hwords := hs.effect
    cases he : s.effect with
    | none =>
      rw [he] at heffect
      obtain rfl := Except.ok.inj heffect
      exact ⟨fun σ S adds b => by simp [Effect.Causes], Effect.worded_empty none⟩
    | some x =>
      rw [he] at heffect hwords
      have hrenders := Effect.renders_read x heffect
      exact ⟨fun σ S adds b => by simpa using hrenders.causes σ S adds b, hrenders.worded (hwords x rfl)⟩
  exact ⟨rfl, rfl, fun args S => hallows.1 _ S, fun args S adds b => hcauses.1 _ S adds b, hallows.2,
    hcauses.2⟩

/-! ## Instances -/

namespace Setting

/-- No effect of the action mentions a static predicate. -/
def Spares (setting : Setting κ) (a : LiftedAction κ) : Prop :=
  ∀ l ∈ a.effect.allLiterals, ∀ p, l.predicate? = some p → setting.statics.contains p = false

/-- The ground action can be applied exactly if the schema can be applied to the arguments, and leads to
the same atoms. If the action can be applied, what does not depend on the state stays as it is. -/
structure Instantiates (setting : Setting κ) (S : Set Atom) (x : Step) (m : NamedAction κ) : Prop where
  name : m.name = x.name
  allows : m.rule.Allows (Atom.text '' S) ↔ x.1.Allows x.2 S
  next : m.rule.next (Atom.text '' S) = Atom.text '' x.1.next x.2 S
  fits : setting.Fits (x.1.next x.2 S)

variable {a : LiftedAction κ} {s : Schema} {args : List String} (ha : a.Renders s)
  (hproper : ProperParams s.params) (hlength : s.params.length = args.length)
  (hargs : ∀ x ∈ args, IsWord x) (hS : setting.Fits S)
include ha hproper hlength hargs hS

/-- A schema that has no ground action for some arguments cannot be applied to them. -/
theorem not_allows_of_named (h : setting.named a args = .ok none) : ¬ s.Allows args S := by
  obtain ⟨condition, hcondition, h⟩ := bind_eq_ok.1 h
  have hholds := holds_of_conditionNamed hS (ha.params ▸ agrees_of hproper hlength)
    (fun _ hw => isWord_valuation hargs hw) ha.condition hcondition
  cases condition with
  | none =>
    rw [ha.allows, hholds]
    rintro ⟨_, hnever, -⟩
    cases hnever
  | some xs =>
    obtain ⟨_, -, h⟩ := bind_eq_ok.1 h
    obtain ⟨_, -, h⟩ := bind_eq_ok.1 h
    obtain ⟨_, -, h⟩ := bind_eq_ok.1 h
    cases h

/-- The ground action of a schema and its arguments does what the schema does. -/
theorem instantiates_of_named (hspares : setting.Spares a) {m : NamedAction κ}
    (h : setting.named a args = .ok (some m)) : setting.Instantiates S (s, args) m := by
  have hbinding : (Binding.of (a.params.map (·.name)) args).Agrees (s.valuation args) :=
    ha.params ▸ agrees_of hproper hlength
  have hσ : ∀ w, IsWord w → IsWord (s.valuation args w) := fun _ hw => isWord_valuation hargs hw
  obtain ⟨condition, hcondition, h⟩ := bind_eq_ok.1 h
  have hholds := holds_of_conditionNamed hS hbinding hσ ha.condition hcondition
  cases condition with
  | none => cases h
  | some xs =>
    obtain ⟨literals, hliterals, h⟩ := bind_eq_ok.1 h
    obtain ⟨conditional, hconditional, h⟩ := bind_eq_ok.1 h
    obtain ⟨cost, -, h⟩ := bind_eq_ok.1 h
    cases h
    have hcauses (adds : Bool) (n : String) :
        Rule.Causes ⟨xs, literals, conditional⟩ (Atom.text '' S) (adds, n) ↔
          ∃ b : Atom, b.text = n ∧ s.Causes args S adds b := by
      simp only [ha.causes]
      exact Effect.causes_of_named hS hbinding hσ ha.effect hliterals hconditional
    have hchanged (adds : Bool) (b : Atom) (hb : s.Causes args S adds b) :
        b.Proper ∧ setting.statics.contains b.predicate = false := by
      obtain ⟨hproper, l, hl, hpredicate⟩ := Effect.proper_of_causes hS hbinding hσ ha.effect hliterals
        hconditional ((ha.causes ..).1 hb)
      exact ⟨hproper, hspares l hl _ hpredicate⟩
    refine ⟨congrArg (atomName · args) ha.name, ?_, ?_, hS.next hchanged⟩
    · rw [ha.allows, hholds]
      exact ⟨fun hall => ⟨xs, rfl, hall⟩, fun ⟨_, hxs, hall⟩ => Option.some.inj hxs ▸ hall⟩
    · exact next_texts hS.proper (fun adds b hb => (hchanged adds b hb).1) hcauses

omit ha hproper hlength hargs hS in
/-- The ground actions of a schema are those of its arguments. -/
theorem mem_namedAll {a : LiftedAction κ} {found : List (List String)} {ms : List (NamedAction κ)}
    (h : setting.namedAll a found = .ok ms) :
    (∀ m ∈ ms, ∃ args ∈ found, setting.named a args = .ok (some m)) ∧
      ∀ args ∈ found, setting.named a args = .ok none ∨ ∃ m ∈ ms, setting.named a args = .ok (some m) := by
  refine mem_of_collect (setting.namedAll a) (fun args => setting.named a args = .ok none)
    (fun args m => setting.named a args = .ok (some m)) rfl (fun args rest ms h => ?_) h
  obtain ⟨r, hr, h⟩ := bind_eq_ok.1 h
  cases r with
  | none => exact .inl ⟨hr, h⟩
  | some m =>
    obtain ⟨ms, hms, h⟩ := bind_eq_ok.1 h
    exact .inr ⟨m, ms, hr, hms, Except.ok.inj h⟩

end Setting

/-- The arguments of a step are the names of objects. -/
theorem exists_object_of_isStep {x : Step} (hx : IsStep domain problem x) {arg : String} (harg : arg ∈ x.2) :
    ∃ o ∈ problem.objects ++ domain.constants, o.name = arg := by
  obtain ⟨p, -, o, ho, -⟩ := exists_rel_of_mem hx.2 harg
  exact ⟨o, List.mem_of_find?_eq_some ho, by simpa using List.find?_some ho⟩

/-- The arguments of a step are words. -/
theorem isWord_of_isStep (hdomain : domain.Worded) (hproblem : problem.Worded) {x : Step}
    (hx : IsStep domain problem x) : ∀ arg ∈ x.2, IsWord arg := by
  intro arg harg
  obtain ⟨o, ho, rfl⟩ := exists_object_of_isStep hx harg
  rcases List.mem_append.1 ho with ho | ho
  · exact hproblem.objects o ho
  · exact hdomain.constants o ho

namespace Setting

variable {domain : Domain} {problem : Problem} (hdomain : domain.Worded) (hproblem : problem.Worded)
  {a : LiftedAction κ} {s : Schema} (ha : a.Renders s) (hproper : ProperParams s.params)
  (hspares : setting.Spares a) {ms : List (NamedAction κ)}
  (hms : setting.instances domain.types (objectsOf domain problem) a = .ok ms) (hS : setting.Fits S)
include hdomain hproblem ha hproper hspares hms hS

/-- A step that can be taken has a ground action. -/
theorem exists_instance {args : List String} (hstep : IsStep domain problem (s, args))
    (hallows : s.Allows args S) : ∃ m ∈ ms, m.name = Step.name (s, args) := by
  have hwords := isWord_of_isStep hdomain hproblem hstep
  have hlength := hstep.2.length_eq
  obtain ⟨found, hfound, hms⟩ := bind_eq_ok.1 hms
  have hmem := mem_assignments_of_isStep ha.params hfound hproper hS ha.condition hwords hstep
    ((ha.allows args S).1 hallows)
  rcases (mem_namedAll hms).2 args hmem with hnone | ⟨m, hm, hnamed⟩
  · exact absurd hallows (not_allows_of_named ha hproper hlength hwords hS hnone)
  · exact ⟨m, hm, (instantiates_of_named ha hproper hlength hwords hS hspares hnamed).name⟩

/-- The ground actions of a schema are those of its steps. -/
theorem instantiates_of_mem (hs : s ∈ domain.schemas) {m : NamedAction κ} (hm : m ∈ ms) :
    ∃ args, IsStep domain problem (s, args) ∧ setting.Instantiates S (s, args) m := by
  obtain ⟨found, hfound, hms⟩ := bind_eq_ok.1 hms
  obtain ⟨args, hargs, hnamed⟩ := (mem_namedAll hms).1 m hm
  have hstep : IsStep domain problem (s, args) := isStep_of_assignments hs ha.params hfound hargs
  have hwords := isWord_of_isStep hdomain hproblem hstep
  exact ⟨args, hstep,
    instantiates_of_named ha hproper hstep.2.length_eq hwords hS hspares hnamed⟩

end Setting

end Waymark.Ground
