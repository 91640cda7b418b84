import Mathlib.Tactic
import Waymark.Proofs.Expr.Nesting
import Waymark.Proofs.Planning.ProblemText

/-!
# Tasks are read back

The text of a domain or of a problem is refused only if it is nested too deeply. What is read leaves room for the lists
that it is written in, so it is read back from its text.

* `Schema.Within`, `Domain.Within`, `Problem.Within`: how many levels of lists are left for conditions and effects;
* `Domain.depth_expr_le`, `Problem.depth_expr_le`: what this means for the texts;
* `Domain.within_of_read`, `Problem.within_of_read`: what is left in a task that has been read;
* `Domain.read_text_eq_ok`, `Problem.read_text_eq_ok`: when a text is read back;
* `Domain.read_text_of_deep`, `Problem.read_text_of_deep`: how it is refused otherwise;
* `read_text_of_read`: what has been read is read back.
-/

namespace Waymark.Planning

open Waymark.Expr

variable {n : Nat} {text : String} {x : Expr}

/-! ## Reading expressions -/

theorem readExpr_eq_ok : readExpr text = .ok x ↔ readOne text.toList = .ok x := by
  unfold readExpr
  cases readOne text.toList with
  | error e => exact iff_of_false nofun nofun
  | ok y => exact ⟨fun h => congrArg _ (Except.ok.inj h), fun h => congrArg _ (Except.ok.inj h)⟩

theorem eq_of_readDefinition {kind name : String} {sections : List Expr}
    (h : readDefinition kind x = .ok (name, sections)) :
    x = .list (.atom "define" :: .list [.atom kind, .atom name] :: sections) := by
  unfold readDefinition at h
  split at h
  · split at h
    · rename_i hkind
      obtain ⟨rfl, rfl⟩ := Prod.mk.inj (Except.ok.inj h)
      rw [hkind]
    · cases h
  · cases h
  · cases h

/-- The sections of a definition have two levels less than the text. -/
theorem depth_le_of_readDefinition {kind name : String} {sections : List Expr} (hx : x.depth ≤ n + 1)
    (h : readDefinition kind x = .ok (name, sections)) : ∀ y ∈ sections, y.depth ≤ n := by
  rw [eq_of_readDefinition h] at hx
  intro y hy
  exact depth_list_le.1 hx y (List.mem_cons_of_mem _ (List.mem_cons_of_mem _ hy))

/-! ## Sections -/

theorem mem_sectionOf {key : String} {items : List Expr} (h : x ∈ sectionOf key items) :
    x = .list (.atom key :: items) := by
  unfold sectionOf at h
  split at h
  · cases h
  · exact List.mem_singleton.1 h

theorem depth_section_le {key : String} {items : List Expr} :
    (Expr.list (.atom key :: items)).depth ≤ n + 1 ↔ ∀ x ∈ items, x.depth ≤ n := by
  rw [depth_list_le, List.forall_mem_cons, depth_atom]
  exact and_iff_right (Nat.zero_le n)

/-- A section of names is as flat as the header of a definition. -/
theorem depth_le_of_mem_sectionOf {key : String} {names : List String}
    (h : x ∈ sectionOf key (names.map .atom)) : x.depth ≤ n + 1 := by
  rw [mem_sectionOf h]
  exact depth_section_le.2 (depth_le_of_mem_atoms n)

theorem depth_header_le (kind name : String) : (Expr.list [.atom kind, .atom name]).depth ≤ n + 1 :=
  depth_section_le.2 (by simp)

/-! ## Domains -/

/-- The condition and the effect of a schema are nested in at most `n` levels. -/
structure Schema.Within (n : Nat) (s : Schema) : Prop where
  condition : ∀ x ∈ s.condition, x.depth ≤ n
  effect : ∀ x ∈ s.effect, x.depth ≤ n

/-- Conditions and effects are nested in at most `n` levels. The functions are a section, which has one level more. -/
structure Domain.Within (n : Nat) (d : Domain) : Prop where
  functions : ∀ x ∈ d.functions, x.depth ≤ n + 1
  schemas : ∀ s ∈ d.schemas, s.Within n

theorem Predicate.depth_expr_le (p : Predicate) : p.expr.depth ≤ n + 1 :=
  depth_section_le.2 (depth_le_of_mem_atoms n)

theorem depth_le_of_mem_keyed {key : String} {value : Option Expr} :
    (∀ x ∈ keyed key value, x.depth ≤ n) ↔ ∀ x ∈ value, x.depth ≤ n := by
  cases value <;> simp [keyed]

theorem Schema.depth_expr_le {s : Schema} : s.expr.depth ≤ n + 2 ↔ s.Within (n + 1) := by
  have hparams : (Expr.list (typedItems s.params)).depth ≤ n + 1 := depth_list_le.2 (depth_le_of_mem_atoms n)
  rw [Schema.expr, depth_section_le, List.forall_mem_cons, List.forall_mem_cons, List.forall_mem_cons,
    List.forall_mem_append, depth_le_of_mem_keyed, depth_le_of_mem_keyed]
  constructor
  · rintro ⟨-, -, -, hcondition, heffect⟩
    exact ⟨hcondition, heffect⟩
  · intro h
    exact ⟨by simp, by simp, hparams, h.condition, h.effect⟩

/-- **How deeply the text of a domain is nested** depends on its functions, conditions and effects only. -/
theorem Domain.depth_expr_le {d : Domain} : d.expr.depth ≤ n + 3 ↔ d.Within (n + 1) := by
  have hpredicates : (Expr.list (.atom ":predicates" :: d.predicates.map Predicate.expr)).depth ≤ n + 2 :=
    depth_section_le.2 (List.forall_mem_map.2 fun p _ => p.depth_expr_le)
  have hnames {key : String} {names : List String} : ∀ x ∈ sectionOf key (names.map .atom), x.depth ≤ n + 2 :=
    fun x hx => depth_le_of_mem_sectionOf hx
  rw [Domain.expr, depth_section_le, List.forall_mem_cons, Domain.sections]
  simp only [List.forall_mem_append]
  constructor
  · rintro ⟨-, ⟨-, hfunctions⟩, hschemas⟩
    refine ⟨fun x hx => hfunctions x (Option.mem_toList.2 hx), fun s hs => ?_⟩
    exact Schema.depth_expr_le.1 (hschemas s.expr (List.mem_map_of_mem hs))
  · intro h
    refine ⟨depth_header_le "domain" d.name, ⟨⟨⟨⟨hnames, hnames⟩, hnames⟩, ?_⟩, ?_⟩, ?_⟩
    · exact List.forall_mem_singleton.2 hpredicates
    · exact fun x hx => h.functions x (Option.mem_toList.1 hx)
    · exact List.forall_mem_map.2 fun s hs => Schema.depth_expr_le.2 (h.schemas s hs)

theorem within_of_readSchemaParts {parts : List Expr} {s s' : Schema} (hs : s.Within n)
    (hparts : ∀ x ∈ parts, x.depth ≤ n) (h : readSchemaParts s parts = .ok s') : s'.Within n := by
  have hskip {key value : Expr} {rest : List Expr} (hparts : ∀ x ∈ key :: value :: rest, x.depth ≤ n) :
      value.depth ≤ n ∧ ∀ x ∈ rest, x.depth ≤ n := List.forall_mem_cons.1 (List.forall_mem_cons.1 hparts).2
  have hpart {value : Expr} (hvalue : value.depth ≤ n) : ∀ x ∈ nonEmpty value, x.depth ≤ n := by
    intro x hx
    obtain ⟨rfl, -⟩ := nonEmpty_eq_some.1 hx
    exact hvalue
  fun_induction readSchemaParts s parts with
  | case1 s => exact Except.ok.inj h ▸ hs
  | case2 => cases h
  | case3 s rest items ih =>
    obtain ⟨params, -, h⟩ := bind_eq_ok.1 h
    exact ih params ⟨hs.condition, hs.effect⟩ (hskip hparts).2 h
  | case4 => cases h
  | case5 s value rest ih =>
    obtain ⟨hvalue, hrest⟩ := hskip hparts
    exact ih ⟨hpart hvalue, hs.effect⟩ hrest h
  | case6 s value rest ih =>
    obtain ⟨hvalue, hrest⟩ := hskip hparts
    exact ih ⟨hs.condition, hpart hvalue⟩ hrest h
  | case7 => cases h

theorem within_of_addSection {d d' : Domain} (hx : x.depth ≤ n + 1) (hd : d.Within n)
    (h : d.addSection x = .ok d') : d'.Within n := by
  unfold Domain.addSection at h
  obtain ⟨⟨key, body⟩, hsection, hadd⟩ := bind_eq_ok.1 h
  obtain ⟨rfl, -⟩ := readSection_eq_ok.1 hsection
  clear h
  have hbody := depth_section_le.1 hx
  dsimp only at hadd
  split at hadd
  · obtain ⟨names, -, rfl⟩ := map_eq_ok.1 hadd
    exact ⟨hd.functions, hd.schemas⟩
  · obtain ⟨types, -, rfl⟩ := map_eq_ok.1 hadd
    exact ⟨hd.functions, hd.schemas⟩
  · obtain ⟨constants, -, rfl⟩ := map_eq_ok.1 hadd
    exact ⟨hd.functions, hd.schemas⟩
  · obtain ⟨predicates, -, rfl⟩ := map_eq_ok.1 hadd
    exact ⟨hd.functions, hd.schemas⟩
  · obtain rfl := Except.ok.inj hadd
    exact ⟨fun y hy => Option.some.inj hy ▸ hx, hd.schemas⟩
  · obtain ⟨s, hs, rfl⟩ := map_eq_ok.1 hadd
    refine ⟨hd.functions, List.forall_mem_append.2 ⟨hd.schemas, List.forall_mem_singleton.2 ?_⟩⟩
    unfold readSchema at hs
    split at hs
    · exact within_of_readSchemaParts ⟨by simp, by simp⟩ (List.forall_mem_cons.1 hbody).2 hs
    · cases hs
  · cases hadd

/-- The conditions and effects of a domain that has been read have two levels less than its text. -/
theorem Domain.within_of_read {d : Domain} (h : Domain.read text = .ok d) {x : Expr} (hx : readExpr text = .ok x)
    (hdepth : x.depth ≤ n + 2) : d.Within n := by
  unfold Domain.read at h
  obtain ⟨y, hy, h⟩ := bind_eq_ok.1 h
  obtain rfl := Except.ok.inj (hy.symm.trans hx)
  obtain ⟨⟨name, sections⟩, hdefinition, h⟩ := bind_eq_ok.1 h
  have hsections := depth_le_of_readDefinition hdepth hdefinition
  exact foldlM_ok (P := Domain.Within n) (fun z hz d d' hd hd' => within_of_addSection (hsections z hz) hd hd')
    ⟨by simp, by simp⟩ h

/-! ## Problems -/

/-- The initial facts, the goal and the metric are nested in at most `n` levels. -/
structure Problem.Within (n : Nat) (p : Problem) : Prop where
  init : ∀ x ∈ p.init, x.depth ≤ n
  goal : p.goal.depth ≤ n
  metric : ∀ xs ∈ p.metric, ∀ x ∈ xs, x.depth ≤ n

/-- The same of a problem while its sections are read. -/
structure ProblemParts.Within (n : Nat) (p : ProblemParts) : Prop where
  init : ∀ x ∈ p.init, x.depth ≤ n
  goal : ∀ x ∈ p.goal, x.depth ≤ n
  metric : ∀ xs ∈ p.metric, ∀ x ∈ xs, x.depth ≤ n

/-- **How deeply the text of a problem is nested** depends on its facts, its goal and its metric only. -/
theorem Problem.depth_expr_le {p : Problem} : p.expr.depth ≤ n + 2 ↔ p.Within n := by
  have hnames {key : String} {names : List String} : ∀ x ∈ sectionOf key (names.map .atom), x.depth ≤ n + 1 :=
    fun x hx => depth_le_of_mem_sectionOf hx
  rw [Problem.expr, depth_section_le, List.forall_mem_cons, Problem.sections]
  simp only [List.forall_mem_append, List.forall_mem_singleton, depth_section_le]
  constructor
  · rintro ⟨-, ⟨⟨-, hinit⟩, hgoal⟩, hmetric⟩
    refine ⟨hinit, hgoal, fun xs hxs => ?_⟩
    exact depth_section_le.1 (hmetric _ (Option.mem_toList.2 (Option.mem_map.2 ⟨xs, hxs, rfl⟩)))
  · intro h
    refine ⟨by simp, ⟨⟨⟨⟨by simp, hnames⟩, hnames⟩, h.init⟩, h.goal⟩, fun x hx => ?_⟩
    obtain ⟨xs, hxs, rfl⟩ := Option.mem_map.1 (Option.mem_toList.1 hx)
    exact depth_section_le.2 (h.metric xs hxs)

theorem within_of_addProblemSection {p p' : ProblemParts} (hx : x.depth ≤ n + 1) (hp : p.Within n)
    (h : p.addSection x = .ok p') : p'.Within n := by
  unfold ProblemParts.addSection at h
  obtain ⟨⟨key, body⟩, hsection, hadd⟩ := bind_eq_ok.1 h
  obtain ⟨rfl, -⟩ := readSection_eq_ok.1 hsection
  clear h
  have hbody := depth_section_le.1 hx
  dsimp only at hadd
  split at hadd
  · obtain ⟨names, -, rfl⟩ := map_eq_ok.1 hadd
    exact ⟨hp.init, hp.goal, hp.metric⟩
  · obtain ⟨names, -, rfl⟩ := map_eq_ok.1 hadd
    exact ⟨hp.init, hp.goal, hp.metric⟩
  · obtain ⟨objects, -, rfl⟩ := map_eq_ok.1 hadd
    exact ⟨hp.init, hp.goal, hp.metric⟩
  · obtain rfl := Except.ok.inj hadd
    exact ⟨hbody, hp.goal, hp.metric⟩
  · split at hadd
    · obtain rfl := Except.ok.inj hadd
      exact ⟨hp.init, fun y hy => Option.some.inj hy ▸ hbody _ List.mem_cons_self, hp.metric⟩
    · cases hadd
  · obtain rfl := Except.ok.inj hadd
    exact ⟨hp.init, hp.goal, fun ys hys => Option.some.inj hys ▸ hbody⟩
  · cases hadd

/-- The parts of a problem that has been read have two levels less than its text. -/
theorem Problem.within_of_read {p : Problem} (h : Problem.read text = .ok p) {x : Expr} (hx : readExpr text = .ok x)
    (hdepth : x.depth ≤ n + 2) : p.Within n := by
  unfold Problem.read at h
  obtain ⟨y, hy, h⟩ := bind_eq_ok.1 h
  obtain rfl := Except.ok.inj (hy.symm.trans hx)
  obtain ⟨⟨name, sections⟩, hdefinition, h⟩ := bind_eq_ok.1 h
  obtain ⟨parts, hparts, h⟩ := bind_eq_ok.1 h
  have hsections := depth_le_of_readDefinition hdepth hdefinition
  have hwithin : parts.Within n := foldlM_ok (P := ProblemParts.Within n)
    (fun z hz p p' hp hp' => within_of_addProblemSection (hsections z hz) hp hp') ⟨by simp, by simp, by simp⟩ hparts
  split at h
  · cases h
  · cases h
  · rename_i hgoal
    obtain rfl := Except.ok.inj h
    exact ⟨hwithin.init, hwithin.goal _ hgoal, hwithin.metric⟩

/-! ## Reading back -/

/-- What is computed from an expression that is read. -/
theorem bind_readExpr_eq_ok {δ : Type} {f : Expr → Except Failure δ} {d d' : δ} (h : Spells text.toList x.tokens)
    (hf : f x = .ok d) : readExpr text >>= f = .ok d' ↔ d' = d ∧ x.depth ≤ maxDepth := by
  rw [bind_eq_ok]
  constructor
  · rintro ⟨y, hy, hd'⟩
    obtain ⟨rfl, hdepth⟩ := (readOne_eq_ok_iff h).1 (readExpr_eq_ok.1 hy)
    exact ⟨Except.ok.inj (hd'.symm.trans hf), hdepth⟩
  · rintro ⟨rfl, hdepth⟩
    exact ⟨x, readExpr_eq_ok.2 ((readOne_eq_ok_iff h).2 ⟨rfl, hdepth⟩), hf⟩

/-- Nothing is computed from an expression that is nested too deeply. -/
theorem bind_readExpr_of_deep {δ : Type} (f : Expr → Except Failure δ) (h : Spells text.toList x.tokens)
    (hdepth : maxDepth < x.depth) : ∃ line, readExpr text >>= f = .error (.task (.unreadable (.tooDeep line))) := by
  obtain ⟨line, hread⟩ := readOne_of_deep h hdepth
  refine ⟨line, ?_⟩
  rw [readExpr, hread]
  rfl

section Domains

variable {d d' : Domain} (h : d.Legible)
include h

/-- **The text of a domain is read as this domain**, unless it is nested too deeply. -/
theorem Domain.read_text_eq_ok : Domain.read d.text = .ok d' ↔ d' = d ∧ d.expr.depth ≤ maxDepth :=
  bind_readExpr_eq_ok (Domain.spells_text h) (Domain.foldlM_sections h)

theorem Domain.read_text_of_deep (hdepth : maxDepth < d.expr.depth) :
    ∃ line, Domain.read d.text = .error (.task (.unreadable (.tooDeep line))) :=
  bind_readExpr_of_deep _ (Domain.spells_text h) hdepth

end Domains

section Problems

variable {p p' : Problem} (h : p.Legible)
include h

/-- **The text of a problem is read as this problem**, unless it is nested too deeply. -/
theorem Problem.read_text_eq_ok : Problem.read p.text = .ok p' ↔ p' = p ∧ p.expr.depth ≤ maxDepth := by
  refine bind_readExpr_eq_ok (Problem.spells_text h) ?_
  exact bind_eq_ok.2 ⟨(p.name, p.sections), rfl, bind_eq_ok.2 ⟨_, Problem.foldlM_sections h, rfl⟩⟩

theorem Problem.read_text_of_deep (hdepth : maxDepth < p.expr.depth) :
    ∃ line, Problem.read p.text = .error (.task (.unreadable (.tooDeep line))) :=
  bind_readExpr_of_deep _ (Problem.spells_text h) hdepth

end Problems

/-- **What has been read is read back.** A domain is read from the text of a domain that has been read, and it is the
same one. So is a problem. -/
theorem read_text_of_read (text : String) : (∀ d, Domain.read text = .ok d → Domain.read d.text = .ok d) ∧
    ∀ p, Problem.read text = .ok p → Problem.read p.text = .ok p := by
  have hlevels {x : Expr} (hx : readExpr text = .ok x) : x.depth ≤ 62 + 2 := depth_le_of_readOne (readExpr_eq_ok.1 hx)
  constructor
  · intro d hd
    obtain ⟨x, hx, -⟩ := bind_eq_ok.1 hd
    have hwithin : d.Within (61 + 1) := Domain.within_of_read hd hx (hlevels hx)
    exact (Domain.read_text_eq_ok (Domain.legible_of_read hd)).2 ⟨rfl, Domain.depth_expr_le.2 hwithin⟩
  · intro p hp
    obtain ⟨x, hx, -⟩ := bind_eq_ok.1 hp
    have hwithin : p.Within 62 := Problem.within_of_read hp hx (hlevels hx)
    exact (Problem.read_text_eq_ok (Problem.legible_of_read hp)).2 ⟨rfl, Problem.depth_expr_le.2 hwithin⟩

/-- A domain, not as it is written back. -/
def courierText : String :=
  "(DEFINE (domain Courier) ; who carries what\n (:types Truck - Vehicle Place) (:functions (Total-Cost)) " ++
    "(:predicates (at ?t - Truck ?p)) (:action wait :precondition () :effect (not (at A B)) :parameters ()))"

/-- A problem with an empty metric. -/
def parcelText : String :=
  "(define (problem parcel) (:metric) (:init (at A B)) (:domain Courier Other) (:goal (and) (at B A)))"

theorem read_text_of_read_courier : ∃ d p, Domain.read courierText = .ok d ∧ Domain.read d.text = .ok d ∧
    Problem.read parcelText = .ok p ∧ Problem.read p.text = .ok p := by
  have hd : Domain.read courierText = .ok
      { name := "courier", types := [⟨"truck", "vehicle"⟩, ⟨"place", "object"⟩]
        predicates := [⟨"at", [⟨"?t", "truck"⟩, ⟨"?p", "object"⟩]⟩]
        functions := some (.list [.atom ":functions", .list [.atom "total-cost"]])
        schemas := [{ name := "wait", effect := some (.list [.atom "not", .call "at" ["a", "b"]]) }] } := by
    decide +kernel
  have hp : Problem.read parcelText = .ok
      { name := "parcel", domain := "courier", init := [.call "at" ["a", "b"]], goal := .list [.atom "and"]
        metric := some [] } := by
    decide +kernel
  exact ⟨_, _, hd, (read_text_of_read courierText).1 _ hd, hp, (read_text_of_read parcelText).2 _ hp⟩

end Waymark.Planning
