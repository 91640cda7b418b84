import Mathlib.Tactic
import Waymark.Planning.Problem
import Waymark.Proofs.Expr.Legible
import Waymark.Proofs.Outcome

/-!
# Domains and problems that can be read

What a domain or a problem holds after it has been read can be read again when it is written: all names are names as
the reader reads them, no declared name is the hyphen before a type, and no condition or effect is the empty list.

* `TypedName.Legible`, `Schema.Legible`: declarations and schemas;
* `Domain.Legible`, `Domain.legible_of_read`: domains that are read;
* `Problem.Legible`, `Problem.legible_of_read`: problems that are read.
-/

namespace Waymark.Planning

open Waymark.Expr

/-! ## Parts -/

theorem legible_of_readExpr {text : String} {x : Expr} (h : readExpr text = .ok x) : x.Legible := by
  unfold readExpr at h
  rcases hone : readOne text.toList with e | y
  · rw [hone] at h
    cases h
  · rw [hone] at h
    obtain rfl := Except.ok.inj h
    exact legible_of_readOne hone

theorem legible_of_readDefinition {kind name : String} {x : Expr} {sections : List Expr} (hx : x.Legible)
    (h : readDefinition kind x = .ok (name, sections)) : IsName name ∧ ∀ y ∈ sections, y.Legible := by
  unfold readDefinition at h
  split at h
  · split at h
    · obtain ⟨rfl, rfl⟩ := Prod.mk.inj (Except.ok.inj h)
      obtain ⟨-, hhead, hsections⟩ := List.forall_mem_cons.1 (legible_list.1 hx) |>.imp id List.forall_mem_cons.1
      exact ⟨legible_atom.1 (legible_list.1 hhead _ (by simp)), hsections⟩
    · cases h
  · cases h
  · cases h

/-- A section starts with its key, which starts with a colon. -/
theorem readSection_eq_ok {x : Expr} {key : String} {body : List Expr} :
    readSection x = .ok (key, body) ↔ x = .list (.atom key :: body) ∧ key.toList.head? = some ':' := by
  constructor
  · intro h
    unfold readSection at h
    split at h
    · split at h
      · rename_i hkey
        obtain ⟨rfl, rfl⟩ := Prod.mk.inj (Except.ok.inj h)
        exact ⟨rfl, hkey⟩
      · cases h
    · cases h
  · rintro ⟨rfl, hkey⟩
    rw [readSection, if_pos hkey]

theorem legible_of_readNames {place : String} {items : List Expr} {names : List String}
    (hitems : ∀ x ∈ items, x.Legible) (h : readNames place items = .ok names) : ∀ a ∈ names, IsName a := by
  have hread := mapM_eq_ok.1 h
  clear h
  induction hread with
  | nil => exact nofun
  | cons hx _ ih =>
    obtain ⟨hhead, hrest⟩ := List.forall_mem_cons.1 hitems
    refine List.forall_mem_cons.2 ⟨?_, ih hrest⟩
    split at hx
    · obtain rfl := Except.ok.inj hx
      exact legible_atom.1 hhead
    · cases hx

/-! ## Declarations -/

/-- The name and its type are read as they are, and the name is not taken for the hyphen before a type. -/
structure TypedName.Legible (x : TypedName) : Prop where
  name : IsName x.name
  ne_hyphen : x.name ≠ "-"
  type : IsName x.type

theorem isName_objectType : IsName objectType := by decide

theorem legible_of_readTypedFrom {pending : List String} {items : List Expr} {names : List TypedName}
    (hitems : ∀ x ∈ items, x.Legible) (hpending : ∀ a ∈ pending, IsName a ∧ a ≠ "-")
    (h : readTypedFrom pending items = .ok names) : ∀ x ∈ names, x.Legible := by
  have hwaiting {pending : List String} (hpending : ∀ a ∈ pending, IsName a ∧ a ≠ "-") {type : String}
      (htype : IsName type) : ∀ x ∈ pending.reverse.map (⟨·, type⟩ : String → TypedName), x.Legible := by
    intro x hx
    obtain ⟨a, ha, rfl⟩ := List.mem_map.1 hx
    obtain ⟨hname, hne⟩ := hpending a (List.mem_reverse.1 ha)
    exact ⟨hname, hne, htype⟩
  fun_induction readTypedFrom pending items generalizing names with
  | case1 => exact Except.ok.inj h ▸ hwaiting hpending isName_objectType
  | case2 => cases h
  | case3 => cases h
  | case4 pending type rest _ ih =>
    obtain ⟨others, hothers, rfl⟩ := map_eq_ok.1 h
    obtain ⟨-, htype, hrest⟩ := (List.forall_mem_cons.1 hitems).imp id List.forall_mem_cons.1
    exact List.forall_mem_append.2 ⟨hwaiting hpending (legible_atom.1 htype), ih hrest (by simp) hothers⟩
  | case5 => cases h
  | case6 => cases h
  | case7 pending a rest hne ih =>
    obtain ⟨ha, hrest⟩ := List.forall_mem_cons.1 hitems
    exact ih hrest (List.forall_mem_cons.2 ⟨⟨legible_atom.1 ha, hne⟩, hpending⟩) h

theorem legible_of_readTyped {items : List Expr} {names : List TypedName} (hitems : ∀ x ∈ items, x.Legible)
    (h : readTyped items = .ok names) : ∀ x ∈ names, x.Legible :=
  legible_of_readTypedFrom hitems (by simp) h

/-- The declaration of the predicate is read as it is. -/
structure Predicate.Legible (p : Predicate) : Prop where
  name : IsName p.name
  params : ∀ x ∈ p.params, x.Legible

theorem legible_of_readPredicate {x : Expr} {p : Predicate} (hx : x.Legible) (h : readPredicate x = .ok p) :
    p.Legible := by
  unfold readPredicate at h
  split at h
  · obtain ⟨params, hparams, rfl⟩ := map_eq_ok.1 h
    obtain ⟨hname, hitems⟩ := List.forall_mem_cons.1 (legible_list.1 hx)
    exact ⟨legible_atom.1 hname, legible_of_readTyped hitems hparams⟩
  · cases h

/-! ## Schemas -/

/-- The schema is read as it is. Its condition and its effect are not empty lists, which are read as none. -/
structure Schema.Legible (s : Schema) : Prop where
  name : IsName s.name
  params : ∀ x ∈ s.params, x.Legible
  condition : ∀ x ∈ s.condition, x.Legible ∧ x ≠ .list []
  effect : ∀ x ∈ s.effect, x.Legible ∧ x ≠ .list []

theorem nonEmpty_eq_some {x y : Expr} : nonEmpty x = some y ↔ x = y ∧ x ≠ .list [] := by
  unfold nonEmpty
  split
  · exact iff_of_false nofun fun h => h.2 rfl
  · rename_i hne
    rw [Option.some.injEq, and_iff_left fun h => hne h]

theorem legible_of_readSchemaParts {parts : List Expr} {s s' : Schema} (hs : s.Legible)
    (hparts : ∀ x ∈ parts, x.Legible) (h : readSchemaParts s parts = .ok s') : s'.Legible := by
  have hskip {key value : Expr} {rest : List Expr} (hparts : ∀ x ∈ key :: value :: rest, x.Legible) :
      value.Legible ∧ ∀ x ∈ rest, x.Legible := List.forall_mem_cons.1 (List.forall_mem_cons.1 hparts).2
  have hpart {value : Expr} (hvalue : value.Legible) : ∀ x ∈ nonEmpty value, x.Legible ∧ x ≠ .list [] := by
    intro x hx
    obtain ⟨rfl, hne⟩ := nonEmpty_eq_some.1 hx
    exact ⟨hvalue, hne⟩
  fun_induction readSchemaParts s parts with
  | case1 s => exact Except.ok.inj h ▸ hs
  | case2 => cases h
  | case3 s rest items ih =>
    obtain ⟨params, hparams, h⟩ := bind_eq_ok.1 h
    obtain ⟨hvalue, hrest⟩ := hskip hparts
    exact ih params ⟨hs.name, legible_of_readTyped (legible_list.1 hvalue) hparams, hs.condition, hs.effect⟩ hrest h
  | case4 => cases h
  | case5 s value rest ih =>
    obtain ⟨hvalue, hrest⟩ := hskip hparts
    exact ih ⟨hs.name, hs.params, hpart hvalue, hs.effect⟩ hrest h
  | case6 s value rest ih =>
    obtain ⟨hvalue, hrest⟩ := hskip hparts
    exact ih ⟨hs.name, hs.params, hs.condition, hpart hvalue⟩ hrest h
  | case7 => cases h

theorem legible_of_readSchema {body : List Expr} {s : Schema} (hbody : ∀ x ∈ body, x.Legible)
    (h : readSchema body = .ok s) : s.Legible := by
  unfold readSchema at h
  split at h
  · obtain ⟨hname, hparts⟩ := List.forall_mem_cons.1 hbody
    exact legible_of_readSchemaParts ⟨legible_atom.1 hname, by simp, by simp, by simp⟩ hparts h
  · cases h

/-! ## Domains -/

/-- The domain is read as it is. -/
structure Domain.Legible (d : Domain) : Prop where
  name : IsName d.name
  requirements : ∀ a ∈ d.requirements, IsName a
  types : ∀ x ∈ d.types, x.Legible
  constants : ∀ x ∈ d.constants, x.Legible
  predicates : ∀ p ∈ d.predicates, p.Legible
  functions : ∀ x ∈ d.functions, x.Legible ∧ x.head? = some ":functions"
  schemas : ∀ s ∈ d.schemas, s.Legible

theorem legible_of_addSection {d d' : Domain} {x : Expr} (hx : x.Legible) (hd : d.Legible)
    (h : d.addSection x = .ok d') : d'.Legible := by
  unfold Domain.addSection at h
  obtain ⟨⟨key, body⟩, hsection, hadd⟩ := bind_eq_ok.1 h
  obtain ⟨rfl, -⟩ := readSection_eq_ok.1 hsection
  clear h
  obtain ⟨-, hbody⟩ := List.forall_mem_cons.1 (legible_list.1 hx)
  dsimp only at hadd
  split at hadd
  · obtain ⟨names, hnames, rfl⟩ := map_eq_ok.1 hadd
    exact { hd with requirements := legible_of_readNames hbody hnames }
  · obtain ⟨types, htypes, rfl⟩ := map_eq_ok.1 hadd
    exact { hd with types := legible_of_readTyped hbody htypes }
  · obtain ⟨constants, hconstants, rfl⟩ := map_eq_ok.1 hadd
    exact { hd with constants := legible_of_readTyped hbody hconstants }
  · obtain ⟨predicates, hpredicates, rfl⟩ := map_eq_ok.1 hadd
    refine { hd with predicates := List.forall_mem_append.2 ⟨hd.predicates, fun p hp => ?_⟩ }
    obtain ⟨y, hy, hread⟩ := exists_rel_of_mem (mapM_eq_ok.1 hpredicates) hp
    exact legible_of_readPredicate (hbody y hy) hread
  · obtain rfl := Except.ok.inj hadd
    refine { hd with functions := fun y hy => ?_ }
    obtain rfl := Option.some.inj hy
    exact ⟨hx, rfl⟩
  · obtain ⟨s, hs, rfl⟩ := map_eq_ok.1 hadd
    refine { hd with schemas := List.forall_mem_append.2 ⟨hd.schemas, ?_⟩ }
    exact List.forall_mem_singleton.2 (legible_of_readSchema hbody hs)
  · cases hadd

/-- Domains that are read are legible. -/
theorem Domain.legible_of_read {text : String} {d : Domain} (h : Domain.read text = .ok d) : d.Legible := by
  unfold Domain.read at h
  obtain ⟨x, hx, h⟩ := bind_eq_ok.1 h
  obtain ⟨⟨name, sections⟩, hdefinition, h⟩ := bind_eq_ok.1 h
  obtain ⟨hname, hsections⟩ := legible_of_readDefinition (legible_of_readExpr hx) hdefinition
  have hstart : Domain.Legible { name } :=
    ⟨hname, by simp, by simp, by simp, by simp, by simp, by simp⟩
  exact foldlM_ok (P := Domain.Legible)
    (fun y hy d d' hd hd' => legible_of_addSection (hsections y hy) hd hd') hstart h

/-! ## Problems -/

/-- The sections of the problem that have been read are read as they are. -/
structure ProblemParts.Legible (p : ProblemParts) : Prop where
  domain : ∀ a ∈ p.domain, IsName a
  requirements : ∀ a ∈ p.requirements, IsName a
  objects : ∀ x ∈ p.objects, x.Legible
  init : ∀ x ∈ p.init, x.Legible
  goal : ∀ x ∈ p.goal, x.Legible
  metric : ∀ xs ∈ p.metric, ∀ x ∈ xs, x.Legible

/-- The problem is read as it is. -/
structure Problem.Legible (p : Problem) : Prop where
  name : IsName p.name
  domain : IsName p.domain
  requirements : ∀ a ∈ p.requirements, IsName a
  objects : ∀ x ∈ p.objects, x.Legible
  init : ∀ x ∈ p.init, x.Legible
  goal : p.goal.Legible
  metric : ∀ xs ∈ p.metric, ∀ x ∈ xs, x.Legible

theorem legible_of_addProblemSection {p p' : ProblemParts} {x : Expr} (hx : x.Legible) (hp : p.Legible)
    (h : p.addSection x = .ok p') : p'.Legible := by
  unfold ProblemParts.addSection at h
  obtain ⟨⟨key, body⟩, hsection, hadd⟩ := bind_eq_ok.1 h
  obtain ⟨rfl, -⟩ := readSection_eq_ok.1 hsection
  clear h
  obtain ⟨-, hbody⟩ := List.forall_mem_cons.1 (legible_list.1 hx)
  dsimp only at hadd
  split at hadd
  · obtain ⟨names, hnames, rfl⟩ := map_eq_ok.1 hadd
    refine { hp with domain := fun a ha => ?_ }
    exact legible_of_readNames hbody hnames a (List.mem_of_head? ha)
  · obtain ⟨names, hnames, rfl⟩ := map_eq_ok.1 hadd
    exact { hp with requirements := legible_of_readNames hbody hnames }
  · obtain ⟨objects, hobjects, rfl⟩ := map_eq_ok.1 hadd
    exact { hp with objects := legible_of_readTyped hbody hobjects }
  · obtain rfl := Except.ok.inj hadd
    exact { hp with init := hbody }
  · split at hadd
    · obtain rfl := Except.ok.inj hadd
      refine { hp with goal := fun y hy => ?_ }
      exact Option.some.inj hy ▸ hbody _ List.mem_cons_self
    · cases hadd
  · obtain rfl := Except.ok.inj hadd
    refine { hp with metric := fun ys hys => ?_ }
    exact Option.some.inj hys ▸ hbody
  · cases hadd

/-- Problems that are read are legible. -/
theorem Problem.legible_of_read {text : String} {p : Problem} (h : Problem.read text = .ok p) : p.Legible := by
  unfold Problem.read at h
  obtain ⟨x, hx, h⟩ := bind_eq_ok.1 h
  obtain ⟨⟨name, sections⟩, hdefinition, h⟩ := bind_eq_ok.1 h
  obtain ⟨parts, hparts, h⟩ := bind_eq_ok.1 h
  obtain ⟨hname, hsections⟩ := legible_of_readDefinition (legible_of_readExpr hx) hdefinition
  have hstart : ProblemParts.Legible {} := ⟨by simp, by simp, by simp, by simp, by simp, by simp⟩
  have hlegible : parts.Legible := foldlM_ok (P := ProblemParts.Legible)
    (fun y hy p p' hp hp' => legible_of_addProblemSection (hsections y hy) hp hp') hstart hparts
  split at h
  · cases h
  · cases h
  · rename_i hdomain hgoal
    obtain rfl := Except.ok.inj h
    exact ⟨hname, hlegible.domain _ hdomain, hlegible.requirements, hlegible.objects, hlegible.init,
      hlegible.goal _ hgoal, hlegible.metric⟩

end Waymark.Planning
