import Waymark.Proofs.Encoding.Method
import Waymark.Proofs.Planning.RoundTrip

/-!
# Compiled domains can be read

What a tool adds to a domain is made of names that the reader reads as they are. So the text of a compiled domain is
read as this domain, whose actions have the names and parameters that they had.

* `isName_trackName`, `isName_memoryName`: the names of fluents;
* `forall_mem_conjuncts`: what conjuncts inherit from a conjunction;
* `legible_watched`: schemas with what monitors add;
* `Watcher.Writes`, `exists_writes_of_compile`: what a tool adds;
* `legible_of_compile`: domains with monitors;
* `compileText_eq_ok`, `exists_of_compileText`: what the texts of a compiled task are read as.
-/

namespace Waymark.Encoding

open Planning Constraint Ground Waymark.Expr

variable {ι L : Type}

/-! ## Names -/

theorem isName_toString (n : Nat) : IsName (toString n) := by
  have hdigit {c : Char} (hc : c.isDigit = true) : isNameChar c = true ∧ Text.IsLow c := by
    have hascii : c.toNat < 128 := by
      simp only [Char.isDigit, Bool.and_eq_true, decide_eq_true_eq] at hc
      exact lt_of_le_of_lt (UInt32.le_iff_toNat_le.1 hc.2) (by decide)
    exact Text.ascii_forall (P := fun c => c.isDigit = true → isNameChar c = true ∧ Text.IsLow c) (by decide)
      hascii hc
  refine ⟨?_, fun c hc => (hdigit (isDigit_of_mem_toString hc)).1, fun c hc => (hdigit (isDigit_of_mem_toString hc)).2⟩
  rw [Nat.toString_eq_ofList_toDigits, String.toList_ofList]
  exact List.ne_nil_of_length_pos Nat.length_toDigits_pos

theorem isName_stem (i : Nat) : IsName (stem i) := by
  have hltl : IsName "ltl" := by decide
  unfold stem
  split
  · exact hltl
  · exact hltl.append (isName_toString i)

theorem isName_trackName (k : Nat) (c : Nat × TrackCell) : IsName (trackName (stem k) c) := by
  have hstate : IsName "-q" := by decide
  have haccept : IsName "-acc" := by decide
  have hhyphen : IsName "-" := by decide
  obtain ⟨i, n | _⟩ := c
  · exact (((isName_stem k).append hstate).append (isName_toString i)).append hhyphen |>.append (isName_toString n)
  · exact ((isName_stem k).append haccept).append (isName_toString i)

theorem isName_memoryName (k : Nat) (c : Nat × Memory) : IsName (memoryName (stem k) c) := by
  have hhyphen : IsName "-" := by decide
  have hword : ∀ m : Memory, IsName m.word := by
    rintro (_ | _) <;> decide
  exact (((isName_stem k).append hhyphen).append (hword c.2)).append (isName_toString c.1)

/-! ## Conjunctions -/

variable {P : Expr → Prop}

mutual

/-- What the members of a conjunction inherit from it, the conjuncts inherit. -/
theorem forall_mem_conjuncts (hP : ∀ xs : List Expr, P (.list (.atom "and" :: xs)) → ∀ x ∈ xs, P x) :
    ∀ {x : Expr}, P x → ∀ y ∈ x.conjuncts, P y
  | .atom a, h => List.forall_mem_singleton.2 h
  | .list [], _ => by simp [conjuncts]
  | .list (.atom a :: xs), h => by
    unfold conjuncts
    split
    · rename_i hand
      subst hand
      exact forall_mem_conjunctsAll hP (hP xs h)
    · exact List.forall_mem_singleton.2 h
  | .list (.list xs :: ys), h => List.forall_mem_singleton.2 h

theorem forall_mem_conjunctsAll (hP : ∀ xs : List Expr, P (.list (.atom "and" :: xs)) → ∀ x ∈ xs, P x) :
    ∀ {xs : List Expr}, (∀ x ∈ xs, P x) → ∀ y ∈ conjunctsAll xs, P y
  | [], _ => by simp [conjunctsAll]
  | x :: xs, h => by
    obtain ⟨hx, hxs⟩ := List.forall_mem_cons.1 h
    exact List.forall_mem_append.2 ⟨forall_mem_conjuncts hP hx, forall_mem_conjunctsAll hP hxs⟩

end

theorem legible_of_mem_conjuncts {x : Expr} (h : x.Legible) : ∀ y ∈ x.conjuncts, y.Legible :=
  forall_mem_conjuncts (fun _ h => (List.forall_mem_cons.1 (legible_list.1 h)).2) h

theorem legible_conjunction {xs : List Expr} (h : ∀ x ∈ xs, x.Legible) : (conjunction xs).Legible := by
  have hand : IsName "and" := by decide
  unfold conjunction
  split
  · exact h _ List.mem_cons_self
  · exact .list (List.forall_mem_cons.2 ⟨.atom hand, h⟩)

theorem conjunction_ne {xs added : List Expr} (hadded : added ≠ []) (h : ∀ x ∈ added, x ≠ .list []) :
    conjunction (xs ++ added) ≠ .list [] := by
  unfold conjunction
  split
  · rename_i x hsingle
    -- The only conjunct is an added one.
    obtain ⟨y, hy⟩ := List.exists_mem_of_ne_nil added hadded
    have hyx : y ∈ [x] := hsingle ▸ List.mem_append_right xs hy
    exact List.mem_singleton.1 hyx ▸ h y hy
  · simp

/-! ## Schemas -/

/-- The expression is read as it is, and is not taken for a condition or an effect that is missing. -/
def Proper (x : Expr) : Prop := x.Legible ∧ x ≠ .list []

theorem proper_withConjuncts {whole : Option Expr} {added : List Expr} (hwhole : ∀ x ∈ whole, Proper x)
    (hadded : ∀ x ∈ added, Proper x) : ∀ x ∈ withConjuncts whole added, Proper x := by
  unfold withConjuncts
  split
  · exact hwhole
  · rename_i hne
    intro x hx
    obtain rfl := Option.some.inj hx
    refine ⟨legible_conjunction (List.forall_mem_append.2 ⟨?_, fun x hx => (hadded x hx).1⟩),
      conjunction_ne (by simpa using hne) fun x hx => (hadded x hx).2⟩
    cases whole with
    | none => simp
    | some x => exact legible_of_mem_conjuncts (hwhole x rfl).1

section Fluents

variable {name : ι → String} (hname : ∀ c, IsName (name c))
include hname

theorem proper_fluentExpr (x : Signed ι) : Proper (fluentExpr name x) := by
  have hnot : IsName "not" := by decide
  have hatom : (fluentAtom (name x.2)).Legible := .list (List.forall_mem_singleton.2 (.atom (hname x.2)))
  unfold fluentExpr
  split
  · exact ⟨hatom, nofun⟩
  · exact ⟨.list (List.forall_mem_cons.2 ⟨.atom hnot, List.forall_mem_singleton.2 hatom⟩), nofun⟩

theorem legible_fluentExprs (xs : List (Signed ι)) : ∀ x ∈ xs.map (fluentExpr name), x.Legible :=
  List.forall_mem_map.2 fun x _ => (proper_fluentExpr hname x).1

theorem proper_clauseExpr (c : Clause ι) : Proper (clauseExpr name c) := by
  have hwhen : IsName "when" := by decide
  cases c with
  | plain x => exact proper_fluentExpr hname x
  | whenever condition effects =>
    have hcondition := legible_conjunction (legible_fluentExprs hname condition)
    have heffects := legible_conjunction (legible_fluentExprs hname effects)
    refine ⟨.list (List.forall_mem_cons.2 ⟨.atom hwhen, List.forall_mem_cons.2 ⟨hcondition, ?_⟩⟩), nofun⟩
    exact List.forall_mem_singleton.2 heffects

variable {w : Watcher ι Schema} {ws : List Watch} {init : List Expr}
  (h : w.Spells name (ws.flatMap (·.monitor.fluents)) init (addedGoals ws) (addedConditions ws) (addedEffects ws))
include h

theorem legible_watched {s : Schema} (hs : s.Legible) : (watched ws s).Legible where
  name := hs.name
  params := hs.params
  condition := by
    refine proper_withConjuncts hs.condition ?_
    rw [h.condition]
    exact List.forall_mem_map.2 fun x _ => proper_fluentExpr hname x
  effect := by
    refine proper_withConjuncts hs.effect ?_
    rw [h.effect]
    exact List.forall_mem_map.2 fun c _ => proper_clauseExpr hname c

/-! ## Domains -/

theorem legible_monitoredDomain {d : Domain} (hd : d.Legible) : (monitoredDomain ws d).Legible := by
  have hrequire {d : Domain} {flag : String} (hd : d.Legible) (hflag : IsName flag) : (d.require flag).Legible := by
    unfold Domain.require
    split
    · exact hd
    · exact { hd with requirements := List.forall_mem_append.2 ⟨hd.requirements, List.forall_mem_singleton.2 hflag⟩ }
  have hnegative : IsName ":negative-preconditions" := by decide
  have hconditional : IsName ":conditional-effects" := by decide
  have hextended : Domain.Legible
      { d with
        predicates := d.predicates ++ (ws.flatMap (·.monitor.fluents)).map fun name => ⟨name, []⟩
        schemas := d.schemas.map (watched ws) } := by
    refine { hd with predicates := List.forall_mem_append.2 ⟨hd.predicates, ?_⟩, schemas := ?_ }
    · refine List.forall_mem_map.2 fun f hf => ?_
      obtain ⟨c, rfl⟩ := h.fluents f hf
      exact ⟨hname c, by simp⟩
    · exact List.forall_mem_map.2 fun s hs => legible_watched hname h (hd.schemas s hs)
  unfold monitoredDomain
  dsimp only
  split
  · split
    · exact hrequire (hrequire hextended hnegative) hconditional
    · exact hrequire hextended hconditional
  · split
    · exact hrequire hextended hnegative
    · exact hextended

end Fluents

/-! ## Compiled tasks -/

/-- Monitors that say what a watcher does. They have fluents of a stem, whose names are read as they are. -/
structure Watcher.Writes (w : Watcher ι Schema) (name : ι → String) (k : Nat) (ws : List Watch) : Prop where
  spells : w.Spells name (ws.flatMap (·.monitor.fluents)) (ws.flatMap (·.monitor.init)) (addedGoals ws)
    (addedConditions ws) (addedEffects ws)
  fluent : ∀ c, Fluent (stem k) (name c)
  isName : ∀ c, IsName (name c)
  fluents_ne_nil : ws.flatMap (·.monitor.fluents) ≠ []

/-- Every monitor has a fluent. -/
theorem fluents_ne_nil {tool : Tool} {stem : String} {i : Nat} {t : Template} {monitor : Monitor}
    (h : tool.monitor stem i t = .ok monitor) : monitor.fluents ≠ [] := by
  cases tool with
  | lf2f =>
    obtain rfl := Except.ok.inj h
    simp [tracker]
  | p4p =>
    have hpattern := pattern_of_monitor h
    cases t <;> cases hpattern <;> simp [excluding]

/-- Some formulas are watched, so there is a fluent. -/
theorem fluents_ne_nil_of_watches {tool : Tool} {stem : String} {bs : List Binding} {ws : List Watch} (hne : bs ≠ [])
    (h : watches tool stem bs = .ok ws) : ws.flatMap (·.monitor.fluents) ≠ [] := by
  have hwatches := watches_eq_ok h
  have hws : ws ≠ [] := by
    rintro rfl
    rw [List.forall₂_nil_right_iff] at hwatches
    exact hne (List.zipIdx_eq_nil_iff.1 hwatches)
  obtain ⟨w, hw⟩ := List.exists_mem_of_ne_nil ws hws
  obtain ⟨b, -, -, hmonitor⟩ := exists_rel_of_mem hwatches hw
  obtain ⟨f, hf⟩ := List.exists_mem_of_ne_nil _ (fluents_ne_nil hmonitor)
  exact List.ne_nil_of_mem (List.mem_flatMap.2 ⟨w, hw, hf⟩)

/-- What a tool adds is written with fluents of the stem that is free. -/
theorem exists_writes_of_compile {tool : Tool} {domain domain' : Domain} {problem problem' : Problem}
    {formulas : List Formula} (h : compile domain problem formulas tool = .ok (domain', problem')) :
    ∃ (ι : Type) (w : Watcher ι Schema) (name : ι → String) (k : Nat) (ws : List Watch), fluentStem domain = stem k ∧
      w.Writes name k ws ∧ domain' = monitoredDomain ws domain ∧ problem' = monitoredProblem ws problem := by
  obtain ⟨bs, ws, hbs, hws, hdomain', hproblem'⟩ := compile_eq_ok h
  obtain ⟨k, hk⟩ := exists_fluentStem_eq domain
  rw [hk] at hws
  have hne : bs ≠ [] := by
    rintro rfl
    have hformulas : formulas = [] := List.forall₂_nil_right_iff.1 (mapM_eq_ok.1 hbs)
    subst hformulas
    cases h
  have hfluents := fluents_ne_nil_of_watches hne hws
  cases tool with
  | lf2f =>
    refine ⟨_, tracking.joint bs, _, k, ws, hk, ⟨tracking_serves.spells_joint hws, ?_, ?_, hfluents⟩, hdomain',
      hproblem'⟩
    · exact tracking_serves.fluent (stem k)
    · exact isName_trackName k
  | p4p =>
    refine ⟨_, patterns.joint bs, _, k, ws, hk, ⟨patterns_serves.spells_joint hws, ?_, ?_, hfluents⟩, hdomain',
      hproblem'⟩
    · exact patterns_serves.fluent (stem k)
    · exact isName_memoryName k

/-- **A compiled domain can be read**: its actions have the names and parameters that they had, with what the monitors
add. -/
theorem legible_of_compile {tool : Tool} {domain domain' : Domain} {problem problem' : Problem}
    {formulas : List Formula} (hdomain : domain.Legible)
    (h : compile domain problem formulas tool = .ok (domain', problem')) :
    domain'.Legible ∧ ∃ ws, domain'.schemas = domain.schemas.map (watched ws) := by
  obtain ⟨ι, w, name, k, ws, -, hwrites, rfl, -⟩ := exists_writes_of_compile h
  obtain ⟨_, heq⟩ := monitoredDomain_eq ws domain
  exact ⟨legible_monitoredDomain hwrites.isName hwrites.spells hdomain, ws, by rw [heq]⟩

/-- The texts of a compiled task are those of what its formulas and its texts are read as, compiled. -/
theorem compileText_eq_ok {task compiled : TaskText} {formulas : List String} {tool : Tool}
    (h : compileText task formulas tool = .ok compiled) :
    ∃ domain problem fs domain' problem', Domain.read task.domain = .ok domain ∧
      Problem.read task.problem = .ok problem ∧ formulas.mapM Formula.read = .ok fs ∧
      compile domain problem fs tool = .ok (domain', problem') ∧ compiled = .of domain' problem' := by
  unfold compileText at h
  obtain ⟨_, -, h⟩ := bind_eq_ok.1 h
  obtain ⟨fs, hfs, h⟩ := bind_eq_ok.1 h
  obtain ⟨⟨d, p⟩, htask, h⟩ := bind_eq_ok.1 h
  obtain ⟨⟨domain', problem'⟩, hcompile, h⟩ := bind_eq_ok.1 h
  obtain rfl := Except.ok.inj h
  unfold TaskText.read at htask
  obtain ⟨domain, hdomain, htask⟩ := bind_eq_ok.1 htask
  obtain ⟨problem, hproblem, htask⟩ := bind_eq_ok.1 htask
  obtain ⟨rfl, rfl⟩ := Prod.mk.inj (Except.ok.inj htask)
  exact ⟨domain, problem, fs, domain', problem', hdomain, hproblem, hfs, hcompile, rfl⟩

/-- What the domain of a compiled task is read as has the schemas of the given one, with what the monitors add. -/
theorem exists_of_compileText {task compiled : TaskText} {formulas : List String} {tool : Tool}
    (h : compileText task formulas tool = .ok compiled) {d' : Domain} (hread : Domain.read compiled.domain = .ok d') :
    ∃ d ws, Domain.read task.domain = .ok d ∧ d'.schemas = d.schemas.map (watched ws) := by
  obtain ⟨domain, problem, fs, domain', problem', hdomain, -, -, hcompile, rfl⟩ := compileText_eq_ok h
  obtain ⟨hlegible, ws, hschemas⟩ := legible_of_compile (Domain.legible_of_read hdomain) hcompile
  obtain ⟨rfl, -⟩ := (Domain.read_text_eq_ok hlegible).1 hread
  exact ⟨domain, ws, hdomain, hschemas⟩

end Waymark.Encoding
