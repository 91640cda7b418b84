import Waymark.Number.Double
import Waymark.Proofs.Ground.Meaning
import Waymark.Proofs.Ground.Propositional

/-!
# Initial facts

What the entries of `:init` make true. An entry that gives no value to a function counts as the atom of its
name and of those of its arguments that are names. Arguments that are lists are passed over, where conditions
and effects refuse them, so that the entry of a timed or of a negated literal is read as another atom.

* `flattened`: an entry without its arguments that are lists;
* `isFlat_of_readLiteral`: the literals of conditions and effects have no such arguments;
* `ground_flattened`: without such arguments in the entries the ground task is the same;
* `map_name_init`, `holdsIn_initialState_iff`: what holds initially, by name;
* `timedMessage`: a problem with an entry that is meant for a later time.
-/

namespace Waymark.Ground

open Planning Number

/-! ## Entries -/

/-- The entry gives a value to a function. -/
def IsAssignment (x : Expr) : Prop := x.head? = some "="

instance : DecidablePred IsAssignment := fun x => inferInstanceAs (Decidable (x.head? = some "="))

/-- A name with names as arguments. -/
def IsFlat (x : Expr) : Prop := ∃ predicate args, x = .call predicate args

/-- An entry without its arguments that are lists. What gives a value to a function stays as it is. -/
def flattened : Expr → Expr
  | .list (.atom predicate :: items) =>
    if predicate = "=" then .list (.atom predicate :: items)
    else .call predicate (items.filterMap Expr.atom?)
  | x => x

theorem displayRest_map_atom (args : List String) :
    Expr.displayRest (args.map .atom) = String.join (args.map (" " ++ ·)) ++ ")" := by
  induction args with
  | nil => rfl
  | cons arg args ih =>
    rw [List.map_cons, Expr.displayRest, ih, List.map_cons, String.join_cons, Expr.display, String.append_assoc,
      String.append_assoc, String.append_assoc]

/-- The name of an atom is its text. -/
theorem display_call (predicate : String) (args : List String) :
    (Expr.call predicate args).display = atomName predicate args := by
  rw [Expr.call, Expr.display, displayRest_map_atom, Expr.display, atomName, String.append_assoc,
    String.append_assoc, String.append_assoc]

theorem flattened_of_isFlat {x : Expr} (h : IsFlat x) : flattened x = x := by
  obtain ⟨predicate, args, rfl⟩ := h
  rw [Expr.call, flattened, filterMap_atom?, Expr.call, ite_self]

/-- The literals of conditions and effects have names as arguments. -/
theorem isFlat_of_readLiteral {positive : Bool} {items : List Expr} {l : Literal}
    (h : readLiteral positive items = .ok l) : IsFlat (.list items) := by
  obtain ⟨predicate, rest, rfl⟩ := eq_cons_of_readLiteral h
  rcases cases_of_readLiteral h with ⟨-, x, y, rfl, -⟩ | ⟨-, args, rfl, -⟩
  · exact ⟨predicate, [x, y], rfl⟩
  · exact ⟨predicate, args, rfl⟩

/-- An entry that starts with a name makes the fact true whose name is the text of its flattened form. -/
theorem initialFact?_list (predicate : String) (items : List Expr) :
    initialFact? (.list (.atom predicate :: items)) =
      if IsAssignment (.list (.atom predicate :: items)) then none
      else some (flattened (.list (.atom predicate :: items))).display := by
  have hassign : IsAssignment (.list (.atom predicate :: items)) ↔ predicate = "=" := Option.some_inj
  rw [initialFact?, flattened]
  by_cases hp : predicate = "="
  · rw [if_pos hp, if_pos (hassign.2 hp)]
  · rw [if_neg hp, if_neg (mt hassign.1 hp), if_neg hp, display_call]

theorem filterMap_initialFact? {xs : List Expr}
    (h : ∀ x ∈ xs, ∃ predicate items, x = .list (.atom predicate :: items)) :
    xs.filterMap initialFact? = (xs.filter (¬ IsAssignment ·)).map fun x => (flattened x).display := by
  induction xs with
  | nil => rfl
  | cons x xs ih =>
    obtain ⟨⟨predicate, items, rfl⟩, hxs⟩ := List.forall_mem_cons.1 h
    by_cases hassign : IsAssignment (.list (.atom predicate :: items))
    · rw [List.filterMap_cons_none (by rw [initialFact?_list, if_pos hassign]), ih hxs,
        List.filter_cons_of_neg (by simpa using hassign)]
    · rw [List.filterMap_cons_some (by rw [initialFact?_list, if_neg hassign]), ih hxs,
        List.filter_cons_of_pos (by simpa using hassign), List.map_cons]

/-! ## Reading -/

variable {κ : Type} [Scale κ] {values : Std.HashMap String κ} {initial : Initial κ}

theorem read_cons_of_ne {predicate : String} (hne : predicate ≠ "=") (items rest : List Expr) :
    Initial.read (.list (.atom predicate :: items) :: rest) values = (do
      let found ← Initial.read rest values
      return { found with facts := atomName predicate (items.filterMap Expr.atom?) :: found.facts }) := by
  rw [Initial.read]
  exact hne

/-- What is read depends on the later entries through what is read of them. -/
theorem read_cons_congr (x : Expr) {rest rest' : List Expr}
    (h : ∀ values : Std.HashMap String κ, Initial.read rest values = Initial.read rest' values) :
    Initial.read (x :: rest) values = Initial.read (x :: rest') values := by
  match x with
  | .atom a => rfl
  | .list [] => rfl
  | .list (.list xs :: items) => rfl
  | .list (.atom predicate :: items) =>
    by_cases hp : predicate = "="
    · subst hp
      by_cases hshape : ∃ term number, items = [.list term, .atom number]
      · obtain ⟨term, number, rfl⟩ := hshape
        simp only [Initial.read, h]
      · have hother (term : List Expr) (number : String) (heq : items = [.list term, .atom number]) : False :=
          hshape ⟨term, number, heq⟩
        rw [Initial.read, Initial.read] <;> exact hother
    · rw [read_cons_of_ne hp, read_cons_of_ne hp, h]

/-- Arguments that are lists change nothing in what is read. -/
theorem read_flattened (xs : List Expr) : Initial.read (xs.map flattened) values = Initial.read xs values := by
  induction xs generalizing values with
  | nil => rfl
  | cons x rest ih =>
    rw [List.map_cons, ← read_cons_congr x fun _ => ih]
    match x with
    | .atom a => rfl
    | .list [] => rfl
    | .list (.list xs :: items) => rfl
    | .list (.atom predicate :: items) =>
      rw [flattened]
      split
      · rfl
      · rename_i hp
        rw [Expr.call, read_cons_of_ne hp, read_cons_of_ne hp, filterMap_atom?]

/-- What is read are lists that start with a name. -/
theorem exists_head_of_read {xs : List Expr} (h : Initial.read xs values = .ok initial) :
    ∀ x ∈ xs, ∃ predicate items, x = .list (.atom predicate :: items) := by
  fun_induction Initial.read xs values generalizing initial <;> try cases h
  case case1 => exact List.forall_mem_nil _
  case case4 ih => exact List.forall_mem_cons.2 ⟨⟨_, _, rfl⟩, ih h⟩
  case case5 ih => exact List.forall_mem_cons.2 ⟨⟨_, _, rfl⟩, ih h⟩
  case case8 ih =>
    obtain ⟨found, hfound, -⟩ := bind_eq_ok.1 h
    exact List.forall_mem_cons.2 ⟨⟨_, _, rfl⟩, ih hfound⟩

/-! ## Grounding -/

omit [Scale κ] in
/-- What holds by name is what the state stands for. -/
theorem Task.holdsIn_iff (t : Task κ) {s : State} {name : String} :
    t.holdsIn s name = true ↔ name ∈ t.facts.atoms s := by
  rw [Task.holdsIn, Option.any_eq_true]
  refine exists_congr fun f => and_congr_left fun _ => ?_
  exact t.facts.numbers_eq_some_iff name f

theorem name_of_names {facts : FactTable} {f : Nat} {name : String} (h : facts.Names f name) :
    facts.name f = name := by
  rw [FactTable.name, Array.getD_eq_getD_getElem?, show facts.names[f]? = some name from h]
  rfl

section Ground

variable {domain : Domain} {problem : Problem} {t : Task κ}

/-- Arguments that are lists change nothing in the ground task, and none is the reason that there is no such
task. -/
theorem ground_flattened (domain : Domain) (problem : Problem) :
    Task.ground (κ := κ) domain { problem with init := problem.init.map flattened } =
      Task.ground domain problem := by
  unfold Task.ground Task.groundFully
  dsimp only
  rw [read_flattened]

/-- The names of a ground task stand for what is read of the entries. -/
theorem exists_names_of_ground (h : Task.ground domain problem = .ok t) :
    ∃ (n : NamedTask κ) (full : Task κ), TaskNames full n ∧ t = full.pruned ∧
      (∀ x ∈ problem.init, ∃ predicate items, x = .list (.atom predicate :: items)) ∧
      n.init = (problem.init.filter (¬ IsAssignment ·)).map fun x => (flattened x).display := by
  obtain ⟨n, hn, full, hfull, rfl⟩ := exists_named_of_ground h
  obtain ⟨_, -, hn⟩ := bind_eq_ok.1 hn
  obtain ⟨initial, hinitial, hn⟩ := bind_eq_ok.1 hn
  obtain ⟨_, -, hn⟩ := bind_eq_ok.1 hn
  obtain ⟨_, -, hn⟩ := bind_eq_ok.1 hn
  obtain ⟨_, -, hn⟩ := bind_eq_ok.1 hn
  obtain ⟨_, -, hn⟩ := bind_eq_ok.1 hn
  obtain rfl := Except.ok.inj hn
  have hheads := exists_head_of_read hinitial
  exact ⟨_, full, hfull, rfl, hheads, (facts_of_read hinitial).trans (filterMap_initialFact? hheads)⟩

/-- **What holds initially.** Each entry of a ground task starts with a name. Of the entries that give no value to
a function, the texts of the flattened forms are the initial facts, in this order, and what holds in the initial
state; if these entries are flat, that is their own texts. For others it is not, and none is refused: without
their arguments that are lists the ground task is the same. The literals of conditions and effects are flat. -/
theorem ground_initialFacts (h : Task.ground domain problem = .ok t) :
    (∀ x ∈ problem.init, ∃ predicate items, x = .list (.atom predicate :: items)) ∧
    t.init.map t.facts.name =
      (problem.init.filter (¬ IsAssignment ·)).map (fun x => (flattened x).display) ∧
    (∀ name, t.holdsIn t.initialState name = true ↔
      ∃ x ∈ problem.init, ¬ IsAssignment x ∧ (flattened x).display = name) ∧
    ((∀ x ∈ problem.init, ¬ IsAssignment x → IsFlat x) →
      t.init.map t.facts.name = (problem.init.filter (¬ IsAssignment ·)).map Expr.display) ∧
    Task.ground domain { problem with init := problem.init.map flattened } = .ok t ∧
    ∀ positive items l, readLiteral positive items = .ok l → IsFlat (.list items) := by
  obtain ⟨n, full, hfull, rfl, hheads, hinit⟩ := exists_names_of_ground h
  have hnames : full.init.map full.facts.name = n.init := by
    rw [← List.forall₂_eq_eq_eq, List.forall₂_map_left_iff]
    exact hfull.init.imp fun f name => name_of_names
  refine ⟨hheads, hnames.trans hinit, fun name => ?_, fun hflat => (hnames.trans hinit).trans ?_,
    (ground_flattened domain problem).trans h, fun positive items l => isFlat_of_readLiteral⟩
  · have hholds : name ∈ full.facts.atoms full.initialState ↔ name ∈ n.init := by
      rw [hfull.atoms_initialState]
      rfl
    rw [full.pruned.holdsIn_iff]
    exact hholds.trans (by simp [hinit, and_assoc])
  · refine List.map_congr_left fun x hx => ?_
    obtain ⟨hmem, hassign⟩ := List.mem_filter.1 hx
    rw [flattened_of_isFlat (hflat x hmem (by simpa using hassign))]

end Ground

/-! ## An example -/

section TimedMessage

/-- The entry that a message is drafted at time 5. -/
def draftedLater : Expr := .list [.atom "at", .atom "5", atomExpr "drafted"]

/-- The problem to send a message, while one waits in the queue and another one is drafted later. -/
def timedMessage : Problem := { message with init := [atomExpr "queued", draftedLater] }

/-- The ground task of the outbox and the problem. -/
def timedTask (facts : FactTable) : Task κ where
  facts
  init := [0, 1]
  actions := #[
    { name := "(draft)", needs := [], forbids := [], adds := [2], deletes := [], conditional := []
      cost := Scale.ofNat 1 },
    { name := "(submit)", needs := [2], forbids := [], adds := [0], deletes := [2]
      conditional := [⟨[0], [], [3, 4], []⟩], cost := Scale.ofNat 1 },
    { name := "(flush)", needs := [0], forbids := [], adds := [3], deletes := [], conditional := []
      cost := Scale.ofNat 1 }]
  goalNeeds := [3]
  goalForbids := []

theorem not_isFlat_draftedLater : ¬ IsFlat draftedLater := by
  rintro ⟨predicate, args, heq⟩
  have hargs : [Expr.atom "5", atomExpr "drafted"] = args.map .atom := (List.cons.inj (Expr.list.inj heq)).2
  have hmem : atomExpr "drafted" ∈ args.map Expr.atom := hargs ▸ List.mem_cons_of_mem _ (List.mem_singleton_self _)
  obtain ⟨_, -, hatom⟩ := List.mem_map.1 hmem
  cases hatom

/-- The entry for a later time is read as the fact that its name and its first argument make up. -/
theorem exists_ground_timed : ∃ facts : FactTable,
    facts.names = #["(queued)", "(at 5)", "(drafted)", "(sent)", "(logged)"] ∧
    Task.ground (κ := κ) outbox timedMessage = .ok (timedTask facts) := by
  have hbare : bareTask (κ := κ) outbox timedMessage = some {
      init := ["(queued)", "(at 5)"]
      actions := [
        ⟨"(draft)", { effect := [(true, "(drafted)")] }, Scale.ofNat 1⟩,
        ⟨"(submit)", ⟨[(true, "(drafted)")], [(false, "(drafted)"), (true, "(queued)")],
          [([(true, "(queued)")], [(true, "(sent)"), (true, "(logged)")])]⟩, Scale.ofNat 1⟩,
        ⟨"(flush)", { condition := [(true, "(queued)")], effect := [(true, "(sent)")] }, Scale.ofNat 1⟩]
      goal := [(true, "(sent)")] } := rfl
  refine exists_ground_of_bare hbare ?_ fun facts hnames => ?_
  · simp only [NamedTask.places, actionPlaces, effectPlaces, splitPlaces,
      List.mapM_cons, List.mapM_nil, Naming.pure_eq, Naming.bind_eq]
    cbv
  · obtain ⟨names, numbers, hnumbers⟩ := facts
    subst hnames
    cbv

theorem ground_initialFacts_timed : ∃ t : Task Double,
    Task.ground outbox timedMessage = .ok t ∧
    t.init.map t.facts.name = ["(queued)", "(at 5)"] ∧
    Task.ground outbox { timedMessage with init := [atomExpr "queued", .call "at" ["5"]] } = .ok t ∧
    ∀ name, t.holdsIn t.initialState name = true ↔ name = "(queued)" ∨ name = "(at 5)" := by
  obtain ⟨facts, -, hground⟩ := exists_ground_timed (κ := Double)
  obtain ⟨-, hnames, hholds, -, hflattened, -⟩ := ground_initialFacts hground
  have hqueued : ¬ IsAssignment (atomExpr "queued") ∧ (flattened (atomExpr "queued")).display = "(queued)" := by
    decide
  have hlater : ¬ IsAssignment draftedLater ∧ (flattened draftedLater).display = "(at 5)" := by decide
  refine ⟨_, hground, hnames.trans (by decide), hflattened, fun name => (hholds name).trans ?_⟩
  simp [timedMessage, hqueued, hlater, eq_comm]

/-- A condition that is the entry for a later time is refused, but as an entry it is not, and its text is not an
initial fact. -/
theorem ground_initialFacts_unread_timed :
    readCondition draftedLater = .error (.unsupported (.numericExpression draftedLater)) ∧
    ¬ ∀ (domain : Domain) (problem : Problem) (t : Task Double), Task.ground domain problem = .ok t →
      (∀ x ∈ problem.init, ¬ IsAssignment x → IsFlat x) ∧
      t.init.map t.facts.name = (problem.init.filter (¬ IsAssignment ·)).map Expr.display := by
  refine ⟨rfl, fun hall => ?_⟩
  obtain ⟨facts, -, hground⟩ := exists_ground_timed (κ := Double)
  have hmem : draftedLater ∈ timedMessage.init := List.mem_cons_of_mem _ (List.mem_singleton_self _)
  exact not_isFlat_draftedLater ((hall _ _ _ hground).1 draftedLater hmem (by decide))

end TimedMessage

end Waymark.Ground
