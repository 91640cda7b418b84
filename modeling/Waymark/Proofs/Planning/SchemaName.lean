import Mathlib.Tactic
import Waymark.Ground.Grounding
import Waymark.Proofs.Planning.Words

/-!
# The schema of a ground action

A ground action is called by its schema and its arguments in parentheses. If they are words, the name of
the action says which schema it is an instance of, and with which arguments.

* `schemaName`: the first word in a parenthesis, with `schemaName_atomName`;
* `atomName_inj`: the words of an atom can be read off its name;
* `Domain.schema?_name`: schemas are found by their names;
* `Domain.schemaOf?`: the schema of a ground action, with `Domain.schemaOf?_atomName`.
-/

namespace Waymark.Planning

/-! ## Names of ground actions -/

/-- The first word in a parenthesis. -/
def schemaName (action : String) : String :=
  String.ofList ((action.toList.drop 1).takeWhile fun c => c ≠ ' ' && c ≠ ')')

/-- The predicate of an atom is followed by a space or the closing parenthesis. -/
theorem toList_atomName (predicate : String) (args : List String) :
    ∃ c rest, (c = ' ' ∨ c = ')') ∧
      (Ground.atomName predicate args).toList = '(' :: (predicate.toList ++ c :: rest) := by
  cases args with
  | nil => exact ⟨')', [], .inr rfl, by simp [Ground.atomName]⟩
  | cons a args => exact ⟨' ', _, .inl rfl, by simp [Ground.atomName]; rfl⟩

/-- A word ends at the first space or closing parenthesis. -/
theorem takeWhile_word {a : String} (h : IsWord a) {c : Char} (hc : c = ' ' ∨ c = ')') (cs : List Char) :
    (a.toList ++ c :: cs).takeWhile (fun c => c ≠ ' ' && c ≠ ')') = a.toList := by
  have hword : ∀ d ∈ a.toList, (decide (d ≠ ' ') && decide (d ≠ ')')) = true := by
    simpa [IsWord] using h
  have hend : (c :: cs).takeWhile (fun c => c ≠ ' ' && c ≠ ')') = [] :=
    List.takeWhile_cons_of_neg (by rcases hc with rfl | rfl <;> decide)
  rw [List.takeWhile_append_of_pos hword, hend, List.append_nil]

theorem schemaName_atomName {name : String} (h : IsWord name) (args : List String) :
    schemaName (Ground.atomName name args) = name := by
  obtain ⟨c, rest, hc, hlist⟩ := toList_atomName name args
  rw [schemaName, hlist, List.drop_one, List.tail_cons, takeWhile_word h hc, String.ofList_toList]

theorem append_inj_of_isWord {a b : String} (ha : IsWord a) (hb : IsWord b) {c d : Char} {cs ds : List Char}
    (hc : c = ' ' ∨ c = ')') (hd : d = ' ' ∨ d = ')') (h : a.toList ++ c :: cs = b.toList ++ d :: ds) :
    a = b ∧ c :: cs = d :: ds := by
  have hlist : a.toList = b.toList := by
    rw [← takeWhile_word ha hc, h, takeWhile_word hb hd]
  exact ⟨String.toList_inj.1 hlist, (List.append_inj h (by rw [hlist])).2⟩

/-- The characters of arguments up to the closing parenthesis. -/
def argumentChars (args : List String) : List Char := args.flatMap (fun a => ' ' :: a.toList) ++ [')']

theorem argumentChars_cons (a : String) (args : List String) :
    argumentChars (a :: args) = ' ' :: (a.toList ++ argumentChars args) := by
  simp [argumentChars]

theorem toList_atomName_eq (predicate : String) (args : List String) :
    (Ground.atomName predicate args).toList = '(' :: (predicate.toList ++ argumentChars args) := by
  have hjoin : (String.join (args.map (" " ++ ·))).toList = args.flatMap fun a => ' ' :: a.toList := by
    rw [String.toList_join, List.flatMap_map]
    exact List.flatMap_congr fun a _ => by simp
  rw [Ground.atomName, String.toList_append, String.toList_append, String.toList_append, hjoin, argumentChars]
  simp

/-- An atom that is made of words says what it is made of. -/
theorem atomName_inj {p q : String} {xs ys : List String} (hp : IsWord p) (hq : IsWord q)
    (hxs : ∀ x ∈ xs, IsWord x) (hys : ∀ y ∈ ys, IsWord y)
    (h : Ground.atomName p xs = Ground.atomName q ys) : p = q ∧ xs = ys := by
  have hlist : p.toList ++ argumentChars xs = q.toList ++ argumentChars ys := by
    have hlist := congrArg String.toList h
    rw [toList_atomName_eq, toList_atomName_eq] at hlist
    exact (List.cons.inj hlist).2
  clear h
  induction xs generalizing p q ys with
  | nil =>
    cases ys with
    | nil => exact ⟨(append_inj_of_isWord hp hq (.inr rfl) (.inr rfl) hlist).1, rfl⟩
    | cons y ys =>
      rw [argumentChars_cons] at hlist
      have hend := (append_inj_of_isWord hp hq (.inr rfl) (.inl rfl) hlist).2
      cases hend
  | cons x xs ih =>
    rw [argumentChars_cons] at hlist
    cases ys with
    | nil =>
      have hend := (append_inj_of_isWord hp hq (.inl rfl) (.inr rfl) hlist).2
      cases hend
    | cons y ys =>
      obtain ⟨hx, hxs⟩ := List.forall_mem_cons.1 hxs
      obtain ⟨hy, hys⟩ := List.forall_mem_cons.1 hys
      rw [argumentChars_cons] at hlist
      obtain ⟨rfl, hrest⟩ := append_inj_of_isWord hp hq (.inl rfl) (.inl rfl) hlist
      obtain ⟨rfl, rfl⟩ := ih hx hy hxs hys (List.cons.inj hrest).2
      exact ⟨rfl, rfl⟩

/-- If no two schemas have one name, a schema is found by its name. -/
theorem Domain.schema?_name {domain : Domain} (hnodup : (domain.schemas.map (·.name)).Nodup) {s : Schema}
    (hs : s ∈ domain.schemas) : domain.schema? s.name = some s := by
  rw [schema?]
  cases hfind : domain.schemas.find? (·.name = s.name) with
  | none =>
    have := List.find?_eq_none.1 hfind s hs
    simp at this
  | some s' =>
    have hname : s'.name = s.name := by simpa using List.find?_some hfind
    rw [List.inj_on_of_nodup_map hnodup (List.mem_of_find?_eq_some hfind) hs hname]

/-- The schema that a ground action is an instance of, as its name says. -/
def Domain.schemaOf? (domain : Domain) (action : String) : Option Schema :=
  domain.schema? (schemaName action)

theorem Domain.schemaOf?_atomName {domain : Domain} (hword : ∀ s ∈ domain.schemas, IsWord s.name)
    (hnodup : (domain.schemas.map (·.name)).Nodup) {s : Schema} (hs : s ∈ domain.schemas)
    (args : List String) : domain.schemaOf? (Ground.atomName s.name args) = some s := by
  rw [schemaOf?, schemaName_atomName (hword s hs), schema?_name hnodup hs]

end Waymark.Planning
