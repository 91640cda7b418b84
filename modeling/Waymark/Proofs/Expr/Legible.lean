import Mathlib.Tactic
import Waymark.Expr.Reader
import Waymark.Proofs.Text.Blank
import Waymark.Proofs.Text.Lower

/-!
# Names that can be read

The reader ends a name at blanks, parentheses and semicolons, and lower-cases it. So every name in an expression that
has been read is a name that is read as it is.

* `IsName`: a text that is read as a name, and as the same one;
* `Legible`: an expression of such names;
* `legible_of_readOne`: the expressions that are read.
-/

namespace Waymark.Expr

/-! ## Names -/

/-- The text is read as a name, and as the same one: it is not empty, is made of characters of names, and is in lower
case. -/
structure IsName (s : String) : Prop where
  ne_nil : s.toList ≠ []
  isNameChar : ∀ c ∈ s.toList, isNameChar c = true
  isLow : ∀ c ∈ s.toList, Text.IsLow c

-- What is decided is whether all characters of the list pass. A quantifier over characters would be decided by trying
-- every character there is.
instance : DecidablePred IsName := fun s =>
  decidable_of_iff (s.toList ≠ [] ∧ s.toList.all isNameChar = true ∧ s.toList.all (decide <| Text.IsLow ·) = true) <| by
    simp only [List.all_eq_true, decide_eq_true_eq]
    exact ⟨fun h => ⟨h.1, h.2.1, h.2.2⟩, fun h => ⟨h.ne_nil, h.isNameChar, h.isLow⟩⟩

theorem isBlank_of_isNameChar {c : Char} (h : isNameChar c = true) : Text.isBlank c = false := by
  unfold isNameChar at h
  simp only [Bool.and_eq_true, Bool.not_eq_true'] at h
  exact h.1.1.1

/-- Characters that do not stand in names are plain. -/
theorem isPlain_of_not_isNameChar {c : Char} (h : isNameChar c = false) : Text.IsPlain c := by
  by_cases hblank : Text.isBlank c = true
  · exact .inl hblank
  · simp only [isNameChar, hblank, Bool.not_false, Bool.true_and, Bool.and_eq_false_iff, decide_eq_false_iff_not,
      not_not] at h
    rcases h with (rfl | rfl) | rfl <;> decide

/-- What is lower-cased from characters of a name is a name. -/
theorem isName_lower {cs : List Char} (hne : cs ≠ []) (h : ∀ c ∈ cs, isNameChar c = true) :
    IsName (String.ofList (Text.lower cs)) := by
  constructor <;> rw [String.toList_ofList]
  · exact fun hnil => hne (Text.lower_eq_nil.1 hnil)
  · intro c hc
    by_contra hnot
    have hmem := Text.mem_of_mem_lower hc (isPlain_of_not_isNameChar (Bool.eq_false_iff.2 hnot))
    exact hnot (h c hmem)
  · exact fun c hc => Text.isLow_of_mem_lower hc

namespace IsName

variable {s : String} (h : IsName s)
include h

theorem isToken : Text.IsToken s.toList := ⟨h.ne_nil, fun c hc => isBlank_of_isNameChar (h.isNameChar c hc)⟩

theorem lower_eq : Text.lower s.toList = s.toList := Text.lower_of_isLow h.isLow

theorem append {t : String} (ht : IsName t) : IsName (s ++ t) := by
  constructor <;> rw [String.toList_append]
  · exact fun hnil => h.ne_nil (List.append_eq_nil_iff.1 hnil).1
  · exact List.forall_mem_append.2 ⟨h.isNameChar, ht.isNameChar⟩
  · exact List.forall_mem_append.2 ⟨h.isLow, ht.isLow⟩

end IsName

/-! ## Expressions -/

/-- All names in the expression are read as they are. -/
inductive Legible : Expr → Prop
  | atom {a : String} (h : IsName a) : Legible (.atom a)
  | list {xs : List Expr} (h : ∀ x ∈ xs, Legible x) : Legible (.list xs)

theorem legible_atom {a : String} : Legible (.atom a) ↔ IsName a := by
  constructor
  · rintro ⟨h⟩
    exact h
  · exact .atom

theorem legible_list {xs : List Expr} : Legible (.list xs) ↔ ∀ x ∈ xs, Legible x := by
  constructor
  · rintro ⟨⟩
    assumption
  · exact .list

theorem head?_eq_some {x : Expr} {a : String} : x.head? = some a ↔ ∃ xs, x = .list (.atom a :: xs) := by
  constructor
  · intro h
    unfold head? at h
    split at h
    · obtain rfl := Option.some.inj h
      exact ⟨_, rfl⟩
    · cases h
  · rintro ⟨xs, rfl⟩
    rfl

/-- What the reader has read is legible, and what it is reading will be a name. -/
structure Reader.Legible (r : Reader) : Prop where
  letters : ∀ letters, r.mode = .name letters → letters ≠ [] ∧ ∀ c ∈ letters, isNameChar c = true
  current : ∀ x ∈ r.current, Expr.Legible x
  outer : ∀ xs ∈ r.outer, ∀ x ∈ xs, Expr.Legible x

namespace Reader.Legible

variable {r r' : Reader} {c : Char}

theorem endName (h : r.Legible) : r.endName.Legible := by
  unfold Reader.endName
  split
  · rename_i letters hmode
    obtain ⟨hne, hletters⟩ := h.letters letters hmode
    have hname : IsName (String.ofList (Text.lower letters.reverse)) :=
      isName_lower (by simpa using hne) fun c hc => hletters c (List.mem_reverse.1 hc)
    exact ⟨nofun, List.forall_mem_cons.2 ⟨.atom hname, h.current⟩, h.outer⟩
  · exact h

theorem stepBetween (h : r.Legible) (hmode : r.mode = .between) (hstep : r.stepBetween c = some r') :
    r'.Legible := by
  have hletters : ∀ letters, r.mode = .name letters → letters ≠ [] ∧ ∀ c ∈ letters, isNameChar c = true := by
    rw [hmode]
    exact nofun
  unfold Reader.stepBetween at hstep
  split at hstep
  · obtain rfl := Option.some.inj hstep
    exact h
  split at hstep
  · obtain rfl := Option.some.inj hstep
    exact ⟨nofun, h.current, h.outer⟩
  split at hstep
  · obtain rfl := Option.some.inj hstep
    exact ⟨hletters, nofun, List.forall_mem_cons.2 ⟨h.current, h.outer⟩⟩
  split at hstep
  · split at hstep
    · cases hstep
    · rename_i around outer houter
      obtain rfl := Option.some.inj hstep
      obtain ⟨haround, hrest⟩ := List.forall_mem_cons.1 (houter ▸ h.outer)
      refine ⟨hletters, List.forall_mem_cons.2 ⟨.list fun x hx => ?_, haround⟩, hrest⟩
      exact h.current x (List.mem_reverse.1 hx)
  split at hstep
  · rename_i hc
    obtain rfl := Option.some.inj hstep
    refine ⟨fun letters hl => ?_, h.current, h.outer⟩
    obtain rfl := Mode.name.inj hl
    exact ⟨List.cons_ne_nil _ _, List.forall_mem_singleton.2 hc⟩
  · cases hstep

theorem step (h : r.Legible) (hstep : r.step c = some r') : r'.Legible := by
  unfold Reader.step at hstep
  split at hstep
  · obtain rfl := Option.some.inj hstep
    split
    · exact ⟨nofun, h.current, h.outer⟩
    · exact h
  · rename_i letters hmode
    split at hstep
    · rename_i hc
      obtain rfl := Option.some.inj hstep
      refine ⟨fun letters' hl => ?_, h.current, h.outer⟩
      obtain rfl := Mode.name.inj hl
      exact ⟨List.cons_ne_nil _ _, List.forall_mem_cons.2 ⟨hc, (h.letters letters hmode).2⟩⟩
    · refine h.endName.stepBetween ?_ hstep
      rw [Reader.endName, hmode]
  · rename_i hmode
    exact h.stepBetween hmode hstep

theorem run {before cs : List Char} {xs : List Expr} (h : r.Legible) (hrun : r.run before cs = .ok xs) :
    ∀ x ∈ xs, Expr.Legible x := by
  induction cs generalizing r before with
  | nil =>
    unfold Reader.run at hrun
    dsimp only at hrun
    split at hrun
    · obtain rfl := Except.ok.inj hrun
      exact fun x hx => h.endName.current x (List.mem_reverse.1 hx)
    · cases hrun
  | cons c cs ih =>
    unfold Reader.run at hrun
    split at hrun
    · rename_i r' hstep
      exact ih (h.step hstep) hrun
    · cases hrun

end Reader.Legible

/-- The only expression of a text is the one that is read. -/
theorem readOne_eq_ok {cs : List Char} {x : Expr} :
    readOne cs = .ok x ↔ tooDeepLine? cs = none ∧ Reader.run {} [] cs = .ok [x] := by
  have hall : readOne cs = .ok x ↔ readAll cs = .ok [x] := by
    unfold readOne
    constructor
    · intro h
      split at h
      · rename_i hx
        rw [hx, Except.ok.inj h]
      · cases h
      · cases h
    · intro h
      rw [h]
  rw [hall, readAll]
  split
  · rename_i n hn
    exact iff_of_false nofun fun h => Option.some_ne_none n (hn.symm.trans h.1)
  · rename_i hn
    exact (and_iff_right hn).symm

/-- Expressions that are read are legible. -/
theorem legible_of_readOne {cs : List Char} {x : Expr} (h : readOne cs = .ok x) : x.Legible :=
  have hstart : Reader.Legible {} := ⟨nofun, nofun, nofun⟩
  hstart.run (readOne_eq_ok.1 h).2 x List.mem_cons_self

end Waymark.Expr
