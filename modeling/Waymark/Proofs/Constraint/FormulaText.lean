import Mathlib.Tactic
import Waymark.Constraint.Formula
import Waymark.Proofs.Outcome
import Waymark.Proofs.Text.Blank

/-!
# Texts of formulas

The text of a formula has a space before each activity and nothing around it, and is read by its words. So it is read
as a formula of the same template, and over the same activities just if each of these is one word.

* `Formula.IsPlain`: activities of one word each;
* `Formula.words_display`: the words of the text of a formula;
* `Formula.read_display`, `Formula.read_display_eq_ok_iff`: what the text is read as;
* `Formula.isPlain_of_read`: what is read has such activities;
* `Formula.compare_eq_iff`: formulas that stand in the same place.
-/

namespace Waymark.Constraint

/-! ## Templates -/

theorem Template.mem_all (t : Template) : t ∈ all := by cases t <;> decide

/-- The names of templates have different keys, none of which is the other one that is known. -/
theorem Template.find?_name : ∀ t ∈ all, templateKey t.name ≠ "existence2" ∧
    (all.find? fun u => templateKey u.name = templateKey t.name) = some t := by
  decide +kernel

/-- A template is read by its name. -/
theorem Template.read_name (t : Template) : Template.read t.name = .ok t := by
  obtain ⟨hname, hfind⟩ := find?_name t t.mem_all
  unfold read
  dsimp only
  rw [if_neg hname, hfind]

theorem Template.rank_injective {t u : Template} (h : t.rank = u.rank) : t = u := by
  have hget (t : Template) : all[t.rank]? = some t := by cases t <;> rfl
  exact Option.some.inj ((hget t).symm.trans (h ▸ hget u))

theorem Template.arity_eq (t : Template) : t.arity = 1 ∨ t.arity = 2 := by cases t <;> decide

namespace Formula

variable {f g : Formula} {t : Template} {as : List String}

theorem of_eq_ok : of t as = .ok f ↔ f.template = t ∧ f.activities = as := by
  unfold of
  constructor
  · intro h
    split at h
    · split at h
      · obtain rfl := Except.ok.inj h
        exact ⟨rfl, rfl⟩
      · cases h
    · cases h
  · rintro ⟨rfl, rfl⟩
    rw [dif_pos f.length_activities, dif_pos f.ne_empty]

theorem length_of (h : of t as = .ok f) : as.length = t.arity := by
  obtain ⟨rfl, rfl⟩ := of_eq_ok.1 h
  exact f.length_activities

theorem exists_of_eq_ok (hlength : as.length = t.arity) (has : ∀ a ∈ as, a ≠ "") : ∃ f, of t as = .ok f :=
  ⟨⟨t, as, hlength, has⟩, of_eq_ok.2 ⟨rfl, rfl⟩⟩

/-! ## Words -/

/-- No character of the text parts words. -/
def IsWord (a : String) : Prop := ∀ c ∈ a.toList, Text.isBlank c = false ∧ isPunctuation c = false

/-- Each activity is one word. -/
def IsPlain (f : Formula) : Prop := ∀ a ∈ f.activities, IsWord a

theorem isWord_iff {a : String} : IsWord a ↔ ∀ c ∈ a.toList, (Text.isBlank c || isPunctuation c) = false := by
  simp only [IsWord, Bool.or_eq_false_iff]

-- What is decided is whether all characters of the list pass. A quantifier over characters would be decided by trying
-- every character there is.
instance : DecidablePred IsWord := fun a =>
  decidable_of_iff ((a.toList.all fun c => !(Text.isBlank c || isPunctuation c)) = true) <| by
    simp [IsWord, List.all_eq_true]

instance : DecidablePred IsPlain := fun f => inferInstanceAs (Decidable (∀ a ∈ f.activities, IsWord a))

theorem isPunctuation_eq_false {c : Char} : isPunctuation c = false ↔ c ≠ '(' ∧ c ≠ ')' ∧ c ≠ ',' := by
  simp [isPunctuation, and_assoc]

/-- Words that have a space between them are those of both texts. -/
theorem words_append (s t : String) : words (s ++ (" " ++ t)) = words s ++ words t := by
  have hlist : (s ++ (" " ++ t)).toList = s.toList ++ ' ' :: t.toList := by simp
  unfold words
  rw [hlist, Text.runs_append_cons rfl, List.map_append]

theorem words_of_isWord {a : String} (hne : a ≠ "") (h : IsWord a) : words a = [a] := by
  unfold words
  rw [Text.runs_eq_singleton (by simpa using hne) (isWord_iff.1 h), List.map_singleton, String.ofList_toList]

theorem isWord_of_mem_words {text w : String} (hw : w ∈ words text) : IsWord w := by
  obtain ⟨cs, hcs, rfl⟩ := List.mem_map.1 hw
  rw [isWord_iff, String.toList_ofList]
  exact (Text.not_of_mem_runs hcs).2

theorem words_name (t : Template) : words t.name = [t.name] := by cases t <;> decide +kernel

/-- The words of the text of a formula are the name of its template and the words of its activities. -/
theorem words_display (f : Formula) : words f.display = f.template.name :: f.activities.flatMap words := by
  have hjoin (as : List String) (s : String) :
      words (s ++ String.join (as.map (" " ++ ·))) = words s ++ as.flatMap words := by
    induction as generalizing s with
    | nil => simp
    | cons a as ih =>
      rw [List.map_cons, String.join_cons, ← String.append_assoc, ih, words_append, List.flatMap_cons,
        List.append_assoc]
  rw [display, hjoin, words_name, List.singleton_append]

/-! ## Reading -/

/-- **The text of a formula** is read as one of its template over the words of its activities. -/
theorem read_display (f : Formula) : read f.display = of f.template (f.activities.flatMap words) := by
  rw [read, words_display]
  dsimp only
  rw [Template.read_name]
  rfl

/-- **A formula is read back from its text** just if each of its activities is one word. -/
theorem read_display_eq_ok_iff : read f.display = .ok f ↔ f.IsPlain := by
  rw [read_display, of_eq_ok, and_iff_right rfl]
  constructor
  · intro h a ha
    rw [h] at ha
    obtain ⟨b, -, ha⟩ := List.mem_flatMap.1 ha
    exact isWord_of_mem_words ha
  · intro h
    have hwords : ∀ a ∈ f.activities, words a = [a] := fun a ha => words_of_isWord (f.ne_empty a ha) (h a ha)
    rw [List.flatMap_congr hwords, List.flatMap_singleton']

/-- What is read from any text has activities of one word each. -/
theorem isPlain_of_read {text : String} (h : read text = .ok f) : f.IsPlain := by
  unfold read at h
  split at h
  · cases h
  · rename_i template activities hwords
    obtain ⟨t, -, h⟩ := bind_eq_ok.1 h
    intro a ha
    rw [(of_eq_ok.1 h).2] at ha
    exact isWord_of_mem_words (hwords ▸ List.mem_cons_of_mem template ha)

/-! ## Order -/

/-- No two formulas stand in the same place. -/
theorem compare_eq_iff : f.compare g = .eq ↔ f = g := by
  unfold compare
  rw [Ordering.then_eq_eq, Std.LawfulEqOrd.compare_eq_iff_eq, Std.LawfulEqOrd.compare_eq_iff_eq]
  constructor
  · rintro ⟨hrank, hactivities⟩
    obtain ⟨t, as, _, _⟩ := f
    obtain ⟨u, bs, _, _⟩ := g
    obtain rfl : t = u := Template.rank_injective hrank
    obtain rfl : as = bs := hactivities
    rfl
  · rintro rfl
    exact ⟨rfl, rfl⟩

end Formula

end Waymark.Constraint
