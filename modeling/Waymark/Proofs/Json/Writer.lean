import Mathlib.Tactic
import Waymark.Json.Writer
import Waymark.Proofs.Digest

/-!
# What a JSON text says

A string that is written as JSON can be told from what follows it: a character stands for itself, or it is written as a
backslash and more, so no character is taken for the closing quote or for the beginning of another. Arrays and objects
can then be told from what follows them too, since the mark after a value is never the beginning of one. Numbers have no
mark at their end, and are left out.

* `Plain`, `quotedChar_eq_iff`: the characters that stand for themselves;
* `delimited_quotedChar`, `delimited_quoted`: characters and strings can be told from what follows them;
* `isTextual`: the values that are made of strings;
* `writeTo_inj`, `write_inj`: their texts say the values.
-/

namespace Waymark.Json

open Digest

/-! ## Strings -/

/-- The character stands for itself in a string. -/
def Plain (c : Char) : Prop := c ≠ '"' ∧ c ≠ '\\' ∧ 0x20 ≤ c.toNat

instance : DecidablePred Plain := fun _ => inferInstanceAs (Decidable (_ ∧ _))

/-- The characters that do not stand for themselves. -/
def escaped : List Char := '"' :: '\\' :: (List.range 0x20).map Char.ofNat

theorem mem_escaped_of_not_plain {c : Char} (h : ¬ Plain c) : c ∈ escaped := by
  by_cases hquote : c = '"'
  · exact hquote ▸ List.mem_cons_self
  by_cases hslash : c = '\\'
  · exact hslash ▸ List.mem_cons_of_mem _ List.mem_cons_self
  have hcontrol : c.toNat < 0x20 := by
    by_contra hlarge
    exact h ⟨hquote, hslash, by omega⟩
  refine List.mem_cons_of_mem _ (List.mem_cons_of_mem _ (List.mem_map.2 ⟨c.toNat, List.mem_range.2 hcontrol, ?_⟩))
  exact Char.ofNat_toNat c

/-- A character is written as it is just if it stands for itself. -/
theorem quotedChar_eq_iff {c : Char} : quotedChar c = [c] ↔ Plain c := by
  constructor
  · intro h
    -- `all` goes through the list, where a quantifier may be decided by going through all characters.
    have hescaped : escaped.all fun d => quotedChar d ≠ [d] := by decide +kernel
    by_contra hplain
    exact of_decide_eq_true (List.all_eq_true.1 hescaped c (mem_escaped_of_not_plain hplain)) h
  · rintro ⟨hquote, hslash, hcontrol⟩
    unfold quotedChar
    rw [if_neg hquote, if_neg hslash, if_neg (by omega), if_neg (by omega), if_neg (by omega), if_neg (by omega),
      if_neg (by omega), if_neg (by omega)]

/-- What does not stand for itself is written as a backslash and more. -/
theorem head?_quotedChar_of_escaped {c : Char} (hc : c ∈ escaped) : (quotedChar c).head? = some '\\' := by
  have hescaped : escaped.all fun c => (quotedChar c).head? = some '\\' := by decide +kernel
  exact of_decide_eq_true (List.all_eq_true.1 hescaped c hc)

theorem eq_of_isPrefix_quotedChar {c d : Char} (hc : c ∈ escaped) (hd : d ∈ escaped)
    (h : quotedChar c <+: quotedChar d) : c = d := by
  have hescaped : escaped.all fun c => escaped.all fun d => quotedChar c <+: quotedChar d → c = d := by
    decide +kernel
  exact of_decide_eq_true (List.all_eq_true.1 (List.all_eq_true.1 hescaped c hc) d hd) h

/-- The first character that is written for a character is the character or a backslash. -/
theorem head?_quotedChar_append (c : Char) (xs : List Char) :
    (quotedChar c ++ xs).head? = some (if Plain c then c else '\\') := by
  rw [List.head?_append]
  split
  · rename_i h
    rw [quotedChar_eq_iff.2 h]
    rfl
  · rename_i h
    rw [head?_quotedChar_of_escaped (mem_escaped_of_not_plain h), Option.some_or]

theorem delimited_quotedChar : Delimited (fun _ => True) quotedChar := by
  refine delimited_of_isPrefix fun c d _ _ h => ?_
  have hhead : (if Plain c then c else '\\') = if Plain d then d else '\\' := by
    obtain ⟨rest, hrest⟩ := h
    have hfirst := congrArg List.head? hrest
    rw [← List.append_nil (quotedChar d), head?_quotedChar_append, head?_quotedChar_append] at hfirst
    exact Option.some.inj hfirst
  by_cases hc : Plain c <;> by_cases hd : Plain d <;> simp only [hc, hd, ↓reduceIte] at hhead
  · exact hhead
  · exact absurd hhead hc.2.1
  · exact absurd hhead.symm hd.2.1
  · exact eq_of_isPrefix_quotedChar (mem_escaped_of_not_plain hc) (mem_escaped_of_not_plain hd) h

/-- No character is taken for the quote that closes a string. -/
theorem quotedChar_append_ne (c : Char) (xs ys : List Char) : quotedChar c ++ xs ≠ '"' :: ys := by
  intro heq
  have hhead := congrArg List.head? heq
  rw [head?_quotedChar_append, List.head?_cons, Option.some_inj] at hhead
  split at hhead
  · rename_i h
    exact h.1 hhead
  · exact absurd hhead (by decide)

/-- **A string can be told from what follows it.** -/
theorem delimited_quoted : Delimited (fun _ => True) quoted := by
  intro s t xs ys _ _ heq
  have hclosed := delimited_quotedChar.closed '"' fun c _ => quotedChar_append_ne c
  obtain ⟨htext, hrest⟩ := hclosed (fun _ _ => trivial) (fun _ _ => trivial) (List.cons.inj heq).2
  exact ⟨String.toList_inj.1 htext, hrest⟩

/-! ## Values -/

mutual

/-- The value is made of strings, arrays and objects. -/
def isTextual : Json → Bool
  | .text _ => true
  | .array items => allTextual items
  | .object members => membersTextual members
  | .null | .bool _ | .int _ | .float _ | .flawed _ | .keyless _ _ => false

/-- The items are made of strings, arrays and objects. -/
def allTextual : List Json → Bool
  | [] => true
  | x :: rest => x.isTextual && allTextual rest

/-- The members are made of strings, arrays and objects. -/
def membersTextual : List (String × Json) → Bool
  | [] => true
  | (_, x) :: rest => x.isTextual && membersTextual rest

end

theorem allTextual_of_forall {xs : List Json} (h : ∀ x ∈ xs, x.isTextual = true) : allTextual xs = true := by
  induction xs with
  | nil => rfl
  | cons x xs ih =>
    obtain ⟨hx, hxs⟩ := List.forall_mem_cons.1 h
    rw [allTextual, hx, ih hxs, Bool.and_self]

/-- No value begins with the mark at the end of an array. -/
theorem writeTo_ne {x : Json} (hx : x.isTextual = true) (rest rest' : List Char) :
    writeTo rest x ≠ ']' :: rest' := by
  cases x with
  | text s => simp [writeTo, quoted]
  | array items => simp [writeTo]
  | object members => simp [writeTo]
  | null | bool _ | int _ | float _ | flawed _ | keyless _ _ => cases hx

/-- What stands between an item and the mark at the end of its array: the other items, each after a comma. -/
def itemsAfter (rest : List Char) : List Json → List Char
  | [] => rest
  | x :: more => ',' :: writeItems rest (x :: more)

theorem writeItems_cons (rest : List Char) (x : Json) (xs : List Json) :
    writeItems rest (x :: xs) = writeTo (itemsAfter rest xs) x := by
  cases xs with
  | nil => rw [writeItems, itemsAfter]
  | cons y more => rw [writeItems, itemsAfter]

/-- What stands between a member and the mark at the end of its object: the other members, each after a comma. -/
def membersAfter (rest : List Char) : List (String × Json) → List Char
  | [] => rest
  | m :: more => ',' :: writeMembers rest (m :: more)

theorem writeMembers_cons (rest : List Char) (m : String × Json) (members : List (String × Json)) :
    writeMembers rest (m :: members) = quoted m.1 ++ ':' :: writeTo (membersAfter rest members) m.2 := by
  cases members with
  | nil => rw [writeMembers, membersAfter]
  | cons m more => rw [writeMembers, membersAfter]

/-- Items that are written in the same way are also written in the same way after another item. -/
theorem itemsAfter_eq {xs ys : List Json} (hxs : allTextual xs = true) (hys : allTextual ys = true)
    {rest rest' : List Char} (h : writeItems (']' :: rest) xs = writeItems (']' :: rest') ys) :
    itemsAfter (']' :: rest) xs = itemsAfter (']' :: rest') ys := by
  cases xs with
  | nil =>
    cases ys with
    | nil => rwa [writeItems, writeItems] at h
    | cons y ys =>
      rw [writeItems, writeItems_cons] at h
      rw [allTextual, Bool.and_eq_true] at hys
      exact absurd h.symm (writeTo_ne hys.1 _ _)
  | cons x xs =>
    cases ys with
    | nil =>
      rw [writeItems, writeItems_cons] at h
      rw [allTextual, Bool.and_eq_true] at hxs
      exact absurd h (writeTo_ne hxs.1 _ _)
    | cons y ys => rw [itemsAfter, itemsAfter, h]

/-- Members that are written in the same way are also written in the same way after another member. -/
theorem membersAfter_eq {xs ys : List (String × Json)} {rest rest' : List Char}
    (h : writeMembers ('\x7d' :: rest) xs = writeMembers ('\x7d' :: rest') ys) :
    membersAfter ('\x7d' :: rest) xs = membersAfter ('\x7d' :: rest') ys := by
  cases xs with
  | nil =>
    cases ys with
    | nil => rwa [writeMembers, writeMembers] at h
    | cons m ys => simp [writeMembers, writeMembers_cons, quoted] at h
  | cons m xs =>
    cases ys with
    | nil => simp [writeMembers, writeMembers_cons, quoted] at h
    | cons m' ys => rw [membersAfter, membersAfter, h]

mutual

/-- **A value can be told from what follows it.** -/
theorem writeTo_inj {x y : Json} (hx : x.isTextual = true) (hy : y.isTextual = true) {rest rest' : List Char}
    (h : writeTo rest x = writeTo rest' y) : x = y ∧ rest = rest' := by
  cases x with
  | null | bool _ | int _ | float _ | flawed _ | keyless _ _ => cases hx
  | text s =>
    cases y with
    | null | bool _ | int _ | float _ | flawed _ | keyless _ _ => cases hy
    | array _ | object _ => simp [writeTo, quoted] at h
    | text t =>
      rw [writeTo, writeTo] at h
      obtain ⟨rfl, hrest⟩ := delimited_quoted trivial trivial h
      exact ⟨rfl, hrest⟩
  | array items =>
    cases y with
    | null | bool _ | int _ | float _ | flawed _ | keyless _ _ => cases hy
    | text _ | object _ => simp [writeTo, quoted] at h
    | array items' =>
      rw [writeTo, writeTo] at h
      rw [isTextual] at hx hy
      obtain ⟨rfl, hrest⟩ := itemsAfter_inj hx hy (itemsAfter_eq hx hy (List.cons.inj h).2)
      exact ⟨rfl, hrest⟩
  | object members =>
    cases y with
    | null | bool _ | int _ | float _ | flawed _ | keyless _ _ => cases hy
    | text _ | array _ => simp [writeTo, quoted] at h
    | object members' =>
      rw [writeTo, writeTo] at h
      rw [isTextual] at hx hy
      obtain ⟨rfl, hrest⟩ := membersAfter_inj hx hy (membersAfter_eq (List.cons.inj h).2)
      exact ⟨rfl, hrest⟩

/-- Items can be told from what follows the mark at their end. -/
theorem itemsAfter_inj {xs ys : List Json} (hxs : allTextual xs = true) (hys : allTextual ys = true)
    {rest rest' : List Char} (h : itemsAfter (']' :: rest) xs = itemsAfter (']' :: rest') ys) :
    xs = ys ∧ rest = rest' := by
  cases xs with
  | nil =>
    cases ys with
    | nil => exact ⟨rfl, (List.cons.inj h).2⟩
    | cons y ys => exact absurd (List.cons.inj h).1 (by decide)
  | cons x xs =>
    cases ys with
    | nil => exact absurd (List.cons.inj h).1 (by decide)
    | cons y ys =>
      rw [allTextual, Bool.and_eq_true] at hxs hys
      rw [itemsAfter, itemsAfter, writeItems_cons, writeItems_cons] at h
      obtain ⟨hxy, hafter⟩ := writeTo_inj hxs.1 hys.1 (List.cons.inj h).2
      obtain ⟨htail, hrest⟩ := itemsAfter_inj hxs.2 hys.2 hafter
      exact ⟨congrArg₂ _ hxy htail, hrest⟩

/-- Members can be told from what follows the mark at their end. -/
theorem membersAfter_inj {xs ys : List (String × Json)} (hxs : membersTextual xs = true)
    (hys : membersTextual ys = true) {rest rest' : List Char}
    (h : membersAfter ('\x7d' :: rest) xs = membersAfter ('\x7d' :: rest') ys) : xs = ys ∧ rest = rest' := by
  cases xs with
  | nil =>
    cases ys with
    | nil => exact ⟨rfl, (List.cons.inj h).2⟩
    | cons m ys => exact absurd (List.cons.inj h).1 (by decide)
  | cons m xs =>
    cases ys with
    | nil => exact absurd (List.cons.inj h).1 (by decide)
    | cons m' ys =>
      rw [membersTextual, Bool.and_eq_true] at hxs hys
      rw [membersAfter, membersAfter, writeMembers_cons, writeMembers_cons] at h
      obtain ⟨hkey, hvalue⟩ := delimited_quoted trivial trivial (List.cons.inj h).2
      obtain ⟨hxy, hafter⟩ := writeTo_inj hxs.1 hys.1 (List.cons.inj hvalue).2
      obtain ⟨htail, hrest⟩ := membersAfter_inj hxs.2 hys.2 hafter
      exact ⟨congrArg₂ _ (Prod.ext hkey hxy) htail, hrest⟩

end

/-- **The text of a value** says the value. -/
theorem write_inj {x y : Json} (hx : x.isTextual = true) (hy : y.isTextual = true) (h : x.write = y.write) : x = y :=
  (writeTo_inj hx hy (String.ofList_injective h)).1

end Waymark.Json
