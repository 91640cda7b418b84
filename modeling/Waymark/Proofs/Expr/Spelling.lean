import Mathlib.Tactic
import Waymark.Proofs.Expr.Legible

/-!
# Texts of expressions

A text is cut into tokens: parentheses and names, with blanks between them. What the reader makes of a text depends
on its tokens only, and the tokens of the text of an expression are those of the expression. So an expression is read
back from any text with its tokens, unless its lists are nested too deeply.

* `Token`, `Spells`: the tokens of a text;
* `Reader.take`, `feed_of_spells`: what the reader makes of tokens;
* `Expr.tokens`, `spells_display`: the tokens of an expression and of its text;
* `readOne_of_spells`: expressions are read back.
-/

namespace Waymark.Expr

variable {cs ds : List Char} {x : Expr} {xs : List Expr}

/-! ## Tokens -/

/-- A parenthesis or a name. -/
inductive Token where
  | start
  | stop
  | name (a : String)
  deriving DecidableEq

/-- A name that stands before the text ends there. -/
def Parts (cs : List Char) : Prop := ∀ c ∈ cs.head?, isNameChar c = false

theorem parts_nil : Parts [] := nofun

theorem parts_cons {c : Char} : Parts (c :: cs) ↔ isNameChar c = false := by
  simp [Parts]

theorem Parts.append (hcs : Parts cs) (hds : Parts ds) : Parts (cs ++ ds) := by
  cases cs with
  | nil => exact hds
  | cons c cs => exact parts_cons.2 (parts_cons.1 hcs)

/-- The text does not end in a name. -/
def Ended (cs : List Char) : Prop := ∀ c ∈ cs.getLast?, isNameChar c = false

instance : DecidablePred Ended := fun cs =>
  decidable_of_iff (cs.getLast?.all (!isNameChar ·) = true) (by simp [Ended, Option.all_eq_true])

/-- The text has the tokens, with blanks where they have to be kept apart. -/
inductive Spells : List Char → List Token → Prop
  | nil : Spells [] []
  | blank {c : Char} {cs : List Char} {ts : List Token} (h : isSeparator c = true) (rest : Spells cs ts) :
      Spells (c :: cs) ts
  | start {cs : List Char} {ts : List Token} (rest : Spells cs ts) : Spells ('(' :: cs) (.start :: ts)
  | stop {cs : List Char} {ts : List Token} (rest : Spells cs ts) : Spells (')' :: cs) (.stop :: ts)
  | name {a : String} {cs : List Char} {ts : List Token} (h : IsName a) (parts : Parts cs) (rest : Spells cs ts) :
      Spells (a.toList ++ cs) (.name a :: ts)

variable {ts us : List Token}

theorem Spells.append (hcs : Spells cs ts) (hparts : Parts ds) (hds : Spells ds us) : Spells (cs ++ ds) (ts ++ us) := by
  induction hcs with
  | nil => exact hds
  | blank h _ ih => exact .blank h ih
  | start _ ih => exact .start ih
  | stop _ ih => exact .stop ih
  | name h parts _ ih =>
    rw [List.append_assoc]
    exact .name h (parts.append hparts) ih

theorem Spells.of_eq (h : Spells cs ts) (heq : ts = us) : Spells cs us := heq ▸ h

/-- A text that does not end in a name can be followed by any text. -/
theorem Spells.append_of_ended (hcs : Spells cs ts) (hlast : Ended cs) (hds : Spells ds us) :
    Spells (cs ++ ds) (ts ++ us) := by
  have htail {cs : List Char} {c : Char} (h : Ended (c :: cs)) : Ended cs := by
    intro d hd
    exact h d (by rw [List.getLast?_cons, hd]; rfl)
  induction hcs with
  | nil => exact hds
  | blank h _ ih => exact .blank h (ih (htail hlast))
  | start _ ih => exact .start (ih (htail hlast))
  | stop _ ih => exact .stop (ih (htail hlast))
  | @name a cs _ h parts _ ih =>
    cases cs with
    | nil =>
      -- The text ends in the name.
      rw [List.append_nil] at hlast
      have hend := hlast _ (List.getLast?_eq_some_getLast h.ne_nil)
      exact absurd (h.isNameChar _ (List.getLast_mem h.ne_nil)) (Bool.eq_false_iff.1 hend)
    | cons c cs =>
      rw [List.append_assoc]
      refine .name h (parts_cons.2 (parts_cons.1 parts)) (ih fun d hd => hlast d ?_)
      rw [List.getLast?_append, hd]
      rfl

theorem spells_name {a : String} (h : IsName a) : Spells a.toList [.name a] := by
  have hname := Spells.name h parts_nil .nil
  rwa [List.append_nil] at hname

/-- The name of some letters, if there are any. -/
def nameOf (letters : List Char) : List Token := if letters = [] then [] else [.name (.ofList letters)]

/-- The tokens of a text without comments that goes on with some letters. -/
def tokensFrom (letters : List Char) : List Char → List Token
  | [] => nameOf letters
  | c :: cs =>
    if isNameChar c then tokensFrom (letters ++ [c]) cs
    else nameOf letters ++ (if c = '(' then [.start] else if c = ')' then [.stop] else []) ++ tokensFrom [] cs

/-- The character can be read as it is and does not begin a comment. -/
def isWritten (c : Char) : Bool := (isNameChar c && Text.IsLow c) || isSeparator c || c = '(' || c = ')'

/-- The tokens of a text can be computed. -/
theorem spells_tokensFrom (letters : List Char) (hletters : ∀ c ∈ letters, isNameChar c = true ∧ Text.IsLow c)
    (h : ∀ c ∈ cs, isWritten c = true) : Spells (letters ++ cs) (tokensFrom letters cs) := by
  have hname {letters cs : List Char} {ts : List Token} (hletters : ∀ c ∈ letters, isNameChar c = true ∧ Text.IsLow c)
      (hparts : Parts cs) (hcs : Spells cs ts) : Spells (letters ++ cs) (nameOf letters ++ ts) := by
    unfold nameOf
    split
    · rename_i hnil
      rwa [hnil]
    · rename_i hne
      have hisName : IsName (.ofList letters) := by
        constructor <;> rw [String.toList_ofList]
        · exact hne
        · exact fun c hc => (hletters c hc).1
        · exact fun c hc => (hletters c hc).2
      have hspells := Spells.name hisName hparts hcs
      rwa [String.toList_ofList] at hspells
  induction cs generalizing letters with
  | nil =>
    have hspells := hname hletters parts_nil .nil
    rwa [List.append_nil (nameOf letters)] at hspells
  | cons c cs ih =>
    obtain ⟨hc, hcs⟩ := List.forall_mem_cons.1 h
    unfold tokensFrom
    split
    · rename_i hchar
      have hlow : Text.IsLow c := by
        have hnot : isSeparator c = false ∧ c ≠ '(' ∧ c ≠ ')' := by
          refine ⟨Bool.eq_false_iff.2 fun hseparator => ?_, ?_, ?_⟩
          · simp only [isSeparator, Bool.or_eq_true, decide_eq_true_eq] at hseparator
            rcases hseparator with ((rfl | rfl) | rfl) | rfl <;> exact absurd hchar (by decide)
          · rintro rfl
            exact absurd hchar (by decide)
          · rintro rfl
            exact absurd hchar (by decide)
        simpa [isWritten, hchar, hnot] using hc
      have hspells := ih (letters ++ [c])
        (List.forall_mem_append.2 ⟨hletters, List.forall_mem_singleton.2 ⟨hchar, hlow⟩⟩) hcs
      rwa [List.append_assoc] at hspells
    · rename_i hchar
      rw [List.append_assoc]
      refine hname hletters (parts_cons.2 (Bool.eq_false_iff.2 hchar)) ?_
      have hrest := ih [] (by simp) hcs
      split
      · rename_i hstart
        exact hstart ▸ .start hrest
      · split
        · rename_i hstop
          exact hstop ▸ .stop hrest
        · rename_i hstart hstop
          refine .blank ?_ hrest
          simpa [isWritten, hchar, hstart, hstop] using hc

/-- The tokens of a fixed text. -/
theorem spells_fixed (h : cs.all isWritten = true ∧ tokensFrom [] cs = ts) : Spells cs ts :=
  h.2 ▸ spells_tokensFrom [] (by simp) (List.all_eq_true.1 h.1)

/-! ## Reading tokens -/

/-- Reads several characters. -/
def Reader.feed (r : Reader) (cs : List Char) : Option Reader := cs.foldlM Reader.step r

/-- Reads a token. -/
def Reader.take (r : Reader) : Token → Option Reader
  | .start => some { r with current := [], outer := r.current :: r.outer }
  | .stop => match r.outer with
    | [] => none
    | around :: outer => some { r with current := .list r.current.reverse :: around, outer }
  | .name a => some { r with current := .atom a :: r.current }

theorem Reader.feed_cons (r : Reader) (c : Char) (cs : List Char) :
    r.feed (c :: cs) = (r.step c).bind fun r => r.feed cs := rfl

theorem Reader.feed_append (r : Reader) (cs ds : List Char) :
    r.feed (cs ++ ds) = (r.feed cs).bind fun r => r.feed ds := List.foldlM_append

/-- Characters of a name go on the name that is being read. -/
theorem Reader.feed_letters {r : Reader} {letters : List Char} (hmode : r.mode = .name letters)
    (h : ∀ c ∈ cs, isNameChar c = true) : r.feed cs = some { r with mode := .name (cs.reverse ++ letters) } := by
  induction cs generalizing r letters with
  | nil =>
    rw [List.reverse_nil, List.nil_append, ← hmode]
    rfl
  | cons c cs ih =>
    obtain ⟨hc, hcs⟩ := List.forall_mem_cons.1 h
    have hstep : r.step c = some { r with mode := .name (c :: letters) } := by
      rw [step, hmode]
      exact if_pos hc
    rw [feed_cons, hstep, Option.bind_some, ih rfl hcs]
    simp

theorem Reader.step_of_isNameChar {r : Reader} {c : Char} (hmode : r.mode = .between) (hc : isNameChar c = true) :
    r.step c = some { r with mode := .name [c] } := by
  have hnot {d : Char} (hd : isNameChar d = false) : c ≠ d := by
    rintro rfl
    exact absurd hc (Bool.eq_false_iff.1 hd)
  have hseparator : isSeparator c = false := by
    simp [isSeparator, hnot (d := ' ') rfl, hnot (d := '\t') rfl, hnot (d := '\r') rfl, hnot (d := '\n') rfl]
  rw [step, hmode]
  dsimp only
  rw [stepBetween, if_neg (Bool.eq_false_iff.1 hseparator), if_neg (hnot rfl), if_neg (hnot rfl), if_neg (hnot rfl),
    if_pos hc]

/-- The reader that has read a name is inside of it. -/
theorem Reader.feed_name {r : Reader} (hmode : r.mode = .between) (hne : cs ≠ [])
    (h : ∀ c ∈ cs, isNameChar c = true) : r.feed cs = some { r with mode := .name cs.reverse } := by
  obtain ⟨c, rest, rfl⟩ := List.exists_cons_of_ne_nil hne
  obtain ⟨hc, hrest⟩ := List.forall_mem_cons.1 h
  rw [feed_cons, step_of_isNameChar hmode hc, Option.bind_some, feed_letters rfl hrest, List.reverse_cons]

theorem Reader.endName_name {r : Reader} (hmode : r.mode = .between) (cs : List Char) :
    endName { r with mode := .name cs.reverse } =
      { r with current := .atom (String.ofList (Text.lower cs)) :: r.current } := by
  rw [endName]
  dsimp only
  rw [List.reverse_reverse, hmode]

theorem Reader.endName_between {r : Reader} (hmode : r.mode = .between) : r.endName = r := by rw [endName, hmode]

/-- A character that is not one of a name finds the name before it ended. -/
theorem Reader.step_endName {r : Reader} (hend : r.endName.mode = .between) {c : Char} (hc : isNameChar c = false) :
    r.step c = r.endName.step c := by
  cases hmode : r.mode with
  | name letters =>
    rw [step, hmode, step, hend]
    exact if_neg (Bool.eq_false_iff.1 hc)
  | between => rw [endName_between hmode]
  | comment =>
    rw [endName, hmode] at hend
    cases hmode.symm.trans hend

/-- A text that does not begin with letters finds the name before it ended. -/
theorem Reader.feed_endName {r : Reader} (hend : r.endName.mode = .between) (hparts : Parts cs) :
    (r.feed cs).map endName = (r.endName.feed cs).map endName := by
  cases cs with
  | nil => exact congrArg some (endName_between hend).symm
  | cons c cs => rw [feed_cons, step_endName hend (parts_cons.1 hparts), ← feed_cons]

/-- Outside names and comments, a parenthesis is read as a token. -/
theorem Reader.step_parenthesis {r : Reader} (hmode : r.mode = .between) :
    r.step '(' = r.take .start ∧ r.step ')' = r.take .stop := by
  constructor <;> rw [step, hmode] <;> rfl

/-- A token does not begin a name or a comment. -/
theorem Reader.mode_take {r r' : Reader} {t : Token} (h : r.take t = some r') : r'.mode = r.mode := by
  unfold take at h
  split at h
  · obtain rfl := Option.some.inj h
    rfl
  · split at h
    · cases h
    · obtain rfl := Option.some.inj h
      rfl
  · obtain rfl := Option.some.inj h
    rfl

/-- **What the reader makes of a text depends on its tokens only.** -/
theorem feed_of_spells (h : Spells cs ts) {r : Reader} (hmode : r.mode = .between) :
    (r.feed cs).map Reader.endName = ts.foldlM Reader.take r := by
  have htake {r : Reader} (hmode : r.mode = .between) {t : Token} {cs : List Char} {ts : List Token}
      (ih : ∀ {r : Reader}, r.mode = .between → (r.feed cs).map Reader.endName = ts.foldlM Reader.take r) :
      ((r.take t).bind fun r => r.feed cs).map Reader.endName = (t :: ts).foldlM Reader.take r := by
    rw [List.foldlM_cons]
    cases hr : r.take t with
    | none => rfl
    | some r' => exact ih ((Reader.mode_take hr).trans hmode)
  induction h generalizing r with
  | nil => exact congrArg some (Reader.endName_between hmode)
  | @blank c _ _ h _ ih =>
    have hstep : r.step c = some r := by
      rw [Reader.step, hmode]
      exact if_pos h
    rw [Reader.feed_cons, hstep]
    exact ih hmode
  | start _ ih =>
    rw [Reader.feed_cons, (Reader.step_parenthesis hmode).1]
    exact htake hmode ih
  | stop _ ih =>
    rw [Reader.feed_cons, (Reader.step_parenthesis hmode).2]
    exact htake hmode ih
  | @name a cs ts h parts _ ih =>
    have hend : Reader.endName { r with mode := .name a.toList.reverse } =
        { r with current := .atom a :: r.current } := by
      rw [Reader.endName_name hmode, h.lower_eq, String.ofList_toList]
    rw [Reader.feed_append, Reader.feed_name hmode h.ne_nil h.isNameChar, Option.bind_some,
      Reader.feed_endName (by rw [hend]; exact hmode) parts, hend]
    exact ih hmode

theorem run_of_feed {r r' : Reader} {before : List Char} (h : r.feed cs = some r') (houter : r'.endName.outer = []) :
    r.run before cs = .ok r'.endName.current.reverse := by
  induction cs generalizing r before with
  | nil =>
    obtain rfl := Option.some.inj h
    unfold Reader.run
    dsimp only
    rw [houter]
    rfl
  | cons c cs ih =>
    rw [Reader.feed_cons] at h
    obtain ⟨next, hstep, h⟩ := Option.bind_eq_some_iff.1 h
    unfold Reader.run
    rw [hstep]
    exact ih h

/-! ## Expressions -/

mutual

/-- The tokens of an expression. -/
def tokens : Expr → List Token
  | .atom a => [.name a]
  | .list xs => .start :: (tokensAll xs ++ [.stop])

/-- The tokens of several expressions in turn. -/
def tokensAll : List Expr → List Token
  | [] => []
  | x :: xs => tokens x ++ tokensAll xs

end

@[simp] theorem tokensAll_append (xs ys : List Expr) : tokensAll (xs ++ ys) = tokensAll xs ++ tokensAll ys := by
  induction xs with
  | nil => rfl
  | cons x xs ih => rw [List.cons_append, tokensAll, ih, tokensAll, List.append_assoc]

mutual

/-- The reader makes an expression of its tokens. -/
theorem foldlM_take_tokens (r : Reader) : ∀ x : Expr,
    x.tokens.foldlM Reader.take r = some { r with current := x :: r.current }
  | .atom a => rfl
  | .list xs => by
    have hinner := foldlM_take_tokensAll { r with current := [], outer := r.current :: r.outer } xs
    rw [tokens, List.foldlM_cons]
    change (tokensAll xs ++ [Token.stop]).foldlM Reader.take { r with current := [], outer := r.current :: r.outer } = _
    rw [List.foldlM_append, hinner]
    simp [Reader.take]

theorem foldlM_take_tokensAll (r : Reader) : ∀ xs : List Expr,
    (tokensAll xs).foldlM Reader.take r = some { r with current := xs.reverse ++ r.current }
  | [] => rfl
  | x :: xs => by
    rw [tokensAll, List.foldlM_append, foldlM_take_tokens r x]
    refine (foldlM_take_tokensAll { r with current := x :: r.current } xs).trans ?_
    simp

end

mutual

/-- The text of an expression has the tokens of the expression. -/
theorem spells_display : ∀ x : Expr, x.Legible → Spells x.display.toList x.tokens
  | .atom a, h => spells_name (legible_atom.1 h)
  | .list [], _ => .start (.stop .nil)
  | .list (x :: xs), h => by
    obtain ⟨hx, hxs⟩ := List.forall_mem_cons.1 (legible_list.1 h)
    obtain ⟨hparts, hrest⟩ := spells_displayRest xs hxs
    have htext : (display (.list (x :: xs))).toList = '(' :: (x.display.toList ++ (displayRest xs).toList) := by
      simp [display]
    rw [htext, tokens, tokensAll, List.append_assoc]
    exact .start ((spells_display x hx).append hparts hrest)

theorem spells_displayRest : ∀ xs : List Expr, (∀ x ∈ xs, x.Legible) →
    Parts (displayRest xs).toList ∧ Spells (displayRest xs).toList (tokensAll xs ++ [.stop])
  | [], _ => ⟨parts_cons.2 rfl, .stop .nil⟩
  | x :: xs, h => by
    obtain ⟨hx, hxs⟩ := List.forall_mem_cons.1 h
    obtain ⟨hparts, hrest⟩ := spells_displayRest xs hxs
    have htext : (displayRest (x :: xs)).toList = ' ' :: (x.display.toList ++ (displayRest xs).toList) := by
      simp [displayRest]
    rw [htext, tokensAll, List.append_assoc]
    exact ⟨parts_cons.2 rfl, .blank rfl ((spells_display x hx).append hparts hrest)⟩

end

/-- **An expression is read back** from a text with its tokens, unless its lists are nested too deeply. -/
theorem readOne_of_spells (h : Spells cs x.tokens) (hdepth : tooDeepLine? cs = none) : readOne cs = .ok x := by
  have hread := (feed_of_spells h (r := {}) rfl).trans (foldlM_take_tokens {} x)
  obtain ⟨r, hr, hend⟩ := Option.map_eq_some_iff.1 hread
  refine readOne_eq_ok.2 ⟨hdepth, ?_⟩
  rw [run_of_feed hr (by rw [hend]), hend]
  rfl

end Waymark.Expr
