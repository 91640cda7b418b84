import Mathlib.Tactic
import Waymark.Proofs.Expr.Nesting

/-!
# The grammar of expressions

A text is read just if it is a layout of expressions whose parentheses, those of comments left out, are not nested too
deeply. What is read are these expressions.

* `Layout`, `Document`: the grammar, with comments;
* `Closes`, `Completes`: what the reader accepts from where it is;
* `document_of_run`, `run_of_document`: the reader and the grammar;
* `uncommented`, `level`, `tooDeepLine?_eq_none`: the scan and the parentheses outside comments;
* `readAll_exact`: the texts that are read, and the texts of expressions.
-/

namespace Waymark.Expr

variable {cs ds : List Char} {xs ys : List Expr} {c : Char}

/-! ## The grammar -/

/-- A character of a name is no white space, no parenthesis and no mark of a comment. -/
def IsLetter (c : Char) : Prop := Text.isBlank c = false ∧ c ∉ ['(', ')', ';']

/-- The text is a layout of the expressions: a list is laid out as its items in parentheses, a name as letters of
either case between other characters, and between these stand blanks and comments. -/
inductive Layout : List Char → List Expr → Prop
  | nil : Layout [] []
  | blank {c : Char} {cs : List Char} {xs : List Expr} (h : c ∈ [' ', '\t', '\r', '\n']) (rest : Layout cs xs) :
      Layout (c :: cs) xs
  | comment {text cs : List Char} {xs : List Expr} (h : '\n' ∉ text) (rest : Layout cs xs) :
      Layout (';' :: (text ++ '\n' :: cs)) xs
  | name {letters cs : List Char} {xs : List Expr} (hne : letters ≠ []) (h : ∀ c ∈ letters, IsLetter c)
      (maximal : ∀ c ∈ cs.head?, ¬ IsLetter c) (rest : Layout cs xs) :
      Layout (letters ++ cs) (.atom (String.ofList (Text.lower letters)) :: xs)
  | list {inner cs : List Char} {items xs : List Expr} (h : Layout inner items) (rest : Layout cs xs) :
      Layout ('(' :: (inner ++ ')' :: cs)) (.list items :: xs)

/-- The text is a layout of the expressions, which a comment without an end may follow. -/
inductive Document : List Char → List Expr → Prop
  | ended {cs : List Char} {xs : List Expr} (h : Layout cs xs) : Document cs xs
  | comment {cs text : List Char} {xs : List Expr} (h : Layout cs xs) (line : '\n' ∉ text) :
      Document (cs ++ ';' :: text) xs

theorem isLetter_iff : IsLetter c ↔ isNameChar c = true := by
  simp [IsLetter, isNameChar, and_assoc]

theorem isLetter_of_all (h : cs.all isNameChar = true) : ∀ c ∈ cs, IsLetter c := fun c hc =>
  isLetter_iff.2 (List.all_eq_true.1 h c hc)

theorem isSeparator_iff : isSeparator c = true ↔ c ∈ [' ', '\t', '\r', '\n'] := by
  simp [isSeparator, or_assoc]

theorem parts_iff : Parts cs ↔ ∀ c ∈ cs.head?, ¬ IsLetter c := by
  simp only [Parts, isLetter_iff, Bool.not_eq_true]

theorem Parts.of_prefix (h : Parts cs) (hbegin : ds <+: cs) : Parts ds := by
  obtain ⟨rest, rfl⟩ := hbegin
  cases ds with
  | nil => exact parts_nil
  | cons d ds => exact parts_cons.2 (parts_cons.1 h)

/-! ## What is read is laid out -/

/-- The text ends the open lists and goes on to the end of a text, so that the expressions are all that is read. The
innermost list has `current` as its last items so far. -/
inductive Closes (xs : List Expr) : List (List Expr) → List Expr → List Char → Prop
  | done {current ys : List Expr} {cs : List Char} (h : Document cs ys) (heq : current.reverse ++ ys = xs) :
      Closes xs [] current cs
  | close {around : List Expr} {outer : List (List Expr)} {current ys : List Expr} {inner cs : List Char}
      (h : Layout inner ys) (rest : Closes xs outer (.list (current.reverse ++ ys) :: around) cs) :
      Closes xs (around :: outer) current (inner ++ ')' :: cs)

variable {outer : List (List Expr)} {current : List Expr} {r r' : Reader}

/-- What can be put before every layout with which the text begins, can be put before the text. -/
theorem Closes.prepend (before : List Char) (ys : List Expr)
    (hlayout : ∀ ds zs, ds <+: cs → Layout ds zs → Layout (before ++ ds) (ys ++ zs))
    (h : Closes xs outer (ys.reverse ++ current) cs) : Closes xs outer current (before ++ cs) := by
  generalize hcurrent : ys.reverse ++ current = read at h
  cases h with
  | @done _ zs _ h heq =>
    subst hcurrent
    refine @Closes.done _ _ (ys ++ zs) _ ?_ ?_
    · cases h with
      | ended h => exact .ended (hlayout _ _ List.prefix_rfl h)
      | comment h line =>
        rw [← List.append_assoc]
        exact .comment (hlayout _ _ (List.prefix_append _ _) h) line
    · rw [← heq]
      simp
  | @close around outer _ zs inner cs h rest =>
    subst hcurrent
    rw [← List.append_assoc]
    refine .close (hlayout _ _ (List.prefix_append _ _) h) ?_
    simpa using rest

/-- The text ends what the reader is inside of, and then the open lists. -/
inductive Completes (xs : List Expr) : Reader → List Char → Prop
  | between {current : List Expr} {outer : List (List Expr)} {cs : List Char} (h : Closes xs outer current cs) :
      Completes xs ⟨.between, current, outer⟩ cs
  | comment {current : List Expr} {outer : List (List Expr)} {cs : List Char} (text : List Char) (line : '\n' ∉ text)
      (h : Closes xs outer current cs) : Completes xs ⟨.comment, current, outer⟩ (text ++ '\n' :: cs)
  | lastComment {current : List Expr} {text : List Char} (line : '\n' ∉ text) (heq : current.reverse = xs) :
      Completes xs ⟨.comment, current, []⟩ text
  | name {letters cs : List Char} {current : List Expr} {outer : List (List Expr)} (more : List Char)
      (hmore : ∀ c ∈ more, isNameChar c = true) (maximal : Parts cs)
      (h : Closes xs outer (.atom (String.ofList (Text.lower (letters.reverse ++ more))) :: current) cs) :
      Completes xs ⟨.name letters, current, outer⟩ (more ++ cs)

namespace Completes

theorem closes (h : Completes xs r cs) (hmode : r.mode = .between) : Closes xs r.outer r.current cs := by
  cases h with
  | between h => exact h
  | comment => cases hmode
  | lastComment => cases hmode
  | name => cases hmode

/-- At the end of a text no list is open. -/
theorem of_end (hclosed : r.endName.outer = []) (hread : r.endName.current.reverse = xs) : Completes xs r [] := by
  obtain ⟨mode, current, outer⟩ := r
  cases mode with
  | between =>
    obtain rfl : outer = [] := hclosed
    exact .between (.done (.ended .nil) (by simpa [Reader.endName] using hread))
  | comment =>
    obtain rfl : outer = [] := hclosed
    exact .lastComment List.not_mem_nil hread
  | name letters =>
    obtain rfl : outer = [] := hclosed
    refine .name [] (by simp) parts_nil (.done (.ended .nil) ?_)
    simpa [Reader.endName] using hread

/-- A character read outside names and comments. -/
theorem of_stepBetween (hmode : r.mode = .between) (hstep : r.stepBetween c = some r') (h : Completes xs r' cs) :
    Closes xs r.outer r.current (c :: cs) := by
  obtain ⟨mode, current, outer'⟩ := r
  obtain rfl : mode = .between := hmode
  unfold Reader.stepBetween at hstep
  split at hstep
  · rename_i hc
    obtain rfl := Option.some.inj hstep
    exact (h.closes rfl).prepend [c] [] fun _ _ _ hds => .blank (isSeparator_iff.1 hc) hds
  split at hstep
  · rename_i hc
    subst hc
    obtain rfl := Option.some.inj hstep
    cases h with
    | @comment _ _ cs text line h =>
      have hbefore := h.prepend (';' :: (text ++ ['\n'])) [] fun ds zs _ hds => by
        simpa using Layout.comment line hds
      simpa using hbefore
    | lastComment line heq =>
      have hcomment : Document ([] ++ ';' :: cs) [] := .comment .nil line
      exact .done hcomment (by rwa [List.append_nil])
  split at hstep
  · rename_i hc
    subst hc
    obtain rfl := Option.some.inj hstep
    cases h.closes rfl with
    | @close _ _ _ items inner cs hinner rest =>
      -- The list that begins ends before the rest of the text.
      have hbefore := rest.prepend ('(' :: (inner ++ [')'])) [.list items] fun ds zs _ hds => by
        simpa using Layout.list hinner hds
      simpa using hbefore
  split at hstep
  · rename_i hc
    subst hc
    split at hstep
    · cases hstep
    · rename_i around outer houter
      obtain rfl := Option.some.inj hstep
      obtain rfl : outer' = around :: outer := houter
      exact .close .nil (by simpa using h.closes rfl)
  split at hstep
  · rename_i hc
    obtain rfl := Option.some.inj hstep
    cases h with
    | @name _ cs _ _ more hmore maximal h =>
      have hletters : ∀ d ∈ c :: more, IsLetter d :=
        List.forall_mem_cons.2 ⟨isLetter_iff.2 hc, fun d hd => isLetter_iff.2 (hmore d hd)⟩
      exact h.prepend (c :: more) [.atom _] fun ds zs hbegin hds =>
        .name (List.cons_ne_nil _ _) hletters (parts_iff.1 (maximal.of_prefix hbegin)) hds
  · cases hstep

/-- **What one character is read as.** -/
theorem of_step (hstep : r.step c = some r') (h : Completes xs r' cs) : Completes xs r (c :: cs) := by
  obtain ⟨mode, current, outer⟩ := r
  cases mode with
  | between => exact .between (of_stepBetween (r := ⟨.between, current, outer⟩) rfl hstep h)
  | comment =>
    obtain rfl := Option.some.inj hstep
    by_cases hc : c = '\n'
    · rw [if_pos hc] at h
      subst hc
      exact .comment [] List.not_mem_nil (h.closes rfl)
    · rw [if_neg hc] at h
      have hline {text : List Char} (line : '\n' ∉ text) : '\n' ∉ c :: text :=
        mt List.mem_cons.1 (not_or.2 ⟨Ne.symm hc, line⟩)
      cases h with
      | comment _ line h => exact .comment _ (hline line) h
      | lastComment line heq => exact .lastComment (hline line) heq
  | name letters =>
    unfold Reader.step at hstep
    dsimp only at hstep
    split at hstep
    · rename_i hc
      obtain rfl := Option.some.inj hstep
      cases h with
      | @name _ cs _ _ more hmore maximal h =>
        refine .name (c :: more) (List.forall_mem_cons.2 ⟨hc, hmore⟩) maximal ?_
        simpa using h
    · rename_i hc
      have hclosed := of_stepBetween rfl hstep h
      refine .name [] (by simp) (parts_cons.2 (Bool.eq_false_iff.2 hc)) ?_
      simpa [Reader.endName] using hclosed

end Completes

theorem completes_of_run {before : List Char} (h : r.run before cs = .ok xs) : Completes xs r cs := by
  induction cs generalizing r before with
  | nil =>
    unfold Reader.run at h
    dsimp only at h
    split at h
    · rename_i hclosed
      exact .of_end (List.isEmpty_iff.1 hclosed) (Except.ok.inj h)
    · cases h
  | cons c cs ih =>
    unfold Reader.run at h
    split at h
    · rename_i r' hstep
      exact .of_step hstep (ih h)
    · cases h

/-- **What is read is laid out in the text.** -/
theorem document_of_run {before : List Char} (h : Reader.run {} before cs = .ok xs) : Document cs xs := by
  cases (completes_of_run h).closes rfl with
  | done h heq => exact heq ▸ h

/-! ## What is laid out is read -/

/-- The reader passes over a comment. -/
theorem Reader.feed_comment {text : List Char} (hmode : r.mode = .comment) (line : '\n' ∉ text) :
    r.feed text = some r := by
  induction text with
  | nil => rfl
  | cons c text ih =>
    obtain ⟨hc, hline⟩ := not_or.1 (mt List.mem_cons.2 line)
    have hstep : r.step c = some r := by
      rw [step, hmode]
      exact congrArg some (if_neg (Ne.symm hc))
    rw [feed_cons, hstep]
    exact ih hline

theorem Reader.step_semicolon (hmode : r.mode = .between) : r.step ';' = some { r with mode := .comment } := by
  rw [step, hmode]
  rfl

/-- **The reader takes up what is laid out.** It may still be inside of the last name. -/
theorem Layout.feed (h : Layout cs ys) (hmode : r.mode = .between) :
    (r.feed cs).map Reader.endName = some { r with current := ys.reverse ++ r.current } := by
  induction h generalizing r with
  | nil => exact congrArg some (Reader.endName_between hmode)
  | @blank c cs xs h _ ih =>
    have hstep : r.step c = some r := by
      rw [Reader.step, hmode]
      exact if_pos (isSeparator_iff.2 h)
    rw [Reader.feed_cons, hstep]
    exact ih hmode
  | @comment text cs xs line _ ih =>
    have hstop : Reader.step { r with mode := .comment } '\n' = some r := congrArg some (by rw [← hmode]; rfl)
    rw [Reader.feed_cons, Reader.step_semicolon hmode, Option.bind_some, Reader.feed_append,
      Reader.feed_comment rfl line, Option.bind_some, Reader.feed_cons, hstop]
    exact ih hmode
  | @name letters cs xs hne h maximal _ ih =>
    have hend := Reader.endName_name hmode letters
    have hletters : ∀ c ∈ letters, isNameChar c = true := fun c hc => isLetter_iff.1 (h c hc)
    rw [Reader.feed_append, Reader.feed_name hmode hne hletters, Option.bind_some,
      Reader.feed_endName (by rw [hend]; exact hmode) (parts_iff.2 maximal), hend]
    have hrest := ih (r := { r with current := .atom (String.ofList (Text.lower letters)) :: r.current }) hmode
    simpa using hrest
  | @list inner cs items xs _ _ ihInner ih =>
    obtain ⟨r', hr', hend⟩ := Option.map_eq_some_iff.1
      (ihInner (r := { r with current := [], outer := r.current :: r.outer }) hmode)
    have hmode' : r'.endName.mode = .between := hend ▸ hmode
    have hstop : r'.endName.step ')' = some { r with current := .list items :: r.current } := by
      rw [(Reader.step_parenthesis hmode').2, hend]
      simp [Reader.take]
    rw [Reader.feed_cons, (Reader.step_parenthesis hmode).1, Reader.take, Option.bind_some, Reader.feed_append, hr',
      Option.bind_some, Reader.feed_endName hmode' (parts_cons.2 rfl), Reader.feed_cons, hstop, Option.bind_some]
    have hrest := ih (r := { r with current := .list items :: r.current }) hmode
    simpa using hrest

/-- **What is laid out in the text is read.** -/
theorem run_of_document {before : List Char} (h : Document cs xs) : Reader.run {} before cs = .ok xs := by
  have hfeed : ∃ r, Reader.feed {} cs = some r ∧ r.endName.outer = [] ∧ r.endName.current = xs.reverse := by
    cases h with
    | ended h =>
      obtain ⟨r, hr, hend⟩ := Option.map_eq_some_iff.1 (h.feed (r := {}) rfl)
      exact ⟨r, hr, by rw [hend], by rw [hend, List.append_nil]⟩
    | @comment cs text _ h line =>
      obtain ⟨r, hr, hend⟩ := Option.map_eq_some_iff.1 (h.feed (r := {}) rfl)
      have hmode : r.endName.mode = .between := by rw [hend]
      refine ⟨{ r.endName with mode := .comment }, ?_, by rw [hend]; rfl, by rw [hend]; exact List.append_nil _⟩
      rw [Reader.feed_append, hr, Option.bind_some, Reader.feed_cons, Reader.step_endName hmode rfl,
        Reader.step_semicolon hmode]
      exact Reader.feed_comment rfl line
  obtain ⟨r, hr, houter, hcurrent⟩ := hfeed
  rw [run_of_feed hr houter, hcurrent, List.reverse_reverse]

/-! ## Parentheses outside comments -/

/-- The text up to the mark of a comment in each of its lines. -/
def uncommented (cs : List Char) : List Char := (cs.splitOn '\n').flatMap (·.takeWhile (· ≠ ';'))

/-- The number of open lists after a character, when `n` are open before it. It is never below zero. -/
def level (n : Nat) (c : Char) : Nat := if c = '(' then n + 1 else if c = ')' then n - 1 else n

/-- What is left of a text in which a comment may have begun. -/
def uncommentedFrom (inComment : Bool) (cs : List Char) : List Char :=
  let lines := cs.splitOn '\n'
  (if inComment then lines.tail else lines).flatMap (·.takeWhile (· ≠ ';'))

theorem uncommentedFrom_newline (inComment : Bool) (cs : List Char) :
    uncommentedFrom inComment ('\n' :: cs) = uncommentedFrom false cs := by
  cases inComment <;> simp [uncommentedFrom, List.splitOn, List.splitOnP_cons_eq_if_modifyHead]

theorem uncommentedFrom_cons (hc : c ≠ '\n') (cs : List Char) :
    uncommentedFrom true (c :: cs) = uncommentedFrom true cs ∧ uncommentedFrom false (c :: cs) =
      if c = ';' then uncommentedFrom true cs else c :: uncommentedFrom false cs := by
  obtain ⟨w, ws, heq⟩ := List.exists_cons_of_ne_nil (List.splitOnP_ne_nil (· == '\n') cs)
  have hsplit : (c :: cs).splitOn '\n' = (c :: w) :: ws := by
    rw [List.splitOn, List.splitOnP_cons_eq_if_modifyHead, if_neg (by simpa using hc), heq]
    rfl
  have heq : cs.splitOn '\n' = w :: ws := heq
  simp only [uncommentedFrom, hsplit, heq]
  refine ⟨rfl, ?_⟩
  by_cases hmark : c = ';' <;> simp [hmark]

/-- Outside comments a character is counted, unless one list too many would be open after it. -/
theorem DepthScan.step_eq {depth lineNumber : Nat} (hdepth : depth ≤ maxDepth) (hline : c ≠ '\n') (hmark : c ≠ ';') :
    DepthScan.step ⟨depth, false, lineNumber⟩ c =
      if level depth c > maxDepth then none else some ⟨level depth c, false, lineNumber⟩ := by
  unfold step level
  rw [if_neg hline, if_neg Bool.false_ne_true, if_neg hmark]
  split
  · rfl
  split
  · exact (if_neg (not_lt.2 ((Nat.sub_le _ _).trans hdepth))).symm
  · exact (if_neg (not_lt.2 hdepth)).symm

/-- **The scan counts the parentheses outside comments.** -/
theorem DepthScan.tooDeepLine?_eq_none {depth lineNumber : Nat} {inComment : Bool} (hdepth : depth ≤ maxDepth) :
    DepthScan.tooDeepLine? ⟨depth, inComment, lineNumber⟩ cs = none ↔
      ∀ n ∈ (uncommentedFrom inComment cs).scanl level depth, n ≤ maxDepth := by
  induction cs generalizing depth inComment lineNumber with
  | nil =>
    have hnil : uncommentedFrom inComment [] = [] := by cases inComment <;> rfl
    simpa [tooDeepLine?, hnil] using hdepth
  | cons c cs ih =>
    unfold tooDeepLine?
    by_cases hline : c = '\n'
    · rw [step, if_pos hline, hline, uncommentedFrom_newline]
      exact ih hdepth
    obtain ⟨htrue, hfalse⟩ := uncommentedFrom_cons hline cs
    cases inComment with
    | true =>
      rw [step, if_neg hline, if_pos rfl, htrue]
      exact ih hdepth
    | false =>
      rw [hfalse]
      by_cases hmark : c = ';'
      · rw [step, if_neg hline, if_neg Bool.false_ne_true, if_pos hmark, if_pos hmark]
        exact ih hdepth
      rw [step_eq hdepth hline hmark, if_neg hmark, List.scanl_cons, List.forall_mem_cons, and_iff_right hdepth]
      by_cases hroom : level depth c > maxDepth
      · rw [if_pos hroom]
        refine iff_of_false (fun h => by cases h) fun h => not_le.2 hroom (h _ ?_)
        cases uncommentedFrom false cs <;> simp
      · rw [if_neg hroom]
        exact ih (not_lt.1 hroom)

/-! ## Texts that are read -/

mutual

/-- The names in an expression. -/
def atoms : Expr → List String
  | .atom a => [a]
  | .list xs => atomsAll xs

/-- The names in several expressions. -/
def atomsAll : List Expr → List String
  | [] => []
  | x :: xs => atoms x ++ atomsAll xs

end

mutual

theorem legible_of_atoms : ∀ x : Expr, (∀ a ∈ x.atoms, IsName a) → x.Legible
  | .atom a, h => .atom (h a List.mem_cons_self)
  | .list xs, h => .list (legible_of_atomsAll xs h)

theorem legible_of_atomsAll : ∀ xs : List Expr, (∀ a ∈ atomsAll xs, IsName a) → ∀ x ∈ xs, x.Legible
  | [], _ => nofun
  | x :: xs, h => by
    rw [atomsAll, List.forall_mem_append] at h
    exact List.forall_mem_cons.2 ⟨legible_of_atoms x h.1, legible_of_atomsAll xs h.2⟩

end

/-- **The texts that are read.** The parentheses outside comments never open more than 64 lists, and the text is a
layout of the expressions. The text of an expression is read as it, if it is nested no deeper than this and its names
are made of letters and in lower case. -/
theorem readAll_exact :
    (∀ (cs : List Char) (xs : List Expr), readAll cs = .ok xs ↔
      (∀ n ∈ (uncommented cs).scanl level 0, n ≤ 64) ∧ Document cs xs) ∧
    ∀ x : Expr, x.depth ≤ 64 →
      (∀ a ∈ x.atoms, a ≠ "" ∧ (∀ c ∈ a.toList, IsLetter c) ∧ Text.lowercase a = a) →
      readOne x.display.toList = .ok x := by
  refine ⟨fun cs xs => ?_, fun x hdepth hatoms => ?_⟩
  · have hscan : tooDeepLine? cs = none ↔ ∀ n ∈ (uncommented cs).scanl level 0, n ≤ 64 :=
      DepthScan.tooDeepLine?_eq_none (Nat.zero_le _)
    rw [← hscan, readAll]
    split
    · rename_i n hn
      exact iff_of_false (fun h => by cases h) fun h => Option.some_ne_none n (hn.symm.trans h.1)
    · rename_i hn
      rw [and_iff_right hn]
      exact ⟨document_of_run, run_of_document⟩
  · refine (readOne_eq_ok_iff (spells_display x (legible_of_atoms x fun a ha => ?_))).2 ⟨rfl, hdepth⟩
    obtain ⟨hne, hletters, hlow⟩ := hatoms a ha
    refine ⟨by simpa using hne, fun c hc => isLetter_iff.1 (hletters c hc), fun c hc => ?_⟩
    rw [← hlow, Text.lowercase, String.toList_ofList] at hc
    exact Text.isLow_of_mem_lower hc

/-- A text with a comment that opens a list, and one without an end. -/
theorem readAll_exact_commented :
    readAll "(Lid;(\n(open))\t;)".toList = .ok [.list [.atom "lid", .list [.atom "open"]]] ∧
    readOne (Expr.list [.atom "lid", .list [.atom "open"]]).display.toList =
      .ok (.list [.atom "lid", .list [.atom "open"]]) := by
  have hopen : Layout ['o', 'p', 'e', 'n'] [.atom "open"] :=
    @Layout.name ['o', 'p', 'e', 'n'] _ _ (by decide) (isLetter_of_all rfl) (parts_iff.1 parts_nil) .nil
  have hitems : Layout ['L', 'i', 'd', ';', '(', '\n', '(', 'o', 'p', 'e', 'n', ')']
      [.atom "lid", .list [.atom "open"]] :=
    @Layout.name ['L', 'i', 'd'] _ _ (by decide) (isLetter_of_all rfl) (parts_iff.1 (parts_cons.2 rfl))
      (@Layout.comment ['('] _ _ (by decide) (.list hopen .nil))
  have htext : Layout "(Lid;(\n(open))\t".toList [.list [.atom "lid", .list [.atom "open"]]] :=
    .list hitems (.blank (by decide) .nil)
  have hatoms : ∀ a ∈ ["lid", "open"], a ≠ "" ∧ (∀ c ∈ a.toList, IsLetter c) ∧ Text.lowercase a = a :=
    List.forall_mem_cons.2 ⟨⟨by decide, isLetter_of_all rfl, rfl⟩,
      List.forall_mem_singleton.2 ⟨by decide, isLetter_of_all rfl, rfl⟩⟩
  constructor
  · exact (readAll_exact.1 _ _).2 ⟨by decide, @Document.comment _ [')'] _ htext (by decide)⟩
  · exact readAll_exact.2 _ (by decide) hatoms

end Waymark.Expr
