import Mathlib.Tactic
import Waymark.Proofs.Expr.Spelling

/-!
# Nesting of lists

A text is scanned for lists that are nested too deeply before it is read. What the scan finds depends on the tokens of
the text only: a text of an expression is refused just if the expression itself is nested too deeply, and no expression
that is read is.

* `Expr.depth`: how deeply lists are nested in an expression;
* `Token.nest`, `tooDeepLine?_eq_none_iff`: the scan of the text of an expression;
* `Reader.Nests`, `depth_le_of_readOne`: the nesting of what is read.
-/

namespace Waymark.Expr

variable {cs ds : List Char} {ts : List Token} {s s' : DepthScan} {c : Char}

/-! ## Expressions -/

mutual

/-- How deeply lists are nested in an expression, the list that it is counted. -/
def depth : Expr → Nat
  | .atom _ => 0
  | .list xs => depthAll xs + 1

/-- How deeply lists are nested in several expressions. -/
def depthAll : List Expr → Nat
  | [] => 0
  | x :: xs => max (depth x) (depthAll xs)

end

@[simp] theorem depth_atom (a : String) : (Expr.atom a).depth = 0 := by rw [depth]

theorem depthAll_le {xs : List Expr} {n : Nat} : depthAll xs ≤ n ↔ ∀ x ∈ xs, x.depth ≤ n := by
  induction xs with
  | nil => simp [depthAll]
  | cons x xs ih => rw [depthAll, max_le_iff, ih, List.forall_mem_cons]

/-- A list is nested one level deeper than its items. -/
theorem depth_list_le {xs : List Expr} {n : Nat} : (Expr.list xs).depth ≤ n + 1 ↔ ∀ x ∈ xs, x.depth ≤ n := by
  rw [depth, Nat.add_le_add_iff_right, depthAll_le]

/-- Names do not add to the nesting. -/
theorem depth_le_of_mem_atoms {names : List String} (n : Nat) : ∀ x ∈ names.map Expr.atom, x.depth ≤ n :=
  List.forall_mem_map.2 fun a _ => by simp

/-! ## Tokens -/

/-- The number of open lists after a token. There is none where a list is nested too deeply. -/
def Token.nest (n : Nat) : Token → Option Nat
  | .start => if n + 1 > maxDepth then none else some (n + 1)
  | .stop => some (n - 1)
  | .name _ => some n

mutual

/-- The tokens of an expression are refused just if there is no room for it in the lists around it. -/
theorem foldlM_nest_tokens {n : Nat} (hn : n ≤ maxDepth) : ∀ x : Expr,
    x.tokens.foldlM Token.nest n = if n + x.depth ≤ maxDepth then some n else none
  | .atom a => by
    rw [depth_atom, Nat.add_zero, if_pos hn]
    rfl
  | .list xs => by
    rw [tokens, List.foldlM_cons, Token.nest, depth]
    by_cases hroom : n + 1 > maxDepth
    · rw [if_pos hroom, if_neg (by omega)]
      rfl
    · have hinner := foldlM_nest_tokensAll (n := n + 1) (by omega) xs
      rw [if_neg hroom]
      change (tokensAll xs ++ [Token.stop]).foldlM Token.nest (n + 1) = _
      rw [List.foldlM_append, hinner, Nat.add_assoc, Nat.add_comm 1]
      split
      · rfl
      · rfl

theorem foldlM_nest_tokensAll {n : Nat} (hn : n ≤ maxDepth) : ∀ xs : List Expr,
    (tokensAll xs).foldlM Token.nest n = if n + depthAll xs ≤ maxDepth then some n else none
  | [] => by
    rw [depthAll, Nat.add_zero, if_pos hn]
    rfl
  | x :: xs => by
    rw [tokensAll, List.foldlM_append, foldlM_nest_tokens hn x, depthAll]
    by_cases hx : n + x.depth ≤ maxDepth
    · rw [if_pos hx]
      refine (foldlM_nest_tokensAll hn xs).trans ?_
      refine if_congr ?_ rfl rfl
      omega
    · rw [if_neg hx, if_neg (by omega)]
      rfl

end

/-! ## The scan -/

/-- A character of a name is none that a scan looks for. -/
theorem ne_of_isNameChar (h : isNameChar c = true) : c ≠ '\n' ∧ c ≠ ';' ∧ c ≠ '(' ∧ c ≠ ')' := by
  refine ⟨?_, ?_, ?_, ?_⟩ <;> rintro rfl <;> exact absurd h (by decide)

theorem DepthScan.step_of_isNameChar (hs : s.inComment = false) (hc : isNameChar c = true) : s.step c = some s := by
  obtain ⟨hline, hcomment, hstart, hstop⟩ := ne_of_isNameChar hc
  simp [step, hs, hline, hcomment, hstart, hstop]

theorem DepthScan.step_of_isSeparator (hs : s.inComment = false) (hc : isSeparator c = true) :
    ∃ s', s.step c = some s' ∧ s'.depth = s.depth ∧ s'.inComment = false := by
  simp only [isSeparator, Bool.or_eq_true, decide_eq_true_eq] at hc
  rcases hc with ((rfl | rfl) | rfl) | rfl <;> simp [step, hs]

theorem DepthScan.tooDeepLine?_letters (hs : s.inComment = false) (h : ∀ c ∈ cs, isNameChar c = true) :
    s.tooDeepLine? (cs ++ ds) = s.tooDeepLine? ds := by
  induction cs with
  | nil => rfl
  | cons c cs ih =>
    obtain ⟨hc, hcs⟩ := List.forall_mem_cons.1 h
    rw [List.cons_append, tooDeepLine?, step_of_isNameChar hs hc]
    exact ih hcs

/-- **What a scan finds depends on the tokens of the text only.** -/
theorem DepthScan.tooDeepLine?_of_spells (h : Spells cs ts) (hs : s.inComment = false) :
    s.tooDeepLine? cs = none ↔ ts.foldlM Token.nest s.depth ≠ none := by
  induction h generalizing s with
  | nil => exact iff_of_true rfl nofun
  | @blank c _ _ h _ ih =>
    obtain ⟨s', hstep, hdepth, hs'⟩ := step_of_isSeparator hs h
    rw [tooDeepLine?, hstep, ← hdepth]
    exact ih hs'
  | start _ ih =>
    rw [tooDeepLine?, List.foldlM_cons, Token.nest]
    by_cases hroom : s.depth + 1 > maxDepth
    · have hstep : s.step '(' = none := by simp [step, hs, hroom]
      rw [hstep, if_pos hroom]
      exact iff_of_false nofun fun h => h rfl
    · have hstep : s.step '(' = some { s with depth := s.depth + 1 } := by simp [step, hs, hroom]
      rw [hstep, if_neg hroom]
      exact ih hs
  | stop _ ih =>
    have hstep : s.step ')' = some { s with depth := s.depth - 1 } := by simp [step, hs]
    rw [tooDeepLine?, hstep]
    exact ih hs
  | name h _ _ ih =>
    rw [tooDeepLine?_letters hs h.isNameChar]
    exact ih hs

/-- **A text of an expression is nested too deeply just if the expression is.** -/
theorem tooDeepLine?_eq_none_iff {x : Expr} (h : Spells cs x.tokens) : tooDeepLine? cs = none ↔ x.depth ≤ maxDepth := by
  refine (DepthScan.tooDeepLine?_of_spells h rfl).trans ?_
  rw [foldlM_nest_tokens (Nat.zero_le _), Nat.zero_add]
  split
  · rename_i hdepth
    exact iff_of_true nofun hdepth
  · rename_i hdepth
    exact iff_of_false (fun h => h rfl) hdepth

/-! ## Reading -/

/-- Each expression that has been read leaves room for the lists around it, those of the innermost list first. -/
def Room : List (List Expr) → Prop
  | [] => True
  | xs :: outer => (∀ x ∈ xs, x.depth + outer.length ≤ maxDepth) ∧ Room outer

/-- The scan and the reader are in the same lists, and the lists that have been read have room in those around them. -/
structure Reader.Nests (s : DepthScan) (r : Reader) : Prop where
  depth : s.depth = r.outer.length
  comment : s.inComment = true ↔ r.mode = .comment
  bound : r.outer.length ≤ maxDepth
  room : Room (r.current :: r.outer)

namespace Reader.Nests

variable {r r' : Reader}

theorem not_inComment (h : r.Nests s) (hmode : r.mode ≠ .comment) : s.inComment = false :=
  Bool.eq_false_iff.2 fun hs => hmode (h.comment.1 hs)

theorem endName (h : r.Nests s) : r.endName.Nests s := by
  unfold Reader.endName
  split
  · rename_i letters hmode
    have hs := h.not_inComment (by simp [hmode])
    refine ⟨h.depth, by simp [hs], h.bound, ?_, h.room.2⟩
    exact List.forall_mem_cons.2 ⟨by simpa using h.bound, h.room.1⟩
  · exact h

theorem stepBetween (h : r.Nests s) (hmode : r.mode = .between) (hstep : r.stepBetween c = some r')
    (hscan : s.step c = some s') : r'.Nests s' := by
  have hs := h.not_inComment (by simp [hmode])
  unfold Reader.stepBetween at hstep
  split at hstep
  · rename_i hc
    obtain rfl := Option.some.inj hstep
    obtain ⟨t, ht, hdepth, hcomment⟩ := DepthScan.step_of_isSeparator hs hc
    obtain rfl := Option.some.inj (ht.symm.trans hscan)
    exact ⟨hdepth.trans h.depth, by simp [hcomment, hmode], h.bound, h.room⟩
  split at hstep
  · rename_i hc
    obtain rfl := Option.some.inj hstep
    simp only [DepthScan.step, hc, hs] at hscan
    obtain rfl := Option.some.inj hscan
    exact ⟨h.depth, by simp, h.bound, h.room⟩
  split at hstep
  · rename_i hc
    obtain rfl := Option.some.inj hstep
    by_cases hroom : s.depth + 1 > maxDepth
    · simp [DepthScan.step, hc, hs, hroom] at hscan
    · have hscan' : s.step c = some { s with depth := s.depth + 1 } := by simp [DepthScan.step, hc, hs, hroom]
      obtain rfl := Option.some.inj (hscan'.symm.trans hscan)
      have hbound : r.outer.length + 1 ≤ maxDepth := h.depth ▸ not_lt.1 hroom
      exact ⟨congrArg (· + 1) h.depth, by simp [hs, hmode], hbound, by simp, h.room⟩
  split at hstep
  · rename_i hc
    split at hstep
    · cases hstep
    · rename_i around outer houter
      obtain rfl := Option.some.inj hstep
      have hscan' : s.step c = some { s with depth := s.depth - 1 } := by simp [DepthScan.step, hc, hs]
      obtain rfl := Option.some.inj (hscan'.symm.trans hscan)
      have hdepth := h.depth
      have hbound := h.bound
      obtain ⟨hcurrent, hroom⟩ := h.room
      rw [houter, List.length_cons] at hdepth hbound hcurrent
      rw [houter] at hroom
      -- The list that ends is nested one level deeper than its items, and is in one list less.
      have hlist : (Expr.list r.current.reverse).depth + outer.length ≤ maxDepth := by
        obtain ⟨n, hn⟩ := Nat.exists_eq_add_of_le' hbound
        have hitems : (Expr.list r.current.reverse).depth ≤ n + 1 :=
          depth_list_le.2 fun x hx => by have := hcurrent x (List.mem_reverse.1 hx); omega
        omega
      refine ⟨by simp [hdepth], by simp [hs, hmode], (Nat.le_succ _).trans hbound, ?_, hroom.2⟩
      exact List.forall_mem_cons.2 ⟨hlist, hroom.1⟩
  split at hstep
  · rename_i hc
    obtain rfl := Option.some.inj hstep
    obtain rfl := Option.some.inj ((DepthScan.step_of_isNameChar hs hc).symm.trans hscan)
    exact ⟨h.depth, by simp [hs], h.bound, h.room⟩
  · cases hstep

theorem step (h : r.Nests s) (hstep : r.step c = some r') (hscan : s.step c = some s') : r'.Nests s' := by
  unfold Reader.step at hstep
  split at hstep
  · rename_i hmode
    have hs : s.inComment = true := h.comment.2 hmode
    obtain rfl := Option.some.inj hstep
    split
    · rename_i hc
      simp only [DepthScan.step, hc] at hscan
      obtain rfl := Option.some.inj hscan
      exact ⟨h.depth, by simp, h.bound, h.room⟩
    · rename_i hc
      simp only [DepthScan.step, hc, hs] at hscan
      obtain rfl := Option.some.inj hscan
      exact h
  · rename_i letters hmode
    split at hstep
    · rename_i hc
      have hs := h.not_inComment (by simp [hmode])
      obtain rfl := Option.some.inj hstep
      obtain rfl := Option.some.inj ((DepthScan.step_of_isNameChar hs hc).symm.trans hscan)
      exact ⟨h.depth, by simp [hs], h.bound, h.room⟩
    · refine h.endName.stepBetween ?_ hstep hscan
      rw [Reader.endName, hmode]
  · rename_i hmode
    exact h.stepBetween hmode hstep hscan

theorem run {before : List Char} {xs : List Expr} (h : r.Nests s) (hscan : s.tooDeepLine? cs = none)
    (hrun : r.run before cs = .ok xs) : ∀ x ∈ xs, x.depth ≤ maxDepth := by
  induction cs generalizing r s before with
  | nil =>
    unfold Reader.run at hrun
    dsimp only at hrun
    split at hrun
    · obtain rfl := Except.ok.inj hrun
      exact fun x hx => le_trans (Nat.le_add_right _ _) (h.endName.room.1 x (List.mem_reverse.1 hx))
    · cases hrun
  | cons c cs ih =>
    rw [DepthScan.tooDeepLine?] at hscan
    split at hscan
    · rename_i s' hscan'
      unfold Reader.run at hrun
      split at hrun
      · rename_i r' hstep
        exact ih (h.step hstep hscan') hscan hrun
      · cases hrun
    · cases hscan

end Reader.Nests

/-- **No expression that is read is nested too deeply.** -/
theorem depth_le_of_readOne {x : Expr} (h : readOne cs = .ok x) : x.depth ≤ maxDepth := by
  obtain ⟨hscan, hrun⟩ := readOne_eq_ok.1 h
  have hstart : Reader.Nests {} {} := ⟨rfl, by simp, Nat.zero_le _, by simp, trivial⟩
  exact hstart.run hscan hrun x List.mem_cons_self

/-- **A text of an expression is read as it**, unless the expression is nested too deeply. -/
theorem readOne_eq_ok_iff {x y : Expr} (h : Spells cs x.tokens) : readOne cs = .ok y ↔ y = x ∧ x.depth ≤ maxDepth := by
  rw [← tooDeepLine?_eq_none_iff h]
  constructor
  · intro hread
    have hscan := (readOne_eq_ok.1 hread).1
    exact ⟨Except.ok.inj (hread.symm.trans (readOne_of_spells h hscan)), hscan⟩
  · rintro ⟨rfl, hscan⟩
    exact readOne_of_spells h hscan

/-- A text of an expression that is nested too deeply is refused for this. -/
theorem readOne_of_deep {x : Expr} (h : Spells cs x.tokens) (hdepth : maxDepth < x.depth) :
    ∃ n, readOne cs = .error (.tooDeep n) := by
  cases hscan : tooDeepLine? cs with
  | none => exact absurd ((tooDeepLine?_eq_none_iff h).1 hscan) (not_le.2 hdepth)
  | some n => exact ⟨n, by rw [readOne, readAll, hscan]⟩

end Waymark.Expr
