import Mathlib.Tactic
import Waymark.Proofs.Digest
import Waymark.Proofs.Plan.Identity

/-!
# What a digest of a plan says

The bytes that are digested say the texts of the actions: each text stands after its length, and all of them after
their number. So plans of the same digest have the same actions unless two identities collide, and a list is left with
the first plan of each kind.

* `identity_eq_iff`: the bytes say the texts of the actions;
* `NoCollision`, `fingerprint_eq_iff`: so do the digests, as long as none of them collide;
* `distinctFrom_append`, `distinct_append_distinct`: plans without repetitions, part by part;
* `firsts`, `distinct_eq_firsts`: which plans are kept;
* `identified_by_actions`: all of this.
-/

namespace Waymark.Plan

open Digest

/-! ## The bytes of a plan -/

/-- 64 bits suffice for the number of the actions and for the number of bytes in the text of each. -/
def Measurable (actions : List String) : Prop :=
  actions.length < 2 ^ 64 ∧ ∀ a ∈ actions, (normalized a).utf8ByteSize < 2 ^ 64

instance : DecidablePred Measurable := fun _ => inferInstanceAs (Decidable (_ ∧ _))

/-- A text can be read after its length. -/
theorem delimited_measured : Delimited (fun s : String => s.utf8ByteSize < 2 ^ 64) measured := by
  have hbytes (size : Nat) : Delimited (fun s : String => True ∧ s.utf8ByteSize = size) (·.toUTF8.data.toList) :=
    delimited_of_length (n := size) (fun _ h => h.2) fun _ _ _ _ h =>
      String.toByteArray_inj.1 (ByteArray.ext (Array.toList_inj.1 h))
  exact fun _ _ _ _ hs ht h => (delimited_littleEndian 8).headed hbytes ⟨hs, trivial⟩ ⟨ht, trivial⟩ h

/-- What is digested is the number of the actions and the text of each after its length, so it depends on nothing but
the texts. -/
theorem identity_eq (actions : List String) : identity actions =
    littleEndian 8 (actions.map normalized).length ++ (actions.map normalized).flatMap measured := by
  rw [identity, List.length_map, List.flatMap_map]

/-- **The bytes that are digested say the texts of the actions**, and say nothing else. -/
theorem identity_eq_iff {as bs : List String} (has : Measurable as) (hbs : Measurable bs) :
    identity as = identity bs ↔ as.map normalized = bs.map normalized := by
  constructor
  · intro h
    rw [identity_eq, identity_eq] at h
    have hread {cs : List String} (hcs : Measurable cs) : (cs.map normalized).length < 2 ^ 64 ∧
        ∀ t ∈ cs.map normalized, t.utf8ByteSize < 2 ^ 64 :=
      ⟨by simpa using hcs.1, List.forall_mem_map.2 hcs.2⟩
    exact ((delimited_littleEndian 8).headed fun n => delimited_measured.flatMap n).injective (hread has) (hread hbs) h
  · intro h
    rw [identity_eq, identity_eq, h]

/-- No two of these sequences of actions have different identities with the same digest. -/
def NoCollision (sequences : List (List String)) : Prop :=
  ∀ as ∈ sequences, ∀ bs ∈ sequences,
    sha256 ⟨(identity as).toArray⟩ = sha256 ⟨(identity bs).toArray⟩ → identity as = identity bs

/-- **Digests say the texts of the actions** as long as they do not collide. -/
theorem fingerprint_eq_iff {sequences : List (List String)} (hcollide : NoCollision sequences) {as bs : List String}
    (has : as ∈ sequences) (hbs : bs ∈ sequences) (hmas : Measurable as) (hmbs : Measurable bs) :
    fingerprint as = fingerprint bs ↔ as.map normalized = bs.map normalized := by
  constructor
  · exact fun h => (identity_eq_iff hmas hmbs).1 (hcollide as has bs hbs (sha256Hex_eq_iff.1 h))
  · exact fingerprint_congr

/-! ## Plans without repetitions -/

variable {κ : Type}

/-- It does not matter in which order digests were seen. -/
theorem distinctFrom_congr {seen seen' : List String} (h : ∀ hash, hash ∈ seen ↔ hash ∈ seen')
    (plans : List (Plan κ)) : distinctFrom seen plans = distinctFrom seen' plans := by
  induction plans generalizing seen seen' with
  | nil => rfl
  | cons p plans ih =>
    have hcontains : seen.contains (fingerprint p.actions) = seen'.contains (fingerprint p.actions) := by
      rw [Bool.eq_iff_iff, List.contains_iff_mem, List.contains_iff_mem, h]
    have hcons : ∀ hash, hash ∈ fingerprint p.actions :: seen ↔ hash ∈ fingerprint p.actions :: seen' := fun hash => by
      rw [List.mem_cons, List.mem_cons, h]
    unfold distinctFrom
    dsimp only
    rw [hcontains, ih h, ih hcons]

/-- A list is gone through part by part, and all digests of the first part are seen before the second. -/
theorem distinctFrom_append (seen : List String) (xs ys : List (Plan κ)) : distinctFrom seen (xs ++ ys) =
    distinctFrom seen xs ++ distinctFrom (xs.map (fun p => fingerprint p.actions) ++ seen) ys := by
  induction xs generalizing seen with
  | nil => rfl
  | cons p xs ih =>
    rw [List.cons_append, distinctFrom, distinctFrom]
    split
    · rename_i hseen
      rw [ih]
      refine congrArg _ (distinctFrom_congr (fun hash => ?_) ys)
      have hmem := List.contains_iff_mem.1 hseen
      simp only [List.map_cons, List.mem_append, List.mem_cons]
      constructor
      · tauto
      · rintro ((rfl | hmem') | hmem') <;> tauto
    · rw [ih, List.cons_append]
      refine congrArg _ (congrArg _ (distinctFrom_congr (fun hash => ?_) ys))
      simp only [List.map_cons, List.mem_append, List.mem_cons]
      tauto

theorem distinct_append (xs ys : List (Plan κ)) :
    distinct (xs ++ ys) = distinct xs ++ distinctFrom (xs.map fun p => fingerprint p.actions) ys := by
  rw [distinct, distinctFrom_append, List.append_nil, distinct]

/-- A plan at the end is kept just if its digest is new. -/
theorem distinct_concat (xs : List (Plan κ)) (p : Plan κ) : distinct (xs ++ [p]) =
    distinct xs ++ if fingerprint p.actions ∈ xs.map (fun q => fingerprint q.actions) then [] else [hashed p] := by
  rw [distinct_append, distinctFrom]
  simp only [List.contains_iff_mem, distinctFrom]
  rfl

/-- No digest gets lost. -/
theorem mem_fingerprints_distinct {plans : List (Plan κ)} {hash : String} :
    hash ∈ (distinct plans).map (fun p => fingerprint p.actions) ↔ hash ∈ plans.map fun p => fingerprint p.actions := by
  induction plans using List.reverseRecOn with
  | nil => rfl
  | append_singleton plans p ih =>
    rw [distinct_concat, List.map_append, List.mem_append, ih, List.map_append, List.mem_append]
    split
    · rename_i hseen
      constructor
      · tauto
      · rintro (hmem | hmem)
        · exact .inl hmem
        · obtain rfl := List.mem_singleton.1 hmem
          exact .inl hseen
    · rfl

/-- Plans without repetitions are left as they are. -/
theorem distinct_distinct (plans : List (Plan κ)) : distinct (distinct plans) = distinct plans := by
  rw [distinct_eq_map (nodup_distinct plans)]
  refine (List.map_congr_left fun p hp => ?_).trans (List.map_id _)
  rw [hashed, ← hash_of_mem_distinct hp, id]

/-- Repetitions may be dropped from the first part of a list before the second is there. -/
theorem distinct_append_distinct (xs ys : List (Plan κ)) : distinct (xs ++ ys) = distinct (distinct xs ++ ys) := by
  rw [distinct_append, distinct_append, distinct_distinct]
  exact congrArg _ (distinctFrom_congr (fun _ => mem_fingerprints_distinct.symm) ys)

/-! ## The first plan of each kind -/

/-- The plans have the same actions. -/
def SameActions (p q : Plan κ) : Prop := p.actions.map normalized = q.actions.map normalized

instance (p q : Plan κ) : Decidable (SameActions p q) := inferInstanceAs (Decidable (_ = _))

/-- A plan has other actions than the first `n` plans of a list. -/
def IsNew (plans : List (Plan κ)) (p : Plan κ) (n : Nat) : Prop := ∀ q ∈ plans.take n, ¬ SameActions p q

instance (plans : List (Plan κ)) (p : Plan κ) (n : Nat) : Decidable (IsNew plans p n) :=
  inferInstanceAs (Decidable (∀ q ∈ plans.take n, ¬ SameActions p q))

/-- The plans of a list with other actions than all plans before them. -/
def firsts (plans : List (Plan κ)) : List (Plan κ) :=
  (plans.zipIdx.filter fun (p, place) => IsNew plans p place).map (·.1)

theorem firsts_concat (xs : List (Plan κ)) (p : Plan κ) :
    firsts (xs ++ [p]) = firsts xs ++ if IsNew xs p xs.length then [p] else [] := by
  have hnew (q : Plan κ) {place : Nat} (h : place ≤ xs.length) : IsNew (xs ++ [p]) q place ↔ IsNew xs q place := by
    rw [IsNew, List.take_append_of_le_length h, IsNew]
  have hbefore : xs.zipIdx.filter (fun (q, place) => IsNew (xs ++ [p]) q place) =
      xs.zipIdx.filter fun (q, place) => IsNew xs q place := by
    refine List.filter_congr fun (q, place) hentry => decide_eq_decide.2 (hnew q ?_)
    exact Nat.le_of_lt (by simpa using (List.mem_zipIdx hentry).2.1)
  have hlast : [p].zipIdx (0 + xs.length) = [(p, xs.length)] := by simp
  unfold firsts
  rw [List.zipIdx_append, List.filter_append, hbefore, List.map_append, hlast]
  by_cases hp : IsNew xs p xs.length
  · simp [hnew p le_rfl, hp]
  · simp [hnew p le_rfl, hp]

/-- **A list is left with the first plan of each kind**, as long as no digests collide. -/
theorem distinct_eq_firsts {plans : List (Plan κ)} (hmeasurable : ∀ p ∈ plans, Measurable p.actions)
    (hcollide : NoCollision (plans.map (·.actions))) : distinct plans = (firsts plans).map hashed := by
  -- The list grows at its end, since what is kept of a plan depends on those before it.
  have hprefix (xs ys : List (Plan κ)) (heq : xs ++ ys = plans) : distinct xs = (firsts xs).map hashed := by
    induction xs using List.reverseRecOn generalizing ys with
    | nil => rfl
    | append_singleton xs p ih =>
      have hmem : ∀ q ∈ xs ++ [p], q ∈ plans := fun q hq => heq ▸ List.mem_append_left ys hq
      have hsame : fingerprint p.actions ∈ xs.map (fun q => fingerprint q.actions) ↔ ¬ IsNew xs p xs.length := by
        rw [IsNew, List.take_length, List.mem_map]
        push Not
        refine exists_congr fun q => and_congr_right fun hq => ?_
        have hp := hmem p (by simp)
        have hq := hmem q (List.mem_append_left _ hq)
        rw [eq_comm, fingerprint_eq_iff hcollide (List.mem_map_of_mem hp) (List.mem_map_of_mem hq)
          (hmeasurable p hp) (hmeasurable q hq), SameActions]
      rw [distinct_concat, firsts_concat, ih (p :: ys) (by rw [← heq, List.append_assoc]; rfl), List.map_append,
        apply_ite (List.map hashed)]
      simp only [hsame, ite_not]
      rfl
  exact hprefix plans [] (List.append_nil plans)

/-- **A plan is its actions.** The bytes that are digested say the texts of the actions and nothing else. So as long as
digests do not collide, plans have the same digest just if they have the same actions, and of a list the first plan of
each kind is left, with its digest, in the order of the list. Repetitions can be dropped part by part, and a second
time without effect. -/
theorem identified_by_actions :
    (∀ as bs, Measurable as → Measurable bs → (identity as = identity bs ↔ as.map normalized = bs.map normalized)) ∧
    (∀ p q : Plan κ, Measurable p.actions → Measurable q.actions → NoCollision [p.actions, q.actions] →
      ((hashed p).hash = (hashed q).hash ↔ p.actions.map normalized = q.actions.map normalized)) ∧
    (∀ plans : List (Plan κ), (∀ p ∈ plans, Measurable p.actions) → NoCollision (plans.map (·.actions)) →
      distinct plans = (firsts plans).map hashed) ∧
    (∀ xs ys : List (Plan κ), distinct (xs ++ ys) = distinct (distinct xs ++ ys)) ∧
    ∀ xs : List (Plan κ), distinct (distinct xs) = distinct xs := by
  refine ⟨fun _ _ => identity_eq_iff, fun p q hp hq hcollide => ?_, fun _ => distinct_eq_firsts,
    distinct_append_distinct, distinct_distinct⟩
  have hmem : p.actions ∈ [p.actions, q.actions] := List.mem_cons_self
  have hmem' : q.actions ∈ [p.actions, q.actions] := List.mem_cons_of_mem _ List.mem_cons_self
  rw [← fingerprint_eq_iff hcollide hmem hmem' hp hq]
  exact Option.some_inj

/-- Two ways to send a message, and the first of them once more. -/
def sendings : List (Plan Nat) :=
  [{ actions := ["(draft m1)", "(slack m1)"], cost := 2 }, { actions := ["(draft m1)", "(gmail m1)"], cost := 2 },
    { actions := ["(Draft  M1)", "slack m1"], cost := 3 }]

/-- Plans that differ in case, blanks and parentheses are the same, and the first of them is left. -/
theorem identified_by_actions_sendings :
    (hashed sendings[0]).hash = (hashed sendings[2]).hash ∧
      distinct sendings = [hashed sendings[0], hashed sendings[1]] := by
  have hother : sha256 ⟨(identity ["(draft m1)", "(slack m1)"]).toArray⟩ ≠
      sha256 ⟨(identity ["(draft m1)", "(gmail m1)"]).toArray⟩ := by decide +kernel
  have hagain : identity ["(Draft  M1)", "slack m1"] = identity ["(draft m1)", "(slack m1)"] := by decide +kernel
  have hmeasurable : ∀ p ∈ sendings, Measurable p.actions := by decide +kernel
  have hcollide : NoCollision (sendings.map (·.actions)) := by
    simp [NoCollision, sendings, hagain, hother, hother.symm]
  obtain ⟨-, hhash, hdistinct, -, -⟩ := identified_by_actions (κ := Nat)
  refine ⟨(hhash _ _ (hmeasurable _ (List.getElem_mem _)) (hmeasurable _ (List.getElem_mem _)) ?_).2
    (by decide +kernel), ?_⟩
  · simp [NoCollision, sendings, hagain]
  · rw [hdistinct sendings hmeasurable hcollide]
    have hnew : ¬ SameActions sendings[1] sendings[0] := by decide +kernel
    have hsame : SameActions sendings[2] sendings[0] := by decide +kernel
    have hfirsts : firsts sendings = [sendings[0], sendings[1]] := by
      simp_all [firsts, IsNew, sendings]
    rw [hfirsts]
    rfl

end Waymark.Plan
