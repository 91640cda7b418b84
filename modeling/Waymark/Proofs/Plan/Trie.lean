import Mathlib.Tactic
import Waymark.Plan.Tree

/-!
# Plan trees are tries

The tree of plans has one node for each sequence of actions, up to their spelling, that some plan begins
with. While plans are inserted, every node stands for a sequence, the ways that have been gone so far say
which sequences there are and which digests each of them has, and an edge leads from a sequence to the
same with one more action.

* `Tree.Spells`, `Tree.IsTrie`: the actions on the way to a node, and trees that are tries of plans;
* `Tree.Lays`: what the nodes of a tree stand for while it grows;
* `Lays.advance`, `Lays.follow`, `Lays.insert`: one action, one plan;
* `ofPlans_isTrie`: the tree of the beginnings of plans is their trie, and so is that of their ends.
-/

namespace Waymark.Plan

variable {κ : Type}

/-- The actions of a plan, each as its one text. -/
def normalForm (p : Plan κ) : List String := p.actions.map normalized

namespace Tree

/-! ## Tries -/

/-- The actions on a way from the root to a node. -/
inductive Spells (t : Tree) : Nat → List String → Prop
  | root (h : 0 < t.nodes.size) : Spells t 0 []
  | edge {e : TreeEdge} {w : List String} (he : e ∈ t.edges) (h : Spells t e.source w) :
      Spells t e.target (w ++ [normalized e.action])

/-- The tree is rooted, with nodes that are numbered by their places, and it is the trie of plans: it has
one node for each beginning of a plan. -/
structure IsTrie (t : Tree) (plans : List (Plan κ)) : Prop where
  numbered : ∀ (i : Nat) (n : TreeNode), t.nodes[i]? = some n → n.id = i
  root : ∀ e ∈ t.edges, e.target ≠ 0
  rootDepth : ∀ n : TreeNode, t.nodes[0]? = some n → n.depth = 0
  entered : ∀ i, 0 < i → i < t.nodes.size → ∃! j : Nat, ∃ e, t.edges[j]? = some e ∧ e.target = i
  ascending : ∀ e ∈ t.edges, e.source < e.target ∧ e.target < t.nodes.size
  depth : ∀ e ∈ t.edges, ∀ m n : TreeNode, t.nodes[e.source]? = some m → t.nodes[e.target]? = some n →
    n.depth = m.depth + 1
  /-- Every node stands for one sequence, -/
  spells : ∀ i, i < t.nodes.size → ∃! w, t.Spells i w
  /-- and every beginning of a plan, and no other sequence, has one node. -/
  spelled : ∀ w, (∃ p ∈ plans, w <+: p.normalForm) ↔ ∃! i, t.Spells i w
  hashes : ∀ (i : Nat) (n : TreeNode) (w : List String), t.nodes[i]? = some n → t.Spells i w →
    n.hashes = (plans.filter fun p => w <+: p.normalForm).map (·.hash.getD "")
  isTerminal : ∀ (i : Nat) (n : TreeNode) (w : List String), t.nodes[i]? = some n → t.Spells i w →
    (n.isTerminal = true ↔ ∃ p ∈ plans, p.normalForm = w)
  edgeHashes : ∀ e ∈ t.edges, ∀ n : TreeNode, t.nodes[e.target]? = some n → e.hashes = n.hashes
  siblings : t.edges.toList.Pairwise fun e e' =>
    e.source = e'.source → normalized e.action ≠ normalized e'.action

/-! ## Growing trees -/

/-- The digests of the ways that begin with a sequence. A way is a digest with a sequence. -/
def through (ways : List (String × List String)) (w : List String) : List String :=
  (ways.filter fun p => w <+: p.2).map Prod.fst

/-- The nodes of the tree stand for the sequences `words`, in this order. They are the beginnings of the
ways that have been gone, and of them `ends` are plans. -/
structure Lays (t : Tree) (words : List (List String)) (ways : List (String × List String))
    (ends : List (List String)) : Prop where
  size_nodes : t.nodes.size = words.length
  size_edges : t.edges.size = words.length - 1
  node : ∀ (i : Nat) (w : List String), words[i]? = some w →
    t.nodes[i]? = some ⟨i, w.length, through ways w, decide (w ∈ ends)⟩
  root : ∀ w : List String, words[0]? = some w → w = []
  /-- The edge at a place leads to the node after it. -/
  edge : ∀ (j : Nat) (w : List String), words[j + 1]? = some w → ∃ e v, t.edges[j]? = some e ∧
    e.source ≤ j ∧ e.target = j + 1 ∧ e.hashes = through ways w ∧ words[e.source]? = some v ∧
    w = v ++ [normalized e.action]
  nodup : words.Nodup
  mem_words : ∀ w, w ∈ words ↔ ∃ p ∈ ways, w <+: p.2
  ends_subset : ends ⊆ words

/-- A way that goes on passes one sequence more. -/
theorem through_concat (ways : List (String × List String)) (hash : String) (u w : List String)
    (a : String) :
    through (ways ++ [(hash, u ++ [a])]) w =
      through (ways ++ [(hash, u)]) w ++ if w = u ++ [a] then [hash] else [] := by
  have hself : ¬ u ++ [a] <+: u := fun h => by simpa using h.length_le
  by_cases hw : w = u ++ [a]
  · subst hw
    simp [through, List.filter_append, hself]
  · have hiff : w <+: u ++ [a] ↔ w <+: u := by
      rw [List.prefix_concat_iff]
      exact or_iff_right hw
    simp only [through, List.filter_append, List.map_append, List.filter_cons, hiff, if_neg hw,
      List.append_nil]
    split
    · rfl
    · rfl

theorem exists_way_concat (ways : List (String × List String)) (hash : String) (u v : List String) :
    (∃ p ∈ ways ++ [(hash, u)], v <+: p.2) ↔ (∃ p ∈ ways, v <+: p.2) ∨ v <+: u := by
  simp only [List.mem_append, List.mem_singleton, or_and_right, exists_or, exists_eq_left]

theorem getElem?_concat_eq_some {α : Type} {xs : List α} {x y : α} {i : Nat} :
    (xs ++ [x])[i]? = some y ↔ xs[i]? = some y ∨ i = xs.length ∧ x = y := by
  rw [List.getElem?_append, List.getElem?_singleton]
  split
  · simp [show ¬ i = xs.length by omega]
  · rw [List.getElem?_eq_none (by omega)]
    simp [show i - xs.length = 0 ↔ i = xs.length by omega]

namespace Lays

variable {t : Tree} {words : List (List String)} {ways : List (String × List String)}
  {ends : List (List String)} {i j : Nat} {u w : List String} {action hash : String}

theorem eq_of_getElem? (h : t.Lays words ways ends) (hi : words[i]? = some w) (hj : words[j]? = some w) :
    i = j := by
  obtain ⟨hlt, -⟩ := List.getElem?_eq_some_iff.1 hi
  exact (List.getElem?_inj hlt h.nodup).1 (hi.trans hj.symm)

theorem exists_word (h : t.Lays words ways ends) (hi : i < t.nodes.size) : ∃ w, words[i]? = some w :=
  ⟨_, List.getElem?_eq_getElem (h.size_nodes ▸ hi)⟩

theorem exists_word_edge (h : t.Lays words ways ends) {e : TreeEdge} (hj : t.edges[j]? = some e) :
    ∃ w, words[j + 1]? = some w := by
  obtain ⟨hlt, -⟩ := Array.getElem?_eq_some_iff.1 hj
  have hsize := h.size_edges
  exact ⟨_, List.getElem?_eq_getElem (by omega)⟩

/-- The edge that an action takes leads to the sequence with this action. -/
theorem of_edgeFrom? (h : t.Lays words ways ends) (hi : words[i]? = some u)
    (hedge : t.edgeFrom? i action = some j) : words[j + 1]? = some (u ++ [normalized action]) := by
  obtain ⟨hlt, hmatch, -⟩ := Array.findIdx?_eq_some_iff_getElem.1 hedge
  have hj : t.edges[j]? = some t.edges[j] := Array.getElem?_eq_getElem hlt
  obtain ⟨w, hw⟩ := h.exists_word_edge hj
  obtain ⟨e, v, he, -, -, -, hv, rfl⟩ := h.edge j w hw
  obtain rfl := Option.some.inj (hj.symm.trans he)
  simp only [Bool.and_eq_true, decide_eq_true_eq, beq_iff_eq] at hmatch
  rw [hmatch.1, hi] at hv
  rw [hw, Option.some.inj hv, hmatch.2]

/-- If no edge is there for an action, no node stands for the sequence with it. -/
theorem of_edgeFrom?_eq_none (h : t.Lays words ways ends) (hi : words[i]? = some u)
    (hedge : t.edgeFrom? i action = none) : u ++ [normalized action] ∉ words := by
  intro hmem
  obtain ⟨k, hk⟩ := List.getElem?_of_mem hmem
  cases k with
  | zero => simpa using h.root _ hk
  | succ j =>
    obtain ⟨e, v, he, -, -, -, hv, hw⟩ := h.edge j _ hk
    obtain ⟨rfl, ha⟩ := List.append_inj' hw rfl
    have hsource : i = e.source := h.eq_of_getElem? hi hv
    have hnone := Array.findIdx?_eq_none_iff.1 hedge e (Array.mem_of_getElem? he)
    simp [hsource, List.singleton_inj.1 ha] at hnone

/-! ### One action -/

/-- A way that passes one node more leaves its digest there and on the edge to it. -/
theorem pass (h : t.Lays words ways ends) (hi : words[i]? = some w)
    {ways' : List (String × List String)}
    (hthrough : ∀ v, through ways' v = through ways v ++ if v = w then [hash] else [])
    (hsame : ∀ v, (∃ p ∈ ways', v <+: p.2) ↔ ∃ p ∈ ways, v <+: p.2) {edges : Array TreeEdge}
    (hsize : edges.size = t.edges.size)
    (hedges : ∀ j : Nat, edges[j]? = t.edges[j]?.map fun e =>
      if j + 1 = i then { e with hashes := e.hashes ++ [hash] } else e) :
    Lays ({ t with edges }.visit i hash) words ways' ends := by
  have hplace {k : Nat} {v : List String} (hk : words[k]? = some v) : i = k ↔ v = w := by
    constructor
    · rintro rfl
      exact Option.some.inj (hk.symm.trans hi)
    · rintro rfl
      exact h.eq_of_getElem? hi hk
  refine ⟨?size_nodes, hsize.trans h.size_edges, ?node, h.root, ?edge, h.nodup, ?mem_words, h.ends_subset⟩
  case size_nodes => exact Array.size_modify.trans h.size_nodes
  case node =>
    intro k v hk
    show (t.nodes.modify i _)[k]? = _
    rw [Array.getElem?_modify, h.node k v hk, hthrough]
    by_cases hik : i = k
    · rw [if_pos hik, if_pos ((hplace hk).1 hik)]
      rfl
    · rw [if_neg hik, if_neg fun hv => hik ((hplace hk).2 hv), List.append_nil]
  case edge =>
    intro j v hj
    obtain ⟨e, u, he, hsource, htarget, hhashes, hu, rfl⟩ := h.edge j v hj
    show ∃ e v, edges[j]? = some e ∧ _
    rw [hedges, he, hthrough]
    by_cases hji : j + 1 = i
    · refine ⟨{ e with hashes := e.hashes ++ [hash] }, u, by simp [hji], hsource, htarget, ?_, hu, rfl⟩
      rw [if_pos ((hplace hj).1 hji.symm), ← hhashes]
    · refine ⟨e, u, by simp [hji], hsource, htarget, ?_, hu, rfl⟩
      rw [if_neg fun hv => hji ((hplace hj).2 hv).symm, List.append_nil, hhashes]
  case mem_words => exact fun v => (h.mem_words v).trans (hsame v).symm

/-- A way that goes where none has gone before gets a node of its own. -/
theorem grow (h : t.Lays words (ways ++ [(hash, u)]) ends) (hi : words[i]? = some u)
    (hnew : u ++ [normalized action] ∉ words) :
    Lays
      { nodes := t.nodes.push ⟨t.nodes.size, u.length + 1, [hash], false⟩
        edges := t.edges.push ⟨i, t.nodes.size, action, [hash]⟩ }
      (words ++ [u ++ [normalized action]]) (ways ++ [(hash, u ++ [normalized action])]) ends := by
  have hlt : i < words.length := (List.getElem?_eq_some_iff.1 hi).1
  have hnodes := h.size_nodes
  have hedges := h.size_edges
  have hold {v : List String} (hv : v ∈ words) :
      through (ways ++ [(hash, u ++ [normalized action])]) v = through (ways ++ [(hash, u)]) v := by
    have hne : v ≠ u ++ [normalized action] := fun heq => hnew (heq ▸ hv)
    rw [through_concat, if_neg hne, List.append_nil]
  have hfirst : through (ways ++ [(hash, u ++ [normalized action])]) (u ++ [normalized action]) = [hash] := by
    have hnone : through (ways ++ [(hash, u)]) (u ++ [normalized action]) = [] := by
      rw [through, List.map_eq_nil_iff, List.filter_eq_nil_iff]
      exact fun p hp hprefix => hnew ((h.mem_words _).2 ⟨p, hp, of_decide_eq_true hprefix⟩)
    rw [through_concat, if_pos rfl, hnone, List.nil_append]
  refine ⟨?size_nodes, ?size_edges, ?node, ?root, ?edge, ?nodup, ?mem_words, ?ends_subset⟩
  case size_nodes => simp [hnodes]
  case size_edges => simp; omega
  case node =>
    intro k v hk
    rcases getElem?_concat_eq_some.1 hk with hk | ⟨rfl, rfl⟩
    · have hkw := (List.getElem?_eq_some_iff.1 hk).1
      rw [Array.getElem?_push, if_neg (by omega), h.node k v hk, hold (List.mem_of_getElem? hk)]
    · have hends : u ++ [normalized action] ∉ ends := fun hmem => hnew (h.ends_subset hmem)
      rw [Array.getElem?_push, if_pos hnodes.symm, hfirst]
      simp [hnodes, hends]
  case root =>
    intro v hv
    rw [List.getElem?_append_left (by omega)] at hv
    exact h.root v hv
  case edge =>
    intro j v hj
    rcases getElem?_concat_eq_some.1 hj with hj | ⟨hj, rfl⟩
    · have hjw := (List.getElem?_eq_some_iff.1 hj).1
      obtain ⟨e, u', he, hsource, htarget, hhashes, hu', rfl⟩ := h.edge j v hj
      refine ⟨e, u', ?_, hsource, htarget, ?_, ?_, rfl⟩
      · rw [Array.getElem?_push, if_neg (by omega), he]
      · rw [hhashes, hold (List.mem_of_getElem? hj)]
      · exact getElem?_concat_eq_some.2 (.inl hu')
    · refine ⟨⟨i, t.nodes.size, action, [hash]⟩, u, ?_, ?_, ?_, hfirst.symm, ?_, rfl⟩
      · rw [Array.getElem?_push, if_pos (by omega)]
      · show i ≤ j
        omega
      · show t.nodes.size = j + 1
        omega
      · exact getElem?_concat_eq_some.2 (.inl hi)
  case nodup =>
    rw [← List.concat_eq_append]
    exact h.nodup.concat hnew
  case mem_words =>
    intro v
    rw [List.mem_append, h.mem_words, List.mem_singleton, exists_way_concat, exists_way_concat,
      List.prefix_concat_iff, or_assoc, or_comm (a := v <+: u)]
  case ends_subset => exact fun v hv => List.mem_append_left _ (h.ends_subset hv)

/-- Going on by an action leads to the node of the sequence with this action. -/
theorem advance (h : t.Lays words (ways ++ [(hash, u)]) ends) (hi : words[i]? = some u)
    (action : String) :
    ∃ words', (t.advance i action hash).1.Lays words'
        (ways ++ [(hash, u ++ [normalized action])]) ends ∧
      words'[(t.advance i action hash).2]? = some (u ++ [normalized action]) := by
  unfold Tree.advance
  cases hedge : t.edgeFrom? i action with
  | some j =>
    have hj := h.of_edgeFrom? hi hedge
    obtain ⟨e, v, he, -, htarget, -⟩ := h.edge j _ hj
    have hchild : (t.edges.getD j default).target = j + 1 := by
      rw [Array.getD_eq_getD_getElem?, he]
      exact htarget
    have hmem := (h.mem_words _).1 (List.mem_of_getElem? hj)
    refine ⟨words, ?_, ?_⟩
    · show Lays (Tree.visit _ (t.edges.getD j default).target hash) _ _ _
      rw [hchild]
      refine h.pass hj (through_concat ways hash u · _) (fun v => ?_) Array.size_modify fun k => ?_
      · rw [exists_way_concat] at hmem
        rw [exists_way_concat, exists_way_concat, List.prefix_concat_iff]
        constructor
        · rintro (hv | rfl | hv)
          · exact .inl hv
          · exact hmem
          · exact .inr hv
        · exact Or.imp_right .inr
      · rw [Array.getElem?_modify]
        by_cases hjk : j = k
        · rw [if_pos hjk]
          simp [hjk]
        · rw [if_neg hjk]
          simp [Ne.symm hjk]
    · show words[(t.edges.getD j default).target]? = _
      rw [hchild, hj]
  | none =>
    have hnew := h.of_edgeFrom?_eq_none hi hedge
    have hdepth : (t.nodes.getD i default).depth = u.length := by
      rw [Array.getD_eq_getD_getElem?, h.node i u hi]
      rfl
    refine ⟨words ++ [u ++ [normalized action]], ?_, ?_⟩
    · have hgrow := h.grow hi hnew
      rw [← hdepth] at hgrow
      exact hgrow
    · show (words ++ [_])[t.nodes.size]? = _
      rw [h.size_nodes, List.getElem?_concat_length]

/-! ### One plan -/

/-- Where the actions end, a plan ends. -/
theorem finish (h : t.Lays words ways ends) (hi : words[i]? = some w) :
    Lays { t with nodes := t.nodes.modify i fun n => { n with isTerminal := true } } words ways
      (w :: ends) := by
  refine { h with
    size_nodes := Array.size_modify.trans h.size_nodes
    node := fun k v hk => ?_
    ends_subset := List.cons_subset.2 ⟨List.mem_of_getElem? hi, h.ends_subset⟩ }
  rw [Array.getElem?_modify, h.node k v hk]
  by_cases hik : i = k
  · have hv : v = w := by
      rw [hik, hk] at hi
      exact Option.some.inj hi
    rw [if_pos hik]
    simp [hv]
  · have hv : v ≠ w := by
      rintro rfl
      exact hik (h.eq_of_getElem? hi hk)
    rw [if_neg hik]
    simp [hv]

/-- Following the actions of a plan makes a way of them. -/
theorem follow (h : t.Lays words (ways ++ [(hash, u)]) ends) (hi : words[i]? = some u)
    (actions : List String) :
    ∃ words', (t.follow i hash actions).Lays words' (ways ++ [(hash, u ++ actions.map normalized)])
      ((u ++ actions.map normalized) :: ends) := by
  induction actions generalizing t i words u with
  | nil =>
    rw [List.map_nil, List.append_nil]
    exact ⟨words, h.finish hi⟩
  | cons action rest ih =>
    obtain ⟨words', hlays, hchild⟩ := h.advance hi action
    obtain ⟨words'', hrest⟩ := ih hlays hchild
    refine ⟨words'', ?_⟩
    rw [List.append_assoc, List.singleton_append, ← List.map_cons] at hrest
    exact hrest

/-- Every plan begins at the root, which is there from the first one on. -/
theorem start (h : t.Lays words ways ends) (hash : String) :
    ∃ words', (t.withRoot.visit 0 hash).Lays words' (ways ++ [(hash, [])]) ends ∧ words'[0]? = some [] := by
  cases words with
  | nil =>
    have hnodes : t.nodes = #[] := Array.eq_empty_of_size_eq_zero h.size_nodes
    have hedges : t.edges = #[] := Array.eq_empty_of_size_eq_zero h.size_edges
    have hways : ways = [] := List.eq_nil_iff_forall_not_mem.2 fun p hp =>
      List.not_mem_nil ((h.mem_words []).2 ⟨p, hp, List.nil_prefix⟩)
    have hends : ends = [] := List.subset_nil.1 h.ends_subset
    obtain ⟨nodes, edges⟩ := t
    subst hnodes hedges hways hends
    refine ⟨[[]], ⟨rfl, rfl, ?_, by simp, by simp, List.nodup_singleton _, by simp, by simp⟩, rfl⟩
    intro i w hi
    rw [List.getElem?_singleton] at hi
    split at hi
    · rename_i hzero
      subst hzero
      rw [← Option.some.inj hi]
      rfl
    · cases hi
  | cons w words =>
    obtain rfl := h.root w rfl
    have hroot : t.withRoot = t := by
      have hsize := h.size_nodes
      rw [List.length_cons] at hsize
      refine if_neg fun hempty => ?_
      rw [Array.isEmpty_iff_size_eq_zero] at hempty
      omega
    have hmem := (h.mem_words []).1 List.mem_cons_self
    refine ⟨[] :: words, ?_, rfl⟩
    rw [hroot]
    refine h.pass (i := 0) rfl (fun v => ?_) (fun v => ?_) rfl fun j => ?_
    · by_cases hv : v = []
      · simp [through, List.filter_append, hv]
      · simp [through, List.filter_append, hv]
    · rw [exists_way_concat, List.prefix_nil]
      constructor
      · rintro (hv | rfl)
        · exact hv
        · exact hmem
      · exact .inl
    · simp

/-- Inserting a plan. -/
theorem insert (h : t.Lays words ways ends) (hash : String) (actions : List String) :
    ∃ words', (t.insert hash actions).Lays words' (ways ++ [(hash, actions.map normalized)])
      (actions.map normalized :: ends) := by
  obtain ⟨words', hstart, hroot⟩ := h.start hash
  exact hstart.follow hroot actions

/-! ### The trie -/

/-- The sequence of a node is what leads to it. -/
theorem spells_iff (h : t.Lays words ways ends) : t.Spells i w ↔ words[i]? = some w := by
  constructor
  · intro hspells
    induction hspells with
    | root hsize =>
      obtain ⟨w, hw⟩ := h.exists_word hsize
      rw [hw, h.root w hw]
    | @edge e v he _ ih =>
      obtain ⟨j, hj⟩ := Array.getElem?_of_mem he
      obtain ⟨w, hw⟩ := h.exists_word_edge hj
      obtain ⟨e', v', he', -, htarget, -, hv', rfl⟩ := h.edge j w hw
      obtain rfl := Option.some.inj (hj.symm.trans he')
      rw [htarget, hw, Option.some.inj (hv'.symm.trans ih)]
  · intro hw
    induction i using Nat.strong_induction_on generalizing w with
    | _ i ih =>
      cases i with
      | zero =>
        rw [h.root w hw]
        exact .root (h.size_nodes ▸ (List.getElem?_eq_some_iff.1 hw).1)
      | succ j =>
        obtain ⟨e, v, he, hsource, htarget, -, hv, rfl⟩ := h.edge j w hw
        rw [← htarget]
        exact .edge (Array.mem_of_getElem? he) (ih e.source (by omega) hv)

theorem node_eq (h : t.Lays words ways ends) {n : TreeNode} (hn : t.nodes[i]? = some n)
    (hw : words[i]? = some w) : n = ⟨i, w.length, through ways w, decide (w ∈ ends)⟩ :=
  Option.some.inj (hn.symm.trans (h.node i w hw))

/-- An edge leads from the sequence of a node to the same with its action. -/
theorem of_mem_edges (h : t.Lays words ways ends) {e : TreeEdge} (he : e ∈ t.edges) :
    ∃ j v, t.edges[j]? = some e ∧ e.source ≤ j ∧ e.target = j + 1 ∧ words[e.source]? = some v ∧
      words[e.target]? = some (v ++ [normalized e.action]) ∧
      e.hashes = through ways (v ++ [normalized e.action]) := by
  obtain ⟨j, hj⟩ := Array.getElem?_of_mem he
  obtain ⟨w, hw⟩ := h.exists_word_edge hj
  obtain ⟨e', v, he', hsource, htarget, hhashes, hv, rfl⟩ := h.edge j w hw
  obtain rfl := Option.some.inj (hj.symm.trans he')
  exact ⟨j, v, hj, hsource, htarget, hv, htarget ▸ hw, hhashes⟩

end Lays

/-- What the tree of plans stands for: the beginnings of the plans. -/
theorem exists_lays (plans : List (Plan κ)) :
    ∃ words, (ofPlans plans).Lays words (plans.map fun p => (p.hash.getD "", p.normalForm))
      (plans.map normalForm).reverse := by
  induction plans using List.reverseRecOn with
  | nil => exact ⟨[], rfl, rfl, by simp, by simp, by simp, List.nodup_nil, by simp, by simp⟩
  | append_singleton plans p ih =>
    obtain ⟨words, h⟩ := ih
    obtain ⟨words', h'⟩ := h.insert (p.hash.getD "") p.actions
    refine ⟨words', ?_⟩
    rw [ofPlans, List.foldl_append, List.map_append, List.map_append, List.reverse_append]
    exact h'

theorem through_map (plans : List (Plan κ)) (w : List String) :
    through (plans.map fun p => (p.hash.getD "", p.normalForm)) w =
      (plans.filter fun p => w <+: p.normalForm).map (·.hash.getD "") := by
  rw [through, List.filter_map, List.map_map]
  rfl

/-- A tree that stands for the beginnings of plans is their trie. -/
theorem Lays.isTrie {t : Tree} {words : List (List String)} {plans : List (Plan κ)}
    (h : t.Lays words (plans.map fun p => (p.hash.getD "", p.normalForm))
      (plans.map normalForm).reverse) : t.IsTrie plans := by
  have hplans (w : List String) : w ∈ words ↔ ∃ p ∈ plans, w <+: p.normalForm := by
    rw [h.mem_words]
    simp
  refine ⟨?numbered, ?root, ?rootDepth, ?entered, ?ascending, ?depth, ?spells, ?spelled, ?hashes,
    ?isTerminal, ?edgeHashes, ?siblings⟩
  case numbered =>
    intro i n hn
    obtain ⟨w, hw⟩ := h.exists_word (Array.getElem?_eq_some_iff.1 hn).1
    rw [h.node_eq hn hw]
  case root =>
    intro e he
    obtain ⟨j, -, -, -, htarget, -⟩ := h.of_mem_edges he
    omega
  case rootDepth =>
    intro n hn
    obtain ⟨w, hw⟩ := h.exists_word (Array.getElem?_eq_some_iff.1 hn).1
    rw [h.node_eq hn hw, h.root w hw]
    rfl
  case entered =>
    intro i hpos hi
    obtain ⟨j, rfl⟩ := Nat.exists_eq_add_one.2 hpos
    obtain ⟨w, hw⟩ := h.exists_word hi
    obtain ⟨e, -, he, -, htarget, -⟩ := h.edge j w hw
    refine ⟨j, ⟨e, he, htarget⟩, fun k ⟨e', he', htarget'⟩ => ?_⟩
    obtain ⟨w', hw'⟩ := h.exists_word_edge he'
    obtain ⟨e'', -, he'', -, htarget'', -⟩ := h.edge k w' hw'
    obtain rfl := Option.some.inj (he'.symm.trans he'')
    omega
  case ascending =>
    intro e he
    obtain ⟨j, v, -, hsource, htarget, -, hw, -⟩ := h.of_mem_edges he
    exact ⟨by omega, h.size_nodes ▸ (List.getElem?_eq_some_iff.1 hw).1⟩
  case depth =>
    intro e he m n hm hn
    obtain ⟨j, v, -, -, -, hv, hw, -⟩ := h.of_mem_edges he
    rw [h.node_eq hm hv, h.node_eq hn hw]
    exact List.length_append
  case spells =>
    intro i hi
    obtain ⟨w, hw⟩ := h.exists_word hi
    exact ⟨w, h.spells_iff.2 hw, fun v hv => Option.some.inj ((h.spells_iff.1 hv).symm.trans hw)⟩
  case spelled =>
    intro w
    rw [← hplans]
    constructor
    · intro hmem
      obtain ⟨i, hi⟩ := List.getElem?_of_mem hmem
      exact ⟨i, h.spells_iff.2 hi, fun j hj => h.eq_of_getElem? (h.spells_iff.1 hj) hi⟩
    · rintro ⟨i, hi, -⟩
      exact List.mem_of_getElem? (h.spells_iff.1 hi)
  case hashes =>
    intro i n w hn hw
    rw [h.node_eq hn (h.spells_iff.1 hw)]
    exact through_map plans w
  case isTerminal =>
    intro i n w hn hw
    rw [h.node_eq hn (h.spells_iff.1 hw)]
    simp
  case edgeHashes =>
    intro e he n hn
    obtain ⟨j, v, -, -, -, -, hw, hhashes⟩ := h.of_mem_edges he
    rw [hhashes, h.node_eq hn hw]
  case siblings =>
    rw [List.pairwise_iff_getElem]
    intro j k hj hk hjk hsource haction
    obtain ⟨w, hw⟩ := h.exists_word_edge (Array.getElem?_eq_getElem hj)
    obtain ⟨w', hw'⟩ := h.exists_word_edge (Array.getElem?_eq_getElem hk)
    obtain ⟨e, v, he, -, -, -, hv, rfl⟩ := h.edge j w hw
    obtain ⟨e', v', he', -, -, -, hv', rfl⟩ := h.edge k w' hw'
    obtain rfl := Option.some.inj ((Array.getElem?_eq_getElem hj).symm.trans he)
    obtain rfl := Option.some.inj ((Array.getElem?_eq_getElem hk).symm.trans he')
    rw [Array.getElem_toList, Array.getElem_toList] at hsource haction
    rw [← hsource] at hv'
    rw [← haction, ← Option.some.inj (hv.symm.trans hv')] at hw'
    have hplace := h.eq_of_getElem? hw hw'
    omega

/-- **The tree of plans is their trie.** It has one node for each beginning of a plan, with the digests
of the plans that begin so. The tree of the ends of plans is the tree of the plans backwards. -/
theorem ofPlans_isTrie (plans : List (Plan κ)) :
    (ofPlans plans).IsTrie plans ∧
      ofReversed plans = ofPlans (plans.map fun p => { p with actions := p.actions.reverse }) ∧
      ofPlans ([] : List (Plan κ)) = {} := by
  obtain ⟨words, h⟩ := exists_lays plans
  refine ⟨h.isTrie, ?_, rfl⟩
  rw [ofPlans, List.foldl_map]
  rfl

end Tree

end Waymark.Plan
