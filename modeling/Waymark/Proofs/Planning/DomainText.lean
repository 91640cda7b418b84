import Mathlib.Tactic
import Waymark.Proofs.Expr.Spelling
import Waymark.Proofs.Planning.Legible

/-!
# Domains are read back

The text of a domain has the tokens of an expression, and what the sections of this expression are read as is the
domain.

* `readTyped_typedItems`, `spells_typedText`: declarations;
* `Schema.expr`, `Domain.expr`: the expressions that are written;
* `Schema.spells_textLines`, `Domain.spells_text`: their texts;
* `readSchema_expr`, `Domain.foldlM_sections`: what they are read as.
-/

namespace Waymark.Planning

open Waymark.Expr

/-! ## Declarations -/

/-- The words of a declaration as expressions. -/
def typedItems (names : List TypedName) : List Expr :=
  (typedWords (names.any (·.type ≠ objectType)) names).map .atom

theorem readTypedFrom_name {a : String} (h : a ≠ "-") (pending : List String) (rest : List Expr) :
    readTypedFrom pending (.atom a :: rest) = readTypedFrom (a :: pending) rest := by
  conv_lhs => unfold readTypedFrom
  exact if_neg h

/-- The last of some names is written with its type, which is that of all names that wait for one. -/
theorem readTypedFrom_typedWords {pending : List String} {x : TypedName} {names : List TypedName}
    (h : ∀ y ∈ x :: names, y.name ≠ "-") : readTypedFrom pending ((typedWords true (x :: names)).map .atom) =
      .ok (pending.reverse.map (⟨·, x.type⟩) ++ x :: names) := by
  have hclose (pending : List String) {x : TypedName} (hx : x.name ≠ "-") (rest : List Expr) :
      readTypedFrom pending (.atom x.name :: .atom "-" :: .atom x.type :: rest) =
        (pending.reverse.map (⟨·, x.type⟩) ++ [x] ++ ·) <$> readTypedFrom [] rest := by
    rw [readTypedFrom_name hx, readTypedFrom, if_pos rfl]
    simp
  induction names generalizing pending x with
  | nil =>
    refine (hclose pending (h x List.mem_cons_self) []).trans ?_
    simp [readTypedFrom]
  | cons y names ih =>
    obtain ⟨hx, hrest⟩ := List.forall_mem_cons.1 h
    by_cases hsame : x.type = y.type
    · have hwords : typedWords true (x :: y :: names) = x.name :: typedWords true (y :: names) := by
        simp [typedWords, hsame]
      rw [hwords, List.map_cons, readTypedFrom_name hx, ih hrest, ← hsame]
      simp
    · have hwords : typedWords true (x :: y :: names) = x.name :: "-" :: x.type :: typedWords true (y :: names) := by
        simp [typedWords, hsame]
      rw [hwords, List.map_cons, List.map_cons, List.map_cons, hclose pending hx, ih hrest]
      simp

theorem typedWords_false (names : List TypedName) : typedWords false names = names.map (·.name) := by
  induction names with
  | nil => rfl
  | cons x names ih =>
    cases names with
    | nil => rfl
    | cons y names => exact congrArg (x.name :: ·) ih

theorem readTypedFrom_untyped {pending : List String} {names : List TypedName} (h : ∀ y ∈ names, y.name ≠ "-")
    (hobject : ∀ y ∈ names, y.type = objectType) : readTypedFrom pending ((names.map (·.name)).map .atom) =
      .ok (pending.reverse.map (⟨·, objectType⟩) ++ names) := by
  induction names generalizing pending with
  | nil => simp [readTypedFrom]
  | cons x names ih =>
    obtain ⟨hx, hrest⟩ := List.forall_mem_cons.1 h
    obtain ⟨htype, hobjects⟩ := List.forall_mem_cons.1 hobject
    rw [List.map_cons, List.map_cons, readTypedFrom_name hx, ih hrest hobjects, ← htype]
    simp

/-- A declaration is read as the names that it was written for. -/
theorem readTyped_typedItems {names : List TypedName} (h : ∀ x ∈ names, x.Legible) :
    readTyped (typedItems names) = .ok names := by
  have hne : ∀ x ∈ names, x.name ≠ "-" := fun x hx => (h x hx).ne_hyphen
  unfold readTyped typedItems
  cases htyped : names.any (·.type ≠ objectType) with
  | true =>
    cases names with
    | nil => cases htyped
    | cons x names => exact readTypedFrom_typedWords hne
  | false =>
    rw [typedWords_false]
    refine readTypedFrom_untyped hne fun x hx => ?_
    simpa using List.any_eq_false.1 htyped x hx

theorem isName_of_mem_typedWords {typed : Bool} {names : List TypedName} (h : ∀ x ∈ names, x.Legible) :
    ∀ w ∈ typedWords typed names, IsName w := by
  have hhyphen : IsName "-" := by decide
  have htyped {x : TypedName} (hx : x.Legible) (b : Bool) : ∀ w ∈ (if b then ["-", x.type] else []), IsName w := by
    cases b with
    | false => simp
    | true => simp [hhyphen, hx.type]
  fun_induction typedWords typed names with
  | case1 => simp
  | case2 x =>
    have hx := h x List.mem_cons_self
    exact List.forall_mem_cons.2 ⟨hx.name, htyped hx typed⟩
  | case3 x y rest ih =>
    obtain ⟨hx, hrest⟩ := List.forall_mem_cons.1 h
    have htype := htyped hx (typed && x.type ≠ y.type)
    exact List.forall_mem_cons.2 ⟨hx.name, List.forall_mem_append.2 ⟨by simpa using htype, ih hrest⟩⟩

/-- Expressions with spaces between them are read as these expressions. -/
theorem spells_intercalate_display {xs : List Expr} (h : ∀ x ∈ xs, x.Legible) :
    Spells (" ".intercalate (xs.map display)).toList (tokensAll xs) := by
  rw [String.toList_intercalate]
  induction xs with
  | nil => exact .nil
  | cons x xs ih =>
    obtain ⟨hx, hxs⟩ := List.forall_mem_cons.1 h
    have hspells := spells_display x hx
    cases xs with
    | nil =>
      rw [List.map_cons, List.map_nil, List.map_cons, List.map_nil, List.intercalate_singleton, tokensAll, tokensAll,
        List.append_nil]
      exact hspells
    | cons y xs =>
      rw [List.map_cons, List.map_cons, List.map_cons, List.map_cons, List.intercalate_cons_cons, List.append_assoc]
      exact hspells.append (parts_cons.2 rfl) (.blank rfl (ih hxs))

/-- Names with spaces between them are read as these names. -/
theorem spells_intercalate {ws : List String} (h : ∀ w ∈ ws, IsName w) :
    Spells (" ".intercalate ws).toList (tokensAll (ws.map .atom)) := by
  have hnames := spells_intercalate_display (List.forall_mem_map.2 fun w hw => Legible.atom (h w hw))
  have hdisplay : (ws.map Expr.atom).map display = ws := by
    simp only [List.map_map, Function.comp_def, display, List.map_id']
  rwa [hdisplay] at hnames

/-- The text of a declaration has the tokens of its words. -/
theorem spells_typedText {names : List TypedName} (h : ∀ x ∈ names, x.Legible) :
    Spells (typedText names).toList (tokensAll (typedItems names)) :=
  spells_intercalate (isName_of_mem_typedWords h)

/-! ## Lines -/

variable {s : String} {lines : List String} {ts us : List Token}

theorem ofLines_cons (s : String) (lines : List String) : (ofLines (s :: lines)).toList =
    s.toList ++ '\n' :: (ofLines lines).toList := by
  simp [ofLines]

theorem ofLines_append (lines lines' : List String) :
    (ofLines (lines ++ lines')).toList = (ofLines lines).toList ++ (ofLines lines').toList := by
  induction lines with
  | nil => rfl
  | cons s lines ih => rw [List.cons_append, ofLines_cons, ih, ofLines_cons, List.append_assoc, List.cons_append]

theorem spells_ofLines_cons (hs : Spells s.toList ts) (h : Spells (ofLines lines).toList us) :
    Spells (ofLines (s :: lines)).toList (ts ++ us) := by
  rw [ofLines_cons]
  exact hs.append (parts_cons.2 rfl) (.blank rfl h)

theorem spells_ofLines_singleton (hs : Spells s.toList ts) : Spells (ofLines [s]).toList ts := by
  have hnil : Spells (ofLines []).toList [] := .nil
  have hline := spells_ofLines_cons hs hnil
  rwa [List.append_nil] at hline

/-- A line ends before the next one. -/
theorem ended_ofLines (lines : List String) : Ended (ofLines lines).toList := by
  unfold Ended
  induction lines with
  | nil => simp [ofLines]
  | cons s lines ih =>
    rw [ofLines_cons, List.getLast?_append, List.getLast?_cons]
    cases hlast : (ofLines lines).toList.getLast? with
    | none => simp; rfl
    | some c => simpa using ih c hlast

theorem spells_ofLines_append {lines' : List String} (h : Spells (ofLines lines).toList ts)
    (h' : Spells (ofLines lines').toList us) : Spells (ofLines (lines ++ lines')).toList (ts ++ us) := by
  rw [ofLines_append]
  exact h.append_of_ended (ended_ofLines lines) h'

theorem spells_ofLines_flatMap {α : Type} {xs : List α} {f : α → List String} {g : α → Expr}
    (h : ∀ x ∈ xs, Spells (ofLines (f x)).toList (g x).tokens) :
    Spells (ofLines (xs.flatMap f)).toList (tokensAll (xs.map g)) := by
  induction xs with
  | nil => exact .nil
  | cons x xs ih =>
    obtain ⟨hx, hxs⟩ := List.forall_mem_cons.1 h
    exact spells_ofLines_append hx (ih hxs)

/-- A fixed text, then a text, then a fixed text. -/
theorem spells_between {first last : String} {ts us vs : List Token} (hfirst : Spells first.toList ts)
    (hgap : Ended first.toList) (hs : Spells s.toList us)
    (hlast : Spells last.toList vs) (hparts : Parts last.toList) :
    Spells (first ++ s ++ last).toList (ts ++ us ++ vs) := by
  rw [String.toList_append, String.toList_append]
  exact (hfirst.append_of_ended hgap hs).append hparts hlast

/-! ## Expressions -/

/-- The expression of a predicate. -/
def Predicate.expr (p : Predicate) : Expr := .list (.atom p.name :: typedItems p.params)

/-- A key with its value, if there is one. -/
def keyed (key : String) (value : Option Expr) : List Expr := value.toList.flatMap fun x => [.atom key, x]

/-- The expression of a schema. -/
def Schema.expr (s : Schema) : Expr :=
  .list (.atom ":action" :: .atom s.name :: .atom ":parameters" :: .list (typedItems s.params) ::
    (keyed ":precondition" s.condition ++ keyed ":effect" s.effect))

/-- A section with a key, unless it is empty. -/
def sectionOf (key : String) (items : List Expr) : List Expr :=
  if items.isEmpty then [] else [.list (.atom key :: items)]

/-- The sections of a domain. -/
def Domain.sections (d : Domain) : List Expr :=
  sectionOf ":requirements" (d.requirements.map .atom) ++ sectionOf ":types" (typedItems d.types) ++
    sectionOf ":constants" (typedItems d.constants) ++
    [.list (.atom ":predicates" :: d.predicates.map Predicate.expr)] ++ d.functions.toList ++ d.schemas.map Schema.expr

/-- The expression of a domain. -/
def Domain.expr (d : Domain) : Expr :=
  .list (.atom "define" :: .list [.atom "domain", .atom d.name] :: d.sections)

/-! ## Texts of expressions -/

theorem Predicate.spells_text {p : Predicate} (h : p.Legible) : Spells p.text.toList p.expr.tokens := by
  unfold Predicate.text
  split
  · rename_i hempty
    have hitems : typedItems p.params = [] := by rw [List.isEmpty_iff.1 hempty]; rfl
    have htext : ("(" ++ p.name ++ ")").toList = '(' :: (p.name.toList ++ [')']) := by simp
    rw [htext, expr, hitems]
    exact .start (.name h.name (parts_cons.2 rfl) (.stop .nil))
  · have htext : ("(" ++ p.name ++ " " ++ typedText p.params ++ ")").toList =
        '(' :: (p.name.toList ++ ' ' :: ((typedText p.params).toList ++ [')'])) := by simp
    rw [htext]
    have hparams := (spells_typedText h.params).append (parts_cons.2 rfl) (.stop .nil)
    exact .start (.name h.name (parts_cons.2 rfl) (.blank rfl hparams))

/-- The line of a key with its value. -/
theorem spells_keyed (first key : String) {value : Option Expr} (hfirst : Spells first.toList [.name key])
    (hgap : Ended first.toList) (h : ∀ x ∈ value, x.Legible) :
    Spells (ofLines (value.map fun x => first ++ x.display).toList).toList (tokensAll (keyed key value)) := by
  cases value with
  | none => exact .nil
  | some x =>
    have hline : Spells (first ++ x.display).toList ([.name key] ++ x.tokens) := by
      rw [String.toList_append]
      exact hfirst.append_of_ended hgap (spells_display x (h x rfl))
    have htokens : tokensAll (keyed key (some x)) = [.name key] ++ x.tokens := by simp [keyed, tokensAll, tokens]
    rw [htokens]
    exact spells_ofLines_singleton hline

theorem Schema.spells_textLines {s : Schema} (h : s.Legible) : Spells (ofLines s.textLines).toList s.expr.tokens := by
  have hname : Spells ("  (:action " ++ s.name).toList ([.start, .name ":action"] ++ [.name s.name]) := by
    rw [String.toList_append]
    exact Spells.append_of_ended (spells_fixed (by decide)) (by decide) (spells_name h.name)
  have hparams : Spells ("    :parameters (" ++ typedText s.params ++ ")").toList
      ([.name ":parameters", .start] ++ tokensAll (typedItems s.params) ++ [.stop]) :=
    spells_between (spells_fixed (by decide)) (by decide) (spells_typedText h.params)
      (spells_fixed (by decide)) (parts_cons.2 rfl)
  have hcondition := spells_keyed "    :precondition " ":precondition" (spells_fixed (by decide))
    (by decide) fun x hx => (h.condition x hx).1
  have heffect := spells_keyed "    :effect " ":effect" (spells_fixed (by decide))
    (by decide) fun x hx => (h.effect x hx).1
  have hend : Spells (ofLines ["  )"]).toList [.stop] := spells_fixed (by decide)
  have hlines := spells_ofLines_append (spells_ofLines_append (spells_ofLines_append
    (spells_ofLines_cons hname (spells_ofLines_singleton hparams)) hcondition) heffect) hend
  refine hlines.of_eq ?_
  simp only [Schema.expr, tokens, tokensAll, tokensAll_append, List.cons_append, List.nil_append, List.append_assoc]

/-- The line of a section, if the section is not empty. -/
theorem spells_section (first key : String) {s : String} {items : List Expr}
    (hfirst : Spells first.toList [.start, .name key]) (hgap : Ended first.toList)
    (hs : Spells s.toList (tokensAll items)) :
    Spells (ofLines (if items.isEmpty then [] else [first ++ s ++ ")"])).toList
      (tokensAll (sectionOf key items)) := by
  unfold sectionOf
  split
  · exact .nil
  · have hend : Spells ")".toList [.stop] := spells_fixed (by decide)
    have hline := spells_ofLines_singleton (spells_between hfirst hgap hs hend (parts_cons.2 rfl))
    refine hline.of_eq ?_
    simp only [tokens, tokensAll, List.cons_append, List.nil_append, List.append_nil]

theorem isEmpty_typedItems (names : List TypedName) : (typedItems names).isEmpty = names.isEmpty := by
  match names with
  | [] => rfl
  | [_] => rfl
  | _ :: _ :: _ => rfl

theorem eq_nil_of_typedItems {names : List TypedName} (h : typedItems names = []) : names = [] := by
  rw [← List.isEmpty_iff, ← isEmpty_typedItems, h]
  rfl

/-- The lines of predicates. -/
theorem spells_predicates {ps : List Predicate} (h : ∀ p ∈ ps, p.Legible) :
    Spells (ofLines (ps.map fun p => "    " ++ p.text)).toList (tokensAll (ps.map Predicate.expr)) := by
  rw [List.map_eq_flatMap]
  refine spells_ofLines_flatMap fun p hp => spells_ofLines_singleton ?_
  rw [String.toList_append]
  exact Spells.blank rfl (.blank rfl (.blank rfl (.blank rfl (Predicate.spells_text (h p hp)))))

/-- The line of the functions of a domain, if there are any. -/
theorem spells_functions {functions : Option Expr} (h : ∀ x ∈ functions, x.Legible) :
    Spells (ofLines (functions.map fun x => "  " ++ x.display).toList).toList (tokensAll functions.toList) := by
  cases functions with
  | none => exact .nil
  | some x =>
    have hline : Spells ("  " ++ x.display).toList (tokensAll [x]) := by
      rw [String.toList_append, tokensAll, tokensAll, List.append_nil]
      exact .blank rfl (.blank rfl (spells_display x (h x rfl)))
    exact spells_ofLines_singleton hline

/-- **The text of a domain has the tokens of its expression.** -/
theorem Domain.spells_text {d : Domain} (h : d.Legible) : Spells d.text.toList d.expr.tokens := by
  have hname : Spells (ofLines ["(define (domain " ++ d.name ++ ")"]).toList
      ([.start, .name "define", .start, .name "domain"] ++ tokensAll [.atom d.name] ++ [.stop]) :=
    spells_ofLines_singleton (spells_between (spells_fixed (by decide)) (by decide) (spells_name h.name)
      (spells_fixed (by decide)) (parts_cons.2 rfl))
  have hrequirements := spells_section "  (:requirements " ":requirements" (spells_fixed (by decide))
    (by decide) (spells_intercalate h.requirements)
  have htypes := spells_section "  (:types " ":types" (spells_fixed (by decide)) (by decide)
    (spells_typedText h.types)
  have hconstants := spells_section "  (:constants " ":constants" (spells_fixed (by decide)) (by decide)
    (spells_typedText h.constants)
  rw [List.isEmpty_map] at hrequirements
  rw [isEmpty_typedItems] at htypes hconstants
  have hopen : Spells (ofLines ["  (:predicates"]).toList [.start, .name ":predicates"] :=
    spells_fixed (by decide)
  have hpredicates := spells_predicates h.predicates
  have hclose : Spells (ofLines ["  )"]).toList [.stop] := spells_fixed (by decide)
  have hfunctions := spells_functions fun x hx => (h.functions x hx).1
  have hschemas : Spells (ofLines (d.schemas.flatMap Schema.textLines)).toList
      (tokensAll (d.schemas.map Schema.expr)) :=
    spells_ofLines_flatMap fun s hs => Schema.spells_textLines (h.schemas s hs)
  have hend : Spells (ofLines [")"]).toList [.stop] := spells_fixed (by decide)
  have hdeclarations := spells_ofLines_append (spells_ofLines_append (spells_ofLines_append hname hrequirements) htypes)
    hconstants
  have hsections := spells_ofLines_append (spells_ofLines_append (spells_ofLines_append
    (spells_ofLines_append hdeclarations hopen) hpredicates) hclose) hfunctions
  have hlines := spells_ofLines_append (spells_ofLines_append hsections hschemas) hend
  refine hlines.of_eq ?_
  simp only [expr, sections, tokens, tokensAll, tokensAll_append, List.cons_append, List.nil_append, List.append_assoc,
    List.append_nil]

/-! ## Reading -/

theorem readNames_map (place : String) (names : List String) : readNames place (names.map .atom) = .ok names := by
  refine mapM_eq_ok.2 ?_
  rw [List.forall₂_map_left_iff]
  exact List.forall₂_same.2 fun _ _ => rfl

/-- A section that is left out if it is empty changes what it changes if it is written. -/
theorem foldlM_sectionOf {δ : Type} (add : δ → Expr → Except Failure δ) {key : String} {items : List Expr} {d d' : δ}
    (hadd : add d (.list (.atom key :: items)) = .ok d') (hempty : items = [] → d = d') :
    (sectionOf key items).foldlM add d = .ok d' := by
  unfold sectionOf
  split
  · rename_i h
    rw [hempty (List.isEmpty_iff.1 h)]
    rfl
  · rw [List.foldlM_cons, hadd]
    rfl

theorem readPredicate_expr {p : Predicate} (h : p.Legible) : readPredicate p.expr = .ok p := by
  rw [Predicate.expr, readPredicate, readTyped_typedItems h.params]
  rfl

theorem readSchemaParts_keyed {s : Schema} (hcondition : s.condition = none) (heffect : s.effect = none)
    {condition effect : Option Expr} (hcond : ∀ x ∈ condition, x ≠ .list []) (heff : ∀ x ∈ effect, x ≠ .list []) :
    readSchemaParts s (keyed ":precondition" condition ++ keyed ":effect" effect) =
      .ok { s with condition := condition, effect := effect } := by
  have hsome {x : Expr} (hx : x ≠ .list []) : nonEmpty x = some x := nonEmpty_eq_some.2 ⟨rfl, hx⟩
  have hend {s : Schema} (heffect : s.effect = none) :
      readSchemaParts s (keyed ":effect" effect) = .ok { s with effect := effect } := by
    cases effect with
    | none => exact congrArg Except.ok (by rw [← heffect])
    | some x =>
      change readSchemaParts s [.atom ":effect", x] = _
      rw [readSchemaParts, readSchemaParts, hsome (heff x rfl)]
  cases condition with
  | none => exact (hend heffect).trans (congrArg Except.ok (by rw [← hcondition]))
  | some x =>
    change readSchemaParts s (.atom ":precondition" :: x :: keyed ":effect" effect) = _
    rw [readSchemaParts, hsome (hcond x rfl)]
    exact hend heffect

/-- The keys of a schema are read as what they were written for. -/
theorem readSchema_expr {s : Schema} (h : s.Legible) : ∃ body, s.expr = .list (.atom ":action" :: body) ∧
    readSchema body = .ok s := by
  refine ⟨_, rfl, ?_⟩
  have hparts := readSchemaParts_keyed (s := { name := s.name, params := s.params }) rfl rfl
    (fun x hx => (h.condition x hx).2) fun x hx => (h.effect x hx).2
  rw [readSchema, readSchemaParts, readTyped_typedItems h.params]
  exact hparts

/-! ### Sections -/

section Sections

variable (d : Domain) (body : List Expr)

theorem addSection_requirements : d.addSection (.list (.atom ":requirements" :: body)) =
    (fun names => { d with requirements := names }) <$> readNames ":requirements" body := rfl

theorem addSection_types : d.addSection (.list (.atom ":types" :: body)) =
    (fun types => { d with types }) <$> readTyped body := rfl

theorem addSection_constants : d.addSection (.list (.atom ":constants" :: body)) =
    (fun constants => { d with constants }) <$> readTyped body := rfl

theorem addSection_predicates : d.addSection (.list (.atom ":predicates" :: body)) =
    (fun predicates => { d with predicates := d.predicates ++ predicates }) <$> body.mapM readPredicate := rfl

theorem addSection_action : d.addSection (.list (.atom ":action" :: body)) =
    (fun schema => { d with schemas := d.schemas ++ [schema] }) <$> readSchema body := rfl

end Sections

theorem foldlM_schemas {d : Domain} {schemas : List Schema} (h : ∀ s ∈ schemas, s.Legible) :
    (schemas.map Schema.expr).foldlM Domain.addSection d = .ok { d with schemas := d.schemas ++ schemas } := by
  induction schemas generalizing d with
  | nil =>
    rw [List.append_nil]
    rfl
  | cons s schemas ih =>
    obtain ⟨hs, hschemas⟩ := List.forall_mem_cons.1 h
    obtain ⟨body, hexpr, hread⟩ := readSchema_expr hs
    rw [List.map_cons, List.foldlM_cons, hexpr, addSection_action, hread]
    refine (ih hschemas).trans ?_
    rw [List.append_assoc, List.singleton_append]

theorem foldlM_append_ok {α δ : Type} {f : δ → α → Except Failure δ} {xs ys : List α} {d d' d'' : δ}
    (hxs : xs.foldlM f d = .ok d') (hys : ys.foldlM f d' = .ok d'') : (xs ++ ys).foldlM f d = .ok d'' := by
  rw [List.foldlM_append, hxs]
  exact hys

/-- **The sections of a domain are read as the domain.** -/
theorem Domain.foldlM_sections {d : Domain} (h : d.Legible) :
    d.sections.foldlM Domain.addSection { name := d.name } = .ok d := by
  have hrequirements : (sectionOf ":requirements" (d.requirements.map .atom)).foldlM Domain.addSection
      { name := d.name } = .ok { name := d.name, requirements := d.requirements } := by
    refine foldlM_sectionOf _ ?_ fun hempty => ?_
    · rw [addSection_requirements, readNames_map]
      rfl
    · rw [List.map_eq_nil_iff.1 hempty]
  have htypes : (sectionOf ":types" (typedItems d.types)).foldlM Domain.addSection
      { name := d.name, requirements := d.requirements } =
        .ok { name := d.name, requirements := d.requirements, types := d.types } := by
    refine foldlM_sectionOf _ ?_ fun hempty => ?_
    · rw [addSection_types, readTyped_typedItems h.types]
      rfl
    · rw [eq_nil_of_typedItems hempty]
  have hconstants : (sectionOf ":constants" (typedItems d.constants)).foldlM Domain.addSection
      { name := d.name, requirements := d.requirements, types := d.types } =
        .ok { name := d.name, requirements := d.requirements, types := d.types, constants := d.constants } := by
    refine foldlM_sectionOf _ ?_ fun hempty => ?_
    · rw [addSection_constants, readTyped_typedItems h.constants]
      rfl
    · rw [eq_nil_of_typedItems hempty]
  have hpredicates : [Expr.list (.atom ":predicates" :: d.predicates.map Predicate.expr)].foldlM Domain.addSection
      { name := d.name, requirements := d.requirements, types := d.types, constants := d.constants } =
        .ok { d with functions := none, schemas := [] } := by
    have hread : (d.predicates.map Predicate.expr).mapM readPredicate = .ok d.predicates := by
      refine mapM_eq_ok.2 ?_
      rw [List.forall₂_map_left_iff]
      exact List.forall₂_same.2 fun p hp => readPredicate_expr (h.predicates p hp)
    rw [List.foldlM_cons, addSection_predicates, hread]
    rfl
  have hfunctions : d.functions.toList.foldlM Domain.addSection { d with functions := none, schemas := [] } =
      .ok { d with schemas := [] } := by
    cases hfunctions : d.functions with
    | none => rfl
    | some x =>
      obtain ⟨body, rfl⟩ := head?_eq_some.1 (h.functions x hfunctions).2
      rfl
  have hschemas := foldlM_schemas (d := { d with schemas := [] }) h.schemas
  exact foldlM_append_ok (foldlM_append_ok (foldlM_append_ok (foldlM_append_ok
    (foldlM_append_ok hrequirements htypes) hconstants) hpredicates) hfunctions) hschemas

end Waymark.Planning
