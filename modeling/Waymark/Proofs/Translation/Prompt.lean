import Mathlib.Tactic
import Waymark.Proofs.Constraint.FormulaText
import Waymark.Proofs.Json.Writer
import Waymark.Proofs.Repetition
import Waymark.Translation.Prompt

/-!
# What a prompt shows

The text of a prompt shows the examples whose formula can be read. Another text tells prompts apart: it says the header
and all examples, whatever stands in them, so prompts of the same digest are the same unless two such texts collide.

* `Prompt.mem_parsed`: the examples whose formula can be read;
* `Prompt.isWord_of_mem_activities`: the activities that the examples name;
* `Prompt.exists_render_eq`: the text of an example;
* `Prompt.canonicalText_eq`, `Prompt.canonicalText_inj`: the text that tells prompts apart;
* `Prompt.NoCollision`, `Prompt.fingerprint_says_prompt`: its digest.
-/

namespace Waymark.Prompt

open Constraint

variable {p : Prompt} {t : Translation} {f : Formula}

theorem mem_parsed : (t, f) ∈ p.parsed ↔ t ∈ p.examples ∧ Formula.read t.formula = .ok f := by
  have hread {t' : Translation} : (Formula.read t'.formula).toOption.map (t', ·) = some (t, f) ↔
      t' = t ∧ Formula.read t.formula = .ok f := by
    rw [Option.map_eq_some_iff, ← toOption_eq_some]
    exact ⟨by rintro ⟨_, hf, ⟨⟩⟩; exact ⟨rfl, hf⟩, by rintro ⟨rfl, hf⟩; exact ⟨f, hf, rfl⟩⟩
  simp [parsed, hread]

/-- The activities that are named are read from texts, and so each is one word. -/
theorem isWord_of_mem_activities {a : String} (ha : a ∈ p.activities) : a ≠ "" ∧ Formula.IsWord a := by
  rw [activities, mem_eraseReps, List.mem_mergeSort] at ha
  obtain ⟨⟨t, f⟩, hf, ha⟩ := List.mem_flatMap.1 ha
  exact ⟨f.ne_empty a ha, Formula.isPlain_of_read (mem_parsed.1 hf).2 a ha⟩

/-- An example is shown with its answer. -/
theorem exists_render_eq (ht : t ∈ p.examples) (hf : Formula.read t.formula = .ok f) (utterance : String) :
    ∃ before after, p.render utterance = before ++ "PATTERN: " ++ answer f ++ "\n\n" ++ after := by
  obtain ⟨xs, ys, hparsed⟩ := List.append_of_mem (mem_parsed.2 ⟨ht, hf⟩)
  let shown (examples : List (Translation × Formula)) := String.join (examples.map fun e => exampleText e.1 e.2)
  have hrender : p.render utterance =
      p.header ++ "\n\n" ++ shown p.parsed ++ "NL: " ++ Text.trimmed utterance ++ "\nPATTERN:" := rfl
  have hshown : shown p.parsed = shown xs ++ (exampleText t f ++ shown ys) := by
    dsimp only [shown]
    rw [hparsed, List.map_append, String.join_append, List.map_cons, String.join_cons]
  have hline : "\nPATTERN: " = "\n" ++ "PATTERN: " := rfl
  refine ⟨p.header ++ "\n\n" ++ shown xs ++ "NL: " ++ Text.trimmed t.utterance ++ "\n",
    shown ys ++ "NL: " ++ Text.trimmed utterance ++ "\nPATTERN:", ?_⟩
  rw [hrender, hshown, exampleText, hline]
  simp only [String.append_assoc]

/-! ## Identity -/

/-- A string in quotes. -/
def inQuotes (s : String) : String := String.ofList (Json.quoted s)

/-- An example in the text that tells prompts apart. -/
def exampleEntry (t : Translation) : String :=
  String.join ["\x7b\"utterance\":", inQuotes t.utterance, ",\"formula\":", inQuotes t.formula,
    ",\"description\":", inQuotes t.description, "\x7d"]

theorem writeTo_encode (t : Translation) (rest : List Char) :
    Json.writeTo rest t.encode = (exampleEntry t).toList ++ rest := by
  have hutterance : "\x7b\"utterance\":".toList = '\x7b' :: Json.quoted "utterance" ++ [':'] := by decide +kernel
  have hformula : ",\"formula\":".toList = ',' :: Json.quoted "formula" ++ [':'] := by decide +kernel
  have hdescription : ",\"description\":".toList = ',' :: Json.quoted "description" ++ [':'] := by decide +kernel
  have hend : "\x7d".toList = ['\x7d'] := by decide +kernel
  rw [exampleEntry, String.toList_join]
  simp only [Translation.encode, Json.writeTo, Json.writeMembers, List.flatMap_cons, List.flatMap_nil, hutterance,
    hformula, hdescription, hend, inQuotes, String.toList_ofList, List.append_assoc, List.cons_append, List.nil_append,
    List.append_nil]

theorem writeItems_encode (ts : List Translation) (rest : List Char) :
    Json.writeItems rest (ts.map Translation.encode) = (",".intercalate (ts.map exampleEntry)).toList ++ rest := by
  have hcomma : ",".toList = [','] := by decide +kernel
  rw [String.toList_intercalate, hcomma]
  induction ts with
  | nil => rfl
  | cons t ts ih =>
    rw [List.map_cons, Json.writeItems_cons, writeTo_encode]
    cases ts with
    | nil => simp [Json.itemsAfter]
    | cons u ts =>
      rw [List.map_cons] at ih ⊢
      rw [Json.itemsAfter, ih]
      simp [List.intercalate_cons_cons]

/-- The text that tells prompts apart has the header and all examples, without blanks between them. -/
theorem canonicalText_eq (p : Prompt) : p.canonicalText = String.join ["\x7b\"header\":", inQuotes p.header,
    ",\"examples\":[", ",".intercalate (p.examples.map exampleEntry), "]\x7d"] := by
  have hheader : "\x7b\"header\":".toList = '\x7b' :: Json.quoted "header" ++ [':'] := by decide +kernel
  have hexamples : ",\"examples\":[".toList = ',' :: Json.quoted "examples" ++ [':', '['] := by decide +kernel
  have hend : "]\x7d".toList = [']', '\x7d'] := by decide +kernel
  apply String.toList_inj.1
  rw [canonicalText, Json.write, String.toList_ofList, String.toList_join]
  simp only [encode, Json.ofList, Json.writeTo, Json.writeMembers, writeItems_encode, List.flatMap_cons,
    List.flatMap_nil, hheader, hexamples, hend, inQuotes, String.toList_ofList, List.append_assoc, List.cons_append,
    List.nil_append, List.append_nil]

theorem isTextual_encode (p : Prompt) : p.encode.isTextual = true := by
  have hexamples : Json.allTextual (p.examples.map Translation.encode) = true :=
    Json.allTextual_of_forall (List.forall_mem_map.2 fun _ _ => rfl)
  simp [encode, Json.ofList, Json.isTextual, Json.membersTextual, hexamples]

theorem encode_injective : Function.Injective encode := by
  have hexample : Function.Injective Translation.encode := by
    intro t u h
    cases t
    cases u
    simpa [Translation.encode] using h
  intro p q h
  simp only [encode, Json.ofList, Json.object.injEq, List.cons.injEq, Prod.mk.injEq, true_and, and_true,
    Json.text.injEq, Json.array.injEq] at h
  obtain ⟨hheader, hexamples⟩ := h
  cases p
  cases q
  congr
  exact hexample.list_map hexamples

/-- **The text of a prompt says the prompt.** -/
theorem canonicalText_inj {q : Prompt} (h : p.canonicalText = q.canonicalText) : p = q :=
  encode_injective (Json.write_inj (isTextual_encode p) (isTextual_encode q) h)

/-- No two of these prompts have different texts with the same digest. -/
def NoCollision (prompts : List Prompt) : Prop :=
  ∀ p ∈ prompts, ∀ q ∈ prompts, Digest.sha256 p.canonicalText.toUTF8 = Digest.sha256 q.canonicalText.toUTF8 →
    p.canonicalText = q.canonicalText

/-- **A prompt is its fingerprint.** What is digested is the header and all examples, without blanks, in strings where
only quotes, backslashes and control characters are escaped. Prompts with the same text have the same header and the
same examples, and so have prompts with the same digest, as long as digests do not collide. -/
theorem fingerprint_says_prompt :
    (∀ p : Prompt, p.canonicalText = String.join ["\x7b\"header\":", inQuotes p.header, ",\"examples\":[",
      ",".intercalate (p.examples.map exampleEntry), "]\x7d"]) ∧
    (∀ c, Json.quotedChar c = [c] ↔ Json.Plain c) ∧
    (∀ p q : Prompt, p.canonicalText = q.canonicalText ↔ p.header = q.header ∧ p.examples = q.examples) ∧
    ∀ p q : Prompt, NoCollision [p, q] →
      (p.fingerprint = q.fingerprint ↔ p.header = q.header ∧ p.examples = q.examples) := by
  have hsame {p q : Prompt} : p = q ↔ p.header = q.header ∧ p.examples = q.examples := by
    cases p
    cases q
    simp
  have htext {p q : Prompt} : p.canonicalText = q.canonicalText ↔ p.header = q.header ∧ p.examples = q.examples :=
    ⟨fun h => hsame.1 (canonicalText_inj h), fun h => congrArg canonicalText (hsame.2 h)⟩
  refine ⟨canonicalText_eq, fun _ => Json.quotedChar_eq_iff, fun _ _ => htext, fun p q hcollide => ⟨fun h => ?_, ?_⟩⟩
  · have hdigest := Digest.sha256Hex_eq_iff.1 h
    exact htext.1 (hcollide p List.mem_cons_self q (List.mem_cons_of_mem _ List.mem_cons_self) hdigest)
  · exact fun h => congrArg fingerprint (hsame.2 h)

/-- A prompt without examples. -/
def brief : Prompt where
  header := "h"

/-- A prompt whose header imitates what stands after the header of the other one. -/
def imitated : Prompt where
  header := "h\",\"examples\":["

/-- What imitates a field is none. -/
theorem fingerprint_says_prompt_imitated : NoCollision [brief, imitated] ∧
    brief.fingerprint ≠ imitated.fingerprint := by
  have hother : Digest.sha256 brief.canonicalText.toByteArray ≠ Digest.sha256 imitated.canonicalText.toByteArray := by
    decide +kernel
  have hcollide : NoCollision [brief, imitated] := by
    simp [NoCollision, hother, hother.symm]
  refine ⟨hcollide, fun h => ?_⟩
  have hheader := ((fingerprint_says_prompt.2.2.2 brief imitated hcollide).1 h).1
  exact absurd hheader (by decide)

end Waymark.Prompt
