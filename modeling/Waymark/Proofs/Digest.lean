import Mathlib.Tactic
import Waymark.Digest

/-!
# Codes that can be told apart

Things that are written one after another can be read again if each of them can be told from what follows it. Numbers
of a fixed width can, and so can a thing of any length after its length or before a mark that it does not begin with.
The text of a digest says the digest.

* `Delimited`: a code that can be told from what follows it;
* `Delimited.headed`, `Delimited.flatMap`: a thing after its key, and a list of things of known length;
* `Delimited.closed`: a list of things before a mark;
* `delimited_littleEndian`, `delimited_bigEndian`: numbers of a fixed width;
* `sha256Hex_eq_iff`: digests and their texts.
-/

namespace Waymark.Digest

/-! ## Codes -/

section Codes

variable {α β γ : Type} {p : α → Prop} {code : α → List β}

/-- Of the things with the property, at most one can be read off the front of a sequence. -/
def Delimited (p : α → Prop) (code : α → List β) : Prop :=
  ∀ ⦃a b : α⦄ ⦃xs ys : List β⦄, p a → p b → code a ++ xs = code b ++ ys → a = b ∧ xs = ys

theorem Delimited.injective (h : Delimited p code) {a b : α} (ha : p a) (hb : p b) (heq : code a = code b) : a = b :=
  (h ha hb (congrArg (· ++ []) heq)).1

/-- Codes of one length can be told from what follows if they can be told from each other. -/
theorem delimited_of_length {n : Nat} (hlength : ∀ a, p a → (code a).length = n)
    (hcode : ∀ a b, p a → p b → code a = code b → a = b) : Delimited p code := by
  intro a b xs ys ha hb heq
  obtain ⟨hab, hrest⟩ := List.append_inj heq ((hlength a ha).trans (hlength b hb).symm)
  exact ⟨hcode a b ha hb hab, hrest⟩

/-- Codes can be told from what follows if none of them begins with another. -/
theorem delimited_of_isPrefix (hcode : ∀ a b, p a → p b → code a <+: code b → a = b) : Delimited p code := by
  intro a b xs ys ha hb heq
  have hpre : code a <+: code b ++ ys := heq ▸ List.prefix_append (code a) xs
  obtain rfl : a = b := by
    rcases List.prefix_or_prefix_of_prefix hpre (List.prefix_append (code b) ys) with h | h
    · exact hcode a b ha hb h
    · exact (hcode b a hb ha h).symm
  exact ⟨rfl, List.append_cancel_left heq⟩

/-- A thing can stand after a key that says all that is needed to read it. -/
theorem Delimited.headed {q : γ → Prop} {head : γ → List β} {key : α → γ} (hhead : Delimited q head)
    (hcode : ∀ k, Delimited (fun a => p a ∧ key a = k) code) :
    Delimited (fun a => q (key a) ∧ p a) fun a => head (key a) ++ code a := by
  intro a b xs ys ⟨hqa, hpa⟩ ⟨hqb, hpb⟩ heq
  rw [List.append_assoc, List.append_assoc] at heq
  obtain ⟨hkey, hrest⟩ := hhead hqa hqb heq
  exact hcode (key b) ⟨hpa, hkey⟩ ⟨hpb, rfl⟩ hrest

/-- Any known number of things can be written one after another. -/
theorem Delimited.flatMap (h : Delimited p code) (n : Nat) :
    Delimited (fun as : List α => (∀ a ∈ as, p a) ∧ as.length = n) (·.flatMap code) := by
  intro as bs xs ys ⟨has, hlas⟩ ⟨hbs, hlbs⟩ heq
  induction as generalizing bs n with
  | nil =>
    obtain rfl : bs = [] := List.length_eq_zero_iff.1 (hlbs.trans hlas.symm)
    exact ⟨rfl, heq⟩
  | cons a as ih =>
    cases bs with
    | nil => exact absurd (hlbs.trans hlas.symm) (Nat.zero_ne_add_one _)
    | cons b bs =>
      simp only [List.flatMap_cons, List.append_assoc] at heq
      obtain ⟨ha, has⟩ := List.forall_mem_cons.1 has
      obtain ⟨hb, hbs⟩ := List.forall_mem_cons.1 hbs
      obtain ⟨hab, hrest⟩ := h ha hb heq
      obtain ⟨htail, hrest⟩ := ih as.length has rfl hbs (Nat.succ.inj (hlbs.trans hlas.symm)) hrest
      exact ⟨congrArg₂ _ hab htail, hrest⟩

/-- Any number of things can be written before a mark with which none of them begins. -/
theorem Delimited.closed (h : Delimited p code) (mark : β) (hmark : ∀ a, p a → ∀ xs ys, code a ++ xs ≠ mark :: ys) :
    Delimited (fun as : List α => ∀ a ∈ as, p a) fun as => as.flatMap code ++ [mark] := by
  intro as bs xs ys has hbs heq
  induction as generalizing bs with
  | nil =>
    cases bs with
    | nil => exact ⟨rfl, List.append_cancel_left heq⟩
    | cons b bs =>
      simp only [List.flatMap_nil, List.nil_append, List.flatMap_cons, List.append_assoc, List.singleton_append] at heq
      exact absurd heq.symm (hmark b (hbs b List.mem_cons_self) _ _)
  | cons a as ih =>
    cases bs with
    | nil =>
      simp only [List.flatMap_nil, List.nil_append, List.flatMap_cons, List.append_assoc, List.singleton_append] at heq
      exact absurd heq (hmark a (has a List.mem_cons_self) _ _)
    | cons b bs =>
      obtain ⟨ha, has⟩ := List.forall_mem_cons.1 has
      obtain ⟨hb, hbs⟩ := List.forall_mem_cons.1 hbs
      simp only [List.flatMap_cons, List.append_assoc] at heq
      obtain ⟨hab, hlater⟩ := h ha hb heq
      obtain ⟨htail, hrest⟩ := ih has hbs (by simpa only [List.append_assoc] using hlater)
      exact ⟨congrArg₂ _ hab htail, hrest⟩

end Codes

/-! ## Numbers -/

@[simp] theorem length_littleEndian (count n : Nat) : (littleEndian count n).length = count := by
  simp [littleEndian]

theorem littleEndian_succ (count n : Nat) :
    littleEndian (count + 1) n = n.toUInt8 :: littleEndian count (n / 256) := by
  have hshift (i : Nat) : n / 256 ^ (i + 1) = n / 256 / 256 ^ i := by
    rw [Nat.pow_succ', Nat.div_div_eq_div_mul]
  simp [littleEndian, List.range_succ_eq_map, hshift]

theorem bigEndian_eq_reverse (count n : Nat) : bigEndian count n = (littleEndian count n).reverse := by
  unfold bigEndian littleEndian
  refine List.ext_getElem (by simp) fun i _ _ => ?_
  simp

/-- As many bytes as a number needs say the number. -/
theorem littleEndian_inj {count m n : Nat} (hm : m < 256 ^ count) (hn : n < 256 ^ count)
    (h : littleEndian count m = littleEndian count n) : m = n := by
  induction count generalizing m n with
  | zero => omega
  | succ count ih =>
    rw [littleEndian_succ, littleEndian_succ] at h
    obtain ⟨hlow, hhigh⟩ := List.cons.inj h
    have hmod : m % 256 = n % 256 := by simpa using congrArg UInt8.toNat hlow
    have hdiv : m / 256 = n / 256 := ih (by omega) (by omega) hhigh
    omega

theorem delimited_littleEndian (count : Nat) : Delimited (· < 256 ^ count) (littleEndian count) :=
  delimited_of_length (fun n _ => length_littleEndian count n) fun _ _ => littleEndian_inj

theorem delimited_bigEndian (count : Nat) : Delimited (· < 256 ^ count) (bigEndian count) :=
  delimited_of_length (n := count) (fun n _ => by simp [bigEndian]) fun m n hm hn h => by
    rw [bigEndian_eq_reverse, bigEndian_eq_reverse, List.reverse_inj] at h
    exact littleEndian_inj hm hn h

/-! ## Digests -/

theorem hexDigit_inj : ∀ m < 16, ∀ n < 16, Text.hexDigit m = Text.hexDigit n → m = n := by decide

/-- Two digits say a byte. -/
theorem delimited_hexDigits : Delimited (fun _ => True) fun b : UInt8 =>
    [Text.hexDigit (b.toNat / 16), Text.hexDigit (b.toNat % 16)] := by
  refine delimited_of_length (n := 2) (fun _ _ => rfl) fun a b _ _ h => ?_
  obtain ⟨hhigh, hlow⟩ : _ ∧ _ := by simpa using h
  have ha := a.toNat_lt
  have hb := b.toNat_lt
  have hdiv := hexDigit_inj _ (by omega) _ (by omega) hhigh
  have hmod := hexDigit_inj _ (by omega) _ (by omega) hlow
  exact UInt8.toNat_inj.1 (by omega)

theorem delimited_hexWord : Delimited (fun _ => True) hexWord := by
  intro v w xs ys _ _ heq
  have hbytes (u : UInt32) : (∀ b ∈ bigEndian 4 u.toNat, True) ∧ (bigEndian 4 u.toNat).length = 4 :=
    ⟨fun _ _ => trivial, by simp [bigEndian]⟩
  obtain ⟨hvw, hrest⟩ := delimited_hexDigits.flatMap 4 (hbytes v) (hbytes w) heq
  exact ⟨UInt32.toNat_inj.1 ((delimited_bigEndian 4).injective v.toNat_lt w.toNat_lt hvw), hrest⟩

/-- **The text of a digest** says the digest. -/
theorem sha256Hex_eq_iff {x y : ByteArray} : sha256Hex x = sha256Hex y ↔ sha256 x = sha256 y := by
  constructor
  · intro h
    have hwords (z : ByteArray) : (∀ w ∈ sha256 z, True) ∧ (sha256 z).length = 8 := ⟨fun _ _ => trivial, rfl⟩
    exact (delimited_hexWord.flatMap 8).injective (hwords x) (hwords y) (String.ofList_injective h)
  · intro h
    rw [sha256Hex, h, sha256Hex]

end Waymark.Digest
