import Mathlib.Data.Nat.Digits.Defs
import TickTree.Npc.Config
import TickTree.Text.Lowercase
/-! What texts read as settings of the sample program: numbers in decimal digits, and words for yes
and no in any mixture of capitals and small letters. No letter outside ASCII has a small letter that
stands in one of these words. -/
namespace TickTree

namespace Npc

/-! ### Numbers -/

def spelled (ds : List Char) : Nat := Nat.ofDigits 10 (ds.reverse.map fun c => c.toNat - '0'.toNat)

theorem spelled_cons (c : Char) (ds : List Char) :
    spelled (c :: ds) = (c.toNat - '0'.toNat) * 10 ^ ds.length + spelled ds := by
  rw [spelled, List.reverse_cons, List.map_append, Nat.ofDigits_append, List.length_map,
    List.length_reverse, List.map_singleton, Nat.ofDigits_singleton, ← spelled]
  ring

theorem digits?_eq (n : Nat) (cs : List Char) : digits? n cs =
    if cs.all Char.isDigit then some (n * 10 ^ cs.length + spelled cs) else none := by
  induction cs generalizing n with
  | nil => simp [digits?, spelled]
  | cons c cs ih =>
    have hdigit : ('0' ≤ c && c ≤ '9') = c.isDigit := rfl
    rw [digits?, hdigit, ih, spelled_cons, List.length_cons, List.all_cons]
    cases c.isDigit with
    | false => rfl
    | true =>
      rw [Bool.true_and, if_pos rfl, show (10 * n + (c.toNat - '0'.toNat)) * 10 ^ cs.length =
        n * 10 ^ (cs.length + 1) + (c.toNat - '0'.toNat) * 10 ^ cs.length by ring, Nat.add_assoc]

theorem digits?_zero_eq_some {ds : List Char} {n : Nat} :
    digits? 0 ds = some n ↔ (∀ c ∈ ds, c.isDigit = true) ∧ n = spelled ds := by
  rw [digits?_eq, ← List.all_eq_true, Nat.zero_mul, Nat.zero_add]
  split
  · next h => simp [h, eq_comm]
  · next h => simp [h]

theorem natural?_eq_some {cs : List Char} {n : Nat} :
    natural? cs = some n ↔ ∃ ds, (cs = ds ∨ cs = '+' :: ds) ∧ ds ≠ [] ∧
      (∀ c ∈ ds, c.isDigit = true) ∧ n = spelled ds := by
  rw [natural?.eq_def]
  split
  · simp
  · next ds =>
    constructor
    · intro h
      split at h
      · cases h
      · next hds => exact ⟨ds, .inr rfl, by simpa using hds, digits?_zero_eq_some.mp h⟩
    · rintro ⟨_, rfl | h, hne, hdigits, rfl⟩
      · exact absurd (hdigits '+' (by simp)) (by decide)
      · obtain rfl := (List.cons.inj h).2
        rw [if_neg (by simpa using hne)]
        exact digits?_zero_eq_some.mpr ⟨hdigits, rfl⟩
  · next hne hplus =>
    constructor
    · exact fun h => ⟨cs, .inl rfl, hne, digits?_zero_eq_some.mp h⟩
    · rintro ⟨ds, rfl | rfl, -, hdigits⟩
      · exact digits?_zero_eq_some.mpr hdigits
      · exact absurd rfl (hplus ds)

theorem number?_eq_some {s : String} {n : UInt64} :
    number? s = some n ↔ ∃ ds, (s.toList = ds ∨ s.toList = '+' :: ds) ∧ ds ≠ [] ∧
      (∀ c ∈ ds, c.isDigit = true) ∧ n.toNat = spelled ds := by
  rw [← natural?_eq_some, number?, Option.bind_eq_some_iff]
  constructor
  · rintro ⟨k, hk, h⟩
    split at h
    · next hsize =>
      cases h
      rwa [show k.toUInt64.toNat = k from Nat.mod_eq_of_lt hsize]
    · cases h
  · intro h
    refine ⟨n.toNat, h, ?_⟩
    rw [if_pos n.toNat_lt_size]
    simp

/-! ### Words -/

def Plain (c : Char) : Prop := c.toNat < 128 ∧ c ≠ 'k' ∧ c ≠ 'i'

instance (c : Char) : Decidable (Plain c) := inferInstanceAs (Decidable (_ ∧ _ ∧ _))

/-- A way to lower a character: ASCII as usual, and other letters to something that does not begin
with a plain letter. -/
structure Lowers (c : Char) (ds : List Char) : Prop where
  ascii : c.toNat < 128 → ds = [c.toLower]
  other : 128 ≤ c.toNat → ∃ d ds', ds = d :: ds' ∧ ¬ Plain d

theorem toLower_of_le {c : Char} (h : 128 ≤ c.toNat) : c.toLower = c := by
  have hval : 128 ≤ c.val.toNat := h
  refine dif_neg fun hupper => ?_
  have hle := UInt32.le_iff_toNat_le.mp hupper.2
  change c.val.toNat ≤ 90 at hle
  omega

/-- A text comes to a word of plain letters only if it differs from it in ASCII capitals alone. -/
theorem lowered_eq_iff {F : List Char → List Char → List Char}
    {L : List Char → Char → List Char → List Char} (hnil : ∀ b, F b [] = [])
    (hcons : ∀ b c cs, F b (c :: cs) = L b c cs ++ F (c :: b) cs)
    (hL : ∀ b c cs, Lowers c (L b c cs)) {word : List Char} (hword : ∀ c ∈ word, Plain c)
    (b cs : List Char) : F b cs = word ↔ cs.map Char.toLower = word := by
  induction cs generalizing b word with
  | nil => rw [hnil, List.map_nil]
  | cons c cs ih =>
    obtain ⟨hascii, hother⟩ := hL b c cs
    rw [hcons, List.map_cons]
    rcases Nat.lt_or_ge c.toNat 128 with hc | hc
    · rw [hascii hc, List.singleton_append]
      cases word with
      | nil => simp
      | cons d word =>
        obtain ⟨-, hword⟩ := List.forall_mem_cons.mp hword
        rw [List.cons.injEq, List.cons.injEq, ih hword]
    · -- neither side begins with a letter of the word
      obtain ⟨d, ds, hds, hd⟩ := hother hc
      rw [hds, toLower_of_le hc]
      constructor
      · rintro rfl
        exact absurd (hword d (by simp)) hd
      · rintro rfl
        exact absurd (hword c (by simp)).1 (by omega)

theorem lowers_lower (c : Char) : Lowers c (lower c) := by
  have hkelvin : (Char.ofNat 0x212a).toNat = 0x212a := by decide
  have hdotted : (Char.ofNat 0x130).toNat = 0x130 := by decide
  rw [lower]
  split
  · next h =>
    subst h
    exact ⟨fun h => by omega, fun _ => ⟨_, _, rfl, fun h => h.2.1 rfl⟩⟩
  · split
    · next h =>
      subst h
      exact ⟨fun h => by omega, fun _ => ⟨_, _, rfl, fun h => h.2.2 rfl⟩⟩
    · refine ⟨fun _ => rfl, fun h => ⟨_, _, rfl, fun hplain => ?_⟩⟩
      have hsmall := hplain.1
      rw [toLower_of_le h] at hsmall
      omega

end Npc

namespace Text
open Npc (Lowers Plain)

/-- What the small letters of the capitals outside ASCII are: that of the Kelvin sign is the letter
k, and the others are outside ASCII. -/
theorem capitals_spec : ∀ r ∈ capitals, r.2.1 < 128 ∨ (r.1 = 0x212a ∧ r.2.1 = 0x212a ∧
    r.2.2.2 = 'k'.toNat) ∨ 128 ≤ r.2.2.2 ∧ (r.2.2.2 + (r.2.1 - r.1) < 0xd800 ∨
      0xe000 ≤ r.2.2.2 ∧ r.2.2.2 + (r.2.1 - r.1) < 0x110000) := by
  decide +kernel

theorem small?_spec {n k : Nat} (hn : 128 ≤ n) (h : small? n = some k) :
    k = 'k'.toNat ∨ 128 ≤ k ∧ k.isValidChar := by
  obtain ⟨⟨first, last, step, small⟩, hfind, rfl⟩ := Option.map_eq_some_iff.mp h
  have hrow := capitals_spec _ (List.mem_of_find?_eq_some hfind)
  have hcovers := List.find?_some hfind
  simp only [covers, Bool.and_eq_true, decide_eq_true_eq] at hcovers hrow
  simp only [Nat.isValidChar]
  omega

theorem small?_ascii {n : Nat} (hn : n < 128) :
    small? n = if 0x41 ≤ n ∧ n ≤ 0x5a then some (0x61 + (n - 0x41)) else none := by
  have hcapitals : capitals = (0x41, 0x5a, 1, 0x61) :: capitals.tail := rfl
  have htail : ∀ r ∈ capitals.tail, 128 ≤ r.1 := by decide +kernel
  have hnone : capitals.tail.find? (covers n) = none := by
    refine List.find?_eq_none.mpr fun r hr => ?_
    have hfirst := htail r hr
    simp only [covers, Bool.and_eq_true, decide_eq_true_eq]
    omega
  have hfirst : covers n (0x41, 0x5a, 1, 0x61) = decide (0x41 ≤ n ∧ n ≤ 0x5a) := by
    simp [covers, Nat.mod_one]
  rw [small?, hcapitals, List.find?_cons, hnone, hfirst]
  by_cases h : 0x41 ≤ n ∧ n ≤ 0x5a
  · rw [decide_eq_true h, if_pos h]
    rfl
  · rw [decide_eq_false h, if_neg h]
    rfl

theorem lowers_lowerOne (c : Char) : Lowers c (lowerOne c) := by
  constructor
  · intro h
    have hne : c ≠ Char.ofNat 0x130 := by
      rintro rfl
      exact absurd h (by decide)
    have hall : ∀ n < 128, ((if 0x41 ≤ n ∧ n ≤ 0x5a then some (0x61 + (n - 0x41)) else none).map
        Char.ofNat).getD (Char.ofNat n) = (Char.ofNat n).toLower := by
      decide +kernel
    have hc := hall c.toNat h
    rw [Char.ofNat_toNat] at hc
    rw [lowerOne, if_neg hne, small?_ascii h, hc]
  · intro h
    rw [lowerOne]
    split
    · exact ⟨_, _, rfl, fun h => h.2.2 rfl⟩
    · refine ⟨_, _, rfl, fun hplain => ?_⟩
      cases hsmall : small? c.toNat with
      | none =>
        rw [hsmall] at hplain
        exact absurd hplain.1 (Nat.not_lt.mpr h)
      | some k =>
        rw [hsmall] at hplain
        obtain rfl | ⟨hk, hvalid⟩ := small?_spec h hsmall
        · exact hplain.2.1 rfl
        · have hnat : (Char.ofNat k).toNat = k := by
            rw [Char.ofNat, dif_pos hvalid]
            rfl
          have hlow : (Char.ofNat k).toNat < 128 := hplain.1
          omega

theorem lowers_lowercase (final : List Char → List Char → Bool) (before : List Char) (c : Char)
    (after : List Char) :
    Lowers c (if c = 'Σ' ∧ final before after then ['ς'] else lowerOne c) := by
  split
  · next h =>
    obtain ⟨rfl, -⟩ := h
    exact ⟨fun h => absurd h (by decide), fun _ => ⟨_, _, rfl, fun h => absurd h.1 (by decide)⟩⟩
  · exact lowers_lowerOne c

end Text

namespace Npc

def spellings : Bool → List String
  | true => ["true", "1", "yes", "on"]
  | false => ["false", "0", "no", "off"]

theorem plain_of_spelling {b : Bool} {word : String} (h : word ∈ spellings b) :
    ∀ c ∈ word.toList, Plain c := by
  have hall : ∀ word ∈ spellings b, ∀ c ∈ word.toList, Plain c := by
    cases b <;> simp [spellings, Plain]
  exact hall word h

theorem toList_toLower (s : String) : s.toLower.toList = s.toList.map Char.toLower :=
  String.toList_map

section Words
variable {b : Bool} {t s : String}

theorem mem_spellings_congr (h : ∀ word ∈ spellings b, t = word ↔ s = word) :
    t ∈ spellings b ↔ s ∈ spellings b :=
  ⟨fun ht => (h t ht).mp rfl ▸ ht, fun hs => (h s hs).mpr rfl ▸ hs⟩

theorem lowercase_mem_spellings (final : List Char → List Char → Bool) (s : String) :
    String.ofList (Text.lowercase final [] s.toList) ∈ spellings b ↔ s.toLower ∈ spellings b := by
  refine mem_spellings_congr fun word h => ?_
  rw [← String.toList_inj, ← String.toList_inj, String.toList_ofList, toList_toLower]
  exact lowered_eq_iff (fun _ => rfl) (fun _ _ _ => rfl) (Text.lowers_lowercase final)
    (plain_of_spelling h) [] s.toList

theorem flatMap_lower_mem_spellings (s : String) :
    String.ofList (s.toList.flatMap lower) ∈ spellings b ↔ s.toLower ∈ spellings b := by
  refine mem_spellings_congr fun word h => ?_
  rw [← String.toList_inj, ← String.toList_inj, String.toList_ofList, toList_toLower]
  exact lowered_eq_iff (F := fun _ cs => cs.flatMap lower) (L := fun _ c _ => lower c)
    (fun _ => rfl) (fun _ _ _ => List.flatMap_cons) (fun _ c _ => lowers_lower c)
    (plain_of_spelling h) [] s.toList

theorem switch?_eq_some : switch? s = some b ↔ s.toLower ∈ spellings b := by
  have hapart : ∀ word ∈ spellings false, word ∉ spellings true := by decide
  rw [← flatMap_lower_mem_spellings, switch?]
  generalize String.ofList (s.toList.flatMap lower) = word
  change (if word ∈ spellings true then some true else
    if word ∈ spellings false then some false else none) = some b ↔ _
  cases b with
  | true => split <;> simp [*]
  | false =>
    split
    · next h => simpa using fun h' => hapart word h' h
    · split <;> simp [*]

end Words
end Npc
end TickTree
