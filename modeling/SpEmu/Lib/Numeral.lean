import Mathlib.Algebra.Group.Nat.Defs
import SpEmu.Lib.Text

/-!
# Numbers in a text

How an unsigned integer is read from a text of digits in a radix up to 16: an optional plus sign,
at least one digit, and a value that fits the width. `parseUInt` gives `none` for everything else.

The two kinds of facts are what it gives on the decimal text of a number (`parseUInt_toDigits`) and
which texts it refuses: one with a character that is no digit (`parseUInt_of_not_digit`).
-/

set_option autoImplicit false

namespace Numeral

/-- The value of a digit, if it is one in the radix. -/
def toDigit (radix : Nat) (c : Char) : Option Nat :=
  let v :=
    if '0' ≤ c ∧ c ≤ '9' then some (c.toNat - '0'.toNat)
    else if 'a' ≤ c ∧ c ≤ 'f' then some (c.toNat - 'a'.toNat + 10)
    else if 'A' ≤ c ∧ c ≤ 'F' then some (c.toNat - 'A'.toNat + 10)
    else none
  v.filter (· < radix)

/-- The number that the digits write after `acc`. -/
def readDigits (radix : Nat) : (acc : Nat) → List Char → Option Nat
  | acc, [] => some acc
  | acc, c :: cs => (toDigit radix c).bind fun d => readDigits radix (acc * radix + d) cs

def dropPlus : List Char → List Char
  | '+' :: cs => cs
  | cs => cs

/-- An unsigned integer of `width` bits. -/
def parseUInt (radix width : Nat) (s : List Char) : Option Nat :=
  if dropPlus s = [] then none else (readDigits radix 0 (dropPlus s)).filter (· < 2 ^ width)

theorem dropPlus_cons {c : Char} (h : c ≠ '+') (cs : List Char) : dropPlus (c :: cs) = c :: cs := by
  rw [dropPlus]
  rintro ds ⟨⟩
  exact h rfl

theorem readDigits_of_not_digit {radix : Nat} {s : List Char} {c : Char} (hc : c ∈ s)
    (hd : toDigit radix c = none) (acc : Nat) : readDigits radix acc s = none := by
  induction s generalizing acc with
  | nil => exact absurd hc List.not_mem_nil
  | cons a cs ih =>
      rcases List.mem_cons.mp hc with rfl | hmem
      · rw [readDigits, hd, Option.bind_none]
      · rw [readDigits]
        cases toDigit radix a with
        | none => rfl
        | some d => exact ih hmem _

/-- A text with a character that is neither a digit nor a leading plus sign is no number. -/
theorem parseUInt_of_not_digit {radix width : Nat} {s : List Char} {c : Char} (hc : c ∈ s)
    (hplus : c ≠ '+') (hd : toDigit radix c = none) : parseUInt radix width s = none := by
  have hmem : c ∈ dropPlus s := by
    unfold dropPlus
    split
    · exact (List.mem_cons.mp hc).resolve_left hplus
    · exact hc
  rw [parseUInt, readDigits_of_not_digit hmem hd]
  split_ifs <;> rfl

theorem isSome_readDigits_iff {radix : Nat} (s : List Char) (acc : Nat) :
    (readDigits radix acc s).isSome ↔ ∀ c ∈ s, (toDigit radix c).isSome := by
  induction s generalizing acc with
  | nil => exact iff_of_true rfl (List.forall_mem_nil _)
  | cons c cs ih =>
      rw [readDigits, List.forall_mem_cons]
      cases toDigit radix c with
      | none => exact iff_of_false Bool.false_ne_true fun h => Bool.false_ne_true h.1
      | some d =>
          rw [Option.bind_some, ih]
          exact (and_iff_right rfl).symm

theorem toDigit_lt {radix d : Nat} {c : Char} (h : toDigit radix c = some d) : d < radix := by
  have hfilter := (Option.filter_eq_some_iff.mp h).2
  simpa using hfilter

/-- A text of `n` digits writes a number below `radix ^ n`. -/
theorem readDigits_lt {radix : Nat} {s : List Char} {acc v : Nat}
    (h : readDigits radix acc s = some v) : v < (acc + 1) * radix ^ s.length := by
  induction s generalizing acc with
  | nil =>
      cases h
      rw [List.length_nil, Nat.pow_zero, Nat.mul_one]
      exact Nat.lt_succ_self v
  | cons c cs ih =>
      obtain ⟨d, hd, hrest⟩ := Option.bind_eq_some_iff.mp h
      have hstep : acc * radix + d + 1 ≤ (acc + 1) * radix := by
        have hlt := toDigit_lt hd
        rw [Nat.add_mul, Nat.one_mul]
        omega
      calc v < (acc * radix + d + 1) * radix ^ cs.length := ih hrest
        _ ≤ (acc + 1) * radix * radix ^ cs.length := Nat.mul_le_mul_right _ hstep
        _ = (acc + 1) * radix ^ (c :: cs).length := by
          rw [List.length_cons, Nat.pow_succ', Nat.mul_assoc]

/-- A text that is short for the width is a number if it has digits only, after a plus sign. -/
theorem isSome_parseUInt_iff {radix width : Nat} {s : List Char}
    (hlen : radix ^ (dropPlus s).length ≤ 2 ^ width) : (parseUInt radix width s).isSome ↔
      dropPlus s ≠ [] ∧ ∀ c ∈ dropPlus s, (toDigit radix c).isSome := by
  rw [parseUInt]
  by_cases hnil : dropPlus s = []
  · rw [if_pos hnil]
    exact iff_of_false Bool.false_ne_true fun h => h.1 hnil
  · rw [if_neg hnil, ← isSome_readDigits_iff (dropPlus s) 0, and_iff_right hnil]
    cases hread : readDigits radix 0 (dropPlus s) with
    | none => rfl
    | some v =>
        have hlt : v < 2 ^ width := by
          have hbound := readDigits_lt hread
          rw [Nat.zero_add, Nat.one_mul] at hbound
          exact Nat.lt_of_lt_of_le hbound hlen
        rw [Option.filter_some, if_pos (by simpa using hlt)]

/-! ## The decimal text of a number -/

theorem readDigits_append (radix acc : Nat) (s t : List Char) :
    readDigits radix acc (s ++ t) = (readDigits radix acc s).bind (readDigits radix · t) := by
  induction s generalizing acc with
  | nil => rfl
  | cons c cs ih =>
      rw [List.cons_append, readDigits, readDigits]
      cases toDigit radix c with
      | none => rfl
      | some d => exact ih _

/-! A radix up to 16. -/

section Radix

variable {radix : Nat} (hone : 1 < radix) (hr : radix ≤ 16)

include hr

theorem toDigit_digitChar {d : Nat} (h : d < radix) : toDigit radix d.digitChar = some d := by
  have hd : d < 16 := Nat.lt_of_lt_of_le h hr
  have hvalue : ∀ e < 16, (toDigit 16 e.digitChar) = some e := by decide
  have hfilter : toDigit radix d.digitChar = (toDigit 16 d.digitChar).filter (· < radix) := by
    rw [toDigit, toDigit, Option.filter_filter]
    congr 1
    funext v
    have hle : v < radix → v < 16 := fun hv => Nat.lt_of_lt_of_le hv hr
    simpa using hle
  rw [hfilter, hvalue d hd, Option.filter_some, if_pos (by simpa using h)]

include hone

theorem readDigits_toDigits (n : Nat) : readDigits radix 0 (Nat.toDigits radix n) = some n := by
  induction n using Nat.strongRecOn with
  | ind n ih =>
      have hpos : 0 < radix := Nat.lt_trans Nat.zero_lt_one hone
      rcases Nat.lt_or_ge n radix with h | h
      · rw [Nat.toDigits_of_lt_base h, readDigits, toDigit_digitChar hr h, Option.bind_some,
          readDigits, Nat.zero_mul, Nat.zero_add]
      · have hless : n / radix < n := Nat.div_lt_self (Nat.lt_of_lt_of_le hpos h) hone
        rw [Nat.toDigits_of_base_le hone h, readDigits_append, ih (n / radix) hless,
          Option.bind_some, readDigits, toDigit_digitChar hr (Nat.mod_lt n hpos), Option.bind_some,
          readDigits]
        exact congrArg some (Nat.div_add_mod' n radix)

omit hr in
/-- Every character of the text of a number is a digit. -/
theorem exists_of_mem_toDigits {n : Nat} {c : Char} (h : c ∈ Nat.toDigits radix n) :
    ∃ d < radix, c = d.digitChar := by
  induction n using Nat.strongRecOn with
  | ind n ih =>
      have hpos : 0 < radix := Nat.lt_trans Nat.zero_lt_one hone
      rcases Nat.lt_or_ge n radix with hn | hn
      · rw [Nat.toDigits_of_lt_base hn, List.mem_singleton] at h
        exact ⟨n, hn, h⟩
      · rw [Nat.toDigits_of_base_le hone hn, List.mem_append, List.mem_singleton] at h
        rcases h with h | h
        · exact ih (n / radix) (Nat.div_lt_self (Nat.lt_of_lt_of_le hpos hn) hone) h
        · exact ⟨n % radix, Nat.mod_lt n hpos, h⟩

/-- The text of a number that fits reads as that number. -/
theorem parseUInt_toDigits {width n : Nat} (h : n < 2 ^ width) :
    parseUInt radix width (Nat.toDigits radix n) = some n := by
  have hread := readDigits_toDigits hone hr n
  obtain ⟨c, cs, hcons⟩ := List.exists_cons_of_ne_nil (Nat.toDigits_ne_nil (b := radix) (n := n))
  obtain ⟨d, hd, hc⟩ := exists_of_mem_toDigits hone (n := n) (c := c) (hcons ▸ List.mem_cons_self)
  have hplus : c ≠ '+' := by
    have hall : ∀ e < 16, Nat.digitChar e ≠ '+' := by decide
    rw [hc]
    exact hall d (Nat.lt_of_lt_of_le hd hr)
  rw [hcons] at hread ⊢
  rw [parseUInt, dropPlus_cons hplus, if_neg (List.cons_ne_nil _ _), hread]
  simp [h]

end Radix

end Numeral
