import Mathlib.Data.List.Nodup
import SpEmu.Lib.Ieee
import SpEmu.Lib.Keyed

/-!
# TOML values

The values of a TOML document, and a document as its table: keys, each once, with their values.
How a document is read from a text is not fixed here; a reader is a parameter of what uses it.

The text of a date or a time is that of RFC 3339. What is kept of it is how it begins: with digits
and a character that no number goes on with (`Datetime.toText_begins`).
-/

set_option autoImplicit false

namespace Toml

/-! ## Dates and times -/

structure Date where
  year : Nat
  month : Nat
  day : Nat
deriving DecidableEq

structure Time where
  hour : Nat
  minute : Nat
  second : Nat
  nanosecond : Nat
deriving DecidableEq

/-- An offset from UTC in minutes. -/
inductive Offset
  | z
  | minutes (negative : Bool) (m : Nat)
deriving DecidableEq

inductive Datetime
  | date (d : Date)
  | time (t : Time)
  | dateTime (d : Date) (t : Time) (o : Option Offset)
deriving DecidableEq

/-- The decimal text with zeros in front. -/
def pad (width n : Nat) : List Char :=
  List.replicate (width - (Nat.toDigits 10 n).length) '0' ++ Nat.toDigits 10 n

def Date.toText (d : Date) : List Char :=
  pad 4 d.year ++ '-' :: (pad 2 d.month ++ '-' :: pad 2 d.day)

/-- The fraction of a second without the zeros at its end. -/
def fraction (n : Nat) : List Char :=
  if n = 0 then [] else '.' :: ((pad 9 n).reverse.dropWhile (· == '0')).reverse

def Time.toText (t : Time) : List Char :=
  pad 2 t.hour ++ ':' :: (pad 2 t.minute ++ ':' :: (pad 2 t.second ++ fraction t.nanosecond))

def Offset.toText : Offset → List Char
  | z => ['Z']
  | minutes negative m =>
      (if negative then '-' else '+') :: (pad 2 (m / 60) ++ ':' :: pad 2 (m % 60))

def Datetime.toText : Datetime → List Char
  | date d => d.toText
  | time t => t.toText
  | dateTime d t o => d.toText ++ 'T' :: (t.toText ++ (o.elim [] Offset.toText))

theorem isDigit_toDigits (n : Nat) : ∀ c ∈ Nat.toDigits 10 n, Ieee.isDigit c = true := by
  intro c hc
  obtain ⟨d, hd, rfl⟩ := Numeral.exists_of_mem_toDigits (by decide) hc
  have hall : ∀ e < 10, Ieee.isDigit (Nat.digitChar e) = true := by decide
  exact hall d hd

/-- A padded number begins with two digits, and all of it is digits. -/
theorem pad_eq_cons {w : Nat} (hw : 2 ≤ w) (n : Nat) :
    ∃ d e ds, (∀ c ∈ d :: e :: ds, Ieee.isDigit c = true) ∧ pad w n = d :: e :: ds := by
  have hall : ∀ c ∈ pad w n, Ieee.isDigit c = true := by
    intro c hc
    rcases List.mem_append.mp hc with hc | hc
    · rw [List.eq_of_mem_replicate hc]
      rfl
    · exact isDigit_toDigits n c hc
  have hlen : 2 ≤ (pad w n).length := by
    rw [pad, List.length_append, List.length_replicate]
    omega
  match hpad : pad w n with
  | [] => rw [hpad] at hlen; cases hlen
  | [d] => rw [hpad] at hlen; exact absurd hlen (by simp)
  | d :: e :: ds => exact ⟨d, e, ds, hpad ▸ hall, rfl⟩

/-- A date begins with digits and a minus sign; a time with digits and a colon, and another colon
comes later. -/
theorem Datetime.toText_begins (dt : Datetime) :
    ∃ d e ds c t, (∀ x ∈ d :: e :: ds, Ieee.isDigit x = true) ∧
      (c = '-' ∨ c = ':' ∧ ':' ∈ t) ∧ dt.toText = d :: e :: (ds ++ c :: t) := by
  have hjoin : ∀ {w : Nat}, 2 ≤ w → ∀ (n : Nat) (c : Char) (t : List Char),
      (c = '-' ∨ c = ':' ∧ ':' ∈ t) →
      ∃ d e ds c' t', (∀ x ∈ d :: e :: ds, Ieee.isDigit x = true) ∧
        (c' = '-' ∨ c' = ':' ∧ ':' ∈ t') ∧ pad w n ++ c :: t = d :: e :: (ds ++ c' :: t') := by
    intro w hw n c t hc
    obtain ⟨d, e, ds, hds, h⟩ := pad_eq_cons hw n
    exact ⟨d, e, ds, c, t, hds, hc, by rw [h, List.cons_append, List.cons_append]⟩
  cases dt with
  | date d => exact hjoin (by decide) _ _ _ (.inl rfl)
  | time t => exact hjoin (by decide) _ _ _ (.inr ⟨rfl, List.mem_append_right _ List.mem_cons_self⟩)
  | dateTime d t o =>
      rw [Datetime.toText, Date.toText, List.append_assoc, List.cons_append]
      exact hjoin (by decide) _ _ _ (.inl rfl)

/-! ## Values -/

inductive Value
  | string (s : List Char)
  | integer (i : BitVec 64)
  | float (f : Ieee.F64)
  | boolean (b : Bool)
  | datetime (d : Datetime)
  | array (vs : List Value)
  | table (kvs : List (List Char × Value))

/-- A document. -/
structure Table where
  entries : List (List Char × Value)
  nodup : (entries.map Prod.fst).Nodup

/-- The decimal text of a signed integer. -/
def integerText (i : BitVec 64) : List Char :=
  if i.toInt < 0 then '-' :: Nat.toDigits 10 i.toInt.natAbs else Nat.toDigits 10 i.toInt.natAbs

end Toml
