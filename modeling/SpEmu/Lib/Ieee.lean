import Mathlib.Data.BitVec
import Mathlib.Data.Nat.Log
import SpEmu.Lib.Numeral

/-!
# Binary floating-point numbers

The interchange formats as their three fields, the conversions between single and double, and how
a single is read from its decimal text. Rounding is to nearest, ties to even; a number is rounded
by `roundDiv` to a multiple of the spacing at its magnitude, and the fields of the result are the
quotient and the remainder of one number, so that a carry into the exponent needs no case of its
own.

`narrow_widen` says that a single survives as a double. The other facts are texts that
`parseF32` refuses.
-/

set_option autoImplicit false

namespace Ieee

/-- Sign, biased exponent and fraction. -/
structure Bits (e m : Nat) where
  sign : Bool
  exp : BitVec e
  frac : BitVec m
deriving DecidableEq

abbrev F32 := Bits 8 23
abbrev F64 := Bits 11 52

namespace Bits

variable {e m : Nat}

def isNaN (x : Bits e m) : Prop := x.exp = BitVec.allOnes e ∧ x.frac ≠ 0

instance (x : Bits e m) : Decidable x.isNaN := inferInstanceAs (Decidable (_ ∧ _))

def isFinite (x : Bits e m) : Prop := x.exp ≠ BitVec.allOnes e

instance (x : Bits e m) : Decidable x.isFinite := inferInstanceAs (Decidable (_ ≠ _))

end Bits

/-- The quotient to nearest, ties to even. -/
def roundDiv (a b : Nat) : Nat :=
  if 2 * (a % b) < b ∨ 2 * (a % b) = b ∧ a / b % 2 = 0 then a / b else a / b + 1

theorem roundDiv_mul {b : Nat} (hb : 0 < b) (q : Nat) : roundDiv (q * b) b = q := by
  rw [roundDiv, Nat.mul_mod_left, if_pos (.inl hb), Nat.mul_div_cancel q hb]

namespace F32

def inf (sign : Bool) : F32 := ⟨sign, 255, 0⟩

def nan (sign : Bool) : F32 := ⟨sign, 255, 1 <<< 22⟩

/-- The number with the exponent and the fraction in one; infinity if it is too great. -/
def ofMagnitude (sign : Bool) (n : Nat) : F32 :=
  if n < 255 * 2 ^ 23 then ⟨sign, BitVec.ofNat 8 (n / 2 ^ 23), BitVec.ofNat 23 (n % 2 ^ 23)⟩
  else inf sign

/-- Exponent and fraction in one. -/
theorem ofMagnitude_fields (sign : Bool) {e : BitVec 8} (he : e.toNat < 255) (f : BitVec 23) :
    ofMagnitude sign (e.toNat * 2 ^ 23 + f.toNat) = ⟨sign, e, f⟩ := by
  have hf := f.isLt
  have hdiv : (e.toNat * 2 ^ 23 + f.toNat) / 2 ^ 23 = e.toNat := by omega
  have hmod : (e.toNat * 2 ^ 23 + f.toNat) % 2 ^ 23 = f.toNat := by omega
  rw [ofMagnitude, if_pos (by omega), hdiv, hmod, BitVec.ofNat_toNat, BitVec.ofNat_toNat,
    BitVec.setWidth_eq, BitVec.setWidth_eq]

end F32

def F64.nan (sign : Bool) : F64 := ⟨sign, 2047, 1 <<< 51⟩

/-! ## Single and double -/

/-- Every single is a double. -/
def widen (x : F32) : F64 :=
  if x.exp = 255 then ⟨x.sign, 2047, BitVec.ofNat 52 (x.frac.toNat * 2 ^ 29)⟩
  else if x.exp ≠ 0 then
    ⟨x.sign, BitVec.ofNat 11 (x.exp.toNat + 896), BitVec.ofNat 52 (x.frac.toNat * 2 ^ 29)⟩
  else if x.frac = 0 then ⟨x.sign, 0, 0⟩
  else
    -- A subnormal single is a normal double: its leading bit becomes the hidden one.
    let p := Nat.log 2 x.frac.toNat
    ⟨x.sign, BitVec.ofNat 11 (p + 874), BitVec.ofNat 52 ((x.frac.toNat - 2 ^ p) * 2 ^ (52 - p))⟩

/-- The nearest single. A NaN keeps what fits of its payload. -/
def narrow (x : F64) : F32 :=
  if x.exp = 2047 then
    if x.frac = 0 then F32.inf x.sign
    else if x.frac.toNat / 2 ^ 29 = 0 then F32.nan x.sign
    else ⟨x.sign, 255, BitVec.ofNat 23 (x.frac.toNat / 2 ^ 29)⟩
  else if x.exp.toNat ≤ 896 then
    let m := if x.exp = 0 then x.frac.toNat else 2 ^ 52 + x.frac.toNat
    F32.ofMagnitude x.sign (roundDiv m (2 ^ (926 - max x.exp.toNat 1)))
  else
    F32.ofMagnitude x.sign
      ((x.exp.toNat - 897) * 2 ^ 23 + roundDiv (2 ^ 52 + x.frac.toNat) (2 ^ 29))

theorem toNat_shifted {n k : Nat} (h : n * 2 ^ k < 2 ^ 52) :
    (BitVec.ofNat 52 (n * 2 ^ k)).toNat = n * 2 ^ k := by
  rw [BitVec.toNat_ofNat, Nat.mod_eq_of_lt h]

/-- Infinities and NaNs. -/
theorem narrow_widen_special (s : Bool) (f : BitVec 23) :
    narrow (widen ⟨s, 255, f⟩) = ⟨s, 255, f⟩ := by
  have hf := f.isLt
  have hfrac := toNat_shifted (n := f.toNat) (k := 29) (by omega)
  rw [widen, if_pos rfl, narrow]
  dsimp only
  rw [if_pos rfl, hfrac, Nat.mul_div_cancel _ (by decide), BitVec.ofNat_toNat, BitVec.setWidth_eq]
  by_cases hzero : f = 0
  · subst hzero
    exact if_pos (by simp)
  · have hne : f.toNat ≠ 0 := fun h => hzero (BitVec.eq_of_toNat_eq h)
    have hne' : BitVec.ofNat 52 (f.toNat * 2 ^ 29) ≠ 0 := by
      intro h
      have hnat := congrArg BitVec.toNat h
      rw [hfrac] at hnat
      exact hne (by simpa using hnat)
    rw [if_neg hne', if_neg hne]

theorem narrow_widen_normal (s : Bool) {e : BitVec 8} (hlt : e.toNat < 255) (he : e ≠ 0)
    (f : BitVec 23) : narrow (widen ⟨s, e, f⟩) = ⟨s, e, f⟩ := by
  have hf := f.isLt
  have hfrac := toNat_shifted (n := f.toNat) (k := 29) (by omega)
  have hne : e.toNat ≠ 0 := fun h => he (BitVec.eq_of_toNat_eq h)
  have hmax : e ≠ 255 := fun h => absurd hlt (by rw [h]; decide)
  have hexp : (BitVec.ofNat 11 (e.toNat + 896)).toNat = e.toNat + 896 := by
    rw [BitVec.toNat_ofNat, Nat.mod_eq_of_lt (by omega)]
  have hfin : BitVec.ofNat 11 (e.toNat + 896) ≠ 2047 := by
    intro h
    have hnat := congrArg BitVec.toNat h
    rw [hexp] at hnat
    exact absurd hnat (by simp; omega)
  have hm : 2 ^ 52 + f.toNat * 2 ^ 29 = (2 ^ 23 + f.toNat) * 2 ^ 29 := by omega
  have hjoin : (e.toNat + 896 - 897) * 2 ^ 23 + (2 ^ 23 + f.toNat) =
      e.toNat * 2 ^ 23 + f.toNat := by omega
  rw [widen]
  dsimp only
  rw [if_neg hmax, if_pos he, narrow]
  dsimp only
  rw [if_neg hfin, hexp, if_neg (by omega), hfrac, hm, roundDiv_mul (by decide), hjoin]
  exact F32.ofMagnitude_fields s hlt f

/-- A subnormal single loses nothing when its leading bit is hidden. -/
theorem narrow_widen_subnormal (s : Bool) {f : BitVec 23} (hf : f ≠ 0) :
    narrow (widen ⟨s, 0, f⟩) = ⟨s, 0, f⟩ := by
  have hne : f.toNat ≠ 0 := fun h => hf (BitVec.eq_of_toNat_eq h)
  obtain ⟨p, hp⟩ : ∃ p, p = Nat.log 2 f.toNat := ⟨_, rfl⟩
  have hle : 2 ^ p ≤ f.toNat := hp ▸ Nat.pow_log_le_self 2 hne
  have hlt : f.toNat < 2 ^ (p + 1) := hp ▸ Nat.lt_pow_succ_log_self (by decide) _
  have hp23 : p < 23 := (Nat.pow_lt_pow_iff_right (by decide : 1 < 2)).mp
    (Nat.lt_of_le_of_lt hle f.isLt)
  have hpow : 2 ^ p * 2 ^ (52 - p) = 2 ^ 52 := by
    rw [← Nat.pow_add]
    congr 1
    omega
  have hsum : 2 ^ 52 + (f.toNat - 2 ^ p) * 2 ^ (52 - p) = f.toNat * 2 ^ (52 - p) := by
    rw [← hpow, ← Nat.add_mul, Nat.add_sub_cancel' hle]
  have hsmall : (f.toNat - 2 ^ p) * 2 ^ (52 - p) < 2 ^ 52 := by
    rw [← hpow]
    refine Nat.mul_lt_mul_of_pos_right ?_ (Nat.two_pow_pos _)
    rw [Nat.pow_succ] at hlt
    omega
  have hexp : (BitVec.ofNat 11 (p + 874)).toNat = p + 874 := by
    rw [BitVec.toNat_ofNat, Nat.mod_eq_of_lt (by omega)]
  have hfin : BitVec.ofNat 11 (p + 874) ≠ 2047 := by
    intro h
    have hnat := congrArg BitVec.toNat h
    rw [hexp] at hnat
    exact absurd hnat (by simp; omega)
  have hpos : BitVec.ofNat 11 (p + 874) ≠ 0 := by
    intro h
    have hnat := congrArg BitVec.toNat h
    rw [hexp] at hnat
    exact absurd hnat (by simp)
  rw [widen]
  dsimp only
  rw [if_neg (by decide), if_neg (not_not_intro rfl), if_neg hf, ← hp, narrow]
  dsimp only
  rw [if_neg hfin, if_neg hpos, hexp, if_pos (by omega), toNat_shifted hsmall, hsum,
    Nat.max_eq_left (by omega), show 926 - (p + 874) = 52 - p by omega,
    roundDiv_mul (Nat.two_pow_pos _)]
  have hfields : F32.ofMagnitude s (0 * 2 ^ 23 + f.toNat) = ⟨s, 0, f⟩ :=
    F32.ofMagnitude_fields s (e := 0) (by decide) f
  rwa [Nat.zero_mul, Nat.zero_add] at hfields

theorem narrow_widen_zero (s : Bool) : narrow (widen ⟨s, 0, 0⟩) = ⟨s, 0, 0⟩ := by
  have hround : ∀ k, roundDiv 0 (2 ^ k) = 0 := fun k => by
    have h := roundDiv_mul (Nat.two_pow_pos k) 0
    rwa [Nat.zero_mul] at h
  rw [widen, if_neg (by simp), if_neg (by simp), if_pos rfl, narrow]
  dsimp only
  rw [if_neg (by decide), if_pos (by decide), if_pos rfl]
  show F32.ofMagnitude s (roundDiv 0 (2 ^ _)) = _
  rw [hround]
  rfl

/-- A single survives as a double. -/
theorem narrow_widen (x : F32) : narrow (widen x) = x := by
  obtain ⟨s, e, f⟩ := x
  by_cases hmax : e = 255
  · subst hmax
    exact narrow_widen_special s f
  by_cases hzero : e = 0
  · subst hzero
    by_cases hf : f = 0
    · subst hf
      exact narrow_widen_zero s
    · exact narrow_widen_subnormal s hf
  · have hne : e.toNat ≠ 255 := fun h => hmax (BitVec.eq_of_toNat_eq h)
    exact narrow_widen_normal s (by have he := e.isLt; omega) hzero f

theorem narrow_nan (sign : Bool) : narrow (F64.nan sign) = F32.nan sign := by
  cases sign <;> decide

/-! ## Decimal texts -/

/-- The leading bit of the quotient `n / d`. -/
def quotLog (n d : Nat) : Int :=
  let k : Int := Nat.log 2 n - Nat.log 2 d
  let fits := if 0 ≤ k then d * 2 ^ k.toNat ≤ n else d ≤ n * 2 ^ (-k).toNat
  if fits then k else k - 1

/-- The single nearest to the quotient `n / d`. -/
def F32.ofQuot (sign : Bool) (n d : Nat) : F32 :=
  if n = 0 then ⟨sign, 0, 0⟩
  else
    let e := max (quotLog n d) (-126)
    -- The spacing at this magnitude is 2 ^ (e - 23).
    let m := if 23 ≤ e then roundDiv n (d * 2 ^ (e - 23).toNat)
      else roundDiv (n * 2 ^ (23 - e).toNat) d
    F32.ofMagnitude sign ((e + 126).toNat * 2 ^ 23 + m)

/-- The single nearest to an integer. -/
def F32.ofInt (i : Int) : F32 := F32.ofQuot (i < 0) i.natAbs 1

def isDigit (c : Char) : Bool := '0' ≤ c && c ≤ '9'

/-- The digits at the front. -/
def spanDigits (s : List Char) : List Char × List Char := s.span isDigit

def parseExponent (s : List Char) : Option Int :=
  let (neg, s) := match s with
    | '-' :: t => (true, t)
    | '+' :: t => (false, t)
    | t => (false, t)
  if s ≠ [] ∧ s.all isDigit then
    (Numeral.readDigits 10 0 s).map fun n => if neg then -(n : Int) else n
  else none

/-- The digits of a number without its sign, and the power of ten that they count. -/
def parseNumber (s : List Char) : Option (Nat × Int) := do
  let (whole, s) := spanDigits s
  let (part, s) := match s with
    | '.' :: t => spanDigits t
    | t => ([], t)
  if whole = [] ∧ part = [] then none
  else
    let digits ← Numeral.readDigits 10 0 (whole ++ part)
    match s with
    | [] => some (digits, -part.length)
    | c :: t =>
        if c = 'e' ∨ c = 'E' then (parseExponent t).map fun e => (digits, e - part.length)
        else none

def parseSpecial (sign : Bool) (s : List Char) : Option F32 :=
  let t := s.map Char.toLower
  if t = "nan".toList then some (F32.nan sign)
  else if t = "inf".toList ∨ t = "infinity".toList then some (F32.inf sign)
  else none

def F32.ofDecimal (sign : Bool) (digits : Nat) (e : Int) : F32 :=
  if 0 ≤ e then F32.ofQuot sign (digits * 10 ^ e.toNat) 1
  else F32.ofQuot sign digits (10 ^ (-e).toNat)

def parseUnsigned (sign : Bool) (s : List Char) : Option F32 :=
  match parseNumber s with
  | some (digits, e) => some (F32.ofDecimal sign digits e)
  | none => parseSpecial sign s

def parseF32 : List Char → Option F32
  | '-' :: s => parseUnsigned true s
  | '+' :: s => parseUnsigned false s
  | s => parseUnsigned false s

example : parseF32 "42.5".toList = some ⟨false, 132, 2752512⟩ := by decide

/-! ## Texts that are no number -/

theorem parseF32_of_not_sign {c : Char} (hminus : c ≠ '-') (hplus : c ≠ '+') (t : List Char) :
    parseF32 (c :: t) = parseUnsigned false (c :: t) := by
  rw [parseF32]
  · rintro s ⟨⟩
    exact hminus rfl
  · rintro s ⟨⟩
    exact hplus rfl

theorem parseSpecial_of_head (sign : Bool) {c : Char} (hn : c.toLower ≠ 'n')
    (hi : c.toLower ≠ 'i') (t : List Char) : parseSpecial sign (c :: t) = none := by
  have hnan : (c :: t).map Char.toLower ≠ "nan".toList := fun h => hn (List.cons_eq_cons.mp h).1
  have hinf : (c :: t).map Char.toLower ≠ "inf".toList := fun h => hi (List.cons_eq_cons.mp h).1
  have hinfinity : (c :: t).map Char.toLower ≠ "infinity".toList :=
    fun h => hi (List.cons_eq_cons.mp h).1
  rw [parseSpecial, if_neg hnan, if_neg (not_or_intro hinf hinfinity)]

/-- The digits at the front of a text end where no digit follows. -/
theorem spanDigits_append {ds : List Char} (hds : ∀ c ∈ ds, isDigit c = true) {c : Char}
    (hc : isDigit c = false) (t : List Char) : spanDigits (ds ++ c :: t) = (ds, c :: t) := by
  rw [spanDigits, List.span_eq_takeWhile_dropWhile, List.takeWhile_append_of_pos hds,
    List.dropWhile_append_of_pos hds, List.takeWhile_cons_of_neg (by simp [hc]),
    List.dropWhile_cons_of_neg (by simp [hc]), List.append_nil]

theorem toLower_of_isDigit {c : Char} (h : isDigit c = true) : c.toLower = c := by
  simp only [isDigit, Bool.and_eq_true, decide_eq_true_eq] at h
  have htop : c.val ≤ '9'.val := h.2
  have hbelow : ¬ (c.val ≥ 'A'.val ∧ c.val ≤ 'Z'.val) := by
    rintro ⟨hlow, -⟩
    exact absurd (UInt32.le_trans hlow htop) (by decide)
  exact dif_neg hbelow

/-- A text that does not begin as a number does. -/
theorem parseF32_of_head {c : Char} (hdigit : isDigit c = false) (hdot : c ≠ '.') (hminus : c ≠ '-')
    (hplus : c ≠ '+') (hn : c.toLower ≠ 'n') (hi : c.toLower ≠ 'i') (t : List Char) :
    parseF32 (c :: t) = none := by
  have hnil : ∀ d ∈ ([] : List Char), isDigit d = true := nofun
  have hspan : spanDigits (c :: t) = ([], c :: t) := spanDigits_append hnil hdigit t
  have hnumber : parseNumber (c :: t) = none := by
    rw [parseNumber, hspan]
    dsimp only
    split
    · next heq => exact absurd (List.cons.inj heq).1 hdot
    · rfl
  rw [parseF32_of_not_sign hminus hplus, parseUnsigned, hnumber]
  exact parseSpecial_of_head false hn hi t

/-- Digits with a character after them that no number goes on with. -/
theorem parseF32_of_digits {d : Char} {ds : List Char} (hd : isDigit d = true)
    (hds : ∀ c ∈ ds, isDigit c = true) {c : Char} (hdigit : isDigit c = false) (hdot : c ≠ '.')
    (he : c ≠ 'e') (hE : c ≠ 'E') (t : List Char) : parseF32 (d :: (ds ++ c :: t)) = none := by
  have hne : ∀ {x : Char}, isDigit x = false → d ≠ x := fun hx heq => by
    rw [heq, hx] at hd
    cases hd
  have hall : ∀ x ∈ d :: ds, isDigit x = true := fun x hx => by
    rcases List.mem_cons.mp hx with rfl | hx
    · exact hd
    · exact hds x hx
  have hnumber : parseNumber (d :: (ds ++ c :: t)) = none := by
    rw [parseNumber, ← List.cons_append, spanDigits_append hall hdigit]
    dsimp only
    split
    · next heq => exact absurd (List.cons.inj heq).1 hdot
    · rw [if_neg fun h => List.cons_ne_nil _ _ h.1]
      cases Numeral.readDigits 10 0 (d :: ds ++ []) with
      | none => rfl
      | some n => exact if_neg (not_or_intro he hE)
  have hlower := toLower_of_isDigit hd
  rw [parseF32_of_not_sign (hne rfl) (hne rfl), parseUnsigned, hnumber]
  exact parseSpecial_of_head false (by rw [hlower]; exact hne rfl) (by rw [hlower]; exact hne rfl) _

end Ieee
