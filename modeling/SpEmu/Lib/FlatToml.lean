import Mathlib.Data.List.TakeDrop
import SpEmu.Lib.Numeral

/-!
# Flat documents with basic strings

The part of TOML 1.0 in which every line is blank, a comment, or a bare key with a basic string. A
basic string holds no raw control character other than a tab, and its escapes are undone. `readFlat`
reads such a document; on other documents it says nothing about TOML.

`escape` is the least that a writer has to do, without the control characters. `readFlat_unlines`
says what is read of a document written with it: all of the values, if none of them holds a
character in `isRawControl`, and otherwise nothing.
-/

set_option autoImplicit false

namespace Toml

/-! ## Basic strings -/

/-- A control character that may not stand in a basic string as it is. -/
def isControl (c : Char) : Bool := (c.toNat < 0x20 && c != '\t') || c.toNat == 0x7F

def simpleEscape : Char → Option Char
  | 'b' => some '\x08'
  | 't' => some '\t'
  | 'n' => some '\n'
  | 'f' => some '\x0C'
  | 'r' => some '\r'
  | '"' => some '"'
  | '\\' => some '\\'
  | _ => none

/-- The character with a number, which is no surrogate. -/
def scalar (n : Nat) : Option Char := if n.isValidChar then some (Char.ofNat n) else none

inductive StringState
  | plain
  | escape
  /-- So many digits of a character are still to come. -/
  | unicode (left acc : Nat)

/-- The value of a string up to its closing quotation mark, and what stands after that. -/
def readString : StringState → List Char → Option (List Char × List Char)
  | _, [] => none
  | .plain, c :: cs =>
      if c = '"' then some ([], cs)
      else if c = '\\' then readString .escape cs
      else if isControl c then none
      else (readString .plain cs).map fun r => (c :: r.1, r.2)
  | .escape, c :: cs =>
      if c = 'u' then readString (.unicode 4 0) cs
      else if c = 'U' then readString (.unicode 8 0) cs
      else
        match simpleEscape c with
        | none => none
        | some d => (readString .plain cs).map fun r => (d :: r.1, r.2)
  | .unicode left acc, c :: cs =>
      match Numeral.toDigit 16 c with
      | none => none
      | some d =>
          if left ≤ 1 then
            match scalar (acc * 16 + d) with
            | none => none
            | some e => (readString .plain cs).map fun r => (e :: r.1, r.2)
          else readString (.unicode (left - 1) (acc * 16 + d)) cs

/-! ## Lines -/

def isBlank (c : Char) : Bool := c == ' ' || c == '\t'

def isBareKey (c : Char) : Bool :=
  ('a' ≤ c && c ≤ 'z') || ('A' ≤ c && c ≤ 'Z') || ('0' ≤ c && c ≤ '9') || c == '_' || c == '-'

/-- Nothing but a comment is left. -/
def atEnd : List Char → Bool
  | [] => true
  | '#' :: cs => cs.all fun c => !isControl c
  | _ => false

def readEntry (line : List Char) : Option (List Char × List Char) :=
  let (key, rest) := line.span isBareKey
  if key = [] then none
  else
    match rest.dropWhile isBlank with
    | '=' :: rest =>
        match rest.dropWhile isBlank with
        | '"' :: rest =>
            match readString .plain rest with
            | none => none
            | some (v, rest) => if atEnd (rest.dropWhile isBlank) then some (key, v) else none
        | _ => none
    | _ => none

/-- The entry of a line, if it has one; `none` if the line is malformed. -/
def readLine (line : List Char) : Option (Option (List Char × List Char)) :=
  let body := line.dropWhile isBlank
  if atEnd body then some none else (readEntry body).map some

def readLines : List (List Char) → Option (List (List Char × List Char))
  | [] => some []
  | line :: lines =>
      match readLine line with
      | none => none
      | some none => readLines lines
      | some (some kv) => (readLines lines).map (kv :: ·)

/-- A key may not come twice. -/
def readFlat (text : List Char) : Option (List (List Char × List Char)) :=
  (readLines (Text.lines text)).filter fun ps => (ps.map Prod.fst).Nodup

theorem nodup_of_readFlat {text : List Char} {ps : List (List Char × List Char)}
    (h : readFlat text = some ps) : (ps.map Prod.fst).Nodup := by
  obtain ⟨-, hnodup⟩ := Option.filter_eq_some_iff.mp h
  exact of_decide_eq_true hnodup

/-! ## Writing -/

def escapeChar (c : Char) : List Char :=
  if c = '\\' then ['\\', '\\'] else if c = '"' then ['\\', '"']
  else if c = '\n' then ['\\', 'n'] else [c]

def escape (s : List Char) : List Char := s.flatMap escapeChar

/-- What `escape` leaves in a string although it may not stand there. -/
def isRawControl (c : Char) : Bool := isControl c && c != '\n'

def Writable (s : List Char) : Prop := ∀ c ∈ s, isRawControl c = false

instance (s : List Char) : Decidable (Writable s) := List.decidableBAll _ s

/-- One character of the value comes back, and the string goes on. -/
theorem readString_escapeChar {c : Char} (hc : isRawControl c = false) (rest : List Char) :
    readString .plain (escapeChar c ++ rest) =
      (readString .plain rest).map fun r => (c :: r.1, r.2) := by
  by_cases hback : c = '\\'
  · subst hback
    rfl
  by_cases hquote : c = '"'
  · subst hquote
    rfl
  by_cases hline : c = '\n'
  · subst hline
    rfl
  · have hctl : isControl c = false := by simpa [isRawControl, hline] using hc
    rw [escapeChar, if_neg hback, if_neg hquote, if_neg hline, List.singleton_append, readString,
      if_neg hquote, if_neg hback, hctl]
    rfl

theorem readString_of_isRawControl {c : Char} (hc : isRawControl c = true) (rest : List Char) :
    readString .plain (escapeChar c ++ rest) = none := by
  obtain ⟨hctl, hline⟩ : isControl c = true ∧ c ≠ '\n' := by simpa [isRawControl] using hc
  have hback : c ≠ '\\' := by
    rintro rfl
    exact absurd hctl (by decide)
  have hquote : c ≠ '"' := by
    rintro rfl
    exact absurd hctl (by decide)
  rw [escapeChar, if_neg hback, if_neg hquote, if_neg hline, List.singleton_append, readString,
    if_neg hquote, if_neg hback, hctl]
  rfl

/-- Undone up to the quotation mark that closes the string. -/
theorem readString_escape (s rest : List Char) :
    readString .plain (escape s ++ '"' :: rest) = if Writable s then some (s, rest) else none := by
  induction s with
  | nil => rfl
  | cons c cs ih =>
      rw [escape, List.flatMap_cons, List.append_assoc]
      cases hc : isRawControl c with
      | true =>
          rw [readString_of_isRawControl hc, if_neg fun h => by simp [h c List.mem_cons_self] at hc]
      | false =>
          rw [readString_escapeChar hc]
          have hiff : Writable (c :: cs) ↔ Writable cs := by simp [Writable, hc]
          rw [escape] at ih
          rw [ih]
          by_cases h : Writable cs
          · rw [if_pos h, if_pos (hiff.mpr h)]
            rfl
          · rw [if_neg h, if_neg (mt hiff.mp h)]
            rfl

def entryLine (key s : List Char) : List Char := key ++ " = \"".toList ++ escape s ++ ['"']

theorem span_key {key : List Char} (hkey : key.all isBareKey = true) {c : Char}
    (hc : isBareKey c = false) (rest : List Char) :
    (key ++ c :: rest).span isBareKey = (key, c :: rest) := by
  have hall : ∀ x ∈ key, isBareKey x = true := List.all_eq_true.mp hkey
  rw [List.span_eq_takeWhile_dropWhile, List.takeWhile_append_of_pos hall,
    List.dropWhile_append_of_pos hall, List.takeWhile_cons_of_neg (by simp [hc]),
    List.dropWhile_cons_of_neg (by simp [hc]), List.append_nil]

/-- A line that begins with a key is neither blank nor a comment. -/
theorem readLine_of_key {k : Char} (hk : isBareKey k = true) (cs : List Char) :
    readLine (k :: cs) = (readEntry (k :: cs)).map some := by
  have hblank : isBlank k = false := by
    cases hb : isBlank k with
    | false => rfl
    | true =>
        rcases Bool.or_eq_true_iff.mp hb with h | h <;> rw [eq_of_beq h] at hk <;> cases hk
  have hend : atEnd (k :: cs) = false := by
    unfold atEnd
    split
    · next heq => cases heq
    · next heq =>
        cases heq
        cases hk
    · rfl
  rw [readLine, List.dropWhile_cons_of_neg (by simp [hblank]), hend]
  rfl

/-- What is read of a line: its entry, unless the value was not writable. -/
theorem readLine_entryLine {key : List Char} (hkey : key.all isBareKey = true) (hne : key ≠ [])
    (s : List Char) :
    readLine (entryLine key s) = if Writable s then some (some (key, s)) else none := by
  have hentry : readEntry (entryLine key s) = if Writable s then some (key, s) else none := by
    have hline : entryLine key s = key ++ ' ' :: '=' :: ' ' :: '"' :: (escape s ++ ['"']) := by
      rw [entryLine, List.append_assoc, List.append_assoc]
      rfl
    rw [hline, readEntry, span_key hkey rfl]
    dsimp only
    rw [if_neg hne]
    show (match readString .plain (escape s ++ ['"']) with
      | none => none
      | some (v, rest) => if atEnd (rest.dropWhile isBlank) then some (key, v) else none) = _
    rw [readString_escape]
    by_cases h : Writable s
    · rw [if_pos h, if_pos h]
      rfl
    · rw [if_neg h, if_neg h]
  obtain ⟨k, ks, rfl⟩ := List.exists_cons_of_ne_nil hne
  have hk : isBareKey k = true := List.all_eq_true.mp hkey k List.mem_cons_self
  have hcons : entryLine (k :: ks) s = k :: entryLine ks s := rfl
  rw [hcons, readLine_of_key hk, ← hcons, hentry]
  by_cases h : Writable s
  · rw [if_pos h, if_pos h, Option.map_some]
  · rw [if_neg h, if_neg h, Option.map_none]

/-- The first character can be told from what it was escaped to. -/
theorem escapeChar_append_inj {c d : Char} {r r' : List Char}
    (h : escapeChar c ++ r = escapeChar d ++ r') : c = d ∧ r = r' := by
  unfold escapeChar at h
  split_ifs at h <;> grind

theorem escapeChar_ne_nil (c : Char) : escapeChar c ≠ [] := by
  unfold escapeChar
  split_ifs <;> exact List.cons_ne_nil _ _

theorem escape_injective : Function.Injective escape := by
  intro s
  induction s with
  | nil =>
      intro t h
      cases t with
      | nil => rfl
      | cons d ds =>
          rw [escape, escape, List.flatMap_nil, List.flatMap_cons] at h
          exact absurd (List.append_eq_nil_iff.mp h.symm).1 (escapeChar_ne_nil d)
  | cons c cs ih =>
      intro t h
      cases t with
      | nil =>
          rw [escape, escape, List.flatMap_nil, List.flatMap_cons] at h
          exact absurd (List.append_eq_nil_iff.mp h).1 (escapeChar_ne_nil c)
      | cons d ds =>
          rw [escape, escape, List.flatMap_cons, List.flatMap_cons] at h
          obtain ⟨rfl, hrest⟩ := escapeChar_append_inj h
          rw [ih hrest]

theorem ne_of_isBareKey {c : Char} (h : isBareKey c = true) :
    Text.isWhitespace c = false ∧ c ≠ '=' ∧ c ≠ '#' := by
  have hrange : 45 ≤ c.toNat ∧ c.toNat ≤ 122 ∧ c.toNat ≠ 61 := by
    simp only [isBareKey, Bool.or_eq_true, Bool.and_eq_true, decide_eq_true_eq, beq_iff_eq,
      Char.le_def, UInt32.le_iff_toNat_le] at h
    rcases h with (((⟨hlo, hhi⟩ | ⟨hlo, hhi⟩) | ⟨hlo, hhi⟩) | rfl) | rfl
    · change 97 ≤ c.toNat at hlo
      change c.toNat ≤ 122 at hhi
      omega
    · change 65 ≤ c.toNat at hlo
      change c.toNat ≤ 90 at hhi
      omega
    · change 48 ≤ c.toNat at hlo
      change c.toNat ≤ 57 at hhi
      omega
    · decide
    · decide
  refine ⟨?_, ?_, ?_⟩
  · simp only [Text.isWhitespace, Bool.or_eq_false_iff, Bool.and_eq_false_iff,
      decide_eq_false_iff_not, beq_eq_false_iff_ne]
    omega
  · rintro rfl
    exact absurd hrange (by decide)
  · rintro rfl
    exact absurd hrange (by decide)

/-- A line is that of one entry only. -/
theorem entryLine_inj {k l s t : List Char} (hk : k.all isBareKey = true)
    (hl : l.all isBareKey = true) : entryLine k s = entryLine l t ↔ k = l ∧ s = t := by
  constructor
  · intro h
    have hline : ∀ key v : List Char,
        entryLine key v = key ++ ' ' :: ("= \"".toList ++ escape v ++ ['"']) := by
      intro key v
      rw [entryLine, List.append_assoc, List.append_assoc, List.append_assoc]
      rfl
    have hspan := congrArg (List.span isBareKey) h
    rw [hline, hline, span_key hk rfl, span_key hl rfl, Prod.mk.injEq] at hspan
    obtain ⟨rfl, htail⟩ := hspan
    have hesc := List.append_cancel_left (List.append_cancel_right (List.cons.inj htail).2)
    exact ⟨rfl, escape_injective hesc⟩
  · rintro ⟨rfl, rfl⟩
    rfl
/-- Lines of which each ends in a line feed. -/
def unlines (ls : List (List Char)) : List Char := ls.flatMap (· ++ ['\n'])

theorem lines_unlines {ls : List (List Char)} (hline : ∀ l ∈ ls, '\n' ∉ l)
    (hcr : ∀ l ∈ ls, Text.stripCr l = l) : Text.lines (unlines ls) = ls := by
  induction ls with
  | nil => rfl
  | cons l ls ih =>
      rw [unlines, List.flatMap_cons, List.append_assoc, List.singleton_append,
        Text.lines_append (hline l List.mem_cons_self), hcr l List.mem_cons_self]
      exact congrArg (l :: ·) (ih (fun m hm => hline m (List.mem_cons_of_mem l hm))
        fun m hm => hcr m (List.mem_cons_of_mem l hm))

theorem newline_not_mem_escape (s : List Char) : '\n' ∉ escape s := by
  intro h
  obtain ⟨c, -, hc⟩ := List.mem_flatMap.mp h
  rw [escapeChar] at hc
  split_ifs at hc with hback hquote hline
  · simp at hc
  · simp at hc
  · simp at hc
  · exact hline (List.mem_singleton.mp hc).symm

theorem newline_not_mem_entryLine {key : List Char} (hkey : key.all isBareKey = true)
    (s : List Char) : '\n' ∉ entryLine key s := by
  intro h
  rw [entryLine, List.mem_append, List.mem_append, List.mem_append] at h
  rcases h with ((h | h) | h) | h
  · have hbare := List.all_eq_true.mp hkey _ h
    cases hbare
  · exact absurd h (by decide)
  · exact newline_not_mem_escape s h
  · exact absurd h (by decide)

theorem stripCr_entryLine (key s : List Char) :
    Text.stripCr (entryLine key s) = entryLine key s := Text.stripCr_eq_self (by decide) _

theorem lines_document {header : List (List Char)} {ps : List (List Char × List Char)}
    (hheader : ∀ l ∈ header, '\n' ∉ l ∧ Text.stripCr l = l)
    (hkey : ∀ p ∈ ps, p.1.all isBareKey = true) :
    Text.lines (unlines (header ++ ps.map fun p => entryLine p.1 p.2)) =
      header ++ ps.map fun p => entryLine p.1 p.2 := by
  have hlines : ∀ l ∈ header ++ ps.map fun p => entryLine p.1 p.2,
      '\n' ∉ l ∧ Text.stripCr l = l := by
    intro l hl
    rcases List.mem_append.mp hl with hl | hl
    · exact hheader l hl
    · obtain ⟨p, hp, rfl⟩ := List.mem_map.mp hl
      exact ⟨newline_not_mem_entryLine (hkey p hp) p.2, stripCr_entryLine p.1 p.2⟩
  exact lines_unlines (fun l hl => (hlines l hl).1) fun l hl => (hlines l hl).2

theorem readLines_entryLines {ps : List (List Char × List Char)}
    (hkey : ∀ p ∈ ps, p.1.all isBareKey = true ∧ p.1 ≠ []) :
    readLines (ps.map fun p => entryLine p.1 p.2) =
      if ∀ p ∈ ps, Writable p.2 then some ps else none := by
  induction ps with
  | nil => rfl
  | cons p ps ih =>
      obtain ⟨hbare, hne⟩ := hkey p List.mem_cons_self
      have hrest := ih fun q hq => hkey q (List.mem_cons_of_mem p hq)
      rw [List.map_cons, readLines, readLine_entryLine hbare hne, hrest]
      by_cases hp : Writable p.2
      · have hiff : (∀ q ∈ p :: ps, Writable q.2) ↔ ∀ q ∈ ps, Writable q.2 := by simp [hp]
        rw [if_pos hp]
        by_cases hps : ∀ q ∈ ps, Writable q.2
        · rw [if_pos hps, if_pos (hiff.mpr hps)]
          rfl
        · rw [if_neg hps, if_neg (mt hiff.mp hps)]
          rfl
      · have hnot : ¬ ∀ q ∈ p :: ps, Writable q.2 := fun h => hp (h p List.mem_cons_self)
        rw [if_neg hp, if_neg hnot]

/-- Comments and blank lines in front are skipped. -/
theorem readLines_append {header : List (List Char)} (h : ∀ l ∈ header, readLine l = some none)
    (ls : List (List Char)) : readLines (header ++ ls) = readLines ls := by
  induction header with
  | nil => rfl
  | cons l header ih =>
      rw [List.cons_append, readLines, h l List.mem_cons_self]
      exact ih fun m hm => h m (List.mem_cons_of_mem l hm)

/-- A document of a header and entries with distinct keys is read in full, or not at all. -/
theorem readFlat_unlines {header : List (List Char)} {ps : List (List Char × List Char)}
    (hskip : ∀ l ∈ header, readLine l = some none ∧ '\n' ∉ l ∧ Text.stripCr l = l)
    (hkey : ∀ p ∈ ps, p.1.all isBareKey = true ∧ p.1 ≠ []) (hnodup : (ps.map Prod.fst).Nodup) :
    readFlat (unlines (header ++ ps.map fun p => entryLine p.1 p.2)) =
      if ∀ p ∈ ps, Writable p.2 then some ps else none := by
  rw [readFlat, lines_document (fun l hl => (hskip l hl).2) fun p hp => (hkey p hp).1,
    readLines_append fun l hl => (hskip l hl).1, readLines_entryLines hkey]
  split
  · rw [Option.filter_some, if_pos (by simpa using hnodup)]
  · rfl

end Toml
