import Mathlib.Data.List.Basic
import Mathlib.Data.List.TakeWhile

/-!
# Lines and fields of a text file

The operations that a line-oriented configuration reader is made of, on lists of characters:
`lines` cuts a text at its line feeds, `trim` takes the white space off both ends,
`trimMatches` a given character, and `splitOnce` cuts at the first occurrence of a separator.

Two kinds of facts are kept beside them: what the operation gives on a text that was put
together from parts (`lines_append`, `splitOnce_append`, `trim_eq_self`), and that it invents no
character (`mem_of_mem_lines`, `mem_of_mem_trim` and so on). `assignment` reads a line
`key = value`, and `assignment_quoted` is its round trip.

A text is `Tight` when it has no white space at its ends. `exists_split` and `trim_of_split` say
together that `trim` gives the tight part of a text between white space, and
`Tight.infix_trim` that every tight part of a text survives it.
-/

set_option autoImplicit false

namespace Text

/-- Texts are compared as lists of characters. -/
instance lawfulBEq : LawfulBEq (List Char) := inferInstance

/-- The characters with the Unicode property `White_Space`. -/
def isWhitespace (c : Char) : Bool :=
  let n := c.toNat
  (9 ≤ n && n ≤ 13) || n == 0x20 || n == 0x85 || n == 0xA0 || n == 0x1680 ||
    (0x2000 ≤ n && n ≤ 0x200A) || n == 0x2028 || n == 0x2029 || n == 0x202F || n == 0x205F ||
    n == 0x3000

/-- Drop the characters in `p` from both ends. -/
def trimBoth (p : Char → Bool) (s : List Char) : List Char :=
  ((s.dropWhile p).reverse.dropWhile p).reverse

def trim (s : List Char) : List Char := trimBoth isWhitespace s

def trimMatches (c : Char) (s : List Char) : List Char := trimBoth (· == c) s

/-- What stands before and after the first `sep`. -/
def splitOnce (sep : Char) : List Char → Option (List Char × List Char)
  | [] => none
  | c :: cs =>
      if c = sep then some ([], cs)
      else (splitOnce sep cs).map fun kv => (c :: kv.1, kv.2)

/-- A line that ended in a line feed, without a carriage return before it. -/
def stripCr (line : List Char) : List Char :=
  if line.getLast? = some '\r' then line.dropLast else line

/-- The lines of a text of which `cur` is read already. -/
def linesFrom : (cur : List Char) → List Char → List (List Char)
  | cur, [] => if cur = [] then [] else [cur]
  | cur, c :: cs =>
      if c = '\n' then stripCr cur :: linesFrom [] cs else linesFrom (cur ++ [c]) cs

/-- The lines of a text; a last line needs no line feed. -/
def lines (text : List Char) : List (List Char) := linesFrom [] text

/-- The key and the value of a line `key = value`; an empty line, a comment and a line without `=`
have none. -/
def assignment (line : List Char) : Option (List Char × List Char) :=
  let line := trim line
  if line = [] ∨ line.head? = some '#' then none
  else (splitOnce '=' line).map fun kv => (trim kv.1, trim kv.2)

/-- The text has no line for the key. -/
def Lacks (text key : List Char) : Prop :=
  ∀ line ∈ lines text, ∀ v, assignment line ≠ some (key, v)

/-! ## Texts put together from parts -/

theorem linesFrom_append (cur : List Char) {a : List Char} (ha : '\n' ∉ a) (b : List Char) :
    linesFrom cur (a ++ '\n' :: b) = stripCr (cur ++ a) :: lines b := by
  induction a generalizing cur with
  | nil => rw [List.nil_append, List.append_nil, linesFrom, if_pos rfl, lines]
  | cons c cs ih =>
      have hc : c ≠ '\n' := fun h => ha (h ▸ List.mem_cons_self)
      have hcs : '\n' ∉ cs := fun h => ha (List.mem_cons_of_mem c h)
      rw [List.cons_append, linesFrom, if_neg hc, ih _ hcs, List.append_assoc,
        List.singleton_append]

theorem lines_append {a : List Char} (ha : '\n' ∉ a) (b : List Char) :
    lines (a ++ '\n' :: b) = stripCr a :: lines b := linesFrom_append [] ha b

@[simp] theorem lines_nil : lines [] = [] := rfl

/-- Lines that were each ended by a line feed are read back. -/
theorem lines_flatMap {ls : List (List Char)} (h : ∀ l ∈ ls, '\n' ∉ l ∧ l.getLast? ≠ some '\r') :
    lines (ls.flatMap (· ++ ['\n'])) = ls := by
  induction ls with
  | nil => rfl
  | cons l ls ih =>
      obtain ⟨hfeed, hcr⟩ := h l List.mem_cons_self
      rw [List.flatMap_cons, List.append_assoc, List.singleton_append, lines_append hfeed,
        stripCr, if_neg hcr, ih fun l' hl' => h l' (List.mem_cons_of_mem l hl')]

theorem splitOnce_append {sep : Char} {a : List Char} (ha : sep ∉ a) (b : List Char) :
    splitOnce sep (a ++ sep :: b) = some (a, b) := by
  induction a with
  | nil => exact if_pos rfl
  | cons c cs ih =>
      have hc : c ≠ sep := fun h => ha (h ▸ List.mem_cons_self)
      have hcs : sep ∉ cs := fun h => ha (List.mem_cons_of_mem c h)
      rw [List.cons_append, splitOnce, if_neg hc, ih hcs, Option.map_some]

/-- A character before the first separator is in the first part. -/
theorem mem_fst_of_splitOnce {sep c : Char} {p t a l : List Char} (hp : sep ∉ p) (hc : c ≠ sep)
    (h : splitOnce sep (p ++ c :: t) = some (a, l)) : c ∈ a := by
  induction p generalizing a l with
  | nil =>
      rw [List.nil_append, splitOnce, if_neg hc] at h
      obtain ⟨kv, -, heq⟩ := Option.map_eq_some_iff.mp h
      exact (Prod.mk.inj heq).1 ▸ List.mem_cons_self
  | cons d ds ih =>
      have hd : d ≠ sep := fun heq => hp (heq ▸ List.mem_cons_self)
      rw [List.cons_append, splitOnce, if_neg hd] at h
      obtain ⟨kv, hkv, heq⟩ := Option.map_eq_some_iff.mp h
      have hmem := ih (fun hmem => hp (List.mem_cons_of_mem d hmem)) hkv
      exact (Prod.mk.inj heq).1 ▸ List.mem_cons_of_mem d hmem

/-- A text between two characters that stay is not trimmed. -/
theorem trimBoth_eq_self {p : Char → Bool} {a b : Char} (ha : p a = false) (hb : p b = false)
    (s : List Char) : trimBoth p (a :: (s ++ [b])) = a :: (s ++ [b]) := by
  rw [trimBoth, List.dropWhile_cons_of_neg (by rw [ha]; nofun), ← List.cons_append,
    List.reverse_append, List.reverse_singleton, List.singleton_append,
    List.dropWhile_cons_of_neg (by rw [hb]; nofun), List.reverse_cons, List.reverse_reverse]

theorem trim_eq_self {a b : Char} (ha : isWhitespace a = false) (hb : isWhitespace b = false)
    (s : List Char) : trim (a :: (s ++ [b])) = a :: (s ++ [b]) := trimBoth_eq_self ha hb s

/-- What stays in a text that is trimmed: its characters other than white space. -/
theorem mem_trimBoth_of_mem {p : Char → Bool} {s : List Char} {c : Char} (h : c ∈ s)
    (hc : p c = false) : c ∈ trimBoth p s := by
  have hdrop : ∀ t : List Char, c ∈ t → c ∈ t.dropWhile p := by
    intro t ht
    induction t with
    | nil => cases ht
    | cons d ds ih =>
        cases hd : p d with
        | false => rwa [List.dropWhile_cons_of_neg (by rw [hd]; nofun)]
        | true =>
            rw [List.dropWhile_cons_of_pos hd]
            rcases List.mem_cons.mp ht with rfl | hmem
            · rw [hd] at hc
              cases hc
            · exact ih hmem
  exact List.mem_reverse.mpr (hdrop _ (List.mem_reverse.mpr (hdrop s h)))

theorem mem_trim_of_mem {s : List Char} {c : Char} (h : c ∈ s) (hc : isWhitespace c = false) :
    c ∈ trim s := mem_trimBoth_of_mem h hc

/-- Nothing is taken off the end before a character that stays. -/
theorem exists_trimEnd_append {p : Char → Bool} {c : Char} (hc : p c = false) (s t : List Char) :
    ∃ t', ((s ++ c :: t).reverse.dropWhile p).reverse = s ++ c :: t' := by
  have hdrop : ∀ r : List Char, ∃ r', (r ++ c :: s.reverse).dropWhile p = r' ++ c :: s.reverse := by
    intro r
    induction r with
    | nil => exact ⟨[], List.dropWhile_cons_of_neg (by rw [hc]; nofun)⟩
    | cons d ds ih =>
        rw [List.cons_append]
        cases hd : p d with
        | false => exact ⟨d :: ds, List.dropWhile_cons_of_neg (by rw [hd]; nofun)⟩
        | true =>
            rw [List.dropWhile_cons_of_pos hd]
            exact ih
  obtain ⟨r', hr'⟩ := hdrop t.reverse
  refine ⟨r'.reverse, ?_⟩
  rw [List.reverse_append, List.reverse_cons, List.append_assoc, List.singleton_append, hr']
  simp

/-- What stands between two characters that stay is not touched. -/
theorem exists_trim_append {a c : Char} (ha : isWhitespace a = false)
    (hc : isWhitespace c = false) (s t : List Char) :
    ∃ t', trim (a :: (s ++ c :: t)) = a :: (s ++ c :: t') := by
  rw [trim, trimBoth, List.dropWhile_cons_of_neg (by rw [ha]; nofun)]
  exact exists_trimEnd_append hc (a :: s) t

theorem exists_trim_cons {a : Char} (ha : isWhitespace a = false) (t : List Char) :
    ∃ t', trim (a :: t) = a :: t' := by
  rw [trim, trimBoth, List.dropWhile_cons_of_neg (by rw [ha]; nofun)]
  exact exists_trimEnd_append ha [] t

theorem trim_of_no_white {s : List Char} (h : ∀ c ∈ s, isWhitespace c = false) : trim s = s := by
  have hdrop : ∀ t : List Char, (∀ c ∈ t, isWhitespace c = false) →
      t.dropWhile isWhitespace = t := by
    intro t ht
    cases t with
    | nil => rfl
    | cons d ds => exact List.dropWhile_cons_of_neg (by rw [ht d List.mem_cons_self]; nofun)
  rw [trim, trimBoth, hdrop s h, hdrop _ fun c hc => h c (List.mem_reverse.mp hc),
    List.reverse_reverse]

theorem trim_append_white {s : List Char} (h : ∀ c ∈ s, isWhitespace c = false) {w : Char}
    (hw : isWhitespace w = true) : trim (s ++ [w]) = s := by
  have hs := trim_of_no_white h
  cases s with
  | nil => rw [List.nil_append, trim, trimBoth, List.dropWhile_cons_of_pos hw]; rfl
  | cons a s =>
      have ha : ¬ isWhitespace a = true := by rw [h a List.mem_cons_self]; nofun
      rw [trim, trimBoth, List.dropWhile_cons_of_neg ha] at hs
      rw [trim, trimBoth, List.cons_append, List.dropWhile_cons_of_neg ha, ← List.cons_append,
        List.reverse_append, List.reverse_singleton, List.singleton_append,
        List.dropWhile_cons_of_pos hw, hs]

/-- The marks around a value are taken off, if the value has none at its own ends. -/
theorem trimMatches_quoted {c : Char} {v : List Char} (hv : v ≠ []) (hhead : v.head? ≠ some c)
    (hlast : v.getLast? ≠ some c) : trimMatches c (c :: (v ++ [c])) = v := by
  obtain ⟨a, s, rfl⟩ := List.exists_cons_of_ne_nil hv
  have ha : ¬ (a == c) = true := fun h => hhead (congrArg some (eq_of_beq h))
  have hdrop : (a :: s).reverse.dropWhile (· == c) = (a :: s).reverse := by
    -- the last character of the value is the first of the reversed one
    cases hrev : (a :: s).reverse with
    | nil => rfl
    | cons b t =>
        refine List.dropWhile_cons_of_neg fun h => hlast ?_
        rw [List.getLast?_eq_head?_reverse, hrev, eq_of_beq h]
        rfl
  have hc : ∀ l : List Char, (c :: l).dropWhile (· == c) = l.dropWhile (· == c) :=
    fun l => List.dropWhile_cons_of_pos (beq_self_eq_true c)
  have hfirst : (a :: (s ++ [c])).dropWhile (· == c) = a :: (s ++ [c]) :=
    List.dropWhile_cons_of_neg ha
  rw [trimMatches, trimBoth, hc, List.cons_append, hfirst, ← List.cons_append,
    List.reverse_append, List.reverse_singleton, List.singleton_append, hc, hdrop,
    List.reverse_reverse]

theorem stripCr_eq_self {b : Char} (hb : b ≠ '\r') (s : List Char) :
    stripCr (s ++ [b]) = s ++ [b] := by
  rw [stripCr, List.getLast?_concat, if_neg fun h => hb (Option.some.inj h)]

/-! ## Lines of keys and values -/

/-- A comment. -/
theorem assignment_comment {line : List Char} (h : line.head? = some '#') :
    assignment line = none := by
  obtain ⟨t, rfl⟩ := List.head?_eq_some_iff.mp h
  obtain ⟨t', htrim⟩ := exists_trim_cons (a := '#') rfl t
  rw [assignment, htrim]
  exact if_pos (Or.inr rfl)

/-- A value in quotation marks is read with its marks. -/
theorem assignment_quoted {a : Char} {k : List Char} (ha : a ≠ '#') (heq : '=' ∉ a :: k)
    (hwhite : (a :: k).any isWhitespace = false) (v : List Char) :
    assignment (a :: k ++ " = \"".toList ++ v ++ ['"']) = some (a :: k, '"' :: (v ++ ['"'])) := by
  have hk : ∀ c ∈ a :: k, isWhitespace c = false := fun c hc =>
    Bool.eq_false_iff.mpr (List.any_eq_false.mp hwhite c hc)
  have hline : a :: k ++ " = \"".toList ++ v ++ ['"'] =
      a :: (k ++ " = \"".toList ++ v ++ ['"']) := rfl
  have htrim := trim_eq_self (hk a List.mem_cons_self) (b := '"') rfl (k ++ " = \"".toList ++ v)
  have hcut : a :: (k ++ " = \"".toList ++ v ++ ['"']) =
      (a :: k ++ [' ']) ++ '=' :: ' ' :: ('"' :: (v ++ ['"'])) := by
    simp
  have hkey : '=' ∉ a :: k ++ [' '] := by
    rw [List.mem_append, not_or]
    exact ⟨heq, by decide⟩
  have hval : trim (' ' :: ('"' :: (v ++ ['"']))) = '"' :: (v ++ ['"']) := by
    have hquoted := trim_eq_self (a := '"') (b := '"') rfl rfl v
    rw [trim, trimBoth, List.dropWhile_cons_of_pos rfl]
    exact hquoted
  have hhead : ¬ (a :: (k ++ " = \"".toList ++ v ++ ['"']) = [] ∨
      (a :: (k ++ " = \"".toList ++ v ++ ['"'])).head? = some '#') := by
    rintro (h | h)
    · cases h
    · exact ha (Option.some.inj h)
  rw [hline, assignment, htrim, if_neg hhead, hcut, splitOnce_append hkey, Option.map_some,
    trim_append_white hk rfl, hval]

theorem Lacks.ne {text key line k v : List Char} (h : Lacks text key) (hl : line ∈ lines text)
    (hkv : assignment line = some (k, v)) : k ≠ key :=
  fun heq => h line hl v (heq ▸ hkv)

/-- What no line changes is as it was at the start. -/
theorem foldl_keeps {σ α : Type*} {read : σ → List Char → σ} (field : σ → α)
    {ls : List (List Char)} (h : ∀ s, ∀ l ∈ ls, field (read s l) = field s) (s : σ) :
    field (ls.foldl read s) = field s := by
  induction ls generalizing s with
  | nil => rfl
  | cons l ls ih =>
      rw [List.foldl_cons, ih fun s' l' hl' => h s' l' (List.mem_cons_of_mem l hl')]
      exact h s l List.mem_cons_self

/-! ## No character is invented -/

theorem mem_of_mem_trimBoth {p : Char → Bool} {s : List Char} {c : Char}
    (h : c ∈ trimBoth p s) : c ∈ s := by
  have h := List.dropWhile_sublist p |>.subset (List.mem_reverse.mp h)
  exact (List.dropWhile_sublist p).subset (List.mem_reverse.mp h)

theorem mem_of_mem_splitOnce {sep c : Char} {s : List Char} {kv : List Char × List Char}
    (h : splitOnce sep s = some kv) (hc : c ∈ kv.2) : c ∈ s := by
  induction s generalizing kv with
  | nil => cases h
  | cons d ds ih =>
      rw [splitOnce] at h
      split at h
      · cases h
        exact List.mem_cons_of_mem d hc
      · obtain ⟨kv', hkv', rfl⟩ := Option.map_eq_some_iff.mp h
        exact List.mem_cons_of_mem d (ih hkv' hc)

theorem mem_of_mem_assignment {c : Char} {line k v : List Char}
    (h : assignment line = some (k, v)) (hc : c ∈ v) : c ∈ line := by
  rw [assignment] at h
  split at h
  · cases h
  · obtain ⟨kv, hkv, heq⟩ := Option.map_eq_some_iff.mp h
    obtain ⟨-, rfl⟩ := Prod.mk.inj heq
    exact mem_of_mem_trimBoth (mem_of_mem_splitOnce hkv (mem_of_mem_trimBoth hc))

theorem mem_of_mem_stripCr {s : List Char} {c : Char} (h : c ∈ stripCr s) : c ∈ s := by
  rw [stripCr] at h
  split at h
  · exact (List.dropLast_subset s) h
  · exact h

/-- No line holds a line feed. -/
theorem newline_not_mem_lines {text line : List Char} (h : line ∈ lines text) : '\n' ∉ line := by
  have hfrom : ∀ (text cur : List Char), '\n' ∉ cur → ∀ line ∈ linesFrom cur text,
      '\n' ∉ line := by
    intro text
    induction text with
    | nil =>
        intro cur hcur line hline
        rw [linesFrom] at hline
        split at hline
        · cases hline
        · rwa [List.mem_singleton.mp hline]
    | cons c cs ih =>
        intro cur hcur line hline
        rw [linesFrom] at hline
        split at hline
        · rcases List.mem_cons.mp hline with rfl | hrest
          · exact fun hmem => hcur (mem_of_mem_stripCr hmem)
          · exact ih [] List.not_mem_nil line hrest
        · next hc =>
            refine ih (cur ++ [c]) (fun hmem => ?_) line hline
            rcases List.mem_append.mp hmem with hmem | hmem
            · exact hcur hmem
            · exact hc (List.mem_singleton.mp hmem).symm
  exact hfrom text [] List.not_mem_nil line h

/-! ## Texts without white space at their ends -/

/-- White space only. -/
def White (w : List Char) : Prop := ∀ c ∈ w, isWhitespace c = true

/-- No white space at either end. -/
structure Tight (t : List Char) : Prop where
  head : ∀ a, t.head? = some a → isWhitespace a = false
  last : ∀ b, t.getLast? = some b → isWhitespace b = false

theorem White.dropWhile {w : List Char} (h : White w) : w.dropWhile isWhitespace = [] :=
  List.dropWhile_eq_nil_iff.mpr h

/-- A text whose first character stays is a fixed end of `dropWhile`. -/
theorem exists_dropWhile_append {p : Char → Bool} {t : List Char} (hne : t ≠ [])
    (h : ∀ a, t.head? = some a → p a = false) (x : List Char) :
    ∃ x', (x ++ t).dropWhile p = x' ++ t := by
  obtain ⟨a, t, rfl⟩ := List.exists_cons_of_ne_nil hne
  have ha : ¬ p a = true := by
    rw [h a rfl]
    exact Bool.false_ne_true
  rw [List.dropWhile_append]
  split
  · exact ⟨[], List.dropWhile_cons_of_neg ha⟩
  · exact ⟨x.dropWhile p, rfl⟩

/-- A text is what stays of it, with white space on both sides. -/
theorem exists_split (s : List Char) :
    ∃ w w', White w ∧ White w' ∧ s = w ++ (trim s ++ w') ∧ Tight (trim s) := by
  have hend := List.takeWhile_append_dropWhile (p := isWhitespace)
    (l := (s.dropWhile isWhitespace).reverse)
  have hrest : s.dropWhile isWhitespace =
      trim s ++ ((s.dropWhile isWhitespace).reverse.takeWhile isWhitespace).reverse := by
    rw [trim, trimBoth, ← List.reverse_append, hend, List.reverse_reverse]
  refine ⟨s.takeWhile isWhitespace,
    ((s.dropWhile isWhitespace).reverse.takeWhile isWhitespace).reverse, ?_, ?_, ?_, ?_, ?_⟩
  · exact fun c hc => List.mem_takeWhile_imp hc
  · exact fun c hc => List.mem_takeWhile_imp (List.mem_reverse.mp hc)
  · rw [← hrest, List.takeWhile_append_dropWhile]
  · intro a ha
    have hhead : (s.dropWhile isWhitespace).head? = some a := by
      rw [hrest, List.head?_append, ha]
      rfl
    have hnot := List.head?_dropWhile_not isWhitespace s
    rw [hhead] at hnot
    simpa using hnot
  · intro b hb
    rw [trim, trimBoth, List.getLast?_reverse] at hb
    have hnot := List.head?_dropWhile_not isWhitespace (s.dropWhile isWhitespace).reverse
    rw [hb] at hnot
    simpa using hnot

/-- What stays of a text between white space. -/
theorem trim_of_split {w t w' : List Char} (hw : White w) (hw' : White w') (ht : Tight t) :
    trim (w ++ (t ++ w')) = t := by
  rw [trim, trimBoth, List.dropWhile_append_of_pos hw]
  cases t with
  | nil =>
      rw [List.nil_append, hw'.dropWhile]
      rfl
  | cons a t =>
      have ha : ¬ isWhitespace a = true := by
        rw [ht.head a rfl]
        exact Bool.false_ne_true
      have hlast : ∀ b, (a :: t).reverse.head? = some b → ¬ isWhitespace b = true := by
        intro b hb
        rw [List.head?_reverse] at hb
        rw [ht.last b hb]
        exact Bool.false_ne_true
      rw [List.cons_append, List.dropWhile_cons_of_neg ha, ← List.cons_append,
        List.reverse_append,
        List.dropWhile_append_of_pos fun c hc => hw' c (List.mem_reverse.mp hc)]
      cases hrev : (a :: t).reverse with
      | nil =>
          rw [List.reverse_eq_nil_iff] at hrev
          cases hrev
      | cons b u =>
          rw [List.dropWhile_cons_of_neg (hlast b (by rw [hrev]; rfl)), ← hrev,
            List.reverse_reverse]

theorem tight_trim (s : List Char) : Tight (trim s) := by
  obtain ⟨w, w', -, -, -, ht⟩ := exists_split s
  exact ht

theorem Tight.trim_eq {t : List Char} (h : Tight t) : trim t = t := by
  have hwhite : White [] := List.forall_mem_nil _
  have hself := trim_of_split hwhite hwhite h
  rwa [List.nil_append, List.append_nil] at hself

theorem trim_trim (s : List Char) : trim (trim s) = trim s := (tight_trim s).trim_eq

/-- White space at the end makes no difference. -/
theorem trim_append_of_white {w : List Char} (hw : White w) (s : List Char) :
    trim (s ++ w) = trim s := by
  obtain ⟨u, u', hu, hu', heq, ht⟩ := exists_split s
  have hsplit : s ++ w = u ++ (trim s ++ (u' ++ w)) := by
    conv_lhs => rw [heq]
    simp only [List.append_assoc]
  rw [hsplit]
  refine trim_of_split hu (fun c hc => ?_) ht
  rcases List.mem_append.mp hc with hc | hc
  · exact hu' c hc
  · exact hw c hc

/-- A text that begins with a character that stays is cut at its end only. -/
theorem exists_split_cons {a : Char} (ha : isWhitespace a = false) (s : List Char) :
    ∃ w, White w ∧ a :: s = trim (a :: s) ++ w := by
  obtain ⟨w, w', hw, hw', heq, -⟩ := exists_split (a :: s)
  cases w with
  | nil => exact ⟨w', hw', heq⟩
  | cons b w =>
      have hb : isWhitespace b = true := hw b List.mem_cons_self
      rw [← (List.cons.inj heq).1, ha] at hb
      cases hb

theorem trim_isInfix (s : List Char) : trim s <:+: s := by
  obtain ⟨w, w', -, -, heq, -⟩ := exists_split s
  refine ⟨w, w', ?_⟩
  rw [List.append_assoc]
  exact heq.symm

/-- What has no white space at its ends stays. -/
theorem Tight.infix_trim {t s : List Char} (ht : Tight t) (h : t <:+: s) : t <:+: trim s := by
  by_cases hne : t = []
  · rw [hne]
    exact List.nil_infix
  · obtain ⟨x, y, rfl⟩ := h
    have hrev : t.reverse ≠ [] := fun heq => hne (List.reverse_eq_nil_iff.mp heq)
    have hhead : ∀ a, (t ++ y).head? = some a → isWhitespace a = false := by
      intro a ha
      rw [List.head?_append_of_ne_nil _ hne] at ha
      exact ht.head a ha
    have hty : t ++ y ≠ [] := fun heq => hne (List.append_eq_nil_iff.mp heq).1
    obtain ⟨x', hx'⟩ := exists_dropWhile_append hty hhead x
    have hlast : ∀ b, (t.reverse ++ x'.reverse).head? = some b → isWhitespace b = false := by
      intro b hb
      rw [List.head?_append_of_ne_nil _ hrev, List.head?_reverse] at hb
      exact ht.last b hb
    have htx : t.reverse ++ x'.reverse ≠ [] := fun heq => hrev (List.append_eq_nil_iff.mp heq).1
    obtain ⟨y', hy'⟩ := exists_dropWhile_append htx hlast y.reverse
    have hreverse : (x' ++ (t ++ y)).reverse = y.reverse ++ (t.reverse ++ x'.reverse) := by
      simp only [List.reverse_append, List.append_assoc]
    rw [trim, trimBoth, List.append_assoc, hx', hreverse, hy']
    refine ⟨x', y'.reverse, ?_⟩
    simp only [List.reverse_append, List.reverse_reverse, List.append_assoc]

/-- White space behind a text makes no difference when its front is cut. -/
theorem trim_dropWhile_append {w : List Char} (hw : White w) (p : Char → Bool) (s : List Char) :
    trim ((s ++ w).dropWhile p) = trim (s.dropWhile p) := by
  rw [List.dropWhile_append]
  split
  · next hempty =>
      have hwhite : White (w.dropWhile p) := fun c hc =>
        hw c ((List.dropWhile_sublist p).subset hc)
      rw [List.isEmpty_iff.mp hempty]
      exact trim_append_of_white hwhite []
  · exact trim_append_of_white hw _

/-- Cutting white space off the front makes no difference. -/
theorem trim_dropWhile_of_white {p : Char → Bool} (hp : ∀ c, p c = true → isWhitespace c = true)
    (s : List Char) : trim (s.dropWhile p) = trim s := by
  have hdrop : (s.dropWhile p).dropWhile isWhitespace = s.dropWhile isWhitespace := by
    induction s with
    | nil => rfl
    | cons c cs ih =>
        by_cases hc : p c = true
        · rw [List.dropWhile_cons_of_pos hc, List.dropWhile_cons_of_pos (hp c hc), ih]
        · rw [List.dropWhile_cons_of_neg hc]
  rw [trim, trimBoth, hdrop]
  rfl

theorem stripCr_isPrefix (line : List Char) : stripCr line <+: line := by
  rw [stripCr]
  split
  · exact List.dropLast_prefix line
  · exact List.prefix_rfl

/-- A carriage return at the end makes no difference. -/
theorem trim_stripCr (line : List Char) : trim (stripCr line) = trim line := by
  rw [stripCr]
  split
  · next hcr =>
      obtain ⟨l, rfl⟩ := List.getLast?_eq_some_iff.mp hcr
      rw [List.dropLast_concat]
      refine (trim_append_of_white (fun c hc => ?_) l).symm
      rw [List.mem_singleton.mp hc]
      rfl
  · rfl

/-- A line is a part of its text. -/
theorem infix_of_mem_lines {text line : List Char} (h : line ∈ lines text) : line <:+: text := by
  have hfrom : ∀ text cur : List Char, ∀ line ∈ linesFrom cur text, line <:+: cur ++ text := by
    intro text
    induction text with
    | nil =>
        intro cur line hline
        rw [linesFrom] at hline
        split at hline
        · cases hline
        · obtain rfl := List.mem_singleton.mp hline
          exact (List.prefix_append line []).isInfix
    | cons c cs ih =>
        intro cur line hline
        rw [linesFrom] at hline
        split at hline
        · rcases List.mem_cons.mp hline with rfl | hrest
          · exact ((stripCr_isPrefix cur).trans (List.prefix_append cur _)).isInfix
          · exact (ih [] line hrest).trans ((List.suffix_cons c cs).trans
              (List.suffix_append cur _)).isInfix
        · have hmore := ih (cur ++ [c]) line hline
          rwa [List.append_assoc] at hmore
  exact hfrom text [] line h

end Text
