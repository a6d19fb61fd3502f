import Mathlib.Data.List.Basic

/-!
# Path strings

Paths of a Unix host as they are written, and what is made of them without asking the host. `/`
separates the components; an empty component and a `.` count for nothing, except that a `.` in
front is kept. A path keeps its spelling: `parent` cuts the text before the last component and the
separators before that.

`resolve` reads a path as a walk through its components. A walk without `..` stays under the place
where it starts (`under_walk`), and a relative path that is joined to another walks on from there
(`resolve_join`).
-/

set_option autoImplicit false

namespace UnixPath

def isAbsolute (p : List Char) : Bool := p.head? = some '/'

/-- A component that counts for nothing. -/
def isTrivial (c : List Char) : Bool := c = [] || c = ['.']

/-- What stands before the components: the root, a `.` or nothing, and the rest cut at each `/`. -/
def split (p : List Char) : List Char × List (List Char) :=
  match p.splitOn '/' with
  | [] :: c :: cs => (['/'], c :: cs)
  | ['.'] :: cs => (['.'], cs)
  | cs => ([], cs)

/-- The text of components from the back, without the separators after them. -/
def text (front : List Char) (cs : List (List Char)) : List Char :=
  match front, (cs.dropWhile isTrivial).reverse with
  | front, [] => front
  | ['.'], cs => ['/'].intercalate (['.'] :: cs)
  | front, cs => front ++ ['/'].intercalate cs

/-- The path without its last component; the root and the empty path have none. -/
def parent (p : List Char) : Option (List Char) :=
  let (front, body) := split p
  match body.reverse.dropWhile isTrivial with
  | _ :: cs => some (text front cs)
  | [] => if front = ['.'] then some [] else none

/-- The last component, unless it is `..`. -/
def fileName (p : List Char) : Option (List Char) :=
  (((p.splitOn '/').filter fun c => !isTrivial c).getLast?).filter fun c => c ≠ ['.', '.']

/-- An absolute path takes the place of the one before it. -/
def join (p q : List Char) : List Char :=
  if isAbsolute q then q
  else if p = [] ∨ p.getLast? = some '/' then p ++ q
  else p ++ '/' :: q

example : parent "/a/b//./c".toList = some "/a/b".toList ∧ parent "//a".toList = some "/".toList ∧
    parent "./a/.".toList = some ".".toList ∧ parent "a".toList = some [] ∧
    parent "/".toList = none ∧ parent "a/..".toList = some "a".toList := by decide +kernel

theorem join_of_relative {q : List Char} (hq : isAbsolute q = false) (p : List Char) :
    join p q = if p = [] ∨ p.getLast? = some '/' then p ++ q else p ++ '/' :: q := by
  rw [join, hq, if_neg (by decide)]

/-! ## Lexical resolution -/

/-- Where a path leads if no component is a link: the directories above the working directory that
it climbs to, or the root, and the names below, the last one first. -/
structure Place where
  absolute : Bool
  ups : Nat
  names : List (List Char)
  deriving DecidableEq, Repr

namespace Place

def root : Place := ⟨true, 0, []⟩

def here : Place := ⟨false, 0, []⟩

/-- The root is its own parent. -/
def enter (p : Place) (c : List Char) : Place :=
  if isTrivial c then p
  else if c = ['.', '.'] then
    match p.names with
    | _ :: ns => { p with names := ns }
    | [] => if p.absolute then p else { p with ups := p.ups + 1 }
  else { p with names := c :: p.names }

def walk (p : Place) (cs : List (List Char)) : Place := cs.foldl enter p

/-- At `base` or below it. -/
def Under (base p : Place) : Prop :=
  p.absolute = base.absolute ∧ p.ups = base.ups ∧ base.names <:+ p.names

theorem under_refl (p : Place) : Under p p := ⟨rfl, rfl, List.suffix_refl _⟩

theorem Under.trans {a b c : Place} (h : Under a b) (h' : Under b c) : Under a c :=
  ⟨h'.1.trans h.1, h'.2.1.trans h.2.1, h.2.2.trans h'.2.2⟩

theorem walk_append (p : Place) (cs ds : List (List Char)) :
    p.walk (cs ++ ds) = (p.walk cs).walk ds := List.foldl_append

/-- Every component but `..` stays or goes down. -/
theorem under_enter (p : Place) {c : List Char} (hc : c ≠ ['.', '.']) : Under p (p.enter c) := by
  rw [enter]
  split
  · exact under_refl p
  · exact ⟨rfl, rfl, List.suffix_cons _ _⟩

theorem under_walk {cs : List (List Char)} (h : ['.', '.'] ∉ cs) (p : Place) :
    Under p (p.walk cs) := by
  induction cs generalizing p with
  | nil => exact under_refl p
  | cons c cs ih =>
      rw [List.mem_cons, not_or] at h
      exact (under_enter p (Ne.symm h.1)).trans (ih h.2 (p.enter c))

end Place

/-- Where a path starts. -/
def start (p : List Char) : Place := if isAbsolute p then .root else .here

def resolve (p : List Char) : Place := (start p).walk (p.splitOn '/')

theorem resolve_append_slash {p : List Char} (hp : p ≠ []) (q : List Char) :
    resolve (p ++ '/' :: q) = (resolve p).walk (q.splitOn '/') := by
  have hstart : start (p ++ '/' :: q) = start p := by
    obtain ⟨c, cs, rfl⟩ := List.exists_cons_of_ne_nil hp
    rfl
  rw [resolve, resolve, hstart, List.splitOn_append_cons_self, Place.walk_append]

/-- A relative path walks on from the place of the path that it is joined to. -/
theorem resolve_join (p : List Char) {q : List Char} (hq : isAbsolute q = false) :
    resolve (join p q) = (resolve p).walk (q.splitOn '/') := by
  rw [join_of_relative hq]
  split
  · next hp =>
      rcases hp with rfl | hlast
      · rw [List.nil_append, resolve, start, hq]
        rfl
      · obtain ⟨r, rfl⟩ := List.getLast?_eq_some_iff.mp hlast
        -- the empty component behind the last `/` counts for nothing
        have hrest : ∀ t : List Char, resolve (r ++ '/' :: t) =
            ((start (r ++ ['/'])).walk (r.splitOn '/')).walk (t.splitOn '/') := by
          intro t
          have hstart : start (r ++ '/' :: t) = start (r ++ ['/']) := by
            cases r <;> rfl
          rw [resolve, hstart, List.splitOn_append_cons_self, Place.walk_append]
        rw [List.append_assoc, List.singleton_append, hrest, hrest]
        rfl
  · next hp =>
      rw [not_or] at hp
      exact resolve_append_slash hp.1 q

/-- An absolute one does not. -/
theorem resolve_join_absolute (p : List Char) {q : List Char} (hq : isAbsolute q = true) :
    resolve (join p q) = Place.root.walk (q.splitOn '/') := by
  rw [join, hq, if_pos rfl, resolve, start, hq, if_pos rfl]

/-! ## Names in a directory -/

/-- What the host lists in a directory. -/
structure IsName (n : List Char) : Prop where
  slash : '/' ∉ n
  proper : isTrivial n = false ∧ n ≠ ['.', '.']

variable {n p q : List Char}

theorem IsName.not_isAbsolute (h : IsName n) : isAbsolute n = false := by
  refine decide_eq_false fun hn => h.slash ?_
  exact List.mem_of_mem_head? hn

theorem not_mem_of_mem_splitOn {p c : List Char} (h : c ∈ p.splitOn '/') : '/' ∉ c := by
  induction p generalizing c with
  | nil =>
      rw [List.splitOn_nil, List.mem_singleton] at h
      rw [h]
      exact List.not_mem_nil
  | cons x p ih =>
      rw [List.splitOn_cons_eq_if_modifyHead] at h
      split at h
      · next hx =>
          rcases List.mem_cons.mp h with rfl | h
          · exact List.not_mem_nil
          · exact ih h
      · next hx =>
          obtain ⟨d, ds, hd⟩ := List.exists_cons_of_ne_nil (List.splitOn_ne_nil '/' p)
          rw [hd, List.modifyHead_cons] at h
          rcases List.mem_cons.mp h with rfl | h
          · rw [List.mem_cons, not_or]
            exact ⟨fun heq => hx (by rw [← heq]; rfl), ih (hd ▸ List.mem_cons_self)⟩
          · exact ih (hd ▸ List.mem_cons_of_mem d h)

/-- The last component of a path is a name. -/
theorem isName_fileName (h : fileName p = some n) : IsName n := by
  obtain ⟨hlast, hdots⟩ := Option.filter_eq_some_iff.mp h
  obtain ⟨hmem, htrivial⟩ := List.mem_filter.mp (List.mem_of_getLast? hlast)
  refine ⟨not_mem_of_mem_splitOn hmem, ?_, of_decide_eq_true hdots⟩
  rwa [Bool.not_eq_true'] at htrivial

theorem IsName.filter_splitOn (h : IsName n) :
    ((n.splitOn '/').filter fun c => !isTrivial c) = [n] := by
  rw [List.splitOn_eq_singleton h.slash, List.filter_singleton, h.proper.1]
  rfl

theorem IsName.splitOn_append (h : IsName n) {d : List Char} (hd : '/' ∉ d) :
    (d ++ '/' :: n).splitOn '/' = [d, n] := by
  rw [List.splitOn_append_cons_self, List.splitOn_eq_singleton hd,
    List.splitOn_eq_singleton h.slash, List.singleton_append]

theorem IsName.fileName_append (h : IsName n) (p : List Char) :
    fileName (p ++ '/' :: n) = some n := by
  rw [fileName, List.splitOn_append_cons_self, List.filter_append, h.filter_splitOn,
    List.getLast?_concat, Option.filter_some, if_pos (by simpa using h.proper.2)]

/-- The name of a file is that in its directory. -/
theorem IsName.fileName_join (h : IsName n) (p : List Char) : fileName (join p n) = some n := by
  rw [join_of_relative h.not_isAbsolute]
  split
  · next hp =>
      rcases hp with rfl | hlast
      · rw [List.nil_append, fileName, h.filter_splitOn, List.getLast?_singleton,
          Option.filter_some, if_pos (by simpa using h.proper.2)]
      · obtain ⟨q, rfl⟩ := List.getLast?_eq_some_iff.mp hlast
        rw [List.append_assoc]
        exact h.fileName_append q
  · exact h.fileName_append p

/-- Into a directory and further down. -/
theorem join_join (hq : isAbsolute q = false) (hne : q ≠ []) (hlast : q.getLast? ≠ some '/')
    (hn : isAbsolute n = false) : join (join p q) n = join p (q ++ '/' :: n) := by
  obtain ⟨c, cs, rfl⟩ := List.exists_cons_of_ne_nil hne
  have habs : isAbsolute (c :: cs ++ '/' :: n) = isAbsolute (c :: cs) := rfl
  have hend : ∀ l : List Char, (l ++ c :: cs).getLast? ≠ some '/' := fun l => by
    rwa [List.getLast?_append_of_ne_nil l hne]
  rw [join_of_relative hn, join_of_relative hq, join_of_relative (habs.trans hq)]
  split
  · rw [if_neg, List.append_assoc]
    exact fun h => h.elim (fun h => by simp at h) (hend p)
  · rw [if_neg, List.append_assoc]
    · rfl
    · refine fun h => h.elim (fun h => by simp at h) fun h => hend (p ++ ['/']) ?_
      rwa [List.append_assoc]

end UnixPath
