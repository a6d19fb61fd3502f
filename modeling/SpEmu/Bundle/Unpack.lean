import SpEmu.Bundle.Pack

/-!
# Extracting a bundle

`unpack` writes the entries of an archive below a directory. An archive can come from anywhere, so
`isSafeEntry` turns away the names that could lead out of the directory.

`StaysUnder` says where a name leads: through the components one by one, with `..` and absolute
names read as a host without links reads them. `bundle_guard` says that no accepted name leaves the
directory, not even on the way, and that `pack` writes accepted names only.
-/

set_option autoImplicit false

namespace SpEmu

open UnixPath

/-! ## The guard and the extraction -/

/-- Neither empty nor absolute, and without a component `..`. -/
def isSafeEntry (name : List Char) : Bool :=
  name ≠ [] && name.head? ≠ some '/' && !(name.splitOn '/').any (· = ['.', '.'])

example : isSafeEntry "archives/sp.zip".toList = true ∧ isSafeEntry "/etc/passwd".toList = false ∧
    isSafeEntry "archives/../../escape".toList = false := by decide +kernel

structure ZipEntry where
  name : List Char
  isDir : Bool
  data : ByteArray

/-- What is asked of the host. -/
inductive HostOp where
  | createDirAll (p : List Char)
  | write (p : List Char) (data : ByteArray)

/-- A directory, or a file and the directory it is in. -/
def ZipEntry.extract (dest : List Char) (e : ZipEntry) : List HostOp :=
  let outp := join dest e.name
  if e.isDir then [.createDirAll outp]
  else (parent outp).toList.map HostOp.createDirAll ++ [.write outp e.data]

/-- The entries in their order, up to the first one that is refused. -/
def extractAll (dest : List Char) : List ZipEntry → List HostOp × Option (List Char)
  | [] => ([], none)
  | e :: es =>
      if isSafeEntry e.name then
        let (ops, refused) := extractAll dest es
        (e.extract dest ++ ops, refused)
      else ([], some e.name)

/-- The operations on a host that fails none of them, and the name that is refused. -/
def unpack (dest : List Char) (entries : List ZipEntry) : List HostOp × Option (List Char) :=
  let (ops, refused) := extractAll dest entries
  (.createDirAll dest :: ops, refused)

/-! ## Where a name leads -/

/-- The place after `k` components of an entry. An absolute name takes the place of the
directory. -/
def destination (dest name : List Char) (k : Nat) : Place :=
  (if isAbsolute name then .root else resolve dest).walk ((name.splitOn '/').take k)

/-- After all components it is the place of the joined path. -/
theorem destination_all (dest name : List Char) :
    destination dest name (name.splitOn '/').length = resolve (join dest name) := by
  rw [destination, List.take_length]
  cases habs : isAbsolute name with
  | true => rw [if_pos rfl, resolve_join_absolute dest habs]
  | false => rw [if_neg (by decide), resolve_join dest habs]

/-- An entry leads to the directory or below it, at the end and after each of its components. -/
def StaysUnder (dest name : List Char) : Prop :=
  (resolve dest).Under (resolve (join dest name)) ∧
    ∀ k, (resolve dest).Under (destination dest name k)

theorem isSafeEntry_iff {name : List Char} : isSafeEntry name = true ↔
    name ≠ [] ∧ isAbsolute name = false ∧ ['.', '.'] ∉ name.splitOn '/' := by
  rw [isSafeEntry, isAbsolute, Bool.and_eq_true, Bool.and_eq_true, decide_eq_true_iff,
    decide_eq_true_iff, Bool.not_eq_true', decide_eq_false_iff_not, List.any_eq_false, and_assoc]
  refine and_congr_right fun _ => and_congr_right fun _ => ?_
  constructor
  · exact fun h hmem => h _ hmem (decide_eq_true rfl)
  · intro h c hc heq
    rw [of_decide_eq_true heq] at hc
    exact h hc

theorem staysUnder_of_isSafeEntry {name : List Char} (h : isSafeEntry name = true)
    (dest : List Char) : StaysUnder dest name := by
  obtain ⟨-, habs, hdots⟩ := isSafeEntry_iff.mp h
  have hall : ∀ k, (resolve dest).Under (destination dest name k) := by
    intro k
    rw [destination, habs, if_neg (by decide)]
    exact Place.under_walk (fun hmem => hdots (List.mem_of_mem_take hmem)) _
  refine ⟨?_, hall⟩
  rw [← destination_all]
  exact hall _

/-! ## What an extraction does -/

theorem mem_extractAll {dest : List Char} {entries : List ZipEntry} {op : HostOp}
    (h : op ∈ (extractAll dest entries).1) :
    ∃ e ∈ entries, isSafeEntry e.name = true ∧ op ∈ e.extract dest := by
  induction entries with
  | nil => cases h
  | cons e es ih =>
      rw [extractAll] at h
      split at h
      · next hsafe =>
          rcases List.mem_append.mp h with h | h
          · exact ⟨e, List.mem_cons_self, hsafe, h⟩
          · obtain ⟨e', he', hrest⟩ := ih h
            exact ⟨e', List.mem_cons_of_mem e he', hrest⟩
      · -- nothing is asked for from a refused entry on
        cases h

/-- No file is written outside the directory. -/
theorem under_of_write {dest p : List Char} {entries : List ZipEntry} {data : ByteArray}
    (h : HostOp.write p data ∈ (unpack dest entries).1) :
    (resolve dest).Under (resolve p) := by
  rw [unpack] at h
  rcases List.mem_cons.mp h with h | h
  · cases h
  · obtain ⟨e, -, hsafe, hop⟩ := mem_extractAll h
    rw [ZipEntry.extract] at hop
    split at hop
    · cases List.mem_singleton.mp hop
    · rcases List.mem_append.mp hop with hop | hop
      · -- the parent of a file is made, not written
        obtain ⟨q, -, hq⟩ := List.mem_map.mp hop
        cases hq
      · cases List.mem_singleton.mp hop
        exact (staysUnder_of_isSafeEntry hsafe dest).1

/-- An archive of accepted names is extracted whole. -/
theorem extractAll_of_safe (dest : List Char) {entries : List ZipEntry}
    (h : ∀ e ∈ entries, isSafeEntry e.name = true) :
    extractAll dest entries = (entries.flatMap (ZipEntry.extract dest), none) := by
  induction entries with
  | nil => rfl
  | cons e es ih =>
      rw [extractAll, if_pos (h e List.mem_cons_self),
        ih fun e' he' => h e' (List.mem_cons_of_mem e he')]
      rfl

/-! ## The names of a packed bundle -/

namespace Instance

variable {I : Instance}

theorem isSafeEntry_archiveName {n : List Char} (hn : IsName n) :
    isSafeEntry (archiveName n) = true := by
  have hhead : (archiveName n).head? = some 'a' := rfl
  have hne : archiveName n ≠ [] := by
    intro h
    rw [h] at hhead
    cases hhead
  have habs : isAbsolute (archiveName n) = false := by
    rw [isAbsolute, hhead]
    decide
  refine isSafeEntry_iff.mpr ⟨hne, habs, ?_⟩
  -- the name has two components, and neither is `..`
  obtain ⟨d, hdir, hslash, hdots⟩ : ∃ d : List Char, "archives/".toList = d ++ ['/'] ∧ '/' ∉ d ∧
      ['.', '.'] ≠ d := ⟨"archives".toList, by decide +kernel⟩
  have hsplit : (archiveName n).splitOn '/' = [d, n] := by
    have hjoin : archiveName n = d ++ '/' :: n := by
      unfold archiveName
      rw [hdir, List.append_assoc, List.singleton_append]
    rw [hjoin]
    exact hn.splitOn_append hslash
  rw [hsplit, List.mem_cons, List.mem_singleton]
  rintro (h | h)
  · exact hdots h
  · exact hn.proper.2 h.symm

/-- A file has a fixed name, or one in `archives/`. -/
theorem isSafeEntry_of_source {name p : List Char} (h : I.Source name p) :
    isSafeEntry name = true := by
  cases h with
  | own hname hp =>
      have hall : (I.ownFiles.map Prod.fst).all isSafeEntry = true := by
        rw [names_ownFiles]
        decide +kernel
      exact List.all_eq_true.mp hall _ (List.mem_map_of_mem hname)
  | stowed hn => exact isSafeEntry_archiveName (isName_of_mem_readDir (List.mem_filter.mp hn).1)
  | page hn hp =>
      rw [page, Option.or_eq_some_iff] at hp
      rcases hp with hp | ⟨-, hp⟩ <;>
        exact isSafeEntry_archiveName
          (isName_fileName (of_decide_eq_true (Option.filter_eq_some_iff.mp hp).2).1)

theorem isSafeEntry_of_bundles {name : List Char} {data : ByteArray} (h : I.Bundles name data) :
    isSafeEntry name = true := by
  cases h with
  | manifest => decide +kernel
  | config => decide +kernel
  | file hname _ => exact isSafeEntry_of_source hname

theorem isSafeEntry_of_mem_pack {entries : List (List Char × ByteArray)}
    (h : I.pack = some entries) {e : List Char × ByteArray} (he : e ∈ entries) :
    isSafeEntry e.1 = true := by
  obtain ⟨entries', h', -, hmem⟩ := I.exists_pack
  rw [h] at h'
  cases h'
  exact isSafeEntry_of_bundles ((hmem e.1 e.2).mp he)

/-- A packed bundle is extracted whole, each file to its name below the directory. -/
theorem unpack_pack (dest : List Char) : ∃ entries, I.pack = some entries ∧
    unpack dest (entries.map fun e => ⟨e.1, false, e.2⟩) =
      (.createDirAll dest :: entries.flatMap fun e =>
        (parent (join dest e.1)).toList.map HostOp.createDirAll ++ [.write (join dest e.1) e.2],
        none) := by
  obtain ⟨entries, hpack, -, -⟩ := I.exists_pack
  refine ⟨entries, hpack, ?_⟩
  rw [unpack, extractAll_of_safe, List.flatMap_map]
  · rfl
  · intro e he
    obtain ⟨e', he', rfl⟩ := List.mem_map.mp he
    exact isSafeEntry_of_mem_pack hpack he'

end Instance

/-- An accepted entry stays in the directory at the end and after each of its components, and
every name that is packed is accepted. -/
theorem bundle_guard :
    (∀ dest name : List Char, isSafeEntry name = true → StaysUnder dest name) ∧
      ∀ (I : Instance) (entries : List (List Char × ByteArray)), I.pack = some entries →
        ∀ e ∈ entries, isSafeEntry e.1 = true :=
  ⟨fun dest _ h => staysUnder_of_isSafeEntry h dest,
    fun _ _ hpack _ he => Instance.isSafeEntry_of_mem_pack hpack he⟩

end SpEmu
