import Mathlib.Data.Char
import SpEmu.Config.Replay
import SpEmu.Flash.Controller
import SpEmu.Lib.FirstWins
import SpEmu.Lib.UnixPath

/-!
# The instance bundle

`pack` writes the files of an instance into one archive, with a manifest and a configuration whose
paths are relative to the archive. It works from two lists that are kept apart: the queue of files
with the names they get, and the knobs that `rewrittenConfig` sets to these names.

`Bundles` says which file a bundle has under which name: the instance's own files under fixed
names, then what is stowed in `archives/`, then the CMPA and the CFPA beside them, each only if
the name is free. `mem_pack` is that `pack` does just this. A text in the archive is read by its
lines: `sets_iff` says which entries the configuration has.
-/

set_option autoImplicit false

namespace SpEmu

open UnixPath

/-- What is asked of the host. -/
structure Host where
  /-- The content of a regular file. -/
  file : List Char → Option ByteArray
  /-- The names in a directory. -/
  readDir : List Char → Option (List (List Char))
  env : List Char → Option (List Char)
  tempDir : List Char
  /-- What has no last component is a directory. -/
  fileName_of_file (p : List Char) : (file p).isSome → (fileName p).isSome
  isName_of_readDir (d : List Char) (ns : List (List Char)) :
    readDir d = some ns → ∀ n ∈ ns, IsName n

namespace Host

variable (host : Host)

def isFile (p : List Char) : Bool := (host.file p).isSome

def readToString (p : List Char) : Option String := (host.file p).bind String.fromUTF8?

end Host

def nvStatePath (p : List Char) : List Char := p ++ ".nv".toList

/-- The directory of a flash image. -/
def instanceBase (p : List Char) : List Char :=
  ((parent p).filter fun d => d ≠ []).getD ['.']

def utf8 (text : List Char) : ByteArray := (String.ofList text).toUTF8

/-- An emulator with its configuration. -/
structure Instance where
  host : Host
  resolved : Config.Resolved

namespace Instance

variable (I : Instance)

def cfg : Config := I.resolved.config

/-! ## Where the files are -/

def stateDir : List Char :=
  match I.cfg .stateDir with
  | some d => d
  | none =>
      let base := (Config.nonempty (I.host.env "XDG_STATE_HOME".toList)).or
        ((Config.nonempty (I.host.env "HOME".toList)).map (· ++ "/.local/state".toList))
      match base with
      | some b => b ++ "/sp-emu".toList
      | none => I.host.tempDir ++ "/sp-emu".toList

def isSet (k : Knob) : Bool := I.resolved.inputs.any fun p => p.1 = k

/-- A value that was set is a path as it is. -/
def instanceFile (k : Knob) (value : List Char) : List Char :=
  if I.isSet k || isAbsolute value then value else I.stateDir ++ '/' :: value

def spFlash : List Char := I.instanceFile .flash (I.cfg .flash)

def identity : List Char := I.instanceFile .identity (I.cfg .identity)

def rotNvm : List Char := I.instanceFile .rotNvm (I.cfg .rotNvm)

def base : List Char := instanceBase I.spFlash

def archDir : List Char := join I.base "archives".toList

def spArch : Option (List Char) :=
  (loadNv (I.host.readToString (nvStatePath I.spFlash))).archive.map String.toList

def rotMeta : RotMeta := loadRotMeta (I.host.readToString (nvStatePath I.rotNvm))

/-! ## The files and their names -/

/-- The instance's own files. -/
def ownFiles : List (List Char × List Char) :=
  [("sp-flash.bin".toList, I.spFlash),
    ("sp-flash.bin.nv".toList, nvStatePath I.spFlash),
    ("sp-rot-flash.bin".toList, I.rotNvm),
    ("sp-rot-flash.bin.nv".toList, nvStatePath I.rotNvm),
    ("sp-rot-flash.bin.erased".toList, I.rotNvm ++ ".erased".toList),
    ("identity".toList, I.identity)]

def archiveName (n : List Char) : List Char := "archives/".toList ++ n

def stowed : List (List Char × List Char) :=
  ((I.host.readDir I.archDir).getD []).filterMap fun n =>
    let p := join I.archDir n
    if I.host.isFile p then (fileName p).map fun n => (archiveName n, p) else none

/-- The pages of the RoT's flash that are given as files and not stowed. -/
def pages : List (Knob × List Char) :=
  ((I.cfg .rotCmpa).map fun p => (Knob.rotCmpa, p)).toList ++
    ((I.cfg .rotCfpa).map fun p => (Knob.rotCfpa, p)).toList

def pageFiles : List (List Char × List Char) :=
  I.pages.filterMap fun kp => (fileName kp.2).map fun n => (archiveName n, kp.2)

/-- What is no regular file is skipped. -/
def queue : List (List Char × List Char) :=
  (I.ownFiles.filter fun f => I.host.isFile f.2) ++ I.stowed ++
    I.pageFiles.filter fun f => I.host.isFile f.2

def files : List (List Char × List Char) := Keyed.firstWins I.queue

/-! ## The two texts -/

def component (name : List Char) (arch source : Option (List Char)) : List Char :=
  match arch with
  | none => []
  | some a =>
      "\n[components.".toList ++ name ++ "]\narchive = \"".toList ++ a ++ "\"\n".toList ++
        source.elim [] fun s => "source = \"".toList ++ s ++ "\"\n".toList

def buildManifest : List Char :=
  "schema = 1\n".toList ++
    "board = \"".toList ++
      (match I.cfg .board with
        | .sidecar => "sidecar".toList
        | .gimlet => "gimlet".toList) ++ "\"\n".toList ++
    (I.cfg .seed).elim [] (fun s => "seed = \"".toList ++ s ++ "\"\n".toList) ++
    "\n# Which bundled Hubris archive produced each component: humility -a <archive>.\n".toList ++
    component "sp".toList I.spArch (I.cfg .archive) ++
    component "rot_a".toList (I.rotMeta.slotAArchive.map String.toList) (I.cfg .rotFlash) ++
    component "rot_b".toList (I.rotMeta.slotBArchive.map String.toList) (I.cfg .rotImageB) ++
    component "stage0".toList (I.rotMeta.stage0Archive.map String.toList) (I.cfg .rotBootleby)

/-- `PATH_KNOBS`. -/
def pathKnobs : List Knob :=
  [.flash, .rotNvm, .identity, .archive, .rotFlash, .rotImageB, .rotBootleby, .rotCmpa, .rotCfpa,
    .rotDice, .stateDir]

def bundleHeader : List (List Char) :=
  ["# sp-emu instance bundle config; paths are bundle-relative.".toList,
    "# Reproduce with:  cd <this dir> && sp-emu --load-config config.toml run a 0".toList,
    []]

/-- Whether a line of the configuration is kept: no comment, and no path. -/
def keeps (line : List Char) : Bool :=
  let t := Text.trim line
  if t = [] ∨ t.head? = some '#' then false
  else
    let name := Text.trim (t.takeWhile (· ≠ '='))
    name ∉ pathKnobs.map Knob.name

/-- The knobs that are set to a name in the bundle. -/
def setKnobs : List (Knob × List Char) :=
  [(.flash, "sp-flash.bin".toList)] ++
    (if I.host.isFile I.rotNvm then [(.rotNvm, "sp-rot-flash.bin".toList)] else []) ++
    (if I.host.isFile I.identity then [(.identity, "identity".toList)] else []) ++
    (I.spArch.map fun a => (Knob.archive, a)).toList ++
    (I.rotMeta.slotAArchive.map fun a => (Knob.rotFlash, a.toList)).toList ++
    (I.rotMeta.slotBArchive.map fun a => (Knob.rotImageB, a.toList)).toList ++
    (I.rotMeta.stage0Archive.map fun a => (Knob.rotBootleby, a.toList)).toList ++
    I.pages.filterMap fun kp => (fileName kp.2).map fun n => (kp.1, archiveName n)

def rewrittenConfig : List Char :=
  Toml.unlines bundleHeader ++
    Toml.unlines ((Text.lines (Config.flatToml I.resolved.inputs)).filter keeps) ++
    I.setKnobs.flatMap fun p => p.1.name ++ " = \"".toList ++ Config.escapeToml p.2 ++ "\"\n".toList

def manifestName : List Char := "manifest.toml".toList

def configName : List Char := "config.toml".toList

/-- The entries of the archive; `none` if a file cannot be read. -/
def pack : Option (List (List Char × ByteArray)) := do
  let data ← I.files.mapM fun f => (I.host.file f.2).map fun d => (f.1, d)
  return (manifestName, utf8 I.buildManifest) :: (configName, utf8 I.rewrittenConfig) :: data

/-! ## Which file is bundled under which name -/

/-- The names in `archives/`. -/
def stowedNames : List (List Char) :=
  ((I.host.readDir I.archDir).getD []).filter fun n => I.host.isFile (join I.archDir n)

/-- The CMPA if it is a file of this name, or else the CFPA. -/
def page (n : List Char) : Option (List Char) :=
  ((I.cfg .rotCmpa).filter fun p => fileName p = some n ∧ I.host.isFile p).or
    ((I.cfg .rotCfpa).filter fun p => fileName p = some n ∧ I.host.isFile p)

/-- The file that has a name in the bundle. -/
inductive Source : List Char → List Char → Prop
  | own {name p : List Char} (hname : (name, p) ∈ I.ownFiles) (hp : I.host.isFile p) : Source name p
  | stowed {n : List Char} (hn : n ∈ I.stowedNames) : Source (archiveName n) (join I.archDir n)
  | page {n p : List Char} (hn : n ∉ I.stowedNames) (hp : I.page n = some p) :
      Source (archiveName n) p

/-- What the bundle holds under a name. -/
inductive Bundles : List Char → ByteArray → Prop
  | manifest : Bundles manifestName (utf8 I.buildManifest)
  | config : Bundles configName (utf8 I.rewrittenConfig)
  | file {name p : List Char} {data : ByteArray} (hname : I.Source name p)
      (hp : I.host.file p = some data) : Bundles name data

variable {I}

theorem archiveName_injective : Function.Injective archiveName := List.append_right_injective _

theorem names_ownFiles : I.ownFiles.map Prod.fst =
    ["sp-flash.bin".toList, "sp-flash.bin.nv".toList, "sp-rot-flash.bin".toList,
      "sp-rot-flash.bin.nv".toList, "sp-rot-flash.bin.erased".toList, "identity".toList] := rfl

theorem nodup_ownFiles : (I.ownFiles.map Prod.fst).Nodup := by
  rw [names_ownFiles]
  decide +kernel

/-- Neither one of the own files nor one of the two texts. -/
theorem archiveName_ne (n : List Char) :
    archiveName n ∉ I.ownFiles.map Prod.fst ∧ archiveName n ≠ manifestName ∧
      archiveName n ≠ configName := by
  have hhead : (archiveName n).head? = some 'a' := rfl
  have hother : ∀ m ∈ manifestName :: configName :: I.ownFiles.map Prod.fst,
      m.head? ≠ some 'a' := by
    rw [names_ownFiles]
    decide +kernel
  refine ⟨fun h => ?_, fun h => ?_, fun h => ?_⟩
  · exact hother _ (List.mem_cons_of_mem _ (List.mem_cons_of_mem _ h)) hhead
  · exact hother _ List.mem_cons_self (h ▸ hhead)
  · exact hother _ (List.mem_cons_of_mem _ List.mem_cons_self) (h ▸ hhead)

theorem isName_of_mem_readDir {n : List Char}
    (hn : n ∈ (I.host.readDir I.archDir).getD []) : IsName n := by
  cases hdir : I.host.readDir I.archDir with
  | none =>
      rw [hdir] at hn
      cases hn
  | some ns =>
      rw [hdir] at hn
      exact I.host.isName_of_readDir _ ns hdir n hn

theorem stowed_eq : I.stowed = I.stowedNames.map fun n => (archiveName n, join I.archDir n) := by
  have hname := fun n => isName_of_mem_readDir (I := I) (n := n)
  rw [stowed, stowedNames]
  generalize (I.host.readDir I.archDir).getD [] = ns at hname ⊢
  induction ns with
  | nil => rfl
  | cons n ns ih =>
      have hrest := ih fun m hm => hname m (List.mem_cons_of_mem n hm)
      have hfile := (hname n List.mem_cons_self).fileName_join I.archDir
      rw [List.filterMap_cons, List.filter_cons]
      dsimp only
      cases I.host.isFile (join I.archDir n) with
      | false => exact hrest
      | true =>
          rw [if_pos rfl, if_pos rfl, hfile, Option.map_some]
          exact congrArg (_ :: ·) hrest

theorem lookup_ownFiles {name p : List Char} :
    (I.ownFiles.filter fun f => I.host.isFile f.2).lookup name = some p ↔
      (name, p) ∈ I.ownFiles ∧ I.host.isFile p = true := by
  have hnodup := nodup_ownFiles (I := I).sublist
    ((List.filter_sublist (p := fun f => I.host.isFile f.2)).map Prod.fst)
  rw [← List.mem_filter (p := fun f : List Char × List Char => I.host.isFile f.2)]
  exact ⟨Keyed.mem_of_lookup, Keyed.lookup_of_mem hnodup⟩

theorem lookup_page (k : Knob) (o : Option (List Char)) (n : List Char) :
    (((o.map fun p => (k, p)).toList.filterMap fun kp =>
        (fileName kp.2).map fun n => (archiveName n, kp.2)).filter
          fun f => I.host.isFile f.2).lookup (archiveName n) =
      o.filter fun p => fileName p = some n ∧ I.host.isFile p := by
  cases o with
  | none => rfl
  | some p =>
      rw [Option.map_some, Option.toList_some, Option.filter_some, List.filterMap_cons,
        List.filterMap_nil]
      dsimp only
      cases hname : fileName p with
      | none => simp
      | some m =>
          rw [Option.map_some, List.filter_singleton]
          dsimp only
          cases I.host.isFile p with
          | false => simp
          | true =>
              by_cases h : n = m
              · subst h
                simp
              · have hne : archiveName n ≠ archiveName m := fun heq => h (archiveName_injective heq)
                simp [Keyed.lookup_cons_of_ne hne, Ne.symm h]

theorem lookup_pageFiles (n : List Char) :
    (I.pageFiles.filter fun f => I.host.isFile f.2).lookup (archiveName n) = I.page n := by
  rw [page, pageFiles, pages, List.filterMap_append, List.filter_append, List.lookup_append]
  congr 1
  · exact lookup_page .rotCmpa (I.cfg .rotCmpa) n
  · exact lookup_page .rotCfpa (I.cfg .rotCfpa) n

/-- Only names in `archives/` are given to stowed files and pages. -/
theorem exists_of_mem_archives {f : List Char × List Char}
    (h : f ∈ I.stowed ++ I.pageFiles.filter fun f => I.host.isFile f.2) :
    ∃ n, f.1 = archiveName n := by
  rcases List.mem_append.mp h with h | h
  · rw [stowed_eq] at h
    obtain ⟨n, -, rfl⟩ := List.mem_map.mp h
    exact ⟨n, rfl⟩
  · obtain ⟨kp, -, hkp⟩ := List.mem_filterMap.mp (List.mem_filter.mp h).1
    obtain ⟨n, -, rfl⟩ := Option.map_eq_some_iff.mp hkp
    exact ⟨n, rfl⟩

theorem lookup_archives (n : List Char) :
    (I.stowed ++ I.pageFiles.filter fun f => I.host.isFile f.2).lookup (archiveName n) =
      if n ∈ I.stowedNames then some (join I.archDir n) else I.page n := by
  rw [List.lookup_append, stowed_eq, Keyed.lookup_map_name archiveName_injective, lookup_pageFiles]
  split
  · rw [Option.some_or]
  · rw [Option.none_or]

theorem source_iff {name p : List Char} : I.Source name p ↔
    (name, p) ∈ I.ownFiles ∧ I.host.isFile p = true ∨
      ∃ n, name = archiveName n ∧
        (if n ∈ I.stowedNames then some (join I.archDir n) else I.page n) = some p := by
  constructor
  · intro h
    cases h with
    | own hname hp => exact .inl ⟨hname, hp⟩
    | stowed hn => exact .inr ⟨_, rfl, if_pos hn⟩
    | page hn hp => exact .inr ⟨_, rfl, (if_neg hn).trans hp⟩
  · rintro (⟨hname, hp⟩ | ⟨n, rfl, hp⟩)
    · exact .own hname hp
    · split at hp
      · next hn =>
          obtain rfl := Option.some.inj hp
          exact .stowed hn
      · next hn => exact .page hn hp

theorem lookup_queue {name p : List Char} : I.queue.lookup name = some p ↔ I.Source name p := by
  rw [source_iff, queue, List.append_assoc, List.lookup_append, Option.or_eq_some_iff,
    lookup_ownFiles]
  refine or_congr_right ⟨?_, ?_⟩
  · rintro ⟨-, h⟩
    obtain ⟨n, rfl⟩ := exists_of_mem_archives (Keyed.mem_of_lookup h)
    rw [lookup_archives] at h
    exact ⟨n, rfl, h⟩
  · rintro ⟨n, rfl, hn⟩
    refine ⟨Keyed.lookup_of_not_mem fun h => (archiveName_ne (I := I) n).1 ?_, ?_⟩
    · exact (List.filter_sublist.map Prod.fst).subset h
    · rw [lookup_archives, hn]

theorem mem_files {name p : List Char} : (name, p) ∈ I.files ↔ I.Source name p :=
  Keyed.mem_firstWins.trans lookup_queue

theorem isFile_of_source {name p : List Char} (h : I.Source name p) : I.host.isFile p = true := by
  cases h with
  | own hname hp => exact hp
  | stowed hn => exact (List.mem_filter.mp hn).2
  | page hn hp =>
      rw [page, Option.or_eq_some_iff] at hp
      rcases hp with hp | ⟨-, hp⟩ <;>
        exact (of_decide_eq_true (Option.filter_eq_some_iff.mp hp).2).2

/-- No name of a file is that of a text. -/
theorem ne_of_source {name p : List Char} (h : I.Source name p) :
    name ≠ manifestName ∧ name ≠ configName := by
  have hown : ∀ m ∈ I.ownFiles.map Prod.fst, m ≠ manifestName ∧ m ≠ configName := by
    rw [names_ownFiles]
    decide +kernel
  cases h with
  | own hname hp => exact hown _ (List.mem_map_of_mem hname)
  | stowed hn => exact (archiveName_ne (I := I) _).2
  | page hn hp => exact (archiveName_ne (I := I) _).2

theorem manifestName_ne : manifestName ≠ configName := by decide +kernel

/-- Packing gives an archive in which no name comes twice, with what is to be bundled. -/
theorem exists_pack : ∃ entries, I.pack = some entries ∧ (entries.map Prod.fst).Nodup ∧
    ∀ name data, (name, data) ∈ entries ↔ I.Bundles name data := by
  have hread : ∀ f ∈ I.files, (I.host.file f.2).isSome := fun f hf =>
    isFile_of_source (mem_files.mp hf)
  obtain ⟨data, hdata, hnames, hmem⟩ := Keyed.mapM_values hread
  have hne : ∀ n ∈ data.map Prod.fst, n ≠ manifestName ∧ n ≠ configName := by
    intro n hn
    rw [hnames] at hn
    obtain ⟨⟨m, p⟩, hf, rfl⟩ := List.mem_map.mp hn
    exact ne_of_source (mem_files.mp hf)
  refine ⟨_, by rw [pack, hdata]; rfl, ?_, fun name d => ?_⟩
  · have hnodup : (data.map Prod.fst).Nodup := hnames ▸ Keyed.nodup_firstWins I.queue
    rw [List.map_cons, List.map_cons, List.nodup_cons, List.nodup_cons, List.mem_cons, not_or]
    exact ⟨⟨manifestName_ne, fun h => (hne _ h).1 rfl⟩, fun h => (hne _ h).2 rfl, hnodup⟩
  · rw [List.mem_cons, List.mem_cons, hmem]
    constructor
    · rintro (heq | heq | ⟨p, hp, hfile⟩)
      · obtain ⟨hname, hd⟩ := Prod.mk.inj heq
        rw [hname, hd]
        exact .manifest
      · obtain ⟨hname, hd⟩ := Prod.mk.inj heq
        rw [hname, hd]
        exact .config
      · exact .file (mem_files.mp hp) hfile
    · intro h
      cases h with
      | manifest => exact .inl rfl
      | config => exact .inr (.inl rfl)
      | file hname hp => exact .inr (.inr ⟨_, mem_files.mpr hname, hp⟩)

/-! ## What the configuration sets -/

/-- A text has the line of an entry. -/
def Sets (text : List Char) (k : Knob) (v : List Char) : Prop :=
  Toml.entryLine k.name v ∈ Text.lines text

theorem head?_entryLine (k : Knob) (v : List Char) :
    ∃ c cs, Toml.entryLine k.name v = c :: (cs ++ ['"']) ∧ Toml.isBareKey c = true := by
  obtain ⟨hbare, hne⟩ := Config.name_isBareKey k
  obtain ⟨c, cs, hname⟩ := List.exists_cons_of_ne_nil hne
  refine ⟨c, cs ++ " = \"".toList ++ Toml.escape v, by rw [Toml.entryLine, hname]; rfl, ?_⟩
  exact List.all_eq_true.mp hbare c (hname ▸ List.mem_cons_self)

/-- The line of an entry is kept unless the knob is a path. -/
theorem keeps_entryLine (k : Knob) (v : List Char) :
    keeps (Toml.entryLine k.name v) = decide (k.name ∉ pathKnobs.map Knob.name) := by
  obtain ⟨c, cs, hline, hc⟩ := head?_entryLine k v
  have htrim : Text.trim (Toml.entryLine k.name v) = Toml.entryLine k.name v := by
    rw [hline]
    exact Text.trim_eq_self (Toml.ne_of_isBareKey hc).1 (by decide) cs
  have hbare : ∀ d ∈ k.name, Toml.isBareKey d = true :=
    List.all_eq_true.mp (Config.name_isBareKey k).1
  have htake : (Toml.entryLine k.name v).takeWhile (· ≠ '=') = k.name ++ [' '] := by
    have hsplit : Toml.entryLine k.name v =
        (k.name ++ [' ']) ++ '=' :: (" \"".toList ++ Toml.escape v ++ ['"']) := by
      simp [Toml.entryLine]
    rw [hsplit, List.takeWhile_append_of_pos, List.takeWhile_cons_of_neg (by decide),
      List.append_nil]
    intro d hd
    rcases List.mem_append.mp hd with hd | hd
    · exact decide_eq_true (Toml.ne_of_isBareKey (hbare d hd)).2.1
    · rw [List.mem_singleton.mp hd]
      rfl
  have hname : Text.trim (k.name ++ [' ']) = k.name :=
    Text.trim_append_white (fun d hd => (Toml.ne_of_isBareKey (hbare d hd)).1) (by decide)
  have hnot : ¬ (Toml.entryLine k.name v = [] ∨ (Toml.entryLine k.name v).head? = some '#') := by
    rw [hline]
    rintro (h | h)
    · cases h
    · exact (Toml.ne_of_isBareKey hc).2.2 (Option.some.inj h)
  rw [keeps, htrim]
  dsimp only
  rw [if_neg hnot, htake, hname]

variable {get : List Char → Option (List Char)}

/-- The entries that are kept. -/
def keptInputs (get : List Char → Option (List Char)) : List (List Char × List Char) :=
  (Config.dumped get).filter fun p => p.1 ∉ pathKnobs.map Knob.name

theorem filter_lines_flatToml :
    (Text.lines (Config.flatToml (Config.inputsOf get))).filter keeps =
      (keptInputs get).map fun p => Toml.entryLine p.1 p.2 := by
  have hkey : ∀ p ∈ Config.dumped get, p.1.all Toml.isBareKey = true := by
    intro p hp
    obtain ⟨k, -, -, hk⟩ := (Keyed.mem_entries _).mp hp
    exact hk ▸ (Config.name_isBareKey k).1
  have hheader : Config.flatHeader.filter keeps = [] := by decide +kernel
  rw [Config.flatToml_inputsOf,
    Toml.lines_document (fun l hl => (Config.header_skipped l hl).2) hkey, List.filter_append,
    hheader, List.nil_append, List.filter_map, keptInputs]
  refine congrArg _ (List.filter_congr fun p hp => ?_)
  obtain ⟨k, -, -, hk⟩ := (Keyed.mem_entries _).mp hp
  rw [Function.comp_apply, ← hk]
  exact keeps_entryLine k p.2

theorem mem_keptInputs {p : List Char × List Char} : p ∈ keptInputs get ↔
    ∃ k : Knob, k.name = p.1 ∧ get k.name = some p.2 ∧ k ∉ Config.notPersisted ∧
      k ∉ pathKnobs := by
  obtain ⟨n, v⟩ := p
  have hpath (k : Knob) : k.name ∈ pathKnobs.map Knob.name ↔ k ∈ pathKnobs :=
    List.mem_map_of_injective Knob.name_injective
  rw [keptInputs, List.mem_filter, decide_eq_true_iff, Config.dumped, Keyed.mem_entries]
  constructor
  · rintro ⟨⟨k, -, hk, rfl⟩, hnot⟩
    rw [Config.persisted] at hk
    split at hk
    · cases hk
    · next hpersisted => exact ⟨k, rfl, hk, hpersisted, fun h => hnot ((hpath k).mpr h)⟩
  · rintro ⟨k, rfl, hk, hpersisted, hnot⟩
    exact ⟨⟨k, k.mem_all, by rw [Config.persisted, if_neg hpersisted, hk], rfl⟩,
      fun h => hnot ((hpath k).mp h)⟩

theorem names_of_entries (p : List Char × List Char)
    (hp : p ∈ keptInputs get ++ I.setKnobs.map fun p => (p.1.name, p.2)) :
    ∃ k : Knob, k.name = p.1 := by
  rcases List.mem_append.mp hp with hp | hp
  · obtain ⟨k, hk, -⟩ := mem_keptInputs.mp hp
    exact ⟨k, hk⟩
  · obtain ⟨q, -, rfl⟩ := List.mem_map.mp hp
    exact ⟨q.1, rfl⟩

/-- A header, what is kept of the inputs and what is set. -/
theorem lines_rewrittenConfig (hget : I.resolved.inputs = Config.inputsOf get) :
    Text.lines I.rewrittenConfig =
      bundleHeader ++ (keptInputs get ++ I.setKnobs.map fun p => (p.1.name, p.2)).map
        fun p => Toml.entryLine p.1 p.2 := by
  have hset : I.setKnobs.flatMap (fun p =>
      p.1.name ++ " = \"".toList ++ Config.escapeToml p.2 ++ "\"\n".toList) =
        Toml.unlines ((I.setKnobs.map fun p => (p.1.name, p.2)).map
          fun p => Toml.entryLine p.1 p.2) := by
    rw [Toml.unlines, List.flatMap_map, List.flatMap_map]
    exact List.flatMap_congr fun p _ => Config.line_eq p.1 p.2
  have htext : I.rewrittenConfig = Toml.unlines (bundleHeader ++
      (keptInputs get ++ I.setKnobs.map fun p => (p.1.name, p.2)).map
        fun p => Toml.entryLine p.1 p.2) := by
    rw [rewrittenConfig, hget, filter_lines_flatToml, hset, Toml.unlines, Toml.unlines,
      Toml.unlines, Toml.unlines, List.map_append, List.flatMap_append, List.flatMap_append,
      List.append_assoc]
  rw [htext]
  refine Toml.lines_document (by decide +kernel) fun p hp => ?_
  obtain ⟨k, hk⟩ := names_of_entries p hp
  exact hk ▸ (Config.name_isBareKey k).1

/-- The lines of entries under names of knobs tell the entries apart. -/
theorem mem_entryLines {ps : List (List Char × List Char)}
    (hps : ∀ p ∈ ps, ∃ l : Knob, l.name = p.1) (k : Knob) (v : List Char) :
    (Toml.entryLine k.name v ∈ ps.map fun p => Toml.entryLine p.1 p.2) ↔ (k.name, v) ∈ ps := by
  rw [List.mem_map]
  constructor
  · rintro ⟨⟨n, w⟩, hp, heq⟩
    obtain ⟨l, hl⟩ := hps _ hp
    obtain ⟨hn, hw⟩ := (Toml.entryLine_inj (hl ▸ (Config.name_isBareKey l).1)
      (Config.name_isBareKey k).1).mp heq
    rwa [← hn, ← hw]
  · exact fun hp => ⟨_, hp, rfl⟩

theorem entryLine_not_mem_bundleHeader (k : Knob) (v : List Char) :
    Toml.entryLine k.name v ∉ bundleHeader := by
  obtain ⟨c, cs, hline, hc⟩ := head?_entryLine k v
  have hall : ∀ l ∈ bundleHeader, l.head? = some '#' ∨ l = [] := by decide +kernel
  rw [hline]
  intro hmem
  rcases hall _ hmem with h | h
  · exact (Toml.ne_of_isBareKey hc).2.2 (Option.some.inj h)
  · cases h

/-- What is set: inputs that are no paths, and the names in the bundle. -/
theorem sets_iff (hget : I.resolved.inputs = Config.inputsOf get) {k : Knob} {v : List Char} :
    Sets I.rewrittenConfig k v ↔
      get k.name = some v ∧ k ∉ Config.notPersisted ∧ k ∉ pathKnobs ∨ (k, v) ∈ I.setKnobs := by
  have hkept : (k.name, v) ∈ keptInputs get ↔
      get k.name = some v ∧ k ∉ Config.notPersisted ∧ k ∉ pathKnobs := by
    rw [mem_keptInputs]
    constructor
    · rintro ⟨l, hl, h⟩
      obtain rfl := Knob.name_injective hl
      exact h
    · exact fun h => ⟨k, rfl, h⟩
  have hset : (k.name, v) ∈ (I.setKnobs.map fun p => (p.1.name, p.2)) ↔ (k, v) ∈ I.setKnobs := by
    rw [List.mem_map]
    constructor
    · rintro ⟨⟨l, w⟩, hp, heq⟩
      obtain ⟨hl, rfl⟩ := Prod.mk.inj heq
      rwa [← Knob.name_injective hl]
    · exact fun h => ⟨_, h, rfl⟩
  have hname : ∀ p ∈ keptInputs get ++ I.setKnobs.map fun p => (p.1.name, p.2),
      ∃ l : Knob, l.name = p.1 := names_of_entries
  rw [Sets, lines_rewrittenConfig hget, List.mem_append, mem_entryLines hname, List.mem_append,
    hkept, hset]
  exact or_iff_right (entryLine_not_mem_bundleHeader k v)

end Instance

end SpEmu
