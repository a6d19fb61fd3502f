import SpEmu.Bundle.Pack

/-!
# What a bundle carries over

`Corresponds` is what is expected of the archive: a path in its configuration is relative and
names an entry with the content of the file that the knob named, and no page or handoff that was
configured is missing. `pack` falls short of it in three ways. The DICE handoff is dropped. The
path of the NMPA is left as it was, and the file is not packed. And the CMPA and the CFPA go by
the last component of their paths, so that a stowed file of that name, or the one page for the
other, takes the place.

`corresponds_iff` says that there is no fourth.
-/

set_option autoImplicit false

namespace SpEmu

open UnixPath

namespace Instance

/-- The knobs that name files. -/
def fileKnobs : List Knob := .rotNmpa :: pathKnobs

/-- What the handoff directory holds. -/
def diceFiles : List (List Char) := ["dice-certs.bin".toList, "dice-alias.bin".toList]

section Spec

variable (I : Instance)

/-- The stowed archive of an image, as the metadata refers to it. -/
def recorded : Knob → Option (List Char)
  | .archive => I.spArch
  | .rotFlash => I.rotMeta.slotAArchive.map String.toList
  | .rotImageB => I.rotMeta.slotBArchive.map String.toList
  | .rotBootleby => I.rotMeta.stage0Archive.map String.toList
  | _ => none

/-- The file that a knob names; an image knob, its stowed archive. -/
def named : Knob → Option (List Char)
  | .flash => some I.spFlash
  | .rotNvm => some I.rotNvm
  | .identity => some I.identity
  | .rotCmpa => I.cfg .rotCmpa
  | .rotCfpa => I.cfg .rotCfpa
  | .rotNmpa => I.cfg .rotNmpa
  | k => (I.recorded k).map (join I.base)

/-- The archive has the content of the file under the name. -/
def Holds (entries : List (List Char × ByteArray)) (name p : List Char) : Prop :=
  ∃ data, I.host.file p = some data ∧ (name, data) ∈ entries

structure Corresponds (entries : List (List Char × ByteArray)) : Prop where
  nodup : (entries.map Prod.fst).Nodup
  config : (configName, utf8 I.rewrittenConfig) ∈ entries
  path : ∀ k ∈ fileKnobs, ∀ v, Sets I.rewrittenConfig k v →
    isAbsolute v = false ∧ ∃ p, I.named k = some p ∧ I.Holds entries v p
  page : ∀ k ∈ [Knob.rotCmpa, .rotCfpa, .rotNmpa], ∀ p, I.named k = some p →
    ∃ v, Sets I.rewrittenConfig k v ∧ I.Holds entries v p
  dice : ∀ d, I.cfg .rotDice = some d → ∃ v, Sets I.rewrittenConfig .rotDice v ∧
    ∀ n ∈ diceFiles, I.Holds entries (join v n) (join d n)

/-- The files that the instance names are there, and the references are to stowed archives. -/
structure Complete : Prop where
  flash : I.host.isFile I.spFlash
  recorded : ∀ k ref, I.recorded k = some ref → ∃ n ∈ I.stowedNames, ref = archiveName n
  page : ∀ k ∈ [Knob.rotCmpa, .rotCfpa, .rotNmpa], ∀ p, I.named k = some p → I.host.isFile p
  dice : ∀ d, I.cfg .rotDice = some d → ∀ n ∈ diceFiles, I.host.isFile (join d n)

/-- The inputs with which nothing is lost. -/
structure Faithful : Prop where
  /-- A page that shares its name with a stowed file is that file. -/
  stowed : ∀ k ∈ [Knob.rotCmpa, .rotCfpa], ∀ p n, I.named k = some p → fileName p = some n →
    n ∈ I.stowedNames → I.host.file (join I.archDir n) = I.host.file p
  pages : ∀ p q, I.cfg .rotCmpa = some p → I.cfg .rotCfpa = some q → fileName p = fileName q →
    I.host.file p = I.host.file q
  /-- The path of the NMPA happens to be a name in the bundle, for the same content. -/
  nmpa : ∀ p, I.cfg .rotNmpa = some p →
    isAbsolute p = false ∧ ∃ data, I.host.file p = some data ∧ I.Bundles p data
  dice : I.cfg .rotDice = none

end Spec

variable {I : Instance} {get : List Char → Option (List Char)} {seed : Option (List Char)}
  {entries : List (List Char × ByteArray)}

/-! ## The two passes agree on the names -/

theorem mem_toList_pair {α : Type} (g : α → List Char) (o : Option α) {k l : Knob}
    {v : List Char} :
    (k, v) ∈ (o.map fun a => (l, g a)).toList ↔ k = l ∧ o.map g = some v := by
  cases o with
  | none => simp
  | some a => simp [eq_comm]

theorem mem_toList_text (o : Option (List Char)) {k l : Knob} {v : List Char} :
    (k, v) ∈ (o.map fun a => (l, a)).toList ↔ k = l ∧ o = some v := by
  rw [mem_toList_pair fun a : List Char => a, Option.map_id']

theorem mem_pages {k : Knob} {p : List Char} : (k, p) ∈ I.pages ↔
    k ∈ [Knob.rotCmpa, .rotCfpa] ∧ I.named k = some p := by
  rw [pages, List.mem_append, List.mem_cons, List.mem_singleton, or_and_right]
  refine or_congr ((mem_toList_text (I.cfg .rotCmpa)).trans (and_congr_right ?_))
    ((mem_toList_text (I.cfg .rotCfpa)).trans (and_congr_right ?_))
  · rintro rfl
    rfl
  · rintro rfl
    rfl

theorem recorded_eq_some {k : Knob} {v : List Char} : I.recorded k = some v ↔
    k = .archive ∧ I.spArch = some v ∨
      k = .rotFlash ∧ I.rotMeta.slotAArchive.map String.toList = some v ∨
      k = .rotImageB ∧ I.rotMeta.slotBArchive.map String.toList = some v ∨
      k = .rotBootleby ∧ I.rotMeta.stage0Archive.map String.toList = some v := by
  constructor
  · intro h
    cases k
    case archive => exact .inl ⟨rfl, h⟩
    case rotFlash => exact .inr (.inl ⟨rfl, h⟩)
    case rotImageB => exact .inr (.inr (.inl ⟨rfl, h⟩))
    case rotBootleby => exact .inr (.inr (.inr ⟨rfl, h⟩))
    all_goals cases h
  · rintro (⟨rfl, h⟩ | ⟨rfl, h⟩ | ⟨rfl, h⟩ | ⟨rfl, h⟩) <;> exact h

theorem mem_setKnobs {k : Knob} {v : List Char} : (k, v) ∈ I.setKnobs ↔
    k = .flash ∧ v = "sp-flash.bin".toList ∨
      I.host.isFile I.rotNvm ∧ k = .rotNvm ∧ v = "sp-rot-flash.bin".toList ∨
      I.host.isFile I.identity ∧ k = .identity ∧ v = "identity".toList ∨
      I.recorded k = some v ∨
      ∃ p n, (k, p) ∈ I.pages ∧ fileName p = some n ∧ v = archiveName n := by
  have hif (b : Bool) (l : Knob) (w : List Char) :
      (k, v) ∈ (if b then [(l, w)] else []) ↔ b ∧ k = l ∧ v = w := by
    cases b <;> simp
  have hpage : (k, v) ∈ (I.pages.filterMap fun kp =>
      (fileName kp.2).map fun n => (kp.1, archiveName n)) ↔
      ∃ p n, (k, p) ∈ I.pages ∧ fileName p = some n ∧ v = archiveName n := by
    rw [List.mem_filterMap]
    constructor
    · rintro ⟨⟨l, p⟩, hp, heq⟩
      obtain ⟨n, hn, hkv⟩ := Option.map_eq_some_iff.mp heq
      obtain ⟨rfl, rfl⟩ := Prod.mk.inj hkv
      exact ⟨p, n, hp, hn, rfl⟩
    · rintro ⟨p, n, hp, hn, rfl⟩
      exact ⟨(k, p), hp, by rw [hn]; rfl⟩
  rw [setKnobs, List.mem_append, List.mem_append, List.mem_append, List.mem_append, List.mem_append,
    List.mem_append, List.mem_append, hif, hif, mem_toList_text, mem_toList_pair,
    mem_toList_pair, mem_toList_pair, hpage, List.mem_singleton,
    Prod.mk.injEq, recorded_eq_some]
  simp only [or_assoc]

/-! ## What is bundled under the names -/

/-- A name holds a file if it was given to a file of the same content. -/
theorem holds_of_source (hmem : ∀ name data, (name, data) ∈ entries ↔ I.Bundles name data)
    {v p q : List Char} (hq : I.Source v q) (hsame : I.host.file q = I.host.file p) :
    I.Holds entries v p := by
  obtain ⟨data, hdata⟩ := Option.isSome_iff_exists.mp (isFile_of_source hq)
  exact ⟨data, hsame ▸ hdata, (hmem v data).mpr (.file hq hdata)⟩

/-- A reference leads to the stowed file. -/
theorem join_archiveName {n : List Char} (hn : n ∈ I.stowedNames) :
    join I.base (archiveName n) = join I.archDir n := by
  have hname : IsName n := isName_of_mem_readDir (List.mem_filter.mp hn).1
  have hdir : isAbsolute "archives".toList = false ∧ "archives".toList ≠ [] ∧
      "archives".toList.getLast? ≠ some '/' := by decide
  exact (join_join hdir.1 hdir.2.1 hdir.2.2 hname.not_isAbsolute).symm

theorem named_of_recorded {k : Knob} {ref : List Char} (h : I.recorded k = some ref) :
    I.named k = some (join I.base ref) := by
  have hnamed : I.named k = (I.recorded k).map (join I.base) := by
    rcases recorded_eq_some.mp h with ⟨rfl, -⟩ | ⟨rfl, -⟩ | ⟨rfl, -⟩ | ⟨rfl, -⟩ <;> rfl
  rw [hnamed, h, Option.map_some]

/-- The name of a page was given to the page or to a file of the same content. -/
theorem exists_source_page (hI : I.Complete) (hF : I.Faithful) {k : Knob}
    (hk : k ∈ [Knob.rotCmpa, .rotCfpa]) {p n : List Char} (hp : I.named k = some p)
    (hn : fileName p = some n) :
    ∃ q, I.Source (archiveName n) q ∧ I.host.file q = I.host.file p := by
  by_cases hstowed : n ∈ I.stowedNames
  · exact ⟨_, .stowed hstowed, hF.stowed k hk p n hp hn hstowed⟩
  have hfile : I.host.isFile p = true := by
    refine hI.page k ?_ p hp
    rw [List.mem_cons, List.mem_singleton] at hk
    rcases hk with rfl | rfl <;> simp
  have hfilter : (some p).filter (fun q => fileName q = some n ∧ I.host.isFile q) = some p := by
    rw [Option.filter_some, if_pos (decide_eq_true ⟨hn, hfile⟩)]
  rw [List.mem_cons, List.mem_singleton] at hk
  rcases hk with rfl | rfl
  · have hcmpa : I.cfg .rotCmpa = some p := hp
    refine ⟨p, .page hstowed ?_, rfl⟩
    rw [page, hcmpa, hfilter, Option.some_or]
  · have hcfpa : I.cfg .rotCfpa = some p := hp
    cases hcmpa : (I.cfg .rotCmpa).filter fun q => fileName q = some n ∧ I.host.isFile q with
    | none =>
        refine ⟨p, .page hstowed ?_, rfl⟩
        rw [page, hcmpa, hcfpa, hfilter, Option.none_or]
    | some q =>
        obtain ⟨hq, hqn⟩ := Option.filter_eq_some_iff.mp hcmpa
        refine ⟨q, .page hstowed (by rw [page, hcmpa, Option.some_or]), ?_⟩
        exact hF.pages q p hq hcfpa ((of_decide_eq_true hqn).1.trans hn.symm)

/-- Each knob but the seed is what its input makes of it. -/
theorem ingest_cfg (hr : Config.resolve get seed = .ok I.resolved) {k : Knob} (hk : k ≠ .seed) :
    k.kind.ingest ((get k.name).bind (k.kind.set · none)) = .ok (I.cfg k) := by
  have h := (Config.resolve_eq_ok.mp hr).2 k
  rwa [Config.knobs_overrideSeed hk] at h

theorem eq_of_ingest_text {o x : Option (List Char)}
    (h : Kind.ingest .text (o.bind (Kind.set .text · none)) = .ok x) : x = o := by
  have hbind : o.bind some = x := Except.ok.inj h
  rw [← hbind, Option.bind_fun_some]

theorem cfg_rotNmpa (hr : Config.resolve get seed = .ok I.resolved) :
    I.cfg .rotNmpa = get Knob.rotNmpa.name :=
  eq_of_ingest_text (ingest_cfg hr (k := .rotNmpa) (by decide))

/-- Neither the NMPA nor the handoff is set. -/
theorem ne_of_mem_setKnobs {k : Knob} {v : List Char} (h : (k, v) ∈ I.setKnobs) :
    k ≠ .rotNmpa ∧ k ≠ .rotDice := by
  rw [mem_setKnobs, recorded_eq_some] at h
  rcases h with ⟨rfl, -⟩ | ⟨-, rfl, -⟩ | ⟨-, rfl, -⟩ |
    (⟨rfl, -⟩ | ⟨rfl, -⟩ | ⟨rfl, -⟩ | ⟨rfl, -⟩) | ⟨p, n, hp, -⟩
  case inr.inr.inr.inr =>
      have hk := (mem_pages.mp hp).1
      constructor <;> rintro rfl <;> exact absurd hk (by decide)
  all_goals decide

/-- The NMPA keeps its path. -/
theorem sets_rotNmpa (hr : Config.resolve get seed = .ok I.resolved) {v : List Char} :
    Sets I.rewrittenConfig .rotNmpa v ↔ I.cfg .rotNmpa = some v := by
  rw [sets_iff (Config.resolve_eq_ok.mp hr).1, cfg_rotNmpa hr]
  constructor
  · rintro (⟨hget, -⟩ | h)
    · exact hget
    · exact absurd rfl (ne_of_mem_setKnobs h).1
  · exact fun hget => .inl ⟨hget, by decide, by decide⟩

theorem not_sets_rotDice (hr : Config.resolve get seed = .ok I.resolved) (v : List Char) :
    ¬ Sets I.rewrittenConfig .rotDice v := by
  rw [sets_iff (Config.resolve_eq_ok.mp hr).1]
  rintro (⟨-, -, hpath⟩ | h)
  · exact hpath (by decide)
  · exact (ne_of_mem_setKnobs h).2 rfl

/-- A page is set to the name that it goes by. -/
theorem sets_page (hr : Config.resolve get seed = .ok I.resolved) {k : Knob}
    (hk : k ∈ [Knob.rotCmpa, .rotCfpa]) {p n : List Char} (hp : I.named k = some p)
    (hn : fileName p = some n) : Sets I.rewrittenConfig k (archiveName n) :=
  (sets_iff (Config.resolve_eq_ok.mp hr).1).mpr
    (.inr (mem_setKnobs.mpr (.inr (.inr (.inr (.inr ⟨p, n, mem_pages.mpr ⟨hk, hp⟩, hn, rfl⟩))))))

/-! ## The correspondence -/

theorem corresponds_of_faithful (hr : Config.resolve get seed = .ok I.resolved)
    (hI : I.Complete) (hnodup : (entries.map Prod.fst).Nodup)
    (hmem : ∀ name data, (name, data) ∈ entries ↔ I.Bundles name data) (hF : I.Faithful) :
    I.Corresponds entries where
  nodup := hnodup
  config := (hmem _ _).mpr .config
  path k hk v hv := by
    have hheld : ∀ {p : List Char}, isAbsolute v = false → I.named k = some p →
        (∃ q, I.Source v q ∧ I.host.file q = I.host.file p) →
          isAbsolute v = false ∧ ∃ p, I.named k = some p ∧ I.Holds entries v p := by
      rintro p hrel hp ⟨q, hq, hsame⟩
      exact ⟨hrel, p, hp, holds_of_source hmem hq hsame⟩
    rcases (sets_iff (Config.resolve_eq_ok.mp hr).1).mp hv with ⟨hget, -, hpath⟩ | hset
    · obtain rfl : k = .rotNmpa := (List.mem_cons.mp hk).resolve_right hpath
      have hv' : I.cfg .rotNmpa = some v := (cfg_rotNmpa hr).trans hget
      obtain ⟨hrel, data, hdata, hbundled⟩ := hF.nmpa v hv'
      exact ⟨hrel, v, hv', data, hdata, (hmem v data).mpr hbundled⟩
    · rcases mem_setKnobs.mp hset with ⟨rfl, rfl⟩ | ⟨hfile, rfl, rfl⟩ | ⟨hfile, rfl, rfl⟩ |
        href | ⟨p, n, hp, hn, rfl⟩
      · exact hheld (by decide) rfl ⟨_, .own (by simp [ownFiles]) hI.flash, rfl⟩
      · exact hheld (by decide) rfl ⟨_, .own (by simp [ownFiles]) hfile, rfl⟩
      · exact hheld (by decide) rfl ⟨_, .own (by simp [ownFiles]) hfile, rfl⟩
      · obtain ⟨n, hn, rfl⟩ := hI.recorded k v href
        refine hheld rfl (named_of_recorded href) ⟨_, .stowed hn, ?_⟩
        rw [join_archiveName hn]
      · obtain ⟨hkpage, hnamed⟩ := mem_pages.mp hp
        exact hheld rfl hnamed (exists_source_page hI hF hkpage hnamed hn)
  page k hk p hp := by
    have hfile := hI.page k hk p hp
    by_cases hkpage : k ∈ [Knob.rotCmpa, .rotCfpa]
    · obtain ⟨n, hn⟩ := Option.isSome_iff_exists.mp (I.host.fileName_of_file p hfile)
      obtain ⟨q, hq, hsame⟩ := exists_source_page hI hF hkpage hp hn
      exact ⟨_, sets_page hr hkpage hp hn, holds_of_source hmem hq hsame⟩
    · obtain rfl : k = .rotNmpa := by
        simp only [List.mem_cons, List.not_mem_nil, or_false] at hk hkpage
        tauto
      obtain ⟨-, data, hdata, hbundled⟩ := hF.nmpa p hp
      exact ⟨p, (sets_rotNmpa hr).mpr hp, data, hdata, (hmem p data).mpr hbundled⟩
  dice d hd := by
    rw [hF.dice] at hd
    cases hd

/-- The archive has one content under a name. -/
theorem Corresponds.data_unique (hC : I.Corresponds entries) {name : List Char}
    {data data' : ByteArray} (h : (name, data) ∈ entries) (h' : (name, data') ∈ entries) :
    data = data' := by
  have hlookup := Keyed.lookup_of_mem hC.nodup h
  rw [Keyed.lookup_of_mem hC.nodup h'] at hlookup
  exact (Option.some.inj hlookup).symm

theorem Corresponds.holds_page (hC : I.Corresponds entries)
    (hr : Config.resolve get seed = .ok I.resolved) {k : Knob} (hk : k ∈ [Knob.rotCmpa, .rotCfpa])
    {p n : List Char} (hp : I.named k = some p) (hn : fileName p = some n) :
    I.Holds entries (archiveName n) p := by
  have hfile : k ∈ fileKnobs := by
    rw [List.mem_cons, List.mem_singleton] at hk
    rcases hk with rfl | rfl <;> decide
  obtain ⟨-, p', hp', hheld⟩ := hC.path k hfile _ (sets_page hr hk hp hn)
  rwa [Option.some.inj (hp.symm.trans hp')]

/-- Two pages of one name have one content. -/
theorem Corresponds.file_eq (hC : I.Corresponds entries)
    (hr : Config.resolve get seed = .ok I.resolved) {p q n : List Char}
    (hp : I.cfg .rotCmpa = some p) (hq : I.cfg .rotCfpa = some q) (hpn : fileName p = some n)
    (hqn : fileName q = some n) : I.host.file p = I.host.file q := by
  obtain ⟨data, hdata, hentry⟩ := hC.holds_page hr (k := .rotCmpa) (by decide) hp hpn
  obtain ⟨data', hdata', hentry'⟩ := hC.holds_page hr (k := .rotCfpa) (by decide) hq hqn
  rw [hdata, hdata', hC.data_unique hentry hentry']

theorem faithful_of_corresponds (hr : Config.resolve get seed = .ok I.resolved)
    (hI : I.Complete) (hmem : ∀ name data, (name, data) ∈ entries ↔ I.Bundles name data)
    (hC : I.Corresponds entries) : I.Faithful where
  stowed k hk p n hp hn hstowed := by
    obtain ⟨data, hdata, hentry⟩ := hC.holds_page hr hk hp hn
    obtain ⟨data', hdata'⟩ := Option.isSome_iff_exists.mp (List.mem_filter.mp hstowed).2
    have hentry' := (hmem _ _).mpr (.file (.stowed hstowed) hdata')
    rw [hdata, hdata', hC.data_unique hentry' hentry]
  pages p q hp hq hname := by
    have hfile := hI.page .rotCmpa (by decide) p hp
    obtain ⟨n, hn⟩ := Option.isSome_iff_exists.mp (I.host.fileName_of_file p hfile)
    exact hC.file_eq hr hp hq hn (hname ▸ hn)
  nmpa p hp := by
    obtain ⟨hrel, p', hp', data, hdata, hentry⟩ :=
      hC.path .rotNmpa List.mem_cons_self p ((sets_rotNmpa hr).mpr hp)
    obtain rfl : p = p' := Option.some.inj (hp.symm.trans hp')
    exact ⟨hrel, data, hdata, (hmem p data).mp hentry⟩
  dice := by
    cases hd : I.cfg .rotDice with
    | none => rfl
    | some d =>
        obtain ⟨v, hv, -⟩ := hC.dice d hd
        exact absurd hv (not_sets_rotDice hr v)

/-! ## An instance with one page -/

def flashPath : List Char := "/d/sp-flash.bin".toList

def pagePath : List Char := "/k/page.bin".toList

/-- The SP image and the page are all that there is. -/
def onePageHost : Host where
  file p := if p ∈ [flashPath, pagePath] then some (utf8 p) else none
  readDir _ := none
  env _ := none
  tempDir := "/tmp".toList
  fileName_of_file p hp := by
    have hall : ∀ q ∈ [flashPath, pagePath], (fileName q).isSome = true := by decide +kernel
    by_cases h : p ∈ [flashPath, pagePath]
    · exact hall p h
    · rw [if_neg h] at hp
      cases hp
  isName_of_readDir := nofun

/-- The page is given to one knob. -/
def onePage (k : Knob) (n : List Char) : Option (List Char) :=
  if n = Knob.flash.name then some flashPath else if n = k.name then some pagePath else none

theorem onePage_name (k l : Knob) : onePage k l.name =
    if l = .flash then some flashPath else if l = k then some pagePath else none := by
  simp only [onePage, Knob.name_injective.eq_iff]

/-- Without metadata no archive is recorded. -/
theorem recorded_eq_none (h : ∀ p, I.host.file (nvStatePath p) = none) (k : Knob) :
    I.recorded k = none := by
  have hread (p : List Char) : I.host.readToString (nvStatePath p) = none := by
    rw [Host.readToString, h, Option.bind_none]
  cases hk : I.recorded k with
  | none => rfl
  | some ref =>
      rw [recorded_eq_some, spArch, rotMeta, hread, hread] at hk
      rcases hk with ⟨-, h⟩ | ⟨-, h⟩ | ⟨-, h⟩ | ⟨-, h⟩ <;> cases h

theorem file_nvStatePath (p : List Char) : onePageHost.file (nvStatePath p) = none := by
  refine if_neg fun h => ?_
  have hall : ∀ q ∈ [flashPath, pagePath], q.getLast? ≠ some 'v' := by decide
  refine hall _ h ?_
  rw [nvStatePath, List.getLast?_append_of_ne_nil p (by decide)]
  rfl

theorem isFile_onePageHost {p : List Char} (h : p ∈ [flashPath, pagePath]) :
    onePageHost.isFile p = true := by
  have hfile : onePageHost.file p = some (utf8 p) := if_pos h
  rw [Host.isFile, hfile, Option.isSome_some]

theorem exists_onePage {k : Knob} (hk : k ∈ [Knob.rotCmpa, .rotNmpa]) :
    ∃ I : Instance, Config.resolve (onePage k) none = .ok I.resolved ∧ I.Complete ∧
      I.named k = some pagePath ∧ I.stowedNames = [] ∧
      I.cfg .rotCfpa = onePage k Knob.rotCfpa.name ∧ I.cfg .rotDice = none := by
  have hkind : k.kind = .text := by
    rw [List.mem_cons, List.mem_singleton] at hk
    rcases hk with rfl | rfl <;> rfl
  obtain ⟨r, hr⟩ : ∃ r, Config.resolve (onePage k) none = .ok r := by
    refine Config.exists_resolve fun l s hs hrefuses => ?_
    rw [onePage_name] at hs
    split_ifs at hs with hflash hl
    · subst hflash
      exact hrefuses
    · rw [hl, hkind] at hrefuses
      exact hrefuses
  let I : Instance := ⟨onePageHost, r⟩
  have hr' : Config.resolve (onePage k) none = .ok I.resolved := hr
  have hne : Knob.rotDice ≠ k ∧ k ≠ .flash ∧ k ∈ [Knob.rotCmpa, .rotCfpa, .rotNmpa] := by
    rw [List.mem_cons, List.mem_singleton] at hk
    rcases hk with rfl | rfl <;> decide
  have hdice : I.cfg .rotDice = none := by
    rw [eq_of_ingest_text (ingest_cfg hr' (k := .rotDice) (by decide)), onePage_name,
      if_neg (by decide), if_neg hne.1]
  have hnamed : ∀ l ∈ [Knob.rotCmpa, .rotCfpa, .rotNmpa], I.named l = onePage k l.name := by
    intro l hl
    rw [List.mem_cons, List.mem_cons, List.mem_singleton] at hl
    rcases hl with rfl | rfl | rfl
    · exact eq_of_ingest_text (ingest_cfg hr' (k := .rotCmpa) (by decide))
    · exact eq_of_ingest_text (ingest_cfg hr' (k := .rotCfpa) (by decide))
    · exact cfg_rotNmpa hr'
  have hflash : I.spFlash = flashPath := by
    have hcfg : ((onePage k Knob.flash.name).bind some).getD _ = I.cfg .flash :=
      Except.ok.inj (ingest_cfg hr' (k := .flash) (by decide))
    rw [onePage_name, if_pos rfl] at hcfg
    rw [spFlash, ← hcfg]
    exact if_pos (Bool.or_eq_true_iff.mpr (.inr (by decide)))
  refine ⟨I, hr', ⟨?_, ?_, ?_, ?_⟩, ?_, rfl, hnamed .rotCfpa (by decide), hdice⟩
  · rw [hflash]
    exact isFile_onePageHost List.mem_cons_self
  · intro l ref href
    rw [recorded_eq_none file_nvStatePath] at href
    cases href
  · intro l hl p hp
    rw [hnamed l hl, onePage_name] at hp
    refine isFile_onePageHost ?_
    split_ifs at hp <;> simp_all
  · intro d hd
    rw [hdice] at hd
    cases hd
  · rw [hnamed k hne.2.2, onePage_name, if_neg hne.2.1, if_pos rfl]

theorem corresponds_iff (hr : Config.resolve get seed = .ok I.resolved) (hI : I.Complete) :
    ∃ entries, I.pack = some entries ∧ (I.Corresponds entries ↔ I.Faithful) := by
  obtain ⟨entries, hpack, hnodup, hmem⟩ := exists_pack (I := I)
  exact ⟨entries, hpack, faithful_of_corresponds hr hI hmem,
    corresponds_of_faithful hr hI hnodup hmem⟩

/-- A CMPA that is not stowed is carried over. -/
theorem corresponds_iff_cmpa : ∃ I : Instance, I.cfg .rotCmpa = some pagePath ∧
    ∃ entries, I.pack = some entries ∧ I.Corresponds entries := by
  obtain ⟨I, hr, hI, hcmpa, hstowed, hcfpa, hdice⟩ := exists_onePage (k := .rotCmpa) (by decide)
  obtain ⟨entries, hpack, hiff⟩ := corresponds_iff hr hI
  refine ⟨I, hcmpa, entries, hpack, hiff.mpr ⟨?_, ?_, ?_, hdice⟩⟩
  · intro k hk p n hp hn hmem
    rw [hstowed] at hmem
    cases hmem
  · intro p q hp hq
    rw [hcfpa, onePage_name] at hq
    cases hq
  · intro p hp
    rw [cfg_rotNmpa hr, onePage_name] at hp
    cases hp

/-- An NMPA is not. -/
theorem not_corresponds : ¬ ∀ (I : Instance) (get : List Char → Option (List Char))
    (seed : Option (List Char)), Config.resolve get seed = .ok I.resolved → I.Complete →
      ∃ entries, I.pack = some entries ∧ I.Corresponds entries := by
  intro hall
  obtain ⟨I, hr, hI, hnmpa, -⟩ := exists_onePage (k := .rotNmpa) (by decide)
  obtain ⟨entries, -, hC⟩ := hall I _ none hr hI
  have hrel := (hC.path .rotNmpa List.mem_cons_self pagePath ((sets_rotNmpa hr).mpr hnmpa)).1
  exact absurd hrel (by decide)

end Instance

end SpEmu
