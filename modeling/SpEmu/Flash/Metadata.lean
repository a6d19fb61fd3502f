import SpEmu.Flash.Controller

/-!
# The two metadata files

The state file of the SP and the metadata file of the RoT are text, one `key = value` a line under
a comment. The writers (`NvState.body`, `RotMeta.body`) and the readers (`NvState.readLine`,
`RotMeta.readLine`) are separate code that shares no table of keys.

A saved file is its lines (`lines_body`), a saved line is one assignment (`assignment_entry`), and
a reader goes by the key of the assignment (`readLine_eq`); `metadata_round_trip` follows. The swap
bit is read back next to any archive reference that was read from a line itself
(`loadNv_swapBank`).
-/

set_option autoImplicit false

namespace SpEmu

/-! ## Lines -/

/-- A reference that is read back as it was written: it is not empty, stays on its line, and has no
quotation mark at either end. -/
structure PlainRef (a : String) : Prop where
  ne : a.toList ≠ []
  oneLine : '\n' ∉ a.toList
  head : a.toList.head? ≠ some '"'
  last : a.toList.getLast? ≠ some '"'

/-- The line of an archive reference. -/
def entry (k a : String) : List Char := k.toList ++ " = \"".toList ++ a.toList ++ ['"']

/-- The keys of archive references, in both files. -/
def archiveKeys : List String := ["archive", "slot_a_archive", "slot_b_archive", "stage0_archive"]

theorem assignment_entry {k : String} (hk : k ∈ archiveKeys) (a : String) :
    Text.assignment (entry k a) = some (k.toList, '"' :: (a.toList ++ ['"'])) := by
  simp only [archiveKeys, List.mem_cons, List.not_mem_nil, or_false] at hk
  rcases hk with rfl | rfl | rfl | rfl
  · exact Text.assignment_quoted (a := 'a') (by decide) (k := "rchive".toList)
      (by decide) (by decide) a.toList
  · exact Text.assignment_quoted (a := 's') (by decide) (k := "lot_a_archive".toList)
      (by decide) (by decide) a.toList
  · exact Text.assignment_quoted (a := 's') (by decide) (k := "lot_b_archive".toList)
      (by decide) (by decide) a.toList
  · exact Text.assignment_quoted (a := 's') (by decide) (k := "tage0_archive".toList)
      (by decide) (by decide) a.toList

theorem entry_line {k : String} (hk : k ∈ archiveKeys) {a : String} (ha : '\n' ∉ a.toList) :
    '\n' ∉ entry k a ∧ (entry k a).getLast? ≠ some '\r' := by
  have hkey : '\n' ∉ k.toList ++ " = \"".toList := by
    simp only [archiveKeys, List.mem_cons, List.not_mem_nil, or_false] at hk
    rcases hk with rfl | rfl | rfl | rfl <;> decide
  constructor
  · rw [entry, List.mem_append, List.mem_append, not_or, not_or]
    exact ⟨⟨hkey, ha⟩, by decide⟩
  · rw [entry, List.getLast?_concat]
    decide

/-- The value of a plain reference, without its quotation marks. -/
theorem PlainRef.value {a : String} (ha : PlainRef a) :
    Text.trimMatches '"' ('"' :: (a.toList ++ ['"'])) = a.toList :=
  Text.trimMatches_quoted ha.ne ha.head ha.last

/-! ## The SP's state file -/

def nvComment : List Char := "# sp-emu flash non-volatile registers (see src/flash.rs)".toList

def swapLine (swapBank : Bool) : List Char :=
  "swap_bank = ".toList ++ (if swapBank then "1" else "0").toList

theorem assignment_nvComment : Text.assignment nvComment = none :=
  Text.assignment_comment (by decide)

theorem assignment_swapLine (swapBank : Bool) :
    ∃ v, Text.assignment (swapLine swapBank) = some ("swap_bank".toList, v) := by
  cases swapBank
  · exact ⟨['0'], rfl⟩
  · exact ⟨['1'], rfl⟩

namespace NvState

/-- The lines of the saved file. -/
def lines (nv : NvState) : List (List Char) :=
  nvComment :: swapLine nv.swapBank :: nv.archive.toList.map (entry "archive")

/-- An archive reference that stays on its line. -/
def OneLine (nv : NvState) : Prop := ∀ a, nv.archive = some a → '\n' ∉ a.toList

/-- An archive reference, if there is one, that is read back. -/
def Plain (nv : NvState) : Prop := ∀ a, nv.archive = some a → PlainRef a

/-- What a line does to the state, told by its assignment. -/
theorem readLine_eq (nv : NvState) (line : List Char) :
    nv.readLine line =
      match Text.assignment line with
      | none => nv
      | some (k, v) =>
          if k = "swap_bank".toList then
            { nv with swapBank := decide (v = "1".toList ∨ v = "true".toList) }
          else if k = "archive".toList then
            let ref := Text.trimMatches '"' v
            { nv with archive := if ref = [] then none else some (String.ofList ref) }
          else nv := by
  simp only [readLine, Text.assignment]
  by_cases hline : Text.trim line = [] ∨ (Text.trim line).head? = some '#'
  · rw [if_pos hline, if_pos hline]
  · rw [if_neg hline, if_neg hline]
    cases Text.splitOnce '=' (Text.trim line) with
    | none => simp only [Option.map_none]
    | some kv => simp only [Option.map_some]

/-- A reference that was read from a line stays on a line. -/
theorem oneLine_readLine {nv : NvState} (h : nv.OneLine) {line : List Char}
    (hline : '\n' ∉ line) : (nv.readLine line).OneLine := by
  rw [readLine_eq]
  split
  · exact h
  · next k v hkv =>
      split
      · exact h
      · split
        · intro a ha
          dsimp only at ha
          split at ha
          · cases ha
          · obtain rfl := Option.some.inj ha
            rw [String.toList_ofList]
            exact fun hmem =>
              hline (Text.mem_of_mem_assignment hkv (Text.mem_of_mem_trimBoth hmem))
        · exact h

theorem lines_body {nv : NvState} (h : nv.OneLine) : Text.lines nv.body.toList = nv.lines := by
  -- the writer's literals, cut where the lines end
  have hhead : "# sp-emu flash non-volatile registers (see src/flash.rs)\nswap_bank = ".toList =
      nvComment ++ '\n' :: "swap_bank = ".toList := by
    decide +kernel
  have hkey : "archive = \"".toList = "archive".toList ++ " = \"".toList := by
    decide +kernel
  have hend : "\"\n".toList = ['"', '\n'] := by
    decide +kernel
  have hfeed : "\n".toList = ['\n'] := by
    decide +kernel
  have hflat : nv.body.toList = nv.lines.flatMap (· ++ ['\n']) := by
    obtain ⟨swap, archive⟩ := nv
    have hswap : swapLine swap = "swap_bank = ".toList ++ (if swap then "1" else "0").toList := rfl
    cases archive with
    | none =>
        have hlines : lines ⟨swap, none⟩ = [nvComment, swapLine swap] := rfl
        have hbody : body ⟨swap, none⟩ =
            "# sp-emu flash non-volatile registers (see src/flash.rs)\nswap_bank = " ++
              (if swap then "1" else "0") ++ "\n" := rfl
        rw [hlines, hbody, String.toList_append, String.toList_append, hhead, hfeed, hswap]
        generalize nvComment = c
        generalize "swap_bank = ".toList = s
        simp
    | some a =>
        have hlines : lines ⟨swap, some a⟩ = [nvComment, swapLine swap, entry "archive" a] := rfl
        have hbody : body ⟨swap, some a⟩ =
            "# sp-emu flash non-volatile registers (see src/flash.rs)\nswap_bank = " ++
              (if swap then "1" else "0") ++ "\n" ++ "archive = \"" ++ a ++ "\"\n" := rfl
        rw [hlines, hbody, String.toList_append, String.toList_append, String.toList_append,
          String.toList_append, String.toList_append, hhead, hfeed, hkey, hend, hswap, entry]
        generalize nvComment = c
        generalize "swap_bank = ".toList = s
        generalize "archive".toList = k
        generalize " = \"".toList = e
        simp
  rw [hflat]
  refine Text.lines_flatMap fun l hl => ?_
  simp only [lines, List.mem_cons, List.mem_map, Option.mem_toList] at hl
  rcases hl with rfl | rfl | ⟨a, ha, rfl⟩
  · decide
  · cases nv.swapBank <;> decide
  · exact entry_line (by decide) (h a ha)

/-- An archive line leaves the swap bit alone. -/
theorem readLine_entry (nv : NvState) (a : String) :
    nv.readLine (entry "archive" a) =
      { nv with archive :=
          if Text.trimMatches '"' ('"' :: (a.toList ++ ['"'])) = [] then none
          else some (String.ofList (Text.trimMatches '"' ('"' :: (a.toList ++ ['"'])))) } := by
  rw [readLine_eq, assignment_entry (by decide)]
  rfl

/-- The first two lines set the swap bit. -/
theorem foldl_lines (nv : NvState) :
    nv.lines.foldl readLine ⟨false, none⟩ =
      (nv.archive.toList.map (entry "archive")).foldl readLine ⟨nv.swapBank, none⟩ := by
  have hcomment : readLine ⟨false, none⟩ nvComment = ⟨false, none⟩ := by
    rw [readLine_eq, assignment_nvComment]
  have hswap : readLine ⟨false, none⟩ (swapLine nv.swapBank) = ⟨nv.swapBank, none⟩ := by
    cases nv.swapBank <;> rfl
  rw [lines, List.foldl_cons, List.foldl_cons, hcomment, hswap]

theorem loadNv_body {nv : NvState} (h : nv.Plain) : loadNv (some nv.body) = nv := by
  simp only [loadNv]
  rw [lines_body fun a ha => (h a ha).oneLine, foldl_lines]
  obtain ⟨swap, archive⟩ := nv
  cases archive with
  | none => rfl
  | some a =>
      have ha := h a rfl
      show readLine ⟨swap, none⟩ (entry "archive" a) = _
      rw [readLine_entry, ha.value, if_neg ha.ne, String.ofList_toList]

end NvState

theorem oneLine_loadNv (text : Option String) : (loadNv text).OneLine := by
  cases text with
  | none => nofun
  | some text =>
      -- The lines are read from the left; each of them is free of line feeds.
      have hfold : ∀ (ls : List (List Char)) (nv : NvState), nv.OneLine →
          (∀ line ∈ ls, '\n' ∉ line) → (ls.foldl NvState.readLine nv).OneLine := by
        intro ls
        induction ls with
        | nil => exact fun nv h _ => h
        | cons line ls ih =>
            intro nv h hls
            refine ih _ (NvState.oneLine_readLine h (hls line List.mem_cons_self)) ?_
            exact fun l hl => hls l (List.mem_cons_of_mem line hl)
      exact hfold _ _ nofun fun line => Text.newline_not_mem_lines

/-- The saved option byte is the one that is loaded. -/
theorem loadNv_swapBank {nv : NvState} (h : nv.OneLine) :
    (loadNv (some nv.body)).swapBank = nv.swapBank := by
  simp only [loadNv]
  rw [NvState.lines_body h, NvState.foldl_lines]
  refine Text.foldl_keeps NvState.swapBank (fun s l hl => ?_) ⟨nv.swapBank, none⟩
  obtain ⟨a, -, rfl⟩ := List.mem_map.mp hl
  rw [NvState.readLine_entry]

/-! ## The RoT's metadata file -/

def rotComment : List Char :=
  "# sp-emu RoT instance metadata: Hubris archive per region (see src/flash.rs)".toList

theorem assignment_rotComment : Text.assignment rotComment = none :=
  Text.assignment_comment (by decide)

namespace RotMeta

/-- The lines of the saved file. -/
def lines (m : RotMeta) : List (List Char) :=
  rotComment :: m.entries.flatMap fun kv => kv.2.toList.map (entry kv.1)

/-- Archive references, where there are any, that are read back. -/
def Plain (m : RotMeta) : Prop := ∀ kv ∈ m.entries, ∀ a, kv.2 = some a → PlainRef a

/-- What a line does to the metadata, told by its assignment. -/
theorem readLine_eq (m : RotMeta) (line : List Char) :
    m.readLine line =
      match Text.assignment line with
      | none => m
      | some (k, v) =>
          let ref := Text.trimMatches '"' v
          let v := if ref = [] then none else some (String.ofList ref)
          if k = "slot_a_archive".toList then { m with slotAArchive := v }
          else if k = "slot_b_archive".toList then { m with slotBArchive := v }
          else if k = "stage0_archive".toList then { m with stage0Archive := v }
          else m := by
  simp only [readLine, Text.assignment]
  by_cases hline : Text.trim line = [] ∨ (Text.trim line).head? = some '#'
  · rw [if_pos hline, if_pos hline]
  · rw [if_neg hline, if_neg hline]
    cases Text.splitOnce '=' (Text.trim line) with
    | none => simp only [Option.map_none]
    | some kv => simp only [Option.map_some]

/-- Each entry adds its line. -/
theorem toList_foldl_pushEntry (kvs : List (String × Option String)) (body : String) :
    (kvs.foldl pushEntry body).toList =
      body.toList ++
        (kvs.flatMap fun kv => kv.2.toList.map (entry kv.1)).flatMap (· ++ ['\n']) := by
  have hend : "\"\n".toList = ['"', '\n'] := by
    decide +kernel
  induction kvs generalizing body with
  | nil => exact (List.append_nil _).symm
  | cons kv kvs ih =>
      obtain ⟨k, v⟩ := kv
      rw [List.foldl_cons, ih, List.flatMap_cons, List.flatMap_append, ← List.append_assoc]
      refine congrArg (· ++ _) ?_
      cases v with
      | none => exact (List.append_nil _).symm
      | some a =>
          have hpush : (pushEntry body (k, some a)).toList =
              body.toList ++ (entry k a ++ ['\n']) := by
            rw [pushEntry, String.toList_append, String.toList_append, String.toList_append,
              String.toList_append, hend, entry]
            generalize " = \"".toList = e
            simp
          rw [hpush]
          exact congrArg (body.toList ++ ·) (List.append_nil _).symm

theorem mem_archiveKeys {m : RotMeta} {kv : String × Option String} (h : kv ∈ m.entries) :
    kv.1 ∈ archiveKeys := by
  simp only [entries, List.mem_cons, List.not_mem_nil, or_false] at h
  rw [archiveKeys]
  rcases h with rfl | rfl | rfl <;> simp

theorem lines_body {m : RotMeta} (h : m.Plain) : Text.lines m.body.toList = m.lines := by
  have hhead :
      "# sp-emu RoT instance metadata: Hubris archive per region (see src/flash.rs)\n".toList =
        rotComment ++ ['\n'] := by
    decide +kernel
  have hcomment : '\n' ∉ rotComment ∧ rotComment.getLast? ≠ some '\r' := by
    decide +kernel
  have hflat : m.body.toList = m.lines.flatMap (· ++ ['\n']) := by
    rw [body, toList_foldl_pushEntry, hhead]
    rfl
  rw [hflat]
  refine Text.lines_flatMap fun l hl => ?_
  rcases List.mem_cons.mp hl with rfl | hl
  · exact hcomment
  · obtain ⟨kv, hkv, hl⟩ := List.mem_flatMap.mp hl
    obtain ⟨a, ha, rfl⟩ := List.mem_map.mp hl
    exact entry_line (mem_archiveKeys hkv) (h kv hkv a (Option.mem_toList.mp ha)).oneLine

/-- The entry of a key sets its field. -/
theorem foldl_entry {k : String} {f : RotMeta → Option String → RotMeta}
    (hf : ∀ m a, PlainRef a → m.readLine (entry k a) = f m (some a)) {v : Option String}
    (hv : ∀ a, v = some a → PlainRef a) {m : RotMeta} (hm : f m none = m) :
    (v.toList.map (entry k)).foldl readLine m = f m v := by
  cases v with
  | none => exact hm.symm
  | some a => exact hf m a (hv a rfl)

/-- A plain reference under one of the keys. -/
theorem readLine_entry (m : RotMeta) {k a : String} (hk : k ∈ archiveKeys) (ha : PlainRef a) :
    m.readLine (entry k a) =
      if k.toList = "slot_a_archive".toList then { m with slotAArchive := some a }
      else if k.toList = "slot_b_archive".toList then { m with slotBArchive := some a }
      else if k.toList = "stage0_archive".toList then { m with stage0Archive := some a }
      else m := by
  rw [readLine_eq, assignment_entry hk]
  simp only [ha.value, if_neg ha.ne, String.ofList_toList]

theorem readLine_rotComment (m : RotMeta) : m.readLine rotComment = m := by
  rw [readLine_eq, assignment_rotComment]

theorem loadRotMeta_body {m : RotMeta} (h : m.Plain) : loadRotMeta (some m.body) = m := by
  simp only [loadRotMeta]
  rw [lines_body h, lines, List.foldl_cons, readLine_rotComment]
  obtain ⟨a, b, c⟩ := m
  have ha := h ("slot_a_archive", a) (by simp [entries])
  have hb := h ("slot_b_archive", b) (by simp [entries])
  have hc := h ("stage0_archive", c) (by simp [entries])
  -- one field after the other
  rw [entries, List.flatMap_cons, List.flatMap_cons, List.flatMap_cons, List.flatMap_nil,
    List.append_nil, List.foldl_append, List.foldl_append,
    foldl_entry (f := fun m v => { m with slotAArchive := v })
      (fun m x hx => readLine_entry m (k := "slot_a_archive") (by decide) hx) ha rfl,
    foldl_entry (f := fun m v => { m with slotBArchive := v })
      (fun m x hx => readLine_entry m (k := "slot_b_archive") (by decide) hx) hb rfl,
    foldl_entry (f := fun m v => { m with stage0Archive := v })
      (fun m x hx => readLine_entry m (k := "stage0_archive") (by decide) hx) hc rfl]

end RotMeta

/-! ## Other texts -/

/-- A field whose key the text lacks has its default. -/
def NvState.DefaultsFor (nv : NvState) (text : String) : Prop :=
  (Text.Lacks text.toList "swap_bank".toList → nv.swapBank = false) ∧
    (Text.Lacks text.toList "archive".toList → nv.archive = none)

def RotMeta.DefaultsFor (m : RotMeta) (text : String) : Prop :=
  (Text.Lacks text.toList "slot_a_archive".toList → m.slotAArchive = none) ∧
    (Text.Lacks text.toList "slot_b_archive".toList → m.slotBArchive = none) ∧
    (Text.Lacks text.toList "stage0_archive".toList → m.stage0Archive = none)

theorem loadNv_defaultsFor (text : String) : (loadNv (some text)).DefaultsFor text := by
  constructor
  · intro hlacks
    refine Text.foldl_keeps NvState.swapBank (fun s l hl => ?_) ⟨false, none⟩
    rw [NvState.readLine_eq]
    split
    · rfl
    · next k v hkv =>
        rw [if_neg (hlacks.ne hl hkv)]
        split
        · rfl
        · rfl
  · intro hlacks
    refine Text.foldl_keeps NvState.archive (fun s l hl => ?_) ⟨false, none⟩
    rw [NvState.readLine_eq]
    split
    · rfl
    · next k v hkv =>
        split
        · rfl
        · rw [if_neg (hlacks.ne hl hkv)]

theorem loadRotMeta_defaultsFor (text : String) : (loadRotMeta (some text)).DefaultsFor text := by
  refine ⟨fun hlacks => ?_, fun hlacks => ?_, fun hlacks => ?_⟩
  · refine Text.foldl_keeps RotMeta.slotAArchive (fun s l hl => ?_) ⟨none, none, none⟩
    rw [RotMeta.readLine_eq]
    split
    · rfl
    · next k v hkv =>
        dsimp only
        rw [if_neg (hlacks.ne hl hkv)]
        split_ifs <;> rfl
  · refine Text.foldl_keeps RotMeta.slotBArchive (fun s l hl => ?_) ⟨none, none, none⟩
    rw [RotMeta.readLine_eq]
    split
    · rfl
    · next k v hkv =>
        dsimp only
        split
        · rfl
        · rw [if_neg (hlacks.ne hl hkv)]
          split_ifs <;> rfl
  · refine Text.foldl_keeps RotMeta.stage0Archive (fun s l hl => ?_) ⟨none, none, none⟩
    rw [RotMeta.readLine_eq]
    split
    · rfl
    · next k v hkv =>
        dsimp only
        split
        · rfl
        · split
          · rfl
          · rw [if_neg (hlacks.ne hl hkv)]

/-- The saved state has no line for a key of the other file. -/
theorem NvState.lacks_body {nv : NvState} (h : nv.Plain) {k : List Char}
    (hswap : "swap_bank".toList ≠ k) (harchive : "archive".toList ≠ k) :
    Text.Lacks nv.body.toList k := by
  intro line hline v hkv
  rw [lines_body fun a ha => (h a ha).oneLine] at hline
  simp only [lines, List.mem_cons, List.mem_map, Option.mem_toList] at hline
  rcases hline with rfl | rfl | ⟨a, -, rfl⟩
  · rw [assignment_nvComment] at hkv
    cases hkv
  · obtain ⟨val, hval⟩ := assignment_swapLine nv.swapBank
    exact hswap (Prod.mk.inj (Option.some.inj (hval.symm.trans hkv))).1
  · rw [assignment_entry (by decide)] at hkv
    exact harchive (Prod.mk.inj (Option.some.inj hkv)).1

theorem RotMeta.lacks_body {m : RotMeta} (h : m.Plain) {k : List Char}
    (hk : ∀ kv ∈ m.entries, kv.1.toList ≠ k) : Text.Lacks m.body.toList k := by
  intro line hline v hkv
  rw [lines_body h] at hline
  rcases List.mem_cons.mp hline with rfl | hline
  · rw [assignment_rotComment] at hkv
    cases hkv
  · obtain ⟨kv, hmem, hline⟩ := List.mem_flatMap.mp hline
    obtain ⟨a, -, rfl⟩ := List.mem_map.mp hline
    rw [assignment_entry (mem_archiveKeys hmem)] at hkv
    exact hk kv hmem (Prod.mk.inj (Option.some.inj hkv)).1

/-- The keys of the metadata file are none of the state file's. -/
theorem RotMeta.ne_of_mem_entries {m : RotMeta} {k : List Char}
    (hk : k = "swap_bank".toList ∨ k = "archive".toList) :
    ∀ kv ∈ m.entries, kv.1.toList ≠ k := by
  have hkeys : ∀ k' ∈ ["slot_a_archive", "slot_b_archive", "stage0_archive"],
      k'.toList ≠ "swap_bank".toList ∧ k'.toList ≠ "archive".toList := by
    decide
  intro kv hkv
  have hmem : kv.1 ∈ ["slot_a_archive", "slot_b_archive", "stage0_archive"] := by
    simp only [entries, List.mem_cons, List.not_mem_nil, or_false] at hkv
    rcases hkv with rfl | rfl | rfl <;> simp
  rcases hk with rfl | rfl
  · exact (hkeys kv.1 hmem).1
  · exact (hkeys kv.1 hmem).2

/-- Both files are read back as they were saved; the other store's file gives the defaults, as a
missing or unreadable one does; and in any text a field without a line has its default. -/
theorem metadata_round_trip {nv : NvState} {m : RotMeta} (hnv : nv.Plain) (hm : m.Plain) :
    (loadNv (some nv.body) = nv ∧ loadRotMeta (some m.body) = m) ∧
      (loadNv (some m.body) = ⟨false, none⟩ ∧ loadRotMeta (some nv.body) = ⟨none, none, none⟩) ∧
      (loadNv none = ⟨false, none⟩ ∧ loadRotMeta none = ⟨none, none, none⟩) ∧
      ∀ text : String,
        (loadNv (some text)).DefaultsFor text ∧ (loadRotMeta (some text)).DefaultsFor text := by
  refine ⟨⟨NvState.loadNv_body hnv, RotMeta.loadRotMeta_body hm⟩, ⟨?_, ?_⟩, ⟨rfl, rfl⟩,
    fun text => ⟨loadNv_defaultsFor text, loadRotMeta_defaultsFor text⟩⟩
  · obtain ⟨hswap, harchive⟩ := loadNv_defaultsFor m.body
    have h₁ := hswap (RotMeta.lacks_body hm (RotMeta.ne_of_mem_entries (Or.inl rfl)))
    have h₂ := harchive (RotMeta.lacks_body hm (RotMeta.ne_of_mem_entries (Or.inr rfl)))
    calc loadNv (some m.body)
        = ⟨(loadNv (some m.body)).swapBank, (loadNv (some m.body)).archive⟩ := rfl
      _ = ⟨false, none⟩ := by rw [h₁, h₂]
  · obtain ⟨ha, hb, hc⟩ := loadRotMeta_defaultsFor nv.body
    have h₁ := ha (NvState.lacks_body hnv (by decide) (by decide))
    have h₂ := hb (NvState.lacks_body hnv (by decide) (by decide))
    have h₃ := hc (NvState.lacks_body hnv (by decide) (by decide))
    calc loadRotMeta (some nv.body)
        = ⟨(loadRotMeta (some nv.body)).slotAArchive, (loadRotMeta (some nv.body)).slotBArchive,
            (loadRotMeta (some nv.body)).stage0Archive⟩ := rfl
      _ = ⟨none, none, none⟩ := by rw [h₁, h₂, h₃]

/-- A flashed SP, and a RoT with slot A and stage0 from archives. -/
theorem metadata_round_trip_archives :
    loadNv (some (NvState.mk true (some "archives/sp.zip")).body) =
        ⟨true, some "archives/sp.zip"⟩ ∧
      loadRotMeta (some (RotMeta.mk (some "archives/rot-a.zip") none
        (some "archives/stage0.zip")).body) =
          ⟨some "archives/rot-a.zip", none, some "archives/stage0.zip"⟩ := by
  have hnv : NvState.Plain ⟨true, some "archives/sp.zip"⟩ := by
    intro a ha
    obtain rfl := Option.some.inj ha
    exact ⟨by decide, by decide, by decide, by decide⟩
  have hm : RotMeta.Plain ⟨some "archives/rot-a.zip", none, some "archives/stage0.zip"⟩ := by
    intro kv hkv a ha
    simp only [RotMeta.entries, List.mem_cons, List.not_mem_nil, or_false] at hkv
    rcases hkv with rfl | rfl | rfl
    · obtain rfl := Option.some.inj ha
      exact ⟨by decide, by decide, by decide, by decide⟩
    · cases ha
    · obtain rfl := Option.some.inj ha
      exact ⟨by decide, by decide, by decide, by decide⟩
  exact (metadata_round_trip hnv hm).1

end SpEmu
