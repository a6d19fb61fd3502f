import SpEmu.Config.Flat

/-!
# The lenient path

Flat values come from the environment, where anything can be written. Most knobs drop what they do
not understand, so that `ingest` has nothing to refuse (`Kind.ingest_set_isOk`). The mode and the
slot hand the text on as it is, and `ingest` is strict with it: `lenient_iff` says which lists of
pairs, and which environments, are resolved.
-/

set_option autoImplicit false

namespace SpEmu

namespace Kind

variable {k : Kind} {s : List Char}

/-- A value replaces the one before it, or it is dropped; only a kind that refuses nothing drops
values. -/
theorem set_cases (k : Kind) (s : List Char) (old : Option k.Ext) :
    k.set s old = k.set s none ∨ k.set s old = old ∧ ∀ t, ¬ k.Refuses t := by
  cases k with
  | board =>
      by_cases hs : s = "sidecar".toList
      · left
        rw [set, set, if_pos hs, if_pos hs]
      · right
        exact ⟨by rw [set, if_neg hs], fun _ h => h⟩
  | bootPref =>
      by_cases hs : s = "a".toList ∨ s = "b".toList
      · left
        rw [set, set, if_pos hs, if_pos hs]
      · right
        exact ⟨by rw [set, if_neg hs], fun _ h => h⟩
  | rotdump =>
      by_cases hs : (Config.parseRotdump s).isSome = true
      · left
        rw [set, set, if_pos hs, if_pos hs]
      · right
        exact ⟨by rw [set, if_neg hs], fun _ h => h⟩
  | _ =>
      -- the other kinds do not look at the old value
      exact .inl rfl

/-- After a value the field passes its check unless the value is refused. -/
theorem ingest_set_isOk {old : Option k.Ext}
    (hold : (∀ t, ¬ k.Refuses t) → ∃ x, k.ingest old = .ok x) :
    (∃ x, k.ingest (k.set s old) = .ok x) ↔ ¬ k.Refuses s := by
  rcases k.set_cases s old with hset | ⟨hset, hnone⟩
  · rw [hset]
    constructor
    · rintro ⟨x, hx⟩ hrefused
      obtain ⟨e, he⟩ := ingest_refused hrefused
      rw [hx] at he
      cases he
    · exact ingest_set_eq_ok
  · rw [hset]
    exact iff_of_true (hold hnone) (hnone s)

end Kind

namespace Config

/-- A field of the file passes its check unless the last value for it is refused. -/
theorem ingest_knob_iff (pairs : List (List Char × List Char)) (k : Knob) :
    (∃ x, k.kind.ingest ((flatPairsToV1 pairs).knobs k) = .ok x) ↔
      ∀ s, pairs.reverse.lookup k.name = some s → ¬ k.kind.Refuses s := by
  -- from the last pair backwards: it is the one that counts
  induction pairs using List.reverseRecOn with
  | nil =>
      refine iff_of_true (Kind.ingest_none_eq_ok k.kind) fun s hs => ?_
      cases hs
  | append_singleton ps p ih =>
      have hlast : (flatPairsToV1 (ps ++ [p])).knobs =
          Keyed.assignOne Knob.all Knob.name (fun k => k.kind.set) (flatPairsToV1 ps).knobs p :=
        Keyed.assign_concat _ ps p _
      obtain ⟨n, v⟩ := p
      rw [hlast, List.reverse_concat]
      by_cases hn : k.name = n
      · subst hn
        rw [Keyed.assignOne_name _ Knob.mem_all Knob.name_injective, Keyed.lookup_cons_self]
        refine (Kind.ingest_set_isOk fun hnone => ih.mpr fun s _ => hnone s).trans ?_
        exact ⟨fun h s hs => Option.some.inj hs ▸ h, fun h => h v rfl⟩
      · rw [Keyed.assignOne_of_ne _ _ hn, Keyed.lookup_cons_of_ne hn]
        exact ih

theorem exists_ingest_iff (ext : ConfigFileV1) :
    (∃ c, ingest ext = .ok c) ↔ ∀ k : Knob, ∃ x, k.kind.ingest (ext.knobs k) = .ok x := by
  constructor
  · rintro ⟨c, hc⟩ k
    exact ⟨c k, ingest_eq_ok.mp hc k⟩
  · intro h
    choose c hc using h
    exact ⟨c, ingest_eq_ok.mpr hc⟩

/-- The values for the mode and for the slot are spelled as `ingest` wants them, or empty. -/
def WellSpelled (value : List Char → Option (List Char)) : Prop :=
  (∀ s, value Knob.mode.name = some s → s = [] ∨ s = "run".toList ∨ s = "gdb".toList) ∧
    ∀ s, value Knob.slot.name = some s → s = [] ∨ s = "a".toList ∨ s = "b".toList

theorem not_refuses_oneOf {path a b : String} {s : List Char} :
    ¬ (Kind.oneOf path a b).Refuses s ↔ s = [] ∨ s = a.toList ∨ s = b.toList := by
  rw [Kind.Refuses]
  tauto

/-- No other knob refuses a value. -/
theorem refuses_iff (value : List Char → Option (List Char)) :
    (∀ (k : Knob) (s : List Char), value k.name = some s → ¬ k.kind.Refuses s) ↔
      WellSpelled value := by
  constructor
  · intro h
    exact ⟨fun s hs => not_refuses_oneOf.mp (h .mode s hs),
      fun s hs => not_refuses_oneOf.mp (h .slot s hs)⟩
  · rintro ⟨hmode, hslot⟩ k s hs
    cases k with
    | mode => exact not_refuses_oneOf.mpr (hmode s hs)
    | slot => exact not_refuses_oneOf.mpr (hslot s hs)
    | _ => exact id

theorem fileOf_knob_iff (get : List Char → Option (List Char)) (k : Knob) :
    (∃ x, k.kind.ingest ((fileOf get).knobs k) = .ok x) ↔
      ∀ s, get k.name = some s → ¬ k.kind.Refuses s := by
  rw [fileOf]
  dsimp only
  cases hs : get k.name with
  | none =>
      refine iff_of_true (Kind.ingest_none_eq_ok k.kind) fun s hs => ?_
      cases hs
  | some s =>
      refine (Kind.ingest_set_isOk fun _ => Kind.ingest_none_eq_ok k.kind).trans ?_
      exact ⟨fun h t ht => Option.some.inj ht ▸ h, fun h => h s rfl⟩

/-- A seed of the command line is a text like any other. -/
theorem overrideSeed_knob_iff (ext : ConfigFileV1) (seed : Option (List Char)) (k : Knob) :
    (∃ x, k.kind.ingest ((overrideSeed ext seed).knobs k) = .ok x) ↔
      ∃ x, k.kind.ingest (ext.knobs k) = .ok x := by
  cases seed with
  | none => exact Iff.rfl
  | some s =>
      by_cases hk : k = .seed
      · -- a seed is a text, and every text passes
        subst hk
        exact iff_of_true ⟨_, rfl⟩ ⟨_, rfl⟩
      · rw [overrideSeed]
        dsimp only
        rw [Function.update_of_ne hk]

theorem exists_resolve_iff (get : List Char → Option (List Char)) (seed : Option (List Char)) :
    (∃ r, resolve get seed = .ok r) ↔ WellSpelled get := by
  have hmap : (∃ r, resolve get seed = .ok r) ↔
      ∃ c, ingest (overrideSeed (fileOf get) seed) = .ok c := by
    rw [resolve_eq]
    cases ingest (overrideSeed (fileOf get) seed) with
    | error e =>
        refine iff_of_false ?_ ?_
        · rintro ⟨r, hr⟩
          cases hr
        · rintro ⟨c, hc⟩
          cases hc
    | ok c => exact iff_of_true ⟨_, rfl⟩ ⟨_, rfl⟩
  rw [hmap, exists_ingest_iff, ← refuses_iff]
  exact forall_congr' fun k =>
    (overrideSeed_knob_iff _ seed k).trans (fileOf_knob_iff get k)

end Config

/-- Flat pairs pass `ingest`, and a source of texts is resolved, if and only if the last value for
the mode and that for the slot are spelled as they should be. -/
theorem lenient_iff (pairs : List (List Char × List Char)) (get : List Char → Option (List Char))
    (seed : Option (List Char)) :
    ((∃ c, Config.ingest (Config.flatPairsToV1 pairs) = .ok c) ↔
        Config.WellSpelled fun n => pairs.reverse.lookup n) ∧
      ((∃ r, Config.resolve get seed = .ok r) ↔ Config.WellSpelled get) := by
  refine ⟨?_, Config.exists_resolve_iff get seed⟩
  rw [Config.exists_ingest_iff, ← Config.refuses_iff]
  exact forall_congr' (Config.ingest_knob_iff pairs)

/-- A mode that is no mode is refused. -/
theorem walk_refused :
    ¬ ∀ pairs : List (List Char × List Char),
      ∃ c, Config.ingest (Config.flatPairsToV1 pairs) = .ok c := by
  intro h
  obtain ⟨c, hc⟩ := h [(Knob.mode.name, "walk".toList)]
  have hmode := (Config.ingest_knob_iff _ .mode).mp ⟨c .mode, Config.ingest_eq_ok.mp hc .mode⟩
  exact hmode "walk".toList (Keyed.lookup_cons_self _ _ []) ⟨by decide, by decide, by decide⟩

end SpEmu
