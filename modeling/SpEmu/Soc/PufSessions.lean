import SpEmu.Soc.Puf

/-!
# Sessions with the PUF

A driver sets the key size, starts a GENERATEKEY and reads the keycode out of CODEOUTPUT; it starts
a GETKEY, puts the keycode into CODEINPUT and reads the key out of KEYOUTPUT. Between these accesses
it reads other registers, the status above all. `Handshake` is what both sessions promise, from the
state that any history has left behind.

Every command sets its own streams up, so that nothing of an aborted one remains in it, and the last
word of a stream clears BUSY. A key of size 0 has no last word: `handshake_iff` says that this is
the only exception.
-/

set_option autoImplicit false

namespace SpEmu

open ByteMem Runs

namespace Puf

/-! ## What the sessions deliver -/

/-- The keycode of an index and a key size: the index, and numbered words. -/
def keycode (index : Word) (n : Nat) : List Word :=
  ((index &&& 0xF) <<< 8) ::
    (List.range (n - 1)).map fun i => 0xC0DE0000 ||| BitVec.ofNat 32 (i + 1)

/-- The length of the keycode for a key of `size` units of 64 bits. -/
def keycodeLength (size : Word) : Nat := (20 + (size.toNat * 8 + 31) / 32 * 32) / 4

/-- The words of the seed. -/
def seedKey (seed : Bytes 32) : List Word :=
  (List.range 8).map fun i => leWord 4 fun j => seed.get (i * 4 + j)

/-- The key of `size` units of 64 bits, as far as the seed goes. -/
def keyPrefix (seed : Bytes 32) (size : Word) : List Word := (seedKey seed).take (size.toNat * 2)

/-- The size that a KEYSIZE write sets. -/
def sizeOf (val : Word) : Word := val &&& keysizeMask

def StartsGenerate (val : Word) : Prop := val &&& ctrlGeneratekey ≠ 0

instance (val : Word) : Decidable (StartsGenerate val) := inferInstanceAs (Decidable (_ ≠ _))

instance (val : Word) : Decidable (StartsGetkey val) := inferInstanceAs (Decidable (_ ∧ _))

/-! ## Sessions -/

/-- The access does more than read a register that no stream comes out of. -/
def drives : Access → Bool
  | .read off => off == codeoutput || off == keyoutput
  | .write _ _ => true

/-- The values that a stream register gives in a run. -/
def streamed (reg : Word) : List Access → Puf → List Word
  | [], _ => []
  | .read off :: tail, p =>
      if off = reg then (p.read off).1 :: streamed reg tail (p.read off).2
      else streamed reg tail (p.read off).2
  | .write off val :: tail, p => streamed reg tail (p.write off val)

/-- Generate a keycode of `n` words for a key size. -/
def generateSession (size gen : Word) (n : Nat) : List Access :=
  .write keysizeReg size :: .write ctrl gen :: List.replicate n (.read codeoutput)

/-- Get a key of `n` words for a keycode. -/
def getkeySession (get : Word) (code : List Word) (n : Nat) : List Access :=
  .write ctrl get :: (code.map (.write codeinput) ++ List.replicate n (.read keyoutput))

/-- BUSY is clear. -/
def Idle (p : Puf) : Prop := (p.read statReg).1 &&& statBusy = 0

instance (p : Puf) : Decidable p.Idle := inferInstanceAs (Decidable (_ = _))

/-- A command takes over the engine, whatever the command before left. -/
def Accepts (p : Puf) : Prop :=
  (∀ gen, StartsGenerate gen →
    (p.write ctrl gen).codeout = keycode p.keyindex (keycodeLength p.keysize) ∧
      ¬ (p.write ctrl gen).Idle) ∧
  ∀ get, StartsGetkey get →
    (p.write ctrl get).codeinLeft = keycodeLength p.keysize ∧ (p.write ctrl get).keyout = [] ∧
      ¬ (p.write ctrl get).Idle

/-- A GENERATEKEY and a GETKEY with its keycode, each with other reads in between, give the keycode
and the key, and leave the engine idle and ready for a command. -/
def Handshake (p : Puf) (size gen get : Word) : Prop :=
  ∀ generate getkey : List Access,
    generate.filter drives = generateSession size gen (keycodeLength (sizeOf size)) →
    getkey.filter drives = getkeySession get (keycode p.keyindex (keycodeLength (sizeOf size)))
      (keyPrefix p.seed (sizeOf size)).length →
    ∃ p₁ p₂, run step generate p = some p₁ ∧
      streamed codeoutput generate p = keycode p.keyindex (keycodeLength (sizeOf size)) ∧
      p₁.Idle ∧ p₁.Accepts ∧ run step getkey p₁ = some p₂ ∧
      streamed keyoutput getkey p₁ = keyPrefix p.seed (sizeOf size) ∧ p₂.Idle ∧ p₂.Accepts

section Engine

variable {p : Puf}

theorem idle_iff : p.Idle ↔ p.busy = false := by
  -- no other flag has the bit of BUSY
  have hflag : ∀ (c : Prop) [Decidable c] (flag : Word), flag &&& statBusy = 0 →
      (if c then flag else 0) &&& statBusy = 0 := by
    intro c _ flag hflag
    split
    · exact hflag
    · rfl
  show p.stat &&& statBusy = 0 ↔ p.busy = false
  rw [stat]
  simp only [BitVec.and_or_distrib_right, hflag _ statSuccess (by decide),
    hflag _ statError (by decide), hflag _ statKeyoutavail (by decide),
    hflag _ statCodeinreq (by decide), hflag _ statCodeoutavail (by decide)]
  cases p.busy with
  | false => exact iff_of_true rfl rfl
  | true => exact iff_of_false (by decide) (by decide)

theorem accepts (p : Puf) : p.Accepts := by
  constructor
  · intro gen hgen
    have hwrite : p.write ctrl gen = p.startGenerate := by
      rw [write, if_pos rfl]
      exact if_pos hgen
    rw [hwrite, idle_iff]
    exact ⟨rfl, fun h => by cases h⟩
  · intro get hget
    have hwrite : p.write ctrl get = p.startGetkey := by
      rw [write, if_pos rfl, if_neg (not_not.mpr hget.1), if_pos hget.2]
    rw [hwrite, idle_iff]
    exact ⟨rfl, rfl, fun h => by cases h⟩

/-- The words that GETKEY streams are the key. -/
theorem seedWords_eq (p : Puf) : p.seedWords = keyPrefix p.seed p.keysize := by
  rw [seedWords, keyPrefix, seedKey, ← List.map_take, List.take_range, keyBytes]
  congr 2
  omega

/-! ### Reads in between -/

/-- A read that drives nothing changes nothing. -/
theorem read_of_not_drives {off : Word} (h : drives (.read off) = false) : (p.read off).2 = p := by
  simp only [drives, Bool.or_eq_false_iff, beq_eq_false_iff_ne] at h
  rw [read]
  split
  · rfl
  · split
    · rfl
    · rw [if_neg h.1, if_neg h.2]
      split_ifs <;> rfl

/-- Reads in between change neither the end of a run nor what a stream gives. -/
theorem session_filter (reg : Word) (hreg : drives (.read reg) = true) (as : List Access)
    (p : Puf) : run step as p = run step (as.filter drives) p ∧
      streamed reg as p = streamed reg (as.filter drives) p := by
  induction as generalizing p with
  | nil => exact ⟨rfl, rfl⟩
  | cons a as ih =>
      by_cases hdrives : drives a = true
      · rw [List.filter_cons_of_pos hdrives]
        cases a with
        | read off =>
            refine ⟨(ih _).1, ?_⟩
            rw [streamed, streamed, (ih _).2]
        | write off val => exact ⟨(ih _).1, (ih _).2⟩
      · rw [List.filter_cons_of_neg hdrives]
        rw [Bool.not_eq_true] at hdrives
        cases a with
        | write off val => cases hdrives
        | read off =>
            have hsame := read_of_not_drives (p := p) hdrives
            have hne : off ≠ reg := by
              rintro rfl
              rw [hreg] at hdrives
              cases hdrives
            have hrun : run step (.read off :: as) p = run step as p := by
              show run step as (p.read off).2 = _
              rw [hsame]
            rw [hrun, streamed, if_neg hne, hsame]
            exact ih p

/-! ### The streams -/

/-- Reading a stream out, to its last word; `f` is the engine with a stream in it. -/
theorem drain_stream {reg : Word} {f : List Word → Puf} {last : Puf}
    (hnext : ∀ v w rest, (f (v :: w :: rest)).read reg = (v, f (w :: rest)))
    (hlast : ∀ v, (f [v]).read reg = (v, last)) (v : Word) (rest : List Word) :
    run step (List.replicate (rest.length + 1) (.read reg)) (f (v :: rest)) = some last ∧
      streamed reg (List.replicate (rest.length + 1) (.read reg)) (f (v :: rest)) =
        v :: rest := by
  induction rest generalizing v with
  | nil =>
      constructor
      · show some ((f [v]).read reg).2 = _
        rw [hlast]
      · rw [List.length_nil, Nat.zero_add, List.replicate_one, streamed, if_pos rfl, hlast,
          streamed]
  | cons w rest ih =>
      obtain ⟨hrun, hout⟩ := ih w
      constructor
      · show run step (List.replicate (rest.length + 1) (.read reg))
          ((f (v :: w :: rest)).read reg).2 = _
        rw [hnext]
        exact hrun
      · rw [List.length_cons, List.replicate_succ, streamed, if_pos rfl, hnext, hout]

/-- Reading a keycode out, to its last word. -/
theorem drain_codeout {v : Word} {code : List Word} (h : p.codeout = v :: code) :
    run step (List.replicate (code.length + 1) (.read codeoutput)) p =
        some { p with codeout := [], busy := false, success := true } ∧
      streamed codeoutput (List.replicate (code.length + 1) (.read codeoutput)) p = v :: code := by
  have hheld : p = { p with codeout := v :: code } := by rw [← h]
  rw [hheld]
  refine drain_stream (f := fun code => { p with codeout := code }) ?_ ?_ v code
  · intro v w rest
    show popCodeout _ = _
    simp only [popCodeout, List.headD_cons, List.tail_cons, List.cons_ne_nil, if_false]
  · intro v
    show popCodeout _ = _
    simp only [popCodeout, List.headD_cons, List.tail_cons, if_true]

/-- Reading a key out, to its last word. -/
theorem drain_keyout {v : Word} {key : List Word} (h : p.keyout = v :: key)
    (hleft : p.codeinLeft = 0) :
    run step (List.replicate (key.length + 1) (.read keyoutput)) p =
        some { p with keyout := [], busy := false, success := true } ∧
      streamed keyoutput (List.replicate (key.length + 1) (.read keyoutput)) p = v :: key := by
  have hheld : p = { p with keyout := v :: key } := by rw [← h]
  rw [hheld]
  refine drain_stream (f := fun key => { p with keyout := key }) ?_ ?_ v key
  · intro v w rest
    show popKeyout _ = _
    simp only [popKeyout, List.headD_cons, List.tail_cons, List.cons_ne_nil, false_and, if_false]
  · intro v
    show popKeyout _ = _
    simp only [popKeyout, hleft, List.headD_cons, List.tail_cons, and_self, if_true]

/-- The last word of a keycode makes the key available, whatever the words are. -/
theorem feed_codein {v : Word} {code : List Word} (hkey : p.keyout = [])
    (hleft : p.codeinLeft = code.length + 1) :
    run step ((v :: code).map (.write codeinput)) p =
      some { p with codeinLeft := 0, keyout := p.seedWords } := by
  induction code generalizing p v with
  | nil =>
      have hlast : p.consumeCodein = { p with codeinLeft := 0, keyout := p.seedWords } := by
        simp only [consumeCodein, hleft, hkey, List.length_nil, Nat.zero_add, Nat.sub_self,
          Nat.one_pos, if_true, List.nil_append]
        rfl
      show some p.consumeCodein = _
      rw [hlast]
  | cons w code ih =>
      have hnext : p.consumeCodein = { p with codeinLeft := code.length + 1 } := by
        simp only [consumeCodein, hleft, List.length_cons, Nat.add_sub_cancel, Nat.succ_pos,
          Nat.succ_ne_zero, if_true, if_false]
      show run step ((w :: code).map (.write codeinput)) p.consumeCodein = _
      rw [hnext]
      exact ih (p := { p with codeinLeft := code.length + 1 }) hkey rfl

theorem streamed_append {reg : Word} {as bs : List Access} {p p' : Puf}
    (h : run step as p = some p') :
    streamed reg (as ++ bs) p = streamed reg as p ++ streamed reg bs p' := by
  induction as generalizing p with
  | nil =>
      obtain rfl := Option.some.inj h
      rfl
  | cons a as ih =>
      cases a with
      | read off =>
          have hrest := ih (p := (p.read off).2) h
          rw [List.cons_append, streamed, streamed, hrest]
          split
          · rfl
          · rfl
      | write off val =>
          rw [List.cons_append, streamed, streamed]
          exact ih (p := p.write off val) h

theorem streamed_writes {reg : Word} (off : Word) (vals : List Word) (p : Puf) :
    streamed reg (vals.map (.write off)) p = [] := by
  induction vals generalizing p with
  | nil => rfl
  | cons v vals ih => exact ih (p.write off v)

theorem length_keycode (index size : Word) :
    (keycode index (keycodeLength size)).length = keycodeLength size := by
  have hpos : 1 ≤ keycodeLength size := by
    rw [keycodeLength]
    omega
  rw [keycode, List.length_cons, List.length_map, List.length_range]
  omega

/-- A GENERATEKEY session, from any state. -/
theorem run_generate (p : Puf) (size : Word) {gen : Word} (hgen : StartsGenerate gen) :
    ∃ p₁, run step (generateSession size gen (keycodeLength (sizeOf size))) p = some p₁ ∧
      streamed codeoutput (generateSession size gen (keycodeLength (sizeOf size))) p =
        keycode p.keyindex (keycodeLength (sizeOf size)) ∧
      p₁.busy = false ∧ p₁.keysize = sizeOf size ∧ p₁.seed = p.seed := by
  have hlen := length_keycode p.keyindex (sizeOf size)
  have hstart : (p.write keysizeReg size).write ctrl gen =
      startGenerate { p with keysize := sizeOf size } := by
    rw [write, if_pos rfl]
    exact if_pos hgen
  have hdrain : run step (List.replicate (keycode p.keyindex (keycodeLength (sizeOf size))).length
      (.read codeoutput)) (startGenerate { p with keysize := sizeOf size }) = _ ∧
      streamed codeoutput (List.replicate (keycode p.keyindex
        (keycodeLength (sizeOf size))).length (.read codeoutput))
          (startGenerate { p with keysize := sizeOf size }) = _ := drain_codeout rfl
  rw [hlen, ← hstart] at hdrain
  exact ⟨_, hdrain.1, hdrain.2, rfl, by rw [hstart]; rfl, by rw [hstart]; rfl⟩

/-- A GETKEY session, from any state with the size that the keycode was generated for. BUSY stays
set when there is no key word to read. -/
theorem run_getkey (p : Puf) (index : Word) {get : Word} (hget : StartsGetkey get) :
    ∃ p₂, run step (getkeySession get (keycode index (keycodeLength p.keysize))
        (keyPrefix p.seed p.keysize).length) p = some p₂ ∧
      streamed keyoutput (getkeySession get (keycode index (keycodeLength p.keysize))
        (keyPrefix p.seed p.keysize).length) p = keyPrefix p.seed p.keysize ∧
      (p₂.busy = false ↔ keyPrefix p.seed p.keysize ≠ []) := by
  have hlen := length_keycode index p.keysize
  have hstart : p.write ctrl get = p.startGetkey := by
    rw [write, if_pos rfl, if_neg (not_not.mpr hget.1), if_pos hget.2]
  have hfeed : run step ((keycode index (keycodeLength p.keysize)).map (.write codeinput))
      p.startGetkey =
        some { p.startGetkey with codeinLeft := 0, keyout := p.startGetkey.seedWords } :=
    feed_codein rfl hlen.symm
  rw [← hstart] at hfeed
  have hwords : (p.write ctrl get).seedWords = keyPrefix p.seed p.keysize := by
    rw [hstart]
    exact p.seedWords_eq
  -- the key is what is left to read
  have hsession : ∀ n, run step (getkeySession get (keycode index (keycodeLength p.keysize)) n) p =
        run step (List.replicate n (.read keyoutput))
          { p.write ctrl get with codeinLeft := 0, keyout := keyPrefix p.seed p.keysize } ∧
      streamed keyoutput (getkeySession get (keycode index (keycodeLength p.keysize)) n) p =
        streamed keyoutput (List.replicate n (.read keyoutput))
          { p.write ctrl get with codeinLeft := 0, keyout := keyPrefix p.seed p.keysize } := by
    intro n
    rw [hwords] at hfeed
    constructor
    · show run step (_ ++ _) (p.write ctrl get) = _
      rw [run_append, hfeed]
      rfl
    · show streamed keyoutput (_ ++ _) (p.write ctrl get) = _
      rw [streamed_append hfeed, streamed_writes, List.nil_append]
  rw [(hsession _).1, (hsession _).2]
  cases hkey : keyPrefix p.seed p.keysize with
  | nil =>
      -- only the last key word would clear BUSY
      refine ⟨_, rfl, rfl, iff_of_false ?_ (not_not.mpr rfl)⟩
      rw [hstart]
      exact fun h => by cases h
  | cons v key =>
      obtain ⟨hrun, hout⟩ := drain_keyout
        (p := { p.write ctrl get with codeinLeft := 0, keyout := v :: key }) rfl rfl
      exact ⟨_, hrun, hout, iff_of_true rfl (List.cons_ne_nil _ _)⟩

theorem keyPrefix_ne_nil (seed : Bytes 32) (size : Word) : keyPrefix seed size ≠ [] ↔ size ≠ 0 := by
  have hzero : size = 0 ↔ size.toNat = 0 :=
    ⟨fun h => by rw [h]; rfl, fun h => BitVec.eq_of_toNat_eq h⟩
  have hseed : seedKey seed ≠ [] := List.cons_ne_nil _ _
  rw [keyPrefix, ne_eq, ne_eq, List.take_eq_nil_iff, hzero, or_iff_left hseed]
  omega

/-- Every access of a session drives the engine. -/
theorem filter_generateSession (size gen : Word) (n : Nat) :
    (generateSession size gen n).filter drives = generateSession size gen n := by
  refine List.filter_eq_self.mpr fun a ha => ?_
  rcases List.mem_cons.mp ha with rfl | ha
  · rfl
  · rcases List.mem_cons.mp ha with rfl | ha
    · rfl
    · rw [List.eq_of_mem_replicate ha]
      rfl

theorem filter_getkeySession (get : Word) (code : List Word) (n : Nat) :
    (getkeySession get code n).filter drives = getkeySession get code n := by
  refine List.filter_eq_self.mpr fun a ha => ?_
  rcases List.mem_cons.mp ha with rfl | ha
  · rfl
  · rcases List.mem_append.mp ha with ha | ha
    · obtain ⟨v, -, rfl⟩ := List.mem_map.mp ha
      rfl
    · rw [List.eq_of_mem_replicate ha]
      rfl

end Engine

/-- From the state that any history has left, the two sessions give the keycode and the key and
leave the engine idle and ready, exactly when the key size that is set is not 0. -/
theorem handshake_iff (p : Puf) {size gen get : Word} (hgen : StartsGenerate gen)
    (hget : StartsGetkey get) : Handshake p size gen get ↔ sizeOf size ≠ 0 := by
  obtain ⟨p₁, hrun₁, hout₁, hidle₁, hsize, hseed⟩ := run_generate p size hgen
  obtain ⟨p₂, hrun₂, hout₂, hidle₂⟩ := run_getkey p₁ p.keyindex hget
  rw [hsize, hseed] at hrun₂ hout₂ hidle₂
  rw [keyPrefix_ne_nil] at hidle₂
  constructor
  · intro h
    obtain ⟨q₁, q₂, hq₁, -, -, -, hq₂, -, hidle, -⟩ :=
      h _ _ (filter_generateSession _ _ _) (filter_getkeySession _ _ _)
    obtain rfl := Option.some.inj (hrun₁.symm.trans hq₁)
    obtain rfl := Option.some.inj (hrun₂.symm.trans hq₂)
    exact hidle₂.mp (idle_iff.mp hidle)
  · intro hne generate getkey hgenerate hgetkey
    obtain ⟨hg, hgs⟩ := session_filter codeoutput rfl generate p
    obtain ⟨hk, hks⟩ := session_filter keyoutput rfl getkey p₁
    rw [hgenerate] at hg hgs
    rw [hgetkey] at hk hks
    exact ⟨p₁, p₂, hg.trans hrun₁, hgs.trans hout₁, idle_iff.mpr hidle₁, accepts p₁,
      hk.trans hrun₂, hks.trans hout₂, idle_iff.mpr (hidle₂.mpr hne), accepts p₂⟩

theorem handshake_iff_seed : Handshake (new fun _ => 0xA5) 4 ctrlGeneratekey ctrlGetkey :=
  (handshake_iff _ (by decide) (by decide)).mpr (by decide)

/-- With the key size of a reset a GETKEY leaves the engine busy after its keycode. -/
theorem not_handshake :
    ¬ ∀ (p : Puf) (size gen get : Word), StartsGenerate gen → StartsGetkey get →
      Handshake p size gen get := by
  intro h
  have hzero := h (new fun _ => 0xA5) 0 ctrlGeneratekey ctrlGetkey (by decide) (by decide)
  obtain ⟨p₁, p₂, hgenerate, -, -, -, hgetkey, -, hidle, -⟩ :=
    hzero _ _ (filter_generateSession _ _ _) (filter_getkeySession _ _ _)
  cases hgenerate
  cases hgetkey
  revert hidle
  decide

end Puf

end SpEmu
