import SpEmu.Lib.Bytes
import SpEmu.Lib.Cutter
import SpEmu.Lib.Numeral
import SpEmu.Lib.Runs

/-!
# The I2C bridge

In device mode a local process answers the reads of the SP's I2C controllers. One stream carries
the queries out and another the replies back, a line for each query and no identifier. `onRead`
waits for a line, and gives up when nothing more arrives for the read timeout; what it has read of
the line by then is lost, and the rest stays in the stream.

After a timeout the reply is still owed, so that the reads after it find earlier replies.
`answers_of_along` is the converse: as long as no read has timed out, each read returns the reply to
its own query or no data. The server stays connected and answers each query with one line; the texts
of the queries are left out.
-/

set_option autoImplicit false

namespace SpEmu

open ByteMem Runs

namespace I2cBridge

inductive Mode where
  | off
  | sniff
  | device
deriving DecidableEq

end I2cBridge

open I2cBridge in
/-- The bridge with the stream of replies behind its read side. -/
structure I2cBridge where
  mode : I2cBridge.Mode
  /-- The write side is open. -/
  w : Bool
  /-- There is a read side. -/
  r : Bool
  /-- What has arrived and was not read. -/
  arrived : List Byte
  /-- What the server still has to deliver, in the order of the queries. -/
  owed : List Byte

namespace I2cBridge

def newline : Byte := 0x0A

/-- A line of the server, without its line feed. -/
structure Reply where
  line : List Byte
  oneLine : newline ∉ line

/-! ## Reply lines -/

def utf8 (bytes : List Byte) : Option (List Char) :=
  (ByteArray.utf8Decode? ⟨(bytes.map UInt8.ofBitVec).toArray⟩).map Array.toList

/-- A byte in hexadecimal after 0x, or in decimal. -/
def parseByte (s : List Char) : Option Nat :=
  match Text.trim s with
  | '0' :: 'x' :: h => Numeral.parseUInt 16 8 h
  | t => Numeral.parseUInt 10 8 t

/-- What a line says; `none` defers to the built-in model. -/
def lineValue (line : List Byte) : Option Byte := do
  let t := Text.trim (← utf8 line)
  if t = [] ∨ t = ['-'] then none else (parseByte t).map (BitVec.ofNat 8)

def Reply.text (p : Reply) : List Byte := p.line ++ [newline]

/-- The answer of the server to a query. -/
def Reply.value (p : Reply) : Option Byte := lineValue p.text

/-! ## Operations -/

variable (b : I2cBridge)

/-- A bridge as it is connected. -/
def wrap (mode : Mode) (w r : Bool) : I2cBridge := ⟨mode, w, r, [], []⟩

def active : Bool := b.mode ≠ .off && b.w

/-- A line of an observation; a broken pipe closes the write side. -/
def observe (ok : Bool) : I2cBridge := if b.active && !ok then { b with w := false } else b

/-- The server delivers `n` bytes more. -/
def arrive (n : Nat) : I2cBridge :=
  { b with arrived := b.arrived ++ b.owed.take n, owed := b.owed.drop n }

/-- A read can be delegated. -/
def Live : Prop := b.mode = .device ∧ b.w = true ∧ b.r = true

instance : Decidable b.Live := inferInstanceAs (Decidable (_ ∧ _))

/-- Read a line. Without a whole one the timeout expires, and what has arrived is dropped. -/
def readLine : Option (List Byte) × I2cBridge :=
  match Cutter.upTo newline b.arrived with
  | some (line, rest) => (some (line ++ [newline]), { b with arrived := rest })
  | none => (none, { b with arrived := [] })

/-- Ask the server for a byte. `p` is its reply, of which and of what it owed before `n` bytes
arrive in time; `ok` is whether the query could be written. -/
def onRead (p : Reply) (ok : Bool) (n : Nat) : Option Byte × I2cBridge :=
  if ¬b.Live ∨ ok = false then (none, b)
  else
    let r := ({ b with owed := b.owed ++ p.text }.arrive n).readLine
    (r.1.bind lineValue, r.2)

/-- A query is sent and its timeout expires. -/
def timesOut (p : Reply) (ok : Bool) (n : Nat) : Bool :=
  decide (b.Live ∧ ok = true ∧
    newline ∉ ({ b with owed := b.owed ++ p.text }.arrive n).arrived)

end I2cBridge

/-- A bridge and how many of its reads have timed out. -/
structure I2cRun where
  bridge : I2cBridge
  timeouts : Nat

inductive I2cEvent where
  | observe (ok : Bool)
  | arrive (n : Nat)
  | read (p : I2cBridge.Reply) (ok : Bool) (n : Nat)

namespace I2cRun

open I2cBridge

def step (s : I2cRun) : I2cEvent → Option I2cRun
  | .observe ok => some { s with bridge := s.bridge.observe ok }
  | .arrive n => some { s with bridge := s.bridge.arrive n }
  | .read p ok n =>
      some ⟨(s.bridge.onRead p ok n).2, s.timeouts + (s.bridge.timesOut p ok n).toNat⟩

/-- A read returns no data or the reply to its own query. -/
def Answers (s : I2cRun) : I2cEvent → Prop
  | .read p ok n =>
      (s.bridge.onRead p ok n).1 = none ∨ (s.bridge.onRead p ok n).1 = p.value
  | _ => True

/-- No query is sent after a read that timed out. -/
def OnTime (s : I2cRun) : I2cEvent → Prop
  | .read _ ok _ => s.bridge.Live → ok = true → s.timeouts = 0
  | _ => True

/-- Unless a read has timed out, every reply was read. -/
def Settled (s : I2cRun) : Prop := s.timeouts = 0 → s.bridge.arrived = [] ∧ s.bridge.owed = []

end I2cRun

/-! ## A query on a settled stream -/

namespace I2cBridge

variable {b : I2cBridge} {p : Reply} {ok : Bool} {n : Nat}

theorem onRead_dead (h : ¬(b.Live ∧ ok = true)) (p : Reply) (n : Nat) :
    b.onRead p ok n = (none, b) ∧ b.timesOut p ok n = false := by
  constructor
  · refine if_pos ?_
    by_contra hlive
    rw [not_or, not_not, Bool.not_eq_false] at hlive
    exact h hlive
  · exact decide_eq_false fun hout => h ⟨hout.1, hout.2.1⟩

/-- What arrives of a single reply. -/
theorem arrive_text (ha : b.arrived = []) (ho : b.owed = []) (p : Reply) (n : Nat) :
    { b with owed := b.owed ++ p.text }.arrive n =
      { b with arrived := p.text.take n, owed := p.text.drop n } := by
  rw [arrive, ha, ho]
  rfl

/-- The whole reply arrives in time: it is read, and nothing is left. -/
theorem onRead_prompt (ha : b.arrived = []) (ho : b.owed = []) (hlive : b.Live) (hok : ok = true)
    (hn : p.text.length ≤ n) :
    b.onRead p ok n = (p.value, { b with arrived := [], owed := [] }) ∧
      b.timesOut p ok n = false := by
  have hline : Cutter.upTo newline p.text = some (p.line, []) := Cutter.upTo_append p.oneLine []
  constructor
  · rw [onRead, if_neg (by rw [hok]; exact not_or_intro (not_not_intro hlive) nofun),
      arrive_text ha ho, List.take_of_length_le hn, List.drop_of_length_le hn, readLine]
    dsimp only
    rw [hline]
    rfl
  · rw [timesOut, arrive_text ha ho, List.take_of_length_le hn]
    refine decide_eq_false fun hout => hout.2.2 ?_
    exact List.mem_append_right _ List.mem_cons_self

/-- Not all of the reply arrives in time: there is no data. -/
theorem onRead_late (ha : b.arrived = []) (ho : b.owed = []) (hlive : b.Live) (hok : ok = true)
    (hn : n < p.text.length) :
    (b.onRead p ok n).1 = none ∧ b.timesOut p ok n = true := by
  have hlen : p.text.length = p.line.length + 1 := List.length_append
  have htake : newline ∉ p.text.take n := by
    rw [Reply.text, List.take_append_of_le_length (by omega)]
    exact fun h => p.oneLine (List.mem_of_mem_take h)
  constructor
  · rw [onRead, if_neg (by rw [hok]; exact not_or_intro (not_not_intro hlive) nofun),
      arrive_text ha ho, readLine]
    dsimp only
    rw [Cutter.upTo_of_not_mem htake]
    rfl
  · rw [timesOut, arrive_text ha ho]
    exact decide_eq_true ⟨hlive, hok, htake⟩

end I2cBridge

namespace I2cRun

/-- A read before any timeout answers its own query, and leaves the stream settled or has timed
out itself. -/
theorem settled_step {s s' : I2cRun} {e : I2cEvent} (hs : s.Settled) (he : s.OnTime e)
    (h : s.step e = some s') : s'.Settled ∧ s.Answers e := by
  cases e with
  | observe ok =>
      cases h
      refine ⟨fun ht => ?_, trivial⟩
      obtain ⟨ha, ho⟩ := hs ht
      dsimp only
      rw [I2cBridge.observe]
      split <;> exact ⟨ha, ho⟩
  | arrive n =>
      cases h
      refine ⟨fun ht => ?_, trivial⟩
      obtain ⟨ha, ho⟩ := hs ht
      dsimp only
      rw [I2cBridge.arrive, ha, ho]
      exact ⟨List.take_nil, List.drop_nil⟩
  | read p ok n =>
      cases h
      by_cases hlive : s.bridge.Live ∧ ok = true
      · obtain ⟨ha, ho⟩ := hs (he hlive.1 hlive.2)
        rcases Nat.lt_or_ge n p.text.length with hn | hn
        · -- The read times out: from here on nothing is claimed of the stream.
          obtain ⟨hnone, hout⟩ := I2cBridge.onRead_late ha ho hlive.1 hlive.2 hn
          refine ⟨fun ht => absurd ht ?_, .inl hnone⟩
          dsimp only
          rw [hout]
          exact Nat.succ_ne_zero _
        · obtain ⟨hread, -⟩ := I2cBridge.onRead_prompt ha ho hlive.1 hlive.2 hn
          rw [Answers, hread]
          exact ⟨fun _ => ⟨rfl, rfl⟩, .inr rfl⟩
      · obtain ⟨hread, hout⟩ := I2cBridge.onRead_dead hlive p n
        rw [Answers, hread, hout]
        exact ⟨fun ht => hs ht, .inl rfl⟩

/-- As long as no query follows a read that timed out, each read returns no data or the reply to its
own query, whatever else happens on the stream. -/
theorem answers_of_along (mode : I2cBridge.Mode) (w r : Bool) {es : List I2cEvent}
    (h : Along step OnTime es ⟨I2cBridge.wrap mode w r, 0⟩) :
    Along step Answers es ⟨I2cBridge.wrap mode w r, 0⟩ := by
  have hstart : Settled ⟨I2cBridge.wrap mode w r, 0⟩ := fun _ => ⟨rfl, rfl⟩
  refine h.imp (fun s e s' hs he hstep => (settled_step hs he hstep).1) (fun s e hs he => ?_) hstart
  cases e with
  | observe ok => trivial
  | arrive n => trivial
  | read p ok n => exact (settled_step hs he rfl).2

instance (s : I2cRun) (e : I2cEvent) : Decidable (s.OnTime e) :=
  match e with
  | .read _ ok _ => inferInstanceAs (Decidable (s.bridge.Live → ok = true → s.timeouts = 0))
  | .observe _ => isTrue trivial
  | .arrive _ => isTrue trivial

instance (s : I2cRun) (e : I2cEvent) : Decidable (s.Answers e) :=
  match e with
  | .read p ok n => inferInstanceAs (Decidable ((s.bridge.onRead p ok n).1 = none ∨
      (s.bridge.onRead p ok n).1 = p.value))
  | .observe _ => isTrue trivial
  | .arrive _ => isTrue trivial

/-- The replies 0x41 and 0x42. -/
def replyA : I2cBridge.Reply := ⟨[0x30, 0x78, 0x34, 0x31], by decide⟩
def replyB : I2cBridge.Reply := ⟨[0x30, 0x78, 0x34, 0x32], by decide⟩

theorem answers_of_along_two :
    Along step Answers [.read replyA true 5, .observe true, .read replyB true 3]
      ⟨I2cBridge.wrap .device true true, 0⟩ :=
  answers_of_along .device true true (by decide)

/-- The first reply arrives after the timeout; the second read returns it. -/
theorem not_answers :
    ¬∀ es : List I2cEvent, Along step Answers es ⟨I2cBridge.wrap .device true true, 0⟩ := by
  intro h
  have hlate := h [.read replyA true 0, .arrive 5, .read replyB true 5]
  revert hlate
  decide

end I2cRun

end SpEmu
