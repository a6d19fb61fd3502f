import SpEmu.Lib.Bytes
import SpEmu.Lib.FlowQueue
import SpEmu.Lib.Runs
import Mathlib.Logic.Relation

/-!
# The receive queue of the bridge

Frames for the SP wait in one queue, each with the key of its flow: the UDP source port of the
client, or 0 for a control frame of the bridge. A push beyond the cap evicts the oldest frame of
the busiest client flow; a pop serves control frames first. `flowFair` says this of every run:
the cap holds, each flow is delivered in order, and no flow loses a frame to one that holds more.
-/

set_option autoImplicit false

namespace SpEmu

open ByteMem FlowQueue

/-- A flow's key: the client's UDP source port, 0 for control frames. -/
abbrev FlowKey := Half

abbrev Frame := List Byte

/-- The queue and its counters. -/
structure RxQueue where
  rx : List (FlowKey × Frame)
  nEvict : BitVec 64
  nPop : BitVec 64

namespace RxQueue

def new : RxQueue := ⟨[], 0, 0⟩

def rxBacklogCap : Nat := 32

/-- The frames queued of each flow. -/
def countFlows (rx : List (FlowKey × Frame)) : FlowKey → Nat :=
  rx.foldl (fun counts x => Function.update counts x.1 (counts x.1 + 1)) fun _ => 0

/-- The busiest client flow. Between flows of one count the iteration order of the map decides. -/
def victim (order : IterOrder FlowKey) (rx : List (FlowKey × Frame)) : Option FlowKey :=
  maxByKey (countFlows rx) ((order.iter (rx.map Prod.fst).dedup).filter fun f => f ≠ 0)

/-- Remove the oldest frame of the busiest client flow, or the oldest of all where every frame is
a control frame. -/
def evict (order : IterOrder FlowKey) (rx : List (FlowKey × Frame)) : List (FlowKey × Frame) :=
  match (victim order rx).bind fun vf => rx.findIdx? fun x => x.1 = vf with
  | some pos => rx.eraseIdx pos
  | none => rx.tail

variable (q : RxQueue)

/-- Evict while the queue is beyond the cap; `fuel` bounds the rounds. The map of each round has
its own iteration order. -/
def evictLoop (orders : Nat → IterOrder FlowKey) : Nat → RxQueue → RxQueue
  | 0, q => q
  | fuel + 1, q =>
      if rxBacklogCap < q.rx.length then
        evictLoop orders fuel { q with rx := evict (orders fuel) q.rx, nEvict := q.nEvict + 1 }
      else q

def pushRx (orders : Nat → IterOrder FlowKey) (flow : FlowKey) (frame : Frame) : RxQueue :=
  let q := { q with rx := q.rx ++ [(flow, frame)] }
  evictLoop orders q.rx.length q

/-- The oldest control frame, or else the oldest frame. -/
def ethRx : Option (FlowKey × Frame) × RxQueue :=
  match q.rx.findIdx? fun x => x.1 = 0 with
  | some pos => (q.rx[pos]?, { q with rx := q.rx.eraseIdx pos, nPop := q.nPop + 1 })
  | none =>
      (q.rx.head?, { q with rx := q.rx.tail, nPop := if q.rx ≠ [] then q.nPop + 1 else q.nPop })

/-! ## One eviction -/

variable {order : IterOrder FlowKey} {rx : List (FlowKey × Frame)} {f : FlowKey}

theorem countFlows_eq (rx : List (FlowKey × Frame)) (f : FlowKey) :
    countFlows rx f = (flow f rx).length := by
  induction rx using List.reverseRecOn with
  | nil => rfl
  | append_singleton rx x ih =>
      obtain ⟨g, frame⟩ := x
      have hfold : countFlows (rx ++ [(g, frame)]) =
          Function.update (countFlows rx) g (countFlows rx g + 1) := by
        rw [countFlows, List.foldl_append]
        rfl
      rw [hfold, flow_append, List.length_append]
      by_cases hg : g = f
      · subst hg
        rw [Function.update_self, ih, flow_cons_self]
        rfl
      · rw [Function.update_of_ne (Ne.symm hg), ih, flow_cons_of_ne hg]
        rfl

/-- A client flow with as many frames as any client flow has, and at least one. -/
structure Busiest (rx : List (FlowKey × Frame)) (f : FlowKey) : Prop where
  client : f ≠ 0
  queued : flow f rx ≠ []
  most : ∀ g, g ≠ 0 → (flow g rx).length ≤ (flow f rx).length

theorem victim_spec (order : IterOrder FlowKey) (rx : List (FlowKey × Frame)) :
    match victim order rx with
    | none => ∀ x ∈ rx, x.1 = 0
    | some f => Busiest rx f := by
  have hspec := maxByKey_spec (countFlows rx)
    ((order.iter (rx.map Prod.fst).dedup).filter fun f => f ≠ 0)
  -- the candidates are the client flows with a frame in the queue
  have hmem : ∀ g, g ∈ (order.iter (rx.map Prod.fst).dedup).filter (fun f => f ≠ 0) ↔
      (∃ x ∈ rx, x.1 = g) ∧ g ≠ 0 := by
    intro g
    rw [List.mem_filter, (order.perm _).mem_iff, List.mem_dedup, List.mem_map, decide_eq_true_iff]
  rw [victim]
  cases hvictim : maxByKey (countFlows rx)
      ((order.iter (rx.map Prod.fst).dedup).filter fun f => f ≠ 0) with
  | none =>
      rw [hvictim] at hspec
      intro x hx
      by_contra hne
      have hin := (hmem x.1).mpr ⟨⟨x, hx, rfl⟩, hne⟩
      rw [hspec] at hin
      exact absurd hin List.not_mem_nil
  | some f =>
      rw [hvictim] at hspec
      obtain ⟨hf, hmax⟩ := hspec
      obtain ⟨⟨x, hx, hxf⟩, hclient⟩ := (hmem f).mp hf
      refine ⟨hclient, fun hnil => flow_eq_nil.mp hnil x hx hxf, fun g hg => ?_⟩
      -- a flow that is not a candidate has no frame
      by_cases hqueued : ∃ y ∈ rx, y.1 = g
      · have hle := hmax g ((hmem g).mpr ⟨hqueued, hg⟩)
        rw [countFlows_eq, countFlows_eq] at hle
        exact hle
      · have hnil : flow g rx = [] := flow_eq_nil.mpr fun y hy hyg => hqueued ⟨y, hy, hyg⟩
        rw [hnil]
        exact Nat.zero_le _

/-- An eviction takes the oldest frame of a busiest client flow, so that a flow with fewer frames
than another keeps its own; only where every frame is a control frame the oldest of them goes. -/
structure FairEviction (rx rx' : List (FlowKey × Frame)) : Prop where
  busiest : (∃ x ∈ rx, x.1 ≠ 0) → ∃ f, Busiest rx f ∧ rx' = dropFirst f rx
  control_kept : (∃ x ∈ rx, x.1 ≠ 0) → flow 0 rx' = flow 0 rx
  smaller_kept : ∀ f g, f ≠ 0 → g ≠ 0 → (flow f rx).length < (flow g rx).length →
    flow f rx' = flow f rx
  oldest : (∀ x ∈ rx, x.1 = 0) → rx' = rx.tail

theorem evict_of_busiest (hvictim : victim order rx = some f) (hf : Busiest rx f) :
    evict order rx = dropFirst f rx := by
  obtain ⟨x, hx, hxf⟩ : ∃ x ∈ rx, x.1 = f := by
    by_contra hno
    exact hf.queued (flow_eq_nil.mpr fun x hx hxf => hno ⟨x, hx, hxf⟩)
  rw [evict, hvictim, Option.bind_some, dropFirst, List.eraseP_eq_eraseIdx]
  cases hpos : rx.findIdx? fun x => x.1 = f with
  | some pos => rfl
  | none => exact absurd (List.findIdx?_eq_none_iff.mp hpos x hx) (by simpa using hxf)

theorem evict_of_control (hvictim : victim order rx = none) : evict order rx = rx.tail := by
  rw [evict, hvictim]
  rfl

theorem evict_cases (order : IterOrder FlowKey) (rx : List (FlowKey × Frame)) :
    (∃ f, Busiest rx f ∧ evict order rx = dropFirst f rx) ∨
      ((∀ x ∈ rx, x.1 = 0) ∧ evict order rx = rx.tail) := by
  have hspec := victim_spec order rx
  cases hvictim : victim order rx with
  | some f =>
      rw [hvictim] at hspec
      exact Or.inl ⟨f, hspec, evict_of_busiest hvictim hspec⟩
  | none =>
      rw [hvictim] at hspec
      exact Or.inr ⟨hspec, evict_of_control hvictim⟩

theorem evict_fair (order : IterOrder FlowKey) (rx : List (FlowKey × Frame)) :
    FairEviction rx (evict order rx) := by
  rcases evict_cases order rx with ⟨f, hf, hevict⟩ | ⟨hcontrol, hevict⟩
  · have hclient : ¬ ∀ x ∈ rx, x.1 = 0 := fun h =>
      hf.queued (flow_eq_nil.mpr fun x hx hxf => hf.client (hxf.symm.trans (h x hx)))
    rw [hevict]
    refine ⟨fun _ => ⟨f, hf, rfl⟩, fun _ => ?_, fun g k hg hk hlt => ?_, fun h => absurd h hclient⟩
    · exact flow_dropFirst_of_ne (Ne.symm hf.client)
    · refine flow_dropFirst_of_ne fun hgf => ?_
      rw [hgf] at hlt
      exact absurd (hf.most k hk) (Nat.not_le_of_lt hlt)
  · have hno : ¬ ∃ x ∈ rx, x.1 ≠ 0 := fun ⟨x, hx, hne⟩ => hne (hcontrol x hx)
    rw [hevict]
    refine ⟨fun h => absurd h hno, fun h => absurd h hno, fun g k _ hk hlt => ?_, fun _ => rfl⟩
    have hnil : flow k rx = [] :=
      flow_eq_nil.mpr fun x hx hxk => hk (hxk.symm.trans (hcontrol x hx))
    rw [hnil] at hlt
    exact absurd hlt (Nat.not_lt_zero _)

theorem evict_sublist (order : IterOrder FlowKey) (rx : List (FlowKey × Frame)) :
    (evict order rx).Sublist rx := by
  rcases evict_cases order rx with ⟨f, -, hevict⟩ | ⟨-, hevict⟩
  · rw [hevict]
    exact dropFirst_sublist
  · rw [hevict]
    exact List.tail_sublist rx

theorem length_evict (order : IterOrder FlowKey) (hrx : rx ≠ []) :
    (evict order rx).length + 1 = rx.length := by
  rcases evict_cases order rx with ⟨f, hf, hevict⟩ | ⟨-, hevict⟩
  · rw [hevict]
    exact length_dropFirst hf.queued
  · rw [hevict, List.length_tail]
    exact Nat.sub_add_cancel (List.length_pos_of_ne_nil hrx)

/-! ## Push and pop -/

variable {q : RxQueue}

/-- A queue within the cap stays as it is. -/
theorem evictLoop_of_le (orders : Nat → IterOrder FlowKey) (fuel : Nat)
    (hcap : q.rx.length ≤ rxBacklogCap) : evictLoop orders fuel q = q := by
  cases fuel with
  | zero => rfl
  | succ fuel => exact if_neg (Nat.not_lt_of_le hcap)

/-- A push into a queue within the cap evicts at most one frame. -/
theorem pushRx_spec (orders : Nat → IterOrder FlowKey) (flow : FlowKey) (frame : Frame)
    (hcap : q.rx.length ≤ rxBacklogCap) :
    (q.rx.length < rxBacklogCap ∧ q.pushRx orders flow frame =
        { q with rx := q.rx ++ [(flow, frame)] }) ∨
      (q.rx.length = rxBacklogCap ∧ q.pushRx orders flow frame =
        { q with
          rx := evict (orders rxBacklogCap) (q.rx ++ [(flow, frame)])
          nEvict := q.nEvict + 1 }) := by
  have hlen : (q.rx ++ [(flow, frame)]).length = q.rx.length + 1 := List.length_append
  rcases Nat.lt_or_eq_of_le hcap with hlt | heq
  · refine Or.inl ⟨hlt, evictLoop_of_le orders _ ?_⟩
    exact hlen ▸ hlt
  · refine Or.inr ⟨heq, ?_⟩
    rw [heq] at hlen
    simp only [pushRx, hlen]
    rw [evictLoop, if_pos (by rw [hlen]; exact Nat.lt_succ_self _)]
    refine evictLoop_of_le orders _ ?_
    have hevict := length_evict (orders rxBacklogCap)
      (List.append_ne_nil_of_right_ne_nil q.rx (List.cons_ne_nil (flow, frame) []))
    rw [hlen] at hevict
    exact Nat.le_of_eq (Nat.succ.inj hevict)

/-- A pop takes the oldest frame of a flow: control frames go first, and without them the oldest
frame of all goes. -/
theorem ethRx_spec (q : RxQueue) :
    (q.ethRx = (none, q) ∧ q.rx = []) ∨
      ∃ x, q.ethRx.1 = some x ∧ q.ethRx.2.rx = dropFirst x.1 q.rx ∧
        flow x.1 q.rx = x.2 :: flow x.1 (dropFirst x.1 q.rx) ∧
        (x.1 ≠ 0 → flow 0 q.rx = []) := by
  rw [ethRx]
  cases hpos : q.rx.findIdx? fun x => x.1 = 0 with
  -- the first control frame, wherever it stands
  | some pos =>
      obtain ⟨hlt, hzero, hbefore⟩ := List.findIdx?_eq_some_iff_getElem.mp hpos
      have hfind : q.rx.find? (fun x => x.1 = 0) = some q.rx[pos] :=
        List.find?_eq_some_iff_getElem.mpr
          ⟨hzero, pos, hlt, rfl, fun j hj => by simpa using hbefore j hj⟩
      have hdrop : q.rx.eraseIdx pos = dropFirst 0 q.rx := by
        rw [dropFirst, List.eraseP_eq_eraseIdx, hpos]
      obtain ⟨hkey, hflow⟩ := flow_of_find hfind
      refine Or.inr ⟨q.rx[pos], List.getElem?_eq_getElem hlt, ?_, ?_, fun hne => absurd hkey hne⟩
      · rw [hkey]
        exact hdrop
      · rw [hkey]
        exact hflow
  -- no control frame: the front of the queue
  | none =>
      have hclient := List.findIdx?_eq_none_iff.mp hpos
      cases hrx : q.rx with
      | nil =>
          obtain ⟨rx, nEvict, nPop⟩ := q
          obtain rfl : rx = [] := hrx
          exact Or.inl ⟨rfl, rfl⟩
      | cons x rest =>
          have hfront : dropFirst x.1 (x :: rest) = rest := List.eraseP_cons_of_pos (by simp)
          refine Or.inr ⟨x, rfl, hfront.symm, ?_, fun _ => flow_eq_nil.mpr fun y hy hyk => ?_⟩
          · rw [hfront]
            exact flow_cons_self x.2
          · exact absurd (hclient y (hrx ▸ hy)) (by simpa using hyk)

end RxQueue

/-! ## Runs -/

/-- The queue with all that was pushed into it and delivered from it. -/
structure FlowRun where
  queue : RxQueue
  pushed : List (FlowKey × Frame)
  delivered : List (FlowKey × Frame)

/-- A call of `push_rx` or `eth_rx`. -/
inductive QueueCall where
  | push (orders : Nat → IterOrder FlowKey) (flow : FlowKey) (frame : Frame)
  | pop

namespace FlowRun

open RxQueue

def start : FlowRun := ⟨RxQueue.new, [], []⟩

def step (s : FlowRun) : QueueCall → Option FlowRun
  | .push orders flow frame =>
      some { s with
        queue := s.queue.pushRx orders flow frame
        pushed := s.pushed ++ [(flow, frame)] }
  | .pop =>
      let (x, queue) := s.queue.ethRx
      some { s with queue := queue, delivered := s.delivered ++ x.toList }

/-- The fairness of the queue, at one call. -/
structure FlowFair (s : FlowRun) (e : QueueCall) (s' : FlowRun) : Prop where
  capped : s'.queue.rx.length ≤ rxBacklogCap
  ordered : ∀ f, (flow f s'.delivered).Sublist (flow f s'.pushed)
  kept : ∀ orders f frame, e = .push orders f frame → s.queue.rx.length < rxBacklogCap →
    s'.queue = { s.queue with rx := s.queue.rx ++ [(f, frame)] }
  evicted : ∀ orders f frame, e = .push orders f frame → s.queue.rx.length = rxBacklogCap →
    s'.queue.nEvict = s.queue.nEvict + 1 ∧
      FairEviction (s.queue.rx ++ [(f, frame)]) s'.queue.rx
  control_first : e = .pop → ∀ frame rest, flow 0 s.queue.rx = frame :: rest →
    s'.delivered = s.delivered ++ [(0, frame)] ∧ flow 0 s'.queue.rx = rest

/-- What every run keeps. -/
structure Queued (s : FlowRun) : Prop where
  capped : s.queue.rx.length ≤ rxBacklogCap
  lossy : Lossy s.pushed s.delivered s.queue.rx

theorem queued_start : start.Queued := ⟨Nat.zero_le _, lossy_nil⟩

variable {s s' : FlowRun}

theorem push_spec (h : s.Queued) {orders : Nat → IterOrder FlowKey} {f : FlowKey} {frame : Frame}
    (hstep : s.step (.push orders f frame) = some s') :
    s'.Queued ∧ FlowFair s (.push orders f frame) s' := by
  obtain rfl := Option.some.inj hstep
  have hpush := h.lossy.push (f, frame)
  rcases pushRx_spec orders f frame h.capped with ⟨hlt, hq⟩ | ⟨heq, hq⟩
  · -- below the cap the frame is appended
    have hcap : (s.queue.pushRx orders f frame).rx.length ≤ rxBacklogCap := by
      rw [hq, List.length_append]
      exact hlt
    have hlossy : Lossy (s.pushed ++ [(f, frame)]) s.delivered
        (s.queue.pushRx orders f frame).rx := by
      rw [hq]
      exact hpush
    refine ⟨⟨hcap, hlossy⟩, hcap, hlossy.delivered_sublist, ?_, ?_, nofun⟩
    · rintro _ _ _ ⟨rfl, rfl, rfl⟩ -
      exact hq
    · exact fun _ _ _ _ heq => absurd heq (Nat.ne_of_lt hlt)
  · -- at the cap one frame of the longer queue goes
    have hlen : (s.queue.rx ++ [(f, frame)]).length = rxBacklogCap + 1 := by
      rw [List.length_append, heq]
      rfl
    have hevict := length_evict (orders rxBacklogCap)
      (List.append_ne_nil_of_right_ne_nil s.queue.rx (List.cons_ne_nil (f, frame) []))
    have hcap : (s.queue.pushRx orders f frame).rx.length ≤ rxBacklogCap := by
      rw [hq]
      exact Nat.le_of_eq (Nat.succ.inj (hevict.trans hlen))
    have hlossy : Lossy (s.pushed ++ [(f, frame)]) s.delivered
        (s.queue.pushRx orders f frame).rx := by
      rw [hq]
      exact hpush.drop (evict_sublist _ _)
    refine ⟨⟨hcap, hlossy⟩, hcap, hlossy.delivered_sublist, ?_, ?_, nofun⟩
    · exact fun _ _ _ _ hlt => absurd heq (Nat.ne_of_lt hlt)
    · rintro _ _ _ ⟨rfl, rfl, rfl⟩ -
      dsimp only
      rw [hq]
      exact ⟨rfl, evict_fair _ _⟩

theorem step_pop (s : FlowRun) : s.step .pop = some
    { s with
      queue := s.queue.ethRx.2
      delivered := s.delivered ++ s.queue.ethRx.1.toList } := rfl

theorem pop_spec (h : s.Queued) (hstep : s.step .pop = some s') :
    s'.Queued ∧ FlowFair s .pop s' := by
  rw [step_pop] at hstep
  obtain rfl := Option.some.inj hstep
  rcases ethRx_spec s.queue with ⟨hq, hnil⟩ | ⟨x, hx, hrx, hflow, hcontrol⟩
  · rw [hq]
    have hlossy : Lossy s.pushed (s.delivered ++ []) s.queue.rx := by
      rw [List.append_nil]
      exact h.lossy
    refine ⟨⟨h.capped, hlossy⟩, h.capped, hlossy.delivered_sublist, nofun, nofun, ?_⟩
    intro _ frame rest hzero
    rw [hnil] at hzero
    exact nomatch hzero
  · have hcap : s.queue.ethRx.2.rx.length ≤ rxBacklogCap := by
      rw [hrx]
      exact Nat.le_trans dropFirst_sublist.length_le h.capped
    have hlossy : Lossy s.pushed (s.delivered ++ s.queue.ethRx.1.toList) s.queue.ethRx.2.rx := by
      rw [hx, hrx]
      exact h.lossy.deliver hflow
    refine ⟨⟨hcap, hlossy⟩, hcap, hlossy.delivered_sublist, nofun, nofun, ?_⟩
    intro _ frame rest hzero
    -- with a control frame queued, the popped frame is the first of them
    by_cases hkey : x.1 = 0
    · obtain ⟨k, b⟩ := x
      obtain rfl : k = 0 := hkey
      dsimp only at hflow hrx hx ⊢
      obtain ⟨rfl, hrest⟩ := List.cons.inj (hzero.symm.trans hflow)
      rw [hx, hrx]
      exact ⟨rfl, hrest.symm⟩
    · rw [hcontrol hkey] at hzero
      exact nomatch hzero

theorem flowFair_step {e : QueueCall} (h : s.Queued) (hstep : s.step e = some s') :
    s'.Queued ∧ FlowFair s e s' := by
  cases e with
  | push orders f frame => exact push_spec h hstep
  | pop => exact pop_spec h hstep

/-- In every run of pushes and pops, whatever the iteration orders of the maps. -/
theorem flowFair (es : List QueueCall) :
    Runs.Along step (fun s e => ∀ s' ∈ s.step e, FlowFair s e s') es start := by
  refine Runs.Along.imp (I := Queued) (P := fun _ _ => True) ?_ ?_ queued_start
    (Runs.along_of_forall (fun _ _ => trivial) es start)
  · exact fun s e s' h _ hstep => (flowFair_step h hstep).1
  · exact fun s e h _ s' hs' => (flowFair_step h hs').2

/-- One control frame more than the queue holds. -/
def controlFlood : List QueueCall :=
  List.replicate (rxBacklogCap + 1) (.push (fun _ => IterOrder.asIs FlowKey) 0 [])

/-- An eviction takes a client's frame only where there is one. -/
theorem exists_client_of_busiest {rx : List (FlowKey × Frame)} {g : FlowKey} (h : Busiest rx g) :
    ∃ x ∈ rx, x.1 ≠ 0 := by
  by_contra hno
  refine h.queued (flow_eq_nil.mpr fun x hx hxg => hno ⟨x, hx, ?_⟩)
  exact fun hzero => h.client (hxg.symm.trans hzero)

/-- The event evicts from a queue with a client's frame in it. -/
def ClientQueued (s : FlowRun) : QueueCall → Prop
  | .push _ f frame =>
      s.queue.rx.length = rxBacklogCap → ∃ x ∈ s.queue.rx ++ [(f, frame)], x.1 ≠ 0
  | .pop => True

instance (s : FlowRun) : (e : QueueCall) → Decidable (ClientQueued s e)
  | .push _ f frame =>
      inferInstanceAs (Decidable (_ → ∃ x ∈ s.queue.rx ++ [(f, frame)], x.1 ≠ 0))
  | .pop => isTrue trivial

/-- A full queue of control frames evicts its oldest one, which is of no client flow. -/
theorem controlFlood_evicts_control :
    ¬ Runs.Along step (fun s e => ∀ orders f frame, e = .push orders f frame →
        s.queue.rx.length = rxBacklogCap → ∀ s' ∈ s.step e,
          ∃ g, Busiest (s.queue.rx ++ [(f, frame)]) g ∧
            s'.queue.rx = dropFirst g (s.queue.rx ++ [(f, frame)])) controlFlood start := by
  intro h
  have hclient := h.mono (Q := ClientQueued) fun s e he => by
    cases e with
    | push orders f frame =>
        intro hfull
        obtain ⟨g, hbusy, -⟩ := he orders f frame rfl hfull _ rfl
        exact exists_client_of_busiest hbusy
    | pop => trivial
  exact absurd hclient (by decide +kernel)

end FlowRun

end SpEmu
