import BenchLx.Common.Components
import BenchLx.Pingpong.RoundTrips

/-!
# Several pairs on one queue

Reference: `rootfs/bench/pingpong.sh` and `main` of `apps/pingpong/pingpong.c`. The script starts up
to three pairs at once. All of them get their queue with the same key, so there is one queue, and
whoever asks first receives a message, whichever pair it comes from.

A round of a parent puts a message into circulation: it is queued as a request, held by some child,
queued as a reply, and taken out by some parent. `Circulates` says that none is lost or doubled on
the way; everything else follows from counting.
-/

namespace BenchLx.Pingpong

/-! ## The calls on the queue -/

/-- What `msgrcv` returns: the first message of the type, which is no longer queued. -/
theorem msgrcv_eq_some {type : ℕ} {queue rest : List Message} {m : Message}
    (h : msgrcv type queue = some (m, rest)) :
    ∃ before after, queue = before ++ m :: after ∧ rest = before ++ after ∧ m.type = type := by
  induction queue generalizing rest with
  | nil => cases h
  | cons m' queue ih =>
    rw [msgrcv] at h
    by_cases htype : m'.type = type
    · rw [if_pos htype] at h
      cases h
      exact ⟨[], queue, rfl, rfl, htype⟩
    · rw [if_neg htype, Option.map_eq_some_iff] at h
      obtain ⟨⟨m₀, rest₀⟩, hrcv, hpair⟩ := h
      cases hpair
      obtain ⟨before, after, rfl, rfl, hm⟩ := ih hrcv
      exact ⟨m' :: before, after, rfl, rfl, hm⟩

/-- `msgrcv` blocks only when no message of the type is queued. -/
theorem msgrcv_eq_none {type : ℕ} {queue : List Message} (h : msgrcv type queue = none) :
    ∀ m ∈ queue, m.type ≠ type := by
  induction queue with
  | nil => simp
  | cons m' queue ih =>
    rw [msgrcv] at h
    by_cases htype : m'.type = type
    · rw [if_pos htype] at h
      cases h
    · rw [if_neg htype, Option.map_eq_none_iff] at h
      exact List.forall_mem_cons.mpr ⟨htype, ih h⟩

/-- How many messages of a type are queued. -/
def queued (type : ℕ) (queue : List Message) : ℕ :=
  queue.countP fun m => m.type = type

theorem queued_eq_zero {type : ℕ} {queue : List Message} (h : msgrcv type queue = none) :
    queued type queue = 0 :=
  List.countP_eq_zero.mpr fun m hm => by simpa using msgrcv_eq_none h m hm

theorem queued_send (type msgsize no type' : ℕ) (queue : List Message) :
    queued type' (queue ++ [⟨type, msgsize, no⟩])
      = queued type' queue + if type = type' then 1 else 0 := by
  simp [queued, List.countP_append, List.countP_cons]

theorem queued_msgrcv {type type' : ℕ} {queue rest : List Message} {m : Message}
    (h : msgrcv type queue = some (m, rest)) :
    queued type' queue = queued type' rest + if type = type' then 1 else 0 := by
  obtain ⟨before, after, rfl, rfl, rfl⟩ := msgrcv_eq_some h
  simp only [queued, List.countP_append, List.countP_cons, decide_eq_true_eq]
  omega

/-- The messages that the benchmark sends. -/
def Wellformed (msgsize : ℕ) (m : Message) : Prop :=
  m.size = msgsize ∧ (m.type = serverMessage ∨ m.type = clientMessage)

theorem length_eq_queued {msgsize : ℕ} {queue : List Message}
    (h : ∀ m ∈ queue, Wellformed msgsize m) :
    queue.length = queued serverMessage queue + queued clientMessage queue := by
  induction queue with
  | nil => rfl
  | cons m queue ih =>
    obtain ⟨hm, hqueue⟩ := List.forall_mem_cons.mp h
    rw [List.length_cons, ih hqueue]
    simp only [queued, List.countP_cons]
    rcases hm.2 with htype | htype
    · simp [htype, serverMessage, clientMessage]
      omega
    · simp [htype, serverMessage, clientMessage, Nat.add_assoc]

/-! ## One pair -/

/-- The number of rounds of a pair. -/
def rounds (runs : ℕ) : ℕ := runs * (warmup + count)

/-- Where the parent stands, and what it has sent and received so far. -/
inductive ParentAt (runs : ℕ) (s : State) : Prop
  | ready {n : ℕ} {pos : Option (ℕ × ℕ)} (hpos : AtRound runs n pos)
      (hpc : s.parent = Pc.enter .send pos) (hsent : s.parentSends = n)
      (hreceived : s.parentReceived.length = n)
  | waiting {n x i : ℕ} (hpos : AtRound runs n (some (x, i))) (hpc : s.parent = .receive x i)
      (hsent : s.parentSends = n + 1) (hreceived : s.parentReceived.length = n)

/-- Where the child stands, and what it has received and sent so far. -/
inductive ChildAt (runs : ℕ) (s : State) : Prop
  | ready {n : ℕ} {pos : Option (ℕ × ℕ)} (hpos : AtRound runs n pos)
      (hpc : s.child = Pc.enter .receive pos) (hreceived : s.childReceived.length = n)
      (hsent : s.childSends = n)
  | holding {n x i : ℕ} (hpos : AtRound runs n (some (x, i))) (hpc : s.child = .send x i)
      (hreceived : s.childReceived.length = n + 1) (hsent : s.childSends = n)

theorem AtRound.lt_rounds {runs n x i : ℕ} (h : AtRound runs n (some (x, i))) :
    n < rounds runs := by
  obtain ⟨hx, hi, rfl⟩ := h
  calc x * (warmup + count) + i < x * (warmup + count) + (warmup + count) :=
        Nat.add_lt_add_left hi _
    _ = (x + 1) * (warmup + count) := (Nat.succ_mul _ _).symm
    _ ≤ runs * (warmup + count) := Nat.mul_le_mul_right _ hx

theorem AtRound.le_rounds {runs n : ℕ} {pos : Option (ℕ × ℕ)} (h : AtRound runs n pos) :
    n ≤ rounds runs := by
  cases pos with
  | none => exact Nat.le_of_eq h
  | some pos => exact (AtRound.lt_rounds h).le

theorem atRound_start (runs : ℕ) : AtRound runs 0 (enterRun runs 0) := by
  have hstart := @atRound_enterRun runs 0 (Nat.zero_le runs)
  rwa [Nat.zero_mul] at hstart

/-- A parent waits, a child holds a message. -/
def Pc.isReceive : Pc → Bool
  | .receive _ _ => true
  | _ => false

def Pc.isSend : Pc → Bool
  | .send _ _ => true
  | _ => false

theorem Pc.isReceive_of_blocked {pc : Pc} (hsend : pc.isSend = false) (hfinished : pc ≠ .finished)
    (hfailed : pc ≠ .failed) : pc.isReceive = true := by
  cases pc with
  | send => cases hsend
  | receive => rfl
  | finished => exact absurd rfl hfinished
  | failed => exact absurd rfl hfailed

section Pair

variable {runs : ℕ} {s : State}

/-- The counters of a parent. -/
theorem ParentAt.counters (h : ParentAt runs s) :
    s.parentReceived.length ≤ rounds runs ∧ s.parentSends ≤ rounds runs ∧
      s.parentSends = s.parentReceived.length + (if s.parent.isReceive then 1 else 0) ∧
      s.parent ≠ .failed := by
  cases h with
  | @ready n pos hpos hpc hsent hreceived =>
    have hle := hpos.le_rounds
    rw [hpc, hsent, hreceived]
    cases pos <;> simp [Pc.enter, Pc.isReceive, hle]
  | waiting hpos hpc hsent hreceived =>
    have hlt := hpos.lt_rounds
    rw [hpc, hsent, hreceived]
    exact ⟨hlt.le, hlt, rfl, by simp⟩

theorem ParentAt.finished_iff (h : ParentAt runs s) :
    s.parent = .finished ↔ s.parentReceived.length = rounds runs := by
  cases h with
  | @ready n pos hpos hpc hsent hreceived =>
    rw [hpc, hreceived]
    cases pos with
    | none => exact ⟨fun _ => hpos, fun _ => rfl⟩
    | some pos => simp [Pc.enter, (AtRound.lt_rounds hpos).ne]
  | waiting hpos hpc hsent hreceived =>
    rw [hpc, hreceived]
    simp [hpos.lt_rounds.ne]

/-- The counters of a child. -/
theorem ChildAt.counters (h : ChildAt runs s) :
    s.childReceived.length ≤ rounds runs ∧ s.childSends ≤ rounds runs ∧
      s.childReceived.length = s.childSends + (if s.child.isSend then 1 else 0) ∧
      s.child ≠ .failed := by
  cases h with
  | @ready n pos hpos hpc hreceived hsent =>
    have hle := hpos.le_rounds
    rw [hpc, hsent, hreceived]
    cases pos <;> simp [Pc.enter, Pc.isSend, hle]
  | holding hpos hpc hreceived hsent =>
    have hlt := hpos.lt_rounds
    rw [hpc, hsent, hreceived]
    exact ⟨hlt, hlt.le, rfl, by simp⟩

theorem ChildAt.finished_iff (h : ChildAt runs s) :
    s.child = .finished ↔ s.childSends = rounds runs := by
  cases h with
  | @ready n pos hpos hpc hreceived hsent =>
    rw [hpc, hsent]
    cases pos with
    | none => exact ⟨fun _ => hpos, fun _ => rfl⟩
    | some pos => simp [Pc.enter, (AtRound.lt_rounds hpos).ne]
  | holding hpos hpc hreceived hsent =>
    rw [hpc, hsent]
    simp [hpos.lt_rounds.ne]

end Pair

/-! ## What a step can do -/

/-- The steps of a pair whose own state is `a` on the queue `queue`. -/
def SharedStep (hasRoom : Capacity) (runs msgsize : ℕ) (a : State) (queue : List Message)
    (b : State) (queue' : List Message) : Prop :=
  Step hasRoom runs msgsize { a with queue } b ∧ queue' = b.queue

/-- A step of a pair that does not fail: a send of the parent, a receive of the child, a send of the
child or a receive of the parent. -/
inductive Passes (hasRoom : Capacity) (runs msgsize : ℕ) (a : State) (queue : List Message) :
    State → List Message → Prop
  | ask {x i : ℕ} (hpc : a.parent = .send x i) (hroom : hasRoom queue msgsize = true) :
      Passes hasRoom runs msgsize a queue
        { a with
          parent := .receive x i
          queue := queue ++ [⟨serverMessage, msgsize, a.parentSends⟩]
          parentSends := a.parentSends + 1 }
        (queue ++ [⟨serverMessage, msgsize, a.parentSends⟩])
  | take {x i : ℕ} {m : Message} {rest : List Message} (hpc : a.child = .receive x i)
      (hrcv : msgrcv serverMessage queue = some (m, rest)) :
      Passes hasRoom runs msgsize a queue
        { a with
          child := .send x i
          queue := rest
          held := m.no
          childReceived := a.childReceived ++ [m.no] }
        rest
  | answer {x i : ℕ} (hpc : a.child = .send x i) (hroom : hasRoom queue msgsize = true) :
      Passes hasRoom runs msgsize a queue
        { a with
          child := Pc.enter .receive (nextRound runs x i)
          queue := queue ++ [⟨clientMessage, msgsize, a.held⟩]
          childSends := a.childSends + 1 }
        (queue ++ [⟨clientMessage, msgsize, a.held⟩])
  | finish {x i : ℕ} {m : Message} {rest : List Message} (hpc : a.parent = .receive x i)
      (hrcv : msgrcv clientMessage queue = some (m, rest)) :
      Passes hasRoom runs msgsize a queue
        { a with
          parent := Pc.enter .send (nextRound runs x i)
          queue := rest
          parentReceived := a.parentReceived ++ [m.no] }
        rest

section Steps

variable {hasRoom : Capacity} {runs msgsize : ℕ} {a b : State} {queue queue' : List Message}

/-- On a queue of the benchmark's own messages, and with room for the parent's send, a step does not
fail. -/
theorem passes_of_sharedStep (hqueue : ∀ m ∈ queue, Wellformed msgsize m)
    (hroom : a.parent.isSend = true → hasRoom queue msgsize = true)
    (h : SharedStep hasRoom runs msgsize a queue b queue') :
    Passes hasRoom runs msgsize a queue b queue' := by
  have hsize : ∀ {type m rest}, msgrcv type queue = some (m, rest) →
      ¬ (m.size : ℤ) < toSsize msgsize := by
    intro type m rest hrcv
    obtain ⟨before, after, hsplit, -⟩ := msgrcv_eq_some hrcv
    rw [(hqueue m (by rw [hsplit]; simp)).1]
    exact not_lt_toSsize msgsize
  obtain ⟨hparent | hchild, rfl⟩ := h
  · simp only [parentStep] at hparent
    cases hpc : a.parent with
    | send x i =>
      simp only [hpc, hroom (by rw [hpc]; rfl), if_true, Option.some.injEq] at hparent
      subst hparent
      exact .ask hpc (hroom (by rw [hpc]; rfl))
    | receive x i =>
      cases hrcv : msgrcv clientMessage queue with
      | none => simp [hpc, hrcv] at hparent
      | some out =>
        simp only [hpc, hrcv, hsize hrcv, if_false, Option.some.injEq] at hparent
        subst hparent
        exact .finish hpc hrcv
    | finished => simp [hpc] at hparent
    | failed => simp [hpc] at hparent
  · simp only [childStep] at hchild
    cases hpc : a.child with
    | receive x i =>
      cases hrcv : msgrcv serverMessage queue with
      | none => simp [hpc, hrcv] at hchild
      | some out =>
        simp only [hpc, hrcv, hsize hrcv, if_false, Option.some.injEq] at hchild
        subst hchild
        exact .take hpc hrcv
    | send x i =>
      by_cases hroom' : hasRoom queue msgsize = true
      · simp only [hpc, hroom', if_true, Option.some.injEq] at hchild
        subst hchild
        exact .answer hpc hroom'
      · simp [hpc, hroom'] at hchild
    | finished => simp [hpc] at hchild
    | failed => simp [hpc] at hchild

/-- A parent only waits for a reply. -/
theorem parent_of_blocked
    (h : parentStep hasRoom runs msgsize { a with queue } = none) :
    a.parent.isSend = false ∧
      (a.parent.isReceive = true → msgrcv clientMessage queue = none) := by
  simp only [parentStep] at h
  cases hpc : a.parent with
  | send =>
    rw [hpc] at h
    simp only at h
    split at h <;> cases h
  | receive =>
    cases hrcv : msgrcv clientMessage queue with
    | none => exact ⟨rfl, fun _ => rfl⟩
    | some out =>
      simp only [hpc, hrcv] at h
      split at h <;> cases h
  | finished | failed => exact ⟨rfl, fun h => by cases h⟩

/-- A child only waits for a request and for room. -/
theorem child_of_blocked (h : childStep hasRoom runs msgsize { a with queue } = none)
    (hroom : a.child.isSend = true → hasRoom queue msgsize = true) :
    a.child.isSend = false ∧
      (a.child.isReceive = true → msgrcv serverMessage queue = none) := by
  simp only [childStep] at h
  cases hpc : a.child with
  | send =>
    simp only [hpc, hroom (by rw [hpc]; rfl), if_true] at h
    cases h
  | receive =>
    cases hrcv : msgrcv serverMessage queue with
    | none => exact ⟨rfl, fun _ => rfl⟩
    | some out =>
      simp only [hpc, hrcv] at h
      split at h <;> cases h
  | finished | failed => exact ⟨rfl, fun h => by cases h⟩

/-- What a call does to the counters of its pair and to the queue: it is counted once, and the
difference of requests sent and received is what is queued, and so for replies. -/
theorem Passes.counters (h : Passes hasRoom runs msgsize a queue b queue') :
    b.parentSends + queued serverMessage queue + a.childReceived.length
        = a.parentSends + queued serverMessage queue' + b.childReceived.length ∧
      b.childSends + queued clientMessage queue + a.parentReceived.length
        = a.childSends + queued clientMessage queue' + b.parentReceived.length ∧
      b.parentSends + b.childReceived.length + b.childSends + b.parentReceived.length
        = a.parentSends + a.childReceived.length + a.childSends + a.parentReceived.length + 1 := by
  cases h with
  | ask => simp [queued_send, serverMessage, clientMessage]; omega
  | answer => simp [queued_send, serverMessage, clientMessage]; omega
  | take _ hrcv =>
    simp [queued_msgrcv hrcv, serverMessage, clientMessage]
    omega
  | finish _ hrcv =>
    simp [queued_msgrcv hrcv, serverMessage, clientMessage]
    omega

/-- Only well-formed messages are sent. -/
theorem Passes.wellformed (h : Passes hasRoom runs msgsize a queue b queue')
    (hqueue : ∀ m ∈ queue, Wellformed msgsize m) : ∀ m ∈ queue', Wellformed msgsize m := by
  have hrcv' : ∀ {type m rest}, msgrcv type queue = some (m, rest) →
      ∀ m' ∈ rest, Wellformed msgsize m' := by
    intro type m rest hrcv m' hm'
    obtain ⟨before, after, rfl, rfl, -⟩ := msgrcv_eq_some hrcv
    rcases List.mem_append.mp hm' with hm' | hm'
    · exact hqueue m' (List.mem_append_left _ hm')
    · exact hqueue m' (List.mem_append_right _ (List.mem_cons_of_mem _ hm'))
  cases h with
  | ask => exact List.forall_mem_append.mpr ⟨hqueue, by simp [Wellformed]⟩
  | take _ hrcv => exact hrcv' hrcv
  | answer => exact List.forall_mem_append.mpr ⟨hqueue, by simp [Wellformed]⟩
  | finish _ hrcv => exact hrcv' hrcv

/-- The loop of the parent stays in step with its counters. -/
theorem Passes.parentAt (h : Passes hasRoom runs msgsize a queue b queue')
    (ha : ParentAt runs a) : ParentAt runs b := by
  cases ha with
  | @ready n pos hpos hpc hsent hreceived =>
    cases h with
    | ask hsend =>
      cases pos with
      | none => rw [hpc] at hsend; cases hsend
      | some pos =>
        rw [hpc] at hsend
        cases hsend
        exact .waiting hpos rfl (congrArg (· + 1) hsent) hreceived
    | take => exact .ready hpos hpc hsent hreceived
    | answer => exact .ready hpos hpc hsent hreceived
    | finish hreceive =>
      rw [hpc] at hreceive
      cases pos <;> cases hreceive
  | waiting hpos hpc hsent hreceived =>
    cases h with
    | ask hsend =>
      rw [hpc] at hsend
      cases hsend
    | take => exact .waiting hpos hpc hsent hreceived
    | answer => exact .waiting hpos hpc hsent hreceived
    | finish hreceive =>
      rw [hpc] at hreceive
      cases hreceive
      exact .ready hpos.next rfl hsent (by simp [hreceived])

/-- The loop of the child stays in step with its counters. -/
theorem Passes.childAt (h : Passes hasRoom runs msgsize a queue b queue')
    (ha : ChildAt runs a) : ChildAt runs b := by
  cases ha with
  | @ready n pos hpos hpc hreceived hsent =>
    cases h with
    | ask => exact .ready hpos hpc hreceived hsent
    | take hreceive =>
      cases pos with
      | none => rw [hpc] at hreceive; cases hreceive
      | some pos =>
        rw [hpc] at hreceive
        cases hreceive
        exact .holding hpos rfl (by simp [hreceived]) hsent
    | answer hsend =>
      rw [hpc] at hsend
      cases pos <;> cases hsend
    | finish => exact .ready hpos hpc hreceived hsent
  | holding hpos hpc hreceived hsent =>
    cases h with
    | ask => exact .holding hpos hpc hreceived hsent
    | take hreceive =>
      rw [hpc] at hreceive
      cases hreceive
    | answer hsend =>
      rw [hpc] at hsend
      cases hsend
      exact .ready hpos.next rfl hreceived (congrArg (· + 1) hsent)
    | finish => exact .holding hpos hpc hreceived hsent

end Steps

/-! ## All pairs -/

section Pairs

variable {ι : Type*} [Fintype ι]

/-- The pairs after their forks, on an empty queue. -/
def Shared.init (runs : ι → ℕ) : Components ι State (List Message) :=
  { part := fun j => .init (runs j), resource := [] }

/-- The states that any interleaving of the pairs leads to in `n` calls. -/
abbrev Shared.After [DecidableEq ι] (hasRoom : Capacity) (runs : ι → ℕ) (msgsize : ℕ) (n : ℕ)
    (s : Components ι State (List Message)) : Prop :=
  Components.After (fun j => SharedStep hasRoom (runs j) msgsize) (Shared.init runs) n s

/-- No message is lost or doubled: a request that has been sent is queued or has been received, and
so is a reply. -/
structure Circulates (runs : ι → ℕ) (msgsize n : ℕ) (s : Components ι State (List Message)) :
    Prop where
  parents : ∀ j, ParentAt (runs j) (s.part j)
  children : ∀ j, ChildAt (runs j) (s.part j)
  wellformed : ∀ m ∈ s.resource, Wellformed msgsize m
  requests : s.total State.parentSends
    = queued serverMessage s.resource + s.total fun a => a.childReceived.length
  replies : s.total State.childSends
    = queued clientMessage s.resource + s.total fun a => a.parentReceived.length
  calls : n = s.total State.parentSends + (s.total fun a => a.childReceived.length)
    + s.total State.childSends + s.total fun a => a.parentReceived.length

namespace Circulates

variable {runs : ι → ℕ} {msgsize n : ℕ} {s : Components ι State (List Message)}

theorem start (runs : ι → ℕ) (msgsize : ℕ) :
    Circulates runs msgsize 0 (Shared.init runs) where
  parents j := .ready (atRound_start (runs j)) rfl rfl rfl
  children j := .ready (atRound_start (runs j)) rfl rfl rfl
  wellformed m hm := by cases hm
  requests := by simp [Components.total, Shared.init, State.init, queued]
  replies := by simp [Components.total, Shared.init, State.init, queued]
  calls := by simp [Components.total, Shared.init, State.init]

/-- A call that passes keeps messages in circulation. -/
theorem passes [DecidableEq ι] {hasRoom : Capacity} (hs : Circulates runs msgsize n s) {j : ι}
    {b : State} {queue' : List Message}
    (h : Passes hasRoom (runs j) msgsize (s.part j) s.resource b queue') :
    Circulates runs msgsize (n + 1) (s.put j b queue') := by
  have hsent := s.total_put State.parentSends j b queue'
  have htaken := s.total_put (fun a => a.childReceived.length) j b queue'
  have hanswered := s.total_put State.childSends j b queue'
  have hreceived := s.total_put (fun a => a.parentReceived.length) j b queue'
  obtain ⟨hrequests, hreplies, hcalls⟩ := h.counters
  refine ⟨Components.forall_part_put hs.parents (h.parentAt (hs.parents j)) _,
    Components.forall_part_put hs.children (h.childAt (hs.children j)) _,
    h.wellformed hs.wellformed, ?_, ?_, ?_⟩
  · have hrequests' := hs.requests
    rw [Components.resource_put]
    omega
  · have hreplies' := hs.replies
    rw [Components.resource_put]
    omega
  · have hcalls' := hs.calls
    omega

/-! ### Counting -/

/-- How many parents wait for an answer, and how many children hold a message. -/
def waiting (s : Components ι State (List Message)) : ℕ :=
  s.total fun a => if a.parent.isReceive then 1 else 0

def holding (s : Components ι State (List Message)) : ℕ :=
  s.total fun a => if a.child.isSend then 1 else 0

theorem sent_eq (hs : Circulates runs msgsize n s) :
    s.total State.parentSends = (s.total fun a => a.parentReceived.length) + waiting s := by
  rw [waiting, ← Components.total_add]
  exact Finset.sum_congr rfl fun j _ => (hs.parents j).counters.2.2.1

theorem taken_eq (hs : Circulates runs msgsize n s) :
    (s.total fun a => a.childReceived.length) = s.total State.childSends + holding s := by
  rw [holding, ← Components.total_add]
  exact Finset.sum_congr rfl fun j _ => (hs.children j).counters.2.2.1

/-- Every message in circulation is one that a parent waits for. -/
theorem length_add_holding (hs : Circulates runs msgsize n s) :
    s.resource.length + holding s = waiting s := by
  have hlen := length_eq_queued hs.wellformed
  have hsent := hs.sent_eq
  have htaken := hs.taken_eq
  have hrequests := hs.requests
  have hreplies := hs.replies
  omega

theorem exists_of_waiting_pos (h : 0 < waiting s) : ∃ j, (s.part j).parent.isReceive = true := by
  obtain ⟨j, -, hj⟩ := Finset.exists_ne_zero_of_sum_ne_zero h.ne'
  exact ⟨j, by simpa using hj⟩

theorem waiting_pos {j : ι} (hj : (s.part j).parent.isReceive = true) : 0 < waiting s :=
  Finset.sum_pos' (fun _ _ => Nat.zero_le _) ⟨j, Finset.mem_univ j, by simp [hj]⟩

theorem holding_pos {j : ι} (hj : (s.part j).child.isSend = true) : 0 < holding s :=
  Finset.sum_pos' (fun _ _ => Nat.zero_le _) ⟨j, Finset.mem_univ j, by simp [hj]⟩

theorem waiting_le (s : Components ι State (List Message)) : waiting s ≤ Fintype.card ι := by
  rw [waiting, Components.total, ← Finset.card_univ, Finset.card_eq_sum_ones]
  exact Finset.sum_le_sum fun j _ => by split <;> omega

/-- A process in front of a send is not one of those whose messages are queued. -/
theorem length_lt_of_isSend (hs : Circulates runs msgsize n s) {j : ι}
    (hj : (s.part j).parent.isSend = true ∨ (s.part j).child.isSend = true) :
    s.resource.length < Fintype.card ι := by
  have hlen := hs.length_add_holding
  have hle := waiting_le s
  rcases hj with hj | hj
  · have hno : (s.part j).parent.isReceive = false := by
      cases hpc : (s.part j).parent with
      | send => rfl
      | receive | finished | failed => rw [hpc] at hj; cases hj
    have hlt : waiting s < Fintype.card ι := by
      rw [waiting, Components.total, ← Finset.card_univ, Finset.card_eq_sum_ones]
      exact Finset.sum_lt_sum (fun k _ => by split <;> omega)
        ⟨j, Finset.mem_univ j, by rw [hno]; decide⟩
    omega
  · have hpos := holding_pos hj
    omega

/-! ### Progress -/

/-- The number of calls that all pairs make together. -/
def allCalls (runs : ι → ℕ) : ℕ := 4 * ∑ j, rounds (runs j)

theorem totals_le (hs : Circulates runs msgsize n s) :
    s.total State.parentSends ≤ ∑ j, rounds (runs j) ∧
      (s.total fun a => a.childReceived.length) ≤ ∑ j, rounds (runs j) ∧
      s.total State.childSends ≤ ∑ j, rounds (runs j) ∧
      (s.total fun a => a.parentReceived.length) ≤ ∑ j, rounds (runs j) :=
  ⟨Finset.sum_le_sum fun j _ => (hs.parents j).counters.2.1,
    Finset.sum_le_sum fun j _ => (hs.children j).counters.1,
    Finset.sum_le_sum fun j _ => (hs.children j).counters.2.1,
    Finset.sum_le_sum fun j _ => (hs.parents j).counters.1⟩

theorem le_allCalls (hs : Circulates runs msgsize n s) : n ≤ allCalls runs := by
  have hle := hs.totals_le
  have hcalls := hs.calls
  rw [allCalls]
  omega

/-- After all calls every process has finished, and the queue is empty. -/
theorem finished_of_eq (hs : Circulates runs msgsize n s) (hn : n = allCalls runs) :
    (∀ j, (s.part j).parent = .finished ∧ (s.part j).child = .finished) ∧ s.resource = [] := by
  obtain ⟨h₁, h₂, h₃, h₄⟩ := hs.totals_le
  have hcalls := hs.calls
  rw [allCalls] at hn
  have hreceived : (s.total fun a => a.parentReceived.length) = ∑ j, rounds (runs j) := by omega
  have hanswered : s.total State.childSends = ∑ j, rounds (runs j) := by omega
  refine ⟨fun j => ⟨?_, ?_⟩, ?_⟩
  · refine (hs.parents j).finished_iff.mpr ?_
    exact (Finset.sum_eq_sum_iff_of_le fun k _ => (hs.parents k).counters.1).mp hreceived j
      (Finset.mem_univ j)
  · refine (hs.children j).finished_iff.mpr ?_
    exact (Finset.sum_eq_sum_iff_of_le fun k _ => (hs.children k).counters.2.1).mp hanswered j
      (Finset.mem_univ j)
  · have hlen := length_eq_queued hs.wellformed
    have hrequests := hs.requests
    have hreplies := hs.replies
    exact List.eq_nil_of_length_eq_zero (by omega)

/-- As long as calls are left, some process can make one. -/
theorem exists_step [DecidableEq ι] {hasRoom : Capacity} (hs : Circulates runs msgsize n s)
    (hroom : ∀ j, (s.part j).child.isSend = true → hasRoom s.resource msgsize = true)
    (hn : n < allCalls runs) :
    ∃ s', Components.Step (fun j => SharedStep hasRoom (runs j) msgsize) s s' := by
  by_contra hstuck
  have hparent : ∀ j, (s.part j).parent.isSend = false ∧
      ((s.part j).parent.isReceive = true → msgrcv clientMessage s.resource = none) := by
    intro j
    refine @parent_of_blocked hasRoom (runs j) msgsize _ _ ?_
    rw [Option.eq_none_iff_forall_ne_some]
    exact fun b hb => hstuck ⟨_, j, b, b.queue, ⟨.inl hb, rfl⟩, rfl⟩
  have hchild : ∀ j, (s.part j).child.isSend = false ∧
      ((s.part j).child.isReceive = true → msgrcv serverMessage s.resource = none) := by
    intro j
    refine @child_of_blocked hasRoom (runs j) msgsize _ _ ?_ (hroom j)
    rw [Option.eq_none_iff_forall_ne_some]
    exact fun b hb => hstuck ⟨_, j, b, b.queue, ⟨.inr hb, rfl⟩, rfl⟩
  have hholding : holding s = 0 :=
    Finset.sum_eq_zero fun j _ => by simp [(hchild j).1]
  obtain ⟨hsent_le, htaken_le, -, hreceived_le⟩ := hs.totals_le
  have hlen := length_eq_queued hs.wellformed
  have hcirculating := hs.length_add_holding
  have hsent := hs.sent_eq
  have htaken := hs.taken_eq
  have hrequests := hs.requests
  have hreplies := hs.replies
  have hcalls := hs.calls
  -- a reply would be taken by any parent that waits
  have hclient : queued clientMessage s.resource = 0 := by
    by_contra hne
    obtain ⟨j, hj⟩ := exists_of_waiting_pos (s := s) (by omega)
    exact hne (queued_eq_zero ((hparent j).2 hj))
  -- a request would be taken by any child that has rounds left
  have hserver : queued serverMessage s.resource = 0 := by
    by_contra hne
    have hlt : (s.total fun a => a.childReceived.length) < ∑ j, rounds (runs j) := by omega
    obtain ⟨j, -, hj⟩ := Finset.exists_lt_of_sum_lt hlt
    simp only at hj
    obtain ⟨-, -, hcount, hfailed⟩ := (hs.children j).counters
    have hfinished : (s.part j).child ≠ .finished := by
      rw [Ne, (hs.children j).finished_iff]
      rw [(hchild j).1] at hcount
      simp only [Bool.false_eq_true, if_false] at hcount
      omega
    exact hne (queued_eq_zero ((hchild j).2
      (Pc.isReceive_of_blocked (hchild j).1 hfinished hfailed)))
  -- so no parent waits, but one of them has rounds left
  have hlt : (s.total fun a => a.parentReceived.length) < ∑ j, rounds (runs j) := by
    rw [allCalls] at hn
    omega
  obtain ⟨j, -, hj⟩ := Finset.exists_lt_of_sum_lt hlt
  have hfinished : (s.part j).parent ≠ .finished := by
    rw [Ne, (hs.parents j).finished_iff]
    exact hj.ne
  have hpos := waiting_pos (s := s)
    (Pc.isReceive_of_blocked (hparent j).1 hfinished (hs.parents j).counters.2.2.2)
  omega

/-- When every process has finished, all calls have been made. -/
theorem eq_allCalls (hs : Circulates runs msgsize n s)
    (hfinished : ∀ j, (s.part j).parent = .finished ∧ (s.part j).child = .finished) :
    n = allCalls runs := by
  have hreceived : (s.total fun a => a.parentReceived.length) = ∑ j, rounds (runs j) :=
    Finset.sum_congr rfl fun j _ => (hs.parents j).finished_iff.mp (hfinished j).1
  have hanswered : s.total State.childSends = ∑ j, rounds (runs j) :=
    Finset.sum_congr rfl fun j _ => (hs.children j).finished_iff.mp (hfinished j).2
  have hwaiting : waiting s = 0 := Finset.sum_eq_zero fun j _ => by
    simp [(hfinished j).1, Pc.isReceive]
  have hholding : holding s = 0 := Finset.sum_eq_zero fun j _ => by
    simp [(hfinished j).2, Pc.isSend]
  have hsent := hs.sent_eq
  have htaken := hs.taken_eq
  have hcalls := hs.calls
  rw [allCalls]
  omega

end Circulates

/-- A queue that has room for one message of every pair. -/
def HasRoomForAll (ι : Type*) [Fintype ι] (hasRoom : Capacity) (msgsize : ℕ) : Prop :=
  ∀ queue : List Message, queue.length < Fintype.card ι → (∀ m ∈ queue, m.size = msgsize) →
    hasRoom queue msgsize = true

section Room

variable {hasRoom : Capacity} {runs : ι → ℕ} {msgsize n : ℕ}
  {s : Components ι State (List Message)}

/-- With room for one message of every pair the sends never find the queue full. -/
theorem Circulates.hasRoom_of_isSend (hs : Circulates runs msgsize n s)
    (hroom : HasRoomForAll ι hasRoom msgsize) {j : ι}
    (hj : (s.part j).parent.isSend = true ∨ (s.part j).child.isSend = true) :
    hasRoom s.resource msgsize = true :=
  hroom _ (hs.length_lt_of_isSend hj) fun m hm => (hs.wellformed m hm).1

theorem circulates_of_after [DecidableEq ι] (hroom : HasRoomForAll ι hasRoom msgsize)
    (hs : Shared.After hasRoom runs msgsize n s) : Circulates runs msgsize n s := by
  refine hs.invariant (Circulates.start runs msgsize) fun n s j b queue' hs hstep => ?_
  exact hs.passes
    (passes_of_sharedStep hs.wellformed (fun hj => hs.hasRoom_of_isSend hroom (.inl hj)) hstep)

/-- What the limits mean for messages of one size. -/
theorem KeepsLimits.iff_of_size {msgmax qbytes : ℕ} (hlimits : KeepsLimits msgmax qbytes hasRoom)
    {queue : List Message} (hsize : ∀ m ∈ queue, m.size = msgsize) :
    hasRoom queue msgsize = true
      ↔ msgsize ≤ msgmax ∧ (queue.length + 1) * msgsize ≤ qbytes ∧ queue.length + 1 ≤ qbytes := by
  have hsum : (queue.map Message.size).sum = queue.length * msgsize := by
    rw [List.map_congr_left hsize, List.map_const', List.sum_replicate, smul_eq_mul]
  rw [hlimits, hsum, Nat.succ_mul]

theorem KeepsLimits.hasRoomForAll {msgmax qbytes : ℕ} (hlimits : KeepsLimits msgmax qbytes hasRoom)
    (hmax : msgsize ≤ msgmax) (hbytes : Fintype.card ι * msgsize ≤ qbytes)
    (hcount : Fintype.card ι ≤ qbytes) : HasRoomForAll ι hasRoom msgsize := by
  intro queue hlt hsize
  exact (hlimits.iff_of_size hsize).mpr
    ⟨hmax, (Nat.mul_le_mul_right _ (Nat.succ_le_of_lt hlt)).trans hbytes, by omega⟩

end Room

open Circulates in
/-- **Several pairs on one queue.** Let the queue have room for one message of every pair. In every
interleaving of any number of pairs with any numbers of runs: the messages that are queued or held
by a child are as many as the parents that wait, so never more than the pairs; no call fails; as
long as not all calls have been made some process can make one, so that no pair is stuck whoever
took its messages; and all processes have finished exactly after four calls for each round of each
pair, with an empty queue. -/
theorem shared_queue_completes [DecidableEq ι] (hasRoom : Capacity) (runs : ι → ℕ) (msgsize : ℕ)
    (hroom : HasRoomForAll ι hasRoom msgsize) (n : ℕ) (s : Components ι State (List Message))
    (hs : Shared.After hasRoom runs msgsize n s) :
    (s.resource.length + holding s = waiting s ∧ waiting s ≤ Fintype.card ι) ∧
    (∀ j, (s.part j).parent ≠ .failed ∧ (s.part j).child ≠ .failed) ∧
    n ≤ allCalls runs ∧
    (n < allCalls runs →
      ∃ s', Components.Step (fun j => SharedStep hasRoom (runs j) msgsize) s s') ∧
    (n = allCalls runs ↔
      ∀ j, (s.part j).parent = .finished ∧ (s.part j).child = .finished) ∧
    (n = allCalls runs → s.resource = []) := by
  have hcirc := circulates_of_after hroom hs
  exact ⟨⟨hcirc.length_add_holding, waiting_le s⟩,
    fun j => ⟨(hcirc.parents j).counters.2.2.2, (hcirc.children j).counters.2.2.2⟩,
    hcirc.le_allCalls, hcirc.exists_step fun j hj => hcirc.hasRoom_of_isSend hroom (.inr hj),
    ⟨fun hn => (hcirc.finished_of_eq hn).1, hcirc.eq_allCalls⟩,
    fun hn => (hcirc.finished_of_eq hn).2⟩

/-- The three pairs of six cores on a queue of the default size: after the first send of one of
them the run goes on. -/
theorem shared_queue_completes_script :
    ∃ s, Shared.After (capacityOf 8192 16384) ![10, 10, 1] 1 1 s ∧ s.resource.length = 1 ∧
      ∃ s', Components.Step
        (fun j => SharedStep (capacityOf 8192 16384) (![10, 10, 1] j) 1) s s' := by
  have hroom : HasRoomForAll (Fin 3) (capacityOf 8192 16384) 1 :=
    (keepsLimits_capacityOf 8192 16384).hasRoomForAll (by decide) (by decide) (by decide)
  have hs : Shared.After (capacityOf 8192 16384) ![10, 10, 1] 1 1 _ :=
    .succ .zero ⟨2, _, _, ⟨.inl rfl, rfl⟩, rfl⟩
  obtain ⟨-, -, -, hgo, -, -⟩ := shared_queue_completes _ _ _ hroom _ _ hs
  exact ⟨_, hs, rfl, hgo (by decide)⟩

/-! ## How much room is needed -/

section Full

variable [DecidableEq ι] {msgsize : ℕ} {runs : ι → ℕ}

/-- No process fails in any interleaving. -/
def NeverFails (hasRoom : Capacity) (runs : ι → ℕ) (msgsize : ℕ) : Prop :=
  ∀ n s, Shared.After hasRoom runs msgsize n s →
    ∀ j, (s.part j).parent ≠ .failed ∧ (s.part j).child ≠ .failed

omit [Fintype ι] in
/-- A parent that is about to send finds room when no process fails. -/
theorem NeverFails.hasRoom {hasRoom : Capacity} (hok : NeverFails hasRoom runs msgsize) {n : ℕ}
    {s : Components ι State (List Message)} (hs : Shared.After hasRoom runs msgsize n s)
    {j : ι} {x i : ℕ} (hj : (s.part j).parent = .send x i) :
    hasRoom s.resource msgsize = true := by
  by_contra hfull
  have hstep : SharedStep hasRoom (runs j) msgsize (s.part j) s.resource
      { s.part j with queue := s.resource, parent := .failed } s.resource := by
    refine ⟨.inl ?_, rfl⟩
    simp only [parentStep, hj, if_neg hfull]
  refine (hok _ _ (.succ hs ⟨j, _, _, hstep, rfl⟩) j).1 ?_
  rw [Components.part_put_self]

omit [Fintype ι] in
/-- The parents of any set of pairs can be the first to send. -/
theorem NeverFails.exists_asked {hasRoom : Capacity} (hok : NeverFails hasRoom runs msgsize)
    (hruns : ∀ j, 0 < runs j) (asked : Finset ι) :
    ∃ n s, Shared.After hasRoom runs msgsize n s ∧ s.resource.length = asked.card ∧
      (∀ m ∈ s.resource, m.size = msgsize) ∧ ∀ j ∉ asked, (s.part j).parent = .send 0 0 := by
  induction asked using Finset.induction_on with
  | empty =>
    refine ⟨0, _, .zero, rfl, fun m hm => (by cases hm), fun j _ => ?_⟩
    simp [Shared.init, State.init, enterRun, hruns j, Pc.enter]
  | insert j asked hj ih =>
    obtain ⟨n, s, hs, hlen, hsize, hfirst⟩ := ih
    have hroom := hok.hasRoom hs (hfirst j hj)
    have hstep : SharedStep hasRoom (runs j) msgsize (s.part j) s.resource
        { s.part j with
          parent := .receive 0 0
          queue := s.resource ++ [⟨serverMessage, msgsize, (s.part j).parentSends⟩]
          parentSends := (s.part j).parentSends + 1 }
        (s.resource ++ [⟨serverMessage, msgsize, (s.part j).parentSends⟩]) := by
      refine ⟨.inl ?_, rfl⟩
      simp only [parentStep, hfirst j hj, if_pos hroom]
    refine ⟨n + 1, _, .succ hs ⟨j, _, _, hstep, rfl⟩, ?_, ?_, fun k hk => ?_⟩
    · rw [Components.resource_put, List.length_append, hlen, Finset.card_insert_of_notMem hj]
      rfl
    · exact List.forall_mem_append.mpr ⟨hsize, by simp⟩
    · rw [Finset.mem_insert, not_or] at hk
      rw [Components.part_put_of_ne s hk.1]
      exact hfirst k hk.2

/-- **How much room the pairs need.** On a queue with the limits that `msgsnd` documents, pairs that
have at least one round each never fail, whatever the interleaving, exactly when no message is
longer than `MSGMAX` and `msg_qbytes` allows for one message of every pair. -/
theorem never_fails_iff [Nonempty ι] (hasRoom : Capacity) (msgmax qbytes msgsize : ℕ)
    (runs : ι → ℕ) (hlimits : KeepsLimits msgmax qbytes hasRoom) (hruns : ∀ j, 0 < runs j) :
    NeverFails hasRoom runs msgsize
      ↔ msgsize ≤ msgmax ∧ Fintype.card ι * msgsize ≤ qbytes ∧ Fintype.card ι ≤ qbytes := by
  constructor
  · intro hok
    -- all parents but one have sent, and that one finds room
    obtain ⟨j⟩ := ‹Nonempty ι›
    obtain ⟨n, s, hs, hlen, hsize, hfirst⟩ := hok.exists_asked hruns (Finset.univ.erase j)
    have hroom := hok.hasRoom hs (hfirst j (Finset.notMem_erase j _))
    have hcard : s.resource.length + 1 = Fintype.card ι := by
      rw [hlen, Finset.card_erase_add_one (Finset.mem_univ j), Finset.card_univ]
    rw [hlimits.iff_of_size hsize, hcard] at hroom
    exact hroom
  · intro ⟨hmax, hbytes, hcount⟩ n s hs j
    have hcirc := circulates_of_after (hlimits.hasRoomForAll hmax hbytes hcount) hs
    exact ⟨(hcirc.parents j).counters.2.2.2, (hcirc.children j).counters.2.2.2⟩

/-- The default limits: of messages of 8192 bytes two fit on the queue and three do not, and one of
8193 bytes is refused. -/
theorem never_fails_iff_script :
    NeverFails (capacityOf 8192 16384) ![10, 1] 8192 ∧
      ¬ NeverFails (capacityOf 8192 16384) ![10, 10, 1] 8192 ∧
      ¬ NeverFails (capacityOf 8192 16384) ![10] 8193 := by
  have hlimits := keepsLimits_capacityOf 8192 16384
  refine ⟨?_, fun hok => ?_, fun hok => ?_⟩
  · exact (never_fails_iff _ 8192 16384 8192 ![10, 1] hlimits (by decide)).mpr (by decide)
  · exact absurd ((never_fails_iff _ 8192 16384 8192 ![10, 10, 1] hlimits (by decide)).mp hok)
      (by decide)
  · exact absurd ((never_fails_iff _ 8192 16384 8193 ![10] hlimits (by decide)).mp hok) (by decide)

end Full

end Pairs

end BenchLx.Pingpong
