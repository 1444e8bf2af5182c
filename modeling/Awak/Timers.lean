/-
  The timers of the reactor: `insert_timer`, `remove_timer`, `process_timers`
  and the part of `react` around `Poller::wait`, of `io/reactor.rs`.

  Threads `ι` run `insert_timer` and `remove_timer`; one thread at a time runs
  `react` (the reactor lock).  Each operation of the queue `timer_ops`, each
  acquisition and release of the mutex of `timers`, each reading of the clock
  and each step of the poller is one step; an operation popped under the mutex
  is applied to the map in the same step.  The clock can advance at any moment.
  The loop of `react` over the events of the sources is one place: it ends, or it
  is left early by an error of `interest`, and `react` drops the wakers it has.

  * `State.abstract`: the map with all queued operations applied in order;
  * `Inv`: from the end of the drain in `process_timers` until `epoll_wait`
    returns, the queue holds only removals and the timeout covers every timer
    of the map, or a wakeup is pending;
  * `never_oversleeps`: while `react` is blocked, no timer of the abstract map
    falls due before the timeout, or a wakeup is pending.
-/
import Mathlib.Data.Prod.Lex
import Awak.Poller
import Awak.Queue

namespace Awak

variable {ι W : Type}

/-- The keys of the timer map: a deadline and an id, ordered lexicographically. -/
abbrev TimerKey := ℕ ×ₗ ℕ

instance : Std.LawfulEqCmp (compare : TimerKey → TimerKey → Ordering) where
  eq_of_compare h := compare_eq_iff_eq.1 h

/-- The map `timers`. -/
abbrev TimerMap (W : Type) := Std.TreeMap TimerKey W

/-- A single timer operation. -/
inductive TimerOp (W : Type) where
  | insert (when id : ℕ) (waker : W)
  | remove (when id : ℕ)
  deriving DecidableEq

namespace TimerOp

/-- The key of the timer. -/
def key : TimerOp W → TimerKey
  | insert when id _ | remove when id => toLex (when, id)

/-- What an operation does to the map. -/
def apply (timers : TimerMap W) : TimerOp W → TimerMap W
  | insert when id waker => timers.insert (toLex (when, id)) waker
  | remove when id => timers.erase (toLex (when, id))

/-- The operation removes a timer. -/
def IsRemove : TimerOp W → Prop
  | insert .. => False
  | remove .. => True

theorem getElem?_apply_insert {m : TimerMap W} {when id : ℕ} {w : W} {k : TimerKey} :
    (apply m (.insert when id w))[k]? = if toLex (when, id) = k then some w else m[k]? := by
  simp only [apply, Std.TreeMap.getElem?_insert, compare_eq_iff_eq]

theorem getElem?_apply_remove {m : TimerMap W} {when id : ℕ} {k : TimerKey} :
    (apply m (.remove when id))[k]? = if toLex (when, id) = k then none else m[k]? := by
  simp only [apply, Std.TreeMap.getElem?_erase, compare_eq_iff_eq]

theorem getElem?_apply_of_ne {m : TimerMap W} {op : TimerOp W} {k : TimerKey} (h : op.key ≠ k) :
    (op.apply m)[k]? = m[k]? := by
  cases op with
  | insert when id w => exact getElem?_apply_insert.trans (if_neg h)
  | remove when id => exact getElem?_apply_remove.trans (if_neg h)

end TimerOp

namespace TimerMap

/-- The timers that are not due at `now`: `timers.split_off(&(now, 0))`. -/
def pending (timers : TimerMap W) (now : ℕ) : TimerMap W :=
  timers.filter fun k _ => decide (toLex (now, 0) ≤ k)

/-- The timers that are due at `now`: what is left. -/
def ready (timers : TimerMap W) (now : ℕ) : TimerMap W :=
  timers.filter fun k _ => decide (k < toLex (now, 0))

/-- The result of `process_timers`: the time to the next timer. -/
def next (timers : TimerMap W) (now : ℕ) : Option ℕ :=
  if (timers.ready now).isEmpty then
    (timers.pending now).keys.head?.map fun k => (ofLex k).1 - now
  else some 0

theorem mem_iff_getElem? {m : TimerMap W} {k : TimerKey} : k ∈ m ↔ m[k]? ≠ none := by
  rw [Std.TreeMap.mem_iff_isSome_getElem?, Option.isSome_iff_ne_none]

/-- The id `0` of the key of the split is below all ids: the deadlines decide. -/
theorem lt_split_iff {k : TimerKey} {now : ℕ} : k < toLex (now, 0) ↔ (ofLex k).1 < now := by
  rw [Prod.Lex.lt_iff]
  simp

theorem getElem?_ready (m : TimerMap W) (now : ℕ) (k : TimerKey) :
    (m.ready now)[k]? = if (ofLex k).1 < now then m[k]? else none := by
  rw [ready, Std.TreeMap.getElem?_filter']
  simp only [lt_split_iff]
  by_cases h : (ofLex k).1 < now <;> cases m[k]? <;> simp [h]

theorem getElem?_pending (m : TimerMap W) (now : ℕ) (k : TimerKey) :
    (m.pending now)[k]? = if (ofLex k).1 < now then none else m[k]? := by
  rw [pending, Std.TreeMap.getElem?_filter']
  simp only [← not_lt, lt_split_iff]
  by_cases h : (ofLex k).1 < now <;> cases m[k]? <;> simp [h]

end TimerMap

/-- The timeout of `react`: the smaller of the two. -/
def minTimeout : Option ℕ → Option ℕ → Option ℕ
  | none, none => none
  | some t, none | none, some t => some t
  | some a, some b => some (min a b)

namespace Timers

/-- `DEFAULT_TIME_OP_SIZE`. -/
def timeOpSize : ℕ := 1000

/-- A call of `insert_timer` or `remove_timer`. -/
inductive OpPc (W : Type) where
  | idle
  /-- `timer_ops.push(op)` -/
  | push (op : TimerOp W)
  /-- the queue was full: take the mutex of `timers` -/
  | lock (op : TimerOp W)
  /-- in `process_timer_ops`, with so many iterations left -/
  | drain (op : TimerOp W) (left : ℕ)
  | unlock (op : TimerOp W)
  | notify (id : ℕ)
  | notifying (id : ℕ)
  /-- `insert_timer` returns an id -/
  | ret (id : Option ℕ)
  deriving DecidableEq

/-- The two calls of `process_timers` in `react(timeout)`. -/
inductive Call where
  | first (timeout : Option ℕ)
  | second
  deriving DecidableEq

/-- A call of `react`. -/
inductive ReactPc where
  | idle
  /-- take the mutex of `timers` -/
  | lock (c : Call)
  | drain (c : Call) (left : ℕ)
  /-- `Instant::now()` -/
  | now (c : Call)
  | split (c : Call) (now : ℕ)
  | unlock (c : Call) (now : ℕ) (next : Option ℕ)
  /-- call `Poller::wait` with the timeout computed at `now` -/
  | poll (now : ℕ) (timeout : Option ℕ)
  | wait (now : ℕ) (timeout : Option ℕ)
  /-- the loop over the events of the sources -/
  | events
  /-- wake the collected wakers -/
  | wake
  deriving DecidableEq

/-- The holder of the mutex of `timers`. -/
inductive Holder (ι : Type) where
  | reactor
  | thread (i : ι)
  deriving DecidableEq

/-- The clock, the queued operations, the map of timers, the poller, and the calls in progress. -/
structure State (ι W : Type) where
  clock : ℕ
  idGen : ℕ
  ops : Queue (TimerOp W)
  timers : TimerMap W
  lock : Option (Holder ι)
  poller : Poller ι
  calling : ι → OpPc W
  reacting : ReactPc
  /-- the vector `wakers` of `react` -/
  wakers : List W
  /-- the keys of all timers fired so far, for the specification -/
  fired : List TimerKey

namespace State

/-- A fresh reactor at clock reading `now`. -/
def new (now : ℕ) : State ι W where
  clock := now
  idGen := 1
  ops := .bound timeOpSize
  timers := ∅
  lock := none
  poller := .new
  calling _ := .idle
  reacting := .idle
  wakers := []
  fired := []

/-- The abstract timer map: all queued operations applied in order. -/
def abstract (s : State ι W) : TimerMap W := s.ops.queue.foldl TimerOp.apply s.timers

/-- One iteration of the loop of `process_timer_ops`; `none` for `break`. -/
def processTimerOp (s : State ι W) : Option (State ι W) :=
  match s.ops.pop with
  | some (op, ops) => some { s with ops := ops, timers := op.apply s.timers }
  | none => none

section Calls
variable [DecidableEq ι]

/-- The call of `i` goes to `p`. -/
def setCalling (s : State ι W) (i : ι) (p : OpPc W) : State ι W :=
  { s with calling := Function.update s.calling i p }

/-- Call `insert_timer`: its first step draws the id. -/
def insertTimer (s : State ι W) (i : ι) (when : ℕ) (waker : W) : Option (State ι W) :=
  match s.calling i with
  | .idle =>
    some ({ s with idGen := s.idGen + 1 }.setCalling i (.push (.insert when s.idGen waker)))
  | _ => none

/-- Call `remove_timer`. -/
def removeTimer (s : State ι W) (i : ι) (when id : ℕ) : Option (State ι W) :=
  match s.calling i with
  | .idle => some (s.setCalling i (.push (.remove when id)))
  | _ => none

/-- Where a call goes once its operation is queued. -/
def pushed : TimerOp W → OpPc W
  | .insert _ id _ => .notify id
  | .remove .. => .ret none

/-- The next step of the call of thread `i`. -/
def opStep (s : State ι W) (i : ι) : Option (State ι W) :=
  match s.calling i with
  | .push op =>
    match s.ops.push op with
    | some ops => some ({ s with ops := ops }.setCalling i (pushed op))
    | none => some (s.setCalling i (.lock op))
  | .lock op =>
    if s.lock = none then
      some ({ s with lock := some (.thread i) }.setCalling i (.drain op s.ops.capacity))
    else none
  | .drain op 0 => some (s.setCalling i (.unlock op))
  | .drain op (left + 1) =>
    match s.processTimerOp with
    | some s' => some (s'.setCalling i (.drain op left))
    | none => some (s.setCalling i (.unlock op))
  | .unlock op => some ({ s with lock := none }.setCalling i (.push op))
  | .notify id =>
    (s.poller.notify i).map fun p => { s with poller := p }.setCalling i (.notifying id)
  | .notifying id =>
    match s.poller.notifying i with
    | .ret => (s.poller.notifyRet i).map fun p => { s with poller := p }.setCalling i (.ret (some id))
    | _ => (s.poller.notifyStep i).map fun p => { s with poller := p }
  | .idle | .ret _ => none

/-- Return from `insert_timer` or `remove_timer`. -/
def opRet (s : State ι W) (i : ι) : Option (State ι W) :=
  match s.calling i with
  | .ret _ => some (s.setCalling i .idle)
  | _ => none

end Calls

/-- Call `react(timeout)`. -/
def react (s : State ι W) (timeout : Option ℕ) : Option (State ι W) :=
  match s.reacting with
  | .idle => some { s with reacting := .lock (.first timeout), wakers := [] }
  | _ => none

/-- The next step of `react`, `epoll_wait` apart. -/
def reactStep (s : State ι W) : Option (State ι W) :=
  match s.reacting with
  | .lock c =>
    if s.lock = none then
      some { s with lock := some .reactor, reacting := .drain c s.ops.capacity }
    else none
  | .drain c 0 => some { s with reacting := .now c }
  | .drain c (left + 1) =>
    match s.processTimerOp with
    | some s' => some { s' with reacting := .drain c left }
    | none => some { s with reacting := .now c }
  | .now c => some { s with reacting := .split c s.clock }
  | .split c now => some { s with
      timers := s.timers.pending now
      reacting := .unlock c now (s.timers.next now)
      wakers := s.wakers ++ (s.timers.ready now).values
      fired := s.fired ++ (s.timers.ready now).keys }
  | .unlock (.first timeout) now next =>
    some { s with lock := none, reacting := .poll now (minTimeout next timeout) }
  | .unlock .second _ _ => some { s with lock := none, reacting := .wake }
  | .poll now timeout =>
    (s.poller.wait timeout).map fun p => { s with poller := p, reacting := .wait now timeout }
  | .wait _ timeout =>
    match s.poller.waiting with
    | .ret (.ok true) => s.poller.waitRet.map fun p => { s with
        poller := p
        reacting := if timeout = some 0 then .wake else .lock .second }
    | .ret (.ok false) => s.poller.waitRet.map fun p => { s with poller := p, reacting := .events }
    | .ret _ => s.poller.waitRet.map fun p => { s with poller := p, reacting := .wake }
    | _ => s.poller.waitStep.map fun p => { s with poller := p }
  | .events => some { s with reacting := .wake }
  | .wake =>
    match s.wakers with
    | [] => some { s with reacting := .idle }
    | _ :: rest => some { s with wakers := rest }
  | .idle => none

/-- The loop over the events is left early: the `?` on `poller.interest`, or a poisoned
    mutex of the sources.  The wakers collected are dropped. -/
def leaveEvents (s : State ι W) : Option (State ι W) :=
  match s.reacting with
  | .events => some { s with reacting := .idle, wakers := [] }
  | _ => none

end State

/-- The moves of the threads, of the reactor and of the clock. -/
inductive Act (ι W : Type) where
  | insertTimer (i : ι) (when : ℕ) (waker : W)
  | removeTimer (i : ι) (when id : ℕ)
  | op (i : ι)
  | opRet (i : ι)
  | react (timeout : Option ℕ)
  | next
  | leaveEvents
  | epollReturn (report empty : Bool)
  | interrupt
  | advance (d : ℕ)

section System
variable [DecidableEq ι]

/-- One atomic operation, or one critical section of `timers`. -/
def step (s : State ι W) : Act ι W → Option (State ι W)
  | .insertTimer i when waker => s.insertTimer i when waker
  | .removeTimer i when id => s.removeTimer i when id
  | .op i => s.opStep i
  | .opRet i => s.opRet i
  | .react timeout => s.react timeout
  | .next => s.reactStep
  | .leaveEvents => s.leaveEvents
  | .epollReturn report empty =>
    (s.poller.epollReturn report empty).map fun p => { s with poller := p }
  | .interrupt => s.poller.interrupt.map fun p => { s with poller := p }
  | .advance d => some { s with clock := s.clock + d }

/-- `react`, with any threads that insert and remove timers. -/
def system (now : ℕ) : Lts (State ι W) (Act ι W) where
  init s := s = .new now
  step := step

end System

/-! ## The timeout -/

/-- No timer due at `when` is overslept by a wait with this timeout, computed at
    `now`; no timeout is infinite. -/
def Covers (timeout : Option ℕ) (now when : ℕ) : Prop := ∃ d, timeout = some d ∧ now + d ≤ when

theorem mem_pending {m : TimerMap W} {now : ℕ} {k : TimerKey} (h : k ∈ m.pending now) :
    k ∈ m ∧ now ≤ (ofLex k).1 := by
  rw [TimerMap.mem_iff_getElem?, TimerMap.getElem?_pending] at h
  by_cases hk : (ofLex k).1 < now
  · rw [if_pos hk] at h; exact absurd rfl h
  · rw [if_neg hk] at h; exact ⟨TimerMap.mem_iff_getElem?.2 h, not_lt.1 hk⟩

/-- The result of `process_timers` covers the timers that are left. -/
theorem next_covers {m : TimerMap W} {now : ℕ} {k : TimerKey} (h : k ∈ m.pending now) :
    Covers (m.next now) now (ofLex k).1 := by
  unfold TimerMap.next
  split_ifs
  · -- the first key of the rest is the least one
    have hk := Std.TreeMap.mem_keys.2 h
    have ho := (m.pending now).ordered_keys
    cases hl : (m.pending now).keys with
    | nil => rw [hl] at hk; cases hk
    | cons f rest =>
      rw [hl] at hk ho
      have hf : now ≤ (ofLex f).1 :=
        (mem_pending (Std.TreeMap.mem_keys.1 (hl ▸ List.mem_cons_self))).2
      have hfk : (ofLex f).1 ≤ (ofLex k).1 := by
        rcases List.mem_cons.1 hk with rfl | hk
        · exact le_rfl
        · have hlt := compare_lt_iff_lt.1 (List.rel_of_pairwise_cons ho hk)
          rcases Prod.Lex.lt_iff.1 hlt with hlt | hlt
          · exact hlt.le
          · exact hlt.1.le
      exact ⟨(ofLex f).1 - now, rfl, by omega⟩
  · exact ⟨0, rfl, (mem_pending h).2⟩

theorem minTimeout_covers {next timeout : Option ℕ} {now when : ℕ} (h : Covers next now when) :
    Covers (minTimeout next timeout) now when := by
  obtain ⟨d, rfl, hd⟩ := h
  cases timeout with
  | none => exact ⟨d, rfl, hd⟩
  | some t => exact ⟨min d t, rfl, by omega⟩

theorem mem_apply {op : TimerOp W} (ho : op.IsRemove) {m : TimerMap W} {k : TimerKey}
    (h : k ∈ op.apply m) : k ∈ m := by
  cases op with
  | insert => cases ho
  | remove when id => exact Std.TreeMap.mem_of_mem_erase h

/-- Removals add no timer. -/
theorem mem_foldl_apply {ops : List (TimerOp W)} (ho : ∀ op ∈ ops, op.IsRemove) {m : TimerMap W}
    {k : TimerKey} (h : k ∈ ops.foldl TimerOp.apply m) : k ∈ m := by
  induction ops generalizing m with
  | nil => exact h
  | cons op ops ih =>
    have h' := ih (fun o hm => ho o (List.mem_cons_of_mem _ hm)) h
    exact mem_apply (ho op List.mem_cons_self) h'

/-! ## The invariant -/

/-- A wakeup of the reactor is pending, or an inserted timer is still to be
    announced. -/
def Announced (s : State ι W) : Prop := s.poller.Woken ∨ ∃ i id, s.calling i = .notify id

/-- The timeout covers the map, and the queue adds no timer to it. -/
def Asleep (s : State ι W) (now : ℕ) (timeout : Option ℕ) : Prop :=
  (∀ k ∈ s.timers, Covers timeout now (ofLex k).1) ∧ ∀ op ∈ s.ops.queue, op.IsRemove

/-- What `react` has established at each place before `epoll_wait` returns. -/
def ReactOk (s : State ι W) : ReactPc → Prop
  | .drain (.first _) left => (∀ op ∈ s.ops.queue.drop left, op.IsRemove) ∨ Announced s
  | .now (.first _) | .split (.first _) _ => (∀ op ∈ s.ops.queue, op.IsRemove) ∨ Announced s
  | .unlock (.first _) now next => Asleep s now next ∨ Announced s
  | .poll now timeout => Asleep s now timeout ∨ Announced s
  | .wait now timeout =>
    match s.poller.waiting with
    | .setTimer t | .armTimer t | .epollWait t => t = timeout ∧ (Asleep s now t ∨ Announced s)
    | _ => True
  | _ => True

/-- The invariant: `react` waits only with a timeout that covers the timers, or with a wakeup
    under way. -/
structure Inv (s : State ι W) : Prop where
  poller : s.poller.Inv
  waiting : s.poller.waiting ≠ .idle → ∃ now timeout, s.reacting = .wait now timeout
  react : ReactOk s s.reacting

theorem inv_new (now : ℕ) : Inv (State.new now : State ι W) := by
  refine ⟨Poller.inv_new, ?_, ?_⟩ <;> simp [State.new, Poller.new, ReactOk]

/-- What a step of a thread may do while `react` is before or inside `epoll_wait`. -/
structure Quiet (s s' : State ι W) : Prop where
  announced : Announced s → Announced s'
  queue : ∀ left, (∀ op ∈ s.ops.queue.drop left, op.IsRemove) →
    (∀ op ∈ s'.ops.queue.drop left, op.IsRemove) ∨ Announced s'
  asleep : ∀ now timeout, Asleep s now timeout → Asleep s' now timeout ∨ Announced s'

theorem Quiet.of_eq {s s' : State ι W} (ha : Announced s → Announced s') (ho : s'.ops = s.ops)
    (ht : s'.timers = s.timers) : Quiet s s' := by
  refine ⟨ha, fun left h => Or.inl (ho ▸ h), fun now timeout h => Or.inl ?_⟩
  simpa [Asleep, ho, ht] using h

theorem Quiet.reactOk {s s' : State ι W} (hq : Quiet s s')
    (hw : s'.poller.waiting = s.poller.waiting) {pc : ReactPc} (h : ReactOk s pc) :
    ReactOk s' pc := by
  unfold ReactOk at h ⊢
  split at h
  · exact h.elim (hq.queue _) fun ha => Or.inr (hq.announced ha)
  · exact h.elim (hq.queue 0) fun ha => Or.inr (hq.announced ha)
  · exact h.elim (hq.queue 0) fun ha => Or.inr (hq.announced ha)
  · exact h.elim (hq.asleep _ _) fun ha => Or.inr (hq.announced ha)
  · exact h.elim (hq.asleep _ _) fun ha => Or.inr (hq.announced ha)
  · rw [hw]
    split at h
    · exact ⟨h.1, h.2.elim (hq.asleep _ _) fun ha => Or.inr (hq.announced ha)⟩
    · exact ⟨h.1, h.2.elim (hq.asleep _ _) fun ha => Or.inr (hq.announced ha)⟩
    · exact ⟨h.1, h.2.elim (hq.asleep _ _) fun ha => Or.inr (hq.announced ha)⟩
    · trivial
  · trivial

variable [DecidableEq ι] {s s' : State ι W}

/-- A call that moves on without a notification leaves the announcements alone. -/
theorem announced_setCalling {i : ι} (hi : ∀ id, s.calling i ≠ .notify id) (p : OpPc W)
    (h : Announced s) : Announced (s.setCalling i p) := by
  refine h.imp_right fun ⟨j, id, hj⟩ => ⟨j, id, ?_⟩
  have hji : j ≠ i := by rintro rfl; exact hi id hj
  simpa [State.setCalling, hji] using hj

/-- A call queues its operation: an insertion is to be announced. -/
theorem quiet_push {i : ι} {op : TimerOp W} (hi : s.calling i = .push op) {ops : Queue (TimerOp W)}
    (hp : s.ops.push op = some ops) :
    Quiet s ({ s with ops := ops }.setCalling i (State.pushed op)) := by
  obtain ⟨hq, -⟩ := Queue.push_some hp
  cases op with
  | insert when id waker =>
    have ha : Announced ({ s with ops := ops }.setCalling i (.notify id)) :=
      Or.inr ⟨i, id, by simp [State.setCalling]⟩
    exact ⟨fun _ => ha, fun _ _ => Or.inr ha, fun _ _ _ => Or.inr ha⟩
  | remove when id =>
    refine ⟨announced_setCalling (s := { s with ops := ops }) (by simp [hi]) _, fun left h => ?_,
      fun now timeout h => Or.inl ⟨h.1, ?_⟩⟩
    · refine Or.inl fun o ho => ?_
      simp only [State.setCalling, hq, List.drop_append] at ho
      rcases List.mem_append.1 ho with ho | ho
      · exact h o ho
      · rw [List.mem_singleton.1 (List.mem_of_mem_drop ho)]; trivial
    · intro o ho
      simp only [State.setCalling, hq] at ho
      rcases List.mem_append.1 ho with ho | ho
      · exact h.2 o ho
      · rw [List.mem_singleton.1 ho]; trivial

omit [DecidableEq ι] in
theorem processTimerOp_some (h : s.processTimerOp = some s') :
    ∃ op ops, s.ops.queue = op :: ops.queue ∧ ops.capacity = s.ops.capacity ∧
      s' = { s with ops := ops, timers := op.apply s.timers } := by
  unfold State.processTimerOp at h
  split at h
  next op ops hp =>
    cases h
    exact ⟨op, ops, (Queue.pop_some hp).1, (Queue.pop_some hp).2, rfl⟩
  next => cases h

omit [DecidableEq ι] in
theorem processTimerOp_none (h : s.processTimerOp = none) : s.ops.queue = [] := by
  unfold State.processTimerOp at h
  split at h
  · cases h
  next hp => exact Queue.pop_none hp

/-- A thread that drains the queue behind the back of the reactor. -/
theorem quiet_drain {i : ι} (hi : ∀ id, s.calling i ≠ .notify id) (p : OpPc W)
    (hd : s.processTimerOp = some s') : Quiet s (s'.setCalling i p) := by
  obtain ⟨op, ops, hq, -, rfl⟩ := processTimerOp_some hd
  refine ⟨announced_setCalling (s := { s with ops := ops, timers := op.apply s.timers }) hi _,
    fun left h => Or.inl fun o ho => h o ?_, fun now timeout h => Or.inl ⟨fun k hk => ?_, ?_⟩⟩
  · have hsub := List.drop_subset_drop_left s.ops.queue (Nat.le_succ left)
    exact hsub (by rw [hq]; simpa [State.setCalling] using ho)
  · exact h.1 k (mem_apply (h.2 op (by rw [hq]; exact List.mem_cons_self)) hk)
  · exact fun o ho => h.2 o (by rw [hq]; exact List.mem_cons_of_mem _ ho)

namespace Inv

omit [DecidableEq ι] in
/-- A step of a thread that is quiet for the reactor keeps the invariant. -/
theorem quiet (h : Inv s) (hp : s'.poller = s.poller) (hr : s'.reacting = s.reacting)
    (hq : Quiet s s') : Inv s' := by
  refine ⟨hp ▸ h.poller, ?_, ?_⟩
  · rw [hp, hr]; exact h.waiting
  · rw [hr]; exact hq.reactOk (by rw [hp]) h.react

/-- A step of a call outside the poller that changes no timer. -/
theorem moved (h : Inv s) {i : ι} (hi : ∀ id, s.calling i ≠ .notify id) (p : OpPc W) :
    Inv (s.setCalling i p) :=
  h.quiet rfl rfl (.of_eq (announced_setCalling hi p) rfl rfl)

/-- A step of `Poller::notify`. -/
theorem notified (h : Inv s) {a : Poller.Act ι} {p : Poller ι} (hs : s.poller.step a = some p)
    (hw : p.waiting = s.poller.waiting) {i : ι} {q : OpPc W}
    (ha : ¬ s.poller.waiting.Past → Announced s →
      Announced ({ s with poller := p }.setCalling i q)) :
    Inv ({ s with poller := p }.setCalling i q) := by
  refine ⟨h.poller.step hs, fun hne => h.waiting (hw ▸ hne), ?_⟩
  change ReactOk _ s.reacting
  by_cases hp : s.poller.waiting.Past
  · -- `epoll_wait` has returned, nothing is left to cover
    obtain ⟨now, t, hr⟩ := h.waiting (by rintro he; rw [he] at hp; exact hp)
    rw [hr]
    change match p.waiting with
      | .setTimer _ | .armTimer _ | .epollWait _ => _
      | _ => True
    rw [hw]
    revert hp
    cases s.poller.waiting <;> simp [WaitPc.Past]
  · exact (Quiet.of_eq (ha hp) rfl rfl).reactOk hw h.react

theorem opStep (h : Inv s) {i : ι} (hs : s.opStep i = some s') : Inv s' := by
  unfold State.opStep at hs
  split at hs
  next op hi =>
    split at hs <;> cases hs
    next ops hp => exact h.quiet rfl rfl (quiet_push hi hp)
    next => exact h.moved (by simp [hi]) _
  next op hi =>
    split_ifs at hs
    cases hs
    exact Inv.moved (s := { s with lock := some (.thread i) }) { h with } (by simp [hi]) _
  next hi => cases hs; exact h.moved (by simp [hi]) _
  next op left hi =>
    split at hs <;> cases hs
    next t hd =>
      obtain ⟨_, _, _, _, rfl⟩ := processTimerOp_some hd
      exact h.quiet rfl rfl (quiet_drain (by simp [hi]) _ hd)
    next => exact h.moved (by simp [hi]) _
  next hi =>
    cases hs
    exact Inv.moved (s := { s with lock := none }) { h with } (by simp [hi]) _
  next id hi =>
    obtain ⟨p, hp, rfl⟩ := Option.map_eq_some_iff.1 hs
    exact h.notified (a := .notify i) hp (Poller.notify_waiting hp) fun hn _ =>
      Or.inl (h.poller.notify_woken hn hp)
  next id hi =>
    have hne : ∀ id, s.calling i ≠ .notify id := by simp [hi]
    split at hs
    · obtain ⟨p, hp, rfl⟩ := Option.map_eq_some_iff.1 hs
      refine h.notified (a := .notifyRet i) hp (Poller.notifyRet_waiting hp) fun hn ha =>
        announced_setCalling (s := { s with poller := p }) hne _ (ha.imp_left fun hw => ?_)
      exact hw.step (fun e he => hn (by rw [he]; trivial)) (a := .notifyRet i) hp
    · obtain ⟨p, hp, rfl⟩ := Option.map_eq_some_iff.1 hs
      have heq : { s with poller := p } = { s with poller := p }.setCalling i (.notifying id) := by
        simp [State.setCalling, ← hi]
      rw [heq]
      refine h.notified (a := .notifyStep i) hp (Poller.notifyStep_waiting hp) fun hn ha =>
        announced_setCalling (s := { s with poller := p }) hne _ (ha.imp_left fun hw => ?_)
      exact hw.step (fun e he => hn (by rw [he]; trivial)) (a := .notifyStep i) hp
  all_goals cases hs

omit [DecidableEq ι] in
/-- Outside `Poller::wait` the poller has no waiting thread. -/
theorem waiting_idle (h : Inv s) (hr : ∀ now timeout, s.reacting ≠ .wait now timeout) :
    s.poller.waiting = .idle := by
  by_contra hne
  obtain ⟨now, t, ht⟩ := h.waiting hne
  exact hr now t ht

omit [DecidableEq ι] in
/-- A step of `react` outside `Poller::wait`. -/
theorem reacted (h : Inv s) (hr : ∀ now timeout, s.reacting ≠ .wait now timeout)
    (hp : s'.poller = s.poller) (hok : ReactOk s' s'.reacting) : Inv s' := by
  refine ⟨hp ▸ h.poller, fun hne => ?_, hok⟩
  exact absurd (h.waiting_idle hr) (hp ▸ hne)

theorem reactStep (h : Inv s) (hs : s.reactStep = some s') : Inv s' := by
  have hok := h.react
  unfold State.reactStep at hs
  split at hs <;> rename_i hr <;> rw [hr] at hok
  · -- the drain starts with room for the whole queue
    rename_i c
    split_ifs at hs; cases hs
    refine h.reacted (by simp [hr]) rfl ?_
    cases c with
    | first t =>
      refine Or.inl ?_
      rw [List.drop_eq_nil_of_le s.ops.queue_length_le]
      simp
    | second => trivial
  · rename_i c
    cases hs
    refine h.reacted (by simp [hr]) rfl ?_
    cases c with
    | first t => exact hok
    | second => trivial
  · rename_i c left
    split at hs <;> cases hs
    next t hd =>
      obtain ⟨op, ops, hq, -, rfl⟩ := processTimerOp_some hd
      refine h.reacted (by simp [hr]) rfl ?_
      cases c with
      | first t => exact hok.imp_left fun ho => by rw [hq] at ho; exact ho
      | second => trivial
    next hd =>
      refine h.reacted (by simp [hr]) rfl ?_
      cases c with
      | first t => exact Or.inl (by rw [processTimerOp_none hd]; simp)
      | second => trivial
  · rename_i c
    cases hs
    refine h.reacted (by simp [hr]) rfl ?_
    cases c with
    | first t => exact hok
    | second => trivial
  · rename_i c now
    cases hs
    refine h.reacted (by simp [hr]) rfl ?_
    cases c with
    | first t => exact hok.imp_left fun ho => ⟨fun k hk => next_covers hk, ho⟩
    | second => trivial
  · cases hs
    refine h.reacted (by simp [hr]) rfl ?_
    exact hok.imp_left fun ha => ⟨fun k hk => minTimeout_covers (ha.1 k hk), ha.2⟩
  · cases hs
    exact h.reacted (by simp [hr]) rfl trivial
  · rename_i now timeout
    obtain ⟨p, hp, rfl⟩ := Option.map_eq_some_iff.1 hs
    have hi := h.waiting_idle (by simp [hr])
    have hw : p.waiting = .setTimer timeout := by
      simp only [Poller.wait, hi, Option.some.injEq] at hp
      rw [← hp]
    refine ⟨h.poller.step (a := .wait timeout) hp, fun _ => ⟨now, timeout, rfl⟩, ?_⟩
    simp only [ReactOk, hw, true_and]
    exact hok.imp_right fun ha => ha.imp_left fun hwk =>
      hwk.step (by simp [hi]) (a := .wait timeout) hp
  · rename_i now timeout
    split at hs
    next hw =>
      obtain ⟨p, hp, rfl⟩ := Option.map_eq_some_iff.1 hs
      refine ⟨h.poller.step (a := .waitRet) hp, by simp [Poller.waitRet_waiting hp], ?_⟩
      dsimp only
      split_ifs <;> trivial
    next hw =>
      obtain ⟨p, hp, rfl⟩ := Option.map_eq_some_iff.1 hs
      exact ⟨h.poller.step (a := .waitRet) hp, by simp [Poller.waitRet_waiting hp], trivial⟩
    next hw =>
      obtain ⟨p, hp, rfl⟩ := Option.map_eq_some_iff.1 hs
      exact ⟨h.poller.step (a := .waitRet) hp, by simp [Poller.waitRet_waiting hp], trivial⟩
    next hw =>
      obtain ⟨p, hp, rfl⟩ := Option.map_eq_some_iff.1 hs
      refine ⟨h.poller.step (a := .waitStep) hp, fun _ => ⟨now, timeout, hr⟩, ?_⟩
      have hstep : s.poller.step .waitStep = some p := hp
      change ReactOk _ s.reacting
      rw [hr]
      unfold Poller.waitStep at hp
      split at hp <;> cases hp <;> rename_i he <;> simp only [ReactOk, he] at hok ⊢
      all_goals
        exact ⟨hok.1, hok.2.imp_right fun ha => ha.imp_left fun hwk =>
          hwk.step (by simp [he]) hstep⟩
  · cases hs
    exact h.reacted (by simp [hr]) rfl trivial
  · split at hs <;> cases hs
    · exact h.reacted (by simp [hr]) rfl trivial
    · refine h.reacted (by simp [hr]) rfl ?_
      change ReactOk _ s.reacting
      rw [hr]; trivial
  · cases hs

theorem step (h : Inv s) {a : Act ι W} (hs : Timers.step s a = some s') : Inv s' := by
  cases a with
  | insertTimer i when waker =>
    simp only [Timers.step, State.insertTimer] at hs
    split at hs <;> cases hs
    next hi => exact Inv.moved (s := { s with idGen := s.idGen + 1 }) { h with } (by simp [hi]) _
  | removeTimer i when id =>
    simp only [Timers.step, State.removeTimer] at hs
    split at hs <;> cases hs
    next hi => exact h.moved (by simp [hi]) _
  | op i => exact h.opStep hs
  | opRet i =>
    simp only [Timers.step, State.opRet] at hs
    split at hs <;> cases hs
    next hi => exact h.moved (by simp [hi]) _
  | react timeout =>
    simp only [Timers.step, State.react] at hs
    split at hs <;> cases hs
    next hr => exact h.reacted (by simp [hr]) rfl trivial
  | next => exact h.reactStep hs
  | leaveEvents =>
    simp only [Timers.step, State.leaveEvents] at hs
    split at hs <;> cases hs
    next hr => exact h.reacted (by simp [hr]) rfl trivial
  | epollReturn report empty =>
    obtain ⟨p, hp, rfl⟩ := Option.map_eq_some_iff.1 hs
    have hw := Poller.epollReturn_waiting hp
    obtain ⟨now, t, hr⟩ := h.waiting (Poller.epollReturn_enabled hp)
    refine ⟨h.poller.step (a := .epollReturn report empty) hp, fun _ => ⟨now, t, hr⟩, ?_⟩
    simp [hr, ReactOk, hw]
  | interrupt =>
    obtain ⟨p, hp, rfl⟩ := Option.map_eq_some_iff.1 hs
    have hw := Poller.interrupt_waiting hp
    obtain ⟨now, t, hr⟩ := h.waiting (Poller.interrupt_enabled hp)
    refine ⟨h.poller.step (a := .interrupt) hp, fun _ => ⟨now, t, hr⟩, ?_⟩
    simp [hr, ReactOk, hw]
  | advance d =>
    cases hs
    exact h.quiet rfl rfl (.of_eq id rfl rfl)

end Inv

theorem inv_reach {C : State ι W → Act ι W → Prop} {now : ℕ} (h : (system now).Reach C s) : Inv s :=
  h.inv (fun _ hs => hs ▸ inv_new now) fun _ _ _ _ hi _ hs => hi.step hs

/-- **The reactor never oversleeps a timer.** While `react` is inside
    `epoll_wait` with a timeout computed at `now`, every timer of the abstract
    map falls due no earlier than the timeout, or the eventfd is readable, or an
    `insert_timer` is between its push and the end of its `notify`, or a
    `Poller::notify` is between its compare-exchange and its write. -/
theorem never_oversleeps {start now : ℕ} {timeout d : Option ℕ}
    (h : (system start).Reachable s) (hr : s.reacting = .wait now timeout)
    (hw : s.poller.waiting = .epollWait d) :
    (∀ k ∈ s.abstract, Covers d now (ofLex k).1) ∨ 0 < s.poller.counter ∨
      (∃ i id, s.calling i = .notify id ∨ s.calling i = .notifying id) ∨
      ∃ i, s.poller.notifying i = .write := by
  have hok := (inv_reach h).react
  rw [hr] at hok
  simp only [ReactOk, hw] at hok
  rcases hok.2 with ⟨ht, hq⟩ | (hc | hn) | ⟨i, id, hi⟩
  · exact Or.inl fun k hk => ht k (mem_foldl_apply hq hk)
  · exact Or.inr (Or.inl hc)
  · exact Or.inr (Or.inr (Or.inr hn))
  · exact Or.inr (Or.inr (Or.inl ⟨i, id, Or.inl hi⟩))

/-- A timer due at `5` is inserted and seen by `react`, then another one, due at
    `3`, is queued while `react` is blocked. -/
def insertBehind : List (Act (Fin 2) ℕ) :=
  [Act.insertTimer 0 5 7, .op 0, .op 0, .op 0, .op 0, .react none] ++ List.replicate 9 Act.next ++
    [Act.epollReturn true true] ++ List.replicate 10 Act.next ++ [Act.react none] ++
    List.replicate 8 Act.next ++ [Act.insertTimer 1 3 8, .op 1]

/-- The wakeup of the second insertion is still to come. -/
theorem never_oversleeps_insert : ∃ s : State (Fin 2) ℕ,
    (system 0).run (.new 0) insertBehind = some s ∧ s.reacting = .wait 0 (some 5) ∧
      s.poller.waiting = .epollWait (some 5) ∧ s.abstract.keys = [toLex (3, 2), toLex (5, 1)] ∧
      s.poller.counter = 0 ∧
      ((∀ k ∈ s.abstract, Covers (some 5) 0 (ofLex k).1) ∨ 0 < s.poller.counter ∨
        (∃ i id, s.calling i = .notify id ∨ s.calling i = .notifying id) ∨
        ∃ i, s.poller.notifying i = .write) := by
  obtain ⟨s, hs, hr, hw, hk, hc⟩ : ∃ s, (system 0).run (.new 0) insertBehind = some s ∧
      s.reacting = .wait 0 (some 5) ∧ s.poller.waiting = .epollWait (some 5) ∧
      s.abstract.keys = [toLex (3, 2), toLex (5, 1)] ∧ s.poller.counter = 0 :=
    Lts.exists_run (by decide +kernel)
  exact ⟨s, hs, hr, hw, hk, hc,
    never_oversleeps (.run (.init rfl) (Lts.meets_true _ insertBehind) hs) hr hw⟩

end Timers
end Awak
