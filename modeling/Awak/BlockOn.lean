/-
  `block_on` of `blocking.rs`: threads that poll a future, park, or serve the
  reactor, and the wakers that call them back.

  A thread runs one `block_on`; the program of the reactor thread is the same
  call of `react` outside `block_on`.  The parker of each `block_on` is a
  `Parking.Inner`, the poller a `Poller`: the steps of these components are
  the steps of the system.  Inside `react` only the call of `Poller::wait` and
  the waking of the collected wakers are visible here; the timeout of `wait`
  and the wakers are arbitrary.

  A waker call is the closure passed to `waker_fn`: `unpark`, then the
  thread-local `IO_POLLING` of the calling thread, then the `io_blocked` of
  the target, then `Reactor::notify`.  A thread calls wakers while it polls,
  while it wakes the wakers of its own `react`, and outside `block_on`.  A
  thread that calls `block_on` again is another index: its flags are as at the
  start.

  * `Inv`: while a thread is inside the poller on behalf of its `block_on`,
    a token delivered to it has a pending wakeup or a waker call that is
    still to notify the poller;
  * `no_lost_wakeup`: a blocked `block_on` with a delivered token is about to
    be unblocked.
-/
import Awak.Parking
import Awak.Poller

namespace Awak.BlockOn

variable {ι : Type}

/-- The call of `react` a thread is in: by the reactor thread, with timeout
    zero after a notification, or with no timeout from the inner loop. -/
inductive Ctx where
  | out
  | zero
  | block
  deriving DecidableEq

/-- The phases of `react`: before `Poller::wait`, inside it, waking the
    collected wakers. -/
inductive Phase where
  | pre
  | wait
  | wake
  deriving DecidableEq

/-- The three calls of `p.park_timeout(0)`: after polling the future, before
    `react(None)` and after it. -/
inductive Site where
  | first
  | inner
  | after
  deriving DecidableEq

/-- The two calls of `p.park()`: at the end of the inner loop, and when the
    reactor lock is taken. -/
inductive ParkSite where
  | loop
  | outer
  deriving DecidableEq

/-- How an iteration of the inner loop ends: with another iteration, with
    `break`, or with `break` after the reactor lock was dropped. -/
inductive Exit where
  | again
  | leave
  | left
  deriving DecidableEq

/-- The places of a thread. -/
inductive Pc where
  | out
  | poll
  | ask (c : Site)
  | check (c : Site)
  | try1
  | setPolling0
  | unpoll0
  | unlock0
  | try2
  | setPolling
  | setBlocked
  | react (x : Ctx) (p : Phase)
  | elapsed
  | dropLock
  | unparkReactor
  | askPark (k : ParkSite)
  | park (k : ParkSite)
  | unpoll (e : Exit)
  | unblock (e : Exit)
  | unlock
  | done
  deriving DecidableEq

/-- A waker call: `unpark` on the target, the load of its `io_blocked`, then
    `Reactor::notify` (also called on its own, with no target). -/
inductive WakerPc (ι : Type) where
  | idle
  | unpark (target : ι)
  | load (target : ι)
  | notify (target : Option ι)
  | notifying (target : Option ι)
  deriving DecidableEq

/-- The poller, the reactor lock, and for each thread its parker, flags, call of `block_on` and
    call of its waker. -/
structure State (ι : Type) where
  poller : Poller ι
  /-- the reactor lock -/
  lock : Option ι
  parker : ι → Parking.Inner ι
  ioPolling : ι → Bool
  ioBlocked : ι → Bool
  pc : ι → Pc
  waking : ι → WakerPc ι

/-- No thread is in `block_on`. -/
def init : State ι where
  poller := .new
  lock := none
  parker _ := .new
  ioPolling _ := false
  ioBlocked _ := false
  pc _ := .out
  waking _ := .idle

/-- The places at which a thread calls wakers. -/
def Pc.calls : Pc → Bool
  | .out | .poll | .react _ .wake | .done => true
  | _ => false

section Steps
variable [DecidableEq ι]

namespace State

/-- Thread `i` goes to `p`. -/
def goto (s : State ι) (i : ι) (p : Pc) : State ι := { s with pc := Function.update s.pc i p }

/-- The parker of `i` becomes `k`. -/
def setParker (s : State ι) (i : ι) (k : Parking.Inner ι) : State ι :=
  { s with parker := Function.update s.parker i k }

/-- The call of a waker by `i` goes to `w`. -/
def setWaking (s : State ι) (i : ι) (w : WakerPc ι) : State ι :=
  { s with waking := Function.update s.waking i w }

/-- `io_polling` of `i` is set to `b`. -/
def setPolling (s : State ι) (i : ι) (b : Bool) : State ι :=
  { s with ioPolling := Function.update s.ioPolling i b }

/-- `io_blocked` of `i` is set to `b`. -/
def setBlocked (s : State ι) (i : ι) (b : Bool) : State ι :=
  { s with ioBlocked := Function.update s.ioBlocked i b }

/-- Try to take the reactor lock. -/
def tryLock (s : State ι) (i : ι) (ok fail : Pc) : State ι :=
  if s.lock = none then { s with lock := some i }.goto i ok else s.goto i fail

/-- Where `park_timeout(0)` leads. -/
def answer : Site → Bool → Pc
  | .first, true => .try1
  | .first, false => .try2
  | .inner, true => .unpoll .leave
  | .inner, false => .react .block .pre
  | .after, true => .unpoll .leave
  | .after, false => .elapsed

/-- The next step of `block_on` on thread `i`, where it is determined. -/
def next (s : State ι) (i : ι) : Option (State ι) :=
  match s.pc i with
  | .ask c => ((s.parker i).park (some 0)).map fun k => (s.setParker i k).goto i (.check c)
  | .check c =>
    match (s.parker i).parking with
    | .ret _ res => (s.parker i).parkRet.map fun k => (s.setParker i k).goto i (answer c res)
    | _ => none
  | .try1 => some (s.tryLock i .setPolling0 .poll)
  | .setPolling0 => some ((s.setPolling i true).goto i (.react .zero .pre))
  | .unpoll0 => some ((s.setPolling i false).goto i .unlock0)
  | .unlock0 => some ({ s with lock := none }.goto i .poll)
  | .try2 => some (s.tryLock i .setPolling (.askPark .outer))
  | .setPolling => some ((s.setPolling i true).goto i .setBlocked)
  | .setBlocked => some ((s.setBlocked i true).goto i (.ask .inner))
  | .dropLock => some ({ s with lock := none }.goto i .unparkReactor)
  | .unparkReactor => some (s.goto i (.askPark .loop))
  | .askPark k => ((s.parker i).park none).map fun q => (s.setParker i q).goto i (.park k)
  | .park k =>
    match (s.parker i).parking with
    | .ret _ _ => (s.parker i).parkRet.map fun q => (s.setParker i q).goto i
        (match k with | .loop => .unpoll .left | .outer => .poll)
    | _ => (s.parker i).parkStep.map fun q => s.setParker i q
  | .unpoll e => some ((s.setPolling i false).goto i (.unblock e))
  | .unblock e => some ((s.setBlocked i false).goto i
      (match e with | .again => .setPolling | .leave => .unlock | .left => .poll))
  | .unlock => some ({ s with lock := none }.goto i .poll)
  | .react x .wait =>
    match s.poller.waiting with
    | .ret _ => s.poller.waitRet.map fun p => { s with poller := p }.goto i (.react x .wake)
    | _ => s.poller.waitStep.map fun p => { s with poller := p }
  | .out | .poll | .react _ .pre | .react _ .wake | .elapsed | .done => none

/-- The next step of the waker call on thread `i`. -/
def wake (s : State ι) (i : ι) : Option (State ι) :=
  match s.waking i with
  | .idle => none
  | .unpark j =>
    match (s.parker j).unparking i with
    | .ret res => ((s.parker j).unparkRet i).map fun k => (s.setParker j k).setWaking i
        (if res && !s.ioPolling i then .load j else .idle)
    | _ => ((s.parker j).unparkStep i).map fun k => s.setParker j k
  | .load j => some (s.setWaking i (if s.ioBlocked j then .notify (some j) else .idle))
  | .notify t => (s.poller.notify i).map fun p => { s with poller := p }.setWaking i (.notifying t)
  | .notifying _ =>
    match s.poller.notifying i with
    | .ret => (s.poller.notifyRet i).map fun p => { s with poller := p }.setWaking i .idle
    | _ => (s.poller.notifyStep i).map fun p => { s with poller := p }

end State

/-- The moves of the threads. -/
inductive Act (ι : Type) where
  /-- call `block_on` -/
  | enter (i : ι)
  /-- the poll of the future returns -/
  | polled (i : ι) (ready : Bool)
  | next (i : ι)
  /-- compare the time spent in the inner loop with its limit -/
  | elapsed (i : ι) (long : Bool)
  /-- the reactor thread takes the reactor lock -/
  | react (i : ι)
  /-- call `Poller::wait` with the timeout computed by `react` -/
  | wait (i : ι) (timeout : Option ℕ)
  | epollReturn (i : ι) (report empty : Bool)
  | interrupt (i : ι)
  /-- all collected wakers are woken, `react` returns -/
  | woken (i : ι)
  /-- a spurious wakeup of the condition variable -/
  | wakeup (i : ι)
  /-- call the waker of `target` -/
  | call (i target : ι)
  /-- call `Reactor::notify`, as `insert_timer` does -/
  | notify (i : ι)
  | wake (i : ι)

/-- One atomic operation of one thread; timeouts and the results of polls are left open. -/
def step (s : State ι) : Act ι → Option (State ι)
  | .enter i => if s.pc i = .out ∧ s.waking i = .idle then some (s.goto i .poll) else none
  | .polled i ready =>
    if s.pc i = .poll ∧ s.waking i = .idle then
      some (s.goto i (if ready then .done else .ask .first))
    else none
  | .next i => if s.waking i = .idle then s.next i else none
  | .elapsed i long =>
    if s.pc i = .elapsed then some (s.goto i (if long then .dropLock else .unpoll .again)) else none
  | .react i =>
    if s.pc i = .out ∧ s.waking i = .idle ∧ s.lock = none then
      some ({ s with lock := some i }.goto i (.react .out .pre))
    else none
  | .wait i timeout =>
    match s.pc i with
    | .react x .pre =>
      if x = .zero → timeout = some 0 then
        (s.poller.wait timeout).map fun p => { s with poller := p }.goto i (.react x .wait)
      else none
    | _ => none
  | .epollReturn i report empty =>
    match s.pc i with
    | .react _ .wait => (s.poller.epollReturn report empty).map fun p => { s with poller := p }
    | _ => none
  | .interrupt i =>
    match s.pc i with
    | .react _ .wait => s.poller.interrupt.map fun p => { s with poller := p }
    | _ => none
  | .woken i =>
    if s.waking i = .idle then
      match s.pc i with
      | .react .out .wake => some ({ s with lock := none }.goto i .out)
      | .react .zero .wake => some (s.goto i .unpoll0)
      | .react .block .wake => some (s.goto i (.ask .after))
      | _ => none
    else none
  | .wakeup i => (s.parker i).wakeup.map fun k => s.setParker i k
  | .call i j =>
    if s.waking i = .idle ∧ (s.pc i).calls then
      ((s.parker j).unpark i).map fun k => (s.setParker j k).setWaking i (.unpark j)
    else none
  | .notify i =>
    if s.waking i = .idle ∧ (s.pc i).calls then some (s.setWaking i (.notify none)) else none
  | .wake i => s.wake i

end Steps

/-- `block_on` on any number of threads. -/
def system [DecidableEq ι] : Lts (State ι) (Act ι) where
  init s := s = init
  step := step

/-! ## The invariant -/

/-- The places at which a thread holds the reactor lock. -/
def Pc.Locked : Pc → Prop
  | .setPolling0 | .unpoll0 | .unlock0 | .setPolling | .setBlocked | .ask .inner | .ask .after
  | .check .inner | .check .after | .react .. | .elapsed | .dropLock | .unpoll .again
  | .unpoll .leave | .unblock .again | .unblock .leave | .unlock => True
  | _ => False

/-- The places at which the `IO_POLLING` of a thread may be set. -/
def Pc.Polling : Pc → Prop
  | .react .zero _ | .react .block _ | .unpoll0 | .setBlocked | .ask .inner | .ask .after
  | .check .inner | .check .after | .elapsed | .dropLock | .unparkReactor | .askPark .loop
  | .park .loop | .unpoll _ => True
  | _ => False

/-- The places at which `io_blocked` is set for the wait in `react(None)`. -/
def Pc.Blocking : Pc → Prop
  | .ask .inner | .check .inner | .react .block _ => True
  | _ => False

/-- Where the parker is when its thread is at a place. -/
def Parked : Pc → Parking.ParkPc → Prop
  | .check _, q => ∃ res, q = .ret (some 0) res
  | .park _, _ => True
  | _, q => q = .idle

/-- A thread can move from one place to another and leave its flags, its parker and
    the reactor lock alone. -/
structure Pc.Leads (p p' : Pc) : Prop where
  wait : ∀ x, p ≠ .react x .wait
  locked : p'.Locked → p.Locked
  polling : p.Polling → p'.Polling
  blocking : p'.Blocking → p.Blocking
  parked : ∀ q, Parked p q → Parked p' q
  inside : p' ≠ .check .inner ∧ p' ≠ .react .block .pre ∧ p' ≠ .react .block .wait

/-- Thread `j` is calling the waker of `i`, has delivered the token and will
    notify the poller. -/
def Carries (s : State ι) (j i : ι) : Prop :=
  (s.waking j = .unpark i ∧ (s.parker i).unparking j = .ret true) ∨ s.waking j = .load i ∨
    s.waking j = .notify (some i)

/-- Thread `i` has looked for a token before `react(None)`, found none, and has
    not left `epoll_wait` since. -/
def Inside (s : State ι) (i : ι) : Prop :=
  (s.pc i = .check .inner ∧ ∃ t, (s.parker i).parking = .ret t false) ∨
    s.pc i = .react .block .pre ∨ (s.pc i = .react .block .wait ∧ s.poller.waiting.Before)

/-- The invariant.  `token` carries the result: a token that the parker of a thread in `block_on`
    holds is announced to the poller, or its announcement is under way. -/
structure Inv (s : State ι) : Prop where
  poller : s.poller.Inv
  parker : ∀ i, Parking.Inv (s.parker i)
  lock : ∀ i, (s.pc i).Locked → s.lock = some i
  waiter : s.poller.waiting ≠ .idle → ∃ i x, s.pc i = .react x .wait
  polling : ∀ i, s.ioPolling i = true → (s.pc i).Polling
  blocked : ∀ i, (s.pc i).Blocking → s.ioBlocked i = true
  parked : ∀ i, Parked (s.pc i) (s.parker i).parking
  unparking : ∀ i j, (s.parker j).unparking i ≠ .idle → s.waking i = .unpark j
  calls : ∀ i, s.waking i ≠ .idle → (s.pc i).calls = true
  token : ∀ i, Inside s i → (s.parker i).state = Parking.NOTIFIED →
    s.poller.Woken ∨ ∃ j, Carries s j i

theorem inv_init : Inv (init : State ι) := by
  refine ⟨Poller.inv_new, fun _ => Parking.inv_new, ?_, ?_, ?_, ?_, ?_, ?_, ?_, ?_⟩ <;>
    simp [init, Pc.Locked, Poller.new, Pc.Blocking, Parked, Parking.Inner.new, Inside]

/-- A step of thread `k` in its own `block_on`: the poller, the waker calls and
    the other threads are as before. -/
structure Frame (k : ι) (s s' : State ι) : Prop where
  poller : s'.poller = s.poller
  waking : s'.waking = s.waking
  pc : ∀ i, i ≠ k → s'.pc i = s.pc i
  parker : ∀ i, i ≠ k → s'.parker i = s.parker i
  polling : ∀ i, i ≠ k → s'.ioPolling i = s.ioPolling i
  blocked : ∀ i, i ≠ k → s'.ioBlocked i = s.ioBlocked i

/-- What the invariant says of one thread. -/
structure Here (s : State ι) (k : ι) : Prop where
  parker : Parking.Inv (s.parker k)
  lock : (s.pc k).Locked → s.lock = some k
  polling : s.ioPolling k = true → (s.pc k).Polling
  blocked : (s.pc k).Blocking → s.ioBlocked k = true
  parked : Parked (s.pc k) (s.parker k).parking
  token : Inside s k → (s.parker k).state = Parking.NOTIFIED →
    s.poller.Woken ∨ ∃ j, Carries s j k

namespace Frame
variable {s s' : State ι} {k : ι}

theorem refl (k : ι) (s : State ι) : Frame k s s :=
  ⟨rfl, rfl, fun _ _ => rfl, fun _ _ => rfl, fun _ _ => rfl, fun _ _ => rfl⟩

theorem lock (h : Frame k s s') (l : Option ι) : Frame k s { s' with lock := l } := { h with }

variable [DecidableEq ι]

theorem goto (h : Frame k s s') (p : Pc) : Frame k s (s'.goto k p) :=
  { h with pc := fun i hi => by simpa [State.goto, hi] using h.pc i hi }

theorem setParker (h : Frame k s s') (q : Parking.Inner ι) : Frame k s (s'.setParker k q) :=
  { h with parker := fun i hi => by simpa [State.setParker, hi] using h.parker i hi }

theorem setPolling (h : Frame k s s') (b : Bool) : Frame k s (s'.setPolling k b) :=
  { h with polling := fun i hi => by simpa [State.setPolling, hi] using h.polling i hi }

theorem setBlocked (h : Frame k s s') (b : Bool) : Frame k s (s'.setBlocked k b) :=
  { h with blocked := fun i hi => by simpa [State.setBlocked, hi] using h.blocked i hi }

end Frame

theorem State.poller_goto [DecidableEq ι] {s : State ι} {k : ι} {c : Pc} (hpc : s.pc k = c)
    (p : Poller ι) : { s with poller := p } = { s with poller := p }.goto k c := by
  simp [State.goto, ← hpc]

namespace Inv
variable {s s' : State ι} {k : ι}

/-- Only one thread holds the reactor lock. -/
theorem not_locked (h : Inv s) (hk : s.lock = none ∨ s.lock = some k) {i : ι} (hi : i ≠ k) :
    ¬ (s.pc i).Locked := by
  intro hl
  have := h.lock i hl
  rcases hk with hk | hk <;> rw [hk] at this <;> simp_all

/-- A thread at a place without waker calls is in none. -/
theorem waking_idle (h : Inv s) (hk : (s.pc k).calls = false) : s.waking k = .idle := by
  by_contra hne
  simp [h.calls k hne] at hk

/-- A step of thread `k` in its own `block_on`, not inside `Poller::wait`. -/
theorem move (h : Inv s) (hw : s.waking k = .idle) (hn : ∀ x, s.pc k ≠ .react x .wait)
    (hf : Frame k s s') (hl : s'.lock = s.lock ∨ s.lock = none ∨ s.lock = some k)
    (hu : (s'.parker k).unparking = (s.parker k).unparking) (hk : Here s' k) : Inv s' := by
  have hpu : ∀ i, (s'.parker i).unparking = (s.parker i).unparking := by
    intro i
    by_cases hi : i = k
    · subst hi; exact hu
    · rw [hf.parker i hi]
  refine ⟨hf.poller ▸ h.poller, fun i => ?_, fun i => ?_, fun hi => ?_, fun i => ?_, fun i => ?_,
    fun i => ?_, fun i j => ?_, fun i => ?_, fun i => ?_⟩
  · by_cases hi : i = k
    · subst hi; exact hk.parker
    · rw [hf.parker i hi]; exact h.parker i
  · by_cases hi : i = k
    · subst hi; exact hk.lock
    · rw [hf.pc i hi]
      intro hli
      rcases hl with hl | hl
      · rw [hl]; exact h.lock i hli
      · exact absurd hli (h.not_locked hl hi)
  · rw [hf.poller] at hi
    obtain ⟨i, x, hx⟩ := h.waiter hi
    have hik : i ≠ k := by rintro rfl; exact hn x hx
    exact ⟨i, x, by rw [hf.pc i hik, hx]⟩
  · by_cases hi : i = k
    · subst hi; exact hk.polling
    · rw [hf.polling i hi, hf.pc i hi]; exact h.polling i
  · by_cases hi : i = k
    · subst hi; exact hk.blocked
    · rw [hf.blocked i hi, hf.pc i hi]; exact h.blocked i
  · by_cases hi : i = k
    · subst hi; exact hk.parked
    · rw [hf.parker i hi, hf.pc i hi]; exact h.parked i
  · rw [hpu j, hf.waking]; exact h.unparking i j
  · rw [hf.waking]
    by_cases hi : i = k
    · subst hi; exact fun hne => absurd hw hne
    · rw [hf.pc i hi]; exact h.calls i
  · by_cases hi : i = k
    · subst hi; exact hk.token
    · intro hin hst
      rw [hf.parker i hi] at hst
      have hin' : Inside s i := by simpa [Inside, hf.pc i hi, hf.parker i hi, hf.poller] using hin
      rw [hf.poller]
      exact (h.token i hin' hst).imp_right fun ⟨j, hj⟩ => ⟨j, by
        simpa [Carries, hf.waking, hf.parker i hi] using hj⟩

/-- A step of thread `k` that leaves its parker alone and does not end its look
    for a token before `react(None)`. -/
theorem flags (h : Inv s) (hw : s.waking k = .idle) (hn : ∀ x, s.pc k ≠ .react x .wait)
    (hf : Frame k s s') (hl : s'.lock = s.lock ∨ s.lock = none ∨ s.lock = some k)
    (hpk : s'.parker k = s.parker k) (hlk : (s'.pc k).Locked → s'.lock = some k)
    (hpo : s'.ioPolling k = true → (s'.pc k).Polling)
    (hbl : (s'.pc k).Blocking → s'.ioBlocked k = true)
    (hq : Parked (s'.pc k) (s.parker k).parking)
    (hin : s'.pc k ≠ .check .inner ∧ s'.pc k ≠ .react .block .pre ∧
      s'.pc k ≠ .react .block .wait) : Inv s' :=
  h.move hw hn hf hl (by rw [hpk])
    ⟨hpk ▸ h.parker k, hlk, hpo, hbl, hpk ▸ hq, fun hi => by simp [Inside, hin] at hi⟩

/-- A step of thread `k` that only moves it. -/
theorem leads [DecidableEq ι] (h : Inv s) (hw : s.waking k = .idle) {p p' : Pc} (hpc : s.pc k = p)
    (hp : p.Leads p') : Inv (s.goto k p') := by
  have hgoto : (s.goto k p').pc k = p' := Function.update_self _ _ _
  refine h.flags hw ?_ ((Frame.refl k s).goto _) (Or.inl rfl) rfl ?_ ?_ ?_ ?_ ?_ <;>
    (try rw [hgoto])
  · rw [hpc]
    exact hp.wait
  · intro hl
    exact h.lock k (hpc ▸ hp.locked hl)
  · intro hpo
    exact hp.polling (hpc ▸ h.polling k hpo)
  · intro hb
    exact h.blocked k (hpc ▸ hp.blocking hb)
  · exact hp.parked _ (hpc ▸ h.parked k)
  · exact hp.inside

/-- No thread is inside `Poller::wait` while another place holds the lock. -/
theorem waiting_idle (h : Inv s) (hl : s.lock = some k) (hk : ∀ x, s.pc k ≠ .react x .wait) :
    s.poller.waiting = .idle := by
  by_contra hne
  obtain ⟨i, x, hx⟩ := h.waiter hne
  have hi := h.lock i (by rw [hx]; trivial)
  rw [hl] at hi; cases hi
  exact hk x hx

/-- While a thread is inside, `epoll_wait` has not returned. -/
theorem inside_waiting (h : Inv s) {i : ι} (hin : Inside s i) :
    s.poller.waiting = .idle ∨ s.poller.waiting.Before := by
  rcases hin with ⟨hp, -⟩ | hp | ⟨-, hb⟩
  · exact Or.inl (h.waiting_idle (h.lock i (by rw [hp]; trivial)) (by simp [hp]))
  · exact Or.inl (h.waiting_idle (h.lock i (by rw [hp]; trivial)) (by simp [hp]))
  · exact Or.inr hb

theorem inside_locked (h : Inv s) {i : ι} (hin : Inside s i) : s.lock = some i := by
  rcases hin with ⟨hp, -⟩ | hp | ⟨hp, -⟩ <;> exact h.lock i (by rw [hp]; trivial)

/-- A thread inside is not calling a waker. -/
theorem inside_idle (h : Inv s) {i : ι} (hin : Inside s i) : s.waking i = .idle := by
  apply h.waking_idle
  rcases hin with ⟨hp, -⟩ | hp | ⟨hp, -⟩ <;> rw [hp] <;> rfl

/-- The parker of a thread inside is not parked. -/
theorem inside_state (h : Inv s) {i : ι} (hin : Inside s i) :
    (s.parker i).state = Parking.EMPTY ∨ (s.parker i).state = Parking.NOTIFIED := by
  have hk := h.parked i; have hp := (h.parker i).park
  rcases hin with ⟨hpc, t, ht⟩ | hpc | ⟨hpc, -⟩
  · rw [ht] at hp; exact hp.1
  all_goals rw [hpc] at hk; rw [show (s.parker i).parking = .idle from hk] at hp; exact hp.1

/-- A thread that calls wakers with `IO_POLLING` set holds the reactor lock, so
    its target is not inside. -/
theorem polling_not_inside (h : Inv s) (hp : s.ioPolling k = true) (hw : s.waking k ≠ .idle)
    {i : ι} : ¬ Inside s i := by
  intro hin
  have hpo := h.polling k hp
  have hlk : s.lock = some k := by
    apply h.lock k
    have := h.calls k hw
    cases hpc : s.pc k <;> simp_all [Pc.Polling, Pc.calls, Pc.Locked]
  have hik : i = k := by simpa [h.inside_locked hin] using hlk
  exact hw (hik ▸ h.inside_idle hin)

variable [DecidableEq ι]

/-- The answer of `park_timeout(0)` is taken. -/
theorem answered (h : Inv s) (hw : s.waking k = .idle) {c : Site} (hpc : s.pc k = .check c)
    {t : Option ℕ} {res : Bool} (hr : (s.parker k).parking = .ret t res) {q : Parking.Inner ι}
    (hq : (s.parker k).parkRet = some q) :
    Inv ((s.setParker k q).goto k (State.answer c res)) := by
  obtain ⟨hu, hst, hi⟩ := Parking.Inner.parkRet_frame hq
  have hlk := h.lock k; have hpo := h.polling k; have hbl := h.blocked k; have htk := h.token k
  rw [hpc] at hlk hpo hbl
  refine h.move hw (by simp [hpc]) (((Frame.refl k s).setParker q).goto _) (Or.inl rfl)
    (by simpa [State.goto, State.setParker] using hu) ⟨?_, ?_, ?_, ?_, ?_, ?_⟩ <;>
    simp only [State.goto, State.setParker, Function.update_self]
  · exact (h.parker k).parkRet hq
  · cases c <;> cases res <;> simp_all [State.answer, Pc.Locked]
  · cases c <;> cases res <;> simp_all [State.answer, Pc.Polling]
  · cases c <;> cases res <;> simp_all [State.answer, Pc.Blocking]
  · cases c <;> cases res <;> simp_all [State.answer, Parked]
  · -- entering `react(None)`: the token came after the look
    intro hin hn
    rw [hst] at hn
    have hin' : Inside s k := by
      cases c <;> cases res <;> simp_all [Inside, State.answer]
    exact (htk hin' hn).imp_right fun ⟨j, hj⟩ => ⟨j, by
      simpa [Carries, hu] using hj⟩

/-- A call of `park_timeout(0)`. -/
theorem asked (h : Inv s) (hw : s.waking k = .idle) {c : Site} (hpc : s.pc k = .ask c)
    {q : Parking.Inner ι} (hq : (s.parker k).park (some 0) = some q) :
    Inv ((s.setParker k q).goto k (.check c)) := by
  obtain ⟨res, hr, hn⟩ := Parking.Inner.park_zero hq
  have hu := Parking.Inner.park_unparking hq
  have hlk := h.lock k; have hpo := h.polling k; have hbl := h.blocked k
  rw [hpc] at hlk hpo hbl
  refine h.move hw (by simp [hpc]) (((Frame.refl k s).setParker q).goto _) (Or.inl rfl)
    (by simpa [State.goto, State.setParker] using hu) ⟨?_, ?_, ?_, ?_, ?_, ?_⟩ <;>
    simp only [State.goto, State.setParker, Function.update_self]
  · exact (h.parker k).parkCall hq
  · cases c <;> simp_all [Pc.Locked]
  · cases c <;> simp_all [Pc.Polling]
  · cases c <;> simp_all [Pc.Blocking]
  · exact ⟨res, hr⟩
  · -- a token found there is taken
    intro hin hst
    cases res
    · exact absurd hst (hn rfl)
    · simp [Inside, hr] at hin

/-- A step of `p.park()`, which leaves the thread at one of the places around it. -/
theorem parks (h : Inv s) (hw : s.waking k = .idle) {p : Pc} {q : Parking.Inner ι}
    (hpc : ∃ c, s.pc k = .askPark c ∧ p = .park c ∨ s.pc k = .park c ∧
      (p = .park c ∨ q.parking = .idle ∧ (c = .loop ∧ p = .unpoll .left ∨ c = .outer ∧ p = .poll)))
    (hq : Parking.Inv q) (hu : q.unparking = (s.parker k).unparking) :
    Inv ((s.setParker k q).goto k p) := by
  have hpo := h.polling k
  have hn : ∀ x, s.pc k ≠ .react x .wait := by
    obtain ⟨c, ⟨hc, -⟩ | ⟨hc, -⟩⟩ := hpc <;> simp [hc]
  refine h.move hw hn (((Frame.refl k s).setParker q).goto _) (Or.inl rfl)
    (by simpa [State.goto, State.setParker] using hu) ⟨?_, ?_, ?_, ?_, ?_, ?_⟩ <;>
    simp only [State.goto, State.setParker, Function.update_self]
  · exact hq
  all_goals
    obtain ⟨c, ⟨hc, rfl⟩ | ⟨hc, rfl | ⟨hqi, ⟨rfl, rfl⟩ | ⟨rfl, rfl⟩⟩⟩⟩ := hpc <;> rw [hc] at hpo <;>
      (try cases c) <;> simp_all [Pc.Locked, Pc.Polling, Pc.Blocking, Parked, Inside]

/-- A step into `Poller::wait`, inside it, or out of it, by the thread that
    holds the reactor lock. -/
theorem waits (h : Inv s) {x : Ctx} {ph ph' : Phase} (hpc : s.pc k = .react x ph)
    (hph : ph ≠ .wake) (hph' : ph' ≠ .pre) {a : Poller.Act ι} {p : Poller ι}
    (hs : s.poller.step a = some p) (hi : p.waiting ≠ .idle → ph' = .wait)
    (hb : p.waiting.Before → ph = .pre ∨ ph = .wait ∧ s.poller.waiting.Before) :
    Inv ({ s with poller := p }.goto k (.react x ph')) := by
  have hl : s.lock = some k := h.lock k (by rw [hpc]; trivial)
  have hw : s.waking k = .idle :=
    h.waking_idle (by rw [hpc]; cases ph <;> simp_all [Pc.calls])
  have hpo := h.polling k; have hbl := h.blocked k; have hpk := h.parked k; have htk := h.token k
  rw [hpc] at hpo hbl hpk
  -- the other threads do not hold the lock
  have hothers : ∀ i, i ≠ k → ¬ (s.pc i).Locked := fun i => h.not_locked (Or.inr hl)
  have hgo : ∀ i, i ≠ k → ({ s with poller := p }.goto k (.react x ph')).pc i = s.pc i := by
    intro i hik; simp [State.goto, hik]
  refine ⟨h.poller.step hs, h.parker, fun i => ?_, fun hne => ⟨k, x, ?_⟩, fun i => ?_, fun i => ?_,
    fun i => ?_, h.unparking, fun i => ?_, fun i => ?_⟩
  · by_cases hik : i = k
    · subst hik; exact fun _ => hl
    · rw [hgo i hik]; exact fun hli => absurd hli (hothers i hik)
  · simp [State.goto, hi hne]
  · by_cases hik : i = k
    · subst hik; intro hp; have := hpo hp; cases x <;> simp_all [State.goto, Pc.Polling]
    · rw [hgo i hik]; exact h.polling i
  · by_cases hik : i = k
    · subst hik; intro hp
      exact hbl (by cases x <;> simp_all [State.goto, Pc.Blocking])
    · rw [hgo i hik]; exact h.blocked i
  · by_cases hik : i = k
    · subst hik; simpa [State.goto, Parked] using hpk
    · rw [hgo i hik]; exact h.parked i
  · by_cases hik : i = k
    · subst hik; exact fun hne => absurd hw hne
    · rw [hgo i hik]; exact h.calls i
  · by_cases hik : i = k
    · subst hik
      intro hin hst
      have hbef : x = .block ∧ p.waiting.Before := by
        cases x <;> cases ph' <;> simp_all [Inside, State.goto]
      obtain ⟨rfl, hbef⟩ := hbef
      have hin' : Inside s i := by
        rcases hb hbef with rfl | ⟨rfl, hb'⟩
        · exact Or.inr (Or.inl hpc)
        · exact Or.inr (Or.inr ⟨hpc, hb'⟩)
      have hr : ∀ empty, s.poller.waiting ≠ .read empty := by
        intro empty he
        rcases hb hbef with rfl | ⟨rfl, hb'⟩
        · rw [h.waiting_idle hl (by simp [hpc])] at he; cases he
        · rw [he] at hb'; exact hb'
      exact (htk hin' hst).imp_left fun hwk => hwk.step hr hs
    · intro hin
      have : (s.pc i).Locked := by
        rcases hin with ⟨hp, -⟩ | hp | ⟨hp, -⟩ <;> rw [hgo i hik] at hp <;> rw [hp] <;> trivial
      exact absurd this (hothers i hik)

/-! ### Waker calls -/

variable {j : ι} {q : Parking.Inner ι}

theorem unparking_set (h : Inv s) {u : Parking.UnparkPc} {w : WakerPc ι}
    (hq : q.unparking = Function.update (s.parker j).unparking k u)
    (hw : s.waking k = .idle ∨ s.waking k = .unpark j) (hu : u ≠ .idle → w = .unpark j) (i m : ι)
    (hne : (((s.setParker j q).setWaking k w).parker m).unparking i ≠ .idle) :
    ((s.setParker j q).setWaking k w).waking i = .unpark m := by
  simp only [State.setWaking, State.setParker] at hne ⊢
  by_cases hm : m = j
  · subst hm
    rw [Function.update_self, hq] at hne
    by_cases hi : i = k
    · subst hi; simpa using hu (by simpa using hne)
    · rw [Function.update_of_ne hi] at hne ⊢; exact h.unparking i m hne
  · rw [Function.update_of_ne hm] at hne
    have := h.unparking i m hne
    by_cases hi : i = k
    · subst hi; rw [this] at hw; simp_all
    · rw [Function.update_of_ne hi]; exact this

theorem parker_set (h : Inv s) (hq : Parking.Inv q) (i : ι) :
    Parking.Inv ((s.setParker j q).parker i) := by
  by_cases hi : i = j
  · subst hi; simpa [State.setParker] using hq
  · simpa [State.setParker, hi] using h.parker i

theorem parked_set (h : Inv s) (hq : q.parking = (s.parker j).parking ∨
    ∃ t woken, (s.parker j).parking = .waiting t woken) (i : ι) :
    Parked (s.pc i) ((s.setParker j q).parker i).parking := by
  have hk := h.parked i
  by_cases hi : i = j
  · subst hi
    simp only [State.setParker, Function.update_self]
    rcases hq with hq | ⟨t, w, hq⟩
    · rw [hq]; exact hk
    · rw [hq] at hk; cases hp : s.pc i <;> simp_all [Parked]
  · simpa [State.setParker, hi] using hk

theorem calls_set (h : Inv s) {w : WakerPc ι} (hc : (s.pc k).calls = true) (i : ι)
    (hne : (s.setWaking k w).waking i ≠ .idle) : (s.pc i).calls = true := by
  by_cases hi : i = k
  · subst hi; exact hc
  · exact h.calls i (by simpa [State.setWaking, hi] using hne)

/-- A step of a waker call on `j` leaves the looks for a token as they were. -/
theorem inside_set (h : Inv s) (hq : q.parking = (s.parker j).parking ∨
    ∃ t woken, (s.parker j).parking = .waiting t woken) {w : WakerPc ι} {i : ι}
    (hin : Inside ((s.setParker j q).setWaking k w) i) : Inside s i := by
  by_cases hi : i = j
  · subst hi
    have hk := h.parked i
    rcases hq with hq | ⟨t, woken, hq⟩
    · simpa [Inside, State.setWaking, State.setParker, hq] using hin
    · rcases hin with ⟨hp, -⟩ | hin
      · change s.pc i = _ at hp
        rw [hp, hq] at hk
        simp [Parked] at hk
      · exact Or.inr hin
  · simpa [Inside, State.setWaking, State.setParker, hi] using hin

/-- The waker calls of the other threads carry what they carried. -/
theorem carries_set {u : Parking.UnparkPc} {w : WakerPc ι} {i m : ι}
    (hq : q.unparking = Function.update (s.parker j).unparking k u) (hm : m ≠ k)
    (hc : Carries s m i) : Carries ((s.setParker j q).setWaking k w) m i := by
  by_cases hi : i = j
  · subst hi; simpa [Carries, State.setWaking, State.setParker, hm, hq] using hc
  · simpa [Carries, State.setWaking, State.setParker, hm, hi] using hc

/-- The first step of a waker call delivers the token. -/
theorem called (h : Inv s) (hw : s.waking k = .idle) (hc : (s.pc k).calls = true)
    (hq : (s.parker j).unpark k = some q) :
    Inv ((s.setParker j q).setWaking k (.unpark j)) := by
  obtain ⟨hpk, u, hun, he⟩ := Parking.Inner.unpark_frame hq
  refine { h with
    parker := h.parker_set ((h.parker j).unparkCall hq)
    parked := h.parked_set (Or.inl hpk)
    unparking := h.unparking_set hun (Or.inl hw) fun _ => rfl
    calls := fun i => h.calls_set hc i
    token := fun i hin hst => ?_ }
  have hin' := h.inside_set (Or.inl hpk) hin
  -- a waker call carrying a token is another thread's
  have hcar : ∀ m, Carries s m i → Carries ((s.setParker j q).setWaking k (.unpark j)) m i := by
    intro m hm
    exact carries_set hun (by rintro rfl; simp [Carries, hw] at hm) hm
  by_cases hi : i = j
  · subst hi
    rcases h.inside_state hin' with hE | hN
    · refine Or.inr ⟨k, Or.inl ⟨by simp [State.setWaking], ?_⟩⟩
      simp [State.setWaking, State.setParker, hun, he hE]
    · exact (h.token i hin' hN).imp_right fun ⟨m, hm⟩ => ⟨m, hcar m hm⟩
  · refine (h.token i hin' ?_).imp_right fun ⟨m, hm⟩ => ⟨m, hcar m hm⟩
    simpa [State.setWaking, State.setParker, hi] using hst

/-- A step inside `unpark`. -/
theorem stepped (h : Inv s) (hw : s.waking k = .unpark j)
    (hq : (s.parker j).unparkStep k = some q) : Inv (s.setParker j q) := by
  obtain ⟨hret, hst', hpk, u, hun⟩ := Parking.Inner.unparkStep_frame hq
  have heq : s.setParker j q = (s.setParker j q).setWaking k (.unpark j) := by
    simp [State.setWaking, State.setParker, ← hw]
  rw [heq]
  refine { h with
    parker := h.parker_set ((h.parker j).unparkStep hq)
    parked := h.parked_set hpk
    unparking := h.unparking_set hun (Or.inr hw) fun _ => rfl
    calls := fun i => h.calls_set (h.calls k (by simp [hw])) i
    token := fun i hin hst => ?_ }
  have hst : (s.parker i).state = Parking.NOTIFIED := by
    by_cases hi : i = j
    · subst hi; simpa [State.setWaking, State.setParker, hst'] using hst
    · simpa [State.setWaking, State.setParker, hi] using hst
  refine (h.token i (h.inside_set hpk hin) hst).imp_right fun ⟨m, hm⟩ => ⟨m, ?_⟩
  refine carries_set hun ?_ hm
  rintro rfl
  rcases hm with ⟨hm, hr⟩ | hm | hm <;> rw [hw] at hm <;> cases hm
  exact hret _ hr

/-- `unpark` returns: the call goes on with `io_blocked` if a token was
    delivered and this thread is not polling. -/
theorem unparked (h : Inv s) (hw : s.waking k = .unpark j) {res : Bool}
    (hr : (s.parker j).unparking k = .ret res) (hq : (s.parker j).unparkRet k = some q) :
    Inv ((s.setParker j q).setWaking k
      (if res && !s.ioPolling k then .load j else .idle)) := by
  obtain ⟨hst', hpk, hun⟩ := Parking.Inner.unparkRet_frame hq
  have hw' : s.waking k ≠ .idle := by simp [hw]
  refine { h with
    parker := h.parker_set ((h.parker j).unparkRet hq)
    parked := h.parked_set (Or.inl hpk)
    unparking := h.unparking_set hun (Or.inr hw) fun hne => absurd rfl hne
    calls := fun i => h.calls_set (h.calls k hw') i
    token := fun i hin hst => ?_ }
  have hst : (s.parker i).state = Parking.NOTIFIED := by
    by_cases hi : i = j
    · subst hi; simpa [State.setWaking, State.setParker, hst'] using hst
    · simpa [State.setWaking, State.setParker, hi] using hst
  have hin' := h.inside_set (Or.inl hpk) hin
  refine (h.token i hin' hst).imp_right fun ⟨m, hm⟩ => ⟨m, ?_⟩
  by_cases hmk : m = k
  · subst hmk
    have hnp : s.ioPolling m = false := by
      cases hp : s.ioPolling m
      · rfl
      · exact absurd hin' (h.polling_not_inside hp hw')
    rcases hm with ⟨hm, ht⟩ | hm | hm <;> rw [hw] at hm <;> cases hm
    rw [hr] at ht; cases ht
    exact Or.inr (Or.inl (by simp [State.setWaking, hnp]))
  · exact carries_set hun hmk hm

/-- A step of a waker call after `unpark`. -/
theorem carried (h : Inv s) (hk : (s.pc k).calls = true) (hnu : ∀ i, s.waking k ≠ .unpark i)
    {w : WakerPc ι} (hc : ∀ i, Inside s i → Carries s k i → w = .notify (some i)) :
    Inv (s.setWaking k w) := by
  refine { h with
    unparking := fun i m hne => ?_
    calls := fun i => h.calls_set hk i
    token := fun i hin hst => ?_ }
  · have := h.unparking i m hne
    have hik : i ≠ k := by rintro rfl; exact hnu m this
    simpa [State.setWaking, hik] using this
  · have hin' : Inside s i := hin
    refine (h.token i hin' hst).imp_right fun ⟨m, hm⟩ => ⟨m, ?_⟩
    by_cases hmk : m = k
    · subst hmk
      exact Or.inr (Or.inr (by simp [State.setWaking, hc i hin' hm]))
    · simpa [Carries, State.setWaking, hmk] using hm

/-- A step of `Poller::notify`; its first step leaves a pending wakeup. -/
theorem notified (h : Inv s) (hk : (s.pc k).calls = true) (hnu : ∀ i, s.waking k ≠ .unpark i)
    {a : Poller.Act ι} {p : Poller ι} (hs : s.poller.step a = some p)
    (hwait : p.waiting = s.poller.waiting) {w : WakerPc ι}
    (hc : ∀ i, Inside s i → Carries s k i → p.Woken) :
    Inv ({ s with poller := p }.setWaking k w) := by
  refine { h with
    poller := h.poller.step hs
    waiter := fun hne => h.waiter (hwait ▸ hne)
    unparking := fun i m hne => ?_
    calls := fun i => h.calls_set hk i
    token := fun i hin hst => ?_ }
  · have := h.unparking i m hne
    have hik : i ≠ k := by rintro rfl; exact hnu m this
    simpa [State.setWaking, hik] using this
  · have hin' : Inside s i := by simpa [Inside, State.setWaking, hwait] using hin
    have hr : ∀ empty, s.poller.waiting ≠ .read empty := by
      intro empty he
      have := h.inside_waiting hin'
      simp [he, WaitPc.Before] at this
    rcases h.token i hin' hst with hwk | ⟨m, hm⟩
    · exact Or.inl (hwk.step hr hs)
    · by_cases hmk : m = k
      · subst hmk; exact Or.inl (hc i hin' hm)
      · exact Or.inr ⟨m, by simpa [Carries, State.setWaking, hmk] using hm⟩

/-- Every step of a waker call keeps the invariant. -/
theorem wake (h : Inv s) (hs : s.wake k = some s') : Inv s' := by
  unfold State.wake at hs
  split at hs
  · cases hs
  next j hw =>
    split at hs
    next res hr =>
      obtain ⟨q, hq, rfl⟩ := Option.map_eq_some_iff.1 hs
      exact h.unparked hw hr hq
    next =>
      obtain ⟨q, hq, rfl⟩ := Option.map_eq_some_iff.1 hs
      exact h.stepped hw hq
  next j hw =>
    cases hs
    refine h.carried (h.calls k (by simp [hw])) (by simp [hw]) fun i hin hc => ?_
    have hij : i = j := by rcases hc with ⟨hc, -⟩ | hc | hc <;> rw [hw] at hc <;> cases hc; rfl
    subst hij
    have hb : s.ioBlocked i = true := by
      apply h.blocked i
      rcases hin with ⟨hp, -⟩ | hp | ⟨hp, -⟩ <;> rw [hp] <;> trivial
    simp [hb]
  next t hw =>
    obtain ⟨p, hp, rfl⟩ := Option.map_eq_some_iff.1 hs
    refine h.notified (h.calls k (by simp [hw])) (by simp [hw]) (a := .notify k) hp
      (Poller.notify_waiting hp) fun i hin _ => h.poller.notify_woken ?_ hp
    rcases h.inside_waiting hin with hi | hi
    · rw [hi]; exact id
    · cases hwt : s.poller.waiting <;> simp_all [WaitPc.Past, WaitPc.Before]
  next t hw =>
    have hnc : ∀ i, ¬ Carries s k i := by intro i hc; simp [Carries, hw] at hc
    split at hs
    next hr =>
      obtain ⟨p, hp, rfl⟩ := Option.map_eq_some_iff.1 hs
      exact h.notified (h.calls k (by simp [hw])) (by simp [hw]) (a := .notifyRet k) hp
        (Poller.notifyRet_waiting hp) fun i _ hc => absurd hc (hnc i)
    next =>
      obtain ⟨p, hp, rfl⟩ := Option.map_eq_some_iff.1 hs
      have heq : { s with poller := p } = { s with poller := p }.setWaking k (.notifying t) := by
        simp [State.setWaking, ← hw]
      rw [heq]
      exact h.notified (h.calls k (by simp [hw])) (by simp [hw]) (a := .notifyStep k) hp
        (Poller.notifyStep_waiting hp) fun i _ hc => absurd hc (hnc i)

/-- Every step of `block_on` on its own thread keeps the invariant. -/
theorem next (h : Inv s) (hw : s.waking k = .idle) (hs : s.next k = some s') : Inv s' := by
  have hlk := h.lock k; have hpo := h.polling k; have hbl := h.blocked k; have hpk := h.parked k
  have hfr := Frame.refl k s
  unfold State.next at hs
  split at hs <;> rename_i hpc
  -- the two calls of the parker
  case h_1 c =>
    obtain ⟨q, hq, rfl⟩ := Option.map_eq_some_iff.1 hs
    exact h.asked hw hpc hq
  case h_2 c =>
    split at hs
    next hr =>
      obtain ⟨q, hq, rfl⟩ := Option.map_eq_some_iff.1 hs
      exact h.answered hw hpc hr hq
    next => cases hs
  case h_12 c =>
    obtain ⟨q, hq, rfl⟩ := Option.map_eq_some_iff.1 hs
    exact h.parks hw ⟨c, Or.inl ⟨hpc, rfl⟩⟩ ((h.parker k).parkCall hq)
      (Parking.Inner.park_unparking hq)
  case h_13 c =>
    split at hs
    next hr =>
      obtain ⟨q, hq, rfl⟩ := Option.map_eq_some_iff.1 hs
      obtain ⟨hu, -, hi⟩ := Parking.Inner.parkRet_frame hq
      refine h.parks hw ⟨c, Or.inr ⟨hpc, Or.inr ⟨hi, ?_⟩⟩⟩ ((h.parker k).parkRet hq) hu
      cases c
      · exact Or.inl ⟨rfl, rfl⟩
      · exact Or.inr ⟨rfl, rfl⟩
    next =>
      obtain ⟨q, hq, rfl⟩ := Option.map_eq_some_iff.1 hs
      have heq : s.setParker k q = (s.setParker k q).goto k (.park c) := by
        simp [State.goto, State.setParker, ← hpc]
      rw [heq]
      exact h.parks hw ⟨c, Or.inr ⟨hpc, Or.inl rfl⟩⟩ ((h.parker k).parkStep hq)
        (Parking.Inner.parkStep_unparking hq)
  -- inside `Poller::wait`
  case h_17 x =>
    split at hs
    next hr =>
      obtain ⟨p, hp, rfl⟩ := Option.map_eq_some_iff.1 hs
      have hi := Poller.waitRet_waiting hp
      exact h.waits hpc (by simp) (by simp) (a := .waitRet) hp (by simp [hi])
        (by simp [hi, WaitPc.Before])
    next =>
      obtain ⟨p, hp, rfl⟩ := Option.map_eq_some_iff.1 hs
      rw [State.poller_goto hpc]
      exact h.waits hpc (by simp) (by simp) (a := .waitStep) hp (fun _ => rfl)
        fun hb => Or.inr ⟨rfl, Poller.waitStep_before hp hb⟩
  case h_18 | h_19 | h_20 | h_21 | h_22 | h_23 => cases hs
  -- the attempts to take the reactor lock
  case h_3 | h_7 =>
    cases hs
    unfold State.tryLock
    rw [hpc] at hpo hpk
    split_ifs with hl
    · refine h.flags hw (by simp [hpc]) ((hfr.lock _).goto _) (Or.inr (Or.inl hl)) rfl ?_ ?_ ?_ ?_ ?_
        <;> simp_all [State.goto, Pc.Locked, Pc.Polling, Pc.Blocking, Parked]
    · refine h.leads hw hpc ?_
      constructor <;> simp [Pc.Locked, Pc.Polling, Pc.Blocking, Parked]
  -- the flags of the thread, and the release of the lock
  all_goals
    cases hs
    rw [hpc] at hlk hpo hbl hpk
  case h_4 | h_5 | h_8 =>
    refine h.flags hw (by simp [hpc]) ((hfr.setPolling _).goto _) (Or.inl rfl) rfl ?_ ?_ ?_ ?_ ?_ <;>
      simp_all [State.goto, State.setPolling, Pc.Locked, Pc.Polling, Pc.Blocking, Parked]
  case h_14 e =>
    refine h.flags hw (by simp [hpc]) ((hfr.setPolling _).goto _) (Or.inl rfl) rfl ?_ ?_ ?_ ?_ ?_ <;>
      cases e <;>
        simp_all [State.goto, State.setPolling, Pc.Locked, Pc.Polling, Pc.Blocking, Parked]
  case h_9 =>
    refine h.flags hw (by simp [hpc]) ((hfr.setBlocked _).goto _) (Or.inl rfl) rfl ?_ ?_ ?_ ?_ ?_ <;>
      simp_all [State.goto, State.setBlocked, Pc.Locked, Pc.Polling, Pc.Blocking, Parked]
  case h_15 e =>
    refine h.flags hw (by simp [hpc]) ((hfr.setBlocked _).goto _) (Or.inl rfl) rfl ?_ ?_ ?_ ?_ ?_ <;>
      cases e <;>
        simp_all [State.goto, State.setBlocked, Pc.Locked, Pc.Polling, Pc.Blocking, Parked]
  case h_6 | h_10 | h_16 =>
    have hl := hlk trivial
    refine h.flags hw (by simp [hpc]) ((hfr.lock _).goto _) (Or.inr (Or.inr hl)) rfl ?_ ?_ ?_ ?_ ?_
      <;> simp_all [State.goto, Pc.Locked, Pc.Polling, Pc.Blocking, Parked]
  case h_11 =>
    refine h.leads hw hpc ?_
    constructor <;> simp [Pc.Locked, Pc.Polling, Pc.Blocking, Parked]

/-- Every step of the system keeps the invariant. -/
theorem step (h : Inv s) {a : Act ι} (hs : BlockOn.step s a = some s') : Inv s' := by
  cases a with
  | enter i =>
    simp only [BlockOn.step, Option.ite_none_right_eq_some, Option.some.injEq] at hs
    obtain ⟨⟨hpc, hw⟩, rfl⟩ := hs
    refine h.leads hw hpc ?_
    constructor <;> simp [Pc.Locked, Pc.Polling, Pc.Blocking, Parked]
  | polled i ready =>
    simp only [BlockOn.step, Option.ite_none_right_eq_some, Option.some.injEq] at hs
    obtain ⟨⟨hpc, hw⟩, rfl⟩ := hs
    refine h.leads hw hpc ?_
    cases ready <;> constructor <;> simp [Pc.Locked, Pc.Polling, Pc.Blocking, Parked]
  | next i =>
    simp only [BlockOn.step] at hs
    split_ifs at hs with hw
    exact h.next hw hs
  | elapsed i long =>
    simp only [BlockOn.step, Option.ite_none_right_eq_some, Option.some.injEq] at hs
    obtain ⟨hpc, rfl⟩ := hs
    have hw : s.waking i = .idle := h.waking_idle (by rw [hpc]; rfl)
    refine h.leads hw hpc ?_
    cases long <;> constructor <;> simp [Pc.Locked, Pc.Polling, Pc.Blocking, Parked]
  | react i =>
    have hpo := h.polling i; have hpk := h.parked i
    simp only [BlockOn.step, Option.ite_none_right_eq_some, Option.some.injEq] at hs
    obtain ⟨⟨hpc, hw, hl⟩, rfl⟩ := hs
    rw [hpc] at hpo hpk
    refine h.flags hw (by simp [hpc]) (((Frame.refl i s).lock _).goto _) (Or.inr (Or.inl hl)) rfl
      ?_ ?_ ?_ ?_ ?_ <;>
      simp_all [State.goto, Pc.Locked, Pc.Polling, Pc.Blocking, Parked]
  | wait i timeout =>
    simp only [BlockOn.step] at hs
    split at hs
    next x hpc =>
      split_ifs at hs
      obtain ⟨p, hp, rfl⟩ := Option.map_eq_some_iff.1 hs
      exact h.waits hpc (by simp) (by simp) (a := .wait timeout) hp (fun _ => rfl)
        fun _ => Or.inl rfl
    next => cases hs
  | epollReturn i report empty =>
    simp only [BlockOn.step] at hs
    split at hs
    next x hpc =>
      obtain ⟨p, hp, rfl⟩ := Option.map_eq_some_iff.1 hs
      rw [State.poller_goto hpc]
      exact h.waits hpc (by simp) (by simp) (a := .epollReturn report empty) hp (fun _ => rfl)
        fun hb => Or.inr ⟨rfl, by rw [Poller.epollReturn_waiting hp] at hb; exact hb.elim⟩
    next => cases hs
  | interrupt i =>
    simp only [BlockOn.step] at hs
    split at hs
    next x hpc =>
      obtain ⟨p, hp, rfl⟩ := Option.map_eq_some_iff.1 hs
      rw [State.poller_goto hpc]
      exact h.waits hpc (by simp) (by simp) (a := .interrupt) hp (fun _ => rfl)
        fun hb => Or.inr ⟨rfl, by rw [Poller.interrupt_waiting hp] at hb; exact hb.elim⟩
    next => cases hs
  | woken i =>
    have hlk := h.lock i; have hpo := h.polling i; have hpk := h.parked i
    simp only [BlockOn.step] at hs
    split_ifs at hs with hw
    split at hs <;> cases hs <;> rename_i hpc <;> rw [hpc] at hlk hpo hpk
    · refine h.flags hw (by simp [hpc]) (((Frame.refl i s).lock _).goto _)
        (Or.inr (Or.inr (hlk trivial))) rfl ?_ ?_ ?_ ?_ ?_ <;>
        simp_all [State.goto, Pc.Locked, Pc.Polling, Pc.Blocking, Parked]
    all_goals
      refine h.leads hw hpc ?_
      constructor <;> simp [Pc.Locked, Pc.Polling, Pc.Blocking, Parked]
  | wakeup i =>
    obtain ⟨q, hq, rfl⟩ := Option.map_eq_some_iff.1 hs
    obtain ⟨hu, -, t, ht, -⟩ := Parking.Inner.wakeup_frame hq
    obtain ⟨c, hpc⟩ : ∃ c, s.pc i = .park c := by
      have hpk := h.parked i
      rw [ht] at hpk
      cases hpc : s.pc i <;> simp_all [Parked]
    have heq : s.setParker i q = (s.setParker i q).goto i (.park c) := by
      simp [State.goto, State.setParker, ← hpc]
    rw [heq]
    exact h.parks (h.waking_idle (by rw [hpc]; rfl)) ⟨c, Or.inr ⟨hpc, Or.inl rfl⟩⟩
      ((h.parker i).wakeup hq) hu
  | call i j =>
    simp only [BlockOn.step] at hs
    split_ifs at hs with hi
    obtain ⟨q, hq, rfl⟩ := Option.map_eq_some_iff.1 hs
    exact h.called hi.1 hi.2 hq
  | notify i =>
    simp only [BlockOn.step] at hs
    split_ifs at hs with hi; cases hs
    exact h.carried hi.2 (by simp [hi.1]) fun j _ hc => by simp [Carries, hi.1] at hc
  | wake i => exact h.wake hs

end Inv

theorem inv_reachable [DecidableEq ι] {s : State ι} (h : system.Reachable s) : Inv s :=
  h.inv (fun _ hs => hs ▸ inv_init) fun _ _ _ _ hi _ hs => hi.step hs

/-! ## No lost wakeup -/

/-- The `block_on` of thread `i` is blocked: inside the poller's wait in
    `react(None)`, or on the condition variable in `p.park()`. -/
def Blocked (s : State ι) (i : ι) : Prop :=
  (s.pc i = .react .block .wait ∧ ∃ timeout, s.poller.waiting = .epollWait timeout) ∨
    ∃ k timeout woken, s.pc i = .park k ∧ (s.parker i).parking = .waiting timeout woken

/-- Thread `j` is between the swap of `unpark` on the parker of `i` and the end
    of that call of the waker of `i`. -/
def Calling (s : State ι) (j i : ι) : Prop :=
  s.waking j = .unpark i ∨ s.waking j = .load i ∨ s.waking j = .notify (some i) ∨
    s.waking j = .notifying (some i)

/-- A blocked thread is about to be unblocked: a call of its waker is in progress, the wait of
    its `react` is about to be notified, or the condition variable has been. -/
inductive Unblocking (s : State ι) (i : ι) : Prop
  | calling {j : ι} : Calling s j i → Unblocking s i
  | poller : s.pc i = .react .block .wait → s.poller.Woken → Unblocking s i
  | notified {timeout : Option ℕ} : (s.parker i).parking = .waiting timeout true → Unblocking s i

/-- A blocked thread with a token is about to be unblocked. -/
theorem Inv.unblocking {s : State ι} {i : ι} (h : Inv s) (hb : Blocked s i)
    (hn : (s.parker i).state = Parking.NOTIFIED) : Unblocking s i := by
  rcases hb with ⟨hpc, t, ht⟩ | ⟨c, t, woken, hpc, ht⟩
  · have hin : Inside s i := Or.inr (Or.inr ⟨hpc, by rw [ht]; trivial⟩)
    rcases h.token i hin hn with hw | ⟨j, ⟨hj, -⟩ | hj | hj⟩
    · exact .poller hpc hw
    · exact .calling (Or.inl hj)
    · exact .calling (Or.inr (Or.inl hj))
    · exact .calling (Or.inr (Or.inr (Or.inl hj)))
  · cases woken
    · -- the unparker that owes the `notify_one` is inside its waker call
      have hp := (h.parker i).park
      rw [ht] at hp
      obtain ⟨j, hj⟩ := hp.2.2 hn rfl
      have hne : (s.parker i).unparking j ≠ .idle := by
        rcases hj with hj | hj | hj <;> simp [hj]
      exact .calling (Or.inl (h.unparking j i hne))
    · exact .notified ht

/-- **No lost wakeup in `block_on`.** While a blocked `block_on` has a token,
    the eventfd is readable, a wakeup of the condition variable is delivered to
    it, a call of its waker is in progress, or a `Poller::notify` is between its
    compare-exchange and its write. -/
theorem no_lost_wakeup [DecidableEq ι] {s : State ι} (h : system.Reachable s) {i : ι}
    (hb : Blocked s i) (hn : (s.parker i).state = Parking.NOTIFIED) :
    0 < s.poller.counter ∨ (∃ timeout, (s.parker i).parking = .waiting timeout true) ∨
      (∃ j, Calling s j i) ∨ ∃ j, s.poller.notifying j = .write := by
  cases (inv_reachable h).unblocking hb hn with
  | calling hj => exact Or.inr (Or.inr (Or.inl ⟨_, hj⟩))
  | poller _ hw =>
    rcases hw with hc | hj
    · exact Or.inl hc
    · exact Or.inr (Or.inr (Or.inr hj))
  | notified ht => exact Or.inr (Or.inl ⟨_, ht⟩)

/-- Thread `0` waits in `react(None)` when thread `1` calls its waker. -/
def wakeWaiting : List (Act (Fin 2)) :=
  [.enter 0, .polled 0 false, .next 0, .next 0, .next 0, .next 0, .next 0, .next 0, .next 0,
    .wait 0 none, .next 0, .next 0, .call 1 0]

/-- The token is there before the eventfd is written. -/
theorem no_lost_wakeup_waiting : ∃ s : State (Fin 2),
    system.run init wakeWaiting = some s ∧ Blocked s 0 ∧
      (s.parker 0).state = Parking.NOTIFIED ∧ s.poller.counter = 0 ∧
      (0 < s.poller.counter ∨ (∃ timeout, (s.parker 0).parking = .waiting timeout true) ∨
        (∃ j, Calling s j 0) ∨ ∃ j, s.poller.notifying j = .write) :=
  ⟨_, rfl, Or.inl ⟨rfl, none, rfl⟩, rfl, rfl,
    no_lost_wakeup (.run (.init rfl) (Lts.meets_true _ wakeWaiting) rfl) (Or.inl ⟨rfl, none, rfl⟩)
      rfl⟩

end Awak.BlockOn
