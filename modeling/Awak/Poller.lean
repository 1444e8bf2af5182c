/-
  The wakeups of the poller: `Poller::wait` and `Poller::notify` of
  `io/poller/mod.rs`, over the eventfd, timerfd and epoll of
  `io/poller/epoll.rs`.

  Each access to `notified` and each system call is one step.  The system
  calls on the poller's own descriptors succeed, except that `epoll_wait` can
  be interrupted.  The eventfd is registered `EPOLLONESHOT`: reporting it
  disarms it.  `epoll_wait` can return at any moment, since a source or the
  timerfd can become ready at any moment; whether the batch holds an event of
  a source, and whether it reports the eventfd, are choices of the kernel.

  One thread at a time is inside `wait` (the reactor lock), any number of
  threads `ι` inside `notify`.

  * `Inv`: a set `notified` flag announces a wakeup that is still to be seen
    by the waiting thread, and the eventfd is armed whenever that thread is
    before or inside `epoll_wait`;
  * `Inv.notify_woken`, `Woken.step`: a call of `notify` made before the waiting
    thread leaves `epoll_wait` leaves a pending wakeup, which lasts until then;
  * `notifications_kept`: the same with a record of the calls that have
    returned since `notified` was last cleared.
-/
import Awak.Lib.Lts

namespace Awak

variable {ι : Type}

/-- What `Poller::wait` returns: a batch of events, or `ErrorKind::Interrupted`. -/
inductive WaitRes where
  | ok (empty : Bool)
  | interrupted
  deriving DecidableEq

/-- A call of `Poller::wait`. -/
inductive WaitPc where
  | idle
  /-- `timerfd_settime` -/
  | setTimer (timeout : Option ℕ)
  /-- `interest(timer_fd)` -/
  | armTimer (timeout : Option ℕ)
  | epollWait (timeout : Option ℕ)
  /-- `read(event_fd)` -/
  | read (empty : Bool)
  /-- `interest(event_fd)` -/
  | rearm (empty : Bool)
  /-- `notified.swap(false)` -/
  | clear (empty : Bool)
  | ret (res : WaitRes)
  deriving DecidableEq

/-- The waiting thread has left `epoll_wait` and not yet cleared `notified`. -/
def WaitPc.Past : WaitPc → Prop
  | .read _ | .rearm _ | .clear _ => True
  | _ => False

/-- The waiting thread has not left `epoll_wait`. -/
def WaitPc.Before : WaitPc → Prop
  | .setTimer _ | .armTimer _ | .epollWait _ => True
  | _ => False

/-- A call of `Poller::notify`. -/
inductive NotifyPc where
  | idle
  /-- `write(event_fd)` -/
  | write
  | ret
  deriving DecidableEq

/-- The poller with the calls in flight. -/
structure Poller (ι : Type) where
  notified : Bool
  /-- the counter of the eventfd -/
  counter : ℕ
  /-- the eventfd is armed in epoll -/
  armed : Bool
  waiting : WaitPc
  notifying : ι → NotifyPc

namespace Poller

/-- `Poller::new`. -/
def new : Poller ι := ⟨false, 0, true, .idle, fun _ => .idle⟩

/-- Call `wait(timeout)`. -/
def wait (p : Poller ι) (timeout : Option ℕ) : Option (Poller ι) :=
  match p.waiting with
  | .idle => some { p with waiting := .setTimer timeout }
  | _ => none

/-- The next step of the waiting thread inside `wait`, `epoll_wait` apart. -/
def waitStep (p : Poller ι) : Option (Poller ι) :=
  match p.waiting with
  | .setTimer timeout => some { p with waiting := .armTimer timeout }
  | .armTimer timeout => some { p with waiting := .epollWait timeout }
  | .read empty => some { p with counter := 0, waiting := .rearm empty }
  | .rearm empty => some { p with armed := true, waiting := .clear empty }
  | .clear empty => some { p with notified := false, waiting := .ret (.ok empty) }
  | .idle | .epollWait _ | .ret _ => none

/-- `epoll_wait` returns a batch; `report` if the eventfd is in it. -/
def epollReturn (p : Poller ι) (report empty : Bool) : Option (Poller ι) :=
  match p.waiting with
  | .epollWait _ =>
    if report then
      if p.armed ∧ 0 < p.counter then some { p with armed := false, waiting := .read empty }
      else none
    else some { p with waiting := .read empty }
  | _ => none

/-- `epoll_wait` is interrupted: `wait` returns the error at once. -/
def interrupt (p : Poller ι) : Option (Poller ι) :=
  match p.waiting with
  | .epollWait _ => some { p with waiting := .ret .interrupted }
  | _ => none

/-- Return from `wait`. -/
def waitRet (p : Poller ι) : Option (Poller ι) :=
  match p.waiting with
  | .ret _ => some { p with waiting := .idle }
  | _ => none

variable [DecidableEq ι]

/-- The call of `notify` by `i` goes to `q`. -/
def setNotify (p : Poller ι) (i : ι) (q : NotifyPc) : Poller ι :=
  { p with notifying := Function.update p.notifying i q }

/-- Call `notify`: its first step is the compare-exchange on `notified`. -/
def notify (p : Poller ι) (i : ι) : Option (Poller ι) :=
  match p.notifying i with
  | .idle =>
    if p.notified then some (p.setNotify i .ret)
    else some ({ p with notified := true }.setNotify i .write)
  | _ => none

/-- The write to the eventfd. -/
def notifyStep (p : Poller ι) (i : ι) : Option (Poller ι) :=
  match p.notifying i with
  | .write => some ({ p with counter := p.counter + 1 }.setNotify i .ret)
  | _ => none

/-- Return from `notify`. -/
def notifyRet (p : Poller ι) (i : ι) : Option (Poller ι) :=
  match p.notifying i with
  | .ret => some (p.setNotify i .idle)
  | _ => none

/-- The moves of the poller. -/
inductive Act (ι : Type) where
  | wait (timeout : Option ℕ)
  | waitStep
  | epollReturn (report empty : Bool)
  | interrupt
  | waitRet
  | notify (i : ι)
  | notifyStep (i : ι)
  | notifyRet (i : ι)

/-- One atomic operation or system call of `wait` or of a call of `notify`. -/
def step (p : Poller ι) : Act ι → Option (Poller ι)
  | .wait timeout => p.wait timeout
  | .waitStep => p.waitStep
  | .epollReturn report empty => p.epollReturn report empty
  | .interrupt => p.interrupt
  | .waitRet => p.waitRet
  | .notify i => p.notify i
  | .notifyStep i => p.notifyStep i
  | .notifyRet i => p.notifyRet i

/-- One thread in `wait` at a time, and any others in `notify`. -/
def system : Lts (Poller ι) (Act ι) where
  init p := p = new
  step := step

omit [DecidableEq ι]

/-! ## Pending wakeups -/

/-- A wakeup of the waiting thread is pending: the eventfd is readable, or a
    `notify` is between its compare-exchange and its write. -/
def Woken (p : Poller ι) : Prop := 0 < p.counter ∨ ∃ i, p.notifying i = .write

/-- The invariant of the poller. -/
structure Inv (p : Poller ι) : Prop where
  notified : p.notified = true → p.Woken ∨ p.waiting.Past
  armed : p.armed = false → ∃ empty, p.waiting = .read empty ∨ p.waiting = .rearm empty

theorem inv_new : Inv (new : Poller ι) := by
  constructor <;> simp [new]

variable [DecidableEq ι] {p p' : Poller ι}

theorem woken_setNotify {i : ι} {q : NotifyPc} (hq : p.notifying i = .write → q = .write)
    (hw : p.Woken) : (p.setNotify i q).Woken := by
  rcases hw with hc | ⟨j, hj⟩
  · exact Or.inl hc
  · refine Or.inr ⟨j, ?_⟩
    by_cases hij : j = i
    · subst hij; simpa [setNotify] using hq hj
    · simpa [setNotify, hij] using hj

/-- A pending wakeup stays pending until the waiting thread has left
    `epoll_wait` and drains the eventfd. -/
theorem Woken.step {a : Act ι} (hw : p.Woken) (hr : ∀ empty, p.waiting ≠ .read empty)
    (hs : p.step a = some p') : p'.Woken := by
  cases a with
  | wait | interrupt | waitRet =>
    simp only [Poller.step, wait, interrupt, waitRet] at hs
    split at hs <;> cases hs
    exact hw
  | waitStep =>
    simp only [Poller.step, waitStep] at hs
    split at hs <;> cases hs
    case h_3 empty he => exact absurd he (hr empty)
    all_goals exact hw
  | epollReturn report empty =>
    simp only [Poller.step, epollReturn] at hs
    split at hs
    · split_ifs at hs <;> cases hs <;> exact hw
    · cases hs
  | notify i =>
    simp only [Poller.step, notify] at hs
    split at hs
    next hi => split_ifs at hs <;> cases hs <;> exact woken_setNotify (by simp [hi]) hw
    next => cases hs
  | notifyStep i =>
    simp only [Poller.step, notifyStep] at hs
    split at hs <;> cases hs
    exact Or.inl (Nat.succ_pos _)
  | notifyRet i =>
    simp only [Poller.step, notifyRet] at hs
    split at hs
    next hi => cases hs; exact woken_setNotify (by simp [hi]) hw
    next => cases hs

omit [DecidableEq ι] in
theorem waitRet_waiting (hs : p.waitRet = some p') : p'.waiting = .idle := by
  unfold waitRet at hs
  split at hs <;> cases hs
  rfl

omit [DecidableEq ι] in
theorem waitStep_before (hs : p.waitStep = some p') (hb : p'.waiting.Before) :
    p.waiting.Before := by
  unfold waitStep at hs
  split at hs <;> cases hs <;> rename_i hw <;> simp_all [WaitPc.Before]

omit [DecidableEq ι] in
theorem epollReturn_waiting {report empty : Bool} (hs : p.epollReturn report empty = some p') :
    p'.waiting = .read empty := by
  unfold epollReturn at hs
  split at hs
  · split_ifs at hs <;> cases hs <;> rfl
  · cases hs

omit [DecidableEq ι] in
theorem interrupt_waiting (hs : p.interrupt = some p') : p'.waiting = .ret .interrupted := by
  unfold interrupt at hs
  split at hs <;> cases hs
  rfl

omit [DecidableEq ι] in
theorem epollReturn_enabled {report empty : Bool} (hs : p.epollReturn report empty = some p') :
    p.waiting ≠ .idle := by
  rintro hi
  simp [epollReturn, hi] at hs

omit [DecidableEq ι] in
theorem interrupt_enabled (hs : p.interrupt = some p') : p.waiting ≠ .idle := by
  rintro hi
  simp [interrupt, hi] at hs

/-- The calls of `notify` do not move the waiting thread. -/
theorem notify_waiting {i : ι} (hs : p.notify i = some p') : p'.waiting = p.waiting := by
  unfold notify at hs
  split at hs
  · split_ifs at hs <;> cases hs <;> rfl
  · cases hs

theorem notifyStep_waiting {i : ι} (hs : p.notifyStep i = some p') : p'.waiting = p.waiting := by
  unfold notifyStep at hs
  split at hs <;> cases hs
  rfl

theorem notifyRet_waiting {i : ι} (hs : p.notifyRet i = some p') : p'.waiting = p.waiting := by
  unfold notifyRet at hs
  split at hs <;> cases hs
  rfl

namespace Inv

/-- A `notify` called before the waiting thread leaves `epoll_wait` leaves a
    pending wakeup: its own, or the one announced by the flag. -/
theorem notify_woken (h : Inv p) (hp : ¬ p.waiting.Past) {i : ι} (hs : p.notify i = some p') :
    p'.Woken := by
  unfold notify at hs
  split at hs
  next hi =>
    split_ifs at hs with hn <;> cases hs
    · exact woken_setNotify (by simp [hi]) ((h.notified hn).resolve_right hp)
    · exact Or.inr ⟨i, by simp [setNotify]⟩
  next => cases hs

theorem step (h : Inv p) {a : Act ι} (hs : p.step a = some p') : Inv p' := by
  have hn := h.notified; have ha := h.armed
  cases a with
  | wait | interrupt | waitRet =>
    simp only [Poller.step, wait, interrupt, waitRet] at hs
    split at hs <;> cases hs
    next hw => rw [hw] at hn ha; exact ⟨fun h => Or.inl ((hn h).resolve_right id), by simpa using ha⟩
  | waitStep =>
    simp only [Poller.step, waitStep] at hs
    split at hs
    next hw => rw [hw] at hn ha; cases hs; exact ⟨hn, by simpa using ha⟩
    next hw => rw [hw] at hn ha; cases hs; exact ⟨hn, by simpa using ha⟩
    next empty hw => cases hs; exact ⟨fun _ => Or.inr trivial, fun _ => ⟨empty, Or.inr rfl⟩⟩
    next hw => cases hs; exact ⟨fun _ => Or.inr trivial, nofun⟩
    next empty hw =>
      rw [hw] at ha; cases hs; exact ⟨nofun, by simpa using ha⟩
    all_goals cases hs
  | epollReturn report empty =>
    simp only [Poller.step, epollReturn] at hs
    split at hs
    next hw =>
      split_ifs at hs <;> cases hs
      all_goals exact ⟨fun _ => Or.inr trivial, fun _ => ⟨empty, Or.inl rfl⟩⟩
    next => cases hs
  | notify i =>
    simp only [Poller.step, notify] at hs
    split at hs
    next hi =>
      split_ifs at hs with hf <;> cases hs
      · exact ⟨fun h => (hn h).imp_left (woken_setNotify (by simp [hi])), ha⟩
      · exact ⟨fun _ => Or.inl (Or.inr ⟨i, by simp [setNotify]⟩), ha⟩
    next => cases hs
  | notifyStep i =>
    simp only [Poller.step, notifyStep] at hs
    split at hs <;> cases hs
    exact ⟨fun _ => Or.inl (Or.inl (Nat.succ_pos _)), ha⟩
  | notifyRet i =>
    simp only [Poller.step, notifyRet] at hs
    split at hs
    next hi => cases hs; exact ⟨fun h => (hn h).imp_left (woken_setNotify (by simp [hi])), ha⟩
    next => cases hs

end Inv

theorem inv_reach {C : Poller ι → Act ι → Prop} {p : Poller ι} (h : system.Reach C p) : Inv p :=
  h.inv (fun _ hp => hp ▸ inv_new) fun _ _ _ _ hi _ hs => hi.step hs

end Poller

/-! ## Calls of `notify` that have returned -/

namespace Poller

variable [DecidableEq ι] {p p' : Poller ι}

/-- The calls of `notify` since `notified` was last cleared: whether the call
    of a thread has made its compare-exchange, and whether such a call of the
    thread has returned. -/
structure Calls (ι : Type) where
  cas : ι → Bool
  returned : ι → Bool

namespace Calls

omit [DecidableEq ι] in
/-- No call has been made. -/
def new : Calls ι := ⟨fun _ => false, fun _ => false⟩

/-- A call counts once its `compare_exchange` is made, until `wait` clears the flag. -/
def record (c : Calls ι) (p : Poller ι) : Act ι → Calls ι
  | .waitStep =>
    match p.waiting with
    | .clear _ => new
    | _ => c
  | .notify i => { c with cas := Function.update c.cas i true }
  | .notifyRet i =>
    { cas := Function.update c.cas i false,
      returned := Function.update c.returned i (c.returned i || c.cas i) }
  | .wait _ | .epollReturn _ _ | .interrupt | .waitRet | .notifyStep _ => c

end Calls

/-- The poller with the record of the calls of `notify`. -/
def recorded : Lts (Poller ι × Calls ι) (Act ι) := system.monitor Calls.new Calls.record

omit [DecidableEq ι] in
/-- The flag is set once a call has made its compare-exchange. -/
def Flagged (q : Poller ι × Calls ι) : Prop :=
  ∀ i, q.2.cas i = true ∨ q.2.returned i = true → q.1.notified = true

/-- Only the waiting thread clears `notified`, and it starts a new record. -/
theorem notified_step {a : Act ι} (hs : p.step a = some p') (hn : p.notified = true) :
    p'.notified = true ∨ a = .waitStep ∧ ∃ empty, p.waiting = .clear empty := by
  cases a with
  | wait | interrupt | waitRet =>
    simp only [Poller.step, wait, interrupt, waitRet] at hs
    split at hs <;> cases hs
    exact Or.inl hn
  | waitStep =>
    simp only [Poller.step, waitStep] at hs
    split at hs <;> cases hs
    case h_5 empty he => exact Or.inr ⟨rfl, empty, he⟩
    all_goals exact Or.inl hn
  | epollReturn report empty =>
    simp only [Poller.step, epollReturn] at hs
    split at hs
    · split_ifs at hs <;> cases hs <;> exact Or.inl hn
    · cases hs
  | notify i =>
    simp only [Poller.step, notify, hn, if_true] at hs
    split at hs <;> cases hs
    exact Or.inl hn
  | notifyStep i | notifyRet i =>
    simp only [Poller.step, notifyStep, notifyRet] at hs
    split at hs <;> cases hs
    exact Or.inl hn

/-- The compare-exchange leaves the flag set, whether it succeeds or not. -/
theorem notify_notified {i : ι} (hs : p.notify i = some p') : p'.notified = true := by
  unfold notify at hs
  split at hs
  · split_ifs at hs with hf <;> cases hs
    · exact hf
    · rfl
  · cases hs

theorem flagged_step {q q' : Poller ι × Calls ι} {a : Act ι} (h : Flagged q)
    (hs : recorded.step q a = some q') : Flagged q' := by
  obtain ⟨hp, hc⟩ := Lts.monitor_step hs
  intro i hi
  rw [hc] at hi
  -- a call on record was on record before, or is made by this step
  have hold : a = .notify i ∨ (q.2.cas i = true ∨ q.2.returned i = true) ∧
      ¬ (a = .waitStep ∧ ∃ empty, q.1.waiting = .clear empty) := by
    cases a with
    | wait | epollReturn | interrupt | waitRet | notifyStep => exact Or.inr ⟨hi, by simp⟩
    | waitStep =>
      simp only [Calls.record] at hi
      split at hi
      · simp [Calls.new] at hi
      · next hw => exact Or.inr ⟨hi, fun hc => hc.2.elim fun empty he => hw empty he⟩
    | notify j =>
      by_cases hij : i = j
      · exact Or.inl (by rw [hij])
      · refine Or.inr ⟨by simpa [Calls.record, hij] using hi, by simp⟩
    | notifyRet j =>
      refine Or.inr ⟨?_, by simp⟩
      by_cases hij : i = j
      · subst hij
        simpa [Calls.record, or_comm] using hi
      · simpa [Calls.record, hij] using hi
  rcases hold with rfl | ⟨hi, hclear⟩
  · exact notify_notified hp
  · exact (notified_step hp (h i hi)).resolve_right hclear

theorem flagged_reach {q : Poller ι × Calls ι} (h : recorded.Reachable q) : Flagged q :=
  h.inv (fun _ hq i hi => by rw [hq.2] at hi; simp [Calls.new] at hi)
    fun _ _ _ _ hf _ hs => flagged_step hf hs

omit [DecidableEq ι] in
theorem Inv.armed_epollWait (h : Inv p) {timeout : Option ℕ} (hw : p.waiting = .epollWait timeout) :
    p.armed = true := by
  cases ha : p.armed with
  | true => rfl
  | false =>
    obtain ⟨empty, he⟩ := h.armed ha
    rw [hw] at he
    rcases he with he | he <;> cases he

/-- **Coalesced notifications are not lost**: a set flag announces a wakeup
    that is still to be seen, the eventfd is armed whenever a thread is in
    `epoll_wait`, and a call that has returned since `notified` was last
    cleared leaves the eventfd readable there, or another call in flight that
    is about to write it. -/
theorem notifications_kept {q : Poller ι × Calls ι} (h : recorded.Reachable q) :
    (q.1.notified = true →
      0 < q.1.counter ∨ (∃ i, q.1.notifying i = .write) ∨ q.1.waiting.Past) ∧
    (∀ timeout, q.1.waiting = .epollWait timeout → q.1.armed = true) ∧
    ∀ i timeout, q.2.returned i = true → q.1.waiting = .epollWait timeout →
      0 < q.1.counter ∨ ∃ j, q.1.notifying j = .write := by
  have hinv := inv_reach (Lts.monitor_reach (C := fun _ _ => True) h)
  refine ⟨fun hn => ?_, fun timeout hw => hinv.armed_epollWait hw, fun i timeout hi hw => ?_⟩
  · rw [← or_assoc]
    exact hinv.notified hn
  · have hp : ¬ q.1.waiting.Past := by rw [hw]; exact id
    exact (hinv.notified (flagged_reach h i (Or.inr hi))).resolve_right hp

/-- A call that coalesces with one still before its write has returned, and
    the waiting thread is in `epoll_wait` with an unreadable eventfd. -/
def coalescedRun : List (Act ℕ) :=
  [Act.notify 0, Act.notify 1, Act.notifyRet 1, Act.wait none, Act.waitStep, Act.waitStep]

theorem notifications_kept_coalesced : ∃ q : Poller ℕ × Calls ℕ, recorded.Reachable q ∧
    q.2.returned 1 = true ∧ q.1.waiting = .epollWait none ∧ q.1.counter = 0 ∧
    q.1.armed = true ∧ ∃ j, q.1.notifying j = .write := by
  have hinit : recorded.Reachable ((new, Calls.new) : Poller ℕ × Calls ℕ) := .init ⟨rfl, rfl⟩
  obtain ⟨q, hq, hr, hw, hc⟩ : ∃ q, recorded.run (new, Calls.new) coalescedRun = some q ∧
      q.2.returned 1 = true ∧ q.1.waiting = .epollWait none ∧ q.1.counter = 0 :=
    Lts.exists_run (by decide +kernel)
  have h := hinit.run (Lts.meets_true _ coalescedRun) hq
  obtain ⟨-, harmed, hkept⟩ := notifications_kept h
  exact ⟨q, h, hr, hw, hc, harmed none hw, (hkept 1 none hr hw).resolve_left (by omega)⟩

end Poller
end Awak
