/-
  The wakeups of the poller on kqueue: `Poller::wait` and `Poller::notify` of `io/poller/mod.rs`
  over the socket pair of `io/poller/kqueue.rs`.

  `notify` writes one byte to the pair; the write fails, and is ignored, when the buffer of the
  socket is full.  `wait` calls `kevent`, reads 64 bytes at a time until that fails, registers
  the read end again and clears `notified`.  The read end is registered `EV_ONESHOT`: reporting
  it deletes the registration.  Each access to `notified`, each `read` and each other system
  call is one step; `kevent` can return at any moment, or be interrupted.

  * `Simulated`: a state of this poller behaves as one of the poller on epoll, whose eventfd is
    readable when the socket is;
  * `simulated_step`: each step is matched by a run of the poller on epoll, the loop of reads by
    its one read;
  * `notify_kept`: so coalesced notifications are not lost on kqueue either.
-/
import Awak.Poller

namespace Awak.Kqueue

open Poller (Calls)

variable {ι : Type}

/-- A call of `Poller::wait`. -/
inductive WaitPc where
  | idle
  | kevent (timeout : Option ℕ)
  /-- the next `read` of the loop -/
  | read (empty : Bool)
  /-- `interest(read_stream)` -/
  | rearm (empty : Bool)
  /-- `notified.swap(false)` -/
  | clear (empty : Bool)
  | ret (res : WaitRes)
  deriving DecidableEq

/-- The poller with the calls in flight. -/
structure Poller (ι : Type) where
  notified : Bool
  /-- the bytes in the buffer of the socket -/
  bytes : ℕ
  /-- the read end is registered in the kqueue -/
  registered : Bool
  waiting : WaitPc
  notifying : ι → NotifyPc

namespace Poller

/-- `Poller::new`. -/
def new : Poller ι := ⟨false, 0, true, .idle, fun _ => .idle⟩

/-- Call `wait(timeout)`. -/
def wait (p : Poller ι) (timeout : Option ℕ) : Option (Poller ι) :=
  match p.waiting with
  | .idle => some { p with waiting := .kevent timeout }
  | _ => none

/-- The next step of the waiting thread inside `wait`, `kevent` apart. -/
def waitStep (p : Poller ι) : Option (Poller ι) :=
  match p.waiting with
  | .read empty =>
    if p.bytes = 0 then some { p with waiting := .rearm empty }
    else some { p with bytes := p.bytes - 64 }
  | .rearm empty => some { p with registered := true, waiting := .clear empty }
  | .clear empty => some { p with notified := false, waiting := .ret (.ok empty) }
  | .idle | .kevent _ | .ret _ => none

/-- `kevent` returns; `report` if the read end is in the list. -/
def keventReturn (p : Poller ι) (report empty : Bool) : Option (Poller ι) :=
  match p.waiting with
  | .kevent _ =>
    if report then
      if p.registered ∧ 0 < p.bytes then
        some { p with registered := false, waiting := .read empty }
      else none
    else some { p with waiting := .read empty }
  | _ => none

/-- `kevent` is interrupted: `wait` returns the error at once. -/
def interrupt (p : Poller ι) : Option (Poller ι) :=
  match p.waiting with
  | .kevent _ => some { p with waiting := .ret .interrupted }
  | _ => none

/-- Return from `wait`. -/
def waitRet (p : Poller ι) : Option (Poller ι) :=
  match p.waiting with
  | .ret _ => some { p with waiting := .idle }
  | _ => none

variable [DecidableEq ι]

/-- The call of `notify` by `i` goes to `q`. -/
def setNotify (p : Poller ι) (i : ι) (q : NotifyPc) : Poller ι :=
  { p with notifying := Function.update p.notifying i q }

/-- Call `notify`: its first step is the compare-exchange on `notified`. -/
def notify (p : Poller ι) (i : ι) : Option (Poller ι) :=
  match p.notifying i with
  | .idle =>
    if p.notified then some (p.setNotify i .ret)
    else some ({ p with notified := true }.setNotify i .write)
  | _ => none

/-- The write of one byte to a socket whose buffer holds `size`. -/
def notifyStep (size : ℕ) (p : Poller ι) (i : ι) : Option (Poller ι) :=
  match p.notifying i with
  | .write =>
    if p.bytes < size then some ({ p with bytes := p.bytes + 1 }.setNotify i .ret)
    else some (p.setNotify i .ret)
  | _ => none

/-- Return from `notify`. -/
def notifyRet (p : Poller ι) (i : ι) : Option (Poller ι) :=
  match p.notifying i with
  | .ret => some (p.setNotify i .idle)
  | _ => none

/-- The moves of the poller; `epollReturn` is the return of `kevent`. -/
def step (size : ℕ) (p : Poller ι) : Awak.Poller.Act ι → Option (Poller ι)
  | .wait timeout => p.wait timeout
  | .waitStep => p.waitStep
  | .epollReturn report empty => p.keventReturn report empty
  | .interrupt => p.interrupt
  | .waitRet => p.waitRet
  | .notify i => p.notify i
  | .notifyStep i => p.notifyStep size i
  | .notifyRet i => p.notifyRet i

/-- The poller over a socket pair whose buffer holds `size` bytes. -/
def system (size : ℕ) : Lts (Poller ι) (Awak.Poller.Act ι) where
  init p := p = new
  step := step size

end Poller

/-- The record of the calls of `notify`, as it is kept for the poller on epoll. -/
def record [DecidableEq ι] (c : Calls ι) (p : Poller ι) : Awak.Poller.Act ι → Calls ι
  | .waitStep =>
    match p.waiting with
    | .clear _ => .new
    | _ => c
  | .notify i => { c with cas := Function.update c.cas i true }
  | .notifyRet i =>
    { cas := Function.update c.cas i false,
      returned := Function.update c.returned i (c.returned i || c.cas i) }
  | .wait _ | .epollReturn _ _ | .interrupt | .waitRet | .notifyStep _ => c

/-- The poller with the record of the calls of `notify`. -/
def recorded [DecidableEq ι] (size : ℕ) : Lts (Poller ι × Calls ι) (Awak.Poller.Act ι) :=
  (Poller.system size).monitor .new record

/-! ## The poller on epoll does the same -/

/-- The place of `wait` on epoll. -/
def WaitPc.epoll : WaitPc → Awak.WaitPc
  | .idle => .idle
  | .kevent timeout => .epollWait timeout
  | .read empty => .read empty
  | .rearm empty => .rearm empty
  | .clear empty => .clear empty
  | .ret res => .ret res

/-- The eventfd is readable when the socket is; while the loop of reads is under way, it is
    still to be read. -/
def Readable (k : Poller ι) (p : Awak.Poller ι) : Prop :=
  match k.waiting with
  | .read _ => 0 < k.bytes → 0 < p.counter
  | _ => 0 < k.bytes ↔ 0 < p.counter

/-- The state of the epoll backend that stands for one of this one. -/
structure Simulated (k : Poller ι) (p : Awak.Poller ι) : Prop where
  notified : k.notified = p.notified
  registered : k.registered = p.armed
  waiting : k.waiting.epoll = p.waiting
  notifying : k.notifying = p.notifying
  readable : Readable k p

section Simulation
variable [DecidableEq ι] {size : ℕ} {k k' : Poller ι} {p : Awak.Poller ι}

/-- The steps of `notify`, the write apart, do the same on both. -/
theorem Simulated.setNotify (h : Simulated k p) (i : ι) (q : NotifyPc) :
    Simulated (k.setNotify i q) (p.setNotify i q) :=
  ⟨h.notified, h.registered, h.waiting, by
    simp only [Poller.setNotify, Awak.Poller.setNotify, h.notifying], h.readable⟩

/-- The write leaves both readable, also when the buffer was full. -/
theorem Simulated.write (hsize : 0 < size) (h : Simulated k p) {i : ι}
    (hs : k.notifyStep size i = some k') :
    ∃ p', p.notifyStep i = some p' ∧ Simulated k' p' := by
  unfold Poller.notifyStep at hs
  split at hs
  next hi =>
    have hp : p.notifyStep i = some ({ p with counter := p.counter + 1 }.setNotify i .ret) := by
      rw [Awak.Poller.notifyStep, ← h.notifying, hi]
    refine ⟨_, hp, ?_⟩
    have hbytes : ∀ b : ℕ, 0 < b →
        Simulated { k with bytes := b } { p with counter := p.counter + 1 } := by
      intro b hb
      refine ⟨h.notified, h.registered, h.waiting, h.notifying, ?_⟩
      unfold Readable
      dsimp only
      split <;> simp [hb]
    split_ifs at hs <;> cases hs
    · exact (hbytes _ (Nat.succ_pos _)).setNotify i .ret
    · exact (hbytes k.bytes (by omega)).setNotify i .ret
  next => cases hs

/-- One step of the poller on epoll. -/
theorem runs_single {p' : Awak.Poller ι} {c : Calls ι} {a : Awak.Poller.Act ι}
    (hs : p.step a = some p') :
    Awak.Poller.recorded.Runs (fun _ _ => True) (p, c) (p', c.record p a) :=
  Lts.Runs.single (a := a) trivial (by
    simp only [Awak.Poller.recorded, Lts.monitor, Awak.Poller.system, hs, Option.map_some])

/-- Each step is matched by a run of the poller on epoll, with the same record. -/
theorem simulated_step (hsize : 0 < size) (h : Simulated k p) {c : Calls ι}
    {a : Awak.Poller.Act ι} (hs : k.step size a = some k') :
    ∃ p', Awak.Poller.recorded.Runs (fun _ _ => True) (p, c) (p', record c k a) ∧
      Simulated k' p' := by
  have hw := h.waiting
  have hr := h.readable
  unfold Readable at hr
  cases a with
  | wait timeout =>
    simp only [Poller.step, Poller.wait] at hs
    split at hs <;> cases hs
    next hk =>
      rw [hk] at hw hr
      -- the poller on epoll sets and arms its timer first
      have h₁ : p.step (.wait timeout) = some { p with waiting := .setTimer timeout } := by
        simp only [Awak.Poller.step, Awak.Poller.wait, ← hw, WaitPc.epoll]
      refine ⟨{ p with waiting := .epollWait timeout }, ((runs_single h₁).trans
        (runs_single (a := .waitStep) rfl)).trans (runs_single (a := .waitStep) rfl), ?_⟩
      exact ⟨h.notified, h.registered, rfl, h.notifying, hr⟩
  | waitStep =>
    simp only [Poller.step, Poller.waitStep] at hs
    split at hs
    next empty hk =>
      rw [hk] at hw hr
      split_ifs at hs with hb <;> cases hs
      · have h₁ : p.step .waitStep = some { p with counter := 0, waiting := .rearm empty } := by
          simp only [Awak.Poller.step, Awak.Poller.waitStep, ← hw, WaitPc.epoll]
        refine ⟨_, by
          simpa only [record, hk, Calls.record, ← hw, WaitPc.epoll] using runs_single h₁, ?_⟩
        exact ⟨h.notified, h.registered, rfl, h.notifying, by simp [Readable, hb]⟩
      · refine ⟨p, by simpa only [record, hk] using .refl, ?_⟩
        refine ⟨h.notified, h.registered, by rw [← hw, hk], h.notifying, ?_⟩
        simp only [Readable, hk]
        exact fun _ => hr (by omega)
    next empty hk =>
      rw [hk] at hw hr
      cases hs
      have h₁ : p.step .waitStep = some { p with armed := true, waiting := .clear empty } := by
        simp only [Awak.Poller.step, Awak.Poller.waitStep, ← hw, WaitPc.epoll]
      refine ⟨_, by
          simpa only [record, hk, Calls.record, ← hw, WaitPc.epoll] using runs_single h₁, ?_⟩
      exact ⟨h.notified, rfl, rfl, h.notifying, hr⟩
    next empty hk =>
      rw [hk] at hw hr
      cases hs
      have h₁ : p.step .waitStep =
          some { p with notified := false, waiting := .ret (.ok empty) } := by
        simp only [Awak.Poller.step, Awak.Poller.waitStep, ← hw, WaitPc.epoll]
      refine ⟨_, by
          simpa only [record, hk, Calls.record, ← hw, WaitPc.epoll] using runs_single h₁, ?_⟩
      exact ⟨rfl, h.registered, rfl, h.notifying, hr⟩
    all_goals cases hs
  | epollReturn report empty =>
    simp only [Poller.step, Poller.keventReturn] at hs
    split at hs
    next timeout hk =>
      rw [hk] at hw hr
      split_ifs at hs with hreport hready <;> cases hs
      · have h₁ : p.step (.epollReturn report empty) =
            some { p with armed := false, waiting := .read empty } := by
          simp only [Awak.Poller.step, Awak.Poller.epollReturn, ← hw, WaitPc.epoll, hreport, if_true]
          rw [if_pos ⟨h.registered ▸ hready.1, hr.1 hready.2⟩]
        exact ⟨_, runs_single h₁, h.notified, rfl, rfl, h.notifying, hr.1⟩
      · have h₁ : p.step (.epollReturn report empty) = some { p with waiting := .read empty } := by
          simp only [Awak.Poller.step, Awak.Poller.epollReturn, ← hw, WaitPc.epoll]
          rw [if_neg hreport]
        exact ⟨_, runs_single h₁, h.notified, h.registered, rfl, h.notifying, hr.1⟩
    next => cases hs
  | interrupt =>
    simp only [Poller.step, Poller.interrupt] at hs
    split at hs <;> cases hs
    next timeout hk =>
      rw [hk] at hw hr
      have h₁ : p.step .interrupt = some { p with waiting := .ret .interrupted } := by
        simp only [Awak.Poller.step, Awak.Poller.interrupt, ← hw, WaitPc.epoll]
      exact ⟨_, runs_single h₁, h.notified, h.registered, rfl, h.notifying, hr⟩
  | waitRet =>
    simp only [Poller.step, Poller.waitRet] at hs
    split at hs <;> cases hs
    next res hk =>
      rw [hk] at hw hr
      have h₁ : p.step .waitRet = some { p with waiting := .idle } := by
        simp only [Awak.Poller.step, Awak.Poller.waitRet, ← hw, WaitPc.epoll]
      exact ⟨_, runs_single h₁, h.notified, h.registered, rfl, h.notifying, hr⟩
  | notify i =>
    simp only [Poller.step, Poller.notify] at hs
    split at hs
    next hk =>
      have hp : p.step (.notify i) = if p.notified then some (p.setNotify i .ret)
          else some ({ p with notified := true }.setNotify i .write) := by
        simp only [Awak.Poller.step, Awak.Poller.notify, ← h.notifying, hk]
      rw [← h.notified] at hp
      split_ifs at hs hp with hn <;> cases hs
      · exact ⟨_, runs_single hp, h.setNotify i .ret⟩
      · refine ⟨_, runs_single hp, ?_⟩
        have hset : Simulated { k with notified := true } { p with notified := true } :=
          ⟨rfl, h.registered, h.waiting, h.notifying, h.readable⟩
        exact hset.setNotify i .write
    next => cases hs
  | notifyStep i =>
    obtain ⟨p', hp, hsim⟩ := h.write hsize hs
    exact ⟨p', runs_single (a := .notifyStep i) hp, hsim⟩
  | notifyRet i =>
    simp only [Poller.step, Poller.notifyRet] at hs
    split at hs <;> cases hs
    next hk =>
      have h₁ : p.step (.notifyRet i) = some (p.setNotify i .idle) := by
        simp only [Awak.Poller.step, Awak.Poller.notifyRet, ← h.notifying, hk]
      exact ⟨_, runs_single h₁, h.setNotify i .idle⟩

/-- **The poller on kqueue refines the one on epoll.** -/
theorem simulated_reach (hsize : 0 < size) {q : Poller ι × Calls ι}
    (h : (recorded size).Reachable q) :
    ∃ p, Awak.Poller.recorded.Reachable (p, q.2) ∧ Simulated q.1 p := by
  obtain ⟨⟨p, c⟩, hreach, hsim, hc⟩ : ∃ r : Awak.Poller ι × Calls ι,
      Awak.Poller.recorded.Reachable r ∧ Simulated q.1 r.1 ∧ q.2 = r.2 := by
    refine h.simulate (T := Awak.Poller.recorded)
      (R := fun q r => Simulated q.1 r.1 ∧ q.2 = r.2) ?_ ?_
    · rintro q ⟨hk, hc⟩
      refine ⟨(.new, .new), ⟨rfl, rfl⟩, ?_, hc⟩
      rw [show q.1 = .new from hk]
      exact ⟨rfl, rfl, rfl, rfl, Iff.rfl⟩
    · rintro q a q' r - ⟨hsim, hc⟩ - hs
      obtain ⟨hstep, hrecord⟩ := Lts.monitor_step hs
      obtain ⟨p', hrun, hsim'⟩ := simulated_step hsize hsim (c := r.2) hstep
      exact ⟨_, hrun, hsim', by rw [hrecord, hc]⟩
  dsimp only at hc hsim
  exact ⟨p, hc ▸ hreach, hsim⟩

/-- **Coalesced notifications are not lost on kqueue**: a set flag announces a wakeup that is
    still to be seen, the read end is registered whenever a thread is in `kevent`, and a call
    that has returned since `notified` was last cleared leaves the socket readable there, or
    another call in flight that is about to write to it. -/
theorem notify_kept {size : ℕ} (hsize : 0 < size) {q : Poller ι × Calls ι}
    (h : (recorded size).Reachable q) :
    (q.1.notified = true →
      0 < q.1.bytes ∨ (∃ i, q.1.notifying i = .write) ∨ q.1.waiting.epoll.Past) ∧
    (∀ timeout, q.1.waiting = .kevent timeout → q.1.registered = true) ∧
    ∀ i timeout, q.2.returned i = true → q.1.waiting = .kevent timeout →
      0 < q.1.bytes ∨ ∃ j, q.1.notifying j = .write := by
  obtain ⟨p, hreach, hsim⟩ := simulated_reach hsize h
  have hinv := Awak.Poller.inv_reach (Lts.monitor_reach (C := fun _ _ => True) hreach)
  -- a pending wakeup on epoll is one on kqueue, unless the socket is being read
  have hwoken : p.Woken →
      0 < q.1.bytes ∨ (∃ i, q.1.notifying i = .write) ∨ q.1.waiting.epoll.Past := by
    rintro (hc | hn)
    · have hr := hsim.readable
      unfold Readable at hr
      split at hr
      next hk => exact Or.inr (Or.inr (by rw [hk]; trivial))
      next => exact Or.inl (hr.2 hc)
    · exact Or.inr (Or.inl (by rw [hsim.notifying]; exact hn))
  have hnotified : q.1.notified = true →
      0 < q.1.bytes ∨ (∃ i, q.1.notifying i = .write) ∨ q.1.waiting.epoll.Past := by
    intro hn
    rcases hinv.notified (hsim.notified ▸ hn) with hw | hp
    · exact hwoken hw
    · exact Or.inr (Or.inr (hsim.waiting ▸ hp))
  refine ⟨hnotified, fun timeout hk => ?_, fun i timeout hi hk => ?_⟩
  · rw [hsim.registered]
    exact hinv.armed_epollWait (by rw [← hsim.waiting, hk]; rfl)
  · have hflag := Awak.Poller.flagged_reach hreach i (Or.inr hi)
    rcases hnotified (hsim.notified.trans hflag) with hb | hw | hp
    · exact Or.inl hb
    · exact Or.inr hw
    · rw [hk] at hp
      exact hp.elim

end Simulation

/-- Thread `0` writes after a wait has cleared the flag that it had set, and after the byte of
    thread `1`. -/
def lateWrite : List (Awak.Poller.Act (Fin 2)) :=
  [.notify 0, .wait none, .epollReturn false true, .waitStep, .waitStep, .waitStep, .waitRet,
    .notify 1, .notifyStep 1, .notifyRet 1, .notifyStep 0, .wait none]

/-- Both bytes are in the socket, and the read end is registered. -/
theorem notify_kept_late : ∃ q : Poller (Fin 2) × Calls (Fin 2),
    (recorded 8).run (.new, .new) lateWrite = some q ∧ q.2.returned 1 = true ∧
      q.1.waiting = .kevent none ∧ q.1.bytes = 2 ∧ q.1.registered = true ∧
      (0 < q.1.bytes ∨ ∃ j, q.1.notifying j = .write) := by
  obtain ⟨q, hs, hr, hk, hb⟩ : ∃ q : Poller (Fin 2) × Calls (Fin 2),
      (recorded 8).run (.new, .new) lateWrite = some q ∧ q.2.returned 1 = true ∧
        q.1.waiting = .kevent none ∧ q.1.bytes = 2 :=
    Lts.exists_run (by decide +kernel)
  have hinit : (recorded 8).init ((.new, .new) : Poller (Fin 2) × Calls (Fin 2)) := ⟨rfl, rfl⟩
  obtain ⟨-, hreg, hkept⟩ :=
    notify_kept (by decide) (.run (.init hinit) (Lts.meets_true _ lateWrite) hs)
  exact ⟨q, hs, hr, hk, hb, hreg none hk, hkept 1 none hr hk⟩

end Awak.Kqueue
