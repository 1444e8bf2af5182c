/-
  The worker threads of `lib.rs`: the executor of `executor.rs` on top of `block_on` of
  `blocking.rs`.

  Each worker thread runs `loop { catch_unwind(|| block_on(global().ticker().run())) }`.  A
  session of a worker is one call of `block_on` (a `Caller`), the polls of its future are those
  of the session's ticker, and the waker of the ticker is the one that this `block_on` has made.
  So a state has the two components side by side, and each move is one of these:

  * a move of the executor by a thread that is, in `block_on`, where it polls its future or
    wakes the wakers of its `react`; if it calls the waker of a ticker, returns `Pending` or
    panics, then `block_on` does the corresponding step at the same time (`effect`);
  * any other move of `block_on` (`Alone`), while its thread is in no call of `schedule`.

  Results:
  * `exec_reach`, `block_reach`: both components run as they do alone;
  * `Linked`: a worker and its `block_on` are at corresponding places, and a ticker that has been
    woken since its last poll began has told its `block_on`;
  * `woken_not_stuck`: the thread of such a ticker is not blocked for good;
  * `global_tasks_served`, `own_tasks_served`: so the threads do not all stay blocked while a task
    is in the global queue, and none while one is in its own queue.
-/
import Awak.Sessions
import Awak.Tokens

/-! ## The workers -/

namespace Awak.Workers

open BlockOn (Told Stuck)

/-- A call of `block_on`: a session of a worker, or another thread. -/
abbrev Caller (n m : ℕ) := (Fin n × ℕ) ⊕ Fin m

/-- The executor, and the calls of `block_on`. -/
structure State (n m : ℕ) (R : Type) where
  exec : Exec n m R
  block : BlockOn.State (Caller n m)

variable {n m : ℕ} {R : Type}

/-- No worker has started. -/
def init : State n m R := ⟨.new, BlockOn.init⟩

/-- The call of `block_on` that a thread is in; for a worker, that of its session. -/
def caller (e : Exec n m R) : Thread n m → Caller n m
  | .inl w => .inl (e.ticker w)
  | .inr j => .inr j

/-- The waker that `State::notify` is about to call. -/
def calling : Call (Fin n × ℕ) → Option (Fin n × ℕ)
  | .wake i => some i
  | _ => none

/-- The waker that a move of the executor calls. -/
def waker (e : Exec n m R) : Exec.Act n m R → Option (Fin n × ℕ)
  | .work w =>
    match e.pc w with
    | .notify _ => calling (e.wake.calls (.inl w))
    | .yieldNow => some (e.ticker w)
    | _ => none
  | .sched t =>
    match e.sched t, t with
    | .wakeLocal, .inl w => (e.stored w).map fun k => (w, k)
    | .notify, _ => calling (e.wake.calls t)
    | _, _ => none
  | _ => none

/-- The thread that makes a move of the executor. -/
def thread : Exec.Act n m R → Thread n m
  | .poll w | .work w | .start w _ | .finish w | .panic w => .inl w
  | .schedule t _ | .sched t => t

/-- What `block_on` does in a move of the executor: a poll returns, or a panic ends the call,
    or a waker is called. -/
def effect (e : Exec n m R) (a : Exec.Act n m R) : Option (BlockOn.Act (Caller n m)) :=
  match a with
  | .panic w => some (.polled (.inl (e.ticker w)) true)
  | .work w =>
    match e.pc w with
    | .ret => some (.polled (.inl (e.ticker w)) false)
    | _ => (waker e a).map fun i => .call (caller e (.inl w)) (.inl i)
  | _ => (waker e a).map fun i => .call (caller e (thread a)) (.inl i)

/-- The places of `block_on` at which a thread makes a move of the executor: in a poll, or where
    it calls wakers, which may be those of tasks. -/
def place : Exec.Act n m R → BlockOn.Pc → Bool
  | .schedule .., p | .sched _, p => p.calls
  | _, p => p = .poll

/-- The thread of a move is where it can make it. -/
def Ready (s : State n m R) (a : Exec.Act n m R) : Prop :=
  s.block.waking (caller s.exec (thread a)) = .idle ∧
    place a (s.block.pc (caller s.exec (thread a))) = true

instance (s : State n m R) (a : Exec.Act n m R) : Decidable (Ready s a) :=
  inferInstanceAs (Decidable (_ ∧ _))

/-- The thread of this call of `block_on` is neither inside `schedule` nor in `tick`. -/
def Free (e : Exec n m R) (i : Caller n m) : Prop :=
  ∃ t, caller e t = i ∧ e.sched t = .idle ∧ e.free t = true

instance [DecidableEq R] (e : Exec n m R) (i : Caller n m) : Decidable (Free e i) :=
  inferInstanceAs (Decidable (∃ t, caller e t = i ∧ e.sched t = .idle ∧ e.free t = true))

/-- The moves of `block_on` that are not part of a move of the executor.  The polls of the
    workers are, and the reactor thread is not a worker. -/
def Alone (e : Exec n m R) : BlockOn.Act (Caller n m) → Prop
  | .polled (.inl _) _ | .react (.inl _) => False
  | .polled (.inr j) _ | .react (.inr j) => Free e (.inr j)
  | .enter i | .next i | .elapsed i _ | .wait i _ | .woken i | .call i _ | .notify i => Free e i
  | .epollReturn .. | .interrupt _ | .wakeup _ | .wake _ => True

instance [DecidableEq R] (e : Exec n m R) : DecidablePred (Alone e)
  | .polled (.inl _) _ | .react (.inl _) => isFalse id
  | .polled (.inr j) _ | .react (.inr j) => inferInstanceAs (Decidable (Free e (.inr j)))
  | .enter i | .next i | .elapsed i _ | .wait i _ | .woken i | .call i _ | .notify i =>
    inferInstanceAs (Decidable (Free e i))
  | .epollReturn .. | .interrupt _ | .wakeup _ | .wake _ => isTrue trivial

/-- The moves of the executor, and the other moves of `block_on`. -/
inductive Act (n m : ℕ) (R : Type) where
  | exec (a : Exec.Act n m R)
  | block (b : BlockOn.Act (Caller n m))

section Steps
variable [DecidableEq R]

/-- Both components move, or `block_on` alone. -/
def step (s : State n m R) : Act n m R → Option (State n m R)
  | .exec a =>
    if Ready s a then
      (s.exec.step a).bind fun e =>
        match effect s.exec a with
        | none => some ⟨e, s.block⟩
        | some b => (BlockOn.step s.block b).map fun block => ⟨e, block⟩
    else none
  | .block b =>
    if Alone s.exec b then (BlockOn.step s.block b).map fun block => ⟨s.exec, block⟩ else none

/-- `n` worker threads and `m` others. -/
def system : Lts (State n m R) (Act n m R) where
  init s := s = init
  step := step

variable {s s' : State n m R}

theorem step_exec {a : Exec.Act n m R} (hs : step s (.exec a) = some s') :
    Ready s a ∧ s.exec.step a = some s'.exec ∧
      ((effect s.exec a = none ∧ s'.block = s.block) ∨
        ∃ b, effect s.exec a = some b ∧ BlockOn.step s.block b = some s'.block) := by
  simp only [step] at hs
  split_ifs at hs with hready
  obtain ⟨e, he, hs⟩ := Option.bind_eq_some_iff.1 hs
  cases heff : effect s.exec a with
  | none =>
    rw [heff] at hs
    cases hs
    exact ⟨hready, he, Or.inl ⟨rfl, rfl⟩⟩
  | some b =>
    rw [heff] at hs
    obtain ⟨block, hb, rfl⟩ := Option.map_eq_some_iff.1 hs
    exact ⟨hready, he, Or.inr ⟨b, rfl, hb⟩⟩

/-- A move of the executor that is none of `block_on`. -/
theorem block_of_none {a : Exec.Act n m R} (hs : step s (.exec a) = some s')
    (heff : effect s.exec a = none) : s'.block = s.block := by
  obtain ⟨-, -, ⟨-, hb⟩ | ⟨b, hb, -⟩⟩ := step_exec hs
  · exact hb
  · rw [heff] at hb
    cases hb

/-- And one that is. -/
theorem block_of_some {a : Exec.Act n m R} {b : BlockOn.Act (Caller n m)}
    (hs : step s (.exec a) = some s') (heff : effect s.exec a = some b) :
    BlockOn.step s.block b = some s'.block := by
  obtain ⟨-, -, ⟨hn, -⟩ | ⟨b', hb, hstep⟩⟩ := step_exec hs
  · rw [heff] at hn
    cases hn
  · rw [heff] at hb
    cases hb
    exact hstep

theorem step_block {b : BlockOn.Act (Caller n m)} (hs : step s (.block b) = some s') :
    Alone s.exec b ∧ s'.exec = s.exec ∧ BlockOn.step s.block b = some s'.block := by
  simp only [step] at hs
  split_ifs at hs with halone
  obtain ⟨block, hb, rfl⟩ := Option.map_eq_some_iff.1 hs
  exact ⟨halone, rfl, hb⟩

/-! ## The components -/

variable {C : State n m R → Act n m R → Prop}

/-- A run of the workers is a run of the executor. -/
theorem exec_reach {D : Exec n m R → Exec.Act n m R → Prop}
    (hC : ∀ s a, C s (.exec a) → D s.exec a) (h : system.Reach C s) :
    Exec.system.Reach D s.exec := by
  refine h.map (f := State.exec) (fun s hs => by rw [show s = init from hs]; rfl) ?_
  intro s a s' _ hc hs
  cases a with
  | exec a =>
    obtain ⟨-, he, -⟩ := step_exec hs
    exact Or.inr ⟨a, hC s a hc, he⟩
  | block b => exact Or.inl (step_block hs).2.1

/-- And one of the threads in `block_on`. -/
theorem block_reach (h : system.Reach C s) : BlockOn.system.Reachable s.block := by
  refine h.map (f := State.block) (fun s hs => by rw [show s = init from hs]; rfl) ?_
  intro s a s' _ _ hs
  cases a with
  | exec a =>
    obtain ⟨-, -, ⟨-, he⟩ | ⟨b, -, hb⟩⟩ := step_exec hs
    · exact Or.inl he
    · exact Or.inr ⟨b, trivial, hb⟩
  | block b => exact Or.inr ⟨b, trivial, (step_block hs).2.2⟩

/-! ## The wakers of the tickers -/

/-- A place inside a poll. -/
def Inside (p : Pc n R) : Prop := p ≠ .unstarted ∧ p ≠ .pending

omit [DecidableEq R] in
theorem Inside.of_phase {p : Pc n R} (hp : p.phase ≠ .away ∧ p.phase ≠ .pending) : Inside p :=
  ⟨fun he => hp.1 (by rw [he]; rfl), fun he => hp.2 (by rw [he]; rfl)⟩

omit [DecidableEq R] in
/-- `State::notify` calls the waker that it is about to call, and no other. -/
theorem notify_woken {wake : Wake (Fin n × ℕ) (Thread n m)} {t : Thread n m} {i : Fin n × ℕ}
    (hw : (wake.notify t).woken i = true) :
    wake.woken i = true ∨ calling (wake.calls t) = some i := by
  unfold Wake.notify at hw
  split at hw
  · split_ifs at hw <;> exact Or.inl hw
  · split at hw <;> exact Or.inl hw
  next j hj =>
    rw [hj]
    by_cases hij : i = j
    · exact Or.inr (by rw [hij]; rfl)
    · left
      simpa [Wake.wakeup, Wake.setCall, hij] using hw

/-- A ticker is woken by a call of its waker. -/
theorem woken_of_step {e e' : Exec n m R} {a : Exec.Act n m R} (hs : e.step a = some e')
    {i : Fin n × ℕ} (hw : e'.wake.woken i = true) :
    e.wake.woken i = true ∨ waker e a = some i := by
  cases a with
  | poll w =>
    left
    have hpoll : e'.wake = e.wake.poll (e.ticker w) := by
      simp only [Exec.step, Exec.poll] at hs
      split at hs <;> cases hs <;> rfl
    rw [hpoll] at hw
    by_cases hi : i = e.ticker w
    · subst hi
      simp [Wake.poll] at hw
    · simpa [Wake.poll, hi] using hw
  | work w =>
    obtain ⟨-, hp⟩ | ⟨-, rfl⟩ | ⟨r, -, rfl⟩ | ⟨r, -, rfl⟩ | ⟨r, hp, rfl⟩ | ⟨hp, rfl⟩ | ⟨-, rfl⟩ :=
      Exec.work_cases hs
    · exact Or.inl (hp.wake ▸ hw)
    · exact Or.inl (by simpa [Exec.goto] using hw)
    · exact Or.inl hw
    · exact Or.inl hw
    · simp only [waker, hp]
      exact notify_woken hw
    · simp only [waker, hp]
      by_cases hi : i = e.ticker w
      · exact Or.inr (by rw [hi])
      · left
        simpa [Exec.goto, Wake.wakeup, hi] using hw
    · exact Or.inl hw
  | start w k =>
    simp only [Exec.step, Exec.start] at hs
    split at hs
    · split_ifs at hs
      cases hs
      exact Or.inl hw
    · cases hs
  | finish w =>
    simp only [Exec.step, Exec.finish] at hs
    split at hs
    · split_ifs at hs <;> cases hs <;> exact Or.inl hw
    · cases hs
  | panic w =>
    simp only [Exec.step, Exec.panic] at hs
    split at hs <;> cases hs
    exact Or.inl hw
  | schedule t r =>
    simp only [Exec.step, Exec.schedule] at hs
    split at hs
    · split_ifs at hs
      cases hs
      exact Or.inl hw
    · cases hs
  | sched t =>
    obtain ⟨-, -, -, hwake, -⟩ | ⟨w, k, rfl, hp, hk, rfl⟩ | ⟨r, queue, -, -, rfl⟩ | ⟨hp, rfl⟩ :=
      Exec.schedStep_cases hs
    · exact Or.inl (hwake ▸ hw)
    · simp only [waker, hp, hk, Option.map_some]
      by_cases hi : i = (w, k)
      · exact Or.inr (by rw [hi])
      · left
        simpa [Exec.setSched, Wake.wakeup, hi] using hw
    · exact Or.inl hw
    · simp only [waker, hp]
      exact notify_woken hw

omit [DecidableEq R] in
/-- A waker call leaves a token. -/
theorem call_spec {b b' : BlockOn.State (Caller n m)} {i j : Caller n m}
    (hs : BlockOn.step b (.call i j) = some b') : b'.pc = b.pc ∧
      (b'.parker j).state = Parking.NOTIFIED ∧
      ∀ k, (b.parker k).state = Parking.NOTIFIED → (b'.parker k).state = Parking.NOTIFIED := by
  simp only [BlockOn.step, Option.ite_none_right_eq_some] at hs
  obtain ⟨q, hq, rfl⟩ := Option.map_eq_some_iff.1 hs.2
  have hstate := (BlockOn.unpark_state hq).1
  refine ⟨rfl, ?_, fun k hk => ?_⟩
  · simpa [BlockOn.State.setParker, BlockOn.State.setWaking] using hstate
  · by_cases hkj : k = j
    · subst hkj
      simpa [BlockOn.State.setParker, BlockOn.State.setWaking] using hstate
    · simpa [BlockOn.State.setParker, BlockOn.State.setWaking, hkj] using hk

omit [DecidableEq R] in
theorem polled_spec {b b' : BlockOn.State (Caller n m)} {i : Caller n m} {ready : Bool}
    (hs : BlockOn.step b (.polled i ready) = some b') :
    b'.parker = b.parker ∧ ∀ j, j ≠ i → b'.pc j = b.pc j := by
  simp only [BlockOn.step, Option.ite_none_right_eq_some, Option.some.injEq] at hs
  obtain ⟨-, rfl⟩ := hs
  exact ⟨rfl, fun j hj => Function.update_of_ne hj _ _⟩

/-- A worker and its `block_on`. -/
structure Linked (s : State n m R) (w : Fin n) : Prop where
  /-- the later sessions have not begun -/
  fresh : ∀ k, s.exec.session w < k → s.block.pc (.inl (w, k)) = .out
  start : s.exec.pc w = .unstarted →
    s.block.pc (.inl (s.exec.ticker w)) = .out ∨ s.block.pc (.inl (s.exec.ticker w)) = .poll
  polling : Inside (s.exec.pc w) → s.block.pc (.inl (s.exec.ticker w)) = .poll
  /-- a waker called during the poll has left a token -/
  notified : Inside (s.exec.pc w) → s.exec.wake.woken (s.exec.ticker w) = true →
    (s.block.parker (.inl (s.exec.ticker w))).state = Parking.NOTIFIED
  told : s.exec.pc w = .pending → s.exec.wake.woken (s.exec.ticker w) = true →
    Told s.block (.inl (s.exec.ticker w))

omit [DecidableEq R] in
theorem linked_init (w : Fin n) : Linked (init : State n m R) w where
  fresh _ _ := rfl
  start _ := Or.inl rfl
  polling h := absurd rfl h.1
  notified h := absurd rfl h.1
  told h := by cases h

/-! ## One step -/

/-- A move of `block_on` alone. -/
theorem Linked.block {w : Fin n} (h : Linked s w) (hinv : BlockOn.Inv s.block)
    {b : BlockOn.Act (Caller n m)} (hs : step s (.block b) = some s') : Linked s' w := by
  obtain ⟨halone, he, hb⟩ := step_block hs
  have hpolled : ∀ i ready, b ≠ .polled (.inl i) ready := by
    rintro i ready rfl
    exact halone
  have hreact : ∀ i, b ≠ .react (.inl i) := by
    rintro i rfl
    exact halone
  have henter : ∀ k, b = .enter (.inl (w, k)) → k = s.exec.session w := by
    rintro k rfl
    obtain ⟨t, ht, -⟩ := halone
    cases t with
    | inl v =>
      obtain ⟨rfl, hk⟩ := Prod.mk.inj (Sum.inl.inj ht)
      exact hk.symm
    | inr j => cases ht
  refine ⟨fun k hk => ?_, fun hp => ?_, fun hp => ?_, fun hp hw => ?_, fun hp hw => ?_⟩ <;>
    rw [he] at *
  · refine BlockOn.out_step (h.fresh k hk) ⟨fun hbk => ?_, hreact _⟩ hb
    exact absurd (henter k hbk) hk.ne'
  · rcases h.start hp with hout | hpoll
    · by_cases hbi : b = .enter (.inl (s.exec.ticker w))
      · right
        rw [hbi] at hb
        simp only [BlockOn.step, Option.ite_none_right_eq_some, Option.some.injEq] at hb
        rw [← hb.2]
        exact Function.update_self _ _ _
      · exact Or.inl (BlockOn.out_step hout ⟨hbi, hreact _⟩ hb)
    · exact Or.inr (BlockOn.polling_step hpoll (hpolled _) hb).1
  · exact (BlockOn.polling_step (h.polling hp) (hpolled _) hb).1
  · exact (BlockOn.polling_step (h.polling hp) (hpolled _) hb).2 (h.notified hp hw)
  · exact (h.told hp hw).step hinv (hpolled _) hb

/-- What a move of the executor leaves to a call of `block_on` whose poll does not return. -/
structure Passes (i : Caller n m) (b b' : BlockOn.State (Caller n m)) : Prop where
  pc : b'.pc i = b.pc i
  token : (b.parker i).state = Parking.NOTIFIED → (b'.parker i).state = Parking.NOTIFIED
  told : Told b i → Told b' i

omit [DecidableEq R] in
theorem effect_cases (e : Exec n m R) (a : Exec.Act n m R) :
    (waker e a = none ∧ effect e a = none) ∨
    (∃ i, waker e a = some i ∧ effect e a = some (.call (caller e (thread a)) (.inl i))) ∨
    (waker e a = none ∧ ∃ w, (a = .work w ∧ e.pc w = .ret ∧
        effect e a = some (.polled (.inl (e.ticker w)) false)) ∨
      (a = .panic w ∧ effect e a = some (.polled (.inl (e.ticker w)) true))) := by
  have hmap : effect e a = (waker e a).map (fun i => .call (caller e (thread a)) (.inl i)) →
      (waker e a = none ∧ effect e a = none) ∨
      ∃ i, waker e a = some i ∧ effect e a = some (.call (caller e (thread a)) (.inl i)) := by
    intro he
    cases hw : waker e a with
    | none => exact Or.inl ⟨rfl, by rw [he, hw]; rfl⟩
    | some i => exact Or.inr ⟨i, rfl, by rw [he, hw]; rfl⟩
  cases a with
  | work w =>
    by_cases hp : e.pc w = .ret
    · refine Or.inr (Or.inr ⟨?_, w, Or.inl ⟨rfl, hp, ?_⟩⟩)
      · simp only [waker, hp]
      · simp only [effect, hp]
    · have he : effect e (.work w) =
          (waker e (.work w)).map fun i => .call (caller e (.inl w)) (.inl i) := by
        cases hpc : e.pc w <;> simp only [effect, hpc]
        exact absurd hpc hp
      rcases hmap he with hn | hc
      · exact Or.inl hn
      · exact Or.inr (Or.inl hc)
  | panic w => exact Or.inr (Or.inr ⟨rfl, w, Or.inr ⟨rfl, rfl⟩⟩)
  | poll w => exact Or.inl ⟨rfl, rfl⟩
  | start w k => exact Or.inl ⟨rfl, rfl⟩
  | finish w => exact Or.inl ⟨rfl, rfl⟩
  | schedule t r => exact Or.inl ⟨rfl, rfl⟩
  | sched t =>
    rcases hmap rfl with hn | hc
    · exact Or.inl hn
    · exact Or.inr (Or.inl hc)

/-- A move of the executor keeps tokens, and a waker that it calls leaves one. -/
theorem effect_spec (hinv : BlockOn.Inv s.block) {a : Exec.Act n m R}
    (hs : step s (.exec a) = some s') :
    (∀ i, (∀ ready, effect s.exec a ≠ some (.polled i ready)) → Passes i s.block s'.block) ∧
      ∀ i, s'.exec.wake.woken i = true → s.exec.wake.woken i = true ∨
        (s'.block.parker (.inl i)).state = Parking.NOTIFIED := by
  have he := (step_exec hs).2.1
  have hsilent : waker s.exec a = none →
      ∀ i, s'.exec.wake.woken i = true → s.exec.wake.woken i = true := by
    intro hw i hi
    refine (woken_of_step he hi).resolve_right ?_
    rw [hw]
    simp
  obtain ⟨hw, heff⟩ | ⟨j, hw, heff⟩ | ⟨hw, hpolled⟩ := effect_cases s.exec a
  · have hb := block_of_none hs heff
    exact ⟨fun i _ => by rw [hb]; exact ⟨rfl, id, id⟩, fun i hi => Or.inl (hsilent hw i hi)⟩
  · have hb := block_of_some hs heff
    obtain ⟨hpc, htarget, hkeep⟩ := call_spec hb
    refine ⟨fun i _ => ⟨by rw [hpc], hkeep i, fun ht => ht.step hinv (by simp) hb⟩, fun i hi => ?_⟩
    refine (woken_of_step he hi).imp_right fun hi => ?_
    rw [hw] at hi
    cases hi
    exact htarget
  · obtain ⟨c, ready, heff⟩ : ∃ c ready, effect s.exec a = some (.polled c ready) := by
      obtain ⟨w, ⟨-, -, heff⟩ | ⟨-, heff⟩⟩ := hpolled
      · exact ⟨_, _, heff⟩
      · exact ⟨_, _, heff⟩
    obtain ⟨hparker, hpc⟩ := polled_spec (block_of_some hs heff)
    refine ⟨fun i hi => ?_, fun i hi => Or.inl (hsilent hw i hi)⟩
    have hic : i ≠ c := by
      rintro rfl
      exact hi ready heff
    refine ⟨hpc i hic, by rw [hparker]; exact id, fun ht => ?_⟩
    unfold BlockOn.Told
    rw [hparker, hpc i hic]
    exact ht

omit [DecidableEq R] in
/-- A worker that does not return from its poll. -/
theorem Linked.stays {w : Fin n} (h : Linked s w)
    (hsession : s'.exec.session w = s.exec.session w)
    (hpass : ∀ k, Passes (.inl (w, k)) s.block s'.block)
    (hwoken : ∀ i, s'.exec.wake.woken i = true → s.exec.wake.woken i = true ∨
      (s'.block.parker (.inl i)).state = Parking.NOTIFIED)
    (hpc : s'.exec.pc w = s.exec.pc w ∨ Inside (s.exec.pc w) ∧ s'.exec.pc w ≠ .pending) :
    Linked s' w := by
  have hticker : s'.exec.ticker w = s.exec.ticker w := by
    rw [Exec.ticker, Exec.ticker, hsession]
  have hi := hpass (s.exec.session w)
  have hin : Inside (s'.exec.pc w) → Inside (s.exec.pc w) := by
    rcases hpc with he | ⟨hin, -⟩
    · rw [he]
      exact id
    · exact fun _ => hin
  refine ⟨fun k hk => ?_, fun hp => ?_, fun hp => ?_, fun hp hw => ?_, fun hp hw => ?_⟩
  · rw [(hpass k).pc]
    exact h.fresh k (hsession ▸ hk)
  · rw [hticker, show s'.block.pc (.inl (s.exec.ticker w)) = _ from hi.pc]
    rcases hpc with he | ⟨hin, -⟩
    · exact h.start (he ▸ hp)
    · exact Or.inr (h.polling hin)
  · rw [hticker, show s'.block.pc (.inl (s.exec.ticker w)) = _ from hi.pc]
    exact h.polling (hin hp)
  · rw [hticker] at hw ⊢
    rcases hwoken _ hw with hw | hw
    · exact hi.token (h.notified (hin hp) hw)
    · exact hw
  · rw [hticker] at hw ⊢
    rcases hpc with he | ⟨-, hne⟩
    · rcases hwoken _ hw with hw | hw
      · exact hi.told (h.told (he ▸ hp) hw)
      · exact Or.inl hw
    · exact absurd hp hne

/-- The moves of worker `w` in its poll. -/
def Own (w : Fin n) : Exec.Act n m R → Prop
  | .poll v | .work v | .start v _ | .finish v | .panic v => w = v
  | .schedule .. | .sched _ => False

/-- The moves of the others. -/
theorem others_step {e e' : Exec n m R} {a : Exec.Act n m R} (hs : e.step a = some e') {w : Fin n}
    (ha : ¬ Own w a) : e'.pc w = e.pc w ∧ e'.session w = e.session w := by
  cases a with
  | poll v => exact ⟨(Exec.frame_poll hs).pc w ha, (Exec.frame_poll hs).session w ha⟩
  | work v => exact ⟨(Exec.frame_work hs).pc w ha, (Exec.frame_work hs).session w ha⟩
  | start v k => exact ⟨(Exec.frame_start hs).pc w ha, (Exec.frame_start hs).session w ha⟩
  | finish v => exact ⟨(Exec.frame_finish hs).pc w ha, (Exec.frame_finish hs).session w ha⟩
  | panic v => exact ⟨(Exec.frame_panic hs).pc w ha, (Exec.frame_panic hs).session w ha⟩
  | schedule t r =>
    simp only [Exec.step, Exec.schedule] at hs
    split at hs
    · split_ifs at hs
      cases hs
      exact ⟨rfl, rfl⟩
    · cases hs
  | sched t =>
    obtain ⟨hpc, -, hsession, -⟩ := Exec.schedStep_frame hs
    exact ⟨by rw [hpc], by rw [hsession]⟩

/-- A move of a worker between the beginning and the end of a poll. -/
theorem own_step {e e' : Exec n m R} {a : Exec.Act n m R} (hs : e.step a = some e') {w : Fin n}
    (ha : Own w a) (hpoll : a ≠ .poll w) (hpanic : a ≠ .panic w)
    (hret : ¬ (a = .work w ∧ e.pc w = .ret)) :
    Inside (e.pc w) ∧ e'.pc w ≠ .pending ∧ e'.session w = e.session w := by
  have goto : ∀ {u : Exec n m R} {p q : Pc n R}, e.pc w = q → u.session = e.session →
      Inside q → p ≠ .pending →
      Inside (e.pc w) ∧ (u.goto w p).pc w ≠ .pending ∧ (u.goto w p).session w = e.session w := by
    intro u p q hq hsession hin hp
    refine ⟨hq ▸ hin, ?_, by rw [← hsession]; rfl⟩
    rw [show (u.goto w p).pc w = p from Function.update_self _ _ _]
    exact hp
  cases a with
  | poll v => exact absurd (congrArg Exec.Act.poll (Eq.symm ha)) hpoll
  | panic v => exact absurd (congrArg Exec.Act.panic (Eq.symm ha)) hpanic
  | work v =>
    obtain rfl : w = v := ha
    obtain ⟨hb, hp⟩ | ⟨hp, rfl⟩ | ⟨r, hp, rfl⟩ | ⟨r, hp, rfl⟩ | ⟨r, hp, rfl⟩ | ⟨hp, rfl⟩ |
        ⟨hp, -⟩ :=
      Exec.work_cases hs
    · refine ⟨.of_phase (by rw [hb]; simp), fun he => ?_, by rw [hp.session]⟩
      have hphase := hp.phase
      rw [he] at hphase
      rcases hphase with hphase | hphase <;> cases hphase
    · exact goto hp rfl (by simp [Inside]) (by simp)
    · exact goto hp rfl (by simp [Inside]) (by split_ifs <;> simp)
    · exact goto hp rfl (by simp [Inside]) (by simp)
    · exact goto hp rfl (by simp [Inside]) (by split_ifs <;> simp)
    · exact goto hp rfl (by simp [Inside]) (by simp)
    · exact absurd ⟨rfl, hp⟩ hret
  | start v k =>
    obtain rfl : w = v := ha
    simp only [Exec.step, Exec.start] at hs
    split at hs
    next hp =>
      split_ifs at hs
      cases hs
      exact goto hp rfl (by simp [Inside]) (by simp)
    next => cases hs
  | finish v =>
    obtain rfl : w = v := ha
    simp only [Exec.step, Exec.finish] at hs
    split at hs
    next hp _ =>
      split_ifs at hs <;> cases hs <;> exact goto hp rfl (by simp [Inside]) (by simp)
    next => cases hs
  | schedule t r => exact ha.elim
  | sched t => exact ha.elim

/-- A poll begins with the ticker not woken. -/
theorem poll_spec {e e' : Exec n m R} {w : Fin n} (hs : e.step (.poll w) = some e') :
    e'.pc w = .popOwn none ∧ e'.session = e.session ∧ e'.wake.woken (e.ticker w) = false := by
  simp only [Exec.step, Exec.poll] at hs
  split at hs <;> cases hs <;> exact ⟨Function.update_self _ _ _, rfl, Function.update_self _ _ _⟩

/-- A panic is the end of a session. -/
theorem panic_spec {e e' : Exec n m R} {w : Fin n} (hs : e.step (.panic w) = some e') :
    e'.pc w = .unstarted ∧ e'.session w = e.session w + 1 := by
  simp only [Exec.step, Exec.panic] at hs
  split at hs <;> cases hs
  exact ⟨Function.update_self _ _ _, Function.update_self _ _ _⟩

omit [DecidableEq R] in
/-- Only the end of a poll, or a panic, is one for `block_on`. -/
theorem effect_polled {e : Exec n m R} {a : Exec.Act n m R} {w : Fin n} {k : ℕ} {ready : Bool}
    (h : effect e a = some (.polled (.inl (w, k)) ready)) :
    a = .work w ∧ e.pc w = .ret ∨ a = .panic w := by
  obtain ⟨-, heff⟩ | ⟨j, -, heff⟩ | ⟨-, v, ⟨rfl, hp, heff⟩ | ⟨rfl, heff⟩⟩ := effect_cases e a
  · rw [heff] at h
    cases h
  · rw [heff] at h
    cases h
  · rw [heff] at h
    cases h
    exact Or.inl ⟨rfl, hp⟩
  · rw [heff] at h
    cases h
    exact Or.inr rfl

/-- A poll begins. -/
theorem Linked.poll {w : Fin n} (h : Linked s w) (hs : step s (.exec (.poll w)) = some s') :
    Linked s' w := by
  obtain ⟨hready, he, -⟩ := step_exec hs
  have hb : s'.block = s.block := block_of_none hs rfl
  have hpolling : s.block.pc (.inl (s.exec.ticker w)) = .poll := of_decide_eq_true hready.2
  obtain ⟨hpc, hsession, hwoken⟩ := poll_spec he
  have hticker : s'.exec.ticker w = s.exec.ticker w := by rw [Exec.ticker, Exec.ticker, hsession]
  refine ⟨fun k hk => ?_, fun hp => ?_, fun _ => ?_, fun _ hw => ?_, fun hp => ?_⟩
  · rw [hb]
    exact h.fresh k (hsession ▸ hk)
  · rw [hpc] at hp
    cases hp
  · rw [hb, hticker]
    exact hpolling
  · rw [hticker, hwoken] at hw
    cases hw
  · rw [hpc] at hp
    cases hp

/-- A poll ends with `Pending`. -/
theorem Linked.ret {w : Fin n} (h : Linked s w) (hp : s.exec.pc w = .ret)
    (hs : step s (.exec (.work w)) = some s') : Linked s' w := by
  have he := (step_exec hs).2.1
  have heff : effect s.exec (.work w) = some (.polled (.inl (s.exec.ticker w)) false) := by
    simp only [effect, hp]
  have hb := block_of_some hs heff
  have hexec : s'.exec = s.exec.goto w .pending := by
    simp only [Exec.step, Exec.work, hp] at he
    exact (Option.some.inj he).symm
  have hpc : s'.exec.pc w = .pending := by
    rw [hexec]
    exact Function.update_self _ _ _
  obtain ⟨hparker, hother⟩ := polled_spec hb
  refine ⟨fun k hk => ?_, fun hp' => ?_, fun hp' => ?_, fun hp' => ?_, fun _ hw => ?_⟩
  · rw [hexec] at hk
    rw [hother _ fun hk' => ?_]
    · exact h.fresh k hk
    · cases hk'
      exact lt_irrefl _ hk
  · rw [hpc] at hp'
    cases hp'
  · exact absurd hpc hp'.2
  · exact absurd hpc hp'.2
  · rw [hexec] at hw ⊢
    have hin : Inside (s.exec.pc w) := by simp [Inside, hp]
    left
    rw [hparker]
    exact h.notified hin hw

/-- A panic ends the call of `block_on`, and the worker begins another one. -/
theorem Linked.panic {w : Fin n} (h : Linked s w) (hs : step s (.exec (.panic w)) = some s') :
    Linked s' w := by
  have he := (step_exec hs).2.1
  have hb : BlockOn.step s.block (.polled (.inl (s.exec.ticker w)) true) = some s'.block :=
    block_of_some hs rfl
  obtain ⟨hpc, hsession⟩ := panic_spec he
  have hfresh : ∀ k, s.exec.session w < k → s'.block.pc (.inl (w, k)) = .out := by
    intro k hk
    rw [(polled_spec hb).2 _ fun hk' => ?_]
    · exact h.fresh k hk
    · cases hk'
      exact lt_irrefl _ hk
  refine ⟨fun k hk => hfresh k (by omega), fun _ => Or.inl ?_, fun hp => ?_, fun hp => ?_,
    fun hp => ?_⟩
  · rw [Exec.ticker, hsession]
    exact hfresh _ (Nat.lt_succ_self _)
  · exact absurd hpc hp.1
  · exact absurd hpc hp.1
  · rw [hpc] at hp
    cases hp

theorem Linked.exec {w : Fin n} (h : Linked s w) (hinv : BlockOn.Inv s.block) {a : Exec.Act n m R}
    (hs : step s (.exec a) = some s') : Linked s' w := by
  by_cases hpoll : a = .poll w
  · exact h.poll (hpoll ▸ hs)
  by_cases hpanic : a = .panic w
  · exact h.panic (hpanic ▸ hs)
  by_cases hret : a = .work w ∧ s.exec.pc w = .ret
  · exact h.ret hret.2 (hret.1 ▸ hs)
  obtain ⟨hpass, hwoken⟩ := effect_spec hinv hs
  have he := (step_exec hs).2.1
  have hstays : s'.exec.session w = s.exec.session w ∧
      (s'.exec.pc w = s.exec.pc w ∨ Inside (s.exec.pc w) ∧ s'.exec.pc w ≠ .pending) := by
    by_cases hown : Own w a
    · obtain ⟨hin, hpc, hsession⟩ := own_step he hown hpoll hpanic hret
      exact ⟨hsession, Or.inr ⟨hin, hpc⟩⟩
    · obtain ⟨hpc, hsession⟩ := others_step he hown
      exact ⟨hsession, Or.inl hpc⟩
  refine h.stays hstays.1 (fun k => hpass _ fun ready heff => ?_) hwoken hstays.2
  rcases effect_polled heff with ha | ha
  · exact hret ha
  · exact hpanic ha

theorem linked_reach (h : system.Reach C s) (w : Fin n) : Linked s w := by
  refine h.inv (P := fun s => Linked s w) ?_ ?_
  · rintro _ rfl
    exact linked_init w
  · intro s a s' hr hl _ hs
    have hinv := BlockOn.inv_reachable (block_reach hr)
    cases a with
    | exec a => exact hl.exec hinv hs
    | block b => exact hl.block hinv hs

/-! ## No thread stays blocked with a task -/

/-- A ticker that is pending and woken is so until its next poll. -/
theorem woken_stays (hsync : Exec.Sync s.exec) {a : Act n m R} {w : Fin n}
    (ha : a ≠ .exec (.poll w)) (hs : step s a = some s') (hp : s.exec.pc w = .pending)
    (hw : s.exec.wake.woken (s.exec.ticker w) = true) : s'.exec.pc w = .pending ∧
      s'.exec.ticker w = s.exec.ticker w ∧ s'.exec.wake.woken (s.exec.ticker w) = true := by
  cases a with
  | block b =>
    rw [(step_block hs).2.1]
    exact ⟨hp, rfl, hw⟩
  | exec a =>
    have hpoll : a ≠ .poll w := fun he => ha (by rw [he])
    have he := (step_exec hs).2.1
    have hown : ¬ Own w a := by
      intro hown
      have hpanic : a ≠ .panic w := by
        rintro rfl
        simp [Exec.step, Exec.panic, hp] at he
      have hret : ¬ (a = .work w ∧ s.exec.pc w = .ret) := by
        rintro ⟨-, hret⟩
        rw [hp] at hret
        cases hret
      exact (own_step he hown hpoll hpanic hret).1.2 hp
    obtain ⟨hpc, hsession⟩ := others_step he hown
    refine ⟨hpc.trans hp, ?_, Exec.woken_step hsync he hpoll hw⟩
    rw [Exec.ticker, Exec.ticker, hsession]

theorem sync_reach (h : system.Reach C s) : Exec.Sync s.exec := by
  have hreach : Exec.system.Reachable s.exec := exec_reach (fun _ _ _ => trivial) h
  refine hreach.inv (P := Exec.Sync) ?_ ?_
  · rintro _ rfl
    exact Exec.sync_new
  · intro e a e' _ hsync _ he
    exact hsync.step he

/-- The ticker of a blocked thread has returned `Pending`, and was not woken since. -/
theorem Linked.asleep {w : Fin n} (h : Linked s w) (hinv : BlockOn.Inv s.block)
    (hst : Stuck s.block (.inl (s.exec.ticker w))) :
    s.exec.pc w = .pending ∧ s.exec.wake.woken (s.exec.ticker w) = false := by
  have hpc : s.block.pc (.inl (s.exec.ticker w)) ≠ .out ∧
      s.block.pc (.inl (s.exec.ticker w)) ≠ .poll := by
    rcases hst.1 with ⟨hpc, -⟩ | ⟨k, _, _, hpc, -⟩ <;> rw [hpc] <;> simp
  have hp : s.exec.pc w = .pending := by
    by_contra hne
    by_cases hun : s.exec.pc w = .unstarted
    · rcases h.start hun with hout | hpoll
      · exact hpc.1 hout
      · exact hpc.2 hpoll
    · exact hpc.2 (h.polling ⟨hun, hne⟩)
  refine ⟨hp, ?_⟩
  by_contra hw
  exact (h.told hp (by simpa using hw)).not_stuck hinv hst

/-- The moves of the executor meet a condition. -/
def OnExec (D : Exec n m R → Exec.Act n m R → Prop) (s : State n m R) : Act n m R → Prop
  | .exec a => D s.exec a
  | .block _ => True

instance {D : Exec n m R → Exec.Act n m R → Prop} [∀ e a, Decidable (D e a)] (s : State n m R) :
    ∀ a, Decidable (OnExec D s a)
  | .exec a => inferInstanceAs (Decidable (D s.exec a))
  | .block _ => isTrue trivial

end Steps

/-- The only worker searches in vain and waits in its `react`. -/
def searchAndWait : List (Act 1 1 ℕ) :=
  [.block (.enter (.inl (0, 0))), .exec (.poll 0), .exec (.work 0), .exec (.work 0),
    .exec (.work 0), .exec (.work 0), .exec (.start 0 0), .exec (.work 0), .exec (.work 0),
    .exec (.work 0), .exec (.work 0)] ++ List.replicate 7 (.block (.next (.inl (0, 0)))) ++
  [.block (.wait (.inl (0, 0)) none), .block (.next (.inl (0, 0))), .block (.next (.inl (0, 0)))]

/-- Another thread schedules a task, and is in the call of the waker. -/
def scheduleGlobal : List (Act 1 1 ℕ) :=
  .exec (.schedule (.inr 0) 7) :: List.replicate 5 (.exec (.sched (.inr 0)))

/-- `react` returns, and a waker that it calls schedules a task on the worker itself. -/
def scheduleOwn : List (Act 1 1 ℕ) :=
  .block (.epollReturn (.inl (0, 0)) false true) ::
    List.replicate 4 (.block (.next (.inl (0, 0)))) ++ .exec (.schedule (.inl 0) 7) ::
    List.replicate 6 (.exec (.sched (.inl 0)))

end Awak.Workers
