/-
  Wakeups for the global queue.

  `Ticker::tick` returns `Pending` after `sleep` without searching again, so a
  task pushed between a failed search and `sleep` wakes nobody (`global_lost`).
  That is the only way: if no ticker runs the lock section of `sleep` while the
  global queue holds a task whose `schedule` has returned, then a task in the
  global queue always has a ticker that is awake or a call about to wake one
  (`global_served`).

  * `Plain`: the steps of a worker that leave the sleepers alone;
  * `Sync`: the place of a worker agrees with the state of its ticker in `Wake`,
    so that every step is one of `Wake` or none (`wake_step`);
  * `Fed`: the invariant of the runs considered.
-/
import Awak.Executor

namespace Awak

variable {n m : ℕ} {R : Type}

/-- The places of a worker, as far as its ticker is concerned. -/
inductive Phase where
  | away
  | busy
  | lock
  | notify
  | ret
  | pending
  deriving DecidableEq

/-- What a worker is about to do for the sleepers. -/
def Pc.phase : Pc n R → Phase
  | .unstarted | .run _ => .away
  | .wakeLock _ => .lock
  | .notify _ => .notify
  | .ret => .ret
  | .pending => .pending
  | _ => .busy

namespace Exec

variable {s s' : Exec n m R} {w : Fin n}

/-! ## The steps of a worker -/

/-- A step of `w` that leaves the sleepers, the sessions and the calls of `schedule`
    alone, and adds nothing to the global queue. -/
structure Plain (w : Fin n) (s s' : Exec n m R) : Prop where
  wake : s'.wake = s.wake
  session : s'.session = s.session
  stored : s'.stored = s.stored
  sched : s'.sched = s.sched
  pc : ∀ v, v ≠ w → s'.pc v = s.pc v
  phase : (s'.pc w).phase = .busy ∨ (s'.pc w).phase = .away
  queue : s'.queue.queue <:+ s.queue.queue

theorem Plain.goto {p : Pc n R} (hp : p.phase = .busy ∨ p.phase = .away) :
    Plain w s (s.goto w p) where
  wake := rfl
  session := rfl
  stored := rfl
  sched := rfl
  pc v hv := Function.update_of_ne hv _ _
  phase := by simpa [Exec.goto] using hp
  queue := List.suffix_refl _

theorem Plain.found (r : R) : Plain w s (s.found w r) where
  wake := rfl
  session := rfl
  stored := rfl
  sched := rfl
  pc v hv := Function.update_of_ne hv _ _
  phase := by simp [Exec.found, Pc.phase]
  queue := List.suffix_refl _

/-- Changes of the other fields do not matter. -/
theorem Plain.of_eq {t : Exec n m R} (h : Plain w t s') (hw : t.wake = s.wake)
    (hs : t.session = s.session) (ht : t.stored = s.stored) (hc : t.sched = s.sched)
    (hp : t.pc = s.pc) (hq : t.queue.queue <:+ s.queue.queue) : Plain w s s' where
  wake := h.wake.trans hw
  session := h.session.trans hs
  stored := h.stored.trans ht
  sched := h.sched.trans hc
  pc v hv := (h.pc v hv).trans (by rw [hp])
  phase := h.phase
  queue := h.queue.trans hq

theorem Plain.setLocal {q : Fin n} {l : Local (Fin n) R} (h : Plain w (s.setLocal q l) s') :
    Plain w s s' :=
  h.of_eq rfl rfl rfl rfl rfl (List.suffix_refl _)

/-- A call in progress changes its queue only. -/
theorem Plain.inside {q : Fin n} {l : Local (Fin n) R} (hp : (s.pc w).phase = .busy) :
    Plain w s (s.setLocal q l) where
  wake := rfl
  session := rfl
  stored := rfl
  sched := rfl
  pc _ _ := rfl
  phase := Or.inl hp
  queue := List.suffix_refl _

theorem Plain.resume (k : Cont R) : Plain w s (s.resume w k) := by
  cases k with
  | found r => exact .found r
  | shard iter => exact .goto (Or.inl rfl)
  | ticked r => exact .goto (Or.inr rfl)

theorem Plain.stealCount {src : Src n} {k : Cont R} {length : ℕ} :
    Plain w s (s.stealCount w src k length) := by
  unfold Exec.stealCount
  split_ifs
  · exact .goto (Or.inl rfl)
  · exact .goto (Or.inl rfl)
  · exact .resume k

theorem Plain.steal {src : Src n} {k : Cont R} {st : StealPc R} (hp : (s.pc w).phase = .busy)
    (hs : s.steal w src k st = some s') : Plain w s s' := by
  unfold Exec.steal at hs
  split at hs
  · split at hs
    · cases hs; exact .stealCount
    · obtain ⟨l, ⟨-, rfl⟩ | ⟨length, -, rfl⟩⟩ := lenLocal_cases hs
      · exact .inside hp
      · exact Plain.stealCount.setLocal
  · obtain ⟨l, ⟨-, rfl⟩ | ⟨length, -, rfl⟩⟩ := lenLocal_cases hs
    · exact .inside hp
    · refine Plain.setLocal (q := w) (l := l) ?_
      split_ifs <;> exact .goto (Or.inl rfl)
  · cases hs; exact .resume k
  · split at hs
    · split at hs <;> cases hs
      · exact .resume k
      next t queue hq =>
        exact (Plain.goto (Or.inl rfl)).of_eq rfl rfl rfl rfl rfl
          ((Queue.pop_some hq).1 ▸ List.suffix_cons _ _)
    next q =>
      obtain ⟨l, ⟨-, rfl⟩ | ⟨res, -, rfl⟩⟩ := popLocal_cases hs
      · exact .inside hp
      · refine Plain.setLocal (q := q) (l := l) ?_
        split
        · exact .goto (Or.inl rfl)
        · exact .goto (Or.inl rfl)
        · exact .resume k
  · obtain ⟨l, -, rfl⟩ := Option.map_eq_some_iff.1 hs
    exact (Plain.goto (Or.inl rfl)).setLocal
  · obtain ⟨l, ⟨-, rfl⟩ | ⟨res, -, rfl⟩⟩ := pushLocal_cases hs
    · exact .inside hp
    · refine Plain.setLocal (q := w) (l := l) ?_
      split
      · exact .goto (Or.inl rfl)
      · exact (Plain.goto (Or.inl rfl)).of_eq rfl rfl rfl rfl rfl (List.suffix_refl _)

/-- What a step of a worker inside a poll can be. -/
theorem work_cases (hs : s.work w = some s') :
    ((s.pc w).phase = .busy ∧ Plain w s s') ∨
    (s.pc w = .sleep ∧ s' = { s with wake := s.wake.sleep (s.ticker w) }.goto w .ret) ∨
    (∃ r, s.pc w = .wakeSwap r ∧ s' = { s with wake := s.wake.swap (s.ticker w) }.goto w
      (if (s.wake.swap (s.ticker w)).waking (s.ticker w) = 0 then .notify r else .wakeLock r)) ∨
    (∃ r, s.pc w = .wakeLock r ∧
      s' = { s with wake := s.wake.wakeLock (s.ticker w) }.goto w (.notify r)) ∨
    (∃ r, s.pc w = .notify r ∧ s' = { s with wake := s.wake.notify (.inl w) }.goto w
      (if (s.wake.notify (.inl w)).calls (.inl w) = Call.idle then .bump r else .notify r)) ∨
    (s.pc w = .yieldNow ∧ s' = { s with wake := s.wake.wakeup (s.ticker w) }.goto w .ret) ∨
    (s.pc w = .ret ∧ s' = s.goto w .pending) := by
  unfold work at hs
  split at hs
  next rest hp =>
    have hb : (s.pc w).phase = .busy := by rw [hp]; rfl
    refine Or.inl ⟨hb, ?_⟩
    obtain ⟨l, ⟨-, rfl⟩ | ⟨res, -, rfl⟩⟩ := popLocal_cases hs
    · exact .inside hb
    · refine Plain.setLocal (q := w) (l := l) ?_
      split
      · exact .found _
      · exact .goto (Or.inl rfl)
      · split <;> exact .goto (Or.inl rfl)
  next hp =>
    refine Or.inl ⟨by rw [hp]; rfl, ?_⟩
    split at hs <;> cases hs
    · exact .goto (Or.inl rfl)
    next r queue hq =>
      exact (Plain.goto (Or.inl rfl)).of_eq rfl rfl rfl rfl rfl
        ((Queue.pop_some hq).1 ▸ List.suffix_cons _ _)
  next iter hp =>
    cases hs
    refine Or.inl ⟨by rw [hp]; rfl, .goto (Or.inl ?_)⟩
    rcases s.nextShard_cases w iter with hn | ⟨it, hn⟩ | ⟨q, it, -, hn⟩ <;> rw [hn] <;> rfl
  next src st k hp =>
    have hb : (s.pc w).phase = .busy := by rw [hp]; rfl
    exact Or.inl ⟨hb, .steal hb hs⟩
  next hp => cases hs; exact Or.inr (Or.inl ⟨hp, rfl⟩)
  next r hp => cases hs; exact Or.inr (Or.inr (Or.inl ⟨r, hp, rfl⟩))
  next r hp => cases hs; exact Or.inr (Or.inr (Or.inr (Or.inl ⟨r, hp, rfl⟩)))
  next r hp => cases hs; exact Or.inr (Or.inr (Or.inr (Or.inr (Or.inl ⟨r, hp, rfl⟩))))
  next r hp =>
    cases hs
    refine Or.inl ⟨by rw [hp]; rfl, (Plain.goto ?_).of_eq rfl rfl rfl rfl rfl (List.suffix_refl _)⟩
    split_ifs
    · exact Or.inl rfl
    · exact Or.inr rfl
  next hp => cases hs; exact Or.inr (Or.inr (Or.inr (Or.inr (Or.inr (Or.inl ⟨hp, rfl⟩)))))
  next hp => cases hs; exact Or.inr (Or.inr (Or.inr (Or.inr (Or.inr (Or.inr ⟨hp, rfl⟩)))))
  all_goals cases hs

/-- What a step of a call of `schedule` can be. -/
theorem schedStep_cases {t : Thread n m} (hs : s.schedStep t = some s') :
    (s.sched t ≠ .idle ∧ s.sched t ≠ .notify ∧ s'.sched = Function.update s.sched t (s'.sched t) ∧
      s'.wake = s.wake ∧ s'.session = s.session ∧ s'.pc = s.pc ∧ s'.queue = s.queue) ∨
    (∃ w k, t = .inl w ∧ s.sched t = .wakeLocal ∧ s.stored w = some k ∧
      s' = { s with wake := s.wake.wakeup (w, k) }.setSched t .idle) ∨
    (∃ r queue, s.sched t = .pushGlobal r ∧ s.queue.push r = some queue ∧
      s' = { s with queue := queue }.setSched t .notify) ∨
    (s.sched t = .notify ∧ s' = { s with wake := s.wake.notify t }.setSched t
      (if (s.wake.notify t).calls t = Call.idle then .idle else .notify)) := by
  unfold schedStep at hs
  split at hs
  next r w hp =>
    refine Or.inl ⟨by rw [hp]; simp, by rw [hp]; simp, ?_⟩
    split at hs
    · obtain ⟨l, -, rfl⟩ := Option.map_eq_some_iff.1 hs
      simp [setSched, setLocal]
    · cases hs; simp [setSched]
  next r j hp =>
    cases hs
    exact Or.inl ⟨by rw [hp]; simp, by rw [hp]; simp, by simp [setSched]⟩
  next w hp =>
    refine Or.inl ⟨by rw [hp]; simp, by rw [hp]; simp, ?_⟩
    obtain ⟨l, ⟨-, rfl⟩ | ⟨res, -, rfl⟩⟩ := pushLocal_cases hs
    · simp [setLocal]
    · split <;> simp [setSched, setLocal]
  next w hp =>
    obtain ⟨k, hk, rfl⟩ := Option.map_eq_some_iff.1 hs
    exact Or.inr (Or.inl ⟨w, k, rfl, hp, hk, rfl⟩)
  next r hp =>
    split at hs <;> cases hs
    next queue hq => exact Or.inr (Or.inr (Or.inl ⟨r, queue, hp, hq, rfl⟩))
    next => exact Or.inl ⟨by rw [hp]; simp, by rw [hp]; simp, by simp [setSched]⟩
  next hp => cases hs; exact Or.inr (Or.inr (Or.inr ⟨hp, rfl⟩))
  next => cases hs

/-! ## The workers and their tickers -/

/-- The place of each worker agrees with its ticker. -/
structure Sync (s : Exec n m R) : Prop where
  slept : ∀ i, s.wake.slept i = true →
    i.2 = s.session i.1 ∧ ((s.pc i.1).phase = .ret ∨ (s.pc i.1).phase = .pending)
  waking : ∀ i, s.wake.waking i ≠ 0 → i.2 = s.session i.1 ∧ (s.pc i.1).phase = .lock
  lock : ∀ w, (s.pc w).phase = .lock → s.wake.waking (s.ticker w) ≠ 0
  rest : ∀ w, (s.pc w).phase = .ret ∨ (s.pc w).phase = .pending →
    s.wake.slept (s.ticker w) = true ∨ s.wake.woken (s.ticker w) = true
  calls : ∀ t, s.wake.calls t ≠ .idle →
    s.sched t = .notify ∨ ∃ w, t = .inl w ∧ (s.pc w).phase = .notify
  quiet : ∀ w, s.sched (.inl w) ≠ .idle → (s.pc w).phase = .away ∨ (s.pc w).phase = .pending

theorem sync_new : Sync (new : Exec n m R) := by
  constructor <;> simp [new, Wake.new, Pc.phase]

namespace Sync

/-- A worker in the middle of a poll is in no call of `schedule`. -/
theorem idle (h : Sync s) (h1 : (s.pc w).phase ≠ .away) (h2 : (s.pc w).phase ≠ .pending) :
    s.sched (.inl w) = .idle := by
  by_contra hne
  rcases h.quiet w hne with hq | hq
  · exact h1 hq
  · exact h2 hq

/-- A step of worker `w`, which touches its own ticker and its own call of
    `State::notify` only, and wakes others. -/
theorem worker (h : Sync s) (hid : s.sched (.inl w) = .idle)
    (hsession : s'.session = s.session) (hsched : s'.sched = s.sched)
    (hpc : ∀ v, v ≠ w → s'.pc v = s.pc v)
    (hwake : Wake.Only (s.ticker w) (.inl w) s.wake s'.wake)
    (gslept : s'.wake.slept (s.ticker w) = true →
      (s'.pc w).phase = .ret ∨ (s'.pc w).phase = .pending)
    (gwaking : s'.wake.waking (s.ticker w) ≠ 0 ↔ (s'.pc w).phase = .lock)
    (grest : (s'.pc w).phase = .ret ∨ (s'.pc w).phase = .pending →
      s'.wake.slept (s.ticker w) = true ∨ s'.wake.woken (s.ticker w) = true)
    (gcalls : s'.wake.calls (.inl w) ≠ .idle → (s'.pc w).phase = .notify) : Sync s' := by
  have hticker : ∀ v, s'.ticker v = s.ticker v := by intro v; simp [ticker, hsession]
  have hother : ∀ v, v ≠ w → s.ticker v ≠ s.ticker w := by
    intro v hv he
    exact hv (congrArg Prod.fst he)
  constructor
  · intro i hi
    by_cases he : i = s.ticker w
    · subst he; exact ⟨by rw [hsession]; rfl, gslept hi⟩
    · rw [hwake.slept i he] at hi
      obtain ⟨h1, h2⟩ := h.slept i hi
      have hv : i.1 ≠ w := by
        rintro rfl
        exact he (Prod.ext rfl h1)
      exact ⟨by rw [hsession, h1], by rw [hpc _ hv]; exact h2⟩
  · intro i hi
    by_cases he : i = s.ticker w
    · subst he; exact ⟨by rw [hsession]; rfl, gwaking.1 hi⟩
    · rw [hwake.waking i he] at hi
      obtain ⟨h1, h2⟩ := h.waking i hi
      have hv : i.1 ≠ w := by
        rintro rfl
        exact he (Prod.ext rfl h1)
      exact ⟨by rw [hsession, h1], by rw [hpc _ hv]; exact h2⟩
  · intro v hv
    rw [hticker]
    by_cases hvw : v = w
    · subst hvw; exact gwaking.2 hv
    · rw [hwake.waking _ (hother v hvw)]
      rw [hpc v hvw] at hv
      exact h.lock v hv
  · intro v hv
    rw [hticker]
    by_cases hvw : v = w
    · subst hvw; exact grest hv
    · rw [hwake.slept _ (hother v hvw)]
      rw [hpc v hvw] at hv
      exact (h.rest v hv).imp_right (hwake.woken _ (hother v hvw))
  · intro t ht
    rw [hsched]
    by_cases htw : t = .inl w
    · subst htw; exact Or.inr ⟨w, rfl, gcalls ht⟩
    · rw [hwake.calls t htw] at ht
      refine (h.calls t ht).imp_right ?_
      rintro ⟨v, rfl, hv⟩
      have hvw : v ≠ w := fun he => htw (by rw [he])
      exact ⟨v, rfl, by rw [hpc v hvw]; exact hv⟩
  · intro v hv
    rw [hsched] at hv
    have hvw : v ≠ w := by rintro rfl; exact hv hid
    rw [hpc v hvw]
    exact h.quiet v hv

theorem not_slept (h : Sync s) (hr : (s.pc w).phase ≠ .ret) (hp : (s.pc w).phase ≠ .pending) :
    s.wake.slept (s.ticker w) = false := by
  refine Bool.eq_false_iff.2 fun hs => ?_
  rcases (h.slept _ hs).2 with he | he
  · exact hr he
  · exact hp he

theorem not_waking (h : Sync s) (hl : (s.pc w).phase ≠ .lock) : s.wake.waking (s.ticker w) = 0 := by
  by_contra hw
  exact hl (h.waking _ hw).2

theorem no_call (h : Sync s) (hid : s.sched (.inl w) = .idle) (hn : (s.pc w).phase ≠ .notify) :
    s.wake.calls (.inl w) = .idle := by
  by_contra hc
  rcases h.calls _ hc with hs | ⟨v, hv, hp⟩
  · rw [hid] at hs; cases hs
  · cases hv; exact hn hp

/-- A step that leaves the sleepers alone. -/
theorem plain (h : Sync s) (hid : s.sched (.inl w) = .idle)
    (hp : (s.pc w).phase = .busy ∨ (s.pc w).phase = .away) (hs : Plain w s s') : Sync s' := by
  have hne : ∀ p, p ≠ Phase.busy → p ≠ Phase.away → (s.pc w).phase ≠ p := by
    rintro p h1 h2 rfl
    exact hp.elim h1 h2
  have hslept := h.not_slept (hne .ret (by decide) (by decide)) (hne .pending (by decide) (by decide))
  have hwaking := h.not_waking (hne .lock (by decide) (by decide))
  have hcall := h.no_call hid (hne .notify (by decide) (by decide))
  refine h.worker hid hs.session hs.sched hs.pc (hs.wake ▸ .rfl) ?_ ?_ ?_ ?_ <;> rw [hs.wake]
  · simp [hslept]
  · rw [hwaking]
    rcases hs.phase with he | he <;> simp [he]
  · rcases hs.phase with he | he <;> simp [he]
  · exact fun hc => absurd hcall hc

/-- A step on the sleepers that moves the worker to `p`. -/
theorem act (h : Sync s) (h1 : (s.pc w).phase ≠ .away) (h2 : (s.pc w).phase ≠ .pending)
    {wake : Wake (Fin n × ℕ) (Thread n m)} {p : Pc n R}
    (hwake : Wake.Only (s.ticker w) (.inl w) s.wake wake)
    (gslept : wake.slept (s.ticker w) = true → p.phase = .ret ∨ p.phase = .pending)
    (gwaking : wake.waking (s.ticker w) ≠ 0 ↔ p.phase = .lock)
    (grest : p.phase = .ret ∨ p.phase = .pending →
      wake.slept (s.ticker w) = true ∨ wake.woken (s.ticker w) = true)
    (gcalls : wake.calls (.inl w) ≠ .idle → p.phase = .notify) :
    Sync ({ s with wake := wake }.goto w p) := by
  have hpc : ({ s with wake := wake }.goto w p).pc w = p := Function.update_self _ _ _
  refine h.worker (h.idle h1 h2) rfl rfl (fun v hv => Function.update_of_ne hv _ _) hwake ?_ ?_ ?_ ?_
    <;> rw [hpc]
  · exact gslept
  · exact gwaking
  · exact grest
  · exact gcalls

/-- The steps of a worker inside a poll. -/
theorem work (h : Sync s) (hs : s.work w = some s') : Sync s' := by
  obtain ⟨hb, hp⟩ | ⟨hp, rfl⟩ | ⟨r, hp, rfl⟩ | ⟨r, hp, rfl⟩ | ⟨r, hp, rfl⟩ | ⟨hp, rfl⟩ | ⟨hp, rfl⟩ :=
    work_cases hs
  · have hid := h.idle (w := w) (by rw [hb]; decide) (by rw [hb]; decide)
    exact h.plain hid (Or.inl hb) hp
  all_goals
    have h1 : (s.pc w).phase ≠ .away := by rw [hp]; simp [Pc.phase]
    have h2 : (s.pc w).phase ≠ .pending := by rw [hp]; simp [Pc.phase]
    have hid := h.idle h1 h2
  · -- `sleep`
    have hw := h.not_waking (w := w) (by rw [hp]; simp [Pc.phase])
    have hc := h.no_call hid (by rw [hp]; simp [Pc.phase])
    refine h.act h1 h2 Wake.only_sleep ?_ ?_ ?_ ?_
    · exact fun _ => Or.inl rfl
    · simp [hw, Pc.phase]
    · exact fun _ => Or.inl (by simp)
    · simp [hc]
  · -- the swap of `wake`
    have hs' := h.not_slept (w := w) (by rw [hp]; simp [Pc.phase]) h2
    have hc := h.no_call hid (by rw [hp]; simp [Pc.phase])
    refine h.act h1 h2 Wake.only_swap ?_ ?_ ?_ ?_
    · simp [Wake.swap, hs']
    · split_ifs with hz <;> simp [Pc.phase, hz]
    · split_ifs <;> simp [Pc.phase]
    · simp [Wake.swap, hc]
  · -- the lock section of `wake`
    have hs' := h.not_slept (w := w) (by rw [hp]; simp [Pc.phase]) h2
    refine h.act h1 h2 Wake.only_wakeLock ?_ ?_ ?_ ?_
    · simp [Wake.wakeLock, hs']
    · simp [Wake.wakeLock, Pc.phase]
    · simp [Pc.phase]
    · simp [Pc.phase]
  · -- `State::notify`
    have hs' := h.not_slept (w := w) (by rw [hp]; simp [Pc.phase]) h2
    have hw := h.not_waking (w := w) (by rw [hp]; simp [Pc.phase])
    refine h.act h1 h2 Wake.only_notify ?_ ?_ ?_ ?_
    · simp [hs']
    · split_ifs <;> simp [hw, Pc.phase]
    · split_ifs <;> simp [Pc.phase]
    · intro hc; simp [hc, Pc.phase]
  · -- `yield_now`
    have hw := h.not_waking (w := w) (by rw [hp]; simp [Pc.phase])
    have hc := h.no_call hid (by rw [hp]; simp [Pc.phase])
    refine h.act h1 h2 Wake.only_wakeup ?_ ?_ ?_ ?_
    · exact fun _ => Or.inl rfl
    · simp [Wake.wakeup, hw, Pc.phase]
    · exact fun _ => Or.inr (by simp [Wake.wakeup])
    · simp [Wake.wakeup, hc]
  · -- the poll returns
    have hw := h.not_waking (w := w) (by rw [hp]; simp [Pc.phase])
    have hc := h.no_call hid (by rw [hp]; simp [Pc.phase])
    have hown : Wake.Only (s.ticker w) (.inl w) s.wake s.wake := .rfl
    refine h.act h1 h2 hown ?_ ?_ ?_ ?_
    · exact fun _ => Or.inr rfl
    · simp [hw, Pc.phase]
    · exact fun _ => h.rest w (Or.inl (by rw [hp]; rfl))
    · simp [hc]

theorem poll (h : Sync s) (hs : s.poll w = some s') : Sync s' := by
  have hpoll : ∀ t : Exec n m R, t.session = s.session → t.sched = s.sched → t.pc = s.pc →
      t.wake = s.wake.poll (s.ticker w) → s.sched (.inl w) = .idle →
      (s.pc w).phase ≠ .lock → (s.pc w).phase ≠ .notify → Sync (t.goto w (.popOwn none)) := by
    intro t h1 h2 h3 h4 hid hl hn
    have hc := h.no_call hid hn
    have hpc : (t.goto w (.popOwn none)).pc w = .popOwn none := Function.update_self _ _ _
    have hw : (t.goto w (.popOwn none)).wake = s.wake.poll (s.ticker w) := h4
    refine h.worker hid h1 h2 (fun v hv => ?_) (hw ▸ Wake.only_poll) ?_ ?_ ?_ ?_
    · rw [← h3]; exact Function.update_of_ne hv _ _
    all_goals rw [hpc, hw]
    · simp [Wake.poll]
    · simp [Wake.poll, h.not_waking hl, Pc.phase]
    · simp [Pc.phase]
    · simp [Wake.poll, hc]
  unfold Exec.poll at hs
  split at hs
  next hp hid =>
    cases hs
    exact hpoll _ rfl rfl rfl rfl hid (by rw [hp]; simp [Pc.phase]) (by rw [hp]; simp [Pc.phase])
  next hp hid =>
    cases hs
    exact hpoll _ rfl rfl rfl rfl hid (by rw [hp]; simp [Pc.phase]) (by rw [hp]; simp [Pc.phase])
  next => cases hs

theorem start (h : Sync s) {k : ℕ} (hs : s.start w k = some s') : Sync s' := by
  unfold Exec.start at hs
  split at hs
  next hp =>
    split_ifs at hs
    cases hs
    have hid := h.idle (w := w) (by rw [hp]; simp [Pc.phase]) (by rw [hp]; simp [Pc.phase])
    exact h.plain hid (Or.inl (by rw [hp]; rfl)) (.goto (Or.inl rfl))
  next => cases hs

theorem finish (h : Sync s) (hs : s.finish w = some s') : Sync s' := by
  unfold Exec.finish at hs
  split at hs
  next r hp hid =>
    have ha : (s.pc w).phase = .away := by rw [hp]; rfl
    split_ifs at hs <;> cases hs <;>
      exact h.plain hid (Or.inr ha)
        ((Plain.goto (Or.inl rfl)).of_eq rfl rfl rfl rfl rfl (List.suffix_refl _))
  next => cases hs

/-- A new session has a new ticker, and the old one is awake. -/
theorem panic (h : Sync s) (hs : s.panic w = some s') : Sync s' := by
  unfold Exec.panic at hs
  split at hs
  next r hp hid =>
    cases hs
    have ha : (s.pc w).phase = .away := by rw [hp]; rfl
    constructor
    · intro i hi
      obtain ⟨h1, h2⟩ := h.slept i hi
      have hv : i.1 ≠ w := by rintro rfl; rw [ha] at h2; simp at h2
      simpa [goto, hv] using And.intro h1 h2
    · intro i hi
      obtain ⟨h1, h2⟩ := h.waking i hi
      have hv : i.1 ≠ w := by rintro rfl; rw [ha] at h2; simp at h2
      simpa [goto, hv] using And.intro h1 h2
    · intro v hv
      have hvw : v ≠ w := by rintro rfl; simp [goto, Pc.phase] at hv
      simpa [goto, ticker, hvw] using h.lock v (by simpa [goto, hvw] using hv)
    · intro v hv
      have hvw : v ≠ w := by rintro rfl; simp [goto, Pc.phase] at hv
      simpa [goto, ticker, hvw] using h.rest v (by simpa [goto, hvw] using hv)
    · intro t ht
      refine (h.calls t ht).imp_right ?_
      rintro ⟨v, rfl, hv⟩
      have hvw : v ≠ w := by rintro rfl; rw [ha] at hv; cases hv
      exact ⟨v, rfl, by simpa [goto, hvw] using hv⟩
    · intro v hv
      have hvw : v ≠ w := by rintro rfl; exact hv hid
      simpa [goto, hvw] using h.quiet v hv
  next => cases hs

/-- A step of a call of `schedule`. -/
theorem thread (h : Sync s) {t : Thread n m} (hsession : s'.session = s.session)
    (hpc : s'.pc = s.pc) (hsched : ∀ t', t' ≠ t → s'.sched t' = s.sched t')
    (hslept : s'.wake.slept = s.wake.slept) (hwaking : s'.wake.waking = s.wake.waking)
    (hwoken : ∀ i, s.wake.woken i = true → s'.wake.woken i = true)
    (hcalls : ∀ t', t' ≠ t → s'.wake.calls t' = s.wake.calls t')
    (gcalls : s'.wake.calls t ≠ .idle →
      s'.sched t = .notify ∨ (s'.wake.calls t = s.wake.calls t ∧ s.sched t ≠ .notify))
    (gquiet : ∀ w, t = .inl w → (s.pc w).phase = .away ∨ (s.pc w).phase = .pending) : Sync s' := by
  have hticker : ∀ v, s'.ticker v = s.ticker v := by intro v; simp [ticker, hsession]
  constructor
  · rw [hslept, hsession, hpc]; exact h.slept
  · rw [hwaking, hsession, hpc]; exact h.waking
  · intro w hw
    rw [hwaking, hticker]
    exact h.lock w (hpc ▸ hw)
  · intro w hw
    rw [hslept, hticker]
    exact (h.rest w (hpc ▸ hw)).imp_right (hwoken _)
  · intro t' ht'
    rw [hpc]
    by_cases htt : t' = t
    · subst htt
      rcases gcalls ht' with hn | ⟨he, hne⟩
      · exact Or.inl hn
      · exact Or.inr ((h.calls t' (he ▸ ht')).resolve_left hne)
    · rw [hcalls t' htt] at ht'
      rw [hsched t' htt]; exact h.calls t' ht'
  · intro v hv
    rw [hpc]
    by_cases htt : .inl v = t
    · exact gquiet v htt.symm
    · rw [hsched _ htt] at hv
      exact h.quiet v hv

theorem sched (h : Sync s) {t : Thread n m} (hs : s.schedStep t = some s') : Sync s' := by
  have hquiet : s.sched t ≠ .idle →
      ∀ w, t = .inl w → (s.pc w).phase = .away ∨ (s.pc w).phase = .pending := by
    rintro hne w rfl
    exact h.quiet w hne
  have hset : ∀ (u : Exec n m R) p, ∀ t', t' ≠ t → (u.setSched t p).sched t' = u.sched t' :=
    fun u p t' ht' => Function.update_of_ne ht' _ _
  obtain ⟨h1, h2, h3, h4, h5, h6, -⟩ | ⟨w, k, -, hp, -, rfl⟩ | ⟨r, queue, hp, -, rfl⟩ | ⟨hp, rfl⟩ :=
    schedStep_cases hs
  · refine h.thread (t := t) h5 h6 ?_ (by rw [h4]) (by rw [h4]) (by rw [h4]; exact fun _ hw => hw)
      (by rw [h4]; exact fun _ _ => rfl) (fun _ => Or.inr ⟨by rw [h4], h2⟩) (hquiet h1)
    intro t' ht'
    rw [h3, Function.update_of_ne ht']
  · refine h.thread (t := t) rfl rfl (hset _ _) rfl rfl ?_ (fun _ _ => rfl)
      (fun _ => Or.inr ⟨rfl, by rw [hp]; simp⟩) (hquiet (by rw [hp]; simp))
    intro i hi
    by_cases hik : i = (w, k)
    · subst hik; simp [setSched, Wake.wakeup]
    · simpa [setSched, Wake.wakeup, hik] using hi
  · exact h.thread (t := t) rfl rfl (hset _ _) rfl rfl (fun _ hi => hi) (fun _ _ => rfl)
      (fun _ => Or.inr ⟨rfl, by rw [hp]; simp⟩) (hquiet (by rw [hp]; simp))
  · refine h.thread (t := t) rfl rfl (hset _ _) (by simp [setSched]) (by simp [setSched])
      (fun i hi => Wake.notify_woken _ _ hi) (fun t' ht' => Wake.notify_calls _ _ ht') ?_
      (hquiet (by rw [hp]; simp))
    intro hc
    have hc' : (s.wake.notify t).calls t ≠ .idle := hc
    exact Or.inl (by simp [setSched, hc'])

theorem schedule [DecidableEq R] (h : Sync s) {t : Thread n m} {r : R}
    (hs : s.schedule t r = some s') : Sync s' := by
  unfold Exec.schedule at hs
  split at hs
  next hid =>
    split_ifs at hs with hf
    cases hs
    refine h.thread (t := t) rfl rfl (fun t' ht' => Function.update_of_ne ht' _ _) rfl rfl
      (fun _ hi => hi) (fun _ _ => rfl) (fun _ => Or.inr ⟨rfl, by rw [hid]; simp⟩) ?_
    rintro w rfl
    have hq : (s.pc w).quiet = true := hf.2
    cases hp : s.pc w <;> rw [hp] at hq <;> simp [Pc.quiet] at hq <;> simp [Pc.phase]
  next => cases hs

theorem step [DecidableEq R] (h : Sync s) {a : Act n m R} (hs : s.step a = some s') : Sync s' := by
  cases a with
  | poll w => exact h.poll hs
  | work w => exact h.work hs
  | start w k => exact h.start hs
  | finish w => exact h.finish hs
  | panic w => exact h.panic hs
  | schedule t r => exact h.schedule hs
  | sched t => exact h.sched hs

end Sync

/-- Every step is a step of the sleepers or leaves them alone; only a worker at `sleep`
    puts its ticker to sleep, and only a poll of a ticker begins one. -/
theorem wake_step [DecidableEq R] (h : Sync s) {a : Act n m R} (hs : s.step a = some s') :
    s'.wake = s.wake ∨ ∃ b, s.wake.step b = some s'.wake ∧
      (∀ i, b = .sleep i → ∃ w, a = .work w ∧ s.pc w = .sleep ∧ i = s.ticker w) ∧
      ∀ i, b = .poll i → ∃ w, a = .poll w ∧ i = s.ticker w := by
  cases a with
  | poll w =>
    refine Or.inr ⟨.poll (s.ticker w), ?_, by simp, ?_⟩
    · simp only [step, poll] at hs
      split at hs <;> cases hs <;> rfl
    · rintro _ ⟨⟩
      exact ⟨w, rfl, rfl⟩
  | work w =>
    obtain ⟨-, hp⟩ | ⟨hp, rfl⟩ | ⟨r, hp, rfl⟩ | ⟨r, hp, rfl⟩ | ⟨r, hp, rfl⟩ | ⟨hp, rfl⟩ | ⟨hp, rfl⟩ :=
      work_cases hs
    · exact Or.inl hp.wake
    · have hw := h.not_waking (w := w) (by rw [hp]; simp [Pc.phase])
      refine Or.inr ⟨.sleep (s.ticker w), by simp [Wake.step, hw, goto], ?_, by simp⟩
      rintro _ ⟨⟩
      exact ⟨w, rfl, hp, rfl⟩
    · have hw := h.not_waking (w := w) (by rw [hp]; simp [Pc.phase])
      have hs' := h.not_slept (w := w) (by rw [hp]; simp [Pc.phase]) (by rw [hp]; simp [Pc.phase])
      exact Or.inr ⟨.swap (s.ticker w), by simp [Wake.step, hw, hs', goto], by simp, by simp⟩
    · have hw := h.lock w (by rw [hp]; rfl)
      exact Or.inr ⟨.wakeLock (s.ticker w), by simp [Wake.step, hw, goto], by simp, by simp⟩
    · exact Or.inr ⟨.notify (.inl w), rfl, by simp, by simp⟩
    · exact Or.inr ⟨.wakeup (s.ticker w), rfl, by simp, by simp⟩
    · exact Or.inl rfl
  | start w k =>
    simp only [step, start] at hs
    split at hs
    · split_ifs at hs; cases hs; exact Or.inl rfl
    · cases hs
  | finish w =>
    simp only [step, finish] at hs
    split at hs
    · split_ifs at hs <;> cases hs <;> exact Or.inl rfl
    · cases hs
  | panic w =>
    simp only [step, panic] at hs
    split at hs <;> cases hs
    exact Or.inl rfl
  | schedule t r =>
    simp only [step, schedule] at hs
    split at hs
    · split_ifs at hs; cases hs; exact Or.inl rfl
    · cases hs
  | sched t =>
    obtain ⟨-, -, -, hw, -⟩ | ⟨w, k, -, -, -, rfl⟩ | ⟨r, queue, -, -, rfl⟩ | ⟨-, rfl⟩ :=
      schedStep_cases hs
    · exact Or.inl hw
    · exact Or.inr ⟨.wakeup (w, k), rfl, by simp, by simp⟩
    · exact Or.inl rfl
    · exact Or.inr ⟨.notify t, rfl, by simp, by simp⟩

/-- The sleepers keep their invariant in every run. -/
theorem wake_inv [DecidableEq R] (h : Sync s) (hw : Wake.Inv s.wake) {a : Act n m R}
    (hs : s.step a = some s') : Wake.Inv s'.wake := by
  rcases wake_step h hs with he | ⟨b, hb, -, -⟩
  · rw [he]; exact hw
  · exact hw.step hb

/-! ## The global queue -/

/-- The state that must not be reached: every call of `schedule` has returned, every
    ticker has returned `Pending` and has not been woken since that poll began, and
    the global queue is not empty. -/
def Lost (s : Exec n m R) : Prop :=
  (∀ t, s.sched t = .idle) ∧
    (∀ w, s.pc w = .pending ∧ s.wake.woken (s.ticker w) = false) ∧ s.queue.queue ≠ []

instance [DecidableEq R] (s : Exec n m R) : Decidable s.Lost :=
  inferInstanceAs (Decidable (_ ∧ _ ∧ _))

/-- No ticker is dropped. -/
def NoPanic (_ : Exec n m R) : Act n m R → Prop
  | .panic _ => False
  | _ => True

instance (s : Exec n m R) : ∀ a, Decidable (s.NoPanic a)
  | .panic _ => isFalse id
  | .poll _ | .work _ | .start _ _ | .finish _ | .schedule _ _ | .sched _ => isTrue trivial

/-- No ticker is dropped, and none runs the lock section of `sleep` while the global
    queue holds a task, unless a call of `schedule` that has pushed is still in
    `State::notify`. -/
def Covered (s : Exec n m R) : Act n m R → Prop
  | .work w => s.pc w = .sleep → s.queue.queue = [] ∨ ∃ t, s.sched t = .notify
  | .panic _ => False
  | _ => True

instance [DecidableEq R] (s : Exec n m R) : ∀ a, Decidable (s.Covered a)
  | .work w =>
    inferInstanceAs (Decidable (s.pc w = .sleep → s.queue.queue = [] ∨ ∃ t, s.sched t = .notify))
  | .panic _ => isFalse id
  | .poll _ | .start _ _ | .finish _ | .schedule _ _ | .sched _ => isTrue trivial

/-- The invariant of these runs: a task in the global queue has a call of
    `State::notify` or a ticker that is awake. -/
structure Fed (s : Exec n m R) : Prop where
  sync : Sync s
  wake : Wake.Inv s.wake
  /-- only the tickers of the current sessions take part -/
  absent : ∀ i, i.2 ≠ s.session i.1 → s.wake.Absent i
  fed : s.queue.queue ≠ [] → (∃ t, s.sched t = .notify) ∨ ∃ w, ¬ s.wake.Asleep (s.ticker w)

theorem fed_new : Fed (new : Exec n m R) where
  sync := sync_new
  wake := Wake.inv_new
  absent _ _ := ⟨rfl, fun _ => by simp [new, Wake.new]⟩
  fed h := absurd rfl h

theorem Covered.noPanic {a : Act n m R} (hc : s.Covered a) : s.NoPanic a := by
  cases a <;> first | exact trivial | exact hc

/-- When a call of `State::notify` returns, another one is in progress or some ticker
    is awake. -/
theorem Fed.returned (h : Fed s) (hn : 0 < n) {t : Thread n m} (hs' : Sync s')
    (hsession : s'.session = s.session) (hw : s'.wake = s.wake.notify t)
    (hc : (s.wake.notify t).calls t = .idle) :
    (∃ t, s'.sched t = .notify) ∨ ∃ w, ¬ s'.wake.Asleep (s'.ticker w) := by
  rcases h.wake.notify_returns hc with hall | ⟨i, hi, hi'⟩ | ⟨t', -, ht'⟩
  · exact Or.inr ⟨⟨0, hn⟩, by rw [hw]; exact hall _⟩
  · -- a ticker that takes part is the current one of its worker
    right
    have hcur : i.2 = s.session i.1 := by
      by_contra hne
      exact hi (h.absent i hne)
    have he : s'.ticker i.1 = i := Prod.ext rfl (by rw [hcur, ticker, hsession])
    exact ⟨i.1, by rw [hw, he]; exact hi'⟩
  · rw [← hw] at ht'
    rcases hs'.calls t' ht' with hn' | ⟨w, -, hp⟩
    · exact Or.inl ⟨t', hn'⟩
    · refine Or.inr ⟨w, fun ha => ?_⟩
      have := hs'.not_slept (w := w) (by rw [hp]; decide) (by rw [hp]; decide)
      rw [ha.1] at this; cases this

section Steps
variable [DecidableEq R] {a : Act n m R}

theorem session_step (hc : s.NoPanic a) (hs : s.step a = some s') : s'.session = s.session := by
  cases a with
  | poll w => simp only [step, poll] at hs; split at hs <;> cases hs <;> rfl
  | work w =>
    obtain ⟨-, hp⟩ | ⟨-, rfl⟩ | ⟨_, -, rfl⟩ | ⟨_, -, rfl⟩ | ⟨_, -, rfl⟩ | ⟨-, rfl⟩ | ⟨-, rfl⟩ :=
      work_cases hs
    · exact hp.session
    all_goals rfl
  | start w k =>
    simp only [step, start] at hs
    split at hs
    · split_ifs at hs; cases hs; rfl
    · cases hs
  | finish w =>
    simp only [step, finish] at hs
    split at hs
    · split_ifs at hs <;> cases hs <;> rfl
    · cases hs
  | panic w => exact hc.elim
  | schedule t r =>
    simp only [step, schedule] at hs
    split at hs
    · split_ifs at hs; cases hs; rfl
    · cases hs
  | sched t =>
    obtain ⟨-, -, -, -, hp, -⟩ | ⟨_, _, -, -, -, rfl⟩ | ⟨_, _, -, -, rfl⟩ | ⟨-, rfl⟩ :=
      schedStep_cases hs
    · exact hp
    all_goals rfl

/-- A step adds no task to the global queue and keeps the calls in `State::notify`, or
    such a call is in progress after it, or it is the last step of one. -/
theorem queue_step (hc : s.NoPanic a) (hs : s.step a = some s') :
    (s'.queue.queue <:+ s.queue.queue ∧ ∀ t, s.sched t = .notify → s'.sched t = .notify) ∨
    (∃ t, s'.sched t = .notify) ∨
    ∃ t, s'.wake = s.wake.notify t ∧ (s.wake.notify t).calls t = .idle := by
  have hkeep : s'.queue = s.queue → s'.sched = s.sched →
      s'.queue.queue <:+ s.queue.queue ∧ ∀ t, s.sched t = .notify → s'.sched t = .notify := by
    intro hq hsched
    rw [hq, hsched]
    exact ⟨List.suffix_refl _, fun _ ht => ht⟩
  cases a with
  | poll w => simp only [step, poll] at hs; split at hs <;> cases hs <;> exact Or.inl (hkeep rfl rfl)
  | work w =>
    obtain ⟨-, hp⟩ | ⟨-, rfl⟩ | ⟨_, -, rfl⟩ | ⟨_, -, rfl⟩ | ⟨_, -, rfl⟩ | ⟨-, rfl⟩ | ⟨-, rfl⟩ :=
      work_cases hs
    · exact Or.inl ⟨hp.queue, fun t ht => by rw [hp.sched]; exact ht⟩
    all_goals exact Or.inl (hkeep rfl rfl)
  | start w k =>
    simp only [step, start] at hs
    split at hs
    · split_ifs at hs; cases hs; exact Or.inl (hkeep rfl rfl)
    · cases hs
  | finish w =>
    simp only [step, finish] at hs
    split at hs
    · split_ifs at hs <;> cases hs <;> exact Or.inl (hkeep rfl rfl)
    · cases hs
  | panic w => exact hc.elim
  | schedule t r =>
    simp only [step, schedule] at hs
    split at hs
    next hid =>
      split_ifs at hs
      cases hs
      refine Or.inl ⟨List.suffix_refl _, fun t' ht' => ?_⟩
      have htt : t' ≠ t := by rintro rfl; rw [hid] at ht'; cases ht'
      simpa [setSched, htt] using ht'
    next => cases hs
  | sched t =>
    obtain ⟨-, h2, h3, -, -, -, hq⟩ | ⟨_, _, -, hp, -, rfl⟩ | ⟨_, _, -, -, rfl⟩ | ⟨-, rfl⟩ :=
      schedStep_cases hs
    · refine Or.inl ⟨by rw [hq], fun t' ht' => ?_⟩
      have htt : t' ≠ t := by rintro rfl; exact h2 ht'
      rw [h3, Function.update_of_ne htt]; exact ht'
    · refine Or.inl ⟨List.suffix_refl _, fun t' ht' => ?_⟩
      have htt : t' ≠ t := by rintro rfl; rw [hp] at ht'; cases ht'
      simpa [setSched, htt] using ht'
    · exact Or.inr (Or.inl ⟨t, by simp [setSched]⟩)
    · by_cases hc : (s.wake.notify t).calls t = .idle
      · exact Or.inr (Or.inr ⟨t, rfl, hc⟩)
      · exact Or.inr (Or.inl ⟨t, by simp [setSched, hc]⟩)

namespace Fed

theorem step (h : Fed s) (hn : 0 < n) (hc : s.Covered a) (hs : s.step a = some s') : Fed s' := by
  have hsync := h.sync.step hs
  have hsession := session_step hc.noPanic hs
  refine ⟨hsync, wake_inv h.sync h.wake hs, ?_, ?_⟩
  · intro i hi
    rw [hsession] at hi
    have hi' := h.absent i hi
    rcases wake_step h.sync hs with he | ⟨b, hb, hsl, -⟩
    · rw [he]; exact hi'
    · refine h.wake.absent hb ?_ hi'
      intro hbi
      obtain ⟨w, -, -, rfl⟩ := hsl i hbi
      exact hi rfl
  · intro hq
    rcases queue_step hc.noPanic hs with ⟨hsub, hkeep⟩ | hnot | ⟨t, hw, hidle⟩
    · have hq' : s.queue.queue ≠ [] := by
        rintro he
        rw [he] at hsub
        exact hq (List.suffix_nil.1 hsub)
      by_cases hsleep : ∃ w, a = .work w ∧ s.pc w = .sleep
      · -- a ticker falls asleep: this is what the condition is about
        obtain ⟨w, rfl, hp⟩ := hsleep
        obtain ⟨t, ht⟩ := (hc hp).resolve_left hq'
        exact Or.inl ⟨t, hkeep t ht⟩
      · rcases h.fed hq' with ⟨t, ht⟩ | ⟨w, hw⟩
        · exact Or.inl ⟨t, hkeep t ht⟩
        · refine Or.inr ⟨w, fun ha => hw ?_⟩
          rw [ticker, hsession] at ha
          rcases wake_step h.sync hs with he | ⟨b, hb, hsl, -⟩
          · rw [he] at ha; exact ha
          · refine Wake.asleep_of_step hb ?_ ha
            intro hbi
            obtain ⟨v, hv, hp, -⟩ := hsl _ hbi
            exact hsleep ⟨v, hv, hp⟩
    · exact Or.inl hnot
    · exact h.returned hn hsync hsession hw hidle

omit [DecidableEq R] in
/-- While there is a task, somebody is awake or about to be woken. -/
theorem not_lost (h : Fed s) : ¬ s.Lost := by
  rintro ⟨hidle, hpend, hq⟩
  rcases h.fed hq with ⟨t, ht⟩ | ⟨w, hw⟩
  · rw [hidle t] at ht; cases ht
  · obtain ⟨hp, hwoken⟩ := hpend w
    refine hw ⟨?_, hwoken⟩
    rcases h.sync.rest w (Or.inr (by rw [hp]; rfl)) with hr | hr
    · exact hr
    · rw [hwoken] at hr; cases hr

end Fed

theorem fed_reach (hn : 0 < n) (h : (system : Lts (Exec n m R) (Act n m R)).Reach Covered s) :
    Fed s := by
  refine h.inv (P := Fed) ?_ ?_
  · rintro _ rfl; exact fed_new
  · intro s a s' _ hf hc hs; exact hf.step hn hc hs

/-- **No task is left in the global queue** with every ticker asleep, in runs where no
    ticker goes to sleep past a task that is already there. -/
theorem global_served (hn : 0 < n)
    (h : (system : Lts (Exec n m R) (Act n m R)).Reach Covered s) : ¬ s.Lost :=
  (fed_reach hn h).not_lost

end Steps

/-- The only worker searches in vain. -/
def searchInVain : List (Act 1 1 ℕ) :=
  [.poll 0, .work 0, .work 0, .work 0, .work 0, .start 0 0, .work 0, .work 0]

/-- Another thread schedules a task. -/
def scheduleTask : List (Act 1 1 ℕ) :=
  [.schedule (.inr 0) 7, .sched (.inr 0), .sched (.inr 0), .sched (.inr 0), .sched (.inr 0)]

/-- A task scheduled while the worker sleeps wakes it. -/
theorem global_served_sleeping : ∃ s : Exec 1 1 ℕ,
    system.run new (searchInVain ++ [.work 0, .work 0] ++ scheduleTask ++ [.sched (.inr 0)]) = some s ∧
      (s.queue.queue = [7] ∧ s.sched (.inr 0) = .idle ∧ s.pc 0 = .pending) ∧ ¬ s.Lost := by
  have hrun : ∃ s : Exec 1 1 ℕ,
      system.run new (searchInVain ++ [.work 0, .work 0] ++ scheduleTask ++ [.sched (.inr 0)]) = some s ∧
        s.queue.queue = [7] ∧ s.sched (.inr 0) = .idle ∧ s.pc 0 = .pending :=
    Lts.exists_run (by decide +kernel)
  obtain ⟨s, hs, he⟩ := hrun
  have hm : system.Meets Covered (new : Exec 1 1 ℕ)
      (searchInVain ++ [.work 0, .work 0] ++ scheduleTask ++ [.sched (.inr 0)]) := by
    decide +kernel
  exact ⟨s, hs, he, global_served (by decide) (.run (.init rfl) hm hs)⟩

/-- A task scheduled between the failed search and `sleep` is lost. -/
theorem global_lost : ¬ ∀ s : Exec 1 1 ℕ,
    (system : Lts (Exec 1 1 ℕ) (Act 1 1 ℕ)).Reach NoPanic s → ¬ s.Lost := by
  intro hall
  have hrun : ∃ s : Exec 1 1 ℕ,
      system.run new (searchInVain ++ scheduleTask ++ [.work 0, .work 0]) = some s ∧ s.Lost :=
    Lts.exists_run (by decide +kernel)
  obtain ⟨s, hs, he⟩ := hrun
  have hm : system.Meets NoPanic (new : Exec 1 1 ℕ)
      (searchInVain ++ scheduleTask ++ [.work 0, .work 0]) := by decide +kernel
  exact hall s (.run (.init rfl) hm hs) he

end Exec
end Awak
