/-
  The retry loops of `insert_timer` and `remove_timer` of `io/reactor.rs`.

  A call whose push finds `timer_ops` full takes the mutex of `timers`, runs
  `process_timer_ops` itself and pushes again.  Another thread can fill the
  queue in between, so the loop has no bound of its own: each further round is
  paid by the operations that the other threads have queued meanwhile.

  * `Tally`: the own steps and rounds of a call, and the pushes of the others;
  * `step_ops`, `opStep_cases`: what a step does to the queue and to a call;
  * `Paid`: what the rounds of a call have cost the others, place by place;
  * `op_steps_le`: a call queues its operation after at most `1005` own steps,
    and `1004` more for every `1000` operations queued by the other threads.
-/
import Awak.Timers

namespace Awak.Timers

variable {ι W : Type}

/-! ## What a step does to the queue -/

namespace State

/-- No step but a push makes the queue longer, and none changes its capacity. -/
structure Drained (s s' : State ι W) : Prop where
  capacity : s'.ops.capacity = s.ops.capacity
  length : s'.ops.queue.length ≤ s.ops.queue.length

theorem Drained.of_eq {s s' : State ι W} (h : s'.ops = s.ops) : Drained s s' :=
  ⟨by rw [h], by rw [h]⟩

variable {s s' : State ι W}

theorem processTimerOp_drained (h : s.processTimerOp = some s') :
    Drained s s' ∧ s'.ops.queue.length + 1 = s.ops.queue.length ∧ s'.calling = s.calling := by
  obtain ⟨op, ops, hq, hc, rfl⟩ := processTimerOp_some h
  have hlen : ops.queue.length + 1 = s.ops.queue.length := by rw [hq]; rfl
  exact ⟨⟨hc, by dsimp only; omega⟩, hlen, rfl⟩

theorem reactStep_drained (h : s.reactStep = some s') :
    Drained s s' ∧ s'.calling = s.calling := by
  unfold reactStep at h
  split at h
  · split_ifs at h; cases h; exact ⟨.of_eq rfl, rfl⟩
  · cases h; exact ⟨.of_eq rfl, rfl⟩
  · split at h <;> cases h
    next t hd =>
      obtain ⟨hdrained, -, hcalling⟩ := processTimerOp_drained hd
      exact ⟨⟨hdrained.capacity, hdrained.length⟩, hcalling⟩
    next => exact ⟨.of_eq rfl, rfl⟩
  · cases h; exact ⟨.of_eq rfl, rfl⟩
  · cases h; exact ⟨.of_eq rfl, rfl⟩
  · cases h; exact ⟨.of_eq rfl, rfl⟩
  · cases h; exact ⟨.of_eq rfl, rfl⟩
  · obtain ⟨p, -, rfl⟩ := Option.map_eq_some_iff.1 h
    exact ⟨.of_eq rfl, rfl⟩
  · split at h <;> obtain ⟨p, -, rfl⟩ := Option.map_eq_some_iff.1 h <;>
      exact ⟨.of_eq rfl, rfl⟩
  · cases h; exact ⟨.of_eq rfl, rfl⟩
  · split at h <;> cases h <;> exact ⟨.of_eq rfl, rfl⟩
  · cases h

end State

/-- A place of a call that has queued its operation, or has none. -/
def OpPc.Queued : OpPc W → Prop
  | .idle | .notify _ | .notifying _ | .ret _ => True
  | _ => False

/-- The steps of a call, from `pc` to `pc'`, and what they do to the queue. -/
inductive OpStep (s s' : State ι W) : OpPc W → OpPc W → Prop
  | pushed {op : TimerOp W} : s'.ops.capacity = s.ops.capacity →
      s'.ops.queue.length = s.ops.queue.length + 1 → OpStep s s' (.push op) (State.pushed op)
  | full {op : TimerOp W} : s'.ops = s.ops → s.ops.queue.length = s.ops.capacity →
      OpStep s s' (.push op) (.lock op)
  | lock {op : TimerOp W} : s'.ops = s.ops → OpStep s s' (.lock op) (.drain op s.ops.capacity)
  | popped {op : TimerOp W} {left : ℕ} : s'.ops.capacity = s.ops.capacity →
      s'.ops.queue.length + 1 = s.ops.queue.length →
      OpStep s s' (.drain op (left + 1)) (.drain op left)
  | drained {op : TimerOp W} {left : ℕ} : s'.ops = s.ops → left = 0 ∨ s.ops.queue = [] →
      OpStep s s' (.drain op left) (.unlock op)
  | unlock {op : TimerOp W} : s'.ops = s.ops → OpStep s s' (.unlock op) (.push op)
  | notify {pc pc' : OpPc W} : s'.ops = s.ops → pc.Queued → pc'.Queued → OpStep s s' pc pc'

variable [DecidableEq ι] {s s' : State ι W} {i : ι}

theorem opStep_cases (h : s.opStep i = some s') :
    ∃ pc, s'.calling = Function.update s.calling i pc ∧ OpStep s s' (s.calling i) pc := by
  unfold State.opStep at h
  split at h <;> rename_i hi <;> rw [hi]
  · split at h <;> cases h
    next ops hp =>
      obtain ⟨hq, hc⟩ := Queue.push_some hp
      exact ⟨_, rfl, .pushed hc (by simp [State.setCalling, hq])⟩
    next hp => exact ⟨_, rfl, .full rfl (Queue.push_none hp)⟩
  · split_ifs at h; cases h
    exact ⟨_, rfl, .lock rfl⟩
  · cases h; exact ⟨_, rfl, .drained rfl (Or.inl rfl)⟩
  · split at h <;> cases h
    next t hd =>
      obtain ⟨hdrained, hlen, hcalling⟩ := State.processTimerOp_drained hd
      exact ⟨_, congrArg (Function.update · i _) hcalling, .popped hdrained.capacity hlen⟩
    next hd => exact ⟨_, rfl, .drained rfl (Or.inr (processTimerOp_none hd))⟩
  · cases h; exact ⟨_, rfl, .unlock rfl⟩
  · obtain ⟨p, -, rfl⟩ := Option.map_eq_some_iff.1 h
    exact ⟨_, rfl, .notify rfl trivial trivial⟩
  · split at h <;> obtain ⟨p, -, rfl⟩ := Option.map_eq_some_iff.1 h
    · exact ⟨_, rfl, .notify rfl trivial trivial⟩
    · exact ⟨s.calling i, (Function.update_eq_self i _).symm,
        .notify rfl trivial (hi ▸ trivial)⟩
  all_goals cases h

/-- A step that is no step of a call: it drains the queue, and begins or ends at most the call
    that it names. -/
theorem step_ops {a : Act ι W} (h : step s a = some s') (ha : ∀ i, a ≠ .op i) :
    State.Drained s s' ∧ ((s'.calling = s.calling ∧ (∀ i when w, a ≠ .insertTimer i when w) ∧
        ∀ i when id, a ≠ .removeTimer i when id) ∨
      ∃ i pc, s'.calling = Function.update s.calling i pc ∧
        ((s.calling i = .idle ∧ (∃ op, pc = .push op) ∧
          ((∃ when w, a = .insertTimer i when w) ∨ ∃ when id, a = .removeTimer i when id)) ∨
        ((s.calling i).Queued ∧ pc = .idle ∧ a = .opRet i))) := by
  cases a with
  | insertTimer i when w =>
    simp only [step, State.insertTimer] at h
    split at h <;> cases h
    next hi =>
      exact ⟨.of_eq rfl, Or.inr ⟨i, _, rfl, Or.inl ⟨hi, ⟨_, rfl⟩, Or.inl ⟨when, w, rfl⟩⟩⟩⟩
  | removeTimer i when id =>
    simp only [step, State.removeTimer] at h
    split at h <;> cases h
    next hi =>
      exact ⟨.of_eq rfl, Or.inr ⟨i, _, rfl, Or.inl ⟨hi, ⟨_, rfl⟩, Or.inr ⟨when, id, rfl⟩⟩⟩⟩
  | op i => exact absurd rfl (ha i)
  | opRet i =>
    simp only [step, State.opRet] at h
    split at h <;> cases h
    next hi =>
      exact ⟨.of_eq rfl, Or.inr ⟨i, _, rfl, Or.inr ⟨by rw [hi]; trivial, rfl, rfl⟩⟩⟩
  | react timeout =>
    simp only [step, State.react] at h
    split at h <;> cases h
    exact ⟨.of_eq rfl, Or.inl ⟨rfl, by simp, by simp⟩⟩
  | next =>
    obtain ⟨hdrained, hcalling⟩ := State.reactStep_drained h
    exact ⟨hdrained, Or.inl ⟨hcalling, by simp, by simp⟩⟩
  | leaveEvents =>
    simp only [step, State.leaveEvents] at h
    split at h <;> cases h
    exact ⟨.of_eq rfl, Or.inl ⟨rfl, by simp, by simp⟩⟩
  | epollReturn report empty =>
    obtain ⟨p, -, rfl⟩ := Option.map_eq_some_iff.1 h
    exact ⟨.of_eq rfl, Or.inl ⟨rfl, by simp, by simp⟩⟩
  | interrupt =>
    obtain ⟨p, -, rfl⟩ := Option.map_eq_some_iff.1 h
    exact ⟨.of_eq rfl, Or.inl ⟨rfl, by simp, by simp⟩⟩
  | advance d => cases h; exact ⟨.of_eq rfl, Or.inl ⟨rfl, by simp, by simp⟩⟩

/-! ## The rounds of a call -/

/-- What a call of `insert_timer` or `remove_timer` has seen since it began. -/
structure Tally where
  /-- its own steps up to the push of its operation -/
  steps : ℕ
  /-- how often its push has found the queue full -/
  rounds : ℕ
  /-- the operations that other threads have queued -/
  others : ℕ
  deriving DecidableEq

/-- A step of thread `i`, from `pc`, in the tallies of all threads. -/
def Tally.opStep (g : ι → Tally) (i : ι) (full : Bool) : OpPc W → ι → Tally
  | .push _ =>
    if full then
      Function.update g i { g i with steps := (g i).steps + 1, rounds := (g i).rounds + 1 }
    else fun j => if j = i then { g i with steps := (g i).steps + 1 }
      else { g j with others := (g j).others + 1 }
  | .lock _ | .drain .. | .unlock _ =>
    Function.update g i { g i with steps := (g i).steps + 1 }
  | _ => g

/-- The tallies of the calls, kept along a run. -/
def tally (g : ι → Tally) (s : State ι W) : Act ι W → ι → Tally
  | .insertTimer i .. | .removeTimer i .. => Function.update g i ⟨0, 0, 0⟩
  | .op i => Tally.opStep g i (s.ops.capacity = s.ops.length) (s.calling i)
  | _ => g

/-- The system with the tallies of its calls. -/
def tallied (now : ℕ) : Lts (State ι W × (ι → Tally)) (Act ι W) :=
  (system now).monitor (fun _ => ⟨0, 0, 0⟩) tally

/-- At each place of a call: its rounds are paid by the pushes of the others, up to one queue
    full of operations, and each has taken at most `timeOpSize + 4` steps. -/
def Paid (queued : ℕ) (t : Tally) : OpPc W → Prop
  | .push _ => t.rounds * timeOpSize + queued ≤ t.others + timeOpSize ∧
      t.steps ≤ t.rounds * (timeOpSize + 4)
  | .lock _ => t.rounds * timeOpSize ≤ t.others + timeOpSize ∧
      t.steps + (timeOpSize + 3) ≤ t.rounds * (timeOpSize + 4)
  | .drain _ left => t.rounds * timeOpSize + queued ≤ t.others + timeOpSize + left ∧
      t.rounds * timeOpSize ≤ t.others + timeOpSize ∧
      t.steps + (left + 2) ≤ t.rounds * (timeOpSize + 4)
  | .unlock _ => t.rounds * timeOpSize + queued ≤ t.others + timeOpSize ∧
      t.steps + 1 ≤ t.rounds * (timeOpSize + 4)
  | _ => t.rounds * timeOpSize ≤ t.others + timeOpSize ∧
      t.steps ≤ t.rounds * (timeOpSize + 4) + 1

/-- While other threads move, a call pays for what they queue. -/
theorem Paid.mono {queued queued' : ℕ} {t t' : Tally} {pc : OpPc W} (h : Paid queued t pc)
    (hs : t'.steps = t.steps) (hr : t'.rounds = t.rounds) (ho : t.others ≤ t'.others)
    (hq : queued' + t.others ≤ queued + t'.others) : Paid queued' t' pc := by
  cases pc <;> simp only [Paid, hs, hr] at h ⊢ <;> omega

theorem Paid.bound {queued : ℕ} {t : Tally} {pc : OpPc W} (h : Paid queued t pc) :
    t.rounds * timeOpSize ≤ t.others + timeOpSize ∧
      t.steps ≤ t.rounds * (timeOpSize + 4) + 1 := by
  cases pc <;> simp only [Paid] at h <;> omega

/-- A new call has queued nothing, and owes nothing. -/
theorem paid_new {queued : ℕ} {op : TimerOp W} (h : queued ≤ timeOpSize) :
    Paid queued ⟨0, 0, 0⟩ (.push op) := by
  simp only [Paid]
  omega

/-- The invariant: the steps of every call are paid by the operations of the others. -/
structure Tallied (s : State ι W) (g : ι → Tally) : Prop where
  capacity : s.ops.capacity = timeOpSize
  paid : ∀ i, Paid s.ops.queue.length (g i) (s.calling i)

namespace Tallied

variable {g : ι → Tally}

omit [DecidableEq ι] in
theorem queued_le (h : Tallied s g) : s.ops.queue.length ≤ timeOpSize :=
  h.capacity ▸ s.ops.queue_length_le

omit [DecidableEq ι] in
/-- Draining is in favour of every call. -/
theorem drained (h : Tallied s g) (hd : State.Drained s s') (j : ι) :
    Paid s'.ops.queue.length (g j) (s.calling j) :=
  (h.paid j).mono rfl rfl le_rfl (Nat.add_le_add_right hd.length _)

/-- A step of a call. -/
theorem opStep (h : Tallied s g) (hs : s.opStep i = some s') :
    Tallied s' (Tally.opStep g i (s.ops.capacity = s.ops.length) (s.calling i)) := by
  obtain ⟨pc, hcalling, hstep⟩ := opStep_cases hs
  have hown := h.paid i
  have hlen := s.ops.length_eq
  have hle := h.queued_le
  have hcap := h.capacity
  generalize hpc : s.calling i = pc₀ at hstep hown ⊢
  -- the other calls: what the step queues is paid, and no step else makes the queue longer
  have hothers : ∀ g' : ι → Tally, (∀ j ≠ i, (g' j).steps = (g j).steps ∧
      (g' j).rounds = (g j).rounds ∧ (g j).others ≤ (g' j).others ∧
      s'.ops.queue.length + (g j).others ≤ s.ops.queue.length + (g' j).others) →
      s'.ops.capacity = timeOpSize → Paid s'.ops.queue.length (g' i) pc → Tallied s' g' := by
    intro g' hg hc hi
    refine ⟨hc, fun j => ?_⟩
    rw [hcalling]
    by_cases hj : j = i
    · subst hj
      rwa [Function.update_self]
    · rw [Function.update_of_ne hj]
      obtain ⟨hsteps, hrounds, hmono, hpaid⟩ := hg j hj
      exact (h.paid j).mono hsteps hrounds hmono hpaid
  cases hstep with
  | @pushed op hc hq =>
    have hfull : s.ops.capacity ≠ s.ops.length := by
      have := s'.ops.queue_length_le
      omega
    simp only [Tally.opStep, hfull, decide_false]
    refine hothers _ (fun j hj => ?_) (hc.trans hcap) ?_
    · simp only [Bool.false_eq_true, if_false, if_neg hj]
      exact ⟨trivial, trivial, by omega, by omega⟩
    · simp only [Bool.false_eq_true, if_false, if_true]
      obtain ⟨hr, hst⟩ := hown
      cases op <;> refine ⟨?_, ?_⟩ <;> dsimp only <;> omega
  | full ho hf =>
    have hfull : s.ops.capacity = s.ops.length := by omega
    simp only [Tally.opStep, hfull, decide_true, if_true]
    refine hothers _ (fun j hj => ?_) (by rw [ho, hcap]) ?_
    · rw [Function.update_of_ne hj, ho]
      exact ⟨rfl, rfl, le_rfl, le_rfl⟩
    · rw [Function.update_self]
      obtain ⟨hr, hst⟩ := hown
      rw [hf, hcap] at hr
      simp only [Paid, Nat.succ_mul]
      omega
  | lock ho =>
    refine hothers _ (fun j hj => ?_) (by rw [ho, hcap]) ?_
    · simp only [Tally.opStep, Function.update_of_ne hj, ho]
      exact ⟨trivial, trivial, le_rfl, le_rfl⟩
    · simp only [Tally.opStep, Function.update_self, ho, hcap]
      obtain ⟨hr, hst⟩ := hown
      refine ⟨?_, ?_, ?_⟩ <;> dsimp only <;> omega
  | popped hc hq =>
    refine hothers _ (fun j hj => ?_) (hc.trans hcap) ?_
    · simp only [Tally.opStep, Function.update_of_ne hj]
      exact ⟨trivial, trivial, le_rfl, by omega⟩
    · simp only [Tally.opStep, Function.update_self]
      obtain ⟨hr, hm, hst⟩ := hown
      refine ⟨?_, ?_, ?_⟩ <;> dsimp only <;> omega
  | @drained op left ho hleft =>
    refine hothers _ (fun j hj => ?_) (by rw [ho, hcap]) ?_
    · simp only [Tally.opStep, Function.update_of_ne hj, ho]
      exact ⟨trivial, trivial, le_rfl, le_rfl⟩
    · simp only [Tally.opStep, Function.update_self, ho]
      obtain ⟨hr, hm, hst⟩ := hown
      -- it ends after as many operations as it began with, or with an empty queue
      have hempty : s.ops.queue.length = 0 ∨ left = 0 := hleft.symm.imp_left List.length_eq_zero_iff.2
      simp only [Paid]
      omega
  | unlock ho =>
    refine hothers _ (fun j hj => ?_) (by rw [ho, hcap]) ?_
    · simp only [Tally.opStep, Function.update_of_ne hj, ho]
      exact ⟨trivial, trivial, le_rfl, le_rfl⟩
    · simp only [Tally.opStep, Function.update_self, ho]
      exact hown
  | notify ho hq hq' =>
    have hg : Tally.opStep g i (s.ops.capacity = s.ops.length) pc₀ = g := by
      cases pc₀ <;> first | rfl | exact hq.elim
    rw [hg]
    refine hothers _ (fun j _ => ⟨rfl, rfl, le_rfl, by rw [ho]⟩) (by rw [ho, hcap]) ?_
    have hbound := hown.bound
    cases pc <;> first | exact hq'.elim | simpa only [Paid] using hbound

theorem step (h : Tallied s g) {a : Act ι W} (hs : Timers.step s a = some s') :
    Tallied s' (tally g s a) := by
  by_cases ha : ∃ i, a = .op i
  · obtain ⟨i, rfl⟩ := ha
    exact h.opStep hs
  obtain ⟨hd, hcalls⟩ := step_ops hs fun i hi => ha ⟨i, hi⟩
  have hcap := hd.capacity.trans h.capacity
  rcases hcalls with ⟨hcalling, hins, hrem⟩ | ⟨i, pc, hcalling, hcase⟩
  · have hg : tally g s a = g := by
      cases a with
      | insertTimer i when w => exact absurd rfl (hins i when w)
      | removeTimer i when id => exact absurd rfl (hrem i when id)
      | op i => exact absurd ⟨i, rfl⟩ ha
      | _ => rfl
    exact ⟨hcap, fun j => by rw [hg, hcalling]; exact h.drained hd j⟩
  · refine ⟨hcap, fun j => ?_⟩
    rw [hcalling]
    rcases hcase with ⟨-, ⟨op, rfl⟩, hcall⟩ | ⟨hq, rfl, rfl⟩
    · -- a new call: its tally starts anew
      have hg : tally g s a = Function.update g i ⟨0, 0, 0⟩ := by
        rcases hcall with ⟨_, _, rfl⟩ | ⟨_, _, rfl⟩ <;> rfl
      rw [hg]
      by_cases hj : j = i
      · subst hj
        rw [Function.update_self, Function.update_self]
        exact paid_new (hd.length.trans h.queued_le)
      · rw [Function.update_of_ne hj, Function.update_of_ne hj]
        exact h.drained hd j
    · change Paid _ (g j) _
      by_cases hj : j = i
      · subst hj
        rw [Function.update_self]
        exact (h.paid j).bound
      · rw [Function.update_of_ne hj]
        exact h.drained hd j

end Tallied

/-- **The retry loops are paid by the others.** In every interleaving a call of `insert_timer`
    or `remove_timer` finds the queue full again, after it has drained it, only if the other
    threads have queued `timeOpSize` operations for each such round; so it queues its own
    after at most `timeOpSize + 5` own steps, and `timeOpSize + 4` more for every
    `timeOpSize` operations of the others. -/
theorem op_steps_le {now : ℕ} {p : State ι W × (ι → Tally)} (h : (tallied now).Reachable p)
    (i : ι) : ((p.2 i).rounds - 1) * timeOpSize ≤ (p.2 i).others ∧
      (p.2 i).steps ≤ ((p.2 i).others / timeOpSize + 1) * (timeOpSize + 4) + 1 := by
  have hinv : Tallied p.1 p.2 := by
    refine h.inv (P := fun p => Tallied p.1 p.2) (fun p hp => ?_) fun p a p' _ ih _ hs => ?_
    · rw [show p.1 = .new now from hp.1, hp.2]
      exact ⟨rfl, fun j => by simp [Paid, State.new]⟩
    · obtain ⟨hstep, hrecord⟩ := Lts.monitor_step hs
      rw [hrecord]
      exact ih.step hstep
  obtain ⟨hrounds, hsteps⟩ := (hinv.paid i).bound
  have hpos : 0 < timeOpSize := Nat.succ_pos _
  have hdiv : (p.2 i).rounds ≤ (p.2 i).others / timeOpSize + 1 := by
    rw [← Nat.add_div_right _ hpos]
    exact (Nat.le_div_iff_mul_le hpos).2 hrounds
  refine ⟨?_, hsteps.trans (Nat.succ_le_succ (Nat.mul_le_mul_right _ hdiv))⟩
  rw [Nat.sub_mul, Nat.one_mul]
  omega

/-- Thread `1` queues `n` removals. -/
def fillRun (n : ℕ) : List (Act (Fin 2) ℕ) :=
  (List.replicate n [Act.removeTimer 1 4 2, .op 1, .opRet 1]).flatten

/-- Thread `0` finds the queue full, drains it, and finds it full again. -/
def retryRun : List (Act (Fin 2) ℕ) :=
  fillRun 1000 ++ [.insertTimer 0 3 7] ++ List.replicate 1004 (.op 0) ++ fillRun 1000 ++
    List.replicate 1005 (.op 0)

/-- The bound is reached. -/
theorem op_steps_le_retry : ∃ p : State (Fin 2) ℕ × (Fin 2 → Tally),
    (tallied 0).run (.new 0, fun _ => ⟨0, 0, 0⟩) retryRun = some p ∧ p.2 0 = ⟨2009, 2, 1000⟩ ∧
      ((p.2 0).rounds - 1) * timeOpSize ≤ (p.2 0).others ∧
      (p.2 0).steps ≤ ((p.2 0).others / timeOpSize + 1) * (timeOpSize + 4) + 1 := by
  obtain ⟨p, hs, hp⟩ : ∃ p : State (Fin 2) ℕ × (Fin 2 → Tally),
      (tallied 0).run (.new 0, fun _ => ⟨0, 0, 0⟩) retryRun = some p ∧ p.2 0 = ⟨2009, 2, 1000⟩ :=
    Lts.exists_run (by decide +kernel)
  have hinit : (tallied 0).init ((.new 0 : State (Fin 2) ℕ), fun _ => ⟨0, 0, 0⟩) := ⟨rfl, rfl⟩
  exact ⟨p, hs, hp, op_steps_le (.run (.init hinit) (Lts.meets_true _ retryRun) hs) 0⟩

end Awak.Timers
