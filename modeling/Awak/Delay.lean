/-
  The wakeups of the timers, end to end: from the waker that a task leaves in
  `Timer::poll_timeout` to its `wake` at the end of `react`.

  A run is kept together with a log of the timers inserted and of the wakers
  woken.  The ids of `insert_timer` are fresh, so each key that has fired belongs
  to one inserted timer, and the `n`-th waker collected is that of the `n`-th key
  fired.

  * `Timers.Log`: the timers inserted so far, and the wakers woken so far;
  * `Timers.Logged`: all that is in the queue, in a call, in the map or fired is
    a timer of the log;
  * `State.move`: the move of the reactor in a move of the objects;
  * `Act.Succeeds`: `react` does not drop the wakers it has collected, because its
    calls of `interest` succeed;
  * `never_forgotten`: then a task that waits on a `Timer` has been woken, or is about
    to be, or its timer is set and `react` does not sleep past the deadline;
  * `Overdue`: how far a call of `react` is with a timer that is due;
  * `overdue_woken`: a call of `react` that begins after the deadline of a timer
    has woken its task when it ends.
-/
import Awak.TimerOps
import Awak.Timer
import Awak.ProcessTimers

namespace Awak

variable {ι W : Type}

/-! ## The log of the reactor -/

/-- The timer that an operation inserts. -/
def TimerOp.entry : TimerOp W → Option (TimerKey × W)
  | insert when id waker => some (toLex (when, id), waker)
  | remove .. => none

namespace Timers

/-- The timers inserted and the wakers woken in a run. -/
structure Log (W : Type) where
  issued : List (TimerKey × W)
  woken : List W

/-- The log after a move. -/
def Log.record (g : Log W) (s : State ι W) : Act ι W → Log W
  | .insertTimer _ when waker => { g with issued := (toLex (when, s.idGen), waker) :: g.issued }
  | .next =>
    match s.reacting, s.wakers with
    | .wake, waker :: _ => { g with woken := g.woken ++ [waker] }
    | _, _ => g
  | _ => g

/-- The calls of `poller.interest` in `react` succeed. -/
def Act.Succeeds : Act ι W → Prop
  | .leaveEvents => False
  | _ => True

/-- All timers of the reactor are timers of the log, and the wakers collected
    are those of the keys fired, in the same order. -/
structure Logged (s : State ι W) (g : Log W) : Prop where
  ids : (g.issued.map fun e => (ofLex e.1).2).Nodup
  lt : ∀ e ∈ g.issued, (ofLex e.1).2 < s.idGen
  timers : ∀ (k : TimerKey) w, s.timers[k]? = some w → (k, w) ∈ g.issued
  ops : ∀ op ∈ s.ops.queue, ∀ e, op.entry = some e → e ∈ g.issued
  calling : ∀ i op e, (s.calling i).stage = .carrying op → op.entry = some e → e ∈ g.issued
  length : s.fired.length = (g.woken ++ s.wakers).length
  fired : ∀ e ∈ s.fired.zip (g.woken ++ s.wakers), e ∈ g.issued
  idle : s.reacting = .idle → s.wakers = []

theorem logged_new (now : ℕ) : Logged (State.new now : State ι W) ⟨[], []⟩ := by
  refine ⟨List.nodup_nil, nofun, fun k w hk => ?_, nofun, nofun, rfl, nofun, fun _ => rfl⟩
  simp [State.new] at hk

/-- What an operation leaves in the map was there, or is its entry. -/
theorem TimerOp.getElem?_apply {op : TimerOp W} {m : TimerMap W} {k : TimerKey} {w : W}
    (h : (op.apply m)[k]? = some w) : m[k]? = some w ∨ op.entry = some (k, w) := by
  cases op with
  | insert when id v =>
    rw [TimerOp.getElem?_apply_insert] at h
    split_ifs at h with hk
    · cases h; exact Or.inr (by rw [← hk]; rfl)
    · exact Or.inl h
  | remove when id =>
    rw [TimerOp.getElem?_apply_remove] at h
    split_ifs at h
    exact Or.inl h

namespace Logged

variable {s s' : State ι W} {g : Log W}

/-- Two timers of the log with the same key are the same. -/
theorem unique (h : Logged s g) {k : TimerKey} {w w' : W} (hw : (k, w) ∈ g.issued)
    (hw' : (k, w') ∈ g.issued) : w = w' :=
  congrArg Prod.snd (List.inj_on_of_nodup_map h.ids hw hw' rfl)

/-- What the queued operations leave in the map is in the log. -/
theorem abstract (h : Logged s g) {k : TimerKey} {w : W} (hk : s.abstract[k]? = some w) :
    (k, w) ∈ g.issued := by
  have hfold : ∀ (ops : List (TimerOp W)) (m : TimerMap W),
      (∀ op ∈ ops, ∀ e, op.entry = some e → e ∈ g.issued) →
      (∀ (k : TimerKey) w, m[k]? = some w → (k, w) ∈ g.issued) →
      ∀ (k : TimerKey) w, (ops.foldl TimerOp.apply m)[k]? = some w → (k, w) ∈ g.issued := by
    intro ops
    induction ops with
    | nil => exact fun m _ hm => hm
    | cons op ops ih =>
      intro m hops hm
      refine ih _ (fun op' ho => hops op' (List.mem_cons_of_mem _ ho)) fun k w hkw => ?_
      rcases TimerOp.getElem?_apply hkw with hkw | hkw
      · exact hm k w hkw
      · exact hops op List.mem_cons_self _ hkw
  exact hfold _ _ h.ops h.timers k w hk

/-- An iteration of `process_timer_ops`. -/
theorem processTimerOp (h : Logged s g) (hs : s.processTimerOp = some s') : Logged s' g := by
  obtain ⟨op, ops, hq, -, rfl⟩ := processTimerOp_some hs
  refine { h with timers := fun k w hk => ?_, ops := fun op' ho => ?_ }
  · rcases TimerOp.getElem?_apply hk with hk | hk
    · exact h.timers k w hk
    · exact h.ops op (by rw [hq]; exact List.mem_cons_self) _ hk
  · exact h.ops op' (by rw [hq]; exact List.mem_cons_of_mem _ ho)

/-- The timers that are due are collected, each with its waker. -/
theorem split (h : Logged s g) (c : Call) (now : ℕ) (next : Option ℕ) :
    Logged { s with
      timers := s.timers.pending now
      reacting := .unlock c now next
      wakers := s.wakers ++ (s.timers.ready now).values
      fired := s.fired ++ (s.timers.ready now).keys } g := by
  have hvalues := TimerStore.values_eq (s.timers.ready now)
  have hkeys := Std.TreeMap.map_fst_toList_eq_keys (t := s.timers.ready now)
  have hlen : (s.timers.ready now).keys.length = (s.timers.ready now).values.length := by
    rw [hvalues, ← hkeys, List.length_map, List.length_map]
  refine { h with timers := fun k w hk => ?_, length := ?_, fired := fun e he => ?_, idle := nofun }
  · rw [TimerMap.getElem?_pending] at hk
    split_ifs at hk
    exact h.timers k w hk
  · simp only [List.length_append] at hlen ⊢
    have hl := h.length
    rw [List.length_append] at hl
    omega
  · rw [← List.append_assoc, List.zip_append h.length, List.mem_append] at he
    rcases he with he | he
    · exact h.fired e he
    · rw [hvalues, ← hkeys, ← List.unzip_fst, ← List.unzip_snd, List.zip_unzip] at he
      obtain ⟨k, w⟩ := e
      exact h.timers k w (((TimerStore.due_ready s.timers now).mem k w).1 he).1

/-- A step of `react`. -/
theorem reactStep (h : Logged s g) (hs : s.reactStep = some s') :
    Logged s' (g.record s (.next : Act ι W)) := by
  unfold State.reactStep at hs
  split at hs <;> rename_i hr <;> simp only [Log.record, hr]
  · split_ifs at hs; cases hs
    exact { h with idle := nofun }
  · cases hs; exact { h with idle := nofun }
  · split at hs <;> cases hs
    next t hd => exact { h.processTimerOp hd with idle := nofun }
    next => exact { h with idle := nofun }
  · cases hs; exact { h with idle := nofun }
  · cases hs; exact h.split _ _ _
  · cases hs; exact { h with idle := nofun }
  · cases hs; exact { h with idle := nofun }
  · obtain ⟨p, -, rfl⟩ := Option.map_eq_some_iff.1 hs
    exact { h with idle := nofun }
  · split at hs <;> obtain ⟨p, -, rfl⟩ := Option.map_eq_some_iff.1 hs
    · refine { h with idle := fun hi => ?_ }
      dsimp only at hi
      split_ifs at hi
    · exact { h with idle := nofun }
    · exact { h with idle := nofun }
    · exact { h with idle := fun hi => h.idle hi }
  · cases hs; exact { h with idle := nofun }
  · split at hs <;> cases hs <;> rename_i hw <;> simp only [hw]
    · exact ⟨h.ids, h.lt, h.timers, h.ops, h.calling, hw ▸ h.length, hw ▸ h.fired, fun _ => rfl⟩
    · -- the waker moves from the vector to the log
      refine ⟨h.ids, h.lt, h.timers, h.ops, h.calling, ?_, ?_, fun hi => by rw [hr] at hi; cases hi⟩
      · rw [h.length, hw]; simp
      · have hfired := h.fired
        rw [hw] at hfired
        simpa using hfired
  · cases hs

variable [DecidableEq ι]

/-- A call moves on: what it carries is in the log. -/
theorem setCalling (h : Logged s g) {i : ι} {p : OpPc W}
    (hp : ∀ op e, p.stage = .carrying op → op.entry = some e → e ∈ g.issued) :
    Logged (s.setCalling i p) g := by
  refine { h with calling := fun j op e hj => ?_ }
  simp only [State.setCalling, Function.update_apply] at hj
  split_ifs at hj
  · exact hp op e hj
  · exact h.calling j op e hj

/-- A step of a call of `insert_timer` or `remove_timer`. -/
theorem opStep (h : Logged s g) {i : ι} (hs : s.opStep i = some s') : Logged s' g := by
  -- a call that still carries its operation
  have hcarry : ∀ {t : State ι W} {op : TimerOp W} {p : OpPc W}, Logged t g →
      (s.calling i).stage = .carrying op → p.stage = .carrying op → Logged (t.setCalling i p) g := by
    intro t op p ht hi hp
    refine ht.setCalling fun op' e hop => h.calling i op' e ?_
    rw [hi, ← hp, hop]
  unfold State.opStep at hs
  split at hs <;> rename_i hi
  · rename_i op
    split at hs <;> cases hs
    next ops hp =>
      obtain ⟨hq, -⟩ := Queue.push_some hp
      have hops : Logged { s with ops := ops } g := by
        refine { h with ops := fun op' ho e he => ?_ }
        rw [hq] at ho
        rcases List.mem_append.1 ho with ho | ho
        · exact h.ops op' ho e he
        · rw [List.mem_singleton.1 ho] at he
          exact h.calling i op e (by rw [hi]; rfl) he
      exact hops.setCalling fun op' e hop => by rw [stage_pushed] at hop; cases hop
    next => exact hcarry h (by rw [hi]; rfl) rfl
  · split_ifs at hs; cases hs
    exact hcarry (t := { s with lock := some (.thread i) }) { h with } (by rw [hi]; rfl) rfl
  · cases hs; exact hcarry h (by rw [hi]; rfl) rfl
  · split at hs <;> cases hs
    next t hd => exact hcarry (h.processTimerOp hd) (by rw [hi]; rfl) rfl
    next => exact hcarry h (by rw [hi]; rfl) rfl
  · cases hs
    exact hcarry (t := { s with lock := none }) { h with } (by rw [hi]; rfl) rfl
  · obtain ⟨p, -, rfl⟩ := Option.map_eq_some_iff.1 hs
    exact setCalling (s := { s with poller := p }) { h with } nofun
  · split at hs <;> obtain ⟨p, -, rfl⟩ := Option.map_eq_some_iff.1 hs
    · exact setCalling (s := { s with poller := p }) { h with } nofun
    · exact { h with }
  all_goals cases hs

/-- Every step but one that drops wakers keeps the log. -/
theorem step (h : Logged s g) {a : Act ι W} (ha : a.Succeeds) (hs : Timers.step s a = some s') :
    Logged s' (g.record s a) := by
  cases a with
  | insertTimer i when waker =>
    simp only [Timers.step, State.insertTimer] at hs
    split at hs <;> cases hs
    have hnew : Logged { s with idGen := s.idGen + 1 }
        ⟨(toLex (when, s.idGen), waker) :: g.issued, g.woken⟩ := by
      refine ⟨?_, fun e he => ?_, fun k w hk => List.mem_cons_of_mem _ (h.timers k w hk),
        fun op ho e he => List.mem_cons_of_mem _ (h.ops op ho e he),
        fun j op e hj he => List.mem_cons_of_mem _ (h.calling j op e hj he), h.length,
        fun e he => List.mem_cons_of_mem _ (h.fired e he), h.idle⟩
      · rw [List.map_cons, List.nodup_cons]
        refine ⟨fun hm => ?_, h.ids⟩
        obtain ⟨e, he, hid⟩ := List.mem_map.1 hm
        exact (h.lt e he).ne hid
      · rcases List.mem_cons.1 he with rfl | he
        · exact Nat.lt_succ_self _
        · exact (h.lt e he).trans (Nat.lt_succ_self _)
    refine hnew.setCalling fun op e hop he => ?_
    cases hop
    cases he
    exact List.mem_cons_self
  | removeTimer i when id =>
    simp only [Timers.step, State.removeTimer] at hs
    split at hs <;> cases hs
    refine h.setCalling fun op e hop he => ?_
    cases hop
    cases he
  | op i => exact h.opStep hs
  | opRet i =>
    simp only [Timers.step, State.opRet] at hs
    split at hs <;> cases hs
    exact h.setCalling (by simp [OpPc.stage])
  | react timeout =>
    simp only [Timers.step, State.react] at hs
    split at hs <;> cases hs
    next hr =>
      have hw := h.idle hr
      exact { h with
        length := hw ▸ h.length
        fired := hw ▸ h.fired
        idle := fun _ => rfl }
  | next => exact h.reactStep hs
  | leaveEvents => exact ha.elim
  | epollReturn | interrupt =>
    obtain ⟨p, -, rfl⟩ := Option.map_eq_some_iff.1 hs
    exact { h with }
  | advance d => cases hs; exact { h with }

end Logged

/-- A wakeup of the reactor is under way: the eventfd is readable, or an `insert_timer` is
    between its push and the end of its `notify`, or a `Poller::notify` is before its write. -/
def Waking (s : State ι W) : Prop :=
  0 < s.poller.counter ∨ (∃ i id, s.calling i = .notify id ∨ s.calling i = .notifying id) ∨
    ∃ i, s.poller.notifying i = .write

/-- In `epoll_wait`, a timer of the abstract map is covered by the timeout. -/
theorem Inv.covered {s : State ι W} (h : Inv s) {now : ℕ} {timeout d : Option ℕ} {k : TimerKey}
    (hr : s.reacting = .wait now timeout) (hw : s.poller.waiting = .epollWait d)
    (hk : k ∈ s.abstract) : Covers d now (ofLex k).1 ∨ Waking s := by
  have hok := h.react
  rw [hr] at hok
  simp only [ReactOk, hw] at hok
  rcases hok.2 with ⟨ht, hq⟩ | (hc | hn) | ⟨i, id, hi⟩
  · exact Or.inl (ht k (mem_foldl_apply hq hk))
  · exact Or.inr (Or.inl hc)
  · exact Or.inr (Or.inr (Or.inr hn))
  · exact Or.inr (Or.inr (Or.inl ⟨i, id, Or.inl hi⟩))

/-! ### A timer that is due when `react` begins -/

/-- How far a call of `react` is with the timer `k`, which was due when it began: the first
    drain takes all operations on `k` from the queue, and the first split fires it. -/
def Overdue (s : State ι W) (k : TimerKey) : ReactPc → Prop
  | .lock (.first _) => (ofLex k).1 < s.clock
  | .drain (.first _) left => (ofLex k).1 < s.clock ∧ ∀ op ∈ s.ops.queue.drop left, op.key ≠ k
  | .now (.first _) => (ofLex k).1 < s.clock ∧ ∀ op ∈ s.ops.queue, op.key ≠ k
  | .split (.first _) now => (ofLex k).1 < now ∧ ∀ op ∈ s.ops.queue, op.key ≠ k
  | _ => False

section Overdue
variable {s s' : State ι W} {k : TimerKey} {w : W}

/-- Time passes, and the others queue no operation on `k`. -/
theorem Overdue.mono {pc : ReactPc} (h : Overdue s k pc) (hc : s.clock ≤ s'.clock)
    (hq : ∀ left, ∀ op ∈ s'.ops.queue.drop left, op ∈ s.ops.queue.drop left ∨ op.key ≠ k) :
    Overdue s' k pc := by
  have hdrop : ∀ left, (∀ op ∈ s.ops.queue.drop left, op.key ≠ k) →
      ∀ op ∈ s'.ops.queue.drop left, op.key ≠ k :=
    fun left hne op ho => (hq left op ho).elim (hne op) id
  unfold Overdue at h ⊢
  split at h
  · exact h.trans_le hc
  · exact ⟨h.1.trans_le hc, hdrop _ h.2⟩
  · exact ⟨h.1.trans_le hc, hdrop 0 h.2⟩
  · exact ⟨h.1, hdrop 0 h.2⟩
  · exact h

/-- Operations on other keys do not change the entry of `k`. -/
theorem getElem?_foldl_of_ne (ops : List (TimerOp W)) (m : TimerMap W)
    (h : ∀ op ∈ ops, op.key ≠ k) : (ops.foldl TimerOp.apply m)[k]? = m[k]? := by
  induction ops generalizing m with
  | nil => rfl
  | cons op ops ih =>
    rw [List.foldl_cons, ih _ fun op' ho => h op' (List.mem_cons_of_mem _ ho)]
    exact TimerOp.getElem?_apply_of_ne (h op List.mem_cons_self)

/-- A step of `react` brings it further, or fires the timer. -/
theorem Overdue.reactStep (h : Overdue s k s.reacting) (hk : s.abstract[k]? = some w)
    (hs : s.reactStep = some s') :
    Overdue s' k s'.reacting ∨ ∃ new, s'.fired = s.fired ++ new ∧ k ∈ new := by
  unfold State.reactStep at hs
  split at hs <;> rename_i hr <;> rw [hr] at h
  · rename_i c
    split_ifs at hs; cases hs
    cases c with
    | first timeout =>
      refine Or.inl ⟨h, ?_⟩
      rw [List.drop_eq_nil_of_le s.ops.queue_length_le]
      simp
    | second => exact h.elim
  · rename_i c
    cases hs
    cases c with
    | first timeout => exact Or.inl h
    | second => exact h.elim
  · rename_i c left
    cases c with
    | first timeout =>
      split at hs <;> cases hs
      next t hd =>
        obtain ⟨op, ops, hq, -, rfl⟩ := processTimerOp_some hd
        refine Or.inl ⟨h.1, fun op' ho => h.2 op' ?_⟩
        rw [hq]
        exact ho
      next hd =>
        refine Or.inl ⟨h.1, fun op' ho => ?_⟩
        rw [show s.ops.queue = [] from processTimerOp_none hd] at ho
        cases ho
    | second => exact h.elim
  · rename_i c
    cases hs
    cases c with
    | first timeout => exact Or.inl h
    | second => exact h.elim
  · rename_i c now
    cases hs
    cases c with
    | first timeout =>
      refine Or.inr ⟨_, rfl, Std.TreeMap.mem_keys.2 (TimerMap.mem_iff_getElem?.2 ?_)⟩
      rw [TimerMap.getElem?_ready, if_pos h.1, ← getElem?_foldl_of_ne _ _ h.2]
      change s.abstract[k]? ≠ none
      rw [hk]
      nofun
    | second => exact h.elim
  all_goals exact h.elim

variable [DecidableEq ι]

/-- A step of a call adds no operation to the queue but its own. -/
theorem opStep_queue {i : ι} (hs : s.opStep i = some s') (left : ℕ) :
    ∀ op ∈ s'.ops.queue.drop left,
      op ∈ s.ops.queue.drop left ∨ (s.calling i).stage = .carrying op := by
  intro op ho
  unfold State.opStep at hs
  split at hs <;> rename_i hi
  · rename_i op'
    split at hs <;> cases hs
    next ops hp =>
      obtain ⟨hq, -⟩ := Queue.push_some hp
      simp only [State.setCalling, hq, List.drop_append, List.mem_append] at ho
      refine ho.imp_right fun ho => ?_
      rw [hi, List.mem_singleton.1 (List.mem_of_mem_drop ho)]
      rfl
    next => exact Or.inl ho
  · split_ifs at hs; cases hs
    exact Or.inl ho
  · cases hs; exact Or.inl ho
  · split at hs <;> cases hs
    next t hd =>
      obtain ⟨op', ops, hq, -, rfl⟩ := processTimerOp_some hd
      refine Or.inl (List.drop_subset_drop_left s.ops.queue (Nat.le_succ left) ?_)
      rw [hq]
      exact ho
    next => exact Or.inl ho
  · cases hs; exact Or.inl ho
  · obtain ⟨p, -, rfl⟩ := Option.map_eq_some_iff.1 hs
    exact Or.inl ho
  · split at hs <;> obtain ⟨p, -, rfl⟩ := Option.map_eq_some_iff.1 hs <;> exact Or.inl ho
  all_goals cases hs

/-- The timers that have fired stay so. -/
theorem step_fired {a : Act ι W} (hs : step s a = some s') :
    ∃ new, s'.fired = s.fired ++ new := by
  cases a with
  | insertTimer i when waker =>
    simp only [step, State.insertTimer] at hs
    split at hs <;> cases hs
    exact ⟨[], by simp [State.setCalling]⟩
  | removeTimer i when id =>
    simp only [step, State.removeTimer] at hs
    split at hs <;> cases hs
    exact ⟨[], by simp [State.setCalling]⟩
  | op i =>
    obtain ⟨hsame, -⟩ := opStep_stage hs
    exact ⟨[], by rw [hsame.fired, List.append_nil]⟩
  | opRet i =>
    simp only [step, State.opRet] at hs
    split at hs <;> cases hs
    exact ⟨[], by simp [State.setCalling]⟩
  | react timeout =>
    simp only [step, State.react] at hs
    split at hs <;> cases hs
    exact ⟨[], by simp⟩
  | next =>
    obtain ⟨-, -, -, -, new, hf, -⟩ := reactStep_fires hs
    exact ⟨new, hf⟩
  | leaveEvents =>
    simp only [step, State.leaveEvents] at hs
    split at hs <;> cases hs
    exact ⟨[], by simp⟩
  | epollReturn | interrupt =>
    obtain ⟨p, -, rfl⟩ := Option.map_eq_some_iff.1 hs
    exact ⟨[], by simp⟩
  | advance d => cases hs; exact ⟨[], by simp⟩

/-- A step of the system, other than an operation on `k`, brings `react` no further from the
    timer, or fires it. -/
theorem Overdue.step (h : Overdue s k s.reacting) (hk : s.abstract[k]? = some w) {a : Act ι W}
    (hs : Timers.step s a = some s')
    (ha : ∀ i op, a = .op i → (s.calling i).stage = .carrying op → op.key ≠ k) :
    Overdue s' k s'.reacting ∨ ∃ new, s'.fired = s.fired ++ new ∧ k ∈ new := by
  cases a with
  | insertTimer i when waker =>
    simp only [Timers.step, State.insertTimer] at hs
    split at hs <;> cases hs
    exact Or.inl (h.mono le_rfl fun _ _ => Or.inl)
  | removeTimer i when id =>
    simp only [Timers.step, State.removeTimer] at hs
    split at hs <;> cases hs
    exact Or.inl (h.mono le_rfl fun _ _ => Or.inl)
  | op i =>
    obtain ⟨⟨hc, -, -, hr⟩, -⟩ := opStep_stage hs
    rw [hr]
    exact Or.inl (h.mono hc.ge fun left op ho =>
      (opStep_queue hs left op ho).imp_right (ha i op rfl))
  | opRet i =>
    simp only [Timers.step, State.opRet] at hs
    split at hs <;> cases hs
    exact Or.inl (h.mono le_rfl fun _ _ => Or.inl)
  | react timeout =>
    simp only [Timers.step, State.react] at hs
    split at hs <;> cases hs
    next hr =>
      rw [hr] at h
      exact h.elim
  | next => exact h.reactStep hk hs
  | leaveEvents =>
    simp only [Timers.step, State.leaveEvents] at hs
    split at hs <;> cases hs
    next hr =>
      rw [hr] at h
      exact h.elim
  | epollReturn | interrupt =>
    obtain ⟨p, -, rfl⟩ := Option.map_eq_some_iff.1 hs
    exact Or.inl (h.mono le_rfl fun _ _ => Or.inl)
  | advance d =>
    cases hs
    exact Or.inl (h.mono (Nat.le_add_right _ _) fun _ _ => Or.inl)

end Overdue

end Timers

/-! ## The log of the objects -/

namespace Timer

open Timers (Stage Log)

/-- The calls of `poller.interest` in `react` succeed. -/
def Act.Succeeds : Act ι W → Prop
  | .leaveEvents => False
  | _ => True

instance : ∀ a : Act ι W, Decidable a.Succeeds
  | .leaveEvents => isFalse id
  | .new .. | .poll .. | .reset .. | .drop _ | .next _ | .op _ | .react _ | .reactNext
  | .epollReturn .. | .interrupt | .advance _ => isTrue trivial

/-- The move of the reactor in a step of object `i` outside its calls. -/
def State.nextMove (s : State ι W) (i : ι) : Option (Timers.Act ι W) :=
  match (s.objs i).timer with
  | none => none
  | some t =>
    match (s.objs i).pc, s.reactor.calling i with
    | .pollInsert cx, .idle => some (.insertTimer i t.deadline cx)
    | .resetInsert when waker, .idle => some (.insertTimer i when waker)
    | _, .idle => some (.removeTimer i t.deadline t.key)
    | _, _ => some (.opRet i)

/-- The move of the reactor in a move of the system. -/
def State.move (s : State ι W) : Act ι W → Option (Timers.Act ι W)
  | .next i => s.nextMove i
  | .op i => some (.op i)
  | .react timeout => some (.react timeout)
  | .reactNext => some .next
  | .leaveEvents => some .leaveEvents
  | .epollReturn report empty => some (.epollReturn report empty)
  | .interrupt => some .interrupt
  | .advance d => some (.advance d)
  | .new .. | .poll .. | .reset .. | .drop _ => none

/-- The log after a move of the system. -/
def record (g : Log W) (s : State ι W) (a : Act ι W) : Log W :=
  match s.move a with
  | some b => g.record s.reactor b
  | none => g

/-- What an object stands for in the reactor: the timer it stores, or the one that
    its call has inserted. -/
inductive Holds (st : Stage W) (o : Obj W) : TimerKey × W → Prop
  | stored {t : Timer W} {e : TimerKey × W} : o.timer = some t → t.entry = some e → Holds st o e
  | polled {t : Timer W} {cx : W} {id : ℕ} : o.timer = some t → o.pc = .pollInsert cx →
      st = .queued (some id) → Holds st o (toLex (t.deadline, id), cx)
  | reset {when id : ℕ} {waker : W} : o.pc = .resetInsert when waker →
      st = .queued (some id) → Holds st o (toLex (when, id), waker)

/-- The reactor and the objects hold timers of the log only. -/
structure Logged (s : State ι W) (g : Log W) : Prop where
  reactor : Timers.Logged s.reactor g
  objs : ∀ i e, Holds (s.reactor.calling i).stage (s.objs i) e → e ∈ g.issued

section Steps
variable [DecidableEq ι] [DecidableEq W] {s s' : State ι W} {g : Log W}

/-- The system with the log of its reactor. -/
def recorded (now : ℕ) : Lts (State ι W × Log W) (Act ι W) :=
  (system now).monitor ⟨[], []⟩ record

omit [DecidableEq W] in
theorem next_move {i : ι} (hs : s.next i = some s') :
    ∃ b, s.nextMove i = some b ∧ b.Succeeds ∧ Timers.step s.reactor b = some s'.reactor := by
  simp only [State.next, State.callRemove, State.callInsert, State.back] at hs
  unfold State.nextMove
  cases ht : (s.objs i).timer with
  | none =>
    rw [ht] at hs
    cases hs
  | some t =>
    rw [ht] at hs
    dsimp only at hs ⊢
    split at hs
    case h_13 => cases hs
    all_goals
      rename_i hp hc
      obtain ⟨r, hr, rfl⟩ := Option.map_eq_some_iff.1 hs
      rw [hp, hc]
      exact ⟨_, rfl, trivial, hr⟩

/-- A move of the system is the move of the reactor in it. -/
theorem step_move {a : Act ι W} (hs : step s a = some s') :
    s.move a = none ∧ s'.reactor = s.reactor ∨
      ∃ b, s.move a = some b ∧ Timers.step s.reactor b = some s'.reactor := by
  cases a with
  | new i deadline =>
    simp only [step, Option.ite_none_right_eq_some, Option.some.injEq] at hs
    exact Or.inl ⟨rfl, by rw [← hs.2]; rfl⟩
  | poll i cx =>
    refine Or.inl ⟨rfl, ?_⟩
    simp only [step, State.pollTimeout] at hs
    split at hs
    · split_ifs at hs
      · cases hs; rfl
      · cases hs; rfl
      · split at hs
        · cases hs; rfl
        · split_ifs at hs <;> cases hs <;> rfl
    · cases hs
  | reset i when =>
    refine Or.inl ⟨rfl, ?_⟩
    simp only [step, State.reset] at hs
    split at hs
    · split at hs <;> cases hs <;> rfl
    · cases hs
  | drop i =>
    refine Or.inl ⟨rfl, ?_⟩
    simp only [step, State.drop] at hs
    split at hs
    · split at hs <;> cases hs <;> rfl
    · cases hs
  | next i =>
    obtain ⟨b, hb, -, hstep⟩ := next_move hs
    exact Or.inr ⟨b, hb, hstep⟩
  | op | react | reactNext | leaveEvents | epollReturn | interrupt =>
    obtain ⟨r, hr, rfl⟩ := Option.map_eq_some_iff.1 hs
    exact Or.inr ⟨_, rfl, hr⟩
  | advance d => cases hs; exact Or.inr ⟨_, rfl, rfl⟩

omit [DecidableEq ι] [DecidableEq W] in
theorem mem_record {a : Act ι W} {e : TimerKey × W} (h : e ∈ g.issued) :
    e ∈ (record g s a).issued := by
  unfold record
  cases s.move a with
  | none => exact h
  | some b =>
    cases b with
    | insertTimer => exact List.mem_cons_of_mem _ h
    | next => simp only [Log.record]; split <;> exact h
    | _ => exact h

omit [DecidableEq ι] [DecidableEq W] in
/-- An object whose call has not inserted a timer holds the one it stores. -/
theorem Holds.of_idle {o : Obj W} {e : TimerKey × W} (h : Holds .idle o e) :
    ∃ t, o.timer = some t ∧ t.entry = some e := by
  cases h with
  | stored ht he => exact ⟨_, ht, he⟩
  | polled _ _ hst => cases hst
  | reset _ hst => cases hst

namespace Logged

omit [DecidableEq W] in
/-- A step outside the calls of the reactor: the objects hold what they held. -/
theorem objs_set (h : Logged s g) {i : ι} {o : Obj W}
    (ho : ∀ e, Holds (s.reactor.calling i).stage o e → e ∈ g.issued) : Logged (s.set i o) g := by
  refine ⟨h.reactor, fun j e he => ?_⟩
  by_cases hj : j = i
  · subst hj
    simp only [State.set, Function.update_self] at he
    exact ho e he
  · simp only [State.set, Function.update_of_ne hj] at he
    exact h.objs j e he

/-- A call of `poll_timeout`, `reset` or `drop` begins, or ends at once: it stores no
    other timer. -/
theorem call (h : Logged s g) (hi : Inv s) {i : ι}
    (hs : (∃ cx, s.pollTimeout i cx = some s') ∨ (∃ when, s.reset i when = some s') ∨
      s.drop i = some s') : Logged s' g := by
  have hset : ∀ (o : Obj W) {t : Timer W}, (s.objs i).pc = .idle → (s.objs i).timer = some t →
      (∀ t' e, o.timer = some t' → t'.entry = some e → (s.objs i).timer = some t') →
      Logged (s.set i o) g := by
    intro o t hp ht ho
    refine h.objs_set fun e he => ?_
    rw [(hi.rest ht hp).2.2.2.1] at he
    obtain ⟨t', ht', he⟩ := he.of_idle
    exact h.objs i e (.stored (ho t' e ht' he) he)
  rcases hs with ⟨cx, hs⟩ | ⟨when, hs⟩ | hs
  · simp only [State.pollTimeout] at hs
    split at hs
    next t hp ht =>
      split_ifs at hs
      · cases hs; exact hset _ hp ht fun _ _ ht' _ => ht'
      · cases hs; exact hset _ hp ht fun _ _ ht' _ => ht'
      · split at hs
        · cases hs; exact hset _ hp ht fun _ _ ht' _ => ht'
        · split_ifs at hs <;> cases hs <;> exact hset _ hp ht fun _ _ ht' _ => ht'
    next => cases hs
  · simp only [State.reset] at hs
    split at hs
    next t hp ht =>
      split at hs <;> cases hs
      next => exact hset _ hp ht fun _ _ ht' _ => ht'
      next hw =>
        refine hset _ hp ht fun t' e ht' he => ?_
        cases ht'
        rw [entry, hw] at he
        cases he
    next => cases hs
  · simp only [State.drop] at hs
    split at hs
    next t hp ht =>
      split at hs <;> cases hs
      next =>
        refine hset _ hp ht fun t' e ht' he => ?_
        cases ht'
        cases he
      next => exact hset _ hp ht fun _ _ ht' _ => by cases ht'
    next => cases hs

omit [DecidableEq W] in
/-- A step inside a call of the reactor: what it inserts is held from then on. -/
theorem op (h : Logged s g) (hi : Inv s) {i : ι} {r : Timers.State ι W}
    (hs : s.reactor.opStep i = some r) : Logged { s with reactor := r } g := by
  refine ⟨h.reactor.opStep hs, fun j e he => ?_⟩
  obtain ⟨-, hne, hcase⟩ := Timers.opStep_stage hs
  by_cases hj : j = i
  · subst hj
    rcases hcase with ⟨op, hst, hst', -⟩ | ⟨hst, -⟩
    · have hobj := (hi.objs j).2
      have hissued := h.reactor.calling j op
      rw [hst] at hobj hissued
      simp only [hst'] at he
      cases he with
      | stored ht he => exact h.objs j e (.stored ht he)
      | @polled t cx id ht hp hid =>
        rw [ht] at hobj
        simp only [hp, PcOk, InsertOk] at hobj
        obtain ⟨-, -, -, n, rfl, -⟩ := hobj
        cases hid
        exact hissued _ rfl rfl
      | @reset when id w hp hid =>
        cases ht : (s.objs j).timer with
        | none => rw [ht] at hobj; cases hobj.2.2.1
        | some t =>
          rw [ht] at hobj
          simp only [hp, PcOk, InsertOk] at hobj
          obtain ⟨-, -, -, -, n, rfl, -⟩ := hobj
          cases hid
          exact hissued _ rfl rfl
    · exact h.objs j e (by rw [← hst]; exact he)
  · exact h.objs j e (by rw [← hne j hj]; exact he)

omit [DecidableEq W] in
/-- A call of the reactor begins or returns: the object holds what it stores. -/
theorem objs_calling (h : Logged s g) {i : ι} {r : Timers.State ι W} {o : Obj W}
    {pc : Timers.OpPc W} (hr : r.calling = Function.update s.reactor.calling i pc)
    (hpc : ∀ id, pc.stage ≠ .queued id)
    (ho : ∀ t e, o.timer = some t → t.entry = some e → e ∈ g.issued) (j : ι)
    (e : TimerKey × W)
    (he : Holds (r.calling j).stage (({ s with reactor := r }.set i o).objs j) e) :
    e ∈ g.issued := by
  by_cases hj : j = i
  · subst hj
    simp only [hr, State.set, Function.update_self] at he
    cases he with
    | stored ht he => exact ho _ e ht he
    | polled _ _ hst => exact absurd hst (hpc _)
    | reset _ hst => exact absurd hst (hpc _)
  · simp only [hr, State.set, Function.update_of_ne hj] at he
    exact h.objs j e he

omit [DecidableEq W] in
/-- A step of an object outside its calls of the reactor. -/
theorem next (h : Logged s g) (hi : Inv s) {i : ι} (hs : s.next i = some s') :
    Logged s' (record g s (.next i)) := by
  have hreactor : Timers.Logged s'.reactor (record g s (.next i)) := by
    obtain ⟨b, hb, hok, hstep⟩ := next_move hs
    simp only [record, State.move, hb]
    exact h.reactor.step hok hstep
  refine ⟨hreactor, fun j e he => mem_record ?_⟩
  have hobj := (hi.objs i).2
  have hstored : ∀ t e, (s.objs i).timer = some t → t.entry = some e → e ∈ g.issued :=
    fun t e ht he => h.objs i e (.stored ht he)
  have hself : ∀ r, ({ s with reactor := r } : State ι W) =
      { s with reactor := r }.set i (s.objs i) := by intro r; simp [State.set]
  have hremove : ∀ {t : Timer W}, s.callRemove i t = some s' → e ∈ g.issued := by
    intro t hs
    obtain ⟨r, hr, rfl⟩ := Option.map_eq_some_iff.1 hs
    unfold Timers.State.removeTimer at hr
    split at hr <;> cases hr
    rw [hself] at he
    exact h.objs_calling rfl (by simp [Timers.OpPc.stage]) hstored j e he
  have hinsert : ∀ {when : ℕ} {w : W}, s.callInsert i when w = some s' → e ∈ g.issued := by
    intro when w hs
    obtain ⟨r, hr, rfl⟩ := Option.map_eq_some_iff.1 hs
    unfold Timers.State.insertTimer at hr
    split at hr <;> cases hr
    exact h.objs_calling rfl (by simp [Timers.OpPc.stage]) (by exact hstored) j e he
  have hback : ∀ {o : Obj W}, s.back i o = some s' →
      (∀ t e, o.timer = some t → t.entry = some e → e ∈ g.issued) → e ∈ g.issued := by
    intro o hs ho
    obtain ⟨r, hr, rfl⟩ := Option.map_eq_some_iff.1 hs
    unfold Timers.State.opRet at hr
    split at hr <;> cases hr
    exact h.objs_calling rfl (by simp [Timers.OpPc.stage]) ho j e he
  simp only [State.next] at hs
  split at hs
  · cases hs
  next t ht =>
    rw [ht] at hobj
    obtain ⟨-, -, -, hpc⟩ := hobj
    split at hs
    case h_13 => cases hs
    all_goals rename_i hp hc; rw [hp, hc] at hpc
    · exact hremove hs
    · exact hback hs hstored
    · exact hremove hs
    · exact hback hs hstored
    · exact hinsert hs
    · rename_i cx id
      refine hback hs fun t' e ht' he => ?_
      cases ht'
      cases he
      exact h.objs i (toLex (t.deadline, id), cx) (.polled ht hp (by rw [hc]; rfl))
    · exact hremove hs
    · exact hback hs hstored
    · exact hinsert hs
    · rename_i when w id
      refine hback hs fun t' e ht' he => ?_
      cases ht'
      rw [entry, hpc.1] at he
      cases he
      exact h.objs i (toLex (when, id), w) (.reset hp (by rw [hc]; rfl))
    · exact hremove hs
    · exact hback hs fun t' e ht' _ => by cases ht'

/-- Every step of the system but one that drops wakers keeps the log. -/
theorem step (h : Logged s g) (hi : Inv s) {a : Act ι W} (ha : a.Succeeds)
    (hs : Timer.step s a = some s') :
    Logged s' (record g s a) := by
  cases a with
  | new i deadline =>
    simp only [Timer.step] at hs
    split_ifs at hs with hu
    cases hs
    have hobj := (hi.objs i).2
    cases ht : (s.objs i).timer with
    | some t => rw [ht] at hobj; exact absurd hu hobj.1
    | none =>
      rw [ht] at hobj
      refine h.objs_set fun e he => ?_
      rw [hobj.2.2.1] at he
      obtain ⟨t, ht, he⟩ := he.of_idle
      cases ht
      cases he
  | poll i cx => exact h.call hi (Or.inl ⟨cx, hs⟩)
  | reset i when => exact h.call hi (Or.inr (Or.inl ⟨when, hs⟩))
  | drop i => exact h.call hi (Or.inr (Or.inr hs))
  | next i => exact h.next hi hs
  | op i =>
    obtain ⟨r, hr, rfl⟩ := Option.map_eq_some_iff.1 hs
    exact h.op hi hr
  | react timeout =>
    obtain ⟨r, hr, rfl⟩ := Option.map_eq_some_iff.1 hs
    refine ⟨h.reactor.step (a := .react timeout) trivial hr, fun i e he => h.objs i e ?_⟩
    unfold Timers.State.react at hr
    split at hr <;> cases hr
    exact he
  | reactNext =>
    obtain ⟨r, hr, rfl⟩ := Option.map_eq_some_iff.1 hs
    refine ⟨h.reactor.step (a := .next) trivial hr, fun i e he => mem_record (h.objs i e ?_)⟩
    obtain ⟨-, hcalling⟩ := Timers.State.reactStep_drained hr
    rw [← hcalling]
    exact he
  | leaveEvents => exact ha.elim
  | epollReturn | interrupt =>
    obtain ⟨r, hr, rfl⟩ := Option.map_eq_some_iff.1 hs
    obtain ⟨p, -, rfl⟩ := Option.map_eq_some_iff.1 hr
    exact ⟨{ h.reactor with }, h.objs⟩
  | advance d => cases hs; exact ⟨{ h.reactor with }, h.objs⟩

end Logged

omit [DecidableEq ι] [DecidableEq W] in
theorem logged_init (now : ℕ) :
    Logged (⟨.new now, fun _ => ⟨none, .idle, .unborn, 0, []⟩⟩ : State ι W) ⟨[], []⟩ :=
  ⟨Timers.logged_new now, fun _ _ he => by obtain ⟨t, ht, -⟩ := he.of_idle; cases ht⟩

theorem objs_reach {now : ℕ} {p : State ι W × Log W}
    (h : (recorded now).Reach (fun _ a => a.Succeeds) p) :
    (system now).Reach (fun _ a => a.Succeeds) p.1 :=
  Lts.monitor_reach (C := fun _ a => Act.Succeeds a) h

theorem logged_reach {now : ℕ} {p : State ι W × Log W}
    (h : (recorded now).Reach (fun _ a => a.Succeeds) p) : Logged p.1 p.2 := by
  have hlogged : Inv p.1 ∧ Logged p.1 p.2 := by
    refine h.inv (P := fun p => Inv p.1 ∧ Logged p.1 p.2) (fun p hp => ?_)
      fun p a p' _ ih ha hs => ?_
    · obtain ⟨s, g⟩ := p
      obtain ⟨rfl, rfl⟩ := hp
      exact ⟨inv_init now, logged_init now⟩
    · obtain ⟨hstep, hrecord⟩ := Lts.monitor_step hs
      exact ⟨ih.1.step hstep, hrecord ▸ ih.2.step ih.1 ha hstep⟩
  exact hlogged.2

/-- The reactor under the objects runs as it does on its own. -/
theorem reactor_reach {C : State ι W → Act ι W → Prop} {now : ℕ} (h : (system now).Reach C s) :
    (Timers.system now).Reachable s.reactor := by
  refine h.map (f := State.reactor) (fun s hs => by rw [hs]; rfl) fun s a s' _ _ hs => ?_
  rcases step_move hs with ⟨-, he⟩ | ⟨b, -, hb⟩
  · exact Or.inl he
  · exact Or.inr ⟨b, trivial, hb⟩

end Steps

/-! ## A waiting task is never forgotten -/

section Waiting
variable [DecidableEq ι] [DecidableEq W]

omit [DecidableEq ι] [DecidableEq W] in
/-- The timer of an object that has fired since `mark` has brought its waker to the log,
    or to the vector of `react`. -/
theorem Logged.woken {s : State ι W} {g : Log W} (h : Logged s g) {k : TimerKey} {cx : W}
    {mark : ℕ} (hk : (k, cx) ∈ g.issued) (hf : k ∈ s.reactor.fired.drop mark) :
    cx ∈ g.woken.drop mark ∨ cx ∈ s.reactor.wakers := by
  obtain ⟨n, hn, hget⟩ := List.mem_iff_getElem.1 hf
  rw [List.length_drop] at hn
  rw [List.getElem_drop] at hget
  have hlen := h.reactor.length
  have hlt : mark + n < (g.woken ++ s.reactor.wakers).length := by omega
  have hzip := h.reactor.fired (s.reactor.fired[mark + n], (g.woken ++ s.reactor.wakers)[mark + n])
    (List.mem_iff_getElem.2 ⟨mark + n, by rw [List.length_zip]; omega, List.getElem_zip⟩)
  rw [hget] at hzip
  have hcx : (g.woken ++ s.reactor.wakers)[mark + n] = cx := h.reactor.unique hzip hk
  by_cases hw : mark + n < g.woken.length
  · rw [List.getElem_append_left hw] at hcx
    refine Or.inl (List.mem_iff_getElem.2 ⟨n, by rw [List.length_drop]; omega, ?_⟩)
    rw [List.getElem_drop]
    exact hcx
  · rw [List.getElem_append_right (not_lt.1 hw)] at hcx
    exact Or.inr (hcx ▸ List.getElem_mem _)

omit [DecidableEq ι] [DecidableEq W] in
/-- After `Pending` the timer is set with the waker of the call, unless it has fired. -/
theorem Inv.pending {s : State ι W} (h : Inv s) {i : ι} {t : Timer W} {cx : W}
    (ht : (s.objs i).timer = some t) (hp : (s.objs i).pc = .idle)
    (hl : (s.objs i).last = .pending cx) : t.entry = some (toLex (t.deadline, t.key), cx) ∧
      (s.reactor.abstract[(toLex (t.deadline, t.key) : TimerKey)]? = some cx ∨
        toLex (t.deadline, t.key) ∈ s.reactor.fired.drop (s.objs i).mark) := by
  obtain ⟨-, -, -, -, hrest⟩ := h.rest ht hp
  rw [hl] at hrest
  obtain ⟨hw, hreg⟩ := hrest
  have he : t.entry = some (toLex (t.deadline, t.key), cx) := by rw [entry, hw]; rfl
  exact ⟨he, (hreg.2 _ cx he).2⟩

/-- **A task that waits on a `Timer` is never forgotten**, as long as the calls of `interest`
    in `react` succeed.  Once `poll_timeout` has returned `Pending`, its waker has been woken
    since, or is in the vector of the current call of `react`, or the timer is set with this
    waker, and `react` is in `epoll_wait` only with a timeout that ends by the deadline, or
    with a wakeup under way. -/
theorem never_forgotten {start : ℕ} {p : State ι W × Log W}
    (h : (recorded start).Reach (fun _ a => a.Succeeds) p) {i : ι} {t : Timer W} {cx : W}
    (ht : (p.1.objs i).timer = some t) (hp : (p.1.objs i).pc = .idle)
    (hl : (p.1.objs i).last = .pending cx) :
    cx ∈ p.2.woken.drop (p.1.objs i).mark ∨
      (cx ∈ p.1.reactor.wakers ∧ p.1.reactor.reacting ≠ .idle) ∨
      (p.1.reactor.abstract[(toLex (t.deadline, t.key) : TimerKey)]? = some cx ∧
        ∀ now timeout d, p.1.reactor.reacting = .wait now timeout →
          p.1.reactor.poller.waiting = .epollWait d →
          Timers.Covers d now t.deadline ∨ Timers.Waking p.1.reactor) := by
  have hreach := objs_reach h
  have hinv := inv_reach hreach
  have hlog := logged_reach h
  obtain ⟨he, hset⟩ := hinv.pending ht hp hl
  have hk := hlog.objs i _ (.stored ht he)
  rcases hset with hset | hfired
  · refine Or.inr (Or.inr ⟨hset, fun now timeout d hr hw => ?_⟩)
    have hmem := TimerMap.mem_iff_getElem?.2 (by rw [hset]; nofun)
    exact (Timers.inv_reach (reactor_reach hreach)).covered hr hw hmem
  · rcases hlog.woken hk hfired with hwoken | hwakers
    · exact Or.inl hwoken
    · refine Or.inr (Or.inl ⟨hwakers, fun hidle => ?_⟩)
      rw [hlog.reactor.idle hidle] at hwakers
      cases hwakers

end Waiting

/-- An object with deadline `5` is polled with the waker `7`. -/
def pollOnce : List (Act (Fin 2) ℕ) :=
  [.new 0 5, .poll 0 7, .next 0, .op 0, .op 0, .op 0, .op 0, .next 0]

/-- `react` waits with the timer set, and with a timeout that ends at the deadline. -/
theorem never_forgotten_asleep : ∃ p : State (Fin 2) ℕ × Log ℕ,
    (recorded 0).run (⟨.new 0, fun _ => ⟨none, .idle, .unborn, 0, []⟩⟩, ⟨[], []⟩)
        (pollOnce ++ [.react none] ++ List.replicate 9 .reactNext) = some p ∧
      p.2.woken = [] ∧ p.1.reactor.wakers = [] ∧
      p.1.reactor.abstract[(toLex (5, 1) : TimerKey)]? = some 7 ∧
      (Timers.Covers (some 5) 0 5 ∨ Timers.Waking p.1.reactor) := by
  obtain ⟨p, hs, ht, hp, hl, hwoken, hwakers, hr, hw⟩ :
      ∃ p : State (Fin 2) ℕ × Log ℕ,
        (recorded 0).run (⟨.new 0, fun _ => ⟨none, .idle, .unborn, 0, []⟩⟩, ⟨[], []⟩)
          (pollOnce ++ [.react none] ++ List.replicate 9 .reactNext) = some p ∧
        (p.1.objs 0).timer = some ⟨5, 1, some 7⟩ ∧ (p.1.objs 0).pc = .idle ∧
        (p.1.objs 0).last = .pending 7 ∧ p.2.woken = [] ∧ p.1.reactor.wakers = [] ∧
        p.1.reactor.reacting = .wait 0 (some 5) ∧
        p.1.reactor.poller.waiting = .epollWait (some 5) :=
    Lts.exists_run (by decide +kernel)
  have hinit : (recorded 0).init ((⟨.new 0, fun _ => ⟨none, .idle, .unborn, 0, []⟩⟩, ⟨[], []⟩) :
      State (Fin 2) ℕ × Log ℕ) := ⟨rfl, rfl⟩
  have hm : (recorded 0).Meets (fun _ a => a.Succeeds)
      ((⟨.new 0, fun _ => ⟨none, .idle, .unborn, 0, []⟩⟩, ⟨[], []⟩) : State (Fin 2) ℕ × Log ℕ)
      (pollOnce ++ [.react none] ++ List.replicate 9 .reactNext) := by decide +kernel
  have hkept := never_forgotten (.run (.init hinit) hm hs) ht hp hl
  rw [hwoken, hwakers] at hkept
  obtain ⟨hset, hcovers⟩ := (hkept.resolve_left (by simp)).resolve_left (by simp)
  exact ⟨p, hs, hwoken, hwakers, hset, hcovers 0 (some 5) (some 5) hr hw⟩

-- Where `react` has fired the timer and fails to re-arm a source, the task is forgotten.
example : ((recorded 0).run
    ((⟨.new 0, fun _ => ⟨none, .idle, .unborn, 0, []⟩⟩, ⟨[], []⟩) : State (Fin 2) ℕ × Log ℕ)
    (pollOnce ++ [.advance 6, .react none] ++ List.replicate 9 .reactNext ++
      [.epollReturn false false] ++ List.replicate 4 .reactNext ++ [.leaveEvents])).any fun p =>
    (p.1.objs 0).last = .pending 7 ∧ p.2.woken = [] ∧ p.1.reactor.wakers = [] ∧
      p.1.reactor.reacting = .idle ∧ p.1.reactor.abstract[(toLex (5, 1) : TimerKey)]? = none := by
  decide +kernel

section Firing
variable [DecidableEq ι] [DecidableEq W]

/-! ## A timer that is due is fired by the next call of `react` -/

/-- The move is a call of an operation on the object `i`. -/
def Act.Uses (i : ι) : Act ι W → Prop
  | .poll j _ | .reset j _ | .drop j => j = i
  | _ => False

instance (i : ι) : ∀ a : Act ι W, Decidable (a.Uses i)
  | .poll j _ | .reset j _ | .drop j => inferInstanceAs (Decidable (j = i))
  | .new .. | .next _ | .op _ | .react _ | .reactNext | .leaveEvents | .epollReturn .. | .interrupt
  | .advance _ => inferInstanceAs (Decidable False)

/-- A waiting object that is not used stays as it is. -/
theorem objs_of_not_uses {s s' : State ι W} {i : ι} {cx : W}
    (hp : (s.objs i).pc = .idle) (hl : (s.objs i).last = .pending cx) {a : Act ι W}
    (ha : ¬ a.Uses i) (hs : step s a = some s') : s'.objs i = s.objs i := by
  cases a with
  | new j deadline =>
    simp only [step, Option.ite_none_right_eq_some, Option.some.injEq] at hs
    obtain ⟨hu, rfl⟩ := hs
    have hj : i ≠ j := by rintro rfl; rw [hl] at hu; cases hu
    simp [State.set, hj]
  | poll j cx => exact objs_of_ne ha (Or.inl ⟨cx, hs⟩)
  | reset j when => exact objs_of_ne ha (Or.inr (Or.inl ⟨when, hs⟩))
  | drop j => exact objs_of_ne ha (Or.inr (Or.inr (Or.inl hs)))
  | next j =>
    refine objs_of_ne ?_ (Or.inr (Or.inr (Or.inr hs)))
    rintro rfl
    simp only [step, State.next, hp] at hs
    split at hs <;> cases hs
  | op | react | reactNext | leaveEvents | epollReturn | interrupt =>
    obtain ⟨r, -, rfl⟩ := Option.map_eq_some_iff.1 hs
    rfl
  | advance d => cases hs; rfl

/-- The timer `k` has fired since `mark`, or the call of `react` is on its way to it. -/
def Firing (r : Timers.State ι W) (k : TimerKey) (mark : ℕ) : Prop :=
  k ∈ r.fired.drop mark ∨ Timers.Overdue r k r.reacting

omit [DecidableEq ι] [DecidableEq W] in
/-- No other object carries an operation on the timer of a waiting object. -/
theorem Inv.carrying_ne {s : State ι W} (h : Inv s) {i : ι} {t : Timer W}
    (ht : (s.objs i).timer = some t) (hp : (s.objs i).pc = .idle) (hw : t.waker ≠ none)
    {j : ι} {op : TimerOp W} (hj : (s.reactor.calling j).stage = .carrying op) :
    op.key ≠ toLex (t.deadline, t.key) := by
  obtain ⟨-, -, hkey, hst, -⟩ := h.rest ht hp
  by_cases hji : j = i
  · subst hji
    rw [hst] at hj
    cases hj
  · intro hk
    have hobj := h.objs j
    rw [hj] at hobj
    refine h.disjoint i j (Ne.symm hji) _ (hkey hw) ?_
    have hmem := hobj.key_mem
    rw [hk] at hmem
    exact hmem

theorem Inv.firing {s s' : State ι W} (h : Inv s) {i : ι} {t : Timer W} {cx : W}
    (ht : (s.objs i).timer = some t) (hp : (s.objs i).pc = .idle)
    (hl : (s.objs i).last = .pending cx) {a : Act ι W} (hs : Timer.step s a = some s')
    (hf : Firing s.reactor (toLex (t.deadline, t.key)) (s.objs i).mark) :
    Firing s'.reactor (toLex (t.deadline, t.key)) (s.objs i).mark := by
  rcases step_move hs with ⟨-, he⟩ | ⟨b, -, hb⟩
  · rw [he]
    exact hf
  · have hmark := (h.objs i).1
    -- what has fired before the step, or fires in it, has fired since `mark`
    have hfired : ∀ new, s'.reactor.fired = s.reactor.fired ++ new →
        toLex (t.deadline, t.key) ∈ s.reactor.fired.drop (s.objs i).mark ∨
          toLex (t.deadline, t.key) ∈ new →
        Firing s'.reactor (toLex (t.deadline, t.key)) (s.objs i).mark := by
      intro new hnew hk
      refine Or.inl ?_
      rw [hnew, List.drop_append_of_le_length hmark]
      exact List.mem_append.2 hk
    obtain ⟨he, hset⟩ := h.pending ht hp hl
    have hw : t.waker ≠ none := by
      intro hw
      rw [entry, hw] at he
      cases he
    obtain ⟨new, hnew⟩ := Timers.step_fired hb
    rcases hset with hset | hk
    · rcases hf with hk | hover
      · exact hfired new hnew (Or.inl hk)
      · rcases hover.step hset hb fun j op _ hj => h.carrying_ne ht hp hw hj with
          hover | ⟨new, hnew, hk⟩
        · exact Or.inr hover
        · exact hfired new hnew (Or.inr hk)
    · exact hfired new hnew (Or.inl hk)

/-- **A call of `react` that begins after the deadline wakes the task.** When a task waits
    on a `Timer` that is due, and `react` is called, then the waker has been woken when
    `react` is at rest again, whatever the others do meanwhile, if the `Timer` itself is left
    alone and the calls of `interest` succeed. -/
theorem overdue_woken {start : ℕ} {p q r : State ι W × Log W}
    (h : (recorded start).Reach (fun _ a => a.Succeeds) p) {i : ι} {t : Timer W} {cx : W}
    (ht : (p.1.objs i).timer = some t) (hp : (p.1.objs i).pc = .idle)
    (hl : (p.1.objs i).last = .pending cx) (hd : t.deadline < p.1.reactor.clock)
    {timeout : Option ℕ} (hs : (recorded start).step p (.react timeout) = some q)
    (hr : (recorded start).Runs (fun _ a => a.Succeeds ∧ ¬ a.Uses i) q r)
    (hidle : r.1.reactor.reacting = .idle) : cx ∈ r.2.woken.drop (p.1.objs i).mark := by
  have hbegin : q.1.objs i = p.1.objs i ∧
      Firing q.1.reactor (toLex (t.deadline, t.key)) (p.1.objs i).mark := by
    obtain ⟨hstep, -⟩ := Lts.monitor_step hs
    refine ⟨objs_of_not_uses (a := .react timeout) hp hl id hstep, Or.inr ?_⟩
    obtain ⟨reactor, hreact, hq⟩ := Option.map_eq_some_iff.1 hstep
    rw [← hq]
    unfold Timers.State.react at hreact
    split at hreact <;> cases hreact
    exact hd
  have hq : (recorded start).Reach (fun _ a => a.Succeeds) q :=
    .step h (show Act.Succeeds (.react timeout) from trivial) hs
  have hrun : (recorded start).Reach (fun _ a => a.Succeeds) r ∧ r.1.objs i = p.1.objs i ∧
      Firing r.1.reactor (toLex (t.deadline, t.key)) (p.1.objs i).mark := by
    clear hidle
    induction hr with
    | refl => exact ⟨hq, hbegin⟩
    | tail _ hstep ih =>
      obtain ⟨a, ha, hs⟩ := hstep
      obtain ⟨hreach, hobj, hfiring⟩ := ih
      obtain ⟨hmove, -⟩ := Lts.monitor_step hs
      rw [← hobj] at ht hp hl hfiring ⊢
      have hinv := inv_reach (objs_reach hreach)
      exact ⟨.step hreach ha.1 hs, objs_of_not_uses hp hl ha.2 hmove,
        hinv.firing ht hp hl hmove hfiring⟩
  obtain ⟨hreach, hobj, hfiring⟩ := hrun
  have hinv := inv_reach (objs_reach hreach)
  have hlog := logged_reach hreach
  rw [← hobj] at ht hp hl hfiring ⊢
  have hk := hlog.objs i _ (.stored ht (hinv.pending ht hp hl).1)
  rcases hfiring with hfired | hover
  · rcases hlog.woken hk hfired with hwoken | hwakers
    · exact hwoken
    · rw [hlog.reactor.idle hidle] at hwakers
      cases hwakers
  · rw [hidle] at hover
    exact hover.elim

end Firing

/-- `react` runs behind the deadline of object `0`, and meanwhile object `1` is polled. -/
def reactLate : List (Act (Fin 2) ℕ) :=
  [Act.new 1 9, .poll 1 8, .next 1] ++ List.replicate 3 Act.reactNext ++ [Act.op 1, .op 1, .op 1] ++
    List.replicate 6 Act.reactNext ++ [Act.epollReturn true true] ++ List.replicate 6 Act.reactNext

/-- The waker `7` is woken by a call of `react` that begins at `6`. -/
theorem overdue_woken_late : ∃ p q r : State (Fin 2) ℕ × Log ℕ,
    (recorded 0).Reach (fun _ a => a.Succeeds) p ∧ p.2.woken = [] ∧
      (recorded 0).step p (.react none) = some q ∧ (recorded 0).run q reactLate = some r ∧
      7 ∈ r.2.woken.drop (p.1.objs 0).mark := by
  obtain ⟨p, hs, ht, hp, hl, hclock, hwoken, hr⟩ :
      ∃ p : State (Fin 2) ℕ × Log ℕ,
        (recorded 0).run (⟨.new 0, fun _ => ⟨none, .idle, .unborn, 0, []⟩⟩, ⟨[], []⟩)
          (pollOnce ++ [.advance 6]) = some p ∧
        (p.1.objs 0).timer = some ⟨5, 1, some 7⟩ ∧ (p.1.objs 0).pc = .idle ∧
        (p.1.objs 0).last = .pending 7 ∧ p.1.reactor.clock = 6 ∧ p.2.woken = [] ∧
        ((recorded 0).step p (.react none)).any (fun q =>
          decide ((recorded 0).Meets (fun _ a => a.Succeeds ∧ ¬ a.Uses 0) q reactLate) &&
          ((recorded 0).run q reactLate).any fun r => decide (r.1.reactor.reacting = .idle)) :=
    Lts.exists_run (by decide +kernel)
  have hinit : (recorded 0).init ((⟨.new 0, fun _ => ⟨none, .idle, .unborn, 0, []⟩⟩, ⟨[], []⟩) :
      State (Fin 2) ℕ × Log ℕ) := ⟨rfl, rfl⟩
  have hm : (recorded 0).Meets (fun _ a => a.Succeeds)
      ((⟨.new 0, fun _ => ⟨none, .idle, .unborn, 0, []⟩⟩, ⟨[], []⟩) : State (Fin 2) ℕ × Log ℕ)
      (pollOnce ++ [.advance 6]) := by decide +kernel
  have hreach := Lts.Reach.run (.init hinit) hm hs
  obtain ⟨q, hq, hr⟩ := (Option.any_eq_true _ _).1 hr
  obtain ⟨hm, hr⟩ := Bool.and_eq_true_iff.1 hr
  obtain ⟨r, hrun, hidle⟩ := (Option.any_eq_true _ _).1 hr
  exact ⟨p, q, r, hreach, hwoken, hq, hrun, overdue_woken hreach ht hp hl (by rw [hclock]; decide)
    hq (.of_run (of_decide_eq_true hm) hrun) (of_decide_eq_true hidle)⟩

end Timer
end Awak
