/-
  `process_timers` of `io/reactor.rs` as one call, without other threads.

  `Timers` interleaves the calls step by step; here each call runs to its end.
  Its effect is stated on the agenda, the function from keys to wakers that the
  map denotes after the queued operations.

  * `TimerStore.agenda`: the meaning of `timers` and `timer_ops` together;
  * `Processed`: what `process_timers` does at `now`, in terms of the agenda;
  * `History.replay`: the agenda is the replay of the calls made so far;
  * `process_timers_exact`: each call of `process_timers` does what `Processed`
    says, and in every sequence of calls a timer fires at most once, never
    before its deadline and never after its removal;
  * `Timers.alone_processTimers`, `Timers.alone_pushTimerOp`: the calls of
    `Timers` that are not interrupted are the calls of this module.
-/
import Awak.Lib.History
import Awak.Timers

namespace Awak

open History

variable {ι W : Type}

/-- The fields `timer_ops` and `timers` of the reactor. -/
structure TimerStore (W : Type) where
  ops : Queue (TimerOp W)
  timers : TimerMap W

namespace TimerOp

/-- An operation as an event in the history of the timers. -/
def event : TimerOp W → Event TimerKey W ℕ
  | insert when id waker => .set (toLex (when, id)) waker
  | remove when id => .clear (toLex (when, id))

end TimerOp

namespace TimerStore

/-- The loop of `process_timer_ops`, with so many iterations left. -/
def drain : ℕ → TimerStore W → TimerStore W
  | 0, t => t
  | left + 1, t =>
    match t.ops.pop with
    | some (op, ops) => drain left ⟨ops, op.apply t.timers⟩
    | none => t

/-- `Reactor::process_timer_ops`. -/
def processTimerOps (t : TimerStore W) : TimerStore W := drain t.ops.capacity t

/-- `Reactor::process_timers`, with `now` for `Instant::now()`: the timers left,
    the vector `wakers` and the time to the next timer. -/
def processTimers (t : TimerStore W) (now : ℕ) (wakers : List W) :
    TimerStore W × List W × Option ℕ :=
  let t := t.processTimerOps
  (⟨t.ops, t.timers.pending now⟩, wakers ++ (t.timers.ready now).values, t.timers.next now)

/-- Which timers are set, and with which waker: the map after all queued
    operations, the oldest one first. -/
def agenda (t : TimerStore W) : TimerKey → Option W :=
  (t.ops.queue.map TimerOp.event).foldl Event.apply fun k => t.timers[k]?

/-! ## Draining the queue -/

theorem getElem?_apply (op : TimerOp W) (m : TimerMap W) :
    (fun k => (op.apply m)[k]?) = op.event.apply fun k => m[k]? := by
  funext k
  cases op with
  | insert when id waker =>
    rw [TimerOp.getElem?_apply_insert, Event.apply, Function.update_apply]
    simp only [@eq_comm _ k, TimerOp.event, Event.key, Event.value]
  | remove when id =>
    rw [TimerOp.getElem?_apply_remove, Event.apply, Function.update_apply]
    simp only [@eq_comm _ k, TimerOp.event, Event.key, Event.value]

theorem getElem?_foldl_apply (ops : List (TimerOp W)) (m : TimerMap W) :
    (fun k => (ops.foldl TimerOp.apply m)[k]?) =
      (ops.map TimerOp.event).foldl Event.apply fun k => m[k]? := by
  induction ops generalizing m with
  | nil => rfl
  | cons op ops ih => rw [List.foldl_cons, ih, getElem?_apply]; rfl

theorem capacity_drain (left : ℕ) (t : TimerStore W) :
    (t.drain left).ops.capacity = t.ops.capacity := by
  induction left generalizing t with
  | zero => rfl
  | succ left ih =>
    unfold drain
    split
    next op ops hp => rw [ih]; exact (Queue.pop_some hp).2
    next => rfl

/-- Draining applies the oldest operations of the queue, and the rest stays. -/
theorem drain_spec (left : ℕ) (t : TimerStore W) :
    (t.drain left).ops.queue = t.ops.queue.drop left ∧
      (t.drain left).timers = (t.ops.queue.take left).foldl TimerOp.apply t.timers := by
  induction left generalizing t with
  | zero => simp [drain]
  | succ left ih =>
    unfold drain
    split
    next op ops hp =>
      obtain ⟨h₁, h₂⟩ := ih ⟨ops, op.apply t.timers⟩
      rw [h₁, h₂, (Queue.pop_some hp).1]
      exact ⟨rfl, rfl⟩
    next hp => simp [Queue.pop_none hp]

theorem capacity_processTimerOps (t : TimerStore W) :
    t.processTimerOps.ops.capacity = t.ops.capacity := capacity_drain _ t

/-- The queue holds at most `capacity` operations, so that the loop empties it. -/
theorem queue_processTimerOps (t : TimerStore W) : t.processTimerOps.ops.queue = [] := by
  rw [processTimerOps, (drain_spec _ t).1]
  exact List.drop_eq_nil_of_le t.ops.queue_length_le

theorem timers_processTimerOps (t : TimerStore W) :
    t.processTimerOps.timers = t.ops.queue.foldl TimerOp.apply t.timers := by
  rw [processTimerOps, (drain_spec _ t).2, List.take_of_length_le t.ops.queue_length_le]

theorem agenda_of_queue_nil {t : TimerStore W} (h : t.ops.queue = []) :
    t.agenda = fun k => t.timers[k]? := by
  rw [agenda, h]; rfl

theorem getElem?_processTimerOps (t : TimerStore W) (k : TimerKey) :
    t.processTimerOps.timers[k]? = t.agenda k := by
  rw [timers_processTimerOps]
  exact congrFun (getElem?_foldl_apply _ _) k

/-- Draining does not change which timers are set. -/
theorem agenda_drain (left : ℕ) (t : TimerStore W) : (t.drain left).agenda = t.agenda := by
  rw [agenda, agenda, (drain_spec left t).1, (drain_spec left t).2, getElem?_foldl_apply,
    ← List.foldl_append, ← List.map_append, List.take_append_drop]

theorem agenda_processTimerOps (t : TimerStore W) : t.processTimerOps.agenda = t.agenda :=
  agenda_drain _ t

/-! ## What `process_timers` does -/

/-- The timers of an agenda that are due at `now`, in ascending order. -/
structure Due (M : TimerKey → Option W) (now : ℕ) (due : List (TimerKey × W)) : Prop where
  ascending : due.Pairwise fun x y => x.1 < y.1
  mem : ∀ k w, (k, w) ∈ due ↔ M k = some w ∧ (ofLex k).1 < now

/-- Some timer of the agenda is due at `now`. -/
def Fires (M : TimerKey → Option W) (now : ℕ) : Prop := ∃ k, M k ≠ none ∧ (ofLex k).1 < now

/-- The effect of `process_timers` at `now` on an agenda `M`. -/
structure Processed (M : TimerKey → Option W) (now : ℕ) (wakers : List W)
    (out : TimerStore W × List W × Option ℕ) : Prop where
  /-- the wakers of the timers that are due come after those already there -/
  wakers : ∃ due, Due M now due ∧ out.2.1 = wakers ++ due.map Prod.snd
  /-- the other timers stay -/
  timers : ∀ k, out.1.timers[k]? = if (ofLex k).1 < now then none else M k
  ops : out.1.ops.queue = []
  zero : Fires M now → out.2.2 = some 0
  /-- the time to the earliest timer left -/
  next : ¬ Fires M now → ∀ k ∈ out.1.timers,
    (∀ k' ∈ out.1.timers, (ofLex k).1 ≤ (ofLex k').1) → out.2.2 = some ((ofLex k).1 - now)
  none : ¬ Fires M now → (out.2.2 = none ↔ ∀ k, k ∉ out.1.timers)

/-- The values of a map are listed in the order of its keys. -/
theorem values_eq (m : TimerMap W) : m.values = m.toList.map Prod.snd := by
  have hfold : m.values = m.foldr (fun _ w l => w :: l) [] := rfl
  rw [hfold, Std.TreeMap.foldr_eq_foldr_toList]
  induction m.toList with
  | nil => rfl
  | cons x l ih => rw [List.foldr_cons, ih]; rfl

theorem due_ready (m : TimerMap W) (now : ℕ) : Due (fun k => m[k]?) now (m.ready now).toList := by
  refine ⟨?_, fun k w => ?_⟩
  · refine List.Pairwise.imp ?_ (m.ready now).ordered_keys_toList
    exact fun h => compare_lt_iff_lt.1 h
  · rw [Std.TreeMap.mem_toList_iff_getElem?_eq_some, TimerMap.getElem?_ready]
    split_ifs with h <;> simp [h]

theorem isEmpty_ready (m : TimerMap W) (now : ℕ) :
    (m.ready now).isEmpty ↔ ¬ Fires (fun k => m[k]?) now := by
  rw [Std.TreeMap.isEmpty_iff_forall_not_mem, Fires, not_exists]
  refine forall_congr' fun k => not_congr ?_
  rw [TimerMap.mem_iff_getElem?, TimerMap.getElem?_ready]
  by_cases h : (ofLex k).1 < now <;> simp [h]

theorem next_of_fires {m : TimerMap W} {now : ℕ} (h : Fires (fun k => m[k]?) now) :
    m.next now = some 0 := by
  have hne := (isEmpty_ready m now).not.2 (not_not.2 h)
  rw [TimerMap.next, if_neg hne]

theorem next_of_not_fires {m : TimerMap W} {now : ℕ} (h : ¬ Fires (fun k => m[k]?) now) :
    m.next now = (m.pending now).minKey?.map fun k => (ofLex k).1 - now := by
  rw [TimerMap.next, if_pos ((isEmpty_ready m now).2 h), Std.TreeMap.minKey?_eq_head?_keys]

/-- The first key has the earliest deadline. -/
theorem minKey?_eq_some {m : TimerMap W} {k : TimerKey} (hk : k ∈ m)
    (hle : ∀ k' ∈ m, (ofLex k).1 ≤ (ofLex k').1) :
    ∃ k₀, m.minKey? = some k₀ ∧ (ofLex k₀).1 = (ofLex k).1 := by
  cases hm : m.minKey? with
  | none =>
    rw [Std.TreeMap.minKey?_eq_none_iff, Std.TreeMap.isEmpty_iff_forall_not_mem] at hm
    exact absurd hk (hm k)
  | some k₀ =>
    obtain ⟨h₀, hmin⟩ := Std.TreeMap.minKey?_eq_some_iff_mem_and_forall.1 hm
    have hlek : k₀ ≤ k := compare_le_iff_le.1 (Ordering.isLE_iff_ne_gt.1 (hmin k hk))
    refine ⟨k₀, rfl, le_antisymm ?_ (hle k₀ h₀)⟩
    rcases Prod.Lex.le_iff.1 hlek with hlt | heq
    · exact hlt.le
    · exact heq.1.le

/-- **One call**: what `process_timers` returns and leaves behind, for any map
    and any queue. -/
theorem processed_processTimers (t : TimerStore W) (now : ℕ) (wakers : List W) :
    Processed t.agenda now wakers (t.processTimers now wakers) := by
  have hM : t.agenda = fun k => t.processTimerOps.timers[k]? :=
    funext fun k => (t.getElem?_processTimerOps k).symm
  rw [hM]
  have hnext (hf : ¬ Fires (fun k => t.processTimerOps.timers[k]?) now) :
      (t.processTimers now wakers).2.2 =
        (t.processTimers now wakers).1.timers.minKey?.map fun k => (ofLex k).1 - now :=
    next_of_not_fires hf
  refine ⟨⟨_, due_ready _ now, ?_⟩, TimerMap.getElem?_pending _ now, t.queue_processTimerOps,
    next_of_fires, fun hf k hk hle => ?_, fun hf => ?_⟩
  · rw [← values_eq]; rfl
  · obtain ⟨k₀, hmin, heq⟩ := minKey?_eq_some hk hle
    rw [hnext hf, hmin, Option.map_some, heq]
  · rw [hnext hf, Option.map_eq_none_iff, Std.TreeMap.minKey?_eq_none_iff,
      Std.TreeMap.isEmpty_iff_forall_not_mem]

theorem capacity_processTimers (t : TimerStore W) (now : ℕ) (wakers : List W) :
    (t.processTimers now wakers).1.ops.capacity = t.ops.capacity := t.capacity_processTimerOps

/-! ## `insert_timer` and `remove_timer` -/

/-- The loop of `insert_timer` and `remove_timer`: while the queue is full, its
    operations are applied to the map. -/
def pushTimerOp (t : TimerStore W) (op : TimerOp W) (hroom : 0 < t.ops.capacity) : TimerStore W :=
  match hp : t.ops.push op with
  | some ops => { t with ops := ops }
  | none => pushTimerOp t.processTimerOps op (by rwa [capacity_processTimerOps])
  termination_by t.ops.queue.length
  decreasing_by
    rw [queue_processTimerOps, Queue.push_none hp]
    exact hroom

theorem pushTimerOp_spec (t : TimerStore W) (op : TimerOp W) (hroom : 0 < t.ops.capacity) :
    (t.pushTimerOp op hroom).agenda = op.event.apply t.agenda ∧
      (t.pushTimerOp op hroom).ops.capacity = t.ops.capacity := by
  fun_induction pushTimerOp t op hroom with
  | case1 t hroom ops hp =>
    obtain ⟨hq, hc⟩ := Queue.push_some hp
    refine ⟨?_, hc⟩
    simp only [agenda, hq, List.map_append, List.foldl_append, List.map_cons, List.map_nil,
      List.foldl_cons, List.foldl_nil]
  | case2 t hroom hp ih => rwa [agenda_processTimerOps, capacity_processTimerOps] at ih

/-- The timers of the reactor between two calls. -/
structure State (W : Type) where
  clock : ℕ
  idGen : ℕ
  store : TimerStore W
  room : 0 < store.ops.capacity
  /-- what `process_timers` has appended to `wakers` so far -/
  wakers : List W
  /-- the calls of `insert_timer` and `remove_timer` and the timers fired, for
      the specification -/
  history : List (Event TimerKey W ℕ)

/-- The calls. -/
inductive Call (W : Type) where
  | insertTimer (when : ℕ) (waker : W)
  | removeTimer (when id : ℕ)
  /-- `process_timers`, at a reading of the clock `d` after the last one -/
  | processTimers (d : ℕ)

namespace State

/-- `Reactor::new` at time `now`. -/
def new (now : ℕ) : State W where
  clock := now
  idGen := 1
  store := ⟨.bound Timers.timeOpSize, ∅⟩
  room := Nat.succ_pos 999
  wakers := []
  history := []

/-- Queue an operation and record it. -/
def push (s : State W) (op : TimerOp W) : State W := { s with
  store := s.store.pushTimerOp op s.room
  room := by rw [(pushTimerOp_spec _ _ _).2]; exact s.room
  history := s.history ++ [op.event] }

/-- `Reactor::insert_timer`, its notification of the poller apart. -/
def insertTimer (s : State W) (when : ℕ) (waker : W) : State W :=
  { s with idGen := s.idGen + 1 }.push (.insert when s.idGen waker)

/-- `Reactor::remove_timer`. -/
def removeTimer (s : State W) (when id : ℕ) : State W := s.push (.remove when id)

/-- The timers that `process_timers` fires at `now`. -/
def fired (s : State W) (now : ℕ) : List (TimerKey × W) :=
  (s.store.processTimerOps.timers.ready now).toList

/-- `Reactor::process_timers` at `now`. -/
def processTimers (s : State W) (now : ℕ) : State W := { s with
  clock := now
  store := (s.store.processTimers now s.wakers).1
  room := by rw [capacity_processTimers]; exact s.room
  wakers := (s.store.processTimers now s.wakers).2.1
  history := s.history ++ (s.fired now).map fun x => .take x.1 x.2 now }

end State

/-- One call. -/
def step (s : State W) : Call W → Option (State W)
  | .insertTimer when waker => some (s.insertTimer when waker)
  | .removeTimer when id => some (s.removeTimer when id)
  | .processTimers d => some (s.processTimers (s.clock + d))

/-- Any sequence of calls. -/
def system (now : ℕ) : Lts (State W) (Call W) where
  init s := s = .new now
  step := step

/-! ## Sequences of calls -/

/-- The agenda is the replay of the history, and the ids drawn so far are not
    drawn again. -/
structure Inv (s : State W) : Prop where
  agenda : s.store.agenda = replay s.history
  proper : Proper s.history
  ids : ∀ x ∈ entries s.history, (ofLex x.1).2 < s.idGen
  inserted : ((entries s.history).map Prod.fst).Nodup
  deadline : ∀ k w now, .take k w now ∈ s.history → (ofLex k).1 < now
  wakers : s.wakers = (taken s.history).map Prod.snd

variable {s s' : State W}

theorem inv_new (now : ℕ) : Inv (State.new now : State W) := by
  refine ⟨?_, proper_nil, by simp [State.new, entries], by simp [State.new, entries],
    by simp [State.new], rfl⟩
  funext k
  exact Std.TreeMap.getElem?_emptyc

theorem taken_event (op : TimerOp W) : op.event.taken = none := by
  cases op <;> rfl

/-- Queueing an operation: an insertion has a key that was not used before. -/
theorem Inv.push (h : Inv s) {op : TimerOp W} {n : ℕ} (hn : s.idGen ≤ n)
    (hop : ∀ x, op.event.entry = some x → s.idGen ≤ (ofLex x.1).2 ∧ (ofLex x.1).2 < n) :
    Inv ({ s with idGen := n }.push op) := by
  have hentries : entries (s.history ++ [op.event]) = entries s.history ++ op.event.entry.toList := by
    rw [entries_append, entries, entries, List.filterMap_cons, List.filterMap_nil]
    cases op.event.entry <;> rfl
  have htaken : taken (s.history ++ [op.event]) = taken s.history := by
    rw [taken_append]
    simp [taken, taken_event]
  refine ⟨?_, ?_, ?_, ?_, ?_, ?_⟩
  · change (s.store.pushTimerOp op s.room).agenda = replay (s.history ++ [op.event])
    rw [(pushTimerOp_spec _ _ _).1, replay_concat, h.agenda]
  · refine h.proper.concat fun k a ht => ?_
    rw [taken_event] at ht; cases ht
  · intro x hx
    change x ∈ entries (s.history ++ [op.event]) at hx
    rw [hentries, List.mem_append, Option.mem_toList] at hx
    rcases hx with hx | hx
    · exact (h.ids x hx).trans_le hn
    · exact (hop x hx).2
  · change ((entries (s.history ++ [op.event])).map Prod.fst).Nodup
    rw [hentries, List.map_append]
    refine List.nodup_append.2 ⟨h.inserted, ?_, ?_⟩
    · cases op.event.entry <;> simp
    · rintro k hk _ he rfl
      obtain ⟨x, hx, rfl⟩ := List.mem_map.1 hk
      obtain ⟨y, hy, hxy⟩ := List.mem_map.1 he
      have hold := h.ids x hx
      have hnew := (hop y (Option.mem_toList.1 hy)).1
      rw [hxy] at hnew
      omega
  · intro k w now ht
    rcases List.mem_append.1 ht with ht | ht
    · exact h.deadline k w now ht
    · have he := taken_event op
      rw [← List.mem_singleton.1 ht] at he; cases he
  · change s.wakers = (taken (s.history ++ [op.event])).map Prod.snd
    rw [htaken]; exact h.wakers

theorem due_fired (s : State W) (now : ℕ) : Due s.store.agenda now (s.fired now) := by
  have hM : s.store.agenda = fun k => s.store.processTimerOps.timers[k]? :=
    funext fun k => (s.store.getElem?_processTimerOps k).symm
  rw [hM]
  exact due_ready _ now

/-- Without the timers due there are those with a later deadline. -/
theorem Due.remaining {M : TimerKey → Option W} {now : ℕ} {due : List (TimerKey × W)}
    (h : Due M now due) (k : TimerKey) :
    (if (ofLex k).1 < now then none else M k) = if k ∈ due.map Prod.fst then none else M k := by
  by_cases hk : k ∈ due.map Prod.fst
  · obtain ⟨⟨k, w⟩, hx, rfl⟩ := List.mem_map.1 hk
    rw [if_pos hk, if_pos ((h.mem k w).1 hx).2]
  · rw [if_neg hk]
    split_ifs with hlt
    · cases hM : M k with
      | none => rfl
      | some w => exact absurd (List.mem_map_of_mem ((h.mem k w).2 ⟨hM, hlt⟩)) hk
    · rfl

theorem Inv.processTimers (h : Inv s) (now : ℕ) : Inv (s.processTimers now) := by
  have hdue := due_fired s now
  rw [h.agenda] at hdue
  have hp := s.store.processed_processTimers now s.wakers
  refine ⟨?_, ?_, ?_, ?_, ?_, ?_⟩
  · change (s.store.processTimers now s.wakers).1.agenda = replay (s.history ++ _)
    rw [agenda_of_queue_nil hp.ops]
    funext k
    rw [hp.timers, replay_append_take, h.agenda]
    convert hdue.remaining k
  · refine h.proper.append_take ?_ (fun x hx => ((hdue.mem x.1 x.2).1 hx).1) now
    exact List.pairwise_map.2 (hdue.ascending.imp fun hlt => ne_of_lt hlt)
  · intro x hx
    change x ∈ entries (s.history ++ _) at hx
    rw [entries_append, entries_map_take, List.append_nil] at hx
    exact h.ids x hx
  · change ((entries (s.history ++ _)).map Prod.fst).Nodup
    rw [entries_append, entries_map_take, List.append_nil]
    exact h.inserted
  · intro k w t ht
    rcases List.mem_append.1 ht with ht | ht
    · exact h.deadline k w t ht
    · obtain ⟨x, hx, hx'⟩ := List.mem_map.1 ht
      cases hx'
      exact ((hdue.mem x.1 x.2).1 hx).2
  · change s.wakers ++ _ = (taken (s.history ++ _)).map Prod.snd
    rw [taken_append, taken_map_take, List.map_append, ← h.wakers, State.fired, ← values_eq]

theorem Inv.step (h : Inv s) {c : Call W} (hs : TimerStore.step s c = some s') : Inv s' := by
  cases c with
  | insertTimer when waker =>
    cases hs
    refine h.push (Nat.le_succ _) fun x hx => ?_
    cases hx
    exact ⟨le_rfl, Nat.lt_succ_self _⟩
  | removeTimer when id =>
    cases hs
    refine h.push le_rfl fun x hx => ?_
    cases hx
  | processTimers d => cases hs; exact h.processTimers _

theorem inv_reach {start : ℕ} (h : (system start).Reachable s) : Inv s :=
  h.inv (fun _ hs => hs ▸ inv_new start) fun _ _ _ _ hi _ hs => hi.step hs

/-- What a sequence of calls does with each timer. -/
structure Timely (s : State W) : Prop where
  /-- the wakers are those of the timers fired, in that order -/
  wakers : s.wakers = (taken s.history).map Prod.snd
  /-- no id is given out twice -/
  inserted : ((entries s.history).map Prod.fst).Nodup
  own : ∀ pre k w now post, s.history = pre ++ .take k w now :: post → .set k w ∈ pre
  once : ((taken s.history).map Prod.fst).Nodup
  deadline : ∀ k w now, .take k w now ∈ s.history → (ofLex k).1 < now
  /-- a timer fired after a removal of its key was inserted after it -/
  removed : ∀ pre k post, s.history = pre ++ .clear k :: post → ∀ w now,
    .take k w now ∈ post → .set k w ∈ post ∧ ∀ w', .set k w' ∉ pre

theorem Inv.timely (h : Inv s) : Timely s := by
  refine ⟨h.wakers, h.inserted, fun _ _ _ _ _ heq => h.proper.set_before heq,
    h.proper.nodup_taken h.inserted, h.deadline, fun pre k post heq w now ht => ?_⟩
  obtain ⟨mid, rest, rfl⟩ := List.append_of_mem ht
  have hset := h.proper.set_between heq rfl (by simp)
  refine ⟨List.mem_append_left _ hset, fun w' hw' => ?_⟩
  -- a second insertion would have the same id
  have hs := h.inserted
  rw [heq, entries_append, List.map_append] at hs
  have hpost : (k, w) ∈ entries (.clear k :: (mid ++ .take k w now :: rest)) :=
    mem_entries.2 (List.mem_cons_of_mem _ (List.mem_append_left _ hset))
  exact (List.nodup_append.1 hs).2.2 k (List.mem_map_of_mem (mem_entries.2 hw')) k
    (List.mem_map_of_mem hpost) rfl

/-- **`process_timers` equals its specification**: each call fires the timers
    with an earlier deadline in ascending order, leaves the others and returns
    the time to the next one; and in every sequence of calls at non-decreasing
    times each timer fires at most once, never before its deadline and never
    after it was removed. -/
theorem process_timers_exact :
    (∀ (t : TimerStore W) (now : ℕ) (wakers : List W),
      Processed t.agenda now wakers (t.processTimers now wakers)) ∧
    ∀ {start : ℕ} {s : State W}, (system start).Reachable s → Timely s :=
  ⟨processed_processTimers, fun h => (inv_reach h).timely⟩

/-- Timers with the same deadline, one of them removed, processed at the deadline
    and after it. -/
def sameDeadline : List (Call ℕ) :=
  [.insertTimer 5 10, .insertTimer 3 11, .insertTimer 5 12, .insertTimer 5 13, .removeTimer 5 3,
    .processTimers 5, .processTimers 0, .processTimers 1]

theorem process_timers_exact_same : ∃ s : State ℕ,
    (system 0).run (.new 0) sameDeadline = some s ∧ s.wakers = [11, 10, 13] ∧
      taken s.history = [(toLex (3, 2), 11), (toLex (5, 1), 10), (toLex (5, 4), 13)] ∧
      Timely s := by
  obtain ⟨s, hs, hw, ht⟩ : ∃ s : State ℕ, (system 0).run (.new 0) sameDeadline = some s ∧
      s.wakers = [11, 10, 13] ∧
      taken s.history = [(toLex (3, 2), 11), (toLex (5, 1), 10), (toLex (5, 4), 13)] :=
    Lts.exists_run (by decide +kernel)
  exact ⟨s, hs, hw, ht,
    process_timers_exact.2 (.run (.init rfl) (Lts.meets_true _ sameDeadline) hs)⟩

end TimerStore

/-! ## The calls of `Timers` that are not interrupted -/

namespace Timers

open Relation

variable [DecidableEq ι]

/-- Steps of `Timers` with the same label: one thread runs alone. -/
def Alone (a : Act ι W) : State ι W → State ι W → Prop :=
  ReflTransGen fun s s' => step s a = some s'

/-- The queue and the map of the reactor's model. -/
def State.store (s : State ι W) : TimerStore W := ⟨s.ops, s.timers⟩

omit [DecidableEq ι] in
theorem agenda_store (s : State ι W) : s.store.agenda = fun k => s.abstract[k]? :=
  (TimerStore.getElem?_foldl_apply _ _).symm

/-- They become those of `t`. -/
def State.setStore (s : State ι W) (t : TimerStore W) : State ι W :=
  { s with ops := t.ops, timers := t.timers }

/-- The loop of `process_timer_ops` in `react`. -/
theorem alone_drain (c : Call) (left : ℕ) {s : State ι W} (hr : s.reacting = .drain c left) :
    Alone .next s { s.setStore (s.store.drain left) with reacting := .now c } := by
  induction left generalizing s with
  | zero =>
    refine .single ?_
    simp only [step, State.reactStep, hr]
    rfl
  | succ left ih =>
    unfold TimerStore.drain
    cases hp : s.ops.pop with
    | none =>
      refine .single ?_
      simp only [step, State.reactStep, hr, State.processTimerOp, hp]
      simp only [State.store, hp]
      rfl
    | some x =>
      obtain ⟨op, ops⟩ := x
      refine .head (b := { s with
        ops := ops, timers := op.apply s.timers, reacting := .drain c left }) ?_ ?_
      · simp only [step, State.reactStep, hr, State.processTimerOp, hp]
      · simp only [State.store, hp]
        exact ih rfl

/-- A `process_timers` of `react` that is not interrupted. -/
theorem alone_processTimers {s : State ι W} {c : Call} (hl : s.lock = none)
    (hr : s.reacting = .lock c) : ∃ s', Alone .next s s' ∧
      (s'.store, s'.wakers, s'.reacting) =
        ((s.store.processTimers s.clock s.wakers).1, (s.store.processTimers s.clock s.wakers).2.1,
          .unlock c s.clock (s.store.processTimers s.clock s.wakers).2.2) := by
  refine ⟨_, .head (b := { s with lock := some .reactor, reacting := .drain c s.ops.capacity }) ?_
    (((alone_drain c _ rfl).tail rfl).tail rfl), rfl⟩
  simp only [step, State.reactStep, hr, if_pos hl]

/-- The loop of `process_timer_ops` in `insert_timer` and `remove_timer`. -/
theorem alone_drain_op (i : ι) (op : TimerOp W) (left : ℕ) {s : State ι W}
    (hi : s.calling i = .drain op left) :
    Alone (.op i) s ((s.setStore (s.store.drain left)).setCalling i (.unlock op)) := by
  induction left generalizing s with
  | zero =>
    refine .single ?_
    simp only [step, State.opStep, hi]
    rfl
  | succ left ih =>
    unfold TimerStore.drain
    cases hp : s.ops.pop with
    | none =>
      refine .single ?_
      simp only [step, State.opStep, hi, State.processTimerOp, hp]
      simp only [State.store, hp]
      rfl
    | some x =>
      obtain ⟨op', ops⟩ := x
      refine .head (b := { s with ops := ops, timers := op'.apply s.timers }.setCalling i
        (.drain op left)) ?_ ?_
      · simp only [step, State.opStep, hi, State.processTimerOp, hp]
      · have := ih (s := { s with ops := ops, timers := op'.apply s.timers }.setCalling i
          (.drain op left)) (by simp [State.setCalling])
        simp only [State.store, hp]
        simpa [Alone, State.store, State.setCalling, State.setStore] using this

/-- A push of `insert_timer` or `remove_timer` that is not interrupted. -/
theorem alone_pushTimerOp (i : ι) (op : TimerOp W) {s : State ι W} (hl : s.lock = none)
    (hi : s.calling i = .push op) (hroom : 0 < s.store.ops.capacity) :
    Alone (.op i) s ((s.setStore (s.store.pushTimerOp op hroom)).setCalling i
      (State.pushed op)) := by
  generalize ht : s.store = t at hroom ⊢
  fun_induction TimerStore.pushTimerOp t op hroom generalizing s with
  | case1 t hroom ops hp =>
    subst ht
    refine .single ?_
    replace hp : s.ops.push op = some ops := hp
    simp only [step, State.opStep, hi, hp]
    rfl
  | case2 t hroom hp ih =>
    subst ht
    replace hp : s.ops.push op = none := hp
    -- take the lock, drain, release the lock and try again
    let s₁ := { s with lock := some (.thread i) }.setCalling i (.drain op s.ops.capacity)
    let s₂ := (s.setStore s.store.processTimerOps).setCalling i (.push op)
    have h₁ : step s (.op i) = some (s.setCalling i (.lock op)) := by
      simp only [step, State.opStep, hi, hp]
    have h₂ : step (s.setCalling i (.lock op)) (.op i) = some s₁ := by
      simp [step, State.opStep, State.setCalling, hl, s₁]
    have h₃ : Alone (.op i) s₁ ((s₁.setStore s.store.processTimerOps).setCalling i (.unlock op)) :=
      alone_drain_op i op s.ops.capacity (by simp [s₁, State.setCalling])
    have h₄ : step ((s₁.setStore s.store.processTimerOps).setCalling i (.unlock op)) (.op i) =
        some s₂ := by
      simp [step, State.opStep, State.setCalling, State.setStore, hl, s₁, s₂]
    have h₅ := ih (s := s₂) hl (by simp [s₂, State.setCalling]) rfl
    refine .head h₁ (.head h₂ (h₃.trans (.head h₄ ?_)))
    simpa [Alone, State.setCalling, State.setStore, s₂] using h₅

end Timers
end Awak
