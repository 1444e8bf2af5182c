/-
  `Timer` objects of `io/mod.rs` over the timers of the reactor.

  Each object `i` is used by one thread at a time (`&mut self`), so `i` is also
  the thread that runs its calls of `insert_timer` and `remove_timer`.  A call
  of `poll_timeout` starts with its reading of the clock, then runs its calls of
  the reactor step by step, interleaved with the calls of the other objects, with
  drains of `timer_ops` and with `react`.  Wakers are compared with `will_wake`,
  which is equality of wakers.

  * `Stage`: what a call of the reactor has done to the abstract map so far;
  * `ObjOk`: what the abstract map holds for an object at each of its places;
  * `registration_exact`: the abstract map holds the entry of a waiting `Timer`,
    and nothing else for it.
-/
import Awak.Timers

namespace Awak

variable {ι W : Type}

/-- The struct `Timer`. -/
structure Timer (W : Type) where
  deadline : ℕ
  key : ℕ
  waker : Option W
  deriving DecidableEq

namespace Timer

/-- `Timer::new`. -/
def new (deadline : ℕ) : Timer W := ⟨deadline, 0, none⟩

/-- The places of a `Timer`: at rest, or at a call of the reactor made by
    `poll_timeout`, `reset` or `drop`. -/
inductive Pc (W : Type) where
  | idle
  /-- `remove_timer` of a `poll_timeout` that returns `Ready` -/
  | pollReady
  | pollRemove (cx : W)
  | pollInsert (cx : W)
  | resetRemove (when : ℕ) (waker : W)
  | resetInsert (when : ℕ) (waker : W)
  | dropRemove
  deriving DecidableEq

/-- The last operation that has returned. -/
inductive Last (W : Type) where
  | unborn
  | new
  | pending (cx : W)
  | ready
  | reset
  | dropped
  deriving DecidableEq

/-- A `Timer` with its place and its history. -/
structure Obj (W : Type) where
  timer : Option (Timer W)
  pc : Pc W
  last : Last W
  /-- how many timers had fired when its last operation was called -/
  mark : ℕ
  /-- the ids issued to it -/
  issued : List ℕ

/-- The reactor, and the objects. -/
structure State (ι W : Type) where
  reactor : Timers.State ι W
  objs : ι → Obj W

/-- The moves of the objects, and of the reactor and the clock. -/
inductive Act (ι W : Type) where
  | new (i : ι) (deadline : ℕ)
  | poll (i : ι) (cx : W)
  | reset (i : ι) (when : ℕ)
  | drop (i : ι)
  /-- call the reactor, or go on after the call -/
  | next (i : ι)
  /-- a step inside the call of the reactor -/
  | op (i : ι)
  | react (timeout : Option ℕ)
  | reactNext
  /-- an error of `poller.interest` in the loop over the events -/
  | leaveEvents
  | epollReturn (report empty : Bool)
  | interrupt
  | advance (d : ℕ)

section Steps
variable [DecidableEq ι] [DecidableEq W]

namespace State

/-- The object `i` becomes `o`. -/
def set (s : State ι W) (i : ι) (o : Obj W) : State ι W :=
  { s with objs := Function.update s.objs i o }

/-- `Timer::poll_timeout`, up to its first call of the reactor. -/
def pollTimeout (s : State ι W) (i : ι) (cx : W) : Option (State ι W) :=
  let o := { s.objs i with mark := s.reactor.fired.length }
  match o.pc, o.timer with
  | .idle, some t =>
    if t.deadline ≤ s.reactor.clock then
      if 0 < t.key then some (s.set i { o with pc := .pollReady })
      else some (s.set i { o with last := .ready })
    else
      match t.waker with
      | none => some (s.set i { o with pc := .pollInsert cx })
      | some w =>
        -- `will_wake`
        if w ≠ cx then some (s.set i { o with pc := .pollRemove cx })
        else some (s.set i { o with last := .pending cx })
  | _, _ => none

/-- `Timer::reset`, up to its first call of the reactor. -/
def reset (s : State ι W) (i : ι) (when : ℕ) : Option (State ι W) :=
  let o := { s.objs i with mark := s.reactor.fired.length }
  match o.pc, o.timer with
  | .idle, some t =>
    match t.waker with
    | some w => some (s.set i { o with pc := .resetRemove when w })
    | none => some (s.set i { o with timer := some { t with deadline := when }, last := .reset })
  | _, _ => none

/-- `drop` of a `Timer`, up to its call of the reactor. -/
def drop (s : State ι W) (i : ι) : Option (State ι W) :=
  let o := { s.objs i with mark := s.reactor.fired.length }
  match o.pc, o.timer with
  | .idle, some t =>
    match t.waker with
    | some _ => some (s.set i { o with timer := some { t with waker := none }, pc := .dropRemove })
    | none => some (s.set i { o with timer := none, last := .dropped })
  | _, _ => none

/-- Call `remove_timer(self.deadline, self.key)`. -/
def callRemove (s : State ι W) (i : ι) (t : Timer W) : Option (State ι W) :=
  (s.reactor.removeTimer i t.deadline t.key).map fun r => { s with reactor := r }

/-- Call `insert_timer(when, waker)`. -/
def callInsert (s : State ι W) (i : ι) (when : ℕ) (waker : W) : Option (State ι W) :=
  (s.reactor.insertTimer i when waker).map fun r => { s with reactor := r }.set i
    { s.objs i with issued := s.reactor.idGen :: (s.objs i).issued }

/-- The call of the reactor has returned. -/
def back (s : State ι W) (i : ι) (o : Obj W) : Option (State ι W) :=
  (s.reactor.opRet i).map fun r => { s with reactor := r }.set i o

/-- The next step of object `i` outside the reactor. -/
def next (s : State ι W) (i : ι) : Option (State ι W) :=
  let o := s.objs i
  match o.timer with
  | none => none
  | some t =>
    match o.pc, s.reactor.calling i with
    | .pollReady, .idle => s.callRemove i t
    | .pollReady, .ret _ => s.back i { o with pc := .idle, last := .ready }
    | .pollRemove _, .idle => s.callRemove i t
    | .pollRemove cx, .ret _ => s.back i { o with pc := .pollInsert cx }
    | .pollInsert cx, .idle => s.callInsert i t.deadline cx
    | .pollInsert cx, .ret (some id) => s.back i { o with
        timer := some { t with key := id, waker := some cx }
        pc := .idle
        last := .pending cx }
    | .resetRemove _ _, .idle => s.callRemove i t
    | .resetRemove when w, .ret _ => s.back i { o with pc := .resetInsert when w }
    | .resetInsert when w, .idle => s.callInsert i when w
    | .resetInsert when _, .ret (some id) => s.back i { o with
        timer := some { t with key := id, deadline := when }
        pc := .idle
        last := .reset }
    | .dropRemove, .idle => s.callRemove i t
    | .dropRemove, .ret _ => s.back i { o with timer := none, pc := .idle, last := .dropped }
    | _, _ => none

end State

/-- A call on an object, its next operation, or a move of the reactor. -/
def step (s : State ι W) : Act ι W → Option (State ι W)
  | .new i deadline =>
    if (s.objs i).last = .unborn then
      some (s.set i { s.objs i with timer := some (.new deadline), last := .new })
    else none
  | .poll i cx => s.pollTimeout i cx
  | .reset i when => s.reset i when
  | .drop i => s.drop i
  | .next i => s.next i
  | .op i => (s.reactor.opStep i).map fun r => { s with reactor := r }
  | .react timeout => (s.reactor.react timeout).map fun r => { s with reactor := r }
  | .reactNext => s.reactor.reactStep.map fun r => { s with reactor := r }
  | .leaveEvents => s.reactor.leaveEvents.map fun r => { s with reactor := r }
  | .epollReturn report empty =>
    (Timers.step s.reactor (.epollReturn report empty)).map fun r => { s with reactor := r }
  | .interrupt => (Timers.step s.reactor .interrupt).map fun r => { s with reactor := r }
  | .advance d => (Timers.step s.reactor (.advance d)).map fun r => { s with reactor := r }

/-- Any number of `Timer` objects, with the reactor. -/
def system (now : ℕ) : Lts (State ι W) (Act ι W) where
  init s := s = ⟨.new now, fun _ => ⟨none, .idle, .unborn, 0, []⟩⟩
  step := step

end Steps

end Timer

/-! ## The abstract map under the steps of the reactor -/

namespace Timers

/-- What a call of the reactor has done so far: it carries its operation, or has
    queued it and will return the id. -/
inductive Stage (W : Type) where
  | idle
  | carrying (op : TimerOp W)
  | queued (id : Option ℕ)

/-- Where the operation of a call is. -/
def OpPc.stage : OpPc W → Stage W
  | .idle => .idle
  | .push op | .lock op | .drain op _ | .unlock op => .carrying op
  | .notify id | .notifying id => .queued (some id)
  | .ret id => .queued id

/-- The id of an inserted timer. -/
def opId : TimerOp W → Option ℕ
  | .insert _ id _ => some id
  | .remove .. => none

theorem stage_pushed (op : TimerOp W) : (State.pushed op).stage = .queued (opId op) := by
  cases op <;> rfl

/-- Between `m` and `m'` only entries with keys in `new` are lost. -/
def Fires (new : List TimerKey) (m m' : TimerMap W) : Prop :=
  ∀ k : TimerKey, m'[k]? = m[k]? ∨ m'[k]? = none ∧ k ∈ new

theorem Fires.refl (m : TimerMap W) : Fires [] m m := fun _ => Or.inl rfl

theorem Fires.apply {new : List TimerKey} {m m' : TimerMap W} (h : Fires new m m')
    (op : TimerOp W) : Fires new (op.apply m) (op.apply m') := by
  intro k
  by_cases hk : op.key = k
  · refine Or.inl ?_
    cases op with
    | insert when id w =>
      exact (TimerOp.getElem?_apply_insert.trans (if_pos hk)).trans
        (TimerOp.getElem?_apply_insert.trans (if_pos hk)).symm
    | remove when id =>
      exact (TimerOp.getElem?_apply_remove.trans (if_pos hk)).trans
        (TimerOp.getElem?_apply_remove.trans (if_pos hk)).symm
  · rw [TimerOp.getElem?_apply_of_ne hk, TimerOp.getElem?_apply_of_ne hk]
    exact h k

/-- The queued operations commute with the loss of entries. -/
theorem Fires.foldl {new : List TimerKey} (ops : List (TimerOp W)) {m m' : TimerMap W}
    (h : Fires new m m') : Fires new (ops.foldl TimerOp.apply m) (ops.foldl TimerOp.apply m') := by
  induction ops generalizing m m' with
  | nil => exact h
  | cons op ops ih => exact ih (h.apply op)

theorem pending_fires (m : TimerMap W) (now : ℕ) : Fires (m.ready now).keys m (m.pending now) := by
  intro k
  rw [TimerMap.getElem?_pending]
  by_cases hk : (ofLex k).1 < now
  · rw [if_pos hk]
    cases hm : m[k]? with
    | none => exact Or.inl rfl
    | some w =>
      refine Or.inr ⟨rfl, Std.TreeMap.mem_keys.2 (TimerMap.mem_iff_getElem?.2 ?_)⟩
      rw [TimerMap.getElem?_ready, if_pos hk, hm]
      simp
  · exact Or.inl (if_neg hk)

theorem ready_lt {m : TimerMap W} {now : ℕ} {k : TimerKey} (h : k ∈ (m.ready now).keys) :
    (ofLex k).1 < now := by
  have hr := TimerMap.mem_iff_getElem?.1 (Std.TreeMap.mem_keys.1 h)
  rw [TimerMap.getElem?_ready] at hr
  by_contra hk
  exact hr (if_neg hk)

/-- A drain does not change the abstract map. -/
theorem processTimerOp_abstract {s s' : State ι W} (h : s.processTimerOp = some s') :
    s'.abstract = s.abstract := by
  obtain ⟨op, ops, hq, -, rfl⟩ := processTimerOp_some h
  simp [State.abstract, hq]

/-- A step of `react`: it fires timers that are due, or does not change the
    abstract map. -/
theorem reactStep_fires {s s' : State ι W} (hs : s.reactStep = some s') :
    s'.clock = s.clock ∧ s'.idGen = s.idGen ∧ s'.calling = s.calling ∧
      (∀ c now, s'.reacting = .split c now → now = s.clock ∨ s.reacting = .split c now) ∧
      ∃ new, s'.fired = s.fired ++ new ∧ Fires new s.abstract s'.abstract ∧
        (new = [] ∨ ∃ c now, s.reacting = .split c now ∧ ∀ k ∈ new, (ofLex k).1 < now) := by
  unfold State.reactStep at hs
  split at hs <;> rename_i hr
  case h_3 =>
    split at hs <;> cases hs
    next t hd =>
      have hab := processTimerOp_abstract hd
      obtain ⟨_, _, _, _, rfl⟩ := processTimerOp_some hd
      refine ⟨rfl, rfl, rfl, nofun, [], by simp, ?_, Or.inl rfl⟩
      exact fun k => Or.inl (congrArg (·[k]?) hab)
    next => exact ⟨rfl, rfl, rfl, nofun, [], by simp, .refl _, Or.inl rfl⟩
  case h_5 c now =>
    cases hs
    refine ⟨rfl, rfl, rfl, nofun, _, rfl, (pending_fires s.timers now).foldl _, Or.inr ?_⟩
    exact ⟨c, now, hr, fun k hk => ready_lt hk⟩
  case h_4 =>
    cases hs
    exact ⟨rfl, rfl, rfl, by simp, [], by simp, .refl _, Or.inl rfl⟩
  case h_8 =>
    obtain ⟨p, hp, rfl⟩ := Option.map_eq_some_iff.1 hs
    exact ⟨rfl, rfl, rfl, nofun, [], by simp, .refl _, Or.inl rfl⟩
  case h_9 =>
    split at hs <;> obtain ⟨p, hp, rfl⟩ := Option.map_eq_some_iff.1 hs
    · refine ⟨rfl, rfl, rfl, ?_, [], by simp, .refl _, Or.inl rfl⟩
      dsimp only
      split_ifs <;> simp
    · exact ⟨rfl, rfl, rfl, nofun, [], by simp, .refl _, Or.inl rfl⟩
    · exact ⟨rfl, rfl, rfl, nofun, [], by simp, .refl _, Or.inl rfl⟩
    · exact ⟨rfl, rfl, rfl, fun _ _ => Or.inr, [], by simp, .refl _, Or.inl rfl⟩
  case h_11 =>
    split at hs <;> cases hs
    · exact ⟨rfl, rfl, rfl, nofun, [], by simp, .refl _, Or.inl rfl⟩
    · exact ⟨rfl, rfl, rfl, fun _ _ => Or.inr, [], by simp, .refl _, Or.inl rfl⟩
  case h_12 => cases hs
  all_goals
    (try split_ifs at hs)
    cases hs
    exact ⟨rfl, rfl, rfl, nofun, [], by simp, .refl _, Or.inl rfl⟩

/-- What the steps of the system leave alone for the objects. -/
structure Same (s s' : State ι W) : Prop where
  clock : s'.clock = s.clock
  fired : s'.fired = s.fired
  idGen : s'.idGen = s.idGen
  reacting : s'.reacting = s.reacting

variable [DecidableEq ι]

/-- A step of the call of `i`: it queues its operation, or does not change the
    abstract map. -/
theorem opStep_stage {s s' : State ι W} {i : ι} (hs : s.opStep i = some s') :
    Same s s' ∧ (∀ j, j ≠ i → s'.calling j = s.calling j) ∧
      ((∃ op, (s.calling i).stage = .carrying op ∧ (s'.calling i).stage = .queued (opId op) ∧
        s'.abstract = op.apply s.abstract) ∨
      (s'.calling i).stage = (s.calling i).stage ∧ s'.abstract = s.abstract) := by
  have hne : ∀ (t : State ι W) (p : OpPc W) (j : ι), j ≠ i →
      (t.setCalling i p).calling j = t.calling j := by
    intro t p j hj; simp [State.setCalling, hj]
  have heq : ∀ (t : State ι W) (p : OpPc W), (t.setCalling i p).calling i = p := by
    intro t p; simp [State.setCalling]
  unfold State.opStep at hs
  split at hs
  next op hi =>
    split at hs <;> cases hs
    next ops hp =>
      refine ⟨⟨rfl, rfl, rfl, rfl⟩, hne _ _, Or.inl ⟨op, by rw [hi]; rfl, ?_, ?_⟩⟩
      · rw [heq, stage_pushed]
      · simp [State.abstract, State.setCalling, (Queue.push_some hp).1]
    next => exact ⟨⟨rfl, rfl, rfl, rfl⟩, hne _ _, Or.inr ⟨by rw [heq, hi]; rfl, rfl⟩⟩
  next op hi =>
    split_ifs at hs
    cases hs
    exact ⟨⟨rfl, rfl, rfl, rfl⟩, hne _ _, Or.inr ⟨by rw [heq, hi]; rfl, rfl⟩⟩
  next hi =>
    cases hs
    exact ⟨⟨rfl, rfl, rfl, rfl⟩, hne _ _, Or.inr ⟨by rw [heq, hi]; rfl, rfl⟩⟩
  next op left hi =>
    split at hs <;> cases hs
    next t hd =>
      have hab := processTimerOp_abstract hd
      obtain ⟨_, _, _, _, rfl⟩ := processTimerOp_some hd
      exact ⟨⟨rfl, rfl, rfl, rfl⟩, hne _ _, Or.inr ⟨by rw [heq, hi]; rfl, hab⟩⟩
    next => exact ⟨⟨rfl, rfl, rfl, rfl⟩, hne _ _, Or.inr ⟨by rw [heq, hi]; rfl, rfl⟩⟩
  next hi =>
    cases hs
    exact ⟨⟨rfl, rfl, rfl, rfl⟩, hne _ _, Or.inr ⟨by rw [heq, hi]; rfl, rfl⟩⟩
  next id hi =>
    obtain ⟨p, hp, rfl⟩ := Option.map_eq_some_iff.1 hs
    exact ⟨⟨rfl, rfl, rfl, rfl⟩, hne _ _, Or.inr ⟨by rw [heq, hi]; rfl, rfl⟩⟩
  next id hi =>
    split at hs
    · obtain ⟨p, hp, rfl⟩ := Option.map_eq_some_iff.1 hs
      exact ⟨⟨rfl, rfl, rfl, rfl⟩, hne _ _, Or.inr ⟨by rw [heq, hi]; rfl, rfl⟩⟩
    · obtain ⟨p, hp, rfl⟩ := Option.map_eq_some_iff.1 hs
      exact ⟨⟨rfl, rfl, rfl, rfl⟩, fun _ _ => rfl, Or.inr ⟨rfl, rfl⟩⟩
  all_goals cases hs

end Timers

/-! ## The invariant -/

namespace Timer

open Timers (Stage Fires)

section Invariant
variable (r : Timers.State ι W) (ids : List ℕ)

/-- The only entry of the abstract map with one of these ids is `o`. -/
def Only (o : Option (TimerKey × W)) : Prop :=
  ∀ (k : TimerKey) w, (ofLex k).2 ∈ ids → r.abstract[k]? = some w → o = some (k, w)

/-- The only entry of the abstract map with one of these ids has key `k₀`. -/
def OnlyAt (k₀ : TimerKey) : Prop :=
  ∀ (k : TimerKey) w, (ofLex k).2 ∈ ids → r.abstract[k]? = some w → k = k₀

/-- The entry `o` is in the abstract map and is the only one with one of these
    ids, unless it has been fired since `mark`. -/
def Registered (mark : ℕ) (o : Option (TimerKey × W)) : Prop :=
  Only r ids o ∧ ∀ (k : TimerKey) w, o = some (k, w) → (ofLex k).2 ∈ ids ∧
    (r.abstract[k]? = some w ∨ k ∈ r.fired.drop mark)

/-- The entry a `Timer` with a stored waker stands for. -/
def entry (t : Timer W) : Option (TimerKey × W) :=
  t.waker.map fun w => (toLex (t.deadline, t.key), w)

/-- A `Timer` at rest, after its last operation. -/
def RestOk (mark : ℕ) (t : Timer W) : Last W → Prop
  | .ready => Only r ids none ∧ t.deadline ≤ r.clock
  | .pending cx => t.waker = some cx ∧ Registered r ids mark t.entry
  | .new | .reset => Registered r ids mark t.entry
  | .unborn | .dropped => False

/-- A `Timer` in a call of `remove_timer(self.deadline, self.key)`. -/
def RemoveOk (t : Timer W) : Stage W → Prop
  | .idle => OnlyAt r ids (toLex (t.deadline, t.key))
  | .carrying op =>
    op = .remove t.deadline t.key ∧ OnlyAt r ids (toLex (t.deadline, t.key))
  | .queued id => id = none ∧ Only r ids none

/-- A `Timer` in a call of `insert_timer(when, waker)`. -/
def InsertOk (mark when : ℕ) (waker : W) : Stage W → Prop
  | .idle => Only r ids none
  | .carrying op => ∃ id, op = .insert when id waker ∧ id ∈ ids ∧ Only r ids none
  | .queued id => ∃ n, id = some n ∧ Registered r ids mark (some (toLex (when, n), waker))

/-- A `Timer` at each of its places. -/
def PcOk (mark : ℕ) (t : Timer W) (last : Last W) (st : Stage W) : Pc W → Prop
  | .idle => st = .idle ∧ RestOk r ids mark t last
  | .pollReady => t.deadline ≤ r.clock ∧ t.key ∈ ids ∧ RemoveOk r ids t st
  | .pollRemove _ | .dropRemove => t.key ∈ ids ∧ RemoveOk r ids t st
  | .pollInsert cx => InsertOk r ids mark t.deadline cx st
  | .resetRemove _ w => t.waker = some w ∧ t.key ∈ ids ∧ RemoveOk r ids t st
  | .resetInsert when w => t.waker = some w ∧ InsertOk r ids mark when w st

/-- What the abstract map holds for an object. -/
def ObjOk (st : Stage W) (o : Obj W) : Prop :=
  o.mark ≤ r.fired.length ∧
    match o.timer with
    | none => Only r o.issued none ∧ o.pc = .idle ∧ st = .idle ∧
        (o.last = .unborn ∨ o.last = .dropped)
    | some t => o.last ≠ .unborn ∧ (t.key ≠ 0 → t.key ∈ o.issued) ∧
        (t.waker ≠ none → t.key ∈ o.issued) ∧ PcOk r o.issued o.mark t o.last st o.pc

end Invariant

/-- The invariant: ids are unequal, fired timers were due, and each object has at most its own
    timer. -/
structure Inv (s : State ι W) : Prop where
  now : ∀ c now, s.reactor.reacting = .split c now → now ≤ s.reactor.clock
  pos : 0 < s.reactor.idGen
  fired : ∀ k ∈ s.reactor.fired, (ofLex k).1 < s.reactor.clock
  keys : ∀ k : TimerKey, s.reactor.abstract[k]? ≠ none → (ofLex k).2 < s.reactor.idGen
  ids : ∀ i, ∀ id ∈ (s.objs i).issued, 0 < id ∧ id < s.reactor.idGen
  disjoint : ∀ i j, i ≠ j → ∀ id ∈ (s.objs i).issued, id ∉ (s.objs j).issued
  objs : ∀ i, ObjOk s.reactor (s.reactor.calling i).stage (s.objs i)

/-! ### Steps of the others -/

/-- What happens between two states, as far as the entries with these ids are
    concerned: time passes, and the reactor may fire them. -/
structure Calm (ids : List ℕ) (r r' : Timers.State ι W) : Prop where
  clock : r.clock ≤ r'.clock
  fired : ∃ new, r'.fired = r.fired ++ new ∧ ∀ k : TimerKey, (ofLex k).2 ∈ ids →
    r'.abstract[k]? = r.abstract[k]? ∨ r'.abstract[k]? = none ∧ k ∈ new

namespace Calm
variable {ids : List ℕ} {r r' : Timers.State ι W} {mark : ℕ}

theorem only (h : Calm ids r r') {o : Option (TimerKey × W)} (ho : Only r ids o) :
    Only r' ids o := by
  obtain ⟨new, -, hn⟩ := h.fired
  intro k w hk hw
  rcases hn k hk with he | ⟨he, -⟩
  · exact ho k w hk (he ▸ hw)
  · rw [he] at hw; cases hw

theorem onlyAt (h : Calm ids r r') {k₀ : TimerKey} (ho : OnlyAt r ids k₀) : OnlyAt r' ids k₀ := by
  obtain ⟨new, -, hn⟩ := h.fired
  intro k w hk hw
  rcases hn k hk with he | ⟨he, -⟩
  · exact ho k w hk (he ▸ hw)
  · rw [he] at hw; cases hw

theorem registered (h : Calm ids r r') (hm : mark ≤ r.fired.length) {o : Option (TimerKey × W)}
    (ho : Registered r ids mark o) : Registered r' ids mark o := by
  refine ⟨h.only ho.1, fun k w hkw => ?_⟩
  obtain ⟨new, hf, hn⟩ := h.fired
  obtain ⟨hk, hw⟩ := ho.2 k w hkw
  refine ⟨hk, ?_⟩
  rw [hf, List.drop_append_of_le_length hm]
  rcases hw with hw | hw
  · rcases hn k hk with he | ⟨-, he⟩
    · exact Or.inl (he ▸ hw)
    · exact Or.inr (List.mem_append_right _ he)
  · exact Or.inr (List.mem_append_left _ hw)

theorem removeOk (h : Calm ids r r') {t : Timer W} {st : Stage W} (ho : RemoveOk r ids t st) :
    RemoveOk r' ids t st := by
  cases st with
  | idle => exact h.onlyAt ho
  | carrying op => exact ⟨ho.1, h.onlyAt ho.2⟩
  | queued id => exact ⟨ho.1, h.only ho.2⟩

theorem insertOk (h : Calm ids r r') (hm : mark ≤ r.fired.length) {when : ℕ} {w : W}
    {st : Stage W} (ho : InsertOk r ids mark when w st) : InsertOk r' ids mark when w st := by
  cases st with
  | idle => exact h.only ho
  | carrying op =>
    obtain ⟨id, hop, hid, ho⟩ := ho
    exact ⟨id, hop, hid, h.only ho⟩
  | queued id =>
    obtain ⟨n, hn, ho⟩ := ho
    exact ⟨n, hn, h.registered hm ho⟩

theorem restOk (h : Calm ids r r') (hm : mark ≤ r.fired.length) {t : Timer W} {last : Last W}
    (ho : RestOk r ids mark t last) : RestOk r' ids mark t last := by
  cases last with
  | ready => exact ⟨h.only ho.1, ho.2.trans h.clock⟩
  | pending cx => exact ⟨ho.1, h.registered hm ho.2⟩
  | new | reset => exact h.registered hm ho
  | unborn | dropped => exact ho

theorem pcOk (h : Calm ids r r') (hm : mark ≤ r.fired.length) {t : Timer W} {last : Last W}
    {st : Stage W} {pc : Pc W} (ho : PcOk r ids mark t last st pc) :
    PcOk r' ids mark t last st pc := by
  cases pc with
  | idle => exact ⟨ho.1, h.restOk hm ho.2⟩
  | pollReady => exact ⟨ho.1.trans h.clock, ho.2.1, h.removeOk ho.2.2⟩
  | pollRemove | dropRemove => exact ⟨ho.1, h.removeOk ho.2⟩
  | pollInsert => exact h.insertOk hm ho
  | resetRemove => exact ⟨ho.1, ho.2.1, h.removeOk ho.2.2⟩
  | resetInsert => exact ⟨ho.1, h.insertOk hm ho.2⟩

theorem objOk {o : Obj W} (h : Calm o.issued r r') {st : Stage W} (ho : ObjOk r st o) :
    ObjOk r' st o := by
  obtain ⟨hm, ho⟩ := ho
  obtain ⟨new, hf, -⟩ := h.fired
  refine ⟨by rw [hf, List.length_append]; omega, ?_⟩
  cases ht : o.timer with
  | none => rw [ht] at ho; exact ⟨h.only ho.1, ho.2⟩
  | some t => rw [ht] at ho; exact ⟨ho.1, ho.2.1, ho.2.2.1, h.pcOk hm ho.2.2.2⟩

/-- The firing of timers. -/
theorem of_fires {new : List TimerKey} (hc : r.clock ≤ r'.clock) (hf : r'.fired = r.fired ++ new)
    (h : Fires new r.abstract r'.abstract) : Calm ids r r' :=
  ⟨hc, new, hf, fun k _ => h k⟩

/-- An operation queued for another object. -/
theorem of_apply {op : TimerOp W} (hc : r'.clock = r.clock) (hf : r'.fired = r.fired)
    (ha : r'.abstract = op.apply r.abstract) (hop : (ofLex op.key).2 ∉ ids) : Calm ids r r' := by
  refine ⟨hc.ge, [], by simp [hf], fun k hk => Or.inl ?_⟩
  rw [ha]
  exact TimerOp.getElem?_apply_of_ne (by rintro rfl; exact hop hk)

end Calm

/-! ### Queueing an operation -/

section Push
variable {ids : List ℕ} {r r' : Timers.State ι W} {op : TimerOp W}

theorem RemoveOk.push {t : Timer W} (h : RemoveOk r ids t (.carrying op))
    (ha : r'.abstract = op.apply r.abstract) : RemoveOk r' ids t (.queued (Timers.opId op)) := by
  obtain ⟨rfl, ho⟩ := h
  refine ⟨rfl, fun k w hk hw => ?_⟩
  rw [ha, TimerOp.getElem?_apply_remove] at hw
  split_ifs at hw with hkt
  exact absurd (ho k w hk hw).symm hkt

theorem InsertOk.push {mark when : ℕ} {w : W} (h : InsertOk r ids mark when w (.carrying op))
    (ha : r'.abstract = op.apply r.abstract) :
    InsertOk r' ids mark when w (.queued (Timers.opId op)) := by
  obtain ⟨id, rfl, hid, ho⟩ := h
  refine ⟨id, rfl, fun k v hk hv => ?_, ?_⟩
  · rw [ha, TimerOp.getElem?_apply_insert] at hv
    split_ifs at hv with hkt
    · rw [hkt, Option.some.inj hv]
    · cases ho k v hk hv
  · rintro k v hkv
    cases hkv
    exact ⟨hid, Or.inl (by rw [ha, TimerOp.getElem?_apply_insert, if_pos rfl])⟩

theorem PcOk.push {mark : ℕ} {t : Timer W} {last : Last W} {pc : Pc W}
    (h : PcOk r ids mark t last (.carrying op) pc) (hc : r'.clock = r.clock)
    (ha : r'.abstract = op.apply r.abstract) :
    PcOk r' ids mark t last (.queued (Timers.opId op)) pc := by
  cases pc with
  | idle => cases h.1
  | pollReady => exact ⟨hc ▸ h.1, h.2.1, h.2.2.push ha⟩
  | pollRemove | dropRemove => exact ⟨h.1, h.2.push ha⟩
  | pollInsert => exact InsertOk.push h ha
  | resetRemove => exact ⟨h.1, h.2.1, h.2.2.push ha⟩
  | resetInsert => exact ⟨h.1, h.2.push ha⟩

theorem ObjOk.push {o : Obj W} (h : ObjOk r (.carrying op) o) (hc : r'.clock = r.clock)
    (hf : r'.fired = r.fired) (ha : r'.abstract = op.apply r.abstract) :
    ObjOk r' (.queued (Timers.opId op)) o := by
  obtain ⟨hm, h⟩ := h
  refine ⟨hf ▸ hm, ?_⟩
  cases ht : o.timer with
  | none => rw [ht] at h; cases h.2.2.1
  | some t => rw [ht] at h; exact ⟨h.1, h.2.1, h.2.2.1, h.2.2.2.push hc ha⟩

/-- An object only carries operations on its own ids. -/
theorem ObjOk.key_mem {o : Obj W} (h : ObjOk r (.carrying op) o) : (ofLex op.key).2 ∈ o.issued := by
  obtain ⟨-, h⟩ := h
  have hrem : ∀ t, t.key ∈ o.issued → RemoveOk r o.issued t (.carrying op) →
      (ofLex op.key).2 ∈ o.issued := by
    rintro t hk ⟨rfl, -⟩; exact hk
  have hins : ∀ when w, InsertOk r o.issued o.mark when w (.carrying op) →
      (ofLex op.key).2 ∈ o.issued := by
    rintro when w ⟨_, rfl, hid, -⟩; exact hid
  cases ht : o.timer with
  | none => rw [ht] at h; cases h.2.2.1
  | some t =>
    rw [ht] at h
    obtain ⟨-, -, -, h⟩ := h
    cases hp : o.pc <;> rw [hp] at h
    case idle => cases h.1
    case pollReady => exact hrem t h.2.1 h.2.2
    case pollRemove | dropRemove => exact hrem t h.1 h.2
    case pollInsert => exact hins _ _ h
    case resetRemove => exact hrem t h.2.1 h.2.2
    case resetInsert => exact hins _ _ h.2

end Push

/-! ### A `Timer` at rest -/

section Rest
variable {ids : List ℕ} {r : Timers.State ι W} {mark : ℕ} {t : Timer W} {last : Last W}

theorem Only.registered (h : Only r ids none) (mark : ℕ) : Registered r ids mark none :=
  ⟨h, nofun⟩

theorem RestOk.onlyAt (h : RestOk r ids mark t last) :
    OnlyAt r ids (toLex (t.deadline, t.key)) := by
  have hreg : ∀ {mark}, Registered r ids mark t.entry → OnlyAt r ids (toLex (t.deadline, t.key)) := by
    intro mark hr k w hk hw
    have he := hr.1 k w hk hw
    unfold entry at he
    obtain ⟨v, -, hv⟩ := Option.map_eq_some_iff.1 he
    exact (Prod.mk.inj hv).1.symm
  cases last with
  | ready => exact fun k w hk hw => nomatch h.1 k w hk hw
  | pending cx => exact hreg h.2
  | new | reset => exact hreg h
  | unborn | dropped => exact h.elim

theorem RestOk.only_none (h : RestOk r ids mark t last) (hw : t.waker = none) :
    Only r ids none := by
  have he : t.entry = none := by rw [entry, hw]; rfl
  cases last with
  | ready => exact h.1
  | pending cx => exact he ▸ h.2.1
  | new | reset => exact he ▸ h.1
  | unborn | dropped => exact h.elim

/-- Before its deadline no timer has been fired. -/
theorem RestOk.registered (h : RestOk r ids mark t last) (hd : ¬ t.deadline ≤ r.clock)
    (hf : ∀ k ∈ r.fired, (ofLex k).1 < r.clock) (mark' : ℕ) : Registered r ids mark' t.entry := by
  have hreg : Registered r ids mark t.entry → Registered r ids mark' t.entry := by
    refine fun hr => ⟨hr.1, fun k w hkw => ⟨(hr.2 k w hkw).1, ?_⟩⟩
    refine (hr.2 k w hkw).2.imp_right fun hk => absurd (hf k (List.mem_of_mem_drop hk)) ?_
    unfold entry at hkw
    obtain ⟨v, -, hv⟩ := Option.map_eq_some_iff.1 hkw
    rw [← (Prod.mk.inj hv).1]
    exact fun hlt => hd (le_of_lt hlt)
  cases last with
  | ready => exact absurd h.2 hd
  | pending cx => exact hreg h.2
  | new | reset => exact hreg h
  | unborn | dropped => exact h.elim

end Rest

namespace Inv
variable {s : State ι W}

/-- A step of the reactor that may fire timers. -/
theorem fires (h : Inv s) {r : Timers.State ι W} (hc : s.reactor.clock ≤ r.clock)
    (hg : r.idGen = s.reactor.idGen) (hcall : r.calling = s.reactor.calling)
    (hnow : ∀ c now, r.reacting = .split c now → now ≤ r.clock) {new : List TimerKey}
    (hf : r.fired = s.reactor.fired ++ new) (hnew : ∀ k ∈ new, (ofLex k).1 < s.reactor.clock)
    (ha : Fires new s.reactor.abstract r.abstract) : Inv { s with reactor := r } := by
  refine ⟨hnow, hg ▸ h.pos, fun k hk => ?_, fun k hk => ?_, ?_, h.disjoint, fun i => ?_⟩
  · rw [hf, List.mem_append] at hk
    rcases hk with hk | hk
    · exact (h.fired k hk).trans_le hc
    · exact (hnew k hk).trans_le hc
  · rw [hg]
    rcases ha k with he | ⟨he, -⟩
    · exact h.keys k (he ▸ hk)
    · exact absurd he hk
  · rw [hg]; exact h.ids
  · rw [hcall]; exact (Calm.of_fires hc hf ha).objOk (h.objs i)

variable [DecidableEq ι] {i : ι}

/-- A step inside the call of the reactor. -/
theorem op (h : Inv s) {r : Timers.State ι W} (hs : s.reactor.opStep i = some r) :
    Inv { s with reactor := r } := by
  obtain ⟨⟨hc, hf, hg, hr⟩, hne, hcase⟩ := Timers.opStep_stage hs
  rcases hcase with ⟨op, hst, hst', ha⟩ | ⟨hst, ha⟩
  · have hi := h.objs i
    rw [hst] at hi
    have hmem := hi.key_mem
    refine ⟨?_, hg ▸ h.pos, ?_, fun k hk => ?_, ?_, h.disjoint, fun j => ?_⟩
    · rw [hr, hc]; exact h.now
    · rw [hf, hc]; exact h.fired
    · rw [hg]
      by_cases hkop : op.key = k
      · subst hkop; exact (h.ids i _ hmem).2
      · rw [ha, TimerOp.getElem?_apply_of_ne hkop] at hk; exact h.keys k hk
    · rw [hg]; exact h.ids
    · by_cases hj : j = i
      · subst hj; rw [hst']; exact hi.push hc hf ha
      · rw [hne j hj]
        exact (Calm.of_apply hc hf ha (h.disjoint i j (Ne.symm hj) _ hmem)).objOk (h.objs j)
  · refine ⟨?_, hg ▸ h.pos, ?_, ?_, ?_, h.disjoint, fun j => ?_⟩
    · rw [hr, hc]; exact h.now
    · rw [hf, hc]; exact h.fired
    · rw [ha, hg]; exact h.keys
    · rw [hg]; exact h.ids
    · have hcalm : Calm (s.objs j).issued s.reactor r :=
        .of_fires hc.ge (by rw [hf, List.append_nil]) (fun k => Or.inl (by rw [ha]))
      by_cases hj : j = i
      · subst hj; rw [hst]; exact hcalm.objOk (h.objs j)
      · rw [hne j hj]; exact hcalm.objOk (h.objs j)

/-- A step of object `i` that does not change the abstract map. -/
theorem move (h : Inv s) {r : Timers.State ι W} {o : Obj W} (hc : r.clock = s.reactor.clock)
    (hf : r.fired = s.reactor.fired) (hr : r.reacting = s.reactor.reacting)
    (hg : s.reactor.idGen ≤ r.idGen) (ha : r.abstract = s.reactor.abstract)
    (hne : ∀ j, j ≠ i → r.calling j = s.reactor.calling j)
    (hids : ∀ id ∈ o.issued, id ∈ (s.objs i).issued ∨ id = s.reactor.idGen ∧ 0 < id ∧ id < r.idGen)
    (hok : ObjOk s.reactor (r.calling i).stage o) : Inv ({ s with reactor := r }.set i o) := by
  have hcalm : ∀ ids, Calm ids s.reactor r := fun ids =>
    .of_fires hc.ge (by rw [hf, List.append_nil]) (fun k => Or.inl (by rw [ha]))
  have hlt : ∀ j, ∀ id ∈ (s.objs j).issued, id < s.reactor.idGen := fun j id hid => (h.ids j id hid).2
  refine ⟨?_, h.pos.trans_le hg, ?_, ?_, fun j => ?_, fun j k hjk => ?_, fun j => ?_⟩
  · change ∀ c now, r.reacting = .split c now → now ≤ r.clock
    rw [hr, hc]; exact h.now
  · change ∀ k ∈ r.fired, (ofLex k).1 < r.clock
    rw [hf, hc]; exact h.fired
  · change ∀ k : TimerKey, r.abstract[k]? ≠ none → (ofLex k).2 < r.idGen
    rw [ha]; exact fun k hk => (h.keys k hk).trans_le hg
  · by_cases hj : j = i
    · subst hj
      simp only [State.set, Function.update_self]
      intro id hid
      rcases hids id hid with hid | ⟨-, hid⟩
      · exact ⟨(h.ids j id hid).1, (h.ids j id hid).2.trans_le hg⟩
      · exact hid
    · simp only [State.set, Function.update_of_ne hj]
      exact fun id hid => ⟨(h.ids j id hid).1, (h.ids j id hid).2.trans_le hg⟩
  · by_cases hj : j = i
    · subst hj
      simp only [State.set, Function.update_self, Function.update_of_ne hjk.symm]
      intro id hid
      rcases hids id hid with hid | ⟨rfl, -⟩
      · exact h.disjoint j k hjk id hid
      · exact fun hm => (hlt k _ hm).ne rfl
    · by_cases hk : k = i
      · subst hk
        simp only [State.set, Function.update_self, Function.update_of_ne hj]
        intro id hid hm
        rcases hids id hm with hm | ⟨rfl, -⟩
        · exact h.disjoint j k hjk id hid hm
        · exact (hlt j _ hid).ne rfl
      · simp only [State.set, Function.update_of_ne hj, Function.update_of_ne hk]
        exact h.disjoint j k hjk
  · by_cases hj : j = i
    · subst hj
      simp only [State.set, Function.update_self]
      exact (hcalm _).objOk hok
    · simp only [State.set, Function.update_of_ne hj]
      rw [hne j hj]
      exact (hcalm _).objOk (h.objs j)

/-- A step of object `i` outside the reactor. -/
theorem set (h : Inv s) {o : Obj W} (hids : o.issued = (s.objs i).issued)
    (hok : ObjOk s.reactor (s.reactor.calling i).stage o) : Inv (s.set i o) :=
  h.move (r := s.reactor) rfl rfl rfl le_rfl rfl (fun _ _ => rfl)
    (fun _ hid => Or.inl (hids ▸ hid)) hok

/-! ### The operations -/

variable {s' : State ι W} {t : Timer W}

omit [DecidableEq ι] in
/-- What the invariant says of a `Timer` at rest. -/
theorem rest (h : Inv s) (ht : (s.objs i).timer = some t) (hp : (s.objs i).pc = .idle) :
    (s.objs i).last ≠ .unborn ∧ (t.key ≠ 0 → t.key ∈ (s.objs i).issued) ∧
      (t.waker ≠ none → t.key ∈ (s.objs i).issued) ∧ (s.reactor.calling i).stage = .idle ∧
      RestOk s.reactor (s.objs i).issued (s.objs i).mark t (s.objs i).last := by
  have hi := (h.objs i).2
  rw [ht, hp] at hi
  exact hi

theorem pollTimeout [DecidableEq W] (h : Inv s) {cx : W} (hs : s.pollTimeout i cx = some s') :
    Inv s' := by
  simp only [State.pollTimeout] at hs
  split at hs
  next t hp ht =>
    obtain ⟨hl, hk, hkw, hst, hrest⟩ := h.rest ht hp
    split_ifs at hs with hd hpos
    · cases hs
      refine h.set rfl ⟨le_rfl, ?_⟩
      simp only [ht]
      exact ⟨hl, hk, hkw, hd, hk hpos.ne', by rw [hst]; exact hrest.onlyAt⟩
    · cases hs
      refine h.set rfl ⟨le_rfl, ?_⟩
      simp only [ht, hp]
      -- a stored waker comes with a key
      have hw : t.waker = none := by
        by_contra hw
        exact hpos (h.ids i _ (hkw hw)).1
      exact ⟨nofun, hk, hkw, hst, hrest.only_none hw, hd⟩
    · split at hs
      next hw =>
        cases hs
        refine h.set rfl ⟨le_rfl, ?_⟩
        simp only [ht]
        exact ⟨hl, hk, hkw, by rw [hst]; exact hrest.only_none hw⟩
      next w hw =>
        have hkey := hkw (by simp [hw])
        split_ifs at hs with hne <;> cases hs <;> refine h.set rfl ⟨le_rfl, ?_⟩ <;> simp only [ht]
        · exact ⟨hl, hk, hkw, hkey, by rw [hst]; exact hrest.onlyAt⟩
        · rw [hp]
          exact ⟨nofun, hk, hkw, hst, by rw [hw, not_not.1 hne], hrest.registered hd h.fired _⟩
  next => cases hs

theorem reset (h : Inv s) {when : ℕ} (hs : s.reset i when = some s') : Inv s' := by
  simp only [State.reset] at hs
  split at hs
  next t hp ht =>
    obtain ⟨hl, hk, hkw, hst, hrest⟩ := h.rest ht hp
    split at hs
    next w hw =>
      cases hs
      refine h.set rfl ⟨le_rfl, ?_⟩
      simp only [ht]
      exact ⟨hl, hk, hkw, hw, hkw (by simp [hw]), by rw [hst]; exact hrest.onlyAt⟩
    next hw =>
      cases hs
      refine h.set rfl ⟨le_rfl, nofun, hk, hkw, ?_⟩
      simp only [hp]
      have he : entry { t with deadline := when } = none := by rw [entry, hw]; rfl
      exact ⟨hst, by rw [RestOk, he]; exact (hrest.only_none hw).registered _⟩
  next => cases hs

theorem drop (h : Inv s) (hs : s.drop i = some s') : Inv s' := by
  simp only [State.drop] at hs
  split at hs
  next t hp ht =>
    obtain ⟨hl, hk, hkw, hst, hrest⟩ := h.rest ht hp
    split at hs
    next w hw =>
      cases hs
      refine h.set rfl ⟨le_rfl, hl, hk, fun hn => absurd rfl hn, hkw (by simp [hw]), ?_⟩
      rw [hst]; exact hrest.onlyAt
    next hw =>
      cases hs
      exact h.set rfl ⟨le_rfl, hrest.only_none hw, hp, hst, Or.inr rfl⟩
  next => cases hs

/-- A call of `remove_timer` starts. -/
theorem callRemove (h : Inv s) (hs : s.callRemove i t = some s')
    (hok : ObjOk s.reactor (.carrying (.remove t.deadline t.key)) (s.objs i)) : Inv s' := by
  obtain ⟨r, hr, rfl⟩ := Option.map_eq_some_iff.1 hs
  unfold Timers.State.removeTimer at hr
  split at hr <;> cases hr
  have heq : ∀ r, ({ s with reactor := r } : State ι W) =
      { s with reactor := r }.set i (s.objs i) := by intro r; simp [State.set]
  rw [heq]
  refine h.move rfl rfl rfl le_rfl rfl (fun j hj => ?_) (fun id hid => Or.inl hid) ?_
  · simp [Timers.State.setCalling, hj]
  · simpa [Timers.State.setCalling, Timers.OpPc.stage] using hok

/-- A call of `insert_timer` starts: its id is fresh. -/
theorem callInsert (h : Inv s) {when : ℕ} {w : W} (hs : s.callInsert i when w = some s')
    (ho : Only s.reactor (s.objs i).issued none)
    (hok : Only s.reactor (s.reactor.idGen :: (s.objs i).issued) none →
      ObjOk s.reactor (.carrying (.insert when s.reactor.idGen w))
        { s.objs i with issued := s.reactor.idGen :: (s.objs i).issued }) : Inv s' := by
  obtain ⟨r, hr, rfl⟩ := Option.map_eq_some_iff.1 hs
  unfold Timers.State.insertTimer at hr
  split at hr <;> cases hr
  refine h.move rfl rfl rfl (Nat.le_succ _) rfl (fun j hj => ?_) (fun id hid => ?_) ?_
  · simp [Timers.State.setCalling, hj]
  · rcases List.mem_cons.1 hid with rfl | hid
    · exact Or.inr ⟨rfl, h.pos, Nat.lt_succ_self _⟩
    · exact Or.inl hid
  · have hnew : Only s.reactor (s.reactor.idGen :: (s.objs i).issued) none := by
      intro k v hk hv
      rcases List.mem_cons.1 hk with hk | hk
      · exact absurd (h.keys k (by rw [hv]; simp)) (by omega)
      · exact ho k v hk hv
    simpa [Timers.State.setCalling, Timers.OpPc.stage] using hok hnew

/-- A call of the reactor has returned. -/
theorem back (h : Inv s) {o : Obj W} (hs : s.back i o = some s')
    (hids : o.issued = (s.objs i).issued) (hok : ObjOk s.reactor .idle o) : Inv s' := by
  obtain ⟨r, hr, rfl⟩ := Option.map_eq_some_iff.1 hs
  unfold Timers.State.opRet at hr
  split at hr <;> cases hr
  refine h.move rfl rfl rfl le_rfl rfl (fun j hj => ?_) (fun id hid => Or.inl (hids ▸ hid)) ?_
  · simp [Timers.State.setCalling, hj]
  · simpa [Timers.State.setCalling, Timers.OpPc.stage] using hok

theorem next (h : Inv s) (hs : s.next i = some s') : Inv s' := by
  have hi := h.objs i
  obtain ⟨hm, hobj⟩ := hi
  simp only [State.next] at hs
  split at hs
  · cases hs
  next t ht =>
    rw [ht] at hobj
    obtain ⟨hl, hk, hkw, hpc⟩ := hobj
    -- the object after a step that leaves its `Timer` alone
    have hobj : ∀ (st : Stage W) (pc : Pc W) (last : Last W), last ≠ .unborn →
        PcOk s.reactor (s.objs i).issued (s.objs i).mark t last st pc →
        ObjOk s.reactor st { s.objs i with pc := pc, last := last } := by
      intro st pc last hne hpc
      refine ⟨hm, ?_⟩
      simp only [ht]
      exact ⟨hne, hk, hkw, hpc⟩
    -- the object once it has drawn an id
    have hdraw : ∀ (st : Stage W), PcOk s.reactor (s.reactor.idGen :: (s.objs i).issued)
          (s.objs i).mark t (s.objs i).last st (s.objs i).pc →
        ObjOk s.reactor st
          { s.objs i with issued := s.reactor.idGen :: (s.objs i).issued } := by
      intro st hpc
      refine ⟨hm, ?_⟩
      simp only [ht]
      exact ⟨hl, fun hn => List.mem_cons_of_mem _ (hk hn), fun hn => List.mem_cons_of_mem _ (hkw hn),
        hpc⟩
    split at hs
    case h_13 => cases hs
    all_goals rename_i hp hc; rw [hp, hc] at hpc
    · refine h.callRemove hs (hobj _ _ _ hl ?_)
      rw [hp]; exact ⟨hpc.1, hpc.2.1, rfl, hpc.2.2⟩
    · exact h.back hs rfl (hobj _ .idle .ready nofun ⟨rfl, hpc.2.2.2, hpc.1⟩)
    · refine h.callRemove hs (hobj _ _ _ hl ?_)
      rw [hp]; exact ⟨hpc.1, rfl, hpc.2⟩
    · exact h.back hs rfl (hobj _ (.pollInsert _) _ hl hpc.2.2)
    · refine h.callInsert hs hpc fun ho => hdraw _ ?_
      rw [hp]; exact ⟨_, rfl, List.mem_cons_self, ho⟩
    · obtain ⟨n, hn, hreg⟩ := hpc
      cases hn
      have hid := (hreg.2 _ _ rfl).1
      exact h.back hs rfl ⟨hm, nofun, fun _ => hid, fun _ => hid, rfl, rfl, hreg⟩
    · refine h.callRemove hs (hobj _ _ _ hl ?_)
      rw [hp]; exact ⟨hpc.1, hpc.2.1, rfl, hpc.2.2⟩
    · exact h.back hs rfl (hobj _ (.resetInsert _ _) _ hl ⟨hpc.1, hpc.2.2.2⟩)
    · refine h.callInsert hs hpc.2 fun ho => hdraw _ ?_
      rw [hp]; exact ⟨hpc.1, _, rfl, List.mem_cons_self, ho⟩
    · obtain ⟨hw, n, hn, hreg⟩ := hpc
      cases hn
      have hid := (hreg.2 _ _ rfl).1
      refine h.back hs rfl ⟨hm, nofun, fun _ => hid, fun _ => hid, rfl, ?_⟩
      simpa [RestOk, entry, hw] using hreg
    · refine h.callRemove hs (hobj _ _ _ hl ?_)
      rw [hp]; exact ⟨hpc.1, rfl, hpc.2⟩
    · exact h.back hs rfl ⟨hm, hpc.2.2, rfl, rfl, Or.inr rfl⟩

omit [DecidableEq ι] in
/-- A step of the reactor that leaves the timers alone. -/
theorem reactor (h : Inv s) {r : Timers.State ι W} (hc : s.reactor.clock ≤ r.clock)
    (hg : r.idGen = s.reactor.idGen) (hcall : r.calling = s.reactor.calling)
    (hr : ∀ c now, r.reacting = .split c now → s.reactor.reacting = .split c now)
    (hf : r.fired = s.reactor.fired) (ha : r.abstract = s.reactor.abstract) :
    Inv { s with reactor := r } :=
  h.fires hc hg hcall (fun c now hsp => (h.now c now (hr c now hsp)).trans hc)
    (by rw [hf, List.append_nil]) (by simp) fun k => Or.inl (by rw [ha])

/-- Every step of the system keeps the invariant. -/
theorem step [DecidableEq W] (h : Inv s) {a : Act ι W} (hs : Timer.step s a = some s') :
    Inv s' := by
  cases a with
  | new i deadline =>
    simp only [Timer.step] at hs
    split_ifs at hs with hu
    cases hs
    obtain ⟨hm, hi⟩ := h.objs i
    cases ht : (s.objs i).timer with
    | some t => rw [ht] at hi; exact absurd hu hi.1
    | none =>
      rw [ht] at hi
      refine h.set rfl ⟨hm, nofun, fun hk => absurd rfl hk, fun hw => absurd rfl hw, ?_⟩
      simp only [hi.2.1]
      exact ⟨hi.2.2.1, hi.1.registered _⟩
  | poll i cx => exact h.pollTimeout hs
  | reset i when => exact h.reset hs
  | drop i => exact h.drop hs
  | next i => exact h.next hs
  | op i =>
    obtain ⟨r, hr, rfl⟩ := Option.map_eq_some_iff.1 hs
    exact h.op hr
  | react timeout =>
    obtain ⟨r, hr, rfl⟩ := Option.map_eq_some_iff.1 hs
    unfold Timers.State.react at hr
    split at hr <;> cases hr
    exact h.reactor le_rfl rfl rfl nofun rfl rfl
  | reactNext =>
    obtain ⟨r, hr, rfl⟩ := Option.map_eq_some_iff.1 hs
    obtain ⟨hc, hg, hcall, hnow, new, hf, ha, hnew⟩ := Timers.reactStep_fires hr
    refine h.fires hc.ge hg hcall (fun c now hsp => ?_) hf (fun k hk => ?_) ha
    · rw [hc]
      rcases hnow c now hsp with rfl | hsp
      · exact le_rfl
      · exact h.now c now hsp
    · rcases hnew with rfl | ⟨c, now, hsp, hlt⟩
      · cases hk
      · exact (hlt k hk).trans_le (h.now c now hsp)
  | leaveEvents =>
    obtain ⟨r, hr, rfl⟩ := Option.map_eq_some_iff.1 hs
    unfold Timers.State.leaveEvents at hr
    split at hr <;> cases hr
    exact h.reactor le_rfl rfl rfl nofun rfl rfl
  | epollReturn report empty =>
    obtain ⟨r, hr, rfl⟩ := Option.map_eq_some_iff.1 hs
    obtain ⟨p, hp, rfl⟩ := Option.map_eq_some_iff.1 hr
    exact h.reactor le_rfl rfl rfl (fun _ _ => id) rfl rfl
  | interrupt =>
    obtain ⟨r, hr, rfl⟩ := Option.map_eq_some_iff.1 hs
    obtain ⟨p, hp, rfl⟩ := Option.map_eq_some_iff.1 hr
    exact h.reactor le_rfl rfl rfl (fun _ _ => id) rfl rfl
  | advance d =>
    cases hs
    exact h.reactor (Nat.le_add_right _ _) rfl rfl (fun _ _ => id) rfl rfl

end Inv

theorem inv_init (now : ℕ) :
    Inv (⟨.new now, fun _ => ⟨none, .idle, .unborn, 0, []⟩⟩ : State ι W) := by
  refine ⟨?_, Nat.one_pos, ?_, fun k hk => ?_, ?_, ?_, fun i => ⟨le_rfl, ?_, rfl, rfl, Or.inl rfl⟩⟩
  · intro c t hr; cases hr
  · intro k hk; cases hk
  · simp [Timers.State.new, Timers.State.abstract, Queue.bound] at hk
  · intro i id hid; cases hid
  · intro i j _ id hid; cases hid
  · intro k v hk; cases hk

variable [DecidableEq ι] [DecidableEq W] {s : State ι W}

theorem inv_reach {C : State ι W → Act ι W → Prop} {now : ℕ} (h : (system now).Reach C s) : Inv s :=
  h.inv (fun _ hs => hs ▸ inv_init now) fun _ _ _ _ hi _ hs => hi.step hs

/-! ## Exact registration -/

omit [DecidableEq ι] [DecidableEq W] in
/-- At each place of an object the abstract map holds at most one entry for it. -/
theorem ObjOk.onlyAt {r : Timers.State ι W} {st : Stage W} {o : Obj W} (h : ObjOk r st o) :
    ∃ k₀, OnlyAt r o.issued k₀ := by
  have hnone : Only r o.issued none → ∃ k₀, OnlyAt r o.issued k₀ :=
    fun ho => ⟨toLex (0, 0), fun k w hk hw => nomatch ho k w hk hw⟩
  have hrem : ∀ t, RemoveOk r o.issued t st → ∃ k₀, OnlyAt r o.issued k₀ := by
    intro t ht
    cases st with
    | idle => exact ⟨_, ht⟩
    | carrying op => exact ⟨_, ht.2⟩
    | queued id => exact hnone ht.2
  have hins : ∀ when w, InsertOk r o.issued o.mark when w st → ∃ k₀, OnlyAt r o.issued k₀ := by
    intro when w ht
    cases st with
    | idle => exact hnone ht
    | carrying op =>
      obtain ⟨_, _, _, ht⟩ := ht
      exact hnone ht
    | queued id =>
      obtain ⟨n, _, ht⟩ := ht
      exact ⟨toLex (when, n), fun k v hk hv =>
        (Prod.mk.inj (Option.some.inj (ht.1 k v hk hv))).1.symm⟩
  obtain ⟨-, h⟩ := h
  cases ht : o.timer with
  | none => rw [ht] at h; exact hnone h.1
  | some t =>
    rw [ht] at h
    obtain ⟨-, -, -, h⟩ := h
    cases hp : o.pc <;> rw [hp] at h
    case idle => exact ⟨_, h.2.onlyAt⟩
    case pollReady => exact hrem t h.2.2
    case pollRemove | dropRemove => exact hrem t h.2
    case pollInsert => exact hins _ _ h
    case resetRemove => exact hrem t h.2.2
    case resetInsert => exact hins _ _ h.2

/-- The operations of an object leave the other ones alone. -/
theorem objs_of_ne {i j : ι} (hj : j ≠ i) {s' : State ι W}
    (hs : (∃ cx, s.pollTimeout j cx = some s') ∨ (∃ when, s.reset j when = some s') ∨
      s.drop j = some s' ∨ s.next j = some s') : s'.objs i = s.objs i := by
  have hset : ∀ (t : State ι W) (o : Obj W), t.objs = s.objs → (t.set j o).objs i = s.objs i := by
    intro t o ht; simp [State.set, hj.symm, ht]
  rcases hs with ⟨cx, hs⟩ | ⟨when, hs⟩ | hs | hs
  · simp only [State.pollTimeout] at hs
    split at hs
    · split_ifs at hs
      · cases hs; exact hset _ _ rfl
      · cases hs; exact hset _ _ rfl
      · split at hs
        · cases hs; exact hset _ _ rfl
        · split_ifs at hs <;> cases hs <;> exact hset _ _ rfl
    · cases hs
  · simp only [State.reset] at hs
    split at hs
    · split at hs <;> cases hs <;> exact hset _ _ rfl
    · cases hs
  · simp only [State.drop] at hs
    split at hs
    · split at hs <;> cases hs <;> exact hset _ _ rfl
    · cases hs
  · simp only [State.next, State.callRemove, State.callInsert, State.back] at hs
    split at hs
    · cases hs
    · split at hs
      case h_13 => cases hs
      all_goals
        obtain ⟨r, -, rfl⟩ := Option.map_eq_some_iff.1 hs
        first | rfl | exact hset _ _ rfl

/-- A `poll_timeout` that has seen its deadline returns `Ready`. -/
theorem Inv.pollReady (h : Inv s) {i : ι} (hp : (s.objs i).pc = .pollReady) {a : Act ι W}
    {s' : State ι W} (hs : Timer.step s a = some s') :
    (s'.objs i).pc = .pollReady ∨ (s'.objs i).pc = .idle ∧ (s'.objs i).last = .ready := by
  have hobj : s'.objs i = s.objs i → (s'.objs i).pc = .pollReady ∨
      (s'.objs i).pc = .idle ∧ (s'.objs i).last = .ready := fun he => Or.inl (he ▸ hp)
  cases a with
  | new j deadline =>
    simp only [Timer.step, Option.ite_none_right_eq_some, Option.some.injEq] at hs
    obtain ⟨hu, rfl⟩ := hs
    by_cases hj : j = i
    · subst hj
      have hi := (h.objs j).2
      cases ht : (s.objs j).timer with
      | none => rw [ht] at hi; rw [hi.2.1] at hp; cases hp
      | some t => rw [ht] at hi; exact absurd hu hi.1
    · exact hobj (by simp [State.set, Ne.symm hj])
  | poll j cx =>
    by_cases hj : j = i
    · subst hj; simp [Timer.step, State.pollTimeout, hp] at hs
    · exact hobj (objs_of_ne hj (Or.inl ⟨cx, hs⟩))
  | reset j when =>
    by_cases hj : j = i
    · subst hj; simp [Timer.step, State.reset, hp] at hs
    · exact hobj (objs_of_ne hj (Or.inr (Or.inl ⟨when, hs⟩)))
  | drop j =>
    by_cases hj : j = i
    · subst hj; simp [Timer.step, State.drop, hp] at hs
    · exact hobj (objs_of_ne hj (Or.inr (Or.inr (Or.inl hs))))
  | next j =>
    by_cases hj : j = i
    · subst hj
      simp only [Timer.step, State.next, hp] at hs
      split at hs
      · cases hs
      · split at hs
        case h_1 =>
          obtain ⟨r, -, rfl⟩ := Option.map_eq_some_iff.1 hs
          exact hobj rfl
        case h_2 =>
          obtain ⟨r, -, rfl⟩ := Option.map_eq_some_iff.1 hs
          exact Or.inr (by simp [State.set])
        all_goals simp_all
    · exact hobj (objs_of_ne hj (Or.inr (Or.inr (Or.inr hs))))
  | advance d => cases hs; exact hobj rfl
  | op | react | reactNext | leaveEvents | epollReturn | interrupt =>
    obtain ⟨r, -, rfl⟩ := Option.map_eq_some_iff.1 hs
    exact hobj rfl

/-- **Timer registration is exact.** -/
theorem registration_exact {now : ℕ} (h : (system now).Reachable s) (i : ι) :
    -- at most one entry carries an id issued to this object
    (∀ k k' : TimerKey, (ofLex k).2 ∈ (s.objs i).issued → (ofLex k').2 ∈ (s.objs i).issued →
      k ∈ s.reactor.abstract → k' ∈ s.reactor.abstract → k = k') ∧
    -- after `Pending`, and after `reset` with a waker, its entry is there unless fired since
    (∀ t w, (s.objs i).timer = some t → (s.objs i).pc = .idle →
      (s.objs i).last = .pending w ∨ (s.objs i).last = .reset ∧ t.waker = some w →
      t.waker = some w ∧ t.key ∈ (s.objs i).issued ∧
        (toLex (t.deadline, t.key) ∉ s.reactor.fired.drop (s.objs i).mark →
          s.reactor.abstract[(toLex (t.deadline, t.key) : TimerKey)]? = some w)) ∧
    -- after `Ready` and after `drop` there is none
    ((s.objs i).pc = .idle → (s.objs i).last = .ready ∨ (s.objs i).last = .dropped →
      ∀ k : TimerKey, (ofLex k).2 ∈ (s.objs i).issued → k ∉ s.reactor.abstract) ∧
    -- once its entry is fired, `poll_timeout` takes the path to `Ready`, and stays on it
    (∀ t cx s', (s.objs i).timer = some t → toLex (t.deadline, t.key) ∈ s.reactor.fired →
      s.pollTimeout i cx = some s' →
      (s'.objs i).pc = .pollReady ∨ (s'.objs i).pc = .idle ∧ (s'.objs i).last = .ready) ∧
    (∀ a s', (s.objs i).pc = .pollReady → step s a = some s' →
      (s'.objs i).pc = .pollReady ∨ (s'.objs i).pc = .idle ∧ (s'.objs i).last = .ready) := by
  have hinv := inv_reach h
  have hmem : ∀ k : TimerKey, k ∈ s.reactor.abstract → ∃ w, s.reactor.abstract[k]? = some w :=
    fun k hk => Option.isSome_iff_exists.1 (Std.TreeMap.mem_iff_isSome_getElem?.1 hk)
  refine ⟨fun k k' hk hk' hm hm' => ?_, fun t w ht hp hlast => ?_, fun hp hlast k hk hm => ?_,
    fun t cx s' ht hf hs => ?_, fun a s' hp hs => hinv.pollReady hp hs⟩
  · obtain ⟨k₀, ho⟩ := (hinv.objs i).onlyAt
    obtain ⟨w, hw⟩ := hmem k hm
    obtain ⟨w', hw'⟩ := hmem k' hm'
    rw [ho k w hk hw, ho k' w' hk' hw']
  · obtain ⟨-, -, hkw, -, hrest⟩ := hinv.rest ht hp
    have hreg : t.waker = some w ∧
        Registered s.reactor (s.objs i).issued (s.objs i).mark t.entry := by
      rcases hlast with hl | ⟨hl, hw⟩ <;> rw [hl] at hrest
      · exact hrest
      · exact ⟨hw, hrest⟩
    obtain ⟨hw, hreg⟩ := hreg
    have hent := (hreg.2 (toLex (t.deadline, t.key)) w (by rw [entry, hw]; rfl)).2
    exact ⟨hw, hkw (by simp [hw]), fun hn => hent.resolve_right hn⟩
  · obtain ⟨w, hw⟩ := hmem k hm
    have hnone : Only s.reactor (s.objs i).issued none := by
      have hobj := (hinv.objs i).2
      cases ht : (s.objs i).timer with
      | none => rw [ht] at hobj; exact hobj.1
      | some t =>
        obtain ⟨-, -, -, -, hrest⟩ := hinv.rest ht hp
        rcases hlast with hl | hl <;> rw [hl] at hrest
        · exact hrest.1
        · exact hrest.elim
    cases hnone k w hk hw
  · have hd : t.deadline ≤ s.reactor.clock := (hinv.fired _ hf).le
    simp only [State.pollTimeout, ht] at hs
    split at hs
    next t' hp ht' =>
      cases ht'
      rw [if_pos hd] at hs
      split_ifs at hs <;> cases hs <;> simp [State.set, hp]
    next => cases hs

/-- A `Timer` with deadline `5`, polled with the waker `7` and then with `8`. -/
def pollTwice : List (Act (Fin 1) ℕ) :=
  [.new 0 5, .poll 0 7, .next 0, .op 0, .op 0, .op 0, .op 0, .next 0, .poll 0 8, .next 0, .op 0,
    .next 0, .next 0, .op 0, .op 0, .op 0, .next 0]

/-- The second registration replaces the first one. -/
theorem registration_exact_repolled : ∃ s : State (Fin 1) ℕ,
    (system 0).run ⟨.new 0, fun _ => ⟨none, .idle, .unborn, 0, []⟩⟩ pollTwice = some s ∧
      (s.objs 0).timer = some ⟨5, 2, some 8⟩ ∧ (s.objs 0).issued = [2, 1] ∧
      s.reactor.abstract[(toLex (5, 2) : TimerKey)]? = some 8 ∧
      toLex (5, 1) ∉ s.reactor.abstract := by
  obtain ⟨s, hs, ht, hp, hl, hids, hf⟩ :
      ∃ s : State (Fin 1) ℕ,
        (system 0).run ⟨.new 0, fun _ => ⟨none, .idle, .unborn, 0, []⟩⟩ pollTwice = some s ∧
        (s.objs 0).timer = some ⟨5, 2, some 8⟩ ∧ (s.objs 0).pc = .idle ∧
        (s.objs 0).last = .pending 8 ∧ (s.objs 0).issued = [2, 1] ∧ s.reactor.fired = [] :=
    Lts.exists_run (by decide +kernel)
  obtain ⟨hone, hent, -⟩ :=
    registration_exact (.run (.init rfl) (Lts.meets_true _ pollTwice) hs) 0
  have hin := (hent _ 8 ht hp (Or.inl hl)).2.2 (by simp [hf])
  refine ⟨s, hs, ht, hids, hin, fun hm => ?_⟩
  have hk := hone (toLex (5, 2)) (toLex (5, 1)) (by simp [hids]) (by simp [hids])
    (Std.TreeMap.mem_iff_isSome_getElem?.2 (by rw [hin]; rfl)) hm
  exact absurd hk (by decide)

end Timer
end Awak
