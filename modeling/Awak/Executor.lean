/-
  The executor of `executor.rs` as one system: the global queue, the workers
  with their local queues and tickers, and the calls of `schedule`.

  There are `n` worker threads, each running `loop { catch_unwind(|| block_on(
  executor.ticker().run())) }`, and `m` other threads.  A worker is numbered by
  its place in the iteration order of the `ThreadLocal`.  The iterations of its
  loop are its sessions; the ticker and the waker of session `k` of worker `w`
  are both named `(w, k)`.

  Each access to an atomic, each section under a lock and each return from a
  poll is one step.  A worker is at a place (`Pc`) of `run`, `tick`, `search` or
  `steal`; the calls of `Local` and of `State::notify` in progress keep their own
  places in `Local` and `Wake`.  Besides, a thread may be in a call of `schedule`
  (`Sched`): a worker while it runs a task, or between two polls.

  A runnable stands for one hand-over to `schedule`.  `issued`, `returned` and
  `dropped` are history: the runnables handed to `schedule`, returned by
  `search`, and lost by a failed push.
-/
import Awak.Local
import Awak.Queue
import Awak.Sleepers

namespace Awak

open Word

variable {n m : ℕ} {R : Type}

/-! ## Calls of `Local` -/

namespace Local
variable {ι T : Type} [DecidableEq ι]

/-- The next step of thread `i` in a call of `pop`, with the result when it returns. -/
def popNext (l : Local ι T) (i : ι) : Option (Local ι T × Option (PopRes T)) :=
  match l.popping i with
  | .idle => (l.popCall i).map (·, none)
  | .ret res => (l.popRet i).map (·, some res)
  | _ => (l.popStep i).map (·, none)

/-- The next step of thread `i` in a call of `len`. -/
def lenNext (l : Local ι T) (i : ι) : Option (Local ι T × Option ℕ) :=
  match l.counting i with
  | .idle => (l.lenCall i).map (·, none)
  | .ret length _ _ _ => (l.lenRet i).map (·, some length)
  | _ => (l.lenStep i).map (·, none)

omit [DecidableEq ι] in
/-- The next step of the owner in a call of `push` that it has made. -/
def pushNext (l : Local ι T) : Option (Local ι T × Option (PushRes T)) :=
  match l.pushing with
  | .ret res => l.pushRet.map (·, some res)
  | _ => l.pushStep.map (·, none)

end Local

/-! ## The state -/

/-- The workers and the other threads. -/
abbrev Thread (n m : ℕ) := Fin n ⊕ Fin m

/-- The iterator over the shards in `search`: `iter().chain(iter())`, at slot `pos`
    of the first or second round, with `skip` shards to skip and `take` to take. -/
structure Shards where
  second : Bool
  pos : ℕ
  skip : ℕ
  take : ℕ
  deriving DecidableEq

/-- Where `steal` takes from. -/
inductive Src (n : ℕ) where
  | global
  | shard (q : Fin n)
  deriving DecidableEq

/-- What follows a call of `steal`. -/
inductive Cont (R : Type) where
  /-- `search` returns the runnable it popped from the global queue -/
  | found (r : R)
  /-- `search` pops from the local queue, then goes on with the shards -/
  | shard (iter : Shards)
  /-- `tick` returns the runnable -/
  | ticked (r : R)
  deriving DecidableEq

/-- The places of `steal`. -/
inductive StealPc (R : Type) where
  | length
  | room (count : ℕ)
  | take (left : ℕ)
  | push (left : ℕ) (t : R)
  | pushing (left : ℕ)
  deriving DecidableEq

/-- The places of a worker. -/
inductive Pc (n : ℕ) (R : Type) where
  | unstarted
  /-- `local_queue.local.pop()`, first or after stealing from a shard -/
  | popOwn (rest : Option Shards)
  | popGlobal
  | pickStart
  | shards (iter : Shards)
  | steal (src : Src n) (st : StealPc R) (k : Cont R)
  | sleep
  | wakeSwap (r : R)
  | wakeLock (r : R)
  | notify (r : R)
  | bump (r : R)
  | run (r : R)
  | yieldNow
  /-- about to return `Poll::Pending` -/
  | ret
  | pending
  /-- the code panics, or reads a slot that was never written -/
  | abort
  deriving DecidableEq

/-- The places of a call of `schedule`. -/
inductive Sched (R : Type) where
  | idle
  | enter (r : R)
  | pushing
  | wakeLocal
  | pushGlobal (r : R)
  | notify
  | abort
  deriving DecidableEq

/-- The executor, its workers, and the calls of `schedule` in progress. -/
structure Exec (n m : ℕ) (R : Type) where
  /-- the global queue -/
  queue : Queue R
  /-- `local_queue`: a worker has one when `stored` is set -/
  locals : Fin n → Local (Fin n) R
  /-- the session whose waker is in the worker's `LocalQueue` -/
  stored : Fin n → Option ℕ
  wake : Wake (Fin n × ℕ) (Thread n m)
  session : Fin n → ℕ
  ticks : Fin n → ℕ
  /-- the iterations of `for _ in 0..200` done -/
  iter : Fin n → ℕ
  pc : Fin n → Pc n R
  sched : Thread n m → Sched R
  issued : List R
  returned : List R
  dropped : List R

namespace Exec

/-- `Executor::new`; no worker has started. -/
def new : Exec n m R where
  queue := .unbound
  locals _ := .new 512 0
  stored _ := none
  wake := .new
  session _ := 0
  ticks _ := 0
  iter _ := 0
  pc _ := .unstarted
  sched _ := .idle
  issued := []
  returned := []
  dropped := []

/-- The ticker of the worker's session. -/
def ticker (s : Exec n m R) (w : Fin n) : Fin n × ℕ := (w, s.session w)

/-- Worker `w` goes to `p`. -/
def goto (s : Exec n m R) (w : Fin n) (p : Pc n R) : Exec n m R :=
  { s with pc := Function.update s.pc w p }

/-- The local queue of `q` becomes `l`. -/
def setLocal (s : Exec n m R) (q : Fin n) (l : Local (Fin n) R) : Exec n m R :=
  { s with locals := Function.update s.locals q l }

theorem setLocal_self (s : Exec n m R) (w : Fin n) (l : Local (Fin n) R) :
    (s.setLocal w l).locals w = l := Function.update_self _ _ _

/-- The call of `schedule` by `t` goes to `p`. -/
def setSched (s : Exec n m R) (t : Thread n m) (p : Sched R) : Exec n m R :=
  { s with sched := Function.update s.sched t p }

/-- A step of worker `w` in `pop` on the queue of `q`; `k` goes on with the result. -/
def popLocal (s : Exec n m R) (q w : Fin n) (k : Exec n m R → PopRes R → Exec n m R) :
    Option (Exec n m R) :=
  ((s.locals q).popNext w).map fun (l, res) =>
    match res with
    | none => s.setLocal q l
    | some res => k (s.setLocal q l) res

/-- A step of worker `w` in `len` on the queue of `q`. -/
def lenLocal (s : Exec n m R) (q w : Fin n) (k : Exec n m R → ℕ → Exec n m R) :
    Option (Exec n m R) :=
  ((s.locals q).lenNext w).map fun (l, res) =>
    match res with
    | none => s.setLocal q l
    | some length => k (s.setLocal q l) length

/-- A step of worker `w` in `push` on its own queue. -/
def pushLocal (s : Exec n m R) (w : Fin n) (k : Exec n m R → PushRes R → Exec n m R) :
    Option (Exec n m R) :=
  (s.locals w).pushNext.map fun (l, res) =>
    match res with
    | none => s.setLocal w l
    | some res => k (s.setLocal w l) res

/-! ## The workers -/

/-- `search` returns `r`: `tick` goes on with `self.wake()`. -/
def found (s : Exec n m R) (w : Fin n) (r : R) : Exec n m R :=
  { s with pc := Function.update s.pc w (.wakeSwap r), returned := s.returned ++ [r] }

/-- `steal` returns. -/
def resume (s : Exec n m R) (w : Fin n) : Cont R → Exec n m R
  | .found r => s.found w r
  | .shard iter => s.goto w (.popOwn (some iter))
  | .ticked r => s.goto w (.run r)

/-- `steal` with its argument `length`: half of it, rounded up. -/
def stealCount (s : Exec n m R) (w : Fin n) (src : Src n) (k : Cont R) (length : ℕ) : Exec n m R :=
  if length = 2 ^ 64 - 1 then s.goto w .abort
  else if 0 < (length + 1) / 2 then s.goto w (.steal src (.room ((length + 1) / 2)) k)
  else s.resume w k

/-- The steps of `steal` into the worker's own queue. -/
def steal (s : Exec n m R) (w : Fin n) (src : Src n) (k : Cont R) :
    StealPc R → Option (Exec n m R)
  | .length =>
    match src with
    | .global => some (s.stealCount w src k s.queue.len)
    | .shard q => s.lenLocal q w fun s length => s.stealCount w src k length
  | .room count => s.lenLocal w w fun s length =>
    if length ≤ (s.locals w).capacity then
      s.goto w (.steal src (.take (min count ((s.locals w).capacity - length))) k)
    else s.goto w .abort
  | .take 0 => some (s.resume w k)
  | .take (left + 1) =>
    match src with
    | .global =>
      match s.queue.pop with
      | none => some (s.resume w k)
      | some (t, queue) => some ({ s with queue := queue }.goto w (.steal src (.push left t) k))
    | .shard q => s.popLocal q w fun s res =>
      match res with
      | .ok (some t) => s.goto w (.steal src (.push left t) k)
      | .ok none => s.goto w .abort
      | .errorEmpty => s.resume w k
  | .push left t => ((s.locals w).pushCall t).map fun l =>
    (s.setLocal w l).goto w (.steal src (.pushing left) k)
  | .pushing left => s.pushLocal w fun s res =>
    match res with
    | .ok => s.goto w (.steal src (.take left) k)
    | .errorFull t => { s with dropped := s.dropped ++ [t] }.goto w (.steal src (.take left) k)

/-- The next slot of the iteration over the shards; a shard that is taken and is not
    the worker's own is stolen from. -/
def nextShard (s : Exec n m R) (w : Fin n) (iter : Shards) : Pc n R :=
  if iter.take = 0 then .sleep
  else if h : iter.pos < n then
    let next := { iter with pos := iter.pos + 1 }
    match s.stored ⟨iter.pos, h⟩ with
    | none => .shards next
    | some _ =>
      if 0 < iter.skip then .shards { next with skip := iter.skip - 1 }
      else
        let next := { next with take := iter.take - 1 }
        if iter.pos = w then .shards next
        else .steal (.shard ⟨iter.pos, h⟩) .length (.shard next)
  else if iter.second then .sleep
  else .shards { iter with second := true, pos := 0 }

/-- The next step of a worker inside a poll. -/
def work (s : Exec n m R) (w : Fin n) : Option (Exec n m R) :=
  match s.pc w with
  | .popOwn rest => s.popLocal w w fun s res =>
    match res with
    | .ok (some r) => s.found w r
    | .ok none => s.goto w .abort
    | .errorEmpty =>
      match rest with
      | none => s.goto w .popGlobal
      | some iter => s.goto w (.shards iter)
  | .popGlobal =>
    match s.queue.pop with
    | none => some (s.goto w .pickStart)
    | some (r, queue) =>
      some ({ s with queue := queue }.goto w (.steal .global .length (.found r)))
  | .shards iter => some (s.goto w (s.nextShard w iter))
  | .steal src st k => s.steal w src k st
  | .sleep => some ({ s with wake := s.wake.sleep (s.ticker w) }.goto w .ret)
  | .wakeSwap r =>
    let wake := s.wake.swap (s.ticker w)
    some ({ s with wake := wake }.goto w
      (if wake.waking (s.ticker w) = 0 then .notify r else .wakeLock r))
  | .wakeLock r => some ({ s with wake := s.wake.wakeLock (s.ticker w) }.goto w (.notify r))
  | .notify r =>
    let wake := s.wake.notify (.inl w)
    some ({ s with wake := wake }.goto w
      (if wake.calls (.inl w) = Call.idle then .bump r else .notify r))
  | .bump r =>
    some ({ s with ticks := Function.update s.ticks w (wrappingAdd (s.ticks w) 1) }.goto w
      (if s.ticks w % 64 = 0 then .steal .global .length (.ticked r) else .run r))
  | .yieldNow => some ({ s with wake := s.wake.wakeup (s.ticker w) }.goto w .ret)
  | .ret => some (s.goto w .pending)
  | .unstarted | .pickStart | .run _ | .pending | .abort => none

/-- The run future is polled; its first poll creates the `LocalQueue` of the thread,
    unless an earlier session has done so. -/
def poll (s : Exec n m R) (w : Fin n) : Option (Exec n m R) :=
  match s.pc w, s.sched (.inl w) with
  | .unstarted, .idle =>
    some ({ s with
      stored := Function.update s.stored w (some ((s.stored w).getD (s.session w)))
      wake := s.wake.poll (s.ticker w) }.goto w (.popOwn none))
  | .pending, .idle => some ({ s with wake := s.wake.poll (s.ticker w) }.goto w (.popOwn none))
  | _, _ => none

/-- The number of shards. -/
def shardCount (s : Exec n m R) : ℕ := (Finset.univ.filter fun q => (s.stored q).isSome).card

/-- The random starting point of `search`. -/
def start (s : Exec n m R) (w : Fin n) (k : ℕ) : Option (Exec n m R) :=
  match s.pc w with
  | .pickStart =>
    if k < s.shardCount then some (s.goto w (.shards ⟨false, 0, k, s.shardCount⟩)) else none
  | _ => none

/-- `runnable.run()` returns. -/
def finish (s : Exec n m R) (w : Fin n) : Option (Exec n m R) :=
  match s.pc w, s.sched (.inl w) with
  | .run _, .idle =>
    if s.iter w + 1 < 200 then
      some ({ s with iter := Function.update s.iter w (s.iter w + 1) }.goto w (.popOwn none))
    else some ({ s with iter := Function.update s.iter w 0 }.goto w .yieldNow)
  | _, _ => none

/-- `runnable.run()` panics: the worker starts a session with a new ticker. -/
def panic (s : Exec n m R) (w : Fin n) : Option (Exec n m R) :=
  match s.pc w, s.sched (.inl w) with
  | .run _, .idle =>
    some ({ s with
      session := Function.update s.session w (s.session w + 1)
      ticks := Function.update s.ticks w 0
      iter := Function.update s.iter w 0 }.goto w .unstarted)
  | _, _ => none

/-! ## `schedule` -/

end Exec

/-- The places at which a worker is not inside `search`, `steal` or `tick`. -/
def Pc.quiet : Pc n R → Bool
  | .unstarted | .run _ | .pending => true
  | _ => false

namespace Exec

/-- A thread may call `schedule`. -/
def free (s : Exec n m R) : Thread n m → Bool
  | .inl w => (s.pc w).quiet
  | .inr _ => true

/-- The steps of `schedule`. -/
def schedStep (s : Exec n m R) (t : Thread n m) : Option (Exec n m R) :=
  match s.sched t, t with
  | .enter r, .inl w =>
    match s.stored w with
    | some _ => ((s.locals w).pushCall r).map fun l => (s.setLocal w l).setSched t .pushing
    | none => some (s.setSched t (.pushGlobal r))
  | .enter r, .inr _ => some (s.setSched t (.pushGlobal r))
  | .pushing, .inl w => s.pushLocal w fun s res =>
    match res with
    | .ok => s.setSched t .wakeLocal
    | .errorFull r => s.setSched t (.pushGlobal r)
  | .wakeLocal, .inl w => (s.stored w).map fun k =>
    { s with wake := s.wake.wakeup (w, k) }.setSched t .idle
  | .pushGlobal r, _ =>
    match s.queue.push r with
    | some queue => some ({ s with queue := queue }.setSched t .notify)
    | none => some ({ s with dropped := s.dropped ++ [r] }.setSched t .abort)
  | .notify, _ =>
    let wake := s.wake.notify t
    some ({ s with wake := wake }.setSched t
      (if wake.calls t = Call.idle then .idle else .notify))
  | _, _ => none

/-- `schedule(r)` is called. -/
def schedule [DecidableEq R] (s : Exec n m R) (t : Thread n m) (r : R) : Option (Exec n m R) :=
  match s.sched t with
  | .idle =>
    if r ∉ s.issued ∧ s.free t then
      some ({ s with issued := s.issued ++ [r] }.setSched t (.enter r))
    else none
  | _ => none

/-! ## The system -/

/-- The moves of the workers and of the threads that call `schedule`. -/
inductive Act (n m : ℕ) (R : Type) where
  | poll (w : Fin n)
  | work (w : Fin n)
  | start (w : Fin n) (k : ℕ)
  | finish (w : Fin n)
  | panic (w : Fin n)
  | schedule (t : Thread n m) (r : R)
  | sched (t : Thread n m)

/-- One operation of a worker or of a call of `schedule`. -/
def step [DecidableEq R] (s : Exec n m R) : Act n m R → Option (Exec n m R)
  | .poll w => s.poll w
  | .work w => s.work w
  | .start w k => s.start w k
  | .finish w => s.finish w
  | .panic w => s.panic w
  | .schedule t r => s.schedule t r
  | .sched t => s.schedStep t

/-- `n` workers and `m` other threads. -/
def system [DecidableEq R] : Lts (Exec n m R) (Act n m R) where
  init s := s = new
  step := step

/-! ## What a step can be -/

variable {s s' : Exec n m R} {w : Fin n}

theorem popLocal_cases {q : Fin n} {k : Exec n m R → PopRes R → Exec n m R}
    (h : s.popLocal q w k = some s') : ∃ l,
      ((s.locals q).popNext w = some (l, none) ∧ s' = s.setLocal q l) ∨
      ∃ res, (s.locals q).popNext w = some (l, some res) ∧ s' = k (s.setLocal q l) res := by
  obtain ⟨⟨l, res⟩, hl, rfl⟩ := Option.map_eq_some_iff.1 h
  cases res with
  | none => exact ⟨l, Or.inl ⟨hl, rfl⟩⟩
  | some res => exact ⟨l, Or.inr ⟨res, hl, rfl⟩⟩

theorem lenLocal_cases {q : Fin n} {k : Exec n m R → ℕ → Exec n m R}
    (h : s.lenLocal q w k = some s') : ∃ l,
      ((s.locals q).lenNext w = some (l, none) ∧ s' = s.setLocal q l) ∨
      ∃ length, (s.locals q).lenNext w = some (l, some length) ∧
        s' = k (s.setLocal q l) length := by
  obtain ⟨⟨l, res⟩, hl, rfl⟩ := Option.map_eq_some_iff.1 h
  cases res with
  | none => exact ⟨l, Or.inl ⟨hl, rfl⟩⟩
  | some res => exact ⟨l, Or.inr ⟨res, hl, rfl⟩⟩

theorem pushLocal_cases {k : Exec n m R → PushRes R → Exec n m R}
    (h : s.pushLocal w k = some s') : ∃ l,
      ((s.locals w).pushNext = some (l, none) ∧ s' = s.setLocal w l) ∨
      ∃ res, (s.locals w).pushNext = some (l, some res) ∧ s' = k (s.setLocal w l) res := by
  obtain ⟨⟨l, res⟩, hl, rfl⟩ := Option.map_eq_some_iff.1 h
  cases res with
  | none => exact ⟨l, Or.inl ⟨hl, rfl⟩⟩
  | some res => exact ⟨l, Or.inr ⟨res, hl, rfl⟩⟩

/-- The iteration ends, or goes on, or finds a shard of another worker. -/
theorem nextShard_cases (s : Exec n m R) (w : Fin n) (iter : Shards) :
    s.nextShard w iter = .sleep ∨ (∃ it, s.nextShard w iter = .shards it) ∨
      ∃ q it, q ≠ w ∧ s.nextShard w iter = .steal (.shard q) .length (.shard it) := by
  unfold nextShard
  split
  · exact Or.inl rfl
  split
  next hpos =>
    dsimp only
    split
    · exact Or.inr (Or.inl ⟨_, rfl⟩)
    split
    · exact Or.inr (Or.inl ⟨_, rfl⟩)
    split
    · exact Or.inr (Or.inl ⟨_, rfl⟩)
    next hne => exact Or.inr (Or.inr ⟨_, _, fun h => hne (congrArg Fin.val h), rfl⟩)
  · split
    · exact Or.inl rfl
    · exact Or.inr (Or.inl ⟨_, rfl⟩)

end Exec
end Awak
