/-
  `IdleTimeout` of `util/idle_timeout.rs` over `Delay`, `Timer` and the timers
  of the reactor.

  Each reading of the clock, each drawing of an id and each push to `timer_ops`
  is one operation (a push to a full queue drains it first); between any two of
  them other threads insert and remove their own timers, the reactor drains the
  queue and fires timers, and time passes.  Wakers are compared with `will_wake`,
  which is equality of wakers.  Times are in nanoseconds, and an `Instant` that would
  be later than `instantMax` is a panic.

  * `Registered`: the reactor holds exactly the timer of the `Delay`, unless it
    has fired it;
  * `Rest`: what an `IdleTimeout` knows between two polls;
  * `idleness_measured`: when a poll times out, and what is registered when it
    does not.
-/
import Awak.Lib.Prog
import Awak.ProcessTimers
import Awak.Timer

namespace Awak

open History

variable {W α : Type}

/-! ## The reactor -/

/-- The timers of the reactor as one `Delay` sees them.  `issued` and `others` are
    history: the ids given to it, and to the other callers of `insert_timer`. -/
structure Reactor (W : Type) where
  timers : TimerStore.State W
  issued : List ℕ
  others : List ℕ

namespace Reactor

/-- Which timers are set: the map after all queued operations. -/
def agenda (r : Reactor W) : TimerKey → Option W := r.timers.store.agenda

/-- The timer with this key has been fired. -/
def Fired (r : Reactor W) (k : TimerKey) : Prop := k ∈ (taken r.timers.history).map Prod.fst

/-- `Instant::now()`. -/
def now : Prog (Reactor W) ℕ := .atom fun r => (r.timers.clock, r)

/-- `ID_GENERATOR.fetch_add(1)`. -/
def fetchId : Prog (Reactor W) ℕ :=
  .atom fun r => (r.timers.idGen, { r with
    timers := { r.timers with idGen := r.timers.idGen + 1 }
    issued := r.timers.idGen :: r.issued })

/-- `timer_ops.push(op)`, when it succeeds. -/
def push (op : TimerOp W) : Prog (Reactor W) Unit :=
  .atom fun r => ((), { r with timers := r.timers.push op })

/-- `Reactor::get().insert_timer(when, waker)`. -/
def insertTimer (when : ℕ) (waker : W) : Prog (Reactor W) ℕ := do
  let id ← fetchId
  push (.insert when id waker)
  return id

/-- `Reactor::get().remove_timer(when, id)`. -/
def removeTimer (when id : ℕ) : Prog (Reactor W) Unit := push (.remove when id)

end Reactor

/-! ## `Timer` and `Delay` -/

namespace Timer

open Reactor

/-- `Timer::poll_timeout`: the deadline if it has passed, and the reading of the
    clock. -/
def pollTimeout [DecidableEq W] (t : Timer W) (cx : W) :
    Prog (Reactor W) (Option ℕ × ℕ × Timer W) := do
  let now ← now
  if t.deadline ≤ now then
    if 0 < t.key then removeTimer t.deadline t.key
    return (some t.deadline, now, t)
  else
    match t.waker with
    | none =>
      let key ← insertTimer t.deadline cx
      return (none, now, { t with key := key, waker := some cx })
    | some w =>
      -- `will_wake`
      if w ≠ cx then
        removeTimer t.deadline t.key
        let key ← insertTimer t.deadline cx
        return (none, now, { t with key := key, waker := some cx })
      else return (none, now, t)

/-- `Timer::reset`. -/
def reset (t : Timer W) (when : ℕ) : Prog (Reactor W) (Timer W) :=
  match t.waker with
  | some waker => do
    removeTimer t.deadline t.key
    let key ← insertTimer when waker
    return { t with key := key, deadline := when }
  | none => return { t with deadline := when }

end Timer

/-- The latest `Instant`: an `i64` of seconds and the nanoseconds below one second. -/
def instantMax : ℕ := 2 ^ 63 * 10 ^ 9 - 1

/-- `instant + duration`, which panics on overflow. -/
def addDuration (instant duration : ℕ) : Prog (Reactor W) ℕ :=
  if instant + duration ≤ instantMax then return instant + duration else .panic

/-- `Delay`. -/
structure Delay (W : Type) where
  timer : Timer W

namespace Delay

open Reactor

/-- `delay_until`. -/
def delayUntil (deadline : ℕ) : Delay W := ⟨.new deadline⟩

/-- `delay_for`, with its reading of the clock. -/
def delayFor (duration : ℕ) : Prog (Reactor W) (Delay W × ℕ) := do
  let now ← now
  let deadline ← addDuration now duration
  return (delayUntil deadline, now)

/-- `Delay::poll`: whether it is ready, and the reading of the clock. -/
def poll [DecidableEq W] (d : Delay W) (cx : W) : Prog (Reactor W) (Bool × ℕ × Delay W) := do
  let (res, now, timer) ← d.timer.pollTimeout cx
  return (res.isSome, now, ⟨timer⟩)

/-- `Delay::reset`. -/
def reset (d : Delay W) (deadline : ℕ) : Prog (Reactor W) (Delay W) := do
  let timer ← d.timer.reset deadline
  return ⟨timer⟩

end Delay

/-! ## `IdleTimeout` -/

/-- `IdleTimeout`, without the inner future. -/
structure IdleTimeout (W : Type) where
  sleep : Delay W
  idleTimeout : ℕ
  checkInterval : ℕ
  lastVisited : ℕ

/-- What a poll has returned, with its readings of the clock: `check` in the timer,
    `now` after it, and whether it has reset the delay. -/
inductive Outcome (α W : Type) where
  | ready (v : α)
  | timedOut (check : ℕ)
  | pending (cx : W) (check now : ℕ) (reset : Bool)
  deriving DecidableEq

namespace IdleTimeout

open Reactor

/-- `IdleTimeout::new`, with the reading of the clock in `delay_for`. -/
def new (idleTimeout checkInterval : ℕ) : Prog (Reactor W) (IdleTimeout W × ℕ) := do
  let (sleep, c₁) ← Delay.delayFor idleTimeout
  let lastVisited ← now
  return (⟨sleep, idleTimeout, checkInterval, lastVisited⟩, c₁)

/-- `IdleTimeout::poll`; `inner` is what the inner future returns. -/
def poll [DecidableEq W] (f : IdleTimeout W) (inner : Option α) (cx : W) :
    Prog (Reactor W) (Outcome α W × IdleTimeout W) :=
  match inner with
  | some v => return (.ready v, f)
  | none => do
    let (ready, check, sleep) ← f.sleep.poll cx
    if ready then return (.timedOut check, { f with sleep := sleep })
    else
      let now ← now
      if f.checkInterval ≤ now - f.lastVisited then
        let deadline ← addDuration now f.idleTimeout
        let sleep ← sleep.reset deadline
        return (.pending cx check now true, { f with sleep := sleep, lastVisited := now })
      else return (.pending cx check now false, { f with sleep := sleep })

end IdleTimeout

/-! ## Registration -/

namespace Reactor

/-- The ids given out are distinct, and no timer has an id that is not given out. -/
structure Valid (r : Reactor W) : Prop where
  issued : ∀ id ∈ r.issued, id < r.timers.idGen
  others : ∀ id ∈ r.others, id < r.timers.idGen
  disjoint : ∀ id ∈ r.issued, id ∉ r.others
  keys : ∀ k, r.agenda k ≠ none → (ofLex k).2 < r.timers.idGen

/-- What the other threads, the reactor and the clock do: they leave the timers of
    the delay alone, except for firing them. -/
structure Rely (r r' : Reactor W) : Prop where
  valid : r.Valid → r'.Valid
  clock : r.timers.clock ≤ r'.timers.clock
  issued : r'.issued = r.issued
  fired : ∀ k, r.Fired k → r'.Fired k
  agenda : r.Valid → ∀ k, (ofLex k).2 ∈ r.issued →
    r'.agenda k = r.agenda k ∨ r'.agenda k = none ∧ r'.Fired k

/-- What each operation of the delay does. -/
def Guar (r r' : Reactor W) : Prop := r.Valid → r'.Valid

/-- No timer of the delay is set. -/
def Clear (r : Reactor W) : Prop := ∀ k, (ofLex k).2 ∈ r.issued → r.agenda k = none

/-- The timer of the delay is set, if it has a waker and has not been fired, and no
    other one is. -/
structure Registered (r : Reactor W) (t : Timer W) : Prop where
  only : ∀ k w, (ofLex k).2 ∈ r.issued → r.agenda k = some w →
    k = toLex (t.deadline, t.key) ∧ t.waker = some w
  set : ∀ w, t.waker = some w → t.key ∈ r.issued ∧
    (r.agenda (toLex (t.deadline, t.key)) = some w ∨ r.Fired (toLex (t.deadline, t.key)))

variable {r r' r'' : Reactor W} {t : Timer W} {E : Reactor W → Prop}

theorem Rely.rfl : Rely r r := ⟨id, le_rfl, by rfl, fun _ => id, fun _ _ _ => Or.inl (by rfl)⟩

theorem Rely.trans (h : Rely r r') (h' : Rely r' r'') : Rely r r'' where
  valid := h'.valid ∘ h.valid
  clock := h.clock.trans h'.clock
  issued := h'.issued.trans h.issued
  fired k hk := h'.fired k (h.fired k hk)
  agenda hv k hk := by
    rcases h'.agenda (h.valid hv) k (h.issued ▸ hk) with h₂ | h₂
    · rcases h.agenda hv k hk with h₁ | h₁
      · exact Or.inl (h₂.trans h₁)
      · exact Or.inr ⟨h₂.trans h₁.1, h'.fired k h₁.2⟩
    · exact Or.inr h₂

theorem Rely.clear (h : Rely r r') (hv : r.Valid) (hc : r.Clear) : r'.Clear := by
  intro k hk
  rw [h.issued] at hk
  rcases h.agenda hv k hk with ha | ha
  · exact ha.trans (hc k hk)
  · exact ha.1

theorem Rely.registered (h : Rely r r') (hv : r.Valid) (hr : r.Registered t) :
    r'.Registered t where
  only k w hk hw := by
    rw [h.issued] at hk
    rcases h.agenda hv k hk with ha | ha
    · exact hr.only k w hk (ha.symm.trans hw)
    · cases ha.1.symm.trans hw
  set w hw := by
    obtain ⟨hk, hset⟩ := hr.set w hw
    refine ⟨h.issued ▸ hk, ?_⟩
    rcases hset with hset | hset
    · rcases h.agenda hv (toLex (t.deadline, t.key)) hk with ha | ha
      · exact Or.inl (ha.trans hset)
      · exact Or.inr ha.2
    · exact Or.inr (h.fired _ hset)

/-- A `Timer` without a waker has no timer in the reactor. -/
theorem Registered.clear (h : r.Registered t) (hw : t.waker = none) : r.Clear := by
  intro k hk
  cases ha : r.agenda k with
  | none => rfl
  | some w => cases hw.symm.trans (h.only k w hk ha).2

theorem Clear.registered (h : r.Clear) (hw : t.waker = none) : r.Registered t := by
  refine ⟨fun k w hk ha => ?_, fun w hw' => ?_⟩
  · rw [h k hk] at ha
    cases ha
  · rw [hw] at hw'
    cases hw'

/-! ### The operations -/

theorem agenda_push (r : Reactor W) (op : TimerOp W) :
    agenda { r with timers := r.timers.push op } =
      Function.update r.agenda op.key op.event.value := by
  have hkey : op.event.key = op.key := by cases op <;> rfl
  rw [← hkey]
  exact (TimerStore.pushTimerOp_spec _ _ _).1

/-- Only an id that has been given out can be inserted. -/
theorem Valid.push (h : r.Valid) {op : TimerOp W}
    (hop : op.event.value ≠ none → (ofLex op.key).2 < r.timers.idGen) :
    Valid { r with timers := r.timers.push op } := by
  refine ⟨h.issued, h.others, h.disjoint, fun k hk => ?_⟩
  rw [agenda_push] at hk
  by_cases he : k = op.key
  · rw [he, Function.update_self] at hk
    rw [he]
    exact hop hk
  · rw [Function.update_of_ne he] at hk
    exact h.keys k hk

/-- A new id goes to the delay or to another caller. -/
theorem Valid.fetchId (h : r.Valid) {issued others : List ℕ}
    (hids : issued = r.timers.idGen :: r.issued ∧ others = r.others ∨
      issued = r.issued ∧ others = r.timers.idGen :: r.others) :
    Valid ⟨{ r.timers with idGen := r.timers.idGen + 1 }, issued, others⟩ := by
  have hnew : ∀ {l : List ℕ}, (∀ id ∈ l, id < r.timers.idGen) →
      ∀ id ∈ r.timers.idGen :: l, id < r.timers.idGen + 1 := by
    intro l hl id hid
    rcases List.mem_cons.1 hid with rfl | hid
    · exact Nat.lt_succ_self _
    · exact (hl id hid).trans (Nat.lt_succ_self _)
  have hold : ∀ {l : List ℕ}, (∀ id ∈ l, id < r.timers.idGen) →
      ∀ id ∈ l, id < r.timers.idGen + 1 :=
    fun hl id hid => (hl id hid).trans (Nat.lt_succ_self _)
  have hkeys : ∀ k, r.agenda k ≠ none → (ofLex k).2 < r.timers.idGen + 1 :=
    fun k hk => (h.keys k hk).trans (Nat.lt_succ_self _)
  rcases hids with ⟨rfl, rfl⟩ | ⟨rfl, rfl⟩
  · refine ⟨hnew h.issued, hold h.others, fun id hid hid' => ?_, hkeys⟩
    rcases List.mem_cons.1 hid with rfl | hid
    · exact absurd (h.others _ hid') (lt_irrefl _)
    · exact h.disjoint id hid hid'
  · refine ⟨hold h.issued, hnew h.others, fun id hid hid' => ?_, hkeys⟩
    rcases List.mem_cons.1 hid' with rfl | hid'
    · exact absurd (h.issued _ hid) (lt_irrefl _)
    · exact h.disjoint id hid hid'

/-- No timer has the new id yet. -/
theorem Clear.fetchId (h : r.Clear) (hv : r.Valid) : Clear { r with
    timers := { r.timers with idGen := r.timers.idGen + 1 }
    issued := r.timers.idGen :: r.issued } := by
  intro k hk
  change r.agenda k = none
  by_contra ha
  rcases List.mem_cons.1 hk with hk | hk
  · exact absurd (hv.keys k ha) (hk ▸ lt_irrefl _)
  · exact ha (h k hk)

/-- The timer of the delay is the only one, so removing it leaves none. -/
theorem Registered.remove (h : r.Registered t) :
    Clear { r with timers := r.timers.push (.remove t.deadline t.key) } := by
  have hset : agenda { r with timers := r.timers.push (.remove t.deadline t.key) } =
      Function.update r.agenda (toLex (t.deadline, t.key)) none := agenda_push r _
  intro k hk
  rw [hset]
  by_cases he : k = toLex (t.deadline, t.key)
  · rw [he, Function.update_self]
  · rw [Function.update_of_ne he]
    cases ha : r.agenda k with
    | none => rfl
    | some w => exact absurd (h.only k w hk ha).1 he

theorem Clear.insert (h : r.Clear) (when : ℕ) {id : ℕ} (hid : id ∈ r.issued) (waker : W) :
    Registered { r with timers := r.timers.push (.insert when id waker) }
      ⟨when, id, some waker⟩ := by
  have hset : agenda { r with timers := r.timers.push (.insert when id waker) } =
      Function.update r.agenda (toLex (when, id)) (some waker) := agenda_push r _
  refine ⟨fun k w hk ha => ?_, fun w hw => ⟨hid, Or.inl ?_⟩⟩
  · rw [hset] at ha
    by_cases he : k = toLex (when, id)
    · rw [he, Function.update_self] at ha
      exact ⟨he, ha⟩
    · rw [Function.update_of_ne he] at ha
      cases (h k hk).symm.trans ha
  · rw [hset, Function.update_self]
    exact hw

theorem wp_now {Q : ℕ → Reactor W → Prop} (hv : r.Valid)
    (h : ∀ r', Rely r r' → r'.Valid → Q r'.timers.clock r') : now.Wp Rely Guar E Q r :=
  Prog.Wp.atom fun r' hr => ⟨id, h r' hr (hr.valid hv)⟩

/-- `remove_timer` can be called with any key. -/
theorem wp_removeTimer {Q : Unit → Reactor W → Prop} (hv : r.Valid) (when id : ℕ)
    (h : ∀ r', Rely r r' → Valid { r' with timers := r'.timers.push (.remove when id) } →
      Q () { r' with timers := r'.timers.push (.remove when id) }) :
    (removeTimer when id).Wp Rely Guar E Q r := by
  refine Prog.Wp.atom fun r' hr => ?_
  have hvalid : ∀ r'' : Reactor W, r''.Valid →
      Valid { r'' with timers := r''.timers.push (.remove when id) } :=
    fun r'' hv'' => hv''.push fun hne => absurd rfl hne
  exact ⟨hvalid r', h r' hr (hvalid r' (hr.valid hv))⟩

/-- With no timer of the delay set, `insert_timer` registers one. -/
theorem wp_insertTimer {Q : ℕ → Reactor W → Prop} (hv : r.Valid) (hc : r.Clear) (when : ℕ)
    (waker : W) (h : ∀ id r', r'.Valid → r'.Registered ⟨when, id, some waker⟩ → Q id r') :
    (insertTimer when waker).Wp Rely Guar E Q r := by
  refine Prog.Wp.bind (Prog.Wp.atom fun r₁ hr₁ => ?_)
  have hv₁ := hr₁.valid hv
  have hfetch : ∀ r' : Reactor W, r'.Valid → Valid { r' with
      timers := { r'.timers with idGen := r'.timers.idGen + 1 }
      issued := r'.timers.idGen :: r'.issued } :=
    fun r' hv' => hv'.fetchId (Or.inl ⟨rfl, rfl⟩)
  have hc₁ := (hr₁.clear hv hc).fetchId hv₁
  refine ⟨hfetch r₁, Prog.Wp.bind (Prog.Wp.atom fun r₂ hr₂ => ?_)⟩
  have hv₂ := hr₂.valid (hfetch r₁ hv₁)
  have hid : r₁.timers.idGen ∈ r₂.issued := by
    rw [hr₂.issued]
    exact List.mem_cons_self
  have hpush : Valid { r₂ with
      timers := r₂.timers.push (.insert when r₁.timers.idGen waker) } :=
    hv₂.push fun _ => hv₂.issued _ hid
  exact ⟨fun _ => hpush, h _ _ hpush ((hr₂.clear (hfetch r₁ hv₁) hc₁).insert when hid waker)⟩

/-! ### The other threads -/

/-- What the other threads do: they draw ids and queue operations with them, the
    operations in the queue are applied to the map, the reactor fires the timers of
    the map that are due at a reading of the clock, and time passes. -/
inductive Move (W : Type) where
  | fetchId
  | push (op : TimerOp W)
  /-- `process_timer_ops`, with so many iterations left -/
  | drain (left : ℕ)
  /-- `process_timers`, after its reading of the clock -/
  | split (now : ℕ)
  | advance (d : ℕ)

/-- Fire the timers of the map that are due at `now`. -/
def split (r : Reactor W) (now : ℕ) : Reactor W :=
  let ready := r.timers.store.timers.ready now
  { r with timers := { r.timers with
      store := { r.timers.store with timers := r.timers.store.timers.pending now }
      wakers := r.timers.wakers ++ ready.values
      history := r.timers.history ++ ready.toList.map fun x => .take x.1 x.2 now } }

/-- Another thread drains queued operations into the map. -/
def drain (r : Reactor W) (left : ℕ) : Reactor W :=
  { r with timers := { r.timers with
      store := r.timers.store.drain left
      room := by rw [TimerStore.capacity_drain]; exact r.timers.room } }

/-- A move of the other threads: of the reactor, of other timers, and of the clock. -/
def move (r : Reactor W) : Move W → Option (Reactor W)
  | .fetchId => some { r with
      timers := { r.timers with idGen := r.timers.idGen + 1 }
      others := r.timers.idGen :: r.others }
  | .push op =>
    if (ofLex op.key).2 ∈ r.others then some { r with timers := r.timers.push op } else none
  | .drain left => some (r.drain left)
  | .split now => if now ≤ r.timers.clock then some (r.split now) else none
  | .advance d => some { r with timers := { r.timers with clock := r.timers.clock + d } }

theorem fired_append {l : List (Event TimerKey W ℕ)}
    (hl : r'.timers.history = r.timers.history ++ l) {k : TimerKey} (hk : r.Fired k) :
    r'.Fired k := by
  rw [Fired, hl, taken_append, List.map_append]
  exact List.mem_append_left _ hk

theorem agenda_drain (r : Reactor W) (left : ℕ) : (r.drain left).agenda = r.agenda :=
  TimerStore.agenda_drain left _

/-- The split takes timers out of the agenda, unless an operation on them is queued. -/
theorem agenda_split (r : Reactor W) (now : ℕ) (k : TimerKey) :
    (r.split now).agenda k = r.agenda k ∨
      (r.split now).agenda k = none ∧ (r.split now).Fired k := by
  rcases foldl_apply_cases (r.timers.store.ops.queue.map TimerOp.event)
    (fun k => (r.timers.store.timers.pending now)[k]?) (fun k => r.timers.store.timers[k]?) k
    with heq | ⟨hpending, hold⟩
  · exact Or.inl heq
  · have hsplit : (r.split now).agenda k =
        if (ofLex k).1 < now then none else r.timers.store.timers[k]? :=
      hpending.trans (TimerMap.getElem?_pending ..)
    by_cases hlt : (ofLex k).1 < now
    · rw [if_pos hlt] at hsplit
      cases hk : r.timers.store.timers[k]? with
      | none => exact Or.inl (hsplit.trans (hold.trans hk).symm)
      | some w =>
        refine Or.inr ⟨hsplit, List.mem_map.2 ⟨(k, w), ?_, rfl⟩⟩
        change (k, w) ∈ taken (r.timers.history ++ _)
        rw [taken_append, taken_map_take]
        refine List.mem_append_right _ (Std.TreeMap.mem_toList_iff_getElem?_eq_some.2 ?_)
        rw [TimerMap.getElem?_ready, if_pos hlt, hk]
    · rw [if_neg hlt] at hsplit
      exact Or.inl (hsplit.trans hold.symm)

/-- The other threads keep to `Rely`. -/
theorem rely_move {m : Move W} (h : r.move m = some r') : Rely r r' := by
  cases m with
  | fetchId =>
    cases h
    exact ⟨fun hv => hv.fetchId (Or.inr ⟨rfl, rfl⟩), le_rfl, rfl, fun _ => id,
      fun _ _ _ => Or.inl rfl⟩
  | push op =>
    obtain ⟨hop, h⟩ := Option.ite_none_right_eq_some.1 h
    cases h
    refine ⟨fun hv => hv.push fun _ => hv.others _ hop, le_rfl, rfl, fun k => fired_append rfl,
      fun hv k hk => Or.inl ?_⟩
    have hne : k ≠ op.key := by
      rintro rfl
      exact hv.disjoint _ hk hop
    rw [agenda_push, Function.update_of_ne hne]
  | drain left =>
    cases h
    refine ⟨fun hv => ⟨hv.issued, hv.others, hv.disjoint, fun k hk => hv.keys k ?_⟩, le_rfl, rfl,
      fun _ => id, fun _ k _ => Or.inl (congrFun (agenda_drain r left) k)⟩
    rwa [agenda_drain] at hk
  | split now =>
    obtain ⟨-, h⟩ := Option.ite_none_right_eq_some.1 h
    cases h
    refine ⟨fun hv => ⟨hv.issued, hv.others, hv.disjoint, fun k hk => hv.keys k ?_⟩, le_rfl, rfl,
      fun k => fired_append rfl, fun _ k _ => agenda_split r now k⟩
    rcases agenda_split r now k with heq | ⟨hnone, -⟩
    · rwa [heq] at hk
    · exact absurd hnone hk
  | advance d =>
    cases h
    exact ⟨fun hv => ⟨hv.issued, hv.others, hv.disjoint, hv.keys⟩, Nat.le_add_right _ _, rfl,
      fun _ => id, fun _ _ _ => Or.inl rfl⟩

theorem valid_new (now : ℕ) : Valid (⟨.new now, [], []⟩ : Reactor W) := by
  refine ⟨by simp, by simp, by simp, fun k hk => absurd ?_ hk⟩
  exact Std.TreeMap.getElem?_emptyc

end Reactor

/-! ## `Timer` and `Delay` among other threads -/

open Reactor (Rely Guar)

section Calls
variable {r : Reactor W} {t : Timer W} {E : Reactor W → Prop}

/-- The sum, or a panic. -/
theorem wp_addDuration {Q : ℕ → Reactor W → Prop} {instant duration : ℕ}
    (hsum : instant + duration ≤ instantMax → Q (instant + duration) r)
    (hover : instantMax < instant + duration → E r) :
    (addDuration instant duration).Wp Rely Guar E Q r := by
  unfold addDuration
  split_ifs with h
  · exact Prog.Wp.pure (hsum h)
  · exact Prog.Wp.panic (hover (not_le.1 h))

/-- `remove_timer` of the registered timer, followed by `insert_timer`. -/
theorem Timer.wp_replace {β : Type} {Q : β → Reactor W → Prop} (hv : r.Valid)
    (hr : r.Registered t) (when : ℕ) (waker : W) {k : ℕ → Prog (Reactor W) β}
    (h : ∀ id r', r'.Valid → r'.Registered ⟨when, id, some waker⟩ → (k id).Wp Rely Guar E Q r') :
    (do
      Reactor.removeTimer t.deadline t.key
      let key ← Reactor.insertTimer when waker
      k key).Wp Rely Guar E Q r := by
  refine Prog.Wp.bind (Reactor.wp_removeTimer hv _ _ fun r₁ hr₁ hv₁ => ?_)
  have hclear := (hr₁.registered hv hr).remove
  exact Prog.Wp.bind (Reactor.wp_insertTimer hv₁ hclear when waker h)

/-- `reset` moves the registration. -/
theorem Timer.wp_reset (hv : r.Valid) (hr : r.Registered t) (when : ℕ) :
    (t.reset when).Wp Rely Guar E (fun t' r' => r'.Valid ∧ r'.Registered t' ∧
      t'.deadline = when ∧ t'.waker = t.waker) r := by
  obtain ⟨deadline, key, waker⟩ := t
  cases waker with
  | none => exact Prog.Wp.pure ⟨hv, (hr.clear rfl).registered rfl, rfl, rfl⟩
  | some w =>
    exact Timer.wp_replace hv hr when w fun id r' hv' hr' => Prog.Wp.pure ⟨hv', hr', rfl, rfl⟩

variable [DecidableEq W]

/-- What `poll_timeout` returns: `Ready` exactly if the reading of the clock has
    reached the deadline, else the timer is registered with the given waker. -/
structure Timer.Polled (t : Timer W) (cx : W) (out : Option ℕ × ℕ × Timer W) (r : Reactor W) :
    Prop where
  valid : r.Valid
  ready : out.1.isSome ↔ t.deadline ≤ out.2.1
  pending : out.1.isSome = false → r.Registered out.2.2 ∧ out.2.2.deadline = t.deadline ∧
    out.2.2.waker = some cx

theorem Timer.wp_pollTimeout (hv : r.Valid) (hr : r.Registered t) (cx : W) :
    (t.pollTimeout cx).Wp Rely Guar E (t.Polled cx) r := by
  refine Prog.Wp.bind (Reactor.wp_now hv fun r₁ hr₁ hv₁ => ?_)
  have hreg := hr₁.registered hv hr
  obtain ⟨deadline, key, waker⟩ := t
  by_cases hd : deadline ≤ r₁.timers.clock
  · simp only [hd, if_true]
    split_ifs
    · refine Prog.Wp.bind (Reactor.wp_removeTimer hv₁ _ _ fun r₂ hr₂ hv₂ => ?_)
      exact Prog.Wp.pure ⟨hv₂, by simp [hd], by simp⟩
    · exact Prog.Wp.pure ⟨hv₁, by simp [hd], by simp⟩
  · simp only [hd, if_false]
    cases waker with
    | none =>
      refine Prog.Wp.bind (Reactor.wp_insertTimer hv₁ (hreg.clear rfl) _ _ fun id r₂ hv₂ hr₂ => ?_)
      exact Prog.Wp.pure ⟨hv₂, by simp [hd], fun _ => ⟨hr₂, rfl, rfl⟩⟩
    | some w =>
      simp only [ne_eq, ite_not]
      split_ifs with hw
      · exact Prog.Wp.pure ⟨hv₁, by simp [hd], fun _ => ⟨hreg, rfl, by rw [hw]⟩⟩
      · refine Timer.wp_replace hv₁ hreg deadline cx fun id r₂ hv₂ hr₂ => ?_
        exact Prog.Wp.pure ⟨hv₂, by simp [hd], fun _ => ⟨hr₂, rfl, rfl⟩⟩

end Calls

/-! ## Polls -/

/-- The reading of the clock at which a poll has reset the delay. -/
def Outcome.resetAt : Outcome α W → Option ℕ
  | .pending _ _ now true => some now
  | _ => none

/-- The reading of the clock in the timer check. -/
def Outcome.check : Outcome α W → Option ℕ
  | .ready _ => none
  | .timedOut check | .pending _ check _ _ => some check

namespace IdleTimeout

/-- When the delay was last reset, `c` if it never was. -/
def lastReset (c : ℕ) (polls : List (Outcome α W)) : ℕ :=
  polls.foldl (fun r o => o.resetAt.getD r) c

theorem lastReset_concat (c : ℕ) (polls : List (Outcome α W)) (o : Outcome α W) :
    lastReset c (polls ++ [o]) = o.resetAt.getD (lastReset c polls) := by
  rw [lastReset, List.foldl_append]
  rfl

/-- Two readings before any reset are forgotten at the first one. -/
theorem lastReset_cases (c₁ c₂ : ℕ) (polls : List (Outcome α W)) :
    lastReset c₁ polls = lastReset c₂ polls ∨
      lastReset c₁ polls = c₁ ∧ lastReset c₂ polls = c₂ := by
  induction polls using List.reverseRecOn with
  | nil => exact Or.inr ⟨rfl, rfl⟩
  | append_singleton polls o ih =>
    rw [lastReset_concat, lastReset_concat]
    cases o.resetAt with
    | none => exact ih
    | some now => exact Or.inl rfl

section Spec
variable (idle check c₁ c₂ : ℕ)

/-- What a poll after the polls `pre` returns. -/
structure PollOk (pre : List (Outcome α W)) (o : Outcome α W) : Prop where
  /-- the future is not polled again once it is ready -/
  before : ∀ o' ∈ pre, ∃ cx s m reset, o' = .pending cx s m reset
  timedOut : ∀ s, o = .timedOut s → lastReset c₁ pre + idle ≤ s
  pending : ∀ cx s m reset, o = .pending cx s m reset →
    s < lastReset c₁ pre + idle ∧ (reset = true ↔ check ≤ m - lastReset c₂ pre)

/-- An `IdleTimeout` between two polls, after the polls `polls`. -/
structure Rest (polls : List (Outcome α W)) (f : IdleTimeout W) (r : Reactor W) : Prop where
  timeout : f.idleTimeout = idle
  interval : f.checkInterval = check
  deadline : f.sleep.timer.deadline = lastReset c₁ polls + idle
  visited : f.lastVisited = lastReset c₂ polls
  registered : r.Registered f.sleep.timer
  pending : ∀ o ∈ polls, ∃ cx s m reset, o = .pending cx s m reset
  waker : ∀ pre cx s m reset, polls = pre ++ [.pending cx s m reset] →
    f.sleep.timer.waker = some cx

variable {idle check c₁ c₂} {polls : List (Outcome α W)} {f : IdleTimeout W} {r r' : Reactor W}

/-- A sum of times may be out of range in `new` and in `poll`. -/
abbrev MayPanic : Reactor W → Prop := fun _ => True

theorem Rest.rely (h : Rest idle check c₁ c₂ polls f r) (hv : r.Valid) (hr : Rely r r') :
    Rest idle check c₁ c₂ polls f r' :=
  { h with registered := hr.registered hv h.registered }

/-- What a poll leaves: the next poll is as specified, and if it has to go on the
    `IdleTimeout` rests again. -/
def PollPost (idle check c₁ c₂ : ℕ) (polls : List (Outcome α W))
    (out : Outcome α W × IdleTimeout W) (r : Reactor W) : Prop :=
  PollOk idle check c₁ c₂ polls out.1 ∧
    ((∃ cx s m reset, out.1 = .pending cx s m reset) →
      Rest idle check c₁ c₂ (polls ++ [out.1]) out.2 r)

/-- A poll that returns `Pending` at the reading `m`. -/
theorem PollPost.pending (h : Rest idle check c₁ c₂ polls f r) {cx : W} {s m : ℕ} {reset : Bool}
    (hlt : s < lastReset c₁ polls + idle)
    (hreset : reset = true ↔ f.checkInterval ≤ m - f.lastVisited)
    {timer : Timer W} (hreg : r'.Registered timer) (hwaker : timer.waker = some cx)
    (hdeadline : timer.deadline = (if reset then m else lastReset c₁ polls) + idle) :
    PollPost (α := α) idle check c₁ c₂ polls (.pending cx s m reset,
      ⟨⟨timer⟩, f.idleTimeout, f.checkInterval, if reset then m else f.lastVisited⟩) r' := by
  have hlast : ∀ c, lastReset c (polls ++ [.pending cx s m reset]) =
      if reset then m else lastReset c polls := by
    intro c
    rw [lastReset_concat]
    cases reset <;> rfl
  refine ⟨⟨h.pending, fun _ hs => ?_, fun cx' s' m' reset' hs => ?_⟩, fun _ => ?_⟩
  · cases hs
  · cases hs
    rw [h.interval, h.visited] at hreset
    exact ⟨hlt, hreset⟩
  · refine ⟨h.timeout, h.interval, ?_, ?_, hreg, fun o ho => ?_, fun pre cx' s' m' reset' hp => ?_⟩
    · rw [hlast, ← hdeadline]
    · rw [hlast, ← h.visited]
    · rcases List.mem_append.1 ho with ho | ho
      · exact h.pending o ho
      · exact ⟨cx, s, m, reset, List.mem_singleton.1 ho⟩
    · obtain ⟨-, hp⟩ := List.append_inj' hp rfl
      cases hp
      exact hwaker

theorem wp_poll [DecidableEq W] (h : Rest idle check c₁ c₂ polls f r) (hv : r.Valid)
    (inner : Option α) (cx : W) :
    (f.poll inner cx).Wp Rely Guar MayPanic (PollPost idle check c₁ c₂ polls) r := by
  cases inner with
  | some v =>
    refine Prog.Wp.pure ⟨⟨h.pending, fun s hs => ?_, fun _ _ _ _ hs => ?_⟩, fun hp => ?_⟩
    · cases hs
    · cases hs
    · obtain ⟨_, _, _, _, hp⟩ := hp
      cases hp
  | none =>
    refine Prog.Wp.bind (Prog.Wp.bind
      ((Timer.wp_pollTimeout hv h.registered cx).mono fun out r₁ hp => ?_))
    obtain ⟨res, s, timer⟩ := out
    obtain ⟨hv₁, hready, hpending⟩ := hp
    rw [h.deadline] at hready
    refine Prog.Wp.pure ?_
    dsimp only at hready hpending ⊢
    cases hres : res.isSome with
    | true =>
      refine Prog.Wp.pure ⟨⟨h.pending, fun s' hs => ?_, fun _ _ _ _ hs => ?_⟩, fun hp => ?_⟩
      · cases hs
        exact hready.1 hres
      · cases hs
      · obtain ⟨_, _, _, _, hp⟩ := hp
        cases hp
    | false =>
      obtain ⟨hreg, hdeadline, hwaker⟩ := hpending hres
      have hlt : s < lastReset c₁ polls + idle := by
        rw [← not_le, ← hready, hres]
        exact Bool.false_ne_true
      refine Prog.Wp.bind (Reactor.wp_now hv₁ fun r₂ hr₂ hv₂ => ?_)
      have hreg₂ := hr₂.registered hv₁ hreg
      split_ifs with hcheck
      · refine Prog.Wp.bind (wp_addDuration (fun _ => ?_) fun _ => trivial)
        refine Prog.Wp.bind (Prog.Wp.bind ((Timer.wp_reset hv₂ hreg₂ _).mono fun t' r₃ ht => ?_))
        obtain ⟨-, hreg₃, hdeadline₃, hwaker₃⟩ := ht
        refine Prog.Wp.pure (PollPost.pending h hlt (by simp [hcheck]) hreg₃
          (hwaker₃.trans hwaker) ?_)
        rw [hdeadline₃, h.timeout, if_pos rfl]
      · refine Prog.Wp.pure (PollPost.pending h hlt (by simp [hcheck]) hreg₂ hwaker ?_)
        rw [hdeadline, h.deadline]
        rfl

/-- What `new` leaves: an `IdleTimeout` that has not been polled. -/
def NewPost (α : Type) (idle check : ℕ) (out : IdleTimeout W × ℕ) (r : Reactor W) : Prop :=
  out.2 ≤ out.1.lastVisited ∧
    Rest idle check out.2 out.1.lastVisited ([] : List (Outcome α W)) out.1 r

theorem wp_new (hv : r.Valid) (hissued : r.issued = []) :
    (IdleTimeout.new idle check).Wp Rely Guar MayPanic (NewPost α idle check) r := by
  refine Prog.Wp.bind (Prog.Wp.bind (Reactor.wp_now hv fun r₁ hr₁ hv₁ => ?_))
  refine Prog.Wp.bind (wp_addDuration (fun _ => ?_) fun _ => trivial)
  refine Prog.Wp.pure (Prog.Wp.bind (Reactor.wp_now hv₁ fun r₂ hr₂ hv₂ => ?_))
  have hclear : r₂.Clear := by
    intro k hk
    rw [hr₂.issued, hr₁.issued, hissued] at hk
    cases hk
  refine Prog.Wp.pure ⟨hr₂.clock, rfl, rfl, rfl, rfl, hclear.registered rfl, by simp, ?_⟩
  intro pre cx s m reset hp
  simp at hp

end Spec

end IdleTimeout

/-! ## Sequences of polls -/

/-- Where the owner of an `IdleTimeout` is. -/
inductive IdleTimeout.Place (α W : Type) where
  | unborn
  /-- in `new` -/
  | new (p : Prog (Reactor W) (IdleTimeout W × ℕ))
  | rest (f : IdleTimeout W)
  /-- in `poll` -/
  | poll (p : Prog (Reactor W) (Outcome α W × IdleTimeout W))
  /-- the future is ready -/
  | done

/-- An `IdleTimeout` among other threads, with the readings of the clock in `new` and
    what its polls have returned. -/
structure Idling (α W : Type) where
  reactor : Reactor W
  place : IdleTimeout.Place α W
  c₁ : ℕ
  c₂ : ℕ
  polls : List (Outcome α W)

namespace Idling

open IdleTimeout

/-- The moves: the `IdleTimeout` is created and polled, its owner does the next
    operation of the call, another thread moves. -/
inductive Act (α W : Type) where
  | new
  | poll (inner : Option α) (cx : W)
  | next
  | other (m : Reactor.Move W)

/-- Go on with `new`. -/
def creating (x : Idling α W) : Prog (Reactor W) (IdleTimeout W × ℕ) → Idling α W
  | .ret (f, c₁) => { x with place := .rest f, c₁ := c₁, c₂ := f.lastVisited }
  | p => { x with place := .new p }

/-- A poll has returned. -/
def returned (x : Idling α W) : Outcome α W × IdleTimeout W → Idling α W
  | (.pending cx check now reset, f) =>
    { x with place := .rest f, polls := x.polls ++ [.pending cx check now reset] }
  | (o, _) => { x with place := .done, polls := x.polls ++ [o] }

/-- Go on with `poll`. -/
def polling (x : Idling α W) : Prog (Reactor W) (Outcome α W × IdleTimeout W) → Idling α W
  | .ret out => x.returned out
  | p => { x with place := .poll p }

/-- The next operation of the call in progress. -/
def next (x : Idling α W) : Option (Idling α W) :=
  match x.place with
  | .new (.act next upd) =>
    some ({ x with reactor := upd x.reactor }.creating (next x.reactor))
  | .poll (.act next upd) =>
    some ({ x with reactor := upd x.reactor }.polling (next x.reactor))
  | _ => none

/-- One operation of the call in progress, a call, or a move of the others. -/
def step [DecidableEq W] (idle check : ℕ) (x : Idling α W) : Act α W → Option (Idling α W)
  | .new =>
    match x.place with
    | .unborn => some (x.creating (IdleTimeout.new idle check))
    | _ => none
  | .poll inner cx =>
    match x.place with
    | .rest f => some (x.polling (f.poll inner cx))
    | _ => none
  | .next => x.next
  | .other m => (x.reactor.move m).map fun r => { x with reactor := r }

/-- No `IdleTimeout` has been made. -/
def init (now : ℕ) : Idling α W := ⟨⟨.new now, [], []⟩, .unborn, 0, 0, []⟩

/-- One `IdleTimeout` among others that use the reactor. -/
def system [DecidableEq W] (now idle check : ℕ) : Lts (Idling α W) (Act α W) where
  init x := x = init now
  step := step idle check

/-- The `IdleTimeout` between two polls. -/
def resting (x : Idling α W) : Option (IdleTimeout W) :=
  match x.place with
  | .rest f => some f
  | _ => none

/-- What is known at each place. -/
def PlaceOk (idle check : ℕ) (x : Idling α W) : Prop :=
  match x.place with
  | .unborn => x.reactor.issued = [] ∧ x.polls = []
  | .new p => (∀ out, p ≠ .ret out) ∧
    p.Wp Rely Guar MayPanic (NewPost α idle check) x.reactor ∧ x.polls = []
  | .rest f => Rest idle check x.c₁ x.c₂ x.polls f x.reactor
  | .poll p => (∀ out, p ≠ .ret out) ∧
    p.Wp Rely Guar MayPanic (PollPost idle check x.c₁ x.c₂ x.polls) x.reactor
  | .done => True

/-- The invariant: the polls so far agree with the clock, and the object with the polls. -/
structure Inv (idle check : ℕ) (x : Idling α W) : Prop where
  valid : x.reactor.Valid
  readings : x.c₁ ≤ x.c₂
  polls : Each (PollOk idle check x.c₁ x.c₂) x.polls
  place : PlaceOk idle check x

namespace Inv

variable {idle check now : ℕ} {x y : Idling α W}

/-- `new` goes on. -/
theorem creating (hv : x.reactor.Valid) (hle : x.c₁ ≤ x.c₂) (hpolls : x.polls = [])
    {p : Prog (Reactor W) (IdleTimeout W × ℕ)}
    (hp : p.Wp Rely Guar MayPanic (NewPost α idle check) x.reactor) :
    Inv idle check (x.creating p) := by
  have heach : ∀ c₁ c₂, Each (PollOk idle check c₁ c₂) x.polls := by
    intro c₁ c₂
    rw [hpolls]
    exact each_nil
  cases p with
  | ret out =>
    obtain ⟨f, c₁⟩ := out
    obtain ⟨hreadings, hrest⟩ := hp
    refine ⟨hv, hreadings, heach _ _, ?_⟩
    change Rest idle check c₁ f.lastVisited x.polls f x.reactor
    rw [hpolls]
    exact hrest
  | panic => exact ⟨hv, hle, heach _ _, by simp, hp, hpolls⟩
  | act next upd => exact ⟨hv, hle, heach _ _, by simp, hp, hpolls⟩

/-- `poll` goes on. -/
theorem polling (hv : x.reactor.Valid) (hle : x.c₁ ≤ x.c₂)
    (heach : Each (PollOk idle check x.c₁ x.c₂) x.polls)
    {p : Prog (Reactor W) (Outcome α W × IdleTimeout W)}
    (hp : p.Wp Rely Guar MayPanic (PollPost idle check x.c₁ x.c₂ x.polls) x.reactor) :
    Inv idle check (x.polling p) := by
  cases p with
  | ret out =>
    obtain ⟨o, f⟩ := out
    obtain ⟨hok, hrest⟩ := hp
    cases o with
    | ready v => exact ⟨hv, hle, heach.concat hok, trivial⟩
    | timedOut s => exact ⟨hv, hle, heach.concat hok, trivial⟩
    | pending cx s m reset =>
      exact ⟨hv, hle, heach.concat hok, hrest ⟨cx, s, m, reset, rfl⟩⟩
  | panic => exact ⟨hv, hle, heach, by simp, hp⟩
  | act next upd => exact ⟨hv, hle, heach, by simp, hp⟩

/-- Another thread moves. -/
theorem other (h : Inv idle check x) {r : Reactor W} (hr : Rely x.reactor r) :
    Inv idle check { x with reactor := r } := by
  refine ⟨hr.valid h.valid, h.readings, h.polls, ?_⟩
  have hplace := h.place
  unfold PlaceOk at hplace ⊢
  dsimp only
  cases hx : x.place with
  | unborn =>
    rw [hx] at hplace
    exact ⟨hr.issued.trans hplace.1, hplace.2⟩
  | new p =>
    rw [hx] at hplace
    obtain ⟨hne, hp, hpolls⟩ := hplace
    exact ⟨hne, hp.rely (fun _ _ _ h => h.trans) (fun _ _ _ _ => trivial) hne hr, hpolls⟩
  | rest f =>
    rw [hx] at hplace
    exact Rest.rely hplace h.valid hr
  | poll p =>
    rw [hx] at hplace
    obtain ⟨hne, hp⟩ := hplace
    exact ⟨hne, hp.rely (fun _ _ _ h => h.trans) (fun _ _ _ _ => trivial) hne hr⟩
  | done => trivial

theorem next (h : Inv idle check x) (hs : x.next = some y) : Inv idle check y := by
  have hplace := h.place
  unfold Idling.next at hs
  split at hs
  next next upd hx =>
    cases hs
    rw [PlaceOk, hx] at hplace
    obtain ⟨-, hp, hpolls⟩ := hplace
    obtain ⟨hguar, hp⟩ := hp x.reactor .rfl
    exact creating (x := { x with reactor := upd x.reactor }) (hguar h.valid) h.readings hpolls hp
  next next upd hx =>
    cases hs
    rw [PlaceOk, hx] at hplace
    obtain ⟨hguar, hp⟩ := hplace.2 x.reactor .rfl
    exact polling (x := { x with reactor := upd x.reactor }) (hguar h.valid) h.readings h.polls hp
  next => cases hs

theorem step [DecidableEq W] (h : Inv idle check x) {a : Act α W}
    (hs : Idling.step idle check x a = some y) : Inv idle check y := by
  have hplace := h.place
  cases a with
  | new =>
    simp only [Idling.step] at hs
    split at hs <;> cases hs
    next hx =>
      rw [PlaceOk, hx] at hplace
      exact creating h.valid h.readings hplace.2 (wp_new h.valid hplace.1)
  | poll inner cx =>
    simp only [Idling.step] at hs
    split at hs <;> cases hs
    next f hx =>
      rw [PlaceOk, hx] at hplace
      exact polling h.valid h.readings h.polls (wp_poll hplace h.valid inner cx)
  | next => exact h.next hs
  | other m =>
    obtain ⟨r, hr, rfl⟩ := Option.map_eq_some_iff.1 hs
    exact h.other (Reactor.rely_move hr)

theorem init (now idle check : ℕ) : Inv idle check (init now : Idling α W) :=
  ⟨Reactor.valid_new now, le_rfl, each_nil, rfl, rfl⟩

end Inv

variable {idle check now : ℕ} {x : Idling α W}

theorem inv_reach [DecidableEq W] (h : (system now idle check).Reachable x) :
    Inv idle check x :=
  h.inv (fun _ hs => hs ▸ .init now idle check) fun _ _ _ _ hi _ hs => hi.step hs

/-- A poll times out exactly if the reading in its timer check has reached the
    deadline. -/
theorem Inv.timedOut_iff (h : Inv idle check x) {pre post : List (Outcome α W)}
    {o : Outcome α W} (hpolls : x.polls = pre ++ o :: post) {s : ℕ} (hs : o.check = some s) :
    o = .timedOut s ↔ lastReset x.c₁ pre + idle ≤ s := by
  have hok := h.polls pre o post hpolls
  cases o with
  | ready v => cases hs
  | timedOut =>
    cases hs
    exact iff_of_true rfl (hok.timedOut s rfl)
  | pending cx _ m reset =>
    cases hs
    have hlt := (hok.pending cx s m reset rfl).1
    exact iff_of_false (by simp) (by omega)

/-- The time from the end of the previous poll to the timer check of one that times out. -/
theorem Inv.gap (h : Inv idle check x) (hcheck : 0 < check) {pre post : List (Outcome α W)}
    {o : Outcome α W} {s : ℕ} (hpolls : x.polls = pre ++ o :: .timedOut s :: post) :
    ∃ cx u m reset, o = .pending cx u m reset ∧ (idle : ℤ) - check - (x.c₂ - x.c₁) < s - m := by
  have hsplit : x.polls = (pre ++ [o]) ++ .timedOut s :: post := by
    rw [hpolls, List.append_assoc]
    rfl
  have hout := h.polls _ _ _ hsplit
  obtain ⟨cx, u, m, reset, rfl⟩ := hout.before o (by simp)
  refine ⟨cx, u, m, reset, rfl, ?_⟩
  have hdue := hout.timedOut s rfl
  have hreset := ((h.polls _ _ _ hpolls).pending cx u m reset rfl).2
  have hreadings := h.readings
  rw [lastReset_concat] at hdue
  cases reset with
  | true =>
    change m + idle ≤ s at hdue
    omega
  | false =>
    change lastReset x.c₁ pre + idle ≤ s at hdue
    have hvisited : ¬ check ≤ m - lastReset x.c₂ pre := fun hle => by simpa using hreset.2 hle
    rcases lastReset_cases x.c₁ x.c₂ pre with heq | ⟨h₁, h₂⟩
    · omega
    · omega

/-- Between two polls the reactor has the timer of the delay, unless it has fired it. -/
theorem Inv.registration (h : Inv idle check x) {f : IdleTimeout W} (hf : x.resting = some f)
    {pre : List (Outcome α W)} {cx : W} {s m : ℕ} {reset : Bool}
    (hpolls : x.polls = pre ++ [.pending cx s m reset]) :
    f.sleep.timer.deadline = lastReset x.c₁ x.polls + idle ∧
      f.sleep.timer.key ∈ x.reactor.issued ∧
      (¬ x.reactor.Fired (toLex (f.sleep.timer.deadline, f.sleep.timer.key)) →
        x.reactor.agenda (toLex (f.sleep.timer.deadline, f.sleep.timer.key)) = some cx) ∧
      ∀ k, (ofLex k).2 ∈ x.reactor.issued → x.reactor.agenda k ≠ none →
        k = toLex (f.sleep.timer.deadline, f.sleep.timer.key) := by
  have hplace := h.place
  unfold resting at hf
  split at hf <;> cases hf
  next hx =>
    rw [PlaceOk, hx] at hplace
    obtain ⟨hissued, hset⟩ := hplace.registered.set cx (hplace.waker pre cx s m reset hpolls)
    refine ⟨hplace.deadline, hissued, hset.resolve_right, fun k hk hne => ?_⟩
    obtain ⟨w, hw⟩ := Option.ne_none_iff_exists'.1 hne
    exact (hplace.registered.only k w hk hw).1

/-- **Idleness is measured between polls.** Let `R` be the end of the last poll that
    has reset the delay, or the reading of `delay_for`.  A poll times out exactly if
    its timer check is at `R + idle` or later, which for a second or later poll is more
    than `idle - check - (c₂ - c₁)` after the end of the one before; and after a
    poll that is pending the deadline is `R + idle`, with exactly one timer in the
    reactor, for the waker of that poll, unless the reactor has fired it. -/
theorem idleness_measured [DecidableEq W] (hx : (system now idle check).Reachable x) :
    (∀ pre o post s, x.polls = pre ++ o :: post → o.check = some s →
      (o = .timedOut s ↔ lastReset x.c₁ pre + idle ≤ s)) ∧
    (0 < check → ∀ pre o (s : ℕ) post, x.polls = pre ++ o :: .timedOut s :: post →
      ∃ cx u, ∃ m : ℕ, ∃ reset, o = .pending cx u m reset ∧
        (idle : ℤ) - check - (x.c₂ - x.c₁) < s - m) ∧
    ∀ f pre cx s m reset, x.resting = some f → x.polls = pre ++ [.pending cx s m reset] →
      f.sleep.timer.deadline = lastReset x.c₁ x.polls + idle ∧
      f.sleep.timer.key ∈ x.reactor.issued ∧
      (¬ x.reactor.Fired (toLex (f.sleep.timer.deadline, f.sleep.timer.key)) →
        x.reactor.agenda (toLex (f.sleep.timer.deadline, f.sleep.timer.key)) = some cx) ∧
      ∀ k, (ofLex k).2 ∈ x.reactor.issued → x.reactor.agenda k ≠ none →
        k = toLex (f.sleep.timer.deadline, f.sleep.timer.key) := by
  have h := inv_reach hx
  refine ⟨fun pre o post s hpolls hs => ?_, fun hcheck pre o s post hpolls => ?_, ?_⟩
  · exact h.timedOut_iff hpolls hs
  · exact h.gap hcheck hpolls
  · intro f pre cx s m reset hf hpolls
    exact h.registration hf hpolls

/-- Created at `0` and `2`; the first poll resets the delay at `9`, the second one, with
    another waker, does not.  Another thread has a timer of its own. -/
def resetRun : List (Act ℕ ℕ) :=
  [Act.new, .next, .other (.advance 2), .next, .other .fetchId, .other (.push (.insert 4 1 70)),
    .other (.advance 5), .poll none 7] ++ List.replicate 3 Act.next ++
  [Act.other (.advance 2)] ++ List.replicate 4 Act.next ++
  [Act.other (.advance 1), .other (.drain 9), .other (.split 10), .poll none 8] ++
    List.replicate 5 Act.next

/-- The third poll comes too late. -/
def lateRun : List (Act ℕ ℕ) :=
  resetRun ++ [Act.other (.advance 10), .poll none 8, .next, .next]

theorem idleness_measured_late :
    (∃ (x : Idling ℕ ℕ) (f : IdleTimeout ℕ), (system 0 10 5).run (init 0) resetRun = some x ∧
      x.resting = some f ∧ f.sleep.timer = ⟨19, 4, some 8⟩ ∧
      x.reactor.agenda (toLex (19, 4)) = some 8 ∧
      ∀ k, (ofLex k).2 ∈ x.reactor.issued → x.reactor.agenda k ≠ none → k = toLex (19, 4)) ∧
    ∃ x : Idling ℕ ℕ, (system 0 10 5).run (init 0) lateRun = some x ∧
      x.polls = [.pending 7 7 9 true, .pending 8 10 10 false, .timedOut 20] ∧
      lastReset x.c₁ (x.polls.take 2) + 10 ≤ 20 ∧
      ((10 : ℕ) : ℤ) - (5 : ℕ) - (x.c₂ - x.c₁) < (20 : ℕ) - (10 : ℕ) := by
  constructor
  · obtain ⟨x, hs, hpolls, htimer, hfired⟩ : ∃ x : Idling ℕ ℕ,
        (system 0 10 5).run (init 0) resetRun = some x ∧
        x.polls = [.pending 7 7 9 true, .pending 8 10 10 false] ∧
        x.resting.map (fun f => f.sleep.timer) = some ⟨19, 4, some 8⟩ ∧
        toLex (19, 4) ∉ (taken x.reactor.timers.history).map Prod.fst :=
      Lts.exists_run (by decide +kernel)
    obtain ⟨f, hf, htimer⟩ := Option.map_eq_some_iff.1 htimer
    have hreg := (idleness_measured (.run (.init rfl) (Lts.meets_true _ resetRun) hs)).2.2 f
      [.pending 7 7 9 true] 8 10 10 false hf hpolls
    rw [htimer] at hreg
    exact ⟨x, f, hs, hf, htimer, hreg.2.2.1 hfired, hreg.2.2.2⟩
  · obtain ⟨x, hs, hpolls⟩ : ∃ x : Idling ℕ ℕ,
        (system 0 10 5).run (init 0) lateRun = some x ∧
        x.polls = [.pending 7 7 9 true, .pending 8 10 10 false, .timedOut 20] :=
      Lts.exists_run (by decide +kernel)
    have hmeasured := idleness_measured (.run (.init rfl) (Lts.meets_true _ lateRun) hs)
    have htimedOut := hmeasured.1 [.pending 7 7 9 true, .pending 8 10 10 false] _ [] 20 hpolls rfl
    obtain ⟨cx, u, m, reset, ho, hgap⟩ := hmeasured.2.1 (by norm_num) [.pending 7 7 9 true] _ 20 []
      hpolls
    cases ho
    refine ⟨x, hs, hpolls, ?_, hgap⟩
    rw [hpolls]
    exact htimedOut.1 rfl

end Idling
end Awak
