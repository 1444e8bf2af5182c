/-
  The I/O sources of the reactor: `Source::poll_ready`, `insert_io`, `remove_io`
  and `react` of `io/reactor.rs`, over the registrations of `io/poller/epoll.rs`.

  A section under the lock of `states` is one step, so are a section under the
  lock of `sources`, each system call outside these locks and each call of a
  waker.  `react` keeps the lock of `sources` while it processes its batch, one
  event a step.  The kernel chooses which armed registrations it reports and
  with which directions; a report disarms the registration (`EPOLLONESHOT`), and
  errors and hang-ups are reported whatever the interest.  Each call of
  `Poller::interest` may fail.  The key of a new source is any vacant key of the
  slab, and `Slab::remove` panics on a vacant key, which poisons the lock of
  `sources`.

  A source `κ` belongs to one `Async`: it is polled while the `Async` lives,
  `remove_io` is called (by `into_inner` and by `drop`) as long as the descriptor
  is open, and the descriptor can be used again once it is closed.  Which wakers
  `process_timers` collects is left open.

  * `Enabled`, `step_cases`: what a step can do, from which every invariant of
    this and of the next modules is derived;
  * `Wf`: the slab, the sources and the descriptors agree;
  * `ArmedOk`: a waiting direction is armed, or its event is in the batch;
  * `Kept`: a waker that got `Pending` is stored until `react` moves it;
  * `waiters_armed`: I/O waiters are always armed.
-/
import Awak.Lib.Lts

namespace Awak.Sources

variable {κ W : Type}

/-- The directions `READ` and `WRITE`. -/
inductive Op where
  | read
  | write
  deriving DecidableEq

/-- The struct `State`: one direction of a source. -/
structure Dir (W : Type) where
  wakers : List W
  tick : ℕ
  ticks : Option (ℕ × ℕ)

/-- The struct `Source`. -/
structure Source (W : Type) where
  raw : ℕ
  key : ℕ
  states : Op → Dir W

/-- A registration in epoll. -/
structure Reg where
  armed : Bool
  flags : Op → Bool
  key : ℕ

/-- An event of the batch, with the descriptor it is about. -/
structure Event where
  raw : ℕ
  key : ℕ
  ready : Op → Bool

/-- A call of `react`. -/
inductive ReactPc where
  | idle
  /-- `ticker.fetch_add(1)` -/
  | bump
  | wait (tick : ℕ)
  /-- `wait` has returned a batch, the lock of `sources` is still to be taken -/
  | batch (tick : ℕ)
  | loop (tick : ℕ)
  | wake
  deriving DecidableEq

/-- What the tasks and the reactor have done with the wakers. -/
inductive Entry (κ W : Type) where
  /-- `poll_ready` returned `Pending` -/
  | pending (x : κ) (op : Op) (waker : W)
  /-- `react` moved the waker to its list -/
  | moved (x : κ) (op : Op) (waker : W)
  deriving DecidableEq

/-- The last call of `react`, for the specification. -/
structure Round (κ W : Type) where
  tick : ℕ
  /-- the wakers removed from the timers and from the sources -/
  removed : List W
  woken : List W
  /-- the events of the batch with their registered sources -/
  targets : List (Event × κ)
  /-- the directions drained, with the tick they were marked with -/
  drained : List (κ × Op × ℕ)

/-- The sources and the slab, the registrations of epoll, and the call of `react`. -/
structure State (κ W : Type) where
  ticker : ℕ
  slab : ℕ → Option κ
  source : κ → Option (Source W)
  epoll : ℕ → Option Reg
  /-- the open descriptors handed to the reactor -/
  fds : List ℕ
  /-- those between `poller.insert` and the insertion into the slab -/
  adding : List ℕ
  /-- `remove_io` has been called -/
  removed : κ → Bool
  /-- the descriptor has been closed -/
  closed : κ → Bool
  /-- the lock of `sources` is poisoned -/
  poisoned : Bool
  reacting : ReactPc
  /-- the vector `wakers` of `react` -/
  wakers : List W
  /-- the events that are still to be processed -/
  batch : List Event
  log : List (Entry κ W)
  round : Round κ W

/-- `Reactor::new`. -/
def init : State κ W where
  ticker := 0
  slab _ := none
  source _ := none
  epoll _ := none
  fds := []
  adding := []
  removed _ := false
  closed _ := false
  poisoned := false
  reacting := .idle
  wakers := []
  batch := []
  log := []
  round := ⟨0, [], [], [], []⟩

/-- The flags passed to `Poller::interest`: the directions with wakers. -/
def Source.interest (src : Source W) : Op → Bool := fun op => !(src.states op).wakers.isEmpty

/-- One direction of a source becomes `d`. -/
def Source.setDir (src : Source W) (op : Op) (d : Dir W) : Source W :=
  { src with states := Function.update src.states op d }

/-- Store a waker, unless one with `will_wake` is there, and the ticks it was
    stored at. -/
def Dir.store [DecidableEq W] (d : Dir W) (ticker : ℕ) (waker : W) : Dir W :=
  { d with
    wakers := if waker ∈ d.wakers then d.wakers else d.wakers ++ [waker]
    ticks := if d.ticks.isNone then some (ticker, d.tick) else d.ticks }

/-- The kernel may report this event for a registration: a direction without
    interest is only reported with an error or a hang-up, which are readable and
    writable. -/
def Reg.reports (reg : Reg) (ev : Event) : Bool :=
  reg.armed && ev.key == reg.key &&
    (ev.ready .read && ev.ready .write || ev.ready .read && reg.flags .read ||
      ev.ready .write && reg.flags .write)

/-- A batch of `epoll_wait`: a descriptor is reported at most once. -/
def Batch (epoll : ℕ → Option Reg) (evs : List Event) : Prop :=
  (evs.map Event.raw).Nodup ∧ ∀ ev ∈ evs, (epoll ev.raw).any (·.reports ev) = true

instance (epoll : ℕ → Option Reg) (evs : List Event) : Decidable (Batch epoll evs) :=
  inferInstanceAs (Decidable (_ ∧ _))

/-- `react` holds the lock of `sources`. -/
def ReactPc.locked : ReactPc → Bool
  | .loop _ => true
  | _ => false

section Steps
variable [DecidableEq κ]

namespace State

/-- The source of `x` becomes `src`. -/
def setSource (s : State κ W) (x : κ) (src : Source W) : State κ W :=
  { s with source := Function.update s.source x (some src) }

/-- `Poller::interest`: `EPOLL_CTL_MOD`; it fails if the descriptor is not registered. -/
def interest (s : State κ W) (raw key : ℕ) (flags : Op → Bool) : Option (State κ W) :=
  match s.epoll raw with
  | some _ => some { s with epoll := Function.update s.epoll raw (some ⟨true, flags, key⟩) }
  | none => none

/-- `Poller::insert`: `EPOLL_CTL_ADD` with no interest and the key `0`. -/
def pollerInsert (s : State κ W) (raw : ℕ) : State κ W :=
  { s with
    epoll := Function.update s.epoll raw (some ⟨true, fun _ => false, 0⟩)
    fds := raw :: s.fds
    adding := raw :: s.adding }

/-- The rest of `insert_io`, under the lock of `sources`. -/
def insertIo (s : State κ W) (x : κ) (raw key : ℕ) : State κ W :=
  { s.setSource x ⟨raw, key, fun _ => ⟨[], 0, none⟩⟩ with
    slab := Function.update s.slab key (some x)
    adding := s.adding.erase raw }

/-- `remove_io`, under the lock of `sources`. -/
def removeIo (s : State κ W) (x : κ) (src : Source W) : State κ W :=
  let s := { s with removed := Function.update s.removed x true }
  match s.slab src.key with
  | none => { s with poisoned := true }
  | some _ => { s with
      slab := Function.update s.slab src.key none
      epoll := Function.update s.epoll src.raw none }

/-- `Source::poll_ready`; `ok` tells whether its call of `interest` succeeds. -/
def pollReady [DecidableEq W] (s : State κ W) (x : κ) (src : Source W) (op : Op) (waker : W)
    (ok : Bool) : Option (State κ W) :=
  let d := src.states op
  -- a new tick since the waker was stored: `Ready`
  if d.ticks.any fun (a, b) => d.tick ≠ a && d.tick ≠ b then
    some (s.setSource x (src.setDir op { d with ticks := none }))
  else
    let src := src.setDir op (d.store s.ticker waker)
    let s := s.setSource x src
    let pending := { s with log := s.log ++ [.pending x op waker] }
    if d.wakers.isEmpty then
      if ok then pending.interest src.raw src.key src.interest else some s
    else some pending

/-- One direction of an event: mark the tick and move the wakers. -/
def drain (s : State κ W) (x : κ) (src : Source W) (tick : ℕ) (op : Op) (ready : Bool) :
    State κ W × Source W :=
  let d := src.states op
  if ready then
    ({ s with
        wakers := s.wakers ++ d.wakers
        log := s.log ++ d.wakers.map (.moved x op)
        round := { s.round with
          removed := s.round.removed ++ d.wakers
          drained := s.round.drained ++ [(x, op, tick + 1)] } },
      src.setDir op { d with wakers := [], tick := tick + 1 })
  else (s, src)

/-- One event of the batch; `ok` tells whether its call of `interest` succeeds.
    If it fails, `react` returns the error at once. -/
def process (s : State κ W) (ok : Bool) : Option (State κ W) :=
  match s.reacting, s.batch with
  | .loop tick, ev :: rest =>
    let s := { s with batch := rest }
    match s.slab ev.key with
    | none => some s
    | some x =>
      match s.source x with
      | none => none
      | some src =>
        let (s, src) := s.drain x src tick .read (ev.ready .read)
        let (s, src) := s.drain x src tick .write (ev.ready .write)
        let s := s.setSource x src
        if src.interest .read || src.interest .write then
          if ok then s.interest src.raw src.key src.interest
          else some { s with reacting := .idle, wakers := [], batch := [] }
        else some s
  | _, _ => none

/-- The other steps of `react`. -/
def reactStep (s : State κ W) : Option (State κ W) :=
  match s.reacting with
  | .bump => some { s with
      ticker := s.ticker + 1
      reacting := .wait (s.ticker + 1)
      round := { s.round with tick := s.ticker + 1 } }
  | .batch tick =>
    if s.poisoned then none
    else some { s with
      reacting := .loop tick
      round := { s.round with
        targets := s.batch.filterMap fun ev => (s.slab ev.key).map fun x => (ev, x) } }
  | .loop _ =>
    match s.batch with
    | [] => some { s with reacting := .wake }
    | _ => none
  | .wake =>
    match s.wakers with
    | [] => some { s with reacting := .idle }
    | w :: rest => some { s with
        wakers := rest
        round := { s.round with woken := s.round.woken ++ [w] } }
  | .idle | .wait _ => none

end State

/-- The moves of the tasks, of `react` and of the kernel. -/
inductive Act (κ W : Type) where
  | pollerInsert (raw : ℕ)
  | insertIo (x : κ) (raw key : ℕ)
  | removeIo (x : κ)
  | close (x : κ)
  | pollReady (x : κ) (op : Op) (waker : W) (ok : Bool)
  /-- call `react`; `process_timers` collects these wakers -/
  | react (due : List W)
  | next
  /-- `wait` returns a batch with events of sources -/
  | waitEvents (evs : List Event)
  /-- `wait` returns no event, is interrupted or fails; `process_timers` may
      collect more wakers -/
  | waitEmpty (due : List W)
  | process (ok : Bool)

variable [DecidableEq W]

/-- One critical section of `sources` or of a source, or one system call. -/
def step (s : State κ W) : Act κ W → Option (State κ W)
  | .pollerInsert raw =>
    if raw ∉ s.fds then some (s.pollerInsert raw) else none
  | .insertIo x raw key =>
    if raw ∈ s.adding ∧ s.source x = none ∧ s.slab key = none ∧ s.poisoned = false ∧
        s.reacting.locked = false then
      some (s.insertIo x raw key)
    else none
  | .removeIo x =>
    match s.source x with
    | some src =>
      if s.closed x = false ∧ s.poisoned = false ∧ s.reacting.locked = false then
        some (s.removeIo x src)
      else none
    | none => none
  | .close x =>
    match s.source x with
    | some src =>
      if s.removed x = true ∧ s.closed x = false then
        some { s with
          closed := Function.update s.closed x true
          fds := s.fds.erase src.raw
          epoll := Function.update s.epoll src.raw none }
      else none
    | none => none
  | .pollReady x op waker ok =>
    match s.source x with
    | some src => if s.removed x = false then s.pollReady x src op waker ok else none
    | none => none
  | .react due =>
    if s.reacting = .idle then
      some { s with reacting := .bump, wakers := due, batch := [], round := ⟨0, due, [], [], []⟩ }
    else none
  | .next => s.reactStep
  | .waitEvents evs =>
    match s.reacting with
    | .wait tick =>
      if Batch s.epoll evs ∧ evs ≠ [] then
        some { s with
          epoll := fun raw =>
            if raw ∈ evs.map Event.raw then (s.epoll raw).map fun reg => { reg with armed := false }
            else s.epoll raw
          reacting := .batch tick
          batch := evs }
      else none
    | _ => none
  | .waitEmpty due =>
    match s.reacting with
    | .wait _ => some { s with
        reacting := .wake
        wakers := s.wakers ++ due
        round := { s.round with removed := s.round.removed ++ due } }
    | _ => none
  | .process ok => s.process ok

/-- `react`, with any tasks that register, poll and remove sources. -/
def system : Lts (State κ W) (Act κ W) where
  init s := s = init
  step := step

/-! ## What a step can do -/

/-- The moves that are enabled in `s`, and where they lead. -/
inductive Enabled (s : State κ W) : Act κ W → State κ W → Prop
  | pollerInsert {raw : ℕ} (hraw : raw ∉ s.fds) : Enabled s (.pollerInsert raw) (s.pollerInsert raw)
  | insertIo {x : κ} {raw key : ℕ} (hraw : raw ∈ s.adding) (hx : s.source x = none)
      (hk : s.slab key = none) (hl : s.reacting.locked = false) :
      Enabled s (.insertIo x raw key) (s.insertIo x raw key)
  | removeIo {x : κ} {src : Source W} (hx : s.source x = some src) (hc : s.closed x = false)
      (hl : s.reacting.locked = false) : Enabled s (.removeIo x) (s.removeIo x src)
  | close {x : κ} {src : Source W} (hx : s.source x = some src) (hr : s.removed x = true)
      (hc : s.closed x = false) : Enabled s (.close x) { s with
        closed := Function.update s.closed x true
        fds := s.fds.erase src.raw
        epoll := Function.update s.epoll src.raw none }
  | pollReady {x : κ} {src : Source W} {op : Op} {waker : W} {ok : Bool} {s' : State κ W}
      (hx : s.source x = some src) (hr : s.removed x = false)
      (hs : s.pollReady x src op waker ok = some s') : Enabled s (.pollReady x op waker ok) s'
  | react {due : List W} (hr : s.reacting = .idle) : Enabled s (.react due) { s with
        reacting := .bump
        wakers := due
        batch := []
        round := ⟨0, due, [], [], []⟩ }
  | next {s' : State κ W} (hs : s.reactStep = some s') : Enabled s .next s'
  | waitEvents {evs : List Event} {tick : ℕ} (hr : s.reacting = .wait tick)
      (hevs : Batch s.epoll evs) : Enabled s (.waitEvents evs) { s with
        epoll := fun raw =>
          if raw ∈ evs.map Event.raw then (s.epoll raw).map fun reg => { reg with armed := false }
          else s.epoll raw
        reacting := .batch tick
        batch := evs }
  | waitEmpty {due : List W} {tick : ℕ} (hr : s.reacting = .wait tick) :
      Enabled s (.waitEmpty due) { s with
        reacting := .wake
        wakers := s.wakers ++ due
        round := { s.round with removed := s.round.removed ++ due } }
  | process {ok : Bool} {s' : State κ W} (hs : s.process ok = some s') : Enabled s (.process ok) s'

/-- The steps of `react` outside `wait` and `process` touch no source. -/
structure Same (s s' : State κ W) : Prop where
  source : s'.source = s.source
  slab : s'.slab = s.slab
  epoll : s'.epoll = s.epoll
  adding : s'.adding = s.adding
  removed : s'.removed = s.removed
  batch : s'.batch = s.batch
  log : s'.log = s.log

omit [DecidableEq κ] [DecidableEq W] in
theorem reactStep_same {s s' : State κ W} (hs : s.reactStep = some s') : Same s s' := by
  unfold State.reactStep at hs
  split at hs
  · cases hs; exact ⟨rfl, rfl, rfl, rfl, rfl, rfl, rfl⟩
  · split_ifs at hs; cases hs; exact ⟨rfl, rfl, rfl, rfl, rfl, rfl, rfl⟩
  · split at hs <;> cases hs; exact ⟨rfl, rfl, rfl, rfl, rfl, rfl, rfl⟩
  · split at hs <;> cases hs <;> exact ⟨rfl, rfl, rfl, rfl, rfl, rfl, rfl⟩
  · cases hs
  · cases hs

theorem step_cases {s s' : State κ W} {a : Act κ W} (hs : step s a = some s') : Enabled s a s' := by
  cases a with
  | pollerInsert raw =>
    obtain ⟨hraw, hs⟩ := Option.ite_none_right_eq_some.1 hs
    cases hs
    exact .pollerInsert hraw
  | insertIo x raw key =>
    obtain ⟨⟨hraw, hx, hk, -, hl⟩, hs⟩ := Option.ite_none_right_eq_some.1 hs
    cases hs
    exact .insertIo hraw hx hk hl
  | removeIo x =>
    simp only [step] at hs
    split at hs
    next src hx =>
      obtain ⟨⟨hc, -, hl⟩, hs⟩ := Option.ite_none_right_eq_some.1 hs
      cases hs
      exact .removeIo hx hc hl
    next => cases hs
  | close x =>
    simp only [step] at hs
    split at hs
    next src hx =>
      obtain ⟨⟨hr, hc⟩, hs⟩ := Option.ite_none_right_eq_some.1 hs
      cases hs
      exact .close hx hr hc
    next => cases hs
  | pollReady x op waker ok =>
    simp only [step] at hs
    split at hs
    next src hx =>
      obtain ⟨hr, hs⟩ := Option.ite_none_right_eq_some.1 hs
      exact .pollReady hx hr hs
    next => cases hs
  | react due =>
    obtain ⟨hr, hs⟩ := Option.ite_none_right_eq_some.1 hs
    cases hs
    exact .react hr
  | next => exact .next hs
  | waitEvents evs =>
    simp only [step] at hs
    split at hs
    next tick hr =>
      obtain ⟨⟨hevs, -⟩, hs⟩ := Option.ite_none_right_eq_some.1 hs
      cases hs
      exact .waitEvents hr hevs
    next => cases hs
  | waitEmpty due =>
    simp only [step] at hs
    split at hs
    next tick hr => cases hs; exact .waitEmpty hr
    next => cases hs
  | process ok => exact .process hs

end Steps

/-! ## One event of the batch -/

/-- A source after the drain of an event. -/
def Source.drained (src : Source W) (tick : ℕ) (ev : Event) : Source W :=
  { src with
    states := fun op =>
      if ev.ready op then { src.states op with wakers := [], tick := tick + 1 } else src.states op }

/-- The wakers an event takes from a source. -/
def Source.taken (src : Source W) (ev : Event) : List (Op × W) :=
  [Op.read, Op.write].flatMap fun op =>
    if ev.ready op then (src.states op).wakers.map fun w => (op, w) else []

theorem mem_taken {src : Source W} {ev : Event} {op : Op} {w : W} :
    (op, w) ∈ src.taken ev ↔ ev.ready op = true ∧ w ∈ (src.states op).wakers := by
  cases op <;> by_cases hr : ev.ready .read = true <;> by_cases hw : ev.ready .write = true <;>
    simp [Source.taken, hr, hw]

section Events
variable [DecidableEq κ]

/-- The state after the drain of event `ev` on the source `x`. -/
def State.took (s : State κ W) (x : κ) (src : Source W) (tick : ℕ) (ev : Event)
    (rest : List Event) : State κ W :=
  { s.setSource x (src.drained tick ev) with
    batch := rest
    wakers := s.wakers ++ (src.taken ev).map Prod.snd
    log := s.log ++ (src.taken ev).map fun e => .moved x e.1 e.2
    round := { s.round with
      removed := s.round.removed ++ (src.taken ev).map Prod.snd
      drained := s.round.drained ++
        ([Op.read, Op.write].filter ev.ready).map fun op => (x, op, tick + 1) } }

theorem drain_drain (s : State κ W) (x : κ) (src : Source W) (tick : ℕ) (ev : Event)
    (rest : List Event) :
    let p := { s with batch := rest }.drain x src tick .read (ev.ready .read)
    let q := p.1.drain x p.2 tick .write (ev.ready .write)
    q.1.setSource x q.2 = s.took x src tick ev rest ∧ q.2 = src.drained tick ev := by
  have hst : ∀ (f : Op → Dir W) (a : Dir W), Function.update f .read a =
      fun op => match op with | .read => a | .write => f .write := by
    intro f a; funext op; cases op <;> rfl
  have hst' : ∀ (f : Op → Dir W) (a : Dir W), Function.update f .write a =
      fun op => match op with | .read => f .read | .write => a := by
    intro f a; funext op; cases op <;> rfl
  have hdr : src.drained tick ev = { src with states := fun op => match op with
      | .read => if ev.ready .read then { src.states .read with wakers := [], tick := tick + 1 }
          else src.states .read
      | .write => if ev.ready .write then { src.states .write with wakers := [], tick := tick + 1 }
          else src.states .write } := by
    unfold Source.drained
    congr 1
    funext op; cases op <;> rfl
  have hid : src = { src with states := fun op => match op with
      | .read => src.states .read
      | .write => src.states .write } := by
    obtain ⟨raw, key, states⟩ := src
    congr 1
    funext op; cases op <;> rfl
  by_cases hr : ev.ready .read = true <;> by_cases hw : ev.ready .write = true <;>
    simp [State.drain, Source.setDir, State.took, State.setSource, Source.taken,
      Function.comp_def, hr, hw, hdr, hst, hst', ← hid]

/-- What processing an event does. -/
theorem process_cases {s s' : State κ W} {ok : Bool} (hs : s.process ok = some s') :
    ∃ tick ev rest, s.reacting = .loop tick ∧ s.batch = ev :: rest ∧
      ((s.slab ev.key = none ∧ s' = { s with batch := rest }) ∨
      ∃ x src, s.slab ev.key = some x ∧ s.source x = some src ∧
        (((∀ op, (src.drained tick ev).interest op = false) ∧ s' = s.took x src tick ev rest) ∨
        (ok = true ∧ (s.took x src tick ev rest).interest src.raw src.key
          (src.drained tick ev).interest = some s') ∨
        ok = false ∧ (∃ op, (src.drained tick ev).interest op = true) ∧
          s' = { s.took x src tick ev rest with reacting := .idle, wakers := [], batch := [] })) := by
  unfold State.process at hs
  split at hs
  next tick ev rest hr hb =>
    refine ⟨tick, ev, rest, hr, hb, ?_⟩
    dsimp only at hs
    split at hs
    next hk => cases hs; exact Or.inl ⟨hk, rfl⟩
    next x hk =>
      split at hs
      · cases hs
      next src hx =>
        refine Or.inr ⟨x, src, hk, hx, ?_⟩
        obtain ⟨he, hd⟩ := drain_drain s x src tick ev rest
        rw [he, hd] at hs
        split_ifs at hs with hi hok
        · exact Or.inr (Or.inl ⟨hok, hs⟩)
        · cases hs
          refine Or.inr (Or.inr ⟨by simpa using hok, ?_, rfl⟩)
          rcases Bool.or_eq_true _ _ ▸ hi with hi | hi
          · exact ⟨_, hi⟩
          · exact ⟨_, hi⟩
        · cases hs
          refine Or.inl ⟨fun op => ?_, rfl⟩
          rw [Bool.not_eq_true, Bool.or_eq_false_iff] at hi
          cases op
          · exact hi.1
          · exact hi.2
  next => cases hs

/-- What a call of `poll_ready` does to its source: the other direction is left
    alone, and the wakers of its own are kept. -/
structure Polled (src src' : Source W) (op : Op) : Prop where
  raw : src'.raw = src.raw
  key : src'.key = src.key
  other : ∀ op', op' ≠ op → src'.states op' = src.states op'
  wakers : ∀ w ∈ (src.states op).wakers, w ∈ (src'.states op).wakers

theorem Dir.mem_store [DecidableEq W] (d : Dir W) (ticker : ℕ) (w : W) :
    w ∈ (d.store ticker w).wakers := by
  unfold Dir.store
  split_ifs with h <;> simp [h]

theorem Dir.subset_store [DecidableEq W] (d : Dir W) (ticker : ℕ) {v w : W} (h : v ∈ d.wakers) :
    v ∈ (d.store ticker w).wakers := by
  unfold Dir.store
  split_ifs <;> simp [h]

theorem pollReady_cases [DecidableEq W] {s s' : State κ W} {x : κ} {src : Source W} {op : Op}
    {w : W} {ok : Bool} (hs : s.pollReady x src op w ok = some s') :
    ∃ src', Polled src src' op ∧
      -- `Ready`
      (((src'.states op).wakers = (src.states op).wakers ∧ s' = s.setSource x src') ∨
      w ∈ (src'.states op).wakers ∧
        -- `Pending`, with an interest in place or with a new one
        (((src.states op).wakers ≠ [] ∧
            s' = { s.setSource x src' with log := s.log ++ [.pending x op w] }) ∨
          (ok = true ∧ State.interest
            { s.setSource x src' with log := s.log ++ [.pending x op w] }
            src.raw src.key src'.interest = some s') ∨
          -- the interest failed
          ok = false ∧ s' = s.setSource x src')) := by
  have hpolled : ∀ d : Dir W, (∀ v ∈ (src.states op).wakers, v ∈ d.wakers) →
      Polled src (src.setDir op d) op := by
    intro d hd
    exact ⟨rfl, rfl, fun op' hne => by simp [Source.setDir, hne],
      fun v hv => by simpa [Source.setDir] using hd v hv⟩
  have hself : ∀ d : Dir W, (src.setDir op d).states op = d := by simp [Source.setDir]
  simp only [State.pollReady] at hs
  split_ifs at hs with ht he hok
  · cases hs
    exact ⟨src.setDir op { src.states op with ticks := none }, hpolled _ fun v hv => hv,
      Or.inl ⟨by rw [hself], rfl⟩⟩
  all_goals
    refine ⟨src.setDir op ((src.states op).store s.ticker w),
      hpolled _ fun v hv => Dir.subset_store _ _ hv,
      Or.inr ⟨by rw [hself]; exact Dir.mem_store .., ?_⟩⟩
  · exact Or.inr (Or.inl ⟨hok, hs⟩)
  · cases hs; exact Or.inr (Or.inr ⟨by simpa using hok, rfl⟩)
  · cases hs; exact Or.inl ⟨by simpa using he, rfl⟩

end Events

/-! ## Well-formed states -/

/-- The slab, the sources and the descriptors agree, whatever `interest` answers. -/
structure Wf (s : State κ W) : Prop where
  slab : ∀ k x, s.slab k = some x → s.removed x = false ∧ ∃ src, s.source x = some src ∧ src.key = k
  closed : ∀ x, s.closed x = true → s.removed x = true
  unborn : ∀ x, s.source x = none → s.removed x = false
  fds : ∀ x src, s.source x = some src → s.closed x = false → src.raw ∈ s.fds ∧ src.raw ∉ s.adding
  raw : ∀ x y src src', s.source x = some src → s.source y = some src' → s.closed x = false →
    s.closed y = false → src.raw = src'.raw → x = y
  adding : s.adding.Nodup
  subset : s.adding ⊆ s.fds
  batch : s.batch ≠ [] → ∃ tick, s.reacting = .batch tick ∨ s.reacting = .loop tick

theorem wf_init : Wf (init : State κ W) := by
  constructor <;> simp [init]

/-- A step that moves wakers only. -/
structure Moves (s s' : State κ W) : Prop where
  slab : s'.slab = s.slab
  removed : s'.removed = s.removed
  closed : s'.closed = s.closed
  fds : s'.fds = s.fds
  adding : s'.adding = s.adding
  source : ∀ x, (s'.source x).map (fun src => (src.raw, src.key)) =
    (s.source x).map fun src => (src.raw, src.key)
  batch : s'.batch ≠ [] → ∃ tick, s'.reacting = .batch tick ∨ s'.reacting = .loop tick

theorem Moves.some {s s' : State κ W} (h : Moves s s') {x : κ} {src' : Source W}
    (hx : s'.source x = some src') :
    ∃ src, s.source x = some src ∧ src.raw = src'.raw ∧ src.key = src'.key := by
  have := h.source x
  rw [hx] at this
  obtain ⟨src, hsrc, he⟩ := Option.map_eq_some_iff.1 this.symm
  exact ⟨src, hsrc, (Prod.mk.inj he).1, (Prod.mk.inj he).2⟩

theorem Wf.moves {s s' : State κ W} (h : Wf s) (hm : Moves s s') : Wf s' := by
  refine ⟨fun k x hk => ?_, ?_, fun x hx => ?_, fun x src hx hc => ?_,
    fun x y src src' hx hy hcx hcy hr => ?_, ?_, ?_, hm.batch⟩
  · rw [hm.slab] at hk
    obtain ⟨hrem, src, hsrc, hkey⟩ := h.slab k x hk
    have := hm.source x
    rw [hsrc] at this
    obtain ⟨src', hsrc', he⟩ := Option.map_eq_some_iff.1 this
    exact ⟨by rw [hm.removed]; exact hrem, src', hsrc', (Prod.mk.inj he).2.trans hkey⟩
  · rw [hm.closed, hm.removed]; exact h.closed
  · rw [hm.removed]
    have := hm.source x
    rw [hx] at this
    exact h.unborn x (Option.map_eq_none_iff.1 this.symm)
  · obtain ⟨src₀, h₀, hr, -⟩ := hm.some hx
    rw [hm.fds, hm.adding, ← hr]
    exact h.fds x src₀ h₀ (hm.closed ▸ hc)
  · obtain ⟨src₀, h₀, hr₀, -⟩ := hm.some hx
    obtain ⟨src₁, h₁, hr₁, -⟩ := hm.some hy
    exact h.raw x y src₀ src₁ h₀ h₁ (hm.closed ▸ hcx) (hm.closed ▸ hcy) (by rw [hr₀, hr₁, hr])
  · rw [hm.adding]; exact h.adding
  · rw [hm.adding, hm.fds]; exact h.subset

/-- A registered source. -/
def Registered (s : State κ W) (x : κ) (src : Source W) : Prop :=
  s.source x = some src ∧ s.slab src.key = some x

theorem Wf.registered {s : State κ W} (h : Wf s) {x : κ} {src : Source W} (hr : Registered s x src) :
    s.removed x = false ∧ s.closed x = false := by
  have hrem := (h.slab _ _ hr.2).1
  refine ⟨hrem, ?_⟩
  by_contra hc
  have := h.closed x (by simpa using hc)
  rw [this] at hrem; cases hrem

section Steps
variable [DecidableEq κ] {s s' : State κ W} {x : κ} {src src' : Source W}

omit [DecidableEq κ] in
theorem interest_some {raw key : ℕ} {flags : Op → Bool}
    (hs : s.interest raw key flags = some s') :
    s' = { s with epoll := Function.update s.epoll raw (some ⟨true, flags, key⟩) } := by
  unfold State.interest at hs
  split at hs <;> cases hs
  rfl

theorem source_setSource (hx : s.source x = some src) (hr : src'.raw = src.raw)
    (hk : src'.key = src.key) (y : κ) :
    ((s.setSource x src').source y).map (fun src => (src.raw, src.key)) =
      (s.source y).map fun src => (src.raw, src.key) := by
  by_cases hy : y = x
  · subst hy; simp [State.setSource, hx, hr, hk]
  · simp [State.setSource, hy]

theorem moves_pollReady [DecidableEq W] (h : Wf s) (hx : s.source x = some src) {op : Op} {w : W}
    {ok : Bool} (hs : s.pollReady x src op w ok = some s') : Moves s s' := by
  obtain ⟨src', hp, hcase⟩ := pollReady_cases hs
  have hsrc := source_setSource hx hp.raw hp.key
  rcases hcase with ⟨-, rfl⟩ | ⟨-, ⟨-, rfl⟩ | ⟨-, hs⟩ | ⟨-, rfl⟩⟩
  · exact ⟨rfl, rfl, rfl, rfl, rfl, hsrc, h.batch⟩
  · exact ⟨rfl, rfl, rfl, rfl, rfl, hsrc, h.batch⟩
  · rw [interest_some hs]
    exact ⟨rfl, rfl, rfl, rfl, rfl, hsrc, h.batch⟩
  · exact ⟨rfl, rfl, rfl, rfl, rfl, hsrc, h.batch⟩

theorem moves_process {ok : Bool} (hs : s.process ok = some s') : Moves s s' := by
  obtain ⟨tick, ev, rest, hr, -, hcase⟩ := process_cases hs
  rcases hcase with ⟨-, rfl⟩ | ⟨x, src, -, hx, hcase⟩
  · exact ⟨rfl, rfl, rfl, rfl, rfl, fun _ => rfl, fun _ => ⟨tick, Or.inr hr⟩⟩
  · have hdr : (src.drained tick ev).raw = src.raw ∧ (src.drained tick ev).key = src.key :=
      ⟨rfl, rfl⟩
    have hsrc := source_setSource hx hdr.1 hdr.2
    rcases hcase with ⟨-, rfl⟩ | ⟨-, hs⟩ | ⟨-, -, rfl⟩
    · exact ⟨rfl, rfl, rfl, rfl, rfl, hsrc, fun _ => ⟨tick, Or.inr hr⟩⟩
    · rw [interest_some hs]
      exact ⟨rfl, rfl, rfl, rfl, rfl, hsrc, fun _ => ⟨tick, Or.inr hr⟩⟩
    · exact ⟨rfl, rfl, rfl, rfl, rfl, hsrc, fun hn => absurd rfl hn⟩

omit [DecidableEq κ] in
theorem moves_reactStep (h : Wf s) (hs : s.reactStep = some s') : Moves s s' := by
  have hb := h.batch
  unfold State.reactStep at hs
  split at hs
  next hr =>
    cases hs
    refine ⟨rfl, rfl, rfl, rfl, rfl, fun _ => rfl, fun hn => ?_⟩
    rw [hr] at hb; simpa using hb hn
  next tick hr =>
    split_ifs at hs; cases hs
    exact ⟨rfl, rfl, rfl, rfl, rfl, fun _ => rfl, fun _ => ⟨tick, Or.inr rfl⟩⟩
  next tick hr =>
    split at hs <;> cases hs
    next he => exact ⟨rfl, rfl, rfl, rfl, rfl, fun _ => rfl, fun hn => absurd he hn⟩
  next hr =>
    rw [hr] at hb
    split at hs <;> cases hs
    · exact ⟨rfl, rfl, rfl, rfl, rfl, fun _ => rfl, fun hn => by simpa using hb hn⟩
    · exact ⟨rfl, rfl, rfl, rfl, rfl, fun _ => rfl, fun hn => by simpa using hb hn⟩
  all_goals cases hs

omit [DecidableEq κ] in
theorem Wf.pollerInsert (h : Wf s) {raw : ℕ} (hr : raw ∉ s.fds) : Wf (s.pollerInsert raw) := by
  refine ⟨h.slab, h.closed, h.unborn, fun x src hx hc => ?_, h.raw, ?_, ?_, h.batch⟩
  · obtain ⟨hf, ha⟩ := h.fds x src hx hc
    refine ⟨List.mem_cons_of_mem _ hf, fun hm => ?_⟩
    rcases List.mem_cons.1 hm with he | hm
    · exact hr (he ▸ hf)
    · exact ha hm
  · exact List.nodup_cons.2 ⟨fun hm => hr (h.subset hm), h.adding⟩
  · exact List.cons_subset_cons _ h.subset

theorem Wf.insertIo (h : Wf s) {raw key : ℕ} (hr : raw ∈ s.adding) (hx : s.source x = none)
    (hk : s.slab key = none) : Wf (s.insertIo x raw key) := by
  have hne : ∀ y, s.source y ≠ none → y ≠ x := by rintro y hy rfl; exact hy hx
  have hsrc : ∀ y src, (s.insertIo x raw key).source y = some src →
      y = x ∧ src = ⟨raw, key, fun _ => ⟨[], 0, none⟩⟩ ∨ y ≠ x ∧ s.source y = some src := by
    intro y src hy
    by_cases hyx : y = x
    · subst hyx
      simp only [State.insertIo, State.setSource, Function.update_self, Option.some.injEq] at hy
      exact Or.inl ⟨rfl, hy.symm⟩
    · simp only [State.insertIo, State.setSource, Function.update_of_ne hyx] at hy
      exact Or.inr ⟨hyx, hy⟩
  refine ⟨fun k y hy => ?_, h.closed, fun y hy => ?_, fun y src hy hc => ?_,
    fun y z src src' hy hz hcy hcz he => ?_, h.adding.erase _, ?_, h.batch⟩
  · by_cases hkk : k = key
    · subst hkk
      simp only [State.insertIo, Function.update_self, Option.some.injEq] at hy
      subst hy
      exact ⟨h.unborn x hx, ⟨raw, k, fun _ => ⟨[], 0, none⟩⟩,
        by simp [State.insertIo, State.setSource], rfl⟩
    · simp only [State.insertIo, Function.update_of_ne hkk] at hy
      obtain ⟨hrem, src, hsrc', hkey⟩ := h.slab k y hy
      have hyx := hne y (by rw [hsrc']; exact nofun)
      exact ⟨hrem, src, by simp [State.insertIo, State.setSource, hyx, hsrc'], hkey⟩
  · have hyx : y ≠ x := by rintro rfl; simp [State.insertIo, State.setSource] at hy
    exact h.unborn y (by simpa [State.insertIo, State.setSource, hyx] using hy)
  · rcases hsrc y src hy with ⟨-, rfl⟩ | ⟨-, hy⟩
    · exact ⟨h.subset hr, fun hm => (h.adding.mem_erase_iff.1 hm).1 rfl⟩
    · obtain ⟨hf, ha⟩ := h.fds y src hy hc
      exact ⟨hf, fun hm => ha (List.mem_of_mem_erase hm)⟩
  · rcases hsrc y src hy with ⟨hyx, rfl⟩ | ⟨-, hy'⟩ <;>
      rcases hsrc z src' hz with ⟨hzx, rfl⟩ | ⟨-, hz'⟩
    · rw [hyx, hzx]
    · exact absurd (he ▸ hr) (h.fds z src' hz' hcz).2
    · exact absurd (he ▸ hr) (h.fds y src hy' hcy).2
    · exact h.raw y z src src' hy' hz' hcy hcz he
  · exact fun r hm => h.subset (List.mem_of_mem_erase hm)

theorem Wf.removeIo (h : Wf s) (hx : s.source x = some src) : Wf (s.removeIo x src) := by
  have hrem : ∀ y, s.removed y = false → y ≠ x → Function.update s.removed x true y = false := by
    intro y hy hyx; simpa [hyx] using hy
  have hcl : ∀ y, s.closed y = true → Function.update s.removed x true y = true := by
    intro y hy
    by_cases hyx : y = x
    · subst hyx; simp
    · simpa [hyx] using h.closed y hy
  have hun : ∀ y, s.source y = none → Function.update s.removed x true y = false := by
    intro y hy
    exact hrem y (h.unborn y hy) (by rintro rfl; rw [hx] at hy; cases hy)
  unfold State.removeIo
  dsimp only
  split
  next hk =>
    refine ⟨fun k y hy => ?_, hcl, hun, h.fds, h.raw, h.adding, h.subset, h.batch⟩
    obtain ⟨hr, src', hsrc', hkey⟩ := h.slab k y hy
    refine ⟨hrem y hr ?_, src', hsrc', hkey⟩
    rintro rfl
    rw [hx] at hsrc'; cases hsrc'
    rw [hkey] at hk; rw [hk] at hy; cases hy
  next z hk =>
    refine ⟨fun k y hy => ?_, hcl, hun, h.fds, h.raw, h.adding, h.subset, h.batch⟩
    have hkk : k ≠ src.key := by rintro rfl; simp at hy
    simp only [Function.update_of_ne hkk] at hy
    obtain ⟨hr, src', hsrc', hkey⟩ := h.slab k y hy
    refine ⟨hrem y hr ?_, src', hsrc', hkey⟩
    rintro rfl
    rw [hx] at hsrc'; cases hsrc'
    exact hkk hkey.symm

theorem Wf.close (h : Wf s) {x : κ} {src : Source W} (hx : s.source x = some src)
    (hr : s.removed x = true) (hc : s.closed x = false) : Wf { s with
      closed := Function.update s.closed x true
      fds := s.fds.erase src.raw
      epoll := Function.update s.epoll src.raw none } := by
  have hopen : ∀ y, Function.update s.closed x true y = false → y ≠ x ∧ s.closed y = false := by
    intro y hy
    have hyx : y ≠ x := by rintro rfl; simp at hy
    exact ⟨hyx, by simpa [hyx] using hy⟩
  refine ⟨h.slab, fun y hy => ?_, h.unborn, fun y src' hy hcy => ?_,
    fun y z src₁ src₂ hy hz hcy hcz => ?_, h.adding, fun r hm => ?_, h.batch⟩
  · by_cases hyx : y = x
    · subst hyx; exact hr
    · exact h.closed y (by simpa [hyx] using hy)
  · obtain ⟨hyx, hcy⟩ := hopen y hcy
    obtain ⟨hf, ha⟩ := h.fds y src' hy hcy
    refine ⟨(List.mem_erase_of_ne fun he => hyx ?_).2 hf, ha⟩
    exact h.raw y x src' src hy hx hcy hc he
  · exact h.raw y z src₁ src₂ hy hz (hopen y hcy).2 (hopen z hcz).2
  · refine (List.mem_erase_of_ne fun he => ?_).2 (h.subset hm)
    exact (h.fds x src hx hc).2 (he ▸ hm)

theorem Wf.step [DecidableEq W] (h : Wf s) {a : Act κ W} (hs : Sources.step s a = some s') :
    Wf s' := by
  cases step_cases hs with
  | pollerInsert hraw => exact h.pollerInsert hraw
  | insertIo hraw hx hk => exact h.insertIo hraw hx hk
  | removeIo hx => exact h.removeIo hx
  | close hx hr hc => exact h.close hx hr hc
  | pollReady hx _ hs => exact h.moves (moves_pollReady h hx hs)
  | react => exact h.moves ⟨rfl, rfl, rfl, rfl, rfl, fun _ => rfl, fun hn => absurd rfl hn⟩
  | next hs => exact h.moves (moves_reactStep h hs)
  | @waitEvents _ tick =>
    exact h.moves ⟨rfl, rfl, rfl, rfl, rfl, fun _ => rfl, fun _ => ⟨tick, Or.inl rfl⟩⟩
  | waitEmpty hr =>
    have hb := h.batch
    rw [hr] at hb
    exact h.moves ⟨rfl, rfl, rfl, rfl, rfl, fun _ => rfl, fun hn => by simpa using hb hn⟩
  | process hs => exact h.moves (moves_process hs)

theorem wf_reach [DecidableEq W] {C : State κ W → Act κ W → Prop} (h : system.Reach C s) : Wf s :=
  h.inv (fun _ hs => hs ▸ wf_init) fun _ _ _ _ hi _ hs => hi.step hs

end Steps

/-! ## Waiting directions are armed -/

/-- The descriptor is armed with the flags of `op` and the key of the source. -/
def Armed (s : State κ W) (src : Source W) (op : Op) : Prop :=
  ∃ reg, s.epoll src.raw = some reg ∧ reg.armed = true ∧ reg.key = src.key ∧ reg.flags op = true

/-- An event for the source is in the batch and not yet processed. -/
def Reported (s : State κ W) (src : Source W) : Prop :=
  ∃ ev ∈ s.batch, ev.raw = src.raw ∧ ev.key = src.key

/-- A source that somebody waits for is armed, or an event for it is in the batch. -/
def ArmedOk (s : State κ W) : Prop :=
  ∀ x src, Registered s x src → ∀ op, (src.states op).wakers ≠ [] → Armed s src op ∨ Reported s src

/-- The calls of `Poller::interest` succeed. -/
def Act.Succeeds : Act κ W → Prop
  | .pollReady _ _ _ ok | .process ok => ok = true
  | _ => True

instance : (a : Act κ W) → Decidable a.Succeeds
  | .pollReady _ _ _ ok | .process ok => inferInstanceAs (Decidable (ok = true))
  | .pollerInsert _ | .insertIo .. | .removeIo _ | .close _ | .react _ | .next | .waitEvents _
  | .waitEmpty _ => isTrue trivial

section Armed
variable [DecidableEq κ] {s s' : State κ W} {x : κ} {src src' : Source W} {op : Op}

omit [DecidableEq κ] in
/-- The registration of another open source is not touched. -/
theorem Armed.of_ne {e : ℕ → Option Reg} {raw : ℕ} {r : Option Reg} {op : Op} (hr : src.raw ≠ raw)
    (h : Armed s src op) (he : e = Function.update s.epoll raw r) :
    Armed { s with epoll := e } src op := by
  subst he
  obtain ⟨reg, hreg, h⟩ := h
  exact ⟨reg, by simpa [hr] using hreg, h⟩

omit [DecidableEq κ] in
theorem Wf.raw_ne (h : Wf s) {y : κ} (hx : Registered s x src) (hy : s.source y = some src')
    (hc : s.closed y = false) (hne : x ≠ y) : src.raw ≠ src'.raw :=
  fun he => hne (h.raw x y src src' hx.1 hy (h.registered hx).2 hc he)

omit [DecidableEq κ] in
/-- After `interest` the directions with wakers are armed. -/
theorem armed_interest (hw : (src.states op).wakers ≠ []) {t : State κ W}
    (ht : t.epoll = Function.update s.epoll src.raw (some ⟨true, src.interest, src.key⟩)) :
    Armed t src op :=
  ⟨⟨true, src.interest, src.key⟩, by rw [ht, Function.update_self], rfl, rfl, by
    simp [Source.interest, hw]⟩

theorem registered_setSource {y : κ} {src₂ : Source W} (hx : s.source x = some src)
    (hk : src'.key = src.key) (hy : Registered (s.setSource x src') y src₂) :
    (y = x ∧ src₂ = src' ∧ Registered s x src) ∨ y ≠ x ∧ Registered s y src₂ := by
  obtain ⟨hs₂, hsl⟩ := hy
  by_cases hyx : y = x
  · subst hyx
    simp only [State.setSource, Function.update_self, Option.some.injEq] at hs₂
    subst hs₂
    exact Or.inl ⟨rfl, rfl, hx, hk ▸ hsl⟩
  · simp only [State.setSource, Function.update_of_ne hyx] at hs₂
    exact Or.inr ⟨hyx, hs₂, hsl⟩

/-- A source is new, or it was registered before. -/
theorem registered_insertIo {raw key : ℕ} {y : κ} {src₂ : Source W}
    (hy : Registered (s.insertIo x raw key) y src₂) :
    (y = x ∧ src₂ = ⟨raw, key, fun _ => ⟨[], 0, none⟩⟩) ∨ y ≠ x ∧ Registered s y src₂ := by
  obtain ⟨hsrc, hsl⟩ := hy
  by_cases hyx : y = x
  · subst hyx
    simp only [State.insertIo, State.setSource, Function.update_self, Option.some.injEq] at hsrc
    exact Or.inl ⟨rfl, hsrc.symm⟩
  · simp only [State.insertIo, State.setSource, Function.update_of_ne hyx] at hsrc
    have hkk : src₂.key ≠ key := by
      intro he
      simp only [State.insertIo, he, Function.update_self, Option.some.injEq] at hsl
      exact hyx hsl.symm
    simp only [State.insertIo, Function.update_of_ne hkk] at hsl
    exact Or.inr ⟨hyx, hsrc, hsl⟩

omit [DecidableEq κ] in
/-- A source that is left was registered before, and its key is not the one removed. -/
theorem registered_erase {key : ℕ} {y : κ} {src₂ : Source W} (hsrc : s.source y = some src₂)
    (hsl : Function.update s.slab key none src₂.key = some y) :
    src₂.key ≠ key ∧ Registered s y src₂ := by
  have hkk : src₂.key ≠ key := by
    intro he; simp only [he, Function.update_self] at hsl; cases hsl
  rw [Function.update_of_ne hkk] at hsl
  exact ⟨hkk, hsrc, hsl⟩

theorem ArmedOk.pollReady [DecidableEq W] (hw : Wf s) (h : ArmedOk s) (hx : s.source x = some src)
    (hrem : s.removed x = false) {op : Op} {w : W} (hs : s.pollReady x src op w true = some s') :
    ArmedOk s' := by
  have hc : s.closed x = false := by
    by_contra hc
    rw [hw.closed x (by simpa using hc)] at hrem; cases hrem
  obtain ⟨src', hp, hcase⟩ := pollReady_cases hs
  -- the directions that waited before are armed or reported as before
  have hold : Registered s x src → ∀ op', (src.states op').wakers ≠ [] →
      Armed s src' op' ∨ Reported s src' := by
    intro hr op' hne
    have := h x src hr op' hne
    unfold Armed Reported at this ⊢
    rw [hp.raw, hp.key]
    exact this
  have hsame : (src'.states op).wakers = (src.states op).wakers ∨ (src.states op).wakers ≠ [] →
      ∀ op', (src'.states op').wakers ≠ [] → (src.states op').wakers ≠ [] := by
    intro hwk op' hne
    by_cases ho : op' = op
    · subst ho
      rcases hwk with hwk | hwk
      · rw [← hwk]; exact hne
      · exact hwk
    · rw [← hp.other op' ho]; exact hne
  have hkeep : ∀ y src₂ op', y ≠ x → Registered s y src₂ → (src₂.states op').wakers ≠ [] →
      Armed s src₂ op' ∨ Reported s src₂ := fun y src₂ op' _ hr hne => h y src₂ hr op' hne
  rcases hcase with ⟨hwk, rfl⟩ | ⟨-, ⟨hwk, rfl⟩ | ⟨-, hs⟩ | ⟨hf, -⟩⟩
  · intro y src₂ hy op' hne
    rcases registered_setSource hx hp.key hy with ⟨rfl, rfl, hr⟩ | ⟨hyx, hr⟩
    · exact hold hr op' (hsame (Or.inl hwk) op' hne)
    · exact hkeep y src₂ op' hyx hr hne
  · intro y src₂ hy op' hne
    rcases registered_setSource hx hp.key hy with ⟨rfl, rfl, hr⟩ | ⟨hyx, hr⟩
    · exact hold hr op' (hsame (Or.inr hwk) op' hne)
    · exact hkeep y src₂ op' hyx hr hne
  · rw [interest_some hs]
    intro y src₂ hy op' hne
    rcases registered_setSource hx hp.key hy with ⟨rfl, rfl, hr⟩ | ⟨hyx, hr⟩
    · refine Or.inl (armed_interest (s := s) hne ?_)
      rw [hp.raw, hp.key]; rfl
    · refine (hkeep y src₂ op' hyx hr hne).imp_left fun ha => ?_
      exact ha.of_ne (hw.raw_ne hr hx hc hyx) rfl
  · cases hf

theorem ArmedOk.process (hw : Wf s) (h : ArmedOk s) (hs : s.process true = some s') :
    ArmedOk s' := by
  obtain ⟨tick, ev, rest, hr, hb, hcase⟩ := process_cases hs
  -- the event is about one source only
  have hrest : ∀ src₂, Reported s src₂ → ev.key ≠ src₂.key → ∃ e ∈ rest, e.raw = src₂.raw ∧
      e.key = src₂.key := by
    rintro src₂ ⟨e, he, her, hek⟩ hne
    rw [hb] at he
    rcases List.mem_cons.1 he with rfl | he
    · exact absurd hek hne
    · exact ⟨e, he, her, hek⟩
  rcases hcase with ⟨hk, rfl⟩ | ⟨x, src, hk, hx, hcase⟩
  · intro y src₂ hy op hne
    refine (h y src₂ hy op hne).imp_right fun hrep => hrest src₂ hrep fun he => ?_
    have := hy.2
    rw [← he, hk] at this; cases this
  · obtain ⟨hrem, src₀, hx₀, hkey⟩ := hw.slab _ _ hk
    rw [hx] at hx₀; cases hx₀
    have hreg : Registered s x src := ⟨hx, hkey ▸ hk⟩
    have hother : ∀ y src₂ op, y ≠ x → Registered s y src₂ → (src₂.states op).wakers ≠ [] →
        Armed s src₂ op ∨ ∃ e ∈ rest, e.raw = src₂.raw ∧ e.key = src₂.key := by
      intro y src₂ op hyx hy hne
      refine (h y src₂ hy op hne).imp_right fun hrep => hrest src₂ hrep fun he => hyx ?_
      have := hy.2
      rw [← he, hk] at this
      exact (Option.some.inj this).symm
    have hdr : (src.drained tick ev).key = src.key := rfl
    rcases hcase with ⟨hno, rfl⟩ | ⟨-, hs⟩ | ⟨hf, -, -⟩
    · intro y src₂ hy op hne
      rcases registered_setSource hx hdr hy with ⟨rfl, rfl, -⟩ | ⟨hyx, hy⟩
      · have := hno op
        simp only [Source.interest, Bool.not_eq_false', List.isEmpty_iff] at this
        exact absurd this hne
      · exact hother y src₂ op hyx hy hne
    · rw [interest_some hs]
      intro y src₂ hy op hne
      rcases registered_setSource hx hdr hy with ⟨rfl, rfl, -⟩ | ⟨hyx, hy⟩
      · exact Or.inl (armed_interest (s := s) hne rfl)
      · refine (hother y src₂ op hyx hy hne).imp_left fun ha => ?_
        exact ha.of_ne (hw.raw_ne hy hx (hw.registered hreg).2 hyx) rfl
    · cases hf

omit [DecidableEq κ] in
/-- `epoll_wait` returns: what it disarms it reports. -/
theorem ArmedOk.waitEvents (h : ArmedOk s) (hb : s.batch = []) {evs : List Event} {tick : ℕ}
    (hevs : Batch s.epoll evs) :
    ArmedOk { s with
      epoll := fun raw =>
        if raw ∈ evs.map Event.raw then (s.epoll raw).map fun reg => { reg with armed := false }
        else s.epoll raw
      reacting := .batch tick
      batch := evs } := by
  intro y src₂ hy op hne
  rcases h y src₂ hy op hne with ⟨reg, hreg, ha⟩ | ⟨e, he, -⟩
  · by_cases hm : src₂.raw ∈ evs.map Event.raw
    · obtain ⟨ev, hev, hraw⟩ := List.mem_map.1 hm
      have hrep := hevs.2 ev hev
      rw [hraw, hreg] at hrep
      simp only [Option.any_some, Reg.reports, Bool.and_eq_true, beq_iff_eq] at hrep
      exact Or.inr ⟨ev, hev, hraw, hrep.1.2.trans ha.2.1⟩
    · exact Or.inl ⟨reg, by simpa only [if_neg hm] using hreg, ha⟩
  · rw [hb] at he; cases he

omit [DecidableEq κ] in
theorem ArmedOk.pollerInsert (hw : Wf s) (h : ArmedOk s) {raw : ℕ} (hraw : raw ∉ s.fds) :
    ArmedOk (s.pollerInsert raw) := by
  intro y src₂ hy op hne
  rcases h y src₂ hy op hne with ⟨reg, hreg, ha⟩ | hrep
  · have hne' : src₂.raw ≠ raw := by
      rintro rfl
      exact hraw (hw.fds y src₂ hy.1 (hw.registered hy).2).1
    exact Or.inl ⟨reg, by simpa [State.pollerInsert, hne'] using hreg, ha⟩
  · exact Or.inr hrep

theorem ArmedOk.insertIo (h : ArmedOk s) {raw key : ℕ} : ArmedOk (s.insertIo x raw key) := by
  intro y src₂ hy op hne
  rcases registered_insertIo hy with ⟨-, rfl⟩ | ⟨-, hy⟩
  · exact absurd rfl hne
  · exact h y src₂ hy op hne

theorem ArmedOk.removeIo (hw : Wf s) (h : ArmedOk s) (hx : s.source x = some src)
    (hc : s.closed x = false) : ArmedOk (s.removeIo x src) := by
  simp only [State.removeIo]
  split
  · intro y src₂ hy; exact h y src₂ hy
  · intro y src₂ hy op hne
    obtain ⟨hkk, hy⟩ := registered_erase (s := s) hy.1 hy.2
    have hyx : y ≠ x := by
      rintro rfl
      have : s.source y = some src₂ := hy.1
      rw [hx] at this; cases this
      exact hkk rfl
    refine (h y src₂ hy op hne).imp_left fun ha => ?_
    exact ha.of_ne (hw.raw_ne hy hx hc hyx) rfl

theorem ArmedOk.close (hw : Wf s) (h : ArmedOk s) (hx : s.source x = some src)
    (hr : s.removed x = true) (hc : s.closed x = false) : ArmedOk { s with
      closed := Function.update s.closed x true
      fds := s.fds.erase src.raw
      epoll := Function.update s.epoll src.raw none } := by
  intro y src₂ hy op hne
  have hyx : y ≠ x := by
    rintro rfl
    rw [(hw.registered hy).1] at hr; cases hr
  refine (h y src₂ hy op hne).imp_left fun ha => ?_
  exact ha.of_ne (hw.raw_ne hy hx hc hyx) rfl

theorem ArmedOk.step [DecidableEq W] (hw : Wf s) (h : ArmedOk s) {a : Act κ W} (ha : a.Succeeds)
    (hs : Sources.step s a = some s') : ArmedOk s' := by
  have hidle : (∀ tick, s.reacting ≠ .batch tick ∧ s.reacting ≠ .loop tick) → s.batch = [] := by
    intro hr
    by_contra hb
    obtain ⟨tick, ht | ht⟩ := hw.batch hb
    · exact (hr tick).1 ht
    · exact (hr tick).2 ht
  cases step_cases hs with
  | pollerInsert hraw => exact h.pollerInsert hw hraw
  | insertIo => exact h.insertIo
  | removeIo hx hc => exact h.removeIo hw hx hc
  | close hx hr hc => exact h.close hw hx hr hc
  | pollReady hx hrem hs =>
    cases (show _ = true from ha)
    exact ArmedOk.pollReady hw h hx hrem hs
  | react hr =>
    intro y src₂ hy op hne
    have := h y src₂ hy op hne
    unfold Reported at this ⊢
    rw [hidle (by simp [hr])] at this
    exact this
  | next hs =>
    have hsame := reactStep_same hs
    intro y src₂ hy op hne
    rw [Registered, hsame.source, hsame.slab] at hy
    rw [Armed, Reported, hsame.epoll, hsame.batch]
    exact h y src₂ hy op hne
  | waitEvents hr hevs => exact h.waitEvents (hidle (by simp [hr])) hevs
  | waitEmpty => exact fun y src₂ hy op hne => h y src₂ hy op hne
  | process hs =>
    cases (show _ = true from ha)
    exact ArmedOk.process hw h hs

end Armed

/-! ## Pending wakers are kept or moved -/

/-- A `Pending` of the log with no later move of its waker. -/
def Outstanding (log : List (Entry κ W)) (x : κ) (op : Op) (w : W) : Prop :=
  ∃ l₁ l₂, log = l₁ ++ .pending x op w :: l₂ ∧ .moved x op w ∉ l₂

theorem Outstanding.append {l m : List (Entry κ W)} {x : κ} {op : Op} {w : W}
    (h : Outstanding (l ++ m) x op w) :
    (Outstanding l x op w ∧ .moved x op w ∉ m) ∨ .pending x op w ∈ m := by
  obtain ⟨l₁, l₂, he, hn⟩ := h
  rcases List.append_eq_append_iff.1 he with ⟨k, rfl, hm⟩ | ⟨k, rfl, hm⟩
  · exact Or.inr (by rw [hm]; simp)
  · cases k with
    | nil =>
      rw [List.nil_append] at hm
      exact Or.inr (by rw [← hm]; simp)
    | cons e k =>
      simp only [List.cons_append, List.cons.injEq] at hm
      obtain ⟨rfl, rfl⟩ := hm
      refine Or.inl ⟨⟨l₁, k, rfl, fun hk => hn (List.mem_append_left _ hk)⟩, fun hk => ?_⟩
      exact hn (List.mem_append_right _ hk)

/-- A waker that was stored and not moved since is still in the source. -/
structure Kept (s : State κ W) : Prop where
  born : ∀ x op w, .pending x op w ∈ s.log → s.source x ≠ none
  kept : ∀ x src, Registered s x src → ∀ op w, Outstanding s.log x op w →
    w ∈ (src.states op).wakers

section Kept
variable [DecidableEq κ] {s s' : State κ W} {x : κ} {src src' : Source W} {op : Op}

omit [DecidableEq κ] in
/-- A step that leaves the wakers and the log alone. -/
theorem Kept.of_eq (h : Kept s) (hsrc : s'.source = s.source) (hlog : s'.log = s.log)
    (hslab : ∀ y src, Registered s' y src → s.slab src.key = some y) : Kept s' := by
  refine ⟨by rw [hsrc, hlog]; exact h.born, fun y src₂ hy op w ho => ?_⟩
  exact h.kept y src₂ ⟨hsrc ▸ hy.1, hslab y src₂ hy⟩ op w (hlog ▸ ho)

theorem Kept.pollReady [DecidableEq W] (h : Kept s) (hx : s.source x = some src) {w : W}
    {ok : Bool} (hs : s.pollReady x src op w ok = some s') : Kept s' := by
  obtain ⟨src', hp, hcase⟩ := pollReady_cases hs
  have hgrow : ∀ op' v, v ∈ (src.states op').wakers → v ∈ (src'.states op').wakers := by
    intro op' v hv
    by_cases ho : op' = op
    · subst ho; exact hp.wakers v hv
    · rw [hp.other op' ho]; exact hv
  have hborn : ∀ y, s.source y ≠ none → (s.setSource x src').source y ≠ none := by
    intro y hy
    by_cases hyx : y = x
    · subst hyx; simp [State.setSource]
    · simpa [State.setSource, hyx] using hy
  -- the log grows by at most this `Pending`
  have hkeep : ∀ log, (∀ y op' v, Outstanding log y op' v →
        Outstanding s.log y op' v ∨ y = x ∧ op' = op ∧ v = w) →
      (∀ y op' v, .pending y op' v ∈ log → .pending y op' v ∈ s.log ∨ y = x) →
      (w ∈ (src'.states op).wakers ∨ log = s.log) → ∀ t : State κ W, t.log = log →
      t.source = (s.setSource x src').source → t.slab = s.slab → Kept t := by
    intro log hout hpend hw t hlog hsrc hslab
    refine ⟨fun y op' v hm => ?_, fun y src₂ hy op' v ho => ?_⟩
    · rw [hsrc]
      rcases hpend y op' v (hlog ▸ hm) with hm | rfl
      · exact hborn y (h.born y op' v hm)
      · simp [State.setSource]
    · have hy' : Registered (s.setSource x src') y src₂ := ⟨hsrc ▸ hy.1, hslab ▸ hy.2⟩
      rw [hlog] at ho
      rcases registered_setSource hx hp.key hy' with ⟨rfl, rfl, hr⟩ | ⟨hyx, hr⟩
      · rcases hw with hw | rfl
        · rcases hout y op' v ho with ho | ⟨-, rfl, rfl⟩
          · exact hgrow op' v (h.kept y src hr op' v ho)
          · exact hw
        · exact hgrow op' v (h.kept y src hr op' v ho)
      · rcases hout y op' v ho with ho | ⟨rfl, -⟩
        · exact h.kept y src₂ hr op' v ho
        · exact absurd rfl hyx
  have hsame : ∀ t : State κ W, t.log = s.log → t.source = (s.setSource x src').source →
      t.slab = s.slab → Kept t :=
    hkeep s.log (fun _ _ _ => Or.inl) (fun _ _ _ => Or.inl) (Or.inr rfl)
  have hnew : w ∈ (src'.states op).wakers → ∀ t : State κ W,
      t.log = s.log ++ [.pending x op w] → t.source = (s.setSource x src').source →
      t.slab = s.slab → Kept t := by
    intro hw
    refine hkeep _ (fun y op' v ho => ?_) (fun y op' v hm => ?_) (Or.inl hw)
    · rcases ho.append with ⟨ho, -⟩ | hm
      · exact Or.inl ho
      · simp only [List.mem_singleton, Entry.pending.injEq] at hm
        exact Or.inr hm
    · rcases List.mem_append.1 hm with hm | hm
      · exact Or.inl hm
      · simp only [List.mem_singleton, Entry.pending.injEq] at hm
        exact Or.inr hm.1
  rcases hcase with ⟨-, rfl⟩ | ⟨hw, ⟨-, rfl⟩ | ⟨-, hs⟩ | ⟨-, rfl⟩⟩
  · exact hsame _ rfl rfl rfl
  · exact hnew hw _ rfl rfl rfl
  · rw [interest_some hs]; exact hnew hw _ rfl rfl rfl
  · exact hsame _ rfl rfl rfl

theorem Kept.process (h : Kept s) {ok : Bool} (hs : s.process ok = some s') : Kept s' := by
  obtain ⟨tick, ev, rest, hr, hb, hcase⟩ := process_cases hs
  rcases hcase with ⟨hk, rfl⟩ | ⟨x, src, hk, hx, hcase⟩
  · exact h.of_eq rfl rfl fun _ _ hy => hy.2
  · have hkeep : ∀ t : State κ W, t.log = s.log ++ (src.taken ev).map (fun e => .moved x e.1 e.2) →
        t.source = (s.setSource x (src.drained tick ev)).source → t.slab = s.slab → Kept t := by
      intro t hlog hsrc hslab
      refine ⟨fun y op v hm => ?_, fun y src₂ hy op v ho => ?_⟩
      · rw [hlog, List.mem_append] at hm
        rw [hsrc]
        rcases hm with hm | hm
        · by_cases hyx : y = x
          · subst hyx; simp [State.setSource]
          · simpa [State.setSource, hyx] using h.born y op v hm
        · simp at hm
      · have hy' : Registered (s.setSource x (src.drained tick ev)) y src₂ :=
          ⟨hsrc ▸ hy.1, hslab ▸ hy.2⟩
        rw [hlog] at ho
        obtain ⟨hout, hmv⟩ : Outstanding s.log y op v ∧
            .moved y op v ∉ (src.taken ev).map (fun e => Entry.moved x e.1 e.2) := by
          rcases ho.append with ho | hm
          · exact ho
          · simp at hm
        have hdr : (src.drained tick ev).key = src.key := rfl
        rcases registered_setSource hx hdr hy' with ⟨rfl, rfl, hreg⟩ | ⟨hyx, hreg⟩
        · -- a drained direction has moved all its wakers
          have hv := h.kept y src hreg op v hout
          have hnr : ev.ready op = false := by
            by_contra hrd
            exact hmv (List.mem_map.2 ⟨(op, v), mem_taken.2 ⟨by simpa using hrd, hv⟩, rfl⟩)
          simpa [Source.drained, hnr] using hv
        · exact h.kept y src₂ hreg op v hout
    rcases hcase with ⟨-, rfl⟩ | ⟨-, hs⟩ | ⟨-, -, rfl⟩
    · exact hkeep _ rfl rfl rfl
    · rw [interest_some hs]; exact hkeep _ rfl rfl rfl
    · exact hkeep _ rfl rfl rfl

theorem Kept.insertIo (h : Kept s) {raw key : ℕ} (hx : s.source x = none) :
    Kept (s.insertIo x raw key) := by
  have hne : ∀ y op v, .pending y op v ∈ s.log → y ≠ x := by
    rintro y op v hm rfl
    exact h.born y op v hm hx
  refine ⟨fun y op v hm => ?_, fun y src₂ hy op v ho => ?_⟩
  · simpa [State.insertIo, State.setSource, hne y op v hm] using h.born y op v hm
  · obtain ⟨l₁, l₂, hl, hn⟩ := ho
    have hyx : y ≠ x := hne y op v (by change _ ∈ (s.insertIo x raw key).log; rw [hl]; simp)
    rcases registered_insertIo hy with ⟨he, -⟩ | ⟨-, hy⟩
    · exact absurd he hyx
    · exact h.kept y src₂ hy op v ⟨l₁, l₂, hl, hn⟩

theorem Kept.removeIo (h : Kept s) : Kept (s.removeIo x src) := by
  simp only [State.removeIo]
  split
  · exact h.of_eq rfl rfl fun _ _ hy => hy.2
  · exact h.of_eq rfl rfl fun y src₂ hy => (registered_erase (s := s) hy.1 hy.2).2.2

theorem Kept.step [DecidableEq W] (h : Kept s) {a : Act κ W} (hs : Sources.step s a = some s') :
    Kept s' := by
  cases step_cases hs with
  | pollerInsert => exact h.of_eq rfl rfl fun _ _ hy => hy.2
  | insertIo _ hx => exact h.insertIo hx
  | removeIo => exact h.removeIo
  | close => exact h.of_eq rfl rfl fun _ _ hy => hy.2
  | pollReady hx _ hs => exact h.pollReady hx hs
  | react => exact h.of_eq rfl rfl fun _ _ hy => hy.2
  | next hs =>
    have hsame := reactStep_same hs
    exact h.of_eq hsame.source hsame.log fun _ _ hy => hsame.slab ▸ hy.2
  | waitEvents => exact h.of_eq rfl rfl fun _ _ hy => hy.2
  | waitEmpty => exact h.of_eq rfl rfl fun _ _ hy => hy.2
  | process hs => exact h.process hs

end Kept

/-! ## I/O waiters -/

theorem kept_init : Kept (init : State κ W) := by
  refine ⟨nofun, fun x src hx => ?_⟩
  cases hx.1

variable [DecidableEq κ] [DecidableEq W] {s : State κ W}

theorem kept_reach {C : State κ W → Act κ W → Prop} (h : system.Reach C s) : Kept s :=
  h.inv (fun _ hs => hs ▸ kept_init) fun _ _ _ _ hi _ hs => hi.step hs

theorem armed_reach (h : system.Reach (fun _ a => a.Succeeds) s) : ArmedOk s := by
  refine h.inv (fun s hs => ?_) fun _ _ _ hr hi ha hs => hi.step (wf_reach hr) ha hs
  subst hs
  intro x src hx
  cases hx.1

/-- **I/O waiters are always armed.** As long as the calls of `interest` succeed,
    a direction of a registered source with wakers is armed, or an event for it
    is in the batch; and a waker that got `Pending` is still stored, or was moved
    since. -/
theorem waiters_armed (h : system.Reach (fun _ a => a.Succeeds) s) {x : κ} {src : Source W}
    (hx : Registered s x src) (op : Op) :
    ((src.states op).wakers ≠ [] → Armed s src op ∨ Reported s src) ∧
    ∀ w l₁ l₂, s.log = l₁ ++ .pending x op w :: l₂ →
      w ∈ (src.states op).wakers ∨ .moved x op w ∈ l₂ := by
  refine ⟨armed_reach h x src hx op, fun w l₁ l₂ hl => ?_⟩
  by_cases hm : .moved x op w ∈ l₂
  · exact Or.inr hm
  · exact Or.inl ((kept_reach h).kept x src hx op w ⟨l₁, l₂, hl, hm⟩)

/-- A task waits to write while the event for the reader is in the batch. -/
def writeBehind : List (Act (Fin 1) ℕ) :=
  [.pollerInsert 5, .insertIo 0 5 0, .pollReady 0 .read 7 true, .react [], .next,
    .waitEvents [⟨5, 0, fun op => op = .read⟩], .pollReady 0 .write 8 true]

/-- The reader is reported, the writer is armed. -/
theorem waiters_armed_behind : ∃ (s : State (Fin 1) ℕ) (src : Source ℕ),
    system.run init writeBehind = some s ∧ Registered s 0 src ∧
      (src.states .read).wakers = [7] ∧ (src.states .write).wakers = [8] ∧
      (Armed s src .write ∨ Reported s src) := by
  have hm : system.Meets (fun _ a => a.Succeeds) init writeBehind := by decide +kernel
  exact ⟨_, _, rfl, ⟨rfl, rfl⟩, rfl, rfl,
    (waiters_armed (.run (.init rfl) hm rfl) ⟨rfl, rfl⟩ .write).1
      (by simp [Source.setDir, Dir.store])⟩

end Awak.Sources
