/-
  The thread of `Reactor::get` in `io/reactor.rs`, which serves the reactor when
  no other thread does.

  The thread compares the ticker with the last tick it has seen.  If nobody has
  called `react` since, it tries to take the reactor lock, and after ten sleeps
  waits for it; with the lock it calls `react(None)`.  While some thread is in
  `block_on` it then sleeps, up to ten milliseconds.  Each load of the ticker and
  of `block_on_count`, each operation on the reactor lock and each step of the
  parker is one step.

  The other threads `ι` are users of the reactor: they call `block_on`, take the
  reactor lock inside it, call `react` with the lock, and call `unpark` inside
  `block_on` and after it.

  * `Tally`: the iterations of the thread, what they have done, and what the
    others have done meanwhile;
  * `Paid`: place by place, what each iteration and each sleep is paid with;
  * `iterations_paid`: the thread does not spin;
  * `sleep_bounded`: the thread does not oversleep.
-/
import Awak.Lib.Word
import Awak.BlockOn

namespace Awak

/-! ## The counters of a parker -/

namespace Parking.Inner

variable {ι : Type} {s s' : Inner ι}

/-- A step changes neither the tokens granted nor the parks that have returned one. -/
structure SameCounts (s s' : Inner ι) : Prop where
  tokens : s'.tokens = s.tokens
  returned : s'.returned = s.returned

theorem park_counts {timeout : Option ℕ} (hs : s.park timeout = some s') : SameCounts s s' := by
  unfold park at hs
  split at hs
  · split_ifs at hs <;> cases hs <;> exact ⟨rfl, rfl⟩
  · cases hs

theorem parkStep_counts (hs : s.parkStep = some s') : SameCounts s s' := by
  unfold parkStep at hs
  split at hs <;> (try split_ifs at hs) <;> cases hs <;> exact ⟨rfl, rfl⟩

theorem wakeup_counts (hs : s.wakeup = some s') : SameCounts s s' := by
  unfold wakeup at hs
  split at hs <;> cases hs
  exact ⟨rfl, rfl⟩

theorem parkRet_counts {timeout : Option ℕ} {res : Bool} (hr : s.parking = .ret timeout res)
    (hs : s.parkRet = some s') :
    s'.tokens = s.tokens ∧ s'.returned = s.returned + if res then 1 else 0 := by
  rw [parkRet, hr] at hs
  cases res <;> cases hs <;> exact ⟨rfl, rfl⟩

variable [DecidableEq ι] {i : ι}

/-- A call of `unpark` grants at most one token. -/
theorem unpark_counts (hs : s.unpark i = some s') :
    s'.tokens ≤ s.tokens + 1 ∧ s'.returned = s.returned := by
  unfold unpark at hs
  split at hs
  · dsimp only at hs
    split_ifs at hs <;> cases hs <;> exact ⟨by simp [setUnpark], rfl⟩
  · cases hs

theorem unparkStep_counts (hs : s.unparkStep i = some s') : SameCounts s s' := by
  unfold unparkStep at hs
  split at hs <;> (try split_ifs at hs) <;> cases hs <;> exact ⟨rfl, rfl⟩

theorem unparkRet_counts (hs : s.unparkRet i = some s') : SameCounts s s' := by
  unfold unparkRet at hs
  split at hs <;> cases hs
  exact ⟨rfl, rfl⟩

end Parking.Inner

namespace ReactorThread

open Word

variable {ι : Type}

/-- The places of the thread in its loop. -/
inductive Pc where
  | tick
  /-- `Reactor::lock`, after ten sleeps -/
  | lock
  | tryLock
  /-- in `react(None)`, before the ticker is bumped -/
  | react
  /-- in `react(None)` after that, until `last_tick` is stored -/
  | record
  | unlock
  | count
  | park
  | parking
  /-- `park_timeout` has returned `true` -/
  | notified
  deriving DecidableEq

/-- The places of another thread. -/
inductive User where
  | out
  | inside
  /-- inside `block_on` with the reactor lock -/
  | locked
  /-- `block_on_count` is decremented, `unpark` is to follow -/
  | left
  deriving DecidableEq

/-- The thread is counted in `block_on_count`. -/
def User.Inside : User → Prop
  | .inside | .locked => True
  | .out | .left => False

/-- Who has the reactor lock. -/
inductive Holder (ι : Type) where
  | reactor
  | user (i : ι)
  deriving DecidableEq

/-- The reactor's counters and lock, its background thread, and the users. -/
structure State (ι : Type) where
  ticker : ℕ
  blockOnCount : ℕ
  /-- the reactor lock -/
  lock : Option (Holder ι)
  parker : Parking.Inner ι
  pc : Pc
  lastTick : ℕ
  sleeps : ℕ
  users : ι → User

/-- The thread begins its loop; nobody is in `block_on`. -/
def init : State ι where
  ticker := 0
  blockOnCount := 0
  lock := none
  parker := .new
  pc := .tick
  lastTick := 0
  sleeps := 0
  users _ := .out

/-- The delay before the next iteration, in microseconds. -/
def delayUs (sleeps : ℕ) : ℕ :=
  [50, 75, 100, 250, 500, 750, 1000, 2500, 5000][sleeps]?.getD 10000

/-- The moves of the thread, of its condition variable, and of the users. -/
inductive Act (ι : Type) where
  | next
  | wakeup
  /-- `add_block_on_count` -/
  | enter (i : ι)
  /-- `Reactor::try_lock` succeeds -/
  | tryLock (i : ι)
  /-- `react` bumps the ticker -/
  | react (i : ι)
  | unlock (i : ι)
  /-- `sub_block_on_count` -/
  | leave (i : ι)
  | unpark (i : ι)
  | unparkStep (i : ι)
  | unparkRet (i : ι)

namespace State

/-- A call of `react` adds one to the ticker. -/
def bump (s : State ι) : State ι := { s with ticker := wrappingAdd s.ticker 1 }

/-- The next step of the thread. -/
def next (s : State ι) : Option (State ι) :=
  match s.pc with
  | .tick =>
    if s.lastTick = s.ticker then
      some { s with pc := if 10 ≤ s.sleeps then .lock else .tryLock }
    else some { s with lastTick := s.ticker, pc := .count }
  | .lock => if s.lock = none then some { s with lock := some .reactor, pc := .react } else none
  | .tryLock =>
    if s.lock = none then some { s with lock := some .reactor, pc := .react }
    else some { s with pc := .count }
  | .react => some { s.bump with pc := .record }
  | .record => some { s with lastTick := s.ticker, sleeps := 0, pc := .unlock }
  | .unlock => some { s with lock := none, pc := .count }
  | .count => some { s with pc := if 0 < s.blockOnCount then .park else .tick }
  | .park =>
    (s.parker.park (some (delayUs s.sleeps))).map fun p => { s with parker := p, pc := .parking }
  | .parking =>
    match s.parker.parking with
    | .ret _ true => s.parker.parkRet.map fun p => { s with parker := p, pc := .notified }
    | .ret _ false => s.parker.parkRet.map fun p => { s with
        parker := p
        sleeps := s.sleeps + 1
        pc := .tick }
    | _ => s.parker.parkStep.map fun p => { s with parker := p }
  | .notified => some { s with lastTick := s.ticker, sleeps := 0, pc := .tick }

variable [DecidableEq ι]

/-- User `i` becomes `u`. -/
def setUser (s : State ι) (i : ι) (u : User) : State ι :=
  { s with users := Function.update s.users i u }

end State

section System
variable [DecidableEq ι]

/-- One operation of the thread or of a user. -/
def step (s : State ι) : Act ι → Option (State ι)
  | .next => s.next
  | .wakeup => s.parker.wakeup.map fun p => { s with parker := p }
  | .enter i =>
    if s.users i = .out then
      some ({ s with blockOnCount := s.blockOnCount + 1 }.setUser i .inside)
    else none
  | .tryLock i =>
    if s.users i = .inside ∧ s.lock = none then
      some ({ s with lock := some (.user i) }.setUser i .locked)
    else none
  | .react i => if s.users i = .locked then some s.bump else none
  | .unlock i =>
    if s.users i = .locked then some ({ s with lock := none }.setUser i .inside) else none
  | .leave i =>
    if s.users i = .inside ∧ s.parker.unparking i = .idle then
      some ({ s with blockOnCount := s.blockOnCount - 1 }.setUser i .left)
    else none
  | .unpark i =>
    if s.users i = .inside ∨ s.users i = .left then
      (s.parker.unpark i).map fun p => { s with parker := p }
    else none
  | .unparkStep i => (s.parker.unparkStep i).map fun p => { s with parker := p }
  | .unparkRet i =>
    (s.parker.unparkRet i).map fun p => { s with parker := p }.setUser i
      (if s.users i = User.left then .out else s.users i)

/-- The background thread, with any number of users. -/
def system : Lts (State ι) (Act ι) where
  init s := s = init
  step := step

end System

/-! ## The tally -/

/-- What the thread and the users have done in a run. -/
structure Tally where
  iterations : ℕ
  /-- its own calls of `react` -/
  reacts : ℕ
  /-- the calls of `react` by the users -/
  ticks : ℕ
  /-- the calls of `block_on` that have ended -/
  exits : ℕ
  /-- its calls of `park_timeout` -/
  parks : ℕ
  /-- the timeouts of these calls, in microseconds -/
  slept : ℕ
  /-- the calls of `unpark` -/
  unparks : ℕ
  deriving DecidableEq

/-- Nothing has been counted. -/
def Tally.new : Tally := ⟨0, 0, 0, 0, 0, 0, 0⟩

/-- What a step adds to the counts. -/
def Tally.record (g : Tally) (s : State ι) : Act ι → Tally
  | .next =>
    match s.pc with
    | .tick => { g with iterations := g.iterations + 1 }
    | .react => { g with reacts := g.reacts + 1 }
    | .park => { g with parks := g.parks + 1, slept := g.slept + delayUs s.sleeps }
    | _ => g
  | .react _ => { g with ticks := g.ticks + 1 }
  | .leave _ => { g with exits := g.exits + 1 }
  | .unpark _ => { g with unparks := g.unparks + 1 }
  | _ => g

/-- The system with its tally. -/
def recorded [DecidableEq ι] : Lts (State ι × Tally) (Act ι) := system.monitor .new Tally.record

/-- What the iterations are paid with. -/
def Tally.paid (g : Tally) : ℕ := g.reacts + g.ticks + g.exits + g.parks

/-! ## The delays -/

/-- The time for the first `sleeps` sleeps after a reset, up to ten. -/
def quota (sleeps : ℕ) : ℕ := ((List.range (min sleeps 10)).map delayUs).sum

theorem quota_zero : quota 0 = 0 := rfl

theorem quota_le (sleeps : ℕ) : quota sleeps ≤ 20225 := by
  have hle : ∀ n ≤ 10, ((List.range n).map delayUs).sum ≤ 20225 := by decide
  exact hle _ (Nat.min_le_right _ _)

theorem quota_succ {sleeps : ℕ} (h : sleeps < 10) :
    quota (sleeps + 1) = quota sleeps + delayUs sleeps := by
  rw [quota, quota, Nat.min_eq_left h, Nat.min_eq_left h.le, List.range_succ]
  simp

/-- From the tenth sleep on the delay is ten milliseconds. -/
theorem quota_late {sleeps : ℕ} (h : 10 ≤ sleeps) :
    quota (sleeps + 1) = quota sleeps ∧ delayUs sleeps = 10000 := by
  constructor
  · rw [quota, quota, Nat.min_eq_right h, Nat.min_eq_right (h.trans (Nat.le_succ _))]
  · rw [delayUs, List.getElem?_eq_none (by simp; omega)]
    rfl

/-! ## The invariant -/

/-- A tick that the thread has not seen yet. -/
def State.unseen (s : State ι) : ℕ := if s.lastTick = s.ticker then 0 else 1

/-- What the time slept is paid with. -/
def Tally.allowed (g : Tally) (returned : ℕ) : ℕ := 20225 * (g.reacts + returned) + 10000 * g.ticks

/-- At each place: the iterations and the sleeps are paid, and a tick not seen yet is
    still to be spent. -/
def Paid (s : State ι) (g : Tally) : Pc → Prop
  | .tick => g.iterations + s.unseen ≤ g.paid ∧
      g.slept + 10000 * s.unseen ≤ g.allowed s.parker.returned + quota s.sleeps
  | .lock | .react => g.iterations + s.unseen ≤ g.paid + 1 ∧
      g.slept + 10000 * s.unseen ≤ g.allowed s.parker.returned + quota s.sleeps
  | .tryLock => g.iterations + s.unseen ≤ g.paid + 1 ∧
      g.slept + 10000 * s.unseen ≤ g.allowed s.parker.returned + quota s.sleeps ∧ s.sleeps < 10
  | .record => g.iterations ≤ g.paid ∧ g.slept ≤ g.allowed s.parker.returned
  | .unlock => g.iterations + s.unseen ≤ g.paid ∧
      g.slept + 10000 * s.unseen ≤ g.allowed s.parker.returned ∧ s.sleeps = 0
  -- without a sleep the iteration is paid by a call of `block_on` that has ended
  | .count => g.iterations + s.unseen ≤ g.paid + 1 ∧
      (s.blockOnCount = 0 → g.iterations + s.unseen ≤ g.paid) ∧
      g.slept + 10000 * (s.unseen + if s.sleeps < 10 then 0 else 1) ≤
        g.allowed s.parker.returned + quota s.sleeps
  | .park => g.iterations + s.unseen ≤ g.paid + 1 ∧
      g.slept + 10000 * (s.unseen + if s.sleeps < 10 then 0 else 1) ≤
        g.allowed s.parker.returned + quota s.sleeps
  | .parking => g.iterations + s.unseen ≤ g.paid ∧
      g.slept + 10000 * s.unseen ≤ g.allowed s.parker.returned + quota (s.sleeps + 1)
  | .notified => g.iterations + s.unseen ≤ g.paid ∧
      g.slept + 10000 * s.unseen ≤ g.allowed s.parker.returned

/-- The places at which the thread holds the reactor lock. -/
def Pc.Locked : Pc → Prop
  | .react | .record | .unlock => True
  | _ => False

/-- The invariant: the lock, the count and the tokens are right, and the current iteration is
    paid. -/
structure Inv (s : State ι) (g : Tally) : Prop where
  parker : Parking.Inv s.parker
  reactor : s.lock = some .reactor ↔ s.pc.Locked
  users : ∀ i, s.lock = some (.user i) ↔ s.users i = .locked
  count : ∃ inside : Finset ι, (∀ i, i ∈ inside ↔ (s.users i).Inside) ∧
    s.blockOnCount = inside.card
  tokens : s.parker.tokens ≤ g.unparks
  paid : Paid s g s.pc

theorem inv_init : Inv (init : State ι) .new where
  parker := Parking.inv_new
  reactor := ⟨nofun, fun h => h.elim⟩
  users _ := ⟨nofun, nofun⟩
  count := ⟨∅, fun _ => ⟨nofun, fun h => h.elim⟩, rfl⟩
  tokens := le_rfl
  paid := ⟨le_rfl, Nat.zero_le _⟩

variable {s s' : State ι} {g g' : Tally}

/-- The users owe the thread a payment for each tick that it has not seen, and for the
    last call of `block_on` that ends. -/
structure Pays (s s' : State ι) (g g' : Tally) : Prop where
  iterations : g'.iterations = g.iterations
  slept : g'.slept = g.slept
  sleeps : s'.sleeps = s.sleeps
  mono : g.paid ≤ g'.paid ∧ g.allowed s.parker.returned ≤ g'.allowed s'.parker.returned
  paid : g.paid + s'.unseen ≤ g'.paid + s.unseen
  allowed : g.allowed s.parker.returned + 10000 * s'.unseen ≤
    g'.allowed s'.parker.returned + 10000 * s.unseen
  count : s'.blockOnCount = 0 → s.blockOnCount = 0 ∨ g.paid + 1 + s'.unseen ≤ g'.paid + s.unseen

theorem Paid.mono {pc : Pc} (h : Paid s g pc) (hp : Pays s s' g g') : Paid s' g' pc := by
  obtain ⟨hi, hsl, hs, ⟨hm, hma⟩, hpaid, hallowed, hcount⟩ := hp
  cases pc <;> simp only [Paid, hi, hsl, hs] at h ⊢
  case tick | lock | react | unlock | parking | notified => omega
  case tryLock => omega
  case record => omega
  case count =>
    obtain ⟨h₁, h₂, h₃⟩ := h
    refine ⟨by omega, fun hc => ?_, by omega⟩
    rcases hcount hc with hc | hc
    · have := h₂ hc
      omega
    · omega
  case park => omega

/-- A step that leaves the tally and what it is about alone. -/
theorem Pays.of_eq (hc : s'.blockOnCount ≠ 0 ∨ s'.blockOnCount = s.blockOnCount)
    (hs : s'.sleeps = s.sleeps) (ht : s'.unseen = s.unseen)
    (hr : s'.parker.returned = s.parker.returned) : Pays s s' g g := by
  refine ⟨rfl, rfl, hs, ⟨le_rfl, by rw [hr]⟩, by rw [ht], by rw [ht, hr], fun h => Or.inl ?_⟩
  rcases hc with hc | hc
  · exact absurd h hc
  · exact hc ▸ h

theorem State.unseen_le (s : State ι) : s.unseen ≤ 1 := by
  unfold State.unseen
  split_ifs <;> omega

namespace Inv

/-- A step of the thread outside its parker. -/
theorem thread (h : Inv s g) {pc : Pc} (hpc : s.pc = pc) (hlocked : pc.Locked ↔ s'.pc.Locked)
    (hp : s'.parker = s.parker) (hl : s'.lock = s.lock) (hu : s'.users = s.users)
    (hc : s'.blockOnCount = s.blockOnCount) (hun : g'.unparks = g.unparks)
    (hpaid : Paid s' g' s'.pc) : Inv s' g' where
  parker := hp ▸ h.parker
  reactor := by rw [hl, ← hlocked, ← hpc]; exact h.reactor
  users i := by rw [hl, hu]; exact h.users i
  count := by rw [hu, hc]; exact h.count
  tokens := by rw [hp, hun]; exact h.tokens
  paid := hpaid

/-- The thread takes the reactor lock. -/
theorem take (h : Inv s g) (hl : s.lock = none)
    (hpaid : Paid s g .react) : Inv { s with lock := some .reactor, pc := .react } g where
  parker := h.parker
  reactor := ⟨fun _ => trivial, fun _ => rfl⟩
  users i := by
    refine ⟨nofun, fun hu => ?_⟩
    have hlock := (h.users i).2 hu
    rw [hl] at hlock
    cases hlock
  count := h.count
  tokens := h.tokens
  paid := hpaid

/-- A lock that is taken, and not by the thread, is taken by a user. -/
theorem holder (h : Inv s g) (hpc : ¬ s.pc.Locked) (hl : s.lock ≠ none) :
    ∃ i, s.lock = some (.user i) := by
  obtain ⟨holder, hlock⟩ := Option.ne_none_iff_exists'.1 hl
  cases holder with
  | user i => exact ⟨i, hlock⟩
  | reactor => exact absurd (h.reactor.1 hlock) hpc

/-- While the lock is taken by a user, some thread is in `block_on`. -/
theorem count_pos (h : Inv s g) {i : ι} (hl : s.lock = some (.user i)) : s.blockOnCount ≠ 0 := by
  obtain ⟨inside, hmem, hcard⟩ := h.count
  have hi : i ∈ inside := (hmem i).2 (by rw [(h.users i).1 hl]; trivial)
  rw [hcard]
  exact Finset.card_ne_zero_of_mem hi

/-- A step of the thread inside its parker. -/
theorem parked (h : Inv s g) (hpc : ¬ s.pc.Locked) {p : Parking.Inner ι} (hp : Parking.Inv p)
    (ht : p.tokens = s.parker.tokens) (hpar : s'.parker = p) (hl : s'.lock = s.lock)
    (hu : s'.users = s.users) (hc : s'.blockOnCount = s.blockOnCount)
    (hun : g'.unparks = g.unparks) (hlocked : ¬ s'.pc.Locked) (hpaid : Paid s' g' s'.pc) :
    Inv s' g' where
  parker := hpar ▸ hp
  reactor := by rw [hl]; exact h.reactor.trans (iff_of_false hpc hlocked)
  users i := by rw [hl, hu]; exact h.users i
  count := by rw [hu, hc]; exact h.count
  tokens := by rw [hpar, ht, hun]; exact h.tokens
  paid := hpaid

theorem next (h : Inv s g) (hs : s.next = some s') : Inv s' (g.record s (.next : Act ι)) := by
  have hpaid := h.paid
  unfold State.next at hs
  split at hs <;> rename_i hpc <;> rw [hpc] at hpaid <;> simp only [Tally.record, hpc]
  · obtain ⟨hit, hsl⟩ := hpaid
    split_ifs at hs with heq hlate <;> cases hs
    · have hit' : g.iterations + 1 + s.unseen ≤ g.paid + 1 := by omega
      exact h.thread hpc .rfl rfl rfl rfl rfl rfl ⟨hit', hsl⟩
    · have hit' : g.iterations + 1 + s.unseen ≤ g.paid + 1 := by omega
      exact h.thread hpc .rfl rfl rfl rfl rfl rfl ⟨hit', hsl, not_le.1 hlate⟩
    · -- the tick that is seen now pays for this iteration
      have hunseen : s.unseen = 1 := if_neg heq
      have hseen : State.unseen { s with lastTick := s.ticker, pc := .count } = 0 := if_pos rfl
      rw [hunseen] at hit hsl
      refine h.thread hpc .rfl rfl rfl rfl rfl rfl ⟨?_, fun _ => ?_, ?_⟩
      · rw [hseen]
        exact Nat.le_succ_of_le hit
      · rw [hseen]
        exact hit
      · rw [hseen]
        refine le_trans ?_ hsl
        dsimp only
        split_ifs <;> omega
  · split_ifs at hs with hl
    cases hs
    exact h.take hl hpaid
  · split_ifs at hs with hl <;> cases hs
    · exact h.take hl ⟨hpaid.1, hpaid.2.1⟩
    · obtain ⟨hit, hsl, hearly⟩ := hpaid
      refine h.thread hpc .rfl rfl rfl rfl rfl rfl ⟨hit, fun hc => ?_, ?_⟩
      · -- the holder of the lock is in `block_on`
        obtain ⟨i, hi⟩ := h.holder (by rw [hpc]; exact id) hl
        exact absurd hc (h.count_pos hi)
      · dsimp only
        rw [if_pos hearly]
        exact hsl
  · obtain ⟨hit, hsl⟩ := hpaid
    cases hs
    have hquota := quota_le s.sleeps
    refine h.thread hpc .rfl rfl rfl rfl rfl rfl ?_
    simp only [Paid, State.bump, Tally.paid, Tally.allowed] at hit hsl ⊢
    omega
  · obtain ⟨hit, hsl⟩ := hpaid
    cases hs
    have hseen : State.unseen { s with lastTick := s.ticker, sleeps := 0, pc := .unlock } = 0 :=
      if_pos rfl
    refine h.thread hpc .rfl rfl rfl rfl rfl rfl ⟨?_, ?_, rfl⟩
    · rw [hseen]
      exact hit
    · rw [hseen]
      exact hsl
  · obtain ⟨hit, hsl, hzero⟩ := hpaid
    cases hs
    have hlock := h.reactor.2 (by rw [hpc]; trivial)
    refine ⟨h.parker, ⟨nofun, fun hl => hl.elim⟩, fun i => ⟨nofun, fun hu => ?_⟩, h.count, h.tokens,
      Nat.le_succ_of_le hit, fun _ => hit, ?_⟩
    · have hl := (h.users i).2 hu
      rw [hlock] at hl
      cases hl
    · dsimp only
      rw [hzero, quota_zero, if_pos (by decide)]
      exact hsl
  · obtain ⟨hit, hzero, hsl⟩ := hpaid
    split_ifs at hs with hc <;> cases hs
    · exact h.thread hpc .rfl rfl rfl rfl rfl rfl ⟨hit, hsl⟩
    · refine h.thread hpc .rfl rfl rfl rfl rfl rfl ⟨hzero (by omega), ?_⟩
      exact le_trans (Nat.add_le_add_left (Nat.mul_le_mul_left _ (Nat.le_add_right _ _)) _) hsl
  · obtain ⟨hit, hsl⟩ := hpaid
    obtain ⟨p, hp, rfl⟩ := Option.map_eq_some_iff.1 hs
    obtain ⟨ht, hr⟩ := Parking.Inner.park_counts hp
    refine h.parked (by rw [hpc]; exact id) (h.parker.parkCall hp) ht rfl rfl rfl rfl rfl id
      ⟨?_, ?_⟩
    · have hit' : g.iterations + s.unseen ≤ g.reacts + g.ticks + g.exits + (g.parks + 1) := hit
      exact hit'
    · have hsl' : g.slept + delayUs s.sleeps + 10000 * s.unseen ≤
          g.allowed s.parker.returned + quota (s.sleeps + 1) := by
        by_cases hearly : s.sleeps < 10
        · rw [if_pos hearly] at hsl
          rw [quota_succ hearly]
          omega
        · rw [if_neg hearly] at hsl
          obtain ⟨hquota, hdelay⟩ := quota_late (not_lt.1 hearly)
          rw [hquota, hdelay]
          omega
      rw [hr]
      exact hsl'
  · obtain ⟨hit, hsl⟩ := hpaid
    have hfree : ¬ s.pc.Locked := by rw [hpc]; exact id
    split at hs
    · rename_i hret
      obtain ⟨p, hp, rfl⟩ := Option.map_eq_some_iff.1 hs
      obtain ⟨ht, hr⟩ := Parking.Inner.parkRet_counts hret hp
      have hquota := quota_le (s.sleeps + 1)
      have hsl' : g.slept + 10000 * s.unseen ≤ g.allowed p.returned := by
        simp only [Tally.allowed, hr, if_true] at hsl ⊢
        omega
      exact h.parked hfree (h.parker.parkRet hp) ht rfl rfl rfl rfl rfl id ⟨hit, hsl'⟩
    · rename_i hret
      obtain ⟨p, hp, rfl⟩ := Option.map_eq_some_iff.1 hs
      obtain ⟨ht, hr⟩ := Parking.Inner.parkRet_counts hret hp
      refine h.parked hfree (h.parker.parkRet hp) ht rfl rfl rfl rfl rfl id ⟨hit, ?_⟩
      rw [show p.returned = s.parker.returned by simpa using hr]
      exact hsl
    · obtain ⟨p, hp, rfl⟩ := Option.map_eq_some_iff.1 hs
      obtain ⟨ht, hr⟩ := Parking.Inner.parkStep_counts hp
      refine h.parked hfree (h.parker.parkStep hp) ht rfl rfl rfl rfl rfl hfree ?_
      change Paid _ _ s.pc
      rw [hpc]
      refine ⟨hit, ?_⟩
      rw [hr]
      exact hsl
  · obtain ⟨hit, hsl⟩ := hpaid
    cases hs
    have hseen : State.unseen { s with lastTick := s.ticker, sleeps := 0, pc := .tick } = 0 :=
      if_pos rfl
    refine h.thread hpc .rfl rfl rfl rfl rfl rfl ⟨?_, ?_⟩
    · rw [hseen]
      exact (Nat.le_add_right _ _).trans hit
    · rw [hseen]
      exact (Nat.le_add_right _ _).trans hsl

/-- A step of a user in the parker of the thread. -/
theorem unparked (h : Inv s g) {p : Parking.Inner ι} (hp : Parking.Inv p)
    (ht : p.tokens ≤ g'.unparks)
    (hg : Pays s { s with parker := p } g g') : Inv { s with parker := p } g' where
  parker := hp
  reactor := h.reactor
  users := h.users
  count := h.count
  tokens := ht
  paid := h.paid.mono hg

variable [DecidableEq ι]

/-- A user moves between the places inside `block_on`, or outside. -/
theorem moves (h : Inv s g) {i : ι} {u : User} (hin : (s.users i).Inside ↔ u.Inside)
    {l : Option (Holder ι)} (hreactor : s.lock = some .reactor ↔ l = some .reactor)
    (hlock : l = some (.user i) ↔ u = .locked)
    (hne : ∀ j, j ≠ i → (l = some (.user j) ↔ s.users j = .locked)) :
    Inv ({ s with lock := l }.setUser i u) g where
  parker := h.parker
  reactor := hreactor.symm.trans h.reactor
  users j := by
    by_cases hj : j = i
    · subst hj
      simpa [State.setUser] using hlock
    · simpa [State.setUser, hj] using hne j hj
  count := by
    obtain ⟨inside, hmem, hcard⟩ := h.count
    refine ⟨inside, fun j => ?_, hcard⟩
    by_cases hj : j = i
    · subst hj
      simpa [State.setUser] using (hmem j).trans hin
    · simpa [State.setUser, hj] using hmem j
  tokens := h.tokens
  paid := h.paid.mono (.of_eq (Or.inr rfl) rfl rfl rfl)

/-- A user enters or leaves `block_on`. -/
theorem counted (h : Inv s g) {i : ι} {u : User} {n : ℕ} (hi : s.users i ≠ .locked)
    (hu : u ≠ .locked) (inside : Finset ι) (hcard : n = inside.card)
    (hmem : ∀ j, j ∈ inside ↔ if j = i then u.Inside else (s.users j).Inside)
    (hun : g'.unparks = g.unparks) (hg : Pays s ({ s with blockOnCount := n }.setUser i u) g g') :
    Inv ({ s with blockOnCount := n }.setUser i u) g' where
  parker := h.parker
  reactor := h.reactor
  users j := by
    by_cases hj : j = i
    · subst hj
      simpa [State.setUser, hu] using fun hl => hi ((h.users j).1 hl)
    · simpa [State.setUser, hj] using h.users j
  count := by
    refine ⟨inside, fun j => (hmem j).trans ?_, hcard⟩
    by_cases hj : j = i
    · subst hj
      simp [State.setUser]
    · simp [State.setUser, hj]
  tokens := hun ▸ h.tokens
  paid := h.paid.mono hg

/-- Every step keeps the invariant. -/
theorem step (h : Inv s g) {a : Act ι} (hs : ReactorThread.step s a = some s') :
    Inv s' (g.record s a) := by
  cases a with
  | next => exact h.next hs
  | wakeup =>
    obtain ⟨p, hp, rfl⟩ := Option.map_eq_some_iff.1 hs
    obtain ⟨ht, hr⟩ := Parking.Inner.wakeup_counts hp
    exact h.unparked (h.parker.wakeup hp) (ht ▸ h.tokens) (.of_eq (Or.inr rfl) rfl rfl hr)
  | enter i =>
    simp only [ReactorThread.step] at hs
    split_ifs at hs with hu
    cases hs
    obtain ⟨inside, hmem, hcard⟩ := h.count
    have hi : i ∉ inside := fun hi => by simpa [hu, User.Inside] using (hmem i).1 hi
    refine h.counted (by rw [hu]; nofun) nofun (insert i inside)
      (by rw [Finset.card_insert_of_notMem hi, hcard]) (fun j => ?_) rfl
      (.of_eq (Or.inl (Nat.succ_ne_zero _)) rfl rfl rfl)
    rw [Finset.mem_insert]
    by_cases hj : j = i
    · simp [hj, User.Inside]
    · simp [hj, hmem]
  | tryLock i =>
    simp only [ReactorThread.step] at hs
    split_ifs at hs with hu
    cases hs
    obtain ⟨hu, hl⟩ := hu
    refine h.moves (by rw [hu]; exact .rfl) (by simp [hl]) (by simp) fun j hj => ?_
    rw [← h.users j, hl]
    simp [Ne.symm hj]
  | react i =>
    simp only [ReactorThread.step] at hs
    split_ifs at hs with hu
    cases hs
    have hunseen := s.bump.unseen_le
    exact ⟨h.parker, h.reactor, h.users, h.count, h.tokens, h.paid.mono
      ⟨rfl, rfl, rfl, by simp only [Tally.paid, Tally.allowed, State.bump, Tally.record]; omega,
        by simp only [Tally.paid, Tally.record]; omega,
        by simp only [Tally.allowed, Tally.record, State.bump] at hunseen ⊢; omega, Or.inl⟩⟩
  | unlock i =>
    simp only [ReactorThread.step] at hs
    split_ifs at hs with hu
    cases hs
    have hl := (h.users i).2 hu
    refine h.moves (by rw [hu]; exact .rfl) (by simp [hl]) (by simp) fun j hj => ?_
    rw [← h.users j, hl]
    simp [Ne.symm hj]
  | leave i =>
    simp only [ReactorThread.step] at hs
    split_ifs at hs with hu
    cases hs
    obtain ⟨hu, -⟩ := hu
    obtain ⟨inside, hmem, hcard⟩ := h.count
    have hi : i ∈ inside := (hmem i).2 (by rw [hu]; trivial)
    have hpaid : (g.record s (.leave i)).paid = g.paid + 1 := by
      simp only [Tally.paid, Tally.record]
      omega
    refine h.counted (by rw [hu]; nofun) nofun (inside.erase i)
      (by rw [Finset.card_erase_of_mem hi, hcard]) (fun j => ?_) rfl
      ⟨rfl, rfl, rfl, ⟨hpaid ▸ Nat.le_succ _, le_rfl⟩, ?_, le_rfl, fun _ => Or.inr ?_⟩
    · rw [Finset.mem_erase]
      by_cases hj : j = i
      · simp [hj, User.Inside]
      · simp [hj, hmem]
    · rw [hpaid]
      exact Nat.add_le_add_right (Nat.le_succ _) s.unseen
    · rw [hpaid]
      exact le_rfl
  | unpark i =>
    simp only [ReactorThread.step] at hs
    split_ifs at hs
    obtain ⟨p, hp, rfl⟩ := Option.map_eq_some_iff.1 hs
    obtain ⟨ht, hr⟩ := Parking.Inner.unpark_counts hp
    exact h.unparked (h.parker.unparkCall hp) (ht.trans (Nat.succ_le_succ h.tokens))
      ⟨rfl, rfl, rfl, ⟨le_rfl, by rw [hr]; rfl⟩, le_rfl, by rw [hr]; rfl, Or.inl⟩
  | unparkStep i =>
    obtain ⟨p, hp, rfl⟩ := Option.map_eq_some_iff.1 hs
    obtain ⟨ht, hr⟩ := Parking.Inner.unparkStep_counts hp
    exact h.unparked (h.parker.unparkStep hp) (ht ▸ h.tokens) (.of_eq (Or.inr rfl) rfl rfl hr)
  | unparkRet i =>
    obtain ⟨p, hp, rfl⟩ := Option.map_eq_some_iff.1 hs
    obtain ⟨ht, hr⟩ := Parking.Inner.unparkRet_counts hp
    have hret := h.unparked (h.parker.unparkRet hp) (ht ▸ h.tokens)
      (.of_eq (Or.inr rfl) rfl rfl hr)
    refine hret.moves (l := s.lock) ?_ .rfl ?_ fun j _ => h.users j
    · dsimp only
      split_ifs with hu
      · rw [hu]; exact .rfl
      · exact .rfl
    · split_ifs with hu
      · rw [h.users i, hu]
        simp
      · exact h.users i

end Inv

theorem inv_reach [DecidableEq ι] {p : State ι × Tally} (h : recorded.Reachable p) :
    Inv p.1 p.2 := by
  refine h.inv (P := fun p => Inv p.1 p.2) (fun p hp => ?_) fun p a p' _ ih _ hs => ?_
  · obtain ⟨s, g⟩ := p
    obtain ⟨rfl, rfl⟩ := hp
    exact inv_init
  · obtain ⟨hstep, hrecord⟩ := Lts.monitor_step hs
    exact hrecord ▸ ih.step hstep

/-! ## The thread neither spins nor oversleeps -/

variable {s : State ι} {g : Tally}

/-- At each place the iterations are paid, but for the current one. -/
theorem Paid.iterations {pc : Pc} (h : Paid s g pc) : g.iterations ≤ g.paid + 1 := by
  cases pc <;> simp only [Paid] at h <;> omega

theorem Paid.slept {pc : Pc} (h : Paid s g pc) :
    g.slept ≤ g.allowed s.parker.returned + 20225 := by
  have hquota := quota_le s.sleeps
  have hnext := quota_le (s.sleeps + 1)
  cases pc <;> simp only [Paid] at h <;> omega

/-- A user takes the reactor lock and calls `react`; the thread sleeps twice, and calls
    `react` itself once the user has left. -/
def serveTwice : List (Act (Fin 1)) :=
  [Act.enter 0, .tryLock 0, .react 0] ++ List.replicate 6 .next ++ [Act.wakeup] ++
    List.replicate 11 .next ++ [Act.wakeup] ++ List.replicate 4 .next ++ [Act.unlock 0, .leave 0] ++
    List.replicate 7 .next

/-- **The thread does not oversleep.** In every run, its sleeps add up to at most
    `20225` microseconds, and as much for each own call of `react` and for each call of
    `unpark`, and ten milliseconds for each call of `react` by another thread. -/
theorem sleep_bounded [DecidableEq ι] {p : State ι × Tally} (h : recorded.Reachable p) :
    p.2.slept ≤ 20225 * (p.2.reacts + p.2.unparks + 1) + 10000 * p.2.ticks := by
  have hinv := inv_reach h
  have hslept := hinv.paid.slept
  have htokens := hinv.parker.token
  have htaken := hinv.parker.taken
  have hunparks := hinv.tokens
  simp only [Tally.allowed] at hslept
  omega

theorem sleep_bounded_twice : ∃ p : State (Fin 1) × Tally,
    recorded.run (init, .new) serveTwice = some p ∧ p.2.slept = 125 ∧ p.2.ticks = 1 ∧
      p.2.slept ≤ 20225 * (p.2.reacts + p.2.unparks + 1) + 10000 * p.2.ticks := by
  obtain ⟨p, hs, hi, hr⟩ : ∃ p : State (Fin 1) × Tally,
      recorded.run (init, .new) serveTwice = some p ∧ p.2.slept = 125 ∧ p.2.ticks = 1 :=
    Lts.exists_run (by decide +kernel)
  have hinit : recorded.init ((init, .new) : State (Fin 1) × Tally) := ⟨rfl, rfl⟩
  exact ⟨p, hs, hi, hr, sleep_bounded (.run (.init hinit) (Lts.meets_true _ _) hs)⟩

end ReactorThread
end Awak
