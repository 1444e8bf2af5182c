/-
  The threads of `block_on` next to the reactor thread: what they do to the reactor is what the
  users of the reactor thread's model do.

  The events of a run are the calls of `block_on` that begin and end, the reactor lock
  taken and dropped, the ticker bumped, and `unpark` called.  The reactor thread of
  `block_on`'s model is only its calls of `react`; between them the thread of this
  model goes around its loop, and sleeps as long as somebody is in `block_on`.

  * `Event`, `Event.Allowed`: the events, and where in a run they may be;
  * `traced_reach`: what the events of a run say of its state;
  * `Rests`: the thread between two calls of `react`;
  * `Uses`: users and thread for a state of `block_on`;
  * `block_on_uses`: every run of `block_on` has the events of a run of the users and
    the thread.
-/
import Awak.Lib.History
import Awak.ReactorThread

namespace Awak

namespace Parking.Inner

variable {ι : Type} {s : Inner ι}

/-- Nobody is in a call of the parker. -/
structure Quiet (s : Inner ι) : Prop where
  state : s.state = EMPTY ∨ s.state = NOTIFIED
  lock : s.lock = none
  parking : s.parking = .idle
  unparking : ∀ i, s.unparking i = .idle

variable [DecidableEq ι]

/-- With nobody in the parker, `unpark` answers at once, and leaves the token. -/
theorem Quiet.unpark (h : s.Quiet) (i : ι) :
    ∃ (q : Inner ι) (r : Bool), s.unpark i = some (q.setUnpark i (.ret r)) ∧ q.Quiet := by
  unfold Inner.unpark
  rw [h.unparking i]
  rcases h.state with he | hn
  · exact ⟨{ s with state := NOTIFIED, tokens := s.tokens + 1 }, true, if_pos he,
      Or.inr rfl, h.lock, h.parking, h.unparking⟩
  · refine ⟨{ s with state := NOTIFIED }, false, ?_, Or.inr rfl, h.lock, h.parking, h.unparking⟩
    dsimp only
    rw [if_neg (by rw [hn]; decide), if_pos hn]

/-- The call returns, and nobody is in the parker again. -/
theorem Quiet.unparkRet (h : s.Quiet) (i : ι) (r : Bool) :
    (s.setUnpark i (.ret r)).unparkRet i = some s := by
  have hidle : Function.update s.unparking i .idle = s.unparking := by
    rw [← h.unparking i, Function.update_eq_self]
  simp [Inner.unparkRet, setUnpark, hidle]

end Parking.Inner

namespace ReactorThread

open Word

variable {ι : Type}

/-! ## Traces -/

/-- What is done to the reactor: calls of `block_on` begin and end, the reactor lock is taken
    and dropped, `react` bumps the ticker, and `unpark` is called. -/
inductive Event (ι : Type) where
  | enter (i : ι)
  | acquire (h : Holder ι)
  | tick (h : Holder ι)
  | release (h : Holder ι)
  | leave (i : ι)
  | unpark (i : ι)
  deriving DecidableEq

/-- A call of `react` begins. -/
def Event.isTick : Event ι → Bool
  | .tick _ => true
  | _ => false

/-- Who has the reactor lock after these events. -/
def heldBy (es : List (Event ι)) : Option (Holder ι) :=
  es.foldl (fun l e => match e with
    | .acquire h => some h
    | .release _ => none
    | _ => l) none

/-- Whether `i` is in `block_on` after these events. -/
def isInside [DecidableEq ι] (es : List (Event ι)) (i : ι) : Bool :=
  es.foldl (fun b e => match e with
    | .enter j => if j = i then true else b
    | .leave j => if j = i then false else b
    | _ => b) false

/-- The lock is taken when it is free, and the ticker bumped with the lock; users do both only
    inside `block_on`. -/
def Event.Allowed [DecidableEq ι] (pre : List (Event ι)) : Event ι → Prop
  | .acquire h => heldBy pre = none ∧ ∀ i, h = .user i → isInside pre i = true
  | .tick h => heldBy pre = some h ∧ ∀ i, h = .user i → isInside pre i = true
  | _ => True

section Traces
variable [DecidableEq ι]

/-- The events of a step. -/
def events (s : State ι) : Act ι → List (Event ι)
  | .next =>
    match s.pc with
    | .lock => [.acquire .reactor]
    | .tryLock => if s.lock = none then [.acquire .reactor] else []
    | .react => [.tick .reactor]
    | .unlock => [.release .reactor]
    | _ => []
  | .enter i => [.enter i]
  | .tryLock i => [.acquire (.user i)]
  | .react i => [.tick (.user i)]
  | .unlock i => [.release (.user i)]
  | .leave i => [.leave i]
  | .unpark i => [.unpark i]
  | .wakeup | .unparkStep _ | .unparkRet _ => []

/-- What the events so far say of the state. -/
structure Traced (s : State ι) (es : List (Event ι)) : Prop where
  allowed : History.Each Event.Allowed es
  lock : heldBy es = s.lock
  inside : ∀ i, isInside es i = true ↔ (s.users i).Inside
  ticker : s.ticker = wrap (es.countP Event.isTick)

omit [DecidableEq ι] in
theorem heldBy_concat (es : List (Event ι)) (e : Event ι) :
    heldBy (es ++ [e]) = match e with
      | .acquire h => some h
      | .release _ => none
      | _ => heldBy es := by
  unfold heldBy
  rw [List.foldl_append]
  rfl

theorem isInside_concat (es : List (Event ι)) (e : Event ι) (i : ι) :
    isInside (es ++ [e]) i = match e with
      | .enter j => if j = i then true else isInside es i
      | .leave j => if j = i then false else isInside es i
      | _ => isInside es i := by
  unfold isInside
  rw [List.foldl_append]
  rfl

namespace Traced

variable {s s' : State ι} {es : List (Event ι)}

theorem init : Traced (init : State ι) [] :=
  ⟨History.each_nil, rfl, fun _ => ⟨fun h => absurd h Bool.false_ne_true, fun h => h.elim⟩, rfl⟩

/-- A step without an event. -/
theorem silent (h : Traced s es) (hl : s'.lock = s.lock) (ht : s'.ticker = s.ticker)
    (hu : ∀ i, (s'.users i).Inside ↔ (s.users i).Inside) : Traced s' es :=
  ⟨h.allowed, h.lock.trans hl.symm, fun i => (h.inside i).trans (hu i).symm, ht.trans h.ticker⟩

/-- An event that is no tick, and after which the same threads are in `block_on`. -/
theorem locks (h : Traced s es) {e : Event ι} (he : e.Allowed es) (htick : e.isTick = false)
    (hin : ∀ i, isInside (es ++ [e]) i = isInside es i) (hl : heldBy (es ++ [e]) = s'.lock)
    (ht : s'.ticker = s.ticker) (hu : ∀ i, (s'.users i).Inside ↔ (s.users i).Inside) :
    Traced s' (es ++ [e]) := by
  refine ⟨h.allowed.concat he, hl, fun i => ?_, ?_⟩
  · rw [hin]
    exact (h.inside i).trans (hu i).symm
  · rw [ht, h.ticker, List.countP_append]
    simp [htick]

/-- The ticker is bumped. -/
theorem bump (h : Traced s es) {x : Holder ι} (hl : s.lock = some x)
    (hx : ∀ i, x = .user i → (s.users i).Inside) {s' : State ι} (hl' : s'.lock = s.lock)
    (ht : s'.ticker = wrappingAdd s.ticker 1) (hu : s'.users = s.users) :
    Traced s' (es ++ [.tick x]) := by
  refine ⟨h.allowed.concat ⟨h.lock.trans hl, fun i hi => (h.inside i).2 (hx i hi)⟩, ?_, fun i => ?_, ?_⟩
  · rw [heldBy_concat, h.lock, hl']
  · rw [isInside_concat, hu]
    exact h.inside i
  · rw [ht, h.ticker, wrappingAdd_wrap, List.countP_append]
    rfl

/-- The lock is taken. -/
theorem acquire (h : Traced s es) (hl : s.lock = none) {x : Holder ι}
    (hx : ∀ i, x = .user i → (s.users i).Inside) (hl' : s'.lock = some x)
    (ht : s'.ticker = s.ticker) (hu : ∀ i, (s'.users i).Inside ↔ (s.users i).Inside) :
    Traced s' (es ++ [.acquire x]) :=
  h.locks ⟨h.lock.trans hl, fun i hi => (h.inside i).2 (hx i hi)⟩ rfl
    (fun _ => isInside_concat ..) ((heldBy_concat ..).trans hl'.symm) ht hu

/-- The lock is dropped. -/
theorem release (h : Traced s es) (x : Holder ι) (hl' : s'.lock = none)
    (ht : s'.ticker = s.ticker) (hu : ∀ i, (s'.users i).Inside ↔ (s.users i).Inside) :
    Traced s' (es ++ [.release x]) :=
  h.locks trivial rfl (fun _ => isInside_concat ..) ((heldBy_concat ..).trans hl'.symm) ht hu

/-- A call of `block_on` begins or ends. -/
theorem counts (h : Traced s es) {e : Event ι} (he : e.Allowed es) (htick : e.isTick = false)
    (hl : heldBy (es ++ [e]) = heldBy es) (hl' : s'.lock = s.lock) (ht : s'.ticker = s.ticker)
    (hin : ∀ i, isInside (es ++ [e]) i = true ↔ (s'.users i).Inside) : Traced s' (es ++ [e]) := by
  refine ⟨h.allowed.concat he, hl.trans (h.lock.trans hl'.symm), hin, ?_⟩
  rw [ht, h.ticker, List.countP_append]
  simp [htick]

theorem next {g : Tally} (h : Traced s es) (hi : Inv s g) (hs : s.next = some s') :
    Traced s' (es ++ events s .next) := by
  have hsilent : ∀ {t : State ι}, t.lock = s.lock → t.ticker = s.ticker → t.users = s.users →
      Traced t (es ++ []) := by
    intro t hl ht hu
    rw [List.append_nil]
    exact h.silent hl ht fun i => by rw [hu]
  unfold State.next at hs
  split at hs <;> rename_i hpc <;> simp only [events, hpc]
  · split_ifs at hs <;> cases hs <;> exact hsilent rfl rfl rfl
  · split_ifs at hs with hl
    cases hs
    exact h.acquire hl (by simp) rfl rfl fun _ => .rfl
  · split_ifs at hs with hl <;> cases hs
    · rw [if_pos hl]
      exact h.acquire hl (by simp) rfl rfl fun _ => .rfl
    · rw [if_neg hl]
      exact hsilent rfl rfl rfl
  · cases hs
    exact h.bump (hi.reactor.2 (by rw [hpc]; trivial)) (by simp) rfl rfl rfl
  · cases hs
    exact hsilent rfl rfl rfl
  · cases hs
    exact h.release .reactor rfl rfl fun _ => .rfl
  · cases hs
    exact hsilent rfl rfl rfl
  · obtain ⟨p, -, rfl⟩ := Option.map_eq_some_iff.1 hs
    exact hsilent rfl rfl rfl
  · split at hs <;> obtain ⟨p, -, rfl⟩ := Option.map_eq_some_iff.1 hs <;> exact hsilent rfl rfl rfl
  · cases hs
    exact hsilent rfl rfl rfl

/-- A user moves. -/
theorem inside_setUser (s : State ι) (i : ι) {u : User} (hu : (s.users i).Inside ↔ u.Inside) (j : ι) :
    ((s.setUser i u).users j).Inside ↔ (s.users j).Inside := by
  by_cases hj : j = i
  · subst hj
    simpa [State.setUser] using hu.symm
  · simp [State.setUser, hj]

theorem step {g : Tally} (h : Traced s es) (hi : Inv s g) {a : Act ι}
    (hs : ReactorThread.step s a = some s') : Traced s' (es ++ events s a) := by
  have hsilent : ∀ {t : State ι}, t.lock = s.lock → t.ticker = s.ticker →
      (∀ i, (t.users i).Inside ↔ (s.users i).Inside) → Traced t (es ++ []) := by
    intro t hl ht hu
    rw [List.append_nil]
    exact h.silent hl ht hu
  cases a with
  | next => exact h.next hi hs
  | wakeup =>
    obtain ⟨p, -, rfl⟩ := Option.map_eq_some_iff.1 hs
    exact hsilent rfl rfl fun _ => .rfl
  | enter i =>
    simp only [ReactorThread.step] at hs
    split_ifs at hs with hu
    cases hs
    refine h.counts trivial rfl (heldBy_concat ..) rfl rfl fun j => ?_
    rw [isInside_concat]
    by_cases hj : i = j
    · subst hj
      simp [State.setUser, User.Inside]
    · simp [State.setUser, hj, Ne.symm hj, h.inside j]
  | tryLock i =>
    simp only [ReactorThread.step] at hs
    split_ifs at hs with hu
    cases hs
    obtain ⟨hu, hl⟩ := hu
    refine h.acquire hl ?_ rfl rfl (inside_setUser _ i (by rw [hu]; exact .rfl))
    rintro _ ⟨⟩
    rw [hu]
    trivial
  | react i =>
    simp only [ReactorThread.step] at hs
    split_ifs at hs with hu
    cases hs
    refine h.bump ((hi.users i).2 hu) ?_ rfl rfl rfl
    rintro _ ⟨⟩
    rw [hu]
    trivial
  | unlock i =>
    simp only [ReactorThread.step] at hs
    split_ifs at hs with hu
    cases hs
    exact h.release _ rfl rfl (inside_setUser _ i (by rw [hu]; exact .rfl))
  | leave i =>
    simp only [ReactorThread.step] at hs
    split_ifs at hs with hu
    cases hs
    refine h.counts trivial rfl (heldBy_concat ..) rfl rfl fun j => ?_
    rw [isInside_concat]
    by_cases hj : i = j
    · subst hj
      simp [State.setUser, User.Inside]
    · simp [State.setUser, hj, Ne.symm hj, h.inside j]
  | unpark i =>
    simp only [ReactorThread.step] at hs
    split_ifs at hs
    obtain ⟨p, -, rfl⟩ := Option.map_eq_some_iff.1 hs
    exact h.counts trivial rfl (heldBy_concat ..) rfl rfl fun j => by
      rw [isInside_concat]; exact h.inside j
  | unparkStep i =>
    obtain ⟨p, -, rfl⟩ := Option.map_eq_some_iff.1 hs
    exact hsilent rfl rfl fun _ => .rfl
  | unparkRet i =>
    obtain ⟨p, -, rfl⟩ := Option.map_eq_some_iff.1 hs
    refine hsilent rfl rfl (inside_setUser _ i ?_)
    dsimp only
    split_ifs with hu
    · rw [hu]
      exact .rfl
    · exact .rfl

end Traced

theorem traced_reach {p : State ι × List (Event ι)} (h : (system.trace events).Reachable p) :
    Traced p.1 p.2 := by
  refine h.inv (P := fun p => Traced p.1 p.2) (fun p hp => ?_) fun p a p' hr ih _ hs => ?_
  · rw [show p.1 = init from hp.1, hp.2]
    exact .init
  · obtain ⟨hstep, hrecord⟩ := Lts.monitor_step hs
    have hreach : system.Reachable p.1 := Lts.monitor_reach (C := fun _ _ => True) hr
    obtain ⟨g, hg⟩ := hreach.monitor Tally.new Tally.record
    rw [hrecord]
    exact ih.step (inv_reach hg) hstep

end Traces

/-! ## The thread at rest -/

theorem delayUs_pos (sleeps : ℕ) : 0 < delayUs sleeps := by
  by_cases h : sleeps < 9
  · interval_cases sleeps <;> decide
  · rw [delayUs, List.getElem?_eq_none (by simp; omega)]
    decide

section Rest
variable [DecidableEq ι]

/-- Steps of the thread between two iterations, after which it is at the start of its loop. -/
structure Rests (t t' : State ι) : Prop where
  emits : system.Emits events t [] t'
  pc : t'.pc = .tick
  users : t'.users = t.users
  lock : t'.lock = t.lock
  ticker : t'.ticker = t.ticker
  lastTick : t.lastTick = t.ticker → t'.lastTick = t.ticker
  quiet : t'.parker.Quiet

variable {t : State ι}

theorem emits_next {t' : State ι} (hs : t.next = some t') (he : events t .next = []) :
    system.Emits events t [] t' :=
  .single (S := system) (a := .next) hs he

/-- The thread in `park_timeout`. -/
def State.inPark (t : State ι) (state : ℕ) (lock : Option (Parking.Holder ι))
    (parking : Parking.ParkPc) : State ι :=
  { t with pc := .parking, parker := { t.parker with
      state := state
      lock := lock
      parking := parking } }

omit [DecidableEq ι] in
theorem next_inPark {state state' : ℕ} {lock lock' : Option (Parking.Holder ι)}
    {q q' : Parking.ParkPc} (hq : ∀ d r, q ≠ .ret d r)
    (hs : Parking.Inner.parkStep { t.parker with state := state, lock := lock, parking := q } =
      some { t.parker with state := state', lock := lock', parking := q' }) :
    (t.inPark state lock q).next = some (t.inPark state' lock' q') := by
  simp only [State.next, State.inPark]
  cases q with
  | ret d r => exact absurd rfl (hq d r)
  | _ => simp only [hs, Option.map_some]

/-- Without a token `park_timeout` waits, and the timeout ends it. -/
theorem rests_timeout (hq : t.parker.Quiet) (hempty : t.parker.state = Parking.EMPTY)
    (hpc : t.pc = .park) : ∃ t', Rests t t' := by
  obtain ⟨d, hd⟩ : ∃ d, d = some (delayUs t.sleeps) := ⟨_, rfl⟩
  have hcall : t.next = some (t.inPark Parking.EMPTY none (.lock d)) := by
    have hne : d ≠ some 0 := by simp [hd, (delayUs_pos t.sleeps).ne']
    simp only [State.next, hpc, Parking.Inner.park, hq.parking, hempty, ← hd, if_neg hne]
    simp [Parking.EMPTY, Parking.NOTIFIED, State.inPark, hq.lock]
  have hlock : (t.inPark Parking.EMPTY none (.lock d)).next =
      some (t.inPark Parking.EMPTY (some .parker) (.cas d)) := next_inPark (by simp) rfl
  have hcas : (t.inPark Parking.EMPTY (some .parker) (.cas d)).next =
      some (t.inPark Parking.PARKED (some .parker) (.wait d)) := next_inPark (by simp) rfl
  have hwait : (t.inPark Parking.PARKED (some .parker) (.wait d)).next =
      some (t.inPark Parking.PARKED none (.waiting d false)) := next_inPark (by simp) rfl
  have hwakeup : system.Emits events (t.inPark Parking.PARKED none (.waiting d false)) []
      (t.inPark Parking.PARKED none (.waiting d true)) :=
    .single (S := system) (a := .wakeup) rfl rfl
  have hwoken : (t.inPark Parking.PARKED none (.waiting d true)).next =
      some (t.inPark Parking.PARKED (some .parker) (.check d)) := next_inPark (by simp) rfl
  have hcheck : (t.inPark Parking.PARKED (some .parker) (.check d)).next =
      some (t.inPark Parking.EMPTY (some .parker) (.unlock d false)) := by
    rw [hd]
    exact next_inPark (by simp) rfl
  have hunlock : (t.inPark Parking.EMPTY (some .parker) (.unlock d false)).next =
      some (t.inPark Parking.EMPTY none (.ret d false)) := next_inPark (by simp) rfl
  have hret : (t.inPark Parking.EMPTY none (.ret d false)).next = some { t with
      parker := { t.parker with state := Parking.EMPTY, lock := none, parking := .idle }
      sleeps := t.sleeps + 1
      pc := .tick } := rfl
  have hbefore := (((emits_next hcall (by simp [events, hpc])).trans (emits_next hlock rfl)).trans
    (emits_next hcas rfl)).trans (emits_next hwait rfl)
  have hafter := (((emits_next hwoken rfl).trans (emits_next hcheck rfl)).trans
    (emits_next hunlock rfl)).trans (emits_next hret rfl)
  exact ⟨_, (hbefore.trans hwakeup).trans hafter, rfl, rfl, rfl, rfl, id, Or.inl rfl, rfl, rfl,
    hq.unparking⟩

/-- With a token it returns at once. -/
theorem rests_notified (hq : t.parker.Quiet) (hn : t.parker.state = Parking.NOTIFIED)
    (hpc : t.pc = .park) : ∃ t', Rests t t' := by
  obtain ⟨d, hd⟩ : ∃ d, d = some (delayUs t.sleeps) := ⟨_, rfl⟩
  obtain ⟨q, hq'⟩ : ∃ q : Parking.Inner ι, q = { t.parker with
      state := Parking.EMPTY
      taken := t.parker.taken + 1
      parking := .ret d true } := ⟨_, rfl⟩
  have hcall : t.next = some { t with parker := q, pc := .parking } := by
    simp only [State.next, hpc, Parking.Inner.park, hq.parking, hn, if_true, ← hd, hq',
      Option.map_some]
  have hret : State.next { t with parker := q, pc := .parking } = some { t with
      parker := { q with returned := q.returned + 1, parking := .idle }
      pc := .notified } := by
    subst hq'
    rfl
  have hreset : State.next { t with
      parker := { q with returned := q.returned + 1, parking := .idle }
      pc := .notified } = some { t with
      parker := { q with returned := q.returned + 1, parking := .idle }
      lastTick := t.ticker
      sleeps := 0
      pc := .tick } := rfl
  refine ⟨_, ((emits_next hcall (by simp [events, hpc])).trans (emits_next hret rfl)).trans
    (emits_next hreset rfl), rfl, rfl, rfl, rfl, fun _ => rfl, ?_⟩
  subst hq'
  exact ⟨Or.inl rfl, hq.lock, rfl, hq.unparking⟩

/-- After its turn with the reactor, or without it, the thread comes back to the start. -/
theorem rests_count (hq : t.parker.Quiet) (hpc : t.pc = .count) : ∃ t', Rests t t' := by
  have hcount : t.next = some { t with pc := if 0 < t.blockOnCount then .park else .tick } := by
    simp only [State.next, hpc]
  have hemits := emits_next hcount (by simp [events, hpc])
  by_cases hc : 0 < t.blockOnCount
  · rw [if_pos hc] at hemits
    obtain ⟨t', ht'⟩ : ∃ t', Rests { t with pc := .park } t' := by
      rcases hq.state with he | hn
      · exact rests_timeout hq he rfl
      · exact rests_notified hq hn rfl
    exact ⟨t', { ht' with emits := hemits.trans ht'.emits }⟩
  · rw [if_neg hc] at hemits
    exact ⟨_, hemits, rfl, rfl, rfl, rfl, id, hq⟩

/-- The thread takes the reactor lock when it is free. -/
theorem takes_lock (hq : t.parker.Quiet) (hpc : t.pc = .tick) (hl : t.lock = none) :
    ∃ t', system.Emits events t [.acquire .reactor] t' ∧ t'.pc = .react ∧ t'.users = t.users ∧
      t'.lock = some .reactor ∧ t'.parker.Quiet := by
  -- it has seen the current tick
  have hseen : ∀ u : State ι, u.parker.Quiet → u.pc = .tick → u.lock = none → u.lastTick = u.ticker →
      ∃ t', system.Emits events u [.acquire .reactor] t' ∧ t'.pc = .react ∧ t'.users = u.users ∧
        t'.lock = some .reactor ∧ t'.parker.Quiet := by
    intro u hq hpc hl hlast
    have htick : u.next = some { u with pc := if 10 ≤ u.sleeps then .lock else .tryLock } := by
      simp only [State.next, hpc, hlast, if_true]
    have hemits := emits_next htick (by simp [events, hpc])
    obtain ⟨v, hv⟩ : ∃ v, v = { u with pc := if 10 ≤ u.sleeps then Pc.lock else .tryLock } :=
      ⟨_, rfl⟩
    have hacquire : system.step v .next = some { u with lock := some .reactor, pc := .react } ∧
        events v .next = [.acquire .reactor] := by
      rw [hv]
      simp only [system, ReactorThread.step, State.next, events]
      split_ifs <;> simp
    rw [← hv] at hemits
    exact ⟨_, hemits.trans (.single hacquire.1 hacquire.2), rfl, rfl, rfl, hq⟩
  by_cases hlast : t.lastTick = t.ticker
  · exact hseen t hq hpc hl hlast
  · have htick : t.next = some { t with lastTick := t.ticker, pc := .count } := by
      simp only [State.next, hpc, if_neg hlast]
    obtain ⟨u, hu⟩ := rests_count (t := { t with lastTick := t.ticker, pc := .count }) hq rfl
    obtain ⟨t', he, hreact, husers, hlock, hquiet⟩ := hseen u hu.quiet hu.pc (hu.lock.trans hl)
      ((hu.lastTick rfl).trans hu.ticker.symm)
    refine ⟨t', ?_, hreact, husers.trans hu.users, hlock, hquiet⟩
    exact ((emits_next htick (by simp [events, hpc])).trans hu.emits).trans he

end Rest

/-! ## The users run `block_on` -/

section BlockOn
variable [DecidableEq ι]

/-- What a place of `block_on` is to the reactor.  A thread that is in `react` outside
    `block_on` is the reactor thread. -/
def User.ofPc : BlockOn.Pc → User
  | .out | .done | .react .out _ => .out
  | .setPolling0 | .unpoll0 | .unlock0 | .setPolling | .setBlocked | .ask .inner | .ask .after
  | .check .inner | .check .after | .react .. | .elapsed | .dropLock | .unpoll .again
  | .unpoll .leave | .unblock .again | .unblock .leave | .unlock => .locked
  | _ => .inside

/-- Where the reactor thread is, if it is the thread at this place. -/
def reactorPc : BlockOn.Pc → Option Pc
  | .react .out .pre => some .react
  | .react .out _ => some .record
  | _ => none

/-- Who holds the lock when `i` does in the model of `block_on`. -/
def holder (s : BlockOn.State ι) (i : ι) : Holder ι :=
  if reactorPc (s.pc i) = none then .user i else .reactor

/-- The events of a step of `block_on`.  The step to `Poller::wait` bumps the ticker, and the
    step that ends `block_on` runs its guard. -/
def ofBlockOn (s : BlockOn.State ι) : BlockOn.Act ι → List (Event ι)
  | .enter i => [.enter i]
  | .polled i true => [.leave i, .unpark i]
  | .next i =>
    match s.pc i with
    | .try1 | .try2 => if s.lock = none then [.acquire (.user i)] else []
    | .unlock0 | .dropLock | .unlock => [.release (.user i)]
    | .unparkReactor => [.unpark i]
    | _ => []
  | .react _ => [.acquire .reactor]
  | .wait i _ => [.tick (holder s i)]
  | .woken i => if reactorPc (s.pc i) = none then [] else [.release .reactor]
  | _ => []

/-- The threads in `block_on` as users of the reactor, next to the reactor thread. -/
structure Uses (s : BlockOn.State ι) (t : State ι) : Prop where
  users : ∀ i, t.users i = .ofPc (s.pc i)
  lock : t.lock = s.lock.map (holder s)
  rest : (∀ i, reactorPc (s.pc i) = none) → t.pc = .tick
  reacting : ∀ i pc, reactorPc (s.pc i) = some pc → t.pc = pc
  quiet : t.parker.Quiet

namespace Uses

variable {s s' : BlockOn.State ι} {t t' : State ι} {i : ι} {p : BlockOn.Pc}

omit [DecidableEq ι] in
theorem holder_congr (h : ∀ j, reactorPc (s'.pc j) = reactorPc (s.pc j)) : holder s' = holder s := by
  funext j
  rw [holder, holder, h j]

/-- A step of a thread that is one of the user, or of the thread. -/
theorem moved (h : Uses s t) (hpc : s'.pc = Function.update s.pc i p)
    (hr : reactorPc p = reactorPc (s.pc i)) (hu : t'.users = Function.update t.users i (.ofPc p))
    (hl : t'.lock = s'.lock.map (holder s)) (ht : t'.pc = t.pc) (hq : t'.parker.Quiet) :
    Uses s' t' := by
  have hreactor : ∀ j, reactorPc (s'.pc j) = reactorPc (s.pc j) := by
    intro j
    rw [hpc, Function.update_apply]
    split_ifs with hj
    · rw [hj, hr]
    · rfl
  refine ⟨fun j => ?_, by rw [holder_congr hreactor, hl], fun hrest => ?_, fun j pc hj => ?_, hq⟩
  · rw [hu, hpc, Function.update_apply, Function.update_apply]
    split_ifs
    · rfl
    · exact h.users j
  · rw [ht]
    exact h.rest fun j => by rw [← hreactor j, hrest j]
  · rw [ht]
    exact h.reacting j pc (by rw [← hreactor j, hj])

/-- A step that changes neither the reactor lock nor what a thread is to the reactor. -/
theorem stay (h : Uses s t) (hl : s'.lock = s.lock) (hpc : s'.pc = Function.update s.pc i p)
    (hp : User.ofPc p = .ofPc (s.pc i)) (hr : reactorPc p = reactorPc (s.pc i)) :
    ∃ t', system.Emits events t [] t' ∧ Uses s' t' := by
  refine ⟨t, .refl t, h.moved hpc hr ?_ (hl ▸ h.lock) rfl h.quiet⟩
  rw [hp, ← h.users i, Function.update_eq_self]

omit [DecidableEq ι] in
/-- A step that moves no thread. -/
theorem same (h : Uses s t) (hl : s'.lock = s.lock) (hpc : s'.pc = s.pc) : Uses s' t :=
  ⟨fun j => hpc ▸ h.users j, by rw [hl, h.lock, holder_congr fun j => by rw [hpc]],
    fun hr => h.rest fun j => hpc ▸ hr j, fun j pc hj => h.reacting j pc (hpc ▸ hj), h.quiet⟩

omit [DecidableEq ι] in
/-- A thread inside `block_on` holds the lock as a user. -/
theorem holder_user (hi : User.ofPc (s.pc i) ≠ .out) : holder s i = .user i := by
  have hnone : reactorPc (s.pc i) = none := by
    cases hpc : s.pc i with
    | react x q =>
      rw [hpc] at hi
      cases x
      · exact absurd rfl hi
      · rfl
      · rfl
    | _ => rfl
  rw [holder, if_pos hnone]

/-- `try_lock`: it succeeds when the lock is free. -/
theorem tryLock (h : Uses s t) {ok fail : BlockOn.Pc} (hi : User.ofPc (s.pc i) = .inside)
    (hok : User.ofPc ok = .locked ∧ reactorPc ok = none)
    (hfail : User.ofPc fail = .inside ∧ reactorPc fail = none)
    (hr : reactorPc (s.pc i) = none) :
    ∃ t', system.Emits events t (if s.lock = none then [.acquire (.user i)] else []) t' ∧
      Uses (s.tryLock i ok fail) t' := by
  unfold BlockOn.State.tryLock
  split_ifs with hl
  · have hstep : system.step t (.tryLock i) =
        some ({ t with lock := some (.user i) }.setUser i .locked) :=
      if_pos ⟨by rw [h.users, hi], by rw [h.lock, hl]; rfl⟩
    refine ⟨_, .single hstep rfl, h.moved rfl (hok.2.trans hr.symm) ?_ ?_ rfl h.quiet⟩
    · rw [hok.1]
      rfl
    · rw [State.setUser, BlockOn.State.goto, Option.map_some, holder_user (by simp [hi])]
  · exact h.stay rfl rfl (by rw [hfail.1, hi]) (hfail.2.trans hr.symm)

/-- The guard of the reactor lock is dropped. -/
theorem unlock (h : Uses s t) (hi : User.ofPc (s.pc i) = .locked) (hp : User.ofPc p = .inside)
    (hr : reactorPc p = reactorPc (s.pc i)) :
    ∃ t', system.Emits events t [.release (.user i)] t' ∧
      Uses ({ s with lock := none }.goto i p) t' := by
  have hstep : system.step t (.unlock i) = some ({ t with lock := none }.setUser i .inside) :=
    if_pos (by rw [h.users, hi])
  refine ⟨_, .single hstep rfl, h.moved rfl hr ?_ rfl rfl h.quiet⟩
  rw [hp]
  rfl

omit i p in
/-- A call of `Reactor::unpark`. -/
theorem unparks (hq : t.parker.Quiet) {i : ι} (hu : t.users i = .inside ∨ t.users i = .left) :
    ∃ q : Parking.Inner ι, q.Quiet ∧ system.Emits events t [.unpark i]
      ({ t with parker := q }.setUser i (if t.users i = User.left then .out else t.users i)) := by
  obtain ⟨q, r, hcall, hquiet⟩ := hq.unpark i
  have hunpark : system.step t (.unpark i) = some { t with parker := q.setUnpark i (.ret r) } := by
    change (if _ then _ else _) = _
    rw [if_pos hu, hcall]
    rfl
  have hret : system.step { t with parker := q.setUnpark i (.ret r) } (.unparkRet i) =
      some ({ t with parker := q }.setUser i (if t.users i = User.left then .out else t.users i)) := by
    change Option.map _ (Parking.Inner.unparkRet _ i) = _
    rw [hquiet.unparkRet]
    rfl
  exact ⟨q, hquiet, (Lts.Emits.single hunpark rfl).trans (.single hret rfl)⟩

/-- `Reactor::get().unpark()` after the lock was dropped. -/
theorem unpark (h : Uses s t) (hi : User.ofPc (s.pc i) = .inside) (hp : User.ofPc p = .inside)
    (hr : reactorPc p = reactorPc (s.pc i)) :
    ∃ t', system.Emits events t [.unpark i] t' ∧ Uses (s.goto i p) t' := by
  have hu : t.users i = .inside := by rw [h.users, hi]
  obtain ⟨q, hquiet, hemits⟩ := unparks h.quiet (i := i) (Or.inl hu)
  refine ⟨_, hemits, h.moved rfl hr ?_ h.lock rfl hquiet⟩
  rw [hp, if_neg (by simp [hu]), hu]
  rfl

/-- The guard of `block_on`: `sub_block_on_count` and `unpark`. -/
theorem leave (h : Uses s t) (hpc : s.pc i = .poll) :
    ∃ t', system.Emits events t [.leave i, .unpark i] t' ∧ Uses (s.goto i .done) t' := by
  obtain ⟨u, hu⟩ : ∃ u, u = { t with blockOnCount := t.blockOnCount - 1 }.setUser i .left :=
    ⟨_, rfl⟩
  have hstep : system.step t (.leave i) = some u := by
    rw [hu]
    exact if_pos ⟨by rw [h.users, hpc]; rfl, h.quiet.unparking i⟩
  have hleft : u.users i = .left := by simp [hu, State.setUser]
  obtain ⟨q, hquiet, hemits⟩ := unparks (t := u) (i := i) (by rw [hu]; exact h.quiet)
    (Or.inr hleft)
  refine ⟨_, (Lts.Emits.single hstep rfl).trans hemits, h.moved rfl (by rw [hpc]; rfl) ?_ ?_ ?_
    hquiet⟩
  · simp [hu, State.setUser, User.ofPc]
  · rw [hu]
    exact h.lock
  · rw [hu]
    rfl

/-- The next step of a thread in `block_on`. -/
theorem next (h : Uses s t) (hs : s.next i = some s') :
    ∃ t', system.Emits events t (ofBlockOn s (.next i)) t' ∧ Uses s' t' := by
  unfold BlockOn.State.next at hs
  split at hs <;> rename_i hpc <;> simp only [ofBlockOn, hpc]
  · rename_i c
    obtain ⟨k, -, rfl⟩ := Option.map_eq_some_iff.1 hs
    exact h.stay rfl rfl (by rw [hpc]; cases c <;> rfl) (by rw [hpc]; rfl)
  · rename_i c
    split at hs
    · rename_i res _
      obtain ⟨k, -, rfl⟩ := Option.map_eq_some_iff.1 hs
      refine h.stay rfl rfl ?_ ?_
      · rw [hpc]
        cases c <;> cases res <;> rfl
      · rw [hpc]
        cases c <;> cases res <;> rfl
    · cases hs
  · cases hs; exact h.tryLock (by rw [hpc]; rfl) ⟨rfl, rfl⟩ ⟨rfl, rfl⟩ (by rw [hpc]; rfl)
  · cases hs; exact h.stay rfl rfl (by rw [hpc]; rfl) (by rw [hpc]; rfl)
  · cases hs; exact h.stay rfl rfl (by rw [hpc]; rfl) (by rw [hpc]; rfl)
  · cases hs; exact h.unlock (by rw [hpc]; rfl) rfl (by rw [hpc]; rfl)
  · cases hs; exact h.tryLock (by rw [hpc]; rfl) ⟨rfl, rfl⟩ ⟨rfl, rfl⟩ (by rw [hpc]; rfl)
  · cases hs; exact h.stay rfl rfl (by rw [hpc]; rfl) (by rw [hpc]; rfl)
  · cases hs; exact h.stay rfl rfl (by rw [hpc]; rfl) (by rw [hpc]; rfl)
  · cases hs; exact h.unlock (by rw [hpc]; rfl) rfl (by rw [hpc]; rfl)
  · cases hs; exact h.unpark (by rw [hpc]; rfl) rfl (by rw [hpc]; rfl)
  · obtain ⟨q, -, rfl⟩ := Option.map_eq_some_iff.1 hs
    exact h.stay rfl rfl (by rw [hpc]; rfl) (by rw [hpc]; rfl)
  · rename_i k
    split at hs
    · obtain ⟨q, -, rfl⟩ := Option.map_eq_some_iff.1 hs
      refine h.stay rfl rfl ?_ ?_
      · rw [hpc]
        cases k <;> rfl
      · rw [hpc]
        cases k <;> rfl
    · obtain ⟨q, -, rfl⟩ := Option.map_eq_some_iff.1 hs
      exact ⟨t, .refl t, h.same rfl rfl⟩
  · rename_i e
    cases hs
    exact h.stay rfl rfl (by rw [hpc]; cases e <;> rfl) (by rw [hpc]; rfl)
  · rename_i e
    cases hs
    refine h.stay rfl rfl ?_ ?_
    · rw [hpc]
      cases e <;> rfl
    · rw [hpc]
      cases e <;> rfl
  · cases hs; exact h.unlock (by rw [hpc]; rfl) rfl (by rw [hpc]; rfl)
  · rename_i x
    split at hs
    · obtain ⟨p, -, rfl⟩ := Option.map_eq_some_iff.1 hs
      refine h.stay rfl rfl ?_ ?_
      · rw [hpc]
        cases x <;> rfl
      · rw [hpc]
        cases x <;> rfl
    · obtain ⟨p, -, rfl⟩ := Option.map_eq_some_iff.1 hs
      exact ⟨t, .refl t, h.same rfl rfl⟩
  all_goals cases hs

omit [DecidableEq ι] in
/-- The thread that is the reactor thread has the reactor lock. -/
theorem lock_of_reactorPc (hi : BlockOn.Inv s) {j : ι} (hj : reactorPc (s.pc j) ≠ none) :
    s.lock = some j := by
  refine hi.lock j ?_
  cases hpc : s.pc j with
  | react x q => trivial
  | _ => rw [hpc] at hj; exact absurd rfl hj

/-- The reactor thread takes the lock. -/
theorem react (h : Uses s t) (hi : BlockOn.Inv s) (hpc : s.pc i = .out) (hl : s.lock = none) :
    ∃ t', system.Emits events t [.acquire .reactor] t' ∧
      Uses ({ s with lock := some i }.goto i (.react .out .pre)) t' := by
  have hnone : ∀ j, reactorPc (s.pc j) = none := by
    intro j
    by_contra hj
    cases hl.symm.trans (lock_of_reactorPc hi hj)
  obtain ⟨t', hemits, hreact, hu, hlock, hq⟩ := takes_lock h.quiet (h.rest hnone)
    (by rw [h.lock, hl]; rfl)
  refine ⟨t', hemits, fun j => ?_, ?_, fun hrest => ?_, fun j pc hj => ?_, hq⟩
  · by_cases hj : j = i
    · subst hj
      rw [hu, h.users, hpc]
      simp [BlockOn.State.goto, User.ofPc]
    · rw [hu, h.users]
      simp [BlockOn.State.goto, hj]
  · rw [hlock]
    simp [holder, BlockOn.State.goto, reactorPc]
  · have hi := hrest i
    simp [BlockOn.State.goto, reactorPc] at hi
  · by_cases hji : j = i
    · subst hji
      simp only [BlockOn.State.goto, Function.update_self, reactorPc, Option.some.injEq] at hj
      exact hreact.trans hj
    · simp only [BlockOn.State.goto, Function.update_of_ne hji, hnone j] at hj
      cases hj

/-- The only thread that is the reactor thread moves to another place of `react`. -/
theorem reacts (h : Uses s t) (hi : BlockOn.Inv s) {p₀ : BlockOn.Pc} (hpc : s.pc i = p₀)
    (hp₀ : reactorPc p₀ ≠ none) (hpc' : s'.pc = Function.update s.pc i p)
    (hout : User.ofPc p₀ = .out ∧ User.ofPc p = .out) (hu : t'.users = t.users)
    (hl : t'.lock = s'.lock.map (holder s')) (hq : t'.parker.Quiet)
    (ht : t'.pc = (reactorPc p).getD .tick) : Uses s' t' := by
  have hothers : ∀ j, j ≠ i → reactorPc (s.pc j) = none := by
    intro j hj
    by_contra hne
    have hji := (lock_of_reactorPc hi hne).symm.trans (lock_of_reactorPc hi (by rwa [hpc]))
    exact hj (Option.some.inj hji)
  refine ⟨fun j => ?_, hl, fun hrest => ?_, fun j pc hj => ?_, hq⟩
  · rw [hu, hpc', h.users, Function.update_apply]
    split_ifs with hj
    · rw [hj, hpc, hout.1, hout.2]
    · rfl
  · have hnone := hrest i
    rw [hpc', Function.update_self] at hnone
    rw [ht, hnone]
    rfl
  · rw [hpc', Function.update_apply] at hj
    split_ifs at hj with hji
    · rw [ht, hj]
      rfl
    · rw [hothers j hji] at hj
      cases hj

/-- `react` goes to `Poller::wait`. -/
theorem wait (h : Uses s t) (hi : BlockOn.Inv s) {x : BlockOn.Ctx} (hpc : s.pc i = .react x .pre)
    (hl : s'.lock = s.lock) (hpc' : s'.pc = Function.update s.pc i (.react x .wait)) :
    ∃ t', system.Emits events t [.tick (holder s i)] t' ∧ Uses s' t' := by
  cases x with
  | out =>
    have hreact : t.pc = .react := h.reacting i _ (by rw [hpc]; rfl)
    have hnext : t.next = some { t.bump with pc := .record } := by simp only [State.next, hreact]
    have hevents : events t .next = [.tick (holder s i)] := by
      simp [events, hreact, holder, hpc, reactorPc]
    refine ⟨_, .single (S := system) (a := .next) hnext hevents,
      h.reacts hi hpc (by simp [reactorPc]) hpc' ⟨rfl, rfl⟩ rfl ?_ h.quiet rfl⟩
    have hheld : s.lock = some i := lock_of_reactorPc hi (by simp [hpc, reactorPc])
    rw [show State.lock { t.bump with pc := .record } = t.lock from rfl, h.lock, hl, hheld]
    simp [holder, hpc, hpc', reactorPc]
  | zero | block =>
    have hu : t.users i = .locked := by rw [h.users, hpc]; rfl
    have hstep : system.step t (.react i) = some t.bump := if_pos hu
    have hholder : holder s i = .user i := by rw [holder, hpc]; rfl
    rw [hholder]
    refine ⟨_, .single hstep rfl, h.moved hpc' (by rw [hpc]; rfl) ?_ (hl ▸ h.lock) rfl h.quiet⟩
    change t.users = Function.update t.users i .locked
    rw [← hu, Function.update_eq_self]

/-- The reactor thread drops the lock, and goes on until it is at the start again. -/
theorem woken (h : Uses s t) (hi : BlockOn.Inv s) (hpc : s.pc i = .react .out .wake) :
    ∃ t', system.Emits events t [.release .reactor] t' ∧
      Uses ({ s with lock := none }.goto i .out) t' := by
  have hrecord : t.pc = .record := h.reacting i _ (by rw [hpc]; rfl)
  have hnext : t.next = some { t with lastTick := t.ticker, sleeps := 0, pc := .unlock } := by
    simp only [State.next, hrecord]
  have hunlock : system.step { t with lastTick := t.ticker, sleeps := 0, pc := .unlock } .next =
      some { t with lastTick := t.ticker, sleeps := 0, lock := none, pc := .count } := rfl
  obtain ⟨t', hrests⟩ := rests_count (t := { t with
    lastTick := t.ticker
    sleeps := 0
    lock := none
    pc := .count }) h.quiet rfl
  refine ⟨t', ?_, h.reacts hi hpc (by simp [reactorPc]) rfl ⟨rfl, rfl⟩ hrests.users ?_
    hrests.quiet hrests.pc⟩
  · exact ((emits_next hnext (by simp [events, hrecord])).trans
      (.single hunlock rfl)).trans hrests.emits
  · exact hrests.lock

/-- Every step of `block_on` is a run of the users and of the thread with the same events. -/
theorem step (h : Uses s t) (hi : BlockOn.Inv s) {a : BlockOn.Act ι}
    (hs : BlockOn.step s a = some s') :
    ∃ t', system.Emits events t (ofBlockOn s a) t' ∧ Uses s' t' := by
  cases a with
  | enter i =>
    simp only [BlockOn.step, Option.ite_none_right_eq_some, Option.some.injEq] at hs
    obtain ⟨⟨hpc, -⟩, rfl⟩ := hs
    have hstep : system.step t (.enter i) =
        some ({ t with blockOnCount := t.blockOnCount + 1 }.setUser i .inside) :=
      if_pos (by rw [h.users, hpc]; rfl)
    exact ⟨_, .single hstep rfl, h.moved rfl (by rw [hpc]; rfl) rfl h.lock rfl h.quiet⟩
  | polled i ready =>
    simp only [BlockOn.step, Option.ite_none_right_eq_some, Option.some.injEq] at hs
    obtain ⟨⟨hpc, -⟩, rfl⟩ := hs
    cases ready with
    | true => exact h.leave hpc
    | false => exact h.stay rfl rfl (by rw [hpc]; rfl) (by rw [hpc]; rfl)
  | next i =>
    simp only [BlockOn.step, Option.ite_none_right_eq_some] at hs
    exact h.next hs.2
  | elapsed i long =>
    simp only [BlockOn.step, Option.ite_none_right_eq_some, Option.some.injEq] at hs
    obtain ⟨hpc, rfl⟩ := hs
    cases long <;> exact h.stay rfl rfl (by rw [hpc]; rfl) (by rw [hpc]; rfl)
  | react i =>
    simp only [BlockOn.step, Option.ite_none_right_eq_some, Option.some.injEq] at hs
    obtain ⟨⟨hpc, -, hl⟩, rfl⟩ := hs
    exact h.react hi hpc hl
  | wait i timeout =>
    simp only [BlockOn.step] at hs
    split at hs
    next x hpc =>
      split_ifs at hs
      obtain ⟨p, -, rfl⟩ := Option.map_eq_some_iff.1 hs
      exact h.wait hi hpc rfl rfl
    next => cases hs
  | epollReturn i report empty =>
    simp only [BlockOn.step] at hs
    split at hs
    · obtain ⟨p, -, rfl⟩ := Option.map_eq_some_iff.1 hs
      exact ⟨t, .refl t, h.same rfl rfl⟩
    · cases hs
  | interrupt i =>
    simp only [BlockOn.step] at hs
    split at hs
    · obtain ⟨p, -, rfl⟩ := Option.map_eq_some_iff.1 hs
      exact ⟨t, .refl t, h.same rfl rfl⟩
    · cases hs
  | woken i =>
    simp only [BlockOn.step, Option.ite_none_right_eq_some] at hs
    obtain ⟨-, hs⟩ := hs
    split at hs
    next hpc =>
      cases hs
      simp only [ofBlockOn, hpc]
      exact h.woken hi hpc
    next hpc =>
      cases hs
      simp only [ofBlockOn, hpc]
      exact h.stay rfl rfl (by rw [hpc]; rfl) (by rw [hpc]; rfl)
    next hpc =>
      cases hs
      simp only [ofBlockOn, hpc]
      exact h.stay rfl rfl (by rw [hpc]; rfl) (by rw [hpc]; rfl)
    next => cases hs
  | wakeup i =>
    obtain ⟨k, -, rfl⟩ := Option.map_eq_some_iff.1 hs
    exact ⟨t, .refl t, h.same rfl rfl⟩
  | call i j =>
    simp only [BlockOn.step, Option.ite_none_right_eq_some] at hs
    obtain ⟨k, -, rfl⟩ := Option.map_eq_some_iff.1 hs.2
    exact ⟨t, .refl t, h.same rfl rfl⟩
  | notify i =>
    simp only [BlockOn.step, Option.ite_none_right_eq_some, Option.some.injEq] at hs
    obtain ⟨-, rfl⟩ := hs
    exact ⟨t, .refl t, h.same rfl rfl⟩
  | wake i =>
    refine ⟨t, .refl t, ?_⟩
    simp only [BlockOn.step, BlockOn.State.wake] at hs
    split at hs
    · cases hs
    · split at hs <;> obtain ⟨k, -, rfl⟩ := Option.map_eq_some_iff.1 hs <;> exact h.same rfl rfl
    · cases hs; exact h.same rfl rfl
    · obtain ⟨k, -, rfl⟩ := Option.map_eq_some_iff.1 hs
      exact h.same rfl rfl
    · split at hs <;> obtain ⟨k, -, rfl⟩ := Option.map_eq_some_iff.1 hs <;> exact h.same rfl rfl

omit [DecidableEq ι] in
theorem init : Uses (BlockOn.init : BlockOn.State ι) ReactorThread.init :=
  ⟨fun _ => rfl, rfl, fun _ => rfl, by simp [BlockOn.init, reactorPc], Or.inl rfl, rfl, rfl,
    fun _ => rfl⟩

end Uses

/-- **The threads in `block_on` are users of the reactor.** In every run of `block_on` on any
    number of threads and of the reactor thread, they take and drop the reactor lock, bump the
    ticker, call `unpark`, and begin and end `block_on`, as the users and the thread of this
    module do in some run: with the same events in the same order, the same holder of the
    lock, a ticker that counts the calls of `react`, and with `block_on_count` the number of
    the threads in `block_on`.  The lock is taken only when it is free, the ticker is bumped
    only with the lock, and a user does both only inside `block_on`. -/
theorem block_on_uses {s : BlockOn.State ι} {es : List (Event ι)}
    (h : (BlockOn.system.trace ofBlockOn).Reachable (s, es)) :
    (∃ t : State ι, (system.trace events).Reachable (t, es) ∧ (∀ i, t.users i = .ofPc (s.pc i)) ∧
      t.lock = s.lock.map (holder s) ∧ t.ticker = wrap (es.countP Event.isTick) ∧
      ∃ inside : Finset ι, t.blockOnCount = inside.card ∧
        ∀ i, i ∈ inside ↔ (User.ofPc (s.pc i)).Inside) ∧
    ∀ pre e post, es = pre ++ e :: post → e.Allowed pre := by
  obtain ⟨t, hreach, huses⟩ := Lts.trace_simulate (T := system) (R := Uses) events
    (fun s hs => ⟨init, rfl, hs ▸ Uses.init⟩)
    (fun s a s' t hr hu hs => hu.step (BlockOn.inv_reachable hr) hs) h
  have htraced := traced_reach hreach
  have hsystem : system.Reachable t := Lts.monitor_reach (C := fun _ _ => True) hreach
  obtain ⟨g, hg⟩ := hsystem.monitor Tally.new Tally.record
  obtain ⟨inside, hmem, hcard⟩ := (inv_reach hg).count
  refine ⟨⟨t, hreach, huses.users, huses.lock, htraced.ticker, inside, hcard, fun i => ?_⟩,
    htraced.allowed⟩
  rw [hmem i, huses.users i]

end BlockOn

/-- Thread `1` calls `react` as the reactor thread. -/
def reactOutside : List (BlockOn.Act (Fin 2)) :=
  [.react 1, .wait 1 (some 5), .next 1, .next 1, .epollReturn 1 false true, .next 1, .next 1,
    .next 1, .next 1, .woken 1]

/-- Then thread `0` takes the lock in `block_on` and calls `react(None)`, and thread `1` enters. -/
def lockInside : List (BlockOn.Act (Fin 2)) :=
  reactOutside ++ [.enter 0, .polled 0 false] ++ List.replicate 7 (.next 0) ++
    [.wait 0 none, .enter 1]

/-- What they do to the reactor. -/
def lockEvents : List (Event (Fin 2)) :=
  [.acquire .reactor, .tick .reactor, .release .reactor, .enter 0, .acquire (.user 0),
    .tick (.user 0), .enter 1]

theorem block_on_uses_inside : ∃ (s : BlockOn.State (Fin 2)) (t : State (Fin 2)),
    (BlockOn.system.trace ofBlockOn).run (BlockOn.init, []) lockInside = some (s, lockEvents) ∧
      (system.trace events).Reachable (t, lockEvents) ∧ t.lock = some (.user 0) ∧
      t.users 1 = .inside ∧ t.ticker = 2 ∧ t.blockOnCount = 2 := by
  obtain ⟨⟨s, es⟩, hs, rfl, hl, h₀, h₁⟩ : ∃ p : BlockOn.State (Fin 2) × List (Event (Fin 2)),
      (BlockOn.system.trace ofBlockOn).run (BlockOn.init, []) lockInside = some p ∧
        p.2 = lockEvents ∧ p.1.lock = some 0 ∧ p.1.pc 0 = .react .block .wait ∧ p.1.pc 1 = .poll :=
    Lts.exists_run (by decide +kernel)
  dsimp only at hl h₀ h₁
  obtain ⟨⟨t, hreach, husers, hlock, hticker, inside, hcard, hmem⟩, -⟩ :=
    block_on_uses (.run (s := (BlockOn.init, [])) (.init ⟨rfl, rfl⟩) (Lts.meets_true _ _) hs)
  refine ⟨s, t, hs, hreach, ?_, by rw [husers, h₁]; rfl, hticker, ?_⟩
  · rw [hlock, hl, Option.map_some, Uses.holder_user (by simp [h₀, User.ofPc])]
  · have hall : inside = Finset.univ := by
      refine Finset.eq_univ_iff_forall.2 fun i => (hmem i).2 ?_
      fin_cases i
      · simp only [Fin.zero_eta, h₀]
        trivial
      · simp only [Fin.mk_one, h₁]
        trivial
    rw [hcard, hall]
    rfl

end ReactorThread
end Awak
