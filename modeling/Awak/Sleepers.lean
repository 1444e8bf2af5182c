/-
  The list of sleeping tickers and its protocol: `Sleepers`, `Ticker::sleep`,
  `Ticker::wake` and `State::notify` of `executor.rs`.

  `Wake` is the protocol on its own: tickers `ι` fall asleep, are notified and
  wake up, calls `κ` of `State::notify` pick one to wake.  A section under the
  mutex of the sleepers is one step, so are the swap of `sleeping`, the
  compare-exchange of `notified` and each call of a waker.  A waker is named by
  its ticker.  `slept` and `woken` record, since the last poll of a ticker began,
  whether `sleep` has run and whether its waker has been called.

  * `Wake.Inv`: the ids inserted and not yet removed are those of the tickers, at
    most one sleeping ticker is notified, and the flag `notified` is not set
    for nothing;
  * `Wake.Inv.awake`: while the sleepers are notified, some ticker is not asleep
    or some waker is about to be called;
  * `Wake.sleepers_exact`: what this says of `wakers`, `count` and `notified` in
    every reachable state.
-/
import Awak.Lib.Lts

namespace Awak

variable {α ι κ : Type}

/-- A list of sleeping tickers. -/
structure Sleepers (α : Type) where
  count : ℕ
  wakers : List (ℕ × α)
  idGen : ℕ

namespace Sleepers

/-- No ticker sleeps; the ids begin at `1`. -/
def new : Sleepers α := ⟨0, [], 1⟩

/-- `Sleepers::notify`: the waker of a sleeping ticker, if none is notified. -/
def notify (s : Sleepers α) : Option α × Sleepers α :=
  if s.wakers.length = s.count then
    (s.wakers.getLast?.map Prod.snd, { s with wakers := s.wakers.dropLast })
  else (none, s)

/-- Replace the waker of the first item with this id. -/
def replace (id : ℕ) (waker : α) : List (ℕ × α) → Option (List (ℕ × α))
  | [] => none
  | item :: rest =>
    if item.1 = id then some ((id, waker) :: rest) else (replace id waker rest).map (item :: ·)

/-- `Sleepers::update`: re-insert the waker if the ticker was notified. -/
def update (s : Sleepers α) (id : ℕ) (waker : α) : Bool × Sleepers α :=
  match replace id waker s.wakers with
  | some wakers => (false, { s with wakers := wakers })
  | none => (true, { s with wakers := s.wakers ++ [(id, waker)] })

/-- `Sleepers::is_notified`. -/
def isNotified (s : Sleepers α) : Bool := s.count == 0 || s.wakers.length < s.count

/-- `Sleepers::remove`: the last item with this id. -/
def remove (s : Sleepers α) (id : ℕ) : Sleepers α :=
  { s with
    count := s.count - 1
    wakers := (s.wakers.reverse.eraseP fun item => item.1 == id).reverse }

/-- `Sleepers::insert`. -/
def insert (s : Sleepers α) (waker : α) : ℕ × Sleepers α :=
  (s.idGen, { count := s.count + 1, wakers := s.wakers ++ [(s.idGen, waker)], idGen := s.idGen + 1 })

/-- The ids of the sleeping unnotified tickers. -/
def ids (s : Sleepers α) : List ℕ := s.wakers.map Prod.fst

variable {s : Sleepers α} {id : ℕ} {waker : α}

theorem replace_some {l l' : List (ℕ × α)} (h : replace id waker l = some l') :
    l'.map Prod.fst = l.map Prod.fst ∧ id ∈ l.map Prod.fst ∧
      ∀ e ∈ l', e ∈ l ∨ e = (id, waker) := by
  induction l generalizing l' with
  | nil => cases h
  | cons item rest ih =>
    unfold replace at h
    split_ifs at h with hi
    · cases h
      refine ⟨by simp [hi], by simp [hi], fun e he => ?_⟩
      rcases List.mem_cons.1 he with rfl | he
      · exact Or.inr rfl
      · exact Or.inl (List.mem_cons_of_mem _ he)
    · obtain ⟨r, hr, rfl⟩ := Option.map_eq_some_iff.1 h
      obtain ⟨hm, hid, he⟩ := ih hr
      refine ⟨by simp [hm], by simpa using Or.inr (by simpa using hid), fun e hmem => ?_⟩
      rcases List.mem_cons.1 hmem with rfl | hmem
      · exact Or.inl List.mem_cons_self
      · exact (he e hmem).imp_left (List.mem_cons_of_mem _)

theorem replace_none {l : List (ℕ × α)} (h : replace id waker l = none) :
    id ∉ l.map Prod.fst := by
  induction l with
  | nil => simp
  | cons item rest ih =>
    unfold replace at h
    split_ifs at h with hi
    have hr := Option.map_eq_none_iff.1 h
    simpa [Ne.symm hi] using ih hr

/-- The items left by `remove`. -/
theorem ids_remove (hn : s.ids.Nodup) : (s.remove id).ids = s.ids.erase id := by
  have h1 : ∀ l : List (ℕ × α), (l.eraseP fun item => item.1 == id).map Prod.fst =
      (l.map Prod.fst).erase id := by
    intro l
    induction l with
    | nil => rfl
    | cons e l ih =>
      by_cases he : e.1 = id
      · simp [he]
      · simp [he, ih]
  have h2 : ∀ l : List ℕ, l.Nodup → (l.reverse.erase id).reverse = l.erase id := by
    intro l hl
    rw [(List.nodup_reverse.2 hl).erase_eq_filter, hl.erase_eq_filter, List.filter_reverse,
      List.reverse_reverse]
  unfold ids remove
  rw [List.map_reverse, h1, List.map_reverse]
  exact h2 _ hn

theorem mem_remove {e : ℕ × α} (h : e ∈ (s.remove id).wakers) : e ∈ s.wakers := by
  simp only [remove, List.mem_reverse] at h
  exact List.mem_reverse.1 (List.mem_of_mem_eraseP h)

theorem notify_mem {s' : Sleepers α} (h : s.notify = (some waker, s')) :
    ∃ id, (id, waker) ∈ s.wakers := by
  unfold notify at h
  split_ifs at h
  · obtain ⟨⟨id, _⟩, hl, rfl⟩ := Option.map_eq_some_iff.1 (Prod.mk.inj h).1
    exact ⟨id, List.mem_of_getLast? hl⟩
  · cases h

end Sleepers

/-- A call of `State::notify` that has set the flag. -/
inductive Call (ι : Type) where
  | idle
  | lock
  /-- `waker.wake()` -/
  | wake (i : ι)
  deriving DecidableEq

/-- The protocol of the sleepers. -/
structure Wake (ι κ : Type) where
  notified : Bool
  sleepers : Sleepers ι
  sleeping : ι → ℕ
  /-- the id taken by the swap of `Ticker::wake`, until its lock section -/
  waking : ι → ℕ
  slept : ι → Bool
  woken : ι → Bool
  calls : κ → Call ι
  /-- the ids inserted and not yet removed -/
  live : List ℕ

namespace Wake

/-- `notified` is false, and nobody sleeps. -/
def new : Wake ι κ where
  notified := false
  sleepers := .new
  sleeping _ := 0
  waking _ := 0
  slept _ := false
  woken _ := false
  calls _ := .idle
  live := []

section Steps
variable [DecidableEq ι]

/-- A poll of the ticker begins. -/
def poll (s : Wake ι κ) (i : ι) : Wake ι κ :=
  { s with
    slept := Function.update s.slept i false
    woken := Function.update s.woken i false }

/-- `Ticker::sleep`. -/
def sleep (s : Wake ι κ) (i : ι) : Wake ι κ :=
  let s := { s with slept := Function.update s.slept i true }
  if s.sleeping i = 0 then
    let (id, sleepers) := s.sleepers.insert i
    { s with
      sleepers := sleepers
      sleeping := Function.update s.sleeping i id
      notified := sleepers.isNotified
      live := id :: s.live }
  else
    match s.sleepers.update (s.sleeping i) i with
    | (false, sleepers) => { s with sleepers := sleepers }
    | (true, sleepers) => { s with sleepers := sleepers, notified := sleepers.isNotified }

/-- The swap of `Ticker::wake`. -/
def swap (s : Wake ι κ) (i : ι) : Wake ι κ :=
  { s with
    sleeping := Function.update s.sleeping i 0
    waking := Function.update s.waking i (s.sleeping i) }

/-- The lock section of `Ticker::wake`. -/
def wakeLock (s : Wake ι κ) (i : ι) : Wake ι κ :=
  let sleepers := s.sleepers.remove (s.waking i)
  { s with
    sleepers := sleepers
    notified := sleepers.isNotified
    waking := Function.update s.waking i 0
    live := s.live.erase (s.waking i) }

/-- The waker of a ticker is called. -/
def wakeup (s : Wake ι κ) (i : ι) : Wake ι κ :=
  { s with woken := Function.update s.woken i true }

variable [DecidableEq κ]

/-- The call of `notify` by `k` goes to `c`. -/
def setCall (s : Wake ι κ) (k : κ) (c : Call ι) : Wake ι κ :=
  { s with calls := Function.update s.calls k c }

/-- The next step of a call of `State::notify`; it has returned when it is `idle`
    again. -/
def notify (s : Wake ι κ) (k : κ) : Wake ι κ :=
  match s.calls k with
  | .idle => if s.notified then s else { s with notified := true }.setCall k .lock
  | .lock =>
    match s.sleepers.notify with
    | (some i, sleepers) => { s with sleepers := sleepers }.setCall k (.wake i)
    | (none, sleepers) => { s with sleepers := sleepers }.setCall k .idle
  | .wake i => (s.wakeup i).setCall k .idle

/-- The moves of the tickers and of the notifying threads. -/
inductive Act (ι κ : Type) where
  | poll (i : ι)
  | sleep (i : ι)
  | swap (i : ι)
  | wakeLock (i : ι)
  | notify (k : κ)
  | wakeup (i : ι)

/-- A ticker is polled by one thread, which runs `sleep` and the two steps of `wake`
    one after the other. -/
def step (s : Wake ι κ) : Act ι κ → Option (Wake ι κ)
  | .poll i => some (s.poll i)
  | .sleep i => if s.waking i = 0 then some (s.sleep i) else none
  | .swap i => if s.slept i = false ∧ s.waking i = 0 then some (s.swap i) else none
  | .wakeLock i => if s.waking i ≠ 0 then some (s.wakeLock i) else none
  | .notify k => some (s.notify k)
  | .wakeup i => some (s.wakeup i)

/-- Any tickers, and any callers of `notify`. -/
def system : Lts (Wake ι κ) (Act ι κ) where
  init s := s = new
  step := step

end Steps

/-! ## What a step leaves alone -/

section Frame
variable [DecidableEq ι] (s : Wake ι κ) (i : ι)

theorem sleep_eq : ∃ notified sleepers sleeping live,
    s.sleep i = { s with
      notified := notified
      sleepers := sleepers
      sleeping := sleeping
      slept := Function.update s.slept i true
      live := live } ∧ ∀ j ≠ i, sleeping j = s.sleeping j := by
  dsimp only [sleep]
  split_ifs
  · exact ⟨_, _, _, _, rfl, fun j hj => Function.update_of_ne hj _ _⟩
  · split <;> exact ⟨_, _, _, _, rfl, fun _ _ => rfl⟩

@[simp]
theorem sleep_slept : (s.sleep i).slept = Function.update s.slept i true := by
  obtain ⟨_, _, _, _, h, -⟩ := sleep_eq s i; rw [h]

@[simp]
theorem sleep_waking : (s.sleep i).waking = s.waking := by
  obtain ⟨_, _, _, _, h, -⟩ := sleep_eq s i; rw [h]

@[simp]
theorem sleep_woken : (s.sleep i).woken = s.woken := by
  obtain ⟨_, _, _, _, h, -⟩ := sleep_eq s i; rw [h]

@[simp]
theorem sleep_calls : (s.sleep i).calls = s.calls := by
  obtain ⟨_, _, _, _, h, -⟩ := sleep_eq s i; rw [h]

theorem sleep_sleeping {j : ι} (hj : j ≠ i) : (s.sleep i).sleeping j = s.sleeping j := by
  obtain ⟨_, _, _, _, h, hs⟩ := sleep_eq s i; rw [h]; exact hs j hj

variable [DecidableEq κ] (k : κ)

theorem notify_eq : ∃ notified sleepers woken c,
    s.notify k = { s with
      notified := notified
      sleepers := sleepers
      woken := woken
      calls := Function.update s.calls k c } ∧ ∀ j, s.woken j = true → woken j = true := by
  unfold notify
  split
  next hk =>
    split_ifs
    · exact ⟨_, _, _, .idle, by rw [← hk, Function.update_eq_self], fun _ h => h⟩
    · exact ⟨_, _, _, _, rfl, fun _ h => h⟩
  · split <;> exact ⟨_, _, _, _, rfl, fun _ h => h⟩
  next i _ =>
    refine ⟨_, _, _, _, rfl, fun j hj => ?_⟩
    show Function.update s.woken i true j = true
    by_cases hji : j = i
    · rw [hji, Function.update_self]
    · rw [Function.update_of_ne hji]; exact hj

@[simp]
theorem notify_slept : (s.notify k).slept = s.slept := by
  obtain ⟨_, _, _, _, h, -⟩ := notify_eq s k; rw [h]

@[simp]
theorem notify_waking : (s.notify k).waking = s.waking := by
  obtain ⟨_, _, _, _, h, -⟩ := notify_eq s k; rw [h]

@[simp]
theorem notify_sleeping : (s.notify k).sleeping = s.sleeping := by
  obtain ⟨_, _, _, _, h, -⟩ := notify_eq s k; rw [h]

theorem notify_calls {k' : κ} (hk : k' ≠ k) : (s.notify k).calls k' = s.calls k' := by
  obtain ⟨_, _, _, _, h, -⟩ := notify_eq s k; rw [h]; exact Function.update_of_ne hk _ _

theorem notify_woken {j : ι} (hj : s.woken j = true) : (s.notify k).woken j = true := by
  obtain ⟨_, _, _, _, h, hw⟩ := notify_eq s k; rw [h]; exact hw j hj

end Frame

/-- A step that concerns the ticker `i` and the call `k` only, but may wake any
    ticker. -/
structure Only (i : ι) (k : κ) (s s' : Wake ι κ) : Prop where
  slept : ∀ j, j ≠ i → s'.slept j = s.slept j
  waking : ∀ j, j ≠ i → s'.waking j = s.waking j
  woken : ∀ j, j ≠ i → s.woken j = true → s'.woken j = true
  calls : ∀ k', k' ≠ k → s'.calls k' = s.calls k'

theorem Only.rfl {s : Wake ι κ} {i : ι} {k : κ} : Only i k s s :=
  ⟨fun _ _ => by rfl, fun _ _ => by rfl, fun _ _ h => h, fun _ _ => by rfl⟩

section Only
variable [DecidableEq ι] {s : Wake ι κ} {i : ι} {k : κ}

theorem only_poll : Only i k s (s.poll i) where
  slept _ hj := Function.update_of_ne hj _ _
  waking _ _ := rfl
  woken j hj h := by simpa [poll, hj] using h
  calls _ _ := rfl

theorem only_sleep : Only i k s (s.sleep i) where
  slept j hj := by simp [hj]
  waking _ _ := by simp
  woken _ _ h := by simpa using h
  calls _ _ := by simp

theorem only_swap : Only i k s (s.swap i) where
  slept _ _ := rfl
  waking _ hj := Function.update_of_ne hj _ _
  woken _ _ h := h
  calls _ _ := rfl

theorem only_wakeLock : Only i k s (s.wakeLock i) where
  slept _ _ := rfl
  waking _ hj := Function.update_of_ne hj _ _
  woken _ _ h := h
  calls _ _ := rfl

theorem only_wakeup : Only i k s (s.wakeup i) where
  slept _ _ := rfl
  waking _ _ := rfl
  woken j hj h := by simpa [wakeup, hj] using h
  calls _ _ := rfl

theorem only_notify [DecidableEq κ] : Only i k s (s.notify k) where
  slept _ _ := by simp
  waking _ _ := by simp
  woken _ _ h := notify_woken s k h
  calls _ hk := notify_calls s k hk

end Only

/-! ## The invariant -/

/-- The id a ticker has inserted and not yet removed; one of the two is zero. -/
def held (s : Wake ι κ) (i : ι) : ℕ := s.sleeping i + s.waking i

/-- A ticker has gone to sleep in its last poll and has not been woken since that
    poll began. -/
def Asleep (s : Wake ι κ) (i : ι) : Prop := s.slept i = true ∧ s.woken i = false

/-- The invariant: the ids in use are counted, unequal and each held by one ticker, and the flag is set
    only if a sleeper is notified or a call of `notify` is about to be. -/
structure Inv (s : Wake ι κ) : Prop where
  excl : ∀ i, s.sleeping i = 0 ∨ s.waking i = 0
  count : s.live.length = s.sleepers.count
  nodup : s.live.Nodup
  gen : ∀ id ∈ s.live, 0 < id ∧ id < s.sleepers.idGen
  pos : 0 < s.sleepers.idGen
  mem : ∀ i, s.held i ≠ 0 → s.held i ∈ s.live
  owner : ∀ id ∈ s.live, ∃ i, s.held i = id
  inj : ∀ i j, s.held i ≠ 0 → s.held i = s.held j → i = j
  ids : s.sleepers.ids.Nodup
  waker : ∀ e ∈ s.sleepers.wakers, e.1 ∈ s.live ∧ s.held e.2 = e.1
  bound : s.sleepers.count ≤ s.sleepers.wakers.length + 1
  notified : s.notified = true → s.sleepers.isNotified = true ∨ ∃ k, s.calls k = .lock
  slept : ∀ i, s.slept i = true → s.sleeping i ≠ 0
  /-- a sleeping ticker that is notified is woken or about to be woken -/
  told : ∀ i, s.Asleep i → s.sleeping i ∈ s.sleepers.ids ∨ ∃ k, s.calls k = .wake i

theorem inv_new : Inv (new : Wake ι κ) := by
  constructor <;> simp [new, Sleepers.new, Sleepers.ids, held, Asleep]

namespace Inv
variable {s : Wake ι κ}

theorem length_le (h : Inv s) : s.sleepers.wakers.length ≤ s.sleepers.count := by
  have hsub : s.sleepers.ids ⊆ s.live := by
    intro id hid
    obtain ⟨e, he, rfl⟩ := List.mem_map.1 hid
    exact (h.waker e he).1
  have := (List.subperm_of_subset h.ids hsub).length_le
  rw [h.count] at this
  simpa [Sleepers.ids] using this

/-- While more tickers are counted than there are wakers, one of them is notified. -/
theorem exists_missing (h : Inv s) (hlt : s.sleepers.wakers.length < s.sleepers.count) :
    ∃ id ∈ s.live, id ∉ s.sleepers.ids := by
  by_contra hall
  push Not at hall
  have := (List.subperm_of_subset h.nodup fun id hid => hall id hid).length_le
  rw [h.count] at this
  simp only [Sleepers.ids, List.length_map] at this
  omega

/-- While the sleepers are notified, no ticker is asleep, or the notified one is
    not, or its waker is about to be called. -/
theorem awake (h : Inv s) (hn : s.sleepers.isNotified = true) :
    (∀ i, ¬ s.Asleep i) ∨ ∃ i, s.held i ≠ 0 ∧ (¬ s.Asleep i ∨ ∃ k, s.calls k = .wake i) := by
  unfold Sleepers.isNotified at hn
  rw [Bool.or_eq_true, beq_iff_eq, decide_eq_true_eq] at hn
  rcases hn with hz | hlt
  · -- no id is live, so no ticker is sleeping
    left
    intro i hi
    have hlive : s.live = [] := List.length_eq_zero_iff.1 (h.count.trans hz)
    have hne := h.slept i hi.1
    have := h.mem i (by unfold held; omega)
    rw [hlive] at this; cases this
  · -- one live id is not among the wakers
    right
    obtain ⟨id, hid, hnot⟩ := h.exists_missing hlt
    obtain ⟨i, hi⟩ := h.owner id hid
    refine ⟨i, by rw [hi]; exact (h.gen id hid).1.ne', ?_⟩
    by_cases ha : s.Asleep i
    · right
      refine (h.told i ha).resolve_left fun hm => hnot ?_
      have hw : s.waking i = 0 := (h.excl i).resolve_left (h.slept i ha.1)
      have : s.sleeping i = id := by rw [← hi]; unfold held; omega
      exact this ▸ hm
    · exact Or.inl ha

/-- The ids of the unnotified tickers are live. -/
theorem ids_live (h : Inv s) {id : ℕ} (hid : id ∈ s.sleepers.ids) : id ∈ s.live := by
  obtain ⟨e, he, rfl⟩ := List.mem_map.1 hid
  exact (h.waker e he).1

theorem held_sleeping (h : Inv s) {i : ι} (hi : s.sleeping i ≠ 0) : s.held i = s.sleeping i := by
  have := (h.excl i).resolve_left hi
  unfold held; omega

/-- `Sleepers::notify` found no ticker to wake: a ticker is notified already, or none
    is sleeping. -/
theorem notify_none (h : Inv s) {sleepers : Sleepers ι}
    (hs : s.sleepers.notify = (none, sleepers)) :
    sleepers = s.sleepers ∧ s.sleepers.isNotified = true := by
  unfold Sleepers.notify at hs
  split_ifs at hs with hlen
  · obtain ⟨hi, rfl⟩ := Prod.mk.injEq .. ▸ hs
    have hnil : s.sleepers.wakers = [] := by simpa using hi
    rw [hnil] at hlen
    refine ⟨?_, by simp [Sleepers.isNotified, ← hlen]⟩
    cases hs' : s.sleepers with
    | mk count wakers idGen => rw [hs'] at hnil; simp_all
  · obtain ⟨-, rfl⟩ := Prod.mk.injEq .. ▸ hs
    have := h.length_le
    refine ⟨rfl, ?_⟩
    simp only [Sleepers.isNotified, Bool.or_eq_true, beq_iff_eq, decide_eq_true_eq]
    omega

section Calls
variable [DecidableEq κ]

/-- Moving a call that is not about to wake anyone keeps the invariant, if the flag
    stays accounted for. -/
theorem setCall (h : Inv s) {k : κ} {c : Call ι} (hk : ∀ i, s.calls k = .wake i → s.woken i = true)
    (hn : s.notified = true → s.sleepers.isNotified = true ∨
      ∃ k', Function.update s.calls k c k' = .lock) : Inv (s.setCall k c) := by
  refine { h with notified := hn, told := ?_ }
  intro i hi
  refine (h.told i hi).imp_right ?_
  rintro ⟨k', hk'⟩
  have hne : k' ≠ k := by
    rintro rfl
    have hw : s.woken i = false := hi.2
    rw [hk i hk'] at hw; cases hw
  exact ⟨k', by simpa [Wake.setCall, hne] using hk'⟩

/-- `Sleepers::notify` found a ticker, which this call now wakes. -/
theorem notify_some (h : Inv s) {k : κ} (hk : s.calls k = .lock) {i : ι} {sleepers : Sleepers ι}
    (hs : s.sleepers.notify = (some i, sleepers)) :
    Inv ({ s with sleepers := sleepers }.setCall k (.wake i)) := by
  unfold Sleepers.notify at hs
  split_ifs at hs with hlen
  swap
  · cases hs
  obtain ⟨hi, rfl⟩ := Prod.mk.injEq .. ▸ hs
  obtain ⟨⟨id, j⟩, hlast, rfl⟩ := Option.map_eq_some_iff.1 hi
  have hsplit : s.sleepers.wakers = s.sleepers.wakers.dropLast ++ [(id, j)] :=
    (List.dropLast_append_getLast? _ hlast).symm
  have hlen' : s.sleepers.wakers.length = s.sleepers.wakers.dropLast.length + 1 := by
    conv_lhs => rw [hsplit]
    simp
  have hids : s.sleepers.ids = s.sleepers.wakers.dropLast.map Prod.fst ++ [id] := by
    unfold Sleepers.ids
    conv_lhs => rw [hsplit]
    simp
  refine { h with ids := ?_, waker := ?_, bound := ?_, notified := ?_, told := ?_ }
  · exact (hids ▸ h.ids).of_append_left
  · intro e he
    exact h.waker e (List.mem_of_mem_dropLast he)
  · show s.sleepers.count ≤ s.sleepers.wakers.dropLast.length + 1
    omega
  · intro _
    left
    show (s.sleepers.count == 0 || s.sleepers.wakers.dropLast.length < s.sleepers.count) = true
    simp only [Bool.or_eq_true, decide_eq_true_eq]
    omega
  · intro j' hj'
    have hslept := h.slept j' hj'.1
    rcases h.told j' hj' with hm | ⟨k', hk'⟩
    · rw [hids, List.mem_append] at hm
      rcases hm with hm | hm
      · exact Or.inl hm
      · -- the id taken out is that of `j'`
        right
        have hw := (h.waker (id, j) (hsplit ▸ by simp)).2
        have : j' = j := by
          refine h.inj j' j (by rw [h.held_sleeping hslept]; exact hslept) ?_
          rw [h.held_sleeping hslept, List.mem_singleton.1 hm]; exact hw.symm
        exact ⟨k, by simp [Wake.setCall, this]⟩
    · have hne : k' ≠ k := by
        rintro rfl
        rw [hk] at hk'; cases hk'
      exact Or.inr ⟨k', by simpa [Wake.setCall, hne] using hk'⟩

end Calls

section Steps
variable [DecidableEq ι]

theorem poll (h : Inv s) (i : ι) : Inv (s.poll i) := by
  refine { h with slept := ?_, told := ?_ }
  · intro j hj
    by_cases hji : j = i
    · subst hji; simp [Wake.poll] at hj
    · exact h.slept j (by simpa [Wake.poll, hji] using hj)
  · intro j hj
    by_cases hji : j = i
    · subst hji; simp [Wake.poll, Asleep] at hj
    · exact h.told j (by simpa [Wake.poll, Asleep, hji] using hj)

theorem wakeup (h : Inv s) (i : ι) : Inv (s.wakeup i) := by
  refine { h with told := ?_ }
  intro j hj
  by_cases hji : j = i
  · subst hji; simp [Wake.wakeup, Asleep] at hj
  · exact h.told j (by simpa [Wake.wakeup, Asleep, hji] using hj)

/-- The swap moves the id from `sleeping` to `waking`. -/
theorem swap (h : Inv s) {i : ι} (hs : s.slept i = false) (hw : s.waking i = 0) :
    Inv (s.swap i) := by
  have hheld : (s.swap i).held = s.held := by
    ext j
    by_cases hj : j = i
    · subst hj; simp [held, Wake.swap, hw]
    · simp [held, Wake.swap, hj]
  refine { h with
    excl := ?_, mem := hheld ▸ h.mem, owner := hheld ▸ h.owner, inj := hheld ▸ h.inj,
    waker := hheld ▸ h.waker, slept := ?_, told := ?_ }
  · intro j
    by_cases hj : j = i
    · subst hj; exact Or.inl (by simp [Wake.swap])
    · simpa [Wake.swap, hj] using h.excl j
  · intro j hj
    have hji : j ≠ i := by rintro rfl; exact absurd hj (by simp [Wake.swap, hs])
    simpa [Wake.swap, hji] using h.slept j hj
  · intro j hj
    have hji : j ≠ i := by rintro rfl; exact absurd hj.1 (by simp [Wake.swap, hs])
    simpa [Wake.swap, hji] using h.told j hj

theorem wakeLock (h : Inv s) {i : ι} (hw : s.waking i ≠ 0) : Inv (s.wakeLock i) := by
  have hz : s.sleeping i = 0 := (h.excl i).resolve_right hw
  have hi : s.held i = s.waking i := by unfold held; omega
  have hlive : s.waking i ∈ s.live := hi ▸ h.mem i (by omega)
  have hheld : (s.wakeLock i).held = Function.update s.held i 0 := by
    ext j
    by_cases hj : j = i
    · subst hj; simp [held, Wake.wakeLock, hz]
    · simp [held, Wake.wakeLock, hj]
  have hids : (s.wakeLock i).sleepers.ids = s.sleepers.ids.erase (s.waking i) :=
    Sleepers.ids_remove h.ids
  have hne : ∀ j, j ≠ i → s.held j ≠ 0 → s.held j ≠ s.waking i := by
    intro j hj h0 he
    exact hj (h.inj j i h0 (he.trans hi.symm))
  refine { h with
    excl := ?_, count := ?_, nodup := h.nodup.erase _, gen := ?_, mem := ?_, owner := ?_,
    inj := ?_, ids := hids ▸ h.ids.erase _, waker := ?_, bound := ?_, notified := Or.inl,
    slept := h.slept, told := ?_ }
  · intro j
    by_cases hj : j = i
    · subst hj; exact Or.inr (by simp [Wake.wakeLock])
    · simpa [Wake.wakeLock, hj] using h.excl j
  · show (s.live.erase (s.waking i)).length = s.sleepers.count - 1
    rw [List.length_erase_of_mem hlive, h.count]
  · intro id hid
    exact h.gen id (List.mem_of_mem_erase hid)
  · intro j hj
    rw [hheld] at hj ⊢
    by_cases hji : j = i
    · subst hji; simp at hj
    · rw [Function.update_of_ne hji] at hj ⊢
      exact (List.mem_erase_of_ne (hne j hji hj)).2 (h.mem j hj)
  · intro id hid
    obtain ⟨hid', hmem⟩ := (h.nodup.mem_erase_iff).1 hid
    obtain ⟨j, hj⟩ := h.owner id hmem
    have hji : j ≠ i := by rintro rfl; exact hid' (hj.symm.trans hi)
    exact ⟨j, by rw [hheld, Function.update_of_ne hji, hj]⟩
  · intro j k hj hjk
    rw [hheld] at hj hjk
    have hji : j ≠ i := by rintro rfl; simp at hj
    have hki : k ≠ i := by
      rintro rfl
      rw [hjk] at hj; simp at hj
    rw [Function.update_of_ne hji] at hj hjk
    rw [Function.update_of_ne hki] at hjk
    exact h.inj j k hj hjk
  · intro e he
    obtain ⟨hm, hh⟩ := h.waker e (Sleepers.mem_remove he)
    have hid : e.1 ∈ s.sleepers.ids.erase (s.waking i) := hids ▸ List.mem_map_of_mem he
    have hne1 : e.1 ≠ s.waking i := ((h.ids.mem_erase_iff).1 hid).1
    have hei : e.2 ≠ i := by
      intro hei
      rw [hei] at hh; exact hne1 (hh.symm.trans hi)
    exact ⟨(List.mem_erase_of_ne hne1).2 hm, by rw [hheld, Function.update_of_ne hei, hh]⟩
  · have hlen : s.sleepers.wakers.length ≤ (s.wakeLock i).sleepers.wakers.length + 1 := by
      have := congrArg List.length hids
      simp only [Sleepers.ids, List.length_map, List.length_erase] at this
      split_ifs at this <;> omega
    have := h.bound
    show s.sleepers.count - 1 ≤ _
    omega
  · intro j hj
    have hs := h.slept j hj.1
    have hji : j ≠ i := by rintro rfl; exact hs hz
    refine (h.told j hj).imp_left fun hm => ?_
    show s.sleeping j ∈ (s.wakeLock i).sleepers.ids
    have := hne j hji (by rw [h.held_sleeping hs]; exact hs)
    rw [h.held_sleeping hs] at this
    exact hids ▸ (List.mem_erase_of_ne this).2 hm

/-- A ticker that was awake enters the list with a new id. -/
theorem sleep_insert (h : Inv s) {i : ι} (hw : s.waking i = 0) (hz : s.sleeping i = 0) :
    Inv (s.sleep i) := by
  have hi : s.held i = 0 := by unfold held; omega
  have he : s.sleep i = { s with
      slept := Function.update s.slept i true
      sleepers := (s.sleepers.insert i).2
      sleeping := Function.update s.sleeping i s.sleepers.idGen
      notified := (s.sleepers.insert i).2.isNotified
      live := s.sleepers.idGen :: s.live } := by
    simp [Wake.sleep, hz, Sleepers.insert]
  have hheld : (s.sleep i).held = Function.update s.held i s.sleepers.idGen := by
    ext j
    by_cases hj : j = i
    · subst hj; simp [held, he, hw]
    · simp [held, he, hj]
  have hlt : ∀ j, s.held j < s.sleepers.idGen := by
    intro j
    by_cases hj : s.held j = 0
    · rw [hj]; exact h.pos
    · exact (h.gen _ (h.mem j hj)).2
  have hids : (s.sleep i).sleepers.ids = s.sleepers.ids ++ [s.sleepers.idGen] := by
    simp [he, Sleepers.ids, Sleepers.insert]
  have hnew : s.sleepers.idGen ∉ s.live := fun hm => (h.gen _ hm).2.ne rfl
  rw [he] at hheld hids ⊢
  refine {
    excl := ?_, count := ?_, nodup := List.nodup_cons.2 ⟨hnew, h.nodup⟩, gen := ?_,
    pos := Nat.succ_pos _, mem := ?_, owner := ?_, inj := ?_, ids := ?_, waker := ?_, bound := ?_,
    notified := Or.inl, slept := ?_, told := ?_ }
  · intro j
    by_cases hj : j = i
    · subst hj; exact Or.inr hw
    · simpa [hj] using h.excl j
  · simp [Sleepers.insert, h.count]
  · intro id hid
    rcases List.mem_cons.1 hid with rfl | hid
    · exact ⟨h.pos, Nat.lt_succ_self _⟩
    · exact ⟨(h.gen id hid).1, (h.gen id hid).2.trans (Nat.lt_succ_self _)⟩
  · intro j hj
    rw [hheld] at hj ⊢
    by_cases hji : j = i
    · subst hji; simp
    · rw [Function.update_of_ne hji] at hj ⊢
      exact List.mem_cons_of_mem _ (h.mem j hj)
  · intro id hid
    rcases List.mem_cons.1 hid with rfl | hid
    · exact ⟨i, by rw [hheld, Function.update_self]⟩
    · obtain ⟨j, hj⟩ := h.owner id hid
      have hji : j ≠ i := by
        intro hji
        rw [hji, hi] at hj; exact absurd (h.gen id (by assumption)).1 (by omega)
      exact ⟨j, by rw [hheld, Function.update_of_ne hji, hj]⟩
  · intro j k hj hjk
    rw [hheld] at hj hjk
    by_cases hji : j = i <;> by_cases hki : k = i
    · rw [hji, hki]
    · subst hji
      rw [Function.update_self, Function.update_of_ne hki] at hjk
      exact absurd (hlt k) (by omega)
    · subst hki
      rw [Function.update_self, Function.update_of_ne hji] at hjk
      exact absurd (hlt j) (by omega)
    · rw [Function.update_of_ne hji] at hj hjk
      rw [Function.update_of_ne hki] at hjk
      exact h.inj j k hj hjk
  · rw [hids]
    exact List.nodup_append.2 ⟨h.ids, List.nodup_singleton _, fun a ha b hb hab => by
      rw [List.mem_singleton.1 hb] at hab; subst hab; exact hnew (h.ids_live ha)⟩
  · intro e hmem
    rcases List.mem_append.1 hmem with hmem | hmem
    · obtain ⟨hm, hh⟩ := h.waker e hmem
      have hei : e.2 ≠ i := by
        intro hei
        rw [hei, hi] at hh; exact (h.gen _ hm).1.ne hh
      exact ⟨List.mem_cons_of_mem _ hm, by rw [hheld, Function.update_of_ne hei, hh]⟩
    · cases List.mem_singleton.1 hmem
      exact ⟨List.mem_cons_self, by rw [hheld, Function.update_self]⟩
  · have := h.bound
    simp only [Sleepers.insert, List.length_append, List.length_singleton]; omega
  · intro j hj
    by_cases hji : j = i
    · subst hji; simpa using h.pos.ne'
    · simpa [hji] using h.slept j (by simpa [hji] using hj)
  · intro j hj
    rw [hids]
    by_cases hji : j = i
    · subst hji; exact Or.inl (by simp)
    · have := h.told j (by simpa [Asleep, hji] using hj)
      simpa [hji] using this.imp_left (List.mem_append_left [s.sleepers.idGen])

/-- A ticker that was sleeping already has its waker in the list afterwards. -/
theorem sleep_update (h : Inv s) {i : ι} (hz : s.sleeping i ≠ 0) : Inv (s.sleep i) := by
  have hi : s.held i = s.sleeping i := h.held_sleeping hz
  have hslept : ∀ j, Function.update s.slept i true j = true → s.sleeping j ≠ 0 := by
    intro j hj
    by_cases hji : j = i
    · subst hji; exact hz
    · exact h.slept j (by simpa [hji] using hj)
  have hasleep : ∀ j, j ≠ i → Function.update s.slept i true j = true ∧ s.woken j = false →
      s.Asleep j := by
    intro j hji hj
    simpa [Asleep, hji] using hj
  have hmem : s.sleeping i ∈ s.live := hi ▸ h.mem i (by rw [hi]; exact hz)
  cases hr : Sleepers.replace (s.sleeping i) i s.sleepers.wakers with
  | some wakers =>
    obtain ⟨hids, hin, hold⟩ := Sleepers.replace_some hr
    have he : s.sleep i = { s with
        slept := Function.update s.slept i true
        sleepers := { s.sleepers with wakers := wakers } } := by
      simp [Wake.sleep, hz, Sleepers.update, hr]
    have hlen : wakers.length = s.sleepers.wakers.length := by
      simpa using congrArg List.length hids
    rw [he]
    refine { h with
      ids := ?_, waker := ?_, bound := ?_, notified := ?_, slept := hslept, told := ?_ }
    · show (wakers.map Prod.fst).Nodup
      rw [hids]; exact h.ids
    · intro e hmem'
      rcases hold e hmem' with hmem' | rfl
      · exact h.waker e hmem'
      · exact ⟨hmem, hi⟩
    · show _ ≤ wakers.length + 1
      rw [hlen]; exact h.bound
    · intro hn
      simpa [Sleepers.isNotified, hlen] using h.notified hn
    · intro j hj
      show s.sleeping j ∈ wakers.map Prod.fst ∨ _
      rw [hids]
      by_cases hji : j = i
      · subst hji; exact Or.inl hin
      · exact h.told j (hasleep j hji hj)
  | none =>
    have hout := Sleepers.replace_none hr
    have he : s.sleep i = { s with
        slept := Function.update s.slept i true
        sleepers := { s.sleepers with wakers := s.sleepers.wakers ++ [(s.sleeping i, i)] }
        notified := Sleepers.isNotified
          { s.sleepers with wakers := s.sleepers.wakers ++ [(s.sleeping i, i)] } } := by
      simp [Wake.sleep, hz, Sleepers.update, hr]
    have hids : Sleepers.ids
        { s.sleepers with wakers := s.sleepers.wakers ++ [(s.sleeping i, i)] } =
          s.sleepers.ids ++ [s.sleeping i] := by
      simp [Sleepers.ids]
    rw [he]
    refine { h with
      ids := ?_, waker := ?_, bound := ?_, notified := Or.inl, slept := hslept, told := ?_ }
    · rw [hids]
      exact List.nodup_append.2 ⟨h.ids, List.nodup_singleton _, fun a ha b hb hab => by
        rw [List.mem_singleton.1 hb] at hab; subst hab; exact hout ha⟩
    · intro e hmem'
      rcases List.mem_append.1 hmem' with hmem' | hmem'
      · exact h.waker e hmem'
      · cases List.mem_singleton.1 hmem'
        exact ⟨hmem, hi⟩
    · have := h.bound
      simp only [List.length_append, List.length_singleton]; omega
    · intro j hj
      rw [hids]
      by_cases hji : j = i
      · subst hji; exact Or.inl (by simp)
      · exact (h.told j (hasleep j hji hj)).imp_left (List.mem_append_left _)

theorem sleep (h : Inv s) {i : ι} (hw : s.waking i = 0) : Inv (s.sleep i) := by
  by_cases hz : s.sleeping i = 0
  · exact h.sleep_insert hw hz
  · exact h.sleep_update hz

variable [DecidableEq κ]

theorem notify (h : Inv s) (k : κ) : Inv (s.notify k) := by
  unfold Wake.notify
  split
  next hk =>
    split_ifs with hn
    · exact h
    · have h' : Inv ({ s with notified := true }.setCall k .lock) := by
        refine { h with notified := fun _ => Or.inr ⟨k, by simp [Wake.setCall]⟩, told := ?_ }
        intro i hi
        refine (h.told i hi).imp_right ?_
        rintro ⟨k', hk'⟩
        have hne : k' ≠ k := by rintro rfl; rw [hk] at hk'; cases hk'
        exact ⟨k', by simpa [Wake.setCall, hne] using hk'⟩
      exact h'
  next hk =>
    split
    next i sleepers hs => exact h.notify_some hk hs
    next sleepers hs =>
      obtain ⟨rfl, hn⟩ := h.notify_none hs
      exact h.setCall (by rw [hk]; simp) fun _ => Or.inl hn
  next i hk =>
    refine (h.wakeup i).setCall ?_ ?_
    · intro j hj
      have : i = j := by simpa [Wake.wakeup, hk] using hj
      simp [Wake.wakeup, this]
    · intro hn
      refine (h.notified hn).imp_right ?_
      rintro ⟨k', hk'⟩
      have hne : k' ≠ k := by rintro rfl; rw [hk] at hk'; cases hk'
      exact ⟨k', by simpa [Wake.wakeup, hne] using hk'⟩

theorem step (h : Inv s) {a : Act ι κ} {s' : Wake ι κ} (hs : s.step a = some s') : Inv s' := by
  cases a <;> simp only [Wake.step, Option.ite_none_right_eq_some, Option.some.injEq] at hs
  case poll i => subst hs; exact h.poll i
  case sleep i => obtain ⟨hw, rfl⟩ := hs; exact h.sleep hw
  case swap i => obtain ⟨hw, rfl⟩ := hs; exact h.swap hw.1 hw.2
  case wakeLock i => obtain ⟨hw, rfl⟩ := hs; exact h.wakeLock hw
  case notify k => subst hs; exact h.notify k
  case wakeup i => subst hs; exact h.wakeup i

end Steps

end Inv

section Calls
variable [DecidableEq ι] [DecidableEq κ] {s s' : Wake ι κ}

/-- A ticker that has no id and that no call is about to wake. -/
def Absent (s : Wake ι κ) (i : ι) : Prop := s.held i = 0 ∧ ∀ k, s.calls k ≠ .wake i

/-- Only `sleep` gives a ticker an id. -/
theorem held_of_step {a : Act ι κ} (hs : s.step a = some s') {i : ι} (ha : a ≠ .sleep i)
    (hi : s.held i = 0) : s'.held i = 0 := by
  have hz : s.sleeping i = 0 ∧ s.waking i = 0 := by unfold held at hi; omega
  cases a <;> simp only [Wake.step, Option.ite_none_right_eq_some, Option.some.injEq] at hs
  case poll j => subst hs; exact hi
  case wakeup j => subst hs; exact hi
  case sleep j =>
    obtain ⟨-, rfl⟩ := hs
    have hij : i ≠ j := by rintro rfl; exact ha rfl
    rw [held, sleep_sleeping s j hij, sleep_waking]; exact hi
  case swap j =>
    obtain ⟨-, rfl⟩ := hs
    by_cases hij : i = j
    · subst hij; simp [held, Wake.swap, hz]
    · simp [held, Wake.swap, hij, hz]
  case wakeLock j =>
    obtain ⟨-, rfl⟩ := hs
    by_cases hij : i = j
    · subst hij; simp [held, Wake.wakeLock, hz]
    · simp [held, Wake.wakeLock, hij, hz]
  case notify k => subst hs; simpa [held] using hi

/-- A ticker without an id stays unknown to the sleepers until it sleeps. -/
theorem Inv.absent (h : Inv s) {a : Act ι κ} (hs : s.step a = some s') {i : ι}
    (ha : a ≠ .sleep i) (hi : s.Absent i) : s'.Absent i := by
  obtain ⟨hheld, hcalls⟩ := hi
  refine ⟨held_of_step hs ha hheld, ?_⟩
  cases a <;> simp only [Wake.step, Option.ite_none_right_eq_some, Option.some.injEq] at hs
  case poll j => subst hs; exact hcalls
  case wakeup j => subst hs; exact hcalls
  case sleep j => obtain ⟨-, rfl⟩ := hs; simpa using hcalls
  case swap j => obtain ⟨-, rfl⟩ := hs; exact hcalls
  case wakeLock j => obtain ⟨-, rfl⟩ := hs; exact hcalls
  case notify k =>
    subst hs
    intro k' hk'
    by_cases hkk : k' = k
    · subst hkk
      -- the waker taken out is that of a ticker with an id
      unfold Wake.notify at hk'
      split at hk'
      next hk => split_ifs at hk' <;> simp [Wake.setCall, hk] at hk'
      next hk =>
        split at hk'
        next j sleepers hn =>
          obtain rfl : j = i := by simpa [Wake.setCall] using hk'
          obtain ⟨id, hid⟩ := Sleepers.notify_mem hn
          have := h.waker _ hid
          exact (h.gen _ this.1).1.ne (hheld.symm.trans this.2)
        next => simp [Wake.setCall] at hk'
      next => simp [Wake.setCall] at hk'
    · exact hcalls k' (notify_calls s k hkk ▸ hk')

/-- Only `sleep` puts a ticker to sleep. -/
theorem asleep_of_step {a : Act ι κ} (hs : s.step a = some s') {i : ι} (ha : a ≠ .sleep i)
    (hi : s'.Asleep i) : s.Asleep i := by
  obtain ⟨h1, h2⟩ := hi
  cases a <;> simp only [step, Option.ite_none_right_eq_some, Option.some.injEq] at hs
  case poll j =>
    subst hs
    have hij : i ≠ j := by rintro rfl; simp [poll] at h1
    exact ⟨by simpa [poll, hij] using h1, by simpa [poll, hij] using h2⟩
  case sleep j =>
    obtain ⟨-, rfl⟩ := hs
    have hij : i ≠ j := by rintro rfl; exact ha rfl
    exact ⟨by simpa [hij] using h1, by simpa using h2⟩
  case swap j => obtain ⟨-, rfl⟩ := hs; exact ⟨h1, h2⟩
  case wakeLock j => obtain ⟨-, rfl⟩ := hs; exact ⟨h1, h2⟩
  case notify k =>
    subst hs
    refine ⟨by simpa using h1, Bool.eq_false_iff.2 fun hw => ?_⟩
    rw [notify_woken s k hw] at h2; cases h2
  case wakeup j =>
    subst hs
    have hij : i ≠ j := by rintro rfl; simp [wakeup] at h2
    exact ⟨h1, by simpa [wakeup, hij] using h2⟩

/-- A wake is forgotten only when the next poll begins. -/
theorem woken_of_step {a : Act ι κ} (hs : s.step a = some s') {i : ι} (ha : a ≠ .poll i)
    (hi : s.woken i = true) : s'.woken i = true := by
  cases a <;> simp only [step, Option.ite_none_right_eq_some, Option.some.injEq] at hs
  case poll j =>
    subst hs
    have hij : i ≠ j := by rintro rfl; exact ha rfl
    simpa [poll, hij] using hi
  case sleep j => obtain ⟨-, rfl⟩ := hs; simpa using hi
  case swap j => obtain ⟨-, rfl⟩ := hs; exact hi
  case wakeLock j => obtain ⟨-, rfl⟩ := hs; exact hi
  case notify k => subst hs; exact notify_woken s k hi
  case wakeup j =>
    subst hs
    by_cases hij : i = j
    · subst hij; simp [wakeup]
    · simpa [wakeup, hij] using hi

/-- When a call of `State::notify` returns, no ticker is asleep, or some ticker that
    has an id is not, or was just woken, or another call is in progress. -/
theorem Inv.notify_returns (h : Inv s) {k : κ} (hk : (s.notify k).calls k = .idle) :
    (∀ i, ¬ (s.notify k).Asleep i) ∨ (∃ i, ¬ s.Absent i ∧ ¬ (s.notify k).Asleep i) ∨
      ∃ k' ≠ k, (s.notify k).calls k' ≠ .idle := by
  have hsub : ∀ i, (s.notify k).Asleep i → s.Asleep i := fun i =>
    asleep_of_step (a := .notify k) rfl (by simp)
  have hother : ∀ k' ≠ k, s.calls k' ≠ .idle → (s.notify k).calls k' ≠ .idle := by
    intro k' hkk hk'
    rw [notify_calls s k hkk]; exact hk'
  have hawake : s.sleepers.isNotified = true → (∀ i, s.calls k ≠ .wake i) →
      (∀ i, ¬ (s.notify k).Asleep i) ∨ (∃ i, ¬ s.Absent i ∧ ¬ (s.notify k).Asleep i) ∨
        ∃ k' ≠ k, (s.notify k).calls k' ≠ .idle := by
    intro hn hne
    rcases h.awake hn with hall | ⟨i, hi, hi' | ⟨k', hk'⟩⟩
    · exact Or.inl fun i hi => hall i (hsub i hi)
    · exact Or.inr (Or.inl ⟨i, fun ha => hi ha.1, fun ha => hi' (hsub i ha)⟩)
    · have hkk : k' ≠ k := by rintro rfl; exact hne i hk'
      exact Or.inr (Or.inr ⟨k', hkk, hother k' hkk (by rw [hk']; simp)⟩)
  cases hc : s.calls k with
  | idle =>
    by_cases hn : s.notified = true
    · rcases h.notified hn with hn' | ⟨k', hk'⟩
      · exact hawake hn' (by rw [hc]; simp)
      · have hkk : k' ≠ k := by rintro rfl; rw [hc] at hk'; cases hk'
        exact Or.inr (Or.inr ⟨k', hkk, hother k' hkk (by rw [hk']; simp)⟩)
    · simp [Wake.notify, hc, hn, Wake.setCall] at hk
  | lock =>
    rcases hn : s.sleepers.notify with ⟨_ | i, sleepers⟩
    · exact hawake (h.notify_none hn).2 (by rw [hc]; simp)
    · simp [Wake.notify, hc, hn, Wake.setCall] at hk
  | wake i =>
    refine Or.inr (Or.inl ⟨i, fun ha => ha.2 k hc, fun ha => ?_⟩)
    simp [Wake.notify, hc, Asleep, Wake.wakeup, Wake.setCall] at ha

end Calls

theorem inv_reach [DecidableEq ι] [DecidableEq κ] {s : Wake ι κ}
    (h : (system : Lts (Wake ι κ) (Act ι κ)).Reachable s) : Inv s := by
  refine h.inv (P := Inv) ?_ ?_
  · rintro _ rfl; exact inv_new
  · intro s a s' _ hi _ hs; exact hi.step hs

/-- **The sleepers and the flag `notified`**, for any number of tickers and of calls of
    `State::notify`. -/
theorem sleepers_exact [DecidableEq ι] [DecidableEq κ] {s : Wake ι κ}
    (h : (system : Lts (Wake ι κ) (Act ι κ)).Reachable s) :
    -- at most one sleeping ticker is notified
    (s.sleepers.wakers.length ≤ s.sleepers.count ∧
      s.sleepers.count ≤ s.sleepers.wakers.length + 1) ∧
    -- `wakers` and `count` account for the ids inserted and not yet removed
    (s.sleepers.ids.Nodup ∧
      (∀ id ∈ s.sleepers.ids, 1 ≤ id ∧ id < s.sleepers.idGen ∧ id ∈ s.live) ∧
      s.live.Nodup ∧ s.live.length = s.sleepers.count ∧
      ∀ i, s.waking i ≠ 0 → s.waking i ∈ s.live ∧ 1 ≤ s.sleepers.count) ∧
    -- the flag is not set for nothing
    (s.notified = true → s.sleepers.isNotified = true ∨ ∃ k, s.calls k = .lock) := by
  have hi := inv_reach h
  refine ⟨⟨hi.length_le, hi.bound⟩, ⟨hi.ids, ?_, hi.nodup, hi.count, ?_⟩, hi.notified⟩
  · intro id hid
    have hlive := hi.ids_live hid
    exact ⟨(hi.gen id hlive).1, (hi.gen id hlive).2, hlive⟩
  · intro i hw
    have hz : s.sleeping i = 0 := (hi.excl i).resolve_right hw
    have hheld : s.held i = s.waking i := by unfold held; omega
    have hlive : s.waking i ∈ s.live := hheld ▸ hi.mem i (by omega)
    refine ⟨hlive, ?_⟩
    rw [← hi.count]
    exact List.length_pos_of_mem hlive

/-- Two tickers sleep, one is notified and begins to wake up. -/
def notifiedWhileWaking : List (Act (Fin 2) (Fin 2)) :=
  [.sleep 0, .sleep 1, .notify 0, .notify 0, .notify 0, .poll 1, .swap 1]

theorem sleepers_exact_waking : ∃ s : Wake (Fin 2) (Fin 2),
    system.run new notifiedWhileWaking = some s ∧ s.sleepers.count = 2 ∧
      s.sleepers.ids = [1] ∧ s.waking 1 = 2 ∧ s.notified = true ∧
      (s.waking 1 ∈ s.live ∧ 1 ≤ s.sleepers.count) ∧
      (s.sleepers.isNotified = true ∨ ∃ k, s.calls k = .lock) := by
  have hrun : ∃ s : Wake (Fin 2) (Fin 2), system.run new notifiedWhileWaking = some s ∧
      s.sleepers.count = 2 ∧ s.sleepers.ids = [1] ∧ s.waking 1 = 2 ∧ s.notified = true :=
    Lts.exists_run (by decide +kernel)
  obtain ⟨s, hs, hc, hid, hw, hn⟩ := hrun
  have h := sleepers_exact (.run (.init rfl) (Lts.meets_true _ notifiedWhileWaking) hs)
  exact ⟨s, hs, hc, hid, hw, hn, h.2.1.2.2.2.2 1 (by rw [hw]; decide), h.2.2 hn⟩

end Wake
end Awak
