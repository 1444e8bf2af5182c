/-
  `parking.rs`: a token passed from any number of unparkers to one parker,
  through an atomic state, a mutex and a condition variable.

  Each atomic access, each lock and unlock and each operation on the
  condition variable is one step.  A wait on the condition variable can end
  at any moment (`wakeup`: spuriously or by its timeout).

  History: `tokens` counts the swaps of `unpark` that yield `true`, `taken`
  the parks that have taken a token (whose answer is therefore `true`),
  `returned` the parks that have returned `true`.

  * `Inv`: the token is in `state` or has been taken, and a parker that is
    about to wait, or waits, on a delivered token has an unparker that is
    still to notify it;
  * `token_semantics`: the properties of the token protocol.
-/
import Awak.Lib.Lts

namespace Awak.Parking

variable {ι : Type}

/-- The states of the parker. -/
def EMPTY : ℕ := 0
def PARKED : ℕ := 1
def NOTIFIED : ℕ := 2

/-- Who holds the mutex. -/
inductive Holder (ι : Type) where
  | parker
  | unparker (i : ι)
  deriving DecidableEq

/-- A call of `park`, with its timeout (`none` for `park()`). -/
inductive ParkPc where
  | idle
  | lock (timeout : Option ℕ)
  | cas (timeout : Option ℕ)
  | swap (timeout : Option ℕ)
  | wait (timeout : Option ℕ)
  /-- on the condition variable; `woken` if the wakeup has been delivered -/
  | waiting (timeout : Option ℕ) (woken : Bool)
  | check (timeout : Option ℕ)
  | unlock (timeout : Option ℕ) (res : Bool)
  | ret (timeout : Option ℕ) (res : Bool)
  | panicked
  deriving DecidableEq

/-- A call of `unpark`. -/
inductive UnparkPc where
  | idle
  | lock
  | unlock
  | notify
  | ret (res : Bool)
  | panicked
  deriving DecidableEq

/-- `Inner` with the calls in flight; `ι` are the unparkers. -/
structure Inner (ι : Type) where
  state : ℕ
  lock : Option (Holder ι)
  parking : ParkPc
  unparking : ι → UnparkPc
  tokens : ℕ
  taken : ℕ
  returned : ℕ

namespace Inner

/-- `Parker::new`. -/
def new : Inner ι := ⟨EMPTY, none, .idle, fun _ => .idle, 0, 0, 0⟩

/-- Call `park(timeout)`: its first step tries to take a token. -/
def park (s : Inner ι) (timeout : Option ℕ) : Option (Inner ι) :=
  match s.parking with
  | .idle =>
    if s.state = NOTIFIED then
      some { s with state := EMPTY, taken := s.taken + 1, parking := .ret timeout true }
    else if timeout = some 0 then some { s with parking := .ret timeout false }
    else some { s with parking := .lock timeout }
  | _ => none

/-- The next step of the parker inside `park`. -/
def parkStep (s : Inner ι) : Option (Inner ι) :=
  match s.parking with
  | .lock timeout =>
    if s.lock = none then some { s with lock := some .parker, parking := .cas timeout } else none
  | .cas timeout =>
    if s.state = EMPTY then some { s with state := PARKED, parking := .wait timeout }
    else if s.state = NOTIFIED then some { s with parking := .swap timeout }
    else some { s with parking := .panicked }
  | .swap timeout =>
    -- `assert_eq!(old, NOTIFIED)`
    if s.state = NOTIFIED then
      some { s with state := EMPTY, taken := s.taken + 1, parking := .unlock timeout true }
    else some { s with state := EMPTY, parking := .panicked }
  | .wait timeout => some { s with lock := none, parking := .waiting timeout false }
  | .waiting timeout true =>
    if s.lock = none then some { s with lock := some .parker, parking := .check timeout } else none
  | .check none =>
    if s.state = NOTIFIED then
      some { s with state := EMPTY, taken := s.taken + 1, parking := .unlock none true }
    else some { s with parking := .wait none }
  | .check (some d) =>
    if s.state = NOTIFIED then
      some { s with state := EMPTY, taken := s.taken + 1, parking := .unlock (some d) true }
    else if s.state = PARKED then
      some { s with state := EMPTY, parking := .unlock (some d) false }
    else some { s with state := EMPTY, parking := .panicked }
  | .unlock timeout res => some { s with lock := none, parking := .ret timeout res }
  | .idle | .waiting _ false | .ret .. | .panicked => none

/-- Return from `park`. -/
def parkRet (s : Inner ι) : Option (Inner ι) :=
  match s.parking with
  | .ret _ true => some { s with returned := s.returned + 1, parking := .idle }
  | .ret _ false => some { s with parking := .idle }
  | _ => none

/-- A spurious wakeup of the condition variable, or a timeout. -/
def wakeup (s : Inner ι) : Option (Inner ι) :=
  match s.parking with
  | .waiting timeout false => some { s with parking := .waiting timeout true }
  | _ => none

/-- `cvar.notify_one()`. -/
def notifyOne (p : ParkPc) : ParkPc :=
  match p with
  | .waiting timeout _ => .waiting timeout true
  | p => p

variable [DecidableEq ι]

/-- The call of `unpark` by `i` goes to `p`. -/
def setUnpark (s : Inner ι) (i : ι) (p : UnparkPc) : Inner ι :=
  { s with unparking := Function.update s.unparking i p }

/-- Call `unpark`: its first step swaps the state. -/
def unpark (s : Inner ι) (i : ι) : Option (Inner ι) :=
  match s.unparking i with
  | .idle =>
    let s' := { s with state := NOTIFIED }
    if s.state = EMPTY then
      some ({ s' with tokens := s.tokens + 1 }.setUnpark i (.ret true))
    else if s.state = NOTIFIED then some (s'.setUnpark i (.ret false))
    else if s.state = PARKED then
      some ({ s' with tokens := s.tokens + 1 }.setUnpark i .lock)
    else some (s'.setUnpark i .panicked)
  | _ => none

/-- The next step of unparker `i` inside `unpark`. -/
def unparkStep (s : Inner ι) (i : ι) : Option (Inner ι) :=
  match s.unparking i with
  | .lock =>
    if s.lock = none then some ({ s with lock := some (.unparker i) }.setUnpark i .unlock)
    else none
  | .unlock => some ({ s with lock := none }.setUnpark i .notify)
  | .notify => some ({ s with parking := notifyOne s.parking }.setUnpark i (.ret true))
  | .idle | .ret _ | .panicked => none

/-- Return from `unpark`. -/
def unparkRet (s : Inner ι) (i : ι) : Option (Inner ι) :=
  match s.unparking i with
  | .ret _ => some (s.setUnpark i .idle)
  | _ => none

end Inner

/-- The moves of the parker and of the unparkers. -/
inductive Act (ι : Type) where
  | park (timeout : Option ℕ)
  | parkStep
  | parkRet
  | wakeup
  | unpark (i : ι)
  | unparkStep (i : ι)
  | unparkRet (i : ι)

/-- One atomic operation of `park` or of a call of `unpark`. -/
def step [DecidableEq ι] (s : Inner ι) : Act ι → Option (Inner ι)
  | .park timeout => s.park timeout
  | .parkStep => s.parkStep
  | .parkRet => s.parkRet
  | .wakeup => s.wakeup
  | .unpark i => s.unpark i
  | .unparkStep i => s.unparkStep i
  | .unparkRet i => s.unparkRet i

/-- One thread that parks, and any others that unpark it. -/
def system [DecidableEq ι] : Lts (Inner ι) (Act ι) where
  init s := s = Inner.new
  step := step

namespace Inner
variable {s s' : Inner ι}

/-! ## Frame lemmas -/

theorem park_unparking {timeout : Option ℕ} (hs : s.park timeout = some s') :
    s'.unparking = s.unparking := by
  unfold park at hs
  split at hs
  · split_ifs at hs <;> cases hs <;> rfl
  · cases hs

theorem parkStep_unparking (hs : s.parkStep = some s') : s'.unparking = s.unparking := by
  unfold parkStep at hs
  split at hs <;> (try split_ifs at hs) <;> cases hs <;> rfl

theorem parkRet_frame (hs : s.parkRet = some s') :
    s'.unparking = s.unparking ∧ s'.state = s.state ∧ s'.parking = .idle := by
  unfold parkRet at hs
  split at hs <;> cases hs <;> exact ⟨rfl, rfl, rfl⟩

theorem wakeup_frame (hs : s.wakeup = some s') :
    s'.unparking = s.unparking ∧ s'.state = s.state ∧ ∃ timeout, s.parking = .waiting timeout false ∧
      s'.parking = .waiting timeout true := by
  unfold wakeup at hs
  split at hs <;> cases hs
  next timeout hi => exact ⟨rfl, rfl, timeout, hi, rfl⟩

/-- `park_timeout(0)` answers at once, and `false` only without a token. -/
theorem park_zero (hs : s.park (some 0) = some s') :
    ∃ res, s'.parking = .ret (some 0) res ∧ (res = false → s'.state ≠ NOTIFIED) := by
  unfold park at hs
  split at hs
  · split_ifs at hs with hn
    · cases hs; exact ⟨true, rfl, nofun⟩
    · cases hs; exact ⟨false, rfl, fun _ => hn⟩
    · exact absurd rfl ‹_›
  · cases hs

variable [DecidableEq ι] {i : ι}

theorem unpark_frame (hs : s.unpark i = some s') :
    s'.parking = s.parking ∧ ∃ p, s'.unparking = Function.update s.unparking i p ∧
      (s.state = EMPTY → p = .ret true) := by
  unfold unpark at hs
  split at hs
  next hi =>
    dsimp only at hs
    split_ifs at hs with he <;> cases hs
    · exact ⟨rfl, _, rfl, fun _ => rfl⟩
    all_goals exact ⟨rfl, _, rfl, fun h => absurd h he⟩
  next => cases hs

theorem unparkStep_frame (hs : s.unparkStep i = some s') :
    (∀ res, s.unparking i ≠ .ret res) ∧ s'.state = s.state ∧
      (s'.parking = s.parking ∨ ∃ t woken, s.parking = .waiting t woken) ∧
      ∃ p, s'.unparking = Function.update s.unparking i p := by
  unfold unparkStep at hs
  split at hs
  next hi => split_ifs at hs; cases hs; exact ⟨by simp [hi], rfl, Or.inl rfl, _, rfl⟩
  next hi => cases hs; exact ⟨by simp [hi], rfl, Or.inl rfl, _, rfl⟩
  next hi =>
    cases hs
    refine ⟨by simp [hi], rfl, ?_, _, rfl⟩
    cases s.parking <;> simp [setUnpark, notifyOne]
  all_goals cases hs

theorem unparkRet_frame (hs : s.unparkRet i = some s') :
    s'.state = s.state ∧ s'.parking = s.parking ∧
      s'.unparking = Function.update s.unparking i .idle := by
  unfold unparkRet at hs
  split at hs <;> cases hs
  exact ⟨rfl, rfl, rfl⟩

end Inner

/-! ## The invariant -/

/-- An unparker that has swapped `PARKED` for `NOTIFIED` and has not yet
    executed its `notify_one`. -/
def UnparkPc.Owes (p : UnparkPc) : Prop := p = .lock ∨ p = .unlock ∨ p = .notify

/-- Has this park taken a token it has not yet reported? -/
def ParkPc.holds : ParkPc → ℕ
  | .unlock _ true | .ret _ true => 1
  | _ => 0

/-- What holds while the parker is at a place of `park`. -/
def ParkOk (s : Inner ι) : ParkPc → Prop
  | .idle => (s.state = EMPTY ∨ s.state = NOTIFIED) ∧ s.lock ≠ some .parker
  | .lock _ => (s.state = EMPTY ∨ s.state = NOTIFIED) ∧ s.lock ≠ some .parker
  | .cas _ => (s.state = EMPTY ∨ s.state = NOTIFIED) ∧ s.lock = some .parker
  | .swap _ => s.state = NOTIFIED ∧ s.lock = some .parker
  | .wait _ => (s.state = PARKED ∨ s.state = NOTIFIED) ∧ s.lock = some .parker ∧
      (s.state = NOTIFIED → ∃ i, s.unparking i = .lock)
  | .waiting _ woken => (s.state = PARKED ∨ s.state = NOTIFIED) ∧ s.lock ≠ some .parker ∧
      (s.state = NOTIFIED → woken = false → ∃ i, (s.unparking i).Owes)
  | .check _ => (s.state = PARKED ∨ s.state = NOTIFIED) ∧ s.lock = some .parker
  | .unlock timeout res => (s.state = EMPTY ∨ s.state = NOTIFIED) ∧ s.lock = some .parker ∧
      (timeout = none → res = true)
  | .ret timeout res => (s.state = EMPTY ∨ s.state = NOTIFIED) ∧ s.lock ≠ some .parker ∧
      (timeout = none → res = true)
  | .panicked => False

/-- The invariant: the token is there as often as it was set and not taken. -/
structure Inv (s : Inner ι) : Prop where
  token : s.tokens = s.taken + if s.state = NOTIFIED then 1 else 0
  taken : s.taken = s.returned + s.parking.holds
  park : ParkOk s s.parking
  noPanic : ∀ i, s.unparking i ≠ .panicked
  unlock : ∀ i, s.unparking i = .unlock → s.lock = some (.unparker i)

theorem inv_new : Inv (Inner.new : Inner ι) := by
  constructor <;> simp [Inner.new, EMPTY, NOTIFIED, ParkPc.holds, ParkOk]

namespace Inv
variable {s s' : Inner ι}

/-! ### Steps of the parker -/

theorem parkCall (h : Inv s) {timeout : Option ℕ} (hs : s.park timeout = some s') : Inv s' := by
  have ht := h.token; have hk := h.taken; have hp := h.park
  unfold Inner.park at hs
  split at hs
  next hi =>
    rw [hi] at hk hp
    obtain ⟨hst, hl⟩ := hp
    split_ifs at hs with hn hz <;> cases hs
    · exact { h with
        token := by simpa [hn, EMPTY, NOTIFIED] using ht
        taken := by simpa [ParkPc.holds] using hk
        park := ⟨Or.inl rfl, hl, fun _ => rfl⟩ }
    · exact { h with taken := hk, park := ⟨hst, hl, by simp [hz]⟩ }
    · exact { h with taken := hk, park := ⟨hst, hl⟩ }
  next => cases hs

theorem parkStep (h : Inv s) (hs : s.parkStep = some s') : Inv s' := by
  have ht := h.token; have hk := h.taken; have hp := h.park
  unfold Inner.parkStep at hs
  split at hs
  next timeout hi =>
    rw [hi] at hk hp
    split_ifs at hs with hl; cases hs
    exact { h with
      taken := hk, park := ⟨hp.1, rfl⟩
      unlock := fun i hu => by have := h.unlock i hu; rw [hl] at this; cases this }
  next timeout hi =>
    rw [hi] at hk hp
    obtain ⟨hst, hl⟩ := hp
    split_ifs at hs with he hn <;> cases hs
    · exact { h with
        token := by simpa [he, EMPTY, NOTIFIED, PARKED] using ht
        taken := hk, park := ⟨Or.inl rfl, hl, by simp [PARKED, NOTIFIED]⟩ }
    · exact { h with taken := hk, park := ⟨hn, hl⟩ }
    · exact absurd hst (by simp [he, hn])
  next timeout hi =>
    rw [hi] at hk hp
    obtain ⟨hst, hl⟩ := hp
    split_ifs at hs; cases hs
    exact { h with
      token := by simpa [hst, EMPTY, NOTIFIED] using ht
      taken := by simpa [ParkPc.holds] using hk
      park := ⟨Or.inl rfl, hl, fun _ => rfl⟩ }
  next timeout hi =>
    -- waiting releases the lock; an unparker blocked on it still owes its `notify_one`
    rw [hi] at hk hp
    obtain ⟨hst, hl, hn⟩ := hp
    cases hs
    exact { h with
      taken := hk
      park := ⟨hst, by simp, fun h _ => (hn h).imp fun i hi => Or.inl hi⟩
      unlock := fun i hu => by have := h.unlock i hu; rw [hl] at this; cases this }
  next timeout hi =>
    rw [hi] at hk hp
    split_ifs at hs with hl; cases hs
    exact { h with
      taken := hk, park := ⟨hp.1, rfl⟩
      unlock := fun i hu => by have := h.unlock i hu; rw [hl] at this; cases this }
  next hi =>
    rw [hi] at hk hp
    obtain ⟨hst, hl⟩ := hp
    split_ifs at hs with hn <;> cases hs
    · exact { h with
        token := by simpa [hn, EMPTY, NOTIFIED] using ht
        taken := by simpa [ParkPc.holds] using hk
        park := ⟨Or.inl rfl, hl, fun _ => rfl⟩ }
    · exact { h with taken := hk, park := ⟨hst, hl, fun h => absurd h hn⟩ }
  next d hi =>
    rw [hi] at hk hp
    obtain ⟨hst, hl⟩ := hp
    split_ifs at hs with hn hd <;> cases hs
    · exact { h with
        token := by simpa [hn, EMPTY, NOTIFIED] using ht
        taken := by simpa [ParkPc.holds] using hk
        park := ⟨Or.inl rfl, hl, fun _ => rfl⟩ }
    · exact { h with
        token := by simpa [hd, EMPTY, NOTIFIED, PARKED] using ht
        taken := by simpa [ParkPc.holds] using hk
        park := ⟨Or.inl rfl, hl, by simp⟩ }
    · exact absurd hst (by simp [hd, hn])
  next timeout res hi =>
    rw [hi] at hk hp
    obtain ⟨hst, hl, hr⟩ := hp
    cases hs
    exact { h with
      taken := by cases res <;> simpa [ParkPc.holds] using hk
      park := ⟨hst, by simp, hr⟩
      unlock := fun i hu => by have := h.unlock i hu; rw [hl] at this; cases this }
  all_goals cases hs

theorem parkRet (h : Inv s) (hs : s.parkRet = some s') : Inv s' := by
  have hk := h.taken; have hp := h.park
  unfold Inner.parkRet at hs
  split at hs
  next hi =>
    rw [hi] at hk hp; cases hs
    exact { h with taken := by simpa [ParkPc.holds] using hk, park := ⟨hp.1, hp.2.1⟩ }
  next hi =>
    rw [hi] at hk hp; cases hs
    exact { h with taken := hk, park := ⟨hp.1, hp.2.1⟩ }
  next => cases hs

theorem wakeup (h : Inv s) (hs : s.wakeup = some s') : Inv s' := by
  have hk := h.taken; have hp := h.park
  unfold Inner.wakeup at hs
  split at hs
  next hi =>
    rw [hi] at hk hp; cases hs
    exact { h with taken := hk, park := ⟨hp.1, hp.2.1, by simp⟩ }
  next => cases hs

theorem state_cases (h : Inv s) : s.state = EMPTY ∨ s.state = PARKED ∨ s.state = NOTIFIED := by
  have hp := h.park
  cases hpc : s.parking <;> rw [hpc] at hp <;> simp only [ParkOk] at hp <;> tauto

/-! ### Steps of the unparkers -/

variable [DecidableEq ι]

/-- Other unparkers are where they were. -/
theorem owes_of_ne {i : ι} {p : UnparkPc} (hp : ¬ (s.unparking i).Owes ∨ p.Owes)
    (h : ∃ j, (s.unparking j).Owes) : ∃ j, ((s.setUnpark i p).unparking j).Owes := by
  obtain ⟨j, hj⟩ := h
  by_cases hij : j = i
  · subst hij
    exact ⟨j, by simpa [Inner.setUnpark] using hp.resolve_left (not_not.2 hj)⟩
  · exact ⟨j, by simpa [Inner.setUnpark, hij] using hj⟩

theorem noPanic_setUnpark (h : ∀ j, s.unparking j ≠ .panicked) (i : ι) {p : UnparkPc}
    (hp : p ≠ .panicked) (j : ι) : (s.setUnpark i p).unparking j ≠ .panicked := by
  by_cases hij : j = i
  · subst hij; simpa [Inner.setUnpark] using hp
  · simpa [Inner.setUnpark, hij] using h j

theorem unlock_setUnpark {i : ι} {p : UnparkPc}
    (h : ∀ j, j ≠ i → s.unparking j = .unlock → s.lock = some (.unparker j))
    (hp : p = .unlock → s.lock = some (.unparker i)) (j : ι)
    (hj : (s.setUnpark i p).unparking j = .unlock) : s.lock = some (.unparker j) := by
  by_cases hij : j = i
  · subst hij; exact hp (by simpa [Inner.setUnpark] using hj)
  · exact h j hij (by simpa [Inner.setUnpark, hij] using hj)

/-- A swap of `unpark` that leaves the parker where it is. -/
theorem swap (h : Inv s) {i : ι} (hi : s.unparking i = .idle) {p : UnparkPc} {n : ℕ}
    (hn : n = if s.state = NOTIFIED then 0 else 1) (hp : p ≠ .panicked ∧ p ≠ .unlock)
    (hl : s.state = PARKED → p = .lock) :
    Inv ({ s with state := NOTIFIED, tokens := s.tokens + n }.setUnpark i p) := by
  have ht := h.token; have hk := h.park
  have hne : ¬ (s.unparking i).Owes := by simp [hi, UnparkPc.Owes]
  refine { h with token := ?_, park := ?_, noPanic := ?_, unlock := ?_ }
  · simp only [Inner.setUnpark, if_true]; split_ifs at ht hn <;> omega
  · show ParkOk _ s.parking
    cases hpc : s.parking <;> rw [hpc] at hk <;> simp only [ParkOk] at hk ⊢
    case wait =>
      refine ⟨Or.inr rfl, hk.2.1, fun _ => ?_⟩
      rcases hk.1 with hst | hst
      · exact ⟨i, by simpa [Inner.setUnpark] using hl hst⟩
      · obtain ⟨j, hj⟩ := hk.2.2 hst
        have hij : j ≠ i := by rintro rfl; simp [hi] at hj
        exact ⟨j, by simpa [Inner.setUnpark, hij] using hj⟩
    case waiting =>
      refine ⟨Or.inr rfl, hk.2.1, fun _ hw => ?_⟩
      rcases hk.1 with hst | hst
      · exact ⟨i, by simp [Inner.setUnpark, hl hst, UnparkPc.Owes]⟩
      · exact owes_of_ne (Or.inl hne) (hk.2.2 hst hw)
    all_goals simp_all [Inner.setUnpark]
  · exact noPanic_setUnpark h.noPanic i hp.1
  · exact unlock_setUnpark (fun j _ => h.unlock j) fun he => absurd he hp.2

theorem unparkCall (h : Inv s) {i : ι} (hs : s.unpark i = some s') : Inv s' := by
  unfold Inner.unpark at hs
  split at hs
  next hi =>
    dsimp only at hs
    split_ifs at hs with he hn hp <;> cases hs
    · exact h.swap hi (by simp [he, EMPTY, NOTIFIED]) (by simp) (by simp [he, EMPTY, PARKED])
    · exact h.swap (n := 0) hi (by simp [hn]) (by simp) (by simp [hn, NOTIFIED, PARKED])
    · exact h.swap hi (by simp [hp, PARKED, NOTIFIED]) (by simp) (fun _ => rfl)
    · rcases h.state_cases with h | h | h <;> contradiction
  next => cases hs

theorem unparkStep (h : Inv s) {i : ι} (hs : s.unparkStep i = some s') : Inv s' := by
  have hk := h.park
  unfold Inner.unparkStep at hs
  split at hs
  next hi =>
    -- taking the lock: the parker does not hold it
    split_ifs at hs with hl; cases hs
    refine { h with park := ?_, noPanic := ?_, unlock := ?_ }
    · show ParkOk _ s.parking
      cases hpc : s.parking <;> rw [hpc] at hk <;> simp only [ParkOk, hl] at hk ⊢
      case waiting =>
        exact ⟨hk.1, by simp [Inner.setUnpark], fun hn hw =>
          owes_of_ne (s := { s with lock := some (.unparker i) }) (Or.inr (Or.inr (Or.inl rfl)))
            (hk.2.2 hn hw)⟩
      all_goals simp_all [Inner.setUnpark]
    · exact noPanic_setUnpark h.noPanic i nofun
    · refine unlock_setUnpark (fun j _ hj => ?_) fun _ => rfl
      have := h.unlock j hj
      rw [hl] at this; cases this
  next hi =>
    have hl := h.unlock i hi
    cases hs
    refine { h with park := ?_, noPanic := ?_, unlock := ?_ }
    · show ParkOk _ s.parking
      cases hpc : s.parking <;> rw [hpc] at hk <;> simp only [ParkOk, hl] at hk ⊢
      case waiting =>
        exact ⟨hk.1, by simp [Inner.setUnpark], fun hn hw =>
          owes_of_ne (s := { s with lock := none }) (Or.inr (Or.inr (Or.inr rfl)))
            (hk.2.2 hn hw)⟩
      all_goals simp_all [Inner.setUnpark]
    · exact noPanic_setUnpark h.noPanic i nofun
    · refine unlock_setUnpark (fun j hij hj => ?_) nofun
      have := h.unlock j hj
      rw [hl] at this; cases this; exact absurd rfl hij
  next hi =>
    cases hs
    refine { h with taken := ?_, park := ?_, noPanic := ?_, unlock := ?_ }
    · have := h.taken
      cases hpc : s.parking <;> rw [hpc] at this <;> simpa [Inner.setUnpark, Inner.notifyOne, hpc]
    · show ParkOk _ (Inner.notifyOne s.parking)
      cases hpc : s.parking <;> rw [hpc] at hk <;> simp only [ParkOk, Inner.notifyOne] at hk ⊢
      case wait =>
        refine ⟨hk.1, hk.2.1, fun hn => ?_⟩
        obtain ⟨j, hj⟩ := hk.2.2 hn
        have hij : j ≠ i := by rintro rfl; simp [hi] at hj
        exact ⟨j, by simpa [Inner.setUnpark, hij] using hj⟩
      case waiting => exact ⟨hk.1, hk.2.1, by simp⟩
      all_goals exact hk
    · exact noPanic_setUnpark h.noPanic i nofun
    · exact unlock_setUnpark (fun j _ => h.unlock j) nofun
  all_goals cases hs

theorem unparkRet (h : Inv s) {i : ι} (hs : s.unparkRet i = some s') : Inv s' := by
  have hk := h.park
  unfold Inner.unparkRet at hs
  split at hs
  next res hi =>
    cases hs
    have hne : ¬ (s.unparking i).Owes := by simp [hi, UnparkPc.Owes]
    refine { h with
      park := ?_, noPanic := noPanic_setUnpark h.noPanic i nofun
      unlock := unlock_setUnpark (fun j _ => h.unlock j) nofun }
    show ParkOk _ s.parking
    cases hpc : s.parking <;> rw [hpc] at hk <;> simp only [ParkOk] at hk ⊢
    case wait =>
      refine ⟨hk.1, hk.2.1, fun hn => ?_⟩
      obtain ⟨j, hj⟩ := hk.2.2 hn
      have hij : j ≠ i := by rintro rfl; simp [hi] at hj
      exact ⟨j, by simpa [Inner.setUnpark, hij] using hj⟩
    case waiting =>
      exact ⟨hk.1, hk.2.1, fun hn hw => owes_of_ne (Or.inl hne) (hk.2.2 hn hw)⟩
    all_goals exact hk
  next => cases hs

theorem step (h : Inv s) {a : Act ι} (hs : step s a = some s') : Inv s' := by
  cases a with
  | park timeout => exact h.parkCall hs
  | parkStep => exact h.parkStep hs
  | parkRet => exact h.parkRet hs
  | wakeup => exact h.wakeup hs
  | unpark i => exact h.unparkCall hs
  | unparkStep i => exact h.unparkStep hs
  | unparkRet i => exact h.unparkRet hs

end Inv

theorem inv_reachable [DecidableEq ι] {s : Inner ι} (h : system.Reachable s) : Inv s :=
  h.inv (fun _ hs => hs ▸ inv_new) fun _ _ _ _ hi _ hs => hi.step hs

/-- **Token semantics** of `Parker` and `Unparker`, for one parker and any
    number of unparkers. -/
theorem token_semantics [DecidableEq ι] {s : Inner ι} (h : system.Reachable s) :
    -- the tokens granted and not taken: the parks that took one return `true`
    (s.tokens : ℤ) - s.taken = (if s.state = NOTIFIED then 1 else 0) ∧
    s.taken = s.returned + s.parking.holds ∧
    -- `park` without timeout returns with a token
    (∀ res, s.parking = .ret none res → res = true) ∧
    -- no lost notification
    (∀ timeout, s.parking = .waiting timeout false → s.state = NOTIFIED →
      ∃ i, (s.unparking i).Owes) ∧
    -- no panic
    s.parking ≠ .panicked ∧ ∀ i, s.unparking i ≠ .panicked := by
  have hi := inv_reachable h
  have hp := hi.park
  refine ⟨?_, hi.taken, fun res he => ?_, fun timeout he hn => ?_, fun he => ?_, hi.noPanic⟩
  · rw [hi.token]; push_cast; omega
  · rw [he] at hp; exact hp.2.2 rfl
  · rw [he] at hp; exact hp.2.2 hn rfl
  · rw [he] at hp; exact hp

/-- A token granted between setting `PARKED` and the wait. -/
def notifyBeforeWait : List (Act (Fin 1)) :=
  [.park none, .parkStep, .parkStep, .unpark 0, .parkStep]

/-- The unparker, blocked on the mutex, still has to notify the waiting parker. -/
theorem token_semantics_notified : ∃ s : Inner (Fin 1),
    system.run Inner.new notifyBeforeWait = some s ∧ s.state = NOTIFIED ∧
      s.parking = .waiting none false ∧ ∃ i, (s.unparking i).Owes :=
  ⟨_, rfl, rfl, rfl, (token_semantics (.run (.init rfl)
    (Lts.meets_true _ notifyBeforeWait) rfl)).2.2.2.1 none rfl rfl⟩

end Awak.Parking
