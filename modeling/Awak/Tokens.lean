/-
  What becomes of a token in `block_on` of `blocking.rs`.

  A call of a waker leaves a token in the parker of its `block_on`.  The thread takes it in
  `park`, at one of the places where it looks for one, and from there it leaves its loops and
  polls its future.  Nothing else takes the token.

  * `Heads`, `Told`: a `block_on` with a token, or on its way to the next poll after it took one;
  * `step_cases`: what a step of the others, or its own, is to a thread;
  * `Told.step`: only the end of a poll changes this;
  * `Told.not_stuck`: such a thread is not blocked for good.
-/
import Awak.BlockOn

namespace Awak.BlockOn

variable {ι : Type} {s s' : State ι} {i k : ι}

/-- The places from which a thread polls its future before it looks for a token again, with the
    state of its parker. -/
def Heads : Pc → Parking.ParkPc → Prop
  | .poll, _ | .try1, _ | .setPolling0, _ | .react .zero _, _ | .unpoll0, _ | .unlock0, _ => True
  | .unpoll .leave, _ | .unpoll .left, _ | .unblock .leave, _ | .unblock .left, _ => True
  | .unlock, _ => True
  | .check _, .ret _ true => True
  | .park _, .unlock .. | .park _, .ret .. => True
  | _, _ => False

/-- The `block_on` of `i` has a token, or has taken one and not polled since. -/
def Told (s : State ι) (i : ι) : Prop :=
  (s.parker i).state = Parking.NOTIFIED ∨ Heads (s.pc i) (s.parker i).parking

/-- A step of others, or of the kernel, as thread `i` sees it. -/
structure Still (i : ι) (s s' : State ι) : Prop where
  pc : s'.pc i = s.pc i
  state : (s'.parker i).state = (s.parker i).state ∨ (s'.parker i).state = Parking.NOTIFIED
  parking : (s'.parker i).parking = (s.parker i).parking ∨
    ∃ t woken, (s.parker i).parking = .waiting t woken

/-- A thread that waits on the condition variable has not taken a token. -/
theorem not_heads_waiting {p : Pc} {t : Option ℕ} {woken : Bool}
    (hp : Parked p (.waiting t woken)) : ¬ Heads p (.waiting t woken) := by
  intro hh
  cases p <;> simp [Parked, Heads] at hp hh

theorem Told.still (h : Told s i) (hinv : Inv s) (hs : Still i s s') : Told s' i := by
  rcases h with hn | hh
  · left
    rcases hs.state with he | he
    · rw [he, hn]
    · exact he
  · right
    rw [hs.pc]
    rcases hs.parking with he | ⟨t, woken, he⟩
    · rw [he]
      exact hh
    · have hp := hinv.parked i
      rw [he] at hp hh
      exact absurd hh (not_heads_waiting hp)

/-- A move of a thread outside `next` and the polls: its parker is as before. -/
structure Strides (i : ι) (s s' : State ι) : Prop where
  parker : s'.parker i = s.parker i
  heads : ∀ q, Heads (s.pc i) q → Heads (s'.pc i) q
  pc : s.pc i ≠ .poll

section Steps
variable [DecidableEq ι]

/-- Another thread moves to `p`, with its parker as before or changed. -/
theorem Still.moved {p : Pc} (hik : i ≠ k) (hpc : s'.pc = Function.update s.pc k p)
    (hparker : s'.parker = s.parker ∨ ∃ q, s'.parker = Function.update s.parker k q) :
    Still i s s' := by
  have hsame : s'.parker i = s.parker i := by
    rcases hparker with he | ⟨q, he⟩ <;> rw [he]
    exact Function.update_of_ne hik _ _
  exact ⟨by rw [hpc, Function.update_of_ne hik], Or.inl (by rw [hsame]), Or.inl (by rw [hsame])⟩

omit [DecidableEq ι] in
/-- Nothing that thread `i` sees is changed. -/
theorem Still.of_eq (hpc : s'.pc = s.pc) (hparker : s'.parker = s.parker) : Still i s s' where
  pc := by rw [hpc]
  state := Or.inl (by rw [hparker])
  parking := Or.inl (by rw [hparker])

/-- The parker of `k` is changed by others. -/
theorem Still.parker {q : Parking.Inner ι} (hpc : s'.pc = s.pc)
    (hparker : s'.parker = Function.update s.parker k q)
    (hstate : q.state = (s.parker k).state ∨ q.state = Parking.NOTIFIED)
    (hparking : q.parking = (s.parker k).parking ∨
      ∃ t woken, (s.parker k).parking = .waiting t woken) :
    Still i s s' := by
  by_cases hik : i = k
  · subst hik
    exact ⟨by rw [hpc], by simpa [hparker] using hstate, by simpa [hparker] using hparking⟩
  · exact ⟨by rw [hpc], Or.inl (by simp [hparker, hik]), Or.inl (by simp [hparker, hik])⟩

theorem tryLock_still (hik : i ≠ k) (ok fail : Pc) : Still i s (s.tryLock k ok fail) := by
  unfold State.tryLock
  split_ifs
  · exact .moved hik rfl (Or.inl rfl)
  · exact .moved hik rfl (Or.inl rfl)

/-- A step of another thread in its own `block_on`. -/
theorem next_still (hik : i ≠ k) (hs : s.next k = some s') : Still i s s' := by
  unfold State.next at hs
  split at hs
  · obtain ⟨q, -, rfl⟩ := Option.map_eq_some_iff.1 hs
    exact .moved hik rfl (Or.inr ⟨q, rfl⟩)
  · split at hs
    · obtain ⟨q, -, rfl⟩ := Option.map_eq_some_iff.1 hs
      exact .moved hik rfl (Or.inr ⟨q, rfl⟩)
    · cases hs
  · cases hs; exact tryLock_still hik _ _
  · cases hs; exact .moved hik rfl (Or.inl rfl)
  · cases hs; exact .moved hik rfl (Or.inl rfl)
  · cases hs; exact .moved hik rfl (Or.inl rfl)
  · cases hs; exact tryLock_still hik _ _
  · cases hs; exact .moved hik rfl (Or.inl rfl)
  · cases hs; exact .moved hik rfl (Or.inl rfl)
  · cases hs; exact .moved hik rfl (Or.inl rfl)
  · cases hs; exact .moved hik rfl (Or.inl rfl)
  · obtain ⟨q, -, rfl⟩ := Option.map_eq_some_iff.1 hs
    exact .moved hik rfl (Or.inr ⟨q, rfl⟩)
  · split at hs
    · obtain ⟨q, -, rfl⟩ := Option.map_eq_some_iff.1 hs
      exact .moved hik rfl (Or.inr ⟨q, rfl⟩)
    · obtain ⟨q, -, rfl⟩ := Option.map_eq_some_iff.1 hs
      exact ⟨rfl, Or.inl (by simp [State.setParker, hik]), Or.inl (by simp [State.setParker, hik])⟩
  · cases hs; exact .moved hik rfl (Or.inl rfl)
  · cases hs; exact .moved hik rfl (Or.inl rfl)
  · cases hs; exact .moved hik rfl (Or.inl rfl)
  · split at hs
    · obtain ⟨p, -, rfl⟩ := Option.map_eq_some_iff.1 hs
      exact .moved hik rfl (Or.inl rfl)
    · obtain ⟨p, -, rfl⟩ := Option.map_eq_some_iff.1 hs
      exact .of_eq rfl rfl
  all_goals cases hs

/-- `unpark` leaves a token. -/
theorem unpark_state {q q' : Parking.Inner ι} (hs : q.unpark k = some q') :
    q'.state = Parking.NOTIFIED ∧ q'.parking = q.parking := by
  unfold Parking.Inner.unpark at hs
  split at hs
  · dsimp only at hs
    split_ifs at hs <;> cases hs <;> exact ⟨rfl, rfl⟩
  · cases hs

/-- A step of a waker call. -/
theorem wake_still (hs : s.wake k = some s') : Still i s s' := by
  unfold State.wake at hs
  split at hs
  · cases hs
  next j _ =>
    split at hs
    · obtain ⟨q, hq, rfl⟩ := Option.map_eq_some_iff.1 hs
      obtain ⟨hstate, hparking, -⟩ := Parking.Inner.unparkRet_frame hq
      exact .parker rfl rfl (Or.inl hstate) (Or.inl hparking)
    · obtain ⟨q, hq, rfl⟩ := Option.map_eq_some_iff.1 hs
      obtain ⟨-, hstate, hparking, -⟩ := Parking.Inner.unparkStep_frame hq
      exact .parker rfl rfl (Or.inl hstate) hparking
  · cases hs; exact .of_eq rfl rfl
  · obtain ⟨p, -, rfl⟩ := Option.map_eq_some_iff.1 hs
    exact .of_eq rfl rfl
  · split at hs
    · obtain ⟨p, -, rfl⟩ := Option.map_eq_some_iff.1 hs
      exact .of_eq rfl rfl
    · obtain ⟨p, -, rfl⟩ := Option.map_eq_some_iff.1 hs
      exact .of_eq rfl rfl

/-- What a step can be to thread `i`, but for the end of a poll. -/
theorem step_cases {a : Act ι} (ha : ∀ ready, a ≠ .polled i ready) (hs : step s a = some s') :
    Still i s s' ∨ (s.waking i = .idle ∧ s.next i = some s') ∨
      (Strides i s s' ∧ (s.pc i = .out → a = .enter i ∨ a = .react i)) := by
  have moves : ∀ {j : ι} {u : State ι} {p q : Pc}, s.pc j = q → u.pc = s.pc →
      u.parker = s.parker → q ≠ .poll → (∀ x, Heads q x → Heads p x) →
      (i = j → q = .out → a = .enter i ∨ a = .react i) →
      Still i s (u.goto j p) ∨ (s.waking i = .idle ∧ s.next i = some (u.goto j p)) ∨
        (Strides i s (u.goto j p) ∧ (s.pc i = .out → a = .enter i ∨ a = .react i)) := by
    intro j u p q hq hpc hparker hpoll hheads hout
    by_cases hij : i = j
    · subst hij
      have hsame : (u.goto i p).parker i = s.parker i := by
        rw [← hparker]
        rfl
      refine Or.inr (Or.inr ⟨⟨hsame, ?_, by rw [hq]; exact hpoll⟩, ?_⟩)
      · rw [hq]
        simpa [State.goto] using hheads
      · rw [hq]
        exact hout rfl
    · exact Or.inl (.moved hij (by rw [← hpc]; rfl) (Or.inl hparker))
  cases a with
  | enter j =>
    simp only [step, Option.ite_none_right_eq_some, Option.some.injEq] at hs
    obtain ⟨⟨hpc, -⟩, rfl⟩ := hs
    exact moves hpc rfl rfl (by simp) (by simp [Heads]) fun hij _ => Or.inl (by rw [hij])
  | polled j ready =>
    simp only [step, Option.ite_none_right_eq_some, Option.some.injEq] at hs
    obtain ⟨-, rfl⟩ := hs
    have hij : i ≠ j := by
      rintro rfl
      exact ha ready rfl
    exact Or.inl (.moved hij rfl (Or.inl rfl))
  | next j =>
    simp only [step, Option.ite_none_right_eq_some] at hs
    by_cases hij : i = j
    · subst hij
      exact Or.inr (Or.inl hs)
    · exact Or.inl (next_still hij hs.2)
  | elapsed j long =>
    simp only [step, Option.ite_none_right_eq_some, Option.some.injEq] at hs
    obtain ⟨hpc, rfl⟩ := hs
    exact moves hpc rfl rfl (by simp) (by simp [Heads]) (by simp)
  | react j =>
    simp only [step, Option.ite_none_right_eq_some, Option.some.injEq] at hs
    obtain ⟨⟨hpc, -, -⟩, rfl⟩ := hs
    exact moves hpc rfl rfl (by simp) (by simp [Heads]) fun hij _ => Or.inr (by rw [hij])
  | wait j timeout =>
    simp only [step] at hs
    split at hs
    next x hpc =>
      split_ifs at hs
      obtain ⟨p, -, rfl⟩ := Option.map_eq_some_iff.1 hs
      refine moves hpc rfl rfl (by simp) ?_ (by simp)
      cases x <;> simp [Heads]
    next => cases hs
  | epollReturn j report empty =>
    simp only [step] at hs
    split at hs
    · obtain ⟨p, -, rfl⟩ := Option.map_eq_some_iff.1 hs
      exact Or.inl (.of_eq rfl rfl)
    · cases hs
  | interrupt j =>
    simp only [step] at hs
    split at hs
    · obtain ⟨p, -, rfl⟩ := Option.map_eq_some_iff.1 hs
      exact Or.inl (.of_eq rfl rfl)
    · cases hs
  | woken j =>
    simp only [step] at hs
    split_ifs at hs
    split at hs <;> cases hs <;> rename_i hpc <;>
      exact moves hpc rfl rfl (by simp) (by simp [Heads]) (by simp)
  | wakeup j =>
    obtain ⟨q, hq, rfl⟩ := Option.map_eq_some_iff.1 hs
    obtain ⟨-, hstate, t, ht, -⟩ := Parking.Inner.wakeup_frame hq
    exact Or.inl (.parker rfl rfl (Or.inl hstate) (Or.inr ⟨t, false, ht⟩))
  | call j target =>
    simp only [step, Option.ite_none_right_eq_some] at hs
    obtain ⟨q, hq, rfl⟩ := Option.map_eq_some_iff.1 hs.2
    obtain ⟨hstate, hparking⟩ := unpark_state hq
    exact Or.inl (.parker rfl rfl (Or.inr hstate) (Or.inl hparking))
  | notify j =>
    simp only [step, Option.ite_none_right_eq_some, Option.some.injEq] at hs
    obtain ⟨-, rfl⟩ := hs
    exact Or.inl (.of_eq rfl rfl)
  | wake j => exact Or.inl (wake_still hs)

omit [DecidableEq ι] in
/-- A token is taken at once. -/
theorem park_notified {q q' : Parking.Inner ι} {timeout : Option ℕ} (hi : q.parking = .idle)
    (hn : q.state = Parking.NOTIFIED) (hs : q.park timeout = some q') :
    q'.parking = .ret timeout true := by
  unfold Parking.Inner.park at hs
  rw [hi] at hs
  dsimp only at hs
  rw [if_pos hn] at hs
  cases hs
  rfl

omit [DecidableEq ι] in
/-- Inside `park`, a token stays there or is taken. -/
theorem parkStep_told {q q' : Parking.Inner ι} {c : ParkSite}
    (h : q.state = Parking.NOTIFIED ∨ Heads (.park c) q.parking) (hs : q.parkStep = some q') :
    q'.state = Parking.NOTIFIED ∨ Heads (.park c) q'.parking := by
  unfold Parking.Inner.parkStep at hs
  split at hs <;> rename_i hp <;> rw [hp] at h <;> (try split_ifs at hs) <;> cases hs <;>
    simp_all [Heads, Parking.EMPTY, Parking.PARKED, Parking.NOTIFIED]

/-- In its own `block_on`, a thread does not lose a token. -/
theorem Told.next (h : Told s i) (hinv : Inv s) (hs : s.next i = some s') : Told s' i := by
  have hparked := hinv.parked i
  unfold Told at h
  unfold State.next at hs
  split at hs <;> rename_i hpc <;> rw [hpc] at h hparked
  case h_1 c =>
    obtain ⟨q, hq, rfl⟩ := Option.map_eq_some_iff.1 hs
    have hret := park_notified hparked (h.resolve_right (by simp [Heads])) hq
    right
    simp [State.goto, State.setParker, Heads, hret]
  case h_2 c =>
    split at hs
    next res hr =>
      obtain ⟨q, hq, rfl⟩ := Option.map_eq_some_iff.1 hs
      obtain ⟨-, hstate, hparking⟩ := Parking.Inner.parkRet_frame hq
      rw [hr] at h
      rcases h with hn | hh
      · left
        simpa [State.goto, State.setParker, hstate] using hn
      · right
        cases res
        · cases hh
        · cases c <;> simp [State.goto, State.setParker, Heads, State.answer]
    next => cases hs
  case h_12 k =>
    obtain ⟨q, hq, rfl⟩ := Option.map_eq_some_iff.1 hs
    have hret := park_notified hparked (h.resolve_right (by simp [Heads])) hq
    right
    simp [State.goto, State.setParker, Heads, hret]
  case h_13 k =>
    split at hs
    next hr =>
      obtain ⟨q, hq, rfl⟩ := Option.map_eq_some_iff.1 hs
      right
      cases k <;> simp [State.goto, Heads]
    next =>
      obtain ⟨q, hq, rfl⟩ := Option.map_eq_some_iff.1 hs
      have htold := parkStep_told h hq
      unfold Told
      simpa [State.setParker, hpc] using htold
  case h_3 | h_7 =>
    cases hs
    unfold State.tryLock Told
    split_ifs <;> simp_all [State.goto, Heads]
  case h_14 e | h_15 e =>
    cases hs
    unfold Told
    cases e <;> simp_all [State.goto, State.setPolling, State.setBlocked, Heads]
  case h_17 x =>
    unfold Told
    split at hs
    · obtain ⟨p, -, rfl⟩ := Option.map_eq_some_iff.1 hs
      cases x <;> simp_all [State.goto, Heads]
    · obtain ⟨p, -, rfl⟩ := Option.map_eq_some_iff.1 hs
      rw [hpc]
      exact h
  case h_18 | h_19 | h_20 | h_21 | h_22 | h_23 => cases hs
  all_goals
    cases hs
    unfold Told
    simp_all [State.goto, State.setPolling, State.setBlocked, Heads]

/-- Only a poll uses a token up. -/
theorem Told.step (h : Told s i) (hinv : Inv s) {a : Act ι} (ha : ∀ ready, a ≠ .polled i ready)
    (hs : step s a = some s') : Told s' i := by
  rcases step_cases ha hs with hstill | ⟨-, hnext⟩ | ⟨hstrides, -⟩
  · exact h.still hinv hstill
  · exact h.next hinv hnext
  · unfold Told
    rw [hstrides.parker]
    exact h.imp_right (hstrides.heads _)

/-- While it polls, a thread keeps its token. -/
theorem polling_step (hp : s.pc i = .poll) {a : Act ι} (ha : ∀ ready, a ≠ .polled i ready)
    (hs : step s a = some s') : s'.pc i = .poll ∧
      ((s.parker i).state = Parking.NOTIFIED → (s'.parker i).state = Parking.NOTIFIED) := by
  rcases step_cases ha hs with hstill | ⟨-, hnext⟩ | ⟨hstrides, -⟩
  · refine ⟨hstill.pc.trans hp, fun hn => ?_⟩
    rcases hstill.state with he | he
    · rw [he, hn]
    · exact he
  · simp [State.next, hp] at hnext
  · exact absurd hp hstrides.pc

/-- Only `block_on` and the reactor thread begin. -/
theorem out_step (hp : s.pc i = .out) {a : Act ι} (ha : a ≠ .enter i ∧ a ≠ .react i)
    (hs : step s a = some s') : s'.pc i = .out := by
  have hpolled : ∀ ready, a ≠ .polled i ready := by
    rintro ready rfl
    simp [step, hp] at hs
  rcases step_cases hpolled hs with hstill | ⟨-, hnext⟩ | ⟨-, hout⟩
  · rw [hstill.pc, hp]
  · simp [State.next, hp] at hnext
  · rcases hout hp with he | he
    · exact absurd he ha.1
    · exact absurd he ha.2

end Steps

/-- The thread stays blocked, whatever the others have begun to do. -/
def Stuck (s : State ι) (i : ι) : Prop := Blocked s i ∧ ¬ Unblocking s i

theorem Told.not_stuck (h : Told s i) (hinv : Inv s) : ¬ Stuck s i := by
  rintro ⟨hb, hu⟩
  rcases h with hn | hh
  · exact hu (hinv.unblocking hb hn)
  · rcases hb with ⟨hpc, -⟩ | ⟨c, t, woken, hpc, ht⟩
    · rw [hpc] at hh
      cases hh
    · rw [hpc, ht] at hh
      cases hh

end Awak.BlockOn
