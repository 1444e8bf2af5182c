/-
  Tickers that are dropped: the protocol of the sleepers (`Wake`), where the `run()`
  future of a ticker may be dropped together with its `Ticker` at any await point.

  `Ticker` has no destructor, so a drop leaves the sleepers as they are.  `Accounted`
  says that the sleepers know of live tickers only:

  * `cancel_accounted`: this holds while only tickers that are awake are dropped, and
    the drop of a sleeping ticker always breaks it;
  * `cancel_silences`: after a notified ticker is dropped, another ticker falls asleep
    and every later call of `State::notify` is suppressed.
-/
import Awak.Sleepers

namespace Awak

variable {ι κ : Type}

/-- The sleepers and the tickers that have not been dropped. -/
structure Cancel (ι κ : Type) where
  wake : Wake ι κ
  alive : ι → Bool

namespace Cancel

/-- No ticker has been dropped. -/
def new : Cancel ι κ := ⟨.new, fun _ => true⟩

/-- A move of the tickers and the callers, or the drop of a ticker. -/
inductive Act (ι κ : Type) where
  | wake (a : Wake.Act ι κ)
  | drop (i : ι)

/-- The ticker that makes a move; its waker may be called after it was dropped. -/
def ticker : Wake.Act ι κ → Option ι
  | .poll i | .sleep i | .swap i | .wakeLock i => some i
  | .notify _ | .wakeup _ => none

section Steps
variable [DecidableEq ι] [DecidableEq κ]

/-- There is no await point between the two steps of `Ticker::wake`. -/
def step (s : Cancel ι κ) : Act ι κ → Option (Cancel ι κ)
  | .wake a =>
    if ∀ i ∈ ticker a, s.alive i = true then (s.wake.step a).map fun w => { s with wake := w }
    else none
  | .drop i =>
    if s.alive i = true ∧ s.wake.waking i = 0 then
      some { s with alive := Function.update s.alive i false }
    else none

/-- Tickers that may be dropped at any moment. -/
def system : Lts (Cancel ι κ) (Act ι κ) where
  init s := s = new
  step := step

end Steps

/-- The sleepers account for live tickers only. -/
structure Accounted (s : Cancel ι κ) : Prop where
  count : (s.wake.sleepers.count : ℕ∞) = {i | s.alive i = true ∧ s.wake.held i ≠ 0}.encard
  wakers : ∀ id ∈ s.wake.sleepers.ids, ∃ i, s.alive i = true ∧ s.wake.held i = id
  /-- a counted id that is not in `wakers`: its ticker is in the middle of `wake`, or was
      notified and will search -/
  missing : ∀ id ∈ s.wake.live, id ∉ s.wake.sleepers.ids → ∃ i, s.alive i = true ∧
    s.wake.held i = id ∧
      (s.wake.waking i = id ∨ ¬ s.wake.Asleep i ∨ ∃ k, s.wake.calls k = .wake i)
  /-- a call of `State::notify` is suppressed on behalf of a live ticker, or of another call
      that is about to notify one, or because no ticker sleeps -/
  suppressed : s.wake.notified = true → (∃ k, s.wake.calls k = .lock) ∨
    (∀ i, s.alive i = true → s.wake.held i = 0) ∨
      ∃ i, s.alive i = true ∧ s.wake.held i ≠ 0 ∧ s.wake.held i ∉ s.wake.sleepers.ids

/-- Only tickers that are awake are dropped. -/
def DropsAwake (s : Cancel ι κ) : Act ι κ → Prop
  | .wake _ => True
  | .drop i => s.wake.sleeping i = 0

instance (s : Cancel ι κ) : ∀ a, Decidable (s.DropsAwake a)
  | .wake _ => isTrue trivial
  | .drop i => inferInstanceAs (Decidable (s.wake.sleeping i = 0))

/-- A dropped ticker has left nothing behind. -/
def Clean (s : Cancel ι κ) : Prop := ∀ i, s.alive i = false → s.wake.held i = 0

theorem Clean.alive {s : Cancel ι κ} (h : s.Clean) {i : ι} (hi : s.wake.held i ≠ 0) :
    s.alive i = true := by
  by_contra hne
  exact hi (h i (Bool.eq_false_iff.2 hne))

/-- The tickers with an id are as many as the ids. -/
theorem encard_held {w : Wake ι κ} (h : w.Inv) :
    {i | w.held i ≠ 0}.encard = (w.sleepers.count : ℕ∞) := by
  have hinj : Set.InjOn w.held {i | w.held i ≠ 0} := fun i hi j _ hij => h.inj i j hi hij
  have himage : w.held '' {i | w.held i ≠ 0} = ((↑) : Finset ℕ → Set ℕ) w.live.toFinset := by
    ext id
    simp only [Set.mem_image, Set.mem_ofPred_eq, Finset.mem_coe, List.mem_toFinset]
    constructor
    · rintro ⟨i, hi, rfl⟩
      exact h.mem i hi
    · intro hid
      obtain ⟨i, hi⟩ := h.owner id hid
      exact ⟨i, by rw [hi]; exact (h.gen id hid).1.ne', hi⟩
  rw [← hinj.encard_image, himage, Set.encard_coe_eq_coe_finsetCard,
    List.toFinset_card_of_nodup h.nodup, h.count]

theorem accounted_of_clean {s : Cancel ι κ} (h : s.wake.Inv) (hc : s.Clean) : s.Accounted where
  count := by
    rw [← encard_held h]
    congr 1
    ext i
    exact ⟨fun hi => ⟨hc.alive hi, hi⟩, fun hi => hi.2⟩
  wakers id hid := by
    obtain ⟨e, he, rfl⟩ := List.mem_map.1 hid
    obtain ⟨hlive, hheld⟩ := h.waker e he
    have hne : s.wake.held e.2 ≠ 0 := by
      rw [hheld]; exact (h.gen _ hlive).1.ne'
    exact ⟨e.2, hc.alive hne, hheld⟩
  missing id hid hout := by
    obtain ⟨i, hi⟩ := h.owner id hid
    have hne : s.wake.held i ≠ 0 := by
      rw [hi]; exact (h.gen _ hid).1.ne'
    refine ⟨i, hc.alive hne, hi, ?_⟩
    by_cases ha : s.wake.Asleep i
    · -- an unnotified sleeper would be in the list
      have hs := h.slept i ha.1
      refine Or.inr (Or.inr ((h.told i ha).resolve_left fun hin => hout ?_))
      rw [← hi, h.held_sleeping hs]; exact hin
    · exact Or.inr (Or.inl ha)
  suppressed hn := by
    rcases h.notified hn with hn | hk
    · right
      unfold Sleepers.isNotified at hn
      rw [Bool.or_eq_true, beq_iff_eq, decide_eq_true_eq] at hn
      rcases hn with hz | hlt
      · left
        intro i _
        by_contra hne
        have := h.mem i hne
        rw [List.length_eq_zero_iff.1 (h.count.trans hz)] at this
        cases this
      · right
        obtain ⟨id, hid, hout⟩ := h.exists_missing hlt
        obtain ⟨i, hi⟩ := h.owner id hid
        have hne : s.wake.held i ≠ 0 := by
          rw [hi]; exact (h.gen _ hid).1.ne'
        exact ⟨i, hc.alive hne, hne, by rw [hi]; exact hout⟩
    · exact Or.inl hk

section Runs
variable [DecidableEq ι] [DecidableEq κ] {s s' : Cancel ι κ}

/-- Dropping tickers is invisible to the sleepers. -/
theorem wake_reach {C : Cancel ι κ → Act ι κ → Prop} (h : system.Reach C s) :
    (Wake.system : Lts (Wake ι κ) (Wake.Act ι κ)).Reachable s.wake := by
  refine h.map (f := Cancel.wake) ?_ ?_
  · rintro _ rfl
    rfl
  · intro s a s' _ _ hs
    cases a with
    | wake a =>
      right
      obtain ⟨-, hs⟩ := Option.ite_none_right_eq_some.1 hs
      obtain ⟨w, hw, rfl⟩ := Option.map_eq_some_iff.1 hs
      exact ⟨a, trivial, hw⟩
    | drop i =>
      left
      obtain ⟨-, hs⟩ := Option.ite_none_right_eq_some.1 hs
      cases hs
      rfl

theorem Clean.step (h : s.Clean) {a : Act ι κ} (ha : s.DropsAwake a)
    (hs : Cancel.step s a = some s') : s'.Clean := by
  intro i hi
  cases a with
  | wake a =>
    obtain ⟨hm, hs⟩ := Option.ite_none_right_eq_some.1 hs
    obtain ⟨w, hw, rfl⟩ := Option.map_eq_some_iff.1 hs
    refine Wake.held_of_step hw ?_ (h i hi)
    rintro rfl
    have halive : s.alive i = true := hm i rfl
    exact absurd (hi.symm.trans halive) (by decide)
  | drop j =>
    obtain ⟨⟨-, hw⟩, hs⟩ := Option.ite_none_right_eq_some.1 hs
    cases hs
    by_cases hij : i = j
    · subst hij
      have hz : s.wake.sleeping i = 0 := ha
      show s.wake.sleeping i + s.wake.waking i = 0
      omega
    · exact h i (by simpa [hij] using hi)

theorem clean_reach (h : system.Reach DropsAwake s) : s.Clean := by
  refine h.inv (P := Clean) ?_ ?_
  · rintro _ rfl i hi
    cases hi
  · intro s a s' _ hc ha hs
    exact hc.step ha hs

/-- The drop of a sleeping ticker leaves its id behind. -/
theorem not_accounted_drop {i : ι} (h : s.wake.Inv) (hs : step s (.drop i) = some s')
    (hi : s.wake.sleeping i ≠ 0) : ¬ s'.Accounted := by
  intro hacc
  obtain ⟨-, hs⟩ := Option.ite_none_right_eq_some.1 hs
  cases hs
  have hheld := h.held_sleeping hi
  have hlive : s.wake.sleeping i ∈ s.wake.live := hheld ▸ h.mem i (by rw [hheld]; exact hi)
  obtain ⟨j, halive, hj⟩ : ∃ j, Function.update s.alive i false j = true ∧
      s.wake.held j = s.wake.sleeping i := by
    by_cases hin : s.wake.sleeping i ∈ s.wake.sleepers.ids
    · exact hacc.wakers _ hin
    · obtain ⟨j, halive, hj, -⟩ := hacc.missing _ hlive hin
      exact ⟨j, halive, hj⟩
  have hij : i = j := h.inj i j (by rw [hheld]; exact hi) (hheld.trans hj.symm)
  subst hij
  simp at halive

/-- **Cancelling tickers**: while only tickers that are awake are dropped, the sleepers
    account for live tickers only, so that no call of `State::notify` is suppressed on
    behalf of a ticker that no longer exists; and the drop of any other ticker breaks
    this. -/
theorem cancel_accounted (h : system.Reach DropsAwake s) :
    s.Accounted ∧
      ∀ i s', step s (.drop i) = some s' → (s'.Accounted ↔ s.wake.sleeping i = 0) := by
  have hinv := Wake.inv_reach (wake_reach h)
  refine ⟨accounted_of_clean hinv (clean_reach h), fun i s' hs => ⟨?_, fun hi => ?_⟩⟩
  · intro hacc
    by_contra hi
    exact not_accounted_drop hinv hs hi hacc
  · have h' : system.Reach DropsAwake s' := .step h (a := .drop i) hi hs
    exact accounted_of_clean (Wake.inv_reach (wake_reach h')) (clean_reach h')

end Runs

/-- A ticker sleeps, is woken, finds a task and is dropped while it yields. -/
def dropAwake : List (Act (Fin 2) (Fin 1)) :=
  [.wake (.sleep 0), .wake (.sleep 1), .wake (.notify 0), .wake (.notify 0), .wake (.notify 0),
    .wake (.poll 1), .wake (.swap 1), .wake (.wakeLock 1), .drop 1]

theorem cancel_accounted_yielding : ∃ s : Cancel (Fin 2) (Fin 1),
    system.run new dropAwake = some s ∧ s.alive 1 = false ∧ s.wake.sleepers.count = 1 ∧
      s.Accounted := by
  have hrun : ∃ s : Cancel (Fin 2) (Fin 1), system.run new dropAwake = some s ∧
      s.alive 1 = false ∧ s.wake.sleepers.count = 1 :=
    Lts.exists_run (by decide +kernel)
  obtain ⟨s, hs, ha, hc⟩ := hrun
  have hm : system.Meets DropsAwake (new : Cancel (Fin 2) (Fin 1)) dropAwake := by decide +kernel
  exact ⟨s, hs, ha, hc, (cancel_accounted (.run (.init rfl) hm hs)).1⟩

/-- A ticker is notified and dropped before it is polled again; then another one falls
    asleep. -/
def dropNotified : List (Act (Fin 2) (Fin 1)) :=
  [.wake (.sleep 0), .wake (.notify 0), .wake (.notify 0), .wake (.notify 0), .drop 0,
    .wake (.poll 1), .wake (.sleep 1)]

/-- The live ticker is asleep and unnotified, no call of `State::notify` is in progress and
    every later one returns at its compare-exchange. -/
theorem cancel_silences : ∃ s : Cancel (Fin 2) (Fin 1), system.Reachable s ∧ ¬ s.Accounted ∧
    s.alive 1 = true ∧ s.wake.Asleep 1 ∧ (∀ k, s.wake.calls k = .idle) ∧
      s.wake.notified = true := by
  have hrun : ∃ s : Cancel (Fin 2) (Fin 1), system.run new dropNotified = some s ∧
      s.alive 0 = false ∧ s.alive 1 = true ∧ s.wake.held 1 = 2 ∧ s.wake.sleepers.ids = [2] ∧
      s.wake.live = [2, 1] ∧ (s.wake.slept 1 = true ∧ s.wake.woken 1 = false) ∧
      (∀ k, s.wake.calls k = .idle) ∧ s.wake.notified = true :=
    Lts.exists_run (by decide +kernel)
  obtain ⟨s, hs, h0, h1, hheld, hids, hlive, hasleep, hcalls, hn⟩ := hrun
  refine ⟨s, .run (.init rfl) (Lts.meets_true _ dropNotified) hs, ?_, h1, hasleep, hcalls, hn⟩
  intro hacc
  obtain ⟨i, halive, hi, -⟩ := hacc.missing 1 (by rw [hlive]; decide) (by rw [hids]; decide)
  fin_cases i
  · exact absurd (h0.symm.trans halive) (by decide)
  · exact absurd (hheld.symm.trans hi) (by decide)

end Cancel
end Awak
