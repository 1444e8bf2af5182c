/-
  What a call of `react` owes when it returns: the wakers it has removed from
  the timers and from the sources are woken, and the events of its batch are
  processed.

  `react` returns early when a call of `Poller::interest` fails, without waking
  what it has collected.

  * `Harmless`: a failing call finds nothing to wake and nothing left to process;
  * `react_wakes_all`: with harmless failures `react` wakes and processes all;
  * `react_error_drops`: with an arbitrary failure it does not.
-/
import Awak.Sources

namespace Awak.Sources

variable {κ W : Type}

/-- Processing the event re-arms the source: a direction that is not drained has
    wakers. -/
def Source.rearms (src : Source W) (ev : Event) : Bool :=
  !ev.ready .read && !(src.states .read).wakers.isEmpty ||
    !ev.ready .write && !(src.states .write).wakers.isEmpty

/-- The source that `react` is about to re-arm, with its event and the rest of
    the batch. -/
def State.rearming (s : State κ W) : Option (Source W × Event × List Event) :=
  match s.batch with
  | [] => none
  | ev :: rest => ((s.slab ev.key).bind s.source).bind fun src =>
      if src.rearms ev then some (src, ev, rest) else none

/-- When a re-arming `interest` of `react` fails, `react` has collected no waker
    and no later event of the batch has a registered source. -/
def Harmless (s : State κ W) : Act κ W → Prop
  | .process false => ∀ p ∈ s.rearming,
      s.wakers = [] ∧ p.1.taken p.2.1 = [] ∧ ∀ e ∈ p.2.2, s.slab e.key = none
  | _ => True

instance [DecidableEq κ] (s : State κ W) : (a : Act κ W) → Decidable (Harmless s a)
  | .process false => inferInstanceAs (Decidable (∀ p ∈ s.rearming,
      s.wakers = [] ∧ p.1.taken p.2.1 = [] ∧ ∀ e ∈ p.2.2, s.slab e.key = none))
  | .process true | .pollReady .. | .pollerInsert _ | .insertIo .. | .removeIo _ | .close _
  | .react _ | .next | .waitEvents _ | .waitEmpty _ => isTrue trivial

/-- The directions of an event are drained and marked with the new tick. -/
def Drained (round : Round κ W) (ev : Event) (x : κ) : Prop :=
  ∀ op, ev.ready op = true → (x, op, round.tick + 1) ∈ round.drained

/-- The invariant of a call of `react`: what it has removed is woken or in its vector, and each event
    it has passed is drained. -/
structure RoundOk (s : State κ W) : Prop where
  wakers : s.round.removed = s.round.woken ++ s.wakers
  idle : s.reacting = .idle → s.wakers = []
  tick : ∀ t, s.reacting = .wait t ∨ s.reacting = .batch t ∨ s.reacting = .loop t →
    s.round.tick = t
  early : (s.reacting = .bump ∨ ∃ t, s.reacting = .wait t ∨ s.reacting = .batch t) →
    s.round.targets = []
  targets : ∀ ev x, (ev, x) ∈ s.round.targets → Drained s.round ev x ∨
    (∃ t, s.reacting = .loop t) ∧ ev ∈ s.batch ∧ s.slab ev.key = some x

theorem roundOk_init : RoundOk (init : State κ W) := by
  constructor <;> simp [init]

variable {s s' : State κ W}

/-- A step of another thread outside the loop of `react`. -/
theorem RoundOk.other (h : RoundOk s) (hr : s'.reacting = s.reacting) (hw : s'.wakers = s.wakers)
    (hb : s'.batch = s.batch) (hro : s'.round = s.round)
    (hs : s'.slab = s.slab ∨ s.reacting.locked = false) : RoundOk s' := by
  refine ⟨by rw [hro, hw]; exact h.wakers, by rw [hr, hw]; exact h.idle,
    by rw [hr, hro]; exact h.tick, by rw [hr, hro]; exact h.early, fun ev x hm => ?_⟩
  rw [hro] at hm ⊢
  rw [hr, hb]
  refine (h.targets ev x hm).imp_right fun ⟨⟨t, ht⟩, hev, hsl⟩ => ⟨⟨t, ht⟩, hev, ?_⟩
  rcases hs with hs | hs
  · rw [hs]; exact hsl
  · rw [ht] at hs; cases hs

theorem RoundOk.reactStep (h : RoundOk s) (hs : s.reactStep = some s') : RoundOk s' := by
  have ht := h.tick; have he := h.early
  unfold State.reactStep at hs
  split at hs
  next hr =>
    cases hs
    have htg : s.round.targets = [] := he (Or.inl hr)
    refine ⟨h.wakers, nofun, fun t hrt => ?_, fun _ => htg, fun ev x hm => ?_⟩
    · rcases hrt with hrt | hrt | hrt <;> cases hrt
      rfl
    · rw [show s.round.targets = [] from htg] at hm; cases hm
  next tick hr =>
    split_ifs at hs; cases hs
    have htk : s.round.tick = tick := ht tick (Or.inr (Or.inl hr))
    refine ⟨h.wakers, nofun, fun t hrt => ?_, fun hrt => ?_, fun ev x hm => ?_⟩
    · rcases hrt with hrt | hrt | hrt <;> cases hrt
      exact htk
    · rcases hrt with hrt | ⟨t, hrt | hrt⟩ <;> cases hrt
    · obtain ⟨e, hev, hmap⟩ := List.mem_filterMap.1 hm
      obtain ⟨y, hy, hey⟩ := Option.map_eq_some_iff.1 hmap
      cases hey
      exact Or.inr ⟨⟨tick, rfl⟩, hev, hy⟩
  next tick hr =>
    split at hs <;> cases hs
    next hb =>
      refine ⟨h.wakers, nofun, ?_, ?_, fun ev x hm => ?_⟩
      · rintro t (hrt | hrt | hrt) <;> cases hrt
      · rintro (hrt | ⟨t, hrt | hrt⟩) <;> cases hrt
      · refine (h.targets ev x hm).imp_right fun ⟨_, hev, _⟩ => ?_
        rw [hb] at hev; cases hev
  next hr =>
    -- nothing is left to process
    have htg : ∀ ev x, (ev, x) ∈ s.round.targets → Drained s.round ev x := by
      intro ev x hm
      refine (h.targets ev x hm).resolve_right ?_
      rintro ⟨⟨t, ht⟩, -⟩
      rw [hr] at ht; cases ht
    split at hs <;> cases hs
    next hw =>
      refine ⟨h.wakers, fun _ => hw, ?_, ?_, fun ev x hm => Or.inl (htg ev x hm)⟩
      · rintro t (hrt | hrt | hrt) <;> cases hrt
      · rintro (hrt | ⟨t, hrt | hrt⟩) <;> cases hrt
    next w rest hw =>
      refine ⟨?_, ?_, h.tick, h.early, fun ev x hm => Or.inl (htg ev x hm)⟩
      · have := h.wakers
        rw [hw] at this
        simpa using this
      · intro hi; rw [hr] at hi; cases hi
  all_goals cases hs

theorem Drained.mono {round round' : Round κ W} {ev : Event} {x : κ} (h : Drained round ev x)
    (ht : round'.tick = round.tick) (hd : round.drained ⊆ round'.drained) : Drained round' ev x := by
  intro op hop
  rw [ht]
  exact hd (h op hop)

variable [DecidableEq κ]

/-- The event just taken is drained, the others are as before. -/
theorem RoundOk.took (h : RoundOk s) {tick : ℕ} {ev : Event} {rest : List Event} {x : κ}
    {src : Source W} (hr : s.reacting = .loop tick) (hb : s.batch = ev :: rest)
    (hk : s.slab ev.key = some x) {e : Event} {y : κ} (hm : (e, y) ∈ s.round.targets) :
    Drained (s.took x src tick ev rest).round e y ∨ e ∈ rest ∧ s.slab e.key = some y := by
  have htk := h.tick tick (Or.inr (Or.inr hr))
  rcases h.targets e y hm with hd | ⟨-, he, hsl⟩
  · exact Or.inl (hd.mono rfl (List.subset_append_left _ _))
  · rw [hb] at he
    rcases List.mem_cons.1 he with rfl | he
    · rw [hk] at hsl
      cases hsl
      refine Or.inl fun op hop => List.mem_append_right _ ?_
      refine List.mem_map.2 ⟨op, List.mem_filter.2 ⟨by cases op <;> simp, hop⟩, ?_⟩
      simp [State.took, htk]
    · exact Or.inr ⟨he, hsl⟩

omit [DecidableEq κ] in
theorem rearms_of_interest {src : Source W} {tick : ℕ} {ev : Event} {op : Op}
    (h : (src.drained tick ev).interest op = true) : src.rearms ev = true := by
  unfold Source.interest Source.drained at h
  cases op <;> by_cases hop : ev.ready .read = true <;> by_cases hop' : ev.ready .write = true <;>
    simp_all [Source.rearms]

theorem RoundOk.process (h : RoundOk s) {ok : Bool} (hc : Harmless s (.process ok))
    (hs : s.process ok = some s') : RoundOk s' := by
  obtain ⟨tick, ev, rest, hr, hb, hcase⟩ := process_cases hs
  have htk := h.tick tick (Or.inr (Or.inr hr))
  rcases hcase with ⟨hk, rfl⟩ | ⟨x, src, hk, hx, hcase⟩
  · refine ⟨h.wakers, h.idle, h.tick, h.early, fun e y hm => ?_⟩
    rcases h.targets e y hm with hd | ⟨ht, he, hsl⟩
    · exact Or.inl hd
    rw [hb] at he
    rcases List.mem_cons.1 he with rfl | he
    · rw [hk] at hsl; cases hsl
    · exact Or.inr ⟨ht, he, hsl⟩
  · have htook : RoundOk (s.took x src tick ev rest) := by
      refine ⟨?_, fun hi => ?_, fun t ht => ?_, fun ht => ?_, fun e y hm => ?_⟩
      · simp only [State.took, h.wakers, List.append_assoc]
      · change s.reacting = .idle at hi
        rw [hr] at hi; cases hi
      · change s.reacting = _ ∨ s.reacting = _ ∨ s.reacting = _ at ht
        rw [hr] at ht
        rcases ht with ht | ht | ht <;> cases ht
        exact htk
      · change s.reacting = _ ∨ ∃ t, s.reacting = _ ∨ s.reacting = _ at ht
        rw [hr] at ht
        rcases ht with ht | ⟨t, ht | ht⟩ <;> cases ht
      · rcases h.took hr hb hk hm with hd | hsl
        · exact Or.inl hd
        · exact Or.inr ⟨⟨tick, hr⟩, hsl⟩
    rcases hcase with ⟨-, rfl⟩ | ⟨-, hs⟩ | ⟨rfl, ⟨op, hop⟩, rfl⟩
    · exact htook
    · rw [interest_some hs]
      exact { htook with }
    · -- the failing call: nothing is collected, nothing is left
      have hrm : s.rearming = some (src, ev, rest) := by
        simp [State.rearming, hb, hk, hx, rearms_of_interest hop]
      obtain ⟨hw, htn, hrest⟩ := hc _ hrm
      refine ⟨?_, fun _ => rfl, ?_, ?_, fun e y hm => ?_⟩
      · have := htook.wakers
        simpa [State.took, hw, htn] using this
      · rintro t (ht | ht | ht) <;> cases ht
      · rintro (ht | ⟨t, ht | ht⟩) <;> cases ht
      · refine Or.inl ((h.took hr hb hk hm).resolve_right ?_)
        rintro ⟨he, hsl⟩
        rw [hrest e he] at hsl; cases hsl

theorem RoundOk.step [DecidableEq W] (h : RoundOk s) {a : Act κ W} (hc : Harmless s a)
    (hs : Sources.step s a = some s') : RoundOk s' := by
  cases step_cases hs with
  | pollerInsert => exact h.other rfl rfl rfl rfl (Or.inl rfl)
  | insertIo _ _ _ hl => exact h.other rfl rfl rfl rfl (Or.inr hl)
  | removeIo _ _ hl =>
    unfold State.removeIo
    dsimp only
    split <;> exact h.other rfl rfl rfl rfl (Or.inr hl)
  | close => exact h.other rfl rfl rfl rfl (Or.inl rfl)
  | pollReady _ _ hs =>
    obtain ⟨src', -, hcase⟩ := pollReady_cases hs
    rcases hcase with ⟨-, rfl⟩ | ⟨-, ⟨-, rfl⟩ | ⟨-, hs⟩ | ⟨-, rfl⟩⟩
    · exact h.other rfl rfl rfl rfl (Or.inl rfl)
    · exact h.other rfl rfl rfl rfl (Or.inl rfl)
    · rw [interest_some hs]
      exact h.other rfl rfl rfl rfl (Or.inl rfl)
    · exact h.other rfl rfl rfl rfl (Or.inl rfl)
  | react =>
    refine ⟨rfl, ?_, ?_, fun _ => rfl, ?_⟩
    · intro hi; cases hi
    · rintro t (ht | ht | ht) <;> cases ht
    · intro ev x hm; cases hm
  | next hs => exact h.reactStep hs
  | @waitEvents _ tick hr =>
    have htg : s.round.targets = [] := h.early (Or.inr ⟨tick, Or.inl hr⟩)
    refine ⟨h.wakers, ?_, fun t ht => ?_, fun _ => htg, fun ev x hm => ?_⟩
    · intro hi; cases hi
    · rcases ht with ht | ht | ht <;> cases ht
      exact h.tick tick (Or.inl hr)
    · rw [show s.round.targets = [] from htg] at hm; cases hm
  | @waitEmpty _ tick hr =>
    have htg : s.round.targets = [] := h.early (Or.inr ⟨tick, Or.inl hr⟩)
    refine ⟨?_, ?_, ?_, ?_, fun ev x hm => ?_⟩
    · simp [h.wakers]
    · intro hi; cases hi
    · rintro t (ht | ht | ht) <;> cases ht
    · rintro (ht | ⟨t, ht | ht⟩) <;> cases ht
    · rw [show s.round.targets = [] from htg] at hm; cases hm
  | process hs => exact h.process hc hs

theorem roundOk_reach [DecidableEq W] (h : system.Reach Harmless s) : RoundOk s :=
  h.inv (fun _ hs => hs ▸ roundOk_init) fun _ _ _ _ hi hc hs => hi.step hc hs

/-- **When `react` returns, it has woken and processed all**, in every run in
    which its failing calls of `interest` are harmless. -/
theorem react_wakes_all [DecidableEq W] (h : system.Reach Harmless s) (hr : s.reacting = .idle) :
    s.round.woken = s.round.removed ∧
    ∀ ev x, (ev, x) ∈ s.round.targets → Drained s.round ev x := by
  have hi := roundOk_reach h
  refine ⟨?_, fun ev x hm => (hi.targets ev x hm).resolve_right ?_⟩
  · rw [hi.wakers, hi.idle hr, List.append_nil]
  · rintro ⟨⟨t, ht⟩, -⟩
    rw [hr] at ht; cases ht

/-- A source is removed after its event has come, and its key is given to one with a writer;
    the call of `interest` for this one fails, and `react` has nothing to wake. -/
def staleError : List (Act ℕ ℕ) :=
  [.pollerInsert 5, .insertIo 0 5 0, .pollReady 0 .read 7 true, .react [], .next,
    .waitEvents [⟨5, 0, fun op => op = .read⟩], .removeIo 0, .pollerInsert 6, .insertIo 1 6 0,
    .pollReady 1 .write 8 true, .next, .process false]

/-- The next call of `react` finds two sources. -/
def reportBoth : List (Act ℕ ℕ) :=
  [.pollerInsert 7, .insertIo 2 7 1, .pollReady 2 .read 9 true, .react [], .next,
    .waitEvents [⟨6, 0, fun op => op = .write⟩, ⟨7, 1, fun op => op = .read⟩], .next,
    .process true, .process true, .next, .next, .next, .next]

theorem react_wakes_all_two : ∃ s : State ℕ ℕ,
    system.run init (staleError ++ reportBoth) = some s ∧ s.reacting = .idle ∧
      s.round.removed = [8, 9] ∧ s.round.woken = s.round.removed := by
  have hm : system.Meets Harmless init (staleError ++ reportBoth) := by
    decide +kernel
  exact ⟨_, rfl, rfl, rfl, (react_wakes_all (.run (.init rfl) hm rfl) rfl).1⟩

/-- Two sources are reported; the first one has a writer left to re-arm. -/
def reportTwo (ok : Bool) : List (Act (Fin 2) ℕ) :=
  [.pollerInsert 5, .insertIo 0 5 0, .pollerInsert 6, .insertIo 1 6 1, .pollReady 0 .read 7 true,
    .pollReady 0 .write 8 true, .pollReady 1 .read 9 true, .react [], .next,
    .waitEvents [⟨5, 0, fun op => op = .read⟩, ⟨6, 1, fun op => op = .read⟩], .next, .process ok]

/-- The call for the first source fails: its reader is not woken, and the second
    source is not marked. -/
theorem react_error_drops : ¬ ∀ s : State (Fin 2) ℕ, system.Reachable s → s.reacting = .idle →
    s.round.woken = s.round.removed ∧
      ∀ ev x, (ev, x) ∈ s.round.targets → Drained s.round ev x := by
  intro h
  obtain ⟨s, hs, hr, hrem, hw⟩ : ∃ s : State (Fin 2) ℕ,
      system.run init (reportTwo false) = some s ∧ s.reacting = .idle ∧ s.round.removed = [7] ∧
        s.round.woken = [] := ⟨_, rfl, rfl, rfl, rfl⟩
  have := (h s (.run (.init rfl) (Lts.meets_true _ (reportTwo false)) hs) hr).1
  rw [hrem, hw] at this
  cases this

end Awak.Sources
