/-
  A call of `react` that no task interrupts.

  `Sources` interleaves `react` with the tasks step by step.  Here it runs alone, from the call
  to its return, on whatever batch epoll reports; its calls of `interest` succeed.

  * `InEpoll`: the registered descriptors are in epoll, so that `interest` finds them;
  * `process_all`, `wake_all`: the loop over the batch and the loop over the wakers end, and
    leave no waker in the directions that the batch reports;
  * `ready_woken`: a task that waits for a descriptor is woken by the next call of `react` whose
    batch reports it.
-/
import Awak.AsyncIo

namespace Awak.Sources

open Relation

variable {κ W : Type}

/-! ## The registered descriptors are in epoll -/

/-- Every registered source, and every descriptor on the way to one, is in epoll. -/
structure InEpoll (s : State κ W) : Prop where
  source : ∀ x src, Registered s x src → s.epoll src.raw ≠ none
  adding : ∀ raw ∈ s.adding, s.epoll raw ≠ none

section InEpoll
variable [DecidableEq κ] {s s' : State κ W} {x : κ} {src : Source W}

omit [DecidableEq κ] in
theorem InEpoll.of_eq (h : InEpoll s) (hsrc : s'.source = s.source) (hslab : s'.slab = s.slab)
    (hadd : s'.adding = s.adding) (he : ∀ raw, s.epoll raw ≠ none → s'.epoll raw ≠ none) :
    InEpoll s' := by
  refine ⟨fun y src₂ hy => he _ (h.source y src₂ ?_), fun raw hr => he _ (h.adding raw (hadd ▸ hr))⟩
  rwa [Registered, hsrc, hslab] at hy

/-- A source changes, and its interest may be renewed. -/
theorem InEpoll.updates (h : InEpoll s) (hx : s.source x = some src) {src' : Source W}
    (hu : Updates s s' x src') (hraw : src'.raw = src.raw) (hkey : src'.key = src.key) :
    InEpoll s' := by
  have he : ∀ raw, s.epoll raw ≠ none → s'.epoll raw ≠ none := by
    intro raw hr
    rcases hu.epoll with he | ⟨flags, he⟩
    · rwa [he]
    · rw [he]
      by_cases hrr : raw = src'.raw
      · simp [hrr]
      · rwa [Function.update_of_ne hrr]
  refine ⟨fun y src₂ hy => he _ ?_, fun raw hr => he _ (h.adding raw (hu.adding ▸ hr))⟩
  obtain ⟨hsrc, hslab⟩ := hy
  rw [hu.source] at hsrc
  rw [hu.slab] at hslab
  by_cases hyx : y = x
  · subst hyx
    rw [Function.update_self] at hsrc
    cases hsrc
    rw [hraw]
    exact h.source y src ⟨hx, hkey ▸ hslab⟩
  · rw [Function.update_of_ne hyx] at hsrc
    exact h.source y src₂ ⟨hsrc, hslab⟩

theorem InEpoll.insertIo (h : InEpoll s) {raw key : ℕ} (hr : raw ∈ s.adding) :
    InEpoll (s.insertIo x raw key) := by
  refine ⟨fun y src₂ hy => ?_, fun r hm => h.adding r (List.mem_of_mem_erase hm)⟩
  rcases registered_insertIo hy with ⟨-, rfl⟩ | ⟨-, hy⟩
  · exact h.adding raw hr
  · exact h.source y src₂ hy

theorem InEpoll.removeIo (hw : Wf s) (h : InEpoll s) (hx : s.source x = some src)
    (hc : s.closed x = false) : InEpoll (s.removeIo x src) := by
  simp only [State.removeIo]
  split
  · exact h.of_eq rfl rfl rfl fun _ => id
  · refine ⟨fun y src₂ hy => ?_, fun raw hr => ?_⟩
    · obtain ⟨hkk, hy⟩ := registered_erase (s := s) hy.1 hy.2
      have hyx : y ≠ x := by
        rintro rfl
        have : s.source y = some src₂ := hy.1
        rw [hx] at this; cases this
        exact hkk rfl
      simpa [hw.raw_ne hy hx hc hyx] using h.source y src₂ hy
    · have hne : raw ≠ src.raw := by
        rintro rfl
        exact (hw.fds x src hx hc).2 hr
      simpa [hne] using h.adding raw hr

theorem InEpoll.close (hw : Wf s) (h : InEpoll s) (hx : s.source x = some src)
    (hr : s.removed x = true) (hc : s.closed x = false) : InEpoll { s with
      closed := Function.update s.closed x true
      fds := s.fds.erase src.raw
      epoll := Function.update s.epoll src.raw none } := by
  refine ⟨fun y src₂ hy => ?_, fun raw hm => ?_⟩
  · have hyx : y ≠ x := by
      rintro rfl
      rw [(hw.registered hy).1] at hr; cases hr
    simpa [hw.raw_ne hy hx hc hyx] using h.source y src₂ hy
  · have hne : raw ≠ src.raw := by
      rintro rfl
      exact (hw.fds x src hx hc).2 hm
    simpa [hne] using h.adding raw hm

theorem InEpoll.process (h : InEpoll s) {ok : Bool} (hs : s.process ok = some s') : InEpoll s' := by
  obtain ⟨tick, ev, rest, -, -, -, -, ⟨-, rfl⟩ | ⟨y, src₁, -, hy, hu⟩⟩ := updates_process hs
  · exact h.of_eq rfl rfl rfl fun _ => id
  · exact h.updates hy hu rfl rfl

theorem InEpoll.step [DecidableEq W] (hw : Wf s) (h : InEpoll s) {a : Act κ W}
    (hs : Sources.step s a = some s') : InEpoll s' := by
  cases step_cases hs with
  | @pollerInsert raw =>
    have he : ∀ r, s.epoll r ≠ none → (s.pollerInsert raw).epoll r ≠ none := by
      intro r hr
      by_cases hrr : r = raw
      · simp [State.pollerInsert, hrr]
      · simpa [State.pollerInsert, hrr] using hr
    refine ⟨fun y src₂ hy => he _ (h.source y src₂ hy), fun r hm => ?_⟩
    rcases List.mem_cons.1 hm with rfl | hm
    · simp [State.pollerInsert]
    · exact he r (h.adding r hm)
  | insertIo hr => exact h.insertIo hr
  | removeIo hx hc => exact h.removeIo hw hx hc
  | close hx hr hc => exact h.close hw hx hr hc
  | pollReady hx _ hs =>
    obtain ⟨res, hu, -, -⟩ := updates_pollReady hs
    exact h.updates hx hu pollReady_raw pollReady_key
  | react => exact h.of_eq rfl rfl rfl fun _ => id
  | next hs =>
    have hsame := reactStep_same hs
    exact h.of_eq hsame.source hsame.slab hsame.adding fun _ hr => by rwa [hsame.epoll]
  | waitEvents =>
    refine h.of_eq rfl rfl rfl fun raw hr => ?_
    dsimp only
    split_ifs
    · simpa using hr
    · exact hr
  | waitEmpty => exact h.of_eq rfl rfl rfl fun _ => id
  | process hs => exact h.process hs

theorem inEpoll_reach [DecidableEq W] {C : State κ W → Act κ W → Prop} (h : system.Reach C s) :
    InEpoll s := by
  refine h.inv (fun s hs => ?_) fun _ _ _ hr hi _ hs => hi.step (wf_reach hr) hs
  subst hs
  refine ⟨fun x src hx => ?_, nofun⟩
  cases hx.1

end InEpoll

/-! ## The loops of `react` -/

/-- The moves inside a call of `react` with this batch, whose calls of `interest` succeed.
    None of them is possible once it has returned. -/
def ofReact (evs : List Event) : Act κ W → Prop
  | .waitEvents es => es = evs
  | .process ok => ok = true
  | .next => True
  | _ => False

section Alone
variable [DecidableEq κ] [DecidableEq W] {s : State κ W} {evs : List Event}

/-- A move of `react`, alone. -/
def ReactStep (evs : List Event) (s s' : State κ W) : Prop :=
  ∃ a, ofReact evs a ∧ step s a = some s'

/-- The source `x` has lost wakers only; none are left in the directions of its events. -/
def Emptied (slab : ℕ → Option κ) (batch : List Event) (s s' : State κ W) : Prop :=
  ∀ x src, s.source x = some src → ∃ src', s'.source x = some src' ∧ ∀ op,
    ((src.states op).wakers = [] → (src'.states op).wakers = []) ∧
    ∀ ev ∈ batch, slab ev.key = some x → ev.ready op = true → (src'.states op).wakers = []

omit [DecidableEq W] in
/-- Processing an event does not fail. -/
theorem process_enabled (hw : Wf s) (he : InEpoll s) {tick : ℕ} (hr : s.reacting = .loop tick)
    {ev : Event} {rest : List Event} (hb : s.batch = ev :: rest) :
    ∃ s', s.process true = some s' := by
  unfold State.process
  split
  next tick' ev' rest' hr' hb' =>
    dsimp only
    split
    next => exact ⟨_, rfl⟩
    next x hk =>
      obtain ⟨-, src, hx, hkey⟩ := hw.slab _ _ hk
      rw [hx]
      obtain ⟨hst, hd⟩ := drain_drain s x src tick' ev' rest'
      dsimp only
      rw [hst, hd, if_pos rfl]
      split_ifs
      · obtain ⟨reg, hreg⟩ := Option.ne_none_iff_exists'.1 (he.source x src ⟨hx, hkey ▸ hk⟩)
        unfold State.interest
        rw [show (s.took x src tick' ev' rest').epoll (src.drained tick' ev').raw = some reg
          from hreg]
        exact ⟨_, rfl⟩
      · exact ⟨_, rfl⟩
  next hn => exact absurd hb (hn _ _ _ hr)

omit [DecidableEq W] in
/-- Processing an event empties the directions that it reports. -/
theorem process_emptied {s' : State κ W} (hs : s.process true = some s') :
    ∃ tick ev rest, s.reacting = .loop tick ∧ s'.reacting = .loop tick ∧ s.batch = ev :: rest ∧
      s'.batch = rest ∧ s'.slab = s.slab ∧ Emptied s.slab [ev] s s' := by
  obtain ⟨tick, ev, rest, hr, hb, hcase⟩ := process_cases hs
  rcases hcase with ⟨hk, rfl⟩ | ⟨x, src, hk, hx, hcase⟩
  · refine ⟨tick, ev, rest, hr, hr, hb, rfl, rfl, fun x src hx => ⟨src, hx, fun op => ⟨id, ?_⟩⟩⟩
    intro e hm hkx
    rw [List.mem_singleton.1 hm, hk] at hkx
    cases hkx
  · have hdrained : ∀ t : State κ W, t.source = (s.took x src tick ev rest).source →
        Emptied s.slab [ev] s t := by
      intro t ht y src₂ hy
      rw [ht]
      by_cases hyx : y = x
      · subst hyx
        rw [hx] at hy; cases hy
        refine ⟨src.drained tick ev, Function.update_self .., fun op =>
          ⟨fun hnil => ?_, fun e hm _ hop => ?_⟩⟩
        · simp only [Source.drained]
          split_ifs
          · rfl
          · exact hnil
        · rw [List.mem_singleton.1 hm] at hop
          simp [Source.drained, hop]
      · refine ⟨src₂, (Function.update_of_ne hyx ..).trans hy, fun op => ⟨id, fun e hm hkx => ?_⟩⟩
        rw [List.mem_singleton.1 hm, hk] at hkx
        cases hkx
        exact absurd rfl hyx
    rcases hcase with ⟨-, rfl⟩ | ⟨-, hint⟩ | ⟨hf, -⟩
    · exact ⟨tick, ev, rest, hr, hr, hb, rfl, rfl, hdrained _ rfl⟩
    · rw [interest_some hint]
      exact ⟨tick, ev, rest, hr, hr, hb, rfl, rfl, hdrained _ rfl⟩
    · cases hf

/-- The loop over the batch ends, whatever it holds. -/
theorem process_all (evs : List Event) {tick : ℕ} :
    ∀ {batch : List Event} {s : State κ W}, Wf s → InEpoll s → s.reacting = .loop tick →
    s.batch = batch →
    ∃ s', ReflTransGen (ReactStep evs) s s' ∧ s'.reacting = .loop tick ∧ s'.batch = [] ∧
      Emptied s.slab batch s s' := by
  intro batch
  induction batch with
  | nil =>
    intro s _ _ hr hb
    exact ⟨s, .refl, hr, hb, fun x src hx => ⟨src, hx, fun _ => ⟨id, nofun⟩⟩⟩
  | cons ev rest ih =>
    intro s hw he hr hb
    obtain ⟨s₁, hs₁⟩ := process_enabled hw he hr hb
    obtain ⟨tick', ev', rest', hr', hr₁, hb', hb₁, hslab, hempty⟩ := process_emptied hs₁
    rw [hr] at hr'; cases hr'
    rw [hb] at hb'; cases hb'
    have hstep : step s (.process true) = some s₁ := hs₁
    obtain ⟨s', hrun, hr', hb', hempty'⟩ := ih (hw.step hstep) (he.step hw hstep) hr₁ hb₁
    refine ⟨s', .head ⟨.process true, rfl, hstep⟩ hrun, hr', hb', fun x src hx => ?_⟩
    obtain ⟨src₁, hx₁, h₁⟩ := hempty x src hx
    obtain ⟨src', hx', h'⟩ := hempty' x src₁ hx₁
    refine ⟨src', hx', fun op => ⟨fun hnil => (h' op).1 ((h₁ op).1 hnil), fun e hm hk hop => ?_⟩⟩
    rcases List.mem_cons.1 hm with rfl | hm
    · exact (h' op).1 ((h₁ op).2 e (List.mem_singleton_self e) hk hop)
    · exact (h' op).2 e hm (hslab ▸ hk) hop

/-- The loop over the wakers ends. -/
theorem wake_all (evs : List Event) :
    ∀ {wakers : List W} {s : State κ W}, s.reacting = .wake → s.wakers = wakers →
    ∃ s', ReflTransGen (ReactStep evs) s s' ∧ s'.reacting = .idle ∧ s'.source = s.source := by
  intro wakers
  induction wakers with
  | nil =>
    intro s hr hw
    have hs : step s .next = some { s with reacting := .idle } := by
      simp [step, State.reactStep, hr, hw]
    exact ⟨_, .single ⟨.next, trivial, hs⟩, rfl, rfl⟩
  | cons w rest ih =>
    intro s hr hw
    have hs : step s .next = some { s with
        wakers := rest
        round := { s.round with woken := s.round.woken ++ [w] } } := by
      simp [step, State.reactStep, hr, hw]
    obtain ⟨s', hrun, hidle, hsrc⟩ := ih (s := { s with
        wakers := rest
        round := { s.round with woken := s.round.woken ++ [w] } }) hr rfl
    exact ⟨s', .head ⟨.next, trivial, hs⟩ hrun, hidle, hsrc⟩

omit [DecidableEq κ] [DecidableEq W] in
theorem ofReact_succeeds {a : Act κ W} (h : ofReact evs a) : a.Succeeds := by
  cases a <;> trivial

/-- `react` does not register or remove sources. -/
theorem reactStep_slab {s' : State κ W} (h : ReactStep evs s s') : s'.slab = s.slab := by
  obtain ⟨a, ha, hs⟩ := h
  cases step_cases hs with
  | waitEvents => rfl
  | next hs => exact (reactStep_same hs).slab
  | process hs =>
    obtain ⟨tick, ev, rest, -, -, -, -, ⟨-, rfl⟩ | ⟨y, src₁, -, -, hu⟩⟩ := updates_process hs
    · rfl
    · exact hu.slab
  | pollerInsert | insertIo | removeIo | close | pollReady | react | waitEmpty => exact ha.elim

theorem alone_slab {s' : State κ W} (h : ReflTransGen (ReactStep evs) s s') :
    s'.slab = s.slab := by
  induction h with
  | refl => rfl
  | tail _ hstep ih => exact (reactStep_slab hstep).trans ih

theorem alone_keeps {s' : State κ W} (h : ReflTransGen (ReactStep evs) s s') (hw : Wf s)
    (he : InEpoll s) : Wf s' ∧ InEpoll s' := by
  induction h with
  | refl => exact ⟨hw, he⟩
  | tail _ hstep ih =>
    obtain ⟨a, -, hs⟩ := hstep
    exact ⟨ih.1.step hs, ih.2.step ih.1 hs⟩

/-- From the call to the loop over the batch. -/
theorem react_begin (due : List W) (hidle : s.reacting = .idle) (hlock : s.poisoned = false)
    (hevs : Batch s.epoll evs) (hne : evs ≠ []) :
    ∃ q s' tick, step s (.react due) = some q ∧ ReflTransGen (ReactStep evs) q s' ∧
      s'.reacting = .loop tick ∧ s'.batch = evs ∧ s'.source = s.source ∧ q.slab = s.slab := by
  have h₁ : step s (.react due) = some { s with
      reacting := .bump, wakers := due, batch := [], round := ⟨0, due, [], [], []⟩ } :=
    if_pos hidle
  have h₂ : step { s with
      reacting := .bump, wakers := due, batch := [], round := ⟨0, due, [], [], []⟩ } .next =
      some { s with
        ticker := s.ticker + 1, reacting := .wait (s.ticker + 1), wakers := due, batch := []
        round := ⟨s.ticker + 1, due, [], [], []⟩ } := rfl
  obtain ⟨s₃, h₃, hr₃, hb₃, hl₃, hsrc₃⟩ : ∃ s₃, step { s with
      ticker := s.ticker + 1, reacting := .wait (s.ticker + 1), wakers := due, batch := []
      round := ⟨s.ticker + 1, due, [], [], []⟩ } (.waitEvents evs) = some s₃ ∧
      s₃.reacting = .batch (s.ticker + 1) ∧ s₃.batch = evs ∧ s₃.poisoned = false ∧
      s₃.source = s.source :=
    ⟨_, if_pos ⟨hevs, hne⟩, rfl, rfl, hlock, rfl⟩
  obtain ⟨s₄, h₄, hr₄, hb₄, hsrc₄⟩ : ∃ s₄, step s₃ .next = some s₄ ∧
      s₄.reacting = .loop (s.ticker + 1) ∧ s₄.batch = evs ∧ s₄.source = s₃.source := by
    have h₄ : step s₃ .next = some { s₃ with
        reacting := .loop (s.ticker + 1)
        round := { s₃.round with
          targets := s₃.batch.filterMap fun ev => (s₃.slab ev.key).map fun x => (ev, x) } } := by
      simp [step, State.reactStep, hr₃, hl₃]
    exact ⟨_, h₄, rfl, hb₃, rfl⟩
  exact ⟨_, s₄, s.ticker + 1, h₁, .head ⟨.next, trivial, h₂⟩
    (.head ⟨.waitEvents evs, rfl, h₃⟩ (.single ⟨.next, trivial, h₄⟩)), hr₄, hb₄,
    hsrc₄.trans hsrc₃, rfl⟩

/-- **`react` alone returns**, and has emptied the directions that its batch reports. -/
theorem react_alone (due : List W) (hw : Wf s) (he : InEpoll s) (hidle : s.reacting = .idle)
    (hlock : s.poisoned = false) (hevs : Batch s.epoll evs) (hne : evs ≠ []) :
    ∃ q s', step s (.react due) = some q ∧ ReflTransGen (ReactStep evs) q s' ∧
      s'.reacting = .idle ∧ s'.slab = s.slab ∧ Emptied s.slab evs s s' := by
  obtain ⟨q, s₁, tick, hcall, hrun₁, hr₁, hb₁, hsrc₁, hslab⟩ :=
    react_begin due hidle hlock hevs hne
  obtain ⟨hw₁, he₁⟩ := alone_keeps hrun₁ (hw.step hcall) (he.step hw hcall)
  obtain ⟨s₂, hrun₂, hr₂, hb₂, hempty⟩ := process_all evs hw₁ he₁ hr₁ hb₁
  have hnext : step s₂ .next = some { s₂ with reacting := .wake } := by
    simp [step, State.reactStep, hr₂, hb₂]
  obtain ⟨s', hrun', hidle', hsrc'⟩ := wake_all evs
    (s := { s₂ with reacting := .wake }) rfl rfl
  have hrun := (hrun₁.trans hrun₂).trans (.head ⟨.next, trivial, hnext⟩ hrun')
  refine ⟨q, s', hcall, hrun, hidle', (alone_slab hrun).trans hslab, ?_⟩
  rw [alone_slab hrun₁, hslab] at hempty
  intro x src hx
  obtain ⟨src', hx', h'⟩ := hempty x src (by rwa [hsrc₁])
  exact ⟨src', by rw [hsrc']; exact hx', h'⟩

end Alone
end Awak.Sources

/-! ## The tasks that wait -/

namespace Awak.AsyncIo

open Sources Relation

variable {τ κ ε R W : Type} [DecidableEq τ] [DecidableEq κ] [DecidableEq W]

/-- `react` moves, and no task does. -/
def ReactStep (evs : List Event) (p p' : State τ κ ε R W × Record τ W) : Prop :=
  ∃ a, ofReact evs a ∧ recorded.step p (.other a) = some p'

/-- A move of the sources among tasks that do not move. -/
theorem step_other {p : State τ κ ε R W × Record τ W} {a : Sources.Act κ W}
    {u : Sources.State κ W} (hs : Sources.step p.1.sources a = some u) :
    recorded.step p (.other a) = some ({ p.1 with sources := u }, p.2.observe p.1 a) := by
  simp only [recorded, Lts.monitor, system, AsyncIo.step, hs]
  rfl

/-- A call of `react` alone on the sources is one among tasks that do not move. -/
theorem reactStep_lift {evs : List Event} {p : State τ κ ε R W × Record τ W}
    {u : Sources.State κ W} (h : ReflTransGen (Sources.ReactStep evs) p.1.sources u) :
    ∃ p', ReflTransGen (ReactStep evs) p p' ∧ p'.1.sources = u ∧ p'.1.calls = p.1.calls ∧
      p'.2.heard = p.2.heard ∧ ∃ more, p'.2.woken = p.2.woken ++ more := by
  induction h with
  | refl => exact ⟨p, .refl, rfl, rfl, rfl, [], (List.append_nil _).symm⟩
  | @tail _ v _ hstep ih =>
    obtain ⟨q, hrun, rfl, hcalls, hheard, more, hwoken⟩ := ih
    obtain ⟨a, ha, hs⟩ := hstep
    refine ⟨_, hrun.tail ⟨a, ha, step_other hs⟩, rfl, hcalls, hheard,
      more ++ (wakes q.1.sources a).toList, ?_⟩
    rw [← List.append_assoc, ← hwoken]
    rfl

/-- **A waiting task is woken by the next `react` that sees its descriptor.**  As long as the
    calls of `interest` succeed: if the last poll of a call is pending, its source is registered
    and `react` is called, then this call, on any batch of epoll that reports the descriptor for
    the direction, returns and has called the waker of the task since that poll, unless a
    task interrupts it. -/
theorem ready_woken {p : State τ κ ε R W × Record τ W}
    (h : recorded.Reach (fun _ a => a.Succeeds) p) {t : τ} {c : Call κ ε R W} {cx : W}
    (hc : p.1.calls t = some c) (hcx : c.place = .pending cx) {src : Source W}
    (hsrc : Registered p.1.sources c.source src) (hidle : p.1.sources.reacting = .idle)
    (hlock : p.1.sources.poisoned = false) (due : List W) {evs : List Event}
    (hevs : Batch p.1.sources.epoll evs) {ev : Event} (hev : ev ∈ evs)
    (hraw : ev.raw = src.raw) (hready : ev.ready c.op = true) :
    ∃ q p', recorded.step p (.other (.react due)) = some q ∧ ReflTransGen (ReactStep evs) q p' ∧
      p'.1.sources.reacting = .idle ∧ cx ∈ p'.2.woken.drop (p.2.heard t) := by
  have hreach := sources_reach h
  obtain ⟨v, u, hcall, hrun, hidle', hslab, hempty⟩ := react_alone due (wf_reach hreach)
    (inEpoll_reach hreach) hidle hlock hevs (List.ne_nil_of_mem hev)
  have hq := step_other (p := p) hcall
  obtain ⟨p', hrun', rfl, hcalls, hheard, more, hwoken⟩ := reactStep_lift
    (p := ({ p.1 with sources := v }, p.2.observe p.1 (.react due))) hrun
  -- the call itself wakes nobody
  have hobs : (p.2.observe p.1 (.react due)).woken = p.2.woken := List.append_nil _
  refine ⟨_, p', hq, hrun', hidle', ?_⟩
  rcases pending_cases h hc hcx hsrc with hmem | ⟨-, hbusy⟩ | hmem
  · rw [hwoken, hobs, List.drop_append_of_le_length ((waits_reach h).heard t)]
    exact List.mem_append_left _ hmem
  · exact absurd hidle hbusy
  -- the event has the key of the source, since the descriptor is armed
  have hkey : ev.key = src.key := by
    have hbatch : p.1.sources.batch = [] := by
      by_contra hb
      obtain ⟨tick, ht | ht⟩ := (wf_reach hreach).batch hb <;> rw [hidle] at ht <;> cases ht
    have hany := hevs.2 ev hev
    rcases armed_reach hreach c.source src hsrc c.op (List.ne_nil_of_mem hmem) with harmed | hrep
    · obtain ⟨reg, hreg, -, hrkey, -⟩ := harmed
      rw [hraw, hreg] at hany
      simp only [Option.any_some, Reg.reports, Bool.and_eq_true, beq_iff_eq] at hany
      exact hany.1.2.trans hrkey
    · obtain ⟨e, he, -⟩ := hrep
      rw [hbatch] at he
      cases he
  have hreach' : recorded.Reach (fun _ a => a.Succeeds) p' := by
    have hreacted : recorded.Reach (fun _ a => a.Succeeds)
        ({ p.1 with sources := v }, p.2.observe p.1 (.react due)) :=
      .step h (a := .other (.react due)) trivial hq
    clear hidle' hempty hheard hcalls hrun hwoken hslab
    induction hrun' with
    | refl => exact hreacted
    | tail _ hstep ih =>
      obtain ⟨a, ha, hs⟩ := hstep
      exact .step ih (a := .other a) (ofReact_succeeds ha) hs
  -- the source is still registered, and has lost its wakers for the direction
  obtain ⟨src', hx', hw'⟩ := hempty c.source src hsrc.1
  obtain ⟨-, src₂, hx₂, hkey'⟩ := (wf_reach (sources_reach hreach')).slab src.key c.source
    (by rw [hslab]; exact hsrc.2)
  rw [hx'] at hx₂; cases hx₂
  have hsrc' : Registered p'.1.sources c.source src' := ⟨hx', by rw [hkey', hslab]; exact hsrc.2⟩
  have hnil := (hw' c.op).2 ev hev (by rw [hkey]; exact hsrc.2) hready
  rw [show p.2.heard = p'.2.heard from hheard.symm]
  rcases pending_cases hreach' (hcalls ▸ hc) hcx hsrc' with hmem' | ⟨-, hbusy⟩ | hmem'
  · exact hmem'
  · exact absurd hidle' hbusy
  · rw [hnil] at hmem'
    cases hmem'

/-- The descriptor of the task that waits is reported. -/
theorem ready_woken_read : ∃ p q p' : State (Fin 2) (Fin 1) Unit ℕ ℕ × Record (Fin 2) ℕ,
    recorded.run (init, .new) (readTwice.take 6) = some p ∧
      recorded.step p (.other (.react [])) = some q ∧
      ReflTransGen (ReactStep [⟨5, 0, fun op => op = .read⟩]) q p' ∧
      p'.1.sources.reacting = .idle ∧ 7 ∈ p'.2.woken := by
  have hm : recorded.Meets (fun _ a => a.Succeeds)
      ((init, .new) : State (Fin 2) (Fin 1) Unit ℕ ℕ × Record (Fin 2) ℕ) (readTwice.take 6) := by
    decide +kernel
  have hinit : recorded.init ((init, .new) : State (Fin 2) (Fin 1) Unit ℕ ℕ × Record (Fin 2) ℕ) :=
    ⟨rfl, rfl⟩
  obtain ⟨q, p', hcall, hrun, hidle, hmem⟩ := ready_woken (.run (.init hinit) hm rfl) (t := 0)
    rfl rfl ⟨rfl, rfl⟩ rfl rfl [] (by decide)
    (List.mem_cons_self : ⟨5, 0, fun op => op = .read⟩ ∈ [⟨5, 0, fun op => op = .read⟩]) rfl rfl
  exact ⟨_, q, p', rfl, hcall, hrun, hidle, List.mem_of_mem_drop hmem⟩

end Awak.AsyncIo
