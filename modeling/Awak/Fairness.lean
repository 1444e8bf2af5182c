/-
  The global queue is not starved by a busy local queue.

  A ticker `w` is polled again and again while the other threads use the queues:
  the owner thread pushes to the local queue between polls, and any thread may,
  between any two operations of the ticker, push to and pop from the global queue
  and pop from any local queue.  `sleep`, `wake` and `notify` do not touch the
  queues and are left out of `tick` here.

  * `Grows`: what each step of each thread does; `Rely`: what the other threads do
    during a poll;
  * `tick_wp`: a successful tick whose counter is divisible by 64 takes a task out
    of the global queue, or all that were there have left;
  * `global_not_starved`: so the task at position `k` leaves within `64 * (k + 1)`
    successful ticks.
-/
import Awak.Search

namespace Awak

open Word

variable {n : ℕ} {R : Type}

/-- A successful tick: the task, the value of the counter, and the free slots that
    its `steal` has found, if it has looked for them. -/
structure Ticked (R : Type) where
  found : Found R
  ticks : ℕ
  free : Option ℕ

namespace Queues

/-- One poll of `tick`; `none` is `Poll::Pending`. -/
def tick (shards : List (Fin n)) (w : Fin n) (start : ℕ) :
    Prog (Queues n R) (Option (Ticked R)) := do
  match ← search shards w start with
  | none => return none
  | some found =>
    let ticks ← bump
    if ticks % 64 = 0 then
      let length ← lenGlobal
      let free ← steal w length popGlobal
      return some ⟨found, ticks, free⟩
    else return some ⟨found, ticks, none⟩

/-! ## What the steps do -/

/-- The number of tasks that have left the global queue. -/
def taken (s : Queues n R) : ℕ := s.log.length - s.queue.queue.length

/-- The rings are sound, and the global queue is the end of what was pushed to it. -/
structure Valid (s : Queues n R) : Prop where
  sound : s.Sound
  log : s.queue.queue <:+ s.log

/-- What each step of each thread does. -/
structure Grows (s t : Queues n R) : Prop where
  valid : s.Valid → t.Valid
  log : s.log <+: t.log
  taken : s.taken ≤ t.taken

/-- What each operation of the ticker does: it pushes nothing to the global queue. -/
structure Guar (s t : Queues n R) : Prop where
  grows : Grows s t
  log : t.log = s.log

/-- What the other threads do while the ticker `w` is polled: its own queue can
    only get shorter. -/
structure Rely (w : Fin n) (s t : Queues n R) : Prop where
  grows : Grows s t
  own : (t.items (.shard w)).length ≤ (s.items (.shard w)).length
  capacity : (t.locals w).capacity = (s.locals w).capacity
  ticks : t.ticks = s.ticks

/-- What happens during a poll of the ticker `w` before its counter is bumped. -/
structure Since (w : Fin n) (s t : Queues n R) : Prop where
  grows : Grows s t
  capacity : (t.locals w).capacity = (s.locals w).capacity
  ticks : t.ticks = s.ticks

variable {s t u : Queues n R} {w : Fin n} {c : Src n → List R}

theorem Valid.taken_add (h : s.Valid) : s.taken + s.queue.queue.length = s.log.length := by
  have := h.log.length_le
  rw [taken]
  omega

theorem Grows.rfl : Grows s s := ⟨id, List.prefix_rfl, le_rfl⟩

theorem Grows.trans (h : Grows s t) (h' : Grows t u) : Grows s u :=
  ⟨h'.valid ∘ h.valid, h.log.trans h'.log, h.taken.trans h'.taken⟩

theorem Guar.rfl : Guar s s := ⟨.rfl, by rfl⟩

theorem Rely.trans (h : Rely w s t) (h' : Rely w t u) : Rely w s u :=
  ⟨h.grows.trans h'.grows, h'.own.trans h.own, h'.capacity.trans h.capacity,
    h'.ticks.trans h.ticks⟩

theorem Rely.since (h : Rely w s t) : Since w s t := ⟨h.grows, h.capacity, h.ticks⟩

theorem Since.rfl : Since w s s := ⟨.rfl, by rfl, by rfl⟩

theorem Since.trans (h : Since w s t) (h' : Since w t u) : Since w s u :=
  ⟨h.grows.trans h'.grows, h'.capacity.trans h.capacity, h'.ticks.trans h.ticks⟩

/-- An operation that pushes nothing to the global queue. -/
theorem Becomes.since (h : Becomes s t c) (hv : s.Valid) (hc : c .global <:+ s.items .global)
    (w : Fin n) : Since w s t := by
  have hq : t.queue.queue <:+ s.queue.queue := by
    rw [← h.items] at hc
    exact hc
  refine ⟨⟨fun _ => ⟨h.sound, ?_⟩, ?_, ?_⟩, h.capacity w, h.ticks⟩
  · rw [h.log]
    exact hq.trans hv.log
  · rw [h.log]
  · have := hq.length_le
    rw [taken, taken, h.log]
    omega

/-! ## The operations among other threads -/

theorem atomic_popFrom (src : Src n) : (popFrom src : Prog (Queues n R) (Option R)).Atomic := by
  cases src with
  | global => exact Prog.atomic_atom _
  | shard q =>
    refine ⟨_, _, rfl, fun s => ?_⟩
    simp only [Prog.bind]
    rcases (s.locals q).pop.1 with (_ | x) | _
    · exact Or.inr rfl
    · exact Or.inl ⟨some x, rfl⟩
    · exact Or.inl ⟨none, rfl⟩

/-- The length of a queue may be out of range in `steal`, which then panics. -/
abbrev MayPanic : Queues n R → Prop := fun _ => True

/-- An operation of the ticker, known by how it runs alone. -/
theorem wp_op {α : Type} {p : Prog (Queues n R) α} (hp : p.Atomic) (hv : s.Valid)
    {Q : α → Queues n R → Prop}
    (h : ∀ t, Rely w s t → t.Valid → ∃ a u, p.run t = (some a, u) ∧ Guar t u ∧ Q a u) :
    p.Wp (Rely w) Guar MayPanic Q s := by
  refine Prog.Wp.atomic hp fun t ht => ?_
  obtain ⟨a, u, hrun, hg, hQ⟩ := h t ht (ht.grows.valid hv)
  rw [hrun]
  refine ⟨hg, fun b hb => ?_, fun hnone => by cases hnone⟩
  obtain rfl : a = b := Option.some.inj hb
  exact hQ

theorem Rely.rfl : Rely w s s := ⟨.rfl, le_rfl, by rfl, by rfl⟩

/-- `pop` returns the first task, or the queue is empty. -/
theorem popFrom_step (src : Src n) (hv : s.Valid) (w : Fin n) :
    ∃ o t, (popFrom src).run s = (some o, t) ∧ Rely w s t ∧ t.log = s.log ∧
      ((o = none ∧ s.items src = []) ∨ ∃ r, o = some r ∧ s.items src = r :: t.items src) := by
  cases h : s.items src with
  | nil => exact ⟨none, s, popFrom_nil src hv.sound h, .rfl, rfl, Or.inl ⟨rfl, rfl⟩⟩
  | cons r xs =>
    obtain ⟨t, hrun, ht⟩ := popFrom_cons src hv.sound h
    have hsuffix : ∀ q, Function.update s.items src xs q <:+ s.items q := by
      intro q
      by_cases he : q = src
      · subst he
        rw [Function.update_self, h]
        exact List.suffix_cons r xs
      · rw [Function.update_of_ne he]
    have hst := ht.since hv (hsuffix .global) w
    refine ⟨some r, t, hrun, ⟨hst.grows, ?_, hst.capacity, hst.ticks⟩, ht.log,
      Or.inr ⟨r, rfl, ?_⟩⟩
    · rw [ht.items]
      exact (hsuffix (.shard w)).length_le
    · rw [ht.items, Function.update_self]

theorem pushLocal_step (q : Fin n) (r : R) (hv : s.Valid) (w : Fin n) :
    ∃ res t, (pushLocal q r).run s = (some res, t) ∧ Since w s t ∧ t.log = s.log ∧
      (q ≠ w → t.items (.shard w) = s.items (.shard w)) := by
  rcases (hv.sound.locals q).length_le.lt_or_eq with hlt | heq
  · obtain ⟨t, hrun, ht⟩ := pushLocal_room hv.sound r hlt
    refine ⟨.ok, t, hrun, ht.since hv (by simp) w, ht.log, fun hq => ?_⟩
    rw [ht.items, Function.update_of_ne fun h => hq (Src.shard.inj h).symm]
  · refine ⟨.errorFull r, s, ?_, .rfl, rfl, fun _ => rfl⟩
    rw [pushLocal, Prog.run_atom, (hv.sound.locals q).push_full heq]
    simp [setLocal]

/-- Popping the global queue takes a task. -/
theorem taken_pop (hv : s.Valid) (hlog : t.log = s.log) {r : R}
    (h : s.items .global = r :: t.items .global) : t.taken = s.taken + 1 := by
  have hlen : s.queue.queue.length = t.queue.queue.length + 1 := by
    rw [show s.queue.queue = r :: t.queue.queue from h, List.length_cons]
  have := hv.log.length_le
  rw [taken, taken, hlog]
  omega

/-! ## `steal` and `search` among other threads -/

theorem stealLoop_wp (src : Src n) (count : ℕ) : ∀ {s : Queues n R}, s.Valid →
    (stealLoop w (popFrom src) count).Wp (Rely w) Guar MayPanic (fun _ t => Since w s t) s := by
  induction count with
  | zero => exact fun _ => Prog.Wp.pure .rfl
  | succ count ih =>
    intro s hv
    refine Prog.Wp.bind (wp_op (atomic_popFrom src) hv fun t ht hvt => ?_)
    obtain ⟨o, u, hrun, hu, hlog, -⟩ := popFrom_step src hvt w
    refine ⟨o, u, hrun, ⟨hu.grows, hlog⟩, ?_⟩
    have hsu : Since w s u := ht.since.trans hu.since
    cases o with
    | none => exact Prog.Wp.pure hsu
    | some r =>
      refine Prog.Wp.bind (wp_op (Prog.atomic_atom _) (hu.grows.valid hvt) fun t' ht' hvt' => ?_)
      obtain ⟨res, u', hrun', hu', hlog', -⟩ := pushLocal_step w r hvt' w
      refine ⟨res, u', hrun', ⟨hu'.grows, hlog'⟩, ?_⟩
      refine (ih (hu'.grows.valid hvt')).mono fun _ x hx => ?_
      exact hsu.trans (ht'.since.trans (hu'.trans hx))

theorem steal_wp (src : Src n) (length : ℕ) (hv : s.Valid) :
    (steal w length (popFrom src)).Wp (Rely w) Guar MayPanic (fun _ t => Since w s t) s := by
  unfold steal
  split_ifs with hlen
  · trivial
  dsimp only
  split_ifs with hcount
  · refine Prog.Wp.bind (wp_op (Prog.atomic_atom _) hv fun t ht hvt => ?_)
    refine ⟨_, t, capacity_run w t, .rfl, ?_⟩
    refine Prog.Wp.bind (wp_op (Prog.atomic_atom _) hvt fun u hu hvu => ?_)
    refine ⟨_, u, lenLocal_run w u, .rfl, ?_⟩
    split_ifs with hunder
    · trivial
    · refine Prog.Wp.bind ((stealLoop_wp src _ hvu).mono fun _ x hx => ?_)
      exact Prog.Wp.pure (ht.since.trans (hu.since.trans hx))
  · exact Prog.Wp.pure .rfl

/-- What `search` has done when it returns. -/
structure Searched (w : Fin n) (s : Queues n R) (res : Option (Found R)) (t : Queues n R) :
    Prop where
  since : Since w s t
  /-- a task popped from the local queue leaves a free slot -/
  own : ∀ r, res = some (.own r) → (t.items (.shard w)).length < (t.locals w).capacity
  global : ∀ r, res = some (.global r) → s.taken < t.taken

/-- The queue has a free slot after a pop. -/
theorem room_of_pop (hv : s.Valid) (hst : Since w s t) {r : R}
    (h : s.items (.shard w) = r :: t.items (.shard w)) :
    (t.items (.shard w)).length < (t.locals w).capacity := by
  have hle : (s.items (.shard w)).length ≤ (s.locals w).capacity :=
    (hv.sound.locals w).length_le
  rw [h, List.length_cons] at hle
  rw [hst.capacity]
  omega

theorem searchShards_wp (rest : List (Fin n)) : ∀ {s : Queues n R}, s.Valid →
    (searchShards w rest).Wp (Rely w) Guar MayPanic (fun res t => Since w s t ∧
      ∀ r, res = some r → (t.items (.shard w)).length < (t.locals w).capacity) s := by
  induction rest with
  | nil => exact fun _ => Prog.Wp.pure ⟨.rfl, by simp⟩
  | cons q rest ih =>
    intro s hv
    refine Prog.Wp.bind (wp_op (Prog.atomic_atom _) hv fun t₁ ht₁ hv₁ => ?_)
    have hrec : Since w t₁ { t₁ with stolen := t₁.stolen ++ [q] } :=
      ⟨⟨fun h => ⟨h.sound.record _, h.log⟩, List.prefix_rfl, le_rfl⟩, rfl, rfl⟩
    refine ⟨(), _, record_run q t₁, ⟨hrec.grows, rfl⟩, ?_⟩
    refine Prog.Wp.bind (wp_op (Prog.atomic_atom _) (hrec.grows.valid hv₁) fun t₂ ht₂ hv₂ => ?_)
    refine ⟨_, t₂, lenLocal_run q t₂, .rfl, ?_⟩
    refine Prog.Wp.bind ((steal_wp (.shard q) _ hv₂).mono fun _ t₃ ht₃ => ?_)
    have hst₃ : Since w s t₃ := ht₁.since.trans (hrec.trans (ht₂.since.trans ht₃))
    refine Prog.Wp.bind (wp_op (atomic_popFrom (.shard w)) (hst₃.grows.valid hv)
      fun t₄ ht₄ hv₄ => ?_)
    obtain ⟨o, t₅, hrun, hst₅, hlog, hpop⟩ := popFrom_step (.shard w) hv₄ w
    refine ⟨o, t₅, hrun, ⟨hst₅.grows, hlog⟩, ?_⟩
    have hs₅ : Since w s t₅ := hst₃.trans (ht₄.since.trans hst₅.since)
    rcases hpop with ⟨rfl, -⟩ | ⟨r, rfl, hr⟩
    · refine (ih (hs₅.grows.valid hv)).mono fun res x hx => ?_
      exact ⟨hs₅.trans hx.1, hx.2⟩
    · exact Prog.Wp.pure ⟨hs₅, fun _ _ => room_of_pop hv₄ hst₅.since hr⟩

theorem search_wp (shards : List (Fin n)) (start : ℕ) (hv : s.Valid) :
    (search shards w start).Wp (Rely w) Guar MayPanic (Searched w s) s := by
  refine Prog.Wp.bind (wp_op (atomic_popFrom (.shard w)) hv fun t₁ ht₁ hv₁ => ?_)
  obtain ⟨o, t₂, hrun, hst₂, hlog, hpop⟩ := popFrom_step (.shard w) hv₁ w
  refine ⟨o, t₂, hrun, ⟨hst₂.grows, hlog⟩, ?_⟩
  have hs₂ : Since w s t₂ := (ht₁.trans hst₂).since
  rcases hpop with ⟨rfl, -⟩ | ⟨r, rfl, hr⟩
  · refine Prog.Wp.bind (wp_op (atomic_popFrom .global) (hs₂.grows.valid hv) fun t₃ ht₃ hv₃ => ?_)
    obtain ⟨o, t₄, hrun, hst₄, hlog, hpop⟩ := popFrom_step .global hv₃ w
    refine ⟨o, t₄, hrun, ⟨hst₄.grows, hlog⟩, ?_⟩
    have hs₃ : Since w s t₃ := hs₂.trans ht₃.since
    have hs₄ : Since w s t₄ := hs₃.trans hst₄.since
    rcases hpop with ⟨rfl, -⟩ | ⟨r, rfl, hr⟩
    · refine Prog.Wp.bind ((searchShards_wp _ (hs₄.grows.valid hv)).mono fun res t ht => ?_)
      cases res with
      | none => exact Prog.Wp.pure ⟨hs₄.trans ht.1, by simp, by simp⟩
      | some r => exact Prog.Wp.pure ⟨hs₄.trans ht.1, fun _ _ => ht.2 r rfl, by simp⟩
    · have htaken : s.taken < t₄.taken := by
        have := hs₃.grows.taken
        rw [taken_pop hv₃ hlog hr]
        omega
      refine Prog.Wp.bind (wp_op (Prog.atomic_atom _) (hs₄.grows.valid hv) fun t₅ ht₅ hv₅ => ?_)
      refine ⟨_, t₅, lenGlobal_run t₅, .rfl, ?_⟩
      refine Prog.Wp.bind ((steal_wp .global _ hv₅).mono fun _ t ht => ?_)
      have hst : Since w t₄ t := ht₅.since.trans ht
      exact Prog.Wp.pure ⟨hs₄.trans hst, by simp, fun _ _ => htaken.trans_le hst.grows.taken⟩
  · exact Prog.Wp.pure ⟨hs₂, fun _ _ => room_of_pop hv₁ hst₂.since hr, by simp⟩

/-! ## The steal of every 64th tick -/

/-- The first round of the loop takes a task, or finds that all have left. -/
theorem stealLoop_serves (count : ℕ) (hv : s.Valid) :
    (stealLoop w popGlobal (count + 1)).Wp (Rely w) Guar MayPanic (fun _ t => Since w s t ∧
      (s.taken < s.log.length → s.taken < t.taken)) s := by
  refine Prog.Wp.bind (wp_op (atomic_popFrom .global) hv fun t ht hvt => ?_)
  obtain ⟨o, u, hrun, hu, hlog, hpop⟩ := popFrom_step .global hvt w
  refine ⟨o, u, hrun, ⟨hu.grows, hlog⟩, ?_⟩
  have hsu : Since w s u := (ht.trans hu).since
  have htaken := ht.grows.taken
  have hloglen := ht.grows.log.length_le
  rcases hpop with ⟨rfl, hempty⟩ | ⟨r, rfl, hr⟩
  · refine Prog.Wp.pure ⟨hsu, fun hlt => ?_⟩
    have hadd := hvt.taken_add
    rw [show t.queue.queue = [] from hempty, List.length_nil] at hadd
    have := hu.grows.taken
    omega
  · have hserved : s.taken < u.taken := by
      rw [taken_pop hvt hlog hr]
      omega
    refine Prog.Wp.bind (wp_op (Prog.atomic_atom _) (hu.grows.valid hvt) fun t' ht' hvt' => ?_)
    obtain ⟨res, u', hrun', hu', hlog', -⟩ := pushLocal_step w r hvt' w
    refine ⟨res, u', hrun', ⟨hu'.grows, hlog'⟩, ?_⟩
    refine (stealLoop_wp .global count (hu'.grows.valid hvt')).mono fun _ x hx => ?_
    have hux : Since w u x := ht'.since.trans (hu'.trans hx)
    exact ⟨hsu.trans hux, fun _ => hserved.trans_le hux.grows.taken⟩

/-- What has left by `s` has left by `t`, so a task that is not the next in `t`
    has left. -/
theorem Grows.served (h : Grows s t) (h' : Grows t u)
    (hserved : t.taken < t.log.length → t.taken < u.taken) (hlt : s.taken < s.log.length) :
    s.taken < u.taken := by
  have hlog := h.log.length_le
  have htaken := h'.taken
  rcases h.taken.lt_or_eq with hlt' | heq
  · omega
  · have := hserved (by omega)
    omega

/-- With a free slot in the local queue, `steal` takes a task out of the global
    queue, or finds that all have left. -/
theorem steal_serves (hv : s.Valid)
    (hroom : (s.items (.shard w)).length < (s.locals w).capacity) :
    (steal w s.queue.len popGlobal).Wp (Rely w) Guar MayPanic (fun free t => Since w s t ∧
      (s.taken < s.log.length → s.taken < t.taken) ∧ ∀ f, free = some f → 1 ≤ f) s := by
  have hlen : s.queue.len = s.queue.queue.length := s.queue.length_eq
  unfold steal
  split_ifs with hmax
  · trivial
  dsimp only
  split_ifs with hcount
  · refine Prog.Wp.bind (wp_op (Prog.atomic_atom _) hv fun t₁ ht₁ hv₁ => ?_)
    refine ⟨_, t₁, capacity_run w t₁, .rfl, ?_⟩
    refine Prog.Wp.bind (wp_op (Prog.atomic_atom _) hv₁ fun t₂ ht₂ hv₂ => ?_)
    refine ⟨_, t₂, lenLocal_run w t₂, .rfl, ?_⟩
    have hst₂ : Rely w s t₂ := ht₁.trans ht₂
    have hown : (t₂.locals w).len = (t₂.items (.shard w)).length := (hv₂.sound.locals w).len_eq
    have hle := hst₂.own
    have hcap := ht₁.capacity
    split_ifs with hunder
    · trivial
    -- nobody else pushes to the local queue, so the slot is still free
    obtain ⟨count, hmin⟩ : ∃ count, min ((s.queue.len + 1) / 2)
        ((t₁.locals w).capacity - (t₂.locals w).len) = count + 1 :=
      Nat.exists_eq_succ_of_ne_zero (by omega)
    rw [hmin]
    refine Prog.Wp.bind ((stealLoop_serves count hv₂).mono fun _ x hx => ?_)
    refine Prog.Wp.pure ⟨hst₂.since.trans hx.1, hst₂.grows.served hx.1.grows hx.2, fun f hf => ?_⟩
    cases hf
    omega
  · refine Prog.Wp.pure ⟨.rfl, fun hlt => ?_, by simp⟩
    have := hv.taken_add
    omega

/-- What a poll of `tick` has done when it returns. -/
structure Polled (s : Queues n R) (res : Option (Ticked R)) (t : Queues n R) : Prop where
  grows : Grows s t
  pending : res = none → t.ticks = s.ticks
  bumped : ∀ e, res = some e → t.ticks = wrappingAdd s.ticks 1
  served : ∀ e, res = some e → s.ticks % 64 = 0 → s.taken < s.log.length → s.taken < t.taken
  room : ∀ e r, res = some e → e.found = .own r → ∀ f, e.free = some f → 1 ≤ f

theorem tick_wp (shards : List (Fin n)) (start : ℕ) (hv : s.Valid) :
    (tick shards w start).Wp (Rely w) Guar MayPanic (Polled s) s := by
  refine Prog.Wp.bind ((search_wp shards start hv).mono fun res t₁ ht₁ => ?_)
  have hg₁ := ht₁.since.grows
  cases res with
  | none => exact Prog.Wp.pure ⟨hg₁, fun _ => ht₁.since.ticks, by simp, by simp, by simp⟩
  | some found =>
    refine Prog.Wp.bind (wp_op (Prog.atomic_atom _) (hg₁.valid hv) fun t₂ ht₂ hv₂ => ?_)
    obtain ⟨t₃, ht₃⟩ : ∃ t₃ : Queues n R, t₃ = { t₂ with ticks := wrappingAdd t₂.ticks 1 } :=
      ⟨_, rfl⟩
    have hbump : Grows t₂ t₃ := by
      rw [ht₃]
      exact ⟨fun h => ⟨⟨h.sound.locals, h.sound.capacity⟩, h.log⟩, List.prefix_rfl, le_rfl⟩
    refine ⟨t₂.ticks, t₃, by rw [ht₃]; rfl, ⟨hbump, by rw [ht₃]⟩, ?_⟩
    have hticks : t₂.ticks = s.ticks := ht₂.ticks.trans ht₁.since.ticks
    have hticks₃ : t₃.ticks = wrappingAdd s.ticks 1 := by rw [ht₃, hticks]
    have hg₃ : Grows s t₃ := hg₁.trans (ht₂.grows.trans hbump)
    rw [hticks]
    split_ifs with h64
    · refine Prog.Wp.bind (wp_op (Prog.atomic_atom _) (hg₃.valid hv) fun t₄ ht₄ hv₄ => ?_)
      refine ⟨_, t₄, lenGlobal_run t₄, .rfl, ?_⟩
      have hg₄ : Grows s t₄ := hg₃.trans ht₄.grows
      cases found with
      | own r =>
        -- the slot that the popped task has left
        have hroom : (t₄.items (.shard w)).length < (t₄.locals w).capacity := by
          have h₁ := ht₁.own r rfl
          have h₂ := ht₂.own
          have h₄ := ht₄.own
          rw [ht₄.capacity, ht₃]
          rw [ht₃] at h₄
          exact (h₄.trans h₂).trans_lt (ht₂.capacity ▸ h₁)
        refine Prog.Wp.bind ((steal_serves hv₄ hroom).mono fun free t ht => ?_)
        obtain ⟨hst, hserved, hfree⟩ := ht
        refine Prog.Wp.pure ⟨hg₄.trans hst.grows, by simp, fun e _ => ?_,
          fun e _ _ => hg₄.served hst.grows hserved, ?_⟩
        · rw [hst.ticks, ht₄.ticks, hticks₃]
        · rintro e r' he - f hf
          cases he
          exact hfree f hf
      | global r =>
        refine Prog.Wp.bind ((steal_wp .global _ hv₄).mono fun free t ht => ?_)
        refine Prog.Wp.pure ⟨hg₄.trans ht.grows, by simp, fun e _ => ?_, fun e _ _ _ => ?_, ?_⟩
        · rw [ht.ticks, ht₄.ticks, hticks₃]
        · exact (ht₁.global r rfl).trans_le
            ((ht₂.grows.trans hbump).trans (ht₄.grows.trans ht.grows)).taken
        · rintro e r' he hr'
          cases he
          cases hr'
    · refine Prog.Wp.pure ⟨hg₃, by simp, fun e _ => hticks₃, fun e _ h => absurd h h64, ?_⟩
      rintro e r he - f hf
      cases he
      cases hf

end Queues

/-! ## The system -/

/-- A ticker among the other threads: the queues, the poll in progress, and the
    successful ticks so far. -/
structure Ticking (n : ℕ) (R : Type) where
  queues : Queues n R
  poll : Option (Prog (Queues n R) (Option (Ticked R)))
  ticked : List (Ticked R)

namespace Ticking

open Queues

/-- The moves: the ticker is polled and does the next operation of its poll; a
    thread pushes to a local queue it owns, pops a local or the global queue, or
    pushes to the global queue. -/
inductive Act (n : ℕ) (R : Type) where
  | poll (shards : List (Fin n)) (start : ℕ)
  | next
  | push (q : Fin n) (r : R)
  | pop (src : Src n)
  | pushGlobal (r : R)

/-- The next operation of the poll in progress. -/
def next (x : Ticking n R) : Option (Ticking n R) :=
  match x.poll with
  | some (.act next upd) =>
    match next x.queues with
    | .ret res => some ⟨upd x.queues, none, x.ticked ++ res.toList⟩
    | p => some ⟨upd x.queues, some p, x.ticked⟩
  | _ => none

/-- `Queue::push` on the global queue, as `schedule` calls it. -/
def pushGlobal (s : Queues n R) (r : R) : Option (Queues n R) :=
  (s.queue.push r).map fun queue => { s with queue := queue, log := s.log ++ [r] }

/-- The owner thread of `w` pushes to its queue only when it is not polling. -/
def step (w : Fin n) (x : Ticking n R) : Act n R → Option (Ticking n R)
  | .poll shards start =>
    if x.poll.isNone then some { x with poll := some (tick shards w start) } else none
  | .next => x.next
  | .push q r =>
    if q = w ∧ x.poll.isSome then none
    else some { x with queues := ((pushLocal q r).run x.queues).2 }
  | .pop src => some { x with queues := ((popFrom src).run x.queues).2 }
  | .pushGlobal r => (pushGlobal x.queues r).map fun queues => { x with queues := queues }

/-- The queues and the counter of the ticker start anywhere. -/
def system (w : Fin n) : Lts (Ticking n R) (Act n R) where
  init x := x.queues.Valid ∧ x.poll = none ∧ x.ticked = []
  step := step w

/-- The tasks that the moves push to the global queue. -/
def pushes : List (Act n R) → List R :=
  List.filterMap fun a =>
    match a with
    | .pushGlobal r => some r
    | _ => none

variable {w : Fin n} {x y : Ticking n R}

theorem pushGlobal_grows {s t : Queues n R} {r : R} (h : pushGlobal s r = some t) :
    t.log = s.log ++ [r] ∧ Rely w s t := by
  obtain ⟨queue, hq, rfl⟩ := Option.map_eq_some_iff.1 h
  obtain ⟨happ, hcap⟩ := Queue.push_some hq
  refine ⟨rfl, ⟨⟨fun hv => ⟨⟨hv.sound.locals, hcap.trans hv.sound.capacity⟩, ?_⟩,
    List.prefix_append _ _, ?_⟩, le_rfl, rfl, rfl⟩⟩
  · obtain ⟨l, hl⟩ := hv.log
    refine ⟨l, ?_⟩
    simp only [happ, ← hl, List.append_assoc]
  · simp only [taken, happ, List.length_append, List.length_singleton]
    omega

/-- What one move does to the queues: the poll makes an operation, or another
    thread moves. -/
theorem step_cases {a : Act n R} (hv : x.queues.Valid) (hs : step w x a = some y) :
    (∃ shards start, x.poll = none ∧ y = { x with poll := some (tick shards w start) } ∧
      pushes [a] = []) ∨
    (∃ next upd, x.poll = some (.act next upd) ∧ y.queues = upd x.queues ∧ pushes [a] = [] ∧
      ((∃ res, next x.queues = .ret res ∧ y.poll = none ∧ y.ticked = x.ticked ++ res.toList) ∨
        (∀ res, next x.queues ≠ .ret res) ∧ y.poll = some (next x.queues) ∧
          y.ticked = x.ticked)) ∨
    (y.poll = x.poll ∧ y.ticked = x.ticked ∧ y.queues.log = x.queues.log ++ pushes [a] ∧
      Grows x.queues y.queues ∧ y.queues.ticks = x.queues.ticks ∧
      (x.poll.isSome → Rely w x.queues y.queues)) := by
  cases a with
  | poll shards start =>
    obtain ⟨hp, hy⟩ := Option.ite_none_right_eq_some.1 hs
    cases hy
    exact Or.inl ⟨shards, start, Option.isNone_iff_eq_none.1 hp, rfl, rfl⟩
  | next =>
    simp only [step, Ticking.next] at hs
    split at hs
    next next upd hp =>
      refine Or.inr (Or.inl ⟨next, upd, hp, ?_⟩)
      split at hs <;> cases hs
      next res hn => exact ⟨rfl, rfl, Or.inl ⟨res, hn, rfl, rfl⟩⟩
      next hn => exact ⟨rfl, rfl, Or.inr ⟨hn, rfl, rfl⟩⟩
    next => cases hs
  | push q r =>
    obtain ⟨hq, hy⟩ := Option.ite_none_left_eq_some.1 hs
    cases hy
    obtain ⟨res, t, hrun, hst, hlog, hown⟩ := pushLocal_step q r hv w
    rw [hrun]
    refine Or.inr (Or.inr ⟨rfl, rfl, ?_, hst.grows, hst.ticks, fun hp => ?_⟩)
    · exact hlog.trans (List.append_nil _).symm
    · have hqw : q ≠ w := fun h => hq ⟨h, hp⟩
      exact ⟨hst.grows, by rw [hown hqw], hst.capacity, hst.ticks⟩
  | pop src =>
    cases hs
    obtain ⟨o, t, hrun, hst, hlog, -⟩ := popFrom_step src hv w
    rw [hrun]
    exact Or.inr (Or.inr ⟨rfl, rfl, hlog.trans (List.append_nil _).symm, hst.grows, hst.ticks,
      fun _ => hst⟩)
  | pushGlobal r =>
    obtain ⟨t, ht, rfl⟩ := Option.map_eq_some_iff.1 hs
    obtain ⟨hlog, hrely⟩ := pushGlobal_grows (w := w) ht
    exact Or.inr (Or.inr ⟨rfl, rfl, hlog, hrely.grows, hrely.ticks, fun _ => hrely⟩)

/-! ## Whole runs -/

/-- `I` holds between the polls, of the successful ticks and the queues. -/
structure Between (w : Fin n) (I : List (Ticked R) → Queues n R → Prop) (x : Ticking n R) :
    Prop where
  valid : x.queues.Valid
  idle : x.poll = none → I x.ticked x.queues
  poll : ∀ p, x.poll = some p → (∀ res, p ≠ .ret res) ∧
    (∃ s, I x.ticked s ∧ Grows s x.queues) ∧
    p.Wp (Rely w) Guar MayPanic (fun res t => I (x.ticked ++ res.toList) t) x.queues

theorem tick_ne_ret (shards : List (Fin n)) (w : Fin n) (start : ℕ) (res : Option (Ticked R)) :
    tick shards w start ≠ .ret res := by
  intro h
  cases h

section Runs
variable {I : List (Ticked R) → Queues n R → Prop}
  (hother : ∀ l s t, I l s → Grows s t → t.ticks = s.ticks → I l t)
  (hpoll : ∀ l s res t, I l s → Polled s res t → I (l ++ res.toList) t)
include hother hpoll

theorem Between.step (h : Between w I x) {a : Act n R} (hs : step w x a = some y) :
    Between w I y ∧ y.queues.log = x.queues.log ++ pushes [a] := by
  rcases step_cases h.valid hs with ⟨shards, start, hx, rfl, ha⟩ |
    ⟨next, upd, hx, hq, ha, hy⟩ | ⟨hp, ht, hlog, hg, hticks, hrely⟩
  · have hI := h.idle hx
    refine ⟨⟨h.valid, by simp, fun p hp => ?_⟩, by rw [ha, List.append_nil]⟩
    cases hp
    refine ⟨tick_ne_ret shards w start, ⟨x.queues, hI, .rfl⟩, ?_⟩
    exact (tick_wp shards start h.valid).mono fun res t ht => hpoll _ _ _ _ hI ht
  · obtain ⟨-, ⟨s, hIs, hgs⟩, hwp⟩ := h.poll _ hx
    obtain ⟨hguar, hwp⟩ := hwp x.queues .rfl
    rw [← hq] at hguar hwp
    refine ⟨⟨hguar.grows.valid h.valid, fun hn => ?_, fun p hp => ?_⟩, ?_⟩
    · rcases hy with ⟨res, hr, -, hticked⟩ | ⟨-, hy, -⟩
      · rw [hr] at hwp
        rw [hticked]
        exact hwp
      · rw [hy] at hn
        cases hn
    · rcases hy with ⟨res, hr, hy, -⟩ | ⟨hne, hy, hticked⟩
      · rw [hy] at hp
        cases hp
      · rw [hy] at hp
        cases hp
        rw [hticked]
        exact ⟨hne, ⟨s, hIs, hgs.trans hguar.grows⟩, hwp⟩
    · rw [ha, List.append_nil, hguar.log]
  · refine ⟨⟨hg.valid h.valid, fun hn => ?_, fun p hp' => ?_⟩, hlog⟩
    · rw [ht]
      exact hother _ _ _ (h.idle (hp ▸ hn)) hg hticks
    · rw [hp] at hp'
      obtain ⟨hne, ⟨s, hIs, hgs⟩, hwp⟩ := h.poll p hp'
      rw [ht]
      refine ⟨hne, ⟨s, hIs, hgs.trans hg⟩, ?_⟩
      exact hwp.rely (fun _ _ _ => Rely.trans) (fun _ _ _ _ => trivial) hne (hrely (by rw [hp']; rfl))

theorem Between.run (as : List (Act n R)) : ∀ {x : Ticking n R}, Between w I x →
    (system w).run x as = some y →
    Between w I y ∧ y.queues.log = x.queues.log ++ pushes as := by
  induction as with
  | nil =>
    intro x h hs
    cases hs
    exact ⟨h, (List.append_nil _).symm⟩
  | cons a as ih =>
    intro x h hs
    obtain ⟨z, hz, hs⟩ := Option.bind_eq_some_iff.1 hs
    obtain ⟨hb, hlog⟩ := h.step hother hpoll hz
    obtain ⟨hb', hlog'⟩ := ih hb hs
    refine ⟨hb', ?_⟩
    rw [hlog', hlog, List.append_assoc, pushes, ← List.filterMap_append]
    rfl

end Runs

/-- The steals of the successful ticks have found a free slot. -/
def Roomy (l : List (Ticked R)) : Prop :=
  ∀ e ∈ l, ∀ r, e.found = .own r → ∀ free, e.free = some free → 1 ≤ free

theorem between_reach (h : (system w).Reachable x) : Between w (fun l _ => Roomy l) x := by
  refine h.inv ?_ fun y a z _ hy _ hs => (hy.step ?_ ?_ hs).1
  · rintro y ⟨hv, hp, ht⟩
    refine ⟨hv, fun _ => by simp [ht, Roomy], fun p h => ?_⟩
    rw [hp] at h
    cases h
  · exact fun l s t hl _ _ => hl
  · intro l s res t hl ht e he
    rcases List.mem_append.1 he with he | he
    · exact hl e he
    · exact fun r => ht.room e r (Option.mem_toList.1 he)

/-- `N` ticks after a state with the counter `c` and `left` tasks gone: one more
    has left for each multiple of 64 that the counter has passed, until `goal`
    have. -/
structure Served (c left goal : ℕ) (N : ℕ) (s : Queues n R) : Prop where
  ticks : s.ticks % 64 = (c + N) % 64
  pending : goal ≤ s.log.length
  taken : goal ≤ s.taken ∨ left + ((c + N + 63) / 64 - (c + 63) / 64) ≤ s.taken

theorem Served.grows {c left goal N : ℕ} {s t : Queues n R} (h : Served c left goal N s)
    (hg : Grows s t) (ht : t.ticks = s.ticks) : Served c left goal N t where
  ticks := by rw [ht, h.ticks]
  pending := h.pending.trans hg.log.length_le
  taken := h.taken.imp hg.taken.trans' hg.taken.trans'

theorem Served.tick {c left goal N : ℕ} {s t : Queues n R} (h : Served c left goal N s)
    {e : Ticked R} (hp : Polled s (some e) t) : Served c left goal (N + 1) t := by
  have hticks := h.ticks
  have hbump := hp.bumped e rfl
  have hmono := hp.grows.taken
  refine ⟨?_, h.pending.trans hp.grows.log.length_le, ?_⟩
  · rw [hbump, wrappingAdd, wrap]
    omega
  · rcases h.taken with hgoal | hleft
    · exact Or.inl (hgoal.trans hmono)
    by_cases h64 : s.ticks % 64 = 0
    · by_cases hall : goal ≤ s.taken
      · exact Or.inl (hall.trans hmono)
      · have hpending := h.pending
        have := hp.served e rfl h64 (by omega)
        right
        omega
    · right
      omega

/-- Once the counter has passed enough multiples of 64, `goal` tasks have left. -/
theorem Served.done {c left k N : ℕ} {s : Queues n R} (h : Served c left (left + k + 1) N s)
    (hN : 64 * (k + 1) ≤ N) : left + k + 1 ≤ s.taken := by
  rcases h.taken with h | h <;> omega

/-- A queue that has lost more than the first `k` tasks is behind them. -/
theorem suffix_drop {s t : Queues n R} (hs : s.Valid) (ht : t.Valid) {pushed : List R}
    (hlog : t.log = s.log ++ pushed) {k : ℕ} (hk : s.taken + k + 1 ≤ t.taken) :
    t.queue.queue <:+ (s.queue.queue ++ pushed).drop (k + 1) := by
  obtain ⟨l, hl⟩ := hs.log
  have htaken : s.taken = l.length := by
    rw [taken, ← hl, List.length_append]
    omega
  have hsuffix := ht.log
  rw [List.suffix_iff_eq_drop] at hsuffix
  rw [hsuffix, hlog, ← hl, List.append_assoc]
  have hadd := ht.taken_add
  rw [hlog, ← hl, List.append_assoc] at hadd
  rw [show (l ++ (s.queue.queue ++ pushed)).length - t.queue.queue.length =
      l.length + (k + 1) + (t.taken - (s.taken + k + 1)) by omega, ← List.drop_drop,
    List.drop_length_add_append]
  exact List.drop_suffix _ _

/-- The ticks of a run, counted from a state between two polls. -/
theorem served_run (hb : Between w (fun l _ => Roomy l) x) (hidle : x.poll = none) {k : ℕ}
    (hk : k < x.queues.queue.queue.length) {as : List (Act n R)}
    (hrun : (system w).run x as = some y) :
    y.queues.Valid ∧ y.queues.log = x.queues.log ++ pushes as ∧
    ∃ s N, y.ticked.length = x.ticked.length + N ∧ Grows s y.queues ∧
      Served x.queues.ticks x.queues.taken (x.queues.taken + k + 1) N s := by
  have hadd := hb.valid.taken_add
  have hbx : Between w (fun l s => ∃ N, l.length = x.ticked.length + N ∧
      Served x.queues.ticks x.queues.taken (x.queues.taken + k + 1) N s) x := by
    refine ⟨hb.valid, fun _ => ⟨0, rfl, rfl, by omega, Or.inr (by omega)⟩, fun p hp => ?_⟩
    rw [hidle] at hp
    cases hp
  have hrun' := hbx.run (fun l s t ⟨N, hlen, hs⟩ hg ht => ⟨N, hlen, hs.grows hg ht⟩)
    (fun l s res t ⟨N, hlen, hs⟩ hp => by
      cases res with
      | none =>
        refine ⟨N, ?_, hs.grows hp.grows (hp.pending rfl)⟩
        rw [Option.toList_none, List.append_nil, hlen]
      | some e =>
        refine ⟨N + 1, ?_, hs.tick hp⟩
        rw [Option.toList_some, List.length_append, List.length_singleton, hlen, Nat.add_assoc])
    as hrun
  obtain ⟨hby, hlog⟩ := hrun'
  refine ⟨hby.valid, hlog, ?_⟩
  cases hp : y.poll with
  | none =>
    obtain ⟨N, hlen, hs⟩ := hby.idle hp
    exact ⟨y.queues, N, hlen, .rfl, hs⟩
  | some p =>
    obtain ⟨-, ⟨s, ⟨N, hlen, hs⟩, hg⟩, -⟩ := hby.poll p hp
    exact ⟨s, N, hlen, hg, hs⟩

/-- **The global queue is not starved**: when the ticker has done `64 * (k + 1)`
    successful ticks since a moment between two polls, the global queue holds only
    tasks that stood behind position `k` then or have been pushed since; and each
    steal of a tick whose task came from the local queue has found a free slot
    there. -/
theorem global_not_starved (hx : (system w).Reachable x) (hidle : x.poll = none)
    {as : List (Act n R)} (hrun : (system w).run x as = some y) :
    (∀ k, k < x.queues.queue.queue.length → x.ticked.length + 64 * (k + 1) ≤ y.ticked.length →
      y.queues.queue.queue <:+ (x.queues.queue.queue ++ pushes as).drop (k + 1)) ∧
    ∀ e ∈ y.ticked, e.ticks % 64 = 0 → ∀ r, e.found = .own r → ∀ free, e.free = some free →
      1 ≤ free := by
  have hb := between_reach hx
  have hroomy := between_reach (hx.run (Lts.meets_true x as) hrun)
  refine ⟨fun k hk hN => ?_, fun e he _ => ?_⟩
  · obtain ⟨hvalid, hlog, s, N, hlen, hg, hserved⟩ := served_run hb hidle hk hrun
    have hdone := hserved.done (by omega)
    exact suffix_drop hb.valid hvalid hlog (hdone.trans hg.taken)
  · cases hp : y.poll with
    | none => exact hroomy.idle hp e he
    | some p =>
      obtain ⟨-, ⟨-, hl, -⟩, -⟩ := hroomy.poll p hp
      exact hl e he

/-- A ticker whose counter is about to wrap, with a local queue of two slots. -/
def aboutToWrap : Ticking 1 ℕ :=
  ⟨⟨.unbound, fun _ => .new 2 0, 2 ^ 64 - 1, [], []⟩, none, []⟩

/-- The local queue is refilled before each tick; the second one steals. -/
def refillRun : List (Act 1 ℕ) :=
  [Act.push 0 7, Act.poll [0] 0, Act.next, Act.next] ++
  ([Act.push 0 7, Act.poll [0] 0] ++ List.replicate 7 Act.next) ++
  (List.replicate 62 [Act.push 0 7, Act.poll [0] 0, Act.next, Act.next]).flatten

theorem aboutToWrap_reach : (system 0).Reachable aboutToWrap := by
  refine .init ⟨⟨⟨fun q => ?_, rfl⟩, List.suffix_rfl⟩, rfl, rfl⟩
  exact ⟨⟨0, Local.inv_new (by norm_num) 0⟩, rfl, rfl⟩

theorem global_not_starved_refill : ∃ x y : Ticking 1 ℕ, (system 0).Reachable x ∧
    x.queues.queue.queue = [100] ∧ (system 0).run x refillRun = some y ∧
    y.ticked.length = 64 ∧ y.queues.queue.queue = [] := by
  obtain ⟨x, hx, hidle, hqueue, hticked, y, hy, hlen⟩ : ∃ x,
      (system 0).run aboutToWrap [Act.pushGlobal 100] = some x ∧ x.poll.isNone ∧
      x.queues.queue.queue = [100] ∧ x.ticked.length = 0 ∧
      ∃ y, (system 0).run x refillRun = some y ∧ y.ticked.length = 64 := by
    refine ⟨_, rfl, rfl, rfl, rfl, ?_⟩
    exact Lts.exists_run (by decide +kernel)
  have hreach := aboutToWrap_reach.run (Lts.meets_true _ [Act.pushGlobal 100]) hx
  have hleft := (global_not_starved hreach (Option.isNone_iff_eq_none.1 hidle) hy).1 0
    (by rw [hqueue]; decide) (by rw [hticked, hlen])
  have hnone : pushes refillRun = [] := by decide +kernel
  rw [hqueue, hnone] at hleft
  exact ⟨x, y, hreach, hqueue, hy, hlen, List.suffix_nil.1 hleft⟩

end Ticking
end Awak
