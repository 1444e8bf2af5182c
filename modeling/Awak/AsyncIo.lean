/-
  I/O through an `Async` of `io/mod.rs`: `read_with`, `write_with`, their `_mut` and `poll_`
  forms, and `poll_future`, over the sources of the reactor.

  All of them run one loop: call the closure, return what it returns unless that is
  `WouldBlock`, else poll the source for the direction and start again once it is ready.  The
  `poll_` functions, and the calls of `poll_future`, begin with the closure at each poll; the
  future of an `async fn` goes on where it was pending.  A call of the closure is one step, its
  answer is arbitrary; so is a call of `poll_ready`.  Any number of tasks share the sources.

  * `step_ready`, `step_wakers`: what a step of the sources does to the readiness of a
    direction and to the wakers that `react` has taken;
  * `op_calls_le`: each poll calls the closure at most twice, and once more for every event
    delivered meanwhile;
  * `pending_waits`: a task whose poll is pending has been woken since, is about to be, or
    waits for an armed descriptor.
-/
import Awak.Readiness

/-! ## What a step does to the sources -/

namespace Awak.Sources

variable {κ W ε : Type}

/-- `react` delivers an event to this direction of a source. -/
def delivers [DecidableEq κ] (s : State κ W) (x : κ) (op : Op) : Act κ W → Bool
  | .process _ =>
    match s.batch with
    | ev :: _ => s.slab ev.key = some x && ev.ready op
    | [] => false
  | _ => false

/-- The waker that `react` calls. -/
def wakes (s : State κ W) : Act κ W → Option W
  | .next =>
    match s.reacting with
    | .wake => s.wakers.head?
    | _ => none
  | _ => none

theorem Dir.ready_store [DecidableEq W] {d : Dir W} {ticker : ℕ} {w : W} (h : d.ready = false) :
    (d.store ticker w).ready = false := by
  unfold Dir.ready Dir.store at *
  cases ht : d.ticks with
  | none => simp
  | some p => simpa [ht] using h

variable [DecidableEq κ] [DecidableEq W] {s s' : State κ W}

omit [DecidableEq κ] in
/-- A call of `poll_ready` makes no direction ready, and uses up the readiness it answers. -/
theorem ready_pollReady {src : Source W} {ticker : ℕ} {op : Op} {w : W} {res : Except ε Unit} :
    ((src.pollReady ticker op w res).source.states op).ready = false ∧
      ∀ op', ((src.pollReady ticker op w res).source.states op').ready = true →
        (src.states op').ready = true := by
  have hop : ((src.pollReady ticker op w res).source.states op).ready = false := by
    rw [pollReady_dir]
    split_ifs with hr
    · rfl
    · exact Dir.ready_store (by simpa using hr)
  refine ⟨hop, fun op' hr => ?_⟩
  by_cases he : op' = op
  · subst he
    rw [hop] at hr
    cases hr
  · rwa [pollReady_other he] at hr

/-- `Except::is_ok` -/
def succeeded : Except ε Unit → Bool
  | .ok _ => true
  | .error _ => false

omit [DecidableEq κ] in
theorem pollReady_pending {src : Source W} {ticker : ℕ} {op : Op} {w : W} {res : Except ε Unit} :
    (src.pollReady ticker op w res).answer = .pending ↔
      (src.states op).ready = false ∧ ((src.states op).wakers ≠ [] ∨ succeeded res = true) := by
  by_cases hr : (src.states op).ready = true
  · rw [pollReady_of_ready hr]
    simp [hr]
  · rw [Bool.not_eq_true] at hr
    by_cases hw : (src.states op).wakers = []
    · rw [pollReady_of_first hr hw]
      cases res <;> simp [hr, hw, succeeded]
    · rw [pollReady_of_waiting hr hw]
      simp [hr, hw]

/-- A call of `poll_ready` as a step of the sources. -/
theorem step_pollReady {x : κ} {src : Source W} (hx : s.source x = some src) {op : Op} {w : W}
    {res : Except ε Unit} (hs : step s (.pollReady x op w (succeeded res)) = some s') :
    s'.source x = some (src.pollReady s.ticker op w res).source ∧
      ((src.pollReady s.ticker op w res).answer = .pending →
        s'.log = s.log ++ [.pending x op w]) := by
  simp only [step, hx] at hs
  split_ifs at hs
  obtain ⟨reply, hreply⟩ : ∃ reply : Except Unit Unit,
      reply = if succeeded res then .ok () else .error () := ⟨_, rfl⟩
  rw [pollReady_eq, ← hreply] at hs
  have hsucc : succeeded reply = succeeded res := by
    rw [hreply]
    cases res <;> rfl
  have hsource : (src.pollReady s.ticker op w reply).source =
      (src.pollReady s.ticker op w res).source := pollReady_source.trans pollReady_source.symm
  have hpending : (src.pollReady s.ticker op w reply).answer = .pending ↔
      (src.pollReady s.ticker op w res).answer = .pending := by
    rw [pollReady_pending, pollReady_pending, hsucc]
  dsimp only at hs
  rw [hsource] at hs
  constructor
  · split at hs
    · rw [interest_some hs]
      split_ifs <;> simp [State.setSource]
    · cases hs
      split_ifs <;> simp [State.setSource]
  · intro hanswer
    rw [if_pos (hpending.2 hanswer)] at hs
    split at hs
    · rw [interest_some hs]
      rfl
    · cases hs
      rfl

/-- A direction becomes ready only by a delivery. -/
theorem step_ready {a : Act κ W} (hs : step s a = some s') {x : κ} {src : Source W}
    (hx : s.source x = some src) :
    ∃ src', s'.source x = some src' ∧ ∀ op, (src'.states op).ready = true →
      (src.states op).ready = true ∨ delivers s x op a = true := by
  cases step_cases hs with
  | pollerInsert => exact ⟨src, hx, fun _ => Or.inl⟩
  | @insertIo y _ _ _ hy =>
    have hne : x ≠ y := by
      rintro rfl
      rw [hx] at hy; cases hy
    exact ⟨src, by simpa [State.insertIo, State.setSource, hne] using hx, fun _ => Or.inl⟩
  | removeIo =>
    unfold State.removeIo
    dsimp only
    split <;> exact ⟨src, hx, fun _ => Or.inl⟩
  | close => exact ⟨src, hx, fun _ => Or.inl⟩
  | @pollReady y src₁ op w ok _ hy _ hs =>
    obtain ⟨res, hu, -, -⟩ := updates_pollReady hs
    rw [hu.source]
    by_cases hyx : x = y
    · subst hyx
      rw [hx] at hy; cases hy
      exact ⟨_, Function.update_self .., fun op' hr => Or.inl (ready_pollReady.2 op' hr)⟩
    · exact ⟨src, by rwa [Function.update_of_ne hyx], fun _ => Or.inl⟩
  | react => exact ⟨src, hx, fun _ => Or.inl⟩
  | next hs => exact ⟨src, (reactStep_same hs).source ▸ hx, fun _ => Or.inl⟩
  | waitEvents => exact ⟨src, hx, fun _ => Or.inl⟩
  | waitEmpty => exact ⟨src, hx, fun _ => Or.inl⟩
  | process hs =>
    obtain ⟨tick, ev, rest, -, hb, -, -, ⟨-, rfl⟩ | ⟨y, src₁, hk, hy, hu⟩⟩ := updates_process hs
    · exact ⟨src, hx, fun _ => Or.inl⟩
    · rw [hu.source]
      by_cases hyx : x = y
      · subst hyx
        rw [hx] at hy; cases hy
        refine ⟨_, Function.update_self .., fun op hr => ?_⟩
        by_cases hop : ev.ready op = true
        · exact Or.inr (by simp [delivers, hb, hk, hop])
        · exact Or.inl (by simpa [Source.drained, hop] using hr)
      · exact ⟨src, by rwa [Function.update_of_ne hyx], fun _ => Or.inl⟩

/-- The wakers that `react` has taken and not called. -/
structure Taken (s s' : State κ W) (a : Act κ W) : Prop where
  /-- what is moved is to be called -/
  moved : ∃ m, s'.log = s.log ++ m ∧ ∀ x op w, .moved x op w ∈ m → w ∈ s'.wakers
  called : ∀ w ∈ s.wakers, w ∈ s'.wakers ∨ wakes s a = some w
  idle : s'.reacting = .idle → s'.wakers = []

omit [DecidableEq κ] [DecidableEq W] in
theorem Taken.of_eq {a : Act κ W} (hw : s'.wakers = s.wakers) (hl : s'.log = s.log)
    (hi : s'.reacting = .idle → s.reacting = .idle) (h : s.reacting = .idle → s.wakers = []) :
    Taken s s' a :=
  ⟨⟨[], by rw [hl, List.append_nil], nofun⟩, fun w hm => Or.inl (by rwa [hw]),
    fun hr => by rw [hw]; exact h (hi hr)⟩

omit [DecidableEq W] in
theorem taken_process (h : s.process true = some s') {ok : Bool} : Taken s s' (.process ok) := by
  obtain ⟨tick, ev, rest, hr, hb, hcase⟩ := process_cases h
  rcases hcase with ⟨hk, rfl⟩ | ⟨x, src, hk, hx, ⟨-, rfl⟩ | ⟨-, hs⟩ | ⟨hf, -⟩⟩
  · exact .of_eq rfl rfl id (by simp [hr])
  · refine ⟨⟨_, rfl, fun y op w hm => ?_⟩, fun w hw => Or.inl (List.mem_append_left _ hw), ?_⟩
    · obtain ⟨e, he, hyw⟩ := List.mem_map.1 hm
      cases hyw
      exact List.mem_append_right _ (List.mem_map_of_mem he)
    · simp [State.took, State.setSource, hr]
  · rw [interest_some hs]
    refine ⟨⟨_, rfl, fun y op w hm => ?_⟩, fun w hw => Or.inl (List.mem_append_left _ hw), ?_⟩
    · obtain ⟨e, he, hyw⟩ := List.mem_map.1 hm
      cases hyw
      exact List.mem_append_right _ (List.mem_map_of_mem he)
    · simp [State.took, State.setSource, hr]
  · cases hf

omit [DecidableEq κ] [DecidableEq W] in
theorem taken_next (hi : s.reacting = .idle → s.wakers = []) (h : s.reactStep = some s') :
    Taken s s' .next := by
  unfold State.reactStep at h
  split at h
  · cases h; exact .of_eq rfl rfl (by simp) hi
  · split_ifs at h; cases h; exact .of_eq rfl rfl (by simp) hi
  · split at h <;> cases h; exact .of_eq rfl rfl (by simp) hi
  next hr =>
    split at h
    next hw => cases h; exact ⟨⟨[], (List.append_nil _).symm, nofun⟩, by simp [hw], fun _ => hw⟩
    next w rest hw =>
      cases h
      refine ⟨⟨[], (List.append_nil _).symm, nofun⟩, fun v hv => ?_, by simp [hr]⟩
      rw [hw] at hv
      rcases List.mem_cons.1 hv with rfl | hv
      · exact Or.inr (by simp [wakes, hr, hw])
      · exact Or.inl hv
  · cases h
  · cases h

theorem step_wakers {a : Act κ W} (ha : a.Succeeds) (hi : s.reacting = .idle → s.wakers = [])
    (hs : step s a = some s') : Taken s s' a := by
  cases step_cases hs with
  | pollerInsert => exact .of_eq rfl rfl id hi
  | insertIo => exact .of_eq rfl rfl id hi
  | removeIo =>
    unfold State.removeIo
    dsimp only
    split <;> exact .of_eq rfl rfl id hi
  | close => exact .of_eq rfl rfl id hi
  | @pollReady x src op w ok _ hx _ hs =>
    obtain ⟨src', -, ⟨-, rfl⟩ | ⟨-, ⟨-, rfl⟩ | ⟨-, hint⟩ | ⟨-, rfl⟩⟩⟩ := pollReady_cases hs
    · exact .of_eq rfl rfl id hi
    · exact ⟨⟨_, rfl, by simp⟩, fun v => Or.inl, hi⟩
    · rw [interest_some hint]
      exact ⟨⟨_, rfl, by simp⟩, fun v => Or.inl, hi⟩
    · exact .of_eq rfl rfl id hi
  | react hr =>
    refine ⟨⟨[], (List.append_nil _).symm, nofun⟩, ?_, by simp⟩
    simp [hi hr]
  | next hs => exact taken_next hi hs
  | waitEvents => exact .of_eq rfl rfl (by simp) hi
  | waitEmpty =>
    exact ⟨⟨[], (List.append_nil _).symm, nofun⟩, fun v hv => Or.inl (List.mem_append_left _ hv),
      by simp⟩
  | process hs =>
    cases (show _ = true from ha)
    exact taken_process hs

end Awak.Sources

namespace Awak.AsyncIo

open Sources

variable {τ κ ε R W : Type}

/-- What the closure returns: `ErrorKind::WouldBlock`, or anything else. -/
inductive IoRes (ε R : Type) where
  | wouldBlock
  | res (r : Except ε R)

/-- A `poll_` function or the future of an `async fn`. -/
inductive Form where
  | poll
  | future
  deriving DecidableEq

/-- Where a call is. -/
inductive Place (ε R W : Type) where
  /-- not polled yet -/
  | idle
  /-- `op(self.get_ref())` -/
  | op (cx : W)
  /-- `self.source.poll_readable(cx)` or `poll_writable(cx)` -/
  | ready (cx : W)
  /-- the last poll has returned `Pending` -/
  | pending (cx : W)
  | done (res : Except ε R)

/-- A call of one of the functions, for the direction `op` of a source. -/
structure Call (κ ε R W : Type) where
  form : Form
  source : κ
  op : Op
  place : Place ε R W

/-- The sources, and the calls of the tasks. -/
structure State (τ κ ε R W : Type) where
  sources : Sources.State κ W
  calls : τ → Option (Call κ ε R W)

/-- No task has a call. -/
def init : State τ κ ε R W := ⟨Sources.init, fun _ => none⟩

/-- Where a poll begins. -/
def Call.start (c : Call κ ε R W) (cx : W) : Option (Place ε R W) :=
  match c.place with
  | .idle => some (.op cx)
  | .pending _ =>
    match c.form with
    | .poll => some (.op cx)
    | .future => some (.ready cx)
  | _ => none

/-- Where the loop goes with an answer of the closure. -/
def IoRes.goto (cx : W) : IoRes ε R → Place ε R W
  | .wouldBlock => .ready cx
  | .res r => .done r

/-- Where the loop goes with an answer of `poll_ready`: `ready!(..)?`. -/
def readyGoto (cx : W) : Poll (Except ε Unit) → Place ε R W
  | .ready (.ok ()) => .op cx
  | .ready (.error e) => .done (.error e)
  | .pending => .pending cx

/-- The moves of the tasks, and of all others that use the sources. -/
inductive Act (τ κ ε R W : Type) where
  | call (t : τ) (form : Form) (x : κ) (op : Op)
  | poll (t : τ) (cx : W)
  | op (t : τ) (res : IoRes ε R)
  /-- `poll_ready`, with the result of its call of `interest` -/
  | ready (t : τ) (res : Except ε Unit)
  | drop (t : τ)
  | other (a : Sources.Act κ W)

section Steps
variable [DecidableEq τ] [DecidableEq κ] [DecidableEq W]

/-- The call `c` of `t` goes to `p`. -/
def State.put (s : State τ κ ε R W) (t : τ) (c : Call κ ε R W) (p : Place ε R W) :
    State τ κ ε R W :=
  { s with calls := Function.update s.calls t (some { c with place := p }) }

/-- One move of a task, or of the reactor and the others. -/
def step (s : State τ κ ε R W) : Act τ κ ε R W → Option (State τ κ ε R W)
  | .call t form x op =>
    match s.calls t, s.sources.source x with
    | none, some _ => some (s.put t ⟨form, x, op, .idle⟩ .idle)
    | _, _ => none
  | .poll t cx => (s.calls t).bind fun c => (c.start cx).map (s.put t c)
  | .op t res =>
    match s.calls t with
    | some c =>
      match c.place with
      | .op cx => some (s.put t c (res.goto cx))
      | _ => none
    | none => none
  | .ready t res =>
    match s.calls t with
    | some c =>
      match c.place, s.sources.source c.source with
      | .ready cx, some src =>
        (Sources.step s.sources (.pollReady c.source c.op cx (succeeded res))).map fun sources =>
          { s with sources := sources }.put t c
            (readyGoto cx (src.pollReady s.sources.ticker c.op cx res).answer)
      | _, _ => none
    | none => none
  | .drop t =>
    match s.calls t with
    | some c =>
      match c.place with
      | .idle | .pending _ | .done _ => some { s with calls := Function.update s.calls t none }
      | _ => none
    | none => none
  | .other a => (Sources.step s.sources a).map fun sources => { s with sources := sources }

/-- Any number of tasks, with the reactor. -/
def system : Lts (State τ κ ε R W) (Act τ κ ε R W) where
  init s := s = init
  step := step

end Steps

/-! ## What the tasks see -/

/-- What is counted along a run. -/
structure Record (τ W : Type) where
  /-- the calls of the closure in the current poll of a task -/
  ops : τ → ℕ
  /-- the events delivered meanwhile for what it polls -/
  deliveries : τ → ℕ
  /-- the wakers that `react` has called -/
  woken : List W
  /-- how many they were when the last poll of a task became pending -/
  heard : τ → ℕ

/-- Nothing has been counted. -/
def Record.new : Record τ W := ⟨fun _ => 0, fun _ => 0, [], fun _ => 0⟩

section Record
variable [DecidableEq τ] [DecidableEq κ] [DecidableEq W]

/-- A step of the sources, as the tasks see it. -/
def Record.observe (g : Record τ W) (s : State τ κ ε R W) (a : Sources.Act κ W) : Record τ W :=
  { g with
    deliveries := fun t => g.deliveries t +
      if (s.calls t).any fun c => delivers s.sources c.source c.op a then 1 else 0
    woken := g.woken ++ (wakes s.sources a).toList }

/-- A poll begins its counts again; the closure, the wakers and the events are counted. -/
def Record.record (g : Record τ W) (s : State τ κ ε R W) : Act τ κ ε R W → Record τ W
  | .call t .. | .poll t _ => { g with
      ops := Function.update g.ops t 0
      deliveries := Function.update g.deliveries t 0 }
  | .op t _ => { g with ops := Function.update g.ops t (g.ops t + 1) }
  | .ready t _ => { g with heard := Function.update g.heard t g.woken.length }
  | .drop _ => g
  | .other a => g.observe s a

/-- The tasks, with what is counted. -/
def recorded : Lts (State τ κ ε R W × Record τ W) (Act τ κ ε R W) :=
  system.monitor .new Record.record

/-- What a call has of its source: each readiness that it has used, or could use now, is the one
    from before the poll or was delivered meanwhile. -/
def Spent (ops deliveries : ℕ) (ready : Bool) : Place ε R W → Prop
  | .op _ => ops + (if ready then 1 else 0) ≤ deliveries + 1
  | .ready _ => ops + (if ready then 1 else 0) ≤ deliveries + 2
  | .idle | .pending _ | .done _ => ops ≤ deliveries + 2

omit [DecidableEq τ] [DecidableEq κ] [DecidableEq W] in
theorem Spent.mono {ops deliveries : ℕ} {ready ready' delivered : Bool} {p : Place ε R W}
    (h : Spent ops deliveries ready p) (hr : ready' = true → ready = true ∨ delivered = true) :
    Spent ops (deliveries + if delivered then 1 else 0) ready' p := by
  cases p <;> cases ready' <;> cases ready <;> cases delivered <;> simp [Spent] at h hr ⊢ <;> omega

/-- The calls of the closure are paid by deliveries. -/
def Paid (s : State τ κ ε R W) (g : Record τ W) : Prop :=
  ∀ t c, s.calls t = some c → ∃ src, s.sources.source c.source = some src ∧
    Spent (g.ops t) (g.deliveries t) (src.states c.op).ready c.place

namespace Paid

variable {s s' : State τ κ ε R W} {g : Record τ W}

omit [DecidableEq κ] [DecidableEq W] in
/-- The call of `t` changes, the sources do not. -/
theorem put (h : Paid s g) {t : τ} {c : Call κ ε R W} {src : Source W}
    (hsrc : s.sources.source c.source = some src) {p : Place ε R W} {g' : Record τ W}
    (hp : Spent (g'.ops t) (g'.deliveries t) (src.states c.op).ready p)
    (hg : ∀ t' ≠ t, g'.ops t' = g.ops t' ∧ g'.deliveries t' = g.deliveries t') :
    Paid (s.put t c p) g' := by
  intro t' c' hc'
  by_cases ht : t' = t
  · subst ht
    simp only [State.put, Function.update_self, Option.some.injEq] at hc'
    subst hc'
    exact ⟨src, hsrc, hp⟩
  · simp only [State.put, Function.update_of_ne ht] at hc'
    obtain ⟨hops, hdel⟩ := hg t' ht
    rw [hops, hdel]
    exact h t' c' hc'

omit [DecidableEq τ] in
/-- The sources make a step. -/
theorem sources (h : Paid s g) {a : Sources.Act κ W} {t : Sources.State κ W}
    (hs : Sources.step s.sources a = some t) :
    Paid { s with sources := t } (g.observe s a) := by
  intro i c hc
  obtain ⟨src, hsrc, hspent⟩ := h i c hc
  obtain ⟨src', hsrc', hready⟩ := step_ready hs hsrc
  refine ⟨src', hsrc', ?_⟩
  have hany : (s.calls i).any (fun c => delivers s.sources c.source c.op a) =
      delivers s.sources c.source c.op a := by
    rw [show s.calls i = some c from hc]; rfl
  simp only [Record.observe, hany]
  exact hspent.mono (hready c.op)

theorem step (h : Paid s g) {a : Act τ κ ε R W} (hs : AsyncIo.step s a = some s') :
    Paid s' (g.record s a) := by
  cases a with
  | call t form x op =>
    simp only [AsyncIo.step] at hs
    split at hs <;> cases hs
    next src _ hsrc =>
      refine h.put hsrc ?_ fun t' ht => ⟨Function.update_of_ne ht .., Function.update_of_ne ht ..⟩
      simp [Record.record, Spent]
  | poll t cx =>
    obtain ⟨c, hc, hs⟩ := Option.bind_eq_some_iff.1 hs
    obtain ⟨p, hp, rfl⟩ := Option.map_eq_some_iff.1 hs
    obtain ⟨src, hsrc, -⟩ := h t c hc
    refine h.put hsrc ?_ fun t' ht => ⟨Function.update_of_ne ht .., Function.update_of_ne ht ..⟩
    have hbool : (if (src.states c.op).ready = true then 1 else 0) ≤ 1 := by split_ifs <;> omega
    simp only [Record.record, Function.update_self]
    unfold Call.start at hp
    split at hp
    · cases hp; simpa [Spent] using hbool
    · split at hp <;> cases hp
      · simpa [Spent] using hbool
      · simpa [Spent] using hbool.trans one_le_two
    · cases hp
  | op t res =>
    simp only [AsyncIo.step] at hs
    split at hs
    next c hc =>
      split at hs <;> cases hs
      next cx hcx =>
        obtain ⟨src, hsrc, hspent⟩ := h t c hc
        rw [hcx] at hspent
        refine h.put hsrc ?_ fun t' ht => ⟨Function.update_of_ne ht .., rfl⟩
        simp only [Record.record, Function.update_self]
        simp only [Spent] at hspent
        cases res <;> simp only [IoRes.goto, Spent] <;> omega
    · cases hs
  | ready t res =>
    simp only [AsyncIo.step] at hs
    split at hs
    next c hc =>
      split at hs
      next cx src hcx hsrc =>
        obtain ⟨u, hu, rfl⟩ := Option.map_eq_some_iff.1 hs
        obtain ⟨src₀, hsrc₀, hspent⟩ := h t c hc
        rw [hsrc] at hsrc₀; cases hsrc₀
        rw [hcx] at hspent
        have hsrc' := (step_pollReady hsrc hu).1
        have hnone : ∀ t', (s.calls t').any (fun c' => delivers s.sources c'.source c'.op
            (.pollReady c.source c.op cx (succeeded res))) = false := by
          intro t'
          cases s.calls t' <;> rfl
        refine (h.sources hu).put hsrc' ?_ fun t' _ =>
          ⟨rfl, by simp [Record.record, Record.observe, hnone]⟩
        rw [ready_pollReady.1]
        simp only [Record.record, Spent] at hspent ⊢
        cases ha : (src.pollReady s.sources.ticker c.op cx res).answer with
        | pending =>
          simp only [readyGoto]
          omega
        | ready r =>
          cases r with
          | error e =>
            simp only [readyGoto]
            omega
          | ok =>
            rw [pollReady_ready.1 ha] at hspent
            simp only [readyGoto, Bool.false_eq_true, if_false, if_true] at hspent ⊢
            omega
      · cases hs
    · cases hs
  | drop t =>
    simp only [AsyncIo.step] at hs
    split at hs
    next c hc =>
      split at hs <;> cases hs
      all_goals
        intro t' c' hc'
        by_cases ht : t' = t
        · subst ht
          simp at hc'
        · exact h t' c' (by simpa [ht] using hc')
    · cases hs
  | other a =>
    obtain ⟨u, hu, rfl⟩ := Option.map_eq_some_iff.1 hs
    exact h.sources hu

end Paid

omit [DecidableEq τ] [DecidableEq κ] [DecidableEq W] in
theorem Spent.bound {ops deliveries : ℕ} {ready : Bool} {p : Place ε R W}
    (h : Spent ops deliveries ready p) : ops ≤ deliveries + 2 := by
  cases p <;> simp only [Spent] at h <;> omega

/-- **Retries are paid by events.** In every interleaving of any number of tasks with the
    reactor, a poll of `read_with`, `write_with` and their other forms has called the closure
    at most twice, and once more for each event that `react` has delivered for its direction
    of the source since the poll began. -/
theorem op_calls_le {p : State τ κ ε R W × Record τ W} (h : recorded.Reachable p) {t : τ}
    {c : Call κ ε R W} (hc : p.1.calls t = some c) : p.2.ops t ≤ p.2.deliveries t + 2 := by
  have hpaid : Paid p.1 p.2 := by
    refine h.inv (P := fun p => Paid p.1 p.2) (fun p hp t c hc => ?_) fun p a p' _ ih _ hs => ?_
    · rw [show p.1 = init from hp.1] at hc
      cases hc
    · obtain ⟨hstep, hrecord⟩ := Lts.monitor_step hs
      rw [hrecord]
      exact ih.step hstep
  obtain ⟨src, -, hspent⟩ := hpaid t c hc
  exact hspent.bound

/-- Task `0` reads from the descriptor `5`: its closure would block, twice. -/
def readTwice : List (Act (Fin 2) (Fin 1) Unit ℕ ℕ) :=
  [.other (.pollerInsert 5), .other (.insertIo 0 5 0), .call 0 .future 0 .read, .poll 0 7,
    .op 0 .wouldBlock, .ready 0 (.ok ()), .other (.react []), .other .next,
    .other (.waitEvents [⟨5, 0, fun op => op = .read⟩]), .other .next, .other (.process true),
    .other .next, .other .next, .poll 0 7, .ready 0 (.ok ()), .op 0 .wouldBlock,
    .ready 0 (.ok ())]

theorem op_calls_le_twice : ∃ (p : State (Fin 2) (Fin 1) Unit ℕ ℕ × Record (Fin 2) ℕ)
    (c : Call (Fin 1) Unit ℕ ℕ), recorded.run (init, .new) readTwice = some p ∧
      p.1.calls 0 = some c ∧ p.2.ops 0 = 1 ∧ p.2.woken = [7] ∧
      p.2.ops 0 ≤ p.2.deliveries 0 + 2 := by
  obtain ⟨p, hs, hcall, hops, hwoken⟩ : ∃ p : State (Fin 2) (Fin 1) Unit ℕ ℕ × Record (Fin 2) ℕ,
      recorded.run (init, .new) readTwice = some p ∧ (p.1.calls 0).isSome = true ∧
        p.2.ops 0 = 1 ∧ p.2.woken = [7] :=
    Lts.exists_run (by decide +kernel)
  obtain ⟨c, hc⟩ := Option.isSome_iff_exists.1 hcall
  have hinit : recorded.init ((init, .new) : State (Fin 2) (Fin 1) Unit ℕ ℕ × Record (Fin 2) ℕ) :=
    ⟨rfl, rfl⟩
  exact ⟨p, c, hs, hc, hops, hwoken,
    op_calls_le (.run (.init hinit) (Lts.meets_true _ _) hs) hc⟩

/-! ## Pending tasks -/

/-- The calls of `Poller::interest` succeed. -/
def Act.Succeeds : Act τ κ ε R W → Prop
  | .ready _ res => succeeded res = true
  | .other a => a.Succeeds
  | _ => True

instance : (a : Act τ κ ε R W) → Decidable a.Succeeds
  | .ready _ res => inferInstanceAs (Decidable (succeeded res = true))
  | .other a => inferInstanceAs (Decidable a.Succeeds)
  | .call .. | .poll .. | .op .. | .drop _ => isTrue trivial

/-- What `react` has taken from a pending task it has called since, or is going to call. -/
structure Waits (s : State τ κ ε R W) (g : Record τ W) : Prop where
  idle : s.sources.reacting = .idle → s.sources.wakers = []
  heard : ∀ t, g.heard t ≤ g.woken.length
  waits : ∀ t c cx, s.calls t = some c → c.place = .pending cx →
    ∃ l₁ l₂, s.sources.log = l₁ ++ .pending c.source c.op cx :: l₂ ∧
      (.moved c.source c.op cx ∈ l₂ →
        cx ∈ s.sources.wakers ∨ cx ∈ g.woken.drop (g.heard t))

namespace Waits

variable {s s' : State τ κ ε R W} {g : Record τ W}

omit [DecidableEq κ] [DecidableEq W] in
/-- The call of `t` goes where it is not pending. -/
theorem put (h : Waits s g) {t : τ} {c : Call κ ε R W} {p : Place ε R W}
    (hp : ∀ cx, p ≠ .pending cx) {g' : Record τ W} (hw : g'.woken = g.woken)
    (hh : g'.heard = g.heard) : Waits (s.put t c p) g' := by
  refine ⟨h.idle, by rw [hw, hh]; exact h.heard, fun t' c' cx hc' hcx => ?_⟩
  rw [hw, hh]
  by_cases ht : t' = t
  · subst ht
    simp only [State.put, Function.update_self, Option.some.injEq] at hc'
    subst hc'
    exact absurd hcx (hp cx)
  · exact h.waits t' c' cx (by simpa [State.put, ht] using hc') hcx

omit [DecidableEq τ] in
/-- The sources make a step. -/
theorem sources (h : Waits s g) {a : Sources.Act κ W} (ha : a.Succeeds) {u : Sources.State κ W}
    (hs : Sources.step s.sources a = some u) :
    Waits { s with sources := u } (g.observe s a) := by
  have htaken := step_wakers ha h.idle hs
  obtain ⟨m, hlog, hmoved⟩ := htaken.moved
  refine ⟨htaken.idle, fun t => (h.heard t).trans (by simp [Record.observe]),
    fun t c cx hc hcx => ?_⟩
  obtain ⟨l₁, l₂, hl, hw⟩ := h.waits t c cx hc hcx
  refine ⟨l₁, l₂ ++ m, by simp [hlog, hl], fun hm => ?_⟩
  simp only [Record.observe, List.drop_append_of_le_length (h.heard t)]
  rcases List.mem_append.1 hm with hm | hm
  · rcases hw hm with hmem | hmem
    · rcases htaken.called cx hmem with hmem | hcall
      · exact Or.inl hmem
      · exact Or.inr (List.mem_append_right _ (by simp [hcall]))
    · exact Or.inr (List.mem_append_left _ hmem)
  · exact Or.inl (hmoved _ _ _ hm)

theorem step (h : Waits s g) {a : Act τ κ ε R W} (ha : a.Succeeds)
    (hs : AsyncIo.step s a = some s') : Waits s' (g.record s a) := by
  cases a with
  | call t form x op =>
    simp only [AsyncIo.step] at hs
    split at hs <;> cases hs
    exact h.put (p := .idle) nofun rfl rfl
  | poll t cx =>
    obtain ⟨c, -, hs⟩ := Option.bind_eq_some_iff.1 hs
    obtain ⟨p, hp, rfl⟩ := Option.map_eq_some_iff.1 hs
    refine h.put (fun cx' hpc => ?_) rfl rfl
    subst hpc
    unfold Call.start at hp
    split at hp
    · cases hp
    · split at hp <;> cases hp
    · cases hp
  | op t res =>
    simp only [AsyncIo.step] at hs
    split at hs
    · split at hs <;> cases hs
      exact h.put (fun cx' => by cases res <;> simp [IoRes.goto]) rfl rfl
    · cases hs
  | ready t res =>
    simp only [AsyncIo.step] at hs
    split at hs
    next c hc =>
      split at hs
      next cx src hcx hsrc =>
        obtain ⟨u, hu, rfl⟩ := Option.map_eq_some_iff.1 hs
        have hstep := h.sources (show Sources.Act.Succeeds (.pollReady ..) from ha) hu
        have hwoken : (g.observe s (.pollReady c.source c.op cx (succeeded res))).woken = g.woken :=
          List.append_nil _
        refine ⟨hstep.idle, fun t' => ?_, fun t' c' cx' hc' hcx' => ?_⟩
        · by_cases ht : t' = t
          · subst ht; simp [Record.record]
          · simpa [Record.record, ht] using h.heard t'
        · by_cases ht : t' = t
          · subst ht
            simp only [State.put, Function.update_self, Option.some.injEq] at hc'
            subst hc'
            -- it is registered anew: nothing has been moved since
            have hanswer : (src.pollReady s.sources.ticker c.op cx res).answer = .pending ∧
                cx = cx' := by
              revert hcx'
              dsimp only
              cases (src.pollReady s.sources.ticker c.op cx res).answer with
              | pending => simp [readyGoto]
              | ready r => cases r <;> simp [readyGoto]
            obtain ⟨hpending, rfl⟩ := hanswer
            exact ⟨s.sources.log, [], (step_pollReady hsrc hu).2 hpending, nofun⟩
          · obtain ⟨l₁, l₂, hl, hw⟩ := hstep.waits t' c' cx'
              (by simpa [State.put, ht] using hc') hcx'
            refine ⟨l₁, l₂, hl, fun hm => ?_⟩
            rw [hwoken] at hw
            simp only [Record.record, Function.update_of_ne ht]
            exact hw hm
      · cases hs
    · cases hs
  | drop t =>
    simp only [AsyncIo.step] at hs
    split at hs
    next c hc =>
      split at hs <;> cases hs
      all_goals
        refine ⟨h.idle, h.heard, fun t' c' cx hc' hcx => ?_⟩
        by_cases ht : t' = t
        · subst ht
          simp at hc'
        · exact h.waits t' c' cx (by simpa [ht] using hc') hcx
    · cases hs
  | other a =>
    obtain ⟨u, hu, rfl⟩ := Option.map_eq_some_iff.1 hs
    exact h.sources ha hu

end Waits

theorem waits_reach {p : State τ κ ε R W × Record τ W}
    (h : recorded.Reach (fun _ a => a.Succeeds) p) : Waits p.1 p.2 := by
  refine h.inv (P := fun p => Waits p.1 p.2) (fun p hp => ?_) fun p a p' _ ih ha hs => ?_
  · rw [show p.1 = init from hp.1, hp.2]
    exact ⟨fun _ => rfl, fun _ => le_rfl, fun t c cx hc => by cases hc⟩
  · obtain ⟨hstep, hrecord⟩ := Lts.monitor_step hs
    rw [hrecord]
    exact ih.step ha hstep

/-- A move is a step of the sources, or leaves them alone. -/
theorem step_sources {s s' : State τ κ ε R W} {a : Act τ κ ε R W} (hs : step s a = some s') :
    s'.sources = s.sources ∨
      ∃ b, (a.Succeeds → b.Succeeds) ∧ Sources.step s.sources b = some s'.sources := by
  cases a with
  | call t form x op =>
    simp only [step] at hs
    split at hs <;> cases hs
    exact Or.inl rfl
  | poll t cx =>
    obtain ⟨c, -, hs⟩ := Option.bind_eq_some_iff.1 hs
    obtain ⟨p, -, rfl⟩ := Option.map_eq_some_iff.1 hs
    exact Or.inl rfl
  | op t res =>
    simp only [step] at hs
    split at hs
    · split at hs <;> cases hs
      exact Or.inl rfl
    · cases hs
  | ready t res =>
    simp only [step] at hs
    split at hs
    · split at hs
      · obtain ⟨u, hu, rfl⟩ := Option.map_eq_some_iff.1 hs
        exact Or.inr ⟨_, id, hu⟩
      · cases hs
    · cases hs
  | drop t =>
    simp only [step] at hs
    split at hs
    · split at hs <;> cases hs <;> exact Or.inl rfl
    · cases hs
  | other a =>
    obtain ⟨u, hu, rfl⟩ := Option.map_eq_some_iff.1 hs
    exact Or.inr ⟨a, id, hu⟩

/-- The sources of a run of the tasks make a run of their own. -/
theorem sources_reach {p : State τ κ ε R W × Record τ W}
    (h : recorded.Reach (fun _ a => a.Succeeds) p) :
    Sources.system.Reach (fun _ a => a.Succeeds) p.1.sources := by
  refine h.map (f := fun p => p.1.sources) (fun p hp => ?_) fun p a p' _ ha hs => ?_
  · rw [show p.1 = init from hp.1]
    exact rfl
  · refine (step_sources (Lts.monitor_step hs).1).imp_right fun hb => ?_
    obtain ⟨b, hb, hstep⟩ := hb
    exact ⟨b, hb ha, hstep⟩

/-- The waker of a pending task has been called since, or is in one of two lists. -/
theorem pending_cases {p : State τ κ ε R W × Record τ W}
    (h : recorded.Reach (fun _ a => a.Succeeds) p) {t : τ} {c : Call κ ε R W} {cx : W}
    (hc : p.1.calls t = some c) (hcx : c.place = .pending cx) {src : Source W}
    (hsrc : Registered p.1.sources c.source src) :
    cx ∈ p.2.woken.drop (p.2.heard t) ∨
      (cx ∈ p.1.sources.wakers ∧ p.1.sources.reacting ≠ .idle) ∨
      cx ∈ (src.states c.op).wakers := by
  have hinv := waits_reach h
  obtain ⟨l₁, l₂, hl, hw⟩ := hinv.waits t c cx hc hcx
  by_cases hm : .moved c.source c.op cx ∈ l₂
  · rcases hw hm with hmem | hmem
    · refine Or.inr (Or.inl ⟨hmem, fun hr => ?_⟩)
      rw [hinv.idle hr] at hmem
      cases hmem
    · exact Or.inl hmem
  · exact Or.inr (Or.inr
      ((kept_reach (sources_reach h)).kept c.source src hsrc c.op cx ⟨l₁, l₂, hl, hm⟩))

/-- **A pending task is woken or waits.** As long as the calls of `interest` succeed: if the last
    poll of a call is pending and its source is registered, then `react` has called its waker
    since, or has it in its list and is about to, or the waker is stored and the descriptor is
    armed for the direction or an event for it is in the batch. -/
theorem pending_waits {p : State τ κ ε R W × Record τ W}
    (h : recorded.Reach (fun _ a => a.Succeeds) p) {t : τ} {c : Call κ ε R W} {cx : W}
    (hc : p.1.calls t = some c) (hcx : c.place = .pending cx) {src : Source W}
    (hsrc : Registered p.1.sources c.source src) :
    cx ∈ p.2.woken.drop (p.2.heard t) ∨
      (cx ∈ p.1.sources.wakers ∧ p.1.sources.reacting ≠ .idle) ∨
      cx ∈ (src.states c.op).wakers ∧
        (Armed p.1.sources src c.op ∨ Reported p.1.sources src) := by
  have harmed := armed_reach (sources_reach h) c.source src hsrc c.op
  exact (pending_cases h hc hcx hsrc).imp_right fun hcases =>
    hcases.imp_right fun hmem => ⟨hmem, harmed (List.ne_nil_of_mem hmem)⟩

/-- The task of `readTwice` waits for the first time. -/
theorem pending_waits_read : ∃ (p : State (Fin 2) (Fin 1) Unit ℕ ℕ × Record (Fin 2) ℕ)
    (c : Call (Fin 1) Unit ℕ ℕ) (src : Source ℕ),
    recorded.run (init, .new) (readTwice.take 6) = some p ∧ p.1.calls 0 = some c ∧
      c.place = .pending 7 ∧ Registered p.1.sources c.source src ∧ p.2.woken = [] ∧
      (Armed p.1.sources src c.op ∨ Reported p.1.sources src) := by
  have hm : recorded.Meets (fun _ a => a.Succeeds)
      ((init, .new) : State (Fin 2) (Fin 1) Unit ℕ ℕ × Record (Fin 2) ℕ) (readTwice.take 6) := by
    decide +kernel
  have hinit : recorded.init ((init, .new) : State (Fin 2) (Fin 1) Unit ℕ ℕ × Record (Fin 2) ℕ) :=
    ⟨rfl, rfl⟩
  refine ⟨_, _, _, rfl, rfl, rfl, ⟨rfl, rfl⟩, rfl, ?_⟩
  have hcases := pending_waits (.run (.init hinit) hm rfl) (t := 0) rfl rfl ⟨rfl, rfl⟩
  rcases hcases with hmem | ⟨hmem, -⟩ | ⟨-, harmed⟩
  · cases hmem
  · cases hmem
  · exact harmed

end Record
end Awak.AsyncIo
