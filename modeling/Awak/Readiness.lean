/-
  `Source::poll_ready` of `io/reactor.rs`, its answers and the ticks it remembers.

  `Source.pollReady` is the function with its answer and its call of `interest`, whose
  result is a parameter; `pollReady_eq` says that it is the step of `Sources`.

  * `failed_registration`: a call whose `interest` fails has stored its waker and its
    ticks, so that no later call of the direction registers it;
  * `Watch`: the calls of `react` by number, the deliveries they make to each source and
    the recordings of `poll_ready`, without reference to ticks;
  * `ticks_exact`: the comparison of ticks decides whether another call of `react`
    has delivered an event since the recording.
-/
import Awak.Lib.Pipe
import Awak.Sources

namespace Awak.Sources

variable {κ W ε : Type}

/-- A new tick since the waker was stored. -/
def Dir.ready (d : Dir W) : Bool := d.ticks.any fun (a, b) => d.tick ≠ a && d.tick ≠ b

/-- What a call of `poll_ready` returns, leaves behind, and asks of the poller. -/
structure PollReady (ε W : Type) where
  answer : Poll (Except ε Unit)
  source : Source W
  /-- the flags of its call of `interest` -/
  interest : Option (Op → Bool)

section PollReady
variable [DecidableEq W]

/-- `Source::poll_ready`; `res` is the result of its call of `interest`. -/
def Source.pollReady (src : Source W) (ticker : ℕ) (op : Op) (waker : W) (res : Except ε Unit) :
    PollReady ε W :=
  let d := src.states op
  if d.ready then ⟨.ready (.ok ()), src.setDir op { d with ticks := none }, none⟩
  else
    let src := src.setDir op (d.store ticker waker)
    if d.wakers.isEmpty then
      match res with
      | .ok _ => ⟨.pending, src, some src.interest⟩
      | .error e => ⟨.ready (.error e), src, some src.interest⟩
    else ⟨.pending, src, none⟩

section Cases
variable {src : Source W} {ticker : ℕ} {op : Op} {w : W} {res : Except ε Unit}

theorem pollReady_of_ready (hr : (src.states op).ready = true) :
    src.pollReady ticker op w res =
      ⟨.ready (.ok ()), src.setDir op { src.states op with ticks := none }, none⟩ :=
  if_pos hr

theorem pollReady_of_waiting (hr : (src.states op).ready = false)
    (hw : (src.states op).wakers ≠ []) :
    src.pollReady ticker op w res =
      ⟨.pending, src.setDir op ((src.states op).store ticker w), none⟩ := by
  unfold Source.pollReady
  rw [if_neg (by simp [hr]), if_neg (by simpa using hw)]

theorem pollReady_of_first (hr : (src.states op).ready = false)
    (hw : (src.states op).wakers = []) :
    src.pollReady ticker op w res =
      let src := src.setDir op ((src.states op).store ticker w)
      match res with
      | .ok _ => ⟨.pending, src, some src.interest⟩
      | .error e => ⟨.ready (.error e), src, some src.interest⟩ := by
  unfold Source.pollReady
  rw [if_neg (by simp [hr]), if_pos (by simp [hw])]

theorem pollReady_ready :
    (src.pollReady ticker op w res).answer = .ready (.ok ()) ↔ (src.states op).ready = true := by
  by_cases hr : (src.states op).ready = true
  · rw [pollReady_of_ready hr]
    simp [hr]
  · refine iff_of_false ?_ hr
    rw [Bool.not_eq_true] at hr
    by_cases hw : (src.states op).wakers = []
    · rw [pollReady_of_first hr hw]
      cases res <;> simp
    · rw [pollReady_of_waiting hr hw]
      simp

/-- What is left of the source: the recording is used up, or the waker is stored. -/
theorem pollReady_source :
    (src.pollReady ticker op w res).source = src.setDir op
      (if (src.states op).ready then { src.states op with ticks := none }
      else (src.states op).store ticker w) := by
  by_cases hr : (src.states op).ready = true
  · rw [pollReady_of_ready hr, if_pos hr]
  · rw [if_neg hr]
    rw [Bool.not_eq_true] at hr
    by_cases hw : (src.states op).wakers = []
    · rw [pollReady_of_first hr hw]
      cases res <;> rfl
    · rw [pollReady_of_waiting hr hw]

theorem pollReady_raw : (src.pollReady ticker op w res).source.raw = src.raw := by
  rw [pollReady_source]; rfl

theorem pollReady_key : (src.pollReady ticker op w res).source.key = src.key := by
  rw [pollReady_source]; rfl

theorem pollReady_other {op' : Op} (h : op' ≠ op) :
    (src.pollReady ticker op w res).source.states op' = src.states op' := by
  rw [pollReady_source]
  simp [Source.setDir, h]

theorem pollReady_dir :
    (src.pollReady ticker op w res).source.states op =
      if (src.states op).ready then { src.states op with ticks := none }
      else (src.states op).store ticker w := by
  rw [pollReady_source]
  simp [Source.setDir]

end Cases

/-- The step of a task that polls: the source is updated, and the poller is called. -/
theorem pollReady_eq [DecidableEq κ] (s : State κ W) (x : κ) (src : Source W) (op : Op) (w : W)
    (ok : Bool) :
    s.pollReady x src op w ok =
      let p := src.pollReady s.ticker op w (if ok then .ok () else .error ())
      let s' := s.setSource x p.source
      let s' := if p.answer = .pending then { s' with log := s'.log ++ [.pending x op w] } else s'
      match p.interest, ok with
      | some flags, true => s'.interest src.raw src.key flags
      | _, _ => some s' := by
  unfold State.pollReady
  by_cases hr : (src.states op).ready = true
  · rw [pollReady_of_ready hr]
    exact if_pos hr
  · refine (if_neg hr).trans ?_
    rw [Bool.not_eq_true] at hr
    by_cases hw : (src.states op).wakers = []
    · rw [pollReady_of_first hr hw]
      refine (if_pos (by simp [hw])).trans ?_
      cases ok <;> rfl
    · rw [pollReady_of_waiting hr hw]
      refine (if_neg (by simpa using hw)).trans ?_
      cases ok <;> rfl

/-! ## A failed registration -/

/-- What may happen to a source: a call of `poll_ready`, or an event. -/
inductive Touch (W : Type) where
  | poll (op : Op) (waker : W) (ticker : ℕ) (ok : Bool)
  | event (tick : ℕ) (ev : Event)

/-- What a poll or an event does to a source. -/
def Source.touch (src : Source W) : Touch W → Source W
  | .poll op waker ticker ok =>
    (src.pollReady ticker op waker (if ok then .ok () else .error ())).source
  | .event tick ev => src.drained tick ev

/-- What a failed registration should do: leave the states as they were, so that the next call
    for the direction that has to wait calls `interest` again, whatever happens to the source
    until then. -/
def Restores (src : Source W) (ticker : ℕ) (op : Op) (waker : W) (res : Except ε Unit) : Prop :=
  ∀ e, (src.pollReady ticker op waker res).answer = .ready (.error e) →
    (src.pollReady ticker op waker res).source.states = src.states ∧
    ∀ later : List (Touch W), (∀ w t ok, .poll op w t ok ∉ later) →
      ∀ ticker' waker' (res' : Except ε Unit),
        let src' := later.foldl Source.touch (src.pollReady ticker op waker res).source
        (src'.states op).ready = false → (src'.pollReady ticker' op waker' res').interest ≠ none

section Failed
variable {src : Source W} {ticker : ℕ} {op : Op} {w : W} {res : Except ε Unit} {e : ε}

/-- An error comes from the `interest` of the first waker. -/
theorem pollReady_error : (src.pollReady ticker op w res).answer = .ready (.error e) ↔
    (src.states op).ready = false ∧ (src.states op).wakers = [] ∧ res = .error e := by
  by_cases hr : (src.states op).ready = true
  · rw [pollReady_of_ready hr]
    simp [hr]
  rw [Bool.not_eq_true] at hr
  by_cases hw : (src.states op).wakers = []
  · rw [pollReady_of_first hr hw]
    cases res <;> simp [hr, hw]
  · rw [pollReady_of_waiting hr hw]
    simp [hw]

/-- The waker is stored before `interest` is called. -/
theorem wakers_of_error (he : (src.pollReady ticker op w res).answer = .ready (.error e)) :
    ((src.pollReady ticker op w res).source.states op).wakers = [w] := by
  obtain ⟨hr, hw, rfl⟩ := pollReady_error.1 he
  rw [pollReady_of_first hr hw]
  simp [Source.setDir, Dir.store, hw]

theorem not_restores (he : (src.pollReady ticker op w res).answer = .ready (.error e)) :
    ¬ Restores src ticker op w res := by
  intro h
  have hstored := wakers_of_error he
  rw [(h e he).1, (pollReady_error.1 he).2.1] at hstored
  cases hstored

end Failed

/-- **A failed registration** leaves the source as it was only if there is none: the call
    answers from the stored ticks, another task waits for the direction already, or `interest`
    succeeds.  Otherwise the next call that has to wait waits for nothing. -/
theorem failed_registration (src : Source W) (ticker : ℕ) (op : Op) (waker : W)
    (res : Except ε Unit) :
    (Restores src ticker op waker res ↔
      (src.states op).ready = true ∨ (src.states op).wakers ≠ [] ∨ res = .ok ()) ∧
    ∀ e, (src.pollReady ticker op waker res).answer = .ready (.error e) →
      ∀ ticker' waker' (res' : Except ε Unit),
        let src' := (src.pollReady ticker op waker res).source
        (src'.states op).ready = false →
          (src'.pollReady ticker' op waker' res').answer = .pending ∧
          (src'.pollReady ticker' op waker' res').interest = none := by
  refine ⟨⟨fun h => ?_, fun hc e he => ?_⟩, fun e he ticker' waker' res' hr => ?_⟩
  · by_contra hc
    push Not at hc
    obtain ⟨hr, hw, hres⟩ := hc
    cases res with
    | ok u => exact hres rfl
    | error e => exact not_restores (pollReady_error.2 ⟨Bool.eq_false_iff.2 hr, hw, rfl⟩) h
  · obtain ⟨hr, hw, rfl⟩ := pollReady_error.1 he
    rcases hc with hc | hc | hc
    · rw [hc] at hr; cases hr
    · exact absurd hw hc
    · cases hc
  · have hw : ((src.pollReady ticker op waker res).source.states op).wakers ≠ [] := by
      rw [wakers_of_error he]; simp
    rw [pollReady_of_waiting hr hw]
    exact ⟨rfl, rfl⟩

/-- A new source, polled by two tasks; the `interest` of the first one fails. -/
def secondWaits : List (Act ℕ ℕ) :=
  [.pollerInsert 5, .insertIo 0 5 0, .pollReady 0 .read 1 false, .pollReady 0 .read 2 true]

/-- The second task waits for a descriptor that is not armed for reading. -/
theorem failed_registration_hangs :
    (¬ ∀ src : Source ℕ, Restores src 0 .read 1 (.error () : Except Unit Unit)) ∧
    ∃ s : State ℕ ℕ, system.run init secondWaits = some s ∧ .pending 0 .read 2 ∈ s.log ∧
      (s.epoll 5).any (fun reg => reg.flags .read) = false := by
  refine ⟨fun h => ?_, Lts.exists_run (by decide +kernel)⟩
  have he : ((⟨5, 0, fun _ => ⟨[], 0, none⟩⟩ : Source ℕ).pollReady 0 .read 1
      (.error () : Except Unit Unit)).answer = .ready (.error ()) := rfl
  exact not_restores he (h _)

end PollReady

/-! ## Readiness without ticks -/

/-- A recording of `poll_ready`: the call of `react` that made the last delivery before it,
    and those that have delivered since. -/
structure Mark where
  id : ℕ
  before : Option ℕ
  since : List ℕ

/-- Another call than the one before the recording has delivered. -/
def Mark.ready (m : Mark) : Bool := m.since.any fun c => some c ≠ m.before

/-- The calls of `react` and what they have delivered. -/
structure Watch (κ : Type) where
  /-- the calls of `react` so far -/
  calls : ℕ
  /-- the call that made the last delivery -/
  last : κ → Op → Option ℕ
  mark : κ → Op → Option Mark
  /-- the number of recordings so far -/
  count : κ → Op → ℕ
  /-- the recordings that were answered with `Ready` -/
  used : κ → Op → List ℕ

/-- Nothing has been polled or delivered. -/
def Watch.new : Watch κ := ⟨0, fun _ _ => none, fun _ _ => none, fun _ _ => 0, fun _ _ => []⟩

section Watch
variable [DecidableEq κ]

/-- Set a value for one direction of a source. -/
def put {β : Type} (f : κ → Op → β) (x : κ) (op : Op) (b : β) : κ → Op → β :=
  fun y op' => if y = x ∧ op' = op then b else f y op'

/-- A call of `poll_ready`: it uses up the recording if that is ready, and makes one if there is
    none. -/
def Watch.poll (g : Watch κ) (x : κ) (op : Op) : Watch κ :=
  match g.mark x op with
  | some m =>
    if m.ready then
      { g with mark := put g.mark x op none, used := put g.used x op (m.id :: g.used x op) }
    else g
  | none => { g with
      mark := put g.mark x op (some ⟨g.count x op, g.last x op, []⟩)
      count := put g.count x op (g.count x op + 1) }

/-- The current call of `react` delivers an event. -/
def Watch.deliver (g : Watch κ) (x : κ) (ready : Op → Bool) : Watch κ :=
  { g with
    last := fun y op => if y = x ∧ ready op = true then some g.calls else g.last y op
    mark := fun y op =>
      if y = x ∧ ready op = true then
        (g.mark y op).map fun m => { m with since := m.since ++ [g.calls] }
      else g.mark y op }

/-- Polls set and answer the marks, and events are delivered with the number of the call of
    `react`. -/
def Watch.record (g : Watch κ) (s : State κ W) : Act κ W → Watch κ
  | .react _ => { g with calls := g.calls + 1 }
  | .pollReady x op _ _ => g.poll x op
  | .process _ =>
    match s.batch with
    | ev :: _ =>
      match s.slab ev.key with
      | some x => g.deliver x ev.ready
      | none => g
    | [] => g
  | _ => g

/-- The sources, watched. -/
def watched [DecidableEq W] : Lts (State κ W × Watch κ) (Act κ W) :=
  system.monitor .new .record

end Watch

/-! ### The ticks and the calls agree -/

/-- The tick of a direction, by the call that made the last delivery. -/
def tickOf (last : Option ℕ) : ℕ := last.elim 0 (· + 1)

/-- The pair of ticks of a recording, when `ticker` calls have begun to wait. -/
structure Recorded (ticker a b : ℕ) (m : Mark) (last : Option ℕ) : Prop where
  le : a ≤ ticker
  before : b = tickOf m.before
  old : ∀ c ∈ m.before, c ≤ a
  since : ∀ c ∈ m.since, a ≤ c ∧ c ≤ ticker
  sorted : m.since.Pairwise (· ≤ ·)
  last : last = m.since.getLast?.or m.before

/-- One direction of a source and what was watched of it. -/
structure Agrees (ticker : ℕ) (d : Dir W) (last : Option ℕ) (mark : Option Mark) : Prop where
  tick : d.tick = tickOf last
  le : ∀ c ∈ last, c ≤ ticker
  unmarked : d.ticks = none ↔ mark = none
  marked : ∀ a b m, d.ticks = some (a, b) → mark = some m → Recorded ticker a b m last

/-- **The comparison of ticks**: the tick differs from both remembered ones if and only if
    another call has delivered since. -/
theorem Recorded.ready_iff {ticker a b : ℕ} {m : Mark} {last : Option ℕ}
    (h : Recorded ticker a b m last) :
    (tickOf last ≠ a ∧ tickOf last ≠ b) ↔ m.ready = true := by
  unfold Mark.ready
  rw [List.any_eq_true, h.before, h.last]
  rcases m.since.eq_nil_or_concat' with hs | ⟨rest, c, hs⟩
  · simp [hs]
  have hc := h.since c (by simp [hs])
  rw [hs, List.getLast?_concat, Option.some_or]
  show (c + 1 ≠ a ∧ c + 1 ≠ tickOf m.before) ↔ _
  constructor
  · rintro ⟨-, hne⟩
    refine ⟨c, by simp, decide_eq_true ?_⟩
    intro he
    rw [← he] at hne
    exact hne rfl
  · rintro ⟨c', hc', hne⟩
    refine ⟨by omega, fun he => of_decide_eq_true hne ?_⟩
    -- the last call is the one before, and the calls in between are the same
    obtain ⟨c₀, hb, hc₀⟩ : ∃ c₀, m.before = some c₀ ∧ c₀ = c := by
      cases hb : m.before with
      | none => rw [hb] at he; cases he
      | some c₀ =>
        rw [hb] at he
        exact ⟨c₀, rfl, by simpa [tickOf] using he.symm⟩
    have hold := h.old c₀ hb
    have hge := (h.since c' (hs ▸ hc')).1
    have hle : c' ≤ c := by
      have hsorted := h.sorted
      rw [hs, List.pairwise_append] at hsorted
      rcases List.mem_append.1 hc' with hmem | hmem
      · exact hsorted.2.2 c' hmem c (List.mem_singleton_self c)
      · exact (List.mem_singleton.1 hmem).le
    rw [hb]
    congr 1
    omega

theorem Agrees.ready_iff {ticker : ℕ} {d : Dir W} {last : Option ℕ} {mark : Option Mark}
    (h : Agrees ticker d last mark) : d.ready = true ↔ ∃ m, mark = some m ∧ m.ready = true := by
  unfold Dir.ready
  cases ht : d.ticks with
  | none =>
    have hm := h.unmarked.1 ht
    simp [hm]
  | some ab =>
    obtain ⟨a, b⟩ := ab
    cases hm : mark with
    | none => rw [h.unmarked.2 hm] at ht; cases ht
    | some m =>
      have := (h.marked a b m ht hm).ready_iff
      rw [← h.tick] at this
      simpa using this

/-! ### Every step keeps the agreement -/

theorem Agrees.mono {T T' : ℕ} {d : Dir W} {last : Option ℕ} {mark : Option Mark}
    (h : Agrees T d last mark) (hT : T ≤ T') : Agrees T' d last mark where
  tick := h.tick
  le c hc := (h.le c hc).trans hT
  unmarked := h.unmarked
  marked a b m ht hm := by
    have hr := h.marked a b m ht hm
    exact { hr with
      le := hr.le.trans hT
      since := fun c hc => ⟨(hr.since c hc).1, (hr.since c hc).2.trans hT⟩ }

theorem agrees_new {T : ℕ} : Agrees T (⟨[], 0, none⟩ : Dir W) none none where
  tick := rfl
  le c hc := by cases hc
  unmarked := iff_of_true rfl rfl
  marked a b m ht _ := by cases ht

/-- The current call, whose number is the ticker, delivers an event. -/
theorem Agrees.deliver {T : ℕ} {d : Dir W} {last : Option ℕ} {mark : Option Mark}
    (h : Agrees T d last mark) :
    Agrees T ({ d with wakers := [], tick := T + 1 } : Dir W) (some T)
      (mark.map fun m => { m with since := m.since ++ [T] }) where
  tick := rfl
  le c hc := by cases hc; exact le_refl T
  unmarked := by rw [Option.map_eq_none_iff]; exact h.unmarked
  marked a b m' ht hm' := by
    obtain ⟨m, hm, rfl⟩ := Option.map_eq_some_iff.1 hm'
    have hr := h.marked a b m ht hm
    refine { hr with since := fun c hc => ?_, sorted := ?_, last := ?_ }
    · rcases List.mem_append.1 hc with hc | hc
      · exact hr.since c hc
      · rw [List.mem_singleton.1 hc]; exact ⟨hr.le, le_refl T⟩
    · refine List.pairwise_append.2 ⟨hr.sorted, List.pairwise_singleton _ _, ?_⟩
      intro c hc c' hc'
      rw [List.mem_singleton.1 hc']; exact (hr.since c hc).2
    · simp

/-- A recording that is not there yet is made, and one that is there is kept. -/
theorem Agrees.store [DecidableEq W] {T : ℕ} {d : Dir W} {last : Option ℕ} {mark : Option Mark}
    (h : Agrees T d last mark) (w : W) (id : ℕ) :
    Agrees T (d.store T w) last (mark.or (some ⟨id, last, []⟩)) := by
  cases ht : d.ticks with
  | none =>
    have hm := h.unmarked.1 ht
    refine ⟨h.tick, h.le, ?_, fun a b m hab hm' => ?_⟩
    · simp [Dir.store, ht]
    · simp only [hm, Option.none_or, Option.some.injEq] at hm'
      simp only [Dir.store, ht, Option.isNone_none, if_true, Option.some.injEq, Prod.mk.injEq] at hab
      obtain ⟨rfl, rfl⟩ := hab
      subst hm'
      exact ⟨le_refl _, h.tick, h.le, by simp, List.Pairwise.nil, by simp⟩
  | some ab =>
    have hstore : (d.store T w).ticks = d.ticks := by simp [Dir.store, ht]
    obtain ⟨m, hm⟩ : ∃ m, mark = some m := by
      cases hm : mark with
      | none => rw [h.unmarked.2 hm] at ht; cases ht
      | some m => exact ⟨m, rfl⟩
    rw [hm, Option.some_or, ← hm]
    exact ⟨h.tick, h.le, by rw [hstore]; exact h.unmarked, by rw [hstore]; exact h.marked⟩

/-- `poll_ready` answers `Ready`: the recording is used up. -/
theorem Agrees.clear {T : ℕ} {d : Dir W} {last : Option ℕ} {mark : Option Mark}
    (h : Agrees T d last mark) : Agrees T { d with ticks := none } last none :=
  ⟨h.tick, h.le, iff_of_true rfl rfl, fun a b m ht _ => by cases ht⟩

/-- Each recording has its own number and is answered at most once. -/
structure Once (mark : Option Mark) (count : ℕ) (used : List ℕ) : Prop where
  nodup : used.Nodup
  old : ∀ i ∈ used, i < count
  mark : ∀ m, mark = some m → m.id < count ∧ m.id ∉ used

/-- The invariant: the ticks that a source stores are those of the monitor. -/
structure Seen (p : State κ W × Watch κ) : Prop where
  calls : p.2.calls = p.1.ticker + if p.1.reacting = .bump then 1 else 0
  waiting : ∀ t, p.1.reacting = .wait t ∨ p.1.reacting = .batch t ∨ p.1.reacting = .loop t →
    t = p.1.ticker
  fresh : ∀ x op, p.1.source x = none → p.2.last x op = none ∧ p.2.mark x op = none
  dirs : ∀ x src op, p.1.source x = some src →
    Agrees p.1.ticker (src.states op) (p.2.last x op) (p.2.mark x op)
  once : ∀ x op, Once (p.2.mark x op) (p.2.count x op) (p.2.used x op)

theorem seen_init : Seen ((init, .new) : State κ W × Watch κ) where
  calls := rfl
  waiting t ht := by simp [init] at ht
  fresh _ _ _ := ⟨rfl, rfl⟩
  dirs x src op hx := by cases hx
  once _ _ := ⟨List.nodup_nil, by simp [Watch.new], by simp [Watch.new]⟩

/-- A step that leaves the ticker and the sources alone. -/
theorem Seen.frame {s s' : State κ W} {g : Watch κ} (h : Seen (s, g)) (ht : s'.ticker = s.ticker)
    (hs : s'.source = s.source) (hb : s.reacting = .bump ↔ s'.reacting = .bump)
    (hw : ∀ t, s'.reacting = .wait t ∨ s'.reacting = .batch t ∨ s'.reacting = .loop t →
      s.reacting = .wait t ∨ s.reacting = .batch t ∨ s.reacting = .loop t) : Seen (s', g) where
  calls := by
    have := h.calls
    simp only [hb] at this
    rw [ht]; exact this
  waiting t hr := by rw [ht]; exact h.waiting t (hw t hr)
  fresh x op hx := h.fresh x op (hs ▸ hx)
  dirs x src op hx := by rw [ht]; exact h.dirs x src op (hs ▸ hx)
  once := h.once

section Steps
variable [DecidableEq κ]

theorem put_self {β : Type} (f : κ → Op → β) (x : κ) (op : Op) (b : β) : put f x op b x op = b :=
  if_pos ⟨rfl, rfl⟩

theorem put_of_ne {β : Type} {f : κ → Op → β} {x y : κ} {op op' : Op} {b : β}
    (h : ¬ (y = x ∧ op' = op)) : put f x op b y op' = f y op' :=
  if_neg h

/-- A poll of another direction. -/
theorem poll_of_ne {g : Watch κ} {x y : κ} {op op' : Op} (h : ¬ (y = x ∧ op' = op)) :
    (g.poll x op).last y op' = g.last y op' ∧ (g.poll x op).mark y op' = g.mark y op' ∧
      (g.poll x op).count y op' = g.count y op' ∧ (g.poll x op).used y op' = g.used y op' := by
  unfold Watch.poll
  split
  · split_ifs
    · exact ⟨rfl, put_of_ne h, rfl, put_of_ne h⟩
    · exact ⟨rfl, rfl, rfl, rfl⟩
  · exact ⟨rfl, put_of_ne h, put_of_ne h, rfl⟩

theorem poll_last (g : Watch κ) (x : κ) (op : Op) :
    (g.poll x op).last = g.last ∧ (g.poll x op).calls = g.calls := by
  unfold Watch.poll
  split
  · split_ifs <;> exact ⟨rfl, rfl⟩
  · exact ⟨rfl, rfl⟩

theorem Once.poll {g : Watch κ} {x : κ} {op : Op}
    (h : Once (g.mark x op) (g.count x op) (g.used x op)) :
    Once ((g.poll x op).mark x op) ((g.poll x op).count x op) ((g.poll x op).used x op) := by
  unfold Watch.poll
  split
  next m hm =>
    obtain ⟨hlt, hnot⟩ := h.mark m hm
    split_ifs
    · simp only [put_self]
      refine ⟨List.nodup_cons.2 ⟨hnot, h.nodup⟩, fun i hi => ?_, fun m' hm' => by cases hm'⟩
      rcases List.mem_cons.1 hi with rfl | hi
      · exact hlt
      · exact h.old i hi
    · exact h
  next hm =>
    simp only [put_self]
    refine ⟨h.nodup, fun i hi => (h.old i hi).trans (Nat.lt_succ_self _), fun m' hm' => ?_⟩
    cases hm'
    exact ⟨Nat.lt_succ_self _, fun hi => (h.old _ hi).ne rfl⟩

/-- The source `x` changes to `src'`, and its interest may be renewed. -/
structure Updates (s s' : State κ W) (x : κ) (src' : Source W) : Prop where
  source : s'.source = Function.update s.source x (some src')
  ticker : s'.ticker = s.ticker
  slab : s'.slab = s.slab
  adding : s'.adding = s.adding
  removed : s'.removed = s.removed
  epoll : s'.epoll = s.epoll ∨
    ∃ flags, s'.epoll = Function.update s.epoll src'.raw (some ⟨true, flags, src'.key⟩)

theorem updates_pollReady [DecidableEq W] {s s' : State κ W} {x : κ} {src : Source W} {op : Op}
    {w : W} {ok : Bool} (hs : s.pollReady x src op w ok = some s') :
    ∃ res : Except Unit Unit, Updates s s' x (src.pollReady s.ticker op w res).source ∧
      s'.reacting = s.reacting ∧ s'.batch = s.batch := by
  rw [pollReady_eq] at hs
  refine ⟨if ok then .ok () else .error (), ?_⟩
  dsimp only at hs
  split at hs
  next _ _ flags _ =>
    rw [interest_some hs]
    split_ifs <;> refine ⟨⟨rfl, rfl, rfl, rfl, rfl, Or.inr ⟨flags, ?_⟩⟩, rfl, rfl⟩ <;>
      (rw [pollReady_raw, pollReady_key]; rfl)
  · cases hs
    split_ifs <;> exact ⟨⟨rfl, rfl, rfl, rfl, rfl, Or.inl rfl⟩, rfl, rfl⟩

/-- Processing an event updates the source found under its key; `react` goes on or returns. -/
theorem updates_process {s s' : State κ W} {ok : Bool} (hs : s.process ok = some s') :
    ∃ tick ev rest, s.reacting = .loop tick ∧ s.batch = ev :: rest ∧
      (∀ e ∈ s'.batch, e ∈ rest) ∧ (s'.reacting = s.reacting ∨ s'.reacting = .idle) ∧
      ((s.slab ev.key = none ∧ s' = { s with batch := rest }) ∨
      ∃ x src, s.slab ev.key = some x ∧ s.source x = some src ∧
        Updates s s' x (src.drained tick ev)) := by
  obtain ⟨tick, ev, rest, hr, hb, hcase⟩ := process_cases hs
  refine ⟨tick, ev, rest, hr, hb, ?_⟩
  rcases hcase with ⟨hk, rfl⟩ | ⟨x, src, hk, hx, ⟨-, rfl⟩ | ⟨-, hs⟩ | ⟨-, -, rfl⟩⟩
  · exact ⟨fun _ => id, Or.inl rfl, Or.inl ⟨hk, rfl⟩⟩
  · exact ⟨fun _ => id, Or.inl rfl, Or.inr ⟨x, src, hk, hx, rfl, rfl, rfl, rfl, rfl, Or.inl rfl⟩⟩
  · rw [interest_some hs]
    exact ⟨fun _ => id, Or.inl rfl, Or.inr ⟨x, src, hk, hx, rfl, rfl, rfl, rfl, rfl, Or.inr ⟨_, rfl⟩⟩⟩
  · exact ⟨by simp, Or.inr rfl, Or.inr ⟨x, src, hk, hx, rfl, rfl, rfl, rfl, rfl, Or.inl rfl⟩⟩

/-- The two sides of a call of `poll_ready`. -/
theorem Agrees.poll [DecidableEq W] {g : Watch κ} {x : κ} {op : Op} {T : ℕ} {src : Source W} {w : W}
    {res : Except ε Unit} (h : Agrees T (src.states op) (g.last x op) (g.mark x op)) :
    Agrees T ((src.pollReady T op w res).source.states op) ((g.poll x op).last x op)
      ((g.poll x op).mark x op) := by
  rw [pollReady_dir, (poll_last g x op).1]
  unfold Watch.poll
  cases hm : g.mark x op with
  | none =>
    have hr : ¬ (src.states op).ready = true := by
      rw [h.ready_iff]
      rintro ⟨m, hm', -⟩
      rw [hm] at hm'; cases hm'
    have hstore := h.store w (g.count x op)
    rw [hm, Option.none_or] at hstore
    rw [if_neg hr]
    simp only [put_self]
    exact hstore
  | some m =>
    have hiff : (src.states op).ready = true ↔ m.ready = true := by
      rw [h.ready_iff, hm]
      simp
    by_cases hr : m.ready = true
    · simp only [hr, if_true, hiff.2 hr, put_self]
      exact h.clear
    · have hstore := h.store w 0
      rw [hm, Option.some_or, ← hm] at hstore
      rw [if_neg (hiff.not.2 hr)]
      simp only [if_neg hr]
      exact hstore

theorem Seen.poll [DecidableEq W] {s s' : State κ W} {g : Watch κ} (h : Seen (s, g)) {x : κ}
    {src : Source W} (hx : s.source x = some src) {op : Op} {w : W} {ok : Bool}
    (hs : s.pollReady x src op w ok = some s') : Seen (s', g.poll x op) := by
  obtain ⟨res, hu, hr, -⟩ := updates_pollReady hs
  have hsrc := hu.source
  have ht := hu.ticker
  refine ⟨?_, ?_, fun y op' hy => ?_, fun y src' op' hy => ?_, fun y op' => ?_⟩
  · rw [(poll_last g x op).2, ht, hr]; exact h.calls
  · rw [ht, hr]; exact h.waiting
  · have hne : y ≠ x := by
      rintro rfl
      rw [hsrc, Function.update_self] at hy; cases hy
    rw [hsrc, Function.update_of_ne hne] at hy
    obtain ⟨hl, hm, -, -⟩ := poll_of_ne (g := g) (show ¬ (y = x ∧ op' = op) from fun hc => hne hc.1)
    rw [hl, hm]
    exact h.fresh y op' hy
  · rw [ht]
    dsimp only at hy
    by_cases hyx : y = x
    · subst hyx
      rw [hsrc, Function.update_self] at hy
      cases hy
      by_cases hop : op' = op
      · subst hop
        exact (h.dirs y src op' hx).poll
      · obtain ⟨hl, hm, -, -⟩ := poll_of_ne (g := g) (x := y) fun hc => hop hc.2
        rw [pollReady_other hop, hl, hm]
        exact h.dirs y src op' hx
    · rw [hsrc, Function.update_of_ne hyx] at hy
      obtain ⟨hl, hm, -, -⟩ := poll_of_ne (g := g) (show ¬ (y = x ∧ op' = op) from fun hc => hyx hc.1)
      rw [hl, hm]
      exact h.dirs y src' op' hy
  · by_cases hc : y = x ∧ op' = op
    · obtain ⟨rfl, rfl⟩ := hc
      exact (h.once y op').poll
    · obtain ⟨-, hm, hcount, hu⟩ := poll_of_ne (g := g) hc
      rw [hm, hcount, hu]
      exact h.once y op'

/-- An event is delivered to the source `x`; `react` goes on or returns. -/
theorem Seen.deliver {s s' : State κ W} {g : Watch κ} (h : Seen (s, g)) {x : κ} {src : Source W}
    (hx : s.source x = some src) {tick : ℕ} (hr : s.reacting = .loop tick) {ev : Event}
    (ht : s'.ticker = s.ticker) (hr' : s'.reacting = s.reacting ∨ s'.reacting = .idle)
    (hsrc : s'.source = Function.update s.source x (some (src.drained tick ev))) :
    Seen (s', g.deliver x ev.ready) := by
  have hT : tick = s.ticker := h.waiting tick (Or.inr (Or.inr hr))
  have hcalls : g.calls = s.ticker := by
    have := h.calls
    simpa [hr] using this
  refine ⟨?_, fun t hw => ?_, fun y op hy => ?_, fun y src' op hy => ?_, fun y op => ?_⟩
  · rw [ht]
    show g.calls = _
    rw [hcalls, if_neg]
    · rfl
    · rcases hr' with he | he <;> simp [he, hr]
  · rw [ht]
    rcases hr' with he | he
    · exact h.waiting t (by simpa [he] using hw)
    · simp [he] at hw
  · have hne : y ≠ x := by
      rintro rfl
      rw [hsrc, Function.update_self] at hy; cases hy
    rw [hsrc, Function.update_of_ne hne] at hy
    simp only [Watch.deliver, hne, false_and, if_false]
    exact h.fresh y op hy
  · rw [ht]
    dsimp only at hy
    by_cases hyx : y = x
    · subst hyx
      rw [hsrc, Function.update_self] at hy
      cases hy
      have hd := h.dirs y src op hx
      by_cases hop : ev.ready op = true
      · simp only [Source.drained, Watch.deliver, hop, and_self, if_true, hT, hcalls]
        exact hd.deliver
      · simp only [Source.drained, Watch.deliver, hop]
        exact hd
    · rw [hsrc, Function.update_of_ne hyx] at hy
      simp only [Watch.deliver, hyx, false_and, if_false]
      exact h.dirs y src' op hy
  · have ho := h.once y op
    refine ⟨ho.nodup, ho.old, fun m hm => ?_⟩
    simp only [Watch.deliver] at hm
    split_ifs at hm with hc
    · obtain ⟨m₀, hm₀, rfl⟩ := Option.map_eq_some_iff.1 hm
      exact ho.mark m₀ hm₀
    · exact ho.mark m hm

theorem Seen.process {s s' : State κ W} {g : Watch κ} (h : Seen (s, g)) {ok : Bool}
    (hs : s.process ok = some s') : Seen (s', g.record s (.process ok : Act κ W)) := by
  obtain ⟨tick, ev, rest, hr, hb, -, hr', ⟨hk, rfl⟩ | ⟨x, src, hk, hx, hu⟩⟩ := updates_process hs
  · simp only [Watch.record, hb, hk]
    exact h.frame rfl rfl Iff.rfl fun _ => id
  · simp only [Watch.record, hb, hk]
    exact h.deliver hx hr hu.ticker hr' hu.source

theorem Seen.insertIo {s : State κ W} {g : Watch κ} (h : Seen (s, g)) {x : κ} {raw key : ℕ}
    (hx : s.source x = none) : Seen (s.insertIo x raw key, g) := by
  refine ⟨h.calls, h.waiting, fun y op hy => ?_, fun y src op hy => ?_, h.once⟩
  · by_cases hyx : y = x
    · subst hyx; simp [State.insertIo, State.setSource] at hy
    · exact h.fresh y op (by simpa [State.insertIo, State.setSource, hyx] using hy)
  · by_cases hyx : y = x
    · subst hyx
      obtain ⟨hl, hm⟩ := h.fresh y op hx
      have hsrc : src = ⟨raw, key, fun _ => ⟨[], 0, none⟩⟩ := by
        simpa [State.insertIo, State.setSource] using hy.symm
      subst hsrc
      dsimp only at hl hm ⊢
      rw [hl, hm]
      exact agrees_new
    · exact h.dirs y src op (by simpa [State.insertIo, State.setSource, hyx] using hy)

omit [DecidableEq κ] in
/-- `ticker.fetch_add(1)`, after which the call of `react` has its number. -/
theorem Seen.bump {s : State κ W} {g : Watch κ} (h : Seen (s, g)) (hr : s.reacting = .bump)
    {round : Round κ W} :
    Seen ({ s with
      ticker := s.ticker + 1
      reacting := .wait (s.ticker + 1)
      round := round }, g) where
  calls := by
    have := h.calls
    simpa [hr] using this
  waiting t ht := by
    have he : s.ticker + 1 = t := by simpa using ht
    exact he.symm
  fresh := h.fresh
  dirs x src op hx := (h.dirs x src op hx).mono (Nat.le_succ _)
  once := h.once

omit [DecidableEq κ] in
theorem Seen.next {s s' : State κ W} {g : Watch κ} (h : Seen (s, g))
    (hs : s.reactStep = some s') : Seen (s', g) := by
  unfold State.reactStep at hs
  split at hs
  next hr => cases hs; exact h.bump hr
  next tick hr =>
    split_ifs at hs
    cases hs
    exact h.frame rfl rfl (by simp [hr]) (by simp [hr])
  next tick hr =>
    split at hs
    · cases hs; exact h.frame rfl rfl (by simp [hr]) (by simp)
    · cases hs
  next hr =>
    split at hs
    · cases hs; exact h.frame rfl rfl (by simp [hr]) (by simp)
    · cases hs; exact h.frame rfl rfl Iff.rfl fun _ => id
  next => cases hs
  next => cases hs

theorem Seen.step [DecidableEq W] {s s' : State κ W} {g : Watch κ} (h : Seen (s, g)) {a : Act κ W}
    (hs : step s a = some s') : Seen (s', g.record s a) := by
  cases step_cases hs with
  | pollerInsert => exact h.frame rfl rfl Iff.rfl fun _ => id
  | insertIo _ hx => exact h.insertIo hx
  | removeIo =>
    unfold State.removeIo
    dsimp only
    split <;> exact h.frame rfl rfl Iff.rfl fun _ => id
  | close => exact h.frame rfl rfl Iff.rfl fun _ => id
  | pollReady hx _ hs => exact h.poll hx hs
  | react hr =>
    have hcalls := h.calls
    refine ⟨?_, by simp, h.fresh, h.dirs, h.once⟩
    simpa [Watch.record, hr] using hcalls
  | next hs => exact h.next hs
  | waitEvents hr => exact h.frame rfl rfl (by simp [hr]) (by simp [hr])
  | waitEmpty hr => exact h.frame rfl rfl (by simp [hr]) (by simp)
  | process hs => exact h.process hs

theorem seen_reach [DecidableEq W] {p : State κ W × Watch κ} (h : watched.Reachable p) : Seen p := by
  refine h.inv (P := Seen) ?_ ?_
  · rintro ⟨s, g⟩ ⟨hs, hg⟩
    cases hs
    cases hg
    exact seen_init
  · rintro ⟨s, g⟩ a ⟨s', g'⟩ - hi - hs
    obtain ⟨hs, rfl⟩ := Lts.monitor_step hs
    exact hi.step hs

/-- **Readiness is exact**: `poll_ready` answers `Ready` if and only if an earlier call made a
    recording and a call of `react` other than the one that made the last delivery before it
    has delivered an event since.  Each recording is answered once, and no number compared
    exceeds the number of calls of `react` by more than one. -/
theorem ticks_exact [DecidableEq W] {p : State κ W × Watch κ} (h : watched.Reachable p) {x : κ}
    {src : Source W} (hx : p.1.source x = some src) (op : Op) :
    (∀ (waker : W) (res : Except ε Unit),
      (src.pollReady p.1.ticker op waker res).answer = .ready (.ok ()) ↔
        ∃ m, p.2.mark x op = some m ∧ ∃ c ∈ m.since, some c ≠ m.before) ∧
    (p.2.used x op).Nodup ∧
    (src.states op).tick ≤ p.2.calls + 1 ∧
    ∀ a b, (src.states op).ticks = some (a, b) → a ≤ p.2.calls ∧ b ≤ p.2.calls + 1 := by
  have hseen := seen_reach h
  have hd := hseen.dirs x src op hx
  have hcalls : p.1.ticker ≤ p.2.calls := by rw [hseen.calls]; omega
  have htick : ∀ last : Option ℕ, (∀ c ∈ last, c ≤ p.1.ticker) → tickOf last ≤ p.2.calls + 1 := by
    intro last hl
    cases last with
    | none => exact Nat.zero_le _
    | some c => exact Nat.succ_le_succ ((hl c rfl).trans hcalls)
  refine ⟨fun waker res => ?_, (hseen.once x op).nodup, ?_, fun a b hab => ?_⟩
  · rw [pollReady_ready, hd.ready_iff]
    simp [Mark.ready]
  · rw [hd.tick]; exact htick _ hd.le
  · cases hm : p.2.mark x op with
    | none => rw [hd.unmarked.2 hm] at hab; cases hab
    | some m =>
      have hr := hd.marked a b m hab hm
      refine ⟨hr.le.trans hcalls, ?_⟩
      rw [hr.before]
      exact htick _ fun c hc => (hr.old c hc).trans hr.le

end Steps

/-- A task begins to wait for a source while `react` waits, which then delivers. -/
def deliveredLate : List (Act ℕ ℕ) :=
  [.pollerInsert 5, .insertIo 0 5 0, .react [], .next, .pollReady 0 .read 7 true,
    .waitEvents [⟨5, 0, fun op => op = .read⟩], .next, .process true]

theorem ticks_exact_waiting : ∃ (p : State ℕ ℕ × Watch ℕ) (src : Source ℕ),
    watched.run (init, .new) deliveredLate = some p ∧ p.1.source 0 = some src ∧
      (src.states .read).ticks = some (1, 0) ∧
      (src.pollReady p.1.ticker .read 7 (.ok () : Except Unit Unit)).answer = .ready (.ok ()) := by
  have hrun : ∃ p : State ℕ ℕ × Watch ℕ, watched.run (init, .new) deliveredLate = some p ∧
      ((p.1.source 0).any fun src => decide ((src.states .read).ticks = some (1, 0))) = true ∧
      ((p.2.mark 0 .read).any fun m => decide (m.since = [1] ∧ m.before = none)) = true :=
    Lts.exists_run (by decide +kernel)
  obtain ⟨p, hp, hsrc, hmark⟩ := hrun
  obtain ⟨src, hx, ht⟩ := (Option.any_eq_true _ _).1 hsrc
  obtain ⟨m, hm, hsince⟩ := (Option.any_eq_true _ _).1 hmark
  obtain ⟨hs, hb⟩ := of_decide_eq_true hsince
  have hinit : watched.Reachable ((init, .new) : State ℕ ℕ × Watch ℕ) := .init ⟨rfl, rfl⟩
  have h := ticks_exact (ε := Unit) (hinit.run (Lts.meets_true _ deliveredLate) hp) hx .read
  refine ⟨p, src, hp, hx, of_decide_eq_true ht, (h.1 7 (.ok ())).2 ⟨m, hm, 1, ?_, ?_⟩⟩
  · simp [hs]
  · simp [hb]

end Awak.Sources
