/-
  `Interval` of `time/interval.rs`, and the part of a `Delay` that it needs.

  A tick is due at each of the times `start`, `start + period`, ...; `poll_tick`
  returns the next of them once it is past, and resets the delay to the one
  after it in the same call, so that the reactor has its timer before the next
  poll.  If the one after it is later than every `Instant`, it panics instead.

  * `Reactor.Lone`: no timer is set but the one of the `Timer`, which may be gone;
  * `Interval.due`: how many ticks are due at a time;
  * `interval_exact`: every poll that returns, returns the next tick exactly if one is
    due that has not been returned, so that ticks are neither lost nor moved, however
    late the polls are; and which polls panic;
  * `tick_registered`: what the reactor holds between two polls, and after the
    `Interval` is dropped.
-/
import Awak.IdleTimeout
import Awak.Lib.Object

namespace Awak

open History
open Reactor (Rely Guar)

variable {W : Type}

/-! ## Timers that are no longer needed -/

/-- `drop` of a `Timer`. -/
def Timer.drop (t : Timer W) : Prog (Reactor W) Unit :=
  if t.waker.isSome then Reactor.removeTimer t.deadline t.key else return

namespace Reactor

/-- No timer is set but the one of `t`. -/
def Lone (r : Reactor W) (t : Timer W) : Prop :=
  ∀ k w, (ofLex k).2 ∈ r.issued → r.agenda k = some w →
    k = toLex (t.deadline, t.key) ∧ t.waker = some w

variable {r r' : Reactor W} {t : Timer W} {E : Reactor W → Prop}

theorem Registered.lone (h : r.Registered t) : r.Lone t := h.only

theorem Clear.lone (h : r.Clear) : r.Lone t := by
  intro k w hk hw
  cases (h k hk).symm.trans hw

theorem Rely.lone (h : Rely r r') (hv : r.Valid) (hl : r.Lone t) : r'.Lone t := by
  intro k w hk hw
  rw [h.issued] at hk
  rcases h.agenda hv k hk with ha | ha
  · exact hl k w hk (ha.symm.trans hw)
  · cases ha.1.symm.trans hw

theorem Lone.clear (h : r.Lone t) (hw : t.waker = none) : r.Clear := by
  intro k hk
  cases ha : r.agenda k with
  | none => rfl
  | some w => cases hw.symm.trans (h k w hk ha).2

theorem Lone.remove (h : r.Lone t) :
    Clear { r with timers := r.timers.push (.remove t.deadline t.key) } := by
  have hset : agenda { r with timers := r.timers.push (.remove t.deadline t.key) } =
      Function.update r.agenda (toLex (t.deadline, t.key)) none := agenda_push r _
  intro k hk
  rw [hset]
  by_cases he : k = toLex (t.deadline, t.key)
  · rw [he, Function.update_self]
  · rw [Function.update_of_ne he]
    cases ha : r.agenda k with
    | none => rfl
    | some w => exact absurd (h k w hk ha).1 he

/-- No operation sets the clock back. -/
theorem keeps_removeTimer (c when id : ℕ) :
    (removeTimer when id : Prog (Reactor W) Unit).Keeps fun r => c ≤ r.timers.clock :=
  .atom fun _ h => h

theorem keeps_insertTimer (c when : ℕ) (waker : W) :
    (insertTimer when waker).Keeps fun r => c ≤ r.timers.clock :=
  .bind (.atom fun _ h => h) fun _ => .bind (.atom fun _ h => h) fun _ => .pure

theorem wp_insertTimer_since {Q : ℕ → Reactor W → Prop} (hv : r.Valid) (hc : r.Clear) {c : ℕ}
    (hle : c ≤ r.timers.clock) (when : ℕ) (waker : W)
    (h : ∀ id r', r'.Valid → r'.Registered ⟨when, id, some waker⟩ → c ≤ r'.timers.clock →
      Q id r') : (insertTimer when waker).Wp Rely Guar E Q r := by
  have hspec : (insertTimer when waker).Wp Rely Guar E
      (fun id r' => r'.Valid ∧ r'.Registered ⟨when, id, some waker⟩) r :=
    wp_insertTimer hv hc when waker fun id r' hv' hr' => ⟨hv', hr'⟩
  refine (hspec.keeps ?_ (keeps_insertTimer c when waker) hle).mono ?_
  · exact fun s t hst hs => hs.trans hst.clock
  · rintro id r' ⟨⟨hv', hr'⟩, hle'⟩
    exact h id r' hv' hr' hle'

end Reactor

section Calls
variable {r : Reactor W} {t : Timer W} {E : Reactor W → Prop}

/-- `reset` leaves one timer, at the new deadline, and none without a waker. -/
theorem Timer.wp_reset_lone (hv : r.Valid) (hl : r.Lone t) (when : ℕ) :
    (t.reset when).Wp Rely Guar E (fun t' r' => r'.Valid ∧ r'.Registered t' ∧
      t'.deadline = when ∧ t'.waker = t.waker) r := by
  obtain ⟨deadline, key, waker⟩ := t
  cases waker with
  | none => exact Prog.Wp.pure ⟨hv, (hl.clear rfl).registered rfl, rfl, rfl⟩
  | some w =>
    refine Prog.Wp.bind (Reactor.wp_removeTimer hv _ _ fun r₁ hr₁ hv₁ => ?_)
    have hclear := (hr₁.lone hv hl).remove
    refine Prog.Wp.bind (Reactor.wp_insertTimer hv₁ hclear when w fun id r₂ hv₂ hr₂ => ?_)
    exact Prog.Wp.pure ⟨hv₂, hr₂, rfl, rfl⟩

theorem Timer.keeps_reset (c : ℕ) (t : Timer W) (when : ℕ) :
    (t.reset when).Keeps fun r => c ≤ r.timers.clock := by
  obtain ⟨deadline, key, waker⟩ := t
  cases waker with
  | none => exact .pure
  | some w =>
    exact .bind (Reactor.keeps_removeTimer c _ _) fun _ =>
      .bind (Reactor.keeps_insertTimer c _ _) fun _ => .pure

/-- `drop` leaves no timer. -/
theorem Timer.wp_drop (hv : r.Valid) (hl : r.Lone t) :
    t.drop.Wp Rely Guar E (fun _ r' => r'.Valid ∧ r'.Clear) r := by
  obtain ⟨deadline, key, waker⟩ := t
  cases waker with
  | none => exact Prog.Wp.pure ⟨hv, hl.clear rfl⟩
  | some w =>
    exact Reactor.wp_removeTimer hv _ _ fun r₁ hr₁ hv₁ => ⟨hv₁, (hr₁.lone hv hl).remove⟩

/-- What `poll_timeout` returns, and what is left when the deadline has passed. -/
structure Timer.Answered (t : Timer W) (cx : W) (c : ℕ) (out : Option ℕ × ℕ × Timer W)
    (r : Reactor W) : Prop where
  valid : r.Valid
  since : c ≤ out.2.1
  clock : out.2.1 ≤ r.timers.clock
  ready : out.1.isSome ↔ t.deadline ≤ out.2.1
  elapsed : out.1.isSome = true → out.2.2 = t ∧ r.Lone t
  pending : out.1.isSome = false → r.Registered out.2.2 ∧ out.2.2.deadline = t.deadline ∧
    out.2.2.waker = some cx

/-- The end of a `poll_timeout` that registers `cx`. -/
theorem Timer.wp_register (hv : r.Valid) (hc : r.Clear) {c now : ℕ} (hle : now ≤ r.timers.clock)
    (hlt : now < t.deadline) (hsince : c ≤ now) (cx : W) :
    (do
      let key ← Reactor.insertTimer t.deadline cx
      return ((none : Option ℕ), now, { t with key := key, waker := some cx })).Wp
      Rely Guar E (t.Answered cx c) r := by
  refine Prog.Wp.bind (Reactor.wp_insertTimer_since hv hc hle _ _ fun id r' hv' hr' hle' => ?_)
  refine Prog.Wp.pure ⟨hv', hsince, hle', by simpa using hlt, by simp, fun _ => ?_⟩
  exact ⟨hr', rfl, rfl⟩

theorem Timer.wp_answered [DecidableEq W] (hv : r.Valid) (hr : r.Registered t) (cx : W) :
    (t.pollTimeout cx).Wp Rely Guar E (t.Answered cx r.timers.clock) r := by
  refine Prog.Wp.bind (Reactor.wp_now hv fun r₁ hr₁ hv₁ => ?_)
  have hreg := hr₁.registered hv hr
  have hsince := hr₁.clock
  by_cases hd : t.deadline ≤ r₁.timers.clock
  · simp only [hd, if_true]
    split_ifs
    · refine Prog.Wp.bind (Reactor.wp_removeTimer hv₁ _ _ fun r₂ hr₂ hv₂ => ?_)
      have hclear := (hr₂.registered hv₁ hreg).remove
      exact Prog.Wp.pure ⟨hv₂, hsince, hr₂.clock, by simp [hd], fun _ => ⟨rfl, hclear.lone⟩, by simp⟩
    · exact Prog.Wp.pure ⟨hv₁, hsince, le_rfl, by simp [hd], fun _ => ⟨rfl, hreg.lone⟩, by simp⟩
  · simp only [hd, if_false]
    cases hw : t.waker with
    | none => exact Timer.wp_register hv₁ (hreg.clear hw) le_rfl (not_le.1 hd) hsince cx
    | some w =>
      simp only [ne_eq, ite_not]
      split_ifs with hcx
      · refine Prog.Wp.pure ⟨hv₁, hsince, le_rfl, by simp [hd], by simp, fun _ => ?_⟩
        exact ⟨hreg, rfl, by rw [hw, hcx]⟩
      · refine Prog.Wp.bind (Reactor.wp_removeTimer hv₁ _ _ fun r₂ hr₂ hv₂ => ?_)
        have hclear := (hr₂.registered hv₁ hreg).remove
        exact Timer.wp_register hv₂ hclear hr₂.clock (not_le.1 hd) hsince cx

end Calls

deriving instance DecidableEq for Delay

/-! ## `Interval` -/

/-- The struct `Interval`; both constructors assert that the period is not zero. -/
structure Interval (W : Type) where
  delay : Delay W
  period : ℕ
  pos : 0 < period
  deriving DecidableEq

namespace Interval

/-- `interval_at`, without its assertion. -/
def intervalAt (start period : ℕ) (pos : 0 < period) : Interval W :=
  ⟨.delayUntil start, period, pos⟩

/-- `Interval::poll_tick`: the tick, and the reading of the clock. -/
def pollTick [DecidableEq W] (i : Interval W) (cx : W) :
    Prog (Reactor W) ((Option ℕ × ℕ) × Interval W) := do
  let (ready, check, delay) ← i.delay.poll cx
  if ready then
    let now := delay.timer.deadline
    let next ← addDuration now i.period
    let delay ← delay.reset next
    return ((some now, check), { i with delay := delay })
  else return ((none, check), { i with delay := delay })

/-- The methods; the constructors assert that the period is not zero. -/
inductive Call (W : Type) where
  | interval (period : ℕ)
  | intervalAt (start period : ℕ)
  | pollTick (cx : W)
  | drop
  deriving DecidableEq

/-- The answers: the start of the interval, a tick or none with the reading of the clock. -/
inductive Answer where
  | created (start period : ℕ)
  | tick (when : Option ℕ) (check : ℕ)
  | dropped
  deriving DecidableEq

/-- The forms of an `Interval`. -/
inductive Form (W : Type) where
  | unborn
  | live (i : Interval W)
  | dropped
  deriving DecidableEq

/-- The program of a call; the intervals without a period panic. -/
def call [DecidableEq W] : Call W → Form W → Option (Prog (Reactor W) (Answer × Form W))
  | .interval period, .unborn => some <|
    if pos : 0 < period then do
      let now ← Reactor.now
      return (.created now period, .live (intervalAt now period pos))
    else .panic
  | .intervalAt start period, .unborn => some <|
    if pos : 0 < period then
      return (.created start period, .live (intervalAt start period pos))
    else .panic
  | .pollTick cx, .live i => some do
    let ((when, check), i) ← i.pollTick cx
    return (.tick when check, .live i)
  | .drop, .live i => some do
    i.delay.timer.drop
    return (.dropped, .dropped)
  | _, _ => none

/-- An `Interval` among others that use the reactor. -/
def object [DecidableEq W] : Object (Reactor W) (Form W) (Call W) Answer (Reactor.Move W) where
  call := call
  move := Reactor.move

/-! ### The ticks returned so far -/

/-- A tick has been returned. -/
def Answer.isTick : Answer → Bool
  | .tick (some _) _ => true
  | _ => false

/-- The number of ticks that have been returned. -/
def ticks (h : List (Call W × Answer)) : ℕ := h.countP fun e => e.2.isTick

/-- The start and the period. -/
def created (h : List (Call W × Answer)) : Option (ℕ × ℕ) :=
  h.findSome? fun e => match e.2 with
    | .created start period => some (start, period)
    | _ => none

/-- The waker of the last poll that returned no tick. -/
def lastWaker (h : List (Call W × Answer)) : Option W :=
  h.foldl (fun w e => match e with
    | (.pollTick cx, .tick none _) => some cx
    | _ => w) none

/-- How many of the times `start`, `start + period`, ... have come at the time `c`. -/
def due (start period c : ℕ) : ℕ := if start ≤ c then (c - start) / period + 1 else 0

/-- The `k`th tick has come. -/
theorem lt_due_iff {start period : ℕ} (pos : 0 < period) (k c : ℕ) :
    k < due start period c ↔ start + k * period ≤ c := by
  unfold due
  split_ifs with h
  · rw [Nat.lt_succ_iff, Nat.le_div_iff_mul_le pos]
    omega
  · exact iff_of_false (Nat.not_lt_zero k) fun hle => h ((Nat.le_add_right _ _).trans hle)

theorem due_mono (start period : ℕ) {c c' : ℕ} (h : c ≤ c') :
    due start period c ≤ due start period c' := by
  unfold due
  split_ifs with hc hc'
  · exact Nat.succ_le_succ (Nat.div_le_div_right (Nat.sub_le_sub_right h start))
  · exact absurd (hc.trans h) hc'
  · exact Nat.zero_le _
  · exact le_rfl

section History
variable {h : List (Call W × Answer)}

theorem ticks_concat (h : List (Call W × Answer)) (e : Call W × Answer) :
    ticks (h ++ [e]) = ticks h + if e.2.isTick then 1 else 0 := by
  simp [ticks, List.countP_append, List.countP_cons]

theorem created_concat {x : ℕ × ℕ} (hc : created h = some x) (e : Call W × Answer) :
    created (h ++ [e]) = some x := by
  unfold created at hc ⊢
  rw [List.findSome?_append, hc]
  rfl

theorem lastWaker_concat (h : List (Call W × Answer)) (e : Call W × Answer) :
    lastWaker (h ++ [e]) = match e with
      | (.pollTick cx, .tick none _) => some cx
      | _ => lastWaker h := by
  unfold lastWaker
  rw [List.foldl_append]
  rfl

end History

/-! ### The contract -/

/-- An `Interval` between two calls, after the calls `h`. -/
structure Live (start : ℕ) (h : List (Call W × Answer)) (i : Interval W) (r : Reactor W) :
    Prop where
  valid : r.Valid
  created : created h = some (start, i.period)
  deadline : i.delay.timer.deadline = start + ticks h * i.period
  waker : i.delay.timer.waker = lastWaker h
  registered : r.Registered i.delay.timer
  ticks_le : ticks h ≤ due start i.period r.timers.clock

/-- What holds between two calls. -/
def Rest (h : List (Call W × Answer)) (x : Form W) (r : Reactor W) : Prop :=
  match x with
  | .unborn => r.Valid ∧ r.issued = [] ∧ h = []
  | .live i => ∃ start, Live start h i r
  | .dropped => r.Valid ∧ r.Clear

/-- A poll returns the next tick if one is due that has not been returned. -/
def TickOk (h : List (Call W × Answer)) (res : Option ℕ) (c : ℕ) : Prop :=
  ∃ start period, created h = some (start, period) ∧ 0 < period ∧
    ticks h ≤ due start period c ∧
    (res = if ticks h < due start period c then some (start + ticks h * period) else none) ∧
    (res.isSome → start + (ticks h + 1) * period ≤ instantMax)

/-- What holds of each poll, given the calls before it. -/
def Ok (h : List (Call W × Answer)) (e : Call W × Answer) : Prop :=
  ∀ res c, e.2 = .tick res c → TickOk h res c

/-- Which calls panic, by the time `c`: the constructors without a period, and a poll for which
    a tick has come, if the one after it is later than every `Instant`. -/
def Panics (h : List (Call W × Answer)) (c : ℕ) : Call W → Prop
  | .interval period | .intervalAt _ period => period = 0
  | .pollTick _ => ∃ start period, created h = some (start, period) ∧
    ticks h < due start period c ∧ instantMax < start + (ticks h + 1) * period
  | .drop => False

variable {h : List (Call W × Answer)} {i : Interval W} {start : ℕ} {r r' : Reactor W}

theorem Live.rely (hl : Live start h i r) (hr : Rely r r') : Live start h i r' where
  valid := hr.valid hl.valid
  created := hl.created
  deadline := hl.deadline
  waker := hl.waker
  registered := hr.registered hl.valid hl.registered
  ticks_le := hl.ticks_le.trans (due_mono _ _ hr.clock)

theorem Rest.rely {x : Form W} (hx : Rest h x r) (hr : Rely r r') : Rest h x r' := by
  cases x with
  | unborn => exact ⟨hr.valid hx.1, hr.issued.trans hx.2.1, hx.2.2⟩
  | live i =>
    obtain ⟨start, hl⟩ := hx
    exact ⟨start, hl.rely hr⟩
  | dropped => exact ⟨hr.valid hx.1, hr.clear hx.1 hx.2⟩

theorem Panics.rely {k : Call W} (hp : Panics h r.timers.clock k) (hr : Rely r r') :
    Panics h r'.timers.clock k := by
  cases k with
  | pollTick cx =>
    obtain ⟨start, period, hc, hlt, hover⟩ := hp
    exact ⟨start, period, hc, hlt.trans_le (due_mono _ _ hr.clock), hover⟩
  | _ => exact hp

/-- A new `Interval`. -/
theorem live_new (hv : r.Valid) (hissued : r.issued = []) (k : Call W) (start : ℕ) {period : ℕ}
    (pos : 0 < period) :
    Live start [(k, .created start period)] (intervalAt start period pos) r where
  valid := hv
  created := rfl
  deadline := by simp [intervalAt, Delay.delayUntil, Timer.new, ticks, Answer.isTick]
  waker := by cases k <;> rfl
  registered := by
    refine Reactor.Clear.registered (fun k hk => ?_) rfl
    rw [hissued] at hk
    cases hk
  ticks_le := by simp [ticks, Answer.isTick]

theorem wp_pollTick [DecidableEq W] (hl : Live start h i r) (cx : W) :
    (i.pollTick cx).Wp Rely Guar (fun r' => Panics h r'.timers.clock (.pollTick cx))
      (fun out r' => TickOk h out.1.1 out.1.2 ∧
        Live start (h ++ [(.pollTick cx, .tick out.1.1 out.1.2)]) out.2 r') r := by
  refine Prog.Wp.bind (Prog.Wp.bind
    ((Timer.wp_answered hl.valid hl.registered cx).mono fun out r₁ ho => ?_))
  obtain ⟨res, c, timer⟩ := out
  have hsince := ho.since
  have hready := ho.ready
  have hdue : ticks h < due start i.period c ↔ i.delay.timer.deadline ≤ c := by
    rw [lt_due_iff i.pos, hl.deadline]
  have hle : ticks h ≤ due start i.period c := hl.ticks_le.trans (due_mono _ _ hsince)
  refine Prog.Wp.pure ?_
  dsimp only at hready ⊢
  cases hres : res.isSome with
  | true =>
    obtain ⟨rfl, hlone⟩ := ho.elapsed hres
    have hlt := hdue.2 (hready.1 hres)
    have hnext : i.delay.timer.deadline + i.period = start + (ticks h + 1) * i.period := by
      rw [hl.deadline]
      ring
    have hpanics : instantMax < i.delay.timer.deadline + i.period →
        Panics h r₁.timers.clock (.pollTick cx) := by
      intro hover
      rw [hnext] at hover
      exact ⟨start, i.period, hl.created, hlt.trans_le (due_mono _ _ ho.clock), hover⟩
    refine Prog.Wp.bind (wp_addDuration (fun hmax => ?_) hpanics)
    refine Prog.Wp.bind (Prog.Wp.bind (((Timer.wp_reset_lone ho.valid hlone _).keeps
      (fun s t hst hs => hs.trans hst.clock) (Timer.keeps_reset c _ _) ho.clock).mono
      fun t r₂ ht => ?_))
    obtain ⟨⟨hv₂, hreg₂, hdeadline, hwaker⟩, hclock⟩ := ht
    refine Prog.Wp.pure (Prog.Wp.pure ⟨⟨start, i.period, hl.created, i.pos, hle, ?_, ?_⟩, ?_⟩)
    · rw [if_pos hlt, hl.deadline]
    · rw [← hnext]
      exact fun _ => hmax
    · refine ⟨hv₂, created_concat hl.created _, ?_, ?_, hreg₂, ?_⟩
      · rw [hdeadline, hnext, ticks_concat]
        simp only [Answer.isTick, if_true]
      · rw [hwaker, hl.waker, lastWaker_concat]
      · rw [ticks_concat]
        exact (Nat.succ_le_of_lt hlt).trans (due_mono _ _ hclock)
  | false =>
    obtain ⟨hreg, hdeadline, hwaker⟩ := ho.pending hres
    have hnot : ¬ ticks h < due start i.period c := by
      rw [hdue, ← hready, hres]
      exact Bool.false_ne_true
    refine Prog.Wp.pure ⟨⟨start, i.period, hl.created, i.pos, hle, (if_neg hnot).symm, by simp⟩, ?_⟩
    refine ⟨ho.valid, created_concat hl.created _, ?_, ?_, hreg, ?_⟩
    · rw [hdeadline, hl.deadline, ticks_concat]
      rfl
    · rw [hwaker, lastWaker_concat]
    · rw [ticks_concat]
      exact hle.trans (due_mono _ _ ho.clock)

theorem wp_call [DecidableEq W] {k : Call W} {x : Form W}
    {p : Prog (Reactor W) (Answer × Form W)} (hx : Rest h x r) (hp : call k x = some p) :
    p.Wp Rely Guar (fun r' => Panics h r'.timers.clock k)
      (fun out r' => Ok h (k, out.1) ∧ Rest (h ++ [(k, out.1)]) out.2 r') r := by
  cases x with
  | unborn =>
    obtain ⟨hv, hissued, rfl⟩ := hx
    cases k with
    | interval period =>
      cases hp
      by_cases pos : 0 < period
      · simp only [pos, dif_pos]
        refine Prog.Wp.bind (Reactor.wp_now hv fun r₁ hr₁ hv₁ => Prog.Wp.pure ⟨by simp [Ok], ?_⟩)
        exact ⟨_, live_new hv₁ (hr₁.issued.trans hissued) _ _ pos⟩
      · simp only [pos, dif_neg, not_false_eq_true]
        exact Prog.Wp.panic (Nat.eq_zero_of_not_pos pos)
    | intervalAt start period =>
      cases hp
      by_cases pos : 0 < period
      · simp only [pos, dif_pos]
        exact Prog.Wp.pure ⟨by simp [Ok], start, live_new hv hissued _ _ pos⟩
      · simp only [pos, dif_neg, not_false_eq_true]
        exact Prog.Wp.panic (Nat.eq_zero_of_not_pos pos)
    | pollTick cx => cases hp
    | drop => cases hp
  | live i =>
    obtain ⟨start, hl⟩ := hx
    cases k with
    | interval period => cases hp
    | intervalAt start period => cases hp
    | pollTick cx =>
      cases hp
      refine Prog.Wp.bind ((wp_pollTick hl cx).mono fun out r₁ ho => Prog.Wp.pure ⟨?_, ?_⟩)
      · intro res c he
        cases he
        exact ho.1
      · exact ⟨start, ho.2⟩
    | drop =>
      cases hp
      refine Prog.Wp.bind ((Timer.wp_drop hl.valid hl.registered.lone).mono fun out r₁ ho => ?_)
      exact Prog.Wp.pure ⟨by simp [Ok], ho⟩
  | dropped => cases k <;> cases hp

/-- Every call keeps `Rest` and answers as `Ok` says. -/
def contract [DecidableEq W] : (object : Object (Reactor W) _ _ _ _).Contract Rely Guar where
  Ok := Ok
  Rest := Rest
  Panics h k r := Panics h r.timers.clock k
  refl _ := Reactor.Rely.rfl
  trans _ _ _ := Reactor.Rely.trans
  move _ _ _ := Reactor.rely_move
  stable _ _ _ _ := Rest.rely
  panics _ _ _ _ := Panics.rely
  call _ _ _ _ _ := wp_call

/-- The object in a run. -/
abbrev State (W : Type) := Object.State (Reactor W) (Form W) (Call W) Answer

/-- An `Interval` among other threads, with nothing set in the reactor at the time `now`. -/
def system [DecidableEq W] (now : ℕ) : Lts (State W) (Object.Act (Call W) (Reactor.Move W)) :=
  object.system .unborn ⟨.new now, [], []⟩

theorem reach [DecidableEq W] {now : ℕ} {y : State W} (hy : (system now).Reachable y) :
    Each Ok y.calls ∧ (∀ x, y.resting = some x → Rest y.calls x y.shared) ∧
      ∀ k, y.panicked = some k → Panics y.calls y.shared.timers.clock k := by
  have h₀ : (contract : Object.Contract object Rely Guar).Rest [] (.unborn : Form W)
      ⟨.new now, [], []⟩ := ⟨Reactor.valid_new now, rfl, rfl⟩
  exact contract.reach h₀ hy

/-- **Ticks are neither lost nor moved.** In every run of an `Interval` among other threads, a
    poll that returns, and whose timer check reads the clock at `c`, returns the time
    `start + n * period`, where `n` is the number of ticks returned before, exactly if more
    than `n` of the times `start`, `start + period`, ... have come at `c`; never have more ticks
    been returned than have come.  A poll panics only if it has a tick to return and the
    one after it is later than every `Instant`, and then it returns none. -/
theorem interval_exact [DecidableEq W] {now : ℕ} {y : State W} (hy : (system now).Reachable y) :
    (∀ pre k res c post, y.calls = pre ++ (k, .tick res c) :: post →
      ∃ start period, created pre = some (start, period) ∧ 0 < period ∧
        ticks pre ≤ due start period c ∧
        (res = if ticks pre < due start period c then some (start + ticks pre * period)
          else none) ∧
        (res.isSome → start + (ticks pre + 1) * period ≤ instantMax)) ∧
    ∀ k, y.panicked = some k → Panics y.calls y.shared.timers.clock k :=
  ⟨fun _ _ _ _ _ hcalls => (reach hy).1 _ _ _ hcalls _ _ rfl, (reach hy).2.2⟩

/-- An interval of `10`, polled late at `25`, and in time at `30`. -/
def lateRun : List (Object.Act (Call ℕ) (Reactor.Move ℕ)) :=
  [.call (.interval 10), .next, .other (.advance 25), .call (.pollTick 7), .next,
    .call (.pollTick 7), .next, .call (.pollTick 7), .next, .call (.pollTick 7), .next, .next,
    .next, .other (.advance 5), .call (.pollTick 8), .next, .next, .next, .next, .next]

/-- What has been called in it, and answered, before the last poll. -/
def lateCalls : List (Call ℕ × Answer) :=
  [(.interval 10, .created 0 10), (.pollTick 7, .tick (some 0) 25), (.pollTick 7, .tick (some 10) 25),
    (.pollTick 7, .tick (some 20) 25), (.pollTick 7, .tick none 25)]

/-- The first tick of an interval without end. -/
def endlessRun : List (Object.Act (Call ℕ) (Reactor.Move ℕ)) :=
  [.call (.interval (instantMax + 1)), .next, .call (.pollTick 7), .next]

theorem interval_exact_late :
    (∃ y : State ℕ,
      (system 0).run ⟨⟨.new 0, [], []⟩, .rest .unborn, []⟩ lateRun = some y ∧
      y.calls = lateCalls ++ [(.pollTick 8, .tick (some 30) 30)] ∧ ticks lateCalls = 3 ∧
      3 < due 0 10 30) ∧
    ∃ y : State ℕ, (system 0).run ⟨⟨.new 0, [], []⟩, .rest .unborn, []⟩ endlessRun = some y ∧
      y.panicked = some (.pollTick 7) ∧ Panics y.calls y.shared.timers.clock (.pollTick 7) := by
  constructor
  · obtain ⟨y, hs, hcalls⟩ : ∃ y : State ℕ,
        (system 0).run ⟨⟨.new 0, [], []⟩, .rest .unborn, []⟩ lateRun = some y ∧
        y.calls = lateCalls ++ [(.pollTick 8, .tick (some 30) 30)] :=
      Lts.exists_run (by decide +kernel)
    obtain ⟨start, period, hc, -, -, hres, -⟩ :=
      (interval_exact (.run (.init rfl) (Lts.meets_true _ lateRun) hs)).1 _ _ _ _ _ hcalls
    cases hc
    refine ⟨y, hs, hcalls, rfl, ?_⟩
    by_contra hlt
    rw [if_neg (show ¬ ticks lateCalls < due 0 10 30 from hlt)] at hres
    cases hres
  · obtain ⟨y, hs, hpanicked⟩ : ∃ y : State ℕ,
        (system 0).run ⟨⟨.new 0, [], []⟩, .rest .unborn, []⟩ endlessRun = some y ∧
        y.panicked = some (.pollTick 7) :=
      Lts.exists_run (by decide +kernel)
    exact ⟨y, hs, hpanicked,
      (interval_exact (.run (.init rfl) (Lts.meets_true _ endlessRun) hs)).2 _ hpanicked⟩

/-- **The next tick is registered.** Between two calls the deadline of an `Interval` is that of
    its next tick.  Once a poll has returned no tick, the reactor has exactly one timer for
    it, at this deadline and for the waker of the last such poll, also after a poll that
    returned a tick, unless the reactor has fired it; before, and after `drop`, it has none. -/
theorem tick_registered [DecidableEq W] {now : ℕ} {y : State W} (hy : (system now).Reachable y) :
    (∀ i, y.resting = some (.live i) → ∃ start, created y.calls = some (start, i.period) ∧
      i.delay.timer.deadline = start + ticks y.calls * i.period ∧
      (∀ w, lastWaker y.calls = some w → i.delay.timer.key ∈ y.shared.issued ∧
        (¬ y.shared.Fired (toLex (i.delay.timer.deadline, i.delay.timer.key)) →
          y.shared.agenda (toLex (i.delay.timer.deadline, i.delay.timer.key)) = some w)) ∧
      ∀ k, (ofLex k).2 ∈ y.shared.issued → y.shared.agenda k ≠ none →
        k = toLex (i.delay.timer.deadline, i.delay.timer.key) ∧ lastWaker y.calls ≠ none) ∧
    (y.resting = some .dropped → ∀ k, (ofLex k).2 ∈ y.shared.issued → y.shared.agenda k = none) := by
  obtain ⟨-, hrest, -⟩ := reach hy
  refine ⟨fun i hi => ?_, fun hd => (hrest _ hd).2⟩
  obtain ⟨start, hl⟩ := hrest _ hi
  refine ⟨start, hl.created, hl.deadline, fun w hw => ?_, fun k hk hne => ?_⟩
  · obtain ⟨hissued, hset⟩ := hl.registered.set w (hl.waker.trans hw)
    exact ⟨hissued, hset.resolve_right⟩
  · obtain ⟨w, hw⟩ := Option.ne_none_iff_exists'.1 hne
    obtain ⟨hkey, hwaker⟩ := hl.registered.only k w hk hw
    exact ⟨hkey, by rw [← hl.waker, hwaker]; exact Option.some_ne_none w⟩

theorem tick_registered_late : ∃ y : State ℕ,
    (system 0).run ⟨⟨.new 0, [], []⟩, .rest .unborn, []⟩ lateRun = some y ∧
    y.resting = some (.live ⟨⟨⟨40, 2, some 7⟩⟩, 10, by decide⟩) ∧
    y.shared.agenda (toLex (40, 2)) = some 7 ∧
    ∀ k, (ofLex k).2 ∈ y.shared.issued → y.shared.agenda k ≠ none → k = toLex (40, 2) := by
  obtain ⟨y, hs, hwaker, hform, hfired⟩ : ∃ y : State ℕ,
      (system 0).run ⟨⟨.new 0, [], []⟩, .rest .unborn, []⟩ lateRun = some y ∧
      lastWaker y.calls = some 7 ∧
      y.resting = some (.live ⟨⟨⟨40, 2, some 7⟩⟩, 10, by decide⟩) ∧
      toLex (40, 2) ∉ (taken y.shared.timers.history).map Prod.fst :=
    Lts.exists_run (by decide +kernel)
  obtain ⟨start, -, -, hset, honly⟩ :=
    (tick_registered (.run (.init rfl) (Lts.meets_true _ lateRun) hs)).1 _ hform
  exact ⟨y, hs, hform, (hset 7 hwaker).2 hfired, fun k hk hne => (honly k hk hne).1⟩

end Interval

end Awak
