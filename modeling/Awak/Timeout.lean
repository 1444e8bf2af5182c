/-
  `Timeout` of `time/timeout.rs`: a future with a deadline.

  A poll asks the future first, and the `Delay` only if the future has to wait;
  what the future returns is given with the call, its own effects are moves of
  other threads.  A `Timeout` that is ready is not polled again; it keeps its
  `Delay` until it is dropped or taken apart.

  * `Live`: what a `Timeout` knows between two polls;
  * `panicked_creation`: only the creation can panic;
  * `timeout_exact`: when a poll is ready, with which result, and what the reactor
    holds before and after.
-/
import Awak.Interval

namespace Awak

open History
open Reactor (Rely Guar)

variable {W α : Type}

/-- The struct `Timeout`, without its future. -/
structure Timeout (W : Type) where
  delay : Delay W
  deriving DecidableEq

namespace Timeout

/-- `timeout_at`. -/
def timeoutAt (deadline : ℕ) : Timeout W := ⟨.delayUntil deadline⟩

/-- The methods.  A poll is given what the future returns. -/
inductive Call (α W : Type) where
  | timeout (duration : ℕ)
  | timeoutAt (deadline : ℕ)
  | poll (value : Option α) (cx : W)
  | intoInner
  | drop
  deriving DecidableEq

/-- The answers: the deadline, and what a poll returns, with its reading of the clock if it
    has made one. -/
inductive Answer (α : Type) where
  | created (deadline : ℕ)
  | ok (v : α)
  | elapsed (check : ℕ)
  | pending (check : ℕ)
  | dropped
  deriving DecidableEq

/-- `Timeout::poll`. -/
def poll [DecidableEq W] (f : Timeout W) (value : Option α) (cx : W) :
    Prog (Reactor W) (Answer α × Timeout W) :=
  match value with
  | some v => return (.ok v, f)
  | none => do
    let (ready, check, delay) ← f.delay.poll cx
    if ready then return (.elapsed check, ⟨delay⟩) else return (.pending check, ⟨delay⟩)

/-- The forms of a `Timeout`; it is `done` when a poll was ready. -/
inductive Form (W : Type) where
  | unborn
  | live (f : Timeout W)
  | done (f : Timeout W)
  | dropped
  deriving DecidableEq

/-- The timer that the object has. -/
def Form.timer : Form W → Option (Timer W)
  | live f | done f => some f.delay.timer
  | unborn | dropped => none

/-- The form after a poll. -/
def Answer.form : Answer α → Timeout W → Form W
  | pending _, f => .live f
  | _, f => .done f

/-- `into_inner` and `drop` both drop the `Delay`. -/
def dropDelay (f : Timeout W) : Prog (Reactor W) (Answer α × Form W) := do
  f.delay.timer.drop
  return (.dropped, .dropped)

/-- The program of a call. -/
def call [DecidableEq W] :
    Call α W → Form W → Option (Prog (Reactor W) (Answer α × Form W))
  | .timeout duration, .unborn => some do
    let now ← Reactor.now
    let deadline ← addDuration now duration
    return (.created deadline, .live (timeoutAt deadline))
  | .timeoutAt deadline, .unborn => some (return (.created deadline, .live (timeoutAt deadline)))
  | .poll value cx, .live f => some do
    let (answer, f) ← f.poll value cx
    return (answer, answer.form f)
  | .intoInner, .live f | .intoInner, .done f | .drop, .live f | .drop, .done f => some f.dropDelay
  | _, _ => none

/-- A `Timeout` among others that use the reactor. -/
def object [DecidableEq W] :
    Object (Reactor W) (Form W) (Call α W) (Answer α) (Reactor.Move W) where
  call := call
  move := Reactor.move

/-! ## The calls so far -/

/-- The reading of the clock in the timer check of a poll. -/
def Answer.check : Answer α → Option ℕ
  | .elapsed check | .pending check => some check
  | _ => none

/-- The waker of the last poll that was pending. -/
def lastWaker (h : List (Call α W × Answer α)) : Option W :=
  h.foldl (fun w e => match e with
    | (.poll _ cx, .pending _) => some cx
    | _ => w) none

/-- The deadline given at the creation. -/
def deadline (h : List (Call α W × Answer α)) : Option ℕ :=
  h.findSome? fun e => match e.2 with
    | .created deadline => some deadline
    | _ => none

variable {h : List (Call α W × Answer α)} {f : Timeout W} {d : ℕ} {r r' : Reactor W}
  {E : Reactor W → Prop}

theorem deadline_concat (hd : deadline h = some d) (e : Call α W × Answer α) :
    deadline (h ++ [e]) = some d := by
  unfold deadline at hd ⊢
  rw [List.findSome?_append, hd]
  rfl

theorem lastWaker_concat (h : List (Call α W × Answer α)) (e : Call α W × Answer α) :
    lastWaker (h ++ [e]) = match e with
      | (.poll _ cx, .pending _) => some cx
      | _ => lastWaker h := by
  unfold lastWaker
  rw [List.foldl_append]
  rfl

/-! ## The contract -/

/-- A `Timeout` between two polls, after the calls `h`. -/
structure Live (d : ℕ) (h : List (Call α W × Answer α)) (f : Timeout W) (r : Reactor W) :
    Prop where
  valid : r.Valid
  created : deadline h = some d
  deadline : f.delay.timer.deadline = d
  waker : f.delay.timer.waker = lastWaker h
  registered : r.Registered f.delay.timer
  checks : ∀ e ∈ h, ∀ c, e.2.check = some c → c < d ∧ c ≤ r.timers.clock

/-- What holds between two calls. -/
def Rest (h : List (Call α W × Answer α)) (x : Form W) (r : Reactor W) : Prop :=
  match x with
  | .unborn => r.Valid ∧ r.issued = [] ∧ h = []
  | .live f => ∃ d, Live d h f r
  | .done f => r.Valid ∧ r.Lone f.delay.timer
  | .dropped => r.Valid ∧ r.Clear

/-- What a poll returns, by its reading of the clock: the value of the future if it has one,
    else whether the deadline has passed, which it had not at any earlier poll. -/
def PollOk (h : List (Call α W × Answer α)) (value : Option α) (answer : Answer α) : Prop :=
  ∃ d, deadline h = some d ∧ (∀ v, answer = .ok v ↔ value = some v) ∧
    (value = none → ∃ c, answer = (if d ≤ c then .elapsed c else .pending c) ∧
      ∀ e ∈ h, ∀ c', e.2.check = some c' → c' < d ∧ c' ≤ c)

/-- What holds of each poll, given the calls before it. -/
def Ok (h : List (Call α W × Answer α)) (e : Call α W × Answer α) : Prop :=
  ∀ value cx, e.1 = .poll value cx → PollOk h value e.2

/-- Which calls panic, by the time `c`: only the creation, if the deadline is later than every
    `Instant`. -/
def Panics (c : ℕ) : Call α W → Prop
  | .timeout duration => instantMax < c + duration
  | _ => False

theorem Panics.rely {k : Call α W} (hp : Panics r.timers.clock k) (hr : Rely r r') :
    Panics r'.timers.clock k := by
  cases k with
  | timeout duration => exact hp.trans_le (Nat.add_le_add_right hr.clock duration)
  | _ => exact hp

theorem Live.rely (hl : Live d h f r) (hr : Rely r r') : Live d h f r' where
  valid := hr.valid hl.valid
  created := hl.created
  deadline := hl.deadline
  waker := hl.waker
  registered := hr.registered hl.valid hl.registered
  checks e he c hc := ⟨(hl.checks e he c hc).1, (hl.checks e he c hc).2.trans hr.clock⟩

theorem Rest.rely {x : Form W} (hx : Rest h x r) (hr : Rely r r') : Rest h x r' := by
  cases x with
  | unborn => exact ⟨hr.valid hx.1, hr.issued.trans hx.2.1, hx.2.2⟩
  | live f =>
    obtain ⟨d, hl⟩ := hx
    exact ⟨d, hl.rely hr⟩
  | done f => exact ⟨hr.valid hx.1, hr.lone hx.1 hx.2⟩
  | dropped => exact ⟨hr.valid hx.1, hr.clear hx.1 hx.2⟩

/-- A new `Timeout`. -/
theorem live_new (hv : r.Valid) (hissued : r.issued = []) (k : Call α W) (d : ℕ) :
    Live d [(k, .created d)] (timeoutAt d) r where
  valid := hv
  created := rfl
  deadline := rfl
  waker := by cases k <;> rfl
  registered := by
    refine Reactor.Clear.registered (fun k hk => ?_) rfl
    rw [hissued] at hk
    cases hk
  checks e he c hc := by
    rw [List.mem_singleton.1 he] at hc
    cases hc

theorem wp_poll [DecidableEq W] (hl : Live d h f r) (value : Option α) (cx : W) :
    (f.poll value cx).Wp Rely Guar E (fun out r' => PollOk h value out.1 ∧
      Rest (h ++ [(.poll value cx, out.1)]) (out.1.form out.2) r') r := by
  cases value with
  | some v =>
    refine Prog.Wp.pure ⟨⟨d, hl.created, ?_, by simp⟩, hl.valid, hl.registered.lone⟩
    simp
  | none =>
    refine Prog.Wp.bind (Prog.Wp.bind
      ((Timer.wp_answered hl.valid hl.registered cx).mono fun out r₁ ho => ?_))
    obtain ⟨res, c, timer⟩ := out
    have hready := ho.ready
    have hsince := ho.since
    rw [hl.deadline] at hready
    have hchecks : ∀ e ∈ h, ∀ c', e.2.check = some c' → c' < d ∧ c' ≤ c :=
      fun e he c' hc => ⟨(hl.checks e he c' hc).1, (hl.checks e he c' hc).2.trans hsince⟩
    refine Prog.Wp.pure ?_
    dsimp only at hready ⊢
    cases hres : res.isSome with
    | true =>
      obtain ⟨rfl, hlone⟩ := ho.elapsed hres
      refine Prog.Wp.pure ⟨⟨d, hl.created, by simp, fun _ => ⟨c, ?_, hchecks⟩⟩, ho.valid, hlone⟩
      rw [if_pos (hready.1 hres)]
    | false =>
      obtain ⟨hreg, hdeadline, hwaker⟩ := ho.pending hres
      have hlt : ¬ d ≤ c := by
        rw [← hready, hres]
        exact Bool.false_ne_true
      refine Prog.Wp.pure ⟨⟨d, hl.created, by simp, fun _ => ⟨c, ?_, hchecks⟩⟩, d, ?_⟩
      · rw [if_neg hlt]
      · refine ⟨ho.valid, deadline_concat hl.created _, hdeadline.trans hl.deadline, ?_, hreg, ?_⟩
        · rw [hwaker, lastWaker_concat]
        · intro e he c' hc
          rcases List.mem_append.1 he with he | he
          · exact ⟨(hchecks e he c' hc).1, (hchecks e he c' hc).2.trans ho.clock⟩
          · rw [List.mem_singleton.1 he] at hc
            cases hc
            exact ⟨not_le.1 hlt, ho.clock⟩

theorem wp_drop (hv : r.Valid) (hl : r.Lone f.delay.timer) (k : Call α W)
    (hk : ∀ value cx, k ≠ .poll value cx) :
    f.dropDelay.Wp Rely Guar E (fun out r' =>
      Ok h (k, out.1) ∧ Rest (h ++ [(k, out.1)]) out.2 r') r :=
  Prog.Wp.bind ((Timer.wp_drop hv hl).mono fun _ _ ho =>
    Prog.Wp.pure ⟨fun value cx he => absurd he (hk value cx), ho⟩)

theorem wp_call [DecidableEq W] {k : Call α W} {x : Form W}
    {p : Prog (Reactor W) (Answer α × Form W)} (hx : Rest h x r) (hp : call k x = some p) :
    p.Wp Rely Guar (fun r' => Panics r'.timers.clock k)
      (fun out r' => Ok h (k, out.1) ∧ Rest (h ++ [(k, out.1)]) out.2 r') r := by
  cases x with
  | unborn =>
    obtain ⟨hv, hissued, rfl⟩ := hx
    cases k with
    | timeout duration =>
      cases hp
      refine Prog.Wp.bind (Reactor.wp_now hv fun r₁ hr₁ hv₁ => ?_)
      refine Prog.Wp.bind (wp_addDuration (fun _ => Prog.Wp.pure ⟨by simp [Ok], ?_⟩) id)
      exact ⟨_, live_new hv₁ (hr₁.issued.trans hissued) _ _⟩
    | timeoutAt deadline =>
      cases hp
      exact Prog.Wp.pure ⟨by simp [Ok], deadline, live_new hv hissued _ _⟩
    | _ => cases hp
  | live f =>
    obtain ⟨d, hl⟩ := hx
    cases k with
    | poll value cx =>
      cases hp
      refine Prog.Wp.bind ((wp_poll hl value cx).mono fun out r₁ ho => Prog.Wp.pure ⟨?_, ho.2⟩)
      intro value' cx' he
      cases he
      exact ho.1
    | intoInner =>
      cases hp
      exact wp_drop hl.valid hl.registered.lone _ (by simp)
    | drop =>
      cases hp
      exact wp_drop hl.valid hl.registered.lone _ (by simp)
    | _ => cases hp
  | done f =>
    cases k with
    | intoInner =>
      cases hp
      exact wp_drop hx.1 hx.2 _ (by simp)
    | drop =>
      cases hp
      exact wp_drop hx.1 hx.2 _ (by simp)
    | _ => cases hp
  | dropped => cases k <;> cases hp

/-- Every call keeps `Rest` and answers as `Ok` says. -/
def contract [DecidableEq W] :
    (object : Object (Reactor W) _ (Call α W) _ _).Contract Rely Guar where
  Ok := Ok
  Rest := Rest
  Panics _ k r := Panics r.timers.clock k
  refl _ := Reactor.Rely.rfl
  trans _ _ _ := Reactor.Rely.trans
  move _ _ _ := Reactor.rely_move
  stable _ _ _ _ := Rest.rely
  panics _ _ _ _ := Panics.rely
  call _ _ _ _ _ := wp_call

/-- The object in a run. -/
abbrev State (α W : Type) := Object.State (Reactor W) (Form W) (Call α W) (Answer α)

/-- A `Timeout` among other threads, with nothing set in the reactor at the time `now`. -/
def system [DecidableEq W] (now : ℕ) :
    Lts (State α W) (Object.Act (Call α W) (Reactor.Move W)) :=
  object.system .unborn ⟨.new now, [], []⟩

theorem reach [DecidableEq W] {now : ℕ} {y : State α W} (hy : (system now).Reachable y) :
    Each Ok y.calls ∧ (∀ x, y.resting = some x → Rest y.calls x y.shared) ∧
      ∀ k, y.panicked = some k → Panics y.shared.timers.clock k := by
  have h₀ : (contract : Object.Contract (object : Object _ _ (Call α W) _ _) Rely Guar).Rest []
      (.unborn : Form W) ⟨.new now, [], []⟩ := ⟨Reactor.valid_new now, rfl, rfl⟩
  exact contract.reach h₀ hy

/-- No poll panics, and neither does dropping or taking apart. -/
theorem panicked_creation [DecidableEq W] {now : ℕ} {y : State α W}
    (hy : (system now).Reachable y) {k : Call α W} (hk : y.panicked = some k) :
    ∃ duration, k = .timeout duration ∧ instantMax < y.shared.timers.clock + duration := by
  have hp := (reach hy).2.2 k hk
  cases k with
  | timeout duration => exact ⟨duration, rfl, hp⟩
  | _ => exact hp.elim

/-- **A `Timeout` in every run.** A poll returns the value of its future if there is one, also
    after the deadline; otherwise it is elapsed exactly if the clock has reached the deadline
    at its timer check.  After a pending poll the reactor has exactly one timer for it, at
    the deadline and for the waker of that poll, unless it has fired; a ready `Timeout`
    keeps at most that one, and once it is dropped or taken apart there is none. -/
theorem timeout_exact [DecidableEq W] {now : ℕ} {y : State α W}
    (hy : (system now).Reachable y) :
    (∀ pre value cx answer post, y.calls = pre ++ (.poll value cx, answer) :: post →
      ∃ d, deadline pre = some d ∧ (∀ v, answer = .ok v ↔ value = some v) ∧
        (value = none → ∃ c, answer = (if d ≤ c then .elapsed c else .pending c) ∧
          ∀ e ∈ pre, ∀ c', e.2.check = some c' → c' < d ∧ c' ≤ c)) ∧
    (∀ f w, y.resting = some (.live f) → lastWaker y.calls = some w →
      deadline y.calls = some f.delay.timer.deadline ∧
      f.delay.timer.key ∈ y.shared.issued ∧
      (¬ y.shared.Fired (toLex (f.delay.timer.deadline, f.delay.timer.key)) →
        y.shared.agenda (toLex (f.delay.timer.deadline, f.delay.timer.key)) = some w)) ∧
    (∀ x t, y.resting = some x → x.timer = some t →
      ∀ k, (ofLex k).2 ∈ y.shared.issued → y.shared.agenda k ≠ none →
        k = toLex (t.deadline, t.key)) ∧
    (y.resting = some .dropped →
      ∀ k, (ofLex k).2 ∈ y.shared.issued → y.shared.agenda k = none) := by
  obtain ⟨hcalls, hrest, -⟩ := reach hy
  refine ⟨fun pre value cx answer post hsplit => ?_, fun f w hf hw => ?_, ?_,
    fun hd => (hrest _ hd).2⟩
  · exact hcalls _ _ _ hsplit value cx rfl
  · obtain ⟨d, hl⟩ := hrest _ hf
    obtain ⟨hissued, hset⟩ := hl.registered.set w (hl.waker.trans hw)
    exact ⟨hl.created.trans (congrArg _ hl.deadline.symm), hissued, hset.resolve_right⟩
  · intro x t hx ht k hk hne
    have hlone : y.shared.Lone t := by
      have hr := hrest x hx
      cases x with
      | live f =>
        cases ht
        obtain ⟨d, hl⟩ := hr
        exact hl.registered.lone
      | done f =>
        cases ht
        exact hr.2
      | _ => cases ht
    obtain ⟨w, hw⟩ := Option.ne_none_iff_exists'.1 hne
    exact (hlone k w hk hw).1

/-- A timeout of `10` that is polled at `4` and, with another waker, at `9`. -/
def pendingRun : List (Object.Act (Call ℕ ℕ) (Reactor.Move ℕ)) :=
  [.call (.timeout 10), .next, .other (.advance 4), .call (.poll none 7), .next, .next, .next,
    .other (.advance 5), .call (.poll none 8), .next, .next, .next, .next]

/-- The future is ready after the deadline. -/
def lateRun : List (Object.Act (Call ℕ ℕ) (Reactor.Move ℕ)) :=
  pendingRun ++ [.other (.advance 5), .call (.poll (some 1) 8), .call .drop, .next]

theorem timeout_exact_late :
    (∃ y : State ℕ ℕ,
      (system 0).run ⟨⟨.new 0, [], []⟩, .rest .unborn, []⟩ pendingRun = some y ∧
      y.resting = some (.live ⟨⟨⟨10, 2, some 8⟩⟩⟩) ∧ y.shared.agenda (toLex (10, 2)) = some 8) ∧
    ∃ y : State ℕ ℕ, (system 0).run ⟨⟨.new 0, [], []⟩, .rest .unborn, []⟩ lateRun = some y ∧
      y.calls.map Prod.snd = [.created 10, .pending 4, .pending 9, .ok 1, .dropped] ∧
      y.shared.timers.clock = 14 ∧
      ∀ k, (ofLex k).2 ∈ y.shared.issued → y.shared.agenda k = none := by
  constructor
  · obtain ⟨y, hs, hwaker, hform, hfired⟩ : ∃ y : State ℕ ℕ,
        (system 0).run ⟨⟨.new 0, [], []⟩, .rest .unborn, []⟩ pendingRun = some y ∧
        lastWaker y.calls = some 8 ∧ y.resting = some (.live ⟨⟨⟨10, 2, some 8⟩⟩⟩) ∧
        toLex (10, 2) ∉ (taken y.shared.timers.history).map Prod.fst :=
      Lts.exists_run (by decide +kernel)
    have hexact := timeout_exact (.run (.init rfl) (Lts.meets_true _ pendingRun) hs)
    exact ⟨y, hs, hform, (hexact.2.1 _ 8 hform hwaker).2.2 hfired⟩
  · obtain ⟨y, hs, hcalls, hclock, hform⟩ : ∃ y : State ℕ ℕ,
        (system 0).run ⟨⟨.new 0, [], []⟩, .rest .unborn, []⟩ lateRun = some y ∧
        y.calls.map Prod.snd = [.created 10, .pending 4, .pending 9, .ok 1, .dropped] ∧
        y.shared.timers.clock = 14 ∧ y.resting = some .dropped :=
      Lts.exists_run (by decide +kernel)
    have hexact := timeout_exact (.run (.init rfl) (Lts.meets_true _ lateRun) hs)
    exact ⟨y, hs, hcalls, hclock, hexact.2.2.2 hform⟩

end Timeout

end Awak
