/-
  A `Timer` whose calls are not interrupted.

  `Timer` takes `poll_timeout` and `reset` apart into the steps of the reactor,
  `IdleTimeout` has them as programs over its operations.  Here the steps of an
  object that runs alone are shown to be the ones of the programs.

  * `Timers.alone_push`, `Timers.alone_notify`: the parts of a call of the reactor;
  * `Timer.Runs`: the object runs a program over the reactor;
  * `alone_pollTimeout`, `alone_reset`: the calls return what the programs return,
    and leave the `Timer` and the reactor as the programs leave them.
-/
import Awak.IdleTimeout

namespace Awak

open Relation

variable {ι W : Type} [DecidableEq ι]

/-! ## Calls of the reactor -/

namespace Timers

/-- The store of `s` is that of `t`, and thread `i` is not inside the poller. -/
structure Matches (i : ι) (s : State ι W) (t : TimerStore.State W) : Prop where
  store : s.store = t.store
  clock : s.clock = t.clock
  idGen : s.idGen = t.idGen
  lock : s.lock = none
  notifying : s.poller.notifying i = .idle

variable {s : State ι W} {t : TimerStore.State W} {i : ι}

theorem Matches.setCalling (h : Matches i s t) (p : OpPc W) : Matches i (s.setCalling i p) t :=
  ⟨h.store, h.clock, h.idGen, h.lock, h.notifying⟩

theorem calling_setCalling (s : State ι W) (i : ι) (p : OpPc W) :
    (s.setCalling i p).calling i = p := Function.update_self _ _ _

/-- The push of a call that is not interrupted. -/
theorem alone_push {op : TimerOp W} (h : Matches i s t) (hi : s.calling i = .push op) :
    ∃ s', Alone (.op i) s s' ∧ Matches i s' (t.push op) ∧ s'.calling i = State.pushed op := by
  have hroom : 0 < s.store.ops.capacity := by
    rw [h.store]
    exact t.room
  have hstore : s.store.pushTimerOp op hroom = t.store.pushTimerOp op t.room := by
    congr 1
    exact h.store
  refine ⟨_, alone_pushTimerOp i op h.lock hi hroom, ?_, calling_setCalling _ i _⟩
  exact ⟨hstore, h.clock, h.idGen, h.lock, h.notifying⟩

/-- The notification at the end of `insert_timer`. -/
theorem alone_notify {id : ℕ} (h : Matches i s t) (hi : s.calling i = .notify id) :
    ∃ s', Alone (.op i) s s' ∧ Matches i s' t ∧ s'.calling i = .ret (some id) := by
  have hself : ∀ (p : Poller ι) (q : NotifyPc), (p.setNotify i q).notifying i = q :=
    fun p q => Function.update_self _ _ _
  -- the return from `Poller::notify`
  have hret : ∀ p : Poller ι, Alone (.op i) ({ s with
      poller := p.setNotify i .ret }.setCalling i (.notifying id))
        ({ s with poller := (p.setNotify i .ret).setNotify i .idle }.setCalling i
          (.ret (some id))) := by
    intro p
    refine .single ?_
    simp only [step, State.opStep, calling_setCalling]
    simp only [State.setCalling, hself, Poller.notifyRet, Option.map_some, Function.update_idem]
  have hmatches : ∀ p : Poller ι, Matches i ({ s with poller := p.setNotify i .idle }.setCalling i
      (.ret (some id))) t :=
    fun p => ⟨h.store, h.clock, h.idGen, h.lock, hself p .idle⟩
  cases hn : s.poller.notified with
  | true =>
    refine ⟨_, .head ?_ (hret s.poller), hmatches _, calling_setCalling _ i _⟩
    simp only [step, State.opStep, hi, Poller.notify, h.notifying, hn, if_true, Option.map_some]
  | false =>
    have hcas : step s (.op i) = some ({ s with
        poller := { s.poller with notified := true }.setNotify i .write }.setCalling i
          (.notifying id)) := by
      simp only [step, State.opStep, hi, Poller.notify, h.notifying, hn, Bool.false_eq_true,
        if_false, Option.map_some]
    have hwrite : step ({ s with
        poller := { s.poller with notified := true }.setNotify i .write }.setCalling i
          (.notifying id)) (.op i) = some ({ s with
        poller := { s.poller with
          notified := true, counter := s.poller.counter + 1 }.setNotify i .ret }.setCalling i
          (.notifying id)) := by
      simp only [step, State.opStep, calling_setCalling]
      simp only [State.setCalling, hself, Poller.notifyStep, Option.map_some]
      simp only [Poller.setNotify, Function.update_idem]
    exact ⟨_, .head hcas (.head hwrite (hret _)), hmatches _, calling_setCalling _ i _⟩

end Timers

/-! ## The calls of a `Timer` -/

namespace Timer

/-- A step of object `i`, outside the reactor or inside. -/
def OwnStep (i : ι) (s s' : State ι W) : Prop :=
  s.next i = some s' ∨ ∃ r, s.reactor.opStep i = some r ∧ s' = { s with reactor := r }

/-- Object `i` has no call of the reactor in progress, and the reactor is `r`. -/
structure Matches (i : ι) (s : State ι W) (r : Reactor W) : Prop where
  reactor : Timers.Matches i s.reactor r.timers
  calling : s.reactor.calling i = .idle

/-- From `s` the object does what the program `p` does, and then satisfies `Q`. -/
abbrev Runs {α : Type} (i : ι) (p : Prog (Reactor W) α) (s : State ι W)
    (Q : α → State ι W → Prop) : Prop := Prog.Runs (OwnStep i) (Matches i) p s Q

variable {s : State ι W} {i : ι}

/-- The steps of the call inside the reactor. -/
theorem own_of_alone {r : Timers.State ι W} (h : Timers.Alone (.op i) s.reactor r) :
    ReflTransGen (OwnStep i) s { s with reactor := r } := by
  have hlift := ReflTransGen.lift (p := OwnStep i)
    (fun r : Timers.State ι W => ({ s with reactor := r } : State ι W))
    (fun r₁ r₂ hr => Or.inr ⟨r₂, hr, rfl⟩)
  exact hlift _ _ h

theorem objs_set (s : State ι W) (i : ι) (o : Obj W) : (s.set i o).objs i = o :=
  Function.update_self _ _ _

namespace Runs

theorem now {Q : ℕ → State ι W → Prop} (hQ : Q s.reactor.clock s) :
    Runs i Reactor.now s Q := by
  refine .atom fun r hr => ⟨s, .refl, hr, ?_⟩
  rwa [← hr.reactor.clock]

/-- `remove_timer(self.deadline, self.key)` of the object `o`, which is `o'` afterwards. -/
theorem removeTimer {o : Obj W} (t : Timer W) (o' : Obj W) {Q : Unit → State ι W → Prop}
    (ho : s.objs i = o)
    (hcall : ∀ s : State ι W, s.objs i = o → s.reactor.calling i = .idle →
      s.next i = s.callRemove i t)
    (hback : ∀ s : State ι W, s.objs i = o → s.reactor.calling i = .ret none →
      s.next i = s.back i o')
    (hQ : ∀ s' : State ι W, s'.objs i = o' → Q () s') :
    Runs i (Reactor.removeTimer t.deadline t.key) s Q := by
  refine .atom fun r hr => ?_
  have hpush := hr.reactor.setCalling (.push (.remove t.deadline t.key))
  obtain ⟨r', halone, hr', hret⟩ := Timers.alone_push hpush (Timers.calling_setCalling _ i _)
  have hfirst : s.next i = some { s with
      reactor := s.reactor.setCalling i (.push (.remove t.deadline t.key)) } := by
    simp only [hcall s ho hr.calling, State.callRemove, Timers.State.removeTimer, hr.calling,
      Option.map_some]
  have hlast : State.next { s with reactor := r' } i =
      some (State.set { s with reactor := r'.setCalling i .idle } i o') := by
    rw [hback { s with reactor := r' } ho hret]
    simp only [State.back, Timers.State.opRet, hret, Timers.State.pushed, Option.map_some]
  refine ⟨_, .head (Or.inl hfirst) (.tail (own_of_alone halone) (Or.inl hlast)), ⟨?_, ?_⟩,
    hQ _ (objs_set _ i o')⟩
  · exact hr'.setCalling .idle
  · exact Timers.calling_setCalling _ i _

omit [DecidableEq ι] in
theorem insertTimer_run (when : ℕ) (waker : W) (r : Reactor W) :
    (Reactor.insertTimer when waker).run r = (some r.timers.idGen, { r with
      timers := TimerStore.State.push { r.timers with idGen := r.timers.idGen + 1 }
        (.insert when r.timers.idGen waker)
      issued := r.timers.idGen :: r.issued }) := rfl

/-- `insert_timer(when, waker)` of the object `o`, which is `o' id` afterwards. -/
theorem insertTimer {when : ℕ} {waker : W} {o : Obj W} (o' : ℕ → Obj W)
    {Q : ℕ → State ι W → Prop} (ho : s.objs i = o)
    (hcall : ∀ s : State ι W, s.objs i = o → s.reactor.calling i = .idle →
      s.next i = s.callInsert i when waker)
    (hback : ∀ (s : State ι W) (id : ℕ), s.objs i = { o with issued := id :: o.issued } →
      s.reactor.calling i = .ret (some id) → s.next i = s.back i (o' id))
    (hQ : ∀ (s' : State ι W) (id : ℕ), s'.objs i = o' id → Q id s') :
    Runs i (Reactor.insertTimer when waker) s Q := by
  intro r hr id r' hrun
  rw [insertTimer_run] at hrun
  cases hrun
  obtain ⟨o₁, ho₁⟩ : ∃ o₁, o₁ = { o with issued := r.timers.idGen :: o.issued } := ⟨_, rfl⟩
  -- the reactor while `insert_timer` is about to push
  obtain ⟨r₁, hr₁⟩ : ∃ r₁, r₁ = { s.reactor with idGen := s.reactor.idGen + 1 }.setCalling i
    (.push (.insert when r.timers.idGen waker)) := ⟨_, rfl⟩
  have hfirst : s.next i = some ({ s with reactor := r₁ }.set i o₁) := by
    simp only [hcall s ho hr.calling, State.callInsert, Timers.State.insertTimer, hr.calling,
      Option.map_some, hr₁, ho₁, ho, hr.reactor.idGen]
  have hmatches : Timers.Matches i r₁ { r.timers with idGen := r.timers.idGen + 1 } := by
    rw [hr₁]
    exact ⟨hr.reactor.store, hr.reactor.clock, congrArg (· + 1) hr.reactor.idGen,
      hr.reactor.lock, hr.reactor.notifying⟩
  have hpush : r₁.calling i = .push (.insert when r.timers.idGen waker) := by
    rw [hr₁]
    exact Timers.calling_setCalling _ i _
  obtain ⟨r₂, halone₂, hr₂, hret₂⟩ := Timers.alone_push hmatches hpush
  obtain ⟨r₃, halone₃, hr₃, hret₃⟩ := Timers.alone_notify hr₂ hret₂
  have halone : Timers.Alone (.op i) r₁ r₃ := ReflTransGen.trans halone₂ halone₃
  have hinside : ReflTransGen (OwnStep i) ({ s with reactor := r₁ }.set i o₁)
      ({ s with reactor := r₃ }.set i o₁) :=
    own_of_alone (s := { s with reactor := r₁ }.set i o₁) halone
  have hlast : State.next (State.set { s with reactor := r₃ } i o₁) i =
      some ({ s with reactor := r₃.setCalling i .idle }.set i (o' r.timers.idGen)) := by
    rw [hback (State.set { s with reactor := r₃ } i o₁) r.timers.idGen ((objs_set _ i o₁).trans ho₁)
      hret₃]
    simp only [State.back, State.set, Timers.State.opRet, hret₃, Option.map_some,
      Function.update_idem]
  refine ⟨_, .head (Or.inl hfirst) (.tail hinside (Or.inl hlast)), ⟨?_, ?_⟩,
    hQ _ _ (objs_set _ i _)⟩
  · exact hr₃.setCalling .idle
  · exact Timers.calling_setCalling _ i _

end Runs

/-- An object at rest. -/
theorem exists_obj {o : Obj W} {t : Timer W} (hpc : o.pc = .idle) (ht : o.timer = some t) :
    ∃ last mark issued, o = ⟨some t, .idle, last, mark, issued⟩ := by
  obtain ⟨timer, pc, last, mark, issued⟩ := o
  cases hpc
  cases ht
  exact ⟨last, mark, issued, rfl⟩

/-- The call has returned, and the object is at rest with the timer `t`. -/
structure Rested (i : ι) (t : Timer W) (last : Last W) (s : State ι W) : Prop where
  timer : (s.objs i).timer = some t
  pc : (s.objs i).pc = .idle
  last : (s.objs i).last = last

omit [DecidableEq ι] in
theorem rested_of {t : Timer W} {last : Last W} {mark : ℕ} {issued : List ℕ}
    (h : s.objs i = ⟨some t, .idle, last, mark, issued⟩) : Rested i t last s :=
  ⟨by rw [h], by rw [h], by rw [h]⟩

/-- **`reset` alone** does what the program `reset` does. -/
theorem alone_reset {t t' : Timer W} {r r' : Reactor W} {when : ℕ}
    (hpc : (s.objs i).pc = .idle) (ht : (s.objs i).timer = some t) (hr : Matches i s r)
    (hrun : (t.reset when).run r = (some t', r')) :
    ∃ s₁ s', s.reset i when = some s₁ ∧ ReflTransGen (OwnStep i) s₁ s' ∧ Matches i s' r' ∧
      Rested i t' .reset s' := by
  obtain ⟨last, mark, issued, ho⟩ := exists_obj hpc ht
  obtain ⟨o, hcall, hruns⟩ : ∃ o, s.reset i when = some (s.set i o) ∧
      Runs i (t.reset when) (s.set i o) fun t' => Rested i t' .reset := by
    obtain ⟨deadline, key, waker⟩ := t
    cases waker with
    | none =>
      refine ⟨⟨some ⟨when, key, none⟩, .idle, .reset, s.reactor.fired.length, issued⟩, ?_, ?_⟩
      · simp only [State.reset, ho]
      · exact .pure (rested_of (objs_set s i _))
    | some w =>
      refine ⟨⟨some ⟨deadline, key, some w⟩, .resetRemove when w, last, s.reactor.fired.length,
        issued⟩, ?_, ?_⟩
      · simp only [State.reset, ho]
      · refine .bind (Runs.removeTimer ⟨deadline, key, some w⟩
          ⟨some ⟨deadline, key, some w⟩, .resetInsert when w, last, s.reactor.fired.length,
            issued⟩ (objs_set s i _) ?_ ?_ fun s₁ ho₁ => ?_)
        · intro s ho hi
          simp only [State.next, ho, hi]
        · intro s ho hi
          simp only [State.next, ho, hi]
        · refine .bind (Runs.insertTimer (fun id => ⟨some ⟨when, id, some w⟩, .idle, .reset,
            s.reactor.fired.length, id :: issued⟩) ho₁ ?_ ?_ fun s₂ id ho₂ => ?_)
          · intro s ho hi
            simp only [State.next, ho, hi]
          · intro s id ho hi
            simp only [State.next, ho, hi]
          · exact .pure (rested_of ho₂)
  obtain ⟨s', hs', hr', hQ⟩ := hruns r ⟨hr.reactor, hr.calling⟩ _ r' hrun
  exact ⟨_, s', hcall, hs', hr', hQ⟩

/-- The end of a `poll_timeout` that registers `cx`. -/
theorem runs_register {deadline key now mark : ℕ} {cx : W} {waker : Option W} {last : Last W}
    {issued : List ℕ}
    (ho : s.objs i = ⟨some ⟨deadline, key, waker⟩, .pollInsert cx, last, mark, issued⟩) :
    Runs i (do
      let key ← Reactor.insertTimer deadline cx
      return ((none : Option ℕ), now, (⟨deadline, key, some cx⟩ : Timer W))) s fun out s' =>
        out.2.1 = now ∧ Rested i out.2.2 (out.1.elim (.pending cx) fun _ => .ready) s' := by
  refine .bind (Runs.insertTimer (fun id => ⟨some ⟨deadline, id, some cx⟩, .idle, .pending cx,
    mark, id :: issued⟩) ho ?_ ?_ fun s₁ id ho₁ => ?_)
  · intro s ho hi
    simp only [State.next, ho, hi]
  · intro s id ho hi
    simp only [State.next, ho, hi]
  · exact .pure ⟨rfl, rested_of ho₁⟩

/-- **`poll_timeout` alone** does what the program `poll_timeout` does. -/
theorem alone_pollTimeout [DecidableEq W] {t t' : Timer W} {r r' : Reactor W} {cx : W}
    {res : Option ℕ} {now : ℕ}
    (hpc : (s.objs i).pc = .idle) (ht : (s.objs i).timer = some t) (hr : Matches i s r)
    (hrun : (t.pollTimeout cx).run r = (some (res, now, t'), r')) :
    ∃ s₁ s', s.pollTimeout i cx = some s₁ ∧ ReflTransGen (OwnStep i) s₁ s' ∧ Matches i s' r' ∧
      now = s.reactor.clock ∧ Rested i t' (res.elim (.pending cx) fun _ => .ready) s' := by
  obtain ⟨last, mark, issued, ho⟩ := exists_obj hpc ht
  obtain ⟨o, hcall, hruns⟩ : ∃ o, s.pollTimeout i cx = some (s.set i o) ∧
      Runs i (t.pollTimeout cx) (s.set i o) fun out s' => out.2.1 = s.reactor.clock ∧
        Rested i out.2.2 (out.1.elim (.pending cx) fun _ => .ready) s' := by
    obtain ⟨deadline, key, waker⟩ := t
    by_cases hd : deadline ≤ s.reactor.clock
    · by_cases hk : 0 < key
      · refine ⟨⟨some ⟨deadline, key, waker⟩, .pollReady, last, s.reactor.fired.length, issued⟩,
          ?_, ?_⟩
        · simp only [State.pollTimeout, ho, if_pos hd, if_pos hk]
        · refine .bind (Runs.now ?_)
          simp only [State.set, if_pos hd, if_pos hk]
          refine .bind (Runs.removeTimer ⟨deadline, key, waker⟩
            ⟨some ⟨deadline, key, waker⟩, .idle, .ready, s.reactor.fired.length, issued⟩
            (objs_set s i _) ?_ ?_ fun s₁ ho₁ => ?_)
          · intro s ho hi
            simp only [State.next, ho, hi]
          · intro s ho hi
            simp only [State.next, ho, hi]
          · exact .pure ⟨rfl, rested_of ho₁⟩
      · refine ⟨⟨some ⟨deadline, key, waker⟩, .idle, .ready, s.reactor.fired.length, issued⟩,
          ?_, ?_⟩
        · simp only [State.pollTimeout, ho, if_pos hd, if_neg hk]
        · refine .bind (Runs.now ?_)
          simp only [State.set, if_pos hd, if_neg hk]
          exact .pure ⟨rfl, rested_of (objs_set s i _)⟩
    · cases waker with
      | none =>
        refine ⟨⟨some ⟨deadline, key, none⟩, .pollInsert cx, last, s.reactor.fired.length,
          issued⟩, ?_, ?_⟩
        · simp only [State.pollTimeout, ho, if_neg hd]
        · refine .bind (Runs.now ?_)
          rw [if_neg (show ¬ deadline ≤ (s.set i _).reactor.clock from hd)]
          exact runs_register (objs_set s i _)
      | some w =>
        by_cases hw : w = cx
        · refine ⟨⟨some ⟨deadline, key, some w⟩, .idle, .pending cx, s.reactor.fired.length,
            issued⟩, ?_, ?_⟩
          · simp only [State.pollTimeout, ho, if_neg hd, ne_eq, hw, not_true, if_false]
          · refine .bind (Runs.now ?_)
            simp only [State.set, if_neg hd, ne_eq, hw, not_true, if_false]
            exact .pure ⟨rfl, rested_of (objs_set s i _)⟩
        · refine ⟨⟨some ⟨deadline, key, some w⟩, .pollRemove cx, last, s.reactor.fired.length,
            issued⟩, ?_, ?_⟩
          · simp only [State.pollTimeout, ho, if_neg hd, ne_eq, hw, not_false_eq_true, if_true]
          · refine .bind (Runs.now ?_)
            simp only [State.set, if_neg hd, ne_eq, hw, not_false_eq_true, if_true]
            refine .bind (Runs.removeTimer ⟨deadline, key, some w⟩
              ⟨some ⟨deadline, key, some w⟩, .pollInsert cx, last, s.reactor.fired.length,
                issued⟩ (objs_set s i _) ?_ ?_ fun s₁ ho₁ => ?_)
            · intro s ho hi
              simp only [State.next, ho, hi]
            · intro s ho hi
              simp only [State.next, ho, hi]
            · exact runs_register ho₁
  obtain ⟨s', hs', hr', hnow, hQ⟩ := hruns r ⟨hr.reactor, hr.calling⟩ _ r' hrun
  exact ⟨_, s', hcall, hs', hr', hnow, hQ⟩

end Timer

end Awak
