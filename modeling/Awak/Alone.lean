/-
  A worker of `Exec` whose `search` is not interrupted.

  `Executor` takes `search` apart into single accesses to atomics, `Search` is
  the program of its calls to the queues.  Here the steps of a worker that runs
  alone are shown to be the ones of the program.

  * `Local.Alone`: a call of `Local` that is not interrupted; `alone_pop`,
    `alone_push` and `alone_len` give its effect;
  * `Exec.Runs`: the worker runs a program over the queues, with one rule for
    each operation;
  * `Exec.remaining`: the shards that the iterator of `search` still yields;
  * `Exec.alone_search`: the worker finds what the program finds, and leaves the
    queues as the program leaves them.
-/
import Awak.Search

namespace Awak

open Relation

variable {n m : ℕ} {ι T R : Type}

/-! ## Calls of `Local` -/

namespace Local

/-- The steps `next` of a call, taken alone, return `b` and leave `l'`. -/
def Alone {β : Type} (next : Local ι T → Option (Local ι T × Option β)) (l : Local ι T) (b : β)
    (l' : Local ι T) : Prop :=
  ∃ l₁, ReflTransGen (fun l l' => next l = some (l', none)) l l₁ ∧ next l₁ = some (l', some b)

variable [DecidableEq ι] {l : Local ι T} {i : ι}

theorem popping_setPop (p : PopPc T) : (l.setPop i p).popping i = p := Function.update_self _ _ _

theorem counting_setLen (p : LenPc) : (l.setLen i p).counting i = p := Function.update_self _ _ _

theorem setPop_setPop (p p' : PopPc T) : (l.setPop i p).setPop i p' = l.setPop i p' := by
  simp only [setPop, Function.update_idem]

theorem setLen_setLen (p p' : LenPc) : (l.setLen i p).setLen i p' = l.setLen i p' := by
  simp only [setLen, Function.update_idem]

theorem setPop_idle (hi : l.popping i = .idle) : l.setPop i .idle = l := by
  rw [setPop, ← hi, Function.update_eq_self]

theorem setLen_idle (hi : l.counting i = .idle) : l.setLen i .idle = l := by
  rw [setLen, ← hi, Function.update_eq_self]

/-- `head` is read, then `tail`; unless the queue is empty, then the slot is read and
    the compare-exchange succeeds. -/
theorem alone_pop (hi : l.popping i = .idle) : Alone (·.popNext i) l l.pop.1 l.pop.2 := by
  have hhead : l.popNext i =
      some (l.setPop i (.loadTail l.head l.popped.length l.popped.length), none) := by
    simp only [popNext, popCall, hi, Option.map_some]
  by_cases he : l.head = l.tail
  · rw [pop, if_pos he]
    refine ⟨l.setPop i (.ret .errorEmpty), .tail (.single hhead) ?_, ?_⟩
    · simp only [popNext, popStep, popping_setPop, setPop_setPop]
      exact congrArg _ (if_pos he)
    · simp only [popNext, popRet, popping_setPop, setPop_setPop, setPop_idle hi, Option.map_some]
  · rw [pop, if_neg he]
    obtain ⟨value, hvalue⟩ : ∃ value, value = l.buffer (l.head &&& l.mask) := ⟨_, rfl⟩
    have htail : (l.setPop i (.loadTail l.head l.popped.length l.popped.length)).popNext i =
        some (l.setPop i (.readSlot l.head l.popped.length l.popped.length), none) := by
      simp only [popNext, popStep, popping_setPop, setPop_setPop]
      exact congrArg _ (if_neg he)
    have hslot : (l.setPop i (.readSlot l.head l.popped.length l.popped.length)).popNext i =
        some (l.setPop i (.cas l.head value l.popped.length l.popped.length), none) := by
      simp only [popNext, popStep, popping_setPop, setPop_setPop, hvalue]
      rfl
    have hcas : (l.setPop i (.cas l.head value l.popped.length l.popped.length)).popNext i =
        some (setPop { l with
          head := Word.wrappingAdd l.head 1, popped := l.popped ++ [value] } i (.ret (.ok value)),
          none) := by
      simp only [popNext, popStep, popping_setPop]
      rw [if_pos (by rfl)]
      simp only [setPop_setPop, Option.map_some]
      rfl
    refine ⟨_, .tail (.tail (.tail (.single hhead) htail) hslot) hcas, ?_⟩
    rw [← hvalue]
    simp only [popNext, popRet, popping_setPop, setPop_setPop, Option.map_some]
    rw [setPop_idle]
    exact hi

theorem alone_len (hi : l.counting i = .idle) : Alone (·.lenNext i) l l.len l := by
  refine ⟨l.setLen i (.ret l.len l.popped.length l.pushed.length l.pushed.length),
    .tail (.single (b := l.setLen i (.loadTail l.head l.popped.length l.pushed.length)) ?_) ?_, ?_⟩
  · simp only [lenNext, lenCall, hi, Option.map_some]
  · simp only [lenNext, lenStep, counting_setLen, setLen_setLen, Option.map_some]
    rfl
  · simp only [lenNext, lenRet, counting_setLen, setLen_setLen, setLen_idle hi, Option.map_some]

omit [DecidableEq ι] in
theorem alone_push (hi : l.pushing = .idle) (value : T) {l₁ : Local ι T}
    (hcall : l.pushCall value = some l₁) :
    Alone pushNext l₁ (l.push value).1 (l.push value).2 := by
  simp only [pushCall, hi, Option.some.injEq] at hcall
  subst hcall
  by_cases hroom : Word.wrappingSub l.tail l.head < l.capacity
  · rw [push, if_pos hroom]
    have htail : pushNext { l with
        pushing := .loadTail value l.head l.popped.length l.items.length } =
          some ({ l with pushing := .write value l.tail }, none) := by
      simp only [pushNext, pushStep, if_pos hroom, Option.map_some]
    have hwrite : pushNext { l with pushing := .write value l.tail } =
        some ({ l with
          buffer := Function.update l.buffer (l.tail &&& l.mask) (some value)
          pushing := .store value l.tail }, none) := rfl
    have hstore : pushNext { l with
        buffer := Function.update l.buffer (l.tail &&& l.mask) (some value)
        pushing := .store value l.tail } =
          some ({ l with
            buffer := Function.update l.buffer (l.tail &&& l.mask) (some value)
            tail := Word.wrappingAdd l.tail 1
            pushing := .ret .ok
            pushed := l.pushed ++ [value] }, none) := rfl
    refine ⟨_, .tail (.tail (.single htail) hwrite) hstore, ?_⟩
    simp only [pushNext, pushRet, Option.map_some, hi]
  · rw [push, if_neg hroom]
    refine ⟨{ l with pushing := .ret (.errorFull value) }, .single ?_, ?_⟩
    · simp only [pushNext, pushStep, if_neg hroom, Option.map_some]
    · simp only [pushNext, pushRet, Option.map_some, ← hi]

end Local

/-! ## Programs over the queues -/

namespace Exec

open Queues

/-- A step of worker `w`, which picks `start` as its random number. -/
def OwnStep (w : Fin n) (start : ℕ) (s s' : Exec n m R) : Prop :=
  s.work w = some s' ∨ s.start w start = some s'

/-- Worker `w` runs alone. -/
def Alone (w : Fin n) (start : ℕ) : Exec n m R → Exec n m R → Prop := ReflTransGen (OwnStep w start)

/-- The queues of `s` are those of `t`, and the worker has no call in progress. -/
structure Matches (w : Fin n) (s : Exec n m R) (t : Queues n R) : Prop where
  queue : s.queue = t.queue
  locals : s.locals = t.locals
  popping : ∀ q, (t.locals q).popping w = .idle
  counting : ∀ q, (t.locals q).counting w = .idle
  pushing : (t.locals w).pushing = .idle

/-- From `s` the worker does what the program `p` does, and then satisfies `Q`. -/
abbrev Runs {α : Type} (w : Fin n) (start : ℕ) (p : Prog (Queues n R) α) (s : Exec n m R)
    (Q : α → Exec n m R → Prop) : Prop := Prog.Runs (OwnStep w start) (Matches w) p s Q

variable {w q : Fin n} {start : ℕ} {s s₁ : Exec n m R} {t : Queues n R}

theorem Matches.of_eq (h : Matches w s t) (hqueue : s₁.queue = s.queue)
    (hlocals : s₁.locals = s.locals) : Matches w s₁ t :=
  { h with queue := hqueue.trans h.queue, locals := hlocals.trans h.locals }

/-- A call on the queue of `q` that has returned. -/
theorem Matches.setLocal (h : Matches w s t) {l : Local (Fin n) R}
    (hpop : l.popping = (t.locals q).popping) (hlen : l.counting = (t.locals q).counting)
    (hpush : l.pushing = (t.locals q).pushing) : Matches w (s.setLocal q l) (t.setLocal q l) := by
  have hlocals : ∀ q', (t.setLocal q l).locals q' = t.locals q' ∨
      q' = q ∧ (t.setLocal q l).locals q' = l := by
    intro q'
    by_cases he : q' = q
    · subst he
      exact Or.inr ⟨rfl, Function.update_self _ _ _⟩
    · exact Or.inl (Function.update_of_ne he _ _)
  refine ⟨h.queue, ?_, fun q' => ?_, fun q' => ?_, ?_⟩
  · exact congrArg (fun f => Function.update f q l) h.locals
  · rcases hlocals q' with he | ⟨rfl, he⟩
    · rw [he]
      exact h.popping q'
    · rw [he, hpop]
      exact h.popping q'
  · rcases hlocals q' with he | ⟨rfl, he⟩
    · rw [he]
      exact h.counting q'
    · rw [he, hlen]
      exact h.counting q'
  · rcases hlocals w with he | ⟨rfl, he⟩
    · rw [he]
      exact h.pushing
    · rw [he, hpush]
      exact h.pushing

theorem setLocal_setLocal (l l' : Local (Fin n) R) :
    (s.setLocal q l).setLocal q l' = s.setLocal q l' := by
  simp only [setLocal, Function.update_idem]

theorem setLocal_locals : s.setLocal q (s.locals q) = s := by
  rw [setLocal, Function.update_eq_self]

/-- The steps of a call on the queue of `q`, and what follows it. -/
theorem alone_call {β : Type} (start : ℕ)
    {next : Local (Fin n) R → Option (Local (Fin n) R × Option β)} {k : Exec n m R → β → Exec n m R}
    (hwork : ∀ l l' res, next l = some (l', res) →
      (s.setLocal q l).work w = some (res.elim (s.setLocal q l') (k (s.setLocal q l'))))
    {l l' : Local (Fin n) R} {b : β} (h : Local.Alone next l b l') :
    Alone w start (s.setLocal q l) (k (s.setLocal q l') b) := by
  obtain ⟨l₁, hsteps, hret⟩ := h
  refine .tail ?_ (Or.inl (hwork l₁ l' (some b) hret))
  exact ReflTransGen.lift (fun l => s.setLocal q l) (fun a c h => Or.inl (hwork a c none h)) _ _
    hsteps

namespace Runs

variable {α : Type} {w q : Fin n} {start : ℕ} {s s₁ : Exec n m R} {p : Prog (Queues n R) α}
  {Q : α → Exec n m R → Prop}

/-- The worker moves on without touching a queue. -/
theorem goto (hs : OwnStep w start s s₁) (hqueue : s₁.queue = s.queue)
    (hlocals : s₁.locals = s.locals) (h : Runs w start p s₁ Q) : Runs w start p s Q :=
  .steps (.single hs) (fun _ ht => ht.of_eq hqueue hlocals) h

/-- A call of `pop` on the queue of `q`. -/
theorem popLocal {Q : Option R → Exec n m R → Prop} {k : Exec n m R → PopRes R → Exec n m R}
    (hwork : ∀ l, (s.setLocal q l).work w = (s.setLocal q l).popLocal q w k)
    (hk : ∀ s res, (k s res).queue = s.queue ∧ (k s res).locals = s.locals)
    (hempty : ∀ l, Q none (k (s.setLocal q l) .errorEmpty))
    (hok : ∀ l r, Q (some r) (k (s.setLocal q l) (.ok (some r)))) :
    Runs w start (Queues.popLocal q) s Q := by
  intro t ht a t' hrun
  have halone : Alone w start s (k (s.setLocal q (t.locals q).pop.2) (t.locals q).pop.1) := by
    have hnext : ∀ l l' res, l.popNext w = some (l', res) →
        (s.setLocal q l).work w = some (res.elim (s.setLocal q l') (k (s.setLocal q l'))) := by
      intro l l' res hl
      rw [hwork, Exec.popLocal, setLocal_self, hl]
      cases res <;> simp only [Option.map_some, Option.elim, setLocal_setLocal]
    have hcall := alone_call start hnext (Local.alone_pop (ht.popping q))
    rw [← ht.locals] at hcall ⊢
    rwa [setLocal_locals] at hcall
  have hmatches : Matches w (k (s.setLocal q (t.locals q).pop.2) (t.locals q).pop.1)
      (t.setLocal q (t.locals q).pop.2) := by
    obtain ⟨hqueue, hlocals⟩ := hk (s.setLocal q (t.locals q).pop.2) (t.locals q).pop.1
    refine Matches.of_eq (ht.setLocal ?_ ?_ ?_) hqueue hlocals
    all_goals
      unfold Local.pop
      split <;> rfl
  obtain ⟨res, t₁, hatom, hres⟩ := Prog.of_run_bind hrun
  obtain ⟨rfl, rfl⟩ : (t.locals q).pop.1 = res ∧ t.setLocal q (t.locals q).pop.2 = t₁ := by
    simpa using hatom
  refine ⟨_, halone, ?_⟩
  split at hres <;> cases hres
  next r hr => exact ⟨hmatches, hr ▸ hok _ r⟩
  next hr => exact ⟨hmatches, hr ▸ hempty _⟩

/-- A call of `push` on the worker's own queue. -/
theorem pushLocal {Q : PushRes R → Exec n m R → Prop} {k : Exec n m R → PushRes R → Exec n m R}
    {r : R} (pc : Pc n R)
    (hcall : s.work w = ((s.locals w).pushCall r).map fun l => (s.setLocal w l).goto w pc)
    (hwork : ∀ l, ((s.goto w pc).setLocal w l).work w =
      ((s.goto w pc).setLocal w l).pushLocal w k)
    (hk : ∀ s res, (k s res).queue = s.queue ∧ (k s res).locals = s.locals)
    (hQ : ∀ l res, Q res (k ((s.goto w pc).setLocal w l) res)) :
    Runs w start (Queues.pushLocal w r) s Q := by
  intro t ht a t' hrun
  cases hrun
  obtain ⟨l, hl⟩ : ∃ l, (t.locals w).pushCall r = some l := by
    simp only [Local.pushCall, ht.pushing, Option.some.injEq, exists_eq']
  have halone : Alone w start s
      (k ((s.goto w pc).setLocal w ((t.locals w).push r).2) ((t.locals w).push r).1) := by
    have hnext : ∀ l l' res, l.pushNext = some (l', res) →
        ((s.goto w pc).setLocal w l).work w = some (res.elim ((s.goto w pc).setLocal w l')
          (k ((s.goto w pc).setLocal w l'))) := by
      intro l l' res hl
      rw [hwork, Exec.pushLocal, setLocal_self, hl]
      cases res <;> simp only [Option.map_some, Option.elim, setLocal_setLocal]
    rw [ht.locals, hl] at hcall
    exact .head (Or.inl hcall) (alone_call start hnext (Local.alone_push ht.pushing r hl))
  refine ⟨_, halone, ?_, hQ _ _⟩
  obtain ⟨hqueue, hlocals⟩ :=
    hk ((s.goto w pc).setLocal w ((t.locals w).push r).2) ((t.locals w).push r).1
  have hgoto : Matches w (s.goto w pc) t := ht.of_eq rfl rfl
  refine Matches.of_eq (hgoto.setLocal ?_ ?_ ?_) hqueue hlocals
  all_goals
    unfold Local.push
    split <;> rfl

/-- A call of `len` on the queue of `q`. -/
theorem lenLocal {Q : ℕ → Exec n m R → Prop} {k : Exec n m R → ℕ → Exec n m R}
    (hwork : ∀ l, (s.setLocal q l).work w = (s.setLocal q l).lenLocal q w k)
    (hk : ∀ s length, (k s length).queue = s.queue ∧ (k s length).locals = s.locals)
    (hQ : Q (s.locals q).len (k s (s.locals q).len)) :
    Runs w start (Queues.lenLocal q) s Q := by
  intro t ht a t' hrun
  cases hrun
  have halone : Alone w start s (k s (s.locals q).len) := by
    have hnext : ∀ l l' res, l.lenNext w = some (l', res) →
        (s.setLocal q l).work w = some (res.elim (s.setLocal q l') (k (s.setLocal q l'))) := by
      intro l l' res hl
      rw [hwork, Exec.lenLocal, setLocal_self, hl]
      cases res <;> simp only [Option.map_some, Option.elim, setLocal_setLocal]
    have hcall := alone_call start hnext (Local.alone_len (ht.counting q))
    rwa [← ht.locals, setLocal_locals] at hcall
  refine ⟨_, halone, ht.of_eq (hk s _).1 (hk s _).2, ?_⟩
  change Q (t.locals q).len _
  rwa [← ht.locals]

theorem lenGlobal {Q : ℕ → Exec n m R → Prop} (hs : s.work w = some s₁)
    (hqueue : s₁.queue = s.queue) (hlocals : s₁.locals = s.locals) (hQ : Q s.queue.len s₁) :
    Runs w start Queues.lenGlobal s Q := by
  refine .atom fun t ht => ⟨s₁, .single (Or.inl hs), ht.of_eq hqueue hlocals, ?_⟩
  rwa [← ht.queue]

theorem capacity {Q : ℕ → Exec n m R → Prop} (hQ : Q (s.locals q).capacity s) :
    Runs w start (Queues.capacity q) s Q := by
  refine .atom fun t ht => ⟨s, .refl, ht, ?_⟩
  rwa [← ht.locals]

theorem record {Q : Unit → Exec n m R → Prop} (hQ : Q () s) :
    Runs w start (Queues.record q) s Q :=
  .atom fun _ ht => ⟨s, .refl, { ht with }, hQ⟩

theorem popGlobal {Q : Option R → Exec n m R → Prop}
    {k : Exec n m R → Option R → Exec n m R}
    (hwork : s.work w = some (match s.queue.pop with
      | none => k s none
      | some (r, queue) => k { s with queue := queue } (some r)))
    (hk : ∀ s res, (k s res).queue = s.queue ∧ (k s res).locals = s.locals)
    (hQ : ∀ queue res, Q res (k { s with queue := queue } res)) :
    Runs w start Queues.popGlobal s Q := by
  refine .atom fun t ht => ?_
  rw [← ht.queue]
  cases hp : s.queue.pop with
  | none =>
    rw [hp] at hwork
    obtain ⟨hqueue, hlocals⟩ := hk s none
    exact ⟨_, .single (Or.inl hwork), ht.of_eq hqueue hlocals, hQ s.queue none⟩
  | some x =>
    obtain ⟨r, queue⟩ := x
    rw [hp] at hwork
    obtain ⟨hqueue, hlocals⟩ := hk { s with queue := queue } (some r)
    have hmatches : Matches w { s with queue := queue } { t with queue := queue } :=
      { ht with queue := rfl }
    exact ⟨_, .single (Or.inl hwork), hmatches.of_eq hqueue hlocals, hQ queue (some r)⟩

end Runs

/-! ## `steal` -/

/-- Where the worker goes on after `steal`. -/
def place : Cont R → Pc n R
  | .found r => .wakeSwap r
  | .shard iter => .popOwn (some iter)
  | .ticked r => .run r

theorem goto_pc (s : Exec n m R) (w : Fin n) (p : Pc n R) : (s.goto w p).pc w = p :=
  Function.update_self _ _ _

theorem resume_pc (s : Exec n m R) (w : Fin n) (k : Cont R) : (s.resume w k).pc w = place k := by
  cases k <;> exact Function.update_self _ _ _

theorem resume_stored (s : Exec n m R) (w : Fin n) (k : Cont R) :
    (s.resume w k).stored = s.stored := by
  cases k <;> rfl

theorem resume_queue (s : Exec n m R) (w : Fin n) (k : Cont R) :
    (s.resume w k).queue = s.queue ∧ (s.resume w k).locals = s.locals := by
  cases k <;> exact ⟨rfl, rfl⟩

theorem work_steal {src : Src n} {st : StealPc R} {k : Cont R} (h : s.pc w = .steal src st k) :
    s.work w = s.steal w src k st := by
  simp only [work, h]

/-- The pop of the loop of `steal`. -/
theorem runs_popFrom {src : Src n} {left : ℕ} {k : Cont R}
    (h : s.pc w = .steal src (.take (left + 1)) k) :
    Runs w start (popFrom src) s fun res s' => s'.stored = s.stored ∧
      s'.pc w = res.elim (place k) fun r => .steal src (.push left r) k := by
  cases src with
  | global =>
    refine Runs.popGlobal (k := fun s res =>
      res.elim (s.resume w k) fun r => s.goto w (.steal .global (.push left r) k)) ?_ ?_ ?_
    · rw [work_steal h, Exec.steal]
      cases hp : s.queue.pop with
      | none => rfl
      | some x => rfl
    · intro s res
      cases res with
      | none => exact resume_queue s w k
      | some r => exact ⟨rfl, rfl⟩
    · intro queue res
      cases res with
      | none => exact ⟨resume_stored _ w k, resume_pc _ w k⟩
      | some r => exact ⟨rfl, goto_pc _ w _⟩
  | shard q =>
    refine Runs.popLocal (fun l => by
      rw [work_steal (s := s.setLocal q l) h, Exec.steal]) ?_ ?_ ?_
    · intro s res
      cases res with
      | ok value => cases value <;> exact ⟨rfl, rfl⟩
      | errorEmpty => exact resume_queue s w k
    · intro l
      exact ⟨resume_stored _ w k, resume_pc _ w k⟩
    · intro l r
      exact ⟨rfl, goto_pc _ w _⟩

/-- The push of the loop of `steal`. -/
theorem runs_pushLocal {src : Src n} {left : ℕ} {r : R} {k : Cont R}
    (h : s.pc w = .steal src (.push left r) k) :
    Runs w start (Queues.pushLocal w r) s fun _ s' => s'.stored = s.stored ∧
      s'.pc w = .steal src (.take left) k := by
  refine Runs.pushLocal (.steal src (.pushing left) k) (work_steal h)
    (fun l => by
      rw [work_steal (s := (s.goto w _).setLocal w l) (goto_pc s w _), Exec.steal]) ?_ ?_
  · intro s res
    cases res <;> exact ⟨rfl, rfl⟩
  · intro l res
    cases res <;> exact ⟨rfl, goto_pc _ w _⟩

theorem runs_stealLoop {src : Src n} {k : Cont R} (count : ℕ) : ∀ {s : Exec n m R},
    s.pc w = .steal src (.take count) k →
    Runs w start (stealLoop w (popFrom src) count) s fun _ s' => s'.stored = s.stored ∧
      s'.pc w = place k := by
  induction count with
  | zero =>
    intro s h
    obtain ⟨hqueue, hlocals⟩ := resume_queue s w k
    exact Runs.goto (Or.inl (work_steal h)) hqueue hlocals
      (.pure ⟨resume_stored s w k, resume_pc s w k⟩)
  | succ count ih =>
    intro s h
    refine .bind ((runs_popFrom h).mono fun res s₁ hs₁ => ?_)
    obtain ⟨hstored₁, hpc₁⟩ := hs₁
    cases res with
    | none => exact .pure ⟨hstored₁, hpc₁⟩
    | some r =>
      refine .bind ((runs_pushLocal hpc₁).mono fun _ s₂ hs₂ => ?_)
      obtain ⟨hstored₂, hpc₂⟩ := hs₂
      refine (ih hpc₂).mono fun _ s₃ hs₃ => ?_
      exact ⟨hs₃.1.trans (hstored₂.trans hstored₁), hs₃.2⟩

theorem runs_steal (s : Exec n m R) (src : Src n) (k : Cont R) (length : ℕ) :
    Runs w start (Queues.steal w length (popFrom src)) (s.stealCount w src k length)
      fun _ s' => s'.stored = s.stored ∧ s'.pc w = place k := by
  unfold Queues.steal stealCount
  split_ifs with hmax hcount
  · exact .panic
  · simp only [if_pos hcount]
    obtain ⟨count, hcount⟩ : ∃ count, count = (length + 1) / 2 := ⟨_, rfl⟩
    rw [← hcount]
    refine .bind (Runs.capacity (.bind (Runs.lenLocal (k := fun s length =>
      if length ≤ (s.locals w).capacity then
        s.goto w (.steal src (.take (min count ((s.locals w).capacity - length))) k)
      else s.goto w .abort) ?_ ?_ ?_)))
    · intro l
      exact work_steal (s := (s.goto w _).setLocal w l) (goto_pc s w _)
    · intro s length
      split_ifs <;> exact ⟨rfl, rfl⟩
    · split_ifs with hlt hle
      · exact .panic
      · exact .panic
      · refine .bind ((runs_stealLoop _ (goto_pc _ w _)).mono fun _ s' hs' => ?_)
        exact .pure hs'
      · omega
  · simp only [if_neg hcount]
    exact .pure ⟨resume_stored s w k, resume_pc s w k⟩

/-! ## `search` -/

/-- The shards that the iterator still yields. -/
def remaining (s : Exec n m R) (iter : Shards) : List (Fin n) :=
  ((((List.finRange n).drop iter.pos ++ if iter.second then [] else List.finRange n).filter
    fun q => (s.stored q).isSome).drop iter.skip).take iter.take

/-- How many slots there are until the end of the second round. -/
def slotsLeft (n : ℕ) (iter : Shards) : ℕ := (if iter.second then 0 else n + 1) + (n - iter.pos)

theorem drop_finRange {pos : ℕ} (hpos : pos < n) :
    (List.finRange n).drop pos = ⟨pos, hpos⟩ :: (List.finRange n).drop (pos + 1) := by
  rw [List.drop_eq_getElem_cons (by rwa [List.length_finRange]), List.getElem_finRange]
  rfl

section Slots
variable {second : Bool} {pos skip take : ℕ} (hpos : pos < n)

/-- A slot without a shard. -/
theorem remaining_vacant (h : s.stored ⟨pos, hpos⟩ = none) :
    s.remaining ⟨second, pos, skip, take⟩ = s.remaining ⟨second, pos + 1, skip, take⟩ := by
  simp only [remaining, drop_finRange hpos, List.cons_append]
  rw [List.filter_cons_of_neg (by simp [h])]

theorem remaining_skip {k : ℕ} (h : s.stored ⟨pos, hpos⟩ = some k) :
    s.remaining ⟨second, pos, skip + 1, take⟩ = s.remaining ⟨second, pos + 1, skip, take⟩ := by
  simp only [remaining, drop_finRange hpos, List.cons_append]
  rw [List.filter_cons_of_pos (by simp [h]), List.drop_succ_cons]

theorem remaining_take {k : ℕ} (h : s.stored ⟨pos, hpos⟩ = some k) :
    s.remaining ⟨second, pos, 0, take + 1⟩ =
      ⟨pos, hpos⟩ :: s.remaining ⟨second, pos + 1, 0, take⟩ := by
  simp only [remaining, drop_finRange hpos, List.cons_append]
  rw [List.filter_cons_of_pos (by simp [h]), List.drop_zero, List.take_succ_cons, List.drop_zero]

end Slots

/-- One slot of the iteration: what is yielded does not change, except for a shard
    of another worker, which is stolen from. -/
theorem nextShard_remaining (s : Exec n m R) (w : Fin n) (iter : Shards) :
    (s.nextShard w iter = .sleep ∧ s.remaining iter = []) ∨
    ∃ next, slotsLeft n next < slotsLeft n iter ∧
      (s.nextShard w iter = .shards next ∧
        (s.remaining iter).filter (· ≠ w) = (s.remaining next).filter (· ≠ w) ∨
      ∃ q, s.nextShard w iter = .steal (.shard q) .length (.shard next) ∧
        (s.remaining iter).filter (· ≠ w) = q :: (s.remaining next).filter (· ≠ w)) := by
  obtain ⟨second, pos, skip, take⟩ := iter
  by_cases htake : take = 0
  · subst htake
    exact Or.inl ⟨rfl, List.take_zero⟩
  by_cases hpos : pos < n
  · -- the slot of worker `pos`
    have hleft : ∀ skip' take', slotsLeft n ⟨second, pos + 1, skip', take'⟩ <
        slotsLeft n ⟨second, pos, skip, take⟩ := by
      intro skip' take'
      simp only [slotsLeft]
      omega
    simp only [nextShard, if_neg htake, dif_pos hpos]
    cases hstored : s.stored ⟨pos, hpos⟩ with
    | none =>
      refine Or.inr ⟨_, hleft skip take, Or.inl ⟨rfl, ?_⟩⟩
      rw [remaining_vacant hpos hstored]
    | some k =>
      cases skip with
      | succ skip =>
        refine Or.inr ⟨_, hleft skip take, Or.inl ⟨rfl, ?_⟩⟩
        rw [remaining_skip hpos hstored]
      | zero =>
        obtain ⟨take, rfl⟩ := Nat.exists_eq_succ_of_ne_zero htake
        refine Or.inr ⟨_, hleft 0 take, ?_⟩
        rw [remaining_take hpos hstored]
        by_cases hw : pos = w
        · subst hw
          exact Or.inl ⟨by simp, List.filter_cons_of_neg (by simp)⟩
        · have hne : (⟨pos, hpos⟩ : Fin n) ≠ w := fun h => hw (congrArg Fin.val h)
          exact Or.inr ⟨⟨pos, hpos⟩, by simp [hw], List.filter_cons_of_pos (by simpa using hne)⟩
  · -- the end of a round
    have hdrop : (List.finRange n).drop pos = [] :=
      List.drop_eq_nil_of_le (by rw [List.length_finRange]; omega)
    simp only [nextShard, if_neg htake, dif_neg hpos]
    cases second with
    | true =>
      refine Or.inl ⟨rfl, ?_⟩
      simp only [remaining, hdrop, if_true, List.append_nil, List.filter_nil, List.drop_nil,
        List.take_nil]
    | false =>
      refine Or.inr ⟨⟨true, 0, skip, take⟩, ?_, Or.inl ⟨rfl, ?_⟩⟩
      · simp only [slotsLeft, if_true, Bool.false_eq_true, if_false]
        omega
      · simp only [remaining, hdrop, List.drop_zero, if_true, List.append_nil, List.nil_append]
        rfl

/-- `pop` on the worker's own queue. -/
theorem runs_popOwn {rest : Option Shards} (h : s.pc w = .popOwn rest) :
    Runs w start (Queues.popLocal w) s fun res s' => s'.stored = s.stored ∧
      s'.pc w = res.elim (rest.elim .popGlobal .shards) .wakeSwap := by
  have hpc : ∀ l, (s.setLocal w l).pc w = .popOwn rest := fun _ => h
  refine Runs.popLocal (fun l => by simp only [work, hpc l]; rfl) ?_ ?_ ?_
  · intro s res
    cases res with
    | ok value => cases value <;> exact ⟨rfl, rfl⟩
    | errorEmpty => cases rest <;> exact ⟨rfl, rfl⟩
  · intro l
    cases rest <;> exact ⟨rfl, goto_pc _ w _⟩
  · intro l r
    exact ⟨rfl, Function.update_self _ _ _⟩

theorem runs_searchShards (left : ℕ) : ∀ {s : Exec n m R} {iter : Shards},
    s.pc w = .shards iter → slotsLeft n iter ≤ left →
    Runs w start (searchShards w ((s.remaining iter).filter (· ≠ w))) s fun res s' =>
      s'.pc w = res.elim .sleep .wakeSwap := by
  induction left using Nat.strong_induction_on with
  | _ left ih =>
  intro s iter hpc hleft
  have hwork : s.work w = some (s.goto w (s.nextShard w iter)) := by
    simp only [work, hpc]
  refine Runs.goto (Or.inl hwork) rfl rfl ?_
  rcases s.nextShard_remaining w iter with
    ⟨hnext, hrem⟩ | ⟨next, hlt, ⟨hnext, hrem⟩ | ⟨q, hnext, hrem⟩⟩
  · rw [hnext, hrem]
    exact .pure (goto_pc s w _)
  · rw [hnext, hrem]
    exact ih _ (hlt.trans_le hleft) (goto_pc s w _) le_rfl
  · -- the call of `steal`, then of `pop`
    rw [hnext, hrem]
    refine .bind (Runs.record (.bind (Runs.lenLocal
      (k := fun s length => s.stealCount w (.shard q) (.shard next) length) ?_ ?_ ?_)))
    · intro l
      exact work_steal (s := (s.goto w _).setLocal q l) (goto_pc s w _)
    · intro s length
      unfold stealCount
      split_ifs <;> exact ⟨rfl, rfl⟩
    · refine .bind ((runs_steal _ (.shard q) (.shard next) _).mono fun _ s₁ hs₁ => ?_)
      obtain ⟨hstored₁, hpc₁⟩ := hs₁
      refine .bind ((runs_popOwn hpc₁).mono fun res s₂ hs₂ => ?_)
      obtain ⟨hstored₂, hpc₂⟩ := hs₂
      cases res with
      | some r => exact .pure hpc₂
      | none =>
        have hstored : s₂.stored = s.stored := hstored₂.trans hstored₁
        have hremaining : s.remaining next = s₂.remaining next := by
          simp only [remaining, hstored]
        rw [hremaining]
        exact ih _ (hlt.trans_le hleft) hpc₂ le_rfl

/-- The shards, in the order of `local_queue.iter()`. -/
def shardList (s : Exec n m R) : List (Fin n) :=
  (List.finRange n).filter fun q => (s.stored q).isSome

theorem length_shardList (s : Exec n m R) : s.shardList.length = s.shardCount := by
  have hnodup : s.shardList.Nodup := (List.nodup_finRange n).filter _
  rw [shardCount, ← List.toFinset_card_of_nodup hnodup]
  congr 1
  ext q
  simp [shardList]

/-- `pop` on the global queue. -/
theorem runs_popGlobal (h : s.pc w = .popGlobal) :
    Runs w start Queues.popGlobal s fun res s' => s'.stored = s.stored ∧
      s'.pc w = res.elim .pickStart fun r => .steal .global .length (.found r) := by
  refine Runs.popGlobal (k := fun s res =>
    s.goto w (res.elim .pickStart fun r => .steal .global .length (.found r))) ?_ ?_ ?_
  · simp only [work, h]
    cases hp : s.queue.pop <;> rfl
  · exact fun _ _ => ⟨rfl, rfl⟩
  · exact fun _ _ => ⟨rfl, goto_pc _ w _⟩

theorem runs_search (h : s.pc w = .popOwn none) (hstart : start < s.shardCount) :
    Runs w start (search s.shardList w start) s fun res s' =>
      s'.pc w = (res.map Found.task).elim .sleep .wakeSwap := by
  refine .bind ((runs_popOwn h).mono fun res s₁ hs₁ => ?_)
  obtain ⟨hstored₁, hpc₁⟩ := hs₁
  cases res with
  | some r => exact .pure hpc₁
  | none =>
    refine .bind ((runs_popGlobal hpc₁).mono fun res s₂ hs₂ => ?_)
    obtain ⟨hstored₂, hpc₂⟩ := hs₂
    dsimp only [Option.elim] at hpc₂
    have hstored : s₂.stored = s.stored := hstored₂.trans hstored₁
    cases res with
    | some r =>
      refine .bind (Runs.lenGlobal (work_steal hpc₂) ?_ ?_ ?_)
      · unfold stealCount
        split_ifs <;> rfl
      · unfold stealCount
        split_ifs <;> rfl
      · refine .bind ((runs_steal s₂ .global (.found r) _).mono fun _ s₃ hs₃ => ?_)
        exact .pure hs₃.2
    | none =>
      -- the loop over the shards
      have hcount : s₂.shardCount = s.shardCount := by simp only [shardCount, hstored]
      have hpick : s₂.start w start =
          some (s₂.goto w (.shards ⟨false, 0, start, s.shardCount⟩)) := by
        simp only [Exec.start, hpc₂, hcount, if_pos hstart]
      have hrotate : rotate s.shardList w start =
          ((s₂.goto w (.shards ⟨false, 0, start, s.shardCount⟩)).remaining
            ⟨false, 0, start, s.shardCount⟩).filter (· ≠ w) := by
        rw [rotate, length_shardList, shardList, ← List.filter_append]
        simp only [remaining, goto, hstored]
        rfl
      refine Runs.goto (Or.inr hpick) rfl rfl (.bind ?_)
      rw [hrotate]
      refine (runs_searchShards _ (goto_pc s₂ w _) le_rfl).mono fun res s₃ hs₃ => ?_
      cases res with
      | none => exact .pure hs₃
      | some r => exact .pure hs₃

/-- **`search` alone**: a worker that is about to call `search`, and is not
    interrupted, finds what the program `search` finds and leaves the queues as the
    program leaves them. -/
theorem alone_search (h : s.pc w = .popOwn none) (hstart : start < s.shardCount)
    (ht : Matches w s t) {res : Option (Found R)} {t' : Queues n R}
    (hrun : (search s.shardList w start).run t = (some res, t')) :
    ∃ s', Alone w start s s' ∧ Matches w s' t' ∧
      s'.pc w = (res.map Found.task).elim .sleep .wakeSwap :=
  runs_search h hstart t ht res t' hrun

/-- It goes to sleep only if there is no task, and loses none. -/
theorem alone_search_finds (h : s.pc w = .popOwn none) (hstart : start < s.shardCount)
    (ht : Matches w s t) (hs : t.Sound) :
    ∃ s' t', Alone w start s s' ∧ Matches w s' t' ∧
      (s'.pc w = .sleep ∧ s.queue.queue = [] ∧ (s.locals w).items = [] ∧
          (∀ q k, s.stored q = some k → (s.locals q).items = []) ∨
        ∃ r, s'.pc w = .wakeSwap r ∧ Taken w t t' r) := by
  have hlength : start ≤ s.shardList.length := by
    rw [length_shardList]
    exact hstart.le
  obtain ⟨res, t', -, hrun, -, -, -, hnone, htaken⟩ :=
    search_run hs ((List.nodup_finRange n).filter _) hlength w
  obtain ⟨s', hs', ht', hpc⟩ := alone_search h hstart ht hrun
  refine ⟨s', t', hs', ht', ?_⟩
  cases res with
  | none =>
    obtain ⟨hglobal, hown, hshards⟩ := hnone.1 rfl
    refine Or.inl ⟨hpc, ?_, ?_, fun q k hk => ?_⟩
    · rw [ht.queue]
      exact hglobal
    · rw [ht.locals]
      exact hown
    · rw [ht.locals]
      exact hshards q (List.mem_filter.2 ⟨List.mem_finRange q, by simp [hk]⟩)
  | some f => exact Or.inr ⟨f.task, hpc, htaken f rfl⟩

end Exec

end Awak
