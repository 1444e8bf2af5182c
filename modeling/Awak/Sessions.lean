/-
  Wakeups for the local queues.

  `schedule` on a worker's thread pushes to the local queue of the thread and
  wakes the waker stored there, which is that of the session that created the
  queue.  After a task has panicked the worker runs a later session, and a task
  scheduled while its ticker is pending wakes nobody (`own_stranded`).  Otherwise
  a ticker that is pending and has not been woken has an empty local queue
  (`own_served`).

  * `Touched`: what `steal` does to the local queues;
  * `Dry`: at the places after a failed `pop` the local queue is empty.
-/
import Awak.Tasks

namespace Awak

variable {n m : ℕ} {R : Type}

namespace Local
variable {ι T : Type} {l l' : Local ι T} {i : ι}

theorem Apart.items (ha : l.Apart i l') (h : l.items = []) : l'.items = [] := by
  have := ha.popped
  simp only [Local.items, List.drop_eq_nil_iff, ha.pushed] at h ⊢
  omega

theorem pushCall_items {value : T} (hs : l.pushCall value = some l') :
    l'.items = l.items ∧ l'.popping = l.popping := by
  unfold pushCall at hs
  split at hs <;> cases hs
  exact ⟨rfl, rfl⟩

/-- A `push` adds an item only when it stores `tail`. -/
theorem pushNext_items {res : Option (PushRes T)} (hs : l.pushNext = some (l', res)) :
    l'.popping = l.popping ∧ (l'.items = l.items ∨ res = none ∧ l'.pushing = .ret .ok) := by
  obtain ⟨rfl, hn⟩ | ⟨v, -, -, rfl⟩ := pushNext_cases hs
  · unfold pushStep at hn
    split at hn
    · split_ifs at hn <;> cases hn <;> exact ⟨rfl, Or.inl rfl⟩
    · cases hn; exact ⟨rfl, Or.inl rfl⟩
    · cases hn; exact ⟨rfl, Or.inr ⟨rfl, rfl⟩⟩
    all_goals cases hn
  · exact ⟨rfl, Or.inl rfl⟩

theorem lenNext_popping [DecidableEq ι] {res : Option ℕ} (hs : l.lenNext i = some (l', res)) :
    l'.popping = l.popping := by
  obtain ⟨-, hn | hn⟩ | ⟨_, _, _, _, -, -, rfl⟩ := lenNext_cases hs
  · unfold lenCall at hn
    split at hn <;> cases hn
    rfl
  · unfold lenStep at hn
    split at hn <;> cases hn
    rfl
  · rfl

/-- A `pop` that is about to return `ErrorEmpty` found the queue empty. -/
theorem popNext_empty [DecidableEq ι] (h : Inv 0 l) (hf : l.Fresh)
    (hs : l.popNext i = some (l', none)) (hr : l'.popping i = .ret .errorEmpty) :
    l'.items = [] := by
  obtain ⟨-, hn | hn⟩ | ⟨v, hv, -, -⟩ := popNext_cases hs
  · unfold popCall at hn
    split at hn <;> cases hn
    simp [setPop] at hr
  · have he := h.errorEmpty hf hn hr
    unfold popStep at hn
    split at hn
    · split_ifs at hn <;> cases hn <;> exact he
    · cases hn; exact he
    · split_ifs at hn <;> cases hn
      · simp [setPop] at hr
      · exact he
    all_goals cases hn
  · cases hv

end Local

/-- The places to which `steal` returns. -/
def Pc.loose : Pc n R → Bool
  | .popOwn (some _) | .wakeSwap _ | .run _ | .abort => true
  | _ => false

namespace Exec

variable {s s' u : Exec n m R} {w : Fin n}

/-! ## The local queues in `steal` -/

/-- What a step of worker `w` in `steal` does to the local queues. -/
inductive Touched (w : Fin n) (s s' : Exec n m R) : Prop
  | none (h : s'.locals = s.locals)
  | pop {q : Fin n} {l : Local (Fin n) R} {res : Option (PopRes R)} (hq : q ≠ w)
      (hl : (s.locals q).popNext w = some (l, res)) (h : s'.locals = (s.setLocal q l).locals)
  | len {q : Fin n} {l : Local (Fin n) R} {res : Option ℕ}
      (hl : (s.locals q).lenNext w = some (l, res)) (h : s'.locals = (s.setLocal q l).locals)
  | call {l : Local (Fin n) R} {t : R} (hl : (s.locals w).pushCall t = some l)
      (h : s'.locals = (s.setLocal w l).locals)
  | push {l : Local (Fin n) R} {res : Option (PushRes R)}
      (hl : (s.locals w).pushNext = some (l, res)) (h : s'.locals = (s.setLocal w l).locals)

theorem resume_loose (u : Exec n m R) (w : Fin n) (k : Cont R) :
    (u.resume w k).locals = u.locals ∧ ((u.resume w k).pc w).loose = true := by
  cases k <;> simp [resume, found, goto, Pc.loose]

theorem stealCount_cases (u : Exec n m R) (w : Fin n) (src : Src n) (k : Cont R) (length : ℕ) :
    (u.stealCount w src k length).locals = u.locals ∧
      ((∃ st, (u.stealCount w src k length).pc w = .steal src st k) ∨
        ((u.stealCount w src k length).pc w).loose = true) := by
  unfold stealCount
  split_ifs
  · exact ⟨rfl, Or.inr (by simp [goto, Pc.loose])⟩
  · exact ⟨rfl, Or.inl ⟨_, Function.update_self _ _ _⟩⟩
  · exact ⟨(u.resume_loose w k).1, Or.inr (u.resume_loose w k).2⟩

/-- The local queues and the next place after a step of `steal`. -/
theorem steal_cases {src : Src n} {k : Cont R} {st : StealPc R} (hsrc : src ≠ .shard w)
    (hs : s.steal w src k st = some s') :
    Touched w s s' ∧ (s'.pc w = s.pc w ∨ (∃ st', s'.pc w = .steal src st' k) ∨
      (s'.pc w).loose = true) := by
  unfold steal at hs
  split at hs
  · split at hs
    · cases hs
      obtain ⟨hl, hp⟩ := s.stealCount_cases w .global k s.queue.len
      exact ⟨.none hl, Or.inr hp⟩
    next q =>
      obtain ⟨l, ⟨hl, rfl⟩ | ⟨length, hl, rfl⟩⟩ := lenLocal_cases hs
      · exact ⟨.len hl rfl, Or.inl rfl⟩
      · obtain ⟨he, hp⟩ := (s.setLocal q l).stealCount_cases w (.shard q) k length
        exact ⟨.len hl he, Or.inr hp⟩
  · obtain ⟨l, ⟨hl, rfl⟩ | ⟨length, hl, rfl⟩⟩ := lenLocal_cases hs
    · exact ⟨.len hl rfl, Or.inl rfl⟩
    · split_ifs
      · exact ⟨.len hl rfl, Or.inr (Or.inl ⟨_, Function.update_self _ _ _⟩)⟩
      · exact ⟨.len hl rfl, Or.inr (Or.inr (by simp [goto, Pc.loose]))⟩
  · cases hs
    exact ⟨.none (s.resume_loose w k).1, Or.inr (Or.inr (s.resume_loose w k).2)⟩
  · split at hs
    · split at hs <;> cases hs
      · exact ⟨.none (s.resume_loose w k).1, Or.inr (Or.inr (s.resume_loose w k).2)⟩
      · exact ⟨.none rfl, Or.inr (Or.inl ⟨_, Function.update_self _ _ _⟩)⟩
    next q =>
      have hq : q ≠ w := fun he => hsrc (by rw [he])
      obtain ⟨l, ⟨hl, rfl⟩ | ⟨res, hl, rfl⟩⟩ := popLocal_cases hs
      · exact ⟨.pop hq hl rfl, Or.inl rfl⟩
      · split
        · exact ⟨.pop hq hl rfl, Or.inr (Or.inl ⟨_, Function.update_self _ _ _⟩)⟩
        · exact ⟨.pop hq hl rfl, Or.inr (Or.inr (by simp [goto, Pc.loose]))⟩
        · obtain ⟨he, hp⟩ := (s.setLocal q l).resume_loose w k
          exact ⟨.pop hq hl he, Or.inr (Or.inr hp)⟩
  · obtain ⟨l, hl, rfl⟩ := Option.map_eq_some_iff.1 hs
    exact ⟨.call hl rfl, Or.inr (Or.inl ⟨_, Function.update_self _ _ _⟩)⟩
  · obtain ⟨l, ⟨hl, rfl⟩ | ⟨res, hl, rfl⟩⟩ := pushLocal_cases hs
    · exact ⟨.push hl rfl, Or.inl rfl⟩
    · split <;> exact ⟨.push hl rfl, Or.inr (Or.inl ⟨_, Function.update_self _ _ _⟩)⟩

namespace Touched

theorem inv (ht : Touched w s s') (hf : ∀ q, (s.locals q).Fresh)
    (h : ∀ q, Local.Inv 0 (s.locals q)) : ∀ q, Local.Inv 0 (s'.locals q) := by
  cases ht with
  | none he => rw [he]; exact h
  | @pop q _ _ _ hl he => rw [he]; exact inv_setLocal h ((h q).popNext (hf q) hl)
  | @len q _ _ hl he => rw [he]; exact inv_setLocal h ((h q).lenNext hl)
  | call hl he => rw [he]; exact inv_setLocal h ((h w).pushCall hl)
  | push hl he => rw [he]; exact inv_setLocal h ((h w).pushNext hl)

theorem apart (ht : Touched w s s') {v : Fin n} (hv : v ≠ w) :
    (s.locals v).Apart v (s'.locals v) := by
  cases ht with
  | none he => rw [he]; exact .rfl
  | pop _ hl he =>
    rw [he]
    refine apart_setLocal fun hq => Local.apart_popNext ?_ hl
    rw [hq]; exact hv.symm
  | len hl he =>
    rw [he]
    refine apart_setLocal fun hq => Local.apart_lenNext ?_ hl
    rw [hq]; exact hv.symm
  | call hl he => rw [he]; exact apart_setLocal fun hq => absurd hq.symm hv
  | push hl he => rw [he]; exact apart_setLocal fun hq => absurd hq.symm hv

/-- The worker is in no `pop` on its own queue. -/
theorem popping (ht : Touched w s s') :
    (s'.locals w).popping w = (s.locals w).popping w := by
  cases ht with
  | none he => rw [he]
  | pop hq hl he => rw [he]; simp [setLocal, hq.symm]
  | @len q l _ hl he =>
    rw [he]
    by_cases hq : w = q
    · subst hq; simp [setLocal, Local.lenNext_popping hl]
    · simp [setLocal, hq]
  | call hl he => rw [he]; simp [setLocal, (Local.pushCall_items hl).2]
  | push hl he => rw [he]; simp [setLocal, (Local.pushNext_items hl).1]

end Touched

/-! ## The local queue of a pending ticker -/

/-- The current session's waker is about to be called for a task just pushed. -/
def Heralded (s : Exec n m R) (w : Fin n) : Prop :=
  s.stored w = some (s.session w) ∧
    ((s.sched (.inl w) = .pushing ∧ (s.locals w).pushing = .ret .ok) ∨
      s.sched (.inl w) = .wakeLocal)

/-- What is known of the local queue at each place. -/
def Dry (s : Exec n m R) (w : Fin n) : Pc n R → Prop
  | .popOwn _ => (s.locals w).popping w = .ret .errorEmpty → (s.locals w).items = []
  | .popGlobal | .pickStart | .shards _ | .sleep => (s.locals w).items = []
  | .ret => (s.locals w).items = [] ∨ s.wake.woken (s.ticker w) = true
  | .pending =>
    (s.locals w).items = [] ∨ s.wake.woken (s.ticker w) = true ∨ s.Heralded w
  | _ => True

theorem dry_of_loose {p : Pc n R} (hp : p.loose = true) (h : (s.locals w).popping w = .idle) :
    s.Dry w p := by
  unfold Pc.loose at hp
  split at hp
  · intro hr; rw [h] at hr; cases hr
  all_goals trivial

/-- The invariant of one worker. -/
structure Own (w : Fin n) (s : Exec n m R) : Prop where
  src : ∀ q st k, s.pc w = .steal (.shard q) st k → q ≠ w
  popping : (∀ rest, s.pc w ≠ .popOwn rest) → (s.locals w).popping w = .idle
  stored : s.pc w = .pending → s.sched (.inl w) ≠ .idle → s.stored w = some (s.session w)
  dry : s.Dry w (s.pc w)

/-- A step of others, as seen by `w`. -/
structure Unmoved (w : Fin n) (s s' : Exec n m R) : Prop where
  locals : (s.locals w).Apart w (s'.locals w)
  pc : s'.pc w = s.pc w
  sched : s'.sched (.inl w) = s.sched (.inl w)
  stored : s'.stored w = s.stored w
  session : s'.session w = s.session w
  woken : s.wake.woken (s.ticker w) = true → s'.wake.woken (s.ticker w) = true

namespace Own

theorem unmoved (h : Own w s) (hu : Unmoved w s s') : Own w s' := by
  have hticker : s'.ticker w = s.ticker w := by simp [ticker, hu.session]
  refine ⟨?_, ?_, ?_, ?_⟩
  · rw [hu.pc]; exact h.src
  · rw [hu.pc, hu.locals.popping]; exact h.popping
  · rw [hu.pc, hu.sched, hu.stored, hu.session]; exact h.stored
  · have hd := h.dry
    have hi := hu.locals.items
    rw [hu.pc]
    cases hp : s.pc w <;> rw [hp] at hd
    case popOwn rest =>
      intro hr
      exact hi (hd (hu.locals.popping ▸ hr))
    case popGlobal => exact hi hd
    case pickStart => exact hi hd
    case shards iter => exact hi hd
    case sleep => exact hi hd
    case ret =>
      show _ ∨ s'.wake.woken (s'.ticker w) = true
      rw [hticker]
      exact Or.imp hi hu.woken hd
    case pending =>
      show _ ∨ s'.wake.woken (s'.ticker w) = true ∨ s'.Heralded w
      rw [hticker]
      refine Or.imp hi (Or.imp hu.woken ?_) hd
      rintro ⟨h1, h2⟩
      refine ⟨by rw [hu.stored, hu.session]; exact h1, ?_⟩
      rw [hu.sched, hu.locals.pushing]; exact h2
    all_goals trivial

/-- A worker that has reached a place and is in no `pop` on its own queue. -/
theorem of_pc {p : Pc n R} (hp : s'.pc w = p) (hsrc : ∀ q st k, p = .steal (.shard q) st k → q ≠ w)
    (hpop : (s'.locals w).popping w = .idle)
    (hpend : p = .pending → s'.sched (.inl w) = .idle) (hd : s'.Dry w p) : Own w s' := by
  subst hp
  exact ⟨hsrc, fun _ => hpop, fun h1 h2 => absurd (hpend h1) h2, hd⟩

/-- A step that changes no queue. -/
theorem goto (h : Own w s) (hne : ∀ rest, s.pc w ≠ .popOwn rest) {p : Pc n R}
    (hl : u.locals = s.locals) (hsrc : ∀ q st k, p = .steal (.shard q) st k → q ≠ w)
    (hpend : p = .pending → u.sched (.inl w) = .idle) (hd : (u.goto w p).Dry w p) :
    Own w (u.goto w p) := by
  refine of_pc (Function.update_self _ _ _) hsrc ?_ hpend hd
  show (u.locals w).popping w = .idle
  rw [hl]; exact h.popping hne

end Own

/-- The local queues of the other workers. -/
structure Spread (w : Fin n) (s s' : Exec n m R) : Prop where
  inv : ∀ q, Local.Inv 0 (s'.locals q)
  apart : ∀ v, v ≠ w → (s.locals v).Apart v (s'.locals v)

theorem Spread.of_eq (h : ∀ q, Local.Inv 0 (s.locals q)) (hl : s'.locals = s.locals) :
    Spread w s s' := by
  refine ⟨by rw [hl]; exact h, fun v _ => ?_⟩
  rw [hl]; exact .rfl

theorem Spread.setLocal (h : ∀ q, Local.Inv 0 (s.locals q)) {l : Local (Fin n) R}
    (hl : Local.Inv 0 l) (he : s'.locals = (s.setLocal w l).locals) : Spread w s s' := by
  refine ⟨by rw [he]; exact inv_setLocal h hl, fun v hv => ?_⟩
  rw [he]; exact apart_setLocal fun hq => absurd hq.symm hv

/-- The `pop` on the worker's own queue. -/
theorem own_pop (hinv : ∀ q, Local.Inv 0 (s.locals q)) (hf : ∀ q, (s.locals q).Fresh)
    (h : Own w s) {rest : Option Shards} (hp : s.pc w = .popOwn rest)
    (hs : s.work w = some s') : Own w s' ∧ Spread w s s' := by
  have hd := h.dry
  rw [hp] at hd
  have hw : ∀ l, (s.setLocal w l).locals w = l := fun l => setLocal_self s w l
  simp only [work, hp] at hs
  obtain ⟨l, ⟨hl, rfl⟩ | ⟨res, hl, rfl⟩⟩ := popLocal_cases hs
  · -- still in `pop`
    refine ⟨⟨?_, ?_, ?_, ?_⟩, .setLocal hinv ((hinv w).popNext (hf w) hl) rfl⟩
    · show ∀ q st k, s.pc w = _ → _
      rw [hp]; simp
    · intro hne; exact absurd hp (hne rest)
    · show s.pc w = _ → _
      rw [hp]; simp
    · show (s.setLocal w l).Dry w (s.pc w)
      rw [hp]
      intro hr
      rw [hw] at hr ⊢
      exact Local.popNext_empty (hinv w) (hf w) hl hr
  · obtain ⟨hn, -⟩ | ⟨v, hv, hret, rfl⟩ := Local.popNext_cases hl
    · cases hn
    cases hv
    have hpop : ((s.setLocal w ((s.locals w).setPop w .idle)).locals w).popping w = .idle := by
      rw [hw]; simp [Local.setPop]
    refine ⟨?_, .setLocal hinv ((hinv w).popNext (hf w) hl) ?_⟩
    · rcases res with (_ | r) | _
      · exact .of_pc (Function.update_self _ _ _) (by simp) hpop (by simp) trivial
      · exact .of_pc (Function.update_self _ _ _) (by simp) hpop (by simp) trivial
      · have hitems : ((s.setLocal w ((s.locals w).setPop w .idle)).locals w).items = [] := by
          rw [hw]; exact hd hret
        cases rest with
        | none => exact .of_pc (Function.update_self _ _ _) (by simp) hpop (by simp) hitems
        | some iter => exact .of_pc (Function.update_self _ _ _) (by simp) hpop (by simp) hitems
    · rcases res with (_ | r) | _
      · rfl
      · rfl
      · cases rest <;> rfl

/-- The steps of a worker inside a poll. -/
theorem own_work (hsync : Sync s) (hinv : ∀ q, Local.Inv 0 (s.locals q))
    (hf : ∀ q, (s.locals q).Fresh) (h : Own w s) (hs : s.work w = some s') :
    Own w s' ∧ Spread w s s' := by
  have hd := h.dry
  have hs₀ := hs
  unfold work at hs
  split at hs
  next rest hp => exact own_pop hinv hf h hp hs₀
  next hp =>
    rw [hp] at hd
    split at hs <;> cases hs
    · exact ⟨h.goto (by rw [hp]; simp) rfl (by simp) (by simp) hd, .of_eq hinv rfl⟩
    · exact ⟨h.goto (by rw [hp]; simp) rfl (by simp) (by simp) trivial, .of_eq hinv rfl⟩
  next iter hp =>
    cases hs
    rw [hp] at hd
    refine ⟨?_, .of_eq hinv rfl⟩
    rcases s.nextShard_cases w iter with hn | ⟨it, hn⟩ | ⟨q, it, hq, hn⟩ <;> rw [hn]
    · exact h.goto (by rw [hp]; simp) rfl (by simp) (by simp) hd
    · exact h.goto (by rw [hp]; simp) rfl (by simp) (by simp) hd
    · refine h.goto (by rw [hp]; simp) rfl ?_ (by simp) trivial
      rintro _ _ _ ⟨⟩
      exact hq
  next src st k hp =>
    have hsrc : src ≠ .shard w := by
      rintro rfl
      exact h.src w st k hp rfl
    have hidle : (s.locals w).popping w = .idle := h.popping (by rw [hp]; simp)
    obtain ⟨ht, hpc⟩ := steal_cases hsrc hs
    refine ⟨?_, ht.inv hf hinv, fun v hv => ht.apart hv⟩
    have hpop : (s'.locals w).popping w = .idle := ht.popping.trans hidle
    rcases hpc with hpc | ⟨st', hpc⟩ | hpc
    · refine .of_pc (hpc.trans hp) ?_ hpop (by simp) trivial
      rintro q _ _ ⟨⟩ rfl
      exact hsrc rfl
    · refine .of_pc hpc ?_ hpop (by simp) trivial
      rintro q _ _ ⟨⟩ rfl
      exact hsrc rfl
    · refine .of_pc rfl ?_ hpop ?_ (dry_of_loose hpc hpop)
      · intro q st k he; rw [he] at hpc; cases hpc
      · intro he; rw [he] at hpc; cases hpc
  next hp =>
    cases hs
    rw [hp] at hd
    exact ⟨h.goto (by rw [hp]; simp) rfl (by simp) (by simp) (Or.inl hd), .of_eq hinv rfl⟩
  next r hp =>
    cases hs
    refine ⟨?_, .of_eq hinv rfl⟩
    split_ifs
    · exact h.goto (by rw [hp]; simp) rfl (by simp) (by simp) trivial
    · exact h.goto (by rw [hp]; simp) rfl (by simp) (by simp) trivial
  next r hp =>
    cases hs
    exact ⟨h.goto (by rw [hp]; simp) rfl (by simp) (by simp) trivial, .of_eq hinv rfl⟩
  next r hp =>
    cases hs
    refine ⟨?_, .of_eq hinv rfl⟩
    split_ifs
    · exact h.goto (by rw [hp]; simp) rfl (by simp) (by simp) trivial
    · exact h.goto (by rw [hp]; simp) rfl (by simp) (by simp) trivial
  next r hp =>
    cases hs
    refine ⟨?_, .of_eq hinv rfl⟩
    split_ifs
    · exact h.goto (by rw [hp]; simp) rfl (by simp) (by simp) trivial
    · exact h.goto (by rw [hp]; simp) rfl (by simp) (by simp) trivial
  next hp =>
    cases hs
    refine ⟨h.goto (by rw [hp]; simp) rfl (by simp) (by simp) (Or.inr ?_), .of_eq hinv rfl⟩
    simp [Exec.goto, Wake.wakeup, ticker]
  next hp =>
    cases hs
    rw [hp] at hd
    have hid := hsync.idle (w := w) (by rw [hp]; simp [Pc.phase]) (by rw [hp]; simp [Pc.phase])
    exact ⟨h.goto (by rw [hp]; simp) rfl (by simp) (fun _ => hid) (Or.imp_right Or.inl hd),
      .of_eq hinv rfl⟩
  all_goals cases hs

theorem own_poll (h : Own w s) (hs : s.poll w = some s') :
    Own w s' ∧ s'.locals = s.locals := by
  unfold poll at hs
  split at hs
  next hp _ =>
    cases hs
    have hidle := h.popping (by rw [hp]; simp)
    refine ⟨h.goto (by rw [hp]; simp) rfl (by simp) (by simp) fun hr => ?_, rfl⟩
    rw [show (s.locals w).popping w = .ret .errorEmpty from hr] at hidle; cases hidle
  next hp _ =>
    cases hs
    have hidle := h.popping (by rw [hp]; simp)
    refine ⟨h.goto (by rw [hp]; simp) rfl (by simp) (by simp) fun hr => ?_, rfl⟩
    rw [show (s.locals w).popping w = .ret .errorEmpty from hr] at hidle; cases hidle
  next => cases hs

theorem own_start (h : Own w s) {k : ℕ} (hs : s.start w k = some s') :
    Own w s' ∧ s'.locals = s.locals := by
  unfold start at hs
  split at hs
  next hp =>
    split_ifs at hs
    cases hs
    have hd := h.dry
    rw [hp] at hd
    exact ⟨h.goto (by rw [hp]; simp) rfl (by simp) (by simp) hd, rfl⟩
  next => cases hs

theorem own_finish (h : Own w s) (hs : s.finish w = some s') :
    Own w s' ∧ s'.locals = s.locals := by
  unfold finish at hs
  split at hs
  next hp _ =>
    have hidle := h.popping (by rw [hp]; simp)
    split_ifs at hs <;> cases hs
    · refine ⟨h.goto (by rw [hp]; simp) rfl (by simp) (by simp) fun hr => ?_, rfl⟩
      rw [show (s.locals w).popping w = .ret .errorEmpty from hr] at hidle; cases hidle
    · exact ⟨h.goto (by rw [hp]; simp) rfl (by simp) (by simp) trivial, rfl⟩
  next => cases hs

theorem own_panic (h : Own w s) (hs : s.panic w = some s') :
    Own w s' ∧ s'.locals = s.locals := by
  unfold panic at hs
  split at hs
  next hp _ =>
    cases hs
    exact ⟨h.goto (by rw [hp]; simp) rfl (by simp) (by simp) trivial, rfl⟩
  next => cases hs

/-! ## The calls of `schedule` -/

/-- A step of a call of `schedule` on the worker's thread that publishes nothing. -/
theorem Own.sched (h : Own w s) (hne : s.sched (.inl w) ≠ .idle) (hsync : Sync s)
    (hpc : s'.pc = s.pc) (hstored : s'.stored = s.stored) (hsession : s'.session = s.session)
    (hpop : (s'.locals w).popping w = (s.locals w).popping w)
    (hitems : s.pc w = .pending → (s.locals w).items = [] → (s'.locals w).items = [] ∨ s'.Heralded w)
    (hwoken : s.wake.woken (s.ticker w) = true → s'.wake.woken (s.ticker w) = true)
    (hher : s.pc w = .pending → s.Heralded w →
      s'.wake.woken (s.ticker w) = true ∨ s'.Heralded w) : Own w s' := by
  have hticker : s'.ticker w = s.ticker w := by simp [ticker, hsession]
  have hq := hsync.quiet w hne
  refine ⟨by rw [hpc]; exact h.src, by rw [hpc, hpop]; exact h.popping, ?_, ?_⟩
  · intro hp _
    rw [hstored, hsession]
    exact h.stored (hpc ▸ hp) hne
  · have hd := h.dry
    rw [hpc]
    cases hp : s.pc w <;> rw [hp] at hd hq <;> simp only [Pc.phase, reduceCtorEq, or_self] at hq
    case pending =>
      show _ ∨ s'.wake.woken (s'.ticker w) = true ∨ s'.Heralded w
      rw [hticker]
      rcases hd with hd | hd | hd
      · exact (hitems hp hd).imp_right Or.inr
      · exact Or.inr (Or.inl (hwoken hd))
      · exact Or.inr (hher hp hd)
    all_goals trivial

theorem not_heralded (hp : s.sched (.inl w) ≠ .pushing) (hw : s.sched (.inl w) ≠ .wakeLocal) :
    ¬ s.Heralded w := by
  rintro ⟨-, ⟨h, -⟩ | h⟩
  · exact hp h
  · exact hw h

/-- A step of a call of `schedule` that has not pushed to the local queue. -/
theorem Own.unheralded (h : Own w s) (hne : s.sched (.inl w) ≠ .idle) (hno : ¬ s.Heralded w)
    (hsync : Sync s) (hinv : ∀ q, Local.Inv 0 (s.locals q)) (hpc : s'.pc = s.pc)
    (hstored : s'.stored = s.stored) (hsession : s'.session = s.session)
    (hlocals : s'.locals = s.locals)
    (hwoken : s.wake.woken (s.ticker w) = true → s'.wake.woken (s.ticker w) = true) :
    Own w s' ∧ Spread w s s' := by
  refine ⟨h.sched hne hsync hpc hstored hsession ?_ ?_ hwoken fun _ hh => absurd hh hno,
    .of_eq hinv hlocals⟩
  · rw [hlocals]
  · rw [hlocals]; exact fun _ => Or.inl

/-- The `push` on the worker's own queue. -/
theorem own_push (hsync : Sync s) (hinv : ∀ q, Local.Inv 0 (s.locals q)) (h : Own w s)
    (hp : s.sched (.inl w) = .pushing) (hs : s.schedStep (.inl w) = some s') :
    Own w s' ∧ Spread w s s' := by
  have hw : ∀ l, (s.setLocal w l).locals w = l := fun l => setLocal_self s w l
  have hset : ∀ (u : Exec n m R) p, (u.setSched (.inl w) p).sched (.inl w) = p :=
    fun u p => Function.update_self _ _ _
  have hne : s.sched (.inl w) ≠ .idle := by rw [hp]; simp
  simp only [schedStep, hp] at hs
  obtain ⟨l, ⟨hl, rfl⟩ | ⟨res, hl, rfl⟩⟩ := pushLocal_cases hs
  · obtain ⟨hpop, hi⟩ := Local.pushNext_items hl
    refine ⟨h.sched hne hsync rfl rfl rfl ?_ ?_ id ?_, .setLocal hinv ((hinv w).pushNext hl) rfl⟩
    · rw [hw, hpop]
    · intro hpend he
      rw [hw]
      rcases hi with hi | ⟨-, hi⟩
      · exact Or.inl (by rw [hi]; exact he)
      · -- the push has just been published
        exact Or.inr ⟨h.stored hpend hne, Or.inl ⟨hp, by rw [hw]; exact hi⟩⟩
    · rintro hpend ⟨h1, ⟨-, h2⟩ | h2⟩
      · -- a push that has been published is about to return
        simp [Local.pushNext, h2, Local.pushRet] at hl
      · rw [hp] at h2; cases h2
  · obtain ⟨hn, -⟩ | ⟨v, ⟨⟩, hret, rfl⟩ := Local.pushNext_cases hl
    · cases hn
    have hinv' := (hinv w).pushNext hl
    cases res with
    | ok =>
      refine ⟨h.sched hne hsync rfl rfl rfl ?_ ?_ id ?_, .setLocal hinv hinv' rfl⟩
      · show ((s.setLocal w _).locals w).popping w = _
        rw [hw]
      · intro _ he
        left
        show ((s.setLocal w _).locals w).items = []
        rw [hw]; exact he
      · rintro - ⟨h1, -⟩
        exact Or.inr ⟨h1, Or.inr (hset _ _)⟩
    | errorFull x =>
      refine ⟨h.sched hne hsync rfl rfl rfl ?_ ?_ id ?_, .setLocal hinv hinv' rfl⟩
      · show ((s.setLocal w _).locals w).popping w = _
        rw [hw]
      · intro _ he
        left
        show ((s.setLocal w _).locals w).items = []
        rw [hw]; exact he
      · rintro - ⟨-, ⟨-, h2⟩ | h2⟩
        · rw [hret] at h2; cases h2
        · rw [hp] at h2; cases h2

/-- The call of the waker in the worker's `LocalQueue`. -/
theorem own_wakeLocal (hsync : Sync s) (hinv : ∀ q, Local.Inv 0 (s.locals q)) (h : Own w s)
    (hp : s.sched (.inl w) = .wakeLocal) (hs : s.schedStep (.inl w) = some s') :
    Own w s' ∧ Spread w s s' := by
  have hne : s.sched (.inl w) ≠ .idle := by rw [hp]; simp
  simp only [schedStep, hp] at hs
  obtain ⟨k, hk, rfl⟩ := Option.map_eq_some_iff.1 hs
  refine ⟨h.sched hne hsync rfl rfl rfl rfl (fun _ => Or.inl) ?_ ?_, .of_eq hinv rfl⟩
  · intro hwk
    show Function.update s.wake.woken (w, k) true (s.ticker w) = true
    by_cases he : s.ticker w = (w, k)
    · rw [he, Function.update_self]
    · rw [Function.update_of_ne he]; exact hwk
  · rintro - ⟨h1, -⟩
    -- the waker stored is that of the current session
    left
    have he : s.ticker w = (w, k) := by
      rw [hk] at h1; cases h1; rfl
    show Function.update s.wake.woken (w, k) true (s.ticker w) = true
    rw [he, Function.update_self]

theorem own_sched (hsync : Sync s) (hinv : ∀ q, Local.Inv 0 (s.locals q)) (h : Own w s)
    (hs : s.schedStep (.inl w) = some s') : Own w s' ∧ Spread w s s' := by
  have hs₀ := hs
  unfold schedStep at hs
  split at hs
  next x v hp heq =>
    cases heq
    have hne : s.sched (.inl w) ≠ .idle := by rw [hp]; simp
    have hno : ¬ s.Heralded w := not_heralded (by rw [hp]; simp) (by rw [hp]; simp)
    split at hs
    · obtain ⟨l, hl, rfl⟩ := Option.map_eq_some_iff.1 hs
      obtain ⟨hi, hpop⟩ := Local.pushCall_items hl
      refine ⟨h.sched hne hsync rfl rfl rfl ?_ ?_ id fun _ hh => absurd hh hno,
        .setLocal hinv ((hinv w).pushCall hl) rfl⟩
      · show ((s.setLocal w l).locals w).popping w = _
        rw [setLocal_self, hpop]
      · intro _ he
        left
        show ((s.setLocal w l).locals w).items = []
        rw [setLocal_self, hi]; exact he
    · cases hs
      exact h.unheralded hne hno hsync hinv rfl rfl rfl rfl id
  next x j hp heq => cases heq
  next v hp heq => cases heq; exact own_push hsync hinv h hp hs₀
  next v hp heq => cases heq; exact own_wakeLocal hsync hinv h hp hs₀
  next x hp =>
    have hne : s.sched (.inl w) ≠ .idle := by rw [hp]; simp
    have hno : ¬ s.Heralded w := not_heralded (by rw [hp]; simp) (by rw [hp]; simp)
    split at hs <;> cases hs
    · exact h.unheralded hne hno hsync hinv rfl rfl rfl rfl id
    · exact h.unheralded hne hno hsync hinv rfl rfl rfl rfl id
  next hp =>
    cases hs
    have hne : s.sched (.inl w) ≠ .idle := by rw [hp]; simp
    have hno : ¬ s.Heralded w := not_heralded (by rw [hp]; simp) (by rw [hp]; simp)
    exact h.unheralded hne hno hsync hinv rfl rfl rfl rfl (Wake.notify_woken _ _)
  next => cases hs

/-! ## Whole runs -/

/-- The state that must not be reached: no call of `schedule` is in progress, the
    worker's local queue is not empty, its ticker has returned `Pending`, and the waker
    of its session has not been called since that poll began. -/
def Stranded (s : Exec n m R) (w : Fin n) : Prop :=
  (∀ t, s.sched t = .idle) ∧ (s.locals w).items ≠ [] ∧ s.pc w = .pending ∧
    s.wake.woken (s.ticker w) = false

instance [DecidableEq R] (s : Exec n m R) (w : Fin n) : Decidable (s.Stranded w) :=
  inferInstanceAs (Decidable (_ ∧ _ ∧ _ ∧ _))

/-- No `pop` in flight has seen `2 ^ 63` others succeed. -/
def Recent (s : Exec n m R) (_ : Act n m R) : Prop := ∀ q, (s.locals q).Fresh

instance (s : Exec n m R) (a : Act n m R) : Decidable (s.Recent a) :=
  inferInstanceAs (Decidable (∀ q, (s.locals q).Fresh))

/-- Besides, a worker whose ticker is pending calls `schedule` only in the session
    whose waker is in its `LocalQueue`. -/
def Heard (s : Exec n m R) : Act n m R → Prop
  | .schedule (.inl w) r =>
    s.Recent (.schedule (.inl w) r) ∧ (s.pc w = .pending → s.stored w = some (s.session w))
  | a => s.Recent a

instance [DecidableEq R] (s : Exec n m R) : ∀ a, Decidable (s.Heard a)
  | .schedule (.inl w) r => inferInstanceAs (Decidable
      (s.Recent (.schedule (.inl w) r) ∧ (s.pc w = .pending → s.stored w = some (s.session w))))
  | .schedule (.inr j) r => inferInstanceAs (Decidable (s.Recent (.schedule (.inr j) r)))
  | .poll w => inferInstanceAs (Decidable (s.Recent (.poll w)))
  | .work w => inferInstanceAs (Decidable (s.Recent (.work w)))
  | .start w k => inferInstanceAs (Decidable (s.Recent (.start w k)))
  | .finish w => inferInstanceAs (Decidable (s.Recent (.finish w)))
  | .panic w => inferInstanceAs (Decidable (s.Recent (.panic w)))
  | .sched t => inferInstanceAs (Decidable (s.Recent (.sched t)))

theorem Heard.recent {a : Act n m R} (h : s.Heard a) : ∀ q, (s.locals q).Fresh := by
  unfold Heard at h
  split at h
  · exact h.1
  · exact h

/-- What a step of worker `v` leaves alone. -/
structure Frame (v : Fin n) (s s' : Exec n m R) : Prop where
  pc : ∀ w, w ≠ v → s'.pc w = s.pc w
  sched : s'.sched = s.sched
  stored : ∀ w, w ≠ v → s'.stored w = s.stored w
  session : ∀ w, w ≠ v → s'.session w = s.session w

theorem frame_work {v : Fin n} (hs : s.work v = some s') : Frame v s s' := by
  obtain ⟨-, hp⟩ | ⟨-, rfl⟩ | ⟨_, -, rfl⟩ | ⟨_, -, rfl⟩ | ⟨_, -, rfl⟩ | ⟨-, rfl⟩ | ⟨-, rfl⟩ :=
    work_cases hs
  · exact ⟨hp.pc, hp.sched, fun _ _ => by rw [hp.stored], fun _ _ => by rw [hp.session]⟩
  all_goals
    exact ⟨fun w hw => Function.update_of_ne hw _ _, rfl, fun _ _ => rfl, fun _ _ => rfl⟩

theorem frame_poll {v : Fin n} (hs : s.poll v = some s') : Frame v s s' := by
  unfold poll at hs
  split at hs <;> cases hs
  · exact ⟨fun w hw => Function.update_of_ne hw _ _, rfl,
      fun w hw => Function.update_of_ne hw _ _, fun _ _ => rfl⟩
  · exact ⟨fun w hw => Function.update_of_ne hw _ _, rfl, fun _ _ => rfl, fun _ _ => rfl⟩

theorem frame_start {v : Fin n} {k : ℕ} (hs : s.start v k = some s') : Frame v s s' := by
  unfold start at hs
  split at hs
  · split_ifs at hs
    cases hs
    exact ⟨fun w hw => Function.update_of_ne hw _ _, rfl, fun _ _ => rfl, fun _ _ => rfl⟩
  · cases hs

theorem frame_finish {v : Fin n} (hs : s.finish v = some s') : Frame v s s' := by
  unfold finish at hs
  split at hs
  · split_ifs at hs <;> cases hs <;>
      exact ⟨fun w hw => Function.update_of_ne hw _ _, rfl, fun _ _ => rfl, fun _ _ => rfl⟩
  · cases hs

theorem frame_panic {v : Fin n} (hs : s.panic v = some s') : Frame v s s' := by
  unfold panic at hs
  split at hs <;> cases hs
  exact ⟨fun w hw => Function.update_of_ne hw _ _, rfl, fun _ _ => rfl,
    fun w hw => Function.update_of_ne hw _ _⟩

/-- What a step of a call of `schedule` leaves alone. -/
theorem schedStep_frame {t : Thread n m} (hs : s.schedStep t = some s') :
    s'.pc = s.pc ∧ s'.stored = s.stored ∧ s'.session = s.session ∧
      ∀ t', t' ≠ t → s'.sched t' = s.sched t' := by
  have hset : ∀ (u : Exec n m R) p, u.pc = s.pc → u.stored = s.stored → u.session = s.session →
      u.sched = s.sched → (u.setSched t p).pc = s.pc ∧ (u.setSched t p).stored = s.stored ∧
        (u.setSched t p).session = s.session ∧
          ∀ t', t' ≠ t → (u.setSched t p).sched t' = s.sched t' := by
    intro u p h1 h2 h3 h4
    exact ⟨h1, h2, h3, fun t' ht' => by rw [← h4]; exact Function.update_of_ne ht' _ _⟩
  unfold schedStep at hs
  split at hs
  · split at hs
    · obtain ⟨l, -, rfl⟩ := Option.map_eq_some_iff.1 hs
      exact hset _ _ rfl rfl rfl rfl
    · cases hs; exact hset _ _ rfl rfl rfl rfl
  · cases hs; exact hset _ _ rfl rfl rfl rfl
  · obtain ⟨l, ⟨-, rfl⟩ | ⟨res, -, rfl⟩⟩ := pushLocal_cases hs
    · exact ⟨rfl, rfl, rfl, fun _ _ => rfl⟩
    · split <;> exact hset _ _ rfl rfl rfl rfl
  · obtain ⟨k, -, rfl⟩ := Option.map_eq_some_iff.1 hs
    exact hset _ _ rfl rfl rfl rfl
  · split at hs <;> cases hs <;> exact hset _ _ rfl rfl rfl rfl
  · cases hs; exact hset _ _ rfl rfl rfl rfl
  · cases hs

/-- A thread that is not a worker touches no local queue. -/
theorem schedStep_inr {j : Fin m} (hs : s.schedStep (.inr j) = some s') : s'.locals = s.locals := by
  unfold schedStep at hs
  split at hs
  next heq => cases heq
  next => cases hs; rfl
  next heq => cases heq
  next heq => cases heq
  next => split at hs <;> cases hs <;> rfl
  next => cases hs; rfl
  next => cases hs

section Runs
variable [DecidableEq R] {a : Act n m R}

theorem woken_step (h : Sync s) (hs : s.step a = some s') (ha : a ≠ .poll w)
    (hw : s.wake.woken (s.ticker w) = true) : s'.wake.woken (s.ticker w) = true := by
  rcases wake_step h hs with he | ⟨b, hb, -, hpoll⟩
  · rw [he]; exact hw
  · refine Wake.woken_of_step hb ?_ hw
    intro hbi
    obtain ⟨v, rfl, hv⟩ := hpoll _ hbi
    have hvw : v = w := (congrArg Prod.fst hv).symm
    exact ha (by rw [hvw])

/-- The invariant of these runs. -/
structure Served (s : Exec n m R) : Prop where
  sync : Sync s
  inv : ∀ q, Local.Inv 0 (s.locals q)
  own : ∀ w, Own w s

omit [DecidableEq R] in
theorem served_new : Served (new : Exec n m R) where
  sync := sync_new
  inv _ := Local.inv_new (by norm_num) 0
  own _ := ⟨by simp [new], fun _ => rfl, by simp [new], trivial⟩

namespace Served

/-- A step of worker `v`. -/
theorem worker (h : Served s) {v : Fin n} (hs : s.step a = some s') (ha : ∀ w, w ≠ v → a ≠ .poll w)
    (hf : Frame v s s') (ho : Own v s' ∧ Spread v s s') : Served s' where
  sync := h.sync.step hs
  inv := ho.2.inv
  own w := by
    by_cases hw : w = v
    · subst hw; exact ho.1
    · exact (h.own w).unmoved {
        locals := ho.2.apart w hw
        pc := hf.pc w hw
        sched := by rw [hf.sched]
        stored := hf.stored w hw
        session := hf.session w hw
        woken := woken_step h.sync hs (ha w hw) }

/-- A step of a worker that leaves the local queues alone. -/
theorem worker_of_eq (h : Served s) {v : Fin n} (hs : s.step a = some s')
    (ha : ∀ w, w ≠ v → a ≠ .poll w) (hf : Frame v s s') (ho : Own v s' ∧ s'.locals = s.locals) :
    Served s' :=
  h.worker hs ha hf ⟨ho.1, .of_eq h.inv ho.2⟩

theorem schedule (h : Served s) {t : Thread n m} {r : R} (hc : s.Heard (.schedule t r))
    (hs : s.step (.schedule t r) = some s') : Served s' := by
  have hsync := h.sync.step hs
  simp only [Exec.step, Exec.schedule] at hs
  split at hs
  next hid =>
    split_ifs at hs
    cases hs
    refine ⟨hsync, h.inv, fun w => ?_⟩
    have ho := h.own w
    by_cases hw : t = .inl w
    · subst hw
      refine ⟨ho.src, ho.popping, fun hp _ => hc.2 hp, ?_⟩
      have hd := ho.dry
      show Dry _ w (s.pc w)
      cases hp : s.pc w <;> rw [hp] at hd
      case pending =>
        refine Or.imp_right (Or.imp_right ?_) hd
        rintro ⟨-, ⟨h1, -⟩ | h1⟩ <;> rw [hid] at h1 <;> cases h1
      all_goals exact hd
    · refine ho.unmoved ⟨.rfl, rfl, ?_, rfl, rfl, id⟩
      exact Function.update_of_ne (Ne.symm hw) _ _
  next => cases hs

theorem sched (h : Served s) {t : Thread n m} (hs : s.step (.sched t) = some s') : Served s' := by
  have hsync := h.sync.step hs
  have hwoken : ∀ w, s.wake.woken (s.ticker w) = true → s'.wake.woken (s.ticker w) = true :=
    fun w => woken_step h.sync hs (by simp)
  have hframe : s'.pc = s.pc ∧ s'.stored = s.stored ∧ s'.session = s.session ∧
      ∀ t', t' ≠ t → s'.sched t' = s.sched t' := by
    exact schedStep_frame hs
  obtain ⟨hpc, hstored, hsession, hother⟩ := hframe
  have hmove : ∀ w, t ≠ .inl w → (s.locals w).Apart w (s'.locals w) → Own w s' := by
    intro w hw hap
    exact (h.own w).unmoved ⟨hap, by rw [hpc], hother _ (Ne.symm hw), by rw [hstored],
      by rw [hsession], hwoken w⟩
  cases t with
  | inl v =>
    obtain ⟨ho, hsp⟩ := own_sched h.sync h.inv (h.own v) hs
    refine ⟨hsync, hsp.inv, fun w => ?_⟩
    by_cases hw : w = v
    · subst hw; exact ho
    · exact hmove w (fun he => hw (Sum.inl.inj he).symm) (hsp.apart w hw)
  | inr j =>
    have hl : s'.locals = s.locals := schedStep_inr hs
    refine ⟨hsync, by rw [hl]; exact h.inv, fun w => hmove w (by simp) ?_⟩
    rw [hl]; exact .rfl

theorem step (h : Served s) (hc : s.Heard a) (hs : s.step a = some s') : Served s' := by
  cases a with
  | poll v =>
    exact h.worker_of_eq hs (fun w hw he => hw (by cases he; rfl)) (frame_poll hs)
      (own_poll (h.own v) hs)
  | work v =>
    exact h.worker hs (by simp) (frame_work hs) (own_work h.sync h.inv hc.recent (h.own v) hs)
  | start v k => exact h.worker_of_eq hs (by simp) (frame_start hs) (own_start (h.own v) hs)
  | finish v => exact h.worker_of_eq hs (by simp) (frame_finish hs) (own_finish (h.own v) hs)
  | panic v => exact h.worker_of_eq hs (by simp) (frame_panic hs) (own_panic (h.own v) hs)
  | schedule t r => exact h.schedule hc hs
  | sched t => exact h.sched hs

omit [DecidableEq R] in
/-- A worker with a task in its own queue is awake, or about to be woken. -/
theorem not_stranded (h : Served s) (w : Fin n) : ¬ s.Stranded w := by
  rintro ⟨hidle, hitems, hp, hwoken⟩
  have hd := (h.own w).dry
  rw [hp] at hd
  rcases hd with hd | hd | ⟨-, ⟨hd, -⟩ | hd⟩
  · exact hitems hd
  · rw [hwoken] at hd; cases hd
  · rw [hidle] at hd; cases hd
  · rw [hidle] at hd; cases hd

end Served

theorem served_reach (h : (system : Lts (Exec n m R) (Act n m R)).Reach Heard s) : Served s := by
  refine h.inv (P := Served) ?_ ?_
  · rintro _ rfl; exact served_new
  · intro s a s' _ hv hc hs; exact hv.step hc hs

/-- **No task is stranded in a worker's own queue**, in runs where no task is scheduled
    on a pending worker whose `LocalQueue` was created by an earlier session. -/
theorem own_served (h : (system : Lts (Exec n m R) (Act n m R)).Reach Heard s) (w : Fin n) :
    ¬ s.Stranded w :=
  (served_reach h).not_stranded w

end Runs

/-- The only worker runs a task of another thread. -/
def runTask : List (Act 1 1 ℕ) :=
  [.schedule (.inr 0) 7, .sched (.inr 0), .sched (.inr 0), .sched (.inr 0), .sched (.inr 0), .poll 0,
    .work 0, .work 0, .work 0, .work 0, .work 0, .work 0, .work 0, .work 0, .work 0]

/-- The worker searches in vain, sleeps and returns `Pending`. -/
def goToSleep : List (Act 1 1 ℕ) :=
  [.work 0, .work 0, .work 0, .work 0, .start 0 0, .work 0, .work 0, .work 0, .work 0]

/-- A task is scheduled on the thread of the worker. -/
def scheduleOwn : List (Act 1 1 ℕ) :=
  [.schedule (.inl 0) 8, .sched (.inl 0), .sched (.inl 0), .sched (.inl 0), .sched (.inl 0),
    .sched (.inl 0), .sched (.inl 0)]

/-- In its first session, a pending worker is woken for a task on its own thread. -/
theorem own_served_first : ∃ s : Exec 1 1 ℕ,
    system.run new (runTask ++ .finish 0 :: goToSleep ++ scheduleOwn) = some s ∧
      ((s.locals 0).items = [8] ∧ s.pc 0 = .pending ∧ s.sched (.inl 0) = .idle) ∧
      ¬ s.Stranded 0 := by
  have hrun : ∃ s : Exec 1 1 ℕ,
      system.run new (runTask ++ .finish 0 :: goToSleep ++ scheduleOwn) = some s ∧
        (s.locals 0).items = [8] ∧ s.pc 0 = .pending ∧ s.sched (.inl 0) = .idle :=
    Lts.exists_run (by decide +kernel)
  obtain ⟨s, hs, he⟩ := hrun
  have hm : system.Meets Heard (new : Exec 1 1 ℕ)
      (runTask ++ .finish 0 :: goToSleep ++ scheduleOwn) := by decide +kernel
  exact ⟨s, hs, he, own_served (.run (.init rfl) hm hs) 0⟩

/-- If the task panics, the next session is not woken: the waker in the `LocalQueue` is
    that of the first. -/
theorem own_stranded : ¬ ∀ s : Exec 1 1 ℕ,
    (system : Lts (Exec 1 1 ℕ) (Act 1 1 ℕ)).Reach Recent s → ∀ w, ¬ s.Stranded w := by
  intro hall
  have hrun : ∃ s : Exec 1 1 ℕ,
      system.run new (runTask ++ .panic 0 :: .poll 0 :: goToSleep ++ scheduleOwn) = some s ∧
        s.Stranded 0 := Lts.exists_run (by decide +kernel)
  obtain ⟨s, hs, he⟩ := hrun
  have hm : system.Meets Recent (new : Exec 1 1 ℕ)
      (runTask ++ .panic 0 :: .poll 0 :: goToSleep ++ scheduleOwn) := by decide +kernel
  exact hall s (.run (.init rfl) hm hs) 0 he

end Exec
end Awak
