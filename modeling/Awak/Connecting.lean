/-
  What the calls of `connect` and `bind` return, and what they wait for.

  A record keeps the addresses that a call has resolved, those that have failed with their
  errors, and the streams that `react` has delivered a writable event to.  A call tries its
  addresses in order; its variable `last_err` is the last of the recorded errors.

  * `CallOk`: what the variables of a call are, at each place;
  * `connect_result`: the result of a call comes from the first address that succeeds, or is
    the last error, and a stream has been reported writable;
  * `waiting`: `stream.writable().await` is a call of the loop of `Async::write_with`;
  * `connect_waits`: a pending connect has been woken, or waits for its descriptor.
-/
import Awak.Connect

namespace Awak.Connect

open Sources

variable {τ κ ε A W : Type}

/-! ## The results -/

/-- What the calls have tried, and which sources have had an event. -/
structure Record (τ κ ε A : Type) where
  /-- the addresses of a call -/
  resolved : τ → Option (List A)
  /-- those for which `connect_addr` has returned an error -/
  failed : τ → List (A × Error ε)
  /-- `react` has delivered a writable event to the source -/
  written : κ → Bool

/-- Nothing has been tried. -/
def Record.new : Record τ κ ε A := ⟨fun _ => none, fun _ => [], fun _ => false⟩

/-- The call whose `connect_addr` fails in this step. -/
def State.failure (s : State τ κ ε A W) : Act τ κ ε A W → Option (τ × Error ε)
  | .socket t (.error e) | .nonblocking t (.error e) | .connect t (.err e) |
    .insert t (.error e) => some (t, .os e)
  | .close t =>
    match s.calls t with
    | some c =>
      match c.place with
      | .closing _ (some (_, e)) => some (t, e)
      | _ => none
    | none => none
  | _ => none

/-- The address that a call tries. -/
def State.current (s : State τ κ ε A W) (t : τ) : List A :=
  (s.calls t).elim [] fun c => c.addrs.take 1

section Record
variable [DecidableEq τ] [DecidableEq κ] [DecidableEq W]

/-- The current address of `p.1` has failed with `p.2`. -/
def Record.fail (g : Record τ κ ε A) (s : State τ κ ε A W) (p : τ × Error ε) : Record τ κ ε A :=
  { g with
    failed := Function.update g.failed p.1
      (g.failed p.1 ++ (s.current p.1).map fun a => (a, p.2)) }

/-- A call begins without addresses; a failure is of the current one. -/
def Record.record (g : Record τ κ ε A) (s : State τ κ ε A W) : Act τ κ ε A W → Record τ κ ε A
  | .call t _ => { g with
      resolved := Function.update g.resolved t none
      failed := Function.update g.failed t [] }
  | .resolve t (.ok addrs) => { g with resolved := Function.update g.resolved t (some addrs) }
  | .other b => { g with written := fun x => g.written x || delivers s.sources x .write b }
  | a => (s.failure a).elim g (g.fail s)

/-- The calls, with what they have tried. -/
def recorded : Lts (State τ κ ε A W × Record τ κ ε A) (Act τ κ ε A W) :=
  system.monitor .new Record.record

/-- The addresses before the current one have failed, and `last_err` is the last error. -/
structure Tried (g : Record τ κ ε A) (t : τ) (c : Call κ ε A W) : Prop where
  resolved : g.resolved t = some ((g.failed t).map Prod.fst ++ c.addrs)
  lastErr : c.lastErr = (g.failed t).getLast?.map Prod.snd

/-- What the variables of a call are. -/
def CallOk (g : Record τ κ ε A) (t : τ) (c : Call κ ε A W) : Prop :=
  match c.place with
  | .idle | .run _ .resolve => g.resolved t = none ∧ g.failed t = [] ∧ c.lastErr = none
  | .run _ .next => Tried g t c
  | .run _ (.check st) => Tried g t c ∧ c.addrs ≠ [] ∧ g.written st.source = true
  | .done (.ok st) =>
    Tried g t c ∧ c.addrs ≠ [] ∧ (c.kind ≠ .udp → g.written st.source = true)
  | .done (.error e) =>
    g.resolved t = none ∨ Tried g t c ∧ c.addrs = [] ∧ e = c.lastErr.getD unresolved
  | _ => Tried g t c ∧ c.addrs ≠ []

/-- The invariant: each call agrees with the record, and a source ready for writing has had an
    event. -/
structure Results (s : State τ κ ε A W) (g : Record τ κ ε A) : Prop where
  calls : ∀ t c, s.calls t = some c → CallOk g t c
  ready : ∀ x src, s.sources.source x = some src → (src.states .write).ready = true →
    g.written x = true

/-- The record of other calls stays, and no delivery is forgotten. -/
structure Keeps (g g' : Record τ κ ε A) (t : τ) : Prop where
  resolved : g'.resolved t = g.resolved t
  failed : g'.failed t = g.failed t
  written : ∀ x, g.written x = true → g'.written x = true

omit [DecidableEq τ] [DecidableEq κ] [DecidableEq W] in
theorem CallOk.keeps {g g' : Record τ κ ε A} {t : τ} {c : Call κ ε A W} (h : CallOk g t c)
    (hk : Keeps g g' t) : CallOk g' t c := by
  have htried : Tried g t c → Tried g' t c := by
    rintro ⟨hr, hl⟩
    exact ⟨by rw [hk.resolved, hk.failed]; exact hr, by rw [hk.failed]; exact hl⟩
  unfold CallOk at h ⊢
  split at h
  · exact ⟨hk.resolved.trans h.1, hk.failed.trans h.2.1, h.2.2⟩
  · exact ⟨hk.resolved.trans h.1, hk.failed.trans h.2.1, h.2.2⟩
  · exact htried h
  · exact ⟨htried h.1, h.2.1, hk.written _ h.2.2⟩
  · exact ⟨htried h.1, h.2.1, fun hne => hk.written _ (h.2.2 hne)⟩
  · exact h.imp hk.resolved.trans fun h => ⟨htried h.1, h.2⟩
  · exact ⟨htried h.1, h.2⟩

omit [DecidableEq τ] [DecidableEq κ] [DecidableEq W] in
theorem Tried.goto {g : Record τ κ ε A} {t : τ} {c : Call κ ε A W} (h : Tried g t c)
    (p : Place κ ε W) : Tried g t (c.goto p) :=
  ⟨h.resolved, h.lastErr⟩

variable {s s' : State τ κ ε A W} {g g' : Record τ κ ε A} {t : τ} {c : Call κ ε A W} {cx : W}

omit [DecidableEq κ] [DecidableEq W] in
/-- The current address joins those that have failed. -/
theorem Tried.fail (h : Tried g t c) (ha : c.addrs ≠ []) (hc : s.calls t = some c) (e : Error ε) :
    Tried (g.fail s (t, e)) t (c.fail cx e) := by
  obtain ⟨a, rest, haddrs⟩ := List.exists_cons_of_ne_nil ha
  have hfailed : (g.fail s (t, e)).failed t = g.failed t ++ [(a, e)] := by
    simp [Record.fail, State.current, hc, haddrs]
  constructor
  · rw [hfailed]
    refine h.resolved.trans ?_
    simp [Call.fail, haddrs]
  · rw [hfailed]
    simp [Call.fail]

omit [DecidableEq κ] [DecidableEq W] in
theorem keeps_fail {t' : τ} {e : Error ε} (ht : t' ≠ t) : Keeps g (g.fail s (t, e)) t' where
  resolved := rfl
  failed := Function.update_of_ne ht ..
  written _ h := h

omit [DecidableEq κ] [DecidableEq W] in
/-- The call of `t` changes. -/
theorem calls_update (h : ∀ t c, s.calls t = some c → CallOk g t c) {o : Option (Call κ ε A W)}
    (ho : ∀ c, o = some c → CallOk g' t c) (hk : ∀ t' ≠ t, Keeps g g' t') (t' : τ)
    (c' : Call κ ε A W) (hc' : Function.update s.calls t o t' = some c') : CallOk g' t' c' := by
  by_cases ht : t' = t
  · subst ht
    rw [Function.update_self] at hc'
    exact ho c' hc'
  · rw [Function.update_of_ne ht] at hc'
    exact (h t' c' hc').keeps (hk t' ht)

/-- The variables of the calls after a step. -/
theorem calls_step (h : Results s g) {a : Act τ κ ε A W} {e : Effect τ κ ε A W}
    (he : Enabled s a e) (t' : τ) (c' : Call κ ε A W) (hc' : e.calls t' = some c') :
    CallOk (g.record s a) t' c' := by
  have same : ∀ {t : τ} {o : Option (Call κ ε A W)}, (∀ c, o = some c → CallOk g t c) →
      Function.update s.calls t o t' = some c' → CallOk g t' c' :=
    fun ho => calls_update h.calls ho (fun _ _ => ⟨rfl, rfl, fun _ => id⟩) t' c'
  have attempt : ∀ {t : τ} {c : Call κ ε A W} {cx : W} {pc : Pc κ}, At s t c cx pc → CallOk g t c :=
    fun h' => h.calls _ _ h'.call
  have fail : ∀ {t : τ} {c : Call κ ε A W} {cx : W} {e : Error ε}, s.calls t = some c →
      Tried g t c → c.addrs ≠ [] → Function.update s.calls t (some (c.fail cx e)) t' = some c' →
      CallOk (g.fail s (t, e)) t' c' := by
    intro t c cx e hc htried ha hup
    refine calls_update h.calls (fun c₁ hc₁ => ?_) (fun _ ht => keeps_fail ht) t' c' hup
    cases hc₁
    exact htried.fail ha hc e
  cases he with
  | @call t kind hc =>
    refine calls_update h.calls (fun c₁ hc₁ => ?_) (fun t₁ ht => ?_) t' c' hc'
    · cases hc₁
      exact ⟨Function.update_self .., Function.update_self .., rfl⟩
    · exact ⟨Function.update_of_ne ht .., Function.update_of_ne ht .., fun _ => id⟩
  | start hc hp =>
    refine same (fun c₁ hc₁ => ?_) hc'
    cases hc₁
    have hok := h.calls _ _ hc
    simp only [CallOk, hp] at hok
    exact hok
  | resume hc hp =>
    refine same (fun c₁ hc₁ => ?_) hc'
    cases hc₁
    have hok := h.calls _ _ hc
    simp only [CallOk, hp] at hok
    exact ⟨hok.1.goto _, hok.2⟩
  | resolved h' =>
    have hok := attempt h'
    simp only [CallOk, h'.place] at hok
    refine calls_update h.calls (fun c₁ hc₁ => ?_) (fun t₁ ht => ?_) t' c' hc'
    · cases hc₁
      refine ⟨?_, ?_⟩
      · simp [Record.record, hok.2.1]
      · simp [Record.record, hok.2.1, hok.2.2]
    · exact ⟨Function.update_of_ne ht .., rfl, fun _ => id⟩
  | unresolved h' =>
    have hok := attempt h'
    simp only [CallOk, h'.place] at hok
    refine same (fun c₁ hc₁ => ?_) hc'
    cases hc₁
    exact Or.inl hok.1
  | last h' ha =>
    have hok := attempt h'
    simp only [CallOk, h'.place] at hok
    refine same (fun c₁ hc₁ => ?_) hc'
    cases hc₁
    exact Or.inr ⟨hok.goto _, ha, rfl⟩
  | next h' ha =>
    have hok := attempt h'
    simp only [CallOk, h'.place] at hok
    refine same (fun c₁ hc₁ => ?_) hc'
    cases hc₁
    exact ⟨hok.goto _, by simp [Call.goto, ha]⟩
  | @created t c cx raw h' =>
    have hok := attempt h'
    simp only [CallOk, h'.place] at hok
    refine same (fun c₁ hc₁ => ?_) hc'
    cases hc₁
    unfold CallOk
    cases hk : c.kind <;> exact ⟨hok.1.goto _, hok.2⟩
  | notCreated h' | blocking h' | refused h' | notInserted h' =>
    have hok := attempt h'
    simp only [CallOk, h'.place] at hok
    exact fail h'.call hok.1 hok.2 hc'
  | nonblocking h' | inserted h' =>
    have hok := attempt h'
    simp only [CallOk, h'.place] at hok
    refine same (fun c₁ hc₁ => ?_) hc'
    cases hc₁
    exact ⟨hok.1.goto _, hok.2⟩
  | @connecting t c cx raw res h' hr =>
    have hok := attempt h'
    simp only [CallOk, h'.place] at hok
    have hg : g.record s (.connect t res) = g := by
      cases res with
      | err e => exact absurd rfl (hr e)
      | _ => rfl
    rw [hg]
    refine same (fun c₁ hc₁ => ?_) hc'
    cases hc₁
    exact ⟨hok.1.goto _, hok.2⟩
  | @registered t c cx raw x key h' =>
    have hok := attempt h'
    simp only [CallOk, h'.place] at hok
    refine same (fun c₁ hc₁ => ?_) hc'
    cases hc₁
    cases hk : c.kind with
    | tcp => exact ⟨hok.1.goto _, hok.2⟩
    | unix => exact ⟨hok.1.goto _, hok.2⟩
    | udp => exact ⟨hok.1.goto _, hok.2, fun hne => absurd hk hne⟩
  | @ready t c cx st src res h' hx =>
    have hok := attempt h'
    simp only [CallOk, h'.place] at hok
    refine same (fun c₁ hc₁ => ?_) hc'
    cases hc₁
    cases ha : (src.pollReady s.sources.ticker .write cx res).answer with
    | pending => exact ⟨hok.1.goto _, hok.2⟩
    | ready r =>
      cases r with
      | ok => exact ⟨hok.1.goto _, hok.2, h.ready _ _ hx (pollReady_ready.1 ha)⟩
      | error e => exact ⟨hok.1.goto _, hok.2⟩
  | @check t c cx st res h' =>
    have hok := attempt h'
    simp only [CallOk, h'.place] at hok
    refine same (fun c₁ hc₁ => ?_) hc'
    cases hc₁
    cases res with
    | error e => exact ⟨hok.1.goto _, hok.2.1⟩
    | ok o =>
      cases o with
      | none => exact ⟨hok.1.goto _, hok.2.1, fun _ => hok.2.2⟩
      | some e => exact ⟨hok.1.goto _, hok.2.1⟩
  | gone => exact same (by simp) hc'
  | drop hc hp =>
    have hok := h.calls _ _ hc
    refine same (fun c₁ hc₁ => ?_) hc'
    cases hc₁
    rcases hp with ⟨cx, hp⟩ | hp
    · simp only [CallOk, hp] at hok
      exact ⟨hok.1.goto _, hok.2⟩
    · simp only [CallOk, hp] at hok
      exact ⟨hok.1.goto _, hok.2.1⟩
  | remove hc hp =>
    have hok := h.calls _ _ hc
    simp only [CallOk, hp] at hok
    refine same (fun c₁ hc₁ => ?_) hc'
    cases hc₁
    exact ⟨hok.1.goto _, hok.2⟩
  | @close t c st k hc hp =>
    have hok := h.calls _ _ hc
    simp only [CallOk, hp] at hok
    cases k with
    | none =>
      have hg : g.record s (.close t) = g := by
        simp [Record.record, State.failure, hc, hp]
      rw [hg]
      exact same (by simp) hc'
    | some p =>
      have hg : g.record s (.close t) = g.fail s (t, p.2) := by
        simp [Record.record, State.failure, hc, hp]
      rw [hg]
      exact fail hc hok.1 hok.2 hc'
  | use => exact h.calls t' c' hc'
  | @other b hb =>
    exact (h.calls t' c' hc').keeps ⟨rfl, rfl, fun x hx => by simp [Record.record, hx]⟩

/-- A source that is ready was ready before, or an event is delivered to it. -/
theorem ready_before {u u' : Sources.State κ W} (hw : Wf u) {b : Sources.Act κ W}
    (hs : Sources.step u b = some u') {x : κ} {src' : Source W} (hx : u'.source x = some src')
    {op : Op} (hr : (src'.states op).ready = true) :
    (∃ src, u.source x = some src ∧ (src.states op).ready = true) ∨ delivers u x op b = true := by
  cases hx₀ : u.source x with
  | some src =>
    obtain ⟨src₁, hx₁, hready⟩ := step_ready hs hx₀
    rw [hx] at hx₁
    cases hx₁
    exact (hready op hr).imp_left fun h => ⟨src, rfl, h⟩
  | none =>
    -- a source that is not there comes with `insert_io`
    have hnone : ∀ {v : Sources.State κ W}, Moves u v → v.source x = none := by
      intro v hm
      have hmap := hm.source x
      rw [hx₀] at hmap
      exact Option.map_eq_none_iff.1 hmap
    exfalso
    cases Sources.step_cases hs with
    | pollerInsert => rw [State.pollerInsert, hx₀] at hx; cases hx
    | @insertIo y =>
      by_cases hxy : x = y
      · subst hxy
        simp only [State.insertIo, State.setSource, Function.update_self, Option.some.injEq] at hx
        subst hx
        simp [Dir.ready] at hr
      · simp [State.insertIo, State.setSource, hxy, hx₀] at hx
    | @removeIo y src => rw [(removeIo_fields u y src).1, hx₀] at hx; cases hx
    | close => rw [hx₀] at hx; cases hx
    | pollReady hy _ hs => rw [hnone (moves_pollReady hw hy hs)] at hx; cases hx
    | react => rw [hx₀] at hx; cases hx
    | next hs => rw [hnone (moves_reactStep hw hs)] at hx; cases hx
    | waitEvents => rw [hx₀] at hx; cases hx
    | waitEmpty => rw [hx₀] at hx; cases hx
    | process hs => rw [hnone (moves_process hs)] at hx; cases hx

omit [DecidableEq W] in
theorem written_record {a : Act τ κ ε A W} {x : κ} (h : g.written x = true) :
    (g.record s a).written x = true := by
  have helim : ∀ o : Option (τ × Error ε), (o.elim g (g.fail s)).written x = true := by
    intro o
    cases o <;> exact h
  cases a with
  | resolve t res => cases res <;> exact h
  | call => exact h
  | other b => simp [Record.record, h]
  | _ => exact helim _

/-- Each delivery is recorded. -/
theorem written_move {a : Act τ κ ε A W} {e : Effect τ κ ε A W} (he : Enabled s a e)
    {b : Sources.Act κ W} (hb : e.move = some b) {x : κ}
    (hd : delivers s.sources x .write b = true) : (g.record s a).written x = true := by
  cases he with
  | other => cases hb; simp [Record.record, hd]
  | _ => cases hb <;> cases hd

omit [DecidableEq τ] [DecidableEq κ] [DecidableEq W] in
theorem results_init : Results (init : State τ κ ε A W) .new := by
  constructor
  · intro t c hc
    cases hc
  · intro x src hx
    cases hx

theorem Results.step (h : Results s g) (hw : Wf s.sources) {a : Act τ κ ε A W}
    (hs : Connect.step s a = some s') : Results s' (g.record s a) := by
  obtain ⟨e, he, -, hcalls, hm⟩ := step_cases hs
  have hen := effect_cases he
  refine ⟨fun t c hc => calls_step h hen t c (by rwa [← hcalls]), fun x src hx hr => ?_⟩
  obtain ⟨-, hu⟩ | ⟨b, hb, hu⟩ := hm
  · rw [hu] at hx
    exact written_record (h.ready x src hx hr)
  · rcases ready_before hw hu hx hr with ⟨src₀, hx₀, hr₀⟩ | hd
    · exact written_record (h.ready x src₀ hx₀ hr₀)
    · exact written_move hen hb hd

/-- What a call has returned, after which addresses. -/
def Returned (g : Record τ κ ε A) (t : τ) (kind : Kind) : Except (Error ε) (Stream κ) → Prop
  | .ok st => (∃ a rest, g.resolved t = some ((g.failed t).map Prod.fst ++ a :: rest)) ∧
    (kind ≠ .udp → g.written st.source = true)
  | .error e => g.resolved t = none ∨ g.resolved t = some ((g.failed t).map Prod.fst) ∧
    e = ((g.failed t).getLast?.map Prod.snd).getD unresolved

/-- **The first address that succeeds.** In every run, a call that returns a stream has tried
    its addresses in order, those before the current one have failed, and none after it was
    tried; the stream of a connect is one that `react` has delivered a writable event to.  A
    call that returns an error could not resolve its addresses, or all of them have failed and
    it is the error of the last, or there were none. -/
theorem connect_result {p : State τ κ ε A W × Record τ κ ε A} (h : recorded.Reachable p) {t : τ}
    {c : Call κ ε A W} (hc : p.1.calls t = some c) {res : Except (Error ε) (Stream κ)}
    (hp : c.place = .done res) : Returned p.2 t c.kind res := by
  have hinv : Wf p.1.sources ∧ Results p.1 p.2 := by
    refine h.inv (P := fun p => Wf p.1.sources ∧ Results p.1 p.2) (fun p hp => ?_)
      fun p a p' _ ih _ hs => ?_
    · rw [show p.1 = init from hp.1]
      exact ⟨wf_init, hp.2 ▸ results_init⟩
    · obtain ⟨hstep, hrecord⟩ := Lts.monitor_step hs
      rw [hrecord]
      refine ⟨?_, ih.2.step ih.1 hstep⟩
      obtain ⟨e, -, -, -, ⟨-, hu⟩ | ⟨b, -, hu⟩⟩ := step_cases hstep
      · rw [hu]; exact ih.1
      · exact ih.1.step hu
  have hok := hinv.2.calls t c hc
  cases res with
  | ok st =>
    simp only [CallOk, hp] at hok
    obtain ⟨htried, haddrs, hwritten⟩ := hok
    obtain ⟨a, rest, ha⟩ := List.exists_cons_of_ne_nil haddrs
    exact ⟨⟨a, rest, by rw [htried.resolved, ha]⟩, hwritten⟩
  | error e =>
    simp only [CallOk, hp] at hok
    refine hok.imp_right fun hok => ?_
    obtain ⟨htried, haddrs, he⟩ := hok
    exact ⟨by rw [htried.resolved, haddrs, List.append_nil], by rw [he, htried.lastErr]⟩

theorem connect_result_second :
    ∃ p : State (Fin 1) ℕ Unit ℕ ℕ × Record (Fin 1) ℕ Unit ℕ,
      recorded.run (init, .new) connectSecond = some p ∧ p.2.resolved 0 = some [80, 81] ∧
        p.2.failed 0 = [(80, .os ())] ∧ Returned p.2 0 .tcp (.ok ⟨5, 9⟩) := by
  obtain ⟨p, hs, hresolved, hfailed, hcall⟩ :
      ∃ p : State (Fin 1) ℕ Unit ℕ ℕ × Record (Fin 1) ℕ Unit ℕ,
        recorded.run (init, .new) connectSecond = some p ∧ p.2.resolved 0 = some [80, 81] ∧
          p.2.failed 0 = [(80, .os ())] ∧ (p.1.calls 0).map (fun c => (c.kind, c.place)) =
            some (.tcp, .done (.ok ⟨5, 9⟩)) :=
    Lts.exists_run (by decide +kernel)
  obtain ⟨c, hc, hplace⟩ := Option.map_eq_some_iff.1 hcall
  obtain ⟨hkind, hplace⟩ := Prod.mk.inj hplace
  have hinit : recorded.init
      ((init, .new) : State (Fin 1) ℕ Unit ℕ ℕ × Record (Fin 1) ℕ Unit ℕ) := ⟨rfl, rfl⟩
  refine ⟨p, hs, hresolved, hfailed, hkind ▸ ?_⟩
  exact connect_result (.run (.init hinit) (Lts.meets_true _ _) hs) hc hplace

end Record

/-! ## Waiting -/

/-- The wakers that `react` has called, as for the calls of `Async::write_with`. -/
structure Heard (τ W : Type) where
  woken : List W
  /-- how many they were when the last poll of a call became pending -/
  heard : τ → ℕ

/-- No waker has been called. -/
def Heard.new : Heard τ W := ⟨[], fun _ => 0⟩

section Heard
variable [DecidableEq τ] [DecidableEq κ] [DecidableEq W]

/-- A poll of the source remembers how many wakers `react` has called. -/
def Heard.record (g : Heard τ W) (s : State τ κ ε A W) : Act τ κ ε A W → Heard τ W
  | .ready t _ => { g with heard := Function.update g.heard t g.woken.length }
  | .other b => { g with woken := g.woken ++ (wakes s.sources b).toList }
  | _ => g

/-- The calls, with the wakers that `react` has called. -/
def heard : Lts (State τ κ ε A W × Heard τ W) (Act τ κ ε A W) :=
  system.monitor .new Heard.record

/-- The calls of `Poller::interest` succeed. -/
def Act.Succeeds : Act τ κ ε A W → Prop
  | .ready _ res => succeeded res = true
  | .use _ _ _ ok => ok = true
  | .other b => b.Succeeds
  | _ => True

instance : (a : Act τ κ ε A W) → Decidable a.Succeeds
  | .ready _ res => inferInstanceAs (Decidable (succeeded res = true))
  | .use _ _ _ ok => inferInstanceAs (Decidable (ok = true))
  | .other b => inferInstanceAs (Decidable b.Succeeds)
  | .call .. | .poll .. | .resolve .. | .next _ | .socket .. | .nonblocking .. | .connect ..
  | .insert .. | .register .. | .check .. | .drop _ | .remove _ | .close _ => isTrue trivial

/-- `stream.writable().await` and the check after it, as a call of the loop: the first call of
    the closure would block, the next one is the check. -/
def Call.waiting (c : Call κ ε A W) : Option (AsyncIo.Call κ ε Unit W) :=
  match c.place with
  | .run cx (.writable st) => some ⟨.future, st.source, .write, .ready cx⟩
  | .run cx (.check st) => some ⟨.future, st.source, .write, .op cx⟩
  | .pending cx st => some ⟨.future, st.source, .write, .pending cx⟩
  | _ => none

/-- The calls of connect are seen as calls of the loop. -/
structure Waiting (p : State τ κ ε A W × Heard τ W)
    (q : AsyncIo.State τ κ ε Unit W × AsyncIo.Record τ W) : Prop where
  sources : q.1.sources = p.1.sources
  calls : ∀ t, q.1.calls t = (p.1.calls t).bind Call.waiting
  woken : q.2.woken = p.2.woken
  heard : q.2.heard = p.2.heard

variable {s s' : State τ κ ε A W} {g : Heard τ W} {t : τ}
  {q q' : AsyncIo.State τ κ ε Unit W × AsyncIo.Record τ W}

/-- Runs of the calls of the loop. -/
abbrev Goes (q q' : AsyncIo.State τ κ ε Unit W × AsyncIo.Record τ W) : Prop :=
  AsyncIo.recorded.Runs (fun _ a => a.Succeeds) q q'

theorem goes {a : AsyncIo.Act τ κ ε Unit W} {v : AsyncIo.State τ κ ε Unit W}
    (hv : AsyncIo.step q.1 a = some v) (ha : a.Succeeds) : Goes q (v, q.2.record q.1 a) := by
  refine Lts.Runs.single ha ?_
  simp only [AsyncIo.recorded, Lts.monitor, AsyncIo.system, hv, Option.map_some]

omit [DecidableEq κ] [DecidableEq W] in
/-- The call of `t` changes on both sides. -/
theorem calls_put {f : τ → Option (AsyncIo.Call κ ε Unit W)}
    (h : ∀ t, f t = (s.calls t).bind Call.waiting) {o : Option (AsyncIo.Call κ ε Unit W)}
    {c : Option (Call κ ε A W)} (ho : o = c.bind Call.waiting) (t' : τ) :
    Function.update f t o t' = (Function.update s.calls t c t').bind Call.waiting := by
  by_cases ht : t' = t
  · subst ht
    simpa using ho
  · simpa [ht] using h t'

omit [DecidableEq κ] [DecidableEq W] in
/-- The call of `t` changes, and does not wait before and after it. -/
theorem calls_quiet {f : τ → Option (AsyncIo.Call κ ε Unit W)}
    (h : ∀ t, f t = (s.calls t).bind Call.waiting) {c : Option (Call κ ε A W)}
    (ht : (s.calls t).bind Call.waiting = c.bind Call.waiting) (t' : τ) :
    f t' = (Function.update s.calls t c t').bind Call.waiting := by
  have hput := calls_put h (t := t) (ht.symm ▸ (h t)) t'
  rwa [Function.update_eq_self] at hput

/-- The calls of the loop go from `q` to `q'`, where they are `calls`. -/
structure Turns (q q' : AsyncIo.State τ κ ε Unit W × AsyncIo.Record τ W)
    (calls : τ → Option (AsyncIo.Call κ ε Unit W)) : Prop where
  goes : Goes q q'
  sources : q'.1.sources = q.1.sources
  calls : q'.1.calls = calls
  woken : q'.2.woken = q.2.woken
  heard : q'.2.heard = q.2.heard

/-- A new call whose closure would block. -/
theorem turns_enter {x : κ} {src : Source W} (cx : W) (ht : q.1.calls t = none)
    (hx : q.1.sources.source x = some src) : ∃ q', Turns q q'
      (Function.update q.1.calls t (some ⟨.future, x, .write, .ready cx⟩)) := by
  have h₁ : AsyncIo.step q.1 (.call t .future x .write) =
      some (q.1.put t ⟨.future, x, .write, .idle⟩ .idle) := by
    simp only [AsyncIo.step, ht, hx]
  have h₂ : AsyncIo.step (q.1.put t ⟨.future, x, .write, .idle⟩ .idle) (.poll t cx) =
      some (q.1.put t ⟨.future, x, .write, .idle⟩ (.op cx)) := by
    simp [AsyncIo.step, AsyncIo.State.put, AsyncIo.Call.start]
  have h₃ : AsyncIo.step (q.1.put t ⟨.future, x, .write, .idle⟩ (.op cx)) (.op t .wouldBlock) =
      some (q.1.put t ⟨.future, x, .write, .idle⟩ (.ready cx)) := by
    simp [AsyncIo.step, AsyncIo.State.put, AsyncIo.IoRes.goto]
  exact ⟨_, ((goes h₁ trivial).trans (goes h₂ trivial)).trans (goes h₃ trivial), rfl, rfl, rfl, rfl⟩

/-- A call that is done or pending is dropped. -/
theorem turns_leave {c : AsyncIo.Call κ ε Unit W} (ht : q.1.calls t = some c)
    (hp : (∃ cx, c.place = .pending cx) ∨ ∃ r, c.place = .done r) :
    ∃ q', Turns q q' (Function.update q.1.calls t none) := by
  have hstep : AsyncIo.step q.1 (.drop t) =
      some { q.1 with calls := Function.update q.1.calls t none } := by
    rcases hp with ⟨cx, hp⟩ | ⟨r, hp⟩ <;> simp only [AsyncIo.step, ht, hp]
  exact ⟨_, goes hstep trivial, rfl, rfl, rfl, rfl⟩

/-- The closure returns, and the call is dropped. -/
theorem turns_answer {x : κ} {cx : W}
    (ht : q.1.calls t = some ⟨.future, x, .write, .op cx⟩) :
    ∃ q', Turns q q' (Function.update q.1.calls t none) := by
  have hstep : AsyncIo.step q.1 (.op t (.res (.ok ()))) =
      some (q.1.put t ⟨.future, x, .write, .op cx⟩ (.done (.ok ()))) := by
    simp only [AsyncIo.step, ht, AsyncIo.IoRes.goto]
  have hput : (q.1.put t ⟨.future, x, .write, .op cx⟩ (.done (.ok ()))).calls t =
      some ⟨.future, x, .write, .done (.ok ())⟩ := Function.update_self ..
  obtain ⟨q', hq'⟩ := turns_leave (q := (_, q.2.record q.1 (.op t (.res (.ok ()))))) hput
    (Or.inr ⟨_, rfl⟩)
  refine ⟨q', (goes hstep trivial).trans hq'.goes, hq'.sources, ?_, hq'.woken, hq'.heard⟩
  rw [hq'.calls]
  simp

/-- The sources move. -/
theorem goes_other {b : Sources.Act κ W} (hb : b.Succeeds) {u : Sources.State κ W}
    (hu : Sources.step q.1.sources b = some u) :
    Goes q ({ q.1 with sources := u }, q.2.observe q.1 b) :=
  goes (by simp only [AsyncIo.step, hu, Option.map_some]) (a := .other b) hb

theorem waiting_other (h : Waiting (s, g) q) {b : Sources.Act κ W} (hb : b.Succeeds)
    (hu : Sources.step s.sources b = some s'.sources)
    (hcalls : ∀ t, q.1.calls t = (s'.calls t).bind Call.waiting) {g' : Heard τ W}
    (hw : g'.woken = g.woken ++ (wakes s.sources b).toList) (hh : g'.heard = g.heard) :
    ∃ q', Goes q q' ∧ Waiting (s', g') q' := by
  have hu' : Sources.step q.1.sources b = some s'.sources := by
    rw [h.sources]; exact hu
  refine ⟨_, goes_other hb hu', rfl, hcalls, ?_, h.heard.trans hh.symm⟩
  simp only [AsyncIo.Record.observe, hw, h.woken, h.sources]

/-- `stream.writable()` is a new call of the loop. -/
theorem waiting_registered (h : Waiting (s, g) q) {c : Call κ ε A W} {cx : W} {raw : ℕ} {x : κ}
    {key : ℕ} (h' : At s t c cx (.register raw))
    (hu : Sources.step s.sources (.insertIo x raw key) = some s'.sources)
    (hcalls : s'.calls =
      Function.update s.calls t (some (c.goto (c.kind.registered cx ⟨raw, x⟩)))) :
    ∃ q', Goes q q' ∧ Waiting (s', g) q' := by
  have hnone : (s.calls t).bind Call.waiting = none := by
    simp [h'.call, Call.waiting, h'.place]
  obtain ⟨src, hsrc⟩ : ∃ src, s'.sources.source x = some src := by
    generalize s'.sources = u at hu
    cases Sources.step_cases hu with
    | insertIo => exact ⟨_, Function.update_self ..⟩
  obtain ⟨s₁, hs₁, hcalls₁⟩ : ∃ s₁ : State τ κ ε A W, s₁.sources = s'.sources ∧
      s₁.calls = s.calls := ⟨{ s' with calls := s.calls }, rfl, rfl⟩
  rw [← hs₁] at hu hsrc
  obtain ⟨q₁, hgo, hq₁⟩ : ∃ q₁, Goes q q₁ ∧ Waiting (s₁, g) q₁ :=
    waiting_other h (b := .insertIo x raw key) trivial hu (by rw [hcalls₁]; exact h.calls)
      (by simp [wakes]) rfl
  have hq₁calls : ∀ t', q₁.1.calls t' = (s.calls t').bind Call.waiting := by
    intro t'
    rw [hq₁.calls, hcalls₁]
  have hq₁t : q₁.1.calls t = none := (hq₁calls t).trans hnone
  have hsrc₁ : q₁.1.sources.source x = some src := by
    rw [hq₁.sources]; exact hsrc
  have hplace : ∀ st, c.kind.registered cx st = (.run cx (.writable st) : Place κ ε W) →
      st = ⟨raw, x⟩ → ∃ q', Goes q q' ∧ Waiting (s', g) q' := by
    rintro st hreg rfl
    obtain ⟨q', hq'⟩ := turns_enter cx hq₁t hsrc₁
    refine ⟨q', hgo.trans hq'.goes, hq'.sources.trans (hq₁.sources.trans hs₁), fun t' => ?_,
      hq'.woken.trans hq₁.woken, hq'.heard.trans hq₁.heard⟩
    rw [hq'.calls, hcalls, hreg]
    exact calls_put hq₁calls (c := some (c.goto (.run cx (.writable ⟨raw, x⟩)))) rfl t'
  cases hk : c.kind with
  | tcp => exact hplace _ (by rw [hk]; rfl) rfl
  | unix => exact hplace _ (by rw [hk]; rfl) rfl
  | udp =>
    refine ⟨q₁, hgo, hq₁.sources.trans hs₁, fun t' => ?_, hq₁.woken, hq₁.heard⟩
    rw [hcalls]
    refine calls_quiet hq₁calls ?_ t'
    rw [hnone, hk]
    rfl

/-- `poll_ready` is called by both; a call of the loop that gets an error is dropped. -/
theorem waiting_ready (h : Waiting (s, g) q) {c : Call κ ε A W} {cx : W} {st : Stream κ}
    {src : Source W} {res : Except ε Unit} (ha : succeeded res = true)
    (h' : At s t c cx (.writable st)) (hx : s.sources.source st.source = some src)
    (hu : Sources.step s.sources (.pollReady st.source .write cx (succeeded res)) =
      some s'.sources)
    (hcalls : s'.calls = Function.update s.calls t (some (c.goto (readyGoto cx st
      (src.pollReady s.sources.ticker .write cx res).answer)))) :
    ∃ q', Goes q q' ∧ Waiting (s', g.record s (.ready t res)) q' := by
  have hcall : q.1.calls t = some ⟨.future, st.source, .write, .ready cx⟩ := by
    rw [h.calls]; simp [h'.call, Call.waiting, h'.place]
  have hstep : AsyncIo.step q.1 (.ready t res) =
      some ({ q.1 with sources := s'.sources }.put t ⟨.future, st.source, .write, .ready cx⟩
        (AsyncIo.readyGoto cx (src.pollReady s.sources.ticker .write cx res).answer)) := by
    simp only [AsyncIo.step, hcall, h.sources, hx, hu, Option.map_some]
  have hgo := goes hstep ha
  have hheard : (q.2.record q.1 (.ready t res)).heard =
      (g.record s (.ready t res : Act τ κ ε A W)).heard := by
    simp only [AsyncIo.Record.record, Heard.record, h.heard, h.woken]
  cases hanswer : (src.pollReady s.sources.ticker .write cx res).answer with
  | pending =>
    rw [hanswer] at hgo hcalls
    refine ⟨_, hgo, rfl, ?_, h.woken, hheard⟩
    rw [hcalls]
    exact calls_put h.calls rfl
  | ready r =>
    cases r with
    | ok =>
      rw [hanswer] at hgo hcalls
      refine ⟨_, hgo, rfl, ?_, h.woken, hheard⟩
      rw [hcalls]
      exact calls_put h.calls rfl
    | error e =>
      rw [hanswer] at hgo hcalls
      have hput : ({ q.1 with sources := s'.sources }.put t ⟨.future, st.source, .write, .ready cx⟩
          (.done (.error e)) : AsyncIo.State τ κ ε Unit W).calls t =
            some ⟨.future, st.source, .write, .done (.error e)⟩ := Function.update_self ..
      obtain ⟨q', hq'⟩ := turns_leave (q := (_, q.2.record q.1 (.ready t res))) hput
        (Or.inr ⟨_, rfl⟩)
      refine ⟨q', hgo.trans hq'.goes, hq'.sources, fun t' => ?_, hq'.woken.trans h.woken,
        hq'.heard.trans hheard⟩
      rw [hq'.calls, hcalls]
      simp only [Function.update_idem]
      exact calls_put h.calls (c := some (c.goto (readyGoto cx st (.ready (.error e))))) rfl t'

/-- Each step of the calls of connect is a run of the calls of the loop. -/
theorem waiting_step (h : Waiting (s, g) q) {a : Act τ κ ε A W} (ha : a.Succeeds)
    (hs : Connect.step s a = some s') : ∃ q', Goes q q' ∧ Waiting (s', g.record s a) q' := by
  obtain ⟨e, he, -, hcalls, hm⟩ := step_cases hs
  have hquiet : e.move = none → g.record s a = g →
      (∀ t, q.1.calls t = (e.calls t).bind Call.waiting) →
      ∃ q', Goes q q' ∧ Waiting (s', g.record s a) q' := by
    intro hnone hg hq
    obtain ⟨-, hu⟩ | ⟨b, hb, -⟩ := hm
    · refine ⟨q, .refl, h.sources.trans hu.symm, ?_, ?_, ?_⟩
      · rw [hcalls]; exact hq
      · rw [hg]; exact h.woken
      · rw [hg]; exact h.heard
    · rw [hnone] at hb; cases hb
  have hshared : ∀ b, e.move = some b → b.Succeeds →
      (g.record s a).woken = g.woken ++ (wakes s.sources b).toList →
      (g.record s a).heard = g.heard → (∀ t, q.1.calls t = (e.calls t).bind Call.waiting) →
      ∃ q', Goes q q' ∧ Waiting (s', g.record s a) q' := by
    intro b hb hsucc hw hh hq
    obtain ⟨hnone, -⟩ | ⟨b', hb', hu⟩ := hm
    · rw [hnone] at hb; cases hb
    · rw [hb'] at hb; cases hb
      exact waiting_other h hsucc hu (by rw [hcalls]; exact hq) hw hh
  have hturn : ∀ calls, e.move = none → g.record s a = g → (∃ q', Turns q q' calls) →
      (∀ t, calls t = (e.calls t).bind Call.waiting) →
      ∃ q', Goes q q' ∧ Waiting (s', g.record s a) q' := by
    rintro calls hnone hg ⟨q', hq'⟩ hq
    obtain ⟨-, hu⟩ | ⟨b, hb, -⟩ := hm
    · refine ⟨q', hq'.goes, hq'.sources.trans (h.sources.trans hu.symm), fun t => ?_, ?_, ?_⟩
      · rw [hcalls, hq'.calls]; exact hq t
      · rw [hg]; exact hq'.woken.trans h.woken
      · rw [hg]; exact hq'.heard.trans h.heard
    · rw [hnone] at hb; cases hb
  cases effect_cases he with
  | call hc =>
    exact hquiet rfl rfl (calls_quiet h.calls (by simp [hc, Call.waiting]))
  | start hc hp =>
    exact hquiet rfl rfl (calls_quiet h.calls (by simp [hc, Call.waiting, hp, Call.goto]))
  | @resume t cx cx' c st hc hp =>
    have hcall : q.1.calls t = some ⟨.future, st.source, .write, .pending cx'⟩ := by
      rw [h.calls]; simp [hc, Call.waiting, hp]
    have hstep : AsyncIo.step q.1 (.poll t cx) =
        some (q.1.put t ⟨.future, st.source, .write, .pending cx'⟩ (.ready cx)) := by
      simp only [AsyncIo.step, hcall, Option.bind_some, AsyncIo.Call.start, Option.map_some]
    refine hturn _ rfl rfl ⟨_, goes hstep trivial, rfl, rfl, rfl, rfl⟩ (calls_put h.calls ?_)
    simp [Call.waiting, Call.goto]
  | resolved h' | unresolved h' | last h' | next h' | notCreated h' | nonblocking h'
  | blocking h' | refused h' | notInserted h' =>
    refine hquiet rfl rfl (calls_quiet h.calls ?_)
    simp [h'.call, Call.waiting, h'.place, Call.goto, Call.fail]
  | @created t c cx raw h' =>
    refine hquiet rfl rfl (calls_quiet h.calls ?_)
    cases hk : c.kind <;> simp [h'.call, Call.waiting, h'.place, Call.goto, Kind.created]
  | @connecting t c cx raw res h' =>
    have hg : g.record s (.connect t res) = g := rfl
    refine hquiet rfl hg (calls_quiet h.calls ?_)
    simp [h'.call, Call.waiting, h'.place, Call.goto]
  | inserted h' =>
    refine hshared _ rfl trivial (by simp [Heard.record, wakes]) rfl (calls_quiet h.calls ?_)
    simp [h'.call, Call.waiting, h'.place, Call.goto]
  | registered h' =>
    obtain ⟨hmove, -⟩ | ⟨b, hb, hu⟩ := hm
    · cases hmove
    · cases hb
      exact waiting_registered h h' hu hcalls
  | ready h' hx =>
    obtain ⟨hmove, -⟩ | ⟨b, hb, hu⟩ := hm
    · cases hmove
    · cases hb
      exact waiting_ready h ha h' hx hu hcalls
  | @check t c cx st res h' =>
    have hcall : q.1.calls t = some ⟨.future, st.source, .write, .op cx⟩ := by
      rw [h.calls]; simp [h'.call, Call.waiting, h'.place]
    refine hturn _ rfl rfl (turns_answer hcall) (calls_put h.calls ?_)
    cases res with
    | error e => rfl
    | ok o => cases o <;> rfl
  | gone hc hp =>
    refine hquiet rfl rfl (calls_quiet h.calls ?_)
    rcases hp with hp | ⟨e, hp⟩ <;> simp [hc, Call.waiting, hp]
  | @drop t c st hc hp =>
    rcases hp with ⟨cx, hp⟩ | hp
    · have hcall : q.1.calls t = some ⟨.future, st.source, .write, .pending cx⟩ := by
        rw [h.calls]; simp [hc, Call.waiting, hp]
      exact hturn _ rfl rfl (turns_leave hcall (Or.inl ⟨cx, rfl⟩)) (calls_put h.calls rfl)
    · exact hquiet rfl rfl (calls_quiet h.calls (by simp [hc, Call.waiting, hp, Call.goto]))
  | remove hc hp =>
    refine hshared _ rfl trivial (by simp [Heard.record, wakes]) rfl (calls_quiet h.calls ?_)
    simp [hc, Call.waiting, hp, Call.goto]
  | @close t c st k hc hp =>
    refine hshared _ rfl trivial (by simp [Heard.record, wakes]) rfl (calls_quiet h.calls ?_)
    cases k <;> simp [hc, Call.waiting, hp, Call.fail]
  | use hc hp => exact hshared _ rfl ha (by simp [Heard.record, wakes]) rfl h.calls
  | other hb => exact hshared _ rfl ha rfl rfl h.calls

theorem waiting_reach {p : State τ κ ε A W × Heard τ W}
    (h : heard.Reach (fun _ a => a.Succeeds) p) :
    ∃ q, AsyncIo.recorded.Reach (fun _ a => a.Succeeds) q ∧ Waiting p q := by
  refine h.simulate (fun p hp => ?_) fun p a p' q _ hq ha hs => ?_
  · refine ⟨(AsyncIo.init, .new), ⟨rfl, rfl⟩, ?_⟩
    rw [show p = (init, .new) from Prod.ext hp.1 hp.2]
    exact ⟨rfl, fun _ => rfl, rfl, rfl⟩
  · obtain ⟨hstep, hrecord⟩ := Lts.monitor_step hs
    obtain ⟨q', hgo, hq'⟩ := waiting_step hq ha hstep
    exact ⟨q', hgo, by rwa [← hrecord] at hq'⟩

/-- **A pending connect is woken or waits.** As long as the calls of `interest` succeed and the
    others do not remove a source twice: the socket of a connect that is pending is registered,
    and `react` has called the waker of its last poll since, or has it in its list and is about
    to, or the waker is stored and the descriptor is armed for writing or an event for it is in
    the batch. -/
theorem connect_waits {p : State τ κ ε A W × Heard τ W}
    (h : heard.Reach (fun p a => a.Succeeds ∧ Single p.1 a) p) {t : τ} {c : Call κ ε A W}
    {cx : W} {st : Stream κ} (hc : p.1.calls t = some c) (hp : c.place = .pending cx st) :
    ∃ src, Registered p.1.sources st.source src ∧ src.raw = st.io ∧
      (cx ∈ p.2.woken.drop (p.2.heard t) ∨
        (cx ∈ p.1.sources.wakers ∧ p.1.sources.reacting ≠ .idle) ∨
        cx ∈ (src.states .write).wakers ∧
          (Armed p.1.sources src .write ∨ Reported p.1.sources src)) := by
  have hsingle : system.Reach Single p.1 :=
    Lts.monitor_reach (h.mono fun _ _ ha => ha.2)
  obtain ⟨src, hx, hraw, hremoved, -⟩ : HasSource p.1.sources st false := by
    have hok := (inv_reach hsingle).owned.ok t
    rwa [State.stage, stages_some hc, hp] at hok
  have hreg := (inv_reach hsingle).listed st.source src hx hremoved
  refine ⟨src, hreg, hraw, ?_⟩
  obtain ⟨q, hq, hw⟩ := waiting_reach (h.mono fun _ _ ha => ha.1)
  have hcall : q.1.calls t = some ⟨.future, st.source, .write, .pending cx⟩ := by
    rw [hw.calls]; simp [hc, Call.waiting, hp]
  rw [← hw.sources] at hreg
  have hcases := AsyncIo.pending_cases hq hcall rfl hreg
  have harmed := armed_reach (AsyncIo.sources_reach hq) st.source src hreg .write
  rw [hw.woken, hw.heard, hw.sources] at hcases
  rw [hw.sources] at harmed
  exact hcases.imp_right fun hcases =>
    hcases.imp_right fun hmem => ⟨hmem, harmed (List.ne_nil_of_mem hmem)⟩

theorem connect_waits_second : ∃ p : State (Fin 1) ℕ Unit ℕ ℕ × Heard (Fin 1) ℕ,
    heard.run (init, .new) (connectSecond.take 14) = some p ∧ p.2.woken = [] ∧
      ∃ src, Registered p.1.sources 9 src ∧
        (Armed p.1.sources src .write ∨ Reported p.1.sources src) := by
  obtain ⟨p, hs, hcall, hwoken, hwakers⟩ : ∃ p : State (Fin 1) ℕ Unit ℕ ℕ × Heard (Fin 1) ℕ,
      heard.run (init, .new) (connectSecond.take 14) = some p ∧
        (p.1.calls 0).map Call.place = some (.pending 7 ⟨5, 9⟩) ∧ p.2.woken = [] ∧
        p.1.sources.wakers = [] :=
    Lts.exists_run (by decide +kernel)
  have hm : heard.Meets (fun p a => a.Succeeds ∧ Single p.1 a)
      ((init, .new) : State (Fin 1) ℕ Unit ℕ ℕ × Heard (Fin 1) ℕ) (connectSecond.take 14) := by
    decide +kernel
  have hinit : heard.init ((init, .new) : State (Fin 1) ℕ Unit ℕ ℕ × Heard (Fin 1) ℕ) := ⟨rfl, rfl⟩
  obtain ⟨c, hc, hp⟩ := Option.map_eq_some_iff.1 hcall
  obtain ⟨src, hreg, -, hcases⟩ := connect_waits (.run (.init hinit) hm hs) hc hp
  refine ⟨p, hs, hwoken, src, hreg, ?_⟩
  rcases hcases with hmem | ⟨hmem, -⟩ | ⟨-, harmed⟩
  · rw [hwoken] at hmem
    simp at hmem
  · rw [hwakers] at hmem
    cases hmem
  · exact harmed

end Heard
end Awak.Connect
