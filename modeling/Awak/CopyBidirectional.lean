/-
  `copy_bidirectional` of `util/copy_bidirectional.rs`: two streams, each copied to the
  other by a `CopyBuffer` and then closed.

  A direction has its `TransferState` and, for the statements, the log of the reads of
  its source and of the writes, flushes and closes of its target; no other operation is
  called on the two streams.

  * `Transfer.Inv`: how far a direction has come, read off its log;
  * `transferOneDirection_spec`: what one call of `transfer_one_direction` does;
  * `bidirectional_correct`: each direction closes its target only when all is copied
    and flushed, and the answers of the future are those of the operations it has called.
-/
import Awak.CopyBuffer

namespace Awak

open Pipe

/-- `TransferState`. -/
inductive TransferState where
  | running (buf : CopyBuffer)
  | close (count : ℕ)
  | done (count : ℕ)

/-- One direction, and the operations called for it. -/
structure Transfer (κ : Type) where
  state : TransferState
  log : List (Event κ)
  panicked : Bool

namespace Transfer

variable {κ ρ ω : Type}

/-- Nothing is copied yet. -/
def new : Transfer κ := ⟨.running .new, [], false⟩

/-- `transfer_one_direction`. -/
def transferOneDirection (R : AsyncRead κ ρ) (W : AsyncWrite κ ω) (cx : κ) :
    ℕ → Transfer κ → ρ → ω → Option (Poll (Except IoError ℕ) × Transfer κ × ρ × ω)
  | 0, _, _, _ => none
  | fuel + 1, t, r, w =>
    match t.state with
    | .running buf =>
      match Copy.pollCopy R W cx fuel ⟨buf, ⟨r, w, t.log⟩, t.panicked⟩ with
      | none => none
      | some (.ready (.ok count), s) =>
        transferOneDirection R W cx fuel ⟨.close count, s.io.log, s.panicked⟩ s.io.r s.io.w
      | some (.ready (.error e), s) =>
        some (.ready (.error e), ⟨.running s.buf, s.io.log, s.panicked⟩, s.io.r, s.io.w)
      | some (.pending, s) =>
        some (.pending, ⟨.running s.buf, s.io.log, s.panicked⟩, s.io.r, s.io.w)
    | .close count =>
      match Pipe.close W (⟨r, w, t.log⟩ : Pipe κ ρ ω) cx with
      | (.ready (.ok _), io) =>
        transferOneDirection R W cx fuel { t with state := .done count, log := io.log } io.r io.w
      | (.ready (.error e), io) => some (.ready (.error e), { t with log := io.log }, io.r, io.w)
      | (.pending, io) => some (.pending, { t with log := io.log }, io.r, io.w)
    | .done count => some (.ready (.ok count), t, r, w)

/-! ## One direction -/

/-- The copy is complete, its `count` bytes are those read, and the target is not closed. -/
structure Copied (log : List (Event κ)) (count : ℕ) : Prop where
  finished : Finished log
  orderly : Orderly log
  opened : ∀ e ∈ log, e.closed = false
  count : count = (produced log).length

/-- The target is closed, after all `count` bytes read were written to it. -/
structure Transferred (log : List (Event κ)) (count : ℕ) : Prop where
  closed : ∃ e ∈ log, e.closed = true
  bytes : accepted log = produced log
  count : count = (produced log).length

/-- The invariant of one direction. -/
def Inv (t : Transfer κ) : Prop :=
  t.panicked = false ∧
    match t.state with
    | .running buf => buf.Holds t.log
    | .close count => Copied t.log count
    | .done count => Orderly t.log ∧ Transferred t.log count

/-- What a call of `transfer_one_direction` has done when it returns `p`. -/
structure Post (cx : κ) (t : Transfer κ) (p : Poll (Except IoError ℕ)) (t' : Transfer κ) :
    Prop where
  inv : t'.Inv
  events : ∃ events, t'.log = t.log ++ events ∧ (∀ e ∈ events, e.cx = cx) ∧
    Copy.Told events (some p)
  done : ∀ n, p = .ready (.ok n) → Transferred t'.log n

/-! ### A call returns, and has a spec -/

variable {R : AsyncRead κ ρ} {W : AsyncWrite κ ω} {cx : κ}

theorem Copied.snoc_close {log : List (Event κ)} {count : ℕ} (h : Copied log count) {e : Event κ}
    (he : e.isClose = true) :
    Orderly (log ++ [e]) ∧ accepted (log ++ [e]) = produced (log ++ [e]) ∧
      count = (produced (log ++ [e])).length := by
  have hfin := h.finished.snoc_close he
  refine ⟨h.orderly.snoc_close h.finished h.opened, hfin.bytes, ?_⟩
  rw [produced_append, produced_singleton, Event.isClose_produced he, List.append_nil]
  exact h.count

/-- A close that is pending or has failed is tried again. -/
theorem Copied.close_again {log : List (Event κ)} {count : ℕ} (h : Copied log count)
    {e : Event κ} (he : e.isClose = true) (hc : e.closed = false) : Copied (log ++ [e]) count where
  finished := h.finished.snoc_close he
  orderly := (h.snoc_close he).1
  opened e' he' := by
    rcases List.mem_append.1 he' with he' | he'
    · exact h.opened e' he'
    · rw [List.mem_singleton.1 he']; exact hc
  count := (h.snoc_close he).2.2

/-- The loop has gone on after calling some operations. -/
theorem Post.prepend {t t₁ t' : Transfer κ} {p : Poll (Except IoError ℕ)} {events : List (Event κ)}
    (h : Post cx t₁ p t') (hlog : t₁.log = t.log ++ events) (hcx : ∀ e ∈ events, e.cx = cx)
    (ht : Copy.Told events none) : Post cx t p t' where
  inv := h.inv
  events := by
    obtain ⟨events', hlog', hcx', ht'⟩ := h.events
    refine ⟨events ++ events', by rw [hlog', hlog, List.append_assoc], ?_, ht.append ht'⟩
    intro e he
    exact (List.mem_append.1 he).elim (hcx e) (hcx' e)
  done := h.done

/-- The copy waits or has failed. -/
theorem Post.of_copy {t : Transfer κ} {s s' : Copy κ ρ ω} {p : Poll (Except IoError ℕ)}
    (h : Copy.Post cx s (some p) s') (hlog : s.io.log = t.log) (hp : ∀ n, p ≠ .ready (.ok n)) :
    Post cx t p ⟨.running s'.buf, s'.io.log, s'.panicked⟩ where
  inv := ⟨h.inv.safe, h.inv.toHolds⟩
  events := by
    obtain ⟨events, hlog', hcx, ht, -⟩ := h.events
    exact ⟨events, by rw [← hlog]; exact hlog', hcx, ht⟩
  done n hn := absurd hn (hp n)

/-- A complete copy has not touched the target but for writes and flushes. -/
theorem copied_of_post {s s' : Copy κ ρ ω} {count : ℕ}
    (h : Copy.Post cx s (some (.ready (.ok count))) s') : Copied s'.io.log count := by
  obtain ⟨hfin, hcount⟩ := h.done count rfl
  refine ⟨hfin, orderly_of_open h.inv.opened, fun e he => ?_, hcount.trans ?_⟩
  · rw [← Bool.not_eq_true]
    intro hclosed
    have := h.inv.opened e he
    rw [Event.closed_isClose hclosed] at this; cases this
  · rw [hfin.bytes]

theorem transferOneDirection_spec : ∀ {fuel : ℕ} {t t' : Transfer κ} {r r' : ρ} {w w' : ω}
    {p : Poll (Except IoError ℕ)}, t.Inv →
    transferOneDirection R W cx fuel t r w = some (p, t', r', w') → Post cx t p t'
  | 0, _, _, _, _, _, _, _, _, hp => by cases hp
  | fuel + 1, t, t', r, r', w, w', p, h, hp => by
    obtain ⟨hsafe, hstate⟩ := h
    unfold transferOneDirection at hp
    cases ht : t.state with
    | running buf =>
      rw [ht] at hp hstate
      dsimp only at hp hstate
      have hinv : Copy.Inv (⟨buf, ⟨r, w, t.log⟩, t.panicked⟩ : Copy κ ρ ω) := ⟨hstate, hsafe⟩
      rcases hc : Copy.pollCopy R W cx fuel ⟨buf, ⟨r, w, t.log⟩, t.panicked⟩ with
        _ | ⟨_ | ⟨e | count⟩, s⟩ <;> rw [hc] at hp
      · cases hp
      · cases hp
        exact Post.of_copy (Copy.pollCopy_spec hinv hc) rfl (by simp)
      · cases hp
        exact Post.of_copy (Copy.pollCopy_spec hinv hc) rfl (by simp)
      · have hpost := Copy.pollCopy_spec hinv hc
        obtain ⟨events, hlog, hcx, htold, -⟩ := hpost.events
        -- the loop goes on with the close
        have hinv' : Inv (⟨.close count, s.io.log, s.panicked⟩ : Transfer κ) :=
          ⟨hpost.inv.safe, copied_of_post hpost⟩
        exact (transferOneDirection_spec hinv' hp).prepend hlog hcx htold
    | close count =>
      rw [ht] at hp hstate
      dsimp only at hp hstate
      rcases hc : Pipe.close W (⟨r, w, t.log⟩ : Pipe κ ρ ω) cx with ⟨_ | ⟨e | u⟩, io⟩ <;>
        rw [hc] at hp <;> have hlog := close_log hc <;> dsimp only at hp hlog
      · cases hp
        refine ⟨⟨hsafe, ?_⟩, ⟨_, hlog, by simp [Event.cx], by simp [Event.fails],
          Or.inl ⟨[], _, rfl, rfl⟩⟩, fun n hn => by cases hn⟩
        show Copied io.log count
        rw [hlog]
        exact hstate.close_again rfl rfl
      · cases hp
        refine ⟨⟨hsafe, ?_⟩, ⟨_, hlog, by simp [Event.cx], _, List.mem_singleton_self _, rfl⟩,
          fun n hn => by cases hn⟩
        show Copied io.log count
        rw [hlog]
        exact hstate.close_again rfl rfl
      · obtain ⟨hord, hbytes, hcount⟩ := hstate.snoc_close (e := .close cx (.ready (.ok u))) rfl
        have hinv' : Inv ({ t with state := .done count, log := io.log } : Transfer κ) := by
          refine ⟨hsafe, ?_⟩
          dsimp only
          rw [hlog]
          exact ⟨hord, ⟨.close cx (.ready (.ok u)), by simp, rfl⟩, hbytes, hcount⟩
        exact (transferOneDirection_spec hinv' hp).prepend hlog (by simp [Event.cx])
          (by simp [Copy.Told, Event.fails, Event.pending])
    | done count =>
      rw [ht] at hp hstate
      cases hp
      refine ⟨⟨hsafe, by rw [ht]; exact hstate⟩, ⟨[], by simp, by simp, ?_⟩, fun n hn => ?_⟩
      · intro e he
        cases he
      · cases hn
        exact hstate.2

theorem transferOneDirection_mono : ∀ {fuel fuel' : ℕ} {t : Transfer κ} {r : ρ} {w : ω}
    {out : Poll (Except IoError ℕ) × Transfer κ × ρ × ω}, fuel ≤ fuel' →
    transferOneDirection R W cx fuel t r w = some out →
      transferOneDirection R W cx fuel' t r w = some out
  | 0, _, _, _, _, _, _, hp => by cases hp
  | fuel + 1, 0, _, _, _, _, hle, _ => absurd hle (Nat.not_succ_le_zero fuel)
  | fuel + 1, fuel' + 1, t, r, w, out, hle, hp => by
    have hle' : fuel ≤ fuel' := Nat.le_of_succ_le_succ hle
    unfold transferOneDirection at hp ⊢
    cases ht : t.state with
    | running buf =>
      rw [ht] at hp
      dsimp only at hp ⊢
      cases hc : Copy.pollCopy R W cx fuel ⟨buf, ⟨r, w, t.log⟩, t.panicked⟩ with
      | none => rw [hc] at hp; cases hp
      | some res =>
        rw [hc] at hp
        rw [Copy.pollCopy_mono hle' hc]
        rcases res with ⟨_ | ⟨e | count⟩, s⟩
        · exact hp
        · exact hp
        · exact transferOneDirection_mono hle' hp
    | close count =>
      rw [ht] at hp
      dsimp only at hp ⊢
      rcases hc : Pipe.close W (⟨r, w, t.log⟩ : Pipe κ ρ ω) cx with ⟨_ | ⟨e | u⟩, io⟩ <;> rw [hc] at hp
      · exact hp
      · exact hp
      · exact transferOneDirection_mono hle' hp
    | done count =>
      rw [ht] at hp
      exact hp

/-- The rounds of the loop after the copy. -/
theorem transferOneDirection_close {t : Transfer κ} {count : ℕ} (ht : t.state = .close count)
    (r : ρ) (w : ω) (fuel : ℕ) : ∃ out, transferOneDirection R W cx (fuel + 2) t r w = some out := by
  unfold transferOneDirection
  rw [ht]
  dsimp only
  rcases hc : Pipe.close W (⟨r, w, t.log⟩ : Pipe κ ρ ω) cx with ⟨_ | ⟨e | u⟩, io⟩
  · exact ⟨_, rfl⟩
  · exact ⟨_, rfl⟩
  · exact ⟨_, rfl⟩

theorem transferOneDirection_total (hR : R.Finite) {t : Transfer κ} (h : t.Inv) (r : ρ) (w : ω) :
    ∃ fuel out, transferOneDirection R W cx fuel t r w = some out := by
  obtain ⟨hsafe, hstate⟩ := h
  cases ht : t.state with
  | running buf =>
    rw [ht] at hstate
    have hinv : Copy.Inv (⟨buf, ⟨r, w, t.log⟩, t.panicked⟩ : Copy κ ρ ω) := ⟨hstate, hsafe⟩
    obtain ⟨fuel, ⟨p, s⟩, hc⟩ : ∃ fuel res, Copy.pollCopy R W cx fuel _ = some res :=
      Copy.pollCopy_returns hR hinv
    refine ⟨fuel + 2 + 1, ?_⟩
    unfold transferOneDirection
    rw [ht]
    dsimp only
    rw [Copy.pollCopy_mono (Nat.le_add_right _ 2) hc]
    rcases p with _ | ⟨e | count⟩
    · exact ⟨_, rfl⟩
    · exact ⟨_, rfl⟩
    · exact transferOneDirection_close rfl _ _ _
  | close count => exact ⟨_, transferOneDirection_close ht r w 0⟩
  | done count =>
    refine ⟨1, ?_⟩
    unfold transferOneDirection
    rw [ht]
    exact ⟨_, rfl⟩

end Transfer

/-! ## Both directions -/

/-- A stream that can be read and written. -/
structure Duplex (κ α : Type) where
  read : AsyncRead κ α
  write : AsyncWrite κ α

/-- `CopyBidirectional`. -/
structure CopyBidirectional (κ α β : Type) where
  a : α
  b : β
  aToB : Transfer κ
  bToA : Transfer κ

namespace CopyBidirectional

variable {κ α β : Type}

/-- `copy_bidirectional`, not polled yet. -/
def new (a : α) (b : β) : CopyBidirectional κ α β := ⟨a, b, .new, .new⟩

/-- `CopyBidirectional::poll`. -/
def poll (A : Duplex κ α) (B : Duplex κ β) (cx : κ) (fuel : ℕ) (s : CopyBidirectional κ α β) :
    Option (Poll (Except IoError (ℕ × ℕ)) × CopyBidirectional κ α β) :=
  match Transfer.transferOneDirection A.read B.write cx fuel s.aToB s.a s.b with
  | none => none
  | some (.ready (.error e), t, a, b) =>
    some (.ready (.error e), { s with aToB := t, a := a, b := b })
  | some (p, t, a, b) =>
    let s := { s with aToB := t, a := a, b := b }
    match Transfer.transferOneDirection B.read A.write cx fuel s.bToA s.b s.a with
    | none => none
    | some (.ready (.error e), t, b, a) =>
      some (.ready (.error e), { s with bToA := t, a := a, b := b })
    | some (q, t, b, a) =>
      let s := { s with bToA := t, a := a, b := b }
      match p, q with
      | .ready (.ok x), .ready (.ok y) => some (.ready (.ok (x, y)), s)
      | _, _ => some (.pending, s)

/-- The polls of one future. -/
def system (A : Duplex κ α) (B : Duplex κ β) : Lts (CopyBidirectional κ α β) (ℕ × κ) where
  init s := ∃ a b, s = new a b
  step s c := (poll A B c.2 c.1 s).map Prod.snd

/-- What a poll has done when it returns `p`. -/
structure Post (cx : κ) (s : CopyBidirectional κ α β) (p : Poll (Except IoError (ℕ × ℕ)))
    (s' : CopyBidirectional κ α β) : Prop where
  inv : s'.aToB.Inv ∧ s'.bToA.Inv
  events : ∃ events events', s'.aToB.log = s.aToB.log ++ events ∧
    s'.bToA.log = s.bToA.log ++ events' ∧ (∀ e ∈ events ++ events', e.cx = cx) ∧
    (p = .pending → ∃ e ∈ events ++ events', e.pending = true) ∧
    ((∃ e, p = .ready (.error e)) ↔ ∃ e ∈ events ++ events', e.fails = true)
  done : ∀ x y, p = .ready (.ok (x, y)) →
    Transfer.Transferred s'.aToB.log x ∧ Transfer.Transferred s'.bToA.log y

variable {A : Duplex κ α} {B : Duplex κ β} {cx : κ} {s s' : CopyBidirectional κ α β}
  {p : Poll (Except IoError (ℕ × ℕ))}

theorem told_pending {events : List (Event κ)} {p : Poll (Except IoError ℕ)}
    (h : Copy.Told events (some p)) (hp : p = .pending) : ∃ e ∈ events, e.pending = true := by
  subst hp
  obtain ⟨-, ⟨before, e, rfl, he⟩ | ⟨e, hmem, -, he⟩⟩ := h
  · exact ⟨e, by simp, he⟩
  · exact ⟨e, hmem, he⟩

theorem told_fails {events : List (Event κ)} {p : Poll (Except IoError ℕ)}
    (h : Copy.Told events (some p)) :
    (∃ e, p = .ready (.error e)) ↔ ∃ e ∈ events, e.fails = true := by
  have hno : (∀ e ∈ events, e.fails = false) → ¬ ∃ e ∈ events, e.fails = true := by
    rintro hall ⟨e, he, hf⟩
    rw [hall e he] at hf; cases hf
  match p, h with
  | .pending, h =>
    refine iff_of_false ?_ (hno h.1)
    rintro ⟨e, he⟩
    cases he
  | .ready (.error e), h => exact iff_of_true ⟨e, rfl⟩ h
  | .ready (.ok n), h =>
    refine iff_of_false ?_ (hno fun e he => (h e he).1)
    rintro ⟨e, he⟩
    cases he

/-- Both directions have been called. -/
theorem Post.both {t t' : Transfer κ} {p₁ p₂ : Poll (Except IoError ℕ)} {a : α} {b : β}
    (h₁ : Transfer.Post cx s.aToB p₁ t) (h₂ : Transfer.Post cx s.bToA p₂ t')
    (hpending : p = .pending → p₁ = .pending ∨ p₂ = .pending)
    (herror : (∃ e, p = .ready (.error e)) ↔
      (∃ e, p₁ = .ready (.error e)) ∨ ∃ e, p₂ = .ready (.error e))
    (hok : ∀ x y, p = .ready (.ok (x, y)) → p₁ = .ready (.ok x) ∧ p₂ = .ready (.ok y)) :
    Post cx s p ⟨a, b, t, t'⟩ where
  inv := ⟨h₁.inv, h₂.inv⟩
  events := by
    obtain ⟨ev, hlog, hcx, ht⟩ := h₁.events
    obtain ⟨ev', hlog', hcx', ht'⟩ := h₂.events
    refine ⟨ev, ev', hlog, hlog', ?_, fun hp => ?_, ?_⟩
    · intro e he
      exact (List.mem_append.1 he).elim (hcx e) (hcx' e)
    · rcases hpending hp with hp | hp
      · obtain ⟨e, he, h⟩ := told_pending ht hp
        exact ⟨e, List.mem_append_left _ he, h⟩
      · obtain ⟨e, he, h⟩ := told_pending ht' hp
        exact ⟨e, List.mem_append_right _ he, h⟩
    · rw [herror, told_fails ht, told_fails ht']
      simp only [List.mem_append, or_and_right, exists_or]
  done x y hp := by
    obtain ⟨hx, hy⟩ := hok x y hp
    exact ⟨h₁.done x hx, h₂.done y hy⟩

/-- The first direction has failed: the other one is not called. -/
theorem Post.first {t : Transfer κ} {e : IoError} {a : α} {b : β}
    (h : Transfer.Post cx s.aToB (.ready (.error e)) t) (h' : s.bToA.Inv) :
    Post cx s (.ready (.error e)) ⟨a, b, t, s.bToA⟩ where
  inv := ⟨h.inv, h'⟩
  events := by
    obtain ⟨ev, hlog, hcx, ht⟩ := h.events
    refine ⟨ev, [], hlog, by simp, by simpa using hcx, by simp, ?_⟩
    rw [List.append_nil]
    exact iff_of_true ⟨e, rfl⟩ ((told_fails ht).1 ⟨e, rfl⟩)
  done x y hp := by cases hp

theorem poll_spec {fuel : ℕ} (h : s.aToB.Inv) (h' : s.bToA.Inv)
    (hp : poll A B cx fuel s = some (p, s')) : Post cx s p s' := by
  unfold poll at hp
  rcases h₁ : Transfer.transferOneDirection A.read B.write cx fuel s.aToB s.a s.b with
    _ | ⟨_ | ⟨e | x⟩, t, a, b⟩ <;> rw [h₁] at hp
  · cases hp
  · have hpost := Transfer.transferOneDirection_spec h h₁
    dsimp only at hp
    rcases h₂ : Transfer.transferOneDirection B.read A.write cx fuel s.bToA b a with
      _ | ⟨_ | ⟨e | y⟩, t', b', a'⟩ <;> rw [h₂] at hp <;> cases hp
    all_goals
      exact Post.both hpost (Transfer.transferOneDirection_spec h' h₂) (by simp) (by simp) (by simp)
  · cases hp
    exact Post.first (Transfer.transferOneDirection_spec h h₁) h'
  · have hpost := Transfer.transferOneDirection_spec h h₁
    dsimp only at hp
    rcases h₂ : Transfer.transferOneDirection B.read A.write cx fuel s.bToA b a with
      _ | ⟨_ | ⟨e | y⟩, t', b', a'⟩ <;> rw [h₂] at hp <;> cases hp
    all_goals
      exact Post.both hpost (Transfer.transferOneDirection_spec h' h₂) (by simp) (by simp) (by simp)

theorem poll_returns (hA : A.read.Finite) (hB : B.read.Finite) (h : s.aToB.Inv) (h' : s.bToA.Inv) :
    ∃ fuel res, poll A B cx fuel s = some res := by
  obtain ⟨n, ⟨p, t, a, b⟩, h₁⟩ : ∃ fuel out,
      Transfer.transferOneDirection A.read B.write cx fuel s.aToB s.a s.b = some out :=
    Transfer.transferOneDirection_total hA h s.a s.b
  obtain ⟨m, ⟨q, t', b', a'⟩, h₂⟩ : ∃ fuel out,
      Transfer.transferOneDirection B.read A.write cx fuel s.bToA b a = some out :=
    Transfer.transferOneDirection_total hB h' b a
  refine ⟨max n m, ?_⟩
  unfold poll
  rw [Transfer.transferOneDirection_mono (le_max_left n m) h₁]
  rcases p with _ | ⟨e | x⟩
  · dsimp only
    rw [Transfer.transferOneDirection_mono (le_max_right n m) h₂]
    rcases q with _ | ⟨e | y⟩ <;> exact ⟨_, rfl⟩
  · exact ⟨_, rfl⟩
  · dsimp only
    rw [Transfer.transferOneDirection_mono (le_max_right n m) h₂]
    rcases q with _ | ⟨e | y⟩ <;> exact ⟨_, rfl⟩

theorem orderly_of_inv {t : Transfer κ} (h : t.Inv) : Orderly t.log := by
  obtain ⟨-, h⟩ := h
  cases ht : t.state with
  | running buf => rw [ht] at h; exact orderly_of_open h.opened
  | close count => rw [ht] at h; exact h.orderly
  | done count => rw [ht] at h; exact h.1

theorem inv_reach (h : (system A B).Reachable s) : s.aToB.Inv ∧ s.bToA.Inv := by
  refine h.inv (P := fun s => s.aToB.Inv ∧ s.bToA.Inv) ?_ ?_
  · rintro _ ⟨a, b, rfl⟩
    have hnew : (Transfer.new : Transfer κ).Inv := ⟨rfl, (Copy.inv_new a b).toHolds⟩
    exact ⟨hnew, hnew⟩
  · intro s c s' _ hi _ hs
    obtain ⟨⟨p, _⟩, hp, rfl⟩ := Option.map_eq_some_iff.1 hs
    exact (poll_spec hi.1 hi.2 hp).inv

/-- **`copy_bidirectional`**: after any number of polls, the next one returns if neither stream
    returns data for ever; each direction closes its target only after it has copied all it
    read and flushed that, and calls nothing after a successful close; the counts returned
    are those of two complete transfers; and the future waits or fails exactly with an
    operation it has called. -/
theorem bidirectional_correct (h : (system A B).Reachable s) (cx : κ) :
    (A.read.Finite → B.read.Finite → ∃ fuel res, poll A B cx fuel s = some res) ∧
    ∀ fuel p s', poll A B cx fuel s = some (p, s') →
      (Orderly s'.aToB.log ∧ Orderly s'.bToA.log) ∧
      (∀ x y, p = .ready (.ok (x, y)) →
        Transfer.Transferred s'.aToB.log x ∧ Transfer.Transferred s'.bToA.log y) ∧
      ∃ events events', s'.aToB.log = s.aToB.log ++ events ∧
        s'.bToA.log = s.bToA.log ++ events' ∧
        (p = .pending → ∃ e ∈ events ++ events', e.pending = true ∧ e.cx = cx) ∧
        ((∃ e, p = .ready (.error e)) ↔ ∃ e ∈ events ++ events', e.fails = true) := by
  obtain ⟨hinv, hinv'⟩ := inv_reach h
  refine ⟨fun hA hB => poll_returns hA hB hinv hinv', fun fuel p s' hp => ?_⟩
  have hpost := poll_spec hinv hinv' hp
  obtain ⟨events, events', hlog, hlog', hcx, hpending, herror⟩ := hpost.events
  refine ⟨⟨orderly_of_inv hpost.inv.1, orderly_of_inv hpost.inv.2⟩, hpost.done, events, events', hlog,
    hlog', fun hp => ?_, herror⟩
  obtain ⟨e, he, h⟩ := hpending hp
  exact ⟨e, he, h, hcx e he⟩

/-- A stream that sends one byte, then its end, takes what it is sent and closes late. -/
def echo (byte : UInt8) : Script :=
  ⟨[.ready (.ok [byte]), .ready (.ok [])], [.ready (.ok 1)], [.ready (.ok ())],
    [.pending, .ready (.ok ())]⟩

/-- Both ends answer from a script. -/
def script : Duplex ℕ Script := ⟨Script.asyncRead, Script.asyncWrite⟩

theorem bidirectional_correct_closed : ∃ s s' : CopyBidirectional ℕ Script Script,
    (system script script).run (new (echo 7) (echo 9)) [(6, 0)] = some s ∧
    poll script script 1 6 s = some (.ready (.ok (1, 1)), s') ∧
    accepted s'.aToB.log = [7] ∧ Orderly s'.aToB.log ∧ Transfer.Transferred s'.bToA.log 1 := by
  have hrun : ∃ s : CopyBidirectional ℕ Script Script,
      (system script script).run (new (echo 7) (echo 9)) [(6, 0)] = some s ∧
      (poll script script 1 6 s).any fun res =>
        decide (res.1 = .ready (.ok (1, 1)) ∧ accepted res.2.aToB.log = [7]) :=
    Lts.exists_run (by decide +kernel)
  obtain ⟨s, hs, hp⟩ := hrun
  obtain ⟨⟨p, s'⟩, hp, hres⟩ := (Option.any_eq_true _ _).1 hp
  obtain ⟨rfl, hacc⟩ := of_decide_eq_true hres
  have h := bidirectional_correct (.run (.init ⟨_, _, rfl⟩) (Lts.meets_true _ [(6, 0)]) hs) 1
  obtain ⟨hord, hdone, -⟩ := h.2 6 _ s' hp
  exact ⟨s, s', hs, hp, hacc, hord.1, (hdone 1 1 rfl).2⟩

end CopyBidirectional
end Awak
