/-
  `CopyBuffer::poll_copy` of `util/copy_buffer.rs`: a byte pump from a reader to a
  writer through a buffer.

  `fill`, `drain` and `finish` are the three parts of the body of its loop: the read
  that refills the empty buffer, the `while` that writes it out, and the final flush;
  `some p` is a `return p`.  The loop itself runs as often as the reader has data, so
  `pollCopy` has fuel, and `none` means that it has not returned yet.

  * `CopyBuffer.Holds`: the bytes in the buffer are those read and not yet written;
  * `Post`: what a part of the loop, and the whole loop, has done when it ends;
  * `pollCopy_returns`: `poll_copy` returns if the reader does not return data for ever;
  * `copy_faithful`, `copy_unstalled`: every call of `poll_copy`, also after an error,
    resumes the copy where the last one left it, and none waits with unflushed data.
-/
import Awak.Lib.Lts
import Awak.Lib.Pipe

namespace Awak

open Pipe

/-- `CopyBuffer`. -/
structure CopyBuffer where
  readDone : Bool
  pos : ℕ
  cap : ℕ
  amt : ℕ
  buf : List UInt8
  needFlush : Bool

namespace CopyBuffer

/-- `CopyBuffer::new`. -/
def new : CopyBuffer where
  readDone := false
  amt := 0
  pos := 0
  cap := 0
  buf := List.replicate (1024 * 2) 0
  needFlush := false

/-- `&self.buf[self.pos..self.cap]`. -/
def slice (c : CopyBuffer) : List UInt8 := (c.buf.take c.cap).drop c.pos

/-- What a buffer holds after the operations of a log. -/
structure Holds {κ : Type} (c : CopyBuffer) (log : List (Event κ)) : Prop where
  bytes : accepted log ++ c.slice = produced log
  pos : c.pos ≤ c.cap
  cap : c.cap ≤ c.buf.length
  amt : c.amt = (accepted log).length
  eof : c.readDone = true → ∃ e ∈ log, e.eof = true
  flush : unflushed log ≠ [] → c.needFlush = true
  opened : ∀ e ∈ log, e.isClose = false

end CopyBuffer

/-- The error of a writer that takes nothing. -/
def writeZero : IoError := ⟨.writeZero, "write zero byte into writer"⟩

/-- A copy in progress.  `panicked` is set by a slice that is out of range. -/
structure Copy (κ ρ ω : Type) where
  buf : CopyBuffer
  io : Pipe κ ρ ω
  panicked : Bool

namespace Copy

/-- A new buffer between `r` and `w`. -/
def new {κ ρ ω : Type} (r : ρ) (w : ω) : Copy κ ρ ω := ⟨.new, ⟨r, w, []⟩, false⟩

variable {κ ρ ω : Type} (R : AsyncRead κ ρ) (W : AsyncWrite κ ω) (cx : κ)

/-- If our buffer is empty, then we need to read some data to continue. -/
def fill (s : Copy κ ρ ω) : Option (Poll (Except IoError ℕ)) × Copy κ ρ ω :=
  if s.buf.pos = s.buf.cap ∧ s.buf.readDone = false then
    match s.io.read R cx s.buf.buf with
    | (.ready (.ok n), buf, io) =>
      if n = 0 then (none, { s with buf := { s.buf with buf := buf, readDone := true }, io := io })
      else (none, { s with buf := { s.buf with buf := buf, pos := 0, cap := n }, io := io })
    | (.ready (.error e), buf, io) =>
      (some (.ready (.error e)), { s with buf := { s.buf with buf := buf }, io := io })
    | (.pending, buf, io) =>
      -- try flushing when the reader has no progress
      if s.buf.needFlush then
        match io.flush W cx with
        | (.ready (.ok _), io) =>
          (some .pending, { s with buf := { s.buf with buf := buf, needFlush := false }, io := io })
        | (.ready (.error e), io) =>
          (some (.ready (.error e)), { s with buf := { s.buf with buf := buf }, io := io })
        | (.pending, io) => (some .pending, { s with buf := { s.buf with buf := buf }, io := io })
      else (some .pending, { s with buf := { s.buf with buf := buf }, io := io })
  else (none, s)

/-- If our buffer has some data, write it out.  Each round of the `while` takes at least one
    byte, so that `cap - pos` rounds are enough. -/
def drain : ℕ → Copy κ ρ ω → Option (Poll (Except IoError ℕ)) × Copy κ ρ ω
  | 0, s => (none, s)
  | rounds + 1, s =>
    if s.buf.pos < s.buf.cap then
      if s.buf.cap ≤ s.buf.buf.length then
        match s.io.write W cx s.buf.slice with
        | (.ready (.ok i), io) =>
          if i = 0 then (some (.ready (.error writeZero)), { s with io := io })
          else drain rounds { s with
            buf := { s.buf with
              pos := s.buf.pos + i
              amt := s.buf.amt + i
              needFlush := true }
            io := io }
        | (.ready (.error e), io) => (some (.ready (.error e)), { s with io := io })
        | (.pending, io) => (some .pending, { s with io := io })
      else (some .pending, { s with panicked := true })
    else (none, s)

/-- If we've written all the data and we've seen EOF, flush out the data and finish the
    transfer. -/
def finish (s : Copy κ ρ ω) : Option (Poll (Except IoError ℕ)) × Copy κ ρ ω :=
  if s.buf.pos = s.buf.cap ∧ s.buf.readDone = true then
    match s.io.flush W cx with
    | (.ready (.ok _), io) => (some (.ready (.ok s.buf.amt)), { s with io := io })
    | (.ready (.error e), io) => (some (.ready (.error e)), { s with io := io })
    | (.pending, io) => (some .pending, { s with io := io })
  else (none, s)

/-- `CopyBuffer::poll_copy`. -/
def pollCopy : ℕ → Copy κ ρ ω → Option (Poll (Except IoError ℕ) × Copy κ ρ ω)
  | 0, _ => none
  | fuel + 1, s =>
    match fill R W cx s with
    | (some p, s) => some (p, s)
    | (none, s) =>
      match drain W cx (s.buf.cap - s.buf.pos) s with
      | (some p, s) => some (p, s)
      | (none, s) =>
        match finish W cx s with
        | (some p, s) => some (p, s)
        | (none, s) => pollCopy fuel s

/-! ## What a call has done -/

/-- The invariant: the buffer holds what is read and not yet written, and no slice was out of
    range. -/
structure Inv (s : Copy κ ρ ω) : Prop extends s.buf.Holds s.io.log where
  safe : s.panicked = false

/-- How the answers received decide what is returned: `none` goes on. -/
def Told (events : List (Event κ)) : Option (Poll (Except IoError ℕ)) → Prop
  | none | some (.ready (.ok _)) => ∀ e ∈ events, e.fails = false ∧ e.pending = false
  | some .pending => (∀ e ∈ events, e.fails = false) ∧
    ((∃ before e, events = before ++ [e] ∧ e.pending = true) ∨
      ∃ e ∈ events, e.isRead = true ∧ e.pending = true)
  | some (.ready (.error _)) => ∃ e ∈ events, e.fails = true

/-- A waiting copy whose buffer is empty waits for a flush, or has nothing to flush. -/
def Unstalled (s : Copy κ ρ ω) (events : List (Event κ)) : Prop :=
  s.buf.pos = s.buf.cap →
    unflushed s.io.log = [] ∨ ∃ e ∈ events, e.isFlush = true ∧ e.pending = true

/-- What a part of `poll_copy` has done when it ends with `out`. -/
structure Post (s : Copy κ ρ ω) (out : Option (Poll (Except IoError ℕ))) (s' : Copy κ ρ ω) :
    Prop where
  inv : Inv s'
  events : ∃ events, s'.io.log = s.io.log ++ events ∧ (∀ e ∈ events, e.cx = cx) ∧
    Told events out ∧ (out = some .pending → Unstalled s' events)
  done : ∀ n, out = some (.ready (.ok n)) →
    Finished s'.io.log ∧ n = (accepted s'.io.log).length

variable {R W cx} {s s' s'' : Copy κ ρ ω} {out : Option (Poll (Except IoError ℕ))}

theorem Told.append {ev ev' : List (Event κ)} (h : Told ev none) (h' : Told ev' out) :
    Told (ev ++ ev') out := by
  match out, h' with
  | none, h' | some (.ready (.ok _)), h' =>
    intro e he
    exact (List.mem_append.1 he).elim (h e) (h' e)
  | some (.ready (.error _)), ⟨e, he, hf⟩ => exact ⟨e, List.mem_append_right _ he, hf⟩
  | some .pending, ⟨hf, hp⟩ =>
    refine ⟨fun e he => (List.mem_append.1 he).elim (fun he => (h e he).1) (hf e), ?_⟩
    rcases hp with ⟨before, e, rfl, hp⟩ | ⟨e, he, hp⟩
    · exact Or.inl ⟨ev ++ before, e, by simp, hp⟩
    · exact Or.inr ⟨e, List.mem_append_right _ he, hp⟩

theorem Post.refl (h : Inv s) : Post cx s none s where
  inv := h
  events := by
    refine ⟨[], by simp, by simp, ?_, fun ho => by cases ho⟩
    intro e he
    cases he
  done n ho := by cases ho

theorem Post.trans (h : Post cx s none s') (h' : Post cx s' out s'') : Post cx s out s'' where
  inv := h'.inv
  events := by
    obtain ⟨ev, hlog, hcx, ht, -⟩ := h.events
    obtain ⟨ev', hlog', hcx', ht', hu⟩ := h'.events
    refine ⟨ev ++ ev', by rw [hlog', hlog, List.append_assoc], ?_, ht.append ht', ?_⟩
    · intro e he
      exact (List.mem_append.1 he).elim (hcx e) (hcx' e)
    · intro ho hp
      refine (hu ho hp).imp_right ?_
      rintro ⟨e, he, hf⟩
      exact ⟨e, List.mem_append_right _ he, hf⟩
  done := h'.done

/-- A part that has called one operation. -/
theorem Post.of_event {e : Event κ} (hinv : Inv s') (hlog : s'.io.log = s.io.log ++ [e])
    (hcx : e.cx = cx) (ht : Told [e] out) (hu : out = some .pending → Unstalled s' [e])
    (hd : ∀ n, out = some (.ready (.ok n)) →
      Finished s'.io.log ∧ n = (accepted s'.io.log).length) : Post cx s out s' where
  inv := hinv
  events := ⟨[e], hlog, by simpa using hcx, ht, hu⟩
  done := hd

/-! ## The three parts -/

/-- The invariant when an operation has moved no byte: a read or a write that failed or
    waits, a flush. -/
theorem Inv.of_event (h : Inv s) {e : Event κ} (hp : e.produced = []) (ha : e.accepted = [])
    (hc : e.isClose = false) (hlog : s'.io.log = s.io.log ++ [e])
    (hslice : s'.buf.slice = s.buf.slice) (hpos : s'.buf.pos ≤ s'.buf.cap)
    (hcap : s'.buf.cap ≤ s'.buf.buf.length) (hamt : s'.buf.amt = s.buf.amt)
    (heof : s'.buf.readDone = true → s.buf.readDone = true ∨ e.eof = true)
    (hflush : s.buf.needFlush = true → s'.buf.needFlush = true ∨ e.flushed = true)
    (hsafe : s'.panicked = s.panicked) : Inv s' where
  bytes := by simpa [hlog, hslice, hp, ha] using h.bytes
  pos := hpos
  cap := hcap
  amt := by rw [hamt, h.amt, hlog]; simp [ha]
  eof hr := by
    rcases heof hr with hr | he
    · obtain ⟨e', he', hf⟩ := h.eof hr
      exact ⟨e', by rw [hlog]; exact List.mem_append_left _ he', hf⟩
    · exact ⟨e, by rw [hlog]; simp, he⟩
  flush hu := by
    rw [hlog, unflushed_snoc] at hu
    split_ifs at hu with hf
    · exact absurd rfl hu
    · exact (hflush (h.flush (by simpa [ha] using hu))).resolve_right hf
  opened e' he' := by
    rw [hlog] at he'
    rcases List.mem_append.1 he' with he' | he'
    · exact h.opened e' he'
    · rw [List.mem_singleton.1 he']; exact hc
  safe := hsafe.trans h.safe

theorem slice_eq_nil {c : CopyBuffer} (h : c.pos = c.cap) : c.slice = [] := by
  unfold CopyBuffer.slice
  refine List.drop_of_length_le ?_
  rw [List.length_take, h]
  exact min_le_left _ _

/-- A read that returned no data, into the empty buffer. -/
theorem Inv.read_nothing (h : Inv s) (hc : s.buf.pos = s.buf.cap) {buf : List UInt8}
    {io : Pipe κ ρ ω} {e : Event κ} {readDone : Bool} (hlen : buf.length = s.buf.buf.length)
    (hlog : io.log = s.io.log ++ [e]) (hr : e.isRead = true) (hp : e.produced = [])
    (heof : readDone = true → s.buf.readDone = true ∨ e.eof = true) :
    Inv { s with buf := { s.buf with buf := buf, readDone := readDone }, io := io } := by
  have he : e.accepted = [] ∧ e.isClose = false := by
    cases e with
    | read cx answer => exact ⟨rfl, rfl⟩
    | _ => cases hr
  refine h.of_event hp he.1 he.2 hlog ?_ h.pos ?_ rfl heof Or.inl rfl
  · rw [slice_eq_nil hc]; exact slice_eq_nil hc
  · show s.buf.cap ≤ buf.length
    rw [hlen]; exact h.cap

/-- A read that returned data, into the empty buffer. -/
theorem Inv.read_data (h : Inv s) (hc : s.buf.pos = s.buf.cap) {buf : List UInt8}
    {io : Pipe κ ρ ω} {n : ℕ} (hlen : n ≤ buf.length)
    (hlog : io.log = s.io.log ++ [.read cx (.ready (.ok (buf.take n)))]) :
    Inv { s with buf := { s.buf with buf := buf, pos := 0, cap := n }, io := io } where
  bytes := by
    have := h.bytes
    rw [slice_eq_nil hc, List.append_nil] at this
    simp [hlog, CopyBuffer.slice, Event.produced, Event.accepted, this]
  pos := Nat.zero_le n
  cap := hlen
  amt := by simp [hlog, Event.accepted, h.amt]
  eof hr := by
    obtain ⟨e, he, hf⟩ := h.eof hr
    exact ⟨e, by rw [hlog]; exact List.mem_append_left _ he, hf⟩
  flush hu := by
    simp only [hlog, unflushed_snoc, Event.flushed, Event.accepted, List.append_nil] at hu
    exact h.flush hu
  opened e he := by
    rw [hlog] at he
    rcases List.mem_append.1 he with he | he
    · exact h.opened e he
    · rw [List.mem_singleton.1 he]; rfl
  safe := h.safe

/-- A flush. -/
theorem Inv.flush_event (h : Inv s) {io : Pipe κ ρ ω} {answer : Poll (Except IoError Unit)}
    {needFlush : Bool} (hlog : io.log = s.io.log ++ [.flush cx answer])
    (hn : s.buf.needFlush = true → needFlush = true ∨ (Event.flush cx answer).flushed = true) :
    Inv { s with buf := { s.buf with needFlush := needFlush }, io := io } :=
  h.of_event (by cases answer <;> rfl) rfl rfl hlog rfl h.pos h.cap rfl Or.inl hn rfl

/-- The reader has no progress: a pending flush is tried. -/
theorem fill_pending (h : Inv s) (hc : s.buf.pos = s.buf.cap) {buf : List UInt8}
    {io : Pipe κ ρ ω} (hr : s.io.read R cx s.buf.buf = (.pending, buf, io))
    (hd : s.buf.readDone = false) : Post cx s (fill R W cx s).1 (fill R W cx s).2 := by
  obtain ⟨hlen, hlog⟩ := read_pending hr
  have hinv : Inv { s with buf := { s.buf with buf := buf }, io := io } :=
    h.read_nothing hc hlen hlog rfl rfl Or.inl
  simp only [fill, if_pos (And.intro hc hd), hr]
  split_ifs with hn
  · rcases hf : io.flush W cx with ⟨_ | ⟨e | u⟩, io'⟩
    · -- the flush is pending
      obtain ⟨hlog', -⟩ := flush_log hf
      refine ⟨hinv.flush_event hlog' Or.inl, ?_, fun n ho => by cases ho⟩
      refine ⟨[.read cx .pending, .flush cx .pending], by simp [hlog', hlog], by simp [Event.cx],
        ⟨by simp [Event.fails], Or.inr ⟨_, List.mem_cons_self, rfl, rfl⟩⟩, fun _ _ => Or.inr ?_⟩
      exact ⟨.flush cx .pending, by simp, rfl, rfl⟩
    · obtain ⟨hlog', -⟩ := flush_log hf
      refine ⟨hinv.flush_event hlog' Or.inl, ?_, fun n ho => by cases ho⟩
      refine ⟨[.read cx .pending, .flush cx (.ready (.error e))], by simp [hlog', hlog],
        by simp [Event.cx], ⟨.flush cx (.ready (.error e)), by simp, rfl⟩, fun ho => by cases ho⟩
    · obtain ⟨hlog', -⟩ := flush_log hf
      refine ⟨hinv.flush_event hlog' fun _ => Or.inr rfl, ?_, fun n ho => by cases ho⟩
      refine ⟨[.read cx .pending, .flush cx (.ready (.ok u))], by simp [hlog', hlog],
        by simp [Event.cx], ⟨by simp [Event.fails], Or.inr ⟨_, List.mem_cons_self, rfl, rfl⟩⟩,
        fun _ _ => Or.inl ?_⟩
      show unflushed io'.log = []
      rw [hlog', unflushed_snoc]; rfl
  · refine Post.of_event hinv hlog rfl ⟨by simp [Event.fails], Or.inl ⟨[], _, rfl, rfl⟩⟩ ?_
      fun n ho => by cases ho
    intro _ _
    left
    by_contra hu
    exact hn (hinv.flush hu)

theorem fill_spec (h : Inv s) : Post cx s (fill R W cx s).1 (fill R W cx s).2 := by
  by_cases hc : s.buf.pos = s.buf.cap ∧ s.buf.readDone = false
  swap
  · simp only [fill, if_neg hc]
    exact Post.refl h
  obtain ⟨hc, hd⟩ := hc
  rcases hr : s.io.read R cx s.buf.buf with ⟨_ | ⟨e | n⟩, buf, io⟩
  · exact fill_pending h hc hr hd
  · obtain ⟨hlen, hlog⟩ := read_error hr
    simp only [fill, if_pos (And.intro hc hd), hr]
    exact Post.of_event (h.read_nothing hc hlen hlog rfl rfl Or.inl) hlog rfl
      ⟨_, List.mem_singleton_self _, rfl⟩ (fun ho => by cases ho) fun n ho => by cases ho
  · obtain ⟨hlen, hle, hlog, -, -⟩ := read_ok hr
    simp only [fill, if_pos (And.intro hc hd), hr]
    split_ifs with hn
    · -- the end of the file
      subst hn
      rw [List.take_zero] at hlog
      exact Post.of_event (h.read_nothing hc hlen hlog rfl rfl fun _ => Or.inr rfl) hlog rfl
        (by simp [Told, Event.fails, Event.pending]) (fun ho => by cases ho) fun n ho => by cases ho
    · exact Post.of_event (h.read_data hc (hlen ▸ hle) hlog) hlog rfl
        (by simp [Told, Event.fails, Event.pending]) (fun ho => by cases ho) fun n ho => by cases ho

/-- A write that took some bytes. -/
theorem Inv.write_data (h : Inv s) {io : Pipe κ ρ ω} {i : ℕ} (hle : i ≤ s.buf.slice.length)
    (hlog : io.log = s.io.log ++ [.write cx s.buf.slice (.ready (.ok i))]) :
    Inv { s with
      buf := { s.buf with pos := s.buf.pos + i, amt := s.buf.amt + i, needFlush := true }
      io := io } where
  bytes := by
    have hslice : (s.buf.buf.take s.buf.cap).drop (s.buf.pos + i) = s.buf.slice.drop i := by
      rw [CopyBuffer.slice, List.drop_drop]
    show accepted io.log ++ (s.buf.buf.take s.buf.cap).drop (s.buf.pos + i) = produced io.log
    rw [hlog, accepted_append, accepted_singleton, produced_append, produced_singleton, hslice,
      List.append_assoc]
    show accepted s.io.log ++ (s.buf.slice.take i ++ s.buf.slice.drop i) = produced s.io.log ++ []
    rw [List.take_append_drop, List.append_nil]
    exact h.bytes
  pos := by
    have : s.buf.slice.length ≤ s.buf.cap - s.buf.pos := by
      rw [CopyBuffer.slice, List.length_drop, List.length_take]; omega
    have := h.pos
    show s.buf.pos + i ≤ s.buf.cap
    omega
  cap := h.cap
  amt := by
    simp only [hlog, accepted_append, accepted_singleton, Event.accepted, List.length_append,
      List.length_take, h.amt]
    omega
  eof hr := by
    obtain ⟨e, he, hf⟩ := h.eof hr
    exact ⟨e, by rw [hlog]; exact List.mem_append_left _ he, hf⟩
  flush _ := rfl
  opened e he := by
    rw [hlog] at he
    rcases List.mem_append.1 he with he | he
    · exact h.opened e he
    · rw [List.mem_singleton.1 he]; rfl
  safe := h.safe

/-- A write that took nothing. -/
theorem Inv.write_nothing (h : Inv s) {io : Pipe κ ρ ω} {e : Event κ}
    (hlog : io.log = s.io.log ++ [e]) (hp : e.produced = []) (ha : e.accepted = [])
    (hc : e.isClose = false) : Inv { s with io := io } :=
  h.of_event hp ha hc hlog rfl h.pos h.cap rfl Or.inl Or.inl rfl

theorem drain_spec : ∀ (rounds : ℕ) {s : Copy κ ρ ω}, Inv s →
    Post cx s (drain W cx rounds s).1 (drain W cx rounds s).2
  | 0, _, h => Post.refl h
  | rounds + 1, s, h => by
    unfold drain
    split_ifs with hlt hcap
    · rcases hw : s.io.write W cx s.buf.slice with ⟨_ | ⟨e | i⟩, io⟩
      · obtain ⟨hlog, -, -⟩ := write_log hw
        refine Post.of_event (h.write_nothing hlog rfl rfl rfl) hlog rfl
          ⟨by simp [Event.fails], Or.inl ⟨[], _, rfl, rfl⟩⟩ (fun _ hc => ?_) fun n ho => by cases ho
        exact absurd hc hlt.ne
      · obtain ⟨hlog, -, -⟩ := write_log hw
        exact Post.of_event (h.write_nothing hlog rfl rfl rfl) hlog rfl
          ⟨_, List.mem_singleton_self _, rfl⟩ (fun ho => by cases ho) fun n ho => by cases ho
      · obtain ⟨hlog, -, hle⟩ := write_log hw
        dsimp only
        split_ifs with hi
        · subst hi
          exact Post.of_event (h.write_nothing hlog rfl rfl rfl) hlog rfl
            ⟨_, List.mem_singleton_self _, rfl⟩ (fun ho => by cases ho) fun n ho => by cases ho
        · have hinv := h.write_data (hle i rfl) hlog
          refine (Post.of_event hinv hlog rfl ?_ (fun ho => by cases ho)
            fun n ho => by cases ho).trans (drain_spec rounds hinv)
          obtain ⟨i, rfl⟩ := Nat.exists_eq_succ_of_ne_zero hi
          simp [Told, Event.fails, Event.pending]
    · exact absurd h.cap hcap
    · exact Post.refl h

/-- When the `while` ends, the buffer is empty; the reader is untouched. -/
theorem drain_next : ∀ {rounds : ℕ} {s s' : Copy κ ρ ω}, s.buf.cap - s.buf.pos ≤ rounds →
    drain W cx rounds s = (none, s') →
    s'.buf.cap ≤ s'.buf.pos ∧ s'.io.r = s.io.r ∧ s'.buf.readDone = s.buf.readDone
  | 0, s, s', hle, hd => by
    cases hd
    exact ⟨by omega, rfl, rfl⟩
  | rounds + 1, s, s', hle, hd => by
    unfold drain at hd
    split_ifs at hd with hlt hcap
    · rcases hw : s.io.write W cx s.buf.slice with ⟨_ | ⟨e | i⟩, io⟩ <;> rw [hw] at hd
      · cases hd
      · cases hd
      · dsimp only at hd
        split_ifs at hd with hi
        · cases hd
        · obtain ⟨-, hr, -⟩ := write_log hw
          obtain ⟨h1, h2, h3⟩ := drain_next (by dsimp only; omega) hd
          exact ⟨h1, h2.trans hr, h3⟩
    · cases hd
    · cases hd
      exact ⟨by omega, rfl, rfl⟩

theorem finish_spec (h : Inv s) : Post cx s (finish W cx s).1 (finish W cx s).2 := by
  unfold finish
  split_ifs with hc
  · rcases hf : s.io.flush W cx with ⟨_ | ⟨e | u⟩, io⟩ <;> obtain ⟨hlog, -⟩ := flush_log hf
    · have hinv : Inv { s with io := io } := h.flush_event hlog Or.inl
      exact Post.of_event hinv hlog rfl ⟨by simp [Event.fails], Or.inl ⟨[], _, rfl, rfl⟩⟩
        (fun _ _ => Or.inr ⟨_, List.mem_singleton_self _, rfl, rfl⟩) fun n ho => by cases ho
    · have hinv : Inv { s with io := io } := h.flush_event hlog Or.inl
      exact Post.of_event hinv hlog rfl ⟨_, List.mem_singleton_self _, rfl⟩ (fun ho => by cases ho)
        fun n ho => by cases ho
    · have hinv : Inv { s with io := io } := h.flush_event hlog Or.inl
      refine Post.of_event hinv hlog rfl (by simp [Told, Event.fails, Event.pending])
        (fun ho => by cases ho) fun n ho => ?_
      cases ho
      refine ⟨⟨hinv.eof hc.2, ?_, s.io.log, .flush cx (.ready (.ok u)), [], hlog, rfl, rfl⟩,
        hinv.amt⟩
      have := hinv.bytes
      rwa [slice_eq_nil hc.1, List.append_nil] at this
  · exact Post.refl h

theorem pollCopy_spec : ∀ {fuel : ℕ} {s s' : Copy κ ρ ω} {p : Poll (Except IoError ℕ)},
    Inv s → pollCopy R W cx fuel s = some (p, s') → Post cx s (some p) s'
  | 0, _, _, _, _, hp => by cases hp
  | fuel + 1, s, s', p, h, hp => by
    have hfill : Post cx s (fill R W cx s).1 (fill R W cx s).2 := fill_spec h
    unfold pollCopy at hp
    rcases hf : fill R W cx s with ⟨_ | q, s₁⟩ <;> rw [hf] at hp hfill
    swap
    · cases hp; exact hfill
    have hdrain : Post cx s₁ (drain W cx (s₁.buf.cap - s₁.buf.pos) s₁).1
        (drain W cx (s₁.buf.cap - s₁.buf.pos) s₁).2 := drain_spec _ hfill.inv
    dsimp only at hp hdrain
    rcases hd : drain W cx (s₁.buf.cap - s₁.buf.pos) s₁ with ⟨_ | q, s₂⟩ <;> rw [hd] at hp hdrain
    swap
    · cases hp; exact hfill.trans hdrain
    have hfinish : Post cx s₂ (finish W cx s₂).1 (finish W cx s₂).2 := finish_spec hdrain.inv
    dsimp only at hp hfinish
    rcases he : finish W cx s₂ with ⟨_ | q, s₃⟩ <;> rw [he] at hp hfinish
    swap
    · cases hp; exact (hfill.trans hdrain).trans hfinish
    exact ((hfill.trans hdrain).trans hfinish).trans (pollCopy_spec hfinish.inv hp)

/-! ## Every call returns -/

/-- A refill that goes on has seen the end of the file, has read some data, or was not needed. -/
theorem fill_next {left : ρ → ℕ}
    (hleft : ∀ cx r buf n, (R.pollRead cx r buf).1 = .ready (.ok n) → n ≠ 0 →
      left (R.pollRead cx r buf).2.2 < left r) (hf : fill R W cx s = (none, s')) :
    s'.buf.readDone = true ∨ left s'.io.r < left s.io.r ∨ (s' = s ∧ s.buf.pos ≠ s.buf.cap) := by
  unfold fill at hf
  by_cases hc : s.buf.pos = s.buf.cap ∧ s.buf.readDone = false
  · rw [if_pos hc] at hf
    rcases hr : s.io.read R cx s.buf.buf with ⟨_ | ⟨e | n⟩, buf, io⟩ <;> rw [hr] at hf <;>
      dsimp only at hf
    · split_ifs at hf
      · split at hf <;> cases hf
      · cases hf
    · cases hf
    · obtain ⟨-, -, -, hn, hio⟩ := read_ok hr
      split_ifs at hf with h0
      · cases hf; exact Or.inl rfl
      · cases hf
        refine Or.inr (Or.inl ?_)
        show left io.r < left s.io.r
        rw [hio]
        exact hleft cx s.io.r s.buf.buf n hn h0
  · rw [if_neg hc] at hf
    cases hf
    by_cases hp : s.buf.pos = s.buf.cap
    · exact Or.inl (by simpa using fun h => hc ⟨hp, h⟩)
    · exact Or.inr (Or.inr ⟨rfl, hp⟩)

theorem finish_next (hf : finish W cx s = (none, s')) :
    s' = s ∧ ¬ (s.buf.pos = s.buf.cap ∧ s.buf.readDone = true) := by
  unfold finish at hf
  split_ifs at hf with hc
  · split at hf <;> cases hf
  · cases hf; exact ⟨rfl, hc⟩

/-- After a round of the loop that did not return, the buffer is empty, and it had some data
    before or the reader has less to return. -/
theorem pollCopy_total {left : ρ → ℕ}
    (hleft : ∀ cx r buf n, (R.pollRead cx r buf).1 = .ready (.ok n) → n ≠ 0 →
      left (R.pollRead cx r buf).2.2 < left r) : ∀ (fuel : ℕ) {s : Copy κ ρ ω}, Inv s →
    left s.io.r + (if s.buf.pos = s.buf.cap then 0 else 1) < fuel →
      ∃ out, pollCopy R W cx fuel s = some out
  | 0, _, _, hlt => absurd hlt (Nat.not_lt_zero _)
  | fuel + 1, s, h, hlt => by
    have hfill : Post cx s (fill R W cx s).1 (fill R W cx s).2 := fill_spec h
    unfold pollCopy
    rcases hf : fill R W cx s with ⟨_ | q, s₁⟩ <;> dsimp only
    swap
    · exact ⟨_, rfl⟩
    rw [hf] at hfill
    have hdrain : Post cx s₁ (drain W cx (s₁.buf.cap - s₁.buf.pos) s₁).1
        (drain W cx (s₁.buf.cap - s₁.buf.pos) s₁).2 := drain_spec _ hfill.inv
    rcases hd : drain W cx (s₁.buf.cap - s₁.buf.pos) s₁ with ⟨_ | q, s₂⟩ <;> dsimp only
    swap
    · exact ⟨_, rfl⟩
    rw [hd] at hdrain
    obtain ⟨hcap, hr, hdone⟩ := drain_next (le_refl _) hd
    have hempty : s₂.buf.pos = s₂.buf.cap := le_antisymm hdrain.inv.pos hcap
    rcases he : finish W cx s₂ with ⟨_ | q, s₃⟩ <;> dsimp only
    swap
    · exact ⟨_, rfl⟩
    obtain ⟨rfl, hnot⟩ := finish_next he
    refine pollCopy_total hleft fuel hdrain.inv ?_
    rw [if_pos hempty, hr]
    rcases fill_next hleft hf with hd' | hl | ⟨rfl, hp⟩
    · exact absurd ⟨hempty, hdone.trans hd'⟩ hnot
    · split_ifs at hlt <;> omega
    · rw [if_neg hp] at hlt
      omega

theorem pollCopy_returns (hR : R.Finite) (h : Inv s) :
    ∃ fuel res, pollCopy R W cx fuel s = some res := by
  obtain ⟨left, hleft⟩ := hR
  exact ⟨_, pollCopy_total hleft _ h (Nat.lt_succ_self _)⟩

/-- More fuel does not change what is returned. -/
theorem pollCopy_mono : ∀ {fuel fuel' : ℕ} {s : Copy κ ρ ω}
    {res : Poll (Except IoError ℕ) × Copy κ ρ ω}, fuel ≤ fuel' →
    pollCopy R W cx fuel s = some res → pollCopy R W cx fuel' s = some res
  | 0, _, _, _, _, hp => by cases hp
  | fuel + 1, 0, _, _, hle, _ => absurd hle (Nat.not_succ_le_zero fuel)
  | fuel + 1, fuel' + 1, s, res, hle, hp => by
    unfold pollCopy at hp ⊢
    rcases hf : fill R W cx s with ⟨_ | q, s₁⟩ <;> rw [hf] at hp
    swap
    · exact hp
    dsimp only at hp ⊢
    rcases hd : drain W cx (s₁.buf.cap - s₁.buf.pos) s₁ with ⟨_ | q, s₂⟩ <;> rw [hd] at hp
    swap
    · exact hp
    dsimp only at hp ⊢
    rcases he : finish W cx s₂ with ⟨_ | q, s₃⟩ <;> rw [he] at hp
    swap
    · exact hp
    exact pollCopy_mono (Nat.le_of_succ_le_succ hle) hp

/-! ## Any number of calls -/

/-- The calls of `poll_copy` on one reader and one writer. -/
def system (R : AsyncRead κ ρ) (W : AsyncWrite κ ω) : Lts (Copy κ ρ ω) (ℕ × κ) where
  init s := ∃ r w, s = new r w
  step s a := (pollCopy R W a.2 a.1 s).map Prod.snd

theorem inv_new (r : ρ) (w : ω) : Inv (new r w : Copy κ ρ ω) where
  bytes := by
    rw [slice_eq_nil rfl]
    rfl
  pos := le_refl 0
  cap := Nat.zero_le _
  amt := rfl
  eof h := by cases h
  flush h := absurd rfl h
  opened e he := by cases he
  safe := rfl

theorem inv_reach (h : (system R W).Reachable s) : Inv s := by
  refine h.inv (P := Inv) ?_ ?_
  · rintro _ ⟨r, w, rfl⟩
    exact inv_new r w
  · intro s a s' _ hi _ hs
    obtain ⟨⟨p, _⟩, hp, rfl⟩ := Option.map_eq_some_iff.1 hs
    exact (pollCopy_spec hi hp).inv

/-- **`poll_copy` is a resumable byte pump**: after any number of calls, each call returns if
    the reader does not return data for ever, and when it returns no byte was lost,
    repeated or reordered. -/
theorem copy_faithful (h : (system R W).Reachable s) (cx : κ) :
    (R.Finite → ∃ fuel out, pollCopy R W cx fuel s = some out) ∧
    ∀ fuel p s', pollCopy R W cx fuel s = some (p, s') →
      accepted s'.io.log ++ s'.buf.slice = produced s'.io.log ∧
      (s'.buf.pos ≤ s'.buf.cap ∧ s'.buf.cap ≤ s'.buf.buf.length ∧ s'.panicked = false) ∧
      s'.buf.amt = (accepted s'.io.log).length ∧
      ∀ n, p = .ready (.ok n) → Finished s'.io.log ∧ n = (produced s'.io.log).length := by
  have hinv := inv_reach h
  refine ⟨fun hR => pollCopy_returns hR hinv, fun fuel p s' hp => ?_⟩
  have hpost := pollCopy_spec hinv hp
  refine ⟨hpost.inv.bytes, ⟨hpost.inv.pos, hpost.inv.cap, hpost.inv.safe⟩, hpost.inv.amt, ?_⟩
  rintro n rfl
  obtain ⟨hfin, hn⟩ := hpost.done n rfl
  exact ⟨hfin, hn.trans (congrArg List.length hfin.bytes)⟩

/-- Three bytes, then no progress, then the end. -/
def threeBytes : Script := ⟨[.ready (.ok [1, 2, 3]), .pending, .ready (.ok [])], [], [], []⟩

/-- Two bytes are taken, the next write fails, then it goes on. -/
def failsOnce : Script :=
  ⟨[], [.ready (.ok 2), .ready (.error ⟨.other 104, "reset"⟩), .ready (.ok 5)],
    [.ready (.ok ()), .ready (.ok ())], []⟩

theorem copy_faithful_resumed : ∃ s s' : Copy ℕ Script Script,
    (system Script.asyncRead Script.asyncWrite).run (new threeBytes failsOnce)
      [(5, 0), (5, 1)] = some s ∧
    pollCopy Script.asyncRead Script.asyncWrite 2 5 s = some (.ready (.ok 3), s') ∧
    accepted s'.io.log = [1, 2, 3] ∧ Finished s'.io.log := by
  have hrun : ∃ s : Copy ℕ Script Script,
      (system Script.asyncRead Script.asyncWrite).run (new threeBytes failsOnce)
        [(5, 0), (5, 1)] = some s ∧
      (pollCopy Script.asyncRead Script.asyncWrite 2 5 s).any fun out =>
        decide (out.1 = .ready (.ok 3) ∧ accepted out.2.io.log = [1, 2, 3]) :=
    Lts.exists_run (by decide +kernel)
  obtain ⟨s, hs, hp⟩ := hrun
  obtain ⟨⟨p, s'⟩, hp, hout⟩ := (Option.any_eq_true _ _).1 hp
  obtain ⟨rfl, hacc⟩ := of_decide_eq_true hout
  have h := copy_faithful (.run (.init ⟨_, _, rfl⟩) (Lts.meets_true _ [(5, 0), (5, 1)]) hs) 2
  exact ⟨s, s', hs, hp, hacc, ((h.2 5 _ s' hp).2.2.2 3 rfl).1⟩

/-- **`poll_copy` never stalls**: it waits only for an operation that was given its context,
    and with an empty buffer only if all it has written is flushed or being flushed. -/
theorem copy_unstalled (h : (system R W).Reachable s) {fuel : ℕ} {p : Poll (Except IoError ℕ)}
    (hp : pollCopy R W cx fuel s = some (p, s')) :
    (unflushed s'.io.log ≠ [] → s'.buf.needFlush = true) ∧
    (p = .pending → ∃ events, s'.io.log = s.io.log ++ events ∧ (∀ e ∈ events, e.cx = cx) ∧
      ((∃ before e, events = before ++ [e] ∧ e.pending = true) ∨
        ∃ e ∈ events, e.isRead = true ∧ e.pending = true) ∧
      (s'.buf.pos = s'.buf.cap →
        unflushed s'.io.log = [] ∨ ∃ e ∈ events, e.isFlush = true ∧ e.pending = true)) := by
  have hpost := pollCopy_spec (inv_reach h) hp
  refine ⟨hpost.inv.flush, ?_⟩
  rintro rfl
  obtain ⟨events, hlog, hcx, ht, hu⟩ := hpost.events
  exact ⟨events, hlog, hcx, ht.2, hu rfl⟩

/-- The second call flushes what the first two have written before it waits for the reader. -/
theorem copy_unstalled_flushed : ∃ s s' : Copy ℕ Script Script,
    (system Script.asyncRead Script.asyncWrite).run (new threeBytes failsOnce) [(5, 0)] = some s ∧
    unflushed s.io.log = [1, 2] ∧
    pollCopy Script.asyncRead Script.asyncWrite 1 5 s = some (.pending, s') ∧
    ∃ events, s'.io.log = s.io.log ++ events ∧ (∀ e ∈ events, e.cx = 1) ∧
      (unflushed s'.io.log = [] ∨ ∃ e ∈ events, e.isFlush = true ∧ e.pending = true) := by
  have hrun : ∃ s : Copy ℕ Script Script,
      (system Script.asyncRead Script.asyncWrite).run (new threeBytes failsOnce)
        [(5, 0)] = some s ∧ unflushed s.io.log = [1, 2] ∧
      (pollCopy Script.asyncRead Script.asyncWrite 1 5 s).any fun out =>
        decide (out.1 = .pending ∧ out.2.buf.pos = out.2.buf.cap) :=
    Lts.exists_run (by decide +kernel)
  obtain ⟨s, hs, hu, hp⟩ := hrun
  obtain ⟨⟨p, s'⟩, hp, hout⟩ := (Option.any_eq_true _ _).1 hp
  obtain ⟨rfl, hempty⟩ := of_decide_eq_true hout
  have h := copy_unstalled (.run (.init ⟨_, _, rfl⟩) (Lts.meets_true _ [(5, 0)]) hs) hp
  obtain ⟨events, hlog, hcx, -, hflush⟩ := h.2 rfl
  exact ⟨s, s', hs, hu, hp, events, hlog, hcx, hflush hempty⟩

end Copy
end Awak
