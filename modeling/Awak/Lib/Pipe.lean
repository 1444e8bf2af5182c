/-
  Polled byte streams, and the record of what was asked of them.

  `AsyncRead` and `AsyncWrite` are the operations of a stream as functions of its
  state, with the contracts on their counts as fields; a context `κ` is handed to
  every operation.  A `Pipe` is a reader, a writer and the log of all operations
  called on them with their answers.

  * `produced`, `accepted`, `unflushed`: the bytes the reader has returned, the
    bytes the writer has taken, and those of them it took since its last successful
    flush;
  * `Finished`: the reader is at its end, the writer has taken everything and was
    flushed since;
  * `Orderly`: a log that closes the writer only when finished, and does nothing
    after that succeeded;
  * `AsyncRead.Finite`: a reader that does not return data for ever;
  * `Script`: a stream that plays back four lists of answers, `Pending` at their ends.
-/
import Awak.Lib.History

/-- The answer of an operation that may have to wait. -/
inductive Poll (α : Type) where
  | pending
  | ready (a : α)
  deriving DecidableEq

/-- `io::ErrorKind`; only the kinds that are made are told apart. -/
inductive ErrorKind where
  | writeZero
  | other (code : ℕ)
  deriving DecidableEq

/-- `io::Error`. -/
structure IoError where
  kind : ErrorKind
  message : String
  deriving DecidableEq

/-- A reader with states `ρ`: it may write to the whole buffer, and returns a count. -/
structure AsyncRead (κ ρ : Type) where
  pollRead : κ → ρ → List UInt8 → Poll (Except IoError ℕ) × List UInt8 × ρ
  length_buf : ∀ cx r buf, (pollRead cx r buf).2.1.length = buf.length
  count_le : ∀ cx r buf n, (pollRead cx r buf).1 = .ready (.ok n) → n ≤ buf.length

/-- In any state, only finitely many reads in a row return data. -/
def AsyncRead.Finite {κ ρ : Type} (R : AsyncRead κ ρ) : Prop :=
  ∃ left : ρ → ℕ, ∀ cx r buf n, (R.pollRead cx r buf).1 = .ready (.ok n) → n ≠ 0 →
    left (R.pollRead cx r buf).2.2 < left r

/-- A writer with states `ω`. -/
structure AsyncWrite (κ ω : Type) where
  pollWrite : κ → ω → List UInt8 → Poll (Except IoError ℕ) × ω
  pollFlush : κ → ω → Poll (Except IoError Unit) × ω
  pollClose : κ → ω → Poll (Except IoError Unit) × ω
  count_le : ∀ cx w buf n, (pollWrite cx w buf).1 = .ready (.ok n) → n ≤ buf.length

namespace Pipe

variable {κ ρ ω : Type}

/-- A call of an operation and its answer; a read is recorded with its bytes. -/
inductive Event (κ : Type) where
  | read (cx : κ) (answer : Poll (Except IoError (List UInt8)))
  | write (cx : κ) (buf : List UInt8) (answer : Poll (Except IoError ℕ))
  | flush (cx : κ) (answer : Poll (Except IoError Unit))
  | close (cx : κ) (answer : Poll (Except IoError Unit))

namespace Event

/-- The waker that is polled with. -/
def cx : Event κ → κ
  | read cx _ | write cx _ _ | flush cx _ | close cx _ => cx

/-- The bytes that a reader has given. -/
def produced : Event κ → List UInt8
  | read _ (.ready (.ok bytes)) => bytes
  | _ => []

/-- The bytes that a writer has taken. -/
def accepted : Event κ → List UInt8
  | write _ buf (.ready (.ok n)) => buf.take n
  | _ => []

/-- The reader reported its end. -/
def eof : Event κ → Bool
  | read _ (.ready (.ok [])) => true
  | _ => false

/-- The poll has returned `Pending`. -/
def pending : Event κ → Bool
  | read _ .pending | write _ _ .pending | flush _ .pending | close _ .pending => true
  | _ => false

/-- The operation returned an error, or it is a write of nothing. -/
def fails : Event κ → Bool
  | read _ (.ready (.error _)) | write _ _ (.ready (.error _)) | flush _ (.ready (.error _))
  | close _ (.ready (.error _)) | write _ _ (.ready (.ok 0)) => true
  | _ => false

/-- A poll of the reader. -/
def isRead : Event κ → Bool
  | read _ _ => true
  | _ => false

/-- A poll of `poll_flush`. -/
def isFlush : Event κ → Bool
  | flush _ _ => true
  | _ => false

/-- A poll of `poll_close`. -/
def isClose : Event κ → Bool
  | close _ _ => true
  | _ => false

/-- A flush that succeeded. -/
def flushed : Event κ → Bool
  | flush _ (.ready (.ok _)) => true
  | _ => false

/-- A close that succeeded. -/
def closed : Event κ → Bool
  | close _ (.ready (.ok _)) => true
  | _ => false

theorem closed_isClose {e : Event κ} (h : e.closed = true) : e.isClose = true := by
  cases e with
  | close cx answer => rfl
  | _ => cases h

theorem isClose_accepted {e : Event κ} (h : e.isClose = true) : e.accepted = [] := by
  cases e with
  | close cx answer => rfl
  | _ => cases h

theorem isClose_produced {e : Event κ} (h : e.isClose = true) : e.produced = [] := by
  cases e with
  | close cx answer => rfl
  | _ => cases h

end Event

/-! ## Logs -/

/-- All bytes that the reader has given. -/
def produced (log : List (Event κ)) : List UInt8 := log.flatMap Event.produced

/-- All bytes that the writer has taken. -/
def accepted (log : List (Event κ)) : List UInt8 := log.flatMap Event.accepted

/-- The bytes accepted since the last successful flush. -/
def unflushed (log : List (Event κ)) : List UInt8 :=
  log.foldl (fun bytes e => if e.flushed then [] else bytes ++ e.accepted) []

@[simp]
theorem produced_append (log log' : List (Event κ)) :
    produced (log ++ log') = produced log ++ produced log' := List.flatMap_append

@[simp]
theorem accepted_append (log log' : List (Event κ)) :
    accepted (log ++ log') = accepted log ++ accepted log' := List.flatMap_append

@[simp]
theorem produced_singleton (e : Event κ) : produced [e] = e.produced := List.flatMap_singleton ..

@[simp]
theorem accepted_singleton (e : Event κ) : accepted [e] = e.accepted := List.flatMap_singleton ..

@[simp]
theorem unflushed_snoc (log : List (Event κ)) (e : Event κ) :
    unflushed (log ++ [e]) = if e.flushed then [] else unflushed log ++ e.accepted := by
  simp [unflushed]

/-- The reader is at its end, the writer has taken all its bytes and was flushed since it
    took the last one. -/
structure Finished (log : List (Event κ)) : Prop where
  eof : ∃ e ∈ log, e.eof = true
  bytes : accepted log = produced log
  flush : ∃ pre e post, log = pre ++ e :: post ∧ e.flushed = true ∧ accepted post = []

theorem Finished.snoc_close {log : List (Event κ)} (h : Finished log) {e : Event κ}
    (he : e.isClose = true) : Finished (log ++ [e]) where
  eof := by
    obtain ⟨e', he', h'⟩ := h.eof
    exact ⟨e', List.mem_append_left _ he', h'⟩
  bytes := by
    simp [h.bytes, Event.isClose_accepted he, Event.isClose_produced he]
  flush := by
    obtain ⟨pre, e', post, rfl, hf, hpost⟩ := h.flush
    refine ⟨pre, e', post ++ [e], by simp, hf, ?_⟩
    simp [hpost, Event.isClose_accepted he]

/-- The writer is closed only when all is finished, and nothing follows a successful
    close. -/
structure Orderly (log : List (Event κ)) : Prop where
  finished : ∀ pre e post, log = pre ++ e :: post → e.isClose = true → Finished pre
  last : ∀ pre e post, log = pre ++ e :: post → e.closed = true → post = []

theorem orderly_of_open {log : List (Event κ)} (h : ∀ e ∈ log, e.isClose = false) :
    Orderly log where
  finished pre e post hl he := by
    have := h e (by rw [hl]; simp)
    rw [he] at this; cases this
  last pre e post hl he := by
    have := h e (by rw [hl]; simp)
    rw [Event.closed_isClose he] at this; cases this

/-- A log that is finished and not closed yet may close the writer. -/
theorem Orderly.snoc_close {log : List (Event κ)} (h : Orderly log) (hf : Finished log)
    (ho : ∀ e ∈ log, e.closed = false) {e : Event κ} : Orderly (log ++ [e]) where
  finished pre e' post hl he' := by
    rcases History.split_snoc hl with ⟨-, rfl, -⟩ | ⟨post', hl⟩
    · exact hf
    · exact h.finished pre e' post' hl he'
  last pre e' post hl he' := by
    rcases History.split_snoc hl with ⟨rfl, -, -⟩ | ⟨post', hl⟩
    · rfl
    · have := ho e' (by rw [hl]; simp)
      rw [he'] at this; cases this

end Pipe

/-- A reader, a writer, and what was asked of them. -/
structure Pipe (κ ρ ω : Type) where
  r : ρ
  w : ω
  log : List (Pipe.Event κ)

namespace Pipe

variable {κ ρ ω : Type}

/-- `poll_read`, logged. -/
def read (R : AsyncRead κ ρ) (p : Pipe κ ρ ω) (cx : κ) (buf : List UInt8) :
    Poll (Except IoError ℕ) × List UInt8 × Pipe κ ρ ω :=
  match R.pollRead cx p.r buf with
  | (.pending, buf, r) => (.pending, buf, { p with r := r, log := p.log ++ [.read cx .pending] })
  | (.ready (.error e), buf, r) =>
    (.ready (.error e), buf, { p with r := r, log := p.log ++ [.read cx (.ready (.error e))] })
  | (.ready (.ok n), buf, r) =>
    (.ready (.ok n), buf,
      { p with r := r, log := p.log ++ [.read cx (.ready (.ok (buf.take n)))] })

/-- `poll_write`, logged. -/
def write (W : AsyncWrite κ ω) (p : Pipe κ ρ ω) (cx : κ) (buf : List UInt8) :
    Poll (Except IoError ℕ) × Pipe κ ρ ω :=
  let (answer, w) := W.pollWrite cx p.w buf
  (answer, { p with w := w, log := p.log ++ [.write cx buf answer] })

/-- `poll_flush`, logged. -/
def flush (W : AsyncWrite κ ω) (p : Pipe κ ρ ω) (cx : κ) :
    Poll (Except IoError Unit) × Pipe κ ρ ω :=
  let (answer, w) := W.pollFlush cx p.w
  (answer, { p with w := w, log := p.log ++ [.flush cx answer] })

/-- `poll_close`, logged. -/
def close (W : AsyncWrite κ ω) (p : Pipe κ ρ ω) (cx : κ) :
    Poll (Except IoError Unit) × Pipe κ ρ ω :=
  let (answer, w) := W.pollClose cx p.w
  (answer, { p with w := w, log := p.log ++ [.close cx answer] })

section Answers
variable {R : AsyncRead κ ρ} {W : AsyncWrite κ ω} {p p' : Pipe κ ρ ω} {cx : κ}
  {buf buf' : List UInt8} {n : ℕ}

theorem read_pending (h : p.read R cx buf = (.pending, buf', p')) :
    buf'.length = buf.length ∧ p'.log = p.log ++ [.read cx .pending] := by
  have hlen := R.length_buf cx p.r buf
  unfold read at h
  split at h <;> cases h
  next hr => rw [hr] at hlen; exact ⟨hlen, rfl⟩

theorem read_error {e : IoError} (h : p.read R cx buf = (.ready (.error e), buf', p')) :
    buf'.length = buf.length ∧ p'.log = p.log ++ [.read cx (.ready (.error e))] := by
  have hlen := R.length_buf cx p.r buf
  unfold read at h
  split at h <;> cases h
  next hr => rw [hr] at hlen; exact ⟨hlen, rfl⟩

theorem read_ok (h : p.read R cx buf = (.ready (.ok n), buf', p')) :
    buf'.length = buf.length ∧ n ≤ buf.length ∧
      p'.log = p.log ++ [.read cx (.ready (.ok (buf'.take n)))] ∧
      (R.pollRead cx p.r buf).1 = .ready (.ok n) ∧ p'.r = (R.pollRead cx p.r buf).2.2 := by
  have hlen := R.length_buf cx p.r buf
  have hle := R.count_le cx p.r buf
  unfold read at h
  split at h <;> cases h
  next hr =>
    rw [hr] at hlen hle ⊢
    exact ⟨hlen, hle n rfl, rfl, rfl, rfl⟩

theorem write_log {answer : Poll (Except IoError ℕ)} (h : p.write W cx buf = (answer, p')) :
    p'.log = p.log ++ [.write cx buf answer] ∧ p'.r = p.r ∧
      ∀ n, answer = .ready (.ok n) → n ≤ buf.length := by
  cases h
  exact ⟨rfl, rfl, W.count_le cx p.w buf⟩

theorem flush_log {answer : Poll (Except IoError Unit)} (h : p.flush W cx = (answer, p')) :
    p'.log = p.log ++ [.flush cx answer] ∧ p'.r = p.r := by
  cases h
  exact ⟨rfl, rfl⟩

theorem close_log {answer : Poll (Except IoError Unit)} (h : p.close W cx = (answer, p')) :
    p'.log = p.log ++ [.close cx answer] := by
  cases h
  rfl

end Answers

end Pipe

/-- A stream that plays back its answers. -/
structure Script where
  reads : List (Poll (Except IoError (List UInt8)))
  writes : List (Poll (Except IoError ℕ))
  flushes : List (Poll (Except IoError Unit))
  closes : List (Poll (Except IoError Unit))

namespace Script

variable {κ : Type}

/-- The next read; what does not fit into the buffer is read next. -/
def pollRead (s : Script) (buf : List UInt8) :
    Poll (Except IoError ℕ) × List UInt8 × Script :=
  match s.reads with
  | [] => (.pending, buf, s)
  | .pending :: reads => (.pending, buf, { s with reads := reads })
  | .ready (.error e) :: reads => (.ready (.error e), buf, { s with reads := reads })
  | .ready (.ok bytes) :: reads =>
    if bytes.length ≤ buf.length then
      (.ready (.ok bytes.length), bytes ++ buf.drop bytes.length, { s with reads := reads })
    else
      (.ready (.ok buf.length), bytes.take buf.length,
        { s with reads := .ready (.ok (bytes.drop buf.length)) :: reads })

/-- The next write, of at most the bytes given. -/
def pollWrite (s : Script) (buf : List UInt8) : Poll (Except IoError ℕ) × Script :=
  match s.writes with
  | [] => (.pending, s)
  | .ready (.ok n) :: writes => (.ready (.ok (min n buf.length)), { s with writes := writes })
  | answer :: writes => (answer, { s with writes := writes })

/-- The next answer of the script to `poll_flush`. -/
def pollFlush (s : Script) : Poll (Except IoError Unit) × Script :=
  match s.flushes with
  | [] => (.pending, s)
  | answer :: flushes => (answer, { s with flushes := flushes })

/-- The next answer of the script to `poll_close`. -/
def pollClose (s : Script) : Poll (Except IoError Unit) × Script :=
  match s.closes with
  | [] => (.pending, s)
  | answer :: closes => (answer, { s with closes := closes })

theorem pollRead_spec (s : Script) (buf : List UInt8) :
    (s.pollRead buf).2.1.length = buf.length ∧
      ∀ n, (s.pollRead buf).1 = .ready (.ok n) → n ≤ buf.length := by
  unfold pollRead
  split
  · exact ⟨rfl, fun n h => by cases h⟩
  · exact ⟨rfl, fun n h => by cases h⟩
  · exact ⟨rfl, fun n h => by cases h⟩
  · split_ifs with hle
    · refine ⟨by simp; omega, fun n h => ?_⟩
      cases h; exact hle
    · refine ⟨by simp; omega, fun n h => ?_⟩
      cases h; exact le_refl _

/-- The bytes and the answers still to be read. -/
def left (s : Script) : ℕ :=
  (s.reads.map fun
    | .ready (.ok bytes) => bytes.length + 1
    | _ => 1).sum

/-- A reader that answers from a script. -/
def asyncRead : AsyncRead κ Script where
  pollRead _ s buf := s.pollRead buf
  length_buf _ s buf := (s.pollRead_spec buf).1
  count_le _ s buf := (s.pollRead_spec buf).2

/-- A writer that answers from a script. -/
def asyncWrite : AsyncWrite κ Script where
  pollWrite _ s buf := s.pollWrite buf
  pollFlush _ s := s.pollFlush
  pollClose _ s := s.pollClose
  count_le _ s buf n h := by
    unfold pollWrite at h
    split at h
    · cases h
    · cases h; exact min_le_right _ _
    next hne _ => cases h; exact (hne n rfl).elim

/-- A script comes to its end. -/
theorem finite : (asyncRead : AsyncRead κ Script).Finite := by
  refine ⟨left, fun _ s buf n h hn => ?_⟩
  show left (s.pollRead buf).2.2 < left s
  replace h : (s.pollRead buf).1 = .ready (.ok n) := h
  unfold pollRead at h ⊢
  split at h
  · cases h
  · cases h
  · cases h
  next bytes reads hr =>
    split_ifs at h ⊢ with hle
    · simp [left, hr]
    · cases h
      simp only [left, hr, List.map_cons, List.sum_cons, List.length_drop]
      omega

end Script
