/-
# Protocol.PythonReader — the reader thread of the Python client

`_reader_loop` in `python-client/pubsub/client.py`, over `read_frame` and
`_recv_exact` in `protocol.py`.  The socket has a timeout of one second, so that the
loop can look at `_stop_event`; a timeout raises out of `recv`, through `_recv_exact`
and `read_frame`, and the loop calls `read_frame` again.

What `_recv_exact` had read so far is in a local buffer and is lost with the exception.
So a timeout is harmless between two frames and misaligns the stream inside one
(`reader_misaligned`).  `reader_framing` is what holds: if no timeout falls inside a
frame, however the bytes are cut into chunks, the loop handles exactly the frames that
were sent.

The proof reduces `_recv_exact` on a socket to `_recv_exact` on the bytes that will
arrive (`recvFrom_eq`): between two timeouts the chunks do not matter.
-/
import PubsubBroker.Protocol.Frame

namespace PubsubBroker.Protocol.Python

open Theory List

/-! ## The socket -/

/-- What the next calls of `recv` meet.  `recv` returns no empty chunk while the
connection is open. -/
inductive Arrival where
  | chunk (first : UInt8) (more : Bytes)
  | timeout

/-- Chunks and timeouts in order; behind them the connection is closed. -/
abbrev Socket := List Arrival

/-- All bytes that arrive. -/
def arrived : Socket → Bytes
  | [] => []
  | .chunk first more :: rest => first :: more ++ arrived rest
  | .timeout :: rest => arrived rest

/-- Bytes that `recv` left in the receive buffer. -/
def unread : Bytes → Socket → Socket
  | [], rest => rest
  | first :: more, rest => .chunk first more :: rest

inductive ReadError where
  | timeout
  | failed (e : DecodeError)

/-- `_recv_exact`, with what is in `buf`.  `recv` returns at most the bytes it is asked
for. -/
def recvFrom (n : Nat) : Bytes → Socket → Except ReadError Bytes × Socket
  | buf, [] =>
    if buf.length < n then (.error (.failed (.connectionClosed buf.length n)), [])
    else (.ok buf, [])
  | buf, .timeout :: rest =>
    -- `buf` goes with the exception
    if buf.length < n then (.error .timeout, rest) else (.ok buf, .timeout :: rest)
  | buf, .chunk first more :: rest =>
    if buf.length < n then
      if more.length + 1 ≤ n - buf.length then recvFrom n (buf ++ first :: more) rest
      else (.ok (buf ++ (first :: more).take (n - buf.length)),
        unread ((first :: more).drop (n - buf.length)) rest)
    else (.ok buf, .chunk first more :: rest)

/-- `read_frame` on a socket. -/
def readFrameFrom (sock : Socket) : Except ReadError (UInt8 × Frame) × Socket :=
  match recvFrom headerSize [] sock with
  | (.error e, sock) => (.error e, sock)
  | (.ok rawHeader, sock) =>
    let h := parseHeader rawHeader
    if h.magic ≠ magic then (.error (.failed (.invalidMagic h.magic)), sock)
    else if h.length > 0 then
      match recvFrom h.length [] sock with
      | (.error e, sock) => (.error e, sock)
      | (.ok body, sock) => (.ok (h.version, ⟨h.command, h.requestID, body⟩), sock)
    else (.ok (h.version, ⟨h.command, h.requestID, []⟩), sock)

/-! ## The loop -/

inductive Handled where
  | reply (f : Frame)
  | push (f : Frame)
  | pong (f : Frame)
  | unexpected (f : Frame)
deriving DecidableEq

def classify (f : Frame) : Handled :=
  if f.command = 0x0E ∨ f.command = 0x0F then .reply f
  else if f.command = 0x20 then .push f
  else if f.command = 0x0D then .pong f
  else .unexpected f

inductive Ending where
  | stopped
  | connectionLost
  | unrecoverable
  | outOfFuel
deriving DecidableEq

/-- `_reader_loop`; `stop i` is the state of `_stop_event` at the `i`-th check. -/
def readerFuel (stop : Nat → Bool) : Nat → Nat → Socket → List Handled × Ending
  | 0, _, _ => ([], .outOfFuel)
  | fuel + 1, i, sock =>
    if stop i then ([], .stopped)
    else
      match readFrameFrom sock with
      | (.error .timeout, sock) => readerFuel stop fuel (i + 1) sock
      | (.error (.failed (.connectionClosed _ _)), _) => ([], .connectionLost)
      | (.error (.failed _), _) => ([], .unrecoverable)
      | (.ok (_, f), sock) =>
        let later := readerFuel stop fuel (i + 1) sock
        (classify f :: later.1, later.2)

/-- Every round takes a timeout or a header from the socket. -/
def weight (sock : Socket) : Nat := sock.length + (arrived sock).length

def readerLoop (stop : Nat → Bool) (sock : Socket) : List Handled × Ending :=
  readerFuel stop (weight sock + 1) 0 sock

@[simp] theorem arrived_unread (bytes : Bytes) (rest : Socket) :
    arrived (unread bytes rest) = bytes ++ arrived rest := by
  cases bytes with
  | nil | cons first more => rfl

theorem length_unread_le (bytes : Bytes) (rest : Socket) :
    (unread bytes rest).length ≤ rest.length + 1 := by
  cases bytes with
  | nil => exact Nat.le_succ _
  | cons first more => exact le_refl _

theorem weight_chunk (first : UInt8) (more : Bytes) (rest : Socket) :
    weight (.chunk first more :: rest) = weight rest + more.length + 2 := by
  simp [weight, arrived]
  omega

theorem weight_timeout (rest : Socket) : weight (.timeout :: rest) = weight rest + 1 := by
  simp [weight, arrived]
  omega

theorem recvFrom_weight_le (n : Nat) (sock : Socket) :
    ∀ buf, weight (recvFrom n buf sock).2 ≤ weight sock := by
  induction sock with
  | nil => grind [recvFrom]
  | cons arrival rest ih =>
    intro buf
    cases arrival with
    | timeout =>
      rw [recvFrom, weight_timeout]
      split
      · exact Nat.le_succ _
      · rw [weight_timeout]
    | chunk first more => grind [recvFrom, weight_chunk, length_unread_le, weight, arrived_unread]

theorem recvFrom_takes {n : Nat} {buf : Bytes} (asks : buf.length < n) (sock : Socket) :
    weight (recvFrom n buf sock).2 < weight sock ∨
      ∃ got, (recvFrom n buf sock).1 = .error (.failed (.connectionClosed got n)) := by
  cases sock with
  | nil =>
    rw [recvFrom, if_pos asks]
    exact .inr ⟨buf.length, rfl⟩
  | cons arrival rest =>
    left
    cases arrival with
    | timeout =>
      rw [recvFrom, if_pos asks, weight_timeout]
      exact Nat.lt_succ_self _
    | chunk first more =>
      rw [recvFrom, if_pos asks, weight_chunk]
      grind [recvFrom_weight_le, length_unread_le, weight, arrived_unread]

theorem readFrameFrom_takes (sock : Socket) :
    weight (readFrameFrom sock).2 < weight sock ∨
      ∃ got want, (readFrameFrom sock).1 = .error (.failed (.connectionClosed got want)) := by
  have first := @recvFrom_takes headerSize [] (by decide) sock
  unfold readFrameFrom
  generalize recvFrom headerSize [] sock = header at first
  obtain ⟨result, between⟩ := header
  cases result with
  | error e => grind
  | ok rawHeader => grind [recvFrom_weight_le]

/-- **The loop ends on every socket**: the fuel never runs out. -/
theorem readerFuel_ends (stop : Nat → Bool) (fuel : Nat) :
    ∀ i sock, weight sock < fuel → (readerFuel stop fuel i sock).2 ≠ .outOfFuel := by
  induction fuel with
  | zero =>
    intro i sock enough
    omega
  | succ fuel ih =>
    intro i sock enough
    rw [readerFuel]
    split
    · exact Ending.noConfusion
    grind [readFrameFrom_takes]

theorem readerLoop_ends (stop : Nat → Bool) (sock : Socket) :
    (readerLoop stop sock).2 ≠ .outOfFuel :=
  readerFuel_ends stop _ 0 sock (Nat.lt_succ_self _)

/-! ## Timeouts at allowed places -/

/-- Every timeout comes when a number of bytes has arrived that `allowed` admits. -/
def Timely (allowed : Nat → Prop) : Socket → Prop
  | [] => True
  | .timeout :: rest => allowed 0 ∧ Timely allowed rest
  | .chunk _ more :: rest => Timely (fun k => allowed (k + (more.length + 1))) rest

variable {allowed : Nat → Prop} {sock : Socket}

theorem timely_iff :
    Timely allowed sock ↔
      ∀ before after, sock = before ++ .timeout :: after → allowed (arrived before).length := by
  induction sock generalizing allowed with
  | nil => simp [Timely]
  | cons arrival rest ih =>
    cases arrival with
    | timeout =>
      rw [Timely, ih]
      constructor
      · rintro ⟨now, later⟩ before after split
        cases before with
        | nil => exact now
        | cons x before =>
          obtain ⟨rfl, rfl⟩ := List.cons.inj split
          exact later before after rfl
      · intro all
        exact ⟨all [] rest rfl, fun before after split =>
          all (.timeout :: before) after (by rw [split]; rfl)⟩
    | chunk first more =>
      rw [Timely, ih]
      constructor
      · intro later before after split
        cases before with
        | nil => cases split
        | cons x before => grind [arrived]
      grind [arrived]

theorem Timely.mono {more : Nat → Prop} (wider : ∀ k, allowed k → more k)
    (timely : Timely allowed sock) : Timely more sock :=
  timely_iff.mpr fun before after split => wider _ (timely_iff.mp timely before after split)

theorem Timely.started (timely : Timely allowed sock) (next : ∀ rest, sock ≠ .timeout :: rest) :
    Timely (fun k => 0 < k ∧ allowed k) sock := by
  cases sock with
  | nil => trivial
  | cons arrival rest =>
    cases arrival with
    | timeout => exact absurd rfl (next rest)
    | chunk first more => grind [Timely]

theorem timely_unread (bytes : Bytes) {rest : Socket} :
    Timely allowed (unread bytes rest) ↔ Timely (fun k => allowed (k + bytes.length)) rest := by
  cases bytes with
  | nil | cons first more => rfl

/-! ## The reader on a socket and on its bytes -/

/-- **Chunks do not matter.**  While no timeout is allowed, `_recv_exact` on the socket is
`_recv_exact` on all the bytes that arrive. -/
theorem recvFrom_eq {n : Nat} :
    ∀ {allowed : Nat → Prop} {buf : Bytes}, Timely allowed sock → buf.length ≤ n →
      (∀ k < n - buf.length, ¬ allowed k) →
      match Python.recvExact n (buf ++ arrived sock) with
      | .error e => recvFrom n buf sock = (.error (.failed e), [])
      | .ok (bytes, later) => ∃ rest, recvFrom n buf sock = (.ok bytes, rest) ∧
          arrived rest = later ∧ Timely (fun k => allowed (k + (n - buf.length))) rest ∧
          rest.length ≤ sock.length := by
  induction sock with
  | nil =>
    intro allowed buf timely room quiet
    rw [arrived, append_nil, Python.recvExact, recvFrom]
    by_cases asks : buf.length < n
    · rw [if_pos asks, if_pos asks]
    · rw [if_neg asks, if_neg asks]
      have full : buf.length = n := by omega
      exact ⟨[], by rw [take_of_length_le (by omega)],
        by rw [drop_of_length_le (by omega)]; rfl, trivial, le_refl _⟩
  | cons arrival rest ih =>
    intro allowed buf timely room quiet
    by_cases asks : buf.length < n
    · cases arrival with
      | timeout => exact absurd timely.1 (quiet 0 (by omega))
      | chunk first more =>
        rw [recvFrom, if_pos asks]
        by_cases short : more.length + 1 ≤ n - buf.length
        · -- the whole chunk goes into the buffer
          rw [if_pos short]
          have longer : (buf ++ first :: more).length = buf.length + (more.length + 1) := by simp
          have next := ih (show Timely _ rest from timely)
            (show (buf ++ first :: more).length ≤ n by omega)
            (fun k bound => quiet _ (by omega))
          rw [arrived, ← append_assoc]
          cases read : Python.recvExact n (buf ++ first :: more ++ arrived rest) with
          | error e => grind
          | ok result =>
            rw [read] at next
            obtain ⟨left, eq, bytes, again, fewer⟩ := next
            refine ⟨left, eq, bytes, again.mono fun k ok => ?_, Nat.le_succ_of_le fewer⟩
            grind
        · rw [if_neg short]
          have total : ¬ (buf ++ arrived (.chunk first more :: rest)).length < n := by
            simp [arrived]; omega
          have taken : (buf ++ (first :: more ++ arrived rest)).take n =
              buf ++ (first :: more).take (n - buf.length) := by
            rw [take_append, take_of_length_le room,
              take_append_of_le_length (by rw [length_cons]; omega)]
          have dropped : (buf ++ (first :: more ++ arrived rest)).drop n =
              (first :: more).drop (n - buf.length) ++ arrived rest := by
            rw [drop_append, drop_of_length_le room, nil_append,
              drop_append_of_le_length (by rw [length_cons]; omega)]
          rw [Python.recvExact, if_neg total]
          refine ⟨_, by rw [arrived, taken], by rw [arrived_unread, arrived, dropped], ?_, ?_⟩
          · rw [timely_unread]
            refine Timely.mono (fun k ok => ?_) (show Timely _ rest from timely)
            grind
          · exact length_unread_le _ _
    · have full : buf.length = n := by omega
      have total : ¬ (buf ++ arrived (arrival :: rest)).length < n := by
        rw [length_append]
        omega
      have read : recvFrom n buf (arrival :: rest) = (.ok buf, arrival :: rest) := by
        cases arrival with
        | timeout | chunk first more => rw [recvFrom, if_neg asks]
      rw [Python.recvExact, if_neg total]
      refine ⟨_, read.trans ?_, ?_, ?_, le_refl _⟩
      · simp [full]
      · simp [full]
      · rw [full, Nat.sub_self]
        exact timely

theorem recvFrom_short {n : Nat} (timely : Timely allowed sock) (quiet : ∀ k < n, ¬ allowed k)
    (short : (arrived sock).length < n) :
    recvFrom n [] sock = (.error (.failed (.connectionClosed (arrived sock).length n)), []) := by
  have read := recvFrom_eq timely (show ([] : Bytes).length ≤ n from Nat.zero_le n) quiet
  rw [nil_append, Python.recvExact, if_pos short] at read
  exact read

theorem recvFrom_full {n : Nat} {bytes later : Bytes} (timely : Timely allowed sock)
    (quiet : ∀ k < n, ¬ allowed k) (len : bytes.length = n) (split : arrived sock = bytes ++ later) :
    ∃ rest, recvFrom n [] sock = (.ok bytes, rest) ∧ arrived rest = later ∧
      Timely (fun k => allowed (k + n)) rest ∧ rest.length ≤ sock.length := by
  have read := recvFrom_eq timely (show ([] : Bytes).length ≤ n from Nat.zero_le n) quiet
  have enough : ¬ (arrived sock).length < n := by
    rw [split, length_append]
    omega
  rw [nil_append, Python.recvExact, if_neg enough, split, take_left' len,
    drop_left' len] at read
  exact read

section

variable {f : Frame} {sock : Socket} {allowed : Nat → Prop}

/-- **A frame without a timeout in it** is read, if it arrives completely. -/
theorem readFrameFrom_whole (fits : f.Fits) (timely : Timely allowed sock)
    (next : ∀ rest, sock ≠ .timeout :: rest)
    (quiet : ∀ k, 0 < k → k < (wire f).length → ¬ allowed k) {later : Bytes}
    (split : arrived sock = wire f ++ later) :
    ∃ rest, readFrameFrom sock = (.ok (1, f), rest) ∧ arrived rest = later ∧
      Timely (fun k => allowed (k + (wire f).length)) rest ∧ rest.length ≤ sock.length := by
  have size := wire_length f
  have header : headerSize = 18 := rfl
  have short : f.body.length < 2 ^ 32 := by
    have : f.body.length ≤ maxBodySize := fits
    unfold maxBodySize at this
    omega
  obtain ⟨between, first, behind, timely, fewer⟩ := recvFrom_full (timely.started next)
    (fun k bound both => quiet k both.1 (by omega) both.2)
    (header_length 0x50534201 1 f.command f.requestID f.body.length)
    (by rw [split, wire, append_assoc])
  unfold readFrameFrom
  simp only [first, parseHeader_header (show 0x50534201 < 2 ^ 32 by decide) short]
  rw [if_neg fun differ => differ rfl]
  by_cases empty : f.body.length = 0
  · rw [if_neg (by omega)]
    have nil : f.body = [] := length_eq_zero_iff.mp empty
    rw [nil, nil_append] at behind
    refine ⟨between, by rw [← nil], behind, timely.mono fun k ok => ?_, fewer⟩
    rw [size, empty]
    exact ok.2
  · rw [if_pos (by omega)]
    obtain ⟨rest, second, last, timely, fewest⟩ := recvFrom_full timely
      (fun k bound both => quiet (k + headerSize) both.1 (by omega) both.2) rfl behind
    rw [second]
    grind [Timely.mono]

theorem readFrameFrom_cut (fits : f.Fits) (timely : Timely allowed sock)
    (next : ∀ rest, sock ≠ .timeout :: rest)
    (quiet : ∀ k, 0 < k → k < (wire f).length → ¬ allowed k) {k : Nat}
    (cut : k < (wire f).length) (split : arrived sock = (wire f).take k) :
    ∃ got want, readFrameFrom sock = (.error (.failed (.connectionClosed got want)), []) := by
  have size := wire_length f
  have header : headerSize = 18 := rfl
  have short : f.body.length < 2 ^ 32 := by
    have : f.body.length ≤ maxBodySize := fits
    unfold maxBodySize at this
    omega
  have quietHeader : ∀ k < headerSize, ¬ (0 < k ∧ allowed k) :=
    fun k bound both => quiet k both.1 (by omega) both.2
  unfold readFrameFrom
  by_cases inHeader : k < headerSize
  · have less : (arrived sock).length < headerSize := by
      rw [split, length_take]
      omega
    rw [recvFrom_short (timely.started next) quietHeader less]
    exact ⟨_, _, rfl⟩
  · have parts : (wire f).take k =
        Protocol.header 0x50534201 1 f.command f.requestID f.body.length ++
          f.body.take (k - headerSize) := by
      rw [wire, take_append, header_length,
        take_of_length_le (by rw [header_length]; omega)]
    obtain ⟨between, first, behind, timely, -⟩ := recvFrom_full (timely.started next) quietHeader
      (header_length 0x50534201 1 f.command f.requestID f.body.length) (split.trans parts)
    simp only [first, parseHeader_header (show 0x50534201 < 2 ^ 32 by decide) short]
    rw [if_neg fun differ => differ rfl, if_pos (by omega)]
    have less : (arrived between).length < f.body.length := by simp [behind]; omega
    grind [recvFrom_short]

end

/-! ## Streams of frames -/

/-- The byte counts at which a frame of `fs` ends. -/
def Boundary (fs : List Frame) (k : Nat) : Prop :=
  ∃ count, k = (frames wire (fs.take count)).length

theorem wire_length_pos (f : Frame) : 0 < (wire f).length := by
  simp [wire_length, headerSize]

variable {fs : List Frame}

theorem Boundary.not_inside {f : Frame} {k : Nat} (pos : 0 < k) (inside : k < (wire f).length) :
    ¬ Boundary (f :: fs) k := by
  rintro ⟨count, rfl⟩
  cases count with
  | zero => exact absurd pos (by simp)
  | succ count => grind [frames_cons]

theorem Boundary.behind {f : Frame} {k : Nat} (boundary : Boundary (f :: fs) (k + (wire f).length))
    : Boundary fs k := by
  obtain ⟨count, same⟩ := boundary
  cases count with
  | zero => grind [wire_length_pos, frames_nil]
  | succ count =>
    rw [take_succ_cons, frames_cons, length_append] at same
    exact ⟨count, by omega⟩

/-- What the loop has to do with the part of the frames that arrives. -/
structure Framing (stop : Nat → Bool) (fs : List Frame) (bytes : Bytes)
    (out : List Handled × Ending) (got : List Frame) : Prop where
  handled : out.1 = got.map classify
  ended : out.2 = .connectionLost ∧ CompleteBefore wire fs bytes.length got ∨
    out.2 = .stopped ∧ got <+: fs ∧ ∃ i, stop i = true

theorem readFrameFrom_timeout (rest : Socket) :
    readFrameFrom (.timeout :: rest) = (.error .timeout, rest) := rfl

theorem arrived_eq_nil (next : ∀ rest, sock ≠ .timeout :: rest) (none : arrived sock = []) :
    sock = [] := by
  cases sock with
  | nil => rfl
  | cons arrival rest =>
    cases arrival with
    | timeout => exact absurd rfl (next rest)
    | chunk first more => cases none

theorem Framing.cons {stop : Nat → Bool} {f : Frame} {got : List Frame} {bytes : Bytes}
    {out : List Handled × Ending} (later : Framing stop fs bytes out got) :
    Framing stop (f :: fs) (wire f ++ bytes) (classify f :: out.1, out.2) (f :: got) := by
  refine ⟨by rw [later.handled]; rfl, later.ended.imp ?_ ?_⟩
  · grind [CompleteBefore.cons]
  · simp

theorem readerFuel_framing (stop : Nat → Bool) (fuel : Nat) :
    ∀ {i : Nat} {fs : List Frame} {sock : Socket}, weight sock < fuel → (∀ f ∈ fs, f.Fits) →
      arrived sock <+: frames wire fs → Timely (Boundary fs) sock →
      ∃ got, Framing stop fs (arrived sock) (readerFuel stop fuel i sock) got := by
  induction fuel with
  | zero =>
    intro i fs sock enough
    omega
  | succ fuel ih =>
    intro i fs sock enough fits sent timely
    rw [readerFuel]
    by_cases set : stop i = true
    · rw [if_pos set]
      exact ⟨[], rfl, .inr ⟨rfl, nil_prefix, i, set⟩⟩
    rw [if_neg set]
    by_cases idle : ∃ rest, sock = .timeout :: rest
    · obtain ⟨rest, rfl⟩ := idle
      rw [readFrameFrom_timeout]
      rw [weight_timeout] at enough
      exact @ih (i + 1) fs rest (by omega) fits sent timely.2
    have next : ∀ rest, sock ≠ .timeout :: rest := fun rest same => idle ⟨rest, same⟩
    cases fs with
    | nil =>
      have empty := arrived_eq_nil next (prefix_nil.mp sent)
      subst empty
      exact ⟨[], rfl, .inl ⟨rfl, .none fun f later differ => by cases differ⟩⟩
    | cons f fs =>
      have first := fits f (by simp)
      have quiet : ∀ k, 0 < k → k < (wire f).length → ¬ Boundary (f :: fs) k :=
        fun k pos inside => Boundary.not_inside pos inside
      rw [frames_cons] at sent
      by_cases whole : (wire f).length ≤ (arrived sock).length
      · -- the frame arrives completely
        obtain ⟨later, split⟩ := prefix_of_prefix_length_le (prefix_append _ _)
          sent whole
        obtain ⟨rest, read, behind, after, fewer⟩ :=
          readFrameFrom_whole first timely next quiet split.symm
        have sentLater : arrived rest <+: frames wire fs := by grind [prefix_append_right_inj]
        have lighter : weight rest < fuel := by grind [wire_length_pos, weight]
        obtain ⟨got, framing⟩ := @ih (i + 1) fs rest lighter
          (fun g mem => fits g (by simp [mem])) sentLater (after.mono fun k => Boundary.behind)
        rw [read, ← split, ← behind]
        exact ⟨f :: got, framing.cons⟩
      · have cut : arrived sock = (wire f).take (arrived sock).length := by
          have := prefix_iff_eq_take.mp sent
          grind
        obtain ⟨got, want, read⟩ :=
          readFrameFrom_cut first timely next quiet (not_le.mp whole) cut
        rw [read]
        refine ⟨[], rfl, .inl ⟨rfl, .none fun g later same => ?_⟩⟩
        grind

theorem complete_all {got : List Frame}
    (complete : CompleteBefore wire fs (frames wire fs).length got) : got = fs := by
  obtain ⟨count, bound, rfl, -, behind⟩ := complete
  by_cases more : count < fs.length
  · grind [frames_append, take_append_drop]
  · exact take_of_length_le (by omega)

/-- At every timeout the bytes that have arrived end at a frame boundary. -/
def Aligned (fs : List Frame) (sock : Socket) : Prop :=
  ∀ before after, sock = before ++ .timeout :: after → Boundary fs (arrived before).length

/-- **Timeouts between frames do no harm.**  For all frames, whatever part of them
arrives and however it is cut into chunks, if no timeout falls inside a frame then the
loop handles exactly the frames that arrive, in order, until the connection is closed or
the client stops it. -/
theorem reader_framing {stop : Nat → Bool} {fs : List Frame} {sock : Socket}
    (fits : ∀ f ∈ fs, f.Fits) (sent : arrived sock <+: frames wire fs)
    (aligned : Aligned fs sock) :
    ∃ got, (readerLoop stop sock).1 = got.map classify ∧
      ((readerLoop stop sock).2 = .connectionLost ∧
          CompleteBefore wire fs (arrived sock).length got ∧
          (arrived sock = frames wire fs → got = fs) ∨
        (readerLoop stop sock).2 = .stopped ∧ got <+: fs ∧ ∃ i, stop i = true) := by
  obtain ⟨got, handled, ended⟩ := @readerFuel_framing stop (weight sock + 1) 0 fs sock
    (Nat.lt_succ_self _) fits sent (timely_iff.mpr aligned)
  refine ⟨got, handled, ended.imp_left ?_⟩
  rintro ⟨lost, complete⟩
  refine ⟨lost, complete, fun all => ?_⟩
  rw [all] at complete
  exact complete_all complete

/-- A push in two chunks and a reply, with timeouts in front, between and behind. -/
def sampleFrames : List Frame := [⟨0x20, 0, [123, 125]⟩, ⟨0x0E, 7, []⟩]

def sampleSocket : Socket :=
  [.timeout, .chunk 0x01 [0x42, 0x53, 0x50, 1, 0x20, 0],
    .chunk 0 [0, 0, 0, 0, 0, 0, 2, 0, 0, 0, 123, 125], .timeout, .timeout,
    .chunk 0x01 [0x42, 0x53, 0x50, 1, 0x0E, 7, 0, 0, 0, 0, 0, 0, 0, 0, 0, 0, 0], .timeout]

theorem sampleSocket_aligned : Aligned sampleFrames sampleSocket := by
  have timely : Timely (Boundary sampleFrames) sampleSocket :=
    ⟨⟨0, rfl⟩, ⟨1, rfl⟩, ⟨1, rfl⟩, ⟨2, rfl⟩, trivial⟩
  exact timely_iff.mp timely

theorem reader_framing_sample : (∀ f ∈ sampleFrames, f.Fits) ∧
    arrived sampleSocket = frames wire sampleFrames ∧ Aligned sampleFrames sampleSocket ∧
    (readerLoop (fun _ => false) sampleSocket).1 = sampleFrames.map classify := by
  have fits : ∀ f ∈ sampleFrames, f.Fits := by
    unfold Frame.Fits
    decide
  have all : arrived sampleSocket = frames wire sampleFrames := by decide +kernel
  refine ⟨fits, all, sampleSocket_aligned, ?_⟩
  obtain ⟨got, handled, ended⟩ := @reader_framing (fun _ => false) sampleFrames sampleSocket fits
    (by simp only [all, prefix_rfl]) sampleSocket_aligned
  rcases ended with ⟨-, -, whole⟩ | ⟨-, -, i, set⟩
  · rw [handled, whole all]
  · cases set

/-- **A timeout inside a frame loses the frame and the connection.**  The same two frames
arrive completely and nothing closes the connection; a pause after seven bytes makes the
loop take the eleven bytes behind it for the start of a header. -/
theorem reader_misaligned : ∃ (fs : List Frame) (sock : Socket), (∀ f ∈ fs, f.Fits) ∧
    arrived sock = frames wire fs ∧ fs = sampleFrames ∧
    readerLoop (fun _ => false) sock = ([], .unrecoverable) := by
  refine ⟨sampleFrames, [.chunk 0x01 [0x42, 0x53, 0x50, 1, 0x20, 0], .timeout,
    .chunk 0 [0, 0, 0, 0, 0, 0, 2, 0, 0, 0, 123, 125],
    .chunk 0x01 [0x42, 0x53, 0x50, 1, 0x0E, 7, 0, 0, 0, 0, 0, 0, 0, 0, 0, 0, 0]], ?_,
    by decide +kernel, rfl, by decide +kernel⟩
  unfold Frame.Fits
  decide

end PubsubBroker.Protocol.Python
