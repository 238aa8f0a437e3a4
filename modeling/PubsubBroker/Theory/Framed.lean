/-
# Theory.Framed — scanning a byte string that is a sequence of frames

A log file is read by calling one frame reader until it refuses.  `scan read b`
is that loop: the frames read, and the bytes at which the reader stopped.  The
reader may be anything that shortens its input (`Progress`), so the scan always
ends at a refusal (`scan_stop`), whatever the bytes are.

An encoder is *delimited* for a reader when every encoded frame is read back
exactly, whatever follows it (`Delimits`).  Then a scan passes over written
frames one by one (`scan_frames`), and a torn last frame stops it at the
boundary of the complete ones (`scan_torn`).  If moreover no strict prefix of a
frame is read (`PrefixFree`), a stream may be cut anywhere: the scan returns the
frames that lie in front of the cut (`scan_cut`).
-/
import PubsubBroker.Theory.Bytes

namespace PubsubBroker.Theory

open List

section Scan

variable {α ε : Type} (read : Bytes → Except ε (α × Bytes))

/-- Every accepted frame shortens the input. -/
def Progress : Prop :=
  ∀ input frame rest, read input = .ok (frame, rest) → rest.length < input.length

def scanFuel : Nat → Bytes → List α × Bytes
  | 0, input => ([], input)
  | fuel + 1, input =>
    match read input with
    | .error _ => ([], input)
    | .ok (frame, rest) =>
      let later := scanFuel fuel rest
      (frame :: later.1, later.2)

/-- Read frames until the reader refuses.  The fuel never runs out on a reader
that makes progress (`scan_stop`); it keeps the loop structural. -/
def scan (input : Bytes) : List α × Bytes := scanFuel read (input.length + 1) input

variable {read}

/-- More fuel than bytes changes nothing. -/
theorem scanFuel_mono (progress : Progress read) :
    ∀ (fuel more : Nat) (input : Bytes), input.length < fuel → fuel ≤ more →
      scanFuel read fuel input = scanFuel read more input := by
  intro fuel
  induction fuel with
  | zero => intro more input short; omega
  | succ fuel ih =>
    intro more input short le
    obtain ⟨more, rfl⟩ : ∃ m, more = m + 1 := ⟨more - 1, by omega⟩
    simp only [scanFuel]
    cases step : read input with
    | error stop => rfl
    | ok next =>
      obtain ⟨frame, rest⟩ := next
      have shorter := progress _ _ _ step
      grind

theorem scanFuel_enough (progress : Progress read) {fuel : Nat} {input : Bytes}
    (enough : input.length < fuel) : scanFuel read fuel input = scan read input :=
  (scanFuel_mono progress _ _ input (Nat.lt_succ_self _) enough).symm

theorem scan_ok (progress : Progress read) {input rest : Bytes} {frame : α}
    (step : read input = .ok (frame, rest)) :
    scan read input = (frame :: (scan read rest).1, (scan read rest).2) := by
  have shorter := progress _ _ _ step
  conv_lhs => unfold scan
  simp only [scanFuel, step, scanFuel_enough progress shorter]

theorem scan_error {input : Bytes} {stop : ε} (step : read input = .error stop) :
    scan read input = ([], input) := by
  simp [scan, scanFuel, step]

/-- Induction along a scan: the reader refuses, or it accepts a frame and the
scan goes on from a shorter input. -/
theorem scan_induction (progress : Progress read) {motive : Bytes → Prop}
    (stop : ∀ input e, read input = .error e → motive input)
    (step : ∀ input frame rest, read input = .ok (frame, rest) → motive rest → motive input) :
    ∀ input, motive input := by
  intro input
  induction hn : input.length using Nat.strongRecOn generalizing input with
  | _ n ih =>
    cases h : read input with
    | error e => exact stop input e h
    | ok next =>
      obtain ⟨frame, rest⟩ := next
      exact step input frame rest h (ih rest.length (hn ▸ progress _ _ _ h) rest rfl)

/-- A scan ends where the reader refuses. -/
theorem scan_stop (progress : Progress read) (input : Bytes) :
    ∃ e, read (scan read input).2 = .error e := by
  induction input using scan_induction progress with
  | stop input e h => exact ⟨e, by rw [scan_error h]; exact h⟩
  | step input frame rest h ih => rw [scan_ok progress h]; exact ih

/-- A view of the frames does not change where a scan stops. -/
theorem scan_map {β : Type} (progress : Progress read) (view : α → β) (input : Bytes) :
    scan (fun bytes => (read bytes).map fun next => (view next.1, next.2)) input =
      ((scan read input).1.map view, (scan read input).2) := by
  let seen := fun bytes => (read bytes).map fun next => (view next.1, next.2)
  have viewed : Progress seen := by
    intro input frame rest h
    cases step : read input with
    | error e => simp [seen, step, Except.map] at h
    | ok next =>
      simp only [seen, step, Except.map, Except.ok.injEq, Prod.mk.injEq] at h
      obtain ⟨-, rfl⟩ := h
      exact progress _ _ _ step
  induction input using scan_induction progress with
  | stop input e h => simp [Except.map, scan_error, h]
  | step input frame rest h ih =>
    have accepted : seen input = .ok (view frame, rest) := by simp [seen, h, Except.map]
    rw [scan_ok progress h]
    grind [scan_ok]

theorem scan_length_le (progress : Progress read) (input : Bytes) :
    (scan read input).2.length ≤ input.length := by
  induction input using scan_induction progress with
  | stop input e h => rw [scan_error h]
  | step input frame rest h ih =>
    rw [scan_ok progress h]
    have := progress _ _ _ h
    exact le_trans ih (le_of_lt this)

end Scan

section Encoder

variable {α ε : Type} {read : Bytes → Except ε (α × Bytes)} {encode : α → Bytes}

/-- Frames satisfying `ok` are read back exactly, whatever follows them. -/
def Delimits (read : Bytes → Except ε (α × Bytes)) (encode : α → Bytes) (ok : α → Prop) : Prop :=
  ∀ frame rest, ok frame → read (encode frame ++ rest) = .ok (frame, rest)

/-- The concatenation of encoded frames. -/
def frames (encode : α → Bytes) (fs : List α) : Bytes := fs.flatMap encode

@[simp] theorem frames_nil : frames encode [] = [] := rfl

@[simp] theorem frames_cons (f : α) (fs : List α) :
    frames encode (f :: fs) = encode f ++ frames encode fs := rfl

@[simp] theorem frames_append (fs gs : List α) :
    frames encode (fs ++ gs) = frames encode fs ++ frames encode gs := by
  simp [frames]

/-- A scan passes over well-formed frames and continues behind them. -/
theorem scan_frames {ok : α → Prop} (progress : Progress read)
    (delimits : Delimits read encode ok) (tail : Bytes) :
    ∀ fs : List α, (∀ f ∈ fs, ok f) →
      scan read (frames encode fs ++ tail) =
        (fs ++ (scan read tail).1, (scan read tail).2)
  | [], _ => by simp
  | f :: fs, good => by
    have here := delimits f (frames encode fs ++ tail) (good f (by simp))
    have later := scan_frames progress delimits tail fs (fun g hg => good g (by simp [hg]))
    grind [frames_cons, scan_ok]

/-- **A torn tail is left behind.**  Behind well-formed frames, bytes the reader
refuses end the scan exactly at the boundary of those frames. -/
theorem scan_torn {ok : α → Prop} (progress : Progress read)
    (delimits : Delimits read encode ok) {tail : Bytes} {stop : ε}
    (refused : read tail = .error stop) (fs : List α) (good : ∀ f ∈ fs, ok f) :
    scan read (frames encode fs ++ tail) = (fs, tail) := by
  rw [scan_frames progress delimits tail fs good, scan_error refused]
  simp

/-- No strict prefix of an encoded frame is read as a frame. -/
def PrefixFree (read : Bytes → Except ε (α × Bytes)) (encode : α → Bytes) (ok : α → Prop) : Prop :=
  ∀ frame k, ok frame → k < (encode frame).length →
    ∃ stop, read ((encode frame).take k) = .error stop

/-- `got` are the frames of `fs` that lie completely in the first `k` bytes. -/
def CompleteBefore (encode : α → Bytes) (fs : List α) (k : Nat) (got : List α) : Prop :=
  ∃ count, count ≤ fs.length ∧ got = fs.take count ∧
    (frames encode (fs.take count)).length ≤ k ∧
    (count < fs.length → k < (frames encode (fs.take (count + 1))).length)

theorem CompleteBefore.cons {fs got : List α} {k : Nat} (f : α)
    (complete : CompleteBefore encode fs k got) :
    CompleteBefore encode (f :: fs) ((encode f).length + k) (f :: got) := by
  obtain ⟨count, bound, rfl, before, behind⟩ := complete
  refine ⟨count + 1, by simpa using bound, rfl, ?_, ?_⟩
  · simp [before]
  · simp; omega

theorem CompleteBefore.none {fs : List α} {k : Nat}
    (torn : ∀ f later, fs = f :: later → k < (encode f).length) :
    CompleteBefore encode fs k [] := by
  refine ⟨0, Nat.zero_le _, rfl, Nat.zero_le k, fun more => ?_⟩
  cases fs with
  | nil => exact absurd more (by simp)
  | cons f later => simp [torn]

/-- **A stream that is cut anywhere** is read up to the last complete frame. -/
theorem scan_cut {ok : α → Prop} (progress : Progress read) (delimits : Delimits read encode ok)
    (prefixFree : PrefixFree read encode ok) (fs : List α) (good : ∀ f ∈ fs, ok f) (k : Nat) :
    CompleteBefore encode fs k (scan read ((frames encode fs).take k)).1 := by
  induction fs generalizing k with
  | nil =>
    have empty : (scan read []).1 = [] := by
      cases step : read [] with
      | error stop => rw [scan_error step]
      | ok next =>
        have shorter := progress _ _ _ step
        grind
    rw [frames_nil, take_nil, empty]
    exact .none fun f later differ => by cases differ
  | cons f fs ih =>
    have first := good f (by simp)
    rw [frames_cons]
    by_cases whole : (encode f).length ≤ k
    · -- the first frame is complete
      obtain ⟨more, rfl⟩ := Nat.exists_eq_add_of_le whole
      rw [take_length_add_append, scan_ok progress (delimits f _ first)]
      exact (ih (fun g hg => good g (by simp [hg])) more).cons f
    · have cut : (encode f ++ frames encode fs).take k = (encode f).take k := by grind
      obtain ⟨stop, refused⟩ := prefixFree f k first (by omega)
      rw [cut, scan_error refused]
      refine .none fun g later same => ?_
      grind

end Encoder

end PubsubBroker.Theory
