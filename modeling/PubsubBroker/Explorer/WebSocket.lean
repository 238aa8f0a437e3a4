/-
# Explorer.WebSocket — frames read from a browser and written to it

`internal/wsutil/websocket.go`: `readFrame` and `ReadTextFrame`, and `writeFrame` with
the goroutines of `httpExplorerStream` that call it.

A reader takes the length from seven bits of the header or from an extension of two or
eight bytes, shifts it into a signed word and allocates that many bytes.  Nothing
compares the length with anything first, so `make` panics on a length with the top bit
set or beyond what the runtime allocates (`frame_panics`), and on no other
(`reader_robust`).  The reserved bits and the form of the length are not checked, so a
frame here is any with the right bytes in the right places.

A frame is written as two writes, of the header and of the payload.  The sink and the
status goroutine hold `sinkMu` over both; the read loop, which answers pings and closes,
does not hold it, and its frame can land between them (`frames_torn`).  `frames_intact`
is what holds while it does not.

The bytes of the peer are taken as a finite list, behind which every read fails, and a
write fails only after the connection is closed.
-/
import Mathlib.Data.List.Induction
import PubsubBroker.Theory.Framed
import PubsubBroker.Theory.Transition

namespace PubsubBroker.WebSocket

open Theory List

def opText : UInt8 := 0x1
def opClose : UInt8 := 0x8
def opPing : UInt8 := 0x9
def opPong : UInt8 := 0xA

/-! ## The reader -/

inductive Fault where
  | eof
  | fragmented
  | unmasked
  /-- `make` with a length out of range. -/
  | panic
  | write
  | closedByPeer
  | unsupported (opcode : UInt8)
deriving DecidableEq

def read (n : Nat) (input : Bytes) : Except Fault (Bytes × Bytes) :=
  match readFull n input with
  | none => .error .eof
  | some field => .ok field

/-- The length in the bytes of an extension, in a signed word. -/
def assemble (ext : Bytes) : Int :=
  (ext.foldl (fun (length : BitVec 64) b => length <<< 8 ||| b.toBitVec.setWidth 64) 0).toInt

/-- How many bytes of length follow the second byte. -/
def extLength (second : UInt8) : Nat :=
  if second &&& 0x7F = 126 then 2 else if second &&& 0x7F = 127 then 8 else 0

def lengthOf (second : UInt8) (ext : Bytes) : Int :=
  if extLength second = 0 then (second &&& 0x7F).toNat else assemble ext

def unmask (key payload : Bytes) : Bytes :=
  payload.mapIdx fun i b => b ^^^ key.getD (i % 4) 0

/-- The opcode, the payload and what is left.  `maxAlloc` is the largest slice the
runtime makes. -/
def readFrame (maxAlloc : Nat) : Bytes → Except Fault ((UInt8 × Bytes) × Bytes)
  | first :: second :: input =>
    if first &&& 0x80 = 0 then .error .fragmented
    else if second &&& 0x80 = 0 then .error .unmasked
    else do
      let (ext, input) ← read (extLength second) input
      let (key, input) ← read 4 input
      let length := lengthOf second ext
      if length < 0 ∨ (maxAlloc : Int) < length then .error .panic
      else do
        let (payload, rest) ← read length.toNat input
        .ok ((first &&& 0x0F, unmask key payload), rest)
  | _ => .error .eof

/-! ### Frames -/

/-- Everything in front of the payload of a masked frame. -/
structure Header where
  first : UInt8
  second : UInt8
  ext : Bytes
  key : Bytes
  final : first &&& 0x80 ≠ 0
  masked : second &&& 0x80 ≠ 0
  form : ext.length = extLength second
  four : key.length = 4

namespace Header

variable (h : Header)

def wire : Bytes := h.first :: h.second :: (h.ext ++ h.key)

def declared : Nat := if h.ext = [] then (h.second &&& 0x7F).toNat else beNat h.ext

def Allocatable (maxAlloc : Nat) : Prop := h.declared < 2 ^ 63 ∧ h.declared ≤ maxAlloc

end Header

theorem assemble_eq (ext : Bytes) : assemble ext = int64 (beNat ext) := by
  have word : (ext.foldl (fun (length : BitVec 64) b => length <<< 8 ||| b.toBitVec.setWidth 64)
      0).toNat = beNat ext % 2 ^ 64 := by
    induction ext using List.reverseRecOn with
    | nil => simp [beNat, leNat]
    | append_singleton ext b ih =>
      have byte := b.toNat_lt
      have low : b.toNat % 2 ^ 64 = b.toNat := Nat.mod_eq_of_lt (by omega)
      have high : beNat ext % 2 ^ 64 * 2 ^ 8 % 2 ^ 64 = 2 ^ 8 * (beNat ext % 2 ^ 56) := by omega
      rw [foldl_append, foldl_cons, foldl_nil, BitVec.toNat_or, BitVec.toNat_shiftLeft, ih,
        BitVec.toNat_setWidth, UInt8.toNat_toBitVec, low, Nat.shiftLeft_eq, high,
        ← Nat.two_pow_add_eq_or_of_lt (by omega), beNat_concat]
      omega
  unfold assemble int64
  grind

theorem Header.length_eq (h : Header) : lengthOf h.second h.ext = int64 h.declared := by
  unfold lengthOf Header.declared
  rw [← h.form, assemble_eq]
  cases h.ext with
  | nil =>
    have low := (h.second &&& 0x7F).toNat_lt
    simp only [length_nil, if_true]
    rw [int64_eq (by omega), if_pos (by omega)]
  | cons b bs => simp

theorem Header.declared_lt (h : Header) : h.declared < 2 ^ 64 := by
  unfold Header.declared
  split
  · exact lt_trans (h.second &&& 0x7F).toNat_lt (by norm_num)
  · have short : h.ext.length ≤ 8 := by grind [form, extLength]
    calc beNat h.ext < 256 ^ h.ext.length := beNat_lt h.ext
      _ ≤ 256 ^ 8 := Nat.pow_le_pow_right (by norm_num) short
      _ = 2 ^ 64 := by norm_num

theorem Header.allocatable_iff (h : Header) (maxAlloc : Nat) :
    h.Allocatable maxAlloc ↔
      ¬ (lengthOf h.second h.ext < 0 ∨ (maxAlloc : Int) < lengthOf h.second h.ext) := by
  have word := h.declared_lt
  rw [h.length_eq, Header.Allocatable, int64_eq word]
  split <;> omega

theorem read_ok {n : Nat} {input field rest : Bytes} (ok : read n input = .ok (field, rest)) :
    input = field ++ rest ∧ field.length = n := by
  unfold read at ok
  cases got : readFull n input with
  | none => simp [got] at ok
  | some split => grind [readFull_eq_some]

theorem read_append {n : Nat} {field : Bytes} (len : field.length = n) (rest : Bytes) :
    read n (field ++ rest) = .ok (field, rest) := by
  rw [read, readFull_append_of_length len]

theorem read_error {n : Nat} {input : Bytes} {fault : Fault} (failed : read n input = .error fault) :
    fault = .eof := by
  unfold read at failed
  split at failed <;> cases failed
  rfl

/-- **What the reader does behind a header.** -/
theorem readFrame_header (maxAlloc : Nat) (h : Header) (input : Bytes) :
    readFrame maxAlloc (h.wire ++ input) =
      if lengthOf h.second h.ext < 0 ∨ (maxAlloc : Int) < lengthOf h.second h.ext then
        .error .panic
      else (read (lengthOf h.second h.ext).toNat input).map fun split =>
        ((h.first &&& 0x0F, unmask h.key split.1), split.2) := by
  simp only [Header.wire, cons_append, append_assoc, readFrame, if_neg h.final, if_neg h.masked,
    read_append h.form, read_append h.four, bind, Except.bind]
  split
  · rfl
  · cases read (lengthOf h.second h.ext).toNat input <;> rfl

/-- Without a header there is an error and no panic. -/
theorem readFrame_headless (maxAlloc : Nat) {input : Bytes}
    (none : ∀ (h : Header) rest, input ≠ h.wire ++ rest) :
    ∃ fault, readFrame maxAlloc input = .error fault ∧ fault ≠ .panic := by
  match input with
  | [] | [_] => exact ⟨_, rfl, nofun⟩
  | first :: second :: input =>
    by_cases final : first &&& 0x80 = 0
    · exact ⟨_, if_pos final, nofun⟩
    by_cases masked : second &&& 0x80 = 0
    · exact ⟨.unmasked, by rw [readFrame, if_neg final, if_pos masked], nofun⟩
    rw [readFrame, if_neg final, if_neg masked]
    cases ext : read (extLength second) input with
    | error fault => exact ⟨fault, rfl, by rw [read_error ext]; nofun⟩
    | ok got =>
      cases key : read 4 got.2 with
      | error fault => exact ⟨fault, by simp [bind, Except.bind, key], by rw [read_error key]; nofun⟩
      | ok got' =>
        obtain ⟨split, form⟩ := read_ok ext
        obtain ⟨split', four⟩ := read_ok key
        refine absurd ?_ (none ⟨first, second, got.1, got'.1, final, masked, form, four⟩ got'.2)
        simp [Header.wire, split, split']

theorem readFrame_panics_iff (maxAlloc : Nat) (input : Bytes) :
    readFrame maxAlloc input ≠ .error .panic ↔
      ∀ (h : Header) (rest : Bytes), input = h.wire ++ rest → h.Allocatable maxAlloc := by
  constructor
  · rintro calm h rest rfl
    rw [h.allocatable_iff]
    intro bad
    exact calm (by rw [readFrame_header, if_pos bad])
  · intro all panics
    by_cases headed : ∃ (h : Header) (rest : Bytes), input = h.wire ++ rest
    · obtain ⟨h, rest, rfl⟩ := headed
      rw [readFrame_header, if_neg ((h.allocatable_iff maxAlloc).mp (all h rest rfl))] at panics
      cases got : read (lengthOf h.second h.ext).toNat rest with
      | error fault =>
        rw [got, read_error got] at panics
        cases panics
      | ok split =>
        rw [got] at panics
        cases panics
    · push Not at headed
      obtain ⟨fault, failed, calm⟩ := readFrame_headless maxAlloc headed
      grind

/-- **A frame that was read is in the stream.** -/
theorem readFrame_ok {maxAlloc : Nat} {input payload rest : Bytes} {opcode : UInt8}
    (ok : readFrame maxAlloc input = .ok ((opcode, payload), rest)) :
    ∃ (h : Header) (masked : Bytes), masked.length = h.declared ∧
      input = h.wire ++ masked ++ rest ∧ opcode = h.first &&& 0x0F ∧
      payload = unmask h.key masked := by
  by_cases headed : ∃ (h : Header) (rest : Bytes), input = h.wire ++ rest
  · obtain ⟨h, more, rfl⟩ := headed
    have fits := (readFrame_panics_iff maxAlloc _).mp (by rw [ok]; nofun) h more rfl
    have exactly : lengthOf h.second h.ext = h.declared := by
      rw [h.length_eq, int64_eq h.declared_lt, if_pos fits.1]
    rw [readFrame_header, if_neg ((h.allocatable_iff maxAlloc).mp fits), exactly,
      Int.toNat_natCast] at ok
    cases got : read h.declared more with
    | error fault =>
      rw [got] at ok
      cases ok
    | ok split =>
      rw [got] at ok
      cases ok
      grind [read_ok]
  · push Not at headed
    obtain ⟨fault, failed, -⟩ := readFrame_headless maxAlloc headed
    rw [failed] at ok
    cases ok

theorem readFrame_progress (maxAlloc : Nat) : Progress (readFrame maxAlloc) := by
  rintro input ⟨opcode, payload⟩ rest ok
  grind [readFrame_ok, Header.wire]

/-- `ReadTextFrame`: the text and what is left.  `sent` says whether the pong is written,
by what is left to read then. -/
def readTextFrame (maxAlloc : Nat) (sent : Bytes → Bool) (input : Bytes) :
    Except Fault (Bytes × Bytes) :=
  match _ : readFrame maxAlloc input with
  | .error fault => .error fault
  | .ok ((opcode, payload), rest) =>
    if opcode = opText then .ok (payload, rest)
    else if opcode = opPing then
      if sent rest then readTextFrame maxAlloc sent rest else .error .write
    else if opcode = opPong then readTextFrame maxAlloc sent rest
    else if opcode = opClose then .error .closedByPeer
    else .error (.unsupported opcode)
termination_by input.length
decreasing_by all_goals exact readFrame_progress maxAlloc _ _ _ (by assumption)

/-- The reader passes over pings it answers and over pongs. -/
inductive Skips (maxAlloc : Nat) (sent : Bytes → Bool) : Bytes → Bytes → Prop where
  | refl (input : Bytes) : Skips maxAlloc sent input input
  | skip {opcode : UInt8} {input payload rest last : Bytes}
      (step : readFrame maxAlloc input = .ok ((opcode, payload), rest))
      (passed : opcode = opPing ∧ sent rest = true ∨ opcode = opPong)
      (later : Skips maxAlloc sent rest last) : Skips maxAlloc sent input last

section Text

variable {maxAlloc : Nat} {sent : Bytes → Bool}

theorem Skips.readTextFrame_eq {input last : Bytes} (skips : Skips maxAlloc sent input last) :
    readTextFrame maxAlloc sent input = readTextFrame maxAlloc sent last := by
  induction skips with
  | refl => rfl
  | skip step passed _ ih =>
    rw [← ih, readTextFrame, step]
    grind [opPing, opText, opPong]

/-- What the reader returns is about the first frame it does not pass over. -/
theorem readTextFrame_last (sent : Bytes → Bool) (input : Bytes) : ∃ last, Skips maxAlloc sent input last ∧
    (∀ text rest, readTextFrame maxAlloc sent input = .ok (text, rest) →
      readFrame maxAlloc last = .ok ((opText, text), rest)) ∧
    (readTextFrame maxAlloc sent input = .error .panic →
      readFrame maxAlloc last = .error .panic) := by
  fun_induction readTextFrame maxAlloc sent input with
  | case1 input fault step => exact ⟨input, .refl _, nofun, by rintro ⟨⟩; exact step⟩
  | case2 input payload rest step => exact ⟨input, .refl _, by rintro _ _ ⟨⟩; exact step, nofun⟩
  | case3 input payload rest answered step _ ih =>
    obtain ⟨last, skips, both⟩ := ih
    exact ⟨last, .skip step (.inl ⟨rfl, answered⟩) skips, both⟩
  | case5 input payload rest step _ _ ih =>
    obtain ⟨last, skips, both⟩ := ih
    exact ⟨last, .skip step (.inr rfl) skips, both⟩
  | _ => exact ⟨_, .refl _, nofun, nofun⟩

end Text

/-- **The reader on any bytes.**  `readFrame` panics exactly on a header whose length is
not that of a slice, and otherwise fails or returns the payload of a masked frame at the
start of the stream; `ReadTextFrame` does the same at the first frame that is not a ping
or a pong. -/
theorem reader_robust (maxAlloc : Nat) (sent : Bytes → Bool) (input : Bytes) :
    (readFrame maxAlloc input ≠ .error .panic ↔
      ∀ (h : Header) (rest : Bytes), input = h.wire ++ rest → h.Allocatable maxAlloc) ∧
    (∀ opcode payload rest, readFrame maxAlloc input = .ok ((opcode, payload), rest) →
      ∃ (h : Header) (masked : Bytes), masked.length = h.declared ∧
        input = h.wire ++ masked ++ rest ∧ opcode = h.first &&& 0x0F ∧
        payload = unmask h.key masked) ∧
    (readTextFrame maxAlloc sent input ≠ .error .panic ↔
      ∀ last, Skips maxAlloc sent input last →
        ∀ (h : Header) (rest : Bytes), last = h.wire ++ rest → h.Allocatable maxAlloc) ∧
    ∀ text rest, readTextFrame maxAlloc sent input = .ok (text, rest) →
      ∃ last, Skips maxAlloc sent input last ∧
        readFrame maxAlloc last = .ok ((opText, text), rest) := by
  obtain ⟨last, skips, returned, panicked⟩ := readTextFrame_last sent input
  refine ⟨readFrame_panics_iff .., fun _ _ _ ok => readFrame_ok ok, ⟨fun calm last' skips' => ?_,
    fun all panics => (readFrame_panics_iff ..).mpr (all last skips) (panicked panics)⟩,
    fun text rest ok => ⟨last, skips, returned text rest ok⟩⟩
  refine (readFrame_panics_iff ..).mp fun panics => calm ?_
  rw [skips'.readTextFrame_eq, readTextFrame, panics]

/-- A text frame that declares a payload of `2 ^ 64 - 1` bytes. -/
theorem frame_panics : readFrame (2 ^ 48)
    [0x81, 0xFF, 0xFF, 0xFF, 0xFF, 0xFF, 0xFF, 0xFF, 0xFF, 0xFF, 1, 2, 3, 4] = .error .panic := by
  decide +kernel

/-! ## The writers -/

/-- The header `writeFrame` writes, for a payload of `n` bytes. -/
def header (opcode : UInt8) (n : Nat) : Bytes :=
  if n ≤ 125 then [0x80 ||| opcode, UInt8.ofNat n]
  else if n ≤ 0xFFFF then [0x80 ||| opcode, 126] ++ beBytes 2 n
  else [0x80 ||| opcode, 127] ++ beBytes 8 n

structure State where
  /-- The bytes on the connection. -/
  out : Bytes
  /-- What the holder of `sinkMu` has still to write of its frame. -/
  text : Option Bytes
  /-- What the read loop has still to write of its frame. -/
  control : Option Bytes
  hungUp : Bool

def State.init : State := ⟨[], none, none, false⟩

inductive Event where
  /-- The sink or the status goroutine takes `sinkMu` and writes a header. -/
  | text (data : Bytes)
  | textPayload
  /-- The read loop writes the header of a pong or a close frame. -/
  | control (opcode : UInt8) (payload : Bytes)
  | controlPayload
  /-- The connection is closed, by the goroutine of the read loop. -/
  | hangUp

/-- There is no second write for an empty payload. -/
def remainder (payload : Bytes) : Option Bytes := if payload = [] then none else some payload

def step (s : State) : Event → Option State
  | .text data =>
    if s.text.isSome then none
    else if s.hungUp then some s
    else some { s with out := s.out ++ header opText data.length, text := remainder data }
  | .textPayload =>
    s.text.map fun data => { s with out := if s.hungUp then s.out else s.out ++ data, text := none }
  | .control opcode payload =>
    if s.control.isSome ∨ s.hungUp then none
    else some { s with out := s.out ++ header opcode payload.length, control := remainder payload }
  | .controlPayload =>
    s.control.map fun payload => { s with out := s.out ++ payload, control := none }
  | .hangUp => if s.control.isSome then none else some { s with hungUp := true }

/-- No frame is begun, and the connection is not closed, between the two writes of
another. -/
def Alone (s : State) : Event → Prop
  | .text _ => s.control = none
  | .control _ _ | .hangUp => s.text = none
  | _ => True

instance (s : State) : DecidablePred (Alone s) := by
  rintro (_ | _) <;> unfold Alone <;> infer_instance

def wire (frame : UInt8 × Bytes) : Bytes := header frame.1 frame.2.length ++ frame.2

def Whole (out : Bytes) : Prop := ∃ fs, out = frames wire fs

theorem Whole.append {out : Bytes} (whole : Whole out) (opcode : UInt8) (payload : Bytes) :
    Whole (out ++ header opcode payload.length ++ (remainder payload).getD []) := by
  obtain ⟨fs, rfl⟩ := whole
  have all : (remainder payload).getD [] = payload := by grind [remainder]
  refine ⟨fs ++ [(opcode, payload)], ?_⟩
  rw [all, frames_append]
  simp [frames, wire]

structure Inv (s : State) : Prop where
  one : s.text = none ∨ s.control = none
  whole : Whole (s.out ++ s.text.getD [] ++ s.control.getD [])
  quiet : s.hungUp = true → s.text = none

theorem inv_step {s s' : State} {e : Event} (inv : Inv s) (alone : Alone s e)
    (taken : step s e = some s') : Inv s' := by
  have whole := inv.whole
  revert taken
  fun_cases step s e with
  | case2 =>
    rintro ⟨⟩
    exact inv
  | case3 data free up =>
    rintro ⟨⟩
    have idle : s.control = none := alone
    simp only [Option.not_isSome_iff_eq_none.mp free, idle, Option.getD_none, append_nil] at whole
    refine ⟨.inr idle, ?_, fun down => absurd down up⟩
    grind [Whole.append]
  | case4 =>
    intro taken
    obtain ⟨data, held, rfl⟩ := Option.map_eq_some_iff.mp taken
    have up : ¬ s.hungUp = true := fun down => by simp [inv.quiet down] at held
    refine ⟨.inl rfl, ?_, fun _ => rfl⟩
    simpa [up, held] using whole
  | case6 opcode payload free =>
    rintro ⟨⟩
    have idle : s.text = none := alone
    push Not at free
    simp only [Option.not_isSome_iff_eq_none.mp free.1, idle, Option.getD_none, append_nil] at whole
    refine ⟨.inl idle, ?_, fun _ => idle⟩
    grind [Whole.append]
  | case7 =>
    intro taken
    obtain ⟨payload, held, rfl⟩ := Option.map_eq_some_iff.mp taken
    have idle : s.text = none := inv.one.resolve_right (by simp [held])
    refine ⟨.inl idle, ?_, fun _ => idle⟩
    simpa [idle, held] using whole
  | case9 =>
    rintro ⟨⟩
    exact ⟨inv.one, whole, fun _ => alone⟩
  | _ => rintro ⟨⟩

/-- **Frames stay intact** in every run in which each is begun between frames: with what
the one writer in the middle has still to write, the bytes are whole frames. -/
theorem frames_intact (s : State) (reached : Reaches step Alone State.init s) :
    (s.text = none ∨ s.control = none) ∧ Whole (s.out ++ s.text.getD [] ++ s.control.getD []) := by
  have inv : Inv s := by
    induction reached with
    | init => exact ⟨.inl rfl, ⟨[], rfl⟩, nofun⟩
    | step _ alone taken ih => exact inv_step ih alone taken
  exact ⟨inv.one, inv.whole⟩

theorem frames_intact_sample : ∃ s, Reaches step Alone State.init s ∧
    s.out = [0x81, 1, 97, 0x8A, 0] ∧ Whole s.out := by
  refine Reaches.exists_run_of
    (P := fun s => s.out = [0x81, 1, 97, 0x8A, 0] ∧ s.text = none ∧ s.control = none)
    [.text [97], .textPayload, .control opPong []] (by decide +kernel) ?_
  rintro s reached ⟨out, text, control⟩
  have whole := (frames_intact s reached).2
  simp only [text, control, Option.getD_none, append_nil] at whole
  exact ⟨out, whole⟩

/-- Every frame begins with its final bit. -/
theorem Whole.first {b : UInt8} {out : Bytes} (whole : Whole (b :: out)) : 0x80 ≤ b := by
  obtain ⟨fs, eq⟩ := whole
  cases fs with
  | nil => cases eq
  | cons f fs =>
    have first : b = 0x80 ||| f.1 := by grind [frames_cons, wire, header]
    rw [first, UInt8.le_iff_toNat_le, UInt8.toNat_or]
    exact Nat.left_le_or

theorem Whole.behind {b n : UInt8} {out : Bytes} (short : n.toNat ≤ 125)
    (whole : Whole (b :: n :: out)) : Whole (out.drop n.toNat) := by
  obtain ⟨fs, eq⟩ := whole
  cases fs with
  | nil => cases eq
  | cons f fs =>
    refine ⟨fs, ?_⟩
    simp only [frames_cons, wire, header] at eq
    split_ifs at eq with small
    · obtain ⟨-, rfl, rfl⟩ : _ ∧ n = _ ∧ out = f.2 ++ frames wire fs := by simpa using eq
      rw [UInt8.toNat_ofNat', Nat.mod_eq_of_lt (by omega), drop_left]
    all_goals
      obtain ⟨-, rfl, -⟩ : _ ∧ n = _ ∧ _ := by simpa using eq
      exact absurd short (by decide)

/-- **A close frame between the two writes of a text frame.**  The browser takes the first
byte of the close frame for the text. -/
theorem frames_torn : ∃ s, Reaches step (fun _ _ => True) State.init s ∧
    s.text = none ∧ s.control = none ∧ s.out = [0x81, 1, 0x88, 0, 97] ∧ ¬ Whole s.out := by
  refine Reaches.exists_run_of
    (P := fun s => s.text = none ∧ s.control = none ∧ s.out = [0x81, 1, 0x88, 0, 97])
    [.text [97], .control opClose [], .textPayload] (by decide +kernel) ?_
  rintro s - ⟨text, control, out⟩
  refine ⟨text, control, out, fun whole => ?_⟩
  rw [out] at whole
  exact absurd (whole.behind (by decide)).first (by decide)

end PubsubBroker.WebSocket
