/-
# Explorer.Codec — the reader takes back what the writer writes

A browser sends the frames of `writeFrame` with the mask bit set, a key behind the length and the
payload combined with the key.  The writer and the reader choose between the three forms of the
length by different tests; `Frame.header_eq` gives the header of any frame as one the reader
parses, with the length of the payload as the one it declares, and a stream of frames comes back
frame by frame (`codec_round_trip`).
-/
import PubsubBroker.Explorer.WebSocket

namespace PubsubBroker.WebSocket

open Theory List

structure Frame where
  opcode : UInt8
  payload : Bytes
  key : Bytes
  fourBits : opcode.toNat < 16
  short : payload.length < 2 ^ 63
  four : key.length = 4

/-- What the client makes of the two writes of `writeFrame`. -/
def clientFrame (key : Bytes) : Bytes → Bytes → Bytes
  | first :: second :: length, payload =>
    first :: (second ||| 0x80) :: (length ++ key) ++ unmask key payload
  | hdr, _ => hdr

def Frame.bytes (f : Frame) : Bytes := clientFrame f.key (header f.opcode f.payload.length) f.payload

theorem unmask_unmask (key payload : Bytes) : unmask key (unmask key payload) = payload := by
  apply ext_getElem?
  intro i
  simp [unmask, UInt8.xor_assoc, Function.comp_def]

theorem first_byte : ∀ n < 16, (0x80 ||| UInt8.ofNat n) &&& 0x80 ≠ 0 ∧
    (0x80 ||| UInt8.ofNat n) &&& 0x0F = UInt8.ofNat n := by
  decide +kernel

theorem short_length : ∀ n < 126, (UInt8.ofNat n ||| 0x80) &&& 0x80 ≠ 0 ∧
    extLength (UInt8.ofNat n ||| 0x80) = 0 ∧ ((UInt8.ofNat n ||| 0x80) &&& 0x7F).toNat = n := by
  decide +kernel

theorem declared_ext {h : Header} {w n : Nat} (ext : h.ext = beBytes w n) (longer : w ≠ 0)
    (fits : n < 256 ^ w) : h.declared = n := by
  have some : h.ext ≠ [] := by
    rw [ext, ← length_pos_iff_ne_nil, beBytes_length]
    omega
  rw [Header.declared, if_neg some, ext, beNat_beBytes_mod, Nat.mod_eq_of_lt fits]

/-- The header of the frame is one that declares the payload. -/
theorem Frame.header_eq (f : Frame) : ∃ h : Header, h.key = f.key ∧
    h.first &&& 0x0F = f.opcode ∧ h.declared = f.payload.length ∧
    f.bytes = h.wire ++ unmask f.key f.payload := by
  obtain ⟨opcode, payload, key, fourBits, short, four⟩ := f
  obtain ⟨final, low⟩ := first_byte opcode.toNat fourBits
  rw [UInt8.ofNat_toNat] at final low
  simp only [Frame.bytes, header]
  split
  case isTrue small =>
    obtain ⟨masked, form, value⟩ := short_length payload.length (by omega)
    exact ⟨⟨_, _, [], key, final, masked, form.symm, four⟩, rfl, low, value, rfl⟩
  case isFalse =>
    split
    case isTrue medium =>
      exact ⟨⟨_, 126 ||| 0x80, beBytes 2 payload.length, key, final, by decide,
        (beBytes_length ..).trans (by decide), four⟩, rfl, low,
        declared_ext rfl (by decide) (by norm_num; omega), rfl⟩
    case isFalse =>
      exact ⟨⟨_, 127 ||| 0x80, beBytes 8 payload.length, key, final, by decide,
        (beBytes_length ..).trans (by decide), four⟩, rfl, low,
        declared_ext rfl (by decide) (by norm_num; omega), rfl⟩

theorem readFrame_bytes (maxAlloc : Nat) (f : Frame) (room : f.payload.length ≤ maxAlloc)
    (rest : Bytes) : readFrame maxAlloc (f.bytes ++ rest) = .ok ((f.opcode, f.payload), rest) := by
  obtain ⟨h, key, opcode, declared, bytes⟩ := f.header_eq
  have short := f.short
  have length : lengthOf h.second h.ext = f.payload.length := by
    rw [h.length_eq, declared, int64_eq (by omega), if_pos short]
  rw [bytes, append_assoc, readFrame_header, length, if_neg (by omega), Int.toNat_natCast,
    read_append (by simp [unmask]), Except.map, opcode, key, unmask_unmask]

/-- **The codec.**  Every list of frames, with payloads the runtime can allocate, is read back one
after the other. -/
theorem codec_round_trip (maxAlloc : Nat) (fs : List Frame)
    (room : ∀ f ∈ fs, f.payload.length ≤ maxAlloc) :
    scan (readFrame maxAlloc) (fs.flatMap Frame.bytes) =
      (fs.map fun f => (f.opcode, f.payload), []) := by
  induction fs with
  | nil => exact scan_error rfl
  | cons f fs ih =>
    obtain ⟨first, rest⟩ := forall_mem_cons.mp room
    rw [flatMap_cons, scan_ok (readFrame_progress maxAlloc) (readFrame_bytes maxAlloc f first _),
      ih rest, map_cons]

/-- A greeting and a pong. -/
def sampleFrames : List Frame :=
  [⟨0x1, [104, 105], [1, 2, 3, 4], by decide, by decide, rfl⟩,
    ⟨0xA, [], [0, 0, 0, 0], by decide, by decide, rfl⟩]

theorem codec_round_trip_sample :
    scan (readFrame 2) (sampleFrames.flatMap Frame.bytes) = ([(0x1, [104, 105]), (0xA, [])], []) :=
  codec_round_trip 2 sampleFrames (by simp [sampleFrames])

end PubsubBroker.WebSocket
