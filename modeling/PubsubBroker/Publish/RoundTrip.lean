/-
# Publish.RoundTrip — records as `Producer.Publish` makes them, written and read

`internal/compress/compress.go` over the record format of `Storage.Record`.
`Publish` compresses the payload of a message and stores the codec in the message;
`encodeRecord` writes the JSON of that message, uncompressed, and copies the codec
into the header of a version-2 record.  `decodeRecord` takes that byte for the
compression of the JSON.  The key length is written into two bytes.

`RoundTrips` says what the two functions are for: records written one after the
other are read back in sequence, and the published payloads can be recovered.
The JSON and compression libraries are any that satisfy their own laws.
`roundTrips_iff` is the exact condition: short keys, and no codec in a version
that stores it.
-/
import PubsubBroker.Publish.Producer

namespace PubsubBroker.Publish

open Theory Storage List

/-! ## The compression package -/

/-- One compression format of the standard library. -/
structure Deflate where
  pack : Bytes → Bytes
  unpack : Bytes → Option Bytes
  unpack_pack : ∀ src, unpack (pack src) = some src

structure Compression where
  flate : Deflate
  zlib : Deflate

def codecNone : UInt8 := 0

def codecFlate : UInt8 := 1

def codecZlib : UInt8 := 2

def Compression.compress (C : Compression) (codec : UInt8) (src : Bytes) : Option Bytes :=
  if codec = codecNone then some src
  else if codec = codecFlate then some (C.flate.pack src)
  else if codec = codecZlib then some (C.zlib.pack src)
  else none

def Compression.decompress (C : Compression) (codec : UInt8) (src : Bytes) : Option Bytes :=
  if codec = codecNone then some src
  else if codec = codecFlate then C.flate.unpack src
  else if codec = codecZlib then C.zlib.unpack src
  else none

theorem Compression.decompress_compress {C : Compression} {codec : UInt8} {src packed : Bytes}
    (done : C.compress codec src = some packed) : C.decompress codec packed = some src := by
  unfold compress at done
  unfold decompress
  split at done
  · grind
  · rename_i some
    rw [if_neg some]
    split at done
    · rename_i flate
      cases done
      rw [if_pos flate, C.flate.unpack_pack]
    · rename_i notFlate
      rw [if_neg notFlate]
      split at done
      · rename_i zlib
        cases done
        rw [if_pos zlib, C.zlib.unpack_pack]
      · cases done

theorem Compression.compress_isSome (C : Compression) {codec : UInt8} (known : codec ≤ codecZlib)
    (src : Bytes) : (C.compress codec src).isSome = true := by
  have cases3 : codec = codecNone ∨ codec = codecFlate ∨ codec = codecZlib := by
    grind [codecNone, codecFlate, codecZlib]
  rcases cases3 with rfl | rfl | rfl <;> rfl

/-! ## Published messages -/

/-- The codec of a publish: the request's, or else the topic's. -/
def codecToUse (cfg : TopicConfig) (req : PublishRequest) : UInt8 :=
  if req.codec > 0 then req.codec else cfg.compressionCodec

/-- A message that `Publish` appends, with its offset and the clock reading of its
record. -/
structure Publication where
  cfg : TopicConfig
  req : PublishRequest
  stamp : Stamp
  partID : Int
  offset : Int
  now : Int
  known : codecToUse cfg req ≤ codecZlib
  offset64 : IsInt64 offset
  now64 : IsInt64 now

namespace Publication

def codec (p : Publication) : UInt8 := codecToUse p.cfg p.req

theorem compressed_eq (p : Publication) (C : Compression) :
    ∃ packed, C.compress p.codec p.req.payload = some packed ∧
      compressed C.compress p.cfg p.req (newMessage p.req p.stamp p.partID) =
        some { newMessage p.req p.stamp p.partID with payload := packed, codec := p.codec } := by
  obtain ⟨packed, done⟩ := Option.isSome_iff_exists.mp (C.compress_isSome p.known p.req.payload)
  refine ⟨packed, done, ?_⟩
  show (if p.codec ≠ 0 then _ else _) = _
  by_cases none : p.codec = 0
  · have same : p.req.payload = packed := by
      have : C.compress p.codec p.req.payload = some p.req.payload := by rw [none]; rfl
      exact Option.some.inj (this.symm.trans done)
    rw [if_neg (not_not.mpr none), none, ← same]
    rfl
  · rw [if_pos none]
    exact congrArg _ done

theorem compressed_isSome (p : Publication) (C : Compression) :
    (compressed C.compress p.cfg p.req (newMessage p.req p.stamp p.partID)).isSome = true := by
  obtain ⟨packed, -, done⟩ := p.compressed_eq C
  rw [done]
  rfl

/-- The message as it is written: compressed by `Publish`, with the offset that
`Segment.Write` gives it. -/
def message (p : Publication) (C : Compression) : Message :=
  ((compressed C.compress p.cfg p.req (newMessage p.req p.stamp p.partID)).get
    (p.compressed_isSome C)).setOffset p.offset

theorem message_eq (p : Publication) (C : Compression) :
    ∃ packed, C.compress p.codec p.req.payload = some packed ∧
      p.message C = { newMessage p.req p.stamp p.partID with
        payload := packed
        offset := p.offset
        codec := p.codec } := by
  obtain ⟨packed, done, eq⟩ := p.compressed_eq C
  refine ⟨packed, done, ?_⟩
  unfold message
  simp only [eq, Option.get_some]
  rfl

theorem message_key (p : Publication) (C : Compression) : (p.message C).key = p.req.key := by
  obtain ⟨packed, -, eq⟩ := p.message_eq C
  rw [eq]
  rfl

theorem message_codec (p : Publication) (C : Compression) : (p.message C).codec = p.codec := by
  obtain ⟨packed, -, eq⟩ := p.message_eq C
  rw [eq]

theorem message_payload (p : Publication) (C : Compression) :
    C.decompress (p.message C).codec (p.message C).payload = some p.req.payload := by
  obtain ⟨packed, done, eq⟩ := p.message_eq C
  rw [eq]
  exact Compression.decompress_compress done

end Publication

/-! ## Reading a sequence of records -/

section Sequence

variable {version : UInt8} {C : Compression} {K : Codecs}

/-- JSON represents the message exactly, in fewer than 4 GiB. -/
def Represents (K : Codecs) (m : Message) : Prop := K.exact m ∧ (K.marshal m).length < 2 ^ 32

def written (K : Codecs) (C : Compression) (version : UInt8) (ps : List Publication) : Bytes :=
  ps.flatMap fun p => encodeRecord K p.offset p.now (p.message C) version

/-- Records of these messages, written one after the other, are read back in
sequence to their end, and the payloads as published can be recovered, with every
JSON library that represents the messages and every compression library. -/
def RoundTrips (version : UInt8) (ps : List Publication) : Prop :=
  ∀ (C : Compression) (K : Codecs), K.decompress = C.decompress →
    (∀ p ∈ ps, Represents K (p.message C)) →
      scan (decodeRecord K version) (written K C version ps) =
          (ps.map fun p => (p.message C, p.offset), []) ∧
        ∀ p ∈ ps, C.decompress (p.message C).codec (p.message C).payload = some p.req.payload

/-- The key fits its length field, and no codec is stored with the record. -/
def Publication.Fits (version : UInt8) (p : Publication) : Prop :=
  p.req.key.length < 2 ^ 16 ∧ (version < recordVersion ∨ p.codec = codecNone)
deriving Decidable

def Publication.record (K : Codecs) (C : Compression) (version : UInt8) (p : Publication) : Record :=
  recordOf K p.offset p.now (p.message C) version

theorem Publication.record_readable {p : Publication} (fits : p.Fits version)
    (represents : Represents K (p.message C)) : Readable K version (p.record K C version) := by
  have key : (p.message C).key.length < 2 ^ 16 := by
    rw [p.message_key]
    exact fits.1
  have plain : version < recordVersion ∨ (p.message C).codec = 0 := by
    rw [p.message_codec]
    exact fits.2
  exact recordOf_readable key plain represents.1 represents.2 p.offset64 p.now64

theorem written_eq_frames (ps : List Publication) :
    written K C version ps = frames Record.raw (ps.map fun p => p.record K C version) := by
  unfold written frames
  rw [flatMap_map]
  rfl

theorem scan_decodeRecord (input : Bytes) :
    scan (decodeRecord K version) input =
      ((scan (readRecord K version) input).1.map (fun r => (r.msg, r.offset)),
        (scan (readRecord K version) input).2) :=
  scan_map (readRecord_progress K version) (fun r => (r.msg, r.offset)) input

/-- Fitting records in front of bytes that are refused are read back, and the
reader stops at those bytes. -/
theorem scan_written {ps : List Publication} (fits : ∀ p ∈ ps, p.Fits version)
    (represents : ∀ p ∈ ps, Represents K (p.message C)) {tail : Bytes} {stop : ReadError}
    (refused : readRecord K version tail = .error stop) :
    scan (decodeRecord K version) (written K C version ps ++ tail) =
      (ps.map fun p => (p.message C, p.offset), tail) := by
  have readable : ∀ r ∈ ps.map (fun p => p.record K C version), Readable K version r := by
    grind [Publication.record_readable]
  rw [scan_decodeRecord, written_eq_frames,
    scan_torn (readRecord_progress K version) (readable_delimits K version) refused _ readable,
    map_map]
  rfl

theorem roundTrips_of_fits {ps : List Publication} (fits : ∀ p ∈ ps, p.Fits version) :
    RoundTrips version ps := by
  intro C K _ represents
  refine ⟨?_, fun p _ => p.message_payload C⟩
  have read := scan_written fits represents (Segment.readRecord_nil K version)
  rwa [append_nil] at read

end Sequence

/-! ## Records that are not read back -/

section Awkward

variable {version : UInt8} {b : UInt8} {table : List Message}

/-- A compression format that marks what it packs with one byte. -/
def tagged (b : UInt8) : Deflate where
  pack src := (b + 1) :: src
  unpack src := if src.head? = some (b + 1) then some src.tail else none
  unpack_pack src := by simp

def taggedCompression (b : UInt8) : Compression := ⟨tagged b, tagged b⟩

/-- A JSON library for the messages of a table, up to their offsets.  Its output
starts with a byte that is neither `b` nor the mark of the compression. -/
def indexed (b : UInt8) (table : List Message) : Codecs where
  marshal m := (b + 2) :: (leBytes 8 (table.idxOf (m.setOffset 0)) ++ leBytes 8 (uint64 m.offset))
  unmarshal bytes :=
    if bytes.head? = some (b + 2) then
      (table[leNat (bytes.tail.take 8)]?).map (·.setOffset (int64 (leNat (bytes.tail.drop 8))))
    else none
  decompress := (taggedCompression b).decompress
  exact m := m.setOffset 0 ∈ table ∧ table.length < 2 ^ 64 ∧ IsInt64 m.offset
  exact_setOffset m offset offset64 exact := ⟨exact.1, exact.2.1, offset64⟩
  unmarshal_marshal m exact := by
    obtain ⟨known, few, offset64⟩ := exact
    have at_i : table[table.idxOf (m.setOffset 0)]? = some (m.setOffset 0) :=
      getElem?_idxOf known
    have small : table.idxOf (m.setOffset 0) < 256 ^ 8 :=
      lt_trans (idxOf_lt_length_of_mem known) few
    simp only [head?_cons, if_true, tail_cons, take_leBytes, drop_leBytes,
      leNat_leBytes small, at_i, int64_leNat_leBytes offset64.1 offset64.2, Option.map_some]
    rfl

theorem tagged_refuses {codec t : UInt8} {payload : Bytes} (head : payload.head? = some t)
    (unmarked : t ≠ b + 1) (packed : codec ≠ 0) :
    (taggedCompression b).decompress codec payload = none := by
  have refused : (tagged b).unpack payload = none := by
    simp [tagged, head, unmarked]
  have packed : codec ≠ codecNone := packed
  unfold Compression.decompress
  rw [if_neg packed]
  simp [taggedCompression, refused]

theorem openPayload_indexed {h : RecordHeader} {t : UInt8} {payload : Bytes}
    (head : payload.head? = some t) (unmarked : t ≠ b + 1)
    (notJson : h.codec = 0 → t ≠ b + 2) :
    ∃ e, openPayload (indexed b table) h payload = .error e := by
  unfold openPayload
  split
  · exact ⟨_, rfl⟩
  · by_cases packed : h.codec = 0
    · have refused : (indexed b table).unmarshal payload = none := by
        simp [indexed, head, notJson packed]
      simp only [packed, ne_eq, not_true_eq_false, if_false, refused]
      exact ⟨_, rfl⟩
    · have refused : (indexed b table).decompress h.codec payload = none :=
        tagged_refuses head unmarked packed
      simp only [ne_eq, packed, not_false_eq_true, if_true, refused]
      exact ⟨_, rfl⟩

theorem readRecord_refused {K : Codecs} {hdr tail : Bytes} {e : ReadError}
    (headerLength : hdr.length = recHeaderSize version)
    (enough : (parseHeader version hdr).keyLen + (parseHeader version hdr).payloadLen ≤ tail.length)
    (refused : openPayload K (parseHeader version hdr)
      ((tail.take ((parseHeader version hdr).keyLen + (parseHeader version hdr).payloadLen)).drop
        (parseHeader version hdr).keyLen) = .error e) :
    readRecord K version (hdr ++ tail) = .error e := by
  unfold readRecord
  rw [readFull_append_of_length headerLength]
  simp only [readFull, if_neg (not_lt.mpr enough), refused]

/-- The byte that a reader takes for the first of the payload when the key is too
long for its length field. -/
def Publication.shifted (p : Publication) : UInt8 := p.req.key.getD (p.req.key.length % 2 ^ 16) 0

theorem Publication.payload_head (p : Publication) (payload : Bytes) :
    (p.req.key ++ payload)[p.req.key.length % 2 ^ 16]? =
      if p.req.key.length < 2 ^ 16 then payload.head? else some p.shifted := by
  split
  · rename_i short
    rw [Nat.mod_eq_of_lt short, getElem?_append_right (le_refl _), Nat.sub_self,
      head?_eq_getElem?]
  · rename_i long
    have inside : p.req.key.length % 2 ^ 16 < p.req.key.length :=
      lt_of_lt_of_le (Nat.mod_lt _ (by decide)) (not_lt.mp long)
    grind [shifted]

/-- **A record that does not fit is refused** by a reader with these libraries. -/
theorem readRecord_unfit {p : Publication} (unfit : ¬ p.Fits version) (rest : Bytes) :
    ∃ e, readRecord (indexed p.shifted table) version
      (encodeRecord (indexed p.shifted table) p.offset p.now
        (p.message (taggedCompression p.shifted)) version ++ rest) = .error e := by
  let m := p.message (taggedCompression p.shifted)
  let payload := (indexed p.shifted table).marshal m
  let h : RecordHeader :=
    ⟨p.offset, p.now, m.key.length, payload.length, (checksumIEEE payload).toNat, m.codec⟩
  have key : m.key = p.req.key := p.message_key _
  have size : payload.length = 17 := by simp [payload, indexed]
  have parsed := @parseHeader_headerBytes_mod version h p.offset64 p.now64
    (by show payload.length < _; rw [size]; decide) (checksumIEEE_lt _)
  -- in front of the JSON the reader finds its first byte, or one of the key
  obtain ⟨t, at_t, unmarked, notJson⟩ : ∃ t,
      (p.req.key ++ (payload ++ rest))[p.req.key.length % 2 ^ 16]? = some t ∧ t ≠ p.shifted + 1 ∧
        ((if version ≥ recordVersion then m.codec else 0) = 0 → t ≠ p.shifted + 2) := by
    rw [p.payload_head]
    split
    · rename_i short
      refine ⟨p.shifted + 2, rfl, ?_, ?_⟩
      · simp
      · intro plain
        refine absurd ⟨short, ?_⟩ unfit
        split at plain
        · rw [p.message_codec] at plain
          exact .inr plain
        grind
    · simp
  have head : (((p.req.key ++ (payload ++ rest)).take
      (p.req.key.length % 2 ^ 16 + payload.length)).drop (p.req.key.length % 2 ^ 16)).head? =
      some t := by
    rw [head?_drop, getElem?_take_of_lt (by omega), at_t]
  obtain ⟨e, refused⟩ := @openPayload_indexed p.shifted table
    { h with
      keyLen := h.keyLen % 256 ^ 2
      codec := if version ≥ recordVersion then h.codec else 0 } t _ head unmarked notJson
  refine ⟨e, ?_⟩
  have read := @readRecord_refused version (indexed p.shifted table) (headerBytes version h)
    (p.req.key ++ (payload ++ rest)) e (headerBytes_length version h)
  rw [parsed] at read
  have le : p.req.key.length % 256 ^ 2 ≤ p.req.key.length := Nat.mod_le _ _
  have done := read (by simp only [h, key, length_append]; omega)
    (by simpa [h, key] using refused)
  simpa [encodeRecord, h, payload, m, key] using done

end Awkward

/-! ## The exact condition -/

theorem represents_indexed {ps : List Publication} (few : ps.length < 2 ^ 63) (b : UInt8) :
    ∀ p ∈ ps, Represents
      (indexed b (ps.map fun q => (q.message (taggedCompression b)).setOffset 0))
      (p.message (taggedCompression b)) := by
  intro p at_p
  refine ⟨⟨mem_map.mpr ⟨p, at_p, rfl⟩, ?_, p.offset64⟩, ?_⟩
  · rw [length_map]
    omega
  · simp [indexed]

theorem fits_of_roundTrips {version : UInt8} {ps : List Publication} (few : ps.length < 2 ^ 63)
    (round : RoundTrips version ps) : ∀ p ∈ ps, p.Fits version := by
  by_contra some
  -- the first record that does not fit hides itself and everything behind it
  have found : (ps.find? fun p => ¬ p.Fits version).isSome = true := by grind
  obtain ⟨p, first⟩ := Option.isSome_iff_exists.mp found
  obtain ⟨unfit, before, behind, split, fits⟩ := find?_eq_some_iff_append.mp first
  have unfit : ¬ p.Fits version := of_decide_eq_true unfit
  have fits : ∀ q ∈ before, q.Fits version := by grind
  let C := taggedCompression p.shifted
  let K := indexed p.shifted (ps.map fun q => (q.message C).setOffset 0)
  have represents : ∀ q ∈ ps, Represents K (q.message C) := represents_indexed few p.shifted
  obtain ⟨e, refused⟩ := @readRecord_unfit version (ps.map fun q => (q.message C).setOffset 0) p
    unfit (written K C version behind)
  have read := scan_written fits (fun q at_q => represents q (by simp [split, at_q])) refused
  have whole := (round C K rfl represents).1
  have parts : written K C version ps = written K C version before ++
      (encodeRecord K p.offset p.now (p.message C) version ++ written K C version behind) := by
    rw [split]
    simp [written]
  rw [parts, read] at whole
  have lengths := congrArg (fun result => result.1.length) whole
  simp [split] at lengths

/-- **When records round-trip.**  Records of published messages, written one after
the other, are read back exactly, with the payloads recoverable, for all libraries
that keep their laws, exactly when every key is shorter than 64 KiB and no message
is compressed, or the version is the one that does not store the codec. -/
theorem roundTrips_iff (version : UInt8) (ps : List Publication) (few : ps.length < 2 ^ 63) :
    RoundTrips version ps ↔
      ∀ p ∈ ps, p.req.key.length < 2 ^ 16 ∧ (version < recordVersion ∨ p.codec = codecNone) := by
  constructor
  · exact fits_of_roundTrips few
  · exact roundTrips_of_fits

/-- A message with the given key, compressed with the given codec. -/
def samplePublication (key : Bytes) (codec : UInt8) (known : codec ≤ codecZlib) : Publication where
  cfg := ⟨1, 0, by decide⟩
  req := ⟨"t", key, [1, 2, 3], [], atLeastOnce, 0, codec, none⟩
  stamp := ⟨"m", 7⟩
  partID := 0
  offset := 0
  now := 9
  known := by
    unfold codecToUse
    split
    · exact known
    · decide
  offset64 := by decide
  now64 := by decide

theorem roundTrips_iff_two :
    RoundTrips recordVersion [samplePublication [107] codecNone (by decide),
      samplePublication [] codecNone (by decide)] :=
  (roundTrips_iff recordVersion _ (by decide)).mpr (by decide)

/-- A zlib message in a version-2 segment, and a key of 64 KiB in either version. -/
theorem roundTrips_fails :
    ¬ RoundTrips recordVersion [samplePublication [107] codecZlib (by decide)] ∧
      ∀ version, ¬ RoundTrips version
        [samplePublication (List.replicate (2 ^ 16) 0) codecNone (by decide)] := by
  constructor
  · intro round
    have fits := fits_of_roundTrips (by decide) round _ (mem_singleton_self _)
    exact absurd fits (by decide)
  · intro version round
    have fits := fits_of_roundTrips (by decide) round _ (mem_singleton_self _)
    have short : (List.replicate (2 ^ 16) (0 : UInt8)).length < 2 ^ 16 := fits.1
    grind


end PubsubBroker.Publish
