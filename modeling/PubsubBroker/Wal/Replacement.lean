/-
# Wal.Replacement — a crash during `Truncate`

`Truncate` in `internal/wal/wal.go` cuts the file to zero bytes and then writes the
replacement entries one by one, each with its own sync.  A process that dies on the way
leaves the old file, or some of the new entries and a part of the next one (`crashFile`).

Recovery takes what it finds for the contents of the log: `openFile_crash` says that it
returns exactly the new entries that were completely written.  So the replacement is
atomic only at the ends: before the cut and behind the last entry, or when the new
entries written so far happen to be the old ones (`replaced_iff`).
-/
import PubsubBroker.Wal.Recovery

namespace PubsubBroker.Wal

open Theory List

/-- Where the process dies: before the file is cut, or in the call of `writeEntry` for the
entry with this index, at the point that a fault of the call would be.  Behind the last
entry the fault does not matter. -/
inductive Crash where
  | beforeTruncate
  | writing (i : Nat) (point : Fault)

def crashFile (w : WAL) (newEntries : List Bytes) : Crash → Bytes
  | .beforeTruncate => w.file
  | .writing i point =>
    let cut := truncate w (newEntries.take i)
    match newEntries[i]? with
    | none => cut.file
    | some data => (writeEntry cut cut.nextOffset data (some point)).1.file

/-- The new entries that are completely on disk. -/
def kept (newEntries : List Bytes) (i : Nat) (point : Fault) : List Bytes :=
  match newEntries[i]? with
  | none => newEntries
  | some data =>
    if headerSize + data.length ≤ (Call.mk data (some point)).written
    then newEntries.take i ++ [data] else newEntries.take i

variable {newEntries : List Bytes}

theorem kept_subset {i : Nat} {point : Fault} : kept newEntries i point ⊆ newEntries := by
  grind [kept]

theorem kept_length {i : Nat} {point : Fault} :
    (kept newEntries i point).length ≤ newEntries.length := by
  unfold kept
  cases next : newEntries[i]? with
  | none => exact le_refl _
  | some data => grind

theorem truncate_file (w : WAL) (ds : List Bytes) :
    truncate w ds = ⟨frames entryBytes (numbered 0 ds), ds.length⟩ := by
  rw [truncate_eq, appendAll_eq]
  simp

theorem crashFile_kept (w : WAL) (small : ∀ d ∈ newEntries, d.length < 2 ^ 32)
    (count : (newEntries.length : Int) ≤ 2 ^ 63) (i : Nat) (point : Fault) :
    ∃ tail stop, readEntry tail = .error stop ∧
      crashFile w newEntries (.writing i point) =
        frames entryBytes (numbered 0 (kept newEntries i point)) ++ tail := by
  unfold crashFile kept
  cases next : newEntries[i]? with
  | none => grind [take_of_length_le, readEntry_nil, truncate_file]
  | some data =>
    have bound := (List.getElem?_eq_some_iff.mp next).1
    have before : (newEntries.take i).length = i := by
      rw [length_take]
      omega
    have part := writtenBytes_prefix (i : Int) data (some point)
    have len := writtenBytes_length (i : Int) ⟨data, some point⟩
    have disk : (writeEntry (truncate w (newEntries.take i))
        (truncate w (newEntries.take i)).nextOffset data (some point)).1.file =
        frames entryBytes (numbered 0 (newEntries.take i)) ++
          writtenBytes i data (some point) := by
      rw [writeEntry, truncate_file, before]
    simp only [next, disk]
    by_cases whole : headerSize + data.length ≤ (Call.mk data (some point)).written
    · rw [if_pos whole]
      have eq : writtenBytes i data (some point) = entryBytes ⟨i, data⟩ := by
        grind [IsPrefix.eq_of_length_le, entryBytes_length]
      refine ⟨[], .header, readEntry_nil, ?_⟩
      rw [eq, numbered_append, frames_append, before]
      simp [numbered]
    · rw [if_neg whole]
      have fits : Entry.Fits ⟨i, data⟩ :=
        ⟨small data (mem_of_getElem? next), by simp only; omega, by simp only; omega⟩
      have cut : (Call.mk data (some point)).written < (entryBytes ⟨i, data⟩).length := by
        simp [entryBytes_length]; omega
      obtain ⟨stop, refused⟩ := readEntry_prefix fits cut
      refine ⟨_, stop, ?_, rfl⟩
      have eq := prefix_iff_eq_take.mp part
      grind

/-- **Recovery after a crash in `Truncate`** returns the new entries that were completely
written. -/
theorem openFile_crash (w : WAL) (small : ∀ d ∈ newEntries, d.length < 2 ^ 32)
    (count : (newEntries.length : Int) ≤ 2 ^ 63) (i : Nat) (point : Fault) :
    (openFile (crashFile w newEntries (.writing i point))).2 =
      numbered 0 (kept newEntries i point) := by
  obtain ⟨tail, stop, refused, disk⟩ := crashFile_kept w small count i point
  have short := @kept_length newEntries i point
  rw [openFile, disk, recover_appendAll (fun d mem => small d (kept_subset mem)) (by omega) refused
    fun _ => rfl]

/-- Recovery returns the old entries or the new ones. -/
def Replaced (w : WAL) (newEntries : List Bytes) (c : Crash) : Prop :=
  (openFile (crashFile w newEntries c)).2 = (openFile w.file).2 ∨
    (openFile (crashFile w newEntries c)).2 = numbered 0 newEntries

/-- The process dies before the file is cut, or when all new entries are completely
written, or when those that are happen to be the old entries. -/
def Harmless (w : WAL) (newEntries : List Bytes) : Crash → Prop
  | .beforeTruncate => True
  | .writing i point =>
    kept newEntries i point = newEntries ∨
      numbered 0 (kept newEntries i point) = (openFile w.file).2

theorem numbered_data (n : Int) (ds : List Bytes) : (numbered n ds).map Entry.data = ds := by
  induction ds generalizing n with
  | nil => rfl
  | cons d ds ih => rw [numbered, map_cons, ih]

theorem replaced_iff (w : WAL) (small : ∀ d ∈ newEntries, d.length < 2 ^ 32)
    (count : (newEntries.length : Int) ≤ 2 ^ 63) (c : Crash) :
    Replaced w newEntries c ↔ Harmless w newEntries c := by
  cases c with
  | beforeTruncate => exact ⟨fun _ => trivial, fun _ => .inl rfl⟩
  | writing i point => grind [Replaced, Harmless, openFile_crash, numbered_data]

end PubsubBroker.Wal
