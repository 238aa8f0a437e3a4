/-
# Raft.Commitment — what a quorum of acknowledgements makes permanent

State Machine Safety for the moves of `Raft.Protocol`, in every run in which no
term has two leaders and replies are sound (`SoundReplies`).  Positions are
0-based here: position `k` of a log is index `k + 1`.

The usual argument looks back from an election to the acknowledgements it must
have seen.  As an invariant it has to look forward as well, because an entry may
be committed after a later leader was elected: `Choosable` says that a quorum
has acknowledged a position or could still do so, and every later leader has the
choosable entries of earlier terms (`Commitment.complete`).

Votes are not assumed to be unique here.  What is used of a vote is only that
the voter's log, at that moment, was not ahead of the candidate's.
-/
import PubsubBroker.Raft.LogMatching

namespace PubsubBroker.Raft

open Theory List

variable {C : Cluster} {s : Proto} {m : Move}

/-! ## Acknowledged, choosable, committed -/

/-- Node `v` holds position `k` of the leader log of term `t`: it said so, or
led the term. -/
def Acked (s : Proto) (v : NodeID) (t k : Nat) : Prop :=
  (∃ c n, k < n ∧ .ack v c t n ∈ s.msgs) ∨ ∃ e ∈ s.elected, e.leader = v ∧ e.term = t

/-- Position `k` of the leader log of term `t` is an entry of that term. -/
def Marks (s : Proto) (t k : Nat) : Prop :=
  ∃ x, (s.leaderLog t)[k]? = some x ∧ x.term = t

/-- A quorum holds the position or may still come to hold it in term `t`. -/
def Choosable (C : Cluster) (s : Proto) (t k : Nat) : Prop :=
  ∃ q, Quorum C.ids q ∧ ∀ v ∈ q, Acked s v t k ∨ (s.party v).term ≤ t

structure Committed (C : Cluster) (s : Proto) (t k : Nat) : Prop where
  marks : Marks s t k
  quorum : ∃ q, Quorum C.ids q ∧ ∀ v ∈ q, Acked s v t k

/-- The first `n` entries of a log are committed, by a term up to `t`. -/
def Backed (C : Cluster) (s : Proto) (t n : Nat) (log : Log) : Prop :=
  n = 0 ∨ ∃ t₀ k, t₀ ≤ t ∧ Committed C s t₀ k ∧ n ≤ k + 1 ∧ (s.leaderLog t₀).take n <+: log

variable {t k : Nat}

theorem Marks.lt (h : Marks s t k) : k < (s.leaderLog t).length := by
  obtain ⟨x, at_k, -⟩ := h
  grind

theorem Committed.choosable (h : Committed C s t k) : Choosable C s t k :=
  h.quorum.imp fun _ hq => ⟨hq.1, fun v hv => .inl (hq.2 v hv)⟩

theorem Backed.le_length {n : Nat} {log : Log} (h : Backed C s t n log) : n ≤ log.length := by
  rcases h with rfl | ⟨t₀, k, -, committed, le, front⟩
  · exact Nat.zero_le _
  · have := front.length_le
    have := committed.marks.lt
    rw [length_take] at *
    omega

theorem Backed.extend {n : Nat} {log log' : Log} (h : Backed C s t n log) (longer : log <+: log') :
    Backed C s t n log' :=
  h.imp_right fun ⟨t₀, k, le, committed, short, front⟩ =>
    ⟨t₀, k, le, committed, short, front.trans longer⟩

/-! ### Under a move -/

variable {v : NodeID}

theorem Acked.term_le (base : Ballots C s) (h : Acked s v t k) : t ≤ (s.party v).term := by
  rcases h with ⟨c, n, -, sent⟩ | ⟨e, he, rfl, rfl⟩
  · exact base.term_le _ sent
  · exact base.elected_term e he

theorem Supports.term_le (base : Ballots C s) {e : Election} (he : e.term ≤ (s.party e.leader).term)
    (h : Supports s e.leader e.term v) : e.term ≤ (s.party v).term := by
  rcases h with rfl | granted
  · exact he
  · exact base.term_le _ granted

theorem Acked.move (h : Acked s v t k) : Acked (s.move m) v t k :=
  h.imp (fun ⟨c, n, lt, sent⟩ => ⟨c, n, lt, Proto.mem_msgs_move.mpr (.inr sent)⟩)
    fun ⟨e, he, same⟩ => ⟨e, Proto.mem_elected_move.mpr (.inr he), same⟩

theorem acked_move (h : Acked (s.move m) v t k) :
    Acked s v t k ∨ t = (s.party v).term ∧
      ((∃ args, m = .sendAck v args ∧ k < (s.party v).log.length) ∨ m = .win v) := by
  rcases h with ⟨c, n, lt, sent⟩ | ⟨e, he, rfl, rfl⟩
  · rcases Proto.mem_msgs_move.mp sent with new | old
    · cases m <;> simp only [Proto.sends, reduceCtorEq, Option.some.injEq, Msg.ack.injEq] at new
      grind
    · exact .inl (.inl ⟨c, n, lt, old⟩)
  · rcases Proto.mem_elected_move.mp he with won | old
    · grind [elects_win]
    · exact .inl (.inr ⟨e, old, rfl, rfl⟩)

theorem Choosable.of_move (enabled : C.Enabled s m) (h : Choosable C (s.move m) t k) :
    Choosable C s t k := by
  obtain ⟨q, hq, held⟩ := h
  refine ⟨q, hq, fun v hv => ?_⟩
  rcases held v hv with acked | low
  · grind [acked_move]
  · grind [term_le_move]

section grown

variable (grown : ∀ t, s.leaderLog t <+: (s.move m).leaderLog t)
include grown

variable {t : Nat}

theorem Marks.move {k : Nat} (h : Marks s t k) : Marks (s.move m) t k :=
  h.imp fun _ hx => ⟨getElem?_of_isPre (grown t) hx.1, hx.2⟩

theorem Committed.move {k : Nat} (h : Committed C s t k) : Committed C (s.move m) t k where
  marks := h.marks.move grown
  quorum := h.quorum.imp fun _ hq => ⟨hq.1, fun v hv => (hq.2 v hv).move⟩

theorem take_move {n : Nat} (short : n ≤ (s.leaderLog t).length) :
    ((s.move m).leaderLog t).take n = (s.leaderLog t).take n :=
  take_eq_of_isPre (grown t) short

theorem Backed.move {n : Nat} {log : Log} (h : Backed C s t n log) :
    Backed C (s.move m) t n log := by
  refine h.imp_right fun ⟨t₀, k, le, committed, short, front⟩ => ?_
  refine ⟨t₀, k, le, committed.move grown, short, ?_⟩
  rw [take_move grown (short.trans committed.marks.lt)]
  exact front

theorem Marks.of_move {k : Nat} (h : Marks (s.move m) t k) (lt : k < (s.leaderLog t).length) :
    Marks s t k := by
  obtain ⟨x, at_k, term⟩ := h
  refine ⟨x, ?_, term⟩
  have old := getElem?_eq_getElem lt
  rw [getElem?_of_isPre (grown t) old] at at_k
  rw [old, at_k]

end grown

end PubsubBroker.Raft
