/-
# Raft.Safety — the Raft safety properties of the cluster

What `Raft.Refinement` carries over from the protocol to runs of the code model:
Election Safety, Log Matching and State Machine Safety (with Leader Completeness).
Two of the three need a condition on the events of the run, and for each of those
two a run without it breaks the property: `handleAppendEntries` forgets a vote of
the current term, and a follower acknowledges its whole log, whatever part of it
the leader has.
-/
import PubsubBroker.Raft.ElectionSafety
import PubsubBroker.Raft.StateMachineSafety
import PubsubBroker.Raft.Refinement

namespace PubsubBroker.Raft

open Theory Option

variable {C : Cluster} {w : World}

theorem Allowed.of_voteKept {w : World} {e : Event} (kept : e.Meets VoteKept w) :
    e.Meets (Allowed True False) w := by
  cases e with
  | run | crash => exact ⟨fun _ => kept, False.elim⟩

theorem Allowed.of_repliesSound {w : World} {e : Event} (sound : e.Meets RepliesSound w) :
    e.Meets (Allowed False True) w := by
  cases e with
  | run | crash => exact ⟨False.elim, fun _ => sound⟩

theorem Allowed.any (w : World) (e : Event) : e.Meets (Allowed False False) w := by
  cases e with
  | run | crash => exact ⟨False.elim, False.elim⟩

/-- Three nodes. -/
def trio : Cluster where
  ids := ["a", "b", "c"]
  peers := fun i => ["a", "b", "c"].filter (· ≠ i)
  ids_nodup := by decide
  id_ne := by decide
  peers_nodup := by decide
  mem_peers := by simp

theorem oneLeader_of_nodup (nodup : (w.elected.map (·.2)).Nodup) : w.OneLeaderPerTerm :=
  fun _ _ _ hi hj => congrArg Prod.fst (List.inj_on_of_nodup_map nodup hi hj rfl)

/-! ## Election Safety -/

/-- **Election Safety.**  No two nodes become leader in one term, in every run in
which no vote request meets a node that has dropped the vote it granted to
another candidate in that term. -/
theorem electionSafety
    (reached : Reaches (World.step C) (fun w e => e.Meets VoteKept w) (World.init C) w) :
    w.OneLeaderPerTerm := by
  obtain ⟨s, steps, refines⟩ := refines_of_reaches (reached.mono fun _ _ => Allowed.of_voteKept)
  exact refines.oneLeader.mp (oneLeader_of_voteOnce steps)

/-- Node `a` is elected by `b`. -/
def oneElection : List Event :=
  [.run "a" .timeout, .run "b" (.deliver 0), .run "a" (.deliver 2)]

theorem electionSafety_oneElection : ∃ w,
    Reaches (World.step trio) (fun w e => e.Meets VoteKept w) (World.init trio) w ∧
      w.elected = [("a", 1)] ∧ w.OneLeaderPerTerm :=
  Reaches.exists_run_of (P := fun w => w.elected = [("a", 1)]) oneElection (by decide +kernel)
    fun _ reached elected => ⟨elected, electionSafety reached⟩

/-- Node `c` asks for votes in term 1 but its request to `b` is delayed.  Node `a`
is elected in term 1 by `b`, whose vote is then erased by `a`'s first heartbeat,
so that the delayed request finds no vote and is granted. -/
def forgottenVote : List Event :=
  [.run "c" .timeout, .run "a" .timeout, .run "b" (.deliver 2), .run "a" (.deliver 4),
    .run "b" (.deliver 5), .run "b" (.deliver 1), .run "c" (.deliver 8)]

/-- **Two leaders in term 1.** -/
theorem electionSafety_forgottenVote : ∃ w,
    Reaches (World.step trio) (fun _ _ => True) (World.init trio) w ∧
      ("a", 1) ∈ w.elected ∧ ("c", 1) ∈ w.elected :=
  Reaches.exists_run forgottenVote (by decide +kernel)

/-! ## Log Matching -/

/-- **Log Matching.**  In every run without a second leader in a term, logs that
hold an entry of the same term at one index are the same up to it, and the terms
in a log never decrease. -/
theorem logMatching
    (reached : Reaches (World.step C) (fun _ _ => True) (World.init C) w)
    (one : w.OneLeaderPerTerm) {i j : NodeID} (hi : i ∈ C.ids) (hj : j ∈ C.ids) :
    (∀ k a b, (w.nodes i).state.log[k]? = some a → (w.nodes j).state.log[k]? = some b →
        a.term = b.term →
        (w.nodes i).state.log.take (k + 1) = (w.nodes j).state.log.take (k + 1)) ∧
      (w.nodes i).state.log.Pairwise fun a b => a.term ≤ b.term := by
  obtain ⟨s, steps, refines⟩ := refines_of_reaches (reached.mono fun w e _ => Allowed.any w e)
  obtain ⟨-, logs⟩ := logs_of_steps steps (refines.oneLeader.mpr one)
  have log : ∀ {v : NodeID}, v ∈ C.ids → (s.party v).log = (w.nodes v).state.log := fun h => by
    rw [(refines.node _ h).party]
    rfl
  rw [← log hi, ← log hj]
  exact ⟨fun k a b at_i at_j same => logs.agree at_i at_j same, logs.log_sorted i⟩

/-- Node `a` proposes, replicates to `b` and commits. -/
def oneCommand : List Event :=
  oneElection ++ [.run "a" (.propose [1] 0), .run "a" .heartbeat, .run "b" (.deliver 5),
    .run "a" (.deliver 7)]

theorem logMatching_oneCommand : ∃ w,
    Reaches (World.step trio) (fun _ _ => True) (World.init trio) w ∧ w.OneLeaderPerTerm ∧
      (w.nodes "a").state.log = [⟨1, 1, [1]⟩] ∧
      (w.nodes "a").state.log.take 1 = (w.nodes "b").state.log.take 1 := by
  refine Reaches.exists_run_of (P := fun w => (w.elected.map Prod.snd).Nodup ∧
    (w.nodes "a").state.log = [⟨1, 1, [1]⟩] ∧ (w.nodes "b").state.log = [⟨1, 1, [1]⟩]) oneCommand
    (by decide +kernel) ?_
  rintro w reached ⟨elected, log_a, log_b⟩
  have one := oneLeader_of_nodup elected
  refine ⟨one, log_a, ?_⟩
  exact (logMatching (i := "a") (j := "b") reached one (by decide) (by decide)).1 0
    ⟨1, 1, [1]⟩ ⟨1, 1, [1]⟩ (by rw [log_a]; rfl) (by rw [log_b]; rfl) rfl

/-! ## State Machine Safety -/

/-- **State Machine Safety.**  In every run without a second leader in a term, in
which every accepted request covers the follower's log and every counted reply is
of the leader's term, two entries applied at the same index are the same, on any
two nodes and across restarts. -/
theorem stateMachineSafety
    (reached : Reaches (World.step C) (fun w e => e.Meets RepliesSound w) (World.init C) w)
    (one : w.OneLeaderPerTerm) {i j : NodeID} {index : Nat} {x y : LogEntry}
    (hx : (i, index, x) ∈ w.applied) (hy : (j, index, y) ∈ w.applied) :
    x.term = y.term ∧ x.command = y.command := by
  obtain ⟨s, steps, refines⟩ := refines_of_reaches (reached.mono fun _ _ => Allowed.of_repliesSound)
  obtain ⟨logs, commitment⟩ := commitment_of_steps steps (refines.oneLeader.mpr one)
  obtain rfl := commitment.applied_eq logs (refines.backs.applied _ hx) (refines.backs.applied _ hy)
  exact ⟨rfl, rfl⟩

theorem stateMachineSafety_oneCommand : ∃ w,
    Reaches (World.step trio) (fun w e => e.Meets RepliesSound w) (World.init trio) w ∧
      w.OneLeaderPerTerm ∧ ("a", 1, ⟨1, 1, [1]⟩) ∈ w.applied ∧
      ∀ j y, (j, 1, y) ∈ w.applied → y.term = 1 ∧ y.command = [1] := by
  refine Reaches.exists_run_of (P := fun w => (w.elected.map Prod.snd).Nodup ∧
    ("a", 1, (⟨1, 1, [1]⟩ : LogEntry)) ∈ w.applied) oneCommand (by decide +kernel) ?_
  rintro w reached ⟨elected, here⟩
  have one := oneLeader_of_nodup elected
  exact ⟨one, here, fun j y hy => stateMachineSafety reached one hy here⟩

/-- Leader `b` of term 1 holds an entry nobody else has.  Leader `a` of term 2
sends it an empty heartbeat, which it accepts and acknowledges with its own log
length, so `a` commits and applies its first own entry at once.  Then `b` leads
term 3, replicates its old entry to `c` and applies it at the same index. -/
def divergentTail : List Event :=
  [.run "b" .timeout, .run "c" (.deliver 1), .run "b" (.deliver 2), .run "b" (.propose [1] 0),
    .run "a" .timeout, .run "a" .timeout, .run "c" (.deliver 8), .run "a" (.deliver 9),
    .run "b" (.deliver 10), .run "a" (.deliver 12), .run "a" (.propose [2] 0), .run "a" .advance,
    .run "b" .timeout, .run "c" (.deliver 14), .run "b" (.deliver 15), .run "b" (.propose [3] 0),
    .run "c" (.deliver 17), .run "b" (.deliver 18), .run "b" .heartbeat, .run "c" (.deliver 20),
    .run "b" (.deliver 21)]

/-- **Two different entries applied at index 1**, with one leader per term. -/
theorem stateMachineSafety_divergentTail : ∃ w,
    Reaches (World.step trio) (fun _ _ => True) (World.init trio) w ∧ w.OneLeaderPerTerm ∧
      ("a", 1, ⟨2, 1, [2]⟩) ∈ w.applied ∧ ("b", 1, ⟨1, 1, [1]⟩) ∈ w.applied :=
  Reaches.exists_run_of (P := fun w => (w.elected.map Prod.snd).Nodup ∧
    ("a", 1, ⟨2, 1, [2]⟩) ∈ w.applied ∧ ("b", 1, ⟨1, 1, [1]⟩) ∈ w.applied) divergentTail
    (by decide +kernel) fun _ _ shown => ⟨oneLeader_of_nodup shown.1, shown.2⟩

/-- **Leader Completeness.**  In the same runs, a leader has every entry that a node of
no later term knows to be committed, at its place. -/
theorem leaderCompleteness
    (reached : Reaches (World.step C) (fun w e => e.Meets RepliesSound w) (World.init C) w)
    (one : w.OneLeaderPerTerm) {i j : NodeID} (hi : i ∈ C.ids) (hj : j ∈ C.ids)
    (leads : (w.nodes j).role = .leader)
    (le : (w.nodes i).state.currentTerm ≤ (w.nodes j).state.currentTerm) :
    (w.nodes i).state.log.take (w.nodes i).commitIndex <+: (w.nodes j).state.log := by
  obtain ⟨s, steps, refines⟩ := refines_of_reaches (reached.mono fun _ _ => Allowed.of_repliesSound)
  obtain ⟨logs, commitment⟩ := commitment_of_steps steps (refines.oneLeader.mpr one)
  have at_j := (refines.node j hj).party
  have lead : (s.party j).role = .leader := by rw [at_j]; exact leads
  obtain ⟨e, elected, -, term⟩ := (ballots_of_steps steps).leader_elected j lead
  have commit := commitment.commit i
  rw [(refines.node i hi).party] at commit
  rcases commit with none | ⟨t, k, old, committed, short, front⟩
  · rw [show (w.nodes i).commitIndex = 0 from none]
    exact List.nil_prefix
  · have later : t ≤ (s.party j).term := by rw [at_j]; exact old.trans le
    have carried := commitment.leader_front logs committed short later ⟨e, elected, term⟩
    rw [← logs.leader j lead, at_j] at carried
    refine (List.prefix_of_prefix_length_le (List.take_prefix ..) front ?_).trans carried
    have := committed.marks.lt
    simp only [List.length_take, ofNode_commitIndex] at short ⊢
    omega

/-- The commit of `a` reaches `b`. -/
theorem leaderCompleteness_announced : ∃ w,
    Reaches (World.step trio) (fun w e => e.Meets RepliesSound w) (World.init trio) w ∧
      (w.nodes "b").commitIndex = 1 ∧
      (w.nodes "b").state.log.take 1 <+: (w.nodes "a").state.log := by
  refine Reaches.exists_run_of (P := fun w => (w.elected.map Prod.snd).Nodup ∧
    (w.nodes "a").role = .leader ∧ (w.nodes "b").commitIndex = 1 ∧
    (w.nodes "b").state.currentTerm ≤ (w.nodes "a").state.currentTerm)
    (oneCommand ++ [.run "a" .heartbeat, .run "b" (.deliver 8)]) (by decide +kernel) ?_
  rintro w reached ⟨elected, leads, commit, le⟩
  refine ⟨commit, ?_⟩
  rw [← commit]
  exact leaderCompleteness reached (oneLeader_of_nodup elected) (by decide) (by decide) leads le

end PubsubBroker.Raft
