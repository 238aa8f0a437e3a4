/-
# Raft.Staleness — late, repeated and overtaken AppendEntries

A follower of one leader, seen over the requests of one term.  The leader's log
only grows in its term, so every request is a piece of one log `G` however early
it was built.  The follower may get the requests in any order and any number of
times.  What it has once taken over from `G` stays: a merge only cuts where the
logs differ, and up to the end of an accepted request they do not.
-/
import PubsubBroker.Raft.Apply
import PubsubBroker.Raft.Simulation

namespace PubsubBroker.Raft

open Theory List

/-- A request of term `term` that its leader built when its log was a front part
of `G`. -/
structure BuiltFrom (G : Log) (term : Nat) (args : AppendEntriesArgs) : Prop where
  term : args.term = term
  source : ∃ log, log <+: G ∧ args.prevLogIndex ≤ log.length ∧
    args.prevLogTerm = termAt log args.prevLogIndex ∧ args.entries = log.drop args.prevLogIndex

/-- The index of the last entry a request speaks about. -/
def AppendEntriesArgs.last (args : AppendEntriesArgs) : Nat :=
  args.prevLogIndex + args.entries.length

def accepts (n : Node) (args : AppendEntriesArgs) : Bool :=
  decide (n.state.currentTerm ≤ args.term) &&
    (appendEntriesFromLeader n.state.log args.prevLogIndex args.prevLogTerm args.entries).isOk

/-- A follower that is handed these requests, one after the other. -/
def takeAll (n : Node) (requests : List AppendEntriesArgs) : Node :=
  requests.foldl (fun n args => (handleAppendEntries n args).1) n

variable {G : Log} {term : Nat} {n : Node} {args : AppendEntriesArgs}

/-! ## The leader's side -/

theorem appendEntriesFor_builtFrom {peer : NodeID} (pre : n.state.log <+: G)
    (next : 1 ≤ n.nextIndex peer) :
    BuiltFrom G n.state.currentTerm (appendEntriesFor n peer).2 := by
  obtain ⟨-, short, args⟩ := appendEntriesFor_eq next
  rw [args]
  exact ⟨rfl, n.state.log, pre, short, rfl, rfl⟩

theorem BuiltFrom.slice (built : BuiltFrom G term args) : Slice G args := by
  obtain ⟨log, pre, short, prevTerm, entries⟩ := built.source
  refine Slice.mono ⟨short, ?_, ?_⟩ pre
  · grind [termAt_zero]
  simp [entries]

/-! ## One request -/

theorem handleAppendEntries_fresh (fresh : n.state.currentTerm ≤ args.term) :
    (handleAppendEntries n args).1 =
      (takeEntries (stepDown n args.term args.leaderID true) args.term args).1 := by
  unfold handleAppendEntries observeTerm
  by_cases higher : args.term > n.state.currentTerm
  · simp [higher, stepDown]
  · grind

theorem handleAppendEntries_stale (stale : args.term < n.state.currentTerm) :
    (handleAppendEntries n args).1 = n := by
  unfold handleAppendEntries observeTerm
  rw [if_neg (show ¬ args.term > n.state.currentTerm by omega)]
  simp [stale]

/-- The node after it took over the log of an accepted request. -/
def adopted (n : Node) (args : AppendEntriesArgs) (log : Log) : Node :=
  let n := { n with state := { n.state with log := log } }
  if args.leaderCommit > n.commitIndex then
    (applyCommittedLocked { n with commitIndex := min args.leaderCommit log.length }).1
  else n

theorem takeEntries_ok {log : Log} {replyTerm : Nat}
    (ok : appendEntriesFromLeader n.state.log args.prevLogIndex args.prevLogTerm args.entries =
      .ok log) : (takeEntries n replyTerm args).1 = adopted n args log := by
  unfold takeEntries adopted
  rw [ok]
  simp only
  split
  · rfl
  · rfl

theorem takeEntries_error {conflict : Nat × Nat} {replyTerm : Nat}
    (refused : appendEntriesFromLeader n.state.log args.prevLogIndex args.prevLogTerm args.entries =
      .error conflict) : (takeEntries n replyTerm args).1 = n := by
  unfold takeEntries
  rw [refused]

/-- Taking over a log moves the commit index into it, and the applied index up to
there. -/
theorem adopted_eq (n : Node) (args : AppendEntriesArgs) (log : Log) :
    adopted n args log =
      if args.leaderCommit > n.commitIndex then
        appliedTo { n with
            state := { n.state with log := log }
            commitIndex := min args.leaderCommit log.length }
          (max n.lastApplied (min args.leaderCommit log.length))
      else { n with state := { n.state with log := log } } := by
  unfold adopted
  simp only
  split
  · rw [applyCommittedLocked_eq (Nat.min_le_right _ _)]
  · rfl

theorem adopted_state (n : Node) (args : AppendEntriesArgs) (log : Log) :
    (adopted n args log).state = { n.state with log := log } := by
  rw [adopted_eq]
  split
  · rfl
  · rfl

/-- **What a request does to the log.** -/
theorem handleAppendEntries_log (n : Node) (args : AppendEntriesArgs) :
    (accepts n args = true ∧
        appendEntriesFromLeader n.state.log args.prevLogIndex args.prevLogTerm args.entries =
          .ok (handleAppendEntries n args).1.state.log) ∨
      (accepts n args = false ∧ (handleAppendEntries n args).1.state.log = n.state.log) := by
  by_cases fresh : n.state.currentTerm ≤ args.term
  · rw [handleAppendEntries_fresh fresh]
    cases outcome : appendEntriesFromLeader n.state.log args.prevLogIndex args.prevLogTerm
        args.entries with
    | error conflict =>
      refine .inr ⟨by simp [accepts, outcome, Except.isOk, Except.toBool], ?_⟩
      rw [takeEntries_error (by exact outcome)]
      rfl
    | ok log =>
      refine .inl ⟨by simp [accepts, outcome, fresh, Except.isOk, Except.toBool], ?_⟩
      rw [takeEntries_ok (by exact outcome), adopted_state]
  · grind [accepts, handleAppendEntries_stale]

theorem adopted_again (n : Node) (args : AppendEntriesArgs) (log : Log) :
    adopted (adopted n args log) args log = adopted n args log := by
  rw [adopted_eq n args log]
  split
  case isFalse low => rw [adopted_eq, if_neg (by exact low)]
  case isTrue =>
    rw [adopted_eq]
    split
    case isFalse => rfl
    case isTrue =>
      -- the commit index is already the one the request gives, and everything up to it applied
      let n' := appliedTo { n with
          state := { n.state with log := log }
          commitIndex := min args.leaderCommit log.length }
        (max n.lastApplied (min args.leaderCommit log.length))
      have top : max n'.lastApplied (min args.leaderCommit log.length) = n'.lastApplied :=
        Nat.max_eq_left (Nat.le_max_right _ _)
      exact (congrArg (appliedTo n') top).trans (appliedTo_self n')

/-- **A request processed a second time, directly after the first, changes
nothing**: not the log, the term or the vote, not the commit index, not what was
applied. -/
theorem handleAppendEntries_again (n : Node) (args : AppendEntriesArgs) :
    (handleAppendEntries (handleAppendEntries n args).1 args).1 = (handleAppendEntries n args).1 := by
  by_cases fresh : n.state.currentTerm ≤ args.term
  · rw [handleAppendEntries_fresh fresh]
    let follower := stepDown n args.term args.leaderID true
    show (handleAppendEntries (takeEntries follower args.term args).1 args).1 =
      (takeEntries follower args.term args).1
    cases outcome : appendEntriesFromLeader follower.state.log args.prevLogIndex args.prevLogTerm
        args.entries with
    | error conflict =>
      rw [takeEntries_error outcome, handleAppendEntries_fresh (by exact le_rfl)]
      exact takeEntries_error outcome
    | ok log =>
      rw [takeEntries_ok outcome]
      have contains := appendEntriesFromLeader_contains outcome
      have same : stepDown (adopted follower args log) args.term args.leaderID true =
          adopted follower args log := by
        rw [adopted_eq]
        split
        · rfl
        · rfl
      have fresh' : (adopted follower args log).state.currentTerm ≤ args.term := by
        rw [adopted_state]
        exact le_rfl
      have again : appendEntriesFromLeader (adopted follower args log).state.log
          args.prevLogIndex args.prevLogTerm args.entries = .ok log := by
        rw [adopted_state]
        exact appendEntriesFromLeader_again contains
      simp [handleAppendEntries_fresh, takeEntries_ok, adopted_again, same, fresh', again]
  · grind [handleAppendEntries_stale]

/-! ## All requests of a term -/

/-- One request of the term: the log still matches `G`, an accepted request is
taken over, and what was taken over before stays. -/
theorem handleAppendEntries_keeps (built : BuiltFrom G term args)
    (matching : Matching n.state.log G) :
    Matching (handleAppendEntries n args).1.state.log G ∧
      (accepts n args = true →
        (handleAppendEntries n args).1.state.log.take args.last = G.take args.last) ∧
      ∀ m ≤ G.length, n.state.log.take m = G.take m →
        (handleAppendEntries n args).1.state.log.take m = G.take m := by
  rcases handleAppendEntries_log n args with ⟨-, ok⟩ | ⟨refused, same⟩
  · have merged := built.slice.merged matching ok
    refine ⟨merged.matching matching, fun _ => merged.take_eq, fun m within same => ?_⟩
    -- the common front survives the merge
    have long : m ≤ n.state.log.length := by
      have := congrArg List.length same
      grind
    have front : G.take m <+: n.state.log := same ▸ take_prefix m _
    have kept := merged.keeps front (List.take_prefix m G)
    rw [prefix_iff_eq_take.mp kept, length_take, Nat.min_eq_left within]
  · rw [same]
    simp [matching, refused]

theorem takeAll_keeps (requests : List AppendEntriesArgs) :
    ∀ {n : Node}, (∀ args ∈ requests, BuiltFrom G term args) → Matching n.state.log G →
      Matching (takeAll n requests).state.log G ∧
        ∀ m ≤ G.length, n.state.log.take m = G.take m →
          (takeAll n requests).state.log.take m = G.take m := by
  induction requests with
  | nil => exact fun _ matching => ⟨matching, fun _ _ same => same⟩
  | cons args requests ih =>
    intro n built matching
    obtain ⟨matching', -, kept⟩ :=
      handleAppendEntries_keeps (built args mem_cons_self) matching
    obtain ⟨matching'', kept'⟩ := ih (fun a mem => built a (mem_cons_of_mem _ mem)) matching'
    exact ⟨matching'', fun m within same => kept' m within (kept m within same)⟩

/-- **Stale AppendEntries are harmless.**  A follower whose log matches the
leader's log `G` is handed requests of one term, each built from a front part of
`G`, in any order and with any repetitions.  Once one of them is accepted, the
follower holds the entries of `G` up to the end of that request, after every
later request as well; and a request handled twice in a row is handled once. -/
theorem staleAppends_harmless (matching : Matching n.state.log G)
    (before : List AppendEntriesArgs) (args : AppendEntriesArgs) (later : List AppendEntriesArgs)
    (built : ∀ a ∈ before ++ args :: later, BuiltFrom G term a) :
    (accepts (takeAll n before) args = true →
        (takeAll n (before ++ args :: later)).state.log.take args.last = G.take args.last ∧
          args.last ≤ (takeAll n (before ++ args :: later)).state.log.length) ∧
      takeAll n (before ++ [args, args]) = takeAll n (before ++ [args]) := by
  have here : BuiltFrom G term args := built args (by simp)
  have early : ∀ a ∈ before, BuiltFrom G term a := fun a mem => built a (by simp [mem])
  have late : ∀ a ∈ later, BuiltFrom G term a := fun a mem => built a (by simp [mem])
  constructor
  · intro accepted
    obtain ⟨matched, -⟩ := takeAll_keeps before early matching
    obtain ⟨matched', taken, -⟩ := handleAppendEntries_keeps here matched
    obtain ⟨-, kept⟩ := takeAll_keeps later late matched'
    have whole : takeAll n (before ++ args :: later) =
        takeAll (handleAppendEntries (takeAll n before) args).1 later := by
      simp [takeAll]
    have same := kept args.last here.slice.total (taken accepted)
    rw [whole]
    refine ⟨same, ?_⟩
    have len := congrArg List.length same
    have total := here.slice.total
    grind [AppendEntriesArgs.last]
  · simp [handleAppendEntries_again, takeAll]

/-- A leader of term 2 sends its first entry, then both, and the first request is
delivered again behind the second, to a follower with an entry of term 1. -/
theorem staleAppends_harmless_sample :
    let G : Log := [⟨2, 1, [1]⟩, ⟨2, 2, [2]⟩]
    let follower : Node := { newNode "b" ["a"] with state := ⟨1, "", [⟨1, 1, [7]⟩]⟩ }
    let first : AppendEntriesArgs := ⟨2, "a", 0, 0, [⟨2, 1, [1]⟩], 0⟩
    let both : AppendEntriesArgs := ⟨2, "a", 0, 0, G, 1⟩
    accepts (takeAll follower [first]) both = true ∧
      (takeAll follower [first, both, first]).state.log.take 2 = G := by
  intro G follower first both
  have matching : Matching follower.state.log G := by
    intro k a b at_F at_G same
    grind
  have built : ∀ a ∈ [first] ++ both :: [first], BuiltFrom G 2 a := by
    have one : BuiltFrom G 2 first :=
      ⟨rfl, [⟨2, 1, [1]⟩], ⟨[⟨2, 2, [2]⟩], rfl⟩, Nat.zero_le _, rfl, rfl⟩
    have two : BuiltFrom G 2 both := ⟨rfl, G, prefix_rfl, Nat.zero_le _, rfl, rfl⟩
    simp [one, two]
  exact ⟨by decide, ((staleAppends_harmless matching [first] both [first] built).1 (by decide)).1⟩

end PubsubBroker.Raft
