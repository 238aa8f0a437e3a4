/-
# Raft.StateMachineSafety — Leader Completeness and what follows from it

The invariant behind State Machine Safety and its preservation by every move of
`Raft.Protocol`.  Reading order of the fields of `Commitment`: an acknowledgement
is kept as long as later leaders have the entry (`persist`), so a voter that
acknowledged it only votes for candidates that have it too (`voter`), so every
later leader has it (`complete`); commit indexes, the ones announced in requests,
and applied entries are all backed by a committed position.
-/
import PubsubBroker.Raft.Commitment

namespace PubsubBroker.Raft

open Theory List Option

variable {C : Cluster} {s : Proto} {m : Move}

structure Commitment (C : Cluster) (s : Proto) : Prop where
  ack_len : ∀ v c t n, .ack v c t n ∈ s.msgs → n ≤ (s.leaderLog t).length
  persist : ∀ v t k, Acked s v t k → k < (s.leaderLog t).length →
    (∀ e ∈ s.elected, t < e.term → e.term ≤ (s.party v).term →
      (s.leaderLog t).take (k + 1) <+: e.log) →
    (s.leaderLog t).take (k + 1) <+: (s.party v).log
  voter : ∀ v c t', .grant v c t' ∈ s.msgs → ∀ t k, t < t' → Marks s t k → Acked s v t k →
    (∀ e ∈ s.elected, t < e.term → e.term < t' → (s.leaderLog t).take (k + 1) <+: e.log) →
    (∃ e ∈ s.elected, e.term = t') ∨
      ∃ lastIndex lastTerm, .request c v t' lastIndex lastTerm ∈ s.msgs ∧
        (t < lastTerm ∨ lastTerm = t ∧ k < lastIndex)
  request : ∀ c v lastIndex lastTerm', .request c v (s.party c).term lastIndex lastTerm' ∈ s.msgs →
    (s.party c).role = .candidate →
    lastIndex = (s.party c).log.length ∧ lastTerm' = lastTerm (s.party c).log
  complete : ∀ t k, Marks s t k → Choosable C s t k → ∀ e ∈ s.elected, t < e.term →
    (s.leaderLog t).take (k + 1) <+: e.log
  matched_len : ∀ i, (s.party i).role = .leader → ∀ v,
    (s.party i).matchIndex v ≤ (s.party i).log.length
  matched : ∀ i, (s.party i).role = .leader → ∀ v k x, k < (s.party i).matchIndex v →
    (s.party i).log[k]? = some x → x.term = (s.party i).term → Acked s v (s.party i).term k
  commit : ∀ i, Backed C s (s.party i).term (s.party i).commitIndex (s.party i).log
  sent : ∀ v args, .append v args ∈ s.msgs →
    args.leaderCommit ≤ args.prevLogIndex + args.entries.length ∧
      Backed C s args.term args.leaderCommit (s.leaderLog args.term)
  applied : ∀ i n x, (i, n, x) ∈ s.applied →
    ∃ t k p, n = p + 1 ∧ p ≤ k ∧ Committed C s t k ∧ (s.leaderLog t)[p]? = some x

namespace Commitment

theorem initial : Commitment C .initial where
  ack_len := by simp [Proto.initial]
  persist := by simp [Proto.initial]
  voter := by simp [Proto.initial]
  request := by simp [Proto.initial]
  complete := by simp [Proto.initial]
  matched_len := by simp [Proto.initial, Party.initial]
  matched := by simp [Proto.initial, Party.initial]
  commit := fun _ => .inl rfl
  sent := by simp [Proto.initial]
  applied := by simp [Proto.initial]

/-! ## Facts about one state -/

theorem ack_front (logs : Logs s) {v : NodeID} {args : AppendEntriesArgs}
    (enabled : C.Enabled s (.sendAck v args)) (sound : SoundReplies s (.sendAck v args)) :
    (s.party v).log <+: s.leaderLog (s.party v).term := by
  obtain ⟨-, received, term, contains⟩ := enabled
  rw [← term]
  have slice := logs.append v args received
  have front := slice.take_eq (logs.matching v args.term) contains
  rcases sound with short | last
  · grind [take_of_length_le]
  · cases last' : (s.party v).log.getLast? with
    | none =>
      rw [getLast?_eq_none_iff.mp last']
      exact nil_prefix
    | some x =>
      have own := (logs.attributed v).eq_take_owner last'
      rw [show x.term = args.term by simpa [lastTerm, last'] using last] at own
      grind

/-- A leader log that holds an entry of its own term at position `k` is not
shorter than the base of its owner. -/
theorem base_short (logs : Logs s) {e : Election} (he : e ∈ s.elected) {k : Nat} {x : LogEntry}
    (at_k : (s.leaderLog e.term)[k]? = some x) (own : x.term = e.term) : e.log.length ≤ k := by
  by_contra long
  have front := getElem?_eq_getElem (not_le.mp long)
  rw [getElem?_of_isPre (logs.base e he) front, some.injEq] at at_k
  have := logs.base_term e he x (at_k ▸ getElem_mem _)
  omega

/-- The last entry of a log that starts with the entry at `(t, k)` is not older. -/
theorem upToDate_of_front (logs : Logs s) {v : NodeID} {t k lastIndex lastTerm' : Nat}
    (marks : Marks s t k) (front : (s.leaderLog t).take (k + 1) <+: (s.party v).log)
    (upToDate : UpToDate lastIndex lastTerm' (s.party v).log) :
    t < lastTerm' ∨ lastTerm' = t ∧ k < lastIndex := by
  obtain ⟨x, at_k, term⟩ := marks
  have at_v : (s.party v).log[k]? = some x :=
    getElem?_of_isPre front (by rw [getElem?_take_succ, at_k])
  obtain ⟨lt, -⟩ := List.getElem?_eq_some_iff.mp at_v
  cases last : (s.party v).log.getLast? with
  | none => simp [getLast?_eq_none_iff.mp last] at lt
  | some y =>
    have at_last := last
    rw [getLast?_eq_getElem?] at at_last
    have index := logs.log_indexed at_last
    have le : x.term ≤ y.term := logs.term_mono at_v at_last (by omega)
    simp only [UpToDate, logUpToDate, lastLogIndexAndTermLocked, last, Bool.or_eq_true,
      Bool.and_eq_true, decide_eq_true_eq] at upToDate
    omega

/-- A log whose last entry is of a later term, or of term `t` beyond position
`k`, has the entry at `(t, k)`, provided the leaders of later terms have it. -/
theorem front_of_last (logs : Logs s) {c : NodeID} {t k : Nat}
    (leaders : ∀ e ∈ s.elected, t < e.term → (s.leaderLog t).take (k + 1) <+: e.log)
    (last : t < lastTerm (s.party c).log ∨
      lastTerm (s.party c).log = t ∧ k < (s.party c).log.length) :
    (s.leaderLog t).take (k + 1) <+: (s.party c).log := by
  cases last' : (s.party c).log.getLast? with
  | none => grind [lastTerm]
  | some x =>
    have own := (logs.attributed c).eq_take_owner last'
    simp only [lastTerm, last'] at last
    rcases last with later | ⟨rfl, long⟩
    · rw [getLast?_eq_getElem?] at last'
      have at_owner := (logs.attributed c).owner_getElem? last'
      obtain ⟨e, he, term⟩ := logs.elected_of_mem (mem_of_getElem? at_owner)
      have short := base_short logs he (term ▸ at_owner) term.symm
      rw [own]
      grind [Logs.base]
    grind

/-! ## Preservation: acknowledgements, votes, elections -/

section step

variable (inv : Commitment C s) (logs : Logs s) (base : Ballots C s) (enabled : C.Enabled s m)
  (one : (s.move m).OneLeaderPerTerm)
include inv logs base enabled one

/-- What a node acknowledged in a term is in the old leader log of the term,
unless the node leads the term and has just extended it. -/
theorem old_position {v : NodeID} {t k : Nat} (acked : Acked s v t k)
    (lt : k < ((s.move m).leaderLog t).length) :
    k < (s.leaderLog t).length ∨ ∃ cmd, m = .propose v cmd ∧ t = (s.party v).term := by
  by_contra fresh
  rw [not_or, not_lt] at fresh
  rcases leaderLog_move s m t with kept | ⟨i, rfl, rfl, -⟩ | ⟨i, cmd, rfl, rfl, -⟩
  · rw [kept] at lt
    omega
  · have none := logs.unelected _ (Logs.fresh_of_win base enabled one)
    rcases acked with ⟨c, n, long, sent⟩ | ⟨e, he, -, term⟩
    · have := inv.ack_len _ _ _ _ sent
      omega
    grind [Logs.fresh_of_win]
  · rcases acked with ⟨c, n, long, sent⟩ | ⟨e, he, leader, term⟩
    · have := inv.ack_len _ _ _ _ sent
      omega
    · obtain ⟨e', he', leader', term'⟩ := base.leader_elected i enabled.2
      have same := one.of_move e he e' he' (term.trans term'.symm)
      grind

theorem move_persist (sound : SoundReplies s m) (v : NodeID) (t k : Nat)
    (acked : Acked (s.move m) v t k) (lt : k < ((s.move m).leaderLog t).length)
    (leaders : ∀ e ∈ (s.move m).elected, t < e.term → e.term ≤ ((s.move m).party v).term →
      ((s.move m).leaderLog t).take (k + 1) <+: e.log) :
    ((s.move m).leaderLog t).take (k + 1) <+: ((s.move m).party v).log := by
  have grown := logs.grown base enabled one
  -- a leader that has just won or proposed holds the whole leader log
  have whole : ((s.move m).party v).role = .leader → ((s.move m).party v).term = t →
      ((s.move m).leaderLog t).take (k + 1) <+: ((s.move m).party v).log := by
    intro role term
    rw [logs.move_leader base enabled one v role, term]
    exact take_prefix _ _
  rcases acked_move acked with acked | ⟨rfl, ⟨args, rfl, long⟩ | rfl⟩
  · rcases inv.old_position logs base enabled one acked lt with old | ⟨cmd, rfl, rfl⟩
    · rw [take_move grown old] at leaders ⊢
      have front := inv.persist v t k acked old fun e he later low =>
        leaders e (Proto.mem_elected_move.mpr (.inr he)) later (low.trans (term_le_move enabled v))
      rcases log_move s m v with same | ⟨args, log, rfl, new⟩ | ⟨cmd, rfl, new⟩
      · rw [same]
        exact front
      · -- the front survives the merge, because the sender's log has it as well
        rw [new]
        refine (logs.accept_cases enabled).keeps front ?_
        obtain ⟨e, he, -, term⟩ := base.append_elected v args enabled.2.2.1
        have current := enabled.2.2.2.1
        rcases (acked.term_le base).eq_or_lt with rfl | later
        · grind
        · have := leaders e he (by omega) (by simp [Proto.move]; omega)
          grind [Logs.base]
      grind
    · exact whole (by simpa [Proto.move] using enabled.2) (by simp [Proto.move])
  · have front := ack_front logs enabled sound
    exact take_eq_of_isPre front long ▸ take_prefix _ _
  · exact whole (by simp [Proto.move]) (by simp [Proto.move])

theorem move_voter (v c : NodeID) (t' : Nat) (granted : .grant v c t' ∈ (s.move m).msgs) (t k : Nat)
    (later : t < t') (marks : Marks (s.move m) t k) (acked : Acked (s.move m) v t k)
    (leaders : ∀ e ∈ (s.move m).elected, t < e.term → e.term < t' →
      ((s.move m).leaderLog t).take (k + 1) <+: e.log) :
    (∃ e ∈ (s.move m).elected, e.term = t') ∨
      ∃ lastIndex lastTerm, .request c v t' lastIndex lastTerm ∈ (s.move m).msgs ∧
        (t < lastTerm ∨ lastTerm = t ∧ k < lastIndex) := by
  have grown := logs.grown base enabled one
  have old_elected : ∀ e ∈ s.elected, e ∈ (s.move m).elected := fun e he =>
    Proto.mem_elected_move.mpr (.inr he)
  have reached : t' ≤ (s.party v).term := by
    rcases Proto.mem_msgs_move.mp granted with new | old
    · obtain ⟨sender, term⟩ := sends_actor new
      grind [Msg.term, Msg.sender]
    · exact base.term_le _ old
  -- the acknowledgement and the position are older than the vote
  have acked' : Acked s v t k := (acked_move acked).resolve_right fun new => by
    have := new.1
    omega
  have old : k < (s.leaderLog t).length := by
    refine (inv.old_position logs base enabled one acked' marks.lt).resolve_right ?_
    rintro ⟨cmd, -, now⟩
    omega
  have marks' := marks.of_move grown old
  rw [take_move grown old] at leaders
  rcases Proto.mem_msgs_move.mp granted with new | before
  · cases m <;> simp only [Proto.sends, reduceCtorEq, some.injEq, Msg.grant.injEq] at new
    case sendGrant i c' lastIndex lastTerm =>
      obtain ⟨rfl, rfl, rfl⟩ := new
      by_cases won : ∃ e ∈ s.elected, e.term = (s.party i).term
      · exact .inl won
      · right
        have front := inv.persist i t k acked' old fun e he after low =>
          leaders e he after (lt_of_le_of_ne low fun same => won ⟨e, he, same⟩)
        exact ⟨lastIndex, lastTerm, Proto.mem_msgs_move.mpr (.inr enabled.2.1),
          upToDate_of_front logs marks' front enabled.2.2.2⟩
  · rcases inv.voter v c t' before t k later marks' acked'
      (fun e he => leaders e (old_elected e he)) with ⟨e, he, term⟩ | ⟨li, lt, asked, last⟩
    · grind
    · exact .inr ⟨li, lt, Proto.mem_msgs_move.mpr (.inr asked), last⟩

theorem win_complete {i : NodeID} (win : m = .win i) {t k : Nat} (marks : Marks s t k)
    (choosable : Choosable C s t k) (later : t < (s.party i).term) :
    (s.leaderLog t).take (k + 1) <+: (s.party i).log := by
  subst win
  have fresh := Logs.fresh_of_win base enabled one
  have leaders := inv.complete t k marks choosable
  obtain ⟨q, hq, held⟩ := choosable
  obtain ⟨v, hv, hv'⟩ := hq.inter (base.quorum_of_win enabled)
  have support := (base.votes i enabled.2.1 v hv').2
  have reached : (s.party i).term ≤ (s.party v).term := by
    rcases support with rfl | granted
    · exact le_rfl
    · exact base.term_le _ granted
  have acked := (held v hv).resolve_right (by omega)
  rcases support with rfl | granted
  · grind [persist, Marks.lt]
  · rcases inv.voter v i _ granted t k later marks acked fun e he after _ => leaders e he after with
      ⟨e, he, term⟩ | ⟨li, lt, asked, last⟩
    · exact absurd term (fresh e he)
    · obtain ⟨rfl, rfl⟩ := inv.request i v li lt asked enabled.2.1
      exact front_of_last logs leaders last

theorem move_complete (t k : Nat) (marks : Marks (s.move m) t k)
    (choosable : Choosable C (s.move m) t k) (e : Election) (he : e ∈ (s.move m).elected)
    (later : t < e.term) : ((s.move m).leaderLog t).take (k + 1) <+: e.log := by
  have grown := logs.grown base enabled one
  have choosable' := choosable.of_move enabled
  -- one of the winner's voters holds the position, and it has left term `t` behind
  have old : k < (s.leaderLog t).length := by
    have base' := base.move enabled
    obtain ⟨q, hq, held⟩ := choosable
    obtain ⟨q', hq', support⟩ := base'.electors e he
    obtain ⟨v, hv, hv'⟩ := hq.inter hq'
    have reached := (support v hv').term_le base' (base'.elected_term e he)
    have acked := (held v hv).resolve_right (by omega)
    have stays : ((s.move m).party v).term = (s.party v).term → t ≠ (s.party v).term := by
      omega
    have acked' : Acked s v t k := (acked_move acked).resolve_right fun ⟨now, new⟩ => by
      rcases new with ⟨args, rfl, -⟩ | rfl
      · exact stays rfl now
      · exact stays (by simp [Proto.move]) now
    refine (inv.old_position logs base enabled one acked' marks.lt).resolve_right ?_
    rintro ⟨cmd, rfl, now⟩
    exact stays (by simp [Proto.move]) now
  have marks' := marks.of_move grown old
  rw [take_move grown old]
  rcases Proto.mem_elected_move.mp he with won | before
  · obtain ⟨win, term, log⟩ := elects_win won
    grind [win_complete]
  · grind [complete]

end step

/-! ## Preservation: requests, match indexes, commit indexes -/

theorem matchIndex_move (enabled : C.Enabled s m) {i : NodeID} (was : (s.party i).role = .leader)
    (role : ((s.move m).party i).role = .leader) :
    ((s.move m).party i).matchIndex = (s.party i).matchIndex ∨
      ∃ v t n, m = .countMatch i v t n ∧
        ((s.move m).party i).matchIndex = Function.update (s.party i).matchIndex v n := by
  by_cases other : i = m.actor
  · subst other
    cases m <;> simp_all [Proto.move, Move.actor, Party.follow, Cluster.Enabled]
  · rw [s.move_party_of_ne m other]
    exact .inl rfl

theorem commitIndex_move (s : Proto) (m : Move) (i : NodeID) :
    ((s.move m).party i).commitIndex = (s.party i).commitIndex ∨
      ((s.move m).party i).commitIndex = 0 ∨
      (∃ args, m = .learnCommit i args ∧ ((s.move m).party i).commitIndex =
        min args.leaderCommit (s.party i).log.length) ∨
      ∃ index, m = .commit i index ∧ ((s.move m).party i).commitIndex = index := by
  by_cases other : i = m.actor
  · subst other
    cases m <;> simp [Proto.move, Move.actor, Party.follow]
  · rw [s.move_party_of_ne m other]
    exact .inl rfl

theorem leader_front (inv : Commitment C s) (logs : Logs s) {t₀ t k n : Nat}
    (committed : Committed C s t₀ k) (short : n ≤ k + 1) (le : t₀ ≤ t)
    (led : ∃ e ∈ s.elected, e.term = t) : (s.leaderLog t₀).take n <+: s.leaderLog t := by
  obtain ⟨e, he, rfl⟩ := led
  rcases le.eq_or_lt with rfl | later
  · exact take_prefix _ _
  · have := inv.complete t₀ k committed.marks committed.choosable e he later
    exact (take_prefix_take_left short).trans (this.trans (logs.base e he))

theorem move_request (inv : Commitment C s) (base : Ballots C s) (enabled : C.Enabled s m)
    (c v : NodeID) (lastIndex lastTerm' : Nat)
    (asked : .request c v ((s.move m).party c).term lastIndex lastTerm' ∈ (s.move m).msgs)
    (role : ((s.move m).party c).role = .candidate) :
    lastIndex = ((s.move m).party c).log.length ∧ lastTerm' = lastTerm ((s.move m).party c).log := by
  rcases Proto.mem_msgs_move.mp asked with new | old
  · cases m <;> simp only [Proto.sends, reduceCtorEq, some.injEq, Msg.request.injEq] at new
    obtain ⟨rfl, -, -, rfl, rfl⟩ := new
    exact ⟨rfl, rfl⟩
  · rcases candidate_move enabled role with rfl | ⟨was, term, log⟩
    · have := base.term_le _ old
      simp [Proto.move, Msg.term, Msg.sender] at this
    grind [request]

theorem leader_log_move (enabled : C.Enabled s m) {i : NodeID} (was : (s.party i).role = .leader) :
    (s.party i).log <+: ((s.move m).party i).log := by
  rcases log_move s m i with same | ⟨args, log, rfl, -⟩ | ⟨cmd, -, new⟩
  · exact same ▸ prefix_rfl
  · rw [enabled.2.1] at was
    cases was
  · exact new ▸ prefix_append _ _

theorem move_matched_len (inv : Commitment C s) (logs : Logs s) (enabled : C.Enabled s m)
    (sound : SoundReplies s m) (i : NodeID) (role : ((s.move m).party i).role = .leader)
    (v : NodeID) : ((s.move m).party i).matchIndex v ≤ ((s.move m).party i).log.length := by
  rcases leader_move role with rfl | ⟨was, -⟩
  · simp [Proto.move]
  · refine le_trans ?_ (leader_log_move enabled was).length_le
    rcases matchIndex_move enabled was role with same | ⟨w, t, n, rfl, new⟩
    · rw [same]
      exact inv.matched_len i was v
    · rw [new, Function.update_apply]
      split
      · rcases sound with rfl | ⟨short, -⟩
        · rw [logs.leader i was]
          exact inv.ack_len _ _ _ _ enabled.2.2.1
        · exact short
      · exact inv.matched_len i was v

theorem move_matched (inv : Commitment C s) (enabled : C.Enabled s m)
    (sound : SoundReplies s m) (i : NodeID) (role : ((s.move m).party i).role = .leader)
    (v : NodeID) (k : Nat) (x : LogEntry) (lt : k < ((s.move m).party i).matchIndex v)
    (at_k : ((s.move m).party i).log[k]? = some x) (own : x.term = ((s.move m).party i).term) :
    Acked (s.move m) v ((s.move m).party i).term k := by
  rcases leader_move role with rfl | ⟨was, term⟩
  · simp [Proto.move] at lt
  · rw [term] at own ⊢
    rcases matchIndex_move enabled was role with same | ⟨w, t, n, rfl, new⟩
    · rw [same] at lt
      have short := inv.matched_len i was v
      have old := getElem?_eq_getElem (lt.trans_le short)
      rw [getElem?_of_isPre (leader_log_move enabled was) old] at at_k
      exact (inv.matched i was v k x lt (old.trans at_k) own).move
    · have here : (s.party i).log[k]? = some x := by simpa [Proto.move] using at_k
      rw [new, Function.update_apply] at lt
      split at lt
      case isTrue same =>
        subst same
        rcases sound with rfl | ⟨-, stale⟩
        · exact .inl ⟨i, n, lt, Proto.mem_msgs_move.mpr (.inr enabled.2.2.1)⟩
        · have front : ((s.party i).log.take n)[k]? = some x := by simp [here, lt]
          grind
      case isFalse => exact (inv.matched i was v k x lt here own).move

theorem committed_of_commit (inv : Commitment C s) (logs : Logs s) (base : Ballots C s)
    {i : NodeID} {k : Nat} (enabled : C.Enabled s (.commit i (k + 1))) :
    Committed C s (s.party i).term k := by
  obtain ⟨member, role, -, short, term, majority⟩ := enabled
  have at_k := getElem?_eq_getElem (Nat.lt_of_succ_le short)
  rw [termAt_succ at_k] at term
  refine ⟨⟨_, (logs.leader i role) ▸ at_k, term⟩, C.matched i (s.party i) (k + 1), ⟨?_, ?_, majority⟩, ?_⟩
  · refine nodup_cons.mpr ⟨fun self => ?_, (C.peers_nodup i member).filter _⟩
    grind [Cluster.mem_peers]
  · intro v hv
    rcases mem_cons.mp hv with rfl | peer
    · exact member
    grind [Cluster.mem_peers]
  · intro v hv
    rcases mem_cons.mp hv with rfl | peer
    · exact .inr (base.leader_elected v role)
    · exact inv.matched i role v k _ (of_decide_eq_true (mem_filter.mp peer).2) at_k term

/-- **State Machine Safety** in one state: the later of the two terms has a
leader that holds what the earlier one committed. -/
theorem applied_eq (inv : Commitment C s) (logs : Logs s) {i j : NodeID} {n : Nat}
    {x y : LogEntry} (hx : (i, n, x) ∈ s.applied) (hy : (j, n, y) ∈ s.applied) : x = y := by
  obtain ⟨t, k, p, rfl, le, committed, at_p⟩ := inv.applied i n x hx
  obtain ⟨t', k', p', same, le', committed', at_p'⟩ := inv.applied j _ y hy
  obtain rfl : p = p' := Nat.succ.inj same
  have carried : ∀ {t t' k k' : Nat} {x y : LogEntry}, t ≤ t' → p ≤ k → Committed C s t k →
      Committed C s t' k' → (s.leaderLog t)[p]? = some x → (s.leaderLog t')[p]? = some y →
      x = y := by
    intro t t' k k' x y order le committed committed' at_p at_p'
    obtain ⟨z, at_k', -⟩ := committed'.marks
    have led := logs.elected_of_mem (mem_of_getElem? at_k')
    have front := inv.leader_front logs committed (Nat.succ_le_succ le) order led
    rw [getElem?_of_isPre front (by rw [getElem?_take_succ, at_p]), some.injEq] at at_p'
    exact at_p'
  rcases Nat.le_total t t' with order | order
  · grind
  · grind

section

variable (inv : Commitment C s) (logs : Logs s) (base : Ballots C s) (enabled : C.Enabled s m)
  (one : (s.move m).OneLeaderPerTerm)
include inv logs base enabled one

theorem move_ack_len (sound : SoundReplies s m) (v c : NodeID) (t n : Nat)
    (acked : .ack v c t n ∈ (s.move m).msgs) : n ≤ ((s.move m).leaderLog t).length := by
  refine le_trans ?_ (logs.grown base enabled one t).length_le
  rcases Proto.mem_msgs_move.mp acked with new | old
  · cases m <;> simp only [Proto.sends, reduceCtorEq, some.injEq, Msg.ack.injEq] at new
    grind [ack_front]
  · exact inv.ack_len v c t n old

theorem move_commit (i : NodeID) :
    Backed C (s.move m) ((s.move m).party i).term ((s.move m).party i).commitIndex
      ((s.move m).party i).log := by
  have grown := logs.grown base enabled one
  rcases commitIndex_move s m i with same | zero | ⟨args, rfl, new⟩ | ⟨index, rfl, new⟩
  · -- the commit index stays: the front it covers survives what happens to the log
    rw [same]
    rcases inv.commit i with zero | ⟨t₀, k, le, committed, short, front⟩
    · exact .inl zero
    · refine Backed.move grown
        (.inr ⟨t₀, k, le.trans (term_le_move enabled i), committed, short, ?_⟩)
      rcases log_move s m i with kept | ⟨args, log, rfl, new⟩ | ⟨cmd, rfl, new⟩
      · exact kept ▸ front
      · rw [new]
        obtain ⟨e, he, -, term⟩ := base.append_elected i args enabled.2.2.1
        refine (logs.accept_cases enabled).keeps front ?_
        exact inv.leader_front logs committed short (enabled.2.2.2.1 ▸ le) ⟨e, he, term⟩
      grind
  · exact .inl zero
  · -- what the leader announced is covered by the request
    obtain ⟨-, received, term, contains⟩ := enabled
    obtain ⟨covered, backed⟩ := inv.sent i args received
    have same := (logs.append i args received).take_eq (logs.matching i args.term) contains
    rw [new, Nat.min_eq_left (covered.trans contains.len)]
    rcases backed with zero | ⟨t₀, k, le, committed, short, front⟩
    · exact .inl zero
    · refine Backed.move grown (.inr ⟨t₀, k, ?_, committed, short, ?_⟩)
      · simpa [Proto.move, ← term] using le
      · have within : (s.leaderLog t₀).take args.leaderCommit <+: (s.party i).log.take
            (args.prevLogIndex + args.entries.length) := by
          rw [same]
          exact prefix_take_iff.mpr ⟨front, (length_take_le _ _).trans covered⟩
        simpa [Proto.move] using within.trans (List.take_prefix _ _)
  · obtain ⟨k, rfl⟩ : ∃ k, index = k + 1 := ⟨index - 1, by have := enabled.2.2.1; omega⟩
    have committed := inv.committed_of_commit logs base enabled
    rw [new]
    refine Backed.move grown (.inr ⟨_, k, ?_, committed, le_rfl, ?_⟩)
    · simp [Proto.move]
    · have own := logs.leader i enabled.2.1
      simpa [Proto.move, own] using take_prefix _ _

theorem move_sent (v : NodeID) (args : AppendEntriesArgs) (hmsg : .append v args ∈ (s.move m).msgs) :
    args.leaderCommit ≤ args.prevLogIndex + args.entries.length ∧
      Backed C (s.move m) args.term args.leaderCommit ((s.move m).leaderLog args.term) := by
  have grown := logs.grown base enabled one
  rcases Proto.mem_msgs_move.mp hmsg with new | old
  · cases m <;> simp only [Proto.sends, reduceCtorEq, some.injEq, Msg.append.injEq] at new
    case sendAppend i w prev =>
      obtain ⟨rfl, rfl⟩ := new
      have backed := inv.commit i
      have len := backed.le_length
      have room := enabled.2.2.2
      refine ⟨by simp [appendArgs]; omega, ?_⟩
      have own := logs.leader i enabled.2.2.1
      exact (own ▸ backed).move grown
  · obtain ⟨covered, backed⟩ := inv.sent v args old
    exact ⟨covered, (backed.move grown).extend (grown _)⟩

theorem move_applied (i : NodeID) (n : Nat) (x : LogEntry)
    (applied : (i, n, x) ∈ (s.move m).applied) :
    ∃ t k p, n = p + 1 ∧ p ≤ k ∧ Committed C (s.move m) t k ∧
      ((s.move m).leaderLog t)[p]? = some x := by
  have grown := logs.grown base enabled one
  have before : ∃ t k p, n = p + 1 ∧ p ≤ k ∧ Committed C s t k ∧
      (s.leaderLog t)[p]? = some x := by
    cases m
    case apply j index entry =>
      rcases mem_cons.mp applied with new | old
      · obtain ⟨rfl, rfl, rfl⟩ : i = j ∧ n = index + 1 ∧ x = entry := by simpa using new
        obtain ⟨-, lt, at_index⟩ := enabled
        rcases inv.commit i with zero | ⟨t, k, -, committed, short, front⟩
        · omega
        · refine ⟨t, k, index, rfl, by omega, committed, ?_⟩
          have len : index < (s.leaderLog t).length := by
            have := committed.marks.lt
            omega
          grind [getElem?_of_isPre]
      · exact inv.applied i n x old
    all_goals exact inv.applied i n x applied
  obtain ⟨t, k, p, rfl, le, committed, at_p⟩ := before
  exact ⟨t, k, p, rfl, le, committed.move grown, getElem?_of_isPre (grown t) at_p⟩

theorem move (sound : SoundReplies s m) : Commitment C (s.move m) where
  ack_len := inv.move_ack_len logs base enabled one sound
  persist := inv.move_persist logs base enabled one sound
  voter := inv.move_voter logs base enabled one
  request := inv.move_request base enabled
  complete := inv.move_complete logs base enabled one
  matched_len := inv.move_matched_len logs enabled sound
  matched := inv.move_matched enabled sound
  commit := inv.move_commit logs base enabled one
  sent := inv.move_sent logs base enabled one
  applied := inv.move_applied logs base enabled one

end

end Commitment

theorem commitment_of_steps {voteOnce : Prop} {t : Proto}
    (steps : Steps (protocol C) (Policy voteOnce True) .initial t) (one : t.OneLeaderPerTerm) :
    Logs t ∧ Commitment C t := by
  have inv : Ballots C t ∧ (t.OneLeaderPerTerm → Logs t ∧ Commitment C t) :=
    steps.invariant (fun s => Ballots C s ∧ (s.OneLeaderPerTerm → Logs s ∧ Commitment C s))
      (fun s m enabled side inv => ⟨inv.1.move enabled, fun one =>
        have before := inv.2 one.of_move
        ⟨before.1.move inv.1 enabled one,
          before.2.move before.1 inv.1 enabled one (side.2 trivial)⟩⟩)
      ⟨.initial, fun _ => ⟨.initial, .initial⟩⟩
  exact inv.2 one

end PubsubBroker.Raft
