import Mathlib

/-! # The follower side of `append_entries`

    Model of `consensus::do_append_entries` (`raft/consensus.cc`) over the
    part of the follower's state it reads and writes for the log: the current
    term and vote, the log itself, the commit index and the flushed offset.

    The log is a start offset and the term of every entry from there on;
    a batch of the request occupies `last_offset_delta + 1` consecutive
    offsets of one term.  Appending goes through `disk_log_appender`, which
    stamps each batch with the log's next offset, whatever offset the
    leader gave it.  The `peek_each_ref` scan for the first mismatch pops
    every batch it accepts, so what the handler sees afterwards is the rest
    of the reader.

    The handler calls itself after a term bump and after a truncation; the
    model runs it with explicit fuel, and a run that exhausts the fuel
    returns `none`. -/

namespace Consensus

/-- `model::term_id{}` and `model::offset{}`: the minimum of `int64_t`. -/
def unsetValue : Int := -2 ^ 63

/-- `raft::vnode`. -/
structure Vnode where
  id : Int
  revision : Int
deriving DecidableEq, Repr

/-- A batch of an `append_entries` request, as the follower reads it. -/
structure Batch where
  term : Int
  lastOffsetDelta : Nat
deriving DecidableEq, Repr

/-- The follower's log: the entry at `startOffset + i` has term `terms[i]`. -/
structure RaftLog where
  startOffset : Int
  terms : List Int
deriving DecidableEq, Repr

namespace RaftLog

/-- `offset_stats::dirty_offset`: the last offset, or the one before the
    start for an empty log. -/
def dirtyOffset (l : RaftLog) : Int := l.startOffset + l.terms.length - 1

/-- `storage::log::get_term`. -/
def getTerm (l : RaftLog) (o : Int) : Option Int :=
  if l.startOffset ≤ o then l.terms[(o - l.startOffset).toNat]? else none

/-- `offset_stats::dirty_offset_term`. -/
def dirtyOffsetTerm (l : RaftLog) : Option Int := l.terms.getLast?

/-- `truncate(truncate_config(offset))`: drop every entry at or past
    `offset`. -/
def truncate (l : RaftLog) (offset : Int) : RaftLog :=
  { l with terms := l.terms.take (offset - l.startOffset).toNat }

/-- `disk_append`: each batch lands at the log's next offset. -/
def append (l : RaftLog) (batches : List Batch) : RaftLog :=
  { l with terms := l.terms ++ batches.flatMap fun b => List.replicate (b.lastOffsetDelta + 1) b.term }

end RaftLog

/-- The follower state `do_append_entries` reads and writes for the log. -/
structure Follower where
  term : Int
  votedFor : Option Vnode
  leaderId : Option Vnode
  log : RaftLog
  commitIndex : Int
  flushedOffset : Int
  lastSnapshotTerm : Int
deriving DecidableEq, Repr

/-- The `protocol_metadata` of a request and its batches. -/
structure AppendEntriesRequest where
  sourceNode : Vnode
  term : Int
  prevLogIndex : Int
  prevLogTerm : Int
  commitIndex : Int
  flush : Bool
  batches : List Batch
deriving DecidableEq, Repr

/-- `reply_result`. -/
inductive ReplyResult where
  | success
  | failure
deriving DecidableEq, Repr

/-- The `append_entries_reply` fields that describe the follower's log. -/
structure AppendEntriesReply where
  term : Int
  lastDirtyLogIndex : Int
  lastFlushedLogIndex : Int
  result : ReplyResult
deriving DecidableEq, Repr

/-- `consensus::get_term`. -/
def getTerm (s : Follower) (o : Int) : Int :=
  if o < 0 then unsetValue
  else if o = s.log.dirtyOffset ∧ s.log.startOffset > s.log.dirtyOffset then s.lastSnapshotTerm
  else (s.log.getTerm o).getD unsetValue

/-- `maybe_update_follower_commit_idx`. -/
def maybeUpdateFollowerCommitIdx (s : Follower) (requestCommitIdx : Int) : Follower :=
  if requestCommitIdx > s.commitIndex then
    { s with commitIndex := min requestCommitIdx s.flushedOffset }
  else s

/-- The `find_mismatch_consumer` run by `peek_each_ref`: from `lastMatched`,
    accept batches while they fit below the log end and their last offset
    has the same term here; the accepted batches are popped from the
    reader. -/
def findMismatch (s : Follower) (lastLogOffset : Int) :
    Int → List Batch → Int × List Batch
  | lastMatched, [] => (lastMatched, [])
  | lastMatched, b :: bs =>
      let lastBatchOffset := lastMatched + (b.lastOffsetDelta + 1)
      if lastBatchOffset > lastLogOffset ∨ getTerm s lastBatchOffset ≠ b.term then
        (lastMatched, b :: bs)
      else findMismatch s lastLogOffset lastBatchOffset bs

/-- What one invocation of the handler ends in: a reply, or a
    re-invocation with the same request on a changed state. -/
inductive Outcome where
  | reply (s : Follower) (reply : AppendEntriesReply)
  | reinvoke (s : Follower) (r : AppendEntriesRequest)

/-- The reply `do_append_entries` starts from: a failure that reports the
    current log. -/
def failureReply (s : Follower) : AppendEntriesReply :=
  { term := s.term
    lastDirtyLogIndex := s.log.dirtyOffset
    lastFlushedLogIndex := s.flushedOffset
    result := .failure }

/-- The term at `prev_log_index` the handler compares with the request. -/
def lastLogTerm (s : Follower) (prevLogIndex : Int) : Int :=
  if s.log.dirtyOffset = prevLogIndex then s.log.dirtyOffsetTerm.getD unsetValue
  else getTerm s prevLogIndex

/-- The batches-done branch: a heartbeat, or a request whose batches were all
    present already. -/
def heartbeat (s : Follower) (r : AppendEntriesRequest) (adjusted : Int) : Outcome :=
  if adjusted < s.log.dirtyOffset then .reply s (failureReply s)
  else
    let s := if r.flush ∧ s.log.dirtyOffset > s.flushedOffset then
        { s with flushedOffset := s.log.dirtyOffset }
      else s
    let s := maybeUpdateFollowerCommitIdx s r.commitIndex
    .reply s { failureReply s with
      lastDirtyLogIndex := s.log.dirtyOffset
      result := .success }

/-- Section 3 with batches left: below the log end, a stale request (below
    the commit index) is answered without change and otherwise the log is
    truncated just past `adjusted` and the handler re-invoked; at the log
    end the batches are appended. -/
def appendOrTruncate (s : Follower) (r : AppendEntriesRequest) (adjusted : Int)
    (batches : List Batch) : Outcome :=
  if adjusted < s.log.dirtyOffset then
    if adjusted < s.commitIndex then
      -- a stale request: report the commit index, touch nothing
      .reply s { failureReply s with
        lastDirtyLogIndex := s.commitIndex
        lastFlushedLogIndex := s.commitIndex
        result := .success }
    else
      let s := { s with
        flushedOffset := min adjusted s.flushedOffset
        log := s.log.truncate (adjusted + 1) }
      -- a truncation that did not land on `adjusted` clamps the flushed offset
      let s := if s.log.dirtyOffset ≠ adjusted then
          { s with flushedOffset := min (s.log.dirtyOffset - 1) s.flushedOffset }
        else s
      .reinvoke s { r with batches := batches }
  else
    let s := { s with log := s.log.append batches }
    let s := maybeUpdateFollowerCommitIdx s r.commitIndex
    .reply s { failureReply s with result := .success }

/-- The `peek_each_ref` scan: the offset up to which the request's batches
    are already in the log, and the batches left in the reader. -/
def skipMatching (s : Follower) (r : AppendEntriesRequest) : Int × List Batch :=
  if r.prevLogIndex < s.log.dirtyOffset then
    findMismatch s s.log.dirtyOffset r.prevLogIndex r.batches
  else (r.prevLogIndex, r.batches)

/-- `do_append_entries` once the request's term is the follower's: the
    consistency checks, then the scan and what follows it. -/
def appendFromLeader (s : Follower) (r : AppendEntriesRequest) : Outcome :=
  -- section 1: the entry must not leave a gap
  if r.prevLogIndex > s.log.dirtyOffset then .reply s (failureReply s)
  -- section 2: the term at `prev_log_index` must match
  else if r.prevLogIndex ≥ s.log.startOffset ∧ r.prevLogTerm ≠ lastLogTerm s r.prevLogIndex then
    .reply s (failureReply s)
  else
    match skipMatching s r with
    | (adjusted, []) => heartbeat s r adjusted
    | (adjusted, b :: bs) => appendOrTruncate s r adjusted (b :: bs)

/-- One invocation of `consensus::do_append_entries`. -/
def appendEntriesStep (s : Follower) (r : AppendEntriesRequest) : Outcome :=
  -- raft.pdf: reply false if term < currentTerm
  if r.term < s.term then .reply s (failureReply s)
  else if r.term > s.term then
    .reinvoke { s with term := r.term, votedFor := none, leaderId := some r.sourceNode } r
  else appendFromLeader { s with leaderId := some r.sourceNode } r

/-- `consensus::do_append_entries` with its re-invocations, `fuel` bounding
    them; `none` when the fuel runs out. -/
def doAppendEntries : Nat → Follower → AppendEntriesRequest →
    Option (Follower × AppendEntriesReply)
  | 0, _, _ => none
  | fuel + 1, s, r =>
      match appendEntriesStep s r with
      | .reply s' reply => some (s', reply)
      | .reinvoke s' r' => doAppendEntries fuel s' r'

namespace RaftLog

@[simp] theorem truncate_startOffset (l : RaftLog) (offset : Int) :
    (l.truncate offset).startOffset = l.startOffset := rfl

@[simp] theorem truncate_terms (l : RaftLog) (offset : Int) :
    (l.truncate offset).terms = l.terms.take (offset - l.startOffset).toNat := rfl

@[simp] theorem append_startOffset (l : RaftLog) (batches : List Batch) :
    (l.append batches).startOffset = l.startOffset := rfl

theorem getTerm_truncate (l : RaftLog) {offset o : Int} (h : o < offset) :
    (l.truncate offset).getTerm o = l.getTerm o := by
  unfold getTerm
  rw [truncate_startOffset, truncate_terms]
  by_cases hs : l.startOffset ≤ o
  · rw [if_pos hs, if_pos hs]
    have hlt : (o - l.startOffset).toNat < (offset - l.startOffset).toNat := by omega
    exact List.getElem?_take_of_lt hlt
  · rw [if_neg hs, if_neg hs]

theorem getTerm_append (l : RaftLog) (batches : List Batch) {o t : Int}
    (h : l.getTerm o = some t) : (l.append batches).getTerm o = some t := by
  unfold getTerm at h ⊢
  unfold append
  split at h
  · obtain ⟨hlt, -⟩ := List.getElem?_eq_some_iff.mp h
    rw [if_pos (by assumption)]
    rw [List.getElem?_append_left hlt]
    exact h
  · cases h

end RaftLog

/-! ## What one invocation does to the log -/

@[simp] theorem maybeUpdateFollowerCommitIdx_log (s : Follower) (c : Int) :
    (maybeUpdateFollowerCommitIdx s c).log = s.log := by
  unfold maybeUpdateFollowerCommitIdx
  split <;> rfl

section Step

variable {s s' : Follower} {r r' : AppendEntriesRequest} {rep : AppendEntriesReply}

theorem heartbeat_ne_reinvoke (a : Int) : heartbeat s r a ≠ .reinvoke s' r' := by
  unfold heartbeat
  split <;> simp

theorem heartbeat_reply_log {a : Int} (h : heartbeat s r a = .reply s' rep) :
    s'.log = s.log := by
  unfold heartbeat at h
  split at h
  · cases h
    rfl
  · cases h
    rw [maybeUpdateFollowerCommitIdx_log]
    split <;> rfl

theorem appendOrTruncate_reply_log {a : Int} {bs : List Batch}
    (h : appendOrTruncate s r a bs = .reply s' rep) :
    s'.log = s.log ∨ s'.log = s.log.append bs := by
  unfold appendOrTruncate at h
  split at h
  · split at h
    · cases h
      exact .inl rfl
    · cases h
  · cases h
    exact .inr (maybeUpdateFollowerCommitIdx_log _ _)

/-- A truncating invocation cuts only past a point at or above the commit
    index, and leaves the commit index alone. -/
theorem appendOrTruncate_reinvoke {a : Int} {bs : List Batch}
    (h : appendOrTruncate s r a bs = .reinvoke s' r') :
    s.commitIndex ≤ a ∧ s'.commitIndex = s.commitIndex ∧
      s'.log = s.log.truncate (a + 1) ∧ r' = { r with batches := bs } := by
  unfold appendOrTruncate at h
  split at h
  · split at h
    · cases h
    · rename_i hstale
      cases h
      refine ⟨by omega, ?_, ?_, rfl⟩ <;> split <;> rfl
  · cases h

theorem appendFromLeader_reply_log (h : appendFromLeader s r = .reply s' rep) :
    s'.log = s.log ∨ ∃ bs, s'.log = s.log.append bs := by
  unfold appendFromLeader at h
  split at h
  · cases h
    exact .inl rfl
  split at h
  · cases h
    exact .inl rfl
  split at h
  · exact .inl (heartbeat_reply_log h)
  · rcases appendOrTruncate_reply_log h with hkeep | happ
    · exact .inl hkeep
    · exact .inr ⟨_, happ⟩

theorem appendFromLeader_reinvoke (h : appendFromLeader s r = .reinvoke s' r') :
    s'.commitIndex = s.commitIndex ∧
      ∃ a, s.commitIndex ≤ a ∧ s'.log = s.log.truncate (a + 1) := by
  unfold appendFromLeader at h
  split at h
  · cases h
  split at h
  · cases h
  split at h
  · exact absurd h (heartbeat_ne_reinvoke _)
  · obtain ⟨hle, hcommit, hlog, -⟩ := appendOrTruncate_reinvoke h
    exact ⟨hcommit, _, hle, hlog⟩

/-- **ONE INVOCATION, REPLYING**: the log is kept, or batches are appended
    to it. -/
theorem appendEntriesStep_reply_log (h : appendEntriesStep s r = .reply s' rep) :
    s'.log = s.log ∨ ∃ bs, s'.log = s.log.append bs := by
  unfold appendEntriesStep at h
  split at h
  · cases h
    exact .inl rfl
  split at h
  · cases h
  · -- the leader id is set first; the log is the one the request found
    have hlog := appendFromLeader_reply_log h
    exact hlog

/-- **ONE INVOCATION, RE-INVOKING**: a term bump keeps the log; a
    truncation cuts only past a point at or above the commit index.  Neither
    touches the commit index. -/
theorem appendEntriesStep_reinvoke (h : appendEntriesStep s r = .reinvoke s' r') :
    s'.commitIndex = s.commitIndex ∧
      (s'.log = s.log ∨ ∃ a, s.commitIndex ≤ a ∧ s'.log = s.log.truncate (a + 1)) := by
  unfold appendEntriesStep at h
  split at h
  · cases h
  split at h
  · cases h
    exact ⟨rfl, .inl rfl⟩
  · have hcut := appendFromLeader_reinvoke h
    exact ⟨hcut.1, .inr hcut.2⟩

end Step

/-! ## The driver -/

section Driver

variable {s s' : Follower} {r r' : AppendEntriesRequest} {rep : AppendEntriesReply}

theorem doAppendEntries_succ_of_reply (fuel : Nat) (h : appendEntriesStep s r = .reply s' rep) :
    doAppendEntries (fuel + 1) s r = some (s', rep) := by
  rw [doAppendEntries, h]

theorem doAppendEntries_succ_of_reinvoke (fuel : Nat)
    (h : appendEntriesStep s r = .reinvoke s' r') :
    doAppendEntries (fuel + 1) s r = doAppendEntries fuel s' r' := by
  rw [doAppendEntries, h]

theorem appendEntriesStep_of_term_lt (h : r.term < s.term) :
    appendEntriesStep s r = .reply s (failureReply s) := by
  unfold appendEntriesStep
  rw [if_pos h]

theorem appendEntriesStep_of_term_gt (h : r.term > s.term) :
    appendEntriesStep s r =
      .reinvoke { s with term := r.term, votedFor := none, leaderId := some r.sourceNode } r := by
  unfold appendEntriesStep
  rw [if_neg (by omega), if_pos h]

theorem appendEntriesStep_of_term_eq (h : r.term = s.term) :
    appendEntriesStep s r = appendFromLeader { s with leaderId := some r.sourceNode } r := by
  unfold appendEntriesStep
  rw [if_neg (by omega), if_neg (by omega)]

end Driver

/-! ## Committed entries survive a whole run -/

/-- Every entry of `l` at an offset up to `c` is in `l'` with its term. -/
def KeepsUpTo (c : Int) (l l' : RaftLog) : Prop :=
  ∀ o t, o ≤ c → l.getTerm o = some t → l'.getTerm o = some t

namespace KeepsUpTo

theorem refl (c : Int) (l : RaftLog) : KeepsUpTo c l l := fun _ _ _ h => h

theorem trans {c : Int} {l₁ l₂ l₃ : RaftLog} (h₁ : KeepsUpTo c l₁ l₂)
    (h₂ : KeepsUpTo c l₂ l₃) : KeepsUpTo c l₁ l₃ :=
  fun o t ho h => h₂ o t ho (h₁ o t ho h)

theorem append (c : Int) (l : RaftLog) (bs : List Batch) : KeepsUpTo c l (l.append bs) :=
  fun _ _ _ h => l.getTerm_append bs h

theorem truncate {c a : Int} (l : RaftLog) (h : c ≤ a) : KeepsUpTo c l (l.truncate (a + 1)) := by
  intro o t ho hget
  rw [l.getTerm_truncate (by omega)]
  exact hget

end KeepsUpTo

theorem appendEntriesStep_reply_keeps {s s' : Follower} {r : AppendEntriesRequest}
    {rep : AppendEntriesReply} (h : appendEntriesStep s r = .reply s' rep) :
    KeepsUpTo s.commitIndex s.log s'.log := by
  rcases appendEntriesStep_reply_log h with hkeep | ⟨bs, happ⟩
  · rw [hkeep]
    exact KeepsUpTo.refl _ _
  · rw [happ]
    exact KeepsUpTo.append _ _ _

theorem appendEntriesStep_reinvoke_keeps {s s' : Follower} {r r' : AppendEntriesRequest}
    (h : appendEntriesStep s r = .reinvoke s' r') :
    s'.commitIndex = s.commitIndex ∧ KeepsUpTo s.commitIndex s.log s'.log := by
  obtain ⟨hcommit, hkeep | ⟨a, hle, hcut⟩⟩ := appendEntriesStep_reinvoke h
  · rw [hkeep]
    exact ⟨hcommit, KeepsUpTo.refl _ _⟩
  · rw [hcut]
    exact ⟨hcommit, KeepsUpTo.truncate _ hle⟩

/-- **COMMITTED ENTRIES SURVIVE**: however many times the handler calls
    itself, every entry at or below the commit index it started from is in
    the final log with the same term. -/
theorem doAppendEntries_keeps_committed (fuel : Nat) (s : Follower) (r : AppendEntriesRequest)
    {s' : Follower} {rep : AppendEntriesReply} (h : doAppendEntries fuel s r = some (s', rep)) :
    KeepsUpTo s.commitIndex s.log s'.log := by
  -- induction on the fuel; each re-invocation keeps the commit index, so the
  -- bound the hypothesis gives for the rest of the run is the same one
  induction fuel generalizing s r with
  | zero => cases h
  | succ fuel ih =>
      cases hstep : appendEntriesStep s r with
      | reply s₁ rep₁ =>
          rw [doAppendEntries_succ_of_reply fuel hstep] at h
          cases h
          exact appendEntriesStep_reply_keeps hstep
      | reinvoke s₁ r₁ =>
          rw [doAppendEntries_succ_of_reinvoke fuel hstep] at h
          obtain ⟨hcommit, hkeep⟩ := appendEntriesStep_reinvoke_keeps hstep
          have hrest := ih s₁ r₁ h
          rw [hcommit] at hrest
          exact hkeep.trans hrest

/-! ## Rejected requests -/

/-- The consistency checks of sections 1 and 2 fail: the request would leave
    a gap, or the term at `prev_log_index` differs. -/
def Rejects (s : Follower) (r : AppendEntriesRequest) : Prop :=
  r.prevLogIndex > s.log.dirtyOffset ∨
    (r.prevLogIndex ≥ s.log.startOffset ∧ r.prevLogTerm ≠ lastLogTerm s r.prevLogIndex)

theorem appendFromLeader_of_rejects {s : Follower} {r : AppendEntriesRequest}
    (h : Rejects s r) : appendFromLeader s r = .reply s (failureReply s) := by
  unfold appendFromLeader
  by_cases hgap : r.prevLogIndex > s.log.dirtyOffset
  · rw [if_pos hgap]
  · rw [if_neg hgap, if_pos (h.resolve_left hgap)]

/-- **REJECTION KEEPS THE LOG**: a request that fails the consistency
    checks gets a failure reply, after a term bump if it carries a newer
    term, and the log is left as it was. -/
theorem doAppendEntries_rejects (fuel : Nat) (s : Follower) (r : AppendEntriesRequest)
    {s' : Follower} {rep : AppendEntriesReply} (hrej : Rejects s r)
    (h : doAppendEntries fuel s r = some (s', rep)) :
    rep.result = .failure ∧ s'.log = s.log := by
  -- a term bump re-invokes with the same request on a state with the same
  -- log and snapshot term, so the checks fail again
  induction fuel generalizing s with
  | zero => cases h
  | succ fuel ih =>
      by_cases hlt : r.term < s.term
      · rw [doAppendEntries_succ_of_reply fuel (appendEntriesStep_of_term_lt hlt)] at h
        cases h
        exact ⟨rfl, rfl⟩
      by_cases hgt : r.term > s.term
      · rw [doAppendEntries_succ_of_reinvoke fuel (appendEntriesStep_of_term_gt hgt)] at h
        exact ih { s with term := r.term, votedFor := none, leaderId := some r.sourceNode } hrej h
      · have hstep : appendEntriesStep s r = .reply _ _ :=
          (appendEntriesStep_of_term_eq (by omega)).trans (appendFromLeader_of_rejects hrej)
        rw [doAppendEntries_succ_of_reply fuel hstep] at h
        cases h
        exact ⟨rfl, rfl⟩

/-! ## Every request is answered -/

namespace RaftLog

theorem dirtyOffset_truncate (l : RaftLog) {a : Int} (hstart : l.startOffset - 1 ≤ a)
    (hdirty : a < l.dirtyOffset) : (l.truncate (a + 1)).dirtyOffset = a := by
  unfold dirtyOffset at hdirty ⊢
  rw [truncate_startOffset, truncate_terms, List.length_take]
  omega

end RaftLog

/-- The scan pops the batches it accepts: it leaves the request as it is,
    or fewer batches. -/
theorem findMismatch_shrinks (s : Follower) (lastLogOffset : Int) :
    ∀ (lastMatched : Int) (bs : List Batch),
      findMismatch s lastLogOffset lastMatched bs = (lastMatched, bs) ∨
        (findMismatch s lastLogOffset lastMatched bs).2.length < bs.length
  | lastMatched, [] => .inl rfl
  | lastMatched, b :: bs => by
      unfold findMismatch
      dsimp only
      split
      · exact .inl rfl
      · right
        rcases findMismatch_shrinks s lastLogOffset _ bs with hsame | hless
        · rw [hsame]
          exact Nat.lt_succ_self _
        · rw [List.length_cons]
          omega

theorem skipMatching_shrinks (s : Follower) (r : AppendEntriesRequest) :
    skipMatching s r = (r.prevLogIndex, r.batches) ∨
      (skipMatching s r).2.length < r.batches.length := by
  unfold skipMatching
  split
  · exact findMismatch_shrinks s _ _ _
  · exact .inl rfl

theorem appendOrTruncate_reinvoke_term {s s' : Follower} {r r' : AppendEntriesRequest}
    {a : Int} {bs : List Batch} (h : appendOrTruncate s r a bs = .reinvoke s' r') :
    a < s.log.dirtyOffset ∧ s'.term = s.term := by
  unfold appendOrTruncate at h
  split at h
  · rename_i hdirty
    split at h
    · cases h
    · cases h
      refine ⟨hdirty, ?_⟩
      split <;> rfl
  · cases h

/-- What a re-invocation after a truncation starts from: the request keeps
    its term and `prev_log_index` and loses the batches the scan popped; the
    log ends at the mismatch when the scan popped none. -/
theorem appendFromLeader_reinvoke_progress {s s' : Follower} {r r' : AppendEntriesRequest}
    (hstart : s.log.startOffset - 1 ≤ s.commitIndex)
    (h : appendFromLeader s r = .reinvoke s' r') :
    s'.term = s.term ∧ s'.commitIndex = s.commitIndex ∧
      s'.log.startOffset = s.log.startOffset ∧ r'.term = r.term ∧
      r'.prevLogIndex = r.prevLogIndex ∧
      (r'.batches.length < r.batches.length ∨ s'.log.dirtyOffset = r.prevLogIndex) := by
  unfold appendFromLeader at h
  split at h
  · cases h
  split at h
  · cases h
  split at h
  · exact absurd h (heartbeat_ne_reinvoke _)
  · rename_i adjusted b bs hscan
    obtain ⟨hdirty, hterm⟩ := appendOrTruncate_reinvoke_term h
    obtain ⟨hle, hcommit, hlog, rfl⟩ := appendOrTruncate_reinvoke h
    refine ⟨hterm, hcommit, by rw [hlog]; rfl, rfl, rfl, ?_⟩
    rcases skipMatching_shrinks s r with hsame | hless
    · -- nothing popped: the cut lands on `prev_log_index`
      rw [hscan, Prod.mk.injEq] at hsame
      obtain ⟨rfl, -⟩ := hsame
      exact .inr (by rw [hlog]; exact s.log.dirtyOffset_truncate (by omega) hdirty)
    · rw [hscan] at hless
      exact .inl hless

theorem heartbeat_is_reply (s : Follower) (r : AppendEntriesRequest) (a : Int) :
    ∃ s' rep, heartbeat s r a = .reply s' rep := by
  cases h : heartbeat s r a with
  | reply s' rep => exact ⟨s', rep, rfl⟩
  | reinvoke s' r' => exact absurd h (heartbeat_ne_reinvoke _)

/-- At the log end the batches are appended. -/
theorem appendOrTruncate_of_dirty_le {s : Follower} {r : AppendEntriesRequest} {a : Int}
    {bs : List Batch} (h : s.log.dirtyOffset ≤ a) :
    ∃ s' rep, appendOrTruncate s r a bs = .reply s' rep := by
  unfold appendOrTruncate
  rw [if_neg (by omega)]
  exact ⟨_, _, rfl⟩

/-- A request whose `prev_log_index` is at or past the log end is answered
    without a re-invocation. -/
theorem appendFromLeader_of_dirty_le {s : Follower} {r : AppendEntriesRequest}
    (h : s.log.dirtyOffset ≤ r.prevLogIndex) :
    ∃ s' rep, appendFromLeader s r = .reply s' rep := by
  have hskip : skipMatching s r = (r.prevLogIndex, r.batches) := by
    unfold skipMatching
    rw [if_neg (by omega)]
  unfold appendFromLeader
  by_cases hgap : r.prevLogIndex > s.log.dirtyOffset
  · rw [if_pos hgap]
    exact ⟨_, _, rfl⟩
  rw [if_neg hgap]
  by_cases hterm : r.prevLogIndex ≥ s.log.startOffset ∧ r.prevLogTerm ≠ lastLogTerm s r.prevLogIndex
  · rw [if_pos hterm]
    exact ⟨_, _, rfl⟩
  rw [if_neg hterm, hskip]
  cases r.batches with
  | nil => exact heartbeat_is_reply s r _
  | cons b bs => exact appendOrTruncate_of_dirty_le (by omega)

/-- One invocation in the request's own term, on a log that starts no later
    than just past the commit index: a reply, or a re-invocation that keeps
    all of this and pops a batch or cuts the log back to `prev_log_index`. -/
theorem appendEntriesStep_progress {s : Follower} {r : AppendEntriesRequest}
    (hterm : r.term = s.term) (hstart : s.log.startOffset - 1 ≤ s.commitIndex) :
    (∃ s₁ rep, appendEntriesStep s r = .reply s₁ rep) ∨
      ∃ s₁ r₁, appendEntriesStep s r = .reinvoke s₁ r₁ ∧ r₁.term = s₁.term ∧
        s₁.log.startOffset - 1 ≤ s₁.commitIndex ∧
        (r₁.batches.length < r.batches.length ∨ s₁.log.dirtyOffset ≤ r₁.prevLogIndex) := by
  rw [appendEntriesStep_of_term_eq hterm]
  cases hstep : appendFromLeader { s with leaderId := some r.sourceNode } r with
  | reply s₁ rep => exact .inl ⟨s₁, rep, rfl⟩
  | reinvoke s₁ r₁ =>
      obtain ⟨hterm₁, hcommit₁, hstart₁, hrterm, hprev, hprogress⟩ :=
        appendFromLeader_reinvoke_progress (s := { s with leaderId := some r.sourceNode }) hstart hstep
      refine .inr ⟨s₁, r₁, rfl, by rw [hrterm, hterm₁]; exact hterm,
        by rw [hstart₁, hcommit₁]; exact hstart, ?_⟩
      rcases hprogress with hless | hcut
      · exact .inl hless
      · exact .inr (by rw [hprev, hcut])

/-- In the request's own term, `batches + 2` invocations are enough. -/
theorem doAppendEntries_isSome_of_term_eq (fuel : Nat) :
    ∀ (s : Follower) (r : AppendEntriesRequest), r.term = s.term →
      s.log.startOffset - 1 ≤ s.commitIndex → r.batches.length + 2 ≤ fuel →
      (doAppendEntries fuel s r).isSome := by
  -- induction on the fuel: a truncation pops a batch, or cuts the log back
  -- to `prev_log_index`, after which the next invocation answers
  induction fuel with
  | zero =>
      intro s r _ _ hfuel
      omega
  | succ fuel ih =>
      intro s r hterm hstart hfuel
      rcases appendEntriesStep_progress hterm hstart with
        ⟨s₁, rep, hstep⟩ | ⟨s₁, r₁, hstep, hterm₁, hstart₁, hless | hcut⟩
      · rw [doAppendEntries_succ_of_reply fuel hstep]
        rfl
      · rw [doAppendEntries_succ_of_reinvoke fuel hstep]
        exact ih s₁ r₁ hterm₁ hstart₁ (by omega)
      · rw [doAppendEntries_succ_of_reinvoke fuel hstep]
        obtain ⟨fuel', rfl⟩ : ∃ fuel', fuel = fuel' + 1 := ⟨fuel - 1, by omega⟩
        obtain ⟨s₂, rep₂, hreply⟩ := appendFromLeader_of_dirty_le
          (s := { s₁ with leaderId := some r₁.sourceNode }) hcut
        rw [doAppendEntries_succ_of_reply fuel' ((appendEntriesStep_of_term_eq hterm₁).trans hreply)]
        rfl

/-- **EVERY REQUEST IS ANSWERED**: on a follower whose log starts no later
    than just past its commit index, `batches + 3` invocations of the
    handler (a term bump, one per popped batch, a cut back to
    `prev_log_index` and the answer) always reach a reply. -/
theorem doAppendEntries_isSome (s : Follower) (r : AppendEntriesRequest)
    (hstart : s.log.startOffset - 1 ≤ s.commitIndex) :
    (doAppendEntries (r.batches.length + 3) s r).isSome := by
  by_cases heq : r.term = s.term
  · exact doAppendEntries_isSome_of_term_eq _ s r heq hstart (by omega)
  show (doAppendEntries (r.batches.length + 2 + 1) s r).isSome
  by_cases hlt : r.term < s.term
  · rw [doAppendEntries_succ_of_reply _ (appendEntriesStep_of_term_lt hlt)]
    rfl
  · -- the term bump re-invokes in the request's term
    rw [doAppendEntries_succ_of_reinvoke _ (appendEntriesStep_of_term_gt (by omega))]
    exact doAppendEntries_isSome_of_term_eq _ _ r rfl hstart (by omega)

/-- **THE DEFECT**, at a concrete request: a follower of term 1 whose log
    holds `(0, 1), (1, 1), (2, 1)`, with nothing committed past offset 0,
    receives from the leader of term 2 the entries `(1, 1), (2, 2)` after
    `prev_log_index = 0`.  After the term bump, the first pass pops the
    matching batch `(1, 1)` and truncates at offset 2.  The re-invocation
    scans the remaining batch from the original `prev_log_index`, so it
    compares the batch of offset 2 against offset 1, truncates at offset 1,
    and appends the batch there. -/
theorem doAppendEntries_reinvocation_truncates_matching_entry :
    (doAppendEntries 6
        { term := 1, votedFor := none, leaderId := none, log := ⟨0, [1, 1, 1]⟩,
          commitIndex := 0, flushedOffset := 2, lastSnapshotTerm := unsetValue }
        { sourceNode := ⟨1, 0⟩, term := 2, prevLogIndex := 0, prevLogTerm := 1,
          commitIndex := 0, flush := false, batches := [⟨1, 0⟩, ⟨2, 0⟩] }).map
      (fun res => (res.1.log, res.2.result))
      = some (⟨0, [1, 2]⟩, .success) := by
  decide

end Consensus
